import Mathlib.Data.Finset.Sort
import Mathlib.Data.String.Basic
import Mathlib.Algebra.Order.BigOperators.Group.List
import Mathlib.Algebra.Order.Ring.Nat
import XMustard.Machine.Fair

/-!
# Invalidation passes of watched roots

The watcher reports changed paths from many goroutines. The first report of a root starts a
goroutine that makes one invalidation pass after another over the paths that have come in; the
reports that arrive meanwhile only add to the paths waiting. What is done under the lock is one
event here.
-/

namespace WorkspaceOps

open Machine Option

/-- What a goroutine does next. -/
inductive WatchThread
  /-- A report before it takes the lock. -/
  | reporting (root : String) (paths : List String)
  /-- A report that found no pass running, before it starts the goroutine of the root. -/
  | launching (root : String)
  /-- The goroutine of a root before it takes the lock. -/
  | draining (root : String)
  /-- The goroutine of a root in an invalidation pass over a batch. -/
  | passing (root : String) (batch : List String)
  | returned
  deriving DecidableEq

/-- The variables that the callback closes over, the context, and the goroutines. -/
structure Watch where
  cancelled : Bool := false
  /-- The paths waiting by root; a key present means a pass is running. -/
  pending : String → Option (Finset String) := fun _ => none
  threads : List WatchThread := []

inductive WatchEvent
  | report (root : String) (paths : List String)
  | run (thread : ℕ)
  | cancel
  | idle
  deriving DecidableEq

namespace Watch

/-- A goroutine goes on as `t`, with these paths waiting for `root`. -/
def resume (w : Watch) (i : ℕ) (t : WatchThread) (root : String) (set : Option (Finset String)) :
    Watch :=
  { w with threads := w.threads.set i t, pending := Function.update w.pending root set }

lemma path_trans : IsTrans String (· ≤ ·) := inferInstance

lemma path_antisymm : @Std.Antisymm String (· ≤ ·) := inferInstance

lemma path_total : @Std.Total String (· ≤ ·) := inferInstance

/-- The paths of a batch, in order. -/
def batchOf (paths : Finset String) : List String :=
  @Finset.sort String paths (· ≤ ·) _ path_trans path_antisymm path_total

@[simp] lemma mem_batchOf {path : String} {paths : Finset String} :
    path ∈ batchOf paths ↔ path ∈ paths := Finset.mem_sort _

lemma batchOf_eq_nil {paths : Finset String} : batchOf paths = [] ↔ paths = ∅ := by
  rw [← List.length_eq_zero_iff, batchOf, Finset.length_sort, Finset.card_eq_zero]

/-- The next step of goroutine `i`. -/
def runThread (w : Watch) (i : ℕ) : WatchThread → Option Watch
  | .reporting root paths =>
    match w.pending root with
    | some set => some (w.resume i .returned root (some (set ∪ paths.toFinset)))
    | none => some (w.resume i (.launching root) root (some paths.toFinset))
  | .launching root => some { w with threads := w.threads.set i (.draining root) }
  | .draining root =>
    let batch := batchOf ((w.pending root).getD ∅)
    if batch = [] ∨ w.cancelled then some (w.resume i .returned root none)
    else some (w.resume i (.passing root batch) root (some ∅))
  | .passing root _ => some { w with threads := w.threads.set i (.draining root) }
  | .returned => none

def step (w : Watch) : WatchEvent → Option Watch
  | .report root paths => some { w with threads := w.threads ++ [.reporting root paths] }
  | .run i => w.threads[i]?.bind (w.runThread i)
  | .cancel => some { w with cancelled := true }
  | .idle => some w

/-- A goroutine that has not returned. -/
def Live (i : ℕ) (w : Watch) : Prop := ∃ t, w.threads[i]? = some t ∧ t ≠ .returned

end Watch

/-- An execution of the callback with its goroutines. -/
abbrev WatchRun := Execution Watch.step {}

/-- Every goroutine gets its turns; in particular every invalidation pass returns. -/
def WatchRun.Fair (x : WatchRun) : Prop := Execution.Fair x Watch.Live WatchEvent.run

/-! ### Moves -/

open List

/-- Whether a goroutine is the one that makes the passes of a root, or is about to start it. -/
def WatchThread.serves (root : String) : WatchThread → Bool
  | .launching r | .draining r | .passing r _ => r = root
  | .reporting .. | .returned => false

attribute [simp] WatchThread.serves

variable {root : String} {paths : List String} {α : Type} {set : Option (Finset String)}

namespace Watch

variable {w w' : Watch} {i : ℕ} {t t' : WatchThread} {root : String}

/-- What a goroutine can do when it gets its turn. -/
inductive Move (w : Watch) (i : ℕ) : WatchThread → Watch → Prop
  | join (root : String) (paths : List String) (set : Finset String)
      (running : w.pending root = some set) :
      Move w i (.reporting root paths) (w.resume i .returned root (some (set ∪ paths.toFinset)))
  | enter (root : String) (paths : List String) (idle : w.pending root = none) :
      Move w i (.reporting root paths) (w.resume i (.launching root) root (some paths.toFinset))
  | launch (root : String) :
      Move w i (.launching root) { w with threads := w.threads.set i (.draining root) }
  | leave (root : String) (done : (w.pending root).getD ∅ = ∅ ∨ w.cancelled) :
      Move w i (.draining root) (w.resume i .returned root none)
  | take (root : String) (waiting : (w.pending root).getD ∅ ≠ ∅) (going : w.cancelled = false) :
      Move w i (.draining root)
        (w.resume i (.passing root (batchOf ((w.pending root).getD ∅))) root (some ∅))
  | land (root : String) (batch : List String) :
      Move w i (.passing root batch) { w with threads := w.threads.set i (.draining root) }

lemma step_run (h : w.step (.run i) = some w') : ∃ t, w.threads[i]? = some t ∧ w.Move i t w' := by
  obtain ⟨t, ht, hrun⟩ := bind_eq_some_iff.1 h
  refine ⟨t, ht, ?_⟩
  cases t with
  | reporting root paths =>
    rcases hp : w.pending root with _ | set <;> simp only [runThread, hp, some.injEq] at hrun
    · exact hrun ▸ .enter root paths hp
    · exact hrun ▸ .join root paths set hp
  | launching root => exact some.inj hrun ▸ .launch root
  | draining root =>
    simp only [runThread, batchOf_eq_nil] at hrun
    split_ifs at hrun with hover
    · exact some.inj hrun ▸ .leave root hover
    · rw [not_or, Bool.not_eq_true] at hover
      exact some.inj hrun ▸ .take root hover.1 hover.2
  | passing root batch => exact some.inj hrun ▸ .land root batch
  | returned => cases hrun

/-- What an event can be: a report, a turn of a goroutine, or nothing that goroutines see. -/
lemma step_cases {e : WatchEvent} (h : w.step e = some w') :
    (∃ root paths, e = .report root paths
      ∧ w' = { w with threads := w.threads ++ [.reporting root paths] })
    ∨ (∃ i t, e = .run i ∧ w.threads[i]? = some t ∧ w.Move i t w')
    ∨ ∃ cancelled, w' = { w with cancelled := cancelled } := by
  cases e with
  | report root paths => exact .inl ⟨root, paths, rfl, (some.inj h).symm⟩
  | run i =>
    obtain ⟨t, ht, hm⟩ := step_run h
    exact .inr (.inl ⟨i, t, rfl, ht, hm⟩)
  | cancel => exact .inr (.inr ⟨true, (some.inj h).symm⟩)
  | idle => exact .inr (.inr ⟨w.cancelled, (some.inj h).symm⟩)

/-! ### One goroutine makes the passes of a root -/

/-- A place of a list splits it, and setting the place keeps the parts. -/
lemma exists_split {l : List α} {a : α} (h : l[i]? = some a) (b : α) :
    ∃ l₁ l₂, l = l₁ ++ a :: l₂ ∧ l.set i b = l₁ ++ b :: l₂ := by
  obtain ⟨hi, rfl⟩ := List.getElem?_eq_some_iff.1 h
  obtain ⟨l₁, l₂, hl, -, hset⟩ := exists_of_set hi
  exact ⟨l₁, l₂, hl, hset⟩

lemma countP_set_add (p : α → Bool) {l : List α} {a : α} (h : l[i]? = some a) (b : α) :
    (l.set i b).countP p + (if p a then 1 else 0) = l.countP p + if p b then 1 else 0 := by
  obtain ⟨l₁, l₂, rfl, hset⟩ := exists_split h b
  simp only [hset, countP_append, countP_cons]
  omega

/-- Every root with a key in the map has one goroutine that serves it, and no other root has. -/
def Inv (w : Watch) : Prop :=
  ∀ root, w.threads.countP (WatchThread.serves root) = if (w.pending root).isSome then 1 else 0

/-- The root that a goroutine serves has a key in the map. -/
lemma Inv.isSome (h : w.Inv) (ht : w.threads[i]? = some t) (hserves : t.serves root) :
    (w.pending root).isSome := by
  have hpos : 0 < w.threads.countP (WatchThread.serves root) :=
    countP_pos_iff.2 ⟨t, mem_of_getElem? ht, hserves⟩
  rw [h root] at hpos
  by_contra hnone
  simp [hnone] at hpos

/-- A goroutine of a root goes on; the key of the root comes and goes with it. -/
lemma Inv.resume (h : w.Inv)
    (ht : w.threads[i]? = some t) (hothers : ∀ r ≠ root, t.serves r = t'.serves r)
    (hroot : (if t.serves root then 1 else 0) + (if set.isSome then 1 else 0)
      = (if (w.pending root).isSome then 1 else 0) + if t'.serves root then 1 else 0) :
    (w.resume i t' root set).Inv := by
  intro r
  have hcount := countP_set_add (WatchThread.serves r) ht t'
  rw [h r] at hcount
  change (w.threads.set i t').countP _ = if (Function.update w.pending root set r).isSome then 1
    else 0
  by_cases hr : r = root
  · subst hr
    rw [Function.update_self]
    omega
  · rw [Function.update_of_ne hr]
    rw [hothers r hr] at hcount
    omega

lemma resume_pending (w : Watch) (i : ℕ) (t : WatchThread) (root : String) :
    w.resume i t root (w.pending root) = { w with threads := w.threads.set i t } := by
  rw [Watch.resume, Function.update_eq_self]

lemma Inv.move (h : w.Inv) (ht : w.threads[i]? = some t) (hm : w.Move i t w') : w'.Inv := by
  cases hm with
  | join root paths set running => exact h.resume ht (fun _ _ => rfl) (by simp [running])
  | enter root paths idle =>
    exact h.resume ht (fun r hr => by simp [hr.symm]) (by simp [idle])
  | launch root | land root =>
    rw [← resume_pending w i (.draining root) root]
    exact h.resume ht (fun _ _ => rfl) (by simp [add_comm])
  | leave root done =>
    have hsome := h.isSome ht (decide_eq_true rfl)
    exact h.resume ht (fun r hr => by simp [hr.symm]) (by simp [hsome])
  | take root waiting going =>
    have hsome := h.isSome ht (decide_eq_true rfl)
    exact h.resume ht (fun _ _ => rfl) (by simp [hsome])

variable {e : WatchEvent}

lemma Inv.step (h : w.Inv) (hs : w.step e = some w') : w'.Inv := by
  obtain ⟨root, paths, rfl, rfl⟩ | ⟨i, t, rfl, ht, hm⟩ | ⟨_, rfl⟩ := step_cases hs
  · intro r
    rw [countP_append, h r]
    rfl
  · exact h.move ht hm
  · exact h

/-! ### What waits is taken -/

/-- The path waits for a pass of the root. -/
def Queued (root path : String) (w : Watch) : Prop := ∃ set, w.pending root = some set ∧ path ∈ set

/-- The goroutine that serves the root. -/
lemma Inv.server (h : w.Inv) {path : String} (hq : w.Queued root path) :
    ∃ (i : ℕ) (t : WatchThread), w.threads[i]? = some t ∧ t.serves root := by
  obtain ⟨set, hset, -⟩ := hq
  have hpos : 0 < w.threads.countP (WatchThread.serves root) := by
    rw [h root, hset]
    exact Nat.one_pos
  obtain ⟨t, ht, hserves⟩ := countP_pos_iff.1 hpos
  obtain ⟨i, hi⟩ := getElem?_of_mem ht
  exact ⟨i, t, hi, hserves⟩

/-- Two goroutines that serve one root are one goroutine. -/
lemma Inv.unique (h : w.Inv) {j : ℕ} (ht : w.threads[i]? = some t)
    (ht' : w.threads[j]? = some t') (hs : t.serves root) (hs' : t'.serves root) : i = j := by
  by_contra hne
  -- if one of the two had returned, the other would still be there
  have hcount := countP_set_add (WatchThread.serves root) ht .returned
  have hpos : 0 < (w.threads.set i .returned).countP (WatchThread.serves root) := by
    refine countP_pos_iff.2 ⟨t', mem_of_getElem? (i := j) ?_, hs'⟩
    rw [getElem?_set_ne hne, ht']
  have hle : (if (w.pending root).isSome then 1 else 0) ≤ 1 := by split <;> simp
  rw [h root, if_pos hs, WatchThread.serves, if_neg Bool.false_ne_true] at hcount
  omega

/-- Only the goroutine of the root takes what waits for it. -/
lemma Queued.move {path : String} (hq : w.Queued root path) (hm : w.Move i t w')
    (hother : ¬t.serves root) : w'.Queued root path := by
  obtain ⟨set, hset, hpath⟩ := hq
  have aside : ∀ (r : String) (s : Option (Finset String)) (t' : WatchThread), r ≠ root →
      (w.resume i t' r s).Queued root path := by
    intro r s t' hr
    exact ⟨set, (Function.update_of_ne hr.symm ..).trans hset, hpath⟩
  cases hm with
  | join r paths s running =>
    by_cases hr : r = root
    · subst hr
      obtain rfl : s = set := some.inj (running.symm.trans hset)
      exact ⟨_, Function.update_self .., Finset.mem_union_left _ hpath⟩
    · exact aside r _ _ hr
  | enter r paths idle =>
    refine aside r _ _ ?_
    rintro rfl
    rw [hset] at idle
    cases idle
  | launch | land => exact ⟨set, hset, hpath⟩
  | leave r done | take r waiting going => exact aside r _ _ fun hr => hother (decide_eq_true hr)

/-- A goroutine stays where it is until it gets a turn. -/
lemma thread_step (hs : w.step e = some w') (ht : w.threads[i]? = some t)
    (hother : e ≠ .run i) : w'.threads[i]? = some t := by
  obtain ⟨root, paths, rfl, rfl⟩ | ⟨j, t', rfl, ht', hm⟩ | ⟨_, rfl⟩ := step_cases hs
  · exact (getElem?_append_left (List.getElem?_eq_some_iff.1 ht).1).trans ht
  · have hne : j ≠ i := fun hji => hother (hji ▸ rfl)
    cases hm <;> exact (getElem?_set_ne hne).trans ht
  · exact ht

/-- What waits keeps waiting until the goroutine of the root gets a turn. -/
lemma Queued.step {path : String} (hq : w.Queued root path) (h : w.Inv)
    (hs : w.step e = some w') (ht : w.threads[i]? = some t) (hserves : t.serves root)
    (hother : e ≠ .run i) : w'.Queued root path := by
  obtain ⟨_, _, rfl, rfl⟩ | ⟨j, t', rfl, ht', hm⟩ | ⟨_, rfl⟩ := step_cases hs
  · exact hq
  · refine hq.move hm fun hserves' => hother ?_
    rw [h.unique ht' ht hserves' hserves]
  · exact hq

/-- A report adds its paths to those that wait. -/
lemma queued_of_report {path : String}
    (hm : w.Move i (.reporting root paths) w') (hpath : path ∈ paths) : w'.Queued root path := by
  cases hm with
  | join _ _ set running =>
    exact ⟨_, Function.update_self .., Finset.mem_union_right _ (mem_toFinset.2 hpath)⟩
  | enter _ _ idle => exact ⟨_, Function.update_self .., mem_toFinset.2 hpath⟩

end Watch

/-- A pass of the root over a batch with the path starts at event `n`. -/
def WatchRun.Starts (x : WatchRun) (n : ℕ) (root path : String) : Prop :=
  ∃ i batch, x.event n = .run i ∧ (x.state n).threads[i]? = some (.draining root)
    ∧ (x.state (n + 1)).threads[i]? = some (.passing root batch) ∧ path ∈ batch

namespace WatchRun

open Watch

variable {x : WatchRun} {n i : ℕ} {root path : String}

lemma inv (x : WatchRun) (n : ℕ) : (x.state n).Inv :=
  x.invariant (fun _ => rfl) (fun _ _ _ h hs => h.step hs) n

/-- A goroutine makes its move when it gets its turn. -/
lemma move {t : WatchThread} (heq : x.event n = .run i) (ht : (x.state n).threads[i]? = some t) :
    (x.state n).Move i t (x.state (n + 1)) := by
  obtain ⟨t', ht', hmove⟩ := step_run (heq ▸ x.next n)
  obtain rfl := some.inj (ht.symm.trans ht')
  exact hmove

/-- A goroutine that serves the root gets its turn while the path still waits. -/
lemma served (hfair : x.Fair) {t : WatchThread} (hserves : t.serves root)
    (ht : (x.state n).threads[i]? = some t) (hq : (x.state n).Queued root path) :
    ∃ m ≥ n, ((x.state m).threads[i]? = some t ∧ (x.state m).Queued root path)
      ∧ x.event m = .run i := by
  refine Execution.Fair.moves hfair i (fun m hP => ⟨t, hP.1, ?_⟩)
    (fun m hP hne => ⟨?_, ?_⟩) ⟨ht, hq⟩
  · rintro rfl
    cases hserves
  · exact thread_step (x.next m) hP.1 hne
  · exact hP.2.step (x.inv m) (x.next m) hP.1 hserves hne

/-- At the head of its loop the goroutine takes what waits, unless the context is cancelled. -/
lemma drained (hfair : x.Fair) (ht : (x.state n).threads[i]? = some (.draining root))
    (hq : (x.state n).Queued root path) :
    ∃ m ≥ n, (x.state m).cancelled ∨ x.Starts m root path := by
  obtain ⟨m, hm, ⟨ht, set, hset, hpath⟩, heq⟩ := served (t := .draining root) hfair
    (decide_eq_true rfl) ht hq
  refine ⟨m, hm, ?_⟩
  have hmove := move heq ht
  generalize hw : x.state (m + 1) = w' at hmove
  cases hmove with
  | leave _ done =>
    rw [hset] at done
    exact .inl (done.resolve_left (Finset.ne_empty_of_mem hpath))
  | take _ waiting going =>
    refine .inr ⟨i, batchOf ((x.state m).pending root |>.getD ∅), heq, ht, ?_, ?_⟩
    · rw [hw]
      exact getElem?_set_self (List.getElem?_eq_some_iff.1 ht).1
    · rw [hset, mem_batchOf]
      exact hpath

/-- What waits is taken. -/
lemma queued_starts (hfair : x.Fair) (hq : (x.state n).Queued root path) :
    ∃ m ≥ n, (x.state m).cancelled ∨ x.Starts m root path := by
  obtain ⟨i, t, ht, hserves⟩ := (x.inv n).server hq
  -- before the head of the loop the goroutine only moves there
  have back : t = .launching root ∨ (∃ batch, t = .passing root batch) →
      ∃ m ≥ n, (x.state m).cancelled ∨ x.Starts m root path := by
    intro hback
    obtain ⟨m, hm, ⟨ht, hq⟩, heq⟩ := served hfair hserves ht hq
    have hmove := move heq ht
    have hnext : (x.state (m + 1)).threads[i]? = some (.draining root)
        ∧ (x.state (m + 1)).Queued root path := by
      generalize x.state (m + 1) = w' at hmove
      rcases hback with rfl | ⟨batch, rfl⟩ <;> cases hmove <;>
        exact ⟨getElem?_set_self (List.getElem?_eq_some_iff.1 ht).1, hq⟩
    obtain ⟨l, hl, hstarts⟩ := drained hfair hnext.1 hnext.2
    exact ⟨l, by omega, hstarts⟩
  cases t with
  | reporting | returned => cases hserves
  | launching r => exact back (.inl (by rw [of_decide_eq_true hserves]))
  | draining r =>
    rw [of_decide_eq_true hserves] at ht
    exact drained hfair ht hq
  | passing r batch => exact back (.inr ⟨batch, by rw [of_decide_eq_true hserves]⟩)

/-- A reported path is in a pass that starts after the report, unless the context is cancelled. -/
lemma reported_starts (hfair : x.Fair)
    (hreport : x.event n = .report root paths) (hpath : path ∈ paths) :
    ∃ m > n, (x.state m).cancelled ∨ x.Starts m root path := by
  have hstep := x.next n
  rw [hreport] at hstep
  have ht : (x.state (n + 1)).threads[(x.state n).threads.length]?
      = some (.reporting root paths) := by
    rw [← some.inj hstep]
    exact getElem?_concat_length
  obtain ⟨m, hm, ht, heq⟩ := Execution.Fair.moves hfair _
    (P := fun m => (x.state m).threads[(x.state n).threads.length]? = some (.reporting root paths))
    (fun m hP => ⟨_, hP, by simp⟩) (fun m hP hne => thread_step (x.next m) hP hne) ht
  obtain ⟨l, hl, hstarts⟩ := queued_starts hfair (queued_of_report (move heq ht) hpath)
  exact ⟨l, by omega, hstarts⟩

end WatchRun

/-! ### Coming to rest -/

namespace Watch

variable {w w' : Watch} {i : ℕ} {t : WatchThread}

/-- One place is set, and the others grow by at most `k`, and only where `p` holds. -/
lemma sum_set_le {f g : α → ℕ} {p : α → Bool} {l : List α} {a : α} (k : ℕ)
    (h : l[i]? = some a) (hle : ∀ b, g b ≤ f b + if p b then k else 0) (c : α) :
    ((l.set i c).map g).sum + f a ≤ (l.map f).sum + g c + k * l.countP p := by
  have hsum (l : List α) : (l.map g).sum ≤ (l.map f).sum + k * l.countP p := by
    induction l with
    | nil => rfl
    | cons b l ih =>
      have := hle b
      simp only [map_cons, sum_cons, countP_cons, Nat.mul_add, mul_ite, mul_one, mul_zero]
      omega
  obtain ⟨l₁, l₂, rfl, hset⟩ := exists_split h c
  have := hsum l₁
  have := hsum l₂
  simp only [hset, map_append, map_cons, sum_append, sum_cons, countP_append, countP_cons,
    Nat.mul_add]
  omega

/-- The turns that the goroutine of a root still needs for the paths that wait. -/
def waits (pending : String → Option (Finset String)) (root : String) : ℕ :=
  if (pending root).getD ∅ = ∅ then 0 else 2

/-- A bound on the turns that a goroutine and those it starts still need. -/
def weight (pending : String → Option (Finset String)) : WatchThread → ℕ
  | .reporting .. => 5
  | .launching root => 2 + waits pending root
  | .draining root => 1 + waits pending root
  | .passing root _ => 2 + waits pending root
  | .returned => 0

def measure (w : Watch) : ℕ := (w.threads.map (weight w.pending)).sum

lemma waits_le (pending : String → Option (Finset String)) (root : String) :
    waits pending root ≤ 2 := by
  unfold waits
  split <;> simp

/-- Only the goroutine of a root weighs more when more waits for the root. -/
lemma weight_update_le {pending : String → Option (Finset String)}
    {k : ℕ} (hk : waits (Function.update pending root set) root ≤ waits pending root + k)
    (t : WatchThread) : weight (Function.update pending root set) t
      ≤ weight pending t + if t.serves root then k else 0 := by
  have key : ∀ r, waits (Function.update pending root set) r
      ≤ waits pending r + if r = root then k else 0 := by
    intro r
    by_cases hr : r = root
    · rwa [if_pos hr, hr]
    · simp [waits, hr]
  cases t with
  | reporting | returned => simp [weight]
  | launching r | draining r | passing r batch => simpa [weight, add_assoc] using key r

lemma measure_resume_le (ht : w.threads[i]? = some t) (t' : WatchThread) (root : String)
    (set : Option (Finset String)) (k : ℕ)
    (hk : waits (Function.update w.pending root set) root ≤ waits w.pending root + k) :
    (w.resume i t' root set).measure + weight w.pending t ≤ w.measure
      + weight (Function.update w.pending root set) t'
      + k * w.threads.countP (WatchThread.serves root) :=
  sum_set_le k ht (weight_update_le hk) t'

/-- Every turn of a goroutine brings the rest nearer. -/
lemma Move.measure_lt (h : w.Inv) (ht : w.threads[i]? = some t) (hm : w.Move i t w') :
    w'.measure < w.measure := by
  have hstay (t' : WatchThread) : Watch.measure { w with threads := w.threads.set i t' }
      + weight w.pending t ≤ w.measure + weight w.pending t' := by
    have := sum_set_le (g := weight w.pending) (p := fun _ => false) 0 ht (fun _ => le_rfl) t'
    rwa [zero_mul] at this
  cases hm with
  | join root paths set running =>
    have hle := measure_resume_le ht .returned root (some (set ∪ paths.toFinset)) 2
      ((waits_le _ root).trans (Nat.le_add_left ..))
    rw [h root, running] at hle
    simp only [weight, isSome_some, if_true] at hle
    omega
  | enter root paths idle =>
    have hle := measure_resume_le ht (.launching root) root (some paths.toFinset) 2
      ((waits_le _ root).trans (Nat.le_add_left ..))
    have := waits_le (Function.update w.pending root (some paths.toFinset)) root
    rw [h root, idle] at hle
    simp only [weight, isSome_none, Bool.false_eq_true, if_false] at hle
    omega
  | launch root | land root batch =>
    have hle := hstay (.draining root)
    simp only [weight] at hle
    omega
  | leave root done =>
    have hle := measure_resume_le ht .returned root none 0 (by simp [waits])
    simp only [weight] at hle
    omega
  | take root waiting going =>
    have hle := measure_resume_le ht (.passing root (batchOf ((w.pending root).getD ∅))) root
      (some ∅) 0 (by simp [waits])
    have hwaits : waits w.pending root = 2 := if_neg waiting
    have hclear : waits (Function.update w.pending root (some ∅)) root = 0 := by simp [waits]
    simp only [weight] at hle
    omega

/-- Every goroutine has returned. -/
def Rest (w : Watch) : Prop := ∀ t ∈ w.threads, t = .returned

lemma Rest.pending (hr : w.Rest) (h : w.Inv) (root : String) : w.pending root = none := by
  have hzero : w.threads.countP (WatchThread.serves root) = 0 :=
    countP_eq_zero.2 fun t ht => by simp [hr t ht]
  rw [h root] at hzero
  rcases hp : w.pending root with _ | set
  · rfl
  · simp [hp] at hzero

end Watch

/-- A goroutine in an invalidation pass of the root. -/
def WatchThread.passes (root : String) : WatchThread → Bool
  | .passing r _ => r = root
  | _ => false

lemma WatchThread.serves_of_passes {t : WatchThread} (h : t.passes root) :
    t.serves root := by
  cases t with
  | passing r batch => exact h
  | _ => cases h

namespace WatchRun

open Watch

variable {x : WatchRun}

/-- Once the reports have stopped the goroutines return. -/
lemma comes_to_rest (hfair : x.Fair) {n : ℕ}
    (hstop : ∀ m ≥ n, ∀ root paths, x.event m ≠ .report root paths) :
    ∃ m ≥ n, (x.state m).Rest := by
  refine hfair.comes_to_rest (μ := Watch.measure) (fun m hm => ?_) (fun m _ i heq => ?_)
    (fun m _ i hlive hne => ?_) fun m _ hrest => ?_
  · obtain ⟨root, paths, he, -⟩ | ⟨i, t, -, ht, hmove⟩ | ⟨_, hw⟩ := step_cases (x.next m)
    · exact absurd he (hstop m hm root paths)
    · exact (hmove.measure_lt (x.inv m) ht).le
    · rw [hw]
      exact le_rfl
  · obtain ⟨t, ht, hmove⟩ := step_run (heq ▸ x.next m)
    exact hmove.measure_lt (x.inv m) ht
  · obtain ⟨t, ht, hlive⟩ := hlive
    exact ⟨t, thread_step (x.next m) ht hne, hlive⟩
  · unfold Rest at hrest
    push Not at hrest
    obtain ⟨t, ht, hlive⟩ := hrest
    obtain ⟨i, hi⟩ := getElem?_of_mem ht
    exact ⟨i, t, hi, hlive⟩

/-- Without a report nothing happens after the rest. -/
lemma rest_next {n : ℕ} (hrest : (x.state n).Rest)
    (hstop : ∀ root paths, x.event n ≠ .report root paths) : (x.state (n + 1)).Rest := by
  obtain ⟨root, paths, he, -⟩ | ⟨i, t, -, ht, hmove⟩ | ⟨_, hw⟩ := step_cases (x.next n)
  · exact absurd he (hstop root paths)
  · rw [hrest t (mem_of_getElem? ht)] at hmove
    cases hmove
  · rw [hw]
    exact hrest

end WatchRun

/-- The callback makes the passes of a root one after the other. In a fair execution every reported
path is in a pass of its root that starts after the report, unless the context is cancelled; and
once the reports have stopped no pass runs and nothing waits, from some point on. -/
theorem watchedRoot_passes (x : WatchRun) :
    (∀ n root, (x.state n).threads.countP (WatchThread.passes root) ≤ 1) ∧
    (x.Fair →
      (∀ n root paths, x.event n = .report root paths → ∀ path ∈ paths,
        ∃ m > n, (x.state m).cancelled ∨ x.Starts m root path) ∧
      ∀ n, (∀ m ≥ n, ∀ root paths, x.event m ≠ .report root paths) →
        ∃ l, ∀ m ≥ l, ∀ root, (x.state m).pending root = none
          ∧ (x.state m).threads.countP (WatchThread.passes root) = 0) := by
  refine ⟨fun n root => ?_, fun hfair => ⟨fun n root paths hreport path hpath => ?_,
    fun n hstop => ?_⟩⟩
  · calc (x.state n).threads.countP (WatchThread.passes root)
      _ ≤ (x.state n).threads.countP (WatchThread.serves root) :=
        countP_mono_left fun t _ => WatchThread.serves_of_passes
      _ ≤ 1 := by
        rw [x.inv n root]
        split <;> simp
  · exact WatchRun.reported_starts hfair hreport hpath
  · obtain ⟨l, hl, hrest⟩ := WatchRun.comes_to_rest hfair hstop
    have hall : ∀ m ≥ l, (x.state m).Rest := by
      intro m hm
      induction m, hm using Nat.le_induction with
      | base => exact hrest
      | succ m hm ih => exact WatchRun.rest_next ih (hstop m (by omega))
    refine ⟨l, fun m hm root => ⟨(hall m hm).pending (x.inv m) root, ?_⟩⟩
    exact countP_eq_zero.2 fun t ht => by simp [hall m hm t ht, WatchThread.passes]

/-- A report whose goroutine starts after the context was cancelled. -/
def cancelledReport : List WatchEvent := [.report "r" ["p"], .run 0, .cancel, .run 0, .run 0]

/-- A report that is served. -/
def servedReport : List WatchEvent :=
  [.report "r" ["p"], .run 0, .run 0, .run 0, .run 0, .run 0]

/-- The execution with these events, after which nothing happens. -/
def runList (events : List WatchEvent) (possible : ∀ n, (hn : n < events.length) →
    (Watch.step (Execution.stateAfter Watch.step {} events n) events[n]).isSome) : WatchRun :=
  Execution.ofList Watch.step {} .idle events (fun _ => rfl) possible

/-- If every goroutine has returned after the last event, the execution is fair. -/
lemma fair_runList {events : List WatchEvent} (possible : ∀ n, (hn : n < events.length) →
      (Watch.step (Execution.stateAfter Watch.step {} events n) events[n]).isSome)
    (hrest : (Execution.stateAfter Watch.step {} events events.length).threads.all
      (· = .returned)) : (runList events possible).Fair := by
  intro n i hlive
  obtain ⟨t, ht, hne⟩ := hlive (max n events.length) (le_max_left _ _)
  change (Execution.stateAfter Watch.step {} events _).threads[i]? = some t at ht
  rw [Execution.stateAfter_of_le Watch.step {} (le_max_right _ _)] at ht
  exact absurd (by simpa using all_eq_true.1 hrest t (mem_of_getElem? ht)) hne

/-- A report that comes just before the context is cancelled is in no pass. -/
theorem watchedRoot_drops_cancelled : ∃ x : WatchRun, x.Fair
    ∧ x.event 0 = .report "r" ["p"] ∧ ∀ m, ¬x.Starts m "r" "p" := by
  have possible : ∀ n, (hn : n < cancelledReport.length) → (Watch.step
      (Execution.stateAfter Watch.step {} cancelledReport n) cancelledReport[n]).isSome := by
    decide +kernel
  refine ⟨runList cancelledReport possible, fair_runList possible (by decide +kernel), rfl, ?_⟩
  rintro m ⟨i, batch, -, -, hpass, -⟩
  change (Execution.stateAfter Watch.step {} cancelledReport (m + 1)).threads[i]? = _ at hpass
  have hnone : ∀ n ≤ cancelledReport.length, (Execution.stateAfter Watch.step {} cancelledReport
      n).threads.all (fun t => !t.passes "r") := by
    decide +kernel
  have hmem := mem_of_getElem? hpass
  rcases Nat.le_total (m + 1) cancelledReport.length with hle | hle
  · simpa [WatchThread.passes] using all_eq_true.1 (hnone _ hle) _ hmem
  · rw [Execution.stateAfter_of_le Watch.step {} hle] at hmem
    simpa [WatchThread.passes] using all_eq_true.1 (hnone _ le_rfl) _ hmem

/-- A report that is served. -/
theorem watchedRoot_passes_servedReport : ∃ x : WatchRun, x.event 0 = .report "r" ["p"]
    ∧ ∃ m > 0, (x.state m).cancelled ∨ x.Starts m "r" "p" := by
  have possible : ∀ n, (hn : n < servedReport.length) → (Watch.step
      (Execution.stateAfter Watch.step {} servedReport n) servedReport[n]).isSome := by
    decide +kernel
  have hfair := fair_runList possible (by decide +kernel)
  refine ⟨runList servedReport possible, rfl, ?_⟩
  exact ((watchedRoot_passes _).2 hfair).1 0 "r" ["p"] rfl "p" mem_cons_self

end WorkspaceOps
