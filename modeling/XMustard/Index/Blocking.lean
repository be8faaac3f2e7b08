import XMustard.Graph.Circuits
import XMustard.Index.Johnson

/-! # Blocked vertices

A vertex that is blocked and not on the path cannot reach the start around the path: all its
successors are blocked too, and it waits for every one of them. A call never unblocks what was
blocked when it began. -/

namespace Index.Johnson

open List Graph

variable {k : ℕ} {z w : Fin k}

/-! ### Unblocking -/

lemma unblockAll_frame (ws : List (Fin k)) (s : Johnson k) :
    ∃ blocked b, unblockAll ws s = { s with blocked := blocked, b := b } := by
  fun_induction unblockAll ws s with
  | case1 s => exact ⟨s.blocked, s.b, rfl⟩
  | case2 s w ws hw ih | case3 s w ws hw ih => exact ih

/-- What unblocking does to a vertex: nothing, or it and all that wait for it are free. -/
def Unblocked (s s' : Johnson k) : Prop :=
  ∀ z, (s'.blocked z = s.blocked z ∧ s'.b z = s.b z) ∨
    (s'.blocked z = false ∧ s'.b z = [] ∧ ∀ u ∈ s.b z, s'.blocked u = false)

lemma Unblocked.blocked_of {s s' : Johnson k} (h : Unblocked s s')
    (hz : s'.blocked z) : s.blocked z ∧ s'.b z = s.b z := by
  obtain ⟨hsame, hb⟩ | ⟨hfree, -, -⟩ := h z
  · exact ⟨hsame ▸ hz, hb⟩
  · simp [hfree] at hz

lemma unblockAll_spec (ws : List (Fin k)) (s : Johnson k) :
    Unblocked s (unblockAll ws s) ∧ ∀ w ∈ ws, (unblockAll ws s).blocked w = false := by
  fun_induction unblockAll ws s with
  | case1 s => exact ⟨fun z => .inl ⟨rfl, rfl⟩, by simp⟩
  | case2 s w ws hw ih =>
    obtain ⟨h, hfree⟩ := ih
    have hw' : (unblockAll (s.b w ++ ws) (s.release w)).blocked w = false := by
      by_contra hblocked
      have := (h.blocked_of (Bool.not_eq_false _ ▸ hblocked)).1
      simp [release] at this
    refine ⟨fun z => ?_, forall_mem_cons.2 ⟨hw', fun u hu => hfree u (mem_append_right _ hu)⟩⟩
    by_cases hz : z = w
    · subst hz
      have hb : (unblockAll (s.b z ++ ws) (s.release z)).b z = [] := by
        obtain ⟨-, hb⟩ | ⟨-, hb, -⟩ := h z
        · simpa [release] using hb
        · exact hb
      exact .inr ⟨hw', hb, fun u hu => hfree u (mem_append_left _ hu)⟩
    · simpa [release, hz] using h z
  | case3 s w ws hw ih =>
    obtain ⟨h, hfree⟩ := ih
    refine ⟨h, forall_mem_cons.2 ⟨?_, hfree⟩⟩
    by_contra hblocked
    exact hw (h.blocked_of (Bool.not_eq_false _ ▸ hblocked)).1

/-- What no vertex to be unblocked leads into stays as it is. -/
lemma unblockAll_avoids {Q : Fin k → Prop} (ws : List (Fin k)) (s : Johnson k)
    (hb : ∀ z, ¬ Q z → ∀ u ∈ s.b z, ¬ Q u) (hws : ∀ w ∈ ws, ¬ Q w) (hz : Q z) :
    (unblockAll ws s).blocked z = s.blocked z := by
  fun_induction unblockAll ws s with
  | case1 s => rfl
  | case2 s w ws hw ih =>
    have hwQ := hws w (by simp)
    have hzw : z ≠ w := fun h => hwQ (h ▸ hz)
    rw [ih ?_ ?_]
    · simp [release, hzw]
    · intro y hy u hu
      by_cases hyw : y = w
      · simp [release, hyw] at hu
      · exact hb y hy u (by simpa [release, hyw] using hu)
    · intro u hu
      rcases mem_append.1 hu with hu | hu
      · exact hb w hwQ u hu
      · exact hws u (mem_cons_of_mem _ hu)
  | case3 s w ws hw ih => exact ih hb fun u hu => hws u (mem_cons_of_mem _ hu)

variable (s : Johnson k)

lemma unblock_eq {v : Fin k} (h : s.blocked v) : s.unblock v = unblockAll [v] s := by
  rw [unblockAll, dif_pos h, append_nil]
  rfl

/-! ### Waiting -/

lemma mem_wait {start v u : Fin k} :
    u ∈ (wait start v s w).b z ↔ u ∈ s.b z ∨ (u = v ∧ z = w ∧ start ≤ w) := by
  rw [wait]
  split_ifs with h
  · by_cases hz : z = w
    · subst hz
      simp [h.1]
    · simp [hz]
  · by_cases hz : z = w
    · subst hz
      constructor
      · exact .inl
      · rintro (hu | ⟨rfl, -, hle⟩)
        · exact hu
        · exact not_not.1 fun hmem => h ⟨hle, by simpa using hmem⟩
    · simp [hz]

/-- Waiting changes the lists only. -/
lemma foldl_wait (start v : Fin k) (ws : List (Fin k)) (s : Johnson k) :
    ∃ b, ws.foldl (wait start v) s = { s with b := b } ∧
      ∀ u z, u ∈ b z ↔ u ∈ s.b z ∨ (u = v ∧ z ∈ ws ∧ start ≤ z) := by
  induction ws generalizing s with
  | nil => exact ⟨s.b, rfl, by simp⟩
  | cons w ws ih =>
    obtain ⟨b, heq, hb⟩ := ih (wait start v s w)
    refine ⟨b, ?_, fun u z => ?_⟩
    · rw [foldl_cons, heq, wait]
      split_ifs <;> rfl
    rw [hb, mem_wait, mem_cons]
    constructor
    · rintro ((hu | ⟨rfl, rfl, hle⟩) | ⟨rfl, hz, hle⟩)
      · exact .inl hu
      · exact .inr ⟨rfl, .inl rfl, hle⟩
      · exact .inr ⟨rfl, .inr hz, hle⟩
    · rintro (hu | ⟨rfl, rfl | hz, hle⟩)
      · exact .inl (.inl hu)
      · exact .inl (.inr ⟨rfl, rfl, hle⟩)
      · exact .inr ⟨rfl, hz, hle⟩

/-- What settling a vertex leaves as it is. -/
lemma settle_frame (adj : Fin k → List (Fin k)) (start v : Fin k) (closed : Bool) :
    ∃ blocked b, settle adj start v closed s = { s with blocked := blocked, b := b } := by
  cases closed with
  | true => exact unblockAll_frame (s.b v) (s.release v)
  | false =>
    obtain ⟨b, heq, -⟩ := foldl_wait start v (adj v) s
    exact ⟨s.blocked, b, heq⟩

/-! ### The invariant -/

/-- What holds between the calls of a search that has not run out of its budget. -/
structure Inv (adj : Fin k → List (Fin k)) (start : Fin k) (s : Johnson k) : Prop where
  onPath : ∀ u ∈ s.path, s.blocked u
  dead : ∀ z, s.blocked z → z ∉ s.path → ∀ y ∈ adj z, start ≤ y →
    y ≠ start ∧ s.blocked y ∧ z ∈ s.b y
  waits : ∀ w, ∀ u ∈ s.b w, s.blocked w

/-- What a call keeps: the path, what was blocked, and what that waits for. -/
structure Keeps (s s' : Johnson k) : Prop where
  path : s'.path = s.path
  blocked : ∀ z, s.blocked z → s'.blocked z
  waits : ∀ u, s.blocked u → ∀ w, u ∈ s'.b w → u ∈ s.b w

lemma Keeps.refl : Keeps s s := ⟨rfl, fun _ h => h, fun _ _ _ h => h⟩

lemma Keeps.trans {s s' s'' : Johnson k} (h : Keeps s s') (h' : Keeps s' s'') : Keeps s s'' :=
  ⟨h'.path.trans h.path, fun z hz => h'.blocked z (h.blocked z hz), fun u hu w hw =>
    h.waits u hu w (h'.waits u (h.blocked u hu) w hw)⟩

section calls

variable {adj : Fin k → List (Fin k)} {start v : Fin k} {s s' : Johnson k}

lemma enter_blocked (hz : s.blocked z) : (s.enter v).blocked z := by
  by_cases hzv : z = v
  · simp [Johnson.enter, hzv]
  · simpa [Johnson.enter, hzv] using hz

lemma Inv.enter (h : Inv adj start s) : Inv adj start (s.enter v) := by
  refine ⟨fun u hu => ?_, fun z hz hpath y hy hle => ?_, fun w u hu =>
    enter_blocked (h.waits w u hu)⟩
  · rcases mem_append.1 hu with hu | hu
    · exact enter_blocked (h.onPath u hu)
    · simp [Johnson.enter, mem_singleton.1 hu]
  · have hzv : z ≠ v := fun hzv => hpath (by simp [Johnson.enter, hzv])
    have hz' : s.blocked z := by simpa [Johnson.enter, hzv] using hz
    obtain ⟨hne, hblocked, hwait⟩ :=
      h.dead z hz' (fun hmem => hpath (mem_append_left _ hmem)) y hy hle
    exact ⟨hne, enter_blocked hblocked, hwait⟩

/-- A blocked vertex leads to the start only over the path. -/
lemma Inv.dead_end (h : Inv adj start s) {q : List (Fin k)} (hw : s.blocked w)
    (havoid : ∀ u ∈ w :: q, u ∉ s.path) (hleast : ∀ u ∈ w :: q, start ≤ u) :
    ¬ List.IsChain (Arc adj) (w :: q ++ [start]) := by
  induction q generalizing w with
  | nil =>
    intro hchain
    have hedge : start ∈ adj w := by simpa [Arc] using hchain
    exact (h.dead w hw (havoid w (by simp)) start hedge le_rfl).1 rfl
  | cons y q ih =>
    intro hchain
    rw [cons_append, cons_append, isChain_cons_cons] at hchain
    obtain ⟨-, hy, -⟩ := h.dead w hw (havoid w (by simp)) y hchain.1 (hleast y (by simp))
    exact ih hy (fun u hu => havoid u (mem_cons_of_mem _ hu))
      (fun u hu => hleast u (mem_cons_of_mem _ hu)) hchain.2

/-- What the state before a call blocks, nothing unblocked during the call leads into. -/
lemma Keeps.no_wait (hinv : Inv adj start s) (h : Keeps (s.enter v) s') (z : Fin k)
    (hz : ¬ s.blocked z = true) (u : Fin k) (hu : u ∈ s'.b z) : ¬ s.blocked u = true := by
  intro hblocked
  exact hz (hinv.waits z u (h.waits u (enter_blocked hblocked) z hu))

section settle

variable (hinv : Inv adj start s) (hv : s.blocked v = false) (hkeeps : Keeps (s.enter v) s')
  (h : Inv adj start s')
include hkeeps

lemma Keeps.settle_path (adj : Fin k → List (Fin k)) (start : Fin k) (closed : Bool) :
    (settle adj start v closed s').pop.path = s.path := by
  obtain ⟨blocked, b, hsettle⟩ := settle_frame s' adj start v closed
  rw [hsettle]
  exact (congrArg dropLast hkeeps.path).trans dropLast_concat

include h in
/-- A blocked vertex that the path before the call does not hold was dead. -/
lemma Keeps.dead (hz : s'.blocked z) (hoff : z ∉ s.path) (hzv : z ≠ v) :
    ∀ y ∈ adj z, start ≤ y → y ≠ start ∧ s'.blocked y ∧ z ∈ s'.b y := by
  refine h.dead z hz ?_
  simp [hkeeps.path, Johnson.enter, hoff, hzv]

include hinv hv h

/-- A call that closed a cycle ends by unblocking its vertex. -/
lemma Inv.unblock_pop : Inv adj start (settle adj start v true s').pop ∧
    Keeps s (settle adj start v true s').pop ∧ (settle adj start v true s').pop.blocked v
      = false := by
  have hpath := hkeeps.settle_path adj start true
  have hsettle : settle adj start v true s' = unblockAll [v] s' :=
    unblock_eq s' (hkeeps.blocked v (by simp [Johnson.enter]))
  rw [hsettle] at hpath ⊢
  obtain ⟨hun, hfree⟩ := unblockAll_spec [v] s'
  have hblocked : ∀ z, s.blocked z → (unblockAll [v] s').blocked z := by
    intro z hz
    rw [unblockAll_avoids (Q := fun z => s.blocked z = true) [v] s' (hkeeps.no_wait hinv)
      (by simp [hv]) hz]
    exact hkeeps.blocked z (enter_blocked hz)
  refine ⟨⟨fun u hu => ?_, fun z hz hoff y hy hle => ?_, fun w u hu => ?_⟩,
    ⟨hpath, hblocked, fun u hu w hw => ?_⟩, hfree v mem_cons_self⟩
  · exact hblocked u (hinv.onPath u (hpath ▸ hu))
  · have hzv : z ≠ v := fun hzv => by simp [pop, hzv, hfree] at hz
    obtain ⟨hne, hyb, hwait⟩ := hkeeps.dead h (hun.blocked_of hz).1 (hpath ▸ hoff) hzv y hy hle
    -- a successor that were unblocked would have unblocked `z`
    obtain ⟨hsame, hb⟩ | ⟨-, -, hall⟩ := hun y
    · exact ⟨hne, hsame.trans hyb, hb ▸ hwait⟩
    · have hfreez : (unblockAll [v] s').blocked z = false := hall z hwait
      simp [pop, hfreez] at hz
  · obtain ⟨hsame, hb⟩ | ⟨-, hb, -⟩ := hun w
    · exact hsame.trans (h.waits w u (hb ▸ hu))
    · simp [pop, hb] at hu
  · obtain ⟨-, hb⟩ | ⟨-, hb, -⟩ := hun w
    · exact hkeeps.waits u (enter_blocked hu) w (hb ▸ hw)
    · simp [pop, hb] at hw

/-- A call that closed no cycle leaves its vertex blocked, waiting for its successors. -/
lemma Inv.wait_pop (hdead : ∀ w ∈ adj v, start ≤ w → w ≠ start ∧ s'.blocked w) :
    Inv adj start (settle adj start v false s').pop ∧ Keeps s (settle adj start v false s').pop ∧
      (settle adj start v false s').pop.blocked v := by
  have hpath := hkeeps.settle_path adj start false
  obtain ⟨b, hsettle, hb⟩ := foldl_wait start v (adj v) s'
  change settle adj start v false s' = _ at hsettle
  rw [hsettle] at hpath ⊢
  refine ⟨⟨fun u hu => ?_, fun z hz hoff y hy hle => ?_, fun w u hu => ?_⟩,
    ⟨hpath, fun z hz => hkeeps.blocked z (enter_blocked hz), fun u hu w hmem => ?_⟩,
    hkeeps.blocked v (by simp [Johnson.enter])⟩
  · exact hkeeps.blocked u (enter_blocked (hinv.onPath u (hpath ▸ hu)))
  · by_cases hzv : z = v
    · subst hzv
      obtain ⟨hne, hyb⟩ := hdead y hy hle
      exact ⟨hne, hyb, (hb z y).2 (.inr ⟨rfl, hy, hle⟩)⟩
    · obtain ⟨hne, hyb, hwait⟩ := hkeeps.dead h hz (hpath ▸ hoff) hzv y hy hle
      exact ⟨hne, hyb, (hb z y).2 (.inl hwait)⟩
  · obtain hu | ⟨rfl, hmem, hle⟩ := (hb u w).1 hu
    · exact h.waits w u hu
    · exact (hdead w hmem hle).2
  · obtain hmem | ⟨rfl, -, -⟩ := (hb u w).1 hmem
    · exact hkeeps.waits u (enter_blocked hu) w hmem
    · simp [hv] at hu

end settle

end calls

end Index.Johnson
