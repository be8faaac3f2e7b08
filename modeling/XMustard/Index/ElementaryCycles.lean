import Mathlib.Data.Set.Card
import XMustard.Index.Blocking

/-! # The enumeration finds every elementary cycle once

A call on `v` reports exactly the circuits that continue the path over `v`, each once. So the calls
from all the starts report every elementary cycle of the component, from its least vertex. -/

namespace Index.Johnson

open Finset Graph

variable {k : ℕ} {adj : Fin k → List (Fin k)} {start v w : Fin k} {room before : ℕ}
  {limits : Limits} {s s' : Johnson k} {all : List (List (Fin k))} {l : List (Fin k)}

/-- The cycles reported so far are `all`: they are counted, and the first ones kept. -/
structure Logged (room before : ℕ) (all : List (List (Fin k))) (s : Johnson k) : Prop where
  found : s.found = all.take room
  cycles : s.budget.cycles = before + all.length

lemma Logged.report (h : Logged room before all s) :
    Logged room before (all ++ [s.path]) (s.report room) := by
  refine ⟨?_, by simp [Johnson.report, h.cycles, Nat.add_assoc]⟩
  simp only [Johnson.report, h.found, List.length_take]
  split_ifs with hroom
  · have hlt : all.length < room := by omega
    rw [List.take_of_length_le hlt.le, List.take_of_length_le (by simpa using hlt)]
  · rw [List.take_append_of_le_length (by omega)]

/-- A path that a circuit from `start` may continue. -/
structure Walk (adj : Fin k → List (Fin k)) (start : Fin k) (p : List (Fin k)) : Prop where
  head : p.head? = some start
  nodup : p.Nodup
  least : ∀ u ∈ p, start ≤ u
  chain : p.IsChain (Arc adj)

variable {p : List (Fin k)}

lemma Walk.start_mem (h : Walk adj start p) : start ∈ p :=
  List.mem_of_mem_head? h.head

lemma Walk.snoc (h : Walk adj start (p ++ [v])) (hedge : w ∈ adj v)
    (hle : start ≤ w) (hnew : w ∉ p ++ [v]) : Walk adj start (p ++ [v] ++ [w]) where
  head := by rw [List.head?_append, h.head]; rfl
  nodup := List.nodup_append.2 ⟨h.nodup, by simp, fun a ha b hb => by
    rintro rfl
    exact hnew (List.mem_singleton.1 hb ▸ ha)⟩
  least := fun u hu => by
    rcases List.mem_append.1 hu with hu | hu
    · exact h.least u hu
    · rwa [List.mem_singleton.1 hu]
  chain := by
    refine h.chain.append (by simp) ?_
    simpa [Arc] using hedge

/-- The path and an edge back to the start are a circuit. -/
lemma Walk.circuitFrom (h : Walk adj start (p ++ [v])) (hedge : start ∈ adj v) :
    CircuitFrom adj start (p ++ [v]) :=
  ⟨h.head, h.nodup, h.least, h.chain.append (by simp) (by simpa [Arc] using hedge)⟩

/-- Nothing that continues the path over a blocked vertex is a circuit. -/
lemma Inv.not_circuitFrom (h : Inv adj start s) (hw : s.blocked w)
    (hpre : s.path ++ [w] <+: l) : ¬ CircuitFrom adj start l := by
  rintro ⟨-, hnodup, hleast, hchain⟩
  obtain ⟨q, rfl⟩ := hpre
  rw [List.append_assoc, List.append_assoc] at hchain
  rw [List.append_assoc] at hnodup hleast
  have havoid : ∀ u ∈ w :: q, u ∉ s.path := fun u hu hpath =>
    (List.nodup_append.1 hnodup).2.2 u hpath u hu rfl
  refine h.dead_end hw havoid (fun u hu => hleast u (List.mem_append_right _ hu)) ?_
  exact hchain.right_of_append

/-- The circuits that continue path `p` over one of the edges to `ws`. -/
def Over (adj : Fin k → List (Fin k)) (start : Fin k) (p ws : List (Fin k))
    (l : List (Fin k)) : Prop :=
  CircuitFrom adj start l ∧ ∃ w ∈ ws, (w = start ∧ l = p) ∨ (w ≠ start ∧ p ++ [w] <+: l)

/-- The circuits over all edges of its last vertex are all that continue the path. -/
lemma over_iff (h : Walk adj start (p ++ [v])) :
    Over adj start (p ++ [v]) (adj v) l ↔ CircuitFrom adj start l ∧ p ++ [v] <+: l := by
  refine and_congr_right fun hl => ⟨?_, ?_⟩
  · rintro ⟨w, -, ⟨-, rfl⟩ | ⟨-, hpre⟩⟩
    · exact List.prefix_rfl
    · exact (List.prefix_append _ _).trans hpre
  · rintro ⟨q, rfl⟩
    have hchain := hl.chain
    cases q with
    | nil =>
      rw [List.append_nil, List.append_assoc] at hchain
      have hedge : start ∈ adj v := by simpa [Arc] using hchain.right_of_append
      exact ⟨start, hedge, .inl ⟨rfl, by simp⟩⟩
    | cons w q =>
      have hedge : w ∈ adj v := by
        rw [List.append_assoc, List.append_assoc] at hchain
        exact (List.isChain_cons_cons.1 hchain.right_of_append).1
      refine ⟨w, hedge, .inr ⟨?_, q, by simp⟩⟩
      rintro rfl
      exact (List.nodup_append.1 hl.nodup).2.2 w h.start_mem w (by simp) rfl

lemma Over.cons_iff {ws : List (Fin k)} :
    Over adj start p (w :: ws) l ↔
      (CircuitFrom adj start l ∧ ((w = start ∧ l = p) ∨ (w ≠ start ∧ p ++ [w] <+: l))) ∨
        Over adj start p ws l := by
  rw [Over, Over, List.exists_mem_cons_iff, and_or_left]

/-- Different edges lead to different circuits. -/
lemma Over.ne {ws : List (Fin k)} {l' : List (Fin k)} (hw : w ∉ ws)
    (h : (w = start ∧ l = p) ∨ (w ≠ start ∧ p ++ [w] <+: l)) (h' : Over adj start p ws l') :
    l ≠ l' := by
  rintro rfl
  obtain ⟨-, u, hu, hcase⟩ := h'
  have huw : w ≠ u := fun huw => hw (huw ▸ hu)
  have hlong : ∀ x : Fin k, ¬ p ++ [x] <+: p := fun x hx => by simpa using hx.length_le
  obtain ⟨rfl, rfl⟩ | ⟨hne, hpre⟩ := h
  · obtain ⟨rfl, -⟩ | ⟨-, hpre⟩ := hcase
    · exact huw rfl
    · exact hlong _ hpre
  · obtain ⟨-, rfl⟩ | ⟨-, hpre'⟩ := hcase
    · exact hlong _ hpre
    · have heq := (List.prefix_of_prefix_length_le hpre hpre' (by simp)).eq_of_length (by simp)
      exact huw (by simpa using heq)

/-! ### Calls -/

/-- Vertices that a search may still enter. -/
def free (s : Johnson k) : ℕ := (Finset.univ.filter fun w => s.blocked w = false).card

lemma unblocked_subset (h : ∀ w, s.blocked w → s'.blocked w) :
    (univ.filter fun w => s'.blocked w = false) ⊆ univ.filter fun w => s.blocked w = false := by
  refine monotone_filter_right univ fun w _ hw => ?_
  by_contra hblocked
  simp [h w (Bool.not_eq_false _ ▸ hblocked)] at hw

lemma Keeps.free_le (h : Keeps s s') : free s' ≤ free s := card_le_card (unblocked_subset h.blocked)

lemma free_enter (h : s.blocked v = false) : free (s.enter v) < free s := by
  refine card_lt_card ⟨unblocked_subset fun w => enter_blocked, fun hsub => ?_⟩
  have hv := (mem_filter.1 (hsub (mem_filter.2 ⟨mem_univ v, h⟩))).2
  simp [Johnson.enter] at hv

/-- What a call or a loop of a call that stays within the budget has done: the circuits `P`
describes are reported, each once. -/
structure Reports (adj : Fin k → List (Fin k)) (start : Fin k) (room before : ℕ)
    (all : List (List (Fin k))) (s s' : Johnson k) (P : List (Fin k) → Prop)
    (new : List (List (Fin k))) : Prop where
  keeps : Keeps s s'
  inv : Inv adj start s'
  logged : Logged room before (all ++ new) s'
  nodup : new.Nodup
  mem : ∀ l, l ∈ new ↔ P l

/-- The call on an unblocked vertex, with calls nested at most `fuel` deep. -/
def Visits (adj : Fin k → List (Fin k)) (start : Fin k) (room before : ℕ)
    (visit : Fin k → Johnson k → Option (Bool × Johnson k)) (fuel : ℕ) : Prop :=
  ∀ v s all, Inv adj start s → Logged room before all s → s.blown = false →
    s.blocked v = false → Walk adj start (s.path ++ [v]) → free s ≤ fuel →
    ∃ c s', visit v s = some (c, s') ∧ (s'.blown = false → ∃ new,
      Reports adj start room before all s s'
        (fun l => CircuitFrom adj start l ∧ s.path ++ [v] <+: l) new ∧
      c = !new.isEmpty ∧ s'.blocked v = !c)

/-- A loop that has run out of its budget makes no more calls. -/
lemma scan_blown (visit : Fin k → Johnson k → Option (Bool × Johnson k)) (ws : List (Fin k))
    (closed : Bool) (h : s.blown) :
    ∃ s', scan start room limits visit ws closed s = some (closed, s') ∧ s'.blown := by
  cases ws with
  | nil => exact ⟨s, rfl, h⟩
  | cons w ws => exact ⟨{ s.tick with blown := true }, if_pos (by simp [tick, h]), rfl⟩

variable {P : List (Fin k) → Prop}

lemma Reports.trans {Q R : List (Fin k) → Prop} {s₁ : Johnson k} {new new' : List (List (Fin k))}
    (h : Reports adj start room before all s s₁ P new)
    (h' : Reports adj start room before (all ++ new) s₁ s' Q new')
    (hdisj : ∀ l l', P l → Q l' → l ≠ l') (hR : ∀ l, R l ↔ P l ∨ Q l) :
    Reports adj start room before all s s' R (new ++ new') where
  keeps := h.keeps.trans h'.keeps
  inv := h'.inv
  logged := List.append_assoc all new new' ▸ h'.logged
  nodup := List.nodup_append.2 ⟨h.nodup, h'.nodup, fun l hl l' hl' =>
    hdisj l l' ((h.mem l).1 hl) ((h'.mem l').1 hl')⟩
  mem := fun l => by rw [List.mem_append, h.mem, h'.mem, hR]

/-- A step of the loop that reports nothing. -/
lemma Reports.tick (hinv : Inv adj start s) (hlog : Logged room before all s) (hP : ∀ l, ¬ P l) :
    Reports adj start room before all s s.tick P [] where
  keeps := ⟨rfl, fun _ h => h, fun _ _ _ h => h⟩
  inv := ⟨hinv.onPath, hinv.dead, hinv.waits⟩
  logged := (List.append_nil all).symm ▸ ⟨hlog.found, hlog.cycles⟩
  nodup := List.nodup_nil
  mem := fun l => by simpa using hP l

/-- A step of the loop that closes a cycle. -/
lemma Reports.report (hinv : Inv adj start s) (hlog : Logged room before all s)
    (hP : ∀ l, P l ↔ l = s.path) :
    Reports adj start room before all s (s.tick.report room) P [s.path] where
  keeps := ⟨rfl, fun _ h => h, fun _ _ _ h => h⟩
  inv := ⟨hinv.onPath, hinv.dead, hinv.waits⟩
  logged := Logged.report (s := s.tick) ⟨hlog.found, hlog.cycles⟩
  nodup := List.nodup_singleton _
  mem := fun l => by rw [List.mem_singleton, hP]

/-- A loop over the edges to `ws` that ends with `r` has reported the circuits over them. -/
def Loops (adj : Fin k → List (Fin k)) (start : Fin k) (room before : ℕ)
    (all : List (List (Fin k))) (s : Johnson k) (p ws : List (Fin k)) (closed : Bool)
    (r : Option (Bool × Johnson k)) : Prop :=
  ∃ c s', r = some (c, s') ∧ (s'.blown = false → ∃ new,
    Reports adj start room before all s s' (Over adj start p ws) new ∧
    c = (closed || !new.isEmpty) ∧
    (new = [] → ∀ w ∈ ws, start ≤ w → w ≠ start ∧ s'.blocked w))

lemma scan_reports {visit : Fin k → Johnson k → Option (Bool × Johnson k)} {fuel : ℕ}
    (hvisit : Visits adj start room before visit fuel) {ws : List (Fin k)} (hws : ws.Nodup)
    (hsub : ws ⊆ adj v) {p : List (Fin k)} (hpath : s.path = p ++ [v])
    (hwalk : Walk adj start (p ++ [v])) (hinv : Inv adj start s) (hlog : Logged room before all s)
    (hblown : s.blown = false) (hfree : free s ≤ fuel) (closed : Bool) :
    Loops adj start room before all s (p ++ [v]) ws closed
      (scan start room limits visit ws closed s) := by
  induction ws generalizing s all closed with
  | nil =>
    refine ⟨closed, s, rfl, fun _ => ⟨[], ⟨Keeps.refl s, hinv, by simpa using hlog,
      List.nodup_nil, fun l => by simp [Over]⟩, by simp, by simp⟩⟩
  | cons w ws ih =>
    obtain ⟨hw, hws⟩ := List.nodup_cons.1 hws
    obtain ⟨hedge, hsub⟩ := List.cons_subset.1 hsub
    -- whatever the edge to `w` did, the loop goes on over the others
    have hrest : ∀ (s₁ : Johnson k) (new₁ : List (List (Fin k))) (closed₁ : Bool),
        Reports adj start room before all s s₁ (fun l => CircuitFrom adj start l ∧
          ((w = start ∧ l = p ++ [v]) ∨ (w ≠ start ∧ p ++ [v] ++ [w] <+: l))) new₁ →
        s₁.blown = false → closed₁ = (closed || !new₁.isEmpty) →
        (new₁ = [] → start ≤ w → w ≠ start ∧ s₁.blocked w) →
        Loops adj start room before all s (p ++ [v]) (w :: ws) closed
          (scan start room limits visit ws closed₁ s₁) := by
      intro s₁ new₁ closed₁ hrep hblown₁ hclosed₁ hdead₁
      obtain ⟨c, s', hscan, hpost⟩ := ih hws hsub (hrep.keeps.path.trans hpath) hrep.inv hrep.logged
        hblown₁ (hrep.keeps.free_le.trans hfree) closed₁
      refine ⟨c, s', hscan, fun hblown' => ?_⟩
      obtain ⟨new, hnew, hc, hdead⟩ := hpost hblown'
      refine ⟨new₁ ++ new, hrep.trans hnew (fun l l' hl hl' => Over.ne hw hl.2 hl')
        fun l => Over.cons_iff, ?_, fun hnil => ?_⟩
      · rw [hc, hclosed₁]
        cases new₁ <;> simp
      · obtain ⟨hnil₁, hnil⟩ := List.append_eq_nil_iff.1 hnil
        refine List.forall_mem_cons.2 ⟨fun hle => ?_, hdead hnil⟩
        obtain ⟨hne, hblocked⟩ := hdead₁ hnil₁ hle
        exact ⟨hne, hnew.keeps.blocked w hblocked⟩
    rw [scan]
    split_ifs with hspent hlt heq hblocked
    · exact ⟨closed, _, rfl, fun h => by simp at h⟩
    · -- below the start
      refine hrest s.tick [] closed (Reports.tick hinv hlog ?_) hblown (by simp)
        fun _ hle => absurd hle (not_le.2 hlt)
      rintro l ⟨hl, ⟨rfl, -⟩ | ⟨-, hpre⟩⟩
      · exact lt_irrefl _ hlt
      · exact absurd (hl.least w (hpre.subset (by simp))) (not_le.2 hlt)
    · subst heq
      refine hrest _ [s.path] true (Reports.report hinv hlog fun l => ?_) hblown (by simp) (by simp)
      rw [hpath]
      constructor
      · rintro ⟨-, ⟨-, rfl⟩ | ⟨hne, -⟩⟩
        · rfl
        · exact absurd rfl hne
      · rintro rfl
        exact ⟨hwalk.circuitFrom hedge, .inl ⟨rfl, rfl⟩⟩
    · refine hrest s.tick [] closed (Reports.tick hinv hlog ?_) hblown (by simp)
        fun _ _ => ⟨heq, hblocked⟩
      rintro l ⟨hl, ⟨rfl, -⟩ | ⟨-, hpre⟩⟩
      · exact heq rfl
      · rw [← hpath] at hpre
        exact hinv.not_circuitFrom hblocked hpre hl
    · have hfreew : s.tick.blocked w = false := by simpa using hblocked
      have hoff : w ∉ p ++ [v] := by
        rw [← hpath]
        exact fun hmem => hblocked (hinv.onPath w hmem)
      have htick := Reports.tick hinv hlog (P := fun _ => False) fun _ h => h
      have hwalk' : Walk adj start (s.tick.path ++ [w]) := by
        have := hwalk.snoc hedge (not_lt.1 hlt) hoff
        rwa [← hpath] at this
      obtain ⟨c, s₁, hcall, hpost⟩ := hvisit w s.tick all htick.inv (by simpa using htick.logged)
        hblown hfreew hwalk' hfree
      rw [hcall]
      cases hblown₁ : s₁.blown with
      | true =>
        obtain ⟨s', hscan, hblown'⟩ := scan_blown visit ws (closed || c) hblown₁
        exact ⟨_, s', hscan, fun h => by simp [hblown'] at h⟩
      | false =>
        obtain ⟨new₁, hrep, hc, hwb⟩ := hpost hblown₁
        refine hrest s₁ new₁ (closed || c) ?_ hblown₁ (by rw [hc]) fun hnil _ => ⟨heq, ?_⟩
        · refine htick.trans (by simpa using hrep) (fun _ _ h => h.elim) fun l => ?_
          change _ ↔ False ∨ (CircuitFrom adj start l ∧ s.path ++ [w] <+: l)
          simp [heq, hpath]
        · rw [hwb, hc, hnil]
          rfl

/-- A call reports the circuits that continue the path over its vertex. -/
theorem circuit_visits (limits : Limits) (hadj : ∀ v, (adj v).Nodup) (fuel : ℕ) :
    Visits adj start room before (circuit adj start room limits fuel) fuel := by
  induction fuel with
  | zero =>
    intro v s all hinv hlog hblown hv hwalk hfree
    have hpos := (Nat.zero_le _).trans_lt (free_enter hv)
    omega
  | succ fuel ih =>
    intro v s all hinv hlog hblown hv hwalk hfree
    have hentered := free_enter hv
    obtain ⟨c, s₁, hscan, hpost⟩ := @scan_reports k adj start v room before limits (s.enter v) all _
      fuel ih (adj v) (hadj v) (List.Subset.refl _) s.path rfl hwalk hinv.enter
      ⟨hlog.found, hlog.cycles⟩ hblown (by omega) false
    rw [circuit, hscan]
    refine ⟨c, _, rfl, fun hblown' => ?_⟩
    obtain ⟨blocked, b, hsettle⟩ := settle_frame s₁ adj start v c
    rw [hsettle] at hblown'
    obtain ⟨new, hrep, hc, hdead⟩ := hpost hblown'
    have hsettled : Inv adj start (settle adj start v c s₁).pop ∧
        Keeps s (settle adj start v c s₁).pop ∧ (settle adj start v c s₁).pop.blocked v = !c := by
      cases c with
      | true => exact hinv.unblock_pop hv hrep.keeps hrep.inv
      | false => exact hinv.wait_pop hv hrep.keeps hrep.inv (hdead (by simpa using hc))
    refine ⟨new, ⟨hsettled.2.1, hsettled.1, ?_, hrep.nodup,
      fun l => (hrep.mem l).trans (over_iff hwalk)⟩, hc, hsettled.2.2⟩
    rw [hsettle]
    exact ⟨hrep.logged.found, hrep.logged.cycles⟩

/-! ### All starts -/

/-- The circuit of one start begins with the start. -/
lemma prefix_iff (h : CircuitFrom adj start l) : ([] : List (Fin k)) ++ [start] <+: l := by
  obtain ⟨rest, rfl⟩ := h.exists_cons
  exact ⟨rest, rfl⟩

lemma inv_empty (found : List (List (Fin k))) (budget : Budget) :
    Inv adj start { found := found, budget := budget } :=
  ⟨by simp, by simp, by simp⟩

lemma walk_start : Walk adj start ([] ++ [start]) :=
  ⟨rfl, by simp, by simp, by simp⟩

/-- The calls from all of `starts` report the circuits from them. -/
theorem runFrom_reports (limits : Limits) (room : ℕ) (hadj : ∀ v, (adj v).Nodup)
    {starts : List (Fin k)} (hstarts : starts.Nodup) (all : List (List (Fin k))) (budget : Budget)
    (hcycles : budget.cycles = before + all.length) :
    ∃ found budget', runFrom adj room limits starts (all.take room) budget = some (found, budget') ∧
      ∀ listed, found = some listed → ∃ new, listed = (all ++ new).take room ∧
        budget'.cycles = before + (all ++ new).length ∧ new.Nodup ∧
        ∀ l, l ∈ new ↔ ∃ start ∈ starts, CircuitFrom adj start l := by
  induction starts generalizing all budget with
  | nil =>
    refine ⟨_, budget, rfl, ?_⟩
    rintro listed ⟨⟩
    exact ⟨[], by simp, by simpa using hcycles, List.nodup_nil, by simp⟩
  | cons start starts ih =>
    obtain ⟨hstart, hstarts⟩ := List.nodup_cons.1 hstarts
    have hcount : free { found := all.take room, budget := budget : Johnson k } ≤ k :=
      (card_filter_le _ _).trans_eq (card_fin k)
    obtain ⟨c, j, hcall, hpost⟩ := circuit_visits limits hadj k start
      { found := all.take room, budget := budget } all (inv_empty _ _) ⟨rfl, hcycles⟩ rfl rfl
      walk_start hcount
    rw [runFrom, hcall]
    cases hblown : j.blown with
    | true => exact ⟨none, j.budget, by simp [hblown], by simp⟩
    | false =>
      obtain ⟨new, hrep, -, -⟩ := hpost hblown
      obtain ⟨found, budget', hrun, hfinal⟩ := ih hstarts _ _ hrep.logged.cycles
      refine ⟨found, budget', by simpa [hblown, hrep.logged.found] using hrun,
        fun listed hlisted => ?_⟩
      obtain ⟨more, hlist, hcyc, hnodup, hmem⟩ := hfinal listed hlisted
      refine ⟨new ++ more, by rw [hlist, List.append_assoc], by rw [hcyc, List.append_assoc], ?_,
        fun l => ?_⟩
      · refine List.nodup_append.2 ⟨hrep.nodup, hnodup, ?_⟩
        rintro l hl _ hl' rfl
        obtain ⟨start', hstart', hfrom⟩ := (hmem l).1 hl'
        have hsame : start = start' := by
          simpa [((hrep.mem l).1 hl).1.head] using hfrom.head
        exact hstart (hsame ▸ hstart')
      · rw [List.mem_append, hrep.mem, hmem, List.exists_mem_cons_iff]
        exact or_congr_left (and_iff_left_of_imp prefix_iff)

end Index.Johnson

namespace Index

open Graph

section members

variable (members : Members) (adj : Adjacency)

lemma Members.nodup : members.ids.Nodup := members.sorted.imp fun h => Nat.ne_of_lt h

variable {i j : Fin members.ids.length}

lemma Members.get_le_get : members.ids.get i ≤ members.ids.get j ↔ i ≤ j := by
  have hmono : StrictMono members.ids.get := fun i j hij =>
    List.pairwise_iff_get.1 members.sorted i j hij
  exact hmono.le_iff_le

lemma Members.get_injective : Function.Injective members.ids.get :=
  List.nodup_iff_injective_get.1 members.nodup

lemma Members.finIdxOf?_eq_some {f : ℕ} :
    members.ids.finIdxOf? f = some i ↔ members.ids.get i = f := by
  rw [List.finIdxOf?_eq_some_iff]
  refine ⟨And.left, fun h => ⟨h, fun j hj hsame => hj.ne ?_⟩⟩
  exact members.get_injective (hsame.trans h.symm)

lemma mem_localAdj :
    j ∈ localAdj members adj i ↔ members.ids.get j ∈ adj.targets (members.ids.get i) := by
  simp only [localAdj, List.mem_filterMap, Members.finIdxOf?_eq_some, exists_eq_right']

lemma localAdj_nodup (i : Fin members.ids.length) : (localAdj members adj i).Nodup := by
  refine (adj.nodup _).filterMap fun f g j hf hg => ?_
  rw [Option.mem_def, Members.finIdxOf?_eq_some] at hf hg
  exact hf.symm.trans hg

/-- Local circuits are the circuits of the members. -/
lemma circuitFrom_map {start : Fin members.ids.length} {l : List (Fin members.ids.length)} :
    CircuitFrom (localAdj members adj) start l ↔
      CircuitFrom adj.targets (members.ids.get start) (l.map members.ids.get) := by
  have hhead : (l.map members.ids.get).head? = some (members.ids.get start) ↔
      l.head? = some start := by
    rw [List.head?_map, ← Option.map_some, (Option.map_injective members.get_injective).eq_iff]
  have hleast : (∀ u ∈ l.map members.ids.get, members.ids.get start ≤ u) ↔
      ∀ u ∈ l, start ≤ u := by
    simp only [List.forall_mem_map, members.get_le_get]
  have hchain : List.IsChain (Arc adj.targets) (l.map members.ids.get ++ [members.ids.get start]) ↔
      List.IsChain (Arc (localAdj members adj)) (l ++ [start]) := by
    have hedge : Arc (localAdj members adj) =
        fun i j => Arc adj.targets (members.ids.get i) (members.ids.get j) :=
      funext₂ fun i j => propext (mem_localAdj members adj)
    rw [← List.map_singleton, ← List.map_append, List.isChain_map, hedge]
  exact ⟨fun h => ⟨hhead.2 h.head, h.nodup.map members.get_injective, hleast.2 h.least,
      hchain.2 h.chain⟩,
    fun h => ⟨hhead.1 h.head, (List.nodup_map_iff members.get_injective).1 h.nodup,
      hleast.1 h.least, hchain.1 h.chain⟩⟩

/-- The elementary cycles of the subgraph of the members. -/
def cyclesWithin : Set (Cycle ℕ) := {c | IsCircuit adj.targets c ∧ ∀ f ∈ c, f ∈ members.ids}

/-- The cycle that a local circuit is. -/
def cycleOf (l : List (Fin members.ids.length)) : Cycle ℕ := (l.map members.ids.get : List ℕ)

lemma cycleOf_injOn {l l' : List (Fin members.ids.length)} {start start' : Fin members.ids.length}
    (h : CircuitFrom (localAdj members adj) start l)
    (h' : CircuitFrom (localAdj members adj) start' l')
    (heq : cycleOf members l = cycleOf members l') :
    l = l' :=
  List.map_injective_iff.2 members.get_injective
    (((circuitFrom_map members adj).1 h).eq_of_coe_eq ((circuitFrom_map members adj).1 h') heq)

/-- The elementary cycles within the members are those of the local circuits. -/
lemma mem_cyclesWithin {c : Cycle ℕ} :
    c ∈ cyclesWithin members adj ↔
      ∃ l, (∃ start, CircuitFrom (localAdj members adj) start l) ∧ cycleOf members l = c := by
  constructor
  · rintro ⟨hcircuit, hwithin⟩
    obtain ⟨start, l, hl, rfl⟩ := hcircuit.exists_circuitFrom
    have hwithin' : ∀ f ∈ l, f ∈ Set.range members.ids.get := fun f hf =>
      List.mem_iff_get.1 (hwithin f hf)
    obtain ⟨l, rfl⟩ : l ∈ Set.range (List.map members.ids.get) := by
      rw [Set.range_list_map]
      exact hwithin'
    obtain ⟨i, rfl⟩ := hwithin' start (List.mem_of_mem_head? hl.head)
    exact ⟨l, ⟨i, (circuitFrom_map members adj).2 hl⟩, rfl⟩
  · rintro ⟨l, ⟨start, hl⟩, rfl⟩
    refine ⟨((circuitFrom_map members adj).1 hl).isCircuit, fun f hf => ?_⟩
    obtain ⟨i, -, rfl⟩ := List.mem_map.1 (Cycle.mem_coe_iff.1 hf)
    exact List.get_mem _ _

end members

/-- Whatever it may spend, the enumeration ends, and when it has a result that is the number of the
elementary cycles of the component and as many of them as there is room for, each once. -/
theorem enumerate_counts (limits : Limits) (members : Members) (adj : Adjacency) (budget : Budget)
    (room : ℕ) :
    ∃ result after, enumerate limits members adj budget room = some (result, after) ∧
      ∀ count listed, result = some (count, listed) →
        (cyclesWithin members adj).encard = count ∧
        (listed.map fun l : List ℕ => (l : Cycle ℕ)).Nodup ∧
        (∀ l ∈ listed, (l : Cycle ℕ) ∈ cyclesWithin members adj) ∧
        listed.length = min room count := by
  rw [enumerate]
  split_ifs with hsize
  · exact ⟨none, budget, rfl, by simp⟩
  obtain ⟨found, after, hrun, hfound⟩ := Johnson.runFrom_reports limits room
    (localAdj_nodup members adj) (List.nodup_finRange _) [] budget (Nat.add_zero _).symm
  rw [List.take_nil] at hrun
  rw [hrun]
  cases found with
  | none => exact ⟨none, after, rfl, by simp⟩
  | some kept =>
    obtain ⟨all, rfl, hcycles, hnodup, hmem⟩ := hfound kept rfl
    rw [List.nil_append] at hcycles ⊢
    refine ⟨_, after, rfl, ?_⟩
    rintro count listed ⟨⟩
    have hcount : after.cycles - budget.cycles = all.length := by omega
    have hmem' : ∀ l, l ∈ all ↔ ∃ start, CircuitFrom (localAdj members adj) start l := by
      simpa using hmem
    -- the reported circuits are the cycles, each once
    have hdistinct : (all.map (cycleOf members)).Nodup := by
      refine hnodup.map_on fun l hl l' hl' heq => ?_
      obtain ⟨start, hstart⟩ := (hmem' l).1 hl
      obtain ⟨start', hstart'⟩ := (hmem' l').1 hl'
      exact cycleOf_injOn members adj hstart hstart' heq
    have hcycle : ∀ c, c ∈ all.map (cycleOf members) ↔ c ∈ cyclesWithin members adj := by
      intro c
      simp only [List.mem_map, mem_cyclesWithin, hmem']
    have hlisted : ((all.take room).map (·.map members.ids.get)).map
        (fun l : List ℕ => (l : Cycle ℕ)) =
        (all.map (cycleOf members)).take room := by
      rw [List.map_map, List.map_take]
      rfl
    refine ⟨?_, ?_, fun l hl => ?_, ?_⟩
    · have hset : cyclesWithin members adj
          = ((all.map (cycleOf members)).toFinset : Set (Cycle ℕ)) := by
        ext c
        simp [← hcycle]
      rw [hset, Set.encard_coe_eq_coe_finsetCard, List.toFinset_card_of_nodup hdistinct,
        List.length_map, hcount]
    · rw [hlisted]
      exact hdistinct.sublist (List.take_sublist _ _)
    · rw [← hcycle]
      refine List.mem_of_mem_take (i := room) ?_
      rw [← hlisted]
      exact List.mem_map_of_mem hl
    · simp [hcount]

end Index
