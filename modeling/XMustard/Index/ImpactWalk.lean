import XMustard.Graph.Search
import XMustard.Index.Impact
import XMustard.Program.Fallible

/-! # What a walk reaches

A walk that is not cut short reaches the nodes at the distances it is asked for, each once and at
its distance. An excluded test node is visited but not kept, so it is at no distance. -/

namespace Index

open List Graph Fallible

namespace Impacting

variable {g : ImpactGraph} {q : Query} {seeds : List Node} {late : Nat → Bool} {w w' : Walk}
  {u v : Node} {k d : Nat}

/-- The query's test filter keeps the node. -/
def Kept (g : ImpactGraph) (q : Query) (v : Node) : Prop :=
  ∃ key, g.key v = .ok key ∧ (q.includeTests = true ∨ g.isTest key.file = false)

/-- An edge the layer, relation and confidence rules admit. -/
def Admits (g : ImpactGraph) (q : Query) (layer : String) (e : Edge) : Prop :=
  follows g q layer e = true ∧ ¬e.confidence < quantizeConfidence q.minConfidence

/-- An admitted edge leads from `u` to the kept node `v`. -/
def Hop (g : ImpactGraph) (q : Query) (u v : Node) : Prop :=
  Kept g q v ∧ ∃ file es, g.fileOf u = .ok file ∧ g.edges u q.direction = .ok es ∧
    ∃ e ∈ es, e.node = v ∧ Admits g q (g.layerFor file) e

/-- The distance of a node from the seeds. -/
def At (g : ImpactGraph) (q : Query) (seeds : List Node) (d : Nat) (v : Node) : Prop :=
  AtDistance (· ∈ seeds) (Hop g q) d v

/-! ## One level -/

/-- What holds while the nodes at distance `d` are expanded. -/
structure Level (g : ImpactGraph) (q : Query) (seeds : List Node) (d : Nat)
    (todo : Node → Node → Prop) (w : Walk) : Prop where
  layered : Layered (· ∈ seeds) (Hop g q) (fun v => v ∈ w.visited ∧ Kept g q v)
    (· ∈ w.next.map (·.1)) d todo
  start : ∀ s ∈ seeds, s ∈ w.visited
  current : ∀ u v, todo u v → ∃ s ∈ seeds, Steps (Hop g q) d s u
  next : ∀ v ∈ w.next.map (·.1), ∃ s ∈ seeds, Steps (Hop g q) (d + 1) s v
  /-- What was visited and is kept is near or is of the new level. -/
  visited : ∀ v ∈ w.visited, Kept g q v → v ∉ w.next.map (·.1) →
    ∃ j ≤ d, ∃ s ∈ seeds, Steps (Hop g q) j s v
  nodup : (w.reached.map (·.node)).Nodup
  reached_visited : ∀ r ∈ w.reached, r.node ∈ w.visited
  reached : ∀ v j, (∃ r ∈ w.reached, r.node = v ∧ r.depth = j) ↔
    (1 ≤ j ∧ j ≤ d ∧ At g q seeds j v) ∨ j = d + 1 ∧ v ∈ w.next.map (·.1)

variable {todo todo' : Node → Node → Prop}

section

variable (h : Level g q seeds d todo w)
include h

/-- The fields the invariant is about. -/
lemma Level.congr (hreached : w'.reached = w.reached) (hvisited : w'.visited = w.visited)
    (hnext : w'.next = w.next) : Level g q seeds d todo w' := by
  obtain ⟨⟩ := w'
  subst hreached hvisited hnext
  exact ⟨h.layered, h.start, h.current, h.next, h.visited, h.nodup, h.reached_visited, h.reached⟩

lemma Level.mono (hsub : ∀ u v, todo' u v → todo u v)
    (hdone : ∀ u v, Hop g q u v → todo u v → todo' u v ∨ v ∈ w.visited) :
    Level g q seeds d todo' w :=
  { h with
    layered := h.layered.mono hsub fun u v huv hu => (hdone u v huv hu).imp_right (⟨·, huv.1⟩)
    current := fun u v hu => h.current u v (hsub u v hu) }

/-- An excluded node is marked visited and nothing else. -/
lemma Level.exclude (hv : ¬Kept g q v) :
    Level g q seeds d todo { w with visited := insert v w.visited } := by
  have hkept (x : Node) : x ∈ insert v w.visited ∧ Kept g q x ↔ x ∈ w.visited ∧ Kept g q x := by
    refine and_congr_left fun hx => ?_
    rw [Finset.mem_insert, or_iff_right]
    rintro rfl
    exact hv hx
  exact { h with
    layered := by simpa only [hkept] using h.layered
    start := fun s hs => Finset.mem_insert_of_mem (h.start s hs)
    visited := fun x hx hk => h.visited x ((hkept x).1 ⟨hx, hk⟩).1 hk
    reached_visited := fun r hr => Finset.mem_insert_of_mem (h.reached_visited r hr) }

/-- A new node one hop from the current level is of the next one. -/
lemma Level.push (hu : ∃ s ∈ seeds, Steps (Hop g q) d s u) (hhop : Hop g q u v)
    (hnew : v ∉ w.visited) {r : Reached} (hr : r.node = v) (hdepth : r.depth = d + 1) (c : Float)
    (s : Bool) :
    Level g q seeds d todo { w with
      visited := insert v w.visited
      reached := w.reached ++ [r]
      next := w.next ++ [(v, c, s)] } where
  layered := by
    refine h.layered.discover (fun hs => hnew (h.start v hs)) (fun hv => hnew hv.1) (fun x => ?_)
      fun x => by simp [or_comm]
    rw [Finset.mem_insert, or_and_right]
    exact or_congr_left (and_iff_left_of_imp fun hxv => hxv ▸ hhop.1)
  start x hx := Finset.mem_insert_of_mem (h.start x hx)
  current := h.current
  next x hx := by
    rw [map_append, mem_append] at hx
    rcases hx with hx | hx
    · exact h.next x hx
    · obtain rfl : x = v := by simpa using hx
      obtain ⟨s, hs, hsteps⟩ := hu
      exact ⟨s, hs, u, hsteps, hhop⟩
  visited x hx hkept hnot := by
    rw [map_append, mem_append, not_or] at hnot
    have hne : x ≠ v := by simpa using hnot.2
    exact h.visited x ((Finset.mem_insert.1 hx).resolve_left hne) hkept hnot.1
  nodup := by
    rw [map_append, nodup_append]
    refine ⟨h.nodup, by simp, ?_⟩
    intro x hx y hy
    obtain ⟨r', hr', rfl⟩ := mem_map.1 hx
    obtain rfl : y = v := by simpa [hr] using hy
    intro heq
    exact hnew (heq ▸ h.reached_visited r' hr')
  reached_visited x hx := by
    rcases mem_append.1 hx with hx | hx
    · exact Finset.mem_insert_of_mem (h.reached_visited x hx)
    · rw [mem_singleton.1 hx, hr]
      exact Finset.mem_insert_self ..
  reached x j := by
    have hlast : (∃ r' ∈ w.reached ++ [r], r'.node = x ∧ r'.depth = j) ↔
        (∃ r' ∈ w.reached, r'.node = x ∧ r'.depth = j) ∨ x = v ∧ j = d + 1 := by
      simp [or_and_right, exists_or, hr, hdepth, eq_comm]
    rw [hlast, h.reached, map_append, mem_append, map_singleton, mem_singleton]
    tauto

end

lemma exists_noteLayer (file : FileId) (w : Walk) :
    ∃ r l, noteLayer g file w = { w with resolved := r, lexical := l } := by
  unfold noteLayer
  split <;> exact ⟨_, _, rfl⟩

/-! ## Following edges -/

variable {layer : String} {inScope : Bool} {es : List Edge} {conf : Float}
  {frontier : List (Node × Float × Bool)} {fuel : Nat}

/-- The nodes of `frontier` have not been expanded, nor these edges of `u`. -/
def Todo (g : ImpactGraph) (q : Query) (layer : String) (frontier : List (Node × Float × Bool))
    (u : Node) (es : List Edge) (x v : Node) : Prop :=
  x ∈ frontier.map (·.1) ∨ x = u ∧ ∃ e ∈ es, e.node = v ∧ Admits g q layer e

lemma Level.skip {e : Edge} (h : Level g q seeds d (Todo g q layer frontier u (e :: es)) w)
    (hvisited : Admits g q layer e → e.node ∈ w.visited) :
    Level g q seeds d (Todo g q layer frontier u es) w := by
  refine h.mono (fun x v => Or.imp_right (And.imp_right ?_)) ?_
  · rintro ⟨e', he', hadm⟩
    exact ⟨e', mem_cons_of_mem e he', hadm⟩
  · rintro x v - (hx | ⟨rfl, e', hmem, rfl, hadm⟩)
    · exact .inl (.inl hx)
    · rcases mem_cons.1 hmem with rfl | hmem
      · exact .inr (hvisited hadm)
      · exact .inl (.inr ⟨rfl, e', hmem, rfl, hadm⟩)

/-- Following the edges of a node of the current level visits the nodes of all its admitted
edges. -/
lemma followEdges_level (hhop : ∀ e ∈ es, Admits g q layer e → Kept g q e.node → Hop g q u e.node)
    (hw : Level g q seeds k (Todo g q layer frontier u es) w)
    (h : followEdges g q layer u conf inScope (k + 1) es w = .ok (false, w')) :
    Level g q seeds k (fun x _ => x ∈ frontier.map (·.1)) w' := by
  induction es generalizing w with
  | nil =>
    rw [followEdges] at h
    obtain rfl : w = w' := by simpa using h
    exact hw.mono (fun _ _ => .inl) fun x v _ hx => .inl (by simpa [Todo] using hx)
  | cons e es ih =>
    obtain ⟨he, hes⟩ := forall_mem_cons.1 hhop
    rw [followEdges] at h
    split at h
    · rename_i hf
      exact ih hes (hw.skip fun ha => by simp [ha.1] at hf) h
    rename_i hf
    split at h
    · rename_i hc
      refine ih hes ?_ h
      exact (hw.skip fun ha => absurd hc ha.2).congr rfl rfl rfl
    rename_i hc
    split at h
    · rename_i hv
      exact ih hes (hw.skip fun _ => hv) h
    rename_i hv
    have hadm : Admits g q layer e := ⟨by simpa using hf, hc⟩
    obtain ⟨key, hkey, h⟩ := bind_eq_ok.1 h
    have hkept : Kept g q e.node ↔ ¬(!q.includeTests && g.isTest key.file) := by
      simp [Kept, hkey, or_iff_not_imp_left]
    split at h
    · rename_i ht
      refine ih hes ?_ h
      have hexclude := hw.exclude (mt hkept.1 (not_not.2 ht))
      exact (hexclude.skip fun _ => Finset.mem_insert_self ..).congr rfl rfl rfl
    rename_i ht
    dsimp only at h
    split at h
    · cases h
    obtain ⟨r, l, hnote⟩ := exists_noteLayer (g := g) key.file
      { w with visited := insert e.node w.visited, seenCount := w.seenCount + 1 }
    rw [Impacting.push, hnote] at h
    refine ih hes ?_ h
    have hu := hw.current u e.node (.inr ⟨rfl, e, mem_cons_self, rfl, hadm⟩)
    exact (Level.skip (hw.push (r := ⟨e.node, key, k + 1, u, e, _, _⟩) hu
      (he hadm (hkept.2 ht)) hv rfl
      rfl _ _) fun _ => Finset.mem_insert_self ..).congr rfl rfl rfl

/-- Expanding a level leaves nothing to do. -/
lemma followNodes_level (hw : Level g q seeds k (fun x _ => x ∈ frontier.map (·.1)) w)
    (h : followNodes g q late (k + 1) frontier w = .ok (false, w')) :
    Level g q seeds k (fun _ _ => False) w' := by
  induction frontier generalizing w with
  | nil =>
    rw [followNodes] at h
    obtain rfl : w = w' := by simpa using h
    exact hw.mono (fun _ _ => False.elim) fun _ _ _ => nofun
  | cons x frontier ih =>
    obtain ⟨node, conf, inScope⟩ := x
    rw [followNodes] at h
    split at h
    · simp at h
    obtain ⟨file, hfile, h⟩ := bind_eq_ok.1 h
    obtain ⟨es, hedges, h⟩ := bind_eq_ok.1 h
    obtain ⟨⟨stop, w₁⟩, hfollow, h⟩ := bind_eq_ok.1 h
    cases stop with
    | true => cases h
    | false =>
      have hw₀ : Level g q seeds k (Todo g q (g.layerFor file) frontier node es)
          { w with ticks := w.ticks + 1 } := by
        refine Level.congr (hw.mono (fun x v => ?_) fun x v hxv hx => .inl ?_) rfl rfl rfl
        · rintro (hx | ⟨rfl, -⟩)
          · exact mem_cons_of_mem _ hx
          · exact mem_cons_self
        · rcases mem_cons.1 hx with rfl | hx
          · obtain ⟨-, file', es', hfile', hedges', he⟩ := hxv
            cases hfile.symm.trans hfile'
            cases hedges.symm.trans hedges'
            exact .inr ⟨rfl, he⟩
          · exact .inl hx
      exact ih (followEdges_level (fun e he hadm hkept =>
        ⟨hkept, file, es, hfile, hedges, e, he, rfl, hadm⟩) hw₀ hfollow) h

section

variable (h : Level g q seeds d (fun _ _ => False) w)
include h

/-- Of an expanded level the next nodes are those one step further. -/
lemma Level.mem_next_iff (v : Node) : v ∈ w.next.map (·.1) ↔ At g q seeds (d + 1) v := by
  refine ⟨fun hv => ⟨h.next v hv, fun j hj s hs hsteps => ?_⟩,
    fun ⟨⟨s, hs, z, hz, hzv⟩, hleast⟩ => ?_⟩
  · exact (h.layered.near j (Nat.le_of_lt_succ hj) s v hs hsteps).2.1 hv
  · obtain ⟨hfound, hnot, -⟩ := h.layered.near d le_rfl s z hs hz
    obtain ⟨hvisited, hkept⟩ := (h.layered.expanded z hfound hnot v hzv).resolve_left id
    by_contra hnext
    obtain ⟨j, hj, s, hs, hsteps⟩ := h.visited v hvisited hkept hnext
    exact hleast j (Nat.lt_succ_of_le hj) s hs hsteps

lemma Level.reached_iff (v : Node) (j : Nat) : (∃ r ∈ w.reached, r.node = v ∧ r.depth = j) ↔
    1 ≤ j ∧ j ≤ d + 1 ∧ At g q seeds j v := by
  rw [h.reached, h.mem_next_iff]
  constructor
  · rintro (⟨hj, hle, hat⟩ | ⟨rfl, hat⟩)
    · exact ⟨hj, by omega, hat⟩
    · exact ⟨by omega, le_rfl, hat⟩
  · rintro ⟨hj, hle, hat⟩
    rcases hle.lt_or_eq with hlt | rfl
    · exact .inl ⟨hj, Nat.le_of_lt_succ hlt, hat⟩
    · exact .inr ⟨rfl, hat⟩

lemma Level.advance :
    Level g q seeds (d + 1) (fun u _ => u ∈ w.next.map (·.1)) { w with next := [] } where
  layered := by simpa using h.layered.nextLevel
  start := h.start
  current u _ := h.next u
  next := nofun
  visited v hv hkept _ := by
    by_cases hnext : v ∈ w.next.map (·.1)
    · exact ⟨d + 1, le_rfl, h.next v hnext⟩
    · obtain ⟨j, hj, hsteps⟩ := h.visited v hv hkept hnext
      exact ⟨j, by omega, hsteps⟩
  nodup := h.nodup
  reached_visited := h.reached_visited
  reached v j := by simpa using h.reached_iff v j

end

/-! ## Cutting a walk short -/

lemma followEdges_stop
    (h : followEdges g q layer u conf inScope d es w = .ok (true, w')) : w'.truncated = true := by
  induction es generalizing w with
  | nil => cases h
  | cons e es ih =>
    rw [followEdges] at h
    split at h
    · exact ih h
    split at h
    · exact ih h
    split at h
    · exact ih h
    obtain ⟨key, -, h⟩ := bind_eq_ok.1 h
    split at h
    · exact ih h
    dsimp only at h
    split at h
    · cases h
      rfl
    · exact ih h

lemma followNodes_stop (h : followNodes g q late d frontier w = .ok (true, w')) :
    w'.truncated = true ∨ w'.timedOut = true := by
  induction frontier generalizing w with
  | nil => cases h
  | cons x frontier ih =>
    rw [followNodes] at h
    split at h
    · cases h
      exact .inr rfl
    obtain ⟨file, -, h⟩ := bind_eq_ok.1 h
    obtain ⟨es, -, h⟩ := bind_eq_ok.1 h
    obtain ⟨⟨stop, w₁⟩, hfollow, h⟩ := bind_eq_ok.1 h
    cases stop with
    | true =>
      cases h
      exact .inl (followEdges_stop hfollow)
    | false => exact ih h

/-! ## The whole walk -/

/-- The nodes reached are those at a distance between 1 and `n`. -/
structure Reaches (g : ImpactGraph) (q : Query) (seeds : List Node) (n : Nat) (w : Walk) :
    Prop where
  nodup : (w.reached.map (·.node)).Nodup
  reached : ∀ v j, (∃ r ∈ w.reached, r.node = v ∧ r.depth = j) ↔
    1 ≤ j ∧ j ≤ n ∧ At g q seeds j v

lemma levels_reaches
    (hw : Level g q seeds k (fun u _ => u ∈ frontier.map (·.1)) { w with next := [] })
    (h : levels g q late fuel (k + 1) frontier w = .ok w') (htrunc : w'.truncated = false)
    (htime : w'.timedOut = false) : Reaches g q seeds (k + fuel) w' := by
  induction fuel generalizing k frontier w with
  | zero =>
    cases h
    exact ⟨hw.nodup, fun v j => by simpa using hw.reached v j⟩
  | succ fuel ih =>
    obtain ⟨⟨stop, w₁⟩, hfollow, h⟩ := bind_eq_ok.1 h
    cases stop with
    | true =>
      cases h
      rcases followNodes_stop hfollow with hstop | hstop
      · simp [htrunc] at hstop
      · simp [htime] at hstop
    | false =>
      have hw₁ := followNodes_level hw hfollow
      dsimp only at h
      split at h
      · -- an empty level: there is nothing further away
        rename_i hempty
        cases h
        refine ⟨hw₁.nodup, fun v j => (hw₁.reached v j).trans ?_⟩
        simp only [hempty, map_nil, not_mem_nil, and_false, or_false]
        constructor
        · rintro ⟨hj, hle, hat⟩
          exact ⟨hj, by omega, hat⟩
        · rintro ⟨hj, -, hat⟩
          refine ⟨hj, not_lt.1 fun hlt => ?_, hat⟩
          obtain ⟨⟨s, hs, hsteps⟩, hleast⟩ := hat
          obtain ⟨j, rfl⟩ := Nat.exists_eq_add_of_le' hj
          obtain ⟨hvisited, hkept⟩ := hw₁.layered.found_of_steps (by simp [hempty]) hs hsteps
          obtain ⟨i, hi, s, hs, hsteps⟩ := hw₁.visited v hvisited hkept (by simp [hempty])
          exact hleast i (by omega) s hs hsteps
      · have := ih hw₁.advance h
        rwa [Nat.add_right_comm] at this

lemma addSeeds_spec (h : addSeeds g seeds w = .ok w') :
    w'.reached = w.reached ∧
      w'.next.map (·.1) = w.next.map (·.1) ++ seeds ∧
      ∀ v, v ∈ w'.visited ↔ v ∈ w.visited ∨ v ∈ seeds := by
  induction seeds generalizing w with
  | nil =>
    cases h
    simp
  | cons s seeds ih =>
    obtain ⟨file, -, h⟩ := bind_eq_ok.1 h
    obtain ⟨hreached, hnext, hvisited⟩ := ih h
    obtain ⟨r, l, hnote⟩ := exists_noteLayer (g := g) file
      { w with visited := insert s w.visited }
    rw [hnote] at hreached hnext hvisited
    refine ⟨hreached, by simpa using hnext, fun v => ?_⟩
    rw [hvisited]
    simp [or_assoc, or_left_comm]

lemma walk_reaches (h : walk g q seeds late = .ok w) (htrunc : w.truncated = false)
    (htime : w.timedOut = false) : Reaches g q seeds q.maxDepth w := by
  obtain ⟨w₀, hseeds, h⟩ := bind_eq_ok.1 h
  obtain ⟨hreached, hnext, hvisited⟩ := addSeeds_spec hseeds
  rw [← Nat.zero_add q.maxDepth]
  refine levels_reaches ?_ h htrunc htime
  refine ⟨?_, fun s hs => (hvisited s).2 (.inr hs), fun u v hu => ⟨u, ?_, rfl⟩, nofun,
    fun v hv _ _ => ⟨0, le_rfl, v, ?_, rfl⟩, by simp [hreached], by simp [hreached], fun v j => ?_⟩
  · have hfound : ∀ v, v ∈ w₀.visited ∧ Kept g q v → v ∈ seeds := fun v hv => by
      simpa using (hvisited v).1 hv.1
    simpa [hnext] using Layered.init (Hop g q) hfound
  · simpa [hnext] using hu
  · simpa using (hvisited v).1 hv
  · simp only [hreached, not_mem_nil, false_and, exists_false, map_nil, and_false,
      or_false, false_iff]
    omega

/-! ## The clock -/

/-- A level that was not cut short by the clock is the level without a clock. -/
lemma followNodes_unclocked {stop : Bool} (h : followNodes g q late d frontier w = .ok (stop, w'))
    (htime : stop = false ∨ w'.timedOut = false) :
    followNodes g q (fun _ => false) d frontier w = .ok (stop, w') := by
  induction frontier generalizing w with
  | nil =>
    exact h
  | cons x frontier ih =>
    rw [followNodes] at h ⊢
    split at h
    · cases h
      simp at htime
    obtain ⟨file, hfile, h⟩ := bind_eq_ok.1 h
    obtain ⟨es, hedges, h⟩ := bind_eq_ok.1 h
    obtain ⟨⟨stop₁, w₁⟩, hfollow, h⟩ := bind_eq_ok.1 h
    refine bind_eq_ok.2 ⟨file, hfile, bind_eq_ok.2 ⟨es, hedges, bind_eq_ok.2 ⟨_, hfollow, ?_⟩⟩⟩
    cases stop₁ with
    | true => exact h
    | false => exact ih h

lemma levels_unclocked
    (h : levels g q late fuel d frontier w = .ok w') (htime : w'.timedOut = false) :
    levels g q (fun _ => false) fuel d frontier w = .ok w' := by
  induction fuel generalizing d frontier w with
  | zero =>
    exact h
  | succ fuel ih =>
    obtain ⟨⟨stop, w₁⟩, hfollow, h⟩ := bind_eq_ok.1 h
    cases stop with
    | true =>
      cases h
      exact bind_eq_ok.2 ⟨_, followNodes_unclocked hfollow (.inr htime), rfl⟩
    | false =>
      refine bind_eq_ok.2 ⟨_, followNodes_unclocked hfollow (.inl rfl), ?_⟩
      dsimp only at h ⊢
      split
      · rename_i hnext
        rwa [if_pos hnext] at h
      · rename_i hnext
        rw [if_neg hnext] at h
        exact ih h

/-- Walks that are not cut short by the clock do not depend on it. -/
lemma walk_unclocked (h : walk g q seeds late = .ok w) (htime : w.timedOut = false) :
    walk g q seeds (fun _ => false) = .ok w := by
  obtain ⟨w₀, hseeds, h⟩ := bind_eq_ok.1 h
  exact bind_eq_ok.2 ⟨w₀, hseeds, levels_unclocked h htime⟩

end Impacting

end Index
