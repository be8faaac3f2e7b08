import Mathlib.Data.DFinsupp.WellFounded
import XMustard.Graph.Search
import XMustard.Machine.Loop

/-! # Flow walks

A flow lists the symbols that a seed calls, directly or through others, up to a depth. The walk is
depth first over an explicit stack. It lists a symbol at first sight and expands it again when a
shorter route leads to it, so a long route that is met first hides nothing. -/

namespace Index

open List Graph

namespace Flows

variable {V : Type}

structure Limits where
  maxDepth : Nat
  maxBranching : Nat

/-- The state of a walk. -/
structure Walk (V : Type) where
  /-- The length of the route a symbol was expanded on last, `⊤` for none. -/
  expandedAt : V → WithTop Nat := fun _ => ⊤
  inAnswer : Finset V
  visited : List V := []
  /-- The symbols to expand with the lengths of the routes to them; the head was pushed last. -/
  stack : List (V × Nat)
  deepest : Nat := 0
  truncatedAtBranching : Nat := 0
  truncatedAtDepth : Nat := 0

variable (limits : Limits)

/-- A callee of a symbol that is expanded at `depth` is queued while the depth bound allows it. -/
def queue (depth : Nat) (callee : V) (s : Walk V) : Walk V :=
  if depth < limits.maxDepth then
    { s with deepest := max s.deepest (depth + 1), stack := (callee, depth + 1) :: s.stack }
  else s

section

variable [DecidableEq V]

/-- One callee of an expansion, with the number of callees it has listed. -/
def follow (depth : Nat) : Walk V × Nat → V → Walk V × Nat
  | (s, taken), callee =>
    if callee ∈ s.inAnswer then (queue limits depth callee s, taken)
    else if limits.maxBranching ≤ taken then
      ({ s with truncatedAtBranching := s.truncatedAtBranching + 1 }, taken)
    else if limits.maxDepth < depth + 1 then
      ({ s with truncatedAtDepth := s.truncatedAtDepth + 1 }, taken)
    else
      let s := { s with inAnswer := insert callee s.inAnswer, visited := s.visited ++ [callee] }
      (queue limits depth callee s, taken + 1)

variable (callees : V → List V)

def expand (node : V) (depth : Nat) (s : Walk V) : Walk V :=
  let s := { s with expandedAt := Function.update s.expandedAt node (WithTop.some depth) }
  ((callees node).foldl (follow limits depth) (s, 0)).1

/-- Expand the symbol on the stack's top, unless it has been on a route that is not longer. -/
def step (s : Walk V) : Option (Walk V) :=
  match s.stack with
  | [] => none
  | (node, depth) :: stack =>
    if s.expandedAt node ≤ WithTop.some depth then some { s with stack := stack }
    else some (expand limits callees node depth { s with stack := stack })

lemma expandedAt_foldl (d : Nat) (ws : List V) (x : Walk V × Nat) :
    (ws.foldl (follow limits d) x).1.expandedAt = x.1.expandedAt := by
  refine foldlRecOn (motive := fun y : Walk V × Nat => y.1.expandedAt = x.1.expandedAt) ws _ rfl ?_
  rintro ⟨s, taken⟩ h c -
  simp only [follow, queue]
  split_ifs <;> exact h

variable {limits callees} in
/-- What a step does to the top of the stack. -/
lemma step_cases {s s' : Walk V} (h : step limits callees s = some s') :
    ∃ node d stack, s.stack = (node, d) :: stack ∧
      (s.expandedAt node ≤ WithTop.some d ∧ s' = { s with stack := stack } ∨
        WithTop.some d < s.expandedAt node ∧
          s' = expand limits callees node d { s with stack := stack }) := by
  unfold step at h
  split at h
  · cases h
  next node d stack hstack =>
  refine ⟨node, d, stack, hstack, ?_⟩
  split_ifs at h with hshort <;> cases h
  · exact .inl ⟨hshort, rfl⟩
  · exact .inr ⟨not_le.1 hshort, rfl⟩

/-- A step shortens the route of a symbol or the stack. -/
lemma step_lower (s s' : Walk V) (h : step limits callees s = some s') :
    toLex (s'.expandedAt, s'.stack.length) < toLex (s.expandedAt, s.stack.length) := by
  obtain ⟨node, d, stack, hstack, ⟨-, rfl⟩ | ⟨hlonger, rfl⟩⟩ := step_cases h
  · exact Prod.Lex.toLex_lt_toLex.2 (.inr ⟨rfl, by simp [hstack]⟩)
  · refine Prod.Lex.toLex_lt_toLex.2 (.inl ?_)
    rw [expand, expandedAt_foldl]
    exact update_lt_self_iff.2 hlonger

/-- The walk from one seed. -/
def walk [Finite V] (seed : V) : Walk V :=
  Machine.loop (step limits callees) _ (step_lower limits callees)
    { inAnswer := {seed}, stack := [(seed, 0)] }

end

/-! ## What the walk reports -/

variable {limits} {callees : V → List V} {seed node v : V} {s s' : Walk V} {d k taken : Nat}
  {stack : List (V × Nat)}

/-- The calls that lead to symbols of the answer. -/
def Among (callees : V → List V) (answer : Finset V) (u v : V) : Prop := v ∈ callees u ∧ v ∈ answer

/-- The symbol is in the answer, and it has been expanded on a route of at most `d` calls or is on
the stack to be. -/
def Met (s : Walk V) (v : V) (d : Nat) : Prop :=
  v ∈ s.inAnswer ∧ (s.expandedAt v ≤ WithTop.some d ∨ ∃ k ≤ d, (v, k) ∈ s.stack)

/-- What leaves the stack has been expanded. -/
lemma Met.mono (hexpanded : s'.expandedAt ≤ s.expandedAt) (hanswer : s.inAnswer ⊆ s'.inAnswer)
    (hstack : ∀ x ∈ s.stack, x ∈ s'.stack ∨ s'.expandedAt x.1 ≤ WithTop.some x.2)
    (h : Met s v k) : Met s' v k := by
  obtain ⟨hv, hle | ⟨j, hj, hmem⟩⟩ := h
  · exact ⟨hanswer hv, .inl ((hexpanded v).trans hle)⟩
  rcases hstack _ hmem with hmem | hle
  · exact ⟨hanswer hv, .inr ⟨j, hj, hmem⟩⟩
  · exact ⟨hanswer hv, .inl (hle.trans (WithTop.coe_le_coe.2 hj))⟩

/-- At the end what has been met has been expanded. -/
lemma Met.expandedAt_le (h : Met s v k) (hstack : s.stack = []) : s.expandedAt v ≤ WithTop.some k :=
  h.2.resolve_right (by simp [hstack])

variable (limits callees seed) in
/-- What holds while `node` is expanded at depth `d` and its callees `todo` are left. -/
structure Inv (node : V) (d : Nat) (todo : List V) (s : Walk V) : Prop where
  route : Steps (Among callees s.inAnswer) d seed node
  stacked : ∀ v k, (v, k) ∈ s.stack → Steps (Among callees s.inAnswer) k seed v
  answered : ∀ v ∈ s.inAnswer, ∃ k ≤ s.deepest, Steps (Among callees s.inAnswer) k seed v
  deepest : s.deepest ≤ limits.maxDepth ∧ ∃ v, Steps (Among callees s.inAnswer) s.deepest seed v
  start : Met s seed 0
  met : ∀ v ∈ s.inAnswer, ∃ k, Met s v k
  near : s.truncatedAtBranching = 0 → ∀ u k, s.expandedAt u = WithTop.some k →
    k < limits.maxDepth → ∀ v ∈ callees u, Met s v (k + 1) ∨ u = node ∧ k = d ∧ v ∈ todo
  closed : s.truncatedAtBranching = 0 → s.truncatedAtDepth = 0 → ∀ u, s.expandedAt u ≠ ⊤ →
    ∀ v ∈ callees u, v ∈ s.inAnswer ∨ u = node ∧ v ∈ todo
  cut : s.truncatedAtDepth ≠ 0 → ∃ k > limits.maxDepth, ∃ v, Steps (Arc callees) k seed v

/-- Between expansions no callee is left. -/
lemma Inv.done (h : Inv limits callees seed node d [] s) : Inv limits callees seed seed 0 [] s :=
  { h with
    route := rfl
    near := fun hb u k hu hk v hv => .inl ((h.near hb u k hu hk v hv).resolve_right (by simp))
    closed := fun hb ht u hu v hv => .inl ((h.closed hb ht u hu v hv).resolve_right (by simp)) }

/-- The top of the stack is skipped or its expansion begins. -/
lemma Inv.pop {e : V → WithTop Nat} {todo : List V} (h : Inv limits callees seed seed 0 [] s)
    (hstack : s.stack = (node, d) :: stack) (he : e ≤ s.expandedAt)
    (hnode : e node ≤ WithTop.some d)
    (hsame : ∀ u, e u = s.expandedAt u ∨ u = node ∧ e u = WithTop.some d ∧ todo = callees node) :
    Inv limits callees seed node d todo { s with stack := stack, expandedAt := e } := by
  have hmet {v k} (hv : Met s v k) : Met { s with stack := stack, expandedAt := e } v k := by
    refine hv.mono he subset_rfl fun x hx => ?_
    rcases mem_cons.1 (hstack ▸ hx) with rfl | hx
    · exact .inr hnode
    · exact .inl hx
  refine { h with
    route := h.stacked _ _ (hstack ▸ mem_cons_self)
    stacked := fun v k hk => h.stacked v k (hstack ▸ mem_cons_of_mem _ hk)
    start := hmet h.start
    met := fun v hv => (h.met v hv).imp fun k => hmet
    near := fun hb u k hu hk v hv => ?_
    closed := fun hb ht u hu v hv => ?_ }
  · rcases hsame u with heq | ⟨rfl, heq, rfl⟩
    · exact (h.near hb u k (heq ▸ hu) hk v hv).imp hmet (by simp)
    · exact .inr ⟨rfl, WithTop.coe_injective (hu.symm.trans heq), hv⟩
  · rcases hsame u with heq | ⟨rfl, -, rfl⟩
    · exact (h.closed hb ht u (heq ▸ hu) v hv).imp_right (by simp)
    · exact .inr ⟨rfl, hv⟩

/-- With an empty stack every symbol within the bound has been expanded on a shortest route. -/
lemma Inv.met_of_steps (h : Inv limits callees seed seed 0 [] s) (hstack : s.stack = [])
    (hb : s.truncatedAtBranching = 0) (hk : k ≤ limits.maxDepth)
    (hsteps : Steps (Arc callees) k seed v) : Met s v k := by
  induction k generalizing v with
  | zero =>
    cases hsteps
    exact h.start
  | succ k ih =>
    obtain ⟨u, hu, huv⟩ := hsteps
    obtain ⟨j, hj, hjk⟩ := WithTop.le_coe_iff.1 ((ih (by omega) hu).expandedAt_le hstack)
    have hv := (h.near hb u j hj (by omega) v huv).resolve_right (by simp)
    exact ⟨hv.1, .inl ((hv.expandedAt_le hstack).trans
      (WithTop.coe_le_coe.2 (Nat.succ_le_succ hjk)))⟩

variable [DecidableEq V] {ws : List V}

/-- The answer is the seed and what has been listed, each once. -/
def Listed (seed : V) (s : Walk V) : Prop :=
  (seed :: s.visited).Nodup ∧ ∀ v, v ∈ s.inAnswer ↔ v ∈ seed :: s.visited

lemma listed_foldl (x : Walk V × Nat) (h : Listed seed x.1) :
    Listed seed (ws.foldl (follow limits d) x).1 := by
  refine foldlRecOn (motive := fun x : Walk V × Nat => Listed seed x.1) ws _ h ?_
  rintro ⟨s, taken⟩ h c -
  simp only [Listed, follow, queue] at h ⊢
  split_ifs <;> grind

lemma Listed.step (s s' : Walk V) (h : Listed seed s) (hstep : step limits callees s = some s') :
    Listed seed s' := by
  obtain ⟨node, d, stack, -, ⟨-, rfl⟩ | ⟨-, rfl⟩⟩ := step_cases hstep
  · exact h
  · exact listed_foldl _ h

lemma listed_walk [Finite V] (limits : Limits) (callees : V → List V) (seed : V) :
    Listed seed (walk limits callees seed) := by
  refine (Machine.loop_spec (step_lower limits callees) Listed.step _ ?_).1
  simp [Listed]

/-- A callee is listed, if it is not yet, and queued. -/
lemma Inv.push {c : V} (h : Inv limits callees seed node d (c :: ws) s) (hc : c ∈ callees node)
    (hd : d < limits.maxDepth) (visited : List V) :
    Inv limits callees seed node d ws { s with
      inAnswer := insert c s.inAnswer, visited := visited
      deepest := max s.deepest (d + 1), stack := (c, d + 1) :: s.stack } := by
  have hsteps {k v} (hk : Steps (Among callees s.inAnswer) k seed v) :
      Steps (Among callees (insert c s.inAnswer)) k seed v :=
    hk.mono fun u v huv => ⟨huv.1, Finset.mem_insert_of_mem huv.2⟩
  have hnew : Steps (Among callees (insert c s.inAnswer)) (d + 1) seed c :=
    ⟨node, hsteps h.route, hc, Finset.mem_insert_self ..⟩
  set s' : Walk V := { s with
    inAnswer := insert c s.inAnswer, visited := visited
    deepest := max s.deepest (d + 1), stack := (c, d + 1) :: s.stack }
  have hmet {v k} (hv : Met s v k) : Met s' v k := by
    refine hv.mono ?_ (Finset.subset_insert c s.inAnswer) fun x hx => .inl (mem_cons_of_mem _ hx)
    exact le_refl s.expandedAt
  have hqueued : Met s' c (d + 1) :=
    ⟨Finset.mem_insert_self .., .inr ⟨d + 1, le_rfl, mem_cons_self⟩⟩
  refine ⟨hsteps h.route, fun v k hk => ?_, fun v hv => ?_, ⟨max_le h.deepest.1 hd, ?_⟩,
    hmet h.start, fun v hv => ?_, fun hb u k hu hk v hv => ?_, fun hb ht u hu v hv => ?_, h.cut⟩
  · rcases mem_cons.1 hk with heq | hk
    · cases heq
      exact hnew
    · exact hsteps (h.stacked v k hk)
  · rcases Finset.mem_insert.1 hv with rfl | hv
    · exact ⟨d + 1, le_max_right _ _, hnew⟩
    · obtain ⟨k, hk, hv⟩ := h.answered v hv
      exact ⟨k, hk.trans (le_max_left _ _), hsteps hv⟩
  · change ∃ v, Steps _ (max s.deepest (d + 1)) seed v
    rcases max_choice s.deepest (d + 1) with heq | heq <;> rw [heq]
    · exact h.deepest.2.imp fun v => hsteps
    · exact ⟨c, hnew⟩
  · rcases Finset.mem_insert.1 hv with rfl | hv
    · exact ⟨d + 1, hqueued⟩
    · exact (h.met v hv).imp fun k => hmet
  · rcases h.near hb u k hu hk v hv with hv | ⟨rfl, rfl, hv⟩
    · exact .inl (hmet hv)
    · rcases mem_cons.1 hv with rfl | hv
      · exact .inl hqueued
      · exact .inr ⟨rfl, rfl, hv⟩
  · have := h.closed hb ht u hu v hv
    grind

lemma Inv.foldl {x : Walk V × Nat} (hws : ws ⊆ callees node)
    (h : Inv limits callees seed node d ws x.1) :
    Inv limits callees seed node d [] (ws.foldl (follow limits d) x).1 := by
  induction ws generalizing x with
  | nil => exact h
  | cons c ws ih =>
    obtain ⟨s, taken⟩ := x
    obtain ⟨hc, hws⟩ := cons_subset.1 hws
    refine ih hws ?_
    have hnear (hd : ¬d < limits.maxDepth) (hb : s.truncatedAtBranching = 0) (u k)
        (hu : s.expandedAt u = WithTop.some k) (hk : k < limits.maxDepth) (v) (hv : v ∈ callees u) :
        Met s v (k + 1) ∨ u = node ∧ k = d ∧ v ∈ ws :=
      .inl ((h.near hb u k hu hk v hv).resolve_right fun hv => hd (hv.2.1 ▸ hk))
    simp only [follow, queue]
    split_ifs with hmem hd hfull hdeep
    · have := h.push hc hd s.visited
      rwa [Finset.insert_eq_of_mem hmem] at this
    · refine { h with near := hnear hd, closed := fun hb ht u hu v hv => ?_ }
      have := h.closed hb ht u hu v hv
      grind
    · exact { h with near := by simp, closed := by simp }
    · exact { h with
        near := hnear (by omega), closed := by simp
        cut := fun _ => ⟨d + 1, hdeep, c, node, h.route.mono fun _ _ => And.left, hc⟩ }
    · exact h.push hc (by omega) _
    · omega

lemma Inv.step (s s' : Walk V) (h : Inv limits callees seed seed 0 [] s)
    (hstep : step limits callees s = some s') : Inv limits callees seed seed 0 [] s' := by
  obtain ⟨node, d, stack, hstack, ⟨hshort, rfl⟩ | ⟨hlonger, rfl⟩⟩ := step_cases hstep
  · exact (h.pop hstack le_rfl hshort fun _ => .inl rfl).done
  · refine ((h.pop hstack (update_le_self_iff.2 hlonger.le) (by simp) fun u => ?_).foldl
      (x := (_, 0)) (Subset.refl _)).done
    by_cases hu : u = node
    · exact .inr ⟨hu, by simp [hu]⟩
    · exact .inl (Function.update_of_ne hu ..)

lemma stack_of_step_eq_none (h : step limits callees s = none) : s.stack = [] := by
  unfold step at h
  split at h
  · assumption
  · split_ifs at h

lemma inv_walk [Finite V] (limits : Limits) (callees : V → List V) (seed : V) :
    Inv limits callees seed seed 0 [] (walk limits callees seed) ∧
      (walk limits callees seed).stack = [] := by
  have hinit : Inv limits callees seed seed 0 [] { inAnswer := {seed}, stack := [(seed, 0)] } := by
    refine ⟨rfl, ?_, ?_, ?_, ?_, ?_, ?_, ?_, ?_⟩ <;> simp [Steps, Met]
  exact (Machine.loop_spec (step_lower limits callees) Inv.step _ hinit).imp_right
    stack_of_step_eq_none

lemma truncatedAtBranching_foldl (hroom : taken + ws.length ≤ limits.maxBranching) :
    (ws.foldl (follow limits d) (s, taken)).1.truncatedAtBranching = s.truncatedAtBranching := by
  induction ws generalizing s taken with
  | nil => rfl
  | cons c ws ih =>
    rw [length_cons] at hroom
    simp only [foldl_cons, follow, queue]
    split_ifs
    all_goals first | omega | exact ih (by omega)

lemma truncatedAtBranching_step (hbranch : ∀ v, (callees v).length ≤ limits.maxBranching)
    (s s' : Walk V) (h : s.truncatedAtBranching = 0) (hstep : step limits callees s = some s') :
    s'.truncatedAtBranching = 0 := by
  obtain ⟨node, d, stack, -, ⟨-, rfl⟩ | ⟨-, rfl⟩⟩ := step_cases hstep
  · exact h
  · exact (truncatedAtBranching_foldl (by simpa using hbranch node)).trans h

lemma truncatedAtBranching_walk [Finite V] (hbranch : ∀ v, (callees v).length ≤ limits.maxBranching)
    (seed : V) : (walk limits callees seed).truncatedAtBranching = 0 :=
  (Machine.loop_spec (step_lower limits callees) (truncatedAtBranching_step hbranch) _ rfl).1

/-- Where nothing was stopped at the branching bound, the answer is what the depth bound allows. -/
lemma mem_inAnswer_iff [Finite V] (limits : Limits) (callees : V → List V) (seed v : V)
    (hb : (walk limits callees seed).truncatedAtBranching = 0) :
    v ∈ (walk limits callees seed).inAnswer ↔
      ∃ k ≤ limits.maxDepth, Steps (Arc callees) k seed v := by
  obtain ⟨h, hstack⟩ := inv_walk limits callees seed
  constructor
  · intro hv
    obtain ⟨k, hk, hsteps⟩ := h.answered v hv
    exact ⟨k, hk.trans h.deepest.1, hsteps.mono fun _ _ => And.left⟩
  · rintro ⟨k, hk, hsteps⟩
    exact (h.met_of_steps hstack hb hk hsteps).1

/-- Where no symbol has more callees than the branching bound, the walk lists, each once, the
symbols other than the seed that at most `maxDepth` calls lead to. -/
theorem walk_visits_iff [Finite V] (limits : Limits) (callees : V → List V)
    (hbranch : ∀ v, (callees v).length ≤ limits.maxBranching) (seed : V) :
    (walk limits callees seed).visited.Nodup ∧ ∀ v, v ∈ (walk limits callees seed).visited ↔
      v ≠ seed ∧ ∃ d ≤ limits.maxDepth, Steps (Arc callees) d seed v := by
  obtain ⟨hnodup, hanswer⟩ := listed_walk limits callees seed
  rw [nodup_cons] at hnodup
  refine ⟨hnodup.2, fun v => ?_⟩
  rw [← mem_inAnswer_iff limits callees seed v (truncatedAtBranching_walk hbranch seed), hanswer,
    mem_cons]
  grind

/-- Two symbols that call each other, one of which calls a third. -/
def mutualCalls (v : Fin 3) : List (Fin 3) := if v = 0 then [1, 2] else [0]

theorem walk_visits_mutualCalls : (∀ v, (mutualCalls v).length ≤ 4) ∧
    ∀ v, v ∈ (walk ⟨10, 4⟩ mutualCalls 0).visited ↔
      v ≠ 0 ∧ ∃ d ≤ 10, Steps (Arc mutualCalls) d 0 v :=
  ⟨by decide, (walk_visits_iff ⟨10, 4⟩ mutualCalls (by decide) 0).2⟩

/-- Whatever the symbols call, the walk lists each symbol once; and if it stopped no callee at the
branching bound, it lists all that at most `maxDepth` calls lead to, and nothing else. -/
theorem walk_complete [Fintype V] (limits : Limits) (callees : V → List V) (seed : V) :
    let w := walk limits callees seed
    (seed :: w.visited).Nodup ∧ (w.truncatedAtBranching = 0 → ∀ v, v ∈ seed :: w.visited ↔
      ∃ k ≤ limits.maxDepth, Steps (Arc callees) k seed v) := by
  obtain ⟨hnodup, hanswer⟩ := listed_walk limits callees seed
  refine ⟨hnodup, fun hb v => ?_⟩
  rw [← hanswer]
  exact mem_inAnswer_iff limits callees seed v hb

end Flows

end Index
