import XMustard.Graph.Search
import XMustard.Index.Components

/-! # The representative cycle of a component

A breadth-first search from the smallest node of a component, which stops at the first edge back
to it. -/

namespace Index

open List Graph

variable {V : Type*} [DecidableEq V]

namespace Representative

structure Bfs (V : Type*) where
  parent : V → Option V
  queue : List V

/-- Look at the edges of `u`: an edge to the start ends the search with the parents known so far,
every other one may find a node of the component. -/
def scan (members : List V) (start u : V) : List V → Bfs V → (V → Option V) ⊕ Bfs V
  | [], b => .inr b
  | w :: ws, b =>
    if w = start then .inl b.parent
    else if w ∈ members ∧ w ≠ start ∧ b.parent w = none then
      scan members start u ws
        { parent := Function.update b.parent w (some u), queue := b.queue ++ [w] }
    else scan members start u ws b

/-- The cycle that the edge from `u` to the start closes. -/
def closeCycle (members : List V) (start u : V) (parent : V → Option V) : List V :=
  let cycle := walkBack parent members.length u
  let cycle := if cycle.getLast? ≠ some start then cycle ++ [start] else cycle
  cycle.reverse ++ [start]

/-- The members that can still be found, and the nodes that wait. -/
def left (members : List V) (b : Bfs V) : Nat :=
  (members.toFinset.filter fun w => b.parent w = none).card + b.queue.length

lemma scan_left {members : List V} {start u : V} {ws : List V} {b b' : Bfs V}
    (h : scan members start u ws b = .inr b') : left members b' ≤ left members b := by
  induction ws generalizing b with
  | nil =>
    cases h
    exact le_rfl
  | cons w ws ih =>
    rw [scan] at h
    split_ifs at h with hstart hnew
    · refine (ih h).trans ?_
      obtain ⟨hmem, -, hnone⟩ := hnew
      have hlt : (members.toFinset.filter fun x =>
            Function.update b.parent w (some u) x = none).card
          < (members.toFinset.filter fun x => b.parent x = none).card := by
        refine Finset.card_lt_card ⟨fun x hx => ?_, fun hsub => ?_⟩
        · obtain ⟨hx, hxnone⟩ := Finset.mem_filter.1 hx
          refine Finset.mem_filter.2 ⟨hx, ?_⟩
          by_cases hxw : x = w
          · exact hxw ▸ hnone
          · simpa [hxw] using hxnone
        · have hw := hsub (Finset.mem_filter.2 ⟨mem_toFinset.2 hmem, hnone⟩)
          simpa using (Finset.mem_filter.1 hw).2
      simp only [left, length_append, length_singleton]
      omega
    · exact ih h

def search (members : List V) (start : V) (adj : V → List V) (b : Bfs V) : List V :=
  match _hq : b.queue with
  | [] => [start]
  | u :: queue =>
    match _hs : scan members start u (adj u) { b with queue := queue } with
    | .inl parent => closeCycle members start u parent
    | .inr b' => search members start adj b'
termination_by left members b
decreasing_by
  have := scan_left _hs
  simp only [left, _hq, length_cons] at this ⊢
  omega

end Representative

/-- The shortest cycle through the first of the members within the component. -/
def representative (members : List V) (adj : V → List V) : List V :=
  match members with
  | [] => []
  | start :: _ =>
    Representative.search members start adj { parent := fun _ => none, queue := [start] }

namespace Representative

variable {members : List V} {start u w x : V} {adj : V → List V} {parent : V → Option V} {d : Nat}
  {l now later ws : List V} {b : Bfs V}

/-- An edge that stays in the component. -/
def Inner (members : List V) (adj : V → List V) (x y : V) : Prop := y ∈ adj x ∧ y ∈ members

/-- The parents lead from `x` back to the start along `l`. -/
inductive Back (members : List V) (start : V) (adj : V → List V) (parent : V → Option V) :
    V → List V → Prop
  | start : Back members start adj parent start [start]
  | step {p x : V} {l : List V} (rest : Back members start adj parent p l)
    (link : parent x = some p) (edge : Inner members adj p x) (new : x ∉ l) :
    Back members start adj parent x (x :: l)

omit [DecidableEq V] in
lemma Back.found (h : Back members start adj parent u l) (hx : x ∈ l) :
    x = start ∨ parent x ≠ none := by
  induction h with
  | start => exact .inl (mem_singleton.1 hx)
  | step _ link _ _ ih =>
    rcases mem_cons.1 hx with rfl | hx
    · exact .inr (by simp [link])
    · exact ih hx

/-- A new link is on no path back. -/
lemma Back.update (h : Back members start adj parent x l) (hnone : parent w = none) (u : V) :
    Back members start adj (Function.update parent w (some u)) x l := by
  induction h with
  | start => exact .start
  | @step p x l _ link edge new ih =>
    have hne : x ≠ w := fun hxw => by simp [← hxw, link] at hnone
    exact .step ih (by rwa [Function.update_of_ne hne]) edge new

/-- A node found at depth `d`. -/
def FoundAt (members : List V) (start : V) (adj : V → List V) (parent : V → Option V) (d : Nat)
    (x : V) : Prop :=
  ∃ l, Back members start adj parent x l ∧ l.length = d + 1

/-- What holds while the nodes at depth `d` are expanded. -/
structure Inv (members : List V) (start : V) (adj : V → List V) (d : Nat) (todo : V → V → Prop)
    (later : List V) (parent : V → Option V) : Prop where
  root : parent start = none
  current : ∀ x y, todo x y → FoundAt members start adj parent d x
  next : ∀ x ∈ later, FoundAt members start adj parent (d + 1) x
  layered : Layered (· = start) (Inner members adj) (parent · ≠ none) (· ∈ later) d todo

/-- The nodes `now` have not been expanded, nor these edges of `u`. -/
def Todo (now : List V) (u : V) (ws : List V) (x y : V) : Prop := x ∈ now ∨ x = u ∧ y ∈ ws

/-- A new node joins the end of the queue, one level below `u`. -/
lemma Inv.discover (h : Inv members start adj d (Todo now u (w :: ws)) later parent)
    (hedge : Inner members adj u w) (hstart : w ≠ start) (hnone : parent w = none) :
    Inv members start adj d (Todo now u (w :: ws)) (later ++ [w])
      (Function.update parent w (some u)) where
  root := (Function.update_of_ne hstart.symm ..).trans h.root
  current x y hx := (h.current x y hx).imp fun l => And.imp_left (·.update hnone u)
  next x hx := by
    rcases mem_append.1 hx with hx | hx
    · exact (h.next x hx).imp fun l => And.imp_left (·.update hnone u)
    · obtain rfl := mem_singleton.1 hx
      obtain ⟨l, hback, hlen⟩ := h.current u x (.inr ⟨rfl, mem_cons_self⟩)
      have hnew : x ∉ l := fun hx => (hback.found hx).elim hstart fun hsome => hsome hnone
      exact ⟨x :: l, .step (hback.update hnone u) (Function.update_self ..) hedge hnew,
        by simp [hlen]⟩
  layered := h.layered.discover hstart (by simp [hnone])
    (fun x => by by_cases hx : x = w <;> simp [hx]) fun x => by simp [or_comm]

omit [DecidableEq V] in
lemma Inv.mono {todo todo' : V → V → Prop} (h : Inv members start adj d todo later parent)
    (hsub : ∀ x y, todo' x y → todo x y)
    (hdone : ∀ x y, Inner members adj x y → todo x y → todo' x y ∨ parent y ≠ none) :
    Inv members start adj d todo' later parent :=
  ⟨h.root, fun x y hx => h.current x y (hsub x y hx), h.next, h.layered.mono hsub hdone⟩

omit [DecidableEq V] in
lemma Inv.skip (h : Inv members start adj d (Todo now u (w :: ws)) later parent)
    (hw : w ∈ members → parent w ≠ none) :
    Inv members start adj d (Todo now u ws) later parent := by
  refine h.mono (fun x y => Or.imp_right (And.imp_right (mem_cons_of_mem w))) ?_
  rintro x y hxy (hx | ⟨rfl, hy⟩)
  · exact .inl (.inl hx)
  · rcases mem_cons.1 hy with rfl | hy
    · exact .inr (hw hxy.2)
    · exact .inl (.inr ⟨rfl, hy⟩)

/-- A scan ends at an edge to the start or with everything of `u` looked at. -/
def Scanned (members : List V) (start : V) (adj : V → List V) (d : Nat) (now : List V) (u : V) :
    (V → Option V) ⊕ Bfs V → Prop
  | .inl parent => start ∈ adj u ∧ ∃ ws later,
    Inv members start adj d (Todo now u (start :: ws)) later parent
  | .inr b => ∃ later, b.queue = now ++ later ∧
    Inv members start adj d (fun x _ => x ∈ now) later b.parent

lemma Inv.scan (h : Inv members start adj d (Todo now u ws) later b.parent)
    (hq : b.queue = now ++ later) (hsub : ∀ w ∈ ws, w ∈ adj u) :
    Scanned members start adj d now u (scan members start u ws b) := by
  induction ws generalizing b later with
  | nil => exact ⟨later, hq, h.mono (fun _ _ => .inl) fun x y _ hx =>
      .inl (by simpa [Todo] using hx)⟩
  | cons w ws ih =>
    obtain ⟨hedge, hrest⟩ := forall_mem_cons.1 hsub
    rw [Representative.scan]
    split_ifs with hstart hnew
    · subst hstart
      exact ⟨hedge, ws, later, h⟩
    · obtain ⟨hmem, -, hnone⟩ := hnew
      have hfound := (h.discover ⟨hedge, hmem⟩ hstart hnone).skip fun _ => by simp
      exact ih hfound (by simp [hq]) hrest
    · exact ih (h.skip fun hmem hnone => hnew ⟨hmem, hstart, hnone⟩) hq hrest

/-- The state of the search between two nodes. -/
def Waiting (members : List V) (start : V) (adj : V → List V) (b : Bfs V) : Prop :=
  ∃ d now later, b.queue = now ++ later ∧
    Inv members start adj d (fun x _ => x ∈ now) later b.parent

omit [DecidableEq V] in
/-- When a level has been expanded the next one is. -/
lemma Waiting.pop {queue : List V} (h : Waiting members start adj b) (hq : b.queue = u :: queue) :
    ∃ d now later, queue = now ++ later ∧
      Inv members start adj d (Todo now u (adj u)) later b.parent := by
  have hpop {d : Nat} {now later : List V}
      (h : Inv members start adj d (fun x _ => x ∈ u :: now) later b.parent) :
      Inv members start adj d (Todo now u (adj u)) later b.parent := by
    refine h.mono (fun x y => ?_) fun x y hxy hx => .inl ((mem_cons.1 hx).symm.imp_right ?_)
    · rintro (hx | ⟨rfl, -⟩)
      · exact mem_cons_of_mem u hx
      · exact mem_cons_self
    · exact fun hxu => ⟨hxu, hxu ▸ hxy.1⟩
  obtain ⟨d, now, later, hqueue, hinv⟩ := h
  rw [hq] at hqueue
  cases now with
  | nil =>
    obtain rfl : u :: queue = later := hqueue
    have hlayered := hinv.layered
    simp only [not_mem_nil] at hlayered
    refine ⟨d + 1, queue, [], by simp, hpop ⟨hinv.root, fun x _ => hinv.next x, nofun, ?_⟩⟩
    simpa only [not_mem_nil] using hlayered.nextLevel
  | cons v now =>
    obtain ⟨rfl, rfl⟩ := cons.inj hqueue
    exact ⟨d, now, later, rfl, hpop hinv⟩

/-! ## What the search returns -/

/-- A closed walk through `start` in the component. -/
structure ClosedWalk (adj : V → List V) (start : V) (c : List V) : Prop where
  head : c.head? = some start
  last : c.getLast? = some start
  long : 2 ≤ c.length
  edges : c.IsChain (Arc adj)

/-- The members are the component of the start. -/
def IsComponent (adj : V → List V) (start : V) (members : List V) : Prop :=
  ∀ x, x ∈ members ↔ Mutual adj start x

omit [DecidableEq V] in
/-- Walks that lead back to the start stay in its component. -/
lemma steps_inner (hcomp : IsComponent adj start members) {k : Nat}
    (h : Steps (Arc adj) k start x) :
    Reach adj start x ∧ (Reach adj x start → Steps (Inner members adj) k start x) := by
  induction k generalizing x with
  | zero =>
    obtain rfl : start = x := h
    exact ⟨.refl _, fun _ => rfl⟩
  | succ k ih =>
    obtain ⟨y, hy, hyx⟩ := h
    obtain ⟨hreach, hsteps⟩ := ih hy
    have hx := hreach.trans (Arc.reach hyx)
    exact ⟨hx, fun hback => ⟨y, hsteps ((Arc.reach hyx).trans hback), hyx, (hcomp x).2 ⟨hx, hback⟩⟩⟩

omit [DecidableEq V] in
lemma ClosedWalk.steps {c : List V} (h : ClosedWalk adj start c) :
    ∃ k, c.length = k + 2 ∧ Steps (Arc adj) (k + 1) start start := by
  obtain ⟨l, rfl⟩ := head?_eq_some_iff.1 h.head
  have hsteps := steps_of_isChain h.edges h.last
  have hlong := h.long
  obtain ⟨k, hk⟩ : ∃ k, l.length = k + 1 := ⟨l.length - 1, by simp at hlong; omega⟩
  exact ⟨k, by simp [hk], hk ▸ hsteps⟩

/-- A closed walk in the component that is shortest and repeats only its end. -/
structure Shortest (adj : V → List V) (start : V) (members c : List V) : Prop where
  walk : ClosedWalk adj start c
  nodup : c.dropLast.Nodup
  inside : ∀ x ∈ c, x ∈ members
  shortest : ∀ c', ClosedWalk adj start c' → c.length ≤ c'.length

omit [DecidableEq V] in
lemma Back.walkBack (h : Back members start adj parent x l) (root : parent start = none)
    {fuel : Nat} (hfuel : l.length ≤ fuel + 1) : walkBack parent fuel x = l := by
  induction h generalizing fuel with
  | start => cases fuel <;> simp [Graph.walkBack, root]
  | step rest link _ _ ih =>
    cases fuel with
    | zero =>
      obtain rfl := eq_nil_of_length_eq_zero (Nat.le_zero.1 (Nat.le_of_succ_le_succ hfuel))
      cases rest
    | succ fuel => simp [Graph.walkBack, link, ih (Nat.le_of_succ_le_succ hfuel)]

omit [DecidableEq V] in
lemma Back.path (h : Back members start adj parent x l) :
    l.head? = some x ∧ l.getLast? = some start ∧ l.IsChain (fun y z => Arc adj z y) ∧ l.Nodup ∧
      ∀ y ∈ l, y = start ∨ y ∈ members := by
  induction h with
  | start => simp
  | step _ _ edge new ih =>
    obtain ⟨hhead, hlast, hchain, hnodup, hmem⟩ := ih
    refine ⟨rfl, by simp [getLast?_cons, hlast], isChain_cons.2 ⟨fun y hy => ?_, hchain⟩,
      nodup_cons.2 ⟨new, hnodup⟩, forall_mem_cons.2 ⟨.inr edge.2, hmem⟩⟩
    cases hhead.symm.trans hy
    exact edge.1

/-- The cycle that an edge back to the start closes. -/
lemma Inv.closeCycle (hcomp : IsComponent adj start members)
    (h : Inv members start adj d (Todo now u (start :: ws)) later parent) (hedge : start ∈ adj u) :
    Shortest adj start members (closeCycle members start u parent) := by
  have hstart : start ∈ members := (hcomp start).2 (.refl start)
  obtain ⟨l, hback, hlen⟩ := h.current u start (.inr ⟨rfl, mem_cons_self⟩)
  obtain ⟨hhead, hlast, hchain, hnodup, hmem⟩ := hback.path
  have hmem : ∀ x ∈ l, x ∈ members := fun x hx => (hmem x hx).elim (· ▸ hstart) id
  -- the path to `u` has no repetition, so the members bound its length
  have hfuel : l.length ≤ members.length + 1 :=
      (hnodup.subperm hmem).length_le.trans (Nat.le_succ _)
  unfold Representative.closeCycle
  simp only [hback.walkBack h.root hfuel, hlast, ne_eq, not_true_eq_false, if_false]
  refine ⟨⟨?_, by simp, by simp [hlen], ?_⟩, by simpa using hnodup, fun x hx => ?_,
    fun c' hc' => ?_⟩
  · rw [head?_append, head?_reverse, hlast]
    rfl
  · refine isChain_append.2 ⟨by rwa [isChain_reverse], isChain_singleton start, ?_⟩
    intro x hx y hy
    rw [getLast?_reverse, hhead] at hx
    cases hx
    cases hy
    exact hedge
  · rcases mem_append.1 hx with hx | hx
    · exact hmem x (mem_reverse.1 hx)
    · exact mem_singleton.1 hx ▸ hstart
  · obtain ⟨k, hlen', hsteps⟩ := hc'.steps
    rw [length_append, length_reverse, length_singleton]
    by_contra hshort
    exact h.layered.found_near (show k < d by omega) rfl
      ((steps_inner hcomp hsteps).2 (.refl _)) h.root

lemma search_shortest (hcomp : IsComponent adj start members)
    (hexists : ∃ k, Steps (Arc adj) (k + 1) start start) (h : Waiting members start adj b) :
    Shortest adj start members (search members start adj b) := by
  fun_induction search members start adj b with
  | case1 b hq =>
    -- the queue cannot run empty before the start is found again
    obtain ⟨d, now, later, hqueue, hinv⟩ := h
    obtain ⟨rfl, rfl⟩ := append_eq_nil_iff.1 (hqueue.symm.trans hq)
    obtain ⟨k, hsteps⟩ := hexists
    have hlayered := hinv.layered
    simp only [not_mem_nil] at hlayered
    exact (hlayered.found_of_steps (fun _ => id) rfl ((steps_inner hcomp hsteps).2 (.refl _))
      hinv.root).elim
  | case2 b u queue hq parent hs =>
    obtain ⟨d, now, later, hqueue, hinv⟩ := h.pop hq
    have hscan := hinv.scan (b := { b with queue := queue }) hqueue fun _ => id
    rw [hs] at hscan
    obtain ⟨hedge, ws, later, hinv⟩ := hscan
    exact hinv.closeCycle hcomp hedge
  | case3 b u queue hq b' hs ih =>
    obtain ⟨d, now, later, hqueue, hinv⟩ := h.pop hq
    have hscan := hinv.scan (b := { b with queue := queue }) hqueue fun _ => id
    rw [hs] at hscan
    exact ih ⟨d, now, hscan⟩

end Representative

open Representative

/-- Components and representative cycles: every node is in exactly one list, two nodes share a
list exactly when each reaches the other, and the representative of a list of two or more nodes is
a shortest closed walk through its smallest node. -/
theorem tarjan_representative {n : Nat} (adj : Fin n → List (Fin n)) :
    (tarjan adj).flatten.Perm (finRange n) ∧
    (∀ c ∈ tarjan adj, c ≠ [] ∧ ∀ u ∈ c, ∀ w, w ∈ c ↔ Mutual adj u w) ∧
    ∀ c ∈ tarjan adj, 2 ≤ c.length →
      ∃ s ∈ c, (∀ x ∈ c, s ≤ x) ∧ Shortest adj s c (representative c adj) := by
  obtain ⟨hperm, hcomp⟩ := tarjan_components adj
  refine ⟨hperm, fun c hc => ⟨(hcomp c hc).1, (hcomp c hc).2.2⟩, fun c hc hlen => ?_⟩
  obtain ⟨-, hsorted, hmutual⟩ := hcomp c hc
  match c, hlen with
  | s :: x :: rest, _ =>
    have hs : s ∈ s :: x :: rest := mem_cons_self ..
    obtain ⟨hle, -⟩ := pairwise_cons.1 hsorted
    have hsx : s < x := hle x (mem_cons_self ..)
    obtain ⟨hto, hfrom⟩ := (hmutual s hs x).1 (by simp)
    refine ⟨s, hs, fun y hy => ?_, ?_⟩
    · rcases mem_cons.1 hy with rfl | hy
      · exact le_rfl
      · exact (hle y hy).le
    · refine search_shortest (hmutual s hs) ?_ ⟨0, [s], [], rfl, rfl, fun y _ hy => ?_, nofun, ?_⟩
      · obtain ⟨z, hxz, hzs⟩ :=
          (Relation.ReflTransGen.cases_tail hfrom).resolve_left hsx.ne
        obtain ⟨k, hk⟩ := steps_of_reflTransGen (hto.trans hxz)
        exact ⟨k, z, hk, hzs⟩
      · obtain rfl := mem_singleton.1 hy
        exact ⟨[y], .start, rfl⟩
      · simpa using Layered.init (Inner (s :: x :: rest) adj) fun y (hy : False) =>
          (hy.elim : y = s)

end Index
