import Mathlib.Logic.Relation

/-! # Reachability in a graph given by adjacency lists -/

namespace Graph

variable {V : Type*} {adj : V → List V} {u v w : V}

def Arc (adj : V → List V) (u v : V) : Prop := v ∈ adj u

/-- There is a path, possibly empty, from `u` to `v`. -/
def Reach (adj : V → List V) : V → V → Prop := Relation.ReflTransGen (Arc adj)

lemma Reach.refl (u : V) : Reach adj u u := Relation.ReflTransGen.refl

lemma Reach.trans (huv : Reach adj u v) (hvw : Reach adj v w) : Reach adj u w :=
  Relation.ReflTransGen.trans huv hvw

lemma Arc.reach (h : Arc adj u v) : Reach adj u v := Relation.ReflTransGen.single h

/-- What is closed under edges is not left by a path. -/
lemma Reach.closed {P : V → Prop} (closed : ∀ u v, P u → Arc adj u v → P v) (hu : P u)
    (h : Reach adj u v) : P v := by
  induction h with
  | refl => exact hu
  | tail _ hvw ih => exact closed _ _ ih hvw

/-- Each reaches the other. -/
def Mutual (adj : V → List V) (u v : V) : Prop := Reach adj u v ∧ Reach adj v u

lemma Mutual.refl (u : V) : Mutual adj u u := ⟨.refl u, .refl u⟩

lemma Mutual.symm (h : Mutual adj u v) : Mutual adj v u := ⟨h.2, h.1⟩

lemma Mutual.trans (h : Mutual adj u v) (h' : Mutual adj v w) : Mutual adj u w :=
  ⟨h.1.trans h'.1, h'.2.trans h.2⟩

end Graph
