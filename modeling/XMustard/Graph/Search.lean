import Mathlib.Data.List.Chain
import XMustard.Graph.Reach

/-! # Search trees

A search from a set of start nodes along a relation keeps, for every node it found, the node it was
found from. The tree gives a path to each found node, and when everything found early has been
expanded these paths are shortest. -/

namespace Graph

open List

variable {V : Type*}

/-! ## Walks -/

/-- There is a walk of exactly `k` steps from `x` to `y`. -/
def Steps (R : V → V → Prop) : Nat → V → V → Prop
  | 0, x, y => x = y
  | k + 1, x, y => ∃ z, Steps R k x z ∧ R z y

lemma Steps.mono {R R' : V → V → Prop} (hR : ∀ u v, R u v → R' u v) {k : Nat} {x y : V}
    (h : Steps R k x y) : Steps R' k x y := by
  induction k generalizing y with
  | zero => exact h
  | succ k ih =>
    obtain ⟨z, hz, hzy⟩ := h
    exact ⟨z, ih hz, hR z y hzy⟩

lemma steps_of_isChain {R : V → V → Prop} {x y : V} {l : List V} (h : (x :: l).IsChain R)
    (hlast : (x :: l).getLast? = some y) : Steps R l.length x y := by
  induction l using reverseRecOn generalizing y with
  | nil => simpa [Steps] using hlast
  | append_singleton l z ih =>
    obtain rfl : z = y := by simpa [getLast?_cons] using hlast
    rw [length_append]
    obtain ⟨w, hw⟩ : ∃ w, (x :: l).getLast? = some w := by simp [getLast?_cons]
    rw [← cons_append, isChain_append] at h
    exact ⟨w, ih h.1 hw, h.2.2 w hw z (by simp)⟩

lemma steps_of_reflTransGen {R : V → V → Prop} {x y : V} (h : Relation.ReflTransGen R x y) :
    ∃ k, Steps R k x y := by
  induction h with
  | refl => exact ⟨0, rfl⟩
  | tail _ hyz ih =>
    obtain ⟨k, hk⟩ := ih
    exact ⟨k + 1, _, hk, hyz⟩

/-- The shortest walk from a start node to `v` has `d` steps. -/
def AtDistance (start : V → Prop) (R : V → V → Prop) (d : Nat) (v : V) : Prop :=
  (∃ s, start s ∧ Steps R d s v) ∧ ∀ j < d, ∀ s, start s → ¬Steps R j s v

/-! ## Following a tree back -/

/-- From `x` along `parent`, while there is one, at most `fuel` times. -/
def walkBack (parent : V → Option V) : Nat → V → List V
  | 0, x => [x]
  | fuel + 1, x =>
    match parent x with
    | none => [x]
    | some p => x :: walkBack parent fuel p

/-! ## Level by level -/

/-- A search along `R` expands the nodes at depth `d`: `todo` says which of their arcs have not been
followed, and `next` has the nodes found from them. -/
structure Layered (start : V → Prop) (R : V → V → Prop) (found next : V → Prop) (d : Nat)
    (todo : V → V → Prop) : Prop where
  near : ∀ j ≤ d, ∀ x y, start x → Steps R j x y →
    (start y ∨ found y) ∧ ¬next y ∧ (j < d → ∀ z, ¬todo y z)
  expanded : ∀ x, start x ∨ found x → ¬next x → ∀ y, R x y → todo x y ∨ found y

namespace Layered

variable {start found next found' next' : V → Prop} {R todo todo' : V → V → Prop} {d j : Nat}
  {x y w : V}

lemma init (R : V → V → Prop) (hfound : ∀ x, found x → start x) :
    Layered start R found (fun _ => False) 0 fun x _ => start x := by
  refine ⟨fun j hj x y hx hy => ?_, fun x hx _ y _ => .inl (hx.elim id (hfound x))⟩
  obtain rfl := Nat.le_zero.1 hj
  obtain rfl : x = y := hy
  exact ⟨.inl hx, id, nofun⟩

section

variable (h : Layered start R found next d todo)
include h

/-- A new node is one of the next level. -/
lemma discover (hstart : ¬start w) (hw : ¬found w) (hfound : ∀ x, found' x ↔ x = w ∨ found x)
    (hnext : ∀ x, next' x ↔ x = w ∨ next x) : Layered start R found' next' d todo := by
  refine ⟨fun j hj x y hx hy => ?_, fun x hx hnot y hxy => ?_⟩
  · obtain ⟨hy, hnot, htodo⟩ := h.near j hj x y hx hy
    have hne : y ≠ w := fun hyw => by simp [hyw, hstart, hw] at hy
    exact ⟨hy.imp_right fun hy => (hfound y).2 (.inr hy), by simp [hnext, hne, hnot], htodo⟩
  · obtain ⟨hne, hnot⟩ := not_or.1 (mt (hnext x).2 hnot)
    have hx := hx.imp_right fun hx => ((hfound x).1 hx).resolve_left hne
    exact (h.expanded x hx hnot y hxy).imp_right fun hy => (hfound y).2 (.inr hy)

/-- Arcs to found nodes are done. -/
lemma mono (hsub : ∀ x y, todo' x y → todo x y)
    (hdone : ∀ x y, R x y → todo x y → todo' x y ∨ found y) :
    Layered start R found next d todo' := by
  refine ⟨fun j hj x y hx hy => ?_, fun x hx hnext y hxy => ?_⟩
  · obtain ⟨hfound, hnext, htodo⟩ := h.near j hj x y hx hy
    exact ⟨hfound, hnext, fun hlt z hz => htodo hlt z (hsub y z hz)⟩
  · exact (h.expanded x hx hnext y hxy).elim (hdone x y hxy) .inr

/-- Short walks have been followed to their ends. -/
lemma found_near (hj : j < d) (hx : start x) (hy : Steps R (j + 1) x y) : found y := by
  obtain ⟨z, hz, hzy⟩ := hy
  obtain ⟨hfound, hnext, htodo⟩ := h.near j hj.le x z hx hz
  exact (h.expanded z hfound hnext y hzy).resolve_left (htodo hj y)

end

/-- The nodes found from a level are the next one. -/
lemma nextLevel (h : Layered start R found next d fun _ _ => False) :
    Layered start R found (fun _ => False) (d + 1) fun x _ => next x := by
  refine ⟨fun j hj x y hx hy => ?_, fun x hx _ y hxy => ?_⟩
  · rcases hj.lt_or_eq with hj | rfl
    · obtain ⟨hfound, hnext, -⟩ := h.near j (Nat.le_of_lt_succ hj) x y hx hy
      exact ⟨hfound, id, fun _ _ => hnext⟩
    · obtain ⟨z, hz, hzy⟩ := hy
      obtain ⟨hfound, hnext, -⟩ := h.near d le_rfl x z hx hz
      exact ⟨.inr ((h.expanded z hfound hnext y hzy).resolve_left id), id,
        fun hlt => absurd hlt (lt_irrefl _)⟩
  · by_cases hnext : next x
    · exact .inl hnext
    · exact (h.expanded x hx hnext y hxy).imp_left False.elim

/-- When there is no next level, all walks have been followed. -/
lemma found_of_steps (h : Layered start R found next d fun _ _ => False) (hnext : ∀ x, ¬next x)
    (hx : start x) (hy : Steps R (j + 1) x y) : found y := by
  induction j generalizing y with
  | zero =>
    obtain ⟨_, rfl, hxy⟩ := hy
    exact (h.expanded x (.inl hx) (hnext x) y hxy).resolve_left id
  | succ j ih =>
    obtain ⟨z, hz, hzy⟩ := hy
    exact (h.expanded z (.inr (ih hz)) (hnext z) y hzy).resolve_left id

end Layered

end Graph
