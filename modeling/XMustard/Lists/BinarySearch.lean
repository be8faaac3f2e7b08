import Mathlib.Data.List.Basic

/-! # Binary search

The halving search of a list for an element that a comparison calls equal. The comparison answers
where an element stands relative to what is looked for, and the list is sorted when the answers
come in the order less, equal, greater. -/

namespace Lists

open List

variable {α : Type*}

/-- The position of an element that `cmp` calls equal, looked for by halving. -/
def binarySearchBy (cmp : α → Ordering) (l : List α) : Option ℕ :=
  match _h : l.drop (l.length / 2) with
  | [] => none
  | x :: right =>
    match cmp x with
    | .eq => some (l.length / 2)
    | .gt => binarySearchBy cmp (l.take (l.length / 2))
    | .lt => (binarySearchBy cmp right).map (l.length / 2 + 1 + ·)
termination_by l.length
decreasing_by
  · have := congrArg length _h
    simp only [length_drop, length_cons, length_take] at this ⊢
    omega
  · have := congrArg length _h
    simp only [length_drop, length_cons] at this ⊢
    omega

/-- The answers of `cmp` along the list come in the order less, equal, greater. -/
def SortedBy (cmp : α → Ordering) (l : List α) : Prop :=
  l.Pairwise fun x y => (cmp y = .lt → cmp x = .lt) ∧ (cmp x = .gt → cmp y = .gt)

variable {cmp : α → Ordering}

/-- What the search finds is at that position and is called equal, and in a sorted list it misses
nothing. -/
theorem binarySearchBy_spec (l : List α) :
    (∀ i, binarySearchBy cmp l = some i → ∃ x, l[i]? = some x ∧ cmp x = .eq) ∧
      (SortedBy cmp l → binarySearchBy cmp l = none → ∀ x ∈ l, cmp x ≠ .eq) := by
  -- in a sorted list the middle element's answer settles one of the halves
  have halves {l right : List α} {x : α} (hl : l.drop (l.length / 2) = x :: right) :
      l = l.take (l.length / 2) ++ x :: right := by rw [← hl, take_append_drop]
  fun_induction binarySearchBy cmp l with
  | case1 l hnil =>
    have hle := drop_eq_nil_iff.1 hnil
    obtain rfl : l = [] := length_eq_zero_iff.1 (by omega)
    simp
  | case2 l x right hl hx =>
    refine ⟨fun i hi => ⟨x, ?_, hx⟩, nofun⟩
    cases hi
    rw [← head?_drop, hl, head?_cons]
  | case3 l x right hl hx ih =>
    refine ⟨fun i hi => ?_, fun hsorted hnone => ?_⟩
    · obtain ⟨y, hy, hcmp⟩ := ih.1 i hi
      rw [getElem?_take] at hy
      split_ifs at hy
      exact ⟨y, hy, hcmp⟩
    · rw [halves hl] at hsorted ⊢
      simp only [SortedBy, pairwise_append, pairwise_cons, forall_mem_append,
        forall_mem_cons] at hsorted ⊢
      obtain ⟨hleft, ⟨hafter, -⟩, -⟩ := hsorted
      exact ⟨ih.2 hleft hnone, by simp [hx], fun y hy => by simp [(hafter y hy).2 hx]⟩
  | case4 l x right hl hx ih =>
    refine ⟨fun i hi => ?_, fun hsorted hnone => ?_⟩
    · obtain ⟨j, hj, rfl⟩ := Option.map_eq_some_iff.1 hi
      obtain ⟨y, hy, hcmp⟩ := ih.1 j hj
      refine ⟨y, ?_, hcmp⟩
      rw [Nat.add_assoc, ← getElem?_drop, hl, Nat.add_comm, getElem?_cons_succ, hy]
    · rw [halves hl] at hsorted ⊢
      simp only [SortedBy, pairwise_append, pairwise_cons, forall_mem_append,
        forall_mem_cons] at hsorted ⊢
      obtain ⟨-, ⟨-, hright⟩, hacross⟩ := hsorted
      exact ⟨fun y hy => by simp [(hacross y hy).1.1 hx], by simp [hx],
        ih.2 hright (Option.map_eq_none_iff.1 hnone)⟩

example : binarySearchBy (compare · 5) [1, 3, 5, 7] = some 2 := by decide +kernel

end Lists
