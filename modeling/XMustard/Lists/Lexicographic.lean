import Mathlib.Data.List.Lex
import Mathlib.Order.Lattice

/-! # The lexicographic order of lists

Where a list stands among the continuations of another. All the continuations of `k` come before
those of a later list that does not continue `k` itself, and a prefix's continuations are a convex
set: what lies between the prefix and one of them is one too. -/

namespace Lists

open List

variable {α : Type*} [LinearOrder α] {k k' p x y : List α}

lemma append_lt_append_iff (p : List α) : p ++ x < p ++ y ↔ x < y := by
  induction p with
  | nil => rfl
  | cons a p ih => simp [ih]

lemma not_append_lt (p s : List α) : ¬p ++ s < p := by
  induction p with
  | nil => exact not_lt_nil _
  | cons a p ih => simpa [cons_lt_cons_iff] using ih

lemma not_lt_of_isPrefix (h : p <+: x) : ¬x < p := by
  obtain ⟨s, rfl⟩ := h
  exact not_append_lt p s

/-- Every continuation of `k` comes before every continuation of a later list that does not
continue `k`. -/
lemma append_lt_append (h : k < k') (hk : ¬k <+: k') (s t : List α) : k ++ s < k' ++ t := by
  induction k generalizing k' with
  | nil => exact absurd (List.nil_prefix) hk
  | cons a k ih =>
    cases k' with
    | nil => exact absurd h (not_lt_nil _)
    | cons b k' =>
      rcases cons_lt_cons_iff.1 h with hab | ⟨rfl, hkk⟩
      · exact cons_lt_cons_iff.2 (.inl hab)
      · exact cons_lt_cons_iff.2 (.inr ⟨rfl, ih hkk fun hp =>
          hk (cons_prefix_cons.2 ⟨rfl, hp⟩)⟩)

/-- What lies between a prefix and one of its continuations continues it too. -/
lemma isPrefix_of_between (hpx : ¬x < p) (hxy : ¬y < x) (hpy : p <+: y) : p <+: x := by
  by_contra hnot
  have hlt : p < x := by
    refine lt_of_le_of_ne (not_lt.1 hpx) ?_
    rintro rfl
    exact hnot (prefix_refl _)
  obtain ⟨s, rfl⟩ := hpy
  apply hxy
  simpa using append_lt_append hlt hnot s []

end Lists
