import Mathlib.Data.List.Basic
import Mathlib.Order.Bounds.Basic
import Mathlib.Order.MinMax

/-! # Longest common subsequences

The length of a longest common subsequence of two lists, by their first elements. -/

namespace Lists

open List

variable {α : Type} {a b : α} {x y : List α} {m n : ℕ}

/-- The length of a longest common subsequence. -/
def IsLcs (x y : List α) (n : ℕ) : Prop := IsGreatest {n | ∃ l, l <+ x ∧ l <+ y ∧ l.length = n} n

lemma IsLcs.nil_left (y : List α) : IsLcs [] y 0 := by
  refine ⟨⟨[], by simp⟩, ?_⟩
  rintro _ ⟨l, hl, -, rfl⟩
  simp [sublist_nil.1 hl]

lemma IsLcs.comm (h : IsLcs x y n) : IsLcs y x n := by
  obtain ⟨⟨l, hx, hy, hn⟩, hmax⟩ := h
  exact ⟨⟨l, hy, hx, hn⟩, fun _ ⟨k, hky, hkx, hk⟩ => hmax ⟨k, hkx, hky, hk⟩⟩

lemma IsLcs.nil_right (x : List α) : IsLcs x [] 0 := (nil_left x).comm

/-- A shared first element is in some longest common subsequence. -/
lemma IsLcs.cons (a : α) (h : IsLcs x y n) : IsLcs (a :: x) (a :: y) (n + 1) := by
  obtain ⟨⟨l, hx, hy, rfl⟩, hmax⟩ := h
  refine ⟨⟨a :: l, hx.cons_cons a, hy.cons_cons a, rfl⟩, ?_⟩
  rintro _ ⟨k, hkx, hky, rfl⟩
  have := hmax ⟨k.tail, hkx.tail, hky.tail, rfl⟩
  rw [length_tail] at this
  omega

/-- Of two different first elements, one is in no longest common subsequence. -/
lemma IsLcs.max (hab : a ≠ b) (hm : IsLcs x (b :: y) m) (hn : IsLcs (a :: x) y n) :
    IsLcs (a :: x) (b :: y) (max m n) := by
  refine ⟨?_, ?_⟩
  · obtain ⟨l, hx, hy, hl⟩ := hm.1
    obtain ⟨k, hkx, hky, hk⟩ := hn.1
    obtain h | h := max_choice m n <;> rw [h]
    exacts [⟨l, hx.cons a, hy, hl⟩, ⟨k, hkx, hky.cons b, hk⟩]
  · rintro _ ⟨l, hx, hy, rfl⟩
    cases hx with
    | cons _ hx => exact (hm.2 ⟨l, hx, hy, rfl⟩).trans (le_max_left _ _)
    | cons_cons _ hx =>
      cases hy with
      | cons _ hy => exact (hn.2 ⟨_, hx.cons_cons a, hy, rfl⟩).trans (le_max_right _ _)
      | cons_cons _ hy => exact absurd rfl hab

/-- The elements from the next place on. -/
lemma drop_succ_of_drop_eq_cons {i : ℕ} (h : x.drop i = a :: y) :
    i + 1 ≤ x.length ∧ x.drop (i + 1) = y := by
  have hlen := congrArg length h
  rw [length_drop, length_cons] at hlen
  exact ⟨by omega, by rw [← tail_drop, h, tail_cons]⟩

end Lists
