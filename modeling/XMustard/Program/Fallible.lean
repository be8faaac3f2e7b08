import Mathlib.Data.List.Basic

/-! # Computations that may fail -/

namespace Fallible

universe u

variable {ε : Type*} {α β : Type u} {f : α → Except ε β}

lemma bind_eq_ok {x : Except ε α} {b : β} : x >>= f = .ok b ↔ ∃ a, x = .ok a ∧ f a = .ok b := by
  cases x with
  | error err =>
    constructor
    · intro h
      cases h
    · rintro ⟨a, ha, -⟩
      cases ha
  | ok a =>
    constructor
    · intro h
      exact ⟨a, rfl, h⟩
    · rintro ⟨a', ha', h⟩
      cases ha'
      exact h

/-- `x` gives `a` unless it fails, and does not fail where `P` holds. -/
def Yields (P : Prop) (a : α) (x : Except ε α) : Prop := x = .ok a ∨ (∃ e, x = .error e) ∧ ¬P

variable {P Q : Prop} {a : α} {b : β} {x : Except ε α} {xs : List α}

lemma Yields.ok : Yields P a (.ok a : Except ε α) := .inl rfl

lemma Yields.error {e : ε} (h : ¬P) : Yields P a (.error e : Except ε α) := .inr ⟨⟨e, rfl⟩, h⟩

lemma Yields.mono (h : Yields P a x) (hP : Q → P) : Yields Q a x :=
  h.imp_right fun h => ⟨h.1, fun hQ => h.2 (hP hQ)⟩

lemma Yields.bind (h : Yields P a x) (hf : Yields P b (f a)) : Yields P b (x >>= f) := by
  obtain rfl | ⟨⟨e, rfl⟩, hP⟩ := h
  · exact hf
  · exact .error hP

lemma exists_mapM_ok (h : ∀ x ∈ xs, ∃ y, f x = .ok y) : ∃ ys, xs.mapM f = .ok ys := by
  induction xs with
  | nil => exact ⟨[], rfl⟩
  | cons x xs ih =>
    obtain ⟨y, hy⟩ := h x (by simp)
    obtain ⟨ys, hys⟩ := ih fun x hx => h x (List.mem_cons_of_mem _ hx)
    exact ⟨y :: ys, by rw [List.mapM_cons, hy, hys]; rfl⟩

lemma mapM_append_ok {xs' : List α} {ys ys' : List β}
    (h : xs.mapM f = .ok ys) (h' : xs'.mapM f = .ok ys') :
    (xs ++ xs').mapM f = .ok (ys ++ ys') := by
  rw [List.mapM_append, h, h']
  rfl

end Fallible
