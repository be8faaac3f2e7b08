import Mathlib.Data.List.DropRight

/-! # Cutting text into pieces

Two ways to cut at separators: keeping the empty pieces between neighbouring separators
(`List.splitOnP`), and collecting the runs between them. -/

namespace Text

variable {α : Type*} {p : α → Bool} {l acc : List α}

/-- The runs of elements that are no separators; `acc` is the current run, last element first. -/
def fieldsPrepend (p : α → Bool) : List α → List α → List (List α)
  | [], acc => if acc = [] then [] else [acc.reverse]
  | x :: l, acc =>
    if p x then (if acc = [] then [] else [acc.reverse]) ++ fieldsPrepend p l []
    else fieldsPrepend p l (x :: acc)

def fields (p : α → Bool) (l : List α) : List (List α) := fieldsPrepend p l []

lemma fieldsPrepend_eq_filter [DecidableEq α] (p : α → Bool) (l acc : List α) :
    fieldsPrepend p l acc = (l.splitOnPPrepend p acc).filter (· ≠ []) := by
  induction l generalizing acc with
  | nil => by_cases hacc : acc = [] <;> simp [fieldsPrepend, hacc]
  | cons x l ih =>
    by_cases hx : p x
    · rw [fieldsPrepend, if_pos hx, ih, List.splitOnPPrepend_cons_pos hx]
      by_cases hacc : acc = [] <;> simp [hacc]
    · rw [fieldsPrepend, if_neg hx, ih, List.splitOnPPrepend_cons_neg (by simpa using hx)]

/-- The fields are the pieces that are not empty. -/
lemma fields_eq_filter [DecidableEq α] (p : α → Bool) (l : List α) :
    fields p l = (l.splitOnP p).filter (· ≠ []) :=
  fieldsPrepend_eq_filter p l []

/-- Up to the first occurrence of `a`, by its index. -/
lemma take_idxOf [DecidableEq α] (a : α) (l : List α) :
    l.take (l.idxOf a) = l.takeWhile (· ≠ a) := by
  induction l with
  | nil => rfl
  | cons x l ih =>
    by_cases hx : x = a
    · simp [hx]
    · simp [hx, List.idxOf_cons_ne, ih]

/-- Up to the first occurrence of `a`, by cutting there. -/
lemma head_splitOn [DecidableEq α] (a : α) (l : List α) :
    (l.splitOn a).head? = some (l.takeWhile (· ≠ a)) := by
  induction l with
  | nil => rfl
  | cons x l ih =>
    by_cases hx : x = a
    · simp [List.splitOn_cons_eq_if_modifyHead, hx]
    · simp [List.splitOn_cons_eq_if_modifyHead, hx, List.head?_modifyHead, ih]

/-- No piece of a text that was cut at `a` holds it. -/
lemma not_mem_of_mem_splitOn [DecidableEq α] {a : α} {l w : List α} (h : w ∈ l.splitOn a) :
    a ∉ w := by
  induction l generalizing w with
  | nil => simp_all
  | cons x l ih =>
    rw [List.splitOn_cons_eq_if_modifyHead] at h
    by_cases hx : x = a
    · rw [if_pos (beq_iff_eq.2 hx)] at h
      rcases List.mem_cons.1 h with rfl | h
      · exact List.not_mem_nil
      · exact ih h
    · rw [if_neg (mt beq_iff_eq.1 hx)] at h
      match hsplit : l.splitOn a with
      | [] => simp [hsplit] at h
      | v :: vs =>
        rw [hsplit] at h ih
        rcases List.mem_cons.1 h with rfl | h
        · simpa [Ne.symm hx] using ih (List.mem_cons_self ..)
        · exact ih (List.mem_cons_of_mem _ h)

/-- Cut at the last occurrence of `a`. -/
def rsplitOnce [DecidableEq α] (a : α) : List α → Option (List α × List α)
  | [] => none
  | x :: l =>
    match rsplitOnce a l with
    | some (stem, rest) => some (x :: stem, rest)
    | none => if x = a then some ([], l) else none

end Text
