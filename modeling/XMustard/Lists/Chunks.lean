import Mathlib.Data.List.Basic

/-! # Lists of pieces of one length -/

namespace Lists

open List

variable {α β : Type*} {f : β → List α} {k n : Nat}

/-- The pieces of length `k`, leaving out what is left at the end. -/
def chunksExact (k : Nat) (l : List α) : List (List α) :=
  (List.range (l.length / k)).map fun i => (l.drop (i * k)).take k

/-- The pieces of length `n` from the front, the last of them possibly shorter. -/
def batches (n : Nat) (l : List α) : List (List α) :=
  if _h : l = [] ∨ n = 0 then []
  else l.take n :: batches n (l.drop n)
termination_by l.length
decreasing_by
  rw [not_or] at _h
  have := length_pos_iff.2 _h.1
  rw [length_drop]
  omega

lemma flatten_batches (hn : n ≠ 0) (l : List α) : (batches n l).flatten = l := by
  fun_induction batches n l with
  | case1 l h => exact (h.resolve_right hn).symm
  | case2 l h ih => rw [flatten_cons, ih, take_append_drop]

lemma exists_mem_batches (hn : n ≠ 0) {l : List α} {x : α} :
    (∃ b ∈ batches n l, x ∈ b) ↔ x ∈ l := by
  conv_rhs => rw [← flatten_batches hn l]
  exact mem_flatten.symm

lemma length_flatMap_const (hf : ∀ x, (f x).length = k) (xs : List β) :
    (xs.flatMap f).length = xs.length * k := by
  induction xs with
  | nil => simp
  | cons x xs ih => simp [hf, ih, Nat.succ_mul, Nat.add_comm]

lemma drop_flatMap_const (hf : ∀ x, (f x).length = k) (xs : List β) (i : Nat) :
    (xs.flatMap f).drop (i * k) = (xs.drop i).flatMap f := by
  induction i generalizing xs with
  | zero => simp
  | succ i ih =>
    cases xs with
    | nil => simp
    | cons x xs =>
      rw [flatMap_cons, drop_succ_cons, Nat.succ_mul, Nat.add_comm, ← drop_drop,
        drop_left' (hf x), ih]

lemma take_flatMap_const (hf : ∀ x, (f x).length = k) (xs : List β) (n : Nat) :
    (xs.flatMap f).take (n * k) = (xs.take n).flatMap f := by
  induction n generalizing xs with
  | zero => simp
  | succ n ih =>
    cases xs with
    | nil => simp
    | cons x xs =>
      rw [flatMap_cons, take_succ_cons, flatMap_cons, Nat.succ_mul, Nat.add_comm,
        ← hf x, take_length_add_append, hf x, ih]

/-- Pieces that were put together come apart again. -/
lemma chunksExact_flatMap (hk : 0 < k) (hf : ∀ x, (f x).length = k) (xs : List β) :
    chunksExact k (xs.flatMap f) = xs.map f := by
  refine ext_getElem ?_ ?_
  · simp [chunksExact, length_flatMap_const hf, Nat.mul_div_cancel _ hk]
  · intro i hi hi'
    have hlt : i < xs.length := by simpa using hi'
    simp only [chunksExact, getElem_map, getElem_range, drop_flatMap_const hf]
    rw [drop_eq_getElem_cons hlt, flatMap_cons, take_left' (hf _)]

/-! ## Groups of a sorted list -/

section groups

variable {key : α → Nat} {l : List α}

lemma length_filter_lt_succ (key : α → Nat) (l : List α) (i : Nat) :
    (l.filter (key · < i + 1)).length
      = (l.filter (key · < i)).length + (l.filter (key · = i)).length := by
  induction l with
  | nil => rfl
  | cons x l ih =>
    rcases Nat.lt_trichotomy (key x) i with hlt | rfl | hgt
    · have hlt' : key x < i + 1 := by omega
      have hne : key x ≠ i := by omega
      simp only [filter_cons, hlt, hlt', hne, decide_true, decide_false, if_true,
        length_cons, ih, Bool.false_eq_true, if_false]
      omega
    · simp only [filter_cons, Nat.lt_irrefl, Nat.lt_add_one, decide_true, decide_false,
        if_true, length_cons, ih, Bool.false_eq_true, if_false]
      omega
    · have hge : ¬key x < i := by omega
      have hge' : ¬key x < i + 1 := by omega
      have hne : key x ≠ i := by omega
      simp only [filter_cons, hge, hge', hne, decide_false, Bool.false_eq_true, if_false, ih]

/-- In a list sorted by key, what has key `i` comes right after what has a smaller key. -/
lemma filter_eq_take_drop (h : l.Pairwise (key · ≤ key ·)) (i : Nat) :
    l.filter (key · = i)
      = (l.drop (l.filter (key · < i)).length).take (l.filter (key · = i)).length := by
  induction l with
  | nil => rfl
  | cons x l ih =>
    obtain ⟨hx, hl⟩ := pairwise_cons.1 h
    rcases Nat.lt_trichotomy (key x) i with hlt | heq | hgt
    · have hne : key x ≠ i := by omega
      simpa [filter_cons, hlt, hne] using ih hl
    · have hnone : l.filter (key · < i) = [] := by
        rw [filter_eq_nil_iff]
        intro y hy
        have := hx y hy
        simp
        omega
      have hih := ih hl
      simp only [hnone, length_nil, drop_zero] at hih
      simp only [filter_cons, heq, Nat.lt_irrefl, decide_false, decide_true, hnone, if_true,
        Bool.false_eq_true, if_false, length_nil, length_cons, drop_zero,
        take_succ_cons]
      rw [← hih]
    · have hnone : ∀ y ∈ x :: l, ¬key y ≤ i := by
        intro y hy
        rcases mem_cons.1 hy with rfl | hy
        · omega
        · have := hx y hy
          omega
      have heq : (x :: l).filter (key · = i) = [] := by
        rw [filter_eq_nil_iff]
        intro y hy
        have := hnone y hy
        simp
        omega
      rw [heq]
      simp

end groups

end Lists
