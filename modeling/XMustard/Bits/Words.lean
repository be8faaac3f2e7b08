import Mathlib.Data.Nat.Basic
import Mathlib.Tactic.Common

/-! # Sets of positions in machine words

A set of natural numbers below a bound is kept in a list of words, `w` positions a word, lowest
first. The operations of bit-parallel programs (marking, shifting by one with a carry from word to
word, masking) are described by what they do to a position. -/

namespace Bits

open List Nat

variable {w : ℕ}

variable (ws : List (BitVec w))

variable (i : ℕ)

/-- Whether position `i` is in the set. -/
def bit : Bool := (ws.getD (i / w) 0).getLsbD (i % w)

/-- Put position `i` into the set; a position past the last word is lost. -/
def setBit : List (BitVec w) :=
  ws.modify (i / w) (· ||| 1#w <<< (i % w))

@[simp] lemma bit_nil : bit ([] : List (BitVec w)) i = false := by simp [bit]

/-- The first word holds the first `w` positions and the other words hold the rest. -/
lemma bit_cons (x : BitVec w) (xs : List (BitVec w)) (i : ℕ) :
    bit (x :: xs) i = if i < w then x.getLsbD i else bit xs (i - w) := by
  rcases Nat.eq_zero_or_pos w with rfl | hw
  · simp [bit, BitVec.of_length_zero]
  split_ifs with hi
  · simp [bit, div_eq_of_lt hi, mod_eq_of_lt hi]
  · have hdiv : i / w = (i - w) / w + 1 := div_eq_sub_div hw (by omega)
    have hmod : i % w = (i - w) % w := mod_eq_sub_mod (by omega)
    simp [bit, hdiv, hmod]

lemma bit_cons_of_lt (x : BitVec w) (xs : List (BitVec w)) {i : ℕ} (h : i < w) :
    bit (x :: xs) i = x.getLsbD i := by simp [bit_cons, h]

@[simp] lemma bit_cons_add (x : BitVec w) (xs : List (BitVec w)) (i : ℕ) :
    bit (x :: xs) (w + i) = bit xs i := by simp [bit_cons]

@[simp] lemma bit_replicate_zero (k i : ℕ) : bit (List.replicate k (0#w)) i = false := by
  rcases lt_or_ge (i / w) k with h | h <;> simp [bit, h]

@[simp] lemma length_setBit : (setBit ws i).length = ws.length := by simp [setBit]

/-- Take position `i` out of the set. -/
def clearBit : List (BitVec w) :=
  ws.modify (i / w) (· &&& ~~~ (1#w <<< (i % w)))

/-- Within a word, the bit of a position tells it from every other. -/
lemma getLsbD_one_shiftLeft {i j : ℕ} (hw : 0 < w) (hsame : j / w = i / w) :
    (1#w <<< (i % w)).getLsbD (j % w) = decide (j = i) := by
  have heq : j = i ↔ j % w = i % w :=
    ⟨fun h => h ▸ rfl, fun h => by rw [← div_add_mod j w, ← div_add_mod i w, hsame, h]⟩
  have hlt := mod_lt j hw
  rw [Bool.eq_iff_iff, BitVec.getLsbD_shiftLeft, BitVec.getLsbD_one]
  simp only [heq, Bool.and_eq_true, Bool.not_eq_true', decide_eq_true_eq, decide_eq_false_iff_not]
  omega

lemma bit_setBit {i : ℕ} (hi : i < w * ws.length) (j : ℕ) :
    bit (setBit ws i) j = (bit ws j || decide (j = i)) := by
  have hw : 0 < w := Nat.pos_of_mul_pos_right (Nat.zero_lt_of_lt hi)
  have hword : i / w < ws.length := Nat.div_lt_of_lt_mul hi
  by_cases hsame : j / w = i / w
  · simp [bit, setBit, hsame, hword, getLsbD_one_shiftLeft hw hsame]
  · have hne : j ≠ i := fun h => hsame (h ▸ rfl)
    simp [bit, setBit, Ne.symm hsame, hne]

lemma bit_clearBit (hw : 0 < w) (i j : ℕ) :
    bit (clearBit ws i) j = (bit ws j && !decide (j = i)) := by
  by_cases hsame : j / w = i / w
  · have hone := getLsbD_one_shiftLeft hw hsame
    cases h : ws[i / w]? with
    | none => simp [bit, clearBit, hsame, h]
    | some x =>
      have hx : (x &&& ~~~ (1#w <<< (i % w))).getLsbD (j % w) =
          (x.getLsbD (j % w) && !decide (j = i)) := by
        rw [BitVec.getLsbD_and, BitVec.getLsbD_not, hone]
        simp only [mod_lt j hw, decide_true, Bool.true_and]
      simpa [bit, clearBit, hsame, h] using hx
  · have hne : j ≠ i := fun h => hsame (h ▸ rfl)
    simp [bit, clearBit, Ne.symm hsame, hne]

lemma bit_map_not {i : ℕ} (hi : i < w * ws.length) :
    bit (ws.map (~~~ ·)) i = !bit ws i := by
  have hw : 0 < w := Nat.pos_of_mul_pos_right (Nat.zero_lt_of_lt hi)
  have hword : i / w < ws.length := Nat.div_lt_of_lt_mul hi
  simp [bit, hword, mod_lt i hw]

/-- Putting a list of positions in. -/
lemma bit_foldl_setBit (is : List ℕ) (ws : List (BitVec w)) (h : ∀ i ∈ is, i < w * ws.length)
    (j : ℕ) : bit (is.foldl setBit ws) j = (bit ws j || decide (j ∈ is)) := by
  induction is generalizing ws with
  | nil => simp
  | cons i is ih =>
    simp only [mem_cons, forall_eq_or_imp] at h
    rw [foldl_cons, ih _ (by simpa using h.2), bit_setBit ws h.1]
    simp [Bool.or_assoc]

@[simp] lemma length_foldl_setBit (is : List ℕ) (ws : List (BitVec w)) :
    (is.foldl setBit ws).length = ws.length := by
  induction is generalizing ws with
  | nil => rfl
  | cons i is ih => rw [foldl_cons, ih, length_setBit]

/-! ### Masking and shifting -/

lemma bit_and (xs ys : List (BitVec w)) (i : ℕ) :
    bit (List.zipWith (· &&& ·) xs ys) i = (bit xs i && bit ys i) := by
  induction xs generalizing ys i with
  | nil => simp
  | cons x xs ih =>
    cases ys with
    | nil => simp
    | cons y ys =>
      simp only [zipWith_cons_cons, bit_cons, ih]
      split_ifs <;> simp

lemma bit_or (xs ys : List (BitVec w)) (h : xs.length = ys.length) (i : ℕ) :
    bit (List.zipWith (· ||| ·) xs ys) i = (bit xs i || bit ys i) := by
  induction xs generalizing ys i with
  | nil => simp [length_eq_zero_iff.1 h.symm]
  | cons x xs ih =>
    cases ys with
    | nil => simp at h
    | cons y ys =>
      simp only [zipWith_cons_cons, bit_cons, ih ys (by simpa using h)]
      split_ifs <;> simp

/-- Shift by one position; the word below hands its top bit over in `carry`. -/
def shift (carry : BitVec w) : List (BitVec w) → List (BitVec w)
  | [] => []
  | a :: as => (a <<< 1 ||| carry) :: shift (a >>> (w - 1)) as

variable (carry : BitVec w)

@[simp] lemma length_shift (as : List (BitVec w)) :
    (shift carry as).length = as.length := by
  induction as generalizing carry with
  | nil => rfl
  | cons a as ih => simp [shift, ih]

lemma getLsbD_top (a : BitVec w) (i : ℕ) :
    (a >>> (w - 1)).getLsbD i = (decide (i = 0) && a.getLsbD (w - 1)) := by
  cases i with
  | zero => simp
  | succ i => simp [BitVec.getLsbD_of_ge a (w - 1 + (i + 1)) (by omega)]

/-- A shift moves every position up by one, over the word boundaries too. -/
lemma bit_shift_succ (hcarry : ∀ i, carry.getLsbD (i + 1) = false)
    (as : List (BitVec w)) {i : ℕ} (hi : i + 1 < w * as.length) :
    bit (shift carry as) (i + 1) = bit as i := by
  induction as generalizing carry i with
  | nil => simp at hi
  | cons a as ih =>
    have htop : ∀ j, (a >>> (w - 1)).getLsbD (j + 1) = false := fun j => by
      rw [getLsbD_top]; simp
    rcases lt_trichotomy (i + 1) w with h | h | h
    · rw [shift, bit_cons_of_lt _ _ h, bit_cons_of_lt _ _ (lt_of_succ_lt h)]
      simp only [BitVec.getLsbD_or, BitVec.getLsbD_shiftLeft, h, hcarry]
      simp
    · -- the top position of the word is the first one of the next
      have hlen : 0 < as.length := by
        by_contra hnil
        simp [show as.length = 0 by omega, h] at hi
      obtain ⟨b, bs, rfl⟩ := exists_cons_of_length_pos hlen
      have hw : 0 < w := by omega
      simp [shift, bit_cons, h, hw, show i < w by omega, show w - 1 = i by omega]
    · obtain ⟨k, rfl⟩ : ∃ k, i = w + k := ⟨i - w, by omega⟩
      have hk : k + 1 < w * as.length := by
        rw [length_cons, mul_succ] at hi
        omega
      rw [shift, Nat.add_assoc, bit_cons_add, bit_cons_add, ih _ htop hk]

lemma bit_shift_zero (as : List (BitVec w)) (h : 0 < w * as.length) :
    bit (shift carry as) 0 = carry.getLsbD 0 := by
  cases as with
  | nil => simp at h
  | cons a as =>
    have hw : 0 < w := Nat.pos_of_mul_pos_right h
    simp [shift, bit_cons, hw]

/-- The union of the words is zero exactly when no position is set. -/
lemma foldl_or_eq_zero : ws.foldl (· ||| ·) 0#w = 0#w ↔ ∀ i, bit ws i = false := by
  have hor : ∀ (x : BitVec w), ws.foldl (· ||| ·) x = 0#w ↔ x = 0#w ∧ ∀ i, bit ws i = false := by
    induction ws with
    | nil => simp
    | cons y ys ih =>
      intro x
      have hy : y = 0#w ↔ ∀ i < w, y.getLsbD i = false :=
        ⟨fun h i _ => by simp [h], fun h => BitVec.eq_of_getLsbD_eq fun i hi => by simp [h i hi]⟩
      rw [foldl_cons, ih, BitVec.or_eq_zero_iff, and_assoc, hy]
      refine and_congr_right fun _ => ⟨fun h i => ?_, fun h => ⟨fun i hi => ?_, fun i => ?_⟩⟩
      · rw [bit_cons]
        split_ifs with hi
        · exact h.1 i hi
        · exact h.2 _
      · simpa [bit_cons, hi] using h i
      · simpa using h (w + i)
  simpa using hor 0#w

end Bits
