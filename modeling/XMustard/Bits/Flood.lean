import XMustard.Bits.Words

/-! # Following runs with one addition

Positions of a mask `e` may be passed over: a set position of `e` sets the next one. Adding the set
positions of a run of `e` to `e` makes the carry run from the first of them to just past the run,
so one addition a word takes every such step at once. -/

namespace Bits

open Nat

variable {w : ℕ}

/-- Position `j` is set in `d`, or follows a set position of `e`; `c` says that position `0`
follows one. -/
def flood (e d : ℕ → Bool) (c : Bool) : ℕ → Bool
  | 0 => d 0 || c
  | j + 1 => d (j + 1) || (e j && flood e d c j)

/-- What the positions from `k + 1` on see of those before is one carry. -/
lemma flood_add (e d : ℕ → Bool) (c : Bool) (k j : ℕ) :
    flood e d c (k + 1 + j) = flood (fun i => e (k + 1 + i)) (fun i => d (k + 1 + i))
      (e k && flood e d c k) j := by
  induction j with
  | zero => rfl
  | succ j ih => rw [← Nat.add_assoc, flood, ih]; rfl

lemma flood_congr {e e' d d' : ℕ → Bool} (c : Bool) {n : ℕ} (he : ∀ i < n, e i = e' i)
    (hd : ∀ i ≤ n, d i = d' i) : flood e d c n = flood e' d' c n := by
  induction n with
  | zero => simp [flood, hd]
  | succ n ih =>
    rw [flood, flood, hd _ le_rfl, he n (lt_succ_self n),
      ih (fun i hi => he i (lt_succ_of_lt hi)) fun i hi => hd i (le_succ_of_le hi)]

/-- From nothing nothing is reached. -/
lemma flood_false (e : ℕ → Bool) (j : ℕ) : flood e (fun _ => false) false j = false := by
  induction j with
  | zero => rfl
  | succ j ih => simp [flood, ih]

/-- The wrapped sum and whether it wrapped. -/
def overflowingAdd (x y : BitVec w) : BitVec w × Bool := (x + y, x.uaddOverflow y)

variable (e d : BitVec w)

/-- One word of a flood: the word, and the carry into the next. -/
def floodWord (c : Bool) : BitVec w × Bool :=
  let (s₁, c₁) := overflowingAdd e (d &&& e)
  let (s₂, c₂) := overflowingAdd s₁ ((BitVec.ofBool c).setWidth w)
  (d ||| (s₂ ^^^ e), c₁ || c₂)

/-- The carry of `e + (d &&& e)` into a position is what the position below hands over. -/
lemma carry_eq_flood (c : Bool) (i : ℕ) :
    BitVec.carry i e (d &&& e) c =
      match i with
      | 0 => c
      | j + 1 => e.getLsbD j && flood e.getLsbD d.getLsbD c j := by
  have hstep : ∀ x y z : Bool, x.atLeastTwo (y && x) z = (x && (y || z)) := by decide
  induction i with
  | zero => simp
  | succ i ih =>
    rw [BitVec.carry_succ, ih, BitVec.getLsbD_and, hstep]
    cases i <;> rfl

/-- Two additions that each report an overflow report the carry out of the sum of three. -/
lemma overflow_or_overflow (x y : BitVec w) (c : Bool) (hw : 0 < w) :
    (x.uaddOverflow y || (x + y).uaddOverflow ((BitVec.ofBool c).setWidth w)) =
      BitVec.carry w x y c := by
  have hc : ((BitVec.ofBool c).setWidth w).toNat = c.toNat := by
    have hone : 1 < 2 ^ w := Nat.one_lt_two_pow (by omega)
    cases c <;> simp [mod_eq_of_lt hone]
  rw [BitVec.carry_width, Bool.eq_iff_iff]
  simp only [BitVec.uaddOverflow, hc, BitVec.toNat_add, Bool.or_eq_true, decide_eq_true_eq]
  rcases lt_or_ge (x.toNat + y.toNat) (2 ^ w) with h | h
  · rw [mod_eq_of_lt h]; omega
  · omega

lemma floodWord_bit (c : Bool) {i : ℕ} (hi : i < w) :
    (floodWord e d c).1.getLsbD i = flood e.getLsbD d.getLsbD c i := by
  have hsum := BitVec.getLsbD_add_add_bool hi e (d &&& e) c
  have hbit : (floodWord e d c).1.getLsbD i =
      (d.getLsbD i || BitVec.carry i e (d &&& e) c) := by
    simp only [floodWord, overflowingAdd, BitVec.getLsbD_or, BitVec.getLsbD_xor, hsum,
      BitVec.getLsbD_and]
    cases e.getLsbD i <;> cases d.getLsbD i <;> simp
  rw [hbit, carry_eq_flood]
  cases i <;> rfl

lemma floodWord_carry (c : Bool) {k : ℕ} (hk : w = k + 1) :
    (floodWord e d c).2 = (e.getLsbD k && flood e.getLsbD d.getLsbD c k) := by
  have hcarry : (floodWord e d c).2 = BitVec.carry w e (d &&& e) c :=
    overflow_or_overflow e (d &&& e) c (by omega)
  rw [hcarry, carry_eq_flood]
  subst hk
  rfl

/-- A flood of several words, each handing its carry to the next. -/
def floodWords : List (BitVec w) → List (BitVec w) → Bool → List (BitVec w)
  | e :: es, d :: ds, c => (floodWord e d c).1 :: floodWords es ds (floodWord e d c).2
  | _, _, _ => []

@[simp] lemma length_floodWords (es ds : List (BitVec w)) (c : Bool) :
    (floodWords es ds c).length = min es.length ds.length := by
  induction es generalizing ds c with
  | nil => simp [floodWords]
  | cons e es ih => cases ds <;> simp [floodWords, ih]

/-- The words of a flood hold the flooded positions. -/
theorem bit_floodWords (es ds : List (BitVec w)) (h : es.length = ds.length) (c : Bool) {i : ℕ}
    (hi : i < w * ds.length) :
    bit (floodWords es ds c) i = flood (bit es) (bit ds) c i := by
  induction ds generalizing es c i with
  | nil => simp at hi
  | cons d ds ih =>
    obtain ⟨e, es, rfl⟩ := List.exists_cons_of_length_eq_add_one h
    obtain ⟨k, rfl⟩ : ∃ k, w = k + 1 :=
      Nat.exists_eq_add_one.2 (Nat.pos_of_mul_pos_right (Nat.zero_lt_of_lt hi))
    have hword : ∀ j ≤ k, flood e.getLsbD d.getLsbD c j =
        flood (bit (e :: es)) (bit (d :: ds)) c j := fun j hj =>
      flood_congr c (fun i hi => (bit_cons_of_lt e es (by omega)).symm) fun i hi =>
        (bit_cons_of_lt d ds (by omega)).symm
    rcases lt_or_ge i (k + 1) with hlt | hge
    · rw [floodWords, bit_cons_of_lt _ _ hlt, floodWord_bit e d c hlt, hword i (by omega)]
    · obtain ⟨j, rfl⟩ : ∃ j, i = k + 1 + j := ⟨i - (k + 1), by omega⟩
      have hj : j < (k + 1) * ds.length := by
        rw [List.length_cons, mul_succ] at hi
        omega
      rw [floodWords, bit_cons_add, ih es (by simpa using h) _ hj, floodWord_carry e d c rfl,
        flood_add, hword k le_rfl, bit_cons_of_lt e es (lt_succ_self k)]
      simp only [bit_cons_add]

end Bits
