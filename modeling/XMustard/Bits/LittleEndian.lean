import Mathlib.Algebra.Order.Ring.Nat

/-! # Numbers as bytes, least significant first -/

namespace Bits

/-- The `w` lowest bytes of `n`. -/
def toLe : Nat → Nat → List UInt8
  | 0, _ => []
  | w + 1, n => UInt8.ofNat n :: toLe w (n / 256)

/-- The number with the given bytes. -/
def ofLe : List UInt8 → Nat
  | [] => 0
  | b :: bs => b.toNat + 256 * ofLe bs

@[simp] lemma length_toLe (w n : Nat) : (toLe w n).length = w := by
  induction w generalizing n with
  | zero => rfl
  | succ w ih => simp only [toLe, List.length_cons, ih]

lemma ofLe_toLe (w n : Nat) : ofLe (toLe w n) = n % 256 ^ w := by
  induction w generalizing n with
  | zero => simp [toLe, ofLe, Nat.mod_one]
  | succ w ih =>
    have hbyte : (UInt8.ofNat n).toNat = n % 256 := by simp
    rw [toLe, ofLe, ih, hbyte, Nat.pow_succ', Nat.mod_mul]

/-! ### Fields -/

/-- The bytes with their number before them. -/
def field (b : List UInt8) : List UInt8 := toLe 8 b.length ++ b

/-- A field ends where its number of bytes says. -/
lemma field_append_inj {a b s t : List UInt8} (h : field a ++ s = field b ++ t)
    (hlen : (field a ++ s).length < 2 ^ 64) : a = b ∧ s = t := by
  have hlen' := h ▸ hlen
  simp only [field, List.length_append, length_toLe] at hlen hlen'
  rw [field, field, List.append_assoc, List.append_assoc] at h
  obtain ⟨hnum, h⟩ := List.append_inj h (by simp)
  have hmod := congrArg ofLe hnum
  rw [ofLe_toLe, ofLe_toLe, Nat.mod_eq_of_lt (by omega), Nat.mod_eq_of_lt (by omega)] at hmod
  exact List.append_inj h hmod

end Bits
