import XMustard.Index.GlobAutomaton

/-! # Bracket classes

A class is a list of bytes and ranges, possibly negated, and never has `/` in it. The parsed set of
bytes, one bit each, holds exactly the bytes of the class. -/

namespace Index.Glob

open List Bits

/-- The bytes and ranges between the brackets. -/
def ranges : List UInt8 → List (UInt8 × UInt8)
  | a :: d :: z :: body =>
    if d = '-'.toUInt8 then (a, z) :: ranges body else (a, a) :: ranges (d :: z :: body)
  | a :: body => (a, a) :: ranges body
  | [] => []

def listed (body : List UInt8) (c : UInt8) : Bool :=
  (ranges body).any fun r => r.1 ≤ c && c ≤ r.2

variable (c : UInt8)

/-- The letter of the other case; any other byte is its own. -/
def otherCase : UInt8 :=
  if 'A'.toUInt8 ≤ c ∧ c ≤ 'Z'.toUInt8 then c + 32
  else if 'a'.toUInt8 ≤ c ∧ c ≤ 'z'.toUInt8 then c - 32
  else c

variable (foldClasses : Bool)

/-- The bytes of `[body]`. -/
def classHas (body : List UInt8) (c : UInt8) : Bool :=
  let has := fun c => listed (classBody body) c
  c ≠ slash && ((has c || (foldClasses && has (otherCase c))) != isNegated body)

/-- A set of bytes has a bit for every byte. -/
def ByteSet.Full (s : ByteSet) : Prop := s.length = 4

variable {s : ByteSet}

lemma ByteSet.Full.lt (h : s.Full) (c : UInt8) : c.toNat < 64 * s.length := by
  rw [h]
  exact c.toNat_lt

lemma setHas_setBit (h : s.Full) (b c : UInt8) :
    setHas (setBit s b.toNat) c = (setHas s c || decide (c = b)) := by
  rw [setHas_eq_bit, setHas_eq_bit, bit_setBit s (h.lt b)]
  simp [UInt8.toNat_inj]

lemma setRange_full (h : s.Full) (a z : UInt8) : (setRange s a z).Full :=
  (length_foldl_setBit _ _).trans h

lemma setHas_setRange (h : s.Full) (a z c : UInt8) :
    setHas (setRange s a z) c = (setHas s c || (a ≤ c && c ≤ z)) := by
  have hz : z.toNat < 256 := z.toNat_lt
  have hmem : ∀ i ∈ range' a.toNat (z.toNat + 1 - a.toNat), i < 64 * s.length := by
    intro i hi
    rw [mem_range'_1] at hi
    rw [show s.length = 4 from h]
    omega
  rw [setHas_eq_bit, setHas_eq_bit, setRange, bit_foldl_setBit _ _ hmem]
  congr 1
  rw [Bool.eq_iff_iff]
  simp only [mem_range'_1, decide_eq_true_eq, Bool.and_eq_true, UInt8.le_iff_toNat_le]
  omega

lemma setClass_spec (h : s.Full) (body : List UInt8) :
    (setClass s body).Full ∧ ∀ c, setHas (setClass s body) c = (setHas s c || listed body c) := by
  fun_induction setClass s body with
  | case1 s a z body ih =>
    have hrest := ih (setRange_full h a z)
    refine ⟨hrest.1, fun c => ?_⟩
    rw [hrest.2, setHas_setRange h, Bool.or_assoc]
    simp [listed, ranges]
  | case2 s a d z body hd ih =>
    have hrest := ih (setRange_full h a a)
    refine ⟨hrest.1, fun c => ?_⟩
    rw [hrest.2, setHas_setRange h, Bool.or_assoc]
    simp [listed, ranges, hd]
  | case3 s a body hshort ih =>
    have hrest := ih (setRange_full h a a)
    refine ⟨hrest.1, fun c => ?_⟩
    rw [hrest.2, setHas_setRange h, Bool.or_assoc]
    simp [listed, ranges.eq_2 _ _ hshort]
  | case4 s => exact ⟨h, fun c => by simp [listed, ranges]⟩

/-! ### Folding case -/

/-- A letter of either case has a capital. -/
def capital : UInt8 :=
  if 'a'.toUInt8 ≤ c ∧ c ≤ 'z'.toUInt8 then c - 32 else c

variable {u : UInt8}

lemma mem_upperLetters : u ∈ upperLetters ↔ 65 ≤ u.toNat ∧ u.toNat ≤ 90 := by
  have hletter : ∀ k < 26, ('A'.toUInt8 + UInt8.ofNat k).toNat = 65 + k := by
    intro k hk
    change (65 + k % 2 ^ 8) % 2 ^ 8 = _
    omega
  rw [upperLetters, mem_map]
  constructor
  · rintro ⟨k, hk, rfl⟩
    rw [hletter k (mem_range.1 hk)]
    have := mem_range.1 hk
    omega
  · intro hu
    refine ⟨u.toNat - 65, mem_range.2 (by omega), UInt8.toNat_inj.1 ?_⟩
    rw [hletter _ (by omega)]
    omega

lemma upper_iff : ('A'.toUInt8 ≤ c ∧ c ≤ 'Z'.toUInt8) ↔ 65 ≤ c.toNat ∧ c.toNat ≤ 90 := by
  rfl

lemma lower_iff : ('a'.toUInt8 ≤ c ∧ c ≤ 'z'.toUInt8) ↔ 97 ≤ c.toNat ∧ c.toNat ≤ 122 := by
  rfl

lemma toNat_toAsciiLowercase : (toAsciiLowercase c).toNat =
    if 65 ≤ c.toNat ∧ c.toNat ≤ 90 then c.toNat + 32 else c.toNat := by
  simp only [toAsciiLowercase, upper_iff]
  split_ifs with h
  · rw [UInt8.toNat_add]
    change (c.toNat + 32) % 256 = _
    omega
  · rfl

lemma toNat_capital : (capital c).toNat =
    if 97 ≤ c.toNat ∧ c.toNat ≤ 122 then c.toNat - 32 else c.toNat := by
  simp only [capital, lower_iff]
  split_ifs with h
  · rw [UInt8.toNat_sub]
    change (256 - 32 + c.toNat) % 256 = _
    omega
  · rfl

lemma toNat_otherCase : (otherCase c).toNat =
    if 65 ≤ c.toNat ∧ c.toNat ≤ 90 then c.toNat + 32
    else if 97 ≤ c.toNat ∧ c.toNat ≤ 122 then c.toNat - 32 else c.toNat := by
  have hlow := toNat_toAsciiLowercase c
  have hcap := toNat_capital c
  simp only [toAsciiLowercase, capital, upper_iff, lower_iff] at hlow hcap
  simp only [otherCase, upper_iff, lower_iff]
  split_ifs at * <;> assumption

lemma capital_otherCase : capital (otherCase c) = capital c := by
  rw [← UInt8.toNat_inj, toNat_capital, toNat_capital, toNat_otherCase]
  split_ifs <;> omega

/-- A letter and its other case are the capital and the small letter. -/
lemma case_pair (hu : u ∈ upperLetters) (c : UInt8) :
    if capital c = u then
      (c = u ∧ otherCase c = toAsciiLowercase u) ∨ (c = toAsciiLowercase u ∧ otherCase c = u)
    else c ≠ u ∧ c ≠ toAsciiLowercase u := by
  obtain ⟨hlo, hhi⟩ := mem_upperLetters.1 hu
  simp only [ne_eq, ← UInt8.toNat_inj, toNat_capital, toNat_otherCase, toNat_toAsciiLowercase]
  split_ifs <;> omega

lemma setHas_foldLetter (h : s.Full) (hu : u ∈ upperLetters) (c : UInt8) :
    setHas (foldLetter s u) c =
      (setHas s c || (decide (capital c = u) && setHas s (otherCase c))) := by
  have hfull : ByteSet.Full (setBit s u.toNat) := (length_setBit s _).trans h
  have hset : setHas (foldLetter s u) c = (setHas s c ||
      ((decide (c = u) || decide (c = toAsciiLowercase u)) &&
        (setHas s u || setHas s (toAsciiLowercase u)))) := by
    rw [foldLetter]
    split_ifs with hany
    · rw [setHas_setBit hfull, setHas_setBit h, hany, Bool.and_true, Bool.or_assoc]
    · simp [Bool.eq_false_iff.2 hany]
  have hpair := case_pair hu c
  rw [hset]
  split_ifs at hpair with hcap
  · rw [hcap]
    obtain ⟨hc, hother⟩ | ⟨hc, hother⟩ := hpair
    · rw [hother, hc]
      cases setHas s u <;> simp
    · rw [hother, hc]
      cases setHas s (toAsciiLowercase u) <;> simp
  · simp [hcap, hpair]

lemma foldLetter_full (h : s.Full) (u : UInt8) : (foldLetter s u).Full := by
  rw [foldLetter]
  split_ifs
  · simpa [ByteSet.Full] using h
  · exact h

/-- Folding puts in the other case of every letter that is there. -/
lemma setHas_foldl_foldLetter (h : s.Full) {us : List UInt8} (hus : us ⊆ upperLetters)
    (hnodup : us.Nodup) (c : UInt8) :
    setHas (us.foldl foldLetter s) c =
      (setHas s c || (decide (capital c ∈ us) && setHas s (otherCase c))) := by
  induction us generalizing s with
  | nil => simp
  | cons u us ih =>
    obtain ⟨hu, hnodup⟩ := nodup_cons.1 hnodup
    obtain ⟨hupper, hus⟩ := cons_subset.1 hus
    rw [foldl_cons, ih (foldLetter_full h u) hus hnodup, setHas_foldLetter h hupper,
      setHas_foldLetter h hupper, capital_otherCase]
    by_cases hcap : capital c = u
    · simp [hcap, hu]
    · simp [hcap]

lemma otherCase_of_not_letter {c : UInt8} (h : capital c ∉ upperLetters) : otherCase c = c := by
  have hcap := mt mem_upperLetters.2 h
  rw [toNat_capital] at hcap
  rw [← UInt8.toNat_inj, toNat_otherCase]
  split_ifs at * <;> omega

lemma foldl_foldLetter_full (h : s.Full) (us : List UInt8) :
    ByteSet.Full (us.foldl foldLetter s) := by
  induction us generalizing s with
  | nil => exact h
  | cons u us ih => exact ih (foldLetter_full h u)

lemma listedSet_full (body : List UInt8) :
    ByteSet.Full (listedSet foldClasses body) := by
  have hfull := (setClass_spec (s := replicate 4 0) rfl body).1
  cases foldClasses with
  | false => exact hfull
  | true => exact foldl_foldLetter_full hfull _

lemma setHas_listedSet (body : List UInt8) (c : UInt8) :
    setHas (listedSet foldClasses body) c =
      (listed body c || (foldClasses && listed body (otherCase c))) := by
  obtain ⟨hfull, hlisted⟩ := setClass_spec (s := replicate 4 0) rfl body
  have hset : ∀ c, setHas (setClass (replicate 4 0) body) c = listed body c := by
    intro c
    have hempty : bit (replicate 4 (0 : Word)) c.toNat = false := bit_replicate_zero 4 _
    rw [hlisted, setHas_eq_bit, hempty, Bool.false_or]
  cases foldClasses with
  | false => rw [Bool.false_and, Bool.or_false, ← hset]; rfl
  | true =>
    have hfold := setHas_foldl_foldLetter hfull (List.Subset.refl upperLetters) (by decide) c
    refine hfold.trans ?_
    rw [hset, hset]
    by_cases hletter : capital c ∈ upperLetters
    · simp [hletter]
    · simp [hletter, otherCase_of_not_letter hletter]

/-- The parsed set holds the bytes of the class. -/
lemma setHas_classSet (body : List UInt8) (c : UInt8) :
    setHas (classSet foldClasses body) c = classHas foldClasses body c := by
  have hfull := listedSet_full foldClasses (classBody body)
  have hlisted := setHas_listedSet foldClasses (classBody body) c
  have hneg : setHas (if isNegated body then (listedSet foldClasses (classBody body)).map (~~~ ·)
      else listedSet foldClasses (classBody body)) c =
        (setHas (listedSet foldClasses (classBody body)) c != isNegated body) := by
    split_ifs with h
    · rw [setHas_eq_bit, bit_map_not _ (hfull.lt c), ← setHas_eq_bit, h, Bool.bne_true]
    · rw [Bool.eq_false_iff.2 h, Bool.bne_false]
  have hclear : ∀ s : ByteSet, setHas (s.modify (slash >>> 6).toNat
      (· &&& ~~~ (1#64 <<< (slash &&& 63).toNat))) c = (setHas s c && !decide (c = slash)) := by
    intro s
    have hbit := bit_clearBit s (by decide) slash.toNat c.toNat
    simp only [UInt8.toNat_inj] at hbit
    rw [setHas_eq_bit, setHas_eq_bit]
    exact hbit
  rw [classSet, hclear, hneg, hlisted, classHas, Bool.and_comm]
  simp

end Index.Glob
