import XMustard.Text.Bytes
import XMustard.Text.Pattern

/-!
# The grammar of JSON

The texts of JSON values, as bytes with the white space between their tokens.
-/

namespace Text.Json

open List

/-! ### White space and scalars -/

variable (c : UInt8) {w r : Bytes}

def isBlank : Bool := c = 32 ∨ c = 10 ∨ c = 13 ∨ c = 9

def Blank (w : Bytes) : Prop := ∀ c ∈ w, isBlank c

def isDigit : Bool := 48 ≤ c ∧ c ≤ 57

def digits : Pattern UInt8 := .seq (.one isDigit) (.many isDigit)

def number : Pattern UInt8 :=
  .inOrder [.opt (.lit (ascii "-")),
    .alt (.lit (ascii "0")) (.seq (.one fun c => 49 ≤ c ∧ c ≤ 57) (.many isDigit)),
    .opt (.seq (.lit (ascii ".")) digits),
    .opt (.inOrder [.one fun c => c = 101 ∨ c = 69, .opt (.one fun c => c = 43 ∨ c = 45), digits])]

/-- Numbers and the three names. -/
def scalar : Pattern UInt8 :=
  .anyOf [.lit (ascii "true"), .lit (ascii "false"), .lit (ascii "null"), number]

/-- The bytes of scalars: letters, digits, signs and the point. -/
def isScalarByte : Bool :=
  (97 ≤ c ∧ c ≤ 122) ∨ (48 ≤ c ∧ c ≤ 57) ∨ c = 43 ∨ c = 45 ∨ c = 46 ∨ c = 69

lemma isScalarByte_of_isDigit {c : UInt8} (h : isDigit c) : isScalarByte c := by
  simp only [isDigit, decide_eq_true_eq] at h
  simp [isScalarByte, h]

lemma digits_over : digits.Over fun c => isScalarByte c :=
  ⟨fun _ => isScalarByte_of_isDigit, fun _ => isScalarByte_of_isDigit⟩

lemma number_over : number.Over fun c => isScalarByte c := by
  have hdot : ∀ c ∈ ascii ".", isScalarByte c := forall_mem_of_all (by decide)
  have hleading (c : UInt8) (hc : decide (49 ≤ c ∧ c ≤ 57) = true) : isScalarByte c := by
    rw [decide_eq_true_eq] at hc
    have : 48 ≤ c := le_trans (by decide) hc.1
    simp [isScalarByte, this, hc.2]
  have hmark (c : UInt8) (hc : decide (c = 101 ∨ c = 69) = true) : isScalarByte c := by
    rcases decide_eq_true_iff.1 hc with rfl | rfl <;> decide
  have hsign (c : UInt8) (hc : decide (c = 43 ∨ c = 45) = true) : isScalarByte c := by
    rcases decide_eq_true_iff.1 hc with rfl | rfl <;> decide
  exact ⟨forall_mem_of_all (by decide),
    ⟨forall_mem_of_all (by decide), hleading, fun _ => isScalarByte_of_isDigit⟩,
    ⟨hdot, digits_over⟩, ⟨hmark, hsign, digits_over, forall_mem_nil _⟩, forall_mem_nil _⟩

lemma scalar_over : scalar.Over fun c => isScalarByte c :=
  ⟨forall_mem_of_all (by decide), forall_mem_of_all (by decide), forall_mem_of_all (by decide),
    number_over, nofun⟩

lemma mem_scalar (h : w ∈ scalar.language) : w ≠ [] ∧ ∀ c ∈ w, isScalarByte c := by
  refine ⟨?_, scalar_over.forall_mem h⟩
  rintro rfl
  have hnone : scalar.rests [] = [] := by decide
  have hmem : [] ∈ scalar.rests [] := Pattern.mem_rests.2 ⟨[], h, rfl⟩
  simp [hnone] at hmem

/-! ### Strings -/

def isHex : Bool :=
  (48 ≤ c ∧ c ≤ 57) ∨ (97 ≤ c ∧ c ≤ 102) ∨ (65 ≤ c ∧ c ≤ 70)

/-- A character of a string as it is written: by itself, escaped, or in several bytes. -/
inductive IsChar : Bytes → Prop
  | plain {c : UInt8} : 32 ≤ c → c < 128 → c ≠ 34 → c ≠ 92 → IsChar [c]
  | escape {c : UInt8} : c ∈ ascii "\"\\/bfnrt" → IsChar [92, c]
  | unicode {ds : Bytes} : ds.length = 4 → (∀ d ∈ ds, isHex d) → IsChar (92 :: 117 :: ds)
  | multi {c : UInt8} {ranges : List Range} {cs : Bytes} : following c = some ranges → ranges ≠ [] →
      List.Forall₂ (fun r b => r.1 ≤ b ∧ b ≤ r.2) ranges cs → IsChar (c :: cs)

/-- What may stand between the quotes of a string. -/
def IsBody (body : Bytes) : Prop :=
  ∃ chars : List Bytes, body = chars.flatten ∧ ∀ x ∈ chars, IsChar x

lemma isBody_plain (h : ∀ c ∈ w, 32 ≤ c ∧ c < 128 ∧ c ≠ 34 ∧ c ≠ 92) : IsBody w := by
  refine ⟨w.map fun c => [c], by rw [← flatMap_def, flatMap_singleton'], fun x hx => ?_⟩
  obtain ⟨c, hc, rfl⟩ := mem_map.1 hx
  obtain ⟨h₁, h₂, h₃, h₄⟩ := h c hc
  exact .plain h₁ h₂ h₃ h₄

lemma isBody_append {u : Bytes} (hu : IsBody u) (hw : IsBody w) : IsBody (u ++ w) := by
  obtain ⟨xs, rfl, hxs⟩ := hu
  obtain ⟨ys, rfl, hys⟩ := hw
  refine ⟨xs ++ ys, by simp, fun x hx => ?_⟩
  rcases mem_append.1 hx with hx | hx
  · exact hxs x hx
  · exact hys x hx

def quoted (body : Bytes) : Bytes := 34 :: body ++ [34]

/-! ### Values -/

/-- An element of an array, between white space. -/
structure Item where
  before : Bytes
  text : Bytes
  after : Bytes

def Item.bytes (e : Item) : Bytes := e.before ++ e.text ++ e.after

def Item.Spaced (e : Item) : Prop := Blank e.before ∧ Blank e.after

/-- A member of an object with the white space around its tokens. -/
structure Member where
  before : Bytes
  name : Bytes
  afterName : Bytes
  item : Item

def Member.bytes (m : Member) : Bytes :=
  m.before ++ quoted m.name ++ m.afterName ++ 58 :: m.item.bytes

def Member.Spaced (m : Member) : Prop :=
  Blank m.before ∧ IsBody m.name ∧ Blank m.afterName ∧ m.item.Spaced

/-- Texts with commas between them. -/
def commaSeparated : List Bytes → Bytes
  | [] => []
  | b :: bs => b ++ bs.flatMap fun b => 44 :: b

inductive IsValue : Bytes → Prop
  | scalar {w : Bytes} : w ∈ scalar.language → IsValue w
  | str {body : Bytes} : IsBody body → IsValue (quoted body)
  | emptyArr {w : Bytes} : Blank w → IsValue (91 :: w ++ [93])
  | arr {es : List Item} : es ≠ [] → (∀ e ∈ es, e.Spaced) → (∀ e ∈ es, IsValue e.text) →
      IsValue (91 :: commaSeparated (es.map Item.bytes) ++ [93])
  | emptyObj {w : Bytes} : Blank w → IsValue (123 :: w ++ [125])
  | obj {ms : List Member} : ms ≠ [] → (∀ m ∈ ms, m.Spaced) → (∀ m ∈ ms, IsValue m.item.text) →
      IsValue (123 :: commaSeparated (ms.map Member.bytes) ++ [125])

/-- The text of an array of elements. -/
structure IsArray (v : Bytes) (es : List Item) : Prop where
  spaced : ∀ e ∈ es, e.Spaced
  values : ∀ e ∈ es, IsValue e.text
  text : (es = [] ∧ ∃ w, Blank w ∧ v = 91 :: w ++ [93])
    ∨ (es ≠ [] ∧ v = 91 :: commaSeparated (es.map Item.bytes) ++ [93])

/-- The text of an object of members. -/
structure IsObject (v : Bytes) (ms : List Member) : Prop where
  spaced : ∀ m ∈ ms, m.Spaced
  values : ∀ m ∈ ms, IsValue m.item.text
  text : (ms = [] ∧ ∃ w, Blank w ∧ v = 123 :: w ++ [125])
    ∨ (ms ≠ [] ∧ v = 123 :: commaSeparated (ms.map Member.bytes) ++ [125])

lemma scalar_head {c : UInt8} (h : w ∈ scalar.language) (hw : w = c :: r) :
    isScalarByte c := (mem_scalar h).2 c (by simp [hw])

/-- What starts as an array is one. -/
lemma IsValue.isArray (h : IsValue (91 :: r)) : ∃ es, IsArray (91 :: r) es := by
  generalize hv : 91 :: r = v at h
  cases h with
  | scalar hw => exact absurd (scalar_head hw hv.symm) (by decide)
  | str _ => cases hv
  | emptyArr hw => exact ⟨[], by simp, by simp, .inl ⟨rfl, _, hw, rfl⟩⟩
  | arr hne hspaced hvalues => exact ⟨_, hspaced, hvalues, .inr ⟨hne, rfl⟩⟩
  | emptyObj | obj => cases hv

/-- What starts as an object is one. -/
lemma IsValue.isObject (h : IsValue (123 :: r)) : ∃ ms, IsObject (123 :: r) ms := by
  generalize hv : 123 :: r = v at h
  cases h with
  | scalar hw => exact absurd (scalar_head hw hv.symm) (by decide)
  | str | emptyArr | arr => cases hv
  | emptyObj hw => exact ⟨[], by simp, by simp, .inl ⟨rfl, _, hw, rfl⟩⟩
  | obj hne hspaced hvalues => exact ⟨_, hspaced, hvalues, .inr ⟨hne, rfl⟩⟩

/-- What starts as a string is one. -/
lemma IsValue.isString (h : IsValue (34 :: r)) : ∃ body, IsBody body ∧ 34 :: r = quoted body := by
  generalize hv : 34 :: r = v at h
  cases h with
  | scalar hw => exact absurd (scalar_head hw hv.symm) (by decide)
  | str hbody => exact ⟨_, hbody, rfl⟩
  | emptyArr | arr | emptyObj | obj => cases hv

lemma blank_nil : Blank [] := fun _ hc => absurd hc not_mem_nil

/-- An array without white space. -/
lemma IsValue.array {vs : List Bytes} (h : ∀ v ∈ vs, IsValue v) :
    IsValue (91 :: commaSeparated vs ++ [93]) := by
  by_cases hne : vs = []
  · subst hne
    exact .emptyArr blank_nil
  · have hbytes : (vs.map fun v => (⟨[], v, []⟩ : Item)).map Item.bytes = vs := by
      rw [map_map]
      exact map_id'' (fun v => append_nil v) vs
    rw [← hbytes]
    refine .arr (by simpa using hne) (fun e he => ?_) (fun e he => ?_) <;>
      obtain ⟨v, hv, rfl⟩ := mem_map.1 he
    · exact ⟨blank_nil, blank_nil⟩
    · exact h v hv

/-- The text of a name and a value without white space. -/
def named (name v : Bytes) : Bytes := quoted name ++ 58 :: v

/-- An object without white space. -/
lemma IsValue.object {ps : List (Bytes × Bytes)} (hnames : ∀ p ∈ ps, IsBody p.1)
    (h : ∀ p ∈ ps, IsValue p.2) :
    IsValue (123 :: commaSeparated (ps.map fun p => named p.1 p.2) ++ [125]) := by
  by_cases hne : ps = []
  · subst hne
    exact .emptyObj blank_nil
  · have hbytes : (ps.map fun p => (⟨[], p.1, [], [], p.2, []⟩ : Member)).map Member.bytes
        = ps.map fun p => named p.1 p.2 := by
      simp [Member.bytes, Item.bytes, named]
    rw [← hbytes]
    refine .obj (by simpa using hne) (fun m hm => ?_) (fun m hm => ?_) <;>
      obtain ⟨p, hp, rfl⟩ := mem_map.1 hm
    · exact ⟨blank_nil, hnames p hp, blank_nil, blank_nil, blank_nil⟩
    · exact h p hp

/-- A document is a value between white space. -/
def IsDocument (text : Bytes) : Prop :=
  ∃ before v after, Blank before ∧ IsValue v ∧ Blank after ∧ text = before ++ v ++ after

/-- The kinds of values. -/
inductive Kind
  | object | array | string | number | bool | null
  deriving DecidableEq

/-- The kind of a value, which its first byte tells. -/
def kind (v : Bytes) : Kind :=
  match v.head? with
  | some 123 => .object
  | some 91 => .array
  | some 34 => .string
  | some 116 => .bool
  | some 102 => .bool
  | some 110 => .null
  | _ => .number

end Text.Json
