import Mathlib.Data.List.Lex
import Mathlib.Order.Lattice

/-! # Texts as bytes

Bytes and their order, and the operations of texts on the bytes of their UTF-8 form: decoding that
replaces what is not UTF-8, the lines of a text, and trimming white space. -/

namespace Text

instance linearOrderUInt8 : LinearOrder UInt8 where
  le_refl := UInt8.le_refl
  le_trans _ _ _ := UInt8.le_trans
  le_antisymm _ _ := UInt8.le_antisymm
  le_total := UInt8.le_total
  lt_iff_le_not_ge _ _ := by rw [UInt8.not_le]; exact ⟨fun h => ⟨UInt8.le_of_lt h, h⟩, And.right⟩
  toDecidableLE := inferInstance
  toDecidableEq := inferInstance
  toDecidableLT := inferInstance

abbrev Bytes := List UInt8

/-- The bytes of an ASCII literal. -/
def ascii (s : String) : Bytes := s.toList.map Char.toUInt8

/-- All members of a list, checked one by one. -/
lemma forall_mem_of_all {α : Type} {l : List α} {p : α → Prop} [DecidablePred p]
    (h : l.all (fun a => decide (p a)) = true) : ∀ a ∈ l, p a := by
  simpa using h

/-- The digits of a number, one by one. -/
lemma exists_digit {n : Nat} {c : Char} (h : c ∈ Nat.toDigits 10 n) :
    ∃ m < 10, c = Char.ofNat (48 + m) := by
  have hc := Char.isDigit_iff_toNat.1 (Nat.isDigit_of_mem_toDigits (by decide) (by decide) h)
  have hlo : 48 ≤ c.toNat := hc.1
  have hhi : c.toNat ≤ 57 := hc.2
  exact ⟨c.toNat - 48, by omega, by rw [Nat.add_sub_cancel' hlo, Char.ofNat_toNat]⟩

/-! ### Decoding -/

/-- The bytes `lo..=hi` that a byte of a character may be. -/
abbrev Range := UInt8 × UInt8

def continuation : Range := (0x80, 0xBF)

/-- What must follow the first byte of a character; nothing starts with the other bytes. -/
def following (b : UInt8) : Option (List Range) :=
  if b < 0x80 then some []
  else if 0xC2 ≤ b ∧ b ≤ 0xDF then some [continuation]
  else if b = 0xE0 then some [(0xA0, 0xBF), continuation]
  else if b = 0xED then some [(0x80, 0x9F), continuation]
  else if 0xE1 ≤ b ∧ b ≤ 0xEF then some [continuation, continuation]
  else if b = 0xF0 then some [(0x90, 0xBF), continuation, continuation]
  else if b = 0xF4 then some [(0x80, 0x8F), continuation, continuation]
  else if 0xF1 ≤ b ∧ b ≤ 0xF3 then some [continuation, continuation, continuation]
  else none

/-- The bytes are the rest of a character, whose next bytes must be in the ranges, and whole
characters. -/
def validFrom : List Range → Bytes → Bool
  | rs, [] => rs.isEmpty
  | r :: rs, b :: bytes => r.1 ≤ b && b ≤ r.2 && validFrom rs bytes
  | [], b :: bytes =>
    match following b with
    | none => false
    | some rs => validFrom rs bytes

/-- The bytes are UTF-8. -/
def validUtf8 (bytes : Bytes) : Bool := validFrom [] bytes

/-- The replacement character U+FFFD. -/
def replacement : Bytes := [0xEF, 0xBF, 0xBD]

/-- The first byte of a character, with the decoding of what follows it. -/
def decodeStart (next : Bytes → List Range → Bytes) (b : UInt8) : Bytes :=
  match following b with
  | none => replacement ++ next [] []
  | some [] => b :: next [] []
  | some rs => next [b] rs

/-- Decoding, with the bytes of the character begun and what its next bytes may be. A byte that
does not continue the character starts the next one. -/
def decodeFrom : Bytes → Bytes → List Range → Bytes
  | [], _, expected => if expected = [] then [] else replacement
  | b :: rest, _, [] => decodeStart (decodeFrom rest) b
  | b :: rest, begun, r :: rs =>
    if r.1 ≤ b ∧ b ≤ r.2 then
      if rs = [] then begun ++ b :: decodeFrom rest [] [] else decodeFrom rest (begun ++ [b]) rs
    else replacement ++ decodeStart (decodeFrom rest) b

/-- The UTF-8 bytes of a text, each longest start of a character that is cut short replaced by
U+FFFD. -/
def fromUtf8Lossy (bytes : Bytes) : Bytes := decodeFrom bytes [] []

/-! ### Lines -/

def newline : UInt8 := 10

def carriageReturn : UInt8 := 13

def stripCarriageReturn (l : Bytes) : Bytes :=
  if l.getLast? = some carriageReturn then l.dropLast else l

def linesFrom (line : Bytes) : Bytes → List Bytes
  | [] => if line = [] then [] else [line]
  | b :: rest =>
    if b = newline then stripCarriageReturn line :: linesFrom [] rest
    else linesFrom (line ++ [b]) rest

/-- The lines of a text without their line ends; the last one needs none. -/
def lines (text : Bytes) : List Bytes := linesFrom [] text

/-! ### Trimming -/

def trimEndMatches (p : UInt8 → Bool) (l : Bytes) : Bytes := (l.reverse.dropWhile p).reverse

def isAsciiWhitespace (b : UInt8) : Bool := b = 9 || b = 10 || b = 12 || b = 13 || b = 32

def trimAsciiEnd (l : Bytes) : Bytes := trimEndMatches isAsciiWhitespace l

def trimAscii (l : Bytes) : Bytes := trimAsciiEnd (l.dropWhile isAsciiWhitespace)

def stripPrefix? (p l : Bytes) : Option Bytes := if p <+: l then some (l.drop p.length) else none

end Text
