import XMustard.Text.JsonText

/-!
# Reading JSON texts

A JSON text from its characters. White space between tokens is not kept.
-/

namespace Text.JsonText

def isBlank (c : Char) : Bool := c = ' ' || c = '\t' || c = '\n' || c = '\r'

variable (s : Chars)

def skipBlanks : Chars := s.dropWhile isBlank

/-! ### Tokens -/

def hexValue (c : Char) : Option Nat :=
  if '0' ≤ c ∧ c ≤ '9' then some (c.toNat - 48)
  else if 'a' ≤ c ∧ c ≤ 'f' then some (c.toNat - 87)
  else if 'A' ≤ c ∧ c ≤ 'F' then some (c.toNat - 55)
  else none

def hex4 (a b c d : Char) : Option Nat := do
  let a ← hexValue a
  let b ← hexValue b
  let c ← hexValue c
  let d ← hexValue d
  return ((a * 16 + b) * 16 + c) * 16 + d

/-- The character that the short escape of a letter is for. -/
def shortEscape (c : Char) : Option Char :=
  if c = '"' ∨ c = '\\' ∨ c = '/' then some c
  else if c = 'b' then some (.ofNat 8)
  else if c = 'f' then some (.ofNat 12)
  else if c = 'n' then some '\n'
  else if c = 'r' then some '\r'
  else if c = 't' then some '\t'
  else none

def highSurrogate (n : Nat) : Bool := 0xD800 ≤ n && n < 0xDC00

def lowSurrogate (n : Nat) : Bool := 0xDC00 ≤ n && n < 0xE000

/-- The character of a code point; a surrogate that has no other is replaced. -/
def codePoint (n : Nat) : Char :=
  if highSurrogate n ∨ lowSurrogate n then .ofNat 0xFFFD else .ofNat n

/-- The code unit that an escape is for, if the text goes on with one. -/
def unicodeEscape : Chars → Option Nat
  | '\\' :: 'u' :: a :: b :: c :: d :: _ => hex4 a b c d
  | _ => none

/-- What an escape is for, after its backslash, and how many characters it has. -/
def readEscape : Option (Char × Nat) :=
  match s with
  | [] => none
  | e :: _ =>
    if e = 'u' then do
      let n ← unicodeEscape ('\\' :: s)
      match unicodeEscape (s.drop 5) with
      | some m =>
        if highSurrogate n ∧ lowSurrogate m then
          some (.ofNat (0x10000 + (n - 0xD800) * 0x400 + (m - 0xDC00)), 11)
        else some (codePoint n, 5)
      | none => some (codePoint n, 5)
    else (shortEscape e).map fun v => (v, 1)

/-- Read the characters of a string after its first quote; `skip` of them belong to an escape. -/
def readString : (skip : Nat) → Chars → Option (List Piece × Chars)
  | _, [] => none
  | skip + 1, _ :: s => readString skip s
  | 0, c :: s =>
    if c = '"' then some ([], s)
    else if c.val < 32 then none
    else if c = '\\' then do
      let e ← readEscape s
      let r ← readString e.2 s
      return (⟨(c :: s.take e.2).flatMap String.utf8EncodeChar, e.1⟩ :: r.1, r.2)
    else do
      let r ← readString 0 s
      return (⟨String.utf8EncodeChar c, c⟩ :: r.1, r.2)

def isDigit (c : Char) : Bool := '0' ≤ c && c ≤ '9'

/-- Digits, of which there must be some. -/
def readDigits : Option (Chars × Chars) :=
  if (s.takeWhile isDigit).isEmpty then none else some (s.takeWhile isDigit, s.dropWhile isDigit)

def readInteger : Chars → Option (Chars × Chars)
  | [] => none
  | c :: s => if c = '0' then some ([c], s) else readDigits (c :: s)

def readFraction : Chars → Option (Chars × Chars)
  | [] => some ([], [])
  | c :: s => if c = '.' then (readDigits s).map fun r => (c :: r.1, r.2) else some ([], c :: s)

def readExponent : Chars → Option (Chars × Chars)
  | [] => some ([], [])
  | c :: s =>
    if c = 'e' ∨ c = 'E' then
      match s with
      | [] => none
      | sign :: s' =>
        if sign = '+' ∨ sign = '-' then (readDigits s').map fun r => (c :: sign :: r.1, r.2)
        else (readDigits s).map fun r => (c :: r.1, r.2)
    else some ([], c :: s)

def readNumber : Option (JsonText × Chars) := do
  let sign := s.takeWhile (· = '-') |>.take 1
  let int ← readInteger (s.drop sign.length)
  let frac ← readFraction int.2
  let exp ← readExponent frac.2
  return (.number ((sign ++ int.1 ++ frac.1 ++ exp.1).flatMap String.utf8EncodeChar), exp.2)

/-- Read one of the three names. -/
def readName : Option (JsonText × Chars) :=
  if "null".toList <+: s then some (.null, s.drop 4)
  else if "true".toList <+: s then some (.bool true, s.drop 4)
  else if "false".toList <+: s then some (.bool false, s.drop 5)
  else none

/-! ### Values -/

mutual

/-- Read a value, in at most `fuel` nested steps. -/
def readValue : (fuel : Nat) → Chars → Option (JsonText × Chars)
  | 0, _ => none
  | fuel + 1, s =>
    match skipBlanks s with
    | [] => none
    | c :: s =>
      if c = '"' then (readString 0 s).map fun r => (.string r.1, r.2)
      else if c = '[' then
        match skipBlanks s with
        | [] => none
        | d :: s' =>
          if d = ']' then some (.array [] [], s')
          else (readItems fuel s).map fun r => (.array [] r.1, r.2)
      else if c = '\x7b' then
        match skipBlanks s with
        | [] => none
        | d :: s' =>
          if d = '\x7d' then some (.object [] [], s')
          else (readMembers fuel s).map fun r => (.object [] r.1, r.2)
      else (readName (c :: s)).or (readNumber (c :: s))

def readItems : (fuel : Nat) → Chars → Option (List (Pad × JsonText) × Chars)
  | 0, _ => none
  | fuel + 1, s => do
    let v ← readValue fuel s
    match skipBlanks v.2 with
    | [] => none
    | c :: s =>
      if c = ']' then some ([({}, v.1)], s)
      else if c = ',' then do
        let r ← readItems fuel s
        return (({}, v.1) :: r.1, r.2)
      else none

def readMembers : (fuel : Nat) → Chars → Option (List (Name × JsonText) × Chars)
  | 0, _ => none
  | fuel + 1, s =>
    match skipBlanks s with
    | [] => none
    | q :: s =>
      if q = '"' then do
        let name ← readString 0 s
        match skipBlanks name.2 with
        | [] => none
        | c :: s =>
          if c = ':' then do
            let v ← readValue fuel s
            match skipBlanks v.2 with
            | [] => none
            | d :: s =>
              if d = '\x7d' then some ([({ pieces := name.1 }, v.1)], s)
              else if d = ',' then do
                let r ← readMembers fuel s
                return (({ pieces := name.1 }, v.1) :: r.1, r.2)
              else none
          else none
      else none

end

/-- The text that the characters are, if they are one. -/
def parse : Option JsonText :=
  match readValue (s.length + 1) s with
  | some (t, rest) => if (skipBlanks rest).isEmpty then some t else none
  | none => none

/-! ### Decoding -/

/-- Numbers from this one on are rounded to infinity in 64 bits. -/
def doubleLimit : Nat := 2 ^ 1024 - 2 ^ 970

/-- The absolute value of a number is below the limit. The digits of an exponent are read while it
is below 10000. -/
def fitsDouble (number : Bytes) : Bool :=
  let digit (c : UInt8) : Bool := 48 ≤ c && c ≤ 57
  let text := number.dropWhile (· = 45)
  let rest := text.dropWhile digit
  let frac := if rest.head? = some 46 then rest.tail.takeWhile digit else []
  let exponent := (rest.dropWhile fun c => c ≠ 101 && c ≠ 69).tail
  let e := (exponent.filter digit).foldl
    (fun e c => if e < 10000 then 10 * e + (c.toNat - 48) else e) 0
  let m := (text.takeWhile digit ++ frac).foldl (fun m c => 10 * m + (c.toNat - 48)) 0
  if exponent.head? = some 45 then m < doubleLimit * 10 ^ (frac.length + e)
  else m * 10 ^ e < doubleLimit * 10 ^ frac.length

mutual

/-- Arrays and objects are nested at most `depth` deep, and every number fits. -/
def decodable (depth : Nat) : JsonText → Bool
  | .null | .bool _ | .string _ => true
  | .number text => fitsDouble text
  | .array _ items => depth ≠ 0 && decodableItems (depth - 1) items
  | .object _ members => depth ≠ 0 && decodableMembers (depth - 1) members

def decodableItems (depth : Nat) : List (Pad × JsonText) → Bool
  | [] => true
  | (_, t) :: items => decodable depth t && decodableItems depth items

def decodableMembers (depth : Nat) : List (Name × JsonText) → Bool
  | [] => true
  | (_, t) :: members => decodable depth t && decodableMembers depth members

end

def maxNestingDepth : Nat := 10000

/-- The map that the characters are an object of; there is none if something in it cannot be
decoded. -/
def parseFields : Fields :=
  match parse s with
  | some t => if decodable maxNestingDepth t then t.fields else []
  | none => []

end Text.JsonText
