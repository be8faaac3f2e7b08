import XMustard.Bits.Flood

/-! # Glob patterns

The compiled globs of the ignore files. A pattern is parsed into elements, and a pattern with a
wildcard is matched by a bit-parallel automaton: bit `i` of the state means that the elements
before `i` have matched, bit `n` accepts. -/

namespace Index.Glob

open Bits List

/-- One pattern element before compilation. -/
inductive Tok where
  | lit (c : UInt8)
  /-- `?`: one byte other than `/`. -/
  | any
  /-- `[...]`: one byte of the numbered class (never `/`). -/
  | cls (k : UInt32)
  /-- `*`: any run of bytes without `/`. -/
  | star
  /-- `**/` as a whole component: zero or more whole directories. -/
  | dirStar
  /-- A trailing `**` component: everything that remains. -/
  | allStar
  deriving DecidableEq

abbrev Word := BitVec 64

/-- A set of bytes, one bit each, in four words. -/
abbrev ByteSet := List Word

def slash : UInt8 := '/'.toUInt8

def setHas (s : ByteSet) (c : UInt8) : Bool :=
  (s.getD (c >>> 6).toNat 0 >>> (c &&& 63).toNat) &&& 1#64 == 1#64

/-! ### Parsing -/

/-- Every byte of `a..=z`; none when `z` is below `a`. -/
def setRange (s : ByteSet) (a z : UInt8) : ByteSet :=
  (range' a.toNat (z.toNat + 1 - a.toNat)).foldl setBit s

/-- The bytes and ranges between the brackets. -/
def setClass (s : ByteSet) : List UInt8 → ByteSet
  | a :: d :: z :: body =>
    if d = '-'.toUInt8 then setClass (setRange s a z) body
    else setClass (setRange s a a) (d :: z :: body)
  | a :: body => setClass (setRange s a a) body
  | [] => s

def toAsciiLowercase (c : UInt8) : UInt8 :=
  if 'A'.toUInt8 ≤ c ∧ c ≤ 'Z'.toUInt8 then c + 32 else c

/-- Put both cases of a letter in when either is there. -/
def foldLetter (s : ByteSet) (c : UInt8) : ByteSet :=
  let lower := toAsciiLowercase c
  if setHas s c || setHas s lower then setBit (setBit s c.toNat) lower.toNat else s

/-- The letters `A..=Z`. -/
def upperLetters : List UInt8 := (range 26).map fun k => 'A'.toUInt8 + UInt8.ofNat k

def isNegated : List UInt8 → Bool
  | c :: _ => c = '!'.toUInt8 || c = '^'.toUInt8
  | [] => false

/-- What a leading `!` or `^` is followed by. -/
def classBody (body : List UInt8) : List UInt8 := if isNegated body then body.tail else body

/-- The bytes a class lists. -/
def listedSet (foldClasses : Bool) (body : List UInt8) : ByteSet :=
  let set := setClass (replicate 4 0) body
  if foldClasses then upperLetters.foldl foldLetter set else set

/-- The set of `[body]`. -/
def classSet (foldClasses : Bool) (body : List UInt8) : ByteSet :=
  let set := listedSet foldClasses (classBody body)
  let set := if isNegated body then set.map (~~~ ·) else set
  set.modify (slash >>> 6).toNat (· &&& ~~~ (1#64 <<< (slash &&& 63).toNat))

variable (toks : List Tok)

/-- Push an element unless it is the last one already. -/
def pushOnce (t : Tok) : List Tok :=
  if toks.getLast? = some t then toks else toks ++ [t]

/-- A trailing `**` takes the place of a `**/` right before it. -/
def pushAllStar : List Tok :=
  (if toks.getLast? = some .dirStar then toks.dropLast else toks) ++ [.allStar]

/-- A component starts at the beginning of the pattern and after a `/`. -/
def componentStart : Option UInt8 → Bool
  | none => true
  | some c => c = slash

lemma length_lt_of_dropWhile {f : UInt8 → Bool} {rest after : List UInt8} {d : UInt8}
    (h : rest.dropWhile f = d :: after) : after.length < rest.length := by
  have hle := (dropWhile_suffix (l := rest) f).length_le
  rw [h, length_cons] at hle
  omega

/-- The loop of `parse_with_case` on the rest of the pattern; `prev` is the byte before it. -/
def parseLoop (foldClasses : Bool) (prev : Option UInt8) (p : List UInt8) (toks : List Tok)
    (classes : List ByteSet) : List Tok × List ByteSet :=
  match p with
  | [] => (toks, classes)
  | c :: rest =>
    if c = '*'.toUInt8 then
      let whole := !(rest.takeWhile (· = '*'.toUInt8)).isEmpty && componentStart prev
      match _h : rest.dropWhile (· = '*'.toUInt8) with
      | [] => (if whole then pushAllStar toks else pushOnce toks .star, classes)
      | d :: after =>
        if whole && d = slash then
          parseLoop foldClasses (some d) after (pushOnce toks .dirStar) classes
        else parseLoop foldClasses (some c) (d :: after) (pushOnce toks .star) classes
    else if c = '?'.toUInt8 then
      parseLoop foldClasses (some c) rest (toks ++ [.any]) classes
    else if c = '['.toUInt8 then
      match _h : rest.dropWhile (· ≠ ']'.toUInt8) with
      | [] => parseLoop foldClasses (some c) rest (toks ++ [.lit c]) classes
      | close :: after =>
        parseLoop foldClasses (some close) after (toks ++ [.cls (UInt32.ofNat classes.length)])
          (classes ++ [classSet foldClasses (rest.takeWhile (· ≠ ']'.toUInt8))])
    else if c = '\\'.toUInt8 then
      match rest with
      | d :: after => parseLoop foldClasses (some d) after (toks ++ [.lit d]) classes
      | [] => (toks ++ [.lit c], classes)
    else parseLoop foldClasses (some c) rest (toks ++ [.lit c]) classes
termination_by p.length
decreasing_by
  all_goals simp only [length_cons]
  all_goals
    first
    | omega
    | exact Nat.lt_succ_of_lt (length_lt_of_dropWhile _h)
    | exact Nat.succ_lt_succ (length_lt_of_dropWhile _h)

variable (p : List UInt8)

def parseWithCase (foldClasses : Bool) : List Tok × List ByteSet :=
  parseLoop foldClasses none p [] []

def parse : List Tok × List ByteSet := parseWithCase p false

/-! ### Compilation -/

/-- One word of the element masks that do not depend on the byte class. -/
structure Masks where
  /-- Elements that stay on any byte (`**/`, trailing `**`). -/
  stayAny : Word := 0
  /-- Elements that stay on a byte other than `/` (`*`). -/
  stayName : Word := 0
  /-- Elements that may match nothing (`*`, trailing `**`). -/
  skip : Word := 0
  /-- Elements that may match nothing at a component boundary (`**/`). -/
  skipAtBoundary : Word := 0

structure Nfa where
  n : ℕ
  words : ℕ
  /-- Elements that consume exactly one byte: the text is at least this long. -/
  minLen : ℕ
  /-- No `*` or `**`: the text is exactly `minLen` bytes. -/
  fixedLen : Bool
  /-- Literal runs the text must start and end with. -/
  litPrefix : List UInt8
  litSuffix : List UInt8
  /-- Byte to its row of `adv` (bytes no element tells apart share a row). -/
  classOf : List UInt8
  /-- Per byte class: the elements that consume such a byte and advance. -/
  adv : List Word
  /-- The other element masks, word by word. -/
  masks : List Masks

/-- The masks being filled in and, for every byte, the elements that consume it. -/
structure Marks where
  masks : List Masks
  perByte : List (List Word)

/-- Element `i` consumes the bytes of `cs`. -/
def Marks.row (s : Marks) (cs : List ℕ) (i : ℕ) : Marks :=
  { s with perByte := cs.foldl (fun rows c => rows.modify c (setBit · i)) s.perByte }

def Marks.mask (s : Marks) (i : ℕ) (f : Word → Masks → Masks) : Marks :=
  { s with masks := s.masks.modify (i / 64) (f (1#64 <<< (i % 64))) }

/-- No element marked yet. -/
def Marks.empty (words : ℕ) : Marks where
  masks := replicate words {}
  perByte := replicate 256 (replicate words 0)

variable (classes : List ByteSet)

/-- The marks of element `i`. -/
def Marks.place (s : Marks) : Tok × ℕ → Marks
  | (.lit c, i) => s.row [c.toNat] i
  | (.any, i) => s.row ((range 256).filter (· ≠ slash.toNat)) i
  | (.cls k, i) =>
    s.row ((range 256).filter fun c => setHas (classes.getD k.toNat []) (UInt8.ofNat c)) i
  | (.star, i) => s.mask i fun b m => { m with stayName := m.stayName ||| b, skip := m.skip ||| b }
  | (.dirStar, i) => s.mask i fun b m =>
      { m with stayAny := m.stayAny ||| b, skipAtBoundary := m.skipAtBoundary ||| b }
  | (.allStar, i) => s.mask i fun b m => { m with stayAny := m.stayAny ||| b, skip := m.skip ||| b }

/-- Byte classes while they are numbered: bytes with the same row get the same number. -/
structure Rows where
  classOf : List UInt8 := []
  adv : List Word := []
  ids : List (List Word × UInt8) := []

def Rows.intern (words : ℕ) (s : Rows) (r : List Word) : Rows :=
  match s.ids.lookup r with
  | some id => { s with classOf := s.classOf ++ [id] }
  | none =>
    let id := UInt8.ofNat (s.adv.length / words)
    { classOf := s.classOf ++ [id], adv := s.adv ++ r, ids := s.ids ++ [(r, id)] }

def Tok.byte? : Tok → Option UInt8
  | .lit c => some c
  | _ => none

/-- The literals before the first other element. -/
def leadingLits : List Tok → List UInt8
  | .lit c :: toks => c :: leadingLits toks
  | _ => []

def Tok.isSingle : Tok → Bool
  | .lit _ | .any | .cls _ => true
  | _ => false

def Nfa.new : Nfa :=
  let n := toks.length
  let words := (n + 1 + 63) / 64
  let marks := toks.zipIdx.foldl (Marks.place classes) (Marks.empty words)
  let rows := marks.perByte.foldl (Rows.intern words) {}
  { n := n
    words := words
    minLen := (toks.filter Tok.isSingle).length
    fixedLen := !toks.any (!·.isSingle)
    litPrefix := leadingLits toks
    litSuffix := (leadingLits toks.reverse).reverse
    classOf := rows.classOf
    adv := rows.adv
    masks := marks.masks }

/-! ### Matching -/

/-- Elements that keep their state on a byte. -/
def Masks.stay (m : Masks) (isSlash : Bool) : Word :=
  if isSlash then m.stayAny else m.stayAny ||| m.stayName

/-- Elements that may match nothing here. -/
def Masks.skippable (m : Masks) (boundary : Bool) : Word :=
  if boundary then m.skip ||| m.skipAtBoundary else m.skip

/-- One addition follows every run of skippable elements. -/
def closeOneWord (m : Masks) (d : Word) (boundary : Bool) : Word :=
  let e := m.skippable boundary
  d ||| ((e + (d &&& e)) ^^^ e)

/-- The loop of `matches_one_word` after `i` bytes, with the work spent. -/
def Nfa.oneWordLoop (nfa : Nfa) (m : Masks) (i : ℕ) (d : Word) (work : ℕ) :
    List UInt8 → Bool × ℕ
  | [] => ((d >>> nfa.n) &&& 1#64 == 1#64, work + i)
  | c :: t =>
    let a := d &&& nfa.adv.getD (nfa.classOf.getD c.toNat 0).toNat 0
    let d := a <<< 1 ||| (d &&& m.stay (c = slash))
    if d = 0 then (false, work + (i + 1))
    else nfa.oneWordLoop m (i + 1) (closeOneWord m d (c = slash)) work t

/-- Up to 63 elements: the whole state is one word. -/
def Nfa.matchesOneWord (nfa : Nfa) (t : List UInt8) (work : ℕ) : Bool × ℕ :=
  let m := nfa.masks.getD 0 {}
  nfa.oneWordLoop m 0 (closeOneWord m 1 true) work t

/-- Take every skip (`*` or `**` matching nothing) in one pass, the carry going from word to
word. -/
def closeWide (boundary : Bool) : Bool → List Word → List Masks → List Word
  | carry, d :: ds, m :: ms =>
    let e := m.skippable boundary
    let (s₁, c₁) := overflowingAdd e (d &&& e)
    let (s₂, c₂) := overflowingAdd s₁ ((BitVec.ofBool carry).setWidth 64)
    (d ||| (s₂ ^^^ e)) :: closeWide boundary (c₁ || c₂) ds ms
  | _, ds, _ => ds

/-- The words of the next state, before its skips. -/
def advanceWide (isSlash : Bool) : Word → List Word → List Word → List Masks → List Word
  | carry, d :: ds, ak :: adv, m :: ms =>
    let a := d &&& ak
    (a <<< 1 ||| carry ||| (d &&& m.stay isSlash)) :: advanceWide isSlash (a >>> 63) ds adv ms
  | _, _, _, _ => []

/-- The row of a byte's class, word by word. -/
def Nfa.advOf (nfa : Nfa) (c : UInt8) : List Word :=
  (nfa.adv.drop ((nfa.classOf.getD c.toNat 0).toNat * nfa.words)).take nfa.words

/-- The loop of `matches_wide` after `i` bytes, with the work spent. -/
def Nfa.wideLoop (nfa : Nfa) (i : ℕ) (d : List Word) (work : ℕ) : List UInt8 → Bool × ℕ
  | [] => ((d.getD (nfa.n / 64) 0 >>> (nfa.n % 64)) &&& 1#64 == 1#64, work + i * nfa.words)
  | c :: t =>
    let next := advanceWide (c = slash) 0 d (nfa.advOf c) nfa.masks
    if next.foldl (· ||| ·) 0 = 0 then (false, work + (i + 1) * nfa.words)
    else nfa.wideLoop (i + 1) (closeWide (c = slash) false next nfa.masks) work t

def Nfa.matchesWide (nfa : Nfa) (t : List UInt8) (work : ℕ) : Bool × ℕ :=
  let d := (replicate nfa.words 0).set 0 1
  nfa.wideLoop 0 (closeWide true false d nfa.masks) work t

/-- The checks on length, prefix and suffix that turn a text away before a run. -/
def Nfa.rejects (nfa : Nfa) (t : List UInt8) : Bool :=
  t.length < nfa.minLen || (nfa.fixedLen && t.length ≠ nfa.minLen)
    || !nfa.litPrefix.isPrefixOf t || !nfa.litSuffix.isSuffixOf t

/-- Match `t`, adding the word operations spent to `work`. -/
def Nfa.matches (nfa : Nfa) (t : List UInt8) (work : ℕ) : Bool × ℕ :=
  let work := work + 1
  if nfa.rejects t then (false, work)
  else if nfa.words = 1 then nfa.matchesOneWord t work
  else nfa.matchesWide t work

inductive Matcher where
  /-- No wildcard at all: a byte comparison. -/
  | literal (bytes : List UInt8)
  | nfa (nfa : Nfa)

def fromParts : Matcher :=
  match toks.mapM Tok.byte? with
  | some bytes => .literal bytes
  | none => .nfa (Nfa.new toks classes)

def compile : Matcher :=
  let (toks, classes) := parse p
  fromParts toks classes

def Tok.lower : Tok → Tok
  | .lit c => .lit (toAsciiLowercase c)
  | t => t

/-- Compile with ASCII-insensitive matching without changing the pattern syntax. -/
def compileAsciiCaseInsensitive : Matcher :=
  let (toks, classes) := parseWithCase p true
  fromParts (toks.map Tok.lower) classes

def Matcher.matchesCounting (g : Matcher) (t : List UInt8) (work : ℕ) : Bool × ℕ :=
  match g with
  | .literal bytes => (bytes == t, work + 1)
  | .nfa automaton => automaton.matches t work

def Matcher.matches (g : Matcher) (t : List UInt8) : Bool := (g.matchesCounting t 0).1

end Index.Glob
