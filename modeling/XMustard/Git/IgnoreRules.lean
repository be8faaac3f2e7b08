import XMustard.Git.Cursor
import XMustard.Program.Fallible

/-! # Ignore rules

The lines of the ignore files, the rules they stand for, and which rule wins for a path: the last
one that matches. -/

namespace Git

open Text Index.Glob List Fallible

/-! ### Lines -/

/-- The longest pattern line that is read as a rule. -/
def maxPatternBytes : ℕ := 1024

inductive Line where
  /-- Blank, a comment, or an empty pattern. -/
  | notARule
  | tooLong
  | rule (pattern : Bytes) (negate dirOnly anchored : Bool)
  deriving DecidableEq

def space : UInt8 := ' '.toUInt8

def backslash : UInt8 := '\\'.toUInt8

def isRuleLine (line : Bytes) : Bool :=
  let l := trimEndMatches (fun b => b = carriageReturn || b = newline || b = space) line
  !(l = [] || l.head? = some '#'.toUInt8)

/-- Drop the spaces at the end of a line, given last byte first; a space after a backslash stays. -/
def dropSpaces : Bytes → Bytes
  | b :: before =>
    if b = space ∧ before.head? ≠ some backslash then dropSpaces before else b :: before
  | [] => []

def stripByte? (b : UInt8) (l : Bytes) : Option Bytes := stripPrefix? [b] l

def parseLine (line : Bytes) : Line :=
  if !isRuleLine line then .notARule
  else if maxPatternBytes < line.length then .tooLong
  else
    let l := trimEndMatches (fun b => b = carriageReturn || b = newline) line
    let l := (dropSpaces l.reverse).reverse
    let (negate, p) := match stripByte? '!'.toUInt8 l with
      | some rest => (true, rest)
      | none => (false, (stripByte? backslash l).getD l)
    let dirOnly := p.getLast? = some slash
    let p := if dirOnly then p.dropLast else p
    let anchored := slash ∈ p
    let p := (stripByte? slash p).getD p
    if p = [] then .notARule else .rule p negate dirOnly anchored

/-! ### Rules -/

/-- One ignore rule, with the directory of its file (`""` or `dir/`). -/
structure Rule where
  base : Bytes
  glob : Matcher
  negate : Bool
  dirOnly : Bool
  anchored : Bool

/-- What follows the last `/` of a path. -/
def lastComponent (path : Bytes) : Bytes := (path.reverse.takeWhile (· ≠ slash)).reverse

/-- Whether a rule matches `path` (top-level relative, no trailing `/`). -/
def Rule.matches (r : Rule) (path : Bytes) (isDir : Bool) : Bool :=
  if r.dirOnly && !isDir then false
  else match stripPrefix? r.base path with
    | none => false
    | some rel => r.glob.matches (if r.anchored then rel else lastComponent rel)

variable (ignoreCase : Bool)

/-- Whether `path` (no trailing `/`) is ignored by the rules in force: the last one that matches
decides. -/
def excluded (rules : List Rule) (path : Bytes) (isDir : Bool) : Bool :=
  let path := if ignoreCase then foldAscii path else path
  (rules.reverse.find? (·.matches path isDir)).any (!·.negate)

/-! ### Ignore files -/

/-- Ignore rules held across the ignore files that apply to the current directory. -/
def maxHeldRules : ℕ := 8192

/-- The largest ignore file read; a larger one leaves the walk incomplete. -/
def maxIgnoreFileBytes : ℕ := 1 <<< 20

/-- Bytes held for the children of the directories on the current path. -/
def maxHeldNameBytes : ℕ := 8 <<< 20

/-- Why a walk did not finish. -/
inductive Reason where
  | fileTooLarge (file : Bytes)
  | unreadable (file : Bytes) (error : String)
  | patternTooLong (file : Bytes)
  | tooManyRules
  | tooManyNames
  | timeout (millis : ℕ)
  deriving DecidableEq

def Reason.text : Reason → Bytes
  | .fileTooLarge file => fromUtf8Lossy file ++ ascii s!" is past {maxIgnoreFileBytes} bytes"
  | .unreadable file error => fromUtf8Lossy file ++ ascii ": " ++ error.toUTF8.toList
  | .patternTooLong file => fromUtf8Lossy file ++ ascii ": a pattern past the line bound"
  | .tooManyRules => ascii s!"more than {maxHeldRules} ignore rules apply"
  | .tooManyNames => ascii s!"directory listings past {maxHeldNameBytes} bytes held"
  | .timeout millis => ascii s!"past the Git timeout ({millis} ms)"

/-- A file as it is read: its bytes, or the error of the reading. -/
abbrev Content := Except String Bytes

/-- The rule of a line in an ignore file of the directory `base`. -/
def ruleOf (base : Bytes) (line : Bytes) : Option Rule :=
  match parseLine line with
  | .rule pattern negate dirOnly anchored => some {
      base := if ignoreCase then foldAscii base else base
      glob := if ignoreCase then compileAsciiCaseInsensitive pattern else compile pattern
      negate, dirOnly, anchored }
  | _ => none

def pushLine (file base : Bytes) (rules : List Rule) (line : Bytes) :
    Except Reason (List Rule) :=
  match ruleOf ignoreCase base line with
  | some rule =>
    if maxHeldRules ≤ rules.length then .error .tooManyRules else .ok (rules ++ [rule])
  | none => if parseLine line = .tooLong then .error (.patternTooLong file) else .ok rules

/-- Load an ignore file with rules relative to `base`. A missing file adds nothing; one past the
bounds is an error. -/
def loadRules (file : Bytes) (content : Option Content) (base : Bytes)
    (rules : List Rule) : Except Reason (List Rule) :=
  match content with
  | none => .ok rules
  | some (.error e) => .error (.unreadable file e)
  | some (.ok bytes) =>
    if maxIgnoreFileBytes < bytes.length then .error (.fileTooLarge file)
    else (lines (fromUtf8Lossy bytes)).foldlM (pushLine ignoreCase file base) rules

/-- The rules an ignore file of the directory `base` stands for. -/
def fileRules (base : Bytes) : Option Content → List Rule
  | some (.ok bytes) => (lines (fromUtf8Lossy bytes)).filterMap (ruleOf ignoreCase base)
  | _ => []

/-- An ignore file that is read, small enough and without overlong patterns. -/
def Content.Fits : Option Content → Prop
  | none => True
  | some (.error _) => False
  | some (.ok bytes) => bytes.length ≤ maxIgnoreFileBytes ∧
      ∀ line ∈ lines (fromUtf8Lossy bytes), parseLine line ≠ .tooLong

variable {ignoreCase : Bool} {file base : Bytes} {content : Option Content}

lemma foldlM_pushLine (ls : List Bytes) (rules : List Rule) :
    Yields ((∀ l ∈ ls, parseLine l ≠ .tooLong) ∧
        rules.length + (ls.filterMap (ruleOf ignoreCase base)).length ≤ maxHeldRules)
      (rules ++ ls.filterMap (ruleOf ignoreCase base))
      (ls.foldlM (pushLine ignoreCase file base) rules) := by
  induction ls generalizing rules with
  | nil => exact .inl (by simp; rfl)
  | cons l ls ih =>
    rw [foldlM_cons, forall_mem_cons]
    unfold pushLine
    cases hrule : ruleOf ignoreCase base l with
    | some rule =>
      rw [filterMap_cons_some hrule, length_cons, ← singleton_append, ← append_assoc]
      refine Yields.bind (a := rules ++ [rule]) ?_ ((ih _).mono fun h => ⟨h.1.2, by simp; omega⟩)
      dsimp only
      split_ifs
      · exact .error (by omega)
      · exact .ok
    | none =>
      rw [filterMap_cons_none hrule]
      refine Yields.bind (a := rules) ?_ ((ih _).mono fun h => ⟨h.1.2, h.2⟩)
      dsimp only
      split_ifs with hlong
      · exact .error fun h => h.1.1 hlong
      · exact .ok

/-- What was loaded is what was there and the rules of the file. A file that fits is loaded while
there is room for its rules. -/
lemma loadRules_yields (content : Option Content) (rules : List Rule) :
    Yields (Content.Fits content ∧
        rules.length + (fileRules ignoreCase base content).length ≤ maxHeldRules)
      (rules ++ fileRules ignoreCase base content)
      (loadRules ignoreCase file content base rules) := by
  match content with
  | none => exact .inl (by simp [loadRules, fileRules])
  | some (.error e) => exact .error fun h => h.1
  | some (.ok bytes) =>
    simp only [loadRules]
    split_ifs with hsize
    · exact .error fun h => absurd h.1.1 (not_le.2 hsize)
    · exact (foldlM_pushLine _ _).mono fun h => ⟨h.1.2, h.2⟩

end Git
