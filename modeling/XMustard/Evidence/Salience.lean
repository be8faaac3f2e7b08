import XMustard.Text.Bytes
import XMustard.Text.Pattern

/-!
# Failure evidence

Evidence of a failure is what a case-folding pattern matches. The pattern is slow, so it is only run
on windows around candidates, which are the occurrences of a keyword in the lower-cased text. A
document is searched in overlapping chunks, with windows that may reach beyond the chunk.
-/

namespace Evidence

open Text

/-! ### The pattern -/

variable (c : UInt8)

def asciiLower : UInt8 := if 65 ≤ c ∧ c ≤ 90 then c + 32 else c

/-- A letter up to simple case folding: the long s folds to `s`, and the Kelvin sign to `k`. -/
def folded : Pattern UInt8 :=
  let letter := .one fun d => asciiLower d = c
  if c = 115 then .alt letter (.lit [0xC5, 0xBF])
  else if c = 107 then .alt letter (.lit [0xE2, 0x84, 0xAA])
  else letter

def foldedText (s : String) : Pattern UInt8 := .inOrder ((ascii s).map folded)

/-- The white space of the pattern. -/
def spaces : Pattern UInt8 := .many isAsciiWhitespace

/-- A colon or an equals sign between white space. -/
def separated (p : UInt8 → Bool) : Pattern UInt8 := .inOrder [spaces, .one p, spaces]

def isColon : Bool := c = 58

/-- The words that are evidence by themselves. -/
def failureWords : List String :=
  ["error", "fail", "panic", "exception", "traceback", "fatal", "assert", "conflict", "contradict"]

def staleTrue : Pattern UInt8 :=
  .inOrder [foldedText "stale\"", separated isColon, foldedText "true"]

def isErrorTrue : Pattern UInt8 :=
  .inOrder [foldedText "\"is", .opt (foldedText "_"), foldedText "error\"", separated isColon,
    foldedText "true"]

def statusFalse : Pattern UInt8 :=
  .inOrder [foldedText "\"", .anyOf (["ok", "passed", "success"].map foldedText), foldedText "\"",
    separated isColon, foldedText "false"]

def exitCode : Pattern UInt8 :=
  .inOrder [foldedText "exit", .opt (.one fun c => c = 95 ∨ c = 32),
    .anyOf (["code", "status"].map foldedText), .opt (foldedText "\""),
    separated fun c => c = 58 ∨ c = 61, .one fun c => 49 ≤ c ∧ c ≤ 57]

/-- Failure evidence that must survive reduction. -/
def salient : Pattern UInt8 :=
  .anyOf (failureWords.map foldedText ++ [staleTrue, isErrorTrue, statusFalse, exitCode])

/-! ### Confirmation windows -/

def salientKeywords : List Bytes :=
  (failureWords ++ ["stale", "false", "exit"]).map ascii

def salientWindow : Nat := 64

def maxSeparatorRun : Nat := 64 * 1024

/-- White space, `:`, `=` and `"`. -/
def isSeparator : Bool :=
  c = 32 ∨ c = 9 ∨ c = 10 ∨ c = 13 ∨ c = 58 ∨ c = 61 ∨ c = 34

def isIdentifier : Bool :=
  c = 95 ∨ (97 ≤ c ∧ c ≤ 122) ∨ (65 ≤ c ∧ c ≤ 90) ∨ (48 ≤ c ∧ c ≤ 57)

variable (src : Bytes)

def leftRun (i : Nat) : Nat := ((src.take i).reverse.takeWhile isSeparator).length

def rightRun (i : Nat) : Nat := ((src.drop i).takeWhile isSeparator).length

/-- The rest of an identifier, up to 16 bytes of it. -/
def identifierRun (i : Nat) : Nat :=
  (((src.drop i).take 16).takeWhile isIdentifier).length

/-- The window around a keyword at `ks..ke`: some bytes beyond the separators on each side, or
nothing next to too many of them. -/
def confirmWindow (ks ke : Nat) : Option (Nat × Nat) :=
  let word := ke + identifierRun src ke
  if leftRun src ks > maxSeparatorRun ∨ rightRun src word > maxSeparatorRun then none
  else some (ks - leftRun src ks - salientWindow,
    min (word + rightRun src word + salientWindow) src.length)

/-- The bytes of a window. -/
def read (w : Nat × Nat) : Bytes := (src.drop w.1).take (w.2 - w.1)

/-! ### Detection -/

/-- Why a search ends before its end: it has enough hits, or a window was refused. -/
inductive Halt
  | enough (hits : List Nat)
  | separatorRun

/-- Confirm the candidates of a keyword from offset `h` of a chunk on, where `rest` remains of the
chunk in lower case and the next `skip` bytes of it belong to the last candidate. -/
def confirmFrom (src : Bytes) (base : Nat) (kw : Bytes) (limit : Nat) :
    Nat → Nat → Bytes → List Nat → Except Halt (List Nat)
  | _, _, [], hits => .ok hits
  | skip + 1, h, _ :: rest, hits => confirmFrom src base kw limit skip (h + 1) rest hits
  | 0, h, c :: rest, hits =>
    if kw <+: c :: rest then
      match confirmWindow src (base + h) (base + h + kw.length) with
      | none => .error .separatorRun
      | some w =>
        if salient.found (read src w) then
          if limit ≤ hits.length + 1 then .error (.enough (hits ++ [h]))
          else confirmFrom src base kw limit (kw.length - 1) (h + 1) rest (hits ++ [h])
        else confirmFrom src base kw limit (kw.length - 1) (h + 1) rest hits
    else confirmFrom src base kw limit 0 (h + 1) rest hits

/-- The offsets in the chunk `b`, which starts at `base`, of candidates that are confirmed, or
nothing if one of them is refused. -/
def salientHits (base : Nat) (b : Bytes) (limit : Nat) : Option (List Nat) :=
  match salientKeywords.foldlM
      (fun hits kw => confirmFrom src base kw limit 0 0 (b.map asciiLower) hits) [] with
  | .ok hits => some hits
  | .error (.enough hits) => some hits
  | .error .separatorRun => none

/-- Whether a text holds failure evidence, or nothing if the search refuses it. -/
def salientMatch (b : Bytes) : Option Bool := (salientHits b 0 b 1).map fun hits => !hits.isEmpty

/-- The search in chunks from `off` on. The fuel is the number of chunks at most. -/
def scanFrom (src : Bytes) (chunk overlap limit : Nat) : Nat → Nat → List Nat → Option (List Nat)
  | 0, _, positions => some positions
  | fuel + 1, off, positions =>
    if src.length ≤ off then some positions
    else
      let stop := min src.length (off + chunk)
      match salientHits src off (read src (off, stop)) limit with
      | none => none
      | some hits =>
        let positions' := positions ++ hits.map (off + ·)
        if limit ≤ positions'.length then none
        else if stop = src.length then some positions'
        else scanFrom src chunk overlap limit fuel (off + (chunk - overlap)) positions'

def chunkSize : Nat := 1024 * 1024

def chunkOverlap : Nat := 2 * salientWindow

/-- The positions of failure evidence in a document, or nothing if the search refuses a candidate or
finds more than it may record. -/
def scanSalient (maxSalientPositions : Nat) : Option (List Nat) :=
  (scanFrom src chunkSize chunkOverlap maxSalientPositions src.length 0 []).map
    fun positions => positions.mergeSort

end Evidence
