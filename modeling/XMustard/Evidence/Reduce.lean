import Mathlib.Algebra.Order.Ring.Int
import XMustard.Evidence.JsonScan
import XMustard.Program.Along
import XMustard.Text.Unicode

/-!
# The reduction of JSON documents

A document larger than its target is projected to one of the same shape: small members and leading
elements stay, values with failure evidence are given a share of the room, large values are reduced
in turn, and what does not fit becomes a placeholder or is left out. The list of omissions that a
projection comes with is not modelled; nothing here reads it.
-/

namespace Evidence

open Text Text.Json Program

/-- The projection so far, and the slack beyond the target that mandatory values may still draw on.
-/
structure Projection where
  out : Bytes
  slack : Int

abbrev Reducer (α : Type) := Program Projection ReduceErr α

/-- The document and the parameters of a reduction. -/
structure Reduction where
  source : Source
  hardMax : Int
  keepStatus : Bool

variable (j : Reduction)

/-- Append to the projection unless that would pass the hard cap. -/
def write (b : Bytes) : Reducer Unit := do
  let st ← query (σ := Projection) .ok
  ensure ((st.out.length : Int) + b.length ≤ j.hardMax) .hardCap
  Program.write fun st => { st with out := st.out ++ b }

def readSpan (sp : Span) : Bytes := read j.source.src (sp.start, sp.stop)

/-- Draw on the slack. -/
def draw (n : Int) : Reducer Unit := do
  let st ← query (σ := Projection) .ok
  ensure (n ≤ st.slack) .hardCap
  Program.write fun st => { st with slack := st.slack - n }

/-! ### Strings -/

variable (src : Bytes)

/-- The number of backslashes that end at `p`. -/
def backslashRun (lo p : Nat) : Nat :=
  (((src.drop lo).take (p + 1 - lo)).reverse.takeWhile fun c => c = 92).length

/-- A cut before `pos` is inside an escape that starts `d` bytes before it. -/
def inEscape (lo pos d : Nat) : Bool :=
  d ≤ pos - lo && src[pos - d]? = some 92 && backslashRun src lo (pos - d) % 2 = 1
    && (d = 1 || src[pos - d + 1]? = some 117)

/-- A cut before `pos` is neither inside an escape nor inside a character. -/
def cutOK (lo pos : Nat) : Bool :=
  pos ≤ lo || (!(src[pos]?.any fun c => 0x80 ≤ c ∧ c < 0xC0)
    && [1, 2, 3, 4, 5].all fun d => !inEscape src lo pos d)

/-- Move a cut off an escape or character, for a number of tries. -/
def safeCut (src : Bytes) (lo : Nat) (forward : Bool) : Nat → Nat → Nat
  | 0, pos => pos
  | tries + 1, pos =>
    if cutOK src lo pos then pos
    else safeCut src lo forward tries (if forward then pos + 1 else pos - 1)

def decimal (n : Nat) : Bytes := (Nat.toDigits 10 n).map Char.toUInt8

def truncMarker (n : Nat) : Bytes :=
  [0xE2, 0x80, 0xA6] ++ ascii "[xmustard: " ++ decimal n ++ ascii " bytes omitted]"

/-- The length of the marker's format. -/
def truncMarkerLength : Int := 31

/-- Add a segment to those before it, the last first. -/
def mergeSegment (merged : List Span) (sg : Span) : List Span :=
  if sg.stop ≤ sg.start then merged
  else
    match merged with
    | [] => [sg]
    | last :: more =>
      if sg.start ≤ last.stop then ⟨last.start, max last.stop sg.stop⟩ :: more else sg :: merged

/-- The segments with markers for what is between them, from `prev` to `hi`. -/
def joinSegments (src : Bytes) (hi : Nat) : Nat → List Span → Bytes
  | prev, [] => if prev < hi then truncMarker (hi - prev) else []
  | prev, sg :: segs =>
    (if sg.start > prev then truncMarker (sg.start - prev) else [])
      ++ read src (sg.start, sg.stop) ++ joinSegments src hi sg.stop segs

/-- The segments of a string that are kept: its head, windows around failure evidence and its tail.
-/
def stringSegments (s : Source) (lo hi : Nat) (budget : Int) : List Span :=
  let room := (max (budget - 3 * truncMarkerLength - 2) 48).toNat
  let headLen := room / 3
  let tailLen := room / 6
  let winLen := room / 4
  ⟨lo, lo + headLen⟩
    :: (s.salientRange (lo + headLen) (hi - tailLen) 2 128).map
      (fun m => ⟨m - winLen / 4, m + winLen * 3 / 4⟩)
    ++ [⟨hi - tailLen, hi⟩]

/-- Clip a segment to the body and make its cuts safe. -/
def clipSegment (lo hi : Nat) (sg : Span) : Span :=
  ⟨safeCut src lo true 8 (max sg.start lo), safeCut src lo false 8 (min sg.stop hi)⟩

def reduceString (sp : Span) (budget : Int) : Reducer Unit :=
  let src := j.source.src
  let lo := sp.start + 1
  let hi := sp.stop - 1
  let segs := (stringSegments j.source lo hi budget).map (clipSegment src lo hi)
  let merged := (segs.foldl mergeSegment []).reverse
  Program.write fun st => { st with out := st.out ++ quoted (joinSegments src hi lo merged) }

/-! ### Objects -/

def placeholder (c : Option UInt8) : Bytes :=
  match c with
  | some 123 => ascii "\x7b\x7d"
  | some 91 => ascii "[]"
  | some 34 => ascii "\"\""
  | _ => ascii "null"

def statusKeys : List Bytes :=
  ["status", "state", "ok", "success", "succeeded", "error", "is_error", "iserror", "exit_code",
    "exitcode", "exit_status", "returncode", "return_code", "exitstatus", "code", "conclusion",
    "outcome", "passed", "failed", "interrupted", "timed_out", "timedout", "cancelled", "canceled",
    "truncated", "result", "status_code", "statuscode", "severity", "level"].map ascii

def isStatusKey (raw : Bytes) : Bool := raw.length ≤ 24 && statusKeys.contains (raw.map asciiLower)

variable (m : MemberSpan)

/-- The name of a member between its quotes. -/
def keyName : Bytes := read j.source.src (m.key.start + 1, m.key.stop - 1)

def MemberSpan.cost : Int := m.key.length + 2 + m.val.length

/-- Whether a member is kept whole, and else what share of the room it has. -/
inductive Plan
  | verbatim
  | share (n : Int)

/-- Keep scalar status members, drawing on the slack for those that do not fit. -/
def planStatus : Int → List MemberSpan → Reducer (Int × List Bool)
  | remaining, [] => return (remaining, [])
  | remaining, m :: ms => do
    let nested := (j.source.src[m.val.start]?).any isOpening
    if !j.keepStatus || nested || m.cost > 512 || !isStatusKey (keyName j m) then
      let rest ← planStatus remaining ms
      return (rest.1, false :: rest.2)
    else if m.cost > remaining then
      draw (m.cost - remaining)
      let rest ← planStatus 0 ms
      return (rest.1, true :: rest.2)
    else
      let rest ← planStatus (remaining - m.cost) ms
      return (rest.1, true :: rest.2)

/-- Keep small members while they fit, in document order. -/
def planSmall : Int → List (MemberSpan × Bool) → Int × List Bool
  | remaining, [] => (remaining, [])
  | remaining, (m, kept) :: ms =>
    if !kept && m.cost ≤ 512 && m.cost ≤ remaining then
      let rest := planSmall (remaining - m.cost) ms
      (rest.1, true :: rest.2)
    else
      let rest := planSmall remaining ms
      (rest.1, kept :: rest.2)

/-- A member that must not become a placeholder. -/
def isMandatory : Bool :=
  j.source.salientIn m.val.start m.val.stop || (j.keepStatus && isStatusKey (keyName j m))

/-- Give the other members an equal share, and mandatory ones at least 256 bytes of their cost. -/
def planShares (per : Int) : List (MemberSpan × Bool) → Reducer (List (MemberSpan × Plan))
  | [] => return []
  | (m, kept) :: ms => do
    if kept then
      let rest ← planShares per ms
      return (m, .verbatim) :: rest
    else if isMandatory j m then
      let want := max per (min 256 m.cost)
      when (want > per) (draw (want - per))
      let rest ← planShares per ms
      return (m, .share want) :: rest
    else
      let rest ← planShares per ms
      return (m, .share per) :: rest

/-- What happens to each member. -/
def planMembers (ms : List MemberSpan) (budget : Int) : Reducer (List (MemberSpan × Plan)) := do
  let status ← planStatus j (budget - 2) ms
  let small := planSmall status.1 (ms.zip status.2)
  let left := small.2.count false
  planShares j (small.1.tdiv left) (ms.zip small.2)

variable (child : Span → Int → Reducer Unit)

/-- Write a value as planned. -/
def writeValue (m : MemberSpan) : Plan → Reducer Unit
  | .verbatim => write j (readSpan j m.val)
  | .share n =>
    let share := n - m.key.length - 2
    if share ≥ 64 then child m.val share
    else write j (placeholder j.source.src[m.val.start]?)

def writeMembers (child : Span → Int → Reducer Unit) :
    Bool → List (MemberSpan × Plan) → Reducer Unit
  | _, [] => pure ()
  | first, (m, plan) :: ms => do
    when (!first) (write j [44])
    write j (readSpan j m.key)
    write j [58]
    writeValue j child m plan
    writeMembers child false ms

def reduceObject (sp : Span) (budget : Int) : Reducer Unit := do
  let ms ← query (σ := Projection) fun _ => (members j.source sp.start).map (·.1)
  let plans ← planMembers j ms budget
  let st ← query (σ := Projection) .ok
  let keyBytes : Int := (ms.map fun m => (m.key.length : Int) + 2).sum
  ensure ((st.out.length : Int) + keyBytes ≤ j.hardMax) .hardCap
  write j [123]
  writeMembers j child true plans
  write j [125]

/-! ### Arrays -/

def Element.size (e : Element) : Int := e.span.length + 1

/-- The budget of an element with failure evidence; `-1` keeps it whole. -/
def chooseSalient (per : Int) (e : Element) : Option Int :=
  if e.salient then some (if e.size ≤ per then -1 else per) else none

/-- Keep leading elements while they fit, up to the first that does not. -/
def chooseLeading : Int → List (Element × Option Int) → List (Option Int)
  | _, [] => []
  | remaining, (_, some b) :: es => some b :: chooseLeading remaining es
  | remaining, (e, none) :: es =>
    if e.size > remaining then none :: es.map (·.2)
    else some (-1) :: chooseLeading (remaining - e.size) es

/-- What the elements with failure evidence need. -/
def salientNeed (per : Int) (els : List Element) : Int :=
  ((els.filter (·.salient)).map fun e => if e.size ≤ per then e.size else per).sum

/-- The budget of each element that is kept. -/
def chooseElements (els : List Element) (remaining : Int) : Reducer (List (Option Int)) := do
  let count := els.countP (·.salient)
  let per := max 256 (remaining.tdiv count)
  let need := if count > 0 then salientNeed per els else 0
  when (need > remaining ∧ count > 0) (draw (need - remaining))
  let remaining := if need ≤ remaining then remaining - need else if count > 0 then 0 else remaining
  let chosen := chooseLeading remaining (els.map fun e => (e, chooseSalient per e))
  -- even the first element is too large
  return if chosen.all (·.isNone) then chosen.set 0 (some remaining) else chosen

def writeElement (e : Element) (budget : Int) : Reducer Unit :=
  if budget = -1 then write j (readSpan j e.span) else child e.span (max budget 64)

/-- Write the chosen elements in order. -/
def writeElements (child : Span → Int → Reducer Unit) :
    Bool → List (Element × Option Int) → Reducer Unit
  | _, [] => pure ()
  | first, (_, none) :: es => writeElements child first es
  | first, (e, some b) :: es => do
    when (!first) (write j [44])
    writeElement j child e b
    writeElements child false es

def reduceArray (sp : Span) (budget : Int) : Reducer Unit := do
  let es ← query (σ := Projection) fun _ => elements j.source sp.start
  ensure (es.salientAll - es.salientKept = 0) .hardCap
  let chosen ← chooseElements es.out (budget - 2)
  write j [91]
  writeElements j child true (es.out.zip chosen)
  write j [93]

/-! ### Documents -/

/-- Write the value in a span, into about `budget` bytes, `levels` nesting levels from the limit. -/
def reduce : Nat → Span → Int → Reducer Unit
  | 0, _, _ => throw .tooDeep
  | levels + 1, sp, budget => do
    let st ← query (σ := Projection) .ok
    ensure ((st.out.length : Int) ≤ j.hardMax) .hardCap
    if (sp.length : Int) ≤ budget then
      write j (readSpan j sp)
    else
      match j.source.src[sp.start]? with
      | some 123 => reduceObject j (reduce levels) sp budget
      | some 91 => reduceArray j (reduce levels) sp budget
      | some 34 => reduceString j sp budget
      | _ => write j (readSpan j sp)

/-- The projection of a JSON document. -/
def reduceJson (target max : Int) (keepStatus : Bool) (maxSalientPositions : Nat) :
    Except ReduceErr Bytes :=
  match index src maxSalientPositions with
  | .error e => .error e
  | .ok s =>
    let start := skipWS src 0
    match skipValue s.ends src start with
    | none => .error .malformed
    | some stop =>
      if skipWS src stop ≠ src.length then .error .malformed
      else
        match reduce ⟨s, max, keepStatus⟩ (maxNesting + 1) ⟨start, stop⟩ target
          ⟨[], max - target⟩ with
        | (.error e, _) => .error e
        | (.ok _, st) =>
          if (st.out.length : Int) ≤ max ∧ validUtf8 st.out then .ok st.out else .error .malformed

/-! ### Outputs of any content type -/

/-- How a projection was made. -/
inductive Mode
  | passthrough | json | text | unsupportedPassthrough
  deriving DecidableEq

/-- What an output looks like. -/
inductive Format
  | json | text | unsupported
  deriving DecidableEq

def binaryTypes : List String :=
  ["image/", "audio/", "video/", "application/octet-stream", "application/pdf"]

def declaredJson (contentType : String) : Bool :=
  "json".toList <:+: (toLowerString contentType).toList

/-- Up to a number of bytes less at the end, until the rest is valid. -/
def dropCutRune : Nat → Bytes → Bytes
  | 0, head => head
  | n + 1, head => if validUtf8 head then head else dropCutRune n head.dropLast

def classify (contentType : String) : Format :=
  let head := src.take 8192
  if binaryTypes.any fun p => p.toList <+: (toLowerString contentType).toList then .unsupported
  else if head.contains 0 then .unsupported
  else if !validUtf8 (dropCutRune 4 head) then .unsupported
  else
    match src[skipWS src 0]? with
    | some 123 => .json
    | some 91 => .json
    | _ => if declaredJson contentType then .unsupported else .text

/-- An output that no reduction fits, if it is text within the hard cap. -/
def wholeOutput (max : Int) : Except ReduceErr (Bytes × Mode) :=
  if (src.length : Int) > max || !validUtf8 src || src.contains 0 then .error .unsupported
  else .ok (src, .unsupportedPassthrough)

/-- The projection of an output, where `reduceText` is the one of plain text. -/
def reduceGeneric (reduceText : Bytes → Int → Int → Except ReduceErr Bytes) (src : Bytes)
    (contentType : String) (target max : Int) (keepStatus : Bool) (maxSalientPositions : Nat) :
    Except ReduceErr (Bytes × Mode) :=
  let target := min target max
  if (src.length : Int) ≤ target then
    if validUtf8 src then .ok (src, .passthrough) else .error .unsupported
  else
    let asText := (reduceText src target max).map fun out => (out, .text)
    match classify src contentType with
    | .text => asText
    | .unsupported => wholeOutput src max
    | .json =>
      match reduceJson src target max keepStatus maxSalientPositions with
      | .ok out => .ok (out, .json)
      | .error .hardCap => .error .unsupported
      | .error .unsupported => .error .unsupported
      | .error .tooDeep => wholeOutput src max
      -- not a document: never taken for text if it was declared to be one
      | .error .malformed => if declaredJson contentType then wholeOutput src max else asText

end Evidence
