import XMustard.Evidence.Salience
import XMustard.Text.Json

/-!
# Scanning a JSON document

The reducer of JSON documents works on byte offsets into the original. One pass over the document
checks that its brackets are balanced, records where large containers end and finds the failure
evidence. After it the children of a container are listed by their spans.
-/

namespace Evidence

open Text Text.Json

inductive ReduceErr
  | hardCap | tooDeep | malformed | unsupported
  deriving DecidableEq

def maxNesting : Nat := 512

def indexThreshold : Nat := 4 * 1024

def maxSpans : Nat := 4096

/-! ### Values -/

def skipWS (src : Bytes) (i : Nat) : Nat := i + ((src.drop i).takeWhile isBlank).length

/-- The bytes of a string after its opening quote, with the closing one. A byte after a backslash is
passed over. -/
def stringEndFrom : Bool → Bytes → Option Nat
  | _, [] => none
  | true, _ :: rest => (stringEndFrom false rest).map (· + 1)
  | false, c :: rest =>
    if c = 92 then (stringEndFrom true rest).map (· + 1)
    else if c = 34 then some 1
    else (stringEndFrom false rest).map (· + 1)

def stringEnd (rest : Bytes) : Option Nat := stringEndFrom false rest

def skipString (src : Bytes) (i : Nat) : Option Nat :=
  (stringEnd (src.drop (i + 1))).map (i + 1 + ·)

def isOpening (c : UInt8) : Bool := c = 123 ∨ c = 91

def isClosing (c : UInt8) : Bool := c = 125 ∨ c = 93

/-- The bytes of a container, inside `depth` brackets of it. The next `skip` bytes are in a string.
-/
def containerEnd : Nat → Nat → Bytes → Option Nat
  | _, _, [] => none
  | skip + 1, depth, _ :: rest => (containerEnd skip depth rest).map (· + 1)
  | 0, depth, c :: rest =>
    if c = 34 then
      match stringEnd rest with
      | none => none
      | some k => (containerEnd k depth rest).map (· + 1)
    else if isOpening c then (containerEnd 0 (depth + 1) rest).map (· + 1)
    else if isClosing c then
      if depth = 1 then some 1 else (containerEnd 0 (depth - 1) rest).map (· + 1)
    else (containerEnd 0 depth rest).map (· + 1)

/-- What ends a number or a name. -/
def isDelimiter (c : UInt8) : Bool := c = 44 ∨ c = 125 ∨ c = 93 ∨ isBlank c

/-- The end of the value at `i`. The ends of large containers are known. -/
def skipValue (ends : List (Nat × Nat)) (src : Bytes) (i : Nat) : Option Nat :=
  match src[i]? with
  | none => none
  | some c =>
    match ends.lookup i with
    | some stop => some stop
    | none =>
      if c = 34 then skipString src i
      else if isOpening c then (containerEnd 0 0 (src.drop i)).map (i + ·)
      else some (i + ((src.drop i).takeWhile fun c => !isDelimiter c).length)

/-! ### The pass over the document -/

/-- Record where containers end, from offset `i` on, where `rest` remains and the brackets at
`stack` are open. -/
def indexFrom : Nat → Nat → List Nat → List (Nat × Nat) → Bytes
      → Except ReduceErr (List (Nat × Nat))
  | _, _, stack, ends, [] => if stack = [] then .ok ends else .error .malformed
  | skip + 1, i, stack, ends, _ :: rest => indexFrom skip (i + 1) stack ends rest
  | 0, i, stack, ends, c :: rest =>
    if c = 34 then
      match stringEnd rest with
      | none => .error .malformed
      | some k => indexFrom k (i + 1) stack ends rest
    else if isOpening c then
      if stack.length ≥ maxNesting then .error .tooDeep
      else indexFrom 0 (i + 1) (i :: stack) ends rest
    else if isClosing c then
      match stack with
      | [] => .error .malformed
      | o :: stack =>
        indexFrom 0 (i + 1) stack
          (if i + 1 - o ≥ indexThreshold then (o, i + 1) :: ends else ends) rest
    else indexFrom 0 (i + 1) stack ends rest

/-- A document with what the pass over it records. -/
structure Source where
  src : Bytes
  ends : List (Nat × Nat)
  salientPos : List Nat

def index (src : Bytes) (maxSalientPositions : Nat) : Except ReduceErr Source :=
  match indexFrom 0 0 [] [] src with
  | .error e => .error e
  | .ok ends =>
    match scanSalient src maxSalientPositions with
    | none => .error .unsupported
    | some positions => .ok ⟨src, ends, positions⟩

variable (s : Source)

/-- Whether there is failure evidence in a span. -/
def Source.salientIn (a b : Nat) : Bool :=
  match s.salientPos.find? fun p => a ≤ p with
  | some p => p < b
  | none => false

/-- Up to `limit` positions of evidence in a span, more than `gap` apart. -/
def Source.salientRange (a b limit gap : Nat) : List Nat :=
  (s.salientPos.filter fun p => a ≤ p ∧ p < b).foldl
    (fun out p =>
      if out.length < limit ∧ ∀ q ∈ out.getLast?, p - q > gap then out ++ [p] else out) []

/-! ### Children -/

structure Span where
  start : Nat
  stop : Nat
  deriving DecidableEq

def Span.length (s : Span) : Nat := s.stop - s.start

structure MemberSpan where
  key : Span
  val : Span
  deriving DecidableEq

/-- The members from the key at `i` on: those that are recorded, and how many are not. -/
def membersFrom (s : Source) : Nat → Nat → List MemberSpan → Nat →
    Except ReduceErr (List MemberSpan × Nat)
  | 0, _, _, _ => .error .malformed
  | fuel + 1, i, out, extra =>
    match skipString s.src i with
    | none => .error .malformed
    | some ke =>
      let colon := skipWS s.src ke
      if s.src[colon]? ≠ some 58 then .error .malformed
      else
        let vs := skipWS s.src (colon + 1)
        match skipValue s.ends s.src vs with
        | none => .error .malformed
        | some ve =>
          let out' := if out.length < maxSpans then out ++ [⟨⟨i, ke⟩, ⟨vs, ve⟩⟩] else out
          let extra' := if out.length < maxSpans then extra else extra + 1
          let next := skipWS s.src ve
          if s.src[next]? = some 125 then .ok (out', extra')
          else if s.src[next]? ≠ some 44 then .error .malformed
          else membersFrom s fuel (skipWS s.src (next + 1)) out' extra'

def members (start : Nat) : Except ReduceErr (List MemberSpan × Nat) :=
  let i := skipWS s.src (start + 1)
  if s.src[i]? = some 125 then .ok ([], 0)
  else membersFrom s s.src.length i [] 0

/-- An element of an array with its position in it. -/
structure Element where
  span : Span
  index : Nat
  salient : Bool
  deriving DecidableEq

/-- What has been seen of the elements of an array. -/
structure Elements where
  out : List Element
  total : Nat
  salientBeyond : Nat
  salientAll : Nat
  salientKept : Nat

/-- Record an element: the first ones, and beyond them those with evidence. -/
def Elements.add (es : Elements) (span : Span) (salient : Bool) : Elements :=
  let e : Element := ⟨span, es.total, salient⟩
  let one := if salient then 1 else 0
  let es := { es with salientAll := es.salientAll + one }
  if es.total < maxSpans then
    { es with out := es.out ++ [e], salientKept := es.salientKept + one, total := es.total + 1 }
  else if salient ∧ es.salientBeyond < maxSpans then
    { es with out := es.out ++ [e], salientBeyond := es.salientBeyond + 1,
              salientKept := es.salientKept + 1, total := es.total + 1 }
  else { es with total := es.total + 1 }

def elementsFrom (s : Source) : Nat → Nat → Elements → Except ReduceErr Elements
  | 0, _, _ => .error .malformed
  | fuel + 1, i, es =>
    match skipValue s.ends s.src i with
    | none => .error .malformed
    | some ve =>
      let es := es.add ⟨i, ve⟩ (s.salientIn i ve)
      let next := skipWS s.src ve
      if s.src[next]? = some 93 then .ok es
      else if s.src[next]? ≠ some 44 then .error .malformed
      else elementsFrom s fuel (skipWS s.src (next + 1)) es

def elements (start : Nat) : Except ReduceErr Elements :=
  let i := skipWS s.src (start + 1)
  if s.src[i]? = some 93 then .ok ⟨[], 0, 0, 0, 0⟩
  else elementsFrom s s.src.length i ⟨[], 0, 0, 0, 0⟩

end Evidence
