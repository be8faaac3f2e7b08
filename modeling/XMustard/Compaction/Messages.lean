import XMustard.Text.JsonText

/-!
# Message arrays

The messages of a history in one of two wire formats. A message is read for its tool calls, its tool
results and the texts of the user, and a replacement is written back into it. A message that nothing
was replaced in is written exactly as it came in.
-/

namespace Compaction

open Text JsonText

/-- A message as it came in: a JSON text, or bytes that are none. -/
inductive RawMessage
  | json (pad : Pad) (text : JsonText)
  | invalid (bytes : Bytes)

def RawMessage.bytes : RawMessage → Bytes
  | .json pad text => pad.around text.render
  | .invalid bytes => bytes

inductive Format
  | anthropic | pi
  deriving DecidableEq

/-- Where a result or a text block is: a message, and a content block in it unless it is the whole
content of the message. -/
structure Loc where
  msg : Nat
  block : Option Nat
  deriving DecidableEq

structure Call where
  id : Chars
  name : Chars
  input : Fields
  place : Loc

structure Result where
  id : Chars
  name : Chars
  isError : Bool
  content : Option JsonText
  place : Loc

/-- The text of the user in one block. -/
structure TextBlock where
  text : Chars
  place : Loc

/-- What a format found, in message order. -/
structure Transcript where
  calls : List Call := []
  results : List Result := []
  texts : List TextBlock := []

structure Block where
  raw : JsonText
  decoded : Fields

structure Message where
  raw : RawMessage
  fields : Fields
  blocks : Option (List Block)
  dirty : Bool := false

/-! ### Reading -/

def decodeBlock (t : JsonText) : Block := ⟨t, t.fields⟩

/-- The content blocks, if the content is an array. -/
def contentBlocks (content : Option JsonText) : Option (List Block) :=
  match content with
  | some (.array _ items) => some (items.map fun i => decodeBlock i.2)
  | _ => none

/-- Read a message, which must be an object. -/
def parseMessage (raw : RawMessage) : Option Message :=
  match raw with
  | .json _ (.object pad members) =>
    let fields := (JsonText.object pad members).fields
    some { raw, fields, blocks := contentBlocks (member fields "content".toList) }
  | _ => none

/-- A member that is a string; empty if there is none. -/
def str (fs : Fields) (name : String) : Chars :=
  match member fs name.toList with
  | some (.string ps) => read ps
  | _ => []

def boolean (fs : Fields) (name : String) : Bool :=
  match member fs name.toList with
  | some (.bool b) => b
  | _ => false

def decodeInput (raw : Option JsonText) : Fields :=
  match raw with
  | some t => t.fields
  | none => []

variable (m : Message)

/-- The blocks of a message with their positions. -/
def Message.numbered : List (Block × Nat) := (m.blocks.getD []).zipIdx

/-- The text blocks of a message, or its content if that is a string. -/
def userTexts (i : Nat) (m : Message) : List TextBlock :=
  match m.blocks with
  | none =>
    match member m.fields "content".toList with
    | some (.string ps) => [⟨read ps, ⟨i, none⟩⟩]
    | some .null => [⟨[], ⟨i, none⟩⟩]
    | _ => []
  | some _ =>
    (m.numbered.filter fun b => str b.1.decoded "type" = "text".toList).map fun b =>
      ⟨str b.1.decoded "text", ⟨i, some b.2⟩⟩

/-- The calls in the blocks of a message. -/
def callsIn (i : Nat) (m : Message) (type input : String) : List Call :=
  (m.numbered.filter fun b => str b.1.decoded "type" = type.toList).map fun b =>
    ⟨str b.1.decoded "id", str b.1.decoded "name", decodeInput (member b.1.decoded input.toList),
      ⟨i, some b.2⟩⟩

/-- The results in the blocks of a message of the Anthropic format. -/
def resultsIn (i : Nat) (m : Message) : List Result :=
  (m.numbered.filter fun b => str b.1.decoded "type" = "tool_result".toList).map fun b =>
    ⟨str b.1.decoded "tool_use_id", [], boolean b.1.decoded "is_error",
      member b.1.decoded "content".toList, ⟨i, some b.2⟩⟩

/-- The result that a message of the Pi format is. -/
def resultOf (i : Nat) (m : Message) : Result :=
  ⟨str m.fields "toolCallId", str m.fields "toolName", boolean m.fields "isError",
    member m.fields "content".toList, ⟨i, none⟩⟩

def scanMessage (f : Format) (i : Nat) (m : Message) : Transcript :=
  let role := str m.fields "role"
  match f with
  | .anthropic =>
    { calls := if role = "assistant".toList then callsIn i m "tool_use" "input" else []
      results := if role = "user".toList then resultsIn i m else []
      texts := if role = "user".toList then userTexts i m else [] }
  | .pi =>
    { calls := if role = "assistant".toList then callsIn i m "toolCall" "arguments" else []
      results := if role = "toolResult".toList then [resultOf i m] else []
      texts := if role = "user".toList then userTexts i m else [] }

/-- What a format finds in the messages from position `i` on. -/
def scanFrom (f : Format) : Nat → List Message → Transcript
  | _, [] => {}
  | i, m :: ms =>
    let t := scanMessage f i m
    let rest := scanFrom f (i + 1) ms
    ⟨t.calls ++ rest.calls, t.results ++ rest.results, t.texts ++ rest.texts⟩

def scan (f : Format) (ms : List Message) : Transcript := scanFrom f 0 ms

/-! ### Writing -/

/-- Replace a block. -/
def Message.setBlock (j : Nat) (fs : Fields) : Message :=
  { m with blocks := m.blocks.map fun bs => bs.set j ⟨ofFields fs, fs⟩, dirty := true }

/-- The members of a block. -/
def Message.block (j : Nat) : Fields :=
  match (m.blocks.getD [])[j]? with
  | some b => b.decoded
  | none => []

/-- Replace the content. -/
def Message.setContent (v : JsonText) : Message :=
  { m with fields := setField "content".toList v m.fields, dirty := true }

/-- Content made of one text block, in the shape of the content it replaces: a string stays one. -/
def textContent (original : Option JsonText) (text : Chars) : JsonText :=
  match original with
  | some (.string _) => ofChars text
  | _ => ofList [ofFields [("text".toList, ofChars text), ("type".toList, ofChars "text".toList)]]

/-- Replace the text block, or the string content, at a place. -/
def setText (block : Option Nat) (text : Chars) : Message :=
  match block with
  | none => m.setContent (ofChars text)
  | some j => m.setBlock j (setField "text".toList (ofChars text) (m.block j))

/-- Replace the content of the result at a place. -/
def setResult (f : Format) (m : Message) (block : Option Nat) (text : Chars) : Message :=
  match f, block with
  | .anthropic, some j =>
    m.setBlock j (setField "content".toList
      (textContent (member (m.block j) "content".toList) text) (m.block j))
  | .anthropic, none => m
  | .pi, _ =>
    -- the content of the message is replaced whole
    { m with blocks := none }.setContent (textContent (member m.fields "content".toList) text)

/-- The message as it is written: as it came in when nothing was replaced. -/
def Message.encode : RawMessage :=
  if m.dirty then
    .json {} (ofFields (match m.blocks with
      | some bs => setField "content".toList (ofList (bs.map Block.raw)) m.fields
      | none => m.fields))
  else m.raw

end Compaction
