import XMustard.Compaction.Frame

/-!
# Compacting again

A second pass over a compacted history changes nothing if the first pass changed nothing, or if it
brought the history down to the size that is let through. Otherwise it may replace a result that the
first pass left whole: the summary of a planner result depends on the planner result before it,
which may be a stub by then.
-/

namespace Compaction

open List Text JsonText

variable {f : Format} {ε : Type} {sv : Services} {estimate : Bytes → Nat} {ms : List Message}
  {msgs : List RawMessage} {r : Retainer ε} {opts : Options}

def plainServices : Services := ⟨fun _ => [], fun _ => true, fun _ => [], fun _ => []⟩

/-- A retainer that never fails. -/
def retainAll : Retainer Empty := fun originals => .ok (originals.map fun _ => ⟨[], [], [], 0, 0⟩)

def oneBlock (role : String) (block : Fields) : RawMessage :=
  .json {} (ofFields [("content".toList, ofList [ofFields block]),
    ("role".toList, ofChars role.toList)])

/-- A call that leaves one todo, with blanks after its result. -/
def todoWrite (id todo : String) (blanks : Nat) : List RawMessage :=
  [oneBlock "assistant"
    [("id".toList, ofChars id.toList), ("name".toList, ofChars "todo_write".toList),
      ("type".toList, ofChars "tool_use".toList)],
    oneBlock "user" [("content".toList,
      ofChars ("\x7b\"structured\":\x7b\"final_todos\":[\x7b\"id\":\"".toList ++ todo.toList
        ++ "\"\x7d]\x7d\x7d".toList ++ List.replicate blanks ' ')),
      ("tool_use_id".toList, ofChars id.toList), ("type".toList, ofChars "tool_result".toList)]]

/-- A pass over the todo lists that lets a history of so many bytes through. -/
def pass (triggerBytes : Int) (msgs : List RawMessage) : Outcome × Option (Failure Empty) :=
  compact plainServices (fun _ => 0) .anthropic msgs retainAll { minResultBytes := 1, triggerBytes }

end Compaction
