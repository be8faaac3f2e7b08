import XMustard.Compaction.Messages
import XMustard.Text.JsonRead
import XMustard.Text.Pieces

/-!
# Planner results

Todo and plan tools send the whole list on every call. An old planner result is described by what it
changed: the todos it added, removed, completed, reopened or made ready, against the list before it.
-/

namespace Compaction

open Text JsonText

/-- One tool call and its result. -/
structure Exchange where
  call : Call
  result : Result
  text : Chars
  images : Nat

/-- What other packages say: the summary of a result that is no planner's, and the scan for
instruction-like text. -/
structure Services where
  summarize : Exchange → Chars
  clean : Chars → Bool
  flags : Chars → List Chars
  quarantine : Chars → Chars

/-! ### Texts -/

def decimal (n : Nat) : Chars := Nat.toDigits 10 n

def joined (sep : String) (parts : List Chars) : Chars := sep.toList.intercalate parts

def firstNonEmpty (vals : List Chars) : Chars := (vals.find? fun v => !v.isEmpty).getD []

/-- The text with a label before it, unless it is empty. -/
def prefixed (label : String) (s : Chars) : Chars := if s.isEmpty then [] else label.toList ++ s

variable (sv : Services)

/-- Make a text quotable: one line, of at most `n` characters, that opens no frame. -/
def cleanText (s : Chars) (n : Nat) : Chars :=
  let s := joined " " (Text.fields isSpace s)
  if s.isEmpty || !sv.clean s then []
  else
    let s := if s.length > n then s.take n ++ "…".toList else s
    s.map fun c => if c = '<' then '‹' else c

variable (x : Exchange)

/-- The tool's name, from the call or else from the result. -/
def toolName : Chars := if x.call.name.isEmpty then x.result.name else x.call.name

/-- Drop all up to the last double underscore. -/
def dropNamespace (t : Chars) : Chars :=
  match (t.tails.filter fun s => "__".toList.isPrefixOf s).getLast? with
  | some s => s.drop 2
  | none => t

def normalizeTool (name : Chars) : Chars := dropNamespace ((trimSpaceList name).map toLower)

/-! ### JSON values -/

variable (v : Option JsonText)

def anyString : Chars :=
  match v with
  | some (.string ps) => trimSpaceList (read ps)
  | _ => []

def truthy : Bool :=
  match v with
  | some (.bool b) => b
  | _ => false

def asSlice : List JsonText :=
  match v with
  | some (.array _ items) => items.map Prod.snd
  | _ => []

/-- The first value that is an object with members. -/
def firstMap (vals : List (Option JsonText)) : Fields :=
  ((vals.map decodeInput).find? fun fs => !fs.isEmpty).getD []

/-- The first value that is a list with items. -/
def firstPresent (vals : List (Option JsonText)) : List JsonText :=
  ((vals.map asSlice).find? fun l => !l.isEmpty).getD []

/-! ### The state of a planner exchange -/

structure Todo where
  id : Chars
  content : Chars
  status : Chars
  ready : Bool

def decodeTodo (t : JsonText) : Option Todo :=
  match t with
  | .object pad members =>
    let m := (JsonText.object pad members).fields
    some ⟨anyString (member m "id".toList),
      firstNonEmpty [anyString (member m "content".toList), anyString (member m "step".toList)],
      (anyString (member m "status".toList)).map toLower, truthy (member m "ready".toList)⟩
  | _ => none

def decodeTodos (items : List JsonText) : List Todo := items.filterMap decodeTodo

structure PlannerState where
  plan : Fields
  todos : List Todo
  /-- The list before the call, when the result reports it. -/
  original : Option (List Todo)
  next : Fields

inductive PlannerTool
  | todoWrite | todoRead | createPlan | readProject | updateProject | updatePlan

/-- The planner tool of a name, without underscores. -/
def plannerTool (key : Chars) : Option PlannerTool :=
  if key = "todowrite".toList then some .todoWrite
  else if key = "todoread".toList then some .todoRead
  else if key = "createplan".toList then some .createPlan
  else if key = "readproject".toList then some .readProject
  else if key = "updateproject".toList then some .updateProject
  else if key = "updateplan".toList then some .updatePlan
  else none

def plannerKey (name : Chars) : Chars := (normalizeTool name).filter (· ≠ '_')

/-- The planner tool of an exchange, unless the call failed. -/
def Exchange.planner : Option PlannerTool :=
  if x.result.isError then none else plannerTool (plannerKey (toolName x))

/-- The payload of a result, if that is an object. -/
def payloadOf : Fields := parseFields x.text

def plannerStateOf : PlannerState :=
  let p := payloadOf x
  let structured := decodeInput (member p "structured".toList)
  let attachments := decodeInput (member p "attachments".toList)
  let plan := firstMap [member structured "updated_plan".toList, member structured "plan".toList]
  let original := firstPresent [member attachments "original_todos".toList,
    member structured "initial_todos".toList]
  { plan
    todos := decodeTodos (firstPresent [member structured "final_todos".toList,
      member structured "todos".toList, member attachments "updated_todos".toList,
      member plan "todos".toList, member x.call.input "todos".toList,
      member x.call.input "plan".toList])
    original := if original.isEmpty then none else some (decodeTodos original)
    next := decodeInput (member structured "next_action".toList) }

/-! ### Its summary -/

inductive Group
  | completed | inProgress | pending
  deriving DecidableEq

def group (status : Chars) : Group :=
  if status = "completed".toList ∨ status = "done".toList then .completed
  else if status = "in_progress".toList ∨ status = "in-progress".toList then .inProgress
  else .pending

def Todo.completed (t : Todo) : Bool := group t.status = .completed

/-- A count with a text around it, unless it is zero. -/
def counted (before : String) (n : Nat) (after : String) : List Chars :=
  if n = 0 then [] else [before.toList ++ decimal n ++ after.toList]

variable (s : PlannerState)

def PlannerState.collection : Chars :=
  if s.todos.isEmpty then "0 todos".toList
  else
    let inGroup (g : Group) := s.todos.countP fun t => group t.status = g
    joined ", " ((decimal s.todos.length ++ " todos".toList)
      :: (counted "" (s.todos.countP Todo.ready) " ready"
        ++ counted "" (inGroup .inProgress) " in progress"
        ++ counted "" (inGroup .completed) " completed"
        ++ counted "" (inGroup .pending) " pending"))

def todoKey (t : Todo) (i : Nat) : Chars :=
  if !t.id.isEmpty then "id:".toList ++ t.id
  else if !t.content.isEmpty then "content:".toList ++ t.content
  else "index:".toList ++ decimal i

/-- The todos by their keys; the last of a key counts. -/
def todoIndex (ts : List Todo) : List (Chars × Todo) :=
  ts.zipIdx.foldl (fun m t => (todoKey t.1 t.2, t.1) :: m.filter fun e => e.1 ≠ todoKey t.1 t.2) []

def todoAt (m : List (Chars × Todo)) (k : Chars) : Option Todo :=
  (m.find? fun e => e.1 = k).map Prod.snd

/-- What the list changed against the one before the call. -/
def PlannerState.delta (prev : Option PlannerState) : Chars :=
  let before := s.original.getD ((prev.map PlannerState.todos).getD [])
  if before.isEmpty && s.todos.isEmpty then []
  else
    let was := todoIndex before
    let now := todoIndex s.todos
    let counts (p : Option Todo → Todo → Bool) := now.countP fun e => p (todoAt was e.1) e.2
    let parts :=
      counted "+" (counts fun p _ => p.isNone) " added"
        ++ counted "-" (was.countP fun e => (todoAt now e.1).isNone) " removed"
        ++ counted "" (counts fun p t => !(p.any Todo.completed) && t.completed) " completed"
        ++ counted "" (counts fun p t => p.any Todo.completed && !t.completed) " reopened"
        ++ counted "" (counts fun p t => !(p.any Todo.ready) && t.ready) " newly ready"
    if parts.isEmpty then "todo set unchanged".toList else joined ", " parts

def PlannerState.nextAction : Chars :=
  let head := firstNonEmpty
    [prefixed "next " (cleanText sv (anyString (member s.next "title".toList)) 80),
      prefixed "next_action " (cleanText sv (anyString (member s.next "type".toList)) 40)]
  let tool := cleanText sv (anyString (member s.next "recommended_tool".toList)) 40
  if head.isEmpty || tool.isEmpty then head else head ++ " via ".toList ++ tool

def planSummary (plan : Fields) : Chars :=
  let title := cleanText sv
    (firstNonEmpty [anyString (member plan "title".toList),
      anyString (member plan "summary".toList)]) 72
  let label := if title.isEmpty then "planner state".toList else "plan \"".toList ++ title ++ ['"']
  let parts := ["steps", "phases", "todos"].flatMap fun name =>
    counted "" (asSlice (member plan name.toList)).length (" " ++ name)
  joined ", " (label :: parts)

/-- The parts of the summary of a planner tool's state, given the state before it. -/
def PlannerTool.parts (prev : Option PlannerState) :
    PlannerTool → List Chars
  | .todoWrite => ["todo_write updated todos".toList, s.delta prev, s.collection, s.nextAction sv]
  | .todoRead => ["todo_read snapshot".toList, s.collection, s.nextAction sv]
  | .createPlan =>
    ["create_plan stored ".toList ++ planSummary sv s.plan, s.collection, s.nextAction sv]
  | .readProject =>
    ["read_project snapshot".toList, planSummary sv s.plan, s.collection, s.nextAction sv]
  | .updateProject =>
    ["update_project refreshed ".toList ++ planSummary sv s.plan, s.delta prev, s.collection,
      s.nextAction sv]
  | .updatePlan => ["update_plan updated the plan".toList, s.delta prev, s.collection]

/-- The summary of a planner exchange, given the planner state before it. -/
def plannerSummary (tool : PlannerTool) (s : PlannerState) (prev : Option PlannerState) : Chars :=
  joined "; " (((tool.parts sv s prev).map trimSpaceList).filter fun p => !p.isEmpty)

end Compaction
