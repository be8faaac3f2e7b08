import XMustard.Store.Statements

/-!
# History, search index and duplicate postings

The writes that accompany nearly every other one: the event appended to the history, the row of
the full-text index, and the postings under which the served content is found as a duplicate.
-/

namespace GovStore

open Table Text

/-- How content is hashed: its digest, and its posting keys in a workspace. -/
structure Hashing where
  digest : String → String
  postings : String → String → List Nat

/-- What a write takes from outside the store: the hashing of content and the clock. -/
structure Env extends Hashing where
  now : Time

variable (env : Env)

/-! ### Events -/

/-- The subject kind that an event type names. -/
def EventType.subject : EventType → SubjectKind
  | .reviewRecord => .reviewRecord
  | .reviewFinding | .reviewTriage | .reviewReanchor => .reviewFinding
  | _ => .memory

/-- An event to append. The empty entry id names no entry, and revision 0 no revision. -/
structure EventRow where
  workspaceId : String
  entryId : String := ""
  subjectKind : SubjectKind := .memory
  type : EventType
  revision : Int := 0
  oldDigest : String := ""
  newDigest : String := ""
  note : String := ""
  data : Option (List (String × Value)) := none

def nullText (s : String) : Option String := if s = "" then none else some s

/-- The data of an event: the given fields with the actor's provenance. -/
def withProvenance (data : Option (List (String × Value))) (p : Option Provenance) :
    Option EventData :=
  match data, p with
  | none, none => none
  | d, p => some ⟨d.getD [], p⟩

/-- The row that an event is stored as; its `seq` is set by the insert. -/
def EventRow.event (ev : EventRow) (a : Actor) : Event where
  seq := 0
  workspaceId := ev.workspaceId
  entryId := nullText ev.entryId
  subjectKind := ev.subjectKind
  type := ev.type
  principal := trimSpace a.principal
  sessionId := a.sessionId
  agentId := a.agentId
  headSha := a.headSha
  revision := if ev.revision > 0 then some ev.revision else none
  oldDigest := ev.oldDigest
  newDigest := ev.newDigest
  note := nullText (if ev.note = "" then a.note else ev.note)
  data := withProvenance ev.data a.provenance
  redacted := false
  time := env.now

def insertEvent (a : Actor) (ev : EventRow) : Tx Nat := do
  Program.ensure (ev.subjectKind = ev.type.subject) (invalid "a %s event names a %s, not a %s")
  let seq ← readDb (·.nextSeq)
  execDb (Db.insertEvent (ev.event env a))
  return seq

def appendEvent (a : Actor) (ev : EventRow) : Tx Unit := do
  let _ ← insertEvent env a ev

/-- A caller-authored event. `none` as type is a text that names no event type. -/
structure EventInput where
  workspaceId : String
  entryId : String
  type : Option EventType
  revision : Int
  note : String
  data : Option (List (String × Value))

/-- The workspace a caller-authored event belongs to. -/
def eventWorkspace (i : EventInput) : Tx String := do
  if i.entryId = "" then
    return i.workspaceId
  let e ← liveEntry i.entryId
  Program.ensure (i.workspaceId = "" ∨ i.workspaceId = e.workspaceId)
    (invalid "entry %s is not in workspace %s")
  return e.workspaceId

def appendEventInput (a : Actor) (i : EventInput) : Tx Unit := do
  a.validate
  let ws ← eventWorkspace i
  validId ws
  match i.type with
  | none => throw (invalid "event type %q")
  | some type =>
    appendEvent env a
      { workspaceId := ws, entryId := i.entryId, type := type, revision := i.revision,
        note := i.note, data := i.data }

/-! ### Full-text index -/

def joinBody (description content : String) : String :=
  if description = "" then content else description ++ "\n" ++ content

def ftsPut (pk : Nat) (title body anchors : String) : Tx Unit :=
  writeDb fun db => { db with memoryFts := db.memoryFts ++ [⟨pk, title, body, anchors⟩] }

def ftsDelete (pk : Nat) : Tx Unit :=
  writeDb fun db => { db with memoryFts := delete (fun r => r.rowid = pk) db.memoryFts }

/-- Re-index an entry from its served revision and its anchors. -/
def refreshFts (id : String) : Tx Unit := do
  let e ← getEntry id
  let content ← readDb fun db => ((db.revisionRow id e.revision).bind (·.content)).getD ""
  let anchors ← readDb fun db => " ".intercalate ((db.anchorsOf id).map (·.value))
  ftsDelete e.pk
  if e.lifecycle ≠ .purged then
    ftsPut e.pk e.title (joinBody e.description content) anchors

/-! ### Duplicate postings -/

/-- The postings of an entry replaced by those of a content. -/
def Db.putDedupeKeys (pk : Nat) (keys : List Nat) (db : Db) : Db :=
  let kept := delete (fun k => k.entryPk = pk) db.dedupeKeys
  { db with dedupeKeys := kept ++ keys.eraseDups.map (⟨·, pk⟩) }

def putDedupeKeys (pk : Nat) (workspaceId content : String) : Tx Unit :=
  writeDb (Db.putDedupeKeys pk (env.postings workspaceId content))

end GovStore
