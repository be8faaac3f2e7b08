import XMustard.Program.Basic
import XMustard.Table.Basic
import XMustard.Text.Unicode
import XMustard.Store.Schema

/-!
# Write transactions

A write transaction works on the database and collects the entries whose votes or state it
changed. Its statements are the store's own: each is checked against the constraints and triggers
of the schema and either fails as a whole or takes effect. `update` runs a callback in a
transaction and commits what it leaves, provided the callback succeeded and no collected entry is
labelled `peer_verified` without the approvals that label stands for.
-/

namespace GovStore

open Text Program

/-! ### Errors -/

/-- The sentinel errors of the store, and those of the callbacks that run in its transactions. -/
inductive ErrorKind
  | notFound | conflict | invalid | noChange | invariant | appendOnly | invalidEntry
  | sameOwner | notEntryAuthor | readonlyVerified | verifierRequired | approverRequired | policy
  deriving DecidableEq

/-- A failed compare-and-set on an entry's revision. -/
structure ConflictError where
  entryId : String
  baseRevision : Int
  currentRevision : Int
  currentDigest : String
  headRevision : Int
  reason : String
  deriving DecidableEq

/-- An error: a sentinel with the format of its text, or a revision conflict. -/
inductive Err
  | fault (kind : ErrorKind) (text : String)
  | stale (c : ConflictError)
  deriving DecidableEq

def Err.kind : Err → ErrorKind
  | .fault k _ => k
  | .stale _ => .conflict

def invalid (text : String) : Err := .fault .invalid text

/-! ### Transactions -/

/-- The state of a write transaction. -/
structure Txn where
  db : Db
  touched : List String
  touchedAll : Bool

abbrev Tx (α : Type) := Program Txn Err α

/-- How many entries a transaction tracks before it falls back to checking all of them. -/
def maxTouched : Nat := 1024

def Txn.touch (t : Txn) (id : String) : Txn :=
  if t.touchedAll then t
  else if t.touched.length ≥ maxTouched then { t with touched := [], touchedAll := true }
  else if id ∈ t.touched then t
  else { t with touched := id :: t.touched }

def touch (id : String) : Tx Unit := write (·.touch id)

/-- The commit checks the entry of this id. -/
def Txn.covers (t : Txn) (id : String) : Prop := t.touchedAll ∨ id ∈ t.touched

/-- Run a statement on the database. -/
def execDb (f : Db → Except Err Db) : Tx Unit :=
  exec fun t => (f t.db).map fun db => { t with db := db }

/-- A statement on the database that no constraint can stop. -/
def writeDb (f : Db → Db) : Tx Unit := write fun t => { t with db := f t.db }

def queryDb {α : Type} (f : Db → Except Err α) : Tx α := query fun t => f t.db

/-- Read a value that is always there. -/
def readDb {α : Type} (f : Db → α) : Tx α := query fun t => .ok (f t.db)

/-! ### Validation -/

def maxNameLen : Nat := 256
def maxNoteLen : Nat := 16 * 1024
def maxPathLen : Nat := 1024
def maxIdLen : Nat := 200
def maxListLimit : Nat := 1000
def defaultListLimit : Nat := 100

def openModeIdentity : String := "anonymous"

def hasNul (s : String) : Bool := s.toList.contains '\x00'

def idChar (c : Char) : Bool :=
  ('A' ≤ c && c ≤ 'Z') || ('a' ≤ c && c ≤ 'z') || ('0' ≤ c && c ≤ '9') || c == '_' || c == '.'
    || c == ':' || c == '@' || c == '-'

def hasDotDot (l : List Char) : Bool := (l.zip l.tail).any fun p => p.1 == '.' && p.2 == '.'

def idOk (id : String) : Bool :=
  id != "" && id.utf8ByteSize ≤ maxIdLen && !hasDotDot id.toList && id.toList.all idChar

def validId (id : String) : Tx Unit := ensure (idOk id) (invalid "%s id %q")

def nameOk (s : String) : Bool := s.utf8ByteSize ≤ maxNameLen && !hasNul s

def validName (s : String) : Tx Unit := ensure (nameOk s) (invalid "%s is malformed")

/-- How principals are compared. -/
@[irreducible] def principalKey (p : String) : String := toLowerString (trimSpace p)

def clampLimit (n : Int) : Nat :=
  if n ≤ 0 then defaultListLimit else if n > maxListLimit then maxListLimit else n.toNat

/-- A caller-supplied time text: empty, not RFC 3339, or the instant it denotes. -/
inductive TimeText
  | unset | malformed | instant (t : Time)
  deriving DecidableEq

def inputTime : TimeText → Tx (Option Time)
  | .unset => pure none
  | .malformed => throw (invalid "%s %q is not RFC 3339")
  | .instant t => pure (some t)

/-- Who performs a write and the repository state it saw. -/
structure Actor where
  principal : String
  owner : String := ""
  kind : String := ""
  sessionId : String := ""
  agentId : String := ""
  headSha : String := ""
  branch : String := ""
  dirty : Option Bool := none
  note : String := ""
  callId : String := ""
  runId : String := ""
  evidence : List String := []
  approval : String := ""

def Actor.ok (a : Actor) : Bool :=
  trimSpace a.principal != "" && a.principal.utf8ByteSize ≤ maxNameLen && !hasNul a.principal

def Actor.validate (a : Actor) : Tx Unit := do
  ensure (trimSpace a.principal ≠ "") (invalid "actor principal is required")
  ensure (a.principal.utf8ByteSize ≤ maxNameLen ∧ !hasNul a.principal)
    (invalid "actor principal is malformed")

/-- The event record of an actor's provenance. -/
def Actor.provenance (a : Actor) : Option Provenance :=
  if a.owner = "" ∧ a.kind = "" ∧ a.callId = "" ∧ a.runId = "" ∧ a.approval = ""
      ∧ a.evidence = [] then none
  else some ⟨a.owner, a.kind, a.callId, a.runId, a.approval, a.evidence⟩

end GovStore
