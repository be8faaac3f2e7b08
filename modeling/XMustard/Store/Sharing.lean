import XMustard.Store.Entries

/-!
# Collections, grants and applicability

Named sets of entries, the grants that let another workspace read them, and an entry's standing
in a target workspace.
-/

namespace GovStore

open Table Text Program

variable (env : Env)

structure CollectionInput where
  id : String
  name : String
  ownerWorkspace : String
  policy : Metadata

def getCollection (id : String) : Tx Collection :=
  queryDb fun db => match row (·.id) id db.collections with
    | some c => .ok c
    | none => .error (.fault .notFound "collection %s")

/-- Create a collection; `fresh` is the generated id used where the caller gives none. -/
def createCollection (fresh : String) (i : CollectionInput) (a : Actor) : Tx Unit := do
  a.validate
  let id := if i.id = "" then fresh else i.id
  validId id
  validId i.ownerWorkspace
  ensure (trimSpace i.name ≠ "" ∧ nameOk i.name) (invalid "collection name %q")
  validateMetadata i.policy
  execDb fun db =>
    if (row (·.id) id db.collections).isSome then
      .error (.fault .conflict "UNIQUE constraint failed: collections.id")
    else .ok { db with collections := db.collections ++
      [⟨id, trimSpace i.name, i.ownerWorkspace, i.policy, trimSpace a.principal, env.now⟩] }
  appendEvent env a
    { workspaceId := i.ownerWorkspace, type := .collection,
      data := some [("collection_id", .text id), ("name", .text i.name)] }

/-- An active grant that names the collection and is addressed to its owner or to nobody. -/
def Db.grantReaches (db : Db) (collectionId owner source : String) : Bool :=
  db.grants.any fun g => g.sourceWorkspace = source ∧ g.collectionId = some collectionId
    ∧ (g.targetWorkspace = owner ∨ g.targetWorkspace = "") ∧ g.revokedAt = none

/-- Put an entry into a collection; a repetition moves it to the end. -/
def addToCollection (collectionId entryId : String) (a : Actor) : Tx Bool := do
  a.validate
  let col ← getCollection collectionId
  let entry ← liveEntry entryId
  let reaches ← readDb (·.grantReaches collectionId col.ownerWorkspace entry.workspaceId)
  ensure (entry.workspaceId = col.ownerWorkspace ∨ reaches)
    (invalid "entry %s is in %s, which has no grant to %s naming collection %s")
  let here (m : CollectionMember) : Bool := m.collectionId = collectionId ∧ m.entryId = entryId
  let created ← readDb fun db => !db.members.any here
  let seq ← insertEvent env a
    { workspaceId := col.ownerWorkspace, entryId := entryId, type := .collectionMember,
      revision := entry.revision,
      data := some [("collection_id", .text collectionId), ("op", .text "add"),
        ("created", .bool created)] }
  let member : CollectionMember :=
    ⟨collectionId, entryId, trimSpace a.principal, env.now, seq⟩
  writeDb fun db => { db with members := upsert here (fun _ => member) member db.members }
  return created

/-- Take an entry out of a collection. -/
def removeFromCollection (collectionId entryId : String) (a : Actor) : Tx Bool := do
  a.validate
  let col ← getCollection collectionId
  let entry ← getEntry entryId
  ensure (entry.lifecycle ≠ .purged)
    (invalid "entry %s is purged; its membership is not written to")
  let here (m : CollectionMember) : Bool := m.collectionId = collectionId ∧ m.entryId = entryId
  let removed ← readDb fun db => db.members.any here
  writeDb fun db => { db with members := delete here db.members }
  if !removed then
    return false
  appendEvent env a
    { workspaceId := col.ownerWorkspace, entryId := entryId, type := .collectionMember,
      data := some [("collection_id", .text collectionId), ("op", .text "remove"),
        ("created", .bool false)] }
  return true

structure GrantInput where
  sourceWorkspace : String
  targetWorkspace : String
  collectionId : String
  scope : Choice Scope
  readWrite : Option Bool

/-- The active grant between the same parties. -/
def Db.activeGrant (db : Db) (i : GrantInput) (scope : Scope) : Option Grant :=
  db.grants.find? fun g => g.sourceWorkspace = i.sourceWorkspace
    ∧ g.targetWorkspace = i.targetWorkspace ∧ g.collectionId.getD "" = i.collectionId
    ∧ g.scope = scope ∧ g.revokedAt = none

def addGrant (fresh : String) (i : GrantInput) (a : Actor) : Tx Unit := do
  a.validate
  validId i.sourceWorkspace
  ensure (i.targetWorkspace ≠ "" ∨ i.collectionId ≠ "")
    (invalid "a grant needs a target workspace or a collection")
  when (i.targetWorkspace ≠ "") (validId i.targetWorkspace)
  when (i.collectionId ≠ "") do
    let _ ← getCollection i.collectionId
  let scope ← i.scope.orElse .workspace (invalid "scope %q")
  match i.readWrite with
  | none => throw (invalid "permission %q (ro or rw)")
  | some readWrite => do
    let existing ← readDb (·.activeGrant i scope)
    match existing with
    | some g =>
      ensure (g.readWrite = readWrite)
        (.fault .conflict "an active %s grant %s exists; revoke it first")
    | none =>
      writeDb fun db => { db with grants := db.grants ++ [⟨fresh, i.sourceWorkspace,
        i.targetWorkspace, nullText i.collectionId, scope, readWrite, trimSpace a.principal,
        env.now, "", none⟩] }
      appendEvent env a
        { workspaceId := i.sourceWorkspace, type := .grant,
          data := some [("grant_id", .text fresh), ("target_workspace", .text i.targetWorkspace),
            ("collection_id", .text i.collectionId), ("scope", .text scope.text),
            ("permission", .text (if readWrite then "rw" else "ro"))] }

def revokeGrant (id : String) (a : Actor) : Tx Unit := do
  a.validate
  let g ← queryDb fun db => match row (·.id) id db.grants with
    | some g => .ok g
    | none => .error (.fault .notFound "grant %s")
  if g.revokedAt = none then
    let ended (g : Grant) : Grant :=
      { g with revokedBy := trimSpace a.principal, revokedAt := some env.now }
    writeDb fun db => { db with grants := update (fun g => g.id = id) ended db.grants }
    appendEvent env a
      { workspaceId := g.sourceWorkspace, type := .revoke, data := some [("grant_id", .text id)] }

def Applicable.text : Applicable → String
  | .verifiedHere => "verified_here"
  | .foreignUnchecked => "foreign_unchecked"
  | .stale => "stale"

/-- Record an entry's standing in a target workspace. -/
def setApplicability (entryId target : String) (state : Option Applicable) (a : Actor) :
    Tx Unit := do
  a.validate
  match state with
  | none => throw (invalid "applicability %q")
  | some state => do
    validId target
    let e ← liveEntry entryId
    let r : Applicability := ⟨entryId, target, state, e.revision, trimSpace a.principal, env.now⟩
    let here (x : Applicability) : Bool := x.entryId = entryId ∧ x.targetWorkspace = target
    writeDb fun db => { db with applicability := upsert here (fun _ => r) r db.applicability }
    appendEvent env a
      { workspaceId := e.workspaceId, entryId := entryId, type := .applicability,
        revision := e.revision,
        data := some [("target_workspace", .text target), ("state", .text state.text)] }

end GovStore
