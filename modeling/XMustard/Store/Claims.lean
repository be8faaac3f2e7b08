import XMustard.Store.Events

/-!
# Claims and relations

Structured statements an entry makes, and typed edges between two entries of one workspace.
-/

namespace GovStore

open Text Program

variable (env : Env)

structure ClaimInput where
  entryId : String
  subject : String
  subjectKind : String
  predicate : Option Predicate
  object : String

/-- The name of a claim predicate. -/
def Predicate.text : Predicate → String
  | .requires => "requires"
  | .forbids => "forbids"
  | .runsWith => "runs_with"
  | .configuredAs => "configured_as"
  | .pinnedTo => "pinned_to"
  | .deprecatedBy => "deprecated_by"
  | .ownedBy => "owned_by"
  | .replaces => "replaces"

def claimTextOk (s : String) : Bool :=
  trimSpace s ≠ "" ∧ s.utf8ByteSize ≤ 1024 ∧ !hasNul s

def addClaim (i : ClaimInput) (a : Actor) : Tx Unit := do
  a.validate
  match i.predicate with
  | none => throw (invalid "predicate %q")
  | some predicate => do
    ensure (claimTextOk i.subject) (invalid "claim %s %q")
    ensure (claimTextOk i.object) (invalid "claim %s %q")
    let e ← liveEntry i.entryId
    let c : Claim :=
      ⟨i.entryId, e.revision, i.subject, i.subjectKind, predicate, i.object, env.now⟩
    let known ← readDb (·.hasClaim c)
    writeDb (Db.insertClaim c)
    if !known then
      appendEvent env a
        { workspaceId := e.workspaceId, entryId := i.entryId, type := .claim,
          revision := e.revision,
          data := some [("subject", .text i.subject), ("predicate", .text predicate.text),
            ("object", .text i.object)] }

/-- The name of a relation kind. -/
def RelationKind.text : RelationKind → String
  | .supersedes => "supersedes"
  | .duplicates => "duplicates"
  | .refines => "refines"
  | .contradicts => "contradicts"
  | .mergedInto => "merged_into"
  | .references => "references"

def addRelation (fromId toId : String) (kind : Option RelationKind) (a : Actor) : Tx Unit := do
  match kind with
  | none => throw (invalid "relation kind %q")
  | some kind => do
    ensure (fromId ≠ toId) (invalid "an entry cannot relate to itself")
    let source ← getEntry fromId
    let target ← getEntry toId
    ensure (source.workspaceId = target.workspaceId)
      (invalid "%s and %s are in different workspaces")
    ensure (source.lifecycle ≠ .purged ∧ target.lifecycle ≠ .purged)
      (invalid "a purged entry takes no new relations")
    let r : RelationRow := ⟨fromId, toId, kind, trimSpace a.principal, env.now⟩
    let known ← readDb (·.hasRelation r)
    writeDb (Db.insertRelation r)
    if !known then
      appendEvent env a
        { workspaceId := source.workspaceId, entryId := fromId, type := .relation,
          revision := source.revision,
          data := some [("kind", .text kind.text), ("to", .text toId)] }

def addRelationBy (fromId toId : String) (kind : Option RelationKind) (a : Actor) : Tx Unit := do
  a.validate
  addRelation env fromId toId kind a

end GovStore
