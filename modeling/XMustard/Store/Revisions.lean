import XMustard.Store.Entries

/-!
# Revisions

A content change is a new revision on top of the head. It is served at once, or it stays pending
until it is accepted or rejected. Serving a revision always clears the promotion, because votes
bind to the revision they were cast on.
-/

namespace GovStore

open Table Text Program

variable (env : Env)

structure RevisionInput where
  entryId : String
  baseRevision : Int
  op : Option RevisionOp
  title : Option String := none
  description : Option String := none
  content : String
  reason : String := ""
  activate : Bool := false
  searchTokens : List String := []

/-- The operations a new revision may name. -/
def RevisionOp.editing : RevisionOp → Bool
  | .edit | .strReplace | .insert | .updateDescription | .restore => true
  | .propose | .importOp => false

def RevisionOp.text : RevisionOp → String
  | .propose => "propose"
  | .importOp => "import"
  | .edit => "edit"
  | .strReplace => "str_replace"
  | .insert => "insert"
  | .updateDescription => "update_description"
  | .restore => "restore"

def RevisionState.text : RevisionState → String
  | .accepted => "accepted"
  | .pending => "pending"
  | .rejected => "rejected"
  | .withdrawn => "withdrawn"

/-- The number after the newest revision of an entry, of whatever state. -/
def Db.nextRevision (db : Db) (id : String) : Int :=
  ((rows (·.entryId) id db.revisions).map (·.revision)).foldr max 0 + 1

/-- The row that serves a revision: unpromoted and pending. -/
def Entry.serve (rev : Int) (digest title description : String) (tokens : List String)
    (now : Time) (e : Entry) : Entry :=
  { e with revision := rev, headRevision := max e.headRevision rev, contentDigest := digest,
           title := title, description := description, searchTokens := tokens,
           status := .pending, promoted := false, verificationMode := .unset,
           needsReverify := false, staleSince := none, updatedAt := now }

/-- A pending revision below the one now served. -/
def Revision.overtaken (id : String) (rev : Int) (r : Revision) : Bool :=
  r.entryId = id ∧ r.state = .pending ∧ r.revision < rev

def Revision.decide (state : RevisionState) (now : Time) (r : Revision) : Revision :=
  { r with state := state, decidedAt := some now }

/-- Make `rev` the served revision of the entry `cur`. -/
def serveRevision (cur : Entry) (rev : Int) (title description content digest : String)
    (tokens : List String) (a : Actor) : Tx Unit := do
  execDb (Db.updateEntry true cur.id (Entry.serve rev digest title description tokens env.now))
  clearBaselines cur.id
  putDedupeKeys env cur.pk cur.workspaceId content
  let withdrawn ← readDb fun db => (db.revisions.filter (Revision.overtaken cur.id rev)).length
  execDb (Db.updateRevisions (Revision.overtaken cur.id rev) (Revision.decide .withdrawn env.now))
  when (withdrawn > 0)
    (appendEvent env a
      { workspaceId := cur.workspaceId, entryId := cur.id, type := .revisionWithdrawn,
        revision := rev,
        data := some [("withdrawn_below", .int rev), ("count", .int withdrawn)] })
  touch cur.id
  refreshFts cur.id

/-- The event that records the loss of a promotion to a change of served content. -/
def demoteEvent (cur : Entry) (rev : Int) (digest : String) : EventRow where
  workspaceId := cur.workspaceId
  entryId := cur.id
  type := .demote
  revision := rev
  oldDigest := cur.contentDigest
  newDigest := digest
  data := some [("reason", .text "served revision changed; verification binds to a revision")]

variable (i : RevisionInput)

/-- The row of a new revision. -/
def newRevision (op : RevisionOp) (next : Int) (title description : String)
    (a : Actor) : Revision where
  entryId := i.entryId
  revision := next
  baseRevision := i.baseRevision
  state := if i.activate then .accepted else .pending
  op := op
  title := title
  description := description
  content := some i.content
  contentDigest := env.digest i.content
  contentBytes := i.content.utf8ByteSize
  reason := i.reason
  author := trimSpace a.principal
  authorKey := principalKey a.principal
  sessionId := a.sessionId
  headSha := a.headSha
  createdAt := env.now
  decidedAt := if i.activate then some env.now else none
  contentDroppedAt := none
  contentDroppedReason := none

def staleBase (cur : Entry) (base : Int) (reason : String) : Err :=
  .stale { entryId := cur.id, baseRevision := base, currentRevision := cur.revision,
           currentDigest := cur.contentDigest, headRevision := cur.headRevision, reason := reason }

/-- The revision operation of a well-formed edit. -/
def validateRevision : Tx RevisionOp :=
  match i.op with
  | none => throw (invalid "revision op %q")
  | some op => do
    ensure op.editing (invalid "revision op %q")
    ensure (trimSpace i.content ≠ "") (invalid "content is required")
    return op

def Entry.moveHead (rev : Int) (now : Time) (e : Entry) : Entry :=
  { e with headRevision := rev, updatedAt := now }

/-- Serve a new revision at once, or leave it pending as the head. -/
def placeRevision (cur : Entry) (row : Revision) (a : Actor) : Tx Unit :=
  if i.activate then
    serveRevision env cur row.revision row.title row.description i.content row.contentDigest
      i.searchTokens a
  else execDb (Db.updateEntry false i.entryId (Entry.moveHead row.revision env.now))

/-- Add a revision, with compare-and-set on the head revision of the entry. -/
def appendRevision (a : Actor) : Tx Revision := do
  a.validate
  let op ← validateRevision i
  let cur ← getEntry i.entryId
  ensure (cur.lifecycle = .active) (invalid "entry %s is %s")
  ensure (i.baseRevision = cur.headRevision)
    (staleBase cur i.baseRevision "base revision is not the head")
  let base ← getRevision i.entryId cur.headRevision
  ensure (base.content ≠ none) (invalid "base revision %d has no content")
  let title := (i.title.map trimSpace).getD base.title
  let description := (i.description.map trimSpace).getD base.description
  let digest := env.digest i.content
  ensure (¬(digest = base.contentDigest ∧ title = base.title ∧ description = base.description))
    (.fault .noChange "revision %d already has this content")
  let next ← readDb (·.nextRevision i.entryId)
  let row := newRevision env i op next title description a
  execDb (Db.insertRevision row)
  placeRevision env i cur row a
  appendEvent env a
    { workspaceId := cur.workspaceId, entryId := i.entryId, type := .edit, revision := next,
      oldDigest := base.contentDigest, newDigest := digest, note := i.reason,
      data := some [("op", .text op.text), ("base_revision", .int i.baseRevision),
        ("state", .text row.state.text)] }
  when (i.activate ∧ cur.promoted) (appendEvent env a (demoteEvent cur next digest))
  getRevision i.entryId next

structure AcceptInput where
  entryId : String
  revision : Int
  searchTokens : List String := []

/-- Make the pending head revision the served one. -/
def acceptRevision (i : AcceptInput) (a : Actor) : Tx Entry := do
  a.validate
  let cur ← getEntry i.entryId
  ensure (cur.lifecycle = .active) (invalid "entry %s is %s")
  let rv ← getRevision i.entryId i.revision
  ensure (rv.state = .pending ∧ i.revision = cur.headRevision)
    (staleBase cur i.revision "only the pending head revision can be accepted")
  execDb (Db.updateRevisions (fun r => r.entryId = i.entryId ∧ r.revision = i.revision)
    (Revision.decide .accepted env.now))
  serveRevision env cur i.revision rv.title rv.description (rv.content.getD "") rv.contentDigest
    i.searchTokens a
  appendEvent env a
    { workspaceId := cur.workspaceId, entryId := i.entryId, type := .revisionAccepted,
      revision := i.revision, oldDigest := cur.contentDigest, newDigest := rv.contentDigest }
  when cur.promoted (appendEvent env a (demoteEvent cur i.revision rv.contentDigest))
  getEntry i.entryId

/-- The newest pending revision of an entry. -/
def Db.newestPending (db : Db) (id : String) : Option Int :=
  (((rows (·.entryId) id db.revisions).filter fun r => r.state = .pending).map
    (·.revision)).max?

/-- The head falls back to the newest pending revision, or to the served one. -/
def Entry.fallBack (pending : Option Int) (now : Time) (e : Entry) : Entry :=
  e.moveHead (pending.getD e.revision) now

/-- Close a pending revision without serving it. -/
def rejectRevision (id : String) (revision : Int) (reason : String) (a : Actor) :
    Tx Revision := do
  a.validate
  let cur ← liveEntry id
  let rv ← getRevision id revision
  ensure (rv.state = .pending) (invalid "revision %d is %s, not pending")
  execDb (Db.updateRevisions (fun r => r.entryId = id ∧ r.revision = revision)
    (Revision.decide .rejected env.now))
  execDb fun db => Db.updateEntry false id (Entry.fallBack (db.newestPending id) env.now) db
  appendEvent env a
    { workspaceId := cur.workspaceId, entryId := id, type := .revisionRejected,
      revision := revision, newDigest := rv.contentDigest, note := reason }
  getRevision id revision

end GovStore
