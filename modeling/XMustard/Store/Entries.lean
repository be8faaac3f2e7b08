import XMustard.Store.Anchors
import XMustard.Store.Claims

/-!
# Entries

The writes of the `entries` table: creation, the promotion label, supersession, the lifecycle
transitions, the single-column setters, classification and purge.
-/

namespace GovStore

open Table Text Program

variable (env : Env)

/-! ### Creation -/

def tagChar (c : Char) : Bool :=
  ('A' ≤ c && c ≤ 'Z') || ('a' ≤ c && c ≤ 'z') || ('0' ≤ c && c ≤ '9') || c == '_' || c == '.'
    || c == '-'

def tagOk (s : String) : Bool :=
  s ≠ "" ∧ s.toList.length ≤ 64 ∧ s.toList.all tagChar

def maxTags : Nat := 32

def validateTags (tags : List String) : Tx Unit := do
  ensure (tags.length ≤ maxTags) (invalid "%d tags, at most %d")
  ensure (tags.all tagOk) (invalid "tag %q (letters, digits, '_', '.', '-' only)")

def metadataOk (m : Metadata) : Bool :=
  m.all fun (k, v) => tagOk k && v.utf8ByteSize ≤ 1024 && !hasNul v

def validateMetadata (m : Metadata) : Tx Unit :=
  ensure (metadataOk m) (invalid "metadata value for %q")

/-- A text from a vocabulary: empty, outside it, or one of its words. -/
inductive Choice (α : Type)
  | unset | unknown | word (a : α)

/-- The chosen word, or the default. -/
def Choice.orElse {α : Type} (c : Choice α) (dflt : α) (e : Err) : Tx α :=
  match c with
  | .unset => pure dflt
  | .unknown => throw e
  | .word a => pure a

structure NewEntry where
  id : String
  workspaceId : String
  scope : Choice Scope := .unset
  scopeKey : String := ""
  kind : String := ""
  tier : Choice Tier := .unset
  topic : String := ""
  title : String := ""
  description : String := ""
  content : String
  tags : List String := []
  metadata : Metadata := []
  permission : Choice Permission := .unset
  requiredVerifications : Int := 0
  requireVerification : Bool := false
  paths : List String := []
  anchors : List AnchorInput := []
  searchTokens : List String := []
  expiresAt : TimeText := .unset
  worktree : String := ""
  retentionClass : String := ""

/-- Where an entry comes from: the writing actor, or the importer. -/
structure EntryOrigin where
  source : String
  op : RevisionOp
  event : Option EventType
  createdAt : TimeText := .unset
  updatedAt : TimeText := .unset

def quarantinedCore : Err := invalid "entry %s is quarantined (%s) and cannot hold the core tier"

/-- What the validation of a proposal settles. -/
structure EntryDraft where
  scope : Scope
  tier : Tier
  permission : Permission
  source : String
  required : Int
  retention : String
  createdAt : Time
  updatedAt : Time
  expiresAt : Option Time

variable (i : NewEntry)

variable (o : EntryOrigin)

def validateEntry : Tx EntryDraft := do
  validId i.id
  validId i.workspaceId
  let scope ← i.scope.orElse .workspace (invalid "scope %q")
  let tier ← i.tier.orElse .unset (invalid "tier %q")
  ensure (tier ≠ .core ∨ i.metadata.get metaQuarantine = "") quarantinedCore
  let permission ← i.permission.orElse .readonly (invalid "permission %q")
  ensure (trimSpace i.content ≠ "") (invalid "content is required")
  ensure (0 ≤ i.requiredVerifications) (invalid "required_verifications %d")
  let source := trimSpace o.source
  ensure (source ≠ "" ∧ nameOk source) (invalid "entry source %q")
  each validName [i.scopeKey, i.kind, i.topic, i.worktree, i.retentionClass]
  validateTags i.tags
  validateMetadata i.metadata
  let createdAt ← inputTime o.createdAt
  let createdAt := createdAt.getD env.now
  let updatedAt ← inputTime o.updatedAt
  let expiresAt ← inputTime i.expiresAt
  return { scope, tier, permission, source
           required := if i.requiredVerifications = 0 then 2 else i.requiredVerifications
           retention := if i.retentionClass = "" then "memory" else i.retentionClass
           createdAt, updatedAt := updatedAt.getD createdAt, expiresAt }

/-- The row of a new entry: pending, unpromoted and active, serving its first revision. -/
def newEntryRow (pk : Nat) (i : NewEntry) (d : EntryDraft) (a : Actor) : Entry where
  pk := pk
  id := i.id
  workspaceId := i.workspaceId
  scope := d.scope
  scopeKey := i.scopeKey
  kind := i.kind
  tier := d.tier
  topic := i.topic
  title := trimSpace i.title
  description := trimSpace i.description
  tags := i.tags
  metadata := i.metadata
  permission := d.permission
  status := .pending
  promoted := false
  verificationMode := .unset
  lifecycle := .active
  requiredVerifications := d.required
  voteEpoch := 0
  requireVerification := i.requireVerification
  source := d.source
  sourceKey := principalKey d.source
  sourceOwner := a.owner
  sessionId := a.sessionId
  agentId := a.agentId
  revision := 1
  headRevision := 1
  contentDigest := env.digest i.content
  searchTokens := i.searchTokens
  createdAt := d.createdAt
  updatedAt := d.updatedAt
  promotedAt := none
  validFrom := none
  validFromCommit := ""
  invalidatedAt := none
  invalidatedCommit := ""
  expiredAt := none
  expiresAt := d.expiresAt
  supersededBy := ""
  mergedInto := ""
  needsReverify := false
  staleSince := none
  proposeHead := a.headSha
  proposeBranch := a.branch
  proposeDirty := a.dirty
  promoteHead := ""
  promoteBranch := ""
  promoteDirty := none
  worktree := i.worktree
  retentionClass := d.retention

/-- The first revision of a new entry. -/
def firstRevision (d : EntryDraft) (a : Actor) : Revision where
  entryId := i.id
  revision := 1
  baseRevision := 0
  state := .accepted
  op := o.op
  title := trimSpace i.title
  description := trimSpace i.description
  content := some i.content
  contentDigest := env.digest i.content
  contentBytes := i.content.utf8ByteSize
  reason := ""
  author := d.source
  authorKey := principalKey d.source
  sessionId := a.sessionId
  headSha := a.headSha
  createdAt := d.createdAt
  decidedAt := some d.createdAt
  contentDroppedAt := none
  contentDroppedReason := none

/-- The name of a scope. -/
def Scope.text : Scope → String
  | .workspace => "workspace"
  | .dir => "dir"
  | .privateScope => "private"
  | .session => "session"
  | .run => "run"
  | .global => "global"
  | .shared => "shared"

/-- The event of a creation, where the origin has one. -/
def creationEvent (d : EntryDraft) (a : Actor) : Tx Unit :=
  match o.event with
  | none => pure ()
  | some type =>
    appendEvent env a
      { workspaceId := i.workspaceId, entryId := i.id, type := type, revision := 1,
        newDigest := env.digest i.content,
        data := some [("scope", .text d.scope.text), ("author", .text d.source)] }

def insertEntry (a : Actor) : Tx Entry := do
  let d ← validateEntry env i o
  let pk ← readDb (·.nextPk)
  execDb (Db.insertEntry (newEntryRow env pk i d a))
  execDb (Db.insertRevision (firstRevision env i o d a))
  let anchorText ← insertAnchors i.id i.paths i.anchors
  putDedupeKeys env pk i.workspaceId i.content
  ftsPut pk (trimSpace i.title) (joinBody (trimSpace i.description) i.content) anchorText
  creationEvent env i o d a
  getEntry i.id

/-- Create a pending entry authored by the actor. -/
def insertEntryBy (a : Actor) : Tx Entry := do
  a.validate
  insertEntry env i { source := a.principal, op := .propose, event := some .propose } a

/-! ### Promotion -/

/-- The result of the caller's vote reconciliation. -/
structure Promotion where
  status : Option Status
  promoted : Bool
  mode : Option VerificationMode

/-- A well-formed label: promoted entries are verified and have a mode, others neither. -/
def validatePromotion (p : Promotion) : Tx (Status × VerificationMode) :=
  match p.status with
  | none => throw (invalid "status %q")
  | some status =>
    match p.promoted, p.mode with
    | true, some mode => do
      ensure (status = .verified ∧ mode ≠ .unset)
        (invalid "a promoted entry needs status verified and a verification mode")
      return (status, mode)
    | true, none => throw (invalid "a promoted entry needs status verified and a verification mode")
    | false, mode => do
      ensure (mode = some .unset ∧ status ≠ .verified)
        (invalid "an unpromoted entry has no verification mode and is not verified")
      return (status, .unset)

/-- The label columns set, and on a first promotion the repository state it was made at. -/
def Entry.label (status : Status) (promoted : Bool) (mode : VerificationMode) (a : Actor)
    (now : Time) (e : Entry) : Entry :=
  let e' := { e with status := status, promoted := promoted, verificationMode := mode,
                     updatedAt := now }
  if promoted && !e.promoted then
    { e' with promotedAt := some now, promoteHead := a.headSha, promoteBranch := a.branch,
              promoteDirty := a.dirty, validFrom := e.validFrom.or (some now),
              validFromCommit := if e.validFrom = none then a.headSha else e.validFromCommit }
  else e'

variable (id : String)

def setPromotion (p : Promotion) (a : Actor) : Tx Entry := do
  a.validate
  let (status, mode) ← validatePromotion p
  let cur ← liveEntry id
  ensure (p.promoted → cur.lifecycle = .active) (invalid "entry %s is %s and cannot be promoted")
  if cur.status = status ∧ cur.promoted = p.promoted ∧ cur.verificationMode = mode then
    return cur
  touch id
  execDb (Db.updateEntry true id (Entry.label status p.promoted mode a env.now))
  let type : EventType :=
    if p.promoted && !cur.promoted then .promote
    else if !p.promoted && cur.promoted then .demote
    else .status
  appendEvent env a
    { workspaceId := cur.workspaceId, entryId := id, type := type, revision := cur.revision,
      oldDigest := cur.contentDigest, newDigest := cur.contentDigest,
      data := some [("from", .promotion cur.status cur.promoted cur.verificationMode),
        ("to", .promotion status p.promoted mode)] }
  getEntry id

/-! ### Supersession -/

structure SupersedeInput where
  newId : String
  oldIds : List String
  reason : String

/-- The columns that close an entry's validity. -/
def Entry.close (lifecycle : Lifecycle) (a : Actor) (now : Time) (e : Entry) : Entry :=
  { e with lifecycle := lifecycle, updatedAt := now,
           invalidatedAt := e.invalidatedAt.or (some now), invalidatedCommit := a.headSha,
           expiredAt := e.expiredAt.or (some now) }

def Entry.supersede (newId : String) (a : Actor) (now : Time) (e : Entry) : Entry :=
  { e.close .superseded a now with supersededBy := newId }

def supersedeOne (i : SupersedeInput) (newer : Entry) (a : Actor) (oldId : String) : Tx Unit := do
  let old ← getEntry oldId
  ensure (oldId ≠ i.newId) (invalid "an entry cannot supersede itself")
  ensure (old.workspaceId = newer.workspaceId)
    (invalid "%s and %s are in different workspaces")
  ensure (old.lifecycle = .active) (invalid "entry %s is %s")
  execDb (Db.updateEntry false oldId (Entry.supersede i.newId a env.now))
  addRelation env i.newId oldId (some .supersedes) a
  appendEvent env a
    { workspaceId := old.workspaceId, entryId := oldId, type := .supersede,
      revision := old.revision, oldDigest := old.contentDigest, note := i.reason,
      data := some [("superseded_by", .text i.newId)] }

/-- Retire each old entry in favour of the new one. -/
def supersede (i : SupersedeInput) (a : Actor) : Tx Unit := do
  a.validate
  ensure (i.oldIds ≠ []) (invalid "nothing to supersede")
  let newer ← getEntry i.newId
  ensure (newer.promoted ∧ newer.lifecycle = .active)
    (invalid "superseding entry %s must be promoted and active")
  each (supersedeOne env i newer a) i.oldIds
  appendEvent env a
    { workspaceId := newer.workspaceId, entryId := i.newId, type := .supersede,
      revision := newer.revision, newDigest := newer.contentDigest, note := i.reason,
      data := some [("supersedes", .texts i.oldIds)] }

/-! ### Lifecycle transitions -/

/-- The event type of a lifecycle move, where the move is one. -/
def transitions : Lifecycle → Lifecycle → Option EventType
  | .active, .retracted => some .retract
  | .active, .archived => some .archive
  | .active, .merged => some .merge
  | .archived, .active => some .restore
  | .retracted, .active => some .restore
  | .superseded, .active => some .restore
  | .merged, .active => some .restore
  | _, _ => none

def Lifecycle.text : Lifecycle → String
  | .active => "active"
  | .superseded => "superseded"
  | .retracted => "retracted"
  | .merged => "merged"
  | .archived => "archived"
  | .purged => "purged"

structure TransitionInput where
  dest : Option Lifecycle
  target : String := ""
  reason : String := ""

variable (now : Time)

/-- Back from archived: the promotion and the votes are kept. -/
def Entry.reopen (e : Entry) : Entry :=
  { e with lifecycle := .active, updatedAt := now, invalidatedAt := none, invalidatedCommit := "",
           expiredAt := none, supersededBy := "", mergedInto := "" }

/-- A verified status falls back to pending; the others stay. -/
def Status.unverify : Status → Status
  | .verified => .pending
  | s => s

/-- Back from retracted, superseded or merged: nothing verified earlier carries over, and a new
epoch leaves the votes behind. -/
def Entry.restart (e : Entry) : Entry :=
  { e.reopen now with status := e.status.unverify, promoted := false, verificationMode := .unset,
                      needsReverify := false, staleSince := none, voteEpoch := e.voteEpoch + 1 }

def Entry.merge (target : String) (a : Actor) (now : Time) (e : Entry) : Entry :=
  { e.close .merged a now with mergedInto := target }

/-- The statements of one transition. -/
def moveLifecycle (cur : Entry) (dest : Lifecycle) (i : TransitionInput) (a : Actor) :
    Tx Unit := do
  match dest with
  | .active =>
    if cur.lifecycle = .archived then
      execDb (Db.updateEntry false cur.id (Entry.reopen env.now))
    else
      execDb (Db.updateEntry true cur.id (Entry.restart env.now))
      clearBaselines cur.id
      touch cur.id
  | .merged =>
    let target ← getEntry i.target
    ensure (target.id ≠ cur.id ∧ target.workspaceId = cur.workspaceId
        ∧ target.lifecycle = .active)
      (invalid "merge target %s must be another active entry in the workspace")
    execDb (Db.updateEntry false cur.id (Entry.merge target.id a env.now))
    addRelation env cur.id target.id (some .mergedInto) a
  | _ => execDb (Db.updateEntry false cur.id (Entry.close dest a env.now))

/-- The data of a transition event. -/
def transitionData (cur : Entry) (dest : Lifecycle) (target : String) : List (String × Value) :=
  [("from", .text cur.lifecycle.text), ("to", .text dest.text), ("target", .text target)]
    ++ (if dest = .active
      ∧ cur.lifecycle ≠ .archived then [("vote_epoch", .int (cur.voteEpoch + 1))]
        else [])

/-- Retract, archive, merge or restore an entry. -/
def transition (i : TransitionInput) (a : Actor) : Tx Entry := do
  a.validate
  let cur ← getEntry id
  match i.dest with
  | none => throw (invalid "cannot move entry %s from %s to %s")
  | some dest =>
    match transitions cur.lifecycle dest with
    | none => throw (invalid "cannot move entry %s from %s to %s")
    | some type => do
      moveLifecycle env cur dest i a
      appendEvent env a
        { workspaceId := cur.workspaceId, entryId := id, type := type, revision := cur.revision,
          oldDigest := cur.contentDigest, note := i.reason,
          data := some (transitionData cur dest i.target) }
      when
          (dest = .active ∧ cur.lifecycle ≠ .archived ∧ (cur.promoted ∨ cur.status = .verified))
        (appendEvent env a
          { workspaceId := cur.workspaceId, entryId := id, type := .demote,
            revision := cur.revision, oldDigest := cur.contentDigest,
            newDigest := cur.contentDigest,
            data := some
              [("reason", .text ("restored from " ++ cur.lifecycle.text
                ++ "; must be verified again")),
               ("from", .promotion cur.status cur.promoted cur.verificationMode)] })
      getEntry id

/-! ### Single columns -/

/-- Set one column of an entry that is not purged, unless it already has the value. -/
def updateField (a : Actor) (type : EventType) (watched : Bool)
    (set : Entry → Entry) (current : Entry → Value) (display : Value) : Tx Entry := do
  let cur ← getEntry id
  ensure (cur.lifecycle ≠ .purged) (invalid "entry %s is purged")
  if current cur = display then
    return cur
  execDb (Db.updateEntry watched id fun e => { set e with updatedAt := env.now })
  appendEvent env a
    { workspaceId := cur.workspaceId, entryId := id, type := type, revision := cur.revision,
      data := some [("from", current cur), ("to", display)] }
  getEntry id

/-- An instant as the value of an event field; an unset one is the empty text. -/
def Value.ofTime : Option Time → Value
  | none => .text ""
  | some t => .int t

def Tier.text : Tier → String
  | .unset => ""
  | .core => "core"
  | .deferred => "deferred"

def setExpiry (expiresAt : TimeText) (a : Actor) : Tx Entry := do
  a.validate
  let v ← inputTime expiresAt
  updateField env id a .expiry false (fun e => { e with expiresAt := v })
    (fun e => .ofTime e.expiresAt) (.ofTime v)

def setTier (tier : Choice Tier) (a : Actor) : Tx Entry := do
  a.validate
  let tier ← tier.orElse .unset (invalid "tier %q")
  when (tier = .core) do
    let cur ← getEntry id
    ensure (cur.metadata.get metaQuarantine = "") quarantinedCore
  updateField env id a .tierChange false (fun e => { e with tier := tier })
    (fun e => .text e.tier.text) (.text tier.text)

/-- Change how many approvals the entry needs. -/
def setRequiredVerifications (n : Int) (a : Actor) : Tx Entry := do
  a.validate
  ensure (1 ≤ n) (invalid "required_verifications %d")
  touch id
  updateField env id a .gate true (fun e => { e with requiredVerifications := n })
    (fun e => .int e.requiredVerifications) (.int n)

/-! ### Classification -/

structure Classification where
  kind : String
  topic : String
  tags : List String
  metadata : Metadata

/-- The metadata an entry is classified with: a quarantine mark it has is kept. -/
def stickyMetadata (cur : Entry) (m : Metadata) : Metadata :=
  if cur.metadata.get metaQuarantine ≠ "" ∧ m.get metaQuarantine = "" then
    (metaQuarantine, cur.metadata.get metaQuarantine) :: m
  else m

def Entry.classify (c : Classification) (metadata : Metadata) (now : Time) (e : Entry) : Entry :=
  { e with
    kind := c.kind, topic := c.topic, tags := c.tags, metadata := metadata, updatedAt := now }

def setClassification (c : Classification) (a : Actor) : Tx Entry := do
  a.validate
  validName c.kind
  validName c.topic
  validateTags c.tags
  validateMetadata c.metadata
  let cur ← getEntry id
  ensure (cur.lifecycle ≠ .purged) (invalid "entry %s is purged")
  let metadata := stickyMetadata cur c.metadata
  let quarantine := metadata.get metaQuarantine
  ensure (cur.tier ≠ .core ∨ quarantine = "") quarantinedCore
  execDb (Db.updateEntry false id (Entry.classify c metadata env.now))
  appendEvent env a
    { workspaceId := cur.workspaceId, entryId := id, type := .classify, revision := cur.revision,
      data := some ([("kind", .text c.kind), ("topic", .text c.topic), ("tags", .texts c.tags)]
        ++ (if quarantine ≠ cur.metadata.get metaQuarantine then [("quarantine", .text quarantine)]
            else [])) }
  getEntry id

/-! ### Purge -/

/-- The tombstone of an entry row. -/
def Entry.tombstone (e : Entry) : Entry :=
  { e with lifecycle := .purged, promoted := false, verificationMode := .unset,
           status := e.status.unverify, title := "", description := "", topic := "", tags := [],
           metadata := [], searchTokens := [], needsReverify := false, staleSince := none,
           headRevision := e.revision, updatedAt := now,
           invalidatedAt := e.invalidatedAt.or (some now), expiredAt := e.expiredAt.or (some now) }

/-- The tombstone of a revision row; a pending revision is withdrawn. -/
def Revision.tombstone (r : Revision) : Revision :=
  { r with content := none, title := "", description := "", reason := "",
           state := if r.state = .pending then .withdrawn else r.state,
           decidedAt := if r.state = .pending then some now else r.decidedAt,
           contentDroppedAt := r.contentDroppedAt.or (some now),
           contentDroppedReason := some .purge }

/-- Erase the text of an entry in every table. -/
def purge (id reason : String) (a : Actor) : Tx Unit := do
  a.validate
  let cur ← getEntry id
  if cur.lifecycle = .purged then
    return
  execDb (Db.updateEntry true id (Entry.tombstone env.now))
  execDb (Db.updateRevisions (fun r => r.entryId = id) (Revision.tombstone env.now))
  writeDb fun db =>
    { db with votes := update (fun v => v.entryId = id) (fun v => { v with note := "" }) db.votes }
  writeDb fun db =>
    { db with
      outcomes := update (fun o => o.entryId = id) (fun o => { o with note := "" }) db.outcomes }
  writeDb fun db => { db with anchors := delete (fun x => x.entryId = id) db.anchors }
  writeDb fun db => { db with claims := delete (fun c => c.entryId = id) db.claims }
  writeDb fun db => { db with dedupeKeys := delete (fun k => k.entryPk = cur.pk) db.dedupeKeys }
  writeDb fun db => { db with members := delete (fun m => m.entryId = id) db.members }
  execDb (Db.redactEvents id)
  ftsDelete cur.pk
  touch id
  appendEvent env a
    { workspaceId := cur.workspaceId, entryId := id, type := .purge, revision := cur.revision,
      oldDigest := cur.contentDigest, note := reason }

end GovStore
