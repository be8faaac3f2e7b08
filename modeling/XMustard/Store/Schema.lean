import Mathlib.Tactic.Lemma

/-!
# The tables of the governance store

One structure per table of the schema and one inductive type per closed vocabulary. A row list is
in insertion order, so a row's place in it stands for its primary key where only the order of
keys matters. Times are instants, and a nullable column is an `Option`.
-/

namespace GovStore

/-- An instant, in nanoseconds. The store writes it as fixed-width UTC text in the same order. -/
abbrev Time := Int

/-! ### Vocabularies -/

inductive Lifecycle
  | active | superseded | retracted | merged | archived | purged
  deriving DecidableEq

inductive Status
  | pending | verified | rejected
  deriving DecidableEq

/-- How a promoted entry earned its place; `unset` is the empty text of an unpromoted one. -/
inductive VerificationMode
  | unset | peerVerified | selfAssertedOpenMode | singleAgent
  deriving DecidableEq

inductive Scope
  | workspace | dir | privateScope | session | run | global | shared
  deriving DecidableEq

inductive Tier
  | unset | core | deferred
  deriving DecidableEq

inductive Permission
  | readonly | readwrite
  deriving DecidableEq

inductive RevisionState
  | accepted | pending | rejected | withdrawn
  deriving DecidableEq

inductive RevisionOp
  | propose | importOp | edit | strReplace | insert | updateDescription | restore
  deriving DecidableEq

inductive DropReason
  | retention | purge
  deriving DecidableEq

inductive Verdict
  | approve | reject | duplicateOf | retract
  deriving DecidableEq

/-- What the `entry_id` of an event, an anchor or an outcome names. -/
inductive SubjectKind
  | memory | reviewRecord | reviewFinding
  deriving DecidableEq

inductive EventType
  | propose | importEntry | vote | reject | edit | revisionAccepted | revisionRejected
  | revisionWithdrawn | promote | demote | status | supersede | merge | retract | archive | restore
  | purge | expiry | tierChange | classify | anchors | baseline | staleObserved | driftCleared
  | claim | relation | feedback | collection | collectionMember | grant | revoke | applicability
  | note | gate | indexBaseline | mergeApproval | mergeApprovalRevoked | reviewRecord
  | reviewFinding | reviewTriage | reviewReanchor | memoryPolicy | corroborate | anchorReanchor
  deriving DecidableEq

inductive AnchorKind
  | path | symbol | identifier | command | env | config | errorCode | url | code
  deriving DecidableEq

inductive BaselineState
  | none | hash | missing
  deriving DecidableEq

inductive Predicate
  | requires | forbids | runsWith | configuredAs | pinnedTo | deprecatedBy | ownedBy | replaces
  deriving DecidableEq

inductive RelationKind
  | supersedes | duplicates | refines | contradicts | mergedInto | references
  deriving DecidableEq

inductive OutcomeKind
  | helpful | misleading | staleHarm | confirm | dismiss | fixed | wontFix
  deriving DecidableEq

inductive Applicable
  | verifiedHere | foreignUnchecked | stale
  deriving DecidableEq

/-! ### Free-form columns -/

/-- The values the store puts into an event's data. -/
inductive Value
  | text (s : String)
  | int (n : Int)
  | bool (b : Bool)
  | texts (l : List String)
  | ints (l : List Int)
  | anchors (l : List (AnchorKind × String))
  | promotion (status : Status) (promoted : Bool) (mode : VerificationMode)
  deriving DecidableEq

/-- The provenance of a write, as its events record it. -/
structure Provenance where
  owner : String
  kind : String
  callId : String
  runId : String
  approval : String
  evidence : List String
  deriving DecidableEq

structure EventData where
  fields : List (String × Value)
  provenance : Option Provenance
  deriving DecidableEq

/-- A metadata map: the value of a key is the first one listed for it. -/
abbrev Metadata := List (String × String)

def Metadata.get (m : Metadata) (k : String) : String := (m.lookup k).getD ""

/-- The metadata key that marks an entry quarantined. -/
def metaQuarantine : String := "quarantine"

/-! ### Rows -/

structure Entry where
  pk : Nat
  id : String
  workspaceId : String
  scope : Scope
  scopeKey : String
  kind : String
  tier : Tier
  topic : String
  title : String
  description : String
  tags : List String
  metadata : Metadata
  permission : Permission
  status : Status
  promoted : Bool
  verificationMode : VerificationMode
  lifecycle : Lifecycle
  requiredVerifications : Int
  voteEpoch : Int
  requireVerification : Bool
  source : String
  sourceKey : String
  sourceOwner : String
  sessionId : String
  agentId : String
  revision : Int
  headRevision : Int
  contentDigest : String
  searchTokens : List String
  createdAt : Time
  updatedAt : Time
  promotedAt : Option Time
  validFrom : Option Time
  validFromCommit : String
  invalidatedAt : Option Time
  invalidatedCommit : String
  expiredAt : Option Time
  expiresAt : Option Time
  supersededBy : String
  mergedInto : String
  needsReverify : Bool
  staleSince : Option Time
  proposeHead : String
  proposeBranch : String
  proposeDirty : Option Bool
  promoteHead : String
  promoteBranch : String
  promoteDirty : Option Bool
  worktree : String
  retentionClass : String

structure Revision where
  entryId : String
  revision : Int
  baseRevision : Int
  state : RevisionState
  op : RevisionOp
  title : String
  description : String
  content : Option String
  contentDigest : String
  contentBytes : Nat
  reason : String
  author : String
  authorKey : String
  sessionId : String
  headSha : String
  createdAt : Time
  decidedAt : Option Time
  contentDroppedAt : Option Time
  contentDroppedReason : Option DropReason

structure Vote where
  entryId : String
  revision : Int
  principal : String
  principalKey : String
  principalOwner : String
  principalKind : String
  verdict : Verdict
  target : String
  note : String
  evidenceHandle : String
  contentDigest : String
  sessionId : String
  ordinal : Int
  epoch : Int
  time : Time

structure Event where
  seq : Nat
  workspaceId : String
  entryId : Option String
  subjectKind : SubjectKind
  type : EventType
  principal : String
  sessionId : String
  agentId : String
  headSha : String
  revision : Option Int
  oldDigest : String
  newDigest : String
  note : Option String
  data : Option EventData
  redacted : Bool
  time : Time

structure Anchor where
  entryId : String
  subjectKind : SubjectKind
  ordinal : Int
  kind : AnchorKind
  value : String
  declared : Bool
  symbolUid : String
  baselineState : BaselineState
  baselineHash : String
  baselineKind : String
  baselineCommit : String
  baselineAt : Option Time
  staleSince : Option Time
  staleCommit : String

structure Claim where
  entryId : String
  revision : Int
  subject : String
  subjectKind : String
  predicate : Predicate
  object : String
  createdAt : Time

structure RelationRow where
  fromId : String
  toId : String
  kind : RelationKind
  principal : String
  createdAt : Time

structure Outcome where
  entryId : String
  subjectKind : SubjectKind
  revision : Int
  principal : String
  principalKey : String
  outcome : OutcomeKind
  note : String
  sessionId : String
  time : Time

structure Delivery where
  entryId : String
  revision : Int
  contentDigest : String
  workspaceId : String
  sessionId : String
  principal : String
  surface : String
  time : Time
  retentionClass : String

structure Collection where
  id : String
  name : String
  ownerWorkspace : String
  policy : Metadata
  createdBy : String
  createdAt : Time

structure CollectionMember where
  collectionId : String
  entryId : String
  addedBy : String
  addedAt : Time
  seq : Nat

structure Grant where
  id : String
  sourceWorkspace : String
  targetWorkspace : String
  collectionId : Option String
  scope : Scope
  readWrite : Bool
  grantedBy : String
  grantedAt : Time
  revokedBy : String
  revokedAt : Option Time

structure Applicability where
  entryId : String
  targetWorkspace : String
  state : Applicable
  revision : Int
  checkedBy : String
  checkedAt : Time

structure DedupeKey where
  key : Nat
  entryPk : Nat
  deriving DecidableEq

structure Corroboration where
  entryId : String
  principalKey : String
  principal : String
  count : Nat
  evidence : List String
  firstAt : Time
  lastAt : Time

/-- One row of the full-text index. -/
structure MemoryFts where
  rowid : Nat
  title : String
  body : String
  anchors : String

/-- The database. The two backfill marks are rows of `store_meta`. -/
structure Db where
  entries : List Entry
  revisions : List Revision
  votes : List Vote
  events : List Event
  anchors : List Anchor
  claims : List Claim
  relations : List RelationRow
  outcomes : List Outcome
  deliveries : List Delivery
  collections : List Collection
  members : List CollectionMember
  grants : List Grant
  applicability : List Applicability
  dedupeKeys : List DedupeKey
  corroborations : List Corroboration
  memoryFts : List MemoryFts
  backfillNext : Nat
  backfillEnd : Nat

/-- A store as the migrations create it. -/
def Db.empty : Db :=
  ⟨[], [], [], [], [], [], [], [], [], [], [], [], [], [], [], [], 0, 0⟩

end GovStore
