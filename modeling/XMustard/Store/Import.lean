import XMustard.Store.Revisions
import XMustard.Store.Votes

/-!
# Import, retention and review subjects

The writers besides the typed ones: the import of a legacy workspace file, the compaction of old
revision content and of the delivery log, and the rows that review subjects keep in the tables
they share with memories.
-/

namespace GovStore

open Table Text Program

variable (env : Env)

/-! ### Legacy import -/

structure LegacyVerification where
  agent : String
  approve : Bool
  note : String
  time : TimeText

structure LegacyEntry where
  id : String
  workspaceId : String
  title : String
  content : String
  source : String
  permission : Option Permission
  status : Option Status
  promoted : Bool
  verifications : List LegacyVerification
  requiredVerifications : Int
  requireVerification : Bool
  verificationMode : Choice VerificationMode
  createdAt : TimeText
  updatedAt : TimeText
  paths : List String
  pathHashes : List (String × String)
  searchTokens : List String
  contentHash : String
  contentDigest : String

/-- A legacy verdict after normalization. -/
structure LegacyVote where
  agent : String
  approve : Bool
  note : String
  time : Time

/-- What a legacy entry imports as. -/
structure NormalizedLegacy where
  permission : Permission
  createdAt : Time
  updatedAt : Time
  status : Status
  promoted : Bool
  mode : VerificationMode
  votes : List LegacyVote
  relabelled : String

def invalidEntry (text : String) : Err := .fault .invalidEntry text

def requireTime (t : TimeText) (text : String) : Tx Time :=
  match t with
  | .instant t => pure t
  | _ => throw (invalidEntry text)

/-- Put a verdict in: a principal keeps its first place and its latest verdict. -/
def mergeVerdict (v : LegacyVote) : List LegacyVote → List LegacyVote
  | [] => [v]
  | w :: ws =>
    if principalKey w.agent = principalKey v.agent then v :: ws else w :: mergeVerdict v ws

/-- The verdicts of a legacy entry; those of blank agents never counted. -/
def normalizeVerifications : List LegacyVote → List LegacyVerification → Tx (List LegacyVote)
  | votes, [] => return votes
  | votes, v :: rest => do
    if principalKey v.agent = "" then
      normalizeVerifications votes rest
    else
      let time ← requireTime v.time "entry %s verification time %q is not RFC 3339"
      normalizeVerifications (mergeVerdict ⟨trimSpace v.agent, v.approve, v.note, time⟩ votes) rest

/-- The tally of normalized legacy verdicts: the author and the open-mode identity are no peers. -/
def legacyTally (source : String) (votes : List LegacyVote) : Tally :=
  let key (v : LegacyVote) := principalKey v.agent
  let peer (v : LegacyVote) : Bool := key v ≠ openModeIdentity ∧ key v ≠ principalKey source
  { approvals := 0, rejections := 0
    peerApprovals := votes.countP fun v => v.approve && peer v
    peerRejections := 0
    authorApproved := votes.any fun v =>
      v.approve ∧ key v = principalKey source ∧ key v ≠ openModeIdentity
    openModeApproved := votes.any fun v => v.approve ∧ key v = openModeIdentity
    retractions := 0, duplicates := 0 }

def VerificationMode.text : VerificationMode → String
  | .unset => ""
  | .peerVerified => "peer_verified"
  | .selfAssertedOpenMode => "self_asserted_open_mode"
  | .singleAgent => "single_agent"

/-- The mode of a promoted legacy entry: derived where none is recorded, and downgraded where the
votes do not support the recorded `peer_verified`. -/
def legacyMode (recorded : Choice VerificationMode) (derived : VerificationMode) :
    Tx (VerificationMode × String) :=
  match recorded with
  | .unset | .word .unset => pure (derived, "verification_mode derived as " ++ derived.text)
  | .unknown => throw (invalidEntry "entry %s verification_mode %q")
  | .word mode =>
    if mode = .peerVerified ∧ derived ≠ .peerVerified then
      pure (derived, "recorded peer_verified is not supported by distinct peer approvals; labelled "
        ++ derived.text)
    else pure (mode, "")

/-- The recorded digest or hash of a legacy entry is not that of its content. -/
def bindingBroken (le : LegacyEntry) : String :=
  let digest := env.digest le.content
  if le.contentDigest ≠ "" ∧ le.contentDigest ≠ digest then
    "content_digest does not match content; votes and promotion withheld"
  else if le.contentHash ≠ "" ∧ le.contentHash ≠ String.ofList (digest.toList.take 16) then
    "content_hash does not match content; votes and promotion withheld"
  else ""

def normalizeLegacy (workspaceId : String) (le : LegacyEntry) (threshold : Int) :
    Tx NormalizedLegacy := do
  ensure (idOk le.id) (invalidEntry "%v")
  ensure (le.workspaceId = "" ∨ le.workspaceId = workspaceId)
    (invalidEntry "entry %s belongs to workspace %s")
  ensure (trimSpace le.content ≠ "") (invalidEntry "entry %s has no content")
  ensure (trimSpace le.source ≠ "") (invalidEntry "entry %s has no source")
  match le.permission, le.status with
  | none, _ => throw (invalidEntry "entry %s permission %q")
  | _, none => throw (invalidEntry "entry %s status %q")
  | some permission, some status => do
    ensure (le.promoted = decide (status = .verified))
      (invalidEntry "entry %s: promoted=%t contradicts status %q")
    ensure (1 ≤ le.requiredVerifications) (invalidEntry "entry %s required_verifications %d")
    let createdAt ← requireTime le.createdAt "entry %s time %q is not RFC 3339"
    let updatedAt ← requireTime le.updatedAt "entry %s time %q is not RFC 3339"
    let votes ← normalizeVerifications [] le.verifications
    ensure (le.pathHashes.all fun p => p.1 ≠ "" ∧ p.1 = trimSpace p.1)
      (invalidEntry "entry %s path hash key %q")
    if bindingBroken env le ≠ "" then
      return { permission, createdAt, updatedAt, status := .pending, promoted := false,
               mode := .unset, votes := [], relabelled := bindingBroken env le }
    else if !le.promoted then
      return { permission, createdAt, updatedAt, status, promoted := false, mode := .unset, votes,
               relabelled := "" }
    else
      let (mode, relabelled) ← legacyMode le.verificationMode
        (verificationMode (legacyTally le.source votes) le.requiredVerifications threshold)
      return { permission, createdAt, updatedAt, status, promoted := true, mode, votes, relabelled }

/-- The vote row of an imported verdict. -/
def importedVote (id digest : String) (ordinal : Int) (v : LegacyVote) : Vote where
  entryId := id
  revision := 1
  principal := v.agent
  principalKey := principalKey v.agent
  principalOwner := ""
  principalKind := ""
  verdict := if v.approve then .approve else .reject
  target := ""
  note := v.note
  evidenceHandle := ""
  contentDigest := digest
  sessionId := ""
  ordinal := ordinal
  epoch := 0
  time := v.time

def insertVotesFrom (id digest : String) : Int → List LegacyVote → Tx Unit
  | _, [] => pure ()
  | n, v :: rest => do
    execDb (Db.insertVote (importedVote id digest n v))
    insertVotesFrom id digest (n + 1) rest

def legacyMissingSentinel : String := "\x00missing"

/-- The baseline a legacy path hash stands for. -/
def legacyBaseline (p : String × String) : Baseline :=
  if p.2 = legacyMissingSentinel then ⟨some .path, p.1, some .missing, "", "file"⟩
  else ⟨some .path, p.1, some .hash, p.2, "file"⟩

/-- Record a baseline without an event and without a commit. -/
def setBaselineQuiet (id : String) (b : Baseline) : Tx Bool := do
  let kind ← validateAnchor { kind := b.kind, value := b.value }
  let mark (x : Anchor) : Anchor :=
    { x with baselineState := b.state.getD .none, baselineHash := b.hash,
             baselineKind := b.baselineKind }
  let known ← readDb fun db => (db.anchorsOf id).any fun x => x.kind = kind ∧ x.value = b.value
  if known then
    execDb fun db =>
      if b.state = some .hash ∧ b.hash = "" then .error (invalid "CHECK constraint failed: anchors")
      else Db.updateAnchors id (fun x => x.kind = kind ∧ x.value = b.value) mark db
    return false
  let ordinal ← readDb (·.nextAnchorOrdinal id)
  let fresh := newAnchor id ordinal kind { kind := some kind, value := b.value, extracted := true }
  execDb (Db.insertAnchor (mark fresh))
  return true

def setBaselinesQuietFrom (id : String) : Bool → List Baseline → Tx Bool
  | added, [] => return added
  | added, b :: rest => do
    let new ← setBaselineQuiet id b
    setBaselinesQuietFrom id (added || new) rest

def setBaselinesQuiet (id : String) (baselines : List Baseline) : Tx Unit := do
  let added ← setBaselinesQuietFrom id false baselines
  when added (refreshFts id)

/-- The row with the label of a legacy entry. -/
def Entry.adoptLabel (n : NormalizedLegacy) (e : Entry) : Entry :=
  { e with status := n.status, promoted := n.promoted, verificationMode := n.mode,
           updatedAt := n.updatedAt }

/-- Import one legacy entry, unless its id is taken. The result says whether it was imported. -/
def importEntry (workspaceId : String) (threshold : Int) (a : Actor) (le : LegacyEntry) :
    Tx Bool := do
  let n ← normalizeLegacy env workspaceId le threshold
  let existing ← readDb (·.entry le.id)
  if existing.isSome then
    return false
  let _ ← insertEntry env
    { id := le.id, workspaceId := workspaceId, title := trimSpace le.title, content := le.content,
      permission := .word n.permission, requiredVerifications := le.requiredVerifications,
      requireVerification := le.requireVerification, paths := cleanPaths le.paths,
      searchTokens := le.searchTokens }
    { source := trimSpace le.source, op := .importOp, event := none,
      createdAt := .instant n.createdAt, updatedAt := .instant n.updatedAt } a
  insertVotesFrom le.id (env.digest le.content) 0 n.votes
  setBaselinesQuiet le.id
    ((le.pathHashes.insertionSort fun p q => p.1 ≤ q.1).map legacyBaseline)
  execDb (Db.updateEntry true le.id (Entry.adoptLabel n))
  appendEvent env a
    { workspaceId := workspaceId, entryId := le.id, type := .importEntry, revision := 1,
      newDigest := env.digest le.content, note := n.relabelled,
      data := some [("author", .text (trimSpace le.source)),
        ("label", .promotion n.status n.promoted n.mode), ("votes", .int n.votes.length),
        ("path_baselines", .int le.pathHashes.length)] }
  return true

/-- Import entries in order. A malformed one is skipped if the caller asked for that. -/
def importEntries (workspaceId : String) (threshold : Int) (skipInvalid : Bool) (a : Actor) :
    List LegacyEntry → Tx Unit
  | [] => pure ()
  | le :: rest => do
    try
      let _ ← importEntry env workspaceId threshold a le
    catch e =>
      ensure (e.kind = .invalidEntry ∧ skipInvalid) e
    importEntries workspaceId threshold skipInvalid a rest

/-- Import a legacy file in one transaction. -/
def importContextEntries (workspaceId principal : String) (threshold : Int) (skipInvalid : Bool)
    (entries : List LegacyEntry) : Tx Unit := do
  validId workspaceId
  let a : Actor := { principal := if principal = "" then "xmustard-import" else principal }
  a.validate
  importEntries env workspaceId (if threshold ≤ 0 then 2 else threshold) skipInvalid a entries
  appendEvent env a
    { workspaceId := workspaceId, type := .importEntry,
      data := some [("source", .text "context_entries.json")] }

/-! ### Retention -/

def keepClass : String := "keep"

/-- Old content that retention may drop: neither served nor pending, of an entry not kept. -/
def Db.droppable (db : Db) (cutoff : Time) (r : Revision) : Bool :=
  r.content.isSome && r.createdAt < cutoff && r.state ≠ .pending
    && (db.entry r.entryId).any fun e => r.revision ≠ e.revision ∧ e.retentionClass ≠ keepClass

def Revision.compact (now : Time) (r : Revision) : Revision :=
  { r with content := none, contentDroppedAt := some now, contentDroppedReason := some .retention }

/-- Drop the content of one batch of old revisions. -/
def compactRevisions (cutoff : Time) (batch : Nat) : Tx Unit :=
  execDb fun db =>
    let old := ((db.revisions.filter (db.droppable cutoff)).take batch).map
      fun r => (r.entryId, r.revision)
    db.updateRevisions (fun r => db.droppable cutoff r ∧ (r.entryId, r.revision) ∈ old)
      (Revision.compact env.now)

/-- Delete the first `n` rows that satisfy `p`. -/
def deleteFirst {ρ : Type} (p : ρ → Bool) : Nat → List ρ → List ρ
  | 0, t => t
  | _, [] => []
  | n + 1, r :: t => if p r then deleteFirst p n t else r :: deleteFirst p (n + 1) t

/-- Delete one batch of old delivery rows. -/
def compactDeliveries (cutoff : Time) (batch : Nat) : Tx Unit :=
  writeDb fun db =>
    let old (d : Delivery) : Bool := d.retentionClass ≠ keepClass ∧ d.time < cutoff
    { db with deliveries := deleteFirst old batch db.deliveries }

/-! ### Review subjects

Review records and findings keep their history, anchors and triage verdicts in the shared tables.
Only the constraint-checked statements are modelled, in any order. -/

def reviewEvent (a : Actor) (ev : EventRow) : Tx Unit := do
  ensure (ev.subjectKind ≠ .memory) (invalid "%q is not a review subject")
  appendEvent env a ev

def reviewAnchor (x : Anchor) : Tx Unit := do
  ensure (x.subjectKind ≠ .memory) (invalid "%q is not a review subject")
  execDb (Db.insertAnchor x)

/-- Move or mark the anchor of a review finding. -/
def reviewReanchor (id : String) (f : Anchor → Anchor) : Tx Unit := do
  let known ← readDb (·.subjectExists .reviewFinding id)
  ensure known (.fault .notFound "review finding %s")
  let moved (x : Anchor) : Anchor := { f x with entryId := x.entryId, subjectKind := x.subjectKind }
  writeDb fun db =>
    { db with
      anchors := update (fun x => x.entryId = id ∧ x.subjectKind = .reviewFinding) moved
        db.anchors }

def reviewOutcome (o : Outcome) : Tx Unit := do
  ensure (o.subjectKind ≠ .memory) (invalid "%q is not a review subject")
  execDb (Db.upsertOutcome o)

end GovStore
