import XMustard.Kernel.Context

/-!
# Verdicts

A verdict is recorded, the gate of the entry is adjusted to the kind of write, and the status and
the label are derived again from the votes on the served revision. A verdict on a pending edit
decides that edit first. Enough retract or duplicate verdicts move the entry out of recall.
-/

namespace WorkspaceOps

open GovStore Text Program

variable (host : Host)

/-! ### Counting verdicts -/

/-- How the kernel tells agents apart. -/
@[irreducible] def agentKey (agent : String) : String := toLowerString (trimSpace agent)

/-- A verdict takes the place of an earlier one of the same agent. -/
def noteVerdict (latest : List (String × Bool)) (v : ContextVerification) : List (String × Bool) :=
  if agentKey v.agent = "" then latest
  else latest.filter (·.1 ≠ agentKey v.agent) ++ [(agentKey v.agent, v.approve)]

/-- The latest verdict of each agent, by its key. -/
def latestVerdicts (vs : List ContextVerification) : List (String × Bool) := vs.foldl noteVerdict []

/-- The keys of the agents whose votes are left out. -/
def excludedKeys (excluded : List String) : List String :=
  (excluded.map agentKey).filter (· ≠ "")

/-- The distinct approvals and rejections. -/
def distinctApprovals (vs : List ContextVerification) (excluded : List String) : Nat × Nat :=
  let counted := (latestVerdicts vs).filter fun v => v.1 ∉ excludedKeys excluded
  (counted.countP (·.2), counted.countP (!·.2))

variable (e : ContextEntry)

/-- An entry of the open-mode identity rests on its own word while nobody dissents. -/
def openModeAssertionStands : Bool :=
  !e.requireVerification && isOpenModeIdentity e.source
    && (latestVerdicts e.verifications).all (·.2)
    && (latestVerdicts e.verifications).any (·.1 = openModeIdentity)

/-- The authors do not count where more than one approval is needed. -/
def excludedAuthors (revisionAuthor : String) : List String :=
  if e.requiredVerifications > 1 then [e.source, revisionAuthor] else []

/-- The status and promotion that the verdicts give the entry. -/
def reconcileEntry (revisionAuthor : String) : Status × Bool :=
  let counts := distinctApprovals e.verifications (excludedAuthors e revisionAuthor)
  if (counts.2 : Int) ≥ e.requiredVerifications ∧ counts.2 > 0 then (.rejected, false)
  else if (counts.1 : Int) ≥ e.requiredVerifications ∨ openModeAssertionStands e then
    (.verified, true)
  else (.pending, false)

/-! ### The gate -/

/-- The gate of an entry of the open-mode identity follows the write happening now; any other entry
keeps its own. -/
def regatedRequirement (openModeWrite requireMulti : Bool) (threshold : Int) :
    Int :=
  if !isOpenModeIdentity e.source then e.requiredVerifications
  else if openModeWrite && !e.requireVerification then 1
  else if !openModeWrite && e.requiredVerifications ≤ 1
      && (requireMulti || e.requireVerification) then
    max threshold 1
  else e.requiredVerifications

def regate (ce : ContextEntry) (openModeWrite : Bool) (a : Actor) : Tx Unit :=
  let n := regatedRequirement ce openModeWrite host.requireMulti host.threshold
  when (n ≠ ce.requiredVerifications) do
    let _ ← setRequiredVerifications host.toEnv ce.id n a

/-! ### Baselines -/

/-- The state of the files an entry names: their hashes, or that they are missing. -/
def capturePathHashes (paths : List String) : List (String × Option String) :=
  if host.hasRoot then
    ((paths.map trimSpace).filter (· ≠ "")).eraseDups.map fun p => (p, host.hashFile p)
  else []

def pathBaselines (hashes : List (String × Option String)) : List Baseline :=
  hashes.map fun (p, h) =>
    { kind := some .path, value := p, state := some (if h.isSome then .hash else .missing),
      hash := h.getD "", baselineKind := "file" }

/-! ### Supersession -/

/-- The entries of the list that are still active. Each must be one the author may replace. -/
def liveSupersedes (e : Entry) (req : ScopeRequest) : List String → Tx (List String)
  | [] => return []
  | id :: ids => do
    let old ← getEntry id
    if old.workspaceId ≠ e.workspaceId ∨ old.lifecycle ≠ .active then
      liveSupersedes e req ids
    else
      ensure (scopesVisible old.scope old.scopeKey old.source e.source req)
        (invalid "supersedes %s is not a memory this principal may replace")
      let live ← liveSupersedes e req ids
      return id :: live

variable (e : Entry)

/-- A promoted entry supersedes what its proposal named, once. -/
def applySupersession (a : Actor) : Tx Unit := do
  let olds := pendingSupersedes e
  if olds = [] then
    return
  let req : ScopeRequest :=
    { runId := e.scopeKey, sessionId := e.scopeKey
      dir := if e.scope = .dir then e.scopeKey else "" }
  let live ← liveSupersedes e req olds
  when (live ≠ [])
    (supersede host.toEnv ⟨e.id, live, "superseded by promoted entry " ++ e.id⟩ a)
  let _ ← setClassification host.toEnv e.id
    ⟨e.kind, e.topic, e.tags, e.metadata.filter (·.1 ≠ supersedesKey)⟩ a

/-! ### Settling -/

/-- The label of an entry that its verdicts promote. -/
def promotionMode (entryId : String) (promoted : Bool) (required : Int) : Tx VerificationMode :=
  if promoted then do
    let t ← tally entryId 0
    return verificationMode t required host.threshold
  else return .unset

/-- What follows a settled promotion: the supersession and a first baseline. The result says whether
a baseline was captured. -/
def afterPromotion (ce : ContextEntry) (a : Actor) : Tx Bool := do
  applySupersession host e a
  if ce.pathHashes = [] then
    setBaselines host.toEnv e.id (pathBaselines (capturePathHashes host ce.paths)) a.headSha a
    return true
  else return false

/-- Derive the status and the label of an entry from the votes on the revision it serves. -/
def settleEntry (workspaceId entryId : String) (a : Actor) : Tx (ContextEntry × Bool) := do
  let r ← loadEntryTx workspaceId entryId
  let served ← getRevision entryId r.1.revision
  let verdict := reconcileEntry r.2 served.author
  let mode ← promotionMode host entryId verdict.2 r.2.requiredVerifications
  let e ← setPromotion host.toEnv entryId ⟨some verdict.1, verdict.2, some mode⟩ a
  let ce := { r.2 with status := verdict.1, promoted := verdict.2, verificationMode := mode }
  if verdict.2 then do
    let baselined ← afterPromotion host e ce a
    return ({ ce with supersedes := [] }, baselined)
  else return (ce, false)

/-- Decide a pending revision from the votes on it, by the rule that promotes entries. -/
def settleRevision (workspaceId entryId : String) (rev : Int) (a : Actor) :
    Tx (ContextEntry × Bool) := do
  let r ← loadEntryTx workspaceId entryId
  let pending ← getRevision entryId rev
  let votes ← listVotes entryId rev
  match (reconcileEntry (contextEntryFrom r.1 votes []) pending.author).1 with
  | .verified => do
    let _ ← acceptRevision host.toEnv
      ⟨entryId, rev, host.tokens (pending.title ++ " " ++ pending.content.getD "")⟩ a
    settleEntry host workspaceId entryId a
  | .rejected => do
    let _ ← rejectRevision host.toEnv entryId rev "rejected by verification" a
    settleEntry host workspaceId entryId a
  | .pending => return (r.2, false)

/-! ### Owners -/

def sameOwner (a b : String) : Bool := equalFold (trimSpace a) (trimSpace b)

def recordedOwner (recorded principal : String) : String :=
  fallbackString (trimSpace recorded) (host.principalOwner principal)

/-- The owner that the first edit event of a revision recorded. -/
def Db.editOwner (db : Db) (e : Entry) (rev : Int) : String :=
  match db.events.find? fun ev => ev.entryId = some e.id ∧ ev.workspaceId = e.workspaceId
      ∧ ev.revision = some rev ∧ ev.type = .edit with
  | some ev => ((ev.data.bind (·.provenance)).map (·.owner)).getD ""
  | none => ""

/-- The owner of a revision as it was recorded when the revision was written. -/
def revisionOwner (rv : Revision) : Tx String :=
  if rv.revision = 1 ∧ sameOwner rv.author e.source then
    return recordedOwner host e.sourceOwner e.source
  else do
    let recorded ← readDb fun db => Db.editOwner db e rv.revision
    return recordedOwner host recorded rv.author

/-- The verdicts that decide verification. -/
def ownerBound (v : Verdict) : Bool := v = .approve ∨ v = .reject

def errSameOwner : Err :=
  .fault .sameOwner
    "the owner-distinct policy forbids verifying memory written under the same owner"

/-- Where owners are counted, an owner has one voice on a revision, and none on its own. -/
def checkOwnerDistinct (i : VoteInput) (verdict : Verdict) (voter : ContextActor) :
    Tx Unit :=
  if !ownerBound verdict ∨ e.requiredVerifications ≤ 1 ∨ !ownerDistinct host.settings then
    return ()
  else do
    let rev := if i.revision = 0 then e.revision else i.revision
    let rv ← getRevision e.id rev
    let revOwner ← revisionOwner host e rv
    let mine := fallbackString voter.owner voter.id
    ensure (!sameOwner (recordedOwner host e.sourceOwner e.source) mine) errSameOwner
    ensure (!sameOwner revOwner mine) errSameOwner
    let votes ← listVotes e.id rev
    ensure (votes.all fun v => !(ownerBound v.verdict && !sameOwner v.principal voter.id
      && sameOwner (recordedOwner host v.principalOwner v.principal) mine)) errSameOwner

/-! ### Quorum moves -/

/-- Mark an entry quarantined, keeping its classification and an earlier mark. -/
def markQuarantined (why : String) (a : Actor) : Tx Unit :=
  when (why ≠ "" ∧ e.metadata.get metaQuarantine = "") do
    let _ ← setClassification host.toEnv e.id
      ⟨e.kind, e.topic, e.tags, (metaQuarantine, why) :: e.metadata⟩ a

variable (workspaceId : String)

/-- Retract the entry once enough principals retracted the revision it serves. -/
def retractOnQuorum (ce : ContextEntry) (i : VoteInput) (a : Actor) :
    Tx (ContextEntry × Bool) := do
  let t ← tally ce.id 0
  if (t.retractions : Int) < max ce.requiredVerifications 1 then
    return (ce, false)
  else
    let _ ← transition host.toEnv ce.id { dest := some .retracted, reason := i.note } a
    let out ← entryAfter workspaceId ce.id
    return (out, false)

/-- Merge the entry into the target of its duplicate verdicts once enough principals named it. -/
def mergeOnQuorum (ce : ContextEntry) (i : VoteInput) (a : Actor) :
    Tx (ContextEntry × Bool) := do
  let target ← loadEntryTx workspaceId i.target
  ensure (target.1.served host.now)
    (invalid "duplicate_of target %s is %s, not served memory")
  let votes ← readDb fun db => match db.entry ce.id with
    | none => []
    | some e => servedVotes db e
  let named := votes.countP fun v => v.verdict = .duplicateOf ∧ v.target = i.target
  if (named : Int) < max ce.requiredVerifications 1 then
    return (ce, false)
  else
    markQuarantined host target.1 ce.quarantine a
    let _ ← transition host.toEnv ce.id
      { dest := some .merged, target := i.target,
        reason := fallbackString i.note ("duplicate of " ++ i.target) } a
    let out ← entryAfter workspaceId ce.id
    return (out, false)

/-- The move that a verdict on the served revision makes once there are enough of its kind. -/
def onQuorum (verdict : Verdict) (out : ContextEntry × Bool) (i : VoteInput)
    (a : Actor) : Tx (ContextEntry × Bool) :=
  match verdict with
  | .retract => retractOnQuorum host workspaceId out.1 i a
  | .duplicateOf => mergeOnQuorum host workspaceId out.1 i a
  | .approve | .reject => return out

/-- A peer's approval of a drifted entry is a fresh look at the code: the baselines are captured
again. The result says whether they were. -/
def reverifyOnApprove (ce : ContextEntry) (voter : ContextActor) (a : Actor) :
    Tx Bool :=
  if !e.needsReverify || voter.openMode || equalFold (trimSpace ce.source) (trimSpace voter.id) then
    return false
  else do
    setBaselines host.toEnv e.id (pathBaselines (capturePathHashes host ce.paths)) a.headSha a
    clearDrift host.toEnv e.id a
    return true

/-! ### Casting a verdict -/

/-- A verdict names the served revision or the pending head, and a retraction the served one; where
owners are counted, the voter's owner has no voice there yet. -/
def admitVerdict (i : VoteInput) (verdict : Verdict) (voter : ContextActor) :
    Tx Unit := do
  let onPending := i.revision ≠ 0 ∧ i.revision ≠ e.revision
  ensure (¬(onPending ∧ verdict = .retract))
    (invalid "retract applies to the served revision %d, not revision %d")
  ensure (¬(onPending ∧ i.revision ≠ e.headRevision))
    (staleBase e i.revision "only the served revision or the pending head revision takes votes")
  checkOwnerDistinct host e i verdict voter

/-- The two revisions that the diff shown to a voter is computed from. -/
def revisionDiff (entryId : String) (old new : Int) : Tx (Revision × Revision) := do
  let a ← getRevision entryId old
  let b ← getRevision entryId new
  return (a, b)

/-- What an approval and a quorum of verdicts do to a settled entry. -/
def afterSettling (e : Entry) (ce : ContextEntry) (voter : ContextActor)
    (a : Actor) (i : VoteInput) (verdict : Verdict) (out : ContextEntry × Bool) :
    Tx (ContextEntry × Bool) :=
  if verdict = .approve then do
    let cleared ← reverifyOnApprove host e ce voter a
    onQuorum host workspaceId verdict (out.1, out.2 || cleared) i a
  else onQuorum host workspaceId verdict out i a

/-- What a verdict on the served revision decides. -/
def settleServed (e : Entry) (ce : ContextEntry) (voter : ContextActor)
    (a : Actor) (i : VoteInput) (verdict : Verdict) : Tx (ContextEntry × Bool) := do
  let out ← settleEntry host workspaceId i.entryId a
  afterSettling host workspaceId e ce voter a i verdict out

/-- Adjust the gate and settle what a recorded verdict decides. -/
def settleVerdict (e : Entry) (ce : ContextEntry) (voter : ContextActor)
    (a : Actor) (i : VoteInput) (verdict : Verdict) : Tx (ContextEntry × Bool) := do
  regate host ce voter.openMode a
  if i.revision ≠ 0 ∧ i.revision ≠ e.revision then do
    let _ ← revisionDiff i.entryId e.revision i.revision
    settleRevision host workspaceId i.entryId i.revision a
  else settleServed host workspaceId e ce voter a i verdict

/-- Record one verdict and settle what it decides. -/
def castVerdict (e : Entry) (ce : ContextEntry) (voter : ContextActor)
    (i : VoteInput) (verdict : Verdict) : Tx (ContextEntry × Bool) := do
  let a := voter.storeActor host
  admitVerdict host e i verdict voter
  let _ ← recordVote host.toEnv { i with verdict := some verdict } a
  settleVerdict host workspaceId e ce voter a i verdict

end WorkspaceOps
