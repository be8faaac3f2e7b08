import XMustard.Store.Txn

/-!
# Consolidation jobs

The work queue: jobs with compare-and-set leases. Every call is one transaction over the `jobs`
table, whose rows are kept in `pk` order; a call that fails leaves the table as it was.
-/

namespace GovStore

open Table Text Program

inductive JobState
  | queued | leased | done | failed | cancelled
  deriving DecidableEq

/-- A crashed lease is claimable again; these states are never left. -/
def JobState.finished : JobState → Bool
  | .done | .failed | .cancelled => true
  | .queued | .leased => false

inductive JobKind
  | dedupeCluster | staleAnchor | orphanedAnchor | supersessionChain | ageingProposal
  | sessionDigest | initSeed | reviewDuplicate
  deriving DecidableEq

/-- The kind of subject the candidate ids of a job name. -/
def JobKind.subject : JobKind → SubjectKind
  | .reviewDuplicate => .reviewFinding
  | _ => .memory

structure Job where
  id : String
  workspaceId : String
  kind : JobKind
  subjectKind : SubjectKind
  state : JobState := .queued
  conflictSignature : String
  candidateIds : List String
  evidenceRefs : List String
  instructions : String
  payload : String
  leaseOwner : String := ""
  leaseExpiresAt : Option Time := none
  leaseVersion : Nat := 0
  attempts : Nat := 0
  maxAttempts : Nat
  result : Option String := none
  error : List UInt8 := []
  createdAt : Time
  updatedAt : Time
  finishedAt : Option Time := none
  deriving DecidableEq

inductive JobFault
  | notFound | conflict | invalid | busy
  deriving DecidableEq

structure JobErr where
  fault : JobFault
  text : String

/-- A statement or a sequence of statements over the `jobs` table. -/
abbrev JobTx := Program (List Job) JobErr

/-- A value to store as JSON: its text, or none when it has none. -/
abbrev Json := Option String

/-- What a job is enqueued with; an unknown kind is none, and `id` is the id the store makes up. -/
structure JobInput where
  id : String
  workspaceId : String
  kind : Option JobKind
  conflictSignature : String
  candidateIds : List String
  evidenceRefs : List String
  instructions : String
  payload : Option Json
  maxAttempts : Int

structure ClaimRequest where
  workspaceId : String
  kinds : List JobKind
  lease : Time

/-- A held lease: every lease operation compares-and-sets its version. -/
structure Lease where
  jobId : String
  owner : String
  version : Nat
  deriving DecidableEq

namespace JobTx

def refuse (fault : JobFault) (text : String) : JobErr := ⟨fault, text⟩

def validate (a : Actor) : JobTx Unit := do
  ensure (trimSpace a.principal ≠ "") (refuse .invalid "actor principal is required")
  ensure (nameOk a.principal) (refuse .invalid "actor principal is malformed")

variable (id : String)

def validId : JobTx Unit := ensure (idOk id) (refuse .invalid "%s id %q")

def encodeJson (v : Json) : JobTx String :=
  match v with
  | some text => return text
  | none => throw (refuse .invalid "%v")

/-- `encodeJson` of a value that may be missing. -/
def encodeOptional : Option Json → JobTx (Option String)
  | none => return none
  | some v => some <$> encodeJson v

def getJob : JobTx Job := query fun jobs =>
  match row Job.id id jobs with
  | some j => .ok j
  | none => .error (refuse .notFound "job %s")

/-- The unique index on workspace and signature covers the jobs that are not cancelled. -/
def occupied (workspaceId signature : String) (j : Job) : Bool :=
  j.workspaceId = workspaceId && j.conflictSignature = signature && j.state ≠ .cancelled

/-- `INSERT INTO jobs`, with the constraints of the table. -/
def insertJob (j : Job) : JobTx Unit := exec fun jobs =>
  if j.conflictSignature = "" ∨ j.maxAttempts < 1 then
    .error (refuse .invalid "CHECK constraint failed: jobs")
  else if jobs.any (·.id = j.id) then .error (refuse .conflict "UNIQUE constraint failed: jobs.id")
  else if jobs.any (occupied j.workspaceId j.conflictSignature) then
    .error (refuse .conflict "UNIQUE constraint failed: jobs_signature")
  else .ok (jobs ++ [j])

/-- `UPDATE jobs`: how many rows it changed. -/
def updateJobs (p : Job → Bool) (f : Job → Job) : JobTx Nat := fun jobs =>
  (.ok (jobs.countP p), update p f jobs)

/-- Add a job, or return the existing job with the same signature; the flag says which. -/
def enqueueJob (i : JobInput) (now : Time) (a : Actor) : JobTx (Job × Bool) := do
  validate a
  validId i.workspaceId
  match i.kind with
  | none => throw (refuse .invalid "job kind %q")
  | some kind =>
    ensure (trimSpace i.conflictSignature ≠ "" ∧ nameOk i.conflictSignature)
      (refuse .invalid "conflict signature %q")
    let existing ← query fun jobs =>
      .ok (jobs.find? (occupied i.workspaceId i.conflictSignature))
    match existing with
    | some j => return (j, false)
    | none =>
      let payload ← encodeOptional i.payload
      insertJob
        { id := i.id, workspaceId := i.workspaceId, kind := kind, subjectKind := kind.subject
          conflictSignature := i.conflictSignature, candidateIds := i.candidateIds
          evidenceRefs := i.evidenceRefs, instructions := i.instructions
          payload := payload.getD "\x7b\x7d"
          maxAttempts := if i.maxAttempts ≤ 0 then 3 else i.maxAttempts.toNat
          createdAt := now, updatedAt := now }
      let j ← getJob i.id
      return (j, true)

/-- A queued job, or a leased one whose lease has expired. -/
def claimable (req : ClaimRequest) (now : Time) (j : Job) : Bool :=
  j.workspaceId = req.workspaceId
    && (j.state = .queued || (j.state = .leased && (j.leaseExpiresAt.any (· ≤ now))))
    && (req.kinds.isEmpty || req.kinds.contains j.kind)

/-- An expired lease with no attempts left. -/
def Job.expire (now : Time) (j : Job) : Job :=
  { j with
    state := .failed, error := (s!"lease expired after {j.attempts} attempts").toUTF8.toList
    finishedAt := some now, updatedAt := now, leaseOwner := "", leaseExpiresAt := none }

def Job.lease (owner : String) (expires now : Time) (j : Job) : Job :=
  { j with
    state := .leased, leaseOwner := owner, leaseExpiresAt := some expires
    leaseVersion := j.leaseVersion + 1, attempts := j.attempts + 1, updatedAt := now }

def isAt (version : Nat) (j : Job) : Bool := j.id = id && j.leaseVersion = version

/-- The loop of `ClaimJob`, at most `n` more times; `clock` is the time read each time. -/
def claimLoop (req : ClaimRequest) (owner : String) (lease : Time) (clock : Nat → Time) :
    Nat → JobTx (Option Job)
  | 0 => throw (refuse .busy "too many expired jobs to scan")
  | n + 1 => do
    let now := clock n
    let oldest ← query fun jobs => .ok (jobs.find? (claimable req now))
    match oldest with
    | none => return none
    | some j =>
      if j.state = .leased ∧ j.maxAttempts ≤ j.attempts then
        let _ ← updateJobs (isAt j.id j.leaseVersion) (Job.expire now)
        claimLoop req owner lease clock n
      else
        let changed ← updateJobs (isAt j.id j.leaseVersion) (Job.lease owner (now + lease) now)
        if changed = 0 then claimLoop req owner lease clock n
        else some <$> getJob j.id

def fiveMinutes : Time := 300000000000

/-- Lease the oldest claimable job of a workspace. -/
def claimJob (req : ClaimRequest) (clock : Nat → Time) (a : Actor) : JobTx (Option Job) := do
  validate a
  validId req.workspaceId
  claimLoop req (trimSpace a.principal) (if req.lease ≤ 0 then fiveMinutes else req.lease) clock
    maxListLimit

variable (l : Lease)

/-- Whether a lease is still held on a job. -/
def Lease.held (j : Job) : Bool :=
  j.id = l.jobId && j.state = .leased && j.leaseOwner = l.owner && j.leaseVersion = l.version

def leaseUpdate (f : Job → Job) : JobTx Job := do
  let changed ← updateJobs (Lease.held l) f
  if changed = 0 then
    let _ ← getJob l.jobId
    throw (refuse .conflict "lease %s@%d on job %s is no longer held")
  else getJob l.jobId

def Job.renew (expires now : Time) (j : Job) : Job :=
  { j with leaseExpiresAt := some expires, updatedAt := now }

def Job.finish (state : JobState) (now : Time) (j : Job) : Job :=
  { j with
    state := state, finishedAt := some now, updatedAt := now, leaseOwner := ""
    leaseExpiresAt := none }

def Job.complete (result : Option String) (now : Time) (j : Job) : Job :=
  { Job.finish .done now j with result := result }

def Job.fail (reason : List UInt8) (now : Time) (j : Job) : Job :=
  { Job.finish .failed now j with error := reason }

def renewLease (d now : Time) (a : Actor) : JobTx Job := do
  validate a
  ensure (0 < d) (refuse .invalid "lease duration %s")
  leaseUpdate l (Job.renew (now + d) now)

def completeJob (result : Option Json) (now : Time) (a : Actor) : JobTx Job := do
  validate a
  let result ← encodeOptional result
  leaseUpdate l (Job.complete result now)

/-- Finish a held job as failed; the reason is cut to the longest note, in bytes. -/
def failJob (reason : List UInt8) (now : Time) (a : Actor) : JobTx Job := do
  validate a
  let reason := if maxNoteLen < reason.length then reason.take maxNoteLen else reason
  leaseUpdate l (Job.fail reason now)

/-- Cancel a queued or leased job; its signature becomes free again. -/
def cancelJob (now : Time) (a : Actor) : JobTx Job := do
  validate a
  let changed ← updateJobs (fun j => j.id = id && !j.state.finished) (Job.finish .cancelled now)
  let j ← getJob id
  ensure (changed ≠ 0 ∨ j.state = .cancelled) (refuse .invalid "job %s is %s")
  return j

end JobTx

inductive JobCall
  | enqueue (i : JobInput) (now : Time) (a : Actor)
  | claim (req : ClaimRequest) (clock : Nat → Time) (a : Actor)
  | renew (l : Lease) (d now : Time) (a : Actor)
  | complete (l : Lease) (result : Option Json) (now : Time) (a : Actor)
  | fail (l : Lease) (reason : List UInt8) (now : Time) (a : Actor)
  | cancel (id : String) (now : Time) (a : Actor)

inductive JobAnswer
  | enqueued (j : Job) (added : Bool)
  | claimed (j : Option Job)
  | updated (j : Job)

def JobCall.tx : JobCall → JobTx JobAnswer
  | .enqueue i now a => do let (j, added) ← JobTx.enqueueJob i now a; return .enqueued j added
  | .claim req clock a => do let j ← JobTx.claimJob req clock a; return .claimed j
  | .renew l d now a => do let j ← JobTx.renewLease l d now a; return .updated j
  | .complete l result now a => do let j ← JobTx.completeJob l result now a; return .updated j
  | .fail l reason now a => do let j ← JobTx.failJob l reason now a; return .updated j
  | .cancel id now a => do let j ← JobTx.cancelJob id now a; return .updated j

/-- One transaction: it commits when it succeeds, and leaves the table as it was otherwise. -/
def jobStep (jobs : List Job) (c : JobCall) : Except JobErr JobAnswer × List Job :=
  match c.tx jobs with
  | (.ok answer, jobs') => (.ok answer, jobs')
  | (.error e, _) => (.error e, jobs)

end GovStore
