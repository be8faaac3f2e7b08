import Mathlib.Data.List.Sort
import XMustard.Store.Entries

/-!
# Votes

A verdict binds to one revision of an entry and to the vote epoch it was cast in. A principal has
one verdict per revision; a new one replaces it. The tally counts the verdicts of the current
epoch, and the verification mode is read off the tally.
-/

namespace GovStore

open Text Program

variable (env : Env)

structure VoteInput where
  entryId : String
  revision : Int
  verdict : Option Verdict
  target : String := ""
  note : String := ""
  evidenceHandle : String := ""

/-- The verdicts on a revision that count: those of the entry's current epoch. -/
def Db.countingVotes (db : Db) (e : Entry) (rev : Int) : List Vote :=
  (db.votesOn e.id rev).filter fun v => v.epoch = e.voteEpoch

/-- The revision a reader means: 0 is the served one. -/
def resolveRevision (id : String) (rev : Int) : Tx Int :=
  if rev > 0 then return rev
  else do
    let e ← getEntry id
    return e.revision

/-- The counting verdicts on a revision, in cast order. -/
def listVotes (id : String) (rev : Int) : Tx (List Vote) := do
  let rev ← resolveRevision id rev
  readDb fun db => match db.entry id with
    | none => []
    | some e => (db.countingVotes e rev).insertionSort fun v w => v.ordinal ≤ w.ordinal

structure Tally where
  approvals : Nat
  rejections : Nat
  peerApprovals : Nat
  peerRejections : Nat
  authorApproved : Bool
  openModeApproved : Bool
  retractions : Nat
  duplicates : Nat

/-- The author key of a revision, or the entry's source key where the revision is missing. -/
def Db.authorKey (db : Db) (e : Entry) (rev : Int) : String :=
  ((db.revisionRow e.id rev).map (·.authorKey)).getD e.sourceKey

def Db.tally (db : Db) (e : Entry) (rev : Int) : Tally :=
  let votes := db.countingVotes e rev
  let authors := [e.sourceKey, db.authorKey e rev]
  let peer (v : Vote) : Bool := v.principalKey ∉ authors ∧ v.principalKey ≠ openModeIdentity
  let count (d : Verdict) (p : Vote → Bool) : Nat := votes.countP fun v => v.verdict = d && p v
  { approvals := count .approve fun _ => true
    rejections := count .reject fun _ => true
    peerApprovals := count .approve peer
    peerRejections := count .reject peer
    authorApproved := votes.any fun v => v.verdict = .approve ∧ v.principalKey ∈ authors
    openModeApproved := votes.any fun v => v.verdict = .approve ∧ v.principalKey = openModeIdentity
    retractions := count .retract fun _ => true
    duplicates := count .duplicateOf fun _ => true }

def tally (id : String) (rev : Int) : Tx Tally := do
  let rev ← resolveRevision id rev
  readDb fun db => match db.entry id with
    | none => ⟨0, 0, 0, 0, false, false, 0, 0⟩
    | some e => db.tally e rev

/-- How a promoted entry's served revision earned its promotion. -/
def verificationMode (t : Tally) (required threshold : Int) : VerificationMode :=
  let need := if required ≤ 1 then max threshold 1 else required
  if (t.peerApprovals : Int) ≥ need then .peerVerified
  else if t.openModeApproved then .selfAssertedOpenMode
  else .singleAgent

def Verdict.text : Verdict → String
  | .approve => "approve"
  | .reject => "reject"
  | .duplicateOf => "duplicate_of"
  | .retract => "retract"

/-- Only a duplicate verdict names a target, and then another entry of the workspace. -/
def validateTarget (cur : Entry) (verdict : Verdict) (i : VoteInput) : Tx Unit :=
  if verdict = .duplicateOf then do
    ensure (i.target ≠ "" ∧ i.target ≠ i.entryId)
      (invalid "duplicate_of needs another entry as target")
    let target ← getEntry i.target
    ensure (target.workspaceId = cur.workspaceId)
      (invalid "duplicate_of target %s is in another workspace")
  else ensure (i.target = "") (invalid "only duplicate_of takes a target")

/-- The ordinal of a principal's verdict: the one it has, or the next of the revision. -/
def Db.voteOrdinal (db : Db) (id : String) (rev : Int) (key : String) : Int :=
  match (db.votesOn id rev).find? fun v => v.principalKey = key with
  | some v => v.ordinal
  | none => ((db.votesOn id rev).map (·.ordinal)).foldr max (-1) + 1

/-- The row of a verdict cast by an actor. -/
def newVote (i : VoteInput) (verdict : Verdict) (cur : Entry) (rv : Revision) (ordinal : Int)
    (a : Actor) : Vote where
  entryId := i.entryId
  revision := rv.revision
  principal := trimSpace a.principal
  principalKey := principalKey (trimSpace a.principal)
  principalOwner := a.owner
  principalKind := a.kind
  verdict := verdict
  target := i.target
  note := i.note
  evidenceHandle := i.evidenceHandle
  contentDigest := rv.contentDigest
  sessionId := a.sessionId
  ordinal := ordinal
  epoch := cur.voteEpoch
  time := env.now

/-- Store the actor's verdict on the served or a pending revision of an active entry. -/
def recordVote (i : VoteInput) (a : Actor) : Tx Vote := do
  a.validate
  match i.verdict with
  | none => throw (invalid "verdict %q")
  | some verdict => do
    ensure (i.note.utf8ByteSize ≤ maxNoteLen) (invalid "note longer than %d bytes")
    let cur ← getEntry i.entryId
    ensure (cur.lifecycle = .active) (invalid "entry %s is %s and takes no votes")
    let rev := if i.revision = 0 then cur.revision else i.revision
    let rv ← getRevision i.entryId rev
    ensure (rev = cur.revision ∨ rv.state = .pending)
      (invalid "revision %d of %s is neither served nor pending")
    validateTarget cur verdict i
    let ordinal ← readDb fun db =>
        db.voteOrdinal i.entryId rev (principalKey (trimSpace a.principal))
    let vote := newVote env i verdict cur rv ordinal a
    execDb (Db.upsertVote vote)
    appendEvent env a
      { workspaceId := cur.workspaceId, entryId := i.entryId,
        type := if verdict = .reject then .reject else .vote, revision := rev,
        newDigest := rv.contentDigest, note := i.note,
        data := some [("verdict", .text verdict.text), ("target", .text i.target),
          ("evidence_handle", .text i.evidenceHandle)] }
    touch i.entryId
    return vote

end GovStore
