import XMustard.Store.Txn

/-!
# SQL statements

The reads and writes that the store's methods are made of, on the database alone. A write is
refused when a constraint or a trigger of the schema refuses it. Statements that the schema never
refuses are plain functions.
-/

namespace GovStore

open Table

/-! ### Reads -/

variable (db : Db)

variable (id : String)

def Db.entry : Option Entry := row (·.id) id db.entries

variable (rev : Int)

def Db.revisionRow : Option Revision :=
  (rows (·.entryId) id db.revisions).find? fun r => r.revision = rev

/-- The verdicts on one revision of an entry, from every epoch. -/
def Db.votesOn : List Vote :=
  (rows (·.entryId) id db.votes).filter fun v => v.revision = rev

def Db.authorKeys : List String :=
  ((rows (·.entryId) id db.revisions).filter fun r => r.revision = rev).map (·.authorKey)

variable (e : Entry)

/-- The vote is an approval that counts toward `peer_verified` for the entry row. -/
def Db.peerApproves (v : Vote) : Bool :=
  v.verdict = .approve ∧ v.epoch = e.voteEpoch ∧ v.principalKey ≠ e.sourceKey
    ∧ v.principalKey ≠ openModeIdentity ∧ v.principalKey ∉ db.authorKeys e.id e.revision

def Db.peerApprovals : List Vote :=
  (db.votesOn e.id e.revision).filter (db.peerApproves e)

/-- The row is labelled `peer_verified` without enough counting approvals. -/
def Db.peerShortfall : Bool :=
  e.verificationMode = .peerVerified ∧ ((db.peerApprovals e).length : Int) < e.requiredVerifications

/-! ### entries -/

/-- The CHECK constraints of an entry row. -/
def Entry.checked : Bool :=
  (e.promoted → e.status = .verified ∧ e.verificationMode ≠ .unset) ∧ e.revision ≤ e.headRevision
    ∧ 1 ≤ e.requiredVerifications ∧ 0 ≤ e.voteEpoch ∧ e.sourceKey ≠ ""

/-- The key the next inserted entry gets. -/
def Db.nextPk : Nat := (db.entries.map (·.pk)).foldr max 0 + 1

def Db.insertEntry (db : Db) : Except Err Db :=
  if e.verificationMode = .peerVerified then
    .error (.fault .invariant "peer_verified requires distinct peer approvals")
  else if db.events.any fun ev => ev.entryId = some e.id ∧ ev.subjectKind ≠ .memory then
    .error (invalid "an entry id may not name a review subject")
  else if !e.checked then .error (invalid "CHECK constraint failed: entries")
  else if (db.entry e.id).isSome then .error
    (.fault .conflict "UNIQUE constraint failed: entries.id")
  else .ok { db with entries := db.entries ++ [e] }

/-- Update the row of an entry. `watched` says whether the statement assigns a column that the
`entries_peer_verified_update` trigger names. -/
def Db.updateEntry (watched : Bool) (id : String) (f : Entry → Entry) (db : Db) : Except Err Db :=
  match db.entry id with
  | none => .ok db
  | some e =>
    if watched && db.peerShortfall (f e) then
      .error (.fault .invariant "peer_verified requires distinct peer approvals")
    else if !(f e).checked then .error (invalid "CHECK constraint failed: entries")
    else .ok { db with entries := update (fun e => e.id = id) f db.entries }

/-! ### revisions -/

def Db.insertRevision (r : Revision) (db : Db) : Except Err Db :=
  if (db.revisionRow r.entryId r.revision).isSome then
    .error (.fault .appendOnly "revision history is immutable")
  else if r.revision < 1 then .error (invalid "CHECK constraint failed: revisions")
  else if (db.entry r.entryId).isNone then .error (invalid "FOREIGN KEY constraint failed")
  else .ok { db with revisions := db.revisions ++ [r] }

/-- What the `revisions_immutable` trigger lets an update do to a row. -/
def Revision.mayBecome (old new : Revision) : Bool :=
  new.entryId = old.entryId ∧ new.revision = old.revision ∧ new.baseRevision = old.baseRevision
    ∧ new.op = old.op ∧ new.contentDigest = old.contentDigest
    ∧ new.contentBytes = old.contentBytes
    ∧ (new.reason = old.reason ∨ (new.reason = "" ∧ new.contentDroppedReason = some .purge))
    ∧ new.author = old.author ∧ new.authorKey = old.authorKey ∧ new.sessionId = old.sessionId
    ∧ new.headSha = old.headSha ∧ new.createdAt = old.createdAt
    ∧ (new.content = old.content ∨ new.content = none)
    ∧ (new.title = old.title ∨ new.title = "")
    ∧ (new.description = old.description ∨ new.description = "")
    ∧ ((new.content = old.content ∧ new.title = old.title ∧ new.description = old.description)
        ∨ new.contentDroppedReason ≠ none)
    ∧ (new.state = old.state ∨ old.state = .pending)
    ∧ (old.contentDroppedReason = some .purge → new.contentDroppedReason = some .purge)
    ∧ (old.contentDroppedReason = some .retention → new.contentDroppedReason ≠ none)

def Db.updateRevisions (p : Revision → Bool) (f : Revision → Revision) (db : Db) : Except Err Db :=
  if db.revisions.all fun r => !p r || r.mayBecome (f r) then
    .ok { db with revisions := update p f db.revisions }
  else .error (.fault .appendOnly "revision history is immutable")

/-! ### votes -/

def Vote.sameKey (v w : Vote) : Bool :=
  w.entryId = v.entryId ∧ w.revision = v.revision ∧ w.principalKey = v.principalKey

def Vote.withOrdinal (v w : Vote) : Vote := { v with ordinal := w.ordinal }

/-- The votes after a verdict is cast or replaced. A replaced verdict keeps its ordinal. -/
def putVote (v : Vote) (votes : List Vote) : List Vote := upsert v.sameKey v.withOrdinal v votes

def Db.upsertVote (v : Vote) (db : Db) : Except Err Db :=
  if v.principalKey = "" then .error (invalid "CHECK constraint failed: votes")
  else .ok { db with votes := putVote v db.votes }

def Db.insertVote (v : Vote) (db : Db) : Except Err Db :=
  if v.principalKey = "" then .error (invalid "CHECK constraint failed: votes")
  else if db.votes.any v.sameKey then
    .error (.fault .conflict "UNIQUE constraint failed: votes.entry_id, revision, principal_key")
  else .ok { db with votes := db.votes ++ [v] }

/-! ### events -/

def Db.nextSeq : Nat := (db.events.map (·.seq)).foldr max 0 + 1

def Db.purged : Bool :=
  match db.entry id with
  | some e => e.lifecycle = .purged
  | none => false

def Event.hasText (ev : Event) : Bool := ev.note.isSome || ev.data.isSome

def Db.insertEvent (ev : Event) (db : Db) : Except Err Db :=
  match ev.entryId with
  | none => .ok { db with events := db.events ++ [{ ev with seq := db.nextSeq }] }
  | some id =>
    if ev.type ≠ .purge ∧ ev.hasText ∧ db.purged id then
      .error (invalid "a purged entry takes no free text")
    else if ev.subjectKind ≠ .memory ∧ (db.entry id).isSome then
      .error (invalid "a review subject id may not name a memory")
    else .ok { db with events := db.events ++ [{ ev with seq := db.nextSeq }] }

def Event.redact (ev : Event) : Event := { ev with note := none, data := none, redacted := true }

/-- Clear the text of an entry's events, which the log allows for a purged entry alone. -/
def Db.redactEvents (db : Db) : Except Err Db :=
  if db.purged id ∨ (∀ ev ∈ db.events, ev.entryId = some id → ev.redacted) then
    let events := update (fun ev => ev.entryId = some id ∧ !ev.redacted) Event.redact db.events
    .ok { db with events := events }
  else .error (.fault .appendOnly "events are append-only")

/-! ### anchors -/

def Db.subjectExists (kind : SubjectKind) (id : String) : Bool :=
  match kind with
  | .memory => (db.entry id).isSome
  | k => db.events.any fun ev => ev.entryId = some id ∧ ev.subjectKind = k

def Anchor.sameKey (a b : Anchor) : Bool :=
  b.entryId = a.entryId ∧ b.kind = a.kind ∧ b.value = a.value

def Db.insertAnchor (a : Anchor) (db : Db) : Except Err Db :=
  if !db.subjectExists a.subjectKind a.entryId then
    .error (invalid "an anchor must name an existing subject")
  else if a.baselineState = .hash ∧ a.baselineHash = "" then
    .error (invalid "CHECK constraint failed: anchors")
  else if db.anchors.any a.sameKey then
    .error (.fault .conflict "UNIQUE constraint failed: anchors.entry_id, kind, value")
  else .ok { db with anchors := db.anchors ++ [a] }

def Db.anchorsOf : List Anchor := rows (·.entryId) id db.anchors

/-- The ordinal after the last one of an entry's anchors. -/
def Db.nextAnchorOrdinal : Int :=
  ((db.anchorsOf id).map (·.ordinal)).foldr max (-1) + 1

/-- Update the anchors of one entry; the result may not repeat a kind and value. -/
def Db.updateAnchors (p : Anchor → Bool) (f : Anchor → Anchor) (db : Db) :
    Except Err Db :=
  let anchors := update (fun a => a.entryId = id && p a) f db.anchors
  if ((rows (·.entryId) id anchors).map fun a => (a.kind, a.value)).Nodup then
    .ok { db with anchors := anchors }
  else .error (.fault .conflict "UNIQUE constraint failed: anchors.entry_id, kind, value")

/-! ### outcomes, claims, relations -/

def Outcome.sameKey (o p : Outcome) : Bool :=
  p.entryId = o.entryId ∧ p.principalKey = o.principalKey

def OutcomeKind.onMemory : OutcomeKind → Bool
  | .helpful | .misleading | .staleHarm => true
  | .confirm | .dismiss | .fixed | .wontFix => false

def Db.upsertOutcome (o : Outcome) (db : Db) : Except Err Db :=
  if !db.subjectExists o.subjectKind o.entryId then
    .error (invalid "an outcome must name an existing subject")
  else if o.principalKey = "" ∨ o.subjectKind = .reviewRecord
      ∨ ¬((o.subjectKind = .memory) ↔ o.outcome.onMemory) then
    .error (invalid "CHECK constraint failed: outcomes")
  else .ok { db with outcomes := upsert o.sameKey (fun _ => o) o db.outcomes }

def Claim.sameKey (c d : Claim) : Bool :=
  d.entryId = c.entryId ∧ d.subject = c.subject ∧ d.predicate = c.predicate ∧ d.object = c.object

def Db.hasClaim (c : Claim) : Bool := db.claims.any c.sameKey

def Db.insertClaim (c : Claim) (db : Db) : Db :=
  if db.hasClaim c then db else { db with claims := db.claims ++ [c] }

def RelationRow.sameKey (a b : RelationRow) : Bool :=
  b.fromId = a.fromId ∧ b.toId = a.toId ∧ b.kind = a.kind

def Db.hasRelation (a : RelationRow) : Bool := db.relations.any a.sameKey

def Db.insertRelation (a : RelationRow) (db : Db) : Db :=
  if db.hasRelation a then db else { db with relations := db.relations ++ [a] }

/-! ### Reads of one row -/

def getEntry : Tx Entry :=
  queryDb fun db => match db.entry id with
    | some e => .ok e
    | none => .error (.fault .notFound "entry %s")

def getRevision : Tx Revision :=
  queryDb fun db => match db.revisionRow id rev with
    | some r => .ok r
    | none => .error (.fault .notFound "revision %d of %s")

/-- An entry that is not purged. -/
def liveEntry : Tx Entry := do
  let e ← getEntry id
  Program.ensure (e.lifecycle ≠ .purged) (invalid "entry %s is purged")
  return e

end GovStore
