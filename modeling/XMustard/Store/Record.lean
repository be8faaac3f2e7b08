import XMustard.Store.Update

/-!
# The record of an entry

A record gathers what the store holds about one entry: its row, and its rows in the tables that
refer to it. Nearly every statement concerns the record of one entry and leaves the records of all
others as they were.
-/

namespace GovStore

open Table

/-- Everything the store holds about one entry. -/
structure Record where
  row : Entry
  revisions : List Revision
  votes : List Vote
  events : List Event
  anchors : List Anchor
  claims : List Claim
  outcomes : List Outcome
  members : List CollectionMember
  postings : List DedupeKey

/-- The record of an entry row. -/
def Db.recordOf (db : Db) (e : Entry) : Record where
  row := e
  revisions := rows (·.entryId) e.id db.revisions
  votes := rows (·.entryId) e.id db.votes
  events := rows (·.entryId) (some e.id) db.events
  anchors := rows (·.entryId) e.id db.anchors
  claims := rows (·.entryId) e.id db.claims
  outcomes := rows (·.entryId) e.id db.outcomes
  members := rows (·.entryId) e.id db.members
  postings := rows (·.entryPk) e.pk db.dedupeKeys

def Db.record (db : Db) (id : String) : Option Record := (db.entry id).map db.recordOf

variable {id : String} {db : Db}

lemma Db.record_eq_some {r : Record} (h : db.record id = some r) :
    db.entry id = some r.row ∧ r = db.recordOf r.row ∧ r.row.id = id := by
  obtain ⟨e, he, rfl⟩ := Option.map_eq_some_iff.1 h
  exact ⟨he, rfl, (row_eq_some he).2⟩

variable {e : Entry}

lemma Db.record_of_entry (h : db.entry id = some e) :
    db.record id = some (db.recordOf e) := by
  simp [Db.record, h]

lemma Db.record_eq_none : db.record id = none ↔ db.entry id = none := by
  simp [Db.record]

/-! ### Governance columns -/

/-- The columns of an entry row that governance decides on. -/
structure EntryCore where
  pk : Nat
  id : String
  workspaceId : String
  permission : Permission
  status : Status
  promoted : Bool
  verificationMode : VerificationMode
  lifecycle : Lifecycle
  requiredVerifications : Int
  voteEpoch : Int
  requireVerification : Bool
  source : String
  sourceKey : String
  revision : Int
  headRevision : Int
  contentDigest : String
  supersededBy : String
  mergedInto : String

def Entry.core (e : Entry) : EntryCore where
  pk := e.pk
  id := e.id
  workspaceId := e.workspaceId
  permission := e.permission
  status := e.status
  promoted := e.promoted
  verificationMode := e.verificationMode
  lifecycle := e.lifecycle
  requiredVerifications := e.requiredVerifications
  voteEpoch := e.voteEpoch
  requireVerification := e.requireVerification
  source := e.source
  sourceKey := e.sourceKey
  revision := e.revision
  headRevision := e.headRevision
  contentDigest := e.contentDigest
  supersededBy := e.supersededBy
  mergedInto := e.mergedInto

/-! ### The governance state of a memory -/

/-- The governance state of one memory. -/
structure Memory where
  row : EntryCore
  revisions : List Revision
  votes : List Vote

def Record.memory (r : Record) : Memory := ⟨r.row.core, r.revisions, r.votes⟩

namespace Memory

variable (m : Memory)

def authorKeys : List String :=
  (m.revisions.filter fun x => x.revision = m.row.revision).map (·.authorKey)

def peerApproves (v : Vote) : Bool :=
  v.verdict = .approve ∧ v.epoch = m.row.voteEpoch ∧ v.principalKey ≠ m.row.sourceKey
    ∧ v.principalKey ≠ openModeIdentity ∧ v.principalKey ∉ m.authorKeys

/-- The approvals of the served revision by peers, in the current epoch. -/
def peerApprovals : List Vote :=
  (m.votes.filter fun v => v.revision = m.row.revision).filter m.peerApproves

/-- Labelled `peer_verified` with too few peer approvals. -/
def shortfall : Prop :=
  m.row.verificationMode = .peerVerified
    ∧ (m.peerApprovals.length : Int) < m.row.requiredVerifications

end Memory

lemma Db.peerShortfall_iff (db : Db) (e : Entry) :
    db.peerShortfall e = true ↔ (db.recordOf e).memory.shortfall := by
  simp only [Db.peerShortfall, Memory.shortfall, decide_eq_true_eq]
  rfl

/-! ### Well-formed databases -/

/-- An event as the log holds it: a redacted one has no text, and one about a review subject
names no entry. -/
structure Db.Admits (db : Db) (ev : Event) : Prop where
  redacted : ev.redacted → ev.note = none ∧ ev.data = none
  disjoint : ev.subjectKind ≠ .memory → ∀ id, ev.entryId = some id → db.entry id = none

/-- What the constraints of the schema keep: unique ids and keys, checked rows and no stray
references. -/
structure Db.Wf (db : Db) : Prop where
  ids : (db.entries.map (·.id)).Nodup
  named : ∀ e ∈ db.entries, e.id ≠ ""
  pks : (db.entries.map (·.pk)).Nodup
  checked : ∀ e ∈ db.entries, e.checked
  revisionsOwned : ∀ r ∈ db.revisions, (db.entry r.entryId).isSome
  votesOwned : ∀ v ∈ db.votes, (db.entry v.entryId).isSome
  events : ∀ ev ∈ db.events, db.Admits ev

lemma Db.Wf.empty : Db.empty.Wf := by
  constructor <;> simp [Db.empty]

lemma Db.entry_of_mem (hdb : db.Wf) (he : e ∈ db.entries) :
    db.entry e.id = some e :=
  row_of_mem hdb.ids he

lemma Db.entry_mem (h : db.entry id = some e) :
    e ∈ db.entries ∧ e.id = id :=
  row_eq_some h

/-- Two entries with one key are one entry. -/
lemma Db.Wf.id_of_pk (hdb : db.Wf) {id' : String} {e' : Entry}
    (h : db.entry id = some e) (h' : db.entry id' = some e') (hpk : e.pk = e'.pk) : id = id' := by
  have hee' : e = e' := List.inj_on_of_nodup_map hdb.pks (entry_mem h).1 (entry_mem h').1 hpk
  rw [← (entry_mem h).2, ← (entry_mem h').2, hee']

end GovStore
