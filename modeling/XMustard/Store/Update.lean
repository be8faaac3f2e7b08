import XMustard.Store.Feedback
import XMustard.Store.Import
import XMustard.Store.Sharing

/-!
# Committed transactions

`Db.update` is the store's only way to write: it runs a callback in a fresh transaction, checks the
entries the transaction collected, and commits or rolls back. A callback may ignore the error of a
method it called and go on, so the history of a store is a list of transactions, each a list of
writes that may each have failed half-way.
-/

namespace GovStore

/-- A transaction as it begins. -/
def Db.start (db : Db) : Txn := ⟨db, [], false⟩

/-- The entries the commit looks at that are labelled `peer_verified` without enough approvals:
every entry once too many were touched, the touched ones otherwise. -/
def Txn.violations (t : Txn) : List Entry :=
  t.db.entries.filter fun e => (t.touchedAll || t.touched.contains e.id) && t.db.peerShortfall e

def checkInvariants : Tx Unit :=
  Program.query fun t =>
    if t.violations = [] then .ok ()
    else .error (.fault .invariant
      "entry %s is peer_verified without enough distinct peer approvals")

/-- Run a callback in a transaction: its result, and the database afterwards. -/
def Db.update {α : Type} (db : Db) (fn : Tx α) : Except Err α × Db :=
  match (do let a ← fn; checkInvariants; return a : Tx α) db.start with
  | (.ok a, t) => (.ok a, t.db)
  | (.error e, _) => (.error e, db)

/-- The writes a transaction offers. -/
inductive TxWrite
  | insertEntry (i : NewEntry) (a : Actor)
  | setPromotion (id : String) (p : Promotion) (a : Actor)
  | supersede (i : SupersedeInput) (a : Actor)
  | transition (id : String) (i : TransitionInput) (a : Actor)
  | setExpiry (id : String) (expiresAt : TimeText) (a : Actor)
  | setTier (id : String) (tier : Choice Tier) (a : Actor)
  | setRequiredVerifications (id : String) (n : Int) (a : Actor)
  | setClassification (id : String) (c : Classification) (a : Actor)
  | purge (id reason : String) (a : Actor)
  | appendRevision (i : RevisionInput) (a : Actor)
  | acceptRevision (i : AcceptInput) (a : Actor)
  | rejectRevision (id : String) (revision : Int) (reason : String) (a : Actor)
  | recordVote (i : VoteInput) (a : Actor)
  | appendEvent (i : EventInput) (a : Actor)
  | replaceAnchors (id : String) (paths : List String) (anchors : List AnchorInput)
      (a : Actor)
  | setBaselines (id : String) (baselines : List Baseline) (commit : String) (a : Actor)
  | markStale (id : String) (refs : List (AnchorKind × String)) (commit : String)
      (a : Actor)
  | clearDrift (id : String) (a : Actor)
  | reanchorCode (id : String) (moves : List CodeMove) (commit : String) (a : Actor)
  | addClaim (i : ClaimInput) (a : Actor)
  | addRelation (fromId toId : String) (kind : Option RelationKind) (a : Actor)
  | recordOutcome (i : OutcomeInput) (a : Actor)
  | recordDeliveries (items : List DeliveryInput) (a : Actor)
  | corroborate (id : String) (a : Actor)
  | backfillDedupeKeys (max : Int)
  | createCollection (fresh : String) (i : CollectionInput) (a : Actor)
  | addToCollection (collectionId entryId : String) (a : Actor)
  | removeFromCollection (collectionId entryId : String) (a : Actor)
  | addGrant (fresh : String) (i : GrantInput) (a : Actor)
  | revokeGrant (id : String) (a : Actor)
  | setApplicability (entryId target : String) (state : Option Applicable) (a : Actor)
  | importContextEntries (workspaceId principal : String) (threshold : Int)
      (skipInvalid : Bool) (entries : List LegacyEntry)
  | compactRevisions (cutoff : Time) (batch : Nat)
  | compactDeliveries (cutoff : Time) (batch : Nat)
  | reviewEvent (a : Actor) (ev : EventRow)
  | reviewAnchor (x : Anchor)
  | reviewReanchor (id : String) (f : Anchor → Anchor)
  | reviewOutcome (o : Outcome)

/-- Run one write, dropping its result. -/
def TxWrite.run (env : Env) : TxWrite → Tx Unit
  | insertEntry i a => do let _ ← GovStore.insertEntryBy env i a
  | setPromotion id p a => do let _ ← GovStore.setPromotion env id p a
  | supersede i a => GovStore.supersede env i a
  | transition id i a => do let _ ← GovStore.transition env id i a
  | setExpiry id t a => do let _ ← GovStore.setExpiry env id t a
  | setTier id tier a => do let _ ← GovStore.setTier env id tier a
  | setRequiredVerifications id n a => do let _ ← GovStore.setRequiredVerifications env id n a
  | setClassification id c a => do let _ ← GovStore.setClassification env id c a
  | purge id reason a => GovStore.purge env id reason a
  | appendRevision i a => do let _ ← GovStore.appendRevision env i a
  | acceptRevision i a => do let _ ← GovStore.acceptRevision env i a
  | rejectRevision id revision reason a => do
    let _ ← GovStore.rejectRevision env id revision reason a
  | recordVote i a => do let _ ← GovStore.recordVote env i a
  | appendEvent i a => GovStore.appendEventInput env a i
  | replaceAnchors id paths anchors a => GovStore.replaceAnchors env id paths anchors a
  | setBaselines id baselines commit a => GovStore.setBaselines env id baselines commit a
  | markStale id refs commit a => do let _ ← GovStore.markStale env id refs commit a
  | clearDrift id a => GovStore.clearDrift env id a
  | reanchorCode id moves commit a => GovStore.reanchorCode env id moves commit a
  | addClaim i a => GovStore.addClaim env i a
  | addRelation fromId toId kind a => GovStore.addRelationBy env fromId toId kind a
  | recordOutcome i a => GovStore.recordOutcome env i a
  | recordDeliveries items a => GovStore.recordDeliveries env items a
  | corroborate id a => do let _ ← GovStore.corroborate env id a
  | backfillDedupeKeys max => do let _ ← GovStore.backfillDedupeKeys env max
  | createCollection fresh i a => GovStore.createCollection env fresh i a
  | addToCollection c e a => do let _ ← GovStore.addToCollection env c e a
  | removeFromCollection c e a => do let _ ← GovStore.removeFromCollection env c e a
  | addGrant fresh i a => GovStore.addGrant env fresh i a
  | revokeGrant id a => GovStore.revokeGrant env id a
  | setApplicability e target state a => GovStore.setApplicability env e target state a
  | importContextEntries ws principal threshold skip entries =>
    GovStore.importContextEntries env ws principal threshold skip entries
  | compactRevisions cutoff batch => GovStore.compactRevisions env cutoff batch
  | compactDeliveries cutoff batch => GovStore.compactDeliveries cutoff batch
  | reviewEvent a ev => GovStore.reviewEvent env a ev
  | reviewAnchor x => GovStore.reviewAnchor x
  | reviewReanchor id f => GovStore.reviewReanchor id f
  | reviewOutcome o => GovStore.reviewOutcome o

/-- Run the writes of a callback that ignores their errors, each with its clock reading. -/
def runWrites (h : Hashing) : List (Time × TxWrite) → Tx Unit
  | [] => pure ()
  | (now, w) :: ws => do
    try w.run ⟨h, now⟩ catch _ => pure ()
    runWrites h ws

/-- The database after a transaction of these writes, committed or rolled back. -/
def Db.transact (h : Hashing) (db : Db) (ws : List (Time × TxWrite)) : Db :=
  (db.update (runWrites h ws)).2

/-- The database after a history of transactions. -/
def Db.history (h : Hashing) (db : Db) (txs : List (List (Time × TxWrite))) : Db :=
  txs.foldl (Db.transact h) db

/-- A committed state of a store that started empty. -/
def Reachable (h : Hashing) (db : Db) : Prop := ∃ txs, db = Db.empty.history h txs

/-- Content that is its own digest and has no postings: enough to run small histories. -/
def Hashing.plain : Hashing := ⟨id, fun _ _ => []⟩

end GovStore
