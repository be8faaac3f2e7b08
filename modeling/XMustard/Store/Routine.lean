import XMustard.Store.History

/-!
# Routine statements

Most methods of the store only touch entries, rewrite columns of a row that say nothing about what
it serves, decide revisions, log events that are no edits, and write tables of their own. A relation
between transaction states that holds across each of these holds along all of these methods, which
is proved here once for every such relation.
-/

namespace GovStore

open Table Program

variable {db db' : Db} {id : String} {S : Txn → Txn → Prop} {type : EventType}

/-- The function keeps the keys of a row, its workspace, its source and the revision it serves. -/
def KeepsServed (f : Entry → Entry) : Prop :=
  ∀ e, (f e).id = e.id ∧ (f e).pk = e.pk ∧ (f e).workspaceId = e.workspaceId
    ∧ (f e).source = e.source ∧ (f e).revision = e.revision

/-- Entries, revisions, events and postings are as they were. -/
def Db.Apart (db db' : Db) : Prop :=
  db'.entries = db.entries ∧ db'.revisions = db.revisions ∧ db'.events = db.events
    ∧ db'.dedupeKeys = db.dedupeKeys ∧ db'.backfillNext = db.backfillNext
    ∧ db'.backfillEnd = db.backfillEnd

/-- What tables apart leave alone. -/
def Db.parts (db : Db) :=
  (db.entries, db.revisions, db.events, db.dedupeKeys, db.backfillNext, db.backfillEnd)

lemma Db.Apart.of_eq (h : db'.parts = db.parts) : db.Apart db' := by simpa [parts, Apart] using h

/-- The relation holds across routine statements. -/
class Routine (S : Txn → Txn → Prop) : Prop where
  touch : ∀ t id, S t (t.touch id)
  row : ∀ t id w f db', KeepsServed f → t.db.updateEntry w id f = .ok db' →
    S t { t with db := db' }
  event : ∀ t ev db', ev.type ≠ .edit → t.db.insertEvent ev = .ok db' → S t { t with db := db' }
  decided : ∀ t p state now db', state ≠ .pending →
    t.db.updateRevisions p (Revision.decide state now) = .ok db' → S t { t with db := db' }
  apart : ∀ t db', t.db.Apart db' → S t { t with db := db' }

lemma transitions_ne_edit {source dest : Lifecycle}
    (h : transitions source dest = some type) : type ≠ .edit := by
  cases source <;> cases dest <;> cases h <;> nofun

/-- The event is an edit of a memory. -/
abbrev EventType.isEdit : EventType → Bool
  | .edit => true
  | _ => false

/-- A kind of event that is no edit. -/
class NoEdit (edit : Bool) : Prop where
  out : edit = false

instance noEdit_false : NoEdit false := ⟨rfl⟩

lemma NoEdit.of_ne (h : type ≠ .edit) : NoEdit type.isEdit := by
  cases type <;> first | exact ⟨rfl⟩ | exact absurd rfl h

instance noEdit_ite (c : Prop) {_ : Decidable c} {x y : EventType} [hx : NoEdit x.isEdit]
    [hy : NoEdit y.isEdit] : NoEdit (if c then x else y).isEdit := by
  split
  · exact hx
  · exact hy

section methods

variable [hS : Routine S] {env : Env} {a : Actor} {w : Bool}

/-! ### Statements -/

instance routine_touch : StepsBy S (touch id) := ⟨.write fun t => hS.touch t id⟩

/-- The update may depend on what the store holds. -/
lemma routine_rowOf {f : Db → Entry → Entry} (hf : ∀ db, KeepsServed (f db)) :
    StepsBy S (execDb fun db => Db.updateEntry w id (f db) db) :=
  ⟨steps_execDb fun t _ hok => hS.row t _ _ _ _ (hf t.db) hok⟩

instance routine_row {f : Entry → Entry} {w : Bool} [hf : Fact (KeepsServed f)] :
    StepsBy S (execDb (Db.updateEntry w id f)) :=
  routine_rowOf fun _ => hf.out

instance routine_decide {p : Revision → Bool} {state : RevisionState} {now : Time}
    [hstate : Fact (state ≠ .pending)] :
    StepsBy S (execDb (Db.updateRevisions p (Revision.decide state now))) :=
  ⟨steps_execDb fun t _ hok => hS.decided t _ _ _ _ hstate.out hok⟩

/-- A statement on a table of its own. -/
lemma routine_elsewhere {f : Db → Except Err Db}
    (hf : ∀ db db' : Db, f db = .ok db' → db.Apart db') : StepsBy S (execDb f) :=
  ⟨steps_execDb fun t _ hok => hS.apart t _ (hf t.db _ hok)⟩

lemma routine_writeDb {f : Db → Db} (hf : ∀ db : Db, (f db).parts = db.parts) :
    StepsBy S (writeDb f) :=
  ⟨.write fun t => hS.apart t _ (.of_eq (hf t.db))⟩

/-- The tables apart may be written at will. -/
instance routine_write (votes : Db → List Vote) (anchors : Db → List Anchor)
    (claims : Db → List Claim) (outcomes : Db → List Outcome) (deliveries : Db → List Delivery)
    (members : Db → List CollectionMember) (grants : Db → List Grant)
    (applicability : Db → List Applicability) (corroborations : Db → List Corroboration) :
    StepsBy S (writeDb fun db => { db with
      votes := votes db, anchors := anchors db, claims := claims db, outcomes := outcomes db,
      deliveries := deliveries db, members := members db, grants := grants db,
      applicability := applicability db, corroborations := corroborations db }) :=
  routine_writeDb fun _ => rfl

/-- An event that is no edit. -/
instance routine_insertEvent {ev : EventRow} [hev : NoEdit ev.type.isEdit] :
    StepsBy S (insertEvent env a ev) := by
  have hne : ev.type ≠ .edit := by
    intro h
    have := hev.out
    rw [h] at this
    cases this
  exact ⟨.guard <| .read fun _ =>
    .bind (steps_execDb fun t _ hok => hS.event t _ _ hne hok) fun _ => .pure _⟩

instance routine_appendEvent {ev : EventRow} [NoEdit ev.type.isEdit] :
    StepsBy S (appendEvent env a ev) := .bind

instance routine_ftsPut (pk : Nat) (title body anchors : String) :
    StepsBy S (ftsPut pk title body anchors) := routine_writeDb fun _ => rfl

instance routine_ftsDelete (pk : Nat) : StepsBy S (ftsDelete pk) := routine_writeDb fun _ => rfl

instance routine_refreshFts : StepsBy S (refreshFts id) := .bind

instance routine_clearBaselines : StepsBy S (clearBaselines id) := routine_writeDb fun _ => rfl

instance routine_insertRelation (r : RelationRow) : StepsBy S (writeDb (Db.insertRelation r)) := by
  refine routine_writeDb fun db => ?_
  unfold Db.insertRelation
  split <;> rfl

instance routine_insertClaim (c : Claim) : StepsBy S (writeDb (Db.insertClaim c)) := by
  refine routine_writeDb fun db => ?_
  unfold Db.insertClaim
  split <;> rfl

instance routine_upsertVote (v : Vote) : StepsBy S (execDb (Db.upsertVote v)) := by
  refine routine_elsewhere fun db db' hok => ?_
  obtain ⟨-, rfl⟩ := Db.upsertVote_eq_ok hok
  exact .of_eq rfl

instance routine_insertVote (v : Vote) : StepsBy S (execDb (Db.insertVote v)) := by
  refine routine_elsewhere fun db db' hok => ?_
  obtain ⟨-, rfl, -⟩ := Db.insertVote_eq_ok hok
  exact .of_eq rfl

instance routine_insertAnchor (x : Anchor) : StepsBy S (execDb (Db.insertAnchor x)) := by
  refine routine_elsewhere fun db db' hok => ?_
  obtain ⟨-, rfl⟩ := Db.insertAnchor_eq_ok hok
  exact .of_eq rfl

instance routine_updateAnchors (p : Anchor → Bool) (f : Anchor → Anchor) :
    StepsBy S (execDb (Db.updateAnchors id p f)) :=
  routine_elsewhere fun _ _ hok => Db.updateAnchors_eq_ok hok ▸ .of_eq rfl

instance routine_upsertOutcome (o : Outcome) : StepsBy S (execDb (Db.upsertOutcome o)) := by
  refine routine_elsewhere fun db db' hok => ?_
  obtain ⟨-, rfl⟩ := Db.upsertOutcome_eq_ok hok
  exact .of_eq rfl

/-! ### Columns that say nothing about what is served -/

instance keepsServed_label (status : Status) (promoted : Bool) (mode : VerificationMode)
    (now : Time) : Fact (KeepsServed (Entry.label status promoted mode a now)) := by
  refine ⟨fun e => ?_⟩
  unfold Entry.label
  split <;> exact ⟨rfl, rfl, rfl, rfl, rfl⟩

instance keepsServed_supersede (i : String) (now : Time) :
    Fact (KeepsServed (Entry.supersede i a now)) := ⟨fun _ => ⟨rfl, rfl, rfl, rfl, rfl⟩⟩

instance keepsServed_merge (i : String) (now : Time) :
    Fact (KeepsServed (Entry.merge i a now)) := ⟨fun _ => ⟨rfl, rfl, rfl, rfl, rfl⟩⟩

instance keepsServed_close (dest : Lifecycle) (now : Time) :
    Fact (KeepsServed (Entry.close dest a now)) := ⟨fun _ => ⟨rfl, rfl, rfl, rfl, rfl⟩⟩

instance keepsServed_reopen (now : Time) : Fact (KeepsServed (Entry.reopen now)) :=
  ⟨fun _ => ⟨rfl, rfl, rfl, rfl, rfl⟩⟩

instance keepsServed_restart (now : Time) : Fact (KeepsServed (Entry.restart now)) :=
  ⟨fun _ => ⟨rfl, rfl, rfl, rfl, rfl⟩⟩

instance keepsServed_classify (c : Classification) (m : Metadata) (now : Time) :
    Fact (KeepsServed (Entry.classify c m now)) := ⟨fun _ => ⟨rfl, rfl, rfl, rfl, rfl⟩⟩

instance keepsServed_drift (now : Time) : Fact (KeepsServed (Entry.drift now)) :=
  ⟨fun _ => ⟨rfl, rfl, rfl, rfl, rfl⟩⟩

instance keepsServed_settle : Fact (KeepsServed Entry.settle) := by
  refine ⟨fun e => ?_⟩
  unfold Entry.settle
  split <;> exact ⟨rfl, rfl, rfl, rfl, rfl⟩

instance keepsServed_tombstone (now : Time) : Fact (KeepsServed (Entry.tombstone now)) :=
  ⟨fun _ => ⟨rfl, rfl, rfl, rfl, rfl⟩⟩

instance keepsServed_moveHead (rev : Int) (now : Time) :
    Fact (KeepsServed (Entry.moveHead rev now)) := ⟨fun _ => ⟨rfl, rfl, rfl, rfl, rfl⟩⟩

instance keepsServed_adoptLabel (n : NormalizedLegacy) :
    Fact (KeepsServed (Entry.adoptLabel n)) := ⟨fun _ => ⟨rfl, rfl, rfl, rfl, rfl⟩⟩

/-! ### Methods on entries -/

set_option synthInstance.maxSize 1000000 in
instance routine_addRelation (fromId toId : String) (kind : Option RelationKind) :
    StepsBy S (addRelation env fromId toId kind a) := by
  unfold addRelation
  split
  · infer_instance
  · dsimp only
    infer_instance

set_option synthInstance.maxSize 1000000 in
instance routine_setPromotion (p : Promotion) : StepsBy S (setPromotion env id p a) := by
  unfold setPromotion
  infer_instance

set_option synthInstance.maxSize 1000000 in
instance routine_supersedeOne (i : SupersedeInput) (newer : Entry) (old : String) :
    StepsBy S (supersedeOne env i newer a old) := .bind

instance routine_supersede (i : SupersedeInput) : StepsBy S (supersede env i a) := .bind

instance routine_moveLifecycle (cur : Entry) (dest : Lifecycle) (i : TransitionInput) :
    StepsBy S (moveLifecycle env cur dest i a) := by
  unfold moveLifecycle
  split <;> infer_instance

instance routine_transition (i : TransitionInput) : StepsBy S (transition env id i a) := by
  refine .andThen fun _ => .andThen fun cur => ?_
  split
  · infer_instance
  · split
    · infer_instance
    · next htype =>
      have := NoEdit.of_ne (transitions_ne_edit htype)
      infer_instance

lemma routine_updateField {set : Entry → Entry}
    {current : Entry → Value} {display : Value} [NoEdit type.isEdit] (hset : KeepsServed set) :
    StepsBy S (updateField env id a type w set current display) :=
  have : Fact (KeepsServed fun e => { set e with updatedAt := env.now }) := ⟨hset⟩
  .bind

instance routine_setExpiry (x : TimeText) : StepsBy S (setExpiry env id x a) :=
  .andThen fun _ => .andThen fun _ => routine_updateField fun _ => ⟨rfl, rfl, rfl, rfl, rfl⟩

instance routine_setTier (tier : Choice Tier) : StepsBy S (setTier env id tier a) :=
  .andThen fun _ => .andThen fun _ => .andThen fun _ =>
    routine_updateField fun _ => ⟨rfl, rfl, rfl, rfl, rfl⟩

instance routine_setRequiredVerifications (n : Int) :
    StepsBy S (setRequiredVerifications env id n a) :=
  .andThen fun _ => .andThen fun _ => .andThen fun _ =>
    routine_updateField fun _ => ⟨rfl, rfl, rfl, rfl, rfl⟩

set_option synthInstance.maxSize 1000000 in
instance routine_setClassification (c : Classification) :
    StepsBy S (setClassification env id c a) := .bind

/-! ### Revisions and votes -/

instance decided_accepted : Fact (RevisionState.accepted ≠ .pending) := ⟨nofun⟩

instance decided_rejected : Fact (RevisionState.rejected ≠ .pending) := ⟨nofun⟩

instance decided_withdrawn : Fact (RevisionState.withdrawn ≠ .pending) := ⟨nofun⟩

set_option synthInstance.maxSize 1000000 in
instance routine_rejectRevision (rev : Int) (reason : String) :
    StepsBy S (rejectRevision env id rev reason a) := by
  have : StepsBy S (execDb fun db =>
      Db.updateEntry false id (Entry.fallBack (db.newestPending id) env.now) db) :=
    routine_rowOf fun _ _ => ⟨rfl, rfl, rfl, rfl, rfl⟩
  exact .bind

set_option synthInstance.maxSize 1000000 in
instance routine_recordVote (i : VoteInput) : StepsBy S (recordVote env i a) := by
  refine .andThen fun _ => ?_
  split
  · infer_instance
  · dsimp only
    infer_instance

/-! ### Anchors -/

instance routine_insertAnchors (paths : List String) (anchors : List AnchorInput) :
    StepsBy S (insertAnchors id paths anchors) := by
  have from_ (seen : List (AnchorKind × String)) (as : List AnchorInput) :
      StepsBy S (insertAnchorsFrom id seen as) := by
    induction as generalizing seen with
    | nil => exact ⟨.pure _⟩
    | cons => exact .bind
  exact .bind

instance routine_replaceAnchors (paths : List String) (anchors : List AnchorInput) :
    StepsBy S (replaceAnchors env id paths anchors a) := .bind

instance routine_setBaseline (commit : String) (time : Time) (b : Baseline) :
    StepsBy S (setBaseline id commit time b) := .bind

instance routine_setBaselinesFrom (commit : String) (time : Time) (added : Bool)
    (bs : List Baseline) : StepsBy S (setBaselinesFrom id commit time added bs) := by
  induction bs generalizing added with
  | nil => exact ⟨.pure _⟩
  | cons => exact .bind

instance routine_setBaselines (bs : List Baseline) (commit : String) :
    StepsBy S (setBaselines env id bs commit a) := by
  unfold setBaselines setBaselinesOf
  infer_instance

instance routine_markAnchorsStale (commit : String) (refs : List (AnchorKind × String)) :
    StepsBy S (markAnchorsStale env id commit refs) := by
  induction refs with
  | nil => exact ⟨.pure _⟩
  | cons =>
    unfold markAnchorsStale markAnchorStale
    infer_instance

instance routine_markStale (refs : List (AnchorKind × String)) (commit : String) :
    StepsBy S (markStale env id refs commit a) := .bind

instance routine_clearDrift : StepsBy S (clearDrift env id a) := .bind

set_option synthInstance.maxSize 1000000 in
instance routine_reanchorCode (moves : List CodeMove) (commit : String) :
    StepsBy S (reanchorCode env id moves commit a) := by
  unfold reanchorCode reanchorOne
  infer_instance

/-! ### Claims, feedback and sharing -/

set_option synthInstance.maxSize 1000000 in
instance routine_addClaim (i : ClaimInput) : StepsBy S (addClaim env i a) := by
  refine .andThen fun _ => ?_
  split <;> infer_instance

instance routine_recordOutcome (i : OutcomeInput) : StepsBy S (recordOutcome env i a) := by
  refine .andThen fun _ => ?_
  split <;> infer_instance

instance routine_recordDeliveries (items : List DeliveryInput) :
    StepsBy S (recordDeliveries env items a) := by
  have (i : DeliveryInput) : StepsBy S (recordDelivery env a i) := by
    unfold recordDelivery
    split <;> infer_instance
  exact .bind

set_option synthInstance.maxSize 1000000 in
instance routine_corroborate : StepsBy S (corroborate env id a) := .bind

set_option synthInstance.maxSize 1000000 in
instance routine_createCollection (fresh : String) (i : CollectionInput) :
    StepsBy S (createCollection env fresh i a) := by
  have (id : String) (c : Collection) : StepsBy S (execDb fun db =>
      if (row (·.id) id db.collections).isSome then
        .error (.fault .conflict "UNIQUE constraint failed: collections.id")
      else .ok { db with collections := db.collections ++ [c] }) := by
    refine routine_elsewhere fun db db' hok => ?_
    split_ifs at hok
    cases hok
    exact .of_eq rfl
  exact .bind

set_option synthInstance.maxSize 1000000 in
instance routine_addToCollection (c e : String) : StepsBy S (addToCollection env c e a) := .bind

set_option synthInstance.maxSize 1000000 in
instance routine_removeFromCollection (c e : String) :
    StepsBy S (removeFromCollection env c e a) := .bind

instance routine_addGrant (fresh : String) (i : GrantInput) :
    StepsBy S (addGrant env fresh i a) := by
  refine .andThen fun _ => .andThen fun _ => .andThen fun _ => .andThen fun _ => .andThen fun _ =>
    .andThen fun _ => ?_
  split
  · infer_instance
  · refine .andThen fun _ => ?_
    split <;> infer_instance

instance routine_revokeGrant : StepsBy S (revokeGrant env id a) := .bind

instance routine_setApplicability (e target : String) (state : Option Applicable) :
    StepsBy S (setApplicability env e target state a) := by
  refine .andThen fun _ => ?_
  split <;> infer_instance

/-! ### Parts of an import, and review subjects -/

lemma routine_creationEvent (i : NewEntry) (o : EntryOrigin) (d : EntryDraft)
    (ho : o.event ≠ some .edit) : StepsBy S (creationEvent env i o d a) := by
  unfold creationEvent
  split
  · infer_instance
  · next type htype =>
    have : NoEdit type.isEdit := .of_ne fun h => ho (htype.trans (congrArg some h))
    infer_instance

instance routine_insertVotesFrom (digest : String) (n : Int) (vs : List LegacyVote) :
    StepsBy S (insertVotesFrom id digest n vs) := by
  induction vs generalizing n with
  | nil => exact ⟨.pure _⟩
  | cons => exact .bind

instance routine_setBaselinesQuiet (bs : List Baseline) : StepsBy S (setBaselinesQuiet id bs) := by
  have quiet (b : Baseline) : StepsBy S (setBaselineQuiet id b) := by
    have (c : Prop) [Decidable c] (p : Anchor → Bool) (f : Anchor → Anchor) :
        StepsBy S (execDb fun db => if c then .error (invalid "CHECK constraint failed: anchors")
          else Db.updateAnchors id p f db) := by
      refine routine_elsewhere fun db db' hok => ?_
      split_ifs at hok
      exact Db.updateAnchors_eq_ok hok ▸ .of_eq rfl
    exact .bind
  have (added : Bool) : StepsBy S (setBaselinesQuietFrom id added bs) := by
    induction bs generalizing added with
    | nil => exact ⟨.pure _⟩
    | cons => exact .bind
  exact .bind

instance routine_reviewEvent (ev : EventRow) : StepsBy S (reviewEvent env a ev) := by
  refine ⟨fun t => Along.bind_ensure fun hkind => ?_⟩
  have hrow : Along S t t (insertEvent env a ev) fun _ _ => True := by
    -- an edit is about a memory
    refine Along.bind_ensure fun htype => ?_
    have hev : ev.type ≠ .edit := by
      intro hedit
      rw [hedit] at htype
      exact hkind htype
    exact Steps.read (fun _ =>
      .bind (steps_execDb fun t _ hok => hS.event t _ _ hev hok) fun _ => .pure _) t
  exact Along.bind_of hrow fun _ _ _ _ => .pure .refl trivial

instance routine_reviewAnchor (x : Anchor) : StepsBy S (reviewAnchor x) := .bind

instance routine_reviewReanchor (f : Anchor → Anchor) : StepsBy S (reviewReanchor id f) := .bind

instance routine_reviewOutcome (o : Outcome) : StepsBy S (reviewOutcome o) := .bind

instance routine_compactDeliveries (cutoff : Time) (batch : Nat) :
    StepsBy S (compactDeliveries cutoff batch) := routine_writeDb fun _ => rfl

instance routine_addRelationBy (fromId toId : String) (kind : Option RelationKind) :
    StepsBy S (addRelationBy env fromId toId kind a) := .bind

end methods

/-- The method is made of routine statements. -/
def TxWrite.IsRoutine : TxWrite → Prop
  | .insertEntry .. | .purge .. | .appendRevision .. | .acceptRevision .. | .appendEvent ..
  | .backfillDedupeKeys .. | .importContextEntries .. | .compactRevisions .. => False
  | _ => True

lemma TxWrite.run_routine [Routine S] (env : Env) {w : TxWrite} (hw : w.IsRoutine) :
    StepsBy S (w.run env) := by
  cases w with
  | insertEntry | purge | appendRevision | acceptRevision | appendEvent | backfillDedupeKeys
  | importContextEntries | compactRevisions => exact absurd hw id
  | _ =>
    dsimp only [run]
    infer_instance

end GovStore
