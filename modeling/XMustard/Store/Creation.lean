import XMustard.Store.EntryActs
import XMustard.Store.Purge

/-!
# The creation of entries

A new entry is created with its first revision, and only then gets its anchors, postings and
history.
-/

namespace GovStore

open Db List Table Program

variable {h : Hashing} {A : String → Act → Prop} {t : Txn} {id : String} {e : Entry}

/-! ### The first two rows -/

lemma Db.insertEntry_eq_ok {db db' : Db} (hok : db.insertEntry e = .ok db') :
    db' = { db with entries := db.entries ++ [e] } ∧ db.entry e.id = none ∧ e.checked
      ∧ ∀ ev ∈ db.events, ev.entryId = some e.id → ev.subjectKind = .memory := by
  unfold Db.insertEntry at hok
  split_ifs at hok with _ hreview hchecked hsome
  cases hok
  refine ⟨rfl, by simpa using hsome, by simpa using hchecked, fun ev hev hid => ?_⟩
  simp only [any_eq_true, decide_eq_true_eq, not_exists, not_and, Decidable.not_not] at hreview
  exact hreview ev hev hid

lemma Db.lt_nextPk {db : Db} (he : e ∈ db.entries) : e.pk < db.nextPk :=
  Nat.lt_succ_of_le (le_foldr_max (mem_map_of_mem he))

/-- Rows that belong to entries do not belong to one that is not there. -/
lemma Db.rows_of_owned {ρ : Type} {key : ρ → String} {l : List ρ} {db : Db}
    (howned : ∀ x ∈ l, (db.entry (key x)).isSome) (hnone : db.entry id = none) :
    rows key id l = [] := by
  rw [rows, filter_eq_nil_iff]
  intro x hx hid
  have := howned x hx
  rw [of_decide_eq_true hid, hnone] at this
  cases this

lemma Db.insertRevision_eq_ok {db db' : Db} {x : Revision} :
    db.insertRevision x = .ok db' ↔ db.revisionRow x.entryId x.revision = none ∧ 1 ≤ x.revision
      ∧ (∃ e, db.entry x.entryId = some e) ∧ { db with revisions := db.revisions ++ [x] }
        = db' := by
  unfold Db.insertRevision
  split_ifs with hsome hrev hnone
  · simp [Option.isSome_iff_ne_none.1 hsome]
  · simp [Int.not_le.2 hrev]
  · simp [Option.isNone_iff_eq_none.1 hnone]
  · simp_all [Option.ne_none_iff_exists']

lemma Db.insertRevision_first {db : Db} {x : Revision}
    (hno : rows (·.entryId) e.id db.revisions = []) (hnone : db.entry e.id = none)
    (hx : x.entryId = e.id) (hrev : x.revision = 1) :
    Db.insertRevision x { db with entries := db.entries ++ [e] }
      = .ok { db with entries := db.entries ++ [e], revisions := db.revisions ++ [x] } := by
  refine insertRevision_eq_ok.2 ⟨?_, by simp [hrev], ?_, rfl⟩
  · simp [Db.revisionRow, hx, hno]
  · have : row (·.id) e.id db.entries = none := hnone
    simp [hx, Db.entry, row_append, this]

/-- The database with a new entry and its first revision. -/
def Db.withEntry (db : Db) (e : Entry) (x : Revision) : Db :=
  { db with entries := db.entries ++ [e], revisions := db.revisions ++ [x] }

section withEntry

variable {db : Db} {x : Revision} {i : String}

lemma Db.entry_withEntry_self (hnone : db.entry e.id = none) :
    (db.withEntry e x).entry e.id = some e := by
  have : row (·.id) e.id db.entries = none := hnone
  simp [Db.withEntry, Db.entry, row_append, this]

lemma Db.entry_withEntry_ne (hi : i ≠ e.id) : (db.withEntry e x).entry i = db.entry i := by
  simp [Db.withEntry, Db.entry, row_append, hi.symm]

lemma Db.Wf.withEntry (wf : db.Wf) (hnone : db.entry e.id = none) (hname : e.id ≠ "")
    (hpk : e.pk = db.nextPk)
    (hc : e.checked) (hx : x.entryId = e.id)
    (hreview : ∀ ev ∈ db.events, ev.entryId = some e.id → ev.subjectKind = .memory) :
    (db.withEntry e x).Wf := by
  have grows : ∀ i, (db.entry i).isSome → ((db.withEntry e x).entry i).isSome := by
    intro i hi
    by_cases hie : i = e.id
    · rw [hie, hnone] at hi
      cases hi
    · rwa [entry_withEntry_ne hie]
  refine ⟨nodup_append_row wf.ids (row_eq_none.1 hnone), ?_, nodup_append_row wf.pks ?_,
    ?_, ?_, ?_, ?_⟩
  · intro y hy
    rcases mem_append.1 hy with hy | hy
    · exact wf.named y hy
    · rwa [mem_singleton.1 hy]
  · intro y hy
    rw [hpk]
    exact Nat.ne_of_lt (lt_nextPk hy)
  · intro y hy
    rcases mem_append.1 hy with hy | hy
    · exact wf.checked y hy
    · rwa [mem_singleton.1 hy]
  · intro y hy
    rcases mem_append.1 hy with hy | hy
    · exact grows _ (wf.revisionsOwned y hy)
    · rw [mem_singleton.1 hy, hx, entry_withEntry_self hnone]
      rfl
  · exact fun v hv => grows _ (wf.votesOwned v hv)
  · intro ev hev
    refine ⟨(wf.events ev hev).redacted, fun hk i hi => ?_⟩
    by_cases hie : i = e.id
    · exact absurd (hreview ev hev (hie ▸ hi)) hk
    · rw [entry_withEntry_ne hie]
      exact (wf.events ev hev).disjoint hk i hi

/-- Other entries keep their records. -/
lemma Db.record_withEntry_ne (hx : x.entryId = e.id) (hi : i ≠ e.id) :
    (db.withEntry e x).record i = db.record i := by
  simp only [Db.record, entry_withEntry_ne hi]
  refine Option.map_congr fun e' he' => ?_
  have hne : x.entryId ≠ e'.id := by rw [hx, (entry_mem he').2]; exact hi.symm
  simp only [Db.recordOf, Db.withEntry, Record.mk.injEq, and_true, true_and]
  exact rows_append_other hne

lemma Db.memory_withEntry (wf : db.Wf) (hnone : db.entry e.id = none) (hx : x.entryId = e.id) :
    ((db.withEntry e x).recordOf e).memory = ⟨e.core, [x], []⟩ := by
  simp only [Record.memory, Db.recordOf, Db.withEntry, Memory.mk.injEq, true_and]
  refine ⟨?_, rows_of_owned wf.votesOwned hnone⟩
  have hx' : (fun r : Revision => r.entryId) x = e.id := hx
  rw [rows_append_same hx', rows_of_owned wf.revisionsOwned hnone]
  rfl

end withEntry

/-- The creation of an entry with its first revision, as one step. -/
lemma StoreStep.born {x : Revision} (hnone : t.db.entry e.id = none) (hname : e.id ≠ "")
    (hpk : e.pk = t.db.nextPk) (hc : e.checked) (hx : x.entryId = e.id)
    (hreview : ∀ ev ∈ t.db.events, ev.entryId = some e.id → ev.subjectKind = .memory)
    (newborn : Memory.Newborn h ⟨e.core, [x], []⟩) :
    StoreStep h A t { t with db := t.db.withEntry e x } := fun hs => by
  refine ⟨hs.wf.withEntry hnone hname hpk hc hx hreview, fun _ hcov => hcov,
    .born e.id ((t.db.withEntry e x).recordOf e) (record_eq_none.2 hnone)
      (record_of_entry (entry_withEntry_self hnone))
      (fun i hi => record_withEntry_ne hx hi) ?_⟩
  rw [memory_withEntry hs.wf hnone hx]
  exact newborn

/-! ### Anchors -/

instance reads_validateAnchor (a : AnchorInput) : Reads (validateAnchor a) := by
  unfold validateAnchor
  split
  · exact .throw _
  · exact .bind

instance ownedBy_newAnchor (n : Nat) (kind : AnchorKind) (a : AnchorInput) :
    Fact ((newAnchor id n kind a).entryId = id) := ⟨rfl⟩

instance insertAnchors_side [Attachable A id e] (paths : List String) (anchors : List AnchorInput) :
    Side h A id e (insertAnchors id paths anchors) := by
  have from_ (seen : List (AnchorKind × String)) (as : List AnchorInput) :
      Side h A id e (insertAnchorsFrom id seen as) := by
    induction as generalizing seen with
    | nil => exact .reads (m := pure _)
    | cons => exact .bind
  exact .bind

/-! ### Entries -/

variable (env : Env)

instance reads_validId (id : String) : Reads (validId id) := .ensure ..

instance reads_validName (name : String) : Reads (validName name) := .ensure ..

instance reads_validateMetadata (m : Metadata) : Reads (validateMetadata m) := .ensure ..

set_option synthInstance.maxSize 1000000 in
instance reads_validateEntry (i : NewEntry) (o : EntryOrigin) :
    Reads (validateEntry env i o) := .bind

lemma idOk_of_validateEntry {env : Env} {i : NewEntry} {o : EntryOrigin} {d : EntryDraft}
    {t' : Txn} (hok : validateEntry env i o t = (.ok d, t')) : idOk i.id := by
  obtain ⟨hid, -⟩ := bind_ensure_eq_ok.1 hok
  exact hid

lemma ne_empty_of_idOk (hid : idOk id) : id ≠ "" := by
  rintro rfl
  simp [idOk] at hid

lemma newborn_newEntry (pk : Nat) (i : NewEntry) (o : EntryOrigin) (d : EntryDraft)
    (a : Actor) (hc : (newEntryRow env pk i d a).checked) :
    Memory.Newborn env.toHashing
      ⟨(newEntryRow env pk i d a).core, [firstRevision env i o d a], []⟩ where
  lifecycle := rfl
  promoted := rfl
  mode := rfl
  required := by
    simp only [Entry.checked, decide_eq_true_eq] at hc
    exact hc.2.2.1
  epoch := rfl
  supersededBy := rfl
  mergedInto := rfl
  sourceKey := rfl
  revision := rfl
  head := rfl
  votes := rfl
  first := ⟨_, rfl, rfl, rfl, ⟨rfl, rfl, rfl, i.content, rfl, rfl⟩, rfl⟩

/-- The entry is as it was created. -/
def Txn.FreshAt (t : Txn) (id : String) : Prop :=
  ∃ e, t.db.entry id = some e ∧ e.lifecycle = .active ∧ e.verificationMode = .unset
    ∧ e.voteEpoch = 0

lemma insertEntry_along (i : NewEntry) (o : EntryOrigin) (a : Actor) (hatt : A i.id .attach) :
    Along (StoreStep env.toHashing A) t t (insertEntry env i o a) fun _ t' =>
      t.db.Sound env.toHashing → t'.FreshAt i.id := by
  refine Along.bind_reads fun d hd => ?_
  refine along_of_sound (fun hns _ _ hs => absurd hs hns) fun hs => ?_
  -- the key is read and the two rows are written as one step
  refine Along.bind_ok (a := t.db.nextPk) rfl ?_
  refine along_execDb fun db₁ hok => ?_
  obtain ⟨rfl, hnone, hc, hreview⟩ := insertEntry_eq_ok hok
  have hname : i.id ≠ "" := ne_empty_of_idOk (idOk_of_validateEntry hd)
  have hfirst := insertRevision_first (x := firstRevision env i o d a)
    (rows_of_owned hs.wf.revisionsOwned hnone) hnone rfl rfl
  refine Along.bind_ok (execDb_apply hfirst) ?_
  have hstep : StoreStep env.toHashing A t
      { t with
        db := t.db.withEntry (newEntryRow env t.db.nextPk i d a) (firstRevision env i o d a) } :=
    .born hnone hname rfl hc rfl hreview (newborn_newEntry env t.db.nextPk i o d a hc)
  refine Along.restart (.single hstep) ?_
  let e := newEntryRow env t.db.nextPk i d a
  have he : (t.db.withEntry e (firstRevision env i o d a)).entry i.id = some e :=
    entry_withEntry_self hnone
  have : Attachable A i.id e := ⟨hatt, by simp [e, newEntryRow]⟩
  have : Side env.toHashing A i.id e (creationEvent env i o d a) := by
    unfold creationEvent
    split <;> infer_instance
  have : Side env.toHashing A i.id e (putDedupeKeys env t.db.nextPk i.workspaceId i.content) :=
    putDedupeKeys_side ..
  exact (Side.along _ he).conseq fun _ _ aside _ => ⟨e, (aside.entry i.id).trans he, rfl, rfl, rfl⟩

theorem insertEntryBy_governed (i : NewEntry) (a : Actor) (hatt : A i.id .attach) :
    Governed env.toHashing A (insertEntryBy env i a) := by
  refine .validated fun t => ?_
  exact (insertEntry_along env i _ a hatt).conseq fun _ _ _ => trivial

end GovStore
