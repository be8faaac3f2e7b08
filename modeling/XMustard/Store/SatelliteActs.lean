import XMustard.Store.Creation

/-!
# The writers beside governance

Anchors, claims, relations, outcomes, collections, grants and postings: none of these writers
touches what governance decides on, and each refuses a purged entry.
-/

namespace GovStore

open Db Table Program Along List

variable {h : Hashing} {A : String → Act → Prop} {id : String} {e : Entry} {db : Db}

/-! ### Anchors and baselines -/

instance reads_validateBaseline (b : Baseline) : Reads (validateBaseline b) := by
  unfold validateBaseline
  split <;> infer_instance

section side

variable [Attachable A id e] (commit : String)

instance setBaseline_side (time : Time) (b : Baseline) :
    Side h A id e (setBaseline id commit time b) := by
  unfold setBaseline
  dsimp only [newAnchor]
  infer_instance

instance setBaselinesFrom_side (time : Time) (added : Bool) (bs : List Baseline) :
    Side h A id e (setBaselinesFrom id commit time added bs) := by
  induction bs generalizing added with
  | nil => exact .reads (m := Pure.pure added)
  | cons _ _ ih => exact .andThen fun _ => ih _

instance markAnchorStale_side (env : Env) (ref : AnchorKind × String) :
    Side h A id e (markAnchorStale env id commit ref) := by
  unfold markAnchorStale
  dsimp only
  infer_instance

instance markAnchorsStale_side (env : Env) (refs : List (AnchorKind × String)) :
    Side h A id e (markAnchorsStale env id commit refs) := by
  induction refs with
  | nil => exact .reads (m := Pure.pure [])
  | cons _ _ ih => exact .bind

end side

instance setBaselinesOf_side [Attachable A e.id e] (env : Env) (baselines : List Baseline)
    (commit : String) (a : Actor) : Side h A e.id e (setBaselinesOf env e baselines commit a) :=
  .ite _

theorem setBaselines_governed (hatt : A id .attach) (env : Env) (baselines : List Baseline)
    (commit : String) (a : Actor) : Governed h A (setBaselines env id baselines commit a) := by
  refine .read fun _ => .live hatt fun e hid _ => ?_
  subst hid
  infer_instance

theorem replaceAnchors_governed (hatt : A id .attach) (env : Env) (paths : List String)
    (anchors : List AnchorInput) (a : Actor) :
    Governed h A (replaceAnchors env id paths anchors a) :=
  .read fun _ => .live hatt fun _ _ _ => .bind

/-- A row update that governance does not see. -/
lemma along_attach {t : Txn} (hatt : A id .attach) {g : Entry → Entry}
    (hg : ∀ e, (g e).core = e.core) (he : t.db.entry id = some e) (live : e.lifecycle ≠ .purged)
    {w : Bool} {β : Type} {f : Unit → Tx β} {Q : β → Txn → Prop}
    (hf : ∀ t', t'.db.entry id = some (g e) → Attachable A id (g e) →
      Along (StoreStep h A) t' t' (f ()) Q) :
    Along (StoreStep h A) t t (execDb (Db.updateEntry w id g) >>= f) Q := by
  have keeps : KeepsKeys g := fun x => ⟨congrArg EntryCore.id (hg x), congrArg EntryCore.pk (hg x)⟩
  refine along_row hatt keeps he live ?_ fun he' => hf _ he' ⟨hatt, ?_⟩
  · rw [hg]
    exact fun _ _ => .attach _
  · rwa [show (g e).lifecycle = e.lifecycle from congrArg EntryCore.lifecycle (hg e)]

lemma Entry.drift_core (now : Time) (e : Entry) : (e.drift now).core = e.core := rfl

theorem markStale_governed (hatt : A id .attach) (env : Env) (refs : List (AnchorKind × String))
    (commit : String) (a : Actor) : Governed h A (markStale env id refs commit a) := by
  refine .validated fun t => along_liveEntry fun e he live => ?_
  have : Attachable A id e := ⟨hatt, live⟩
  refine along_side he fun fresh t₁ aside₁ => ?_
  split
  · exact Along.pure .refl trivial
  exact along_attach hatt (Entry.drift_core env.now) ((aside₁.entry id).trans he) live
    fun _ he₂ _ => along_last he₂

lemma Entry.settle_core (e : Entry) : e.settle.core = e.core := by
  unfold Entry.settle
  split <;> rfl

theorem clearDrift_governed (hatt : A id .attach) (env : Env) (a : Actor) :
    Governed h A (clearDrift env id a) := by
  refine .validated fun t => along_liveEntry fun e he live => ?_
  have : Attachable A id e := ⟨hatt, live⟩
  refine bind_reads fun stale _ => along_side he fun _ t₁ aside₁ => ?_
  exact along_attach hatt Entry.settle_core ((aside₁.entry id).trans he) live
    fun _ he₂ _ => along_last he₂

instance reads_parseMoveEnd (value : String) : Reads (parseMoveEnd value) := by
  unfold parseMoveEnd
  split <;> infer_instance

instance reanchorOne_side [Attachable A e.id e] (env : Env) (commit : String) (a : Actor)
    (m : CodeMove) : Side h A e.id e (reanchorOne env e commit a m) := by
  unfold reanchorOne
  dsimp only
  infer_instance

theorem reanchorCode_governed (hatt : A id .attach) (env : Env) (moves : List CodeMove)
    (commit : String) (a : Actor) : Governed h A (reanchorCode env id moves commit a) := by
  refine .read fun _ => .live hatt fun e hid _ => ?_
  subst hid
  infer_instance

/-! ### Events -/

/-- An event that names no entry. -/
lemma steps_event {env : Env} {a : Actor} {ev : EventRow}
    (hname : ∀ db db' : Db, db.insertEvent (ev.event env a) = .ok db' → db.Wf →
      ∀ e ∈ db.entries, (ev.event env a).entryId ≠ some e.id) :
    StepsBy (StoreStep h A) (appendEvent env a ev) := by
  have : StepsBy (StoreStep h A) (execDb (Db.insertEvent (ev.event env a))) :=
    ⟨steps_execDb fun t db' hok => .same (beside_insertEvent hok fun wf e he _ =>
      hname t.db db' hok wf e he)⟩
  unfold appendEvent insertEvent
  infer_instance

instance steps_appendEvent (env : Env) (a : Actor) {ev : EventRow} [hid : Fact (ev.entryId = "")] :
    StepsBy (StoreStep h A) (appendEvent env a ev) :=
  steps_event fun _ _ _ _ _ _ => by simp [EventRow.event, nullText, hid.out]

theorem appendEventInput_governed (env : Env) (a : Actor) (i : EventInput)
    (hatt : A i.entryId .attach) : Governed h A (appendEventInput env a i) := by
  by_cases hid : i.entryId = ""
  · have : Reads (eventWorkspace i) := .ite _
    have := Fact.mk hid
    refine .read fun _ => .read fun ws => .read fun _ => ?_
    split <;> exact .of_form
  · refine .validated fun t => ?_
    unfold eventWorkspace
    simp only [hid, if_false, LawfulMonad.bind_assoc]
    refine along_liveEntry fun e he live => bind_ensure fun _ => ?_
    have : Attachable A i.entryId e := ⟨hatt, live⟩
    refine bind_ok rfl (bind_ensure fun _ => ?_)
    split <;> exact along_last he

/-! ### Claims and relations -/

section rows

variable [Attachable A id e] {db' : Db} {o : Outcome}

instance insertClaim_side {c : Claim} [hc : Fact (c.entryId = id)] :
    Side h A id e (writeDb (Db.insertClaim c)) := by
  refine .writeDb fun db _ => ?_
  unfold Db.insertClaim
  split
  · exact .refl _
  · refine ⟨⟨rfl, rfl, rfl⟩, fun _ => .inl, fun _ e' _ hne => ?_⟩
    have : c.entryId ≠ e'.id := fun heq => hne (by rw [← heq, hc.out])
    simp [Db.recordOf, rows, this]

lemma Db.upsertOutcome_eq_ok (hok : db.upsertOutcome o = .ok db') :
    db.subjectExists o.subjectKind o.entryId
      ∧ db' = { db with outcomes := upsert o.sameKey (fun _ => o) o db.outcomes } := by
  unfold Db.upsertOutcome at hok
  split_ifs at hok with hex
  cases hok
  exact ⟨by simpa using hex, rfl⟩

lemma Db.beside_upsertOutcome {i : Option String} (hok : db.upsertOutcome o = .ok db')
    (hname : db.subjectExists o.subjectKind o.entryId → db.Wf → ∀ e ∈ db.entries,
      some e.id ≠ i → o.entryId ≠ e.id) : db.Beside i db' := by
  obtain ⟨hex, rfl⟩ := upsertOutcome_eq_ok hok
  refine ⟨⟨rfl, rfl, rfl⟩, fun _ => .inl, fun wf e' he' hne => ?_⟩
  have hkey : ∀ p : Outcome, o.sameKey p → o.entryId = p.entryId := fun p hp =>
    (of_decide_eq_true hp).1.symm
  have := hname hex wf e' he' hne
  simp only [Db.recordOf, Record.mk.injEq, and_true, true_and]
  exact rows_upsert_of_ne (fun p hp => hkey p hp ▸ this) hkey this

instance upsertOutcome_side {o : Outcome} [ho : Fact (o.entryId = id)] :
    Side h A id e (execDb (Db.upsertOutcome o)) :=
  .execDb fun _ _ hok _ => beside_upsertOutcome hok fun _ _ _ _ hne heq =>
    hne (by rw [← heq, ho.out])

/-- A statement on the collection memberships of the entry. -/
lemma members_side {f : List CollectionMember → List CollectionMember}
    (hf : ∀ l, ∀ i ≠ id, Table.rows (·.entryId) i (f l) = Table.rows (·.entryId) i l) :
    Side h A id e (writeDb fun db => { db with members := f db.members }) := by
  refine .writeDb fun db _ => ⟨⟨rfl, rfl, rfl⟩, fun _ => .inl, fun _ e' _ hne => ?_⟩
  simp [Db.recordOf, hf db.members e'.id (by simpa using hne)]

end rows

theorem addClaim_governed (env : Env) (i : ClaimInput) (a : Actor) (hatt : A i.entryId .attach) :
    Governed h A (addClaim env i a) := by
  refine .read fun _ => ?_
  split
  · exact .reads
  · exact .read fun _ => .read fun _ => .live hatt fun _ _ _ => .bind

theorem addRelationBy_governed (env : Env) (fromId toId : String) (kind : Option RelationKind)
    (a : Actor) (hatt : A fromId .attach) :
    Governed h A (addRelationBy env fromId toId kind a) := by
  refine .validated fun t => ?_
  unfold addRelation
  split
  · exact Along.throw .refl
  refine bind_ensure fun _ => ?_
  refine along_getEntry fun source hs => along_getEntry fun target _ => ?_
  refine bind_ensure fun _ => bind_ensure fun live => ?_
  have : Attachable A fromId source := ⟨hatt, live.1⟩
  exact along_last hs

/-! ### Outcomes, deliveries, corroborations -/

theorem recordOutcome_governed (env : Env) (i : OutcomeInput) (a : Actor)
    (hatt : A i.entryId .attach) : Governed h A (recordOutcome env i a) := by
  refine .read fun _ => ?_
  split
  · exact .reads
  · exact .read fun _ => .read fun _ => .live hatt fun _ _ _ => .bind

theorem recordDeliveries_governed (env : Env) (items : List DeliveryInput) (a : Actor) :
    Governed h A (recordDeliveries env items a) := by
  refine .read fun _ => .each (fun i => ?_) items
  unfold recordDelivery
  split <;> exact .of_form

theorem corroborate_governed (env : Env) (a : Actor) (hatt : A id .attach) :
    Governed h A (corroborate env id a) := by
  refine .validated fun t => ?_
  refine along_getEntry fun e he => bind_ensure fun hserved => ?_
  have : Attachable A id e := by
    simp only [Entry.served, decide_eq_true_eq] at hserved
    exact ⟨hatt, by simp [hserved.2.1]⟩
  exact along_last he

/-! ### Postings -/

lemma Db.mem_backfillBatch {limit : Nat} {item : Entry × String}
    (hmem : item ∈ db.backfillBatch limit) :
    item.1 ∈ db.entries
      ∧ item.2 = ((db.revisionRow item.1.id item.1.revision).bind (·.content)).getD "" := by
  obtain ⟨e, he, rfl⟩ := mem_map.1 (mem_of_mem_take hmem)
  exact ⟨(mem_filter.1 he).1, rfl⟩

/-- An entry that still has content is not purged. -/
lemma Db.Sound.live_of_content (hs : db.Sound h) (he : db.entry e.id = some e) {rev : Int}
    (hc : ((db.revisionRow e.id rev).bind (·.content)).getD "" ≠ "") : e.lifecycle ≠ .purged := by
  intro hp
  match hx : db.revisionRow e.id rev with
  | none => simp [hx] at hc
  | some x =>
    have hmem : x ∈ (db.recordOf e).revisions := mem_of_find?_eq_some hx
    simp [hx, (hs.chain he).erased hp x hmem] at hc

theorem backfillDedupeKeys_governed (hatt : ∀ i, A i .attach) (env : Env) (max : Int) :
    Governed h A (backfillDedupeKeys env max) := by
  intro t
  refine bind_reads fun todo _ => ?_
  split
  · exact Along.pure .refl trivial
  refine along_of_sound (by simp) fun hs => ?_
  refine bind_ok rfl ?_
  refine bind_of (Along.each (I := fun t' => t.db.Aside t'.db) _ t (.refl _) ?_)
    fun _ t₁ _ _ => ?_
  · intro item hitem t' aside
    obtain ⟨hmem, hcontent⟩ := mem_backfillBatch hitem
    have he := entry_of_mem hs.wf hmem
    unfold backfillOne
    split
    · next hne =>
      have : Attachable A item.1.id item.1 := ⟨hatt _, hs.live_of_content he (hcontent ▸ hne)⟩
      exact ((putDedupeKeys_side env _ _).along t' ((aside.entry _).trans he)).conseq
        fun _ _ => aside.trans
    · exact Along.pure .refl aside
  · exact Governed.of_form t₁

/-! ### Collections, grants, applicability -/

instance reads_getCollection (id : String) : Reads (getCollection id) := .query _

theorem createCollection_governed (env : Env) (fresh : String) (i : CollectionInput) (a : Actor) :
    Governed h A (createCollection env fresh i a) := by
  refine .read fun _ => .read fun _ => .read fun _ => .read fun _ => .read fun _ =>
    .bind (steps_execDb fun t db' hok => ?_) fun _ => .of_form
  obtain ⟨collections, rfl⟩ : ∃ l, db' = { t.db with collections := l } := by
    split_ifs at hok <;> cases hok <;> exact ⟨_, rfl⟩
  exact .same (t.db.beside_unread ..)

theorem addToCollection_governed (env : Env) (collectionId entryId : String) (a : Actor)
    (hatt : A entryId .attach) : Governed h A (addToCollection env collectionId entryId a) := by
  refine .read fun _ => .read fun col => .live hatt fun e _ _ => ?_
  refine .andThen fun reaches => .andThen fun _ => .andThen fun created => .andThen fun seq => ?_
  refine @Side.bind _ _ _ _ _ _ _ _ (members_side fun l i hi => ?_) _
  refine rows_upsert_of_ne (fun m hm => ?_) (fun m hm => ?_) (fun heq => hi heq.symm)
  · simp only [decide_eq_true_eq] at hm
    rw [hm.2]
    exact hi.symm
  · simp only [decide_eq_true_eq] at hm
    exact hm.2.symm

theorem removeFromCollection_governed (env : Env) (collectionId entryId : String) (a : Actor)
    (hatt : A entryId .attach) :
    Governed h A (removeFromCollection env collectionId entryId a) := by
  refine .validated fun t => bind_reads fun col _ => ?_
  refine along_getEntry fun e he => bind_ensure fun live => bind_reads fun removed _ => ?_
  have : Attachable A entryId e := ⟨hatt, live⟩
  refine @along_last _ _ _ _ _ _ _ (@Side.bind _ _ _ _ _ _ _ _ (members_side fun l i hi => ?_) _) he
  refine rows_delete_of_ne fun m hm => ?_
  simp only [decide_eq_true_eq] at hm
  rw [hm.2]
  exact hi.symm

theorem addGrant_governed (env : Env) (fresh : String) (i : GrantInput) (a : Actor) :
    Governed h A (addGrant env fresh i a) := by
  refine .read fun _ => .read fun _ => .read fun _ => .read fun _ => .read fun _ =>
    .read fun scope => ?_
  split
  · exact .reads
  refine .read fun existing => ?_
  split <;> exact .of_form

theorem revokeGrant_governed (env : Env) (id : String) (a : Actor) :
    Governed h A (revokeGrant env id a) := by
  unfold revokeGrant
  dsimp only
  exact .of_form

theorem setApplicability_governed (env : Env) (entryId target : String) (state : Option Applicable)
    (a : Actor) (hatt : A entryId .attach) :
    Governed h A (setApplicability env entryId target state a) := by
  refine .read fun _ => ?_
  split
  · exact .reads
  · exact .read fun _ => .live hatt fun _ _ _ => .bind

end GovStore
