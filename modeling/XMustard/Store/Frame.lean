import XMustard.Store.Chain

/-!
# How statements change records

For every kind of statement: which record it changes, and that it is a step of the store. The
statements that governance is not concerned with form a class of programs of their own.
-/

namespace GovStore

open Db Table Program

variable {h : Hashing} {A : String → Act → Prop} {t : Txn} {id i : String} {e : Entry}
  {f : Db → Except Err Db} {o : Option String}

/-! ### The touched set -/

@[simp] lemma Txn.touch_db (t : Txn) (id : String) : (t.touch id).db = t.db := by
  unfold Txn.touch
  split_ifs <;> rfl

lemma Txn.covers_touch_self (t : Txn) (id : String) : (t.touch id).covers id := by
  unfold Txn.touch Txn.covers
  split_ifs with h₁ h₂ h₃ <;> simp [*]

lemma Txn.covers_touch (t : Txn) (id : String) (hi : t.covers i) : (t.touch id).covers i := by
  unfold Txn.touch Txn.covers at *
  split_ifs with h₁ h₂ h₃ <;> simp_all

lemma StoreStep.touch (t : Txn) (id : String) : StoreStep h A t (t.touch id) := fun hdb =>
  ⟨by simpa using hdb.wf, fun _ => t.covers_touch id, .same fun i => by simp⟩

/-! ### Statements beside the governance tables -/

instance reads_queryDb {α : Type} (f : Db → Except Err α) : Reads (queryDb f) := .query _

instance reads_readDb {α : Type} (f : Db → α) : Reads (readDb f) := .query _

/-- A statement proceeds by one step, from the state it is executed in. -/
lemma steps_execDb {S : Txn → Txn → Prop}
    (hf : ∀ t db', f t.db = .ok db' → S t { t with db := db' }) : (execDb f).Steps S := by
  refine Steps.exec fun t t' ht => ?_
  cases hok : f t.db with
  | error err => simp [hok, Except.map] at ht
  | ok db' =>
    simp only [hok, Except.map, Except.ok.injEq] at ht
    subst ht
    exact hf t db' hok

/-- The tables that governance decides on are the same. -/
structure Db.Aside (db db' : Db) : Prop where
  entries : db'.entries = db.entries
  revisions : db'.revisions = db.revisions
  votes : db'.votes = db.votes

namespace Db.Aside

variable {db db' db'' : Db}

lemma refl (db : Db) : db.Aside db := ⟨rfl, rfl, rfl⟩

lemma trans (h₁ : db.Aside db') (h₂ : db'.Aside db'') : db.Aside db'' :=
  ⟨h₂.entries.trans h₁.entries, h₂.revisions.trans h₁.revisions, h₂.votes.trans h₁.votes⟩

lemma entry (hd : db.Aside db') (id : String) : db'.entry id = db.entry id := by
  simp [Db.entry, hd.entries]

lemma memory (hd : db.Aside db') (e : Entry) :
    (db'.recordOf e).memory = (db.recordOf e).memory := by
  simp [Db.recordOf, Record.memory, hd.revisions, hd.votes]

lemma wf (hd : db.Aside db') (wf : db.Wf)
    (hev : ∀ ev ∈ db'.events, ev ∈ db.events ∨ db.Admits ev) : db'.Wf where
  ids := by rw [hd.entries]; exact wf.ids
  named := by rw [hd.entries]; exact wf.named
  pks := by rw [hd.entries]; exact wf.pks
  checked := by rw [hd.entries]; exact wf.checked
  revisionsOwned := by
    rw [hd.revisions]
    intro r hr
    rw [hd.entry]
    exact wf.revisionsOwned r hr
  votesOwned := by
    rw [hd.votes]
    intro v hv
    rw [hd.entry]
    exact wf.votesOwned v hv
  events ev hmem := by
    have admits : db.Admits ev := (hev ev hmem).elim (wf.events ev) id
    refine ⟨admits.redacted, fun hkind i hi => ?_⟩
    rw [hd.entry]
    exact admits.disjoint hkind i hi

end Db.Aside

/-- What a statement beside the governance tables does that concerns one entry, or none. -/
structure Db.Beside (id : Option String) (db db' : Db) : Prop where
  aside : db.Aside db'
  events : ∀ ev ∈ db'.events, ev ∈ db.events ∨ db.Admits ev
  others : db.Wf → ∀ e ∈ db.entries, some e.id ≠ id → db'.recordOf e = db.recordOf e

lemma Db.Beside.refl (db : Db) : db.Beside o db :=
  ⟨.refl db, fun _ => .inl, fun _ _ _ _ => rfl⟩

lemma Db.Beside.record {db db' : Db} (hb : db.Beside o db') (wf : db.Wf)
    (hi : some i ≠ o) : db'.record i = db.record i := by
  unfold Db.record
  rw [hb.aside.entry]
  refine Option.map_congr fun e he => ?_
  obtain ⟨hmem, rfl⟩ := entry_mem he
  exact hb.others wf e hmem hi

/-- A statement that concerns no entry. -/
lemma StoreStep.same {db' : Db} (hb : t.db.Beside none db') :
    StoreStep h A t { t with db := db' } := fun hdb =>
  ⟨hb.aside.wf hdb.wf hb.events, fun _ hc => hc, .same fun _ => hb.record hdb.wf nofun⟩

/-- A live entry that may be written to beside governance. -/
class Attachable (A : String → Act → Prop) (id : String) (e : Entry) : Prop where
  allowed : A id .attach
  live : e.lifecycle ≠ .purged

/-- A statement that concerns one entry. -/
lemma StoreStep.attach {db' : Db} [ha : Attachable A id e] (he : t.db.entry id = some e)
    (hb : t.db.Beside (some id) db') : StoreStep h A t { t with db := db' } := fun hdb => by
  refine ⟨hb.aside.wf hdb.wf hb.events, fun _ hc => hc, .one id .attach (t.db.recordOf e)
    (db'.recordOf e) ha.allowed (record_of_entry he) (record_of_entry (by rw [hb.aside.entry, he]))
    (fun i hi => hb.record hdb.wf (by simpa using hi)) ⟨ha.live, ?_, by simp⟩ (by simp) (by simp)⟩
  rw [hb.aside.memory]
  exact .attach _

/-! ### Programs beside the governance tables -/

/-- From any transaction in which `id` is the entry `e`, the program works beside the governance
tables and concerns that entry alone. -/
class Side (h : Hashing) (A : String → Act → Prop) (id : String) (e : Entry) {α : Type}
    (m : Tx α) : Prop where
  along : ∀ t : Txn, t.db.entry id = some e →
    Along (StoreStep h A) t t m fun _ t' => t.db.Aside t'.db

namespace Side

variable {α β : Type}

instance (priority := low) reads {m : Tx α} [Reads m] : Side h A id e m :=
  ⟨fun _ _ => Along.reads .refl fun _ _ => .refl _⟩

instance bind {m : Tx α} {f : α → Tx β} [hm : Side h A id e m] [hf : ∀ a, Side h A id e (f a)] :
    Side h A id e (m >>= f) := by
  refine ⟨fun t he => Along.bind_of (hm.along t he) fun a t' _ hd => ?_⟩
  exact ((hf a).along t' (by rw [hd.entry, he])).conseq fun _ _ hd' => hd.trans hd'

lemma andThen {m : Tx α} {f : α → Tx β} [Side h A id e m] (_ : ∀ a, Side h A id e (f a)) :
    Side h A id e (m >>= f) := bind

instance ite (c : Prop) {_ : Decidable c} {m m' : Tx α} [hm : Side h A id e m]
    [hm' : Side h A id e m'] : Side h A id e (if c then m else m') := by
  split
  · exact hm
  · exact hm'

instance when (c : Prop) {_ : Decidable c} {m : Tx Unit} [Side h A id e m] :
    Side h A id e (when c m) := ite c

instance each {f : β → Tx Unit} [∀ b, Side h A id e (f b)] (bs : List β) :
    Side h A id e (each f bs) := by
  induction bs with
  | nil => exact reads (m := Pure.pure ())
  | cons _ _ ih => exact andThen fun _ => ih

instance touch (i : String) : Side h A id e (touch i) :=
  ⟨fun t _ => Along.write (.single (.touch t i)) (by simpa using Db.Aside.refl t.db)⟩

/-- A statement on the tables beside governance, about the entry. -/
lemma execDb [Attachable A id e]
    (hf : ∀ db db' : Db, f db = .ok db' → db.entry id = some e → db.Beside (some id) db') :
    Side h A id e (GovStore.execDb f) := by
  refine ⟨fun t he => Along.exec .refl fun t' ht' => ?_⟩
  match hok : f t.db with
  | .error err => simp [hok, Except.map] at ht'
  | .ok db' =>
    simp only [hok, Except.map, Except.ok.injEq] at ht'
    subst ht'
    exact ⟨.single (.attach he (hf _ _ hok he)), (hf _ _ hok he).aside⟩

lemma writeDb {f : Db → Db} [Attachable A id e]
    (hf : ∀ db : Db, db.entry id = some e → db.Beside (some id) (f db)) :
    Side h A id e (GovStore.writeDb f) :=
  ⟨fun t he => Along.write (.single (.attach he (hf t.db he))) (hf t.db he).aside⟩

end Side

/-- A statement on tables that no record reads. -/
lemma Db.beside_unread (db : Db) (relations : List RelationRow) (deliveries : List Delivery)
    (collections : List Collection) (grants : List Grant) (applicability : List Applicability)
    (corroborations : List Corroboration) (memoryFts : List MemoryFts) (next stop : Nat) :
    db.Beside none { db with
      relations := relations, deliveries := deliveries, collections := collections,
      grants := grants, applicability := applicability, corroborations := corroborations,
      memoryFts := memoryFts, backfillNext := next, backfillEnd := stop } :=
  ⟨⟨rfl, rfl, rfl⟩, fun _ => .inl, fun _ _ _ _ => rfl⟩

section unread

variable (relations : Db → List RelationRow) (deliveries : Db → List Delivery)
  (collections : Db → List Collection) (grants : Db → List Grant)
  (applicability : Db → List Applicability) (corroborations : Db → List Corroboration)
  (memoryFts : Db → List MemoryFts) (next stop : Db → Nat)

instance side_unread : Side h A id e (writeDb fun db => { db with
    relations := relations db, deliveries := deliveries db, collections := collections db,
    grants := grants db, applicability := applicability db, corroborations := corroborations db,
    memoryFts := memoryFts db, backfillNext := next db, backfillEnd := stop db }) :=
  ⟨fun t _ => Along.write (.single (.same (t.db.beside_unread ..))) ⟨rfl, rfl, rfl⟩⟩

instance steps_unread : StepsBy (StoreStep h A) (writeDb fun db => { db with
    relations := relations db, deliveries := deliveries db, collections := collections db,
    grants := grants db, applicability := applicability db, corroborations := corroborations db,
    memoryFts := memoryFts db, backfillNext := next db, backfillEnd := stop db }) :=
  ⟨.write fun t => .same (t.db.beside_unread ..)⟩

end unread

/-! ### The satellites of an entry -/

/-- What a stored event is, and which entry it may name. -/
lemma Db.insertEvent_eq_ok {db db' : Db} {ev : Event} (hok : db.insertEvent ev = .ok db') :
    db' = { db with events := db.events ++ [{ ev with seq := db.nextSeq }] }
      ∧ ∀ i, ev.entryId = some i → ev.subjectKind = .memory ∨ db.entry i = none := by
  unfold Db.insertEvent at hok
  split at hok
  · next hnone =>
    cases hok
    exact ⟨rfl, by simp [hnone]⟩
  · next i hsome =>
    split_ifs at hok with _ hreview
    cases hok
    refine ⟨rfl, fun j hj => ?_⟩
    cases hsome.symm.trans hj
    simpa [Classical.or_iff_not_imp_left] using hreview

lemma Db.beside_insertEvent {db db' : Db} {env : Env} {a : Actor} {ev : EventRow}
    (hok : db.insertEvent (ev.event env a) = .ok db')
    (hname : db.Wf → ∀ e ∈ db.entries, some e.id ≠ o → (ev.event env a).entryId ≠ some e.id) :
    db.Beside o db' := by
  obtain ⟨rfl, hentry⟩ := insertEvent_eq_ok hok
  refine ⟨⟨rfl, rfl, rfl⟩, fun x hx => ?_, fun wf e he hne => ?_⟩
  · rcases List.mem_append.1 hx with hx | hx
    · exact .inl hx
    · rw [List.mem_singleton.1 hx]
      exact .inr ⟨nofun, fun hk i hi => (hentry i hi).resolve_left hk⟩
  · simp [Db.recordOf, rows, hname wf e he hne]

instance fact_rfl {α : Type} (x : α) : Fact (x = x) := ⟨rfl⟩

instance fact_forall {α : Type} {p : α → Prop} [hp : ∀ x, Fact (p x)] : Fact (∀ x, p x) :=
  ⟨fun x => (hp x).out⟩

section satellites

variable [Attachable A id e]

instance insertEvent_side (env : Env) (a : Actor) {ev : EventRow} [hid : Fact (ev.entryId = id)] :
    Side h A id e (insertEvent env a ev) := by
  have : Side h A id e (execDb (Db.insertEvent (ev.event env a))) := by
    refine .execDb fun db db' hok _ => beside_insertEvent hok fun _ e' _ hne => ?_
    simp only [EventRow.event, nullText, hid.out]
    split
    · simp
    · exact hne.symm
  exact .bind

instance appendEvent_side (env : Env) (a : Actor) {ev : EventRow} [Fact (ev.entryId = id)] :
    Side h A id e (appendEvent env a ev) := .bind

lemma Db.insertAnchor_eq_ok {db db' : Db} {x : Anchor} (hok : db.insertAnchor x = .ok db') :
    db.subjectExists x.subjectKind x.entryId ∧ db' = { db with anchors := db.anchors ++ [x] } := by
  unfold Db.insertAnchor at hok
  split_ifs at hok with hex
  cases hok
  exact ⟨by simpa using hex, rfl⟩

lemma Db.updateAnchors_eq_ok {db db' : Db} {p : Anchor → Bool} {f : Anchor → Anchor}
    (hok : db.updateAnchors id p f = .ok db') :
    db' = { db with anchors := Table.update (fun x => x.entryId = id && p x) f db.anchors } := by
  unfold Db.updateAnchors at hok
  dsimp only at hok
  split_ifs at hok
  cases hok
  rfl

/-- A statement on the anchors of the entry. -/
lemma anchors_side
    (hf : ∀ db db', f db = .ok db' → ∃ anchors, db' = { db with anchors := anchors }
      ∧ ∀ i ≠ id, rows (·.entryId) i anchors = rows (·.entryId) i db.anchors) :
    Side h A id e (execDb f) := by
  refine .execDb fun db db' hok _ => ?_
  obtain ⟨anchors, rfl, hrows⟩ := hf db db' hok
  refine ⟨⟨rfl, rfl, rfl⟩, fun _ => .inl, fun _ e' _ hne => ?_⟩
  simp [Db.recordOf, hrows e'.id (by simpa using hne)]

instance insertAnchor_side {x : Anchor} [hx : Fact (x.entryId = id)] :
    Side h A id e (execDb (Db.insertAnchor x)) := by
  refine anchors_side fun db db' hok => ?_
  obtain ⟨-, rfl⟩ := insertAnchor_eq_ok hok
  exact ⟨_, rfl, fun i hi => rows_append_other (by rw [hx.out]; exact hi.symm)⟩

instance updateAnchors_side {p : Anchor → Bool} {f : Anchor → Anchor}
    [hf : Fact (∀ x, (f x).entryId = x.entryId)] :
    Side h A id e (execDb (Db.updateAnchors id p f)) := by
  refine anchors_side fun db db' hok => ?_
  refine ⟨_, updateAnchors_eq_ok hok, fun i hi =>
    rows_update_of_ne (fun r _ => hf.out r) fun r hr => ?_⟩
  simp only [Bool.and_eq_true, decide_eq_true_eq] at hr
  rw [hr.1]
  exact hi.symm

instance clearBaselines_side : Side h A id e (clearBaselines id) := by
  refine .writeDb fun db _ => ⟨⟨rfl, rfl, rfl⟩, fun _ => .inl, fun _ e' _ hne => ?_⟩
  simp only [Db.recordOf, Record.mk.injEq, and_true, true_and]
  exact rows_update_other (fun heq => hne (congrArg some heq.symm)) fun _ => rfl

instance deleteAnchors_side : Side h A id e (writeDb fun db =>
      { db with anchors := delete (fun x => x.entryId = id) db.anchors }) := by
  refine .writeDb fun db _ => ⟨⟨rfl, rfl, rfl⟩, fun _ => .inl, fun _ e' _ hne => ?_⟩
  simp only [Db.recordOf, Record.mk.injEq, and_true, true_and]
  exact rows_delete_other fun heq => hne (congrArg some heq.symm)

instance putDedupeKeys_side (env : Env) (workspaceId content : String) :
    Side h A id e (putDedupeKeys env e.pk workspaceId content) := by
  refine .writeDb fun db he => ⟨⟨rfl, rfl, rfl⟩, fun _ => .inl, fun wf e' he' hne => ?_⟩
  have hpk : e.pk ≠ e'.pk := fun hpk =>
    hne (congrArg some (wf.id_of_pk he (entry_of_mem wf he') hpk).symm)
  simp only [Db.recordOf, Db.putDedupeKeys, Record.mk.injEq, true_and, rows_append]
  rw [rows_delete_other hpk]
  simp [rows, hpk]

end satellites

instance ftsDelete_side (pk : Nat) : Side h A id e (ftsDelete pk) := side_unread ..

instance ftsPut_side (pk : Nat) (title body anchors : String) :
    Side h A id e (ftsPut pk title body anchors) := side_unread ..

instance reads_getEntry (id : String) : Reads (getEntry id) := .query _

instance refreshFts_side (i : String) : Side h A id e (refreshFts i) := .bind

end GovStore
