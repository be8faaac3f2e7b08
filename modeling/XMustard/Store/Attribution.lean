import XMustard.Store.Routine

/-!
# Who wrote what

The first revision of an entry is its author's, an edit is logged in the workspace of the entry it
edits, and the log is in the order of its numbers. Every statement of the store keeps this, but for
the two rows of a new entry, which are written together.
-/

namespace GovStore

open List Table Program Along

variable {α : Type} {db db' : Db} {id : String} {e : Entry} {t t' : Txn} {ev : Event}

/-- The store's records of authors and edits agree with its entries. -/
structure Db.Attributed (db : Db) : Prop where
  edits : ∀ ev ∈ db.events, ev.type = .edit → ∀ id, ev.entryId = some id →
    ∃ e, db.entry id = some e ∧ e.workspaceId = ev.workspaceId
  authors : ∀ x ∈ db.revisions, ∃ e, db.entry x.entryId = some e
    ∧ (x.revision = 1 → x.author = e.source)
  first : ∀ id e, db.entry id = some e → ∃ x ∈ db.revisions, x.entryId = id ∧ x.revision = 1
  inOrder : (db.events.map (·.seq)).Pairwise (· < ·)

lemma Db.Attributed.empty : Db.empty.Attributed := by
  constructor <;> simp [Db.empty, Db.entry, row]

/-- The function keeps the keys, the workspace and the source of a row. -/
def KeepsOrigin (f : Entry → Entry) : Prop :=
  ∀ e, (f e).id = e.id ∧ (f e).pk = e.pk ∧ (f e).workspaceId = e.workspaceId
    ∧ (f e).source = e.source

/-- The columns that attribution is about. -/
def Db.attribution (db : Db) :=
  (fun id => (db.entry id).map fun e => (e.workspaceId, e.source),
    db.revisions.map fun x => (x.entryId, x.revision, x.author),
    db.events.map fun ev => (ev.seq, ev.type, ev.entryId, ev.workspaceId))

/-- Every entry is still there, in its workspace. -/
def Db.Stays (db db' : Db) : Prop :=
  ∀ id e, db.entry id = some e → ∃ e', db'.entry id = some e' ∧ e'.workspaceId = e.workspaceId

/-- A step that keeps entries where they are, and authors and edits attributed. -/
def AttributedStep (t t' : Txn) : Prop :=
  t.db.Stays t'.db ∧ (t.db.Attributed → t'.db.Attributed)

/-- The program proceeds by such steps. -/
def Attributing (m : Tx α) : Prop := m.Steps AttributedStep

lemma Db.Stays.of_entries (h : db'.entries = db.entries) : db.Stays db' := fun id e he =>
  ⟨e, by rwa [Db.entry, h], rfl⟩

lemma stays_chain (h : Relation.ReflTransGen AttributedStep t t') : t.db.Stays t'.db := by
  induction h with
  | refl => exact .of_entries rfl
  | tail _ hlast ih =>
    intro id e he
    obtain ⟨e', he', hws⟩ := ih id e he
    obtain ⟨e'', he'', hws'⟩ := hlast.1 id e' he'
    exact ⟨e'', he'', hws'.trans hws⟩

/-! ### Statements that keep the columns -/

section columns

variable (hkept : db'.attribution = db.attribution)
include hkept

lemma Db.entry_kept {i : String} (he : db.entry i = some e) :
    ∃ e', db'.entry i = some e' ∧ e'.workspaceId = e.workspaceId ∧ e'.source = e.source := by
  simpa [attribution, he] using congrFun (congrArg Prod.fst hkept) i

lemma Db.Attributed.congr (h : db.Attributed) : db'.Attributed := by
  obtain ⟨horigin, hrest⟩ := Prod.mk.inj hkept
  obtain ⟨hrevisions, hevents⟩ := Prod.mk.inj hrest
  refine ⟨fun ev hev hedit id hid => ?_, fun x hx => ?_, fun id e' he' => ?_, ?_⟩
  · obtain ⟨ev₀, hev₀, heq⟩ := mem_map.1 (hevents ▸ mem_map_of_mem hev)
    simp only [Prod.mk.injEq] at heq
    obtain ⟨-, htype, hname, hws⟩ := heq
    obtain ⟨e, he, hin⟩ := h.edits ev₀ hev₀ (htype.trans hedit) id (hname.trans hid)
    obtain ⟨e', he', hws', -⟩ := Db.entry_kept hkept he
    exact ⟨e', he', hws'.trans (hin.trans hws)⟩
  · obtain ⟨x₀, hx₀, heq⟩ := mem_map.1 (hrevisions ▸ mem_map_of_mem hx)
    simp only [Prod.mk.injEq] at heq
    obtain ⟨hid, hrev, hauthor⟩ := heq
    obtain ⟨e, he, hsource⟩ := h.authors x₀ hx₀
    obtain ⟨e', he', -, hsource'⟩ := Db.entry_kept hkept he
    rw [← hid, ← hrev, ← hauthor]
    exact ⟨e', he', fun hfirst => (hsource hfirst).trans hsource'.symm⟩
  · obtain ⟨e, he, -⟩ := Db.entry_kept hkept.symm he'
    obtain ⟨x₀, hx₀, hid, hrev⟩ := h.first id e he
    obtain ⟨x, hx, heq⟩ := mem_map.1 (hrevisions.symm ▸ mem_map_of_mem hx₀)
    simp only [Prod.mk.injEq] at heq
    exact ⟨x, hx, heq.1.trans hid, heq.2.1.trans hrev⟩
  · have := congrArg (map Prod.fst) hevents
    rw [map_map, map_map] at this
    exact this ▸ h.inOrder

end columns

lemma AttributedStep.of_columns (hkept : t'.db.attribution = t.db.attribution) :
    AttributedStep t t' :=
  ⟨fun _ _ he => (Db.entry_kept hkept he).imp fun _ h => ⟨h.1, h.2.1⟩, fun h => h.congr hkept⟩

lemma Db.attribution_updateEntry {f : Entry → Entry} {w : Bool} (hf : KeepsOrigin f)
    (hok : db.updateEntry w id f = .ok db') : db'.attribution = db.attribution := by
  rw [Db.updateEntry_setRow hok]
  refine Prod.ext (funext fun i => ?_) rfl
  simp only [attribution, Db.entry_setRow fun e => ⟨(hf e).1, (hf e).2.1⟩, Option.map_map]
  refine Option.map_congr fun e _ => ?_
  simp only [Function.comp_apply]
  split
  · rw [(hf e).2.2.1, (hf e).2.2.2]
  · rfl

lemma Db.attribution_updateRevisions {p : Revision → Bool} {f : Revision → Revision}
    (hok : db.updateRevisions p f = .ok db') : db'.attribution = db.attribution := by
  obtain ⟨hmay, rfl⟩ := Db.updateRevisions_eq_ok.1 hok
  refine Prod.ext rfl (Prod.ext (map_update fun x hx hp => ?_) rfl)
  have hx' := hmay x hx hp
  simp only [Revision.mayBecome, decide_eq_true_eq] at hx'
  rw [hx'.1, hx'.2.1, hx'.2.2.2.2.2.2.2.1]

lemma Db.attribution_redactEvents (hok : db.redactEvents id = .ok db') :
    db'.attribution = db.attribution := by
  rw [Db.redactEvents_eq_ok hok]
  exact Prod.ext rfl (Prod.ext rfl (map_update (f := Event.redact) fun _ _ _ => rfl))

/-! ### New rows -/

lemma Db.insertEvent_tables (hok : db.insertEvent ev = .ok db') : db'.entries = db.entries := by
  obtain ⟨rfl, -⟩ := Db.insertEvent_eq_ok hok
  rfl

namespace Db.Attributed

section

variable (h : db.Attributed) {x : Revision}
include h

lemma insertEvent (hev : ev.type = .edit → ∀ id, ev.entryId = some id →
      ∃ e, db.entry id = some e ∧ e.workspaceId = ev.workspaceId)
    (hok : db.insertEvent ev = .ok db') : db'.Attributed := by
  obtain ⟨rfl, -⟩ := Db.insertEvent_eq_ok hok
  refine ⟨fun ev' hev' => ?_, h.authors, h.first, ?_⟩
  · rcases mem_append.1 hev' with hev' | hev'
    · exact h.edits ev' hev'
    · rw [mem_singleton.1 hev']
      exact hev
  · rw [map_append, pairwise_append]
    refine ⟨h.inOrder, pairwise_singleton _ _, fun n hn m hm => ?_⟩
    rw [mem_singleton.1 hm]
    exact Nat.lt_succ_of_le (le_foldr_max hn)

/-- A revision that is inserted later is not the first. -/
lemma insertRevision (hok : db.insertRevision x = .ok db') : db'.Attributed := by
  obtain ⟨hfree, -, ⟨e, he⟩, rfl⟩ := Db.insertRevision_eq_ok.1 hok
  obtain ⟨y, hy, hyid, hyrev⟩ := h.first x.entryId e he
  have hlater : x.revision ≠ 1 := by
    intro hx
    exact List.find?_eq_none.1 hfree y (mem_rows.2 ⟨hy, hyid⟩) (by simp [hx, hyrev])
  refine ⟨h.edits, fun z hz => ?_, fun i e' he' => ?_, h.inOrder⟩
  · rcases mem_append.1 hz with hz | hz
    · exact h.authors z hz
    · rw [mem_singleton.1 hz]
      exact ⟨e, he, fun hx => absurd hx hlater⟩
  · obtain ⟨z, hz, hzid⟩ := h.first i e' he'
    exact ⟨z, mem_append_left _ hz, hzid⟩

/-- A new entry comes with its author's first revision. -/
lemma withEntry (hnone : db.entry e.id = none)
    (hx : x.entryId = e.id) (hrev : x.revision = 1) (hauthor : x.author = e.source) :
    (db.withEntry e x).Attributed := by
  have grows : ∀ i e', db.entry i = some e' → (db.withEntry e x).entry i = some e' := by
    intro i e' he'
    by_cases hi : i = e.id
    · rw [hi, hnone] at he'
      cases he'
    · rwa [Db.entry_withEntry_ne hi]
  refine ⟨fun ev hev hedit i hi => ?_, fun y hy => ?_, fun i e' he' => ?_, h.inOrder⟩
  · obtain ⟨e', he', hws⟩ := h.edits ev hev hedit i hi
    exact ⟨e', grows i e' he', hws⟩
  · rcases mem_append.1 hy with hy | hy
    · obtain ⟨e', he', hy₁⟩ := h.authors y hy
      exact ⟨e', grows _ e' he', hy₁⟩
    · rw [mem_singleton.1 hy, hx]
      exact ⟨e, Db.entry_withEntry_self hnone, fun _ => hauthor⟩
  · by_cases hi : i = e.id
    · exact ⟨x, mem_append_right _ mem_cons_self, hx.trans hi.symm, hrev⟩
    · rw [Db.entry_withEntry_ne hi] at he'
      obtain ⟨y, hy, hyid⟩ := h.first i e' he'
      exact ⟨y, mem_append_left _ hy, hyid⟩

end

end Db.Attributed

/-! ### Programs -/

/-- A statement on other tables. -/
lemma attributing_write {f : Db → Db} (hf : ∀ db, (f db).attribution = db.attribution) :
    Attributing (writeDb f) :=
  Steps.write fun t => .of_columns (hf t.db)

instance attributing_serve {rev : Int} {digest title description : String} {tokens : List String}
    {now : Time} {w : Bool} : StepsBy AttributedStep
      (execDb (Db.updateEntry w id (Entry.serve rev digest title description tokens now))) := by
  refine ⟨steps_execDb fun t _ hok => .of_columns (Db.attribution_updateEntry ?_ hok)⟩
  exact fun _ => ⟨rfl, rfl, rfl, rfl⟩

instance attributing_updateRevisions (p : Revision → Bool) (f : Revision → Revision) :
    StepsBy AttributedStep (execDb (Db.updateRevisions p f)) :=
  ⟨steps_execDb fun _ _ hok => .of_columns (Db.attribution_updateRevisions hok)⟩

instance attributing_insertRevision (x : Revision) :
    StepsBy AttributedStep (execDb (Db.insertRevision x)) :=
  ⟨steps_execDb fun _ _ hok => ⟨.of_entries (by rw [← (Db.insertRevision_eq_ok.1 hok).2.2.2]),
    fun h => h.insertRevision hok⟩⟩

instance attributing_redactEvents : StepsBy AttributedStep (execDb (Db.redactEvents id)) :=
  ⟨steps_execDb fun _ _ hok => .of_columns (Db.attribution_redactEvents hok)⟩

instance attributing_postings (keys : Db → List DedupeKey) (next : Db → Nat) :
    StepsBy AttributedStep
      (writeDb fun db => { db with dedupeKeys := keys db, backfillNext := next db }) :=
  ⟨attributing_write fun _ => rfl⟩

instance attributing_putDedupeKeys (env : Env) (pk : Nat) (ws content : String) :
    StepsBy AttributedStep (putDedupeKeys env pk ws content) :=
  ⟨attributing_write fun _ => rfl⟩

/-- Routine statements keep everything attributed. -/
instance attributing : Routine AttributedStep where
  touch t id := .of_columns (by rw [Txn.touch_db])
  row t id w f db' hf hok := .of_columns <| Db.attribution_updateEntry
    (fun e => ⟨(hf e).1, (hf e).2.1, (hf e).2.2.1, (hf e).2.2.2.1⟩) hok
  event t ev db' hev hok :=
    ⟨.of_entries (Db.insertEvent_tables hok), fun h => h.insertEvent (fun h => absurd h hev) hok⟩
  decided t p state now db' _ hok := .of_columns (Db.attribution_updateRevisions hok)
  apart t db' hapart := by
    obtain ⟨hentries, hrevisions, hevents, -⟩ := hapart
    exact .of_columns (by simp only [Db.attribution, Db.entry, hentries, hrevisions, hevents])

/-! ### Methods -/

section methods

variable (env : Env) (a : Actor)

set_option synthInstance.maxSize 1000000 in
instance attributing_purge (reason : String) :
    StepsBy AttributedStep (purge env id reason a) := .bind

/-! ### Revisions -/

set_option synthInstance.maxSize 1000000 in
instance attributing_serveRevision (cur : Entry) (rev : Int)
    (title description content digest : String) (tokens : List String) : StepsBy AttributedStep
      (serveRevision env cur rev title description content digest tokens a) := .bind

instance noEdit_demoteEvent (cur : Entry) (rev : Int) (digest : String) :
    NoEdit (demoteEvent cur rev digest).type.isEdit := ⟨rfl⟩

set_option synthInstance.maxSize 1000000 in
instance attributing_acceptRevision (i : AcceptInput) :
    StepsBy AttributedStep (acceptRevision env i a) := .bind

/-- An edit is logged in the workspace of its entry. -/
lemma attributed_editEvent {ev : EventRow}
    (he : ev.entryId ≠ "" → ∃ e, t.db.entry ev.entryId = some e ∧ e.workspaceId = ev.workspaceId) :
    Along AttributedStep t t (appendEvent env a ev) fun _ _ => True := by
  have hinsert : Along AttributedStep t t (execDb (Db.insertEvent (ev.event env a)))
      fun _ _ => True := by
    refine Along.exec .refl fun t' ht => ⟨.single ?_, trivial⟩
    cases hok : t.db.insertEvent (ev.event env a) with
    | error err => simp [hok, Except.map] at ht
    | ok db' =>
      simp only [hok, Except.map, Except.ok.injEq] at ht
      subst ht
      refine ⟨.of_entries (Db.insertEvent_tables hok), fun h =>
        h.insertEvent (fun _ i hi => ?_) hok⟩
      simp only [EventRow.event, nullText] at hi
      split at hi
      · cases hi
      · rename_i hid
        cases hi
        exact he hid
  have hrow : Along AttributedStep t t (insertEvent env a ev) fun _ _ => True :=
    bind_ensure fun _ => bind_query fun _ _ =>
      bind_of hinsert fun _ _ _ _ => .pure .refl trivial
  exact bind_of hrow fun _ _ _ _ => .pure .refl trivial

instance attributing_placeRevision (i : RevisionInput) (cur : Entry) (row : Revision) :
    StepsBy AttributedStep (placeRevision env i cur row a) := .ite _

instance attributing_appendRevision (i : RevisionInput) :
    StepsBy AttributedStep (appendRevision env i a) := by
  refine ⟨fun t => ?_⟩
  refine bind_reads fun _ _ => ?_
  refine bind_reads fun op _ => ?_
  refine bind_reads fun cur hcur => ?_
  have he := (getEntry_eq_ok.1 hcur).1
  refine bind_ensure fun _ => bind_ensure fun _ => ?_
  refine bind_reads fun base _ => ?_
  refine bind_ensure fun _ => bind_ensure fun _ => ?_
  refine bind_query fun next _ => ?_
  refine bind_of (StepsBy.steps t) fun _ t₁ chain₁ _ => ?_
  refine bind_of (StepsBy.steps t₁) fun _ t₂ chain₂ _ => ?_
  have hstay := stays_chain (chain₁.trans chain₂) _ cur he
  exact bind_of (attributed_editEvent env a fun _ => hstay) fun _ t₃ _ _ => StepsBy.steps t₃

instance attributing_appendEventInput (i : EventInput) :
    StepsBy AttributedStep (appendEventInput env a i) := by
  refine ⟨fun t => ?_⟩
  refine bind_reads fun _ _ => ?_
  unfold eventWorkspace
  by_cases hid : i.entryId = ""
  · simp only [hid, if_true]
    refine bind_ok rfl (bind_ensure fun _ => ?_)
    split
    · exact Along.throw .refl
    · exact attributed_editEvent env a fun hne => absurd rfl hne
  · simp only [hid, if_false, LawfulMonad.bind_assoc]
    refine bind_reads fun e he => ?_
    refine bind_ensure fun _ => ?_
    refine bind_ok rfl (bind_ensure fun _ => ?_)
    split
    · exact Along.throw .refl
    · exact attributed_editEvent env a fun _ => ⟨e, liveEntry_found he, rfl⟩

instance attributing_backfillDedupeKeys (max : Int) :
    StepsBy AttributedStep (backfillDedupeKeys env max) := by
  unfold backfillDedupeKeys backfillOne
  infer_instance

/-! ### New entries -/

/-- What follows the two rows of a new entry. -/
lemma attributing_furnish (pk : Nat) (i : NewEntry) (o : EntryOrigin) (d : EntryDraft)
    (ho : o.event ≠ some .edit) :
    Attributing (do
      let anchorText ← insertAnchors i.id i.paths i.anchors
      putDedupeKeys env pk i.workspaceId i.content
      ftsPut pk (Text.trimSpace i.title)
        (joinBody (Text.trimSpace i.description) i.content) anchorText
      creationEvent env i o d a
      getEntry i.id) :=
  have : StepsBy AttributedStep (creationEvent env i o d a) := routine_creationEvent i o d ho
  StepsBy.steps

lemma Db.stays_insertEntry (e : Entry) :
    db.Stays { db with entries := db.entries ++ [e] } := by
  intro i e' he'
  refine ⟨e', ?_, rfl⟩
  have hrow : row (·.id) i db.entries = some e' := he'
  rw [Db.entry, row_append, hrow]
  rfl

lemma attributing_insertEntry (i : NewEntry) (o : EntryOrigin) (ho : o.event ≠ some .edit) :
    Attributing (insertEntry env i o a) := by
  intro t
  refine bind_reads fun d _ => ?_
  refine bind_ok (a := t.db.nextPk) rfl ?_
  have hrest := attributing_furnish env a t.db.nextPk i o d ho
  refine bind_exec fun t' ht => ?_
  cases hok : t.db.insertEntry (newEntryRow env t.db.nextPk i d a) with
  | error err => simp [hok, Except.map] at ht
  | ok db₁ =>
    simp only [hok, Except.map, Except.ok.injEq] at ht
    subst ht
    obtain ⟨rfl, hnone, -⟩ := Db.insertEntry_eq_ok hok
    have hstay := t.db.stays_insertEntry (newEntryRow env t.db.nextPk i d a)
    by_cases h : t.db.Attributed
    · -- the first revision cannot fail, and the two rows count as one step
      have hno := Db.rows_of_owned
        (fun x hx => Option.isSome_iff_exists.2 ((h.authors x hx).imp fun _ he => he.1)) hnone
      have hfirst := Db.insertRevision_first (x := firstRevision env i o d a) hno hnone rfl rfl
      refine bind_ok (execDb_apply hfirst) (.restart (.single ⟨?_, fun h => ?_⟩) (hrest _))
      · exact hstay
      · exact h.withEntry hnone rfl rfl rfl
    · refine .restart (.single ⟨hstay, fun h' => absurd h' h⟩) ?_
      exact Steps.bind StepsBy.steps (fun _ => hrest) _

/-! ### Import, retention and review subjects -/

instance attributing_importEntries (ws : String) (threshold : Int) (skip : Bool)
    (les : List LegacyEntry) :
    StepsBy AttributedStep (importEntries env ws threshold skip a les) := by
  have one (le : LegacyEntry) : StepsBy AttributedStep (importEntry env ws threshold a le) := by
    refine .andThen fun _ => .andThen fun _ => ?_
    split
    · infer_instance
    · exact ⟨.bind (attributing_insertEntry env a _ _ nofun) fun _ => StepsBy.steps⟩
  induction les with
  | nil => exact ⟨.pure _⟩
  | cons le les ih =>
    exact ⟨.bind (.tryCatch (.bind (one le).steps fun _ => .pure _) fun _ => .reads) fun _ =>
      ih.steps⟩

instance attributing_compactRevisions (cutoff : Time) (batch : Nat) :
    StepsBy AttributedStep (compactRevisions env cutoff batch) :=
  ⟨steps_execDb fun _ _ hok => .of_columns (Db.attribution_updateRevisions hok)⟩

end methods

/-! ### Histories -/

theorem TxWrite.run_attributing (env : Env) (w : TxWrite) : Attributing (w.run env) := by
  suffices h : StepsBy AttributedStep (w.run env) from h.steps
  cases w with
  | insertEntry i a =>
    have : StepsBy AttributedStep (insertEntryBy env i a) :=
      .andThen fun _ => ⟨attributing_insertEntry env a i _ nofun⟩
    exact .bind
  | importContextEntries ws principal threshold skip entries => exact .bind
  | purge | appendRevision | acceptRevision | appendEvent | backfillDedupeKeys | compactRevisions =>
    dsimp only [run]
    infer_instance
  | _ => exact TxWrite.run_routine env trivial

theorem attributing_runWrites (h : Hashing) : ∀ ws : List (Time × TxWrite),
    Attributing (runWrites h ws)
  | [] => .pure _
  | (now, w) :: ws => .bind (.tryCatch (TxWrite.run_attributing ⟨h, now⟩ w) fun _ => .pure _)
      fun _ => attributing_runWrites h ws

lemma Db.Attributed.transact (hdb : db.Attributed) (h : Hashing) (ws : List (Time × TxWrite)) :
    (db.transact h ws).Attributed := by
  have hkeeps : ∀ t : Txn, t.db.Attributed → (runWrites h ws t).2.db.Attributed := by
    intro t ht
    refine (attributing_runWrites h ws t).1.keeps (I := fun t => t.db.Attributed) ?_ ht
    exact fun _ _ hstep => hstep.2
  unfold Db.transact
  cases hup : db.update (runWrites h ws) with
  | mk r db' =>
    cases r with
    | ok u =>
      obtain ⟨t, hrun, -, rfl⟩ := Db.update_eq_ok.1 hup
      have := hkeeps db.start hdb
      rwa [hrun] at this
    | error err =>
      have hsame : (db.update (runWrites h ws)).2 = db := Db.update_error (by rw [hup])
      rw [hup] at hsame
      rwa [hsame]

/-- In every store that started empty, authors and edits are attributed. -/
theorem Reachable.attributed {h : Hashing} (hr : Reachable h db) : db.Attributed := by
  obtain ⟨txs, rfl⟩ := hr
  have hall : ∀ db : Db, db.Attributed → (db.history h txs).Attributed := by
    induction txs with
    | nil => exact fun _ hdb => hdb
    | cons ws txs ih => exact fun db hdb => ih _ (hdb.transact h ws)
  exact hall _ .empty

end GovStore
