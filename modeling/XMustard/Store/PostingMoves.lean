import XMustard.Store.ImportErrors
import XMustard.Store.PostingLedger
import XMustard.Store.Routine

/-!
# What writes do to the ledger of postings

Most writes leave the ledger of a database as it is. A new entry, a new or newly served revision, a
purge, an import and the compaction of old content change it, and each of them by moves of
`Ledger.Move`, provided that it succeeds.
-/

namespace GovStore

open Db List Table Program Relation

variable {α : Type} {db db' : Db} {id : String} {e : Entry} {t t' : Txn} {rev : Int}
  {x : Revision}

/-! ### The ledger of a database -/

def Entry.slot (e : Entry) : Slot := ⟨e.id, e.pk, e.workspaceId, e.revision⟩

def Db.ledger (db : Db) : Ledger where
  slots := db.entries.map (·.slot)
  content id rev := (db.revisionRow id rev).map (·.content)
  posted pk := (rows (·.entryPk) pk db.dedupeKeys).map (·.key)
  next := db.backfillNext
  last := db.backfillEnd

/-- The parts of a ledger, for the comparison of two databases. -/
lemma Db.ledger_congr (slots : db'.entries.map (·.slot) = db.entries.map (·.slot))
    (content : ∀ id rev, (db'.revisionRow id rev).map (·.content)
      = (db.revisionRow id rev).map (·.content))
    (keys : db'.dedupeKeys = db.dedupeKeys) (next : db'.backfillNext = db.backfillNext)
    (last : db'.backfillEnd = db.backfillEnd) : db'.ledger = db.ledger := by
  simp only [Db.ledger, slots, content, keys, next, last]

lemma Db.Apart.ledger (h : db.Apart db') : db'.ledger = db.ledger := by
  obtain ⟨entries, revisions, -, keys, next, last⟩ := h
  exact ledger_congr (by rw [entries]) (fun _ _ => by rw [Db.revisionRow, revisions]; rfl) keys
    next last

/-! ### Rows -/

section row

variable {f : Entry → Entry} {w : Bool}

lemma Db.ledger_row (hf : KeepsServed f) (hok : db.updateEntry w id f = .ok db') :
    db'.ledger = db.ledger := by
  rw [updateEntry_setRow hok]
  refine ledger_congr (map_update fun e _ _ => ?_) (fun _ _ => rfl) rfl rfl rfl
  obtain ⟨hid, hpk, hws, -, hrev⟩ := hf e
  simp only [Entry.slot, hid, hpk, hws, hrev]

/-- A row that comes to serve another revision. -/
lemma Db.ledger_serve (hf : ∀ e, (f e).slot = { e.slot with revision := rev })
    (hok : db.updateEntry w id f = .ok db') : db'.ledger = db.ledger.serve id rev := by
  rw [updateEntry_setRow hok]
  simp only [Db.ledger, Db.setRow, Ledger.serve, Table.update, List.map_map,
    Ledger.mk.injEq, and_true]
  refine ⟨List.map_congr_left fun e _ => ?_, rfl⟩
  simp only [Function.comp_apply, decide_eq_true_eq]
  by_cases hid : e.id = id
  · rw [if_pos hid, if_pos (show e.slot.id = id from hid), hf]
  · rw [if_neg hid, if_neg (show e.slot.id ≠ id from hid)]

lemma Db.ledger_insertEntry (hok : db.insertEntry e = .ok db') :
    db'.ledger = db.ledger.insert e.slot := by
  obtain ⟨rfl, -⟩ := insertEntry_eq_ok hok
  simp [Db.ledger, Ledger.insert, Db.revisionRow]

end row

/-! ### Revisions -/

section revisions

variable {p : Revision → Bool} {f : Revision → Revision}

/-- An update of revisions that keeps their keys, row by row. -/
lemma Db.revisionRow_update (hf : ∀ x, (f x).entryId = x.entryId ∧ (f x).revision = x.revision)
    (id : String) (rev : Int) :
    ({ db with revisions := Table.update p f db.revisions } : Db).revisionRow id rev
      = (db.revisionRow id rev).map fun x => if p x then f x else x := by
  have hrow : row (·.revision) rev (Table.update p f (rows (·.entryId) id db.revisions))
      = (row (·.revision) rev (rows (·.entryId) id db.revisions)).map
        fun x => if p x then f x else x := row_update fun x _ => (hf x).2
  simp only [Db.revisionRow]
  rw [rows_update fun x _ => (hf x).1]
  exact hrow

lemma Db.ledger_decide {state : RevisionState} {now : Time}
    (hok : db.updateRevisions p (Revision.decide state now) = .ok db') :
    db'.ledger = db.ledger := by
  obtain ⟨-, rfl⟩ := updateRevisions_eq_ok.1 hok
  have keeps : ∀ x, (Revision.decide state now x).entryId = x.entryId
      ∧ (Revision.decide state now x).revision = x.revision := fun _ => ⟨rfl, rfl⟩
  refine ledger_congr rfl (fun id rev => ?_) rfl rfl rfl
  rw [revisionRow_update keeps, Option.map_map]
  congr 1
  funext x
  simp only [Function.comp_apply]
  split <;> rfl

/-- The content of revisions is dropped. -/
lemma Db.ledger_drop {q : String → Int → Bool} (hok : db.updateRevisions p f = .ok db')
    (hf : ∀ x, (f x).entryId = x.entryId ∧ (f x).revision = x.revision ∧ (f x).content = none)
    (hq : ∀ id rev x, db.revisionRow id rev = some x → p x = q id rev) :
    db'.ledger = db.ledger.drop q := by
  obtain ⟨-, rfl⟩ := updateRevisions_eq_ok.1 hok
  simp only [Db.ledger, Ledger.drop, Ledger.mk.injEq, true_and, and_true]
  funext id rev
  rw [revisionRow_update fun x => ⟨(hf x).1, (hf x).2.1⟩]
  cases hx : db.revisionRow id rev with
  | none => simp
  | some x =>
    rw [← hq id rev x hx]
    by_cases hp : p x
    · simp [hp, (hf x).2.2]
    · simp [hp]

lemma Db.ledger_insertRevision {c : String} (hc : x.content = some c)
    (hok : db.insertRevision x = .ok db') :
    db.ledger.content x.entryId x.revision = none
      ∧ db'.ledger = db.ledger.write x.entryId x.revision c := by
  obtain ⟨hfree, -, -, rfl⟩ := insertRevision_eq_ok.1 hok
  refine ⟨by simp [Db.ledger, hfree], ?_⟩
  simp only [Db.ledger, Ledger.write, Ledger.mk.injEq, true_and, and_true]
  funext id rev
  by_cases hid : x.entryId = id
  · subst hid
    simp only [Db.revisionRow, rows_append_same, true_and] at hfree ⊢
    by_cases hrev : rev = x.revision
    · simp [hrev, hfree, hc]
    · simp [hrev, Ne.symm hrev]
  · simp [Db.revisionRow, hid, Ne.symm hid]

end revisions

/-! ### Postings -/

lemma Db.ledger_putDedupeKeys (pk : Nat) (keys : List Nat) :
    (db.putDedupeKeys pk keys).ledger = db.ledger.post pk keys := by
  simp only [Db.ledger, Db.putDedupeKeys, Ledger.post, Ledger.mk.injEq, true_and, and_true]
  refine ⟨rfl, funext fun k => ?_⟩
  rw [rows_append, map_append]
  by_cases hk : k = pk
  · subst hk
    have hown : rows (·.entryPk) k (keys.eraseDups.map (⟨·, k⟩ : Nat → DedupeKey))
        = keys.eraseDups.map (⟨·, k⟩) := by
      rw [rows, filter_eq_self]
      intro r hr
      obtain ⟨n, -, rfl⟩ := mem_map.1 hr
      simp
    rw [rows_delete_self, hown, List.map_map, if_pos rfl]
    exact map_id _
  · have hnone : rows (·.entryPk) k (keys.eraseDups.map (⟨·, pk⟩ : Nat → DedupeKey)) = [] := by
      rw [rows, filter_eq_nil_iff]
      intro r hr
      obtain ⟨n, -, rfl⟩ := mem_map.1 hr
      simpa using Ne.symm hk
    rw [hnone, rows_delete_other (Ne.symm hk)]
    simp [hk]

lemma Db.ledger_deleteKeys (pk : Nat) :
    ({ db with dedupeKeys := delete (fun k => k.entryPk = pk) db.dedupeKeys } : Db).ledger
      = db.ledger.post pk [] := by
  rw [← ledger_putDedupeKeys]
  simp [Db.ledger, Db.putDedupeKeys, Db.revisionRow]

/-! ### Writes that leave the ledger alone -/

def SameLedger (t t' : Txn) : Prop := t'.db.ledger = t.db.ledger

instance sameLedger : Routine SameLedger where
  touch t id := by rw [SameLedger, Txn.touch_db]
  row t id w f db' hf hok := ledger_row hf hok
  event t ev db' _ hok := by
    obtain ⟨rfl, -⟩ := insertEvent_eq_ok hok
    rfl
  decided t p state now db' _ hok := ledger_decide hok
  apart t db' hapart := hapart.ledger

lemma ledger_of_run {m : Tx α} [hm : StepsBy SameLedger m] {r : Except Err α}
    (hrun : m t = (r, t')) : t'.db.ledger = t.db.ledger := by
  have hchain := (hm.steps t).1
  rw [hrun] at hchain
  exact hchain.keeps (I := fun t' => t'.db.ledger = t.db.ledger)
    (fun _ _ hstep ih => hstep.trans ih) rfl

section methods

variable {env : Env} {a : Actor} {i : NewEntry} {o : EntryOrigin} {cur : Entry} {u : Unit}
  {ws : String} {threshold : Int} {skip : Bool}

instance sameLedger_appendEvent (ev : EventRow) : StepsBy SameLedger (appendEvent env a ev) := by
  refine ⟨.bind (.guard <| .read fun _ =>
    .bind (steps_execDb fun t db' hok => ?_) fun _ => .pure _) fun _ => .pure _⟩
  obtain ⟨rfl, -⟩ := insertEvent_eq_ok hok
  exact rfl

instance sameLedger_appendEventInput (i : EventInput) :
    StepsBy SameLedger (appendEventInput env a i) := by
  unfold appendEventInput eventWorkspace
  refine .andThen fun _ => .andThen fun _ => .andThen fun _ => ?_
  split <;> infer_instance

/-! ### New entries -/

lemma content_of_validateEntry {d : EntryDraft}
    (hok : validateEntry env i o t = (.ok d, t')) : i.content ≠ "" := by
  simp only [validateEntry, Reads.bind_eq_ok] at hok
  obtain ⟨-, -, -, -, _, -, _, -, -, -, _, -, _, hcontent, -⟩ := hok
  have hcontent := (ensure_eq_ok.1 hcontent).1
  intro hempty
  exact hcontent (by rw [hempty]; rfl)

lemma insertEntry_moves
    (hrun : insertEntry env i o a t = (.ok e, t')) :
    Ledger.Move env.toHashing t.db.ledger t'.db.ledger := by
  obtain ⟨d, hd, hrun⟩ := Reads.bind_eq_ok.1 hrun
  rw [readDb_bind_apply] at hrun
  obtain ⟨_, t₁, hentry, hrun⟩ := bind_eq_ok.1 hrun
  obtain ⟨_, t₂, hrevision, hrun⟩ := bind_eq_ok.1 hrun
  obtain ⟨_, t₃, hanchors, hrun⟩ := bind_eq_ok.1 hrun
  obtain ⟨_, t₄, hkeys, hrun⟩ := bind_eq_ok.1 hrun
  obtain ⟨db₁, hrow, rfl⟩ := execDb_eq_ok hentry
  obtain ⟨db₂, hfirst, rfl⟩ := execDb_eq_ok hrevision
  obtain ⟨-, hnone, -⟩ := insertEntry_eq_ok hrow
  cases hkeys
  have hlast : t'.db.ledger
      = (t₃.db.putDedupeKeys t.db.nextPk (env.postings i.workspaceId i.content)).ledger := by
    have : StepsBy SameLedger (creationEvent env i o d a) := by
      unfold creationEvent
      split <;> infer_instance
    exact ledger_of_run hrun
  have hfinal : t'.db.ledger = ((t.db.ledger.insert (newEntryRow env t.db.nextPk i d a).slot).write
      i.id 1 i.content).post t.db.nextPk (env.postings i.workspaceId i.content) := by
    rw [hlast, ledger_putDedupeKeys,
      ledger_of_run hanchors,
      (ledger_insertRevision rfl hfirst).2, ledger_insertEntry hrow]
    rfl
  rw [hfinal]
  refine .added (newEntryRow env t.db.nextPk i d a).slot i.content (fun x hx => ?_)
    (fun x hx => ?_) (Nat.succ_pos _) (content_of_validateEntry hd)
  · obtain ⟨e', he', rfl⟩ := mem_map.1 hx
    exact row_eq_none.1 hnone e' he'
  · obtain ⟨e', he', rfl⟩ := mem_map.1 hx
    exact lt_nextPk he'

lemma insertEntryBy_moves (hrun : insertEntryBy env i a t = (.ok e, t')) :
    Ledger.Move env.toHashing t.db.ledger t'.db.ledger := by
  obtain ⟨_, -, hrun⟩ := Reads.bind_eq_ok.1 hrun
  exact insertEntry_moves hrun

/-! ### Revisions -/

lemma Db.slot_mem (he : db.entry id = some e) : e.slot ∈ db.ledger.slots :=
  mem_map_of_mem (entry_mem he).1

lemma serveRevision_ledger {title description content digest : String} {tokens : List String}
    (hrun : serveRevision env cur rev title description content digest tokens a t = (.ok u, t')) :
    t'.db.ledger
      = (t.db.ledger.serve cur.id rev).post cur.pk (env.postings cur.workspaceId content) := by
  obtain ⟨_, t₁, hexec, hrun⟩ := bind_eq_ok.1 hrun
  obtain ⟨db₁, hrow, rfl⟩ := execDb_eq_ok hexec
  obtain ⟨_, t₂, hclear, hrun⟩ := bind_eq_ok.1 hrun
  obtain ⟨_, t₃, hkeys, hrun⟩ := bind_eq_ok.1 hrun
  cases hkeys
  have hlast : t'.db.ledger
      = (t₂.db.putDedupeKeys cur.pk (env.postings cur.workspaceId content)).ledger :=
    ledger_of_run hrun
  rw [hlast, ledger_putDedupeKeys, ledger_of_run hclear, ledger_serve (fun _ => rfl) hrow]

lemma content_of_validateRevision {i : RevisionInput} {op : RevisionOp}
    (hok : validateRevision i t = (.ok op, t')) : i.content ≠ "" := by
  unfold validateRevision at hok
  cases hop : i.op with
  | none =>
    rw [hop] at hok
    cases hok
  | some op' =>
    rw [hop] at hok
    obtain ⟨-, hok⟩ := bind_ensure_eq_ok.1 hok
    obtain ⟨hcontent, -⟩ := bind_ensure_eq_ok.1 hok
    intro hempty
    exact hcontent (by rw [hempty]; rfl)

lemma placeRevision_moves {i : RevisionInput} {row : Revision} (hcur : cur.slot ∈ t.db.ledger.slots)
    (there : t.db.ledger.content cur.id row.revision = some (some i.content))
    (hrun : placeRevision env i cur row a t = (.ok u, t')) :
    ReflTransGen (Ledger.Move env.toHashing) t.db.ledger t'.db.ledger := by
  unfold placeRevision at hrun
  split at hrun
  · rw [serveRevision_ledger hrun]
    exact .single (.served cur.slot row.revision i.content hcur there)
  · rw [ledger_of_run hrun]

lemma appendRevision_moves {i : RevisionInput}
    (hrun : appendRevision env i a t = (.ok x, t')) :
    ReflTransGen (Ledger.Move env.toHashing) t.db.ledger t'.db.ledger := by
  simp only [appendRevision, readDb_bind_apply, Reads.bind_eq_ok] at hrun
  obtain ⟨-, -, op, hop, cur, hcur, -, -, -, -, base, -, -, -, -, -, hrun⟩ := hrun
  obtain ⟨_, t₁, hinsert, hrun⟩ := bind_eq_ok.1 hrun
  obtain ⟨db₁, hrow, rfl⟩ := execDb_eq_ok hinsert
  obtain ⟨_, t₂, hplace, hrun⟩ := bind_eq_ok.1 hrun
  have he := (getEntry_eq_ok.1 hcur).1
  obtain ⟨hfree, hwrite⟩ := ledger_insertRevision rfl hrow
  have hlast : t'.db.ledger = t₂.db.ledger :=
    ledger_of_run hrun
  have hproposed : Ledger.Move env.toHashing t.db.ledger db₁.ledger := by
    rw [hwrite]
    exact .proposed _ _ _ hfree (content_of_validateRevision hop)
  rw [hlast]
  refine .head hproposed (placeRevision_moves ?_ ?_ hplace)
  · rw [hwrite]
    exact slot_mem he
  · rw [hwrite, (entry_mem he).2]
    exact if_pos ⟨rfl, rfl⟩

/-- An accepted revision has content, because it was pending. -/
lemma acceptRevision_moves {i : AcceptInput} (hs : t.db.Sound env.toHashing)
    (hrun : acceptRevision env i a t = (.ok e, t')) :
    Ledger.Move env.toHashing t.db.ledger t'.db.ledger := by
  simp only [acceptRevision, Reads.bind_eq_ok, ensure_eq_ok] at hrun
  obtain ⟨-, -, cur, hcur, -, ⟨hactive, -⟩, rv, hrv, -, ⟨hpending, -⟩, hrun⟩ := hrun
  obtain ⟨_, t₁, hdecide, hrun⟩ := bind_eq_ok.1 hrun
  obtain ⟨_, t₂, hserve, hrun⟩ := bind_eq_ok.1 hrun
  have he := (getEntry_eq_ok.1 hcur).1
  have hid : cur.id = i.entryId := (entry_mem he).2
  have hrow : t.db.revisionRow cur.id i.revision = some rv := hid ▸ (getRevision_eq_ok.1 hrv).1
  have hlive : cur.lifecycle ≠ .purged := by
    rw [hactive]
    nofun
  obtain ⟨c, hc, -⟩ := (hs.chain he).kept hlive rv (revisionRow_eq_some hrow).1
    (.inr hpending.1)
  have hlast : t'.db.ledger = t₂.db.ledger :=
    ledger_of_run hrun
  rw [hlast, serveRevision_ledger hserve, ledger_of_run hdecide, hc]
  refine .served cur.slot i.revision c (slot_mem he) ?_
  show (t.db.revisionRow cur.id i.revision).map (·.content) = _
  rw [hrow, Option.map_some, hc]

/-! ### Purge and retention -/

lemma purge_moves {reason : String} (hrun : purge env id reason a t = (.ok u, t')) :
    ReflTransGen (Ledger.Move env.toHashing) t.db.ledger t'.db.ledger := by
  obtain ⟨_, -, hrun⟩ := Reads.bind_eq_ok.1 hrun
  obtain ⟨cur, hcur, hrun⟩ := Reads.bind_eq_ok.1 hrun
  have he := (getEntry_eq_ok.1 hcur).1
  split at hrun
  · cases hrun
    exact .refl
  · obtain ⟨_, t₁, hrow, hrun⟩ := bind_eq_ok.1 hrun
    obtain ⟨_, t₂, hexec, hrun⟩ := bind_eq_ok.1 hrun
    obtain ⟨db₂, hdrop, rfl⟩ := execDb_eq_ok hexec
    have hrow := ledger_of_run hrow
    have hid : cur.id = id := (entry_mem he).2
    -- the texts go, then the postings, and what is left says nothing about either
    have hdropped : db₂.ledger = t.db.ledger.drop fun i _ => i = cur.id := by
      rw [← hrow, hid]
      refine ledger_drop hdrop (fun _ => ⟨rfl, rfl, rfl⟩) fun i rev x hx => ?_
      have hx := (mem_rows.1 (mem_of_find?_eq_some hx)).2
      simp only [hx]
    obtain ⟨_, t₃, hvotes, hrun⟩ := bind_eq_ok.1 hrun
    obtain ⟨_, t₄, houtcomes, hrun⟩ := bind_eq_ok.1 hrun
    obtain ⟨_, t₅, hanchors, hrun⟩ := bind_eq_ok.1 hrun
    obtain ⟨_, t₆, hclaims, hrun⟩ := bind_eq_ok.1 hrun
    obtain ⟨_, t₇, hkeys, hrun⟩ := bind_eq_ok.1 hrun
    have hkept : t₆.db.ledger = db₂.ledger := by
      cases hvotes
      cases houtcomes
      cases hanchors
      cases hclaims
      rfl
    have hposted : t₇.db.ledger = t₆.db.ledger.post cur.pk [] := by
      cases hkeys
      exact ledger_deleteKeys cur.pk
    have hlast : t'.db.ledger = t₇.db.ledger := by
      have : StepsBy SameLedger (execDb (Db.redactEvents id)) := by
        refine ⟨steps_execDb fun t db' hok => ?_⟩
        rw [redactEvents_eq_ok hok]
        exact rfl
      exact ledger_of_run hrun
    rw [hlast, hposted, hkept, hdropped]
    exact .single (.erased cur.slot (slot_mem he))

/-- Retention drops nothing that is served. -/
lemma compactRevisions_moves {cutoff : Time} {batch : Nat} (hL : t.db.ledger.Ok)
    (hrun : compactRevisions env cutoff batch t = (.ok u, t')) :
    Ledger.Move env.toHashing t.db.ledger t'.db.ledger := by
  obtain ⟨db', hdrop, rfl⟩ := execDb_eq_ok hrun
  let old := ((t.db.revisions.filter (t.db.droppable cutoff)).take batch).map
    fun r => (r.entryId, r.revision)
  let p : Revision → Bool := fun r => t.db.droppable cutoff r ∧ (r.entryId, r.revision) ∈ old
  have hledger : db'.ledger = t.db.ledger.drop fun i rev => (t.db.revisionRow i rev).any p :=
    ledger_drop hdrop (fun _ => ⟨rfl, rfl, rfl⟩) fun i rev x hx => by rw [hx]; rfl
  rw [hledger]
  refine .dropped _ fun s hs => ?_
  obtain ⟨e, he, rfl⟩ := mem_map.1 hs
  cases hx : t.db.revisionRow e.id e.revision with
  | none => simp [Entry.slot, hx]
  | some x =>
    obtain ⟨hmem, hrev⟩ := revisionRow_eq_some hx
    have hown : t.db.entry x.entryId = some e := by
      have hids : (t.db.entries.map (·.id)).Nodup := by
        simpa [Db.ledger, Function.comp_def, Entry.slot] using hL.ids
      rw [(mem_rows.1 hmem).2]
      exact row_of_mem hids he
    simp [Entry.slot, hx, p, Db.droppable, hown, hrev]

/-! ### Import -/

lemma importEntry_moves {le : LegacyEntry} {b : Bool}
    (hrun : importEntry env ws threshold a le t = (.ok b, t')) :
    ReflTransGen (Ledger.Move env.toHashing) t.db.ledger t'.db.ledger := by
  obtain ⟨n, -, hrun⟩ := Reads.bind_eq_ok.1 hrun
  rw [readDb_bind_apply] at hrun
  split at hrun
  · cases hrun
    exact .refl
  · obtain ⟨e, t₁, hinsert, hrun⟩ := bind_eq_ok.1 hrun
    have hlast : t'.db.ledger = t₁.db.ledger :=
      ledger_of_run hrun
    rw [hlast]
    exact .single (insertEntry_moves hinsert)

lemma importEntries_moves :
    ∀ {les : List LegacyEntry} {t t' : Txn} {u : Unit},
      importEntries env ws threshold skip a les t = (.ok u, t') →
      ReflTransGen (Ledger.Move env.toHashing) t.db.ledger t'.db.ledger
  | [], t, t', u, hrun => by
    cases hrun
    exact .refl
  | le :: les, t, t', u, hrun => by
    obtain ⟨_, t₁, hone, hrun⟩ := bind_eq_ok.1 hrun
    refine .trans ?_ (importEntries_moves hrun)
    cases himport : importEntry env ws threshold a le t with
    | mk r t₂ =>
      cases r with
      | ok b =>
        have hok : (do let _ ← importEntry env ws threshold a le : Tx Unit) t = (.ok (), t₂) :=
          bind_eq_ok.2 ⟨b, t₂, himport, rfl⟩
        rw [tryCatch_apply_ok hok] at hone
        cases hone
        exact importEntry_moves himport
      | error err =>
        have herr : (do let _ ← importEntry env ws threshold a le : Tx Unit) t = (.error err, t₂) :=
          bind_apply_error himport _
        rw [tryCatch_apply_error herr] at hone
        obtain ⟨⟨hkind, -⟩, rfl⟩ := ensure_eq_ok.1 hone
        rw [importEntry_skipped himport hkind]

lemma importContextEntries_moves {principal : String} {les : List LegacyEntry}
    (hrun : importContextEntries env ws principal threshold skip les t = (.ok u, t')) :
    ReflTransGen (Ledger.Move env.toHashing) t.db.ledger t'.db.ledger := by
  obtain ⟨-, hrun⟩ := bind_ensure_eq_ok.1 hrun
  obtain ⟨_, -, hrun⟩ := Reads.bind_eq_ok.1 hrun
  obtain ⟨_, t₁, himport, hrun⟩ := bind_eq_ok.1 hrun
  rw [ledger_of_run hrun]
  exact importEntries_moves himport

end methods

end GovStore
