import XMustard.Store.Rows

/-!
# Purge

The statements of a purge cannot fail once the entry is found, so a purge is one act, and it
leaves no text of the entry in any table.
-/

namespace GovStore

open Db Table Program Along List

variable {h : Hashing} {A : String → Act → Prop} {t : Txn} {id : String} {e : Entry} {db' : Db}

/-! ### Statements that succeed -/

lemma execDb_apply {f : Db → Except Err Db} (hok : f t.db = .ok db') :
    execDb f t = (.ok (), { t with db := db' }) := by
  simp [execDb, Program.exec, hok, Except.map]

lemma readDb_bind_apply {α β : Type} (f : Db → α) (g : α → Tx β) :
    (readDb f >>= g) t = g (f t.db) t := rfl

lemma Db.updateRevisions_eq_ok {db : Db} {p : Revision → Bool} {f : Revision → Revision} :
    db.updateRevisions p f = .ok db' ↔ (∀ x ∈ db.revisions, p x → x.mayBecome (f x))
      ∧ { db with revisions := Table.update p f db.revisions } = db' := by
  have hall : (db.revisions.all fun x => !p x || x.mayBecome (f x))
      ↔ ∀ x ∈ db.revisions, p x → x.mayBecome (f x) := by
    simp [imp_iff_not_or]
  unfold Db.updateRevisions
  split_ifs <;> simp_all

lemma Revision.mayBecome_tombstone (now : Time) (x : Revision) :
    x.mayBecome (x.tombstone now) := by
  unfold Revision.mayBecome Revision.tombstone
  by_cases hp : x.state = .pending <;> simp [hp]

lemma appendEvent_apply {env : Env} {a : Actor} {ev : EventRow}
    (hsub : ev.subjectKind = ev.type.subject) (hok : t.db.insertEvent (ev.event env a) = .ok db') :
    appendEvent env a ev t = (.ok (), { t with db := db' }) := by
  have hens : (Program.ensure (ev.subjectKind = ev.type.subject)
      (invalid "a %s event names a %s, not a %s") : Tx Unit) t = (.ok (), t) := by
    simp [Program.ensure, hsub]
  have hins : insertEvent env a ev t = (.ok t.db.nextSeq, { t with db := db' }) := by
    unfold insertEvent
    rw [bind_apply_ok hens, readDb_bind_apply, bind_apply_ok (execDb_apply hok)]
    rfl
  unfold appendEvent
  rw [bind_apply_ok hins]
  rfl

lemma Db.redactEvents_ok {db : Db} (hp : db.purged id) :
    db.redactEvents id = .ok { db with
      events := Table.update (fun ev => ev.entryId = some id ∧ !ev.redacted) Event.redact
        db.events } := by
  simp [Db.redactEvents, hp]

lemma Db.redactEvents_eq_ok {db : Db} (hok : db.redactEvents id = .ok db') :
    db' = { db with
      events := Table.update (fun ev => ev.entryId = some id ∧ !ev.redacted) Event.redact
        db.events } := by
  unfold Db.redactEvents at hok
  split at hok <;> cases hok
  rfl

lemma Db.insertEvent_ok {db : Db} {ev : Event}
    (ht : ev.type = .purge ∨ ∀ i, ev.entryId = some i → ¬db.purged i)
    (hk : ev.subjectKind = .memory) :
    db.insertEvent ev = .ok { db with events := db.events ++ [{ ev with seq := db.nextSeq }] } := by
  unfold Db.insertEvent
  match hid : ev.entryId with
  | none => rfl
  | some i =>
    rcases ht with ht | ht
    · simp [ht, hk]
    · simp [ht i hid, hk]

/-! ### What a purge leaves -/

/-- The database after the statements of a purge, before its event. -/
def Db.tombstoned (db : Db) (cur : Entry) (now : Time) : Db :=
  { db with
    entries := Table.update (fun e => e.id = cur.id) (Entry.tombstone now) db.entries
    revisions := Table.update (fun r => r.entryId = cur.id) (Revision.tombstone now) db.revisions
    votes := Table.update (fun v => v.entryId = cur.id) (fun v => { v with note := "" }) db.votes
    outcomes :=
      Table.update (fun o => o.entryId = cur.id) (fun o => { o with note := "" }) db.outcomes
    anchors := delete (fun x => x.entryId = cur.id) db.anchors
    claims := delete (fun c => c.entryId = cur.id) db.claims
    dedupeKeys := delete (fun k => k.entryPk = cur.pk) db.dedupeKeys
    members := delete (fun m => m.entryId = cur.id) db.members
    events := Table.update (fun ev => ev.entryId = some cur.id ∧ !ev.redacted)
      Event.redact db.events
    memoryFts := delete (fun r => r.rowid = cur.pk) db.memoryFts }

lemma Entry.tombstone_keeps (now : Time) : KeepsKeys (Entry.tombstone now) := fun _ => ⟨rfl, rfl⟩

lemma Entry.checked_tombstone {now : Time} (hc : e.checked) : (e.tombstone now).checked := by
  simp only [Entry.checked, decide_eq_true_eq] at hc ⊢
  exact ⟨nofun, Int.le_refl _, hc.2.2.1, hc.2.2.2.1, hc.2.2.2.2⟩

section tombstoned

variable {db : Db} {now : Time}

lemma Db.entry_tombstoned (e : Entry) (i : String) :
    (db.tombstoned e now).entry i
      = (db.entry i).map fun x => if i = e.id then x.tombstone now else x :=
  entry_setRow (Entry.tombstone_keeps now) i

/-- The rows of the purged entry. -/
lemma Db.recordOf_tombstoned (e : Entry) :
    (db.tombstoned e now).recordOf (e.tombstone now)
      = { row := e.tombstone now
          revisions := (db.recordOf e).revisions.map (Revision.tombstone now)
          votes := (db.recordOf e).votes.map fun v => { v with note := "" }
          events := Table.update (fun ev => ev.entryId = some e.id ∧ !ev.redacted) Event.redact
            (db.recordOf e).events
          anchors := [], claims := []
          outcomes := (db.recordOf e).outcomes.map fun o => { o with note := "" }
          members := [], postings := [] } := by
  simp only [Db.recordOf, Db.tombstoned, Record.mk.injEq, true_and]
  refine ⟨rows_update_self fun _ => rfl, rows_update_self fun _ => rfl, rows_update fun _ _ => rfl,
    rows_delete_self, rows_delete_self, rows_update_self fun _ => rfl, rows_delete_self,
    rows_delete_self⟩

lemma Record.blank_tombstoned (wf : db.Wf) (e : Entry) {events : List Event} {purge : Event}
    (hev : events = ((db.tombstoned e now).recordOf (e.tombstone now)).events ++ [purge])
    (hp : purge.type = .purge) :
    Record.Blank { (db.tombstoned e now).recordOf (e.tombstone now) with events := events } := by
  rw [recordOf_tombstoned] at hev ⊢
  refine ⟨rfl, rfl, rfl, rfl, rfl, rfl, ?_, ?_, ?_, rfl, rfl, rfl, rfl, _, purge, hev, hp, ?_⟩
  · intro x hx
    obtain ⟨y, -, rfl⟩ := mem_map.1 hx
    exact ⟨rfl, rfl, rfl, rfl⟩
  · intro v hv
    obtain ⟨w, -, rfl⟩ := mem_map.1 hv
    rfl
  · intro o ho
    obtain ⟨p, -, rfl⟩ := mem_map.1 ho
    rfl
  · -- an event that was not redacted now had been redacted before
    intro ev hmem
    rcases mem_update_cases hmem with ⟨ev₀, -, -, rfl⟩ | ⟨hmem, hno⟩
    · exact ⟨rfl, rfl⟩
    · obtain ⟨hmem, hid⟩ := mem_rows.1 hmem
      exact (wf.events ev hmem).redacted (by simpa [hid] using hno)

variable (wf : db.Wf) (he : db.entry e.id = some e)

include wf he

/-- Other entries keep their records. -/
lemma Db.record_tombstoned_ne {i : String} (hi : i ≠ e.id) (now : Time) :
    (db.tombstoned e now).record i = db.record i := by
  simp only [Db.record, entry_tombstoned, hi, if_false, Option.map_map]
  refine Option.map_congr fun e' he' => ?_
  have hne : e.id ≠ e'.id := by rw [(entry_mem he').2]; exact hi.symm
  have hpk : e.pk ≠ e'.pk := fun hpk => hi (wf.id_of_pk he he' hpk).symm
  simp only [Function.comp_apply, Db.recordOf, Db.tombstoned, Record.mk.injEq, true_and]
  refine ⟨rows_update_other hne fun _ => rfl, rows_update_other hne fun _ => rfl, ?_,
    rows_delete_other hne, rows_delete_other hne, rows_update_other hne fun _ => rfl,
    rows_delete_other hne, rows_delete_other hpk⟩
  refine rows_update_of_ne (fun _ _ => rfl) fun r hr => ?_
  simp only [Bool.not_eq_true', decide_eq_true_eq] at hr
  rw [hr.1]
  simpa using hne

lemma Db.Wf.tombstoned : (db.tombstoned e now).Wf := by
  have row := wf.setRow (Entry.tombstone_keeps now) he
    (Entry.checked_tombstone (wf.checked e (entry_mem he).1))
  refine ⟨row.ids, row.named, row.pks, row.checked, ?_, ?_, ?_⟩
  · simp only [entry_tombstoned, Option.isSome_map]
    exact forall_mem_update wf.revisionsOwned fun _ h => h
  · simp only [entry_tombstoned, Option.isSome_map]
    exact forall_mem_update wf.votesOwned fun _ h => h
  · intro ev hev
    rcases mem_update_cases hev with ⟨ev₀, hev₀, -, rfl⟩ | ⟨hev, -⟩
    · refine ⟨fun _ => ⟨rfl, rfl⟩, fun hk i hi => ?_⟩
      rw [entry_tombstoned, (wf.events ev₀ hev₀).disjoint hk i hi]
      rfl
    · refine ⟨(wf.events ev hev).redacted, fun hk i hi => ?_⟩
      rw [entry_tombstoned, (wf.events ev hev).disjoint hk i hi]
      rfl

end tombstoned

/-! ### The purge of an entry -/

/-- The purge of an entry with its event, as one step. -/
lemma StoreStep.purge {t' : Txn} (hA : A e.id .purge) (he : t.db.entry e.id = some e)
    (live : e.lifecycle ≠ .purged) (now : Time) (ev : Event) (hid : ev.entryId = nullText e.id)
    (hp : ev.type = .purge) (hk : ev.subjectKind = .memory) (hr : ev.redacted = false)
    (hdb : t'.db = { t.db.tombstoned e now with events := (t.db.tombstoned e now).events ++ [ev] })
    (hcov : ∀ i, t.covers i → t'.covers i) : StoreStep h A t t' := fun hs => by
  have wf := hs.wf
  have hname : ev.entryId = some e.id := by
    rw [hid, nullText, if_neg (wf.named e (entry_mem he).1)]
  have beside : (t.db.tombstoned e now).Beside (some e.id) t'.db := by
    rw [hdb]
    refine ⟨⟨rfl, rfl, rfl⟩, fun x hx => ?_, fun _ e' _ hne => ?_⟩
    · rcases mem_append.1 hx with hx | hx
      · exact .inl hx
      · rw [mem_singleton.1 hx]
        exact .inr ⟨by simp [hr], fun hne => absurd hk hne⟩
    · simp only [Db.recordOf, Record.mk.injEq, and_true, true_and]
      exact rows_append_other (hname ▸ hne.symm)
  have wf' := beside.aside.wf (wf.tombstoned he) beside.events
  have hrow : t'.db.entry e.id = some (e.tombstone now) := by
    rw [beside.aside.entry, entry_tombstoned, he]
    simp
  have hrec : t'.db.recordOf (e.tombstone now)
      = { (t.db.tombstoned e now).recordOf (e.tombstone now) with
            events := ((t.db.tombstoned e now).recordOf (e.tombstone now)).events ++ [ev] } := by
    rw [hdb]
    simp only [Db.recordOf, Record.mk.injEq, and_true, true_and]
    exact rows_append_same hname
  refine ⟨wf', hcov, .one e.id .purge _ _ hA (record_of_entry he) (record_of_entry hrow) ?_
    ⟨live, ?_, fun _ => ?_⟩ (by simp) (by simp)⟩
  · intro i hi
    rw [← record_tombstoned_ne wf he hi now]
    exact beside.record (wf.tombstoned he) (by simpa using hi)
  · have : (t'.db.recordOf (e.tombstone now)).memory
        = ((t.db.tombstoned e now).recordOf (e.tombstone now)).memory := by rw [hrec]; rfl
    rw [this, recordOf_tombstoned]
    exact .purge _ now
  · rw [hrec]
    exact Record.blank_tombstoned wf e rfl hp

theorem purge_governed (hA : A id .purge) (env : Env) (reason : String) (a : Actor) :
    Governed h A (purge env id reason a) := by
  refine .validated fun t => ?_
  refine along_getEntry fun e he => ?_
  obtain rfl : e.id = id := (entry_mem he).2
  split
  · exact Along.pure .refl trivial
  next live =>
  refine along_of_sound (by simp) fun hs => ?_
  have hrow := updateEntry_ok (f := Entry.tombstone env.now) (w := true) he
    (Entry.checked_tombstone (hs.wf.checked e (entry_mem he).1))
    (by simp [Db.peerShortfall, Entry.tombstone])
  refine bind_ok (execDb_apply hrow) ?_
  refine bind_ok
    (execDb_apply (updateRevisions_eq_ok.2 ⟨fun x _ _ => x.mayBecome_tombstone env.now, rfl⟩)) ?_
  iterate 6 refine bind_write ?_
  have hpurged : Db.purged (t.db.setRow e.id (Entry.tombstone env.now)) e.id := by
    simp [Db.purged, entry_setRow_self (Entry.tombstone_keeps env.now) he, Entry.tombstone]
  refine bind_ok (execDb_apply (redactEvents_ok hpurged)) ?_
  refine bind_write (from_state { t with db := t.db.tombstoned e env.now } rfl ?_)
  refine of_ok (appendEvent_apply rfl (insertEvent_ok (.inl rfl) rfl)) (.single ?_) trivial
  let row : EventRow :=
    { workspaceId := e.workspaceId, entryId := e.id, type := .purge, revision := e.revision,
      oldDigest := e.contentDigest, note := reason }
  refine .purge hA he live env.now
    { row.event env a with seq := (t.db.tombstoned e env.now).nextSeq } rfl rfl rfl rfl ?_
    fun i hi => Txn.covers_touch _ _ hi
  simp only [Txn.touch_db, row]

end GovStore
