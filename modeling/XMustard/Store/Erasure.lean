import XMustard.Store.History

/-!
# Purged entries

A purge leaves no text of an entry in any table, and no write touches the record of a purged entry
again but the retention sweep, which only drops content. So a purged entry stays purged and blank.
-/

namespace GovStore

open Table

variable {h : Hashing} {A : String → Act → Prop} {t t' : Txn} {id : String}

/-- Every purged record is blank. -/
def Db.Erased (db : Db) : Prop :=
  ∀ id r, db.record id = some r → r.row.lifecycle = .purged → r.Blank

/-- Only a purge makes a memory purged. -/
lemma Memory.Step.purged {act : Act} {m m' : Memory} (hs : Memory.Step h act m m')
    (live : m.row.lifecycle ≠ .purged) (hpurged : m'.row.lifecycle = .purged) : act = .purge := by
  cases hs with
  | purge => rfl
  | supersede | merge | reopen | restart => cases hpurged
  | retire _ lc hlc => rcases hlc with rfl | rfl <;> cases hpurged
  | reject _ x now _ _ _ _ _ row =>
    rw [row] at hpurged
    exact absurd hpurged live
  | _ => exact absurd hpurged live

lemma Record.Blank.sweep {r : Record} (hb : r.Blank) (p : Revision → Bool) (now : Time) :
    Record.Blank { r with revisions := update p (Revision.compact now) r.revisions } :=
  { hb with revisions := forall_mem_update hb.revisions fun _ h => ⟨rfl, h.2⟩ }

lemma Change.erased (hc : Change h A t t') (he : t.db.Erased) : t'.db.Erased := by
  intro i r' hr' hpurged
  have hf := hc.fate i
  rw [hr'] at hf
  generalize hr : t.db.record i = r at hf
  cases hf with
  | kept => exact he i r' hr hpurged
  | born newborn => exact absurd (newborn.lifecycle.symm.trans hpurged) nofun
  | acted _ step => exact step.blank (step.memory.purged step.live hpurged)
  | swept p now => exact (he i _ hr hpurged).sweep p now

/-- The entry of this id is purged. -/
def Db.PurgedAt (id : String) (db : Db) : Prop :=
  ∃ e, db.entry id = some e ∧ e.lifecycle = .purged

lemma Db.purgedAt_iff {db : Db} :
    db.PurgedAt id ↔ (db.entry id).map (·.lifecycle) = some .purged := by
  simp [Db.PurgedAt]

/-- No step brings a purged entry back. -/
lemma Change.purgedAt (hc : Change h A t t') (hp : t.db.PurgedAt id) : t'.db.PurgedAt id := by
  obtain ⟨e, he, hpurged⟩ := hp
  have hf := hc.fate id
  rw [Db.record_of_entry he] at hf
  generalize hr : t'.db.record id = r at hf
  cases hf with
  | acted _ step => exact absurd hpurged step.live
  | kept | swept => exact ⟨e, (Db.record_eq_some hr).1, hpurged⟩

lemma Running.erased (ht : Running h t) : t.db.Sound h ∧ t.db.Erased :=
  ht.keeps (fun _ _ hs hdb he => (hs hdb).2.2.erased he) fun _ _ hr => by cases hr

/-- Once an entry is purged, whatever is written next and in all later transactions, it is still
purged and the store holds no text of it. -/
theorem purged_forever {t : Txn} (ht : Running h t) {id : String} (hp : t.db.PurgedAt id)
    (ws : List (Time × TxWrite)) (txs : List (List (Time × TxWrite))) :
    ∃ e, ((runWrites h ws t).2.db.history h txs).entry id = some e ∧ e.lifecycle = .purged
      ∧ (((runWrites h ws t).2.db.history h txs).recordOf e).Blank := by
  let I (db : Db) : Prop := db.Erased ∧ db.PurgedAt id
  have step : ∀ t t', StoreStep h anyAct t t' → t.db.Sound h → I t.db → I t'.db :=
    fun _ _ hs hdb ⟨he, hp⟩ => ⟨(hs hdb).2.2.erased he, (hs hdb).2.2.purgedAt hp⟩
  have run := (runWrites_governed h ws t).1.keeps (I := fun t => t.db.Sound h ∧ I t.db)
    (fun t t' hs ⟨hdb, hI⟩ => ⟨hs.sound hdb, step t t' hs hdb hI⟩) ⟨ht.erased.1, ht.erased.2, hp⟩
  obtain ⟨herased, e, he, hpurged⟩ := Db.history_keeps_step (I := I) step txs run.1 run.2
  exact ⟨e, he, hpurged, herased id _ (Db.record_of_entry he) hpurged⟩

/-- An entry with a noted vote and a tag, purged. -/
def purgedRun : List (List (Time × TxWrite)) :=
  [[(1, .insertEntry { id := "m", workspaceId := "w", content := "c", title := "t", tags := ["g"] }
      { principal := "ann" })],
    [(2, .recordVote { entryId := "m", revision := 1, verdict := some .approve, note := "n" }
      { principal := "bob" })],
    [(3, .purge "m" "r" { principal := "cid" })]]

theorem purged_forever_purgedRun :
    ∃ e, ((runWrites .plain [] (Db.empty.history .plain purgedRun).start).2.db.history .plain
        [[(4, .setTier "m" (.word .core) { principal := "ann" })]]).entry "m" = some e
      ∧ e.lifecycle = .purged ∧ e.tags = [] := by
  have hp : (Db.empty.history .plain purgedRun).start.db.PurgedAt "m" :=
    Db.purgedAt_iff.2 (by decide +kernel)
  obtain ⟨e, he, hpurged, hblank⟩ :=
    purged_forever (Reachable.running ⟨purgedRun, rfl⟩) hp [] _
  exact ⟨e, he, hpurged, hblank.tags⟩

end GovStore
