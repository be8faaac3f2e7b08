import XMustard.Store.RevisionActs

/-!
# The writers of votes, act by act

A verdict is written together with its event, and its entry is marked for the check at commit.
Imported verdicts are inserted before the entry they belong to is labelled.
-/

namespace GovStore

open Db Table Program Along

variable {h : Hashing} {A : String → Act → Prop} {t t' : Txn} {e : Entry} {w : Vote}
  {ev : EventRow} {u : Unit} {env : Env} {a : Actor}

/-- The database with other vote rows. -/
def Db.withVotes (db : Db) (votes : List Vote) : Db := { db with votes := votes }

/-- Rewriting the votes of one entry is one act on it. -/
lemma StoreStep.cast {act : Act} (votes : List Vote) (hA : A e.id act)
    (he : t.db.entry e.id = some e) (live : e.lifecycle ≠ .purged)
    (howned : ∀ v ∈ votes, (t.db.entry v.entryId).isSome)
    (hothers : ∀ i ≠ e.id, rows (·.entryId) i votes = rows (·.entryId) i t.db.votes)
    (hb : (t.db.withVotes votes).Beside (some e.id) t'.db)
    (hcov : ∀ i, t.covers i → t'.covers i) (covered : act = .vote → t'.covers e.id)
    (step : Memory.Step h act (t.db.recordOf e).memory
      ⟨e.core, (t.db.recordOf e).revisions, rows (·.entryId) e.id votes⟩)
    (hpurge : act ≠ .purge) (hrep : ∀ i, act ≠ .replace i) : StoreStep h A t t' := fun hs => by
  have wf₁ : (t.db.withVotes votes).Wf := by
    refine ⟨hs.wf.ids, hs.wf.named, hs.wf.pks, hs.wf.checked, hs.wf.revisionsOwned, howned, ?_⟩
    exact fun ev hev => ⟨(hs.wf.events ev hev).redacted, (hs.wf.events ev hev).disjoint⟩
  have hrow : t'.db.entry e.id = some e := (hb.aside.entry _).trans he
  refine ⟨hb.aside.wf wf₁ hb.events, hcov, .one e.id act (t.db.recordOf e) (t'.db.recordOf e)
    hA (record_of_entry he) (record_of_entry hrow) ?_ ⟨live, ?_, fun hp => absurd hp hpurge⟩ covered
    fun i hi => absurd hi (hrep i)⟩
  · intro i hi
    rw [hb.record wf₁ (by simpa using hi)]
    refine Option.map_congr fun e' he' => ?_
    have := hothers i hi
    rw [← (entry_mem he').2] at this
    simp only [Db.recordOf, Db.withVotes, Record.mk.injEq, and_true, true_and]
    exact this
  · rw [hb.aside.memory]
    exact step

/-! ### Verdicts -/

lemma Vote.sameKey_iff {v : Vote} :
    v.sameKey w ↔ w.entryId = v.entryId ∧ w.revision = v.revision
      ∧ w.principalKey = v.principalKey := by
  simp [Vote.sameKey]

lemma Db.upsertVote_eq_ok {db db' : Db} {v : Vote} (hok : db.upsertVote v = .ok db') :
    v.principalKey ≠ "" ∧ db' = db.withVotes (putVote v db.votes) := by
  unfold Db.upsertVote at hok
  split_ifs at hok with hname
  cases hok
  exact ⟨hname, rfl⟩

section putVote

variable {v : Vote} {votes : List Vote}

lemma rows_putVote : rows (·.entryId) v.entryId (putVote v votes)
    = putVote v (rows (·.entryId) v.entryId votes) :=
  rows_upsert (fun _ hw => (Vote.sameKey_iff.1 hw).1)
    (fun _ hw => (Vote.sameKey_iff.1 hw).1.symm) rfl

lemma rows_putVote_of_ne {i : String} (hi : i ≠ v.entryId) :
    rows (·.entryId) i (putVote v votes) = rows (·.entryId) i votes := by
  refine rows_upsert_of_ne (fun w hw => ?_) (fun w hw => (Vote.sameKey_iff.1 hw).1.symm) hi.symm
  rw [(Vote.sameKey_iff.1 hw).1]
  exact hi.symm

lemma mem_putVote (hw : w ∈ putVote v votes) : w ∈ votes ∨ w.entryId = v.entryId := by
  unfold putVote upsert at hw
  split at hw
  · rcases mem_update_cases hw with ⟨w₀, -, -, rfl⟩ | ⟨hw, -⟩
    · exact .inr rfl
    · exact .inl hw
  · rcases List.mem_append.1 hw with hw | hw
    · exact .inl hw
    · exact .inr (by rw [List.mem_singleton.1 hw])

end putVote

/-- A verdict with its event and the mark for the commit check. -/
lemma castVote_along {α : Type} (env : Env) (a : Actor) {v : Vote} (b : α)
    (hA : A v.entryId .vote) (he : t.db.entry v.entryId = some e) (hactive : e.lifecycle = .active)
    (hev : ev.entryId = v.entryId) (hk : ev.subjectKind = .memory) (ht : ev.type.subject = .memory)
    (key : v.principalKey = principalKey v.principal) (epoch : v.epoch = e.voteEpoch)
    (hlive : v.revision = e.revision ∨ ∃ x ∈ (t.db.recordOf e).revisions, x.revision = v.revision
      ∧ x.state = .pending) :
    Along (StoreStep h A) t t
      (do execDb (Db.upsertVote v)
          appendEvent env a ev
          touch v.entryId
          return b) fun _ _ => True := by
  have hid : e.id = v.entryId := (entry_mem he).2
  have live : e.lifecycle ≠ .purged := by simp [hactive]
  refine along_of_sound (by simp) fun hs => ?_
  refine along_execDb fun db₁ hok => ?_
  obtain ⟨named, rfl⟩ := upsertVote_eq_ok hok
  have hname : (ev.event env a).entryId = some e.id := by
    have : v.entryId ≠ "" := by
      rw [← hid]
      exact hs.wf.named e (entry_mem he).1
    simp [EventRow.event, nullText, hev, hid, this]
  -- the event of a verdict on an active entry is always taken
  have hins : (t.db.withVotes (putVote v t.db.votes)).insertEvent (ev.event env a) = _ :=
    insertEvent_ok (.inr fun j hj => ?_) hk
  · refine bind_ok (appendEvent_apply (hk.trans ht.symm) hins) ?_
    refine bind_write (Along.pure (.single ?_) trivial)
    rw [← hid] at hA
    refine StoreStep.cast (putVote v t.db.votes) hA (hid.symm ▸ he) live ?_ ?_ ?_ ?_ ?_ ?_
      (by simp) (by simp)
    · intro w hw
      rcases mem_putVote hw with hw | hw
      · exact hs.wf.votesOwned w hw
      · rw [hw, he]
        rfl
    · exact fun i hi => rows_putVote_of_ne (hid ▸ hi)
    · rw [Txn.touch_db]
      refine beside_insertEvent hins fun _ e' _ hne => ?_
      rw [hname]
      exact hne.symm
    · exact fun i hi => Txn.covers_touch _ _ hi
    · rw [← hid]
      exact fun _ => Txn.covers_touch_self _ _
    · rw [hid, rows_putVote, ← hid]
      exact .vote _ v hactive ⟨hid.symm, key, epoch, named⟩ hlive
  · rw [hname, Option.some.injEq] at hj
    have : Db.entry (t.db.withVotes (putVote v t.db.votes)) j = some e := by
      rw [← hj, hid]
      exact he
    simp [Db.purged, this, live]

instance reads_validateTarget (cur : Entry) (verdict : Verdict) (i : VoteInput) :
    Reads (validateTarget cur verdict i) := .ite _

theorem recordVote_governed (env : Env) (i : VoteInput) (a : Actor) (hA : A i.entryId .vote) :
    Governed h A (recordVote env i a) := by
  refine .validated fun t => ?_
  split
  · exact Along.throw .refl
  next verdict _ =>
  refine bind_ensure fun _ => ?_
  refine along_getEntry fun cur he => ?_
  refine bind_ensure fun hactive => ?_
  refine along_getRevision fun rv hrv => ?_
  refine bind_ensure fun hlive => ?_
  refine bind_reads fun _ _ => ?_
  have hid : cur.id = i.entryId := (entry_mem he).2
  refine castVote_along env a _ hA he hactive rfl rfl ?_ rfl rfl ?_
  · dsimp only
    split <;> rfl
  · rw [← hid] at hrv
    obtain ⟨hmem, hnum⟩ := revisionRow_eq_some hrv
    rcases hlive with hrev | hp
    · exact .inl (hnum.trans hrev)
    · exact .inr ⟨rv, hmem, rfl, hp⟩

/-! ### What a recorded verdict wrote -/

lemma execDb_eq_ok {f : Db → Except Err Db}
    (hok : execDb f t = (.ok u, t')) : ∃ db', f t.db = .ok db' ∧ { t with db := db' } = t' := by
  simp only [execDb, Program.exec] at hok
  cases hdb : f t.db with
  | error err => simp [hdb, Except.map] at hok
  | ok db' =>
    simp only [hdb, Except.map, Prod.mk.injEq] at hok
    exact ⟨db', rfl, hok.2⟩

lemma appendEvent_eq_ok
    (hok : appendEvent env a ev t = (.ok u, t')) : t.db.Aside t'.db := by
  obtain ⟨seq, t₁, hins, hpure⟩ := bind_eq_ok.1 hok
  cases hpure
  obtain ⟨-, hins⟩ := bind_ensure_eq_ok.1 hins
  obtain ⟨seq', -, hins⟩ := Reads.bind_eq_ok.1 hins
  obtain ⟨_, t₂, hexec, hpure⟩ := bind_eq_ok.1 hins
  cases hpure
  obtain ⟨db', hdb, rfl⟩ := execDb_eq_ok hexec
  obtain ⟨rfl, -⟩ := insertEvent_eq_ok hdb
  exact ⟨rfl, rfl, rfl⟩

lemma recordVote_eq_ok {i : VoteInput} {v : Vote} (hok : recordVote env i a t = (.ok v, t')) :
    a.ok ∧ ∃ verdict cur rv ordinal, i.verdict = some verdict ∧ t.db.entry i.entryId = some cur
      ∧ t.db.revisionRow i.entryId (if i.revision = 0 then cur.revision else i.revision) = some rv
      ∧ v = newVote env i verdict cur rv ordinal a
      ∧ (t.db.withVotes (putVote v t.db.votes)).Aside t'.db := by
  obtain ⟨_, hvalid, hok⟩ := Reads.bind_eq_ok.1 hok
  have ha : a.ok := by
    rcases a.validate_apply t with ⟨ha, -⟩ | ⟨-, _, herr⟩
    · exact ha
    · rw [herr] at hvalid
      cases hvalid
  refine ⟨ha, ?_⟩
  generalize hverdict : i.verdict = verdict at hok
  obtain _ | verdict := verdict
  · cases hok
  simp only [Reads.bind_eq_ok, bind_eq_ok] at hok
  obtain ⟨-, -, cur, hcur, -, -, rv, hrv, -, -, _, -, ordinal, -, _, t₁, hexec, _, t₂, hevent, _,
    _, ⟨⟩, ⟨⟩⟩ := hok
  refine ⟨verdict, cur, rv, ordinal, rfl, (getEntry_eq_ok.1 hcur).1, (getRevision_eq_ok.1 hrv).1,
    rfl, ?_⟩
  obtain ⟨db', hdb, rfl⟩ := execDb_eq_ok hexec
  obtain ⟨-, rfl⟩ := upsertVote_eq_ok hdb
  rw [Txn.touch_db]
  exact appendEvent_eq_ok hevent

end GovStore
