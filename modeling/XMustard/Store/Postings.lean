import XMustard.Store.PostingMoves

/-!
# Postings follow the served content

The backfill too moves the ledger of postings, so every successful write does. Over histories of
transactions that keep no failed write, the postings of an entry are therefore those of the content
it serves.
-/

namespace GovStore

open Db List Table Program Relation Option

variable {α : Type} {db : Db} {e : Entry} {t t' : Txn}

section backfill

variable {env : Env} {n : Nat} {x : Entry × String}

/-! ### Backfill -/

/-- A batch posts the keys of its members that serve something. -/
lemma backfill_posts : ∀ {batch : List (Entry × String)} {t t' : Txn} {u : Unit},
    (batch.map (·.1.pk)).Nodup → Program.each (backfillOne env) batch t = (.ok u, t') →
    ∃ posted, t'.db.ledger = { t.db.ledger with posted := posted }
      ∧ (∀ x ∈ batch, x.2 ≠ "" →
        posted x.1.pk = (env.postings x.1.workspaceId x.2).eraseDups)
      ∧ ∀ pk, (∀ x ∈ batch, x.2 ≠ "" → x.1.pk ≠ pk) → posted pk = t.db.ledger.posted pk
  | [], t, t', u, _, hrun => by
    cases hrun
    exact ⟨_, rfl, by simp, fun _ _ => rfl⟩
  | x :: xs, t, t', u, hnodup, hrun => by
    rw [map_cons, nodup_cons] at hnodup
    obtain ⟨_, t₁, hone, hrun⟩ := bind_eq_ok.1 hrun
    obtain ⟨posted, hledger, hdone, hothers⟩ := backfill_posts hnodup.2 hrun
    have hlater : ∀ y ∈ xs, y.2 ≠ "" → y.1.pk ≠ x.1.pk := fun y hy _ hpk =>
      hnodup.1 (hpk ▸ mem_map_of_mem hy)
    unfold backfillOne at hone
    split at hone
    · cases hone
      have hposted : ∀ db : Db, (db.putDedupeKeys x.1.pk (env.postings x.1.workspaceId x.2)).ledger
          = db.ledger.post x.1.pk (env.postings x.1.workspaceId x.2) :=
        fun db => ledger_putDedupeKeys _ _
      refine ⟨posted, hledger.trans ?_, fun y hy hfull => ?_, fun pk hpk => ?_⟩
      · rw [hposted]
        rfl
      · rcases mem_cons.1 hy with rfl | hy
        · rw [hothers _ hlater, hposted]
          exact if_pos rfl
        · exact hdone y hy hfull
      · have hne : pk ≠ x.1.pk := (hpk x mem_cons_self ‹_›).symm
        rw [hothers pk fun y hy => hpk y (mem_cons_of_mem x hy), hposted]
        exact if_neg hne
    · rename_i hempty
      cases hone
      refine ⟨posted, hledger, fun y hy hfull => ?_, fun pk hpk => ?_⟩
      · rcases mem_cons.1 hy with rfl | hy
        · exact absurd hfull hempty
        · exact hdone y hy hfull
      · exact hothers pk fun y hy => hpk y (mem_cons_of_mem x hy)

/-- What a prefix of a table in key order holds. -/
lemma mem_take_of_le {l : List α} {key : α → Nat} (hord : (l.map key).Pairwise (· < ·))
    {x y : α} (hx : x ∈ l) (hy : (l.take n).getLast? = some y) (hle : key x ≤ key y) :
    x ∈ l.take n := by
  rw [← take_append_drop n l, map_append, pairwise_append] at hord
  rw [← take_append_drop n l, mem_append] at hx
  rcases hx with hx | hx
  · exact hx
  · have hlt := hord.2.2 _ (mem_map_of_mem (mem_of_getLast? hy)) _
      (mem_map_of_mem hx)
    omega

/-- The text that an entry serves, or the empty text. -/
def Db.servedText (db : Db) (e : Entry) : String :=
  ((db.revisionRow e.id e.revision).bind (·.content)).getD ""

/-- How far a batch gets. -/
def Db.backfillMark (db : Db) (limit : Nat) : Nat :=
  let batch := db.backfillBatch limit
  if batch.length = limit then (batch.getLast?.map (·.1.pk)).getD db.backfillEnd
  else db.backfillEnd

lemma mem_backfillBatch {limit : Nat} (hx : x ∈ db.backfillBatch limit) :
    x.1 ∈ db.entries ∧ x.2 = db.servedText x.1 ∧ db.backfillNext < x.1.pk
      ∧ x.1.pk ≤ db.backfillEnd := by
  obtain ⟨e, he, rfl⟩ := mem_map.1 (mem_of_mem_take hx)
  obtain ⟨hmem, hq⟩ := mem_filter.1 he
  have hq := of_decide_eq_true hq
  exact ⟨hmem, rfl, hq.1, hq.2.1⟩

section batch

variable {limit : Nat} (hL : db.ledger.Ok)

include hL

/-- The candidates of a batch are in key order. -/
lemma candidates_ordered {q : Entry → Bool} {g : Entry → String} :
    (((db.entries.filter q).map fun e => (e, g e)).map (·.1.pk)).Pairwise (· < ·) := by
  have hpks : (db.entries.map (·.pk)).Pairwise (· < ·) := by
    simpa [Db.ledger, Function.comp_def, Entry.slot] using hL.ordered
  rw [List.map_map]
  exact hpks.sublist (filter_sublist.map _)

lemma batch_ordered : ((db.backfillBatch limit).map (·.1.pk)).Pairwise (· < ·) := by
  rw [Db.backfillBatch, map_take]
  exact (candidates_ordered hL).sublist (take_sublist _ _)

lemma le_backfillMark (hx : x ∈ db.backfillBatch limit) : x.1.pk ≤ db.backfillMark limit := by
  have hend := (mem_backfillBatch hx).2.2.2
  unfold Db.backfillMark
  dsimp only
  split
  · cases hlast : (db.backfillBatch limit).getLast? with
    | none => exact hend
    | some y =>
      -- the last member has the largest key
      obtain ⟨ys, hys⟩ := getLast?_eq_some_iff.1 hlast
      have hord : ((db.backfillBatch limit).map (·.1.pk)).Pairwise (· < ·) := batch_ordered hL
      rw [hys, map_append, pairwise_append] at hord
      rw [hys, mem_append, mem_singleton] at hx
      rcases hx with hx | rfl
      · exact le_of_lt (hord.2.2 _ (mem_map_of_mem hx) _ mem_cons_self)
      · exact le_refl _
  · exact hend

/-- A batch misses no row up to its mark. -/
lemma backfillBatch_covers (hlimit : 0 < limit) (he : e ∈ db.entries)
    (hnext : db.backfillNext < e.pk) (hmark : e.pk ≤ db.backfillMark limit) :
    (e, db.servedText e) ∈ db.backfillBatch limit := by
  have hserved : (db.revisionRow e.id e.revision).isSome := by
    have := hL.present e.slot (mem_map_of_mem he)
    simpa [Db.ledger, Entry.slot, isSome_iff_ne_none] using this
  have candidate : e.pk ≤ db.backfillEnd →
      (e, db.servedText e) ∈ (db.entries.filter fun e =>
        db.backfillNext < e.pk ∧ e.pk ≤ db.backfillEnd
          ∧ (db.revisionRow e.id e.revision).isSome).map
          fun e => (e, db.servedText e) := fun hend =>
    mem_map_of_mem (f := fun e => (e, db.servedText e))
      (mem_filter.2 ⟨he, by simp [hnext, hend, hserved]⟩)
  unfold Db.backfillMark at hmark
  dsimp only at hmark
  split at hmark
  · rename_i hfull
    cases hlast : (db.backfillBatch limit).getLast? with
    | none =>
      rw [getLast?_eq_none_iff.1 hlast] at hfull
      exact absurd hfull (Nat.ne_of_lt hlimit)
    | some y =>
      rw [hlast] at hmark
      have hend := (mem_backfillBatch (mem_of_getLast? hlast)).2.2.2
      exact mem_take_of_le (candidates_ordered hL) (candidate (hmark.trans hend)) hlast hmark
  · rename_i hshort
    -- a short batch is all there is
    rw [Db.backfillBatch, take_of_length_le]
    · exact candidate hmark
    · rw [Db.backfillBatch, length_take] at hshort
      omega

end batch

lemma clampLimit_pos (n : Int) : 0 < clampLimit n := by
  unfold clampLimit
  split_ifs
  · decide
  · decide
  · omega

/-- What is due to an entry, from the text it serves. -/
lemma Db.due_slot (hL : db.ledger.Ok) (h : Hashing) (e : Entry) :
    db.ledger.due h e.slot = if db.servedText e = "" then []
      else (h.postings e.workspaceId (db.servedText e)).eraseDups := by
  have hfull := hL.full e.id e.revision
  have htext : db.servedText e = ((db.ledger.content e.id e.revision).bind id).getD "" := by
    simp only [Db.servedText, Db.ledger]
    cases db.revisionRow e.id e.revision <;> rfl
  rw [htext]
  simp only [Ledger.due, Entry.slot]
  rcases hc : db.ledger.content e.id e.revision with _ | _ | c
  · rfl
  · rfl
  · rw [hc] at hfull
    have hc' : c ≠ "" := by simpa using hfull
    simp [hc']

/-- The backfill settles what it passes. -/
lemma backfillDedupeKeys_moves {max : Int} (hL : t.db.ledger.Ok)
    (hrun : backfillDedupeKeys env max t = (.ok n, t')) :
    ReflTransGen (Ledger.Move env.toHashing) t.db.ledger t'.db.ledger := by
  unfold backfillDedupeKeys at hrun
  rw [readDb_bind_apply] at hrun
  split at hrun
  · cases hrun
    exact .refl
  rw [readDb_bind_apply] at hrun
  obtain ⟨_, t₁, heach, hrun⟩ := bind_eq_ok.1 hrun
  obtain ⟨_, t₂, hmark, hrun⟩ := bind_eq_ok.1 hrun
  have hpks : ((t.db.backfillBatch (clampLimit max)).map (·.1.pk)).Nodup :=
    (batch_ordered hL).imp fun h => Nat.ne_of_lt h
  obtain ⟨posted, hledger, hdone, hothers⟩ := backfill_posts hpks heach
  have hfinal : t'.db.ledger
      = { t.db.ledger with posted := posted, next := t.db.backfillMark (clampLimit max) } := by
    have hnext : t.db.backfillMark (clampLimit max)
        = if (t.db.backfillBatch (clampLimit max)).length = clampLimit max
          then ((t.db.backfillBatch (clampLimit max)).getLast?.map (·.1.pk)).getD t₁.db.backfillEnd
          else t₁.db.backfillEnd := by
      rw [show t₁.db.backfillEnd = t.db.backfillEnd from congrArg Ledger.last hledger]
      rfl
    cases hmark
    cases hrun
    exact congrArg₂ (fun (L : Ledger) n => { L with next := n }) hledger hnext.symm
  rw [hfinal]
  refine .single (.backfilled posted _ (fun s hs hnext hmark => ?_) fun s hs hout => ?_)
  · obtain ⟨e, he, rfl⟩ := mem_map.1 hs
    have hmem := backfillBatch_covers hL (clampLimit_pos max) he hnext hmark
    rw [due_slot hL]
    by_cases htext : t.db.servedText e = ""
    · refine .inr ⟨if_pos htext, hothers e.pk fun x hx hfull hpk => hfull ?_⟩
      -- the only member with this key is the entry itself
      obtain ⟨hx, htext', -⟩ := mem_backfillBatch hx
      have hslot : x.1.slot = e.slot := hL.eq_of_pk (mem_map_of_mem hx) hs hpk
      have hid : x.1.id = e.id := congrArg Slot.id hslot
      have hrev : x.1.revision = e.revision := congrArg Slot.revision hslot
      rw [htext', Db.servedText, hid, hrev]
      exact htext
    · rw [if_neg htext]
      exact .inl (hdone _ hmem htext)
  · obtain ⟨e, he, rfl⟩ := mem_map.1 hs
    refine hothers e.pk fun x hx _ hpk => ?_
    have hin := (mem_backfillBatch hx).2.2.1
    have hle := le_backfillMark hL hx
    have hout : e.pk ≤ t.db.backfillNext ∨ t.db.backfillMark (clampLimit max) < e.pk := hout
    omega

end backfill

/-! ### Histories -/

/-- Every write that succeeds moves the ledger. -/
theorem TxWrite.run_moves {env : Env} {w : TxWrite} {u : Unit} (hs : t.db.Sound env.toHashing)
    (hL : t.db.ledger.Ok) (hrun : w.run env t = (.ok u, t')) :
    ReflTransGen (Ledger.Move env.toHashing) t.db.ledger t'.db.ledger := by
  have drop : ∀ {β : Type} {m : Tx β}, (do let _ ← m : Tx Unit) t = (.ok u, t') →
      ∃ b, m t = (.ok b, t') := by
    intro β m hrun
    obtain ⟨b, t₁, hm, hpure⟩ := bind_eq_ok.1 hrun
    cases hpure
    exact ⟨b, hm⟩
  have routine : w.IsRoutine → t'.db.ledger = t.db.ledger := fun hw =>
    have := run_routine (S := SameLedger) env hw
    ledger_of_run hrun
  cases w with
  | insertEntry i a =>
    obtain ⟨_, hrun⟩ := drop hrun
    exact .single (insertEntryBy_moves hrun)
  | purge id reason a => exact purge_moves hrun
  | appendRevision i a =>
    obtain ⟨_, hrun⟩ := drop hrun
    exact appendRevision_moves hrun
  | acceptRevision i a =>
    obtain ⟨_, hrun⟩ := drop hrun
    exact .single (acceptRevision_moves hs hrun)
  | appendEvent i a => rw [@ledger_of_run _ _ _ _ (sameLedger_appendEventInput i) _ hrun]
  | backfillDedupeKeys max =>
    obtain ⟨_, hrun⟩ := drop hrun
    exact backfillDedupeKeys_moves hL hrun
  | importContextEntries ws principal threshold skip entries =>
    exact importContextEntries_moves hrun
  | compactRevisions cutoff batch => exact .single (compactRevisions_moves hL hrun)
  | _ => rw [routine trivial]

/-- Run the writes of a callback that returns their first error. -/
def runAll (h : Hashing) : List (Time × TxWrite) → Tx Unit :=
  Program.each fun w => w.2.run ⟨h, w.1⟩

/-- The database after a transaction of these writes, which commits all of them or none. -/
def Db.commitAll (h : Hashing) (db : Db) (ws : List (Time × TxWrite)) : Db :=
  (db.update (runAll h ws)).2

/-- The database after such transactions. -/
def Db.commits (h : Hashing) (db : Db) (txs : List (List (Time × TxWrite))) : Db :=
  txs.foldl (Db.commitAll h) db

/-- The migration that adds the postings: there are none yet, and the backfill has every entry ahead
of it. -/
def Db.upgrade (db : Db) : Db :=
  { db with dedupeKeys := [], backfillNext := 0,
            backfillEnd := (db.entries.map (·.pk)).foldr max 0 }

section histories

variable {h : Hashing} {old : String → Option Int}

lemma runAll_keeps : ∀ {ws : List (Time × TxWrite)} {t t' : Txn} {u : Unit},
    runAll h ws t = (.ok u, t') → t.db.Sound h → t.db.ledger.Posted h old →
    t'.db.Sound h ∧ t'.db.ledger.Posted h old
  | [], t, t', u, hrun, hs, hL => by
    cases hrun
    exact ⟨hs, hL⟩
  | (now, w) :: ws, t, t', u, hrun, hs, hL => by
    obtain ⟨_, t₁, hone, hrun⟩ := bind_eq_ok.1 hrun
    dsimp only at hone
    have hchain := (TxWrite.run_governed ⟨h, now⟩ w t).1
    rw [hone] at hchain
    have hs₁ : t₁.db.Sound h := hchain.keeps (I := fun t => t.db.Sound h)
      (fun _ _ hstep hs => hstep.sound hs) hs
    have hmoves : ReflTransGen (Ledger.Move h) t.db.ledger t₁.db.ledger :=
      TxWrite.run_moves hs hL.toOk hone
    have hL₁ : t₁.db.ledger.Posted h old := hmoves.keeps (I := Ledger.Posted h old)
      (fun _ _ hmove hL => hmove.posted hL) hL
    exact runAll_keeps hrun hs₁ hL₁

lemma Db.commitAll_keeps (ws : List (Time × TxWrite)) (hs : db.Sound h)
    (hL : db.ledger.Posted h old) :
    (db.commitAll h ws).Sound h ∧ (db.commitAll h ws).ledger.Posted h old := by
  unfold Db.commitAll
  cases hup : db.update (runAll h ws) with
  | mk r db' =>
    cases r with
    | ok u =>
      obtain ⟨t, hrun, -, rfl⟩ := update_eq_ok.1 hup
      exact runAll_keeps hrun hs hL
    | error err =>
      have hsame : (db.update (runAll h ws)).2 = db := update_error (by rw [hup])
      rw [hup] at hsame
      rw [hsame]
      exact ⟨hs, hL⟩

lemma Db.commits_keeps (txs : List (List (Time × TxWrite))) :
    ∀ {db : Db}, db.Sound h → db.ledger.Posted h old →
      (db.commits h txs).Sound h ∧ (db.commits h txs).ledger.Posted h old := by
  induction txs with
  | nil => exact fun hs hL => ⟨hs, hL⟩
  | cons ws txs ih =>
    intro db hs hL
    obtain ⟨hs', hL'⟩ := commitAll_keeps ws hs hL
    exact ih hs' hL'

lemma Db.ledger_empty : Db.empty.ledger.Posted h old := by
  constructor
  · constructor <;> simp [Db.empty, Db.ledger, Db.revisionRow, rows]
  · simp [Db.empty, Db.ledger]

lemma Db.ledger_upgrade (db : Db) : db.upgrade.ledger = db.ledger.upgrade := by
  simp [Db.ledger, Db.upgrade, Ledger.upgrade, Db.revisionRow, Entry.slot, rows, Function.comp_def]

lemma Db.Sound.upgrade (hs : db.Sound h) : db.upgrade.Sound h where
  wf := ⟨hs.wf.ids, hs.wf.named, hs.wf.pks, hs.wf.checked, hs.wf.revisionsOwned, hs.wf.votesOwned,
    fun ev hev => ⟨(hs.wf.events ev hev).redacted, (hs.wf.events ev hev).disjoint⟩⟩
  chained id r hr := by
    obtain ⟨he, hrec, -⟩ := record_eq_some hr
    rw [hrec]
    exact hs.chain he

/-- The revision that an entry serves, as a ledger finds it. -/
lemma Db.slots_find (db : Db) (id : String) :
    (db.ledger.slots.find? fun s => s.id = id).map (·.revision)
      = (db.entry id).map (·.revision) := by
  simp only [Db.ledger, find?_map, Option.map_map]
  rfl

/-- The row of the revision that an entry serves. -/
lemma Ledger.Ok.servedRow (hL : db.ledger.Ok) (he : e ∈ db.entries) :
    ∃ x, db.revisionRow e.id e.revision = some x ∧ x ∈ (db.recordOf e).revisions
      ∧ x.revision = e.revision ∧ db.ledger.content e.id e.revision = some x.content := by
  have hpresent : (db.revisionRow e.id e.revision).map (·.content) ≠ none :=
    hL.present e.slot (mem_map_of_mem he)
  obtain ⟨x, hx⟩ := ne_none_iff_exists'.1 (mt map_eq_none_iff.2 hpresent)
  obtain ⟨hmem, hrev⟩ := revisionRow_eq_some hx
  exact ⟨x, hx, hmem, hrev, congrArg (Option.map Revision.content) hx⟩

/-- The postings of a store that was `old` when it began to keep them: a purged entry has none, and
an entry that the backfill has passed, that is newer than the upgrade or that serves another
revision since has those of the content it serves. -/
structure Db.PostingsFollow (h : Hashing) (old db : Db) : Prop where
  purged : ∀ e ∈ db.entries, e.lifecycle = .purged → rows (·.entryPk) e.pk db.dedupeKeys = []
  served : ∀ e ∈ db.entries, e.lifecycle ≠ .purged →
    e.pk ≤ db.backfillNext ∨ db.backfillEnd < e.pk
      ∨ (∀ e₀, old.entry e.id = some e₀ → e₀.revision ≠ e.revision) →
    ∃ x c, db.revisionRow e.id e.revision = some x ∧ x.content = some c
      ∧ (rows (·.entryPk) e.pk db.dedupeKeys).map (·.key)
        = (h.postings e.workspaceId c).eraseDups

/-- Whatever is inserted, edited, decided, moved, purged or imported before the upgrade and after
it, and however the batches of the backfill fall in between, postings follow the served content. -/
theorem postings_follow_served (h : Hashing) (before after : List (List (Time × TxWrite))) :
    Db.PostingsFollow h (Db.empty.commits h before).upgrade
      ((Db.empty.commits h before).upgrade.commits h after) := by
  have hfirst : (Db.empty.commits h before).Sound h
      ∧ (Db.empty.commits h before).ledger.Posted h fun _ => none :=
    commits_keeps before (.empty h) ledger_empty
  generalize Db.empty.commits h before = old at hfirst ⊢
  have hold : old.upgrade.ledger.Posted h fun id => (old.upgrade.entry id).map (·.revision) := by
    have hupgrade : old.ledger.upgrade.Posted h _ := hfirst.2.toOk.upgrade
    rw [← ledger_upgrade, funext (slots_find old)] at hupgrade
    exact hupgrade
  obtain ⟨hs, hL⟩ := commits_keeps after hfirst.1.upgrade hold
  generalize old.upgrade.commits h after = db at hs hL ⊢
  refine ⟨fun e he hpurged => ?_, fun e he hlive hcase => ?_⟩
  · obtain ⟨x, -, hmem, -, hcontent⟩ := hL.toOk.servedRow he
    have herased := (hs.chain (entry_of_mem hs.wf he)).erased hpurged x hmem
    have hdue : db.ledger.due h e.slot = [] := by
      simp only [Ledger.due, Entry.slot, hcontent, herased]
    have hposted : db.ledger.posted e.pk = [] := by
      rcases hL.settled e.slot (mem_map_of_mem he) with hset | hwait
      · exact hset.trans hdue
      · exact hwait.2.2.2
    exact map_eq_nil_iff.1 hposted
  · obtain ⟨x, hx, hmem, hrev, hcontent⟩ := hL.toOk.servedRow he
    obtain ⟨c, hc, -⟩ := (hs.chain (entry_of_mem hs.wf he)).kept hlive x hmem (.inl hrev)
    refine ⟨x, c, hx, hc, ?_⟩
    rcases hL.settled e.slot (mem_map_of_mem he) with hset | ⟨hsame, hnext, hlast, -⟩
    · have hdue : db.ledger.due h e.slot = (h.postings e.workspaceId c).eraseDups := by
        simp only [Ledger.due, Entry.slot, hcontent, hc]
      exact hset.trans hdue
    · -- an entry that still waits is none of those
      obtain ⟨e₀, he₀, hrev₀⟩ := map_eq_some_iff.1 hsame
      rcases hcase with hpassed | hnew | hother
      · exact absurd hpassed (Nat.not_le.2 hnext)
      · exact absurd hlast (Nat.not_le.2 hnew)
      · exact absurd hrev₀ (hother e₀ he₀)

end histories

end GovStore
