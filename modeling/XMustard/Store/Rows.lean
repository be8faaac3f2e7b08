import XMustard.Store.Frame

/-!
# Programs of governance acts

`Governed h A m` says that from every transaction the program `m` proceeds by steps of the store,
with acts that `A` allows. The rules here are what the account of a method is assembled from: reads,
satellites of the entry at hand, and updates of its row.
-/

namespace GovStore

open Db Table Program

variable {h : Hashing} {A : String → Act → Prop} {t t' : Txn} {id : String} {e : Entry} {rev : Int}

/-! ### Rows -/

/-- The function keeps the keys of a row. -/
def KeepsKeys (f : Entry → Entry) : Prop := ∀ e, (f e).id = e.id ∧ (f e).pk = e.pk

/-- The database with one row rewritten. -/
def Db.setRow (db : Db) (id : String) (f : Entry → Entry) : Db :=
  { db with entries := Table.update (fun e => e.id = id) f db.entries }

section setRow

variable {db db' : Db} {f : Entry → Entry} {w : Bool}

lemma Db.updateEntry_eq_ok (he : db.entry id = some e) (hok : db.updateEntry w id f = .ok db') :
    db' = db.setRow id f ∧ (f e).checked ∧ (w → ¬db.peerShortfall (f e)) := by
  unfold Db.updateEntry at hok
  rw [he] at hok
  dsimp only at hok
  split_ifs at hok with hw hc
  cases hok
  refine ⟨rfl, by simpa using hc, ?_⟩
  simpa using hw

/-- What the update of a row does, whether or not it is there. -/
lemma Db.updateEntry_setRow (hok : db.updateEntry w id f = .ok db') : db' = db.setRow id f := by
  cases he : db.entry id with
  | none =>
    simp only [Db.updateEntry, he] at hok
    cases hok
    rw [Db.setRow, update_eq_self]
    intro e he'
    simpa using row_eq_none.1 he e he'
  | some e => exact (updateEntry_eq_ok he hok).1

lemma Db.updateEntry_ok (he : db.entry id = some e) (hc : (f e).checked)
    (hw : w → ¬db.peerShortfall (f e)) : db.updateEntry w id f = .ok (db.setRow id f) := by
  have : (w && db.peerShortfall (f e)) = false := by
    cases w <;> simp_all
  simp [Db.updateEntry, he, hc, this, Db.setRow]

lemma Db.entry_setRow (hf : KeepsKeys f) (i : String) :
    (db.setRow id f).entry i = (db.entry i).map fun e => if i = id then f e else e := by
  simp only [Db.entry, Db.setRow]
  rw [row_update fun r _ => (hf r).1]
  refine Option.map_congr fun r hr => ?_
  rw [show r.id = i from (row_eq_some hr).2]
  simp

lemma Db.entry_setRow_self (hf : KeepsKeys f) (he : db.entry id = some e) :
    (db.setRow id f).entry id = some (f e) := by
  simp [entry_setRow hf, he]

lemma Db.entry_setRow_ne (hf : KeepsKeys f) {i : String} (hi : i ≠ id) :
    (db.setRow id f).entry i = db.entry i := by
  simp [entry_setRow hf, hi]

lemma Db.recordOf_keys (hf : KeepsKeys f) (e : Entry) :
    db.recordOf (f e) = { db.recordOf e with row := f e } := by
  simp [Db.recordOf, (hf e).1, (hf e).2]

lemma Db.Wf.setRow (wf : db.Wf) (hf : KeepsKeys f) (he : db.entry id = some e)
    (hc : (f e).checked) : (db.setRow id f).Wf where
  ids := by
    rw [Db.setRow, map_update fun r _ _ => (hf r).1]
    exact wf.ids
  named := forall_mem_update wf.named fun x hx => by rwa [(hf x).1]
  pks := by
    rw [Db.setRow, map_update fun r _ _ => (hf r).2]
    exact wf.pks
  checked := by
    intro x hx
    rcases mem_update_cases hx with ⟨y, hy, hid, rfl⟩ | ⟨hx, -⟩
    · have : db.entry y.id = some y := entry_of_mem wf hy
      rw [of_decide_eq_true hid, he] at this
      cases this
      exact hc
    · exact wf.checked x hx
  revisionsOwned r hr := by
    rw [entry_setRow hf]
    simpa using wf.revisionsOwned r hr
  votesOwned v hv := by
    rw [entry_setRow hf]
    simpa using wf.votesOwned v hv
  events ev hev := by
    refine ⟨(wf.events ev hev).redacted, fun hk i hi => ?_⟩
    rw [entry_setRow hf, (wf.events ev hev).disjoint hk i hi]
    rfl

end setRow

/-! ### Reads -/

lemma getEntry_eq_ok : getEntry id t = (.ok e, t') ↔ t.db.entry id = some e ∧ t' = t := by
  simp only [getEntry, queryDb, query_apply, Prod.mk.injEq]
  match t.db.entry id with
  | none => simp
  | some _ => simp [eq_comm]

instance reads_getRevision (id : String) (rev : Int) : Reads (getRevision id rev) := .query _

lemma getRevision_eq_ok {x : Revision} :
    getRevision id rev t = (.ok x, t') ↔ t.db.revisionRow id rev = some x ∧ t' = t := by
  simp only [getRevision, queryDb, query_apply, Prod.mk.injEq]
  match t.db.revisionRow id rev with
  | none => simp
  | some _ => simp [eq_comm]

instance reads_validate (a : Actor) : Reads a.validate := .bind

lemma Actor.validate_apply (a : Actor) (t : Txn) :
    (a.ok = true ∧ a.validate t = (.ok (), t))
      ∨ (a.ok = false ∧ ∃ text, a.validate t = (.error (invalid text), t)) := by
  rw [Actor.validate, ensure_bind_apply, ensure]
  by_cases hname : Text.trimSpace a.principal = ""
  · exact .inr ⟨by simp [Actor.ok, hname], _, by simp [hname]; rfl⟩
  · by_cases hform : a.principal.utf8ByteSize ≤ maxNameLen ∧ !hasNul a.principal
    · exact .inl ⟨by simpa [Actor.ok, hname] using hform, by simp [hname, hform]⟩
    · refine .inr ⟨?_, _, by rw [if_pos hname, if_neg hform]⟩
      simpa [Actor.ok, hname] using hform

instance reads_liveEntry (id : String) : Reads (liveEntry id) := .bind

lemma liveEntry_found {id : String} {t t' : Txn} {e : Entry}
    (h : liveEntry id t = (.ok e, t')) : t.db.entry id = some e := by
  obtain ⟨e', he', hrest⟩ := Reads.bind_eq_ok.1 h
  obtain ⟨-, hpure⟩ := bind_ensure_eq_ok.1 hrest
  cases hpure
  exact (getEntry_eq_ok.1 he').1

/-! ### Programs -/

/-- The program proceeds by steps of the store with acts that `A` allows. -/
def Governed (h : Hashing) (A : String → Act → Prop) {α : Type} (m : Tx α) : Prop :=
  ∀ t, Along (StoreStep h A) t t m fun _ _ => True

namespace Governed

variable {α β : Type}

lemma reads {m : Tx α} [Reads m] : Governed h A m := Steps.reads

/-- The form of the program shows it. -/
lemma of_form {m : Tx α} [hm : StepsBy (StoreStep h A) m] : Governed h A m := hm.steps

lemma pure (a : α) : Governed h A (Pure.pure a : Tx α) := reads

lemma bind {m : Tx α} {f : α → Tx β} (hm : Governed h A m) (hf : ∀ a, Governed h A (f a)) :
    Governed h A (m >>= f) :=
  Steps.bind hm hf

lemma read {m : Tx α} {f : α → Tx β} [Reads m] (hf : ∀ a, Governed h A (f a)) :
    Governed h A (m >>= f) := bind reads hf

lemma validated {f : Unit → Tx β} {a : Actor}
    (hf : ∀ t, Along (StoreStep h A) t t (f ()) fun _ _ => True) :
    Governed h A (a.validate >>= f) :=
  fun t => Along.bind_reads fun _ _ => hf t

lemma ite {c : Prop} [Decidable c] {m m' : Tx α} (hm : Governed h A m) (hm' : Governed h A m') :
    Governed h A (if c then m else m') :=
  Steps.ite hm hm'

lemma each {f : β → Tx Unit} (hf : ∀ b, Governed h A (f b)) (bs : List β) :
    Governed h A (Program.each f bs) :=
  Steps.each hf bs

end Governed

section rules

variable {α β : Type} {Q : β → Txn → Prop}

lemma along_of_sound {m : Tx β} (hQ : ¬t.db.Sound h → ∀ b t', Q b t')
    (hm : t.db.Sound h → Along (StoreStep h A) t t m Q) : Along (StoreStep h A) t t m Q := by
  by_cases hdb : t.db.Sound h
  · exact hm hdb
  -- an unsound store may go anywhere
  · exact ⟨.single fun hs => absurd hs hdb, fun b _ => hQ hdb b _⟩

lemma along_getEntry {f : Entry → Tx β}
    (hf : ∀ e, t.db.entry id = some e → Along (StoreStep h A) t t (f e) Q) :
    Along (StoreStep h A) t t (getEntry id >>= f) Q := by
  exact Along.bind_reads fun e he => hf e (getEntry_eq_ok.1 he).1

lemma along_liveEntry {f : Entry → Tx β}
    (hf : ∀ e, t.db.entry id = some e → e.lifecycle ≠ .purged →
      Along (StoreStep h A) t t (f e) Q) :
    Along (StoreStep h A) t t (liveEntry id >>= f) Q := by
  refine Along.bind_reads fun e he => ?_
  obtain ⟨e', he', hrest⟩ := Reads.bind_eq_ok.1 he
  obtain ⟨hlive, hpure⟩ := bind_ensure_eq_ok.1 hrest
  cases hpure
  exact hf e (getEntry_eq_ok.1 he').1 hlive

lemma along_getRevision {f : Revision → Tx β}
    (hf : ∀ x, t.db.revisionRow id rev = some x → Along (StoreStep h A) t t (f x) Q) :
    Along (StoreStep h A) t t (getRevision id rev >>= f) Q := by
  exact Along.bind_reads fun x hx => hf x (getRevision_eq_ok.1 hx).1

/-- The rest of a program after one beside the governance tables. -/
lemma along_side {m : Tx α} {f : α → Tx β} [hm : Side h A id e m] (he : t.db.entry id = some e)
    (hf : ∀ a t', t.db.Aside t'.db → Along (StoreStep h A) t' t' (f a) Q) :
    Along (StoreStep h A) t t (m >>= f) Q :=
  Along.bind_of (hm.along t he) fun a t' _ => hf a t'

lemma along_last {m : Tx α} [hm : Side h A id e m] (he : t.db.entry id = some e) :
    Along (StoreStep h A) t t m fun _ _ => True :=
  (hm.along t he).conseq fun _ _ _ => trivial

/-- A program beside governance on a live entry. -/
lemma Governed.live {f : Entry → Tx β} (hatt : A id .attach)
    (hf : ∀ e, e.id = id → Attachable A id e → Side h A id e (f e)) :
    Governed h A (liveEntry id >>= f) := by
  refine fun t => along_liveEntry fun e he live => ?_
  have := hf e (entry_mem he).2 ⟨hatt, live⟩
  exact along_last he

lemma along_execDb {g : Db → Except Err Db} {f : Unit → Tx β}
    (hf : ∀ db', g t.db = .ok db' → Along (StoreStep h A) t { t with db := db' } (f ()) Q) :
    Along (StoreStep h A) t t (execDb g >>= f) Q := by
  refine Along.bind_exec fun t' ht' => ?_
  match hok : g t.db with
  | .error err => simp [hok, Except.map] at ht'
  | .ok db' =>
    simp only [hok, Except.map, Except.ok.injEq] at ht'
    exact ht' ▸ hf db' hok

/-- Updating the row of an entry is one act on it. -/
lemma along_row {g : Entry → Entry} {w : Bool} {f : Unit → Tx β} {act : Act} (hA : A id act)
    (hg : KeepsKeys g) (he : t.db.entry id = some e) (live : e.lifecycle ≠ .purged)
    (step : (g e).checked →
      (w → ¬Memory.shortfall { (t.db.recordOf e).memory with row := (g e).core }) →
      Memory.Step h act (t.db.recordOf e).memory
        { (t.db.recordOf e).memory with row := (g e).core })
    (hf : (t.db.setRow id g).entry id = some (g e) → Along (StoreStep h A)
      { t with db := t.db.setRow id g } { t with db := t.db.setRow id g } (f ()) Q)
    (target : ∀ i, act = .replace i → i ≠ id ∧ ∃ s, t.db.record i = some s
      ∧ s.row.lifecycle = .active := by simp)
    (hpurge : act ≠ .purge := by simp) (hvote : act ≠ .vote := by simp) :
    Along (StoreStep h A) t t (execDb (Db.updateEntry w id g) >>= f) Q := by
  refine along_execDb fun db' hok => ?_
  obtain ⟨rfl, hc, hw⟩ := updateEntry_eq_ok he hok
  refine .restart (.single fun hdb => ?_) (hf (entry_setRow_self hg he))
  refine ⟨hdb.wf.setRow hg he hc, fun _ hcov => hcov, .one id act (t.db.recordOf e)
    { t.db.recordOf e with row := g e } hA (record_of_entry he) ?_ ?_
    ⟨live, ?_, fun hp => absurd hp hpurge⟩ (fun hv => absurd hv hvote) target⟩
  · rw [record_of_entry (entry_setRow_self hg he), ← recordOf_keys hg]
    rfl
  · intro i hi
    simp only [Db.record, entry_setRow_ne hg hi]
    rfl
  · refine step hc fun hw' => ?_
    have := hw hw'
    rw [peerShortfall_iff, recordOf_keys hg] at this
    exact this

end rules

end GovStore
