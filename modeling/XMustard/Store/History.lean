import XMustard.Store.ImportActs

/-!
# Histories

Every write of the store is governed, so a committed transaction is a chain of steps whose end
passed the commit check. What holds of an empty store, is kept by every step and is restored by the
commit check holds after every history.
-/

namespace GovStore

open Program Relation

variable {h : Hashing} {A : String → Act → Prop} {t t' : Txn} {α : Type} {db db' : Db}

/-! ### Transactions -/

/-- A committed or rolled back transaction made of acts that `A` allows. -/
inductive Commits (h : Hashing) (A : String → Act → Prop) (db : Db) : Db → Prop
  | rolledBack : Commits h A db db
  | committed {t : Txn} (chain : ReflTransGen (StoreStep h A) db.start t)
      (checked : t.violations = []) : Commits h A db t.db

lemma checkInvariants_eq_ok {u : Unit} :
    checkInvariants t = (.ok u, t') ↔ t.violations = [] ∧ t' = t := by
  simp only [checkInvariants, query_apply, Prod.mk.injEq]
  split
  · next hv => simp [hv, eq_comm]
  · next hv => simp [hv]

instance reads_checkInvariants : Reads checkInvariants := .query _

/-- What a successful update commits. -/
lemma Db.update_eq_ok {fn : Tx α} {a : α} :
    db.update fn = (.ok a, db') ↔
      ∃ t, fn db.start = (.ok a, t) ∧ t.violations = [] ∧ db' = t.db := by
  have run : ∀ t b, ((do let a ← fn; checkInvariants; return a : Tx α) db.start = (.ok b, t)) ↔
      fn db.start = (.ok b, t) ∧ t.violations = [] := by
    intro t b
    rw [bind_eq_ok]
    constructor
    · rintro ⟨c, t₁, hfn, hrest⟩
      obtain ⟨u, hcheck, hpure⟩ := Reads.bind_eq_ok.1 hrest
      cases hpure
      exact ⟨hfn, (checkInvariants_eq_ok.1 hcheck).1⟩
    · rintro ⟨hfn, hv⟩
      exact ⟨b, t, hfn, Reads.bind_eq_ok.2
        ⟨(), checkInvariants_eq_ok.2 ⟨hv, rfl⟩, rfl⟩⟩
  unfold Db.update
  split
  · next b t hrun =>
    rw [run] at hrun
    constructor
    · intro heq
      cases heq
      exact ⟨t, hrun.1, hrun.2, rfl⟩
    · rintro ⟨t', hfn, -, rfl⟩
      obtain ⟨rfl, rfl⟩ : b = a ∧ t = t' := by simpa [hrun.1] using hfn
      rfl
  · next err t hrun =>
    constructor
    · intro heq
      cases heq
    · rintro ⟨t', hfn, hv, -⟩
      have := (run t' a).2 ⟨hfn, hv⟩
      rw [hrun] at this
      cases this

/-- An update that does not succeed leaves the database as it was. -/
lemma Db.update_error {fn : Tx α} {err : Err}
    (herr : (db.update fn).1 = .error err) : (db.update fn).2 = db := by
  unfold Db.update at *
  split at herr
  · cases herr
  · next hrun => simp

lemma Db.update_commits (db : Db) {fn : Tx α} (hfn : Governed h A fn) :
    Commits h A db (db.update fn).2 := by
  match hup : db.update fn with
  | (.ok a, db') =>
    obtain ⟨t, hrun, hv, rfl⟩ := Db.update_eq_ok.1 hup
    have chain := (hfn db.start).1
    rw [hrun] at chain
    exact .committed chain hv
  | (.error err, db') =>
    have hsame : (db.update fn).2 = db := Db.update_error (by rw [hup])
    rw [hup] at hsame
    exact hsame ▸ .rolledBack

/-! ### Writes -/

/-- Every act is allowed. -/
def anyAct (_ : String) (_ : Act) : Prop := True

/-- Every write the store offers proceeds by acts of governance. -/
theorem TxWrite.run_governed (env : Env) (w : TxWrite) :
    Governed env.toHashing anyAct (w.run env) := by
  have drop : ∀ {α : Type} {m : Tx α}, Governed env.toHashing anyAct m →
      Governed env.toHashing anyAct (do let _ ← m) :=
    fun hm => hm.bind fun _ => .pure _
  have hall : ∀ i, anyAct i .attach := fun _ => trivial
  cases w with
  | insertEntry i a => exact drop (insertEntryBy_governed env i a trivial)
  | setPromotion id p a => exact drop (setPromotion_governed trivial env p trivial a)
  | supersede i a => exact supersede_governed hall i (fun _ _ => trivial) env a
  | transition id i a => exact drop (transition_governed hall (fun _ _ => trivial) env i a)
  | setExpiry id x a => exact drop (setExpiry_governed trivial env x a)
  | setTier id tier a => exact drop (setTier_governed trivial env tier a)
  | setRequiredVerifications id n a =>
    exact drop (setRequiredVerifications_governed trivial trivial env n a)
  | setClassification id c a => exact drop (setClassification_governed trivial env c a)
  | purge id reason a => exact purge_governed trivial env reason a
  | appendRevision i a => exact drop (appendRevision_governed env i a trivial trivial)
  | acceptRevision i a => exact drop (acceptRevision_governed env i a trivial trivial)
  | rejectRevision id revision reason a =>
    exact drop (rejectRevision_governed env revision reason a trivial trivial)
  | recordVote i a => exact drop (recordVote_governed env i a trivial)
  | appendEvent i a => exact appendEventInput_governed env a i trivial
  | replaceAnchors id paths anchors a => exact replaceAnchors_governed trivial env paths anchors a
  | setBaselines id baselines commit a => exact setBaselines_governed trivial env baselines commit a
  | markStale id refs commit a => exact drop (markStale_governed trivial env refs commit a)
  | clearDrift id a => exact clearDrift_governed trivial env a
  | reanchorCode id moves commit a => exact reanchorCode_governed trivial env moves commit a
  | addClaim i a => exact addClaim_governed env i a trivial
  | addRelation fromId toId kind a => exact addRelationBy_governed env fromId toId kind a trivial
  | recordOutcome i a => exact recordOutcome_governed env i a trivial
  | recordDeliveries items a => exact recordDeliveries_governed env items a
  | corroborate id a => exact drop (corroborate_governed env a trivial)
  | backfillDedupeKeys max => exact drop (backfillDedupeKeys_governed hall env max)
  | createCollection fresh i a => exact createCollection_governed env fresh i a
  | addToCollection c e a => exact drop (addToCollection_governed env c e a trivial)
  | removeFromCollection c e a => exact drop (removeFromCollection_governed env c e a trivial)
  | addGrant fresh i a => exact addGrant_governed env fresh i a
  | revokeGrant id a => exact revokeGrant_governed env id a
  | setApplicability e target state a =>
      exact setApplicability_governed env e target state a trivial
  | importContextEntries ws principal threshold skip entries =>
    exact fun t => importContextEntries_along env ws principal threshold skip entries
      fun _ _ _ _ => trivial
  | compactRevisions cutoff batch =>
    exact compactRevisions_governed (fun _ => trivial) env cutoff batch
  | compactDeliveries cutoff batch => exact compactDeliveries_governed cutoff batch
  | reviewEvent a ev => exact reviewEvent_governed env a ev
  | reviewAnchor x => exact reviewAnchor_governed x
  | reviewReanchor id f => exact reviewReanchor_governed id f
  | reviewOutcome o => exact reviewOutcome_governed o

/-- A callback that ignores the errors of its writes. -/
theorem runWrites_governed (h : Hashing) : ∀ ws : List (Time × TxWrite),
    Governed h anyAct (runWrites h ws)
  | [] => .pure _
  | (now, w) :: ws => by
    refine .bind (fun t => Along.tryCatch ?_ fun _ t' h₀ => ?_) fun _ => runWrites_governed h ws
    · exact TxWrite.run_governed ⟨h, now⟩ w t
    · exact Along.pure h₀ trivial

lemma Db.transact_commits (h : Hashing) (db : Db) (ws : List (Time × TxWrite)) :
    Commits h anyAct db (db.transact h ws) :=
  db.update_commits (runWrites_governed h ws)

/-! ### Invariants of histories -/

section invariants

variable {I : Db → Prop} {J : Txn → Prop}

/-- A transaction keeps what its start has, its steps keep and its commit check gives back. -/
lemma Commits.keeps (hc : Commits h A db db') (start : I db → J db.start)
    (step : ∀ t t', StoreStep h A t t' → t.db.Sound h → J t → J t')
    (commit : ∀ t, t.db.Sound h → J t → t.violations = [] → I t.db)
    (hs : db.Sound h) (hI : I db) : db'.Sound h ∧ I db' := by
  cases hc with
  | rolledBack => exact ⟨hs, hI⟩
  | @committed t chain checked =>
    have inv : t.db.Sound h ∧ J t := by
      refine chain.keeps (I := fun t => t.db.Sound h ∧ J t) ?_ ⟨hs, start hI⟩
      exact fun t t' hstep ⟨hs, hJ⟩ => ⟨hstep.sound hs, step t t' hstep hs hJ⟩
    exact ⟨inv.1, commit t inv.1 inv.2 checked⟩

/-- What transactions keep, histories keep. -/
lemma Db.history_keeps (start : ∀ db, I db → J db.start)
    (step : ∀ t t', StoreStep h anyAct t t' → t.db.Sound h → J t → J t')
    (commit : ∀ t, t.db.Sound h → J t → t.violations = [] → I t.db)
    (txs : List (List (Time × TxWrite))) :
    ∀ db, db.Sound h → I db → (db.history h txs).Sound h ∧ I (db.history h txs) := by
  induction txs with
  | nil => exact fun db hs hI => ⟨hs, hI⟩
  | cons ws txs ih =>
    intro db hs hI
    obtain ⟨hs', hI'⟩ := (db.transact_commits h ws).keeps (start db) step commit hs hI
    exact ih _ hs' hI'

/-- The rule for properties that every step keeps. -/
lemma Db.history_keeps_step
    (step : ∀ t t', StoreStep h anyAct t t' → t.db.Sound h → I t.db → I t'.db)
    (txs : List (List (Time × TxWrite))) (hs : db.Sound h) (hI : I db) : I (db.history h txs) :=
  (Db.history_keeps (J := fun t => I t.db) (fun _ hI => hI) step (fun _ _ hJ _ => hJ) txs db hs
    hI).2

lemma Db.Sound.history (hs : db.Sound h) (txs : List (List (Time × TxWrite))) :
    (db.history h txs).Sound h :=
  (Db.history_keeps (I := fun _ => True) (J := fun _ => True) (fun _ _ => trivial)
    (fun _ _ _ _ _ => trivial) (fun _ _ _ _ => trivial) txs db hs trivial).1

lemma Reachable.sound (hr : Reachable h db) : db.Sound h := by
  obtain ⟨txs, rfl⟩ := hr
  exact (Db.Sound.empty h).history txs

/-- A state of a transaction after some of its writes, on a store with some history. -/
def Running (h : Hashing) (t : Txn) : Prop :=
  ∃ txs ws, t = (runWrites h ws (Db.empty.history h txs).start).2

lemma Reachable.running (hr : Reachable h db) : Running h db.start := by
  obtain ⟨txs, rfl⟩ := hr
  exact ⟨txs, [], rfl⟩

lemma Running.keeps (step : ∀ t t', StoreStep h anyAct t t' → t.db.Sound h → I t.db → I t'.db)
    (hI : I Db.empty) (ht : Running h t) : t.db.Sound h ∧ I t.db := by
  obtain ⟨txs, ws, rfl⟩ := ht
  have hs := (Db.Sound.empty h).history txs
  have hI' := Db.history_keeps_step step txs (.empty h) hI
  refine (runWrites_governed h ws (Db.empty.history h txs).start).1.keeps
    (I := fun t => t.db.Sound h ∧ I t.db) ?_ ⟨hs, hI'⟩
  exact fun t t' hstep ⟨hs, hI⟩ => ⟨hstep.sound hs, step t t' hstep hs hI⟩

lemma Running.sound (ht : Running h t) : t.db.Sound h :=
  (ht.keeps (I := fun _ => True) (fun _ _ _ _ _ => trivial) trivial).1

end invariants

/-! ### Invariants of memories -/

section memories

variable {P : Memory → Prop}

section

variable (newborn : ∀ m, Memory.Newborn h m → P m)
  (step : ∀ act m m', m.Chain h → m.row.lifecycle ≠ .purged → Memory.Step h act m m' → P m → P m')
  (sweep : ∀ m p now, m.Chain h → P m → P (m.sweep p now))
include newborn step sweep

/-- A step keeps what new memories have and what acts and the sweep keep. -/
lemma StoreStep.all (hs : StoreStep h A t t')
    (hdb : t.db.Sound h) (hP : t.db.All P) : t'.db.All P := by
  have hall : t'.db.All fun m => m.Chain h ∧ P m := by
    refine (hs hdb).2.2.all (fun m nb => ⟨.newborn nb, newborn m nb⟩) ?_ ?_
      fun id r hr => ⟨hdb.chained id r hr, hP id r hr⟩
    · exact fun act m m' live hs ⟨c, hm⟩ => ⟨c.step live hs, step act m m' c live hs hm⟩
    · exact fun m p now old ⟨c, hm⟩ => ⟨c.sweep now old, sweep m p now c hm⟩
  exact fun id r hr => (hall id r hr).2

/-- The rule for properties of single memories. -/
lemma Running.all (ht : Running h t) : t.db.All P :=
  (ht.keeps (fun _ _ hs => hs.all newborn step sweep) (.empty P)).2

lemma Reachable.all (hr : Reachable h db) : db.All P :=
  hr.running.all newborn step sweep

end

end memories

end GovStore
