import XMustard.Kernel.Verify
import XMustard.Store.ImportActs

/-!
# Settling, act by act

What a kernel call does to the store is again a chain of governance acts, now with the decision of
the kernel known: an entry is labelled by the outcome of its own verdicts, and what follows a
promotion replaces other entries and adds baselines.
-/

namespace WorkspaceOps

open GovStore Program

variable (host : Host) {h : Hashing} {A : String → Act → Prop} {t t' : Txn} {id ws : String}
  {e : Entry} {r : Entry × ContextEntry}

/-! ### Loading an entry -/

instance reads_loadAnyEntryTx (ws id : String) : Reads (loadAnyEntryTx ws id) := .bind

instance reads_loadEntryTx (ws id : String) : Reads (loadEntryTx ws id) := .bind

instance reads_entryAfter (ws id : String) : Reads (entryAfter ws id) := .bind

lemma loadAnyEntryTx_eq_ok
    (hok : loadAnyEntryTx ws id t = (.ok r, t')) :
    t.db.entry id = some r.1 ∧ r.2 = projectEntry t.db r.1 ∧ r.1.workspaceId = ws := by
  obtain ⟨e, he, hrest⟩ := Reads.bind_eq_ok.1 hok
  obtain ⟨hens, hrest⟩ := bind_ensure_eq_ok.1 hrest
  obtain ⟨ce, hce, hpure⟩ := Reads.bind_eq_ok.1 hrest
  cases hpure
  cases hce
  exact ⟨(getEntry_eq_ok.1 he).1, rfl, hens⟩

lemma loadEntryTx_eq_ok
    (hok : loadEntryTx ws id t = (.ok r, t')) :
    t.db.entry id = some r.1 ∧ r.2 = projectEntry t.db r.1 ∧ r.1.workspaceId = ws
      ∧ r.1.lifecycle = .active := by
  obtain ⟨r₀, hload, hrest⟩ := Reads.bind_eq_ok.1 hok
  obtain ⟨hens, hpure⟩ := bind_ensure_eq_ok.1 hrest
  cases hpure
  obtain ⟨he, hview, hws⟩ := loadAnyEntryTx_eq_ok hload
  exact ⟨he, hview, hws, hens⟩

/-- The rest of a program after loading an entry. -/
lemma along_loadEntryTx {α : Type} {Q : α → Txn → Prop} {f : Entry × ContextEntry → Tx α}
    (hf : ∀ e, t.db.entry id = some e → e.workspaceId = ws → e.lifecycle = .active →
      Along (StoreStep h A) t t (f (e, projectEntry t.db e)) Q) :
    Along (StoreStep h A) t t (loadEntryTx ws id >>= f) Q := by
  refine Along.bind_reads fun r hr => ?_
  obtain ⟨he, hview, hws, hactive⟩ := loadEntryTx_eq_ok hr
  have := hf r.1 he hws hactive
  rwa [← hview] at this

instance reads_resolveRevision (id : String) (rev : Int) : Reads (resolveRevision id rev) := .ite _

instance reads_tally (id : String) (rev : Int) : Reads (tally id rev) := .bind

instance reads_listVotes (id : String) (rev : Int) : Reads (listVotes id rev) := .bind

/-- The tally of the served revision. -/
lemma tally_eq_ok (he : t.db.entry id = some e) :
    tally id 0 t = (.ok (t.db.tally e e.revision), t) := by
  have hread : getEntry id t = (.ok e, t) := getEntry_eq_ok.2 ⟨he, rfl⟩
  have hresolve : resolveRevision id 0 t = (.ok e.revision, t) := by
    rw [resolveRevision, if_neg (by omega), bind_apply_ok hread]
    rfl
  rw [tally, bind_apply_ok hresolve]
  simp [readDb, he]

/-! ### What follows a promotion -/

instance reads_liveSupersedes (e : Entry) (req : ScopeRequest) (ids : List String) :
    Reads (liveSupersedes e req ids) := by
  induction ids with
  | nil => exact .pure _
  | cons => exact .bind

section promotion

variable (hatt : ∀ i, A i .attach) (hrep : ∀ i, A i (.replace e.id))

include hatt hrep

lemma applySupersession_governed (a : Actor) : Governed h A (applySupersession host e a) := by
  unfold applySupersession
  refine .ite (.pure _) (.read fun live => .bind ?_ fun _ =>
    .bind (setClassification_governed (hatt _) _ _ a) fun _ => .pure _)
  exact .ite (supersede_governed hatt _ (fun _ _ => hrep _) _ a) (.pure _)

lemma afterPromotion_governed (ce : ContextEntry) (a : Actor) :
    Governed h A (afterPromotion host e ce a) :=
  .bind (applySupersession_governed host hatt hrep a) fun _ =>
    .ite (.bind (setBaselines_governed (hatt _) _ _ _ a) fun _ => .pure _)
      (.pure _)

/-- The promoted memory itself keeps what it has. -/
lemma afterPromotion_along (ce : ContextEntry) (a : Actor) {P : Memory → Prop}
    (hs : t.db.Sound h) (hat : t.db.At e.id P) :
    Along (StoreStep h A) t t (afterPromotion host e ce a) fun _ t' => t'.db.At e.id P := by
  refine ⟨(afterPromotion_governed host hatt hrep ce a t).1, fun _ _ => ?_⟩
  let B (_ : String) (act : Act) : Prop := act = .attach ∨ act = .replace e.id
  have hquiet : Governed h B (afterPromotion host e ce a) :=
    afterPromotion_governed host (fun _ => .inl rfl) (fun _ => .inr rfl) ce a
  exact hat.quiet (fun _ hact => hact) (hquiet t).1 hs

end promotion

/-! ### Settling an entry -/

/-- The verdict of the kernel on an entry whose served revision is `served`. -/
def settledVerdict (db : Db) (e : Entry) (served : Revision) : Status × Bool :=
  reconcileEntry (projectEntry db e) served.author

/-- The label that goes with the verdict. -/
def settledMode (db : Db) (e : Entry) (promoted : Bool) : VerificationMode :=
  if promoted then verificationMode (db.tally e e.revision) e.requiredVerifications host.threshold
  else .unset

/-- The memory of an entry after it is settled. -/
def settled (db : Db) (e : Entry) (served : Revision) : Memory :=
  let verdict := settledVerdict db e served
  (db.recordOf e).memory.labelled verdict.1 verdict.2 (settledMode host db e verdict.2)

lemma promotionMode_eq_ok (he : t.db.entry id = some e) (promoted : Bool) :
    promotionMode host id promoted e.requiredVerifications t
      = (.ok (settledMode host t.db e promoted), t) := by
  unfold promotionMode settledMode
  cases promoted with
  | false => rfl
  | true =>
    rw [if_pos rfl, bind_apply_ok (tally_eq_ok he)]
    rfl

/-- Settling labels the entry by the verdict on it. -/
lemma settleEntry_along (hatt : ∀ i, A i .attach) (hrep : ∀ i, A i (.replace id)) (a : Actor)
    (hs : t.db.Sound h) (he : t.db.entry id = some e)
    (hlabel : ∀ served, t.db.revisionRow id e.revision = some served →
      A id (.label (settledVerdict t.db e served).2)) :
    Along (StoreStep h A) t t (settleEntry host ws id a) fun _ t' =>
      ∃ served, t.db.revisionRow id e.revision = some served ∧ e.lifecycle = .active
        ∧ t'.db.At id (· = settled host t.db e served) := by
  refine along_loadEntryTx fun e₀ he₀ _ hactive => ?_
  cases he.symm.trans he₀
  refine along_getRevision fun served hserved => ?_
  refine Along.bind_ok (promotionMode_eq_ok host he _) ?_
  have hset := setPromotion_along (h := h) (hatt id) host.toEnv
    ⟨some (settledVerdict t.db e served).1, (settledVerdict t.db e served).2,
      some (settledMode host t.db e (settledVerdict t.db e served).2)⟩ (hlabel served hserved) a he
  refine Along.bind_of hset fun e' t' chain hlab => ?_
  obtain ⟨he', status, mode, hstatus, hmode, hunset, hmem⟩ := hlab
  have hat : t'.db.At id (· = settled host t.db e served) := by
    refine ⟨_, Db.record_of_entry he', ?_⟩
    rw [hmem, settled]
    cases hstatus
    by_cases hp : (settledVerdict t.db e served).2
    · rw [Option.some.inj (hmode hp)]
    · rw [hunset hp, settledMode, if_neg hp]
  have hid : e'.id = id := (Db.entry_mem he').2
  have hs' : t'.db.Sound h := chain.keeps (fun _ _ hstep => hstep.sound) hs
  split
  · subst hid
    refine Along.bind_of (afterPromotion_along host hatt hrep _ a hs' hat) fun _ _ _ hat' => ?_
    exact Along.pure .refl ⟨served, hserved, hactive, hat'⟩
  · exact Along.pure .refl ⟨served, hserved, hactive, hat⟩

end WorkspaceOps
