import XMustard.Program.Fails
import XMustard.Store.EntryActs

/-!
# Which methods the label trigger can stop

The store reports a `peer_verified` label without support with an error of its own kind. Only a
statement that sets a watched column can meet it, and only if it leaves the label on. The methods
below are calm: whatever else they fail with, it is not that.
-/

namespace GovStore

open Program

variable {α : Type} {t : Txn} {id : String} {e : Entry} {f : Db → Except Err Db} {w : Bool}

/-- The program never fails on the support of a label. -/
def Calm (m : Tx α) : Prop := Fails (fun err => err.kind ≠ .invariant) m

/-- The program does not fail on the support of a label when it is run from `t`. -/
def CalmAt (t : Txn) (m : Tx α) : Prop := FailsIn (fun err => err.kind ≠ .invariant) t m

/-! ### Plain programs -/

/-- An error that is neither about the support of a label nor marks a malformed legacy entry. -/
def Err.Ordinary (err : Err) : Prop := err.kind ≠ .invariant ∧ err.kind ≠ .invalidEntry

/-- The form of the program shows that it only fails with ordinary errors. -/
abbrev Plain (m : Tx α) : Prop := FailsOnly Err.Ordinary m

lemma calm {m : Tx α} [hm : Plain m] : Calm m := fun t err herr => (hm.fails t err herr).1

instance ordinary_invalid (text : String) : Fact (invalid text).Ordinary := ⟨nofun, nofun⟩

instance ordinary_notFound (text : String) : Fact (Err.fault .notFound text).Ordinary :=
  ⟨nofun, nofun⟩

instance ordinary_conflict (text : String) : Fact (Err.fault .conflict text).Ordinary :=
  ⟨nofun, nofun⟩

instance ordinary_appendOnly (text : String) : Fact (Err.fault .appendOnly text).Ordinary :=
  ⟨nofun, nofun⟩

instance ordinary_staleBase (cur : Entry) (base : Int) (reason : String) :
    Fact (staleBase cur base reason).Ordinary := ⟨nofun, nofun⟩

instance ordinary_quarantinedCore : Fact quarantinedCore.Ordinary := ordinary_invalid _

instance plain_readDb (f : Db → α) : Plain (readDb f) := ⟨Fails.query fun _ _ h => by cases h⟩

lemma fails_execDb {P : Err → Prop}
    (hf : ∀ db err, f db = .error err → P err) : Fails P (execDb f) := by
  refine Fails.exec fun t err herr => ?_
  match hrun : f t.db with
  | .ok db' => simp [hrun, Except.map] at herr
  | .error err' =>
    simp only [hrun, Except.map, Except.error.injEq] at herr
    exact herr ▸ hf t.db err' hrun

lemma plain_execDb
    (hf : ∀ db err, f db = .error err → err.Ordinary) : Plain (execDb f) := ⟨fails_execDb hf⟩

/-! ### Reads and checks -/

instance plain_getEntry (id : String) : Plain (getEntry id) := ⟨Fails.query fun t err herr => by
  dsimp only at herr
  split at herr <;> cases herr
  exact Fact.out⟩

instance plain_getRevision (id : String) (rev : Int) : Plain (getRevision id rev) :=
  ⟨Fails.query fun t err herr => by
    dsimp only at herr
    split at herr <;> cases herr
    exact Fact.out⟩

instance plain_liveEntry (id : String) : Plain (liveEntry id) := .bind

instance plain_validId (id : String) : Plain (validId id) := .ensure ..

instance plain_validName (name : String) : Plain (validName name) := .ensure ..

instance plain_validateTags (tags : List String) : Plain (validateTags tags) := .bind

instance plain_validate (a : Actor) : Plain a.validate := .bind

instance plain_resolveRevision (id : String) (rev : Int) : Plain (resolveRevision id rev) := .ite _

instance plain_listVotes (id : String) (rev : Int) : Plain (listVotes id rev) := .bind

instance plain_tally (id : String) (rev : Int) : Plain (tally id rev) := .bind

/-! ### Statements -/

instance plain_writeDb (f : Db → Db) : Plain (writeDb f) := FailsOnly.write _

instance plain_touch (id : String) : Plain (touch id) := FailsOnly.write _

/-- An update that sets no watched column, or takes the label off. -/
lemma plain_updateEntryOf {f : Db → Entry → Entry}
    (hf : w → ∀ db e, (f db e).verificationMode = .unset) :
    Plain (execDb fun db => Db.updateEntry w id (f db) db) := by
  refine plain_execDb fun db err herr => ?_
  unfold Db.updateEntry at herr
  split at herr
  · cases herr
  · next e he =>
    split_ifs at herr with hw
    · obtain ⟨hw, hshort⟩ := Bool.and_eq_true_iff.1 hw
      simp [Db.peerShortfall, hf hw db e] at hshort
    · cases herr
      exact Fact.out

lemma plain_unlabel {f : Entry → Entry} (hf : ∀ e, (f e).verificationMode = .unset) :
    Plain (execDb (Db.updateEntry w id f)) :=
  plain_updateEntryOf fun _ _ => hf

instance plain_updateEntry (f : Entry → Entry) : Plain (execDb (Db.updateEntry false id f)) :=
  plain_updateEntryOf nofun

instance plain_insertEvent (ev : Event) : Plain (execDb (Db.insertEvent ev)) := by
  refine plain_execDb fun db err herr => ?_
  unfold Db.insertEvent at herr
  split at herr
  · cases herr
  · split_ifs at herr <;> cases herr <;> exact Fact.out

instance plain_updateRevisions (p : Revision → Bool) (f : Revision → Revision) :
    Plain (execDb (Db.updateRevisions p f)) := by
  refine plain_execDb fun db err herr => ?_
  unfold Db.updateRevisions at herr
  split_ifs at herr
  cases herr
  exact Fact.out

instance plain_insertAnchor (x : Anchor) : Plain (execDb (Db.insertAnchor x)) := by
  refine plain_execDb fun db err herr => ?_
  unfold Db.insertAnchor at herr
  split_ifs at herr <;> cases herr <;> exact Fact.out

instance plain_updateAnchors (p : Anchor → Bool) (f : Anchor → Anchor) :
    Plain (execDb (Db.updateAnchors id p f)) := by
  refine plain_execDb fun db err herr => ?_
  unfold Db.updateAnchors at herr
  dsimp only at herr
  split_ifs at herr
  cases herr
  exact Fact.out

instance plain_upsertVote (v : Vote) : Plain (execDb (Db.upsertVote v)) := by
  refine plain_execDb fun db err herr => ?_
  unfold Db.upsertVote at herr
  split_ifs at herr
  cases herr
  exact Fact.out

instance plain_insertEventRow (env : Env) (a : Actor) (ev : EventRow) :
    Plain (insertEvent env a ev) := .bind

instance plain_appendEvent (env : Env) (a : Actor) (ev : EventRow) :
    Plain (appendEvent env a ev) := .bind

instance plain_refreshFts (id : String) : Plain (refreshFts id) := by
  unfold refreshFts ftsDelete ftsPut
  infer_instance

/-- A watched update meets the trigger exactly if it leaves a label without support. -/
lemma updateEntry_invariant {f : Entry → Entry} (he : t.db.entry id = some e) :
    (∃ err, (execDb (Db.updateEntry true id f) t).1 = .error err ∧ err.kind = .invariant)
      ↔ (t.db.recordOf (f e)).memory.shortfall := by
  rw [← Db.peerShortfall_iff]
  by_cases hshort : t.db.peerShortfall (f e)
  · simp [execDb, Program.exec, Db.updateEntry, he, hshort, Except.map, Err.kind]
  · by_cases hc : (f e).checked <;>
      simp [execDb, Program.exec, Db.updateEntry, he, hshort, hc, Except.map, Err.kind, invalid]

/-! ### Methods -/

section methods

variable (env : Env) (a : Actor)

instance plain_validateAnchor (x : AnchorInput) : Plain (validateAnchor x) := by
  unfold validateAnchor
  split <;> infer_instance

instance plain_validateBaseline (b : Baseline) : Plain (validateBaseline b) := by
  unfold validateBaseline
  split <;> infer_instance

instance plain_setBaseline (commit : String) (time : Time) (b : Baseline) :
    Plain (setBaseline id commit time b) := .bind

instance plain_setBaselinesFrom (commit : String) (time : Time) (added : Bool)
    (bs : List Baseline) : Plain (setBaselinesFrom id commit time added bs) := by
  induction bs generalizing added with
  | nil => exact .pure _
  | cons => exact .bind

instance plain_setBaselines (bs : List Baseline) (commit : String) :
    Plain (setBaselines env id bs commit a) := by
  unfold setBaselines setBaselinesOf
  infer_instance

instance plain_clearDrift : Plain (clearDrift env id a) := .bind

set_option synthInstance.maxSize 1000000 in
instance plain_setClassification (c : Classification) :
    Plain (setClassification env id c a) := by
  unfold setClassification validateMetadata
  infer_instance

set_option synthInstance.maxSize 1000000 in
instance plain_addRelation (fromId toId : String) (kind : Option RelationKind) :
    Plain (addRelation env fromId toId kind a) := by
  unfold addRelation
  split
  · infer_instance
  · dsimp only
    infer_instance

set_option synthInstance.maxSize 1000000 in
instance plain_supersede (i : SupersedeInput) : Plain (supersede env i a) := by
  unfold supersede supersedeOne
  infer_instance

instance plain_moveLifecycle (cur : Entry) (dest : Lifecycle) (i : TransitionInput) :
    Plain (moveLifecycle env cur dest i a) := by
  unfold moveLifecycle clearBaselines
  split
  · have : Plain (execDb (Db.updateEntry true cur.id (Entry.restart env.now))) :=
      plain_unlabel fun _ => rfl
    infer_instance
  all_goals infer_instance

instance plain_transition (i : TransitionInput) : Plain (transition env id i a) := by
  refine .andThen fun _ => .andThen fun _ => ?_
  split
  · infer_instance
  · split <;> infer_instance

set_option synthInstance.maxSize 1000000 in
instance plain_serveRevision (cur : Entry) (rev : Int)
    (title description content digest : String) (tokens : List String) :
    Plain (serveRevision env cur rev title description content digest tokens a) := by
  unfold serveRevision clearBaselines putDedupeKeys
  have : Plain (execDb (Db.updateEntry true cur.id
    (Entry.serve rev digest title description tokens env.now))) := plain_unlabel fun _ => rfl
  infer_instance

set_option synthInstance.maxSize 1000000 in
instance plain_acceptRevision (i : AcceptInput) : Plain (acceptRevision env i a) := .bind

instance plain_rejectRevision (rev : Int) (reason : String) :
    Plain (rejectRevision env id rev reason a) := by
  have : Plain (execDb fun db =>
    Db.updateEntry false id (Entry.fallBack (db.newestPending id) env.now) db) :=
    plain_updateEntryOf nofun
  unfold rejectRevision
  infer_instance

set_option synthInstance.maxSize 1000000 in
instance plain_recordVote (i : VoteInput) : Plain (recordVote env i a) := by
  refine .andThen fun _ => ?_
  split
  · infer_instance
  · unfold validateTarget
    infer_instance

instance plain_validatePromotion (p : Promotion) : Plain (validatePromotion p) := by
  unfold validatePromotion
  split
  · infer_instance
  · split <;> infer_instance

/-- A label with support passes the trigger. -/
lemma calmAt_setPromotion (he : t.db.entry id = some e) (p : Promotion)
    (supported : ∀ status mode, p.status = some status → (p.promoted → p.mode = some mode) →
      (¬p.promoted → mode = .unset) →
      ¬((t.db.recordOf e).memory.labelled status p.promoted mode).shortfall) :
    CalmAt t (setPromotion env id p a) := by
  refine (calm t).bind fun _ t₁ hrun => ?_
  obtain rfl := Reads.state_eq hrun
  refine FailsIn.bind (calm t₁) fun sm t₂ hsm => ?_
  obtain rfl := Reads.state_eq hsm
  obtain ⟨hstatus, -, hunprom, hmode⟩ := validatePromotion_eq_ok hsm
  refine (calm t₂).bind fun e₀ t₃ hlive => ?_
  obtain rfl := Reads.state_eq hlive
  refine FailsIn.bind (Fails.ensure (by nofun) t₃) fun _ t₄ hens => ?_
  obtain ⟨-, rfl⟩ := ensure_eq_ok.1 hens
  split
  · exact Fails.pure _ _
  refine (Fails.write _ t₄).bind fun _ t₅ htouch => ?_
  obtain rfl : t₄.touch id = t₅ := congrArg Prod.snd htouch
  refine FailsIn.bind (fun err herr hkind => ?_) fun _ t₆ _ => ?_
  · have he₅ : (t₄.touch id).db.entry id = some e := by simpa using he
    have hshort := (updateEntry_invariant he₅).1 ⟨err, herr, hkind⟩
    have hlabel : ((t₄.touch id).db.recordOf (e.label sm.1 p.promoted sm.2 a env.now)).memory
        = (t₄.db.recordOf e).memory.labelled sm.1 p.promoted sm.2 :=
      Db.memory_labelled (Entry.label_core ..) (by simp) (by simp)
    rw [hlabel] at hshort
    exact supported sm.1 sm.2 hstatus hmode (fun hp => (hunprom hp).1) hshort
  · exact calm t₆

/-- A changed gate meets the trigger exactly if the label has too few approvals for it. -/
lemma calmAt_setRequiredVerifications_iff {n : Int} (ha : a.ok) (hn : 1 ≤ n)
    (he : t.db.entry id = some e) (live : e.lifecycle ≠ .purged)
    (hne : e.requiredVerifications ≠ n) :
    CalmAt t (setRequiredVerifications env id n a)
      ↔ ¬((t.db.recordOf e).memory.gated n).shortfall := by
  have hvalid : a.validate t = (.ok (), t) := by
    rcases a.validate_apply t with ⟨-, hrun⟩ | ⟨hbad, -⟩
    · exact hrun
    · rw [ha] at hbad
      cases hbad
  have he' : (t.touch id).db.entry id = some e := by simpa using he
  unfold CalmAt setRequiredVerifications updateField
  rw [failsIn_bind_ok hvalid, failsIn_bind_ok ((ensure_eq_ok (u := ())).2 ⟨hn, rfl⟩),
    failsIn_bind_ok (show touch id t = (.ok (), t.touch id) from rfl),
    failsIn_bind_ok (getEntry_eq_ok.2 ⟨he', rfl⟩),
      failsIn_bind_ok ((ensure_eq_ok (u := ())).2 ⟨live, rfl⟩),
    if_neg (by simpa using hne),
    failsIn_bind_iff fun _ t' _ => calm t']
  have hmem : ((t.touch id).db.recordOf { e with requiredVerifications := n, updatedAt := env.now }
      ).memory = (t.db.recordOf e).memory.gated n := by
    simp [Db.recordOf, Record.memory, Memory.gated, Entry.core]
  have := updateEntry_invariant (f := fun e =>
    { e with requiredVerifications := n, updatedAt := env.now }) he'
  rw [hmem] at this
  rw [← this]
  simp only [FailsIn, not_exists, not_and]

end methods

end GovStore
