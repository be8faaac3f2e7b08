import XMustard.Store.Rows

/-!
# The writers of entries, act by act

Each writer of the `entries` table is a program of governance acts on the entry it names.
-/

namespace GovStore

open Db Program Along

variable {h : Hashing} {A : String → Act → Prop} {id : String} {t : Txn} {e : Entry}

/-! ### Promotion -/

instance reads_validatePromotion (p : Promotion) : Reads (validatePromotion p) := by
  unfold validatePromotion
  match p.status, p.promoted, p.mode with
  | none, _, _ => exact .throw _
  | some _, true, none => exact .throw _
  | some _, true, some _ => exact .bind
  | some _, false, _ => exact .bind

/-- A label that passes the validation is well formed. -/
lemma validatePromotion_eq_ok {p : Promotion} {t' : Txn} {status : Status}
    {mode : VerificationMode} (hok : validatePromotion p t = (.ok (status, mode), t')) :
    p.status = some status ∧ (p.promoted → status = .verified ∧ mode ≠ .unset)
      ∧ (¬p.promoted → mode = .unset ∧ status ≠ .verified) ∧ (p.promoted → p.mode = some mode) := by
  unfold validatePromotion at hok
  match hs : p.status, hp : p.promoted, hm : p.mode with
  | none, _, _ => simp [hs] at hok
  | some s, true, none => simp [hs, hp, hm] at hok
  | some s, true, some m =>
    simp only [hs, hp, hm] at hok
    obtain ⟨hens, hpure⟩ := bind_ensure_eq_ok.1 hok
    cases hpure
    exact ⟨rfl, fun _ => hens, by simp, fun _ => rfl⟩
  | some s, false, m =>
    simp only [hs, hp] at hok
    obtain ⟨hens, hpure⟩ := bind_ensure_eq_ok.1 hok
    cases hpure
    exact ⟨rfl, by simp, fun _ => ⟨rfl, hens.2⟩, by simp⟩

section

variable (status : Status) (promoted : Bool) (mode : VerificationMode) (a : Actor) (now : Time)
include status promoted mode a now

@[simp] lemma Entry.label_core (e : Entry) : (e.label status promoted mode a now).core
      = { e.core with status := status, promoted := promoted, verificationMode := mode } := by
  unfold Entry.label
  split_ifs <;> rfl

lemma Entry.label_keeps : KeepsKeys (Entry.label status promoted mode a now) := fun e =>
  ⟨congrArg EntryCore.id (e.label_core status promoted mode a now),
    congrArg EntryCore.pk (e.label_core status promoted mode a now)⟩

@[simp] lemma Entry.label_lifecycle (e : Entry) :
    (e.label status promoted mode a now).lifecycle = e.lifecycle :=
  congrArg EntryCore.lifecycle (e.label_core status promoted mode a now)

end

lemma Db.memory_labelled {db db' : Db} {e' : Entry} {status : Status} {promoted : Bool}
    {mode : VerificationMode}
    (hcore : e'.core
      = { e.core with status := status, promoted := promoted, verificationMode := mode })
    (hrevs : db'.revisions = db.revisions) (hvotes : db'.votes = db.votes) :
    (db'.recordOf e').memory = (db.recordOf e).memory.labelled status promoted mode := by
  have hid : e'.id = e.id := congrArg EntryCore.id hcore
  simp only [Record.memory, Memory.labelled, Db.recordOf, hcore, hid, hrevs, hvotes]

/-- The label is set on the memory of the entry, and nothing else. -/
lemma setPromotion_along (hatt : A id .attach) (env : Env) (p : Promotion)
    (hlabel : A id (.label p.promoted)) (a : Actor)
    (he : t.db.entry id = some e) :
    Along (StoreStep h A) t t (setPromotion env id p a) fun e' t' => t'.db.entry id = some e'
      ∧ ∃ status mode, p.status = some status ∧ (p.promoted → p.mode = some mode)
        ∧ (¬p.promoted → mode = .unset)
        ∧ (t'.db.recordOf e').memory = (t.db.recordOf e).memory.labelled status
          p.promoted mode := by
  refine bind_reads fun _ _ => ?_
  refine bind_reads fun sm hsm => ?_
  obtain ⟨hstatus, hprom, hunprom, hmode⟩ := validatePromotion_eq_ok hsm
  refine along_liveEntry fun e₀ he₀ live => ?_
  cases he.symm.trans he₀
  refine bind_ensure fun hactive => ?_
  split
  · next hsame =>
    refine Along.pure .refl ⟨he, sm.1, sm.2, hstatus, hmode, fun hp => (hunprom hp).1, ?_⟩
    refine memory_labelled ?_ rfl rfl
    rw [← hsame.1, ← hsame.2.1, ← hsame.2.2]
    rfl
  refine along_side he fun _ t₁ aside₁ => ?_
  have he₁ : t₁.db.entry id = some e := by rw [aside₁.entry, he]
  have keeps := Entry.label_keeps sm.1 p.promoted sm.2 a env.now
  refine along_row hlabel keeps he₁ live ?_ fun he₂ => ?_
  · intro _ hshort
    rw [Entry.label_core] at hshort ⊢
    exact .label _ _ _ _ hactive hprom (fun hp => (hunprom hp).1) (hshort rfl)
  have : Attachable A id (e.label sm.1 p.promoted sm.2 a env.now) := ⟨hatt, by simpa using live⟩
  refine along_side he₂ fun _ t₃ aside₃ => ?_
  refine Along.reads .refl fun e' he' => ?_
  have he₃ := (getEntry_eq_ok.1 he').1
  obtain rfl : Entry.label sm.1 p.promoted sm.2 a env.now e = e' := by
    rw [aside₃.entry, he₂] at he₃
    exact Option.some.inj he₃
  refine ⟨he₃, sm.1, sm.2, hstatus, hmode, fun hp => (hunprom hp).1, ?_⟩
  exact memory_labelled (Entry.label_core ..) (aside₃.revisions.trans aside₁.revisions)
    (aside₃.votes.trans aside₁.votes)

theorem setPromotion_governed (hatt : A id .attach) (env : Env) (p : Promotion)
    (hlabel : A id (.label p.promoted)) (a : Actor) : Governed h A (setPromotion env id p a) := by
  intro t
  match he : t.db.entry id with
  | some e => exact (setPromotion_along hatt env p hlabel a he).conseq fun _ _ _ => trivial
  | none =>
    refine bind_reads fun _ _ => ?_
    refine bind_reads fun _ _ => ?_
    refine along_liveEntry fun e he' _ => ?_
    rw [he] at he'
    cases he'

/-! ### Supersession -/

lemma Db.insertRelation_eq (r : RelationRow) (db : Db) :
    db.insertRelation r = { db with relations := (db.insertRelation r).relations } := by
  unfold Db.insertRelation
  split <;> rfl

instance insertRelation_side {e : Entry} (r : RelationRow) :
    Side h A id e (writeDb (Db.insertRelation r)) := by
  rw [funext (Db.insertRelation_eq r)]
  infer_instance

set_option synthInstance.maxSize 1000000 in
instance addRelation_side {e : Entry} [Attachable A id e] (env : Env) (toId : String)
    (kind : Option RelationKind) (a : Actor) : Side h A id e (addRelation env id toId kind a) := by
  unfold addRelation
  split
  · infer_instance
  · dsimp only
    infer_instance

/-- The entry is there and active. -/
def Txn.ActiveAt (t : Txn) (id : String) : Prop :=
  ∃ e, t.db.entry id = some e ∧ e.lifecycle = .active

lemma Txn.ActiveAt.target {i : String} (hi : t.ActiveAt i) (hne : i ≠ id) :
    ∀ j, Act.replace i = .replace j → j ≠ id ∧ ∃ s, t.db.record j = some s
      ∧ s.row.lifecycle = .active := by
  rintro j ⟨⟩
  obtain ⟨e, he, hact⟩ := hi
  exact ⟨hne, _, record_of_entry he, hact⟩

lemma supersedeOne_along (hatt : ∀ i, A i .attach) {i : SupersedeInput}
    (hrep : A id (.replace i.newId))
    (env : Env) (newer : Entry) (a : Actor) (hnew : t.ActiveAt i.newId) :
    Along (StoreStep h A) t t (supersedeOne env i newer a id) fun _ t' => t'.ActiveAt i.newId := by
  refine along_getEntry fun e he => ?_
  refine bind_ensure fun hne => ?_
  refine bind_ensure fun _ => ?_
  refine bind_ensure fun hactive => ?_
  have keeps : KeepsKeys (Entry.supersede i.newId a env.now) := fun _ => ⟨rfl, rfl⟩
  refine along_row hrep keeps he (by simp [hactive]) ?_ (fun he₁ => ?_)
    (hnew.target hne.symm)
  · intro _ _
    exact .supersede _ i.newId hactive
  obtain ⟨n, hn, hnact⟩ := hnew
  have hn₁ : (t.db.setRow id (Entry.supersede i.newId a env.now)).entry i.newId = some n := by
    rw [entry_setRow_ne keeps hne.symm, hn]
  have : Attachable A i.newId n := ⟨hatt _, by simp [hnact]⟩
  refine along_side hn₁ fun _ t₂ aside₂ => ?_
  have : Attachable A id (e.supersede i.newId a env.now) := ⟨hatt id, Lifecycle.noConfusion⟩
  refine (Side.along t₂ ((aside₂.entry id).trans he₁)).conseq fun _ t₃ aside₃ => ?_
  exact ⟨n, (aside₃.entry _).trans ((aside₂.entry _).trans hn₁), hnact⟩

theorem supersede_governed (hatt : ∀ i, A i .attach) (i : SupersedeInput)
    (hrep : ∀ old ∈ i.oldIds, A old (.replace i.newId)) (env : Env) (a : Actor) :
    Governed h A (supersede env i a) := by
  refine .validated fun t => ?_
  refine bind_ensure fun _ => ?_
  refine along_getEntry fun newer hnewer => ?_
  refine bind_ensure fun hact => ?_
  refine bind_of (Along.each i.oldIds t ⟨newer, hnewer, hact.2⟩
    fun old hold s hs => supersedeOne_along hatt (hrep old hold) env newer a hs)
      fun _ t' _ hnew => ?_
  obtain ⟨n, hn, hnact⟩ := hnew
  have : Attachable A i.newId n := ⟨hatt _, by simp [hnact]⟩
  exact along_last hn

/-! ### Lifecycle transitions -/

/-- The entry is there and not purged. -/
def Txn.LiveAt (t : Txn) (id : String) : Prop :=
  ∃ e, t.db.entry id = some e ∧ e.lifecycle ≠ .purged

lemma along_side_live {α : Type} {m : Tx α} (hatt : A id .attach)
    (he : t.db.entry id = some e) (live : e.lifecycle ≠ .purged)
    (hm : Attachable A id e → Side h A id e m) :
    Along (StoreStep h A) t t m fun _ t' => t'.LiveAt id :=
  ((hm ⟨hatt, live⟩).along t he).conseq fun _ _ aside => ⟨e, (aside.entry id).trans he, live⟩

/-- Which acts the transitions of an entry are. -/
def Act.isTransition : Act → Prop
  | .retire | .reopen | .restart | .replace _ => True
  | _ => False

lemma moveLifecycle_along (hatt : ∀ i, A i .attach) (hmove : ∀ act, act.isTransition → A id act)
    (env : Env) {cur : Entry} (he : t.db.entry id = some cur) {dest : Lifecycle}
    {type : EventType} (htr : transitions cur.lifecycle dest = some type) (i : TransitionInput)
    (a : Actor) :
    Along (StoreStep h A) t t (moveLifecycle env cur dest i a) fun _ t' => t'.LiveAt id := by
  have hid : cur.id = id := (entry_mem he).2
  have live : cur.lifecycle ≠ .purged := fun hp => by simp [hp, transitions] at htr
  unfold moveLifecycle
  rw [hid]
  split
  · split
    · next harch =>
      -- out of the archive
      have keeps : KeepsKeys (Entry.reopen env.now) := fun _ => ⟨rfl, rfl⟩
      rw [← bind_pure (execDb _)]
      refine along_row (hmove .reopen trivial) keeps he live ?_ fun he₁ => ?_
      · exact fun _ _ => .reopen _ harch
      · exact Along.pure .refl ⟨_, he₁, by simp [Entry.reopen]⟩
    · next harch =>
      have gone : cur.lifecycle = .retracted ∨ cur.lifecycle = .superseded
          ∨ cur.lifecycle = .merged := by
        match hlc : cur.lifecycle with
        | .active => simp [hlc, transitions] at htr
        | .archived => exact absurd hlc harch
        | .purged => exact absurd hlc live
        | .retracted | .superseded | .merged => simp
      have keeps : KeepsKeys (Entry.restart env.now) := fun _ => ⟨rfl, rfl⟩
      refine along_row (hmove .restart trivial) keeps he live ?_ fun he₁ => ?_
      · exact fun _ _ => .restart _ gone
      exact along_side_live (hatt id) he₁ (by simp [Entry.restart, Entry.reopen]) fun _ =>
        inferInstance
  · refine along_getEntry fun target htarget => ?_
    refine bind_ensure fun ⟨hne, _, hact⟩ => ?_
    have htid : target.id = i.target := (entry_mem htarget).2
    have hactive : cur.lifecycle = .active := by
      match hlc : cur.lifecycle with
      | .active => rfl
      | .superseded | .retracted | .merged | .archived | .purged => simp [hlc, transitions] at htr
    have keeps : KeepsKeys (Entry.merge target.id a env.now) := fun _ => ⟨rfl, rfl⟩
    have hat : t.ActiveAt target.id := ⟨target, by rw [htid, htarget], hact⟩
    refine along_row (hmove (.replace target.id) trivial) keeps he live ?_ (fun he₁ => ?_)
      (hat.target (hid ▸ hne))
    · exact fun _ _ => .merge _ target.id hactive
    exact along_side_live (hatt id) he₁ (by simp [Entry.merge, Entry.close]) fun _ => inferInstance
  · next hna hnm =>
    have hret : (dest = .retracted ∨ dest = .archived) ∧ cur.lifecycle = .active := by
      match hlc : cur.lifecycle, dest with
      | .active, .retracted | .active, .archived => simp
      | .active, .active | .active, .superseded | .active, .merged | .active, .purged =>
        simp_all [transitions]
      | .superseded, d | .retracted, d | .merged, d | .archived, d | .purged, d =>
        cases d <;> simp_all [transitions]
    have keeps : KeepsKeys (Entry.close dest a env.now) := fun _ => ⟨rfl, rfl⟩
    rw [← bind_pure (execDb _)]
    refine along_row (hmove .retire trivial) keeps he live ?_ fun he₁ => ?_
    · exact fun _ _ => .retire _ dest hret.1 hret.2
    · refine Along.pure .refl ⟨_, he₁, ?_⟩
      rcases hret.1 with rfl | rfl <;> simp [Entry.close]

theorem transition_governed (hatt : ∀ i, A i .attach) (hmove : ∀ act, act.isTransition → A id act)
    (env : Env) (i : TransitionInput) (a : Actor) : Governed h A (transition env id i a) := by
  refine .validated fun t => ?_
  refine along_getEntry fun cur he => ?_
  split
  · exact Along.throw .refl
  next dest _ =>
  split
  · exact Along.throw .refl
  next type htr =>
  refine bind_of (moveLifecycle_along hatt hmove env he htr i a)
    fun _ t₁ _ ⟨e₁, he₁, live₁⟩ => ?_
  have : Attachable A id e₁ := ⟨hatt id, live₁⟩
  exact along_last he₁

/-! ### Single columns -/

theorem updateField_governed (hatt : A id .attach) {act : Act} (hA : A id act) (env : Env)
    (a : Actor) (type : EventType) (w : Bool) {set : Entry → Entry} (keeps : KeepsKeys set)
    (hlc : ∀ e, (set e).lifecycle = e.lifecycle) (current : Entry → Value) (display : Value)
    (step : ∀ (e : Entry) (m : Memory), m.row = e.core →
      (w → ¬Memory.shortfall { m with row := (set e).core }) →
      Memory.Step h act m { m with row := (set e).core })
    (hpurge : act ≠ .purge) (hvote : act ≠ .vote) (hrep : ∀ i, act ≠ .replace i) :
    Governed h A (updateField env id a type w set current display) := by
  intro t
  refine along_getEntry fun cur he => ?_
  refine bind_ensure fun live => ?_
  split
  · exact Along.pure .refl trivial
  have keeps' : KeepsKeys fun e => { set e with updatedAt := env.now } := keeps
  refine along_row hA keeps' he live ?_ (fun he₁ => ?_) (fun i hi => absurd hi (hrep i))
    hpurge hvote
  · exact fun _ hshort => step cur _ rfl hshort
  have : Attachable A id { set cur with updatedAt := env.now } :=
    ⟨hatt, fun hp => live ((hlc cur).symm.trans hp)⟩
  exact along_last he₁

/-- A column that governance does not read. -/
theorem updateField_governed_attach (hatt : A id .attach) (env : Env) (a : Actor)
    (type : EventType) (w : Bool) (set : Entry → Entry) (current : Entry → Value)
    (display : Value) (hcore : ∀ e, (set e).core = e.core) :
    Governed h A (updateField env id a type w set current display) := by
  refine updateField_governed hatt hatt env a type w ?_ ?_ current display ?_ (by simp) (by simp)
    (by simp)
  · exact fun e => ⟨congrArg EntryCore.id (hcore e), congrArg EntryCore.pk (hcore e)⟩
  · exact fun e => congrArg EntryCore.lifecycle (hcore e)
  · intro e m hm _
    rw [hcore, ← hm]
    exact .attach m

instance reads_inputTime (x : TimeText) : Reads (inputTime x) := by
  cases x with
  | malformed => exact .throw _
  | unset | instant => exact .pure _

instance reads_orElse {α : Type} (c : Choice α) (dflt : α) (err : Err) :
    Reads (c.orElse dflt err) := by
  cases c with
  | unknown => exact .throw _
  | unset | word => exact .pure _

theorem setExpiry_governed (hatt : A id .attach) (env : Env) (expiresAt : TimeText) (a : Actor) :
    Governed h A (setExpiry env id expiresAt a) := by
  refine .validated fun t => ?_
  refine bind_reads fun v _ => ?_
  exact updateField_governed_attach hatt env a _ _ _ _ _ (fun _ => by rfl) t

theorem setTier_governed (hatt : A id .attach) (env : Env) (tier : Choice Tier) (a : Actor) :
    Governed h A (setTier env id tier a) := by
  refine .validated fun t => ?_
  refine bind_reads fun v _ => ?_
  refine bind_reads fun _ _ => ?_
  exact updateField_governed_attach hatt env a _ _ _ _ _ (fun _ => by rfl) t

theorem setRequiredVerifications_governed (hatt : A id .attach) (hgate : A id .gate) (env : Env)
    (n : Int) (a : Actor) : Governed h A (setRequiredVerifications env id n a) := by
  refine .validated fun t => ?_
  refine bind_ensure fun hn => ?_
  refine bind_write (Along.restart (.single (.touch t id)) ?_)
  refine updateField_governed hatt hgate env a _ _ (fun _ => ?_) (fun _ => ?_) _ _ ?_
    (by simp) (by simp) (by simp) _
  · exact ⟨rfl, rfl⟩
  · rfl
  · rintro e ⟨_, revs, votes⟩ rfl hshort
    exact .gate _ n hn (hshort rfl)

/-! ### Classification -/

instance reads_validateTags (tags : List String) : Reads (validateTags tags) := .bind

theorem setClassification_governed (hatt : A id .attach) (env : Env) (c : Classification)
    (a : Actor) : Governed h A (setClassification env id c a) := by
  refine .validated fun t => ?_
  refine bind_ensure fun _ => ?_
  refine bind_ensure fun _ => ?_
  refine bind_reads fun _ _ => ?_
  refine bind_ensure fun _ => ?_
  refine along_getEntry fun cur he => ?_
  refine bind_ensure fun live => ?_
  refine bind_ensure fun _ => ?_
  have keeps : KeepsKeys (Entry.classify c (stickyMetadata cur c.metadata) env.now) :=
    fun _ => ⟨rfl, rfl⟩
  refine along_row hatt keeps he live ?_ fun he₁ => ?_
  · exact fun _ _ => .attach _
  have : Attachable A id (Entry.classify c (stickyMetadata cur c.metadata) env.now cur) :=
      ⟨hatt, live⟩
  exact along_last he₁

end GovStore
