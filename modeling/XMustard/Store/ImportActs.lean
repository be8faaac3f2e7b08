import XMustard.Store.SatelliteActs
import XMustard.Store.VoteActs

/-!
# Import, retention and review subjects, act by act

An imported entry is created bare, given its verdicts, and labelled last, so the label is checked
against the verdicts. Retention sweeps old content, and review subjects are no entries.
-/

namespace GovStore

open Db Table Program Along List

variable {h : Hashing} {A : String → Act → Prop} {t : Txn} {id : String} {e : Entry}

/-! ### Normalization -/

instance reads_requireTime (x : TimeText) (text : String) : Reads (requireTime x text) := by
  unfold requireTime
  split <;> infer_instance

instance reads_normalizeVerifications (votes : List LegacyVote) (vs : List LegacyVerification) :
    Reads (normalizeVerifications votes vs) := by
  induction vs generalizing votes with
  | nil => exact .pure _
  | cons => exact .ite _

instance reads_legacyMode (recorded : Choice VerificationMode) (derived : VerificationMode) :
    Reads (legacyMode recorded derived) := by
  unfold legacyMode
  split <;> infer_instance

variable (env : Env)

instance reads_normalizeLegacy (ws : String) (le : LegacyEntry) (threshold : Int) :
    Reads (normalizeLegacy env ws le threshold) := by
  refine .andThen fun _ => .andThen fun _ => .andThen fun _ => .andThen fun _ => ?_
  split <;> infer_instance

/-- An unpromoted legacy entry imports without a mode. -/
lemma bare_of_normalizeLegacy {env : Env} {ws : String} {le : LegacyEntry} {threshold : Int}
    {n : NormalizedLegacy} {t' : Txn} (hok : normalizeLegacy env ws le threshold t = (.ok n, t'))
    (hp : ¬n.promoted) : n.mode = .unset := by
  simp only [normalizeLegacy, bind_ensure_eq_ok] at hok
  obtain ⟨-, -, -, -, hok⟩ := hok
  generalize le.permission = permission, le.status = status at hok
  obtain _ | _ := permission
  · cases hok
  obtain _ | _ := status
  · cases hok
  simp only [Reads.bind_eq_ok] at hok
  obtain ⟨-, -, -, -, _, -, _, -, _, -, -, -, hok⟩ := hok
  split at hok
  · cases hok
    rfl
  split at hok
  · cases hok
    rfl
  · obtain ⟨_, -, hok⟩ := Reads.bind_eq_ok.1 hok
    cases hok
    exact absurd rfl hp

/-! ### Imported verdicts -/

lemma Db.insertVote_eq_ok {db db' : Db} {v : Vote} (hok : db.insertVote v = .ok db') :
    v.principalKey ≠ "" ∧ db' = db.withVotes (db.votes ++ [v])
      ∧ db.votes.any v.sameKey = false := by
  unfold Db.insertVote at hok
  split_ifs at hok with hname hany
  cases hok
  exact ⟨hname, rfl, by simpa using hany⟩

/-- One imported verdict of an entry that is not labelled yet. -/
lemma insertVote_along {v : Vote} (hseed : A e.id .seed) (he : t.db.entry e.id = some e)
    (live : e.lifecycle ≠ .purged) (bare : e.verificationMode = .unset)
    (hid : v.entryId = e.id) (key : v.principalKey = principalKey v.principal)
    (epoch : v.epoch = e.voteEpoch) :
    Along (StoreStep h A) t t (execDb (Db.insertVote v)) fun _ t' => t'.db.entry e.id = some e := by
  rw [← bind_pure (execDb _)]
  refine along_execDb fun db' hok => ?_
  obtain ⟨named, rfl, hfresh⟩ := insertVote_eq_ok hok
  refine Along.pure (.single fun hs => ?_) he
  refine StoreStep.cast (t.db.votes ++ [v]) hseed he live ?_ ?_ (.refl _) (fun _ hc => hc)
    (by simp) ?_ (by simp) (by simp) hs
  · intro w hw
    rcases mem_append.1 hw with hw | hw
    · exact hs.wf.votesOwned w hw
    · rw [mem_singleton.1 hw, hid, he]
      rfl
  · exact fun i hi => rows_append_other (by rw [hid]; exact hi.symm)
  · have hrows : rows (·.entryId) e.id (t.db.votes ++ [v]) = (t.db.recordOf e).votes ++ [v] :=
      rows_append_same hid
    rw [hrows]
    refine .seed _ v bare ⟨hid, key, epoch, named⟩ ?_
    rw [any_eq_false] at hfresh ⊢
    exact fun w hw => hfresh w (mem_rows.1 hw).1

lemma insertVotesFrom_along (digest : String) : ∀ (n : Int) (votes : List LegacyVote) (t : Txn),
    A e.id .seed → t.db.entry e.id = some e → e.lifecycle ≠ .purged → e.verificationMode = .unset →
    e.voteEpoch = 0 →
    Along (StoreStep h A) t t (insertVotesFrom e.id digest n votes)
      fun _ t' => t'.db.entry e.id = some e
  | _, [], _, _, he, _, _, _ => Along.pure .refl he
  | n, v :: votes, t, hseed, he, live, bare, epoch => by
    refine bind_of (insertVote_along hseed he live bare rfl rfl epoch.symm)
      fun _ t' _ he' => ?_
    exact insertVotesFrom_along digest (n + 1) votes t' hseed he' live bare epoch

section baselines

variable [Attachable A id e]

instance setBaselineQuiet_side (b : Baseline) : Side h A id e (setBaselineQuiet id b) := by
  refine .andThen fun kind => .andThen fun known => ?_
  split
  · refine @Side.bind _ _ _ _ _ _ _ _ (anchors_side fun db db' hok => ?_) _
    split at hok
    · cases hok
    refine ⟨_, updateAnchors_eq_ok hok, fun i hi =>
      rows_update_of_ne (fun r _ => rfl) fun r hr => ?_⟩
    simp only [Bool.and_eq_true, decide_eq_true_eq] at hr
    rw [hr.1]
    exact hi.symm
  · dsimp only [newAnchor]
    infer_instance

instance setBaselinesQuietFrom_side (added : Bool) (bs : List Baseline) :
    Side h A id e (setBaselinesQuietFrom id added bs) := by
  induction bs generalizing added with
  | nil => exact .reads (m := Pure.pure added)
  | cons _ _ ih => exact .andThen fun _ => ih _

instance setBaselinesQuiet_side (bs : List Baseline) : Side h A id e (setBaselinesQuiet id bs) :=
  .bind

end baselines

/-! ### Imported entries -/

/-- The acts an import consists of. -/
def Act.isImport : Act → Prop
  | .attach | .seed | .label _ => True
  | _ => False

lemma importEntry_along (ws : String) (threshold : Int) (a : Actor) (le : LegacyEntry)
    (hA : t.db.entry le.id = none → ∀ act, act.isImport → A le.id act) :
    Along (StoreStep env.toHashing A) t t (importEntry env ws threshold a le) fun _ _ => True := by
  refine bind_reads fun n hn => ?_
  refine bind_query fun existing hread => ?_
  cases hread
  split
  · exact Along.pure .refl trivial
  next hnew =>
  have hnew : t.db.entry le.id = none := by simpa using hnew
  have hatt : A le.id .attach := hA hnew .attach trivial
  refine along_of_sound (by simp) fun hs => ?_
  refine bind_of (insertEntry_along env _ _ a hatt) fun _ t₁ _ hfresh => ?_
  obtain ⟨e, he, hactive, bare, epoch⟩ := hfresh hs
  have hid : e.id = le.id := (entry_mem he).2
  have live : e.lifecycle ≠ .purged := by simp [hactive]
  rw [show (le.id : String) = e.id from hid.symm] at he hatt
  have hvotes := insertVotesFrom_along (h := env.toHashing) (env.digest le.content) 0 n.votes t₁
    (hid ▸ hA hnew .seed trivial) he live bare epoch
  rw [hid] at hvotes he hatt
  refine bind_of hvotes fun _ t₂ _ he₂ => ?_
  have : Attachable A le.id e := ⟨hatt, live⟩
  refine along_side he₂ fun _ t₃ aside₃ => ?_
  have he₃ := (aside₃.entry le.id).trans he₂
  have keeps : KeepsKeys (Entry.adoptLabel n) := fun _ => ⟨rfl, rfl⟩
  refine along_row (hA hnew (.label n.promoted) trivial) keeps he₃ live ?_ fun he₄ => ?_
  · intro hc hshort
    simp only [Entry.checked, decide_eq_true_eq] at hc
    exact .label _ n.status n.promoted n.mode (fun _ => hactive) hc.1
      (bare_of_normalizeLegacy hn) (hshort rfl)
  have : Attachable A le.id (Entry.adoptLabel n e) := ⟨hatt, live⟩
  exact along_last he₄

/-- Entries that exist are left alone. -/
lemma importEntries_along (env : Env) (ws : String) (threshold : Int) (skip : Bool) (a : Actor) :
    ∀ (les : List LegacyEntry) (t : Txn),
      (∀ i, t.db.entry i = none → ∀ act, act.isImport → A i act) →
      Along (StoreStep env.toHashing A) t t (importEntries env ws threshold skip a les)
        fun _ _ => True
  | [], _, _ => Along.pure .refl trivial
  | le :: les, t, hA => by
    refine along_of_sound (fun _ _ _ => trivial) fun hs => ?_
    refine bind_of (Along.tryCatch (Q := fun _ _ => True) ?_ fun err t' h₀ => ?_)
      fun _ t' chain _ => ?_
    · refine bind_of (importEntry_along env ws threshold a le (hA le.id)) fun _ t' _ _ => ?_
      exact Along.pure .refl trivial
    · exact Along.reads h₀ fun _ _ => trivial
    · refine importEntries_along env ws threshold skip a les t' fun i hi => hA i ?_
      by_contra hsome
      have := StoreStep.present chain hs (Option.isSome_iff_ne_none.2 hsome)
      rw [hi] at this
      cases this

lemma importContextEntries_along (ws principal : String) (threshold : Int) (skip : Bool)
    (les : List LegacyEntry) (hA : ∀ i, t.db.entry i = none → ∀ act, act.isImport → A i act) :
    Along (StoreStep env.toHashing A) t t
      (importContextEntries env ws principal threshold skip les) fun _ _ => True := by
  refine bind_reads fun _ _ => ?_
  refine bind_reads fun _ _ => ?_
  refine bind_of (importEntries_along env _ _ _ _ les t hA) fun _ t' _ _ => ?_
  exact Governed.of_form t'

/-! ### Retention -/

theorem compactRevisions_governed (hA : ∀ i, A i .compact) (env : Env) (cutoff : Time)
    (batch : Nat) : Governed h A (compactRevisions env cutoff batch) := by
  intro t
  unfold compactRevisions
  rw [← bind_pure (execDb _)]
  refine along_execDb fun db' hok => ?_
  obtain ⟨-, rfl⟩ := updateRevisions_eq_ok.1 hok
  refine Along.pure (.single fun hs => ?_) trivial
  let old := ((t.db.revisions.filter (t.db.droppable cutoff)).take batch).map
    fun r => (r.entryId, r.revision)
  let p (r : Revision) : Bool := t.db.droppable cutoff r ∧ (r.entryId, r.revision) ∈ old
  let revs := Table.update p (Revision.compact env.now) t.db.revisions
  have hwf : (t.db.withRevisions revs).Wf := by
    refine ⟨hs.wf.ids, hs.wf.named, hs.wf.pks, hs.wf.checked, ?_, hs.wf.votesOwned, ?_⟩
    · exact forall_mem_update hs.wf.revisionsOwned fun _ h => h
    · exact fun ev hev => ⟨(hs.wf.events ev hev).redacted, (hs.wf.events ev hev).disjoint⟩
  refine ⟨hwf, fun _ hc => hc, .sweep env.now p hA ?_ ?_⟩
  · intro id r hr x hx hpx
    obtain ⟨he, hrec, hid⟩ := record_eq_some hr
    have hxid : x.entryId = id := by
      rw [hrec] at hx
      exact (mem_rows.1 hx).2.trans hid
    have hdrop : t.db.droppable cutoff x := (of_decide_eq_true hpx).1
    simp only [Db.droppable, hxid, he, Bool.and_eq_true, decide_eq_true_eq, Option.any_some]
      at hdrop
    exact ⟨hdrop.1.2, hdrop.2.1⟩
  · intro id
    change (t.db.withRevisions revs).record id = _
    simp only [Db.record, entry_withRevisions, Option.map_map]
    refine Option.map_congr fun e' _ => ?_
    simp only [Function.comp_apply, Db.recordOf, Db.withRevisions, Record.mk.injEq, and_true,
      true_and]
    exact rows_update (f := Revision.compact env.now) fun _ _ => rfl

theorem compactDeliveries_governed (cutoff : Time) (batch : Nat) :
    Governed h A (compactDeliveries cutoff batch) := by
  unfold compactDeliveries
  exact .of_form

/-! ### Review subjects -/

/-- A review subject is no entry. -/
lemma Db.Wf.ne_of_subject {db : Db} (wf : db.Wf) {kind : SubjectKind} (hk : kind ≠ .memory)
    (hex : db.subjectExists kind id) (he : e ∈ db.entries) : id ≠ e.id := by
  have : db.events.any fun ev => ev.entryId = some id ∧ ev.subjectKind = kind := by
    cases kind with
    | memory => exact absurd rfl hk
    | reviewRecord | reviewFinding => exact hex
  obtain ⟨ev, hev, hid⟩ := any_eq_true.1 this
  simp only [decide_eq_true_eq] at hid
  have hnone := (wf.events ev hev).disjoint (by rw [hid.2]; exact hk) id hid.1
  rintro rfl
  rw [entry_of_mem wf he] at hnone
  cases hnone

theorem reviewEvent_governed (a : Actor) (ev : EventRow) :
    Governed h A (reviewEvent env a ev) := by
  refine fun t => bind_ensure fun hk => ?_
  refine (steps_event fun db db' hok wf e he heq => ?_).steps t
  have := ((insertEvent_eq_ok hok).2 e.id heq).resolve_left hk
  rw [entry_of_mem wf he] at this
  cases this

theorem reviewAnchor_governed (x : Anchor) : Governed h A (reviewAnchor x) := by
  refine fun t => bind_ensure fun hk => steps_execDb (fun t db' hok => ?_) t
  obtain ⟨hex, rfl⟩ := insertAnchor_eq_ok hok
  refine .same ⟨⟨rfl, rfl, rfl⟩, fun _ => .inl, fun wf e' he' _ => ?_⟩
  have : x.entryId ≠ e'.id := wf.ne_of_subject hk hex he'
  simp [Db.recordOf, rows, this]

theorem reviewReanchor_governed (id : String) (f : Anchor → Anchor) :
    Governed h A (reviewReanchor id f) := by
  refine fun t => bind_ok rfl (bind_ensure fun hex => ?_)
  refine Along.write (.single (.same ⟨⟨rfl, rfl, rfl⟩, fun _ => .inl, fun wf e' he' _ => ?_⟩))
    trivial
  have hne : id ≠ e'.id := wf.ne_of_subject (by simp) hex he'
  simp only [Db.recordOf, Record.mk.injEq, and_true, true_and]
  refine rows_update_of_ne (fun _ _ => rfl) fun r hr => ?_
  simp only [decide_eq_true_eq] at hr
  rwa [hr.1]

theorem reviewOutcome_governed (o : Outcome) : Governed h A (reviewOutcome o) := by
  refine fun t => bind_ensure fun hk => steps_execDb (fun t db' hok => ?_) t
  exact .same (beside_upsertOutcome hok fun hex wf e he _ => wf.ne_of_subject hk hex he)

end GovStore
