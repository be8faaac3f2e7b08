import XMustard.Kernel.Acts
import XMustard.Kernel.Labels
import XMustard.Store.PeerVerified

/-!
# When a verdict is refused by the label trigger

A verdict adjusts the gate of its entry before the label is derived again. The store checks the
label at each statement, so a gate raised above the approvals that the old label rests on stops the
whole transaction, although the label would have been corrected by the next statement. Nothing else
in the transaction of a verdict can meet the trigger or the check at commit.
-/

namespace GovStore

open Bool List Table

/-! ### Peer approvals after a verdict -/

lemma countP_update {ρ : Type} (p : ρ → Bool) (f : ρ → ρ) (q : ρ → Bool) (t : List ρ) :
    (update p f t).countP q
      = t.countP (fun r => !p r && q r) + t.countP fun r => p r && q (f r) := by
  induction t with
  | nil => rfl
  | cons r t ih =>
    simp only [update, map_cons, countP_cons] at ih ⊢
    rw [ih]
    by_cases hp : p r <;> simp [hp] <;> omega

/-- Rows with one key, where keys are unique. -/
lemma length_le_one_of_key {ρ κ : Type} (key : ρ → κ) (k : κ) {t : List ρ}
    (hnodup : (t.map key).Nodup) (hk : ∀ r ∈ t, key r = k) : t.length ≤ 1 := by
  rwa [map_congr_left hk, map_const', nodup_replicate] at hnodup

namespace Memory

variable {m : Memory}

/-- No two votes have the key of `v`. -/
lemma Ballots.countP_sameKey (b : m.Ballots) (v : Vote) : m.votes.countP v.sameKey ≤ 1 := by
  rw [countP_eq_length_filter]
  refine length_le_one_of_key (fun w => (w.revision, w.principalKey))
    (v.revision, v.principalKey) (b.single.sublist (filter_sublist.map _)) fun w hw => ?_
  obtain ⟨-, hrev, hkey⟩ := Vote.sameKey_iff.1 (mem_filter.1 hw).2
  rw [hrev, hkey]

/-- A verdict takes the place of an earlier one with its key. -/
lemma Ballots.countP_putVote (b : m.Ballots) (v : Vote) {q : Vote → Bool}
    (hq : ∀ w, q (v.withOrdinal w) = q v) :
    (GovStore.putVote v m.votes).countP q
      = m.votes.countP (fun w => !v.sameKey w && q w) + if q v then 1 else 0 := by
  unfold GovStore.putVote upsert
  by_cases hany : m.votes.any v.sameKey
  · have hone : m.votes.countP v.sameKey = 1 := by
      have := b.countP_sameKey v
      have : 0 < m.votes.countP v.sameKey := countP_pos_iff.2 (any_eq_true.1 hany)
      omega
    rw [if_pos hany, countP_update]
    congr 1
    simp only [hq]
    by_cases hv : q v
    · simpa [hv] using hone
    · simp [hv]
  · rw [if_neg hany, countP_append, countP_singleton]
    congr 1
    refine countP_congr fun w hw => ?_
    have : v.sameKey w = false := by
      by_contra hsame
      exact hany (any_eq_true.2 ⟨w, hw, by simpa using hsame⟩)
    simp [this]

/-- A principal that is neither an author of the memory nor anonymous. -/
def isPeer (m : Memory) (key : String) : Prop :=
  key ≠ m.row.sourceKey ∧ key ≠ openModeIdentity ∧ key ∉ m.authorKeys

instance (m : Memory) (key : String) : Decidable (m.isPeer key) := instDecidableAnd

/-- How many peers approve of the served revision after the principal with this key cast a verdict
on revision `rev`. -/
def peersAfter (m : Memory) (rev : Int) (key : String) (verdict : Verdict) : Nat :=
  if rev = m.row.revision then
    (m.peerApprovals.filter fun v => v.principalKey ≠ key).length
      + if verdict = .approve ∧ m.isPeer key then 1 else 0
  else m.peerApprovals.length

variable {v : Vote}

lemma Ballots.peerApprovals_putVote (b : m.Ballots) (hentry : v.entryId = m.row.id)
    (hepoch : v.epoch = m.row.voteEpoch) :
    (peerApprovals { m with votes := GovStore.putVote v m.votes }).length
      = m.peersAfter v.revision v.principalKey v.verdict := by
  have hcount : (peerApprovals { m with votes := GovStore.putVote v m.votes }).length
      = (GovStore.putVote v m.votes).countP fun w =>
        w.revision = m.row.revision && m.peerApproves w := by
    rw [peerApprovals, filter_filter, ← countP_eq_length_filter]
    refine countP_congr fun w _ => ?_
    rw [Bool.and_comm]
    rfl
  rw [hcount, b.countP_putVote v fun _ => rfl]
  unfold peersAfter peerApprovals
  by_cases hrev : v.revision = m.row.revision
  · rw [if_pos hrev, filter_filter, filter_filter, ← countP_eq_length_filter]
    congr 1
    · refine countP_congr fun w hw => ?_
      -- on the served revision the votes of a principal have one key
      have hsame : v.sameKey w ↔ w.revision = v.revision ∧ w.principalKey = v.principalKey := by
        rw [Vote.sameKey_iff, hentry, b.owned w hw]
        simp
      simp only [and_eq_true, not_eq_true', ← not_eq_true, hsame,
        decide_eq_true_eq, hrev]
      tauto
    · refine if_congr ?_ rfl rfl
      simp [hrev, peerApproves, isPeer, hepoch]
  · rw [if_neg hrev, filter_filter, ← countP_eq_length_filter]
    simp only [hrev, decide_false, Bool.false_and, Bool.false_eq_true, if_false, Nat.add_zero]
    refine countP_congr fun w hw => ?_
    have hsame : w.revision = m.row.revision → v.sameKey w = false := by
      intro hw
      by_contra h
      exact hrev ((Vote.sameKey_iff.1 (by simpa using h)).2.1.symm.trans hw)
    by_cases hw : w.revision = m.row.revision <;> simp [hw, hsame]

lemma gated_shortfall_iff {n : Int} : (m.gated n).shortfall
    ↔ m.row.verificationMode = .peerVerified ∧ (m.peerApprovals.length : Int) < n :=
  Iff.rfl

/-- One verdict takes at most one approval away. -/
lemma Ballots.le_peersAfter (b : m.Ballots) (rev : Int) (key : String) (verdict : Verdict) :
    m.peerApprovals.length ≤ m.peersAfter rev key verdict + 1 := by
  have hone : (m.peerApprovals.filter fun v => !decide (v.principalKey ≠ key)).length ≤ 1 := by
    refine length_le_one_of_key (fun v => principalKey v.principal) key
      (b.peers.sublist (filter_sublist.map _)) fun v hv => ?_
    obtain ⟨hv, hkey⟩ := mem_filter.1 hv
    rw [← b.voters v (mem_of_mem_filter (mem_of_mem_filter hv))]
    simpa using hkey
  have hsplit := length_eq_length_filter_add (l := m.peerApprovals)
    fun v => decide (v.principalKey ≠ key)
  unfold peersAfter
  split <;> omega

end Memory

end GovStore

namespace WorkspaceOps

open GovStore Program Relation

variable (host : Host) {h : Hashing} {A : String → Act → Prop} {t t' : Txn} {db : Db}
  {id ws : String} {e : Entry}

/-! ### What follows the gate is calm -/

instance plain_revisionDiff (id : String) (old new : Int) : Plain (revisionDiff id old new) := .bind

set_option synthInstance.maxSize 1000000 in
instance plain_onQuorum (verdict : Verdict) (out : ContextEntry × Bool) (i : VoteInput)
    (a : Actor) : Plain (onQuorum host ws verdict out i a) := by
  cases verdict
  all_goals
    dsimp only [onQuorum, mergeOnQuorum, retractOnQuorum, entryAfter, markQuarantined]
    infer_instance

variable (verdict : Verdict) {α : Type} {a : Actor}

instance plain_afterSettling (e : Entry) (ce : ContextEntry) (voter : ContextActor) (a : Actor)
    (i : VoteInput) (verdict : Verdict) (out : ContextEntry × Bool) :
    Plain (afterSettling host ws e ce voter a i verdict out) := by
  unfold afterSettling reverifyOnApprove
  infer_instance

/-- A governed program that was run is a chain of steps. -/
lemma Governed.chain {m : Tx α} (hm : Governed h A m) {r : Except Err α}
    (hrun : m t = (r, t')) : ReflTransGen (StoreStep h A) t t' := by
  have := (hm t).1
  rwa [hrun] at this

lemma Governed.sound {m : Tx α} (hm : Governed h A m) {r : Except Err α}
    (hrun : m t = (r, t')) (hs : t.db.Sound h) : t'.db.Sound h :=
  (Governed.chain hm hrun).keeps (fun _ _ hstep => hstep.sound) hs

lemma calmAt_settleRevision (hs : t.db.Sound h) (rev : Int) (a : Actor) :
    CalmAt t (settleRevision host ws id rev a) := by
  refine (calm t).bind fun r t₁ hload => ?_
  obtain rfl := Reads.state_eq hload
  refine (calm t₁).bind fun pending t₂ hrev => ?_
  obtain ⟨-, rfl⟩ := getRevision_eq_ok.1 hrev
  refine (calm t₂).bind fun votes t₃ hvotes => ?_
  obtain rfl := Reads.state_eq hvotes
  split
  · refine (calm t₃).bind fun _ t₄ hrun => calmAt_settleEntry (h := h) host ?_ a
    exact Governed.sound (A := anyAct) (acceptRevision_governed _ _ a trivial trivial) hrun hs
  · refine (calm t₃).bind fun _ t₄ hrun =>
      calmAt_settleEntry (h := h) host ?_ a
    exact Governed.sound (A := anyAct) (rejectRevision_governed _ _ _ a trivial trivial) hrun hs
  · exact calm t₃

/-! ### The verdict in the store -/

/-- The store after it recorded a verdict of the actor on an entry. -/
structure Recorded (db db' : Db) (e : Entry) (i : VoteInput) (verdict : Verdict) (a : Actor) :
    Prop where
  entry : db'.entry e.id = some e
  peers : db.All Memory.Ballots → (db'.recordOf e).memory.peerApprovals.length
    = (db.recordOf e).memory.peersAfter (if i.revision = 0 then e.revision else i.revision)
      (principalKey (Text.trimSpace a.principal)) verdict
  row : (db'.recordOf e).memory.row = (db.recordOf e).memory.row

lemma recordVote_recorded {env : Env} {i : VoteInput} {verdict : Verdict}
    (he : t.db.entry i.entryId = some e)
    (hok : recordVote env { i with verdict := some verdict } a t = (.ok v, t')) :
    a.ok ∧ Recorded t.db t'.db e i verdict a := by
  obtain ⟨ha, _, cur, rv, ordinal, hverdict, hcur, hrv, rfl, aside⟩ := recordVote_eq_ok hok
  cases hverdict
  cases he.symm.trans hcur
  have hid : e.id = i.entryId := (Db.entry_mem he).2
  refine ⟨ha, ?_, fun hb => ?_, ?_⟩
  · rw [aside.entry, hid]
    exact he
  · have b := hb _ _ (Db.record_of_entry he)
    rw [aside.memory]
    have hrev : rv.revision = if i.revision = 0 then e.revision else i.revision := by
      simpa using List.find?_some hrv
    rw [← hrev]
    refine Eq.trans ?_ (b.peerApprovals_putVote (v := newVote env { i with verdict := some verdict }
      verdict e rv ordinal a) hid.symm rfl)
    have hrows := @rows_putVote (newVote env { i with verdict := some verdict } verdict e rv
      ordinal a) t.db.votes
    rw [show (newVote env { i with verdict := some verdict } verdict e rv ordinal a).entryId = e.id
      from hid.symm] at hrows
    exact congrArg (fun votes => (Memory.peerApprovals ⟨e.core, _, votes⟩).length) hrows
  · rw [aside.memory]
    rfl

/-! ### The collision -/

/-- The number of approvals the entry needs after the write. -/
def newGate (e : Entry) (db : Db) (voter : ContextActor) : Int :=
  regatedRequirement (projectEntry db e) voter.openMode host.requireMulti host.threshold

/-- The verdict raises the gate of an entry above the approvals that its label rests on: the store
takes the verdict; the entry is one of the open-mode identity, labelled `peer_verified` with a gate
of one; the write is authenticated, the gate is to follow a threshold above one, and fewer peers
than that approve of the served revision once the verdict is in. -/
structure Collides (db : Db) (e : Entry) (voter : ContextActor) (i : VoteInput)
    (verdict : Verdict) : Prop where
  taken : ∃ v t', recordVote host.toEnv { i with verdict := some verdict } (voter.storeActor host)
    db.start = (.ok v, t')
  openSource : isOpenModeIdentity e.source
  authenticated : voter.openMode = false
  gate : e.requiredVerifications ≤ 1
  strict : host.requireMulti ∨ e.requireVerification
  raised : 1 < host.threshold
  label : e.verificationMode = .peerVerified
  few : ((db.recordOf e).memory.peersAfter (if i.revision = 0 then e.revision else i.revision)
    (principalKey (Text.trimSpace (voter.storeActor host).principal)) verdict : Int)
      < host.threshold

lemma one_le_newGate (hreq : 1 ≤ e.requiredVerifications) (voter : ContextActor) :
    1 ≤ newGate host e db voter := by
  have hview : (projectEntry db e).requiredVerifications = e.requiredVerifications := rfl
  unfold newGate regatedRequirement
  split_ifs <;> omega

/-- A gate that is lowered never collides, so what collides is an authenticated write. -/
lemma newGate_short_iff (hreq : 1 ≤ e.requiredVerifications) (voter : ContextActor) {n : Nat}
    (hn : e.verificationMode = .peerVerified → e.requiredVerifications ≤ n + 1) :
    (newGate host e db voter ≠ e.requiredVerifications ∧ e.verificationMode = .peerVerified
        ∧ (n : Int) < newGate host e db voter)
      ↔ isOpenModeIdentity e.source ∧ voter.openMode = false ∧ e.requiredVerifications ≤ 1
        ∧ (host.requireMulti ∨ e.requireVerification) ∧ 1 < host.threshold
        ∧ e.verificationMode = .peerVerified ∧ (n : Int) < host.threshold := by
  have hgate : newGate host e db voter
      = if !isOpenModeIdentity e.source then e.requiredVerifications
        else if voter.openMode && !e.requireVerification then 1
        else if !voter.openMode && e.requiredVerifications ≤ 1
          && (host.requireMulti || e.requireVerification) then max host.threshold 1
        else e.requiredVerifications := rfl
  rw [hgate]
  by_cases hsource : isOpenModeIdentity e.source
  swap
  · simp [hsource]
  by_cases hlabel : e.verificationMode = .peerVerified
  swap
  · simp [hlabel]
  have hn := hn hlabel
  by_cases hopen : voter.openMode
  · simp only [hsource, hopen, Bool.not_true, Bool.false_eq_true, if_false, Bool.true_and,
      Bool.false_and, Bool.true_eq_false, false_and, and_false, iff_false]
    split_ifs <;> omega
  · by_cases hstrict : (host.requireMulti || e.requireVerification) = true
    · by_cases hone : e.requiredVerifications ≤ 1
      · have hstrict' : host.requireMulti = true ∨ e.requireVerification = true := by
          simpa using hstrict
        simp only [hsource, hopen, hstrict, hone, hlabel, hstrict', Bool.not_true, Bool.not_false,
          Bool.false_and, Bool.false_eq_true, if_false, decide_true, if_true, true_and,
          Bool.and_self]
        omega
      · simp [hsource, hopen, hone]
    · have hstrict' : ¬(host.requireMulti = true ∨ e.requireVerification = true) := by
        simpa using hstrict
      simp [hsource, hopen, hstrict, hstrict']

lemma calmAt_regate_iff (ha : a.ok) (hreq : 1 ≤ e.requiredVerifications)
    (he : t.db.entry e.id = some e) (live : e.lifecycle ≠ .purged) (voter : ContextActor) :
    CalmAt t (regate host (projectEntry db e) voter.openMode a)
      ↔ ¬(newGate host e db voter ≠ e.requiredVerifications
        ∧ e.verificationMode = .peerVerified
        ∧ ((t.db.recordOf e).memory.peerApprovals.length : Int) < newGate host e db voter) := by
  change CalmAt t (Program.when (newGate host e db voter ≠ e.requiredVerifications) (do
    let _ ← setRequiredVerifications host.toEnv e.id (newGate host e db voter) a)) ↔ _
  by_cases hne : newGate host e db voter = e.requiredVerifications
  · simp only [hne, ne_eq, not_true_eq_false, false_and, not_false_eq_true, iff_true]
    rw [Program.when, if_neg (not_not.2 hne)]
    exact calm t
  · rw [Program.when, if_pos hne]
    refine (failsIn_bind_iff fun _ t' _ => calm t').trans ?_
    rw [← CalmAt, calmAt_setRequiredVerifications_iff host.toEnv a ha
      (one_le_newGate host hreq voter) he live (Ne.symm hne)]
    rw [Memory.gated_shortfall_iff]
    simp only [ne_eq, hne, not_false_eq_true, true_and]
    rfl

/-- After the gate nothing meets the trigger. -/
lemma calmAt_settleVerdict_iff (hs : t.db.Sound h) (ce : ContextEntry) (voter : ContextActor)
    (a : Actor) (i : VoteInput) (verdict : Verdict) :
    CalmAt t (settleVerdict host ws e ce voter a i verdict)
      ↔ CalmAt t (regate host ce voter.openMode a) := by
  refine failsIn_bind_iff fun _ t₁ hrun => ?_
  have hs₁ : t₁.db.Sound h :=
    Governed.sound (A := anyAct) (regate_governed host (fun _ _ _ => trivial) _ _ _) hrun hs
  split
  · refine FailsIn.bind (calm t₁) fun _ t₂ hdiff => ?_
    obtain rfl := Reads.state_eq hdiff
    exact calmAt_settleRevision host hs₁ _ a
  · exact FailsIn.bind (calmAt_settleEntry host hs₁ a) fun out t₂ _ =>
      calm t₂

/-! ### The check at commit -/

/-- Acts other than verdicts, and verdicts on one entry. -/
def VotesOn (id : String) (i : String) (act : Act) : Prop := act = .vote → i = id

/-- Acts other than verdicts. -/
def NoVotes (_ : String) (act : Act) : Prop := act ≠ .vote

lemma routine_noVotes (i : String) (act : Act) (hact : Routine act) : NoVotes i act := by
  rintro rfl
  exact hact

lemma supported_chain (hsup : t.db.Supported) (chain : ReflTransGen (StoreStep h NoVotes) t t')
    (hs : t.db.Sound h) : t'.db.Supported := by
  have hshort : t.db.ShortIn fun _ => False := hsup
  exact hshort.chain (fun _ hvote => hvote rfl) chain hs

/-- Settling a verdict leaves every label supported. -/
lemma settleVerdict_supported (hs : t.db.Sound h) (he : t.db.entry e.id = some e)
    (hshort : t.db.ShortIn (· = e.id)) (i : VoteInput) (hid : i.entryId = e.id)
    (hpending : i.revision ≠ 0 ∧ i.revision ≠ e.revision →
      ¬(t.db.recordOf e).memory.shortfall) (ce : ContextEntry) (voter : ContextActor) (a : Actor)
    (verdict : Verdict) {out : ContextEntry × Bool}
    (hok : settleVerdict host ws e ce voter a i verdict t = (.ok out, t')) : t'.db.Supported := by
  obtain ⟨_, t₁, hgate, hok⟩ := bind_eq_ok.1 hok
  have hgate₁ : ReflTransGen (StoreStep h NoVotes) t t₁ :=
    Governed.chain (regate_governed host routine_noVotes _ _ _) hgate
  have hs₁ : t₁.db.Sound h := hgate₁.keeps (fun _ _ hstep => hstep.sound) hs
  split at hok
  · next hon =>
    -- a verdict on a pending edit takes no approval from the served revision
    have hsup : t.db.Supported := by
      refine hshort.supported ?_
      rintro _ rfl
      exact ⟨_, Db.record_of_entry he, hpending hon⟩
    obtain ⟨_, hdiff, hok⟩ := Reads.bind_eq_ok.1 hok
    refine supported_chain (supported_chain hsup hgate₁ hs) (Governed.chain ?_ hok) hs₁
    exact settleRevision_governed host routine_noVotes (fun _ hlabel => by cases hlabel) _ _
  · obtain ⟨out₁, t₂, hsettle, hok⟩ := bind_eq_ok.1 hok
    rw [hid] at hsettle
    have hlabels : ∀ promoted, NoVotes e.id (.label promoted) := fun _ hlabel => by cases hlabel
    have hgov : Governed h NoVotes (settleEntry host ws e.id a) :=
      settleEntry_governed host routine_noVotes hlabels a
    have hs₂ := Governed.sound hgov hsettle hs₁
    have hshort₂ : t₂.db.ShortIn (· = e.id) := by
      refine (hshort.chain (fun _ hvote => (hvote rfl).elim) hgate₁ hs).chain
        (fun _ hvote => (hvote rfl).elim) (Governed.chain hgov hsettle) hs₁
    -- the settled label has the support it needs
    have hsup : t₂.db.Supported := by
      refine hshort₂.supported ?_
      rintro _ rfl
      obtain ⟨e₁, he₁⟩ := Option.isSome_iff_exists.1
        (StoreStep.present hgate₁ hs (by rw [he]; rfl))
      have halong : Along (StoreStep h anyAct) t₁ t₁ (settleEntry host ws e.id a) _ :=
        settleEntry_along host (fun _ => trivial) (fun _ => trivial) a hs₁ he₁ fun _ _ => trivial
      obtain ⟨served, -, -, hat⟩ := halong.2 out₁ (by rw [hsettle])
      rw [hsettle] at hat
      refine hat.mono fun m hm => ?_
      rw [hm]
      exact settled_supported host (hs₁.chain he₁)
    refine supported_chain hsup (Governed.chain ?_ hok) hs₂
    exact afterSettling_governed host routine_noVotes e ce voter a i verdict out₁

/-- An update whose commit check finds nothing fails like its callback. -/
lemma update_calm_iff {fn : Tx α} (checked : ∀ a t, fn db.start = (.ok a, t) → t.violations = []) :
    (∀ err, (db.update fn).1 = .error err → err.kind ≠ .invariant) ↔ CalmAt db.start fn := by
  rcases hrun : fn db.start with ⟨err | a, t⟩
  · have hup : db.update fn = (.error err, db) := by
      rw [Db.update, bind_apply_error hrun]
    rw [hup, CalmAt, FailsIn, hrun]
  · have hup : db.update fn = (.ok a, t.db) := Db.update_eq_ok.2 ⟨t, hrun, checked a t hrun, rfl⟩
    rw [hup, CalmAt, FailsIn, hrun]

/-- A verdict that the kernel admits on an active entry meets the trigger of the store, or its check
at commit, exactly if it raises the gate of the entry above the approvals that the label rests on.
-/
theorem castVerdict_commits_iff (hr : Reachable host.toHashing db) {voter : ContextActor}
    {i : VoteInput} {verdict : Verdict} (he : db.entry i.entryId = some e)
    (hactive : e.lifecycle = .active)
    (hadmitted : admitVerdict host e i verdict voter db.start = (.ok (), db.start)) (ws : String) :
    (∀ err, (db.update (castVerdict host ws e (projectEntry db e) voter i verdict)).1 = .error err →
      err.kind ≠ .invariant) ↔ ¬Collides host db e voter i verdict := by
  obtain ⟨hmem, hid⟩ := Db.entry_mem he
  have hreq : 1 ≤ e.requiredVerifications := by
    have := hr.sound.wf.checked e hmem
    simp only [Entry.checked, decide_eq_true_eq] at this
    exact this.2.2.1
  have live : e.lifecycle ≠ .purged := by simp [hactive]
  have hsup := hr.supported _ _ (Db.record_of_entry he)
  have b := hr.ballots _ _ (Db.record_of_entry he)
  rcases hvote : recordVote host.toEnv { i with verdict := some verdict } (voter.storeActor host)
    db.start with ⟨err | v, t₁⟩
  · -- the store does not take the verdict, for another reason
    have hrun : castVerdict host ws e (projectEntry db e) voter i verdict db.start
        = (.error err, t₁) := by
      rw [castVerdict, bind_apply_ok hadmitted, bind_apply_error hvote]
    rw [update_calm_iff fun a t hok => by rw [hrun] at hok; cases hok]
    refine iff_of_true (fun err' herr => ?_) fun hc => ?_
    · rw [hrun] at herr
      cases herr
      exact calm db.start err (congrArg Prod.fst hvote)
    · obtain ⟨_, _, hok⟩ := hc.taken
      rw [hvote] at hok
      cases hok
  obtain ⟨ha, rec⟩ : (voter.storeActor host).ok
      ∧ Recorded db t₁.db e i verdict (voter.storeActor host) := recordVote_recorded he hvote
  have hgov : Governed host.toHashing (VotesOn e.id) (recordVote host.toEnv
      { i with verdict := some verdict } (voter.storeActor host)) :=
    recordVote_governed _ _ _ fun _ => hid.symm
  have hs₁ : t₁.db.Sound host.toHashing := Governed.sound hgov hvote hr.sound
  have hrun : castVerdict host ws e (projectEntry db e) voter i verdict db.start
      = settleVerdict host ws e (projectEntry db e) voter (voter.storeActor host) i verdict t₁ := by
    rw [castVerdict, bind_apply_ok hadmitted, bind_apply_ok hvote]
  have hcalm : CalmAt db.start (castVerdict host ws e (projectEntry db e) voter i verdict)
      ↔ CalmAt t₁ (settleVerdict host ws e (projectEntry db e) voter (voter.storeActor host) i
        verdict) := by
    unfold CalmAt FailsIn
    rw [hrun]
  have hpeers := rec.peers hr.ballots
  rw [update_calm_iff fun a t hok => ?_, hcalm, calmAt_settleVerdict_iff host hs₁,
    calmAt_regate_iff host ha hreq rec.entry live voter, hpeers, newGate_short_iff host hreq]
  · refine not_congr ⟨?_, ?_⟩
    · rintro ⟨hsource, hopen, hgate, hstrict, hraised, hlabel, hfew⟩
      exact ⟨⟨v, t₁, hvote⟩, hsource, hopen, hgate, hstrict, hraised, hlabel, hfew⟩
    · intro hc
      exact ⟨hc.openSource, hc.authenticated, hc.gate, hc.strict, hc.raised, hc.label, hc.few⟩
  · -- the label had its support, and one verdict takes at most one approval away
    intro hlabel
    have hle : e.requiredVerifications ≤ ((db.recordOf e).memory.peerApprovals.length : Int) :=
      Int.not_lt.1 fun hlt => hsup ⟨hlabel, hlt⟩
    have := b.le_peersAfter (if i.revision = 0 then e.revision else i.revision)
      (principalKey (Text.trimSpace (voter.storeActor host).principal)) verdict
    omega
  · rw [hrun] at hok
    have hshort : t₁.db.ShortIn (· = e.id) := by
      have hstart : db.start.db.ShortIn (· = e.id) :=
          fun i r hr' hs => (hr.supported i r hr' hs).elim
      exact hstart.chain (fun _ hA => hA rfl) (Governed.chain hgov hvote) hr.sound
    have hgov' : Governed host.toHashing anyAct (settleVerdict host ws e (projectEntry db e) voter
        (voter.storeActor host) i verdict) :=
      settleVerdict_governed host (fun _ _ _ => trivial) (fun _ => trivial) _ _ _ _ i rfl _
    refine (settleVerdict_supported host hs₁ rec.entry hshort i hid.symm ?_ _ _ _ _ hok).violations
      (Governed.sound hgov' hok hs₁).wf
    rintro ⟨hzero, hne⟩ ⟨hmode, hlt⟩
    rw [hpeers, if_neg hzero, Memory.peersAfter,
      if_neg (show i.revision ≠ (db.recordOf e).memory.row.revision from hne)] at hlt
    exact hsup ⟨hmode, hlt⟩

/-- An entry of the open-mode identity, labelled on the approval of one peer while one was enough.
-/
def lenientRun : List (List (Time × TxWrite)) :=
  [[(1, .insertEntry { id := "m", workspaceId := "w", content := "c", requiredVerifications := 1 }
      { principal := "anonymous" })],
    [(2, .recordVote { entryId := "m", revision := 1, verdict := some .approve }
      { principal := "bob" }),
      (3, .setPromotion "m" ⟨some .verified, true, some .peerVerified⟩ { principal := "bob" })]]

def lenientState : Db := Db.empty.history .plain lenientRun

/-- A second peer. -/
def carl : ContextActor := { id := "carl", owner := "carl" }

/-- The second peer's verdict on the served revision. -/
def secondVerdict : VoteInput :=
  { entryId := "m", revision := 1, verdict := some verdict }

/-- The verdict under the default settings, which ask for two approvals. -/
def castSecond (e : Entry) (verdict : Verdict) : Except Err (ContextEntry × Bool) :=
  (lenientState.update (castVerdict (Host.plain none) "w" e (projectEntry lenientState e) carl
    (secondVerdict verdict) verdict)).1

/-- The second verdict is admitted. -/
lemma lenientState_admits : ∃ e, lenientState.entry "m" = some e ∧ e.lifecycle = .active
    ∧ admitVerdict (Host.plain none) e (secondVerdict verdict) verdict carl lenientState.start
      = (.ok (), lenientState.start) := by
  have hrun : (lenientState.entry "m").any (fun e => e.lifecycle = .active
      ∧ (admitVerdict (Host.plain none) e (secondVerdict verdict) verdict carl
        lenientState.start).1.isOk) = true := by
    cases verdict <;> decide +kernel
  obtain ⟨e, he, hrun⟩ := (Option.any_eq_true _ _).1 hrun
  obtain ⟨hactive, hok⟩ := of_decide_eq_true hrun
  refine ⟨e, he, hactive, ?_⟩
  rcases hadmitted : admitVerdict (Host.plain none) e (secondVerdict verdict) verdict carl
    lenientState.start with ⟨err | _, t⟩ <;> rw [hadmitted] at hok
  · cases hok
  · rw [← Reads.state_eq hadmitted]

/-- A rejection is lost: it raises the gate to two while the label rests on one approval. -/
theorem castVerdict_reject_collides : ∃ e, Reachable .plain lenientState
    ∧ lenientState.entry "m" = some e ∧ e.lifecycle = .active
    ∧ admitVerdict (Host.plain none) e (secondVerdict .reject) .reject carl lenientState.start
      = (.ok (), lenientState.start)
    ∧ ∃ err, castSecond e .reject = .error err ∧ err.kind = .invariant := by
  obtain ⟨e, he, hactive, hadmitted⟩ := lenientState_admits .reject
  refine ⟨e, ⟨lenientRun, rfl⟩, he, hactive, hadmitted, ?_⟩
  have hrun : (lenientState.entry "m").any (fun e => (match castSecond e .reject with
      | .ok _ => false
      | .error err => decide (err.kind = .invariant))) = true := by
    decide +kernel
  rw [he, Option.any_some] at hrun
  split at hrun
  · cases hrun
  · next err herr => exact ⟨err, herr, of_decide_eq_true hrun⟩

/-- An approval gives the label its support before the gate is raised. -/
theorem castVerdict_approve_commits : ∃ e, lenientState.entry "m" = some e
    ∧ ∀ err, castSecond e .approve = .error err → err.kind ≠ .invariant := by
  obtain ⟨e, he, hactive, hadmitted⟩ := lenientState_admits .approve
  have hr : Reachable (Host.plain none).toHashing lenientState := ⟨lenientRun, rfl⟩
  refine ⟨e, he, (castVerdict_commits_iff (Host.plain none) hr he hactive hadmitted "w").2 ?_⟩
  intro hc
  have hpeers : (lenientState.entry "m").any (fun e => (2 : Int) ≤ (lenientState.recordOf e
      ).memory.peersAfter 1 (principalKey (Text.trimSpace "carl")) .approve) = true := by
    decide +kernel
  rw [he, Option.any_some, decide_eq_true_eq] at hpeers
  exact absurd hc.few (Int.not_lt.2 hpeers)

end WorkspaceOps
