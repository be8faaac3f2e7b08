import XMustard.Kernel.Settling
import XMustard.Kernel.Tally
import XMustard.Store.Calm

/-!
# The label that settling writes

The kernel decides by its own count whether an entry is promoted, and reads the label off the
store's tally. Wherever more than one approval is needed the two agree: what is promoted without
enough peers has the approval of the open-mode identity, and says so.
-/

namespace WorkspaceOps

open List GovStore Program

variable (host : Host) {h : Hashing} {t : Txn} {db : Db} {id ws : String} {e : Entry}
  {served : Revision}

/-! ### The tally and the trigger -/

/-- The served revision is there. -/
lemma revisionRow_served (c : (db.recordOf e).memory.Chain h) :
    ∃ served, db.revisionRow e.id e.revision = some served := by
  obtain ⟨x, hx, hrev, -⟩ := c.served
  match hfind : db.revisionRow e.id e.revision with
  | some y => exact ⟨y, rfl⟩
  | none =>
    have := List.find?_eq_none.1 hfind x hx
    simp [hrev, Record.memory, Db.recordOf, Entry.core] at this

/-- The tally and the trigger count the same peers. -/
lemma tally_peers (c : (db.recordOf e).memory.Chain h) :
    (db.tally e e.revision).peerApprovals = (db.recordOf e).memory.peerApprovals.length := by
  obtain ⟨x, hrow⟩ := revisionRow_served c
  have hx : x ∈ (db.recordOf e).memory.revisions := mem_of_find?_eq_some hrow
  have hrev : x.revision = e.revision := by simpa using List.find?_some hrow
  -- one revision has the number, so it has one author
  have hauthors : ∀ key : String,
      key ∈ (db.recordOf e).memory.authorKeys ↔ key = db.authorKey e e.revision := by
    intro key
    simp only [Db.authorKey, hrow, Option.map_some, Option.getD_some, Memory.authorKeys,
      mem_map, mem_filter, decide_eq_true_eq]
    constructor
    · rintro ⟨y, ⟨hy, hyrev⟩, rfl⟩
      rw [c.eq_of_revision hy hx (hyrev.trans hrev.symm)]
    · rintro rfl
      exact ⟨x, ⟨hx, hrev⟩, rfl⟩
  have hcount : (db.tally e e.revision).peerApprovals
      = ((db.recordOf e).memory.votes.filter fun v => v.revision = e.revision).countP
        fun v => (v.verdict = .approve ∧ v.principalKey ∉ [e.sourceKey, db.authorKey e e.revision]
          ∧ v.principalKey ≠ openModeIdentity) ∧ v.epoch = e.voteEpoch := by
    simp only [Db.tally, Db.countingVotes]
    rw [countP_filter]
    refine countP_congr fun v _ => ?_
    simp [and_assoc]
  rw [hcount, countP_eq_length_filter]
  congr 1
  refine filter_congr fun v _ => ?_
  simp only [Memory.peerApproves, hauthors, decide_eq_decide]
  simp only [mem_cons, not_mem_nil, or_false, not_or]
  tauto

lemma peers_of_verificationMode {tally : Tally} {required threshold : Int}
    (hmode : verificationMode tally required threshold = .peerVerified) :
    required ≤ tally.peerApprovals := by
  simp only [verificationMode] at hmode
  by_cases hone : required ≤ 1
  · rw [if_pos hone] at hmode
    split_ifs at hmode with hpeers
    omega
  · rw [if_neg hone] at hmode
    split_ifs at hmode with hpeers
    exact hpeers

/-- The label of a settled entry has the support it needs. -/
lemma settled_supported (c : (db.recordOf e).memory.Chain h) :
    ¬(settled host db e served).shortfall := by
  rintro ⟨hmode, hshort⟩
  change settledMode host db e _ = .peerVerified at hmode
  change ((db.recordOf e).memory.peerApprovals.length : Int) < e.requiredVerifications at hshort
  rw [← tally_peers c] at hshort
  unfold settledMode at hmode
  split at hmode
  · have := peers_of_verificationMode hmode
    omega
  · cases hmode

/-! ### The kernel's promotions -/

section

variable (b : (db.recordOf e).memory.Ballots)
  (hserved : db.revisionRow e.id e.revision = some served) (hreq : 1 < e.requiredVerifications)
  (hp : (settledVerdict db e served).2)
include b hserved hreq hp

/-- A promotion above a requirement of one has enough peers or the open-mode identity. -/
lemma promoted_openModeApproved
    (hfew : ((db.tally e e.revision).peerApprovals : Int) < e.requiredVerifications) :
    (db.tally e e.revision).openModeApproved := by
  rw [tally_openModeApproved b]
  have hcount := distinctApprovals_eq b hserved hreq
  unfold settledVerdict reconcileEntry at hp
  dsimp only at hp
  split at hp
  · cases hp
  split at hp
  · next hwins =>
    rcases hwins with hwins | hstands
    · by_cases hopen : openModeCounts db e served
      · exact hopen.1
      · rw [hcount, if_neg hopen] at hwins
        have : (projectEntry db e).requiredVerifications = e.requiredVerifications := rfl
        omega
    · exact openModeAssertionStands_approved b hstands
  · cases hp

lemma settledMode_promoted : settledMode host db e (settledVerdict db e served).2
      = if e.requiredVerifications ≤ (db.tally e e.revision).peerApprovals then .peerVerified
        else .selfAssertedOpenMode := by
  rw [settledMode, if_pos hp, verificationMode, if_neg (Int.not_le.2 hreq)]
  split
  · rfl
  · next hfew => rw [if_pos (promoted_openModeApproved b hserved hreq hp (Int.not_le.1 hfew))]

end

/-! ### Settling never meets the trigger -/

instance ordinary_notExist : Fact notExist.Ordinary := ordinary_notFound _

instance plain_loadAnyEntryTx (ws id : String) : Plain (loadAnyEntryTx ws id) := .bind

instance plain_loadEntryTx (ws id : String) : Plain (loadEntryTx ws id) := .bind

instance plain_liveSupersedes (e : Entry) (req : ScopeRequest) (ids : List String) :
    Plain (liveSupersedes e req ids) := by
  induction ids <;> unfold liveSupersedes <;> infer_instance

instance plain_afterPromotion (e : Entry) (ce : ContextEntry) (a : Actor) :
    Plain (afterPromotion host e ce a) := by
  unfold afterPromotion applySupersession
  infer_instance

lemma calmAt_settleEntry (hs : t.db.Sound h) (a : Actor) :
    CalmAt t (settleEntry host ws id a) := by
  refine (calm t).bind fun r t₁ hload => ?_
  obtain rfl := Reads.state_eq hload
  obtain ⟨he, hview, -⟩ := loadEntryTx_eq_ok hload
  refine (calm t₁).bind fun served t₂ hserved => ?_
  obtain ⟨hserved, rfl⟩ := getRevision_eq_ok.1 hserved
  have hmode := promotionMode_eq_ok host he (settledVerdict t₂.db r.1 served).2
  rw [hview]
  refine (failsIn_of_ok hmode).bind fun mode t₃ hrun => ?_
  obtain ⟨rfl, rfl⟩ : settledMode host t₂.db r.1 (settledVerdict t₂.db r.1 served).2 = mode
      ∧ t₂ = t₃ := by simpa [hmode] using hrun
  refine FailsIn.bind (calmAt_setPromotion _ a he _ fun status mode hstatus hmode hunset => ?_)
    fun e' t₄ _ => ?_
  · have hset : ¬(settled host t₂.db r.1 served).shortfall :=
      settled_supported host (hs.chain he)
    cases hstatus
    by_cases hp : (settledVerdict t₂.db r.1 served).2
    · rw [← Option.some.inj (hmode hp)]
      exact hset
    · rw [hunset hp]
      rw [settled, settledMode, if_neg hp] at hset
      exact hset
  · split
    · exact calm t₄
    · exact calm t₄

/-! ### Agreement of the two counts -/

/-- The row of a memory at the end of a run. -/
lemma Db.At.entry {m : Memory} (hat : db.At id (· = m)) :
    ∃ e', db.entry id = some e' ∧ (db.recordOf e').memory = m := by
  obtain ⟨r, hr, hm⟩ := hat
  obtain ⟨he, hrec, -⟩ := Db.record_eq_some hr
  exact ⟨r.row, he, hrec ▸ hm⟩

/-- Where more than one approval is needed, the kernel counts the store's peers and, apart from its
own entries and revisions, the open-mode identity. What it promotes is labelled by the peers alone,
and the label passes the trigger of the store. -/
theorem settleEntry_label (hs : t.db.Sound h) (hb : t.db.All Memory.Ballots)
    (he : t.db.entry id = some e) (hreq : 1 < e.requiredVerifications) (ws : String) (a : Actor) :
    (∃ served, t.db.revisionRow id e.revision = some served
      ∧ (distinctApprovals (projectEntry t.db e).verifications
          (excludedAuthors (projectEntry t.db e) served.author)).1
        = (t.db.tally e e.revision).peerApprovals
          + if openModeCounts t.db e served then 1 else 0)
    ∧ (∀ err t', settleEntry host ws id a t = (.error err, t') → err.kind ≠ .invariant)
    ∧ ∀ out t', settleEntry host ws id a t = (.ok out, t') →
      ∃ e', t'.db.entry id = some e' ∧ t'.db.peerShortfall e' = false
        ∧ e'.requiredVerifications = e.requiredVerifications
        ∧ (e'.promoted → e'.verificationMode
          = if e.requiredVerifications ≤ (t.db.tally e e.revision).peerApprovals
            then .peerVerified else .selfAssertedOpenMode) := by
  obtain rfl : e.id = id := (Db.entry_mem he).2
  have c := hs.chain he
  have b := hb _ _ (Db.record_of_entry he)
  refine ⟨?_, ?_, ?_⟩
  · obtain ⟨served, hserved⟩ := revisionRow_served c
    exact ⟨served, hserved, distinctApprovals_eq b hserved hreq⟩
  · intro err t' hrun
    exact calmAt_settleEntry host hs a err (by rw [hrun])
  · intro out t' hrun
    have hset : Along (StoreStep h anyAct) t t (settleEntry host ws e.id a) _ :=
      settleEntry_along host (fun _ => trivial) (fun _ => trivial) a hs he fun _ _ => trivial
    obtain ⟨served, hserved, -, hat⟩ := hset.2 out (by rw [hrun])
    rw [hrun] at hat
    obtain ⟨e', he', hm⟩ := Db.At.entry hat
    have hrow : e'.core = (settled host t.db e served).row := congrArg Memory.row hm
    refine ⟨e', he', ?_, congrArg EntryCore.requiredVerifications hrow, fun hp => ?_⟩
    · rw [Bool.eq_false_iff, ne_eq, Db.peerShortfall_iff, hm]
      exact settled_supported host c
    · have hp' : (settledVerdict t.db e served).2 = e'.promoted :=
        (congrArg EntryCore.promoted hrow).symm
      have hmode := settledMode_promoted host b hserved hreq (hp'.trans hp)
      exact (congrArg EntryCore.verificationMode hrow).trans hmode

/-- An entry that needs two approvals and has those of one peer and of the open-mode identity. -/
def mixedRun : List (List (Time × TxWrite)) :=
  [[(1, .insertEntry { id := "m", workspaceId := "w", content := "c", requiredVerifications := 2 }
      { principal := "ann" }),
    (2, .recordVote { entryId := "m", revision := 1, verdict := some .approve }
      { principal := "Bob" }),
    (3, .recordVote { entryId := "m", revision := 1, verdict := some .approve }
      { principal := "Anonymous" })]]

def mixedState : Txn := (Db.empty.history .plain mixedRun).start

theorem settleEntry_label_mixedState :
    ∃ e out t' e', mixedState.db.entry "m" = some e ∧ 1 < e.requiredVerifications
      ∧ settleEntry (Host.plain none) "w" "m" { principal := "Bob" } mixedState = (.ok out, t')
      ∧ t'.db.entry "m" = some e' ∧ e'.promoted
      ∧ e'.verificationMode = .selfAssertedOpenMode := by
  have hr : Reachable .plain mixedState.db := ⟨mixedRun, rfl⟩
  have hpre : (mixedState.db.entry "m").any (fun e => 1 < e.requiredVerifications
      ∧ ¬e.requiredVerifications ≤ (mixedState.db.tally e e.revision).peerApprovals) = true := by
    decide +kernel
  obtain ⟨e, he, hreq⟩ := (Option.any_eq_true _ _).1 hpre
  obtain ⟨hreq, hfew⟩ := of_decide_eq_true hreq
  obtain ⟨-, -, hlabel⟩ := settleEntry_label (Host.plain none) hr.sound hr.ballots he hreq "w"
    { principal := "Bob" }
  have hok : (settleEntry (Host.plain none) "w" "m" { principal := "Bob" } mixedState).1.isOk
      ∧ ((settleEntry (Host.plain none) "w" "m" { principal := "Bob" } mixedState).2.db.entry
        "m").any (·.promoted) = true := by
    decide +kernel
  rcases hrun : settleEntry (Host.plain none) "w" "m" { principal := "Bob" } mixedState with
    ⟨_ | out, t'⟩
  · rw [hrun] at hok
    cases hok.1
  · obtain ⟨e', he', -, -, hmode⟩ := hlabel out t' hrun
    rw [hrun] at hok
    have hp : e'.promoted = true := by simpa [he'] using hok.2
    refine ⟨e, out, t', e', he, hreq, rfl, he', hp, ?_⟩
    rw [hmode hp, if_neg hfew]

end WorkspaceOps
