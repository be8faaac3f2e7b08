import XMustard.Kernel.Verify
import XMustard.Store.Ballots

/-!
# The two counts of approvals

The kernel counts approvals over the view of an entry, agent by agent; the store counts vote rows.
Both go by the key of the voter, so on rows that hold one verdict of each voter they differ in the
approval of the open-mode identity alone, which is never a peer to the store.
-/

namespace WorkspaceOps

open List GovStore

variable {db : Db} {e : Entry} {rv : Revision} {votes : List Vote}
  {rev : Int} {v : Vote}

/-! ### The kernel's count -/

lemma agentKey_eq (agent : String) : agentKey agent = principalKey agent := by
  rw [agentKey, principalKey]

lemma mem_excludedKeys {key source author : String} (named : key ≠ "") :
    key ∈ excludedKeys [source, author] ↔ key = principalKey source
      ∨ key = principalKey author := by
  simp only [excludedKeys, mem_filter, map_cons, map_nil, mem_cons,
    not_mem_nil, or_false, agentKey_eq, decide_eq_true_eq]
  exact and_iff_left named

/-- Where each agent has a name and one verdict, all of them are the latest ones. -/
lemma latestVerdicts_eq {vs : List ContextVerification}
    (named : ∀ v ∈ vs, agentKey v.agent ≠ "") (single : (vs.map (agentKey ·.agent)).Nodup) :
    latestVerdicts vs = vs.map fun v => (agentKey v.agent, v.approve) := by
  -- the verdicts read so far are of other agents than those to come
  suffices hfold : ∀ (vs : List ContextVerification) (seen : List (String × Bool)),
      (∀ v ∈ vs, agentKey v.agent ≠ "") → (seen.map (·.1) ++ vs.map (agentKey ·.agent)).Nodup →
      vs.foldl noteVerdict seen = seen ++ vs.map fun v => (agentKey v.agent, v.approve) by
    exact hfold vs [] named (by simpa using single)
  intro vs
  induction vs with
  | nil => simp
  | cons v vs ih =>
    intro seen named distinct
    have hkept : seen.filter (fun p => p.1 ≠ agentKey v.agent) = seen := by
      refine filter_eq_self.2 fun p hp => decide_eq_true fun heq => ?_
      exact (nodup_append.1 distinct).2.2 p.1 (mem_map_of_mem hp) _
        (mem_cons_self ..) heq
    have hnote : noteVerdict seen v = seen ++ [(agentKey v.agent, v.approve)] := by
      rw [noteVerdict, if_neg (named v mem_cons_self), hkept]
    rw [foldl_cons, hnote, ih _ (fun w hw => named w (mem_cons_of_mem v hw))]
    · simp
    · simpa using distinct

/-- The verdicts of a view, read off the vote rows. -/
lemma latestVerdicts_verificationsOf
    (named : ∀ v ∈ votes, principalKey v.principal ≠ "")
    (single : (votes.map fun v => principalKey v.principal).Nodup) :
    latestVerdicts (verificationsOf votes)
      = (votes.filter fun v => v.verdict = .approve ∨ v.verdict = .reject).map
        fun v => (principalKey v.principal, decide (v.verdict = .approve)) := by
  have hsub : (votes.filter fun v => v.verdict = .approve ∨ v.verdict = .reject).Sublist votes :=
    filter_sublist
  rw [verificationsOf, latestVerdicts_eq]
  · simp only [map_map, agentKey_eq]
    rfl
  · intro w hw
    obtain ⟨v, hv, rfl⟩ := mem_map.1 hw
    rw [agentKey_eq]
    exact named v (hsub.subset hv)
  · simp only [map_map, agentKey_eq]
    exact single.sublist (hsub.map _)

/-- The approvals that the kernel counts, as a count of vote rows. -/
lemma distinctApprovals_verificationsOf (excluded : List String)
    (named : ∀ v ∈ votes, principalKey v.principal ≠ "")
    (single : (votes.map fun v => principalKey v.principal).Nodup) :
    (distinctApprovals (verificationsOf votes) excluded).1
      = votes.countP fun v =>
        v.verdict = .approve ∧ principalKey v.principal ∉ excludedKeys excluded
    := by
  unfold distinctApprovals
  dsimp only
  rw [latestVerdicts_verificationsOf named single, countP_filter, countP_map,
    countP_filter]
  refine countP_congr fun v _ => ?_
  simp only [Function.comp_apply, Bool.and_eq_true, decide_eq_true_eq]
  constructor
  · rintro ⟨⟨happ, hkey⟩, -⟩
    exact ⟨happ, hkey⟩
  · rintro ⟨happ, hkey⟩
    exact ⟨⟨happ, hkey⟩, .inl happ⟩

/-! ### Rows with one verdict of each voter -/

lemma servedVotes_perm (db : Db) (e : Entry) :
    (servedVotes db e).Perm (db.countingVotes e e.revision) :=
  perm_insertionSort _ _

lemma countingVotes_mem (hv : v ∈ db.countingVotes e rev) : v ∈ (db.recordOf e).memory.votes :=
  (filter_sublist.trans filter_sublist).subset hv

/-- An approval of the open-mode identity in the current epoch, on an entry that it did not source
and a revision that it did not write. -/
def openModeCounts (db : Db) (e : Entry) (rv : Revision) : Prop :=
  (∃ v ∈ db.countingVotes e e.revision, v.verdict = .approve
      ∧ principalKey v.principal = openModeIdentity)
    ∧ principalKey e.source ≠ openModeIdentity ∧ principalKey rv.author ≠ openModeIdentity

instance (db : Db) (e : Entry) (rv : Revision) : Decidable (openModeCounts db e rv) :=
  inferInstanceAs (Decidable (_ ∧ _))

section ballots

variable (b : (db.recordOf e).memory.Ballots)

include b

lemma countingVotes_named (hv : v ∈ db.countingVotes e rev) : principalKey v.principal ≠ "" := by
  have hmem := countingVotes_mem hv
  rw [← b.voters v hmem]
  exact b.named v hmem

/-- The voters on one revision are distinct. -/
lemma countingVotes_single (rev : Int) :
    ((db.countingVotes e rev).map fun v => principalKey v.principal).Nodup := by
  have hsub : (db.countingVotes e rev).Sublist (db.recordOf e).memory.votes :=
    filter_sublist.trans filter_sublist
  have hpairs := b.single.sublist (hsub.map fun v => (v.revision, v.principalKey))
  refine pairwise_map.2 ((pairwise_map.1 hpairs).imp_of_mem ?_)
  intro v w hv hw hne heq
  have onRev : ∀ v ∈ db.countingVotes e rev, v.revision = rev := fun v hv => by
    simpa using (mem_filter.1 (mem_filter.1 hv).1).2
  apply hne
  rw [onRev v hv, onRev w hw, b.voters v (hsub.subset hv), b.voters w (hsub.subset hw), heq]

lemma revisionRow_author (hrv : db.revisionRow e.id e.revision = some rv) :
    rv.authorKey = principalKey rv.author :=
  b.authors rv (mem_of_find?_eq_some hrv)

/-! ### The counts compared -/

/-- The open-mode identity has one voice. -/
lemma countP_openMode : ((db.countingVotes e e.revision).countP fun v => v.verdict = .approve
      ∧ principalKey v.principal = openModeIdentity
      ∧ principalKey v.principal ≠ principalKey e.source
      ∧ principalKey v.principal ≠ principalKey rv.author)
      = if openModeCounts db e rv then 1 else 0 := by
  let p (v : Vote) : Bool := v.verdict = .approve ∧ principalKey v.principal = openModeIdentity
    ∧ principalKey v.principal ≠ principalKey e.source
    ∧ principalKey v.principal ≠ principalKey rv.author
  change (db.countingVotes e e.revision).countP p = _
  have hle : (db.countingVotes e e.revision).countP p ≤ 1 := by
    have hcount := nodup_iff_count_le_one.1 (countingVotes_single b e.revision) openModeIdentity
    rw [List.count, countP_map] at hcount
    refine Nat.le_trans (countP_mono_left fun v _ hv => ?_) hcount
    simpa [p] using (of_decide_eq_true hv).2.1
  split
  · next hopen =>
    obtain ⟨⟨v, hv, happ, hkey⟩, hsource, hauthor⟩ := hopen
    have hpos : 0 < (db.countingVotes e e.revision).countP p := by
      refine countP_pos_iff.2 ⟨v, hv, decide_eq_true ⟨happ, hkey, ?_⟩⟩
      rw [hkey]
      exact ⟨hsource.symm, hauthor.symm⟩
    omega
  · next hopen =>
    refine countP_eq_zero.2 fun v hv hpv => hopen ?_
    obtain ⟨happ, hkey, hsource, hauthor⟩ := of_decide_eq_true hpv
    rw [hkey] at hsource hauthor
    exact ⟨⟨v, hv, happ, hkey⟩, hsource.symm, hauthor.symm⟩

lemma tally_peerApprovals (hrv : db.revisionRow e.id e.revision = some rv) :
    (db.tally e e.revision).peerApprovals
      = (db.countingVotes e e.revision).countP fun v => v.verdict = .approve
        ∧ principalKey v.principal ≠ openModeIdentity
        ∧ principalKey v.principal ≠ principalKey e.source
        ∧ principalKey v.principal ≠ principalKey rv.author := by
  have hauthor : db.authorKey e e.revision = principalKey rv.author := by
    rw [Db.authorKey, hrv, ← revisionRow_author b hrv]
    rfl
  have hsource : e.sourceKey = principalKey e.source := b.source
  unfold Db.tally
  dsimp only
  rw [hauthor, hsource]
  refine countP_congr fun v hv => ?_
  rw [b.voters v (countingVotes_mem hv)]
  generalize principalKey v.principal = key, principalKey e.source = source,
    principalKey rv.author = author
  simp only [mem_cons, not_mem_nil, or_false, not_or, Bool.and_eq_true,
    decide_eq_true_eq]
  tauto

/-- Above a requirement of one, the kernel counts the peers of the store and the open-mode
identity. -/
lemma distinctApprovals_eq (hrv : db.revisionRow e.id e.revision = some rv)
    (hreq : 1 < e.requiredVerifications) :
    (distinctApprovals (projectEntry db e).verifications
        (excludedAuthors (projectEntry db e) rv.author)).1
      = (db.tally e e.revision).peerApprovals + if openModeCounts db e rv then 1 else 0 := by
  have hperm := servedVotes_perm db e
  have hexcl : excludedAuthors (projectEntry db e) rv.author = [e.source, rv.author] := if_pos hreq
  have hview : (projectEntry db e).verifications = verificationsOf (servedVotes db e) := rfl
  rw [hview, hexcl, distinctApprovals_verificationsOf, hperm.countP_eq, tally_peerApprovals b hrv,
    ← countP_openMode b]
  · -- an approval by neither author is a peer's or the open-mode identity's
    rw [countP_eq_countP_filter_add _ _ fun v => principalKey v.principal ≠ openModeIdentity,
      countP_filter, countP_filter]
    congr 1
    · refine countP_congr fun v hv => ?_
      simp only [mem_excludedKeys (countingVotes_named b hv), Bool.and_eq_true, decide_eq_true_eq]
      generalize principalKey v.principal = key, principalKey e.source = source,
        principalKey rv.author = author
      tauto
    · refine countP_congr fun v hv => ?_
      simp only [mem_excludedKeys (countingVotes_named b hv), Bool.and_eq_true, decide_eq_true_eq,
        Bool.not_eq_true', decide_eq_false_iff_not, not_not]
      generalize principalKey v.principal = key, principalKey e.source = source,
        principalKey rv.author = author
      tauto
  · exact fun v hv => countingVotes_named b (hperm.subset hv)
  · exact (hperm.map _).nodup_iff.2 (countingVotes_single b e.revision)

lemma tally_openModeApproved :
    (db.tally e rev).openModeApproved = true ↔ ∃ v ∈ db.countingVotes e rev,
      v.verdict = .approve ∧ principalKey v.principal = openModeIdentity := by
  simp only [Db.tally, any_eq_true, decide_eq_true_eq]
  refine exists_congr fun v => and_congr_right fun hv => ?_
  rw [b.voters v (countingVotes_mem hv)]

/-- An assertion that stands has an approval of the open-mode identity. -/
lemma openModeAssertionStands_approved (hstands : openModeAssertionStands (projectEntry db e)) :
    ∃ v ∈ db.countingVotes e e.revision, v.verdict = .approve
      ∧ principalKey v.principal = openModeIdentity := by
  have hperm := servedVotes_perm db e
  have hlatest := latestVerdicts_verificationsOf
    (fun v hv => countingVotes_named b (hperm.subset hv))
    ((hperm.map _).nodup_iff.2 (countingVotes_single b e.revision))
  have hview : (projectEntry db e).verifications = verificationsOf (servedVotes db e) := rfl
  simp only [openModeAssertionStands, Bool.and_eq_true, hview, hlatest, all_eq_true,
    any_eq_true, mem_map, decide_eq_true_eq] at hstands
  obtain ⟨⟨-, hall⟩, _, ⟨v, hv, rfl⟩, hkey⟩ := hstands
  have happ : v.verdict = .approve := of_decide_eq_true (hall _ ⟨v, hv, rfl⟩)
  exact ⟨v, hperm.subset (mem_of_mem_filter hv), happ, hkey⟩

end ballots

end WorkspaceOps
