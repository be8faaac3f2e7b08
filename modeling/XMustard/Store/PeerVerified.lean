import XMustard.Store.Ballots

/-!
# What `peer_verified` stands for

A memory labelled `peer_verified` has the approvals of enough distinct peers, on the revision it
serves and in its current vote epoch. Within a transaction the label may lose its support, but only
by a verdict, and a verdict marks its entry for the check at commit.
-/

namespace GovStore

open List Table Relation

variable {h : Hashing} {A : String → Act → Prop}

namespace Memory

variable {m m' : Memory}

/-! ### When the label loses its support -/

/-- The label and its support depend on these columns alone. -/
lemma shortfall_congr (row : EntryCore) (revs : List Revision)
    (hmode : row.verificationMode = m.row.verificationMode)
    (hreq : row.requiredVerifications = m.row.requiredVerifications)
    (hrev : row.revision = m.row.revision) (hepoch : row.voteEpoch = m.row.voteEpoch)
    (hkey : row.sourceKey = m.row.sourceKey)
    (hauthors : authorKeys ⟨row, revs, m.votes⟩ = m.authorKeys) :
    shortfall ⟨row, revs, m.votes⟩ ↔ m.shortfall := by
  have happ : peerApproves ⟨row, revs, m.votes⟩ = m.peerApproves := by
    funext v
    simp only [peerApproves, hepoch, hkey, hauthors]
  simp only [shortfall, peerApprovals, hmode, hreq, hrev, happ]

lemma authorKeys_update {row : EntryCore} {votes : List Vote} {p : Revision → Bool}
    {f : Revision → Revision} (hrev : row.revision = m.row.revision)
    (hf : ∀ x, (f x).revision = x.revision ∧ (f x).authorKey = x.authorKey) :
    authorKeys ⟨row, update p f m.revisions, votes⟩ = m.authorKeys := by
  simp only [authorKeys, hrev]
  induction m.revisions with
  | nil => rfl
  | cons x xs ih =>
    simp only [update, map_cons, filter_cons] at ih ⊢
    by_cases hp : p x
    · by_cases hx : x.revision = m.row.revision <;> simp [hp, hx, (hf x).1, (hf x).2, ih]
    · by_cases hx : x.revision = m.row.revision <;> simp [hp, hx, ih]

lemma not_shortfall_of_mode (hmode : m.row.verificationMode = .unset) : ¬m.shortfall := by
  rintro ⟨hpeer, -⟩
  rw [hmode] at hpeer
  cases hpeer

/-- Only a verdict can take the support from a label. -/
lemma Step.shortfall {act : Act} (c : m.Chain h) (hs : Memory.Step h act m m')
    (hshort : m'.shortfall) : m.shortfall ∨ act = .vote := by
  cases hs with
  | attach => exact .inl hshort
  | label _ _ _ _ _ _ _ supported | gate _ _ _ supported => exact absurd hshort supported
  | supersede | merge | retire | reopen =>
    exact .inl ((shortfall_congr _ _ rfl rfl rfl rfl rfl rfl).1 hshort)
  | restart | adopt | accept | purge => exact absurd hshort (not_shortfall_of_mode rfl)
  | propose _ x _ number =>
    -- the new revision is not the served one
    refine .inl ((shortfall_congr { m.row with headRevision := x.revision } _ rfl rfl rfl rfl rfl
      ?_).1 hshort)
    have : x.revision ≠ m.row.revision := by
      have := c.served_lt
      omega
    simp [authorKeys, filter_append, this]
  | reject _ x now _ _ _ revs votes row =>
    have hm' : m' = ⟨m'.row, update (fun y => y.revision = x.revision)
        (Revision.decide .rejected now) m.revisions, m.votes⟩ := by
      cases m'
      simp only [mk.injEq, true_and]
      exact ⟨revs, votes⟩
    rw [hm'] at hshort
    refine .inl ((shortfall_congr _ _ ?_ ?_ ?_ ?_ ?_ ?_).1 hshort)
    any_goals rw [row]
    exact authorKeys_update rfl fun _ => ⟨rfl, rfl⟩
  | vote => exact .inr rfl
  | seed _ v bare => exact absurd hshort (not_shortfall_of_mode bare)

end Memory

/-! ### Transactions -/

/-- Whoever lost the support of its label in the transaction is checked at commit. -/
def Txn.Covered (t : Txn) : Prop :=
  ∀ id r, t.db.record id = some r → r.memory.shortfall → t.covers id

/-- Every label of the database is supported. -/
def Db.Supported (db : Db) : Prop := db.All fun m => ¬m.shortfall

variable {db : Db}

lemma Db.Supported.start (hs : db.Supported) : db.start.Covered :=
  fun id r hr hshort => absurd hshort (hs id r hr)

variable {t t' : Txn}

/-- An entry whose label has no support after a step had none before, or got a verdict. -/
lemma StoreStep.shortfall (hs : StoreStep h A t t') (hdb : t.db.Sound h) {i : String}
    {r' : Record} (hr' : t'.db.record i = some r') (hshort : r'.memory.shortfall) :
    (∃ r, t.db.record i = some r ∧ r.memory.shortfall) ∨ (A i .vote ∧ t'.covers i) := by
  have hf := (hs hdb).2.2.fate i
  rw [hr'] at hf
  generalize hr : t.db.record i = r at hf
  cases hf with
  | kept => exact .inl ⟨r', rfl, hshort⟩
  | born newborn => exact absurd hshort (Memory.not_shortfall_of_mode newborn.mode)
  | acted allowed step covered =>
    rcases step.memory.shortfall (hdb.chained i _ hr) hshort with hold | rfl
    · exact .inl ⟨_, rfl, hold⟩
    · exact .inr ⟨allowed, covered rfl⟩
  | swept =>
    refine .inl ⟨_, rfl, (Memory.shortfall_congr _ _ rfl rfl rfl rfl rfl ?_).1 hshort⟩
    exact Memory.authorKeys_update rfl fun _ => ⟨rfl, rfl⟩

lemma StoreStep.covered (hs : StoreStep h A t t') (hdb : t.db.Sound h)
    (hc : t.Covered) : t'.Covered := by
  intro i r' hr' hshort
  rcases hs.shortfall hdb hr' hshort with ⟨r, hr, hold⟩ | ⟨-, hcov⟩
  · exact (hs hdb).2.1 i (hc i r hr hold)
  · exact hcov

/-- Every label without support is that of an entry in `S`. -/
def Db.ShortIn (db : Db) (S : String → Prop) : Prop :=
  ∀ i r, db.record i = some r → r.memory.shortfall → S i

variable {S : String → Prop}

lemma Db.ShortIn.supported (hS : db.ShortIn S)
    (hnot : ∀ i, S i → db.At i fun m => ¬m.shortfall) : db.Supported := by
  intro i r hr hshort
  obtain ⟨r', hr', hlong⟩ := hnot i (hS i r hr hshort)
  cases hr.symm.trans hr'
  exact hlong hshort

/-- Where only entries in `S` get verdicts, only they lose the support of their labels. -/
lemma StoreStep.shortIn (hvote : ∀ i, A i .vote → S i)
    (hs : StoreStep h A t t') (hdb : t.db.Sound h) (hS : t.db.ShortIn S) : t'.db.ShortIn S := by
  intro i r' hr' hshort
  rcases hs.shortfall hdb hr' hshort with ⟨r, hr, hold⟩ | ⟨hA, -⟩
  · exact hS i r hr hold
  · exact hvote i hA

lemma Db.ShortIn.chain (hS : t.db.ShortIn S)
    (hvote : ∀ i, A i .vote → S i) (chain : ReflTransGen (StoreStep h A) t t')
    (hdb : t.db.Sound h) : t'.db.ShortIn S := by
  have : t'.db.Sound h ∧ t'.db.ShortIn S := by
    refine chain.keeps (I := fun t => t.db.Sound h ∧ t.db.ShortIn S) ?_ ⟨hdb, hS⟩
    exact fun t t' hs ⟨hdb, hS⟩ => ⟨hs.sound hdb, hs.shortIn hvote hdb hS⟩
  exact this.2

/-- The commit check leaves no label without support. -/
lemma Txn.Covered.commit (hc : t.Covered) (checked : t.violations = []) :
    t.db.Supported := by
  intro id r hr hshort
  obtain ⟨he, hrec, hid⟩ := Db.record_eq_some hr
  have hcov : t.touchedAll ∨ r.row.id ∈ t.touched := hid ▸ hc id r hr hshort
  have hshort' : t.db.peerShortfall r.row := by
    rw [Db.peerShortfall_iff, ← hrec]
    exact hshort
  have : r.row ∈ t.violations := by
    refine mem_filter.2 ⟨(Db.entry_mem he).1, ?_⟩
    rcases hcov with hcov | hcov <;> simp [hcov, hshort']
  rw [checked] at this
  cases this

/-- Where every label is supported, the commit check finds nothing. -/
lemma Db.Supported.violations (hs : t.db.Supported) (wf : t.db.Wf) :
    t.violations = [] := by
  refine filter_eq_nil_iff.2 fun e he hviol => ?_
  have hshort := (Bool.and_eq_true_iff.1 hviol).2
  exact hs e.id _ (Db.record_of_entry (Db.entry_of_mem wf he)) ((t.db.peerShortfall_iff e).1 hshort)

lemma Reachable.supported (hr : Reachable h db) : db.Supported := by
  obtain ⟨txs, rfl⟩ := hr
  refine (Db.history_keeps (fun _ hs => hs.start) (fun _ _ hs hdb => hs.covered hdb)
    (fun _ _ hc checked => hc.commit checked) txs _ (.empty h) ?_).2
  exact fun _ _ hr => by cases hr

/-! ### The meaning of the label -/

/-- The peer approvals of a memory come from distinct peers. -/
lemma Memory.Ballots.peers {m : Memory} (b : m.Ballots) :
    (m.peerApprovals.map fun v => principalKey v.principal).Nodup := by
  have hsub : m.peerApprovals.Sublist m.votes := filter_sublist.trans filter_sublist
  have hpairs : (m.peerApprovals.map fun v => (v.revision, v.principalKey)).Nodup :=
    b.single.sublist (hsub.map _)
  refine (pairwise_map.1 hpairs).imp_of_mem ?_ |> pairwise_map.2
  intro v w hv hw hne heq
  have onServed : ∀ v ∈ m.peerApprovals, v.revision = m.row.revision := fun v hv => by
    simpa using (mem_filter.1 (mem_filter.1 hv).1).2
  apply hne
  rw [onServed v hv, onServed w hw, b.voters v (hsub.subset hv), b.voters w (hsub.subset hw), heq]

lemma Memory.Ballots.peer {m : Memory} (b : m.Ballots) {v : Vote} (hv : v ∈ m.peerApprovals) :
    v.entryId = m.row.id ∧ v.revision = m.row.revision ∧ v.epoch = m.row.voteEpoch
      ∧ v.verdict = .approve ∧ principalKey v.principal ≠ principalKey m.row.source
      ∧ (∀ x ∈ m.revisions, x.revision = m.row.revision →
          principalKey v.principal ≠ principalKey x.author)
      ∧ principalKey v.principal ≠ openModeIdentity := by
  obtain ⟨hon, happ⟩ := mem_filter.1 hv
  obtain ⟨hmem, hrev⟩ := mem_filter.1 hon
  simp only [peerApproves, decide_eq_true_eq] at happ hrev
  obtain ⟨hverdict, hepoch, hsource, hopen, hauthors⟩ := happ
  rw [b.voters v hmem] at hsource hopen hauthors
  rw [b.source] at hsource
  refine ⟨b.owned v hmem, hrev, hepoch, hverdict, hsource, fun x hx hserved heq => ?_, hopen⟩
  refine hauthors (mem_map.2 ⟨x, mem_filter.2 ⟨hx, by simp [hserved]⟩, ?_⟩)
  rw [b.authors x hx, heq]

/-- In every committed state, an entry labelled `peer_verified` has the approvals of enough distinct
principals on the revision it serves and in its current epoch. None of them is the source of the
entry, the author of that revision or the anonymous principal. -/
theorem peerVerified_supported {db : Db} (hr : Reachable h db) {e : Entry} (he : e ∈ db.entries)
    (hmode : e.verificationMode = .peerVerified) :
    ∃ votes : List Vote, votes.Sublist db.votes ∧ e.requiredVerifications ≤ votes.length
      ∧ (votes.map fun v => principalKey v.principal).Nodup
      ∧ ∀ v ∈ votes, v.entryId = e.id ∧ v.revision = e.revision ∧ v.epoch = e.voteEpoch
        ∧ v.verdict = .approve ∧ principalKey v.principal ≠ principalKey e.source
        ∧ (∀ x ∈ db.revisions, x.entryId = e.id → x.revision = e.revision →
            principalKey v.principal ≠ principalKey x.author)
        ∧ principalKey v.principal ≠ openModeIdentity := by
  have hrec := Db.record_of_entry (Db.entry_of_mem hr.sound.wf he)
  have hb := hr.ballots _ _ hrec
  have hlabel := hr.supported _ _ hrec
  refine ⟨(db.recordOf e).memory.peerApprovals, ?_, ?_, hb.peers, fun v hv => ?_⟩
  · exact (filter_sublist.trans filter_sublist).trans filter_sublist
  · by_contra hlt
    exact hlabel ⟨hmode, Int.not_le.1 hlt⟩
  · obtain ⟨hid, hrev, hepoch, hverdict, hsource, hauthors, hopen⟩ := hb.peer hv
    refine ⟨hid, hrev, hepoch, hverdict, hsource, fun x hx hentry hserved => ?_, hopen⟩
    exact hauthors x (mem_filter.2 ⟨hx, by simp [hentry]⟩) hserved

/-- One entry, approved by one peer and labelled. -/
def approvedRun : List (List (Time × TxWrite)) :=
  [[(1, .insertEntry { id := "m", workspaceId := "w", content := "c", requiredVerifications := 1 }
      { principal := "ann" })],
    [(2, .recordVote { entryId := "m", revision := 1, verdict := some .approve }
      { principal := "bob" }),
      (3, .setPromotion "m" ⟨some .verified, true, some .peerVerified⟩ { principal := "bob" })]]

theorem peerVerified_supported_approvedRun :
    ∃ e ∈ (Db.empty.history .plain approvedRun).entries, e.verificationMode = .peerVerified
      ∧ ∃ votes : List Vote, votes.Sublist (Db.empty.history .plain approvedRun).votes
        ∧ e.requiredVerifications ≤ votes.length := by
  obtain ⟨e, he, hmode⟩ : ∃ e ∈ (Db.empty.history .plain approvedRun).entries,
      e.verificationMode = .peerVerified := by decide +kernel
  obtain ⟨votes, hsub, hlen, -⟩ := peerVerified_supported ⟨approvedRun, rfl⟩ he hmode
  exact ⟨e, he, hmode, votes, hsub, hlen⟩

end GovStore
