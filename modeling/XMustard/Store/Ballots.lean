import XMustard.Store.History

/-!
# Ballots

Voters and authors are stored with the keys they are compared by. Each voter has one verdict on a
revision, and a verdict is never from an epoch that has not begun.
-/

namespace GovStore

open List Table

variable {h : Hashing}

namespace Memory

variable {m m' : Memory}

/-- The voters and authors of a memory are stored under their keys, each voter has one verdict on
a revision, and no verdict is from a later epoch. -/
structure Ballots (m : Memory) : Prop where
  source : m.row.sourceKey = principalKey m.row.source
  authors : ∀ x ∈ m.revisions, x.authorKey = principalKey x.author
  owned : ∀ v ∈ m.votes, v.entryId = m.row.id
  voters : ∀ v ∈ m.votes, v.principalKey = principalKey v.principal
  named : ∀ v ∈ m.votes, v.principalKey ≠ ""
  single : (m.votes.map fun v => (v.revision, v.principalKey)).Nodup
  epochs : ∀ v ∈ m.votes, v.epoch ≤ m.row.voteEpoch

namespace Ballots

/-- Acts that cast no verdict, drop no author and start no earlier epoch. -/
lemma frame (b : m.Ballots) (row : EntryCore) (revs : List Revision)
    (hid : row.id = m.row.id) (hsource : row.source = m.row.source)
    (hkey : row.sourceKey = m.row.sourceKey) (hepoch : m.row.voteEpoch ≤ row.voteEpoch)
    (hauthors : ∀ x ∈ revs, x.authorKey = principalKey x.author) :
    Ballots ⟨row, revs, m.votes⟩ where
  source := by rw [hkey, hsource]; exact b.source
  authors := hauthors
  owned := by rw [hid]; exact b.owned
  voters := b.voters
  named := b.named
  single := b.single
  epochs v hv := Int.le_trans (b.epochs v hv) hepoch

variable {p : Revision → Bool} {v : Vote}

lemma authors_update (b : m.Ballots) {f : Revision → Revision}
    (hf : ∀ x, (f x).authorKey = x.authorKey ∧ (f x).author = x.author) :
    ∀ x ∈ update p f m.revisions, x.authorKey = principalKey x.author :=
  forall_mem_update b.authors fun x hx => by rw [(hf x).1, (hf x).2, hx]

lemma authors_append (b : m.Ballots) {base : Int} {x : Revision}
    (written : Written h m.row.id base x) :
    ∀ y ∈ m.revisions ++ [x], y.authorKey = principalKey y.author := by
  intro y hy
  rcases mem_append.1 hy with hy | hy
  · exact b.authors y hy
  · rw [mem_singleton.1 hy]
    exact written.2.2.1

/-- Verdicts that were held before or are cast now. -/
lemma of_votes (b : m.Ballots) {votes : List Vote} (mem : ∀ w ∈ votes, w ∈ m.votes ∨ m.Cast w)
    (single : (votes.map fun v => (v.revision, v.principalKey)).Nodup) :
    Ballots { m with votes := votes } where
  source := b.source
  authors := b.authors
  owned w hw := (mem w hw).elim (b.owned w) (·.entryId)
  voters w hw := (mem w hw).elim (b.voters w) (·.key)
  named w hw := (mem w hw).elim (b.named w) (·.named)
  single := single
  epochs w hw := (mem w hw).elim (b.epochs w) fun cast => Int.le_of_eq cast.epoch

/-- A verdict that is added as a new one. -/
lemma append (b : m.Ballots) (cast : m.Cast v)
    (fresh : m.votes.any v.sameKey = false) : Ballots { m with votes := m.votes ++ [v] } := by
  refine b.of_votes (fun w hw => ?_) (nodup_append_row b.single fun w hw hkey => ?_)
  · rcases mem_append.1 hw with hw | hw
    · exact .inl hw
    · exact .inr (mem_singleton.1 hw ▸ cast)
  · rw [Prod.mk.injEq] at hkey
    have hsame : v.sameKey w :=
      Vote.sameKey_iff.2 ⟨(b.owned w hw).trans cast.entryId.symm, hkey⟩
    exact any_eq_false.1 fresh w hw hsame

lemma putVote (b : m.Ballots) (cast : m.Cast v) :
    Ballots { m with votes := putVote v m.votes } := by
  by_cases hany : m.votes.any v.sameKey
  · -- the verdict replaces one of the same voter on the same revision
    have hput : GovStore.putVote v m.votes = update v.sameKey v.withOrdinal m.votes := by
      simp [GovStore.putVote, upsert, hany]
    rw [hput]
    apply b.of_votes
    · intro w hw
      rcases mem_update_cases hw with ⟨w₀, -, -, rfl⟩ | ⟨hw, -⟩
      · exact .inr ⟨cast.entryId, cast.key, cast.epoch, cast.named⟩
      · exact .inl hw
    · rw [map_update fun w _ hw => ?_]
      · exact b.single
      · obtain ⟨-, hrev, hkey⟩ := Vote.sameKey_iff.1 hw
        simp [Vote.withOrdinal, hrev, hkey]
  · have hput : GovStore.putVote v m.votes = m.votes ++ [v] := by
      simp [GovStore.putVote, upsert, hany]
    rw [hput]
    exact b.append cast (by simpa using hany)

lemma newborn (nb : Newborn h m) : m.Ballots := by
  obtain ⟨x, hxs, -, -, written, -⟩ := nb.first
  refine ⟨nb.sourceKey, ?_, by simp [nb.votes], by simp [nb.votes], by simp [nb.votes],
    by simp [nb.votes], by simp [nb.votes]⟩
  simpa [hxs] using written.2.2.1

lemma purge (b : m.Ballots) (now : Time) {row : EntryCore} (hid : row.id = m.row.id)
    (hsource : row.source = m.row.source) (hkey : row.sourceKey = m.row.sourceKey)
    (hepoch : row.voteEpoch = m.row.voteEpoch) :
    Ballots ⟨row, m.revisions.map (Revision.tombstone now),
      m.votes.map fun v => { v with note := "" }⟩ where
  source := by rw [hkey, hsource]; exact b.source
  authors x hx := by
    obtain ⟨y, hy, rfl⟩ := mem_map.1 hx
    exact b.authors y hy
  owned v hv := by
    obtain ⟨w, hw, rfl⟩ := mem_map.1 hv
    exact (b.owned w hw).trans hid.symm
  voters v hv := by
    obtain ⟨w, hw, rfl⟩ := mem_map.1 hv
    exact b.voters w hw
  named v hv := by
    obtain ⟨w, hw, rfl⟩ := List.mem_map.1 hv
    exact b.named w hw
  single := by
    rw [List.map_map]
    exact b.single
  epochs v hv := by
    obtain ⟨w, hw, rfl⟩ := List.mem_map.1 hv
    exact hepoch ▸ b.epochs w hw

/-- Every act keeps the ballots in order. -/
lemma step {act : Act} (b : m.Ballots) (hs : Memory.Step h act m m') : m'.Ballots := by
  have same : ∀ row : EntryCore, row.id = m.row.id → row.source = m.row.source →
      row.sourceKey = m.row.sourceKey → m.row.voteEpoch ≤ row.voteEpoch →
      Ballots ⟨row, m.revisions, m.votes⟩ :=
    fun row hid hsource hkey hepoch => b.frame row m.revisions hid hsource hkey hepoch b.authors
  cases hs with
  | attach => exact b
  | label | gate | supersede | merge | retire | reopen => exact same _ rfl rfl rfl (Int.le_refl _)
  | restart => exact same _ rfl rfl rfl (Int.le_add_of_nonneg_right (by decide))
  | propose _ x _ _ _ written =>
    exact b.frame _ _ rfl rfl rfl (Int.le_refl _) (b.authors_append written)
  | adopt _ x now _ _ _ written =>
    have grown : Ballots { m with revisions := m.revisions ++ [x] } :=
      b.frame _ _ rfl rfl rfl (Int.le_refl _) (b.authors_append written)
    exact b.frame _ _ rfl rfl rfl (Int.le_refl _)
      (grown.authors_update (f := Revision.decide .withdrawn now) fun _ => ⟨rfl, rfl⟩)
  | accept _ x now =>
    have decided : Ballots
        { m with revisions := decideRevision x.revision .accepted now m.revisions } :=
      b.frame _ _ rfl rfl rfl (Int.le_refl _)
        (b.authors_update (f := Revision.decide .accepted now) fun _ => ⟨rfl, rfl⟩)
    exact b.frame _ _ rfl rfl rfl (Int.le_refl _)
      (decided.authors_update (f := Revision.decide .withdrawn now) fun _ => ⟨rfl, rfl⟩)
  | reject _ x now _ _ _ revs votes row =>
    have := b.frame m'.row m'.revisions (by rw [row]) (by rw [row]) (by rw [row]) (by rw [row])
      (revs ▸ b.authors_update (f := Revision.decide .rejected now) fun _ => ⟨rfl, rfl⟩)
    rwa [← votes] at this
  | vote _ v _ cast => exact b.putVote cast
  | seed _ v _ cast fresh => exact b.append cast fresh
  | purge now => exact b.purge _ rfl rfl rfl rfl

lemma sweep (b : m.Ballots) (now : Time) : (m.sweep p now).Ballots :=
  b.frame _ _ rfl rfl rfl (Int.le_refl _)
    (b.authors_update (f := Revision.compact now) fun _ => ⟨rfl, rfl⟩)

end Ballots

end Memory

lemma Reachable.ballots {db : Db} (hr : Reachable h db) : db.All Memory.Ballots :=
  hr.all (fun _ => .newborn) (fun _ _ _ _ _ hs b => b.step hs) fun _ _ now _ b => b.sweep now

/-- After every history of transactions a principal has at most one verdict on a revision, however
its name was spelled when it voted. -/
theorem votes_single (h : Hashing) (txs : List (List (Time × TxWrite))) :
    ((Db.empty.history h txs).votes.map fun v =>
      (v.entryId, v.revision, principalKey v.principal)).Nodup := by
  have hr : Reachable h (Db.empty.history h txs) := ⟨txs, rfl⟩
  rw [Nodup, pairwise_map, pairwise_iff_forall_sublist]
  intro v w hsub heq
  rw [Prod.mk.injEq, Prod.mk.injEq] at heq
  obtain ⟨e, he⟩ := Option.isSome_iff_exists.1 (hr.sound.wf.votesOwned v (hsub.subset (by simp)))
  have b := hr.ballots _ _ (Db.record_of_entry he)
  -- the two verdicts are rows of the record of one entry
  have hrows : [v, w] <+ rows (·.entryId) e.id (Db.empty.history h txs).votes := by
    rw [(Db.entry_mem he).2, rows]
    simpa [← heq.1] using hsub.filter fun w => w.entryId = v.entryId
  refine pairwise_iff_forall_sublist.1 (pairwise_map.1 b.single) hrows ?_
  rw [b.voters v (hrows.subset (by simp)), b.voters w (hrows.subset (by simp)), heq.2.1, heq.2.2]

end GovStore
