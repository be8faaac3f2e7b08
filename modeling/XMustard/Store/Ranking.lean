import XMustard.Store.Update

/-!
# Approvals in the ranking

The ranking view counts the approvals of an entry with a query of its own. It leaves out the author
of the entry and the open-mode identity as the tally does, but not the author of the revision that
is served.
-/

namespace GovStore

open List

/-- What the ranking reads off the votes on an entry. -/
structure RankEntry where
  id : String
  approvals : Nat
  peerApprovals : Nat
  votedByCaller : Bool

namespace Db

variable (db : Db) (caller : String) (e : Entry)

def rankEntry : RankEntry :=
  let votes := db.countingVotes e e.revision
  { id := e.id
    approvals := votes.countP fun v => v.verdict = .approve
    peerApprovals := votes.countP fun v =>
      v.verdict = .approve ∧ v.principalKey ∉ [e.sourceKey, openModeIdentity]
    votedByCaller := votes.any fun v => v.principalKey = principalKey caller }

/-- The entries whose rank state and scope the query admits. -/
def ranking (admits : Entry → Bool) : List RankEntry :=
  (db.entries.filter admits).map (db.rankEntry caller)

end Db

lemma countP_eq_iff {α : Type} {p q : α → Bool} {l : List α} (h : ∀ a ∈ l, q a → p a) :
    l.countP p = l.countP q ↔ ∀ a ∈ l, p a → q a := by
  have hq : l.countP q = (l.filter p).countP q := by
    rw [countP_filter]
    refine countP_congr fun a ha => ?_
    simpa using h a ha
  rw [hq, countP_eq_length_filter, eq_comm]
  simp

/-- The ranking agrees with the tally of the served revision on the peers of an entry exactly if no
editor approves their own edit. -/
theorem ranking_peerApprovals_iff (db : Db) (caller : String) (e : Entry) :
    (db.rankEntry caller e).peerApprovals = (db.tally e e.revision).peerApprovals ↔
      ∀ v ∈ db.countingVotes e e.revision, v.verdict = .approve →
        v.principalKey = db.authorKey e e.revision →
        v.principalKey = e.sourceKey ∨ v.principalKey = openModeIdentity := by
  unfold Db.rankEntry Db.tally
  rw [countP_eq_iff]
  · refine forall₂_congr fun v _ => ?_
    simp only [Bool.and_eq_true, decide_eq_true_eq, mem_cons, not_mem_nil, or_false]
    tauto
  · intro v _
    simp only [Bool.and_eq_true, decide_eq_true_eq, mem_cons, not_mem_nil, or_false]
    tauto

/-- An edit that is served at once and approved by its author. -/
def ownEditRun : List (List (Time × TxWrite)) :=
  [[(1, .insertEntry { id := "m", workspaceId := "w", content := "c" } { principal := "ann" }),
    (2, .appendRevision
      { entryId := "m", baseRevision := 1, op := some .edit, content := "d", activate := true }
      { principal := "bob" }),
    (3, .recordVote { entryId := "m", revision := 2, verdict := some .approve }
      { principal := "bob" })]]

theorem ranking_counts_own_edit : let db := Db.empty.history .plain ownEditRun
    db.entries.map (fun e => (e.id, (db.tally e e.revision).peerApprovals)) = [("m", 0)]
      ∧ (db.ranking "" fun _ => true).map (fun r => (r.id, r.peerApprovals)) = [("m", 1)] := by
  decide +kernel

end GovStore
