import XMustard.Store.Calm
import XMustard.Store.ImportActs

/-!
# Skipped entries of an import

An import may skip a malformed entry and go on in the same transaction. The error that marks one is
raised by the normalization alone, before the first statement that writes, so a skipped entry leaves
nothing behind.
-/

namespace GovStore

open Program

variable {α : Type} {t : Txn} {id : String}

/-- The program does not take its input for a malformed legacy entry. -/
def Accepting (m : Tx α) : Prop := Fails (fun err => err.kind ≠ .invalidEntry) m

lemma accepting {m : Tx α} [hm : Plain m] : Accepting m := fun t err herr =>
  (hm.fails t err herr).2

lemma accepting_updateEntry (w : Bool) (f : Entry → Entry) :
    Accepting (execDb (Db.updateEntry w id f)) := by
  refine fails_execDb fun db err herr => ?_
  unfold Db.updateEntry at herr
  split at herr
  · cases herr
  · split_ifs at herr <;> cases herr <;> nofun

/-! ### Statements -/

/-- A new row has no label. -/
instance plain_insertEntryRow (env : Env) (pk : Nat) (i : NewEntry) (d : EntryDraft) (a : Actor) :
    Plain (execDb (Db.insertEntry (newEntryRow env pk i d a))) := by
  refine plain_execDb fun db err herr => ?_
  unfold Db.insertEntry at herr
  rw [if_neg nofun] at herr
  split_ifs at herr <;> cases herr <;> exact Fact.out

instance plain_insertRevision (x : Revision) : Plain (execDb (Db.insertRevision x)) := by
  refine plain_execDb fun db err herr => ?_
  unfold Db.insertRevision at herr
  split_ifs at herr <;> cases herr <;> exact Fact.out

instance plain_insertVote (v : Vote) : Plain (execDb (Db.insertVote v)) := by
  refine plain_execDb fun db err herr => ?_
  unfold Db.insertVote at herr
  split_ifs at herr <;> cases herr <;> exact Fact.out

/-! ### Methods -/

instance plain_insertAnchorsFrom (seen : List (AnchorKind × String)) (as : List AnchorInput) :
    Plain (insertAnchorsFrom id seen as) := by
  induction as generalizing seen with
  | nil => exact .pure _
  | cons => exact .bind

instance plain_orElse (c : Choice α) (dflt : α) (text : String) :
    Plain (c.orElse dflt (invalid text)) := by
  cases c <;> unfold Choice.orElse <;> infer_instance

instance plain_inputTime (x : TimeText) : Plain (inputTime x) := by
  cases x <;> unfold inputTime <;> infer_instance

set_option synthInstance.maxSize 1000000 in
instance plain_insertEntry (env : Env) (i : NewEntry) (o : EntryOrigin) (a : Actor) :
    Plain (insertEntry env i o a) := by
  have (d : EntryDraft) : Plain (creationEvent env i o d a) := by
    unfold creationEvent
    split <;> infer_instance
  unfold insertEntry validateEntry validateMetadata insertAnchors ftsPut putDedupeKeys
  infer_instance

instance plain_insertVotesFrom (digest : String) (n : Int) (vs : List LegacyVote) :
    Plain (insertVotesFrom id digest n vs) := by
  induction vs generalizing n with
  | nil => exact .pure _
  | cons => exact .bind

instance plain_setBaselinesQuiet (bs : List Baseline) : Plain (setBaselinesQuiet id bs) := by
  have (b : Baseline) : Plain (setBaselineQuiet id b) := by
    unfold setBaselineQuiet
    have (c : Prop) [Decidable c] (p : Anchor → Bool) (f : Anchor → Anchor) :
        Plain (execDb fun db => if c then .error (invalid "CHECK constraint failed: anchors")
          else Db.updateAnchors id p f db) := by
      by_cases hc : c
      · simp only [if_pos hc]
        exact plain_execDb fun db err herr => by cases herr; exact Fact.out
      · simp only [if_neg hc]
        infer_instance
    infer_instance
  have (added : Bool) : Plain (setBaselinesQuietFrom id added bs) := by
    induction bs generalizing added with
    | nil => exact .pure _
    | cons => exact .bind
  exact .bind

/-- An entry found malformed was not written. -/
lemma importEntry_skipped {env : Env} {ws : String} {threshold : Int} {a : Actor} {le : LegacyEntry}
    {err : Err} {t' : Txn} (hrun : importEntry env ws threshold a le t = (.error err, t'))
    (hkind : err.kind = .invalidEntry) : t' = t := by
  cases hnorm : normalizeLegacy env ws le threshold t with
  | mk r t₁ =>
    cases r with
    | error err' =>
      rw [importEntry, bind_apply_error hnorm] at hrun
      cases hrun
      exact Reads.state_eq hnorm
    | ok n =>
      rw [importEntry, bind_apply_ok hnorm] at hrun
      -- what follows the normalization accepts the entry
      have accepts : ∀ {m : Tx Bool}, Accepting m → m t₁ = (.error err, t') →
          err.kind ≠ .invalidEntry := fun hm h => hm t₁ err (by rw [h])
      refine absurd hkind (accepts ?_ hrun)
      refine .bind accepting fun existing => ?_
      split
      · exact accepting
      · exact .bind accepting fun _ => .bind accepting fun _ => .bind accepting fun _ =>
          .bind (accepting_updateEntry _ _) fun _ => accepting

end GovStore
