import XMustard.Kernel.Settling

/-!
# The operations of the kernel, act by act

Every operation of the kernel is a program of governance acts. Most acts are routine, and any
operation may perform them on any entry. The others are rare: a verdict is cast and a label is set
on the entry the operation names, and a revision is written by an edit alone.
-/

namespace WorkspaceOps

open GovStore Program

variable (host : Host) {h : Hashing} {A : String → Act → Prop} {id ws : String}

/-- The acts that no operation reserves for the entry it names. -/
def Routine : Act → Prop
  | .propose | .adopt | .label _ | .vote | .seed => False
  | _ => True

section routine

variable (hA : ∀ i act, Routine act → A i act)

include hA

lemma routine_transition (id : String) : ∀ act : Act, act.isTransition → A id act := by
  intro act hact
  refine hA id act ?_
  cases act <;> trivial

/-! ### Parts of a verdict -/

variable (ce : ContextEntry)

lemma regate_governed (openMode : Bool) (a : Actor) :
    Governed h A (regate host ce openMode a) := by
  unfold regate
  refine .ite (.bind ?_ fun _ => .pure _) (.pure _)
  exact setRequiredVerifications_governed (hA _ _ trivial) (hA _ _ trivial) _ _ a

lemma markQuarantined_governed (e : Entry) (why : String) (a : Actor) :
    Governed h A (markQuarantined host e why a) := by
  unfold markQuarantined
  exact .ite (.bind (setClassification_governed (hA _ _ trivial) _ _ a) fun _ =>
    .pure _) (.pure _)

lemma retractOnQuorum_governed (i : VoteInput) (a : Actor) :
    Governed h A (retractOnQuorum host ws ce i a) :=
  .read fun _ => .ite (.pure _)
    (.bind (transition_governed (fun _ => hA _ _ trivial) (routine_transition hA _) _ _ a)
      fun _ => .read fun _ => .pure _)

lemma mergeOnQuorum_governed (i : VoteInput) (a : Actor) :
    Governed h A (mergeOnQuorum host ws ce i a) :=
  .read fun _ => .read fun _ => .read fun _ => .ite (.pure _)
    (.bind (markQuarantined_governed host hA _ _ a) fun _ =>
      .bind (transition_governed (fun _ => hA _ _ trivial) (routine_transition hA _) _ _ a)
        fun _ => .read fun _ => .pure _)

lemma onQuorum_governed (verdict : Verdict) (out : ContextEntry × Bool) (i : VoteInput)
    (a : Actor) : Governed h A (onQuorum host ws verdict out i a) := by
  unfold onQuorum
  split
  · exact retractOnQuorum_governed host hA _ i a
  · exact mergeOnQuorum_governed host hA _ i a
  · exact .pure _
  · exact .pure _

lemma reverifyOnApprove_governed (e : Entry) (ce : ContextEntry) (voter : ContextActor)
    (a : Actor) : Governed h A (reverifyOnApprove host e ce voter a) := by
  unfold reverifyOnApprove
  exact .ite (.pure _) (.bind (setBaselines_governed (hA _ _ trivial) _ _ _ a)
    fun _ => .bind (clearDrift_governed (hA _ _ trivial) _ a) fun _ => .pure _)

lemma afterSettling_governed (e : Entry) (ce : ContextEntry) (voter : ContextActor) (a : Actor)
    (i : VoteInput) (verdict : Verdict) (out : ContextEntry × Bool) :
    Governed h A (afterSettling host ws e ce voter a i verdict out) := by
  unfold afterSettling
  exact .ite (.bind (reverifyOnApprove_governed host hA e ce voter a) fun _ =>
    onQuorum_governed host hA verdict _ i a) (onQuorum_governed host hA verdict _ i a)

/-! ### Settling -/

section settling

variable (hlabel : ∀ promoted, A id (.label promoted))

include hlabel

lemma settleEntry_governed (a : Actor) : Governed h A (settleEntry host ws id a) := by
  intro t
  refine along_of_sound (fun _ _ _ => trivial) fun hs => ?_
  match he : t.db.entry id with
  | some e =>
    exact (settleEntry_along host (fun i => hA i _ trivial) (fun i => hA i _ trivial) a hs he
      fun _ _ => hlabel _).conseq fun _ _ _ => trivial
  | none =>
    refine along_loadEntryTx fun e he' _ _ => ?_
    rw [he] at he'
    cases he'

lemma settleRevision_governed (rev : Int) (a : Actor) :
    Governed h A (settleRevision host ws id rev a) := by
  refine .read fun r =>
    .read fun pending =>
      .read fun votes => ?_
  split
  · exact .bind (acceptRevision_governed _ _ a (hA _ _ trivial) (hA _ _ trivial)) fun _ =>
      settleEntry_governed host hA hlabel a
  · exact .bind (rejectRevision_governed _ _ _ a (hA _ _ trivial) (hA _ _ trivial)) fun _ =>
      settleEntry_governed host hA hlabel a
  · exact .pure _

lemma settleServed_governed (e : Entry) (ce : ContextEntry) (voter : ContextActor) (a : Actor)
    (i : VoteInput) (hid : i.entryId = id) (verdict : Verdict) :
    Governed h A (settleServed host ws e ce voter a i verdict) := by
  subst hid
  exact .bind (settleEntry_governed host hA hlabel a) fun out =>
    afterSettling_governed host hA e ce voter a i verdict out

end settling

end routine

/-! ### Casting a verdict -/

instance reads_revisionDiff (id : String) (old new : Int) : Reads (revisionDiff id old new) := .bind

instance reads_revisionOwner (e : Entry) (rv : Revision) : Reads (revisionOwner host e rv) := .ite _

instance reads_checkOwnerDistinct (e : Entry) (i : VoteInput) (verdict : Verdict)
    (voter : ContextActor) : Reads (checkOwnerDistinct host e i verdict voter) := .ite _

instance reads_admitVerdict (e : Entry) (i : VoteInput) (verdict : Verdict)
    (voter : ContextActor) : Reads (admitVerdict host e i verdict voter) := .bind

section verdict

variable (hA : ∀ i act, Routine act → A i act) (hlabel : ∀ promoted, A id (.label promoted))

include hA hlabel

lemma settleVerdict_governed (e : Entry) (ce : ContextEntry) (voter : ContextActor) (a : Actor)
    (i : VoteInput) (hid : i.entryId = id) (verdict : Verdict) :
    Governed h A (settleVerdict host ws e ce voter a i verdict) := by
  refine .bind (regate_governed host hA ce _ _) fun _ => .ite
    (.read fun _ => ?_) ?_
  · rw [hid]
    exact settleRevision_governed host hA hlabel _ _
  · exact settleServed_governed host hA hlabel e ce voter _ i hid verdict

end verdict

end WorkspaceOps
