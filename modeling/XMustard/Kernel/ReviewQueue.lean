import Mathlib.Data.List.Find
import XMustard.Kernel.Acts
import XMustard.Store.Owners

/-!
# The review queue

What awaits a human approver: the pending revisions of the entries the approver may see. Whether
the approver's owner already has a voice on them is asked for all of them at once, and the answer
is the one that the vote itself would get.
-/

namespace WorkspaceOps

open List GovStore Program Table

/-! ### Approvers and candidates -/

/-- An authenticated human approver and the assurance of its token. -/
structure HumanApprover where
  id : String
  owner : String
  kind : String
  assurance : String

def humanApprovalLabel (surface assurance : String) : String := surface ++ "/" ++ assurance

/-- The approver as the caster of a verdict. -/
def HumanApprover.actor (h : HumanApprover) : ContextActor where
  id := h.id
  owner := h.owner
  kind := h.kind
  sessionId := "xmustard-ops"
  approval := humanApprovalLabel "ops" h.assurance

/-- One pending revision of an entry. -/
structure QueueCandidate where
  entry : Entry
  revision : Int

/-- The revisions of an entry that await verdicts: the served one while it is an unpromoted
proposal, and a pending edit. -/
def pendingRevisions (e : Entry) : List QueueCandidate :=
  (if e.status = .pending then [⟨e, e.revision⟩] else [])
    ++ (if e.headRevision > e.revision then [⟨e, e.headRevision⟩] else [])

/-- The pending revisions of a page of entries that the approver may see. -/
def visibleCandidates (h : HumanApprover) (page : List Entry) : List QueueCandidate :=
  page.flatMap fun e => (pendingRevisions e).filter fun _ =>
    scopesVisible e.scope e.scopeKey e.source h.id {}

/-! ### The batched guard -/

variable (host : Host)

/-- The key that a candidate is looked up under. -/
def QueueCandidate.key (c : QueueCandidate) : PendingKey :=
  ⟨c.entry.id, if c.revision = 0 then c.entry.revision else c.revision⟩

/-- The answer for one candidate whose gate needs peers. -/
def ownerVoice (h : HumanApprover) (revs : PendingKey → Option RevisionOwner)
    (voices : PendingKey → Option (List Vote)) (c : QueueCandidate) : Option Err :=
  let mine := fallbackString h.owner h.id
  if sameOwner (recordedOwner host c.entry.sourceOwner c.entry.source) mine then some errSameOwner
  else match revs c.key with
    | none => some (.fault .notFound "revision %s@%d")
    | some ro =>
      let revOwner :=
        if ro.revision = 1 ∧ sameOwner ro.author ro.source then ro.sourceOwner else ro.owner
      if sameOwner (recordedOwner host revOwner ro.author) mine then some errSameOwner
      else if ((voices c.key).getD []).any fun v => !sameOwner v.principal h.id
          && sameOwner (recordedOwner host v.principalOwner v.principal) mine then
        some errSameOwner
      else none

/-- The owner-distinct guard for many candidates at once: why each is refused, if it is. The verdict
asked about is an approval unless another is named. -/
def batchOwnerVoices (db : Db) (candidates : List QueueCandidate) (h : HumanApprover)
    (verdict : Option Verdict) : List (Option Err) :=
  if candidates = [] then []
  else if !ownerBound (verdict.getD .approve) ∨ !ownerDistinct host.settings then
    candidates.map fun _ => none
  else
    let keys := (candidates.filter fun c => ¬c.entry.requiredVerifications ≤ 1).map
        QueueCandidate.key
    if keys = [] then candidates.map fun _ => none
    else
      let revs := db.revisionOwners keys
      let voices := db.pendingOwnerVoices keys
      candidates.map fun c =>
        if c.entry.requiredVerifications ≤ 1 then none else ownerVoice host h revs voices c

/-! ### The two guards agree -/

variable {host} {db : Db} {t : Txn} {h : HumanApprover} {i : VoteInput} {verdict : Verdict}
  {hashing : Hashing}

/-- The log has the edits of an entry in its own workspace only. -/
lemma editOwner_eq (hdb : db.Attributed) {e : Entry} (he : db.entry e.id = some e) (rev : Int) :
    Db.editOwner db e rev = ((db.editEvent ⟨e.id, rev⟩).bind Event.recordedOwner).getD "" := by
  have hfind : (db.events.find? fun ev => ev.entryId = some e.id ∧ ev.workspaceId = e.workspaceId
      ∧ ev.revision = some rev ∧ ev.type = .edit) = db.editEvent ⟨e.id, rev⟩ := by
    refine List.find?_congr fun ev hev => ?_
    rw [decide_eq_decide, editOf_eq_some]
    constructor
    · rintro ⟨hid, -, hrev, htype⟩
      exact ⟨htype, hid, hrev⟩
    · rintro ⟨htype, hid, hrev⟩
      obtain ⟨e', he', hws⟩ := hdb.edits ev hev htype e.id hid
      rw [he] at he'
      cases he'
      exact ⟨hid, hws.symm, hrev, htype⟩
  rw [Db.editOwner, hfind]
  cases db.editEvent ⟨e.id, rev⟩ with
  | none => rfl
  | some ev =>
    simp only [Option.bind_some, Event.recordedOwner]
    cases ev.data with
    | none => rfl
    | some d => simp

/-- The owner of a revision as the vote's own guard finds it. -/
def ownerOfRevision (host : Host) (db : Db) (e : Entry) (rv : Revision) : String :=
  if rv.revision = 1 ∧ sameOwner rv.author e.source then recordedOwner host e.sourceOwner e.source
  else recordedOwner host (Db.editOwner db e rv.revision) rv.author

lemma revisionOwner_apply (e : Entry) (rv : Revision) :
    revisionOwner host e rv t = (.ok (ownerOfRevision host t.db e rv), t) := by
  unfold revisionOwner ownerOfRevision
  split
  · rfl
  · rfl

/-- The first revision is its entry author's, so both guards ask for the same owner. -/
lemma ownerOfRevision_eq (hdb : db.Attributed) {e : Entry} (he : db.entry e.id = some e)
    {rv : Revision} (hrv : rv ∈ db.revisions) (hid : rv.entryId = e.id) :
    ownerOfRevision host db e rv = recordedOwner host
      (if rv.revision = 1 ∧ sameOwner rv.author e.source then e.sourceOwner
        else ((db.editEvent ⟨e.id, rv.revision⟩).bind Event.recordedOwner).getD "") rv.author := by
  unfold ownerOfRevision
  split
  · rename_i hfirst
    obtain ⟨e', he', hauthor⟩ := hdb.authors rv hrv
    rw [hid, he] at he'
    cases he'
    rw [hauthor hfirst.1]
  · rw [editOwner_eq hdb he]

/-- No principal of the same owner has a verdict among these, the voter's own apart. -/
def noVoice (host : Host) (voter : ContextActor) (votes : List Vote) : Bool :=
  votes.all fun v => !(ownerBound v.verdict && !sameOwner v.principal voter.id
    && sameOwner (recordedOwner host v.principalOwner v.principal)
      (fallbackString voter.owner voter.id))

/-- What the vote's own guard asks for. -/
lemma checkOwnerDistinct_eq_ok {e : Entry}
    {voter : ContextActor} (hbound : ownerBound verdict) (hgate : ¬e.requiredVerifications ≤ 1)
    (hdistinct : ownerDistinct host.settings) {rev : Int}
    (hrev : (if i.revision = 0 then e.revision else i.revision) = rev) :
    (checkOwnerDistinct host e i verdict voter t).1 = .ok () ↔
      ∃ rv, t.db.revisionRow e.id rev = some rv
        ∧ sameOwner (recordedOwner host e.sourceOwner e.source)
          (fallbackString voter.owner voter.id)
          = false
        ∧ sameOwner (ownerOfRevision host t.db e rv) (fallbackString voter.owner voter.id) = false
        ∧ ∃ votes, listVotes e.id rev t = (.ok votes, t) ∧ noVoice host voter votes := by
  have hguard : ¬((!ownerBound verdict) = true ∨ e.requiredVerifications ≤ 1
      ∨ (!ownerDistinct host.settings) = true) := by
    simp [hbound, hgate, hdistinct]
  subst hrev
  rw [Reads.fst_eq_ok, checkOwnerDistinct,
    if_neg hguard, Reads.bind_eq_ok]
  refine exists_congr fun rv => ?_
  rw [getRevision_eq_ok]
  simp [revisionOwner_apply, Prod.mk.injEq, Except.ok.injEq, and_true, exists_eq_left',
    Reads.bind_eq_ok, ensure_eq_ok, Reads.bind_eq_ok, exists_const, noVoice]

lemma listVotes_apply {e : Entry} (he : t.db.entry e.id = some e) {rev : Int} (hrev : 0 < rev) :
    listVotes e.id rev t
      = (.ok ((t.db.countingVotes e rev).insertionSort fun v w => v.ordinal ≤ w.ordinal), t) := by
  have hres : resolveRevision e.id rev t = (.ok rev, t) := by
    rw [resolveRevision, if_pos hrev]
    rfl
  rw [listVotes, bind_apply_ok hres]
  simp only [readDb, query_apply, he]

lemma mem_countingVotes {e : Entry} {rev : Int} {v : Vote} :
    v ∈ db.countingVotes e rev ↔ v ∈ db.votes ∧ v.pendingKey = ⟨e.id, rev⟩
      ∧ v.epoch = e.voteEpoch := by
  simp only [Db.countingVotes, Db.votesOn, mem_filter, mem_rows, Vote.pendingKey,
    PendingKey.mk.injEq, decide_eq_true_eq, and_assoc]

/-- Both guards read the same verdicts. -/
lemma noVoice_iff {e : Entry} (he : db.entry e.id = some e) {keys : List PendingKey} {rev : Int}
    (hk : (⟨e.id, rev⟩ : PendingKey) ∈ keys) :
    noVoice host h.actor ((db.countingVotes e rev).insertionSort fun v w => v.ordinal ≤ w.ordinal) ↔
      ¬((db.pendingOwnerVoices keys ⟨e.id, rev⟩).getD []).any fun v => !sameOwner v.principal h.id
        && sameOwner (recordedOwner host v.principalOwner v.principal)
          (fallbackString h.owner h.id) := by
  have hmem : ∀ v, v ∈ (db.pendingOwnerVoices keys ⟨e.id, rev⟩).getD [] ↔
      v ∈ db.countingVotes e rev ∧ ownerBound v.verdict := by
    intro v
    rw [mem_pendingOwnerVoices hk, mem_countingVotes, ownerBound, decide_eq_true_eq]
    constructor
    · rintro ⟨hv, hkey, ⟨e', he', hepoch⟩, hverdict⟩
      rw [show v.entryId = e.id from congrArg PendingKey.entryId hkey, he] at he'
      cases he'
      exact ⟨⟨hv, hkey, hepoch.symm⟩, hverdict⟩
    · rintro ⟨⟨hv, hkey, hepoch⟩, hverdict⟩
      refine ⟨hv, hkey, ⟨e, ?_, hepoch.symm⟩, hverdict⟩
      rw [show v.entryId = e.id from congrArg PendingKey.entryId hkey, he]
  simp only [noVoice, all_eq_true, mem_insertionSort, any_eq_true, hmem]
  constructor
  · rintro hall ⟨v, ⟨hv, hbound⟩, hvoice⟩
    have hquiet := hall v hv
    rw [hbound, Bool.true_and, Bool.not_eq_true'] at hquiet
    exact Bool.noConfusion (hvoice.symm.trans hquiet)
  · intro hnone v hv
    by_contra hvoice
    simp only [Bool.not_eq_true', Bool.not_eq_false, Bool.and_eq_true] at hvoice
    exact hnone ⟨v, ⟨hv, hvoice.1.1⟩, by simpa using ⟨hvoice.1.2, hvoice.2⟩⟩

lemma refusal_eq_none {a b c : Bool} {err : Err} :
    (if a then some err else if b then some err else if c then some err else none) = none ↔
      a = false ∧ b = false ∧ ¬c = true := by
  cases a <;> cases b <;> cases c <;> simp

/-- The batched guard asks what the vote's own guard asks. -/
lemma ownerVoice_eq_none (hr : Reachable hashing t.db) {c : QueueCandidate}
    (he : t.db.entry c.entry.id = some c.entry) {keys : List PendingKey} (hk : c.key ∈ keys)
    (hi : i.revision = c.revision) (hbound : ownerBound verdict)
    (hgate : ¬c.entry.requiredVerifications ≤ 1) (hdistinct : ownerDistinct host.settings) :
    ownerVoice host h (t.db.revisionOwners keys) (t.db.pendingOwnerVoices keys) c = none ↔
      (checkOwnerDistinct host c.entry i verdict h.actor t).1 = .ok () := by
  have hdb := hr.attributed
  have hrev : (if i.revision = 0 then c.entry.revision else i.revision) = c.key.revision := by
    rw [hi]
    rfl
  rw [checkOwnerDistinct_eq_ok hbound hgate hdistinct hrev, ownerVoice,
    revisionOwners_eq hdb hr.sound hk he]
  cases hrow : t.db.revisionRow c.key.entryId c.key.revision with
  | none =>
    refine ⟨fun hnone => ?_, fun hex => ?_⟩
    · dsimp only [Option.map_none] at hnone
      split at hnone
      · cases hnone
      · cases hnone
    · obtain ⟨rv, hrv, -⟩ := hex
      exact absurd (hrow.symm.trans hrv) nofun
  | some rv =>
    obtain ⟨hmem, hkey⟩ := mem_of_revisionRow hrow
    have hnumber : rv.revision = c.key.revision := congrArg PendingKey.revision hkey
    have hid : rv.entryId = c.entry.id := congrArg PendingKey.entryId hkey
    have hchain := hr.sound.chained _ _ (Db.record_of_entry he)
    have hpos : 0 < c.key.revision := by
      have hin : rv ∈ (t.db.recordOf c.entry).memory.revisions := mem_rows.2 ⟨hmem, hid⟩
      rw [← hnumber]
      exact (hchain.numbered.mem.1 (mem_map_of_mem hin)).1
    have howner := @ownerOfRevision_eq host t.db hdb c.entry he rv hmem hid
    have hvoices := @noVoice_iff host t.db h c.entry he keys c.key.revision hk
    have hfound : t.db.revisionRow c.entry.id c.key.revision = some rv := hrow
    simp only [Option.map_some, hfound, Option.some.injEq, exists_eq_left', howner, hnumber,
      listVotes_apply he hpos, Prod.mk.injEq, Except.ok.injEq, and_true, hvoices, ownerRow]
    exact refusal_eq_none

/-- The batched guard admits a candidate exactly when the vote's own guard would accept the
approver's verdict on it. -/
theorem batchOwnerVoices_admits_iff {hashing : Hashing} (hr : Reachable hashing t.db)
    (candidates : List QueueCandidate)
    (stored : ∀ c ∈ candidates, t.db.entry c.entry.id = some c.entry)
    (h : HumanApprover) (verdict : Option Verdict) {n : Nat} {c : QueueCandidate}
    (hc : candidates[n]? = some c) (i : VoteInput) (hi : i.revision = c.revision) :
    (batchOwnerVoices host t.db candidates h verdict)[n]? = some none ↔
      (checkOwnerDistinct host c.entry i (verdict.getD .approve) h.actor t).1 = .ok () := by
  have hmem : c ∈ candidates := mem_of_getElem? hc
  have hfree : (!ownerBound (verdict.getD .approve)) = true ∨ c.entry.requiredVerifications ≤ 1
      ∨ (!ownerDistinct host.settings) = true →
      (checkOwnerDistinct host c.entry i (verdict.getD .approve) h.actor t).1 = .ok () := by
    intro hearly
    rw [checkOwnerDistinct, if_pos hearly]
    rfl
  unfold batchOwnerVoices
  rw [if_neg (ne_nil_of_mem hmem)]
  split
  · rename_i hearly
    rw [List.getElem?_map, hc]
    exact ⟨fun _ => hfree (hearly.imp_right .inr), fun _ => rfl⟩
  · rename_i hguard
    rw [not_or, Bool.not_eq_true', Bool.not_eq_true', Bool.not_eq_false, Bool.not_eq_false]
      at hguard
    by_cases hgate : c.entry.requiredVerifications ≤ 1
    · have hok := hfree (.inr (.inl hgate))
      dsimp only
      split
      · rw [List.getElem?_map, hc]
        exact ⟨fun _ => hok, fun _ => rfl⟩
      · rw [List.getElem?_map, hc, Option.map_some, if_pos hgate]
        exact ⟨fun _ => hok, fun _ => rfl⟩
    · have hkey : c.key ∈ (candidates.filter fun c => ¬c.entry.requiredVerifications ≤ 1).map
          QueueCandidate.key :=
        mem_map_of_mem (mem_filter.2 ⟨hmem, by simpa using hgate⟩)
      rw [if_neg (ne_nil_of_mem hkey), List.getElem?_map, hc, Option.map_some, if_neg hgate,
        Option.some.injEq]
      exact ownerVoice_eq_none hr (stored c hmem) hkey hi hguard.1 hgate hguard.2

/-- The queue asks about rows of the store. -/
lemma visibleCandidates_stored (hr : Reachable hashing db) {page : List Entry}
    (hpage : ∀ e ∈ page, e ∈ db.entries) :
    ∀ c ∈ visibleCandidates h page, db.entry c.entry.id = some c.entry := by
  intro c hc
  obtain ⟨e, he, hmem⟩ := mem_flatMap.1 hc
  have hentry : c.entry = e := by
    rcases mem_append.1 (mem_of_mem_filter hmem) with hserved | hhead
    · split at hserved
      · rw [mem_singleton.1 hserved]
      · cases hserved
    · split at hhead
      · rw [mem_singleton.1 hhead]
      · cases hhead
  rw [hentry]
  exact Db.entry_of_mem hr.sound.wf (hpage e he)

/-- A proposal with a pending edit. -/
def reviewedRun : List (List (Time × TxWrite)) :=
  [[(1, .insertEntry { id := "m", workspaceId := "w", content := "c", requiredVerifications := 2 }
      { principal := "ann", owner := "acme" })],
    [(2, .appendRevision { entryId := "m", baseRevision := 1, op := some .edit, content := "d" }
      { principal := "bob", owner := "home" })]]

/-- Under the owner-distinct policy the owner of the edit may judge the proposal and not the edit,
by either guard. -/
theorem batchOwnerVoices_admits_iff_reviewedRun : let db := Db.empty.history .plain reviewedRun
    let host := Host.plain (some { principalDistinctness := "owner" })
    let h : HumanApprover := ⟨"carl", "home", "human", "advisory"⟩
    let queue := visibleCandidates h db.entries
    batchOwnerVoices host db queue h none = [none, some errSameOwner] ∧
      ∀ (n : Nat) (c : QueueCandidate), queue[n]? = some c →
        ((batchOwnerVoices host db queue h none)[n]? = some none ↔
          (checkOwnerDistinct host c.entry ⟨"m", c.revision, some .approve, "", "", ""⟩ .approve
            h.actor db.start).1 = .ok ()) := by
  intro db host h queue
  have hr : Reachable .plain db.start.db := ⟨reviewedRun, rfl⟩
  refine ⟨by decide +kernel, fun n c hc => ?_⟩
  exact batchOwnerVoices_admits_iff hr queue (visibleCandidates_stored hr fun _ he => he) h none
    hc _ rfl

end WorkspaceOps
