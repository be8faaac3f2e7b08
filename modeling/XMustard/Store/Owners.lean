import XMustard.Lists.Chunks
import XMustard.Lists.Order
import XMustard.Store.Attribution
import XMustard.Table.Maps

/-!
# Owners in batches

The reads behind the review queue: for many revisions at once, who wrote them, which owner their
edit recorded, and which verdicts count on them. Keys are bound in bounded batches, so each read is
a loop over queries whose rows fill a map.
-/

namespace GovStore

open List Table Lists Option

/-- One entry revision that a batched read covers. -/
structure PendingKey where
  entryId : String
  revision : Int
  deriving DecidableEq

/-- How many arguments a query binds for an `IN` list. -/
def maxInArgs : Nat := 400

/-- The batches of keys that one query each covers. -/
def keyBatches (keys : List PendingKey) : List (List PendingKey) := batches (maxInArgs / 2) keys

/-! ### Verdicts -/

def Vote.pendingKey (v : Vote) : PendingKey := ⟨v.entryId, v.revision⟩

/-- The order of a batch of verdicts: by entry, revision and ordinal. -/
def Vote.precedes (v w : Vote) : Prop :=
  v.entryId < w.entryId ∨ v.entryId = w.entryId
    ∧ (v.revision < w.revision ∨ v.revision = w.revision ∧ v.ordinal ≤ w.ordinal)

instance : DecidableRel Vote.precedes := fun v w => by
  unfold Vote.precedes
  infer_instance

variable (db : Db)

variable (chunk : List PendingKey)

/-- The verdicts of the current epoch that decide verification of a batch of revisions. -/
def Db.ownerVoices : List Vote :=
  (db.votes.filter fun v => ((db.entry v.entryId).any fun e => e.voteEpoch = v.epoch)
    && (v.verdict = .approve || v.verdict = .reject) && v.pendingKey ∈ chunk).insertionSort
      Vote.precedes

/-- The verdicts that decide verification, by revision. Every key has a list. -/
def Db.pendingOwnerVoices (keys : List PendingKey) : PendingKey → Option (List Vote) :=
  let out := (keyBatches keys).foldl
      (fun m chunk => collect Vote.pendingKey m (db.ownerVoices chunk))
    fun _ => none
  fun k => if k ∈ keys then some ((out k).getD []) else out k

/-! ### Authors -/

/-- Who wrote a revision and who owns the principal, as the store recorded it. -/
structure RevisionOwner where
  entryId : String
  revision : Int
  author : String
  owner : String
  source : String
  sourceOwner : String

def RevisionOwner.pendingKey (r : RevisionOwner) : PendingKey := ⟨r.entryId, r.revision⟩

def RevisionOwner.precedes (r s : RevisionOwner) : Prop :=
  r.entryId < s.entryId ∨ r.entryId = s.entryId ∧ r.revision ≤ s.revision

instance : DecidableRel RevisionOwner.precedes := fun r s => by
  unfold RevisionOwner.precedes
  infer_instance

/-- A revision joined with its entry. -/
def ownerRow (x : Revision) (e : Entry) : RevisionOwner :=
  ⟨x.entryId, x.revision, x.author, "", e.source, e.sourceOwner⟩

/-- The revisions of a batch, joined with their entries. -/
def Db.ownerRows : List RevisionOwner :=
  ((db.revisions.filter fun x => ⟨x.entryId, x.revision⟩ ∈ chunk).filterMap fun x =>
    (db.entry x.entryId).map (ownerRow x)).insertionSort RevisionOwner.precedes

/-- An edit event with the revision it names. -/
def Event.editOf (ev : Event) : Option PendingKey :=
  match ev.type, ev.entryId, ev.revision with
  | .edit, some id, some rev => some ⟨id, rev⟩
  | _, _, _ => none

/-- The owner that the data of an event recorded; `none` if it has no data. -/
def Event.recordedOwner (ev : Event) : Option String :=
  ev.data.map fun d => (d.provenance.map (·.owner)).getD ""

/-- The number of the first edit event of a revision. -/
def Db.firstEdit (k : PendingKey) : Option Nat :=
  ((db.events.filter fun ev => ev.editOf = some k).map (·.seq)).min?

/-- An edit event under the revision it names. -/
structure EditRow where
  key : PendingKey
  event : Event

def EditRow.precedes (r s : EditRow) : Prop :=
  r.key.entryId < s.key.entryId ∨ r.key.entryId = s.key.entryId
    ∧ (r.key.revision < s.key.revision ∨ r.key.revision = s.key.revision
      ∧ r.event.seq ≤ s.event.seq)

instance : DecidableRel EditRow.precedes := fun r s => by
  unfold EditRow.precedes
  infer_instance

/-- The first edit event of each revision of a batch. -/
def Db.editRows : List EditRow :=
  ((db.events.filterMap fun ev => ev.editOf.map fun k => EditRow.mk k ev).filter fun r =>
    r.key ∈ chunk && db.firstEdit r.key = some r.event.seq).insertionSort EditRow.precedes

/-- The owner that the first edit event of each revision recorded. -/
def Db.editEventOwners (keys : List PendingKey) : PendingKey → Option String :=
  (keyBatches keys).foldl
    (fun m chunk => firstSeen EditRow.key (fun r => r.event.recordedOwner) m (db.editRows chunk))
    fun _ => none

def Db.revisionOwners (keys : List PendingKey) : PendingKey → Option RevisionOwner :=
  let out := (keyBatches keys).foldl
    (fun m chunk => index RevisionOwner.pendingKey m (db.ownerRows chunk)) fun _ => none
  let owners := db.editEventOwners keys
  fun k => (out k).map fun ro => match owners k with
    | some owner => { ro with owner := owner }
    | none => ro

/-! ### What the batches hold -/

variable {db : Db} {keys : List PendingKey} {k : PendingKey}

lemma mem_keyBatches : (∃ chunk ∈ keyBatches keys, k ∈ chunk) ↔ k ∈ keys :=
  exists_mem_batches (by decide)

variable {chunk : List PendingKey} {v : Vote}

lemma mem_ownerVoices :
    v ∈ db.ownerVoices chunk ↔ v ∈ db.votes
      ∧ (∃ e, db.entry v.entryId = some e ∧ e.voteEpoch = v.epoch)
      ∧ (v.verdict = .approve ∨ v.verdict = .reject) ∧ v.pendingKey ∈ chunk := by
  simp [Db.ownerVoices, mem_insertionSort, mem_filter, Option.any_eq_true, and_assoc]

lemma mem_pendingOwnerVoices (hk : k ∈ keys) :
    v ∈ (db.pendingOwnerVoices keys k).getD [] ↔ v ∈ db.votes ∧ v.pendingKey = k
      ∧ (∃ e, db.entry v.entryId = some e ∧ e.voteEpoch = v.epoch)
      ∧ (v.verdict = .approve ∨ v.verdict = .reject) := by
  rw [Db.pendingOwnerVoices, foldl_collect]
  simp only [hk, if_true, getD_some, collect_getD, getD_none, nil_append,
    mem_rows, mem_flatMap, mem_ownerVoices]
  constructor
  · rintro ⟨⟨chunk, -, hv, he, hverdict, -⟩, hkey⟩
    exact ⟨hv, hkey, he, hverdict⟩
  · rintro ⟨hv, rfl, he, hverdict⟩
    obtain ⟨chunk, hchunk, hmem⟩ := mem_keyBatches.2 hk
    exact ⟨⟨chunk, hchunk, hv, he, hverdict, hmem⟩, rfl⟩

lemma mem_ownerRows {r : RevisionOwner} :
    r ∈ db.ownerRows chunk ↔ ∃ x ∈ db.revisions, ⟨x.entryId, x.revision⟩ ∈ chunk
      ∧ ∃ e, db.entry x.entryId = some e ∧ ownerRow x e = r := by
  simp [Db.ownerRows, mem_insertionSort, mem_filterMap, mem_filter, and_assoc]

variable {ev : Event}

lemma editOf_eq_some :
    ev.editOf = some k ↔ ev.type = .edit ∧ ev.entryId = some k.entryId
      ∧ ev.revision = some k.revision := by
  unfold Event.editOf
  split
  · rename_i htype hid hrev
    rw [htype, hid, hrev, some.injEq, some.injEq, some.injEq]
    refine ⟨?_, fun h => ?_⟩
    · rintro rfl
      exact ⟨rfl, rfl, rfl⟩
    · obtain ⟨-, h₁, h₂⟩ := h
      rw [h₁, h₂]
  · rename_i hne
    refine ⟨nofun, fun h => (hne _ _ h.1 h.2.1 h.2.2).elim⟩

/-- The first event of a revision in the log. -/
def Db.editEvent (db : Db) (k : PendingKey) : Option Event :=
  db.events.find? fun ev => ev.editOf = some k

lemma editEvent_eq_some (h : db.editEvent k = some ev) :
    ev ∈ db.events ∧ ev.editOf = some k :=
  ⟨mem_of_find?_eq_some h, by simpa using find?_some h⟩

/-- Numbers are in log order, so the first event of a revision has its least number. -/
lemma Db.Attributed.firstEdit (hdb : db.Attributed) (h : db.editEvent k = some ev) :
    db.firstEdit k = some ev.seq := by
  obtain ⟨hev, hkey⟩ := editEvent_eq_some h
  refine min?_eq_some_iff.2 ⟨?_, fun n hn => ?_⟩
  · exact mem_map_of_mem (mem_filter.2 ⟨hev, by simpa using hkey⟩)
  · obtain ⟨ev', hev', rfl⟩ := mem_map.1 hn
    obtain ⟨hmem, hkey'⟩ := mem_filter.1 hev'
    have horder := pairwise_map.1 hdb.inOrder
    exact find?_le horder h hmem hkey'

lemma Db.Attributed.event_of_seq (hdb : db.Attributed) {ev' : Event} (h : ev ∈ db.events)
    (h' : ev' ∈ db.events) (hseq : ev.seq = ev'.seq) : ev = ev' := by
  refine inj_on_of_nodup_map ?_ h h' hseq
  exact hdb.inOrder.imp fun hlt => Nat.ne_of_lt hlt

lemma mem_editRows {r : EditRow} :
    r ∈ db.editRows chunk ↔ r.event ∈ db.events ∧ r.event.editOf = some r.key ∧ r.key ∈ chunk
      ∧ db.firstEdit r.key = some r.event.seq := by
  simp only [Db.editRows, mem_insertionSort, mem_filter, mem_filterMap,
    map_eq_some_iff, Bool.and_eq_true, decide_eq_true_eq]
  constructor
  · rintro ⟨⟨ev, hev, key, hkey, rfl⟩, hmem, hseq⟩
    exact ⟨hev, hkey, hmem, hseq⟩
  · rintro ⟨hev, hkey, hmem, hseq⟩
    exact ⟨⟨r.event, hev, r.key, hkey, rfl⟩, hmem, hseq⟩

/-- The row of a revision in the query of a batch. -/
lemma Db.Attributed.row_editRows (hdb : db.Attributed) (chunk : List PendingKey) :
    row EditRow.key k (db.editRows chunk)
      = if k ∈ chunk then (db.editEvent k).map (EditRow.mk k) else none := by
  have hfound : ∀ r ∈ db.editRows chunk, r.key = k → ∃ ev, db.editEvent k = some ev
      ∧ r = ⟨k, ev⟩ := by
    rintro ⟨key, ev'⟩ hr rfl
    obtain ⟨hev', hkey, -, hseq⟩ := mem_editRows.1 hr
    cases hev : db.editEvent key with
    | none =>
      have := find?_eq_none.1 hev ev' hev'
      exact absurd hkey (by simpa using this)
    | some ev =>
      rw [hdb.firstEdit hev] at hseq
      have heq := hdb.event_of_seq (editEvent_eq_some hev).1 hev' (some.inj hseq)
      exact ⟨ev, rfl, by rw [heq]⟩
  by_cases hk : k ∈ chunk
  · rw [if_pos hk]
    cases hev : db.editEvent k with
    | none =>
      refine row_eq_none.2 fun r hr hrk => ?_
      obtain ⟨ev, hev', -⟩ := hfound r hr hrk
      exact absurd (hev.symm.trans hev') nofun
    | some ev =>
      obtain ⟨hmem, hkey⟩ := editEvent_eq_some hev
      have hrow : (⟨k, ev⟩ : EditRow) ∈ db.editRows chunk :=
        mem_editRows.2 ⟨hmem, hkey, hk, hdb.firstEdit hev⟩
      cases hr : row EditRow.key k (db.editRows chunk) with
      | none => exact absurd rfl (row_eq_none.1 hr _ hrow)
      | some r =>
        obtain ⟨ev', hev', rfl⟩ := hfound r (row_eq_some hr).1 (row_eq_some hr).2
        rw [hev] at hev'
        cases hev'
        rfl
  · rw [if_neg hk]
    refine row_eq_none.2 fun r hr hrk => hk ?_
    exact hrk ▸ (mem_editRows.1 hr).2.2.1

lemma Db.Attributed.editEventOwners (hdb : db.Attributed) (hk : k ∈ keys) :
    db.editEventOwners keys k = (db.editEvent k).bind Event.recordedOwner := by
  have hrows := fun chunk => @row_editRows db k hdb chunk
  refine (foldl_firstSeen (o := (db.editEvent k).map (EditRow.mk k)) _ _
    (fun chunk _ => ?_) ?_).trans ?_
  · rw [hrows]
    split
    · exact .inr rfl
    · exact .inl rfl
  · obtain ⟨chunk, hchunk, hmem⟩ := mem_keyBatches.2 hk
    exact ⟨chunk, hchunk, by rw [hrows, if_pos hmem]⟩
  · cases db.editEvent k <;> rfl

section revisions

variable {h : Hashing} {e : Entry} {x : Revision}

/-- A revision has one row. -/
lemma revisionRow_of_mem (hs : db.Sound h) (he : db.entry k.entryId = some e)
    (hx : x ∈ db.revisions) (hkey : (⟨x.entryId, x.revision⟩ : PendingKey) = k) :
    db.revisionRow k.entryId k.revision = some x := by
  subst hkey
  have hid : e.id = x.entryId := (Db.entry_mem he).2
  have hmem : x ∈ (db.recordOf e).memory.revisions := mem_rows.2 ⟨hx, hid.symm⟩
  cases hrow : db.revisionRow x.entryId x.revision with
  | none =>
    have hne := find?_eq_none.1 hrow x (mem_rows.2 ⟨hx, rfl⟩)
    exact absurd (decide_eq_true rfl) hne
  | some y =>
    have hy : y ∈ (db.recordOf e).memory.revisions := by
      rw [show (db.recordOf e).memory.revisions = rows (·.entryId) e.id db.revisions from rfl, hid]
      exact mem_of_find?_eq_some hrow
    have hrev : y.revision = x.revision := by simpa using find?_some hrow
    rw [(hs.chained _ _ (Db.record_of_entry he)).eq_of_revision hy hmem hrev]

lemma mem_of_revisionRow (hx : db.revisionRow k.entryId k.revision = some x) :
    x ∈ db.revisions ∧ (⟨x.entryId, x.revision⟩ : PendingKey) = k := by
  have hmem := mem_rows.1 (mem_of_find?_eq_some hx)
  have hrev : x.revision = k.revision := by simpa using find?_some hx
  exact ⟨hmem.1, by rw [hmem.2, hrev]⟩

/-- What the batched read says about a revision. -/
lemma revisionOwners_eq (hdb : db.Attributed) (hs : db.Sound h) (hk : k ∈ keys)
    (he : db.entry k.entryId = some e) :
    db.revisionOwners keys k = (db.revisionRow k.entryId k.revision).map fun x =>
      { ownerRow x e with owner := ((db.editEvent k).bind Event.recordedOwner).getD "" } := by
  have hrows : ∀ r ∈ (keyBatches keys).flatMap db.ownerRows, r.pendingKey = k →
      ∃ x, db.revisionRow k.entryId k.revision = some x ∧ r = ownerRow x e := by
    intro r hr hrk
    obtain ⟨chunk, -, hmem⟩ := mem_flatMap.1 hr
    obtain ⟨x, hx, -, e', he', rfl⟩ := mem_ownerRows.1 hmem
    obtain rfl : e = e' := by
      subst hrk
      exact some.inj (he.symm.trans he')
    exact ⟨x, revisionRow_of_mem hs he hx hrk, rfl⟩
  have hindex : index RevisionOwner.pendingKey (fun _ => none)
      ((keyBatches keys).flatMap db.ownerRows) k
        = (db.revisionRow k.entryId k.revision).map fun x => ownerRow x e := by
    cases hx : db.revisionRow k.entryId k.revision with
    | none =>
      refine index_of_ne fun r hr hrk => ?_
      obtain ⟨x, hx', -⟩ := hrows r hr hrk
      exact absurd (hx.symm.trans hx') nofun
    | some x =>
      obtain ⟨hmem, hkey⟩ := mem_of_revisionRow hx
      refine index_eq_some (fun r hr hrk => ?_) (.inl ?_)
      · obtain ⟨y, hy, rfl⟩ := hrows r hr hrk
        rw [hx] at hy
        cases hy
        rfl
      · obtain ⟨chunk, hchunk, hin⟩ := mem_keyBatches.2 hk
        refine ⟨ownerRow x e, mem_flatMap.2 ⟨chunk, hchunk, ?_⟩, hkey⟩
        refine mem_ownerRows.2 ⟨x, hmem, hkey ▸ hin, e, ?_, rfl⟩
        rw [← he, ← hkey]
  rw [Db.revisionOwners, foldl_index]
  dsimp only
  rw [hdb.editEventOwners hk, hindex, Option.map_map]
  congr 1
  funext x
  cases (db.editEvent k).bind Event.recordedOwner <;> rfl

end revisions

end GovStore
