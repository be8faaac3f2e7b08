import Mathlib.Data.List.Nodup
import XMustard.Store.Events

/-!
# The ledger of postings

What the duplicate postings of a store are derived from, apart from the tables that hold it: the
columns of the entry rows, the content of the revisions, the postings themselves and the marks of
the backfill. The store changes it in six ways, and each of them leaves the postings of an entry
either those of the content it serves, or empty until the backfill comes by.
-/

namespace GovStore

open List

/-- The columns of an entry row that its postings depend on. -/
structure Slot where
  id : String
  pk : Nat
  workspaceId : String
  revision : Int

/-- What postings are derived from, the postings, and how far the backfill is. -/
structure Ledger where
  slots : List Slot
  /-- The content of a revision, unless it was dropped; `none` where there is no such revision. -/
  content : String → Int → Option (Option String)
  posted : Nat → List Nat
  next : Nat
  last : Nat

namespace Ledger

variable {h : Hashing} {old : String → Option Int} {L L' : Ledger} {s : Slot} {c : String}
  {rev : Int}

/-! ### Changes -/

def insert (L : Ledger) (s : Slot) : Ledger := { L with slots := L.slots ++ [s] }

def write (L : Ledger) (id : String) (rev : Int) (c : String) : Ledger :=
  { L with content := fun i r => if i = id ∧ r = rev then some (some c) else L.content i r }

/-- Drop the content of the revisions in `p`. -/
def drop (L : Ledger) (p : String → Int → Bool) : Ledger :=
  { L with
    content := fun i r => if p i r then (L.content i r).map fun _ => none else L.content i r }

def serve (L : Ledger) (id : String) (rev : Int) : Ledger :=
  { L with slots := L.slots.map fun s => if s.id = id then { s with revision := rev } else s }

def post (L : Ledger) (pk : Nat) (keys : List Nat) : Ledger :=
  { L with posted := fun k => if k = pk then keys.eraseDups else L.posted k }

/-- The postings of the content that a row serves. -/
def due (h : Hashing) (L : Ledger) (s : Slot) : List Nat :=
  match L.content s.id s.revision with
  | some (some c) => (h.postings s.workspaceId c).eraseDups
  | _ => []

/-- One change that the store makes. -/
inductive Move (h : Hashing) (L : Ledger) : Ledger → Prop
  | added (s : Slot) (c : String) (newId : ∀ x ∈ L.slots, x.id ≠ s.id)
      (newPk : ∀ x ∈ L.slots, x.pk < s.pk) (positive : 0 < s.pk) (full : c ≠ "") :
      Move h L (((L.insert s).write s.id s.revision c).post s.pk (h.postings s.workspaceId c))
  | proposed (id : String) (rev : Int) (c : String) (free : L.content id rev = none)
      (full : c ≠ "") : Move h L (L.write id rev c)
  | served (s : Slot) (rev : Int) (c : String) (hs : s ∈ L.slots)
      (there : L.content s.id rev = some (some c)) :
      Move h L ((L.serve s.id rev).post s.pk (h.postings s.workspaceId c))
  | erased (s : Slot) (hs : s ∈ L.slots) :
      Move h L ((L.drop fun i _ => i = s.id).post s.pk [])
  | dropped (p : String → Int → Bool) (kept : ∀ s ∈ L.slots, p s.id s.revision = false) :
      Move h L (L.drop p)
  /-- The backfill passes the rows up to `n`. -/
  | backfilled (posted : Nat → List Nat) (n : Nat)
      (done : ∀ s ∈ L.slots, L.next < s.pk → s.pk ≤ n →
        posted s.pk = L.due h s ∨ L.due h s = [] ∧ posted s.pk = L.posted s.pk)
      (others : ∀ s ∈ L.slots, s.pk ≤ L.next ∨ n < s.pk → posted s.pk = L.posted s.pk) :
      Move h L { L with posted := posted, next := n }

/-! ### The invariant -/

/-- The postings of an older row that the backfill has yet to reach. -/
def Waiting (old : String → Option Int) (L : Ledger) (s : Slot) : Prop :=
  old s.id = some s.revision ∧ L.next < s.pk ∧ s.pk ≤ L.last ∧ L.posted s.pk = []

structure Ok (L : Ledger) : Prop where
  ids : (L.slots.map (·.id)).Nodup
  ordered : (L.slots.map (·.pk)).Pairwise (· < ·)
  positive : ∀ s ∈ L.slots, 0 < s.pk
  full : ∀ id rev, L.content id rev ≠ some (some "")
  present : ∀ s ∈ L.slots, L.content s.id s.revision ≠ none

/-- Every row has the postings of what it serves, or has waited for them since the revisions `old`
were served. -/
structure Posted (h : Hashing) (old : String → Option Int) (L : Ledger) : Prop extends L.Ok where
  settled : ∀ s ∈ L.slots, L.posted s.pk = L.due h s ∨ L.Waiting old s

section ok

variable {x y : Slot}

lemma Ok.eq_of_id (hL : L.Ok) (hx : x ∈ L.slots) (hy : y ∈ L.slots) (hid : x.id = y.id) : x = y :=
  inj_on_of_nodup_map hL.ids hx hy hid

lemma Ok.eq_of_pk (hL : L.Ok) (hx : x ∈ L.slots) (hy : y ∈ L.slots) (hpk : x.pk = y.pk) : x = y :=
  inj_on_of_nodup_map (hL.ordered.imp fun hlt => Nat.ne_of_lt hlt) hx hy hpk

end ok

/-- A ledger with the same keys and contents of rows as far as they are served. -/
lemma Ok.frame (hL : L.Ok) (slots : L'.slots = L.slots)
    (full : ∀ id rev, L'.content id rev ≠ some (some ""))
    (present : ∀ s ∈ L.slots, L'.content s.id s.revision ≠ none) : L'.Ok where
  ids := slots ▸ hL.ids
  ordered := slots ▸ hL.ordered
  positive := slots ▸ hL.positive
  full := full
  present := slots ▸ present

lemma Posted.added (hL : L.Posted h old) (newId : ∀ x ∈ L.slots, x.id ≠ s.id)
    (newPk : ∀ x ∈ L.slots, x.pk < s.pk) (positive : 0 < s.pk) (full : c ≠ "") :
    (((L.insert s).write s.id s.revision c).post s.pk (h.postings s.workspaceId c)).Posted
      h old where
  ids := Table.nodup_append_row hL.ids newId
  ordered := by
    simp only [post, write, insert, map_append, map_cons, map_nil]
    refine pairwise_append.2 ⟨hL.ordered, pairwise_singleton _ _, fun i hi j hj => ?_⟩
    obtain ⟨x, hx, rfl⟩ := mem_map.1 hi
    rw [mem_singleton.1 hj]
    exact newPk x hx
  positive x hx := by
    rcases mem_append.1 hx with hx | hx
    · exact hL.positive x hx
    · rwa [mem_singleton.1 hx]
  full id rev := by
    simp only [post, write, insert]
    split
    · simpa using full
    · exact hL.full id rev
  present x hx := by
    simp only [post, write, insert]
    split
    · simp
    · rename_i hne
      rcases mem_append.1 hx with hx | hx
      · exact hL.present x hx
      · rw [mem_singleton.1 hx] at hne
        exact absurd ⟨rfl, rfl⟩ hne
  settled x hx := by
    rcases mem_append.1 hx with hx | hx
    · have hid : x.id ≠ s.id := newId x hx
      have hpk : x.pk ≠ s.pk := Nat.ne_of_lt (newPk x hx)
      have := hL.settled x hx
      simpa [post, write, insert, due, Waiting, hid, hpk] using this
    · rw [mem_singleton.1 hx]
      exact .inl (by simp [post, write, insert, due])

lemma Posted.proposed (hL : L.Posted h old) {id : String}
    (free : L.content id rev = none) (full : c ≠ "") : (L.write id rev c).Posted h old := by
  -- no row serves the revision yet
  have same : ∀ s ∈ L.slots, (L.write id rev c).content s.id s.revision
      = L.content s.id s.revision := by
    intro s hs
    simp only [write]
    split
    · rename_i heq
      exact absurd (by rw [heq.1, heq.2, free]) (hL.present s hs)
    · rfl
  refine ⟨hL.frame rfl (fun i r => ?_) fun s hs => ?_, fun s hs => ?_⟩
  · simp only [write]
    split
    · simpa using full
    · exact hL.full i r
  · rw [same s hs]
    exact hL.present s hs
  · have := hL.settled s hs
    rwa [due, ← same s hs] at this

lemma map_serve {α : Type} {f : Slot → α} (hf : ∀ s, f { s with revision := rev } = f s)
    (id : String) :
    (L.serve id rev).slots.map f = L.slots.map f := by
  simp only [serve, map_map]
  refine map_congr_left fun x _ => ?_
  simp only [Function.comp]
  split
  · exact hf x
  · rfl

lemma Posted.served (hL : L.Posted h old) (hs : s ∈ L.slots)
    (there : L.content s.id rev = some (some c)) :
    ((L.serve s.id rev).post s.pk (h.postings s.workspaceId c)).Posted h old where
  ids := by
    rw [post, map_serve fun _ => rfl]
    exact hL.ids
  ordered := by
    rw [post, map_serve fun _ => rfl]
    exact hL.ordered
  positive x hx := by
    obtain ⟨y, hy, rfl⟩ := mem_map.1 hx
    split
    · exact hL.positive y hy
    · exact hL.positive y hy
  full := hL.full
  present x hx := by
    obtain ⟨y, hy, rfl⟩ := mem_map.1 hx
    split
    · rename_i hid
      simp [post, serve, hid, there]
    · exact hL.present y hy
  settled x hx := by
    obtain ⟨y, hy, rfl⟩ := mem_map.1 hx
    by_cases hid : y.id = s.id
    · obtain rfl := hL.eq_of_id hy hs hid
      exact .inl (by simp [post, serve, due, there])
    · have hpk : y.pk ≠ s.pk := fun hpk => hid (congrArg Slot.id (hL.eq_of_pk hy hs hpk))
      have := hL.settled y hy
      simpa [post, serve, due, Waiting, hid, hpk] using this

lemma drop_full (hL : L.Ok) (p : String → Int → Bool) (id : String) (rev : Int) :
    (L.drop p).content id rev ≠ some (some "") := by
  simp only [drop]
  split
  · cases L.content id rev <;> simp
  · exact hL.full id rev

lemma drop_present (hL : L.Ok) (p : String → Int → Bool) (hs : s ∈ L.slots) :
    (L.drop p).content s.id s.revision ≠ none := by
  have := hL.present s hs
  simp only [drop]
  split
  · simpa using this
  · exact this

lemma Posted.erased (hL : L.Posted h old) (hs : s ∈ L.slots) :
    ((L.drop fun i _ => i = s.id).post s.pk []).Posted h old := by
  let own : String → Int → Bool := fun i _ => i = s.id
  refine ⟨hL.frame rfl (drop_full hL.toOk own) fun x hx => drop_present hL.toOk own hx,
    fun x hx => ?_⟩
  by_cases hid : x.id = s.id
  · obtain rfl := hL.eq_of_id hx hs hid
    cases hc : L.content x.id x.revision <;> simp [post, drop, due, hc]
  · have hpk : x.pk ≠ s.pk := fun hpk => hid (congrArg Slot.id (hL.eq_of_pk hx hs hpk))
    have := hL.settled x hx
    simpa [post, drop, due, Waiting, hid, hpk] using this

lemma Posted.dropped (hL : L.Posted h old) {p : String → Int → Bool}
    (kept : ∀ s ∈ L.slots, p s.id s.revision = false) : (L.drop p).Posted h old := by
  refine ⟨hL.frame rfl (drop_full hL.toOk _) fun x hx => drop_present hL.toOk _ hx, fun x hx => ?_⟩
  have := hL.settled x hx
  simpa [drop, due, Waiting, kept x hx] using this

lemma Posted.backfilled (hL : L.Posted h old) {posted : Nat → List Nat} {n : Nat}
    (done : ∀ s ∈ L.slots, L.next < s.pk → s.pk ≤ n →
      posted s.pk = L.due h s ∨ L.due h s = [] ∧ posted s.pk = L.posted s.pk)
    (others : ∀ s ∈ L.slots, s.pk ≤ L.next ∨ n < s.pk → posted s.pk = L.posted s.pk) :
    ({ L with posted := posted, next := n } : Ledger).Posted h old := by
  refine ⟨hL.frame rfl hL.full hL.present, fun s hs => ?_⟩
  by_cases hpassed : L.next < s.pk ∧ s.pk ≤ n
  · rcases done s hs hpassed.1 hpassed.2 with heq | ⟨hnone, heq⟩
    · exact .inl heq
    · -- nothing is due: neither a settled row nor a waiting one has postings
      refine .inl (heq.trans ?_)
      rcases hL.settled s hs with hset | hwait
      · exact hset
      · exact hwait.2.2.2.trans hnone.symm
  · have heq := others s hs (by omega)
    rcases hL.settled s hs with hset | ⟨hold, hnext, hlast, hempty⟩
    · exact .inl (heq.trans hset)
    · exact .inr ⟨hold, show n < s.pk by omega, hlast, heq.trans hempty⟩

lemma Move.posted (hmove : Move h L L') (hL : L.Posted h old) : L'.Posted h old := by
  cases hmove with
  | added s c newId newPk positive full => exact hL.added newId newPk positive full
  | proposed id rev c free full => exact hL.proposed free full
  | served s rev c hs there => exact hL.served hs there
  | erased s hs => exact hL.erased hs
  | dropped p kept => exact hL.dropped kept
  | backfilled posted n done others => exact hL.backfilled done others

/-- The ledger of a store that begins to keep postings. -/
def upgrade (L : Ledger) : Ledger :=
  { L with posted := fun _ => [], next := 0, last := (L.slots.map (·.pk)).foldr max 0 }

/-- From then on every row waits for the backfill. -/
lemma Ok.upgrade (hL : L.Ok) :
    L.upgrade.Posted h fun id => (L.slots.find? fun s => s.id = id).map (·.revision) := by
  refine ⟨hL.frame rfl hL.full hL.present, fun s hs => .inr ⟨?_, hL.positive s hs, ?_, rfl⟩⟩
  · cases hfind : L.slots.find? fun x => x.id = s.id with
    | none => exact absurd hs fun hs => by simpa using List.find?_eq_none.1 hfind s hs
    | some x =>
      have hx := List.find?_some hfind
      obtain rfl := hL.eq_of_id (mem_of_find?_eq_some hfind) hs (by simpa using hx)
      simp only [hfind, Option.map_some]
  · exact Table.le_foldr_max (mem_map_of_mem hs)

end Ledger

end GovStore
