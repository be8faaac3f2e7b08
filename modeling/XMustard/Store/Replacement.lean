import XMustard.Store.History

/-!
# Replaced entries

An entry that was superseded or merged names the entry that replaced it. A reference is only ever
given to an active entry and only ever points to another active entry, and an active entry has no
reference. So a new reference ends where it leads, and the references never close a cycle.
-/

namespace GovStore

open Db Relation

variable {h : Hashing} {A : String → Act → Prop} {id id' : String} {db : Db} {t t' : Txn}

/-- A relation stays free of infinite paths if each new edge ends in a node without edges. -/
lemma wellFounded_of_edges {α : Type} {R R' : α → α → Prop} (hR : WellFounded (flip R))
    (edges : ∀ a b, R' a b → R a b ∨ ∀ c, ¬R' b c) : WellFounded (flip R') := by
  refine ⟨fun a => hR.induction a fun a ih => Acc.intro a fun b hab => ?_⟩
  rcases edges a b hab with hold | hend
  · exact ih b hold
  · exact Acc.intro b fun c hbc => absurd hbc (hend c)

/-! ### References of a memory -/

namespace Memory

variable {m m' : Memory} {act : Act}

/-- The memory was replaced by the entry of this id. -/
def Refers (m : Memory) (id : String) : Prop :=
  id ≠ "" ∧ (m.row.supersededBy = id ∨ m.row.mergedInto = id)

/-- While it is active, a memory has no reference. -/
def Unreplaced (m : Memory) : Prop :=
  m.row.lifecycle = .active → m.row.supersededBy = "" ∧ m.row.mergedInto = ""

lemma Unreplaced.not_refers (hu : m.Unreplaced) (active : m.row.lifecycle = .active)
    (id : String) : ¬m.Refers id := by
  rintro ⟨hne, href | href⟩
  · exact hne (href.symm.trans (hu active).1)
  · exact hne (href.symm.trans (hu active).2)

lemma Unreplaced.step (hu : m.Unreplaced) (hs : Memory.Step h act m m') : m'.Unreplaced := by
  cases hs with
  | supersede | merge => exact nofun
  | retire _ lc hlc =>
    intro hactive
    rcases hlc with rfl | rfl <;> cases hactive
  | reopen | restart => exact fun _ => ⟨rfl, rfl⟩
  | reject _ x now _ _ _ _ _ row =>
    intro hactive
    rw [row] at hactive ⊢
    exact hu hactive
  | purge => exact nofun
  | _ => exact hu

/-- An act gives a reference only as a replacement. -/
lemma Step.refers (hs : Memory.Step h act m m') (href : m'.Refers id) :
    m.Refers id ∨ act = .replace id := by
  cases hs with
  | supersede _ target =>
    rcases href with ⟨hne, rfl | href⟩
    · exact .inr rfl
    · exact .inl ⟨hne, .inr href⟩
  | merge _ target =>
    rcases href with ⟨hne, href | rfl⟩
    · exact .inl ⟨hne, .inl href⟩
    · exact .inr rfl
  | reopen | restart =>
    rcases href with ⟨hne, rfl | rfl⟩ <;> exact absurd rfl hne
  | reject _ x now _ _ _ _ _ row =>
    rw [Refers, row] at href
    exact .inl href
  | _ => exact .inl href

end Memory

/-! ### References of a database -/

/-- The entry `id` names `id'` as the entry that superseded it or that it was merged into. -/
def Db.ReplacedBy (db : Db) (id id' : String) : Prop :=
  ∃ e, db.entry id = some e ∧ id' ≠ "" ∧ (e.supersededBy = id' ∨ e.mergedInto = id')

lemma Db.replacedBy_iff :
    db.ReplacedBy id id' ↔ ∃ r, db.record id = some r ∧ r.memory.Refers id' := by
  constructor
  · rintro ⟨e, he, href⟩
    exact ⟨_, record_of_entry he, href⟩
  · rintro ⟨r, hr, href⟩
    exact ⟨r.row, (record_eq_some hr).1, href⟩

/-- The references of a database lead somewhere and never in a circle. -/
structure Db.Replacements (db : Db) : Prop where
  unreplaced : db.All Memory.Unreplaced
  present : ∀ id id', db.ReplacedBy id id' → (db.entry id').isSome
  wellFounded : WellFounded (flip db.ReplacedBy)

/-- A new reference points to an active entry, which a step that gives one leaves alone. -/
lemma Change.replacedBy (hc : Change h A t t')
    (href : t'.db.ReplacedBy id id') : t.db.ReplacedBy id id'
      ∨ ∃ s, t.db.record id' = some s ∧ t'.db.record id' = some s ∧ s.row.lifecycle = .active := by
  rw [replacedBy_iff] at href ⊢
  obtain ⟨r', hr', href⟩ := href
  have hf := hc.fate id
  rw [hr'] at hf
  generalize t.db.record id = r at hf ⊢
  cases hf with
  | kept => exact .inl ⟨r', rfl, href⟩
  | born newborn =>
    rcases href with ⟨hne, href | href⟩
    · exact absurd (href.symm.trans newborn.supersededBy) hne
    · exact absurd (href.symm.trans newborn.mergedInto) hne
  | acted _ step _ target =>
    rcases step.memory.refers href with hold | hreplace
    · exact .inl ⟨_, rfl, hold⟩
    · exact .inr (target id' hreplace).2
  | swept => exact .inl ⟨_, rfl, href⟩

lemma StoreStep.replacements (hs : StoreStep h A t t') (hdb : t.db.Sound h)
    (hr : t.db.Replacements) : t'.db.Replacements := by
  have hc := (hs hdb).2.2
  have unreplaced : t'.db.All Memory.Unreplaced := by
    refine hs.all (fun m nb _ => ⟨nb.supersededBy, nb.mergedInto⟩) ?_ (fun _ _ _ _ hu => hu) hdb
      hr.unreplaced
    exact fun _ _ _ _ _ step hu => hu.step step
  refine ⟨unreplaced, fun id id' href =>
    ?_, wellFounded_of_edges hr.wellFounded fun id id' href => ?_⟩
  · rcases hc.replacedBy href with hold | ⟨s, -, hs', -⟩
    · exact hc.present (hr.present id id' hold)
    · rw [(record_eq_some hs').1]
      rfl
  · refine (hc.replacedBy href).imp_right ?_
    rintro ⟨s, -, hs', active⟩ id'' href'
    obtain ⟨s', hs'', hrefers⟩ := replacedBy_iff.1 href'
    cases hs'.symm.trans hs''
    exact (unreplaced id' s hs').not_refers active id'' hrefers

lemma Db.Replacements.empty : Db.empty.Replacements := by
  have none : ∀ id id', ¬Db.empty.ReplacedBy id id' := by
    rintro id id' ⟨e, he, -⟩
    cases he
  exact ⟨.empty _, fun id id' href => absurd href (none id id'),
    ⟨fun id => Acc.intro id fun id' href => absurd href (none id id')⟩⟩

lemma Running.replacements (ht : Running h t) : t.db.Replacements :=
  (ht.keeps (fun _ _ hs => hs.replacements) .empty).2

/-- Following the references from an entry ends in an entry that has none. -/
lemma Db.Replacements.ends (hr : db.Replacements)
    (he : (db.entry id).isSome) : ∃ last e, ReflTransGen db.ReplacedBy id last
      ∧ db.entry last = some e ∧ e.supersededBy = "" ∧ e.mergedInto = "" := by
  induction id using hr.wellFounded.induction with
  | _ id ih =>
    by_cases hnext : ∃ id', db.ReplacedBy id id'
    · obtain ⟨id', href⟩ := hnext
      obtain ⟨last, e, path, rest⟩ := ih id' href (hr.present id id' href)
      exact ⟨last, e, .head href path, rest⟩
    · obtain ⟨e, he⟩ := Option.isSome_iff_exists.1 he
      refine ⟨id, e, .refl, he, ?_, ?_⟩
      · by_contra hne
        exact hnext ⟨_, e, he, hne, .inl rfl⟩
      · by_contra hne
        exact hnext ⟨_, e, he, hne, .inr rfl⟩

/-- At every point of every history, no entry replaces itself through any number of references,
each chain of references ends in an entry that has none, and active entries have none. -/
theorem replacedBy_acyclic {t : Txn} (ht : Running h t) :
    (∀ id, ¬TransGen t.db.ReplacedBy id id)
      ∧ WellFounded (flip t.db.ReplacedBy)
      ∧ (∀ id id', t.db.ReplacedBy id id' → ∃ last e, ReflTransGen t.db.ReplacedBy id' last
          ∧ t.db.entry last = some e ∧ e.supersededBy = "" ∧ e.mergedInto = "")
      ∧ ∀ e ∈ t.db.entries, e.lifecycle = .active → e.supersededBy = "" ∧ e.mergedInto = "" := by
  have hr := ht.replacements
  refine ⟨fun id hcycle => ?_, hr.wellFounded, fun id id' href => hr.ends (hr.present id id' href),
    fun e he active => ?_⟩
  · have hback : TransGen (flip t.db.ReplacedBy) id id := hcycle.swap
    exact hr.wellFounded.transGen.asymmetric _ _ hback hback
  · exact hr.unreplaced _ _ (record_of_entry (entry_of_mem ht.sound.wf he)) active

/-- One entry superseded by another. -/
def supersededRun : List (List (Time × TxWrite)) :=
  [[(1, .insertEntry { id := "a", workspaceId := "w", content := "x" } { principal := "ann" }),
      (2, .insertEntry { id := "b", workspaceId := "w", content := "y" } { principal := "ann" })],
    [(3, .setPromotion "b" ⟨some .verified, true, some .singleAgent⟩ { principal := "bob" }),
      (4, .supersede ⟨"b", ["a"], ""⟩ { principal := "bob" })]]

theorem replacedBy_acyclic_supersededRun :
    ((Db.empty.history .plain supersededRun).entries.map fun e => (e.id, e.supersededBy))
        = [("a", "b"), ("b", "")]
      ∧ ∀ id, ¬TransGen (Db.empty.history .plain supersededRun).start.db.ReplacedBy id id :=
  ⟨by decide +kernel, (replacedBy_acyclic (Reachable.running ⟨supersededRun, rfl⟩)).1⟩

end GovStore
