import Mathlib.Algebra.Order.BigOperators.Group.List
import Mathlib.Algebra.Order.Ring.Nat
import Mathlib.Data.Finmap
import XMustard.Lists.Order

/-! # Method resolution order

Python's linearization of a class hierarchy: every type precedes its bases and the declared order
of the bases is kept. Type ids are any type with decidable equality. -/

namespace Index.Mro

open List Lists

variable {α : Type*} [DecidableEq α]

/-- A type id and its declared bases, in order. -/
abbrev Parents (α : Type*) := Finmap fun _ : α => List α

/-- The declared bases of a type; none for a type the map does not have. -/
def Parents.bases (parents : Parents α) (t : α) : List α := (parents.lookup t).getD []

lemma Parents.mem_keys {parents : Parents α} {t b : α} (h : b ∈ parents.bases t) :
    t ∈ parents.keys := by
  by_contra hkey
  have hnone : parents.lookup t = none :=
    Finmap.lookup_eq_none.2 fun ht => hkey (Finmap.mem_keys.2 ht)
  simp [bases, hnone] at h

variable (seqs : List (List α)) {h : α}

/-- The sequences that still have elements. -/
def retain : List (List α) := seqs.filter (!·.isEmpty)

/-- The first head that appears in no other sequence's tail. -/
def nextHead : Option α :=
  (seqs.filterMap head?).find? fun h => seqs.all fun s => h ∉ s.tail

/-- The sequences once `next` has been written. -/
def dropHead (next : α) (seqs : List (List α)) : List (List α) :=
  seqs.map fun s => if s.head? = some next then s.tail else s

/-- What is left to merge. -/
def weight : Nat := (seqs.map length).sum

omit [DecidableEq α] in
lemma weight_retain : weight (retain seqs) ≤ weight seqs :=
  (filter_sublist.map length).sum_le_sum fun _ _ => Nat.zero_le _

lemma nextHead_mem {seqs : List (List α)} (hnext : nextHead seqs = some h) :
    ∃ s ∈ seqs, s.head? = some h := by
  simpa using mem_of_find?_eq_some hnext

lemma weight_dropHead {seqs : List (List α)} (hmem : ∃ s ∈ seqs, s.head? = some h) :
    weight (dropHead h seqs) < weight seqs := by
  have hle : ∀ s : List α, (if s.head? = some h then s.tail else s).length ≤ s.length := by
    intro s
    split
    · exact s.length_tail ▸ Nat.sub_le _ _
    · exact le_rfl
  obtain ⟨s, hs, hhead⟩ := hmem
  simp only [weight, dropHead, map_map]
  refine sum_lt_sum _ _ (fun s _ => hle s) ⟨s, hs, ?_⟩
  obtain ⟨rest, rfl⟩ := head?_eq_some_iff.1 hhead
  simp

/-- Merge the sequences behind `out`, keeping the order of each. -/
def mergeLoop (out : List α) (seqs : List (List α)) : Option (List α) :=
  if retain seqs = [] then some out
  else
    match _h : nextHead (retain seqs) with
    | none => none
    | some next => mergeLoop (out ++ [next]) (dropHead next (retain seqs))
termination_by weight seqs
decreasing_by exact (weight_dropHead (nextHead_mem _h)).trans_le (weight_retain seqs)

/-- A type followed by the merge of its bases' linearizations and the base list; none when no
consistent order exists or a base cycle is met. The types being linearized are the path. -/
def c3 (parents : Parents α) (t : α) (path : Finset α) : Option (List α) :=
  if _h : t ∈ path then none
  else do
    let seqs ← (parents.bases t).attach.mapM fun ⟨b, _⟩ => c3 parents b (insert t path)
    mergeLoop [t] (seqs ++ [parents.bases t])
termination_by (parents.keys \ path).card
decreasing_by
  refine Finset.card_lt_card ⟨Finset.sdiff_subset_sdiff le_rfl (Finset.subset_insert t path), ?_⟩
  intro hsub
  have ht := hsub (Finset.mem_sdiff.2 ⟨Parents.mem_keys ‹_›, _h⟩)
  simp at ht

/-! ## The merge -/

section merge

variable {seqs : List (List α)} {out m s : List α} {next : α}

/-- A merged list: it has the elements of the sequences, once each, in the order of each. -/
structure Merges (seqs : List (List α)) (m : List α) : Prop where
  nodup : m.Nodup
  order : ∀ s ∈ seqs, s.Sublist m
  mem : ∀ x ∈ m, ∃ s ∈ seqs, x ∈ s

lemma mem_dropHead : s ∈ dropHead next seqs ↔
    next :: s ∈ seqs ∨ s ∈ seqs ∧ s.head? ≠ some next := by
  simp only [dropHead, mem_map]
  constructor
  · rintro ⟨r, hr, rfl⟩
    split
    · next hhead =>
      obtain ⟨rest, rfl⟩ := head?_eq_some_iff.1 hhead
      exact .inl hr
    · next hhead => exact .inr ⟨hr, hhead⟩
  · rintro (hs | ⟨hs, hhead⟩)
    · exact ⟨_, hs, by simp⟩
    · exact ⟨s, hs, if_neg hhead⟩

/-- A written head is in none of the sequences any more. -/
lemma nextHead_free (h : nextHead seqs = some next) (hs : s ∈ dropHead next seqs) : next ∉ s := by
  have hfree : ∀ r ∈ seqs, next ∉ r.tail := by simpa using find?_some h
  rcases mem_dropHead.1 hs with hs | ⟨hs, hhead⟩
  · exact hfree _ hs
  · intro hmem
    cases s with
    | nil => cases hmem
    | cons a s =>
      rcases mem_cons.1 hmem with rfl | hmem
      · exact hhead rfl
      · exact hfree _ hs hmem

lemma merges_cons (h : nextHead seqs = some next) (hm : Merges (dropHead next seqs) m) :
    Merges seqs (next :: m) := by
  refine ⟨nodup_cons.2 ⟨fun hnext => ?_, hm.nodup⟩, fun s hs => ?_, fun x hx => ?_⟩
  · obtain ⟨s, hs, hmem⟩ := hm.mem next hnext
    exact nextHead_free h hs hmem
  · by_cases hhead : s.head? = some next
    · obtain ⟨rest, rfl⟩ := head?_eq_some_iff.1 hhead
      exact (hm.order rest (mem_dropHead.2 (.inl hs))).cons_cons next
    · exact (hm.order s (mem_dropHead.2 (.inr ⟨hs, hhead⟩))).cons next
  · rcases mem_cons.1 hx with rfl | hx
    · obtain ⟨s, hs, hhead⟩ := nextHead_mem h
      exact ⟨s, hs, mem_of_mem_head? hhead⟩
    · obtain ⟨s, hs, hxs⟩ := hm.mem x hx
      rcases mem_dropHead.1 hs with hs | ⟨hs, -⟩
      · exact ⟨_, hs, mem_cons_of_mem next hxs⟩
      · exact ⟨s, hs, hxs⟩

omit [DecidableEq α] in
lemma Merges.of_retain (hm : Merges (retain seqs) m) : Merges seqs m := by
  refine ⟨hm.nodup, fun s hs => ?_, fun x hx => ?_⟩
  · cases s with
    | nil => exact nil_sublist m
    | cons a s => exact hm.order _ (mem_filter.2 ⟨hs, rfl⟩)
  · obtain ⟨s, hs, hxs⟩ := hm.mem x hx
    exact ⟨s, (mem_filter.1 hs).1, hxs⟩

/-- When no head is free, each head comes after another one. -/
lemma cyclic_of_nextHead (hne : retain seqs ≠ []) (h : nextHead (retain seqs) = none) :
    Cyclic seqs := by
  have hhead : ∀ s ∈ retain seqs, ∃ a r, s = a :: r := by
    intro s hs
    have hnil := (mem_filter.1 hs).2
    cases s with
    | nil => cases hnil
    | cons a r => exact ⟨a, r, rfl⟩
  have hcyc : Cyclic (retain seqs) := by
    refine cyclic_of_predecessors ((retain seqs).filterMap head?) ?_ ?_
    · obtain ⟨s, hs⟩ := exists_mem_of_ne_nil _ hne
      obtain ⟨a, r, rfl⟩ := hhead s hs
      exact ne_nil_of_mem (mem_filterMap.2 ⟨_, hs, rfl⟩)
    · intro y hy
      have hblocked := find?_eq_none.1 h y hy
      obtain ⟨s, hs, hys⟩ : ∃ s ∈ retain seqs, y ∈ s.tail := by simpa using hblocked
      obtain ⟨x, r, rfl⟩ := hhead s hs
      exact ⟨x, mem_filterMap.2 ⟨_, hs, rfl⟩, _, hs,
        cons_sublist_cons.2 (singleton_sublist.2 hys)⟩
  exact hcyc.mono fun s hs => ⟨s, (mem_filter.1 hs).1, List.Sublist.refl s⟩

/-- A merge that ends keeps all orders, and one that gets stuck was asked to keep orders that
contradict each other. -/
lemma mergeLoop_spec : (∀ l, mergeLoop out seqs = some l → ∃ m, l = out ++ m ∧ Merges seqs m) ∧
    (mergeLoop out seqs = none → Cyclic seqs) := by
  fun_induction mergeLoop out seqs with
  | case1 out seqs hnil =>
    refine ⟨fun l h => ⟨[], by simpa using h.symm, Merges.of_retain ?_⟩, nofun⟩
    exact ⟨nodup_nil, fun s hs => absurd (hnil ▸ hs) not_mem_nil, nofun⟩
  | case2 out seqs hne hnone => exact ⟨nofun, fun _ => cyclic_of_nextHead hne hnone⟩
  | case3 out seqs hne next hnext ih =>
    refine ⟨fun l h => ?_, fun h => (ih.2 h).mono fun s hs => ?_⟩
    · obtain ⟨m, rfl, hm⟩ := ih.1 l h
      exact ⟨next :: m, by simp, (merges_cons hnext hm).of_retain⟩
    · rcases mem_dropHead.1 hs with hs | ⟨hs, -⟩
      · exact ⟨_, (mem_filter.1 hs).1, sublist_cons_self next s⟩
      · exact ⟨s, (mem_filter.1 hs).1, List.Sublist.refl s⟩

end merge

/-! ## The linearization -/

section linearization

variable {parents : Parents α} {t a b : α} {path : Finset α} {l : List α}

/-- `b` is a declared base of `t`. -/
def BaseOf (parents : Parents α) (t b : α) : Prop := b ∈ parents.bases t

/-- `a` is `t` or one of its ancestors. -/
def Ancestor (parents : Parents α) (t a : α) : Prop :=
  Relation.ReflTransGen (BaseOf parents) t a

/-- The linearizations of the bases of `t`, in the order of the bases. -/
def BaseOrders (parents : Parents α) (t : α) (seqs : List (List α)) : Prop :=
  List.Forall₂ (fun b s => c3 parents b ∅ = some s) (parents.bases t) seqs

lemma Ancestor.base (h : BaseOf parents t b) (hb : Ancestor parents b a) : Ancestor parents t a :=
  Relation.ReflTransGen.head h hb

lemma c3_eq_bind (h : t ∉ path) : c3 parents t path =
    ((parents.bases t).mapM fun b => c3 parents b (insert t path)).bind fun seqs =>
      mergeLoop [t] (seqs ++ [parents.bases t]) := by
  have hmap : ((parents.bases t).attach.mapM fun b => c3 parents b.1 (insert t path))
      = (parents.bases t).mapM fun b => c3 parents b (insert t path) := by
    refine Option.ext fun seqs => ?_
    rw [mapM_eq_some_iff, mapM_eq_some_iff]
    conv_rhs => rw [← attach_map_subtype_val (parents.bases t)]
    rw [forall₂_map_left_iff]
  rw [c3, dif_neg h, ← hmap]
  rfl

lemma c3_eq_some_iff : c3 parents t path = some l ↔ t ∉ path ∧ ∃ seqs,
    List.Forall₂ (fun b s => c3 parents b (insert t path) = some s) (parents.bases t) seqs ∧
      mergeLoop [t] (seqs ++ [parents.bases t]) = some l := by
  by_cases h : t ∈ path
  · rw [c3]
    simp [h]
  · simp only [c3_eq_bind h, Option.bind_eq_some_iff, mapM_eq_some_iff, h, not_false_eq_true,
      true_and]

/-- A linearization does not depend on the path above it. -/
lemma c3_mono {path' : Finset α} (hsub : path' ⊆ path) (h : c3 parents t path = some l) :
    c3 parents t path' = some l := by
  induction t, path using c3.induct parents generalizing path' l with
  | case1 t path ht => exact absurd ht (c3_eq_some_iff.1 h).1
  | case2 t path ht ih =>
    obtain ⟨-, seqs, hseqs, hmerge⟩ := c3_eq_some_iff.1 h
    refine c3_eq_some_iff.2 ⟨fun ht' => ht (hsub ht'), seqs, ?_, hmerge⟩
    exact forall₂_imp (fun b hb s hs => ih b hb (Finset.insert_subset_insert t hsub) hs) hseqs

/-- What a linearization is made of. -/
lemma c3_orders (h : c3 parents t path = some l) : ∃ seqs m, BaseOrders parents t seqs ∧
    l = t :: m ∧ Merges (seqs ++ [parents.bases t]) m := by
  obtain ⟨-, seqs, hseqs, hmerge⟩ := c3_eq_some_iff.1 h
  obtain ⟨m, rfl, hm⟩ := mergeLoop_spec.1 _ hmerge
  exact ⟨seqs, m, hseqs.imp fun b s hs => c3_mono (Finset.empty_subset _) hs, rfl, hm⟩

/-- No type on the path is an ancestor of a linearized type, and no ancestor is its own. -/
lemma c3_acyclic (h : c3 parents t path = some l) :
    (∀ p ∈ path, ¬Ancestor parents t p) ∧
      ∀ a, Ancestor parents t a → ¬Relation.TransGen (BaseOf parents) a a := by
  induction t, path using c3.induct parents generalizing l with
  | case1 t path ht => exact absurd ht (c3_eq_some_iff.1 h).1
  | case2 t path ht ih =>
    obtain ⟨-, seqs, hseqs, -⟩ := c3_eq_some_iff.1 h
    have hbase : ∀ b ∈ parents.bases t, (∀ p ∈ insert t path, ¬Ancestor parents b p) ∧
        ∀ a, Ancestor parents b a → ¬Relation.TransGen (BaseOf parents) a a := by
      intro b hb
      obtain ⟨s, -, hs⟩ := forall₂_left hseqs hb
      exact ih b hb hs
    constructor
    · intro p hp hanc
      rcases Relation.ReflTransGen.cases_head hanc with rfl | ⟨b, hb, hanc⟩
      · exact ht hp
      · exact (hbase b hb).1 p (Finset.mem_insert_of_mem hp) hanc
    · intro a hanc hcyc
      rcases Relation.ReflTransGen.cases_head hanc with rfl | ⟨b, hb, hanc⟩
      · obtain ⟨b, hb, hback⟩ := Relation.TransGen.head'_iff.1 hcyc
        exact (hbase b hb).1 t (Finset.mem_insert_self t path) hback
      · exact (hbase b hb).2 a hanc hcyc

/-- What it means for a list to be a linearization of `t`. -/
structure Linearization (parents : Parents α) (t : α) (l : List α) : Prop where
  head : l.head? = some t
  nodup : l.Nodup
  mem : ∀ x, x ∈ l ↔ Ancestor parents t x
  bases : ∀ x ∈ l, (x :: parents.bases x).Sublist l
  own : ∀ x ∈ l, ∃ lx, c3 parents x ∅ = some lx ∧ lx.Sublist l

lemma c3_linearization (h : c3 parents t path = some l) : Linearization parents t l := by
  induction t, path using c3.induct parents generalizing l with
  | case1 t path ht => exact absurd ht (c3_eq_some_iff.1 h).1
  | case2 t path ht ih =>
    have hself := c3_mono (Finset.empty_subset path) h
    obtain ⟨-, seqs, hseqs, hmerge⟩ := c3_eq_some_iff.1 h
    obtain ⟨m, rfl, hm⟩ := mergeLoop_spec.1 _ hmerge
    have hseq : ∀ s ∈ seqs, s.Sublist m := fun s hs => hm.order s (by simp [hs])
    have hlist : (parents.bases t).Sublist m := hm.order _ (by simp)
    -- every base is linearized, and its linearization is kept
    have hbase : ∀ b ∈ parents.bases t, ∃ s ∈ seqs, Linearization parents b s := by
      intro b hb
      obtain ⟨s, hs, hbs⟩ := forall₂_left hseqs hb
      exact ⟨s, hs, ih b hb hbs⟩
    -- and everything merged comes from one of them
    have hfrom : ∀ x ∈ m, ∃ b ∈ parents.bases t, ∃ s ∈ seqs, Linearization parents b s ∧ x ∈ s := by
      intro x hx
      obtain ⟨s, hs, hxs⟩ := hm.mem x hx
      rcases mem_append.1 hs with hs | hs
      · obtain ⟨b, hb, hbs⟩ := forall₂_right hseqs hs
        exact ⟨b, hb, s, hs, ih b hb hbs, hxs⟩
      · obtain rfl := mem_singleton.1 hs
        obtain ⟨s, hs, hlin⟩ := hbase x hxs
        exact ⟨x, hxs, s, hs, hlin, mem_of_mem_head? hlin.head⟩
    have hmem : ∀ x, x ∈ m ↔ ∃ b, BaseOf parents t b ∧ Ancestor parents b x := by
      intro x
      constructor
      · intro hx
        obtain ⟨b, hb, s, -, hlin, hxs⟩ := hfrom x hx
        exact ⟨b, hb, (hlin.mem x).1 hxs⟩
      · rintro ⟨b, hb, hanc⟩
        obtain ⟨s, hs, hlin⟩ := hbase b hb
        exact (hseq s hs).subset ((hlin.mem x).2 hanc)
    refine ⟨rfl, nodup_cons.2 ⟨fun ht => ?_, hm.nodup⟩, fun x => ?_, fun x hx => ?_,
      fun x hx => ?_⟩
    · obtain ⟨b, hb, hback⟩ := (hmem t).1 ht
      exact (c3_acyclic h).2 t .refl (Relation.TransGen.head'_iff.2 ⟨b, hb, hback⟩)
    · change x ∈ t :: m ↔ _
      rw [mem_cons, hmem, Ancestor, Relation.ReflTransGen.cases_head_iff]
      exact or_congr_left eq_comm
    · rcases mem_cons.1 hx with rfl | hx
      · exact hlist.cons_cons x
      · obtain ⟨b, -, s, hs, hlin, hxs⟩ := hfrom x hx
        exact ((hlin.bases x hxs).trans (hseq s hs)).cons t
    · rcases mem_cons.1 hx with rfl | hx
      · exact ⟨_, hself, List.Sublist.refl _⟩
      · obtain ⟨b, -, s, hs, hlin, hxs⟩ := hfrom x hx
        obtain ⟨lx, hlx, hsub⟩ := hlin.own x hxs
        exact ⟨lx, hlx, (hsub.trans (hseq s hs)).cons t⟩

/-- The ways a linearization fails. -/
lemma c3_eq_none (h : c3 parents t path = none) : (∃ p ∈ path, Ancestor parents t p) ∨
    (∃ a, Ancestor parents t a ∧ Relation.TransGen (BaseOf parents) a a) ∨
    ∃ a seqs, Ancestor parents t a ∧ BaseOrders parents a seqs ∧
      Cyclic (seqs ++ [parents.bases a]) := by
  induction t, path using c3.induct parents with
  | case1 t path ht => exact .inl ⟨t, ht, .refl⟩
  | case2 t path ht ih =>
    rw [c3_eq_bind ht] at h
    rcases Option.bind_eq_none_iff.1 h with hcollect
    cases hseqs : (parents.bases t).mapM fun b => c3 parents b (insert t path) with
    | none =>
      obtain ⟨b, hb, hfail⟩ := mapM_eq_none hseqs
      rcases ih b hb hfail with ⟨p, hp, hanc⟩ | ⟨a, hanc, hcyc⟩ | ⟨a, seqs, hanc, hbad⟩
      · rcases Finset.mem_insert.1 hp with rfl | hp
        · exact .inr (.inl ⟨p, .refl, Relation.TransGen.head'_iff.2 ⟨b, hb, hanc⟩⟩)
        · exact .inl ⟨p, hp, hanc.base hb⟩
      · exact .inr (.inl ⟨a, hanc.base hb, hcyc⟩)
      · exact .inr (.inr ⟨a, seqs, hanc.base hb, hbad⟩)
    | some seqs =>
      refine .inr (.inr ⟨t, seqs, .refl, ?_, mergeLoop_spec.2 (hcollect seqs hseqs)⟩)
      exact (mapM_eq_some_iff.1 hseqs).imp fun b s hs => c3_mono (Finset.empty_subset _) hs

/-- A linearized type has no ancestor whose constraints are contradictory. -/
lemma c3_not_cyclic {seqs : List (List α)} (h : c3 parents t ∅ = some l)
    (hseqs : BaseOrders parents t seqs) : ¬Cyclic (seqs ++ [parents.bases t]) := by
  obtain ⟨seqs', m, hseqs', -, hm⟩ := c3_orders h
  have hunique : Relator.RightUnique fun b s => c3 parents b ∅ = some s := by
    intro b s s' hs hs'
    exact Option.some.inj (hs.symm.trans hs')
  rw [right_unique_forall₂' hunique hseqs hseqs']
  exact not_cyclic_of_sublist hm.nodup hm.order

/-- When the linearization of `root` succeeds it starts with the root, has no repetition, contains
exactly the root and its ancestors, has every type before its bases in their declared order and
keeps the order of every ancestor's own linearization. It fails exactly when a base cycle is
reachable or the constraints at some ancestor contradict each other. -/
theorem c3_correct (parents : Parents α) (root : α) :
    (∀ l, c3 parents root ∅ = some l → Linearization parents root l) ∧
    (c3 parents root ∅ = none ↔
      (∃ a, Ancestor parents root a ∧ Relation.TransGen (BaseOf parents) a a) ∨
      ∃ a seqs, Ancestor parents root a ∧ BaseOrders parents a seqs ∧
        Cyclic (seqs ++ [parents.bases a])) := by
  refine ⟨fun l => c3_linearization, fun h => ?_, fun h => ?_⟩
  · rcases c3_eq_none h with ⟨p, hp, -⟩ | hfail
    · exact absurd hp (Finset.notMem_empty p)
    · exact hfail
  · by_contra hsome
    obtain ⟨l, hl⟩ := Option.ne_none_iff_exists'.1 hsome
    rcases h with ⟨a, hanc, hcyc⟩ | ⟨a, seqs, hanc, hseqs, hcyc⟩
    · exact (c3_acyclic hl).2 a hanc hcyc
    · have hlin := c3_linearization hl
      obtain ⟨la, hla, -⟩ := hlin.own a ((hlin.mem a).2 hanc)
      exact c3_not_cyclic hla hseqs hcyc

end linearization

end Index.Mro
