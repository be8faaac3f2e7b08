import Mathlib.Order.WellFounded
import Mathlib.Data.Fintype.EquivFin

/-! # Orders that lists impose

A list orders its elements by position. Several lists impose their orders together, and may then
contradict each other. -/

namespace Lists

open List Option

variable {α β : Type*} {seqs seqs' : List (List α)} {s l : List α} {x y : α} {f : α → Option β}

/-- One of the lists has `x` before `y`. -/
def Precedes (seqs : List (List α)) (x y : α) : Prop := ∃ s ∈ seqs, [x, y].Sublist s

/-- The lists contradict each other (or one has an element twice). -/
def Cyclic (seqs : List (List α)) : Prop := ∃ x, Relation.TransGen (Precedes seqs) x x

lemma Precedes.mono (h : ∀ s ∈ seqs, ∃ s' ∈ seqs', s.Sublist s') (hxy : Precedes seqs x y) :
    Precedes seqs' x y := by
  obtain ⟨s, hs, hsub⟩ := hxy
  obtain ⟨s', hs', hss'⟩ := h s hs
  exact ⟨s', hs', hsub.trans hss'⟩

lemma Cyclic.mono (h : ∀ s ∈ seqs, ∃ s' ∈ seqs', s.Sublist s') (hc : Cyclic seqs) :
    Cyclic seqs' := by
  obtain ⟨x, hx⟩ := hc
  exact ⟨x, hx.lift id fun _ _ hxy => Precedes.mono h hxy⟩

/-- In a list without repetition positions order the elements. -/
lemma precedes_trans {z : α} (hl : l.Nodup) (hxy : [x, y].Sublist l) (hyz : [y, z].Sublist l) :
    [x, z].Sublist l := by
  induction l with
  | nil => cases hxy
  | cons a l ih =>
    obtain ⟨ha, hl⟩ := nodup_cons.1 hl
    rcases sublist_cons_iff.1 hxy with hxy' | ⟨r, heq, hr⟩
    · rcases sublist_cons_iff.1 hyz with hyz' | ⟨r, heq, hr⟩
      · exact (ih hl hxy' hyz').cons a
      · -- y would be the first element and also come after x
        obtain ⟨rfl, rfl⟩ := cons.inj heq
        have hy : y ∈ l := hxy'.subset (by simp)
        exact absurd hy ha
    · obtain ⟨rfl, rfl⟩ := cons.inj heq
      rcases sublist_cons_iff.1 hyz with hyz' | ⟨r, heq', hr'⟩
      · exact cons_sublist_cons.2 (singleton_sublist.2 (hyz'.subset (by simp)))
      · obtain ⟨rfl, rfl⟩ := cons.inj heq'
        have hy : y ∈ l := hr.subset (by simp)
        exact absurd hy ha

/-- A list without repetition that keeps the order of all the others shows that they do not
contradict each other. -/
lemma not_cyclic_of_sublist (hl : l.Nodup) (h : ∀ s ∈ seqs, s.Sublist l) : ¬Cyclic seqs := by
  rintro ⟨x, hx⟩
  have hall : ∀ {a b}, Relation.TransGen (Precedes seqs) a b → [a, b].Sublist l := by
    intro a b hab
    induction hab with
    | single hab =>
      obtain ⟨s, hs, hsub⟩ := hab
      exact hsub.trans (h s hs)
    | tail _ hbc ih =>
      obtain ⟨s, hs, hsub⟩ := hbc
      exact precedes_trans hl ih (hsub.trans (h s hs))
  have htwice := (hall hx).nodup hl
  simp at htwice

/-- When every element of a finite non-empty set comes after another one of it, the lists
contradict each other. -/
lemma cyclic_of_predecessors (heads : List α) (hne : heads ≠ [])
    (h : ∀ y ∈ heads, ∃ x ∈ heads, Precedes seqs x y) : Cyclic seqs := by
  by_contra hacyclic
  let R : {x // x ∈ heads} → {x // x ∈ heads} → Prop :=
    fun a b => Relation.TransGen (Precedes seqs) a b
  have hirrefl : Std.Irrefl R := ⟨fun a ha => hacyclic ⟨a, ha⟩⟩
  have hfin : Finite {x // x ∈ heads} := by
    classical exact Finite.of_fintype _
  have hwf : WellFounded R := Finite.wellFounded_of_trans_of_irrefl R
  obtain ⟨m, -, hmin⟩ := hwf.has_min Set.univ
    ⟨⟨heads.head hne, head_mem hne⟩, trivial⟩
  obtain ⟨x, hx, hxm⟩ := h m.1 m.2
  exact hmin ⟨x, hx⟩ trivial (.single hxm)

/-! ## Lists related element by element -/

section forall₂

variable {R S : α → β → Prop} {xs : List α} {ys : List β}

lemma forall₂_imp (h : ∀ x ∈ xs, ∀ y, R x y → S x y) (hR : List.Forall₂ R xs ys) :
    List.Forall₂ S xs ys :=
  ((forall₂_and_left xs ys).2 ⟨h, hR⟩).imp fun _ _ hxy => hxy.1 _ hxy.2

lemma forall₂_left (hR : List.Forall₂ R xs ys) (hx : x ∈ xs) : ∃ y ∈ ys, R x y := by
  induction hR with
  | nil => cases hx
  | @cons a b xs ys hab _ ih =>
    rcases mem_cons.1 hx with rfl | hx
    · exact ⟨b, by simp, hab⟩
    · obtain ⟨y, hy, hxy⟩ := ih hx
      exact ⟨y, mem_cons_of_mem b hy, hxy⟩

lemma forall₂_right (hR : List.Forall₂ R xs ys) {y : β} (hy : y ∈ ys) : ∃ x ∈ xs, R x y :=
  forall₂_left (R := flip R) hR.flip hy

end forall₂

/-! ## Collecting optional results -/

/-- In a list in increasing order of `f`, the first match has the least value. -/
lemma find?_le {p : α → Bool} {f : α → Nat} {xs : List α} (h : xs.Pairwise (f · < f ·))
    (hx : xs.find? p = some x) (hy : y ∈ xs) (hp : p y) : f x ≤ f y := by
  induction xs with
  | nil => cases hy
  | cons z xs ih =>
    obtain ⟨hz, hxs⟩ := pairwise_cons.1 h
    rw [find?_cons] at hx
    rcases mem_cons.1 hy with rfl | hmem
    · rw [hp] at hx
      cases hx
      exact Nat.le_refl _
    · split at hx
      · cases hx
        exact Nat.le_of_lt (hz y hmem)
      · exact ih hxs hx hmem

lemma mapM_eq_some_iff {xs : List α} {ys : List β} :
    xs.mapM f = some ys ↔ List.Forall₂ (fun x y => f x = some y) xs ys := by
  induction xs generalizing ys with
  | nil =>
    cases ys with
    | nil | cons => simp
  | cons x xs ih =>
    rw [mapM_cons]
    cases ys with
    | nil => simp [bind_eq_some_iff]
    | cons y ys =>
      simp only [Option.bind_eq_bind, Option.bind_eq_some_iff, Option.pure_def, Option.some.injEq,
        cons.injEq, forall₂_cons, ih]
      constructor
      · rintro ⟨_, hx, _, hxs, rfl, rfl⟩
        exact ⟨hx, hxs⟩
      · rintro ⟨hx, hxs⟩
        exact ⟨y, hx, ys, hxs, rfl, rfl⟩

lemma mapM_eq_none {xs : List α} (h : xs.mapM f = none) : ∃ x ∈ xs, f x = none := by
  by_contra hsome
  have hall : ∀ x ∈ xs, ∃ y, f x = some y := fun x hx =>
    ne_none_iff_exists'.1 fun hnone => hsome ⟨x, hx, hnone⟩
  obtain ⟨ys, hys⟩ : ∃ ys, List.Forall₂ (fun x y => f x = some y) xs ys := by
    clear h hsome
    induction xs with
    | nil => exact ⟨[], .nil⟩
    | cons x xs ih =>
      obtain ⟨y, hy⟩ := hall x (by simp)
      obtain ⟨ys, hys⟩ := ih fun x hx => hall x (mem_cons_of_mem _ hx)
      exact ⟨y :: ys, .cons hy hys⟩
  rw [mapM_eq_some_iff.2 hys] at h
  exact some_ne_none _ h

lemma mapM_eq_ok {ε : Type*} {f : α → Except ε β} {xs : List α} {ys : List β}
    (h : xs.mapM f = .ok ys) : List.Forall₂ (fun x y => f x = .ok y) xs ys := by
  induction xs generalizing ys with
  | nil =>
    cases h
    exact .nil
  | cons x xs ih =>
    cases hx : f x with
    | error err => simp [hx, bind, Except.bind] at h
    | ok y =>
      cases hxs : xs.mapM f with
      | error err => simp [hx, hxs, bind, Except.bind] at h
      | ok zs =>
        obtain rfl : y :: zs = ys := by
          simpa [hx, hxs, bind, Except.bind, pure, Except.pure] using h
        exact .cons hx (ih hxs)

end Lists
