import Mathlib.Data.List.Sort
import Mathlib.Data.List.Perm.Basic

/-! # Heaps of the smallest

A heap of bounded size takes the members of a collection in any order, and lets its largest go
whenever it has too many. Whatever the order, it ends up with the smallest members. A heap is a list
in ascending order here, so its largest is the last. -/

namespace Lists

open List

variable {α κ : Type} [LinearOrder κ] {key : α → κ} {cap : Nat} {heap gone xs : List α} {x : α}

/-- Add to a heap. -/
def heapInsert (key : α → κ) (x : α) (heap : List α) : List α :=
  heap.orderedInsert (fun a b => key a ≤ key b) x

/-- Add to a heap of at most `cap` members: the heap, and what it lets go. -/
def heapPush (key : α → κ) (cap : Nat) (x : α) (heap : List α) : List α × Option α :=
  let heap' := heapInsert key x heap
  if heap'.length > cap then (heap'.dropLast, heap'.getLast?) else (heap', none)

/-- In ascending order of distinct keys. -/
abbrev Ascending (key : α → κ) (l : List α) : Prop := l.Pairwise fun a b => key a < key b

lemma heapInsert_perm (key : α → κ) (x : α) (heap : List α) :
    (heapInsert key x heap).Perm (x :: heap) :=
  perm_orderedInsert _ x heap

@[simp] lemma length_heapInsert (key : α → κ) (x : α) (heap : List α) :
    (heapInsert key x heap).length = heap.length + 1 :=
  (heapInsert_perm key x heap).length_eq

/-- Lists in ascending order that have the same members are the same. -/
lemma Ascending.eq_of_perm {l l' : List α} (h : Ascending key l) (hperm : l.Perm l')
    (h' : Ascending key l') : l = l' :=
  hperm.eq_of_pairwise (fun _ _ _ _ hlt hgt => absurd hgt (lt_asymm hlt)) h h'

lemma ascending_of_nodup (h : xs.Pairwise fun a b => key a ≤ key b) (hnodup : (xs.map key).Nodup) :
    Ascending key xs :=
  (h.and (pairwise_map.1 hnodup)).imp fun hab => lt_of_le_of_ne hab.1 hab.2

lemma Ascending.nodup (h : Ascending key xs) : (xs.map key).Nodup := by
  rw [List.Nodup, pairwise_map]
  exact h.imp fun hlt => ne_of_lt hlt

instance totalKey : @Std.Total α fun a b => key a ≤ key b := ⟨fun _ _ => le_total _ _⟩

instance isTransKey : IsTrans α fun a b => key a ≤ key b := ⟨fun _ _ _ => le_trans⟩

/-- Sorted by keys that are distinct. -/
lemma ascending_insertionSort (h : (xs.map key).Nodup) :
    Ascending key (xs.insertionSort fun a b => key a ≤ key b) :=
  ascending_of_nodup (pairwise_insertionSort _ xs)
    (((perm_insertionSort _ xs).map key).nodup_iff.2 h)

/-- Before a larger last member. -/
lemma heapInsert_concat (init : List α) {top : α} (h : key x ≤ key top) :
    heapInsert key x (init ++ [top]) = heapInsert key x init ++ [top] := by
  induction init with
  | nil => simp [heapInsert, h]
  | cons y init ih =>
    simp only [heapInsert] at ih
    by_cases hy : key x ≤ key y
    · simp [heapInsert, hy]
    · simp [heapInsert, hy, ih]

/-- The first members after an insertion depend on the first members only. -/
lemma take_heapInsert (cap : Nat) (l : List α) :
    (heapInsert key x (l.take cap)).take cap = (heapInsert key x l).take cap := by
  induction l generalizing cap with
  | nil => simp
  | cons y l ih =>
    cases cap with
    | zero => simp
    | succ cap =>
      have hrest := ih cap
      simp only [heapInsert] at hrest
      by_cases hy : key x ≤ key y
      · cases cap <;> simp [heapInsert, hy, take_take]
      · simp [heapInsert, hy, hrest]

lemma heapPush_fst (h : heap.length ≤ cap) :
    (heapPush key cap x heap).1 = (heapInsert key x heap).take cap := by
  have hlength := length_heapInsert key x heap
  unfold heapPush
  dsimp only
  split
  · next hlong =>
    rw [dropLast_eq_take, hlength, Nat.add_sub_cancel, le_antisymm h (by omega)]
  · next hshort => exact (take_of_length_le (not_lt.1 hshort)).symm

lemma heapPush_perm (key : α → κ) (cap : Nat) (x : α) (heap : List α) :
    ((heapPush key cap x heap).1 ++ (heapPush key cap x heap).2.toList).Perm (x :: heap) := by
  refine Perm.trans (Perm.of_eq ?_) (heapInsert_perm key x heap)
  unfold heapPush
  dsimp only
  split
  · cases hlast : (heapInsert key x heap).getLast? with
    | none => simp [getLast?_eq_none_iff.1 hlast]
    | some m => exact dropLast_append_getLast? m hlast
  · simp

/-- What is in a heap of at most `cap` members and what it let go, after it took `xs`. -/
def Smallest (key : α → κ) (cap : Nat) (heap gone xs : List α) : Prop :=
  ∃ sorted : List α, sorted.Perm xs ∧ sorted.Pairwise (fun a b => key a ≤ key b)
    ∧ heap = sorted.take cap
    ∧ gone.Perm (sorted.drop cap)

namespace Smallest

lemma nil (key : α → κ) (cap : Nat) : Smallest key cap [] [] [] :=
  ⟨[], .nil, .nil, take_nil.symm, by simp⟩

section

variable (h : Smallest key cap heap gone xs)
include h

lemma length_le : heap.length ≤ cap := by
  obtain ⟨sorted, -, -, rfl, -⟩ := h
  exact length_take_le _ _

lemma sorted : heap.Pairwise fun a b => key a ≤ key b := by
  obtain ⟨sorted, -, hsorted, rfl, -⟩ := h
  exact hsorted.sublist (take_sublist _ _)

lemma perm {ys : List α} (hperm : xs.Perm ys) : Smallest key cap heap gone ys := by
  obtain ⟨sorted, hsorted, hrest⟩ := h
  exact ⟨sorted, hsorted.trans hperm, hrest⟩

/-- The heap takes one more. -/
lemma push (x : α) :
    Smallest key cap (heapPush key cap x heap).1 (gone ++ (heapPush key cap x heap).2.toList)
      (xs ++ [x]) := by
  obtain ⟨sorted, hperm, hsorted, rfl, hgone⟩ := h
  have hpush : (heapPush key cap x (sorted.take cap)).1 = (heapInsert key x sorted).take cap := by
    rw [heapPush_fst (length_take_le _ _), take_heapInsert]
  have hinsert := heapInsert_perm key x sorted
  refine ⟨heapInsert key x sorted, ?_, hsorted.orderedInsert x _, hpush, ?_⟩
  · exact (hinsert.trans (hperm.cons x)).trans (perm_append_singleton x xs).symm
  · -- what is in the heap and what is gone make up the same list
    refine (perm_append_left_iff ((heapInsert key x sorted).take cap)).1 ?_
    rw [take_append_drop, ← hpush]
    refine (perm_append_comm.append_left _).trans ?_
    rw [← append_assoc]
    refine ((heapPush_perm key cap x _).append hgone).trans ?_
    rw [cons_append, take_append_drop]
    exact hinsert.symm

/-- A full heap stays as it is when nothing in it is larger than what comes. -/
lemma keep (hfull : heap.length = cap) (hx : ∀ a ∈ heap, key a ≤ key x) :
    Smallest key cap heap (gone ++ [x]) (xs ++ [x]) := by
  obtain ⟨sorted, hperm, hsorted, rfl, hgone⟩ := h
  have hinsert := heapInsert_perm key x (sorted.drop cap)
  rw [← take_append_drop cap sorted] at hsorted hperm
  obtain ⟨htake, hdrop, hbelow⟩ := pairwise_append.1 hsorted
  refine ⟨sorted.take cap ++ heapInsert key x (sorted.drop cap), ?_, ?_, ?_, ?_⟩
  · refine ((hinsert.append_left _).trans ?_).trans (hperm.append_right [x])
    rw [append_assoc]
    exact (perm_append_singleton x _).symm.append_left _
  · refine pairwise_append.2 ⟨htake, hdrop.orderedInsert x _, fun a ha b hb => ?_⟩
    rcases mem_cons.1 (hinsert.subset hb) with rfl | hb
    · exact hx a ha
    · exact hbelow a ha b hb
  · rw [take_left' hfull]
  · rw [drop_left' hfull]
    exact ((hgone.append_right [x]).trans (perm_append_singleton x _)).trans hinsert.symm

/-- The heap has the first members in ascending order, and the others are gone. -/
lemma take_drop {sorted : List α} (hperm : sorted.Perm xs) (hsorted : Ascending key sorted) :
    heap = sorted.take cap ∧ gone.Perm (sorted.drop cap) := by
  obtain ⟨l, hl, hle, rfl, hgone⟩ := h
  have hsame := hl.trans hperm.symm
  obtain rfl := (ascending_of_nodup hle ((hsame.map key).nodup_iff.2 hsorted.nodup)).eq_of_perm
    hsame hsorted
  exact ⟨rfl, hgone⟩

end

end Smallest

end Lists
