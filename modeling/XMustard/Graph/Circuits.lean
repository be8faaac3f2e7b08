import Mathlib.Data.Finset.Max
import Mathlib.Data.List.Cycle
import XMustard.Graph.Reach

/-! # Elementary circuits

An elementary circuit is a cyclic sequence of distinct vertices along the edges. It has exactly one
listing that starts with its least vertex. -/

namespace Graph

open List

variable {V : Type*}

/-- A cyclic sequence of distinct vertices, at least one, along the edges. -/
def IsCircuit (adj : V → List V) (c : Cycle V) : Prop :=
  c ≠ Cycle.nil ∧ c.Nodup ∧ c.Chain (Arc adj)

variable [LinearOrder V] {adj : V → List V} {start : V} {l : List V}

/-- The listing of an elementary circuit from its least vertex. -/
structure CircuitFrom (adj : V → List V) (start : V) (l : List V) : Prop where
  head : l.head? = some start
  nodup : l.Nodup
  least : ∀ u ∈ l, start ≤ u
  chain : List.IsChain (Arc adj) (l ++ [start])

lemma CircuitFrom.exists_cons (h : CircuitFrom adj start l) : ∃ rest, l = start :: rest := by
  obtain ⟨rest, hrest⟩ := List.head?_eq_some_iff.1 h.head
  exact ⟨rest, hrest⟩

lemma CircuitFrom.isCircuit (h : CircuitFrom adj start l) : IsCircuit adj (l : Cycle V) := by
  obtain ⟨rest, rfl⟩ := h.exists_cons
  refine ⟨by simp, by simpa using h.nodup, ?_⟩
  exact h.chain

/-- Two listings of one circuit from its least vertex are the same. -/
lemma CircuitFrom.eq_of_coe_eq {start' : V} {l' : List V} (h : CircuitFrom adj start l)
    (h' : CircuitFrom adj start' l') (hcoe : (l : Cycle V) = l') : l = l' := by
  have hrot : l ~r l' := Cycle.coe_eq_coe.1 hcoe
  obtain ⟨rest, rfl⟩ := h.exists_cons
  obtain ⟨rest', rfl⟩ := h'.exists_cons
  -- both start with the least vertex
  obtain rfl : start = start' := le_antisymm
    (h.least _ (hrot.mem_iff.2 (by simp))) (h'.least _ (hrot.mem_iff.1 (by simp)))
  obtain ⟨n, hn⟩ := hrot
  rw [← rotate_mod] at hn
  have hlt := Nat.mod_lt n (length_pos_of_ne_nil (cons_ne_nil start rest))
  have hhead := List.head?_rotate hlt
  rw [hn, List.head?_cons, List.getElem?_eq_getElem hlt, Option.some.injEq] at hhead
  have hfirst : (start :: rest)[0] = (start :: rest)[n % (start :: rest).length] := hhead
  have hzero := h.nodup.getElem_inj_iff.1 hfirst
  rwa [← hzero, rotate_zero] at hn

/-- Every elementary circuit can be listed from its least vertex. -/
lemma IsCircuit.exists_circuitFrom {c : Cycle V} (h : IsCircuit adj c) :
    ∃ start l, CircuitFrom adj start l ∧ (l : Cycle V) = c := by
  obtain ⟨l, rfl⟩ : ∃ l : List V, (l : Cycle V) = c := Quotient.exists_rep c
  have hne : l ≠ [] := fun hnil => h.1 (by simp [hnil])
  obtain ⟨m, hm, hmin⟩ := l.toFinset.exists_min_image id (toFinset_nonempty_iff l |>.2 hne)
  obtain ⟨l₁, l₂, rfl⟩ := append_of_mem (mem_toFinset.1 hm)
  have hcoe : ((m :: (l₂ ++ l₁) : List V) : Cycle V) = (l₁ ++ m :: l₂ : List V) :=
    Cycle.coe_eq_coe.2 (show (m :: l₂) ++ l₁ ~r l₁ ++ m :: l₂ from isRotated_append)
  refine ⟨m, m :: (l₂ ++ l₁), ⟨rfl, ?_, fun u hu => hmin u ?_, ?_⟩, hcoe⟩
  · exact Cycle.nodup_coe_iff.1 (hcoe ▸ h.2.1)
  · simp only [mem_cons, mem_append, mem_toFinset] at hu ⊢
    tauto
  · exact (Cycle.chain_coe_cons _ _ _).1 (hcoe ▸ h.2.2)

end Graph
