import Mathlib.Algebra.Order.Ring.Nat
import Mathlib.Data.Fintype.Basic
import Mathlib.Data.Finset.Card
import Mathlib.Data.List.Sort
import Mathlib.Data.Prod.Lex
import XMustard.Graph.Reach
import XMustard.Machine.Loop

/-! # Strongly connected components

Tarjan's algorithm with an explicit call stack of (node, next edge). Stacks are lists with the top
first; a node without an index has not been seen. -/

namespace Index

variable {n : Nat}

structure Tarjan (n : Nat) where
  index : Fin n → Option Nat := fun _ => none
  low : Fin n → Nat := fun _ => 0
  on : Fin n → Bool := fun _ => false
  stack : List (Fin n) := []
  call : List (Fin n × Nat) := []
  next : Nat := 0
  out : List (List (Fin n)) := []

namespace Tarjan

variable (t : Tarjan n)

def enter (v : Fin n) : Tarjan n :=
  { t with
    index := Function.update t.index v (some t.next)
    low := Function.update t.low v t.next
    next := t.next + 1
    stack := v :: t.stack
    on := Function.update t.on v true
    call := (v, 0) :: t.call }

/-- Pop the stack down to `v`: what was popped, and what is left. -/
def popTo (v : Fin n) : List (Fin n) → List (Fin n) × List (Fin n)
  | [] => ([], [])
  | w :: stack => if w = v then ([w], stack) else ((popTo v stack).map (w :: ·) id)

/-- Look at the edge from the top frame `v` to `w`. -/
def follow (v w : Fin n) : Tarjan n :=
  match t.index w with
  | none => t.enter w
  | some k => if t.on w then { t with low := Function.update t.low v (min (t.low v) k) } else t

/-- What `v` leaves to its caller. -/
def report (v : Fin n) : Tarjan n :=
  match t.call with
  | [] => t
  | (p, _) :: _ => { t with low := Function.update t.low p (min (t.low p) (t.low v)) }

/-- A root of a component takes the component off the stack. -/
def close (v : Fin n) : Tarjan n :=
  if some (t.low v) = t.index v then
    let (comp, stack) := popTo v t.stack
    { t with
      stack := stack
      on := fun w => t.on w && w ∉ comp
      out := t.out ++ [comp.mergeSort] }
  else t

/-- One turn of the loop: the next edge of the top frame, or its return. -/
def step (adj : Fin n → List (Fin n)) (t : Tarjan n) : Option (Tarjan n) :=
  match t.call with
  | [] => none
  | (v, i) :: call =>
    match (adj v)[i]? with
    | some w => some ({ t with call := (v, i + 1) :: call }.follow v w)
    | none => some (({ t with call := call }.report v).close v)

/-- The nodes not seen yet, and the edges left in the open frames. -/
def left (adj : Fin n → List (Fin n)) (t : Tarjan n) : Nat ×ₗ Nat :=
  toLex ((Finset.univ.filter fun v => t.index v = none).card,
    (t.call.map fun f => (adj f.1).length - f.2 + 1).sum)

variable {adj : Fin n → List (Fin n)} {t t' : Tarjan n} {v w : Fin n}

@[simp] lemma report_index (t : Tarjan n) (v : Fin n) : (t.report v).index = t.index := by
  unfold report
  split <;> rfl

@[simp] lemma report_call (t : Tarjan n) (v : Fin n) : (t.report v).call = t.call := by
  unfold report
  split <;> rfl

@[simp] lemma close_index (t : Tarjan n) (v : Fin n) : (t.close v).index = t.index := by
  unfold close
  split <;> rfl

@[simp] lemma close_call (t : Tarjan n) (v : Fin n) : (t.close v).call = t.call := by
  unfold close
  split <;> rfl

lemma left_lt_of_index (hindex : t'.index = t.index)
    (hcall : (t'.call.map fun f => (adj f.1).length - f.2 + 1).sum
      < (t.call.map fun f => (adj f.1).length - f.2 + 1).sum) : left adj t' < left adj t := by
  rw [left, left, hindex, Prod.Lex.toLex_lt_toLex]
  exact .inr ⟨rfl, hcall⟩

lemma left_enter (h : t.index w = none) : left adj (t.enter w) < left adj t := by
  rw [left, left, Prod.Lex.toLex_lt_toLex]
  refine .inl ?_
  dsimp only
  refine Finset.card_lt_card ⟨fun u hu => ?_, fun hsub => ?_⟩
  · simp only [Finset.mem_filter, Finset.mem_univ, true_and] at hu ⊢
    by_cases huw : u = w
    · exact huw ▸ h
    · simpa [enter, Function.update_of_ne huw] using hu
  · have hw := (Finset.mem_filter.1 (hsub (Finset.mem_filter.2 ⟨Finset.mem_univ w, h⟩))).2
    simp [enter] at hw

/-- The call stack is used up: every turn sees a new node, follows an edge or returns. -/
lemma step_left (t t' : Tarjan n) (h : step adj t = some t') : left adj t' < left adj t := by
  unfold step at h
  split at h
  · cases h
  · next v i call hcall =>
    split at h
    · next w hw =>
      have hi : i < (adj v).length := (List.getElem?_eq_some_iff.1 hw).1
      have hframe : left adj { t with call := (v, i + 1) :: call } < left adj t := by
        refine left_lt_of_index rfl ?_
        simp only [hcall, List.map_cons, List.sum_cons]
        omega
      cases h
      unfold follow
      split
      · next hnew => exact (left_enter hnew).trans hframe
      · split <;> exact hframe
    · cases h
      refine left_lt_of_index (by simp) ?_
      simp only [close_call, report_call, hcall, List.map_cons, List.sum_cons]
      omega

/-- Follow everything reachable from a node that has not been seen. -/
def visit (adj : Fin n → List (Fin n)) (t : Tarjan n) (root : Fin n) : Tarjan n :=
  if t.index root ≠ none then t else Machine.loop (step adj) (left adj) step_left (t.enter root)

end Tarjan

/-- The strongly connected components, each sorted. -/
def tarjan (adj : Fin n → List (Fin n)) : List (List (Fin n)) :=
  ((List.finRange n).foldl (Tarjan.visit adj) {}).out

end Index
