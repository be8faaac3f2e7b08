import Mathlib.Data.List.Induction

/-! # Runs of a machine that answers its calls

A component with a state and a step function that answers every call. A run is the list of the
calls made so far; facts about a run are proved by adding calls at its end. -/

namespace Machine

variable {σ ι ο : Type*} (step : σ → ι → ο × σ)

variable (s : σ)

/-- The state after the calls of `H`, in order. -/
def run (H : List ι) : σ := H.foldl (fun s i => (step s i).2) s

@[simp] lemma run_nil : run step s [] = s := rfl

@[simp] lemma run_cons (i : ι) (H : List ι) :
    run step s (i :: H) = run step (step s i).2 H := rfl

lemma run_append (A B : List ι) : run step s (A ++ B) = run step (run step s A) B :=
  List.foldl_append

lemma run_snoc (H : List ι) (i : ι) :
    run step s (H ++ [i]) = (step (run step s H) i).2 := by
  rw [run_append, run_cons, run_nil]

/-- The call `i`, made after the calls of `A`, was answered `o`, and the calls of `B` followed. -/
structure Event (s : σ) (H A : List ι) (i : ι) (o : ο) (B : List ι) : Prop where
  split : H = A ++ i :: B
  answer : (step (run step s A) i).1 = o

variable {step} {s : σ} {H A B : List ι} {i : ι} {o : ο}

lemma Event.snoc (h : Event step s H A i o B) (j : ι) :
    Event step s (H ++ [j]) A i o (B ++ [j]) :=
  ⟨by rw [h.split, List.append_assoc, List.cons_append], h.answer⟩

/-- An event of a longer history is its last call, or was one before it. -/
lemma Event.of_snoc {j : ι} (h : Event step s (H ++ [j]) A i o B) :
    (B = [] ∧ A = H) ∨ ∃ B', B = B' ++ [j] ∧ Event step s H A i o B' := by
  obtain ⟨hsplit, hanswer⟩ := h
  rcases B.eq_nil_or_concat with rfl | ⟨B', k, rfl⟩
  · exact .inl ⟨rfl, (List.append_inj' hsplit rfl).1.symm⟩
  · rw [List.concat_eq_append, ← List.cons_append, ← List.append_assoc] at hsplit
    obtain ⟨rfl, hk⟩ := List.append_inj' hsplit rfl
    cases hk
    exact .inr ⟨B', List.concat_eq_append, rfl, hanswer⟩

/-- The event that the last call of a run is. -/
lemma event_last (h : (step (run step s H) i).1 = o) : Event step s (H ++ [i]) H i o [] :=
  ⟨rfl, h⟩

/-- A fact about runs holds of every run when it holds of the empty one and every further call
keeps it. -/
theorem run_invariant {P : List ι → σ → Prop} (init : P [] s)
    (next : ∀ H i, P H (run step s H) → P (H ++ [i]) (step (run step s H) i).2) (H : List ι) :
    P H (run step s H) := by
  induction H using List.reverseRecOn with
  | nil => exact init
  | append_singleton H i ih =>
    rw [run_snoc]
    exact next H i ih

/-- A fact about states that every step keeps holds after every run that starts with it. -/
theorem run_preserves {P : σ → Prop} (next : ∀ s i, P s → P (step s i).2) (init : P s)
    (H : List ι) : P (run step s H) :=
  run_invariant (P := fun _ s => P s) init (fun _ i => next _ i) H

end Machine
