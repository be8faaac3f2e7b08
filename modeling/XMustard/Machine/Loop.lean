import Mathlib.Order.WellFounded

/-! # Loops

A loop repeats a step until there is none left. It ends because every step lowers a measure, and
what every step keeps still holds when it has ended. -/

namespace Machine

variable {σ μ : Type*} [Preorder μ] {step : σ → Option σ} {P : σ → Prop}

def loop [WellFoundedLT μ] (step : σ → Option σ) (size : σ → μ)
    (lower : ∀ s s', step s = some s' → size s' < size s) (s : σ) : σ :=
  match _h : step s with
  | none => s
  | some s' => loop step size lower s'
termination_by WellFounded.wrap wellFounded_lt (size s)
decreasing_by exact lower s s' _h

/-- A loop ends where no step is left, with everything its steps keep. -/
theorem loop_spec [WellFoundedLT μ] {size : σ → μ}
    (lower : ∀ s s', step s = some s' → size s' < size s)
    (keeps : ∀ s s', P s → step s = some s' → P s') (s : σ) (h : P s) :
    P (loop step size lower s) ∧ step (loop step size lower s) = none := by
  fun_induction loop step size lower s with
  | case1 s hnone => exact ⟨h, hnone⟩
  | case2 s s' hsome ih => exact ih (keeps s s' h hsome)

/-- A loop that is run for a number of steps at most. -/
def runFor (step : σ → Option σ) : ℕ → σ → σ
  | 0, s => s
  | n + 1, s =>
    match step s with
    | none => s
    | some s' => runFor step n s'

/-- Run for as many steps as its measure allows, a loop ends where no step is left, with everything
its steps keep. -/
theorem runFor_spec {size : σ → ℕ} (lower : ∀ s s', step s = some s' → size s' < size s)
    (keeps : ∀ s s', P s → step s = some s' → P s') {n : ℕ} {s : σ} (hn : size s ≤ n) (h : P s) :
    P (runFor step n s) ∧ step (runFor step n s) = none := by
  induction n generalizing s with
  | zero =>
    refine ⟨h, ?_⟩
    cases hstep : step s with
    | none => exact hstep
    | some s' => exact absurd (lower s s' hstep) (by omega)
  | succ n ih =>
    rw [runFor]
    cases hstep : step s with
    | none => exact ⟨h, hstep⟩
    | some s' =>
      have := lower s s' hstep
      exact ih (by omega) (keeps s s' h hstep)

end Machine
