import Mathlib.Order.Nat
import Mathlib.Tactic.ByContra

/-! # Executions of concurrent machines

A machine whose parties take turns in any order: an event says who moves, and may be impossible in
a state. An execution goes on for ever, so a machine that comes to rest needs an event that does
nothing. An execution is fair if no party that can always move is passed over for ever. -/

namespace Machine

open List

variable {σ ι κ : Type*} {step : σ → ι → Option σ} {init : σ}

/-- An infinite execution from `init`. -/
structure Execution (step : σ → ι → Option σ) (init : σ) where
  state : ℕ → σ
  event : ℕ → ι
  start : state 0 = init
  next : ∀ n, step (state n) (event n) = some (state (n + 1))

/-- Every party that can move from some point on moves: `act k` is the move of the party `k`. -/
def Execution.Fair (x : Execution step init) (can : κ → σ → Prop) (act : κ → ι) : Prop :=
  ∀ n k, (∀ m ≥ n, can k (x.state m)) → ∃ m ≥ n, x.event m = act k

namespace Execution

variable (x : Execution step init)

/-- What holds at first and is kept by every event holds throughout. -/
theorem invariant {P : σ → Prop} (hinit : P init)
    (hstep : ∀ s i s', P s → step s i = some s' → P s') (n : ℕ) : P (x.state n) := by
  induction n with
  | zero => rw [x.start]; exact hinit
  | succ n ih => exact hstep _ _ _ ih (x.next n)

variable {x} {can : κ → σ → Prop} {act : κ → ι} {n : ℕ}

/-- A party that can move as long as `P` holds moves in a state with `P`, if `P` lasts until then.
-/
theorem Fair.moves (hfair : x.Fair can act) (k : κ) {P : ℕ → Prop}
    (hcan : ∀ m, P m → can k (x.state m))
    (hkeep : ∀ m, P m → x.event m ≠ act k → P (m + 1)) (hn : P n) :
    ∃ m ≥ n, P m ∧ x.event m = act k := by
  by_contra hnone
  have hP : ∀ m ≥ n, P m := by
    intro m hm
    induction m, hm using Nat.le_induction with
    | base => exact hn
    | succ m hm ih => exact hkeep m ih fun heq => hnone ⟨m, hm, ih, heq⟩
  obtain ⟨m, hm, heq⟩ := hfair n k fun m hm => hcan m (hP m hm)
  exact hnone ⟨m, hm, hP m hm, heq⟩

/-- An execution comes to rest if from `n` on every move of a party makes the measure smaller, no
other event makes it larger, and until the rest some party can move. -/
theorem Fair.comes_to_rest (hfair : x.Fair can act) {μ : σ → ℕ} {Rest : σ → Prop}
    (hdown : ∀ m ≥ n, μ (x.state (m + 1)) ≤ μ (x.state m))
    (hmove : ∀ m ≥ n, ∀ k, x.event m = act k → μ (x.state (m + 1)) < μ (x.state m))
    (hlasts : ∀ m ≥ n, ∀ k, can k (x.state m) → x.event m ≠ act k → can k (x.state (m + 1)))
    (hrest : ∀ m ≥ n, ¬Rest (x.state m) → ∃ k, can k (x.state m)) :
    ∃ m ≥ n, Rest (x.state m) := by
  -- by induction on the measure: the party that can move does so at last
  suffices h : ∀ c m, m ≥ n → μ (x.state m) = c → ∃ m' ≥ n, Rest (x.state m') from
    h _ n le_rfl rfl
  intro c
  induction c using Nat.strong_induction_on with
  | _ c ih =>
    intro m hm hc
    by_cases hR : Rest (x.state m)
    · exact ⟨m, hm, hR⟩
    obtain ⟨k, hk⟩ := hrest m hm hR
    obtain ⟨l, hl, ⟨hnl, -, hle⟩, heq⟩ := hfair.moves k
      (P := fun l => n ≤ l ∧ can k (x.state l) ∧ μ (x.state l) ≤ c) (fun l hl => hl.2.1)
      (fun l ⟨hnl, hcan, hle⟩ hne => ⟨by omega, hlasts l hnl k hcan hne, (hdown l hnl).trans hle⟩)
      ⟨hm, hk, hc.le⟩
    exact ih _ ((hmove l hnl k heq).trans_le hle) (l + 1) (by omega) rfl

/-! ### Executions that come to rest -/

section ofList

variable (step) (init) (rest : ι) (events : List ι)

/-- The state after the first `n` events of a list; an event that is impossible is passed over. -/
def stateAfter (n : ℕ) : σ := (events.take n).foldl (fun s i => (step s i).getD s) init

variable {events} in
lemma stateAfter_of_le (hn : events.length ≤ n) :
    stateAfter step init events n = stateAfter step init events events.length := by
  rw [stateAfter, stateAfter, take_of_length_le hn, take_length]

/-- The execution with the events of a list, all of them possible, which rests after the last. -/
def ofList (hrest : ∀ s, step s rest = some s)
    (possible : ∀ n, (hn : n < events.length) →
      (step (stateAfter step init events n) events[n]).isSome) : Execution step init where
  state := stateAfter step init events
  event n := events[n]?.getD rest
  start := rfl
  next n := by
    by_cases hn : n < events.length
    · obtain ⟨s', hs'⟩ := Option.isSome_iff_exists.1 (possible n hn)
      rw [getElem?_eq_getElem hn, Option.getD_some, hs', stateAfter, take_add_one,
        foldl_append, ← stateAfter, getElem?_eq_getElem hn]
      simp only [Option.toList_some, foldl_cons, foldl_nil, hs', Option.getD_some]
    · rw [getElem?_eq_none (by omega), Option.getD_none, hrest,
        stateAfter_of_le step init (by omega : events.length ≤ n),
        stateAfter_of_le step init (by omega : events.length ≤ n + 1)]

end ofList

end Execution

end Machine
