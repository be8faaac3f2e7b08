import Mathlib.Data.Fintype.Card

/-! # Enumeration of the elementary cycles of a component

Johnson's algorithm over the local indexes of one component: from every start vertex, a search
through the vertices at or above it. A vertex from which the start cannot be reached around the
current path stays blocked until a vertex it waits for is unblocked. -/

namespace Index

/-- The adjacency lists of a graph: no edge is listed twice. -/
structure Adjacency where
  targets : ℕ → List ℕ
  nodup : ∀ f, (targets f).Nodup

/-- The file ids of a component, sorted. -/
structure Members where
  ids : List ℕ
  sorted : ids.Pairwise (· < ·)

/-- What the enumeration has spent, shared by every start of every component. -/
structure Budget where
  steps : ℕ := 0
  cycles : ℕ := 0
  deriving DecidableEq

/-- What an enumeration may spend. -/
structure Limits where
  stepBudget : ℕ
  maxCycles : ℕ

/-- The limits of the source. -/
def defaultLimits : Limits where
  stepBudget := 2000000
  maxCycles := 10000

def maxEnumeratedSize : ℕ := 200

def Budget.spent (limits : Limits) (budget : Budget) : Bool :=
  limits.stepBudget < budget.steps || limits.maxCycles < budget.cycles

variable {k : ℕ}

structure Johnson (k : ℕ) where
  blocked : Fin k → Bool := fun _ => false
  b : Fin k → List (Fin k) := fun _ => []
  path : List (Fin k) := []
  /-- The cycles kept for the listing, at most `room`. -/
  found : List (List (Fin k)) := []
  budget : Budget := {}
  blown : Bool := false

namespace Johnson

variable (s : Johnson k)

/-- Take the vertices that wait for `u`, and let `u` be visited again. -/
def release (u : Fin k) : Johnson k :=
  { s with blocked := Function.update s.blocked u false, b := Function.update s.b u [] }

lemma card_blocked_release {s : Johnson k} {u : Fin k} (h : s.blocked u) :
    (Finset.univ.filter fun w => (s.release u).blocked w = true).card <
      (Finset.univ.filter fun w => s.blocked w = true).card := by
  refine Finset.card_lt_card ⟨fun w hw => ?_, fun hsub => ?_⟩
  · have hblocked := (Finset.mem_filter.1 hw).2
    have hwu : w ≠ u := fun hwu => by simp [release, hwu] at hblocked
    exact Finset.mem_filter.2 ⟨Finset.mem_univ w, by simpa [release, hwu] using hblocked⟩
  · have hu := (Finset.mem_filter.1 (hsub (Finset.mem_filter.2 ⟨Finset.mem_univ u, h⟩))).2
    simp [release] at hu

/-- The loops of `unblock` over the vertices taken, the innermost first. -/
def unblockAll (ws : List (Fin k)) (s : Johnson k) : Johnson k :=
  match ws with
  | [] => s
  | w :: ws =>
    if _h : s.blocked w then unblockAll (s.b w ++ ws) (s.release w) else unblockAll ws s
termination_by ((Finset.univ.filter fun w => s.blocked w = true).card, ws.length)
decreasing_by
  · exact Prod.Lex.left _ _ (card_blocked_release _h)
  · exact Prod.Lex.right _ (Nat.lt_succ_self _)

def unblock (u : Fin k) : Johnson k := unblockAll (s.b u) (s.release u)

def enter (v : Fin k) : Johnson k :=
  { s with path := s.path ++ [v], blocked := Function.update s.blocked v true }

def pop : Johnson k := { s with path := s.path.dropLast }

def tick : Johnson k :=
  { s with budget := { s.budget with steps := s.budget.steps + 1 } }

/-- Count the path as a cycle, and keep it while there is room. -/
def report (room : ℕ) (s : Johnson k) : Johnson k :=
  { s with
    budget := { s.budget with cycles := s.budget.cycles + 1 }
    found := if s.found.length < room then s.found ++ [s.path] else s.found }

/-- `v` waits for `w`. -/
def wait (start v : Fin k) (s : Johnson k) (w : Fin k) : Johnson k :=
  if start ≤ w ∧ !(s.b w).contains v then
    { s with b := Function.update s.b w (s.b w ++ [v]) }
  else s

section search

variable (adj : Fin k → List (Fin k)) (start : Fin k) (room : ℕ) (limits : Limits)

/-- The loop of `circuit` over the edges of the last vertex of the path; `visit` is the call for
the next one. -/
def scan (visit : Fin k → Johnson k → Option (Bool × Johnson k)) :
    List (Fin k) → Bool → Johnson k → Option (Bool × Johnson k)
  | [], closed, s => some (closed, s)
  | w :: ws, closed, s =>
    let s := s.tick
    if s.blown || s.budget.spent limits then some (closed, { s with blown := true })
    else if w < start then scan visit ws closed s
    else if w = start then scan visit ws true (s.report room)
    else if s.blocked w then scan visit ws closed s
    else
      match visit w s with
      | none => none
      | some (c, s) => scan visit ws (closed || c) s

/-- What happens to `v` when its edges have been looked at. -/
def settle (v : Fin k) (closed : Bool) (s : Johnson k) : Johnson k :=
  if closed then s.unblock v else (adj v).foldl (wait start v) s

/-- Cycles through `start` using only vertices at or above it; `none` when the calls are nested
deeper than `fuel`. -/
def circuit : ℕ → Fin k → Johnson k → Option (Bool × Johnson k)
  | 0, _, _ => none
  | fuel + 1, v, s =>
    match scan start room limits (circuit fuel) (adj v) false (s.enter v) with
    | none => none
    | some (closed, s) => some (closed, (settle adj start v closed s).pop)

/-- The loop of `enumerate` over the starts; the cycles kept are `none` when the budget ran out. -/
def runFrom : List (Fin k) → List (List (Fin k)) → Budget →
    Option (Option (List (List (Fin k))) × Budget)
  | [], found, budget => some (some found, budget)
  | start :: starts, found, budget =>
    match circuit adj start room limits k start { found := found, budget := budget } with
    | none => none
    | some (_, j) => if j.blown then some (none, j.budget) else runFrom starts j.found j.budget

end search

end Johnson

/-- The edges between members, in local indexes. -/
def localAdj (members : Members) (adj : Adjacency) (i : Fin members.ids.length) :
    List (Fin members.ids.length) :=
  (adj.targets (members.ids.get i)).filterMap members.ids.finIdxOf?

/-- The elementary cycles of component `members`, within the shared budget: their count and the
first `room` of them, or none when the budget ran out, and what has been spent. -/
def enumerate (limits : Limits) (members : Members) (adj : Adjacency) (budget : Budget)
    (room : ℕ) : Option (Option (ℕ × List (List ℕ)) × Budget) :=
  if maxEnumeratedSize < members.ids.length then some (none, budget)
  else
    match Johnson.runFrom (localAdj members adj) room limits
        (List.finRange members.ids.length) [] budget with
    | none => none
    | some (none, budget) => some (none, budget)
    | some (some found, after) =>
      some (some (after.cycles - budget.cycles, found.map (·.map members.ids.get)), after)

end Index
