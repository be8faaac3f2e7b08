import XMustard.Kernel.Invalidation

/-!
# Memories at risk

Grounding lists the served memories that a change reached and that the caller may read. The list is
read through a window that widens until it holds more rows than are shown or the store ends inside
it. A page of the store is never longer than its own limit, however wide the window is.
-/

namespace WorkspaceOps

open List GovStore

def maxAtRisk : ℕ := 20
def atRiskPage : ℕ := 100
def atRiskScanCeiling : ℕ := 4000

structure AtRiskMemory where
  id : String
  title : String
  paths : List String
  anchors : List (AnchorKind × String)
  sinceCommit : String
  since : Option Time
  trust : String
  deriving DecidableEq

/-- A row of the list; `flagged` titles read like instructions. -/
def atRiskMemory (flagged : String → Bool) (db : Db) (e : Entry) : AtRiskMemory :=
  let anchors := (db.anchorsOf e.id).insertionSort fun x y => x.ordinal ≤ y.ordinal
  let stale := anchors.filter fun x => x.staleSince ≠ none
  { id := e.id
    title := if e.metadata.get metaQuarantine = "" ∧ !flagged e.title then e.title else ""
    paths := (anchors.filter fun x => x.kind = .path ∧ x.declared).map (·.value)
    anchors := stale.map fun x => (x.kind, x.value)
    sinceCommit := ((stale.map (·.staleCommit)).find? (· ≠ "")).getD ""
    since := e.staleSince
    trust := fallbackString e.verificationMode.text "unverified" }

/-- The order of times, no time first. -/
def notAfter : Option Time → Option Time → Bool
  | none, _ => true
  | some _, none => false
  | some s, some t => s ≤ t

/-- The served entries that need to be verified again, the longest stale first. -/
def atRiskRows (db : Db) (now : Time) (workspaceId : String) : List Entry :=
  (db.entries.filter fun e => isServed now workspaceId e && e.needsReverify).insertionSort
    fun e f => notAfter e.staleSince f.staleSince
      ∧ (notAfter f.staleSince e.staleSince → e.pk ≤ f.pk)

/-- Widen the window: the visible rows, and whether the store ended inside it. -/
def scanAtRisk (rows : List Entry) (visible : Entry → Bool) (limit : ℕ) : List Entry × Bool :=
  let page := rows.take (clampLimit limit)
  let seen := page.filter visible
  if seen.length > maxAtRisk ∨ page.length < limit then (seen, page.length < limit)
  -- the first limit is not 0
  else if limit ≥ atRiskScanCeiling ∨ limit = 0 then (seen, false)
  else scanAtRisk rows visible (min (limit * 2) atRiskScanCeiling)
termination_by atRiskScanCeiling - limit

/-- The list, and whether it is truncated. -/
def readAtRisk (flagged : String → Bool) (db : Db) (now : Time) (workspaceId caller : String)
    (req : ScopeRequest) : Except Err (List AtRiskMemory × Bool) :=
  if idOk workspaceId then
    let (seen, exhausted) := scanAtRisk (atRiskRows db now workspaceId)
      (fun e => scopesVisible e.scope e.scopeKey e.source caller req) atRiskPage
    .ok (((seen.take maxAtRisk).map (atRiskMemory flagged db)).insertionSort
        fun a b => notAfter a.since b.since, seen.length > maxAtRisk ∨ !exhausted)
  else .error (invalid "%s id %q")

/-- A window that a short store ends in holds all of it. -/
lemma scanAtRisk_exhausted {rows : List Entry} {visible : Entry → Bool} {limit : ℕ}
    (hfew : rows.length ≤ maxListLimit) (hend : (scanAtRisk rows visible limit).2) :
    (scanAtRisk rows visible limit).1 = rows.filter visible := by
  fun_induction scanAtRisk rows visible limit with
  | case1 limit page seen hstop =>
    have hshort : page.length < limit := of_decide_eq_true hend
    have hclamp : min limit maxListLimit ≤ clampLimit limit := by
      unfold clampLimit
      split_ifs <;> omega
    have hall : rows.length ≤ clampLimit limit := by
      simp only [page, length_take] at hshort
      omega
    simp only [seen, page, take_of_length_le hall]
  | case2 => cases hend
  | case3 limit page seen hmore hwiden ih => exact ih hend

variable {flagged : String → Bool} {db : Db} {now : Time} {workspaceId caller : String}
  {req : ScopeRequest} {out : List AtRiskMemory}

/-- A list that is not truncated has every served memory at risk that the caller may read, as long
as they all fit one page of the store. -/
theorem readAtRisk_complete
    (hout : readAtRisk flagged db now workspaceId caller req = .ok (out, false))
    (hfew : (atRiskRows db now workspaceId).length ≤ maxListLimit) {e : Entry} (he : e ∈ db.entries)
    (hserved : isServed now workspaceId e) (hstale : e.needsReverify)
    (hvisible : scopesVisible e.scope e.scopeKey e.source caller req) :
    atRiskMemory flagged db e ∈ out := by
  unfold readAtRisk at hout
  split_ifs at hout
  generalize hscan : scanAtRisk _ _ _ = scan at hout
  obtain ⟨seen, exhausted⟩ := scan
  simp only [Except.ok.injEq, Prod.mk.injEq, decide_eq_false_iff_not, not_or, not_lt] at hout
  obtain ⟨rfl, hpage, hend⟩ := hout
  have hseen := @scanAtRisk_exhausted _
    (fun e => scopesVisible e.scope e.scopeKey e.source caller req) atRiskPage hfew
  rw [hscan] at hseen
  obtain rfl := hseen (by simpa using hend)
  rw [mem_insertionSort, take_of_length_le hpage]
  refine mem_map_of_mem (mem_filter.2 ⟨?_, hvisible⟩)
  rw [atRiskRows, mem_insertionSort]
  exact mem_filter.2 ⟨he, by simp [hserved, hstale]⟩

/-- A memory whose file has changed, before and after it is promoted. -/
def atRisk (promoted : Bool) : Db := Db.empty.history .plain
  [[(1, .insertEntry { id := "m", workspaceId := "w", content := "c", paths := ["f"] }
      { principal := "ann" }),
    (2, .setPromotion "m" ⟨some .verified, promoted, if promoted then some .singleAgent else none⟩
      { principal := "ann" }),
    (3, .markStale "m" [(.path, "f")] "" { principal := "ann" })]]

/-- A memory that is not served is not listed. -/
theorem readAtRisk_unserved :
    (atRisk false).entries.map (fun e => (e.lifecycle, e.needsReverify, e.scope))
        = [(.active, true, .workspace)]
      ∧ readAtRisk (fun _ => false) (atRisk false) 4 "w" "bob" {} = .ok ([], false) := by
  decide +kernel

/-- That memory behind a hundred that only their author may read, so the window widens once. -/
def crowded : Db :=
  { atRisk true with
    entries := (atRisk true).entries.flatMap fun e =>
      (range 100).map (fun i => { e with pk := i, id := toString i, scope := .privateScope })
        ++ [{ e with pk := 100 }] }

theorem readAtRisk_complete_served :
    (atRiskRows crowded 4 "w").length = 101 ∧
      ∃ e ∈ crowded.entries, atRiskMemory (fun _ => false) crowded e
        ∈ [⟨"m", "", ["f"], [(.path, "f")], "", some 3, "single_agent"⟩] := by
  have hrows : (atRiskRows crowded 4 "w").length = 101 := by decide +kernel
  obtain ⟨e, he, hserved, hstale, hvisible⟩ : ∃ e ∈ crowded.entries, isServed 4 "w" e
      ∧ e.needsReverify ∧ scopesVisible e.scope e.scopeKey e.source "bob" {} := by
    decide +kernel
  have hfew : (atRiskRows crowded 4 "w").length ≤ maxListLimit := by simp [hrows, maxListLimit]
  exact ⟨hrows, e, he, readAtRisk_complete (by decide +kernel) hfew he hserved hstale hvisible⟩

end WorkspaceOps
