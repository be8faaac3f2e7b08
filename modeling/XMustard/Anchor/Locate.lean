import XMustard.Lists.Borders
import XMustard.Text.Unicode

/-!
# Anchors of quoted code

A snippet of code is anchored where its lines stand one after the other in a file, without regard to
blank lines, diff markers and the space around a line. It is searched in tiers: the new sides of the
hunks of a change, their old sides, and the file itself. In the first tier that holds it, it has to
stand once, or else where it was anchored before.
-/

namespace Anchors

open List Lists

/-! ### Snippets and lines -/

/-- Normalized lines, with the table to search for them. -/
structure Snippet where
  lines : List String
  fail : List Nat
  isTable : fail = failure lines

def snippetOf (lines : List String) : Snippet := ⟨lines, failure lines, rfl⟩

def trimMarker (c : Char) (s : String) : String :=
  if s.toList.head? = some c then String.ofList s.toList.tail else s

def normalizeLine (s : String) : String :=
  Text.trimSpace (trimMarker '-' (trimMarker '+' (Text.trimSpace s)))

structure Line where
  num : Int
  text : String

/-- The lines that are not blank, numbered from `num` on. -/
def numberLines (num : Int) : List (List Char) → List Line
  | [] => []
  | l :: ls =>
    let text := normalizeLine (String.ofList l)
    if text = "" then numberLines (num + 1) ls else ⟨num, text⟩ :: numberLines (num + 1) ls

def contentLines (content : String) : List Line := numberLines 1 (content.toList.splitOn '\n')

/-! ### The search -/

structure Span where
  start : Int := 0
  stop : Int := 0
deriving DecidableEq

structure Found where
  first : Span := {}
  preferred : Span := {}
  n : Nat := 0
deriving DecidableEq

def Found.add (prefer : Int) (found : Found) (sp : Span) : Found where
  first := if found.n = 0 then sp else found.first
  preferred := if sp.start = prefer then sp else found.preferred
  n := found.n + 1

def numAt (seg : List Line) (i : Nat) : Int := (seg[i]?.map Line.num).getD 0

/-- Search the lines of a segment from number `i` on, of which `j` lines of the snippet match
before. -/
def findFrom (s : Snippet) (prefer : Int) (seg : List Line) : List Line → Nat → Nat → Found → Found
  | [], _, _, found => found
  | l :: rest, i, j, found =>
    let j := matchNext s.lines s.fail j l.text
    if j < s.lines.length then findFrom s prefer seg rest (i + 1) j found
    else findFrom s prefer seg rest (i + 1) (s.fail.getD (j - 1) 0)
      (found.add prefer ⟨numAt seg (i + 1 - s.lines.length), l.num⟩)

def find (segs : List (List Line)) (s : Snippet) (prefer : Int) : Found :=
  if s.lines = [] then {}
  else segs.foldl (fun found seg => findFrom s prefer seg seg 0 0 found) {}

/-! ### Anchors -/

inductive Status
  | exactNew
  | exactOld
  | inFile
  | unanchored
deriving DecidableEq

inductive Side
  | new
  | old
deriving DecidableEq

inductive Reason
  | noSnippet
  | notFound
  | ambiguous
  | headUnread

structure Anchor where
  path : String
  startLine : Int := 0
  endLine : Int := 0
  side : Option Side := none
  status : Status
  reason : Option Reason := none
  candidates : Nat := 0

def unplaced (path : String) (reason : Reason) : Anchor :=
  { path, status := .unanchored, reason := some reason }

/-- A changed file. The content at head, if there is any, comes with whether it was read. -/
structure File where
  path : String
  oldPath : String
  newSide : List (List Line)
  oldSide : List (List Line)
  head : Option (String × Bool)

namespace File

variable (f : File)

def headSegments : List (List Line) :=
  match f.head with
  | none => []
  | some (content, _) => if (contentLines content).isEmpty then [] else [contentLines content]

def headUnread : Bool := f.head.any fun head => !head.2

def pathOn (side : Side) : String :=
  if side = .old ∧ f.oldPath ≠ "" then f.oldPath else f.path

end File

structure Tier where
  status : Status
  side : Side
  segments : File → List (List Line)

def wholeFile : Tier := ⟨.inFile, .new, File.headSegments⟩

def tiers : List Tier :=
  [⟨.exactNew, .new, File.newSide⟩, ⟨.exactOld, .old, File.oldSide⟩, wholeFile]

def decide (path : String) (t : Tier) (first : Span) (n : Nat) : Anchor :=
  if n > 1 then { path, status := .unanchored, reason := some .ambiguous, candidates := n }
  else { path, startLine := first.start, endLine := first.stop, side := t.side, status := t.status }

def locateAt (path content : String) (s : Snippet) (prefer : Int) : Anchor :=
  if s.lines = [] then unplaced path .noSnippet
  else
    let found := find [contentLines content] s prefer
    let found := if found.n > 1 ∧ found.preferred.start > 0 then
      { found with first := found.preferred, n := 1 } else found
    if found.n = 0 then unplaced path .notFound else decide path wholeFile found.first found.n

def locate (path content : String) (s : Snippet) : Anchor := locateAt path content s 0

def reanchor (prev : Anchor) (content : String) (s : Snippet) : Anchor :=
  locateAt prev.path content s prev.startLine

def File.resolve (f : File) (s : Snippet) : Anchor :=
  if s.lines = [] then unplaced f.path .noSnippet
  else
    match tiers.find? fun t => (find (t.segments f) s 0).n > 0 with
    | some t =>
      let found := find (t.segments f) s 0
      decide (f.pathOn t.side) t found.first found.n
    | none => unplaced f.path (if f.headUnread then .headUnread else .notFound)

/-! ### What the search finds -/

/-- The numbers of the lines of a segment from which on the snippet stands there. -/
def positions (want : List String) (seg : List Line) : List Nat :=
  (range (seg.length + 1 - want.length)).filter fun p =>
    want ≠ [] ∧ want <+: (seg.map Line.text).drop p

/-- Where the snippet stands in the segments, in order. -/
def occurrences (want : List String) (segs : List (List Line)) : List Span :=
  segs.flatMap fun seg =>
    (positions want seg).map fun p => ⟨numAt seg p, numAt seg (p + want.length - 1)⟩

variable {s : Snippet} {prefer : Int} {seg : List Line} {found : Found} {want : List String}

/-- The matches by the line they end with. -/
lemma findFrom_eq (hne : s.lines ≠ []) {rest : List Line} {i j : Nat} (hrest : seg.drop i = rest)
    (hj : IsGreatest (Borders s.lines ((seg.map Line.text).take i) s.lines.length) j) :
    findFrom s prefer seg rest i j found
      = (((range' i rest.length).filter fun k => s.lines <:+ (seg.map Line.text).take (k + 1)).map
        fun k => ⟨numAt seg (k + 1 - s.lines.length), numAt seg k⟩).foldl
          (Found.add prefer) found := by
  induction rest generalizing i j found with
  | nil => rfl
  | cons l rest ih =>
    have hl : seg[i]? = some l := by rw [← head?_drop, hrest, head?_cons]
    have hrest' : seg.drop (i + 1) = rest := by rw [← tail_drop, hrest, tail_cons]
    obtain ⟨hfull, hnext⟩ := isGreatest_search hne hj l.text
    have htake : (seg.map Line.text).take i ++ [l.text] = (seg.map Line.text).take (i + 1) := by
      simp [take_add_one, hl]
    rw [← s.isTable, htake] at hfull hnext
    rw [findFrom, length_cons, range'_succ, filter_cons]
    split at hnext
    next hless =>
      rw [if_pos hless, if_neg (by simpa using hfull.1 hless), ih hrest' hnext]
    next hnot =>
      have hhere := not_not.1 (mt hfull.2 hnot)
      rw [if_neg hnot, if_pos (decide_eq_true hhere), ih hrest' hnext]
      simp [numAt, hl]

/-- A match ends as many lines after its start as the snippet has. -/
lemma filter_ends (t : List String) (hne : want ≠ []) :
    (range t.length).filter (fun k => want <:+ t.take (k + 1))
      = ((range (t.length + 1 - want.length)).filter fun p => want <+: t.drop p).map
        (want.length - 1 + ·) := by
  have hpos := length_pos_iff.2 hne
  have hlong {k : Nat} (h : want <:+ t.take (k + 1)) : want.length ≤ k + 1 :=
    h.length_le.trans (by simp)
  rcases Nat.lt_or_ge t.length want.length with h | h
  · rw [Nat.sub_eq_zero_of_le h, filter_eq_nil_iff.2 fun k hk hs => ?_]
    · rfl
    · have := hlong (of_decide_eq_true hs)
      have := mem_range.1 hk
      omega
  · obtain ⟨d, hd⟩ : ∃ d, t.length = want.length - 1 + d := ⟨_, (Nat.add_sub_of_le (by omega)).symm⟩
    rw [show t.length + 1 - want.length = d by omega, hd, range_add, filter_append,
      filter_eq_nil_iff.2 fun k hk hs => ?_, nil_append, filter_map]
    · refine congrArg _ (filter_congr fun p hp => decide_eq_decide.2 ?_)
      have hp := mem_range.1 hp
      rw [show want.length - 1 + p + 1 = p + want.length by omega, suffix_iff_eq_drop,
        prefix_iff_eq_take, length_take, min_eq_left (by omega), Nat.add_sub_cancel, drop_take,
        Nat.add_sub_cancel_left]
    · have := hlong (of_decide_eq_true hs)
      have := mem_range.1 hk
      omega

lemma find_eq_foldl (segs : List (List Line)) (s : Snippet) (prefer : Int) :
    find segs s prefer = (occurrences s.lines segs).foldl (Found.add prefer) {} := by
  unfold find
  split
  next h =>
    have hnone : occurrences s.lines segs = [] := by simp [occurrences, positions, h]
    rw [hnone]
    rfl
  next hne =>
    have hpos := length_pos_iff.2 hne
    rw [occurrences, foldl_flatMap]
    congr
    funext found seg
    have hends := filter_ends (seg.map Line.text) hne
    rw [length_map] at hends
    rw [findFrom_eq hne drop_zero (isGreatest_borders_nil hne), ← range_eq_range', hends, map_map]
    simp only [positions, hne, ne_eq, not_false_eq_true, true_and]
    congr 1
    refine map_congr_left fun p _ => ?_
    simp only [Function.comp_apply]
    congr 2 <;> omega

lemma foldl_add (all : List Span) :
    all.foldl (Found.add prefer) found
      = ⟨if found.n = 0 then all.head?.getD found.first else found.first,
        (all.filter (·.start = prefer)).getLast?.getD found.preferred, found.n + all.length⟩ := by
  induction all generalizing found with
  | nil => simp
  | cons sp all ih =>
    rw [foldl_cons, ih]
    by_cases h : sp.start = prefer
    · simp [Found.add, h, getLast?_cons, Nat.add_right_comm, Nat.add_assoc]
    · simp [Found.add, h, Nat.add_right_comm, Nat.add_assoc]

/-! ### Where snippets are anchored -/

/-- The lines of an anchor, if it is one. -/
def Anchor.span? (a : Anchor) : Option Span :=
  if a.status = .unanchored then none else some ⟨a.startLine, a.endLine⟩

/-- The only one of several places. -/
def only (all : List Span) : Option Span := if all.length = 1 then all.head? else none

lemma find_eq (segs : List (List Line)) (s : Snippet) (prefer : Int) :
    find segs s prefer = ⟨(occurrences s.lines segs).head?.getD {},
      ((occurrences s.lines segs).filter (·.start = prefer)).getLast?.getD {},
      (occurrences s.lines segs).length⟩ := by
  rw [find_eq_foldl, foldl_add]
  simp

lemma num_pos_of_numberLines {num : Int} (hnum : 0 < num) (ls : List (List Char)) :
    ∀ l ∈ numberLines num ls, 0 < l.num := by
  induction ls generalizing num with
  | nil => simp [numberLines]
  | cons l ls ih =>
    rw [numberLines]
    split_ifs
    · exact ih (by omega)
    · exact forall_mem_cons.2 ⟨hnum, ih (by omega)⟩

lemma start_pos {content : String} {sp : Span}
    (h : sp ∈ occurrences want [contentLines content]) : 0 < sp.start := by
  simp only [occurrences, flatMap_singleton, mem_map, positions, mem_filter, mem_range,
    decide_eq_true_eq] at h
  obtain ⟨p, ⟨hp, hne, -⟩, rfl⟩ := h
  have := length_pos_iff.2 hne
  have hlt : p < (contentLines content).length := by omega
  rw [numAt, getElem?_eq_getElem hlt]
  exact num_pos_of_numberLines Int.one_pos _ _ (getElem_mem hlt)

lemma span_decide {path : String} {t : Tier} {all : List Span} (ht : t.status ≠ .unanchored)
    (hne : all ≠ []) : (decide path t (all.head?.getD {}) all.length).span? = only all := by
  match all with
  | [] => exact absurd rfl hne
  | [sp] => simp [only, decide, Anchor.span?, ht]
  | sp :: sp' :: rest => simp [only, decide, Anchor.span?]

lemma locateAt_span (path content : String) (s : Snippet) (prefer : Int) :
    (locateAt path content s prefer).span?
      = (only (occurrences s.lines [contentLines content])).or
        ((occurrences s.lines [contentLines content]).filter (·.start = prefer)).getLast? := by
  have hstart (sp) (h : sp ∈ occurrences s.lines [contentLines content]) := start_pos h
  unfold locateAt
  split
  next h => simp [occurrences, positions, h, only, unplaced, Anchor.span?]
  next =>
    rw [find_eq]
    generalize occurrences s.lines [contentLines content] = all at hstart ⊢
    match all with
    | [] => rfl
    | [sp] => simp [only, decide, wholeFile, Anchor.span?]
    | sp :: sp' :: rest =>
      cases hlast : ((sp :: sp' :: rest).filter (·.start = prefer)).getLast? with
      | none => simp [only, decide, Anchor.span?]
      | some q =>
        have hq := hstart q (mem_of_mem_filter (mem_of_getLast? hlast))
        simp [only, decide, wholeFile, Anchor.span?, hq]

lemma resolve_span (f : File) (s : Snippet) :
    (f.resolve s).span? = (tiers.find? fun t => occurrences s.lines (t.segments f) ≠ []).bind
      fun t => only (occurrences s.lines (t.segments f)) := by
  have hstatus : ∀ t ∈ tiers, t.status ≠ .unanchored := by simp [tiers, wholeFile]
  unfold File.resolve
  split
  next h =>
    have hnone (segs) : occurrences s.lines segs = [] := by simp [occurrences, positions, h]
    simp only [hnone]
    rfl
  next =>
    simp only [find_eq, gt_iff_lt, length_pos_iff]
    split
    next t ht =>
      rw [ht, span_decide (hstatus t (mem_of_find?_eq_some ht)) (by simpa using find?_some ht)]
      rfl
    next ht =>
      rw [ht]
      rfl

theorem anchored_iff_found (s : Snippet) :
    (∀ segs prefer, find segs s prefer = ⟨(occurrences s.lines segs).head?.getD {},
      ((occurrences s.lines segs).filter (·.start = prefer)).getLast?.getD {},
      (occurrences s.lines segs).length⟩)
    ∧ (∀ path content, (locate path content s).span?
      = only (occurrences s.lines [contentLines content]))
    ∧ (∀ prev content, (reanchor prev content s).span?
      = (only (occurrences s.lines [contentLines content])).or
        ((occurrences s.lines [contentLines content]).filter (·.start = prev.startLine)).getLast?)
    ∧ ∀ f : File, (f.resolve s).span?
      = (tiers.find? fun t => occurrences s.lines (t.segments f) ≠ []).bind
        fun t => only (occurrences s.lines (t.segments f)) := by
  refine ⟨fun segs => find_eq segs s, fun path content => ?_,
    fun prev content => locateAt_span prev.path content s prev.startLine, fun f => resolve_span f s⟩
  have hnone : (occurrences s.lines [contentLines content]).filter (·.start = 0) = [] :=
    filter_eq_nil_iff.2 fun sp hsp => by simpa using (start_pos hsp).ne'
  rw [locate, locateAt_span, hnone]
  simp

end Anchors
