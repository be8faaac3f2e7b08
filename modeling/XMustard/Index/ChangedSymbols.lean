import Mathlib.Data.List.Dedup
import Mathlib.Data.List.MinMax
import Mathlib.Data.List.Sort

/-!
# The symbols that a change touches

The symbols of the two sides of a changed file are paired by name and kind. A hunk selects the
innermost symbols that it touches on each side.
-/

namespace Index

open List

/-- What a hunk touches on one side: lines, or the gap after a line. -/
inductive Touch
  | lines (first last : Nat)
  | gap (after : Nat)

def Touch.of (start len : Nat) : Touch :=
  if len = 0 then .gap start else .lines start ((start + len - 1) % (1 <<< 32))

structure Hunk where
  oldStart : Nat
  oldLen : Nat
  newStart : Nat
  newLen : Nat

def Hunk.newLines (h : Hunk) : Touch := .of h.newStart h.newLen

def Hunk.oldLines (h : Hunk) : Touch := .of h.oldStart h.oldLen

structure SymbolFact where
  qualifiedName : String
  kind : String
  startLine : Nat
  endLine : Nat
  nameLine : Nat
  /-- Empty when there is none. -/
  signatureHash : String
  exported : Bool
  deriving DecidableEq

def Touch.hits (t : Touch) (s : SymbolFact) : Bool :=
  match t with
  | lines a b => a ≤ s.endLine ∧ s.startLine ≤ b
  | gap after => s.startLine ≤ after ∧ after < s.endLine

/-- A changed file. -/
structure ChangedFile where
  rel : String
  hunks : List Hunk
  /-- The file counts as changed everywhere. -/
  whole : Bool

inductive SymbolChange
  | added | modified | removed

inductive SignatureChange
  | signature | removed

structure ChangedSymbol where
  name : String
  kind : String
  path : String
  line : Nat
  change : SymbolChange
  signatureChange : Option SignatureChange
  contractBreak : Bool := signatureChange.isSome

def inside (outer inner : SymbolFact) : Bool :=
  outer.startLine ≤ inner.startLine ∧ inner.endLine ≤ outer.endLine
    ∧ (outer.startLine, outer.endLine) ≠ (inner.startLine, inner.endLine)

/-- The symbols that are hit with no other hit symbol inside them. -/
def innermost (symbols : List SymbolFact) (touch : Touch) : List SymbolFact :=
  let hit := symbols.filter touch.hits
  hit.filter fun s => !hit.any (inside s)

variable (e : ChangedFile) (old new : List SymbolFact)

def touched (symbols : List SymbolFact) (side : Hunk → Touch) : List SymbolFact :=
  if e.whole then symbols else e.hunks.flatMap fun h => innermost symbols (side h)

def SymbolFact.key (s : SymbolFact) : String × String := (s.qualifiedName, s.kind)

/-- The map from keys to symbols, where a later symbol takes the place of an earlier one. -/
def byKey (symbols : List SymbolFact) (k : String × String) : Option SymbolFact :=
  symbols.reverse.find? fun s => s.key = k

def broke (o n : SymbolFact) : Bool :=
  o.signatureHash ≠ "" ∧ n.signatureHash ≠ "" ∧ o.signatureHash ≠ n.signatureHash

def changedSymbol (k : String × String) : Option ChangedSymbol :=
  let row (s : SymbolFact) (change : SymbolChange) (c : Option SignatureChange) : ChangedSymbol :=
    { name := s.qualifiedName, kind := s.kind, path := e.rel, line := s.nameLine, change := change,
      signatureChange := c }
  match byKey old k, byKey new k with
  | some o, some n => some (row n .modified (if broke o n then some .signature else none))
  | none, some n => some (row n .added none)
  | some o, none => some (row o .removed (if o.exported then some .removed else none))
  | none, none => none

/-- The keys of the touched symbols in order. -/
def touchedKeys : List (String × String) :=
  let keys := (touched e new Hunk.newLines ++ touched e old Hunk.oldLines).map SymbolFact.key
  keys.dedup.insertionSort fun a b => a.1 < b.1 ∨ a.1 = b.1 ∧ a.2 ≤ b.2

def changedSymbols : List ChangedSymbol :=
  (touchedKeys e old new).filterMap (changedSymbol e old new)

/-- A symbol is listed under its name, kind and line. -/
def HasRow (s : SymbolFact) : Prop :=
  ∃ r ∈ changedSymbols e old new,
    r.name = s.qualifiedName ∧ r.kind = s.kind ∧ r.line = s.nameLine

/-- A changed signature is reported as a contract break. -/
def RowBroken (k : String × String) : Prop :=
  ∃ r ∈ changedSymbols e old new,
    (r.name, r.kind) = k ∧ r.signatureChange = some .signature ∧ r.contractBreak

/-- The symbol is on both sides, a hunk touches its lines, and the new signature is none of the old
ones. -/
def Changed (n : SymbolFact) : Prop :=
  n ∈ new ∧ (∃ o ∈ old, o.key = n.key) ∧ (∀ o ∈ old, o.key = n.key → broke o n)
    ∧ ∃ h ∈ e.hunks, h.newLines.hits n ∨ ∃ o ∈ old, o.key = n.key ∧ h.oldLines.hits o

variable {e old new} {k : String × String} {s t : SymbolFact} {touch : Touch} {h : Hunk}

lemma key_of_byKey (h : byKey new k = some s) : s.key = k := by
  have := find?_some h
  simpa using this

variable (e old) in
/-- The row of a symbol that is on the new side. -/
lemma changedSymbol_new (hs : byKey new k = some s) : ∃ r, changedSymbol e old new k = some r
    ∧ (r.name, r.kind) = k ∧ r.line = s.nameLine
    ∧ (r.signatureChange = some .signature ∧ r.contractBreak
      ↔ ∃ o ∈ byKey old k, broke o s) := by
  unfold changedSymbol
  rw [hs]
  cases byKey old k with
  | none => exact ⟨_, rfl, key_of_byKey hs, rfl, by simp⟩
  | some o => exact ⟨_, rfl, key_of_byKey hs, rfl, by simp +contextual⟩

lemma mem_changedSymbols {r : ChangedSymbol} : r ∈ changedSymbols e old new
    ↔ (r.name, r.kind) ∈ touchedKeys e old new
      ∧ changedSymbol e old new (r.name, r.kind) = some r := by
  refine mem_filterMap.trans ⟨fun ⟨k, hk, h⟩ => ?_, fun ⟨hk, h⟩ => ⟨_, hk, h⟩⟩
  obtain rfl : (r.name, r.kind) = k := by
    unfold changedSymbol at h
    split at h <;> cases h <;> exact key_of_byKey ‹_›
  exact ⟨hk, h⟩

lemma reported_iff : RowBroken e old new k ↔ k ∈ touchedKeys e old new
    ∧ ∃ n ∈ byKey new k, ∃ o ∈ byKey old k, broke o n := by
  constructor
  · rintro ⟨r, hr, hkey, hbreak⟩
    obtain ⟨hk, hrow⟩ := mem_changedSymbols.1 hr
    rw [hkey] at hk hrow
    refine ⟨hk, ?_⟩
    cases hn : byKey new k with
    | some n =>
      obtain ⟨r', hrow', -, -, hbroke⟩ := changedSymbol_new e old hn
      obtain rfl : r' = r := Option.some_inj.1 (hrow'.symm.trans hrow)
      exact ⟨n, rfl, hbroke.1 hbreak⟩
    | none =>
      -- a symbol that is gone has no changed signature
      cases ho : byKey old k <;> rw [changedSymbol, ho, hn] at hrow <;> cases hrow
      simp at hbreak
  · rintro ⟨hk, n, hn, hbroke⟩
    obtain ⟨r, hrow, rfl, -, hbreak⟩ := changedSymbol_new e old hn
    exact ⟨r, mem_changedSymbols.2 ⟨hk, hrow⟩, rfl, hbreak.2 hbroke⟩

lemma exists_byKey (hs : s ∈ innermost new touch) : ∃ m, byKey new s.key = some m :=
  Option.isSome_iff_exists.1 (find?_isSome.2
    ⟨s, mem_reverse.2 (mem_of_mem_filter (mem_of_mem_filter hs)), decide_eq_true rfl⟩)

lemma mem_touched {side : Hunk → Touch} (hh : h ∈ e.hunks)
    (hs : s ∈ innermost new (side h)) : s ∈ touched e new side := by
  unfold touched
  split
  · exact mem_of_mem_filter (mem_of_mem_filter hs)
  · exact mem_flatMap.2 ⟨h, hh, hs⟩

lemma mem_touchedKeys : k ∈ touchedKeys e old new ↔ ∃ s ∈ touched e new Hunk.newLines
    ++ touched e old Hunk.oldLines, s.key = k := by
  rw [touchedKeys, (perm_insertionSort ..).mem_iff, mem_dedup, mem_map]

/-- An innermost symbol has a row under its name and kind. -/
lemma exists_row (hh : h ∈ e.hunks)
    (hs : s ∈ innermost new h.newLines ++ innermost old h.oldLines) :
    ∃ r ∈ changedSymbols e old new, (r.name, r.kind) = s.key := by
  have hk : s.key ∈ touchedKeys e old new := mem_touchedKeys.2 ⟨s, mem_append.2
    ((mem_append.1 hs).imp (mem_touched hh) (mem_touched hh)), rfl⟩
  obtain ⟨r, hrow, hkey⟩ : ∃ r, changedSymbol e old new s.key = some r
      ∧ (r.name, r.kind) = s.key := by
    cases hn : byKey new s.key with
    | some n =>
      obtain ⟨r, hrow, hkey, -⟩ := changedSymbol_new e old hn
      exact ⟨r, hrow, hkey⟩
    | none =>
      rcases mem_append.1 hs with hs | hs
      · obtain ⟨m, hm⟩ := exists_byKey hs
        cases hn.symm.trans hm
      · obtain ⟨o, ho⟩ := exists_byKey hs
        rw [changedSymbol, ho, hn]
        exact ⟨_, rfl, key_of_byKey ho⟩
  exact ⟨r, mem_changedSymbols.2 (hkey ▸ ⟨hk, hrow⟩), hkey⟩

/-- A new symbol is listed exactly if the last one of its name and kind has its line. -/
lemma listed_iff (hh : h ∈ e.hunks) (hs : s ∈ innermost new h.newLines) :
    HasRow e old new s ↔ ∃ m ∈ byKey new s.key, m.nameLine = s.nameLine := by
  obtain ⟨m, hm⟩ := exists_byKey hs
  obtain ⟨r, hrow, hkey, hline, -⟩ := changedSymbol_new e old hm
  have hone {r'} (hr' : r' ∈ changedSymbols e old new) (hkey' : (r'.name, r'.kind) = s.key) :
      r' = r := by
    have hrow' := (mem_changedSymbols.1 hr').2
    rw [hkey', hrow] at hrow'
    exact (Option.some_inj.1 hrow').symm
  constructor
  · rintro ⟨r', hr', hname, hkind, hline'⟩
    obtain rfl := hone hr' (Prod.ext hname hkind)
    exact ⟨m, hm, hline.symm.trans hline'⟩
  · rintro ⟨m', hm', hline'⟩
    obtain rfl : m = m' := Option.some_inj.1 (hm.symm.trans hm')
    obtain ⟨r', hr', hkey'⟩ := exists_row hh (mem_append_left (innermost old h.oldLines) hs)
    obtain rfl := hone hr' hkey'
    exact ⟨r', hr', (Prod.mk.inj hkey).1, (Prod.mk.inj hkey).2, hline.trans hline'⟩

/-- Of the symbols that are hit, one with the shortest span is innermost. -/
lemma innermost_ne_nil (hs : s ∈ new) (hit : touch.hits s) : innermost new touch ≠ [] := by
  have hmem : s ∈ new.filter touch.hits := mem_filter.2 ⟨hs, hit⟩
  obtain ⟨t, ht⟩ : ∃ t, (new.filter touch.hits).argmin (fun s => (s.endLine : Int) - s.startLine)
      = some t := Option.ne_none_iff_exists'.1 fun h => ne_nil_of_mem hmem (argmin_eq_none.1 h)
  refine ne_nil_of_mem (mem_filter.2 ⟨argmin_mem ht, ?_⟩)
  rw [Bool.not_eq_true', any_eq_false]
  intro u hu hin
  have hle := le_of_mem_argmin hu ht
  have hin := of_decide_eq_true hin
  simp only [ne_eq, Prod.mk.injEq] at hin
  omega

/-- A hunk that touches a symbol has a row for the name and kind of an innermost one. Changed
signatures are reported, and the rows are those of touched symbols, exactly if this can be seen from
the symbols that the two sides keep for a name and kind. -/
theorem changed_symbols_reported_iff (e : ChangedFile) (old new : List SymbolFact) :
    (∀ h ∈ e.hunks, ∀ s, s ∈ new ∧ h.newLines.hits s ∨ s ∈ old ∧ h.oldLines.hits s →
      ∃ t ∈ innermost new h.newLines ++ innermost old h.oldLines,
        ∃ r ∈ changedSymbols e old new, (r.name, r.kind) = t.key)
    ∧ ((∀ n, Changed e old new n → RowBroken e old new n.key)
        ∧ (∀ h ∈ e.hunks, ∀ s ∈ new, h.newLines.hits s →
          ∃ t ∈ innermost new h.newLines, HasRow e old new t)
      ↔ (∀ n, Changed e old new n → n.key ∈ touchedKeys e old new
          ∧ ∃ m ∈ byKey new n.key, ∃ o ∈ byKey old n.key, broke o m)
        ∧ ∀ h ∈ e.hunks, ∀ s ∈ new, h.newLines.hits s →
          ∃ t ∈ innermost new h.newLines, ∃ m ∈ byKey new t.key, m.nameLine = t.nameLine) := by
  refine ⟨fun h hh s hs => ?_, and_congr ?_ ?_⟩
  · have hne : innermost new h.newLines ++ innermost old h.oldLines ≠ [] := by
      rw [ne_eq, append_eq_nil_iff, not_and_or]
      exact hs.imp (fun hs => innermost_ne_nil hs.1 hs.2) fun hs => innermost_ne_nil hs.1 hs.2
    obtain ⟨t, ht⟩ := exists_mem_of_ne_nil _ hne
    exact ⟨t, ht, exists_row hh ht⟩
  · exact forall₂_congr fun n _ => reported_iff
  · exact forall₂_congr fun h hh => forall₃_congr fun s _ _ =>
      exists_congr fun t => and_congr_right fun ht => listed_iff hh ht

/-- The second of two functions of one name hides a change of the first, and a method of a class the
change of the class itself. -/
theorem changed_symbols_hidden : let f (hash : String) (line : Nat) : SymbolFact :=
      ⟨"f", "Function", line, line + 2, line, hash, true⟩
    let c (hash : String) : SymbolFact := ⟨"C", "Class", 1, 9, 1, hash, true⟩
    let m : SymbolFact := ⟨"C.m", "Method", 2, 3, 2, "m", true⟩
    let e : ChangedFile := ⟨"a", [⟨1, 2, 1, 2⟩], false⟩
    (Changed e [f "a" 1, f "b" 5] [f "c" 1, f "b" 5] (f "c" 1)
      ∧ ¬RowBroken e [f "a" 1, f "b" 5] [f "c" 1, f "b" 5] ("f", "Function"))
    ∧ Changed e [c "a", m] [c "b", m] (c "b")
    ∧ ¬RowBroken e [c "a", m] [c "b", m] ("C", "Class") := by
  simp only [reported_iff, Changed]
  decide +kernel

end Index
