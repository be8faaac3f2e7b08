import Mathlib.Data.List.Induction
import XMustard.Git.Entries
import XMustard.Index.Glob
import XMustard.Lists.BinarySearch
import XMustard.Lists.Lexicographic

/-! # The cursor over the index

What the walk compares the paths of the worktree with: the index, read forward one entry at a
time. The cursor answers for the path it was last moved to, and its answers are those of the whole
index as long as the paths it is moved to never go back. -/

namespace Git

open List Text Lists

/-- Gitlinks remembered for membership; past it the walk is incomplete. -/
def maxGitlinks : ℕ := 65536

structure Cursor where
  /-- What the reading of the index has left. -/
  entries : List Entry
  fault : Option Refusal
  cur : Option Bytes
  gitlinks : List Bytes
  foldedPaths : List Bytes
  foldedGitlinks : List Bytes
  started : Bool
  ignoreCase : Bool

variable (c : Cursor)

def Cursor.load : Except Refusal Cursor :=
  match c.entries, c.fault with
  | [], some r => .error r
  | [], none => .ok { c with cur := none }
  | e :: rest, _ =>
    if e.mode = modeGitlink ∧ c.gitlinks.getLast? ≠ some e.path then
      if maxGitlinks ≤ c.gitlinks.length then .error (.failed s!"more than {maxGitlinks} gitlinks")
      else .ok { c with entries := rest, cur := some e.path, gitlinks := c.gitlinks ++ [e.path] }
    else .ok { c with entries := rest, cur := some e.path }

/-- Read the first entry, unless that was done. -/
def Cursor.begin : Except Refusal Cursor :=
  if c.started then .ok c else Cursor.load { c with started := true }

lemma Cursor.load_entries {c c' : Cursor} (h : c.load = .ok c') :
    c'.entries = c.entries.tail ∧ c'.cur = c.entries.head?.map Entry.path := by
  unfold Cursor.load at h
  cases hentries : c.entries with
  | nil =>
    cases hfault : c.fault with
    | some r => simp [hentries, hfault] at h
    | none =>
      simp only [hentries, hfault, Except.ok.injEq] at h
      simp [← h]
  | cons e rest =>
    simp only [hentries] at h
    split_ifs at h <;> cases h <;> exact ⟨rfl, rfl⟩

/-- Move past every entry before `key`. -/
def Cursor.pass (key : Bytes) (c : Cursor) : Except Refusal Cursor :=
  match _hcur : c.cur with
  | some p =>
    if cmpPaths p key = .lt then
      match _hload : c.load with
      | .ok c' => c'.pass key
      | .error r => .error r
    else .ok c
  | none => .ok c
termination_by c.entries.length + c.cur.toList.length
decreasing_by
  obtain ⟨hentries, hcur'⟩ := Cursor.load_entries _hload
  rw [hentries, hcur', _hcur]
  cases c.entries <;> simp

def Cursor.advance (key : Bytes) (c : Cursor) : Except Refusal Cursor := do
  (← c.begin).pass key

def foldAscii (path : Bytes) : Bytes := path.map Index.Glob.toAsciiLowercase

def Cursor.holdsFile (path : Bytes) : Bool :=
  match c.cur with
  | some p => if !c.ignoreCase then p = path else p = path || foldAscii path ∈ c.foldedPaths
  | none => c.ignoreCase && foldAscii path ∈ c.foldedPaths

/-- The index holds paths under `dir` (`a/b/`, after `advance dir`). -/
def Cursor.holdsUnder (dir : Bytes) : Bool :=
  c.cur.any (dir.isPrefixOf ·) ||
    c.ignoreCase && (c.foldedPaths.find? fun p => ¬p < foldAscii dir).any
      ((foldAscii dir).isPrefixOf ·)

/-- `dir` (`a/b/`) is a gitlink of the index. -/
def Cursor.isGitlink (dir : Bytes) : Bool :=
  if c.ignoreCase then foldAscii dir.dropLast ∈ c.foldedGitlinks
  else (binarySearchBy (cmpPaths · dir.dropLast) c.gitlinks).isSome

/-! ### Where the cursor stands -/

variable {ix : Index} {c c' : Cursor} {key bound : Bytes} {n : ℕ} {es : List Entry}

/-- The gitlinks that are remembered once another entry has been read. -/
def remember (gitlinks : List Bytes) (e : Entry) : List Bytes :=
  if e.mode = modeGitlink ∧ gitlinks.getLast? ≠ some e.path then gitlinks ++ [e.path] else gitlinks

lemma mem_foldl_remember {p : Bytes} :
    p ∈ es.foldl remember [] ↔ ∃ e ∈ es, e.mode = modeGitlink ∧ e.path = p := by
  induction es using reverseRecOn with
  | nil => simp
  | append_singleton es e ih =>
    simp only [foldl_append, foldl_cons, foldl_nil, mem_append, mem_singleton, or_and_right,
      exists_or, exists_eq_left, ← ih, remember]
    split_ifs with hnew
    · simp [hnew.1, eq_comm]
    · refine ⟨.inl, ?_⟩
      rintro (hp | ⟨hmode, rfl⟩)
      · exact hp
      · exact mem_of_getLast? (not_not.1 fun hne => hnew ⟨hmode, hne⟩)

lemma foldl_remember_sorted (h : es.Pairwise fun e e' => ¬e'.path < e.path) :
    (es.foldl remember []).Pairwise fun p q => ¬q < p := by
  induction es using reverseRecOn with
  | nil => exact .nil
  | append_singleton es e ih =>
    obtain ⟨hes, -, hlast⟩ := pairwise_append.1 h
    rw [foldl_append, foldl_cons, remember]
    split_ifs
    · refine pairwise_append.2 ⟨ih hes, pairwise_singleton _ _, fun p hp q hq => ?_⟩
      obtain ⟨e', he', -, rfl⟩ := mem_foldl_remember.1 hp
      cases mem_singleton.1 hq
      exact hlast e' he' e mem_cons_self
    · exact ih hes

lemma length_foldl_remember (es : List Entry) :
    (es.foldl remember []).length ≤ es.countP fun e => e.mode = modeGitlink := by
  induction es using reverseRecOn with
  | nil => exact le_rfl
  | append_singleton es e ih =>
    rw [foldl_append, foldl_cons, remember, countP_append]
    split_ifs with hnew
    · simpa [hnew.1] using ih
    · exact ih.trans (Nat.le_add_right _ _)

/-- The cursor before its first move. -/
def Index.cursor (ix : Index) : Cursor := ⟨ix.entries, ix.fault, none, [], [], [], false, false⟩

/-- The cursor that has passed the first `n` entries and holds the next. -/
def Index.cursorAt (ix : Index) (n : ℕ) : Cursor where
  entries := ix.entries.drop (n + 1)
  fault := ix.fault
  cur := ix.entries[n]?.map Entry.path
  gitlinks := (ix.entries.take (n + 1)).foldl remember []
  foldedPaths := []
  foldedGitlinks := []
  started := true
  ignoreCase := false

/-- What a reading of the index can fail with: its own fault, or anything on too many gitlinks. -/
def Index.FailsWith (ix : Index) (r : Refusal) : Prop :=
  ix.fault = some r ∨ maxGitlinks < ix.entries.countP fun e => e.mode = modeGitlink

/-- Everything the cursor has passed comes before `bound`. -/
def Cursor.Behind (ix : Index) (c : Cursor) (bound : Bytes) : Prop :=
  c = ix.cursor ∨ ∃ n, c = ix.cursorAt n ∧ ∀ e ∈ ix.entries.take n, e.path < bound

/-- The cursor stands at `key`: what it has passed comes before `key`, what is ahead does not. -/
def Cursor.StandsAt (ix : Index) (c : Cursor) (key : Bytes) : Prop :=
  ∃ n, c = ix.cursorAt n ∧ (∀ e ∈ ix.entries.take n, e.path < key) ∧
    ∀ e ∈ ix.entries.drop n, ¬e.path < key

/-! ### Moving forward -/

/-- Reading the entry after the first `n`. -/
lemma Cursor.load_spec (ix : Index) (n : ℕ) (hentries : c.entries = ix.entries.drop n)
    (hfault : c.fault = ix.fault)
    (hgitlinks : c.gitlinks = (ix.entries.take n).foldl remember []) :
    c.load = .ok { c with
      entries := ix.entries.drop (n + 1)
      cur := ix.entries[n]?.map Entry.path
      gitlinks := (ix.entries.take (n + 1)).foldl remember [] } ∨
    ∃ r, c.load = .error r ∧ ix.FailsWith r := by
  rw [take_add, foldl_append, ← drop_drop, ← head?_drop, ← hgitlinks, ← hentries]
  unfold Cursor.load
  split
  · next r _ hr => exact .inr ⟨r, rfl, .inl (hfault ▸ hr)⟩
  · next hnil _ => exact .inl (by simp [hnil])
  · next e rest hcons =>
    rw [hcons, take_succ_cons, foldl_cons, remember]
    split_ifs with hnew hfull
    · refine .inr ⟨_, rfl, .inr ?_⟩
      have hlength := hgitlinks ▸ length_foldl_remember (ix.entries.take n)
      rw [← take_append_drop n ix.entries, countP_append, ← hentries, hcons,
        countP_cons_of_pos (by simpa using hnew.1)]
      omega
    · exact .inl rfl
    · exact .inl rfl

/-- Passing the entries before `key` leaves the cursor there, or fails as a reading does. -/
lemma Index.cursorAt_pass (hsorted : ix.Sorted) (hpassed : ∀ e ∈ ix.entries.take n, e.path < key) :
    (∃ c, (ix.cursorAt n).pass key = .ok c ∧ c.StandsAt ix key) ∨
      ∃ r, (ix.cursorAt n).pass key = .error r ∧ ix.FailsWith r := by
  generalize hc : ix.cursorAt n = c
  fun_induction c.pass key generalizing n with
  | case1 c p hcur hlt c' hload ih =>
    subst hc
    obtain ⟨e, he, rfl⟩ := Option.map_eq_some_iff.1 hcur
    obtain hnext | ⟨r, hfail, -⟩ := Cursor.load_spec (c := ix.cursorAt n) ix (n + 1) rfl rfl rfl
    · refine ih ?_ (Except.ok.inj (hnext.symm.trans hload))
      rw [cmpPaths_eq_lt] at hlt
      simpa [take_add_one, he, or_imp, forall_and] using ⟨hpassed, hlt⟩
    · cases hfail.symm.trans hload
  | case2 c p hcur hlt r hload =>
    subst hc
    obtain hnext | ⟨r', hfail, hwhy⟩ := Cursor.load_spec (c := ix.cursorAt n) ix (n + 1) rfl rfl rfl
    · cases hnext.symm.trans hload
    · cases hfail.symm.trans hload
      exact .inr ⟨r, rfl, hwhy⟩
  | case3 c p hcur hlt =>
    subst hc
    obtain ⟨e, he, rfl⟩ := Option.map_eq_some_iff.1 hcur
    obtain ⟨hn, rfl⟩ := List.getElem?_eq_some_iff.1 he
    refine .inl ⟨_, rfl, n, rfl, hpassed, ?_⟩
    rw [cmpPaths_eq_lt] at hlt
    have hleft := drop_eq_getElem_cons hn
    rw [Index.Sorted, ← take_append_drop n ix.entries, hleft] at hsorted
    rw [hleft, forall_mem_cons]
    refine ⟨hlt, fun e' he' hlt' => hlt (lt_of_le_of_lt (not_lt.1 ?_) hlt')⟩
    exact rel_of_pairwise_cons (pairwise_append.1 hsorted).2.1 he'
  | case4 c hcur =>
    subst hc
    refine .inl ⟨_, rfl, n, rfl, hpassed, ?_⟩
    simp [drop_eq_nil_of_le (getElem?_eq_none_iff.1 (Option.map_eq_none_iff.1 hcur))]

/-- Moved to a path that is not before what it has passed, the cursor stands there, or fails as a
reading does. -/
theorem Cursor.advance_spec (hsorted : ix.Sorted) (h : c.Behind ix bound) (hkey : ¬key < bound) :
    (∃ c', c.advance key = .ok c' ∧ c'.StandsAt ix key) ∨
      ∃ r, c.advance key = .error r ∧ ix.FailsWith r := by
  obtain rfl | ⟨n, rfl, hpassed⟩ := h
  · have hbegin : ix.cursor.begin = Cursor.load { ix.cursor with started := true } := rfl
    rw [Cursor.advance, hbegin]
    obtain hload | ⟨r, hload, hwhy⟩ :=
      Cursor.load_spec (c := { ix.cursor with started := true }) ix 0 rfl rfl rfl
    · rw [hload]
      exact Index.cursorAt_pass (n := 0) hsorted (by simp)
    · exact .inr ⟨r, by rw [hload]; rfl, hwhy⟩
  · exact Index.cursorAt_pass hsorted fun e he => lt_of_lt_of_le (hpassed e he) (not_lt.1 hkey)

/-! ### The answers -/

section

variable (h : c.StandsAt ix key)
include h

lemma Cursor.StandsAt.behind : c.Behind ix key := by
  obtain ⟨n, rfl, hpassed, -⟩ := h
  exact .inr ⟨n, rfl, hpassed⟩

/-- Of the entries from `key` on, the cursor holds the first. -/
lemma Cursor.StandsAt.cur_spec (hsorted : ix.Sorted) :
    (∃ e ∈ ix.entries, c.cur = some e.path ∧ ¬e.path < key ∧
      ∀ e' ∈ ix.entries, ¬e'.path < key → ¬e'.path < e.path) ∨
    c.cur = none ∧ ∀ e ∈ ix.entries, e.path < key := by
  obtain ⟨n, rfl, hpassed, hahead⟩ := h
  have hcur : (ix.cursorAt n).cur = (ix.entries.drop n).head?.map Entry.path := by
    rw [head?_drop]
    rfl
  have hsplit := take_append_drop n ix.entries
  cases hleft : ix.entries.drop n with
  | nil =>
    rw [hleft, append_nil] at hsplit
    exact .inr ⟨by simp [hcur, hleft], hsplit ▸ hpassed⟩
  | cons e ahead =>
    rw [hleft] at hsplit hahead hcur
    rw [Index.Sorted, ← hsplit] at hsorted
    refine .inl ⟨e, hsplit ▸ by simp, hcur, hahead e mem_cons_self, fun e' he' hkey => ?_⟩
    rw [← hsplit] at he'
    rcases mem_append.1 he' with he' | he'
    · exact absurd (hpassed e' he') hkey
    · rcases mem_cons.1 he' with rfl | he'
      · exact lt_irrefl _
      · exact rel_of_pairwise_cons (pairwise_append.1 hsorted).2.1 he'

lemma Cursor.StandsAt.unfolded : c.ignoreCase = false := by
  obtain ⟨n, rfl, -⟩ := h
  rfl

/-- At a path, the cursor knows whether the index holds it. -/
theorem Cursor.StandsAt.holdsFile_iff (hsorted : ix.Sorted) :
    c.holdsFile key = true ↔ ix.Holds key := by
  rcases h.cur_spec hsorted with ⟨e, he, hcur, hkey, hfirst⟩ | ⟨hcur, hall⟩
  · simp only [Cursor.holdsFile, hcur, h.unfolded, Bool.not_false, if_true, decide_eq_true_eq]
    constructor
    · rintro rfl
      exact ⟨e, he, rfl⟩
    · rintro ⟨e', he', rfl⟩
      exact le_antisymm (not_lt.1 (hfirst e' he' (lt_irrefl _))) (not_lt.1 hkey)
  · simp only [Cursor.holdsFile, hcur, h.unfolded, Bool.false_and, Bool.false_eq_true, false_iff]
    rintro ⟨e', he', rfl⟩
    exact lt_irrefl _ (hall e' he')

/-- At a directory, the cursor knows whether the index holds paths under it. -/
theorem Cursor.StandsAt.holdsUnder_iff (hsorted : ix.Sorted) :
    c.holdsUnder key = true ↔ ix.HoldsUnder key := by
  rcases h.cur_spec hsorted with ⟨e, he, hcur, hkey, hfirst⟩ | ⟨hcur, hall⟩
  · simp only [Cursor.holdsUnder, hcur, h.unfolded, Option.any_some, Bool.false_and, Bool.or_false,
      isPrefixOf_iff_prefix]
    constructor
    · exact fun hp => ⟨e, he, hp⟩
    · rintro ⟨e', he', hp⟩
      exact isPrefix_of_between hkey (hfirst e' he' (not_lt_of_isPrefix hp)) hp
  · simp only [Cursor.holdsUnder, hcur, h.unfolded, Option.any_none, Bool.false_and, Bool.or_false,
      Bool.false_eq_true, false_iff]
    rintro ⟨e', he', hp⟩
    exact not_lt_of_isPrefix hp (hall e' he')

end

/-- In a sorted list of paths the binary search finds exactly the members. -/
lemma binarySearchBy_cmpPaths_isSome {gs : List Bytes} (hgs : gs.Pairwise fun p q => ¬q < p) :
    (binarySearchBy (cmpPaths · key) gs).isSome ↔ key ∈ gs := by
  have hsorted : SortedBy (cmpPaths · key) gs := hgs.imp fun {p q} hpq => by
    simp only [cmpPaths_eq_lt, cmpPaths_eq_gt]
    exact ⟨fun hq => lt_of_le_of_lt (not_lt.1 hpq) hq, fun hp => lt_of_lt_of_le hp (not_lt.1 hpq)⟩
  constructor
  · intro h
    obtain ⟨i, hi⟩ := Option.isSome_iff_exists.1 h
    obtain ⟨p, hp, heq⟩ := (binarySearchBy_spec _).1 _ hi
    exact cmpPaths_eq_eq.1 heq ▸ mem_of_getElem? hp
  · intro hmem
    by_contra hnone
    exact (binarySearchBy_spec _).2 hsorted (by simpa using hnone) key hmem (cmpPaths_eq_eq.2 rfl)

/-- At a directory, the cursor knows whether the directory is a gitlink: the gitlink itself comes
before the directory's path, and was passed. -/
theorem Cursor.StandsAt.isGitlink_iff (hsorted : ix.Sorted) (h : c.StandsAt ix key)
    (hne : key ≠ []) :
    c.isGitlink key = true ↔ ix.Gitlink key.dropLast := by
  obtain ⟨n, rfl, -, hahead⟩ := h
  have hbefore : key.dropLast < key := by
    refine lt_of_le_of_ne (not_lt.1 (not_lt_of_isPrefix (List.dropLast_prefix key))) fun heq => ?_
    have hlength := congrArg List.length heq
    have hpos := length_pos_iff.2 hne
    rw [length_dropLast] at hlength
    omega
  change (binarySearchBy _ ((ix.entries.take (n + 1)).foldl remember [])).isSome = true ↔ _
  rw [binarySearchBy_cmpPaths_isSome (foldl_remember_sorted (hsorted.sublist (take_sublist _ _))),
    mem_foldl_remember]
  constructor
  · rintro ⟨e, he, hgitlink⟩
    exact ⟨e, mem_of_mem_take he, hgitlink⟩
  · rintro ⟨e, he, hmode, hpath⟩
    rw [← take_append_drop n ix.entries] at he
    rcases mem_append.1 he with he | he
    · exact ⟨e, take_subset_take_left _ (Nat.le_succ n) he, hmode, hpath⟩
    · exact absurd (hpath ▸ hbefore) (hahead e he)

end Git
