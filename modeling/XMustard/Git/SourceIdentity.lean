import XMustard.Bits.LittleEndian
import XMustard.Text.Bytes
import Mathlib.Data.List.Sort

/-!
# The source identity of a working tree

The key of an observation is a hash over the root, HEAD and the status entries, with a token for
what stands at the path of each entry. What is not hashed in full is a limitation, and an identity
is complete if it has none.
-/

namespace IndexCache

open List Text Bits

/-- One record of a status listing. -/
structure StatusEntry where
  x : UInt8
  y : UInt8
  path : Bytes
  origPath : Option Bytes

def StatusEntry.isUntracked (e : StatusEntry) : Bool := e.x = '?'.toUInt8 && e.y = '?'.toUInt8

def StatusEntry.isIgnored (e : StatusEntry) : Bool := e.x = '!'.toUInt8 && e.y = '!'.toUInt8

/-- What stands at a path of a working tree. A directory may be a repository of its own, with a
token of its state if that can be read. -/
inductive Content
  | absent
  | file (bytes : Bytes)
  | link (target : Except String Bytes)
  | directory (own : Option (Option Bytes))
  | special
  | unreadable (why : String)

/-! ### Reading -/

inductive SourceReadFailure
  | oversized (n : Nat)
  | symlink
  | notRegular
  | missing
  | unreadable (why : String)

def SourceReadFailure.reason : SourceReadFailure → String
  | .oversized _ => "oversized"
  | .symlink => "symlink"
  | .notRegular => "not_regular"
  | .missing => "missing"
  | .unreadable _ => "unreadable"

def maxRepoFileBytes : Nat := 8 <<< 20

def SourceReadFailure.detail : SourceReadFailure → String
  | .oversized n => s!"{n} bytes exceeds the {maxRepoFileBytes}-byte read cap; not read"
  | .unreadable why => why
  | _ => ""

/-- Read a regular file of at most `cap` bytes; a link is not followed. -/
def readSourceBeneath (cap : Nat) : Content → Except SourceReadFailure Bytes
  | .absent => .error .missing
  | .file bytes => if cap < bytes.length then .error (.oversized bytes.length) else .ok bytes
  | .link _ => .error .symlink
  | .directory _ | .special => .error .notRegular
  | .unreadable why => .error (.unreadable why)

def readLink : Content → Except String Bytes
  | .link target => target
  | _ => .error "Invalid argument (os error 22)"

/-! ### Listings -/

structure Listing where
  records : List StatusEntry
  hidden : Except String (List StatusEntry)
  untrackedIncomplete : Option String

/-- What is seen of a root: Git's answers and the working tree. The hashes of files come from a
cache that is given the paths to hash, with the number of bytes they stand for. -/
structure Observation where
  root : Bytes
  isWorktree : Bool
  revParse : Option Bytes
  listing : Except (String × String) Listing
  hashFiles : List Bytes → (Bytes → Option Bytes) × Nat
  worktree : Bytes → Content
  submodules : List Bytes
  metadata : Bytes → Option Bytes

def maxIdentityUntracked : Nat := 10000

structure StatusWalk where
  entries : List StatusEntry := []
  untrackedKept : Nat := 0
  beyond : List Bytes := []

/-- Keep an entry, or only the path of an untracked one past the bound. -/
def StatusWalk.entry (w : StatusWalk) (e : StatusEntry) : StatusWalk :=
  if e.isIgnored then w
  else if e.isUntracked then
    if maxIdentityUntracked ≤ w.untrackedKept then { w with beyond := w.beyond ++ [e.path] }
    else { w with untrackedKept := w.untrackedKept + 1, entries := w.entries ++ [e] }
  else { w with entries := w.entries ++ [e] }

def Listing.walk (l : Listing) : StatusWalk := l.records.foldl StatusWalk.entry {}

/-- Tracked entries come first, each kind by path. -/
def StatusEntry.before (a b : StatusEntry) : Bool :=
  if a.isUntracked = b.isUntracked then decide (a.path ≤ b.path) else b.isUntracked

/-- The entries that are identified: hidden ones only where no other is of the same path. -/
def Listing.entries (l : Listing) : List StatusEntry :=
  let hidden := match l.hidden with
    | .ok hidden => hidden.filter fun e => !(l.walk.entries.map StatusEntry.path).contains e.path
    | .error _ => []
  (l.walk.entries ++ hidden).insertionSort fun a b => a.before b = true

/-! ### Contents -/

inductive NestedKind
  | submodule | gitlinkUnregistered | nestedRepo

def NestedKind.text : NestedKind → String
  | .submodule => "submodule"
  | .gitlinkUnregistered => "gitlink_unregistered"
  | .nestedRepo => "nested_repo"

def nestedKind (tracked registered : Bool) : NestedKind :=
  match tracked, registered with
  | false, _ => .nestedRepo
  | true, true => .submodule
  | true, false => .gitlinkUnregistered

inductive DirtyContent
  | sha256 (hex : Bytes)
  | deleted
  | symlink (hex : Bytes)
  | incomplete (f : SourceReadFailure)
  | unhashed
  | nestedRepo (kind : NestedKind) (token : Bytes)

/-- SHA-256: the digest, and its hexadecimal text. -/
structure Sha256 where
  digest : Bytes → Bytes
  hex : Bytes → Bytes

/-- The path without the slash that ends a directory's. -/
def trimmed (path : Bytes) : Bytes :=
  if path.getLast? = some '/'.toUInt8 then path.dropLast else path

variable (o : Observation)

/-- An entry that is a directory, without reading it. -/
def directoryEntry (e : StatusEntry) : Option DirtyContent :=
  match o.worktree (trimmed e.path) with
  | .directory none => some (.incomplete .notRegular)
  | .directory (some none) =>
    some (.incomplete (.unreadable "nested repository: its Git dir or HEAD cannot be read"))
  | .directory (some (some token)) =>
    some (.nestedRepo (nestedKind (!e.isUntracked)
      (o.submodules.contains (fromUtf8Lossy (trimmed e.path)))) token)
  | _ => none

variable (sha : Sha256)

/-- The content at an entry that is no directory, and the budget that is left. -/
def readContent (c : Content) (budget : Nat) : DirtyContent × Nat :=
  match readSourceBeneath (min maxRepoFileBytes budget) c with
  | .ok bytes => (.sha256 (sha.hex bytes), budget - bytes.length)
  | .error .missing => (.deleted, budget)
  | .error .symlink =>
    match readLink c with
    | .ok target => (.symlink (sha.hex target), budget)
    | .error why => (.incomplete (.unreadable why), budget)
  | .error (.oversized n) =>
    -- a file that fits the cap does not fit the budget
    if n ≤ maxRepoFileBytes then (.unhashed, budget) else (.incomplete (.oversized n), budget)
  | .error f => (.incomplete f, budget)

def contentOf (o : Observation) (cached : Bytes → Option Bytes) (budget : Nat)
    (e : StatusEntry) : DirtyContent × Nat :=
  match cached e.path with
  | some hex => (.sha256 hex, budget)
  | none =>
    match directoryEntry o e with
    | some c => (c, budget)
    | none => if budget = 0 then (.unhashed, budget) else readContent sha (o.worktree e.path) budget

def identify (sha : Sha256) (o : Observation) (cached : Bytes → Option Bytes) :
    Nat → List StatusEntry → List (StatusEntry × DirtyContent)
  | _, [] => []
  | budget, e :: es =>
    let (c, budget) := contentOf sha o cached budget e
    (e, c) :: identify sha o cached budget es

/-! ### The key -/

def DirtyContent.token (c : DirtyContent) (metadata : Option Bytes) : Bytes :=
  match c with
  | .sha256 x => ascii "sha256:" ++ x
  | .deleted => ascii "deleted"
  | .symlink x => ascii "symlink:" ++ x
  | .nestedRepo kind token => ascii kind.text ++ ascii ":" ++ token
  | .incomplete f => ascii f.reason ++ ascii ":" ++ metadata.getD (ascii "no-metadata")
  | .unhashed => ascii "identity_budget:" ++ metadata.getD (ascii "no-metadata")

structure Limitation where
  path : Option Bytes
  reason : String
  detail : String

def maxIdentityBytes : Nat := 64 <<< 20

def DirtyContent.limitation (c : DirtyContent) (path : Bytes) : Option Limitation :=
  match c with
  | .incomplete f => some ⟨some (fromUtf8Lossy path), f.reason, f.detail⟩
  | .unhashed => some ⟨some (fromUtf8Lossy path), "identity_budget",
    s!"identity byte budget ({maxIdentityBytes} bytes per call) spent; not hashed"⟩
  | _ => none

/-- What the hash is given for one entry. -/
def entryBytes (e : StatusEntry × DirtyContent) : Bytes :=
  e.1.x :: e.1.y :: (field e.1.path ++ field (e.1.origPath.getD (0 :: ascii "none"))
    ++ field (e.2.token (o.metadata e.1.path)))

def isUtf8 (b : Bytes) : Bool := fromUtf8Lossy b = b

/-- The entries of a listing with what stands at their paths. -/
def contents (o : Observation) (l : Listing) : List (StatusEntry × DirtyContent) :=
  let rels := (l.entries.filter fun e => e.path.getLast? ≠ some '/'.toUInt8 && isUtf8 e.path).map
    StatusEntry.path
  let pass := o.hashFiles rels
  identify sha o (fun p => if isUtf8 p then pass.1 p else none)
    (maxIdentityBytes - pass.2) l.entries

def Listing.limitations (l : Listing) (contents : List (StatusEntry × DirtyContent)) :
    List Limitation :=
  (match l.hidden with
    | .ok _ => []
    | .error why => [⟨none, "git_index_flags_failed",
      why ++ "; assume-unchanged/skip-worktree entries may hide worktree edits"⟩])
    ++ (l.untrackedIncomplete.map fun why => (⟨none, "untracked_walk_incomplete",
      why ++ "; untracked paths past it are not identified"⟩ : Limitation)).toList
    ++ contents.filterMap (fun e => e.2.limitation e.1.path)
    ++ if l.walk.beyond.isEmpty then [] else [⟨none, "identity_untracked_budget",
      s!"{l.walk.beyond.length} untracked entries past the first {maxIdentityUntracked} are keyed "
        ++ "by path only; their content is not identified"⟩]

structure SourceIdentity where
  input : Bytes
  key : Bytes
  head : Bytes
  limitations : List Limitation

def SourceIdentity.complete (id : SourceIdentity) : Prop := id.limitations = []

def sourceIdentity (o : Observation) : SourceIdentity :=
  let identity (input head : Bytes) (limitations : List Limitation) : SourceIdentity :=
    let input := ascii "xm-source-key-v1" ++ 0 :: (field o.root ++ input)
    ⟨input, sha.hex input, head, limitations⟩
  if !o.isWorktree then
    identity (ascii "git-unavailable") [] [⟨none, "git_unavailable",
      "not a Git worktree (or git is missing/unsafe); content is not identified"⟩]
  else
    -- no answer and no commit are the same
    let head := o.revParse.getD []
    match o.listing with
    | .error (reason, detail) =>
      identity (field head ++ ascii "status-failed") head
        [⟨none, reason, detail ++ "; dirty content is not identified"⟩]
    | .ok l =>
      let entries := contents sha o l
      let beyond := if l.walk.beyond.isEmpty then [] else ascii "untracked-beyond"
        ++ field (toLe 8 l.walk.beyond.length) ++ field (sha.digest (l.walk.beyond.flatMap field))
      identity (field head ++ (entries.flatMap (entryBytes o) ++ beyond)) head
        (l.limitations entries)

/-! ### Contents that are identified -/

/-- A repository of its own stands at the path. -/
def IsNested (p : Bytes) : Prop :=
  ∃ own, o.worktree (trimmed p) = .directory (some own)

/-- The content stands at the path, and is identified in full. -/
def Shows (o : Observation) (p : Bytes) : DirtyContent → Prop
  | .sha256 x => ∃ bytes, o.worktree p = .file bytes ∧ x = sha.hex bytes
  | .deleted => o.worktree p = .absent
  | .symlink x => ∃ target, o.worktree p = .link (.ok target) ∧ x = sha.hex target
  | .nestedRepo _ _ => IsNested o p
  | .incomplete _ | .unhashed => False

variable {sha : Sha256} {o o₁ o₂ : Observation} {p : Bytes} {cached : Bytes → Option Bytes}
  {budget : Nat}
  {e : StatusEntry} {l : Listing}

/-- A hash of the cache is the hash of a file as it is. -/
def Vouched (sha : Sha256) (o : Observation) (cached : Bytes → Option Bytes) : Prop :=
  ∀ p hex, cached p = some hex → ∃ bytes, o.worktree p = .file bytes ∧ hex = sha.hex bytes

lemma readContent_shows (h : (readContent sha (o.worktree p) budget).1.limitation p = none) :
    Shows sha o p (readContent sha (o.worktree p) budget).1 := by
  cases hw : o.worktree p with
  | absent => exact hw
  | file bytes =>
    by_cases hcap : min maxRepoFileBytes budget < bytes.length
    · simp only [hw, readContent, readSourceBeneath, if_pos hcap] at h
      split_ifs at h <;> nomatch h
    · simp only [readContent, readSourceBeneath, if_neg hcap]
      exact ⟨bytes, hw, rfl⟩
  | link target =>
    cases target with
    | ok target => exact ⟨target, hw, rfl⟩
    | error why => rw [hw] at h; nomatch h
  | directory | special | unreadable => rw [hw] at h; nomatch h

lemma contentOf_shows (hcached : Vouched sha o cached)
    (h : (contentOf sha o cached budget e).1.limitation e.path = none) :
    Shows sha o e.path (contentOf sha o cached budget e).1 := by
  unfold contentOf at h ⊢
  cases hc : cached e.path with
  | some hex => exact hcached e.path hex hc
  | none =>
    simp only [hc] at h ⊢
    cases hd : directoryEntry o e with
    | some c =>
      simp only [hd] at h ⊢
      unfold directoryEntry at hd
      split at hd
      · cases hd; nomatch h
      · cases hd; nomatch h
      · next token hw => cases hd; exact ⟨_, hw⟩
      · nomatch hd
    | none =>
      simp only [hd] at h ⊢
      split_ifs at h ⊢
      · nomatch h
      · exact readContent_shows h

lemma identify_spec (hcached : Vouched sha o cached) (es : List StatusEntry) :
    (identify sha o cached budget es).map Prod.fst = es
      ∧ ∀ ec ∈ identify sha o cached budget es, ec.2.limitation ec.1.path = none →
        Shows sha o ec.1.path ec.2 := by
  induction es generalizing budget with
  | nil => exact ⟨rfl, nofun⟩
  | cons e es ih =>
    obtain ⟨hfst, hshows⟩ := @ih (contentOf sha o cached budget e).2
    exact ⟨congrArg (e :: ·) hfst, forall_mem_cons.2 ⟨contentOf_shows hcached, hshows⟩⟩

/-- What a path without a repository is identified by. -/
inductive Plain
  | absent
  | file (bytes : Bytes)
  | link (target : Bytes)

def Plain.content : Plain → Content
  | .absent => .absent
  | .file bytes => .file bytes
  | .link target => .link (.ok target)

lemma Plain.content_injective : Function.Injective content := by
  intro w w' h
  cases w <;> cases w' <;> simp_all [content]

def Plain.token (sha : Sha256) : Plain → Bytes
  | .absent => ascii "deleted"
  | .file bytes => ascii "sha256:" ++ sha.hex bytes
  | .link target => ascii "symlink:" ++ sha.hex target

lemma Plain.token_injective (hsha : Function.Injective sha.hex) :
    Function.Injective (token sha) := by
  intro w w' h
  cases w <;> cases w' <;> simp_all [token, ascii, hsha.eq_iff]
  all_goals exact absurd h.1 (by decide)

lemma Shows.plain {c : DirtyContent} (h : Shows sha o p c) (hnested : ¬IsNested o p) :
    ∃ w : Plain, o.worktree p = w.content ∧ c.token (o.metadata p) = w.token sha := by
  cases c with
  | sha256 x =>
    obtain ⟨bytes, hw, rfl⟩ := h
    exact ⟨.file bytes, hw, rfl⟩
  | deleted => exact ⟨.absent, h, rfl⟩
  | symlink x =>
    obtain ⟨target, hw, rfl⟩ := h
    exact ⟨.link target, hw, rfl⟩
  | nestedRepo => exact absurd h hnested
  | incomplete | unhashed => exact h.elim

/-! ### Paths that are named -/

def Listing.Names (l : Listing) (p : Bytes) : Prop :=
  (∃ e ∈ l.records, ¬e.isIgnored ∧ e.path = p)
    ∨ ∃ hidden, l.hidden = .ok hidden ∧ ∃ e ∈ hidden, e.path = p

def Observation.Named (o : Observation) (p : Bytes) : Prop := ∃ l, o.listing = .ok l ∧ l.Names p

/-- An entry that is not ignored is kept, or its path is. -/
lemma StatusWalk.foldl_entry (es : List StatusEntry) (w : StatusWalk) :
    (∃ e ∈ (es.foldl entry w).entries, e.path = p) ∨ p ∈ (es.foldl entry w).beyond
      ↔ ((∃ e ∈ w.entries, e.path = p) ∨ p ∈ w.beyond) ∨ ∃ e ∈ es, ¬e.isIgnored ∧ e.path = p := by
  induction es generalizing w with
  | nil => simp
  | cons e es ih =>
    rw [foldl_cons, ih]
    have hp : p = e.path ↔ e.path = p := eq_comm
    unfold entry
    split_ifs with hignored <;> simp [hignored, hp, or_and_right, exists_or, or_assoc,
      or_left_comm, or_comm]

lemma Listing.mem_entries (h : l.walk.beyond = []) : (∃ e ∈ l.entries, e.path = p) ↔ l.Names p := by
  have hwalk := StatusWalk.foldl_entry (p := p) l.records {}
  rw [← Listing.walk, h] at hwalk
  simp only [not_mem_nil, or_false, false_and, exists_false, false_or] at hwalk
  unfold entries Names
  rw [← hwalk]
  cases l.hidden with
  | error why => simp [mem_insertionSort]
  | ok hidden =>
    simp only [mem_insertionSort, mem_append, mem_filter, Except.ok.injEq,
      exists_eq_left']
    constructor
    · rintro ⟨e, he | he, rfl⟩
      · exact .inl ⟨e, he, rfl⟩
      · exact .inr ⟨e, he.1, rfl⟩
    · rintro (⟨e, he, rfl⟩ | ⟨e, he, rfl⟩)
      · exact ⟨e, .inl he, rfl⟩
      · by_cases hold : ∃ e' ∈ l.walk.entries, e'.path = e.path
        · exact hold.imp fun _ h => ⟨.inl h.1, h.2⟩
        · exact ⟨e, .inr ⟨he, by simpa using hold⟩, rfl⟩

/-! ### Equal keys -/

def entryToken (o : Observation) (e : StatusEntry × DirtyContent) : Bytes × Bytes :=
  (e.1.path, e.2.token (o.metadata e.1.path))

lemma tokens_of_bytes : ∀ {l₁ l₂ : List (StatusEntry × DirtyContent)},
    l₁.flatMap (entryBytes o₁) = l₂.flatMap (entryBytes o₂) →
    (l₁.flatMap (entryBytes o₁)).length < 2 ^ 64 → l₁.map (entryToken o₁) = l₂.map (entryToken o₂)
  | [], [], _, _ => rfl
  | [], _ :: _, h, _ => by simp [entryBytes] at h
  | _ :: _, [], h, _ => by simp [entryBytes] at h
  | e :: l₁, e' :: l₂, h, hlen => by
    simp only [flatMap_cons, entryBytes, cons_append, append_assoc, List.cons.injEq]
      at h hlen
    simp only [length_cons, length_append] at hlen
    obtain ⟨-, -, h⟩ := h
    obtain ⟨hpath, h⟩ := field_append_inj h (by simp only [length_append]; omega)
    obtain ⟨-, h⟩ := field_append_inj h (by simp only [length_append]; omega)
    obtain ⟨htoken, h⟩ := field_append_inj h (by simp only [length_append]; omega)
    rw [map_cons, tokens_of_bytes h (by omega)]
    exact congrArg (· :: _) (Prod.ext hpath htoken)

lemma contents_spec (hv : ∀ rels, Vouched sha o (o.hashFiles rels).1) (l : Listing) :
    (contents sha o l).map Prod.fst = l.entries
      ∧ ∀ ec ∈ contents sha o l, ec.2.limitation ec.1.path = none → Shows sha o ec.1.path ec.2 :=
  identify_spec (fun p hex h => hv _ p hex (Option.ite_none_right_eq_some.1 h).2) _

/-- A complete identity is of tokens for the paths that are named. -/
lemma complete_spec (hv : ∀ rels, Vouched sha o (o.hashFiles rels).1)
    (h : (sourceIdentity sha o).complete) : ∃ es : List (StatusEntry × DirtyContent),
      (sourceIdentity sha o).key = sha.hex (sourceIdentity sha o).input
      ∧ (sourceIdentity sha o).input = ascii "xm-source-key-v1" ++ 0 :: (field o.root
        ++ (field (o.revParse.getD []) ++ es.flatMap (entryBytes o)))
      ∧ (∀ p, o.Named p ↔ ∃ t, (p, t) ∈ es.map (entryToken o))
      ∧ ∀ p t, (p, t) ∈ es.map (entryToken o) → ¬IsNested o p →
        ∃ w : Plain, o.worktree p = w.content ∧ t = w.token sha := by
  unfold SourceIdentity.complete sourceIdentity at h
  unfold sourceIdentity
  cases hw : o.isWorktree with
  | false => simp [hw] at h
  | true =>
    cases hl : o.listing with
    | error why => simp [hw, hl] at h
    | ok l =>
      simp only [hw, hl, Bool.not_true, Bool.false_eq_true, if_false, Listing.limitations,
        append_eq_nil_iff, filterMap_eq_nil_iff] at h ⊢
      obtain ⟨⟨-, hcontents⟩, hbeyond⟩ := h
      have hbeyond : l.walk.beyond = [] := by
        by_contra hne
        simp [hne] at hbeyond
      obtain ⟨hfst, hshows⟩ := contents_spec hv l
      refine ⟨contents sha o l, trivial, by simp [hbeyond], fun p => ?_, fun p t ht hnested => ?_⟩
      · have hnames := Listing.mem_entries (p := p) hbeyond
        rw [← hfst] at hnames
        simpa [Observation.Named, hl, entryToken] using hnames.symm
      · obtain ⟨ec, hec, ⟨⟩⟩ := mem_map.1 ht
        exact (hshows ec hec (hcontents ec hec)).plain hnested

/-- What HEAD holds at a path, by the tree of its commit. -/
def atHead (tree : Bytes → Bytes → Option Plain) (head : Option Bytes) (p : Bytes) : Option Plain :=
  head.bind (tree · p)

/-- The observation is of a working tree over HEAD. Git may give no answer for HEAD. -/
structure Faithful (sha : Sha256) (tree : Bytes → Bytes → Option Plain) (head : Option Bytes)
    (o : Observation) : Prop where
  named : head ≠ some []
  read : o.revParse = none ∨ o.revParse = head
  vouched : ∀ rels, Vouched sha o (o.hashFiles rels).1
  unnamed : ∀ p x, ¬o.Named p → atHead tree head p = some x → o.worktree p = x.content
  bounded : (sourceIdentity sha o).input.length < 2 ^ 64

/-- Both working trees have the same bytes, the same link target or nothing at the path. -/
def SameAt (o₁ o₂ : Observation) (p : Bytes) : Prop :=
  ∃ w : Plain, o₁.worktree p = w.content ∧ o₂.worktree p = w.content

/-- Paths that HEAD holds or that a listing names are the same in both working trees. -/
def SameSources (tree : Bytes → Bytes → Option Plain) (head₁ head₂ : Option Bytes)
    (o₁ o₂ : Observation) : Prop :=
  ∀ p, ¬IsNested o₁ p → ¬IsNested o₂ p → (atHead tree head₁ p).isSome ∨ (atHead tree head₂ p).isSome
    ∨ o₁.Named p ∨ o₂.Named p → SameAt o₁ o₂ p

variable {tree : Bytes → Bytes → Option Plain} {head₁ head₂ : Option Bytes}

/-- Equal keys are of equal heads, and of listings that name the same paths with the same contents.
-/
lemma of_key_eq (h₁ : Faithful sha tree head₁ o₁) (h₂ : Faithful sha tree head₂ o₂)
    (hsha : Function.Injective sha.hex) (hroot : o₁.root = o₂.root)
    (c₁ : (sourceIdentity sha o₁).complete) (c₂ : (sourceIdentity sha o₂).complete)
    (hkey : (sourceIdentity sha o₁).key = (sourceIdentity sha o₂).key) :
    o₁.revParse.getD [] = o₂.revParse.getD [] ∧ ∀ p, (o₁.Named p ↔ o₂.Named p)
      ∧ (o₁.Named p → ¬IsNested o₁ p → ¬IsNested o₂ p → SameAt o₁ o₂ p) := by
  obtain ⟨es₁, hk₁, hi₁, hn₁, hs₁⟩ := complete_spec h₁.vouched c₁
  obtain ⟨es₂, hk₂, hi₂, hn₂, hs₂⟩ := complete_spec h₂.vouched c₂
  rw [hk₁, hk₂] at hkey
  have hlen := h₁.bounded
  have hinput := hsha hkey
  rw [hi₁] at hlen
  rw [hi₁, hi₂, hroot, append_cancel_left_eq, List.cons.injEq, append_cancel_left_eq] at hinput
  simp only [length_append, length_cons] at hlen
  obtain ⟨hhead, hes⟩ := field_append_inj hinput.2 (by simp only [length_append]; omega)
  have htokens := tokens_of_bytes hes (by omega)
  rw [htokens] at hn₁ hs₁
  refine ⟨hhead, fun p => ⟨(hn₁ p).trans (hn₂ p).symm, fun hp hnested₁ hnested₂ => ?_⟩⟩
  obtain ⟨t, ht⟩ := (hn₁ p).1 hp
  obtain ⟨w, hw, rfl⟩ := hs₁ p t ht hnested₁
  obtain ⟨w', hw', htoken⟩ := hs₂ p _ ht hnested₂
  exact ⟨w, hw, Plain.token_injective hsha htoken ▸ hw'⟩

/-- Equal keys are of equal sources if both heads were read, or the two commits hold the same at the
paths that are not named. At the paths that both hold there is no other way. -/
theorem sameSources_of_heads (hsha : Function.Injective sha.hex)
    (h₁ : Faithful sha tree head₁ o₁) (h₂ : Faithful sha tree head₂ o₂) (hroot : o₁.root = o₂.root)
    (c₁ : (sourceIdentity sha o₁).complete) (c₂ : (sourceIdentity sha o₂).complete)
    (hkey : (sourceIdentity sha o₁).key = (sourceIdentity sha o₂).key) :
    ((o₁.revParse = head₁ ∧ o₂.revParse = head₂) ∨ (∀ p, ¬IsNested o₁ p → ¬IsNested o₂ p →
        ¬o₁.Named p → atHead tree head₁ p = atHead tree head₂ p) →
      SameSources tree head₁ head₂ o₁ o₂)
    ∧ (SameSources tree head₁ head₂ o₁ o₂ → ∀ p x₁ x₂, ¬IsNested o₁ p → ¬IsNested o₂ p →
      ¬o₁.Named p → atHead tree head₁ p = some x₁ → atHead tree head₂ p = some x₂ → x₁ = x₂) := by
  obtain ⟨hhead, hnames⟩ := of_key_eq h₁ h₂ hsha hroot c₁ c₂ hkey
  constructor
  · intro h p hnested₁ hnested₂ hp
    by_cases hnamed : o₁.Named p
    · exact (hnames p).2 hnamed hnested₁ hnested₂
    have hnamed' := mt (hnames p).1.2 hnamed
    have hagree : atHead tree head₁ p = atHead tree head₂ p := by
      obtain ⟨hr₁, hr₂⟩ | h := h
      · have heq : head₁ = head₂ := by
          have hne₁ := h₁.named
          have hne₂ := h₂.named
          cases head₁ <;> cases head₂ <;> simp_all
        rw [heq]
      · exact h p hnested₁ hnested₂ hnamed
    have hheld : (atHead tree head₁ p).isSome := by simpa [hnamed, hnamed', hagree] using hp
    obtain ⟨x, hx⟩ := Option.isSome_iff_exists.1 hheld
    exact ⟨x, h₁.unnamed p x hnamed hx, h₂.unnamed p x hnamed' (hagree ▸ hx)⟩
  · intro hsame p x₁ x₂ hnested₁ hnested₂ hp hx₁ hx₂
    obtain ⟨w, hw₁, hw₂⟩ := hsame p hnested₁ hnested₂ (.inl (by simp [hx₁]))
    refine Plain.content_injective ?_
    rw [← h₁.unnamed p x₁ hp hx₁, ← h₂.unnamed p x₂ (mt (hnames p).1.2 hp) hx₂, hw₁, hw₂]

/-- A clean working tree of a commit with one file, with what Git answers for HEAD. -/
def cleanTree (answer : Option Bytes) (commit : Bytes) : Observation where
  root := []
  isWorktree := true
  revParse := answer
  listing := .ok ⟨[], .ok [], none⟩
  hashFiles _ := (fun _ => none, 0)
  worktree p := if p = ascii "a" then .file commit else .absent
  submodules := []
  metadata _ := none

/-- The commit is named by the bytes of its file. -/
def oneFile (commit p : Bytes) : Option Plain := if p = ascii "a" then some (.file commit) else none

lemma cleanTree_faithful {answer : Option Bytes} {c : UInt8}
    (h : answer = none ∨ answer = some [c]) :
    Faithful ⟨id, id⟩ oneFile (some [c]) (cleanTree answer [c]) where
  named := nofun
  read := h
  vouched _ _ _ h := by cases h
  unnamed p x _ hx := by
    by_cases hp : p = ascii "a"
    · cases (if_pos hp).symm.trans hx
      exact if_pos hp
    · cases (if_neg hp).symm.trans hx
  bounded := by
    obtain rfl | rfl := h
    · exact (by decide : (sourceIdentity ⟨id, id⟩ (cleanTree none [])).input.length < 2 ^ 64)
    · exact (by decide : (sourceIdentity ⟨id, id⟩ (cleanTree (some [0]) [])).input.length < 2 ^ 64)

theorem sameSources_of_heads_answered : SameSources oneFile (some [1]) (some [1])
    (cleanTree (some [1]) [1]) (cleanTree (some [1]) [1]) :=
  have h := cleanTree_faithful (.inr rfl)
  (sameSources_of_heads Function.injective_id h h rfl rfl rfl rfl).1 (.inl ⟨rfl, rfl⟩)

/-- Two commits have one key if there is no answer for HEAD. -/
theorem unanswered_sources : Faithful ⟨id, id⟩ oneFile (some [1]) (cleanTree none [1])
    ∧ Faithful ⟨id, id⟩ oneFile (some [2]) (cleanTree none [2])
    ∧ (sourceIdentity ⟨id, id⟩ (cleanTree none [1])).complete
    ∧ (sourceIdentity ⟨id, id⟩ (cleanTree none [2])).complete
    ∧ (sourceIdentity ⟨id, id⟩ (cleanTree none [1])).key
      = (sourceIdentity ⟨id, id⟩ (cleanTree none [2])).key
    ∧ ¬SameSources oneFile (some [1]) (some [2]) (cleanTree none [1]) (cleanTree none [2]) := by
  refine ⟨cleanTree_faithful (.inl rfl), cleanTree_faithful (.inl rfl), rfl, rfl, rfl, fun h => ?_⟩
  obtain ⟨w, hw₁, hw₂⟩ := h (ascii "a") (by rintro ⟨_, ⟨⟩⟩) (by rintro ⟨_, ⟨⟩⟩) (.inl rfl)
  cases hw₁.trans hw₂.symm

end IndexCache
