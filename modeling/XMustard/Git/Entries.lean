import XMustard.Text.Bytes

/-! # Index entries

What the reader of Git's index hands out: the entries, one at a time in the order of the file, and
the refusals that end a reading. Paths are relative to the top of the worktree, in Git's bytes. -/

namespace Git

open Text

/-- Why the reader gave no answer. -/
inductive Refusal where
  /-- A layout the reader does not follow. -/
  | unsupported (m : String)
  /-- The index or the worktree could not be read. -/
  | failed (m : String)
  /-- A refusal while reading a nested repository. -/
  | submodule (m : String)
  deriving DecidableEq

/-- Compares two index paths in Git's byte-sorted index order. -/
def cmpPaths (a b : Bytes) : Ordering := if a < b then .lt else if a = b then .eq else .gt

variable {a b : Bytes}

@[simp] lemma cmpPaths_eq_lt : cmpPaths a b = .lt ↔ a < b := by
  unfold cmpPaths
  split_ifs <;> simp_all

@[simp] lemma cmpPaths_eq_eq : cmpPaths a b = .eq ↔ a = b := by
  unfold cmpPaths
  split_ifs with hlt heq
  · simpa using hlt.ne
  · simpa using heq
  · simpa using heq

@[simp] lemma cmpPaths_eq_gt : cmpPaths a b = .gt ↔ b < a := by
  unfold cmpPaths
  split_ifs with hlt heq
  · simpa using hlt.not_gt
  · simp [heq]
  · simpa using lt_of_le_of_ne (not_lt.1 hlt) (Ne.symm heq)

/-- An object id of either format. -/
abbrev Oid := Bytes

/-- The mode of an index or tree entry: its kind in the upper bits. -/
abbrev Mode := UInt32

def modeGitlink : Mode := 0o160000

structure Entry where
  path : Bytes
  mode : Mode
  oid : Oid
  /-- 0 for a merged entry, 1-3 for the stages of an unmerged path. -/
  stage : Fin 4
  assumeValid : Bool
  skipWorktree : Bool
  intentToAdd : Bool
  deriving DecidableEq

/-- An opened index: the entries a reading hands out, what it then fails with, if it does, and the
valid directories of the cache-tree, sorted (`""` for the top, else `a/b`). -/
structure Index where
  entries : List Entry
  fault : Option Refusal
  cacheTree : List (Bytes × Oid)

variable (ix : Index)

/-- The paths come in byte order; equal paths repeat for the stages of an unmerged one. -/
def Index.Sorted : Prop := ix.entries.Pairwise fun e e' => ¬e'.path < e.path

instance (ix : Index) : Decidable ix.Sorted := inferInstanceAs (Decidable (List.Pairwise _ _))

/-- The index has an entry at `path`. -/
def Index.Holds (path : Bytes) : Prop := ∃ e ∈ ix.entries, e.path = path

/-- The index has an entry under the directory `dir` (`a/b/`). -/
def Index.HoldsUnder (dir : Bytes) : Prop := ∃ e ∈ ix.entries, dir <+: e.path

/-- The index has a gitlink at `path`. -/
def Index.Gitlink (path : Bytes) : Prop :=
  ∃ e ∈ ix.entries, e.mode = modeGitlink ∧ e.path = path

instance (ix : Index) (path : Bytes) : Decidable (ix.Holds path) :=
  inferInstanceAs (Decidable (∃ e ∈ ix.entries, e.path = path))

instance (ix : Index) (dir : Bytes) : Decidable (ix.HoldsUnder dir) :=
  inferInstanceAs (Decidable (∃ e ∈ ix.entries, dir <+: e.path))

instance (ix : Index) (path : Bytes) : Decidable (ix.Gitlink path) :=
  inferInstanceAs (Decidable (∃ e ∈ ix.entries, e.mode = modeGitlink ∧ e.path = path))

end Git
