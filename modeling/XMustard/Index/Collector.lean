import XMustard.Lists.Smallest
import XMustard.Text.Bytes

/-!
# The files an index covers

A scan takes the eligible files in the order of a listing and stats each of them. It holds a bounded
number of candidates, those with the smallest paths: readable ones in one heap, and those with a
loss that their stat tells in another. What the heaps let go is only counted. At the end the
envelope is applied to the candidates in path order: a number of files, a number of bytes, and a
number of rows for files that are lost.
-/

namespace Index

open Lists Text

/-! ### Files -/

/-- What keeps a file from being read, as its stat tells. -/
inductive PreLoss
  | symlink | notRegular | unreadable | oversized
  deriving DecidableEq

/-- Why an eligible file is not indexed. -/
inductive Reason
  | preRead (loss : PreLoss) | envelopeBytes | envelopeFiles | ignoreBudget
  deriving DecidableEq

structure StatKey where
  size : Nat
  mtimeNs : Int
  ctimeNs : Int
  ino : Nat
  dev : Nat
  deriving DecidableEq

/-- The key of a file without a stat. -/
def StatKey.empty : StatKey := ⟨0, 0, 0, 0, 0⟩

/-- The mode of a listed path in the Git index. -/
inductive Mode
  | regular | symlink | gitlink
  deriving DecidableEq

/-- What `lstat` says of a path. -/
inductive LStat
  | notFound
  | failed
  | found (isSymlink isFile : Bool) (stat : StatKey)

structure IndexConfig where
  maxFiles : Nat
  maxTotalBytes : Nat
  maxFileSize : Nat

variable {Lang : Type}

/-- An eligible file of a listing. -/
structure Listed (Lang : Type) where
  path : Bytes
  lang : Lang
  mode : Mode
  lstat : LStat

structure Candidate (Lang : Type) where
  path : Bytes
  lang : Lang
  stat : StatKey
  loss : Option Reason

/-- The stat key and loss of a path, unless it is gone from the worktree. -/
def statFile (lstat : LStat) (mode : Mode) (maxFileSize : Nat) :
    Option (StatKey × Option PreLoss) :=
  match lstat with
  | .notFound => none
  | .failed => some (.empty, some .unreadable)
  | .found isSymlink isFile stat =>
    if mode = .symlink ∨ isSymlink then some (.empty, some .symlink)
    else if mode = .gitlink ∨ !isFile then some (.empty, some .notRegular)
    else some (stat, if stat.size > maxFileSize then some .oversized else none)

/-! ### Collecting -/

def maxLossRows : Nat := 2000

def maxLossEntries : Nat := 200

def maxExceptions : Nat := 2000

/-- Why a path without a row depends on the worktree. -/
inductive Exception
  | lost (reason : Reason) | deleted | deletedSymlink
  deriving DecidableEq

structure Collector (Lang : Type) where
  readable : List (Candidate Lang) := []
  lost : List (Candidate Lang) := []
  beyond : Reason → Nat := fun _ => 0
  sample : List (Bytes × Reason) := []
  worktreeDeleted : Nat := 0
  exceptions : List (Bytes × Exception) := []
  exceptionsComplete : Bool := true

namespace Collector

variable (col : Collector Lang)

def noteException (path : Bytes) (state : Exception) : Collector Lang :=
  if col.exceptions.length < maxExceptions then
    { col with exceptions := (path, state) :: col.exceptions.filter fun e => e.1 ≠ path }
  else { col with exceptionsComplete := false }

/-- The sample with one more path, if that is among the smallest. -/
def sampled (sample : List (Bytes × Reason)) (path : Bytes) (reason : Reason) :
    List (Bytes × Reason) :=
  if sample.length < maxLossEntries then heapInsert Prod.fst (path, reason) sample
  else
    match sample.getLast? with
    | some top => if path < top.1 then heapInsert Prod.fst
        (path, reason) sample.dropLast else sample
    | none => sample

/-- Count a file that has no row. -/
def pushBeyond (path : Bytes) (reason : Reason) : Collector Lang :=
  let counted : Collector Lang :=
    { col with
      beyond := fun r => if r = reason then col.beyond r + 1 else col.beyond r
      sample := sampled col.sample path reason }
  -- these two do not depend on the worktree
  if reason = .envelopeFiles ∨ reason = .ignoreBudget then counted
  else counted.noteException path (.lost reason)

/-- Count a candidate that a heap let go. -/
def pushGone : Option (Candidate Lang) → Collector Lang
  | some c => col.pushBeyond c.path (c.loss.getD .envelopeFiles)
  | none => col

def push (cfg : IndexConfig) (col : Collector Lang) (c : Candidate Lang) : Collector Lang :=
  match c.loss with
  | none =>
    let r := heapPush Candidate.path (cfg.maxFiles + maxLossRows) c col.readable
    ({ col with readable := r.1 }).pushGone r.2
  | some _ =>
    let r := heapPush Candidate.path maxLossRows c col.lost
    ({ col with lost := r.1 }).pushGone r.2

def add (cfg : IndexConfig) (col : Collector Lang) (f : Listed Lang) : Collector Lang :=
  match statFile f.lstat f.mode cfg.maxFileSize with
  | none =>
    ({ col with worktreeDeleted := col.worktreeDeleted + 1 }).noteException f.path
      (if f.mode = Mode.symlink then .deletedSymlink else .deleted)
  | some (stat, loss) => col.push cfg ⟨f.path, f.lang, stat, loss.map .preRead⟩

end Collector

/-! ### The envelope -/

/-- How far the envelope is used up. -/
structure Fold where
  kept : Nat := 0
  bytes : Nat := 0
  lossRows : Nat := 0
  cut : Bool := false

/-- Apply the envelope to candidates in path order: the rows, and the collector with the others. -/
def settle (cfg : IndexConfig) : Fold → List (Candidate Lang) → Collector Lang →
    List (Candidate Lang) × Collector Lang
  | _, [], col => ([], col)
  | st, c :: cs, col =>
    if st.cut then settle cfg st cs (col.pushBeyond c.path (c.loss.getD .envelopeFiles))
    else if c.loss.isNone ∧ cfg.maxFiles ≤ st.kept then
      settle cfg { st with cut := true } cs (col.pushBeyond c.path .envelopeFiles)
    else if c.loss.isNone ∧ st.bytes + c.stat.size ≤ cfg.maxTotalBytes then
      let r := settle cfg { st with kept := st.kept + 1, bytes := st.bytes + c.stat.size } cs col
      (c :: r.1, r.2)
    else
      let lost := { c with loss := some (c.loss.getD .envelopeBytes) }
      if st.lossRows < maxLossRows then
        let r := settle cfg { st with lossRows := st.lossRows + 1 } cs col
        (lost :: r.1, r.2)
      else settle cfg st cs (col.pushBeyond c.path (c.loss.getD .envelopeBytes))

/-- Drop what has the path of the one before it. -/
def dedupAfter (c : Candidate Lang) : List (Candidate Lang) → List (Candidate Lang)
  | [] => [c]
  | d :: ds => if d.path = c.path then dedupAfter c ds else c :: dedupAfter d ds

def dedupPaths : List (Candidate Lang) → List (Candidate Lang)
  | [] => []
  | c :: cs => dedupAfter c cs

/-- A finished collection, without the docs and nested repositories it lists as well. -/
structure Collected (Lang : Type) where
  candidates : List (Candidate Lang)
  beyond : Reason → Nat
  beyondSample : List (Bytes × Reason)
  worktreeDeleted : Nat
  exceptions : List (Bytes × Exception)
  exceptionsComplete : Bool

def Collector.finish (cfg : IndexConfig) (col : Collector Lang) : Collected Lang :=
  let all := (col.readable ++ col.lost).insertionSort fun c d => c.path ≤ d.path
  let r := settle cfg {} (dedupPaths all) col
  { candidates := r.1, beyond := r.2.beyond, beyondSample := r.2.sample,
    worktreeDeleted := r.2.worktreeDeleted, exceptions := r.2.exceptions,
    exceptionsComplete := r.2.exceptionsComplete }

/-- Collect the files of a listing. -/
def collect (cfg : IndexConfig) (files : List (Listed Lang)) : Collected Lang :=
  (files.foldl (Collector.add cfg) {}).finish cfg

end Index
