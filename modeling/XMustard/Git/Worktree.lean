import XMustard.Git.IgnoreRules
import Mathlib.Algebra.BigOperators.Group.List.Basic
import Mathlib.Algebra.Order.Ring.Nat

/-! # The worktree

The directory tree that the walk reads, and the file system beside it: a directory can name a Git
directory anywhere. -/

namespace Git

open Text Index.Glob

/-! ### The tree -/

/-- A name in a directory is not empty and has no `/`. -/
def IsName (n : Bytes) : Prop := n ≠ [] ∧ slash ∉ n

instance (n : Bytes) : Decidable (IsName n) := inferInstanceAs (Decidable (_ ∧ _))

abbrev Name := { n : Bytes // IsName n }

/-- What a path of the worktree is. A directory has its children in the order it is read in, and
the reason that ends the reading of it, if it does not end by itself. -/
inductive Node where
  | file (content : Content)
  | symlink
  | dir (children : List (Name × Node)) (fault : Option Reason)
  /-- A socket, a pipe or a device. -/
  | special

abbrev Children := List (Name × Node)

/-- No directory has a name twice. -/
inductive Node.WellFormed : Node → Prop where
  | file (content : Content) : Node.WellFormed (.file content)
  | symlink : Node.WellFormed .symlink
  | special : Node.WellFormed .special
  | dir {children : Children} {fault : Option Reason} (names : (children.map (·.1)).Nodup)
      (each : ∀ c ∈ children, c.2.WellFormed) : Node.WellFormed (.dir children fault)

mutual

/-- The turns that a walk of a tree may take: one for each path, one more to leave a directory. -/
def Node.size : Node → ℕ
  | .dir children _ => 2 + Node.sizes children
  | .file _ | .symlink | .special => 1

def Node.sizes : Children → ℕ
  | [] => 0
  | (_, node) :: cs => node.size + Node.sizes cs

end

lemma Node.sizes_eq (children : Children) :
    Node.sizes children = (children.map fun c => c.2.size).sum := by
  induction children with
  | nil => simp [Node.sizes]
  | cons c cs ih => simp [Node.sizes, ih]

lemma Node.size_pos (node : Node) : 0 < node.size := by
  cases node <;> rw [Node.size] <;> omega

def Node.isDir : Node → Bool
  | .dir _ _ => true
  | _ => false

def Node.isFile : Node → Bool
  | .file _ | .symlink => true
  | _ => false

def dotGit : Bytes := ascii ".git"

def dotGitignore : Bytes := ascii ".gitignore"

/-- The ignore file of a directory: a regular file, never a symlink. -/
def gitignore (children : Children) : Option Content :=
  match children.find? (·.1.1 = dotGitignore) with
  | some (_, .file content) => some content
  | _ => none

/-- A child's key: its name, with a `/` for a directory. -/
def keyOf (name : Bytes) (node : Node) : Bytes := if node.isDir then name ++ [slash] else name

/-- The node at a path below, by its names. -/
def Node.at? : Node → List Name → Option Node
  | node, [] => some node
  | .dir children _, n :: ns =>
    match children.find? (·.1 = n) with
    | some c => c.2.at? ns
    | none => none
  | _, _ :: _ => none

/-- The path of a directory by its names: each with a `/` after it. -/
def dirPath (names : List Name) : Bytes := names.flatMap fun n => n.1 ++ [slash]

/-! ### The file system -/

/-- What `lstat` tells the kinds of paths apart by. -/
inductive FileType where
  | dir
  | file
  | symlink
  | other
  deriving DecidableEq

/-- The calls on paths that a walk makes besides reading the tree: `none` is a failed call. -/
structure Host where
  symlinkMetadata : Bytes → Option (FileType × ℕ)
  readLink : Bytes → Option Bytes
  read : Bytes → Option Bytes
  isDir : Bytes → Bool
  canonicalize : Bytes → Option Bytes

/-- A path below another one; an absolute path replaces it. -/
def joinPath (dir path : Bytes) : Bytes :=
  if path.head? = some slash || dir = [] then path
  else if dir.getLast? = some slash then dir ++ path else dir ++ [slash] ++ path

def isAsciiHexDigit (b : UInt8) : Bool :=
  ('0'.toUInt8 ≤ b && b ≤ '9'.toUInt8) || ('a'.toUInt8 ≤ b && b ≤ 'f'.toUInt8) ||
    ('A'.toUInt8 ≤ b && b ≤ 'F'.toUInt8)

/-- The text of a `HEAD` Git accepts: `ref: refs/...`, or an object id. -/
def validHeadText (text : Bytes) : Bool :=
  let t := trimAsciiEnd text
  match stripPrefix? (ascii "ref:") t with
  | some r => (ascii "refs/").isPrefixOf (r.dropWhile isAsciiWhitespace)
  | none => (t.length = 40 || t.length = 64) && t.all isAsciiHexDigit

/-- A `HEAD` Git accepts: a symlink into `refs/`, or a file with an accepted text. -/
def validHead (host : Host) (path : Bytes) : Bool :=
  match host.symlinkMetadata path with
  | some (.symlink, _) => (host.readLink path).any ((ascii "refs/").isPrefixOf ·)
  | some (.file, _) => (host.read path).any fun text => validHeadText (text.take 4096)
  | _ => false

/-- Git's test for a Git dir: a valid `HEAD`, and `objects` and `refs` in its common dir. -/
def isGitDir (host : Host) (dir : Bytes) : Bool :=
  if !validHead host (joinPath dir (ascii "HEAD")) then false
  else
    let common := match host.read (joinPath dir (ascii "commondir")) with
      | some text => joinPath dir (trimAscii text)
      | none => dir
    host.isDir (joinPath common (ascii "objects")) && host.isDir (joinPath common (ascii "refs"))

/-- The largest `.git` file read for a `gitdir:` pointer. -/
def maxGitfileBytes : ℕ := 1 <<< 20

/-- Whether `dir` is the worktree of a repository of its own, as Git decides it when it meets a
directory that is not in the index: `dir/.git` is a Git dir, or a file whose `gitdir:` names one. A
`.git` file that cannot be read counts as one. -/
def isRepository (host : Host) (dir : Bytes) : Bool :=
  let dot := joinPath dir dotGit
  match host.symlinkMetadata dot with
  | none => false
  | some (.file, size) =>
    if maxGitfileBytes < size then false
    else match host.read dot with
      | none => true
      | some text =>
        match stripPrefix? (ascii "gitdir:") (text.take maxGitfileBytes) with
        | some target => isGitDir host (joinPath dir (trimAscii target))
        | none => false
  | some _ => isGitDir host dot

end Git
