import XMustard.Git.Worktree
import XMustard.Machine.Loop
import Mathlib.Data.List.Sort

/-! # The walk for untracked paths

A depth-first walk of the worktree in the order of the index: the children of each directory come
sorted by their keys, and a directory's key ends in `/`. Each path is compared with the index
through one cursor that only moves forward. -/

namespace Git

open Text

/-- One record of the status: its two letters and its path. -/
structure StatusEntry where
  xy : Char × Char
  path : Bytes
  deriving DecidableEq

structure Repo where
  toplevel : Bytes
  commonDir : Bytes
  /-- The file `core.excludesFile` names, and what it holds. -/
  excludesFile : Option (Bytes × Option Content)
  /-- What `info/exclude` in the common dir holds. -/
  infoExclude : Option Content
  ignoreCase : Bool

/-- What a walk is given: the repository and its file system, the top directory, the index, the
directory below which paths are reported (`""` or `dir/`), whether ignored directories are reported
too, whether the caller breaks off when it has been handed a list of entries, and whether the time
limit has passed at a turn of the loop. -/
structure Job where
  repo : Repo
  host : Host
  children : Children
  fault : Option Reason
  ix : Index
  below : Bytes
  listIgnored : Bool
  breaks : List StatusEntry → Bool
  late : ℕ → Bool
  limit : ℕ

/-- A child of a directory: its key and what it is. -/
abbrev Child := Bytes × Node

/-- What one child costs besides its name: the vector slot and the allocator's rounding. -/
def childOverhead : ℕ := 32 + 16

/-- A directory being walked: the children that are left, where its rules start, whether it is
excluded, and the bytes held for it. -/
structure Frame where
  path : Bytes
  children : List Child
  rulesFrom : ℕ
  excluded : Bool
  held : ℕ

structure Walk where
  stack : List Frame
  rules : List Rule
  held : ℕ
  cursor : Cursor
  /-- What the caller has been handed. -/
  listed : List StatusEntry
  turns : ℕ
  /-- The result, once there is one: a refusal, or the reason the walk did not finish, if any. -/
  ended : Option (Except Refusal (Option Reason))

/-! ### Entering a directory -/

/-- The children a walk looks at: `.git` and what is neither file nor directory are passed over. -/
def seen (c : Name × Node) : Bool := c.1.1 ≠ dotGit && (c.2.isDir || c.2.isFile)

def childOf (c : Name × Node) : Child := (keyOf c.1.1 c.2, c.2)

def cost (c : Child) : ℕ := c.1.length + childOverhead

def readChild (walkHeld : ℕ) (r : List Child × ℕ) (c : Name × Node) :
    Except Reason (List Child × ℕ) :=
  if !seen c then .ok r
  else if maxHeldNameBytes < walkHeld + (r.2 + cost (childOf c)) then .error .tooManyNames
  else .ok (r.1 ++ [childOf c], r.2 + cost (childOf c))

/-- The order of the children of a directory. -/
def Child.le (c d : Child) : Prop := ¬d.1 < c.1

instance : DecidableRel Child.le := fun c d => inferInstanceAs (Decidable (¬d.1 < c.1))

/-- The sorted children of a directory, and the bytes their keys hold. -/
def readChildren (walkHeld : ℕ) (children : Children) (fault : Option Reason) :
    Except Reason (List Child × ℕ) := do
  let r ← children.foldlM (readChild walkHeld) ([], 0)
  match fault with
  | some why => .error why
  | none => .ok (r.1.insertionSort Child.le, r.2)

variable (j : Job)

variable (w : Walk)

variable (path : Bytes)

variable (children : Children)

/-- The rules in force in a directory: with those of its ignore file, unless it is excluded. -/
def Walk.loadGitignore (excluded : Bool) :
    Except Reason (List Rule) :=
  if excluded then .ok w.rules
  else loadRules j.repo.ignoreCase (joinPath (joinPath j.repo.toplevel path) dotGitignore)
    (gitignore children) path w.rules

/-- Push a directory on the stack: its ignore file, unless it is excluded, and its sorted
children. -/
def Walk.enter (fault : Option Reason) (excluded : Bool) : Except Reason Walk := do
  let rules ← w.loadGitignore j path children excluded
  let (cs, held) ← readChildren w.held children fault
  .ok { w with
    stack := ⟨path, cs, w.rules.length, excluded, held⟩ :: w.stack
    rules := rules
    held := w.held + held }

/-! ### The scope -/

def startsWithAsciiFolded (path start : Bytes) : Bool :=
  start.length ≤ path.length && foldAscii (path.take start.length) = foldAscii start

def sameDirectory (host : Host) (left right : Bytes) : Bool :=
  match host.canonicalize left, host.canonicalize right with
  | some l, some r => l = r
  | _, _ => false

/-- Whether `path` is reported or entered at all: it is below the directory of the job, or leads
to it. -/
def Job.inScope : Bool :=
  let top := joinPath j.repo.toplevel
  if j.below.isPrefixOf path || path.isPrefixOf j.below then true
  else if !j.repo.ignoreCase then false
  else if startsWithAsciiFolded path j.below then
    sameDirectory j.host (top (path.take j.below.length)) (top j.below)
  else if startsWithAsciiFolded j.below path then
    sameDirectory j.host (top path) (top (j.below.take path.length))
  else false

def Job.belowPath : Bool :=
  j.below.isPrefixOf path || j.repo.ignoreCase && startsWithAsciiFolded path j.below

/-! ### One turn -/

/-- Hand an entry to the caller, who may break off. -/
def Walk.emit (xy : Char × Char) (path : Bytes) : Walk :=
  let listed := w.listed ++ [⟨xy, path⟩]
  { w with listed, ended := if j.breaks listed then some (.ok none) else none }

/-- Hand over an entry for a path in the directory of the job. -/
def Walk.report (xy : Char × Char) (path : Bytes) : Walk :=
  if j.belowPath path then w.emit j xy path else w

def Walk.descend (fault : Option Reason) (excluded : Bool) : Walk :=
  match w.enter j path children fault excluded with
  | .ok w' => w'
  | .error why => { w with ended := some (.ok (some why)) }

variable (parentExcluded : Bool)

def Walk.visitFile (path : Bytes) : Walk :=
  if w.cursor.holdsFile path || parentExcluded || excluded j.repo.ignoreCase w.rules path
    false then w
  else w.report j ('?', '?') path

def Walk.visitDir (path : Bytes) (children : Children) (fault : Option Reason) : Walk :=
  let bare := path.dropLast
  let ignored := parentExcluded || excluded j.repo.ignoreCase w.rules bare true
  if ignored && !j.listIgnored then w
  else if w.cursor.holdsUnder path then w.descend j path children fault ignored
  else if w.cursor.isGitlink path then w
  else if ignored then w.report j ('!', '!') path
  else if isRepository j.host (joinPath j.repo.toplevel bare) then w.report j ('?', '?') path
  else w.descend j path children fault false

/-- Visit the next child of a directory. -/
def Walk.visit (path : Bytes) (node : Node) : Walk :=
  if !j.inScope path then w
  else match w.cursor.advance path with
    | .error r => { w with ended := some (.error r) }
    | .ok cursor =>
      match node with
      | .dir children fault => Walk.visitDir j { w with cursor } parentExcluded path children fault
      | .file _ | .symlink => Walk.visitFile j { w with cursor } parentExcluded path
      | .special => { w with cursor }

/-- One turn of the loop. -/
def Walk.turn : Walk :=
  match w.stack with
  | [] => { w with ended := some (.ok none) }
  | frame :: stack =>
    let w := { w with turns := w.turns + 1 }
    if j.late w.turns then { w with ended := some (.ok (some (.timeout j.limit))) }
    else match frame.children with
      | [] => { w with stack, rules := w.rules.take frame.rulesFrom, held := w.held - frame.held }
      | (key, node) :: children =>
        Walk.visit j { w with stack := { frame with children } :: stack } frame.excluded
          (frame.path ++ key) node

def Walk.step : Option Walk :=
  if w.ended.isSome then none else some (w.turn j)

/-! ### The whole walk -/

/-- What is left to be done in a directory. -/
def Frame.weight (f : Frame) : ℕ := 1 + (f.children.map fun c => c.2.size).sum

/-- What is left to be done: every turn does some of it. -/
def Walk.weight : ℕ :=
  if w.ended.isSome then 0 else 1 + (w.stack.map Frame.weight).sum

/-- The folded paths of the index, and the bytes they hold. -/
structure Folded where
  held : ℕ
  paths : List Bytes
  gitlinks : List Bytes

def maxFoldedIndexBytes : ℕ := 8 <<< 20

def foldedPathOverhead : ℕ := 24 + 32

/-- Insertion in a sorted set. -/
def insertPath (p : Bytes) : List Bytes → List Bytes
  | [] => [p]
  | q :: ps =>
    match cmpPaths p q with
    | .lt => p :: q :: ps
    | .eq => q :: ps
    | .gt => q :: insertPath p ps

def rememberFoldedPath (f : Folded) (e : Entry) : Except Refusal Folded :=
  let folded := foldAscii e.path
  let isGitlink := e.mode = modeGitlink
  let size := folded.length + foldedPathOverhead
  let cost := size + if isGitlink then size else 0
  if maxFoldedIndexBytes < f.held + cost then
    .error (.unsupported s!"case-folded index paths exceed {maxFoldedIndexBytes} bytes")
  else .ok {
    held := f.held + cost
    paths := insertPath folded f.paths
    gitlinks := if isGitlink then insertPath folded f.gitlinks else f.gitlinks }

/-- The folded paths of the whole index, where the file system does not tell case apart. -/
def foldIndex : Except Refusal Folded :=
  if !j.repo.ignoreCase then .ok ⟨0, [], []⟩
  else do
    let folded ← j.ix.entries.foldlM rememberFoldedPath ⟨0, [], []⟩
    match j.ix.fault with
    | some r => .error r
    | none => .ok folded

/-- The files that apply everywhere: `core.excludesFile`, then `info/exclude`. -/
def baseFiles : List (Bytes × Option Content) :=
  j.repo.excludesFile.toList ++
    [(joinPath j.repo.commonDir (ascii "info/exclude"), j.repo.infoExclude)]

def baseRules : Except Reason (List Rule) :=
  (baseFiles j).foldlM (fun rules f => loadRules j.repo.ignoreCase f.1 f.2 [] rules) []

/-- The cursor before its first move. -/
def Job.cursor (folded : Folded) : Cursor where
  entries := j.ix.entries
  fault := j.ix.fault
  cur := none
  gitlinks := []
  foldedPaths := folded.paths
  foldedGitlinks := folded.gitlinks
  started := false
  ignoreCase := j.repo.ignoreCase

/-- The walk before its first turn: it has ended where a file that applies everywhere or the top
directory could not be read. -/
def Walk.start (folded : Folded) : Walk :=
  let w : Walk := ⟨[], [], 0, j.cursor folded, [], 0, none⟩
  match baseRules j with
  | .error why => { w with ended := some (.ok (some why)) }
  | .ok rules => Walk.descend j { w with rules } [] j.children j.fault false

/-- What the caller is handed, and the result: a refusal, or the reason the walk did not finish. -/
structure Outcome where
  listed : List StatusEntry
  result : Except Refusal (Option Reason)

/-- Walk the worktree and hand each untracked path, and each ignored directory where the job asks
for them, to the caller. -/
def untracked : Outcome :=
  match foldIndex j with
  | .error r => ⟨[], .error r⟩
  | .ok folded =>
    let w := Walk.start j folded
    let w := Machine.runFor (Walk.step j) w.weight w
    ⟨w.listed, w.ended.getD (.ok none)⟩

end Git
