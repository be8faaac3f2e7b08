import Mathlib.Algebra.Order.Ring.Nat
import XMustard.Kernel.Context
import XMustard.Lists.Chunks

/-!
# Invalidation of memories by changed files

A change to the repository is looked up in the anchor index. Anchors with a baseline are hashed
again and those that drifted are collected by entry; quoted code is found again and followed to its
new lines, or its entry is marked at once. Then the collected anchors are marked, entry by entry.
-/

namespace WorkspaceOps

open GovStore Lists

/-! ### The working tree -/

/-- Where the code of a snippet is found. -/
inductive Location
  | notFound
  /-- The match is ambiguous or the file cannot be read. -/
  | unknown
  | lines (start stop : Int)

/-- What a pass finds in the working tree, and how it reads paths and quoted code. -/
structure Tree where
  hasRoot : Bool
  headSha : String
  branch : String
  /-- A path confined to the root. -/
  confine : String → Option String
  hashFile : String → Option String
  /-- The state of the declaration that a symbol anchor names, if it is known. -/
  hashSymbol : Anchor → Option (BaselineState × String)
  /-- The quoted blocks of a content in order, each with its digest. -/
  snippets : String → List (String × String)
  /-- Where a snippet is that was on these lines of a file. -/
  locate : String → List Char × Int × Int → Location

variable (tree : Tree)

def maxInvalidationPaths : Nat := 500

def maxInvalidationAnchors : Nat := 4000

def maxAnchorRows : Nat := 5000

def maxInArgs : Nat := 400

def changedAnchorPaths (changed : List String) : List String :=
  (((cleanPaths changed).filterMap tree.confine).eraseDups).take maxInvalidationPaths

/-! ### The anchors in the changed files -/

/-- The file of a symbol id or of a place in code, before its number sign. -/
def beforeSign (s : String) : String :=
  match GovStore.cut ['#'] s.toList with
  | some (file, _) => String.ofList file
  | none => ""

def inFiles (paths : List String) (x : Anchor) : Bool :=
  match x.kind with
  | .path => x.value ∈ paths
  | .symbol => beforeSign x.symbolUid ∈ paths
  | .code => beforeSign x.value ∈ paths
  | _ => false

/-- The entry is promoted, active and not expired. -/
def isServed (now : Time) (workspaceId : String) (e : Entry) : Bool :=
  e.workspaceId = workspaceId ∧ e.promoted ∧ e.lifecycle = .active
    ∧ ∀ t ∈ e.expiresAt, now < t

/-- The anchors of served entries that lie in one chunk of the paths. -/
def anchorsInChunk (db : Db) (now : Time) (workspaceId : String) (chunk : List String) :
    List Anchor :=
  ((db.entries.filter (isServed now workspaceId)).insertionSort fun e f => e.pk ≤ f.pk).flatMap
    fun e => ((db.anchorsOf e.id).filter (inFiles chunk)).insertionSort fun x y =>
      x.ordinal ≤ y.ordinal

def anchorsInPaths (db : Db) (now : Time) (workspaceId : String) (paths : List String)
    (limit : Nat) :
    Except Err (List Anchor) :=
  let limit := min (max limit 1) maxAnchorRows
  if idOk workspaceId then
    .ok ((batches maxInArgs paths).foldl
      (fun out chunk =>
        out ++ (anchorsInChunk db now workspaceId chunk).take (limit - out.length)) [])
  else .error (invalid "%s id %q")

/-! ### Anchors with a baseline -/

/-- What an anchor hashes to now, if it is known. -/
def current (x : Anchor) : Option (BaselineState × String) :=
  match x.kind with
  | .path =>
    match tree.hashFile x.value with
    | some hash => some (.hash, hash)
    | none => some (.missing, "")
  | .symbol => tree.hashSymbol x
  | _ => none

/-- The anchor is of a kind that is hashed, has a baseline and is not stale yet. -/
def isChecked (x : Anchor) : Bool :=
  (x.kind = .path ∨ x.kind = .symbol) ∧ x.baselineState ≠ .none ∧ x.staleSince = none

def isDrifted (x : Anchor) : Bool :=
  match current tree x with
  | some (state, hash) => state ≠ x.baselineState ∨ hash ≠ x.baselineHash
  | none => false

variable (anchors : List Anchor)

/-- The anchors that drifted, in order. -/
def drifted : List Anchor := anchors.filter fun x => isChecked x && isDrifted tree x

def refsOf (id : String) (anchors : List Anchor) : List (AnchorKind × String) :=
  (anchors.filter fun x => x.entryId = id).map fun x => (x.kind, x.value)

/-! ### Quoted code -/

def codeAnchorValue (path : List Char) (start stop : Int) : String :=
  String.ofList path ++ "#L" ++ toString start ++ "-L" ++ toString stop

/-- What one entry's quotes come to. -/
structure CodeMoveEntry where
  entry : String
  moves : List CodeMove
  gone : List (AnchorKind × String)

/-- The quoted-code anchors with the snippets they placed; a later block has its digest. -/
def codeSites (content : String) (anchors : List Anchor) : List (Anchor × String) :=
  anchors.filterMap fun x =>
    if x.symbolUid = "" then none
    else ((tree.snippets content).reverse.lookup x.symbolUid).map fun snippet => (x, snippet)

/-- What became of one quote. -/
inductive SiteOutcome
  | kept | moved (target : String) | gone

variable (site : Anchor × String)

def reanchorSite : SiteOutcome :=
  match parseCodeAnchorValue site.1.value with
  | none => .kept
  | some place =>
    match tree.locate site.2 place with
    | .notFound => .gone
    | .unknown => .kept
    | .lines start stop =>
      if start = place.2.1 ∧ stop = place.2.2 then .kept
      else .moved (codeAnchorValue place.1 start stop)

def moveOf : Option CodeMove :=
  match reanchorSite tree site with
  | .moved target => some ⟨site.1.symbolUid, site.1.value, target⟩
  | _ => none

def goneOf : Option (AnchorKind × String) :=
  match reanchorSite tree site with
  | .gone => some (.code, site.1.value)
  | _ => none

def planQuotes (id : String) (sites : List (Anchor × String)) : CodeMoveEntry :=
  ⟨id, sites.filterMap (moveOf tree), sites.filterMap (goneOf tree)⟩

variable (hashing : Hashing)

/-- The served content of an entry, unless it is withheld. -/
def servedContent (db : Db) (id : String) : Option String := do
  let e ← db.entry id
  let revision ← db.revisionRow id e.revision
  let content ← revision.content
  if hashing.digest content = e.contentDigest then some content else none

/-- Sorted without repetition, as the keys of a map are visited. -/
def sortedKeys (ids : List String) : List String := ids.eraseDups.insertionSort fun p q => p ≤ q

def invalidator : String := "xmustard-invalidation"

def invalidationActor : Actor :=
  { principal := invalidator, owner := invalidator, kind := "system", headSha := tree.headSha,
    branch := tree.branch }

/-- Follow and mark the quotes of the entries in order: how many moved, and the entries marked. -/
def writeCodeMoves (env : Env) : List CodeMoveEntry → Tx (Nat × List String)
  | [] => return (0, [])
  | e :: done => do
    Program.when (e.moves ≠ [])
      (reanchorCode env e.entry e.moves tree.headSha (invalidationActor tree))
    if e.gone = [] then
      let rest ← writeCodeMoves env done
      return (e.moves.length + rest.1, rest.2)
    let n ← markStale env e.entry e.gone tree.headSha (invalidationActor tree)
    let rest ← writeCodeMoves env done
    return (e.moves.length + rest.1, if n > 0 then e.entry :: rest.2 else rest.2)

/-- What the pass over quoted code did. -/
structure CodePass where
  moved : Nat := 0
  marked : List String := []
  unknown : Nat := 0
  error : Option Err := none
  db : Db

def quotesOf : List Anchor :=
  anchors.filter fun x => x.kind = .code ∧ x.staleSince = none

/-- The entries with quoted code whose content can be read, with the sites of their quotes. -/
def quoteSites (db : Db) (anchors : List Anchor) :
    List (String × List (Anchor × String)) :=
  (sortedKeys ((quotesOf anchors).map (·.entryId))).filterMap fun id =>
    (servedContent hashing db id).map fun content =>
      (id, codeSites tree content ((quotesOf anchors).filter fun x => x.entryId = id))

/-- The entries with quoted code that moved or is gone. -/
def quoteChanges (db : Db) (anchors : List Anchor) : List CodeMoveEntry :=
  ((quoteSites tree hashing db anchors).map fun r => planQuotes tree r.1 r.2).filter
    fun e => e.moves ≠ [] ∨ e.gone ≠ []

variable (env : Env)

/-- Follow or mark the quoted code among the anchors. -/
def reanchorQuotes (db : Db) (anchors : List Anchor) : CodePass :=
  let known := ((quoteSites tree env.toHashing db anchors).map fun r => r.2.length).sum
  let unknown := (quotesOf anchors).length - known
  let done := quoteChanges tree env.toHashing db anchors
  if done = [] then { unknown := unknown, db := db }
  else
    match db.update (writeCodeMoves tree env done) with
    | (.ok (moved, marked), db') =>
        { moved := moved, marked := marked, unknown := unknown, db := db' }
    | (.error err, db') => { unknown := unknown, error := some err, db := db' }

/-! ### The pass -/

structure InvalidationReport where
  paths : Nat := 0
  checked : Nat := 0
  reanchored : Nat := 0
  unknown : Nat := 0
  marked : List String := []
  truncated : Bool := false

/-- The report of a pass or its error, and the store afterwards. -/
structure Invalidation where
  result : Except Err InvalidationReport
  db : Db

/-- Mark the collected anchors entry by entry: the entries newly marked. -/
def markHits (env : Env) (hit : String → List (AnchorKind × String)) :
    List String → Tx (List String)
  | [] => return []
  | id :: ids => do
    let n ← markStale env id (hit id) tree.headSha (invalidationActor tree)
    let rest ← markHits env hit ids
    return if n > 0 then id :: rest else rest

/-- The refs to mark by entry. An entry that the pass over quoted code marked has none left. -/
def hitsAfter (marked : List String) (id : String) : List (AnchorKind × String) :=
  if id ∈ marked then [] else refsOf id (drifted tree anchors)

/-- Mark what drifted among the anchors, after the pass over quoted code. -/
def invalidateAnchors (db : Db) (report : InvalidationReport) (anchors : List Anchor) :
    Invalidation :=
  let code := reanchorQuotes tree env db anchors
  let report := { report with
    checked := anchors.countP isChecked, reanchored := code.moved, unknown := code.unknown }
  let ids := sortedKeys ((drifted tree anchors).map (·.entryId) ++ code.marked)
  if ids = [] then
    match code.error with
    | some err => ⟨.error err, code.db⟩
    | none => ⟨.ok report, code.db⟩
  else
    match code.db.update (markHits tree env (hitsAfter tree anchors code.marked) ids),
      code.error with
    | (.error err, db'), _ => ⟨.error err, db'⟩
    | (.ok _, db'), some err => ⟨.error err, db'⟩
    | (.ok marked, db'), none =>
      ⟨.ok { report with marked := sortedKeys (marked ++ code.marked) }, db'⟩

/-- The anchors that a pass examines. -/
def examined (db : Db) (workspaceId : String) (changed : List String) :
    Except Err (List Anchor) :=
  let paths := changedAnchorPaths tree changed
  if paths = [] ∨ !tree.hasRoot then .ok []
  else anchorsInPaths db env.now workspaceId paths (maxInvalidationAnchors + 1)

/-- Look the changed paths up in the anchor index and mark the memories at risk. -/
def invalidateMemory (db : Db) (workspaceId : String) (changed : List String) :
    Invalidation :=
  match examined tree env db workspaceId changed with
  | .error err => ⟨.error err, db⟩
  | .ok anchors =>
    let report : InvalidationReport :=
      { paths := (changedAnchorPaths tree changed).length,
        truncated := anchors.length > maxInvalidationAnchors }
    invalidateAnchors tree env db report (anchors.take maxInvalidationAnchors)

end WorkspaceOps
