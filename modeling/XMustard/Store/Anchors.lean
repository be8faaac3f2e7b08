import XMustard.Store.Events

/-!
# Anchors, baselines and drift

Anchors tie an entry to places in the code. A baseline is the state an anchor was verified
against, captured at promotion; drift marks the anchors whose code has changed since.
-/

namespace GovStore

open Table Text Program

variable (env : Env)

/-- An anchor to insert. `none` as kind is a text that names no anchor kind. -/
structure AnchorInput where
  kind : Option AnchorKind
  value : String
  symbolUid : String := ""
  extracted : Bool := false

/-- Trim, strip a leading "./", drop empties and repetitions. -/
def cleanPath (p : String) : String :=
  match (trimSpace p).toList with
  | '.' :: '/' :: rest => String.ofList rest
  | l => String.ofList l

def cleanPaths (paths : List String) : List String :=
  ((paths.map cleanPath).filter (· ≠ "")).eraseDups

/-- The anchor kind of a well-formed anchor input. -/
def validateAnchor (a : AnchorInput) : Tx AnchorKind :=
  match a.kind with
  | none => throw (invalid "anchor kind %q")
  | some kind => do
    ensure (a.value ≠ "" ∧ a.value.utf8ByteSize ≤ maxPathLen ∧ !hasNul a.value)
      (invalid "anchor value %q")
    return kind

variable (id : String)

/-- An anchor row as the insert creates it, without a baseline. -/
def newAnchor (ordinal : Int) (kind : AnchorKind) (a : AnchorInput) : Anchor where
  entryId := id
  subjectKind := .memory
  ordinal := ordinal
  kind := kind
  value := a.value
  declared := !a.extracted
  symbolUid := a.symbolUid
  baselineState := .none
  baselineHash := ""
  baselineKind := ""
  baselineCommit := ""
  baselineAt := none
  staleSince := none
  staleCommit := ""

/-- Insert the anchors in order, skipping those already inserted, and return their values. -/
def insertAnchorsFrom (id : String) (seen : List (AnchorKind × String)) :
    List AnchorInput → Tx (List String)
  | [] => return seen.reverse.map (·.2)
  | a :: rest => do
    let kind ← validateAnchor a
    if (kind, a.value) ∈ seen then
      insertAnchorsFrom id seen rest
    else
      execDb (Db.insertAnchor (newAnchor id seen.length kind a))
      insertAnchorsFrom id ((kind, a.value) :: seen) rest

/-- Insert path anchors and then the others, and return their text for the search index. -/
def insertAnchors (paths : List String) (anchors : List AnchorInput) : Tx String := do
  let values ← insertAnchorsFrom id []
    ((cleanPaths paths).map (fun p => { kind := some .path, value := p }) ++ anchors)
  return " ".intercalate values

/-- Drop the baselines and stale marks of an entry's anchors. -/
def clearBaseline (a : Anchor) : Anchor :=
  { a with baselineState := .none, baselineHash := "", baselineKind := "", baselineCommit := "",
           baselineAt := none, staleSince := none, staleCommit := "" }

def clearBaselines : Tx Unit :=
  writeDb fun db => { db with anchors := update (fun a => a.entryId = id) clearBaseline db.anchors }

def replaceAnchors (paths : List String) (anchors : List AnchorInput) (a : Actor) :
    Tx Unit := do
  a.validate
  let e ← liveEntry id
  writeDb fun db => { db with anchors := delete (fun x => x.entryId = id) db.anchors }
  let _ ← insertAnchors id paths anchors
  refreshFts id
  appendEvent env a
    { workspaceId := e.workspaceId, entryId := id, type := .anchors, revision := e.revision,
      data := some [("paths", .int (cleanPaths paths).length), ("anchors", .int anchors.length)] }

/-- The verified-against state of one anchor. -/
structure Baseline where
  kind : Option AnchorKind
  value : String
  state : Option BaselineState
  hash : String
  baselineKind : String

/-- A baseline is a hash, or says that the file was missing. -/
def validateBaseline (b : Baseline) : Tx BaselineState :=
  match b.state with
  | some .hash => do
    ensure (b.hash ≠ "") (invalid "baseline for %s %q needs state hash (with a hash) or missing")
    return .hash
  | some .missing => do
    ensure (b.hash = "") (invalid "baseline for %s %q needs state hash (with a hash) or missing")
    return .missing
  | _ => throw (invalid "baseline for %s %q needs state hash (with a hash) or missing")

/-- Record one baseline; the result says whether an anchor was added for it. -/
def setBaseline (id commit : String) (time : Time) (b : Baseline) : Tx Bool := do
  let kind ← validateAnchor { kind := b.kind, value := b.value }
  let state ← validateBaseline b
  let mark (x : Anchor) : Anchor :=
    { x with baselineState := state, baselineHash := b.hash, baselineKind := b.baselineKind,
             baselineCommit := commit, baselineAt := some time, staleSince := none,
             staleCommit := "" }
  let known ← readDb fun db => (db.anchorsOf id).any fun x => x.kind = kind ∧ x.value = b.value
  if known then
    execDb (Db.updateAnchors id (fun x => x.kind = kind ∧ x.value = b.value) mark)
    return false
  let ordinal ← readDb (·.nextAnchorOrdinal id)
  let fresh := newAnchor id ordinal kind { kind := some kind, value := b.value, extracted := true }
  execDb (Db.insertAnchor (mark fresh))
  return true

/-- Record baselines in order; the result says whether any anchor was added. -/
def setBaselinesFrom (id commit : String) (time : Time) : Bool → List Baseline → Tx Bool
  | added, [] => return added
  | added, b :: rest => do
    let new ← setBaseline id commit time b
    setBaselinesFrom id commit time (added || new) rest

def setBaselinesOf (e : Entry) (baselines : List Baseline) (commit : String) (a : Actor) :
    Tx Unit := do
  if baselines = [] then
    return
  let added ← setBaselinesFrom e.id commit env.now false baselines
  when added (refreshFts e.id)
  appendEvent env a
    { workspaceId := e.workspaceId, entryId := e.id, type := .baseline, revision := e.revision,
      newDigest := e.contentDigest,
      data := some [("commit", .text commit), ("anchors", .int baselines.length)] }

def setBaselines (baselines : List Baseline) (commit : String) (a : Actor) :
    Tx Unit := do
  a.validate
  let e ← liveEntry id
  setBaselinesOf env e baselines commit a

/-! ### Drift -/

/-- Mark one anchor stale unless it is already; the result says whether it was marked. -/
def markAnchorStale (id commit : String) (ref : AnchorKind × String) : Tx Bool := do
  let fresh (x : Anchor) : Bool := x.kind = ref.1 ∧ x.value = ref.2 ∧ x.staleSince = none
  let hit ← readDb fun db => (db.anchorsOf id).any fresh
  execDb (Db.updateAnchors id fresh
    fun x => { x with staleSince := some env.now, staleCommit := commit })
  return hit

def markAnchorsStale (id commit : String) :
    List (AnchorKind × String) → Tx (List (AnchorKind × String))
  | [] => return []
  | ref :: rest => do
    let hit ← markAnchorStale env id commit ref
    let marked ← markAnchorsStale id commit rest
    return if hit then ref :: marked else marked

/-- The row of an entry whose anchors were found stale. -/
def Entry.drift (now : Time) (e : Entry) : Entry :=
  { e with needsReverify := true, staleSince := e.staleSince.or (some now) }

def markStale (refs : List (AnchorKind × String)) (commit : String) (a : Actor) :
    Tx Nat := do
  a.validate
  let e ← liveEntry id
  let fresh ← markAnchorsStale env id commit refs
  if fresh = [] then
    return 0
  execDb (Db.updateEntry false id (Entry.drift env.now))
  appendEvent env a
    { workspaceId := e.workspaceId, entryId := id, type := .staleObserved, revision := e.revision,
      oldDigest := e.contentDigest,
      data := some [("commit", .text commit), ("anchors", .anchors fresh)] }
  return fresh.length

/-- The row of an entry whose drift is cleared. -/
def Entry.settle (e : Entry) : Entry :=
  if e.needsReverify then { e with needsReverify := false, staleSince := none } else e

def clearDrift (a : Actor) : Tx Unit := do
  a.validate
  let e ← liveEntry id
  let stale ← readDb fun db => ((db.anchorsOf id).filter fun x => x.staleSince ≠ none).length
  execDb (Db.updateAnchors id (fun x => x.staleSince ≠ none)
    fun x => { x with staleSince := none, staleCommit := "" })
  execDb (Db.updateEntry false id Entry.settle)
  if stale = 0 ∧ !e.needsReverify then
    return
  appendEvent env a
    { workspaceId := e.workspaceId, entryId := id, type := .driftCleared, revision := e.revision,
      newDigest := e.contentDigest, data := some [("anchors", .int stale)] }

/-! ### Quoted code -/

/-- Split at the first occurrence of a separator. -/
def cut (sep : List Char) : List Char → Option (List Char × List Char)
  | [] => if sep = [] then some ([], []) else none
  | c :: cs =>
    if sep.isPrefixOf (c :: cs) then some ([], (c :: cs).drop sep.length)
    else (cut sep cs).map fun (before, after) => (c :: before, after)

def digits (l : List Char) : Option Int :=
  if l ≠ [] ∧ l.all Char.isDigit then some (Nat.ofDigitChars 10 l 0) else none

/-- A decimal number with an optional sign that fits in 64 bits. -/
def atoi (l : List Char) : Option Int :=
  (match l with
    | '+' :: l => digits l
    | '-' :: l => (digits l).map (- ·)
    | l => digits l).filter fun n => -9223372036854775808 ≤ n ∧ n ≤ 9223372036854775807

/-- Read a code anchor value "path#Lstart-Lend" back. -/
def parseCodeAnchorValue (value : String) : Option (List Char × Int × Int) := do
  let (path, rest) ← cut "#L".toList value.toList
  let (start, stop) ← cut "-L".toList rest
  let lo ← atoi start
  let hi ← atoi stop
  if path = [] ∨ lo < 1 ∨ hi < lo then none else some (path, lo, hi)

structure CodeMove where
  snippetId : String
  source : String
  target : String

def parseMoveEnd (value : String) : Tx (List Char × Int × Int) :=
  match parseCodeAnchorValue value with
  | some v => pure v
  | none => throw (invalid "code anchor value %q")

/-- Move one quoted-code anchor that still holds the lines the move names. -/
def reanchorOne (e : Entry) (commit : String) (a : Actor) (m : CodeMove) : Tx Unit := do
  let source ← parseMoveEnd m.source
  let target ← parseMoveEnd m.target
  ensure (source.1 = target.1 ∧ m.snippetId ≠ "" ∧ m.source ≠ m.target)
    (invalid "code anchor move %q to %q")
  let held (x : Anchor) : Bool :=
    x.kind = .code ∧ x.symbolUid = m.snippetId ∧ x.value = m.source ∧ x.staleSince = none
  let hit ← readDb fun db => (db.anchorsOf e.id).any held
  ensure hit (invalid "code anchor %q holds %q, not %q")
  execDb (Db.updateAnchors e.id held fun x => { x with value := m.target })
  appendEvent env a
    { workspaceId := e.workspaceId, entryId := e.id, type := .anchorReanchor,
      revision := e.revision,
      data := some [("commit", .text commit), ("from", .ints [source.2.1, source.2.2]),
        ("to", .ints [target.2.1, target.2.2])] }

def reanchorCode (moves : List CodeMove) (commit : String) (a : Actor) :
    Tx Unit := do
  a.validate
  let e ← liveEntry id
  each (reanchorOne env e commit a) moves
  if moves.length > 0 then
    refreshFts id

end GovStore
