import Mathlib.Data.Finset.Insert
import XMustard.Index.CodeGraph

/-! # Impact

The dependents or dependencies of a set of seed nodes, walked breadth-first over the edges the
query lets through and listed by depth, each tier in pages. -/

namespace Index

namespace Impacting

/-- Nodes one walk visits at most. -/
def MAX_VISITED : Nat := 50000

/-- Where a node sits, as ids: its file, its line (0 for a file node) and its name. -/
structure NodeKey where
  file : FileId
  line : Nat
  name : Option Nat
deriving DecidableEq, Repr

structure ImpactGraph extends CodeGraph where
  key : Node → Except String NodeKey

structure Query where
  direction : Direction
  maxDepth : Nat
  relations : Relations
  minConfidence : Float
  includeTests : Bool
  /-- Items per depth tier. -/
  limit : Nat
  /-- Items skipped per depth tier. -/
  offset : Nat
  summaryOnly : Bool

/-! ## The walk -/

/-- A node the walk reached. -/
structure Reached where
  node : Node
  key : NodeKey
  depth : Nat
  /-- The node it was reached from. -/
  parent : Node
  edge : Edge
  /-- Product of the edge confidences along the path. -/
  confidence : Float
  /-- Every hop scope-proven. -/
  inScope : Bool

/-- A walk and the loop's own variables: what was visited, how many nodes were seen, the next
level and how often the clock was read. -/
structure Walk where
  reached : List Reached := []
  testsExcluded : Nat := 0
  belowConfidence : Nat := 0
  truncated : Bool := false
  timedOut : Bool := false
  lexical : Bool := false
  resolved : Bool := false
  visited : Finset Node := ∅
  seenCount : Nat := 0
  next : List (Node × Float × Bool) := []
  ticks : Nat := 0

variable (g : ImpactGraph) (q : Query)

def noteLayer (file : FileId) (w : Walk) : Walk :=
  if g.resolved file then { w with resolved := true } else { w with lexical := true }

/-- Whether the query's layer and relation rules let a walk on `layer` follow the edge. -/
def follows (layer : String) (e : Edge) : Bool :=
  (g.labels e).layer = layer && q.relations.admits (Relations.ofKind (g.labels e).kind)

/-- The node of an edge is reached at `depth`. -/
def push (node : Node) (conf : Float) (inScope : Bool) (depth : Nat) (e : Edge) (key : NodeKey)
    (w : Walk) : Walk :=
  let w := noteLayer g key.file w
  let c := conf * confidenceOf e.confidence
  let s := inScope && (g.labels e).provenance = "scope"
  { w with
    reached := w.reached ++ [⟨e.node, key, depth, node, e, c, s⟩]
    next := w.next ++ [(e.node, c, s)] }

/-- Follow the edges of `node`. The walk is over when it has seen too much. -/
def followEdges (layer : String) (node : Node) (conf : Float) (inScope : Bool) (depth : Nat) :
    List Edge → Walk → Except String (Bool × Walk)
  | [], w => .ok (false, w)
  | e :: es, w =>
    if !follows g q layer e then followEdges layer node conf inScope depth es w
    else if e.confidence < quantizeConfidence q.minConfidence then
      followEdges layer node conf inScope depth es
        { w with belowConfidence := w.belowConfidence + 1 }
    else if e.node ∈ w.visited then followEdges layer node conf inScope depth es w
    else do
      let w := { w with visited := insert e.node w.visited }
      let key ← g.key e.node
      if !q.includeTests && g.isTest key.file then
        followEdges layer node conf inScope depth es
          { w with testsExcluded := w.testsExcluded + 1 }
      else
        let w := { w with seenCount := w.seenCount + 1 }
        if MAX_VISITED < w.seenCount then return (true, { w with truncated := true })
        else followEdges layer node conf inScope depth es (push g node conf inScope depth e key w)

/-- Follow the edges of every node of a level. The clock is read before each node; `late` says
which readings are past the query's timeout. -/
def followNodes (late : Nat → Bool) (depth : Nat) :
    List (Node × Float × Bool) → Walk → Except String (Bool × Walk)
  | [], w => .ok (false, w)
  | (node, conf, inScope) :: frontier, w =>
    if late w.ticks then .ok (true, { w with timedOut := true })
    else do
      let file ← g.fileOf node
      let es ← g.edges node q.direction
      match ← followEdges g q (g.layerFor file) node conf inScope depth es
        { w with ticks := w.ticks + 1 } with
      | (true, w) => return (true, w)
      | (false, w) => followNodes late depth frontier w

/-- The levels from `depth` on, `fuel` of them at most. -/
def levels (late : Nat → Bool) :
    Nat → Nat → List (Node × Float × Bool) → Walk → Except String Walk
  | 0, _, _, w => .ok w
  | fuel + 1, depth, frontier, w => do
    match ← followNodes g q late depth frontier { w with next := [] } with
    | (true, w) => return w
    | (false, w) => if w.next = [] then return w else levels late fuel (depth + 1) w.next w

/-- The seeds are visited and make up the first frontier. -/
def addSeeds : List Node → Walk → Except String Walk
  | [], w => .ok w
  | s :: seeds, w => do
    let file ← g.fileOf s
    let w := noteLayer g file { w with visited := insert s w.visited }
    addSeeds seeds { w with next := w.next ++ [(s, 1.0, true)] }

def walk (seeds : List Node) (late : Nat → Bool) : Except String Walk := do
  let w ← addSeeds g seeds {}
  levels g q late q.maxDepth 1 w.next { w with seenCount := seeds.length }

/-! ## The answer -/

/-- Depth-tier labels per direction; the last one covers every deeper tier. -/
def tierLabel (dir : Direction) (depth : Nat) : String :=
  let labels := match dir with
    | .upstream => ["WILL BREAK", "LIKELY AFFECTED", "MAY NEED TESTING"]
    | .downstream => ["DIRECT DEPENDENCY", "TRANSITIVE DEPENDENCY"]
  labels.getD (min (depth - 1) (labels.length - 1)) ""

/-- A node as the answer lists it. -/
structure Item where
  name : Option String
  kind : String
  path : String
  line : Option Nat
  edge : String
  confidence : Float
  provenance : String
  reason : String
  access : Option String
  /-- The node it was reached from. -/
  via : String

structure Tier where
  depth : Nat
  label : String
  total : Nat
  offset : Nat
  items : Option (List Item)
  nextOffset : Option Nat

/-- Display name of a node: `Container.name` for a member, the name, or none for a file. -/
def display (node : Node) : Except String (Option String × String × FileId) := do
  let file ← g.fileOf node
  match ← g.symbol node with
  | none => return (none, "File", file)
  | some s =>
    let up ← g.edges node .upstream
    let container ←
      match up.find? fun e => (g.labels e).kind = "HAS_METHOD" || (g.labels e).kind = "HAS_PROPERTY"
      with
      | none => pure none
      | some e => g.symbol e.node
    let name := match container with
      | some c => c.name ++ "." ++ s.name
      | none => s.name
    return (some name, s.kind, file)

def lineOf (node : Node) : Except String (Option Nat) := do
  let sym ← g.symbol node
  return sym.map (·.line)

def item (r : Reached) : Except String Item := do
  let (name, kind, file) ← display g r.node
  let (parentName, _, parentFile) ← display g r.parent
  let l := g.labels r.edge
  let line ← lineOf g r.node
  return {
    name := name
    kind := kind
    path := g.path file
    line := line
    edge := l.kind
    confidence := (r.confidence * 1000.0).round / 1000.0
    provenance := if r.inScope then "scope" else "lexical"
    reason := l.reason
    access := if l.access.isEmpty then none else some l.access
    via := parentName.getD (g.path parentFile) }

/-- A tier's row: a node's key and its place among the reached nodes. -/
abbrev Row := NodeKey × Nat

/-- No name comes before every name. -/
def nameLt : Option Nat → Option Nat → Bool
  | none, none => false
  | none, some _ => true
  | some _, none => false
  | some a, some b => a < b

/-- Rows in (file, line, name, place) order. -/
def rowLe (a b : Row) : Bool :=
  if a.1.file ≠ b.1.file then a.1.file < b.1.file
  else if a.1.line ≠ b.1.line then a.1.line < b.1.line
  else if a.1.name ≠ b.1.name then nameLt a.1.name b.1.name
  else a.2 ≤ b.2

/-- Add a row to the tier of its depth, making room for the tier. -/
def addRow (perDepth : List (List Row)) (x : Reached × Nat) : List (List Row) :=
  let perDepth := perDepth ++ List.replicate (x.1.depth - perDepth.length) []
  perDepth.modify (x.1.depth - 1) (· ++ [(x.1.key, x.2)])

variable (w : Walk)

def perDepth : List (List Row) := w.reached.zipIdx.foldl addRow []

/-- The item of the node reached in place `i`. -/
def itemAt (i : Nat) : Except String Item :=
  match w.reached[i]? with
  | some r => item g r
  | none => .error "index out of bounds"

/-- The items of a page, unless only a summary is asked for. -/
def pageItems (page : List Nat) : Except String (Option (List Item)) :=
  if q.summaryOnly then .ok none
  else do
    let items ← page.mapM (itemAt g w)
    return some items

/-- One tier's page. -/
def tier (d : Nat) (rows : List Row) : Except String Tier := do
  let rows := rows.mergeSort rowLe
  let page := ((rows.drop q.offset).take q.limit).map (·.2)
  let stop := q.offset + page.length
  let items ← pageItems g q w page
  return {
    depth := d + 1
    label := tierLabel q.direction (d + 1)
    total := rows.length
    offset := q.offset
    items := items
    nextOffset := if stop < rows.length then some stop else none }

def tiers : Except String (List Tier) :=
  (perDepth w).zipIdx.mapM fun x => tier g q w x.2 x.1

/-- What an answer says of the walk. -/
structure Impact where
  total : Nat
  byDepth : List Tier
  testsExcluded : Nat
  belowConfidence : Nat
  graph : String
  truncated : Bool
  /-- The walk hit its time budget. -/
  timedOut : Bool

def run (seeds : List Node) (late : Nat → Bool) : Except String Impact := do
  let w ← walk g q seeds late
  let byDepth ← tiers g q w
  return {
    total := w.reached.length
    byDepth := byDepth
    testsExcluded := w.testsExcluded
    belowConfidence := w.belowConfidence
    graph := match w.resolved, w.lexical with
      | true, true => "mixed"
      | true, false => "resolved"
      | false, true => "lexical"
      | false, false => "none"
    truncated := w.truncated
    timedOut := w.timedOut }

end Impacting

end Index
