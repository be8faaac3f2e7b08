import Mathlib.Data.Finset.Card
import XMustard.Index.CodeGraph

/-! # Shortest-path trace

Breadth-first downstream from the start nodes and, when that finds no path, upstream. Caps on the
edges followed per node, the nodes kept per level, the nodes visited and the depth cut a search
short, and the answer says which were hit. -/

namespace Index

namespace Tracing

def FANOUT : Nat := 200

def LEVEL_ROWS : Nat := 5000

def VISITED : Nat := 50000

structure TraceQuery where
  source : String
  target : String
  maxDepth : Nat
  relations : Relations
  minConfidence : Float
  includeTests : Bool

/-- One end of a hop. -/
structure End where
  name : Option String
  kind : String
  path : String
  line : Option Nat

structure Hop where
  source : End
  target : End
  edge : String
  confidence : Float
  provenance : String
  reason : String
  access : Option String

structure Furthest where
  point : End
  depth : Nat

/-- Which caps a search hit; `fanout` counts the nodes whose edges were cut. -/
structure CapHits where
  fanout : Nat := 0
  rowsPerLevel : Bool := false
  visited : Bool := false
  depth : Bool := false
deriving DecidableEq

def CapHits.any (c : CapHits) : Bool := 0 < c.fanout || c.rowsPerLevel || c.visited || c.depth

/-- The caps either of two searches hit. -/
def CapHits.merge (c other : CapHits) : CapHits :=
  { fanout := c.fanout + other.fanout
    rowsPerLevel := c.rowsPerLevel || other.rowsPerLevel
    visited := c.visited || other.visited
    depth := c.depth || other.depth }

structure Caps where
  maxDepth : Nat
  fanout : Nat
  rowsPerLevel : Nat
  visited : Nat

structure Trace where
  source : String
  target : String
  found : Bool := false
  length : Nat := 0
  path : List String := []
  direction : Option Direction := none
  hops : List Hop := []
  furthest : Option Furthest := none
  truncated : Bool := false
  capsHit : CapHits := {}
  caps : Caps
  fromTargets : Nat
  toTargets : Nat

/-! ## One search -/

/-- A search and the loop's own variables: what was seen, the next level and the edges followed
of the current node. -/
structure Search where
  hit : Option Node := none
  parent : Node → Option (Node × Edge) := fun _ => none
  furthest : Option (Node × Nat) := none
  caps : CapHits := {}
  seen : Finset Node := ∅
  next : List Node := []
  followed : Nat := 0

variable (g : CodeGraph) (q : TraceQuery) (dir : Direction)

/-- Whether the query lets a walk on `layer` follow the edge. -/
def admits (layer : String) (e : Edge) : Except String Bool := do
  let l := g.labels e
  if l.layer ≠ layer || !q.relations.admits (Relations.ofKind l.kind)
      || e.confidence < quantizeConfidence q.minConfidence then
    return false
  else if q.includeTests then return true
  else
    let file ← g.fileOf e.node
    return !g.isTest file

/-- The node of an edge is new: record it. The search is over when it is an end node or too much
has been visited. -/
def visit (ends : Finset Node) (node : Node) (depth : Nat) (e : Edge) (s : Search) :
    Bool × Search :=
  let s := { s with
    seen := insert e.node s.seen
    parent := Function.update s.parent e.node (some (node, e)) }
  if e.node ∈ ends then (true, { s with hit := some e.node })
  else
    let s := { s with
      furthest := match s.furthest with
        | none => some (e.node, depth)
        | some (n, d) => if d < depth then some (e.node, depth) else some (n, d) }
    if VISITED ≤ s.seen.card then (true, { s with caps.visited := true })
    else if s.next.length = LEVEL_ROWS then (false, { s with caps.rowsPerLevel := true })
    else (false, { s with next := s.next ++ [e.node] })

/-- Follow the edges of `node`, at most `FANOUT` admitted ones. -/
def followEdges (ends : Finset Node) (layer : String) (node : Node) (depth : Nat) :
    List Edge → Search → Except String (Bool × Search)
  | [], s => .ok (false, s)
  | e :: es, s => do
    if ← admits g q layer e then
      if s.followed = FANOUT then return (false, { s with caps.fanout := s.caps.fanout + 1 })
      else
        let s := { s with followed := s.followed + 1 }
        if e.node ∈ s.seen then followEdges ends layer node depth es s
        else
          match visit ends node depth e s with
          | (true, s) => return (true, s)
          | (false, s) => followEdges ends layer node depth es s
    else followEdges ends layer node depth es s

/-- Follow the edges of every node of a level. -/
def followNodes (ends : Finset Node) (depth : Nat) :
    List Node → Search → Except String (Bool × Search)
  | [], s => .ok (false, s)
  | node :: frontier, s => do
    let file ← g.fileOf node
    let es ← g.edges node dir
    match ← followEdges g q ends (g.layerFor file) node depth es { s with followed := 0 } with
    | (true, s) => return (true, s)
    | (false, s) => followNodes ends depth frontier s

/-- The levels from `depth` on, `fuel` of them at most. -/
def levels (ends : Finset Node) : Nat → Nat → List Node → Search → Except String Search
  | 0, _, _, s => .ok { s with caps.depth := true }
  | fuel + 1, depth, frontier, s => do
    match ← followNodes g q dir ends depth frontier { s with next := [] } with
    | (true, s) => return s
    | (false, s) => if s.next = [] then return s else levels ends fuel (depth + 1) s.next s

def search (starts : List Node) (ends : Finset Node) : Except String Search :=
  let s : Search := { hit := starts.find? (· ∈ ends) }
  if s.hit.isSome then .ok s
  else levels g q dir ends q.maxDepth 1 starts { s with seen := starts.toFinset }

/-! ## The answer -/

def endOf (node : Node) : Except String End := do
  let file ← g.fileOf node
  let sym ← g.symbol node
  return {
    name := sym.map (·.name)
    kind := (sym.map (·.kind)).getD "File"
    path := g.path file
    line := sym.map (·.line) }

/-- From `x` along the parents, while there is one: the edge taken and the parent. The depth of
the search bounds the length. -/
def backEdges (parent : Node → Option (Node × Edge)) : Nat → Node → List (Node × Edge)
  | 0, _ => []
  | fuel + 1, x =>
    match parent x with
    | none => []
    | some (p, e) => (p, e) :: backEdges parent fuel p

def hopOf (u w : Node) (e : Edge) : Except String Hop := do
  let l := g.labels e
  let source ← endOf g u
  let target ← endOf g w
  return {
    source := source
    target := target
    edge := l.kind
    confidence := (confidenceOf e.confidence * 1000.0).round / 1000.0
    provenance := l.provenance
    reason := l.reason
    access := if l.access.isEmpty then none else some l.access }

/-- The files along the path, consecutive repeats collapsed. -/
def filesOf : List Node → List String → Except String (List String)
  | [], out => .ok out
  | n :: chain, out => do
    let file ← g.fileOf n
    let p := g.path file
    filesOf chain (if out.getLast? ≠ some p then out ++ [p] else out)

/-- The answer for a path found in `dir`. -/
def answer (out : Trace) (s : Search) (hit : Node) : Except String Trace := do
  let back := backEdges s.parent q.maxDepth hit
  let chain := (hit :: back.map (·.1)).reverse
  let edges := (back.map (·.2)).reverse
  let hops ← ((chain.zip chain.tail).zip edges).mapM fun x => hopOf g x.1.1 x.1.2 x.2
  let path ← filesOf g chain []
  return { out with
    found := true
    length := hops.length
    direction := some dir
    capsHit := s.caps
    hops := hops
    path := path }

/-- The furthest node of the downstream search, as the answer names it. -/
def furthestOf : Option (Node × Nat) → Except String (Option Furthest)
  | none => .ok none
  | some (n, depth) => do
    let point ← endOf g n
    return some { point := point, depth := depth }

def run (starts : List Node) (ends : Finset Node) : Except String Trace := do
  let out : Trace := {
    source := q.source
    target := q.target
    caps := ⟨q.maxDepth, FANOUT, LEVEL_ROWS, VISITED⟩
    fromTargets := starts.length
    toTargets := ends.card }
  if starts = [] ∨ ends = ∅ then return out
  else
    let down ← search g q .downstream starts ends
    match down.hit with
    | some hit => answer g q .downstream out down hit
    | none =>
      let up ← search g q .upstream starts ends
      -- the answer names the caps of every search that ran
      let up := { up with caps := down.caps.merge up.caps }
      match up.hit with
      | some hit => answer g q .upstream out up hit
      | none =>
        let furthest ← furthestOf g down.furthest
        return { out with
          capsHit := up.caps
          truncated := up.caps.any
          furthest := furthest }

end Tracing

end Index
