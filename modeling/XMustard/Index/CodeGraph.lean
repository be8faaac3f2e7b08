import Mathlib.Data.List.Basic

/-! # The code graph that impact and trace walk

Nodes and files are numbered. Reading the graph can fail, and a walk then fails with it. -/

namespace Index

abbrev Node := Nat

abbrev FileId := Nat

inductive Direction
  | upstream
  | downstream
deriving DecidableEq, Repr

structure Edge where
  node : Node
  weight : Nat
  reason : Nat
  access : Nat
  kind : Nat
  layer : Nat
  provenance : Nat
  confidence : UInt8
deriving DecidableEq, Repr, Inhabited

/-- Table labels of an edge. -/
structure Labels where
  kind : String
  layer : String
  provenance : String
  reason : String
  access : String
deriving DecidableEq, Repr

/-- A symbol node's facts. -/
structure SymbolFacts where
  name : String
  kind : String
  line : Nat
deriving DecidableEq, Repr

/-- What the walks read of the index. -/
structure CodeGraph where
  path : FileId → String
  fileOf : Node → Except String FileId
  symbol : Node → Except String (Option SymbolFacts)
  edges : Node → Direction → Except String (List Edge)
  labels : Edge → Labels
  /-- Whether a file's code is walked on resolved symbol edges rather than lexical ones. -/
  resolved : FileId → Bool
  isTest : FileId → Bool

/-- The layer a node's own edges are walked on. -/
def CodeGraph.layerFor (g : CodeGraph) (file : FileId) : String :=
  if g.resolved file then "symbol" else "structure"

def RELATIONS : List String :=
  ["CALLS", "IMPORTS", "EXTENDS", "IMPLEMENTS", "USES", "ACCESSES", "HAS_METHOD", "HAS_PROPERTY"]

/-- The lexical edge kinds and the relation types each stands for. -/
def LEXICAL_RELATIONS : List (String × List String) :=
  [("imports", ["IMPORTS"]), ("inherits", ["EXTENDS", "IMPLEMENTS"]), ("calls", ["CALLS"]),
    ("references", ["USES"]), ("tests", ["CALLS"])]

/-- A set of relation types: bit `i` is `RELATIONS[i]`. -/
structure Relations where
  bits : Nat
deriving DecidableEq, Repr

def Relations.bit (name : String) : Option Nat :=
  (RELATIONS.idxOf? name).map fun i => 1 <<< i

/-- The relation types an edge of `kind` stands for (typed or lexical), as bits. -/
def Relations.ofKind (kind : String) : Nat :=
  (bit kind).getD
    (match LEXICAL_RELATIONS.find? (·.1 = kind) with
    | none => 0
    | some (_, rels) => (rels.filterMap bit).foldl (· ||| ·) 0)

def Relations.admits (r : Relations) (bits : Nat) : Bool := r.bits &&& bits ≠ 0

def quantizeConfidence (c : Float) : UInt8 :=
  let clamped := if c < 0.0 then 0.0 else if c > 1.0 then 1.0 else c
  (clamped * 255.0).round.toUInt8

/-- The confidence a quantized value stands for. -/
def confidenceOf (q : UInt8) : Float := (q.toNat.toFloat / 255.0 * 100.0).round / 100.0

end Index
