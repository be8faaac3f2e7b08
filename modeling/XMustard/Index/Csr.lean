import Mathlib.Data.List.MinMax
import XMustard.Bits.LittleEndian
import XMustard.Index.CodeGraph
import XMustard.Lists.Chunks
import XMustard.Program.Basic

/-! # The graph segment

A compact, immutable file derived from the index: sections of fixed-width records, among them
postings grouped by node, each an offset section and a row section. A segment is read from memory
or through one block cache of bounded size that all segments share. -/

namespace Index

namespace Csr

open Bits Lists List

/-- Sections, in file order. -/
inductive Sec
  | fileRows | pathOff | pathHeap | symRows | nameOff | nameHeap | namePostOff | namePost
  | fileSymOff | fileSyms | outOff | out | inOff | into | fileOutOff | fileOut | fileInOff | fileIn
  | nameDropOff | nameDrops | fileDropOff | fileDrops
deriving DecidableEq, Repr

/-- One grouped posting: its offsets and its records. -/
structure Adj where
  off : Sec
  recs : Sec

def OUT : Adj := ⟨.outOff, .out⟩

def IN : Adj := ⟨.inOff, .into⟩

/-! ## Fixed-width rows -/

/-- A fixed-width record of a section. -/
class Row (T : Type) where
  size : Nat
  decode : List UInt8 → T
  encode : T → List UInt8
  size_pos : 0 < size
  length_encode : ∀ r, (encode r).length = size
  decode_encode : ∀ r, decode (encode r) = r

variable (b : List UInt8)

def le32 (i : Nat) : UInt32 := UInt32.ofNat (ofLe ((b.drop i).take 4))

def le16 (i : Nat) : UInt16 := UInt16.ofNat (ofLe ((b.drop i).take 2))

lemma le32_append (pre post : List UInt8) (v : UInt32) :
    le32 (pre ++ (toLe 4 v.toNat ++ post)) pre.length = v := by
  have hv : v.toNat % 256 ^ 4 = v.toNat := Nat.mod_eq_of_lt v.toNat_lt
  rw [le32, drop_left, take_left' (length_toLe 4 _), ofLe_toLe, hv, UInt32.ofNat_toNat]

lemma le16_append (pre post : List UInt8) (v : UInt16) :
    le16 (pre ++ (toLe 2 v.toNat ++ post)) pre.length = v := by
  have hv : v.toNat % 256 ^ 2 = v.toNat := Nat.mod_eq_of_lt v.toNat_lt
  rw [le16, drop_left, take_left' (length_toLe 2 _), ofLe_toLe, hv, UInt16.ofNat_toNat]

instance : Row UInt32 where
  size := 4
  decode b := le32 b 0
  encode v := toLe 4 v.toNat
  size_pos := by decide
  length_encode v := length_toLe 4 v.toNat
  decode_encode v := by simpa using le32_append [] [] v

/-- One edge as seen from a node: the other end, the weight, and footer-table indexes of reason,
access, kind, layer and provenance; confidence is quantized. -/
structure Edge where
  node : UInt32
  weight : UInt16
  reason : UInt8
  access : UInt8
  kind : UInt8
  layer : UInt8
  provenance : UInt8
  confidence : UInt8
deriving DecidableEq, Repr

instance : Row Edge where
  size := 12
  decode b := ⟨le32 b 0, le16 b 4, b.getD 6 0, b.getD 7 0, b.getD 8 0, b.getD 9 0, b.getD 10 0,
    b.getD 11 0⟩
  encode e := toLe 4 e.node.toNat ++ (toLe 2 e.weight.toNat ++
    [e.reason, e.access, e.kind, e.layer, e.provenance, e.confidence])
  size_pos := by decide
  length_encode e := by simp
  decode_encode e := by
    have hnode := le32_append [] (toLe 2 e.weight.toNat ++
      [e.reason, e.access, e.kind, e.layer, e.provenance, e.confidence]) e.node
    have hweight := le16_append (toLe 4 e.node.toNat)
      [e.reason, e.access, e.kind, e.layer, e.provenance, e.confidence] e.weight
    rw [nil_append] at hnode
    rw [length_toLe] at hweight
    rw [length_nil] at hnode
    rw [hnode, hweight]
    rfl

/-! ## Storage and the block cache -/

/-- Block size of the cache. -/
def BLOCK : Nat := 16384

structure CacheEntry where
  data : List UInt8
  used : Nat

/-- Blocks of every file-backed segment, by segment and block number. -/
structure BlockCache where
  capBlocks : Nat
  map : List ((Nat × Nat) × CacheEntry)
  tick : Nat
  hits : Nat
  misses : Nat

namespace BlockCache

def new (capBytes : Nat) : BlockCache := ⟨max (capBytes / BLOCK) 4, [], 0, 0, 0⟩

/-- The block that was used the longest time ago. -/
def oldest (map : List ((Nat × Nat) × CacheEntry)) : Option (Nat × Nat) :=
  (map.argmin fun e => e.2.used).map (·.1)

/-- Make room for one more block when the cache is full. -/
def evict (cap : Nat) (map : List ((Nat × Nat) × CacheEntry)) : List ((Nat × Nat) × CacheEntry) :=
  if cap ≤ map.length then
    match oldest map with
    | some old => map.filter (·.1 ≠ old)
    | none => map
  else map

def insert (key : Nat × Nat) (e : CacheEntry) (map : List ((Nat × Nat) × CacheEntry)) :
    List ((Nat × Nat) × CacheEntry) :=
  (key, e) :: map.filter (·.1 ≠ key)

/-- The block, from the cache or by `load`. -/
def get (key : Nat × Nat) (load : Except String (List UInt8)) :
    Program BlockCache String (List UInt8) := fun c =>
  let used := c.tick
  let c := { c with tick := c.tick + 1 }
  match c.map.find? (·.1 = key) with
  | some e =>
    (.ok e.2.data, { c with
      map := insert key ⟨e.2.data, used⟩ c.map
      hits := c.hits + 1 })
  | none =>
    let c := { c with misses := c.misses + 1 }
    match load with
    | .error e => (.error e, c)
    | .ok data => (.ok data, { c with map := insert key ⟨data, used⟩ (evict c.capBlocks c.map) })

/-- Forget the blocks of a segment. -/
def purge (segment : Nat) (c : BlockCache) : BlockCache :=
  { c with map := c.map.filter (·.1.1 ≠ segment) }

end BlockCache

/-- Read `n` bytes at `off`. -/
def pread (file : List UInt8) (off n : Nat) : Except String (List UInt8) :=
  if n = 0 ∨ off + n ≤ file.length then .ok ((file.drop off).take n)
  else .error "failed to fill whole buffer"

/-- Where a segment's bytes live; a file has a number of its own. -/
inductive Bytes
  | mem (bytes : List UInt8)
  | file (file : List UInt8) (uid : Nat)

/-- Read `n` bytes at `pos` block by block through the cache. -/
def readBlocks (file : List UInt8) (uid : Nat) (pos n : Nat) :
    Program BlockCache String (List UInt8) :=
  if _hn : n = 0 then pure []
  else do
    let block := pos / BLOCK
    let start := block * BLOCK
    let data ← BlockCache.get (uid, block) (pread file start (min BLOCK (file.length - start)))
    let skip := pos - start
    let take := min (data.length - skip) n
    if _htake : take = 0 then throw "unexpected end of file"
    else
      let rest ← readBlocks file uid (pos + take) (n - take)
      return (data.drop skip).take take ++ rest
termination_by n
decreasing_by exact Nat.sub_lt (Nat.pos_of_ne_zero _hn) (Nat.pos_of_ne_zero _htake)

def Bytes.read (off n : Nat) : Bytes → Program BlockCache String (List UInt8)
  | .mem v =>
    if off + n ≤ v.length then pure ((v.drop off).take n) else throw "unexpected end of file"
  -- a range of a block or more is a scan: it is read straight
  | .file f uid =>
    if BLOCK ≤ n then Program.query fun _ => pread f off n else readBlocks f uid off n

/-! ## Reading -/

structure Segment where
  bytes : Bytes
  /-- Offset and length of each section. -/
  sections : Sec → Nat × Nat
  path : String

namespace Segment

def corrupt (s : Segment) (what : String) : String :=
  "graph segment " ++ s.path ++ " is corrupt: " ++ what

/-- `n` bytes at `i` within `sec`. -/
def readBytes (s : Segment) (sec : Sec) (i n : Nat) : Program BlockCache String (List UInt8) := do
  Program.ensure (i + n ≤ (s.sections sec).2) (s.corrupt "read past a section")
  tryCatch (s.bytes.read ((s.sections sec).1 + i) n) fun e => throw (s.path ++ ": " ++ e)

/-- Rows `first..first + n` of a section. -/
def rows (T : Type) [Row T] (s : Segment) (sec : Sec) (first n : Nat) :
    Program BlockCache String (List T) := do
  let raw ← s.readBytes sec (first * Row.size T) (n * Row.size T)
  return (chunksExact (Row.size T) raw).map Row.decode

/-- The start and length of entry `i` of an offsets section. -/
def span (s : Segment) (off : Sec) (i : Nat) : Program BlockCache String (Nat × Nat) := do
  let o ← s.rows UInt32 off i 2
  let o0 := o.getD 0 0
  let o1 := o.getD 1 0
  Program.ensure (o0 ≤ o1) (s.corrupt "offsets not monotonic")
  return (o0.toNat, o1.toNat - o0.toNat)

/-- The records of node `i` in one direction. -/
def neighbours (T : Type) [Row T] (s : Segment) (adj : Adj) (i : Nat) :
    Program BlockCache String (List T) := do
  let (start, n) ← s.span adj.off i
  s.rows T adj.recs start n

end Segment

/-! ## Writing -/

/-- Section writer: appends sections in any order and records each one's range. -/
structure SegWriter where
  out : List UInt8
  pos : Nat
  ranges : Sec → Nat × Nat

namespace SegWriter

def put (w : SegWriter) : SegWriter :=
  { w with out := w.out ++ b, pos := w.pos + b.length }

variable {T : Type} [Row T]

/-- Encode the records into a buffer, which is put out when it is full. -/
def streamLoop : List T → List UInt8 → SegWriter → List UInt8 × SegWriter
  | [], buf, w => (buf, w)
  | r :: rs, buf, w =>
    let buf := buf ++ Row.encode r
    if 65536 ≤ buf.length then streamLoop rs [] (w.put buf) else streamLoop rs buf w

/-- Write section `sec`; answers the record count, a machine word. -/
def stream (sec : Sec) (rs : List T) (w : SegWriter) : UInt32 × SegWriter :=
  let start := w.pos
  let (buf, w) := streamLoop rs [] w
  let w := w.put buf
  (UInt32.ofNat rs.length,
    { w with ranges := Function.update w.ranges sec (start, w.pos - start) })

/-- Count the records of each group, which arrive in ascending group order. -/
def tally (groups : Nat) : List (Nat × T) → Nat → List UInt32 → Except String (List UInt32)
  | [], _, counts => .ok counts
  | (group, _) :: items, last, counts =>
    if group < last ∨ groups ≤ group then
      .error s!"group {group} out of order (after {last}, of {groups})"
    else tally groups items group (counts.modify (group + 1) (· + 1))

/-- Each count and all before it. -/
def cumulate : UInt32 → List UInt32 → List UInt32
  | _, [] => []
  | acc, c :: cs => (acc + c) :: cumulate (acc + c) cs

/-- Write one grouped posting: the records go to one section and the offsets to another. -/
def grouped (adj : Adj) (groups : Nat) (items : List (Nat × T)) (w : SegWriter) :
    Except String (UInt32 × SegWriter) := do
  let counts ← tally groups items 0 (replicate (groups + 1) 0)
  let (n, w) := w.stream adj.recs (items.map (·.2))
  return (n, (w.stream adj.off (cumulate 0 counts)).2)

end SegWriter

/-! ## Every edge, forward and reverse -/

/-- Interns the strings of a closed set into footer-table indexes. -/
structure Table where
  names : List String := []

/-- The index of a string, which is new when the table does not have it. -/
def Table.id (t : Table) (s : String) : Except String (UInt8 × Table) :=
  if s ∈ t.names then .ok (UInt8.ofNat (t.names.idxOf s), t)
  else if 256 ≤ t.names.length then .error "more than 256 distinct values in a graph table"
  else .ok (UInt8.ofNat t.names.length, ⟨t.names ++ [s]⟩)

structure Tables where
  reasons : Table := {}
  accesses : Table := {}
  edgeKinds : Table := {}
  layers : Table := {}
  provs : Table := {}

/-- A row of the `edges` table. -/
structure EdgeRow where
  srcFile : Nat
  srcSymbol : Option Nat
  dstFile : Nat
  dstSymbol : Option Nat
  kind : String
  layer : String
  weight : Int
  confidence : Float
  provenance : String
  reason : String
  access : Option String

/-- The dense ids of the files and symbols that the segment covers. -/
structure Dense where
  files : Nat
  symbols : Nat
  file : Nat → Option Nat
  sym : Nat → Option Nat

variable (d : Dense)

/-- The graph node of an end of an edge: files first, symbols after them. -/
def Dense.node (file : Nat) (sym : Option Nat) : Option Nat :=
  match d.file file, sym with
  | none, _ => none
  | some f, none => some f
  | some _, some s => (d.sym s).map (d.files + ·)

def clampU32 (v : Nat) : Nat := min v (2 ^ 32 - 1)

def clampU16 (v : Int) : Nat := (max 0 (min v (2 ^ 16 - 1))).toNat

/-- The source end and the target end of an edge, or the other way round. -/
def edgeEnds (reverse : Bool) (e : EdgeRow) : Option (Nat × Nat × EdgeRow) := do
  let src ← d.node e.srcFile e.srcSymbol
  let dst ← d.node e.dstFile e.dstSymbol
  return if reverse then (dst, src, e) else (src, dst, e)

/-- Rows in (node, other node, kind, layer) order. -/
def edgeLe (a b : Nat × Nat × EdgeRow) : Bool :=
  if a.1 ≠ b.1 then a.1 < b.1
  else if a.2.1 ≠ b.2.1 then a.2.1 < b.2.1
  else if a.2.2.kind ≠ b.2.2.kind then a.2.2.kind < b.2.2.kind
  else a.2.2.layer ≤ b.2.2.layer

/-- One direction over every edge whose ends the segment covers. -/
def edgeQuery (reverse : Bool) (edges : List EdgeRow) : List (Nat × Nat × EdgeRow) :=
  (edges.filterMap (edgeEnds d reverse)).mergeSort edgeLe

/-- The record of a row; its strings are interned. -/
def edgeRecord (x : Nat × Nat × EdgeRow) (t : Tables) : Except String ((Nat × Edge) × Tables) := do
  let (reason, reasons) ← t.reasons.id x.2.2.reason
  let (access, accesses) ← t.accesses.id (x.2.2.access.getD "")
  let (kind, edgeKinds) ← t.edgeKinds.id x.2.2.kind
  let (layer, layers) ← t.layers.id x.2.2.layer
  let (provenance, provs) ← t.provs.id x.2.2.provenance
  return ((clampU32 x.1, {
      node := UInt32.ofNat (clampU32 x.2.1)
      weight := UInt16.ofNat (clampU16 x.2.2.weight)
      reason := reason
      access := access
      kind := kind
      layer := layer
      provenance := provenance
      confidence := quantizeConfidence x.2.2.confidence }),
    ⟨reasons, accesses, edgeKinds, layers, provs⟩)

def edgeRecords : List (Nat × Nat × EdgeRow) → Tables → Except String (List (Nat × Edge) × Tables)
  | [], t => .ok ([], t)
  | x :: xs, t => do
    let (r, t) ← edgeRecord x t
    let (rs, t) ← edgeRecords xs t
    return (r :: rs, t)

/-- What the two directions list: the forward items, the reverse items and the final tables. -/
def edgeItems (edges : List EdgeRow) :
    Except String (List (Nat × Edge) × List (Nat × Edge) × Tables) := do
  let (_, accesses) ← Table.id {} ""
  let (forward, t) ← edgeRecords (edgeQuery d false edges) { accesses := accesses }
  let (reverse, t) ← edgeRecords (edgeQuery d true edges) t
  return (forward, reverse, t)

def writeEdges (edges : List EdgeRow) (w : SegWriter) :
    Except String (UInt32 × Tables × SegWriter) := do
  let (forward, reverse, t) ← edgeItems d edges
  let nodes := (d.files + d.symbols) % 2 ^ 32
  let (there, w) ← w.grouped OUT nodes forward
  let (back, w) ← w.grouped IN nodes reverse
  if there ≠ back then
    throw s!"forward and reverse edge counts differ ({there} != {back})"
  else return (there, t, w)

end Csr

end Index
