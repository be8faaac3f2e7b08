import XMustard.Evidence.Retention
import XMustard.Program.Basic

/-!
# The evidence store of a workspace

The directory of a workspace holds one subdirectory per retained original, with its bytes and its
metadata, and the store keeps the quota charge of these originals and the bytes of its open spools
in counters. Every operation that touches the counters holds the workspace lock, so an interleaving
of callers is a sequence of the critical sections below. Each file operation may fail; the outcome
is a parameter of the critical section it happens in.
-/

namespace Evidence

open Program

/-- A subdirectory of the workspace: its metadata file, if there is one, and whether it holds the
bytes. -/
structure Dir where
  key : String
  obs : Option Observation
  raw : Bool
  deriving DecidableEq

/-- A spool, from its creation on. `writing` counts the bytes that were admitted and are being
written. -/
structure Spool where
  n : Nat
  writing : Nat
  isOver : Bool
  quotaFull : Bool
  discarded : Bool
  cls : RetentionClass
  upstream : Bool
  refused : String
  deriving DecidableEq

/-- The files and the accounting of a workspace. -/
structure State where
  dirs : List Dir
  loaded : Bool
  used : Nat
  byClass : RetentionClass → Nat
  pending : Nat
  spools : List Spool

def State.empty : State := ⟨[], false, 0, fun _ => 0, 0, []⟩

inductive Err
  | missing | expired | denied | revoked | quotaFull (why : String) | tooLarge | corrupt
  | upstreamRef | invalidRange | cancelled | io
  deriving DecidableEq

abbrev Op (α : Type) := Program State Err α

def get : Op State := query .ok

/-! ### Files -/

/-- How the removal of a directory tree ended. A failed one may have removed part of it. -/
inductive Removal
  | done
  | failed (metaGone rawGone : Bool)
  deriving DecidableEq

/-- What a removal leaves of a directory. -/
def Removal.left (r : Removal) (d : Dir) : Option Dir :=
  match r with
  | .done => none
  | .failed metaGone rawGone =>
    some { d with obs := if metaGone then none else d.obs, raw := d.raw && !rawGone }

variable (key : String)

def removeAll (r : Removal) (dirs : List Dir) : List Dir :=
  dirs.filterMap fun d => if d.key = key then r.left d else some d

def State.find (s : State) (key : String) : Option Dir := s.dirs.find? fun d => d.key = key

def updateDir (f : Dir → Dir) (dirs : List Dir) : List Dir :=
  dirs.map fun d => if d.key = key then f d else d

/-! ### Counters -/

/-- Move the retained charge of a class, down to zero at the least. -/
def State.add (s : State) (c : RetentionClass) (n : Int) : State :=
  { s with used := (s.used + n).toNat
           byClass := fun d => if d = c then (s.byClass c + n).toNat else s.byClass d }

/-- The clock of a rescan and the outcome of its file operations: whether the directory was listed,
which metadata could not be read, and how the removal of expired originals ended. -/
structure Sweep where
  now : Time
  listed : Bool := true
  unreadable : String → Bool := fun _ => false
  removal : String → Removal := fun _ => .done

variable (w : Sweep)

/-- The observation of a directory, if a rescan looks at it. -/
def Sweep.seen (d : Dir) : Option Observation :=
  if w.unreadable d.key then none else d.obs.filter fun o => !o.revoked

/-- The originals that a rescan counts. -/
def Sweep.counted (dirs : List Dir) : List Observation :=
  dirs.filterMap fun d => (w.seen d).filter fun o => !o.expired w.now

/-- The directories after a rescan, which removes expired originals. -/
def Sweep.swept (dirs : List Dir) : List Dir :=
  dirs.filterMap fun d =>
    if (w.seen d).any (·.expired w.now) then (w.removal d.key).left d else some d

/-- The charge of the observations in `p`. -/
def chargeOf (p : Observation → Bool) (os : List Observation) : Nat :=
  ((os.filter p).map (·.charge)).sum

/-- The counters rebuilt from disk. -/
def State.rescan (s : State) (w : Sweep) : State :=
  { s with dirs := w.swept s.dirs, loaded := true
           used := chargeOf (fun _ => true) (w.counted s.dirs)
           byClass := fun c => chargeOf (fun o => o.retentionClass = c) (w.counted s.dirs) }

/-- The retained charge, rebuilt on first use or when `rescan` is set. -/
def retainedLocked (rescan : Bool) : Op Nat := do
  let s ← get
  if s.loaded && !rescan then
    return s.used
  ensure w.listed .io
  write fun s => s.rescan w
  let s ← get
  return s.used

/-- Check what is to be charged against the quotas, reclaiming expired originals before refusing.
`note` records the reason each time. -/
def makeRoom (refuse : State → Nat → String) (note : String → Op Unit) (w w' : Sweep) :
    Op Unit := do
  let used ← retainedLocked w false
  let s ← get
  note (refuse s used)
  when (refuse s used ≠ "") do
    let used ← retainedLocked w' true
    let s ← get
    note (refuse s used)
    ensure (refuse s used = "") (.quotaFull (refuse s used))

/-! ### Spools -/

/-- A spool takes one call at a time and none after it was discarded. -/
def Spool.ready (sp : Spool) : Bool := !sp.discarded && sp.writing = 0

/-- The spool a caller uses. -/
def spool (i : Nat) : Op Spool := query fun s =>
  match s.spools[i]? with
  | some sp => if sp.ready then .ok sp else .error .io
  | none => .error .io

def setSpool (i : Nat) (f : Spool → Spool) : Op Unit :=
  write fun s => { s with spools := s.spools.modify i f }

def newSpool (cls : RetentionClass) (upstream : Bool) : Op Unit :=
  write fun s =>
    { s with spools := s.spools ++ [⟨0, 0, false, false, false, cls, upstream, ""⟩] }

variable (l : Limits)

/-- Charge `n` spool bytes to the workspace. Bytes up to the projection target are never refused. -/
def admitPending (i n : Nat) (w w' : Sweep) : Op Unit := do
  let sp ← spool i
  when (sp.n + n > l.projectionTarget)
    (makeRoom (fun s used => l.refusal s.pending s.byClass sp.cls sp.upstream used sp.n n)
      (fun why => setSpool i fun sp => { sp with refused := why }) w w')
  write fun s => { s with pending := s.pending + n }

/-- The part of a spool write before the file is written. -/
def beginWrite (i n : Nat) (w w' : Sweep) : Op Unit := do
  let sp ← spool i
  if sp.isOver || sp.quotaFull then
    return
  if sp.n + n > l.maxOriginal then
    setSpool i fun sp => { sp with isOver := true }
  else
    try
      admitPending l i n w w'
      setSpool i fun sp => { sp with writing := n }
    catch _ =>
      setSpool i fun sp => { sp with quotaFull := true }

/-- The file was written: in full, or only the first bytes of it. -/
def endWrite (i : Nat) (short : Option Nat) : Op Unit :=
  setSpool i fun sp =>
    { sp with n := sp.n + (short.elim sp.writing fun k => min k sp.writing), writing := 0 }

def discard (i : Nat) : Op Unit := do
  let sp ← spool i
  setSpool i fun sp => { sp with discarded := true }
  write fun s => { s with pending := s.pending - sp.n }

/-! ### Capture -/

/-- What a capture asks for. A spool that was opened for a reference is captured with it. -/
structure CaptureRequest where
  actor : String
  cls : Option RetentionClass
  upstream : Bool
  deriving DecidableEq

/-- The outcomes of a capture's file operations: whether it got as far as the lock with something to
retain, the sync, the new directory, the rename of the spool file, the metadata file, and the
removal of the directory after one of the last two failed. -/
structure CaptureFiles where
  prepared : Bool := true
  cancelled : Bool := false
  synced : Bool := true
  made : Bool := true
  renamed : Bool := true
  written : Bool := true
  cleanup : Removal := .done
  deriving DecidableEq

/-- The observation of a captured spool. -/
def CaptureRequest.observation (req : CaptureRequest) (sp : Spool) (now : Time) : Observation :=
  let cls := req.cls.getD sp.cls
  { actor := req.actor, rawBytes := sp.n, expiresAt := now + l.ttl cls, retentionClass := cls,
    upstream := sp.upstream || req.upstream, revoked := false }

/-- Put the original in place: the bytes before the metadata that makes them readable. -/
def storeOriginal (obs : Observation) (files : CaptureFiles) : Op Unit := do
  ensure files.synced .io
  let s ← get
  ensure (files.made ∧ s.find key = none) .io
  write fun s => { s with dirs := s.dirs ++ [⟨key, none, false⟩] }
  if !obs.upstream && !files.renamed then
    write fun s => { s with dirs := removeAll key files.cleanup s.dirs }
    throw .io
  write fun s =>
    { s with dirs := updateDir key (fun d => { d with raw := !obs.upstream }) s.dirs }
  if !files.written then
    write fun s => { s with dirs := removeAll key files.cleanup s.dirs }
    throw .io
  write fun s =>
    { s with dirs := updateDir key (fun d => { d with obs := some obs }) s.dirs }

/-- Retain the spooled original under a fresh key, if it fits the quotas. -/
def capture (i : Nat) (key : String) (req : CaptureRequest) (now : Time) (w w' : Sweep)
    (files : CaptureFiles) : Op Unit := do
  let sp ← spool i
  ensure (!sp.isOver) .tooLarge
  ensure (!sp.quotaFull)
    (.quotaFull (if sp.refused = "" then "quota full" else sp.refused))
  ensure files.prepared .io
  let obs := req.observation l sp now
  -- the bytes of this spool are pending already
  let extra : Int := obs.charge - sp.n
  makeRoom (fun s used =>
      l.refusal s.pending s.byClass obs.retentionClass sp.upstream used sp.n extra)
    (fun _ => pure ()) w w'
  ensure (!files.cancelled) .cancelled
  storeOriginal key obs files
  write fun s =>
    let s := s.add obs.retentionClass obs.charge
    { s with pending := s.pending - sp.n }
  setSpool i fun sp => { sp with n := 0 }

/-! ### Reads and revocations -/

structure ReadRequest where
  actor : String
  authEnforced : Bool
  offset : Int
  deriving DecidableEq

variable (req : ReadRequest)

/-- The caller is not the principal that an original is bound to. -/
def ReadRequest.deniedBy (obs : Observation) : Bool :=
  (obs.actor ≠ "" ∨ req.authEnforced) ∧ (req.actor = "" ∨ req.actor ≠ obs.actor)

/-- The metadata of an original, if it can be read. -/
def observation (readable : Bool) : Op Observation := query fun s =>
  match (s.find key).bind (·.obs) with
  | some obs => if readable then .ok obs else .error .missing
  | none => .error .missing

/-- Authorize a read and open the bytes of an original, removing it if it has expired. -/
def openOriginalLocked (now : Time) (readable opened : Bool)
    (removal : Removal) : Op Observation := do
  let obs ← observation key readable
  ensure (!obs.revoked) .revoked
  ensure (!req.deniedBy obs) .denied
  if obs.expired now then
    write fun s =>
      let s' := { s with dirs := removeAll key removal s.dirs }
      if removal = .done ∧ s.loaded then s'.add obs.retentionClass (-obs.charge) else s'
    throw .expired
  ensure (!obs.upstream) .upstreamRef
  ensure (0 ≤ req.offset ∧ req.offset ≤ obs.rawBytes) .invalidRange
  let s ← get
  ensure (opened ∧ (s.find key).any (·.raw)) .corrupt
  return obs

/-- Delete the bytes of an original and mark it revoked. -/
def revoke (readable removed written : Bool) : Op Unit := do
  let obs ← observation key readable
  ensure (!req.deniedBy obs) .denied
  if obs.revoked then
    return
  ensure removed .io
  write fun s =>
    let s' := { s with dirs := updateDir key (fun d => { d with raw := false }) s.dirs }
    if s.loaded then s'.add obs.retentionClass (-obs.charge) else s'
  ensure written .io
  write fun s =>
    { s with
      dirs := updateDir key (fun d => { d with obs := some { obs with revoked := true } }) s.dirs }

/-- Remove every original of a workspace. -/
def revokeWorkspace (removal : String → Removal) : Op Unit :=
  write fun s =>
    { s with loaded := false, used := 0, byClass := fun _ => 0
             dirs := s.dirs.filterMap fun d => (removal d.key).left d }

/-! ### Interleavings -/

/-- A critical section of some caller, with the outcome of its file operations. -/
inductive Event
  | newSpool (cls : RetentionClass) (upstream : Bool)
  | beginWrite (i n : Nat) (w w' : Sweep)
  | endWrite (i : Nat) (short : Option Nat)
  | discard (i : Nat)
  | capture (i : Nat) (key : String) (req : CaptureRequest) (now : Time) (w w' : Sweep)
      (files : CaptureFiles)
  | read (key : String) (req : ReadRequest) (now : Time) (readable opened : Bool)
      (removal : Removal)
  | revoke (key : String) (req : ReadRequest) (readable removed written : Bool)
  | revokeWorkspace (removal : String → Removal)
  | retained (w : Sweep)

/-- The workspace after a critical section, whatever its caller is told. -/
def Event.step (s : State) : Event → State
  | .newSpool cls upstream => (Evidence.newSpool cls upstream).final s
  | .beginWrite i n w w' => (Evidence.beginWrite l i n w w').final s
  | .endWrite i short => (Evidence.endWrite i short).final s
  | .discard i => (Evidence.discard i).final s
  | .capture i key req now w w' files => (Evidence.capture l i key req now w w' files).final s
  | .read key req now readable opened removal =>
    (openOriginalLocked key req now readable opened removal).final s
  | .revoke key req readable removed written =>
    (Evidence.revoke key req readable removed written).final s
  | .revokeWorkspace removal => (Evidence.revokeWorkspace removal).final s
  | .retained w => (retainedLocked w true).final s

/-- The workspace after an interleaving, from the start of the store. -/
def run (evs : List Event) : State := evs.foldl (Event.step l) .empty

end Evidence
