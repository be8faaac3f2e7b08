import Mathlib.Data.Finset.Sort
import Mathlib.Data.String.Basic
import XMustard.Machine.Runs

/-! # The refresh queue behind the watcher

The watcher pushes what it saw and the queue coalesces it into batches. Every method takes the
clock reading, so the queue is a pure state machine; clock readings and durations are in
nanoseconds. -/

namespace Index

abbrev Instant := Nat

abbrev Duration := Nat

def Duration.fromMillis (n : Nat) : Duration := n * 1000000

def Duration.fromSecs (n : Nat) : Duration := n * 1000000000

/-- Quiet period after the last change before a batch is due. -/
def DEBOUNCE : Duration := .fromMillis 300

/-- A batch is due at most this long after its first change. -/
def MAX_WAIT : Duration := .fromSecs 1

def MAX_PENDING_PATHS : Nat := 1000

def RETRY_BASE : Duration := .fromMillis 500

def RETRY_MAX : Duration := .fromSecs 30

def MAX_RETRIES : Nat := 6

/-- A batch in flight longer than this is treated as failed. -/
def IN_FLIGHT_LIMIT : Duration := .fromSecs (11 * 60)

/-- Why a batch refreshes the whole tree instead of the paths it names. -/
inductive FullReason
  | startup | overflow | rescan | ignoreFile | watchLimit | verify
deriving DecidableEq, Repr

/-- One change the watcher saw. -/
inductive Change
  | path (p : String)
  | git
  | full (reason : FullReason)
deriving DecidableEq, Repr

/-- What one refresh covers. -/
structure Batch where
  id : Nat
  paths : List String
  full : Option FullReason
  git : Bool
deriving DecidableEq, Repr

structure QueueCounters where
  changes : Nat := 0
  coalesced : Nat := 0
  batches : Nat := 0
  fullRefreshes : Nat := 0
  overflows : Nat := 0
  failures : Nat := 0
  retries : Nat := 0
  gaveUp : Nat := 0
  superseded : Nat := 0
deriving DecidableEq, Repr

structure RefreshQueue where
  paths : Finset String := ∅
  full : Option FullReason := none
  git : Bool := false
  first : Option Instant := none
  last : Option Instant := none
  inFlight : Option (Batch × Instant) := none
  nextId : Nat := 0
  failures : Nat := 0
  retryAt : Option Instant := none
  counters : QueueCounters := {}
deriving DecidableEq

/-- Delay before retry number `failures` (1-based). -/
def backoff (failures : Nat) : Duration :=
  let shift := min (failures - 1) 16
  min (RETRY_BASE * 2 ^ shift) RETRY_MAX

namespace RefreshQueue

def new : RefreshQueue := {}

variable (q : RefreshQueue)

/-- Changes are waiting for a batch. -/
def pending : Bool := q.first.isSome

/-- Consecutive failures reached `MAX_RETRIES`: nothing is scheduled until a change. -/
def gaveUp : Bool := MAX_RETRIES ≤ q.failures

def escalate (reason : FullReason) : RefreshQueue :=
  { q with full := some (q.full.getD reason), paths := ∅ }

/-- Too many pending paths turn the batch into a full refresh. -/
def capPaths : RefreshQueue :=
  if MAX_PENDING_PATHS < q.paths.card then
    { q with counters.overflows := q.counters.overflows + 1 }.escalate .overflow
  else q

/-- What a pushed change adds to the pending set. -/
def absorb : Change → RefreshQueue
  | .path p =>
    if q.full.isNone then
      let seen := if p ∈ q.paths then q.counters.coalesced + 1 else q.counters.coalesced
      { q with paths := insert p q.paths, counters.coalesced := seen }.capPaths
    else { q with counters.coalesced := q.counters.coalesced + 1 }
  | .git => { q with git := true }
  | .full reason => q.escalate reason

def push (change : Change) (now : Instant) : RefreshQueue :=
  let q := { q with counters.changes := q.counters.changes + 1 }.absorb change
  let q := { q with first := some (q.first.getD now), last := some now }
  -- a new change is a new chance: retries start over
  if q.gaveUp then { q with failures := 0, retryAt := none } else q

/-- When the pending changes become due: `DEBOUNCE` after the last change and at most `MAX_WAIT`
after the first, not before a retry backoff ends. -/
def dueAt : Option Instant :=
  if q.inFlight.isSome || q.gaveUp then none
  else do
    let last ← q.last
    let first ← q.first
    let due := min (last + DEBOUNCE) (first + MAX_WAIT)
    return match q.retryAt with
      | none => due
      | some r => max due r

variable (now : Instant)

def isDue : Bool := q.dueAt.any (· ≤ now)

/-- The paths of a batch, or the whole tree it stands for, are pending again. -/
def restore (batch : Batch) : RefreshQueue :=
  match batch.full with
  | some reason => q.escalate reason
  | none =>
    if q.full.isNone then { q with paths := q.paths ∪ batch.paths.toFinset }.capPaths else q

/-- Put a batch's changes back in the queue (without counting them again). -/
def mergeBack (batch : Batch) (now : Instant) : RefreshQueue :=
  let q := q.restore batch
  { q with
    git := q.git || batch.git
    first := some (q.first.getD now)
    last := some (q.last.getD now) }

/-- A batch that is still in flight was lost: it goes back into the queue. -/
def supersede : RefreshQueue :=
  match q.inFlight with
  | some (stale, _) =>
    { q with inFlight := none, counters.superseded := q.counters.superseded + 1 }.mergeBack
      stale now
  | none => q

/-- The batch of all pending changes. -/
def nextBatch : Batch :=
  { id := q.nextId + 1
    paths := q.paths.sort (· ≤ ·)
    full := q.full
    git := q.git }

/-- The pending changes go in flight as one batch. -/
def launch : RefreshQueue :=
  { q with
    nextId := q.nextId + 1
    paths := ∅
    full := none
    git := false
    first := none
    last := none
    counters.batches := q.counters.batches + 1
    counters.fullRefreshes := q.counters.fullRefreshes + q.full.isSome.toNat
    inFlight := some (q.nextBatch, now) }

/-- Take the pending changes as the next batch: when due, or at once with `force`. -/
def take (force : Bool) : Option Batch × RefreshQueue :=
  if !force && !q.isDue now then (none, q)
  else
    let q := q.supersede now
    (some q.nextBatch, q.launch now)

/-- A failed batch is put back and retried after the backoff, until the queue gives up. -/
def fail (batch : Batch) (now : Instant) : RefreshQueue :=
  let q := { q with
    counters.failures := q.counters.failures + 1
    failures := q.failures + 1 }.mergeBack batch now
  if q.gaveUp then
    { q with counters.gaveUp := q.counters.gaveUp + 1, retryAt := none }
  else
    { q with
      counters.retries := q.counters.retries + 1
      retryAt := some (now + backoff q.failures) }

/-- End batch `id`. Answers false for a batch that is not the one in flight, which changes
nothing. -/
def finish (id : Nat) (ok : Bool) (now : Instant) : Bool × RefreshQueue :=
  match q.inFlight with
  | none => (false, q)
  | some (batch, _) =>
    if batch.id ≠ id then (false, q)
    else
      let q := { q with inFlight := none }
      (true, if ok then { q with failures := 0, retryAt := none } else q.fail batch now)

/-- Fail a batch in flight longer than `IN_FLIGHT_LIMIT`; answers whether one was. -/
def expire : Bool × RefreshQueue :=
  match q.inFlight with
  | none => (false, q)
  | some (batch, since) =>
    if IN_FLIGHT_LIMIT ≤ now - since then q.finish batch.id false now else (false, q)

end RefreshQueue

/-! ## Calls on a queue -/

inductive QueueOp
  | push (change : Change)
  | take (force : Bool)
  | finish (id : Nat) (ok : Bool)
  | expire
deriving DecidableEq, Repr

/-- A call, with the clock reading it is given. -/
structure QueueCall where
  op : QueueOp
  now : Instant
deriving DecidableEq, Repr

inductive QueueAnswer
  | unit
  | batch (b : Option Batch)
  | flag (b : Bool)
deriving DecidableEq, Repr

def RefreshQueue.step (q : RefreshQueue) (call : QueueCall) : QueueAnswer × RefreshQueue :=
  match call.op with
  | .push change => (.unit, q.push change call.now)
  | .take force => (q.take call.now force).map .batch id
  | .finish id ok => (q.finish id ok call.now).map .flag fun q => q
  | .expire => (q.expire call.now).map .flag id

end Index
