import XMustard.Store.Entries

/-!
# Outcomes, deliveries and corroborations

What readers report back about an entry: the outcome of relying on it, that it was shown, and
that a principal restated it. The backfill fills in the postings of entries that are older than
duplicate detection.
-/

namespace GovStore

open Table Text Program

variable (env : Env)

/-- The entry belongs in shared context now: promoted, active and not past its expiry. -/
def Entry.served (now : Time) (e : Entry) : Bool :=
  e.promoted ∧ e.lifecycle = .active ∧ (e.expiresAt.all fun t => now < t)

structure OutcomeInput where
  entryId : String
  outcome : Option OutcomeKind
  note : String

def OutcomeKind.text : OutcomeKind → String
  | .helpful => "helpful"
  | .misleading => "misleading"
  | .staleHarm => "stale_harm"
  | .confirm => "confirm"
  | .dismiss => "dismiss"
  | .fixed => "fixed"
  | .wontFix => "wont_fix"

/-- Store the actor's latest outcome on an entry. -/
def recordOutcome (i : OutcomeInput) (a : Actor) : Tx Unit := do
  a.validate
  match i.outcome with
  | none => throw (invalid "outcome %q")
  | some outcome => do
    ensure outcome.onMemory (invalid "outcome %q")
    ensure (i.note.utf8ByteSize ≤ maxNoteLen) (invalid "note longer than %d bytes")
    let e ← liveEntry i.entryId
    let principal := trimSpace a.principal
    execDb (Db.upsertOutcome
      ⟨i.entryId, .memory, e.revision, principal, principalKey principal, outcome, i.note,
        a.sessionId, env.now⟩)
    appendEvent env a
      { workspaceId := e.workspaceId, entryId := i.entryId, type := .feedback,
        revision := e.revision, newDigest := e.contentDigest, note := i.note,
        data := some [("outcome", .text outcome.text)] }

/-- An entry shown through a surface; `none` is a text that names no surface. -/
structure DeliveryInput where
  entryId : String
  surface : Option String

def recordDelivery (a : Actor) (i : DeliveryInput) : Tx Unit :=
  match i.surface with
  | none => throw (invalid "delivery surface %q")
  | some surface => do
    let e ← getEntry i.entryId
    writeDb fun db =>
      { db with deliveries := db.deliveries ++ [⟨e.id, e.revision, e.contentDigest, e.workspaceId,
                  a.sessionId, trimSpace a.principal, surface, env.now, "delivery"⟩] }

/-- Log that entries were shown to the actor's session. -/
def recordDeliveries (items : List DeliveryInput) (a : Actor) : Tx Unit := do
  a.validate
  each (recordDelivery env a) items

/-! ### Corroboration -/

def maxCorroborationEvidence : Nat := 8

/-- The handles kept after a restatement cites more of them. -/
def mergeEvidence (known : List String) : List String → List String
  | [] => known
  | h :: rest =>
    if known.length < maxCorroborationEvidence ∧ h ≠ "" ∧ h ∉ known then
      mergeEvidence (known ++ [h]) rest
    else mergeEvidence known rest

def Db.corroboration (db : Db) (id key : String) : Option Corroboration :=
  db.corroborations.find? fun c => c.entryId = id ∧ c.principalKey = key

/-- Record one restatement of a served entry. The result says whether the history took it: a
principal's first one, or one citing new evidence. -/
def corroborate (id : String) (a : Actor) : Tx Bool := do
  a.validate
  let e ← getEntry id
  ensure (e.served env.now) (invalid "only a served entry is corroborated; %s is not")
  let key := principalKey a.principal
  let prev ← readDb (·.corroboration id key)
  let known := (prev.map (·.evidence)).getD []
  let evidence := mergeEvidence known a.evidence
  let count := (prev.map (·.count)).getD 0 + 1
  writeDb fun db =>
    { db with corroborations := upsert (fun c => c.entryId = id ∧ c.principalKey = key)
                (fun c => { c with count := c.count + 1, evidence := evidence, lastAt := env.now })
                ⟨id, key, trimSpace a.principal, 1, evidence, env.now, env.now⟩ db.corroborations }
  if prev.isSome ∧ evidence.length ≤ known.length then
    return false
  appendEvent env a
    { workspaceId := e.workspaceId, entryId := id, type := .corroborate, revision := e.revision,
      newDigest := e.contentDigest,
      data := some [("count", .int count), ("evidence", .int evidence.length)] }
  return true

/-! ### Backfill of postings -/

/-- The entries of the next batch with the content they serve, in key order. -/
def Db.backfillBatch (db : Db) (limit : Nat) : List (Entry × String) :=
  ((db.entries.filter fun e =>
      db.backfillNext < e.pk ∧ e.pk ≤ db.backfillEnd ∧ (db.revisionRow e.id e.revision).isSome).map
    fun e => (e, ((db.revisionRow e.id e.revision).bind (·.content)).getD "")).take limit

def backfillOne (item : Entry × String) : Tx Unit := do
  if item.2 ≠ "" then
    putDedupeKeys env item.1.pk item.1.workspaceId item.2

/-- Compute the postings of entries that predate duplicate detection. -/
def backfillDedupeKeys (max : Int) : Tx Nat := do
  let todo ← readDb fun db => decide (db.backfillNext < db.backfillEnd)
  if !todo then
    return 0
  let batch ← readDb (·.backfillBatch (clampLimit max))
  each (backfillOne env) batch
  writeDb fun db =>
    { db with backfillNext :=
        if batch.length = clampLimit max then (batch.getLast?.map (·.1.pk)).getD db.backfillEnd
        else db.backfillEnd }
  return batch.length

end GovStore
