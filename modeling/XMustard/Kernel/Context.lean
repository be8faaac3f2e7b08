import XMustard.Kernel.Scopes
import XMustard.Store.Update

/-!
# Callers, settings and the view of an entry

What a kernel call brings along: who calls, and what the call reads outside the store. Settings may
change between two calls, so each call has its own. The kernel decides on a view of the entry, made
from its row, the counting votes on the revision it serves, and its anchors.
-/

namespace WorkspaceOps

open GovStore Text

/-! ### Callers -/

/-- Who makes a governance write. -/
structure ContextActor where
  id : String
  admin : Bool := false
  approver : Bool := false
  verifier : Bool := false
  openMode : Bool := false
  owner : String := ""
  kind : String := ""
  sessionId : String := ""
  callId : String := ""
  runId : String := ""
  evidence : List String := []
  approval : String := ""
  quarantine : String := ""

def fallbackString (value fallback : String) : String := if value = "" then fallback else value

/-- The principal of an admin write made without an identity. -/
def adminEditor : String := "admin"

/-! ### Settings -/

/-- The settings the kernel reads. -/
structure Settings where
  requireMultiAgentVerification : Option Bool := none
  contextVerificationThreshold : Int := 0
  principalDistinctness : String := ""

/-- Whether many agents must verify, and how many; the strict defaults where nothing is set. -/
def contextDefaults : Option Settings → Bool × Int
  | none => (true, 2)
  | some s =>
    (s.requireMultiAgentVerification.getD true,
      if s.contextVerificationThreshold ≤ 0 then 2 else s.contextVerificationThreshold)

/-- Whether verifiers are counted by owner and not by token. -/
def ownerDistinct : Option Settings → Bool
  | none => true
  | some s =>
    let policy := toLowerString (trimSpace s.principalDistinctness)
    policy ≠ "" ∧ policy ≠ "token"

/-- A memory write as the write policy reads it. -/
structure MemoryWrite where
  proposal : Bool := false
  title : String
  content : String
  description : String
  kind : String
  topic : String
  paths : List String
  tier : Tier := .unset
  permission : Option Permission := none
  expires : TimeText := .unset
  supersedes : List String := []
  core : Bool := false

/-- What a kernel call reads outside the store: the clock, the settings (none where the file cannot
be read), the owners of tokens, the repository, and the write policy of the workspace. -/
structure Host extends Env where
  settings : Option Settings
  principalOwner : String → String
  headSha : String
  branch : String
  hasRoot : Bool
  hashFile : String → Option String
  tokens : String → List String
  scrub : String → String
  enforce : MemoryWrite → ContextActor → Bool

/-- A host with these settings, no files and no policy: enough to run small histories. -/
def Host.plain (settings : Option Settings) : Host where
  toHashing := .plain
  now := 0
  settings := settings
  principalOwner := id
  headSha := ""
  branch := ""
  hasRoot := false
  hashFile _ := none
  tokens _ := []
  scrub := id
  enforce _ _ := true

variable (host : Host)

def Host.requireMulti : Bool := (contextDefaults host.settings).1

def Host.threshold : Int := (contextDefaults host.settings).2

def ContextActor.storeActor (a : ContextActor) : Actor :=
  let id := fallbackString (trimSpace a.id) adminEditor
  { principal := id, owner := fallbackString a.owner id, kind := a.kind, sessionId := a.sessionId,
    callId := a.callId, runId := a.runId, evidence := a.evidence, headSha := host.headSha,
    branch := host.branch, approval := a.approval }

/-! ### The view of an entry -/

structure ContextVerification where
  agent : String
  approve : Bool

/-- The fields of an entry's view that the kernel decides on. -/
structure ContextEntry where
  id : String
  workspaceId : String
  title : String
  source : String
  permission : Permission
  status : Status
  promoted : Bool
  verifications : List ContextVerification
  requiredVerifications : Int
  requireVerification : Bool
  verificationMode : VerificationMode
  tier : Tier
  revision : Int
  supersedes : List String
  quarantine : String
  paths : List String
  /-- The paths with a baseline, and its hash unless the file was missing. -/
  pathHashes : List (String × Option String)

/-- The metadata key under which a proposal keeps the entries it means to supersede. -/
def supersedesKey : String := "supersedes"

def pendingSupersedes (e : Entry) : List String :=
  let v := e.metadata.get supersedesKey
  if v = "" then [] else (v.toList.splitOn ',').map String.ofList

def verificationsOf (votes : List Vote) : List ContextVerification :=
  (votes.filter fun v => v.verdict = .approve ∨ v.verdict = .reject).map fun v =>
    ⟨v.principal, v.verdict = .approve⟩

def pathHash (a : Anchor) : Option (String × Option String) :=
  match a.baselineState with
  | .none => none
  | .hash => some (a.value, some a.baselineHash)
  | .missing => some (a.value, none)

def contextEntryFrom (e : Entry) (votes : List Vote) (anchors : List Anchor) : ContextEntry where
  id := e.id
  workspaceId := e.workspaceId
  title := e.title
  source := e.source
  permission := e.permission
  status := e.status
  promoted := e.promoted
  verifications := verificationsOf votes
  requiredVerifications := e.requiredVerifications
  requireVerification := e.requireVerification
  verificationMode := e.verificationMode
  tier := if e.tier = .core then .core else .unset
  revision := e.revision
  supersedes := pendingSupersedes e
  quarantine := e.metadata.get metaQuarantine
  paths := ((anchors.filter fun a => a.kind = .path ∧ a.declared).map (·.value))
  pathHashes := (anchors.filter fun a => a.kind = .path).filterMap pathHash

/-- The counting votes on the served revision, in cast order. -/
def servedVotes (db : Db) (e : Entry) : List Vote :=
  (db.countingVotes e e.revision).insertionSort fun v w => v.ordinal ≤ w.ordinal

def projectEntry (db : Db) (e : Entry) : ContextEntry :=
  contextEntryFrom e (servedVotes db e) (db.anchorsOf e.id)

def notExist : Err := .fault .notFound "entry %s"

variable (workspaceId entryId : String)

/-- An entry of the workspace in any lifecycle state, with its view. -/
def loadAnyEntryTx : Tx (Entry × ContextEntry) := do
  let e ← getEntry entryId
  Program.ensure (e.workspaceId = workspaceId) notExist
  let ce ← readDb fun db => projectEntry db e
  return (e, ce)

/-- An active entry of the workspace. -/
def loadEntryTx : Tx (Entry × ContextEntry) := do
  let r ← loadAnyEntryTx workspaceId entryId
  Program.ensure (r.1.lifecycle = .active) notExist
  return r

/-- The view of an entry after a lifecycle change. -/
def entryAfter : Tx ContextEntry := do
  let r ← loadAnyEntryTx workspaceId entryId
  return r.2

end WorkspaceOps
