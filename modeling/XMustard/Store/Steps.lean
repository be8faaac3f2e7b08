import XMustard.Store.Record

/-!
# The life of a memory

The abstract model of the store: each entry is a state machine whose state is its governance
columns, its revisions and its votes, and whose steps are the acts of governance. A write changes
the record of one entry by one such act and leaves all others alone, creates an entry, or, in the
retention sweep, drops old content everywhere. That every method of the store does nothing else is
proved method by method; what the acts preserve then holds of every history.
-/

namespace GovStore

open Table

/-! ### Acts -/

/-- What can happen to one memory. -/
inductive Act
  | attach | label (promoted : Bool) | gate | replace (target : String) | retire | reopen | restart
  | propose | adopt | accept | reject | vote | seed | purge | compact
  deriving DecidableEq

namespace Memory

variable (m : Memory)

/-- The number of the next revision. -/
def nextRevision : Int := (m.revisions.map (·.revision)).foldr max 0 + 1

def newestPending : Option Int :=
  ((m.revisions.filter fun x => x.state = .pending).map (·.revision)).max?

/-- A revision written by the store on top of `base`: its digest and its author key fit. -/
def Written (h : Hashing) (id : String) (base : Int) (x : Revision) : Prop :=
  x.entryId = id ∧ x.baseRevision = base ∧ x.authorKey = principalKey x.author
    ∧ ∃ c, x.content = some c ∧ x.contentDigest = h.digest c

/-- The columns of a row that serves revision `x`. -/
def serving (row : EntryCore) (x : Revision) : EntryCore :=
  { row with revision := x.revision, headRevision := max row.headRevision x.revision,
             contentDigest := x.contentDigest, status := .pending, promoted := false,
             verificationMode := .unset }

/-- The pending revisions below `rev` are withdrawn. -/
def withdrawBelow (rev : Int) (now : Time) (xs : List Revision) : List Revision :=
  update (fun x => x.state = .pending ∧ x.revision < rev) (Revision.decide .withdrawn now) xs

def decideRevision (rev : Int) (state : RevisionState) (now : Time) (xs : List Revision) :
    List Revision :=
  update (fun x => x.revision = rev) (Revision.decide state now) xs

/-- A vote as the store casts it in the current epoch of the memory. -/
structure Cast (m : Memory) (v : Vote) : Prop where
  entryId : v.entryId = m.row.id
  key : v.principalKey = principalKey v.principal
  epoch : v.epoch = m.row.voteEpoch
  named : v.principalKey ≠ ""

/-- One act of governance on a memory. -/
inductive Step (h : Hashing) : Act → Memory → Memory → Prop
  /-- Annotations, anchors, events: governance is not concerned. -/
  | attach (m : Memory) : Step h .attach m m
  /-- The result of a vote reconciliation; the schema refuses an unsupported `peer_verified`. -/
  | label (m : Memory) (status : Status) (promoted : Bool) (mode : VerificationMode)
      (active : promoted → m.row.lifecycle = .active)
      (formed : promoted → status = .verified ∧ mode ≠ .unset)
      (bare : ¬promoted → mode = .unset)
      (supported : ¬shortfall { m with row := { m.row with status := status, promoted := promoted,
                                                           verificationMode := mode } }) :
      Step h (.label promoted) m
        { m with row := { m.row with status := status, promoted := promoted,
                                     verificationMode := mode } }
  | gate (m : Memory) (n : Int) (pos : 1 ≤ n)
      (supported : ¬shortfall { m with row := { m.row with requiredVerifications := n } }) :
      Step h .gate m { m with row := { m.row with requiredVerifications := n } }
  | supersede (m : Memory) (target : String) (active : m.row.lifecycle = .active) :
      Step h (.replace target) m
        { m with row := { m.row with lifecycle := .superseded, supersededBy := target } }
  | merge (m : Memory) (target : String) (active : m.row.lifecycle = .active) :
      Step h (.replace target) m
        { m with row := { m.row with lifecycle := .merged, mergedInto := target } }
  | retire (m : Memory) (lc : Lifecycle) (hlc : lc = .retracted ∨ lc = .archived)
      (active : m.row.lifecycle = .active) :
      Step h .retire m { m with row := { m.row with lifecycle := lc } }
  | reopen (m : Memory) (archived : m.row.lifecycle = .archived) :
      Step h .reopen m
        { m with row := { m.row with lifecycle := .active, supersededBy := "", mergedInto := "" } }
  /-- Back from retracted, superseded or merged, in a new vote epoch. -/
  | restart (m : Memory)
      (gone : m.row.lifecycle = .retracted ∨ m.row.lifecycle = .superseded
        ∨ m.row.lifecycle = .merged) :
      Step h .restart m
        { m with row := { m.row with lifecycle := .active, supersededBy := "", mergedInto := "",
                                     status := m.row.status.unverify, promoted := false,
                                     verificationMode := .unset,
                                     voteEpoch := m.row.voteEpoch + 1 } }
  | propose (m : Memory) (x : Revision) (active : m.row.lifecycle = .active)
      (number : x.revision = m.nextRevision) (pending : x.state = .pending)
      (written : Written h m.row.id m.row.headRevision x) :
      Step h .propose m
        { m with row := { m.row with headRevision := x.revision }, revisions := m.revisions ++ [x] }
  /-- A new revision served at once. -/
  | adopt (m : Memory) (x : Revision) (now : Time) (active : m.row.lifecycle = .active)
      (number : x.revision = m.nextRevision) (accepted : x.state = .accepted)
      (written : Written h m.row.id m.row.headRevision x) :
      Step h .adopt m
        { m with row := serving m.row x,
                 revisions := withdrawBelow x.revision now (m.revisions ++ [x]) }
  | accept (m : Memory) (x : Revision) (now : Time) (active : m.row.lifecycle = .active)
      (found : x ∈ m.revisions) (pending : x.state = .pending)
      (head : x.revision = m.row.headRevision) :
      Step h .accept m
        { m with
          row := serving m.row x,
          revisions := withdrawBelow x.revision now
            (decideRevision x.revision .accepted now m.revisions) }
  | reject (m : Memory) (x : Revision) (now : Time) (found : x ∈ m.revisions)
      (pending : x.state = .pending) (m' : Memory)
      (revs : m'.revisions = decideRevision x.revision .rejected now m.revisions)
      (votes : m'.votes = m.votes)
      (row : m'.row = { m.row with headRevision := m'.newestPending.getD m.row.revision }) :
      Step h .reject m m'
  | vote (m : Memory) (v : Vote) (active : m.row.lifecycle = .active) (cast : m.Cast v)
      (live : v.revision = m.row.revision ∨ ∃ x ∈ m.revisions, x.revision = v.revision
        ∧ x.state = .pending) :
      Step h .vote m { m with votes := putVote v m.votes }
  /-- A verdict of an imported entry that is not labelled yet. -/
  | seed (m : Memory) (v : Vote) (bare : m.row.verificationMode = .unset) (cast : m.Cast v)
      (fresh : m.votes.any v.sameKey = false) : Step h .seed m { m with votes := m.votes ++ [v] }
  | purge (m : Memory) (now : Time) :
      Step h .purge m
        { row := { m.row with lifecycle := .purged, promoted := false, verificationMode := .unset,
                              status := m.row.status.unverify, headRevision := m.row.revision },
          revisions := m.revisions.map (Revision.tombstone now),
          votes := m.votes.map fun v => { v with note := "" } }

/-- The memory with another label. -/
def labelled (status : Status) (promoted : Bool) (mode : VerificationMode) : Memory :=
  { m with row := { m.row with status := status, promoted := promoted, verificationMode := mode } }

/-- The memory with another gate. -/
def gated (n : Int) : Memory :=
  { m with row := { m.row with requiredVerifications := n } }

/-- The content of old revisions is dropped. -/
def sweep (p : Revision → Bool) (now : Time) : Memory :=
  { m with revisions := update p (Revision.compact now) m.revisions }

/-- A memory as an entry is created: active, unpromoted, serving its first revision. -/
structure Newborn (h : Hashing) (m : Memory) : Prop where
  lifecycle : m.row.lifecycle = .active
  promoted : m.row.promoted = false
  mode : m.row.verificationMode = .unset
  required : 1 ≤ m.row.requiredVerifications
  epoch : m.row.voteEpoch = 0
  supersededBy : m.row.supersededBy = ""
  mergedInto : m.row.mergedInto = ""
  sourceKey : m.row.sourceKey = principalKey m.row.source
  revision : m.row.revision = 1
  head : m.row.headRevision = 1
  votes : m.votes = []
  first : ∃ x, m.revisions = [x] ∧ x.revision = 1 ∧ x.state = .accepted
    ∧ Written h m.row.id 0 x ∧ x.contentDigest = m.row.contentDigest

end Memory

/-! ### Records -/

/-- The store holds no text of the entry, but for its last event, the purge itself. -/
structure Record.Blank (r : Record) : Prop where
  title : r.row.title = ""
  description : r.row.description = ""
  topic : r.row.topic = ""
  tags : r.row.tags = []
  metadata : r.row.metadata = []
  searchTokens : r.row.searchTokens = []
  revisions : ∀ x ∈ r.revisions,
    x.content = none ∧ x.title = "" ∧ x.description = "" ∧ x.reason = ""
  votes : ∀ v ∈ r.votes, v.note = ""
  outcomes : ∀ o ∈ r.outcomes, o.note = ""
  anchors : r.anchors = []
  claims : r.claims = []
  postings : r.postings = []
  members : r.members = []
  events : ∃ old purge, r.events = old ++ [purge] ∧ purge.type = .purge
    ∧ ∀ ev ∈ old, ev.note = none ∧ ev.data = none

/-- One act on a record that is not purged. A purge leaves no text behind. -/
structure Record.Step (h : Hashing) (act : Act) (r r' : Record) : Prop where
  live : r.row.lifecycle ≠ .purged
  memory : Memory.Step h act r.memory r'.memory
  blank : act = .purge → r'.Blank

/-! ### Steps of the store -/

/-- The change that one group of statements makes, with the acts it may consist of. -/
inductive Change (h : Hashing) (A : String → Act → Prop) (t t' : Txn) : Prop
  | same (all : ∀ id, t'.db.record id = t.db.record id)
  | born (id : String) (r : Record) (absent : t.db.record id = none)
      (present : t'.db.record id = some r) (others : ∀ i ≠ id, t'.db.record i = t.db.record i)
      (newborn : Memory.Newborn h r.memory)
  | one (id : String) (act : Act) (r r' : Record) (allowed : A id act)
      (before : t.db.record id = some r) (after : t'.db.record id = some r')
      (others : ∀ i ≠ id, t'.db.record i = t.db.record i)
      (step : r.Step h act r')
      (covered : act = .vote → t'.covers id)
      (target : ∀ i, act = .replace i → i ≠ id ∧ ∃ s, t.db.record i = some s
        ∧ s.row.lifecycle = .active)
  | sweep (now : Time) (p : Revision → Bool) (allowed : ∀ id, A id .compact)
      (old : ∀ id r, t.db.record id = some r → ∀ x ∈ r.revisions, p x →
        x.state ≠ .pending ∧ x.revision ≠ r.row.revision)
      (all : ∀ id, t'.db.record id
        = (t.db.record id).map fun r =>
          { r with revisions := update p (Revision.compact now) r.revisions })

end GovStore
