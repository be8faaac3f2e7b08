import Mathlib.Algebra.Order.Ring.Nat

/-!
# Retention classes and quotas

Retained originals fall in three classes with their own time to live and share of the workspace
quota. A retained original counts at least `minRetainedCharge` against both quotas, and one that the
client holds counts nothing.
-/

namespace Evidence

/-- An instant or a duration, in nanoseconds. -/
abbrev Time := Int

inductive RetentionClass
  | hook | own | snapshot
  deriving DecidableEq

/-- A row of the retention policy. -/
structure ClassPolicy where
  ttlFactor : Int
  quotaPerK : Nat

def classPolicies : RetentionClass → ClassPolicy
  | .hook => ⟨1, 750⟩
  | .own => ⟨1, 1000⟩
  | .snapshot => ⟨3, 250⟩

/-- The limits of a store that the accounting reads. -/
structure Limits where
  maxOriginal : Nat
  projectionTarget : Nat
  workspaceQuota : Nat
  retention : Time

def Limits.ttl (l : Limits) (c : RetentionClass) : Time := l.retention * (classPolicies c).ttlFactor

def Limits.classQuota (l : Limits) (c : RetentionClass) : Nat :=
  l.workspaceQuota * (classPolicies c).quotaPerK / 1000

def minRetainedCharge : Nat := 16 * 1024

def retainedCharge (raw : Nat) : Nat := max raw minRetainedCharge

/-- The record of a captured original: who may read it, what it costs and until when it is kept.
`upstream` says that the client holds the bytes. -/
structure Observation where
  actor : String
  rawBytes : Nat
  expiresAt : Time
  retentionClass : RetentionClass
  upstream : Bool
  revoked : Bool
  deriving DecidableEq

def Observation.charge (o : Observation) : Nat :=
  if o.upstream then 0 else retainedCharge o.rawBytes

/-- The original is past its expiry. -/
def Observation.expired (o : Observation) (now : Time) : Bool := !decide (now < o.expiresAt)

def RetentionClass.text : RetentionClass → String
  | .hook => "hook"
  | .own => "own"
  | .snapshot => "snapshot"

/-- Why `n` more bytes do not fit the quotas, or the empty text. Of the pending bytes `own` are the
caller's, and turn into charge of the class. -/
def Limits.refusal (l : Limits) (pending : Nat) (byClass : RetentionClass → Nat)
    (c : RetentionClass) (classless : Bool) (used own : Nat) (n : Int) : String :=
  if (used : Int) + pending + n > l.workspaceQuota then
    toString used ++ " of " ++ toString l.workspaceQuota ++ " workspace bytes retained"
  else if !classless ∧ (byClass c : Int) + own + n > l.classQuota c then
    c.text ++ " class quota of " ++ toString (l.classQuota c) ++ " bytes is full"
  else ""

section refusal

variable {l : Limits} {pending used own : Nat} {byClass : RetentionClass → Nat}
  {c : RetentionClass} {classless : Bool} {n : Int}

/-- What fits. -/
lemma refusal_eq_empty (h : l.refusal pending byClass c classless used own n = "") :
    (used : Int) + pending + n ≤ l.workspaceQuota
      ∧ (classless = false → (byClass c : Int) + own + n ≤ l.classQuota c) := by
  unfold Limits.refusal at h
  split_ifs at h with hworkspace hclass
  · exact absurd h (by simp)
  · exact absurd h (by simp)
  · refine ⟨by omega, fun hc => ?_⟩
    simp only [hc, Bool.not_false, true_and] at hclass
    omega

end refusal

end Evidence
