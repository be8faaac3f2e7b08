import Mathlib.Algebra.Order.BigOperators.Group.List
import XMustard.Evidence.Store
import XMustard.Program.Along

/-!
# Counters and originals stay in step

The counters cover what is on disk, and the quotas cover the counters, as long as no file operation
fails at a point where the store has already counted on it. A short spool write leaves its bytes
pending for good, and a revocation whose metadata cannot be written is released once more when it is
repeated.
-/

namespace Evidence

open List

variable {l : Limits} {s : State} {p : Observation → Bool} {key : String}
  {o : Observation} {d : Dir} {dirs : List Dir} {w : Sweep}

/-! ### The charge of what is on disk -/

/-- The charge of a directory whose original is in `p` and not revoked, expired or not. -/
def Dir.held (p : Observation → Bool) (d : Dir) : Nat :=
  (d.obs.filter fun o => !o.revoked && p o).elim 0 (·.charge)

def held (p : Observation → Bool) (dirs : List Dir) : Nat := (dirs.map (Dir.held p)).sum

@[simp] lemma held_nil : held p [] = 0 := rfl

@[simp] lemma held_cons : held p (d :: dirs) = d.held p + held p dirs := by simp [held]

@[simp] lemma held_append (dirs' : List Dir) :
    held p (dirs ++ dirs') = held p dirs + held p dirs' := by
  simp [held]

lemma Dir.held_of_obs {d' : Dir} (h : d'.obs = d.obs) : d'.held p = d.held p := by
  rw [Dir.held, h, Dir.held]

lemma Dir.held_of_none (h : d.obs = none) : d.held p = 0 := by
  rw [Dir.held, h]
  rfl

lemma Dir.held_of_revoked (h : d.obs = some o) (hr : o.revoked) : d.held p = 0 := by
  simp [Dir.held, h, Option.filter, hr]

lemma Dir.held_of_live (h : d.obs = some o) (hr : o.revoked = false) :
    d.held p = if p o then o.charge else 0 := by
  by_cases hp : p o <;> simp [Dir.held, h, Option.filter, hr, hp]

/-- What an optional directory holds. -/
def heldIn (p : Observation → Bool) (d : Option Dir) : Nat := d.elim 0 (Dir.held p)

lemma held_filterMap (f : Dir → Option Dir) :
    held p (dirs.filterMap f) = (dirs.map fun d => heldIn p (f d)).sum := by
  induction dirs with
  | nil => rfl
  | cons d dirs ih =>
    rw [map_cons, sum_cons, ← ih]
    cases hd : f d with
    | none | some => simp [hd, heldIn]

/-- A change of directories that adds nothing to any of them. -/
lemma held_filterMap_le {f : Dir → Option Dir} (hf : ∀ x, heldIn p (f x) ≤ x.held p) :
    held p (dirs.filterMap f) ≤ held p dirs :=
  (held_filterMap f).trans_le (sum_le_sum fun x _ => hf x)

/-- One that takes an original off takes its charge off. -/
lemma held_filterMap_drop {f : Dir → Option Dir} (hf : ∀ x, heldIn p (f x) ≤ x.held p)
    (hd : d ∈ dirs) (hgone : heldIn p (f d) = 0) :
    held p (dirs.filterMap f) + d.held p ≤ held p dirs := by
  have hperm := perm_cons_erase hd
  have hrest : held p ((dirs.erase d).filterMap f) ≤ held p (dirs.erase d) := held_filterMap_le hf
  rw [held_filterMap] at hrest ⊢
  rw [held, (hperm.map _).sum_eq, (hperm.map _).sum_eq, map_cons, sum_cons, map_cons, sum_cons,
    ← held]
  omega

lemma heldIn_left (r : Removal) (x : Dir) : heldIn p (r.left x) ≤ x.held p := by
  cases r with
  | done => exact Nat.zero_le _
  | failed metaGone rawGone =>
    cases metaGone
    · exact le_of_eq (Dir.held_of_obs rfl)
    · exact Nat.zero_le _

/-- A directory that may be removed. -/
lemma heldIn_ite (c : Prop) [Decidable c] (r : Removal) (x : Dir) :
    heldIn p (if c then r.left x else some x) ≤ x.held p := by
  split
  · exact heldIn_left r x
  · exact le_refl _

lemma held_removeAll_le (r : Removal) : held p (removeAll key r dirs) ≤ held p dirs :=
  held_filterMap_le fun x => heldIn_ite _ r x

lemma held_removeAll_done (hd : d ∈ dirs) (hkey : d.key = key) :
    held p (removeAll key .done dirs) + d.held p ≤ held p dirs := by
  refine held_filterMap_drop (fun x => heldIn_ite _ .done x) hd ?_
  rw [if_pos hkey]
  rfl

lemma held_updateDir {f : Dir → Dir} (hf : ∀ x, (f x).obs = x.obs) :
    held p (updateDir key f dirs) = held p dirs := by
  rw [updateDir, held, map_map]
  refine congrArg sum (map_congr_left fun x _ => ?_)
  simp only [Function.comp_apply]
  split
  · exact Dir.held_of_obs (hf x)
  · rfl

/-- Marking an original revoked takes its charge off. -/
lemma held_revoke {f : Dir → Dir} (hf : ∀ x, (f x).held p = 0) (hd : d ∈ dirs)
    (hkey : d.key = key) :
    held p (updateDir key f dirs) + d.held p ≤ held p dirs := by
  rw [updateDir, ← filterMap_eq_map]
  refine held_filterMap_drop (fun x => ?_) hd ?_
  · simp only [Function.comp_apply, heldIn, Option.elim_some]
    split
    · exact (hf x).trans_le (Nat.zero_le _)
    · exact le_refl _
  · simp [heldIn, hkey, hf]

lemma State.find_eq_some (h : s.find key = some d) : d ∈ s.dirs ∧ d.key = key :=
  ⟨mem_of_find?_eq_some h, by simpa using find?_some h⟩

lemma updateDir_fresh (f : Dir → Dir) (hfresh : s.find key = none) (hd : d.key = key) :
    updateDir key f (s.dirs ++ [d]) = s.dirs ++ [f d] := by
  have hsame : updateDir key f s.dirs = s.dirs := by
    conv_rhs => rw [← map_id s.dirs]
    refine map_congr_left fun x hx => ?_
    have : x.key ≠ key := by simpa using find?_eq_none.1 hfresh x hx
    rw [if_neg this]
    rfl
  rw [updateDir, map_append, ← updateDir, hsame, map_singleton, if_pos hd]

/-! ### Counters and quotas -/

/-- The counter of the workspace, or of a class. -/
def State.counter (s : State) : Option RetentionClass → Nat
  | none => s.used
  | some c => s.byClass c

def Limits.quota (l : Limits) : Option RetentionClass → Nat
  | none => l.workspaceQuota
  | some c => l.classQuota c

/-- The observation counts for the workspace, or for the class. -/
def inClass : Option RetentionClass → Observation → Bool
  | none, _ => true
  | some c, o => o.retentionClass = c

/-- Each counter covers the originals on disk and is within its quota. -/
def Within (l : Limits) (s : State) : Prop :=
  ∀ k, held (inClass k) s.dirs ≤ s.counter k ∧ s.counter k ≤ l.quota k

lemma counter_add (o : Observation) (n : Int) (k : Option RetentionClass) :
    (s.add o.retentionClass n).counter k
      = if inClass k o then ((s.counter k : Int) + n).toNat else s.counter k := by
  cases k with
  | none => rfl
  | some c =>
    simp only [State.counter, State.add, inClass, decide_eq_true_eq]
    by_cases hc : c = o.retentionClass
    · rw [if_pos hc, if_pos hc.symm, hc]
    · rw [if_neg hc, if_neg (Ne.symm hc)]

/-- Fewer originals and the same counters. -/
lemma Within.shrink (hs : Within l s)
    (hdirs : ∀ k, held (inClass k) dirs ≤ held (inClass k) s.dirs) :
    Within l { s with dirs := dirs } := fun k =>
  ⟨(hdirs k).trans (hs k).1, (hs k).2⟩

/-- An original comes and its charge is counted. -/
lemma Within.retain (hs : Within l s) (hlive : o.revoked = false) (raw : Bool)
    (hroom : ∀ k, inClass k o → s.counter k + o.charge ≤ l.quota k) :
    Within l (({ s with dirs := s.dirs ++ [⟨key, some o, raw⟩] } : State).add
      o.retentionClass o.charge) := by
  intro k
  obtain ⟨hcover, hquota⟩ := hs k
  have hcounter : ({ s with dirs := s.dirs ++ [⟨key, some o, raw⟩] } : State).counter k
      = s.counter k := by cases k <;> rfl
  rw [counter_add]
  show held (inClass k) (s.dirs ++ [⟨key, some o, raw⟩]) ≤ _ ∧ _
  rw [held_append, held_cons, held_nil, Dir.held_of_live rfl hlive]
  by_cases hk : inClass k o
  · have := hroom k hk
    rw [if_pos hk, if_pos hk]
    omega
  · rw [if_neg hk, if_neg hk]
    omega

/-- An original goes and its charge is released. -/
lemma Within.release (hs : Within l s) (hobs : d.obs = some o) (hlive : o.revoked = false)
    (hdirs : ∀ k, held (inClass k) dirs + d.held (inClass k) ≤ held (inClass k) s.dirs) :
    Within l (({ s with dirs := dirs } : State).add o.retentionClass (-o.charge)) := by
  intro k
  obtain ⟨hcover, hquota⟩ := hs k
  have hdrop := hdirs k
  rw [Dir.held_of_live hobs hlive] at hdrop
  have hcounter : ({ s with dirs := dirs } : State).counter k = s.counter k := by cases k <;> rfl
  rw [counter_add]
  show held (inClass k) dirs ≤ _ ∧ _
  by_cases hk : inClass k o
  · rw [if_pos hk] at hdrop ⊢
    omega
  · rw [if_neg hk] at hdrop ⊢
    omega

/-! ### Rescans -/

/-- Every metadata file could be read, and every expired original removed. -/
def Sweep.Clean (w : Sweep) : Prop := ∀ key, w.unreadable key = false ∧ w.removal key = .done

lemma Sweep.seen_clean (hw : w.Clean) (d : Dir) : w.seen d = d.obs.filter fun o => !o.revoked := by
  simp [Sweep.seen, (hw d.key).1]

lemma counter_rescan (w : Sweep) (k : Option RetentionClass) :
    (s.rescan w).counter k = chargeOf (inClass k) (w.counted s.dirs) := by
  cases k <;> rfl

lemma chargeOf_filterMap (g : Dir → Option Observation) :
    chargeOf p (dirs.filterMap g) = (dirs.map fun d => ((g d).filter p).elim 0 (·.charge)).sum := by
  induction dirs with
  | nil => rfl
  | cons d dirs ih =>
    rw [map_cons, sum_cons, ← ih, chargeOf, chargeOf]
    cases hd : g d with
    | none => simp [hd]
    | some o => by_cases hp : p o <;> simp [hd, hp, Option.filter]

/-- A clean rescan counts what it leaves on disk. -/
lemma chargeOf_counted (hw : w.Clean) : chargeOf p (w.counted dirs) = held p (w.swept dirs) := by
  rw [Sweep.counted, Sweep.swept, chargeOf_filterMap, held_filterMap]
  refine congrArg sum (map_congr_left fun d _ => ?_)
  rw [Sweep.seen_clean hw, (hw d.key).2]
  cases hd : d.obs with
  | none => simp [heldIn, Dir.held_of_none hd]
  | some o =>
    cases hr : o.revoked with
    | true => simp [hr, heldIn, Dir.held_of_revoked hd hr, Option.filter]
    | false =>
      cases hexp : o.expired w.now with
      | true => simp [hr, hexp, heldIn, Removal.left, Option.filter]
      | false =>
        by_cases hp : p o <;> simp [hr, hexp, heldIn, Dir.held_of_live hd hr, hp, Option.filter]

lemma held_swept (w : Sweep) : held p (w.swept dirs) ≤ held p dirs :=
  held_filterMap_le fun d => heldIn_ite _ (w.removal d.key) d

lemma Within.rescan (hs : Within l s) (hw : w.Clean) : Within l (s.rescan w) := by
  intro k
  rw [counter_rescan, chargeOf_counted hw]
  exact ⟨le_refl _, (held_swept w).trans ((hs k).1.trans (hs k).2)⟩

/-! ### Spools -/

/-- The bytes of a spool: those written and those being written, until it is discarded. -/
def Spool.bytes (sp : Spool) : Nat := if sp.discarded then 0 else sp.n + sp.writing

/-- The bytes of the open spools. -/
def openBytes (spools : List Spool) : Nat := (spools.map Spool.bytes).sum

/-- A spool without what records a refusal. -/
def Spool.core (sp : Spool) : Nat × Nat × Bool := (sp.n, sp.writing, sp.discarded)

section spools

variable {i : Nat} {sp sp' : Spool} {spools spools' : List Spool} {f : Spool → Spool}

@[simp] lemma openBytes_cons : openBytes (sp :: spools) = sp.bytes + openBytes spools := by
  simp [openBytes]

lemma Spool.bytes_of_core (h : sp'.core = sp.core) : sp'.bytes = sp.bytes := by
  simp only [Spool.core, Prod.mk.injEq] at h
  simp only [Spool.bytes, h.1, h.2.1, h.2.2]

lemma openBytes_of_core (h : spools'.map Spool.core = spools.map Spool.core) :
    openBytes spools' = openBytes spools := by
  induction spools generalizing spools' with
  | nil => rw [map_eq_nil_iff.1 h]
  | cons sp spools ih =>
    obtain ⟨sp', rest, rfl, hsp, hrest⟩ := map_eq_cons_iff.1 h
    rw [openBytes_cons, openBytes_cons, Spool.bytes_of_core hsp, ih hrest]

lemma core_modify (hf : ∀ sp, (f sp).core = sp.core) :
    (spools.modify i f).map Spool.core = spools.map Spool.core := by
  induction spools generalizing i with
  | nil => cases i <;> rfl
  | cons sp spools ih =>
    cases i with
    | zero => simp [hf]
    | succ i => simp [ih]

/-- A change of one spool. -/
lemma openBytes_modify (h : spools[i]? = some sp) :
    openBytes (spools.modify i f) + sp.bytes = openBytes spools + (f sp).bytes := by
  induction spools generalizing i with
  | nil => cases h
  | cons x spools ih =>
    cases i with
    | zero =>
      cases h
      simp only [modify_zero_cons, openBytes_cons]
      omega
    | succ i =>
      have := ih h
      simp only [modify_succ_cons, openBytes_cons]
      omega

lemma openBytes_modify_le (hf : ∀ sp, (f sp).bytes ≤ sp.bytes) :
    openBytes (spools.modify i f) ≤ openBytes spools := by
  cases h : spools[i]? with
  | none => rw [modify_eq_self (by simpa using h)]
  | some sp =>
    have := openBytes_modify (f := f) h
    have := hf sp
    omega

lemma openBytes_modify_eq (hf : ∀ sp, (f sp).bytes = sp.bytes) :
    openBytes (spools.modify i f) = openBytes spools := by
  cases h : spools[i]? with
  | none => rw [modify_eq_self (by simpa using h)]
  | some sp =>
    have := openBytes_modify (f := f) h
    have := hf sp
    omega

lemma getElem?_of_core (h : spools'.map Spool.core = spools.map Spool.core)
    (hi : spools[i]? = some sp) : ∃ sp', spools'[i]? = some sp' ∧ sp'.core = sp.core := by
  have hcore : (spools'.map Spool.core)[i]? = some sp.core := by rw [h, getElem?_map, hi]; rfl
  rw [getElem?_map] at hcore
  exact Option.map_eq_some_iff.1 hcore

end spools

end Evidence
