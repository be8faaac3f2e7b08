import Mathlib.Data.List.Nodup
import XMustard.Machine.Runs
import XMustard.Program.Along
import XMustard.Store.Jobs

/-!
# What the job calls do to the queue

A call adds a job, or moves open jobs: a lease is extended, a job is finished, or it is claimed
with the next lease version. Everything the queue promises over a run follows from that.
-/

namespace GovStore

open List Table Program Relation

/-! ### Moves of a job -/

/-- What every move keeps: only an open job moves, and it is never queued again. -/
structure Job.Moves (j j' : Job) : Prop where
  opened : j.state.finished = false
  id : j'.id = j.id
  workspaceId : j'.workspaceId = j.workspaceId
  signature : j'.conflictSignature = j.conflictSignature
  attempts : j'.attempts ≤ j'.maxAttempts
  queued : j'.state ≠ .queued

/-- A move that hands out no lease: one that is held stays with its holder. -/
structure Job.Quiet (j j' : Job) : Prop extends j.Moves j' where
  version : j'.leaseVersion = j.leaseVersion
  held : j'.state = .leased → j.state = .leased ∧ j'.leaseOwner = j.leaseOwner

/-- A move that hands out the next lease. -/
structure Job.Claim (j j' : Job) : Prop extends j.Moves j' where
  version : j'.leaseVersion = j.leaseVersion + 1
  leased : j'.state = .leased

/-- Put a row in the place of the one with its id. -/
def putJob (j' : Job) (jobs : List Job) : List Job :=
  update (fun r => r.id = j'.id) (fun _ => j') jobs

structure JobsWf (jobs : List Job) : Prop where
  ids : (jobs.map Job.id).Nodup
  signatures : ∀ j ∈ jobs, ∀ r ∈ jobs, j.state ≠ .cancelled → r.state ≠ .cancelled →
    j.workspaceId = r.workspaceId → j.conflictSignature = r.conflictSignature → j = r
  attempts : ∀ j ∈ jobs, j.attempts ≤ j.maxAttempts
  queued : ∀ j ∈ jobs, j.state = .queued → j.attempts < j.maxAttempts

section table

variable {jobs jobs' : List Job} {j j' r : Job}

lemma JobsWf.eq_of_id (h : JobsWf jobs) (hj : j ∈ jobs) (hr : r ∈ jobs) (hid : j.id = r.id) :
    j = r :=
  inj_on_of_nodup_map h.ids hj hr hid

lemma mem_putJob (hj : j ∈ jobs) (hid : j'.id = j.id) :
    r ∈ putJob j' jobs ↔ r = j' ∨ (r ∈ jobs ∧ r.id ≠ j'.id) := by
  rw [putJob, mem_update]
  constructor
  · rintro ⟨r₀, hr₀, rfl⟩
    by_cases h : r₀.id = j'.id
    · simp [h]
    · simp only [h, decide_false, Bool.false_eq_true, if_false]
      exact .inr ⟨hr₀, h⟩
  · rintro (rfl | ⟨hr, hne⟩)
    · exact ⟨j, hj, by simp [hid]⟩
    · exact ⟨r, hr, by simp [hne]⟩

/-- A new row that fits the others, or takes the place of the one with its id. -/
lemma JobsWf.of_mem {n : Job} (h : JobsWf jobs) (hids : (jobs'.map Job.id).Nodup)
    (hmem : ∀ r ∈ jobs', r = n ∨ (r ∈ jobs ∧ r.id ≠ n.id))
    (hown : ∀ r ∈ jobs, r.id ≠ n.id → r.state ≠ .cancelled → n.workspaceId = r.workspaceId →
      n.conflictSignature ≠ r.conflictSignature)
    (hattempts : n.attempts ≤ n.maxAttempts)
    (hqueued : n.state = .queued → n.attempts < n.maxAttempts) :
    JobsWf jobs' := by
  refine ⟨hids, fun a ha b hb hac hbc hws hsig => ?_, fun a ha => ?_, fun a ha hq => ?_⟩
  · rcases hmem a ha with rfl | ⟨hra, hane⟩ <;> rcases hmem b hb with rfl | ⟨hrb, hbne⟩
    · rfl
    · exact absurd hsig (hown b hrb hbne hbc hws)
    · exact absurd hsig.symm (hown a hra hane hac hws.symm)
    · exact h.signatures a hra b hrb hac hbc hws hsig
  · rcases hmem a ha with rfl | ⟨ha, -⟩
    · exact hattempts
    · exact h.attempts a ha
  · rcases hmem a ha with rfl | ⟨ha, -⟩
    · exact hqueued hq
    · exact h.queued a ha hq

lemma JobsWf.put (h : JobsWf jobs) (hj : j ∈ jobs) (hm : j.Moves j') : JobsWf (putJob j' jobs) := by
  have hopen : j.state ≠ .cancelled := fun hc => by
    simpa [hc, JobState.finished] using hm.opened
  refine h.of_mem ?_ (fun r hr => (mem_putJob hj hm.id).1 hr) (fun r hr hne hrc hws hsig => ?_)
    hm.attempts fun hq => absurd hq hm.queued
  · rw [putJob, map_update]
    · exact h.ids
    · intro r _ hr
      exact (by simpa using hr : r.id = j'.id).symm
  · -- the signature of the row that moved is still its own
    have := h.signatures j hj r hr hopen hrc (hm.workspaceId ▸ hws) (hm.signature ▸ hsig)
    exact hne (this ▸ hm.id.symm)

variable {p : Job → Bool} {f : Job → Job} {c? : Option Job}

/-- An update of one row puts the new row in its place. -/
lemma JobsWf.update_eq_put (h : JobsWf jobs) (hj : j ∈ jobs)
    (hp : p j) (hone : ∀ r, p r → r.id = j.id) (hid : (f j).id = j.id) :
    update p f jobs = putJob (f j) jobs := by
  refine map_congr_left fun r hr => ?_
  by_cases hr' : r.id = j.id
  · obtain rfl := h.eq_of_id hr hj hr'
    simp [hp, hid]
  · have hpr : p r = false := by
      by_contra hpr
      exact hr' (hone r (by simpa using hpr))
    simp [hpr, hid, hr']

/-! ### Steps of the table -/

/-- A step that hands out no lease. -/
inductive JobsStep (jobs : List Job) : List Job → Prop
  | add (j : Job) (fresh : ∀ r ∈ jobs, r.id ≠ j.id)
      (free : ∀ r ∈ jobs, JobTx.occupied j.workspaceId j.conflictSignature r = false)
      (state : j.state = .queued) (attempts : j.attempts < j.maxAttempts) :
      JobsStep jobs (jobs ++ [j])
  | move {j j' : Job} (mem : j ∈ jobs) (quiet : j.Quiet j') : JobsStep jobs (putJob j' jobs)

/-- The claim of a job: `c` is the job as it is handed out. -/
def Claimed (jobs : List Job) (c : Job) (jobs' : List Job) : Prop :=
  ∃ j ∈ jobs, j.Claim c ∧ jobs' = putJob c jobs

section

variable (h : JobsWf jobs)
include h

lemma JobsWf.step (hs : JobsStep jobs jobs') : JobsWf jobs' := by
  cases hs with
  | add j fresh free state attempts =>
    refine h.of_mem (Table.nodup_append_row h.ids fresh) (fun r hr => ?_)
      (fun r hr _ hrc hws hsig => ?_) attempts.le fun _ => attempts
    · rcases mem_append.1 hr with hr | hr
      · exact .inr ⟨hr, fresh r hr⟩
      · exact .inl (mem_singleton.1 hr)
    · simpa [JobTx.occupied, hws, hsig, hrc] using free r hr
  | move mem quiet => exact h.put mem quiet.toMoves

lemma JobsWf.steps (hs : ReflTransGen JobsStep jobs jobs') : JobsWf jobs' := by
  induction hs with
  | refl => exact h
  | tail _ hstep ih => exact ih.step hstep

lemma JobsWf.claimed {c : Job} (hc : Claimed jobs c jobs') : JobsWf jobs' := by
  obtain ⟨j, hj, hclaim, rfl⟩ := hc
  exact h.put hj hclaim.toMoves

/-- A finished job is still there, as it was. -/
lemma mem_putJob_of_finished (hj : j ∈ jobs) (hm : j.Moves j') (hr : r ∈ jobs)
    (hfin : r.state.finished) : r ∈ putJob j' jobs := by
  refine (mem_putJob hj hm.id).2 (.inr ⟨hr, fun hid => ?_⟩)
  rw [h.eq_of_id hr hj (hid.trans hm.id), hm.opened] at hfin
  cases hfin

/-- A step that hands out no lease keeps the lease version of every job, and finished jobs. -/
lemma JobsStep.keeps (hs : JobsStep jobs jobs') (hr : r ∈ jobs) :
    (∃ r' ∈ jobs', r'.id = r.id ∧ r'.leaseVersion = r.leaseVersion)
      ∧ (r.state.finished → r ∈ jobs') := by
  cases hs with
  | add j => exact ⟨⟨r, mem_append_left _ hr, rfl, rfl⟩, fun _ => mem_append_left _ hr⟩
  | @move j j' mem quiet =>
    refine ⟨?_, mem_putJob_of_finished h mem quiet.toMoves hr⟩
    by_cases hrj : r.id = j'.id
    · obtain rfl := h.eq_of_id hr mem (hrj.trans quiet.id)
      exact ⟨j', (mem_putJob mem quiet.id).2 (.inl rfl), quiet.id, quiet.version⟩
    · exact ⟨r, (mem_putJob mem quiet.id).2 (.inr ⟨hr, hrj⟩), rfl, rfl⟩

lemma steps_keep (hs : ReflTransGen JobsStep jobs jobs') (hr : r ∈ jobs) :
    (∃ r' ∈ jobs', r'.id = r.id ∧ r'.leaseVersion = r.leaseVersion)
      ∧ (r.state.finished → r ∈ jobs') := by
  induction hs with
  | refl => exact ⟨⟨r, hr, rfl, rfl⟩, fun _ => hr⟩
  | tail hsteps hstep ih =>
    obtain ⟨⟨r₁, hr₁, hid, hversion⟩, hfin⟩ := ih
    have hwf := h.steps hsteps
    obtain ⟨r₂, hr₂, hid', hversion'⟩ := (hstep.keeps hwf hr₁).1
    exact ⟨⟨r₂, hr₂, hid'.trans hid, hversion'.trans hversion⟩,
      fun h => (hstep.keeps hwf (hfin h)).2 h⟩

end

end table

/-! ### What a call does -/

/-- The effect of a call that hands out the lease `c?`. -/
def JobsEffect (jobs : List Job) (c? : Option Job) (jobs' : List Job) : Prop :=
  ∃ mid, ReflTransGen JobsStep jobs mid ∧ match c? with
    | none => jobs' = mid
    | some c => Claimed mid c jobs'

namespace JobTx

section calls

variable {jobs jobs' : List Job} {j : Job} {l : Lease} {a : Actor} {now : Time} {id : String}
  {req : ClaimRequest}

instance reads_validate : Reads (validate a) := .bind

instance reads_validId (id : String) : Reads (validId id) := .ensure ..

instance reads_encodeOptional (v : Option Json) : Reads (encodeOptional v) := by
  refine ⟨fun s => ?_⟩
  obtain _ | _ | v := v <;> rfl

lemma getJob_eq_ok :
    getJob id jobs = (.ok j, jobs') ↔ row Job.id id jobs = some j ∧ jobs' = jobs := by
  simp only [getJob, query_apply, Prod.mk.injEq, eq_comm (a := jobs)]
  cases row Job.id id jobs <;> simp

lemma quiet_update (h : JobsWf jobs)
    (hj : j ∈ jobs) (hp : p j) (hone : ∀ r, p r → r.id = j.id) (hq : j.Quiet (f j)) :
    JobsStep jobs (update p f jobs) := by
  rw [h.update_eq_put hj hp hone hq.id]
  exact .move hj hq

/-- A lease operation succeeds on a job whose lease is held, and on no other. -/
lemma leaseUpdate_eq_ok (hok : leaseUpdate l f jobs = (.ok j, jobs')) :
    (∃ r ∈ jobs, Lease.held l r) ∧ jobs' = update (Lease.held l) f jobs := by
  obtain ⟨changed, mid, hup, hok⟩ := bind_eq_ok.1 hok
  cases hup
  split at hok
  · obtain ⟨_, _, _, hthrow⟩ := bind_eq_ok.1 hok
    cases hthrow
  · next hne =>
    exact ⟨by simpa [countP_eq_zero] using hne, (getJob_eq_ok.1 hok).2⟩

lemma Lease.held_iff {r : Job} : Lease.held l r ↔
    r.id = l.jobId ∧ r.state = .leased ∧ r.leaseOwner = l.owner ∧ r.leaseVersion = l.version := by
  simp [Lease.held, and_assoc]

lemma leaseUpdate_effect (h : JobsWf jobs)
    (hok : leaseUpdate l f jobs = (.ok j, jobs'))
    (hf : ∀ r ∈ jobs, r.state = .leased → r.Quiet (f r)) :
    (∃ r ∈ jobs, Lease.held l r) ∧ JobsEffect jobs none jobs' := by
  obtain ⟨⟨r, hr, hheld⟩, rfl⟩ := leaseUpdate_eq_ok hok
  have hr' := Lease.held_iff.1 hheld
  refine ⟨⟨r, hr, hheld⟩, _, .single ?_, rfl⟩
  exact quiet_update h hr hheld (fun x hx => (Lease.held_iff.1 hx).1.trans hr'.1.symm)
    (hf r hr hr'.2.1)

lemma quiet_renew (h : JobsWf jobs) (hj : j ∈ jobs) (hs : j.state = .leased) (expires now : Time) :
    j.Quiet (Job.renew expires now j) where
  opened := by simp [hs, JobState.finished]
  id := rfl
  workspaceId := rfl
  signature := rfl
  attempts := h.attempts j hj
  queued := by simp [Job.renew, hs]
  version := rfl
  held _ := ⟨hs, rfl⟩

/-- A move that finishes an open job. -/
lemma quiet_of_finished {j' : Job} (h : JobsWf jobs) (hj : j ∈ jobs)
    (hopen : j.state.finished = false) (hfin : j'.state.finished)
    (hsame : (j'.id, j'.workspaceId, j'.conflictSignature, j'.leaseVersion, j'.attempts,
      j'.maxAttempts) = (j.id, j.workspaceId, j.conflictSignature, j.leaseVersion, j.attempts,
      j.maxAttempts)) : j.Quiet j' := by
  simp only [Prod.mk.injEq] at hsame
  obtain ⟨hid, hws, hsig, hver, hatt, hmax⟩ := hsame
  refine ⟨⟨hopen, hid, hws, hsig, ?_, fun hq => ?_⟩, hver, fun hl => ?_⟩
  · rw [hatt, hmax]
    exact h.attempts j hj
  · rw [hq] at hfin
    cases hfin
  · rw [hl] at hfin
    cases hfin

lemma not_finished_of_leased (hs : j.state = .leased) : j.state.finished = false := by
  rw [hs]
  rfl

lemma renewLease_effect (h : JobsWf jobs) {d : Time}
    (hok : renewLease l d now a jobs = (.ok j, jobs')) :
    (∃ r ∈ jobs, Lease.held l r) ∧ JobsEffect jobs none jobs' := by
  obtain ⟨_, _, hok⟩ := Reads.bind_eq_ok.1 hok
  obtain ⟨-, hok⟩ := bind_ensure_eq_ok.1 hok
  exact leaseUpdate_effect h hok fun r hr hs => quiet_renew h hr hs _ _

lemma completeJob_effect (h : JobsWf jobs) {result : Option Json}
    (hok : completeJob l result now a jobs = (.ok j, jobs')) :
    (∃ r ∈ jobs, Lease.held l r) ∧ JobsEffect jobs none jobs' := by
  obtain ⟨_, _, hok⟩ := Reads.bind_eq_ok.1 hok
  obtain ⟨res, _, hok⟩ := Reads.bind_eq_ok.1 hok
  exact leaseUpdate_effect h hok fun r hr hs =>
    quiet_of_finished h hr (not_finished_of_leased hs) rfl rfl

lemma failJob_effect (h : JobsWf jobs) {reason : List UInt8}
    (hok : failJob l reason now a jobs = (.ok j, jobs')) :
    (∃ r ∈ jobs, Lease.held l r) ∧ JobsEffect jobs none jobs' := by
  obtain ⟨_, _, hok⟩ := Reads.bind_eq_ok.1 hok
  exact leaseUpdate_effect h hok fun r hr hs =>
    quiet_of_finished h hr (not_finished_of_leased hs) rfl rfl

lemma cancelJob_effect (h : JobsWf jobs)
    (hok : cancelJob id now a jobs = (.ok j, jobs')) : JobsEffect jobs none jobs' := by
  obtain ⟨_, _, hok⟩ := Reads.bind_eq_ok.1 hok
  obtain ⟨changed, mid, hup, hok⟩ := bind_eq_ok.1 hok
  cases hup
  obtain ⟨r, mid, hget, hok⟩ := bind_eq_ok.1 hok
  obtain ⟨_, rfl⟩ := getJob_eq_ok.1 hget
  obtain ⟨-, hret⟩ := bind_ensure_eq_ok.1 hok
  cases hret
  by_cases hopen : ∃ r ∈ jobs, r.id = id ∧ r.state.finished = false
  · obtain ⟨r, hr, rfl, hopen⟩ := hopen
    refine ⟨_, .single (quiet_update h hr (by simp [hopen]) (fun x hx => ?_) ?_), rfl⟩
    · exact (by simpa using hx : x.id = r.id ∧ _).1
    · exact quiet_of_finished h hr hopen rfl rfl
  · refine ⟨_, .refl, update_eq_self fun r hr => ?_⟩
    by_contra hr'
    exact hopen ⟨r, hr, by simpa using hr'⟩

lemma insertJob_step {u : Unit} (hstate : j.state = .queued) (hatt : j.attempts = 0)
    (hok : insertJob j jobs = (.ok u, jobs')) : JobsStep jobs jobs' := by
  simp only [insertJob, exec] at hok
  split at hok
  · next jobs₁ hins =>
    cases hok
    split_ifs at hins with hcheck hid hsig
    cases hins
    rw [not_or, not_lt] at hcheck
    refine .add j (fun r hr hrid => hid ?_) (fun r hr => ?_) hstate (hatt ▸ hcheck.2)
    · exact any_eq_true.2 ⟨r, hr, by simpa using hrid⟩
    · by_contra hocc
      exact hsig (any_eq_true.2 ⟨r, hr, by simpa using hocc⟩)
  · cases hok

lemma enqueueJob_effect {i : JobInput} {added : Bool}
    (hok : enqueueJob i now a jobs = (.ok (j, added), jobs')) : JobsEffect jobs none jobs' := by
  obtain ⟨_, _, hok⟩ := Reads.bind_eq_ok.1 hok
  obtain ⟨_, _, hok⟩ := Reads.bind_eq_ok.1 hok
  rcases hkind : i.kind with _ | kind <;> rw [hkind] at hok
  · cases hok
  obtain ⟨-, hok⟩ := bind_ensure_eq_ok.1 hok
  obtain ⟨existing, hfind, hok⟩ := Reads.bind_eq_ok.1 hok
  obtain _ | r := existing
  case some =>
    cases hok
    exact ⟨jobs, .refl, rfl⟩
  obtain ⟨payload, _, hok⟩ := Reads.bind_eq_ok.1 hok
  obtain ⟨_, mid, hins, hok⟩ := bind_eq_ok.1 hok
  obtain ⟨r, mid', hget, hret⟩ := bind_eq_ok.1 hok
  obtain ⟨_, rfl⟩ := getJob_eq_ok.1 hget
  cases hret
  exact ⟨_, .single (insertJob_step rfl rfl hins), rfl⟩

/-- The row that `claimLoop` chose is one that may be claimed. -/
lemma claim_lease (h : JobsWf jobs) (hj : j ∈ jobs) (hopen : j.state.finished = false)
    (hleft : ¬ (j.state = .leased ∧ j.maxAttempts ≤ j.attempts)) (owner : String)
    (expires now : Time) : j.Claim (Job.lease owner expires now j) where
  opened := hopen
  id := rfl
  workspaceId := rfl
  signature := rfl
  attempts := by
    rcases hs : j.state with _ | _ | _ | _ | _ <;> simp only [hs, JobState.finished] at hopen
    · exact h.queued j hj hs
    · exact not_le.1 fun hle => hleft ⟨hs, hle⟩
    all_goals cases hopen
  queued := by simp [Job.lease]
  version := rfl
  leased := rfl

lemma claimable_open (hc : claimable req now j) : j.state.finished = false := by
  simp only [claimable, Bool.and_eq_true, Bool.or_eq_true, decide_eq_true_eq] at hc
  rcases hc.1.2 with hs | ⟨hs, _⟩ <;> rw [hs] <;> rfl

lemma claimLoop_effect {owner : String} {lease : Time} {clock : Nat → Time}
    {n : Nat} (h : JobsWf jobs) (hok : claimLoop req owner lease clock n jobs = (.ok c?, jobs')) :
    JobsEffect jobs c? jobs' := by
  induction n generalizing jobs with
  | zero => cases hok
  | succ n ih =>
    obtain ⟨oldest, hfind, hok⟩ := Reads.bind_eq_ok.1 hok
    simp only [query_apply, Prod.mk.injEq, Except.ok.injEq, and_true] at hfind
    obtain _ | j := oldest
    · cases hok
      exact ⟨_, .refl, rfl⟩
    have hj := mem_of_find?_eq_some hfind
    have hopen := claimable_open (List.find?_some hfind)
    have hat : isAt j.id j.leaseVersion j := by simp [isAt]
    have hone : ∀ r, isAt j.id j.leaseVersion r → r.id = j.id := fun r hr =>
      (by simpa [isAt] using hr : r.id = j.id ∧ _).1
    dsimp only at hok
    split at hok
    · -- an expired lease with no attempts left is failed, and the scan goes on
      obtain ⟨_, mid, hup, hok⟩ := bind_eq_ok.1 hok
      cases hup
      have hstep := quiet_update (f := Job.expire (clock n)) h hj hat hone
        (quiet_of_finished h hj hopen rfl rfl)
      obtain ⟨last, hsteps, hlast⟩ := ih (h.step hstep) hok
      exact ⟨last, hsteps.head hstep, hlast⟩
    next hleft =>
    obtain ⟨changed, mid, hup, hok⟩ := bind_eq_ok.1 hok
    cases hup
    have hclaim := claim_lease h hj hopen hleft owner (clock n + lease) (clock n)
    rw [h.update_eq_put hj hat hone hclaim.id] at hok
    have hchanged : jobs.countP (isAt j.id j.leaseVersion) ≠ 0 := by
      rw [Ne, countP_eq_zero]
      exact fun hnone => hnone j hj hat
    rw [if_neg hchanged] at hok
    obtain ⟨c, mid, hget, hret⟩ := bind_eq_ok.1 hok
    obtain ⟨hrow, rfl⟩ := getJob_eq_ok.1 hget
    cases hret
    -- the row read back is the one just written
    have hc := row_of_mem (h.put hj hclaim.toMoves).ids ((mem_putJob hj hclaim.id).2 (.inl rfl))
    obtain rfl : Job.lease owner (clock n + lease) (clock n) j = c := by
      rw [hclaim.id, hrow] at hc
      exact (Option.some.inj hc).symm
    exact ⟨jobs, .refl, j, hj, hclaim, rfl⟩

end calls

end JobTx

/-! ### Runs of calls -/

/-- The lease that a call hands out. -/
def JobAnswer.lease : Except JobErr JobAnswer → Option Job
  | .ok (.claimed c) => c
  | _ => none

/-- The lease that a call has to hold. -/
def JobCall.needs : JobCall → Option Lease
  | .renew l _ _ _ | .complete l _ _ _ | .fail l _ _ _ => some l
  | .enqueue .. | .claim .. | .cancel .. => none

section runs

variable {jobs jobs' : List Job}

variable {answer : JobAnswer} {c : JobCall}

lemma jobStep_ok (hok : c.tx jobs = (.ok answer, jobs')) :
    jobStep jobs c = (.ok answer, jobs') := by
  rw [jobStep, hok]

lemma jobStep_error {e : JobErr} (herr : c.tx jobs = (.error e, jobs')) :
    jobStep jobs c = (.error e, jobs) := by
  rw [jobStep, herr]

lemma tx_effect (h : JobsWf jobs) (hok : c.tx jobs = (.ok answer, jobs')) :
    JobsEffect jobs (JobAnswer.lease (.ok answer)) jobs' ∧
      ∀ l, c.needs = some l → ∃ r ∈ jobs, JobTx.Lease.held l r := by
  cases c <;> obtain ⟨b, mid, hrun, hret⟩ := bind_eq_ok.1 hok <;> cases hret
  case enqueue => exact ⟨JobTx.enqueueJob_effect hrun, fun l hl => by cases hl⟩
  case claim =>
    obtain ⟨_, _, hrun⟩ := Reads.bind_eq_ok.1 hrun
    obtain ⟨_, _, hrun⟩ := Reads.bind_eq_ok.1 hrun
    exact ⟨JobTx.claimLoop_effect h hrun, fun l hl => by cases hl⟩
  case renew =>
    obtain ⟨hheld, heffect⟩ := JobTx.renewLease_effect h hrun
    exact ⟨heffect, fun l hl => by cases hl; exact hheld⟩
  case complete =>
    obtain ⟨hheld, heffect⟩ := JobTx.completeJob_effect h hrun
    exact ⟨heffect, fun l hl => by cases hl; exact hheld⟩
  case fail =>
    obtain ⟨hheld, heffect⟩ := JobTx.failJob_effect h hrun
    exact ⟨heffect, fun l hl => by cases hl; exact hheld⟩
  case cancel => exact ⟨JobTx.cancelJob_effect h hrun, fun l hl => by cases hl⟩

lemma jobStep_effect (h : JobsWf jobs) (c : JobCall) :
    JobsEffect jobs (JobAnswer.lease (jobStep jobs c).1) (jobStep jobs c).2 := by
  rcases hrun : c.tx jobs with ⟨e | answer, jobs'⟩
  · rw [jobStep_error hrun]
    exact ⟨jobs, .refl, rfl⟩
  · rw [jobStep_ok hrun]
    exact (tx_effect h hrun).1

/-- A lease operation that is answered holds the lease. -/
lemma jobStep_held (h : JobsWf jobs) {l : Lease} (hl : c.needs = some l)
    (hok : (jobStep jobs c).1 = .ok answer) :
    ∃ r ∈ jobs, JobTx.Lease.held l r := by
  rcases hrun : c.tx jobs with ⟨e | answer', jobs'⟩
  · rw [jobStep_error hrun] at hok
    cases hok
  · exact (tx_effect h hrun).2 l hl

/-- The leases handed out by a run of calls, in order. -/
def leases (jobs : List Job) : List JobCall → List Job
  | [] => []
  | c :: H => (JobAnswer.lease (jobStep jobs c).1).toList ++ leases (jobStep jobs c).2 H

lemma leases_snoc (jobs : List Job) (H : List JobCall) (c : JobCall) :
    leases jobs (H ++ [c]) =
      leases jobs H ++ (JobAnswer.lease (jobStep (Machine.run jobStep jobs H) c).1).toList := by
  induction H generalizing jobs with
  | nil => simp [leases]
  | cons b H ih => simp only [cons_append, leases, ih, append_assoc, Machine.run_cons]

/-- The latest of the leases `cs` on a job. -/
def latestLease (id : String) (cs : List Job) : Option Job := cs.reverse.find? (·.id = id)

lemma latestLease_snoc (id : String) (cs : List Job) (c : Job) :
    latestLease id (cs ++ [c]) = if c.id = id then some c else latestLease id cs := by
  by_cases h : c.id = id <;> simp [latestLease, h]

/-- The queue after the leases `cs` were handed out. -/
structure Queue (cs jobs : List Job) : Prop extends JobsWf jobs where
  latest : ∀ r ∈ jobs, r.state = .leased → ∃ c, latestLease r.id cs = some c ∧
    c.leaseOwner = r.leaseOwner ∧ c.leaseVersion = r.leaseVersion
  reached : ∀ c ∈ cs, ∃ r ∈ jobs, r.id = c.id ∧ c.leaseVersion ≤ r.leaseVersion
  increasing : cs.Pairwise fun c d => c.id = d.id → c.leaseVersion < d.leaseVersion

variable {cs : List Job} {c : Job}

lemma queue_nil : Queue [] [] where
  ids := nodup_nil
  signatures := by simp
  attempts := by simp
  queued := by simp
  latest := by simp
  reached := by simp
  increasing := List.Pairwise.nil

lemma Queue.step (h : Queue cs jobs) (hs : JobsStep jobs jobs') : Queue cs jobs' := by
  refine ⟨h.toJobsWf.step hs, fun r hr hleased => ?_, fun c hc => ?_, h.increasing⟩
  swap
  · obtain ⟨r, hr, hid, hle⟩ := h.reached c hc
    obtain ⟨r', hr', hid', hversion⟩ := (hs.keeps h.toJobsWf hr).1
    exact ⟨r', hr', hid'.trans hid, hversion ▸ hle⟩
  cases hs
  case add j _ _ state _ =>
    rcases mem_append.1 hr with hr | hr
    · exact h.latest r hr hleased
    · rw [mem_singleton.1 hr, state] at hleased
      cases hleased
  case move j j' mem quiet =>
    rcases (mem_putJob mem quiet.id).1 hr with rfl | ⟨hr, -⟩
    · obtain ⟨hj, howner⟩ := quiet.held hleased
      rw [quiet.id, howner, quiet.version]
      exact h.latest j mem hj
    · exact h.latest r hr hleased

lemma Queue.steps (h : Queue cs jobs) (hs : ReflTransGen JobsStep jobs jobs') : Queue cs jobs' := by
  induction hs with
  | refl => exact h
  | tail _ hstep ih => exact ih.step hstep

lemma Queue.claimed (h : Queue cs jobs) (hc : Claimed jobs c jobs') : Queue (cs ++ [c]) jobs' := by
  have hwf := h.toJobsWf.claimed hc
  obtain ⟨j, hj, hclaim, rfl⟩ := hc
  have hmem : c ∈ putJob c jobs := (mem_putJob hj hclaim.id).2 (.inl rfl)
  -- the leases on this job handed out so far are older
  have holder : ∀ d ∈ cs, d.id = c.id → d.leaseVersion < c.leaseVersion := by
    intro d hd hid
    obtain ⟨r, hr, hrid, hle⟩ := h.reached d hd
    obtain rfl := h.eq_of_id hr hj (hrid.trans (hid.trans hclaim.id))
    rw [hclaim.version]
    exact Nat.lt_succ_of_le hle
  refine ⟨hwf, fun r hr hleased => ?_, fun d hd => ?_, ?_⟩
  · rw [latestLease_snoc]
    rcases (mem_putJob hj hclaim.id).1 hr with rfl | ⟨hr, hne⟩
    · exact ⟨r, if_pos rfl, rfl, rfl⟩
    · rw [if_neg hne.symm]
      exact h.latest r hr hleased
  · rcases mem_append.1 hd with hd | hd
    · by_cases hid : d.id = c.id
      · exact ⟨c, hmem, hid.symm, (holder d hd hid).le⟩
      · obtain ⟨r, hr, hrid, hle⟩ := h.reached d hd
        exact ⟨r, (mem_putJob hj hclaim.id).2 (.inr ⟨hr, hrid ▸ hid⟩), hrid, hle⟩
    · rw [mem_singleton.1 hd]
      exact ⟨c, hmem, rfl, le_rfl⟩
  · refine pairwise_append.2 ⟨h.increasing, pairwise_singleton _ _, fun d hd e he => ?_⟩
    rw [mem_singleton.1 he]
    exact holder d hd

lemma Queue.effect (h : Queue cs jobs) (he : JobsEffect jobs c? jobs') :
    Queue (cs ++ c?.toList) jobs' := by
  obtain ⟨mid, hsteps, hlast⟩ := he
  obtain _ | c := c?
  · obtain rfl := hlast
    simpa using h.steps hsteps
  · exact (h.steps hsteps).claimed hlast

lemma queue_run (H : List JobCall) : Queue (leases [] H) (Machine.run jobStep [] H) := by
  refine Machine.run_invariant (P := fun H jobs => Queue (leases [] H) jobs) queue_nil
    (fun H c h => ?_) H
  rw [leases_snoc]
  exact h.effect (jobStep_effect h.toJobsWf c)

lemma JobsEffect.finished {r : Job} (h : JobsWf jobs)
    (he : JobsEffect jobs c? jobs') (hr : r ∈ jobs) (hfin : r.state.finished) : r ∈ jobs' := by
  obtain ⟨mid, hsteps, hlast⟩ := he
  have hmid := (steps_keep h hsteps hr).2 hfin
  obtain _ | c := c?
  · exact hlast ▸ hmid
  · obtain ⟨j, hj, hclaim, rfl⟩ := hlast
    exact mem_putJob_of_finished (h.steps hsteps) hj hclaim.toMoves hmid hfin

/-- A claim raises the lease version of its job. -/
lemma JobsEffect.raised (h : JobsWf jobs) (he : JobsEffect jobs (some c) jobs') :
    c ∈ jobs' ∧ ∀ r ∈ jobs, r.id = c.id → r.leaseVersion < c.leaseVersion := by
  obtain ⟨mid, hsteps, j, hj, hclaim, rfl⟩ := he
  refine ⟨(mem_putJob hj hclaim.id).2 (.inl rfl), fun r hr hid => ?_⟩
  obtain ⟨r', hr', hid', hversion⟩ := (steps_keep h hsteps hr).1
  obtain rfl := (h.steps hsteps).eq_of_id hr' hj (hid'.trans (hid.trans hclaim.id))
  rw [hclaim.version, hversion]
  exact Nat.lt_succ_self _

lemma run_finished (A : List JobCall) {r : Job} (hr : r ∈ Machine.run jobStep [] A)
    (hfin : r.state.finished) (B : List JobCall) : r ∈ Machine.run jobStep [] (A ++ B) := by
  induction B using List.reverseRecOn with
  | nil => rwa [append_nil]
  | append_singleton B c ih =>
    rw [← append_assoc, Machine.run_snoc]
    have hwf := (queue_run (A ++ B)).toJobsWf
    exact (jobStep_effect hwf c).finished hwf ih hfin

/-- The queue is fenced. After any calls, in any order and at any times, by workers that may hold
stale leases: a claim raises the lease version of its job above all earlier ones; a lease operation
that is answered holds the latest lease on its job; a finished job stays as it is whatever is called
next, and no other job takes its id; attempts stay within the bound; and the jobs that are not
cancelled differ in workspace or signature. -/
theorem jobs_fenced (H : List JobCall) :
    ((leases [] H).Pairwise fun c d => c.id = d.id → c.leaseVersion < d.leaseVersion) ∧
    (∀ call c, JobAnswer.lease (jobStep (Machine.run jobStep [] H) call).1 = some c →
      c ∈ (jobStep (Machine.run jobStep [] H) call).2 ∧
        ∀ r ∈ Machine.run jobStep [] H, r.id = c.id → r.leaseVersion < c.leaseVersion) ∧
    (∀ call l answer, call.needs = some l →
      (jobStep (Machine.run jobStep [] H) call).1 = .ok answer →
      ∃ c, latestLease l.jobId (leases [] H) = some c ∧ c.leaseOwner = l.owner ∧
        c.leaseVersion = l.version) ∧
    (∀ j ∈ Machine.run jobStep [] H, j.state.finished →
      ∀ B, ∀ r, r ∈ Machine.run jobStep [] (H ++ B) ∧ r.id = j.id ↔ r = j) ∧
    (∀ j ∈ Machine.run jobStep [] H, j.attempts ≤ j.maxAttempts) ∧
    (∀ j ∈ Machine.run jobStep [] H, ∀ r ∈ Machine.run jobStep [] H,
      j.state ≠ .cancelled → r.state ≠ .cancelled → j.workspaceId = r.workspaceId →
      j.conflictSignature = r.conflictSignature → j = r) := by
  have h := queue_run H
  refine ⟨h.increasing, fun call c hc => ?_, fun call l answer hl hok => ?_,
    fun j hj hfin B r => ?_,
    h.attempts, h.signatures⟩
  · exact (hc ▸ jobStep_effect h.toJobsWf call).raised h.toJobsWf
  · obtain ⟨r, hr, hheld⟩ := jobStep_held h.toJobsWf hl hok
    obtain ⟨hid, hleased, howner, hversion⟩ := JobTx.Lease.held_iff.1 hheld
    rw [← hid, ← howner, ← hversion]
    exact h.latest r hr hleased
  · have hB := queue_run (H ++ B)
    have hjB := run_finished H hj hfin B
    exact ⟨fun ⟨hr, hid⟩ => hB.eq_of_id hr hjB hid, by
      rintro rfl
      exact ⟨hjB, rfl⟩⟩

end runs

end GovStore
