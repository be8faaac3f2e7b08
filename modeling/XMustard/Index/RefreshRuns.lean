import XMustard.Index.RefreshQueue

/-! # No change is lost

A pushed change is pending, or it travels with the batch in flight, or a batch taken after the
push was refreshed with it. Failures, supersession and overflow only move changes between these
places. -/

namespace Index

open Machine Option

/-! ## What a batch and the pending set cover -/

/-- Refreshing the batch refreshes what the change touched. -/
def Batch.Covers (b : Batch) : Change → Prop
  | .path p => p ∈ b.paths ∨ b.full.isSome
  | .git => b.git
  | .full _ => b.full.isSome

namespace RefreshQueue

/-- The pending set covers the change. -/
def Holds (q : RefreshQueue) : Change → Prop
  | .path p => p ∈ q.paths ∨ q.full.isSome
  | .git => q.git
  | .full _ => q.full.isSome

/-- What is scheduled stays, what is pending grows, and the cap is kept. -/
structure Grows (q q' : RefreshQueue) : Prop where
  first : q'.first = q.first
  last : q'.last = q.last
  inFlight : q'.inFlight = q.inFlight
  nextId : q'.nextId = q.nextId
  failures : q'.failures = q.failures
  retryAt : q'.retryAt = q.retryAt
  keeps : ∀ c, q.Holds c → q'.Holds c
  card : q.paths.card ≤ MAX_PENDING_PATHS → q'.paths.card ≤ MAX_PENDING_PATHS

variable {q q' q₀ : RefreshQueue} {c d : Change} {b : Batch} {H : List QueueCall}

lemma nextBatch_covers : q.nextBatch.Covers c ↔ q.Holds c := by
  cases c with
  | path p => simp [Batch.Covers, Holds, nextBatch]
  | git | full => rfl

/-! ## Escalation and the cap -/

lemma escalate_grows (q : RefreshQueue) (r : FullReason) : q.Grows (q.escalate r) := by
  refine ⟨rfl, rfl, rfl, rfl, rfl, rfl, fun c h => ?_, fun _ => Nat.zero_le _⟩
  cases c with
  | path p => exact .inr rfl
  | git => exact h
  | full r => rfl

lemma capPaths_keeps (h : q.Holds c) : q.capPaths.Holds c := by
  unfold capPaths
  split
  · refine (escalate_grows _ _).keeps c ?_
    cases c <;> exact h
  · exact h

/-- More pending paths, up to the cap. -/
lemma grows_capPaths {paths : Finset String} (hsub : q.paths ⊆ paths) (counters : QueueCounters) :
    q.Grows { q with paths := paths, counters := counters }.capPaths := by
  have hkeeps (c : Change) (h : q.Holds c) :
      { q with paths := paths, counters := counters }.capPaths.Holds c := by
    apply capPaths_keeps
    cases c with
    | path p => exact h.imp_left (hsub ·)
    | git | full => exact h
  unfold capPaths at hkeeps ⊢
  split
  · next hover =>
    rw [if_pos hover] at hkeeps
    exact ⟨rfl, rfl, rfl, rfl, rfl, rfl, hkeeps, fun _ => Nat.zero_le _⟩
  · next hcap =>
    rw [if_neg hcap] at hkeeps
    exact ⟨rfl, rfl, rfl, rfl, rfl, rfl, hkeeps, fun _ => not_lt.1 hcap⟩

/-! ## Pushing -/

lemma absorb_grows (q : RefreshQueue) (c : Change) : q.Grows (q.absorb c) := by
  cases c with
  | path p =>
    simp only [absorb]
    split
    · exact grows_capPaths (Finset.subset_insert p q.paths) _
    · exact ⟨rfl, rfl, rfl, rfl, rfl, rfl, fun d h => by cases d <;> exact h, id⟩
  | git =>
    refine ⟨rfl, rfl, rfl, rfl, rfl, rfl, fun d h => ?_, id⟩
    cases d with
    | path x => exact h
    | git => rfl
    | full r => exact h
  | full r => exact escalate_grows q r

lemma absorb_holds (q : RefreshQueue) (c : Change) : (q.absorb c).Holds c := by
  cases c with
  | path p =>
    simp only [absorb]
    split
    · exact capPaths_keeps (.inl (Finset.mem_insert_self p q.paths))
    · next h => exact .inr (by simpa [isSome_iff_ne_none] using h)
  | git | full => rfl

/-- The fields a push leaves or sets, whatever is pushed. -/
lemma push_fields (q : RefreshQueue) (c : Change) (now : Instant) :
    (q.push c now).first = some (q.first.getD now) ∧ (q.push c now).last = some now ∧
      (q.push c now).inFlight = q.inFlight ∧ (q.push c now).nextId = q.nextId ∧
      ((q.push c now).failures = q.failures ∧ (q.push c now).retryAt = q.retryAt ∨
        (q.push c now).retryAt = none) := by
  have same := absorb_grows { q with counters.changes := q.counters.changes + 1 } c
  unfold push
  dsimp only
  split
  · refine ⟨?_, rfl, same.inFlight, same.nextId, .inr rfl⟩
    rw [same.first]
  · refine ⟨?_, rfl, same.inFlight, same.nextId, .inl ⟨same.failures, same.retryAt⟩⟩
    rw [same.first]

variable (now : Instant)

/-- What a push holds is what it absorbed. -/
lemma push_holds_iff : (q.push c now).Holds d ↔
    ({ q with counters.changes := q.counters.changes + 1 }.absorb c).Holds d := by
  unfold push
  dsimp only
  split <;> cases d <;> rfl

lemma push_holds (q : RefreshQueue) (c : Change) (now : Instant) : (q.push c now).Holds c :=
  (push_holds_iff now).2 (absorb_holds _ c)

lemma push_keeps (c : Change) (now : Instant) (h : q.Holds d) : (q.push c now).Holds d := by
  refine (push_holds_iff now).2 ((absorb_grows _ c).keeps d ?_)
  cases d <;> exact h

lemma push_card (c : Change) (now : Instant) (h : q.paths.card ≤ MAX_PENDING_PATHS) :
    (q.push c now).paths.card ≤ MAX_PENDING_PATHS := by
  have hcap := (absorb_grows { q with counters.changes := q.counters.changes + 1 } c).card h
  unfold push
  dsimp only
  split <;> exact hcap

/-! ## Putting a batch back -/

lemma restore_grows (q : RefreshQueue) (b : Batch) : q.Grows (q.restore b) := by
  unfold restore
  split
  · exact escalate_grows q _
  · split
    · exact grows_capPaths Finset.subset_union_left _
    · exact ⟨rfl, rfl, rfl, rfl, rfl, rfl, fun _ h => h, id⟩

/-- Everything but the Git flag is back with the paths. -/
lemma restore_holds (hc : c ≠ .git) (h : b.Covers c) : (q.restore b).Holds c := by
  unfold restore
  split
  · cases c with
    | path p => exact .inr rfl
    | git => exact absurd rfl hc
    | full r => rfl
  · next hfull =>
    cases c with
    | git => exact absurd rfl hc
    | full r => simp [Batch.Covers, hfull] at h
    | path p =>
      have hp : p ∈ b.paths := by simpa [Batch.Covers, hfull] using h
      split
      · exact capPaths_keeps (.inl (Finset.mem_union_right _ (List.mem_toFinset.2 hp)))
      · next hq => exact .inr (by simpa [isSome_iff_ne_none] using hq)

lemma mergeBack_keeps (b : Batch) (now : Instant) (h : q.Holds c) :
    (q.mergeBack b now).Holds c := by
  have hrest := (restore_grows q b).keeps c h
  cases c with
  | path p => exact hrest
  | git => exact Bool.or_eq_true_iff.2 (.inl hrest)
  | full r => exact hrest

lemma mergeBack_holds (h : b.Covers c) : (q.mergeBack b now).Holds c := by
  cases c with
  | path p => exact restore_holds (c := .path p) (by nofun) h
  | git => exact Bool.or_eq_true_iff.2 (.inr h)
  | full r => exact restore_holds (c := .full r) (by nofun) h

/-- The fields a batch put back leaves or sets. -/
lemma mergeBack_fields (q : RefreshQueue) (b : Batch) (now : Instant) :
    (q.mergeBack b now).first = some (q.first.getD now) ∧
      (q.mergeBack b now).last = some (q.last.getD now) ∧
      (q.mergeBack b now).inFlight = q.inFlight ∧ (q.mergeBack b now).nextId = q.nextId ∧
      (q.mergeBack b now).failures = q.failures ∧ (q.mergeBack b now).retryAt = q.retryAt := by
  have same := restore_grows q b
  refine ⟨?_, ?_, same.inFlight, same.nextId, same.failures, same.retryAt⟩
  · simp only [mergeBack, same.first]
  · simp only [mergeBack, same.last]

/-- A batch that was in flight is pending again once it is superseded. -/
lemma supersede_holds (h : q.Holds c ∨ ∃ b since, q.inFlight = some (b, since) ∧ b.Covers c) :
    (q.supersede now).Holds c := by
  unfold supersede
  split
  · next stale since hfly =>
    rcases h with h | ⟨b, _, hb, hcov⟩
    · apply mergeBack_keeps
      cases c <;> exact h
    · obtain ⟨rfl, rfl⟩ : stale = b ∧ _ := by simpa [hfly] using hb
      exact mergeBack_holds now hcov
  · next hfly =>
    rcases h with h | ⟨b, _, hb, -⟩
    · exact h
    · simp [hfly] at hb

lemma supersede_fields (q : RefreshQueue) (now : Instant) :
    (q.supersede now).nextId = q.nextId ∧ (q.supersede now).failures = q.failures ∧
      (q.supersede now).retryAt = q.retryAt := by
  unfold supersede
  split
  · obtain ⟨-, -, -, hid, hfail, hretry⟩ := mergeBack_fields
      { q with inFlight := none, counters.superseded := q.counters.superseded + 1 } _ now
    exact ⟨hid, hfail, hretry⟩
  · exact ⟨rfl, rfl, rfl⟩

lemma fail_holds (h : q.Holds c ∨ b.Covers c) : (q.fail b now).Holds c := by
  have hback : ({ q with
      counters.failures := q.counters.failures + 1
      failures := q.failures + 1 }.mergeBack b now).Holds c := by
    rcases h with h | h
    · apply mergeBack_keeps
      cases c <;> exact h
    · exact mergeBack_holds now h
  unfold fail
  dsimp only
  split <;> cases c <;> exact hback

/-- A failure restarts the backoff, or ends it when the queue gives up. -/
lemma fail_fields (q : RefreshQueue) (b : Batch) (now : Instant) :
    (q.fail b now).first = some (q.first.getD now) ∧
      (q.fail b now).last = some (q.last.getD now) ∧
      (q.fail b now).inFlight = q.inFlight ∧ (q.fail b now).nextId = q.nextId ∧
      ∀ r, (q.fail b now).retryAt = some r → r = now + backoff (q.fail b now).failures := by
  obtain ⟨hfirst, hlast, hfly, hid, -, -⟩ := mergeBack_fields { q with
    counters.failures := q.counters.failures + 1
    failures := q.failures + 1 } b now
  unfold fail
  dsimp only
  split
  · exact ⟨hfirst, hlast, hfly, hid, nofun⟩
  · exact ⟨hfirst, hlast, hfly, hid, fun r h => (some.inj h).symm⟩

lemma fail_card (b : Batch) (now : Instant) (h : q.paths.card ≤ MAX_PENDING_PATHS) :
    (q.fail b now).paths.card ≤ MAX_PENDING_PATHS := by
  have hcap := (restore_grows { q with
    counters.failures := q.counters.failures + 1
    failures := q.failures + 1 } b).card h
  unfold fail
  dsimp only
  split <;> exact hcap

/-! ## What one call can do -/

/-- The moves of a queue: how a call is answered and what it leaves. -/
inductive Move (q : RefreshQueue) : QueueCall → QueueAnswer → RefreshQueue → Prop
  | push (c : Change) (now : Instant) : Move q ⟨.push c, now⟩ .unit (q.push c now)
  | idle {call : QueueCall} {o : QueueAnswer} (refused : o = .batch none ∨ o = .flag false) :
    Move q call o q
  | launch (force : Bool) (now : Instant) :
    Move q ⟨.take force, now⟩ (.batch (some (q.supersede now).nextBatch))
      ((q.supersede now).launch now)
  | success {b : Batch} {since : Instant} (now : Instant) (flying : q.inFlight = some (b, since)) :
    Move q ⟨.finish b.id true, now⟩ (.flag true)
      { q with inFlight := none, failures := 0, retryAt := none }
  | failure {call : QueueCall} {b : Batch} {since : Instant}
    (flying : q.inFlight = some (b, since))
    (failed : call.op = .finish b.id false ∨ call.op = .expire) :
    Move q call (.flag true) ({ q with inFlight := none }.fail b call.now)

lemma finish_move (q : RefreshQueue) (id : Nat) (ok : Bool) (now : Instant) :
    q.Move ⟨.finish id ok, now⟩ (.flag (q.finish id ok now).1) (q.finish id ok now).2 := by
  unfold finish
  split
  · exact .idle (.inr rfl)
  · next b since hfly =>
    split_ifs with hid hok
    · exact .idle (.inr rfl)
    · obtain rfl := not_not.1 hid
      subst hok
      exact .success now hfly
    · obtain rfl := not_not.1 hid
      obtain rfl := Bool.eq_false_iff.2 hok
      exact .failure hfly (.inl rfl)

lemma expire_move (q : RefreshQueue) (now : Instant) :
    q.Move ⟨.expire, now⟩ (.flag (q.expire now).1) (q.expire now).2 := by
  unfold expire
  split
  · exact .idle (.inr rfl)
  · next b since hfly =>
    split_ifs with hlate
    · have hfin : q.finish b.id false now = (true, { q with inFlight := none }.fail b now) := by
        simp [finish, hfly]
      rw [hfin]
      exact .failure hfly (.inr rfl)
    · exact .idle (.inr rfl)

lemma step_move (q : RefreshQueue) (call : QueueCall) :
    q.Move call (q.step call).1 (q.step call).2 := by
  obtain ⟨op, now⟩ := call
  cases op with
  | push c => exact .push c now
  | take force =>
    simp only [step, take]
    split
    · exact .idle (.inl rfl)
    · exact .launch force now
  | finish id ok => exact finish_move q id ok now
  | expire => exact expire_move q now

/-! ## Where a pushed change is -/

/-- A batch taken in `H` covered the change and was finished with success in `H`. -/
def Refreshed (q₀ : RefreshQueue) (H : List QueueCall) (c : Change) : Prop :=
  ∃ b A t B f C, b.Covers c ∧ Event step q₀ H A t (.batch (some b)) (B ++ f :: C) ∧
    f.op = .finish b.id true ∧ Event step q₀ H (A ++ t :: B) f (.flag true) C

/-- After the calls of `H` the change is pending, or in flight with a batch taken in `H`, or
refreshed. -/
def Kept (q₀ : RefreshQueue) (H : List QueueCall) (c : Change) : Prop :=
  (run step q₀ H).Holds c ∨
    (∃ b since A t B, (run step q₀ H).inFlight = some (b, since) ∧ b.Covers c ∧
      Event step q₀ H A t (.batch (some b)) B) ∨
    Refreshed q₀ H c

lemma Refreshed.snoc (h : Refreshed q₀ H c) (call : QueueCall) :
    Refreshed q₀ (H ++ [call]) c := by
  obtain ⟨b, A, t, B, f, C, hcov, htake, hop, hfin⟩ := h
  refine ⟨b, A, t, B, f, C ++ [call], hcov, ?_, hop, hfin.snoc call⟩
  simpa using htake.snoc call

/-- One more call keeps the change. -/
lemma Kept.snoc (h : Kept q₀ H c) (call : QueueCall) : Kept q₀ (H ++ [call]) c := by
  have hmove := step_move (run step q₀ H) call
  unfold Kept
  rw [run_snoc]
  generalize (step (run step q₀ H) call).2 = q', hans' : (step (run step q₀ H) call).1 = o
    at hmove
  rcases h with hpend | ⟨b, since, A, t, B, hfly, hcov, htake⟩ | hdone
  · cases hmove with
    | push d now => exact .inl (push_keeps d now hpend)
    | idle => exact .inl hpend
    | launch force now =>
      exact .inr (.inl ⟨_, now, _, _, _, rfl,
        nextBatch_covers.2 (supersede_holds now (.inl hpend)), event_last hans'⟩)
    | success now => exact .inl (by cases c <;> exact hpend)
    | failure => exact .inl (fail_holds _ (.inl (by cases c <;> exact hpend)))
  · cases hmove with
    | push d now =>
      refine .inr (.inl ⟨b, since, A, t, _, ?_, hcov, htake.snoc _⟩)
      rw [(push_fields _ d now).2.2.1, hfly]
    | idle => exact .inr (.inl ⟨b, since, A, t, _, hfly, hcov, htake.snoc _⟩)
    | launch force now =>
      have hheld := supersede_holds (q := run step q₀ H) now (.inr ⟨b, since, hfly, hcov⟩)
      exact .inr (.inl ⟨_, now, _, _, _, rfl, nextBatch_covers.2 hheld, event_last hans'⟩)
    | success now hfly' =>
      obtain ⟨rfl, rfl⟩ : b = _ ∧ since = _ := by simpa [hfly] using hfly'
      refine .inr (.inr ⟨b, A, t, B, _, [], hcov, htake.snoc _, rfl, ?_⟩)
      rw [← htake.split]
      exact event_last hans'
    | failure hfly' =>
      obtain ⟨rfl, rfl⟩ : b = _ ∧ since = _ := by simpa [hfly] using hfly'
      exact .inl (fail_holds _ (.inr hcov))
  · exact .inr (.inr (hdone.snoc call))

/-- A change is kept from its push on. -/
lemma kept_since_push (q : RefreshQueue) (c : Change) (now : Instant) (H : List QueueCall) :
    Kept (q.push c now) H c := by
  induction H using List.reverseRecOn with
  | nil => exact .inl (push_holds q c now)
  | append_singleton H call ih => exact ih.snoc call

/-! ## Batch ids -/

variable {call : QueueCall} {o : QueueAnswer} {id : Nat}

lemma Move.nextId_mono (h : q.Move call o q') : q.nextId ≤ q'.nextId := by
  cases h with
  | push c now => rw [(push_fields q c now).2.2.2.1]
  | idle => exact le_rfl
  | launch force now =>
    have hid := (supersede_fields q now).1
    exact hid ▸ Nat.le_succ _
  | success => exact le_rfl
  | failure => rw [(fail_fields _ _ _).2.2.2.1]

lemma nextId_run (q : RefreshQueue) (H : List QueueCall) :
    q.nextId ≤ (run step q H).nextId :=
  run_preserves (P := fun q' => q.nextId ≤ q'.nextId)
    (fun q' call h => h.trans (step_move q' call).nextId_mono) le_rfl H

/-- A taken batch gets the next id. -/
lemma Move.taken_id (h : q.Move call (.batch (some b)) q') :
    b.id = q.nextId + 1 ∧ q'.nextId = b.id := by
  cases h with
  | idle hrefused => simp at hrefused
  | launch force now =>
    have hid := (supersede_fields q now).1
    exact ⟨congrArg (· + 1) hid, rfl⟩

/-- Batch ids strictly increase. -/
lemma taken_id_lt {A M B : List QueueCall} {t u : QueueCall} {b' : Batch}
    (h : Event step q₀ H A t (.batch (some b)) (M ++ u :: B))
    (h' : Event step q₀ H (A ++ t :: M) u (.batch (some b')) B) : b.id < b'.id := by
  have hnext := (h.answer ▸ step_move (run step q₀ A) t).taken_id.2
  have hid' := (h'.answer ▸ step_move (run step q₀ (A ++ t :: M)) u).taken_id.1
  have hmono := nextId_run (step (run step q₀ A) t).2 M
  rw [run_append, run_cons] at hid'
  omega

/-! ## Finishing -/

/-- Only the batch in flight can be finished; for any other nothing changes. -/
lemma finish_other (h : ∀ b since, q.inFlight = some (b, since) → b.id ≠ id)
    (ok : Bool) (now : Instant) : q.finish id ok now = (false, q) := by
  unfold finish
  split
  · rfl
  · next b since hfly => rw [if_pos (h b since hfly)]

variable {now : Instant}

lemma finish_answer {ok : Bool} (h : (q.finish id ok now).1 = true) :
    ∃ b since, q.inFlight = some (b, since) ∧ b.id = id := by
  by_contra hnone
  rw [finish_other (fun b since hb hid => hnone ⟨b, since, hb, hid⟩)] at h
  exact Bool.false_ne_true h

/-! ## When the pending changes are due -/

lemma Move.card_le (hmove : q.Move call o q')
    (h : q.paths.card ≤ MAX_PENDING_PATHS) : q'.paths.card ≤ MAX_PENDING_PATHS := by
  cases hmove with
  | push c now => exact push_card c now h
  | idle => exact h
  | launch => exact Nat.zero_le _
  | success => exact h
  | failure => exact fail_card _ _ h

/-- Something has been pending since the call made at `now`, and nothing was before it. -/
def PendingSince (q₀ : RefreshQueue) (H : List QueueCall) (now : Instant) : Prop :=
  ∃ A call B, H = A ++ call :: B ∧ call.now = now ∧ (run step q₀ A).pending = false ∧
    ∀ C, C <+: B → (run step q₀ (A ++ call :: C)).pending

/-- A call that put the batch in flight back. -/
def Failure (q₀ : RefreshQueue) (H A : List QueueCall) (call : QueueCall) (B : List QueueCall) :
    Prop :=
  Event step q₀ H A call (.flag true) B ∧
    (call.op = .expire ∨ ∃ id, call.op = .finish id false)

/-- The last failure: the backoff ending at `r` follows it. -/
def BackoffEnds (q₀ : RefreshQueue) (H : List QueueCall) (r : Instant) : Prop :=
  ∃ A call B, Failure q₀ H A call B ∧
    (∀ A' call' B', Failure q₀ H A' call' B' → B.length ≤ B'.length) ∧
    r = call.now + backoff (run step q₀ H).failures

/-- What the schedule of a queue says about the calls made so far. -/
structure Scheduled (q₀ : RefreshQueue) (H : List QueueCall) (q : RefreshQueue) : Prop where
  last : q.last.isSome = q.first.isSome
  first : ∀ now, q.first = some now → PendingSince q₀ H now
  retryAt : ∀ r, q.retryAt = some r → BackoffEnds q₀ H r

lemma PendingSince.snoc (h : PendingSince q₀ H now) (call : QueueCall)
    (hpend : (run step q₀ (H ++ [call])).pending) : PendingSince q₀ (H ++ [call]) now := by
  obtain ⟨A, c₀, B, rfl, hnow, hnone, hsome⟩ := h
  refine ⟨A, c₀, B ++ [call], by simp, hnow, hnone, fun C hC => ?_⟩
  rcases List.prefix_concat_iff.1 hC with rfl | hC
  · simpa using hpend
  · exact hsome C hC

/-- A call that leaves something pending either found it pending or is its first. -/
lemma pendingSince_of_first (hfirst : ∀ now, (run step q₀ H).first = some now →
      PendingSince q₀ H now)
    (h : (run step q₀ (H ++ [call])).first = some ((run step q₀ H).first.getD call.now)) :
    ∀ now, (run step q₀ (H ++ [call])).first = some now → PendingSince q₀ (H ++ [call]) now := by
  rintro now hnow
  have hpend : (run step q₀ (H ++ [call])).pending := by simp [pending, h]
  obtain rfl : (run step q₀ H).first.getD call.now = now := by simpa [h] using hnow
  cases hq : (run step q₀ H).first with
  | some t => exact (hfirst t hq).snoc call hpend
  | none =>
    refine ⟨H, call, [], rfl, rfl, by simp [pending, hq], fun C hC => ?_⟩
    obtain rfl := List.prefix_nil.1 hC
    exact hpend

lemma BackoffEnds.snoc {r : Instant} (h : BackoffEnds q₀ H r)
    (hanswer : (step (run step q₀ H) call).1 ≠ .flag true)
    (hsame : (run step q₀ (H ++ [call])).failures = (run step q₀ H).failures) :
    BackoffEnds q₀ (H ++ [call]) r := by
  obtain ⟨A, f, B, ⟨hev, hop⟩, hlast, rfl⟩ := h
  refine ⟨A, f, B ++ [call], ⟨hev.snoc call, hop⟩, ?_, by rw [hsame]⟩
  rintro A' f' B' ⟨hev', hop'⟩
  rcases hev'.of_snoc with ⟨rfl, rfl⟩ | ⟨B'', rfl, hev''⟩
  · obtain rfl : call = f' := by simpa using hev'.split
    exact absurd hev'.answer hanswer
  · simpa using hlast A' f' B'' ⟨hev'', hop'⟩

lemma Scheduled.snoc (h : Scheduled q₀ H (run step q₀ H)) (call : QueueCall) :
    Scheduled q₀ (H ++ [call]) (run step q₀ (H ++ [call])) := by
  have hmove := step_move (run step q₀ H) call
  rw [← run_snoc] at hmove
  generalize hans : (step (run step q₀ H) call).1 = o, hq : run step q₀ (H ++ [call]) = q
    at hmove
  obtain ⟨hlast, hfirst, hretry⟩ := h
  cases hmove with
  | push c now =>
    obtain ⟨hf, hl, -, -, hr⟩ := push_fields (run step q₀ H) c now
    refine ⟨by rw [hf, hl]; rfl, ?_, fun r hr' => ?_⟩
    · rw [← hq]
      exact pendingSince_of_first hfirst (hq ▸ hf)
    · rcases hr with ⟨hfail, hsame⟩ | hnone
      · exact (hretry r (hsame ▸ hr')).snoc (by simp [hans]) (hq ▸ hfail)
      · simp [hnone] at hr'
  | idle hrefused =>
    have hanswer : (step (run step q₀ H) call).1 ≠ .flag true := by
      rcases hrefused with rfl | rfl <;> simp [hans]
    refine ⟨hlast, fun now hnow => ?_, fun r hr => (hretry r hr).snoc hanswer (by rw [hq])⟩
    exact (hfirst now hnow).snoc _ (by simp [hq, pending, hnow])
  | launch force now =>
    obtain ⟨-, hfail, hr⟩ := supersede_fields (run step q₀ H) now
    refine ⟨rfl, nofun, fun r hr' => ?_⟩
    exact (hretry r (hr ▸ hr')).snoc (by simp [hans]) (by rw [hq]; exact hfail)
  | success now =>
    refine ⟨hlast, fun t ht => ?_, nofun⟩
    exact (hfirst t ht).snoc _ (by simpa [hq, pending] using isSome_of_eq_some ht)
  | failure hfly hop =>
    obtain ⟨hf, hl, -, -, hr⟩ := fail_fields { run step q₀ H with inFlight := none } _ call.now
    refine ⟨by rw [hf, hl]; rfl, ?_, fun r hr' => ?_⟩
    · rw [← hq]
      exact pendingSince_of_first hfirst (hq ▸ hf)
    · refine ⟨H, call, [], ⟨event_last hans, ?_⟩, fun _ _ _ _ => Nat.zero_le _, hq ▸ hr r hr'⟩
      exact hop.symm.imp_right fun h => ⟨_, h⟩

lemma scheduled (H : List QueueCall) : Scheduled new H (run step new H) := by
  induction H using List.reverseRecOn with
  | nil => exact ⟨rfl, nofun, nofun⟩
  | append_singleton H call ih => exact ih.snoc call

/-- The deadline of the pending changes: the debounce can delay them to `MAX_WAIT` after they
began to be pending, and the backoff to its end. -/
lemma dueAt_le (hfly : q.inFlight = none) (hgave : q.gaveUp = false)
    (hlast : q.last.isSome = q.first.isSome) (hfirst : q.first = some now) :
    ∃ due, q.dueAt = some due ∧ (due ≤ now + MAX_WAIT ∨ ∃ r, q.retryAt = some r ∧ due ≤ r) := by
  obtain ⟨last, hl⟩ := isSome_iff_exists.1 (hlast.trans (by rw [hfirst]; rfl))
  have hmin : min (last + DEBOUNCE) (now + MAX_WAIT) ≤ now + MAX_WAIT := min_le_right _ _
  cases hr : q.retryAt with
  | none => exact ⟨_, by simp [dueAt, hfly, hgave, hl, hfirst, hr], .inl hmin⟩
  | some r =>
    refine ⟨_, by simp [dueAt, hfly, hgave, hl, hfirst, hr]; rfl, ?_⟩
    rcases le_total (min (last + DEBOUNCE) (now + MAX_WAIT)) r with hle | hle
    · exact .inr ⟨r, rfl, by rw [max_eq_right hle]⟩
    · exact .inl (by rw [max_eq_left hle]; exact hmin)

end RefreshQueue

open RefreshQueue

/-- After every sequence of calls: each pushed change is pending, in flight or refreshed by a
batch taken since; at most one batch can be finished, ids strictly increase, the pending paths are
capped and finishing any other batch changes nothing; and what is pending is due at the latest
`MAX_WAIT` after it began to be pending (by a push or by a failed batch put back) or when the
backoff after the last failure ends. -/
theorem refreshQueue_keeps_changes (H : List QueueCall) :
    (∀ A c now B, H = A ++ ⟨.push c, now⟩ :: B →
      Kept (run step new (A ++ [⟨.push c, now⟩])) B c) ∧
    (∀ id id' ok ok' now now', ((run step new H).finish id ok now).1 = true →
      ((run step new H).finish id' ok' now').1 = true → id = id') ∧
    (∀ A t M u B b b', Event step new H A t (.batch (some b)) (M ++ u :: B) →
      Event step new H (A ++ t :: M) u (.batch (some b')) B → b.id < b'.id) ∧
    (run step new H).paths.card ≤ MAX_PENDING_PATHS ∧
    (∀ id ok now, (∀ b since, (run step new H).inFlight = some (b, since) → b.id ≠ id) →
      (run step new H).finish id ok now = (false, run step new H)) ∧
    ((run step new H).inFlight = none → (run step new H).gaveUp = false →
      (run step new H).pending →
      ∃ due now, (run step new H).dueAt = some due ∧ PendingSince new H now ∧
        (due ≤ now + MAX_WAIT ∨ ∃ r, BackoffEnds new H r ∧ due ≤ r)) := by
  refine ⟨?_, ?_, ?_, ?_, ?_, ?_⟩
  · rintro A c now B -
    rw [run_snoc]
    exact kept_since_push _ c now B
  · intro id id' ok ok' now now' h h'
    obtain ⟨b, since, hb, rfl⟩ := finish_answer h
    obtain ⟨b', since', hb', rfl⟩ := finish_answer h'
    obtain ⟨rfl, -⟩ : b = b' ∧ since = since' := by simpa [hb] using hb'
    rfl
  · intro A t M u B b b' h h'
    exact taken_id_lt h h'
  · have hnew : new.paths.card ≤ MAX_PENDING_PATHS := Nat.zero_le _
    exact run_preserves (P := fun q => q.paths.card ≤ MAX_PENDING_PATHS)
      (fun q call => (step_move q call).card_le) hnew H
  · intro id ok now h
    exact finish_other h ok now
  · intro hfly hgave hpend
    obtain ⟨now, hnow⟩ := isSome_iff_exists.1 hpend
    obtain ⟨due, hdue, hle⟩ := dueAt_le hfly hgave (scheduled H).last hnow
    refine ⟨due, now, hdue, (scheduled H).first now hnow, hle.imp_right ?_⟩
    rintro ⟨r, hr, hdr⟩
    exact ⟨r, (scheduled H).retryAt r hr, hdr⟩

/-- A batch fails ten seconds after it was taken, and edits go on after the failure. -/
def busyRetry : List QueueCall :=
  [⟨.push (.path "a.go"), 0⟩, ⟨.take true, 0⟩, ⟨.finish 1 false, Duration.fromSecs 10⟩,
    ⟨.push (.path "b.go"), Duration.fromMillis 10300⟩,
    ⟨.push (.path "b.go"), Duration.fromMillis 10600⟩,
    ⟨.push (.path "b.go"), Duration.fromMillis 10800⟩]

/-- Counted from the push of its first change the deadline does not hold: the failure put a path
back that was pushed ten seconds earlier, the backoff has ended, and the debounce of the later
edits still holds the batch up. -/
theorem busyRetry_due_late : (busyRetry.map QueueCall.now).Pairwise (· ≤ ·) ∧
    busyRetry.head? = some ⟨.push (.path "a.go"), 0⟩ ∧
    (run step new busyRetry).inFlight = none ∧ (run step new busyRetry).gaveUp = false ∧
    "a.go" ∈ (run step new busyRetry).paths ∧
    (run step new busyRetry).retryAt = some (Duration.fromMillis 10500) ∧
    (run step new busyRetry).dueAt = some (Duration.fromSecs 11) ∧
    max (0 + MAX_WAIT) (Duration.fromMillis 10500) < Duration.fromSecs 11 := by
  decide +kernel

end Index
