import XMustard.Evidence.Accounting

/-!
# The quotas along every interleaving

Each critical section is accounted for by `Moves`: it keeps the pending bytes at or above those of
the open spools, exactly there unless a write falls short, and the counters between what is on disk
and the quotas unless a file operation fails whose success the counters rely on.
-/

namespace Evidence

open List Program Relation Along

variable {l : Limits} {s s' s'' : State} {clean full : Prop} {i : Nat} {sp : Spool}
  {key : String} {obs : Observation} {req : CaptureRequest} {now : Time} {readable : Bool}
  {evs : List Event}

/-! ### What a critical section may do -/

/-- A change under the conditions `clean` on the files of the originals and `full` on those of the
spools. -/
structure Moves (l : Limits) (clean full : Prop) (s s' : State) : Prop where
  covered : openBytes s.spools ≤ s.pending → openBytes s'.spools ≤ s'.pending
  exactly : full → openBytes s.spools = s.pending → openBytes s'.spools = s'.pending
  within : clean → openBytes s.spools ≤ s.pending → Within l s → Within l s'

/-- A change that leaves the bytes of the spools alone. -/
structure Quiet (l : Limits) (clean : Prop) (s s' : State) : Prop where
  within : clean → Within l s → Within l s'
  pending : s'.pending = s.pending
  core : s'.spools.map Spool.core = s.spools.map Spool.core

lemma Quiet.refl (s : State) : Quiet l clean s s := ⟨fun _ h => h, rfl, rfl⟩

lemma Quiet.trans (h : Quiet l clean s s') (h' : Quiet l clean s' s'') : Quiet l clean s s'' :=
  ⟨fun hc hs => h'.within hc (h.within hc hs), h'.pending.trans h.pending, h'.core.trans h.core⟩

lemma Quiet.of_chain (h : ReflTransGen (Quiet l clean) s s') : Quiet l clean s s' := by
  induction h with
  | refl => exact .refl s
  | tail _ hlast ih => exact ih.trans hlast

lemma Quiet.moves (h : Quiet l clean s s') : Moves l clean full s s' := by
  have hbytes := openBytes_of_core h.core
  refine ⟨fun hs => ?_, fun _ hs => ?_, fun hc _ hs => h.within hc hs⟩
  · rwa [hbytes, h.pending]
  · rwa [hbytes, h.pending]

lemma Within.congr (hs : Within l s) (hdirs : s'.dirs = s.dirs)
    (hcounter : ∀ k, s'.counter k = s.counter k) : Within l s' := by
  intro k
  rw [hdirs, hcounter k]
  exact hs k

/-- A change of the originals and their counters. -/
lemma Moves.files (hpending : s'.pending = s.pending) (hspools : s'.spools = s.spools)
    (h : clean → Within l s → Within l s') : Moves l clean full s s' :=
  Quiet.moves ⟨h, hpending, by rw [hspools]⟩

/-- A change of the spools and the pending bytes. -/
lemma Moves.spools {pending : Nat} {spools : List Spool}
    (hcovered : openBytes s.spools ≤ s.pending → openBytes spools ≤ pending)
    (hexactly : full → openBytes s.spools = s.pending → openBytes spools = pending) :
    Moves l clean full s { s with pending := pending, spools := spools } :=
  ⟨hcovered, hexactly, fun _ _ hs => hs.congr rfl fun k => by cases k <;> rfl⟩

lemma setSpool_moves {f : Spool → Spool} (hf : ∀ sp, (f sp).core = sp.core) :
    (setSpool i f).Steps (Moves l clean full) := by
  refine .write fun s => Moves.spools (fun hs => ?_) fun _ hs => ?_
  · rwa [openBytes_of_core (core_modify hf)]
  · rwa [openBytes_of_core (core_modify hf)]

lemma spool_eq_ok (h : (spool i s).1 = .ok sp) :
    s.spools[i]? = some sp ∧ sp.discarded = false ∧ sp.writing = 0 := by
  simp only [spool, query_apply] at h
  split at h
  · next x hx =>
    split at h
    · next hready =>
      cases h
      exact ⟨hx, by simpa [Spool.ready] using hready⟩
    · cases h
  · cases h

/-! ### Room under the quotas -/

lemma retainedLocked_quiet {w : Sweep} (hw : clean → w.Clean) (rescan : Bool) (s : State) :
    Along (Quiet l clean) s s (retainedLocked w rescan) fun used s' => used = s'.used := by
  refine bind_query fun a ha => ?_
  cases ha
  split
  · exact Along.pure .refl rfl
  · refine bind_ensure fun _ => bind_write ?_
    have hstep : Quiet l clean s (s.rescan w) := ⟨fun hc hs => hs.rescan (hw hc), rfl, rfl⟩
    refine .restart (.single hstep) (bind_query fun a ha => ?_)
    cases ha
    exact Along.pure .refl rfl

section room

variable {w w' : Sweep} (hw : clean → w.Clean) (hw' : clean → w'.Clean)
  {refuse : State → Nat → String} {note : String → Op Unit}
  (hnote : ∀ why s, ∃ spools, note why s = (.ok (), { s with spools := spools })
    ∧ spools.map Spool.core = s.spools.map Spool.core)
  (hrefuse : ∀ s spools used, refuse { s with spools := spools } used = refuse s used)
include hw hw' hnote hrefuse

/-- Where room is found, nothing is refused any more. -/
lemma makeRoom_quiet (s : State) :
    Along (Quiet l clean) s s (makeRoom refuse note w w') fun _ s' => refuse s' s'.used = "" := by
  have hquiet (s : State) {spools : List Spool}
      (h : spools.map Spool.core = s.spools.map Spool.core) :
      Quiet l clean s { s with spools := spools } :=
    ⟨fun _ hs => hs.congr rfl fun k => by cases k <;> rfl, rfl, h⟩
  refine bind_of (retainedLocked_quiet hw false s) fun used s₁ _ hused => ?_
  subst hused
  refine bind_query fun a ha => ?_
  cases ha
  obtain ⟨spools, hrun, hcore⟩ := hnote (refuse s₁ s₁.used) s₁
  refine bind_ok hrun (Along.restart (.single (hquiet s₁ hcore)) ?_)
  unfold when
  split
  · refine bind_of (retainedLocked_quiet hw' true _) fun used s₂ _ hused => ?_
    subst hused
    refine bind_query fun a ha => ?_
    cases ha
    obtain ⟨spools', hrun', hcore'⟩ := hnote (refuse s₂ s₂.used) s₂
    refine bind_ok hrun' (Along.ensure (.single (hquiet s₂ hcore')) fun h => ?_)
    rw [hrefuse]
    exact h
  · next h =>
    refine Along.pure .refl ?_
    rw [hrefuse]
    exact not_not.1 h

lemma makeRoom_moves (s : State) :
    Along (Moves l clean full) s s (makeRoom refuse note w w') fun _ s' =>
      Quiet l clean s s' ∧ refuse s' s'.used = "" := by
  have h := makeRoom_quiet (l := l) hw hw' hnote hrefuse s
  have hquiet := Quiet.of_chain h.1
  exact ⟨.single hquiet.moves, fun a ha => ⟨hquiet, h.2 a ha⟩⟩

end room

/-! ### Spool writes -/

lemma newSpool_moves (cls : RetentionClass) (upstream : Bool) :
    (newSpool cls upstream).Steps (Moves l clean full) := by
  have hbytes (spools : List Spool) :
      openBytes (spools ++ [⟨0, 0, false, false, false, cls, upstream, ""⟩])
        = openBytes spools := by
    simp [openBytes, Spool.bytes]
  refine .write fun s => Moves.spools (fun hs => ?_) fun _ hs => ?_
  · rwa [hbytes]
  · rwa [hbytes]

/-- Bytes are pending as soon as they are being written. -/
lemma beginWrite_moves (n : Nat) {w w' : Sweep} (hw : clean → w.Clean) (hw' : clean → w'.Clean) :
    (beginWrite l i n w w').Steps (Moves l clean full) := by
  intro s
  refine bind_query fun sp hsp => ?_
  obtain ⟨hi, hopen, hidle⟩ := spool_eq_ok hsp
  split
  · exact Along.pure .refl trivial
  split
  · refine setSpool_moves (fun sp => ?_) s
    rfl
  -- the bytes are admitted and recorded in the spool together
  have hadmit (s' : State) (hs' : Quiet l clean s s') :
      Along (Moves l clean full) s' s'
        (do
          write fun s => { s with pending := s.pending + n }
          setSpool i fun sp => { sp with writing := n }) fun _ _ => True := by
    obtain ⟨sp', hi', hcore⟩ := getElem?_of_core hs'.core hi
    simp only [Spool.core, Prod.mk.injEq, hopen, hidle] at hcore
    have hsum := openBytes_modify (f := fun sp => { sp with writing := n }) hi'
    simp only [Spool.bytes, hcore.2.1, hcore.2.2, Bool.false_eq_true, if_false] at hsum
    refine bind_write (Along.write (.single (Moves.spools (fun hs => ?_) fun _ hs => ?_)) trivial)
    · show openBytes (s'.spools.modify i _) ≤ s'.pending + n
      omega
    · show openBytes (s'.spools.modify i _) = s'.pending + n
      omega
  refine Along.tryCatch ?_ fun e s' h => Along.restart h (setSpool_moves (fun sp => ?_) s')
  · rw [admitPending, bind_assoc]
    refine bind_query fun sp' hsp' => ?_
    rw [bind_assoc]
    have hroom : Along (Moves l clean full) s s
        (when (sp'.n + n > l.projectionTarget)
          (makeRoom (fun s used => l.refusal s.pending s.byClass sp'.cls sp'.upstream used sp'.n n)
            (fun why => setSpool i fun sp => { sp with refused := why }) w w'))
        fun _ s' => Quiet l clean s s' := by
      unfold when
      split
      · refine (makeRoom_moves hw hw' (fun why s => ?_) (fun _ _ _ => rfl) s).conseq
          fun _ _ h => h.1
        exact ⟨_, rfl, core_modify fun _ => rfl⟩
      · exact Along.pure .refl (.refl s)
    exact bind_of hroom fun _ s' _ hs' => hadmit s' hs'
  · rfl

lemma endWrite_moves (short : Option Nat) (hfull : full → short = none) :
    (endWrite i short).Steps (Moves l clean full) := by
  have hle (sp : Spool) : (short.elim sp.writing fun k => min k sp.writing) ≤ sp.writing := by
    cases short with
    | none => exact le_refl _
    | some k => exact Nat.min_le_right k sp.writing
  refine .write fun s => Moves.spools (fun hs => ?_) fun hf hs => ?_
  · refine le_trans (openBytes_modify_le fun sp => ?_) hs
    have := hle sp
    simp only [Spool.bytes]
    split <;> omega
  · cases hfull hf
    rw [← hs]
    refine openBytes_modify_eq fun sp => ?_
    simp only [Spool.bytes, Option.elim_none]
    split <;> omega

lemma discard_moves : (discard i).Steps (Moves l clean full) := by
  intro s
  refine bind_query fun sp hsp => ?_
  obtain ⟨hi, hopen, hidle⟩ := spool_eq_ok hsp
  have hsum := openBytes_modify (f := fun sp => { sp with discarded := true }) hi
  simp only [Spool.bytes, hopen, hidle, Bool.false_eq_true, if_false, if_true] at hsum
  refine bind_write (Along.write (.single (Moves.spools (fun hs => ?_) fun _ hs => ?_)) trivial)
  · show openBytes (s.spools.modify i _) ≤ s.pending - sp.n
    omega
  · show openBytes (s.spools.modify i _) = s.pending - sp.n
    omega

/-! ### Captures -/

/-- Where the bytes and then the metadata are put in a fresh directory. -/
lemma storeOriginal_spec (key : String) (obs : Observation) (files : CaptureFiles) (s : State) :
    (∃ u, storeOriginal key obs files s
      = (.ok u, { s with dirs := s.dirs ++ [⟨key, some obs, !obs.upstream⟩] }))
    ∨ ∃ e dirs, storeOriginal key obs files s = (.error e, { s with dirs := dirs })
      ∧ ∀ p, held p dirs ≤ held p s.dirs := by
  have hempty (p : Observation → Bool) (raw : Bool) :
      held p (removeAll key files.cleanup (s.dirs ++ [⟨key, none, raw⟩])) ≤ held p s.dirs := by
    refine (held_removeAll_le _).trans (le_of_eq ?_)
    rw [held_append, held_cons, Dir.held_of_none rfl, held_nil, Nat.add_zero]
  unfold storeOriginal
  rw [ensure_bind_apply]
  split
  · rw [get, bind_apply_ok (query_apply Except.ok s), ensure_bind_apply]
    split
    · next hmade =>
      rw [write_bind_apply]
      split
      · exact .inr ⟨_, _, rfl, fun p => hempty p false⟩
      · beta_reduce
        rw [write_bind_apply]
        split
        · refine .inr ⟨_, _, rfl, fun p => ?_⟩
          rw [updateDir_fresh _ hmade.2 rfl]
          exact hempty p _
        · have hdirs : updateDir key (fun d => { d with obs := some obs })
              (updateDir key (fun d => { d with raw := !obs.upstream })
                (s.dirs ++ [⟨key, none, false⟩]))
              = s.dirs ++ [⟨key, some obs, !obs.upstream⟩] := by
            rw [updateDir_fresh _ hmade.2 rfl, updateDir_fresh _ hmade.2 rfl]
          exact .inl ⟨(), congrArg (fun dirs => (Except.ok (), { s with dirs := dirs })) hdirs⟩
    · exact .inr ⟨_, s.dirs, rfl, fun _ => le_refl _⟩
  · exact .inr ⟨_, s.dirs, rfl, fun _ => le_refl _⟩

/-- What is not refused fits the quotas. -/
lemma room_of_refusal (hs : Within l s)
    (hroom : l.refusal s.pending s.byClass (req.observation l sp now).retentionClass sp.upstream
      s.used sp.n ((req.observation l sp now).charge - sp.n) = "")
    (hpending : sp.n ≤ s.pending) {k : Option RetentionClass}
    (hk : inClass k (req.observation l sp now)) :
    s.counter k + (req.observation l sp now).charge ≤ l.quota k := by
  obtain ⟨hworkspace, hclass⟩ := refusal_eq_empty hroom
  cases k with
  | none =>
    show s.used + _ ≤ l.workspaceQuota
    omega
  | some c =>
    obtain rfl : (req.observation l sp now).retentionClass = c := by simpa [inClass] using hk
    cases hup : sp.upstream with
    | false =>
      have := hclass hup
      show s.byClass _ + _ ≤ l.classQuota _
      omega
    | true =>
      -- a reference is held by the client and charges nothing
      have hfree : (req.observation l sp now).charge = 0 := by
        simp [Observation.charge, CaptureRequest.observation, hup]
      rw [hfree]
      exact (hs (some _)).2

/-- The charge of a captured original takes the place of the bytes of its spool. -/
lemma capture_moves {w w' : Sweep} {files : CaptureFiles}
    (hw : clean → w.Clean) (hw' : clean → w'.Clean) :
    (capture l i key req now w w' files).Steps (Moves l clean full) := by
  intro s
  refine bind_query fun sp hsp => ?_
  obtain ⟨hi, hopen, hidle⟩ := spool_eq_ok hsp
  refine bind_ensure fun _ => bind_ensure fun _ =>
    bind_ensure fun _ => ?_
  refine bind_of (makeRoom_moves hw hw' (fun _ s => ⟨s.spools, rfl, rfl⟩) (fun _ _ _ => rfl) s)
    fun _ s₁ _ hroom => ?_
  obtain ⟨hquiet, hroom⟩ := hroom
  refine bind_ensure fun _ => ?_
  obtain ⟨u, hrun⟩ | ⟨e, dirs, hrun, hdirs⟩ :=
    storeOriginal_spec key (req.observation l sp now) files s₁
  · refine bind_ok hrun (bind_write (Along.write (.single ?_) trivial))
    obtain ⟨sp₁, hi₁, hcore⟩ := getElem?_of_core hquiet.core hi
    simp only [Spool.core, Prod.mk.injEq, hopen, hidle] at hcore
    have hsum := openBytes_modify (f := fun sp => { sp with n := 0 }) hi₁
    simp only [Spool.bytes, hcore.1, hcore.2.1, hcore.2.2, Bool.false_eq_true, if_false] at hsum
    refine ⟨fun hs => ?_, fun _ hs => ?_, fun _ hcovered hs => ?_⟩
    · show openBytes (s₁.spools.modify i _) ≤ s₁.pending - sp.n
      omega
    · show openBytes (s₁.spools.modify i _) = s₁.pending - sp.n
      omega
    · refine (hs.retain rfl _ fun k hk => ?_).congr rfl fun k => by cases k <;> rfl
      exact room_of_refusal hs hroom (by omega) hk
  · exact bind_error hrun (.single (Moves.files rfl rfl fun _ hs => hs.shrink fun k => hdirs _))

/-! ### Reads and revocations -/

lemma observation_eq_ok (h : (observation key readable s).1 = .ok obs) :
    ∃ d ∈ s.dirs, d.key = key ∧ d.obs = some obs := by
  simp only [observation, query_apply] at h
  split at h
  · next o ho =>
    split at h
    · cases h
      obtain ⟨d, hd, hobs⟩ := Option.bind_eq_some_iff.1 ho
      exact ⟨d, (State.find_eq_some hd).1, (State.find_eq_some hd).2, hobs⟩
    · cases h
  · cases h

/-- A read releases an expired original only with its files. -/
lemma openOriginalLocked_moves {req : ReadRequest} {opened : Bool} {removal : Removal} :
    (openOriginalLocked key req now readable opened removal).Steps (Moves l clean full) := by
  intro s
  refine bind_query fun obs hobs => ?_
  obtain ⟨d, hd, hkey, hdobs⟩ := observation_eq_ok hobs
  refine bind_ensure fun hlive => bind_ensure fun _ => ?_
  split
  · refine bind_write (Along.throw (.single ?_))
    split
    · next hdone =>
      refine Moves.files rfl rfl fun _ hs => hs.release hdobs (by simpa using hlive) fun k => ?_
      rw [hdone.1]
      exact held_removeAll_done hd hkey
    · exact Moves.files rfl rfl fun _ hs => hs.shrink fun k => held_removeAll_le removal
  · exact Steps.guard (.guard <| .bind (.reads (m := query _)) fun _ => .reads) s

/-- A revocation releases the original it marks. -/
lemma revoke_moves {req : ReadRequest} {removed written : Bool}
    (hwritten : clean → written = true) :
    (revoke key req readable removed written).Steps (Moves l clean full) := by
  intro s
  refine bind_query fun obs hobs => ?_
  obtain ⟨d, hd, hkey, hdobs⟩ := observation_eq_ok hobs
  refine bind_ensure fun _ => ?_
  split
  · exact Along.pure .refl trivial
  next hlive =>
  refine bind_ensure fun _ => bind_write ?_
  -- the charge is released before the metadata is written
  rcases Bool.eq_false_or_eq_true written with hw | hw
  · refine bind_ok (by rw [hw]; rfl) (Along.write (.single ?_) trivial)
    have hrevoke (k : Option RetentionClass) :
        held (inClass k) (updateDir key
          (fun d => { d with obs := some { obs with revoked := true } })
          (updateDir key (fun d => { d with raw := false }) s.dirs)) + d.held (inClass k)
          ≤ held (inClass k) s.dirs := by
      have hraw : held (inClass k) (updateDir key (fun d => { d with raw := false }) s.dirs)
          = held (inClass k) s.dirs := held_updateDir fun _ => rfl
      have hd' : ({ d with raw := false } : Dir)
          ∈ updateDir key (fun d => { d with raw := false }) s.dirs :=
            mem_map.2 ⟨d, hd, if_pos hkey⟩
      have hheld : ({ d with raw := false } : Dir).held (inClass k) = d.held (inClass k) :=
        Dir.held_of_obs rfl
      rw [← hraw, ← hheld]
      exact held_revoke (fun _ => Dir.held_of_revoked rfl rfl) hd' hkey
    split
    · exact Moves.files rfl rfl fun _ hs => hs.release hdobs (by simpa using hlive) hrevoke
    · exact Moves.files rfl rfl fun _ hs =>
        hs.shrink fun k => (Nat.le_add_right _ _).trans (hrevoke k)
  · refine bind_error (e := Err.io) (by rw [hw]; rfl) (.single ?_)
    have hdirty (hc : clean) : False := by simpa [hw] using hwritten hc
    split
    · exact Moves.files rfl rfl fun hc => (hdirty hc).elim
    · exact Moves.files rfl rfl fun hc => (hdirty hc).elim

lemma revokeWorkspace_moves {removal : String → Removal}
    (hremoval : clean → ∀ key, removal key = .done) :
    (revokeWorkspace removal).Steps (Moves l clean full) := by
  refine .write fun s => Moves.files rfl rfl fun hc hs k => ?_
  have hnone : (s.dirs.filterMap fun d => (removal d.key).left d) = [] := by
    simp [hremoval hc, Removal.left]
  simp only [hnone, held_nil, Nat.zero_le, true_and]
  cases k <;> exact Nat.zero_le _

/-! ### Interleavings -/

/-- The file operations that the counters rely on succeed: rescans read all metadata and remove what
has expired, and revocations are recorded. -/
def Event.Clean : Event → Prop
  | .beginWrite _ _ w w' => w.Clean ∧ w'.Clean
  | .capture _ _ _ _ w w' _ => w.Clean ∧ w'.Clean
  | .revoke _ _ _ _ written => written = true
  | .revokeWorkspace removal => ∀ key, removal key = .done
  | .retained w => w.Clean
  | _ => True

def Sweep.cleaned (w : Sweep) : Sweep := ⟨w.now, w.listed, fun _ => false, fun _ => .done⟩

/-- The event when these operations succeed. -/
def Event.cleaned : Event → Event
  | .beginWrite i n w w' => .beginWrite i n w.cleaned w'.cleaned
  | .capture i key req now w w' files => .capture i key req now w.cleaned w'.cleaned files
  | .revoke key req readable removed _ => .revoke key req readable removed true
  | .revokeWorkspace _ => .revokeWorkspace fun _ => .done
  | .retained w => .retained w.cleaned
  | ev => ev

lemma Event.cleaned_clean (ev : Event) : ev.cleaned.Clean := by
  have hsweep (w : Sweep) : w.cleaned.Clean := fun _ => ⟨rfl, rfl⟩
  cases ev with
  | beginWrite | capture => exact ⟨hsweep _, hsweep _⟩
  | revoke => rfl
  | revokeWorkspace => exact fun _ => rfl
  | retained => exact hsweep _
  | _ => trivial

/-- None of these operations fails that the event reaches: it ends as if they all succeeded. -/
def Event.RecordsKept (l : Limits) (s : State) (ev : Event) : Prop :=
  ev.step l s = ev.cleaned.step l s

/-- A spool write is not cut short. -/
def Event.WritesInFull : Event → Prop
  | .endWrite _ short => short = none
  | _ => True

lemma Event.step_moves (l : Limits) (s : State) (ev : Event) :
    ReflTransGen (Moves l ev.Clean ev.WritesInFull) s (ev.step l s) := by
  cases ev with
  | newSpool cls upstream => exact (newSpool_moves cls upstream s).1
  | beginWrite i n w w' => exact (beginWrite_moves n And.left And.right s).1
  | endWrite i short => exact (endWrite_moves short id s).1
  | discard i => exact (discard_moves s).1
  | capture i key req now w w' files => exact (capture_moves And.left And.right s).1
  | read key req now readable opened removal => exact (openOriginalLocked_moves s).1
  | revoke key req readable removed written => exact (revoke_moves id s).1
  | revokeWorkspace removal => exact (revokeWorkspace_moves id s).1
  | retained w =>
    have hquiet : Quiet l w.Clean s ((retainedLocked w true).final s) :=
      .of_chain (retainedLocked_quiet id true s).1
    exact .single hquiet.moves

/-- Each event of an interleaving satisfies `P` in the state that it finds. -/
def Throughout (l : Limits) (P : State → Event → Prop) : State → List Event → Prop
  | _, [] => True
  | s, ev :: evs => P s ev ∧ Throughout l P (ev.step l s) evs

/-- What an interleaving keeps, by what its critical sections keep. -/
lemma Throughout.keeps {I : State → Prop} {P : State → Event → Prop}
    (h : Throughout l P s evs) (hstep : ∀ ev s, P s ev → I s → I (ev.step l s)) (hs : I s) :
    I (evs.foldl (Event.step l) s) := by
  induction evs generalizing s with
  | nil => exact hs
  | cons ev evs ih => exact ih h.2 (hstep ev s h.1 hs)

lemma run_pending (h : Throughout l (fun _ ev => ev.WritesInFull) .empty evs) :
    (run l evs).pending = openBytes (run l evs).spools := by
  refine (h.keeps (I := fun s => openBytes s.spools = s.pending) (fun ev s hev => ?_) rfl).symm
  exact (Event.step_moves l s ev).keeps fun _ _ hmoves => hmoves.exactly hev

lemma run_within (h : Throughout l (Event.RecordsKept l) .empty evs) : Within l (run l evs) := by
  have hempty : Within l .empty := fun k => by cases k <;> exact ⟨le_refl _, Nat.zero_le _⟩
  refine (h.keeps (I := fun s => openBytes s.spools ≤ s.pending ∧ Within l s) (fun ev s hev => ?_)
    ⟨le_refl _, hempty⟩).2
  rw [hev]
  refine (Event.step_moves l s ev.cleaned).keeps
    (I := fun s => openBytes s.spools ≤ s.pending ∧ Within l s) fun _ _ hmoves hs => ?_
  exact ⟨hmoves.covered hs.1, hmoves.within ev.cleaned_clean hs.1 hs.2⟩

/-! ### Stored originals -/

/-- The original of a directory, if it is neither revoked nor expired and is still there. -/
def Dir.stored (now : Time) (d : Dir) : Option Observation :=
  d.obs.filter fun o => !o.revoked && !o.expired now && (o.upstream || d.raw)

/-- The charges of the stored originals of the workspace, or of a class. -/
def State.charges (s : State) (now : Time) (k : Option RetentionClass) : Nat :=
  chargeOf (inClass k) (s.dirs.filterMap (Dir.stored now))

lemma charges_le_held (now : Time) (k : Option RetentionClass) :
    s.charges now k ≤ held (inClass k) s.dirs := by
  rw [State.charges, chargeOf_filterMap]
  refine sum_le_sum fun d _ => ?_
  cases hd : (d.stored now).filter (inClass k) with
  | none => exact Nat.zero_le _
  | some o =>
    obtain ⟨hstored, hk⟩ := Option.filter_eq_some_iff.1 hd
    obtain ⟨hobs, hlive⟩ := Option.filter_eq_some_iff.1 hstored
    rw [Dir.held_of_live hobs (by simp_all), if_pos hk]
    exact le_refl _

/-- Along an interleaving the pending bytes are those of the open spools if no write falls short,
and the stored originals are within the quotas and covered by the counter if no file operation fails
that the counters rely on. -/
theorem run_within_quotas (l : Limits) (evs : List Event) :
    (Throughout l (fun _ ev => ev.WritesInFull) .empty evs →
      (run l evs).pending = openBytes (run l evs).spools)
    ∧ (Throughout l (Event.RecordsKept l) .empty evs → ∀ now,
        (run l evs).charges now none ≤ l.workspaceQuota
        ∧ (∀ c, (run l evs).charges now (some c) ≤ l.classQuota c)
        ∧ (run l evs).charges now none ≤ (run l evs).used) := by
  refine ⟨run_pending, fun h now => ?_⟩
  have hwithin := run_within (l := l) h
  have hcharges (k : Option RetentionClass) : (run l evs).charges now k ≤ l.quota k :=
    (charges_le_held now k).trans ((hwithin k).1.trans (hwithin k).2)
  exact ⟨hcharges none, fun c => hcharges (some c),
    (charges_le_held now none).trans (hwithin none).1⟩

/-- The limits of the runs below. -/
def smallLimits : Limits := ⟨100, 10, 40000, 100⟩

/-- A call of the caller without a name. -/
def anyone : ReadRequest := ⟨"", false, 0⟩

/-- An original of 20 bytes is spooled and captured at time 0. -/
def captured (i : Nat) (key : String) : List Event :=
  [.newSpool .own false, .beginWrite i 20 { now := 0 } { now := 0 }, .endWrite i none,
    .capture i key ⟨"", none, false⟩ 0 { now := 0 } { now := 0 } {}]

/-- A revocation that fails at its metadata and is repeated releases two charges, so that the quota
admits three originals that do not fit, and a write that falls short leaves bytes pending that no
spool holds. -/
theorem run_over_quota : (∃ evs, (run smallLimits evs).used < (run smallLimits evs).charges 0 none
      ∧ smallLimits.workspaceQuota < (run smallLimits evs).charges 0 none)
    ∧ ∃ evs, (run smallLimits evs).pending ≠ openBytes (run smallLimits evs).spools := by
  refine ⟨⟨captured 0 "a" ++ captured 1 "b"
    ++ [.revoke "a" anyone true true false, .revoke "a" anyone true true true]
    ++ captured 2 "c" ++ captured 3 "d", by decide +kernel⟩,
    ⟨[.newSpool .own false, .beginWrite 0 8 { now := 0 } { now := 0 }, .endWrite 0 (some 3)],
      by decide +kernel⟩⟩

/-- The conditions hold of two captures, a revocation that is recorded and one that is refused,
whose metadata could not be written. -/
theorem run_within_quotas_revoked :
    let evs := captured 0 "a" ++ captured 1 "b"
      ++ [.revoke "a" anyone true true true, .revoke "b" ⟨"eve", true, 0⟩ true true false]
    (run smallLimits evs).pending = openBytes (run smallLimits evs).spools
    ∧ (run smallLimits evs).charges 0 none ≤ smallLimits.workspaceQuota := by
  intro evs
  have hfull : Throughout smallLimits (fun _ ev => ev.WritesInFull) .empty evs := by
    simp [evs, captured, Throughout, Event.WritesInFull]
  have hrecords : Throughout smallLimits (Event.RecordsKept smallLimits) .empty evs :=
    ⟨rfl, rfl, rfl, rfl, rfl, rfl, rfl, rfl, rfl, rfl, trivial⟩
  obtain ⟨hpending, hquota⟩ := run_within_quotas smallLimits evs
  exact ⟨hpending hfull, (hquota hrecords 0).1⟩

end Evidence
