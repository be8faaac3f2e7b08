import XMustard.Program.Basic

/-!
# Programs that change the store in known steps

`Along S s₀ s m Q` says that the rest `m` of a program, now in store `s`, ends in a store that a
chain of `S` steps reaches from `s₀`, whether it succeeds or fails, and that on success its value
and store satisfy `Q`. The store `s₀` is the last one known to lie on the chain: statements that
cannot fail may run past it and are accounted for together, as one step, once the group is
complete. Everything that `S` preserves is then preserved by the program.
-/

open Relation

namespace Program

variable {σ ε α β : Type} {S : σ → σ → Prop} {s₀ s s' : σ} {r : Except ε α} {a : α} {b : β}
  {c : Prop} {g : σ → σ} {I : σ → Prop}

/-! ### Programs that write nothing -/

/-- The program leaves the store as it was, on every outcome. -/
def ReadOnly (m : Program σ ε α) : Prop := ∀ s, (m s).2 = s

/-- The form of the program shows that it writes nothing. -/
class Reads (m : Program σ ε α) : Prop where
  readOnly : m.ReadOnly

namespace Reads

variable {m : Program σ ε α} {f : α → Program σ ε β}

instance pure (a : α) : Reads (Pure.pure a : Program σ ε α) := ⟨fun _ => rfl⟩

instance throw (e : ε) : Reads (throw e : Program σ ε α) := ⟨fun _ => rfl⟩

instance query (g : σ → Except ε α) : Reads (query g) := ⟨fun _ => rfl⟩

instance ensure (c : Prop) {_ : Decidable c} (e : ε) :
    Reads (ensure c e : Program σ ε Unit) := by
  refine ⟨fun s => ?_⟩
  unfold Program.ensure
  split <;> rfl

lemma state_eq [hm : Reads m] (h : m s = (r, s')) : s' = s := by
  simpa [h] using hm.readOnly s

instance bind [Reads m] [hf : ∀ a, Reads (f a)] : Reads (m >>= f) := by
  refine ⟨fun s => ?_⟩
  rw [bind_apply]
  rcases h : m s with ⟨e | a, s'⟩
  · exact state_eq h
  · exact ((hf a).readOnly s').trans (state_eq h)

lemma andThen [Reads m] (_ : ∀ a, Reads (f a)) : Reads (m >>= f) := bind

instance ite (c : Prop) {_ : Decidable c} {m' : Program σ ε α} [hm : Reads m] [hm' : Reads m'] :
    Reads (if c then m else m') := by
  split
  · exact hm
  · exact hm'

instance when (c : Prop) {_ : Decidable c} {m : Program σ ε Unit} [Reads m] :
    Reads (when c m) := ite c

instance each {g : α → Program σ ε Unit} [∀ a, Reads (g a)] (as : List α) :
    Reads (each g as) := by
  induction as with
  | nil => exact pure ()
  | cons _ _ ih => exact andThen fun _ => ih

/-- A read succeeds in the store it started in. -/
lemma fst_eq_ok [hm : Reads m] : (m s).1 = .ok a ↔ m s = (.ok a, s) := by
  constructor
  · exact fun h => Prod.ext h (hm.readOnly s)
  · intro h
    rw [h]

/-- The value of a sequence of reads. -/
lemma bind_eq_ok [Reads m] :
    (m >>= f) s = (.ok b, s') ↔ ∃ a, m s = (.ok a, s) ∧ f a s = (.ok b, s') := by
  rw [Program.bind_eq_ok]
  constructor
  · rintro ⟨a, s₁, h₁, h₂⟩
    obtain rfl := state_eq h₁
    exact ⟨a, h₁, h₂⟩
  · rintro ⟨a, h₁, h₂⟩
    exact ⟨a, s, h₁, h₂⟩

end Reads

lemma bind_ensure_eq_ok [Decidable c] {e : ε} {f : Unit → Program σ ε β} :
    (ensure c e >>= f) s = (.ok b, s') ↔ c ∧ f () s = (.ok b, s') := by
  simp only [Reads.bind_eq_ok, ensure_eq_ok, and_true]
  exact ⟨fun ⟨_, h⟩ => h, fun h => ⟨(), h⟩⟩

/-- The program `m`, run from `s`, ends on a chain of `S` steps from `s₀`, and on success in `Q`. -/
def Along (S : σ → σ → Prop) (s₀ s : σ) (m : Program σ ε α) (Q : α → σ → Prop) : Prop :=
  ReflTransGen S s₀ (m s).2 ∧ ∀ a, (m s).1 = .ok a → Q a (m s).2

namespace Along

/-! ### Atoms -/

variable {Q : α → σ → Prop}

lemma pure (h : ReflTransGen S s₀ s) (hQ : Q a s) : Along S s₀ s (Pure.pure a : Program σ ε α) Q :=
  ⟨h, fun _ ha => by cases ha; exact hQ⟩

variable {e : ε}

section

variable (h : ReflTransGen S s₀ s)
include h

lemma throw : Along S s₀ s (throw e : Program σ ε α) Q :=
  ⟨h, fun _ ha => by cases ha⟩

lemma query {f : σ → Except ε α} (hQ : ∀ a, f s = .ok a → Q a s) : Along S s₀ s (query f) Q :=
  ⟨h, hQ⟩

lemma ensure [Decidable c] {Q : Unit → σ → Prop} (hQ : c → Q () s) :
    Along S s₀ s (ensure c e) Q := by
  unfold Along Program.ensure
  split
  · next hc => exact ⟨h, fun _ _ => hQ hc⟩
  · exact ⟨h, fun _ ha => by cases ha⟩

lemma exec {f : σ → Except ε σ} {Q : Unit → σ → Prop}
    (hs : ∀ s', f s = .ok s' → ReflTransGen S s₀ s' ∧ Q () s') : Along S s₀ s (exec f) Q := by
  unfold Along Program.exec
  split
  · next s' hf => exact ⟨(hs s' hf).1, fun _ _ => (hs s' hf).2⟩
  · exact ⟨h, fun _ ha => by cases ha⟩

end

lemma write {f : σ → σ} {Q : Unit → σ → Prop} (h : ReflTransGen S s₀ (f s)) (hQ : Q () (f s)) :
    Along S s₀ s (write f : Program σ ε Unit) Q :=
  ⟨h, fun _ _ => hQ⟩

/-! ### Composition -/

variable {m : Program σ ε α} {f : α → Program σ ε β}

lemma bind {Q : β → σ → Prop}
    (h : Along S s₀ s m fun a s' => Along S s₀ s' (f a) Q) : Along S s₀ s (m >>= f) Q := by
  unfold Along at h ⊢
  rw [bind_apply]
  match hm : m s with
  | (.ok a, s') =>
    rw [hm] at h
    exact h.2 a rfl
  | (.error e, s') =>
    rw [hm] at h
    exact ⟨h.1, fun _ ha => by cases ha⟩

/-- Statements that are known to succeed need not end on the chain. -/
lemma bind_ok {Q : β → σ → Prop}
    (hm : m s = (.ok a, s')) (h : Along S s₀ s' (f a) Q) : Along S s₀ s (m >>= f) Q := by
  unfold Along
  rw [bind_apply_ok hm]
  exact h

lemma bind_error {Q : β → σ → Prop}
    (hm : m s = (.error e, s')) (h : ReflTransGen S s₀ s') : Along S s₀ s (m >>= f) Q := by
  unfold Along
  rw [bind_apply_error hm]
  exact ⟨h, nofun⟩

/-- The same store under another description. -/
lemma from_state (s' : σ) (hs : s = s') (h : Along S s₀ s' m Q) : Along S s₀ s m Q :=
  hs ▸ h

lemma of_ok (hm : m s = (.ok a, s'))
    (h : ReflTransGen S s₀ s') (hQ : Q a s') : Along S s₀ s m Q := by
  refine ⟨by rwa [hm], fun b hb => ?_⟩
  rw [hm] at hb ⊢
  cases hb
  exact hQ

lemma bind_write {f : Unit → Program σ ε β} {Q : β → σ → Prop}
    (h : Along S s₀ (g s) (f ()) Q) : Along S s₀ s (Program.write g >>= f) Q :=
  bind_ok rfl h

/-- The chain reaches the current store, and the rest of the program starts a new one there. -/
lemma restart (h : ReflTransGen S s₀ s) (hm : Along S s s m Q) : Along S s₀ s m Q :=
  ⟨h.trans hm.1, hm.2⟩

lemma conseq {Q' : α → σ → Prop} (h : Along S s₀ s m Q)
    (hQ : ∀ a s', Q a s' → Q' a s') : Along S s₀ s m Q' :=
  ⟨h.1, fun a ha => hQ a _ (h.2 a ha)⟩

/-- A subprogram with its own account is run, and the rest goes on from where it ended. -/
lemma bind_of {Q : β → σ → Prop} {Q₁ : α → σ → Prop} (hm : Along S s₀ s m Q₁)
    (hf : ∀ a s', ReflTransGen S s₀ s' → Q₁ a s' → Along S s' s' (f a) Q) :
    Along S s₀ s (m >>= f) Q := by
  refine bind ⟨hm.1, fun a ha => ?_⟩
  exact restart hm.1 (hf a _ hm.1 (hm.2 a ha))

/-- A handler goes on from wherever the program failed. -/
lemma tryCatch {f : ε → Program σ ε α}
    (hm : Along S s₀ s m Q) (hf : ∀ e s', ReflTransGen S s₀ s' → Along S s₀ s' (f e) Q) :
    Along S s₀ s (MonadExcept.tryCatch m f) Q := by
  obtain ⟨hchain, hQ⟩ := hm
  match h : m s with
  | (.ok a, s') =>
    have happ : (MonadExcept.tryCatch m f : Program σ ε α) s = (.ok a, s') := by
      simp [MonadExcept.tryCatch, tryCatchThe, MonadExceptOf.tryCatch, h]
    rw [h] at hchain hQ
    exact of_ok happ hchain (hQ a rfl)
  | (.error e, s') =>
    have happ : (MonadExcept.tryCatch m f : Program σ ε α) s = f e s' := by
      simp [MonadExcept.tryCatch, tryCatchThe, MonadExceptOf.tryCatch, h]
    rw [h] at hchain
    unfold Along
    rw [happ]
    exact hf e s' hchain

/-- A loop keeps what each of its rounds keeps. -/
lemma each {f : α → Program σ ε Unit} :
    ∀ (as : List α) (s : σ), I s →
      (∀ a ∈ as, ∀ s, I s → Along S s s (f a) fun _ s' => I s') →
      Along S s s (Program.each f as) fun _ s' => I s'
  | [], s, hI, _ => pure .refl hI
  | a :: as, s, hI, hf => by
    refine bind_of (hf a List.mem_cons_self s hI) fun _ s' _ hI' => ?_
    exact each as s' hI' fun b hb => hf b (List.mem_cons_of_mem a hb)

/-- A program that writes nothing is passed with what its success tells. -/
lemma reads [hm : Reads m] (h₀ : ReflTransGen S s₀ s) (hQ : ∀ a, m s = (.ok a, s) → Q a s) :
    Along S s₀ s m Q := by
  refine ⟨by rwa [hm.readOnly s], fun a ha => ?_⟩
  rw [hm.readOnly s]
  exact hQ a (Prod.ext ha (hm.readOnly s))

lemma bind_reads {Q : β → σ → Prop} [Reads m]
    (hf : ∀ a, m s = (.ok a, s) → Along S s s (f a) Q) : Along S s s (m >>= f) Q :=
  bind (reads .refl hf)

lemma bind_ensure [Decidable c] {f : Unit → Program σ ε β} {Q : β → σ → Prop}
    (hf : c → Along S s s (f ()) Q) : Along S s s (Program.ensure c e >>= f) Q :=
  bind (ensure .refl hf)

lemma bind_query {g : σ → Except ε α} {Q : β → σ → Prop}
    (hf : ∀ a, g s = .ok a → Along S s s (f a) Q) : Along S s s (Program.query g >>= f) Q :=
  bind (query .refl hf)

/-- A statement that takes effect need not end on the chain by itself. -/
lemma bind_exec {g : σ → Except ε σ} {f : Unit → Program σ ε β} {Q : β → σ → Prop}
    (hf : ∀ s', g s = .ok s' → Along S s s' (f ()) Q) : Along S s s (Program.exec g >>= f) Q := by
  match hg : g s with
  | .ok s' => exact bind_ok (by simp [Program.exec, hg]) (hf s' hg)
  | .error e =>
    exact bind_error (show Program.exec g s = (.error e, s) by simp [Program.exec, hg]) .refl

end Along

/-! ### Programs by what their statements do -/

/-- The program proceeds by `S` steps, from wherever it starts. -/
def Steps (S : σ → σ → Prop) (m : Program σ ε α) : Prop := ∀ s, Along S s s m fun _ _ => True

namespace Steps

variable {m : Program σ ε α} {f : α → Program σ ε β}

lemma reads [Reads m] : m.Steps S := fun _ => Along.reads .refl fun _ _ => trivial

lemma pure (a : α) : (Pure.pure a : Program σ ε α).Steps S := reads

lemma exec {g : σ → Except ε σ} (hg : ∀ s s', g s = .ok s' → S s s') : (exec g).Steps S :=
  fun s => Along.exec .refl fun s' hs' => ⟨.single (hg s s' hs'), trivial⟩

lemma write (hg : ∀ s, S s (g s)) : (write g : Program σ ε Unit).Steps S :=
  fun s => Along.write (.single (hg s)) trivial

lemma bind (hm : m.Steps S) (hf : ∀ a, (f a).Steps S) : (m >>= f).Steps S := fun s =>
  Along.bind_of (hm s) fun a s' _ _ => hf a s'

lemma guard [Decidable c] {e : ε} (hm : m.Steps S) : (Program.ensure c e >>= fun _ => m).Steps S :=
  bind reads fun _ => hm

lemma read [Reads m] (hf : ∀ a, (f a).Steps S) : (m >>= f).Steps S := bind reads hf

lemma ite [Decidable c] {m' : Program σ ε α} (hm : m.Steps S) (hm' : m'.Steps S) :
    (if c then m else m').Steps S := by
  split
  · exact hm
  · exact hm'

lemma when [Decidable c] {m : Program σ ε Unit} (hm : m.Steps S) : (when c m).Steps S :=
  hm.ite reads

lemma each {g : α → Program σ ε Unit} (hg : ∀ a, (g a).Steps S) :
    ∀ as : List α, (Program.each g as).Steps S
  | [] => pure ()
  | a :: as => (hg a).bind fun _ => each hg as

lemma tryCatch {g : ε → Program σ ε α} (hm : m.Steps S) (hg : ∀ e, (g e).Steps S) :
    (MonadExcept.tryCatch m g).Steps S := fun s =>
  Along.tryCatch (hm s) fun e s' h => .restart h (hg e s')

/-- A program keeps what its steps keep. -/
lemma keeps (hm : m.Steps fun s s' => I s → I s') (hs : I s) : I (m s).2 := by
  have hchain := (hm s).1
  generalize (m s).2 = s' at hchain ⊢
  induction hchain with
  | refl => exact hs
  | tail _ hlast ih => exact hlast ih

end Steps

/-- The form of the program shows that it proceeds by `S` steps. -/
class StepsBy (S : σ → σ → Prop) (m : Program σ ε α) : Prop where
  steps : m.Steps S

namespace StepsBy

variable {m : Program σ ε α} {f : α → Program σ ε β}

instance (priority := low) reads [Reads m] : StepsBy S m := ⟨.reads⟩

instance bind [hm : StepsBy S m] [hf : ∀ a, StepsBy S (f a)] : StepsBy S (m >>= f) :=
  ⟨hm.steps.bind fun a => (hf a).steps⟩

lemma andThen [StepsBy S m] (_ : ∀ a, StepsBy S (f a)) : StepsBy S (m >>= f) := bind

instance ite (c : Prop) {_ : Decidable c} {m' : Program σ ε α} [hm : StepsBy S m]
    [hm' : StepsBy S m'] : StepsBy S (if c then m else m') := ⟨hm.steps.ite hm'.steps⟩

instance when (c : Prop) {_ : Decidable c} {m : Program σ ε Unit} [hm : StepsBy S m] :
    StepsBy S (when c m) := ⟨hm.steps.when⟩

instance each {g : α → Program σ ε Unit} [hg : ∀ a, StepsBy S (g a)] (as : List α) :
    StepsBy S (each g as) := ⟨.each (fun a => (hg a).steps) as⟩

/-- What every step keeps holds where a run ends. -/
lemma keeps [hm : StepsBy (fun s s' => I s → I s') m] (hrun : m s = (r, s')) (hs : I s) : I s' := by
  have := hm.steps.keeps hs
  rwa [hrun] at this

end StepsBy

end Program

/-- A property that every step keeps is kept along a chain of steps. -/
lemma Relation.ReflTransGen.keeps {σ : Type} {S : σ → σ → Prop} {I : σ → Prop}
    (hstep : ∀ s s', S s s' → I s → I s') {s s' : σ} (h : ReflTransGen S s s') (hs : I s) :
    I s' := by
  induction h with
  | refl => exact hs
  | tail _ hlast ih => exact hstep _ _ hlast ih
