import Mathlib.Logic.Relation

/-!
# Programs over a store

A program reads and writes a store and ends in a value or in an error. The store survives an
error: what the program wrote before it failed is still there, and whoever runs the program
decides whether to keep it. Its atoms are the two kinds of statement a database offers, a query
that writes nothing and a statement that either fails and writes nothing or takes effect.
-/

/-- A program over stores of type `σ` with errors of type `ε`. -/
def Program (σ ε α : Type) : Type := σ → Except ε α × σ

namespace Program

variable {σ ε α β : Type}

protected def pure (a : α) : Program σ ε α := fun s => (.ok a, s)

variable (m : Program σ ε α)

protected def bind (f : α → Program σ ε β) : Program σ ε β := fun s =>
  match m s with
  | (.ok a, s') => f a s'
  | (.error e, s') => (.error e, s')

instance : Monad (Program σ ε) where
  pure := Program.pure
  bind := Program.bind

instance : MonadExceptOf ε (Program σ ε) where
  throw e := fun s => (.error e, s)
  tryCatch m h := fun s =>
    match m s with
    | (.ok a, s') => (.ok a, s')
    | (.error e, s') => h e s'

/-- A statement that reads the store. -/
def query (f : σ → Except ε α) : Program σ ε α := fun s => (f s, s)

/-- A statement that writes the store or fails as a whole. -/
def exec (f : σ → Except ε σ) : Program σ ε Unit := fun s =>
  match f s with
  | .ok s' => (.ok (), s')
  | .error e => (.error e, s)

/-- A statement that always takes effect. -/
def write (f : σ → σ) : Program σ ε Unit := fun s => (.ok (), f s)

/-- Go on only if `c` holds. -/
def ensure (c : Prop) [Decidable c] (e : ε) : Program σ ε Unit := fun s =>
  if c then (.ok (), s) else (.error e, s)

/-- Run `m` only if `c` holds. -/
def when (c : Prop) [Decidable c] (m : Program σ ε Unit) : Program σ ε Unit :=
  if c then m else pure ()

/-- The store in which `m` leaves a run that starts in `s`. -/
def final (s : σ) : σ := (m s).2

/-- Run `f` on the members of a list in order, stopping at the first error. -/
def each (f : α → Program σ ε Unit) : List α → Program σ ε Unit
  | [] => pure ()
  | a :: as => f a >>= fun _ => each f as

/-! ### How the statements run -/

@[simp] lemma pure_apply (a : α) (s : σ) : (pure a : Program σ ε α) s = (.ok a, s) := rfl

@[simp] lemma throw_apply (e : ε) (s : σ) : (throw e : Program σ ε α) s = (.error e, s) := rfl

@[simp] lemma query_apply (f : σ → Except ε α) (s : σ) : query f s = (f s, s) := rfl

lemma bind_apply (f : α → Program σ ε β) (s : σ) :
    (m >>= f) s = match m s with
      | (.ok a, s') => f a s'
      | (.error e, s') => (.error e, s') := rfl

variable {m : Program σ ε α} {s s' : σ}

lemma bind_apply_ok {a : α} (h : m s = (.ok a, s'))
    (f : α → Program σ ε β) : (m >>= f) s = f a s' := by
  rw [bind_apply, h]

variable {e : ε}

lemma bind_apply_error (h : m s = (.error e, s'))
    (f : α → Program σ ε β) : (m >>= f) s = (.error e, s') := by
  rw [bind_apply, h]

lemma tryCatch_apply_ok {a : α} (h : m s = (.ok a, s'))
    (f : ε → Program σ ε α) : tryCatch m f s = (.ok a, s') := by
  simp only [tryCatch, tryCatchThe, MonadExceptOf.tryCatch, h]

lemma tryCatch_apply_error (h : m s = (.error e, s'))
    (f : ε → Program σ ε α) : tryCatch m f s = f e s' := by
  simp only [tryCatch, tryCatchThe, MonadExceptOf.tryCatch, h]

@[simp] lemma pure_bind_apply (a : α) (f : α → Program σ ε β) (s : σ) :
    (pure a >>= f) s = f a s := rfl

@[simp] lemma write_bind_apply (f : σ → σ) (g : Unit → Program σ ε β) (s : σ) :
    (write f >>= g) s = g () (f s) := rfl

lemma ensure_bind_apply (c : Prop) [Decidable c] (e : ε) (f : Unit → Program σ ε β) (s : σ) :
    (ensure c e >>= f) s = if c then f () s else (.error e, s) := by
  rw [bind_apply, ensure]
  by_cases hc : c <;> simp [hc]

lemma ensure_eq_ok {c : Prop} [Decidable c] {u : Unit} :
    ensure c e s = (.ok u, s') ↔ c ∧ s' = s := by
  unfold ensure
  split
  · next h => simp [h, eq_comm]
  · next h => simp [h]

/-- A sequence succeeds exactly when both parts do. -/
lemma bind_eq_ok {f : α → Program σ ε β} {s'' : σ} {b : β} :
    (m >>= f) s = (.ok b, s'') ↔ ∃ a s', m s = (.ok a, s') ∧ f a s' = (.ok b, s'') := by
  rw [bind_apply]
  constructor
  · intro h
    match hm : m s with
    | (.ok a, s') => exact ⟨a, s', rfl, by rwa [hm] at h⟩
    | (.error e, s') => rw [hm] at h; cases h
  · rintro ⟨a, s', hm, hf⟩
    rw [hm]
    exact hf

lemma bind_bind {γ : Type} (m : Program σ ε α) (f : α → Program σ ε β) (g : β → Program σ ε γ) :
    m >>= f >>= g = m >>= fun a => f a >>= g := by
  funext s
  simp only [bind_apply]
  match m s with
  | (.ok a, s') => rfl
  | (.error e, s') => rfl

instance : LawfulMonad (Program σ ε) :=
  LawfulMonad.mk' (Program σ ε)
    (fun m => by
      funext s
      change (match m s with
        | (.ok a, s') => ((.ok a, s') : Except ε _ × σ)
        | (.error e, s') => (.error e, s')) = m s
      match m s with
      | (.ok a, s') => rfl
      | (.error e, s') => rfl)
    (fun _ _ => rfl) bind_bind

end Program
