import Mathlib.Logic.Basic
import XMustard.Program.Basic

/-!
# The errors of a program

`FailsIn P s m` says that every error with which the program `m` can end when it is run from `s`
satisfies `P`, and `Fails P m` that this holds from every store. A sequence fails like its parts.
-/

namespace Program

variable {σ ε α β : Type} {P : ε → Prop} {s : σ}

/-- The program, run from `s`, fails in `P` if it fails. -/
def FailsIn (P : ε → Prop) (s : σ) (m : Program σ ε α) : Prop := ∀ e, (m s).1 = .error e → P e

/-- The program fails in `P` if it fails, wherever it is run from. -/
def Fails (P : ε → Prop) (m : Program σ ε α) : Prop := ∀ s, FailsIn P s m

variable {m : Program σ ε α} {s' : σ} {a : α}

lemma failsIn_of_ok (hm : m s = (.ok a, s')) : FailsIn P s m := by
  intro e he
  rw [hm] at he
  cases he

variable {f : α → Program σ ε β}

/-- What follows a statement matters only where the statement succeeds. -/
lemma FailsIn.bind (hm : FailsIn P s m)
    (hf : ∀ a s', m s = (.ok a, s') → FailsIn P s' (f a)) : FailsIn P s (m >>= f) := by
  intro e he
  rw [bind_apply] at he
  match hrun : m s with
  | (.ok a, s') =>
    rw [hrun] at he
    exact hf a s' hrun e he
  | (.error e', s') =>
    rw [hrun] at he
    cases he
    exact hm e (by rw [hrun])

/-- A sequence fails like its first part where the second part is no concern. -/
lemma failsIn_bind_iff (hf : ∀ a s', m s = (.ok a, s') → FailsIn P s' (f a)) :
    FailsIn P s (m >>= f) ↔ FailsIn P s m := by
  refine ⟨fun h e he => ?_, fun hm => hm.bind hf⟩
  rcases hrun : m s with ⟨e' | a, s'⟩ <;> rw [hrun] at he <;> cases he
  exact h e (by rw [bind_apply_error hrun])

/-- A sequence fails like its second part where the first part succeeds. -/
lemma failsIn_bind_ok
    (hm : m s = (.ok a, s')) : FailsIn P s (m >>= f) ↔ FailsIn P s' (f a) := by
  unfold FailsIn
  rw [bind_apply_ok hm]

namespace Fails

lemma pure (a : α) : Fails P (Pure.pure a : Program σ ε α) := fun _ => failsIn_of_ok rfl

variable {e : ε}

lemma throw (he : P e) : Fails P (throw e : Program σ ε α) := fun _ _ h => by
  cases h
  exact he

lemma query {f : σ → Except ε α} (hf : ∀ s e, f s = .error e → P e) : Fails P (query f) :=
  fun s e h => hf s e h

lemma write (f : σ → σ) : Fails P (write f : Program σ ε Unit) := fun _ => failsIn_of_ok rfl

lemma ensure {c : Prop} [Decidable c] (he : P e) : Fails P (ensure c e : Program σ ε Unit) := by
  intro s e' h
  unfold Program.ensure at h
  split at h
  · cases h
  · cases h
    exact he

lemma exec {f : σ → Except ε σ} (hf : ∀ s e, f s = .error e → P e) : Fails P (exec f) := by
  intro s e h
  unfold Program.exec at h
  split at h
  · cases h
  · next e' hfs =>
    cases h
    exact hf s e hfs

lemma bind (hm : Fails P m) (hf : ∀ a, Fails P (f a)) : Fails P (m >>= f) :=
  fun s => (hm s).bind fun a s' _ => hf a s'

end Fails

/-- The program is made of statements that fail in `P` if they fail. Instances follow its form. -/
class FailsOnly (P : ε → Prop) (m : Program σ ε α) : Prop where
  fails : Fails P m

namespace FailsOnly

instance pure (a : α) : FailsOnly P (Pure.pure a : Program σ ε α) := ⟨.pure a⟩

instance throw (e : ε) [he : Fact (P e)] : FailsOnly P (throw e : Program σ ε α) :=
  ⟨.throw he.out⟩

instance write (g : σ → σ) : FailsOnly P (write g : Program σ ε Unit) := ⟨.write g⟩

instance ensure (c : Prop) {_ : Decidable c} (e : ε) [he : Fact (P e)] :
    FailsOnly P (ensure c e : Program σ ε Unit) := ⟨.ensure he.out⟩

instance bind [hm : FailsOnly P m] [hf : ∀ a, FailsOnly P (f a)] : FailsOnly P (m >>= f) :=
  ⟨hm.fails.bind fun a => (hf a).fails⟩

lemma andThen [FailsOnly P m] (_ : ∀ a, FailsOnly P (f a)) : FailsOnly P (m >>= f) := bind

instance ite (c : Prop) {_ : Decidable c} {m' : Program σ ε α} [hm : FailsOnly P m]
    [hm' : FailsOnly P m'] : FailsOnly P (if c then m else m') := by
  split
  · exact hm
  · exact hm'

instance when (c : Prop) {_ : Decidable c} {m : Program σ ε Unit} [FailsOnly P m] :
    FailsOnly P (when c m) := ite c

instance each {g : α → Program σ ε Unit} [∀ a, FailsOnly P (g a)] (as : List α) :
    FailsOnly P (each g as) := by
  induction as with
  | nil => exact pure ()
  | cons _ _ ih => exact andThen fun _ => ih

end FailsOnly

end Program
