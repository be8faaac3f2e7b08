import Mathlib.Computability.Language

/-!
# Patterns

Regular patterns whose only repetition is over a class of letters, with a matcher that returns what
is left of a text after each way to match its beginning.
-/

namespace Text

open List

variable {α : Type}

inductive Pattern (α : Type)
  | lit (w : List α)
  | one (p : α → Bool)
  | many (p : α → Bool)
  | alt (r s : Pattern α)
  | seq (r s : Pattern α)
  | opt (r : Pattern α)

namespace Pattern

/-- The texts that match in full. -/
def language : Pattern α → Language α
  | lit w => {w}
  | one p => {w | ∃ c, p c ∧ w = [c]}
  | many p => {w | ∀ c ∈ w, p c}
  | alt r s => r.language + s.language
  | seq r s => r.language * s.language
  | opt r => r.language + 1

/-- One of several patterns. -/
def anyOf : List (Pattern α) → Pattern α
  | [] => one fun _ => false
  | r :: rs => alt r (anyOf rs)

/-- Several patterns in a row. -/
def inOrder : List (Pattern α) → Pattern α
  | [] => lit []
  | r :: rs => seq r (inOrder rs)

variable {v : List α} {p : α → Bool}

@[simp] lemma mem_lit {w : List α} : v ∈ (lit w).language ↔ v = w := Iff.rfl

@[simp] lemma mem_one : v ∈ (one p).language ↔ ∃ c, p c ∧ v = [c] :=
  Iff.rfl

variable {r s : Pattern α} {rs : List (Pattern α)}

@[simp] lemma mem_alt :
    v ∈ (alt r s).language ↔ v ∈ r.language ∨ v ∈ s.language := Iff.rfl

@[simp] lemma mem_seq : v ∈ (seq r s).language ↔ ∃ x ∈ r.language, ∃ y ∈ s.language, x ++ y = v :=
  Language.mem_mul

@[simp] lemma mem_opt : v ∈ (opt r).language ↔ v ∈ r.language ∨ v = [] := Iff.rfl

lemma mem_anyOf : v ∈ (anyOf rs).language ↔ ∃ r ∈ rs, v ∈ r.language := by
  induction rs with
  | nil => simp [anyOf]
  | cons r rs ih => simp [anyOf, ih]

@[simp] lemma mem_inOrder_nil : v ∈ (inOrder ([] : List (Pattern α))).language ↔ v = [] :=
  Iff.rfl

@[simp] lemma mem_inOrder_cons :
    v ∈ (inOrder (r :: rs)).language ↔
      ∃ x ∈ r.language, ∃ y ∈ (inOrder rs).language, x ++ y = v :=
  mem_seq

/-- Only letters in `P` match. -/
def Over (P : α → Prop) : Pattern α → Prop
  | lit w => ∀ c ∈ w, P c
  | one p => ∀ c, p c → P c
  | many p => ∀ c, p c → P c
  | alt r s => r.Over P ∧ s.Over P
  | seq r s => r.Over P ∧ s.Over P
  | opt r => r.Over P

lemma Over.forall_mem {P : α → Prop} (h : r.Over P) (hv : v ∈ r.language) : ∀ c ∈ v, P c := by
  induction r generalizing v with
  | lit w =>
    obtain rfl := hv
    exact h
  | one p =>
    obtain ⟨c, hc, rfl⟩ := hv
    simpa using h c hc
  | many p => exact fun c hc => h c (hv c hc)
  | alt r s ihr ihs =>
    rcases hv with hv | hv
    · exact ihr h.1 hv
    · exact ihs h.2 hv
  | seq r s ihr ihs =>
    obtain ⟨x, hx, y, hy, rfl⟩ := hv
    exact forall_mem_append.2 ⟨ihr h.1 hx, ihs h.2 hy⟩
  | opt r ih =>
    rcases hv with hv | rfl
    · exact ih h hv
    · exact forall_mem_nil P

/-! ### Matching -/

/-- What is left of the text after a letter run. -/
def afterRun (p : α → Bool) : List α → List (List α)
  | [] => [[]]
  | c :: cs => (c :: cs) :: if p c then afterRun p cs else []

variable {t y : List α}

lemma mem_afterRun : y ∈ afterRun p t ↔ ∃ x, (∀ c ∈ x, p c) ∧ t = x ++ y := by
  induction t with
  | nil =>
    simp only [afterRun, mem_singleton]
    constructor
    · rintro rfl
      exact ⟨[], by simp⟩
    · rintro ⟨x, -, h⟩
      exact (append_eq_nil_iff.1 h.symm).2
  | cons c cs ih =>
    simp only [afterRun, mem_cons]
    constructor
    · rintro (rfl | hy)
      · exact ⟨[], by simp⟩
      · split at hy
        · next hc =>
          obtain ⟨x, hx, rfl⟩ := ih.1 hy
          exact ⟨c :: x, by simpa [hc] using hx, rfl⟩
        · cases hy
    · rintro ⟨x, hx, h⟩
      cases x with
      | nil => exact .inl h.symm
      | cons d x =>
        cases h
        have hc : p c := hx c mem_cons_self
        rw [if_pos hc]
        exact .inr (ih.2 ⟨x, fun a ha => hx a (mem_cons_of_mem c ha), rfl⟩)

variable [DecidableEq α]

/-- What is left after each way to match the beginning. -/
def rests : Pattern α → List α → List (List α)
  | lit w, t => if w <+: t then [t.drop w.length] else []
  | one p, c :: cs => if p c then [cs] else []
  | one _, [] => []
  | many p, t => afterRun p t
  | alt r s, t => r.rests t ++ s.rests t
  | seq r s, t => (r.rests t).flatMap s.rests
  | opt r, t => r.rests t ++ [t]

theorem mem_rests : y ∈ r.rests t ↔ ∃ x ∈ r.language, t = x ++ y := by
  induction r generalizing t y with
  | lit w =>
    simp only [rests, mem_lit, exists_eq_left]
    constructor
    · intro h
      split at h
      · next hw =>
        obtain ⟨z, rfl⟩ := hw
        simp only [drop_left, mem_singleton] at h
        rw [h]
      · cases h
    · rintro rfl
      simp
  | one p =>
    cases t with
    | nil => simp [rests]
    | cons c cs =>
      simp only [rests, mem_one]
      constructor
      · intro h
        split at h
        · next hc =>
          obtain rfl := mem_singleton.1 h
          exact ⟨[c], ⟨c, hc, rfl⟩, rfl⟩
        · cases h
      · rintro ⟨x, ⟨d, hd, rfl⟩, h⟩
        cases h
        simp [hd]
  | many p => exact mem_afterRun
  | alt r s ihr ihs =>
    simp only [rests, mem_append, ihr, ihs, mem_alt, or_and_right, exists_or]
  | seq r s ihr ihs =>
    simp only [rests, mem_flatMap, ihr, ihs, mem_seq]
    constructor
    · rintro ⟨z, ⟨x, hx, rfl⟩, x', hx', rfl⟩
      exact ⟨x ++ x', ⟨x, hx, x', hx', rfl⟩, by rw [append_assoc]⟩
    · rintro ⟨_, ⟨x, hx, x', hx', rfl⟩, rfl⟩
      exact ⟨x' ++ y, ⟨x, hx, by rw [append_assoc]⟩, x', hx', rfl⟩
  | opt r ihr =>
    simp only [rests, mem_append, ihr, mem_singleton, mem_opt, or_and_right, exists_or,
      exists_eq_left, nil_append]
    exact or_congr_right eq_comm

/-- The pattern matches somewhere. -/
def found (r : Pattern α) (t : List α) : Bool := t.tails.any fun s => !(r.rests s).isEmpty

lemma found_iff : r.found t ↔ ∃ x m y, t = x ++ m ++ y ∧ m ∈ r.language := by
  simp only [found, any_eq_true, mem_tails, Bool.not_eq_true',
    isEmpty_eq_false_iff_exists_mem, mem_rests]
  constructor
  · rintro ⟨s, ⟨x, rfl⟩, y, m, hm, rfl⟩
    exact ⟨x, m, y, by rw [append_assoc], hm⟩
  · rintro ⟨x, m, y, rfl, hm⟩
    exact ⟨m ++ y, ⟨x, by rw [append_assoc]⟩, y, m, hm, rfl⟩

/-- What is found in a part is found in the whole. -/
lemma found_of_isInfix {s : List α} (h : s <:+: t) (hs : r.found s) :
    r.found t := by
  obtain ⟨x, m, y, rfl, hm⟩ := found_iff.1 hs
  obtain ⟨u, v, rfl⟩ := h
  exact found_iff.2 ⟨u ++ x, m, y ++ v, by simp only [append_assoc], hm⟩

end Pattern

end Text
