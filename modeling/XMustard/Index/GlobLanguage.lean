import Mathlib.Computability.Language
import XMustard.Index.Glob

/-! # The language of a glob

What a pattern is for: every element has its own language and a pattern matches the concatenation
of what its elements match. Read from left to right, an element may be waiting for more bytes
(`*` inside a name, `**/` inside a path); what is waiting after each byte follows from what was
waiting before it, and that is what the automaton computes. -/

namespace Index.Glob

open List Computability

/-- A pattern element with the bytes of its class. -/
inductive Element where
  | lit (c : UInt8)
  | any
  | cls (has : UInt8 → Bool)
  | star
  | dirStar
  | allStar

/-- Runs of bytes without `/`. -/
def names : Language UInt8 := {t | slash ∉ t}

@[simp] lemma mem_names {t : List UInt8} : t ∈ names ↔ slash ∉ t := Iff.rfl

@[simp] lemma mem_top (t : List UInt8) : t ∈ (⊤ : Language UInt8) := trivial

/-- Whole directories: a name and its `/`, any number of times. -/
def directories : Language UInt8 := (names * {[slash]})∗

/-- What an element matches. -/
def Element.language : Element → Language UInt8
  | .lit c => {[c]}
  | .any => {t | ∃ c ≠ slash, t = [c]}
  | .cls has => {t | ∃ c, has c ∧ t = [c]}
  | .star => names
  | .dirStar => directories
  | .allStar => ⊤

variable (es : List Element)

/-- What a pattern matches, element by element. -/
def language : Language UInt8 := (es.map Element.language).prod

@[simp] lemma language_nil : language [] = 1 := rfl

@[simp] lemma language_cons (e : Element) (es : List Element) :
    language (e :: es) = e.language * language es := by simp [language]

@[simp] lemma language_append (es fs : List Element) :
    language (es ++ fs) = language es * language fs := by simp [language]

/-- The elements that match exactly one byte `c`. -/
def Element.consumes (c : UInt8) : Element → Bool
  | .lit b => b = c
  | .any => c ≠ slash
  | .cls has => has c
  | _ => false

/-- The elements that match one byte. -/
def Element.isSingle : Element → Bool
  | .lit _ | .any | .cls _ => true
  | _ => false

/-- The elements that go on after a byte. -/
def Element.stays (isSlash : Bool) : Element → Bool
  | .star => !isSlash
  | .dirStar | .allStar => true
  | _ => false

/-- The elements that may end without another byte; `**/` ends at a component boundary only. -/
def Element.skips (boundary : Bool) : Element → Bool
  | .star | .allStar => true
  | .dirStar => boundary
  | _ => false

/-- What an element may have read without being done. -/
def Element.pending : Element → Language UInt8
  | .star => names
  | .dirStar | .allStar => ⊤
  | _ => 1

/-- The texts after which element `i` is being read. -/
def active (i : ℕ) : Language UInt8 :=
  language (es.take i) * (es[i]?).elim 1 Element.pending

/-- Every `**/` starts a component. -/
def Placed : Prop :=
  ∀ i, es[i + 1]? = some .dirStar → es[i]? = some (.lit slash)

/-! ### Directories -/

lemma snoc_slash_mem_directories (t : List UInt8) : t ++ [slash] ∈ directories := by
  have hone : ∀ x ∈ names, x ++ [slash] ∈ names * {[slash]} := fun x hx =>
    Language.append_mem_mul hx rfl
  induction t with
  | nil => exact Language.mem_kstar.2 ⟨[[slash]], rfl, by simpa using hone [] (by simp)⟩
  | cons c t ih =>
    obtain ⟨L, hflat, hL⟩ := Language.mem_kstar.1 ih
    by_cases hc : c = slash
    · refine Language.mem_kstar.2 ⟨[slash] :: L, by simp [← hflat, hc], ?_⟩
      simp only [mem_cons, forall_eq_or_imp]
      exact ⟨hone [] (by simp), hL⟩
    · -- the first directory of the rest takes the byte into its name
      cases L with
      | nil => simp at hflat
      | cons y L =>
        simp only [mem_cons, forall_eq_or_imp] at hL
        obtain ⟨x, hx, z, rfl, rfl⟩ := Language.mem_mul.1 hL.1
        refine Language.mem_kstar.2 ⟨((c :: x) ++ [slash]) :: L, by simp [hflat], ?_⟩
        simp only [mem_cons, forall_eq_or_imp]
        exact ⟨hone (c :: x) (by simpa [Ne.symm hc] using hx), hL.2⟩

/-- Whole directories end where a component may start. -/
lemma mem_directories {t : List UInt8} : t ∈ directories ↔ componentStart t.getLast? := by
  constructor
  · intro h
    obtain ⟨L, rfl, hL⟩ := Language.mem_kstar.1 h
    rcases eq_nil_or_concat L with rfl | ⟨L, y, rfl⟩
    · rfl
    · obtain ⟨x, -, z, rfl, rfl⟩ := Language.mem_mul.1 (hL y (by simp))
      simp [componentStart]
  · intro h
    rcases eq_nil_or_concat t with rfl | ⟨t, c, rfl⟩
    · exact Language.nil_mem_kstar _
    · obtain rfl : c = slash := by simpa [componentStart] using h
      simpa using snoc_slash_mem_directories t

/-! ### Reading one more byte -/

section reading

variable {es : List Element} {e : Element} {i : ℕ} {c : UInt8} {t : List UInt8}
  {l m : Language UInt8}

lemma active_of_getElem? (h : es[i]? = some e) :
    active es i = language (es.take i) * e.pending := by simp [active, h]

lemma language_take_succ (h : es[i]? = some e) :
    language (es.take (i + 1)) = language (es.take i) * e.language := by
  simp [take_add_one, h]

lemma nil_mem_mul : [] ∈ l * m ↔ [] ∈ l ∧ [] ∈ m := by
  simp [Language.mem_mul]

/-- A concatenation ends in its second part, unless that is empty. -/
lemma snoc_mem_mul :
    t ++ [c] ∈ l * m ↔
      (t ++ [c] ∈ l ∧ [] ∈ m) ∨ ∃ x ∈ l, ∃ y, y ++ [c] ∈ m ∧ x ++ y = t := by
  rw [Language.mem_mul]
  constructor
  · rintro ⟨x, hx, y, hy, hxy⟩
    rcases eq_nil_or_concat y with rfl | ⟨y, d, rfl⟩
    · exact .inl ⟨by simpa [← hxy] using hx, hy⟩
    · rw [concat_eq_append, ← append_assoc] at hxy
      obtain ⟨rfl, hd⟩ := append_inj' hxy rfl
      cases hd
      exact .inr ⟨x, hx, y, by simpa using hy, rfl⟩
  · rintro (⟨hx, hnil⟩ | ⟨x, hx, y, hy, rfl⟩)
    · exact ⟨_, hx, [], hnil, by simp⟩
    · exact ⟨x, hx, y ++ [c], hy, by simp⟩

lemma Element.nil_mem_pending (e : Element) : [] ∈ e.pending := by
  cases e <;> simp [pending, Language.mem_one]

lemma Element.snoc_mem_pending (e : Element) (y : List UInt8) :
    y ++ [c] ∈ e.pending ↔ y ∈ e.pending ∧ e.stays (c = slash) := by
  cases e with
  | star => simp [pending, stays, eq_comm (a := slash)]
  | dirStar | allStar => simp [pending, stays]
  | lit | any | cls => simp [pending, stays, Language.mem_one]

/-- Before the first byte an element is being read exactly when all before it match nothing. -/
lemma nil_mem_active : [] ∈ active es i ↔ [] ∈ language (es.take i) := by
  rw [active, nil_mem_mul]
  cases h : es[i]? with
  | none => simp [Language.mem_one]
  | some e => simp [e.nil_mem_pending]

/-- After a byte an element is being read when it was before and stays, or when all before it have
just matched. -/
lemma snoc_mem_active : t ++ [c] ∈ active es i ↔
      t ++ [c] ∈ language (es.take i) ∨ (t ∈ active es i ∧ (es[i]?).any (·.stays (c = slash))) := by
  rw [active, snoc_mem_mul]
  cases h : es[i]? with
  | none => simp [Language.mem_one]
  | some e =>
    simp only [Option.elim_some, e.nil_mem_pending, and_true, e.snoc_mem_pending, Option.any_some,
      Language.mem_mul]
    refine or_congr_right ⟨?_, ?_⟩
    · rintro ⟨x, hx, y, ⟨hy, hstays⟩, hxy⟩
      exact ⟨⟨x, hx, y, hy, hxy⟩, hstays⟩
    · rintro ⟨⟨x, hx, y, hy, hxy⟩, hstays⟩
      exact ⟨x, hx, y, ⟨hy, hstays⟩, hxy⟩

lemma Element.mem_language_single (he : e.isSingle) :
    t ∈ e.language ↔ ∃ c, e.consumes c ∧ t = [c] := by
  cases e with
  | lit b => exact show t = [b] ↔ _ by simp [consumes]
  | any => exact show (∃ c ≠ slash, t = [c]) ↔ _ by simp [consumes]
  | cls has => exact Iff.rfl
  | star | dirStar | allStar => simp [isSingle] at he

/-- An element that matches one byte is done when all before it match the text without its last
byte. -/
lemma mem_mul_single (he : e.isSingle) :
    t ∈ l * e.language ↔ ∃ s c, t = s ++ [c] ∧ s ∈ l ∧ e.consumes c := by
  constructor
  · rintro ⟨x, hx, y, hy, rfl⟩
    obtain ⟨c, hc, rfl⟩ := (Element.mem_language_single he).1 hy
    exact ⟨x, c, rfl, hx, hc⟩
  · rintro ⟨x, c, rfl, hx, hc⟩
    exact ⟨x, hx, [c], (Element.mem_language_single he).2 ⟨c, hc, rfl⟩, rfl⟩

section

variable (hplaced : Placed es)
include hplaced

/-- What `**/` comes after ends where a component may start. -/
lemma Placed.componentStart (h : es[i]? = some .dirStar) (ht : t ∈ language (es.take i)) :
    componentStart t.getLast? := by
  cases i with
  | zero =>
    cases ht
    rfl
  | succ i =>
    rw [language_take_succ (hplaced i h)] at ht
    obtain ⟨x, -, y, rfl, rfl⟩ := Language.mem_mul.1 ht
    simp [Glob.componentStart]

/-- A text that a `**/` is reading at a boundary consists of what is before it and whole
directories. -/
lemma mem_mul_directories (h : es[i]? = some .dirStar) :
    t ∈ language (es.take i) * directories ↔
      Glob.componentStart t.getLast? ∧ t ∈ language (es.take i) * ⊤ := by
  simp only [Language.mem_mul, mem_directories]
  constructor
  · rintro ⟨x, hx, y, hy, rfl⟩
    refine ⟨?_, x, hx, y, trivial, rfl⟩
    rcases eq_nil_or_concat y with rfl | ⟨y, c, rfl⟩
    · simpa using hplaced.componentStart h hx
    · simpa [← append_assoc] using hy
  · rintro ⟨hstart, x, hx, y, -, rfl⟩
    refine ⟨x, hx, y, ?_, rfl⟩
    rcases eq_nil_or_concat y with rfl | ⟨y, c, rfl⟩
    · rfl
    · simpa [← append_assoc] using hstart

/-- Element `i` is done after a text when it has consumed its last byte, or when it was being read
and may end there. -/
lemma mem_language_take_succ (h : es[i]? = some e) :
    t ∈ language (es.take (i + 1)) ↔
      (∃ s c, t = s ++ [c] ∧ s ∈ active es i ∧ e.consumes c) ∨
        (e.skips (componentStart t.getLast?) ∧ t ∈ active es i) := by
  rw [language_take_succ h, active_of_getElem? h]
  cases e with
  | lit b => simp [mem_mul_single (e := .lit b) rfl, Element.pending, Element.skips]
  | any => simp [mem_mul_single (e := .any) rfl, Element.pending, Element.skips]
  | cls has => simp [mem_mul_single (e := .cls has) rfl, Element.pending, Element.skips]
  | star | allStar => simp [Element.language, Element.pending, Element.consumes, Element.skips]
  | dirStar =>
    simp [Element.language, Element.pending, Element.consumes, Element.skips,
      mem_mul_directories hplaced h]

/-! ### The automaton's step -/

/-- What is being read before the first byte: the first element and all that skips lead to. -/
lemma nil_mem_active_iff_flood (hi : i ≤ es.length) :
    [] ∈ active es i ↔
      Bits.flood (fun j => (es[j]?).any (·.skips true)) (fun j => decide (j = 0)) false i := by
  rw [nil_mem_active]
  induction i with
  | zero => simp [Bits.flood, Language.mem_one]
  | succ i ih =>
    have hget : es[i]? = some es[i] := List.getElem?_eq_getElem hi
    rw [mem_language_take_succ hplaced hget, nil_mem_active, ih (by omega)]
    simp [Bits.flood, componentStart, hget]

/-- What is being read after one more byte: the elements that stay, those after an element that
consumes the byte, and all that skips lead to from there. -/
lemma snoc_mem_active_iff_flood {d : ℕ → Bool} (hd : ∀ j ≤ es.length, d j ↔ t ∈ active es j)
    (hi : i ≤ es.length) :
    t ++ [c] ∈ active es i ↔
      Bits.flood (fun j => (es[j]?).any (·.skips (c = slash)))
        (fun j => (decide (0 < j) && d (j - 1) && (es[j - 1]?).any (·.consumes c)) ||
          (d j && (es[j]?).any (·.stays (c = slash)))) false i := by
  induction i with
  | zero => simp [snoc_mem_active, Bits.flood, Language.mem_one, hd]
  | succ i ih =>
    have hget : es[i]? = some es[i] := List.getElem?_eq_getElem hi
    have hstart : componentStart (t ++ [c]).getLast? = decide (c = slash) := by
      simp [componentStart]
    rw [snoc_mem_active, mem_language_take_succ hplaced hget, ih (by omega), hstart, Bits.flood]
    simp [hget, hd (i + 1) hi, hd i (by omega), and_comm, or_assoc, or_comm]

/-- Once no element is being read none ever is again. -/
lemma not_mem_active_append (h : ∀ j ≤ es.length, t ∉ active es j) (u : List UInt8)
    (hi : i ≤ es.length) : t ++ u ∉ active es i := by
  induction u using List.reverseRecOn generalizing i with
  | nil => simpa using h i hi
  | append_singleton u c ih =>
    have hnone : ∀ j ≤ es.length, (fun _ => false : ℕ → Bool) j ↔ t ++ u ∈ active es j :=
      fun j hj => by simpa using ih hj
    rw [← append_assoc, snoc_mem_active_iff_flood hplaced hnone hi]
    simp [Bits.flood_false]

end

/-- The last state is the pattern's language. -/
lemma active_length : active es es.length = language es := by simp [active]

end reading

end Index.Glob
