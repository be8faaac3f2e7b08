import XMustard.Index.GlobClass

/-! # Patterns and their elements

A pattern is read element by element; runs of `*` that the parser merges, and a `**/` that it drops
before another one or a trailing `**`, add nothing to the language. So a compiled glob matches what
the elements of its pattern match. -/

namespace Index.Glob

open List

/-- The elements of the rest of a pattern; `prev` is the byte before it. -/
def elements (foldClasses : Bool) (prev : Option UInt8) (p : List UInt8) : List Element :=
  match p with
  | [] => []
  | c :: rest =>
    if c = '*'.toUInt8 then
      let whole := !(rest.takeWhile (· = '*'.toUInt8)).isEmpty && componentStart prev
      match _h : rest.dropWhile (· = '*'.toUInt8) with
      | [] => if whole then [.allStar] else [.star]
      | d :: after =>
        if whole && d = slash then .dirStar :: elements foldClasses (some d) after
        else .star :: elements foldClasses (some c) (d :: after)
    else if c = '?'.toUInt8 then .any :: elements foldClasses (some c) rest
    else if c = '['.toUInt8 then
      match _h : rest.dropWhile (· ≠ ']'.toUInt8) with
      | [] => .lit c :: elements foldClasses (some c) rest
      | close :: after =>
        .cls (classHas foldClasses (rest.takeWhile (· ≠ ']'.toUInt8))) ::
          elements foldClasses (some close) after
    else if c = '\\'.toUInt8 then
      match rest with
      | d :: after => .lit d :: elements foldClasses (some d) after
      | [] => [.lit c]
    else .lit c :: elements foldClasses (some c) rest
termination_by p.length
decreasing_by
  all_goals simp only [length_cons]
  all_goals
    first
    | omega
    | exact Nat.lt_succ_of_lt (length_lt_of_dropWhile _h)
    | exact Nat.succ_lt_succ (length_lt_of_dropWhile _h)

section reading

variable {foldClasses : Bool} {prev : Option UInt8} {rest after : List UInt8} {c d : UInt8}

/-- A run of stars, its first one taken off, is a whole component so far. -/
def starsWhole (prev : Option UInt8) (rest : List UInt8) : Bool :=
  !(rest.takeWhile (· = '*'.toUInt8)).isEmpty && componentStart prev

lemma elements_stars_end (h : rest.dropWhile (· = '*'.toUInt8) = []) :
    elements foldClasses prev ('*'.toUInt8 :: rest) =
      [if starsWhole prev rest then .allStar else .star] := by
  rw [elements.eq_def]
  simp only [if_true]
  split
  · rw [starsWhole]
    split_ifs <;> rfl
  · next heq => simp [h] at heq

lemma elements_stars (h : rest.dropWhile (· = '*'.toUInt8) = d :: after) :
    elements foldClasses prev ('*'.toUInt8 :: rest) =
      if starsWhole prev rest && d = slash then .dirStar :: elements foldClasses (some d) after
      else .star :: elements foldClasses (some '*'.toUInt8) (d :: after) := by
  rw [elements.eq_def]
  simp only [if_true]
  split
  · next heq => simp [h] at heq
  · next heq =>
    obtain ⟨rfl, rfl⟩ : d = _ ∧ after = _ := by simpa [h] using heq
    rfl

lemma elements_any : elements foldClasses prev ('?'.toUInt8 :: rest) =
      .any :: elements foldClasses (some '?'.toUInt8) rest := by
  rw [elements.eq_def]
  simp +decide only [↓reduceIte]

lemma elements_open (h : rest.dropWhile (· ≠ ']'.toUInt8) = []) :
    elements foldClasses prev ('['.toUInt8 :: rest) =
      .lit '['.toUInt8 :: elements foldClasses (some '['.toUInt8) rest := by
  rw [elements.eq_def]
  simp +decide only [↓reduceIte]
  split
  · rfl
  · next heq => rw [h] at heq; cases heq

lemma elements_class (h : rest.dropWhile (· ≠ ']'.toUInt8) = d :: after) :
    elements foldClasses prev ('['.toUInt8 :: rest) =
      .cls (classHas foldClasses (rest.takeWhile (· ≠ ']'.toUInt8))) ::
        elements foldClasses (some d) after := by
  rw [elements.eq_def]
  simp +decide only [↓reduceIte]
  split
  · next heq => rw [h] at heq; cases heq
  · next heq =>
    rw [h] at heq
    cases heq
    rfl

lemma elements_escape : elements foldClasses prev ('\\'.toUInt8 :: d :: after) =
      .lit d :: elements foldClasses (some d) after := by
  rw [elements.eq_def]
  simp +decide only [↓reduceIte]

lemma elements_lone_backslash : elements foldClasses prev ['\\'.toUInt8] = [.lit '\\'.toUInt8] := by
  rw [elements.eq_def]
  simp +decide only [↓reduceIte]

lemma elements_lit (hstar : c ≠ '*'.toUInt8) (hany : c ≠ '?'.toUInt8) (hcls : c ≠ '['.toUInt8)
    (hesc : c ≠ '\\'.toUInt8) :
    elements foldClasses prev (c :: rest) = .lit c :: elements foldClasses (some c) rest := by
  rw [elements.eq_def]
  simp only [if_neg hstar, if_neg hany, if_neg hcls, if_neg hesc]

end reading

/-! ### Where `**/` stands -/

/-- Every parsed `**/` is the first element or comes after a `/`. -/
def TokPlaced (toks : List Tok) : Prop :=
  ∀ i, toks[i + 1]? = some .dirStar → toks[i]? = some (.lit slash)

/-- What the last element says about the byte before the rest of the pattern. -/
def Ready (prev : Option UInt8) (toks : List Tok) : Prop :=
  componentStart prev → ∀ t ∈ toks.getLast?, t = .lit slash ∨ t = .dirStar

variable {toks : List Tok} {t : Tok}

section

variable (h : TokPlaced toks)
include h

lemma TokPlaced.snoc (ht : t = .dirStar → ∀ u ∈ toks.getLast?, u = .lit slash) :
    TokPlaced (toks ++ [t]) := by
  intro i hi
  rcases Nat.lt_trichotomy (i + 1) toks.length with hlt | heq | hgt
  · rw [getElem?_append_left hlt] at hi
    rw [getElem?_append_left (by omega)]
    exact h i hi
  · rw [heq] at hi
    rw [getElem?_append_left (by omega)]
    have hlast : toks.getLast? = toks[i]? := by
      rw [getLast?_eq_getElem?, ← heq, Nat.add_sub_cancel]
    obtain ⟨u, hu⟩ : ∃ u, toks[i]? = some u := ⟨_, getElem?_eq_getElem (by omega)⟩
    rw [hu, ht (by simpa using hi) u (by rw [hlast, hu]; rfl)]
  · rw [getElem?_eq_none (by simp; omega)] at hi
    cases hi

lemma TokPlaced.dropLast : TokPlaced toks.dropLast := by
  intro i hi
  have hlt : i + 1 < toks.dropLast.length := (List.getElem?_eq_some_iff.1 hi).1
  rw [length_dropLast] at hlt
  rw [dropLast_eq_take, getElem?_take_of_lt (by omega)] at hi ⊢
  exact h i hi

lemma TokPlaced.pushOnce_star : TokPlaced (pushOnce toks .star) := by
  rw [pushOnce]
  split_ifs
  · exact h
  · exact h.snoc (by simp)

lemma TokPlaced.pushAllStar : TokPlaced (pushAllStar toks) := by
  rw [Glob.pushAllStar]
  split_ifs
  · exact h.dropLast.snoc (by simp)
  · exact h.snoc (by simp)

lemma TokPlaced.pushOnce_dirStar {prev : Option UInt8} (hready : Ready prev toks)
    (hstart : componentStart prev) : TokPlaced (pushOnce toks .dirStar) := by
  rw [pushOnce]
  split_ifs with hlast
  · exact h
  · refine h.snoc fun _ u hu => (hready hstart u hu).resolve_right ?_
    rintro rfl
    exact hlast hu

end

lemma ready_lit (toks : List Tok) (c : UInt8) : Ready (some c) (toks ++ [.lit c]) := by
  intro hstart t ht
  have hc : c = slash := by simpa [componentStart] using hstart
  simp only [getLast?_append, getLast?_singleton, Option.some_or, Option.mem_def,
    Option.some.injEq] at ht
  exact .inl (by rw [← ht, hc])

lemma ready_of_ne {c : UInt8} (hc : c ≠ slash) (toks : List Tok) : Ready (some c) toks :=
  fun hstart => absurd (by simpa [componentStart] using hstart) hc

lemma ready_dirStar (prev : Option UInt8) (toks : List Tok) :
    Ready prev (pushOnce toks .dirStar) := by
  intro _ t ht
  rw [pushOnce] at ht
  split_ifs at ht with hlast
  · rw [hlast] at ht
    exact .inr (by simpa using ht.symm)
  · exact .inr (by simpa using ht.symm)

/-- The byte a search for `]` stops at. -/
lemma eq_of_dropWhile_ne {b : UInt8} {rest after : List UInt8}
    (h : rest.dropWhile (· ≠ b) = d :: after) : d = b := by
  have hhead := head?_dropWhile_not (fun c : UInt8 => decide (c ≠ b)) rest
  rw [h] at hhead
  simpa using hhead

variable {classes : List ByteSet} {p : List UInt8}

lemma TokPlaced.parseLoop (foldClasses : Bool) {prev : Option UInt8}
    (h : TokPlaced toks) (hready : Ready prev toks) :
    TokPlaced (parseLoop foldClasses prev p toks classes).1 := by
  fun_induction Glob.parseLoop foldClasses prev p toks classes with
  | case1 prev toks classes => exact h
  | case2 prev toks classes rest whole hafter =>
    split_ifs
    · exact h.pushAllStar
    · exact h.pushOnce_star
  | case3 prev toks classes rest whole d after hafter hdir ih =>
    have hstart : componentStart prev := by simp_all [whole]
    exact ih (h.pushOnce_dirStar hready hstart) (ready_dirStar _ _)
  | case4 prev toks classes rest whole d after hafter hdir ih =>
    exact ih h.pushOnce_star (ready_of_ne (by decide) _)
  | case5 prev toks classes rest hstar ih => exact ih (h.snoc (by simp)) (ready_of_ne (by decide) _)
  | case6 _ _ _ _ _ _ _ ih | case8 _ _ _ _ _ _ _ _ ih | case10 _ _ _ _ _ _ _ _ _ ih =>
    exact ih (h.snoc (by simp)) (ready_lit _ _)
  | case7 prev toks classes rest d after hafter hstar hany ih =>
    have hd := eq_of_dropWhile_ne hafter
    exact ih (h.snoc (by simp)) (ready_of_ne (by rw [hd]; decide) _)
  | case9 prev toks classes hstar hany hcls => exact h.snoc (by simp)

/-! ### What the parser drops -/

lemma names_mul_names : names * names = names := by
  ext t
  simp only [Language.mem_mul, mem_names]
  constructor
  · rintro ⟨x, hx, y, hy, rfl⟩
    simp [hx, hy]
  · exact fun h => ⟨t, h, [], by simp, by simp⟩

lemma directories_mul_directories : directories * directories = directories := kstar_mul_kstar _

lemma directories_mul_top : directories * ⊤ = ⊤ := by
  ext t
  simp only [mem_top, iff_true, Language.mem_mul]
  exact ⟨[], Language.nil_mem_kstar _, t, trivial, rfl⟩

/-- A change of elements that keeps the wildcards. -/
structure KeepsWildcards (g : Element → Element) : Prop where
  star : g .star = .star
  dirStar : g .dirStar = .dirStar
  allStar : g .allStar = .allStar

/-- Every class is in the table. -/
def Indexed (toks : List Tok) (classes : List ByteSet) : Prop :=
  ∀ k, .cls k ∈ toks → k.toNat < classes.length

lemma Indexed.append (h : Indexed toks classes)
    (more : List ByteSet) (ht : ∀ k, t = .cls k → k.toNat < (classes ++ more).length) :
    Indexed (toks ++ [t]) (classes ++ more) := by
  intro k hk
  rcases mem_append.1 hk with hk | hk
  · exact (h k hk).trans_le (by simp)
  · exact ht k (mem_singleton.1 hk).symm

lemma Indexed.snoc (h : Indexed toks classes)
    (ht : ∀ k, t ≠ .cls k) : Indexed (toks ++ [t]) classes := by
  simpa using h.append [] fun k hk => absurd hk (ht k)

lemma Indexed.pushOnce (h : Indexed toks classes)
    (ht : ∀ k, t ≠ .cls k) : Indexed (pushOnce toks t) classes := by
  rw [Glob.pushOnce]
  split_ifs
  · exact h
  · exact h.snoc ht

def Element.isClass : Element → Bool
  | .cls _ => true
  | _ => false

section parsing

variable {g : Element → Element} {toks : List Tok} {classes : List ByteSet}

/-- The language of parsed elements, changed by `g`. -/
def languageOf (g : Element → Element) (toks : List Tok) (classes : List ByteSet) :
    Language UInt8 := language ((elementsOf toks classes).map g)

lemma languageOf_snoc (t : Tok) :
    languageOf g (toks ++ [t]) classes =
      languageOf g toks classes * (g (t.element classes)).language := by
  simp [languageOf, elementsOf]

/-- A larger table changes no element that is there. -/
lemma languageOf_append_classes (h : Indexed toks classes) (more : List ByteSet) :
    languageOf g toks (classes ++ more) = languageOf g toks classes := by
  have hsame : elementsOf toks (classes ++ more) = elementsOf toks classes := by
    refine map_congr_left fun t ht => ?_
    cases t with
    | cls k =>
      have hk := h k ht
      simp [Tok.element, getElem?_append_left hk]
    | _ => rfl
  rw [languageOf, hsame, languageOf]

lemma languageOf_pushOnce (t : Tok)
    (hidem : (g (t.element classes)).language * (g (t.element classes)).language =
      (g (t.element classes)).language) :
    languageOf g (pushOnce toks t) classes =
      languageOf g toks classes * (g (t.element classes)).language := by
  rw [pushOnce]
  split_ifs with hlast
  · obtain ⟨init, rfl⟩ := getLast?_eq_some_iff.1 hlast
    rw [languageOf_snoc, mul_assoc, hidem]
  · exact languageOf_snoc t

lemma languageOf_pushOnce_star (hg : KeepsWildcards g) :
    languageOf g (pushOnce toks .star) classes = languageOf g toks classes * names := by
  have hstar : g (Tok.star.element classes) = .star := hg.star
  rw [languageOf_pushOnce] <;> rw [hstar]
  · rfl
  · exact names_mul_names

lemma languageOf_pushOnce_dirStar (hg : KeepsWildcards g) :
    languageOf g (pushOnce toks .dirStar) classes = languageOf g toks classes * directories := by
  have hstar : g (Tok.dirStar.element classes) = .dirStar := hg.dirStar
  rw [languageOf_pushOnce] <;> rw [hstar]
  · rfl
  · exact directories_mul_directories

lemma languageOf_pushAllStar (hg : KeepsWildcards g) :
    languageOf g (pushAllStar toks) classes = languageOf g toks classes * ⊤ := by
  rw [pushAllStar, languageOf_snoc]
  simp only [Tok.element, hg.allStar, Element.language]
  split_ifs with hlast
  · obtain ⟨init, rfl⟩ := getLast?_eq_some_iff.1 hlast
    rw [dropLast_concat, languageOf_snoc, mul_assoc]
    simp only [Tok.element, hg.dirStar, Element.language, directories_mul_top]
  · rfl

lemma toNat_ofNat_length_lt (classes : List ByteSet) (set : ByteSet) :
    (UInt32.ofNat classes.length).toNat < (classes ++ [set]).length := by
  rw [length_append]
  exact Nat.lt_succ_of_le (Nat.mod_le _ _)

/-- The element of a class just parsed, as long as its number is not reduced. -/
lemma element_class (h : classes.length < 2 ^ 32) {foldClasses : Bool} {body : List UInt8} :
    (Tok.cls (UInt32.ofNat classes.length)).element (classes ++ [classSet foldClasses body]) =
      .cls (classHas foldClasses body) := by
  have hk : (UInt32.ofNat classes.length).toNat = classes.length := by
    rw [UInt32.toNat_ofNat', Nat.mod_eq_of_lt h]
  have hget : (classes ++ [classSet foldClasses body]).getD classes.length [] =
      classSet foldClasses body := by simp
  rw [Tok.element, hk, hget]
  exact congrArg Element.cls (funext (setHas_classSet foldClasses body))

/-- Parsing the rest of a pattern adds the language of its elements. -/
theorem languageOf_parseLoop (hg : KeepsWildcards g) (foldClasses : Bool) (prev : Option UInt8)
    (p : List UInt8) (hindexed : Indexed toks classes)
    (hcount : classes.length + (elements foldClasses prev p).countP Element.isClass ≤ 2 ^ 32) :
    languageOf g (parseLoop foldClasses prev p toks classes).1
        (parseLoop foldClasses prev p toks classes).2 =
      languageOf g toks classes * language ((elements foldClasses prev p).map g) := by
  fun_induction Glob.parseLoop foldClasses prev p toks classes with
  | case1 prev toks classes => simp [elements]
  | case2 prev toks classes rest whole hafter =>
    rw [elements_stars_end hafter]
    change languageOf g (if starsWhole prev rest then pushAllStar toks else pushOnce toks .star)
      classes = _
    split_ifs
    · simp [languageOf_pushAllStar hg, hg.allStar, Element.language]
    · simp [languageOf_pushOnce_star hg, hg.star, Element.language]
  | case3 prev toks classes rest whole d after hafter hdir ih =>
    rw [(elements_stars hafter).trans (if_pos hdir)] at hcount ⊢
    rw [ih (hindexed.pushOnce (by simp)) hcount, languageOf_pushOnce_dirStar hg, map_cons,
      hg.dirStar, mul_assoc]
    rfl
  | case4 prev toks classes rest whole d after hafter hdir ih =>
    rw [(elements_stars hafter).trans (if_neg hdir)] at hcount ⊢
    rw [ih (hindexed.pushOnce (by simp)) hcount, languageOf_pushOnce_star hg, map_cons, hg.star,
      mul_assoc]
    rfl
  | case5 prev toks classes rest hstar ih =>
    rw [elements_any] at hcount ⊢
    rw [ih (hindexed.snoc (by simp)) hcount, languageOf_snoc, mul_assoc]
    rfl
  | case6 prev toks classes rest hafter hstar hany ih =>
    rw [elements_open hafter] at hcount ⊢
    rw [ih (hindexed.snoc (by simp)) hcount, languageOf_snoc, mul_assoc]
    rfl
  | case7 prev toks classes rest d after hafter hstar hany ih =>
    rw [elements_class hafter] at hcount ⊢
    rw [countP_cons_of_pos rfl] at hcount
    have hclass : classes.length < 2 ^ 32 := by omega
    rw [ih (hindexed.append _ (by rintro k ⟨⟩; exact toNat_ofNat_length_lt classes _))
      (by rw [length_append, length_singleton]; omega), languageOf_snoc,
      languageOf_append_classes hindexed, element_class hclass, map_cons, language_cons,
      mul_assoc]
  | case8 prev toks classes d after hstar hany hcls ih =>
    rw [elements_escape] at hcount ⊢
    rw [ih (hindexed.snoc (by simp)) hcount, languageOf_snoc, mul_assoc]
    rfl
  | case9 prev toks classes hstar hany hcls =>
    rw [elements_lone_backslash, languageOf_snoc]
    simp [Tok.element]
  | case10 prev toks classes c rest hstar hany hcls hesc ih =>
    rw [elements_lit hstar hany hcls hesc] at hcount ⊢
    rw [ih (hindexed.snoc (by simp)) hcount, languageOf_snoc, mul_assoc]
    rfl

end parsing

/-! ### Compiled globs -/

/-- Literals in lower case, the other elements as they are. -/
def Element.lower : Element → Element
  | .lit c => .lit (toAsciiLowercase c)
  | e => e

lemma placed_elementsOf (h : TokPlaced toks) (classes : List ByteSet) :
    Placed (elementsOf toks classes) := by
  intro i hi
  rw [elementsOf, getElem?_map, Option.map_eq_some_iff] at hi ⊢
  obtain ⟨t, ht, hdir⟩ := hi
  obtain rfl : t = .dirStar := by cases t <;> simp_all [Tok.element]
  exact ⟨.lit slash, h i ht, rfl⟩

lemma mapM_byte?_eq_some {cs : List UInt8} (h : toks.mapM Tok.byte? = some cs) :
    toks = cs.map .lit := by
  induction toks generalizing cs with
  | nil =>
    cases h
    rfl
  | cons t toks ih =>
    obtain ⟨c, hc, rest, hrest, rfl⟩ :
        ∃ c, t.byte? = some c ∧ ∃ rest, toks.mapM Tok.byte? = some rest ∧
        c :: rest = cs := by simpa [mapM_cons, Option.bind_eq_some_iff] using h
    obtain rfl : t = .lit c := by cases t <;> simp_all [Tok.byte?]
    rw [map_cons, ← ih hrest]

lemma matches_fromParts_iff (h : TokPlaced toks) (classes : List ByteSet) (t : List UInt8) :
    (fromParts toks classes).matches t ↔ t ∈ language (elementsOf toks classes) := by
  rw [fromParts]
  split
  · next cs hcs =>
    rw [mapM_byte?_eq_some hcs, mem_language_map_lit]
    exact beq_iff_eq.trans eq_comm
  · exact matches_new_iff (placed_elementsOf h classes) t 0

lemma TokPlaced.parse (foldClasses : Bool) (p : List UInt8) :
    TokPlaced (parseWithCase p foldClasses).1 :=
  TokPlaced.parseLoop foldClasses (fun i hi => by simp at hi) (fun _ t ht => by simp at ht)

lemma elementsOf_lower (toks : List Tok) (classes : List ByteSet) :
    elementsOf (toks.map Tok.lower) classes = (elementsOf toks classes).map Element.lower := by
  simp only [elementsOf, map_map]
  refine map_congr_left fun t _ => ?_
  cases t <;> rfl

lemma TokPlaced.lower (h : TokPlaced toks) : TokPlaced (toks.map Tok.lower) := by
  intro i hi
  rw [getElem?_map, Option.map_eq_some_iff] at hi ⊢
  obtain ⟨t, ht, hdir⟩ := hi
  obtain rfl : t = .dirStar := by cases t <;> simp_all [Tok.lower]
  exact ⟨.lit slash, h i ht, rfl⟩

/-- How many bracket classes a pattern has. -/
def classCount (p : List UInt8) : ℕ := (elements false none p).countP Element.isClass

/-- Folding case changes what a class has, not where the classes are. -/
lemma map_isClass_elements (prev : Option UInt8) (p : List UInt8) :
    (elements true prev p).map Element.isClass = (elements false prev p).map Element.isClass := by
  fun_induction elements true prev p with
  | case1 prev => rw [elements.eq_def]
  | case2 prev rest whole hafter hwhole => rw [elements_stars_end hafter, starsWhole, if_pos hwhole]
  | case3 prev rest whole hafter hwhole => rw [elements_stars_end hafter, starsWhole, if_neg hwhole]
  | case4 prev rest whole d after hafter hdir ih =>
    rw [(elements_stars hafter).trans (if_pos hdir), map_cons, map_cons, ih]
  | case5 prev rest whole d after hafter hdir ih =>
    rw [(elements_stars hafter).trans (if_neg hdir), map_cons, map_cons, ih]
  | case6 prev rest hstar ih => rw [elements_any, map_cons, map_cons, ih]
  | case7 prev rest hafter hstar hany ih =>
    rw [elements_open hafter, map_cons, map_cons, ih]
  | case8 prev rest d after hafter hstar hany ih =>
    rw [elements_class hafter, map_cons, ih]
    rfl
  | case9 prev d after hstar hany hcls ih =>
    rw [elements_escape, map_cons, map_cons, ih]
  | case10 prev hstar hany hcls => rw [elements_lone_backslash]
  | case11 prev c rest hstar hany hcls hesc ih =>
    rw [elements_lit hstar hany hcls hesc, map_cons, map_cons, ih]

lemma countP_isClass_elements (foldClasses : Bool) (p : List UInt8) :
    (elements foldClasses none p).countP Element.isClass = classCount p := by
  cases foldClasses with
  | false => rfl
  | true =>
    have hmap := congrArg (countP id) (map_isClass_elements none p)
    simpa [classCount, countP_map, Function.comp_def] using hmap

/-- The language of a parsed pattern is the language of its elements. -/
lemma languageOf_parseWithCase {g : Element → Element} (hg : KeepsWildcards g) (foldClasses : Bool)
    (h : classCount p ≤ 2 ^ 32) :
    languageOf g (parseWithCase p foldClasses).1 (parseWithCase p foldClasses).2 =
      language ((elements foldClasses none p).map g) := by
  have hempty : Indexed [] [] := fun k hk => by simp at hk
  have hparse := languageOf_parseLoop hg foldClasses none p hempty
    (by rwa [countP_isClass_elements, length_nil, Nat.zero_add])
  rw [parseWithCase, hparse]
  exact one_mul _

/-- A compiled glob matches what the elements of its pattern match. -/
theorem compile_matches_iff (p t : List UInt8) (h : classCount p ≤ 2 ^ 32) :
    ((compile p).matches t ↔ t ∈ language (elements false none p)) ∧
      ((compileAsciiCaseInsensitive p).matches t ↔
        t ∈ language ((elements true none p).map Element.lower)) := by
  constructor
  · have hlang := languageOf_parseWithCase (g := id) ⟨rfl, rfl, rfl⟩ false h
    rw [languageOf, map_id, map_id] at hlang
    rw [← hlang]
    exact matches_fromParts_iff (TokPlaced.parse false p) _ t
  · have hlang := languageOf_parseWithCase (g := Element.lower) ⟨rfl, rfl, rfl⟩ true h
    rw [← hlang, languageOf, ← elementsOf_lower]
    exact matches_fromParts_iff (TokPlaced.parse true p).lower _ t

/-- The glob `*.c` on `a.c`. -/
theorem compile_matches_starDotC : let p := ['*'.toUInt8, '.'.toUInt8, 'c'.toUInt8]
    let t := ['a'.toUInt8, '.'.toUInt8, 'c'.toUInt8]
    classCount p ≤ 2 ^ 32 ∧
      ((compile p).matches t ↔ t ∈ language (elements false none p)) ∧
        ((compileAsciiCaseInsensitive p).matches t ↔
          t ∈ language ((elements true none p).map Element.lower)) := by
  intro p t
  have hcount : classCount p ≤ 2 ^ 32 := by decide +kernel
  exact ⟨hcount, compile_matches_iff p t hcount⟩

/-! ### Patterns with more classes than numbers

A class is numbered with 32 bits, so the class after the first `2 ^ 32` gets the number of the
first one and matches its bytes. -/

/-- `[a]` so many times. -/
def manyClasses : ℕ → List UInt8
  | 0 => []
  | n + 1 => '['.toUInt8 :: 'a'.toUInt8 :: ']'.toUInt8 :: manyClasses n

lemma elements_bracket (prev : Option UInt8) {c : UInt8} (hc : c ≠ ']'.toUInt8)
    (rest : List UInt8) :
    elements false prev ('['.toUInt8 :: c :: ']'.toUInt8 :: rest) =
      .cls (classHas false [c]) :: elements false (some ']'.toUInt8) rest := by
  have hclose : (c :: ']'.toUInt8 :: rest).dropWhile (· ≠ ']'.toUInt8) = ']'.toUInt8 :: rest := by
    simp [hc]
  rw [elements_class hclose]
  simp [hc]

lemma parseLoop_bracket (prev : Option UInt8) {c : UInt8} (hc : c ≠ ']'.toUInt8)
    (rest : List UInt8) (toks : List Tok) (classes : List ByteSet) :
    parseLoop false prev ('['.toUInt8 :: c :: ']'.toUInt8 :: rest) toks classes =
      parseLoop false (some ']'.toUInt8) rest (toks ++ [.cls (UInt32.ofNat classes.length)])
        (classes ++ [classSet false [c]]) := by
  have hclose : (c :: ']'.toUInt8 :: rest).dropWhile (· ≠ ']'.toUInt8) = ']'.toUInt8 :: rest := by
    simp [hc]
  have hbody : (c :: ']'.toUInt8 :: rest).takeWhile (· ≠ ']'.toUInt8) = [c] := by simp [hc]
  rw [parseLoop.eq_def]
  simp +decide only [↓reduceIte]
  split
  · next heq => rw [hclose] at heq; cases heq
  · next heq =>
    rw [hclose] at heq
    cases heq
    rw [hbody]

lemma language_manyClasses (n : ℕ) (prev : Option UInt8) (rest : List UInt8) {t : List UInt8}
    (h : ∀ prev, t ∈ language (elements false prev rest)) :
    replicate n 'a'.toUInt8 ++ t ∈ language (elements false prev (manyClasses n ++ rest)) := by
  induction n generalizing prev with
  | zero => exact h prev
  | succ n ih =>
    change _ ∈ language (elements false prev
      ('['.toUInt8 :: 'a'.toUInt8 :: ']'.toUInt8 :: (manyClasses n ++ rest)))
    rw [elements_bracket prev (by decide)]
    exact Language.append_mem_mul (a := ['a'.toUInt8]) ⟨_, by decide, rfl⟩ (ih _)

lemma parseLoop_manyClasses (n : ℕ) (prev : Option UInt8) (rest : List UInt8) (toks : List Tok)
    (classes : List ByteSet) :
    ∃ prev' toks', parseLoop false prev (manyClasses n ++ rest) toks classes =
      parseLoop false prev' rest toks' (classes ++ replicate n (classSet false ['a'.toUInt8])) := by
  induction n generalizing prev toks classes with
  | zero => exact ⟨prev, toks, by simp [manyClasses]⟩
  | succ n ih =>
    obtain ⟨prev', toks', hrest⟩ := ih (some ']'.toUInt8)
      (toks ++ [.cls (UInt32.ofNat classes.length)]) (classes ++ [classSet false ['a'.toUInt8]])
    refine ⟨prev', toks', ?_⟩
    change parseLoop false prev
      ('['.toUInt8 :: 'a'.toUInt8 :: ']'.toUInt8 :: (manyClasses n ++ rest)) toks classes = _
    rw [parseLoop_bracket prev (by decide), hrest, append_assoc]
    rfl

/-- With `2 ^ 32` classes before it, `[b]` does not match `b`. -/
lemma not_matches_manyClasses {n : ℕ} (hpos : 0 < n) (hwrap : n % 2 ^ 32 = 0) (t : List UInt8) :
    (compile (manyClasses n ++ ['['.toUInt8, 'b'.toUInt8, ']'.toUInt8])).matches
      (t ++ ['b'.toUInt8]) = false := by
  obtain ⟨prev, toks, hparse⟩ := parseLoop_manyClasses n none
    ['['.toUInt8, 'b'.toUInt8, ']'.toUInt8] [] []
  rw [parseLoop_bracket prev (by decide), parseLoop.eq_1, nil_append, length_replicate]
    at hparse
  set A := classSet false ['a'.toUInt8] with hA
  set B := classSet false ['b'.toUInt8]
  have hplaced := TokPlaced.parse false (manyClasses n ++ ['['.toUInt8, 'b'.toUInt8, ']'.toUInt8])
  rw [parseWithCase, hparse] at hplaced
  have hiff := matches_fromParts_iff hplaced (replicate n A ++ [B]) (t ++ ['b'.toUInt8])
  have hcompile : compile (manyClasses n ++ ['['.toUInt8, 'b'.toUInt8, ']'.toUInt8]) =
      fromParts (toks ++ [.cls (UInt32.ofNat n)]) (replicate n A ++ [B]) := by
    rw [compile, parse, parseWithCase, hparse]
  rw [hcompile, Bool.eq_false_iff, ne_eq, hiff, elementsOf_append, language_append]
  -- the number of the last class is that of the first
  have hfirst : (Tok.cls (UInt32.ofNat n)).element (replicate n A ++ [B]) =
      .cls (setHas A) := by
    have hget : (replicate n A ++ [B]).getD 0 [] = A := by
      obtain ⟨k, rfl⟩ := Nat.exists_eq_add_one.2 hpos
      rfl
    rw [Tok.element, UInt32.toNat_ofNat', hwrap, hget]
  intro hmem
  have hlast : elementsOf [.cls (UInt32.ofNat n)] (replicate n A ++ [B]) = [.cls (setHas A)] :=
    congrArg (· :: []) hfirst
  rw [hlast, language_cons, language_nil, mul_one, mem_mul_single rfl] at hmem
  obtain ⟨x, c, htext, -, hc⟩ := hmem
  obtain ⟨-, hb⟩ := append_inj' htext rfl
  cases hb
  exact absurd hc (by decide)

/-- A pattern of more than `2 ^ 32` classes misses a text of its language. -/
theorem compile_wraps_class_number :
    ∃ p t : List UInt8, t ∈ language (elements false none p) ∧ (compile p).matches t = false := by
  refine ⟨manyClasses (2 ^ 32) ++ ['['.toUInt8, 'b'.toUInt8, ']'.toUInt8],
    replicate (2 ^ 32) 'a'.toUInt8 ++ ['b'.toUInt8], ?_, ?_⟩
  · refine language_manyClasses _ _ _ fun prev => ?_
    rw [elements_bracket prev (by decide), elements.eq_1, language_cons, language_nil, mul_one]
    exact ⟨_, by decide, rfl⟩
  · exact not_matches_manyClasses (Nat.two_pow_pos 32) (Nat.mod_self _) _

end Index.Glob
