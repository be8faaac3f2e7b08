import XMustard.Evidence.StringCuts

/-!
# Projections of JSON documents

A projection is a JSON document of the same kind and shape: objects keep their names in order,
arrays some of their elements in order, strings are shortened between characters, and members that
do not fit become placeholders.
-/

namespace Evidence

open List Text Text.Json Program

variable {α β : Type} {j : Reduction} {v w r src body before after : Bytes}

/-! ### What a projection may be -/

mutual

/-- The text `r` is a reduction of the value `v`. -/
inductive Reduces : Bytes → Bytes → Prop
  | same {v : Bytes} : Reduces v v
  | str {chars : List Bytes} {body : Bytes} : (∀ x ∈ chars, IsChar x) → Shortened chars body →
      Reduces (quoted chars.flatten) (quoted body)
  | arr {v : Bytes} {es : List Item} {ps : List (Bytes × Bytes)} : IsArray v es →
      (ps.map Prod.fst).Sublist (es.map Item.text) → (∀ p ∈ ps, Reduces p.1 p.2) →
      Reduces v (91 :: commaSeparated (ps.map Prod.snd) ++ [93])
  | obj {v : Bytes} {ms : List Member} {ps : List (Bytes × Bytes × Bytes)} : IsObject v ms →
      ps.map (fun p => (p.1, p.2.1)) = (ms.take maxSpans).map (fun m => (m.name, m.item.text)) →
      (∀ p ∈ ps, Shown p.2.1 p.2.2) →
      Reduces v (123 :: commaSeparated (ps.map fun p => named p.1 p.2.2) ++ [125])

/-- The text `r` is shown for the value `v` of a member. -/
inductive Shown : Bytes → Bytes → Prop
  | reduced {v r : Bytes} : Reduces v r → Shown v r
  | hidden {v : Bytes} : Shown v (placeholder v.head?)

end

/-- A reduction is of the same kind. -/
lemma Reduces.kind (h : Reduces v r) : kind r = kind v := by
  cases h with
  | same | str => rfl
  | arr hv | obj hv => rcases hv.text with ⟨-, w, -, rfl⟩ | ⟨-, rfl⟩ <;> rfl

lemma isBody_truncMarker (n : Nat) : IsBody (truncMarker n) := by
  have hdots : IsBody [0xE2, 0x80, 0xA6] := by
    have hfollowing : following 0xE2 = some [continuation, continuation] := by decide
    refine ⟨[[0xE2, 0x80, 0xA6]], rfl, fun x hx => ?_⟩
    rw [mem_singleton.1 hx]
    exact .multi hfollowing (by simp) (.cons (by decide) (.cons (by decide) .nil))
  have hdigits : IsBody (decimal n) := by
    refine isBody_plain fun c hc => ?_
    obtain ⟨d, hd, rfl⟩ := mem_map.1 hc
    obtain ⟨m, hm, rfl⟩ := exists_digit hd
    clear hd hc
    revert m
    decide
  have hstart : IsBody (ascii "[xmustard: ") := isBody_plain (forall_mem_of_all (by decide))
  have hstop : IsBody (ascii " bytes omitted]") := isBody_plain (forall_mem_of_all (by decide))
  exact isBody_append (isBody_append (isBody_append hdots hstart) hdigits) hstop

lemma Shortened.isBody {chars : List Bytes} (h : Shortened chars body)
    (hchars : ∀ x ∈ chars, IsChar x) : IsBody body := by
  induction h with
  | nil => exact ⟨[], rfl, by simp⟩
  | @keep x chars out _ ih =>
    have hx : IsBody x := ⟨[x], by simp, by simpa using hchars x mem_cons_self⟩
    exact isBody_append hx (ih fun y hy => hchars y (mem_cons_of_mem x hy))
  | @cut xs chars out _ ih =>
    exact isBody_append (isBody_truncMarker _)
      (ih fun y hy => hchars y (mem_append_right xs hy))

/-! ### What a program appends -/

/-- What the program appends to the projection, if it succeeds, and its value are in `P`. -/
def Emits (m : Reducer α) (P : α → Bytes → Prop) : Prop :=
  ∀ st a st', m st = (.ok a, st') → ∃ r, st'.out = st.out ++ r ∧ P a r

namespace Emits

variable {m : Reducer α} {f : α → Reducer β} {P : α → Bytes → Prop} {Q : β → Bytes → Prop}
  {c : Prop}

lemma bind (hm : Emits m P) (hf : ∀ a r, P a r → Emits (f a) fun b r' => Q b (r ++ r')) :
    Emits (m >>= f) Q := by
  intro st b st'' hrun
  obtain ⟨a, st', hrun₁, hrun₂⟩ := bind_eq_ok.1 hrun
  obtain ⟨r, hr, hP⟩ := hm st a st' hrun₁
  obtain ⟨r', hr', hQ⟩ := hf a r hP st' b st'' hrun₂
  exact ⟨r ++ r', by rw [hr', hr, append_assoc], hQ⟩

/-- A program that appends nothing. -/
lemma silent {R : α → Prop} (hm : Emits m fun a r => R a ∧ r = []) (hf : ∀ a, R a → Emits (f a) Q) :
    Emits (m >>= f) Q := by
  refine hm.bind fun a r hr => ?_
  obtain ⟨ha, rfl⟩ := hr
  exact hf a ha

lemma quiet (hm : Emits m fun _ r => r = []) (hf : ∀ a, Emits (f a) Q) : Emits (m >>= f) Q := by
  refine hm.bind fun a r hr => ?_
  rw [hr]
  exact hf a

lemma mono {P' : α → Bytes → Prop} (hm : Emits m P) (h : ∀ a r, P a r → P' a r) : Emits m P' := by
  intro st a st' hrun
  obtain ⟨r, hr, hP⟩ := hm st a st' hrun
  exact ⟨r, hr, h a r hP⟩

lemma pure {a : α} (h : P a []) : Emits (Pure.pure a) P := by
  intro st b st' hrun
  cases hrun
  exact ⟨[], by simp, h⟩

lemma query {g : Projection → Except ReduceErr α} (h : ∀ st a, g st = .ok a → P a []) :
    Emits (query g) P := by
  intro st a st' hrun
  have hst : st' = st := (congrArg Prod.snd hrun).symm
  exact ⟨[], by rw [hst, append_nil], h st a (congrArg Prod.fst hrun)⟩

lemma ensure [Decidable c] {e : ReduceErr} {P : Unit → Bytes → Prop} (h : P () []) :
    Emits (ensure c e) P := by
  intro st a st' hrun
  obtain ⟨-, rfl⟩ := ensure_eq_ok.1 hrun
  exact ⟨[], by simp, h⟩

lemma draw {n : Int} : Emits (draw n) fun _ r => r = [] := by
  refine .quiet (.query fun _ _ _ => rfl) fun _ => .quiet (.ensure rfl) fun _ => ?_
  intro st a st' hwrite
  cases hwrite
  exact ⟨[], by simp, rfl⟩

lemma write (b : Bytes) : Emits (write j b) fun _ r => r = b := by
  refine .quiet (.query fun _ _ _ => rfl) fun _ => .quiet (.ensure rfl) fun _ => ?_
  intro st a st' hwrite
  cases hwrite
  exact ⟨b, rfl, rfl⟩

lemma when [Decidable c] {m : Reducer Unit} {P : Unit → Bytes → Prop} (hm : Emits m P)
    (hnot : ¬c → P () []) : Emits (when c m) P := by
  unfold Program.when
  split
  · exact hm
  · next h => exact pure (hnot h)

end Emits

/-! ### The plans of members -/

variable (remaining : Int)

lemma emits_planStatus (ms : List MemberSpan) :
    Emits (planStatus j remaining ms) fun a r => a.2.length = ms.length ∧ r = [] := by
  induction ms generalizing remaining with
  | nil => exact .pure ⟨rfl, rfl⟩
  | cons m ms ih =>
    have record (remaining : Int) (kept : Bool) :
        Emits (planStatus j remaining ms >>= fun rest => pure (rest.1, kept :: rest.2))
          fun a r => a.2.length = (m :: ms).length ∧ r = [] :=
      (ih remaining).silent fun a ha => .pure ⟨by simp [ha], rfl⟩
    simp only [planStatus]
    split
    · exact record remaining false
    · split
      · exact Emits.draw.quiet fun _ => record 0 true
      · exact record (remaining - m.cost) true

lemma planSmall_length (ms : List (MemberSpan × Bool)) :
    (planSmall remaining ms).2.length = ms.length := by
  fun_induction planSmall remaining ms with
  | case1 => rfl
  | case2 _ _ _ _ _ _ ih | case3 _ _ _ _ _ _ ih => exact congrArg (· + 1) ih

lemma emits_planShares (per : Int) (ms : List (MemberSpan × Bool)) :
    Emits (planShares j per ms) fun a r => a.map Prod.fst = ms.map Prod.fst ∧ r = [] := by
  induction ms with
  | nil => exact .pure ⟨rfl, rfl⟩
  | cons mk ms ih =>
    obtain ⟨m, kept⟩ := mk
    have record (plan : Plan) :
        Emits (planShares j per ms >>= fun rest => pure ((m, plan) :: rest))
          fun a r => a.map Prod.fst = ((m, kept) :: ms).map Prod.fst ∧ r = [] :=
      ih.silent fun a ha => .pure ⟨by simp [ha], rfl⟩
    simp only [planShares]
    split
    · exact record .verbatim
    · split
      · exact (Emits.draw.when fun _ => rfl).quiet fun _ => record _
      · exact record (.share per)

/-- A plan is for all members, in order. -/
lemma emits_planMembers (ms : List MemberSpan) (budget : Int) :
    Emits (planMembers j ms budget) fun a r => a.map Prod.fst = ms ∧ r = [] := by
  refine (emits_planStatus (budget - 2) ms).silent fun status hstatus => ?_
  have hsmall : (planSmall status.1 (ms.zip status.2)).2.length = ms.length := by
    rw [planSmall_length, length_zip, hstatus, min_self]
  refine (emits_planShares _ _).mono fun a r hr => ?_
  rwa [map_fst_zip hsmall.ge] at hr

/-! ### Members -/

variable {sp : Span}

lemma Holds.read (h : Holds src sp w) : Evidence.read src (sp.start, sp.stop) = w := by
  rw [h.2]
  exact h.1.read

lemma Holds.head (h : Holds src sp v) (hv : IsValue v) : src[sp.start]? = v.head? := by
  obtain ⟨c, r, rfl, -, -⟩ := head_value hv
  obtain ⟨t, ht⟩ := h.1.drop
  exact getElem?_of_drop ht

lemma isValue_placeholder (c : Option UInt8) : IsValue (placeholder c) := by
  unfold placeholder
  split
  · exact .emptyObj blank_nil
  · exact .emptyArr blank_nil
  · exact .str ⟨[], rfl, by simp⟩
  · exact .scalar (by right; right; left; rfl)

/-- What reduces the values of a document. -/
def IsReducer (j : Reduction) (child : Span → Int → Reducer Unit) : Prop :=
  ∀ sp v budget, Holds j.source.src sp v → IsValue v →
    Emits (child sp budget) fun _ r => Reduces v r ∧ IsValue r

variable {child : Span → Int → Reducer Unit} {ms : List Member} {items : List Item}

lemma emits_writeValue (hchild : IsReducer j child) {m : MemberSpan} (plan : Plan)
    (hheld : Holds j.source.src m.val v) (hv : IsValue v) :
    Emits (writeValue j child m plan) fun _ r => Shown v r ∧ IsValue r := by
  cases plan with
  | verbatim =>
    refine (Emits.write _).mono fun _ r hr => ?_
    rw [hr, readSpan, hheld.read]
    exact ⟨.reduced .same, hv⟩
  | share n =>
    simp only [writeValue]
    split
    · exact (hchild m.val v _ hheld hv).mono fun _ r hr => ⟨.reduced hr.1, hr.2⟩
    · refine (Emits.write _).mono fun _ r hr => ?_
      rw [hr, hheld.head hv]
      exact ⟨.hidden, isValue_placeholder _⟩

/-- Texts after others, or at the start. -/
def continued (first : Bool) (bs : List Bytes) : Bytes :=
  if first then commaSeparated bs else bs.flatMap fun b => 44 :: b

lemma continued_cons (first : Bool) (b : Bytes) (bs : List Bytes) :
    continued first (b :: bs) = (if first then [] else [44]) ++ (b ++ continued false bs) := by
  cases first <;> simp [continued, commaSeparated]

lemma emits_comma (first : Bool) :
    Emits (when (!first) (write j [44])) fun _ r => r = if first then [] else [44] := by
  cases first with
  | false => exact Emits.write [44]
  | true => exact .pure rfl

/-- The members of an object and what is shown of them: name, value and text. -/
structure ShowsMembers (ms : List Member) (ps : List (Bytes × Bytes × Bytes)) : Prop where
  members : ps.map (fun p => (p.1, p.2.1)) = ms.map fun m => (m.name, m.item.text)
  shown : ∀ p ∈ ps, Shown p.2.1 p.2.2 ∧ IsValue p.2.2

lemma emits_writeMembers (hchild : IsReducer j child)
    {plans : List (MemberSpan × Plan)} (first : Bool)
    (hheld : List.Forall₂ (HoldsMember j.source.src) ms (plans.map Prod.fst))
    (hvalues : ∀ m ∈ ms, IsValue m.item.text) :
    Emits (writeMembers j child first plans) fun _ r => ∃ ps, ShowsMembers ms ps
      ∧ r = continued first (ps.map fun p => named p.1 p.2.2) := by
  induction plans generalizing ms first with
  | nil =>
    obtain rfl := forall₂_nil_right_iff.1 hheld
    exact .pure ⟨[], ⟨rfl, by simp⟩, by cases first <;> rfl⟩
  | cons mp plans ih =>
    obtain ⟨sp, plan⟩ := mp
    obtain ⟨m, ms, hm, hms, rfl⟩ := forall₂_cons_right_iff.1 hheld
    refine (emits_comma first).bind fun _ _ hcomma => (Emits.write _).bind fun _ _ hkey =>
      (Emits.write _).bind fun _ _ hcolon =>
      (emits_writeValue hchild plan hm.2 (hvalues m mem_cons_self)).bind fun _ r hvalue =>
      (ih false hms fun x hx => hvalues x (mem_cons_of_mem m hx)).mono fun _ r' hr' => ?_
    obtain ⟨ps, hps, rfl⟩ := hr'
    refine ⟨(m.name, m.item.text, r) :: ps,
      ⟨by simp [hps.members], forall_mem_cons.2 ⟨hvalue, hps.shown⟩⟩, ?_⟩
    rw [map_cons, continued_cons, hcomma, hkey, hcolon, readSpan, hm.1.read]
    simp [named]

/-- An object is reduced to one with the same names. -/
lemma emits_reduceObject (hchild : IsReducer j child) (hends : EndsRight j.source.src j.source.ends)
    (budget : Int) (hheld : Holds j.source.src sp v)
    (hv : IsObject v ms) :
    Emits (reduceObject j child sp budget) fun _ r => Reduces v r ∧ IsValue r := by
  obtain ⟨t, ht⟩ := hheld.1.drop
  have hmembers : Emits (query fun _ => (members j.source sp.start).map (·.1))
      fun (sps : List MemberSpan) r =>
        List.Forall₂ (HoldsMember j.source.src) (ms.take maxSpans) sps ∧ r = [] := by
    refine .query fun _ sps hsps => ?_
    cases hrun : members j.source sp.start with
    | error e => rw [hrun] at hsps; cases hsps
    | ok found =>
      rw [hrun] at hsps
      cases hsps
      exact ⟨members_spec hends hv ht hrun, rfl⟩
  have htaken (m : Member) (hm : m ∈ ms.take maxSpans) : m ∈ ms := mem_of_mem_take hm
  refine hmembers.silent fun sps hsps =>
    (emits_planMembers sps budget).silent fun plans hplans => ?_
  refine .quiet (.query fun _ _ _ => rfl) fun st => .quiet (.ensure rfl) fun _ => ?_
  refine (Emits.write _).bind fun _ _ hopen => ?_
  rw [← hplans] at hsps
  refine (emits_writeMembers hchild true hsps fun m hm => hv.values m (htaken m hm)).bind
    fun _ _ hwritten => (Emits.write _).mono fun _ _ hclose => ?_
  obtain ⟨ps, hps, rfl⟩ := hwritten
  rw [hopen, hclose]
  have hnames : ∀ p ∈ ps.map (fun p => (p.1, p.2.2)), IsBody p.1 := by
    intro q hq
    obtain ⟨p, hp, rfl⟩ := mem_map.1 hq
    have hmem : (p.1, p.2.1) ∈ (ms.take maxSpans).map fun m => (m.name, m.item.text) := by
      rw [← hps.members]
      exact mem_map_of_mem hp
    obtain ⟨m, hm, heq⟩ := mem_map.1 hmem
    rw [← (Prod.ext_iff.1 heq).1]
    exact (hv.spaced m (htaken m hm)).2.1
  have hobject := IsValue.object hnames (by
    intro q hq
    obtain ⟨p, hp, rfl⟩ := mem_map.1 hq
    exact (hps.shown p hp).2)
  rw [map_map] at hobject
  exact ⟨.obj hv hps.members fun p hp => (hps.shown p hp).1, hobject⟩

/-! ### Elements -/

lemma chooseLeading_length (es : List (Element × Option Int)) :
    (chooseLeading remaining es).length = es.length := by
  fun_induction chooseLeading remaining es <;> simp_all

/-- A budget or none is chosen for every element. -/
lemma emits_chooseElements (els : List Element) (remaining : Int) :
    Emits (chooseElements els remaining) fun a r => a.length = els.length ∧ r = [] := by
  refine (Emits.draw.when fun _ => rfl).quiet fun _ => .pure ⟨?_, rfl⟩
  rw [apply_ite List.length, length_set, ite_self, chooseLeading_length, length_map]

/-- Elements of an array and the texts shown for them. -/
structure ShowsElements (es : List Item) (ps : List (Bytes × Bytes)) : Prop where
  elements : (ps.map Prod.fst).Sublist (es.map Item.text)
  reduced : ∀ p ∈ ps, Reduces p.1 p.2 ∧ IsValue p.2

lemma emits_writeElement (hchild : IsReducer j child) {e : Element} (budget : Int)
    (hheld : Holds j.source.src e.span v) (hv : IsValue v) :
    Emits (writeElement j child e budget) fun _ r => Reduces v r ∧ IsValue r := by
  unfold writeElement
  split
  · refine (Emits.write _).mono fun _ r hr => ?_
    rw [hr, readSpan, hheld.read]
    exact ⟨.same, hv⟩
  · exact hchild e.span v _ hheld hv

lemma emits_writeElements (hchild : IsReducer j child)
    {es : List (Element × Option Int)} (first : Bool)
    (hheld : List.Forall₂ (HoldsItem j.source.src) items (es.map Prod.fst))
    (hvalues : ∀ e ∈ items, IsValue e.text) :
    Emits (writeElements j child first es) fun _ r => ∃ ps, ShowsElements items ps
      ∧ r = continued first (ps.map Prod.snd) := by
  induction es generalizing items first with
  | nil => exact .pure ⟨[], ⟨by simp, by simp⟩, by cases first <;> rfl⟩
  | cons eb es ih =>
    obtain ⟨el, choice⟩ := eb
    obtain ⟨e, items, he, hes, rfl⟩ := forall₂_cons_right_iff.1 hheld
    have hvalues' : ∀ x ∈ items, IsValue x.text := fun x hx => hvalues x (mem_cons_of_mem e hx)
    cases choice with
    | none =>
      refine (ih first hes hvalues').mono fun _ r hr => ?_
      obtain ⟨ps, hps, rfl⟩ := hr
      exact ⟨ps, ⟨hps.elements.cons e.text, hps.reduced⟩, rfl⟩
    | some b =>
      refine (emits_comma first).bind fun _ _ hcomma =>
        (emits_writeElement hchild b he (hvalues e mem_cons_self)).bind fun _ r hvalue =>
        (ih false hes hvalues').mono fun _ r' hr' => ?_
      obtain ⟨ps, hps, rfl⟩ := hr'
      refine ⟨(e.text, r) :: ps,
        ⟨hps.elements.cons_cons e.text, forall_mem_cons.2 ⟨hvalue, hps.reduced⟩⟩, ?_⟩
      rw [map_cons, continued_cons, hcomma]

/-- An array is reduced to one of reductions of some of its elements. -/
lemma emits_reduceArray (hchild : IsReducer j child) (hends : EndsRight j.source.src j.source.ends)
    (budget : Int) (hheld : Holds j.source.src sp v)
    (hv : IsArray v items) :
    Emits (reduceArray j child sp budget) fun _ r => Reduces v r ∧ IsValue r := by
  obtain ⟨t, ht⟩ := hheld.1.drop
  have helements : Emits (query fun _ => elements j.source sp.start)
      fun (es : Elements) r => Lists j.source.src items es.out ∧ r = [] :=
    .query fun _ es hes => ⟨elements_spec hends hv ht hes, rfl⟩
  refine helements.silent fun es hes => ?_
  obtain ⟨kept, hkept, hes⟩ := hes
  refine .quiet (.ensure rfl) fun _ => ?_
  refine (emits_chooseElements es.out (budget - 2)).silent fun chosen hchosen => ?_
  have hzip : (es.out.zip chosen).map Prod.fst = es.out := map_fst_zip hchosen.ge
  refine (Emits.write _).bind fun _ _ hopen => ?_
  rw [← hzip] at hes
  refine (emits_writeElements hchild true hes fun e he => hv.values e (hkept.subset he)).bind
    fun _ _ hwritten => (Emits.write _).mono fun _ _ hclose => ?_
  obtain ⟨ps, hps, rfl⟩ := hwritten
  rw [hopen, hclose]
  refine ⟨.arr hv (hps.elements.trans (hkept.map _)) fun p hp => (hps.reduced p hp).1,
    IsValue.array fun w hw => ?_⟩
  obtain ⟨p, hp, rfl⟩ := mem_map.1 hw
  exact (hps.reduced p hp).2

/-! ### Documents -/

lemma emits_reduceString (budget : Int)
    (hheld : Holds j.source.src sp (quoted body)) (hbody : IsBody body) :
    Emits (reduceString j sp budget) fun _ r => Reduces (quoted body) r ∧ IsValue r := by
  obtain ⟨chars, rfl, hchars⟩ := hbody
  obtain ⟨t, ht⟩ := hheld.1.drop
  have hsrc : j.source.src.drop (sp.start + 1) = chars.flatten ++ 34 :: t := by
    rw [← drop_drop, ht, quoted, cons_append, cons_append, append_assoc]
    rfl
  have hstop : sp.stop - 1 = sp.start + 1 + chars.flatten.length := by
    rw [hheld.2, quoted, length_append, length_cons, length_singleton]
    omega
  have hshort := reduceString_shortened j.source budget hchars hsrc
  rw [← hstop] at hshort
  intro st _ st' hrun
  cases hrun
  exact ⟨_, rfl, .str hchars hshort, .str (hshort.isBody hchars)⟩

/-- The value in a span is written, or a reduction of it. -/
lemma isReducer_reduce (hends : EndsRight j.source.src j.source.ends) (levels : Nat) :
    IsReducer j (reduce j levels) := by
  induction levels with
  | zero =>
    intro sp v budget _ _ st a st' hrun
    cases hrun
  | succ levels ih =>
    intro sp v budget hheld hv
    have hwhole : Emits (write j (readSpan j sp)) fun _ r => Reduces v r ∧ IsValue r := by
      refine (Emits.write _).mono fun _ r hr => ?_
      rw [hr, readSpan, hheld.read]
      exact ⟨.same, hv⟩
    refine .quiet (.query fun _ _ _ => rfl) fun st => .quiet (.ensure rfl) fun _ => ?_
    split
    · exact hwhole
    · rw [hheld.head hv]
      obtain ⟨c, r, rfl, -, -⟩ := head_value hv
      split
      · next h =>
        cases h
        obtain ⟨ms, hms⟩ := hv.isObject
        exact emits_reduceObject ih hends budget hheld hms
      · next h =>
        cases h
        obtain ⟨items, hitems⟩ := hv.isArray
        exact emits_reduceArray ih hends budget hheld hitems
      · next h =>
        cases h
        obtain ⟨body, hbody, heq⟩ := hv.isString
        rw [heq] at hheld ⊢
        exact emits_reduceString budget hheld hbody
      · exact hwhole

/-- The span of the value of a document. -/
lemma skipWS_document {ends : List (Nat × Nat)} (hbefore : Blank before)
    (hv : IsValue v) (hafter : Blank after) (hends : EndsRight (before ++ v ++ after) ends) :
    skipWS (before ++ v ++ after) 0 = before.length
      ∧ skipValue ends (before ++ v ++ after) before.length = some (before.length + v.length) := by
  have hstart : Starts (v ++ after) := by
    obtain ⟨c, r, hc, hblank⟩ := starts_value hv
    exact ⟨c, r ++ after, by rw [hc, cons_append], hblank⟩
  have hwhole : (before ++ v ++ after).drop 0 = before ++ (v ++ after) := by simp
  have hskip := skipWS_eq hwhole hbefore hstart
  have hfollows : Follows after := by
    have hend : Follows ([] : Bytes) := by simp [Follows]
    simpa using follows_of_blank hafter hend
  have hdrop : (before ++ v ++ after).drop before.length = v ++ after := by simp
  rw [Nat.zero_add] at hskip
  exact ⟨hskip, by rw [skipValue_ends hends, skipValue_value hv hdrop hfollows]⟩

variable {out : Bytes} {max target : Int} {keepStatus : Bool} {maxSalientPositions : Nat}
  {contentType : String}

/-- A projection of a document is a reduction of its value within the cap. -/
lemma reduceJson_reduces
    (hbefore : Blank before) (hv : IsValue v) (hafter : Blank after)
    (hrun : reduceJson (before ++ v ++ after) target max keepStatus maxSalientPositions = .ok out) :
    Reduces v out ∧ IsValue out ∧ (out.length : Int) ≤ max := by
  unfold reduceJson at hrun
  split at hrun
  · cases hrun
  next s hindex =>
  obtain ⟨hsource, hends⟩ := index_ends hindex
  obtain ⟨hstart, hstop⟩ := skipWS_document hbefore hv hafter hends
  simp only [hstart, hstop] at hrun
  split at hrun
  · cases hrun
  split at hrun
  · cases hrun
  next st hreduce =>
  split at hrun
  · next hfits =>
    cases hrun
    have hheld : Holds s.src ⟨before.length, before.length + v.length⟩ v := by
      refine ⟨?_, rfl⟩
      rw [hsource, At]
      simp
    obtain ⟨r, hr, hreduces, hvalue⟩ := isReducer_reduce (j := ⟨s, max, keepStatus⟩)
      (by rwa [hsource]) _ _ v target hheld hv _ _ _ hreduce
    rw [hr] at hfits ⊢
    exact ⟨hreduces, hvalue, hfits.1⟩
  · cases hrun

lemma wholeOutput_ne_json : wholeOutput src max ≠ .ok (out, .json) := by
  unfold wholeOutput
  split <;> simp

lemma map_text_ne_json {x : Except ReduceErr Bytes} :
    (x.map fun out => (out, Mode.text)) ≠ .ok (out, .json) := by
  cases x <;> simp [Except.map]

/-- Only the reduction of JSON gives a projection in that mode. -/
lemma reduceJson_of_mode {reduceText : Bytes → Int → Int → Except ReduceErr Bytes}
    (hrun : reduceGeneric reduceText src contentType target max keepStatus maxSalientPositions
      = .ok (out, .json)) :
    classify src contentType = .json ∧
      reduceJson src (min target max) max keepStatus maxSalientPositions = .ok out := by
  unfold reduceGeneric at hrun
  dsimp only at hrun
  split at hrun
  · split at hrun <;> cases hrun
  split at hrun
  · exact absurd hrun map_text_ne_json
  · exact absurd hrun wholeOutput_ne_json
  next hclass =>
  split at hrun
  · next hjson =>
    cases hrun
    exact ⟨hclass, hjson⟩
  · cases hrun
  · cases hrun
  · exact absurd hrun wholeOutput_ne_json
  · split at hrun
    · exact absurd hrun wholeOutput_ne_json
    · exact absurd hrun map_text_ne_json

/-- A document that is reduced as JSON becomes a document of the same kind and shape. -/
theorem reduceGeneric_json {reduceText : Bytes → Int → Int → Except ReduceErr Bytes}
    {before after out : Bytes} {contentType : String} {target max : Int} {keepStatus : Bool}
    {maxSalientPositions : Nat} (hbefore : Blank before) (hv : IsValue v) (hafter : Blank after)
    (hrun : reduceGeneric reduceText (before ++ v ++ after) contentType target max keepStatus
      maxSalientPositions = .ok (out, .json)) :
    IsDocument out ∧ kind out = kind v ∧ (out.length : Int) ≤ max ∧ Reduces v out := by
  obtain ⟨hreduces, hvalue, hfits⟩ :=
    reduceJson_reduces hbefore hv hafter (reduceJson_of_mode hrun).2
  exact ⟨⟨[], out, [], blank_nil, hvalue, blank_nil, by simp⟩, hreduces.kind, hfits, hreduces⟩

/-- An object with a long string. -/
def longString : Bytes :=
  123 :: commaSeparated ([(ascii "a", quoted (List.replicate 100 120))].map fun p => named p.1 p.2)
    ++ [125]

lemma isValue_longString : IsValue longString := by
  have hname : IsBody (ascii "a") := isBody_plain (forall_mem_of_all (by decide))
  have hbody : IsBody (List.replicate 100 120) := isBody_plain (forall_mem_of_all (by decide))
  exact IsValue.object (by simpa using hname) (by simpa using IsValue.str hbody)

def shortString : Bytes :=
  ascii "\x7b\"a\":\"xxxxxxxxxxxxxxxx" ++ truncMarker 76 ++ ascii "xxxxxxxx\"\x7d"

theorem reduceGeneric_json_longString :
    reduceGeneric (fun _ _ _ => .error .unsupported) ([10] ++ longString ++ [10]) "application/json"
        100 200 false 100 = .ok (shortString, .json)
      ∧ IsDocument shortString ∧ kind shortString = kind longString
      ∧ (shortString.length : Int) ≤ 200 ∧ Reduces longString shortString := by
  have hblank : Blank [10] := by simp [Blank, isBlank]
  have hrun : reduceGeneric (fun _ _ _ => .error .unsupported) ([10] ++ longString ++ [10])
      "application/json" 100 200 false 100 = .ok (shortString, .json) := by decide +kernel
  exact ⟨hrun, reduceGeneric_json hblank isValue_longString hblank hrun⟩

/-! ### What is taken for JSON -/

end Evidence
