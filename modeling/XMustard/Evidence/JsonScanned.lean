import XMustard.Evidence.JsonScan
import XMustard.Lists.Order

/-!
# Scans of well-formed documents

On the text of a JSON value the scans find its end, and the spans of its children.
-/

namespace Evidence

open List Text Text.Json Option

variable {src v w body rest t : Bytes} {i d k : Nat}

lemma map_add_map (x : Option Nat) (a b : Nat) :
    (x.map (· + a)).map (· + b) = x.map (· + (a + b)) := by
  cases x with
  | none => rfl
  | some n => simp [add_assoc]

attribute [local simp] containerEnd

/-! ### Strings -/

variable {c : UInt8}

/-- The bytes of a character in several bytes. -/
lemma multi_lead {ranges : List Range} {cs : Bytes} (hf : following c = some ranges)
    (hne : ranges ≠ []) (hcs : List.Forall₂ (fun r b => r.1 ≤ b ∧ b ≤ r.2) ranges cs) :
    192 ≤ c ∧ cs.length ≤ 3 ∧ ∀ b ∈ cs, 128 ≤ b ∧ b < 192 := by
  have hranges : 192 ≤ c ∧ ranges.length ≤ 3 ∧ ∀ r ∈ ranges, 128 ≤ r.1 ∧ r.2 < 192 := by
    unfold following at hf
    split_ifs at hf with h₁ h₂ h₃ h₄ h₅ h₆ h₇ h₈
    all_goals cases hf
    · exact absurd rfl hne
    all_goals refine ⟨?_, by decide, forall_mem_of_all (by decide)⟩
    · exact le_trans (by decide) h₂.1
    · simp [h₃]
    · simp [h₄]
    · exact le_trans (by decide) h₅.1
    · simp [h₆]
    · simp [h₇]
    · exact le_trans (by decide) h₈.1
  refine ⟨hranges.1, hcs.length_eq ▸ hranges.2.1, fun b hb => ?_⟩
  obtain ⟨r, hr, hle⟩ := Lists.forall₂_right hcs hb
  obtain ⟨hlo, hhi⟩ := hranges.2.2 r hr
  exact ⟨hlo.trans hle.1, lt_of_le_of_lt hle.2 hhi⟩

/-- What is known of the bytes of a character. -/
lemma char_cases {x : Bytes} (h : IsChar x) :
    (∃ c cs, x = c :: cs ∧ ¬(128 ≤ c ∧ c < 192) ∧ cs.length ≤ 3 ∧ (∀ e ∈ cs, 128 ≤ e ∧ e < 192)
      ∧ ∀ e ∈ x, e ≠ 92 ∧ e ≠ 34)
    ∨ (∃ c, x = [92, c] ∧ c ≠ 117)
    ∨ ∃ ds, x = 92 :: 117 :: ds ∧ ds.length = 4 ∧ ∀ e ∈ ds, e ≠ 92 ∧ e ≠ 34 := by
  cases h with
  | @plain c _ hlt hquote hescape =>
    exact .inl ⟨c, [], rfl, fun hr => absurd hlt (not_lt.2 hr.1), by simp, by simp,
      by simp [hescape, hquote]⟩
  | escape hc =>
    have hall : ∀ c ∈ ascii "\"\\/bfnrt", c ≠ 117 := forall_mem_of_all (by decide)
    exact .inr (.inl ⟨_, rfl, hall _ hc⟩)
  | unicode hlen hhex =>
    refine .inr (.inr ⟨_, rfl, hlen, fun e he => ?_⟩)
    constructor <;> (rintro rfl; exact absurd (hhex _ he) (by decide))
  | @multi c ranges cs hf hne hcs =>
    obtain ⟨hc, hlen, hcs⟩ := multi_lead hf hne hcs
    refine .inl ⟨c, cs, rfl, fun hr => absurd hr.2 (not_lt.2 hc), hlen, hcs, fun e he => ?_⟩
    have h128 : 128 ≤ e := by
      rcases mem_cons.1 he with rfl | he
      · exact le_trans (by decide) hc
      · exact (hcs e he).1
    constructor <;> (rintro rfl; exact absurd h128 (by decide))

/-- What a scan takes for the body of a string: a byte after a backslash is passed over. -/
inductive Units : Bytes → Prop
  | nil : Units []
  | plain {c : UInt8} {w : Bytes} : c ≠ 92 ∧ c ≠ 34 → Units w → Units (c :: w)
  | escape {c : UInt8} {w : Bytes} : Units w → Units (92 :: c :: w)

lemma Units.plains (h : ∀ c ∈ w, c ≠ 92 ∧ c ≠ 34) (ht : Units t) : Units (w ++ t) := by
  induction w with
  | nil => exact ht
  | cons c w ih =>
    obtain ⟨hc, hw⟩ := forall_mem_cons.1 h
    exact .plain hc (ih hw)

lemma units_body (h : IsBody body) : Units body := by
  obtain ⟨chars, rfl, hchars⟩ := h
  induction chars with
  | nil => exact .nil
  | cons x chars ih =>
    obtain ⟨hx, hchars⟩ := forall_mem_cons.1 hchars
    have hrest := ih hchars
    rcases char_cases hx with ⟨c, cs, -, -, -, -, hplain⟩ | ⟨c, rfl, -⟩ | ⟨ds, rfl, -, hplain⟩
    · exact .plains hplain hrest
    · exact .escape hrest
    · exact .escape (.plains hplain hrest)

/-- A string ends at the quote after its body. -/
lemma stringEnd_units (h : Units body) (t : Bytes) :
    stringEnd (body ++ 34 :: t) = some (body.length + 1) := by
  induction h with
  | nil => simp [stringEnd, stringEndFrom]
  | plain hc _ ih =>
    rw [cons_append, stringEnd, stringEndFrom, if_neg hc.1, if_neg hc.2, ← stringEnd, ih]
    rfl
  | escape _ ih =>
    rw [cons_append, cons_append, stringEnd, stringEndFrom, stringEndFrom, ← stringEnd, ih]
    rfl

/-! ### Containers -/

/-- A byte that is neither a quote nor a bracket. -/
def isInert (c : UInt8) : Bool := c ≠ 34 ∧ !isOpening c ∧ !isClosing c

lemma isInert_iff : isInert c ↔ c ≠ 34 ∧ isOpening c = false ∧ isClosing c = false := by
  simp [isInert]

/-- Text in which the brackets outside strings match, of whatever kind they are. -/
inductive Nested : Bytes → Prop
  | nil : Nested []
  | inert {c : UInt8} {w : Bytes} : isInert c → Nested w → Nested (c :: w)
  | str {body w : Bytes} : Units body → Nested w → Nested (quoted body ++ w)
  | bracket {o c : UInt8} {w w' : Bytes} : isOpening o → isClosing c → Nested w → Nested w' →
      Nested (o :: w ++ c :: w')

variable {e : Item} {m : Member}

namespace Nested

lemma append (hw : Nested w) (ht : Nested t) : Nested (w ++ t) := by
  induction hw with
  | nil => exact ht
  | inert hc _ ih => exact .inert hc ih
  | str hbody _ ih => rw [append_assoc]; exact .str hbody ih
  | bracket ho hc hw _ _ ih => simpa using bracket ho hc hw ih

lemma inerts (h : ∀ c ∈ w, isInert c) : Nested w := by
  induction w with
  | nil => exact .nil
  | cons c w ih =>
    obtain ⟨hc, hw⟩ := forall_mem_cons.1 h
    exact .inert hc (ih hw)

lemma blank (h : Blank w) : Nested w := by
  refine inerts fun c hc => ?_
  have := h c hc
  simp only [isBlank, decide_eq_true_eq] at this
  rcases this with rfl | rfl | rfl | rfl <;> decide

lemma commaSeparated {bs : List Bytes} (h : ∀ b ∈ bs, Nested b) : Nested (commaSeparated bs) := by
  cases bs with
  | nil => exact .nil
  | cons b bs =>
    obtain ⟨hb, hbs⟩ := forall_mem_cons.1 h
    refine hb.append ?_
    clear h
    induction bs with
    | nil => exact .nil
    | cons c bs ih =>
      obtain ⟨hc, hbs⟩ := forall_mem_cons.1 hbs
      exact .inert (by decide) (hc.append (ih hbs))

lemma item (hspaced : e.Spaced) (h : Nested e.text) : Nested e.bytes :=
  ((blank hspaced.1).append h).append (blank hspaced.2)

lemma member (hspaced : m.Spaced) (h : Nested m.item.text) : Nested m.bytes := by
  obtain ⟨hbefore, hname, hafter, hitem⟩ := hspaced
  have hquoted : Nested (quoted m.name) := by simpa using str (units_body hname) .nil
  exact (((blank hbefore).append hquoted).append (blank hafter)).append
    (.inert (by decide) (item hitem h))

end Nested

lemma inert_of_scalar (h : w ∈ scalar.language) : ∀ c ∈ w, isInert c := by
  intro c hc
  have hbyte := (mem_scalar h).2 c hc
  simp only [isInert, isOpening, isClosing, decide_eq_true_eq, Bool.not_eq_true',
    decide_eq_false_iff_not,
    not_or]
  refine ⟨?_, ⟨?_, ?_⟩, ?_, ?_⟩ <;> (rintro rfl; exact absurd hbyte (by decide))

/-- A value to a scan: a scalar, a string or what stands between brackets. -/
inductive Shape : Bytes → Prop
  | scalar {w : Bytes} : w ∈ scalar.language → Shape w
  | str {body : Bytes} : Units body → Shape (quoted body)
  | bracket {o c : UInt8} {w : Bytes} : isOpening o → isClosing c → Nested w → Shape (o :: w ++ [c])

lemma Shape.nested (h : Shape v) : Nested v := by
  cases h with
  | scalar hw => exact .inerts (inert_of_scalar hw)
  | str hbody => simpa using Nested.str hbody .nil
  | bracket ho hc hw => exact .bracket ho hc hw .nil

lemma shape_value (h : IsValue v) : Shape v := by
  induction h with
  | scalar hw => exact .scalar hw
  | str hbody => exact .str (units_body hbody)
  | emptyArr hw | emptyObj hw => exact .bracket (by decide) (by decide) (.blank hw)
  | arr _ hspaced _ ih =>
    refine .bracket (by decide) (by decide) (.commaSeparated (forall_mem_map.2 fun e he => ?_))
    exact .item (hspaced e he) (ih e he).nested
  | obj _ hspaced _ ih =>
    refine .bracket (by decide) (by decide) (.commaSeparated (forall_mem_map.2 fun m hm => ?_))
    exact .member (hspaced m hm) (ih m hm).nested

lemma containerEnd_skip (w t : Bytes) (d : Nat) :
    containerEnd w.length d (w ++ t) = (containerEnd 0 d t).map (· + w.length) := by
  induction w with
  | nil => simp
  | cons c w ih =>
    rw [length_cons, cons_append, containerEnd, ih, map_add_map]

lemma containerEnd_quoted (h : Units body) (t : Bytes) :
    containerEnd 0 d (quoted body ++ t) = (containerEnd 0 d t).map (· + (quoted body).length) := by
  have hend : stringEnd (body ++ [34] ++ t) = some (body ++ [34]).length := by
    simpa using stringEnd_units h t
  rw [quoted, cons_append, cons_append, containerEnd]
  rw [hend]
  simp only
  rw [containerEnd_skip, map_add_map]
  rfl

variable {o : UInt8} {skip fuel extra : Nat} {stack : List Nat} {ends : List (Nat × Nat)}

lemma containerEnd_inert (hc : isInert c) (t : Bytes) :
    containerEnd 0 d (c :: t) = (containerEnd 0 d t).map (· + 1) := by
  obtain ⟨hquote, hopening, hclosing⟩ := isInert_iff.1 hc
  rw [containerEnd, if_neg hquote, if_neg (by simp [hopening]), if_neg (by simp [hclosing])]

lemma containerEnd_opening (ho : isOpening o) (t : Bytes) :
    containerEnd 0 d (o :: t) = (containerEnd 0 (d + 1) t).map (· + 1) := by
  have hquote : o ≠ 34 := by
    rintro rfl
    exact absurd ho (by decide)
  rw [containerEnd, if_neg hquote, if_pos ho]

lemma containerEnd_closing (hc : isClosing c) (t : Bytes) :
    containerEnd 0 d (c :: t)
      = if d = 1 then some 1 else (containerEnd 0 (d - 1) t).map (· + 1) := by
  have hc' : c = 125 ∨ c = 93 := by simpa [isClosing] using hc
  rw [containerEnd, if_neg, if_neg, if_pos hc]
  · rcases hc' with rfl | rfl <;> decide
  · rcases hc' with rfl | rfl <;> decide

/-- A scan inside `d` brackets passes a nested text. -/
lemma Nested.passes (h : Nested w) (hd : 1 ≤ d) (t : Bytes) :
    containerEnd 0 d (w ++ t) = (containerEnd 0 d t).map (· + w.length) := by
  induction h generalizing d t with
  | nil => simp
  | inert hc _ ih =>
    rw [cons_append, containerEnd_inert hc, ih hd, map_add_map]
    rfl
  | str hbody _ ih =>
    rw [append_assoc, containerEnd_quoted hbody, ih hd, map_add_map, length_append, add_comm]
  | bracket ho hc _ _ ih ih' =>
    rw [append_assoc, cons_append, containerEnd_opening ho, ih (by omega), cons_append,
      containerEnd_closing hc, if_neg (by omega), Nat.add_sub_cancel, ih' hd, map_add_map,
      map_add_map, map_add_map]
    simp only [length_append, length_cons]
    congr 1
    funext n
    omega

/-- A container ends at its bracket. -/
lemma containerEnd_bracket (ho : isOpening o) (hc : isClosing c) (hw : Nested w)
    (t : Bytes) : containerEnd 0 0 (o :: w ++ [c] ++ t) = some (o :: w ++ [c]).length := by
  rw [append_assoc, cons_append, containerEnd_opening ho, hw.passes le_rfl, singleton_append,
    containerEnd_closing hc, if_pos rfl]
  simp only [map_some, length_append, length_cons, length_nil,
    some.injEq]
  omega

/-- The brackets at `stack`, from the innermost, are open at offset `i`: a scan from each of them
goes on with the same rest. -/
def StackOpen (src : Bytes) (i skip : Nat) (rest : Bytes) : Nat → List Nat → Prop
  | _, [] => True
  | d, o :: stack =>
    (o < i ∧ containerEnd 0 0 (src.drop o) = (containerEnd skip d rest).map (· + (i - o))
      ∧ ∃ c, src[o]? = some c ∧ isOpening c)
    ∧ StackOpen src i skip rest (d + 1) stack

lemma StackOpen.step {skip' d' : Nat} (hstep : ∀ k, containerEnd skip (d + k) (c :: rest)
      = (containerEnd skip' (d' + k) rest).map (· + 1))
    (h : StackOpen src i skip (c :: rest) d stack) :
    StackOpen src (i + 1) skip' rest d' stack := by
  induction stack generalizing d d' with
  | nil => trivial
  | cons o stack ih =>
    obtain ⟨⟨hlt, hscan, hopen⟩, hstack⟩ := h
    refine ⟨⟨by omega, ?_, hopen⟩, ih (fun k => ?_) hstack⟩
    · have := hstep 0
      rw [add_zero] at this
      rw [hscan, this, map_add_map]
      congr 1
      funext n
      omega
    · have := hstep (k + 1)
      rwa [← add_assoc, add_right_comm, ← add_assoc, add_right_comm d'] at this

/-- A recorded end is where a scan from the bracket ends. -/
def EndsRight (src : Bytes) (ends : List (Nat × Nat)) : Prop :=
  ∀ o stop, (o, stop) ∈ ends → o < stop ∧ containerEnd 0 0 (src.drop o) = some (stop - o)
    ∧ ∃ c, src[o]? = some c ∧ isOpening c

lemma indexFrom_ends {ends' : List (Nat × Nat)}
    (hrest : rest = src.drop i) (hopen : StackOpen src i skip rest 1 stack)
    (hends : EndsRight src ends) (hrun : indexFrom skip i stack ends rest = .ok ends') :
    EndsRight src ends' := by
  induction rest generalizing i skip stack ends with
  | nil =>
    cases skip <;>
    · rw [indexFrom] at hrun
      split at hrun
      · cases hrun
        exact hends
      · cases hrun
  | cons c rest ih =>
    have hrest' : rest = src.drop (i + 1) := by rw [← tail_drop, ← hrest]; rfl
    cases skip with
    | succ skip => exact ih hrest' (hopen.step fun k => by rw [containerEnd]) hends hrun
    | zero =>
      unfold indexFrom at hrun
      split_ifs at hrun with hquote hopening hdeep hclosing
      · subst hquote
        split at hrun
        · cases hrun
        · next k hk =>
          exact ih hrest' (hopen.step fun n => by rw [containerEnd, if_pos rfl, hk]) hends hrun
      · -- the new bracket is where the scan from it starts
        have hopen' : StackOpen src (i + 1) 0 rest 1 (i :: stack) := by
          refine ⟨⟨by omega, ?_, c, ?_, hopening⟩, hopen.step fun n => ?_⟩
          · rw [← hrest, containerEnd_opening hopening]
            simp
          · rw [← List.head?_drop, ← hrest]
            rfl
          · rw [containerEnd_opening hopening, add_right_comm]
        exact ih hrest' hopen' hends hrun
      · split at hrun
        · cases hrun
        · next o stack =>
          obtain ⟨⟨hlt, hscan, hbracket⟩, hstack⟩ := hopen
          refine ih hrest' (hstack.step fun n => ?_) ?_ hrun
          · rw [containerEnd_closing hclosing, if_neg (by omega)]
            congr 2
            omega
          · -- the innermost bracket ends here
            rw [containerEnd_closing hclosing, if_pos rfl] at hscan
            have hnew : o < i + 1 ∧ containerEnd 0 0 (src.drop o) = some (i + 1 - o)
                ∧ ∃ c, src[o]? = some c ∧ isOpening c := by
              refine ⟨by omega, ?_, hbracket⟩
              rw [hscan, map_some]
              congr 1
              omega
            split
            · intro a stop hmem
              rcases mem_cons.1 hmem with heq | hmem
              · cases heq
                exact hnew
              · exact hends a stop hmem
            · exact hends
      · refine ih hrest' (hopen.step fun n => ?_) hends hrun
        rw [containerEnd, if_neg hquote, if_neg hopening, if_neg hclosing]

variable {s : Source} {ms : List Member}

lemma index_ends {maxSalientPositions : Nat}
    (hrun : index src maxSalientPositions = .ok s) : s.src = src ∧ EndsRight src s.ends := by
  unfold index at hrun
  split at hrun
  · cases hrun
  next ends hends =>
  split at hrun
  · cases hrun
  cases hrun
  have hstack : StackOpen src 0 0 src 1 [] := trivial
  exact ⟨rfl, indexFrom_ends (by simp) hstack (by simp [EndsRight]) hends⟩

/-- The recorded ends are those a scan finds. -/
lemma skipValue_ends (hends : EndsRight src ends) : skipValue ends src i = skipValue [] src i := by
  unfold skipValue
  cases hc : src[i]? with
  | none => rfl
  | some c =>
    cases hlook : ends.lookup i with
    | none => rfl
    | some stop =>
      obtain ⟨l₁, l₂, hmem, -⟩ := lookup_eq_some_iff.1 hlook
      obtain ⟨hlt, hscan, c', hc', hopening⟩ := hends i stop (by simp [hmem])
      rw [hc] at hc'
      cases hc'
      have hquote : c ≠ 34 := by
        rintro rfl
        exact absurd hopening (by decide)
      simp only [lookup_nil, if_neg hquote, if_pos hopening, hscan, map_some]
      congr 1
      omega

/-! ### Values in a document -/

/-- The text stands at `i`. -/
def At (src : Bytes) (i : Nat) (w : Bytes) : Prop := w <+: src.drop i

lemma At.drop (h : At src i w) : ∃ t, src.drop i = w ++ t := by
  obtain ⟨t, ht⟩ := h
  exact ⟨t, ht.symm⟩

lemma At.read (h : At src i w) : read src (i, i + w.length) = w := by
  obtain ⟨t, ht⟩ := h.drop
  rw [Evidence.read, ht, Nat.add_sub_cancel_left, take_left]

lemma drop_of_drop {u : Bytes} (h : src.drop i = w ++ u) : src.drop (i + w.length) = u := by
  rw [← drop_drop, h, drop_left]

/-- The text does not start with white space. -/
def Starts (t : Bytes) : Prop := ∃ c r, t = c :: r ∧ isBlank c = false

/-- Scans pass white space. -/
lemma skipWS_eq (h : src.drop i = w ++ t) (hw : Blank w) (ht : Starts t) :
    skipWS src i = i + w.length := by
  obtain ⟨c, r, rfl, hc⟩ := ht
  rw [skipWS, h, takeWhile_append_of_pos hw, takeWhile_cons_of_neg (by simp [hc]),
    append_nil]

lemma getElem?_of_drop (h : src.drop i = c :: t) : src[i]? = some c := by
  rw [← List.head?_drop, h]
  rfl

lemma skipString_quoted (hbody : Units body) (h : src.drop i = quoted body ++ t) :
    skipString src i = some (i + (quoted body).length) := by
  have hdrop : src.drop (i + 1) = body ++ 34 :: t := by
    rw [← drop_drop, h]
    simp [quoted]
  simp only [skipString, hdrop, stringEnd_units hbody, map_some, quoted, length_append,
    length_cons, length_nil]
  congr 1
  omega

/-- What follows a value: the end, or something that ends a scalar. -/
def Follows (t : Bytes) : Prop := ∀ c ∈ t.head?, isDelimiter c

lemma not_delimiter_of_scalar (h : isScalarByte c) : isDelimiter c = false := by
  simp only [isDelimiter, isBlank, decide_eq_true_eq, decide_eq_false_iff_not, not_or]
  refine ⟨?_, ?_, ?_, ?_, ?_, ?_, ?_⟩ <;> (rintro rfl; exact absurd h (by decide))

lemma not_blank_of_scalar (h : isScalarByte c) : isBlank c = false := by
  have := not_delimiter_of_scalar h
  simp only [isDelimiter, decide_eq_false_iff_not, not_or] at this
  simpa using this.2.2.2

/-- A value starts neither with white space nor with a closing bracket. -/
lemma head_value (h : IsValue v) : ∃ c r, v = c :: r ∧ isBlank c = false ∧ isClosing c = false := by
  cases shape_value h with
  | scalar hw =>
    obtain ⟨hne, hbytes⟩ := mem_scalar hw
    obtain ⟨c, r, rfl⟩ := exists_cons_of_ne_nil hne
    have hinert := isInert_iff.1 (inert_of_scalar hw c mem_cons_self)
    exact ⟨c, r, rfl, not_blank_of_scalar (hbytes c mem_cons_self), hinert.2.2⟩
  | str _ => exact ⟨34, _, rfl, by decide, by decide⟩
  | @bracket o _ _ ho =>
    have ho : o = 123 ∨ o = 91 := by simpa [isOpening] using ho
    exact ⟨o, _, rfl, by rcases ho with rfl | rfl <;> decide⟩

lemma starts_value (h : IsValue v) : Starts v := by
  obtain ⟨c, r, hv, hblank, -⟩ := head_value h
  exact ⟨c, r, hv, hblank⟩

lemma Starts.append (h : Starts w) (t : Bytes) : Starts (w ++ t) := by
  obtain ⟨c, r, rfl, hblank⟩ := h
  exact ⟨c, r ++ t, rfl, hblank⟩

/-- The end of a value is found. -/
lemma skipValue_value (hv : IsValue v) (h : src.drop i = v ++ t) (ht : Follows t) :
    skipValue [] src i = some (i + v.length) := by
  cases shape_value hv with
  | @scalar _ hw =>
    obtain ⟨hne, hbytes⟩ := mem_scalar hw
    obtain ⟨c, r, rfl⟩ := exists_cons_of_ne_nil hne
    have hat : src[i]? = some c := getElem?_of_drop (t := r ++ t) h
    have hc := isInert_iff.1 (inert_of_scalar hw c mem_cons_self)
    have hrun : ((c :: r ++ t).takeWhile fun c => !isDelimiter c) = c :: r := by
      rw [takeWhile_append_of_pos fun b hb => by simp [not_delimiter_of_scalar (hbytes b hb)]]
      cases t with
      | nil => simp
      | cons b t => simp [ht b rfl]
    simp only [skipValue, hat, lookup_nil, if_neg hc.1, hc.2.1, Bool.false_eq_true, if_false, h,
      hrun]
  | @str body hbody =>
    have hat : src[i]? = some 34 :=
        getElem?_of_drop (t := body ++ [34] ++ t) (by simpa [quoted] using h)
    simp [skipValue, hat, lookup_nil, skipString_quoted hbody h]
  | @bracket o c w ho hc hw =>
    have hquote : o ≠ 34 := by
      rintro rfl
      exact absurd ho (by decide)
    have hat : src[i]? = some o := getElem?_of_drop (t := w ++ [c] ++ t) (by simpa using h)
    simp only [skipValue, hat, lookup_nil, if_neg hquote, if_pos ho]
    rw [h, containerEnd_bracket ho hc hw]
    rfl

/-! ### Members -/

/-- A member from its name on. -/
def fromName (m : Member) : Bytes := quoted m.name ++ (m.afterName ++ (58 :: m.item.bytes))

/-- A span of the document that holds a text. -/
def Holds (src : Bytes) (s : Span) (w : Bytes) : Prop :=
  At src s.start w ∧ s.stop = s.start + w.length

/-- The spans of a member. -/
def HoldsMember (src : Bytes) (m : Member) (sp : MemberSpan) : Prop :=
  Holds src sp.key (quoted m.name) ∧ Holds src sp.val m.item.text

lemma follows_of_blank (hw : Blank w) (ht : Follows t) : Follows (w ++ t) := by
  cases w with
  | nil => exact ht
  | cons c w =>
    intro b hb
    cases hb
    simp [isDelimiter, hw c mem_cons_self]

/-- The scan of an item, from the white space before it to what follows. -/
lemma scan_item (hspaced : e.Spaced) (hvalue : IsValue e.text)
    (h : src.drop i = e.bytes ++ c :: t) (hc : isDelimiter c) (hblank : isBlank c = false) :
    skipWS src i = i + e.before.length
    ∧ At src (i + e.before.length) e.text
    ∧ skipValue [] src (i + e.before.length) = some (i + e.before.length + e.text.length)
    ∧ skipWS src (i + e.before.length + e.text.length) = i + e.bytes.length
    ∧ src.drop (i + e.bytes.length) = c :: t := by
  have h₀ : src.drop i = e.before ++ (e.text ++ (e.after ++ c :: t)) := by
    rw [h, Item.bytes, append_assoc, append_assoc]
  have h₁ := drop_of_drop h₀
  have h₂ := drop_of_drop h₁
  have hstop : Starts (c :: t) := ⟨c, t, rfl, hblank⟩
  refine ⟨skipWS_eq h₀ hspaced.1 ((starts_value hvalue).append _), ⟨_, h₁.symm⟩,
    skipValue_value hvalue h₁ ?_, ?_, drop_of_drop h⟩
  · refine follows_of_blank hspaced.2 fun b hb => ?_
    cases hb
    exact hc
  · rw [skipWS_eq h₂ hspaced.2 hstop]
    simp only [Item.bytes, length_append]
    omega

/-- The scan of a member from its name on. -/
lemma scan_member (hspaced : m.Spaced) (hvalue : IsValue m.item.text)
    (h : src.drop i = fromName m ++ c :: t) (hc : isDelimiter c) (hblank : isBlank c = false) :
    ∃ ke colon vs ve, skipString src i = some ke ∧ skipWS src ke = colon ∧ src[colon]? = some 58
      ∧ skipWS src (colon + 1) = vs ∧ skipValue [] src vs = some ve
      ∧ skipWS src ve = i + (fromName m).length ∧ src.drop (i + (fromName m).length) = c :: t
      ∧ HoldsMember src m ⟨⟨i, ke⟩, ⟨vs, ve⟩⟩ := by
  obtain ⟨-, hname, hafter, hitem⟩ := hspaced
  have h₀ : src.drop i = quoted m.name ++ (m.afterName ++ (58 :: (m.item.bytes ++ c :: t))) := by
    rw [h, fromName]
    simp
  have h₁ := drop_of_drop h₀
  have h₂ := drop_of_drop h₁
  have h₃ : src.drop (i + (quoted m.name).length + m.afterName.length + 1)
      = m.item.bytes ++ c :: t := by
    rw [← drop_drop, h₂]
    rfl
  obtain ⟨hvs, hat, hve, hnext, hrest⟩ := scan_item hitem hvalue h₃ hc hblank
  refine ⟨_, _, _, _, skipString_quoted (units_body hname) h₀,
    skipWS_eq h₁ hafter ⟨58, _, rfl, by decide⟩,
    getElem?_of_drop h₂, hvs, hve, ?_, drop_of_drop h, ⟨⟨_, h₀.symm⟩, rfl⟩, hat, rfl⟩
  rw [fromName]
  simp only [length_append, length_cons]
  omega

/-- A child that is recorded while there is room, and then the others. -/
lemma forall₂_take_record {α β : Type} {R : α → β → Prop} {x : α} {xs : List α} {y : β}
    {out out' : List β} (hxy : R x y)
    (h : ∃ ys, out' = (if out.length < maxSpans then out ++ [y] else out) ++ ys
      ∧ List.Forall₂ R
        (xs.take (maxSpans - (if out.length < maxSpans then out ++ [y] else out).length)) ys) :
    ∃ ys, out' = out ++ ys ∧ List.Forall₂ R ((x :: xs).take (maxSpans - out.length)) ys := by
  obtain ⟨ys, rfl, hys⟩ := h
  by_cases hroom : out.length < maxSpans
  · rw [if_pos hroom] at hys ⊢
    refine ⟨y :: ys, by simp, ?_⟩
    have htake : maxSpans - out.length = maxSpans - (out ++ [y]).length + 1 := by
      rw [length_append, length_singleton]
      omega
    rw [htake]
    exact .cons hxy hys
  · rw [if_neg hroom] at hys ⊢
    have hzero : maxSpans - out.length = 0 := by omega
    rw [hzero] at hys ⊢
    exact ⟨ys, rfl, hys⟩

/-- The members listed are the first ones, in order. -/
lemma membersFrom_spec (hends : EndsRight s.src s.ends)
    {extra' : Nat} {out out' : List MemberSpan}
    (hspaced : ∀ x ∈ m :: ms, x.Spaced) (hvalues : ∀ x ∈ m :: ms, IsValue x.item.text)
    (h : s.src.drop i = fromName m
      ++ ((ms.map Member.bytes).flatMap (fun b => 44 :: b) ++ 125 :: t))
    (hrun : membersFrom s fuel i out extra = .ok (out', extra')) :
    ∃ sps, out' = out ++ sps
      ∧ List.Forall₂ (HoldsMember s.src) ((m :: ms).take (maxSpans - out.length)) sps := by
  induction ms generalizing m i fuel out extra with
  | nil =>
    cases fuel with
    | zero => cases hrun
    | succ fuel =>
      obtain ⟨ke, colon, vs, ve, hke, hcolon, hat, hvs, hve, hnext, hrest, hholds⟩ :=
        scan_member (hspaced m mem_cons_self) (hvalues m mem_cons_self)
          (by simpa using h) (by decide) (by decide)
      rw [membersFrom] at hrun
      simp only [hke, hcolon, hat, hvs, skipValue_ends hends, hve, hnext, getElem?_of_drop hrest,
        ne_eq, not_true_eq_false, if_false, if_true] at hrun
      cases hrun
      exact forall₂_take_record hholds ⟨[], by simp, by simp⟩
  | cons m' ms ih =>
    cases fuel with
    | zero => cases hrun
    | succ fuel =>
      have h' : s.src.drop i = fromName m ++ 44 :: (m'.before ++ (fromName m'
          ++ ((ms.map Member.bytes).flatMap (fun b => 44 :: b) ++ 125 :: t))) := by
        rw [h]
        simp [Member.bytes, fromName]
      obtain ⟨ke, colon, vs, ve, hke, hcolon, hat, hvs, hve, hnext, hrest, hholds⟩ :=
        scan_member (hspaced m mem_cons_self) (hvalues m mem_cons_self) h' (by decide)
          (by decide)
      have hcomma : s.src.drop (i + (fromName m).length + 1) = m'.before ++ (fromName m'
          ++ ((ms.map Member.bytes).flatMap (fun b => 44 :: b) ++ 125 :: t)) := by
        rw [← drop_drop, hrest]
        rfl
      have hblank : Blank m'.before := (hspaced m' (by simp)).1
      have hkey : skipWS s.src (i + (fromName m).length + 1)
          = i + (fromName m).length + 1 + m'.before.length :=
        skipWS_eq hcomma hblank ⟨34, _, rfl, by decide⟩
      rw [membersFrom] at hrun
      simp only [hke, hcolon, hat, hvs, skipValue_ends hends, hve, hnext, getElem?_of_drop hrest,
        ne_eq, not_true_eq_false, if_false, some.injEq, hkey,
        show ((44 : UInt8) = 125) = False by decide] at hrun
      refine forall₂_take_record hholds (ih ?_ ?_ (drop_of_drop hcomma) hrun)
      · exact fun x hx => hspaced x (mem_cons_of_mem m hx)
      · exact fun x hx => hvalues x (mem_cons_of_mem m hx)

/-- The members of an object, up to the span limit. -/
lemma members_spec (hends : EndsRight s.src s.ends)
    (hv : IsObject v ms) (h : s.src.drop i = v ++ t) {sps : List MemberSpan}
    (hrun : members s i = .ok (sps, extra)) :
    List.Forall₂ (HoldsMember s.src) (ms.take maxSpans) sps := by
  unfold members at hrun
  dsimp only at hrun
  rcases hv.text with ⟨rfl, w, hw, rfl⟩ | ⟨hne, rfl⟩
  · have h₁ : s.src.drop (i + 1) = w ++ 125 :: t := by
      rw [← drop_drop, h]
      simp
    rw [skipWS_eq h₁ hw ⟨125, t, rfl, by decide⟩, getElem?_of_drop (drop_of_drop h₁)] at hrun
    cases hrun
    exact .nil
  · obtain ⟨m, ms, rfl⟩ := exists_cons_of_ne_nil hne
    have h₁ : s.src.drop (i + 1) = m.before ++ (fromName m
        ++ ((ms.map Member.bytes).flatMap (fun b => 44 :: b) ++ 125 :: t)) := by
      rw [← drop_drop, h]
      simp [commaSeparated, Member.bytes, fromName]
    have h₂ := drop_of_drop h₁
    have hquote : s.src[i + 1 + m.before.length]? = some 34 := getElem?_of_drop h₂
    rw [skipWS_eq h₁ (hv.spaced m mem_cons_self).1 ⟨34, _, rfl, by decide⟩, hquote] at hrun
    obtain ⟨sps', rfl, hsps⟩ := membersFrom_spec hends hv.spaced hv.values h₂ hrun
    simpa using hsps

/-! ### Elements -/

/-- The span of an element. -/
def HoldsItem (src : Bytes) (e : Item) (el : Element) : Prop := Holds src el.span e.text

/-- The elements listed are some of the array, in order. -/
def Lists (src : Bytes) (es : List Item) (els : List Element) : Prop :=
  ∃ kept, kept.Sublist es ∧ List.Forall₂ (HoldsItem src) kept els

lemma Elements.add_out (es : Elements) (span : Span) (salient : Bool) :
    (es.add span salient).out = es.out ++ [⟨span, es.total, salient⟩]
      ∨ (es.add span salient).out = es.out := by
  unfold Elements.add
  by_cases hroom : es.total < maxSpans
  · rw [if_pos hroom]
    exact .inl rfl
  · rw [if_neg hroom]
    by_cases hbeyond : salient ∧ es.salientBeyond < maxSpans
    · rw [if_pos hbeyond]
      exact .inl rfl
    · rw [if_neg hbeyond]
      exact .inr rfl

variable {items : List Item} {es : Elements}

lemma Lists.record {span : Span} {salient : Bool}
    {out : List Element} (hspan : Holds src span e.text)
    (h : ∃ els, out = (es.add span salient).out ++ els ∧ Lists src items els) :
    ∃ els, out = es.out ++ els ∧ Lists src (e :: items) els := by
  obtain ⟨els, rfl, kept, hkept, hels⟩ := h
  rcases es.add_out span salient with hadd | hadd
  · refine ⟨⟨span, es.total, salient⟩ :: els, by simp [hadd], e :: kept, hkept.cons_cons e, ?_⟩
    exact .cons hspan hels
  · exact ⟨els, by rw [hadd], kept, hkept.cons e, hels⟩

lemma elementsFrom_spec (hends : EndsRight s.src s.ends) {es' : Elements}
    (hspaced : ∀ x ∈ e :: items, x.Spaced) (hvalues : ∀ x ∈ e :: items, IsValue x.text)
    (h : s.src.drop i = e.text ++ (e.after
      ++ ((items.map Item.bytes).flatMap (fun b => 44 :: b) ++ 93 :: t)))
    (hrun : elementsFrom s fuel i es = .ok es') :
    ∃ els, es'.out = es.out ++ els ∧ Lists s.src (e :: items) els := by
  -- the element without the white space before it
  have hbare : (⟨[], e.text, e.after⟩ : Item).Spaced :=
    ⟨by simp [Blank], (hspaced e mem_cons_self).2⟩
  have hvalue := hvalues e mem_cons_self
  induction items generalizing e i fuel es with
  | nil =>
    cases fuel with
    | zero => cases hrun
    | succ fuel =>
      obtain ⟨-, hat, hve, hnext, hrest⟩ := scan_item hbare hvalue (t := t) (c := 93)
        (by rw [h]; simp [Item.bytes]) (by decide) (by decide)
      simp only [length_nil, add_zero] at hat hve hnext
      rw [elementsFrom] at hrun
      simp only [skipValue_ends hends, hve, hnext, getElem?_of_drop hrest, if_true] at hrun
      cases hrun
      have hspan : Holds s.src ⟨i, i + e.text.length⟩ e.text := ⟨hat, rfl⟩
      exact Lists.record hspan ⟨[], (append_nil _).symm, [], by simp, .nil⟩
  | cons e' items ih =>
    cases fuel with
    | zero => cases hrun
    | succ fuel =>
      obtain ⟨-, hat, hve, hnext, hrest⟩ := scan_item hbare hvalue (c := 44)
        (t := e'.before ++ (e'.text ++ (e'.after
          ++ ((items.map Item.bytes).flatMap (fun b => 44 :: b) ++ 93 :: t))))
        (by rw [h]; simp [Item.bytes]) (by decide) (by decide)
      simp only [length_nil, add_zero] at hat hve hnext
      have hcomma := drop_of_drop (w := [44]) hrest
      have hspaced' : ∀ x ∈ e' :: items, x.Spaced := fun x hx => hspaced x (mem_cons_of_mem e hx)
      have hvalues' : ∀ x ∈ e' :: items, IsValue x.text := fun x hx =>
        hvalues x (mem_cons_of_mem e hx)
      have hskip := skipWS_eq hcomma (hspaced' e' mem_cons_self).1
        ((starts_value (hvalues' e' mem_cons_self)).append _)
      rw [elementsFrom] at hrun
      simp only [skipValue_ends hends, hve, hnext, getElem?_of_drop hrest, ne_eq, not_true_eq_false,
        if_false, some.injEq, show ((44 : UInt8) = 93) = False by decide] at hrun
      rw [length_singleton] at hskip
      rw [hskip] at hrun
      refine Lists.record ⟨hat, rfl⟩ (ih hspaced' hvalues' (drop_of_drop hcomma) hrun ?_ ?_)
      · exact ⟨by simp [Blank], (hspaced' e' mem_cons_self).2⟩
      · exact hvalues' e' mem_cons_self

/-- The elements of an array that are listed. -/
lemma elements_spec (hends : EndsRight s.src s.ends)
    (hv : IsArray v items) (h : s.src.drop i = v ++ t)
    (hrun : elements s i = .ok es) : Lists s.src items es.out := by
  unfold elements at hrun
  dsimp only at hrun
  rcases hv.text with ⟨rfl, w, hw, rfl⟩ | ⟨hne, rfl⟩
  · have h₁ : s.src.drop (i + 1) = w ++ 93 :: t := by
      rw [← drop_drop, h]
      simp
    rw [skipWS_eq h₁ hw ⟨93, t, rfl, by decide⟩, getElem?_of_drop (drop_of_drop h₁)] at hrun
    cases hrun
    exact ⟨[], by simp, .nil⟩
  · obtain ⟨e, items, rfl⟩ := exists_cons_of_ne_nil hne
    have h₁ : s.src.drop (i + 1) = e.before ++ (e.text ++ (e.after
        ++ ((items.map Item.bytes).flatMap (fun b => 44 :: b) ++ 93 :: t))) := by
      rw [← drop_drop, h]
      simp [commaSeparated, Item.bytes]
    have h₂ := drop_of_drop h₁
    obtain ⟨c, r, hc, hblank, hclosing⟩ := head_value (hv.values e mem_cons_self)
    have hfirst : s.src[i + 1 + e.before.length]? = some c := getElem?_of_drop (by rw [h₂, hc]; rfl)
    have hne : c ≠ 93 := by
      rintro rfl
      exact absurd hclosing (by decide)
    rw [skipWS_eq h₁ (hv.spaced e mem_cons_self).1 ⟨c, _, by rw [hc, cons_append], hblank⟩,
      hfirst, if_neg (by simpa using hne)] at hrun
    obtain ⟨els, hout, hels⟩ := elementsFrom_spec hends hv.spaced hv.values h₂ hrun
    rw [hout]
    exact hels

end Evidence
