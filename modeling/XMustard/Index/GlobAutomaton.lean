import XMustard.Index.GlobLanguage

/-! # The automaton accepts the pattern's language

The compiled masks say of every element what it does with a byte, one word step computes what is
being read after one more byte, and so the whole run, in one word or in many, decides the language
of the elements. The checks on length, prefix and suffix only turn away texts outside it. -/

namespace Index.Glob

open List Bits Nat

lemma and_one_beq_one {w : ℕ} (x : BitVec (w + 1)) :
    (x &&& 1#(w + 1) == 1#(w + 1)) = x.getLsbD 0 := by
  rw [BitVec.and_one_eq_setWidth_ofBool_getLsbD]
  cases x.getLsbD 0 <;> simp

lemma setHas_eq_bit (s : ByteSet) (c : UInt8) : setHas s c = bit s c.toNat := by
  have hdiv : (c >>> 6).toNat = c.toNat / 64 := by simp [shiftRight_eq_div_pow]
  have hmod : (c &&& 63).toNat = c.toNat % 64 := by
    simpa using and_two_pow_sub_one_eq_mod c.toNat 6
  rw [setHas, hdiv, hmod, and_one_beq_one]
  rfl

variable (classes : List ByteSet)

/-- The element that a parsed one stands for. -/
def Tok.element : Tok → Element
  | .lit c => .lit c
  | .any => .any
  | .cls k => .cls (setHas (classes.getD k.toNat []))
  | .star => .star
  | .dirStar => .dirStar
  | .allStar => .allStar

/-! ### Masks -/

section marking

variable {σ α : Type*} {w : ℕ} (f : σ → List (BitVec w)) {kind : α → Bool} {step : σ → α × ℕ → σ}

section

variable (hstep : ∀ s a i, f (step s (a, i)) = if kind a then setBit (f s) i else f s) (as : List α)
  (k : ℕ) (s : σ)
include hstep as k s

lemma length_foldl_zipIdx : (f ((as.zipIdx k).foldl step s)).length = (f s).length := by
  induction as generalizing k s with
  | nil => rfl
  | cons a as ih =>
    rw [zipIdx_cons, foldl_cons, ih, hstep]
    split_ifs <;> simp

/-- Marking the elements of one kind, one after the other, marks exactly the elements of that
kind. -/
lemma bit_foldl_zipIdx (hlen : k + as.length ≤ w * (f s).length) (j : ℕ) :
    bit (f ((as.zipIdx k).foldl step s)) j =
      (bit (f s) j || (decide (k ≤ j) && (as[j - k]?).any kind)) := by
  induction as generalizing k s with
  | nil => simp
  | cons a as ih =>
    have hfirst : (f (step s (a, k))).length = (f s).length := length_foldl_zipIdx f hstep [a] k s
    simp only [length_cons] at hlen
    have hone : bit (f (step s (a, k))) j = (bit (f s) j || (decide (j = k) && kind a)) := by
      rw [hstep]
      split_ifs with ha
      · simp [bit_setBit (f s) (i := k) (by omega), ha]
      · simp [ha]
    rw [zipIdx_cons, foldl_cons, ih _ _ (by rw [hfirst]; omega), hone, Bool.or_assoc]
    congr 1
    rcases lt_trichotomy j k with h | rfl | h
    · simp [show ¬ k + 1 ≤ j by omega, show ¬ k ≤ j by omega, show j ≠ k by omega]
    · simp
    · obtain ⟨i, rfl⟩ : ∃ i, j = k + 1 + i := ⟨j - (k + 1), by omega⟩
      simp [show k + 1 + i ≠ k by omega, show k ≤ k + 1 + i by omega,
        show k + 1 + i - k = i + 1 by omega]

end

end marking

lemma map_modify_mask {masks : List Masks} {i : ℕ} {f : Masks → Word} {g : Masks → Masks}
    {kind : Bool} (h : ∀ m, f (g m) = if kind then f m ||| 1#64 <<< (i % 64) else f m) :
    (masks.modify (i / 64) g).map f = if kind then setBit (masks.map f) i else masks.map f := by
  have hset : (if kind then setBit (masks.map f) i else masks.map f) = (masks.map f).modify (i / 64)
      fun x => if kind then x ||| 1#64 <<< (i % 64) else x := by
    cases kind
    · exact (modify_id _ _).symm
    · rfl
  rw [hset]
  apply ext_getElem?
  intro j
  simp only [getElem?_map, getElem?_modify]
  cases masks[j]? with
  | none => rfl
  | some m => by_cases hj : i / 64 = j <;> simp [hj, h]

variable (b : Bool)

/-- An element is marked in the words of the elements that stay, exactly when it does. -/
lemma map_stay_place (s : Marks) (t : Tok) (i : ℕ) :
    (s.place classes (t, i)).masks.map (·.stay b) =
      if (t.element classes).stays b then setBit (s.masks.map (·.stay b)) i
      else s.masks.map (·.stay b) := by
  cases t with
  | lit | any | cls => simp [Marks.place, Marks.row, Tok.element, Element.stays]
  | star | dirStar | allStar =>
    refine map_modify_mask fun m => ?_
    cases b <;> simp [Masks.stay, Tok.element, Element.stays]
    all_goals ac_rfl

lemma map_skippable_place (s : Marks) (t : Tok) (i : ℕ) :
    (s.place classes (t, i)).masks.map (·.skippable b) =
      if (t.element classes).skips b then setBit (s.masks.map (·.skippable b)) i
      else s.masks.map (·.skippable b) := by
  cases t with
  | lit | any | cls => simp [Marks.place, Marks.row, Tok.element, Element.skips]
  | star | dirStar | allStar =>
    refine map_modify_mask fun m => ?_
    cases b <;> simp [Masks.skippable, Tok.element, Element.skips]
    all_goals ac_rfl

lemma getD_row (s : Marks) {cs : List ℕ} (hcs : cs.Nodup) (i c : ℕ) :
    (s.row cs i).perByte.getD c [] =
      if c ∈ cs then setBit (s.perByte.getD c []) i else s.perByte.getD c [] := by
  have hone : ∀ (rows : List (List Word)) b, (rows.modify b (setBit · i)).getD c [] =
      if c = b then setBit (rows.getD c []) i else rows.getD c [] := by
    intro rows b
    simp only [getD_eq_getElem?_getD, getElem?_modify]
    cases rows[c]? with
    | none => simp [setBit]
    | some r => by_cases hb : c = b <;> simp [hb, eq_comm (a := b)]
  induction cs generalizing s with
  | nil => rfl
  | cons b cs ih =>
    obtain ⟨hb, hcs⟩ := nodup_cons.1 hcs
    have hrest := ih { s with perByte := s.perByte.modify b (setBit · i) } hcs
    have hrow : s.row (b :: cs) i =
      Marks.row { s with perByte := s.perByte.modify b (setBit · i) } cs i := rfl
    rw [hrow, hrest, hone]
    by_cases hcb : c = b
    · subst hcb; simp [hb]
    · simp [hcb]

/-- An element is marked in a byte's row exactly when it consumes the byte. -/
lemma getD_perByte_place (c : UInt8) (s : Marks) (t : Tok) (i : ℕ) :
    (s.place classes (t, i)).perByte.getD c.toNat [] =
      if (t.element classes).consumes c then setBit (s.perByte.getD c.toNat []) i
      else s.perByte.getD c.toNat [] := by
  have hrange : ∀ p : ℕ → Bool, ((range 256).filter p).Nodup := fun p =>
    nodup_range.filter p
  have hlt : c.toNat < 256 := c.toNat_lt
  cases t with
  | lit b =>
    rw [Marks.place, getD_row _ (nodup_singleton _)]
    simp [Tok.element, Element.consumes, UInt8.toNat_inj, eq_comm (a := b)]
  | any =>
    rw [Marks.place, getD_row _ (hrange _)]
    simp [Tok.element, Element.consumes, UInt8.toNat_inj, hlt]
  | cls k =>
    rw [Marks.place, getD_row _ (hrange _)]
    simp [Tok.element, Element.consumes, hlt]
  | star | dirStar | allStar => rfl

lemma length_perByte_foldl_place (ps : List (Tok × ℕ)) (s : Marks) :
    (ps.foldl (Marks.place classes) s).perByte.length = s.perByte.length := by
  have hrow : ∀ (cs : List ℕ) (i : ℕ) (s : Marks),
      (s.row cs i).perByte.length = s.perByte.length := by
    intro cs i
    induction cs with
    | nil => simp [Marks.row]
    | cons c cs ih =>
      intro s
      exact (ih { s with perByte := s.perByte.modify c (setBit · i) }).trans (length_modify ..)
  have hplace : ∀ (s : Marks) (p : Tok × ℕ),
      (s.place classes p).perByte.length = s.perByte.length := by
    rintro s ⟨t, i⟩
    cases t <;> first | exact hrow _ _ _ | rfl
  induction ps generalizing s with
  | nil => rfl
  | cons p ps ih => rw [foldl_cons, ih, hplace]

/-! ### Byte classes -/

/-- The rows seen so far are the numbered ones, each at its number's place. -/
structure Rows.Numbered (words : ℕ) (seen : List (List Word)) (s : Rows) : Prop where
  length : s.adv.length = s.ids.length * words
  few : s.ids.length ≤ seen.length
  row : ∀ p ∈ s.ids, (s.adv.drop (p.2.toNat * words)).take words = p.1
  within : ∀ p ∈ s.ids, p.2.toNat < s.ids.length
  classes : List.Forall₂ (fun r id => (r, id) ∈ s.ids) seen s.classOf

lemma Rows.Numbered.intern {words : ℕ} {seen : List (List Word)} {s : Rows} {r : List Word}
    (h : s.Numbered words seen) (hseen : seen.length < 256) (hwords : 0 < words)
    (hr : r.length = words) : (s.intern words r).Numbered words (seen ++ [r]) := by
  cases hlook : s.ids.lookup r with
  | some id =>
    have hmem : (r, id) ∈ s.ids := by
      obtain ⟨l₁, l₂, heq, -⟩ := lookup_eq_some_iff.1 hlook
      simp [heq]
    simp only [Rows.intern, hlook]
    exact {
      length := h.length
      few := h.few.trans (by simp)
      row := h.row
      within := h.within
      classes := rel_append h.classes (.cons hmem .nil) }
  | none =>
    -- at most 255 rows have a number, so the next number is a byte
    have hid : (UInt8.ofNat (s.adv.length / words)).toNat = s.ids.length := by
      rw [h.length, Nat.mul_div_cancel _ hwords]
      exact UInt8.toNat_ofNat_of_lt (lt_of_le_of_lt h.few hseen)
    simp only [Rows.intern, hlook]
    exact {
      length := by simp [h.length, hr, Nat.add_mul]
      few := by simpa using h.few
      row := by
        simp only [mem_append, mem_singleton]
        rintro p (hp | rfl)
        · have hle : (p.2.toNat + 1) * words ≤ s.adv.length := by
            rw [h.length]
            exact mul_le_mul_right _ (h.within p hp)
          rw [Nat.add_mul] at hle
          rw [drop_append_of_le_length (by omega),
            take_append_of_le_length (by rw [length_drop]; omega), h.row p hp]
        · rw [hid, ← h.length, drop_left, ← hr, take_length]
      within := by
        simp only [mem_append, mem_singleton, length_append, length_singleton]
        rintro p (hp | rfl)
        · exact lt_succ_of_lt (h.within p hp)
        · exact hid ▸ lt_succ_self _
      classes := rel_append (h.classes.imp fun _ _ hmem => by simp [hmem])
        (.cons (by simp) .nil) }

/-- The row of a byte's class is the byte's row. -/
lemma Rows.row_foldl_intern {words : ℕ} (hwords : 0 < words) {rs : List (List Word)}
    (hrs : rs.length ≤ 256) (hlen : ∀ r ∈ rs, r.length = words) {c : ℕ} (hc : c < rs.length) :
    let s := rs.foldl (Rows.intern words) {}
    (s.adv.drop ((s.classOf.getD c 0).toNat * words)).take words = rs.getD c [] := by
  have hnum : ∀ (todo seen : List (List Word)) (s : Rows), s.Numbered words seen →
      seen ++ todo = rs → (todo.foldl (Rows.intern words) s).Numbered words rs := by
    intro todo
    induction todo with
    | nil =>
      rintro seen s h rfl
      simpa using h
    | cons r todo ih =>
      intro seen s h hseen
      have hr : r ∈ rs := by simp [← hseen]
      have hcount : seen.length < 256 := by
        have := congrArg length hseen
        simp at this
        omega
      exact ih (seen ++ [r]) _ (h.intern hcount hwords (hlen r hr)) (by simpa using hseen)
  have h := hnum rs [] {} ⟨by simp, by simp, by simp, by simp, .nil⟩ rfl
  have hc' := h.classes.length_eq ▸ hc
  intro s
  have hrow := h.row _ (h.classes.get hc hc')
  simpa [s, hc, hc'] using hrow

/-! ### The compiled automaton -/

section compiled

variable (toks : List Tok) (classes : List ByteSet)

/-- The elements an automaton is compiled from. -/
def elementsOf : List Element := toks.map (Tok.element classes)

lemma Nfa.new_words : toks.length < 64 * (Nfa.new toks classes).words := by
  simp only [Nfa.new]
  omega

lemma Nfa.new_words_pos : 0 < (Nfa.new toks classes).words := by
  simp only [Nfa.new]
  omega

/-- The marks an automaton is compiled to. -/
def marksOf : Marks :=
  toks.zipIdx.foldl (Marks.place classes) (Marks.empty (Nfa.new toks classes).words)

section

variable (f : Marks → List Word) {kind : Element → Bool}
  (hempty : ∀ words, f (Marks.empty words) = replicate words 0)
  (hplace : ∀ s t i, f (s.place classes (t, i)) =
    if kind (t.element classes) then setBit (f s) i else f s)
include hempty hplace

lemma length_marksOf : (f (marksOf toks classes)).length = (Nfa.new toks classes).words := by
  rw [marksOf, length_foldl_zipIdx f hplace, hempty, length_replicate]

lemma bit_marksOf (j : ℕ) :
    bit (f (marksOf toks classes)) j = ((elementsOf toks classes)[j]?).any kind := by
  have hlen : 0 + toks.length ≤ 64 * (f (Marks.empty (Nfa.new toks classes).words)).length := by
    simpa [hempty] using (Nfa.new_words toks classes).le
  rw [marksOf, bit_foldl_zipIdx f hplace _ _ _ hlen, hempty]
  simp [elementsOf, Option.any_map]

end

lemma map_masks_empty {f : Masks → Word} (hf : f {} = 0) (words : ℕ) :
    (Marks.empty words).masks.map f = replicate words 0 := by
  rw [← hf]
  exact map_replicate

lemma Nfa.masks_new : (Nfa.new toks classes).masks = (marksOf toks classes).masks := rfl

lemma getD_perByte_empty (c : UInt8) (words : ℕ) :
    (Marks.empty words).perByte.getD c.toNat [] = replicate words 0 := by
  have hlt : c.toNat < 256 := c.toNat_lt
  simp only [Marks.empty, getD_eq_getElem?_getD, getElem?_replicate, if_pos hlt,
    Option.getD_some]

lemma length_perByte_marksOf : (marksOf toks classes).perByte.length = 256 :=
  (length_perByte_foldl_place classes _ _).trans length_replicate

lemma Nfa.advOf_new (c : UInt8) :
    (Nfa.new toks classes).advOf c = (marksOf toks classes).perByte.getD c.toNat [] := by
  have hlen := length_perByte_marksOf toks classes
  refine Rows.row_foldl_intern (Nfa.new_words_pos toks classes) hlen.le ?_ (hlen ▸ c.toNat_lt)
  intro r hr
  obtain ⟨k, hk, rfl⟩ := getElem_of_mem hr
  have hbyte : (UInt8.ofNat k).toNat = k := UInt8.toNat_ofNat_of_lt (hk.trans_eq hlen)
  have h := length_marksOf toks classes (·.perByte.getD (UInt8.ofNat k).toNat [])
    (getD_perByte_empty _) (getD_perByte_place classes _)
  rwa [hbyte, getD_eq_getElem?_getD, getElem?_eq_getElem hk] at h

/-- The words of an automaton say what each element does with a byte. -/
structure Nfa.Encodes (nfa : Nfa) (es : List Element) : Prop where
  n : nfa.n = es.length
  room : es.length < 64 * nfa.words
  masks : nfa.masks.length = nfa.words
  stay : ∀ b j, bit (nfa.masks.map (·.stay b)) j = (es[j]?).any (·.stays b)
  skippable : ∀ b j, bit (nfa.masks.map (·.skippable b)) j = (es[j]?).any (·.skips b)
  length_adv : ∀ c, (nfa.advOf c).length = nfa.words
  adv : ∀ c j, bit (nfa.advOf c) j = (es[j]?).any (·.consumes c)

lemma Nfa.encodes_new : (Nfa.new toks classes).Encodes (elementsOf toks classes) where
  n := by simp [Nfa.new, elementsOf]
  room := by simpa [elementsOf] using Nfa.new_words toks classes
  masks := by
    have h := length_marksOf toks classes (fun s => s.masks.map (·.stay true)) (map_masks_empty rfl)
      (map_stay_place classes true)
    rwa [length_map] at h
  stay b j := by
    rw [Nfa.masks_new, bit_marksOf toks classes (fun s => s.masks.map (·.stay b))
      (map_masks_empty (by cases b <;> rfl)) (map_stay_place classes b)]
  skippable b j := by
    rw [Nfa.masks_new, bit_marksOf toks classes (fun s => s.masks.map (·.skippable b))
      (map_masks_empty (by cases b <;> rfl)) (map_skippable_place classes b)]
  length_adv c := by
    rw [Nfa.advOf_new]
    exact length_marksOf toks classes (·.perByte.getD c.toNat []) (getD_perByte_empty c)
      (getD_perByte_place classes c)
  adv c j := by
    rw [Nfa.advOf_new]
    exact bit_marksOf toks classes (·.perByte.getD c.toNat []) (getD_perByte_empty c)
      (getD_perByte_place classes c) j

end compiled

/-! ### Runs -/

lemma closeWide_eq_floodWords (b carry : Bool) (d : List Word) (ms : List Masks)
    (h : ms.length = d.length) :
    closeWide b carry d ms = floodWords (ms.map (·.skippable b)) d carry := by
  induction d generalizing carry ms with
  | nil => simp [closeWide, length_eq_zero_iff.1 h, floodWords]
  | cons x d ih =>
    obtain ⟨m, ms, rfl⟩ := exists_cons_of_length_eq_add_one h
    exact congrArg (_ :: ·) (ih _ ms (by simpa using h))

lemma advanceWide_eq (carry : Word) (d adv : List Word) (ms : List Masks) :
    advanceWide b carry d adv ms =
      zipWith (· ||| ·) (shift carry (zipWith (· &&& ·) d adv))
        (zipWith (· &&& ·) d (ms.map (·.stay b))) := by
  induction d generalizing carry adv ms with
  | nil => simp [advanceWide, shift]
  | cons x d ih =>
    cases adv with
    | nil => simp [advanceWide, shift]
    | cons a adv =>
      cases ms with
      | nil => simp [advanceWide]
      | cons m ms => simp [advanceWide, shift, ih]

section runs

variable {nfa : Nfa} {es : List Element} {d : List Word} {seen : List UInt8} {j : ℕ}

/-- The state's bits are the elements being read after `seen`. -/
structure Tracks (nfa : Nfa) (es : List Element) (d : List Word) (seen : List UInt8) : Prop where
  length : d.length = nfa.words
  bits : ∀ j ≤ es.length, bit d j ↔ seen ∈ active es j

variable (hnfa : nfa.Encodes es)
include hnfa

/-- Closing a state follows every skip. -/
lemma bit_closeWide (hd : d.length = nfa.words) (hj : j ≤ es.length) :
    bit (closeWide b false d nfa.masks) j =
      flood (fun j => (es[j]?).any (·.skips b)) (bit d) false j := by
  have hlt := hnfa.room
  rw [closeWide_eq_floodWords _ _ _ _ (hnfa.masks.trans hd.symm),
    bit_floodWords _ _ (by rw [length_map, hnfa.masks, hd]) _ (by rw [hd]; omega)]
  exact flood_congr _ (fun i _ => hnfa.skippable b i) fun _ _ => rfl

lemma length_closeWide (hd : d.length = nfa.words) :
    (closeWide b false d nfa.masks).length = nfa.words := by
  rw [closeWide_eq_floodWords _ _ _ _ (hnfa.masks.trans hd.symm)]
  simp [hnfa.masks, hd]

/-- The words of the next state before its skips: the elements that stay, and those after an
element that consumes the byte. -/
lemma bit_advanceWide (c : UInt8) (hd : d.length = nfa.words) (hj : j ≤ es.length) :
    bit (advanceWide b 0 d (nfa.advOf c) nfa.masks) j =
      ((decide (0 < j) && bit d (j - 1) && (es[j - 1]?).any (·.consumes c)) ||
        (bit d j && (es[j]?).any (·.stays b))) := by
  have hlt := hnfa.room
  have hadv := hnfa.length_adv c
  rw [advanceWide_eq, bit_or _ _ (by simp [hnfa.masks, hadv]), bit_and, hnfa.stay]
  congr 1
  cases j with
  | zero =>
    rw [bit_shift_zero _ _ (by simp [hd, hadv]; omega)]
    simp
  | succ j =>
    rw [bit_shift_succ _ (by simp) _ (by simp [hd, hadv]; omega), bit_and, hnfa.adv]
    simp

lemma length_advanceWide (c : UInt8) (hd : d.length = nfa.words) :
    (advanceWide b 0 d (nfa.advOf c) nfa.masks).length = nfa.words := by
  rw [advanceWide_eq]
  simp [hnfa.masks, hnfa.length_adv, hd]

variable (hplaced : Placed es)
include hplaced

/-- The first state has read nothing. -/
lemma tracks_nil :
    Tracks nfa es (closeWide true false ((replicate nfa.words 0).set 0 1) nfa.masks) [] := by
  have hlen : ((replicate nfa.words (0 : Word)).set 0 1).length = nfa.words := by simp
  refine ⟨length_closeWide true hnfa hlen, fun j hj => ?_⟩
  rw [bit_closeWide true hnfa hlen hj, nil_mem_active_iff_flood hplaced hj]
  have hfirst : ∀ i, bit ((replicate nfa.words (0 : Word)).set 0 1) i = decide (i = 0) := by
    have hroom := hnfa.room
    obtain ⟨k, hk⟩ := exists_eq_add_one.2 (show 0 < nfa.words by omega)
    intro i
    simp only [hk, replicate_succ, set_cons_zero, bit_cons]
    split_ifs with hi
    · simp [BitVec.getLsbD_one]
    · simp [show i ≠ 0 by omega]
  simp only [funext hfirst]

variable (h : Tracks nfa es d seen)
include h

/-- One byte more: the next state has read it. -/
lemma Tracks.snoc (c : UInt8) :
    Tracks nfa es (closeWide (c = slash) false (advanceWide (c = slash) 0 d (nfa.advOf c) nfa.masks)
      nfa.masks) (seen ++ [c]) := by
  have hlen := length_advanceWide (c = slash) hnfa c h.length
  refine ⟨length_closeWide _ hnfa hlen, fun j hj => ?_⟩
  rw [bit_closeWide _ hnfa hlen hj, snoc_mem_active_iff_flood hplaced h.bits hj,
    flood_congr false (fun _ _ => rfl) fun i hi =>
      bit_advanceWide (c = slash) hnfa c h.length (hi.trans hj)]

/-- A state without a bit is dead: no continuation is in the language. -/
lemma Tracks.dead {c : UInt8}
    (hnone : (advanceWide (c = slash) 0 d (nfa.advOf c) nfa.masks).foldl (· ||| ·) 0 = 0)
    (t : List UInt8) : seen ++ c :: t ∉ language es := by
  have hzero := (foldl_or_eq_zero _).1 hnone
  have hempty : ∀ j ≤ es.length, seen ++ [c] ∉ active es j := by
    intro j hj
    rw [← (h.snoc hnfa hplaced c).bits j hj,
      bit_closeWide _ hnfa (length_advanceWide _ hnfa c h.length) hj, funext hzero]
    simp [flood_false]
  have hdead := not_mem_active_append hplaced hempty t le_rfl
  rw [active_length] at hdead
  simpa using hdead

/-- The run over a text ends in a state whose last bit says whether it is in the language. -/
lemma wideLoop_iff (i work : ℕ) (t : List UInt8) :
    (nfa.wideLoop i d work t).1 ↔ seen ++ t ∈ language es := by
  induction t generalizing d seen i with
  | nil =>
    have hlast := h.bits es.length le_rfl
    rw [active_length] at hlast
    rw [append_nil, ← hlast, Nfa.wideLoop, hnfa.n, and_one_beq_one]
    rfl
  | cons c t ih =>
    rw [Nfa.wideLoop]
    split_ifs with hzero
    · simpa using h.dead hnfa hplaced hzero t
    · have hrest := ih (h.snoc hnfa hplaced c) (i + 1)
      rwa [append_assoc] at hrest

end runs

/-- On one word the wide run is the one-word run. -/
lemma oneWordLoop_eq_wideLoop {nfa : Nfa} {m : Masks} (hwords : nfa.words = 1)
    (hmasks : nfa.masks = [m]) (hn : nfa.n < 64) (hadv : ∀ c, (nfa.advOf c).length = nfa.words)
    (i : ℕ) (d : Word) (work : ℕ) (t : List UInt8) :
    nfa.oneWordLoop m i d work t = nfa.wideLoop i [d] work t := by
  induction t generalizing i d with
  | nil =>
    rw [Nfa.oneWordLoop, Nfa.wideLoop, div_eq_of_lt hn, mod_eq_of_lt hn]
    simp [hwords]
  | cons c t ih =>
    have hrow : nfa.advOf c = [nfa.adv.getD (nfa.classOf.getD c.toNat 0).toNat 0] := by
      have hlen := hadv c
      rw [Nfa.advOf, hwords, mul_one, take_one, head?_drop] at hlen ⊢
      generalize (nfa.classOf.getD c.toNat 0).toNat = k at hlen ⊢
      cases h : nfa.adv[k]? with
      | none => rw [h] at hlen; cases hlen
      | some a => rw [getD_eq_getElem?_getD, h]; rfl
    have hnext : ∀ x : Word, closeWide (c = slash) false [x] nfa.masks =
        [closeOneWord m x (c = slash)] := by
      intro x
      simp [hmasks, closeWide, closeOneWord, overflowingAdd]
    have hstep : advanceWide (c = slash) 0 [d] (nfa.advOf c) nfa.masks =
        [(d &&& nfa.adv.getD (nfa.classOf.getD c.toNat 0).toNat 0) <<< 1 |||
          (d &&& m.stay (c = slash))] := by
      rw [hrow, hmasks]
      simp [advanceWide]
    rw [Nfa.oneWordLoop, Nfa.wideLoop]
    simp only [hstep, hnext, ih, hwords, foldl_cons, foldl_nil, mul_one]
    rw [show ∀ x : Word, 0 ||| x = x from fun x => BitVec.zero_or]

variable {toks : List Tok} {classes : List ByteSet}

lemma Nfa.matchesOneWord_eq_matchesWide
    (hwords : (Nfa.new toks classes).words = 1) (t : List UInt8) (work : ℕ) :
    (Nfa.new toks classes).matchesOneWord t work = (Nfa.new toks classes).matchesWide t work := by
  have hnfa := Nfa.encodes_new toks classes
  obtain ⟨m, hmasks⟩ := length_eq_one_iff.1 (hnfa.masks.trans hwords)
  have hn := Nfa.new_words toks classes
  rw [hwords] at hn
  rw [Nfa.matchesOneWord, Nfa.matchesWide, hmasks, hwords]
  refine (oneWordLoop_eq_wideLoop hwords hmasks hn hnfa.length_adv _ _ _ _).trans ?_
  simp [closeWide, closeOneWord, overflowingAdd]

/-! ### The checks before a run -/

section checks

variable {classes : List ByteSet} {t : List UInt8}

lemma mem_language_map_lit {cs : List UInt8} :
    t ∈ language (elementsOf (cs.map .lit) classes) ↔ t = cs := by
  induction cs generalizing t with
  | nil => exact Language.mem_one t
  | cons c cs ih =>
    change t ∈ ({[c]} : Language UInt8) * language (elementsOf (cs.map .lit) classes) ↔ _
    simp only [Language.mem_mul, ih]
    constructor
    · rintro ⟨x, rfl, y, rfl, rfl⟩
      rfl
    · rintro rfl
      exact ⟨[c], rfl, cs, rfl, rfl⟩

lemma elementsOf_append (xs ys : List Tok) :
    elementsOf (xs ++ ys) classes = elementsOf xs classes ++ elementsOf ys classes := by
  simp [elementsOf]

/-- The literals a pattern starts with. -/
lemma exists_leadingLits_append (toks : List Tok) :
    ∃ rest, toks = (leadingLits toks).map .lit ++ rest := by
  induction toks with
  | nil => exact ⟨[], rfl⟩
  | cons t toks ih =>
    cases t with
    | lit c =>
      obtain ⟨rest, hrest⟩ := ih
      exact ⟨rest, congrArg (Tok.lit c :: ·) hrest⟩
    | _ => exact ⟨_, rfl⟩

section

variable (h : t ∈ language (elementsOf toks classes))
include h

lemma leadingLits_isPrefix : leadingLits toks <+: t := by
  obtain ⟨rest, hrest⟩ := exists_leadingLits_append toks
  rw [hrest, elementsOf_append, language_append] at h
  obtain ⟨x, hx, y, -, rfl⟩ := Language.mem_mul.1 h
  rw [mem_language_map_lit.1 hx]
  exact prefix_append _ _

lemma trailingLits_isSuffix : (leadingLits toks.reverse).reverse <:+ t := by
  obtain ⟨rest, hrest⟩ := exists_leadingLits_append toks.reverse
  have htoks : toks = rest.reverse ++ (leadingLits toks.reverse).reverse.map .lit := by
    rw [map_reverse, ← reverse_append, ← hrest, reverse_reverse]
  rw [htoks, elementsOf_append, language_append] at h
  obtain ⟨x, -, y, hy, rfl⟩ := Language.mem_mul.1 h
  rw [mem_language_map_lit.1 hy]
  exact suffix_append _ _

/-- A text has a byte for every element that matches one, and no other when no other element is
there. -/
lemma length_of_mem_language : (toks.filter Tok.isSingle).length ≤ t.length ∧
      (toks.all Tok.isSingle → t.length = (toks.filter Tok.isSingle).length) := by
  induction toks generalizing t with
  | nil => simp [(Language.mem_one t).1 h]
  | cons tok toks ih =>
    obtain ⟨x, hx, y, hy, rfl⟩ := Language.mem_mul.1 h
    obtain ⟨hle, heq⟩ := ih hy
    by_cases hsingle : tok.isSingle
    · have hone : x.length = 1 := by
        have he : (tok.element classes).isSingle := by cases tok <;> first | rfl | exact hsingle
        obtain ⟨c, -, rfl⟩ := (Element.mem_language_single he).1 hx
        rfl
      simp only [filter_cons, hsingle, if_true, length_append, length_cons, hone,
        all_cons, Bool.true_and]
      exact ⟨by omega, fun hall => by rw [heq hall]; omega⟩
    · simp only [filter_cons, hsingle, length_append, all_cons]
      simp only [Bool.false_eq_true, if_false, Bool.false_and, false_implies, and_true]
      omega

end

end checks

/-- A text of the language passes every check. -/
lemma Nfa.rejects_eq_false {t : List UInt8}
    (h : t ∈ language (elementsOf toks classes)) : (Nfa.new toks classes).rejects t = false := by
  obtain ⟨hle, heq⟩ := length_of_mem_language h
  have hfixed : (Nfa.new toks classes).fixedLen = toks.all Tok.isSingle := by
    simp [Nfa.new, all_eq_not_any_not]
  have hstarts : (leadingLits toks).isPrefixOf t := by simpa using leadingLits_isPrefix h
  have hends : (leadingLits toks.reverse).reverse.isSuffixOf t := by
    simpa using trailingLits_isSuffix h
  rw [Nfa.rejects, hfixed]
  simp only [Nfa.new, hstarts, hends]
  cases hall : toks.all Tok.isSingle with
  | true => simp [heq hall]
  | false =>
    simp only [Bool.false_and, Bool.or_false, Bool.not_true]
    exact decide_eq_false (not_lt.2 hle)

/-- The automaton accepts exactly the language of its elements. -/
theorem matches_new_iff (hplaced : Placed (elementsOf toks classes)) (t : List UInt8) (work : ℕ) :
    ((Nfa.new toks classes).matches t work).1 ↔ t ∈ language (elementsOf toks classes) := by
  have hnfa := Nfa.encodes_new toks classes
  have hwide : ∀ work, ((Nfa.new toks classes).matchesWide t work).1 ↔
      t ∈ language (elementsOf toks classes) := fun work =>
    wideLoop_iff hnfa hplaced (tracks_nil hnfa hplaced) 0 work t
  rw [Nfa.matches]
  split_ifs with hcheck hone
  · simp only [false_iff]
    intro ht
    simp [Nfa.rejects_eq_false ht] at hcheck
  · rw [← hwide (work + 1), Nfa.matchesOneWord_eq_matchesWide hone]
  · exact hwide _

end Index.Glob
