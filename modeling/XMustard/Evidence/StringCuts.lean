import XMustard.Evidence.JsonScanned
import XMustard.Evidence.Reduce
import Mathlib.Data.List.Chain

/-!
# Where strings are cut

A cut is safe exactly between two characters of a string as it is written, so the kept segments of a
string are runs of whole characters.
-/

namespace Evidence

open List Text Text.Json Nat

variable {src t x : Bytes} {chars pre : List Bytes} {lo pos p d : Nat}

/-! ### Characters -/

lemma char_ne_nil (h : IsChar x) : x ≠ [] := by
  cases h <;> simp

lemma char_length (h : IsChar x) : x.length ≤ 6 := by
  rcases char_cases h with ⟨c, cs, rfl, -, hlen, -⟩ | ⟨c, rfl, -⟩ | ⟨ds, rfl, hlen, -⟩
  · rw [length_cons]
    omega
  · simp
  · simp [hlen]

lemma flatten_pos (h : ∀ x ∈ chars, IsChar x) (hne : chars ≠ []) : 0 < chars.flatten.length := by
  obtain ⟨x, chars, rfl⟩ := exists_cons_of_ne_nil hne
  have := length_pos_of_ne_nil (char_ne_nil (h x mem_cons_self))
  rw [flatten_cons, length_append]
  omega

variable {r u : Bytes} {c : UInt8}

lemma takeWhile_reverse_plain (hne : u ≠ []) (h : ∀ e ∈ u, e ≠ 92 ∧ e ≠ 34) :
    ((u.reverse ++ r).takeWhile fun c => c = 92) = [] := by
  obtain ⟨v, l, rfl⟩ := (eq_nil_or_concat' u).resolve_left hne
  simp [(h l (by simp)).1]

/-- Whole characters end in an even number of backslashes. -/
lemma even_backslashes (h : ∀ x ∈ chars, IsChar x) :
    (chars.flatten.reverse.takeWhile fun c => c = 92).length % 2 = 0 := by
  induction chars using reverseRecOn with
  | nil => rfl
  | append_singleton chars x ih =>
    have ih := ih fun y hy => h y (by simp [hy])
    rw [flatten_append, flatten_singleton, reverse_append]
    rcases char_cases (h x (by simp)) with ⟨c, cs, rfl, -, -, -, hplain⟩ | ⟨c, rfl, -⟩
      | ⟨ds, rfl, hlen, hplain⟩
    · rw [takeWhile_reverse_plain (by simp) hplain]
      rfl
    · by_cases hc : c = 92
      · simp only [hc, reverse_cons, reverse_nil, nil_append,
          cons_append, takeWhile_cons, decide_true, if_true, length_cons]
        omega
      · simp [hc]
    · rw [reverse_cons, reverse_cons, append_assoc, append_assoc,
        takeWhile_reverse_plain (by rintro rfl; cases hlen) hplain]
      rfl

/-! ### Safe cuts -/

/-- A position is between two characters or within one. -/
lemma locate (chars : List Bytes) (hp : p ≤ chars.flatten.length) :
    (∃ A B, chars = A ++ B ∧ A.flatten.length = p)
    ∨ ∃ A x B, chars = A ++ x :: B ∧ A.flatten.length < p ∧ p < A.flatten.length + x.length := by
  induction chars generalizing p with
  | nil => exact .inl ⟨[], [], rfl, (le_zero.1 hp).symm⟩
  | cons y chars ih =>
    rw [flatten_cons, length_append] at hp
    by_cases hzero : p = 0
    · exact .inl ⟨[], y :: chars, rfl, hzero.symm⟩
    by_cases hin : p < y.length
    · exact .inr ⟨[], y, chars, rfl, by simpa using Nat.pos_of_ne_zero hzero, by simpa using hin⟩
    · obtain ⟨A, B, rfl, hA⟩ | ⟨A, x, B, rfl, hlo, hhi⟩ := ih (p := p - y.length) (by omega)
      · exact .inl ⟨y :: A, B, rfl, by rw [flatten_cons, length_append]; omega⟩
      · refine .inr ⟨y :: A, x, B, rfl, ?_, ?_⟩
        · rw [flatten_cons, length_append]
          omega
        · rw [flatten_cons, length_append]
          omega

lemma backslashRun_eq (hsrc : src.drop lo = u ++ c :: r) :
    backslashRun src lo (lo + u.length)
      = ((c :: u.reverse).takeWhile fun c => c = 92).length := by
  have htake : (u ++ c :: r).take (lo + u.length + 1 - lo) = u ++ [c] := by
    have hlen : lo + u.length + 1 - lo = (u ++ [c]).length := by
      rw [length_append, length_singleton]
      omega
    have happ : u ++ c :: r = (u ++ [c]) ++ r := by simp
    rw [hlen, happ, take_left]
  rw [backslashRun, hsrc, htake, reverse_append]
  rfl

/-- The backslash that starts an escape ends an odd run. -/
lemma backslashRun_start (h : ∀ x ∈ pre, IsChar x) (hsrc : src.drop lo = pre.flatten ++ 92 :: r) :
    backslashRun src lo (lo + pre.flatten.length) % 2 = 1 := by
  have := even_backslashes h
  rw [backslashRun_eq hsrc, takeWhile_cons_of_pos (by simp), length_cons]
  omega

lemma backslashRun_second (h : ∀ x ∈ pre, IsChar x)
    (hsrc : src.drop lo = pre.flatten ++ 92 :: 92 :: r) :
    backslashRun src lo (lo + pre.flatten.length + 1) % 2 = 0 := by
  have heven := even_backslashes h
  have hsrc' : src.drop lo = (pre.flatten ++ [92]) ++ 92 :: r := by simpa using hsrc
  have hrun := backslashRun_eq hsrc'
  rw [length_append, length_singleton, ← add_assoc] at hrun
  rw [hrun, reverse_append, reverse_singleton, singleton_append,
    takeWhile_cons_of_pos (by simp), takeWhile_cons_of_pos (by simp), length_cons,
    length_cons]
  omega

lemma getElem?_at (hsrc : src.drop lo = u ++ r) (k : Nat) :
    src[lo + u.length + k]? = r[k]? := by
  rw [add_assoc, ← getElem?_drop, hsrc, getElem?_append_right (by omega),
    Nat.add_sub_cancel_left]

lemma cutOK_of_inEscape (hgt : lo < pos) (hd : d ∈ [1, 2, 3, 4, 5])
    (h : inEscape src lo pos d = true) : cutOK src lo pos = false := by
  have hall : ([1, 2, 3, 4, 5].all fun d => !inEscape src lo pos d) = false := by
    rw [all_eq_false]
    exact ⟨d, hd, by simp [h]⟩
  simp [cutOK, hall, hgt]

lemma cutOK_of_continuation (hgt : lo < pos) (hc : src[pos]? = some c)
    (hrange : 128 ≤ c ∧ c < 192) : cutOK src lo pos = false := by
  simp [cutOK, hc, hgt, hrange]

variable {A B : List Bytes}

/-- A cut within a character is not safe. -/
lemma cutOK_inside (h : ∀ y ∈ A ++ x :: B, IsChar y)
    (hsrc : src.drop lo = (A ++ x :: B).flatten ++ t) {k : Nat} (hk : 0 < k) (hlt : k < x.length) :
    cutOK src lo (lo + A.flatten.length + k) = false := by
  have hA : ∀ y ∈ A, IsChar y := fun y hy => h y (by simp [hy])
  have hx : IsChar x := h x (by simp)
  have hsrc' : src.drop lo = A.flatten ++ (x ++ (B.flatten ++ t)) := by simpa using hsrc
  have hbyte (i : Nat) : src[lo + A.flatten.length + i]? = (x ++ (B.flatten ++ t))[i]? :=
    getElem?_at hsrc' i
  have hgt : lo < lo + A.flatten.length + k := by omega
  -- an escape that starts with the character is `k` bytes before the cut
  have hescape {r : Bytes} (hr : x = 92 :: r) (hk5 : k ≤ 5) (hnext : k = 1 ∨ r.head? = some 117) :
      cutOK src lo (lo + A.flatten.length + k) = false := by
    have hstart : src[lo + A.flatten.length]? = some 92 := by
      have := hbyte 0
      rwa [hr] at this
    have hodd := backslashRun_start hA (by rw [hsrc', hr]; rfl)
    have hu : k = 1 ∨ src[lo + A.flatten.length + 1]? = some 117 := by
      refine hnext.imp_right fun hu => ?_
      rw [hbyte 1, hr]
      cases r with
      | nil => cases hu
      | cons e r => simpa using hu
    have hpos : lo + A.flatten.length + k - k = lo + A.flatten.length := by omega
    refine cutOK_of_inEscape hgt (d := k) ?_ ?_
    · simp only [mem_cons, not_mem_nil, or_false]
      omega
    · simp only [inEscape, hpos, hstart, hodd, Bool.and_eq_true, Bool.or_eq_true, decide_eq_true_eq,
        and_true]
      exact ⟨by omega, hu⟩
  rcases char_cases hx with ⟨c, cs, rfl, -, -, hcs, -⟩ | ⟨c, rfl, -⟩ | ⟨ds, rfl, hlen, -⟩
  · -- a continuation byte
    obtain ⟨k, rfl⟩ := Nat.exists_eq_succ_of_ne_zero (Nat.pos_iff_ne_zero.1 hk)
    have hk' : k < cs.length := by simpa using hlt
    refine cutOK_of_continuation hgt ?_ (hcs cs[k] (getElem_mem hk'))
    rw [hbyte, cons_append, getElem?_cons_succ, getElem?_append_left hk',
      getElem?_eq_getElem hk']
  · simp only [length_cons, length_nil] at hlt
    exact hescape rfl (by omega) (.inl (by omega))
  · simp only [length_cons] at hlt
    exact hescape rfl (by omega) (.inr rfl)

/-- No escape before a cut between characters reaches it. -/
lemma not_inEscape_between (h : ∀ y ∈ A, IsChar y)
    (hsrc : src.drop lo = A.flatten ++ t) (hd : 0 < d) (hd5 : d ≤ 5) :
    inEscape src lo (lo + A.flatten.length) d = false := by
  by_contra hin
  rw [Bool.not_eq_false] at hin
  simp only [inEscape, Bool.and_eq_true, Bool.or_eq_true, decide_eq_true_eq] at hin
  obtain ⟨⟨⟨hle, hslash⟩, hodd⟩, hnext⟩ := hin
  -- the character at the backslash
  obtain ⟨C, x, D, k, rfl, hk, hlt⟩ : ∃ C x D k, A = C ++ x :: D
      ∧ C.flatten.length + k = A.flatten.length - d ∧ k < x.length := by
    obtain ⟨C, D, rfl, hC⟩ | ⟨C, x, D, hCD, hlo, hhi⟩ :=
      locate A (p := A.flatten.length - d) (by omega)
    · cases D with
      | nil =>
        rw [append_nil] at hC hle
        omega
      | cons x D =>
        exact ⟨C, x, D, 0, rfl, hC, length_pos_of_ne_nil (char_ne_nil (h x (by simp)))⟩
    · exact ⟨C, x, D, A.flatten.length - d - C.flatten.length, hCD, by omega, by omega⟩
  have hC : ∀ y ∈ C, IsChar y := fun y hy => h y (by simp [hy])
  have hlen : (C ++ x :: D).flatten.length = C.flatten.length + x.length + D.flatten.length := by
    rw [flatten_append, flatten_cons, length_append, length_append]
    omega
  have hsrc' : src.drop lo = C.flatten ++ (x ++ (D.flatten ++ t)) := by simpa using hsrc
  have hpos : lo + (C ++ x :: D).flatten.length - d = lo + C.flatten.length + k := by omega
  rw [hpos] at hslash hodd hnext
  rw [getElem?_at hsrc', getElem?_append_left hlt] at hslash
  rcases char_cases (h x (by simp)) with ⟨c, cs, rfl, -, -, -, hplain⟩ | ⟨c, rfl, hc⟩
    | ⟨ds, rfl, hds, hplain⟩
  · rw [getElem?_eq_getElem hlt] at hslash
    exact (hplain _ (getElem_mem hlt)).1 (Option.some.inj hslash)
  · simp only [length_cons, length_nil] at hlt hlen
    obtain rfl | rfl : k = 0 ∨ k = 1 := by omega
    · -- a short escape ends before the cut
      rw [add_assoc, ← add_assoc, add_zero, getElem?_at hsrc'] at hnext
      have : d ≠ 1 := by omega
      simp [this, hc] at hnext
    · cases hslash
      rw [backslashRun_second hC hsrc'] at hodd
      omega
  · simp only [length_cons] at hlt hlen
    rcases k with _ | _ | k
    · omega
    · simp at hslash
    · have hk' : k < ds.length := by omega
      rw [getElem?_cons_succ, getElem?_cons_succ, getElem?_eq_getElem hk'] at hslash
      exact (hplain _ (getElem_mem hk')).1 (Option.some.inj hslash)

/-- A cut between characters is safe. -/
lemma cutOK_between (h : ∀ y ∈ A ++ B, IsChar y)
    (hsrc : src.drop lo = (A ++ B).flatten ++ 34 :: t) :
    cutOK src lo (lo + A.flatten.length) = true := by
  have hA : ∀ y ∈ A, IsChar y := fun y hy => h y (by simp [hy])
  have hsrc' : src.drop lo = A.flatten ++ (B.flatten ++ 34 :: t) := by simpa using hsrc
  have hbyte : ∃ c, src[lo + A.flatten.length]? = some c ∧ ¬(128 ≤ c ∧ c < 192) := by
    have hat := getElem?_at hsrc' 0
    rw [add_zero] at hat
    rw [hat]
    cases B with
    | nil => exact ⟨34, rfl, by decide⟩
    | cons x B =>
      rcases char_cases (h x (by simp)) with ⟨c, cs, rfl, hc, -⟩ | ⟨c, rfl, -⟩ | ⟨ds, rfl, -⟩
      · exact ⟨c, rfl, hc⟩
      · exact ⟨92, rfl, by decide⟩
      · exact ⟨92, rfl, by decide⟩
  obtain ⟨c, hc, hrange⟩ := hbyte
  have hall : ([1, 2, 3, 4, 5].all fun d => !inEscape src lo (lo + A.flatten.length) d) = true := by
    rw [all_eq_true]
    intro d hd
    simp only [mem_cons, not_mem_nil, or_false] at hd
    rw [not_inEscape_between hA hsrc' (by omega) (by omega)]
    rfl
  rw [cutOK, hall, hc]
  simp only [Option.any_some, Bool.and_true, Bool.or_eq_true, decide_eq_true_eq, Bool.not_eq_true',
    decide_eq_false_iff_not]
  exact .inr hrange

/-- An offset into the string that is between two of its characters. -/
def Boundary (chars : List Bytes) (p : Nat) : Prop := ∃ A B, chars = A ++ B ∧ p = A.flatten.length

/-- A cut moves to the next safe position. -/
lemma safeCut_moves (forward : Bool) (n : Nat) {tries : Nat} (hn : n < tries)
    (hbad : ∀ k < n, cutOK src lo (if forward then pos + k else pos - k) = false)
    (hok : cutOK src lo (if forward then pos + n else pos - n) = true) :
    safeCut src lo forward tries pos = if forward then pos + n else pos - n := by
  induction tries generalizing n pos with
  | zero => exact absurd hn (Nat.not_lt_zero n)
  | succ tries ih =>
    have hstep (k : Nat) : (if forward then (if forward then pos + 1 else pos - 1) + k
        else (if forward then pos + 1 else pos - 1) - k)
        = if forward then pos + (k + 1) else pos - (k + 1) := by
      split_ifs <;> omega
    rw [safeCut]
    cases n with
    | zero =>
      simp only [add_zero, Nat.sub_zero, ite_self] at hok ⊢
      rw [if_pos hok]
    | succ n =>
      have hpos : cutOK src lo pos = false := by simpa using hbad 0 (by omega)
      rw [hpos, if_neg Bool.false_ne_true, ih n (by omega), hstep]
      · exact fun k hk => hstep k ▸ hbad (k + 1) (by omega)
      · exact hstep n ▸ hok

/-- A cut that is moved forward or backward ends between two characters, and within the string. -/
lemma safeCut_boundary (h : ∀ y ∈ chars, IsChar y) (hsrc : src.drop lo = chars.flatten ++ 34 :: t)
    (forward : Bool) (hlo : lo ≤ pos) (hhi : pos ≤ lo + chars.flatten.length) :
    ∃ p, safeCut src lo forward 8 pos = lo + p ∧ Boundary chars p := by
  obtain ⟨A, B, rfl, hA⟩ | ⟨A, x, B, rfl, hlow, hhigh⟩ :=
    locate chars (p := pos - lo) (by omega)
  · have hpos : pos = lo + A.flatten.length := by omega
    refine ⟨A.flatten.length, ?_, ⟨A, B, rfl, rfl⟩⟩
    rw [hpos, safeCut, if_pos (cutOK_between h hsrc)]
  · have hlen := char_length (h x (by simp))
    obtain ⟨k, rfl⟩ : ∃ k, pos = lo + A.flatten.length + k :=
      ⟨pos - lo - A.flatten.length, by omega⟩
    cases forward with
    | true =>
      have hlast : lo + A.flatten.length + k + (x.length - k) = lo + (A ++ [x]).flatten.length := by
        rw [flatten_append, flatten_singleton, length_append]
        omega
      refine ⟨_, (safeCut_moves true (x.length - k) (by omega) (fun i hi => ?_) ?_).trans hlast,
        A ++ [x], B, by simp, rfl⟩
      · rw [add_assoc]
        exact cutOK_inside h hsrc (by omega) (by omega)
      · rw [hlast]
        exact cutOK_between (B := B) (by simpa using h) (by simpa using hsrc)
    | false =>
      have hfirst : lo + A.flatten.length + k - k = lo + A.flatten.length := Nat.add_sub_cancel _ _
      refine ⟨_, (safeCut_moves false k (by omega) (fun i hi => ?_) ?_).trans hfirst,
        A, x :: B, rfl, rfl⟩
      · rw [Nat.add_sub_assoc hi.le]
        exact cutOK_inside h hsrc (by omega) (by omega)
      · rw [hfirst]
        exact cutOK_between h hsrc

/-! ### Shortened strings -/

/-- A string of which runs of characters are replaced by markers that count their bytes. -/
inductive Shortened : List Bytes → Bytes → Prop
  | nil : Shortened [] []
  | keep {x : Bytes} {chars : List Bytes} {out : Bytes} :
      Shortened chars out → Shortened (x :: chars) (x ++ out)
  | cut {xs chars : List Bytes} {out : Bytes} :
      Shortened chars out → Shortened (xs ++ chars) (truncMarker xs.flatten.length ++ out)

lemma Shortened.keeps {out : Bytes} (xs : List Bytes) (h : Shortened chars out) :
    Shortened (xs ++ chars) (xs.flatten ++ out) := by
  induction xs with
  | nil => exact h
  | cons x xs ih =>
    rw [flatten_cons, append_assoc]
    exact .keep ih

/-- Of two boundaries the later one has the characters between them before it. -/
lemma Boundary.between {q : Nat} (h : ∀ y ∈ A ++ B, IsChar y)
    (hq : Boundary (A ++ B) q) (hle : A.flatten.length ≤ q) :
    ∃ G R, B = G ++ R ∧ q = (A ++ G).flatten.length := by
  obtain ⟨C, D, hCD, rfl⟩ := hq
  obtain ⟨G, rfl, hB⟩ | ⟨G, rfl, hD⟩ := append_eq_append_iff.1 hCD
  · exact ⟨G, D, hB, rfl⟩
  · -- the characters between the two have no bytes
    rw [flatten_append, length_append] at hle
    obtain rfl : G = [] := by
      by_contra hne
      have := flatten_pos (fun y hy => h y (by simp [hy])) hne
      omega
    exact ⟨[], B, rfl, by simp⟩

/-- Segments from `p` on, each between characters, apart from each other and from `p`. -/
def Segments (chars : List Bytes) (lo : Nat) : Nat → List Span → Prop
  | _, [] => True
  | p, sg :: segs => ∃ a b, sg = ⟨lo + a, lo + b⟩ ∧ Boundary chars a ∧ Boundary chars b
      ∧ p ≤ a ∧ a ≤ b
      ∧ Segments chars lo b segs

variable {segs : List Span}

/-- Joining segments shortens the string. -/
lemma joinSegments_shortened (h : ∀ y ∈ A ++ B, IsChar y)
    (hsrc : src.drop lo = (A ++ B).flatten ++ t)
    (hsegs : Segments (A ++ B) lo A.flatten.length segs) :
    Shortened B (joinSegments src (lo + (A ++ B).flatten.length) (lo + A.flatten.length) segs) := by
  induction segs generalizing A B with
  | nil =>
    rw [joinSegments, flatten_append, length_append]
    split
    · have hcut : Shortened (B ++ []) (truncMarker B.flatten.length ++ []) := .cut .nil
      rw [show lo + (A.flatten.length + B.flatten.length) - (lo + A.flatten.length)
        = B.flatten.length
        by omega]
      simpa using hcut
    · obtain rfl : B = [] := by
        by_contra hne
        have := flatten_pos (fun y hy => h y (by simp [hy])) hne
        omega
      exact .nil
  | cons sg segs ih =>
    obtain ⟨a, b, rfl, ha, hb, hpa, hab, hrest⟩ := hsegs
    obtain ⟨G, R, rfl, rfl⟩ := ha.between h hpa
    rw [← append_assoc] at h hb hsrc hrest
    obtain ⟨K, R, rfl, rfl⟩ := hb.between h hab
    rw [← append_assoc] at h hsrc hrest
    have hread : read src (lo + (A ++ G).flatten.length, lo + (A ++ G ++ K).flatten.length)
        = K.flatten := by
      have hdrop : src.drop (lo + (A ++ G).flatten.length) = K.flatten ++ (R.flatten ++ t) := by
        rw [← drop_drop, hsrc]
        simp only [flatten_append, append_assoc]
        rw [← append_assoc, drop_left]
      have hlen : lo + (A ++ G ++ K).flatten.length - (lo + (A ++ G).flatten.length)
          = K.flatten.length := by
        simp only [flatten_append, length_append]
        omega
      rw [read, hdrop, hlen, take_left]
    have hkept := (ih h hsrc hrest).keeps K
    rw [joinSegments, hread]
    by_cases hG : G = []
    · subst hG
      simpa using hkept
    · have hpos := flatten_pos (fun y hy => h y (by simp [hy])) hG
      have hlen : lo + (A ++ G).flatten.length - (lo + A.flatten.length) = G.flatten.length := by
        rw [flatten_append, length_append]
        omega
      have hgap : lo + (A ++ G).flatten.length > lo + A.flatten.length := by omega
      rw [if_pos hgap, hlen]
      have hcut : Shortened (G ++ (K ++ R)) _ := .cut hkept
      simpa using hcut

/-- The segment is between characters. -/
def Between (chars : List Bytes) (lo : Nat) (sg : Span) : Prop :=
  ∃ a b, sg = ⟨lo + a, lo + b⟩ ∧ Boundary chars a ∧ Boundary chars b ∧ a ≤ b

/-- Segments that end before the next one starts, the last first. -/
structure Apart (chars : List Bytes) (lo : Nat) (merged : List Span) : Prop where
  between : ∀ sg ∈ merged, Between chars lo sg
  apart : merged.IsChain fun later earlier => earlier.stop ≤ later.start

variable {merged : List Span} {a b : Nat}

lemma Apart.merge (h : Apart chars lo merged) (ha : Boundary chars a) (hb : Boundary chars b) :
    Apart chars lo (mergeSegment merged ⟨lo + a, lo + b⟩) := by
  unfold mergeSegment
  split
  · exact h
  next hne =>
  have hnew : Between chars lo ⟨lo + a, lo + b⟩ := ⟨a, b, rfl, ha, hb, by simp only at hne; omega⟩
  split
  · exact ⟨by simpa using hnew, .singleton _⟩
  next last more =>
  obtain ⟨hall, hchain⟩ := h
  split
  · -- the later end of two overlapping segments
    obtain ⟨a', b', rfl, ha', hb', hab'⟩ := hall last mem_cons_self
    have hlast : Between chars lo ⟨lo + a', max (lo + b') (lo + b)⟩ := by
      rcases le_total b' b with hle | hle
      · exact ⟨a', b, by rw [max_eq_right (by omega)], ha', hb, by omega⟩
      · exact ⟨a', b', by rw [max_eq_left (by omega)], ha', hb', hab'⟩
    refine ⟨forall_mem_cons.2 ⟨hlast, (forall_mem_cons.1 hall).2⟩, ?_⟩
    cases more with
    | nil => exact .singleton _
    | cons next more =>
      rw [isChain_cons_cons] at hchain ⊢
      exact hchain
  · next hgap =>
    exact ⟨forall_mem_cons.2 ⟨hnew, hall⟩, isChain_cons_cons.2 ⟨le_of_lt (not_le.1 hgap), hchain⟩⟩

lemma segments_of_chain (hall : ∀ sg ∈ segs, Between chars lo sg)
    (hchain : segs.IsChain fun earlier later => earlier.stop ≤ later.start)
    (hp : ∀ sg ∈ segs.head?, lo + p ≤ sg.start) : Segments chars lo p segs := by
  induction segs generalizing p with
  | nil => trivial
  | cons sg segs ih =>
    obtain ⟨a, b, rfl, ha, hb, hab⟩ := hall sg mem_cons_self
    have hpa : p ≤ a := by simpa using hp _ rfl
    refine ⟨a, b, rfl, ha, hb, hpa, hab, ih ?_ hchain.tail ?_⟩
    · exact fun sg' h => hall sg' (mem_cons_of_mem _ h)
    · cases segs with
      | nil => simp
      | cons next segs =>
        rw [isChain_cons_cons] at hchain
        simpa using hchain.1

/-- In order, segments that are apart are segments of the string from its start. -/
lemma Apart.segments (h : Apart chars lo merged) :
    Segments chars lo 0 merged.reverse := by
  refine segments_of_chain (by simpa using h.between) (isChain_reverse.2 h.apart) ?_
  intro sg hsg
  obtain ⟨a, b, rfl, -⟩ := h.between sg (by simpa using mem_of_mem_head? hsg)
  simp

/-- A clipped segment is cut between characters. -/
lemma clipSegment_boundary {sg : Span} (h : ∀ y ∈ chars, IsChar y)
    (hsrc : src.drop lo = chars.flatten ++ 34 :: t) (hstart : sg.start ≤ lo + chars.flatten.length)
    (hstop : lo ≤ sg.stop) :
    ∃ a b, clipSegment src lo (lo + chars.flatten.length) sg = ⟨lo + a, lo + b⟩
      ∧ Boundary chars a ∧ Boundary chars b := by
  have hlo : lo ≤ max sg.start lo := le_max_right _ _
  have hhi : min sg.stop (lo + chars.flatten.length) ≤ lo + chars.flatten.length := min_le_right _ _
  obtain ⟨a, ha, hba⟩ := safeCut_boundary h hsrc true hlo (by omega)
  obtain ⟨b, hb, hbb⟩ := safeCut_boundary h hsrc false (by omega) hhi
  exact ⟨a, b, by rw [clipSegment, ha, hb], hba, hbb⟩

lemma Apart.foldl (h : ∀ y ∈ chars, IsChar y) (hsrc : src.drop lo = chars.flatten ++ 34 :: t)
    (hsegs : ∀ sg ∈ segs, sg.start ≤ lo + chars.flatten.length ∧ lo ≤ sg.stop)
    (hmerged : Apart chars lo merged) :
    Apart chars lo ((segs.map (clipSegment src lo (lo + chars.flatten.length))).foldl mergeSegment
      merged) := by
  induction segs generalizing merged with
  | nil => exact hmerged
  | cons sg segs ih =>
    obtain ⟨hstart, hstop⟩ := hsegs sg mem_cons_self
    obtain ⟨a, b, hsg, ha, hb⟩ := clipSegment_boundary h hsrc hstart hstop
    rw [map_cons, hsg]
    exact ih (fun x hx => hsegs x (mem_cons_of_mem sg hx)) (hmerged.merge ha hb)

lemma mem_salientRange {s : Source} {limit gap m : Nat} (h : m ∈ s.salientRange a b limit gap) :
    a ≤ m ∧ m < b := by
  have hfold : ∀ (ps out : List Nat), (∀ p ∈ out, a ≤ p ∧ p < b) → (∀ p ∈ ps, a ≤ p ∧ p < b) →
      ∀ p ∈ ps.foldl (fun out p =>
        if out.length < limit ∧ ∀ q ∈ out.getLast?, p - q > gap then out ++ [p] else out) out,
        a ≤ p ∧ p < b := by
    intro ps
    induction ps with
    | nil => exact fun out hout _ => hout
    | cons p ps ih =>
      intro out hout hps
      refine ih _ ?_ fun q hq => hps q (mem_cons_of_mem p hq)
      beta_reduce
      split
      · intro q hq
        rcases mem_append.1 hq with hq | hq
        · exact hout q hq
        · rw [mem_singleton.1 hq]
          exact hps p mem_cons_self
      · exact hout
  exact hfold _ [] (by simp) (by simp) m h

lemma stringSegments_within (s : Source) (hi : Nat) (budget : Int) (hle : lo ≤ hi) :
    ∀ sg ∈ stringSegments s lo hi budget, sg.start ≤ hi ∧ lo ≤ sg.stop := by
  intro sg hsg
  simp only [stringSegments, cons_append, mem_cons, mem_append, mem_map,
    not_mem_nil, or_false] at hsg
  rcases hsg with rfl | ⟨m, hm, rfl⟩ | rfl
  · exact ⟨hle, by simp⟩
  · obtain ⟨ha, hb⟩ := mem_salientRange hm
    constructor
    · simp only
      omega
    · simp only
      omega
  · exact ⟨by simp, hle⟩

/-- What is kept of a string is a shortened string. -/
lemma reduceString_shortened (s : Source) (budget : Int) (h : ∀ y ∈ chars, IsChar y)
    (hsrc : src.drop lo = chars.flatten ++ 34 :: t) :
    Shortened chars (joinSegments src (lo + chars.flatten.length) lo
      ((((stringSegments s lo (lo + chars.flatten.length) budget).map
        (clipSegment src lo (lo + chars.flatten.length))).foldl mergeSegment []).reverse)) := by
  have hsegs := (Apart.foldl h hsrc (stringSegments_within s _ budget (by omega))
    ⟨by simp, .nil⟩).segments
  exact joinSegments_shortened (A := []) h hsrc hsegs

end Evidence
