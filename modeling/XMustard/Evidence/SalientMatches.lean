import Mathlib.Data.List.TakeWhile
import XMustard.Evidence.Detection

/-!
# Which matches are detected

A plain match is detected through its keyword, wherever it stands: the window of the keyword reaches
over the separators to the other parts of the match.
-/

namespace Evidence

open List Text

variable {src m x y kw : Bytes} {h : Nat}

/-! ### Texts up to case -/

variable {s : String}

lemma mem_foldedText_of_lower (h : m.map asciiLower = ascii s) :
    m ∈ (foldedText s).language := by
  unfold foldedText
  generalize ascii s = w at h
  induction w generalizing m with
  | nil => simpa using h
  | cons c w ih =>
    obtain ⟨d, m, rfl, hd, hm⟩ := map_eq_cons_iff.1 h
    refine Pattern.mem_inOrder_cons.2 ⟨[d], ?_, m, ih hm, rfl⟩
    unfold folded
    split_ifs
    · exact .inl ⟨d, by simpa using hd, rfl⟩
    · exact .inl ⟨d, by simpa using hd, rfl⟩
    · exact ⟨d, by simpa using hd, rfl⟩

/-- In ASCII, what matches a text up to case is the text in lower case. -/
lemma lower_of_mem_foldedText (h : m ∈ (foldedText s).language)
    (hascii : ∀ c ∈ m, c < 128) : m.map asciiLower = ascii s := by
  unfold foldedText at h
  generalize ascii s = w at h
  induction w generalizing m with
  | nil => simpa using h
  | cons c w ih =>
    obtain ⟨v, hv, m, hm, rfl⟩ := Pattern.mem_inOrder_cons.1 h
    rw [map_append, ih (fun d hd => hascii d (mem_append_right v hd)) hm]
    have hletter (hv : v ∈ (Pattern.one fun d => asciiLower d = c).language) :
        v.map asciiLower ++ w = c :: w := by
      obtain ⟨d, hd, rfl⟩ := hv
      simpa using hd
    unfold folded at hv
    split_ifs at hv
    · rcases hv with hv | hv
      · exact hletter hv
      · cases hv
        exact absurd (hascii 0xC5 (by simp)) (by decide)
    · rcases hv with hv | hv
      · exact hletter hv
      · cases hv
        exact absurd (hascii 0xE2 (by simp)) (by decide)
    · exact hletter hv

lemma lower_of_mem_anyOf {ss : List String} (h : m ∈ (Pattern.anyOf (ss.map foldedText)).language)
    (hascii : ∀ c ∈ m, c < 128) : ∃ s ∈ ss, m.map asciiLower = ascii s := by
  obtain ⟨r, hr, hmem⟩ := Pattern.mem_anyOf.1 h
  obtain ⟨s, hs, rfl⟩ := mem_map.1 hr
  exact ⟨s, hs, lower_of_mem_foldedText hmem hascii⟩

/-! ### Windows -/

/-- The pattern matches somewhere. -/
def Salient (b : Bytes) : Prop := ∃ x m y, b = x ++ m ++ y ∧ m ∈ salient.language

lemma salient_self (h : m ∈ salient.language) : Salient m := ⟨[], m, [], by simp, h⟩

/-- A match near a keyword at `h`: within the keyword, the rest of its identifier, the separators on
both sides and 64 bytes beyond these. -/
def MatchNear (src : Bytes) (h : Nat) : Prop :=
  ∃ before stem left word ident right tail after near : Bytes,
    near = stem ++ left ++ word ++ ident ++ right ++ tail
    ∧ src = before ++ near ++ after ∧ h = (before ++ stem ++ left).length
    ∧ word.map asciiLower ∈ salientKeywords ∧ (∀ c ∈ left ++ right, isSeparator c)
    ∧ (∀ c ∈ ident, isIdentifier c) ∧ ident.length ≤ 16
    ∧ stem.length ≤ 64 ∧ tail.length ≤ 64 ∧ Salient near

lemma MatchNear.isSalient (h' : MatchNear src h) : Salient src := by
  obtain ⟨before, _, _, _, _, _, _, after, _, -, rfl, -, -, -, -, -, -, -, x, m, y, rfl, hm⟩ := h'
  exact ⟨before ++ x, m, y ++ after, by simp, hm⟩

variable {w : Nat × Nat}

/-- A window that reaches around a part of the text holds it. -/
lemma infix_read (hsrc : src = x ++ m ++ y) (hlo : w.1 ≤ x.length)
    (hhi : x.length + m.length ≤ w.2) : m <:+: read src w := by
  have hdrop : src.drop w.1 = x.drop w.1 ++ m ++ y := by
    rw [hsrc, append_assoc, drop_append_of_le_length hlo, append_assoc]
  have hpart : x.drop w.1 ++ m <+: read src w := by
    rw [read, hdrop]
    refine prefix_take_iff.2 ⟨prefix_append _ y, ?_⟩
    rw [length_append, length_drop]
    omega
  exact (suffix_append _ m).isInfix.trans hpart.isInfix

variable {ks ke : Nat}

lemma confirmWindow_eq_some (h : confirmWindow src ks ke = some w) :
    w.1 = ks - leftRun src ks - salientWindow
      ∧ w.2 = min (ke + identifierRun src ke + rightRun src (ke + identifierRun src ke)
        + salientWindow) src.length := by
  unfold confirmWindow at h
  dsimp only at h
  split_ifs at h
  cases h
  exact ⟨rfl, rfl⟩

variable {t : Bytes} {p : UInt8 → Bool}

lemma length_le_takeWhile {l : Bytes} (h : ∀ c ∈ l, p c) :
    l.length ≤ ((l ++ t).takeWhile p).length := by
  rw [takeWhile_append_of_pos h, length_append]
  omega

variable {seps stem word tail v : Bytes} {c : UInt8}

/-- To the left a window reaches over the separators and then over a bounded stem. -/
lemma le_leftRun (hseps : ∀ c ∈ seps, isSeparator c) :
    seps.length ≤ leftRun (x ++ seps ++ y) (x ++ seps).length := by
  have hrev : ∀ c ∈ seps.reverse, isSeparator c := by simpa using hseps
  rw [leftRun, take_left]
  simpa using length_le_takeWhile (t := x.reverse) hrev

/-- To the right it reaches over the rest of an identifier, the separators and then a bounded tail.
-/
lemma le_rightRun (hsrc : src.drop ke = word ++ (seps ++ y)) (hword : ∀ c ∈ word, isIdentifier c)
    (hlen : word.length ≤ 16) (hseps : ∀ c ∈ seps, isSeparator c) :
    word.length + seps.length
      ≤ identifierRun src ke + rightRun src (ke + identifierRun src ke) := by
  cases seps with
  | nil =>
    have htake : (src.drop ke).take 16 = word ++ y.take (16 - word.length) := by
      rw [hsrc, take_append, take_of_length_le hlen, nil_append]
    have hid : word.length ≤ identifierRun src ke := by
      rw [identifierRun, htake]
      exact length_le_takeWhile hword
    exact hid.trans (Nat.le_add_right _ _)
  | cons c seps =>
    have hstop : isIdentifier c = false := by
      have := hseps c mem_cons_self
      simp only [isSeparator, decide_eq_true_eq] at this
      rcases this with rfl | rfl | rfl | rfl | rfl | rfl | rfl <;> rfl
    have hid : identifierRun src ke = word.length := by
      rw [identifierRun, hsrc, take_append, take_of_length_le hlen,
        takeWhile_append_of_pos hword]
      cases 16 - word.length with
      | zero => simp
      | succ n => simp [hstop]
    rw [rightRun, hid, ← drop_drop, hsrc, drop_left]
    exact Nat.add_le_add_left (length_le_takeWhile hseps) _

lemma occurs_append (h : m.map asciiLower = kw) : Occurs kw (x ++ m ++ y) x.length := by
  unfold Occurs
  rw [append_assoc, map_append, drop_left' (by simp), map_append, h]
  exact prefix_append kw _

/-- A keyword with a match near it is confirmed unless its window is refused. -/
lemma MatchNear.found (h' : MatchNear src h) : ∃ kw ∈ salientKeywords, Occurs kw src h
    ∧ ∀ w, confirmWindow src h (h + kw.length) = some w → salient.found (read src w) := by
  obtain ⟨before, stem, left, word, ident, right, tail, after, near, hnear, hsrc, rfl, hkw, hseps,
    hident, hlen, hstem, htail, hmatch⟩ := h'
  have hword : src = before ++ stem ++ left ++ word ++ (ident ++ (right ++ (tail ++ after))) := by
    simp [hsrc, hnear]
  refine ⟨_, hkw, hword ▸ occurs_append rfl, fun w hw => ?_⟩
  obtain ⟨hlo, hhi⟩ := confirmWindow_eq_some hw
  have hleft : left.length ≤ leftRun src (before ++ stem ++ left).length := by
    rw [hword, append_assoc (before ++ stem ++ left)]
    exact le_leftRun fun c hc => hseps c (mem_append_left _ hc)
  have hdrop : src.drop ((before ++ stem ++ left).length + (word.map asciiLower).length)
      = ident ++ (right ++ (tail ++ after)) := by
    rw [hword]
    exact drop_left' (by simp; omega)
  have hright := le_rightRun hdrop hident hlen fun c hc => hseps c (mem_append_right _ hc)
  have htotal := congrArg length hword
  simp only [length_append, length_map] at hleft hright hlo hhi htotal
  refine Pattern.found_of_isInfix (infix_read hsrc ?_ ?_) (Pattern.found_iff.2 hmatch)
  · rw [hlo, salientWindow]
    omega
  · rw [hhi, hnear, salientWindow]
    simp only [length_append]
    omega

lemma read_append {a b d : Nat} (hab : a ≤ b) (hbd : b ≤ d) :
    read src (a, b) ++ read src (b, d) = read src (a, d) := by
  have hdrop : src.drop b = (src.drop a).drop (b - a) := by rw [drop_drop, Nat.add_sub_cancel' hab]
  have hlen : d - a = b - a + (d - b) := by omega
  rw [read, read, read, hdrop, hlen, take_add]

/-- A run holds what it takes, and ends within the text. -/
lemma run_spec {l : Bytes} (hl : l <+: src.drop ke) :
    (∀ c ∈ read src (ke, ke + (l.takeWhile p).length), p c)
      ∧ (l.takeWhile p).length ≤ src.length - ke := by
  have hpre : l.takeWhile p <+: l := takeWhile_prefix p
  replace hpre := hpre.trans hl
  rw [read, Nat.add_sub_cancel_left, ← length_drop, ← prefix_iff_eq_take.1 hpre]
  exact ⟨fun c => mem_takeWhile_imp, hpre.length_le⟩

lemma leftRun_spec (hks : ks ≤ src.length) :
    (∀ c ∈ read src (ks - leftRun src ks, ks), isSeparator c) ∧ leftRun src ks ≤ ks := by
  have hpre : (src.take ks).reverse.takeWhile isSeparator <+: (src.take ks).reverse :=
    takeWhile_prefix isSeparator
  have hsuffix : ((src.take ks).reverse.takeWhile isSeparator).reverse <:+ src.take ks :=
    reverse_prefix.1 (by rwa [reverse_reverse])
  have htake : (src.take ks).length = ks := length_take_of_le hks
  have hread : read src (ks - leftRun src ks, ks)
      = ((src.take ks).reverse.takeWhile isSeparator).reverse := by
    rw [suffix_iff_eq_drop.1 hsuffix, length_reverse, htake, drop_take]
    rfl
  have hlen := hpre.length_le
  rw [length_reverse, htake] at hlen
  refine ⟨fun c hc => ?_, hlen⟩
  rw [hread, mem_reverse] at hc
  exact mem_takeWhile_imp hc

/-- The window of a confirmed keyword has the match near it. -/
lemma Confirmed.matchNear (h' : Confirmed src h) : MatchNear src h := by
  obtain ⟨kw, hkw, hocc, ⟨lo, hi⟩, hw, hfound⟩ := h'
  have hke := occurs_length hkw hocc
  have hks : h ≤ h + kw.length := Nat.le_add_right _ _
  have hword : (read src (h, h + kw.length)).map asciiLower = kw := by
    rw [read, Nat.add_sub_cancel_left, map_take, map_drop]
    exact (prefix_iff_eq_take.1 hocc).symm
  generalize h + kw.length = ke at *
  obtain ⟨hlo, hhi⟩ := confirmWindow_eq_some hw
  obtain ⟨hleft, hL⟩ := leftRun_spec (hks.trans hke)
  obtain ⟨hident, hI⟩ : (∀ c ∈ read src (ke, ke + identifierRun src ke), isIdentifier c)
      ∧ identifierRun src ke ≤ src.length - ke := run_spec (List.take_prefix 16 _)
  have hI' : identifierRun src ke ≤ 16 :=
    (takeWhile_sublist isIdentifier).length_le.trans (length_take_le _ _)
  generalize leftRun src h = L, identifierRun src ke = I at *
  obtain ⟨hright, hR⟩ : (∀ c ∈ read src (ke + I, ke + I + rightRun src (ke + I)), isSeparator c)
      ∧ rightRun src (ke + I) ≤ src.length - (ke + I) := run_spec (prefix_refl _)
  generalize rightRun src (ke + I) = R at *
  simp only [salientWindow] at hlo hhi
  have hlen (a b : Nat) (hb : b ≤ src.length) : (read src (a, b)).length = b - a := by
    rw [read, length_take, length_drop]
    omega
  refine ⟨read src (0, lo), read src (lo, h - L), read src (h - L, h), read src (h, ke),
    read src (ke, ke + I), read src (ke + I, ke + I + R), read src (ke + I + R, hi),
    read src (hi, src.length), read src (lo, hi), ?_, ?_, ?_, hword ▸ hkw, ?_, hident, ?_, ?_, ?_,
    Pattern.found_iff.1 hfound⟩
  · rw [read_append, read_append, read_append, read_append, read_append]
    all_goals omega
  · rw [read_append, read_append]
    · simp [read]
    all_goals omega
  · rw [read_append, read_append, hlen]
    all_goals omega
  · exact forall_mem_append.2 ⟨hleft, hright⟩
  all_goals
    rw [hlen]
    all_goals omega

/-! ### Matches that are detected -/

/-- A match of the usual form: in ASCII, with white space that separates, and with nothing or an
underscore between `exit` and what follows it. -/
structure Plain (m : Bytes) : Prop where
  ascii : ∀ c ∈ m, c < 128
  spaces : (12 : UInt8) ∉ m
  joined : ¬Text.ascii "exit " <+: m.map asciiLower

/-- A position in a match or right after it. -/
def Touches (x m : Bytes) (p : Nat) : Prop := x.length ≤ p ∧ p ≤ x.length + m.length

/-- A keyword within `m`, which stands at `x.length`, has a match near it. -/
def Reports (src x m : Bytes) : Prop := ∃ h, MatchNear src h ∧ Touches x m h

/-- A failure word is found wherever it stands. -/
lemma reports_word (hs : s ∈ failureWords) {u : Bytes}
    (hsrc : src = x ++ (u ++ t ++ v) ++ y) (ht : t.map asciiLower = ascii s) :
    Reports src x (u ++ t ++ v) := by
  have hkw : t.map asciiLower ∈ salientKeywords := ht ▸ mem_map_of_mem (mem_append_left _ hs)
  have hsalient : t ∈ salient.language := Pattern.mem_anyOf.2
    ⟨foldedText s, mem_append_left _ (mem_map_of_mem hs), mem_foldedText_of_lower ht⟩
  refine ⟨(x ++ u).length, ⟨x ++ u, [], [], t, [], [], [], v ++ y, t, by simp, by simp [hsrc],
    by simp, hkw, by simp, by simp, by simp, by simp, by simp, salient_self hsalient⟩, ?_⟩
  constructor <;> simp

lemma separated_seps (hp : ∀ c, p c → isSeparator c)
    (hv : v ∈ (separated p).language) (hspaces : (12 : UInt8) ∉ v) :
    ∀ c ∈ v, isSeparator c := by
  obtain ⟨u, hu, _, ⟨_, ⟨c, hc, rfl⟩, _, ⟨t, ht, _, rfl, rfl⟩, rfl⟩, rfl⟩ := hv
  have hblank (d : UInt8) (hd : isAsciiWhitespace d) (h : d ≠ 12) : isSeparator d := by
    simp only [isAsciiWhitespace, Bool.or_eq_true, decide_eq_true_eq] at hd
    simp only [isSeparator, decide_eq_true_eq]
    tauto
  intro d hd
  have hne : d ≠ 12 := fun h => hspaces (h ▸ hd)
  simp only [append_nil, mem_append, mem_singleton] at hd
  rcases hd with hd | rfl | hd
  · exact hblank d (hu d hd) hne
  · exact hp d hc
  · exact hblank d (ht d hd) hne

/-- A keyword that starts a match. -/
lemma reports_start (hkw : t.map asciiLower ∈ salientKeywords)
    (hsrc : src = x ++ (t ++ word ++ seps ++ tail) ++ y) (hword : ∀ c ∈ word, isIdentifier c)
    (hlen : word.length ≤ 16) (hseps : ∀ c ∈ seps, isSeparator c) (htail : tail.length ≤ 64)
    (hm : t ++ word ++ seps ++ tail ∈ salient.language) :
    Reports src x (t ++ word ++ seps ++ tail) :=
  ⟨x.length, ⟨x, [], [], t, word, seps, tail, y, _, rfl, hsrc, by simp, hkw, hseps, hword, hlen,
    by simp, htail, salient_self hm⟩, le_refl _, by omega⟩

/-- A keyword that ends a match. -/
lemma reports_end (hkw : t.map asciiLower ∈ salientKeywords)
    (hsrc : src = x ++ (stem ++ seps ++ t) ++ y) (hseps : ∀ c ∈ seps, isSeparator c)
    (hstem : stem.length ≤ 64) (hm : stem ++ seps ++ t ∈ salient.language) :
    Reports src x (stem ++ seps ++ t) := by
  refine ⟨(x ++ stem ++ seps).length, ⟨x, stem, seps, t, [], [], [], y, _, by simp, hsrc, rfl, hkw,
    by simpa using hseps, by simp, by simp, hstem, by simp, salient_self hm⟩, ?_⟩
  constructor <;> simp

lemma asciiLower_eq_quote (h : asciiLower c = 34) : c = 34 := by
  unfold asciiLower at h
  split at h
  · next hc =>
    have h₁ := UInt8.le_iff_toNat_le.1 hc.1
    have h₂ := UInt8.le_iff_toNat_le.1 hc.2
    have h₃ := congrArg UInt8.toNat h
    simp at h₁ h₂ h₃
    omega
  · exact h

lemma eq_quote {q : Bytes} (h : q.map asciiLower = ascii "\"") : q = [34] := by
  obtain ⟨c, _, rfl, hc, hrest⟩ := map_eq_cons_iff.1 (h.trans (by decide : _ = [(34 : UInt8)]))
  rw [asciiLower_eq_quote hc, map_eq_nil_iff.1 hrest]

lemma isIdentifier_of_lower (h : isIdentifier (asciiLower c)) : isIdentifier c := by
  unfold asciiLower at h
  split at h
  · next hc => simp [isIdentifier, hc]
  · exact h

/-- The parts of a text up to case. -/
lemma lower_append (s s' : Bytes) (h : m.map asciiLower = s ++ s') :
    ∃ u v, m = u ++ v ∧ u.map asciiLower = s ∧ v.map asciiLower = s' :=
  map_eq_append_iff.1 h

lemma reports_staleTrue (hmem : m ∈ staleTrue.language) (hascii : ∀ c ∈ m, c < 128)
    (hspaces : (12 : UInt8) ∉ m) (hm : m ∈ salient.language) (hsrc : src = x ++ m ++ y) :
    Reports src x m := by
  obtain ⟨a, ha, _, ⟨v, hv, _, ⟨t, ht, _, rfl, rfl⟩, rfl⟩, rfl⟩ := hmem
  simp only [append_nil, mem_append, not_or] at hascii hspaces hm hsrc ⊢
  have ha := lower_of_mem_foldedText ha fun c hc => hascii c (.inl hc)
  have ht := lower_of_mem_foldedText ht fun c hc => hascii c (.inr (.inr hc))
  obtain ⟨u, q, rfl, hu, hq⟩ := lower_append (ascii "stale") (ascii "\"") ha
  obtain rfl := eq_quote hq
  have hseps := separated_seps (by simp [isColon, isSeparator]) hv hspaces.2.1
  have hform : u ++ [34] ++ (v ++ t) = u ++ [] ++ ([34] ++ v) ++ t := by simp
  rw [hform] at hm hsrc ⊢
  refine reports_start (by rw [hu]; decide) hsrc (by simp) (by simp) ?_ ?_ hm
  · simpa [isSeparator] using hseps
  · rw [← length_map asciiLower, ht]
    decide

lemma reports_isErrorTrue (hmem : m ∈ isErrorTrue.language) (hascii : ∀ c ∈ m, c < 128)
    (hsrc : src = x ++ m ++ y) : Reports src x m := by
  obtain ⟨a, -, _, ⟨b, -, _, ⟨e, he, v, -, rfl⟩, rfl⟩, rfl⟩ := hmem
  beta_reduce at hascii hsrc ⊢
  have he := lower_of_mem_foldedText he fun c hc => hascii c (by simp [hc])
  obtain ⟨e, q, rfl, he, -⟩ := lower_append (ascii "error") (ascii "\"") he
  have hform : a ++ (b ++ (e ++ q ++ v)) = a ++ b ++ e ++ (q ++ v) := by simp
  rw [hform] at hsrc ⊢
  exact reports_word (by decide) hsrc he

lemma reports_statusFalse (hmem : m ∈ statusFalse.language) (hascii : ∀ c ∈ m, c < 128)
    (hspaces : (12 : UInt8) ∉ m) (hm : m ∈ salient.language) (hsrc : src = x ++ m ++ y) :
    Reports src x m := by
  obtain ⟨q, hq, _, ⟨n, hn, _, ⟨q', hq', _, ⟨v, hv, _, ⟨t, ht, _, rfl, rfl⟩, rfl⟩, rfl⟩, rfl⟩,
      rfl⟩ :=
    hmem
  simp only [append_nil, mem_append, not_or] at hascii hspaces hm hsrc ⊢
  have hq := lower_of_mem_foldedText hq fun c hc => hascii c (.inl hc)
  have hq' := lower_of_mem_foldedText hq' fun c hc => hascii c (by simp [hc])
  have ht := lower_of_mem_foldedText ht fun c hc => hascii c (by simp [hc])
  obtain rfl := eq_quote hq
  obtain rfl := eq_quote hq'
  have hseps := separated_seps (by simp [isColon, isSeparator]) hv hspaces.2.2.2.1
  have hlen : n.length ≤ 7 := by
    obtain ⟨s, hs, hn⟩ := lower_of_mem_anyOf hn fun c hc => hascii c (by simp [hc])
    have hall : ∀ s ∈ ["ok", "passed", "success"], (ascii s).length ≤ 7 := by decide
    rw [← length_map asciiLower, hn]
    exact hall s hs
  have hform : [34] ++ (n ++ ([34] ++ (v ++ t))) = [34] ++ n ++ ([34] ++ v) ++ t := by simp
  rw [hform] at hm hsrc ⊢
  refine reports_end (by rw [ht]; decide) hsrc ?_ ?_ hm
  · simpa [isSeparator] using hseps
  · simp only [length_append, length_singleton]
    omega

lemma identifier_exitWords :
    ∀ s ∈ ["code", "status"], (∀ c ∈ ascii s, isIdentifier c) ∧ (ascii s).length ≤ 6 := by
  decide +kernel

lemma reports_exitCode (hmem : m ∈ exitCode.language) (hplain : Plain m)
    (hm : m ∈ salient.language) (hsrc : src = x ++ m ++ y) : Reports src x m := by
  obtain ⟨hascii, hspaces, hjoined⟩ := hplain
  obtain ⟨e, he, _, ⟨u, hu, _, ⟨n, hn, _, ⟨q, hq, _, ⟨v, hv, _, ⟨_, ⟨d, -, rfl⟩, _, rfl, rfl⟩, rfl⟩,
    rfl⟩, rfl⟩, rfl⟩, rfl⟩ := hmem
  simp only [append_nil, mem_append, not_or] at hascii hspaces hm hsrc hjoined ⊢
  have he := lower_of_mem_foldedText he fun c hc => hascii c (.inl hc)
  have hu' : u = [] ∨ u = [95] := by
    rcases hu with ⟨c, hc, rfl⟩ | rfl
    · simp only [decide_eq_true_eq] at hc
      rcases hc with rfl | rfl
      · exact .inr rfl
      · -- a blank after the word
        refine absurd ?_ hjoined
        rw [map_append, he]
        exact ⟨_, rfl⟩
    · exact .inl rfl
  have hn' : (∀ c ∈ n, isIdentifier c) ∧ n.length ≤ 6 := by
    obtain ⟨s, hs, hn⟩ := lower_of_mem_anyOf hn fun c hc => hascii c (by simp [hc])
    refine ⟨fun c hc => isIdentifier_of_lower ((identifier_exitWords s hs).1 _ ?_), ?_⟩
    · rw [← hn]
      exact mem_map_of_mem hc
    · rw [← length_map asciiLower, hn]
      exact (identifier_exitWords s hs).2
  have hq' : q = [34] ∨ q = [] := by
    rcases hq with hq | rfl
    · exact .inl (eq_quote (lower_of_mem_foldedText hq fun c hc => hascii c (by simp [hc])))
    · exact .inr rfl
  have hseps := separated_seps (by simp [isSeparator]) hv hspaces.2.2.2.2.1
  have hform : e ++ (u ++ (n ++ (q ++ (v ++ [d])))) = e ++ (u ++ n) ++ (q ++ v) ++ [d] := by simp
  rw [hform] at hm hsrc ⊢
  refine reports_start (by rw [he]; decide) hsrc ?_ ?_ ?_ (by simp) hm
  · rcases hu' with rfl | rfl
    · simpa using hn'.1
    · simpa [isIdentifier] using hn'.1
  · have : u.length ≤ 1 := by rcases hu' with rfl | rfl <;> simp
    rw [length_append]
    omega
  · rcases hq' with rfl | rfl
    · simpa [isSeparator] using hseps
    · simpa using hseps

/-- A plain match is detected through its keyword. -/
lemma reports_plain (hm : m ∈ salient.language) (hplain : Plain m) (hsrc : src = x ++ m ++ y) :
    Reports src x m := by
  obtain ⟨r, hr, hmem⟩ := Pattern.mem_anyOf.1 hm
  rcases mem_append.1 hr with hr | hr
  · obtain ⟨s, hs, rfl⟩ := mem_map.1 hr
    have ht := lower_of_mem_foldedText hmem hplain.ascii
    have := reports_word (u := []) (t := m) (v := []) hs (by simpa using hsrc) ht
    simpa using this
  simp only [mem_cons, not_mem_nil, or_false] at hr
  rcases hr with rfl | rfl | rfl | rfl
  · exact reports_staleTrue hmem hplain.ascii hplain.spaces hm hsrc
  · exact reports_isErrorTrue hmem hplain.ascii hsrc
  · exact reports_statusFalse hmem hplain.ascii hplain.spaces hm hsrc
  · exact reports_exitCode hmem hplain hm hsrc

/-! ### Detection and matches -/

variable {b : Bytes} {r : Bool} {limit : Nat} {positions : List Nat}

/-- The search reports a text that has a match near a keyword, and no other. -/
lemma salientMatch_iff (hrun : salientMatch b = some r) : r = true ↔ ∃ h, MatchNear b h := by
  obtain ⟨hits, hhits, rfl⟩ := Option.map_eq_some_iff.1 hrun
  cases hits with
  | nil =>
    refine ⟨nofun, ?_⟩
    rintro ⟨h, hnear⟩
    obtain ⟨kw, hkw, hocc, hfound⟩ := hnear.found
    obtain ⟨w, hw, hhit⟩ := (salientHits_spec hhits).2 (.inr rfl) kw hkw _ hocc
    rw [Nat.zero_add] at hw
    exact absurd (hhit (hfound w hw)) not_mem_nil
  | cons h hits =>
    refine ⟨fun _ => ⟨h, Confirmed.matchNear ?_⟩, fun _ => rfl⟩
    obtain ⟨kw, hkw, hocc, hconf⟩ := (salientHits_spec hhits).1 h mem_cons_self
    exact ⟨kw, hkw, hocc, by rwa [Nat.zero_add] at hconf⟩

lemma scanSalient_iff (hrun : scanSalient src limit = some positions) (p : Nat) :
    p ∈ positions ↔ MatchNear src p := by
  obtain ⟨ps, hps, rfl⟩ := Option.map_eq_some_iff.1 hrun
  obtain ⟨-, hsound, hall⟩ := scanFrom_spec (by decide) (by decide) (by simp) hps
  rw [mem_mergeSort]
  refine ⟨fun hp => ((hsound p hp).resolve_left not_mem_nil).matchNear, fun hnear => ?_⟩
  obtain ⟨kw, hkw, hocc, hfound⟩ := hnear.found
  obtain ⟨w, hw, hhit⟩ := hall kw hkw p (Nat.zero_le p) hocc
  rw [Nat.zero_add] at hw
  exact hhit (hfound w hw)

/-- A search that is not refused is right about a text exactly if a match is near a keyword when it
has a match at all, and a scan records a position for a match exactly if a keyword there has a match
near it. Both hold of every plain match, and only what matches is ever reported. -/
theorem detection_iff (b : Bytes) (maxSalientPositions : Nat) :
    (∀ r, salientMatch b = some r →
      ((r = true ↔ Salient b) ↔ (Salient b → ∃ h, MatchNear b h))
      ∧ (r = true → Salient b)
      ∧ ∀ x m y, b = x ++ m ++ y → m ∈ salient.language → Plain m → r = true)
    ∧ ∀ positions, scanSalient b maxSalientPositions = some positions →
      ∀ x m y, b = x ++ m ++ y → m ∈ salient.language →
        ((∃ p ∈ positions, Touches x m p) ↔ ∃ p, MatchNear b p ∧ Touches x m p)
        ∧ (Plain m → ∃ p ∈ positions, Touches x m p) := by
  have hsound : (∃ h, MatchNear b h) → Salient b := by
    rintro ⟨h, hnear⟩
    exact hnear.isSalient
  refine ⟨fun r hr => ?_, fun positions hps x m y hb hm => ?_⟩
  · rw [salientMatch_iff hr]
    refine ⟨⟨fun h => h.2, fun h => ⟨hsound, h⟩⟩, hsound, fun x m y hb hm hplain => ?_⟩
    exact (reports_plain hm hplain hb).imp fun h hh => hh.1
  · simp only [scanSalient_iff hps]
    exact ⟨trivial, fun hplain => reports_plain hm hplain hb⟩

/-- A text that matches in which nothing is found, without an error. -/
def Missed (b : Bytes) : Prop :=
  Salient b ∧ salientMatch b = some false ∧ scanSalient b 100 = some []

lemma missed_iff :
    Missed b ↔ salient.found b = true ∧ salientMatch b = some false ∧ scanSalient b 100 = some [] :=
  and_congr_left' Pattern.found_iff.symm

/-- The letters of `assert` with long s, a blank in `exit code` that keeps the white space after it
out of the window, and form feeds. -/
theorem detection_misses : Missed [97, 0xC5, 0xBF, 0xC5, 0xBF, 101, 114, 116]
    ∧ Missed (ascii "exit code" ++ List.replicate 64 32 ++ ascii "=1")
    ∧ Missed (ascii "stale\"" ++ List.replicate 64 12 ++ ascii ":true") := by
  simp only [missed_iff]
  decide +kernel

/-- A status with an underscore is found. -/
theorem detection_iff_exit_code :
    Plain (ascii "exit_code = 3") ∧ salientMatch (ascii "exit_code = 3") = some true := by
  obtain ⟨hascii, hspaces, hjoined, hrest, hrun⟩ : (∀ c ∈ ascii "exit_code = 3", c < 128)
      ∧ (12 : UInt8) ∉ ascii "exit_code = 3"
      ∧ ¬ascii "exit " <+: (ascii "exit_code = 3").map asciiLower
      ∧ [] ∈ salient.rests (ascii "exit_code = 3")
      ∧ (salientMatch (ascii "exit_code = 3")).isSome := by
    decide +kernel
  have hplain : Plain (ascii "exit_code = 3") := ⟨hascii, hspaces, hjoined⟩
  obtain ⟨m, hm, heq⟩ := Pattern.mem_rests.1 hrest
  rw [append_nil] at heq
  obtain ⟨r, hr⟩ := Option.isSome_iff_exists.1 hrun
  refine ⟨hplain, ?_⟩
  rw [hr, ((detection_iff (ascii "exit_code = 3") 100).1 r hr).2.2 [] _ [] (by simp)
    (heq ▸ hm) hplain]

end Evidence
