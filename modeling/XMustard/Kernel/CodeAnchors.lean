import XMustard.Kernel.Invalidation
import Mathlib.Data.List.Infix

/-!
# The values of code anchors

A code anchor's value is a path and a range of lines. It is written when quoted code is placed, read
back when the code is followed, and taken apart once more by the query that looks for the anchors of
a file.
-/

namespace WorkspaceOps

open GovStore List

section Cut

variable {c : Char} {s l a b : List Char}

/-- A separator that does not overlap itself starts first where nothing before it contains it. -/
lemma nil_of_prefix (hc : c ∉ s) (ha : ¬(c :: s) <:+: a) (h : c :: s <+: a ++ (c :: s ++ b)) :
    a = [] := by
  obtain ⟨r, hr⟩ := h
  rcases append_eq_append_iff.1 hr with ⟨u, rfl, -⟩ | ⟨u, hu, hv⟩
  · exact absurd (prefix_append ..).isInfix ha
  · rcases u with _ | ⟨y, u⟩
    · exact absurd (by rw [hu, append_nil]) ha
    · rcases a with _ | ⟨x, a⟩
      · rfl
      · obtain rfl : c = y := by simpa using congrArg head? hv
        exact absurd (by simp [(cons.inj hu).2]) hc

lemma cut_eq_some_iff (hc : c ∉ s) :
    cut (c :: s) l = some (a, b) ↔ ¬(c :: s) <:+: a ∧ l = a ++ (c :: s ++ b) := by
  induction l generalizing a with
  | nil => simp [cut]
  | cons x l ih =>
    rw [cut]
    split
    next hsep =>
      obtain ⟨r, hr⟩ := isPrefixOf_iff_prefix.1 hsep
      rw [← hr, drop_left]
      constructor
      · rintro ⟨⟩
        exact ⟨by simp, rfl⟩
      · rintro ⟨ha, h⟩
        obtain rfl := nil_of_prefix hc ha (h ▸ prefix_append ..)
        rw [append_cancel_left h]
    next hsep =>
      have hsep := mt isPrefixOf_iff_prefix.2 hsep
      rcases a with _ | ⟨y, a⟩
      · suffices x :: l ≠ c :: s ++ b by simpa
        exact fun h => hsep (h ▸ prefix_append ..)
      · have hinfix (h : x :: l = y :: a ++ (c :: s ++ b)) :
            ¬(c :: s) <:+: a ↔ ¬(c :: s) <:+: y :: a :=
          (infix_cons_iff.trans
            (or_iff_right fun hp => hsep (h ▸ hp.trans (prefix_append ..)))).not.symm
        rw [Option.map_eq_some_iff]
        grind

end Cut

variable {v : String} {p path : List Char} {lo hi : Int}

lemma parseCodeAnchorValue_eq_some_iff : parseCodeAnchorValue v = some (p, lo, hi) ↔
    ∃ d e, v.toList = p ++ (['#', 'L'] ++ (d ++ (['-', 'L'] ++ e))) ∧ ¬['#', 'L'] <:+: p
      ∧ ¬['-', 'L'] <:+: d ∧ atoi d = some lo ∧ atoi e = some hi ∧ p ≠ [] ∧ 1 ≤ lo ∧ lo ≤ hi := by
  have hsign : "#L".toList = ['#', 'L'] := rfl
  have hdash : "-L".toList = ['-', 'L'] := rfl
  simp only [parseCodeAnchorValue, hsign, hdash, Option.bind_eq_bind, Option.bind_eq_some_iff,
    Prod.exists, Option.ite_none_left_eq_some]
  simp only [cut_eq_some_iff (show '#' ∉ ['L'] by decide),
    cut_eq_some_iff (show '-' ∉ ['L'] by decide)]
  grind

/-- A number that fits is read back from its digits. -/
lemma atoi_toDigits {n : Nat} (h : n ≤ 9223372036854775807) :
    atoi (Nat.toDigits 10 n) = some (n : Int) := by
  have hdigit : (Nat.toDigits 10 n).all Char.isDigit :=
    all_eq_true.2 fun c hc => Nat.isDigit_of_mem_toDigits (by decide) (by decide) hc
  have hread : digits (Nat.toDigits 10 n) = some (n : Int) := by
    rw [digits, if_pos ⟨Nat.toDigits_ne_nil, hdigit⟩,
      Nat.ofDigitChars_toDigits (by decide) (by decide)]
  rw [atoi, hread]
  · simpa using by omega
  all_goals
    intro l heq
    simp [heq] at hdigit

lemma toList_codeAnchorValue {m n : Nat} : (codeAnchorValue path m n).toList
    = path ++ (['#', 'L'] ++ (Nat.toDigits 10 m ++ (['-', 'L'] ++ Nat.toDigits 10 n))) := by
  have hrepr (k : Nat) : (toString (k : Int)).toList = Nat.toDigits 10 k := String.toList_ofList
  simp only [codeAnchorValue, String.toList_append, String.toList_ofList, hrepr, append_assoc]
  rfl

lemma parse_codeAnchorValue (hpath : path ≠ []) (hsign : ¬['#', 'L'] <:+: path) (hlo : 1 ≤ lo)
    (hle : lo ≤ hi) (hhi : hi ≤ 9223372036854775807) :
    parseCodeAnchorValue (codeAnchorValue path lo hi) = some (path, lo, hi) := by
  lift lo to Nat using by omega
  lift hi to Nat using by omega
  refine parseCodeAnchorValue_eq_some_iff.2 ⟨_, _, toList_codeAnchorValue, hsign, ?_,
    atoi_toDigits (by omega), atoi_toDigits (by omega), hpath, hlo, hle⟩
  intro hdash
  have hmem : '-' ∈ Nat.toDigits 10 lo := hdash.subset (by decide)
  exact absurd (Nat.isDigit_of_mem_toDigits (by decide) (by decide) hmem) (by decide)

/-- The query finds the file that the parser reads unless it has a number sign. -/
lemma beforeSign_eq_iff (h : parseCodeAnchorValue v = some (p, lo, hi)) :
    beforeSign v = String.ofList p ↔ '#' ∉ p := by
  obtain ⟨d, e, hv, -⟩ := parseCodeAnchorValue_eq_some_iff.1 h
  have hcut {a b} : cut ['#'] v.toList = some (a, b) ↔ _ := cut_eq_some_iff not_mem_nil
  simp only [singleton_infix_iff] at hcut
  constructor
  · intro heq
    rw [beforeSign] at heq
    split at heq
    next a b hab => exact String.ofList_injective heq ▸ (hcut.1 hab).1
    next => exact (String.ofList_injective heq : [] = p) ▸ not_mem_nil
  · intro hp
    rw [beforeSign, hcut.2 ⟨hp, hv⟩]

/-- What is written is read back, and a path is no place in another file, for the paths without
"#L"; the query and the parser agree on the values whose path has no number sign. -/
theorem code_anchor_values_agree_iff (path : List Char) (v : String) :
    (((∀ lo hi, 1 ≤ lo → lo ≤ hi → hi ≤ 9223372036854775807 →
          parseCodeAnchorValue (codeAnchorValue path lo hi) = some (path, lo, hi))
        ∧ ∀ p lo hi, parseCodeAnchorValue (String.ofList path) = some (p, lo, hi) → p = path)
      ↔ path ≠ [] ∧ ¬['#', 'L'] <:+: path)
    ∧ ((∀ p lo hi, parseCodeAnchorValue v = some (p, lo, hi) → beforeSign v = String.ofList p)
      ↔ ∀ p lo hi, parseCodeAnchorValue v = some (p, lo, hi) → '#' ∉ p) := by
  refine ⟨⟨fun ⟨hwritten, _⟩ => ?_, fun ⟨hpath, hsign⟩ => ⟨fun lo hi hlo hle hhi =>
    parse_codeAnchorValue hpath hsign hlo hle hhi, fun p lo hi h => ?_⟩⟩,
    forall_congr' fun p => forall₂_congr fun lo hi => forall_congr' beforeSign_eq_iff⟩
  · obtain ⟨_, _, -, hsign, -, -, -, hpath, -⟩ := parseCodeAnchorValue_eq_some_iff.1
      (hwritten 1 1 (by decide) (by decide) (by decide))
    exact ⟨hpath, hsign⟩
  · obtain ⟨d, e, hv, -⟩ := parseCodeAnchorValue_eq_some_iff.1 h
    rw [String.toList_ofList] at hv
    exact absurd (hv ▸ infix_append' ..) hsign

/-- A path with "#L" is not read back, one like a place is taken for a place in another file, and
one with a number sign is not found by the query. -/
theorem code_anchor_values_disagree :
    parseCodeAnchorValue (codeAnchorValue "a#Lb".toList 1 2) = none
    ∧ parseCodeAnchorValue "a#L1-L2" = some ("a".toList, 1, 2)
    ∧ parseCodeAnchorValue (codeAnchorValue "a#b".toList 1 2) = some ("a#b".toList, 1, 2)
    ∧ beforeSign (codeAnchorValue "a#b".toList 1 2) = "a" := by
  decide +kernel

end WorkspaceOps
