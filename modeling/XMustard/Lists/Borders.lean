import Mathlib.Data.List.Infix
import Mathlib.Order.Bounds.Basic

/-! # Searching along a table of borders

The search of Knuth, Morris and Pratt for a list within another. It keeps the length of the longest
partial match, and where the next member does not continue it, a table says how long a part of it is
still one. The table is made by the same steps. -/

namespace Lists

open List

/-! ### Borders -/

section

variable {α : Type} {want s t : List α} {x : α} {b k : Nat}

/-- The lengths below `b` of the initial parts of `want` in which `t` ends. -/
def Borders (want t : List α) (b : Nat) : Set Nat := {k | k < b ∧ want.take k <:+ t}

lemma isGreatest_borders_one : IsGreatest (Borders want t 1) 0 :=
  ⟨⟨Nat.one_pos, by simp⟩, fun _ hk => Nat.le_of_lt_succ hk.1⟩

lemma isGreatest_borders_nil (hne : want ≠ []) : IsGreatest (Borders want [] want.length) 0 := by
  refine ⟨⟨length_pos_iff.2 hne, by simp⟩, fun k hk => ?_⟩
  simpa [hne] using suffix_nil.1 hk.2

/-- The shorter ones are in the end of `t`. -/
lemma borders_eq_of_suffix (h : s <:+ t) (hb : b ≤ s.length + 1) :
    Borders want t b = Borders want s b := by
  ext k
  refine and_congr_right fun hk => ⟨fun hkt => suffix_of_suffix_length_le hkt h ?_,
    fun hks => hks.trans h⟩
  rw [length_take]
  omega

lemma succ_mem_borders (hb : b ≤ want.length) :
    k + 1 ∈ Borders want (t ++ [x]) (b + 1) ↔ k ∈ Borders want t b ∧ want[k]? = some x := by
  simp only [Borders, Set.mem_ofPred_eq, Nat.add_lt_add_iff_right, and_assoc]
  refine and_congr_right fun hk => ?_
  have hlt := hk.trans_le hb
  rw [take_succ_eq_append_getElem hlt, getElem?_eq_getElem hlt, Option.some_inj, ← reverse_prefix,
    reverse_concat, reverse_concat, cons_prefix_cons, reverse_prefix, and_comm]

end

/-! ### The search -/

variable {α : Type} [DecidableEq α] (want : List α)

/-- Shorten a match of `j` members until `x` continues it. -/
def fallBack (fail : List Nat) (x : α) : Nat → Nat → Nat
  | 0, j => j
  | fuel + 1, j =>
    if 0 < j ∧ want[j]? ≠ some x then fallBack fail x fuel (fail.getD (j - 1) 0) else j

/-- The length of the match after `x`. -/
def matchNext (fail : List Nat) (j : Nat) (x : α) : Nat :=
  let j := fallBack want fail x j j
  if want[j]? = some x then j + 1 else j

def failureStep (st : List Nat × Nat) (x : α) : List Nat × Nat :=
  let j := matchNext want st.1 st.2 x
  (st.1 ++ [j], j)

/-- The length of the longest border of each initial part. -/
def failure : List Nat :=
  if want = [] then [] else (want.tail.foldl (failureStep want) ([0], 0)).1

/-- The first `n` entries of the table. -/
def IsTable (fail : List Nat) (n : Nat) : Prop :=
  ∀ i < n, IsGreatest (Borders want (want.take (i + 1)) (i + 1)) (fail.getD i 0)

variable {want} {fail : List Nat} {t : List α} {x : α} {b j : Nat}

/-- What the loop ends with: a match that `x` continues, or none. -/
lemma fallBack_spec {fuel : Nat} (hb : b ≤ want.length) (htable : IsTable want fail (b - 1))
    (hj : j ∈ Borders want t b) (hfuel : j ≤ fuel)
    (hle : ∀ k ∈ Borders want t b, want[k]? = some x → k ≤ j) :
    fallBack want fail x fuel j ∈ Borders want t b
      ∧ (∀ k ∈ Borders want t b, want[k]? = some x → k ≤ fallBack want fail x fuel j)
      ∧ (want[fallBack want fail x fuel j]? ≠ some x → fallBack want fail x fuel j = 0) := by
  induction fuel generalizing j with
  | zero => exact ⟨hj, hle, fun _ => Nat.le_zero.1 hfuel⟩
  | succ fuel ih =>
    rw [fallBack]
    split
    next h =>
      -- a shorter match is a border of the longer one
      have hlt := hj.1
      have htop := htable (j - 1) (by omega)
      rw [Nat.sub_add_cancel h.1, ← borders_eq_of_suffix hj.2 (by rw [length_take]; omega)] at htop
      have hless := htop.1.1
      refine ih ⟨hless.trans hlt, htop.1.2⟩ (by omega) fun k hk hx => htop.2 ⟨?_, hk.2⟩
      refine lt_of_le_of_ne (hle k hk hx) ?_
      rintro rfl
      exact h.2 hx
    next h => exact ⟨hj, hle, fun hx => Nat.eq_zero_of_not_pos fun hpos => h ⟨hpos, hx⟩⟩

/-- One more member. -/
lemma isGreatest_matchNext (hb : b ≤ want.length) (htable : IsTable want fail (b - 1))
    (hj : IsGreatest (Borders want t b) j) :
    IsGreatest (Borders want (t ++ [x]) (b + 1)) (matchNext want fail j x) := by
  obtain ⟨hmem, hmax, hend⟩ :=
    fallBack_spec (x := x) hb htable hj.1 le_rfl fun k hk _ => hj.2 hk
  unfold matchNext
  dsimp only
  split
  next hx =>
    refine ⟨(succ_mem_borders hb).2 ⟨hmem, hx⟩, ?_⟩
    rintro (_ | k) hk
    · exact Nat.zero_le _
    · obtain ⟨hk, hkx⟩ := (succ_mem_borders hb).1 hk
      exact Nat.succ_le_succ (hmax k hk hkx)
  next hx =>
    have hzero := hend hx
    rw [hzero] at hmax hx ⊢
    refine ⟨⟨Nat.succ_pos b, by simp⟩, ?_⟩
    rintro (_ | k) hk
    · exact le_rfl
    · obtain ⟨hk, hkx⟩ := (succ_mem_borders hb).1 hk
      exact absurd (Nat.le_zero.1 (hmax k hk hkx) ▸ hkx) hx

lemma foldl_failureStep {rest u : List α} {st : List Nat × Nat} (hwant : want = u ++ rest)
    (hlen : st.1.length = u.length) (htable : IsTable want st.1 u.length)
    (hst : IsGreatest (Borders want u u.length) st.2) :
    IsTable want (rest.foldl (failureStep want) st).1 want.length := by
  induction rest generalizing u st with
  | nil => simpa [hwant] using htable
  | cons x rest ih =>
    have hnext : IsGreatest (Borders want (u ++ [x]) (u.length + 1)) _ :=
      isGreatest_matchNext (by simp [hwant]) (fun i hi => htable i (by omega)) hst
    refine ih (u := u ++ [x]) (by simp [hwant]) (by simp [failureStep, hlen]) ?_
      (by simpa [failureStep] using hnext)
    intro i hi
    rw [length_append] at hi
    rcases Nat.lt_succ_iff_lt_or_eq.1 hi with hi | rfl
    · simpa [failureStep, getElem?_append_left (hlen ▸ hi)] using htable i hi
    · rw [hwant, append_cons, take_left' (by simp), ← append_cons, ← hwant]
      simpa [failureStep, hlen] using hnext

lemma isTable_failure (want : List α) : IsTable want (failure want) want.length := by
  unfold failure
  split
  next h => simp [h, IsTable]
  next h =>
    obtain ⟨w, rest, rfl⟩ := exists_cons_of_ne_nil h
    refine foldl_failureStep (u := [w]) rfl rfl (fun i hi => ?_) isGreatest_borders_one
    obtain rfl : i = 0 := Nat.lt_one_iff.1 hi
    exact isGreatest_borders_one

/-- One step of the search: the match is as long as `want` exactly if `want` ends there, and then
the search goes on with its longest border. -/
lemma isGreatest_search (hne : want ≠ []) (hj : IsGreatest (Borders want t want.length) j) (x : α) :
    let j' := matchNext want (failure want) j x
    (j' < want.length ↔ ¬want <:+ t ++ [x])
      ∧ IsGreatest (Borders want (t ++ [x]) want.length)
        (if j' < want.length then j' else (failure want).getD (j' - 1) 0) := by
  intro j'
  have htable := isTable_failure want
  obtain ⟨hmem, hmax⟩ : IsGreatest (Borders want (t ++ [x]) (want.length + 1)) j' :=
    isGreatest_matchNext le_rfl (fun i hi => htable i (by omega)) hj
  have hlt := hmem.1
  split
  next hless =>
    refine ⟨iff_of_true hless fun hfull => ?_,
      ⟨hless, hmem.2⟩, fun k hk => hmax ⟨Nat.lt_succ_of_lt hk.1, hk.2⟩⟩
    have : want.length ≤ j' := hmax ⟨Nat.lt_succ_self _, by simpa using hfull⟩
    omega
  next hnot =>
    obtain heq : j' = want.length := by omega
    have hfull : want <:+ t ++ [x] := by simpa [heq] using hmem.2
    have htop := htable (want.length - 1) (by have := length_pos_iff.2 hne; omega)
    rw [Nat.sub_add_cancel (length_pos_iff.2 hne), take_length] at htop
    rw [borders_eq_of_suffix hfull (Nat.le_succ _), heq]
    exact ⟨iff_of_false (Nat.lt_irrefl _) (not_not.2 hfull), htop⟩

end Lists
