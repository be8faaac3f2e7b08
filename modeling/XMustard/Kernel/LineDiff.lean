import XMustard.Lists.Subsequences
import XMustard.Text.Bytes
import XMustard.Text.Pieces

/-!
# Line diffs

The history of an entry shows what changed between two revisions as a block of lines that are kept,
removed or added. The block leaves out the lines both texts start with and those both end with; the
lines of the rest are matched along a table of longest common subsequences.
-/

namespace WorkspaceOps.LineDiff

open List Text Lists

/-! ### The table and the walk -/

def maxDiffCells : ℕ := 1 <<< 20

/-- A row of the table from the row below, from its last cell to its first. -/
def lcsRow (l : Bytes) : List Bytes → List ℕ → List ℕ
  | [], _ => [0]
  | m :: y, below =>
    let row := lcsRow l y below.tail
    (if l = m then below.getD 1 0 + 1 else max (below.getD 0 0) (row.getD 0 0)) :: row

/-- The rows, from the last to the first. -/
def lcsTable (y : List Bytes) : List Bytes → List (List ℕ)
  | [] => [replicate (y.length + 1) 0]
  | l :: x =>
    let rows := lcsTable y x
    lcsRow l y (rows.headD []) :: rows

variable (lcs : List (List ℕ))

def cell (i j : ℕ) : ℕ := (lcs.getD i []).getD j 0

-- A line with a blank, `-` or `+` before it.
def kept (l : Bytes) : Bytes := 0x20 :: l
def removed (l : Bytes) : Bytes := 0x2D :: l
def added (l : Bytes) : Bytes := 0x2B :: l

/-- Follow the table through the lines from `i` and `j` on. -/
def walk (lcs : List (List ℕ)) (i j : ℕ) : List Bytes → List Bytes → List Bytes
  | [], [] => []
  | l :: x, [] => removed l :: walk lcs (i + 1) j x []
  | [], m :: y => added m :: walk lcs i (j + 1) [] y
  | l :: x, m :: y =>
    if l = m then kept l :: walk lcs (i + 1) (j + 1) x y
    else if cell lcs (i + 1) j ≥ cell lcs i (j + 1) then
      removed l :: walk lcs (i + 1) j x (m :: y)
    else added m :: walk lcs i (j + 1) (l :: x) y
termination_by x y => x.length + y.length

def diffLines (x y : List Bytes) : List Bytes :=
  if x.length * y.length > maxDiffCells then x.map removed ++ y.map added
  else walk (lcsTable y x) 0 0 x y

/-! ### The block -/

def commonStart : List Bytes → List Bytes → ℕ
  | l :: x, m :: y => if l = m then commonStart x y + 1 else 0
  | _, _ => 0

/-- What differs: how many lines come before, and the lines of either text. -/
structure Block where
  start : ℕ
  old : List Bytes
  new : List Bytes

variable (a b : Bytes)

def block : Block :=
  let x := a.splitOn 10
  let y := b.splitOn 10
  let p := commonStart x y
  let s := commonStart (x.drop p).reverse (y.drop p).reverse
  ⟨p, (x.take (x.length - s)).drop p, (y.take (y.length - s)).drop p⟩

def header (line : ℕ) : Bytes :=
  let p := (Nat.toDigits 10 line).map Char.toUInt8
  ascii "@@ -" ++ p ++ ascii " +" ++ p ++ ascii " @@"

def lineDiff : Bytes :=
  let c := block a b
  if c.old = [] ∧ c.new = [] then []
  else header (c.start + 1) ++ 10 :: (diffLines c.old c.new).flatMap (· ++ [10])

/-! ### Reading a diff -/

/-- The line that a header names. -/
def headerLine (h : Bytes) : Option ℕ :=
  let line := Nat.ofDigitChars 10 (((h.drop 4).takeWhile (· ≠ 0x20)).map Char.ofUInt8) 0
  if h = header line then some line else none

/-- Where the lines of a diff start, and the lines, each of them ended; an empty diff has none. -/
def readDiff (diff : Bytes) : Option (ℕ × List Bytes) :=
  if diff = [] then some (1, [])
  else (headerLine ((diff.splitOn 10).headD [])).map (·, (diff.splitOn 10).tail.dropLast)

/-- The lines of a diff with one of these marks. -/
def marked (marks : Bytes) (diff : List Bytes) : List Bytes :=
  (diff.filter fun l => l.head?.any marks.contains).map tail

def keptLines := marked [0x20]
def oldLines := marked [0x20, 0x2D]
def newLines := marked [0x20, 0x2B]

/-- Replace the kept and removed lines by the kept and added ones, from a line on; not if they are
not there. -/
def applyDiff (line : ℕ) (diff : List Bytes) (a : Bytes) : Option Bytes :=
  let x := a.splitOn 10
  let rest := x.drop (line - 1)
  if oldLines diff <+: rest then
    some ([10].intercalate
      (x.take (line - 1) ++ newLines diff ++ rest.drop (oldLines diff).length))
  else none

variable {x y d : List Bytes} {l : Bytes} {below : List ℕ}

@[simp] lemma marked_cons (marks : Bytes) (b : UInt8) (l : Bytes) (d : List Bytes) :
    marked marks ((b :: l) :: d) =
      if marks.contains b then l :: marked marks d else marked marks d := by
  by_cases h : b ∈ marks <;> simp [marked, h]

/-! ### The table holds the lengths -/

/-- Every cell of a row is the length for the lines from its place on, if that is so below. -/
lemma isLcs_lcsRow (l : Bytes) (h : ∀ j ≤ y.length, IsLcs x (y.drop j) (below.getD j 0)) :
    ∀ j ≤ y.length, IsLcs (l :: x) (y.drop j) ((lcsRow l y below).getD j 0) := by
  induction y generalizing below with
  | nil =>
    intro j hj
    cases hj
    exact .nil_right _
  | cons m y ih =>
    have htail : ∀ j ≤ y.length, IsLcs x (y.drop j) (below.tail.getD j 0) := fun j hj => by
      simpa using h (j + 1) (by simpa using hj)
    have hrow := ih htail
    rintro (_ | j) hj
    · have hright := hrow 0 (by simp)
      have hbelow := h 0 (by simp)
      have hdiag := h 1 (by simp)
      by_cases hlm : l = m
      · subst hlm
        simpa [lcsRow] using hdiag.cons l
      · simpa [lcsRow, hlm] using hbelow.max hlm hright
    · simpa [lcsRow] using hrow j (by simpa using hj)

lemma isLcs_cell (x : List Bytes) {i j : ℕ} (hi : i ≤ x.length) (hj : j ≤ y.length) :
    IsLcs (x.drop i) (y.drop j) (cell (lcsTable y x) i j) := by
  induction x generalizing i j with
  | nil =>
    cases hi
    simpa [cell, lcsTable, getElem?_replicate, Nat.lt_succ_of_le hj] using IsLcs.nil_left (y.drop j)
  | cons l x ih =>
    cases i with
    | zero =>
      refine isLcs_lcsRow l (fun j hj => ?_) j hj
      simpa [cell, getD_eq_getElem?_getD, head?_eq_getElem?] using ih (Nat.zero_le _) hj
    | succ i => exact ih (by simpa using hi) hj

/-! ### The walk follows the table -/

section
attribute [local simp] kept removed added keptLines oldLines newLines

lemma oldLines_walk (i j : ℕ) (x y : List Bytes) :
    oldLines (walk lcs i j x y) = x := by
  fun_induction walk lcs i j x y with
  | case1 => rfl
  | _ => simp_all

lemma newLines_walk (i j : ℕ) (x y : List Bytes) :
    newLines (walk lcs i j x y) = y := by
  fun_induction walk lcs i j x y with
  | case1 => rfl
  | _ => simp_all

/-- The walk keeps as many lines as the table says, from every place it comes to. -/
lemma isLcs_keptLines_walk {x' y' : List Bytes} {i j : ℕ} (hi : i ≤ x.length)
    (hj : j ≤ y.length) (hx : x.drop i = x') (hy : y.drop j = y') :
    IsLcs x' y' (keptLines (walk (lcsTable y x) i j x' y')).length := by
  fun_induction walk (lcsTable y x) i j x' y' with
  | case1 => exact .nil_left _
  | case2 i j l x' ih =>
    obtain ⟨hi', hx'⟩ := drop_succ_of_drop_eq_cons hx
    have hkept := (ih hi' hj hx' hy).unique (IsLcs.nil_right _)
    simpa [← hkept] using IsLcs.nil_right (l :: x')
  | case3 i j m y' ih =>
    obtain ⟨hj', hy'⟩ := drop_succ_of_drop_eq_cons hy
    have hkept := (ih hi hj' hx hy').unique (IsLcs.nil_left _)
    simpa [← hkept] using IsLcs.nil_left (m :: y')
  | case4 i j x' l y' ih =>
    obtain ⟨hi', hx'⟩ := drop_succ_of_drop_eq_cons hx
    obtain ⟨hj', hy'⟩ := drop_succ_of_drop_eq_cons hy
    simpa using (ih hi' hj' hx' hy').cons l
  | case5 i j l x' m y' hlm hle ih =>
    obtain ⟨hi', hx'⟩ := drop_succ_of_drop_eq_cons hx
    obtain ⟨hj', hy'⟩ := drop_succ_of_drop_eq_cons hy
    have hdown := ih hi' hj hx' hy
    have hmax := hdown.max hlm (hx ▸ hy' ▸ isLcs_cell x hi hj')
    have hcell := (hx' ▸ hy ▸ isLcs_cell x hi' hj).unique hdown
    rw [max_eq_left (hcell ▸ hle)] at hmax
    simpa using hmax
  | case6 i j l x' m y' hlm hle ih =>
    obtain ⟨hi', hx'⟩ := drop_succ_of_drop_eq_cons hx
    obtain ⟨hj', hy'⟩ := drop_succ_of_drop_eq_cons hy
    have hright := ih hi hj' hx hy'
    have hmax := (hx' ▸ hy ▸ isLcs_cell x hi' hj).max hlm hright
    have hcell := (hx ▸ hy' ▸ isLcs_cell x hi hj').unique hright
    rw [max_eq_right (hcell ▸ (not_le.1 hle).le)] at hmax
    simpa using hmax

end

/-! ### The block and its diff -/

lemma commonStart_spec (x y : List Bytes) :
    commonStart x y ≤ x.length ∧ commonStart x y ≤ y.length ∧
      x.take (commonStart x y) = y.take (commonStart x y) := by
  fun_induction commonStart x y <;> simp_all

/-- Cut off a number of lines in front and at the end. -/
lemma take_append_middle {p s : ℕ} (h : p + s ≤ x.length) :
    x.take p ++ (x.take (x.length - s)).drop p ++ x.drop (x.length - s) = x := by
  rw [← min_eq_left (show p ≤ x.length - s by omega), ← take_take, min_eq_left (by omega),
    take_append_drop, take_append_drop]

/-- Around the block the two texts have the same lines. -/
lemma block_spec : ∃ after, (a.splitOn 10).drop (block a b).start = (block a b).old ++ after ∧
    b.splitOn 10 = (a.splitOn 10).take (block a b).start ++ (block a b).new ++ after := by
  set x := a.splitOn 10 with hx
  set y := b.splitOn 10 with hy
  obtain ⟨hpx, hpy, hp⟩ := commonStart_spec x y
  set p := commonStart x y with hpdef
  obtain ⟨hsx, hsy, hs⟩ := commonStart_spec (x.drop p).reverse (y.drop p).reverse
  set s := commonStart (x.drop p).reverse (y.drop p).reverse with hsdef
  rw [length_reverse, length_drop] at hsx hsy
  rw [take_reverse, take_reverse, reverse_inj, drop_drop, drop_drop, length_drop, length_drop,
    show p + (x.length - p - s) = x.length - s by omega,
    show p + (y.length - p - s) = y.length - s by omega] at hs
  have hxs := take_append_middle (x := x) (p := p) (s := s) (by omega)
  have hys := take_append_middle (x := y) (p := p) (s := s) (by omega)
  refine ⟨x.drop (x.length - s), ?_, ?_⟩
  · conv_lhs => rw [← hxs, append_assoc]
    exact drop_left' (length_take_of_le hpx)
  · conv_lhs => rw [← hys, ← hs, ← hp]
    rfl

/-! ### The text of the diff -/

/-- The bytes of a number are read back, and no blank or line feed is among them. -/
lemma decimal_bytes (n : ℕ) :
    ((Nat.toDigits 10 n).map Char.toUInt8).map Char.ofUInt8 = Nat.toDigits 10 n ∧
      ∀ b ∈ (Nat.toDigits 10 n).map Char.toUInt8, b ≠ 0x20 ∧ b ≠ 10 := by
  have hdigit : ∀ m < 10, Char.ofUInt8 (Char.ofNat (48 + m)).toUInt8 = Char.ofNat (48 + m) ∧
      (Char.ofNat (48 + m)).toUInt8 ≠ 0x20 ∧ (Char.ofNat (48 + m)).toUInt8 ≠ 10 := by decide
  constructor
  · rw [map_map]
    refine (map_congr_left fun c hc => ?_).trans (map_id _)
    obtain ⟨m, hm, rfl⟩ := exists_digit hc
    exact (hdigit m hm).1
  · intro b hb
    obtain ⟨c, hc, rfl⟩ := mem_map.1 hb
    obtain ⟨m, hm, rfl⟩ := exists_digit hc
    exact (hdigit m hm).2

lemma headerLine_header (n : ℕ) : headerLine (header n) = some n := by
  obtain ⟨hback, hbytes⟩ := decimal_bytes n
  have hdigits : ((header n).drop 4).takeWhile (· ≠ 0x20)
      = (Nat.toDigits 10 n).map Char.toUInt8 := by
    simp only [header, append_assoc]
    rw [drop_left' (by rfl), takeWhile_append_of_pos (by simpa using fun b hb => (hbytes b hb).1)]
    exact append_nil _
  rw [headerLine, hdigits, hback, Nat.ofDigitChars_toDigits (by decide) (by decide)]
  exact if_pos rfl

lemma newline_not_mem_header (n : ℕ) : 10 ∉ header n := by
  have hbytes := (decimal_bytes n).2
  simp only [header, mem_append, not_or]
  refine ⟨⟨⟨⟨by decide, ?_⟩, by decide⟩, ?_⟩, by decide⟩ <;> exact fun h => (hbytes 10 h).2 rfl

lemma newline_not_mem_walk {i j : ℕ} (hx : ∀ l ∈ x, 10 ∉ l) (hy : ∀ l ∈ y, 10 ∉ l) :
    ∀ l ∈ walk lcs i j x y, 10 ∉ l := by
  fun_induction walk lcs i j x y with
  | case1 => simp
  | _ => simp_all [kept, removed, added]

lemma splitOn_flatMap (h : ∀ l ∈ d, 10 ∉ l) :
    (d.flatMap (· ++ [10])).splitOn (10 : UInt8) = d ++ [[]] := by
  induction d with
  | nil => rfl
  | cons l d ih =>
    rw [flatMap_cons, append_assoc, singleton_append,
      splitOn_append_cons_self_of_not_mem (h l (mem_cons_self ..)),
      ih fun l hl => h l (mem_cons_of_mem _ hl), cons_append]

/-- The header and the lines of a diff are read back as they were written. -/
lemma readDiff_lineDiff
    (hcells : (block a b).old.length * (block a b).new.length ≤ maxDiffCells)
    (h : ¬((block a b).old = [] ∧ (block a b).new = [])) :
    readDiff (lineDiff a b)
      = some ((block a b).start + 1, diffLines (block a b).old (block a b).new) := by
  have hlines : ∀ l ∈ diffLines (block a b).old (block a b).new, 10 ∉ l := by
    have hold : ∀ l ∈ (block a b).old, 10 ∉ l := fun _ hl =>
      not_mem_of_mem_splitOn (mem_of_mem_take (mem_of_mem_drop hl))
    have hnew : ∀ l ∈ (block a b).new, 10 ∉ l := fun _ hl =>
      not_mem_of_mem_splitOn (mem_of_mem_take (mem_of_mem_drop hl))
    rw [diffLines, if_neg (not_lt.2 hcells)]
    exact newline_not_mem_walk _ hold hnew
  rw [lineDiff, if_neg h, readDiff, if_neg (by simp),
    splitOn_append_cons_self_of_not_mem (newline_not_mem_header _),
    splitOn_flatMap hlines]
  simp [headerLine_header]

/-- The text of the diff names the line where the texts start to differ, its lines are those of
either text there, it takes the first text to the second, and it keeps as many lines as it can. -/
theorem applyDiff_lineDiff (h : (block a b).old.length * (block a b).new.length ≤ maxDiffCells) :
    ∃ line diff, readDiff (lineDiff a b) = some (line, diff) ∧
      (a ≠ b → line = (block a b).start + 1) ∧
      oldLines diff = (block a b).old ∧ newLines diff = (block a b).new ∧
      applyDiff line diff a = some b ∧
      IsGreatest {n | ∃ l, l <+ (block a b).old ∧ l <+ (block a b).new ∧ l.length = n}
        (keptLines diff).length := by
  obtain ⟨after, ha, hb⟩ := block_spec a b
  by_cases hsame : (block a b).old = [] ∧ (block a b).new = []
  · rw [hsame.1, nil_append] at ha
    rw [hsame.2, append_nil, ← ha, take_append_drop] at hb
    have hab : b = a :=
      (intercalate_splitOn 10).symm.trans (by rw [hb, intercalate_splitOn])
    refine ⟨1, [], by rw [lineDiff, if_pos hsame]; rfl, absurd hab.symm, hsame.1.symm,
      hsame.2.symm, ?_, ?_⟩
    · simpa [applyDiff, oldLines, newLines, marked, intercalate_splitOn] using hab.symm
    · rw [hsame.1]
      exact IsLcs.nil_left _
  · refine ⟨_, _, readDiff_lineDiff a b h hsame, fun _ => rfl, ?_⟩
    rw [diffLines, if_neg (not_lt.2 h)]
    refine ⟨oldLines_walk .., newLines_walk .., ?_, ?_⟩
    · simp [applyDiff, oldLines_walk, newLines_walk, ha, ← hb, intercalate_splitOn]
    · exact isLcs_keptLines_walk (Nat.zero_le _) (Nat.zero_le _) rfl rfl

theorem applyDiff_second_line :
    lineDiff (ascii "a\nb") (ascii "a\nc") = ascii "@@ -2 +2 @@\n-b\n+c\n" ∧
    ∃ line diff, readDiff (ascii "@@ -2 +2 @@\n-b\n+c\n") = some (line, diff) ∧
      applyDiff line diff (ascii "a\nb") = some (ascii "a\nc") := by
  have htext : lineDiff (ascii "a\nb") (ascii "a\nc") = ascii "@@ -2 +2 @@\n-b\n+c\n" := by
    decide +kernel
  obtain ⟨line, diff, hread, -, -, -, happly, -⟩ :=
    applyDiff_lineDiff (ascii "a\nb") (ascii "a\nc") (by decide)
  exact ⟨htext, line, diff, htext ▸ hread, happly⟩

end WorkspaceOps.LineDiff
