import XMustard.Index.Collector

/-!
# The envelope without heaps

What the collection amounts to if nothing is let go before the envelope is applied, and exactly when
the heaps make no difference.
-/

namespace Index

open List Text

variable {Lang : Type} {cfg : IndexConfig} {n : Nat}

/-! ### The fold over all files -/

/-- The rows of the index, and the paths that are only counted. -/
abbrev Rows (Lang : Type) := List (Candidate Lang) × List (Bytes × Reason)

/-- A file that is lost before the cut has a row while there is room, and is counted otherwise. -/
def addLost (rows : Nat) (c : Candidate Lang) (reason : Reason) (next : Nat → Rows Lang) :
    Rows Lang :=
  if rows < maxLossRows then ({ c with loss := some reason } :: (next (rows + 1)).1,
    (next (rows + 1)).2)
  else ((next rows).1, (c.path, reason) :: (next rows).2)

/-- How a file counts that has no row and is not before the cut. -/
def Candidate.past (c : Candidate Lang) : Bytes × Reason := (c.path, c.loss.getD .envelopeFiles)

/-- All files in path order. -/
def envelope (cfg : IndexConfig) : (kept bytes rows : Nat) → List (Candidate Lang) → Rows Lang
  | _, _, _, [] => ([], [])
  | kept, bytes, rows, c :: cs =>
    match c.loss with
    | some reason => addLost rows c reason fun rows => envelope cfg kept bytes rows cs
    | none =>
      if cfg.maxFiles ≤ kept then ([], (c :: cs).map Candidate.past)
      else if bytes + c.stat.size ≤ cfg.maxTotalBytes then
        let r := envelope cfg (kept + 1) (bytes + c.stat.size) rows cs
        (c :: r.1, r.2)
      else addLost rows c .envelopeBytes fun rows => envelope cfg kept bytes rows cs

/-- What a scan says of the eligible files. -/
@[ext] structure Outcome (Lang : Type) where
  candidates : List (Candidate Lang)
  beyond : Reason → Nat
  sample : List (Bytes × Reason)

def Collected.outcome (col : Collected Lang) : Outcome Lang :=
  ⟨col.candidates, col.beyond, col.beyondSample⟩

/-- The file as a candidate, if it is there. -/
def Listed.candidate (cfg : IndexConfig) (f : Listed Lang) : Option (Candidate Lang) :=
  (statFile f.lstat f.mode cfg.maxFileSize).map fun s => ⟨f.path, f.lang, s.1, s.2.map .preRead⟩

/-- The files that are there, in path order. -/
def inPathOrder (cfg : IndexConfig) (files : List (Listed Lang)) : List (Candidate Lang) :=
  (files.filterMap (Listed.candidate cfg)).insertionSort fun c d => c.path ≤ d.path

/-- The counts by reason, and the smallest paths. -/
def Outcome.ofRest (rows : List (Candidate Lang)) (rest : List (Bytes × Reason)) : Outcome Lang :=
  ⟨rows, fun reason => rest.countP fun p => p.2 = reason, rest.take maxLossEntries⟩

/-- The outcome of the fold over all files. -/
def unbounded (cfg : IndexConfig) (files : List (Listed Lang)) : Outcome Lang :=
  let r := envelope cfg 0 0 0 (inPathOrder cfg files)
  .ofRest r.1 r.2

/-- How many files are kept among readable files of these sizes, in path order. -/
def keptOf (cfg : IndexConfig) : (kept bytes : Nat) → List Nat → Nat
  | kept, _, [] => kept
  | kept, bytes, n :: ns =>
    if cfg.maxFiles ≤ kept then kept
    else if bytes + n ≤ cfg.maxTotalBytes then keptOf cfg (kept + 1) (bytes + n) ns
    else keptOf cfg kept bytes ns

/-- The sizes of the readable files, in path order. -/
def readableSizes (cs : List (Candidate Lang)) : List Nat :=
  (cs.filter fun c => c.loss.isNone).map fun c => c.stat.size

/-- All readable files are among the first `r`, or enough of them to reach the limit of files. -/
def Suffices (cfg : IndexConfig) (kept bytes r : Nat) (sizes : List Nat) : Prop :=
  sizes.length ≤ r ∨ keptOf cfg kept bytes (sizes.take r) = cfg.maxFiles

/-- The heap of readable files holds all of them, or enough to reach the limit of files. -/
def HeapSuffices (cfg : IndexConfig) (files : List (Listed Lang)) : Prop :=
  Suffices cfg 0 0 (cfg.maxFiles + maxLossRows) (readableSizes (inPathOrder cfg files))

/-! ### Trimmed lists -/

/-- The first `r` readable files and the first `l` lost ones. -/
def trim : (r l : Nat) → List (Candidate Lang) → List (Candidate Lang)
  | _, _, [] => []
  | r, l, c :: cs =>
    match c.loss, r, l with
    | none, r + 1, l => c :: trim r l cs
    | none, 0, l => trim 0 l cs
    | some _, r, l + 1 => c :: trim r l cs
    | some _, r, 0 => trim r 0 cs

/-- The files that `trim` leaves out. -/
def trimmed : (r l : Nat) → List (Candidate Lang) → List (Candidate Lang)
  | _, _, [] => []
  | r, l, c :: cs =>
    match c.loss, r, l with
    | none, r + 1, l => trimmed r l cs
    | none, 0, l => c :: trimmed 0 l cs
    | some _, r, l + 1 => trimmed r l cs
    | some _, r, 0 => c :: trimmed r 0 cs

/-- Trim a list, by whether the next file is readable and still has a place. -/
inductive Trims : (r l : Nat) → (cs held gone : List (Candidate Lang)) → Prop
  | nil {r l : Nat} : Trims r l [] [] []
  | readable {r l : Nat} {c : Candidate Lang} {cs held gone : List (Candidate Lang)} :
      c.loss = none → Trims r l cs held gone → Trims (r + 1) l (c :: cs) (c :: held) gone
  | readable_zero {l : Nat} {c : Candidate Lang} {cs held gone : List (Candidate Lang)} :
      c.loss = none → Trims 0 l cs held gone → Trims 0 l (c :: cs) held (c :: gone)
  | lost {r l : Nat} {c : Candidate Lang} {cs held gone : List (Candidate Lang)} {reason : Reason} :
      c.loss = some reason → Trims r l cs held gone → Trims r (l + 1) (c :: cs) (c :: held) gone
  | lost_zero {r : Nat} {c : Candidate Lang} {cs held gone : List (Candidate Lang)}
    {reason : Reason} :
      c.loss = some reason → Trims r 0 cs held gone → Trims r 0 (c :: cs) held (c :: gone)

section

variable {c : Candidate Lang} {cs held gone : List (Candidate Lang)} {r l : Nat} {reason : Reason}

lemma trims (r l : Nat) (cs : List (Candidate Lang)) :
    Trims r l cs (trim r l cs) (trimmed r l cs) := by
  induction cs generalizing r l with
  | nil => exact .nil
  | cons c cs ih =>
    cases hloss : c.loss with
    | none =>
      cases r <;> simp only [trim, trimmed, hloss]
      · exact .readable_zero hloss (ih 0 l)
      · exact .readable hloss (ih _ l)
    | some reason =>
      cases l <;> simp only [trim, trimmed, hloss]
      · exact .lost_zero hloss (ih r 0)
      · exact .lost hloss (ih r _)

section

variable (h : Trims r l cs held gone)
include h

lemma Trims.perm : (held ++ gone).Perm cs := by
  induction h with
  | nil => exact .nil
  | readable _ _ ih | lost _ _ ih => exact ih.cons _
  | readable_zero _ _ ih | lost_zero _ _ ih => exact perm_middle.trans (ih.cons _)

/-- The files of each kind that are held and let go. -/
lemma Trims.filter :
    held.filter (fun c => c.loss.isNone) = (cs.filter fun c => c.loss.isNone).take r
      ∧ held.filter (fun c => !c.loss.isNone) = (cs.filter fun c => !c.loss.isNone).take l
      ∧ gone.filter (fun c => c.loss.isNone) = (cs.filter fun c => c.loss.isNone).drop r
      ∧ gone.filter (fun c => !c.loss.isNone) = (cs.filter fun c => !c.loss.isNone).drop l := by
  induction h with
  | nil => simp
  | readable hloss _ ih | readable_zero hloss _ ih | lost hloss _ ih | lost_zero hloss _ ih =>
    simpa [hloss] using ih

lemma Trims.sublist : held.Sublist cs := by
  induction h with
  | nil => exact .slnil
  | readable _ _ ih | lost _ _ ih => exact ih.cons_cons _
  | readable_zero _ _ ih | lost_zero _ _ ih => exact ih.cons _

lemma Trims.sizes :
    readableSizes held = (readableSizes cs).take r
      ∧ readableSizes gone = (readableSizes cs).drop r := by
  simp only [readableSizes, h.filter.1, h.filter.2.2.1, map_take, map_drop, and_self]

end

lemma readableSizes_none (h : c.loss = none) :
    readableSizes (c :: cs) = c.stat.size :: readableSizes cs := by
  simp [readableSizes, h]

lemma readableSizes_some (h : c.loss = some reason) :
    readableSizes (c :: cs) = readableSizes cs := by
  simp [readableSizes, h]

end

/-! ### The fold over a trimmed list -/

section

variable {c : Candidate Lang} {cs held gone : List (Candidate Lang)} {kept bytes rows r l : Nat}
  {reason : Reason}

lemma envelope_lost (h : c.loss = some reason) : envelope cfg kept bytes rows (c :: cs)
    = addLost rows c reason fun rows => envelope cfg kept bytes rows cs := by
  rw [envelope, h]

lemma envelope_cut (h : c.loss = none) (hkept : cfg.maxFiles ≤ kept) :
    envelope cfg kept bytes rows (c :: cs) = ([], (c :: cs).map Candidate.past) := by
  rw [envelope, h]
  exact if_pos hkept

lemma envelope_keep (h : c.loss = none) (hkept : ¬cfg.maxFiles ≤ kept)
    (hfit : bytes + c.stat.size ≤ cfg.maxTotalBytes) :
    envelope cfg kept bytes rows (c :: cs)
      = (c :: (envelope cfg (kept + 1) (bytes + c.stat.size) rows cs).1,
        (envelope cfg (kept + 1) (bytes + c.stat.size) rows cs).2) := by
  rw [envelope, h]
  exact (if_neg hkept).trans (if_pos hfit)

lemma envelope_skip (h : c.loss = none) (hkept : ¬cfg.maxFiles ≤ kept)
    (hfit : ¬bytes + c.stat.size ≤ cfg.maxTotalBytes) :
    envelope cfg kept bytes rows (c :: cs)
      = addLost rows c .envelopeBytes fun rows => envelope cfg kept bytes rows cs := by
  rw [envelope, h]
  exact (if_neg hkept).trans (if_neg hfit)

/-- The same rows, and `gone` is counted on top. -/
def Exceeds (a b : Rows Lang) (gone : List (Bytes × Reason)) : Prop :=
  a.1 = b.1 ∧ a.2.Perm (b.2 ++ gone)

lemma Exceeds.addLost {next next' : Nat → Rows Lang} {gone : List (Bytes × Reason)}
    (hroom : rows < maxLossRows → Exceeds (next (rows + 1)) (next' (rows + 1)) gone)
    (hfull : maxLossRows ≤ rows → Exceeds (next rows) (next' rows) gone) :
    Exceeds (addLost rows c reason next) (addLost rows c reason next') gone := by
  unfold Index.addLost
  split
  · next h => exact ⟨congrArg (List.cons _) (hroom h).1, (hroom h).2⟩
  · next h => exact ⟨(hfull (not_lt.1 h)).1, (hfull (not_lt.1 h)).2.cons _⟩

/-- Once the rows are full, a lost file is counted under its loss. -/
lemma addLost_full (hrows : maxLossRows ≤ rows) (next : Nat → Rows Lang) :
    addLost rows c reason next = ((next rows).1, (c.path, reason) :: (next rows).2) :=
  if_neg (not_lt.2 hrows)

lemma Candidate.past_lost (h : c.loss = some reason) : c.past = (c.path, reason) := by
  simp [Candidate.past, h]

/-- With no readable file left and the rows full, all files are counted. -/
lemma envelope_full (hnone : readableSizes cs = []) (hrows : maxLossRows ≤ rows) :
    envelope cfg kept bytes rows cs = ([], cs.map Candidate.past) := by
  induction cs with
  | nil => rfl
  | cons d cs ih =>
    cases hloss : d.loss with
    | none => simp [readableSizes_none hloss] at hnone
    | some reason =>
      rw [readableSizes_some hloss] at hnone
      rw [envelope_lost hloss, addLost_full hrows, ih hnone, map_cons, Candidate.past_lost hloss]

/-- What is left of the heaps' capacities, against what the envelope has left. -/
structure Room (cfg : IndexConfig) (kept rows r l : Nat) : Prop where
  kept_le : kept ≤ cfg.maxFiles
  lost : maxLossRows ≤ l + rows
  readable : cfg.maxFiles + maxLossRows ≤ r + kept + rows ∨ maxLossRows ≤ rows

lemma Suffices.pos {sizes : List Nat} (h : Suffices cfg kept bytes r (n :: sizes))
    (hkept : ¬cfg.maxFiles ≤ kept) : r ≠ 0 := by
  rintro rfl
  rcases h with h | h
  · exact absurd h (by simp)
  · exact hkept h.symm.le

lemma Suffices.keep {sizes : List Nat} (h : Suffices cfg kept bytes (r + 1) (n :: sizes))
    (hkept : ¬cfg.maxFiles ≤ kept) (hfit : bytes + n ≤ cfg.maxTotalBytes) :
    Suffices cfg (kept + 1) (bytes + n) r sizes := by
  refine h.imp (fun h => by simpa using h) fun h => ?_
  rwa [take_succ_cons, keptOf, if_neg hkept, if_pos hfit] at h

lemma Suffices.skip {sizes : List Nat} (h : Suffices cfg kept bytes (r + 1) (n :: sizes))
    (hkept : ¬cfg.maxFiles ≤ kept) (hfit : ¬bytes + n ≤ cfg.maxTotalBytes) :
    Suffices cfg kept bytes r sizes := by
  refine h.imp (fun h => by simpa using h) fun h => ?_
  rwa [take_succ_cons, keptOf, if_neg hkept, if_neg hfit] at h

/-- The fold over all files, where the heaps suffice: the fold over those they hold, with the others
counted as the heaps count them. -/
lemma Trims.exceeds (h : Trims r l cs held gone) (hroom : Room cfg kept rows r l)
    (hsuff : Suffices cfg kept bytes r (readableSizes cs)) :
    Exceeds (envelope cfg kept bytes rows cs) (envelope cfg kept bytes rows held)
      (gone.map Candidate.past) := by
  induction h generalizing kept bytes rows with
  | nil => exact ⟨rfl, .nil⟩
  | lost hloss _ ih =>
    rw [readableSizes_some hloss] at hsuff
    rw [envelope_lost hloss, envelope_lost hloss]
    refine .addLost (fun h => ih ⟨hroom.kept_le, ?_, ?_⟩ hsuff)
      fun h => ih ⟨hroom.kept_le, ?_, .inr h⟩ hsuff
    · have := hroom.lost
      omega
    · exact hroom.readable.imp (fun _ => by omega) fun _ => by omega
    · omega
  | lost_zero hloss _ ih =>
    rw [readableSizes_some hloss] at hsuff
    have hfull : maxLossRows ≤ rows := by simpa using hroom.lost
    rw [envelope_lost hloss, addLost_full hfull, map_cons, Candidate.past_lost hloss]
    obtain ⟨hrows, hrest⟩ := ih hroom hsuff
    exact ⟨hrows, (hrest.cons _).trans perm_middle.symm⟩
  | @readable r l c cs held gone hloss htrims ih =>
    rw [readableSizes_none hloss] at hsuff
    by_cases hkept : cfg.maxFiles ≤ kept
    · rw [envelope_cut hloss hkept, envelope_cut hloss hkept]
      refine ⟨rfl, ?_⟩
      rw [← map_append]
      exact ((htrims.perm.cons c).map _).symm
    by_cases hfit : bytes + c.stat.size ≤ cfg.maxTotalBytes
    · rw [envelope_keep hloss hkept hfit, envelope_keep hloss hkept hfit]
      have hroom' : Room cfg (kept + 1) rows r l :=
        ⟨by omega, hroom.lost, hroom.readable.imp_left fun h => by omega⟩
      obtain ⟨hrows, hrest⟩ := ih hroom' (hsuff.keep hkept hfit)
      exact ⟨congrArg (List.cons c) hrows, hrest⟩
    · rw [envelope_skip hloss hkept hfit, envelope_skip hloss hkept hfit]
      have hsuff' := hsuff.skip hkept hfit
      refine .addLost (fun h => ih ⟨hroom.kept_le, ?_, ?_⟩ hsuff')
        fun h => ih ⟨hroom.kept_le, hroom.lost, .inr h⟩ hsuff'
      · have := hroom.lost
        omega
      · exact hroom.readable.imp (fun _ => by omega) fun _ => by omega
  | readable_zero hloss htrims ih =>
    rw [readableSizes_none hloss] at hsuff
    by_cases hkept : cfg.maxFiles ≤ kept
    · -- the cut is at a file that the heap let go: nothing after it can get a row any more
      have hfull : maxLossRows ≤ rows := by
        have := hroom.kept_le
        have := hroom.readable
        omega
      rw [envelope_cut hloss hkept, envelope_full htrims.sizes.1 hfull]
      refine ⟨rfl, ?_⟩
      rw [← map_append]
      exact ((perm_middle.trans (htrims.perm.cons _)).map _).symm
    · exact absurd rfl (hsuff.pos hkept)

end

/-! ### Files past the cut -/

/-- How many of the readable files of these sizes are past the cut. -/
def pastCut (cfg : IndexConfig) : (kept bytes : Nat) → List Nat → Nat
  | _, _, [] => 0
  | kept, bytes, n :: ns =>
    if cfg.maxFiles ≤ kept then ns.length + 1
    else if bytes + n ≤ cfg.maxTotalBytes then pastCut cfg (kept + 1) (bytes + n) ns
    else pastCut cfg kept bytes ns

/-- How many files are counted as past the cut. -/
def countedPast (rest : List (Bytes × Reason)) : Nat :=
  rest.countP fun p => p.2 = .envelopeFiles

section

variable {c : Candidate Lang} {cs : List (Candidate Lang)} {kept bytes rows r l : Nat}
  {reason : Reason}

lemma countedPast_append (a b : List (Bytes × Reason)) :
    countedPast (a ++ b) = countedPast a + countedPast b :=
  countP_append

lemma countedPast_addLost (hreason : reason ≠ .envelopeFiles) {next : Nat → Rows Lang}
    (h : ∀ rows, countedPast (next rows).2 = n) :
    countedPast (addLost rows c reason next).2 = n := by
  unfold addLost
  split
  · exact h (rows + 1)
  · rw [countedPast, countP_cons_of_neg (by simpa using hreason)]
    exact h rows

/-- No file is taken to be past the cut from the start. -/
abbrev Open (cs : List (Candidate Lang)) : Prop := ∀ c ∈ cs, c.loss ≠ some .envelopeFiles

lemma countedPast_past (h : Open cs) :
    countedPast (cs.map Candidate.past) = (readableSizes cs).length := by
  induction cs with
  | nil => rfl
  | cons c cs ih =>
    obtain ⟨hc, hcs⟩ := forall_mem_cons.1 h
    rw [map_cons, countedPast]
    cases hloss : c.loss with
    | none =>
      rw [countP_cons_of_pos (by simp [Candidate.past, hloss]), readableSizes_none hloss]
      exact congrArg (· + 1) (ih hcs)
    | some reason =>
      have hne : reason ≠ .envelopeFiles := fun heq => hc (heq ▸ hloss)
      rw [countP_cons_of_neg (by simpa [Candidate.past, hloss] using hne),
        readableSizes_some hloss]
      exact ih hcs

lemma countedPast_envelope (h : Open cs) :
    countedPast (envelope cfg kept bytes rows cs).2 = pastCut cfg kept bytes
      (readableSizes cs) := by
  fun_induction envelope cfg kept bytes rows cs with
  | case1 => rfl
  | case2 kept bytes rows c cs reason hloss ih =>
    obtain ⟨hc, hcs⟩ := forall_mem_cons.1 h
    rw [readableSizes_some hloss]
    exact countedPast_addLost (fun heq => hc (heq ▸ hloss)) fun rows => ih rows hcs
  | case3 kept bytes rows c cs hloss hkept =>
    rw [countedPast_past h, readableSizes_none hloss, pastCut, if_pos hkept, length_cons]
  | case4 kept bytes rows c cs hloss hkept hfit r ih =>
    rw [readableSizes_none hloss, pastCut, if_neg hkept, if_pos hfit]
    exact ih (forall_mem_cons.1 h).2
  | case5 kept bytes rows c cs hloss hkept hfit ih =>
    rw [readableSizes_none hloss, pastCut, if_neg hkept, if_neg hfit]
    exact countedPast_addLost (by decide) fun rows => ih rows (forall_mem_cons.1 h).2

/-- Files larger than the limit of bytes are not kept. -/
lemma keptOf_oversized {sizes : List Nat} (h : ∀ n ∈ sizes, cfg.maxTotalBytes < n) :
    keptOf cfg kept bytes sizes = kept := by
  induction sizes with
  | nil => rfl
  | cons n sizes ih =>
    obtain ⟨hn, hsizes⟩ := forall_mem_cons.1 h
    rw [keptOf, if_neg (by omega : ¬bytes + n ≤ cfg.maxTotalBytes), ih hsizes, ite_self]

lemma pastCut_le (kept bytes : Nat) (sizes : List Nat) :
    pastCut cfg kept bytes sizes ≤ sizes.length := by
  induction sizes generalizing kept bytes with
  | nil => exact le_rfl
  | cons n sizes ih =>
    rw [pastCut]
    split_ifs
    · exact le_rfl
    · exact (ih _ _).trans (Nat.le_succ _)
    · exact (ih _ _).trans (Nat.le_succ _)

/-- Where the first `r` files do not reach the limit, they and the next one are before the cut. -/
lemma pastCut_le_of_keptOf {sizes : List Nat} (hle : kept ≤ cfg.maxFiles)
    (hkept : keptOf cfg kept bytes (sizes.take r) ≠ cfg.maxFiles) :
    pastCut cfg kept bytes sizes ≤ sizes.length - (r + 1) := by
  induction sizes generalizing kept bytes r with
  | nil => exact Nat.zero_le _
  | cons n sizes ih =>
    cases r with
    | zero =>
      have hcut : ¬cfg.maxFiles ≤ kept := fun hcut => hkept (le_antisymm hle hcut)
      rw [pastCut]
      split_ifs
      · exact pastCut_le _ _ sizes
      · exact pastCut_le _ _ sizes
    | succ r =>
      rw [take_succ_cons, keptOf] at hkept
      have hcut : ¬cfg.maxFiles ≤ kept := fun hcut =>
        hkept ((if_pos hcut).trans (le_antisymm hle hcut))
      rw [if_neg hcut] at hkept
      rw [pastCut, if_neg hcut, length_cons, Nat.add_sub_add_right]
      split
      · next hfit =>
        rw [if_pos hfit] at hkept
        exact ih (by omega) hkept
      · next hfit =>
        rw [if_neg hfit] at hkept
        exact ih hle hkept

/-- Trimming makes no difference exactly if the heaps suffice: otherwise the first readable file
that is left out is before the cut, and yet counted as past it. -/
lemma suffices_of_countedPast (h : Open cs) (hle : kept ≤ cfg.maxFiles)
    (hcount : countedPast (envelope cfg kept bytes rows cs).2
      = countedPast ((envelope cfg kept bytes rows (trim r l cs)).2
        ++ (trimmed r l cs).map Candidate.past)) :
    Suffices cfg kept bytes r (readableSizes cs) := by
  by_contra hnot
  obtain ⟨hlong, hkept⟩ := not_or.1 hnot
  have htrims := trims r l cs
  have hmem (d : Candidate Lang) (hd : d ∈ trim r l cs ++ trimmed r l cs) :
      d.loss ≠ some .envelopeFiles := h d (htrims.perm.subset hd)
  obtain ⟨htrim, htrimmed⟩ := forall_mem_append.1 hmem
  rw [countedPast_append, countedPast_envelope h, countedPast_past htrimmed, htrims.sizes.2,
    length_drop] at hcount
  have hall := pastCut_le_of_keptOf hle hkept
  omega

end

/-- The paths that are counted keep their order. -/
lemma envelope_paths (cfg : IndexConfig) (kept bytes rows : Nat) (cs : List (Candidate Lang)) :
    ((envelope cfg kept bytes rows cs).2.map Prod.fst).Sublist (cs.map Candidate.path) := by
  have hlost (c : Candidate Lang) (reason : Reason) (rows : Nat) {next : Nat → Rows Lang}
      {paths : List Bytes} (h : ∀ rows, ((next rows).2.map Prod.fst).Sublist paths) :
      ((addLost rows c reason next).2.map Prod.fst).Sublist (c.path :: paths) := by
    unfold addLost
    split
    · exact (h (rows + 1)).cons c.path
    · exact (h rows).cons_cons c.path
  fun_induction envelope cfg kept bytes rows cs with
  | case1 => exact .slnil
  | case2 kept bytes rows c cs reason _ ih => exact hlost c reason rows ih
  | case3 kept bytes rows c cs =>
    rw [map_map]
    exact .refl _
  | case4 kept bytes rows c cs _ _ _ r ih => exact ih.cons c.path
  | case5 kept bytes rows c cs _ _ _ ih => exact hlost c .envelopeBytes rows ih

end Index
