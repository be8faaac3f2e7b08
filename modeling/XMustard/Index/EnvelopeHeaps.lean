import XMustard.Index.Envelope
import XMustard.Lists.Lexicographic

/-!
# The heaps of a collection

What the heaps hold while files are collected in any order, and exactly when the finished collection
is the one of the fold over all files.
-/

namespace Index

open List Lists Text

variable {Lang : Type} {cfg : IndexConfig} {col : Collector Lang} {log ps : List (Bytes × Reason)}

/-! ### Counting -/

/-- The counts and the sample of a collector are those of `log`. -/
structure Tally (col : Collector Lang) (log : List (Bytes × Reason)) : Prop where
  beyond : ∀ reason, col.beyond reason = log.countP fun p => p.2 = reason
  sample : ∃ gone, Smallest Prod.fst maxLossEntries col.sample gone log

/-- The same heaps, counts and sample. -/
def Collector.Alike (col col' : Collector Lang) : Prop :=
  col.readable = col'.readable ∧ col.lost = col'.lost ∧ col.beyond = col'.beyond
    ∧ col.sample = col'.sample

lemma Collector.noteException_alike (col : Collector Lang) (path : Bytes) (state : Exception) :
    (col.noteException path state).Alike col := by
  unfold noteException
  split
  · exact ⟨rfl, rfl, rfl, rfl⟩
  · exact ⟨rfl, rfl, rfl, rfl⟩

/-- The sample takes one more. -/
lemma smallest_sampled {sample gone : List (Bytes × Reason)}
    (h : Smallest Prod.fst maxLossEntries sample gone log) (path : Bytes) (reason : Reason) :
    ∃ gone', Smallest Prod.fst maxLossEntries (Collector.sampled sample path reason) gone'
      (log ++ [(path, reason)]) := by
  have hpush := h.push (path, reason)
  have hle := h.length_le
  rw [heapPush_fst hle] at hpush
  unfold Collector.sampled
  split
  · next hlt =>
    rw [take_of_length_le (by rw [length_heapInsert]; omega)] at hpush
    exact ⟨_, hpush⟩
  · next hge =>
    have hlength : sample.length = maxLossEntries := by omega
    rcases eq_nil_or_concat sample with rfl | ⟨init, top, rfl⟩
    · exact absurd hlength (by decide)
    rw [concat_eq_append] at *
    rw [getLast?_concat, dropLast_concat]
    dsimp only
    split
    · next hlt =>
      have hinit : (heapInsert Prod.fst (path, reason) init).length = maxLossEntries := by
        simpa using hlength
      rw [heapInsert_concat init hlt.le, take_left' hinit] at hpush
      exact ⟨_, hpush⟩
    · next hnot =>
      refine ⟨_, h.keep hlength fun a ha => ?_⟩
      rcases mem_append.1 ha with ha | ha
      · exact ((pairwise_append.1 h.sorted).2.2 a ha top (by simp)).trans (not_lt.1 hnot)
      · exact mem_singleton.1 ha ▸ not_lt.1 hnot

lemma Collector.pushBeyond_spec (col : Collector Lang) (path : Bytes) (reason : Reason) :
    (col.pushBeyond path reason).readable = col.readable
      ∧ (col.pushBeyond path reason).lost = col.lost
      ∧ (col.pushBeyond path reason).beyond
        = (fun r => if r = reason then col.beyond r + 1 else col.beyond r)
      ∧ (col.pushBeyond path reason).sample = sampled col.sample path reason := by
  unfold pushBeyond
  split
  · exact ⟨rfl, rfl, rfl, rfl⟩
  · exact noteException_alike _ path (.lost reason)

lemma Tally.nil : Tally ({} : Collector Lang) [] :=
  ⟨fun _ => rfl, [], .nil _ _⟩

lemma Tally.perm {log' : List (Bytes × Reason)} (h : Tally col log) (hperm : log.Perm log') :
    Tally col log' :=
  ⟨fun reason => (h.beyond reason).trans (hperm.countP_eq _), h.sample.imp fun _ hs =>
    hs.perm hperm⟩

/-- One more file is counted. -/
lemma Tally.pushBeyond (h : Tally col log) (path : Bytes) (reason : Reason) :
    Tally (col.pushBeyond path reason) (log ++ [(path, reason)]) := by
  obtain ⟨-, -, hbeyond, hsample⟩ := col.pushBeyond_spec path reason
  obtain ⟨gone, hgone⟩ := h.sample
  constructor
  · intro r
    rw [hbeyond, countP_append, ← h.beyond r]
    by_cases heq : r = reason
    · simp [heq]
    · simp [heq, Ne.symm heq]
  · rw [hsample]
    exact smallest_sampled hgone path reason

/-- Count several files. -/
def Collector.pushAll (col : Collector Lang) (ps : List (Bytes × Reason)) : Collector Lang :=
  ps.foldl (fun col p => col.pushBeyond p.1 p.2) col

lemma Tally.pushAll (h : Tally col log) (ps : List (Bytes × Reason)) :
    Tally (col.pushAll ps) (log ++ ps) := by
  induction ps generalizing col log with
  | nil => simpa [Collector.pushAll] using h
  | cons p ps ih =>
    rw [append_cons]
    exact ih (h.pushBeyond p.1 p.2)

/-! ### Collecting -/

/-- What a collector has after it took the candidates `cs`. -/
def Collects (cfg : IndexConfig) (col : Collector Lang) (cs : List (Candidate Lang)) : Prop :=
  ∃ goneReadable goneLost,
    Smallest Candidate.path (cfg.maxFiles + maxLossRows) col.readable goneReadable
      (cs.filter fun c => c.loss.isNone)
    ∧ Smallest Candidate.path maxLossRows col.lost goneLost (cs.filter fun c => !c.loss.isNone)
    ∧ Tally col ((goneReadable ++ goneLost).map Candidate.past)

variable {cs : List (Candidate Lang)} {c : Candidate Lang}

lemma Collects.alike {col' : Collector Lang} (h : Collects cfg col cs) (halike : col'.Alike col) :
    Collects cfg col' cs := by
  obtain ⟨goneReadable, goneLost, hreadable, hlost, htally⟩ := h
  obtain ⟨hr, hl, hb, hs⟩ := halike
  exact ⟨goneReadable, goneLost, hr.symm ▸ hreadable, hl.symm ▸ hlost,
    hb.symm ▸ htally.beyond, hs.symm ▸ htally.sample⟩

/-- What a heap let go is counted. -/
lemma Tally.pushGone (h : Tally col log) (out : Option (Candidate Lang)) :
    Tally (col.pushGone out) (log ++ out.toList.map Candidate.past)
      ∧ (col.pushGone out).readable = col.readable ∧ (col.pushGone out).lost = col.lost := by
  cases out with
  | none => exact ⟨by simpa [Collector.pushGone] using h, rfl, rfl⟩
  | some c =>
    obtain ⟨hreadable, hlost, -⟩ := col.pushBeyond_spec c.path (c.loss.getD .envelopeFiles)
    exact ⟨h.pushBeyond _ _, hreadable, hlost⟩

/-- The collector takes one more candidate. -/
lemma Collects.push (h : Collects cfg col cs) (c : Candidate Lang) :
    Collects cfg (col.push cfg c) (cs ++ [c]) := by
  obtain ⟨goneReadable, goneLost, hreadable, hlost, htally⟩ := h
  unfold Collector.push
  cases hloss : c.loss with
  | none =>
    have hpush := hreadable.push c
    set r := heapPush Candidate.path (cfg.maxFiles + maxLossRows) c col.readable
    have hheld : Tally { col with readable := r.1 } _ := ⟨htally.beyond, htally.sample⟩
    obtain ⟨htally', hr, hl⟩ := hheld.pushGone r.2
    refine ⟨_, goneLost, by rw [hr, filter_append]; simpa [hloss] using hpush,
      by rw [hl]; simpa [hloss] using hlost, htally'.perm ?_⟩
    rw [← map_append, append_assoc, append_assoc]
    exact (perm_append_comm.append_left goneReadable).map _
  | some reason =>
    have hpush := hlost.push c
    set r := heapPush Candidate.path maxLossRows c col.lost
    have hheld : Tally { col with lost := r.1 } _ := ⟨htally.beyond, htally.sample⟩
    obtain ⟨htally', hr, hl⟩ := hheld.pushGone r.2
    refine ⟨goneReadable, _, by rw [hr]; simpa [hloss] using hreadable,
      by rw [hl, filter_append]; simpa [hloss] using hpush, ?_⟩
    rwa [← append_assoc, map_append]

/-- The files of a listing, in the order of the listing. -/
lemma Collects.foldl (h : Collects cfg col cs) (files : List (Listed Lang)) :
    Collects cfg (files.foldl (Collector.add cfg) col)
      (cs ++ files.filterMap (Listed.candidate cfg)) := by
  induction files generalizing col cs with
  | nil => simpa using h
  | cons f files ih =>
    rw [foldl_cons, Collector.add]
    cases hstat : statFile f.lstat f.mode cfg.maxFileSize with
    | none =>
      rw [filterMap_cons_none (by rw [Listed.candidate, hstat, Option.map_none])]
      exact ih (h.alike (Collector.noteException_alike _ _ _))
    | some s =>
      rw [filterMap_cons_some (by rw [Listed.candidate, hstat, Option.map_some]), append_cons]
      exact ih (h.push _)

/-! ### Finishing -/

lemma settle_cut {st : Fold} (hcut : st.cut = true) (cs : List (Candidate Lang)) :
    settle cfg st cs col = ([], col.pushAll (cs.map Candidate.past)) := by
  induction cs generalizing col with
  | nil => rfl
  | cons c cs ih =>
    rw [settle, if_pos hcut, ih]
    rfl

/-- The envelope as it is applied to the candidates of the heaps. -/
lemma settle_eq {st : Fold} (hcut : st.cut = false) (cs : List (Candidate Lang)) :
    settle cfg st cs col
      = ((envelope cfg st.kept st.bytes st.lossRows cs).1,
        col.pushAll (envelope cfg st.kept st.bytes st.lossRows cs).2) := by
  induction cs generalizing col st with
  | nil => rfl
  | cons c cs ih =>
    rw [settle, if_neg (by simp [hcut])]
    cases hloss : c.loss with
    | none =>
      by_cases hkept : cfg.maxFiles ≤ st.kept
      · rw [if_pos ⟨rfl, hkept⟩, settle_cut rfl, envelope_cut hloss hkept]
        simp [Collector.pushAll, Candidate.past, hloss]
      rw [if_neg (fun h => hkept h.2)]
      by_cases hfit : st.bytes + c.stat.size ≤ cfg.maxTotalBytes
      · rw [if_pos ⟨rfl, hfit⟩, envelope_keep hloss hkept hfit, ih]
        exact hcut
      · rw [if_neg (fun h => hfit h.2), envelope_skip hloss hkept hfit, addLost]
        split
        · rw [ih]
          · rfl
          · exact hcut
        · rw [ih hcut]
          rfl
    | some reason =>
      rw [if_neg (by simp), if_neg (by simp), envelope_lost hloss, addLost]
      split
      · rw [ih]
        · rfl
        · exact hcut
      · rw [ih hcut]
        rfl

lemma dedupAfter_eq (h : Ascending Candidate.path (c :: cs)) : dedupAfter c cs = c :: cs := by
  induction cs generalizing c with
  | nil => rfl
  | cons d ds ih =>
    obtain ⟨hc, hds⟩ := pairwise_cons.1 h
    rw [dedupAfter, if_neg (hc d (mem_cons_self ..)).ne', ih hds]

lemma dedupPaths_eq (h : Ascending Candidate.path cs) : dedupPaths cs = cs := by
  cases cs with
  | nil => rfl
  | cons c cs => exact dedupAfter_eq h

section

variable {files : List (Listed Lang)}

lemma Listed.candidate_eq_some {f : Listed Lang} (h : f.candidate cfg = some c) :
    c.path = f.path ∧ c.loss ≠ some .envelopeFiles := by
  obtain ⟨s, -, rfl⟩ := Option.map_eq_some_iff.1 h
  exact ⟨rfl, by cases s.2 <;> simp⟩

lemma nodup_candidates (hnodup : (files.map Listed.path).Nodup) :
    ((files.filterMap (Listed.candidate cfg)).map Candidate.path).Nodup := by
  refine List.Sublist.nodup ?_ hnodup
  clear hnodup
  induction files with
  | nil => exact .slnil
  | cons f files ih =>
    cases hf : f.candidate cfg with
    | none =>
      rw [filterMap_cons_none hf]
      exact ih.cons f.path
    | some c =>
      rw [filterMap_cons_some hf, map_cons, (Listed.candidate_eq_some hf).1]
      exact ih.cons_cons f.path

lemma inPathOrder_perm (cfg : IndexConfig) (files : List (Listed Lang)) :
    (inPathOrder cfg files).Perm (files.filterMap (Listed.candidate cfg)) :=
  perm_insertionSort _ _

lemma ascending_inPathOrder (cfg : IndexConfig) (hnodup : (files.map Listed.path).Nodup) :
    Ascending Candidate.path (inPathOrder cfg files) :=
  ascending_insertionSort (nodup_candidates hnodup)

lemma open_inPathOrder (cfg : IndexConfig) (files : List (Listed Lang)) :
    Open (inPathOrder cfg files) := by
  intro c hc
  obtain ⟨f, -, hf⟩ := mem_filterMap.1 ((inPathOrder_perm cfg files).subset hc)
  exact (Listed.candidate_eq_some hf).2

/-- The files in the heaps at the end. -/
def held (cfg : IndexConfig) (files : List (Listed Lang)) : List (Candidate Lang) :=
  trim (cfg.maxFiles + maxLossRows) maxLossRows (inPathOrder cfg files)

/-- The files that the heaps let go. -/
def letGo (cfg : IndexConfig) (files : List (Listed Lang)) : List (Candidate Lang) :=
  trimmed (cfg.maxFiles + maxLossRows) maxLossRows (inPathOrder cfg files)

/-- Whatever the order of the listing, a collection holds the files of each kind with the smallest
paths, and has counted the others. -/
lemma collected_spec (cfg : IndexConfig) (hnodup : (files.map Listed.path).Nodup) :
    let col := files.foldl (Collector.add cfg) {}
    (col.readable ++ col.lost).insertionSort (fun c d => c.path ≤ d.path) = held cfg files
      ∧ Tally col ((letGo cfg files).map Candidate.past) := by
  intro col
  have hcollects : Collects cfg col (files.filterMap (Listed.candidate cfg)) :=
    (show Collects cfg {} [] from ⟨[], [], .nil _ _, .nil _ _, .nil⟩).foldl files
  obtain ⟨goneReadable, goneLost, hreadable, hlost, htally⟩ := hcollects
  have hasc := ascending_inPathOrder cfg hnodup
  have hperm := inPathOrder_perm cfg files
  obtain ⟨hr, hgr⟩ := hreadable.take_drop (hperm.filter _) (hasc.filter _)
  obtain ⟨hl, hgl⟩ := hlost.take_drop (hperm.filter _) (hasc.filter _)
  obtain ⟨h₁, h₂, h₃, h₄⟩ :=
    (trims (cfg.maxFiles + maxLossRows) maxLossRows (inPathOrder cfg files)).filter
  rw [← h₁] at hr
  rw [← h₂] at hl
  rw [← h₃] at hgr
  rw [← h₄] at hgl
  constructor
  · have hheld : Ascending Candidate.path (held cfg files) := hasc.sublist (trims _ _ _).sublist
    have hheaps : (col.readable ++ col.lost).Perm (held cfg files) := by
      rw [hr, hl]
      exact filter_append_perm _ _
    have hsorted := ascending_insertionSort ((hheaps.map Candidate.path).nodup_iff.2 hheld.nodup)
    exact hsorted.eq_of_perm ((perm_insertionSort _ _).trans hheaps) hheld
  · exact htally.perm (((hgr.append hgl).trans (filter_append_perm _ _)).map _)

/-- What is counted in the end: what the heaps let go, and what the envelope leaves of the rest. -/
def leftOver (cfg : IndexConfig) (files : List (Listed Lang)) : List (Bytes × Reason) :=
  (envelope cfg 0 0 0 (held cfg files)).2 ++ (letGo cfg files).map Candidate.past

/-- The outcome of a collection, by what the heaps hold and what is counted. -/
lemma collect_outcome (cfg : IndexConfig) (hnodup : (files.map Listed.path).Nodup) :
    (collect cfg files).outcome.candidates = (envelope cfg 0 0 0 (held cfg files)).1
      ∧ (∀ reason, (collect cfg files).outcome.beyond reason
        = (leftOver cfg files).countP fun p => p.2 = reason)
      ∧ ∃ gone, Smallest Prod.fst maxLossEntries (collect cfg files).outcome.sample gone
        (leftOver cfg files) := by
  obtain ⟨hheld, htally⟩ := collected_spec cfg hnodup
  have hfinish : (collect cfg files).outcome
      = ⟨(envelope cfg 0 0 0 (held cfg files)).1,
        ((files.foldl (Collector.add cfg) {}).pushAll
          (envelope cfg 0 0 0 (held cfg files)).2).beyond,
        ((files.foldl (Collector.add cfg) {}).pushAll
          (envelope cfg 0 0 0 (held cfg files)).2).sample⟩ := by
    have hasc : Ascending Candidate.path (held cfg files) :=
      (ascending_inPathOrder cfg hnodup).sublist (trims _ _ _).sublist
    rw [collect, Collector.finish, Collected.outcome]
    rw [hheld, dedupPaths_eq hasc, settle_eq rfl]
  have hall := (htally.pushAll (envelope cfg 0 0 0 (held cfg files)).2).perm perm_append_comm
  rw [hfinish]
  exact ⟨rfl, hall.beyond, hall.sample⟩

lemma HeapSuffices.of_outcome_eq (hnodup : (files.map Listed.path).Nodup)
    (heq : (collect cfg files).outcome = unbounded cfg files) : HeapSuffices cfg files := by
  obtain ⟨-, hbeyond, -⟩ := collect_outcome cfg hnodup
  have hcount := hbeyond .envelopeFiles
  rw [heq] at hcount
  exact suffices_of_countedPast (open_inPathOrder cfg files) (Nat.zero_le _) hcount

lemma HeapSuffices.outcome_eq (hsuff : HeapSuffices cfg files)
    (hnodup : (files.map Listed.path).Nodup) :
    (collect cfg files).outcome = unbounded cfg files := by
  obtain ⟨hrows, hbeyond, gone, hsample⟩ := collect_outcome cfg hnodup
  have hroom : Room cfg 0 0 (cfg.maxFiles + maxLossRows) maxLossRows :=
    ⟨Nat.zero_le _, le_rfl, .inl le_rfl⟩
  obtain ⟨hsame, hperm⟩ := (trims _ _ _).exceeds hroom hsuff
  have hasc : Ascending Prod.fst (envelope cfg 0 0 0 (inPathOrder cfg files)).2 := by
    have hpaths : ((inPathOrder cfg files).map Candidate.path).Pairwise (· < ·) :=
      pairwise_map.2 (ascending_inPathOrder cfg hnodup)
    exact pairwise_map.1 (hpaths.sublist (envelope_paths cfg 0 0 0 _))
  ext1
  · rw [hrows]
    exact hsame.symm
  · funext reason
    rw [hbeyond]
    exact (hperm.countP_eq _).symm
  · exact (hsample.take_drop hperm hasc).1

/-- The heaps make no difference exactly if the one of readable files holds all of them, or enough
to reach the limit of files. -/
theorem collect_eq_unbounded_iff (cfg : IndexConfig) (files : List (Listed Lang))
    (hnodup : (files.map Listed.path).Nodup) :
    (collect cfg files).outcome = unbounded cfg files ↔ HeapSuffices cfg files :=
  ⟨.of_outcome_eq hnodup, fun hsuff => hsuff.outcome_eq hnodup⟩

end

/-- A readable file of a given size. -/
def Listed.plain (path : Bytes) (size : Nat) : Listed Unit :=
  ⟨path, (), .regular, .found false true ⟨size, 0, 0, 0, 0⟩⟩

/-- A name of two letters, in the order of the numbers. -/
def nameOf (i : Nat) : Bytes := [UInt8.ofNat (65 + i / 45), UInt8.ofNat (65 + i % 45)]

/-- More files than the heap holds, all larger than one byte but for the last. -/
def crowd : List (Listed Unit) :=
  (range 2002).map fun i => .plain (nameOf i) (if i < 2001 then 2 else 1)

lemma nameOf_lt {i j : Nat} (h : i < j) (hj : j < 2002) : nameOf i < nameOf j := by
  have hbyte {a b : Nat} (hab : a < b) (hb : b < 256) : UInt8.ofNat a < UInt8.ofNat b := by
    rw [UInt8.lt_iff_toNat_lt, UInt8.toNat_ofNat_of_lt' hb, UInt8.toNat_ofNat_of_lt' (hab.trans hb)]
    exact hab
  rcases (Nat.div_le_div_right h.le : i / 45 ≤ j / 45).lt_or_eq with hlt | heq
  · exact cons_lt_cons_iff.2 (.inl (hbyte (by omega) (by omega)))
  · rw [nameOf, nameOf, heq]
    exact cons_lt_cons_iff.2 (.inr ⟨rfl, cons_lt_cons_iff.2 (.inl (hbyte (by omega) (by omega)))⟩)

lemma pairwise_range {R : Nat → Nat → Prop} (h : ∀ i j, nameOf i < nameOf j → R i j) :
    (range 2002).Pairwise R :=
  pairwise_lt_range.imp_of_mem fun _ hj hlt => h _ _ (nameOf_lt hlt (mem_range.1 hj))

lemma nodup_crowd : (crowd.map Listed.path).Nodup := by
  rw [crowd, map_map, Nodup, pairwise_map]
  exact pairwise_range fun i j => ne_of_lt

/-- The sizes are as they are listed. -/
lemma readableSizes_crowd (bytes : Nat) : readableSizes (inPathOrder ⟨1, bytes, 10⟩ crowd)
    = (range 2002).map fun i => if i < 2001 then 2 else 1 := by
  have hcandidates : crowd.filterMap (Listed.candidate ⟨1, bytes, 10⟩)
      = (range 2002).map fun i =>
        ⟨nameOf i, (), ⟨if i < 2001 then 2 else 1, 0, 0, 0, 0⟩, none⟩ := by
    rw [crowd, filterMap_map, ← filterMap_eq_map]
    refine filterMap_congr fun i _ => ?_
    have hsize : ¬(if i < 2001 then 2 else 1) > 10 := by split <;> decide
    simp [Listed.candidate, Listed.plain, statFile, hsize]
  have hsorted : (crowd.filterMap (Listed.candidate ⟨1, bytes, 10⟩)).Pairwise
      fun c d => c.path ≤ d.path := by
    rw [hcandidates, pairwise_map]
    exact pairwise_range fun i j => le_of_lt
  rw [inPathOrder, hsorted.insertionSort_eq, hcandidates, readableSizes, filter_map]
  simp [Function.comp_def]

/-- With room for two bytes the first file is indexed, so the last one, which the heap does not
hold, makes no difference. -/
theorem collect_eq_unbounded_iff_crowd : 1 + maxLossRows < crowd.length
      ∧ (collect ⟨1, 2, 10⟩ crowd).outcome = unbounded ⟨1, 2, 10⟩ crowd := by
  refine ⟨by rw [crowd, length_map, length_range]; decide, ?_⟩
  refine (collect_eq_unbounded_iff ⟨1, 2, 10⟩ crowd nodup_crowd).2 (.inr ?_)
  rw [readableSizes_crowd, ← map_take, take_range]
  decide +kernel

/-- With room for one file and one byte the last file is not indexed, though it is the only one that
fits. -/
theorem collect_crowd_ne : (crowd.map Listed.path).Nodup
      ∧ (collect ⟨1, 1, 10⟩ crowd).outcome ≠ unbounded ⟨1, 1, 10⟩ crowd := by
  refine ⟨nodup_crowd, fun heq => ?_⟩
  have hsuff := HeapSuffices.of_outcome_eq nodup_crowd heq
  rw [HeapSuffices, readableSizes_crowd] at hsuff
  rcases hsuff with hlength | hkept
  · rw [length_map, length_range] at hlength
    exact absurd hlength (by decide)
  · rw [← map_take, take_range, keptOf_oversized] at hkept
    · exact absurd hkept (by decide)
    · intro n hn
      obtain ⟨i, hi, rfl⟩ := mem_map.1 hn
      rw [mem_range] at hi
      rw [if_pos (lt_of_lt_of_le hi (by decide))]
      decide

end Index
