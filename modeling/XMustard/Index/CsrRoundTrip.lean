import XMustard.Index.CsrRead
import XMustard.Program.Fallible

/-! # What is written is read back

A grouped posting is read back group by group, and the two directions of the edges are each
other's transpose. Offsets are 32 bits wide and wrap around, so a posting must have fewer records
than that. -/

namespace Index

open List

namespace Csr

open Lists Program

variable {T : Type} {w w' : SegWriter} {adj : Adj} {groups : Nat} {items : List (Nat × T)}
  {counts : List UInt32}

/-! ## Writing a section -/

section writing

variable [Row T]

/-- The bytes of a section. -/
def bytesOf (rs : List T) : List UInt8 := rs.flatMap Row.encode

lemma streamLoop_spec (rs : List T) (buf : List UInt8) (w : SegWriter)
    (hw : w.pos = w.out.length) :
    (SegWriter.streamLoop rs buf w).2.out ++ (SegWriter.streamLoop rs buf w).1
        = w.out ++ buf ++ bytesOf rs ∧
      (SegWriter.streamLoop rs buf w).2.pos = (SegWriter.streamLoop rs buf w).2.out.length ∧
      (SegWriter.streamLoop rs buf w).2.ranges = w.ranges := by
  induction rs generalizing buf w with
  | nil => simp [SegWriter.streamLoop, bytesOf, hw]
  | cons r rs ih =>
    rw [SegWriter.streamLoop]
    split
    · have hput : (w.put (buf ++ Row.encode r)).pos = (w.put (buf ++ Row.encode r)).out.length := by
        simp [SegWriter.put, hw]
      obtain ⟨hout, hpos, hranges⟩ := ih [] (w.put (buf ++ Row.encode r)) hput
      refine ⟨?_, hpos, hranges⟩
      rw [hout]
      simp [SegWriter.put, bytesOf, append_assoc]
    · obtain ⟨hout, hpos, hranges⟩ := ih (buf ++ Row.encode r) w hw
      refine ⟨?_, hpos, hranges⟩
      rw [hout]
      simp [bytesOf, append_assoc]

/-- A section is its records' bytes, whatever the buffer did. -/
lemma stream_spec (sec : Sec) (rs : List T) (hw : w.pos = w.out.length) :
    (w.stream sec rs).2.out = w.out ++ bytesOf rs ∧
      (w.stream sec rs).2.pos = (w.stream sec rs).2.out.length ∧
      (w.stream sec rs).2.ranges
        = Function.update w.ranges sec (w.out.length, (bytesOf rs).length) := by
  obtain ⟨hout, hpos, hranges⟩ := streamLoop_spec rs [] w hw
  rw [append_nil] at hout
  have hlen := congrArg List.length hout
  simp only [length_append] at hlen
  simp only [SegWriter.stream, SegWriter.put, hout, hpos, hranges, hw, length_append]
  refine ⟨trivial, hlen, ?_⟩
  congr 2
  omega

end writing

/-! ## Counting -/

/-- How many records are in groups before `k`. -/
def below (items : List (Nat × T)) (k : Nat) : Nat := (items.filter (·.1 < k)).length

def groupOf (items : List (Nat × T)) (i : Nat) : List T := (items.filter (·.1 = i)).map (·.2)

lemma tally_spec {last : Nat} {counts' : List UInt32}
    (h : SegWriter.tally groups items last counts = .ok counts') :
    items.Pairwise (·.1 ≤ ·.1) ∧ (∀ x ∈ items, last ≤ x.1 ∧ x.1 < groups) ∧
      counts'.length = counts.length ∧ ∀ k,
        counts'[k]? = counts[k]?.map (· + UInt32.ofNat (items.filter (·.1 + 1 = k)).length) := by
  induction items generalizing last counts with
  | nil =>
    cases h
    simp
  | cons x items ih =>
    obtain ⟨group, r⟩ := x
    rw [SegWriter.tally] at h
    split at h
    · cases h
    obtain ⟨hsorted, hbounds, hlen, hcounts⟩ := ih h
    refine ⟨pairwise_cons.2 ⟨fun y hy => (hbounds y hy).1, hsorted⟩, ?_,
      hlen.trans (length_modify ..), fun k => ?_⟩
    · intro y hy
      rcases mem_cons.1 hy with rfl | hy
      · dsimp only
        omega
      · have := hbounds y hy
        omega
    · rw [hcounts, List.getElem?_modify]
      by_cases hk : group + 1 = k
      · simp only [hk, if_true, filter_cons, decide_true, length_cons, Option.map_eq_map,
          Option.map_map]
        congr 1
        funext c
        simp only [Function.comp_apply, UInt32.ofNat_add, UInt32.add_assoc]
        congr 1
        exact UInt32.add_comm ..
      · simp [hk]

lemma cumulate_spec {b : Nat → Nat} {cs : List UInt32} {acc : UInt32}
    (hacc : acc = UInt32.ofNat (b 0))
    (hcs : ∀ k c, cs[k]? = some c → UInt32.ofNat (b (k + 1)) = UInt32.ofNat (b k) + c) {k : Nat}
    (hk : k < cs.length) :
    (SegWriter.cumulate acc cs)[k]? = some (UInt32.ofNat (b (k + 1))) := by
  induction cs generalizing acc b k with
  | nil => cases hk
  | cons c cs ih =>
    have hfirst : acc + c = UInt32.ofNat (b 1) := by
      rw [hacc]
      exact (hcs 0 c rfl).symm
    cases k with
    | zero => simp [SegWriter.cumulate, hfirst]
    | succ k =>
      have hih := @ih (fun k => b (k + 1)) (acc + c) hfirst
        (fun k c hc => hcs (k + 1) c (by simpa using hc)) k (by simpa using hk)
      simpa [SegWriter.cumulate] using hih

lemma length_cumulate (acc : UInt32) (cs : List UInt32) :
    (SegWriter.cumulate acc cs).length = cs.length := by
  induction cs generalizing acc with
  | nil => rfl
  | cons c cs ih => simp [SegWriter.cumulate, ih]

/-- The offsets a grouped posting is written with. -/
lemma offsets_spec
    (h : SegWriter.tally groups items 0 (List.replicate (groups + 1) 0) = .ok counts) :
    (SegWriter.cumulate 0 counts).length = groups + 1 ∧
      ∀ k ≤ groups, (SegWriter.cumulate 0 counts)[k]? = some (UInt32.ofNat (below items k)) := by
  obtain ⟨-, -, hlen, hcounts⟩ := tally_spec h
  rw [length_replicate] at hlen
  refine ⟨by rw [length_cumulate, hlen], fun k hk => ?_⟩
  -- before the first group there is nothing, and each group adds its records
  have hspec := @cumulate_spec (fun k => below items (k - 1)) counts 0 (by simp [below])
    (fun k c hc => ?_) k (by omega)
  · simpa using hspec
  · rw [hcounts] at hc
    obtain ⟨c₀, hc₀, rfl⟩ := Option.map_eq_some_iff.1 hc
    obtain rfl : 0 = c₀ := by
      rw [List.getElem?_replicate] at hc₀
      split at hc₀
      · exact Option.some.inj hc₀
      · cases hc₀
    cases k with
    | zero => simp [below]
    | succ k =>
      have hstep := length_filter_lt_succ (fun x : Nat × T => x.1) items k
      simp only [Nat.add_sub_cancel, UInt32.zero_add, ← UInt32.ofNat_add, below, hstep,
        Nat.add_right_cancel_iff]

lemma below_le (items : List (Nat × T)) (k : Nat) : below items k ≤ items.length :=
  length_filter_le ..

lemma below_succ (items : List (Nat × T)) (i : Nat) :
    below items (i + 1) = below items i + (items.filter (·.1 = i)).length :=
  length_filter_lt_succ (fun x : Nat × T => x.1) items i

/-- A group is a run of the records. -/
lemma groupOf_eq (h : items.Pairwise (·.1 ≤ ·.1)) (i : Nat) :
    groupOf items i = ((items.map (·.2)).drop (below items i)).take
      (below items (i + 1) - below items i) := by
  have hgroup := @filter_eq_take_drop _ (fun x : Nat × T => x.1) items h i
  rw [groupOf, hgroup, below_succ, Nat.add_sub_cancel_left, map_take, map_drop, below]

lemma tally_replicate (v : T) (n : Nat) (counts : List UInt32) :
    ∃ counts', SegWriter.tally 1 (List.replicate n (0, v)) 0 counts = .ok counts' := by
  induction n generalizing counts with
  | zero => exact ⟨counts, rfl⟩
  | succ n ih =>
    exact ih _

lemma below_replicate_one (v : T) (n : Nat) : below (List.replicate n (0, v)) 1 = n := by
  simp [below]

/-! ## Reading a section -/

variable [Row T] {disk : Nat → List UInt8} {c : BlockCache} {s : Segment} {sec : Sec}

/-- The section of an opened segment is these records' bytes. -/
def Holds (s : Segment) (sec : Sec) (rs : List T) : Prop :=
  (s.sections sec).2 = (bytesOf rs).length ∧
    ∃ before after, before.length = (s.sections sec).1 ∧
      s.bytes.contents = before ++ (bytesOf rs ++ after)

lemma rows_spec {rs : List T} (hs : Holds s sec rs) (hb : s.bytes.OnDisk disk)
    (h : Honest disk c) {first n : Nat} (hle : first + n ≤ rs.length) :
    ∃ c', s.rows T sec first n c = (.ok ((rs.drop first).take n), c') ∧ Honest disk c' := by
  obtain ⟨hlen, before, after, hbefore, hcontents⟩ := hs
  have hsize : ∀ r : T, (Row.encode r).length = Row.size T := Row.length_encode
  have hbytes : (bytesOf rs).length = rs.length * Row.size T := length_flatMap_const hsize rs
  have hin : first * Row.size T + n * Row.size T ≤ (bytesOf rs).length := by
    rw [hbytes, ← Nat.add_mul]
    exact Nat.mul_le_mul_right _ hle
  have hslice : ((s.bytes.contents.drop ((s.sections sec).1 + first * Row.size T)).take
      (n * Row.size T)) = ((rs.drop first).take n).flatMap Row.encode := by
    rw [hcontents, ← drop_drop, ← hbefore, drop_left, drop_append_of_le_length,
      take_append_of_le_length, bytesOf, drop_flatMap_const hsize, take_flatMap_const hsize]
    · rw [length_drop]
      omega
    · omega
  obtain ⟨c', hread, h'⟩ := @read_spec disk c (n * Row.size T) s.bytes
    ((s.sections sec).1 + first * Row.size T) hb h (by
      rw [hcontents, length_append, length_append]
      omega)
  refine ⟨c', ?_, h'⟩
  have hraw : s.readBytes sec (first * Row.size T) (n * Row.size T) c
      = (.ok (((rs.drop first).take n).flatMap Row.encode), c') := by
    rw [Segment.readBytes, ensure_bind_apply, if_pos (by omega), tryCatch_apply_ok hread, hslice]
  rw [Segment.rows, bind_apply_ok hraw, pure_apply, chunksExact_flatMap Row.size_pos hsize,
    map_map]
  congr 2
  refine (map_congr_left fun r _ => Row.decode_encode r).trans (map_id _)

/-! ## Groups -/

variable {n : UInt32}

/-- What a grouped posting leaves in the file. -/
lemma grouped_spec (hw : w.pos = w.out.length) (hadj : adj.off ≠ adj.recs)
    (h : w.grouped adj groups items = .ok (n, w')) :
    items.Pairwise (·.1 ≤ ·.1) ∧ w'.pos = w'.out.length ∧ ∃ offsets : List UInt32,
      offsets.length = groups + 1 ∧
      (∀ k ≤ groups, offsets[k]? = some (UInt32.ofNat (below items k))) ∧
      w'.out = w.out ++ (bytesOf (items.map (·.2)) ++ bytesOf offsets) ∧
      w'.ranges adj.recs = (w.out.length, (bytesOf (items.map (·.2))).length) ∧
      w'.ranges adj.off
        = (w.out.length + (bytesOf (items.map (·.2))).length, (bytesOf offsets).length) := by
  obtain ⟨counts, htally, h⟩ := Fallible.bind_eq_ok.1 h
  obtain ⟨hlen, hoffsets⟩ := offsets_spec htally
  have hend : ((w.stream adj.recs (items.map (·.2))).2.stream adj.off
      (SegWriter.cumulate 0 counts)).2 = w' := (Prod.mk.inj (Except.ok.inj h)).2
  obtain ⟨hout, hpos, hranges⟩ := stream_spec adj.recs (items.map (·.2)) hw
  obtain ⟨hout', hpos', hranges'⟩ := stream_spec adj.off (SegWriter.cumulate 0 counts) hpos
  rw [← hend]
  refine ⟨(tally_spec htally).1, hpos', SegWriter.cumulate 0 counts, hlen, hoffsets, ?_, ?_, ?_⟩
  · rw [hout', hout, append_assoc]
  · rw [hranges', Function.update_of_ne hadj.symm, hranges, Function.update_self]
  · rw [hranges', Function.update_self, hout, length_append]

/-- The two sections of a posting are in a segment as the writer left them. -/
structure Opened (w' : SegWriter) (adj : Adj) (s : Segment) : Prop where
  bytes : w'.out <+: s.bytes.contents
  off : s.sections adj.off = w'.ranges adj.off
  recs : s.sections adj.recs = w'.ranges adj.recs

/-- What reading group `i` back returns, by the two offset words. -/
lemma neighbours_words (hw : w.pos = w.out.length) (hadj : adj.off ≠ adj.recs) {n : UInt32}
    (h : w.grouped adj groups items = .ok (n, w')) (hs : Opened w' adj s)
    (hb : s.bytes.OnDisk disk) (hc : Honest disk c) {i start stop : Nat} (hi : i < groups)
    (hstart : (UInt32.ofNat (below items i)).toNat = start)
    (hstop : (UInt32.ofNat (below items (i + 1))).toNat = stop) (hle : start ≤ stop)
    (hin : stop ≤ items.length) :
    ∃ c', s.neighbours T adj i c
      = (.ok (((items.map (·.2)).drop start).take (stop - start)), c') ∧ Honest disk c' := by
  obtain ⟨-, -, offsets, hlen, hoffsets, hout, hrecs, hoff⟩ := grouped_spec hw hadj h
  obtain ⟨after, hafter⟩ := hs.bytes
  have hholdsOff : Holds s adj.off offsets := by
    refine ⟨by rw [hs.off, hoff], w.out ++ bytesOf (items.map (·.2)), after, ?_, ?_⟩
    · rw [hs.off, hoff, length_append]
    · rw [← hafter, hout]
      simp only [append_assoc]
  have hholdsRecs : Holds s adj.recs (items.map (·.2)) := by
    refine ⟨by rw [hs.recs, hrecs], w.out, bytesOf offsets ++ after, by rw [hs.recs, hrecs], ?_⟩
    rw [← hafter, hout]
    simp only [append_assoc]
  obtain ⟨c₁, hrows, hc₁⟩ := rows_spec hholdsOff hb hc (show i + 2 ≤ offsets.length by omega)
  have hpair : (offsets.drop i).take 2
      = [UInt32.ofNat (below items i), UInt32.ofNat (below items (i + 1))] := by
    obtain ⟨hlt, hfirst⟩ := List.getElem?_eq_some_iff.1 (hoffsets i (by omega))
    obtain ⟨hlt', hsecond⟩ := List.getElem?_eq_some_iff.1 (hoffsets (i + 1) (by omega))
    rw [drop_eq_getElem_cons hlt, drop_eq_getElem_cons hlt', hfirst, hsecond]
    rfl
  have hspan : s.span adj.off i c = (.ok (start, stop - start), c₁) := by
    have hle' : UInt32.ofNat (below items i) ≤ UInt32.ofNat (below items (i + 1)) := by
      rwa [UInt32.le_iff_toNat_le, hstart, hstop]
    rw [Segment.span, bind_apply_ok hrows, hpair]
    refine (ensure_bind_apply ..).trans ((if_pos hle').trans ?_)
    rw [pure_apply]
    simp [hstart, hstop]
  obtain ⟨c₂, hread, hc₂⟩ := rows_spec hholdsRecs hb hc₁
    (show start + (stop - start) ≤ (items.map (·.2)).length by
      rw [length_map]
      omega)
  refine ⟨c₂, ?_, hc₂⟩
  rw [Segment.neighbours, bind_apply_ok hspan]
  exact hread

/-- With fewer records than an offset can count, a group is read back. -/
lemma neighbours_spec (hw : w.pos = w.out.length) (hadj : adj.off ≠ adj.recs)
    (h : w.grouped adj groups items = .ok (n, w')) (hs : Opened w' adj s)
    (hb : s.bytes.OnDisk disk) (hc : Honest disk c) (hfew : items.length < 2 ^ 32) {i : Nat}
    (hi : i < groups) :
    ∃ c', s.neighbours T adj i c = (.ok (groupOf items i), c') ∧ Honest disk c' := by
  have hword : ∀ k, (UInt32.ofNat (below items k)).toNat = below items k := fun k =>
    UInt32.toNat_ofNat_of_lt' (Nat.lt_of_le_of_lt (below_le items k) hfew)
  have hstep := below_succ items i
  rw [groupOf_eq (grouped_spec hw hadj h).1]
  exact neighbours_words hw hadj h hs hb hc hi (hword i) (hword (i + 1)) (by omega)
    (below_le items (i + 1))

/-! ## Tables -/

/-- The table has grown. -/
def Table.Le (t t' : Table) : Prop := t.names <+: t'.names

/-- Whatever is added later, a string keeps the index it was given. -/
lemma Table.id_spec {t t' : Table} {x : String} {i : UInt8} (h : t.id x = .ok (i, t')) :
    t.Le t' ∧ ∀ t'', t'.Le t'' → i = UInt8.ofNat (t''.names.idxOf x) := by
  unfold Table.id at h
  split at h
  · rename_i hmem
    cases h
    exact ⟨prefix_rfl, fun t'' hle => by rw [← IsPrefix.idxOf_eq_of_mem hle hmem]⟩
  · rename_i hmem
    split at h
    · cases h
    · cases h
      refine ⟨prefix_append .., fun t'' hle => ?_⟩
      rw [← IsPrefix.idxOf_eq_of_mem hle (by simp), idxOf_append_of_notMem hmem]
      simp

structure Tables.Le (t t' : Tables) : Prop where
  reasons : t.reasons.Le t'.reasons
  accesses : t.accesses.Le t'.accesses
  edgeKinds : t.edgeKinds.Le t'.edgeKinds
  layers : t.layers.Le t'.layers
  provs : t.provs.Le t'.provs

lemma Tables.Le.refl (t : Tables) : t.Le t :=
  ⟨prefix_rfl, prefix_rfl, prefix_rfl, prefix_rfl, prefix_rfl⟩

variable {t t' : Tables} {x : Nat × Nat × EdgeRow} {xs : List (Nat × Nat × EdgeRow)}

lemma Tables.Le.trans {t'' : Tables} (h : t.Le t') (h' : t'.Le t'') : t.Le t'' :=
  ⟨List.IsPrefix.trans h.reasons h'.reasons, List.IsPrefix.trans h.accesses h'.accesses,
    List.IsPrefix.trans h.edgeKinds h'.edgeKinds, List.IsPrefix.trans h.layers h'.layers,
    List.IsPrefix.trans h.provs h'.provs⟩

/-- The fields of a row's record other than its node, by the final tables. -/
def recordIn (t : Tables) (e : EdgeRow) (node : Nat) : Edge :=
  { node := UInt32.ofNat (clampU32 node)
    weight := UInt16.ofNat (clampU16 e.weight)
    reason := UInt8.ofNat (t.reasons.names.idxOf e.reason)
    access := UInt8.ofNat (t.accesses.names.idxOf (e.access.getD ""))
    kind := UInt8.ofNat (t.edgeKinds.names.idxOf e.kind)
    layer := UInt8.ofNat (t.layers.names.idxOf e.layer)
    provenance := UInt8.ofNat (t.provs.names.idxOf e.provenance)
    confidence := quantizeConfidence e.confidence }

lemma edgeRecord_spec {r : Nat × Edge} (h : edgeRecord x t = .ok (r, t')) :
    t.Le t' ∧ ∀ t'', t'.Le t'' → r = (clampU32 x.1, recordIn t'' x.2.2 x.2.1) := by
  obtain ⟨⟨reason, reasons⟩, hreason, h⟩ := Fallible.bind_eq_ok.1 h
  obtain ⟨⟨access, accesses⟩, haccess, h⟩ := Fallible.bind_eq_ok.1 h
  obtain ⟨⟨kind, edgeKinds⟩, hkind, h⟩ := Fallible.bind_eq_ok.1 h
  obtain ⟨⟨layer, layers⟩, hlayer, h⟩ := Fallible.bind_eq_ok.1 h
  obtain ⟨⟨provenance, provs⟩, hprov, h⟩ := Fallible.bind_eq_ok.1 h
  cases h
  obtain ⟨hle₁, hreason⟩ := Table.id_spec hreason
  obtain ⟨hle₂, haccess⟩ := Table.id_spec haccess
  obtain ⟨hle₃, hkind⟩ := Table.id_spec hkind
  obtain ⟨hle₄, hlayer⟩ := Table.id_spec hlayer
  obtain ⟨hle₅, hprov⟩ := Table.id_spec hprov
  refine ⟨⟨hle₁, hle₂, hle₃, hle₄, hle₅⟩, fun t'' hle => ?_⟩
  rw [recordIn, ← hreason _ hle.reasons, ← haccess _ hle.accesses, ← hkind _ hle.edgeKinds,
    ← hlayer _ hle.layers, ← hprov _ hle.provs]

lemma edgeRecords_spec {rs : List (Nat × Edge)} (h : edgeRecords xs t = .ok (rs, t')) :
    t.Le t' ∧ ∀ t'', t'.Le t'' →
      rs = xs.map fun x => (clampU32 x.1, recordIn t'' x.2.2 x.2.1) := by
  induction xs generalizing t rs with
  | nil =>
    obtain ⟨rfl, rfl⟩ := Prod.mk.inj (Except.ok.inj h)
    exact ⟨.refl t, fun _ _ => rfl⟩
  | cons x xs ih =>
    obtain ⟨⟨r, t₁⟩, hr, h⟩ := Fallible.bind_eq_ok.1 h
    obtain ⟨⟨rs', t₂⟩, hrs, h⟩ := Fallible.bind_eq_ok.1 h
    cases h
    obtain ⟨hle, hr⟩ := edgeRecord_spec hr
    obtain ⟨hle', hrs⟩ := ih hrs
    refine ⟨hle.trans hle', fun t'' hle'' => ?_⟩
    rw [map_cons, ← hrs t'' hle'', hr t'' (hle'.trans hle'')]

/-! ## The two directions -/

variable {edges : List EdgeRow} {d : Dense} {a : UInt32} {N : Nat}

lemma mem_edgeQuery {reverse : Bool} :
    x ∈ edgeQuery d reverse edges ↔ ∃ e ∈ edges, edgeEnds d reverse e = some x := by
  rw [edgeQuery, (mergeSort_perm _ _).mem_iff, mem_filterMap]

lemma edgeEnds_reverse (d : Dense) (e e' : EdgeRow) (a b : Nat) :
    edgeEnds d true e = some (b, a, e') ↔ edgeEnds d false e = some (a, b, e') := by
  unfold edgeEnds
  cases d.node e.srcFile e.srcSymbol with
  | none => simp
  | some src =>
    cases d.node e.dstFile e.dstSymbol with
    | none => simp
    | some dst =>
      simp
      tauto

lemma mem_edgeQuery_reverse {a b : Nat} {row : EdgeRow} :
    (b, a, row) ∈ edgeQuery d true edges ↔ (a, b, row) ∈ edgeQuery d false edges := by
  simp only [mem_edgeQuery, edgeEnds_reverse]

lemma clampU32_lt (v : Nat) : clampU32 v < 2 ^ 32 := by
  unfold clampU32
  omega

/-- A node number fits its word. -/
lemma ofNat_clampU32 {v : Nat} : UInt32.ofNat (clampU32 v) = a ↔ clampU32 v = a.toNat := by
  rw [← UInt32.toNat_inj, UInt32.toNat_ofNat_of_lt' (clampU32_lt v)]

/-- Under `a` there is a record with the node of `b` for each edge between them. -/
lemma mem_groupOf_records {b : UInt32} {e : Edge} : { e with node := b } ∈ groupOf
        (xs.map fun x => (clampU32 x.1, recordIn t x.2.2 x.2.1)) a.toNat ↔
      ∃ x ∈ xs, clampU32 x.1 = a.toNat ∧ clampU32 x.2.1 = b.toNat ∧
        { recordIn t x.2.2 0 with node := 0 } = { e with node := 0 } := by
  simp only [groupOf, mem_map, mem_filter, decide_eq_true_eq]
  constructor
  · rintro ⟨_, ⟨⟨x, hx, rfl⟩, ha⟩, heq⟩
    have hnode := congrArg Edge.node heq
    refine ⟨x, hx, ha, ofNat_clampU32.1 hnode, ?_⟩
    exact congrArg (fun e => { e with node := 0 }) heq
  · rintro ⟨x, hx, ha, hb, heq⟩
    refine ⟨_, ⟨⟨x, hx, rfl⟩, ha⟩, ?_⟩
    have hfields := congrArg (fun e => { e with node := b }) heq
    refine Eq.trans ?_ hfields
    have hnode := ofNat_clampU32.2 hb
    simp only [recordIn, hnode]

lemma edgeItems_transpose {forward reverse : List (Nat × Edge)}
    (h : edgeItems d edges = .ok (forward, reverse, t)) (a b : UInt32) (e : Edge) :
    { e with node := b } ∈ groupOf forward a.toNat ↔
      { e with node := a } ∈ groupOf reverse b.toNat := by
  obtain ⟨⟨_, accesses⟩, -, h⟩ := Fallible.bind_eq_ok.1 h
  obtain ⟨⟨forward', t₁⟩, hforward, h⟩ := Fallible.bind_eq_ok.1 h
  obtain ⟨⟨reverse', t₂⟩, hreverse, h⟩ := Fallible.bind_eq_ok.1 h
  cases h
  obtain ⟨-, hforward⟩ := edgeRecords_spec hforward
  obtain ⟨hle, hreverse⟩ := edgeRecords_spec hreverse
  -- both directions are described by the final tables
  rw [hforward t hle, hreverse t (.refl t), mem_groupOf_records, mem_groupOf_records]
  constructor
  · rintro ⟨⟨na, nb, row⟩, hx, ha, hb, heq⟩
    exact ⟨(nb, na, row), mem_edgeQuery_reverse.2 hx, hb, ha, heq⟩
  · rintro ⟨⟨nb, na, row⟩, hx, hb, ha, heq⟩
    exact ⟨(na, nb, row), mem_edgeQuery_reverse.1 hx, ha, hb, heq⟩

lemma writeEdges_eq_ok (h : writeEdges d edges w = .ok (n, t, w')) :
    ∃ forward reverse n₁ w₁ n₂, edgeItems d edges = .ok (forward, reverse, t) ∧
      w.grouped OUT ((d.files + d.symbols) % 2 ^ 32) forward = .ok (n₁, w₁) ∧
      w₁.grouped IN ((d.files + d.symbols) % 2 ^ 32) reverse = .ok (n₂, w') := by
  obtain ⟨⟨forward, reverse, t'⟩, hitems, h⟩ := Fallible.bind_eq_ok.1 h
  obtain ⟨⟨n₁, w₁⟩, hout, h⟩ := Fallible.bind_eq_ok.1 h
  obtain ⟨⟨n₂, w₂⟩, hin, h⟩ := Fallible.bind_eq_ok.1 h
  dsimp only at h
  split at h
  · cases h
  · cases h
    exact ⟨forward, reverse, _, w₁, n₂, hitems, hout, hin⟩

/-- A posting of fewer than `2 ^ 32` records is read back group by group, from memory and through
the cache whatever its capacity and whatever was read before; and the edges written for the nodes
going in are the transpose of those going out. -/
theorem segment_reads_back_and_transposes :
    (∀ (T : Type) [Row T] (adj : Adj) (groups : Nat) (items : List (Nat × T)) (w w' : SegWriter)
      (n : UInt32), adj.off ≠ adj.recs → w.pos = w.out.length →
      w.grouped adj groups items = .ok (n, w') → items.length < 2 ^ 32 →
      ∀ (s : Segment) (disk : Nat → List UInt8), Opened w' adj s → s.bytes.OnDisk disk →
      ∀ (capBytes : Nat) (accesses : List Access), ∀ i < groups,
        (s.neighbours T adj i (Machine.run (access disk) (.new capBytes) accesses)).1
          = .ok (groupOf items i)) ∧
    ∀ (d : Dense) (edges : List EdgeRow) (w w' : SegWriter) (n : UInt32) (t : Tables),
      writeEdges d edges w = .ok (n, t, w') →
      ∃ forward reverse n₁ w₁ n₂,
        w.grouped OUT ((d.files + d.symbols) % 2 ^ 32) forward = .ok (n₁, w₁) ∧
        w₁.grouped IN ((d.files + d.symbols) % 2 ^ 32) reverse = .ok (n₂, w') ∧
        ∀ (a b : UInt32) (e : Edge), { e with node := b } ∈ groupOf forward a.toNat ↔
          { e with node := a } ∈ groupOf reverse b.toNat := by
  refine ⟨?_, ?_⟩
  · intro T _ adj groups items w w' n hadj hw h hfew s disk hs hb capBytes accesses i hi
    obtain ⟨c', hread, -⟩ :=
      neighbours_spec hw hadj h hs hb (honest_run capBytes accesses) hfew hi
    rw [hread]
  · intro d edges w w' n t h
    obtain ⟨forward, reverse, n₁, w₁, n₂, hitems, hout, hin⟩ := writeEdges_eq_ok h
    exact ⟨forward, reverse, n₁, w₁, n₂, hout, hin, edgeItems_transpose hitems⟩

/-- Three names posted under two of three groups. -/
theorem segment_reads_back_names : ∀ (capBytes : Nat) (accesses : List Access), ∀ i < 3, ∃ w' n,
      SegWriter.grouped ⟨.namePostOff, .namePost⟩ 3 [(0, (5 : UInt32)), (0, 6), (2, 7)]
        ⟨[], 0, fun _ => (0, 0)⟩ = .ok (n, w') ∧
      (Segment.neighbours UInt32 ⟨.file w'.out 0, w'.ranges, "graph.csr"⟩
        ⟨.namePostOff, .namePost⟩ i
        (Machine.run (access fun _ => w'.out) (.new capBytes) accesses)).1
          = .ok (groupOf [(0, 5), (0, 6), (2, 7)] i) := by
  intro capBytes accesses i hi
  refine ⟨_, _, rfl, ?_⟩
  exact segment_reads_back_and_transposes.1 UInt32 _ 3 _ _ _ _ (by decide) rfl rfl (by decide) _ _
    ⟨prefix_rfl, rfl, rfl⟩ (by exact rfl) capBytes accesses i hi

/-- A group whose number of records wraps around to zero is written, and read back empty. -/
lemma grouped_wraps (hwrap : (UInt32.ofNat N).toNat = 0) (v : UInt32) :
    ∃ (n : UInt32) (w' : SegWriter),
      SegWriter.grouped ⟨.namePostOff, .namePost⟩ 1 (List.replicate N (0, v))
        ⟨[], 0, fun _ => (0, 0)⟩ = .ok (n, w') ∧
      (Segment.neighbours UInt32 ⟨.mem w'.out, w'.ranges, "graph.csr"⟩ ⟨.namePostOff, .namePost⟩ 0
        (.new 0)).1 = .ok [] := by
  obtain ⟨counts, hcounts⟩ := tally_replicate v N (List.replicate 2 0)
  have hgrouped : ∃ n w', SegWriter.grouped ⟨.namePostOff, .namePost⟩ 1 (List.replicate N (0, v))
      ⟨[], 0, fun _ => (0, 0)⟩ = .ok (n, w') := by
    rw [SegWriter.grouped, hcounts]
    exact ⟨_, _, rfl⟩
  obtain ⟨n, w', hgrouped⟩ := hgrouped
  refine ⟨n, w', hgrouped, ?_⟩
  have hstop : (UInt32.ofNat (below (List.replicate N (0, v)) 1)).toNat = 0 := by
    rw [below_replicate_one, hwrap]
  obtain ⟨c', hread, -⟩ := @neighbours_words UInt32 _ w' _ 1 _ _ (fun _ => []) (.new 0)
    ⟨.mem w'.out, w'.ranges, "graph.csr"⟩ rfl (by decide) n hgrouped ⟨prefix_rfl, rfl, rfl⟩
    trivial (honest_run 0 []) 0 0 0 (by decide) (by simp [below]) hstop (Nat.le_refl 0)
    (Nat.zero_le _)
  rw [hread]
  rfl

lemma mem_groupOf_replicate (hN : N ≠ 0) (v : UInt32) : v ∈ groupOf (List.replicate N (0, v)) 0 :=
  mem_map.2 ⟨(0, v), mem_filter.2 ⟨mem_replicate.2 ⟨hN, rfl⟩, rfl⟩, rfl⟩

theorem segment_loses_wrapped_group : ∃ (n : UInt32) (w' : SegWriter),
    SegWriter.grouped ⟨.namePostOff, .namePost⟩ 1 (List.replicate (2 ^ 32) (0, (7 : UInt32)))
      ⟨[], 0, fun _ => (0, 0)⟩ = .ok (n, w') ∧
    (Segment.neighbours UInt32 ⟨.mem w'.out, w'.ranges, "graph.csr"⟩ ⟨.namePostOff, .namePost⟩ 0
      (.new 0)).1 = .ok [] ∧
    (7 : UInt32) ∈ groupOf (List.replicate (2 ^ 32) (0, 7)) 0 := by
  have hwrap : (UInt32.ofNat (2 ^ 32)).toNat = 0 := rfl
  have hmem := mem_groupOf_replicate (show 2 ^ 32 ≠ 0 by decide) 7
  obtain ⟨n, w', hgrouped, hread⟩ := grouped_wraps hwrap 7
  exact ⟨n, w', hgrouped, hread, hmem⟩

end Csr

end Index
