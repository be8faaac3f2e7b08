import XMustard.Index.Tarjan

/-! # Tarjan's algorithm finds the strongly connected components

The stack is cut into one part for every open frame: the node of the frame, and above it the nodes
that have returned to it. The node reaches its part, what is above it reaches something older, and
the low link bounds the edges that leave the part. A frame whose low link is its own number
therefore stands for a component. A turn changes the parts of the two newest frames only. -/

namespace Index

open List Graph

variable {n : Nat} {adj : Fin n → List (Fin n)} {t t' : Tarjan n} {u v w : Fin n} {i : Nat}

namespace Tarjan

variable {index index' : Fin n → Option Nat} {low low' : Fin n → Nat}
  {A B rest stack : List (Fin n)}
  {call : List (Fin n × Nat)}

/-! ## Parts of the stack -/

/-- The time at which a node was first seen. -/
def num (index : Fin n → Option Nat) (u : Fin n) : Nat := (index u).getD 0

def Seen (t : Tarjan n) (u : Fin n) : Prop := (t.index u).isSome

/-- The stack down to the node `v` of a frame, over the rest: `A` has returned to `v`. -/
structure Part (adj : Fin n → List (Fin n)) (index : Fin n → Option Nat) (low : Fin n → Nat)
    (v : Fin n) (i : Nat) (A rest : List (Fin n)) : Prop where
  down : ∀ u ∈ A, Reach adj v u
  up : ∀ u ∈ A, ∃ w ∈ A ++ v :: rest, num index w < num index u ∧ Reach adj u w
  link : ∃ w ∈ v :: rest, num index w = low v ∧ Reach adj v w
  /-- The edges that have been looked at: all those of a node that has returned. -/
  edges : ∀ w, w ∈ (adj v).take i ∨ (∃ u ∈ A, w ∈ adj u) →
    (index w).isSome ∧ (w ∈ A ++ v :: rest → low v ≤ num index w)

inductive Parts (adj : Fin n → List (Fin n)) (index : Fin n → Option Nat) (low : Fin n → Nat) :
    List (Fin n × Nat) → List (Fin n) → Prop
  | nil : Parts adj index low [] []
  | cons {v : Fin n} {i : Nat} {call : List (Fin n × Nat)} {A rest : List (Fin n)} :
      Parts adj index low call rest → (∀ p ∈ call.head?, Reach adj p.1 v) →
      Part adj index low v i A rest → Parts adj index low ((v, i) :: call) (A ++ v :: rest)

/-- The newest node is on top. -/
def Newer (index : Fin n → Option Nat) (stack : List (Fin n)) : Prop :=
  stack.Pairwise fun u w => num index w < num index u

lemma Newer.around (h : Newer index (A ++ v :: rest)) :
    (∀ u ∈ A, num index v < num index u) ∧ Newer index rest
      ∧ ∀ u ∈ rest, num index u < num index v := by
  obtain ⟨-, hrest, hA⟩ := pairwise_append.1 h
  obtain ⟨hv, hrest⟩ := pairwise_cons.1 hrest
  exact ⟨fun u hu => hA u hu v (mem_cons_self ..), hrest, hv⟩

lemma Part.low_le (h : Part adj index low v i A rest)
    (hrest : ∀ u ∈ rest, num index u < num index v) : low v ≤ num index v := by
  obtain ⟨w, hw, hnum, -⟩ := h.link
  rw [← hnum]
  rcases mem_cons.1 hw with rfl | hw
  · exact le_rfl
  · exact (hrest w hw).le

/-- Only the nodes on the stack matter. -/
lemma Parts.congr (h : Parts adj index low call stack)
    (hseen : ∀ u, (index u).isSome → (index' u).isSome)
    (hnum : ∀ u ∈ stack, num index' u = num index u) (hlow : ∀ u ∈ stack, low' u = low u) :
    Parts adj index' low' call stack := by
  induction h with
  | nil => exact .nil
  | @cons v i call A rest h hcaller hpart ih =>
    have hmem : ∀ u ∈ rest, u ∈ A ++ v :: rest := fun u hu => by simp [hu]
    have hv : low' v = low v := hlow v (by simp)
    refine .cons (ih (fun u hu => hnum u (hmem u hu)) fun u hu => hlow u (hmem u hu)) hcaller
      ⟨hpart.down, fun u hu => ?_, ?_, fun w hw => ?_⟩
    · obtain ⟨w, hw, hlt, hreach⟩ := hpart.up u hu
      exact ⟨w, hw, by rwa [hnum w hw, hnum u (mem_append_left _ hu)], hreach⟩
    · obtain ⟨w, hw, hlink, hreach⟩ := hpart.link
      exact ⟨w, hw, by rw [hnum w (mem_append_right _ hw), hlink, hv], hreach⟩
    · obtain ⟨hw, hle⟩ := hpart.edges w hw
      refine ⟨hseen w hw, fun hmem => ?_⟩
      rw [hnum w hmem, hv]
      exact hle hmem

section

variable (h : Parts adj index low ((v, i) :: call) stack)
include h

lemma Parts.exists_part :
    ∃ A rest, stack = A ++ v :: rest ∧ Parts adj index low call rest ∧
      (∀ p ∈ call.head?, Reach adj p.1 v) ∧ Part adj index low v i A rest := by
  cases h with
  | cons h hcaller hpart => exact ⟨_, _, rfl, h, hcaller, hpart⟩

/-- The newest frame passes an edge to a node that has been seen. -/
lemma Parts.advance (hw : (adj v)[i]? = some w) (hseen : (index w).isSome)
    (hlow : w ∈ stack → low v ≤ num index w) : Parts adj index low ((v, i + 1) :: call) stack := by
  cases h with
  | cons h hcaller hpart =>
    refine .cons h hcaller { hpart with edges := fun x hx => ?_ }
    rw [take_add_one, hw, mem_append] at hx
    rcases hx with (hx | hx) | hx
    · exact hpart.edges x (.inl hx)
    · obtain rfl : x = w := by simpa using hx
      exact ⟨hseen, hlow⟩
    · exact hpart.edges x (.inr hx)

/-- The link of the newest frame may be lowered to a node on the stack that the frame reaches. -/
lemma Parts.lower (hnewer : Newer index stack) (hw : w ∈ stack) (hreach : Reach adj v w) :
    Parts adj index (Function.update low v (min (low v) (num index w))) ((v, i) :: call) stack := by
  cases h with
  | @cons _ _ _ A rest h hcaller hpart =>
    obtain ⟨hA, -, hrest⟩ := hnewer.around
    have hne : ∀ u ∈ rest, u ≠ v := fun u hu huv => lt_irrefl _ (huv ▸ hrest u hu)
    refine .cons (h.congr (fun _ hu => hu) (fun _ _ => rfl)
      fun u hu => Function.update_of_ne (hne u hu) ..) hcaller
      { hpart with link := ?_, edges := fun x hx => ⟨(hpart.edges x hx).1, fun hmem => ?_⟩ }
    · rw [Function.update_self]
      by_cases hlt : num index w < low v
      · refine ⟨w, ?_, (min_eq_right hlt.le).symm, hreach⟩
        refine (mem_append.1 hw).resolve_left fun hwA => ?_
        exact absurd (hpart.low_le hrest) ((hA w hwA).trans hlt).not_ge
      · rw [min_eq_left (not_lt.1 hlt)]
        exact hpart.link
    · rw [Function.update_self]
      exact (min_le_left _ _).trans ((hpart.edges x hx).2 hmem)

end

/-- What returned to a frame goes over to its caller, to which the frame itself returns. -/
lemma Part.merge {p : Fin n} {j : Nat} (hv : Part adj index low v i A (B ++ p :: rest))
    (hp : Part adj index low p j B rest) (hreach : Reach adj p v) (hend : (adj v).length ≤ i)
    (hnewer : Newer index (A ++ v :: (B ++ p :: rest))) (hlow : low v < num index v) :
    Part adj index (Function.update low p (min (low p) (low v))) p j (A ++ v :: B) rest := by
  obtain ⟨hA, hnewer', hbelow⟩ := hnewer.around
  obtain ⟨hB, -, hrest⟩ := hnewer'.around
  have hpv : num index p < num index v := hbelow p (by simp)
  have hlink := hp.low_le hrest
  obtain ⟨x, hx, hxlow, hvx⟩ := hv.link
  have hstack : A ++ v :: B ++ p :: rest = A ++ v :: (B ++ p :: rest) := by simp
  refine ⟨fun u hu => ?_, fun u hu => ?_, ?_, fun w hw => ?_⟩
  · simp only [mem_append, mem_cons] at hu
    rcases hu with hu | rfl | hu
    · exact hreach.trans (hv.down u hu)
    · exact hreach
    · exact hp.down u hu
  · simp only [mem_append, mem_cons] at hu
    rw [hstack]
    rcases hu with hu | rfl | hu
    · exact hv.up u hu
    · exact ⟨x, mem_append_right _ hx, hxlow ▸ hlow, hvx⟩
    · obtain ⟨y, hy, hup⟩ := hp.up u hu
      exact ⟨y, mem_append_right _ (mem_cons_of_mem _ hy), hup⟩
  · rw [Function.update_self]
    by_cases hlt : low v < low p
    · refine ⟨x, ?_, by rw [hxlow, min_eq_right hlt.le], hreach.trans hvx⟩
      -- nothing above the caller is as old as its link
      have hxp : num index x < num index p := by omega
      rcases mem_cons.1 hx with rfl | hx
      · exact absurd hxp hpv.not_gt
      · exact (mem_append.1 hx).resolve_left fun hxB => absurd hxp (hB x hxB).not_gt
    · rw [min_eq_left (not_lt.1 hlt)]
      exact hp.link
  · rw [Function.update_self, hstack]
    have hfrom : (w ∈ (adj v).take i ∨ ∃ u ∈ A, w ∈ adj u)
        ∨ w ∈ (adj p).take j ∨ ∃ u ∈ B, w ∈ adj u := by
      rw [take_of_length_le hend]
      simp only [mem_append, mem_cons] at hw
      rcases hw with hw | ⟨u, hu | rfl | hu, hw⟩
      · exact .inr (.inl hw)
      · exact .inl (.inr ⟨u, hu, hw⟩)
      · exact .inl (.inl hw)
      · exact .inr (.inr ⟨u, hu, hw⟩)
    rcases hfrom with hw | hw
    · obtain ⟨hseen, hle⟩ := hv.edges w hw
      exact ⟨hseen, fun hmem => (min_le_right _ _).trans (hle hmem)⟩
    · obtain ⟨hseen, hle⟩ := hp.edges w hw
      refine ⟨hseen, fun hmem => (min_le_left _ _).trans ?_⟩
      rcases mem_append.1 hmem with hmem | hmem
      · exact hlink.trans (hpv.trans (hA w hmem)).le
      rcases mem_cons.1 hmem with rfl | hmem
      · exact hlink.trans hpv.le
      · exact hle hmem

/-! ## Components found so far -/

/-- The nodes that have left the stack lead to such nodes only, and are cut into components. -/
structure Done (adj : Fin n → List (Fin n)) (out : List (List (Fin n))) (gone : Fin n → Prop) :
    Prop where
  closed : ∀ u w, gone u → w ∈ adj u → gone w
  mem : ∀ u, u ∈ out.flatten ↔ gone u
  nodup : out.flatten.Nodup
  components : ∀ c ∈ out, c ≠ [] ∧ c.Pairwise (· < ·) ∧ ∀ u ∈ c, ∀ w, w ∈ c ↔ Mutual adj u w

lemma Done.snoc {out : List (List (Fin n))} {gone : Fin n → Prop} (h : Done adj out gone)
    {c : List (Fin n)} (hne : c ≠ []) (hnodup : c.Nodup) (hnew : ∀ u ∈ c, ¬gone u)
    (hedges : ∀ u ∈ c, ∀ w ∈ adj u, w ∈ c ∨ gone w)
    (hmutual : ∀ u ∈ c, ∀ w, w ∈ c ↔ Mutual adj u w) :
    Done adj (out ++ [c.mergeSort]) fun u => u ∈ c ∨ gone u where
  closed u w hu hw := by
    rcases hu with hu | hu
    · exact hedges u hu w hw
    · exact .inr (h.closed u w hu hw)
  mem u := by simp [h.mem, or_comm]
  nodup := by
    rw [flatten_append, nodup_append]
    refine ⟨h.nodup, by simpa using hnodup, ?_⟩
    rintro u hu w hw rfl
    exact hnew u (by simpa using hw) ((h.mem u).1 hu)
  components c' hc' := by
    rcases mem_append.1 hc' with hc' | hc'
    · exact h.components c' hc'
    obtain rfl := mem_singleton.1 hc'
    refine ⟨by simpa [← length_eq_zero_iff] using hne, ?_, fun u hu w => ?_⟩
    · have hne' : c.mergeSort.Nodup := (mergeSort_perm c _).nodup_iff.2 hnodup
      exact ((pairwise_mergeSort' (· ≤ ·) c).and hne').imp fun hxy => lt_of_le_of_ne hxy.1 hxy.2
    · rw [mem_mergeSort] at *
      exact hmutual u hu w

/-! ## The invariant -/

/-- The node has been seen and has left the stack. -/
def Gone (t : Tarjan n) (u : Fin n) : Prop := t.Seen u ∧ u ∉ t.stack

structure Inv (adj : Fin n → List (Fin n)) (t : Tarjan n) : Prop where
  parts : Parts adj t.index t.low t.call t.stack
  newer : Newer t.index t.stack
  seen : ∀ u ∈ t.stack, t.Seen u ∧ num t.index u < t.next
  on_iff : ∀ u, t.on u ↔ u ∈ t.stack
  done : Done adj t.out t.Gone

lemma inv_start : Inv adj ({} : Tarjan n) :=
  ⟨.nil, .nil, nofun, by simp, ⟨by simp [Gone, Seen], by simp [Gone, Seen], .nil, nofun⟩⟩

/-! ### Seeing a new node -/

lemma enter_seen (t : Tarjan n) (w u : Fin n) : (t.enter w).Seen u ↔ u = w ∨ t.Seen u := by
  by_cases huw : u = w <;> simp [Seen, enter, huw]

section enter

variable (h : Inv adj t) (hnew : t.index w = none)
include h hnew

lemma Inv.ne_new (hu : u ∈ t.stack) : u ≠ w := by
  rintro rfl
  have := (h.seen u hu).1
  simp [Seen, hnew] at this

lemma Inv.num_enter (hu : u ∈ t.stack) : num (t.enter w).index u = num t.index u := by
  simp [num, enter, Function.update_of_ne (h.ne_new hnew hu)]

lemma Inv.parts_enter : Parts adj (t.enter w).index (t.enter w).low t.call t.stack :=
  h.parts.congr (fun u hu => (enter_seen t w u).2 (.inr hu)) (fun _ => h.num_enter hnew)
    fun _ hu => Function.update_of_ne (h.ne_new hnew hu) ..

/-- A node that the newest frame reaches is opened. -/
lemma Inv.enter (hparts : Parts adj (t.enter w).index (t.enter w).low call t.stack)
    (hcaller : ∀ p ∈ call.head?, Reach adj p.1 w) : Inv adj ({ t with call := call }.enter w) := by
  have hself : num (t.enter w).index w = t.next := by simp [num, Tarjan.enter]
  have hgone : ({ t with call := call }.enter w).Gone = t.Gone := by
    funext u
    have hseen : u = w → ¬t.Seen u := by
      rintro rfl
      simp [Seen, hnew]
    have hstack : u ∈ ({ t with call := call }.enter w).stack ↔ u = w ∨ u ∈ t.stack := mem_cons
    have := enter_seen { t with call := call } w u
    simp only [Gone, this, hstack, eq_iff_iff]
    constructor
    · rintro ⟨hu, hno⟩
      exact ⟨hu.resolve_left fun huw => hno (.inl huw), fun hu => hno (.inr hu)⟩
    · rintro ⟨hu, hno⟩
      exact ⟨.inr hu, fun hor => hor.elim (fun huw => hseen huw hu) hno⟩
  refine ⟨?_, ?_, forall_mem_cons.2 ⟨⟨?_, ?_⟩, fun u hu => ⟨?_, ?_⟩⟩, fun u => ?_, hgone ▸ h.done⟩
  · refine .cons (A := []) hparts hcaller ⟨forall_mem_nil _, forall_mem_nil _,
      ⟨w, mem_cons_self .., ?_, .refl w⟩, ?_⟩
    · simp [Tarjan.enter, num]
    · simp
  · refine pairwise_cons.2 ⟨fun u hu => ?_, h.newer.imp_of_mem fun hu hx hlt => ?_⟩
    · exact ((h.num_enter hnew hu).trans_lt (h.seen u hu).2).trans_eq hself.symm
    · exact (h.num_enter hnew hx).trans_lt (hlt.trans_eq (h.num_enter hnew hu).symm)
  · exact (enter_seen _ w w).2 (.inl rfl)
  · exact hself.trans_lt (Nat.lt_succ_self _)
  · exact (enter_seen _ w u).2 (.inr (h.seen u hu).1)
  · exact (h.num_enter hnew hu).trans_lt ((h.seen u hu).2.trans (Nat.lt_succ_self _))
  · change Function.update t.on w true u = true ↔ u ∈ w :: t.stack
    by_cases huw : u = w
    · simp [huw]
    · simp [huw, h.on_iff]

end enter

/-! ### Returning from the root of a component -/

section root

variable (h : Inv adj t) (hstack : t.stack = A ++ v :: rest)
  (hpart : Part adj t.index t.low v i A rest) (hend : (adj v).length ≤ i)
  (hlow : t.low v = num t.index v)
include h hstack hpart hend hlow

/-- The edges of the part stay in it or lead to what has left the stack. -/
lemma Inv.edges_stay (hu : u ∈ A ++ [v]) (hw : w ∈ adj u) : w ∈ A ++ [v] ∨ t.Gone w := by
  have hfrom : w ∈ (adj v).take i ∨ ∃ u ∈ A, w ∈ adj u := by
    rw [take_of_length_le hend]
    rcases mem_append.1 hu with hu | hu
    · exact .inr ⟨u, hu, hw⟩
    · exact .inl (mem_singleton.1 hu ▸ hw)
  obtain ⟨hseen, hle⟩ := hpart.edges w hfrom
  by_cases hws : w ∈ t.stack
  · have hle := hle (hstack ▸ hws)
    have hrest := (hstack ▸ h.newer).around.2.2
    simp only [hstack, mem_append, mem_cons] at hws
    rcases hws with hws | rfl | hws
    · simp [hws]
    · simp
    · exact absurd (hlow ▸ hle) (hrest w hws).not_ge
  · exact .inr ⟨hseen, hws⟩

/-- No path leaves what has left the stack together with the part. -/
lemma Inv.stays (hu : u ∈ A ++ [v] ∨ t.Gone u) (hreach : Reach adj u w) :
    w ∈ A ++ [v] ∨ t.Gone w := by
  refine hreach.closed (P := fun x => x ∈ A ++ [v] ∨ t.Gone x) (fun x y hx hxy => ?_) hu
  rcases hx with hx | hx
  · exact h.edges_stay hstack hpart hend hlow hx hxy
  · exact .inr (h.done.closed x y hx hxy)

/-- Every node of the part reaches its root. -/
lemma Inv.reach_root (hu : u ∈ A ++ [v]) : Reach adj u v := by
  induction hk : num t.index u using Nat.strong_induction_on generalizing u with
  | _ k ih =>
    rcases mem_append.1 hu with huA | huv
    · obtain ⟨x, hx, hlt, hux⟩ := hpart.up u huA
      -- the older node cannot lie outside the part
      rcases h.stays hstack hpart hend hlow (.inl hu) hux with hxA | hgone
      · exact hux.trans (ih _ (hk ▸ hlt) hxA rfl)
      · exact absurd (hstack ▸ hx) hgone.2
    · exact mem_singleton.1 huv ▸ .refl u

/-- The part is a component. -/
lemma Inv.component (hu : u ∈ A ++ [v]) (w : Fin n) : w ∈ A ++ [v] ↔ Mutual adj u w := by
  have hmutual : ∀ x ∈ A ++ [v], Mutual adj v x := fun x hx => by
    refine ⟨?_, h.reach_root hstack hpart hend hlow hx⟩
    rcases mem_append.1 hx with hx | hx
    · exact hpart.down x hx
    · exact mem_singleton.1 hx ▸ .refl x
  constructor
  · exact fun hw => (hmutual u hu).symm.trans (hmutual w hw)
  · rintro ⟨huw, hwu⟩
    refine (h.stays hstack hpart hend hlow (.inl hu) huw).resolve_right fun hw => ?_
    have hgone : t.Gone u := hwu.closed h.done.closed hw
    exact hgone.2 (by rw [hstack]; rcases mem_append.1 hu with hu | hu <;> simp_all)

/-- The part leaves the stack. -/
lemma Inv.close (hparts : Parts adj t.index t.low call rest) : Inv adj { t with
      call := call
      stack := rest
      on := fun w => t.on w && w ∉ A ++ [v]
      out := t.out ++ [(A ++ [v]).mergeSort] } := by
  have hall : t.stack = A ++ [v] ++ rest := by simp [hstack]
  have hnodup : (A ++ [v] ++ rest).Nodup := hall ▸ h.newer.imp fun hlt heq => by simp [heq] at hlt
  obtain ⟨hnodup, -, hdisjoint⟩ := nodup_append.1 hnodup
  have hmem : ∀ u, u ∈ t.stack ↔ u ∈ A ++ [v] ∨ u ∈ rest := fun u => hall ▸ mem_append
  have hoff : ∀ u ∈ rest, u ∉ A ++ [v] := fun u hu huA => hdisjoint u huA u hu rfl
  refine ⟨hparts, (hstack ▸ h.newer).around.2.1, fun u hu => h.seen u ((hmem u).2 (.inr hu)),
    fun u => ?_, ?_⟩
  · change (t.on u && decide (u ∉ A ++ [v])) = true ↔ u ∈ rest
    rw [Bool.and_eq_true, decide_eq_true_iff, h.on_iff, hmem]
    exact ⟨fun hu => hu.1.resolve_left hu.2, fun hu => ⟨.inr hu, hoff u hu⟩⟩
  · have hdone := h.done.snoc (c := A ++ [v]) (by simp) hnodup
      (fun u hu hgone => hgone.2 ((hmem u).2 (.inl hu)))
      (fun u hu w hw => h.edges_stay hstack hpart hend hlow hu hw)
      fun u hu w => h.component hstack hpart hend hlow hu w
    -- what is off the stack now is the part and what was off it before
    convert hdone using 1
    funext u
    refine propext ⟨fun ⟨hseen, hu⟩ => ?_, ?_⟩
    · by_cases huA : u ∈ A ++ [v]
      · exact .inl huA
      · exact .inr ⟨hseen, fun hus => ((hmem u).1 hus).elim huA hu⟩
    · rintro (hu | ⟨hseen, hu⟩)
      · exact ⟨(h.seen u ((hmem u).2 (.inl hu))).1, fun hrest => hoff u hrest hu⟩
      · exact ⟨hseen, fun hrest => hu ((hmem u).2 (.inr hrest))⟩

end root

lemma popTo_append (rest : List (Fin n)) (hv : v ∉ A) :
    popTo v (A ++ v :: rest) = (A ++ [v], rest) := by
  induction A with
  | nil => simp [popTo]
  | cons u A ih =>
    obtain ⟨hne, hv⟩ := not_or.1 (mt mem_cons.2 hv)
    simp [popTo, Ne.symm hne, ih hv]

/-! ## The loop -/

/-- What a returning frame leaves to its caller: nothing if it is the root of a component, and
otherwise its part and its link. -/
lemma report_spec (hparts : Parts adj t.index t.low call rest)
    (hcaller : ∀ p ∈ call.head?, Reach adj p.1 v) (hpart : Part adj t.index t.low v i A rest)
    (hend : (adj v).length ≤ i) (hnewer : Newer t.index (A ++ v :: rest)) :
    ∃ low, { t with call := call }.report v = { t with call := call, low := low }
      ∧ low v = t.low v ∧
      (t.low v = num t.index v → low = t.low) ∧
      (t.low v < num t.index v → Parts adj t.index low call (A ++ v :: rest)) := by
  obtain ⟨-, hnewer', hbelow⟩ := hnewer.around
  cases hparts with
  | nil =>
    refine ⟨t.low, rfl, rfl, fun _ => rfl, fun hlt => ?_⟩
    obtain ⟨w, hw, hlink, -⟩ := hpart.link
    rw [mem_singleton.1 hw] at hlink
    exact absurd hlink hlt.ne'
  | @cons p j call B rest hparts hcaller' hp =>
    have hrest := hnewer'.around.2.2
    have hpv : num t.index p < num t.index v := hbelow p (by simp)
    have hne : v ≠ p := fun heq => lt_irrefl _ (heq ▸ hpv)
    refine ⟨_, rfl, Function.update_of_ne hne .., fun hroot => ?_, fun hlt => ?_⟩
    · have hle : t.low p ≤ t.low v := by
        have := hp.low_le hrest
        omega
      rw [min_eq_left hle, Function.update_eq_self]
    · have hmerged := hpart.merge hp (hcaller (p, j) rfl) hend hnewer hlt
      have hkept : ∀ u ∈ rest, u ≠ p := fun u hu hup => lt_irrefl _ (hup ▸ hrest u hu)
      have hbelow := hparts.congr (fun _ hu => hu) (fun _ _ => rfl) fun u hu =>
        Function.update_of_ne (hkept u hu) (min (t.low p) (t.low v)) t.low
      simpa using hbelow.cons hcaller' hmerged

section

variable (h : Inv adj t) (hcall : t.call = (v, i) :: call)
include h hcall

/-- Looking at the next edge keeps the invariant. -/
lemma Inv.follow (hw : (adj v)[i]? = some w) :
    Inv adj ({ t with call := (v, i + 1) :: call }.follow v w) := by
  have hparts : Parts adj t.index t.low ((v, i) :: call) t.stack := hcall ▸ h.parts
  have hedge : Arc adj v w := mem_of_getElem? hw
  unfold Tarjan.follow
  dsimp only
  split
  · next hnew =>
    have hentered := h.parts_enter hnew
    rw [hcall] at hentered
    refine h.enter hnew (hentered.advance hw ((enter_seen t w w).2 (.inl rfl)) fun hws => ?_) ?_
    · exact absurd rfl (h.ne_new hnew hws)
    · rintro p ⟨⟩
      exact hedge.reach
  · next k hk =>
    have hseen : (t.index w).isSome := by simp [hk]
    have hnum : num t.index w = k := by simp [num, hk]
    split
    · next hon =>
      have hlowered := hparts.lower h.newer ((h.on_iff w).1 hon) hedge.reach
      rw [hnum] at hlowered
      refine { h with parts := hlowered.advance hw hseen fun _ => ?_ }
      rw [Function.update_self, hnum]
      exact min_le_right _ _
    · next hon =>
      exact { h with parts := hparts.advance hw hseen fun hws => absurd ((h.on_iff w).2 hws) hon }

/-- Returning from a frame keeps the invariant. -/
lemma Inv.return (hw : (adj v)[i]? = none) :
    Inv adj (({ t with call := call }.report v).close v) := by
  have hend : (adj v).length ≤ i := getElem?_eq_none_iff.1 hw
  obtain ⟨A, rest, hstack, hparts, hcaller, hpart⟩ := (hcall ▸ h.parts).exists_part
  have hnewer : Newer t.index (A ++ v :: rest) := hstack ▸ h.newer
  obtain ⟨k, hk⟩ := Option.isSome_iff_exists.1 (h.seen v (by simp [hstack])).1
  have hnum : num t.index v = k := by simp [num, hk]
  obtain ⟨hA, -, hrest⟩ := hnewer.around
  obtain ⟨low, hreport, hself, hroot, hother⟩ := report_spec hparts hcaller hpart hend hnewer
  have hlow : some (low v) = t.index v ↔ t.low v = num t.index v := by simp [hself, hk, hnum]
  rw [hreport]
  unfold Tarjan.close
  split
  · next heq =>
    have hlow := hlow.1 heq
    rw [hstack, popTo_append rest fun hvA => lt_irrefl _ (hA v hvA), hroot hlow]
    exact h.close hstack hpart hend hlow hparts
  · next hne =>
    have hlt := lt_of_le_of_ne (hpart.low_le hrest) (mt hlow.2 hne)
    exact { h with parts := hstack ▸ hother hlt }

end

lemma Inv.step (h : Inv adj t) (hstep : step adj t = some t') : Inv adj t' := by
  unfold Tarjan.step at hstep
  split at hstep
  · cases hstep
  · next v i call hcall =>
    split at hstep
    · next w hw =>
      cases hstep
      exact h.follow hcall hw
    · next hw =>
      cases hstep
      exact h.return hcall hw

/-- A node once seen stays seen. -/
lemma step_seen (hstep : step adj t = some t') (hu : t.Seen u) : t'.Seen u := by
  unfold step at hstep
  split at hstep
  · cases hstep
  · next v i B hcall =>
    split at hstep
    · next w hw =>
      cases hstep
      unfold follow
      split
      · exact (enter_seen _ w u).2 (.inr hu)
      · split <;> exact hu
    · cases hstep
      simpa [Seen] using hu

/-- A visit leaves no open frame, and what it was asked to visit is seen. -/
lemma Inv.visit (h : Inv adj t) (hcall : t.call = []) (root : Fin n) :
    Inv adj (visit adj t root) ∧ (visit adj t root).call = [] ∧
      (visit adj t root).Seen root ∧ ∀ u, t.Seen u → (visit adj t root).Seen u := by
  unfold Tarjan.visit
  split
  · next hseen => exact ⟨h, hcall, Option.isSome_iff_ne_none.2 hseen, fun _ hu => hu⟩
  · next hnew =>
    have hnew : t.index root = none := not_not.1 hnew
    have hentered : Inv adj (t.enter root) := h.enter hnew (h.parts_enter hnew) (by simp [hcall])
    obtain ⟨⟨hinv, hseen⟩, hend⟩ := Machine.loop_spec (step_left)
      (P := fun s => Inv adj s ∧ ∀ u, (t.enter root).Seen u → s.Seen u)
      (fun s s' hs hstep => ⟨hs.1.step hstep, fun u hu => step_seen hstep (hs.2 u hu)⟩)
      (t.enter root) ⟨hentered, fun _ hu => hu⟩
    refine ⟨hinv, ?_, hseen root ((enter_seen t root root).2 (.inl rfl)),
      fun u hu => hseen u ((enter_seen t root u).2 (.inr hu))⟩
    unfold Tarjan.step at hend
    split at hend
    · assumption
    · split at hend <;> cases hend

/-- After all visits everything has been seen and the stack is empty. -/
lemma inv_visits (adj : Fin n → List (Fin n)) (roots : List (Fin n)) :
    Inv adj (roots.foldl (visit adj) {}) ∧
    (roots.foldl (visit adj) {}).call = [] ∧
      ∀ u ∈ roots, (roots.foldl (visit adj) {}).Seen u := by
  induction roots using reverseRecOn with
  | nil => exact ⟨inv_start, rfl, nofun⟩
  | append_singleton roots root ih =>
    obtain ⟨hinv, hcall, hseen⟩ := ih
    rw [foldl_append]
    obtain ⟨hinv', hcall', hroot, hkept⟩ := hinv.visit hcall root
    refine ⟨hinv', hcall', fun u hu => ?_⟩
    rcases mem_append.1 hu with hu | hu
    · exact hkept u (hseen u hu)
    · exact mem_singleton.1 hu ▸ hroot

end Tarjan

/-- The lists are the strongly connected components: every node is in exactly one of them, each
is sorted, and two nodes share a list exactly when each reaches the other. -/
lemma tarjan_components (adj : Fin n → List (Fin n)) :
    (tarjan adj).flatten.Perm (finRange n) ∧
      ∀ c ∈ tarjan adj, c ≠ [] ∧ c.Pairwise (· < ·) ∧ ∀ u ∈ c, ∀ w, w ∈ c ↔ Mutual adj u w := by
  obtain ⟨hinv, hcall, hseen⟩ := Tarjan.inv_visits adj (finRange n)
  have hstack : ((finRange n).foldl (Tarjan.visit adj) {}).stack = [] := by
    have hparts := hinv.parts
    rw [hcall] at hparts
    generalize ((finRange n).foldl (Tarjan.visit adj) {}).stack = stack at hparts
    cases hparts
    rfl
  refine ⟨?_, hinv.done.components⟩
  refine (perm_ext_iff_of_nodup hinv.done.nodup (nodup_finRange n)).2 fun u => ?_
  rw [hinv.done.mem]
  exact ⟨fun _ => mem_finRange u, fun hu => ⟨hseen u hu, by simp [hstack]⟩⟩

end Index
