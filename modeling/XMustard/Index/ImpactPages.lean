import XMustard.Index.ImpactWalk
import XMustard.Lists.Order

/-! # Paging through an impact answer

Each page is a query of its own, with its own limit and its own walk. The pages of a tier, each
asked for at the offset the last one names, list the tier's nodes once each. -/

namespace Index

open List Graph Fallible

namespace Impacting

variable {g : ImpactGraph} {q : Query} {seeds : List Node} {late : Nat → Bool} {w w' : Walk}
  {d limit offset : Nat} {frontier : List (Node × Float × Bool)}

/-- The query for another page. -/
def Query.page (q : Query) (limit offset : Nat) : Query :=
  { q with limit := limit, offset := offset }

/-! ## The walk does not depend on the page -/

lemma followEdges_page {layer : String} {u : Node} {conf : Float} {inScope : Bool}
    {es : List Edge} : followEdges g (q.page limit offset) layer u conf inScope d es w
      = followEdges g q layer u conf inScope d es w := by
  induction es generalizing w with
  | nil => rfl
  | cons e es ih =>
    simp only [followEdges, ih]
    rfl

lemma followNodes_page :
    followNodes g (q.page limit offset) late d frontier w
      = followNodes g q late d frontier w := by
  induction frontier generalizing w with
  | nil => rfl
  | cons x frontier ih =>
    simp only [followNodes, ih, followEdges_page]
    rfl

lemma levels_page {fuel : Nat} :
    levels g (q.page limit offset) late fuel d frontier w = levels g q late fuel d frontier w := by
  induction fuel generalizing d frontier w with
  | zero => rfl
  | succ fuel ih => simp only [levels, ih, followNodes_page]

lemma walk_page : walk g (q.page limit offset) seeds late = walk g q seeds late := by
  simp only [walk, levels_page]
  rfl

/-! ## Tiers -/

/-- The rows of the nodes reached at `depth`, in the order in which they were reached. -/
def rowsAt (depth : Nat) (xs : List (Reached × Nat)) : List Row :=
  (xs.filter (·.1.depth = depth)).map fun x => (x.1.key, x.2)

lemma getD_append_replicate (tiers : List (List Row)) (n : Nat) :
    ((tiers ++ replicate n [])[d]?).getD [] = (tiers[d]?).getD [] := by
  rcases Nat.lt_or_ge d tiers.length with hlt | hge
  · rw [getElem?_append_left hlt]
  · rw [getElem?_append_right hge, getElem?_eq_none hge, getElem?_replicate]
    split <;> rfl

lemma getD_addRow (tiers : List (List Row)) {x : Reached × Nat} (hx : 1 ≤ x.1.depth) :
    ((addRow tiers x)[d]?).getD [] = (tiers[d]?).getD [] ++ rowsAt (d + 1) [x] := by
  have hpad := getD_append_replicate (d := d) tiers (x.1.depth - tiers.length)
  unfold addRow
  rw [getElem?_modify]
  by_cases hd : x.1.depth = d + 1
  · have hlt : d < (tiers ++ replicate (x.1.depth - tiers.length) []).length := by
      simp only [length_append, length_replicate]
      omega
    rw [getElem?_eq_getElem hlt] at hpad ⊢
    simp only [hd, Nat.add_sub_cancel, if_true, Option.map_eq_map, Option.map_some,
      Option.getD_some, rowsAt] at hpad ⊢
    rw [hpad]
    simp [hd]
  · have hne : ¬x.1.depth - 1 = d := by omega
    simp only [hne, if_false, Option.map_eq_map, Option.map_id', hpad]
    simp [rowsAt, hd]

/-- The tiers hold the rows of the reached nodes by depth. -/
lemma getD_perDepth (h : ∀ r ∈ w.reached, 1 ≤ r.depth) :
    ((perDepth w)[d]?).getD [] = rowsAt (d + 1) w.reached.zipIdx := by
  have hfold : ∀ xs : List (Reached × Nat), (∀ x ∈ xs, 1 ≤ x.1.depth) → ∀ tiers,
      ((xs.foldl addRow tiers)[d]?).getD [] = (tiers[d]?).getD [] ++ rowsAt (d + 1) xs := by
    intro xs
    induction xs with
    | nil => simp [rowsAt]
    | cons x xs ih =>
      intro hxs tiers
      rw [foldl_cons, ih (fun x hx => hxs x (mem_cons_of_mem _ hx)),
        getD_addRow tiers (hxs x (by simp)), append_assoc]
      simp [rowsAt, ← map_append, ← filter_append]
  have hall : ∀ x ∈ w.reached.zipIdx, 1 ≤ x.1.depth := fun x hx =>
    h x.1 (fst_mem_of_mem_zipIdx hx)
  simpa [perDepth] using hfold _ hall []

/-- The rows of a tier as it lists them. -/
def tierRows (w : Walk) (depth : Nat) : List Row :=
  (rowsAt depth w.reached.zipIdx).mergeSort rowLe

/-- The nodes of a tier in the order in which it lists them. -/
def tierOrder (w : Walk) (depth : Nat) : List Reached :=
  (tierRows w depth).filterMap fun r => w.reached[r.2]?

variable {depth : Nat} {x : List Row × Nat} {items : List Item}

lemma tierRows_place {row : Row} (h : row ∈ tierRows w depth) :
    ∃ r ∈ w.reached, w.reached[row.2]? = some r := by
  have hrow := (mergeSort_perm _ _).mem_iff.1 h
  obtain ⟨x, hx, rfl⟩ := mem_map.1 hrow
  have hget := mem_zipIdx_iff_getElem?.1 (mem_filter.1 hx).1
  exact ⟨x.1, mem_of_getElem? hget, hget⟩

lemma tierOrder_perm (w : Walk) (depth : Nat) :
    (tierOrder w depth).Perm (w.reached.filter (·.depth = depth)) := by
  have hperm := (mergeSort_perm (rowsAt depth w.reached.zipIdx) rowLe).filterMap
    fun r => w.reached[r.2]?
  refine hperm.trans (List.Perm.of_eq ?_)
  calc (rowsAt depth w.reached.zipIdx).filterMap (fun r => w.reached[r.2]?)
      = (w.reached.zipIdx.filter (·.1.depth = depth)).filterMap fun x => w.reached[x.2]? := by
        rw [rowsAt, filterMap_map]
        rfl
    _ = (w.reached.zipIdx.filter (·.1.depth = depth)).filterMap fun x => some x.1 := by
        refine filterMap_congr fun x hx => ?_
        exact mem_zipIdx_iff_getElem?.1 (mem_filter.1 hx).1
    _ = (w.reached.zipIdx.map Prod.fst).filter (·.depth = depth) := by
        rw [filter_map]
        exact congrFun filterMap_eq_map _
    _ = w.reached.filter (·.depth = depth) := by rw [zipIdx_map_fst]

/-- Listing by place is listing the nodes. -/
lemma mapM_itemAt {rows : List Row} (h : ∀ r ∈ rows, ∃ x ∈ w.reached, w.reached[r.2]? = some x) :
    (rows.map (·.2)).mapM (itemAt g w)
      = (rows.filterMap fun r => w.reached[r.2]?).mapM (item g) := by
  induction rows with
  | nil => rfl
  | cons r rows ih =>
    obtain ⟨x, -, hx⟩ := h r (by simp)
    have hitem : itemAt g w r.2 = item g x := by simp [itemAt, hx]
    have hrest := ih fun r hr => h r (mem_cons_of_mem _ hr)
    rw [map_cons, mapM_cons, hrest, hitem, filterMap_cons, hx]
    exact mapM_cons.symm

/-! ## Pages -/

lemma Reaches.depth_pos {n : Nat} (h : Reaches g q seeds n w) :
    ∀ r ∈ w.reached, 1 ≤ r.depth := fun r hr =>
  ((h.reached r.node r.depth).1 ⟨r, hr, rfl, rfl⟩).1

/-- The rows on a tier's page. -/
def pageRows (w : Walk) (depth limit offset : Nat) : List Row :=
  ((tierRows w depth).drop offset).take limit

/-- The offset of the page after the one at `offset`. -/
def nextPage (w : Walk) (depth limit offset : Nat) : Option Nat :=
  let stop := offset + (pageRows w depth limit offset).length
  if stop < (tierRows w depth).length then some stop else none

lemma tier_eq (hw : ∀ r ∈ w.reached, 1 ≤ r.depth)
    (hx : x ∈ (perDepth w).zipIdx) :
    tier g (q.page limit offset) w x.2 x.1 = (do
      let items ← pageItems g q w ((pageRows w (x.2 + 1) limit offset).map (·.2))
      return {
        depth := x.2 + 1
        label := tierLabel q.direction (x.2 + 1)
        total := (tierRows w (x.2 + 1)).length
        offset := offset
        items := items
        nextOffset := nextPage w (x.2 + 1) limit offset }) := by
  have hget := mem_zipIdx_iff_getElem?.1 hx
  have hrows := getD_perDepth (d := x.2) hw
  rw [hget, Option.getD_some] at hrows
  rw [tier, hrows]
  simp only [pageRows, nextPage, tierRows, length_map]
  rfl

/-- What a tier of an answer holds: a page of the tier's order and where the next one starts. -/
lemma run_tier (hw : walk g q seeds late = .ok w) (htrunc : w.truncated = false)
    (htime : w.timedOut = false) {late' : Nat → Bool} {out : Impact}
    (hrun : run g (q.page limit offset) seeds late' = .ok out) (houttime : out.timedOut = false)
    {t : Tier} (ht : t ∈ out.byDepth) (hdepth : t.depth = depth)
    (hitems : t.items = some items) :
    ((pageRows w depth limit offset).map (·.2)).mapM (itemAt g w) = .ok items ∧
      t.nextOffset = nextPage w depth limit offset := by
  obtain ⟨w', hw', hrun⟩ := bind_eq_ok.1 hrun
  obtain ⟨tiers, htiers, hrun⟩ := bind_eq_ok.1 hrun
  cases hrun
  -- both walks ran to the end, so they are the same walk
  obtain rfl : w = w' := by
    rw [walk_page] at hw'
    have heq := (walk_unclocked hw htime).symm.trans (walk_unclocked hw' houttime)
    exact Except.ok.inj heq
  obtain ⟨x, hx, htier⟩ := Lists.forall₂_right (Lists.mapM_eq_ok htiers) ht
  rw [tier_eq (walk_reaches hw htrunc htime).depth_pos hx] at htier
  obtain ⟨items', hitems', htier⟩ := bind_eq_ok.1 htier
  cases htier
  subst hitems hdepth
  unfold pageItems at hitems'
  split at hitems'
  · cases hitems'
  · obtain ⟨items', hpage, hitems'⟩ := bind_eq_ok.1 hitems'
    cases Except.ok.inj hitems'
    exact ⟨hpage, rfl⟩

/-- Asking for the pages of the tier at `depth` from `offset` on, each at the offset the last one
names, with the given limits, lists `items`. -/
inductive Pages (g : ImpactGraph) (q : Query) (seeds : List Node) (depth : Nat) :
    Nat → List Nat → List Item → Prop
  | last {offset limit : Nat} {late : Nat → Bool} {out : Impact} {t : Tier} {items : List Item}
    (hrun : run g (q.page limit offset) seeds late = .ok out) (htrunc : out.truncated = false)
    (htime : out.timedOut = false) (ht : t ∈ out.byDepth) (hdepth : t.depth = depth)
    (hitems : t.items = some items) (hnext : t.nextOffset = none) :
    Pages g q seeds depth offset [limit] items
  | more {offset limit next : Nat} {late : Nat → Bool} {out : Impact} {t : Tier}
    {items later : List Item} {limits : List Nat}
    (hrun : run g (q.page limit offset) seeds late = .ok out) (htrunc : out.truncated = false)
    (htime : out.timedOut = false) (ht : t ∈ out.byDepth) (hdepth : t.depth = depth)
    (hitems : t.items = some items) (hnext : t.nextOffset = some next)
    (hrest : Pages g q seeds depth next limits later) :
    Pages g q seeds depth offset (limit :: limits) (items ++ later)

lemma nextPage_eq_none (h : nextPage w depth limit offset = none) :
    pageRows w depth limit offset = (tierRows w depth).drop offset := by
  unfold nextPage pageRows at h
  simp only [length_take, length_drop, ite_eq_right_iff, reduceCtorEq, imp_false] at h
  refine take_of_length_le ?_
  rw [length_drop]
  omega

lemma nextPage_eq_some {next : Nat} (h : nextPage w depth limit offset = some next) :
    pageRows w depth limit offset ++ (tierRows w depth).drop next = (tierRows w depth).drop offset ∧
      next = offset + limit ∧ next < (tierRows w depth).length := by
  unfold nextPage pageRows at h
  simp only [length_take, length_drop, Option.ite_none_right_eq_some,
    Option.some.injEq] at h
  obtain rfl : next = offset + limit := by omega
  refine ⟨?_, rfl, by omega⟩
  rw [← drop_drop]
  exact take_append_drop ..

/-- Following the pages from an offset lists the rest of the tier. -/
lemma Pages.items_eq (hw : walk g q seeds late = .ok w) (htrunc : w.truncated = false)
    (htime : w.timedOut = false) {limits : List Nat}
    (h : Pages g q seeds depth offset limits items) :
    (((tierRows w depth).drop offset).map (·.2)).mapM (itemAt g w) = .ok items := by
  induction h with
  | last hrun _ hout ht hdepth hitems hnext =>
    obtain ⟨hpage, hnext'⟩ := run_tier hw htrunc htime hrun hout ht hdepth hitems
    rwa [nextPage_eq_none (hnext'.symm.trans hnext)] at hpage
  | more hrun _ hout ht hdepth hitems hnext _ ih =>
    obtain ⟨hpage, hnext'⟩ := run_tier hw htrunc htime hrun hout ht hdepth hitems
    rw [← (nextPage_eq_some (hnext'.symm.trans hnext)).1, map_append]
    exact mapM_append_ok hpage ih

lemma exists_tier (hw : ∀ r ∈ w.reached, 1 ≤ r.depth) (hsummary : q.summaryOnly = false)
    (hitem : ∀ r ∈ w.reached, ∃ i, item g r = .ok i)
    (hx : x ∈ (perDepth w).zipIdx) :
    ∃ t items, tier g (q.page limit offset) w x.2 x.1 = .ok t ∧ t.depth = x.2 + 1 ∧
      t.items = some items ∧ t.nextOffset = nextPage w (x.2 + 1) limit offset := by
  have hplaces : ∀ i ∈ (pageRows w (x.2 + 1) limit offset).map (·.2),
      ∃ y, itemAt g w i = .ok y := by
    intro i hi
    obtain ⟨row, hrow, rfl⟩ := mem_map.1 hi
    obtain ⟨r, hr, hget⟩ := tierRows_place (mem_of_mem_drop (mem_of_mem_take hrow))
    obtain ⟨y, hy⟩ := hitem r hr
    exact ⟨y, by simp [itemAt, hget, hy]⟩
  obtain ⟨items, hitems⟩ := exists_mapM_ok hplaces
  rw [tier_eq hw hx, pageItems, hsummary, hitems]
  exact ⟨_, items, rfl, rfl, rfl, rfl⟩

/-- A tier that lists something is a tier of the answer. -/
lemma tierRows_mem (hw : ∀ r ∈ w.reached, 1 ≤ r.depth)
    (h : tierRows w depth ≠ []) : ∃ x ∈ (perDepth w).zipIdx, x.2 + 1 = depth := by
  have hrows : rowsAt depth w.reached.zipIdx ≠ [] := fun hnil => h (by simp [tierRows, hnil])
  obtain ⟨row, hrow⟩ := exists_mem_of_ne_nil _ hrows
  obtain ⟨x, hx, -⟩ := mem_map.1 hrow
  obtain ⟨hx, hdepth⟩ := mem_filter.1 hx
  have hpos := hw x.1 (fst_mem_of_mem_zipIdx hx)
  obtain ⟨d, rfl⟩ : ∃ d, depth = d + 1 := ⟨depth - 1, by simp at hdepth; omega⟩
  rw [← getD_perDepth hw] at hrows
  cases hget : (perDepth w)[d]? with
  | none => simp [hget] at hrows
  | some rows => exact ⟨(rows, d), mem_zipIdx_iff_getElem?.2 hget, rfl⟩

section

variable (hw : walk g q seeds late = .ok w) (htrunc : w.truncated = false)
  (htime : w.timedOut = false) (hsummary : q.summaryOnly = false)
  (hitem : ∀ r ∈ w.reached, ∃ i, item g r = .ok i) (htier : tierRows w depth ≠ [])
include hw htrunc htime hsummary hitem htier

/-- Every tier of a walk that is not cut short has a page for every limit and offset. -/
lemma exists_run_tier (limit offset : Nat) :
    ∃ out t items, run g (q.page limit offset) seeds late = .ok out ∧ out.truncated = false ∧
      out.timedOut = false ∧ t ∈ out.byDepth ∧ t.depth = depth ∧ t.items = some items ∧
      t.nextOffset = nextPage w depth limit offset := by
  have hpos := (walk_reaches hw htrunc htime).depth_pos
  obtain ⟨x, hx, rfl⟩ := tierRows_mem hpos htier
  obtain ⟨ts, hts⟩ : ∃ ts, tiers g (q.page limit offset) w = .ok ts := exists_mapM_ok fun x hx => by
    obtain ⟨t, -, ht, -⟩ := exists_tier hpos hsummary hitem hx
    exact ⟨t, ht⟩
  obtain ⟨t, ht, htx⟩ := Lists.forall₂_left (Lists.mapM_eq_ok hts) hx
  obtain ⟨t', items, ht', hdepth, hitems, hnext⟩ := exists_tier hpos hsummary hitem hx
  cases htx.symm.trans ht'
  have hwalk : walk g (q.page limit offset) seeds late = .ok w := walk_page.trans hw
  obtain ⟨out, hrun, hby, houttrunc, houttime⟩ : ∃ out,
      run g (q.page limit offset) seeds late = .ok out ∧ out.byDepth = ts ∧
        out.truncated = w.truncated ∧ out.timedOut = w.timedOut :=
    ⟨_, bind_eq_ok.2 ⟨w, hwalk, bind_eq_ok.2 ⟨ts, hts, rfl⟩⟩, rfl, rfl, rfl⟩
  exact ⟨out, t, items, hrun, houttrunc.trans htrunc, houttime.trans htime, hby ▸ ht, hdepth,
    hitems, hnext⟩

/-- Pages of at least one item come to an end. -/
lemma exists_pages (limits : Nat → Nat) (hlimits : ∀ k, 1 ≤ limits k) :
    ∃ n items, Pages g q seeds depth offset ((range n).map limits) items := by
  -- what is left of the tier gets smaller with every page
  induction hleft : (tierRows w depth).length - offset using Nat.strong_induction_on
    generalizing offset limits with
  | _ left ih =>
    obtain ⟨out, t, items, hrun, houttrunc, houttime, ht, hdepth, hitems, hnext⟩ :=
      exists_run_tier hw htrunc htime hsummary hitem htier (limits 0) offset
    cases hpage : nextPage w depth (limits 0) offset with
    | none =>
      exact ⟨1, items, .last hrun houttrunc houttime ht hdepth hitems (hnext.trans hpage)⟩
    | some next =>
      obtain ⟨-, hstep, hlt⟩ := nextPage_eq_some hpage
      have hpos := hlimits 0
      obtain ⟨n, later, hrest⟩ := ih ((tierRows w depth).length - next) (by omega)
        (fun k => limits (k + 1)) (fun k => hlimits (k + 1)) rfl
      refine ⟨n + 1, items ++ later, ?_⟩
      rw [range_succ_eq_map, map_cons, List.map_map]
      exact .more hrun houttrunc houttime ht hdepth hitems (hnext.trans hpage) hrest

end

/-- A walk that is not cut short reaches exactly the nodes whose distance from the seeds is between
1 and the depth asked for, each once and at its distance. Each tier has an order in which its pages
list it, whatever their limits, and pages of at least one item list it to the end. -/
theorem impact_reaches_and_pages (hw : walk g q seeds late = .ok w) (htrunc : w.truncated = false)
    (htime : w.timedOut = false) :
    (w.reached.map (·.node)).Nodup ∧
      (∀ v d, (∃ r ∈ w.reached, r.node = v ∧ r.depth = d) ↔
        1 ≤ d ∧ d ≤ q.maxDepth ∧ AtDistance (· ∈ seeds) (Hop g q) d v) ∧
      ∀ d, ∃ order : List Reached, order.Perm (w.reached.filter (·.depth = d)) ∧
        (∀ limits items, Pages g q seeds d 0 limits items → order.mapM (item g) = .ok items) ∧
        (order ≠ [] → q.summaryOnly = false → (∀ r ∈ w.reached, ∃ i, item g r = .ok i) →
          ∀ limits : Nat → Nat, (∀ k, 1 ≤ limits k) →
            ∃ n items, Pages g q seeds d 0 ((range n).map limits) items) := by
  have hreaches := walk_reaches hw htrunc htime
  refine ⟨hreaches.nodup, hreaches.reached, fun d => ⟨tierOrder w d, tierOrder_perm w d, ?_, ?_⟩⟩
  · intro limits items hpages
    have hitems := hpages.items_eq hw htrunc htime
    rw [drop_zero, mapM_itemAt fun row hrow => tierRows_place hrow] at hitems
    exact hitems
  · intro horder hsummary hitem limits hlimits
    have htier : tierRows w d ≠ [] := fun hnil => horder (by simp [tierOrder, hnil])
    exact exists_pages hw htrunc htime hsummary hitem htier limits hlimits

def depEdge : Edge := ⟨1, 1, 0, 0, 0, 0, 0, 255⟩

/-- Two symbols, of which the second depends on the first. -/
def depGraph : ImpactGraph where
  path file := if file = 0 then "main.go" else "util.go"
  fileOf node := .ok node
  symbol _ := .ok none
  edges node dir := .ok (if node = 0 ∧ dir = .upstream then [depEdge] else [])
  labels _ := ⟨"CALLS", "symbol", "scope", "call", ""⟩
  resolved _ := true
  isTest _ := false
  key node := .ok ⟨node, 1, none⟩

def depQuery : Query := ⟨.upstream, 3, ⟨15⟩, 0.0, false, 50, 0, false⟩

lemma depGraph_walk : ∃ w, walk depGraph depQuery [0] (fun _ => false) = .ok w ∧
    w.truncated = false ∧ w.timedOut = false ∧ w.reached.map (fun r => (r.node, r.depth))
      = [(1, 1)] := by
  have hconf (c : UInt8) : ¬depEdge.confidence < c :=
    UInt8.not_lt.2 (UInt8.le_iff_toNat_le.2 (Nat.le_of_lt_succ c.toNat_lt))
  -- the one edge is followed at the first level; the confidence asked for is a `Float`
  change ∃ w, ((followEdges depGraph depQuery "symbol" 0 1.0 true 1 [depEdge]
    { resolved := true, visited := {0}, seenCount := 1, ticks := 1 } >>= _) >>= _) = .ok w ∧ _
  rw [followEdges, if_neg (hconf _)]
  exact ⟨_, rfl, rfl, rfl, rfl⟩

theorem impact_reaches_depGraph : ∃ w, walk depGraph depQuery [0] (fun _ => false) = .ok w ∧
    ∃ r ∈ w.reached, r.node = 1 ∧ r.depth = 1 ∧
      AtDistance (· ∈ [0]) (Hop depGraph depQuery) 1 1 := by
  obtain ⟨w, hw, htrunc, htime, hreached⟩ := depGraph_walk
  obtain ⟨-, hiff, -⟩ := impact_reaches_and_pages hw htrunc htime
  obtain ⟨r, hr, heq⟩ : ∃ r ∈ w.reached, (r.node, r.depth) = (1, 1) := by
    have hmem : (1, 1) ∈ w.reached.map fun r => (r.node, r.depth) := by simp [hreached]
    exact mem_map.1 hmem
  obtain ⟨hnode, hdepth⟩ := Prod.mk.inj heq
  exact ⟨w, hw, r, hr, hnode, hdepth, ((hiff 1 1).1 ⟨r, hr, hnode, hdepth⟩).2.2⟩

end Impacting

end Index
