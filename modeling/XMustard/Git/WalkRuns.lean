import XMustard.Git.WalkBounds

/-! # Runs of the walk

Every turn of the walk does some of what is left, and keeps its order: what is still to be visited
comes after what the cursor has passed. So the walk ends, and by then it has handed over the
listing of the tree, or a first part of it. -/

namespace Git

open List Text Lists

variable {j : Job} {rules : List Rule} {ex : Bool} {path : Bytes} {node : Node} {w w' : Walk}

/-! ### Every turn does some of what is left -/

lemma sum_sortedChildren (children : Children) :
    ((sortedChildren children).map fun c => c.2.size).sum ≤ Node.sizes children := by
  rw [sortedChildren, ((perm_insertionSort _ _).map _).sum_eq, map_map, Node.sizes_eq]
  exact (filter_sublist.map _).sum_le_sum fun _ _ => Nat.zero_le _

variable {fault : Option Reason} {children : Children}

lemma Walk.descend_weight (hw : w.ended = none) (excluded : Bool) :
    (w.descend j path children fault excluded).weight
      < w.weight + (Node.dir children fault).size := by
  unfold Walk.descend
  obtain henter | ⟨⟨why, henter⟩, -⟩ := Walk.enter_yields j w path children fault excluded
  · have hsum := sum_sortedChildren children
    simp only [henter, Walk.inside, Walk.weight, hw, Frame.weight, Node.size, map_cons, sum_cons,
      Option.isSome_none, Bool.false_eq_true, if_false]
    omega
  · have hpos := (Node.dir children fault).size_pos
    simp only [henter, Walk.weight, Option.isSome_some, if_true]
    omega

lemma Walk.perform_weight (hw : w.ended = none) (a : Action) :
    (w.perform j path node a).weight < w.weight + node.size := by
  have hpos := node.size_pos
  have hsame : ∀ v : Walk, v.stack = w.stack → v.weight < w.weight + node.size := by
    intro v hv
    simp only [Walk.weight, hw, hv, Option.isSome_none, Bool.false_eq_true, if_false]
    split_ifs <;> omega
  cases a with
  | skip => exact hsame w rfl
  | report xy =>
    refine hsame _ ?_
    unfold Walk.perform Walk.report Walk.emit
    split_ifs <;> rfl
  | descend excluded =>
    cases node with
    | dir children fault => exact Walk.descend_weight hw excluded
    | _ => exact hsame w rfl

/-- A visit ends the walk, or does one thing at its path. -/
lemma Walk.visit_cases (j : Job) (w : Walk) (ex : Bool) (path : Bytes) (node : Node) :
    (w.visit j ex path node).ended.isSome ∨
      ∃ c a, w.visit j ex path node = Walk.perform j { w with cursor := c } path node a := by
  unfold Walk.visit
  split_ifs
  · exact .inr ⟨w.cursor, .skip, rfl⟩
  cases w.cursor.advance path with
  | error r => exact .inl rfl
  | ok c =>
    refine .inr ⟨c, ?_⟩
    cases node with
    | dir children fault =>
      simp only [Walk.visitDir]
      split_ifs
      exacts [⟨.skip, rfl⟩, ⟨.descend _, rfl⟩, ⟨.skip, rfl⟩, ⟨.report _, rfl⟩, ⟨.report _, rfl⟩,
        ⟨.descend _, rfl⟩]
    | file _ | symlink =>
      simp only [Walk.visitFile]
      split_ifs
      exacts [⟨.skip, rfl⟩, ⟨.report _, rfl⟩]
    | special => exact ⟨.skip, rfl⟩

lemma Walk.visit_weight (hw : w.ended = none) :
    (w.visit j ex path node).weight < w.weight + node.size := by
  obtain hended | ⟨c, a, hvisit⟩ := Walk.visit_cases j w ex path node
  · have hpos := node.size_pos
    rw [Walk.weight, if_pos hended]
    omega
  · rw [hvisit]
    exact Walk.perform_weight (w := { w with cursor := c }) hw a

theorem Walk.step_weight (h : w.step j = some w') : w'.weight < w.weight := by
  unfold Walk.step at h
  split_ifs at h with hended
  cases h
  have hw : w.ended = none := by simpa using hended
  unfold Walk.turn
  cases hstack : w.stack with
  | nil => simp [Walk.weight, hw]
  | cons frame stack =>
    dsimp only
    split_ifs
    · simp [Walk.weight, hw]
    · cases hchildren : frame.children with
      | nil => simp [Walk.weight, hw, hstack, Frame.weight]
      | cons c children =>
        refine lt_of_lt_of_eq (Walk.visit_weight hw) ?_
        simp only [Walk.weight, hw, hstack, Frame.weight, hchildren, map_cons, sum_cons,
          Option.isSome_none, Bool.false_eq_true, if_false]
        omega

/-! ### The order of the visits -/

variable {bound : Bytes} {f : Frame} {fs : List Frame} {c : Child} {cs : List Child} {n held : ℕ}

/-- The children still to be visited are in order, well formed and not before `bound`. -/
structure Frame.Ready (bound : Bytes) (f : Frame) : Prop where
  sorted : f.children.Pairwise Child.Before
  child : ∀ c ∈ f.children, c.2.WellFormed ∧ c.1 ≠ [] ∧ ¬f.path ++ c.1 < bound

/-- What is still to be visited comes in the order of the paths, and not before `bound`. -/
structure Ordered (bound : Bytes) (stack : List Frame) : Prop where
  frames : ∀ f ∈ stack, f.Ready bound
  across : stack.Pairwise fun upper lower =>
    ∀ c ∈ lower.children, ∀ x, upper.path ++ x < lower.path ++ c.1

lemma Ordered.pop (h : Ordered bound (f :: fs)) : Ordered bound fs :=
  ⟨(forall_mem_cons.1 h.frames).2, (pairwise_cons.1 h.across).2⟩

/-- Once a child is visited, the others come after it. -/
lemma Ordered.next (h : Ordered bound (f :: fs)) (hf : f.children = c :: cs) :
    Ordered (f.path ++ c.1) ({ f with children := cs } :: fs) := by
  obtain ⟨⟨hsorted, hchild⟩, hframes⟩ := forall_mem_cons.1 h.frames
  rw [hf] at hsorted hchild
  obtain ⟨hbefore, hrest⟩ := pairwise_cons.1 hsorted
  obtain ⟨habove, hacross⟩ := pairwise_cons.1 h.across
  refine ⟨forall_mem_cons.2
    ⟨⟨hrest, fun d hd => ?_⟩, fun g hg => ⟨(hframes g hg).sorted, fun d hd => ?_⟩⟩,
    pairwise_cons.2 ⟨habove, hacross⟩⟩
  · obtain ⟨hwf, hkey, -⟩ := hchild d (mem_cons_of_mem _ hd)
    exact ⟨hwf, hkey, ((append_lt_append_iff f.path).2 (hbefore d hd).1).not_gt⟩
  · obtain ⟨hwf, hkey, -⟩ := (hframes g hg).child d hd
    exact ⟨hwf, hkey, (habove g hg d hd c.1).not_gt⟩

/-- The frame of a directory. -/
lemma Frame.ready_sortedChildren {excluded : Bool}
    (h : (Node.dir children fault).WellFormed) :
    Frame.Ready path ⟨path, sortedChildren children, n, excluded, held⟩ := by
  obtain ⟨hnames, heach⟩ : (children.map (·.1)).Nodup ∧ ∀ x ∈ children, x.2.WellFormed := by
    cases h with
    | dir hnames heach => exact ⟨hnames, heach⟩
  refine ⟨sortedChildren_pairwise hnames, fun d hd => ?_⟩
  obtain ⟨x, hx, -, rfl⟩ := mem_sortedChildren.1 hd
  exact ⟨heach x hx, keyOf_ne_nil x.1 x.2, not_append_lt _ _⟩

variable {excluded : Bool}

/-- Everything below a directory comes after its own path and before the children of its parent
that follow it. -/
lemma Ordered.descend
    (h : Ordered bound (f :: fs)) (hf : f.children = c :: cs) (hc : c.2 = .dir children fault) :
    Ordered (f.path ++ c.1) (⟨f.path ++ c.1, sortedChildren children, n, excluded, held⟩ ::
      { f with children := cs } :: fs) := by
  have hnext := h.next hf
  obtain ⟨hsorted, hchild⟩ := h.frames f mem_cons_self
  rw [hf] at hsorted hchild
  obtain ⟨hbefore, -⟩ := pairwise_cons.1 hsorted
  obtain ⟨habove, -⟩ := pairwise_cons.1 h.across
  have hwf := hc ▸ (hchild c mem_cons_self).1
  refine ⟨forall_mem_cons.2 ⟨Frame.ready_sortedChildren hwf, hnext.frames⟩,
    pairwise_cons.2 ⟨fun g hg d hd x => ?_, hnext.across⟩⟩
  rw [append_assoc]
  rcases mem_cons.1 hg with rfl | hg
  · obtain ⟨hlt, hstart⟩ := hbefore d hd
    have hdir : c.2.isDir := by rw [hc, Node.isDir]
    rw [append_lt_append_iff]
    simpa using append_lt_append hlt (hstart hdir) x []
  · exact habove g hg d hd (c.1 ++ x)

/-! ### What a run keeps -/

variable {full : List StatusEntry}

/-- What is still to be listed. -/
def Job.todo (j : Job) : List Rule → List Frame → List StatusEntry
  | _, [] => []
  | rules, f :: fs =>
    j.listingIn rules f.excluded f.path f.children ++ j.todo (rules.take f.rulesFrom) fs

/-- A walk on its way to list `full`, of which `pending` comes next. -/
structure Walk.OnTheWay (j : Job) (full pending : List StatusEntry) (w : Walk) : Prop where
  ordered : ∃ bound, Ordered bound w.stack ∧ w.cursor.Behind j.ix bound
  listing : w.listed ++ (pending ++ j.todo w.rules w.stack) = full
  fits : j.Fits → StackFits j.repo.ignoreCase w.held w.rules w.stack

/-- A walk that was to list `full` and has ended. -/
structure Walk.Over (j : Job) (full : List StatusEntry) (w : Walk)
    (r : Except Refusal (Option Reason)) : Prop where
  initial : w.listed <+: full
  complete : r = .ok none → w.listed = full ∨ j.breaks w.listed = true
  fits : j.Fits → r = .ok none

def Walk.Good (j : Job) (full : List StatusEntry) (w : Walk) : Prop :=
  (w.ended = none → w.OnTheWay j full []) ∧ ∀ r, w.ended = some r → w.Over j full r

lemma Walk.OnTheWay.good (h : w.OnTheWay j full []) (hw : w.ended = none) : w.Good j full :=
  ⟨fun _ => h, fun r hr => by simp [hw] at hr⟩

lemma Walk.Over.good {r : Except Refusal (Option Reason)} (h : w.Over j full r)
    (hw : w.ended = some r) : w.Good j full :=
  ⟨fun hnone => by simp [hw] at hnone, fun r' hr' => by
    obtain rfl : r = r' := by simpa [hw] using hr'
    exact h⟩

/-- A walk that has one entry to list before it goes on. -/
lemma Walk.report_good {xy : Char × Char} (hcase : j.repo.ignoreCase = false) (hw : w.ended = none)
    (h : w.OnTheWay j full (if j.below <+: path then [⟨xy, path⟩] else [])) :
    (w.report j xy path).Good j full := by
  have hbelow : j.belowPath path = true ↔ j.below <+: path := by simp [Job.belowPath, hcase]
  unfold Walk.report
  split_ifs with hp
  · rw [if_pos (hbelow.1 hp)] at h
    have hlisting := (append_assoc _ _ _).trans h.listing
    unfold Walk.emit
    dsimp only
    split_ifs with hbreaks
    · exact Walk.Over.good ⟨⟨_, hlisting⟩, fun _ => .inr hbreaks, fun _ => rfl⟩ rfl
    · exact Walk.OnTheWay.good ⟨h.ordered, hlisting, h.fits⟩ rfl
  · rw [if_neg fun hpre => hp (hbelow.2 hpre)] at h
    exact h.good hw

/-- A walk that enters a directory before it goes on. -/
lemma Walk.descend_good (hw : w.ended = none)
    (h : w.OnTheWay j full (j.listingIn (j.rulesIn w.rules excluded path children) excluded path
      (sortedChildren children)))
    (hordered : ∃ bound, Ordered bound (w.inside j path children excluded).stack ∧
      w.cursor.Behind j.ix bound)
    (hfits : j.Fits → (Node.dir children fault).Fits j.repo.ignoreCase w.held w.rules.length path) :
    (w.descend j path children fault excluded).Good j full := by
  unfold Walk.descend
  obtain henter | ⟨⟨why, henter⟩, hnot⟩ := Walk.enter_yields j w path children fault excluded
  · rw [henter]
    refine Walk.OnTheWay.good ⟨hordered, ?_, fun hf => (h.fits hf).inside (hfits hf)⟩ hw
    simpa [Walk.inside, Job.todo, Job.take_rulesIn] using h.listing
  · rw [henter]
    exact Walk.Over.good (r := .ok (some why)) ⟨⟨_, h.listing⟩, by simp,
      fun hf => absurd (hfits hf) hnot⟩ rfl

lemma Cursor.Behind.mono {k : Cursor} {bound' : Bytes} (h : k.Behind j.ix bound)
    (hle : ¬bound' < bound) : k.Behind j.ix bound' := by
  obtain rfl | ⟨n, rfl, hpassed⟩ := h
  · exact .inl rfl
  · exact .inr ⟨n, rfl, fun e he => lt_of_lt_of_le (hpassed e he) (not_lt.1 hle)⟩

/-- Only a directory is entered. -/
lemma Job.action_descend (h : j.action rules ex path node = .descend excluded) :
    ∃ children fault, node = .dir children fault := by
  cases node with
  | dir children fault => exact ⟨children, fault, rfl⟩
  | file _ | symlink =>
    simp only [Job.action] at h
    split_ifs at h
  | special => simp [Job.action] at h

/-- The visit of the next child. -/
lemma Walk.visit_good (hcase : j.repo.ignoreCase = false) (hsorted : j.ix.Sorted)
    (hw : w.ended = none) (hstack : w.stack = { f with children := cs } :: fs)
    (hf : f.children = c :: cs) (hordered : Ordered bound (f :: fs))
    (hbehind : w.cursor.Behind j.ix bound)
    (hlisting : w.listed ++ (j.listing w.rules f.excluded (f.path ++ c.1) c.2 ++
      j.todo w.rules w.stack) = full)
    (hfits : j.Fits → StackFits j.repo.ignoreCase w.held w.rules w.stack ∧
      c.2.Fits j.repo.ignoreCase w.held w.rules.length (f.path ++ c.1)) :
    (w.visit j f.excluded (f.path ++ c.1) c.2).Good j full := by
  have hmem : c ∈ f.children := hf ▸ mem_cons_self
  obtain ⟨-, hkey, hahead⟩ := (hordered.frames f mem_cons_self).child c hmem
  have hne : f.path ++ c.1 ≠ [] := by simp [hkey]
  have hnext := hordered.next hf
  by_cases hscope : j.inScope (f.path ++ c.1) = true
  · rcases Cursor.advance_spec hsorted hbehind hahead with ⟨k, hadvance, hstands⟩
      | ⟨r, hadvance, hwhy⟩
    · rw [Walk.visit_eq hsorted hscope hadvance hstands hne]
      have hway : Walk.OnTheWay j full (j.listing w.rules f.excluded (f.path ++ c.1) c.2)
          { w with cursor := k } :=
        ⟨⟨f.path ++ c.1, hstack ▸ hnext, hstands.behind⟩, hlisting, fun h => (hfits h).1⟩
      cases haction : j.action w.rules f.excluded (f.path ++ c.1) c.2 with
      | skip =>
        rw [Job.listing_skip haction] at hway
        exact hway.good hw
      | report xy =>
        rw [Job.listing_report haction] at hway
        exact Walk.report_good hcase hw hway
      | descend excluded =>
        obtain ⟨children, fault, hnode⟩ := Job.action_descend haction
        rw [hnode] at haction hfits hway ⊢
        rw [Job.listing_descend haction] at hway
        refine Walk.descend_good hw hway ⟨f.path ++ c.1, ?_, hstands.behind⟩ fun h => (hfits h).2
        rw [hstack]
        exact hordered.descend hf hnode
    · have hvisit : w.visit j f.excluded (f.path ++ c.1) c.2
          = { w with ended := some (.error r) } := by
        simp [Walk.visit, hscope, hadvance]
      rw [hvisit]
      refine Walk.Over.good (r := .error r) ⟨⟨_, hlisting⟩, by simp, fun h => ?_⟩ rfl
      rcases hwhy with hfault | hmany
      · simp [h.index] at hfault
      · exact absurd h.gitlinks (not_le.2 hmany)
  · have hvisit : w.visit j f.excluded (f.path ++ c.1) c.2 = w := by simp [Walk.visit, hscope]
    rw [hvisit]
    rw [Job.listing_out_of_scope hcase (by simpa using hscope)] at hlisting
    exact Walk.OnTheWay.good ⟨⟨f.path ++ c.1, hstack ▸ hnext, hbehind.mono hahead⟩, hlisting,
      fun h => (hfits h).1⟩ hw

/-- Every turn of the loop keeps the walk on its way, or ends it well. -/
theorem Walk.step_good (hcase : j.repo.ignoreCase = false) (hsorted : j.ix.Sorted)
    (h : w.Good j full) (hstep : w.step j = some w') : w'.Good j full := by
  unfold Walk.step at hstep
  split_ifs at hstep with hended
  cases hstep
  have hw : w.ended = none := by simpa using hended
  obtain ⟨⟨bound, hordered, hbehind⟩, hlisting, hfits⟩ := h.1 hw
  unfold Walk.turn
  cases hstack : w.stack with
  | nil =>
    rw [hstack, Job.todo, nil_append, append_nil] at hlisting
    refine Walk.Over.good (r := .ok none) ⟨⟨[], by simpa using hlisting⟩, fun _ => .inl hlisting,
      fun _ => rfl⟩ rfl
  | cons f fs =>
    rw [hstack] at hordered hlisting hfits
    dsimp only
    split_ifs with hlate
    · refine Walk.Over.good (r := .ok (some (.timeout j.limit))) ⟨⟨_, hlisting⟩, by simp,
        fun hf => ?_⟩ rfl
      simp [hf.time] at hlate
    · cases hchildren : f.children with
      | nil =>
        rw [Job.todo, hchildren] at hlisting
        exact Walk.OnTheWay.good ⟨⟨bound, hordered.pop, hbehind⟩, hlisting, fun h => (hfits h).2⟩ hw
      | cons c cs =>
        rw [Job.todo, Job.listingIn, hchildren, flatMap_cons, append_assoc] at hlisting
        have hmem : c ∈ f.children := hchildren ▸ mem_cons_self
        refine Walk.visit_good hcase hsorted hw rfl hchildren hordered hbehind hlisting fun h => ?_
        obtain ⟨heach, hbelow⟩ := hfits h
        refine ⟨⟨fun d hd => heach d (hchildren ▸ mem_cons_of_mem _ hd), hbelow⟩, heach c hmem⟩

/-! ### The whole walk -/

/-- The listing of the worktree. -/
def Job.listingOfTop (j : Job) : List StatusEntry :=
  j.listingIn (j.rulesIn j.base false [] j.children) false [] (sortedChildren j.children)

lemma Ordered.top (h : (Node.dir children fault).WellFormed) :
    Ordered [] [⟨[], sortedChildren children, n, excluded, held⟩] :=
  ⟨by simpa using Frame.ready_sortedChildren h, pairwise_singleton _ _⟩

lemma Walk.start_good (hcase : j.repo.ignoreCase = false)
    (htree : (Node.dir j.children j.fault).WellFormed) :
    (Walk.start j ⟨0, [], []⟩).Good j j.listingOfTop := by
  have hfresh : j.cursor ⟨0, [], []⟩ = j.ix.cursor := by rw [Job.cursor, hcase, Index.cursor]
  unfold Walk.start
  obtain hbase | ⟨⟨why, hbase⟩, hnot⟩ := baseRules_yields j
  · rw [hbase, hfresh]
    refine Walk.descend_good rfl ⟨⟨[], ⟨by simp, .nil⟩, .inl rfl⟩, ?_, fun _ => trivial⟩
      ⟨[], Ordered.top htree, .inl rfl⟩ fun h => h.tree
    simp [Job.todo, Job.listingOfTop]
  · rw [hbase]
    exact Walk.Over.good (r := .ok (some why)) ⟨List.nil_prefix, by simp,
      fun hf => absurd hf hnot⟩ rfl

/-- What a walk hands over, and how it ends. On a case-sensitive file system and with a sorted
index it hands over the listing of the worktree from its start, all of it when the walk is not
broken off, and it is not where everything fits. -/
theorem untracked_spec (hcase : j.repo.ignoreCase = false) (hsorted : j.ix.Sorted)
    (htree : (Node.dir j.children j.fault).WellFormed) :
    (untracked j).listed <+: j.listingOfTop ∧
      ((untracked j).result = .ok none →
        (untracked j).listed = j.listingOfTop ∨ j.breaks (untracked j).listed = true) ∧
      (j.Fits → (untracked j).result = .ok none) := by
  have hfold : foldIndex j = .ok ⟨0, [], []⟩ := by simp [foldIndex, hcase]
  obtain ⟨hgood, hstuck⟩ := Machine.runFor_spec (fun w w' => Walk.step_weight)
    (fun w w' h hstep => Walk.step_good hcase hsorted h hstep) le_rfl
    (Walk.start_good hcase htree)
  simp only [untracked, hfold]
  generalize Machine.runFor (Walk.step j) _ _ = w at hgood hstuck
  cases hended : w.ended with
  | none => simp [Walk.step, hended] at hstuck
  | some r =>
    obtain ⟨hinitial, hcomplete, hfits⟩ := hgood.2 r hended
    exact ⟨hinitial, hcomplete, hfits⟩

end Git
