import XMustard.Git.Walk
import Mathlib.Algebra.Order.BigOperators.Group.List

/-! # What a walk lists

The listing of a tree by itself, without stack and cursor, and that the walk hands over just
this. -/

namespace Git

open List Text Index.Glob

/-! ### The listing -/

/-- What is done at a path. -/
inductive Action where
  | skip
  | report (xy : Char × Char)
  | descend (excluded : Bool)
  deriving DecidableEq

/-- What is done at a path, by the index as a whole. -/
def Job.action (j : Job) (rules : List Rule) (parentExcluded : Bool) (path : Bytes) : Node → Action
  | .dir _ _ =>
    let ignored := parentExcluded || excluded j.repo.ignoreCase rules path.dropLast true
    if ignored && !j.listIgnored then .skip
    else if j.ix.HoldsUnder path then .descend ignored
    else if j.ix.Gitlink path.dropLast then .skip
    else if ignored then .report ('!', '!')
    else if isRepository j.host (joinPath j.repo.toplevel path.dropLast) then .report ('?', '?')
    else .descend false
  | .file _ | .symlink =>
    if j.ix.Holds path ∨ parentExcluded ∨ excluded j.repo.ignoreCase rules path false then .skip
    else .report ('?', '?')
  | .special => .skip

/-- The children of a directory that are looked at, in the order of their keys. -/
def sortedChildren (children : Children) : List Child :=
  ((children.filter seen).map childOf).insertionSort Child.le

/-- The rules in force in a directory. -/
def Job.rulesIn (j : Job) (rules : List Rule) (excluded : Bool) (path : Bytes)
    (children : Children) : List Rule :=
  if excluded then rules else rules ++ fileRules j.repo.ignoreCase path (gitignore children)

variable {children : Children} {c : Child}

lemma mem_sortedChildren :
    c ∈ sortedChildren children ↔ ∃ x ∈ children, seen x ∧ childOf x = c := by
  simp [sortedChildren, mem_insertionSort, and_assoc]

variable {fault : Option Reason}

lemma size_lt_of_mem_sortedChildren
    (h : c ∈ sortedChildren children) : c.2.size < (Node.dir children fault).size := by
  obtain ⟨x, hx, -, rfl⟩ := mem_sortedChildren.1 h
  have hle : x.2.size ≤ (children.map fun c => c.2.size).sum :=
    single_le_sum (by simp) _ (mem_map_of_mem hx)
  rw [Node.size, Node.sizes_eq]
  simp only [childOf]
  omega

/-- What is listed at a path and below it. -/
def Job.listing (j : Job) (rules : List Rule) (parentExcluded : Bool) (path : Bytes)
    (node : Node) : List StatusEntry :=
  match j.action rules parentExcluded path node, node with
  | .report xy, _ => if j.below <+: path then [⟨xy, path⟩] else []
  | .descend excluded, .dir children _ =>
    (sortedChildren children).attach.flatMap fun c =>
      j.listing (j.rulesIn rules excluded path children) excluded (path ++ c.1.1) c.1.2
  | _, _ => []
termination_by node.size
decreasing_by exact size_lt_of_mem_sortedChildren c.2

/-- What is listed in a directory. -/
def Job.listingIn (j : Job) (rules : List Rule) (excluded : Bool) (path : Bytes)
    (cs : List Child) : List StatusEntry :=
  cs.flatMap fun c => j.listing rules excluded (path ++ c.1) c.2

variable {j : Job} {rules : List Rule} {ex : Bool} {path : Bytes} {node a b : Node} {w : Walk}
  {n m : Name}

lemma Job.listing_skip (h : j.action rules ex path node = .skip) :
    j.listing rules ex path node = [] := by
  rw [Job.listing.eq_def, h]

lemma Job.listing_report {xy : Char × Char} (h : j.action rules ex path node = .report xy) :
    j.listing rules ex path node = if j.below <+: path then [⟨xy, path⟩] else [] := by
  rw [Job.listing.eq_def, h]

lemma Job.listing_descend {excluded : Bool}
    (h : j.action rules ex path (.dir children fault) = .descend excluded) :
    j.listing rules ex path (.dir children fault) =
      j.listingIn (j.rulesIn rules excluded path children) excluded path
        (sortedChildren children) := by
  rw [Job.listing.eq_def, h, Job.listingIn]
  simp only [flatMap_subtype, unattach_attach]

/-! ### The order of the children -/

lemma keyOf_inj (h : keyOf n.1 a = keyOf m.1 b) : n = m := by
  have hn : slash ∉ n.1 := n.2.2
  have hm : slash ∉ m.1 := m.2.2
  unfold keyOf at h
  apply Subtype.ext
  split_ifs at h with ha hb hb
  · exact append_cancel_right h
  · exact absurd (h ▸ mem_append_right _ (mem_singleton_self slash)) hm
  · exact absurd (h.symm ▸ mem_append_right _ (mem_singleton_self slash)) hn
  · exact h

lemma keyOf_ne_nil (n : Name) (node : Node) : keyOf n.1 node ≠ [] := by
  unfold keyOf
  split_ifs
  · simp
  · exact n.2.1

/-- A directory's key starts no other key. -/
lemma eq_of_keyOf_isPrefix (ha : a.isDir) (h : keyOf n.1 a <+: keyOf m.1 b) :
    keyOf n.1 a = keyOf m.1 b := by
  have hm : slash ∉ m.1 := m.2.2
  have hkey : keyOf n.1 a = n.1 ++ [slash] := by simp [keyOf, ha]
  obtain ⟨t, ht⟩ := h
  unfold keyOf at ht ⊢
  split_ifs at ht ⊢ with hb
  · rcases eq_nil_or_concat t with rfl | ⟨t, x, rfl⟩
    · simpa using ht
    · rw [concat_eq_append, ← append_assoc] at ht
      have hinit := (append_inj' ht rfl).1
      exact absurd (hinit ▸ by simp) hm
  · exact absurd (ht ▸ by simp) hm

/-- Child `c` comes before `d` in a directory: so does everything below `c`. -/
def Child.Before (c d : Child) : Prop := c.1 < d.1 ∧ (c.2.isDir → ¬c.1 <+: d.1)

instance : Std.Total Child.le := ⟨fun c d => by
  rcases lt_or_ge c.1 d.1 with h | h
  · exact .inl h.not_gt
  · exact .inr (not_lt.2 h)⟩

instance : IsTrans Child Child.le := ⟨fun c d e hcd hde => by
  exact not_lt.2 ((not_lt.1 hcd).trans (not_lt.1 hde))⟩

/-- The children of a directory come in the order of the paths below them. -/
lemma sortedChildren_pairwise (hnames : (children.map (·.1)).Nodup) :
    (sortedChildren children).Pairwise Child.Before := by
  have hdiffer : (sortedChildren children).Pairwise fun c d => c.1 ≠ d.1 := by
    have hnames' : (children.filter seen).Pairwise fun x y => x.1 ≠ y.1 :=
      (pairwise_map.1 hnames).filter _
    refine (perm_insertionSort _ _).pairwise_iff (fun h => h.symm) |>.2 ?_
    exact pairwise_map.2 (hnames'.imp fun hne heq => hne (keyOf_inj heq))
  have hsorted : (sortedChildren children).Pairwise Child.le := pairwise_insertionSort _ _
  refine (hsorted.and hdiffer).imp_of_mem fun {c d} hc hd hcd => ⟨?_, fun hdir hstart => hcd.2 ?_⟩
  · exact lt_of_le_of_ne (not_lt.1 hcd.1) hcd.2
  · obtain ⟨x, -, -, rfl⟩ := mem_sortedChildren.1 hc
    obtain ⟨y, -, -, rfl⟩ := mem_sortedChildren.1 hd
    exact eq_of_keyOf_isPrefix hdir hstart

/-! ### Scope -/

/-- What is listed at a path is listed below it, and below the directory of the job. -/
lemma Job.mem_listing {e : StatusEntry} (h : e ∈ j.listing rules ex path node) :
    path <+: e.path ∧ j.below <+: e.path := by
  induction hn : node.size using Nat.strongRecOn generalizing node rules ex path with
  | _ n ih =>
    rw [Job.listing.eq_def] at h
    split at h
    · split_ifs at h with hbelow
      · cases mem_singleton.1 h
        exact ⟨prefix_refl _, hbelow⟩
      · simp at h
    · obtain ⟨c, -, hc⟩ := mem_flatMap.1 h
      obtain ⟨hpath, hbelow⟩ := ih _ (hn ▸ size_lt_of_mem_sortedChildren c.2) hc rfl
      exact ⟨(prefix_append _ _).trans hpath, hbelow⟩
    · simp at h

lemma Job.listing_out_of_scope (hcase : j.repo.ignoreCase = false) (h : j.inScope path = false) :
    j.listing rules ex path node = [] := by
  refine eq_nil_iff_forall_not_mem.2 fun e he => ?_
  obtain ⟨hpath, hbelow⟩ := Job.mem_listing he
  have hcomparable := prefix_or_prefix_of_prefix hpath hbelow
  simp only [Job.inScope, hcase, Bool.not_false, if_true] at h
  rcases hcomparable with hc | hc <;> simp [hc] at h

/-! ### One visit -/

def Walk.perform (j : Job) (w : Walk) (path : Bytes) (node : Node) : Action → Walk
  | .skip => w
  | .report xy => w.report j xy path
  | .descend excluded =>
    match node with
    | .dir children fault => w.descend j path children fault excluded
    | _ => w

/-- With the cursor at its path, a visit does what the index as a whole says. -/
lemma Walk.visit_eq {c : Cursor} (hsorted : j.ix.Sorted) (hscope : j.inScope path = true)
    (hadvance : w.cursor.advance path = .ok c) (hstands : c.StandsAt j.ix path) (hne : path ≠ []) :
    w.visit j ex path node =
      Walk.perform j { w with cursor := c } path node (j.action w.rules ex path node) := by
  simp only [Walk.visit, hscope, Bool.not_true, if_false, hadvance, Bool.false_eq_true]
  cases node with
  | dir children fault =>
    simp only [Walk.visitDir, Job.action, hstands.holdsUnder_iff hsorted,
      hstands.isGitlink_iff hsorted hne]
    split_ifs <;> rfl
  | file _ | symlink =>
    simp only [Walk.visitFile, Job.action, Bool.or_eq_true, hstands.holdsFile_iff hsorted, or_assoc]
    split_ifs <;> rfl
  | special => rfl

end Git
