import XMustard.Git.WalkRuns
import XMustard.Table.Basic
import Mathlib.Data.List.Infix

/-! # Untracked paths

Which paths of a worktree are untracked, path by path: by the index, the ignore rules in force in
the directories above, and the repositories and gitlinks that the path lies in. The listing of the
walk has exactly these. -/

namespace Git

open List Text Index.Glob Lists

/-! ### Untracked, path by path -/

variable (j : Job)

/-- The top of the worktree. -/
def Job.top : Node := .dir j.children j.fault

variable (names : List Name)

/-- The path by its names, without a `/` at its end. -/
def pathOf : Bytes := (dirPath names).dropLast

/-- The rules of the ignore file in the directory with these names. -/
def Job.rulesOf : List Rule :=
  match j.top.at? names with
  | some (.dir children _) => fileRules j.repo.ignoreCase (dirPath names) (gitignore children)
  | _ => []

/-- The rules in force in a directory: those that apply everywhere, then those of the directories
down to it. -/
def Job.rulesAt : List Rule := j.base ++ names.inits.flatMap j.rulesOf

/-- An excluding rule wins on the path. -/
def Job.Ignored (isDir : Bool) : Prop :=
  excluded j.repo.ignoreCase (j.rulesAt names.dropLast) (pathOf names) isDir = true

/-- The directory is the worktree of a repository of its own. -/
def Job.Repository : Prop :=
  isRepository j.host (joinPath j.repo.toplevel (pathOf names)) = true

/-- A directory that is looked into: not ignored, and no gitlink or repository of its own unless
the index has paths under it. -/
def Job.Open : Prop :=
  ¬j.Ignored names true ∧
    (j.ix.HoldsUnder (dirPath names) ∨ ¬j.ix.Gitlink (pathOf names) ∧ ¬j.Repository names)

/-- A path outside `.git` of which every parent directory is looked into. -/
@[mk_iff]
structure Job.Reached (j : Job) (names : List Name) : Prop where
  nonempty : names ≠ []
  outside : ∀ n ∈ names, n.1 ≠ dotGit
  parents : ∀ d, d ≠ [] → d <+: names → d ≠ names → j.Open d

/-- An untracked file: it is not in the index and not ignored. -/
@[mk_iff]
structure Job.UntrackedFile (j : Job) (names : List Name) : Prop where
  reached : j.Reached names
  file : ∃ node, j.top.at? names = some node ∧ node.isFile
  untracked : ¬j.ix.Holds (pathOf names)
  kept : ¬j.Ignored names false

/-- A repository of its own that the index knows nothing of. -/
@[mk_iff]
structure Job.NestedRepository (j : Job) (names : List Name) : Prop where
  reached : j.Reached names
  dir : ∃ node, j.top.at? names = some node ∧ node.isDir
  untracked : ¬j.ix.HoldsUnder (dirPath names)
  noGitlink : ¬j.ix.Gitlink (pathOf names)
  kept : ¬j.Ignored names true
  repository : j.Repository names

/-! ### Names and paths -/

variable {j : Job} {rules : List Rule} {path p : Bytes} {node : Node}
  {ds names : List Name} {n : Name}

lemma dirPath_append (ds es : List Name) : dirPath (ds ++ es) = dirPath ds ++ dirPath es := by
  simp [dirPath]

lemma dirPath_singleton (n : Name) : dirPath [n] = n.1 ++ [slash] := by simp [dirPath]

lemma pathOf_snoc (ds : List Name) (n : Name) : pathOf (ds ++ [n]) = dirPath ds ++ n.1 := by
  rw [pathOf, dirPath_append, dirPath_singleton, ← append_assoc, dropLast_concat]

variable {children : Children} {fault : Option Reason} {x : Name × Node} {rest : List Name}

lemma dirPath_snoc_eq_key (ds : List Name) (n : Name) :
    dirPath ds ++ keyOf n.1 (.dir children fault) = dirPath (ds ++ [n]) := by
  simp [keyOf, Node.isDir, dirPath_append, dirPath_singleton]

lemma Node.at?_append (node : Node) (ds es : List Name) :
    node.at? (ds ++ es) = (node.at? ds).bind fun m => m.at? es := by
  induction ds generalizing node with
  | nil => simp [Node.at?]
  | cons d ds ih =>
    cases node with
    | dir children fault =>
      simp only [cons_append, Node.at?]
      cases children.find? (·.1 = d) with
      | none => rfl
      | some c => exact ih c.2
    | _ => rfl

/-- A child of a directory is found under its name. -/
lemma at?_cons_of_mem (hnames : (children.map (·.1)).Nodup) (hx : x ∈ children)
    (es : List Name) : (Node.dir children fault).at? (x.1 :: es) = x.2.at? es := by
  have hfind : children.find? (·.1 = x.1) = some x := Table.row_of_mem hnames hx
  simp [Node.at?, hfind]

lemma Job.rulesAt_snoc (j : Job) (ds : List Name) (n : Name) :
    j.rulesAt (ds ++ [n]) = j.rulesAt ds ++ j.rulesOf (ds ++ [n]) := by
  simp [Job.rulesAt, inits_append]

/-! ### Below an excluded directory -/

/-- Below an excluded directory nothing is untracked. -/
lemma not_mem_listing_excluded : ⟨('?', '?'), p⟩ ∉ j.listing rules true path node := by
  induction hsize : node.size using Nat.strongRecOn generalizing node rules path with
  | _ k ih =>
    cases haction : j.action rules true path node with
    | skip => simp [Job.listing_skip haction]
    | report xy =>
      have hxy : xy ≠ ('?', '?') := by
        rintro rfl
        cases node with
        | dir children fault =>
          simp only [Job.action, Bool.true_or] at haction
          split_ifs at haction
          all_goals simp_all
        | file | symlink | special => simp [Job.action] at haction
      rw [Job.listing_report haction]
      split_ifs <;> simp [hxy.symm]
    | descend excluded =>
      obtain ⟨children, fault, rfl⟩ := Job.action_descend haction
      have hex : excluded = true := by
        simp only [Job.action, Bool.true_or] at haction
        split_ifs at haction
        all_goals simp_all
      subst hex
      rw [Job.listing_descend haction, Job.listingIn, mem_flatMap]
      rintro ⟨c, hc, hmem⟩
      exact ih _ (hsize ▸ size_lt_of_mem_sortedChildren hc) rfl hmem

/-- An ignored directory is listed as one below an excluded directory is. -/
lemma listing_of_ignored (h : excluded j.repo.ignoreCase rules path.dropLast true = true) :
    j.listing rules false path (.dir children fault) = j.listing rules true path
      (.dir children fault) := by
  have haction : j.action rules false path (.dir children fault) =
      j.action rules true path (.dir children fault) := by simp [Job.action, h]
  rw [Job.listing.eq_def, Job.listing.eq_def, haction]

/-! ### The listing, path by path -/

/-- What makes a path itself one that is listed under `p`. -/
def Job.Listed (j : Job) (p : Bytes) (names : List Name) : Prop :=
  (∃ node, j.top.at? names = some node ∧ node.isFile ∧ ¬j.ix.Holds (pathOf names) ∧
    ¬j.Ignored names false ∧ p = pathOf names) ∨
  ∃ node, j.top.at? names = some node ∧ node.isDir ∧ ¬j.ix.HoldsUnder (dirPath names) ∧
    ¬j.ix.Gitlink (pathOf names) ∧ ¬j.Ignored names true ∧ j.Repository names ∧ p = dirPath names

/-- A path in the directory `ds` is listed under `p`, and every directory on the way from there is
looked into. -/
def Job.ListedIn (j : Job) (p : Bytes) (ds : List Name) : Prop :=
  ∃ rest, rest ≠ [] ∧ (∀ m ∈ rest, m.1 ≠ dotGit) ∧
    (∀ r, r ≠ [] → r <+: rest → r ≠ rest → j.Open (ds ++ r)) ∧ j.Listed p (ds ++ rest)

/-- The path itself or, if it is looked into, one in it is listed under `p`. -/
def Job.ListedAt (j : Job) (p : Bytes) (names : List Name) : Prop :=
  j.Listed p names ∨ j.Open names ∧ j.ListedIn p names

lemma Job.Listed.exists_node (h : j.Listed p names) :
    ∃ node, j.top.at? names = some node ∧ (node.isFile ∨ node.isDir) := by
  rcases h with ⟨node, hat, hfile, -⟩ | ⟨node, hat, hdir, -⟩
  · exact ⟨node, hat, .inl hfile⟩
  · exact ⟨node, hat, .inr hdir⟩

lemma Node.at?_leaf (h : node.isDir = false) (hrest : rest ≠ []) : node.at? rest = none := by
  obtain ⟨m, ms, rfl⟩ := exists_cons_of_ne_nil hrest
  cases node with
  | dir children fault => simp [Node.isDir] at h
  | _ => rfl

lemma Job.at?_below (hat : j.top.at? names = some node) (rest : List Name) :
    j.top.at? (names ++ rest) = node.at? rest := by
  rw [Node.at?_append, hat]
  rfl

lemma Job.listedIn_iff : j.ListedIn p ds ↔ ∃ m : Name, m.1 ≠ dotGit ∧ j.ListedAt p (ds ++ [m]) := by
  constructor
  · rintro ⟨rest, hne, hgit, hparents, hlisted⟩
    obtain ⟨m, rest, rfl⟩ := exists_cons_of_ne_nil hne
    obtain ⟨hm, hgit⟩ := forall_mem_cons.1 hgit
    refine ⟨m, hm, ?_⟩
    by_cases hrest : rest = []
    · exact .inl (by simpa [hrest] using hlisted)
    · refine .inr ⟨hparents [m] (by simp) (by simp) (by simpa using Ne.symm hrest), rest,
        hrest, hgit,
        fun r _ hr hproper => ?_, by simpa using hlisted⟩
      simpa using hparents (m :: r) (by simp) (cons_prefix_cons.2 ⟨rfl, hr⟩)
        (by simpa using hproper)
  · rintro ⟨m, hm, h | ⟨hopen, rest, hne, hgit, hparents, hlisted⟩⟩
    · refine ⟨[m], by simp, by simpa using hm, fun r hr hpre hproper => ?_, h⟩
      obtain ⟨m', r, rfl⟩ := exists_cons_of_ne_nil hr
      obtain ⟨rfl, hnil⟩ := cons_prefix_cons.1 hpre
      exact absurd (by rw [prefix_nil.1 hnil]) hproper
    · refine ⟨m :: rest, by simp, forall_mem_cons.2 ⟨hm, hgit⟩, fun r hr hpre hproper => ?_,
        by simpa using hlisted⟩
      obtain ⟨m', r, rfl⟩ := exists_cons_of_ne_nil hr
      obtain ⟨rfl, hpre'⟩ := cons_prefix_cons.1 hpre
      by_cases hnil : r = []
      · simpa [hnil] using hopen
      · simpa using hparents r hnil hpre' (by simpa using hproper)

/-- Nothing is listed in a path that is no directory. -/
lemma Job.listedAt_leaf (hat : j.top.at? names = some node) (hleaf : node.isDir = false) :
    j.ListedAt p names ↔ j.Listed p names := by
  refine or_iff_left ?_
  rintro ⟨-, rest, hne, -, -, hlisted⟩
  obtain ⟨x, hx, -⟩ := hlisted.exists_node
  rw [Job.at?_below hat, Node.at?_leaf hleaf hne] at hx
  cases hx

/-- The way to a listed path below a directory leads through a child that is looked at. -/
lemma Job.Listed.exists_child {m : Name}
    (hat : j.top.at? names = some (.dir children fault))
    (h : j.Listed p (names ++ m :: rest)) (hm : m.1 ≠ dotGit) :
    ∃ x ∈ children, x.1 = m ∧ seen x := by
  obtain ⟨node, hnode, hkind⟩ := h.exists_node
  rw [Job.at?_below hat, Node.at?] at hnode
  cases hfind : children.find? (·.1 = m) with
  | none => simp [hfind] at hnode
  | some x =>
    rw [hfind] at hnode
    dsimp only at hnode
    have hname : x.1 = m := by simpa using List.find?_some hfind
    refine ⟨x, mem_of_find?_eq_some hfind, hname, ?_⟩
    have hkind' : x.2.isDir || x.2.isFile := by
      by_cases hleaf : x.2.isDir
      · simp [hleaf]
      · have hrest : rest = [] := by
          by_contra hne
          rw [Node.at?_leaf (by simpa using hleaf) hne] at hnode
          cases hnode
        subst hrest
        cases hnode
        simpa [or_comm] using hkind
    simp [seen, hname, hm, hkind']

lemma seen_outside (h : seen x) : x.1.1 ≠ dotGit := by
  simp only [seen, Bool.and_eq_true, decide_eq_true_eq] at h
  exact h.1

lemma mem_listing_report (haction : j.action rules false path node = .report ('?', '?')) :
    ⟨('?', '?'), p⟩ ∈ j.listing rules false path node ↔ j.below <+: p ∧ p = path := by
  rw [Job.listing_report haction, and_comm]
  split_ifs with hbelow
  · rw [mem_singleton, StatusEntry.mk.injEq, and_iff_right rfl]
    exact (and_iff_left_of_imp fun hp => hp ▸ hbelow).symm
  · refine iff_of_false not_mem_nil ?_
    rintro ⟨rfl, hbelow'⟩
    exact hbelow hbelow'

lemma Job.action_leaf (hleaf : node.isFile) :
    j.action (j.rulesAt ds) false (pathOf (ds ++ [n])) node =
      if j.ix.Holds (pathOf (ds ++ [n])) ∨ excluded j.repo.ignoreCase (j.rulesAt ds)
        (pathOf (ds ++ [n])) false then .skip else .report ('?', '?') := by
  cases node with
  | file | symlink => simp [Job.action]
  | dir | special => simp [Node.isFile] at hleaf

lemma mem_listing_file (hat : j.top.at? (ds ++ [n]) = some node) (hfile : node.isFile) :
    ⟨('?', '?'), p⟩ ∈ j.listing (j.rulesAt ds) false (pathOf (ds ++ [n])) node ↔
      j.below <+: p ∧ j.ListedAt p (ds ++ [n]) := by
  have hleaf : node.isDir = false := by cases node <;> simp_all [Node.isFile, Node.isDir]
  have hself : j.Listed p (ds ++ [n]) ↔ ¬j.ix.Holds (pathOf (ds ++ [n])) ∧
      ¬j.Ignored (ds ++ [n]) false ∧ p = pathOf (ds ++ [n]) := by
    simp [Job.Listed, hat, hfile, hleaf]
  have hignored : j.Ignored (ds ++ [n]) false ↔
      excluded j.repo.ignoreCase (j.rulesAt ds) (pathOf (ds ++ [n])) false = true := by
    simp [Job.Ignored]
  rw [Job.listedAt_leaf hat hleaf, hself, hignored]
  have haction : j.action (j.rulesAt ds) false (pathOf (ds ++ [n])) node = _ :=
    Job.action_leaf hfile
  split_ifs at haction with hskip
  · rw [Job.listing_skip haction]
    simp only [not_mem_nil, false_iff]
    rintro ⟨-, hholds, hkept, -⟩
    exact hskip.elim hholds hkept
  · obtain ⟨hholds, hkept⟩ := not_or.1 hskip
    rw [mem_listing_report haction, and_iff_right hholds, and_iff_right hkept]

/-- The listing of the children of a directory, from the listings of each. -/
lemma mem_listingIn (hat : j.top.at? ds = some (.dir children fault))
    (ih : ∀ x ∈ children, ⟨('?', '?'), p⟩ ∈ j.listing (j.rulesAt ds) false
      (dirPath ds ++ keyOf x.1.1 x.2) x.2 ↔ j.below <+: p ∧ j.ListedAt p (ds ++ [x.1])) :
    ⟨('?', '?'), p⟩ ∈ j.listingIn (j.rulesAt ds) false (dirPath ds) (sortedChildren children) ↔
      j.below <+: p ∧ j.ListedIn p ds := by
  rw [Job.listingIn, mem_flatMap, Job.listedIn_iff]
  constructor
  · rintro ⟨c, hc, hmem⟩
    obtain ⟨x, hx, hseen, rfl⟩ := mem_sortedChildren.1 hc
    obtain ⟨hbelow, hlisted⟩ := (ih x hx).1 hmem
    exact ⟨hbelow, x.1, seen_outside hseen, hlisted⟩
  · rintro ⟨hbelow, m, hm, hlisted⟩
    obtain ⟨rest, hrest⟩ : ∃ rest, j.Listed p (ds ++ m :: rest) := by
      rcases hlisted with h | ⟨-, rest, -, -, -, h⟩
      · exact ⟨[], h⟩
      · exact ⟨rest, by simpa using h⟩
    obtain ⟨x, hx, rfl, hseen⟩ := hrest.exists_child hat hm
    exact ⟨childOf x, mem_sortedChildren.2 ⟨x, hx, hseen, rfl⟩, (ih x hx).2 ⟨hbelow, hlisted⟩⟩

/-- A directory is looked into, or listed as a whole, or left out. -/
lemma mem_listing_dir (hat : j.top.at? (ds ++ [n]) = some (.dir children fault)) :
    ⟨('?', '?'), p⟩ ∈ j.listing (j.rulesAt ds) false (dirPath (ds ++ [n])) (.dir children fault) ↔
      j.below <+: p ∧ j.Listed p (ds ++ [n]) ∨ j.Open (ds ++ [n]) ∧
        ⟨('?', '?'), p⟩ ∈ j.listingIn (j.rulesAt (ds ++ [n])) false (dirPath (ds ++ [n]))
          (sortedChildren children) := by
  have hself : j.Listed p (ds ++ [n]) ↔ ¬j.ix.HoldsUnder (dirPath (ds ++ [n])) ∧
      ¬j.ix.Gitlink (pathOf (ds ++ [n])) ∧ ¬j.Ignored (ds ++ [n]) true ∧
        j.Repository (ds ++ [n]) ∧ p = dirPath (ds ++ [n]) := by
    simp [Job.Listed, hat, Node.isFile, Node.isDir]
  have hrules : j.rulesIn (j.rulesAt ds) false (dirPath (ds ++ [n])) children =
      j.rulesAt (ds ++ [n]) := by
    rw [Job.rulesAt_snoc, Job.rulesOf, hat]
    rfl
  rw [hself, Job.Open]
  by_cases hignored : j.Ignored (ds ++ [n]) true
  · rw [listing_of_ignored (by simpa [Job.Ignored, pathOf] using hignored)]
    simp [hignored, not_mem_listing_excluded]
  have haction : j.action (j.rulesAt ds) false (dirPath (ds ++ [n])) (.dir children fault) =
      if j.ix.HoldsUnder (dirPath (ds ++ [n])) then .descend false
      else if j.ix.Gitlink (pathOf (ds ++ [n])) then .skip
      else if isRepository j.host (joinPath j.repo.toplevel (pathOf (ds ++ [n]))) then
        .report ('?', '?')
      else .descend false := by
    have hkept : excluded j.repo.ignoreCase (j.rulesAt ds) (dirPath (ds ++ [n])).dropLast true =
        false := by simpa [Job.Ignored, pathOf] using hignored
    simp only [Job.action, Bool.false_or, hkept, Bool.false_and, Bool.false_eq_true, if_false]
    rfl
  unfold Job.Repository
  split_ifs at haction with hunder hlink hrepo
  · simp [Job.listing_descend haction, hrules, hunder, hignored]
  · simp [Job.listing_skip haction, hunder, hlink]
  · simp [mem_listing_report haction, hunder, hlink, hignored, hrepo]
  · simp [Job.listing_descend haction, hrules, hunder, hlink, hignored, hrepo]

/-- The untracked entries of the listing at a path. -/
theorem mem_listing_iff (hat : j.top.at? (ds ++ [n]) = some node) (hwf : node.WellFormed) :
    ⟨('?', '?'), p⟩ ∈ j.listing (j.rulesAt ds) false (dirPath ds ++ keyOf n.1 node) node ↔
      j.below <+: p ∧ j.ListedAt p (ds ++ [n]) := by
  induction hwf generalizing ds n with
  | file content | symlink =>
    rw [keyOf, if_neg (by simp [Node.isDir]), ← pathOf_snoc]
    exact mem_listing_file hat rfl
  | special =>
    rw [Job.listing_skip rfl, Job.listedAt_leaf hat rfl]
    simp only [not_mem_nil, false_iff, not_and]
    intro _ hlisted
    obtain ⟨m, hm, hkind⟩ := hlisted.exists_node
    rw [hat] at hm
    cases hm
    simp [Node.isFile, Node.isDir] at hkind
  | @dir children fault hnames heach ih =>
    have hchild : ∀ x ∈ children, j.top.at? (ds ++ [n] ++ [x.1]) = some x.2 := fun x hx => by
      rw [Job.at?_below hat, at?_cons_of_mem hnames hx, Node.at?]
    rw [dirPath_snoc_eq_key, mem_listing_dir hat, mem_listingIn hat fun x hx =>
      ih x hx (hchild x hx),
      Job.ListedAt]
    tauto

/-! ### The listing of the worktree -/

/-- The untracked entries of the listing of the worktree. -/
theorem mem_listingOfTop_iff (htree : j.top.WellFormed) :
    ⟨('?', '?'), p⟩ ∈ j.listingOfTop ↔ j.below <+: p ∧ j.ListedIn p [] := by
  obtain ⟨hnames, heach⟩ : (j.children.map (·.1)).Nodup ∧ ∀ x ∈ j.children, x.2.WellFormed := by
    cases htree with
    | dir hnames heach => exact ⟨hnames, heach⟩
  have hrules : j.rulesIn j.base false [] j.children = j.rulesAt [] := by
    simp [Job.rulesIn, Job.rulesAt, Job.rulesOf, Job.top, Node.at?, dirPath]
  have hchild : ∀ x ∈ j.children, ⟨('?', '?'), p⟩ ∈ j.listing (j.rulesAt []) false
      (childOf x).1 x.2 ↔
      j.below <+: p ∧ j.ListedAt p [x.1] := fun x hx => by
    have hat : j.top.at? ([] ++ [x.1]) = some x.2 := by
      simp [Job.top, at?_cons_of_mem hnames hx, Node.at?]
    exact mem_listing_iff hat (heach x hx)
  rw [Job.listingOfTop, hrules]
  exact mem_listingIn rfl hchild

lemma Job.listedIn_top : j.ListedIn p [] ↔ (∃ names, j.UntrackedFile names ∧ p = pathOf names) ∨
    ∃ names, j.NestedRepository names ∧ p = dirPath names := by
  simp only [Job.ListedIn, Job.Listed, Job.untrackedFile_iff, Job.nestedRepository_iff,
    Job.reached_iff, nil_append, ← exists_or]
  refine exists_congr fun names => ?_
  grind

/-! ### The order of the listing -/

variable {ex : Bool}

/-- A path that is no directory is listed as itself. -/
lemma path_of_mem_listing_leaf {e : StatusEntry} (hleaf : node.isDir = false)
    (h : e ∈ j.listing rules ex path node) : e.path = path := by
  rw [Job.listing.eq_def] at h
  split at h
  · split_ifs at h
    · rw [mem_singleton.1 h]
    · simp at h
  · simp [Node.isDir] at hleaf
  · simp at h

lemma listingIn_pairwise {cs : List Child} (hcs : cs.Pairwise Child.Before)
    (heach : ∀ c ∈ cs, (j.listing rules ex (path ++ c.1) c.2).Pairwise fun e e' =>
      e.path < e'.path) :
    (j.listingIn rules ex path cs).Pairwise fun e e' => e.path < e'.path := by
  refine pairwise_flatMap.2 ⟨heach, hcs.imp fun {c d} hcd e he e' he' => ?_⟩
  obtain ⟨⟨t, ht⟩, -⟩ := Job.mem_listing he'
  rw [← ht, append_assoc]
  by_cases hdir : c.2.isDir
  · obtain ⟨⟨s, hs⟩, -⟩ := Job.mem_listing he
    rw [← hs, append_assoc, append_lt_append_iff]
    exact append_lt_append hcd.1 (hcd.2 hdir) s t
  · rw [path_of_mem_listing_leaf (by simpa using hdir) he, append_lt_append_iff]
    exact lt_of_lt_of_le hcd.1 (not_lt.1 (not_append_lt d.1 t))

lemma listing_pairwise (hwf : node.WellFormed) :
    (j.listing rules ex path node).Pairwise fun e e' => e.path < e'.path := by
  induction hwf generalizing rules ex path with
  | @dir children fault hnames heach ih =>
    cases haction : j.action rules ex path (.dir children fault) with
    | skip => simp [Job.listing_skip haction]
    | report xy =>
      rw [Job.listing_report haction]
      split_ifs <;> simp
    | descend excluded =>
      rw [Job.listing_descend haction]
      refine listingIn_pairwise (sortedChildren_pairwise hnames) fun c hc => ?_
      obtain ⟨x, hx, -, rfl⟩ := mem_sortedChildren.1 hc
      exact ih x hx
  | _ =>
    rw [Job.listing.eq_def]
    split
    · split_ifs <;> simp
    · simp_all
    · simp

lemma listingOfTop_pairwise (htree : j.top.WellFormed) :
    j.listingOfTop.Pairwise fun e e' => e.path < e'.path := by
  cases htree with
  | dir hnames heach =>
    refine listingIn_pairwise (sortedChildren_pairwise hnames) fun c hc => ?_
    obtain ⟨x, hx, -, rfl⟩ := mem_sortedChildren.1 hc
    exact listing_pairwise (heach x hx)

/-- Whether ignored directories are listed does not matter to what is untracked. -/
lemma filter_listingOfTop (htree : j.top.WellFormed) (b : Bool) :
    (Job.listingOfTop { j with listIgnored := b }).filter (·.xy = ('?', '?')) =
      j.listingOfTop.filter (·.xy = ('?', '?')) := by
  have hleft := (listingOfTop_pairwise (j := { j with listIgnored := b }) htree).filter
    (·.xy = ('?', '?'))
  have hright := (listingOfTop_pairwise htree).filter (·.xy = ('?', '?'))
  refine List.Perm.eq_of_pairwise (fun e e' _ _ h h' => absurd h h'.not_gt) hleft hright ?_
  refine (perm_ext_iff_of_nodup (hleft.imp ?_) (hright.imp ?_)).2 fun e => ?_
  · rintro e _ h rfl
    exact lt_irrefl _ h
  · rintro e _ h rfl
    exact lt_irrefl _ h
  · obtain ⟨xy, p⟩ := e
    simp only [mem_filter, decide_eq_true_eq, and_congr_left_iff]
    rintro rfl
    exact (mem_listingOfTop_iff (j := { j with listIgnored := b }) htree).trans
      (mem_listingOfTop_iff htree).symm

/-- On a case-sensitive file system and with a sorted index, a walk that ends by itself has listed
as untracked exactly the files outside `.git` that are not in the index, on which no excluding rule
wins, and whose parent directories are all looked into, and beside them the repositories that it
did not look into. No path is listed twice, and listing the ignored directories too changes nothing.
Where everything fits, the walk does end by itself. -/
theorem untracked_lists_exactly (j : Job) (hcase : j.repo.ignoreCase = false)
    (hsorted : j.ix.Sorted)
    (htree : j.top.WellFormed) (hbreaks : ∀ l, j.breaks l = false) :
    (j.Fits → (untracked j).result = .ok none) ∧
    ((untracked j).result = .ok none →
      (∀ p, ⟨('?', '?'), p⟩ ∈ (untracked j).listed ↔ j.below <+: p ∧
        ((∃ names, j.UntrackedFile names ∧ p = pathOf names) ∨
          ∃ names, j.NestedRepository names ∧ p = dirPath names)) ∧
      ((untracked j).listed.map StatusEntry.path).Nodup ∧
      ∀ b, (untracked { j with listIgnored := b }).result = .ok none →
        (untracked { j with listIgnored := b }).listed.filter (·.xy = ('?', '?')) =
          (untracked j).listed.filter (·.xy = ('?', '?'))) := by
  have hall : ∀ b, (untracked { j with listIgnored := b }).result = .ok none →
      (untracked { j with listIgnored := b }).listed = Job.listingOfTop
      { j with listIgnored := b } := by
    intro b hresult
    have hspec := untracked_spec (j := { j with listIgnored := b }) hcase hsorted htree
    exact (hspec.2.1 hresult).resolve_right (by simp [hbreaks])
  refine ⟨(untracked_spec hcase hsorted htree).2.2, fun hresult => ?_⟩
  have hlisted : (untracked j).listed = j.listingOfTop := hall j.listIgnored hresult
  rw [hlisted]
  refine ⟨fun p => (mem_listingOfTop_iff htree).trans (and_congr_right' Job.listedIn_top), ?_,
    fun b hb => ?_⟩
  · refine pairwise_map.2 ((listingOfTop_pairwise htree).imp fun h => h.ne)
  · rw [hall b hb]
    exact filter_listingOfTop htree b

/-- A file system in which `/w/n` is the worktree of a repository. -/
def nestedHost : Host where
  symlinkMetadata p :=
    if p = ascii "/w/n/.git" then some (.dir, 0)
    else if p = ascii "/w/n/.git/HEAD" then some (.file, 21) else none
  readLink _ := none
  read p := if p = ascii "/w/n/.git/HEAD" then some (ascii "ref: refs/heads/main") else none
  isDir p := p = ascii "/w/n/.git/objects" || p = ascii "/w/n/.git/refs"
  canonicalize _ := none

def nameB : Name := ⟨ascii "b", by decide +kernel⟩

def nameN : Name := ⟨ascii "n", by decide +kernel⟩

def nameO : Name := ⟨ascii "o", by decide +kernel⟩

def nameIgnore : Name := ⟨dotGitignore, by decide +kernel⟩

/-- A worktree with an ignored directory and, in `/w/n`, a repository; of the files of the latter
the index has those given. -/
def nestedJob (tracked : List Bytes) : Job where
  repo := ⟨ascii "/w", ascii "/w/.git", none, none, false⟩
  host := nestedHost
  children := [
    (nameO, .dir [(nameB, .file (.ok []))] none),
    (nameN, .dir [(nameO, .file (.ok [])), (nameB, .file (.ok []))] none),
    (nameIgnore, .file (.ok (ascii "/o/\n"))),
    (nameB, .symlink)]
  fault := none
  ix := ⟨tracked.map fun p => ⟨p, 0o100644, [], 0, false, false, false⟩, none, []⟩
  below := []
  listIgnored := false
  breaks _ := false
  late _ := false
  limit := 1000

lemma nestedJob_wellFormed (tracked : List Bytes) : (nestedJob tracked).top.WellFormed := by
  have hnames : ([nameO, nameN, nameIgnore, nameB] : List Name).Nodup := by decide +kernel
  have hinner : ([nameO, nameB] : List Name).Nodup := by decide +kernel
  refine .dir hnames fun c hc => ?_
  simp only [nestedJob, mem_cons, not_mem_nil, or_false] at hc
  rcases hc with rfl | rfl | rfl | rfl
  · refine .dir (nodup_singleton _) fun c hc => ?_
    cases mem_singleton.1 hc
    exact .file _
  · refine .dir hinner fun c hc => ?_
    simp only [mem_cons, not_mem_nil, or_false] at hc
    rcases hc with rfl | rfl <;> exact .file _
  · exact .file _
  · exact .symlink

/-- An untracked file beside a repository of its own, which is listed as a whole. -/
theorem untracked_lists_nested : (untracked (nestedJob [dotGitignore])).listed =
        [⟨('?', '?'), ascii "b"⟩, ⟨('?', '?'), ascii "n/"⟩] ∧
      ((∃ names, (nestedJob [dotGitignore]).UntrackedFile names ∧ ascii "b" = pathOf names) ∨
        ∃ names, (nestedJob [dotGitignore]).NestedRepository names
          ∧ ascii "b" = dirPath names) := by
  have hlisted : (untracked (nestedJob [dotGitignore])).listed =
      [⟨('?', '?'), ascii "b"⟩, ⟨('?', '?'), ascii "n/"⟩] := by decide +kernel
  have hresult : (untracked (nestedJob [dotGitignore])).result = .ok none := by decide +kernel
  have hexact := (untracked_lists_exactly (nestedJob [dotGitignore]) rfl (by decide +kernel)
    (nestedJob_wellFormed _) fun _ => rfl).2 hresult
  exact ⟨hlisted, ((hexact.1 (ascii "b")).1 (hlisted ▸ mem_cons_self)).2⟩

/-- Where the index has a path inside a nested repository, the repository's other files are
listed. -/
theorem untracked_lists_inside_repository : (nestedJob [dotGitignore, ascii "n/b"]).ix.Sorted ∧
      (nestedJob [dotGitignore, ascii "n/b"]).Repository [nameN] ∧
      (untracked (nestedJob [dotGitignore, ascii "n/b"])).result = .ok none ∧
      ⟨('?', '?'), pathOf [nameN, nameO]⟩ ∈
        (untracked (nestedJob [dotGitignore, ascii "n/b"])).listed := by
  refine ⟨by decide +kernel, ?_, by decide +kernel, by decide +kernel⟩
  unfold Job.Repository
  decide +kernel

end Git
