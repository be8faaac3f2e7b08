import XMustard.Git.WalkListing

/-! # The bounds of a walk

A walk holds the names and the ignore rules of the directories on its current path. A tree fits
when neither goes past its bound on any path of it, and every directory and ignore file in it can
be read. -/

namespace Git

open List Text Fallible

variable {j : Job} {ignoreCase : Bool} {held n n' : ℕ} {path : Bytes} {node : Node} {w : Walk}
  {children : Children} {fault : Option Reason} {rules : List Rule}

/-- The bytes held for the children of a directory. -/
def heldFor (children : Children) : ℕ := ((children.filter seen).map fun c => cost (childOf c)).sum

/-- A tree that a walk gets through, with `held` bytes of names and `n` rules held above it. -/
inductive Node.Fits (ignoreCase : Bool) : ℕ → ℕ → Bytes → Node → Prop where
  | leaf {held n : ℕ} {path : Bytes} {node : Node} (leaf : node.isDir = false) :
      Node.Fits ignoreCase held n path node
  | dir {held n : ℕ} {path : Bytes} {children : Children}
      (names : held + heldFor children ≤ maxHeldNameBytes)
      (file : Content.Fits (gitignore children))
      (lines : n + (fileRules ignoreCase path (gitignore children)).length ≤ maxHeldRules)
      (each : ∀ c ∈ children, Node.Fits ignoreCase (held + heldFor children)
        (n + (fileRules ignoreCase path (gitignore children)).length) (path ++ (childOf c).1) c.2) :
      Node.Fits ignoreCase held n path (.dir children none)

/-- A tree that fits still fits with fewer rules above it. -/
lemma Node.Fits.mono (h : node.Fits ignoreCase held n path) (hn : n' ≤ n) :
    node.Fits ignoreCase held n' path := by
  induction h generalizing n' with
  | leaf leaf => exact .leaf leaf
  | dir names file lines each ih =>
    refine .dir names file (by omega) fun c hc => ih c hc (by omega)

/-! ### Reading a directory -/

lemma foldlM_readChild (r : List Child × ℕ) :
    Yields (held + (r.2 + heldFor children) ≤ maxHeldNameBytes)
      (r.1 ++ (children.filter seen).map childOf, r.2 + heldFor children)
      (children.foldlM (readChild held) r) := by
  induction children generalizing r with
  | nil => exact .inl (by simp [heldFor]; rfl)
  | cons c cs ih =>
    rw [foldlM_cons]
    unfold readChild
    cases hseen : seen c with
    | true =>
      have hheld : heldFor (c :: cs) = cost (childOf c) + heldFor cs := by simp [heldFor, hseen]
      rw [hheld, filter_cons_of_pos hseen, map_cons, ← singleton_append, ← append_assoc,
        ← Nat.add_assoc r.2]
      refine Yields.bind (a := (r.1 ++ [childOf c], r.2 + cost (childOf c))) ?_ (ih _)
      split_ifs with hpassed hroom
      · cases hpassed
      · exact .error (by omega)
      · exact .ok
    | false =>
      have hheld : heldFor (c :: cs) = heldFor cs := by simp [heldFor, hseen]
      rw [filter_cons_of_neg (by simp [hseen]), hheld]
      exact ih r

/-- The walk inside a directory. -/
def Walk.inside (j : Job) (w : Walk) (path : Bytes) (children : Children)
    (excluded : Bool) : Walk :=
  { w with
    stack := ⟨path, sortedChildren children, w.rules.length, excluded, heldFor children⟩ :: w.stack
    rules := j.rulesIn w.rules excluded path children
    held := w.held + heldFor children }

/-- Entering a directory ends inside it, if the directory is one of a tree that fits. -/
lemma Walk.enter_yields (j : Job) (w : Walk) (path : Bytes) (children : Children)
    (fault : Option Reason) (excluded : Bool) :
    Yields ((Node.dir children fault).Fits j.repo.ignoreCase w.held w.rules.length path)
      (w.inside j path children excluded) (w.enter j path children fault excluded) := by
  have hread : Yields (fault = none ∧ w.held + heldFor children ≤ maxHeldNameBytes)
      (sortedChildren children, heldFor children) (readChildren w.held children fault) := by
    refine Yields.bind ((foldlM_readChild ([], 0)).mono fun h => by simpa using h.2) ?_
    cases fault with
    | some why => exact .error (by simp)
    | none => exact .inl (by simp [sortedChildren])
  have hload : Yields (Content.Fits (gitignore children) ∧
      w.rules.length + (fileRules j.repo.ignoreCase path (gitignore children)).length
        ≤ maxHeldRules)
      (j.rulesIn w.rules excluded path children) (w.loadGitignore j path children excluded) := by
    unfold Walk.loadGitignore Job.rulesIn
    split_ifs
    · exact .ok
    · exact loadRules_yields _ _
  refine (hload.mono fun h => ?_).bind ((hread.mono fun h => ?_).bind .ok)
  · cases h with
    | leaf leaf => simp [Node.isDir] at leaf
    | dir names file lines each => exact ⟨file, lines⟩
  · cases h with
    | leaf leaf => simp [Node.isDir] at leaf
    | dir names file lines each => exact ⟨rfl, names⟩

/-- Everything that is left on the stack fits. -/
def StackFits (ignoreCase : Bool) : ℕ → List Rule → List Frame → Prop
  | _, _, [] => True
  | held, rules, f :: fs =>
    (∀ c ∈ f.children, c.2.Fits ignoreCase held rules.length (f.path ++ c.1)) ∧
      StackFits ignoreCase (held - f.held) (rules.take f.rulesFrom) fs

lemma Job.take_rulesIn (j : Job) (rules : List Rule) (excluded : Bool) (path : Bytes)
    (children : Children) : (j.rulesIn rules excluded path children).take rules.length = rules := by
  unfold Job.rulesIn
  split_ifs <;> simp

/-- Inside a directory that fits, everything that is left fits. -/
lemma StackFits.inside {excluded : Bool} (h : StackFits j.repo.ignoreCase w.held w.rules w.stack)
    (hdir : (Node.dir children fault).Fits j.repo.ignoreCase w.held w.rules.length path) :
    StackFits j.repo.ignoreCase (w.inside j path children excluded).held
      (w.inside j path children excluded).rules (w.inside j path children excluded).stack := by
  refine ⟨fun c hc => ?_, ?_⟩
  · obtain ⟨x, hx, -, rfl⟩ := mem_sortedChildren.1 hc
    cases hdir with
    | leaf leaf => simp [Node.isDir] at leaf
    | dir names file lines each =>
      refine (each x hx).mono ?_
      dsimp only [Walk.inside]
      unfold Job.rulesIn
      split_ifs
      · omega
      · rw [length_append]
  · dsimp only [Walk.inside]
    rw [Nat.add_sub_cancel, Job.take_rulesIn]
    exact h

/-- The rules of the files that apply everywhere. -/
def Job.base (j : Job) : List Rule :=
  (baseFiles j).flatMap fun f => fileRules j.repo.ignoreCase [] f.2

/-- A job that a walk gets through: the index can be read and has no more gitlinks than are
remembered, the files that apply everywhere and the tree fit, and the time limit never passes. -/
structure Job.Fits (j : Job) : Prop where
  index : j.ix.fault = none
  gitlinks : j.ix.entries.countP (fun e => e.mode = modeGitlink) ≤ maxGitlinks
  files : ∀ f ∈ baseFiles j, Content.Fits f.2
  base : j.base.length ≤ maxHeldRules
  tree : (Node.dir j.children j.fault).Fits j.repo.ignoreCase 0 j.base.length []
  time : ∀ n, j.late n = false

lemma foldlM_loadRules (files : List (Bytes × Option Content)) (rules : List Rule) :
    Yields ((∀ f ∈ files, Content.Fits f.2) ∧
        rules.length + (files.flatMap fun f => fileRules ignoreCase [] f.2).length ≤ maxHeldRules)
      (rules ++ files.flatMap fun f => fileRules ignoreCase [] f.2)
      (files.foldlM (fun rules f => loadRules ignoreCase f.1 f.2 [] rules) rules) := by
  induction files generalizing rules with
  | nil => exact .inl (by simp; rfl)
  | cons f files ih =>
    rw [forall_mem_cons, flatMap_cons, ← append_assoc, length_append, ← Nat.add_assoc]
    refine ((loadRules_yields f.2 rules).mono fun h => ⟨h.1.1, by omega⟩).bind
      ((ih _).mono fun h => ?_)
    exact ⟨h.1.2, by rw [length_append]; exact h.2⟩

lemma baseRules_yields (j : Job) : Yields j.Fits j.base (baseRules j) :=
  (foldlM_loadRules (baseFiles j) []).mono fun h => ⟨h.files, (Nat.zero_add _).trans_le h.base⟩

end Git
