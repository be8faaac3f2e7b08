import XMustard.Text.Pieces

/-! # Relative imports

A relative specifier is joined to the directory of the file that imports it, and the path it names
is tried as a file, with the source extensions, as the spelling of a TypeScript source, and as a
directory with an index file. The writer does this on texts. -/

namespace Index.RelativeImports

open List

/-! ### The writer -/

abbrev Chars := List Char

/-- One segment of a specifier; no segment leads out of the repository. -/
def step (parts : List Chars) (seg : Chars) : Option (List Chars) :=
  if seg = [] ∨ seg = ['.'] then some parts
  else if seg = ['.', '.'] then if parts = [] then none else some parts.dropLast
  else some (parts ++ [seg])

abbrev Relative (spec : Chars) : Prop :=
  ['.', '/'] <+: spec ∨ ['.', '.', '/'] <+: spec ∨ spec = ['.'] ∨ spec = ['.', '.']

/-- The path a relative specifier names, before extensions. -/
def relativeTargetKey (fromPath spec : Chars) : Option Chars :=
  if Relative spec then do
    let parts ← (spec.splitOn '/').foldlM step (fromPath.splitOn '/').dropLast
    return ['/'].intercalate parts
  else none

def resolveExts : List Chars :=
  ["ts", "tsx", "js", "jsx", "mjs", "cjs", "mts", "cts"].map String.toList

def withExt (stem ext : Chars) : Chars := stem ++ '.' :: ext

/-- The TypeScript sources of an ESM spelling. -/
def esmSources (key : Chars) : List Chars :=
  match Text.rsplitOnce '.' key with
  | some (stem, ext) =>
    if ext ∈ ["js", "jsx", "mjs", "cjs"].map String.toList ∧ ¬['/'] <:+ stem then
      ["ts", "tsx", "mts", "cts"].map fun e => withExt stem e.toList
    else []
  | none => []

/-- The texts tried for a key, in order. -/
def resolutionCandidates (key : Chars) : List Chars :=
  key :: resolveExts.map (withExt key) ++ esmSources key
    ++ resolveExts.map (withExt (key ++ "/index".toList))

/-- The path of the file that an import is resolved to. -/
def resolveImport (indexed : Chars → Bool) (fromPath spec : Chars) : Option Chars :=
  (relativeTargetKey fromPath spec).bind fun key => (resolutionCandidates key).find? indexed

/-! ### Paths -/

/-- A path of the repository: at least one name, and none that is empty or has a `/`. -/
abbrev Path := { p : List Chars // p ≠ [] ∧ ∀ n ∈ p, n ≠ [] ∧ '/' ∉ n }

def text (p : List Chars) : Chars := ['/'].intercalate p

/-- The texts of the indexed files. -/
structure Files where
  has : Chars → Bool
  paths : ∀ s, has s → ∃ p : Path, s = text p.1

abbrev Specifier := { s : Chars // Relative s }

/-- From a directory the segments lead to a path. -/
inductive Leads : List Chars → List Chars → List Chars → Prop
  | done {d : List Chars} : Leads d [] d
  | stay {d segs t : List Chars} {seg : Chars} (h : seg = [] ∨ seg = ['.'])
    (rest : Leads d segs t) :
    Leads d (seg :: segs) t
  | up {d segs t : List Chars} {n : Chars} (rest : Leads d segs t) :
    Leads (d ++ [n]) (['.', '.'] :: segs) t
  | down {d segs t : List Chars} {n : Chars} (h : ¬(n = [] ∨ n = ['.'])) (hup : n ≠ ['.', '.'])
    (rest : Leads (d ++ [n]) segs t) : Leads d (n :: segs) t

/-- The files a path may name: the path itself, with each extension, the sources of an ESM spelling,
then the index files in it. -/
def candidates (t : List Chars) : List Chars :=
  text t :: resolveExts.map (withExt (text t)) ++ esmSources (text t)
    ++ resolveExts.map fun e => text (t ++ [withExt "index".toList e])

/-- What an import resolves to: the first candidate that is there, if the specifier names a path. -/
def Resolves (files : Files) (importer : Path) (spec : Specifier) (r : Option Chars) : Prop :=
  (∀ t, Leads importer.1.dropLast (spec.1.splitOn '/') t → r = (candidates t).find? files.has)
  ∧ ((¬∃ t, Leads importer.1.dropLast (spec.1.splitOn '/') t) → r = none)

/-! ### Joining -/

variable {d segs t : List Chars} {files : Files}

lemma foldlM_step : segs.foldlM step d = some t ↔ Leads d segs t := by
  induction segs generalizing d with
  | nil =>
    refine ⟨fun h => ?_, fun h => ?_⟩
    · cases h
      exact .done
    · cases h
      rfl
  | cons seg segs ih =>
    rw [foldlM_cons, Option.bind_eq_bind, Option.bind_eq_some_iff]
    constructor
    · rintro ⟨d', hstep, hrest⟩
      rw [ih] at hrest
      unfold step at hstep
      split_ifs at hstep with hstay hup htop <;> cases hstep
      · exact .stay hstay hrest
      · rw [hup, ← dropLast_append_getLast htop]
        exact .up hrest
      · exact .down hstay hup hrest
    · intro h
      cases h with
      | stay hstay rest => exact ⟨d, if_pos hstay, ih.2 rest⟩
      | @up d _ _ n rest => exact ⟨d, by simp [step], ih.2 rest⟩
      | down hstay hup rest => exact ⟨_, by rw [step, if_neg hstay, if_neg hup], ih.2 rest⟩

lemma resolveImport_eq (importer : Path) (spec : Specifier) :
    resolveImport files.has (text importer.1) spec.1
      = ((spec.1.splitOn '/').foldlM step importer.1.dropLast).bind fun t =>
        (resolutionCandidates (text t)).find? files.has := by
  have himporter : (text importer.1).splitOn '/' = importer.1 :=
    splitOn_intercalate '/' (fun n hn => (importer.2.2 n hn).2) importer.2.1
  rw [resolveImport, relativeTargetKey, if_pos spec.2, himporter]
  exact Option.bind_assoc ..

/-! ### What is tried -/

lemma text_snoc (ht : t ≠ []) (n : Chars) : text (t ++ [n]) = text t ++ '/' :: n := by
  induction t with
  | nil => exact absurd rfl ht
  | cons m t ih => cases t <;> simp_all [text]

lemma resolutionCandidates_text (ht : t ≠ []) : resolutionCandidates (text t) = candidates t := by
  have hindex (e : Chars) : withExt (text t ++ "/index".toList) e
      = text (t ++ [withExt "index".toList e]) := by
    simp [text_snoc ht, withExt]
  rw [resolutionCandidates, candidates, funext hindex]

/-- No indexed text is empty or begins with a `/`. -/
lemma Files.not_has {s : Chars} (hs : s.head?.all (· = '/')) : files.has s = false := by
  refine Bool.eq_false_iff.2 fun h => ?_
  obtain ⟨⟨_ | ⟨n, p⟩, hne, hp⟩, rfl⟩ := files.paths s h
  · exact hne rfl
  · obtain ⟨⟨c, n, rfl⟩, hslash⟩ := (hp n mem_cons_self).imp_left exists_cons_of_ne_nil
    obtain rfl : c = '/' := by cases p <;> simpa [text] using hs
    exact hslash mem_cons_self

/-- At the top the writer looks for the index files under a name that no file has. -/
lemma find?_top : (resolutionCandidates (text [])).find? files.has = (candidates []).find? files.has
    ↔ (∃ e ∈ resolveExts, files.has (withExt [] e))
      ∨ ∀ e ∈ resolveExts, ¬files.has (withExt "index".toList e) := by
  have hcode : resolutionCandidates (text []) = ([] :: resolveExts.map (withExt []))
      ++ resolveExts.map fun e => '/' :: withExt "index".toList e := rfl
  have hspec : candidates [] = ([] :: resolveExts.map (withExt []))
      ++ resolveExts.map (withExt "index".toList) := rfl
  have hnone : (resolveExts.map fun e => '/' :: withExt "index".toList e).find? files.has
      = none := by
    simp [Files.not_has]
  rw [hcode, hspec, find?_append, find?_append, hnone,
    find?_cons_of_neg (Bool.eq_false_iff.1 (Files.not_has rfl))]
  cases hfirst : (resolveExts.map (withExt [])).find? files.has with
  | none =>
    have hno : ¬∃ e ∈ resolveExts, files.has (withExt [] e) := by simpa using hfirst
    rw [Option.or_none, Option.none_or, eq_comm, find?_eq_none, forall_mem_map, or_iff_right hno]
  | some s =>
    obtain ⟨e, he, rfl⟩ := mem_map.1 (mem_of_find?_eq_some hfirst)
    exact iff_of_true rfl (.inl ⟨e, he, find?_some hfirst⟩)

/-- An import resolves to the first file that its path may name. Where that path is the top of the
repository, this needs a file there named like an extension, or no index file. -/
theorem resolveImport_iff (files : Files) (importer : Path) (spec : Specifier) :
    Resolves files importer spec (resolveImport files.has (text importer.1) spec.1)
      ↔ (Leads importer.1.dropLast (spec.1.splitOn '/') [] →
        (∃ e ∈ resolveExts, files.has (withExt [] e))
          ∨ ∀ e ∈ resolveExts, ¬files.has (withExt "index".toList e)) := by
  by_cases h : ∃ t, Leads importer.1.dropLast (spec.1.splitOn '/') t
  · obtain ⟨t, ht⟩ := h
    have hunique (t') (ht' : Leads importer.1.dropLast (spec.1.splitOn '/') t') : t' = t :=
      Option.some.inj ((foldlM_step.2 ht').symm.trans (foldlM_step.2 ht))
    rw [resolveImport_eq, foldlM_step.2 ht, Option.bind_some]
    refine (and_iff_left fun hno => absurd ⟨t, ht⟩ hno).trans ?_
    rcases eq_or_ne t [] with rfl | hne
    · rw [imp_iff_right ht, ← find?_top]
      exact ⟨fun hall => hall [] ht, fun heq t' ht' => hunique t' ht' ▸ heq⟩
    · refine iff_of_true (fun t' ht' => ?_) fun htop => absurd (hunique [] htop).symm hne
      rw [hunique t' ht', resolutionCandidates_text hne]
  · have hnone : (spec.1.splitOn '/').foldlM step importer.1.dropLast = none :=
      Option.eq_none_iff_forall_ne_some.2 fun t ht => h ⟨t, foldlM_step.1 ht⟩
    rw [resolveImport_eq, hnone]
    exact iff_of_true ⟨fun t ht => absurd ⟨t, ht⟩ h, fun _ => rfl⟩ fun htop => absurd ⟨[], htop⟩ h

/-- In a repository with `a/b.ts` and `index.ts`. -/
def topIndex : Files where
  has s := s = "a/b.ts".toList || s = "index.ts".toList
  paths s hs := by
    rcases Bool.or_eq_true_iff.1 hs with h | h
    · exact ⟨⟨["a".toList, "b.ts".toList], by decide⟩, of_decide_eq_true h⟩
    · exact ⟨⟨["index.ts".toList], by decide⟩, of_decide_eq_true h⟩

/-- The specifier `..` in `a/b.ts` names the top, and its index file is not found. -/
theorem resolveImport_misses_top_index :
    let importer : Path := ⟨["a".toList, "b.ts".toList], by decide⟩
    let spec : Specifier := ⟨"..".toList, by decide⟩
    ¬Resolves topIndex importer spec (resolveImport topIndex.has (text importer.1) spec.1) := by
  intro importer spec h
  have hleads : Leads importer.1.dropLast (spec.1.splitOn '/') [] :=
    .up (d := []) (n := "a".toList) .done
  exact absurd (h.1 [] hleads) (by decide)

end Index.RelativeImports
