import Mathlib.Data.List.Find
import XMustard.Lists.Order
import XMustard.Redact.SecretPath

/-! # What the secret path rules refuse

The two sides give the same answer for every path, and refuse what passes through `.ssh` and what
ends in a secret name. -/

namespace Redact

open List

/-! ## The two sides agree -/

lemma toLower_eq {c : Char} (h : 'A' ≤ c ∧ c ≤ 'Z') :
    c.toLower = Char.ofNat (c.toNat + 'a'.toNat - 'A'.toNat) := by
  have hall : ∀ n ≤ 90, 65 ≤ n →
      (Char.ofNat n).toLower = Char.ofNat ((Char.ofNat n).toNat + 'a'.toNat - 'A'.toNat) := by
    decide
  have hc := hall c.toNat h.2 h.1
  rwa [Char.ofNat_toNat] at hc

variable (name : List Char)

lemma cutStream_eq : cutStream name = name.takeWhile (· ≠ ':') := by
  rw [← Text.take_idxOf, idxOf_eq_getD_idxOf?, cutStream]
  cases name.idxOf? ':' with
  | none => exact (take_length).symm
  | some i => rfl

lemma foldName_eq : SecretPath.foldName name = foldName name := by
  unfold SecretPath.foldName foldName
  rw [Text.head_splitOn, cutStream_eq]
  refine map_congr_left fun c _ => ?_
  unfold foldRune
  split
  · exact toLower_eq ‹_›
  · split <;> simp_all

lemma globName_eq (pattern name : List UInt8) :
    SecretPath.globName pattern name = globName pattern name := by
  fun_induction SecretPath.globName pattern name with
  | case1 pattern name hnone =>
    have hstar : pattern.idxOf 42 = pattern.length := findIdx?_eq_none_iff_findIdx_eq.1 hnone
    rw [globName, if_neg hstar.not_lt]
  | case2 pattern name star hsome ih =>
    obtain ⟨hlt, hstar⟩ := findIdx?_eq_some_iff_findIdx_eq.1 hsome
    obtain rfl : pattern.idxOf 42 = star := hstar
    rw [globName, if_pos hlt]
    exact congrArg _ (congrArg _ (funext ih))

@[simp] lemma globNames_nil (names : List (List UInt8)) :
    globNames [] names = names.isEmpty := by cases names <;> simp [globNames]

@[simp] lemma globNames_dirs (pattern : List (List Char)) (names : List (List UInt8)) :
    globNames (['*', '*'] :: pattern) names
      = (range (names.length + 1)).reverse.any fun i => globNames pattern (names.drop i) := by
  cases names <;> simp [globNames]

variable {p : List Char}

@[simp] lemma globNames_name_nil (hp : p ≠ ['*', '*'])
    (pattern : List (List Char)) : globNames (p :: pattern) [] = false := by
  simp [globNames, hp]

@[simp] lemma globNames_name (hp : p ≠ ['*', '*']) (pattern : List (List Char))
    (name : List UInt8) (names : List (List UInt8)) :
    globNames (p :: pattern) (name :: names)
      = (globName (utf8 p) name && globNames pattern names) := by
  simp [globNames, hp]

lemma globNames_eq (pattern : List (List Char)) (names : List (List UInt8)) :
    SecretPath.globNames pattern names = globNames pattern names := by
  induction pattern generalizing names with
  | nil => cases names <;> rfl
  | cons p pattern ih =>
    by_cases hp : p = ['*', '*']
    · subst hp
      exact congrArg _ (funext fun i => ih _)
    · cases names with
      | nil =>
        rw [globNames_name_nil hp, SecretPath.globNames]
        exact hp
      | cons name names =>
        rw [globNames_name hp, SecretPath.globNames, globName_eq, ih]
        exact hp

lemma exempt_eq {p : String} (hp : p ∈ secretPathPatterns) (hits : String → Bool) :
    SecretPath.exempt p hits = exempt p hits := by
  have hfile : ∀ p ∈ secretPathPatterns ++ secretPathExceptions,
      SecretPath.fileName p = fileName p := by decide +kernel
  have hname := hfile p (mem_append_left _ hp)
  rw [Bool.eq_iff_iff]
  simp only [SecretPath.exempt, exempt, Bool.and_eq_true, any_eq_true, hname, globName_eq]
  constructor
  · rintro ⟨hstar, e, he, hglob, hhit⟩
    rw [hfile e (mem_append_right _ he)] at hglob
    exact ⟨e, he, ⟨hstar, hglob⟩, hhit⟩
  · rintro ⟨e, he, ⟨hstar, hglob⟩, hhit⟩
    refine ⟨hstar, e, he, ?_, hhit⟩
    rwa [hfile e (mem_append_right _ he)]

/-- Empty pieces fold to nothing, so it does not matter when they are dropped. -/
lemma filter_map_foldName (pieces : List (List Char)) :
    ((pieces.filter (· ≠ [])).map foldName).filter (· ≠ [])
      = (pieces.map foldName).filter (· ≠ []) := by
  induction pieces with
  | nil => rfl
  | cons piece pieces ih =>
    by_cases hpiece : piece = []
    · subst hpiece
      have hfold : foldName [] = [] := rfl
      simpa [hfold] using ih
    · rw [filter_cons_of_pos (by simpa using hpiece), map_cons, map_cons,
        filter_cons, filter_cons, ih]

variable (path : String)

lemma namesOf_eq :
    namesOf path = ((path.toList.splitOnP isSeparator).map foldName).filter (· ≠ []) := by
  rw [namesOf, Text.fields_eq_filter, filter_map_foldName]

lemma matchSecretPath_eq : SecretPath.matchSecretPath path = matchSecretPath path := by
  have hnames : ((path.toList.splitOnP isSeparator).map SecretPath.foldName).filter
      (fun n => !n.isEmpty) = namesOf path := by
    rw [namesOf_eq, funext foldName_eq]
    exact filter_congr fun n _ => by cases n <;> rfl
  unfold SecretPath.matchSecretPath matchSecretPath
  rw [hnames]
  simp only [List.isEmpty_iff, List.length_eq_zero_iff]
  split
  · rfl
  · simp only [globNames_eq]
    exact List.find?_congr fun p hp => by rw [exempt_eq hp, hits]; rfl

/-! ## Names as bytes -/

lemma utf8Encode_eq (s : List Char) : s.utf8Encode = (utf8 s).toByteArray := rfl

lemma utf8_append (s t : List Char) : utf8 (s ++ t) = utf8 s ++ utf8 t := flatMap_append

lemma utf8_injective : Function.Injective utf8 := by
  intro s t h
  have hdecode : s.utf8Encode.utf8Decode? = t.utf8Encode.utf8Decode? := by
    rw [utf8Encode_eq, utf8Encode_eq, h]
  simpa using hdecode

lemma utf8_prefix_iff {s t : List Char} : utf8 s <+: utf8 t ↔ s <+: t := by
  constructor
  · rintro ⟨b, hb⟩
    refine isPrefix_of_utf8Encode_append_eq_utf8Encode b.toByteArray ?_
    rw [utf8Encode_eq, utf8Encode_eq, ← hb, toByteArray_append]
  · rintro ⟨b, rfl⟩
    rw [utf8_append]
    exact prefix_append ..

/-! ## What a pattern matches -/

lemma globName_plain {pattern name : List UInt8} (h : 42 ∉ pattern) :
    globName pattern name = true ↔ pattern = name := by
  have hge : ¬pattern.idxOf 42 < pattern.length := by
    rw [idxOf_eq_length_iff.2 h]
    exact Nat.lt_irrefl _
  rw [globName, if_neg hge, decide_eq_true_iff]

/-- A star at the end stands for the rest of the name. -/
lemma globName_star {start name : List UInt8} (h : 42 ∉ start) :
    globName (start ++ [42]) name = true ↔ start <+: name := by
  have hidx : (start ++ [42]).idxOf 42 = start.length := by
    rw [idxOf_append_of_notMem h]
    simp
  rw [globName, hidx, if_pos (by simp), take_left, drop_of_length_le (by simp),
    Bool.and_eq_true, isPrefixOf_iff_prefix, any_eq_true]
  refine ⟨And.left, fun hstart => ⟨hstart, name.length, ?_, ?_⟩⟩
  · have hle := hstart.length_le
    rw [mem_range'_1]
    omega
  · rw [drop_length]
    exact (globName_plain (by simp)).2 rfl

variable {names : List (List UInt8)}

lemma globNames_dirs_iff {pattern : List (List Char)} :
    globNames (['*', '*'] :: pattern) names = true ↔
      ∃ after, after <:+ names ∧ globNames pattern after = true := by
  rw [globNames_dirs, any_eq_true]
  constructor
  · rintro ⟨i, -, h⟩
    exact ⟨_, drop_suffix i names, h⟩
  · rintro ⟨after, hafter, h⟩
    refine ⟨names.length - after.length, ?_, ?_⟩
    · simp only [mem_reverse, mem_range]
      omega
    · rwa [← suffix_iff_eq_drop.1 hafter]

/-- A rule for a name looks at the last one. -/
lemma globNames_last (hp : p ≠ ['*', '*']) :
    globNames [['*', '*'], p] names = true ↔
      ∃ name, names.getLast? = some name ∧ globName (utf8 p) name = true := by
  rw [globNames_dirs_iff]
  constructor
  · rintro ⟨after, ⟨before, rfl⟩, h⟩
    rcases after with _ | ⟨name, _ | ⟨name', after⟩⟩
    · simp [hp] at h
    · exact ⟨name, by simp, by simpa [hp] using h⟩
    · simp [hp] at h
  · rintro ⟨name, hlast, h⟩
    refine ⟨[name], ?_, by simpa [hp] using h⟩
    obtain ⟨before, rfl⟩ := getLast?_eq_some_iff.1 hlast
    exact suffix_append ..

/-- A rule for a directory looks at every name. -/
lemma globNames_directory (hp : p ≠ ['*', '*']) :
    globNames [['*', '*'], p, ['*', '*']] names = true ↔
      ∃ name ∈ names, globName (utf8 p) name = true := by
  rw [globNames_dirs_iff]
  constructor
  · rintro ⟨after, ⟨before, rfl⟩, h⟩
    rcases after with _ | ⟨name, after⟩
    · simp [hp] at h
    · rw [globNames_name hp, Bool.and_eq_true] at h
      exact ⟨name, by simp, h.1⟩
  · rintro ⟨name, hname, h⟩
    obtain ⟨before, after, rfl⟩ := append_of_mem hname
    refine ⟨name :: after, suffix_append .., ?_⟩
    rw [globNames_name hp, h, Bool.true_and, globNames_dirs_iff]
    exact ⟨[], nil_suffix, rfl⟩

/-! ## What is refused -/

/-- The names that are refused as they stand. -/
def secretNames : List String :=
  ["id_rsa", "id_dsa", "id_ecdsa", "id_ed25519", ".netrc", "_netrc", ".npmrc", ".pypirc",
    ".dockercfg", ".env"]

def templates : List String := [".env.example", ".env.sample", ".env.template"]

/-- A name on the list: one of the names as they stand, or `.env.` and more, but no template. -/
def Listed : Prop :=
  (∃ n ∈ secretNames, name = n.toList) ∨
    ".env.".toList <+: name ∧ ∀ t ∈ templates, name ≠ t.toList

lemma Listed.ne_nil {name : List Char} (h : Listed name) : name ≠ [] := by
  rintro rfl
  rcases h with ⟨n, hn, heq⟩ | ⟨hstart, -⟩
  · have hall : ∀ n ∈ secretNames, [] ≠ n.toList := by decide
    exact hall n hn heq
  · exact absurd (prefix_nil.1 hstart) (by decide)

/-- The rule for `.ssh`, one rule for each name, and the rule for what starts with `.env.`. -/
lemma secretPathPatterns_eq :
    secretPathPatterns = "**/.ssh/**" :: secretNames.map ("**/" ++ ·) ++ ["**/.env.*"] := by
  decide +kernel

variable {names : List (List Char)} {n : String}

lemma getLast?_map_utf8 {name : List Char} :
    (names.map utf8).getLast? = some (utf8 name) ↔ names.getLast? = some name := by
  rw [getLast?_map]
  exact Option.map_eq_some_iff.trans
    ⟨fun ⟨_, hlast, heq⟩ => utf8_injective heq ▸ hlast, fun hlast => ⟨name, hlast, rfl⟩⟩

lemma hits_ssh : hits names "**/.ssh/**" = true ↔ ".ssh".toList ∈ names := by
  have hsplit : "**/.ssh/**".toList.splitOn '/' = [['*', '*'], ".ssh".toList, ['*', '*']] := by
    decide
  have hplain : 42 ∉ utf8 ".ssh".toList := by decide
  rw [hits, hsplit, globNames_directory (by decide)]
  constructor
  · rintro ⟨_, hname, hglob⟩
    obtain ⟨name, hname, rfl⟩ := mem_map.1 hname
    rwa [utf8_injective ((globName_plain hplain).1 hglob)]
  · intro hname
    exact ⟨_, mem_map_of_mem hname, (globName_plain hplain).2 rfl⟩

lemma hits_name (hn : n ∈ secretNames ++ templates) :
    hits names ("**/" ++ n) = true ↔ names.getLast? = some n.toList := by
  have hall : ∀ n ∈ secretNames ++ templates,
      ("**/" ++ n).toList.splitOn '/' = [['*', '*'], n.toList] ∧ n.toList ≠ ['*', '*'] ∧
        42 ∉ utf8 n.toList := by decide +kernel
  obtain ⟨hsplit, hne, hplain⟩ := hall n hn
  rw [hits, hsplit, globNames_last hne, ← getLast?_map_utf8]
  constructor
  · rintro ⟨name, hlast, hglob⟩
    rwa [(globName_plain hplain).1 hglob]
  · intro hlast
    exact ⟨_, hlast, (globName_plain hplain).2 rfl⟩

lemma hits_env : hits names "**/.env.*" = true ↔
    ∃ name, names.getLast? = some name ∧ ".env.".toList <+: name := by
  have hsplit : "**/.env.*".toList.splitOn '/' = [['*', '*'], ".env.*".toList] := by decide
  have hstar : utf8 ".env.*".toList = utf8 ".env.".toList ++ [42] := by decide
  rw [hits, hsplit, globNames_last (by decide), hstar, getLast?_map]
  simp only [globName_star (show 42 ∉ utf8 ".env.".toList by decide), Option.map_eq_some_iff]
  constructor
  · rintro ⟨_, ⟨name, hlast, rfl⟩, hstart⟩
    exact ⟨name, hlast, utf8_prefix_iff.1 hstart⟩
  · rintro ⟨name, hlast, hstart⟩
    exact ⟨_, ⟨name, hlast, rfl⟩, utf8_prefix_iff.2 hstart⟩

/-- A name that is refused as it stands is no template. -/
lemma exempt_name (hn : n ∈ secretNames) (f : String → Bool) : exempt ("**/" ++ n) f = false := by
  have hall : ∀ n ∈ secretNames, fileName ("**/" ++ n) = n.toList ∧ 42 ∉ utf8 n.toList ∧
      ∀ e ∈ secretPathExceptions, utf8 n.toList ≠ utf8 (fileName e) := by decide +kernel
  obtain ⟨hfile, hplain, hne⟩ := hall n hn
  rw [exempt, any_eq_false]
  intro e he
  have hglob : globName (utf8 n.toList) (utf8 (fileName e)) = false := by
    rw [Bool.eq_false_iff]
    exact fun h => hne e he ((globName_plain hplain).1 h)
  simp [hfile, hglob]

lemma exempt_env : exempt "**/.env.*" (hits names) = true ↔
    ∃ t ∈ templates, names.getLast? = some t.toList := by
  have hfile : fileName "**/.env.*" = ".env.*".toList := by decide
  have hstar : utf8 ".env.*".toList = utf8 ".env.".toList ++ [42] := by decide
  have hexc : secretPathExceptions = templates.map ("**/" ++ ·) := by decide
  have hglob : ∀ t ∈ templates,
      globName (utf8 ".env.*".toList) (utf8 (fileName ("**/" ++ t))) = true := by
    have hstart : ∀ t ∈ templates, utf8 ".env.".toList <+: utf8 (fileName ("**/" ++ t)) := by
      decide +kernel
    intro t ht
    rw [hstar, globName_star (by decide)]
    exact hstart t ht
  rw [exempt, hexc, any_map, any_eq_true]
  refine exists_congr fun t => and_congr_right fun ht => ?_
  rw [← hits_name (mem_append_right _ ht)]
  have hname : decide (".env.*".toList ≠ ['*', '*']) = true := by decide
  simp only [Function.comp_apply, hfile, hname, hglob t ht, Bool.true_and]

/-- What is refused: paths through `.ssh` and paths that end in a listed name. -/
lemma matchSecretPath_isSome_iff : (matchSecretPath path).isSome = true ↔
      ".ssh".toList ∈ namesOf path ∨ ∃ name, (namesOf path).getLast? = some name ∧ Listed name := by
  have hrules : (secretPathPatterns.find? fun p =>
        hits (namesOf path) p && !exempt p (hits (namesOf path))).isSome = true ↔
      ".ssh".toList ∈ namesOf path ∨ ∃ name, (namesOf path).getLast? = some name ∧ Listed name := by
    generalize namesOf path = names
    rw [secretPathPatterns_eq, find?_isSome]
    constructor
    · rintro ⟨p, hp, hhit⟩
      obtain ⟨hhit, hexempt⟩ := Bool.and_eq_true_iff.1 hhit
      rcases mem_append.1 hp with hp | hp
      · rcases mem_cons.1 hp with rfl | hp
        · exact .inl (hits_ssh.1 hhit)
        · obtain ⟨n, hn, rfl⟩ := mem_map.1 hp
          have hlast := (hits_name (mem_append_left _ hn)).1 hhit
          exact .inr ⟨_, hlast, .inl ⟨n, hn, rfl⟩⟩
      · obtain rfl := mem_singleton.1 hp
        obtain ⟨name, hlast, hstart⟩ := hits_env.1 hhit
        refine .inr ⟨name, hlast, .inr ⟨hstart, ?_⟩⟩
        rintro t ht rfl
        rw [exempt_env.2 ⟨t, ht, hlast⟩] at hexempt
        cases hexempt
    · rintro (hssh | ⟨name, hlast, ⟨n, hn, rfl⟩ | ⟨hstart, hne⟩⟩)
      · refine ⟨"**/.ssh/**", by simp, ?_⟩
        rw [hits_ssh.2 hssh]
        rfl
      · refine ⟨"**/" ++ n, ?_, ?_⟩
        · exact mem_append_left _ (mem_cons_of_mem _ (mem_map_of_mem hn))
        · rw [(hits_name (mem_append_left _ hn)).2 hlast, exempt_name hn]
          rfl
      · have hexempt : exempt "**/.env.*" (hits names) = false := by
          rw [Bool.eq_false_iff]
          intro h
          obtain ⟨t, ht, hlast'⟩ := exempt_env.1 h
          exact hne t ht (Option.some.inj (hlast.symm.trans hlast'))
        refine ⟨"**/.env.*", by simp, ?_⟩
        rw [hits_env.2 ⟨name, hlast, hstart⟩, hexempt]
        rfl
  unfold matchSecretPath
  dsimp only
  split
  · rename_i hempty
    rw [length_eq_zero_iff.1 hempty]
    simp
  · exact hrules

/-- The components of a path, as they stand. -/
def components : List (List Char) := path.toList.splitOnP isSeparator

/-- Both sides give the same verdict and the same pattern; they refuse a path with a component
that folds to `.ssh` and one after it, and a path whose last component (but for components that
fold to nothing) folds to a listed name. -/
theorem secretPath_rules (path : String) :
    SecretPath.matchSecretPath path = matchSecretPath path ∧
      (∀ before name after, components path = before ++ name :: after →
        foldName name = ".ssh".toList → after ≠ [] → (matchSecretPath path).isSome = true) ∧
      ∀ before name after, components path = before ++ name :: after →
        (∀ c ∈ after, foldName c = []) → Listed (foldName name) →
        (matchSecretPath path).isSome = true := by
  refine ⟨matchSecretPath_eq path, fun before name after hpath hname _ => ?_,
    fun before name after hpath hafter hlisted => ?_⟩
  · refine (matchSecretPath_isSome_iff path).2 (.inl ?_)
    rw [namesOf_eq]
    refine mem_filter.2 ⟨mem_map.2 ⟨name, ?_, hname⟩, by decide⟩
    rw [components] at hpath
    simp [hpath]
  · have hnil := hlisted.ne_nil
    refine (matchSecretPath_isSome_iff path).2 (.inr ⟨foldName name, ?_, hlisted⟩)
    have hdrop : (after.map foldName).filter (· ≠ []) = [] := by
      rw [filter_eq_nil_iff]
      intro n hn
      obtain ⟨c, hc, rfl⟩ := mem_map.1 hn
      simp [hafter c hc]
    rw [components] at hpath
    rw [namesOf_eq, hpath, map_append, map_cons, filter_append,
      filter_cons_of_pos (by simpa using hnil), hdrop]
    simp

theorem secretPath_rules_kelvin :
    (SecretPath.matchSecretPath "repo\\.SSH. :x/notes").isSome = true ∧
      (SecretPath.matchSecretPath "home/.docKercfg..:s/.").isSome = true := by
  constructor
  · rw [(secretPath_rules _).1]
    exact (secretPath_rules _).2.1 ["repo".toList] ".SSH. :x".toList ["notes".toList] (by decide)
      (by decide) (by decide)
  · rw [(secretPath_rules _).1]
    exact (secretPath_rules _).2.2 ["home".toList] ".docKercfg..:s".toList [".".toList]
      (by decide) (by decide) (.inl ⟨".dockercfg", by decide, by decide⟩)

end Redact
