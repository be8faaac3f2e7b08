import XMustard.Text.Pieces

/-! # Secret paths

Files whose content is a credential store are refused by path. The Go side owns the list and the
Rust core holds a copy of the rule for its own reads; both are below as their sources have them.
Paths are Unicode text, and names are compared as UTF-8 bytes. -/

/-- The bytes of a text. -/
def utf8 (s : List Char) : List UInt8 := s.flatMap String.utf8EncodeChar

/-- Either separator of names in a path. -/
def isSeparator (c : Char) : Bool := c = '/' || c = '\\'

/-! ## The Go rule -/

namespace Redact

def secretPathPatterns : List String :=
  ["**/.ssh/**", "**/id_rsa", "**/id_dsa", "**/id_ecdsa", "**/id_ed25519", "**/.netrc",
    "**/_netrc", "**/.npmrc", "**/.pypirc", "**/.dockercfg", "**/.env", "**/.env.*"]

/-- Templates that the `.env` patterns would match. -/
def secretPathExceptions : List String :=
  ["**/.env.example", "**/.env.sample", "**/.env.template"]

/-- ASCII letters in lower case, and the two other characters that fold to one. -/
def foldRune (r : Char) : Char :=
  if 'A' ≤ r ∧ r ≤ 'Z' then Char.ofNat (r.toNat + 'a'.toNat - 'A'.toNat)
  else if r = '\u212a' then 'k'
  else if r = '\u017f' then 's'
  else r

/-- A name without its stream suffix. -/
def cutStream (name : List Char) : List Char :=
  match name.idxOf? ':' with
  | some i => name.take i
  | none => name

/-- The name a file system may open for `name`: without a stream suffix and without trailing dots
and spaces. -/
def foldName (name : List Char) : List Char :=
  ((cutStream name).rdropWhile fun c => c = '.' || c = ' ').map foldRune

/-- One name against a pattern in which `*` stands for any run of bytes. -/
def globName (pattern name : List UInt8) : Bool :=
  let star := pattern.idxOf 42
  if star < pattern.length then
    (pattern.take star).isPrefixOf name &&
      (List.range' star (name.length + 1 - star)).any fun i =>
        globName (pattern.drop (star + 1)) (name.drop i)
  else pattern = name
termination_by pattern.length
decreasing_by
  simp only [List.length_drop]
  omega

/-- Path names against pattern names: `**` matches any number of names. -/
def globNames : List (List Char) → List (List UInt8) → Bool
  | [], names => names.length = 0
  | p :: pattern, names =>
    if p = ['*', '*'] then
      (List.range (names.length + 1)).reverse.any fun i => globNames pattern (names.drop i)
    else match names with
      | [] => false
      | name :: names => globName (utf8 p) name && globNames pattern names

/-- What follows the last slash. -/
def fileName (p : String) : List Char := p.toList.rtakeWhile (· ≠ '/')

/-- A matching exception is an instance of the pattern's file name. -/
def exempt (pattern : String) (hits : String → Bool) : Bool :=
  secretPathExceptions.any fun e =>
    fileName pattern ≠ ['*', '*'] && globName (utf8 (fileName pattern))
      (utf8 (fileName e)) && hits e

def namesOf (path : String) : List (List Char) :=
  ((Text.fields isSeparator path.toList).map foldName).filter (· ≠ [])

def hits (names : List (List Char)) (p : String) : Bool :=
  globNames (p.toList.splitOn '/') (names.map utf8)

/-- The pattern that makes `path` a secret path. -/
def matchSecretPath (path : String) : Option String :=
  let names := namesOf path
  if names.length = 0 then none
  else secretPathPatterns.find? fun p => hits names p && !exempt p (hits names)

end Redact

/-! ## The Rust copy -/

namespace SecretPath

def SECRET_PATH_PATTERNS : List String :=
  ["**/.ssh/**", "**/id_rsa", "**/id_dsa", "**/id_ecdsa", "**/id_ed25519", "**/.netrc",
    "**/_netrc", "**/.npmrc", "**/.pypirc", "**/.dockercfg", "**/.env", "**/.env.*"]

def SECRET_PATH_EXCEPTIONS : List String :=
  ["**/.env.example", "**/.env.sample", "**/.env.template"]

def foldName (name : List Char) : List Char :=
  let name := (name.splitOn ':').head?.getD []
  (name.rdropWhile fun c => c = '.' || c = ' ').map fun c =>
    if 'A' ≤ c ∧ c ≤ 'Z' then c.toLower
    else match c with
      | '\u212a' => 'k'
      | '\u017f' => 's'
      | c => c

def globName (pattern name : List UInt8) : Bool :=
  match h : pattern.findIdx? (· = 42) with
  | none => pattern = name
  | some star =>
    (pattern.take star).isPrefixOf name &&
      (List.range' star (name.length + 1 - star)).any fun i =>
        globName (pattern.drop (star + 1)) (name.drop i)
termination_by pattern.length
decreasing_by
  have hlt : star < pattern.length := (List.findIdx?_eq_some_iff_getElem.1 h).1
  simp only [List.length_drop]
  omega

def globNames : List (List Char) → List (List UInt8) → Bool
  | [], names => names.isEmpty
  | ['*', '*'] :: rest, names =>
    (List.range (names.length + 1)).reverse.any fun i => globNames rest (names.drop i)
  | first :: rest, name :: tail => globName (utf8 first) name && globNames rest tail
  | _ :: _, [] => false

def fileName (p : String) : List Char := (p.toList.splitOn '/').getLast?.getD p.toList

def exempt (pattern : String) (hits : String → Bool) : Bool :=
  fileName pattern ≠ ['*', '*'] &&
    SECRET_PATH_EXCEPTIONS.any fun e =>
      globName (utf8 (fileName pattern)) (utf8 (fileName e)) && hits e

def matchSecretPath (path : String) : Option String :=
  let names := ((path.toList.splitOnP isSeparator).map foldName).filter fun n => !n.isEmpty
  if names.isEmpty then none
  else
    let hits (p : String) := globNames (p.toList.splitOn '/') (names.map utf8)
    SECRET_PATH_PATTERNS.find? fun p => hits p && !exempt p hits

end SecretPath
