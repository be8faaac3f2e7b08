import XMustard.Evidence.JsonScanned
import XMustard.Text.JsonRead

/-!
# Errors in embedded results

The text of a result may be a JSON object. Its bytes come in pieces, and the scan follows only the
members of the object itself: it keeps one name and the start of one token.
-/

namespace Evidence

open List Text Text.Json

def maxHookKey : Nat := 1 <<< 10

def errorName : Chars := "isError".toList

/-- What the scan waits for or is in. -/
inductive ScanState
  | opening | member | name | colon | value | primitive | nested | string | finished
  deriving DecidableEq

structure EncodedErrorScan where
  state : ScanState := .opening
  key : Bytes := []
  isErrorKey : Bool := false
  depth : Nat := 0
  inString : Bool := false
  escaped : Bool := false
  value : Bytes := []
  isError : Bool := false

def isSpaceByte (c : UInt8) : Bool := (9 ≤ c && c ≤ 13) || c = 32

namespace EncodedErrorScan

def addValue (s : EncodedErrorScan) (c : UInt8) : EncodedErrorScan :=
  if !s.isErrorKey then s
  else if s.value.length < (ascii "true").length then
    if (ascii "true")[s.value.length]? ≠ some c then { s with isErrorKey := false }
    else { s with value := s.value ++ [c] }
  else if isBlank c then s else { s with isErrorKey := false }

/-- Whether the member is the error flag, set to true. -/
def raises (s : EncodedErrorScan) : Bool :=
  s.isErrorKey && trimEndMatches isSpaceByte (s.value.dropWhile isSpaceByte) = ascii "true"

def finishValue (s : EncodedErrorScan) : EncodedErrorScan :=
  if s.raises then { s with isError := true } else s

/-- One byte of the text; `unmarshal` reads a JSON string. -/
def step (unmarshal : Bytes → Option Chars) (s : EncodedErrorScan) (c : UInt8) : EncodedErrorScan :=
  match s.state with
  | .opening =>
    if c = 123 then { s with state := .member }
    else if isBlank c then s else { s with state := .finished }
  | .member =>
    if isBlank c ∨ c = 44 then s
    else if c = 125 then { s with state := .finished }
    else if c = 34 then { s with key := [], state := .name }
    else { s with state := .finished }
  | .name =>
    if s.escaped then
      { s with
        key := if s.key.length < maxHookKey then s.key ++ [92, c] else s.key, escaped := false }
    else if c = 92 then { s with escaped := true }
    else if c = 34 then
      { s with isErrorKey := unmarshal (quoted s.key) = some errorName, state := .colon }
    else if s.key.length < maxHookKey then { s with key := s.key ++ [c] }
    else { s with state := .finished }
  | .colon =>
    if c = 58 then { s with state := .value }
    else if isBlank c then s else { s with state := .finished }
  | .value =>
    if isBlank c then s
    else
      let s := { s with depth := 0, inString := false, escaped := false, value := [] }
      if isOpening c then { s with depth := 1, state := .nested }
      else if c = 34 then { s with state := .string }
      else addValue { s with state := .primitive } c
  | .primitive =>
    if c = 44 ∨ c = 125 then
      { s.finishValue with state := if c = 125 then .finished else .member }
    else s.addValue c
  | .nested =>
    if s.inString then
      if s.escaped then { s with escaped := false }
      else if c = 92 then { s with escaped := true }
      else if c = 34 then { s with inString := false }
      else s
    else if c = 34 then { s with inString := true }
    else if isOpening c then { s with depth := s.depth + 1 }
    else if isClosing c then
      let s := { s with depth := s.depth - 1 }
      if s.depth = 0 then { s.finishValue with state := .member } else s
    else s
  | .string =>
    if s.escaped then { s with escaped := false }
    else if c = 92 then { s with escaped := true }
    else if c = 34 then { s.finishValue with state := .member }
    else s
  | .finished => s

def write (unmarshal : Bytes → Option Chars) (s : EncodedErrorScan) (p : Bytes) :
    EncodedErrorScan :=
  if s.isError ∨ s.state = .finished then s else p.foldl (step unmarshal) s

/-! ### Pieces -/

variable {u : Bytes → Option Chars} {s : EncodedErrorScan} {c : UInt8} {w body a v : Bytes}
  {m : Member} {ms : List Member}

lemma finishValue_eq (s : EncodedErrorScan) :
    s.finishValue = { s with isError := s.isError || s.raises } := by
  unfold finishValue
  split <;> simp [*]

lemma isError_addValue (s : EncodedErrorScan) (c : UInt8) : (s.addValue c).isError = s.isError := by
  unfold addValue
  split_ifs <;> rfl

/-- An error once found is not lost. -/
lemma isError_step (h : s.isError) (c : UInt8) : (step u s c).isError := by
  unfold step
  cases hs : s.state <;>
    simp [h, apply_ite EncodedErrorScan.isError, isError_addValue, finishValue_eq]

lemma isError_foldl (h : s.isError) (w : Bytes) : (w.foldl (step u) s).isError := by
  induction w generalizing s with
  | nil => exact h
  | cons c w ih => exact ih (isError_step h c)

lemma foldl_finished (h : s.state = .finished) (w : Bytes) : w.foldl (step u) s = s := by
  induction w with
  | nil => rfl
  | cons c w ih => simpa [step, h] using ih

/-- Where the text is cut does not matter. -/
lemma isError_writes (ws : List Bytes) (s : EncodedErrorScan) :
    (ws.foldl (write u) s).isError = (ws.flatten.foldl (step u) s).isError := by
  induction ws generalizing s with
  | nil => rfl
  | cons w ws ih =>
    rw [foldl_cons, ih, flatten_cons, foldl_append, write]
    split
    · next h =>
      rcases h with h | h
      · rw [isError_foldl h, isError_foldl (isError_foldl h w)]
      · rw [foldl_finished h w]
    · rfl

/-! ### Passing over text -/

lemma isBlank_iff : isBlank c ↔ c = 32 ∨ c = 10 ∨ c = 13 ∨ c = 9 := by simp [isBlank]

/-- Between tokens white space is passed over. -/
lemma foldl_blank (hw : Blank w)
    (hs : s.state = .opening ∨ s.state = .member ∨ s.state = .colon ∨ s.state = .value) :
    w.foldl (step u) s = s := by
  induction w with
  | nil => rfl
  | cons c w ih =>
    obtain ⟨hc, hw⟩ := forall_mem_cons.1 hw
    have hstep : step u s c = s := by
      unfold step
      rcases hs with hs | hs | hs | hs <;> rcases isBlank_iff.1 hc with rfl | rfl | rfl | rfl <;>
        simp [hs, isBlank]
    rw [foldl_cons, hstep, ih hw]

/-- The name is kept as it is written. -/
lemma foldl_name (hbody : Units body) {k : Bytes} (hk : k.length + body.length ≤ maxHookKey) :
    body.foldl (step u) { s with state := .name, key := k, escaped := false }
      = { s with state := .name, key := k ++ body, escaped := false } := by
  induction hbody generalizing k with
  | nil => simp
  | @plain c w hc _ ih =>
    rw [length_cons] at hk
    have hstep : step u { s with state := .name, key := k, escaped := false } c
        = { s with state := .name, key := k ++ [c], escaped := false } := by
      simp [step, hc, show k.length < maxHookKey by omega]
    rw [foldl_cons, hstep, ih (by simp; omega), append_assoc, singleton_append]
  | @escape c w _ ih =>
    rw [length_cons, length_cons] at hk
    have hstep : step u (step u
        { s with state := .name, key := k, escaped := false } 92) c
          = { s with state := .name, key := k ++ [92, c], escaped := false } := by
      simp [step, show k.length < maxHookKey by omega]
    rw [foldl_cons, foldl_cons, hstep, ih (by simp; omega), append_assoc]
    rfl

/-- Nothing in a string is seen. -/
lemma foldl_units (hbody : Units body) (hs : s.state = .string ∨ s.state = .nested ∧ s.inString) :
    body.foldl (step u) { s with escaped := false } = { s with escaped := false } := by
  induction hbody with
  | nil => rfl
  | plain hc _ ih =>
    rcases hs with hs | hs <;> simpa [step, hs, hc] using ih
  | escape _ ih =>
    rcases hs with hs | hs <;> simpa [step, hs] using ih

/-- Inside `d + 1` brackets of a value. -/
def inside (s : EncodedErrorScan) (d : Nat) : EncodedErrorScan :=
  { s with state := .nested, depth := d + 1, inString := false, escaped := false }

lemma step_opening (hc : isOpening c) (d : Nat) : step u (s.inside d) c = s.inside (d + 1) := by
  have hquote : c ≠ 34 := by
    rintro rfl
    exact absurd hc (by decide)
  simp [step, inside, hc, hquote]

lemma step_closing (hc : isClosing c) (d : Nat) : step u (s.inside d) c
    = if d = 0 then { finishValue { s.inside 0 with depth := 0 } with state := .member }
      else s.inside (d - 1) := by
  have hother : c ≠ 34 ∧ isOpening c = false := by
    have hc : c = 125 ∨ c = 93 := by simpa [isClosing] using hc
    rcases hc with rfl | rfl <;> decide
  cases d <;> simp [step, inside, hc, hother]

/-- The brackets inside a container are passed over in pairs. -/
lemma foldl_nested (hw : Nested w) (d : Nat) :
    w.foldl (step u) (s.inside d) = s.inside d := by
  induction hw generalizing d with
  | nil => rfl
  | @inert c w hc _ ih =>
    obtain ⟨hquote, hopening, hclosing⟩ := isInert_iff.1 hc
    have hstep : step u (s.inside d) c = s.inside d := by
      simp [step, inside, hquote, hopening, hclosing]
    rw [foldl_cons, hstep, ih]
  | @str body w hbody _ ih =>
    have hbody := foldl_units (u := u) (s := { s.inside d with inString := true })
      hbody (.inr ⟨rfl, rfl⟩)
    rw [foldl_append, quoted, cons_append, foldl_cons, foldl_append]
    change w.foldl _ (step u
      (body.foldl _ { s.inside d with inString := true, escaped := false }) 34) = _
    rw [hbody]
    exact ih d
  | bracket ho hc _ _ ih ih' =>
    rw [cons_append, foldl_cons, foldl_append, step_opening ho, ih, foldl_cons, step_closing hc,
      if_neg (by omega), Nat.add_sub_cancel, ih']

/-! ### Values -/

lemma foldl_addValue_off (hs : s.isErrorKey = false) (x : Bytes) : x.foldl addValue s = s := by
  induction x with
  | nil => rfl
  | cons c x ih => simpa [addValue, hs] using ih

/-- A token raises if it is the expected one, with white space after it. -/
lemma raises_foldl {p q : Bytes} (hpq : ascii "true" = p ++ q) (x : Bytes) :
    (x.foldl addValue { s with isErrorKey := true, value := p }).raises
      ↔ ∃ b, Blank b ∧ x = q ++ b := by
  have off (v x : Bytes) :
      (x.foldl addValue { s with isErrorKey := false, value := v }).raises = false := by
    rw [foldl_addValue_off rfl]
    rfl
  induction x generalizing p q with
  | nil =>
    have htrim : ∀ p ∈ (ascii "true").inits,
        trimEndMatches isSpaceByte (p.dropWhile isSpaceByte) = p := by decide
    simp [raises, htrim p ((mem_inits _ _).2 ⟨q, hpq.symm⟩), hpq, blank_nil]
  | cons c x ih =>
    cases q with
    | nil =>
      have hlen : ¬p.length < (ascii "true").length := by simp [hpq]
      by_cases hc : isBlank c
      · simpa [addValue, hlen, hc, Blank] using ih hpq
      · simp [addValue, hlen, hc, off, Blank]
    | cons d q =>
      have hlen : p.length < (ascii "true").length := by simp [hpq]
      have hget : (ascii "true")[p.length] = d := by simp [hpq]
      by_cases hc : d = c
      · simpa [addValue, hlen, hget, hc] using @ih (p ++ [d]) q (by simpa using hpq)
      · simp [addValue, hlen, hget, hc, off, Ne.symm hc]

lemma foldl_primitive {x : Bytes} (hx : ∀ c ∈ x, c ≠ 44 ∧ c ≠ 125) (hs : s.state = .primitive) :
    x.foldl (step u) s = x.foldl addValue s ∧ (x.foldl addValue s).state = .primitive
      ∧ (x.foldl addValue s).escaped = s.escaped ∧ (x.foldl addValue s).isError = s.isError := by
  induction x generalizing s with
  | nil => exact ⟨rfl, hs, rfl, rfl⟩
  | cons c x ih =>
    obtain ⟨hc, hx⟩ := forall_mem_cons.1 hx
    have hkept : (s.addValue c).state = s.state ∧ (s.addValue c).escaped = s.escaped
        ∧ (s.addValue c).isError = s.isError := by
      unfold addValue
      split_ifs <;> exact ⟨rfl, rfl, rfl⟩
    have hstep : step u s c = s.addValue c := by simp [step, hs, hc]
    rw [foldl_cons, hstep, ← hkept.2.1, ← hkept.2.2]
    exact ih hx (hkept.1.trans hs)

/-- The scan has passed a comma or the bracket at the end, with this answer. -/
structure Past (c : UInt8) (answer : Bool) (s : EncodedErrorScan) : Prop where
  state : s.state = if c = 125 then .finished else .member
  escaped : s.escaped = false
  isError : s.isError = answer

lemma past_separator (ha : Blank a) (hc : c = 44 ∨ c = 125) (hs : s.state = .member)
    (hescaped : s.escaped = false) : Past c s.isError ((a ++ [c]).foldl (step u) s) := by
  rw [foldl_append, foldl_blank ha (.inr (.inl hs))]
  rcases hc with rfl | rfl
  · exact ⟨by simp [step, hs], by simp [step, hs, hescaped], by simp [step, hs]⟩
  · exact ⟨by simp [step, hs, isBlank], by simp [step, hs, isBlank, hescaped],
      by simp [step, hs, isBlank]⟩

lemma takeWhile_token (hw : ∀ c ∈ w, isBlank c = false) (ha : Blank a) :
    (w ++ a).takeWhile (!isBlank ·) = w := by
  rw [takeWhile_append_of_pos fun c hc => by simp [hw c hc]]
  cases a with
  | nil => simp
  | cons c a => simp [ha c mem_cons_self]

lemma raises_scalar (hw : ∀ c ∈ w, isBlank c = false) (ha : Blank a)
    (hs : s.value = []) :
    ((w ++ a).foldl addValue s).raises = (s.isErrorKey && w = ascii "true") := by
  cases hkey : s.isErrorKey with
  | false => rw [foldl_addValue_off hkey]; simp [raises, hkey]
  | true =>
    have hraises := raises_foldl (s := s) (p := []) (q := ascii "true") rfl (w ++ a)
    have hs : s = { s with isErrorKey := true, value := [] } := by rw [← hkey, ← hs]
    rw [Bool.eq_iff_iff, hs, hraises]
    simp only [Bool.true_and, decide_eq_true_eq]
    constructor
    · rintro ⟨b, hb, heq⟩
      rw [← takeWhile_token hw ha, heq, takeWhile_token (forall_mem_of_all (by decide)) hb]
    · rintro rfl
      exact ⟨a, ha, rfl⟩

/-- A value raises if it is the flag's and it is true. -/
lemma past_value (hv : IsValue v) (ha : Blank a) (hc : c = 44 ∨ c = 125)
    (hs : s.state = .value) : Past c (s.isError || (s.isErrorKey && v = ascii "true"))
      ((v ++ (a ++ [c])).foldl (step u) s) := by
  have hend (S : EncodedErrorScan) (hne : v ≠ ascii "true") (hvalue : S.value = [])
      (hescaped : S.escaped = false) (herror : S.isError = s.isError) :
      Past c (s.isError || (s.isErrorKey && v = ascii "true"))
        ((a ++ [c]).foldl (step u) { S.finishValue with state := .member }) := by
    have hraises : S.raises = false := by simp [raises, hvalue, trimEndMatches, ascii]
    have hpast := past_separator (u := u) (s := { S.finishValue with state := .member })
      ha hc rfl (by rw [finishValue_eq]; exact hescaped)
    simpa [hne, finishValue_eq, hraises, herror] using hpast
  cases shape_value hv with
  | scalar hw =>
    obtain ⟨hne, hbytes⟩ := mem_scalar hw
    have hplain : ∀ c ∈ v ++ a, c ≠ 44 ∧ c ≠ 125 := by
      intro c hc
      rcases mem_append.1 hc with hc | hc <;> constructor <;> rintro rfl
      · exact absurd (hbytes _ hc) (by decide)
      · exact absurd (hbytes _ hc) (by decide)
      · exact absurd (ha _ hc) (by decide)
      · exact absurd (ha _ hc) (by decide)
    let base : EncodedErrorScan := { s with
      state := .primitive, depth := 0, inString := false, escaped := false, value := [] }
    have hstart : (v ++ a).foldl (step u) s = (v ++ a).foldl (step u) base := by
      obtain ⟨d, w, rfl⟩ := exists_cons_of_ne_nil hne
      obtain ⟨hquote, hopening, -⟩ := isInert_iff.1 (inert_of_scalar hw d mem_cons_self)
      have hd := hplain d mem_cons_self
      simp [step, base, hs, hd, hquote, hopening, not_blank_of_scalar (hbytes d mem_cons_self)]
    have hraises := raises_scalar (s := base) (fun c hc => not_blank_of_scalar (hbytes c hc)) ha rfl
    obtain ⟨hrun, hstate, hescaped, herror⟩ := foldl_primitive (u := u) hplain
      (s := base) rfl
    rw [← append_assoc, foldl_append, hstart, hrun]
    simp only [foldl_cons, foldl_nil, step, hstate, if_pos hc, finishValue_eq]
    exact ⟨rfl, hescaped, by rw [herror, hraises]⟩
  | @str body hbody =>
    have hstart : step u s 34 = { s with
        state := .string, depth := 0, inString := false, escaped := false, value := [] } := by
      simp [step, hs, isBlank, isOpening]
    rw [quoted, cons_append, cons_append, foldl_cons, append_assoc, foldl_append, hstart,
      foldl_units (s := { s with state := .string, depth := 0, inString := false, value := [] })
        hbody (.inl rfl)]
    exact hend _ (fun heq => absurd (cons.inj heq).1 (by decide)) rfl rfl rfl
  | @bracket o c' w ho hc' hw =>
    have hstart : step u s o = inside { s with value := [] } 0 := by
      have hblank : isBlank o = false := by
        have ho : o = 123 ∨ o = 91 := by simpa [isOpening] using ho
        rcases ho with rfl | rfl <;> decide
      simp [step, hs, hblank, ho, inside]
    rw [cons_append, cons_append, foldl_cons, append_assoc, foldl_append, hstart, foldl_nested hw,
      singleton_append, foldl_cons, step_closing hc']
    refine hend _ ?_ rfl rfl rfl
    rintro heq
    obtain rfl : o = 116 := (cons.inj heq).1
    exact absurd ho (by decide)

/-! ### Objects -/

/-- The member is the error flag, set to true. -/
def isFlag (u : Bytes → Option Chars) (m : Member) : Bool :=
  u (quoted m.name) = some errorName && m.item.text = ascii "true"

lemma past_member (hm : m.Spaced) (hv : IsValue m.item.text)
    (hkey : m.name.length ≤ maxHookKey) (hc : c = 44 ∨ c = 125) (hs : s.state = .member)
    (hescaped : s.escaped = false) : Past c (s.isError || isFlag u m)
      ((m.bytes ++ [c]).foldl (step u) s) := by
  obtain ⟨hbefore, hname, hafter, hitem⟩ := hm
  have hquote : step u s 34 = { s with state := .name, key := [], escaped := false } := by
    simp [step, hs, hescaped, isBlank]
  have htext : m.bytes ++ [c] = m.before ++ 34 :: (m.name ++ 34 :: (m.afterName ++ 58 ::
      (m.item.before ++ (m.item.text ++ (m.item.after ++ [c]))))) := by
    simp [Member.bytes, Item.bytes, quoted]
  have hcolon : step u { s with state := .name, key := m.name, escaped := false } 34
      = { s with
        state := .colon, key := m.name, escaped := false,
        isErrorKey := u (quoted m.name) = some errorName } := by
    simp [step]
  rw [htext, foldl_append, foldl_blank hbefore (.inr (.inl hs)), foldl_cons, hquote, foldl_append,
    foldl_name (units_body hname) (by simpa using hkey), foldl_cons, foldl_append,
    foldl_blank hafter (.inr (.inr (.inl rfl))), foldl_cons, foldl_append,
    foldl_blank hitem.1 (.inr (.inr (.inr rfl)))]
  exact past_value (s := { s with
    state := .value, key := m.name, escaped := false,
    isErrorKey := u (quoted m.name) = some errorName }) hv hitem.2 hc rfl

lemma isError_members (hs : s.state = .member) (hescaped : s.escaped = false)
    (hms : ∀ x ∈ m :: ms, x.Spaced ∧ IsValue x.item.text ∧ x.name.length ≤ maxHookKey)
    (after : Bytes) : ((commaSeparated ((m :: ms).map Member.bytes) ++ 125 :: after).foldl
      (step u) s).isError = (s.isError || (m :: ms).any (isFlag u)) := by
  induction ms generalizing s m with
  | nil =>
    obtain ⟨hspaced, hv, hkey⟩ := hms m mem_cons_self
    have hpast := past_member (u := u) hspaced hv hkey (.inr rfl) hs hescaped
    simp only [commaSeparated, map_cons, map_nil, flatMap_nil, append_nil]
    rw [append_cons, foldl_append, foldl_finished hpast.state, hpast.isError]
    simp
  | cons m' ms ih =>
    obtain ⟨⟨hspaced, hv, hkey⟩, hms⟩ := forall_mem_cons.1 hms
    have hpast := past_member (u := u) hspaced hv hkey (.inl rfl) hs hescaped
    have htext : commaSeparated ((m :: m' :: ms).map Member.bytes)
        = m.bytes ++ [44] ++ commaSeparated ((m' :: ms).map Member.bytes) := by
      simp [commaSeparated]
    rw [htext, append_assoc, foldl_append, ih hpast.state hpast.escaped hms, hpast.isError,
      Bool.or_assoc]
    rfl

lemma isError_object (hv : IsObject v ms)
    (hkeys : ∀ m ∈ ms, m.name.length ≤ maxHookKey) (after : Bytes) :
    ((v ++ after).foldl (step u) {}).isError = ms.any (isFlag u) := by
  rcases hv.text with ⟨rfl, w, hw, rfl⟩ | ⟨hne, rfl⟩
  · have hpast := past_separator (u := u) (s := { state := .member }) hw (.inr rfl)
      rfl rfl
    rw [foldl_append]
    exact (congrArg isError (foldl_finished hpast.state after)).trans hpast.isError
  · obtain ⟨m, ms, rfl⟩ := exists_cons_of_ne_nil hne
    have hms := isError_members (u := u) (s := { state := .member }) rfl rfl
      (fun x hx => ⟨hv.spaced x hx, hv.values x hx, hkeys x hx⟩) after
    rw [append_assoc]
    exact hms

end EncodedErrorScan

/-- The value of a JSON string. From bytes that are not UTF-8 the code makes replacement characters,
so that the value is none of the names it looks for; here there is no value. -/
def unmarshalString (text : Bytes) : Option Chars := do
  let chars ← text.toByteArray.utf8Decode?
  match chars.toList with
  | '"' :: rest =>
    match JsonText.readString 0 rest with
    | some (pieces, []) => some (JsonText.read pieces)
    | _ => none
  | _ => none

/-- The scan of an object whose names are within the bound finds an error if and only if a member of
it is the flag set to true, wherever the text is cut and however the name of the flag is escaped. -/
theorem encodedErrorScan_isError_iff {before v after : Bytes} {ms : List Member}
    (hbefore : Blank before) (hv : IsObject v ms) (hkeys : ∀ m ∈ ms, m.name.length ≤ maxHookKey)
    {writes : List Bytes} (hwrites : writes.flatten = before ++ v ++ after) :
    (writes.foldl (EncodedErrorScan.write unmarshalString) {}).isError
      ↔ ∃ m ∈ ms, unmarshalString (quoted m.name) = some errorName
        ∧ m.item.text = ascii "true" := by
  rw [EncodedErrorScan.isError_writes, hwrites, append_assoc, foldl_append,
    EncodedErrorScan.foldl_blank hbefore (.inl rfl), EncodedErrorScan.isError_object hv hkeys]
  simp [EncodedErrorScan.isFlag]

/-- A flag whose name is escaped and cut, after a member that has a flag inside. -/
theorem encodedErrorScan_isError_iff_escaped :
    ([ascii "\x7b\"a\":\x7b\"isError\":[]\x7d,\"is\\u0", ascii "045rror\":tr", ascii "ue\x7d"].foldl
      (EncodedErrorScan.write unmarshalString) {}).isError := by
  have hplain (w : Bytes) (h : w.all fun c => decide (32 ≤ c ∧ c < 128 ∧ c ≠ 34 ∧ c ≠ 92)) :
      IsBody w := isBody_plain (forall_mem_of_all h)
  have hescape : IsBody (ascii "\\u0045") := by
    refine ⟨[ascii "\\u0045"], by simp, forall_mem_singleton.2 ?_⟩
    exact @IsChar.unicode (ascii "0045") rfl (forall_mem_of_all (by decide))
  have hname : IsBody (ascii "is\\u0045rror") :=
    isBody_append (hplain (ascii "is") (by decide))
      (isBody_append hescape (hplain (ascii "rror") (by decide)))
  have hinner : IsValue (ascii "\x7b\"isError\":[]\x7d") :=
    @IsValue.object [(ascii "isError", ascii "[]")]
      (forall_mem_singleton.2 (hplain (ascii "isError") (by decide)))
      (forall_mem_singleton.2 (.emptyArr blank_nil))
  have hobject : IsObject (ascii "\x7b\"a\":\x7b\"isError\":[]\x7d,\"is\\u0045rror\":true\x7d")
      [⟨[], ascii "a", [], ⟨[], ascii "\x7b\"isError\":[]\x7d", []⟩⟩,
        ⟨[], ascii "is\\u0045rror", [], ⟨[], ascii "true", []⟩⟩] := by
    refine ⟨?_, ?_, .inr ⟨by simp, by decide⟩⟩
    · exact forall_mem_cons.2
        ⟨⟨blank_nil, hplain (ascii "a") (by decide), blank_nil, blank_nil, blank_nil⟩,
        forall_mem_singleton.2 ⟨blank_nil, hname, blank_nil, blank_nil, blank_nil⟩⟩
    · exact forall_mem_cons.2 ⟨hinner, forall_mem_singleton.2 (.scalar (.inl rfl))⟩
  refine (encodedErrorScan_isError_iff blank_nil hobject (by decide) (append_nil _).symm).2 ?_
  exact ⟨_, mem_cons_of_mem _ (mem_singleton_self _), by decide +kernel, rfl⟩

end Evidence
