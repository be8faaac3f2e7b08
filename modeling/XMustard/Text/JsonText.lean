import Mathlib.Algebra.Order.Ring.Nat
import Mathlib.Data.Char
import XMustard.Text.Bytes
import XMustard.Text.Unicode

/-!
# JSON texts

A JSON text as it is written: its tokens with the white space around them, and each character of a
string with its escape. Maps are read from objects, where the last member of a name counts, and are
written with their members in order and without white space.
-/

namespace Text

open List

/-- A text as its characters. -/
abbrev Chars := List Char

variable (s : Chars)

/-- The number of bytes of a text. -/
def utf8Length : Nat := (s.map Char.utf8Size).sum

/-- A character of a string as it is written, and as it is read. -/
structure Piece where
  text : Bytes
  value : Char

/-- The white space around a token. -/
structure Pad where
  before : Bytes := []
  after : Bytes := []

/-- The name of a member, with the white space around it and around its value. -/
structure Name where
  pad : Pad := {}
  pieces : List Piece
  value : Pad := {}

inductive JsonText
  | null
  | bool (b : Bool)
  | number (text : Bytes)
  | string (pieces : List Piece)
  | array (pad : Bytes) (items : List (Pad × JsonText))
  | object (pad : Bytes) (members : List (Name × JsonText))

def Pad.around (pad : Pad) (text : Bytes) : Bytes := pad.before ++ text ++ pad.after

namespace JsonText

/-! ### Bytes -/

def quote (pieces : List Piece) : Bytes := 34 :: (pieces.flatMap Piece.text ++ [34])

/-- The texts with commas between them, or the white space if there are none. -/
def listed (pad : Bytes) (texts : List Bytes) : Bytes :=
  if texts.isEmpty then pad else texts.intersperse [44] |>.flatten

mutual

/-- The bytes of a text. -/
def render : JsonText → Bytes
  | .null => ascii "null"
  | .bool b => if b then ascii "true" else ascii "false"
  | .number text => text
  | .string pieces => quote pieces
  | .array pad items => 91 :: (listed pad (renderItems items) ++ [93])
  | .object pad members => 123 :: (listed pad (renderMembers members) ++ [125])

def renderItems : List (Pad × JsonText) → List Bytes
  | [] => []
  | (pad, t) :: items => pad.around (render t) :: renderItems items

def renderMembers : List (Name × JsonText) → List Bytes
  | [] => []
  | (name, t) :: members =>
    (name.pad.around (quote name.pieces) ++ 58 :: name.value.around (render t))
      :: renderMembers members

end

mutual

/-- The text without white space between its tokens. -/
def compact : JsonText → JsonText
  | .null => .null
  | .bool b => .bool b
  | .number text => .number text
  | .string pieces => .string pieces
  | .array _ items => .array [] (compactItems items)
  | .object _ members => .object [] (compactMembers members)

def compactItems : List (Pad × JsonText) → List (Pad × JsonText)
  | [] => []
  | (_, t) :: items => ({}, compact t) :: compactItems items

def compactMembers : List (Name × JsonText) → List (Name × JsonText)
  | [] => []
  | (name, t) :: members => ({ pieces := name.pieces }, compact t) :: compactMembers members

end

lemma compactItems_eq (items : List (Pad × JsonText)) :
    compactItems items = items.map fun i => ({}, compact i.2) := by
  induction items with
  | nil => rw [compactItems, map_nil]
  | cons i items ih => rw [compactItems, ih, map_cons]

variable (members : List (Name × JsonText))

lemma compactMembers_eq :
    compactMembers members = members.map fun m => ({ pieces := m.1.pieces }, compact m.2) := by
  induction members with
  | nil => rw [compactMembers, map_nil]
  | cons m members ih => rw [compactMembers, ih, map_cons]

mutual

@[simp] lemma compact_compact : (t : JsonText) → compact (compact t) = compact t
  | .null => by simp only [compact]
  | .bool b => by simp only [compact]
  | .number text => by simp only [compact]
  | .string pieces => by simp only [compact]
  | .array pad items => by simp only [compact, compactItems_compactItems items]
  | .object pad members => by simp only [compact, compactMembers_compactMembers members]

lemma compactItems_compactItems : (items : List (Pad × JsonText)) →
    compactItems (compactItems items) = compactItems items
  | [] => by simp only [compactItems]
  | (pad, t) :: items =>
      by simp only [compactItems, compact_compact t, compactItems_compactItems items]

lemma compactMembers_compactMembers : (members : List (Name × JsonText)) →
    compactMembers (compactMembers members) = compactMembers members
  | [] => by simp only [compactMembers]
  | (name, t) :: members => by
    simp only [compactMembers, compact_compact t, compactMembers_compactMembers members]

end

/-! ### Strings -/

def hexDigit (n : Nat) : UInt8 := if n < 10 then (48 + n).toUInt8 else (87 + n).toUInt8

/-- A character as the encoder writes it in a string, with no escapes for HTML. -/
def escaped (c : Char) : Bytes :=
  if c = '"' then [92, 34]
  else if c = '\\' then [92, 92]
  else if c.val = 8 then [92, 98]
  else if c.val = 12 then [92, 102]
  else if c = '\n' then [92, 110]
  else if c = '\r' then [92, 114]
  else if c = '\t' then [92, 116]
  else if c.val < 32 then ascii "\\u00" ++ [hexDigit (c.toNat / 16), hexDigit (c.toNat % 16)]
  else if c.val = 0x2028 then ascii "\\u2028"
  else if c.val = 0x2029 then ascii "\\u2029"
  else String.utf8EncodeChar c

def pieces : List Piece := s.map fun c => ⟨escaped c, c⟩

def read (pieces : List Piece) : Chars := pieces.map Piece.value

@[simp] lemma read_pieces : read (pieces s) = s := by
  simp [read, pieces, Function.comp_def]

/-- A string as the encoder writes it. -/
def ofChars : JsonText := .string (pieces s)

/-! ### Maps -/

/-- A map from names, with its members in order. -/
abbrev Fields := List (Chars × JsonText)

/-- Set a member. -/
def setField (k : Chars) (v : JsonText) : Fields → Fields
  | [] => [(k, v)]
  | (k', v') :: fs =>
    if k < k' then (k, v) :: (k', v') :: fs
    else if k = k' then (k, v) :: fs
    else (k', v') :: setField k v fs

/-- The map of an object's members. -/
def fieldsOf : Fields :=
  members.foldl (fun fs m => setField (read m.1.pieces) m.2 fs) []

/-- The map of a text that is an object; a text that is none has no members. -/
def fields : JsonText → Fields
  | .object _ members => fieldsOf members
  | _ => []

def member (fs : Fields) (k : Chars) : Option JsonText := (fs.find? fun f => f.1 = k).map Prod.snd

/-- A map as the encoder writes it. -/
def ofFields (fs : Fields) : JsonText :=
  .object [] (fs.map fun f => ({ pieces := pieces f.1 }, compact f.2))

/-- A list as the encoder writes it. -/
def ofList (ts : List JsonText) : JsonText :=
  .array [] (ts.map fun t => ({}, compact t))

/-- In order, with distinct names. -/
abbrev Ordered (fs : Fields) : Prop := fs.Pairwise fun f g => f.1 < g.1

variable {fs : Fields} {k k' : Chars} {v : JsonText}

lemma setField_names (k : Chars) (v : JsonText) (fs : Fields) :
    ∀ f ∈ setField k v fs, f.1 = k ∨ f ∈ fs := by
  induction fs with
  | nil => simp [setField]
  | cons g fs ih =>
    intro f hf
    rw [setField] at hf
    split_ifs at hf with hlt heq
    · rcases mem_cons.1 hf with rfl | hf
      · exact .inl rfl
      · exact .inr hf
    · rcases mem_cons.1 hf with rfl | hf
      · exact .inl rfl
      · exact .inr (mem_cons_of_mem g hf)
    · rcases mem_cons.1 hf with rfl | hf
      · exact .inr (mem_cons_self ..)
      · exact (ih f hf).imp_right (mem_cons_of_mem g)

lemma Ordered.setField (h : Ordered fs) (k : Chars) (v : JsonText) :
    Ordered (JsonText.setField k v fs) := by
  induction fs with
  | nil => exact pairwise_singleton _ _
  | cons g fs ih =>
    obtain ⟨hg, hfs⟩ := pairwise_cons.1 h
    rw [JsonText.setField]
    split_ifs with hlt heq
    · refine pairwise_cons.2 ⟨fun f hf => ?_, h⟩
      rcases mem_cons.1 hf with rfl | hf
      · exact hlt
      · exact hlt.trans (hg f hf)
    · exact pairwise_cons.2 ⟨fun f hf => heq ▸ hg f hf, hfs⟩
    · refine pairwise_cons.2 ⟨fun f hf => ?_, ih hfs⟩
      rcases setField_names k v fs f hf with hk | hf
      · rw [hk]
        exact lt_of_le_of_ne (not_lt.1 hlt) (Ne.symm heq)
      · exact hg f hf

lemma ordered_fieldsOf : Ordered (fieldsOf members) := by
  have hfold (fs : Fields) (h : Ordered fs) :
      Ordered (members.foldl (fun fs m => setField (read m.1.pieces) m.2 fs) fs) := by
    induction members generalizing fs with
    | nil => exact h
    | cons m members ih => exact ih _ (h.setField _ _)
  exact hfold [] .nil

lemma ordered_fields (t : JsonText) : Ordered t.fields := by
  cases t with
  | object pad members => exact ordered_fieldsOf members
  | null | bool | number | string | array => exact .nil

lemma member_cons_self (k : Chars) (v : JsonText) (fs : Fields) :
    member ((k, v) :: fs) k = some v := by
  simp [member]

lemma member_cons_of_ne {f : Chars × JsonText} (h : f.1 ≠ k) (fs : Fields) :
    member (f :: fs) k = member fs k := by
  simp [member, h]

@[simp] lemma member_setField_self (k : Chars) (v : JsonText) (fs : Fields) :
    member (setField k v fs) k = some v := by
  induction fs with
  | nil => exact member_cons_self k v []
  | cons g fs ih =>
    rw [setField]
    split_ifs with hlt heq
    · exact member_cons_self k v _
    · exact member_cons_self k v fs
    · rw [member_cons_of_ne (Ne.symm heq), ih]

lemma member_setField_of_ne (h : k ≠ k') (v : JsonText) (fs : Fields) :
    member (setField k v fs) k' = member fs k' := by
  induction fs with
  | nil => exact member_cons_of_ne h []
  | cons g fs ih =>
    rw [setField]
    split_ifs with hlt heq
    · exact member_cons_of_ne h _
    · rw [member_cons_of_ne h, member_cons_of_ne (heq ▸ h)]
    · by_cases hg : g.1 = k'
      · simp [member, hg]
      · rw [member_cons_of_ne hg, member_cons_of_ne hg, ih]

/-- The map without the white space in its values. -/
def compactFields (fs : Fields) : Fields := fs.map fun f => (f.1, compact f.2)

@[simp] lemma member_compactFields (fs : Fields) (k : Chars) :
    member (compactFields fs) k = (member fs k).map compact := by
  induction fs with
  | nil => rfl
  | cons g fs ih =>
    by_cases hg : g.1 = k
    · simp [member, compactFields, hg]
    · have hg' : ((g.1, compact g.2) : Chars × JsonText).1 ≠ k := hg
      rw [compactFields, map_cons, member_cons_of_ne hg', member_cons_of_ne hg]
      exact ih

lemma compactFields_setField (k : Chars) (v : JsonText) (fs : Fields) :
    compactFields (setField k v fs) = setField k (compact v) (compactFields fs) := by
  induction fs with
  | nil => rfl
  | cons g fs ih =>
    rw [setField]
    have hcons : compactFields (g :: fs) = (g.1, compact g.2) :: compactFields fs := rfl
    rw [hcons, setField]
    split_ifs
    · rfl
    · rfl
    · exact congrArg (_ :: ·) ih

/-- White space does not matter to the map of an object. -/
lemma fields_compact (t : JsonText) : (compact t).fields = compactFields t.fields := by
  cases t with
  | object pad members =>
    have hfold (fs : Fields) :
        (compactMembers members).foldl (fun fs m => setField (read m.1.pieces) m.2 fs)
          (compactFields fs)
          = compactFields (members.foldl (fun fs m => setField (read m.1.pieces) m.2 fs) fs) := by
      rw [compactMembers_eq]
      induction members generalizing fs with
      | nil => rfl
      | cons m members ih =>
        rw [map_cons, foldl_cons, ← compactFields_setField]
        exact ih _
    exact hfold []
  | null | bool | number | string | array => simp only [compact, fields, compactFields, map_nil]

@[simp] lemma compact_ofChars : compact (ofChars s) = ofChars s := by
  rw [ofChars, compact]

@[simp] lemma compact_ofFields (fs : Fields) : compact (ofFields fs) = ofFields fs := by
  simp [ofFields, compact, compactMembers_eq]

@[simp] lemma compact_ofList (ts : List JsonText) : compact (ofList ts) = ofList ts := by
  simp [ofList, compact, compactItems_eq]

/-- Setting what comes after all members. -/
lemma setField_of_above (h : ∀ f ∈ fs, f.1 < k) (v : JsonText) :
    setField k v fs = fs ++ [(k, v)] := by
  induction fs with
  | nil => rfl
  | cons g fs ih =>
    obtain ⟨hg, hfs⟩ := forall_mem_cons.1 h
    rw [setField, if_neg hg.asymm, if_neg hg.ne', ih hfs, cons_append]

/-- A map that is written is read back, without the white space in its values. -/
lemma fields_ofFields (h : Ordered fs) :
    (ofFields fs).fields = compactFields fs := by
  -- every member comes after those that are set
  have hfold (done : Fields) (hdone : ∀ d ∈ done, ∀ f ∈ fs, d.1 < f.1) :
      (fs.map fun f => (({ pieces := pieces f.1 }, compact f.2) : Name × JsonText)).foldl
        (fun fs m => setField (read m.1.pieces) m.2 fs) done
        = done ++ compactFields fs := by
    rw [compactFields]
    induction fs generalizing done with
    | nil => simp
    | cons f fs ih =>
      obtain ⟨hf, hfs⟩ := pairwise_cons.1 h
      have habove : ∀ d ∈ done, d.1 < f.1 := fun d hd => hdone d hd f (mem_cons_self ..)
      rw [map_cons, foldl_cons, read_pieces, setField_of_above habove, ih hfs, map_cons,
        append_assoc, singleton_append]
      intro d hd g hg
      rcases mem_append.1 hd with hd | hd
      · exact hdone d hd g (mem_cons_of_mem f hg)
      · rw [mem_singleton.1 hd]
        exact hf g hg
  exact hfold [] (by simp)

end JsonText

end Text
