import XMustard.Compaction.Compact

/-!
# Rewritten messages

A pass writes at places of the messages, each place once. What a message becomes under the writes at
its places, and what a later pass reads from it.
-/

namespace Compaction

open List Text JsonText

variable {f : Format}

/-! ### Writes -/

/-- What is written at a place. -/
inductive Action
  | stub (text : Chars)
  | note

structure Edit where
  place : Loc
  action : Action

def Action.apply (f : Format) (block : Option Nat) (m : Message) : Action → Message
  | .stub text => setResult f m block text
  | .note => setText m block guidanceStub

/-- The writes at the places of one message, in order. -/
def rewriteMessage (f : Format) (es : List Edit) (m : Message) : Message :=
  es.foldl (fun m e => e.action.apply f e.place.block m) m

def applyEdits (f : Format) (es : List Edit) (ms : List Message) : List Message :=
  es.foldl (fun ms e => ms.modify e.place.msg fun m => e.action.apply f e.place.block m) ms

/-- The writes at the places of the message at `i`. -/
def editsOf (es : List Edit) (i : Nat) : List Edit := es.filter fun e => e.place.msg = i

variable {es : List Edit} {e : Edit} {i : Nat}

lemma editsOf_cons_self (h : e.place.msg = i) : editsOf (e :: es) i = e :: editsOf es i :=
  filter_cons_of_pos (decide_eq_true h)

lemma editsOf_cons_of_ne (h : e.place.msg ≠ i) : editsOf (e :: es) i = editsOf es i :=
  filter_cons_of_neg (by simpa using h)

@[simp] lemma rewriteMessage_nil (m : Message) : rewriteMessage f [] m = m := rfl

lemma getElem?_applyEdits (es : List Edit) (ms : List Message) (i : Nat) :
    (applyEdits f es ms)[i]? = ms[i]?.map (rewriteMessage f (editsOf es i)) := by
  induction es generalizing ms with
  | nil =>
    have hid : rewriteMessage f (editsOf [] i) = id := rfl
    rw [hid, Option.map_id_fun]
    rfl
  | cons e es ih =>
    refine (ih _).trans ?_
    by_cases he : e.place.msg = i
    · subst he
      rw [editsOf_cons_self rfl, getElem?_modify_eq, Option.map_eq_map, Option.map_map]
      rfl
    · rw [editsOf_cons_of_ne he, getElem?_modify_ne _ _ he]

lemma length_applyEdits (es : List Edit) (ms : List Message) :
    (applyEdits f es ms).length = ms.length := by
  induction es generalizing ms with
  | nil => rfl
  | cons e es ih => exact (ih _).trans (length_modify ..)

/-- The stubs and the notes of a pass. -/
def passEdits (stubs : List (Candidate × Ref)) (notes : List TextBlock) : List Edit :=
  stubs.map (fun c => ⟨c.1.x.result.place, .stub (c.1.stub c.2)⟩)
    ++ notes.map fun g => ⟨g.place, .note⟩

lemma writeNotes_writeStubs (ms : List Message) (stubs : List (Candidate × Ref))
    (notes : List TextBlock) :
    writeNotes (writeStubs f ms stubs) notes = applyEdits f (passEdits stubs notes) ms := by
  rw [applyEdits, passEdits, foldl_append, foldl_map, foldl_map]
  rfl

/-! ### Blocks -/

/-- The members of a block after a write. -/
def Action.fields (fs : Fields) : Action → Fields
  | .stub text => setField "content".toList (textContent (member fs "content".toList) text) fs
  | .note => setField "text".toList (ofChars guidanceStub) fs

/-- A block after the write at it, if there is one. -/
def editBlock (a : Option Action) (b : Block) : Block :=
  match a with
  | some a => ⟨ofFields (a.fields b.decoded), a.fields b.decoded⟩
  | none => b

/-- What is written at a block of a message. -/
def actionOn (es : List Edit) (j : Nat) : Option Action :=
  (es.find? fun e => e.place.block = some j).map Edit.action

lemma actionOn_cons (e : Edit) (es : List Edit) (j : Nat) :
    actionOn (e :: es) j = if e.place.block = some j then some e.action else actionOn es j := by
  rw [actionOn, find?_cons]
  split
  · next h => rw [if_pos (of_decide_eq_true h), Option.map_some]
  · next h => rw [if_neg (of_decide_eq_false h), actionOn]

lemma actionOn_eq_none {j : Nat} (h : some j ∉ es.map fun e => e.place.block) :
    actionOn es j = none := by
  rw [actionOn, find?_eq_none.2, Option.map_none]
  intro e he heq
  exact h (mem_map.2 ⟨e, he, of_decide_eq_true heq⟩)

/-- A write at a block, which for a result the format has to allow. -/
def Edit.OnBlock (f : Format) (e : Edit) : Prop :=
  (∃ j, e.place.block = some j) ∧ (f = .anthropic ∨ e.action = .note)

lemma Edit.OnBlock.apply_eq (h : e.OnBlock f) (m : Message) :
    ∃ j, e.place.block = some j
      ∧ e.action.apply f e.place.block m = m.setBlock j (e.action.fields (m.block j)) := by
  obtain ⟨⟨j, hj⟩, h⟩ := h
  refine ⟨j, hj, ?_⟩
  rw [hj]
  cases ha : e.action with
  | note => rfl
  | stub text =>
    rcases h with rfl | h
    · rfl
    · rw [ha] at h
      nomatch h

/-- The message after writes at blocks. -/
lemma rewriteMessage_blocks (hes : ∀ e ∈ es, e.OnBlock f)
    (hnodup : (es.map fun e => e.place.block).Nodup) (m : Message) :
    rewriteMessage f es m
      = { m with
          blocks := m.blocks.map fun bs => bs.mapIdx fun j b => editBlock (actionOn es j) b
          dirty := m.dirty || !es.isEmpty } := by
  induction es generalizing m with
  | nil =>
    have hid (bs : List Block) : (bs.mapIdx fun j b => editBlock (actionOn [] j) b) = bs := by
      simp [actionOn, editBlock, mapIdx_eq_iff]
    simp [rewriteMessage, hid]
  | cons e es ih =>
    obtain ⟨he, hes'⟩ := forall_mem_cons.1 hes
    obtain ⟨j, hj, happly⟩ := he.apply_eq m
    rw [map_cons, nodup_cons] at hnodup
    rw [rewriteMessage, foldl_cons, happly]
    refine (ih hes' hnodup.2 _).trans ?_
    have hblocks : ((m.setBlock j (e.action.fields (m.block j))).blocks.map fun bs =>
        bs.mapIdx fun j b => editBlock (actionOn es j) b)
        = m.blocks.map fun bs => bs.mapIdx fun j b => editBlock (actionOn (e :: es) j) b := by
      cases hbs : m.blocks with
      | none => simp [Message.setBlock, hbs]
      | some bs =>
        simp only [Message.setBlock, hbs, Option.map_some, Option.some.injEq]
        refine ext_getElem? fun k => ?_
        rw [getElem?_mapIdx, getElem?_mapIdx, getElem?_set, actionOn_cons, hj]
        by_cases hk : j = k
        · subst hk
          rw [actionOn_eq_none (hj ▸ hnodup.1)]
          by_cases hlt : j < bs.length
          · simp [hlt, editBlock, Message.block, hbs]
          · simp [hlt]
        · rw [if_neg hk, if_neg (by simpa using hk)]
    rw [hblocks]
    simp [Message.setBlock]

/-! ### Whole contents -/

/-- The content that a write at a whole content leaves. -/
def Action.content (fs : Fields) : Action → JsonText
  | .stub text => textContent (member fs "content".toList) text
  | .note => ofChars guidanceStub

/-- A write at the whole content of a message, which is no array for a note. -/
def Edit.OnWhole (f : Format) (m : Message) (e : Edit) : Prop :=
  e.place.block = none
    ∧ ((f = .pi ∧ ∃ text, e.action = .stub text) ∨ (e.action = .note ∧ m.blocks = none))

variable {m : Message} {bs : List Block} {fs : Fields}

lemma rewriteMessage_whole (h : e.OnWhole f m) :
    rewriteMessage f [e] m
      = { m with
          blocks := none
          fields := setField "content".toList (e.action.content m.fields) m.fields
          dirty := true } := by
  obtain ⟨hplace, ⟨rfl, text, ha⟩ | ⟨ha, hblocks⟩⟩ := h
  · simp only [rewriteMessage, foldl_cons, foldl_nil, hplace, ha]
    rfl
  · simp only [rewriteMessage, foldl_cons, foldl_nil, hplace, ha, ← hblocks]
    rfl

/-! ### Reading back -/

/-- A message and its blocks are as they were read. -/
structure Parsed (m : Message) : Prop where
  parse : parseMessage m.raw = some m
  clean : m.dirty = false
  ordered : Ordered m.fields
  blocks : m.blocks = contentBlocks (member m.fields "content".toList)

lemma parsed_of_parse {raw : RawMessage} (h : parseMessage raw = some m) :
    m.raw = raw ∧ Parsed m := by
  unfold parseMessage at h
  split at h
  · rename_i pad members
    cases h
    exact ⟨rfl, rfl, rfl, ordered_fields (.object pad members), rfl⟩
  · nomatch h

def Block.compact (b : Block) : Block := ⟨b.raw.compact, compactFields b.decoded⟩

/-- The block is read back with the members it has. -/
def Block.Faithful (b : Block) : Prop := decodeBlock b.raw.compact = b.compact

lemma decodeBlock_faithful (t : JsonText) : (decodeBlock t).Faithful := by
  simp [Block.Faithful, decodeBlock, Block.compact, fields_compact]

lemma Parsed.faithful (h : Parsed m) (hbs : m.blocks = some bs) :
    ∀ b ∈ bs, b.Faithful ∧ Ordered b.decoded := by
  rw [h.blocks] at hbs
  unfold contentBlocks at hbs
  split at hbs
  · cases hbs
    intro b hb
    obtain ⟨i, -, rfl⟩ := mem_map.1 hb
    exact ⟨decodeBlock_faithful _, ordered_fields _⟩
  · nomatch hbs

lemma Action.ordered_fields (a : Action) (h : Ordered fs) : Ordered (a.fields fs) := by
  cases a with
  | stub | note => exact h.setField _ _

lemma editBlock_faithful {b : Block} (a : Option Action) (h : b.Faithful ∧ Ordered b.decoded) :
    (editBlock a b).Faithful := by
  cases a with
  | none => exact h.1
  | some a =>
    simp only [editBlock, Block.Faithful, decodeBlock, Block.compact, compact_ofFields,
      fields_ofFields (a.ordered_fields h.2)]

/-- What is read from a message that was written anew. -/
lemma parseMessage_ofFields (h : Ordered fs) :
    parseMessage (.json {} (ofFields fs))
      = some { raw := .json {} (ofFields fs), fields := compactFields fs,
               blocks := contentBlocks ((member fs "content".toList).map JsonText.compact) } := by
  have hfields := fields_ofFields h
  rw [ofFields] at hfields ⊢
  rw [parseMessage, hfields, member_compactFields]

lemma contentBlocks_compact_ofList (h : ∀ b ∈ bs, b.Faithful) :
    contentBlocks (some (ofList (bs.map Block.raw)).compact) = some (bs.map Block.compact) := by
  rw [compact_ofList, ofList, contentBlocks, map_map, map_map]
  refine congrArg some (map_congr_left fun b hb => ?_)
  exact h b hb

/-- What a later pass reads from a message with writes at its blocks. -/
lemma parse_rewritten_blocks (hm : Parsed m)
    (hes : ∀ e ∈ es, e.OnBlock f) (hnodup : (es.map fun e => e.place.block).Nodup) (hne : es ≠ [])
    (hbs : m.blocks = some bs) :
    ∃ m', parseMessage (rewriteMessage f es m).encode = some m'
      ∧ m'.fields = compactFields (setField "content".toList
        (ofList ((bs.mapIdx fun j b => editBlock (actionOn es j) b).map Block.raw)) m.fields)
      ∧ m'.blocks = some ((bs.mapIdx fun j b => editBlock (actionOn es j) b).map
        Block.compact) := by
  have hfaithful : ∀ b ∈ bs.mapIdx fun j b => editBlock (actionOn es j) b, b.Faithful := by
    intro b hb
    obtain ⟨j, hj, rfl⟩ := mem_mapIdx.1 hb
    exact editBlock_faithful _ (hm.faithful hbs _ (getElem_mem hj))
  have hdirty : (m.dirty || !es.isEmpty) = true := by simp [hne]
  rw [rewriteMessage_blocks hes hnodup, Message.encode, if_pos hdirty]
  simp only [hbs, Option.map_some]
  rw [parseMessage_ofFields (hm.ordered.setField _ _)]
  refine ⟨_, rfl, rfl, ?_⟩
  rw [member_setField_self, Option.map_some, contentBlocks_compact_ofList hfaithful]

/-- What a later pass reads from a message with a write at its whole content. -/
lemma parse_rewritten_whole (hm : Parsed m) (he : e.OnWhole f m) :
    ∃ m', parseMessage (rewriteMessage f [e] m).encode = some m'
      ∧ m'.fields
        = compactFields (setField "content".toList (e.action.content m.fields) m.fields)
      ∧ m'.blocks = contentBlocks (some (e.action.content m.fields).compact) := by
  rw [rewriteMessage_whole he, Message.encode, if_pos rfl]
  rw [parseMessage_ofFields (hm.ordered.setField _ _), member_setField_self]
  exact ⟨_, rfl, rfl, rfl⟩

lemma encode_unwritten (hm : Parsed m) : (rewriteMessage f [] m).encode = m.raw := by
  rw [rewriteMessage_nil, Message.encode, if_neg (by simp [hm.clean])]

end Compaction
