import XMustard.Compaction.Places

/-!
# What a pass leaves alone

A pass returns the messages in their order. It writes only over contents of results that it handed
to the retainer and over guidance that a later block repeats, and leaves everything else as it is.
-/

namespace Compaction

open Option List Text JsonText

variable {f : Format} {ε : Type}

/-! ### Messages -/

/-- The members but for one are the same, up to white space. -/
def SameMembersBut (k : String) (fs fs' : Fields) : Prop :=
  ∀ k', k' ≠ k.toList → member fs' k' = (member fs k').map JsonText.compact

/-- What the write at a block, if there is one, leaves of the block. -/
def BlockKept (a : Option Action) (b b' : Block) : Prop :=
  match a with
  | none => b'.raw = b.raw.compact
  | some (.stub text) => SameMembersBut "content" b.decoded b'.decoded
    ∧ member b'.decoded "content".toList
      = some (textContent (member b.decoded "content".toList) text)
  | some .note => SameMembersBut "text" b.decoded b'.decoded
    ∧ member b'.decoded "text".toList = some (ofChars guidanceStub)

/-- What the writes at a message leave of it. -/
inductive MessageKept (raw raw' : RawMessage) : List Edit → Prop
  | same : raw' = raw → MessageKept raw raw' []
  | content (e : Edit) (m m' : Message) : parseMessage raw = some m → parseMessage raw' = some m' →
      e.place.block = none → SameMembersBut "content" m.fields m'.fields →
      member m'.fields "content".toList = some (e.action.content m.fields) →
      MessageKept raw raw' [e]
  | blocks (es : List Edit) (m m' : Message) (bs bs' : List Block) : es ≠ [] →
      parseMessage raw = some m → parseMessage raw' = some m' →
      SameMembersBut "content" m.fields m'.fields →
      m.blocks = some bs → m'.blocks = some bs' → bs'.length = bs.length →
      (∀ j b b', bs[j]? = some b → bs'[j]? = some b' → BlockKept (actionOn es j) b b') →
      MessageKept raw raw' es

lemma sameMembersBut_setField (k : String) (v : JsonText) (fs : Fields) :
    SameMembersBut k fs (compactFields (setField k.toList v fs)) := by
  intro k' hk
  rw [member_compactFields, member_setField_of_ne hk.symm]

@[simp] lemma compact_textContent (original : Option JsonText) (text : Chars) :
    (textContent original text).compact = textContent original text := by
  unfold textContent
  split
  · exact compact_ofChars text
  · exact compact_ofList _

@[simp] lemma compact_content (a : Action) (fs : Fields) :
    (a.content fs).compact = a.content fs := by
  cases a with
  | stub text => exact compact_textContent _ text
  | note => exact compact_ofChars _

lemma blockKept_editBlock (a : Option Action) (b : Block) :
    BlockKept a b (editBlock a b).compact := by
  cases a with
  | none => rfl
  | some a =>
    cases a with
    | stub text =>
      refine ⟨sameMembersBut_setField "content" _ b.decoded, ?_⟩
      rw [editBlock, Block.compact, member_compactFields, Action.fields, member_setField_self,
        map_some, compact_textContent]
    | note =>
      refine ⟨sameMembersBut_setField "text" _ b.decoded, ?_⟩
      rw [editBlock, Block.compact, member_compactFields, Action.fields, member_setField_self,
        map_some, compact_ofChars]

variable {m : Message} {es : List Edit}

lemma Touched.messageKept (h : Touched f m es) (hm : Parsed m) :
    MessageKept m.raw (rewriteMessage f es m).encode es := by
  cases h with
  | untouched => exact .same (encode_unwritten hm)
  | whole e he =>
    obtain ⟨m', hparse, hfields, -⟩ := parse_rewritten_whole hm he
    refine .content e m m' hm.parse hparse he.1 ?_ ?_
    · rw [hfields]
      exact sameMembersBut_setField "content" _ m.fields
    · rw [hfields, member_compactFields, member_setField_self, map_some, compact_content]
  | blocks _ bs hne hes hnodup hbs =>
    obtain ⟨m', hparse, hfields, hblocks⟩ := parse_rewritten_blocks hm hes hnodup hne hbs
    refine .blocks es m m' bs _ hne hm.parse hparse ?_ hbs hblocks (by simp) fun j b b' hb hb' => ?_
    · rw [hfields]
      exact sameMembersBut_setField "content" _ m.fields
    · rw [getElem?_map, getElem?_mapIdx, hb] at hb'
      obtain rfl := some.inj hb'
      exact blockKept_editBlock _ b

/-! ### Guidance -/

variable {gs : List TextBlock} {keep : Nat} {g : TextBlock}

/-- A block that is not replaced stays so with another block before it. -/
lemma not_repeated_cons {h : TextBlock}
    (hnodup : ((h :: gs).map TextBlock.place).Nodup) (hg : g ∈ gs)
    (hplace : g.place ∉ (repeated keep gs).map TextBlock.place) :
    g.place ∉ (repeated keep (h :: gs)).map TextBlock.place := by
  rw [map_cons, nodup_cons] at hnodup
  have hne : g.place ≠ h.place := fun heq => hnodup.1 (heq ▸ mem_map_of_mem hg)
  rw [repeated]
  split
  · rw [map_cons, mem_cons, not_or]
    exact ⟨hne, hplace⟩
  · exact hplace

/-- Some block with a text is not replaced: the last one. -/
lemma exists_not_repeated (keep : Nat) (hnodup : (gs.map TextBlock.place).Nodup)
    {s : Chars} (hs : ∃ g ∈ gs, g.text = s) :
    ∃ g ∈ gs, g.text = s ∧ g.place ∉ (repeated keep gs).map TextBlock.place := by
  induction gs with
  | nil => simp at hs
  | cons h gs ih =>
    obtain ⟨hh, hgs⟩ := nodup_cons.1 hnodup
    by_cases hlater : ∃ g ∈ gs, g.text = s
    · obtain ⟨g, hg, htext, hplace⟩ := ih hgs hlater
      exact ⟨g, mem_cons_of_mem h hg, htext, not_repeated_cons hnodup hg hplace⟩
    · obtain ⟨g, hg, htext⟩ := hs
      rcases mem_cons.1 hg with rfl | hg
      · refine ⟨g, mem_cons_self .., htext, ?_⟩
        have hnot : ¬(keep ≤ gs.length ∧ (gs.any fun h => h.text = g.text)) := by
          rintro ⟨-, hany⟩
          obtain ⟨g', hg', heq⟩ := any_eq_true.1 hany
          exact hlater ⟨g', hg', (of_decide_eq_true heq).trans htext⟩
        rw [repeated, if_neg hnot]
        exact fun hmem => hh (((repeated_sublist keep gs).map _).subset hmem)
      · exact absurd ⟨g, hg, htext⟩ hlater

/-- A guidance text that is replaced is still the text of a later block. -/
lemma later_of_repeated (hnodup : (gs.map TextBlock.place).Nodup) (hg : g ∈ repeated keep gs) :
    ∃ g', [g, g'].Sublist gs ∧ g'.text = g.text
      ∧ g'.place ∉ (repeated keep gs).map TextBlock.place := by
  induction gs with
  | nil => nomatch hg
  | cons h gs ih =>
    have hgs := (nodup_cons.1 hnodup).2
    by_cases hrec : g ∈ repeated keep gs
    · obtain ⟨g', hsub, htext, hplace⟩ := ih hgs hrec
      exact ⟨g', hsub.cons h, htext, not_repeated_cons hnodup (hsub.subset (by simp)) hplace⟩
    · rw [repeated] at hg
      split at hg
      · next hrep =>
        obtain rfl := (mem_cons.1 hg).resolve_right hrec
        obtain ⟨g₁, hg₁, heq⟩ := any_eq_true.1 hrep.2
        obtain ⟨g', hg', htext, hplace⟩ :=
          exists_not_repeated keep hgs ⟨g₁, hg₁, of_decide_eq_true heq⟩
        exact ⟨g', (singleton_sublist.2 hg').cons_cons g, htext,
          not_repeated_cons hnodup hg' hplace⟩
      · exact absurd hg hrec

/-! ### The pass -/

/-- The messages as they are read. -/
abbrev Reads (msgs : List RawMessage) (ms : List Message) : Prop :=
  List.Forall₂ (fun raw m => parseMessage raw = some m) msgs ms

variable {ms : List Message} {msgs : List RawMessage}

lemma Reads.parsed (h : Reads msgs ms) (hm : m ∈ ms) : Parsed m := by
  induction h with
  | nil => nomatch hm
  | cons hparse _ ih =>
    rcases mem_cons.1 hm with rfl | hm
    · exact (parsed_of_parse hparse).2
    · exact ih hm

variable {i : Nat}

lemma parsed_at (h : Reads msgs ms) {raw : RawMessage}
    (hraw : msgs[i]? = some raw) : ∃ m, ms[i]? = some m ∧ parseMessage raw = some m := by
  obtain ⟨hi, rfl⟩ := List.getElem?_eq_some_iff.1 hraw
  have hi' : i < ms.length := h.length_eq ▸ hi
  exact ⟨ms[i], getElem?_eq_getElem hi', h.get hi hi'⟩

/-- The messages are read one by one. -/
lemma parseFrom_eq_ok : (parseFrom i msgs : Except (Failure ε) (List Message)) = .ok ms
      ↔ Reads msgs ms := by
  induction msgs generalizing i ms with
  | nil =>
    rw [Reads, forall₂_nil_left_iff]
    exact ⟨fun h => (Except.ok.inj h).symm, fun h => h ▸ rfl⟩
  | cons raw msgs ih =>
    rw [parseFrom, Reads, forall₂_cons_left_iff]
    cases hm : parseMessage raw with
    | none =>
      refine ⟨fun h => (nomatch h), ?_⟩
      rintro ⟨m, ms', h, -⟩
      nomatch h
    | some m =>
      constructor
      · intro h
        cases hms : (parseFrom (i + 1) msgs : Except (Failure ε) (List Message)) with
        | error e => rw [hms] at h; nomatch h
        | ok ms' =>
          rw [hms] at h
          exact ⟨m, ms', rfl, ih.1 hms, (Except.ok.inj h).symm⟩
      · rintro ⟨m', ms', h, hms', rfl⟩
        obtain rfl := some.inj h
        rw [ih.2 hms']
        rfl

/-- The refs that the originals of a plan were retained under. -/
def Retained (r : Retainer ε) (plan : List Candidate) (refs : List Ref) : Prop :=
  refs.length = plan.length ∧ (plan ≠ [] → r (plan.map Candidate.original) = .ok refs)

variable {r : Retainer ε}

lemma replace_eq_ok {ms' : List Message} {plan : List Candidate}
    {reps : List Replacement} (h : replace f ms plan r = .ok (ms', reps)) :
    ∃ refs, Retained r plan refs ∧ ms' = writeStubs f ms (plan.zip refs)
      ∧ reps = (plan.zip refs).map fun c => c.1.replacement c.2 := by
  unfold replace at h
  split at h
  · next hnil =>
    obtain rfl := isEmpty_iff.1 hnil
    cases h
    exact ⟨[], ⟨rfl, fun hne => absurd rfl hne⟩, rfl, rfl⟩
  · split at h
    · nomatch h
    · next refs hrefs =>
      split at h
      · nomatch h
      · next hlength =>
        cases h
        exact ⟨refs, ⟨not_not.1 hlength, fun _ => hrefs⟩, rfl, rfl⟩

/-- The results that a pass over read messages replaces. -/
abbrev planOf (sv : Services) (l : Limits) (f : Format) (ms : List Message) : List Candidate :=
  choose sv l (pair (scan f ms))

/-- The guidance that a pass over read messages replaces. -/
abbrev notesOf (l : Limits) (f : Format) (ms : List Message) : List TextBlock :=
  repeated l.keepGuidance (guidanceOf (scan f ms).texts)

/-- The writes of a pass, given the refs of its originals. -/
abbrev editsWith (sv : Services) (l : Limits) (f : Format) (ms : List Message) (refs : List Ref) :
    List Edit :=
  passEdits ((planOf sv l f ms).zip refs) (notesOf l f ms).reverse

variable {sv : Services} {estimate : Bytes → Nat} {opts : Options} {out : Outcome} {l : Limits}
  {refs : List Ref}

/-- A pass that succeeds: a history that is too small comes back, and otherwise every original is
retained before its stub is written. -/
lemma compact_ok
    (h : compact sv estimate f msgs r opts = (out, none)) :
    ((totalBytes msgs : Int) ≤ opts.triggerBytes ∧ out.messages = msgs ∧ out.replacements = []
        ∧ out.stats.guidance = 0)
      ∨ ∃ ms refs, Reads msgs ms
        ∧ Retained r (planOf sv opts.withDefaults f ms) refs
        ∧ out.messages
          = (applyEdits f (editsWith sv opts.withDefaults f ms refs) ms).map Message.encode
        ∧ out.replacements
          = ((planOf sv opts.withDefaults f ms).zip refs).map (fun c => c.1.replacement c.2)
        ∧ out.stats.guidance = (notesOf opts.withDefaults f ms).length := by
  unfold compact at h
  dsimp only at h
  split at h
  · next hsmall =>
    cases h
    exact .inl ⟨hsmall, rfl, rfl, rfl⟩
  · refine .inr ?_
    split at h
    · cases h
    · next ms hms =>
      split at h
      · cases h
      · next ms' reps guidance hparsed =>
        cases h
        unfold compactParsed at hparsed
        dsimp only at hparsed
        split at hparsed
        · nomatch hparsed
        · next ms₁ reps₁ hreplace =>
          obtain ⟨refs, hretained, rfl, rfl⟩ := replace_eq_ok hreplace
          obtain ⟨rfl, rfl, rfl⟩ := Except.ok.inj hparsed
          refine ⟨ms, refs, parseFrom_eq_ok.1 hms, hretained, ?_, rfl, rfl⟩
          rw [writeNotes_writeStubs]

/-- A pass that fails returns the messages as they were. -/
lemma compact_error {e : Failure ε}
    (h : compact sv estimate f msgs r opts = (out, some e)) : out.messages = msgs := by
  unfold compact at h
  dsimp only at h
  split at h
  · cases h
  · split at h
    · cases h
      rfl
    · split at h
      · cases h
        rfl
      · cases h

/-- A stub stands at a result that answers a call, and names the ref under which the exact content
of the result was retained. -/
def Backed (r : Retainer ε) (t : Transcript) (place : Loc) (text : Chars) : Prop :=
  ∃ (c : Candidate) (originals : List Original) (refs : List Ref) (k : Nat) (o : Original)
    (ref : Ref),
    (c.x.result ∈ t.results ∧ c.x.result.place = place)
      ∧ (c.x.call ∈ t.calls ∧ c.x.call.id = c.x.result.id)
      ∧ (r originals = .ok refs ∧ originals[k]? = some o ∧ refs[k]? = some ref)
      ∧ o.content = contentBytes c.x.result.content ∧ text = c.stub ref ∧ ref.handle <:+: text

/-- A note stands at a text that is still the text of a later block. -/
def Repeated (t : Transcript) (es : List Edit) (place : Loc) : Prop :=
  ∃ g g' : TextBlock, [g, g'].Sublist t.texts ∧ g.place = place ∧ g'.text = g.text
    ∧ g'.place ∉ es.map Edit.place

def Edit.Justified (r : Retainer ε) (t : Transcript) (es : List Edit) (e : Edit) : Prop :=
  match e.action with
  | .stub text => Backed r t e.place text
  | .note => Repeated t es e.place

lemma handle_infix_stub (c : Candidate) (ref : Ref) : ref.handle <:+: c.stub ref := by
  have hrecovery : ref.handle <:+: recovery c.x.size ref := by
    refine List.IsInfix.trans ?_ (prefix_append _ _).isInfix
    refine List.IsInfix.trans ?_ (prefix_append _ _).isInfix
    refine List.IsInfix.trans ?_ (prefix_append _ _).isInfix
    exact (suffix_append _ _).isInfix
  exact hrecovery.trans (suffix_append _ _).isInfix

lemma backed_of_mem
    (hretained : Retained r (planOf sv l f ms) refs) {c : Candidate × Ref}
    (hc : c ∈ (planOf sv l f ms).zip refs) :
    Backed r (scan f ms) c.1.x.result.place (c.1.stub c.2) := by
  have hplan : c.1 ∈ planOf sv l f ms := (of_mem_zip hc).1
  have hx : c.1.x ∈ pair (scan f ms) := (choose_sublist sv l _).subset (mem_map_of_mem hplan)
  obtain ⟨res, hres, hexchange⟩ := mem_filterMap.1 hx
  obtain ⟨heq, hcall, hid, -⟩ := exchangeOf_eq_some hexchange
  obtain ⟨k, hk⟩ := mem_iff_getElem?.1 hc
  obtain ⟨hk₁, hk₂⟩ := getElem?_zip_eq_some.1 hk
  refine ⟨c.1, _, refs, k, c.1.original, c.2, ⟨heq ▸ hres, rfl⟩, ⟨hcall, heq ▸ hid⟩,
    ⟨hretained.2 (ne_nil_of_mem hplan), ?_, hk₂⟩, rfl, rfl, handle_infix_stub _ _⟩
  rw [getElem?_map, hk₁, map_some]

lemma repeated_of_mem
    (hrefs : refs.length = (planOf sv l f ms).length) (hg : g ∈ notesOf l f ms) :
    Repeated (scan f ms) (editsWith sv l f ms refs) g.place := by
  have hall := nodup_places f ms
  rw [Transcript.places, nodup_append] at hall
  obtain ⟨-, htexts, hdisjoint⟩ := hall
  have hguidance : ((guidanceOf (scan f ms).texts).map TextBlock.place).Nodup :=
    (filter_sublist.map _).nodup htexts
  obtain ⟨g', hsub, htext, hplace⟩ := later_of_repeated hguidance hg
  have hsub' : [g, g'].Sublist (scan f ms).texts := hsub.trans filter_sublist
  have hg' : g'.place ∈ (scan f ms).texts.map TextBlock.place :=
    mem_map_of_mem (hsub'.subset (by simp))
  refine ⟨g, g', hsub', rfl, htext, fun hmem => ?_⟩
  obtain ⟨e, he, heq⟩ := mem_map.1 hmem
  have hsited := sited_passEdits sv l f ms hrefs
  cases ha : e.action with
  | stub text => exact hdisjoint _ (hsited.stub e he ⟨text, ha⟩) _ hg' heq
  | note =>
    rcases mem_append.1 he with he | he
    · obtain ⟨c, -, rfl⟩ := mem_map.1 he
      cases ha
    · obtain ⟨h, hh, rfl⟩ := mem_map.1 he
      exact hplace (heq ▸ mem_map_of_mem (mem_reverse.1 hh))

/-- Nothing is written in a message of the assistant. -/
lemma Sited.assistant (h : Sited f ms es)
    (hm : ms[i]? = some m) (hrole : str m.fields "role" = "assistant".toList) :
    editsOf es i = [] := by
  by_contra hne
  obtain ⟨e, he⟩ := exists_mem_of_ne_nil _ hne
  cases ha : e.action with
  | stub text =>
    obtain ⟨r, hr, -⟩ := h.exists_result hm he ⟨text, ha⟩
    rcases mem_results hr with ⟨-, hrole', -⟩ | ⟨-, hrole', -⟩
    · exact absurd (hrole.symm.trans hrole') (by decide)
    · exact absurd (hrole.symm.trans hrole') (by decide)
  | note =>
    obtain ⟨g, hg, -⟩ := h.exists_text hm he ha
    exact absurd (hrole.symm.trans (mem_texts hg).1) (by decide)

/-- Where a pass wrote, and that it left the rest alone. -/
structure Framed (f : Format) (r : Retainer ε) (msgs out : List RawMessage) (es : List Edit) :
    Prop where
  nodup : (es.map Edit.place).Nodup
  kept : ∀ (i : Nat) raw raw', msgs[i]? = some raw → out[i]? = some raw'
    → MessageKept raw raw' (editsOf es i)
  assistant : ∀ (i : Nat) raw m, msgs[i]? = some raw → parseMessage raw = some m →
    str m.fields "role" = "assistant".toList → out[i]? = some raw
  justified : ∀ e ∈ es, ∃ ms, Reads msgs ms
    ∧ e.Justified r (scan f ms) es

lemma framed_refl (f : Format) (r : Retainer ε) (msgs : List RawMessage) :
    Framed f r msgs msgs [] where
  nodup := .nil
  kept _ _ _ h h' := .same (some.inj (h'.symm.trans h))
  assistant _ _ _ h _ _ := h
  justified _ he := nomatch he

/-- A pass returns as many messages, writes only where that is justified, and returns the messages
as they were if it fails. -/
theorem compact_frame (sv : Services) (estimate : Bytes → Nat) (f : Format) (msgs : List RawMessage)
    (r : Retainer ε) (opts : Options) :
    (compact sv estimate f msgs r opts).1.messages.length = msgs.length
      ∧ ((compact sv estimate f msgs r opts).2 ≠ none →
        (compact sv estimate f msgs r opts).1.messages = msgs)
      ∧ ∃ es, Framed f r msgs (compact sv estimate f msgs r opts).1.messages es := by
  generalize hpass : compact sv estimate f msgs r opts = pass
  obtain ⟨out, err⟩ := pass
  cases err with
  | some e =>
    have hsame := compact_error hpass
    exact ⟨congrArg _ hsame, fun _ => hsame, [], hsame.symm ▸ framed_refl f r msgs⟩
  | none =>
    rcases compact_ok hpass with ⟨-, hsame, -⟩ | ⟨ms, refs, hparse, hretained, hout, -⟩
    · exact ⟨congrArg _ hsame, fun _ => hsame, [], hsame.symm ▸ framed_refl f r msgs⟩
    have hsited := sited_passEdits sv opts.withDefaults f ms hretained.1
    have hlength : ms.length = msgs.length := hparse.length_eq.symm
    have hmessage (i : Nat) (raw : RawMessage) (hraw : msgs[i]? = some raw) :
        ∃ m, ms[i]? = some m ∧ parseMessage raw = some m := parsed_at hparse hraw
    have hget (i : Nat) (m : Message) (hm : ms[i]? = some m) : out.messages[i]?
        = some (rewriteMessage f (editsOf (editsWith sv opts.withDefaults f ms refs) i)
          m).encode := by
      rw [hout, getElem?_map, getElem?_applyEdits, hm, map_some, map_some]
    refine ⟨?_, fun h => absurd rfl h, editsWith sv opts.withDefaults f ms refs, ?_⟩
    · rw [hout, length_map, length_applyEdits, hlength]
    constructor
    · exact hsited.nodup
    · intro i raw raw' hraw hraw'
      obtain ⟨m, hm, hparsed⟩ := hmessage i raw hraw
      obtain ⟨rfl, hm'⟩ := parsed_of_parse hparsed
      obtain rfl := some.inj ((hget i m hm).symm.trans hraw')
      exact (hsited.touched hm).messageKept hm'
    · intro i raw m hraw hparsed hrole
      obtain ⟨m', hm', hparsed'⟩ := hmessage i raw hraw
      obtain rfl := some.inj (hparsed.symm.trans hparsed')
      obtain ⟨rfl, hm⟩ := parsed_of_parse hparsed
      rw [hget i m hm', hsited.assistant hm' hrole, encode_unwritten hm]
    · intro e he
      refine ⟨ms, hparse, ?_⟩
      rcases mem_append.1 he with hstub | hnote
      · obtain ⟨c, hc, rfl⟩ := mem_map.1 hstub
        exact backed_of_mem hretained hc
      · obtain ⟨g, hg, rfl⟩ := mem_map.1 hnote
        exact repeated_of_mem hretained.1 (mem_reverse.1 hg)

end Compaction
