import Mathlib.Data.List.Nodup
import XMustard.Compaction.Rewriting

/-!
# The places of a pass

Every result and every text of the user has a place of its own. A pass writes a stub only at the
place of a result and a note only at the place of a text, and at each place once.
-/

namespace Compaction

open List Text JsonText

variable {f : Format} {i : Nat} {m : Message} {ms : List Message} {r : Result}

/-! ### Places of a transcript -/

/-- The places of the results and texts. -/
def Transcript.places (t : Transcript) : List Loc :=
  t.results.map Result.place ++ t.texts.map TextBlock.place

/-- What is found in the messages is what is found in each of them. -/
lemma scanFrom_eq (f : Format) (i : Nat) (ms : List Message) :
    scanFrom f i ms = ⟨(ms.zipIdx i).flatMap fun m => (scanMessage f m.2 m.1).calls,
      (ms.zipIdx i).flatMap fun m => (scanMessage f m.2 m.1).results,
      (ms.zipIdx i).flatMap fun m => (scanMessage f m.2 m.1).texts⟩ := by
  induction ms generalizing i with
  | nil => rfl
  | cons m ms ih => simp only [scanFrom, ih, zipIdx_cons, flatMap_cons]

/-- The block at a position of a message. -/
def Message.blockAt (m : Message) (j : Nat) : Option Block := (m.blocks.getD [])[j]?

lemma mem_numbered {b : Block × Nat} : b ∈ m.numbered ↔ m.blockAt b.2 = some b.1 := by
  rw [Message.numbered, mem_zipIdx_iff_getElem?, Message.blockAt]

/-- A result of a message is one of its blocks, or for Pi the message itself. -/
lemma mem_results (hr : r ∈ (scanMessage f i m).results) :
    (f = .anthropic ∧ str m.fields "role" = "user".toList ∧ ∃ j b, r.place = ⟨i, some j⟩
        ∧ m.blockAt j = some b ∧ str b.decoded "type" = "tool_result".toList
        ∧ r.content = member b.decoded "content".toList)
      ∨ (f = .pi ∧ str m.fields "role" = "toolResult".toList ∧ r.place = ⟨i, none⟩
        ∧ r.content = member m.fields "content".toList) := by
  cases f with
  | anthropic =>
    rw [scanMessage] at hr
    dsimp only at hr
    split at hr
    · next hrole =>
      obtain ⟨b, hb, rfl⟩ := mem_map.1 hr
      obtain ⟨hmem, htype⟩ := mem_filter.1 hb
      exact .inl ⟨rfl, hrole, b.2, b.1, rfl, mem_numbered.1 hmem, of_decide_eq_true htype, rfl⟩
    · nomatch hr
  | pi =>
    rw [scanMessage] at hr
    dsimp only at hr
    split at hr
    · next hrole =>
      obtain rfl := mem_singleton.1 hr
      exact .inr ⟨rfl, hrole, rfl, rfl⟩
    · nomatch hr

/-- A text of a message is one of its text blocks, or its content if that is no array. -/
lemma mem_texts {g : TextBlock} (hg : g ∈ (scanMessage f i m).texts) :
    str m.fields "role" = "user".toList
      ∧ ((m.blocks = none ∧ g.place = ⟨i, none⟩)
        ∨ ∃ j b, g.place = ⟨i, some j⟩ ∧ m.blockAt j = some b
          ∧ str b.decoded "type" = "text".toList ∧ g.text = str b.decoded "text") := by
  have huser : str m.fields "role" = "user".toList ∧ g ∈ userTexts i m := by
    cases f with
    | anthropic | pi =>
      rw [scanMessage] at hg
      dsimp only at hg
      split at hg
      · next hrole => exact ⟨hrole, hg⟩
      · nomatch hg
  refine ⟨huser.1, ?_⟩
  have hg := huser.2
  unfold userTexts at hg
  cases hblocks : m.blocks with
  | none =>
    refine .inl ⟨rfl, ?_⟩
    rw [hblocks] at hg
    dsimp only at hg
    split at hg
    · rw [mem_singleton.1 hg]
    · rw [mem_singleton.1 hg]
    · nomatch hg
  | some bs =>
    rw [hblocks] at hg
    obtain ⟨b, hb, rfl⟩ := mem_map.1 hg
    obtain ⟨hmem, htype⟩ := mem_filter.1 hb
    exact .inr ⟨b.2, b.1, rfl, mem_numbered.1 hmem, of_decide_eq_true htype, rfl⟩

lemma nodup_numbered (p : Block × Nat → Bool) :
    ((m.numbered.filter p).map fun b => (⟨i, some b.2⟩ : Loc)).Nodup := by
  have hsnd : (m.numbered.map Prod.snd).Nodup := by
    rw [Message.numbered, zipIdx_map_snd]
    exact nodup_range'
  have hinj : Function.Injective fun j => (⟨i, some j⟩ : Loc) := fun j k h => by simpa using h
  have hsub : ((m.numbered.filter p).map Prod.snd).Nodup :=
    (filter_sublist.map Prod.snd).nodup hsnd
  have := hsub.map hinj
  rwa [map_map] at this

lemma nodup_places_message (f : Format) (i : Nat) (m : Message) :
    (scanMessage f i m).places.Nodup := by
  rw [Transcript.places, nodup_append]
  refine ⟨?_, ?_, ?_⟩
  · cases f with
    | anthropic =>
      rw [scanMessage]
      dsimp only
      split
      · rw [resultsIn, map_map]
        exact nodup_numbered _
      · exact .nil
    | pi =>
      rw [scanMessage]
      dsimp only
      split
      · exact nodup_singleton _
      · exact .nil
  · have hall : ((userTexts i m).map TextBlock.place).Nodup := by
      unfold userTexts
      split
      · split
        · exact nodup_singleton _
        · exact nodup_singleton _
        · exact .nil
      · rw [map_map]
        exact nodup_numbered _
    cases f with
    | anthropic | pi =>
      rw [scanMessage]
      dsimp only
      split
      · exact hall
      · exact .nil
  · intro l hl l' hl' heq
    obtain ⟨r, hr, rfl⟩ := mem_map.1 hl
    obtain ⟨g, hg, rfl⟩ := mem_map.1 hl'
    obtain ⟨hrole, hplace⟩ := mem_texts hg
    rcases mem_results hr with ⟨-, -, j, b, hj, hb, htype, -⟩ | ⟨-, hrole', -⟩
    · rcases hplace with ⟨-, hnone⟩ | ⟨k, b', hk, hb', htype', -⟩
      · rw [hj, hnone] at heq
        nomatch heq
      · rw [hj, hk, Loc.mk.injEq, Option.some.injEq] at heq
        obtain rfl := heq.2
        cases hb.symm.trans hb'
        exact absurd (htype.symm.trans htype') (by decide)
    · exact absurd (hrole.symm.trans hrole') (by decide)

lemma place_msg_message {l : Loc} (hl : l ∈ (scanMessage f i m).places) : l.msg = i := by
  rcases mem_append.1 hl with hl | hl
  · obtain ⟨r, hr, rfl⟩ := mem_map.1 hl
    rcases mem_results hr with ⟨-, -, j, b, hj, -⟩ | ⟨-, -, hj, -⟩
    · rw [hj]
    · rw [hj]
  · obtain ⟨g, hg, rfl⟩ := mem_map.1 hl
    rcases (mem_texts hg).2 with ⟨-, hj⟩ | ⟨j, b, hj, -⟩
    · rw [hj]
    · rw [hj]

/-- No two results or texts have the same place. -/
lemma nodup_places (f : Format) (ms : List Message) : (scan f ms).places.Nodup := by
  have hall (i : Nat) :
      (scanFrom f i ms).places.Nodup ∧ ∀ l ∈ (scanFrom f i ms).places, i ≤ l.msg := by
    induction ms generalizing i with
    | nil => exact ⟨.nil, by simp [scanFrom, Transcript.places]⟩
    | cons m ms ih =>
      obtain ⟨hnodup, hle⟩ := ih (i + 1)
      have hperm : (scanFrom f i (m :: ms)).places.Perm
          ((scanMessage f i m).places ++ (scanFrom f (i + 1) ms).places) := by
        simp only [Transcript.places, scanFrom, map_append, append_assoc]
        refine List.Perm.append_left _ ?_
        rw [← append_assoc, ← append_assoc]
        exact perm_append_comm.append_right _
      refine ⟨hperm.nodup_iff.2 (nodup_append.2 ⟨nodup_places_message f i m, hnodup, ?_⟩), ?_⟩
      · intro l hl l' hl' heq
        subst heq
        have := place_msg_message hl
        have := hle l hl'
        omega
      · intro l hl
        rcases mem_append.1 (hperm.subset hl) with hl | hl
        · exact (place_msg_message hl).ge
        · exact (Nat.le_succ i).trans (hle l hl)
  exact (hall 0).1

/-! ### Places of the writes -/

/-- The writes of a pass: stubs at results, notes at texts, and no place twice. -/
structure Sited (f : Format) (ms : List Message) (es : List Edit) : Prop where
  stub : ∀ e ∈ es, (∃ text, e.action = .stub text) → e.place ∈ (scan f ms).results.map Result.place
  note : ∀ e ∈ es, e.action = .note → e.place ∈ (scan f ms).texts.map TextBlock.place
  nodup : (es.map Edit.place).Nodup

variable {es : List Edit} {e : Edit}

/-- The result at whose place a stub is written. -/
lemma Sited.exists_result (h : Sited f ms es) (hm : ms[i]? = some m) (he : e ∈ editsOf es i)
    (hstub : ∃ text, e.action = .stub text) :
    ∃ r ∈ (scanMessage f i m).results, r.place = e.place := by
  obtain ⟨hmem, hmsg⟩ := mem_filter.1 he
  obtain ⟨r, hr, hplace⟩ := mem_map.1 (h.stub e hmem hstub)
  rw [scan, scanFrom_eq] at hr
  obtain ⟨⟨m', k⟩, hm', hr⟩ := mem_flatMap.1 hr
  have hk : r.place.msg = k := place_msg_message (mem_append_left _ (mem_map_of_mem hr))
  obtain rfl : k = i := by rw [← hk, hplace, of_decide_eq_true hmsg]
  cases hm.symm.trans (mem_zipIdx_iff_getElem?.1 hm')
  exact ⟨r, hr, hplace⟩

/-- The text at whose place a note is written. -/
lemma Sited.exists_text (h : Sited f ms es) (hm : ms[i]? = some m) (he : e ∈ editsOf es i)
    (hnote : e.action = .note) : ∃ g ∈ (scanMessage f i m).texts, g.place = e.place := by
  obtain ⟨hmem, hmsg⟩ := mem_filter.1 he
  obtain ⟨g, hg, hplace⟩ := mem_map.1 (h.note e hmem hnote)
  rw [scan, scanFrom_eq] at hg
  obtain ⟨⟨m', k⟩, hm', hg⟩ := mem_flatMap.1 hg
  have hk : g.place.msg = k := place_msg_message (mem_append_right _ (mem_map_of_mem hg))
  obtain rfl : k = i := by rw [← hk, hplace, of_decide_eq_true hmsg]
  cases hm.symm.trans (mem_zipIdx_iff_getElem?.1 hm')
  exact ⟨g, hg, hplace⟩

/-- How the writes of a pass touch a message: at blocks, or at the whole content. -/
inductive Touched (f : Format) (m : Message) : List Edit → Prop
  | untouched : Touched f m []
  | whole (e : Edit) : e.OnWhole f m → Touched f m [e]
  | blocks (es : List Edit) (bs : List Block) : es ≠ [] → (∀ e ∈ es, e.OnBlock f) →
      (es.map fun e => e.place.block).Nodup → m.blocks = some bs → Touched f m es

lemma Sited.onBlock_or_onWhole (h : Sited f ms es) (hm : ms[i]? = some m)
    (he : e ∈ editsOf es i) : (e.OnBlock f ∧ m.blocks ≠ none) ∨ e.OnWhole f m := by
  have hblocks {j : Nat} {b : Block} (hb : m.blockAt j = some b) : m.blocks ≠ none := by
    intro hnone
    simp [Message.blockAt, hnone] at hb
  cases ha : e.action with
  | stub text =>
    obtain ⟨r, hr, hplace⟩ := h.exists_result hm he ⟨text, ha⟩
    rcases mem_results hr with ⟨hf, -, j, b, hj, hb, -⟩ | ⟨hf, -, hj, -⟩
    · exact .inl ⟨⟨⟨j, by rw [← hplace, hj]⟩, .inl hf⟩, hblocks hb⟩
    · exact .inr ⟨by rw [← hplace, hj], .inl ⟨hf, text, ha⟩⟩
  | note =>
    obtain ⟨g, hg, hplace⟩ := h.exists_text hm he ha
    rcases (mem_texts hg).2 with ⟨hnone, hj⟩ | ⟨j, b, hj, hb, -⟩
    · exact .inr ⟨by rw [← hplace, hj], .inr ⟨ha, hnone⟩⟩
    · exact .inl ⟨⟨⟨j, by rw [← hplace, hj]⟩, .inr ha⟩, hblocks hb⟩

lemma Sited.nodup_blocks (h : Sited f ms es) (i : Nat) :
    ((editsOf es i).map fun e => e.place.block).Nodup := by
  have hsub : ((editsOf es i).map Edit.place).Nodup := (filter_sublist.map _).nodup h.nodup
  rw [List.Nodup, pairwise_map] at hsub ⊢
  refine hsub.imp_of_mem fun {a b} ha hb hne heq => hne ?_
  have hmsg : a.place.msg = b.place.msg :=
    (of_decide_eq_true (mem_filter.1 ha).2).trans (of_decide_eq_true (mem_filter.1 hb).2).symm
  cases hpa : a.place with
  | mk msg block =>
    cases hpb : b.place with
    | mk msg' block' => simp_all

/-- A message with a write at its whole content has no other. -/
lemma Sited.whole_of_whole (h : Sited f ms es) (hm : ms[i]? = some m) {e' : Edit}
    (he : e ∈ editsOf es i) (he' : e' ∈ editsOf es i) (hwhole : e.OnWhole f m) :
    e'.OnWhole f m := by
  rcases h.onBlock_or_onWhole hm he' with ⟨⟨hj, hkind⟩, hblocks⟩ | hwhole'
  · rcases hwhole with ⟨-, ⟨hf, hstub⟩ | ⟨-, hnone⟩⟩
    · -- the message of a Pi result is none of the user
      obtain ⟨r, hr, -⟩ := h.exists_result hm he hstub
      have hnote : e'.action = .note := hkind.resolve_left (by rw [hf]; decide)
      obtain ⟨g, hg, -⟩ := h.exists_text hm he' hnote
      rcases mem_results hr with ⟨hf', -⟩ | ⟨-, hrole, -⟩
      · exact absurd (hf.symm.trans hf') (by decide)
      · exact absurd ((mem_texts hg).1.symm.trans hrole) (by decide)
    · exact absurd hnone hblocks
  · exact hwhole'

lemma Sited.touched (h : Sited f ms es) (hm : ms[i]? = some m) : Touched f m (editsOf es i) := by
  by_cases hwhole : ∃ e ∈ editsOf es i, e.OnWhole f m
  · obtain ⟨e, he, hwhole⟩ := hwhole
    have hall (e' : Edit) (he' : e' ∈ editsOf es i) : e'.OnWhole f m :=
      h.whole_of_whole hm he he' hwhole
    have hnodup := h.nodup_blocks i
    cases hlist : editsOf es i with
    | nil => exact .untouched
    | cons e₀ rest =>
      rw [hlist] at hall hnodup
      have h₀ := hall e₀ (mem_cons_self ..)
      cases rest with
      | nil => exact .whole e₀ h₀
      | cons e₁ rest =>
        have h₁ := hall e₁ (mem_cons_of_mem _ (mem_cons_self ..))
        rw [map_cons, nodup_cons, map_cons, h₀.1, h₁.1] at hnodup
        exact absurd (mem_cons_self ..) hnodup.1
  · have hblock (e : Edit) (he : e ∈ editsOf es i) : e.OnBlock f ∧ m.blocks ≠ none :=
      (h.onBlock_or_onWhole hm he).resolve_right fun hw => hwhole ⟨e, he, hw⟩
    by_cases hnil : editsOf es i = []
    · rw [hnil]
      exact .untouched
    · obtain ⟨e, he⟩ := exists_mem_of_ne_nil _ hnil
      obtain ⟨bs, hbs⟩ := Option.ne_none_iff_exists'.1 (hblock e he).2
      exact .blocks _ bs hnil (fun e he => (hblock e he).1) (h.nodup_blocks i) hbs

/-! ### The places of what is chosen -/

/-- The old exchanges from position `i` on, with what would replace them. -/
def candidatesFrom (sv : Services) (l : Limits) (boundary : Nat) :
    Nat → Option PlannerState → List Exchange → List Candidate
  | _, _, [] => []
  | i, prev, x :: xs =>
    (describe sv l (i < boundary) prev x xs).toList
      ++ candidatesFrom sv l boundary (i + 1) (nextState prev x) xs

variable (sv : Services)

variable (l : Limits)

variable (xs : List Exchange) {x : Exchange}

/-- The old exchanges, with what would replace them. -/
def candidates : List Candidate :=
  candidatesFrom sv l (windowBoundary l xs) 0 none xs

lemma describe_x {sv : Services} {l : Limits} {old : Bool} {prev : Option PlannerState}
    {after : List Exchange} {c : Candidate} (h : describe sv l old prev x after = some c) :
    c.x = x := by
  unfold describe at h
  split at h
  · split at h
    · nomatch h
    · cases h
      rfl
  · split at h
    · cases h
      rfl
    · nomatch h

lemma candidatesFrom_sublist (boundary i : Nat) (prev : Option PlannerState) (xs : List Exchange) :
    ((candidatesFrom sv l boundary i prev xs).map Candidate.x).Sublist xs := by
  induction xs generalizing i prev with
  | nil => exact .slnil
  | cons x xs ih =>
    rw [candidatesFrom, map_append]
    cases hc : describe sv l (i < boundary) prev x xs with
    | none => exact (ih _ _).cons x
    | some c =>
      rw [Option.toList_some, map_singleton, describe_x hc]
      exact (ih _ _).cons_cons x

lemma chooseFrom_eq_filter (boundary i : Nat) (prev : Option PlannerState) (xs : List Exchange) :
    chooseFrom sv l boundary i prev xs
      = (candidatesFrom sv l boundary i prev xs).filter (Candidate.worthwhile l) := by
  induction xs generalizing i prev with
  | nil => rfl
  | cons x xs ih =>
    rw [chooseFrom, candidatesFrom, filter_append, ih]
    congr 1
    cases describe sv l (decide (i < boundary)) prev x xs with
    | none => rfl
    | some c => cases hc : c.worthwhile l <;> simp [Option.filter, hc]

lemma choose_eq_filter : choose sv l xs = (candidates sv l xs).filter (Candidate.worthwhile l) :=
  chooseFrom_eq_filter sv l _ 0 none xs

lemma choose_sublist : ((choose sv l xs).map Candidate.x).Sublist xs := by
  rw [choose_eq_filter]
  exact (filter_sublist.map _).trans (candidatesFrom_sublist sv l _ 0 none xs)

lemma exchangeOf_eq_some {calls : List Call}
    (h : exchangeOf calls r = some x) :
    x.result = r ∧ x.call ∈ calls ∧ x.call.id = r.id
      ∧ x.text = (contentText r.content).1 ∧ x.images = (contentText r.content).2 := by
  unfold exchangeOf at h
  split at h
  · nomatch h
  · obtain ⟨c, hc, rfl⟩ := Option.map_eq_some_iff.1 h
    have hid := List.find?_some hc
    exact ⟨rfl, mem_reverse.1 (mem_of_find?_eq_some hc), of_decide_eq_true hid, rfl, rfl⟩

lemma pair_sublist (t : Transcript) : ((pair t).map Exchange.result).Sublist t.results := by
  rw [pair]
  generalize t.results = rs
  induction rs with
  | nil => exact .slnil
  | cons r rs ih =>
    cases hx : exchangeOf t.calls r with
    | none =>
      rw [filterMap_cons_none hx]
      exact ih.cons r
    | some x =>
      rw [filterMap_cons_some hx, map_cons, (exchangeOf_eq_some hx).1]
      exact ih.cons_cons r

lemma repeated_sublist (keep : Nat) (gs : List TextBlock) : (repeated keep gs).Sublist gs := by
  induction gs with
  | nil => exact .slnil
  | cons g gs ih =>
    rw [repeated]
    split
    · exact ih.cons_cons g
    · exact ih.cons g

/-- The writes of a pass are sited. -/
lemma sited_passEdits (f : Format) (ms : List Message) {refs : List Ref}
    (hrefs : refs.length = (choose sv l (pair (scan f ms))).length) :
    Sited f ms (passEdits ((choose sv l (pair (scan f ms))).zip refs)
      (repeated l.keepGuidance (guidanceOf (scan f ms).texts)).reverse) := by
  have hstubs : (((choose sv l (pair (scan f ms))).zip refs).map fun c =>
      c.1.x.result.place).Sublist
      ((scan f ms).results.map Result.place) := by
    have hchosen := (choose_sublist sv l (pair (scan f ms))).map fun x => x.result.place
    have hpaired := (pair_sublist (scan f ms)).map Result.place
    rw [map_map] at hchosen hpaired
    have hplaces := hchosen.trans hpaired
    rw [← map_fst_zip hrefs.ge, map_map] at hplaces
    exact hplaces
  have hnotes : ((repeated l.keepGuidance (guidanceOf (scan f ms).texts)).map
      TextBlock.place).Sublist
      ((scan f ms).texts.map TextBlock.place) :=
    ((repeated_sublist _ _).trans filter_sublist).map _
  constructor
  · rintro e he ⟨text, ha⟩
    rcases mem_append.1 he with he | he
    · obtain ⟨c, hc, rfl⟩ := mem_map.1 he
      exact hstubs.subset (mem_map.2 ⟨c, hc, rfl⟩)
    · obtain ⟨g, -, rfl⟩ := mem_map.1 he
      nomatch ha
  · intro e he ha
    rcases mem_append.1 he with he | he
    · obtain ⟨c, -, rfl⟩ := mem_map.1 he
      nomatch ha
    · obtain ⟨g, hg, rfl⟩ := mem_map.1 he
      exact hnotes.subset (mem_map.2 ⟨g, mem_reverse.1 hg, rfl⟩)
  · have hall := nodup_places f ms
    have hsub := (hstubs.append hnotes).nodup hall
    rw [passEdits, map_append, map_map, map_map, map_reverse]
    exact ((reverse_perm _).append_left _).nodup_iff.2 hsub

end Compaction
