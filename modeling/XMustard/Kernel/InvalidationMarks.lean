import XMustard.Kernel.Invalidation
import XMustard.Store.CodeMoves
import XMustard.Store.Routine

/-!
# What an invalidation marks

An update of stale marks is known exactly, and the pass over quoted code leaves all other anchors as
they are. So what drifted is marked, except for the entries that the pass over quoted code marked
before.
-/

namespace WorkspaceOps

open List GovStore Table Program

variable {tree : Tree} {env : Env} {db : Db} {t t' : Txn} {a : Actor} {id commit : String}
  {ref : AnchorKind × String}

/-! ### Stale marks -/

/-- The anchor is one of the refs of the entry and not stale yet. -/
def isDue (id : String) (refs : List (AnchorKind × String)) (x : Anchor) : Bool :=
  x.entryId = id ∧ refs.contains (x.kind, x.value) ∧ x.staleSince = none

def staleAt (now : Time) (commit : String) (x : Anchor) : Anchor :=
  { x with staleSince := some now, staleCommit := commit }

lemma not_isDue_staleAt (now : Time) (id commit : String) (refs : List (AnchorKind × String))
    (x : Anchor) : isDue id refs (staleAt now commit x) = false := by
  simp [isDue, staleAt]

/-- Two updates of stale marks are one. -/
lemma update_isDue (now : Time) (commit : String) (refs refs' : List (AnchorKind × String))
    (anchors : List Anchor) :
    Table.update (isDue id refs') (staleAt now commit)
        (Table.update (isDue id refs) (staleAt now commit) anchors)
      = Table.update (isDue id (refs ++ refs')) (staleAt now commit) anchors := by
  rw [update_update fun x _ => not_isDue_staleAt now id commit refs' x]
  refine update_congr fun x _ => ?_
  rw [Bool.eq_iff_iff]
  simp only [isDue, Bool.or_eq_true, decide_eq_true_eq, contains_iff_mem, mem_append]
  tauto

lemma markAnchorStale_eq_ok {hit : Bool}
    (hrun : markAnchorStale env id commit ref t = (.ok hit, t')) :
    t'.db.anchors = Table.update (isDue id [ref]) (staleAt env.now commit) t.db.anchors := by
  obtain ⟨_, _, hread, hrest⟩ := bind_eq_ok.1 hrun
  cases hread
  obtain ⟨_, _, hexec, hpure⟩ := bind_eq_ok.1 hrest
  cases hpure
  obtain ⟨db', hok, rfl⟩ := execDb_eq_ok hexec
  rw [Db.updateAnchors_eq_ok hok]
  refine update_congr fun x _ => ?_
  simp [isDue, Prod.ext_iff, and_assoc]

variable {refs : List (AnchorKind × String)}

lemma markAnchorsStale_eq_ok {fresh : List (AnchorKind × String)}
    (hrun : markAnchorsStale env id commit refs t = (.ok fresh, t')) :
    t'.db.anchors = Table.update (isDue id refs) (staleAt env.now commit) t.db.anchors := by
  induction refs generalizing t fresh with
  | nil =>
    cases hrun
    exact (update_eq_self fun x _ => by simp [isDue]).symm
  | cons ref refs ih =>
    obtain ⟨_, t₁, hfirst, hrest⟩ := bind_eq_ok.1 hrun
    obtain ⟨_, t₂, hmore, hpure⟩ := bind_eq_ok.1 hrest
    cases hpure
    rw [ih hmore, markAnchorStale_eq_ok hfirst, update_isDue]
    rfl

lemma markAnchorsStale_ne_nil {fresh : List (AnchorKind × String)} {x : Anchor}
    (hrun : markAnchorsStale env id commit refs t = (.ok fresh, t')) (hx : x ∈ t.db.anchors)
    (hdue : isDue id refs x) : fresh ≠ [] := by
  induction refs generalizing t fresh with
  | nil => simp [isDue] at hdue
  | cons ref refs ih =>
    obtain ⟨hit, t₁, hfirst, hrest⟩ := bind_eq_ok.1 hrun
    obtain ⟨marked, t₂, hmore, hpure⟩ := bind_eq_ok.1 hrest
    cases hpure
    by_cases href : (x.kind, x.value) = ref
    · have hhit : hit = true := by
        obtain ⟨_, _, hread, hrest⟩ := bind_eq_ok.1 hfirst
        obtain ⟨_, _, -, hpure⟩ := bind_eq_ok.1 hrest
        cases hpure
        cases hread
        simp only [isDue, decide_eq_true_eq] at hdue
        exact any_eq_true.2 ⟨x, mem_rows.2 ⟨hx, hdue.1⟩, by simp [← href, hdue.2.2]⟩
      simp [hhit]
    · have hkept : x ∈ t₁.db.anchors := by
        rw [markAnchorStale_eq_ok hfirst]
        exact mem_update.2 ⟨x, hx, if_neg (by simp [isDue, href])⟩
      have := ih hmore hkept (by simpa [isDue, href] using hdue)
      split
      · exact cons_ne_nil _ _
      · exact this

/-- The relation holds across statements that leave the anchors as they are. -/
class BesideAnchors (S : Txn → Txn → Prop) : Prop where
  same : ∀ t db', db'.anchors = t.db.anchors → S t { t with db := db' }

section beside

variable {S : Txn → Txn → Prop} [hS : BesideAnchors S]

instance appendEvent_beside (ev : EventRow) : StepsBy S (appendEvent env a ev) := by
  have : StepsBy S (execDb (Db.insertEvent (ev.event env a))) :=
    ⟨steps_execDb fun t _ hok => hS.same t _ (by rw [(Db.insertEvent_eq_ok hok).1])⟩
  unfold appendEvent insertEvent
  infer_instance

instance updateEntry_beside {w : Bool} {f : Entry → Entry} :
    StepsBy S (execDb (Db.updateEntry w id f)) :=
  ⟨steps_execDb fun t _ hok => hS.same t _ (by rw [Db.updateEntry_setRow hok]; rfl)⟩

instance ftsDelete_beside (pk : Nat) : StepsBy S (ftsDelete pk) := ⟨.write fun t => hS.same t _ rfl⟩

instance ftsPut_beside (pk : Nat) (title body anchors : String) :
    StepsBy S (ftsPut pk title body anchors) := ⟨.write fun t => hS.same t _ rfl⟩

instance refreshFts_beside : StepsBy S (refreshFts id) := .bind

end beside

instance besideAnchors_same (anchors : List Anchor) :
    BesideAnchors fun t t' => t.db.anchors = anchors → t'.db.anchors = anchors :=
  ⟨fun _ _ => Eq.trans⟩

/-- Marking the refs of an entry marks those of its anchors that are not stale, and no others. -/
lemma markStale_anchors {n : Nat} (hrun : markStale env id refs commit a t = (.ok n, t')) :
    t'.db.anchors = Table.update (isDue id refs) (staleAt env.now commit) t.db.anchors := by
  obtain ⟨_, hvalid, hrest⟩ := Reads.bind_eq_ok.1 hrun
  obtain ⟨e, hentry, hrest⟩ := Reads.bind_eq_ok.1 hrest
  obtain ⟨fresh, t₁, hmark, hrest⟩ := bind_eq_ok.1 hrest
  rw [← markAnchorsStale_eq_ok hmark]
  split at hrest
  · cases hrest
    rfl
  · -- what is left writes the row of the entry and an event
    exact StepsBy.keeps (I := fun t => t.db.anchors = t₁.db.anchors) hrest rfl

/-- Marking refs counts one if an anchor is due. -/
lemma markStale_pos {n : Nat} {x : Anchor} (hrun : markStale env id refs commit a t = (.ok n, t'))
    (hx : x ∈ t.db.anchors) (hdue : isDue id refs x) : 0 < n := by
  obtain ⟨_, -, hrest⟩ := Reads.bind_eq_ok.1 hrun
  obtain ⟨e, -, hrest⟩ := Reads.bind_eq_ok.1 hrest
  obtain ⟨fresh, t₁, hmark, hrest⟩ := bind_eq_ok.1 hrest
  have hne := markAnchorsStale_ne_nil hmark hx hdue
  rw [if_neg hne] at hrest
  obtain ⟨_, _, -, hrest⟩ := bind_eq_ok.1 hrest
  obtain ⟨_, _, -, hpure⟩ := bind_eq_ok.1 hrest
  cases hpure
  exact length_pos_iff.2 hne

/-! ### Quoted code -/

/-- The anchor stays as it is. -/
abbrev Stays (x : Anchor) (t t' : Txn) : Prop := x ∈ t.db.anchors → x ∈ t'.db.anchors

variable {x : Anchor} {e : CodeMoveEntry} {moves : List CodeMove} {done : List CodeMoveEntry}

instance stays_beside : BesideAnchors (Stays x) := ⟨fun _ _ hsame h => by rwa [hsame]⟩

lemma stays_reanchorOne {e : Entry} {m : CodeMove} (hx : x.entryId = e.id → ¬m.holds x) :
    StepsBy (Stays x) (reanchorOne env e commit a m) := by
  have : StepsBy (Stays x) (execDb (Db.updateAnchors e.id
      (fun x => x.kind = .code ∧ x.symbolUid = m.snippetId ∧ x.value = m.source
        ∧ x.staleSince = none) fun x => { x with value := m.target })) := by
    refine ⟨steps_execDb fun t db' hok h => ?_⟩
    rw [Db.updateAnchors_eq_ok hok]
    refine mem_update.2 ⟨x, h, if_neg ?_⟩
    simpa [CodeMove.holds] using hx
  unfold reanchorOne
  infer_instance

lemma stays_each {e : Entry} (hx : x.entryId = e.id → ∀ m ∈ moves, ¬m.holds x) :
    StepsBy (Stays x) (each (reanchorOne env e commit a) moves) := by
  induction moves with
  | nil => exact .reads (m := Pure.pure ())
  | cons m moves ih =>
    have : StepsBy (Stays x) (reanchorOne env e commit a m) :=
      stays_reanchorOne fun hid => hx hid m mem_cons_self
    exact .andThen fun _ => ih fun hid m' hm' => hx hid m' (mem_cons_of_mem m hm')

/-- Moves of other quoted code leave the anchor. -/
lemma reanchorCode_stays (hx : x.entryId = id → ∀ m ∈ moves, ¬m.holds x)
    (hrun : reanchorCode env id moves commit a t = (.ok (), t')) (h : x ∈ t.db.anchors) :
    x ∈ t'.db.anchors := by
  obtain ⟨_, -, hrest⟩ := Reads.bind_eq_ok.1 hrun
  obtain ⟨e, hentry, hrest⟩ := Reads.bind_eq_ok.1 hrest
  have hid : e.id = id := (row_eq_some (liveEntry_found hentry)).2
  have : StepsBy (Stays x) (each (reanchorOne env e commit a) moves) :=
    stays_each (hid.symm ▸ hx)
  exact StepsBy.keeps (I := fun t => x ∈ t.db.anchors) hrest h

/-- What the pass does for one entry: it leaves the anchors that it is not about, and the entry is
marked if code is gone at an anchor that is still there. -/
lemma writeCodeMoves_cons {r : Nat × List String}
    (hrun : writeCodeMoves tree env (e :: done) t = (.ok r, t')) :
    ∃ r' t₁, writeCodeMoves tree env done t₁ = (.ok r', t')
      ∧ (∀ x ∈ t.db.anchors, (x.entryId = e.entry → ∀ m ∈ e.moves, ¬m.holds x) →
        isDue e.entry e.gone x = false → x ∈ t₁.db.anchors)
      ∧ (r.2 = r'.2 ∨ e.gone ≠ [] ∧ r.2 = e.entry :: r'.2)
      ∧ ∀ x ∈ t.db.anchors, (∀ m ∈ e.moves, ¬m.holds x) → isDue e.entry e.gone x →
        r.2 = e.entry :: r'.2 := by
  obtain ⟨_, t₁, hmoves, hrest⟩ := bind_eq_ok.1 hrun
  have hstays (x : Anchor) (hx : x ∈ t.db.anchors)
      (hm : x.entryId = e.entry → ∀ m ∈ e.moves, ¬m.holds x) : x ∈ t₁.db.anchors := by
    rw [Program.when] at hmoves
    split at hmoves
    · exact reanchorCode_stays hm hmoves hx
    · cases hmoves
      exact hx
  split at hrest
  next hgone =>
    obtain ⟨r', t₂, hmore, hpure⟩ := bind_eq_ok.1 hrest
    cases hpure
    refine ⟨r', t₁, hmore, fun x hx hm _ => hstays x hx hm, .inl rfl, fun x _ _ hdue => ?_⟩
    simp [isDue, hgone] at hdue
  next hgone =>
    obtain ⟨n, t₂, hmark, hrest⟩ := bind_eq_ok.1 hrest
    obtain ⟨r', t₃, hmore, hpure⟩ := bind_eq_ok.1 hrest
    cases hpure
    refine ⟨r', t₂, hmore, fun x hx hm hdue => ?_, ?_, fun x hx hm hdue => ?_⟩
    · rw [markStale_anchors hmark]
      exact mem_update.2 ⟨x, hstays x hx hm, by rw [hdue]; rfl⟩
    · dsimp only
      split
      · exact .inr ⟨hgone, rfl⟩
      · exact .inl rfl
    · exact if_pos (markStale_pos hmark (hstays x hx fun _ => hm) hdue)

/-- An anchor that is no quoted code stays. -/
lemma writeCodeMoves_stays {r : Nat × List String} (hkind : x.kind ≠ .code)
    (hdone : ∀ e ∈ done, ∀ ref ∈ e.gone, ref.1 = .code)
    (hrun : writeCodeMoves tree env done t = (.ok r, t')) (h : x ∈ t.db.anchors) :
    x ∈ t'.db.anchors := by
  induction done generalizing t r with
  | nil =>
    cases hrun
    exact h
  | cons e done ih =>
    obtain ⟨r', t₁, hmore, hkept, -⟩ := writeCodeMoves_cons hrun
    refine ih (fun e' he' => hdone e' (mem_cons_of_mem e he')) hmore (hkept x h ?_ ?_)
    · exact fun _ m _ hm => hkind (CodeMove.holds_iff.1 hm).1
    · have hrefs : (x.kind, x.value) ∉ e.gone := fun hmem => hkind (hdone e mem_cons_self _ hmem)
      simp [isDue, hrefs]

/-- The quotes of an entry that are gone are still there when their turn comes, so the pass marks
the entries that have some. -/
lemma mem_writeCodeMoves {r : Nat × List String} (hids : (done.map (·.entry)).Nodup)
    (hgone : ∀ e ∈ done, e.gone ≠ [] →
      ∃ x ∈ t.db.anchors, (∀ m ∈ e.moves, ¬m.holds x) ∧ isDue e.entry e.gone x)
    (hrun : writeCodeMoves tree env done t = (.ok r, t')) :
    id ∈ r.2 ↔ ∃ e ∈ done, e.entry = id ∧ e.gone ≠ [] := by
  induction done generalizing t r with
  | nil =>
    cases hrun
    simp
  | cons e done ih =>
    rw [map_cons, nodup_cons] at hids
    obtain ⟨r', t₁, hmore, hkept, hone, hmarked⟩ := writeCodeMoves_cons hrun
    have hrest := ih hids.2 (fun e' he' hne => ?_) hmore
    · simp only [mem_cons, or_and_right, exists_or, exists_eq_left, ← hrest]
      by_cases hne : e.gone = []
      · rw [hone.resolve_right fun h => h.1 hne]
        simp [hne]
      · obtain ⟨x, hx, hm, hdue⟩ := hgone e mem_cons_self hne
        rw [hmarked x hx hm hdue]
        simp [hne, eq_comm]
    · obtain ⟨x, hx, hm, hdue⟩ := hgone e' (mem_cons_of_mem e he') hne
      have hid : x.entryId ≠ e.entry := by
        simp only [isDue, decide_eq_true_eq] at hdue
        exact fun heq => hids.1 (mem_map.2 ⟨e', he', hdue.1.symm.trans heq⟩)
      exact ⟨x, hkept x hx (fun heq => absurd heq hid) (by simp [isDue, hid]), hm, hdue⟩

variable {anchors : List Anchor} {hashing : Hashing}

lemma of_mem_codeSites {content : String} {site : Anchor × String}
    (h : site ∈ codeSites tree content anchors) : site.1 ∈ anchors
      ∧ (tree.snippets content).reverse.lookup site.1.symbolUid = some site.2 := by
  obtain ⟨y, hy, hsite⟩ := mem_filterMap.1 h
  split at hsite
  · cases hsite
  · obtain ⟨snippet, hsnippet, rfl⟩ := Option.map_eq_some_iff.1 hsite
    exact ⟨hy, hsnippet⟩

lemma goneOf_eq_some {site : Anchor × String} :
    goneOf tree site = some ref ↔ reanchorSite tree site = .gone ∧ ref = (.code, site.1.value) := by
  unfold goneOf
  split <;> simp_all [eq_comm]

/-- Quoted code that is gone is at an anchor that is due, and that no move is about. -/
lemma quoteChanges_spec (he : e ∈ quoteChanges tree hashing db anchors) :
    (∀ ref ∈ e.gone, ref.1 = .code)
      ∧ (e.gone ≠ [] → ∃ x ∈ anchors, (∀ m ∈ e.moves, ¬m.holds x) ∧ isDue e.entry e.gone x) := by
  obtain ⟨r, hr, rfl⟩ := mem_map.1 (mem_of_mem_filter he)
  obtain ⟨id, -, hr⟩ := mem_filterMap.1 hr
  obtain ⟨content, -, rfl⟩ := Option.map_eq_some_iff.1 hr
  refine ⟨fun ref href => ?_, fun hgone => ?_⟩
  · obtain ⟨site, -, hsite⟩ := mem_filterMap.1 href
    rw [(goneOf_eq_some.1 hsite).2]
  obtain ⟨ref, href⟩ := exists_mem_of_ne_nil _ hgone
  obtain ⟨site, hmem, hsite⟩ := mem_filterMap.1 href
  obtain ⟨hout, rfl⟩ := goneOf_eq_some.1 hsite
  obtain ⟨hx, hsnippet⟩ := of_mem_codeSites hmem
  simp only [quotesOf, mem_filter, decide_eq_true_eq] at hx
  refine ⟨site.1, hx.1.1, fun m hm hheld => ?_, ?_⟩
  · -- a move of it would be from the same place with the same snippet
    obtain ⟨site', hmem', hmove⟩ := mem_filterMap.1 hm
    obtain ⟨-, hsnippet'⟩ := of_mem_codeSites hmem'
    unfold moveOf at hmove
    split at hmove
    next target hout' =>
      cases hmove
      obtain ⟨-, huid, hvalue, -⟩ := CodeMove.holds_iff.1 hheld
      rw [huid, hsnippet', Option.some.injEq] at hsnippet
      unfold reanchorSite at hout hout'
      rw [hvalue, ← hsnippet, hout'] at hout
      cases hout
    · cases hmove
  · simp only [isDue, decide_eq_true_eq, contains_iff_mem]
    exact ⟨hx.2, hx.1.2.1 ▸ href, hx.1.2.2⟩

lemma nodup_sortedKeys (ids : List String) : (sortedKeys ids).Nodup := by
  refine (perm_insertionSort _ _).nodup_iff.2 ?_
  induction hn : ids.length using Nat.strong_induction_on generalizing ids with
  | _ n ih =>
    cases ids with
    | nil => simp
    | cons id ids =>
      rw [eraseDups_cons, nodup_cons]
      refine ⟨by simp [mem_eraseDups], ih _ ?_ _ rfl⟩
      rw [← hn]
      exact Nat.lt_succ_of_le (length_filter_le _ _)

lemma nodup_quoteChanges : ((quoteChanges tree hashing db anchors).map (·.entry)).Nodup := by
  refine (filter_sublist.map _).nodup ?_
  rw [map_map, quoteSites, map_filterMap]
  refine (nodup_sortedKeys _).filterMap ?_
  simp +contextual [planQuotes]

/-- The pass over quoted code leaves the other anchors, and marks an entry exactly if some of its
quoted code is gone. -/
lemma reanchorQuotes_spec (hanchors : ∀ x ∈ anchors, x ∈ db.anchors)
    (hok : (reanchorQuotes tree env db anchors).error = none) :
    (∀ x ∈ db.anchors, x.kind ≠ .code → x ∈ (reanchorQuotes tree env db anchors).db.anchors)
      ∧ ∀ id, id ∈ (reanchorQuotes tree env db anchors).marked
        ↔ ∃ e ∈ quoteChanges tree env.toHashing db anchors, e.entry = id ∧ e.gone ≠ [] := by
  unfold reanchorQuotes at hok ⊢
  dsimp only at hok ⊢
  split at hok
  next hnil =>
    rw [if_pos hnil, hnil]
    exact ⟨fun _ hx _ => hx, by simp⟩
  next hne =>
    rw [if_neg hne]
    split at hok
    · next moved marked db' hup =>
      obtain ⟨t', hrun, -, rfl⟩ := Db.update_eq_ok.1 hup
      refine ⟨fun x hx hkind => ?_, fun id => ?_⟩
      · exact writeCodeMoves_stays hkind (fun e he => (quoteChanges_spec he).1) hrun hx
      · refine mem_writeCodeMoves nodup_quoteChanges (fun e he hgone => ?_) hrun
        obtain ⟨x, hx, hfound⟩ := (quoteChanges_spec he).2 hgone
        exact ⟨x, hanchors x hx, hfound⟩
    · cases hok

/-! ### The collected anchors -/

/-- The anchor is one that is collected and not stale yet. -/
def isHit (hit : String → List (AnchorKind × String)) (ids : List String) (x : Anchor) : Bool :=
  ids.contains x.entryId ∧ (hit x.entryId).contains (x.kind, x.value) ∧ x.staleSince = none

variable {hit : String → List (AnchorKind × String)} {ids : List String}

lemma markHits_anchors {marked : List String}
    (hrun : markHits tree env hit ids t = (.ok marked, t')) :
    t'.db.anchors = Table.update (isHit hit ids) (staleAt env.now tree.headSha) t.db.anchors := by
  induction ids generalizing t marked with
  | nil =>
    cases hrun
    exact (update_eq_self fun x _ => by simp [isHit]).symm
  | cons id ids ih =>
    obtain ⟨_, t₁, hmark, hrest⟩ := bind_eq_ok.1 hrun
    obtain ⟨_, t₂, hmore, hpure⟩ := bind_eq_ok.1 hrest
    cases hpure
    rw [ih hmore, markStale_anchors hmark, update_update fun x _ => by simp [isHit, staleAt]]
    refine update_congr fun x _ => ?_
    rw [Bool.eq_iff_iff]
    simp only [isHit, isDue, Bool.or_eq_true, decide_eq_true_eq, contains_iff_mem, mem_cons]
    constructor
    · rintro (⟨rfl, hmem, hfresh⟩ | ⟨hmem, hdue⟩)
      · exact ⟨.inl rfl, hmem, hfresh⟩
      · exact ⟨.inr hmem, hdue⟩
    · rintro ⟨rfl | hmem, hdue⟩
      · exact .inl ⟨rfl, hdue⟩
      · exact .inr ⟨hmem, hdue⟩

/-- The anchor is in the store and stale there. -/
def MarkedStale (db : Db) (x : Anchor) : Prop :=
  (∃ y ∈ db.anchorsOf x.entryId, y.kind = x.kind ∧ y.value = x.value)
    ∧ ∀ y ∈ db.anchorsOf x.entryId, y.kind = x.kind → y.value = x.value → y.staleSince ≠ none

instance MarkedStale.decidable (db : Db) (x : Anchor) : Decidable (MarkedStale db x) :=
  inferInstanceAs (Decidable (_ ∧ _))

variable {x : Anchor} {now : Time} {workspaceId : String}

section

variable {db' : Db} (hdb : db'.anchors = Table.update (isHit hit ids) (staleAt now commit) anchors)
  (hx : x ∈ anchors)
include hdb hx

lemma markedStale_of_hit (hid : x.entryId ∈ ids) (href : (x.kind, x.value) ∈ hit x.entryId) :
    MarkedStale db' x := by
  constructor
  · -- the row of the anchor, stale or as it was
    have hrow : (if isHit hit ids x then staleAt now commit x else x) ∈ db'.anchors := by
      rw [hdb]
      exact mem_update.2 ⟨x, hx, rfl⟩
    refine ⟨_, mem_rows.2 ⟨hrow, ?_⟩, ?_, ?_⟩ <;> split <;> rfl
  · intro y hy hkind hvalue
    obtain ⟨hy, hentry⟩ := mem_rows.1 hy
    rw [hdb] at hy
    rcases mem_update_cases hy with ⟨z, -, -, rfl⟩ | ⟨-, hnot⟩
    · simp [staleAt]
    · intro hfresh
      have : isHit hit ids y = true := by simp [isHit, hentry, hid, hkind, hvalue, href, hfresh]
      rw [this] at hnot
      cases hnot

lemma not_markedStale_of_missed (hfresh : x.staleSince = none)
    (href : (x.kind, x.value) ∉ hit x.entryId) :
    ¬MarkedStale db' x := by
  rintro ⟨-, hall⟩
  refine hall x (mem_rows.2 ⟨?_, rfl⟩) rfl rfl hfresh
  rw [hdb]
  exact mem_update.2 ⟨x, hx, by simp [isHit, href]⟩

end

/-! ### Whole passes -/

lemma mem_sortedKeys : id ∈ sortedKeys ids ↔ id ∈ ids := by
  rw [sortedKeys, mem_insertionSort, mem_eraseDups]

lemma mem_drifted : x ∈ drifted tree anchors ↔ x ∈ anchors ∧ isChecked x ∧ isDrifted tree x := by
  simp [drifted]

lemma mem_refsOf (hx : x ∈ anchors) :
    (x.kind, x.value) ∈ refsOf x.entryId anchors :=
  mem_map.2 ⟨x, by simpa using hx, rfl⟩

/-- What is examined is in the store. -/
lemma mem_anchorsInPaths {paths : List String} {limit : Nat}
    (h : anchorsInPaths db now workspaceId paths limit = .ok anchors) (hx : x ∈ anchors) :
    x ∈ db.anchors := by
  unfold anchorsInPaths at h
  split at h
  · cases h
    have hfold (chunks : List (List String)) (out : List Anchor) (hout : ∀ y ∈ out, y ∈ db.anchors)
        (l : Nat) : ∀ y ∈ chunks.foldl (fun out chunk =>
          out ++ (anchorsInChunk db now workspaceId chunk).take (l - out.length)) out,
          y ∈ db.anchors := by
      induction chunks generalizing out with
      | nil => exact hout
      | cons chunk chunks ih =>
        refine ih _ fun y hy => ?_
        rcases mem_append.1 hy with hy | hy
        · exact hout y hy
        · obtain ⟨e, -, hy⟩ := mem_flatMap.1 (mem_of_mem_take hy)
          rw [mem_insertionSort] at hy
          exact (mem_rows.1 (mem_of_mem_filter hy)).1
    exact hfold _ [] (by simp) _ x hx
  · cases h

lemma mem_examined {changed : List String}
    (h : examined tree env db workspaceId changed = .ok anchors) (hx : x ∈ anchors) :
    x ∈ db.anchors := by
  unfold examined at h
  dsimp only at h
  split at h
  · cases h
    cases hx
  · exact mem_anchorsInPaths h hx

lemma kind_of_isChecked (hchecked : isChecked x) : x.kind ≠ .code := by
  intro hcode
  simp [isChecked, hcode] at hchecked

lemma invalidateAnchors_marks_iff {report report' : InvalidationReport}
    (hanchors : ∀ x ∈ anchors, x ∈ db.anchors)
    (hok : (invalidateAnchors tree env db report anchors).result = .ok report') :
    (∀ x ∈ anchors, isChecked x → isDrifted tree x →
        MarkedStale (invalidateAnchors tree env db report anchors).db x)
      ↔ ∀ x ∈ anchors, isChecked x → isDrifted tree x →
        ∀ e ∈ quoteChanges tree env.toHashing db anchors, e.entry = x.entryId → e.gone = [] := by
  generalize hrun : invalidateAnchors tree env db report anchors = run at hok ⊢
  unfold invalidateAnchors at hrun
  generalize hcode : reanchorQuotes tree env db anchors = code at hrun
  refine forall₄_congr fun x hx hchecked hdrifted => ?_
  have hmem : x ∈ drifted tree anchors := mem_drifted.2 ⟨hx, hchecked, hdrifted⟩
  have hid : x.entryId ∈ sortedKeys ((drifted tree anchors).map (·.entryId) ++ code.marked) :=
    mem_sortedKeys.2 (mem_append_left _ (mem_map_of_mem hmem))
  rw [if_neg fun hnil => by rw [hnil] at hid; cases hid] at hrun
  split at hrun
  · rw [← hrun] at hok
    cases hok
  · rw [← hrun] at hok
    cases hok
  · next marked db' hup hnone =>
    obtain ⟨t, hmarks, -, rfl⟩ := Db.update_eq_ok.1 hup
    have hdb := markHits_anchors hmarks
    obtain ⟨hstays, hgone⟩ := reanchorQuotes_spec hanchors (hcode ▸ hnone)
    rw [hcode] at hstays hgone
    have hkept := hstays x (hanchors x hx) (kind_of_isChecked hchecked)
    rw [← hrun]
    by_cases hquotes : x.entryId ∈ code.marked
    · obtain ⟨e, he, hentry, hne⟩ := (hgone _).1 hquotes
      refine iff_of_false ?_ fun hnot => hne (hnot e he hentry)
      refine not_markedStale_of_missed hdb hkept ?_ (by simp [hitsAfter, hquotes])
      simp only [isChecked, decide_eq_true_eq] at hchecked
      exact hchecked.2.2
    · refine iff_of_true ?_ fun e he hentry =>
        not_not.1 fun hne => hquotes ((hgone _).2 ⟨e, he, hentry, hne⟩)
      refine markedStale_of_hit hdb hkept hid ?_
      rw [hitsAfter, if_neg hquotes]
      exact mem_refsOf hmem

/-- The anchors in the changed files, up to the bound of a pass. -/
def anchorsAtRisk (tree : Tree) (env : Env) (db : Db) (workspaceId : String)
    (changed : List String) :
    List Anchor :=
  ((examined tree env db workspaceId changed).toOption.getD []).take maxInvalidationAnchors

/-- When a pass succeeds, every checked anchor that drifted is marked exactly if no entry of one
also quotes code that is gone. -/
theorem invalidateMemory_marks_iff {workspaceId : String} {changed : List String}
    {report : InvalidationReport}
    (hok : (invalidateMemory tree env db workspaceId changed).result = .ok report) :
    (∀ x ∈ anchorsAtRisk tree env db workspaceId changed, isChecked x → isDrifted tree x →
        MarkedStale (invalidateMemory tree env db workspaceId changed).db x)
      ↔ ∀ x ∈ anchorsAtRisk tree env db workspaceId changed, isChecked x → isDrifted tree x →
        ∀ e ∈ quoteChanges tree env.toHashing db (anchorsAtRisk tree env db workspaceId changed),
          e.entry = x.entryId → e.gone = [] := by
  unfold invalidateMemory at hok ⊢
  cases hexamined : examined tree env db workspaceId changed with
  | error err =>
    rw [hexamined] at hok
    cases hok
  | ok anchors =>
    rw [hexamined] at hok
    rw [anchorsAtRisk, hexamined]
    exact invalidateAnchors_marks_iff
      (fun x hx => mem_examined hexamined (mem_of_mem_take hx)) hok

/-- A memory that is anchored to a file and quotes two lines of another. -/
def anchoredRun : List (List (Time × TxWrite)) :=
  [[(1, .insertEntry
      { id := "m", workspaceId := "w", content := "c", paths := ["f"],
        anchors := [{ kind := some .code, value := "g#L1-L2", symbolUid := "s" }] }
      { principal := "ann" })],
    [(2, .setBaselines "m" [⟨some .path, "f", some .hash, "old", "file"⟩] ""
      { principal := "ann" }),
      (2, .setPromotion "m"
        { promoted := true, status := some .verified, mode := some .singleAgent }
        { principal := "ann" })]]

def anchored : Db := Db.empty.history .plain anchoredRun

/-- A tree in which the file has changed, and the quoted code is found or not. -/
def changedTree (found : Location) : Tree where
  hasRoot := true
  headSha := ""
  branch := ""
  confine p := some p
  hashFile _ := some "new"
  hashSymbol _ := none
  snippets _ := [("s", "code")]
  locate _ _ := found

/-- The quoted code is gone as well, so the memory is marked for it and the changed file is not. -/
theorem invalidateMemory_misses_path :
    let run := invalidateMemory (changedTree .notFound) ⟨.plain, 3⟩ anchored "w" ["f", "g"]
    run.result.toOption.map (·.marked) = some ["m"]
      ∧ ∃ x ∈ anchorsAtRisk (changedTree .notFound) ⟨.plain, 3⟩ anchored "w" ["f", "g"],
        x.kind = .path ∧ isChecked x ∧ isDrifted (changedTree .notFound) x
          ∧ ¬MarkedStale run.db x := by
  decide +kernel

/-- If the code is where it was, the file is marked. -/
theorem invalidateMemory_marks_iff_found :
    (∃ x ∈ anchorsAtRisk (changedTree (.lines 1 2)) ⟨.plain, 3⟩ anchored "w" ["f", "g"],
        isChecked x ∧ isDrifted (changedTree (.lines 1 2)) x)
      ∧ ∀ x ∈ anchorsAtRisk (changedTree (.lines 1 2)) ⟨.plain, 3⟩ anchored "w" ["f", "g"],
        isChecked x → isDrifted (changedTree (.lines 1 2)) x → MarkedStale
          (invalidateMemory (changedTree (.lines 1 2)) ⟨.plain, 3⟩ anchored "w" ["f", "g"]).db
            x := by
  refine ⟨by decide +kernel, ?_⟩
  have hsome : (invalidateMemory (changedTree (.lines 1 2)) ⟨.plain, 3⟩ anchored "w"
      ["f", "g"]).result.toOption.isSome := by decide +kernel
  cases hok : (invalidateMemory (changedTree (.lines 1 2)) ⟨.plain, 3⟩ anchored "w"
      ["f", "g"]).result with
  | error err =>
    rw [hok] at hsome
    cases hsome
  | ok report => exact (invalidateMemory_marks_iff hok).2 (by decide +kernel)

end WorkspaceOps
