import XMustard.Store.Purge
import Mathlib.Data.List.Find
import Mathlib.Data.List.Pairwise

/-!
# Moves of quoted code

The moves of a pass are single updates, and each of them has to keep the places of an entry's
anchors distinct. So whether a pass goes through depends on the order of its moves wherever the
target of one is the old place of another.
-/

namespace GovStore

open List Table Program

variable {env : Env} {id commit : String} {a : Actor} {e : Entry} {t : Txn}
variable {m : CodeMove} {ms : List CodeMove} {anchors : List Anchor}

/-! ### The anchors a move is about -/

/-- The anchor is at the place that the move names, with its code, and not stale. -/
def CodeMove.holds (m : CodeMove) (x : Anchor) : Bool :=
  x.kind = .code ∧ x.symbolUid = m.snippetId ∧ x.value = m.source ∧ x.staleSince = none

def CodeMove.apply (m : CodeMove) (x : Anchor) : Anchor := { x with value := m.target }

/-- The anchor after one move. -/
def CodeMove.carry (m : CodeMove) (x : Anchor) : Anchor := if m.holds x then m.apply x else x

/-- The anchor after all moves at once. -/
def relocated (ms : List CodeMove) (x : Anchor) : Anchor :=
  match ms.find? fun m => m.holds x with
  | some m => m.apply x
  | none => x

/-- A move between two places of one file. -/
abbrev CodeMove.WellFormed (m : CodeMove) : Prop :=
  (parseCodeAnchorValue m.source).isSome ∧ (parseCodeAnchorValue m.target).isSome
    ∧ (parseCodeAnchorValue m.source).map (·.1) = (parseCodeAnchorValue m.target).map (·.1)
    ∧ m.snippetId ≠ "" ∧ m.source ≠ m.target

/-- What the schema keeps distinct among the anchors of an entry. -/
def Anchor.key (x : Anchor) : AnchorKind × String := (x.kind, x.value)

/-- Moves of different anchors of an entry to different places, none of which is the place of an
anchor that stays. -/
@[mk_iff]
structure Relocates (anchors : List Anchor) (ms : List CodeMove) : Prop where
  keys : (anchors.map Anchor.key).Nodup
  wellFormed : ∀ m ∈ ms, m.WellFormed
  named : ∀ m ∈ ms, ∃ x ∈ anchors, m.holds x
  sources : (ms.map CodeMove.source).Nodup
  targets : (ms.map CodeMove.target).Nodup
  free : ∀ x ∈ anchors, x.kind = .code → x.value ∉ ms.map CodeMove.source →
    x.value ∉ ms.map CodeMove.target

instance Relocates.decidable : Decidable (Relocates anchors ms) :=
  decidable_of_iff' _ (relocates_iff anchors ms)

variable {x : Anchor}

lemma CodeMove.holds_iff : m.holds x ↔
    x.kind = .code ∧ x.symbolUid = m.snippetId ∧ x.value = m.source ∧ x.staleSince = none := by
  simp [holds]

lemma CodeMove.value_of_holds (h : m.holds x) : x.value = m.source := (holds_iff.1 h).2.2.1

lemma CodeMove.key_of_holds (h : m.holds x) : x.key = (.code, m.source) := by
  rw [Anchor.key, (holds_iff.1 h).1, value_of_holds h]

lemma CodeMove.carry_of_holds (h : m.holds x) : m.carry x = m.apply x := if_pos h

lemma CodeMove.carry_of_not (h : ¬m.holds x) : m.carry x = x := if_neg h

lemma relocated_cons_of_holds (h : m.holds x) : relocated (m :: ms) x = m.apply x := by
  simp [relocated, h]

lemma relocated_cons_of_not (h : ¬m.holds x) :
    relocated (m :: ms) x = relocated ms x := by
  simp [relocated, h]

lemma relocated_of_forall (h : ∀ m ∈ ms, ¬m.holds x) : relocated ms x = x := by
  have hnone : ms.find? (fun m => m.holds x) = none := by simpa using h
  simp [relocated, hnone]

namespace Relocates

lemma eq_of_key (h : Relocates anchors ms) {y : Anchor} (hx : x ∈ anchors) (hy : y ∈ anchors)
    (hkey : x.key = y.key) : x = y :=
  inj_on_of_nodup_map h.keys hx hy hkey

/-- The anchor at the old place of a move is the one the move names. -/
lemma holds_of_source (h : Relocates anchors ms) (hm : m ∈ ms) (hx : x ∈ anchors)
    (hkind : x.kind = .code) (hvalue : x.value = m.source) : m.holds x := by
  obtain ⟨y, hy, hheld⟩ := h.named m hm
  obtain rfl : x = y :=
      h.eq_of_key hx hy (by rw [CodeMove.key_of_holds hheld, Anchor.key, hkind, hvalue])
  exact hheld

variable {m' : CodeMove} {ms' : List CodeMove}

/-- An anchor is moved once. -/
lemma eq_of_holds (h : Relocates anchors ms) (hm : m ∈ ms) (hm' : m' ∈ ms)
    (hx : m.holds x) (hx' : m'.holds x) : m = m' :=
  inj_on_of_nodup_map h.sources hm hm'
    ((CodeMove.value_of_holds hx).symm.trans (CodeMove.value_of_holds hx'))

/-- The first move leaves what a later one moves. -/
lemma not_holds_later (h : Relocates anchors (m :: ms)) (hm' : m' ∈ ms)
    (hx : m'.holds x) : ¬m.holds x := fun hx' =>
  (nodup_cons.1 h.sources).1 <| mem_map.2
    ⟨m', hm', congrArg _ (h.eq_of_holds (mem_cons_of_mem m hm') mem_cons_self hx hx')⟩

/-- A move keeps the places distinct if its target is not the old place of a later one. -/
lemma nodup_carry (h : Relocates anchors (m :: ms)) :
    ((anchors.map m.carry).map Anchor.key).Nodup ↔ ∀ m' ∈ ms, m.target ≠ m'.source := by
  obtain ⟨-, -, -, -, hmoves⟩ := h.wellFormed m mem_cons_self
  rw [map_map, nodup_map_iff_inj_on h.keys.of_map]
  constructor
  · intro hinj m' hm' htarget
    obtain ⟨x, hx, hheld⟩ := h.named m mem_cons_self
    obtain ⟨y, hy, hheld'⟩ := h.named m' (mem_cons_of_mem m hm')
    have hstays : ¬m.holds y := h.not_holds_later hm' hheld'
    have hxy : x = y := by
      refine hinj x hx y hy ?_
      rw [Function.comp_apply, Function.comp_apply, CodeMove.carry_of_holds hheld,
        CodeMove.carry_of_not hstays, CodeMove.key_of_holds hheld', ← htarget]
      exact congrArg (·, m.target) (CodeMove.holds_iff.1 hheld).1
    exact hstays (hxy ▸ hheld)
  · intro hlater
    -- the place an anchor is moved to is not the place of one that this move leaves
    have hapart (x y : Anchor) (hy : y ∈ anchors) (hheld : m.holds x) (hstays : ¬m.holds y) :
        (m.apply x).key ≠ y.key := by
      intro hkey
      have hkind : y.kind = .code :=
        (congrArg Prod.fst hkey).symm.trans (CodeMove.holds_iff.1 hheld).1
      have hvalue : y.value = m.target := (congrArg Prod.snd hkey).symm
      refine h.free y hy hkind (fun hmem => ?_) (hvalue ▸ mem_cons_self)
      rcases mem_cons.1 hmem with heq | hmem
      · exact hmoves (heq.symm.trans hvalue)
      · obtain ⟨m', hm', heq⟩ := mem_map.1 hmem
        exact hlater m' hm' (hvalue.symm.trans heq.symm)
    intro x hx y hy hkey
    rw [Function.comp_apply, Function.comp_apply] at hkey
    by_cases hheld : m.holds x <;> by_cases hheld' : m.holds y
    · exact h.eq_of_key hx hy
        ((CodeMove.key_of_holds hheld).trans (CodeMove.key_of_holds hheld').symm)
    · rw [CodeMove.carry_of_holds hheld, CodeMove.carry_of_not hheld'] at hkey
      exact absurd hkey (hapart x y hy hheld hheld')
    · rw [CodeMove.carry_of_not hheld, CodeMove.carry_of_holds hheld'] at hkey
      exact absurd hkey.symm (hapart y x hx hheld' hheld)
    · rw [CodeMove.carry_of_not hheld, CodeMove.carry_of_not hheld'] at hkey
      exact h.eq_of_key hx hy hkey

/-- After a move that went through, the others are moves of the anchors as they are then. -/
lemma carry (h : Relocates anchors (m :: ms)) (hlater : ∀ m' ∈ ms, m.target ≠ m'.source) :
    Relocates (anchors.map m.carry) ms where
  keys := h.nodup_carry.2 hlater
  wellFormed m' hm' := h.wellFormed m' (mem_cons_of_mem m hm')
  named := by
    intro m' hm'
    obtain ⟨x, hx, hheld⟩ := h.named m' (mem_cons_of_mem m hm')
    exact ⟨x, mem_map.2 ⟨x, hx, CodeMove.carry_of_not (h.not_holds_later hm' hheld)⟩, hheld⟩
  sources := (nodup_cons.1 h.sources).2
  targets := (nodup_cons.1 h.targets).2
  free := by
    intro y hy hkind hsource
    obtain ⟨x, hx, rfl⟩ := mem_map.1 hy
    by_cases hheld : m.holds x
    · rw [CodeMove.carry_of_holds hheld]
      exact (nodup_cons.1 h.targets).1
    · rw [CodeMove.carry_of_not hheld] at hkind hsource ⊢
      refine fun hmem => h.free x hx hkind (fun hmem' => ?_) (mem_cons_of_mem _ hmem)
      rcases mem_cons.1 hmem' with heq | hmem'
      · exact hheld (h.holds_of_source mem_cons_self hx hkind heq)
      · exact hsource hmem'

lemma relocated_carry (hlater : ∀ m' ∈ ms, m.target ≠ m'.source) :
    (anchors.map m.carry).map (relocated ms) = anchors.map (relocated (m :: ms)) := by
  rw [map_map]
  refine map_congr_left fun x _ => ?_
  rw [Function.comp_apply]
  by_cases hheld : m.holds x
  · rw [CodeMove.carry_of_holds hheld, relocated_cons_of_holds hheld]
    exact relocated_of_forall fun m' hm' hheld' => hlater m' hm' (CodeMove.value_of_holds hheld')
  · rw [CodeMove.carry_of_not hheld, relocated_cons_of_not hheld]

/-- The places moved to do not depend on the order of the moves. -/
lemma perm (h : Relocates anchors ms) (hperm : ms'.Perm ms) :
    Relocates anchors ms' where
  keys := h.keys
  wellFormed m hm := h.wellFormed m (hperm.subset hm)
  named m hm := h.named m (hperm.subset hm)
  sources := (hperm.map _).nodup_iff.2 h.sources
  targets := (hperm.map _).nodup_iff.2 h.targets
  free x hx hkind hsource hmem :=
    h.free x hx hkind (fun hmem' => hsource ((hperm.map _).symm.subset hmem'))
      ((hperm.map _).subset hmem)

lemma relocated_perm (h : Relocates anchors ms) (hperm : ms'.Perm ms)
    (x : Anchor) : relocated ms' x = relocated ms x := by
  rw [relocated, relocated, find?_eq_find?_of_perm hperm]
  exact fun m hm m' hm' => h.eq_of_holds (hperm.subset hm.1) (hperm.subset hm'.1) hm.2 hm'.2

end Relocates

/-! ### Moves as updates -/

/-- The database after the update of a move. -/
def Db.moved (db : Db) (id : String) (m : CodeMove) : Db :=
  { db with anchors := Table.update (fun x => x.entryId = id && m.holds x) m.apply db.anchors }

lemma Db.anchorsOf_moved (db : Db) (id : String) (m : CodeMove) :
    (db.moved id m).anchorsOf id = (db.anchorsOf id).map m.carry := by
  have hkeeps : ∀ x : Anchor, (x.entryId = id && m.holds x) → (m.apply x).entryId = x.entryId :=
    fun _ _ => rfl
  refine (rows_update hkeeps).trans (map_congr_left fun x hx => ?_)
  simp [(mem_rows.1 hx).2, CodeMove.carry]

lemma Db.updateAnchors_move (db : Db) (id : String) (m : CodeMove) :
    db.updateAnchors id m.holds m.apply
      = if (((db.anchorsOf id).map m.carry).map Anchor.key).Nodup then .ok (db.moved id m)
        else .error (.fault .conflict
          "UNIQUE constraint failed: anchors.entry_id, kind, value") := by
  rw [← Db.anchorsOf_moved]
  rfl

/-- A move goes through exactly if its target is not the old place of a later one. -/
lemma reanchorOne_apply (env : Env) (commit : String) (a : Actor) (he : t.db.entry id = some e)
    (hlive : e.lifecycle ≠ .purged) (h : Relocates (t.db.anchorsOf id) (m :: ms)) :
    ((∀ m' ∈ ms, m.target ≠ m'.source) →
      ∃ t', reanchorOne env e commit a m t = (.ok (), t') ∧ t'.db.entry id = some e
        ∧ t'.db.anchorsOf id = (t.db.anchorsOf id).map m.carry)
    ∧ (¬(∀ m' ∈ ms, m.target ≠ m'.source) →
      ∃ err, reanchorOne env e commit a m t = (.error err, t)) := by
  have hid : e.id = id := (row_eq_some he).2
  obtain ⟨hsource, htarget, hpath, hsnippet, hmoves⟩ := h.wellFormed m mem_cons_self
  obtain ⟨source, hsource⟩ := Option.isSome_iff_exists.1 hsource
  obtain ⟨target, htarget⟩ := Option.isSome_iff_exists.1 htarget
  have hpath : source.1 = target.1 := by simpa [hsource, htarget] using hpath
  obtain ⟨x, hx, hheld⟩ := h.named m mem_cons_self
  have hhit : (t.db.anchorsOf e.id).any m.holds = true := any_eq_true.2 ⟨x, hid ▸ hx, hheld⟩
  have hupdate := t.db.updateAnchors_move id m
  have hrun : reanchorOne env e commit a m t = (do
      execDb (Db.updateAnchors id m.holds m.apply)
      appendEvent env a
        { workspaceId := e.workspaceId, entryId := e.id, type := .anchorReanchor,
          revision := e.revision,
          data := some [("commit", .text commit), ("from", .ints [source.2.1, source.2.2]),
            ("to", .ints [target.2.1, target.2.2])] } : Tx Unit) t := by
    have hsource' : (parseMoveEnd m.source : Tx _) = pure source := by simp [parseMoveEnd, hsource]
    have htarget' : (parseMoveEnd m.target : Tx _) = pure target := by simp [parseMoveEnd, htarget]
    unfold reanchorOne
    rw [hsource', pure_bind_apply, htarget', pure_bind_apply, ensure_bind_apply,
      if_pos ⟨hpath, hsnippet, hmoves⟩, readDb_bind_apply, ensure_bind_apply, ← hid]
    exact if_pos hhit
  rw [hrun]
  constructor
  · intro hlater
    rw [if_pos (h.nodup_carry.2 hlater)] at hupdate
    rw [bind_apply_ok (execDb_apply hupdate)]
    have hpurged (i : String) (hi : nullText e.id = some i) : ¬t.db.purged i := by
      have : i = id := by
        rw [nullText] at hi
        split at hi
        · cases hi
        · exact (Option.some.inj hi).symm.trans hid
      simp [this, Db.purged, he, hlive]
    exact ⟨_, appendEvent_apply rfl (Db.insertEvent_ok (.inr hpurged) rfl), he,
      t.db.anchorsOf_moved id m⟩
  · intro hclash
    rw [if_neg fun hkeys => hclash (h.nodup_carry.1 hkeys)] at hupdate
    refine ⟨_, bind_apply_error (e := .fault .conflict
      "UNIQUE constraint failed: anchors.entry_id, kind, value") ?_ _⟩
    simp [execDb, Program.exec, hupdate, Except.map]

/-- The target of a move is not the old place of a later one. -/
abbrev InOrder (ms : List CodeMove) : Prop := ms.Pairwise fun m m' => m.target ≠ m'.source

lemma each_reanchorOne (env : Env) (commit : String) (a : Actor) (he : t.db.entry id = some e)
    (hlive : e.lifecycle ≠ .purged) (h : Relocates (t.db.anchorsOf id) ms) :
    (InOrder ms → ∃ t', each (reanchorOne env e commit a) ms t = (.ok (), t')
      ∧ t'.db.entry id = some e ∧ t'.db.anchorsOf id = (t.db.anchorsOf id).map (relocated ms))
    ∧ (¬InOrder ms → ∃ err t', each (reanchorOne env e commit a) ms t = (.error err, t')) := by
  induction ms generalizing t with
  | nil =>
    exact ⟨fun _ => ⟨t, rfl, he, (map_id _).symm⟩, fun hno => absurd .nil hno⟩
  | cons m ms ih =>
    obtain ⟨hgo, hstop⟩ := reanchorOne_apply env commit a he hlive h
    rw [InOrder, pairwise_cons]
    by_cases hlater : ∀ m' ∈ ms, m.target ≠ m'.source
    · obtain ⟨t', hrun, he', hanchors⟩ := hgo hlater
      have hrest := ih he' (hanchors ▸ h.carry hlater)
      rw [hanchors, Relocates.relocated_carry hlater] at hrest
      simp only [each, bind_apply_ok hrun, and_iff_right hlater]
      exact hrest
    · obtain ⟨err, hrun⟩ := hstop hlater
      refine ⟨fun hord => absurd hord.1 hlater, fun _ => ⟨err, t, ?_⟩⟩
      rw [each, bind_apply_error hrun]

lemma refreshFts_apply (he : t.db.entry id = some e) :
    ∃ t', refreshFts id t = (.ok (), t') ∧ t'.db.anchors = t.db.anchors := by
  unfold refreshFts
  rw [bind_apply_ok (getEntry_eq_ok.2 ⟨he, rfl⟩)]
  split
  · exact ⟨_, rfl, rfl⟩
  · exact ⟨_, rfl, rfl⟩

/-- A pass goes through exactly if its moves are in such an order. -/
lemma reanchorCode_iff (he : t.db.entry id = some e) (hlive : e.lifecycle ≠ .purged) (ha : a.ok)
    (h : Relocates (t.db.anchorsOf id) ms) :
    (∃ t', reanchorCode env id ms commit a t = (.ok (), t')
      ∧ t'.db.anchorsOf id = (t.db.anchorsOf id).map (relocated ms)) ↔ InOrder ms := by
  have hstart : reanchorCode env id ms commit a t = (do
      each (reanchorOne env e commit a) ms
      if ms.length > 0 then refreshFts id : Tx Unit) t := by
    have hvalid : a.validate t = (.ok (), t) := by
      rcases a.validate_apply t with ⟨-, h⟩ | ⟨h, -⟩
      · exact h
      · rw [ha] at h
        cases h
    have hentry : liveEntry id t = (.ok e, t) := by
      unfold liveEntry
      rw [bind_apply_ok (getEntry_eq_ok.2 ⟨he, rfl⟩), ensure_bind_apply, if_pos hlive]
      rfl
    unfold reanchorCode
    rw [bind_apply_ok hvalid, bind_apply_ok hentry]
  obtain ⟨hgo, hstop⟩ := each_reanchorOne env commit a he hlive h
  rw [hstart]
  constructor
  · rintro ⟨t', hrun, -⟩
    by_contra hno
    obtain ⟨err, t₁, hfail⟩ := hstop hno
    rw [bind_apply_error hfail] at hrun
    cases hrun
  · intro hord
    obtain ⟨t₁, hrun, he₁, hanchors⟩ := hgo hord
    rw [bind_apply_ok hrun]
    split
    · obtain ⟨t₂, hfts, hkept⟩ := refreshFts_apply he₁
      exact ⟨t₂, hfts, by rw [Db.anchorsOf, hkept]; exact hanchors⟩
    · exact ⟨t₁, rfl, hanchors⟩

/-- A relation holds along every order of a list if it holds between all its members. -/
lemma inOrder_perms (h : ∀ m ∈ ms, m.target ≠ m.source) :
    (∀ ms', ms'.Perm ms → InOrder ms') ↔ ∀ m ∈ ms, ∀ m' ∈ ms, m.target ≠ m'.source := by
  constructor
  · intro hperms m hm m' hm'
    by_cases heq : m = m'
    · exact heq ▸ h m hm
    · -- an order in which `m` is before `m'`
      obtain ⟨before, after, rfl⟩ := append_of_mem hm
      have hrest : m' ∈ before ++ after := by
        simp only [mem_append, mem_cons] at hm' ⊢
        tauto
      have hord := hperms (m :: (before ++ after)) perm_middle.symm
      exact (pairwise_cons.1 hord).1 m' hrest
  · intro hall ms' hperm
    exact pairwise_of_forall_mem_list fun m hm m' hm' =>
      hall m (hperm.subset hm) m' (hperm.subset hm')

/-- All moves are applied in every order, and to the same effect, exactly if no target is the old
place of a move. -/
theorem reanchorCode_orders_iff (env : Env) (commit : String) (he : t.db.entry id = some e)
    (hlive : e.lifecycle ≠ .purged) (ha : a.ok) (h : Relocates (t.db.anchorsOf id) ms) :
    (∀ ms', ms'.Perm ms → ∃ t', reanchorCode env id ms' commit a t = (.ok (), t')
        ∧ t'.db.anchorsOf id = (t.db.anchorsOf id).map (relocated ms))
      ↔ ∀ m ∈ ms, ∀ m' ∈ ms, m.target ≠ m'.source := by
  have hself : ∀ m ∈ ms, m.target ≠ m.source := by
    intro m hm
    obtain ⟨-, -, -, -, hne⟩ := h.wellFormed m hm
    exact hne.symm
  rw [← inOrder_perms hself]
  refine forall₂_congr fun ms' hperm => ?_
  rw [← reanchorCode_iff he hlive ha (h.perm hperm),
    map_congr_left fun x _ => h.relocated_perm hperm x]

/-- Two blocks of code quoted from one file. -/
def quotedRun : List (List (Time × TxWrite)) :=
  [[(1, .insertEntry
    { id := "m", workspaceId := "w", content := "c",
      anchors := [{ kind := some .code, value := "f#L1-L2", symbolUid := "s" },
        { kind := some .code, value := "f#L3-L4", symbolUid := "t" }] }
    { principal := "ann" })]]

def quoted : Txn := (Db.empty.history .plain quotedRun).start

/-- The places of the quotes after moves. -/
def placesAfter (ms : List CodeMove) : Except Err (List String) :=
  let run := reanchorCode ⟨.plain, 2⟩ "m" ms "" { principal := "ann" } quoted
  run.1.map fun _ => (run.2.db.anchorsOf "m").map (·.value)

/-- Two blocks move down, and the upper one comes to where the lower one was. The pass fails unless
the lower one goes first, and if the blocks change places it fails in either order. -/
theorem reanchorCode_chain_fails : let down : CodeMove := ⟨"s", "f#L1-L2", "f#L3-L4"⟩
    let further : CodeMove := ⟨"t", "f#L3-L4", "f#L5-L6"⟩
    let up : CodeMove := ⟨"t", "f#L3-L4", "f#L1-L2"⟩
    let clash : Err := .fault .conflict "UNIQUE constraint failed: anchors.entry_id, kind, value"
    Relocates (quoted.db.anchorsOf "m") [down, further]
      ∧ placesAfter [down, further] = .error clash
      ∧ placesAfter [further, down] = .ok ["f#L3-L4", "f#L5-L6"]
      ∧ Relocates (quoted.db.anchorsOf "m") [down, up]
      ∧ placesAfter [down, up] = .error clash ∧ placesAfter [up, down] = .error clash := by
  decide +kernel

theorem reanchorCode_orders_iff_apart :
    ∃ t', reanchorCode ⟨.plain, 2⟩ "m"
      [⟨"t", "f#L3-L4", "f#L13-L14"⟩, ⟨"s", "f#L1-L2", "f#L11-L12"⟩] ""
        { principal := "ann" } quoted = (.ok (), t')
      ∧ (t'.db.anchorsOf "m").map (·.value) = ["f#L11-L12", "f#L13-L14"] := by
  have hfound : (quoted.db.entry "m").isSome ∧ quoted.db.purged "m" = false := by decide +kernel
  obtain ⟨e, he⟩ := Option.isSome_iff_exists.1 hfound.1
  have hlive : e.lifecycle ≠ .purged := by simpa [Db.purged, he] using hfound.2
  have hok : Actor.ok { principal := "ann" } := by decide +kernel
  have hms : Relocates (quoted.db.anchorsOf "m")
      [⟨"s", "f#L1-L2", "f#L11-L12"⟩, ⟨"t", "f#L3-L4", "f#L13-L14"⟩] := by decide +kernel
  obtain ⟨t', hrun, hanchors⟩ :=
    (reanchorCode_orders_iff ⟨.plain, 2⟩ "" he hlive hok hms).2 (by decide) _ (.swap _ _ _)
  refine ⟨t', hrun, ?_⟩
  rw [hanchors]
  decide +kernel

end GovStore
