import XMustard.Store.History

/-!
# The lineage of revisions

A revision is written on top of the head, keeps its number, its author and its digest, and is
decided once. The head only falls back past a revision when that revision is rejected, so of the
revisions written on one base all but the newest are rejected.
-/

namespace GovStore

open List Table Program

variable {h : Hashing} {A : String → Act → Prop} {t : Txn} {db : Db} {e : Entry}

/-! ### One revision over time -/

/-- `y` is the revision `x` at a later time: the same revision, and if it was decided, decided as
it was. -/
structure Revision.Continues (x y : Revision) : Prop where
  entryId : y.entryId = x.entryId
  revision : y.revision = x.revision
  baseRevision : y.baseRevision = x.baseRevision
  author : y.author = x.author
  contentDigest : y.contentDigest = x.contentDigest
  decided : x.state ≠ .pending → y.state = x.state ∧ y.decidedAt = x.decidedAt

namespace Revision.Continues

variable {x y z : Revision}

lemma refl (x : Revision) : x.Continues x := ⟨rfl, rfl, rfl, rfl, rfl, fun _ => ⟨rfl, rfl⟩⟩

lemma trans (hxy : x.Continues y) (hyz : y.Continues z) : x.Continues z where
  entryId := hyz.entryId.trans hxy.entryId
  revision := hyz.revision.trans hxy.revision
  baseRevision := hyz.baseRevision.trans hxy.baseRevision
  author := hyz.author.trans hxy.author
  contentDigest := hyz.contentDigest.trans hxy.contentDigest
  decided hx := by
    obtain ⟨hstate, hat⟩ := hxy.decided hx
    obtain ⟨hstate', hat'⟩ := hyz.decided (hstate ▸ hx)
    exact ⟨hstate'.trans hstate, hat'.trans hat⟩

lemma decide (hp : x.state = .pending) (st : RevisionState) (now : Time) :
    x.Continues (x.decide st now) :=
  ⟨rfl, rfl, rfl, rfl, rfl, fun hx => absurd hp hx⟩

lemma tombstone (x : Revision) (now : Time) : x.Continues (x.tombstone now) :=
  ⟨rfl, rfl, rfl, rfl, rfl, fun hx => by simp [Revision.tombstone, hx]⟩

lemma compact (x : Revision) (now : Time) : x.Continues (x.compact now) :=
  ⟨rfl, rfl, rfl, rfl, rfl, fun _ => ⟨rfl, rfl⟩⟩

end Revision.Continues

namespace Memory

variable {m m' : Memory}

/-- The revisions of `m'` are those of `m` at a later time, and perhaps one written on its head. -/
structure Extends (m m' : Memory) : Prop where
  continued : ∀ x ∈ m.revisions, ∃ y ∈ m'.revisions, x.Continues y
  later : ∀ y ∈ m'.revisions, (∃ x ∈ m.revisions, x.Continues y)
    ∨ y.revision = m.nextRevision ∧ y.baseRevision = m.row.headRevision ∧ m.row.lifecycle ≠ .purged

namespace Extends

lemma of_same (hm : m'.revisions = m.revisions) : m.Extends m' :=
  ⟨fun x hx => ⟨x, hm ▸ hx, .refl x⟩, fun y hy => .inl ⟨y, hm ▸ hy, .refl y⟩⟩

lemma of_append {x : Revision} (hm : m'.revisions = m.revisions ++ [x])
    (number : x.revision = m.nextRevision) (base : x.baseRevision = m.row.headRevision)
    (live : m.row.lifecycle ≠ .purged) : m.Extends m' := by
  refine ⟨fun y hy => ⟨y, by simp [hm, hy], .refl y⟩, fun y hy => ?_⟩
  rw [hm] at hy
  rcases mem_append.1 hy with hy | hy
  · exact .inl ⟨y, hy, .refl y⟩
  · exact mem_singleton.1 hy ▸ .inr ⟨number, base, live⟩

variable {m₁ : Memory}

/-- Some of the revisions are rewritten afterwards. -/
lemma rewritten (he : m.Extends m₁) {p : Revision → Bool} {f : Revision → Revision}
    (hm : m'.revisions = update p f m₁.revisions)
    (hf : ∀ x ∈ m₁.revisions, p x → x.Continues (f x)) : m.Extends m' := by
  have step : ∀ x ∈ m₁.revisions, x.Continues (if p x then f x else x) := by
    intro x hx
    by_cases hp : p x
    · simpa [hp] using hf x hx hp
    · simpa [hp] using .refl x
  constructor
  · intro x hx
    obtain ⟨y, hy, hxy⟩ := he.continued x hx
    exact ⟨_, hm ▸ mem_update.2 ⟨y, hy, rfl⟩, hxy.trans (step y hy)⟩
  · intro z hz
    obtain ⟨y, hy, rfl⟩ := mem_update.1 (hm ▸ hz)
    have hyz := step y hy
    rcases he.later y hy with ⟨x, hx, hxy⟩ | ⟨number, base, live⟩
    · exact .inl ⟨x, hx, hxy.trans hyz⟩
    · exact .inr ⟨hyz.revision.trans number, hyz.baseRevision.trans base, live⟩

/-- Pending revisions are withdrawn afterwards. -/
lemma withdraw (he : m.Extends m₁) {rev : Int} {now : Time}
    (hm : m'.revisions = withdrawBelow rev now m₁.revisions) : m.Extends m' :=
  he.rewritten hm fun _ _ hp => .decide (of_decide_eq_true hp).1 _ now

end Extends

lemma Chain.decide_extends (c : m.Chain h) {x : Revision} (found : x ∈ m.revisions)
    (pending : x.state = .pending) (st : RevisionState) (now : Time)
    (hm : m'.revisions = decideRevision x.revision st now m.revisions) : m.Extends m' := by
  refine (Extends.of_same rfl).rewritten hm fun y hy hyx => ?_
  have : y = x := c.eq_of_revision hy found (by simpa using hyx)
  exact .decide (this ▸ pending) st now

/-- What an act does to the revisions. -/
lemma Step.extends {act : Act} (c : m.Chain h) (live : m.row.lifecycle ≠ .purged)
    (hs : Memory.Step h act m m') : m.Extends m' := by
  cases hs with
  | propose _ x _ number _ written => exact .of_append rfl number written.2.1 live
  | adopt _ x now _ number _ written =>
    have appended : m.Extends { m with revisions := m.revisions ++ [x] } :=
      .of_append rfl number written.2.1 live
    exact appended.withdraw rfl
  | accept _ x now _ found pending =>
    have decided : m.Extends
        { m with revisions := decideRevision x.revision .accepted now m.revisions } :=
      c.decide_extends found pending .accepted now rfl
    exact decided.withdraw rfl
  | reject _ x now found pending _ revs => exact c.decide_extends found pending .rejected now revs
  | purge _ now =>
    refine (Extends.of_same rfl).rewritten (p := fun _ => true) ?_ fun x _ _ => .tombstone x now
    simp [update]
  | _ => exact .of_same rfl

lemma extends_sweep (m : Memory) (p : Revision → Bool) (now : Time) : m.Extends (m.sweep p now) :=
  (Extends.of_same rfl).rewritten rfl fun x _ _ => .compact x now

/-! ### Revisions written on one base -/

/-- Where a revision stands: above its base, not above the served one once it is accepted or
withdrawn, and rejected if another revision has been written on its base since. -/
structure Lineage (m : Memory) : Prop where
  base : ∀ x ∈ m.revisions, x.baseRevision < x.revision
  settled : m.row.lifecycle ≠ .purged → ∀ x ∈ m.revisions,
    x.state = .accepted ∨ x.state = .withdrawn → x.revision ≤ m.row.revision
  siblings : ∀ x ∈ m.revisions, ∀ y ∈ m.revisions, x.baseRevision = y.baseRevision →
    x.revision < y.revision → x.state = .rejected

namespace Lineage

/-- Only rejected revisions lie above the head. -/
lemma revision_le_head (l : m.Lineage) (c : m.Chain h) (live : m.row.lifecycle ≠ .purged)
    {x : Revision} (hx : x ∈ m.revisions) (hne : x.state ≠ .rejected) :
    x.revision ≤ m.row.headRevision := by
  match hstate : x.state with
  | .rejected => exact absurd hstate hne
  | .pending => exact c.pending_le_head hx hstate
  | .accepted => exact (l.settled live x hx (.inl hstate)).trans c.revision_le_head
  | .withdrawn => exact (l.settled live x hx (.inr hstate)).trans c.revision_le_head

lemma extends_base (l : m.Lineage) (c : m.Chain h) (he : m.Extends m') :
    ∀ x ∈ m'.revisions, x.baseRevision < x.revision := by
  intro y hy
  rcases he.later y hy with ⟨x, hx, hxy⟩ | ⟨number, base, -⟩
  · rw [hxy.baseRevision, hxy.revision]
    exact l.base x hx
  · rw [number, base]
    exact c.head_lt

lemma extends_siblings (l : m.Lineage) (c : m.Chain h) (he : m.Extends m') :
    ∀ x ∈ m'.revisions, ∀ y ∈ m'.revisions, x.baseRevision = y.baseRevision →
      x.revision < y.revision → x.state = .rejected := by
  intro x hx y hy hbase hlt
  rcases he.later x hx with ⟨x₀, hx₀, hxx⟩ | ⟨number, -⟩
  · rw [hxx.baseRevision] at hbase
    rw [hxx.revision] at hlt
    have hrejected : x₀.state = .rejected := by
      rcases he.later y hy with ⟨y₀, hy₀, hyy⟩ | ⟨-, base, live⟩
      · exact l.siblings x₀ hx₀ y₀ hy₀ (hbase.trans hyy.baseRevision) (hyy.revision ▸ hlt)
      · -- a new revision has the head as its base, which lies above the base of the old one
        by_contra hne
        have := l.revision_le_head c live hx₀ hne
        have := l.base x₀ hx₀
        omega
    exact (hxx.decided (by simp [hrejected])).1.trans hrejected
  · -- nothing is numbered above a new revision
    rcases he.later y hy with ⟨y₀, hy₀, hyy⟩ | ⟨number', -⟩
    · have := c.revision_lt hy₀
      have := hyy.revision
      omega
    · omega

/-- Acts that serve what was served and settle nothing. -/
lemma settled_same (l : m.Lineage) (live : m.row.lifecycle ≠ .purged)
    (hrev : m'.row.revision = m.row.revision)
    (hold : ∀ x ∈ m'.revisions, x.state = .accepted ∨ x.state = .withdrawn →
      ∃ y ∈ m.revisions, y.revision = x.revision ∧ (y.state = .accepted ∨ y.state = .withdrawn)) :
    m'.row.lifecycle ≠ .purged → ∀ x ∈ m'.revisions,
      x.state = .accepted ∨ x.state = .withdrawn → x.revision ≤ m'.row.revision := by
  intro _ x hx hor
  obtain ⟨y, hy, hxy, hor'⟩ := hold x hx hor
  rw [hrev, ← hxy]
  exact l.settled live y hy hor'

/-- A revision that was not above the head, or that is the served one, is not above it now. -/
lemma settled_serving (l : m.Lineage) (c : m.Chain h) (live : m.row.lifecycle ≠ .purged)
    (he : m.Extends m') (hserved : m.row.headRevision ≤ m'.row.revision)
    (hnew : ∀ x ∈ m'.revisions, x.revision = m.nextRevision → m'.row.revision = m.nextRevision) :
    ∀ x ∈ m'.revisions, x.state = .accepted ∨ x.state = .withdrawn →
      x.revision ≤ m'.row.revision := by
  intro x hx hor
  rcases he.later x hx with ⟨y, hy, hyx⟩ | ⟨number, -⟩
  · have hne : y.state ≠ .rejected := by
      intro hrej
      rw [(hyx.decided (by simp [hrej])).1, hrej] at hor
      rcases hor with hor | hor <;> cases hor
    rw [hyx.revision]
    exact (l.revision_le_head c live hy hne).trans hserved
  · rw [hnew x hx number, number]

lemma newborn (nb : Newborn h m) : m.Lineage := by
  obtain ⟨x, hxs, hrev, hstate, written, -⟩ := nb.first
  refine ⟨by simp [hxs, hrev, written.2.1], fun _ => by simp [hxs, hrev, nb.revision], ?_⟩
  intro y hy z hz _ hlt
  rw [hxs, mem_singleton] at hy hz
  rw [hy, hz] at hlt
  exact absurd hlt (Int.lt_irrefl _)

section

variable {act : Act} (l : m.Lineage) (c : m.Chain h) (live : m.row.lifecycle ≠ .purged)
  (hs : Memory.Step h act m m')
include l c live hs

lemma settled_step : m'.row.lifecycle ≠ .purged → ∀ x ∈ m'.revisions,
      x.state = .accepted ∨ x.state = .withdrawn → x.revision ≤ m'.row.revision := by
  have he := hs.extends c live
  cases hs with
  | propose _ x _ _ pending =>
    refine l.settled_same live rfl fun y hy hor => ?_
    rcases mem_append.1 hy with hy | hy
    · exact ⟨y, hy, rfl, hor⟩
    · rw [mem_singleton.1 hy, pending] at hor
      rcases hor with hor | hor <;> cases hor
  | adopt _ x now _ number =>
    refine fun _ => l.settled_serving c live he ?_ fun _ _ _ => number
    exact (Int.le_of_lt c.head_lt).trans (Int.le_of_eq number.symm)
  | accept _ x now _ found _ head =>
    refine fun _ => l.settled_serving c live he (Int.le_of_eq head.symm) fun y hy hnext => ?_
    obtain ⟨z, hz, hzy⟩ : ∃ z ∈ m.revisions, z.revision = y.revision := by
      obtain ⟨y₁, hy₁, rfl⟩ := mem_map.1 hy
      obtain ⟨z, hz, rfl⟩ := mem_map.1 hy₁
      exact ⟨z, hz, by split <;> split <;> rfl⟩
    have := c.revision_lt hz
    omega
  | reject _ x now _ _ _ revs _ row =>
    refine l.settled_same live (by rw [row]) fun y hy hor => ?_
    rw [revs] at hy
    rcases mem_update_cases hy with ⟨z, -, -, rfl⟩ | ⟨hy, -⟩
    · rcases hor with hor | hor <;> cases hor
    · exact ⟨y, hy, rfl, hor⟩
  | purge => exact fun hlive => absurd rfl hlive
  | _ => exact l.settled_same live rfl fun x hx hor => ⟨x, hx, rfl, hor⟩

lemma step : m'.Lineage :=
  ⟨l.extends_base c (hs.extends c live), l.settled_step c live hs,
    l.extends_siblings c (hs.extends c live)⟩

end

lemma sweep (l : m.Lineage) (c : m.Chain h) (p : Revision → Bool) (now : Time) :
    (m.sweep p now).Lineage := by
  have he := m.extends_sweep p now
  refine ⟨l.extends_base c he, fun live => l.settled_same live rfl (fun x hx hor => ?_) live,
    l.extends_siblings c he⟩
  rcases mem_update_cases hx with ⟨y, hy, -, rfl⟩ | ⟨hx, -⟩
  · exact ⟨y, hy, rfl, hor⟩
  · exact ⟨x, hx, rfl, hor⟩

end Lineage

end Memory

/-! ### Databases -/

lemma Running.lineage (ht : Running h t) : t.db.All Memory.Lineage :=
  ht.all (fun _ => .newborn) (fun _ _ _ c live hs l => l.step c live hs)
    fun _ p now c l => l.sweep c p now

/-- Every revision of the one database is there in the other, at a later time. -/
def Db.Evolves (db db' : Db) : Prop := ∀ x ∈ db.revisions, ∃ y ∈ db'.revisions, x.Continues y

lemma Db.Evolves.refl (db : Db) : db.Evolves db := fun x hx => ⟨x, hx, .refl x⟩

lemma Db.Evolves.trans {db' db'' : Db} (h₁ : db.Evolves db') (h₂ : db'.Evolves db'') :
    db.Evolves db'' := by
  intro x hx
  obtain ⟨y, hy, hxy⟩ := h₁ x hx
  obtain ⟨z, hz, hyz⟩ := h₂ y hy
  exact ⟨z, hz, hxy.trans hyz⟩

lemma Change.evolves {t' : Txn} (hc : Change h A t t') (hdb : t.db.Sound h) :
    t.db.Evolves t'.db := by
  intro x hx
  obtain ⟨e, he⟩ := Option.isSome_iff_exists.1 (hdb.wf.revisionsOwned x hx)
  have hxr : x ∈ (t.db.recordOf e).revisions := mem_rows.2 ⟨hx, (Db.entry_mem he).2.symm⟩
  -- the revisions of a later record are revisions of the later database
  have later : ∀ {r' : Record}, t'.db.record x.entryId = some r' →
      (∃ y ∈ r'.revisions, x.Continues y) → ∃ y ∈ t'.db.revisions, x.Continues y := by
    rintro r' hr' ⟨y, hy, hxy⟩
    rw [(Db.record_eq_some hr').2.1] at hy
    exact ⟨y, (mem_rows.1 hy).1, hxy⟩
  have hf := hc.fate x.entryId
  rw [Db.record_of_entry he] at hf
  generalize hr' : t'.db.record x.entryId = r' at hf
  cases hf with
  | kept => exact later hr' ⟨x, hxr, .refl x⟩
  | acted _ step =>
    exact later hr' ((step.memory.extends (hdb.chain he) step.live).continued x hxr)
  | swept p now =>
    exact later hr' (((t.db.recordOf e).memory.extends_sweep p now).continued x hxr)

/-- Further writes and further transactions only carry the revisions on. -/
lemma Db.Sound.evolves (hdb : t.db.Sound h) (ws : List (Time × TxWrite))
    (txs : List (List (Time × TxWrite))) :
    t.db.Evolves ((runWrites h ws t).2.db.history h txs) := by
  have run := (runWrites_governed h ws t).1.keeps
    (I := fun t' => t'.db.Sound h ∧ t.db.Evolves t'.db)
    (fun _ _ hs ⟨hs₁, hev⟩ => ⟨hs.sound hs₁, hev.trans ((hs hs₁).2.2.evolves hs₁)⟩) ⟨hdb, .refl _⟩
  refine Db.history_keeps_step (I := t.db.Evolves) ?_ txs run.1 run.2
  exact fun _ _ hs hs₁ hev => hev.trans ((hs hs₁).2.2.evolves hs₁)

/-! ### Edits on a stale base -/

/-- An edit with an operation of its own and content. -/
def RevisionInput.ok (i : RevisionInput) : Bool :=
  i.op.any (·.editing) && Text.trimSpace i.content != ""

lemma validateRevision_apply (i : RevisionInput) (t : Txn) :
    (i.ok = true ∧ ∃ op, validateRevision i t = (.ok op, t))
      ∨ (i.ok = false ∧ ∃ text, validateRevision i t = (.error (invalid text), t)) := by
  unfold validateRevision
  match hop : i.op with
  | none => exact .inr ⟨by simp [RevisionInput.ok, hop], _, rfl⟩
  | some op =>
    simp only [ensure_bind_apply]
    by_cases hedit : op.editing
    · by_cases hcontent : Text.trimSpace i.content = ""
      · exact .inr ⟨by simp [RevisionInput.ok, hcontent], _, by simp [hedit, hcontent]; rfl⟩
      · exact .inl ⟨by simp [RevisionInput.ok, hop, hedit, hcontent], op,
          by simp [hedit, hcontent]⟩
    · exact .inr ⟨by simp [RevisionInput.ok, hop, hedit], _, by simp only [hedit]; rfl⟩

/-- An edit whose base is not the head fails and writes nothing; it is a conflict if nothing else
is wrong with it, and invalid otherwise. -/
lemma appendRevision_stale {env : Env} {i : RevisionInput} {a : Actor}
    (he : t.db.entry i.entryId = some e) (hbase : i.baseRevision ≠ e.headRevision) :
    ∃ err, appendRevision env i a t = (.error err, t)
      ∧ err.kind = if a.ok ∧ i.ok ∧ e.lifecycle = .active then .conflict else .invalid := by
  unfold appendRevision
  rcases a.validate_apply t with ⟨ha, hrun⟩ | ⟨ha, text, hrun⟩
  · rw [bind_apply_ok hrun]
    rcases validateRevision_apply i t with ⟨hi, op, hrun⟩ | ⟨hi, text, hrun⟩
    · rw [bind_apply_ok hrun, bind_apply_ok (getEntry_eq_ok.2 ⟨he, rfl⟩), ensure_bind_apply]
      by_cases hactive : e.lifecycle = .active
      · rw [if_pos hactive, ensure_bind_apply, if_neg hbase]
        exact ⟨_, rfl, by simp [ha, hi, hactive, staleBase, Err.kind]⟩
      · rw [if_neg hactive]
        exact ⟨_, rfl, by simp [hactive, invalid, Err.kind]⟩
    · rw [bind_apply_error hrun]
      exact ⟨_, rfl, by simp [hi, invalid, Err.kind]⟩
  · rw [bind_apply_error hrun]
    exact ⟨_, rfl, by simp [ha, invalid, Err.kind]⟩

/-! ### The order of revisions -/

/-- The revisions of an entry and its two pointers into them. -/
structure RevisionOrder (h : Hashing) (db : Db) (e : Entry) : Prop where
  /-- The numbers are 1, 2, … in the order of writing. -/
  numbered : Numbered ((rows (·.entryId) e.id db.revisions).map (·.revision))
  pending : ∀ x ∈ db.revisions, x.entryId = e.id → x.state = .pending →
    e.revision < x.revision ∧ x.revision ≤ e.headRevision
  /-- The head is the newest pending revision, or the served one where none is pending. -/
  head : (∃ x ∈ db.revisions, x.entryId = e.id ∧ x.state = .pending ∧ x.revision = e.headRevision)
    ∨ (∀ x ∈ db.revisions, x.entryId = e.id → x.state ≠ .pending) ∧ e.headRevision = e.revision
  served : e.lifecycle ≠ .purged → ∃ x ∈ db.revisions, x.entryId = e.id ∧ x.revision = e.revision
    ∧ x.state = .accepted ∧ ∃ c, x.content = some c ∧ h.digest c = e.contentDigest
  /-- Of the revisions written on one base only the newest may be other than rejected. -/
  siblings : ∀ x ∈ db.revisions, ∀ y ∈ db.revisions, x.entryId = e.id → y.entryId = e.id →
    x.baseRevision = y.baseRevision → x.revision < y.revision → x.state = .rejected

lemma Memory.Chain.order (c : (db.recordOf e).memory.Chain h)
    (l : (db.recordOf e).memory.Lineage) : RevisionOrder h db e := by
  have mem : ∀ x ∈ db.revisions, x.entryId = e.id → x ∈ (db.recordOf e).memory.revisions :=
    fun x hx hid => mem_rows.2 ⟨hx, hid⟩
  refine ⟨c.numbered, ?_, ?_, ?_, ?_⟩
  · intro x hx hid hp
    exact ⟨c.above x (mem x hx hid) hp, c.pending_le_head (mem x hx hid) hp⟩
  · have head := c.head
    match hn : (db.recordOf e).memory.newestPending with
    | none =>
      rw [hn] at head
      exact .inr ⟨fun x hx hid => newestPending_eq_none.1 hn x (mem x hx hid), head⟩
    | some n =>
      rw [hn] at head
      obtain ⟨⟨x, hx, hp, hxn⟩, -⟩ := newestPending_eq_some.1 hn
      exact .inl ⟨x, (mem_rows.1 hx).1, (mem_rows.1 hx).2, hp, hxn.trans head.symm⟩
  · intro live
    obtain ⟨x, hx, hrev, hstate, hdigest⟩ := c.served
    obtain ⟨content, hc, hd⟩ := c.kept live x hx (.inl hrev)
    exact ⟨x, (mem_rows.1 hx).1, (mem_rows.1 hx).2, hrev, hstate, content, hc, hd.trans hdigest⟩
  · intro x hx y hy hxid hyid
    exact l.siblings x (mem x hx hxid) y (mem y hy hyid)

/-- At every point of every history the revisions of an entry are in order, whatever is done next
only carries them on, and an edit on a base other than the head fails. -/
theorem revisions_in_order {t : Txn} (ht : Running h t) {e : Entry} (he : e ∈ t.db.entries) :
    RevisionOrder h t.db e
      ∧ (∀ ws txs, t.db.Evolves ((runWrites h ws t).2.db.history h txs))
      ∧ ∀ (now : Time) (i : RevisionInput) (a : Actor), i.entryId = e.id →
        i.baseRevision ≠ e.headRevision → ∃ err, appendRevision ⟨h, now⟩ i a t = (.error err, t)
          ∧ err.kind = if a.ok ∧ i.ok ∧ e.lifecycle = .active then .conflict else .invalid := by
  have hentry := Db.entry_of_mem ht.sound.wf he
  refine ⟨(ht.sound.chain hentry).order (ht.lineage _ _ (Db.record_of_entry hentry)),
    fun ws txs => ht.sound.evolves ws txs, fun now i a hid hbase => ?_⟩
  exact appendRevision_stale (hid.symm ▸ hentry) hbase

def editOfFirst (content : String) : RevisionInput :=
  { entryId := "m", baseRevision := 1, op := some .edit, content := content }

/-- An edit is rejected, and another one is made on the same base. -/
def editedRun : List (List (Time × TxWrite)) :=
  [[(1, .insertEntry { id := "m", workspaceId := "w", content := "a" } { principal := "ann" })],
    [(2, .appendRevision (editOfFirst "b") { principal := "bob" })],
    [(3, .rejectRevision "m" 2 "" { principal := "cid" })],
    [(4, .appendRevision (editOfFirst "c") { principal := "bob" })]]

theorem revisions_in_order_editedRun : ∃ e ∈ (Db.empty.history .plain editedRun).start.db.entries,
      RevisionOrder .plain (Db.empty.history .plain editedRun).start.db e := by
  obtain ⟨e, he⟩ : ∃ e, e ∈ (Db.empty.history .plain editedRun).start.db.entries :=
    exists_mem_of_ne_nil _ (by decide +kernel)
  exact ⟨e, he, (revisions_in_order (Reachable.running ⟨editedRun, rfl⟩) he).1⟩

/-- Both edits on the first revision were appended, and on an entry that has been archived an edit
with a stale base fails without a conflict. -/
theorem appended_twice_on_one_base : (Db.empty.history .plain editedRun).revisions.map
        (fun x => (x.revision, x.baseRevision, x.state))
      = [(1, 0, .accepted), (2, 1, .rejected), (3, 1, .pending)]
    ∧ ((appendRevision ⟨.plain, 6⟩ (editOfFirst "d") { principal := "bob" }
        ((Db.empty.history .plain editedRun).transact .plain
          [(5, .transition "m" { dest := some .archived } { principal := "ann" })]).start).1.map
        fun _ => ()) = .error (invalid "entry %s is %s") := by
  decide +kernel

end GovStore
