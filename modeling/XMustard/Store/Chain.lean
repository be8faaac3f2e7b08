import XMustard.Program.Along
import XMustard.Store.Steps

/-!
# The revision chain of a memory

The revisions of a memory are numbered 1, 2, … in the order they were written. The pending ones
lie above the served one, and the head is the newest of them. What can still be served keeps its
content. Every act of governance keeps this, so a database that is sound in this sense stays sound.
-/

namespace GovStore

open List Table

namespace Memory

variable {h : Hashing} {m m' : Memory}

/-! ### The newest pending revision -/

lemma newestPending_eq_none : m.newestPending = none ↔ ∀ x ∈ m.revisions, x.state ≠ .pending := by
  simp [newestPending, List.max?_eq_none_iff]

lemma newestPending_eq_some {n : Int} :
    m.newestPending = some n ↔ (∃ x ∈ m.revisions, x.state = .pending ∧ x.revision = n)
      ∧ ∀ x ∈ m.revisions, x.state = .pending → x.revision ≤ n := by
  rw [newestPending, List.max?_eq_some_iff]
  simp only [mem_map, mem_filter, decide_eq_true_eq, and_assoc]
  refine and_congr_right fun _ => ⟨fun hle x hx hp => hle _ ⟨x, hx, hp, rfl⟩, ?_⟩
  rintro hle _ ⟨x, hx, hp, rfl⟩
  exact hle x hx hp

/-! ### The invariant -/

/-- The revisions of a memory form a chain with the served revision and the head in place. -/
structure Chain (h : Hashing) (m : Memory) : Prop where
  numbered : Numbered (m.revisions.map (·.revision))
  above : ∀ x ∈ m.revisions, x.state = .pending → m.row.revision < x.revision
  head : m.row.headRevision = m.newestPending.getD m.row.revision
  served : ∃ x ∈ m.revisions, x.revision = m.row.revision ∧ x.state = .accepted
    ∧ x.contentDigest = m.row.contentDigest
  /-- The served revision and the pending ones keep their content. -/
  kept : m.row.lifecycle ≠ .purged → ∀ x ∈ m.revisions,
    x.revision = m.row.revision ∨ x.state = .pending →
      ∃ c, x.content = some c ∧ h.digest c = x.contentDigest
  erased : m.row.lifecycle = .purged → ∀ x ∈ m.revisions, x.content = none

namespace Chain

lemma nextRevision (c : m.Chain h) : m.nextRevision = m.revisions.length + 1 := by
  rw [Memory.nextRevision, c.numbered.foldr_max, length_map]

variable {x y : Revision} {row : EntryCore} {votes : List Vote}

section

variable (c : m.Chain h)
include c

lemma revision_lt (hx : x ∈ m.revisions) : x.revision < m.nextRevision := by
  have := (c.numbered.mem.1 (mem_map_of_mem hx)).2
  rw [c.nextRevision]
  simp only [length_map] at this
  omega

/-- Two revisions with one number are one revision. -/
lemma eq_of_revision (hx : x ∈ m.revisions) (hy : y ∈ m.revisions) (hxy : x.revision = y.revision) :
    x = y :=
  inj_on_of_nodup_map c.numbered.nodup hx hy hxy

lemma served_lt : m.row.revision < m.nextRevision := by
  obtain ⟨x, hx, hrev, -⟩ := c.served
  exact hrev ▸ c.revision_lt hx

lemma head_lt : m.row.headRevision < m.nextRevision := by
  rw [c.head]
  match hn : m.newestPending with
  | none => exact c.served_lt
  | some n =>
    obtain ⟨⟨x, hx, -, rfl⟩, -⟩ := newestPending_eq_some.1 hn
    exact c.revision_lt hx

lemma revision_le_head : m.row.revision ≤ m.row.headRevision := by
  rw [c.head]
  match hn : m.newestPending with
  | none => exact Int.le_refl _
  | some n =>
    obtain ⟨⟨x, hx, hp, rfl⟩, -⟩ := newestPending_eq_some.1 hn
    exact Int.le_of_lt (c.above x hx hp)

lemma pending_le_head (hx : x ∈ m.revisions) (hp : x.state = .pending) :
    x.revision ≤ m.row.headRevision := by
  rw [c.head]
  match hn : m.newestPending with
  | none => exact absurd hp (newestPending_eq_none.1 hn x hx)
  | some n => exact (newestPending_eq_some.1 hn).2 x hx hp

/-! ### Acts keep the chain -/

/-- Acts that leave the revisions alone and serve what was served. -/
lemma frame (live : m.row.lifecycle ≠ .purged) (live' : row.lifecycle ≠ .purged)
    (hrev : row.revision = m.row.revision) (hhead : row.headRevision = m.row.headRevision)
    (hdigest : row.contentDigest = m.row.contentDigest) : Chain h ⟨row, m.revisions, votes⟩ where
  numbered := c.numbered
  above := by rw [hrev]; exact c.above
  head := by rw [hhead, hrev]; exact c.head
  served := by rw [hrev, hdigest]; exact c.served
  kept _ := by rw [hrev]; exact c.kept live
  erased hp := absurd hp live'

end

lemma newborn (nb : Newborn h m) : m.Chain h := by
  obtain ⟨x, hxs, hrev, hstate, ⟨-, -, -, content, hc, hd⟩, hdigest⟩ := nb.first
  have hpend : m.newestPending = none := newestPending_eq_none.2 (by simp [hxs, hstate])
  refine ⟨by simp [hxs, hrev, Numbered], by simp [hxs, hstate], ?_, ?_, ?_, by simp [nb.lifecycle]⟩
  · rw [hpend, nb.head, nb.revision]
    rfl
  · exact ⟨x, by simp [hxs], by rw [hrev, nb.revision], hstate, hdigest⟩
  · intro _ y hy _
    have : y = x := by simpa [hxs] using hy
    exact ⟨content, this ▸ hc, by rw [this, hd]⟩

/-- A served revision above all others, with no other one left pending. -/
lemma serve {xs : List Revision}
    (numbered : Numbered (xs.map (·.revision))) (found : y ∈ xs) (accepted : y.state = .accepted)
    (live : row.lifecycle ≠ .purged) (none_pending : ∀ x ∈ xs, x.state ≠ .pending)
    (top : row.headRevision ≤ y.revision)
    (content : ∃ c, y.content = some c ∧ h.digest c = y.contentDigest) :
    Chain h ⟨serving row y, xs, votes⟩ := by
  refine ⟨numbered, fun x hx hp => absurd hp (none_pending x hx), ?_,
    ⟨y, found, rfl, accepted, rfl⟩, ?_, fun hp => absurd hp live⟩
  · rw [newestPending_eq_none.2 none_pending]
    exact max_eq_right top
  · rintro _ x hx (hrev | hp)
    · exact (inj_on_of_nodup_map numbered.nodup hx found hrev) ▸ content
    · exact absurd hp (none_pending x hx)

@[simp] lemma map_revision_withdrawBelow (rev : Int) (now : Time) (xs : List Revision) :
    (withdrawBelow rev now xs).map (·.revision) = xs.map (·.revision) :=
  map_update (f := Revision.decide .withdrawn now) fun _ _ _ => rfl

@[simp] lemma map_revision_decideRevision (rev : Int) (st : RevisionState) (now : Time)
    (xs : List Revision) : (decideRevision rev st now xs).map (·.revision) = xs.map (·.revision) :=
  map_update (f := Revision.decide st now) fun _ _ _ => rfl

section

variable (c : m.Chain h) (live : m.row.lifecycle ≠ .purged)
include c live

lemma propose (hs : Memory.Step h .propose m m') : m'.Chain h := by
  cases hs with | propose _ x _ number pending written => ?_
  have newest : newestPending { m with row := { m.row with headRevision := x.revision },
                                       revisions := m.revisions ++ [x] } = some x.revision := by
    refine newestPending_eq_some.2 ⟨⟨x, by simp, pending, rfl⟩, fun y hy _ => ?_⟩
    rcases mem_append.1 hy with hy | hy
    · exact Int.le_of_lt (number ▸ c.revision_lt hy)
    · simp_all
  refine ⟨?_, ?_, by rw [newest]; rfl, ?_, ?_, fun hp => absurd hp live⟩
  · simpa [number, c.nextRevision] using c.numbered.append
  · intro y hy hp
    rcases mem_append.1 hy with hy | hy
    · exact c.above y hy hp
    · rw [mem_singleton.1 hy, number]
      exact c.served_lt
  · obtain ⟨y, hy, rest⟩ := c.served
    exact ⟨y, mem_append_left _ hy, rest⟩
  · intro _ y hy hor
    rcases mem_append.1 hy with hy | hy
    · exact c.kept live y hy hor
    · obtain ⟨-, -, -, content, hc, hd⟩ := written
      rw [mem_singleton.1 hy]
      exact ⟨content, hc, hd.symm⟩

lemma adopt (hs : Memory.Step h .adopt m m') : m'.Chain h := by
  cases hs with | adopt _ x now _ number accepted written => ?_
  obtain ⟨-, -, -, content, hc, hd⟩ := written
  refine serve ?_ ?_ accepted live ?_ (by rw [number]; exact Int.le_of_lt c.head_lt)
    ⟨content, hc, hd.symm⟩
  · rw [map_revision_withdrawBelow]
    simpa [number, c.nextRevision] using c.numbered.append
  · exact mem_update.2 ⟨x, by simp, by simp⟩
  · intro y hy hp
    rcases mem_update_cases hy with ⟨y₀, -, -, rfl⟩ | ⟨hy, hno⟩
    · cases hp
    · rcases mem_append.1 hy with hy | hy
      · have := c.revision_lt hy
        simp_all
      · rw [mem_singleton.1 hy, accepted] at hp
        cases hp

lemma accept (hs : Memory.Step h .accept m m') : m'.Chain h := by
  cases hs with | accept _ x now _ found pending head => ?_
  have content := c.kept live x found (.inr pending)
  -- the row serves the accepted revision, which has the columns of the pending one
  refine serve (y := Revision.decide .accepted now x) ?_ ?_ rfl live ?_
    (by simp [← head, Revision.decide]) content
  · simpa using c.numbered
  · refine mem_update.2 ⟨_, mem_update.2 ⟨x, found, by simp; rfl⟩, by simp [Revision.decide]⟩
  · intro y hy hp
    rcases mem_update_cases hy with ⟨y₀, -, -, rfl⟩ | ⟨hy, hno⟩
    · cases hp
    · rcases mem_update_cases hy with ⟨y₀, -, -, rfl⟩ | ⟨hy, hne⟩
      · cases hp
      · have := c.pending_le_head hy hp
        simp only [hp, true_and, decide_eq_false_iff_not] at hno hne
        omega

lemma reject (hs : Memory.Step h .reject m m') : m'.Chain h := by
  cases hs with | reject _ x now found pending _ revs _ row => ?_
  have rev_eq : m'.row.revision = m.row.revision := by rw [row]
  have digest_eq : m'.row.contentDigest = m.row.contentDigest := by rw [row]
  have lifecycle_eq : m'.row.lifecycle = m.row.lifecycle := by rw [row]
  -- what is served or pending afterwards was so before, unchanged
  have old : ∀ y ∈ m'.revisions, y.revision = m.row.revision ∨ y.state = .pending →
      y ∈ m.revisions := by
    intro y hy hor
    rw [revs] at hy
    rcases mem_update_cases hy with ⟨y₀, hy₀, heq, rfl⟩ | ⟨hy, -⟩
    · have := c.above x found pending
      have hrev : y₀.revision = x.revision := by simpa using heq
      rcases hor with hor | hor
      · have : y₀.revision = m.row.revision := hor
        omega
      · cases hor
    · exact hy
  refine ⟨by simpa [revs] using c.numbered, ?_, ?_, ?_, ?_, fun hp =>
    absurd (lifecycle_eq ▸ hp) live⟩
  · intro y hy hp
    rw [rev_eq]
    exact c.above y (old y hy (.inr hp)) hp
  · rw [row]
  · obtain ⟨y, hy, hrev, rest⟩ := c.served
    have : y.revision ≠ x.revision := by
      have := c.above x found pending
      omega
    rw [rev_eq, digest_eq, revs]
    exact ⟨y, mem_update.2 ⟨y, hy, by simp [this]⟩, hrev, rest⟩
  · intro _ y hy hor
    rw [rev_eq] at hor
    exact c.kept live y (old y hy hor) hor

end

lemma purge (c : m.Chain h) (hs : Memory.Step h .purge m m') : m'.Chain h := by
  cases hs with | purge _ now => ?_
  have none_pending : ∀ x ∈ m.revisions.map (Revision.tombstone now), x.state ≠ .pending := by
    intro x hx
    obtain ⟨x₀, -, rfl⟩ := mem_map.1 hx
    unfold Revision.tombstone
    split_ifs with hp <;> simp [hp]
  refine ⟨?_, fun x hx hp => absurd hp (none_pending x hx), ?_, ?_, by simp, ?_⟩
  · rw [map_map]
    exact c.numbered
  · rw [newestPending_eq_none.2 none_pending]
    rfl
  · obtain ⟨x, hx, hrev, hstate, hdigest⟩ := c.served
    exact ⟨_, mem_map_of_mem hx, hrev, by simp [Revision.tombstone, hstate], hdigest⟩
  · intro _ x hx
    obtain ⟨y, -, rfl⟩ := mem_map.1 hx
    rfl

lemma sweep (c : m.Chain h) {p : Revision → Bool} (now : Time)
    (old : ∀ x ∈ m.revisions, p x → x.state ≠ .pending ∧ x.revision ≠ m.row.revision) :
    (m.sweep p now).Chain h := by
  -- a swept revision is neither pending nor served
  have same : ∀ x ∈ (m.sweep p now).revisions, x.state = .pending ∨ x.revision = m.row.revision →
      x ∈ m.revisions := by
    intro x hx hor
    rcases mem_update_cases hx with ⟨x₀, hx₀, hp, rfl⟩ | ⟨hx, -⟩
    · have := old x₀ hx₀ hp
      rcases hor with hor | hor
      · exact absurd hor this.1
      · exact absurd hor this.2
    · exact hx
  have kept : ∀ x ∈ m.revisions, x.state = .pending ∨ x.revision = m.row.revision →
      x ∈ (m.sweep p now).revisions := by
    intro x hx hor
    refine mem_update.2 ⟨x, hx, ?_⟩
    split
    · next hp => exact absurd (old x hx hp) (by rcases hor with hor | hor <;> simp [hor])
    · rfl
  refine ⟨?_, fun x hx hp => c.above x (same x hx (.inl hp)) hp, ?_, ?_, ?_, ?_⟩
  · have : (m.sweep p now).revisions.map (·.revision) = m.revisions.map (·.revision) :=
      map_update (f := Revision.compact now) fun _ _ _ => rfl
    rw [this]
    exact c.numbered
  · have : (m.sweep p now).newestPending = m.newestPending := by
      match hn : m.newestPending with
      | none =>
        exact newestPending_eq_none.2 fun x hx hp =>
          newestPending_eq_none.1 hn x (same x hx (.inl hp)) hp
      | some n =>
        obtain ⟨⟨x, hx, hp, hxn⟩, hle⟩ := newestPending_eq_some.1 hn
        exact newestPending_eq_some.2
          ⟨⟨x, kept x hx (.inl hp), hp, hxn⟩, fun y hy hyp => hle y (same y hy (.inl hyp)) hyp⟩
    rw [this]
    exact c.head
  · obtain ⟨x, hx, hrev, rest⟩ := c.served
    exact ⟨x, kept x hx (.inr hrev), hrev, rest⟩
  · intro live x hx hor
    exact c.kept live x (same x hx hor.symm) hor
  · intro hp x hx
    rcases mem_update_cases hx with ⟨y, -, -, rfl⟩ | ⟨hx, -⟩
    · rfl
    · exact c.erased hp x hx

/-- Every act keeps the chain. -/
lemma step {a : Act} (c : m.Chain h) (live : m.row.lifecycle ≠ .purged)
    (hs : Memory.Step h a m m') : m'.Chain h := by
  have act := hs
  cases hs with
  | attach => exact c
  | label | gate | vote | seed => exact c.frame live live rfl rfl rfl
  | supersede | merge | reopen | restart => exact c.frame live nofun rfl rfl rfl
  | retire _ lc hlc => exact c.frame live (by rcases hlc with rfl | rfl <;> nofun) rfl rfl rfl
  | propose => exact c.propose live act
  | adopt => exact c.adopt live act
  | accept => exact c.accept live act
  | reject => exact c.reject live act
  | purge => exact c.purge act

end Chain

end Memory

/-! ### Sound databases -/

/-- Every memory of the database has the property. -/
def Db.All (P : Memory → Prop) (db : Db) : Prop := ∀ id r, db.record id = some r → P r.memory

lemma Db.All.empty (P : Memory → Prop) : Db.empty.All P := fun _ _ hr => by cases hr

variable {A : String → Act → Prop} {t' t : Txn} {h : Hashing} {db : Db}

/-- What a change makes of the record of one entry. -/
inductive Fate (h : Hashing) (A : String → Act → Prop) (t t' : Txn) (id : String) :
    Option Record → Option Record → Prop
  | kept (r : Option Record) : Fate h A t t' id r r
  | born {r : Record} (newborn : Memory.Newborn h r.memory) : Fate h A t t' id none (some r)
  | acted {act : Act} {r r' : Record} (allowed : A id act) (step : r.Step h act r')
      (covered : act = .vote → t'.covers id)
      (target : ∀ i, act = .replace i → i ≠ id ∧ ∃ s, t.db.record i = some s
        ∧ t'.db.record i = some s ∧ s.row.lifecycle = .active) : Fate h A t t' id (some r) (some r')
  | swept {r : Record} (p : Revision → Bool) (now : Time) (allowed : A id .compact)
      (old : ∀ x ∈ r.revisions, p x → x.state ≠ .pending ∧ x.revision ≠ r.row.revision) :
      Fate h A t t' id (some r)
        (some { r with revisions := update p (Revision.compact now) r.revisions })

lemma Change.fate (hc : Change h A t t') (id : String) :
    Fate h A t t' id (t.db.record id) (t'.db.record id) := by
  cases hc with
  | same all =>
    rw [all]
    exact .kept _
  | born i r absent present others newborn =>
    by_cases hi : id = i
    · rw [hi, absent, present]
      exact .born newborn
    · rw [others id hi]
      exact .kept _
  | one i act r r' allowed before after others step covered target =>
    by_cases hi : id = i
    · rw [hi, before, after]
      refine .acted allowed step covered fun j hact => ?_
      obtain ⟨hne, s, hs, active⟩ := target j hact
      exact ⟨hne, s, hs, (others j hne).trans hs, active⟩
    · rw [others id hi]
      exact .kept _
  | sweep now p allowed old all =>
    rw [all]
    cases hr : t.db.record id with
    | none => exact .kept _
    | some r => exact .swept p now (allowed id) (old id r hr)

/-- What holds of a new memory and is kept by every act and by the sweep holds after a change. -/
lemma Change.all {P : Memory → Prop} (newborn : ∀ m, Memory.Newborn h m → P m)
    (step : ∀ act m m', m.row.lifecycle ≠ .purged → Memory.Step h act m m' → P m → P m')
    (sweep : ∀ m p now, (∀ x ∈ m.revisions, p x → x.state ≠ .pending
      ∧ x.revision ≠ m.row.revision) →
      P m → P (m.sweep p now))
    (hc : Change h A t t') (hP : t.db.All P) : t'.db.All P := by
  intro i r' hr'
  have hf := hc.fate i
  rw [hr'] at hf
  generalize hr : t.db.record i = r at hf
  cases hf with
  | kept => exact hP i r' hr
  | born nb => exact newborn _ nb
  | acted _ hs => exact step _ _ _ hs.live hs.memory (hP i _ hr)
  | swept p now _ old => exact sweep _ p now old (hP i _ hr)

/-- No entry disappears. -/
lemma Change.present
    (hc : Change h A t t') {id : String} (he : (t.db.entry id).isSome) :
    (t'.db.entry id).isSome := by
  have hrec : ∀ db : Db, (db.entry id).isSome = (db.record id).isSome := fun db => by
    simp [Db.record]
  rw [hrec] at he ⊢
  obtain ⟨r, hr⟩ := Option.isSome_iff_exists.1 he
  have hf := hc.fate id
  rw [hr] at hf
  generalize t'.db.record id = r' at hf ⊢
  cases hf <;> rfl

/-- A database as the store keeps it. -/
structure Db.Sound (h : Hashing) (db : Db) : Prop where
  wf : db.Wf
  chained : db.All (Memory.Chain h)

lemma Db.Sound.empty (h : Hashing) : Db.empty.Sound h :=
  ⟨.empty, .empty _⟩

lemma Db.Sound.chain (hdb : db.Sound h) {id : String} {e : Entry}
    (he : db.entry id = some e) : (db.recordOf e).memory.Chain h :=
  hdb.chained id _ (Db.record_of_entry he)

/-- A step of a transaction on a sound database. -/
def StoreStep (h : Hashing) (A : String → Act → Prop) (t t' : Txn) : Prop :=
  t.db.Sound h → t'.db.Wf ∧ (∀ id, t.covers id → t'.covers id) ∧ Change h A t t'

lemma StoreStep.sound (hs : StoreStep h A t t') (hdb : t.db.Sound h) : t'.db.Sound h :=
  ⟨(hs hdb).1, (hs hdb).2.2.all (fun _ => .newborn) (fun _ _ _ live hs c => c.step live hs)
    (fun _ _ now old c => c.sweep now old) hdb.chained⟩

lemma StoreStep.present
    (chain : Relation.ReflTransGen (StoreStep h A) t t') (hdb : t.db.Sound h) {id : String}
    (he : (t.db.entry id).isSome) : (t'.db.entry id).isSome := by
  have : t'.db.Sound h ∧ (t'.db.entry id).isSome := by
    refine chain.keeps (I := fun t => t.db.Sound h ∧ (t.db.entry id).isSome) ?_ ⟨hdb, he⟩
    exact fun t t' hs ⟨hdb, he⟩ => ⟨hs.sound hdb, (hs hdb).2.2.present he⟩
  exact this.2

/-! ### One memory -/

section one

variable {h : Hashing} {A : String → Act → Prop} {id : String} {P : Memory → Prop}

/-- The memory of the entry has the property. -/
def Db.At (id : String) (P : Memory → Prop) (db : Db) : Prop :=
  ∃ r, db.record id = some r ∧ P r.memory

lemma Db.At.mono {Q : Memory → Prop} (hat : db.At id P) (hPQ : ∀ m, P m → Q m) : db.At id Q := by
  obtain ⟨r, hr, hP⟩ := hat
  exact ⟨r, hr, hPQ _ hP⟩

variable
  (step : ∀ act m m', A id act → act ≠ .replace id → m.Chain h → m.row.lifecycle ≠ .purged →
    Memory.Step h act m m' → P m → P m')
  (sweep : A id .compact → ∀ m p now, m.Chain h → P m → P (m.sweep p now))

include step sweep

/-- A step keeps a property of one memory that the acts allowed on it keep. -/
lemma StoreStep.at (hs : StoreStep h A t t') (hdb : t.db.Sound h) (hat : t.db.At id P) :
    t'.db.At id P := by
  obtain ⟨r, hr, hP⟩ := hat
  have c := hdb.chained id r hr
  have hf := (hs hdb).2.2.fate id
  rw [hr] at hf
  generalize hr' : t'.db.record id = r' at hf
  cases hf with
  | kept => exact ⟨r, hr', hP⟩
  | @acted act _ r' allowed hstep _ target =>
    have hself : act ≠ .replace id := fun heq => (target id heq).1 rfl
    exact ⟨r', hr', step act _ _ allowed hself c hstep.live hstep.memory hP⟩
  | swept p now allowed => exact ⟨_, hr', sweep allowed r.memory p now c hP⟩

lemma Db.At.chain (chain : Relation.ReflTransGen (StoreStep h A) t t') (hdb : t.db.Sound h)
    (hat : t.db.At id P) : t'.db.At id P := by
  have : t'.db.Sound h ∧ t'.db.At id P := by
    refine chain.keeps (I := fun t => t.db.Sound h ∧ t.db.At id P) ?_ ⟨hdb, hat⟩
    exact fun t t' hs ⟨hdb, hat⟩ => ⟨hs.sound hdb, hs.at step sweep hdb hat⟩
  exact this.2

omit step sweep

/-- Nothing is done to the memory beyond its satellites. -/
lemma Db.At.quiet (quiet : ∀ act, A id act → act = .attach ∨ act = .replace id)
    (chain : Relation.ReflTransGen (StoreStep h A) t t') (hdb : t.db.Sound h)
    (hat : t.db.At id P) : t'.db.At id P := by
  refine hat.chain ?_ ?_ chain hdb
  · intro act m m' hA hself _ _ hs hP
    obtain rfl := (quiet act hA).resolve_right hself
    cases hs
    exact hP
  · intro hA
    rcases quiet .compact hA with heq | heq <;> cases heq

end one

end GovStore
