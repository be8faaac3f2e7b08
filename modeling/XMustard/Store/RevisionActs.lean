import XMustard.Store.Creation

/-!
# The writers of revisions and votes, act by act

A new revision, or a decision on a pending one, changes the revision table and the row of the
entry together: the statements in between cannot fail on a sound database.
-/

namespace GovStore

open Db Table Program Along

variable {h : Hashing} {A : String → Act → Prop} {t : Txn} {id : String} {e : Entry}

/-! ### Serving a revision -/

/-- The database with other revision rows. -/
def Db.withRevisions (db : Db) (revs : List Revision) : Db := { db with revisions := revs }

@[simp] lemma Db.entry_withRevisions (db : Db) (revs : List Revision) (i : String) :
    (db.withRevisions revs).entry i = db.entry i := rfl

variable (revs : List Revision) {x : Revision}

lemma Entry.serve_keeps (rev : Int) (digest title description : String) (tokens : List String)
    (now : Time) : KeepsKeys (Entry.serve rev digest title description tokens now) :=
  fun _ => ⟨rfl, rfl⟩

lemma Entry.checked_serve {rev : Int} {digest title description : String} {tokens : List String}
    {now : Time} (hc : e.checked) : (e.serve rev digest title description tokens now).checked := by
  simp only [Entry.checked, decide_eq_true_eq] at hc ⊢
  exact ⟨by simp [Entry.serve], Int.le_max_right _ _, hc.2.2.1, hc.2.2.2.1, hc.2.2.2.2⟩

lemma Revision.mayBecome_decide (hp : x.state = .pending) (st : RevisionState)
    (now : Time) : x.mayBecome (x.decide st now) := by
  simp only [Revision.mayBecome, Revision.decide, hp, decide_eq_true_eq]
  simp +contextual

lemma rows_overtaken (rev : Int) (now : Time) :
    rows (·.entryId) id
        (update (Revision.overtaken id rev) (Revision.decide .withdrawn now) revs)
      = Memory.withdrawBelow rev now (rows (·.entryId) id revs) := by
  rw [rows_update (f := Revision.decide .withdrawn now) fun _ _ => rfl]
  refine update_congr fun x hx => ?_
  simp [Revision.overtaken, (mem_rows.1 hx).2]

lemma rows_decided (rev : Int) (st : RevisionState) (now : Time) :
    rows (·.entryId) id
        (update (fun x => x.entryId = id ∧ x.revision = rev) (Revision.decide st now) revs)
      = Memory.decideRevision rev st now (rows (·.entryId) id revs) := by
  rw [rows_update (f := Revision.decide st now) fun _ _ => rfl]
  refine update_congr fun x hx => ?_
  simp [(mem_rows.1 hx).2]

/-- The database that serves a revision of an entry. -/
def Db.serving (db : Db) (cur : Entry) (rev : Int) (digest title description : String)
    (tokens : List String) (keys : List Nat) (now : Time) (revs : List Revision) : Db :=
  let withdrawn := Table.update (Revision.overtaken cur.id rev)
      (Revision.decide .withdrawn now) revs
  let served := (db.withRevisions withdrawn).setRow cur.id
    (Entry.serve rev digest title description tokens now)
  { served.putDedupeKeys cur.pk keys with
    anchors := Table.update (fun a => a.entryId = cur.id) clearBaseline db.anchors }

variable (env : Env)

/-- The acts that bring no condition of their own. -/
def Act.Plain : Act → Prop
  | .replace _ | .vote | .purge => False
  | _ => True

section revise

variable {act : Act} {rev : Int} {digest title description : String} {tokens : List String}
  {revs : List Revision} (hA : A e.id act) (plain : act.Plain) (he : t.db.entry e.id = some e)
  (live : e.lifecycle ≠ .purged) (howned : ∀ x ∈ revs, (t.db.entry x.entryId).isSome)
  (hothers : ∀ i ≠ e.id, rows (·.entryId) i revs = rows (·.entryId) i t.db.revisions)

include hA plain he live howned hothers

variable (revs) in
/-- Rewriting the revisions and the row of one entry is one act on it. -/
lemma StoreStep.revise {db' : Db} {f : Entry → Entry} (keeps : KeepsKeys f) (hc : (f e).checked)
    (hb : ((t.db.withRevisions revs).setRow e.id f).Beside (some e.id) db')
    (step : Memory.Step h act (t.db.recordOf e).memory
      ⟨(f e).core, rows (·.entryId) e.id revs, (t.db.recordOf e).votes⟩) :
    StoreStep h A t { t with db := db' } := fun hs => by
  have wf₁ : (t.db.withRevisions revs).Wf := by
    refine ⟨hs.wf.ids, hs.wf.named, hs.wf.pks, hs.wf.checked, howned, hs.wf.votesOwned, ?_⟩
    exact fun ev hev => ⟨(hs.wf.events ev hev).redacted, (hs.wf.events ev hev).disjoint⟩
  have he₁ : (t.db.withRevisions revs).entry e.id = some e := he
  have wf₂ := wf₁.setRow keeps he₁ hc
  have hrow : db'.entry e.id = some (f e) := by
    rw [hb.aside.entry, entry_setRow_self keeps he₁]
  refine ⟨hb.aside.wf wf₂ hb.events, fun _ hcov => hcov, .one e.id act (t.db.recordOf e)
    (db'.recordOf (f e)) hA (record_of_entry he) (record_of_entry hrow) ?_ ⟨live, ?_, ?_⟩ ?_ ?_⟩
  · intro i hi
    rw [hb.record wf₂ (by simpa using hi)]
    simp only [Db.record, entry_setRow_ne keeps hi, entry_withRevisions]
    refine Option.map_congr fun e' he' => ?_
    have := hothers i hi
    rw [← (entry_mem he').2] at this
    simp only [Db.recordOf, Db.setRow, Db.withRevisions, Record.mk.injEq, and_true, true_and]
    exact this
  · rw [hb.aside.memory, recordOf_keys keeps]
    exact step
  all_goals
    intros
    subst act
    exact plain.elim

variable (step : Memory.Step h act (t.db.recordOf e).memory
  ⟨(e.serve rev digest title description tokens env.now).core,
    Memory.withdrawBelow rev env.now (rows (·.entryId) e.id revs), (t.db.recordOf e).votes⟩)

include step

/-- Serving a revision is one act together with the change of the revisions before it. -/
lemma StoreStep.serving {keys : List Nat} :
    StoreStep h A t
      { t with db := t.db.serving e rev digest title description tokens keys env.now revs } :=
  fun hs => by
  have keeps := Entry.serve_keeps rev digest title description tokens env.now
  refine StoreStep.revise
    (update (Revision.overtaken e.id rev) (Revision.decide .withdrawn env.now) revs)
    hA plain he live ?_ ?_ keeps (Entry.checked_serve (hs.wf.checked e (entry_mem he).1))
    ⟨⟨rfl, rfl, rfl⟩, fun _ => .inl, fun wf e' he' hne => ?_⟩ ?_ hs
  · exact forall_mem_update howned fun _ h => h
  · intro i hi
    rw [← hothers i hi]
    refine rows_update_of_ne (f := Revision.decide .withdrawn env.now) (fun _ _ => rfl)
      fun x hx => ?_
    simp only [Revision.overtaken, decide_eq_true_eq] at hx
    rw [hx.1]
    exact hi.symm
  · have hid : e.id ≠ e'.id := fun heq => hne (congrArg some heq.symm)
    have hpk : e.pk ≠ e'.pk := fun hpk =>
      hid (wf.id_of_pk (entry_setRow_self keeps he) (entry_of_mem wf he') hpk)
    simp only [Db.serving, Db.putDedupeKeys, Db.recordOf, Db.setRow, Db.withRevisions,
      Record.mk.injEq, true_and]
    refine ⟨?_, ?_⟩
    · exact rows_update_other hid fun _ => rfl
    · rw [rows_append, rows_delete_other hpk]
      simp [rows, hpk]
  · rw [rows_overtaken]
    exact step

lemma serveRevision_along {content : String} (hatt : A e.id .attach) (hs : t.db.Sound h)
    (a : Actor) :
    Along (StoreStep h A) t { t with db := t.db.withRevisions revs }
      (serveRevision env e rev title description content digest tokens a)
      fun _ t' => t'.LiveAt e.id := by
  have he' : (t.db.withRevisions revs).entry e.id = some e := he
  have keeps := Entry.serve_keeps rev digest title description tokens env.now
  have hrow := updateEntry_ok (w := true)
    (f := Entry.serve rev digest title description tokens env.now) he'
    (Entry.checked_serve (hs.wf.checked e (entry_mem he).1))
    (by simp [Db.peerShortfall, Entry.serve])
  refine bind_ok (execDb_apply hrow) ?_
  iterate 2 refine bind_write ?_
  refine bind_ok rfl ?_
  refine bind_ok (execDb_apply (updateRevisions_eq_ok.2 ⟨fun x _ hx => ?_, rfl⟩)) ?_
  · simp only [Revision.overtaken, decide_eq_true_eq] at hx
    exact Revision.mayBecome_decide hx.2.1 .withdrawn env.now
  let t₁ : Txn := { t with db := t.db.serving e rev digest title description tokens
                                    (env.postings e.workspaceId content) env.now revs }
  have hstep : StoreStep h A t t₁ := .serving env hA plain he live howned hothers step
  refine Along.restart (.single hstep) ?_
  have he₁ : t₁.db.entry e.id = some (e.serve rev digest title description tokens env.now) :=
    entry_setRow_self keeps he'
  have : Attachable A e.id (e.serve rev digest title description tokens env.now) := ⟨hatt, live⟩
  exact (Side.bind.along t₁ he₁).conseq fun _ t₂ aside => ⟨_, (aside.entry e.id).trans he₁, live⟩

end revise

/-! ### New revisions -/

variable (i : RevisionInput) {db : Db}

instance reads_validateRevision : Reads (validateRevision i) := by
  unfold validateRevision
  split <;> infer_instance

lemma principalKey_trimSpace (p : String) : principalKey (Text.trimSpace p) = principalKey p := by
  rw [principalKey, principalKey, Text.trimSpace_trimSpace]

lemma written_newRevision (op : RevisionOp) (next : Int) (title description : String) (a : Actor) :
    Memory.Written env.toHashing i.entryId i.baseRevision
      (newRevision env i op next title description a) :=
  ⟨rfl, rfl, (principalKey_trimSpace a.principal).symm, i.content, rfl, rfl⟩

instance entryId_demoteEvent [hid : Fact (e.id = id)] (rev : Int) (digest : String) :
    Fact ((demoteEvent e rev digest).entryId = id) := hid

lemma Db.nextRevision_eq (db : Db) (e : Entry) :
    db.nextRevision e.id = (db.recordOf e).memory.nextRevision := rfl

/-- The number of the next revision is free. -/
lemma Db.Sound.revisionRow_next (hs : db.Sound h) (he : db.entry e.id = some e) :
    db.revisionRow e.id (db.nextRevision e.id) = none := by
  rw [Db.revisionRow, List.find?_eq_none]
  intro x hx
  have : x.revision < _ := (hs.chain he).revision_lt (x := x) hx
  rw [nextRevision_eq]
  simp only [decide_eq_true_eq]
  omega

/-- Which act a new revision is. -/
def RevisionInput.act : Act := if i.activate then .adopt else .propose

lemma placeRevision_along {env : Env} {i : RevisionInput}
    (hatt : A i.entryId .attach) (hA : A i.entryId i.act) (he : t.db.entry i.entryId = some e)
    (hactive : e.lifecycle = .active) (hs : t.db.Sound env.toHashing)
    (hrev : x.revision = t.db.nextRevision i.entryId)
    (hstate : x.state = if i.activate then .accepted else .pending)
    (written : Memory.Written env.toHashing i.entryId e.headRevision x) (a : Actor) :
    Along (StoreStep env.toHashing A) t
      { t with db := t.db.withRevisions (t.db.revisions ++ [x]) } (placeRevision env i e x a)
      fun _ t' => t'.LiveAt i.entryId := by
  have hid : e.id = i.entryId := (entry_mem he).2
  rw [← hid] at he hatt hA hrev written ⊢
  have live : e.lifecycle ≠ .purged := by simp [hactive]
  have chain := hs.chain he
  have howned : ∀ y ∈ t.db.revisions ++ [x], (t.db.entry y.entryId).isSome := by
    intro y hy
    rcases List.mem_append.1 hy with hy | hy
    · exact hs.wf.revisionsOwned y hy
    · rw [List.mem_singleton.1 hy, written.1, he]
      rfl
  have hothers : ∀ j ≠ e.id, rows (·.entryId) j (t.db.revisions ++ [x])
      = rows (·.entryId) j t.db.revisions := by
    intro j hj
    refine rows_append_other ?_
    rw [written.1]
    exact hj.symm
  have hrows : rows (·.entryId) e.id (t.db.revisions ++ [x])
      = (t.db.recordOf e).revisions ++ [x] := rows_append_same written.1
  unfold placeRevision
  unfold RevisionInput.act at hA
  split_ifs at hA hstate ⊢ with hact
  · refine serveRevision_along env hA trivial he live howned hothers ?_ hatt hs a
    rw [hrows]
    exact .adopt _ x env.now hactive hrev hstate written
  · have he' : (t.db.withRevisions (t.db.revisions ++ [x])).entry e.id = some e := he
    have keeps : KeepsKeys (Entry.moveHead x.revision env.now) := fun _ => ⟨rfl, rfl⟩
    have hc : (e.moveHead x.revision env.now).checked := by
      have := hs.wf.checked e (entry_mem he).1
      simp only [Entry.checked, decide_eq_true_eq] at this ⊢
      refine ⟨this.1, ?_, this.2.2⟩
      have hlt : e.revision < t.db.nextRevision e.id := chain.served_lt
      simp only [Entry.moveHead, hrev]
      omega
    have hrow := updateEntry_ok (w := false) (f := Entry.moveHead x.revision env.now) he' hc
      (by simp)
    rw [← hid]
    refine of_ok (execDb_apply hrow) (.single ?_)
      ⟨_, entry_setRow_self keeps he', live⟩
    refine StoreStep.revise _ hA trivial he live howned hothers keeps hc (.refl _) ?_
    rw [hrows]
    exact .propose _ x hactive hrev hstate written

theorem appendRevision_governed (a : Actor) (hatt : A i.entryId .attach) (hA : A i.entryId i.act) :
    Governed env.toHashing A (appendRevision env i a) := by
  refine .validated fun t => ?_
  refine bind_reads fun op _ => ?_
  refine along_getEntry fun cur he => ?_
  refine bind_ensure fun hactive => ?_
  refine bind_ensure fun hbase => ?_
  refine along_getRevision fun base _ => ?_
  refine bind_ensure fun _ => ?_
  refine bind_ensure fun _ => ?_
  refine along_of_sound (by simp) fun hs => ?_
  have hid : cur.id = i.entryId := (entry_mem he).2
  refine bind_ok rfl ?_
  refine bind_ok (execDb_apply (insertRevision_eq_ok.2 ⟨?_, ?_, ⟨cur, he⟩, rfl⟩)) ?_
  · have := hs.revisionRow_next (hid.symm ▸ he)
    rwa [hid] at this
  · have := (hs.chain he).nextRevision
    rw [← nextRevision_eq, hid] at this
    simp only [newRevision]
    omega
  refine bind_of (placeRevision_along hatt hA he hactive hs rfl rfl
    (hbase ▸ written_newRevision ..) a) fun _ t₁ _ ⟨e₁, he₁, live₁⟩ => ?_
  have : Attachable A i.entryId e₁ := ⟨hatt, live₁⟩
  have := Fact.mk hid
  exact along_last he₁

/-! ### Decisions on pending revisions -/

lemma Db.revisionRow_eq_some {rev : Int}
    (hx : db.revisionRow e.id rev = some x) : x ∈ (db.recordOf e).revisions ∧ x.revision = rev :=
  ⟨List.mem_of_find?_eq_some hx, by simpa using List.find?_some hx⟩

/-- The decision on a revision touches no other entry. -/
lemma Db.Sound.decide (hs : db.Sound h) (id : String) (rev : Int) (st : RevisionState)
    (now : Time) :
    (∀ y ∈ Table.update (fun x => x.entryId = id ∧ x.revision = rev) (Revision.decide st now)
      db.revisions, (db.entry y.entryId).isSome)
    ∧ ∀ j ≠ id, rows (·.entryId) j (Table.update (fun x => x.entryId = id ∧ x.revision = rev)
      (Revision.decide st now) db.revisions) = rows (·.entryId) j db.revisions := by
  constructor
  · exact forall_mem_update hs.wf.revisionsOwned fun _ h => h
  · intro j hj
    refine rows_update_of_ne (f := Revision.decide st now) (fun _ _ => rfl) fun x hx => ?_
    simp only [decide_eq_true_eq] at hx
    rw [hx.1]
    exact hj.symm

/-- The schema lets a pending revision be decided. -/
lemma Db.Sound.updateRevisions_decide (hs : db.Sound h) (he : db.entry e.id = some e)
    (hx : x ∈ (db.recordOf e).revisions) (hp : x.state = .pending)
    (st : RevisionState) (now : Time) :
    db.updateRevisions (fun y => y.entryId = e.id ∧ y.revision = x.revision)
        (Revision.decide st now)
      = .ok (db.withRevisions (Table.update (fun y => y.entryId = e.id ∧ y.revision = x.revision)
          (Revision.decide st now) db.revisions)) := by
  refine updateRevisions_eq_ok.2 ⟨fun y hy hyx => ?_, rfl⟩
  simp only [decide_eq_true_eq] at hyx
  have : y = x := (hs.chain he).eq_of_revision (mem_rows.2 ⟨hy, hyx.1⟩) hx hyx.2
  exact Revision.mayBecome_decide (this ▸ hp) st now

theorem acceptRevision_governed (i : AcceptInput) (a : Actor)
    (hatt : A i.entryId .attach) (hA : A i.entryId .accept) :
    Governed h A (acceptRevision env i a) := by
  refine .validated fun t => ?_
  refine along_getEntry fun cur he => ?_
  refine bind_ensure fun hactive => ?_
  refine along_getRevision fun rv hrv => ?_
  refine bind_ensure fun hpend => ?_
  refine along_of_sound (by simp) fun hs => ?_
  have hid : cur.id = i.entryId := (entry_mem he).2
  rw [← hid] at he hrv hatt hA ⊢
  obtain ⟨hmem, hnum⟩ := revisionRow_eq_some hrv
  have live : cur.lifecycle ≠ .purged := by simp [hactive]
  have hdec := hs.updateRevisions_decide he hmem hpend.1 .accepted env.now
  rw [hnum] at hdec
  obtain ⟨howned, hothers⟩ := hs.decide cur.id i.revision .accepted env.now
  refine bind_ok (execDb_apply hdec) ?_
  refine bind_of (serveRevision_along env hA trivial he live howned hothers ?_ hatt hs a)
    fun _ t₁ _ ⟨e₁, he₁, live₁⟩ => ?_
  · rw [rows_decided, ← hnum]
    exact .accept _ rv env.now hactive hmem hpend.1 (hnum.trans hpend.2)
  have : Attachable A cur.id e₁ := ⟨hatt, live₁⟩
  exact along_last he₁

theorem rejectRevision_governed (revision : Int) (reason : String) (a : Actor)
    (hatt : A id .attach) (hA : A id .reject) :
    Governed h A (rejectRevision env id revision reason a) := by
  refine .validated fun t => ?_
  refine along_liveEntry fun cur he live => ?_
  obtain rfl : cur.id = id := (entry_mem he).2
  refine along_getRevision fun rv hrv => ?_
  refine bind_ensure fun hpend => ?_
  refine along_of_sound (by simp) fun hs => ?_
  obtain ⟨hmem, rfl⟩ := revisionRow_eq_some hrv
  obtain ⟨howned, hothers⟩ := hs.decide cur.id rv.revision .rejected env.now
  have hdec := hs.updateRevisions_decide he hmem hpend .rejected env.now
  refine bind_ok (execDb_apply hdec) ?_
  -- the chain after the decision says that the head may fall back
  let revs := Table.update (fun y => y.entryId = cur.id ∧ y.revision = rv.revision)
    (Revision.decide .rejected env.now) t.db.revisions
  let pending := (t.db.withRevisions revs).newestPending cur.id
  have keeps : KeepsKeys (Entry.fallBack pending env.now) := fun _ => ⟨rfl, rfl⟩
  have step : Memory.Step h .reject (t.db.recordOf cur).memory
      ⟨(cur.fallBack pending env.now).core, rows (·.entryId) cur.id revs,
        (t.db.recordOf cur).votes⟩ :=
    .reject _ rv env.now hmem hpend _ (rows_decided _ _ _ _) rfl rfl
  have hc : (cur.fallBack pending env.now).checked := by
    have chain := ((hs.chain he).step live step).revision_le_head
    have := hs.wf.checked cur (entry_mem he).1
    simp only [Entry.checked, decide_eq_true_eq] at this ⊢
    exact ⟨this.1, chain, this.2.2⟩
  have he' : (t.db.withRevisions revs).entry cur.id = some cur := he
  have hrow := updateEntry_ok (w := false) (f := Entry.fallBack pending env.now) he' hc (by simp)
  let db₁ := (t.db.withRevisions revs).setRow cur.id (Entry.fallBack pending env.now)
  have hstep : StoreStep h A t { t with db := db₁ } :=
    .revise _ hA trivial he live howned hothers keeps hc (.refl _) step
  refine bind_ok (execDb_apply hrow) (Along.restart (.single hstep) ?_)
  have : Attachable A cur.id (cur.fallBack pending env.now) := ⟨hatt, live⟩
  exact along_last (entry_setRow_self keeps he')

end GovStore
