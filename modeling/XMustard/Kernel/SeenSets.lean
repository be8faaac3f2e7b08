import Mathlib.Algebra.Order.Ring.Int
import Mathlib.Data.List.AList
import Mathlib.Data.List.Induction
import Mathlib.Data.List.Perm.Subperm

/-!
# What a session was shown

Recall leaves out what it already returned to a session. The sets it keeps for that are bounded: old
sets are evicted, and the least recently used ones make room for what is marked. A counter follows
the entries of all sets.
-/

namespace WorkspaceOps

open List

def recallSeenTTL : Int := 30 * 60 * 1000000000

def maxSeenSessions : Nat := 1024

def maxSeenEntries : Nat := 1 <<< 16

abbrev Prints (π : Type) := AList fun _ : String => π

/-- When a set was last used, and the print of each entry shown. -/
structure SeenSet (π : Type) where
  used : Int
  shown : Prints π

structure SeenSets (κ π : Type) where
  sets : AList fun _ : κ => SeenSet π
  entries : Int

/-- The order in which a map is visited, which is any order. -/
abbrev Visits (κ π : Type) :=
  { visit : AList (fun _ : κ => SeenSet π) → List (Σ _ : κ, SeenSet π) //
  ∀ m, visit m ~ m.entries }

variable {κ π : Type} [DecidableEq κ] (s : SeenSets κ π) (visits : Visits κ π) (key k : κ)
variable (prints : Prints π)

namespace SeenSets

def drop : SeenSets κ π :=
  match s.sets.lookup k with
  | some v => ⟨s.sets.erase k, s.entries - v.shown.entries.length⟩
  | none => s

/-- Drop the sets unused for `recallSeenTTL`. -/
def evict (now : Int) : SeenSets κ π :=
  (visits.1 s.sets).foldl
    (fun s e => if e.2.used < now - recallSeenTTL then s.drop e.1 else s) s

/-- The least recently used set other than the given one, or the zero key. -/
def oldest [Inhabited κ] : κ :=
  (((visits.1 s.sets).filter fun e => e.1 ≠ key).minOn? fun e => e.2.used).elim default (·.1)

/-- The prints that a session holds for the candidates. -/
def shown (now : Int) (candidates : List String) : SeenSets κ π × Option (Prints π) :=
  let s := s.evict visits now
  (s, (s.sets.lookup key).map fun v => candidates.foldl
    (fun out id => (v.shown.lookup id).elim out fun p => out.insert id p) ∅)

/-- Write to a set through its pointer, which reaches the map while the set is in it. -/
def modify (f : SeenSet π → SeenSet π) : SeenSets κ π :=
  { s with sets := (s.sets.lookup key).elim s.sets fun v => s.sets.insert key (f v) }

/-- The entries of all sets. -/
def total : Nat := (s.sets.entries.map fun e => e.2.shown.entries.length).sum

/-- By how much the counter differs from the entries there are. -/
def surplus : Int := s.entries - s.total

abbrev sessions : Nat := s.sets.entries.length

variable {s visits key k} {v : SeenSet π}

/-- A set that is there counts for itself, beside the others. -/
lemma count_erase (h : s.sets.lookup k = some v) :
    s.total = v.shown.entries.length + total ⟨s.sets.erase k, 0⟩
      ∧ s.sessions = (s.sets.erase k).entries.length + 1 := by
  obtain ⟨b, l, r, -, hm, her⟩ := exists_of_kerase (AList.lookup_isSome.1 (h ▸ rfl) : k ∈ s.sets)
  have hb : b ∈ s.sets.lookup k := AList.mem_lookup_iff.2 (hm ▸ by simp)
  obtain rfl : b = v := Option.some_inj.1 (hb.symm.trans h)
  replace her : (s.sets.erase k).entries = l ++ r := her
  simp only [total, sessions, her, hm, map_append, map_cons, sum_append, sum_cons, length_append,
    length_cons]
  omega

lemma drop_spec : (s.drop k).surplus = s.surplus ∧ (s.drop k).sessions ≤ s.sessions
    ∧ (s.drop k).entries ≤ s.entries := by
  rw [SeenSets.drop]
  split
  next v hv =>
    have hcount := count_erase hv
    simp only [surplus, total, sessions] at hcount ⊢
    omega
  next => exact ⟨rfl, le_rfl, le_rfl⟩

variable (visits) in
lemma evict_spec (now : Int) : (s.evict visits now).surplus = s.surplus
    ∧ (s.evict visits now).sessions ≤ s.sessions ∧ (s.evict visits now).entries ≤ s.entries := by
  rw [evict]
  generalize visits.1 s.sets = l
  induction l generalizing s with
  | nil => exact ⟨rfl, le_rfl, le_rfl⟩
  | cons e l ih =>
    rw [foldl_cons]
    split
    next =>
      have hdrop := drop_spec (s := s) (k := e.1)
      have hrest := ih (s := s.drop e.1)
      omega
    next => exact ih

lemma modify_spec (f : SeenSet π → SeenSet π) (hv : s.sets.lookup key = some v) :
    (s.modify key f).sessions = s.sessions
      ∧ (s.modify key f).total + v.shown.entries.length = s.total + (f v).shown.entries.length
      ∧ (s.modify key f).sets.lookup key = some (f v) := by
  have hcount := count_erase hv
  rw [modify, hv]
  refine ⟨hcount.2.symm, ?_, AList.lookup_insert _⟩
  change (f v).shown.entries.length + total ⟨s.sets.erase key, 0⟩ + _ = _
  omega

/-- Writing prints to a set adds the entries that are new to it. -/
lemma length_union (shown : Prints π) : (prints ∪ shown).entries.length
    = shown.entries.length + (prints.keys.filter (· ∉ shown)).length := by
  have hperm : (prints ∪ shown).keys ~ shown.keys ++ prints.keys.filter (· ∉ shown) := by
    refine (perm_ext_iff_of_nodup (AList.keys_nodup _) ?_).2 fun id => ?_
    · refine nodup_append.2 ⟨AList.keys_nodup _, (AList.keys_nodup _).filter _, ?_⟩
      rintro id hid _ hid' rfl
      exact (of_decide_eq_true (mem_filter.1 hid').2 : id ∉ shown) hid
    · rw [← AList.mem_keys]
      simp [← AList.mem_keys]
      tauto
  simpa [AList.keys, List.keys] using hperm.length_eq

variable (s key) in
/-- The number of entries that are new to a set; one that would grow too large starts over. -/
def startOver : SeenSets κ π × Nat :=
  let shown := (s.sets.lookup key).elim ∅ (·.shown)
  let added := (prints.keys.filter (· ∉ shown)).length
  if maxSeenEntries < shown.entries.length + added then
    ({ s.modify key (fun v => { v with shown := ∅ }) with
        entries := s.entries - shown.entries.length }, prints.entries.length)
  else (s, added)

lemma startOver_spec (hv : s.sets.lookup key = some v) :
    (s.startOver key prints).1.surplus = s.surplus
      ∧ (s.startOver key prints).1.sessions = s.sessions
      ∧ ∃ w, (s.startOver key prints).1.sets.lookup key = some w
        ∧ (prints ∪ w.shown).entries.length = w.shown.entries.length + (s.startOver key prints).2
        ∧ (prints.entries.length ≤ maxSeenEntries →
          (prints ∪ w.shown).entries.length ≤ maxSeenEntries) := by
  rw [startOver, hv, Option.elim_some]
  split
  next hfull =>
    obtain ⟨hsessions, htotal, hlook⟩ := modify_spec (fun v => { v with shown := ∅ }) hv
    refine ⟨?_, hsessions, _, hlook, by simp, by simp⟩
    simp only [surplus, total, AList.empty_entries, length_nil] at htotal ⊢
    omega
  next hroom =>
    have hunion := length_union prints v.shown
    exact ⟨rfl, rfl, v, hv, hunion, fun _ => by omega⟩

/-! ### Marking -/

variable [Inhabited κ]

variable (visits key) in
/-- Where there are two sets, one that is not kept is dropped. -/
lemma drop_oldest (h : 1 < s.sessions) : (s.drop (s.oldest visits key)).sessions < s.sessions
    ∧ (s.drop (s.oldest visits key)).sets.lookup key = s.sets.lookup key := by
  obtain ⟨e, he, hne⟩ : ∃ e ∈ s.sets.entries, e.1 ≠ key := by
    by_contra! hall
    have hsub : s.sets.keys ⊆ [key] := fun k hk => by
      obtain ⟨e, he, rfl⟩ := mem_map.1 hk
      exact mem_singleton.2 (hall e he)
    have hlength := (subperm_of_subset s.sets.keys_nodup hsub).length_le
    rw [AList.keys, List.keys, length_map] at hlength
    exact absurd hlength h.not_ge
  obtain ⟨o, ho⟩ : ∃ o, ((visits.1 s.sets).filter fun e => e.1 ≠ key).minOn? (·.2.used) = some o :=
    Option.isSome_iff_exists.1 (List.isSome_minOn?_of_mem
      (mem_filter.2 ⟨(visits.2 _).mem_iff.2 he, by simpa using hne⟩))
  obtain ⟨hmem, hkey⟩ := mem_filter.1 (List.minOn?_mem ho)
  have hlook : s.sets.lookup o.1 = some o.2 :=
    AList.mem_lookup_iff.2 ((visits.2 _).mem_iff.1 hmem)
  have hdrop : s.drop (s.oldest visits key)
      = ⟨s.sets.erase o.1, s.entries - o.2.shown.entries.length⟩ := by
    rw [oldest, ho, SeenSets.drop, Option.elim_some, hlook]
  rw [hdrop]
  exact ⟨(count_erase hlook).2.ge,
    AList.lookup_erase_ne fun heq => of_decide_eq_true hkey heq.symm⟩

variable (s visits key)

/-- Drop sets while the entries would pass `maxSeenEntries`. -/
def makeRoom (added : Nat) (s : SeenSets κ π) : SeenSets κ π :=
  if maxSeenEntries < s.entries + added ∧ 1 < s.sessions then
    makeRoom added (s.drop (s.oldest visits key))
  else s
termination_by s.sessions
decreasing_by exact (drop_oldest visits key ‹_ ∧ _›.2).1

/-- Start a set for a session that has none, in the place of another if there are too many. -/
def seat : SeenSets κ π :=
  if key ∈ s.sets then s
  else
    let s := if maxSeenSessions ≤ s.sessions then s.drop (s.oldest visits key) else s
    { s with sets := s.sets.insert key ⟨0, ∅⟩ }

/-- Write the prints to the session's set, after making room for them. -/
def record : SeenSets κ π :=
  let r := s.startOver key prints
  let s := r.1.makeRoom visits key r.2
  { s.modify key (fun v => { v with shown := prints ∪ v.shown }) with entries := s.entries + r.2 }

def mark (evictAt markAt : Int) : SeenSets κ π :=
  if prints.entries = [] then s
  else
    let s := (s.evict visits evictAt).seat visits key
    (s.modify key fun v => { v with used := markAt }).record visits key prints

variable {s}

lemma makeRoom_spec (added : Nat) : (s.makeRoom visits key added).surplus = s.surplus
    ∧ (s.makeRoom visits key added).sessions ≤ s.sessions
    ∧ (s.makeRoom visits key added).sets.lookup key = s.sets.lookup key
    ∧ ((s.makeRoom visits key added).entries + added ≤ maxSeenEntries
      ∨ (s.makeRoom visits key added).sessions ≤ 1) := by
  fun_induction makeRoom visits key added s with
  | case1 s hfull ih =>
    obtain ⟨hsurplus, hle, hlook, hroom⟩ := ih
    exact ⟨hsurplus.trans drop_spec.1, hle.trans drop_spec.2.1,
      hlook.trans (drop_oldest visits key hfull.2).2, hroom⟩
  | case2 s hroom => exact ⟨rfl, le_rfl, rfl, by omega⟩

lemma seat_spec (hs : s.sessions ≤ maxSeenSessions) : (s.seat visits key).surplus = s.surplus
    ∧ (s.seat visits key).sessions ≤ maxSeenSessions
    ∧ ∃ v, (s.seat visits key).sets.lookup key = some v := by
  have hcreate {t : SeenSets κ π} (ht : t.sets.lookup key = none) :
      surplus ⟨t.sets.insert key ⟨0, ∅⟩, t.entries⟩ = t.surplus
        ∧ sessions ⟨t.sets.insert key ⟨0, ∅⟩, t.entries⟩ = t.sessions + 1 := by
    rw [AList.insert_of_notMem (AList.lookup_eq_none.1 ht)]
    simp [surplus, total, sessions]
  rw [seat]
  split
  next hkey => exact ⟨rfl, hs, Option.isSome_iff_exists.1 (AList.lookup_isSome.2 hkey)⟩
  next hkey =>
    rw [← AList.lookup_eq_none] at hkey
    dsimp only
    split
    next hfull =>
      obtain ⟨hlt, hlook⟩ := drop_oldest visits key (lt_of_lt_of_le (by decide) hfull)
      obtain ⟨hsurplus, hsessions⟩ := hcreate (hlook.trans hkey)
      exact ⟨hsurplus.trans drop_spec.1, by omega, _, AList.lookup_insert _⟩
    next hfull =>
      obtain ⟨hsurplus, hsessions⟩ := hcreate hkey
      exact ⟨hsurplus, by omega, _, AList.lookup_insert _⟩

/-- The counter stays exact, and passes its bound only by prints that alone pass it. -/
lemma record_spec (hv : s.sets.lookup key = some v) (h : s.surplus = 0) :
    (s.record visits key prints).surplus = 0 ∧ (s.record visits key prints).sessions ≤ s.sessions
      ∧ prints.entries.length ≤ (s.record visits key prints).entries
      ∧ (prints.entries.length ≤ maxSeenEntries →
        (s.record visits key prints).entries ≤ maxSeenEntries) := by
  obtain ⟨hstart, hso, w, hw, hunion, hroom⟩ := startOver_spec prints hv
  rw [record]
  generalize s.startOver key prints = r at *
  obtain ⟨hmade, hsm, hlook, hfree⟩ := makeRoom_spec visits key (s := r.1) r.2
  generalize r.1.makeRoom visits key r.2 = m at *
  obtain ⟨hsf, htf, -⟩ := modify_spec (fun v => { v with shown := prints ∪ v.shown })
    (hlook.trans hw)
  obtain ⟨hheld, hothers⟩ := count_erase (hlook.trans hw)
  have halone (h : m.sessions ≤ 1) : total ⟨m.sets.erase key, 0⟩ = 0 := by
    have hnil : (m.sets.erase key).entries = [] := length_eq_zero_iff.1 (by omega)
    rw [total, hnil, map_nil, sum_nil]
  have hprints : prints.entries.length ≤ (prints ∪ w.shown).entries.length := by
    simpa [AList.keys, List.keys] using (subperm_of_subset prints.keys_nodup
      fun id hid => (AList.mem_union.2 (.inl hid) : id ∈ prints ∪ w.shown)).length_le
  simp only [surplus, total] at *
  refine ⟨by omega, hsf.trans_le (hsm.trans hso.le), by omega, fun hp => ?_⟩
  -- either room was made, or the session that is marked is the only one left
  rcases hfree with hfree | hlast
  · exact hfree
  · have := halone hlast
    omega

lemma mark_spec (evictAt markAt : Int) (h : s.surplus = 0) (hs : s.sessions ≤ maxSeenSessions) :
    (s.mark visits key prints evictAt markAt).surplus = 0
      ∧ (s.mark visits key prints evictAt markAt).sessions ≤ maxSeenSessions
      ∧ prints.entries.length ≤ (s.mark visits key prints evictAt markAt).entries
      ∧ (s.entries ≤ maxSeenEntries → prints.entries.length ≤ maxSeenEntries →
        (s.mark visits key prints evictAt markAt).entries ≤ maxSeenEntries) := by
  rw [mark]
  split
  next hnil => exact ⟨h, hs, by rw [surplus] at h; rw [hnil, length_nil]; omega, fun hle _ => hle⟩
  next =>
    obtain ⟨hevict, hle, -⟩ := evict_spec visits (s := s) evictAt
    obtain ⟨hseat, hseats, v, hv⟩ := seat_spec visits key (hle.trans hs)
    obtain ⟨hsu, htu, hu⟩ := modify_spec (fun v => { v with used := markAt }) hv
    obtain ⟨hexact, hrest, hprints, hbound⟩ := record_spec visits key prints hu (by
      rw [← h, ← hevict, ← hseat, surplus, Nat.add_right_cancel htu]
      rfl)
    exact ⟨hexact, hrest.trans (hsu.trans_le hseats), hprints, fun _ => hbound⟩

end SeenSets

/-! ### Runs -/

/-- A call, with the order of its map and its clock. -/
inductive SeenCall (κ π : Type)
  | shown (visits : Visits κ π) (key : κ) (now : Int) (candidates : List String)
  | mark (visits : Visits κ π) (key : κ) (prints : Prints π) (evictAt markAt : Int)

variable [Inhabited κ]

def SeenCall.run (s : SeenSets κ π) : SeenCall κ π → SeenSets κ π
  | shown visits key now candidates => (s.shown visits key now candidates).1
  | mark visits key prints evictAt markAt => s.mark visits key prints evictAt markAt

/-- The number of entries that a call marks. -/
def SeenCall.size : SeenCall κ π → Nat
  | shown .. => 0
  | mark _ _ prints _ _ => prints.entries.length

def seenAfter (calls : List (SeenCall κ π)) : SeenSets κ π := calls.foldl SeenCall.run ⟨∅, 0⟩

variable {s}

lemma SeenCall.run_spec (c : SeenCall κ π) (h : s.surplus = 0) (hs : s.sessions ≤ maxSeenSessions) :
    (c.run s).surplus = 0 ∧ (c.run s).sessions ≤ maxSeenSessions ∧ c.size ≤ (c.run s).entries
      ∧ (s.entries ≤ maxSeenEntries → c.size ≤ maxSeenEntries →
        (c.run s).entries ≤ maxSeenEntries) := by
  cases c with
  | shown visits key now candidates =>
    obtain ⟨hsurplus, hsessions, hentries⟩ := SeenSets.evict_spec visits (s := s) now
    refine ⟨hsurplus.trans h, hsessions.trans hs, ?_, fun hle _ => hentries.trans hle⟩
    rw [SeenSets.surplus] at hsurplus
    simp only [size, run, SeenSets.shown]
    omega
  | mark visits key prints evictAt markAt =>
    exact SeenSets.mark_spec visits key prints evictAt markAt h hs

lemma seenAfter_exact (calls : List (SeenCall κ π)) :
    (seenAfter calls).surplus = 0 ∧ (seenAfter calls).sessions ≤ maxSeenSessions := by
  induction calls using reverseRecOn with
  | nil => exact ⟨rfl, Nat.zero_le _⟩
  | append_singleton calls c ih =>
    rw [seenAfter, foldl_concat]
    obtain ⟨hexact, hsessions, -⟩ := c.run_spec ih.1 ih.2
    exact ⟨hexact, hsessions⟩

lemma SeenCall.size_le_entries (l : List (SeenCall κ π)) (c : SeenCall κ π) :
    c.size ≤ (seenAfter (l ++ [c])).entries := by
  rw [seenAfter, foldl_concat]
  exact (c.run_spec (seenAfter_exact l).1 (seenAfter_exact l).2).2.2.1

/-- After every call the counter is the number of entries of all sessions, and the sessions are
within their bound. The entries are within theirs exactly as long as no single call marks more. -/
theorem seen_sets_bounded_iff (calls : List (SeenCall κ π)) :
    (∀ l, l <+: calls → (seenAfter l).entries = (seenAfter l).total
      ∧ (seenAfter l).sets.entries.length ≤ maxSeenSessions)
    ∧ ((∀ l, l <+: calls → (seenAfter l).entries ≤ maxSeenEntries)
      ↔ ∀ c ∈ calls, c.size ≤ maxSeenEntries) := by
  refine ⟨fun l _ => ⟨Int.sub_eq_zero.1 (seenAfter_exact l).1, (seenAfter_exact l).2⟩,
    fun h c hc => ?_, fun h l hl => ?_⟩
  · obtain ⟨l, r, rfl⟩ := append_of_mem hc
    exact Int.ofNat_le.1 ((c.size_le_entries l).trans (h (l ++ [c]) ⟨r, by simp⟩))
  · induction l using reverseRecOn with
    | nil => exact Int.natCast_nonneg _
    | append_singleton l c ih =>
      rw [seenAfter, foldl_concat]
      exact (c.run_spec (seenAfter_exact l).1 (seenAfter_exact l).2).2.2.2
        (ih ((prefix_append ..).trans hl)) (h c (hl.subset (by simp)))

/-- One entry more than all sessions together may hold. -/
def manyPrints : Prints Unit where
  entries := (range (maxSeenEntries + 1)).map fun n => ⟨String.ofList (replicate n 'a'), ()⟩
  nodupKeys := by
    rw [NodupKeys, List.keys, List.map_map]
    refine nodup_range.map fun m n h => ?_
    simpa using congrArg length (String.ofList_injective h)

/-- A session is shown that many in one call. -/
def markMany : SeenCall Nat Unit := .mark ⟨AList.entries, fun _ => .rfl⟩ 0 manyPrints 0 0

theorem seen_sets_exceeded : maxSeenEntries < (seenAfter [markMany]).entries := by
  have hlength : markMany.size = maxSeenEntries + 1 := by
    rw [markMany, SeenCall.size, manyPrints, length_map, length_range]
  have hmarked := markMany.size_le_entries []
  rw [nil_append] at hmarked
  omega

end WorkspaceOps
