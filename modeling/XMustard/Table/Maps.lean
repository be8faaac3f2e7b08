import XMustard.Table.Basic

/-!
# Maps filled from rows

What a loop over the rows of a query leaves in a map: the rows of each key, the last row of each
key, or what the first row of each key says. Filling a map from several queries in turn is filling
it from all their rows.
-/

namespace Table

open List

variable {ρ κ β : Type} [DecidableEq κ] (key : ρ → κ)

/-- Append every row to the list under its key. -/
def collect (m : κ → Option (List ρ)) (rs : List ρ) : κ → Option (List ρ) :=
  rs.foldl (fun m r => Function.update m (key r) (some ((m (key r)).getD [] ++ [r]))) m

/-- Store every row under its key; a later row replaces an earlier one. -/
def index (m : κ → Option ρ) (rs : List ρ) : κ → Option ρ :=
  rs.foldl (fun m r => Function.update m (key r) (some r)) m

/-- One row of a loop that lets the first row of each key decide: the keys seen, and the map. -/
def seeRow (val : ρ → Option β) (s : List κ × (κ → Option β)) (r : ρ) :
    List κ × (κ → Option β) :=
  if key r ∈ s.1 then s
  else (key r :: s.1, match val r with
    | some v => Function.update s.2 (key r) (some v)
    | none => s.2)

/-- Store what the first row of each key says, if it says anything. -/
def firstSeen (val : ρ → Option β) (m : κ → Option β) (rs : List ρ) : κ → Option β :=
  (rs.foldl (seeRow key val) ([], m)).2

variable {key} {m : κ → Option ρ} {rs : List ρ}

lemma collect_getD (m : κ → Option (List ρ)) (rs : List ρ) (k : κ) :
    (collect key m rs k).getD [] = (m k).getD [] ++ rows key k rs := by
  induction rs generalizing m with
  | nil => simp [collect, rows]
  | cons r rs ih =>
    have hstep := ih (Function.update m (key r) (some ((m (key r)).getD [] ++ [r])))
    refine hstep.trans ?_
    by_cases hk : key r = k
    · subst hk
      simp [rows]
    · rw [Function.update_of_ne (Ne.symm hk)]
      simp [rows, hk]

lemma index_of_ne {k : κ} (h : ∀ r ∈ rs, key r ≠ k) : index key m rs k = m k := by
  induction rs generalizing m with
  | nil => rfl
  | cons r rs ih =>
    refine (ih fun r' hr' => h r' (mem_cons_of_mem r hr')).trans ?_
    exact Function.update_of_ne (h r mem_cons_self).symm _ _

/-- Rows that agree under a key leave that row there. -/
lemma index_eq_some {k : κ} {x : ρ}
    (h : ∀ r ∈ rs, key r = k → r = x) (hx : (∃ r ∈ rs, key r = k) ∨ m k = some x) :
    index key m rs k = some x := by
  induction rs generalizing m with
  | nil => exact hx.resolve_left nofun
  | cons r rs ih =>
    rw [index, foldl_cons]
    refine ih (fun r' hr' => h r' (mem_cons_of_mem r hr')) ?_
    by_cases hk : key r = k
    · right
      rw [← hk, Function.update_self, h r mem_cons_self hk]
    · rw [Function.update_of_ne (Ne.symm hk)]
      refine hx.imp_left ?_
      rintro ⟨r', hr', hk'⟩
      rcases mem_cons.1 hr' with rfl | hr'
      · exact absurd hk' hk
      · exact ⟨r', hr', hk'⟩

section firstSeen

variable {val : ρ → Option β} {s : List κ × (κ → Option β)} {k : κ} {r : ρ}

lemma seeRow_of_ne (h : key r ≠ k) : (seeRow key val s r).2 k = s.2 k := by
  unfold seeRow
  split
  · rfl
  · cases val r with
    | none => rfl
    | some v => exact Function.update_of_ne h.symm _ _

lemma mem_seeRow : k ∈ (seeRow key val s r).1 ↔ k ∈ s.1 ∨ key r = k := by
  unfold seeRow
  split
  · rename_i hmem
    exact ⟨.inl, fun h => h.elim id fun hk => hk ▸ hmem⟩
  · rw [mem_cons, or_comm, eq_comm]

/-- Once a key is seen, its value stays. -/
lemma foldl_seeRow_of_seen (hk : k ∈ s.1) (rs : List ρ) :
    (rs.foldl (seeRow key val) s).2 k = s.2 k := by
  induction rs generalizing s with
  | nil => rfl
  | cons r rs ih =>
    rw [foldl_cons, ih (mem_seeRow.2 (.inl hk))]
    by_cases hr : key r = k
    · rw [seeRow, if_pos (hr ▸ hk)]
    · exact seeRow_of_ne hr

lemma foldl_seeRow (hk : k ∉ s.1) (rs : List ρ) :
    (rs.foldl (seeRow key val) s).2 k = ((row key k rs).bind val).or (s.2 k) := by
  induction rs generalizing s with
  | nil => rfl
  | cons r rs ih =>
    rw [foldl_cons]
    by_cases hr : key r = k
    · rw [foldl_seeRow_of_seen (mem_seeRow.2 (.inr hr)), seeRow, if_neg (hr ▸ hk)]
      subst hr
      cases hval : val r <;> simp [row, hval]
    · have hk' : k ∉ (seeRow key val s r).1 := fun hmem => (mem_seeRow.1 hmem).elim hk hr
      rw [ih hk', seeRow_of_ne hr]
      simp [row, hr]

lemma firstSeen_apply (m : κ → Option β) (rs : List ρ) (k : κ) :
    firstSeen key val m rs k = ((row key k rs).bind val).or (m k) :=
  foldl_seeRow (s := ([], m)) nofun rs

end firstSeen

/-! ### Several queries in turn -/

variable {γ : Type} (f : γ → List ρ) (cs : List γ)

lemma foldl_collect (m : κ → Option (List ρ)) :
    cs.foldl (fun m c => collect key m (f c)) m = collect key m (cs.flatMap f) := by
  induction cs generalizing m with
  | nil => rfl
  | cons c cs ih => rw [foldl_cons, ih, flatMap_cons, collect, collect, collect,
      foldl_append]

lemma foldl_index (m : κ → Option ρ) :
    cs.foldl (fun m c => index key m (f c)) m = index key m (cs.flatMap f) := by
  induction cs generalizing m with
  | nil => rfl
  | cons c cs ih => rw [foldl_cons, ih, flatMap_cons, index, index, index,
      foldl_append]

/-- Queries that agree on the row of a key leave there what that row says. -/
lemma foldl_firstSeen {val : ρ → Option β} {k : κ} {o : Option ρ}
    (h : ∀ c ∈ cs, row key k (f c) = none ∨ row key k (f c) = o)
    (ho : ∃ c ∈ cs, row key k (f c) = o) :
    cs.foldl (fun m c => firstSeen key val m (f c)) (fun _ => none) k = o.bind val := by
  have hfold : ∀ m : κ → Option β, (m k = none ∨ m k = o.bind val) →
      (m k = o.bind val ∨ ∃ c ∈ cs, row key k (f c) = o) →
      cs.foldl (fun m c => firstSeen key val m (f c)) m k = o.bind val := by
    clear ho
    induction cs with
    | nil => exact fun m _ ho => ho.resolve_right nofun
    | cons c cs ih =>
      intro m hm ho
      have hrest : ∀ c' ∈ cs, row key k (f c') = none ∨ row key k (f c') = o := fun c' hc' =>
        h c' (mem_cons_of_mem c hc')
      have hstep : firstSeen key val m (f c) k = _ := firstSeen_apply m (f c) k
      by_cases hc : row key k (f c) = o
      · have hval : firstSeen key val m (f c) k = o.bind val := by
          rw [hstep, hc]
          cases hv : o.bind val with
          | some v => rfl
          | none => simpa [hv] using hm
        exact ih hrest _ (.inr hval) (.inl hval)
      · rw [(h c mem_cons_self).resolve_right hc] at hstep
        rw [foldl_cons]
        refine ih hrest _ (by rwa [hstep]) ?_
        rw [hstep]
        refine ho.imp_right ?_
        rintro ⟨c', hc', hrow⟩
        rcases mem_cons.1 hc' with rfl | hc'
        · exact absurd hrow hc
        · exact ⟨c', hc', hrow⟩
  exact hfold _ (.inl rfl) (.inr ho)

end Table
