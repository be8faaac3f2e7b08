import Mathlib.Data.List.Basic
import Mathlib.Order.Lattice

/-!
# Tables as row lists

The row-level effect of the SQL statements that write a table, and how a table splits by a key
column: the row of a unique key, and the group of rows that share a key. A statement whose
`WHERE` clause pins the key of a group leaves every other group as it was.
-/

namespace Table

open List

variable {ρ κ : Type} [DecidableEq κ]

variable (p : ρ → Bool)

/-- `UPDATE t SET r = f r WHERE p r`. -/
def update (f : ρ → ρ) (t : List ρ) : List ρ :=
  t.map fun r => if p r then f r else r

/-- `DELETE FROM t WHERE p r`. -/
def delete (t : List ρ) : List ρ := t.filter fun r => !p r

/-- The first row whose key is `k`. -/
def row (key : ρ → κ) (k : κ) (t : List ρ) : Option ρ := t.find? fun r => key r = k

/-- The rows whose key is `k`. -/
def rows (key : ρ → κ) (k : κ) (t : List ρ) : List ρ := t.filter fun r => key r = k

/-- `INSERT … ON CONFLICT DO UPDATE`: rows satisfying `p` are updated, else `new` is added. -/
def upsert (f : ρ → ρ) (new : ρ) (t : List ρ) : List ρ :=
  if t.any p then update p f t else t ++ [new]

/-! ### Updates -/

variable {p q : ρ → Bool} {f : ρ → ρ} {t : List ρ} {r : ρ}

lemma mem_update : r ∈ update p f t ↔ ∃ r₀ ∈ t, (if p r₀ then f r₀ else r₀) = r := by
  simp [update]

lemma mem_update_cases (h : r ∈ update p f t) :
    (∃ r₀ ∈ t, p r₀ ∧ r = f r₀) ∨ (r ∈ t ∧ p r = false) := by
  obtain ⟨r₀, hr₀, rfl⟩ := mem_update.1 h
  by_cases hp : p r₀
  · exact .inl ⟨r₀, hr₀, hp, by simp [hp]⟩
  · exact .inr ⟨by simpa [hp] using hr₀, by simp [hp]⟩

lemma forall_mem_update {P : ρ → Prop} (h : ∀ r ∈ t, P r) (hf : ∀ r, P r → P (f r)) :
    ∀ r ∈ update p f t, P r := by
  intro r hr
  rcases mem_update_cases hr with ⟨r₀, hr₀, -, rfl⟩ | ⟨hr, -⟩
  · exact hf r₀ (h r₀ hr₀)
  · exact h r hr

/-- An update that keeps a column keeps the column as a whole. -/
lemma map_update {β : Type} {g : ρ → β}
    (hf : ∀ r ∈ t, p r → g (f r) = g r) : (update p f t).map g = t.map g := by
  simp only [update, map_map]
  refine map_congr_left fun r hr => ?_
  simp only [Function.comp_apply]
  split
  · next hp => exact hf r hr hp
  · rfl

lemma update_eq_self (h : ∀ r ∈ t, p r = false) :
    update p f t = t := by
  conv_rhs => rw [← map_id t]
  exact map_congr_left fun r hr => by simp [h r hr]

lemma update_congr (h : ∀ r ∈ t, p r = q r) : update p f t = update q f t :=
  map_congr_left fun r hr => by rw [h r hr]

/-- Two updates that write the same, the second to rows that the first leaves out. -/
lemma update_update (h : ∀ r, p r → q (f r) = false) (t : List ρ) :
    update q f (update p f t) = update (fun r => p r || q r) f t := by
  rw [update, update, map_map]
  refine map_congr_left fun r _ => ?_
  by_cases hp : p r
  · simp [hp, h r hp]
  · simp [hp]

/-! ### The row of a key -/

section row

variable {key : ρ → κ} {k : κ} {t : List ρ} {r : ρ}

lemma row_eq_some (h : row key k t = some r) : r ∈ t ∧ key r = k :=
  ⟨mem_of_find?_eq_some h, by simpa using List.find?_some h⟩

lemma row_of_mem (hk : (t.map key).Nodup) (hr : r ∈ t) : row key (key r) t = some r := by
  induction t with
  | nil => cases hr
  | cons x xs ih =>
    rw [map_cons, nodup_cons] at hk
    rcases mem_cons.1 hr with rfl | hr'
    · simp [row]
    · have hne : key x ≠ key r := fun h => hk.1 (h ▸ mem_map_of_mem hr')
      simpa [row, hne] using ih hk.2 hr'

lemma row_eq_none : row key k t = none ↔ ∀ r ∈ t, key r ≠ k := by
  simp [row]

lemma row_append (r : ρ) :
    row key k (t ++ [r]) = (row key k t).or (if key r = k then some r else none) := by
  simp only [row, List.find?_append]
  by_cases h : key r = k <;> simp [h]

lemma row_update (hf : ∀ r, p r → key (f r) = key r) :
    row key k (update p f t) = (row key k t).map fun r => if p r then f r else r := by
  induction t with
  | nil => rfl
  | cons x xs ih =>
    have hx : key (if p x then f x else x) = key x := by
      split
      · next hp => exact hf x hp
      · rfl
    by_cases h : key x = k
    · simp [row, update, hx, h]
    · simpa [row, update, hx, h] using ih

end row

/-! ### The rows of a group -/

section rows

variable {key : ρ → κ} {k : κ} {t : List ρ} {new : ρ}

lemma mem_rows : r ∈ rows key k t ↔ r ∈ t ∧ key r = k := by simp [rows]

lemma rows_append (t' : List ρ) : rows key k (t ++ t') = rows key k t ++ rows key k t' := by
  simp [rows]

@[simp] lemma rows_append_same (h : key r = k) : rows key k (t ++ [r]) = rows key k t ++ [r] := by
  simp [rows, h]

@[simp] lemma rows_append_other (h : key r ≠ k) : rows key k (t ++ [r]) = rows key k t := by
  simp [rows, h]

omit [DecidableEq κ] in
/-- A row with a new key. -/
lemma nodup_append_row (h : (t.map key).Nodup) (hr : ∀ x ∈ t, key x ≠ key r) :
    ((t ++ [r]).map key).Nodup := by
  simpa [nodup_append, h] using hr

/-- An update that keeps the key acts on each group by itself. -/
lemma rows_update (hf : ∀ r, p r → key (f r) = key r) :
    rows key k (update p f t) = update p f (rows key k t) := by
  induction t with
  | nil => rfl
  | cons x xs ih =>
    have hx : key (if p x then f x else x) = key x := by
      split
      · next hp => exact hf x hp
      · rfl
    simp only [rows, update, map_cons, filter_cons] at ih ⊢
    by_cases h : key x = k
    · simp [hx, h, ih]
    · simp [hx, h, ih]

lemma rows_update_of_ne (hf : ∀ r, p r → key (f r) = key r)
    (hp : ∀ r, p r → key r ≠ k) : rows key k (update p f t) = rows key k t := by
  rw [rows_update hf]
  refine update_eq_self fun r hr => ?_
  by_contra hpr
  exact hp r (by simpa using hpr) (mem_rows.1 hr).2

lemma rows_update_other {k' : κ} (hk : k' ≠ k) (hf : ∀ r, key (f r) = key r) :
    rows key k (update (fun r => key r = k') f t) = rows key k t :=
  rows_update_of_ne (fun r _ => hf r) fun r hr => by rwa [of_decide_eq_true hr]

/-- An update of a whole group. -/
lemma rows_update_self (hf : ∀ r, key (f r) = key r) :
    rows key k (update (fun r => key r = k) f t) = (rows key k t).map f := by
  rw [rows_update fun r _ => hf r]
  refine map_congr_left fun r hr => ?_
  simp [(mem_rows.1 hr).2]

/-- An upsert into one group acts on it by itself. -/
lemma rows_upsert (hp : ∀ r, p r → key r = k)
    (hf : ∀ r, p r → key (f r) = key r) (hnew : key new = k) :
    rows key k (upsert p f new t) = upsert p f new (rows key k t) := by
  have hany : (rows key k t).any p = t.any p := by
    simp only [rows, any_filter]
    congr 1
    funext r
    by_cases hpr : p r
    · simp [hpr, hp r hpr]
    · simp [hpr]
  unfold upsert
  rw [hany]
  split
  · exact rows_update hf
  · exact rows_append_same hnew

lemma rows_upsert_of_ne (hp : ∀ r, p r → key r ≠ k)
    (hf : ∀ r, p r → key (f r) = key r) (hnew : key new ≠ k) :
    rows key k (upsert p f new t) = rows key k t := by
  unfold upsert
  split
  · exact rows_update_of_ne hf hp
  · exact rows_append_other hnew

lemma rows_delete (p : ρ → Bool) : rows key k (delete p t) = delete p (rows key k t) := by
  simp [rows, delete, filter_filter, Bool.and_comm]

lemma rows_delete_of_ne (hp : ∀ r, p r → key r ≠ k) :
    rows key k (delete p t) = rows key k t := by
  rw [rows_delete, delete, filter_eq_self]
  intro r hr
  by_contra hpr
  exact hp r (by simpa using hpr) (mem_rows.1 hr).2

lemma rows_delete_other {k' : κ} (hk : k' ≠ k) :
    rows key k (delete (fun r => key r = k') t) = rows key k t :=
  rows_delete_of_ne fun r hr => by rwa [of_decide_eq_true hr]

/-- Deleting a group leaves none of its rows. -/
lemma rows_delete_self : rows key k (delete (fun r => key r = k) t) = [] := by
  simp [rows, delete, filter_filter]

end rows

/-! ### Numbered columns -/

lemma le_foldr_max {α : Type} [LinearOrder α] {l : List α} {a b : α} (hb : b ∈ l) :
    b ≤ l.foldr max a := by
  induction l with
  | nil => cases hb
  | cons c l ih =>
    rcases mem_cons.1 hb with rfl | hb
    · exact le_max_left _ _
    · exact (ih hb).trans (le_max_right _ _)

/-- The column holds the numbers 1, 2, … in row order. -/
def Numbered (ns : List Int) : Prop := ns = (List.range ns.length).map fun i : Nat => (i : Int) + 1

namespace Numbered

variable {ns : List Int}

lemma mem (h : Numbered ns) {n : Int} : n ∈ ns ↔ 1 ≤ n ∧ n ≤ ns.length := by
  rw [h]
  simp only [mem_map, mem_range, length_map, length_range]
  constructor
  · rintro ⟨i, hi, rfl⟩
    omega
  · rintro ⟨h₁, h₂⟩
    exact ⟨(n - 1).toNat, by omega, by omega⟩

lemma nodup (h : Numbered ns) : ns.Nodup := by
  rw [h, List.Nodup, pairwise_map]
  refine nodup_range.imp fun hij heq => hij ?_
  omega

lemma append (h : Numbered ns) : Numbered (ns ++ [(ns.length : Int) + 1]) := by
  unfold Numbered
  simp only [length_append, length_singleton, range_succ, map_append,
    map_singleton]
  rw [← h]

/-- The last number of a numbered column is its length. -/
lemma foldr_max (h : Numbered ns) : ns.foldr max 0 = ns.length := by
  refine Int.le_antisymm ?_ ?_
  · have bound : ∀ l : List Int, (∀ n ∈ l, n ≤ ns.length) → l.foldr max 0 ≤ ns.length := by
      intro l hl
      induction l with
      | nil => simp
      | cons a l ih =>
        have := hl a mem_cons_self
        have := ih fun n hn => hl n (mem_cons_of_mem a hn)
        simp only [foldr_cons]
        omega
    exact bound ns fun n hn => (h.mem.1 hn).2
  · rcases Nat.eq_zero_or_pos ns.length with h₀ | h₀
    · rw [length_eq_zero_iff.1 h₀]
      simp
    · exact le_foldr_max (h.mem.2 ⟨by omega, Int.le_refl _⟩)

end Numbered

end Table
