import XMustard.Evidence.Salience

/-!
# What the detection of failure evidence finds

The search confirms exactly the keywords whose window matches. A match is found that way if its
keyword is written in ASCII and the white space in it, which may be of any length, is next to the
keyword: not if it holds a form feed, and not in `exit code = 1`, where the window stops after a
bounded part of what follows the code.
-/

namespace Evidence

open List Text

variable {src b kw : Bytes} {base limit skip h k : Nat} {hits hits' : List Nat} {rest : Bytes}

/-! ### Candidates -/

/-- The keyword stands at `h`, in whatever case. -/
def Occurs (kw src : Bytes) (h : Nat) : Prop := kw <+: (src.map asciiLower).drop h

/-- The window of a keyword at `h` holds failure evidence. -/
def Confirms (src kw : Bytes) (h : Nat) : Prop :=
  ∃ w, confirmWindow src h (h + kw.length) = some w ∧ salient.found (read src w)

/-- Some keyword at `h` is confirmed. -/
def Confirmed (src : Bytes) (h : Nat) : Prop :=
  ∃ kw ∈ salientKeywords, Occurs kw src h ∧ Confirms src kw h

lemma keyword_unbordered : ∀ kw ∈ salientKeywords, ∀ k < kw.length, 0 < k → ¬kw.drop k <+: kw := by
  decide +kernel

lemma keyword_length : ∀ kw ∈ salientKeywords, 0 < kw.length ∧ kw.length ≤ 10 := by
  decide +kernel

/-- Occurrences of a keyword do not overlap. -/
lemma not_isPrefix_drop {t : Bytes} (hkw : kw ∈ salientKeywords) (h : kw <+: t) (hk : 0 < k)
    (hlt : k < kw.length) : ¬kw <+: t.drop k := by
  intro h'
  have hdrop : kw.drop k <+: t.drop k := h.drop k
  exact keyword_unbordered kw hkw k hlt hk
    (prefix_of_prefix_length_le hdrop h' (by rw [length_drop]; omega))

/-! ### The search for one keyword -/

/-- The occurrence at offset `h` of the chunk has a window, and is recorded if that matches. -/
def Settled (src : Bytes) (base : Nat) (kw : Bytes) (hits : List Nat) (h : Nat) : Prop :=
  ∃ w, confirmWindow src (base + h) (base + h + kw.length) = some w
    ∧ (salient.found (read src w) → h ∈ hits)

lemma Settled.mono (h : Settled src base kw hits k) (hsub : hits ⊆ hits') :
    Settled src base kw hits' k := by
  obtain ⟨w, hw, hfound⟩ := h
  exact ⟨w, hw, fun h => hsub (hfound h)⟩

/-- How a search from `hits` may end. What it records is `P`; if it runs to its end the hits are
`C`omplete, and otherwise there are enough. -/
def Ends (P : Nat → Prop) (C : List Nat → Prop) (limit : Nat) (hits : List Nat) :
    Except Halt (List Nat) → Prop
  | .ok out => hits ⊆ out ∧ (∀ x ∈ out, x ∈ hits ∨ P x) ∧ C out
  | .error (.enough out) => (∀ x ∈ out, x ∈ hits ∨ P x) ∧ limit ≤ out.length ∧ out ≠ []
  | .error .separatorRun => True

variable {P Q : Nat → Prop} {C D : List Nat → Prop}

/-- A search goes on after it has recorded something. -/
lemma Ends.after {r : Except Halt (List Nat)} (h : Ends Q D limit hits' r) (hsub : hits ⊆ hits')
    (hnew : ∀ x ∈ hits', x ∈ hits ∨ P x) (hP : ∀ x, Q x → P x)
    (hC : ∀ out, r = .ok out → hits' ⊆ out → D out → C out) : Ends P C limit hits r := by
  have old {x : Nat} (hx : x ∈ hits' ∨ Q x) : x ∈ hits ∨ P x :=
    hx.elim (hnew x) fun hx => .inr (hP x hx)
  rcases r with (out | _) | out
  · exact ⟨fun x hx => old (h.1 x hx), h.2⟩
  · trivial
  · exact ⟨fun x hx => h.1 (hsub hx), fun x hx => old (h.2.1 x hx), hC out rfl h.1 h.2.2⟩

variable {lower : Bytes} {off stop x : Nat}

/-- A search records what is confirmed, and has seen every occurrence if it runs to its end. -/
lemma confirmFrom_ends (hkw : kw ∈ salientKeywords) (hrest : lower.drop h = rest)
    (hskip : ∀ k < skip, ¬kw <+: rest.drop k) :
    Ends (fun x => kw <+: lower.drop x ∧ Confirms src kw (base + x))
      (fun out => ∀ x, h ≤ x → kw <+: lower.drop x → Settled src base kw out x) limit hits
      (confirmFrom src base kw limit skip h rest hits) := by
  induction rest generalizing skip h hits with
  | nil =>
    have hnone (x) (hx : h ≤ x) (hocc : kw <+: lower.drop x) : False := by
      rw [drop_eq_nil_of_le ((drop_eq_nil_iff.1 hrest).trans hx), prefix_nil] at hocc
      simpa [hocc] using keyword_length kw hkw
    cases skip <;>
      exact ⟨List.Subset.refl _, fun x hx => .inl hx, fun x hx hocc => (hnone x hx hocc).elim⟩
  | cons c rest ih =>
    have hrest' : lower.drop (h + 1) = rest := by rw [← tail_drop, hrest, tail_cons]
    -- the first occurrence and those of the rest
    have all {hits' out : List Nat} (hfirst : kw <+: c :: rest → Settled src base kw hits' h)
        (hkeep : hits' ⊆ out) (hlater : ∀ x, h + 1 ≤ x → kw <+: lower.drop x →
          Settled src base kw out x) (x) (hx : h ≤ x) (hocc : kw <+: lower.drop x) :
        Settled src base kw out x := by
      rcases hx.eq_or_lt with rfl | hx
      · exact (hfirst (hrest ▸ hocc)).mono hkeep
      · exact hlater x hx hocc
    have go {skip : Nat} (hskip : ∀ k < skip, ¬kw <+: rest.drop k)
        (hfirst : kw <+: c :: rest → Settled src base kw hits h) :=
      (ih hrest' hskip).after (List.Subset.refl _) (fun _ => .inl) (fun _ => id)
        fun _ _ => all hfirst
    cases skip with
    | succ skip =>
      exact go (fun k hk => hskip (k + 1) (by omega)) fun hocc => absurd hocc (hskip 0 (by omega))
    | zero =>
      rw [confirmFrom]
      split
      next hocc =>
        have hskip' : ∀ k < kw.length - 1, ¬kw <+: rest.drop k := by
          intro k hk
          rw [← drop_succ_cons (a := c)]
          exact not_isPrefix_drop hkw hocc (Nat.succ_pos k) (by omega)
        split
        next => trivial
        next w hw =>
          split
          next hfound =>
            have hnew (x) (hx : x ∈ hits ++ [h]) :
                x ∈ hits ∨ kw <+: lower.drop x ∧ Confirms src kw (base + x) := by
              refine (mem_append.1 hx).imp_right fun hx => ?_
              obtain rfl := mem_singleton.1 hx
              exact ⟨hrest ▸ hocc, w, hw, hfound⟩
            split
            next hlimit => exact ⟨hnew, by simpa using hlimit, by simp⟩
            next =>
              exact (ih hrest' hskip').after (subset_append_left ..) hnew (fun _ => id)
                fun _ _ => all fun _ => ⟨w, hw, fun _ => by simp⟩
          next hmiss => exact go hskip' fun _ => ⟨w, hw, fun hfound => absurd hfound hmiss⟩
      next hocc => exact go (fun k hk => absurd hk (Nat.not_lt_zero k)) fun h => absurd h hocc

/-! ### The search for all keywords -/

/-- The keywords are searched one after the other. -/
lemma foldlM_ends {kws : List Bytes} (hkws : kws ⊆ salientKeywords) :
    Ends (fun x => ∃ kw ∈ kws, kw <+: lower.drop x ∧ Confirms src kw (base + x))
      (fun out => ∀ kw ∈ kws, ∀ x, kw <+: lower.drop x → Settled src base kw out x) limit hits
      (kws.foldlM (fun hits kw => confirmFrom src base kw limit 0 0 lower hits) hits) := by
  induction kws generalizing hits with
  | nil => exact ⟨List.Subset.refl _, fun x hx => .inl hx, fun kw hkw => absurd hkw not_mem_nil⟩
  | cons kw kws ih =>
    have hfirst : Ends _ _ limit hits (confirmFrom src base kw limit 0 0 lower hits) :=
      confirmFrom_ends (hkws mem_cons_self) drop_zero fun k hk => absurd hk (Nat.not_lt_zero k)
    rw [foldlM_cons]
    cases hrun : confirmFrom src base kw limit 0 0 lower hits with
    | ok hits' =>
      rw [hrun] at hfirst
      refine (ih fun x hx => hkws (mem_cons_of_mem kw hx)).after hfirst.1
        (fun x hx => (hfirst.2.1 x hx).imp_right fun h => ⟨kw, mem_cons_self, h⟩)
        (fun x ⟨kw', hkw', h⟩ => ⟨kw', mem_cons_of_mem kw hkw', h⟩)
        fun out _ hkeep hall => forall_mem_cons.2 ⟨fun x hocc => ?_, hall⟩
      exact (hfirst.2.2 x (Nat.zero_le x) hocc).mono hkeep
    | error e =>
      rw [hrun] at hfirst
      exact hfirst.after (List.Subset.refl _) (fun _ => .inl)
        (fun x h => ⟨kw, mem_cons_self, h⟩) fun _ h => by cases h

/-- What is recorded of a chunk is confirmed, and a search that found less than its limit has
settled every candidate. -/
lemma salientHits_spec (hrun : salientHits src base b limit = some hits) :
    (∀ x ∈ hits, ∃ kw ∈ salientKeywords, Occurs kw b x ∧ Confirms src kw (base + x))
      ∧ ((hits.length < limit ∨ hits = []) → ∀ kw ∈ salientKeywords, ∀ x, Occurs kw b x →
        Settled src base kw hits x) := by
  have hends : Ends _ _ limit [] (salientKeywords.foldlM
      (fun hits kw => confirmFrom src base kw limit 0 0 (b.map asciiLower) hits) []) :=
    foldlM_ends (List.Subset.refl salientKeywords)
  unfold salientHits at hrun
  split at hrun
  next heq =>
    cases hrun
    rw [heq] at hends
    exact ⟨fun x hx => (hends.2.1 x hx).resolve_left not_mem_nil, fun _ => hends.2.2⟩
  next heq =>
    cases hrun
    rw [heq] at hends
    refine ⟨fun x hx => (hends.1 x hx).resolve_left not_mem_nil, fun hless => ?_⟩
    exact hless.elim (fun hlt => absurd hends.2.1 hlt.not_ge) fun hnil => absurd hnil hends.2.2
  next => cases hrun

/-! ### The search in chunks -/

lemma drop_map_read (src : Bytes) (off stop k : Nat) :
    ((read src (off, stop)).map asciiLower).drop k
      = ((src.map asciiLower).drop (off + k)).take (stop - off - k) := by
  rw [read, map_take, map_drop, drop_take, drop_drop]

lemma occurs_of_read (h : Occurs kw (read src (off, stop)) k) : Occurs kw src (off + k) := by
  unfold Occurs at h
  rw [drop_map_read] at h
  exact h.trans (List.take_prefix _ _)

lemma occurs_read (h : Occurs kw src x) (hoff : off ≤ x)
    (hstop : x + kw.length ≤ stop) : Occurs kw (read src (off, stop)) (x - off) := by
  unfold Occurs
  rw [drop_map_read, Nat.add_sub_cancel' hoff]
  exact prefix_take_iff.2 ⟨h, by omega⟩

lemma occurs_length (hkw : kw ∈ salientKeywords) (h : Occurs kw src x) :
    x + kw.length ≤ src.length := by
  have hlen := h.length_le
  have hpos := (keyword_length kw hkw).1
  rw [length_drop, length_map] at hlen
  omega

/-- What is found is confirmed. Every keyword lies within a chunk, since the chunks overlap by more
than its length. -/
lemma scanFrom_spec {chunk overlap fuel : Nat} {positions positions' : List Nat}
    (hoverlap : 10 ≤ overlap) (hchunk : overlap < chunk) (hfuel : src.length ≤ off + fuel)
    (hrun : scanFrom src chunk overlap limit fuel off positions = some positions') :
    positions ⊆ positions' ∧ (∀ x ∈ positions', x ∈ positions ∨ Confirmed src x)
      ∧ ∀ kw ∈ salientKeywords, ∀ x, off ≤ x → Occurs kw src x → Settled src 0 kw positions' x := by
  -- nothing occurs past the end
  have hpast {off : Nat} {positions : List Nat} (hoff : src.length ≤ off) : positions ⊆ positions
      ∧ (∀ x ∈ positions, x ∈ positions ∨ Confirmed src x) ∧ ∀ kw ∈ salientKeywords, ∀ x, off ≤ x →
        Occurs kw src x → Settled src 0 kw positions x := by
    refine ⟨List.Subset.refl _, fun x hx => .inl hx, fun kw hkw x hx hocc => ?_⟩
    have := occurs_length hkw hocc
    have := (keyword_length kw hkw).1
    omega
  induction fuel generalizing off positions with
  | zero =>
    cases hrun
    exact hpast hfuel
  | succ fuel ih =>
    rw [scanFrom] at hrun
    split at hrun
    next hoff =>
      cases hrun
      exact hpast hoff
    dsimp only at hrun
    split at hrun
    · cases hrun
    next hits hhits =>
    obtain ⟨hsound, hcomplete⟩ := salientHits_spec hhits
    have hnew : ∀ x ∈ positions ++ hits.map (off + ·), x ∈ positions ∨ Confirmed src x := by
      intro x hx
      refine (mem_append.1 hx).imp_right fun hx => ?_
      obtain ⟨k, hk, rfl⟩ := mem_map.1 hx
      obtain ⟨kw, hkw, hocc, hconf⟩ := hsound k hk
      exact ⟨kw, hkw, occurs_of_read hocc, hconf⟩
    split at hrun
    · cases hrun
    next hlimit =>
    have hless : hits.length < limit := by
      rw [length_append, length_map] at hlimit
      omega
    -- a candidate of this chunk is settled by what the chunk adds
    have hhere {kw : Bytes} (hkw : kw ∈ salientKeywords) {x : Nat} (hx : off ≤ x)
        (hocc : Occurs kw src x) (hin : x + kw.length ≤ min src.length (off + chunk)) :
        Settled src 0 kw (positions ++ hits.map (off + ·)) x := by
      obtain ⟨w, hw, hfound⟩ := hcomplete (.inl hless) kw hkw _ (occurs_read hocc hx hin)
      rw [Nat.add_sub_cancel' hx] at hw
      refine ⟨w, by rwa [Nat.zero_add], fun h => mem_append_right _ (mem_map.2 ?_)⟩
      exact ⟨x - off, hfound h, Nat.add_sub_cancel' hx⟩
    split at hrun
    · next hend =>
      cases hrun
      refine ⟨subset_append_left _ _, hnew, fun kw hkw x hx hocc => hhere hkw hx hocc ?_⟩
      rw [hend]
      exact occurs_length hkw hocc
    · obtain ⟨hkeep, hfound, hall⟩ := ih (by omega) hrun
      refine ⟨fun x hx => hkeep (mem_append_left _ hx),
        fun x hx => (hfound x hx).elim (hnew x) .inr, fun kw hkw x hx hocc => ?_⟩
      have hkwlen := (keyword_length kw hkw).2
      have hsrc := occurs_length hkw hocc
      by_cases hin : x + kw.length ≤ off + chunk
      · exact (hhere hkw hx hocc (le_min hsrc hin)).mono hkeep
      · exact hall kw hkw x (by omega) hocc

end Evidence
