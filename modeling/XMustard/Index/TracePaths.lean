import XMustard.Graph.Search
import XMustard.Index.Trace
import XMustard.Lists.Order
import XMustard.Program.Fallible

/-! # What a trace says about paths

A path that is reported is a path of admitted edges, and a shortest one unless a cap was hit; when
none is reported and no cap was hit, there is none. Every way a search loses a node sets a cap. -/

namespace Index

open List Graph Fallible

namespace Tracing

variable {g : CodeGraph} {q : TraceQuery} {dir : Direction} {starts : List Node}
  {ends : Finset Node} {depth : Nat} {s s' : Search} {node x y : Node}
  {e : Edge} {es : List Edge} {frontier : List Node} {layer : String}

section

variable (g : CodeGraph) (q : TraceQuery) (dir : Direction) (starts : List Node)

/-- The graph has the edge at `u` in the direction of the walk, and the query lets the walk
follow it. -/
def Admitted (u : Node) (e : Edge) : Prop :=
  ∃ file es, g.fileOf u = .ok file ∧ g.edges u dir = .ok es ∧ e ∈ es ∧
    admits g q (g.layerFor file) e = .ok true

/-- One admitted edge leads from `u` to `w`. -/
def Follows (u w : Node) : Prop :=
  ∃ e, Admitted g q dir u e ∧ e.node = w

/-- A path of admitted edges. -/
inductive AdmittedPath : Node → List Edge → Node → Prop
  | nil (u : Node) : AdmittedPath u [] u
  | cons {u w : Node} {e : Edge} {es : List Edge} (first : Admitted g q dir u e)
    (rest : AdmittedPath e.node es w) : AdmittedPath u (e :: es) w

/-- The parents lead back from the last node of a path of admitted edges to a start node. -/
inductive Back (parent : Node → Option (Node × Edge)) (r : Node) : List Edge → Node → Prop
  | start (first : r ∈ starts) (root : parent r = none) : Back parent r [] r
  | step {p : Node} {es : List Edge} {e : Edge} (rest : Back parent r es p)
    (link : parent e.node = some (p, e)) (last : Admitted g q dir p e) :
    Back parent r (es ++ [e]) e.node

/-- A node found at this depth. -/
def FoundAt (parent : Node → Option (Node × Edge)) (depth : Nat) (x : Node) : Prop :=
  ∃ r es, Back g q dir starts parent r es x ∧ es.length = depth

/-! ## The state of a search -/

/-- What holds while the nodes at `depth` are expanded. -/
structure Inv (ends : Finset Node) (depth : Nat) (todo : Node → Node → Prop) (s : Search) :
    Prop where
  hit : s.hit = none
  start : ∀ x ∈ starts, x ∈ s.seen
  no_end : ∀ x ∈ s.seen, x ∉ ends
  fresh : ∀ x ∉ s.seen, s.parent x = none
  current : ∀ x y, todo x y → FoundAt g q dir starts s.parent depth x
  next : ∀ x ∈ s.next, FoundAt g q dir starts s.parent (depth + 1) x
  /-- Unless a cap was hit, no node is lost. -/
  layered : s.caps.any = false →
    Layered (· ∈ starts) (Follows g q dir) (· ∈ s.seen) (· ∈ s.next) depth todo

/-- What a search that ended in a hit has found. -/
structure Hit (ends : Finset Node) (depth : Nat) (s : Search) (w : Node) : Prop where
  hit : s.hit = some w
  is_end : w ∈ ends
  found : FoundAt g q dir starts s.parent depth w
  shortest : s.caps.any = false → ∀ j x y, j < depth → x ∈ starts → y ∈ ends →
    ¬Steps (Follows g q dir) j x y

/-- A search that is over: it hit an end node, or a cap stopped it. -/
def Ended (ends : Finset Node) (depth : Nat) (s : Search) : Prop :=
  (∃ w, Hit g q dir starts ends depth s w) ∨ s.hit = none ∧ s.caps.any = true

/-- What following some edges does: the search goes on with the invariant or is over. -/
def Outcome (ends : Finset Node) (depth : Nat) (todo : Node → Node → Prop) (r : Bool × Search) :
    Prop :=
  if r.1 then Ended g q dir starts ends (depth + 1) r.2 else Inv g q dir starts ends depth todo r.2

/-- A search that ended without a hit and without a cap has seen everything. -/
def Exhausted (ends : Finset Node) (s : Search) : Prop :=
  s.hit = none ∧ (s.caps.any = false → ∀ x ∈ starts, ∀ y ∈ ends,
    ¬Relation.ReflTransGen (Follows g q dir) x y)

end

variable {parent : Node → Option (Node × Edge)}

/-- A link of a node that was not found is on no path back. -/
lemma FoundAt.update (h : FoundAt g q dir starts parent depth x) (hroot : parent y = none)
    (hy : y ∉ starts) (link : Node × Edge) :
    FoundAt g q dir starts (Function.update parent y (some link)) depth x := by
  obtain ⟨r, es, hback, hlen⟩ := h
  refine ⟨r, es, ?_, hlen⟩
  clear hlen
  induction hback with
  | start hr hnone =>
    have hne : r ≠ y := fun hry => hy (hry ▸ hr)
    exact .start hr (by rwa [Function.update_of_ne hne])
  | @step p es e _ hp he ih =>
    have hne : e.node ≠ y := fun hey => by simp [hey, hroot] at hp
    exact .step ih (by rwa [Function.update_of_ne hne]) he

variable {todo todo' : Node → Node → Prop}

section

variable (h : Inv g q dir starts ends depth todo s)
include h

lemma Inv.mono (hsub : ∀ x y, todo' x y → todo x y)
    (hdone : ∀ x y, Follows g q dir x y → todo x y → todo' x y ∨ y ∈ s.seen) :
    Inv g q dir starts ends depth todo' s :=
  { h with
    current := fun x y hx => h.current x y (hsub x y hx)
    layered := fun hcaps => (h.layered hcaps).mono hsub hdone }

/-- Once a cap is hit nothing more is promised about completeness. -/
lemma Inv.capped {caps : CapHits} (next : List Node) (hcaps : caps.any = true)
    (hsub : ∀ x y, todo' x y → todo x y) (hnext : ∀ x ∈ next, x ∈ s.next) :
    Inv g q dir starts ends depth todo' { s with caps := caps, next := next } :=
  ⟨h.hit, h.start, h.no_end, h.fresh, fun x y hx => h.current x y (hsub x y hx),
    fun x hx => h.next x (hnext x hx), fun hnone => absurd hcaps (by simp [hnone])⟩

lemma Inv.setFollowed (k : Nat) : Inv g q dir starts ends depth todo { s with followed := k } :=
  ⟨h.hit, h.start, h.no_end, h.fresh, h.current, h.next, h.layered⟩

end

/-! ## Finding a node -/

/-- The new node of an edge is recorded. -/
def Search.record (s : Search) (node : Node) (e : Edge) : Search :=
  { s with
    seen := insert e.node s.seen
    parent := Function.update s.parent e.node (some (node, e)) }

section

variable (h : Inv g q dir starts ends depth todo s) (hnew : e.node ∉ s.seen)
include h hnew

lemma Inv.record_found (hx : FoundAt g q dir starts s.parent depth x) (link : Node × Edge) :
    FoundAt g q dir starts (Function.update s.parent e.node (some link)) depth x :=
  hx.update (h.fresh _ hnew) (fun hstart => hnew (h.start _ hstart)) link

variable (hnode : FoundAt g q dir starts s.parent depth node) (he : Admitted g q dir node e)
include hnode he

lemma Inv.record_new : FoundAt g q dir starts (s.record node e).parent (depth + 1) e.node := by
  obtain ⟨r, es, hback, hlen⟩ := h.record_found hnew hnode (node, e)
  exact ⟨r, es ++ [e], .step hback (Function.update_self ..) he, by simp [hlen]⟩

/-- A new node that is no end node joins the next level. -/
lemma Inv.record (hend : e.node ∉ ends) (f : Option (Node × Nat)) :
    Inv g q dir starts ends depth todo
      { s.record node e with next := s.next ++ [e.node], furthest := f } where
  hit := h.hit
  start x hx := Finset.mem_insert_of_mem (h.start x hx)
  no_end x hx := by
    rcases Finset.mem_insert.1 hx with rfl | hx
    · exact hend
    · exact h.no_end x hx
  fresh x hx := by
    obtain ⟨hne, hx⟩ : x ≠ e.node ∧ x ∉ s.seen := by simpa [Search.record] using hx
    exact (Function.update_of_ne hne ..).trans (h.fresh x hx)
  current x e' hx := h.record_found hnew (h.current x e' hx) _
  next x hx := by
    rcases mem_append.1 hx with hx | hx
    · exact (h.next x hx).update (h.fresh _ hnew) (fun hstart => hnew (h.start _ hstart)) _
    · rw [mem_singleton.1 hx]
      exact h.record_new hnew hnode he
  layered hcaps := (h.layered hcaps).discover (fun hstart => hnew (h.start _ hstart)) hnew
    (fun x => Finset.mem_insert) fun x => by simp [or_comm]

end

lemma Inv.visit (h : Inv g q dir starts ends depth todo s) (hnew : e.node ∉ s.seen)
    (hnode : FoundAt g q dir starts s.parent depth node) (he : Admitted g q dir node e) (k : Nat) :
    Outcome g q dir starts ends depth todo (visit ends node k e s) := by
  unfold Tracing.visit
  dsimp only
  split_ifs with hend hvisited hrows
  · -- nothing shorter leads to an end node
    refine .inl ⟨_, rfl, hend, h.record_new hnew hnode he, fun hcaps j x y hj hx hy hsteps => ?_⟩
    have hseen := ((h.layered hcaps).near j (Nat.le_of_lt_succ hj) x y hx hsteps).1
    exact h.no_end y (hseen.elim (h.start y) id) hy
  · exact .inr ⟨h.hit, by simp [CapHits.any]⟩
  · exact (h.record hnew hnode he hend _).capped s.next (by simp [CapHits.any]) (fun _ _ => id)
      fun x hx => mem_append_left _ hx
  · exact h.record hnew hnode he hend _

lemma visit_seen (ends : Finset Node) (node : Node) (depth : Nat) (e : Edge) (s : Search) :
    (visit ends node depth e s).2.seen = insert e.node s.seen := by
  unfold visit
  dsimp only
  split_ifs <;> rfl

/-! ## Following edges -/

variable {r : Bool × Search} {k fuel : Nat}

/-- The nodes of `frontier` have not been expanded, nor these edges of `node`. -/
def Todo (g : CodeGraph) (q : TraceQuery) (dir : Direction) (frontier : List Node) (node : Node)
    (es : List Edge) (x y : Node) : Prop :=
  x ∈ frontier ∨ x = node ∧ ∃ e ∈ es, Admitted g q dir node e ∧ e.node = y

/-- An edge that leads to something seen, or that is not admitted, needs no more work. -/
lemma Inv.skip (h : Inv g q dir starts ends depth (Todo g q dir frontier node (e :: es)) s)
    (hseen : Admitted g q dir node e → e.node ∈ s.seen) :
    Inv g q dir starts ends depth (Todo g q dir frontier node es) s := by
  refine h.mono (fun x y => Or.imp_right (And.imp_right ?_)) ?_
  · rintro ⟨e', he', hy⟩
    exact ⟨e', mem_cons_of_mem e he', hy⟩
  · rintro x y - (hx | ⟨rfl, e', hmem, he', rfl⟩)
    · exact .inl (.inl hx)
    · rcases mem_cons.1 hmem with rfl | hmem
      · exact .inr (hseen he')
      · exact .inl (.inr ⟨rfl, e', hmem, he', rfl⟩)

lemma Inv.followEdges (h : Inv g q dir starts ends depth (Todo g q dir frontier node es) s)
    (hedges : ∀ e ∈ es, Admitted g q dir node e ↔ admits g q layer e = .ok true)
    (hrun : followEdges g q ends layer node k es s = .ok r) :
    Outcome g q dir starts ends depth (fun x _ => x ∈ frontier) r := by
  induction es generalizing s with
  | nil =>
    cases hrun
    exact h.mono (fun _ _ => .inl) fun x y _ hx => .inl (by simpa [Todo] using hx)
  | cons e es ih =>
    obtain ⟨he, hrest⟩ := forall_mem_cons.1 hedges
    obtain ⟨b, hadm, hrun⟩ := bind_eq_ok.1 hrun
    cases b with
    | false => exact ih (h.skip fun hadmitted => by simp [he.1 hadmitted] at hadm) hrest hrun
    | true =>
      simp only [if_true] at hrun
      split_ifs at hrun with hfanout hseen
      · cases hrun
        exact h.capped s.next (by simp [CapHits.any]) (fun _ _ => .inl) fun _ => id
      · exact ih ((h.skip fun _ => hseen).setFollowed (s.followed + 1)) hrest hrun
      · have hnode := h.current node e.node (.inr ⟨rfl, e, mem_cons_self, he.2 hadm, rfl⟩)
        have hvisit := (h.setFollowed (s.followed + 1)).visit hseen hnode (he.2 hadm) k
        have hmem := visit_seen ends node k e { s with followed := s.followed + 1 }
        generalize Tracing.visit ends node k e { s with followed := s.followed + 1 } = r₁
          at hrun hvisit hmem
        obtain ⟨_ | _, s₁⟩ := r₁
        · exact ih (Inv.skip hvisit fun _ => hmem ▸ Finset.mem_insert_self ..) hrest hrun
        · cases hrun
          exact hvisit

/-- A whole level is followed. -/
lemma Inv.followNodes (h : Inv g q dir starts ends depth (fun x _ => x ∈ frontier) s)
    (hrun : followNodes g q dir ends k frontier s = .ok r) :
    Outcome g q dir starts ends depth (fun _ _ => False) r := by
  induction frontier generalizing s with
  | nil =>
    cases hrun
    exact h.mono (fun _ _ => False.elim) fun x e _ => nofun
  | cons node frontier ih =>
    obtain ⟨file, hfile, hrun⟩ := bind_eq_ok.1 hrun
    obtain ⟨es, hes, hrun⟩ := bind_eq_ok.1 hrun
    obtain ⟨r₁, hfollow, hrun⟩ := bind_eq_ok.1 hrun
    have hedges (e : Edge) : Admitted g q dir node e
        ↔ e ∈ es ∧ admits g q (g.layerFor file) e = .ok true := by
      simp [Admitted, hfile, hes]
    have hmid : Inv g q dir starts ends depth (Todo g q dir frontier node es) s := by
      refine h.mono (fun x y => ?_) fun x y hxy hx => .inl ?_
      · rintro (hx | ⟨rfl, -⟩)
        · exact mem_cons_of_mem _ hx
        · exact mem_cons_self
      · rcases mem_cons.1 hx with rfl | hx
        · obtain ⟨e, he, rfl⟩ := hxy
          exact .inr ⟨rfl, e, ((hedges e).1 he).1, he, rfl⟩
        · exact .inl hx
    have hout := (hmid.setFollowed 0).followEdges
      (fun e he => (hedges e).trans (and_iff_right he)) hfollow
    obtain ⟨_ | _, s₁⟩ := r₁
    · exact ih hout hrun
    · cases hrun
      exact hout

/-! ## Levels -/

lemma Inv.exhausted (h : Inv g q dir starts ends depth (fun _ _ => False) s) (hnext : s.next = []) :
    Exhausted g q dir starts ends s := by
  refine ⟨h.hit, fun hcaps x hx y hy hreach => h.no_end y ?_ hy⟩
  obtain ⟨k, hk⟩ := steps_of_reflTransGen hreach
  cases k with
  | zero =>
    obtain rfl : x = y := hk
    exact h.start x hx
  | succ k => exact (h.layered hcaps).found_of_steps (by simp [hnext]) hx hk

/-- The new nodes of a level are expanded in the next one. -/
lemma Inv.nextLevel (h : Inv g q dir starts ends depth (fun _ _ => False) s) :
    Inv g q dir starts ends (depth + 1) (fun x _ => x ∈ s.next) { s with next := [] } :=
  ⟨h.hit, h.start, h.no_end, h.fresh, fun x _ => h.next x, nofun, fun hcaps => by
    simpa using (h.layered hcaps).nextLevel⟩

lemma Inv.levels (hfuel : depth + fuel = q.maxDepth)
    (h : Inv g q dir starts ends depth (fun x _ => x ∈ frontier) { s with next := [] })
    (hrun : levels g q dir ends fuel (depth + 1) frontier s = .ok s') :
    (∃ d ≤ q.maxDepth, ∃ w, Hit g q dir starts ends d s' w) ∨ Exhausted g q dir starts ends s' := by
  induction fuel generalizing depth frontier s with
  | zero =>
    cases hrun
    exact .inr ⟨h.hit, by simp [CapHits.any]⟩
  | succ fuel ih =>
    obtain ⟨⟨_ | _, s₁⟩, hfollow, hrun⟩ := bind_eq_ok.1 hrun
    · have h₁ : Inv g q dir starts ends depth (fun _ _ => False) s₁ := h.followNodes hfollow
      dsimp only at hrun
      split_ifs at hrun with hnext
      · cases hrun
        exact .inr (h₁.exhausted hnext)
      · exact ih (by omega) h₁.nextLevel hrun
    · obtain rfl : s₁ = s' := Except.ok.inj hrun
      have hended : Ended g q dir starts ends (depth + 1) s₁ := h.followNodes hfollow
      rcases hended with hhit | ⟨hnone, hcaps⟩
      · exact .inl ⟨depth + 1, by omega, hhit⟩
      · exact .inr ⟨hnone, fun hfalse => absurd hcaps (by simp [hfalse])⟩

/-- A search hits an end node by a shortest path, or has seen everything, or a cap says so. -/
lemma search_spec (hrun : search g q dir starts ends = .ok s) :
    (∃ d ≤ q.maxDepth, ∃ w, Hit g q dir starts ends d s w) ∨ Exhausted g q dir starts ends s := by
  unfold search at hrun
  dsimp only at hrun
  have hfound : ∀ x ∈ starts, FoundAt g q dir starts (fun _ => none) 0 x :=
    fun x hx => ⟨x, [], .start hx rfl, rfl⟩
  split_ifs at hrun with hhit
  · obtain ⟨w, hw⟩ := Option.isSome_iff_exists.1 hhit
    cases hrun
    exact .inl ⟨0, Nat.zero_le _, w, hw, by simpa using List.find?_some hw,
      hfound w (mem_of_find?_eq_some hw), nofun⟩
  · have hnone : starts.find? (· ∈ ends) = none := by simpa using hhit
    refine Inv.levels (Nat.zero_add _) ⟨hnone, fun x => mem_toFinset.2, fun x hx => ?_,
      fun _ _ => rfl, fun x _ => hfound x, nofun, fun _ => ?_⟩ hrun
    · simpa using List.find?_eq_none.1 hnone x (mem_toFinset.1 hx)
    · simpa using Layered.init (Follows g q dir) fun x (hx : x ∈ starts) => hx

/-! ## The path that is reported -/

variable {w : Node}

lemma AdmittedPath.snoc {u : Node} (h : AdmittedPath g q dir u es w)
    (he : Admitted g q dir w e) : AdmittedPath g q dir u (es ++ [e]) e.node := by
  induction h with
  | nil u => exact .cons he (.nil _)
  | cons first _ ih => exact .cons first (ih he)

/-- Walking back spells the path. -/
lemma Back.spells {r : Node} (h : Back g q dir starts parent r es x) (hfuel : es.length ≤ fuel) :
    r ∈ starts ∧ AdmittedPath g q dir r es x ∧
      es = ((backEdges parent fuel x).map (·.2)).reverse ∧
      r :: es.map Edge.node = (x :: (backEdges parent fuel x).map (·.1)).reverse := by
  induction h generalizing fuel with
  | start hr hroot => cases fuel <;> simp [backEdges, hroot, hr, AdmittedPath.nil]
  | @step p es e _ hp he ih =>
    obtain ⟨fuel, rfl⟩ : ∃ k, fuel = k + 1 := Nat.exists_eq_succ_of_ne_zero (by
      rw [length_append, length_singleton] at hfuel
      omega)
    obtain ⟨hr, hpath, hes, hchain⟩ := ih (by simpa using hfuel)
    refine ⟨hr, hpath.snoc he, ?_, ?_⟩
    · simp [backEdges, hp, ← hes]
    · rw [map_append, ← cons_append, hchain]
      simp [backEdges, hp]

/-- The hops of a path, one for each edge. -/
lemma zip_hops (r : Node) (es : List Edge) :
    ((r :: es.map Edge.node).zip (es.map Edge.node)).zip es
      = ((r :: es.map Edge.node).zip es).map fun x => ((x.1, x.2.node), x.2) := by
  induction es generalizing r with
  | nil => rfl
  | cons e es ih => simpa using ih e.node

/-- What an answer with a path says. -/
structure Reported (g : CodeGraph) (q : TraceQuery) (starts : List Node) (ends : Finset Node)
    (dir : Direction) (r : Node) (es : List Edge) (w : Node) (out : Trace) : Prop where
  first : r ∈ starts
  last : w ∈ ends
  path : AdmittedPath g q dir r es w
  length : out.length = es.length
  direction : out.direction = some dir
  hops : List.Forall₂ (fun x hop => hopOf g x.1 x.2.node x.2 = .ok hop)
    ((r :: es.map Edge.node).zip es) out.hops

variable {d : Nat} {out₀ out : Trace}

lemma Hit.reported
    (h : Hit g q dir starts ends d s w) (hd : d ≤ q.maxDepth)
    (hrun : answer g q dir out₀ s w = .ok out) :
    (∃ r es, Reported g q starts ends dir r es w out) ∧ out.length = d ∧ out.found = true ∧
      out.capsHit = s.caps := by
  obtain ⟨r, es, hback, rfl⟩ := h.found
  obtain ⟨hr, hpath, hes, hchain⟩ := hback.spells hd
  unfold answer at hrun
  dsimp only at hrun
  rw [← hes, ← hchain] at hrun
  obtain ⟨hops, hhops, hrun⟩ := bind_eq_ok.1 hrun
  obtain ⟨path, -, hrun⟩ := bind_eq_ok.1 hrun
  cases hrun
  have hall := Lists.mapM_eq_ok hhops
  rw [tail_cons, zip_hops, forall₂_map_left_iff] at hall
  have hcount : hops.length = es.length := by simpa using hall.length_eq.symm
  exact ⟨⟨r, es, hr, h.is_end, hpath, hcount, rfl, hall⟩, hcount, rfl, rfl⟩

lemma CapHits.merge_any (c c' : CapHits) : (c.merge c').any = (c.any || c'.any) := by
  have hfanout : decide (0 < c.fanout + c'.fanout)
      = (decide (0 < c.fanout) || decide (0 < c'.fanout)) := by
    rw [← Bool.decide_or]
    exact decide_eq_decide.2 Nat.add_pos_iff_pos_or_pos
  unfold CapHits.any CapHits.merge
  grind

/-- A search with a hit has hit it by a shortest path. -/
lemma search_hit (hrun : search g q dir starts ends = .ok s) (hw : s.hit = some w) :
    ∃ d ≤ q.maxDepth, Hit g q dir starts ends d s w := by
  rcases search_spec hrun with ⟨d, hd, w', hhit⟩ | hnone
  · obtain rfl : w' = w := by simpa [hw] using hhit.hit.symm
    exact ⟨d, hd, hhit⟩
  · exact absurd hnone.1 (by simp [hw])

lemma search_none (hrun : search g q dir starts ends = .ok s) (hw : s.hit = none) :
    Exhausted g q dir starts ends s := by
  rcases search_spec hrun with ⟨d, hd, w, hhit⟩ | hnone
  · exact absurd hhit.hit (by simp [hw])
  · exact hnone

/-- The caps of an earlier search may be added to the answer's. -/
lemma Hit.merge (h : Hit g q dir starts ends d s w) (caps : CapHits) :
    Hit g q dir starts ends d { s with caps := caps.merge s.caps } w := by
  refine ⟨h.hit, h.is_end, h.found, fun hcaps => h.shortest ?_⟩
  rw [CapHits.merge_any] at hcaps
  exact (Bool.or_eq_false_iff.1 hcaps).2

/-- An answer built from a hit. -/
lemma Hit.answer (h : Hit g q dir starts ends d s w) (hd : d ≤ q.maxDepth)
    (hrun : answer g q dir out₀ s w = .ok out) :
    out.found = true ∧ ∃ r es, Reported g q starts ends dir r es w out ∧
      (out.capsHit.any = false → ∀ j, ∀ x ∈ starts, ∀ y ∈ ends,
        Steps (Follows g q dir) j x y → out.length ≤ j) := by
  obtain ⟨⟨r, es, hrep⟩, hlen, hfound, hcaps⟩ := h.reported hd hrun
  refine ⟨hfound, r, es, hrep, fun hnone j x hx y hy hsteps => ?_⟩
  rw [hcaps] at hnone
  by_contra hlt
  exact h.shortest hnone j x y (by omega) hx hy hsteps

end Tracing

open Tracing

/-- A reported path consists of admitted edges in the reported direction, from a start node to an
end node, and is shortest in that direction unless a cap was hit. When no path is reported and the
answer is not truncated, no admitted path exists in either direction. -/
theorem run_paths {g : CodeGraph} {q : TraceQuery} {starts : List Node} {ends : Finset Node}
    {out : Trace} (hrun : run g q starts ends = .ok out) :
    (out.found = true → ∃ dir r es w, Reported g q starts ends dir r es w out ∧
      (out.capsHit.any = false → ∀ j, ∀ x ∈ starts, ∀ y ∈ ends,
        Steps (Follows g q dir) j x y → out.length ≤ j)) ∧
    (out.found = false → out.truncated = false → ∀ dir, ∀ x ∈ starts, ∀ y ∈ ends,
      ¬Relation.ReflTransGen (Follows g q dir) x y) := by
  unfold run at hrun
  split_ifs at hrun with hempty
  · cases hrun
    refine ⟨nofun, fun _ _ dir x hx y hy => ?_⟩
    rcases hempty with rfl | rfl
    · cases hx
    · simp at hy
  obtain ⟨down, hdown, hrun⟩ := bind_eq_ok.1 hrun
  cases hdhit : down.hit with
  | some w =>
    rw [hdhit] at hrun
    obtain ⟨d, hd, hhit⟩ := search_hit hdown hdhit
    obtain ⟨hfound, r, es, hrep⟩ := hhit.answer hd hrun
    exact ⟨fun _ => ⟨.downstream, r, es, w, hrep⟩, fun hnot => by simp [hfound] at hnot⟩
  | none =>
    rw [hdhit] at hrun
    obtain ⟨up, hup, hrun⟩ := bind_eq_ok.1 hrun
    cases huhit : up.hit with
    | some w =>
      rw [huhit] at hrun
      obtain ⟨d, hd, hhit⟩ := search_hit hup huhit
      obtain ⟨hfound, r, es, hrep⟩ := (hhit.merge down.caps).answer hd hrun
      exact ⟨fun _ => ⟨.upstream, r, es, w, hrep⟩, fun hnot => by simp [hfound] at hnot⟩
    | none =>
      rw [huhit] at hrun
      obtain ⟨furthest, -, hrun⟩ := bind_eq_ok.1 hrun
      cases hrun
      refine ⟨nofun, fun _ hcaps dir => ?_⟩
      rw [CapHits.merge_any] at hcaps
      obtain ⟨hdcaps, hucaps⟩ := Bool.or_eq_false_iff.1 hcaps
      cases dir with
      | downstream => exact (search_none hdown hdhit).2 hdcaps
      | upstream => exact (search_none hup huhit).2 hucaps

def callEdge : Edge := ⟨1, 1, 0, 0, 0, 0, 0, 255⟩

/-- Two symbols, of which the first calls the second. -/
def callGraph : CodeGraph where
  path file := if file = 0 then "main.go" else "util.go"
  fileOf node := .ok node
  symbol _ := .ok none
  edges node dir := .ok (if node = 0 ∧ dir = .downstream then [callEdge] else [])
  labels _ := ⟨"CALLS", "symbol", "resolved", "call", ""⟩
  resolved _ := true
  isTest _ := false

def callQuery : TraceQuery := ⟨"main", "util", 10, ⟨63⟩, 0.0, true⟩

/-- No confidence bound excludes an edge of full confidence. -/
lemma callGraph_admits : admits callGraph callQuery "symbol" callEdge = .ok true := by
  have hmax : ∀ c : UInt8, ¬(255 : UInt8) < c := by
    intro c hc
    have hlt := c.toNat_lt
    rw [UInt8.lt_iff_toNat_lt] at hc
    simp at hc
    omega
  have hconf : ¬callEdge.confidence < quantizeConfidence callQuery.minConfidence := hmax _
  unfold admits
  rw [decide_eq_false hconf]
  rfl

lemma callGraph_found : ∃ out, run callGraph callQuery [0] {1} = .ok out ∧ out.found = true := by
  have hfollow : followEdges callGraph callQuery {1} "symbol" 0 1 [callEdge] { seen := {0} }
      = .ok (true,
        { Search.record { seen := {0}, followed := 1 } 0 callEdge with hit := some 1 }) := by
    rw [followEdges, callGraph_admits]
    rfl
  have hsearch : search callGraph callQuery .downstream [0] {1}
      = .ok { Search.record { seen := {0}, followed := 1 } 0 callEdge with hit := some 1 } := by
    change (followEdges callGraph callQuery {1} "symbol" 0 1 [callEdge] { seen := {0} } >>= _)
      >>= _ = _
    rw [hfollow]
    rfl
  unfold run
  rw [hsearch]
  exact ⟨_, rfl, rfl⟩

theorem run_paths_callGraph : ∃ out dir r es w, run callGraph callQuery [0] {1} = .ok out ∧
    Reported callGraph callQuery [0] {1} dir r es w out := by
  obtain ⟨out, hrun, hfound⟩ := callGraph_found
  obtain ⟨dir, r, es, w, hrep, -⟩ := (run_paths hrun).1 hfound
  exact ⟨out, dir, r, es, w, hrun, hrep⟩

end Index
