-- SUMMARY: dgraph_top_sort/2 of library(dgraphs): links of logic variables that are closed one by one, and what the queue holds.
import Yap.Base.Variables
import Yap.Library.Dgraphs.Relations

/-!
# Topological sorting

Each edge from `V1` to `V2` has a link `l(V2,A,B,S,E)` in the row of `V1` and
the term `e(A,B,S,E)` at `V2`. The edges into a vertex form a chain from `S` to
`E`, open between `A` and `B` of each of them; when the last one is closed the
vertex enters the queue. The variables of an edge are named by it and their letter.
-/

namespace Yap

namespace Dgraphs

open Ordsets Rbtrees Ugraphs

/-- The edge of a link. -/
structure Link (α : Type*) where
  source : α
  target : α
deriving DecidableEq, Repr

/-- The letter of a variable of a link. -/
inductive Letter where
  | a | b | s | e
deriving DecidableEq, Repr

abbrev LVar (α : Type*) := Link α × Letter

def Link.var {α : Type*} (l : Link α) (c : Letter) : LVar α := (l, c)

variable {α : Type*} [LinearOrder α]

-- ---------------------------------------------------------------------------
-- Code
-- ---------------------------------------------------------------------------

/-- The links of a row, and its edges inverted before the others; an inverted edge
`V2-e(A,B,S,E)` is the pair of `V2` and `V1`. -/
def invLinks : List α → α → List (α × α) → List (Link α) × List (α × α)
  | [], _, unsortedInvertedEdges => ([], unsortedInvertedEdges)
  | v2 :: vs, v1, unsortedInvertedEdges0 =>
    (⟨v1, v2⟩ :: (invLinks vs v1 unsortedInvertedEdges0).1, (v2, v1) :: (invLinks vs v1 unsortedInvertedEdges0).2)

/-- The rows of links and the inverted edges; the list `Q` of as many unbound elements is its length. -/
def invertAndLink : List (α × List α) → List (α × List (Link α)) × List (α × α) × List α × ℕ
  | [] => ([], [], [], 0)
  | (v, vs) :: edges =>
    ((v, (invLinks vs v (invertAndLink edges).2.1).1) :: (invertAndLink edges).1,
      (invLinks vs v (invertAndLink edges).2.1).2, v :: (invertAndLink edges).2.2.1,
      (invertAndLink edges).2.2.2 + 1)

/-- Bind the next unbound element of a queue of `n` elements. -/
def push (n : ℕ) (v : α) (q : List α) : Option (List α) := if q.length < n then some (q ++ [v]) else none

def linkEdges : List (α × α) → α → LVar α → LVar α → LVar α → Aliases (LVar α) → Aliases (LVar α) × List (α × α)
  | [], _, a, _, e, σ => (σ.unify a e, [])
  | (v, u) :: invertedEdges, vv, a, s, e, σ =>
    if v = vv then
      linkEdges invertedEdges vv (Link.var ⟨u, v⟩ .b) s e
        (((σ.unify (Link.var ⟨u, v⟩ .a) a).unify (Link.var ⟨u, v⟩ .s) s).unify (Link.var ⟨u, v⟩ .e) e)
    else (σ.unify a e, (v, u) :: invertedEdges)

def startQueue (n : ℕ) : List α → List (α × α) → Aliases (LVar α) → List α → Option (Aliases (LVar α) × List α)
  | [], [], σ, q => some (σ, q)
  | [], _ :: _, _, _ => none
  | v :: allVs, [], σ, q => (push n v q).bind (startQueue n allVs [] σ)
  | v :: allVs, (vv, u) :: invertedEdges, σ, q =>
    if v = vv then
      -- the first clause has `S` in the place of `A`
      let linked := linkEdges invertedEdges vv (Link.var ⟨u, vv⟩ .b) (Link.var ⟨u, vv⟩ .s) (Link.var ⟨u, vv⟩ .e)
        (σ.unify (Link.var ⟨u, vv⟩ .a) (Link.var ⟨u, vv⟩ .s))
      startQueue n allVs linked.2 linked.1 q
    else (push n v q).bind (startQueue n allVs ((vv, u) :: invertedEdges) σ)

def closeLinks (n : ℕ) : List (Link α) → Aliases (LVar α) → List α → Option (Aliases (LVar α) × List α)
  | [], σ, q => some (σ, q)
  | l :: links, σ, q =>
    if σ.unify (l.var .a) (l.var .b) (l.var .s) = σ.unify (l.var .a) (l.var .b) (l.var .e) then
      (push n l.target q).bind (closeLinks n links (σ.unify (l.var .a) (l.var .b)))
    else closeLinks n links (σ.unify (l.var .a) (l.var .b)) q

/-- `continue_queue/4` with some elements of `Q` to come. The lookup of an unbound element fails,
and so does an element left unbound at the end. -/
def continueQueue (n : ℕ) (linkedG : Tree α (List (Link α))) :
    ℕ → Aliases (LVar α) → List α → Option (List α)
  | 0, _, q => if q.length = n then some q else none
  | rest + 1, σ, q =>
    (q[n - (rest + 1)]?).bind fun v => (rbLookup v linkedG).bind fun links =>
      (closeLinks n links σ q).bind fun p => continueQueue n linkedG rest p.1 p.2

def dgraphTopSort (g : DGraph α) : Option (List α) :=
  let linked := invertAndLink (rbVisit g)
  (rbClone g linked.1).bind fun linkedG =>
    (startQueue linked.2.2.2 linked.2.2.1 (sortEdges linked.2.1) id []).bind fun p =>
      continueQueue linked.2.2.2 linkedG linked.2.2.2 p.1 p.2

-- ---------------------------------------------------------------------------
-- Rows and their inverted edges
-- ---------------------------------------------------------------------------

omit [LinearOrder α] in
theorem invLinks_eq (vs : List α) (v : α) (es : List (α × α)) :
    invLinks vs v es = (vs.map (Link.mk v), vs.map (fun w => (w, v)) ++ es) := by
  induction vs with
  | nil => rfl
  | cons w vs ih => rw [invLinks, ih, List.map_cons, List.map_cons, List.cons_append]

omit [LinearOrder α] in
theorem invertAndLink_eq (rows : List (α × List α)) :
    invertAndLink rows =
      (rows.map (fun p => (p.1, p.2.map (Link.mk p.1))), rows.flatMap (fun p => p.2.map fun w => (w, p.1)),
        rows.map Prod.fst, rows.length) := by
  induction rows with
  | nil => rfl
  | cons p rows ih =>
    obtain ⟨v, vs⟩ := p
    rw [invertAndLink, ih, invLinks_eq]
    rfl

theorem edgeSet_ext {l l' : List (α × α)} (h : EdgeSet l) (h' : EdgeSet l') (heq : ∀ e, e ∈ l ↔ e ∈ l') : l = l' := by
  have hne : ∀ e f : α × α, (e.1 < f.1 ∨ e.1 = f.1 ∧ e.2 < f.2) → e ≠ f := by
    rintro e f hlt rfl
    exact hlt.elim (lt_irrefl _) fun h => lt_irrefl _ h.2
  refine List.Perm.eq_of_pairwise ?_ h h' ((List.perm_ext_iff_of_nodup (h.imp (hne _ _)) (h'.imp (hne _ _))).mpr heq)
  intro e f _ _ hef hfe
  rcases hef with hlt | ⟨heq, hlt⟩
  · rcases hfe with hlt' | ⟨heq', -⟩
    · exact absurd hlt' hlt.asymm
    · exact absurd heq' hlt.ne'
  · rcases hfe with hlt' | ⟨-, hlt'⟩
    · exact absurd heq hlt'.ne'
    · exact absurd hlt' hlt.asymm

/-- The inverted edges, sorted: one group for each vertex. -/
theorem sortEdges_inverted {rows : List (α × List α)} (h : Ugraphs.Wf rows) :
    sortEdges (rows.flatMap fun p => p.2.map fun w => (w, p.1)) =
      (vertices rows).flatMap fun w => (sources rows w).map fun u => (w, u) := by
  refine edgeSet_ext (edgeSet_sortEdges _) ?_ fun e => ?_
  · have hpair : ∀ vs : List α, OrdSet vs → EdgeSet (vs.flatMap fun w => (sources rows w).map fun u => (w, u)) := by
      intro vs hvs
      induction vs with
      | nil => exact List.Pairwise.nil
      | cons w vs ih =>
        obtain ⟨hlt, hvs⟩ := List.pairwise_cons.mp hvs
        rw [List.flatMap_cons, EdgeSet, List.pairwise_append]
        refine ⟨List.pairwise_map.mpr ((ordSet_sources h.vertices w).imp fun hab => .inr ⟨rfl, hab⟩), ih hvs, ?_⟩
        intro e he f hf
        obtain ⟨u, -, rfl⟩ := List.mem_map.mp he
        obtain ⟨w', hw', hf⟩ := List.mem_flatMap.mp hf
        obtain ⟨u', -, rfl⟩ := List.mem_map.mp hf
        exact .inl (hlt w' hw')
    exact hpair _ h.vertices
  · obtain ⟨w, u⟩ := e
    have hedge : (w, u) ∈ (rows.flatMap fun p => p.2.map fun w => (w, p.1)) ↔ Ugraphs.Edge rows u w := by
      simp [Ugraphs.Edge]
    rw [mem_sortEdges, hedge]
    simp only [List.mem_flatMap, List.mem_map, Prod.mk.injEq, mem_sources]
    constructor
    · intro he
      exact ⟨w, h.target he, u, he, rfl, rfl⟩
    · rintro ⟨w', -, u', he, rfl, rfl⟩
      exact he

-- ---------------------------------------------------------------------------
-- Chains
-- ---------------------------------------------------------------------------

/-- What `link_edges/6` unifies for the sources of a vertex. -/
def linkPairs (w : α) (a s e : LVar α) : List α → List (LVar α × LVar α)
  | [] => [(a, e)]
  | u :: us =>
    (Link.var ⟨u, w⟩ .a, a) :: (Link.var ⟨u, w⟩ .s, s) :: (Link.var ⟨u, w⟩ .e, e) ::
      linkPairs w (Link.var ⟨u, w⟩ .b) s e us

/-- What is unified for all the edges to a vertex. -/
def groupPairs (w : α) : List α → List (LVar α × LVar α)
  | [] => []
  | u :: us =>
    (Link.var ⟨u, w⟩ .a, Link.var ⟨u, w⟩ .s) ::
      linkPairs w (Link.var ⟨u, w⟩ .b) (Link.var ⟨u, w⟩ .s) (Link.var ⟨u, w⟩ .e) us

variable {σ : Aliases (LVar α)}

theorem linkEdges_eq (us : List α) {w : α} {rest : List (α × α)} (hrest : ∀ p ∈ rest, p.1 ≠ w) (a s e : LVar α) :
    linkEdges (us.map (fun u => (w, u)) ++ rest) w a s e σ = (σ.unifyAll (linkPairs w a s e us), rest) := by
  induction us generalizing a σ with
  | nil =>
    cases rest with
    | nil => rfl
    | cons p rest =>
      obtain ⟨v, u⟩ := p
      rw [List.map_nil, List.nil_append, linkEdges, if_neg (hrest (v, u) List.mem_cons_self)]
      rfl
  | cons u us ih =>
    rw [List.map_cons, List.cons_append, linkEdges, if_pos rfl, ih]
    rfl

/-- The queue starts with the vertices without a source. -/
theorem startQueue_eq (n : ℕ) (src : α → List α) {vs : List α} (hvs : vs.Nodup) {q : List α}
    (hn : q.length + vs.length ≤ n) :
    startQueue n vs (vs.flatMap fun w => (src w).map fun u => (w, u)) σ q =
      some (σ.unifyAll (vs.flatMap fun w => groupPairs w (src w)), q ++ vs.filter fun w => src w = []) := by
  induction vs generalizing σ q with
  | nil => simp [startQueue, Aliases.unifyAll]
  | cons v vs ih =>
    obtain ⟨hv, hvs⟩ := List.nodup_cons.mp hvs
    rw [List.length_cons] at hn
    have hrest : ∀ p ∈ vs.flatMap fun w => (src w).map fun u => (w, u), p.1 ≠ v := by
      rintro p hp rfl
      obtain ⟨w, hw, hp⟩ := List.mem_flatMap.mp hp
      obtain ⟨u, -, rfl⟩ := List.mem_map.mp hp
      exact hv hw
    rw [List.flatMap_cons, List.flatMap_cons, Aliases.unifyAll_append]
    cases hsrc : src v with
    | nil =>
      have hpush : push n v q = some (q ++ [v]) := if_pos (by omega)
      have hih := ih hvs (σ := σ) (q := q ++ [v]) (by rw [List.length_append, List.length_singleton]; omega)
      rw [List.map_nil, List.nil_append, List.filter_cons_of_pos (by simp [hsrc])]
      have hstep : startQueue n (v :: vs) (vs.flatMap fun w => (src w).map fun u => (w, u)) σ q =
          startQueue n vs (vs.flatMap fun w => (src w).map fun u => (w, u)) σ (q ++ [v]) := by
        cases hes : vs.flatMap fun w => (src w).map fun u => (w, u) with
        | nil => rw [startQueue, hpush, Option.bind_some]
        | cons p es =>
          obtain ⟨vv, u⟩ := p
          have hne : v ≠ vv := Ne.symm (hrest (vv, u) (hes ▸ List.mem_cons_self))
          rw [startQueue, if_neg hne, hpush, Option.bind_some]
      rw [hstep, hih, List.append_assoc]
      rfl
    | cons u us =>
      rw [List.map_cons, List.cons_append, startQueue, if_pos rfl]
      dsimp only
      rw [linkEdges_eq us hrest, ih hvs (by omega), List.filter_cons_of_neg (by simp [hsrc])]
      rfl

end Dgraphs

end Yap
