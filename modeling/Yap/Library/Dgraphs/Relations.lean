-- SUMMARY: Transpose, composition, closures and complement of library(dgraphs), and when they agree with library(ugraphs).
import Yap.Library.Dgraphs.Update
import Yap.Library.Ugraphs.Relations

/-!
# Transpose, composition, closures and complement

New graphs are made from lists of edges. The transpose first adds all vertices;
the composition does not, and it looks every child up in the second graph. The
transitive closure composes the edges of the last round with the graph.
-/

namespace Yap

namespace Dgraphs

open Ordsets Rbtrees Relation

variable {α : Type*}

-- ---------------------------------------------------------------------------
-- Code
-- ---------------------------------------------------------------------------

def ugraphToDgraph (ug : Ugraphs.UGraph α) : Option (DGraph α) := ordListToRbtree ug

def dgraphToUgraph (dg : DGraph α) : Ugraphs.UGraph α := rbVisit dg

@[simp] theorem dgraphToUgraph_eq (g : DGraph α) : dgraphToUgraph g = g.toList := rbVisit_eq g

variable [LinearOrder α]

def children2edges : List α → α → List (α × α) → List (α × α)
  | [], _, edges => edges
  | child :: l0, v, edges0 => (v, child) :: children2edges l0 v edges0

def cvt2edges : List (α × List α) → List (α × α)
  | [] => []
  | (v, children) :: l0 => children2edges children v (cvt2edges l0)

def dgraphEdges (vs : DGraph α) : List (α × α) := cvt2edges (rbVisit vs)

def dgraphVertices (vs : DGraph α) : List α := rbKeys vs

def transposeEdges : List α → α → List (α × α) → List (α × α)
  | [], _, edges => edges
  | e :: edges, v, edges0 => (e, v) :: transposeEdges edges v edges0

/-- `transpose/4`: the vertices, and the inverted edges in front of others. -/
def transpose : List (α × List α) → List (α × α) → List α × List (α × α)
  | [], edges => ([], edges)
  | (v, edges) :: moreVs, edges0 =>
    (v :: (transpose moreVs edges0).1, transposeEdges edges v (transpose moreVs edges0).2)

def dgraphTranspose (graph : DGraph α) : Option (DGraph α) :=
  dgraphAddEdges (dgraphAddVertices .nil (transpose (rbVisit graph) []).1) (transpose (rbVisit graph) []).2

def compose3 : List α → α → List (α × α) → List (α × α)
  | [], _, newNodes => newNodes
  | gc :: grandChildren, v, newNodes0 => (v, gc) :: compose3 grandChildren v newNodes0

def compose2 : List α → α → DGraph α → List (α × α) → Option (List (α × α))
  | [], _, _, newNodes => some newNodes
  | c :: children, v, t2, newNodes0 =>
    (rbLookup c t2).bind fun grandChildren =>
      (compose2 children v t2 newNodes0).map fun newNodesI => compose3 grandChildren v newNodesI

/-- `compose/3`. -/
def compose : List (α × List α) → DGraph α → Option (List (α × α))
  | [], _ => some []
  | (v, children) :: nodes, t2 => (compose nodes t2).bind fun newNodes0 => compose2 children v t2 newNodes0

def dgraphCompose (t1 t2 : DGraph α) : Option (DGraph α) :=
  (compose (rbVisit t1) t2).bind fun newNodes => dgraphAddEdges .nil newNodes

def isEdge (v1 v2 : α) (g : DGraph α) : Bool :=
  match rbLookup v1 g with
  | some children => ordMemberchk v2 children
  | none => false

def transitGraph2 : List α → α → DGraph α → List (α × α) → List (α × α)
  | [], _, _, newEdges => newEdges
  | gc :: grandChildren, v, g, moreEdges =>
    if isEdge v gc g then transitGraph2 grandChildren v g moreEdges
    else (v, gc) :: transitGraph2 grandChildren v g moreEdges

def transitGraph : List (α × α) → DGraph α → Option (List (α × α))
  | [], _ => some []
  | (v, v1) :: edges, g =>
    (rbLookup v1 g).bind fun grandChildren =>
      (transitGraph edges g).map fun moreEdges => transitGraph2 grandChildren v g moreEdges

/-- `continue_closure/3` with a bound on the rounds. -/
def continueClosure : ℕ → List (α × α) → DGraph α → Option (DGraph α)
  | _, [], closure => some closure
  | 0, _ :: _, _ => none
  | n + 1, edges, g =>
    (transitGraph edges g).bind fun newEdges =>
      (dgraphAddEdges g newEdges).bind fun gn => continueClosure n newEdges gn

def dgraphTransitiveClosure (n : ℕ) (g : DGraph α) : Option (DGraph α) := continueClosure n (dgraphEdges g) g

def invertEdges : List (α × α) → List (α × α)
  | [] => []
  | (v1, v2) :: edges => (v2, v1) :: invertEdges edges

def dgraphSymmetricClosure (g : DGraph α) : Option (DGraph α) := dgraphAddEdges g (invertEdges (dgraphEdges g))

def complement (vs children : List α) : List α := ordSubtract vs children

def dgraphComplement (vs0 : DGraph α) : Option (DGraph α) :=
  rbMap vs0 fun children => some (complement (dgraphVertices vs0) children)

-- ---------------------------------------------------------------------------
-- Lists of edges
-- ---------------------------------------------------------------------------

theorem Represents.ugraph {g : DGraph α} {vertex : α → Prop} {edge : α → α → Prop}
    (h : Represents g vertex edge) : Ugraphs.Represents g.toList vertex edge :=
  ⟨h.wf.ugraph, h.vertices, h.edges⟩

theorem mem_children2edges {l0 : List α} {v : α} {edges0 : List (α × α)} {e : α × α} :
    e ∈ children2edges l0 v edges0 ↔ e.1 = v ∧ e.2 ∈ l0 ∨ e ∈ edges0 := by
  induction l0 with
  | nil => simp [children2edges]
  | cons c l0 ih =>
    rw [children2edges, List.mem_cons, ih, Prod.ext_iff, List.mem_cons]
    tauto

theorem mem_cvt2edges {l : List (α × List α)} {u v : α} : (u, v) ∈ cvt2edges l ↔ Ugraphs.Edge l u v := by
  induction l with
  | nil => simp [cvt2edges]
  | cons p l ih => rw [cvt2edges, mem_children2edges, ih, Ugraphs.edge_cons]

theorem mem_dgraphEdges {g : DGraph α} {u v : α} : (u, v) ∈ dgraphEdges g ↔ Edge g u v := by
  rw [dgraphEdges, rbVisit_eq, mem_cvt2edges, Edge]

theorem mem_invertEdges {edges : List (α × α)} {u v : α} : (u, v) ∈ invertEdges edges ↔ (v, u) ∈ edges := by
  induction edges with
  | nil => simp [invertEdges]
  | cons e edges ih =>
    rw [invertEdges, List.mem_cons, List.mem_cons, ih, Prod.ext_iff, Prod.ext_iff]
    tauto

theorem isEdge_iff {g : DGraph α} (h : Valid g) {u v : α} : isEdge u v g = true ↔ Edge g u v := by
  rw [edge_iff_value h, isEdge, h.lookup_eq]
  cases Assoc.value u g.toList with
  | none => simp
  | some ns => simp [ordMemberchk_iff]

-- ---------------------------------------------------------------------------
-- Conversion
-- ---------------------------------------------------------------------------

theorem ugraphToDgraph_spec {l : Ugraphs.UGraph α} (h : Ugraphs.Wf l) :
    ∃ g, ugraphToDgraph l = some g ∧ Wf g ∧ dgraphToUgraph g = l := by
  obtain ⟨g, heq, hvalid, hlist⟩ := ordListToRbtree_spec (Ugraphs.sorted_iff.mpr h.vertices)
  refine ⟨g, heq, ⟨⟨hvalid, ?_, fun _ => Iff.rfl, fun _ _ => Iff.rfl⟩, fun u v he => ?_⟩, ?_⟩
  · rw [hlist]
    exact h.neighbours
  · rw [Vertex, hlist]
    rw [Edge, hlist] at he
    exact h.target he
  · rw [dgraphToUgraph, rbVisit_eq, hlist]

-- ---------------------------------------------------------------------------
-- Transpose
-- ---------------------------------------------------------------------------

theorem mem_transposeEdges {edges : List α} {v : α} {edges0 : List (α × α)} {e : α × α} :
    e ∈ transposeEdges edges v edges0 ↔ e.1 ∈ edges ∧ e.2 = v ∨ e ∈ edges0 := by
  induction edges with
  | nil => simp [transposeEdges]
  | cons c edges ih =>
    rw [transposeEdges, List.mem_cons, ih, Prod.ext_iff, List.mem_cons]
    tauto

theorem transpose_spec (l : List (α × List α)) :
    (transpose l []).1 = Ugraphs.vertices l ∧ ∀ u v, (u, v) ∈ (transpose l []).2 ↔ Ugraphs.Edge l v u := by
  induction l with
  | nil => simp [transpose]
  | cons p l ih =>
    refine ⟨by rw [transpose, ih.1]; rfl, fun u v => ?_⟩
    rw [transpose, mem_transposeEdges, ih.2, Ugraphs.edge_cons, and_comm]

theorem dgraphTranspose_represents {g : DGraph α} (h : Wf g) :
    ∃ t, dgraphTranspose g = some t ∧ Represents t (Vertex g) fun u v => Edge g v u := by
  obtain ⟨hnodes, hedges⟩ := transpose_spec (rbVisit g)
  obtain ⟨t, heq, ht⟩ := (describes_nil.addVertices (transpose (rbVisit g) []).1).addEdges
    (transpose (rbVisit g) []).2
  have hvert : ∀ v, v ∈ (transpose (rbVisit g) []).1 ↔ Vertex g v := fun v => by
    rw [hnodes, rbVisit_eq, Vertex]
  have hedge : ∀ u v, (u, v) ∈ (transpose (rbVisit g) []).2 ↔ Edge g v u := fun u v => by
    rw [hedges, rbVisit_eq, Edge]
  refine ⟨t, heq, ht.congr (fun v => ?_) fun u v => ?_, fun u v he => he.source⟩
  · rw [false_or, hvert]
    refine or_iff_left_of_imp ?_
    rintro ⟨e, he, rfl | rfl⟩
    · exact h.inside _ _ ((hedge e.1 e.2).mp he)
    · exact ((hedge e.1 e.2).mp he).source
  · rw [false_or, hedge]

-- ---------------------------------------------------------------------------
-- Composition
-- ---------------------------------------------------------------------------

theorem mem_compose3 {grandChildren : List α} {v : α} {newNodes0 : List (α × α)} {e : α × α} :
    e ∈ compose3 grandChildren v newNodes0 ↔ e.1 = v ∧ e.2 ∈ grandChildren ∨ e ∈ newNodes0 := by
  induction grandChildren with
  | nil => simp [compose3]
  | cons c edges ih =>
    rw [compose3, List.mem_cons, ih, Prod.ext_iff, List.mem_cons]
    tauto

/-- The composition of a row succeeds when the children are vertices of the second graph. -/
theorem compose2_spec {t2 : DGraph α} (h2 : Valid t2) (children : List α) (v : α) (newNodes0 : List (α × α)) :
    ((∀ c ∈ children, Vertex t2 c) → ∃ newNodes, compose2 children v t2 newNodes0 = some newNodes ∧
        ∀ e, e ∈ newNodes ↔ (e.1 = v ∧ ∃ c ∈ children, Edge t2 c e.2) ∨ e ∈ newNodes0) ∧
      ((∃ c ∈ children, ¬ Vertex t2 c) → compose2 children v t2 newNodes0 = none) := by
  induction children with
  | nil => simp [compose2]
  | cons c children ih =>
    obtain ⟨hsome, hnone⟩ := ih
    rw [compose2, h2.lookup_eq]
    refine ⟨fun hin => ?_, fun hout => ?_⟩
    · obtain ⟨hc, hin'⟩ := List.forall_mem_cons.mp hin
      obtain ⟨gc, hgc⟩ := vertex_iff_value.mp hc
      obtain ⟨newNodesI, heq, hmem⟩ := hsome hin'
      refine ⟨_, by rw [hgc, heq]; rfl, fun e => ?_⟩
      have hrow : e.2 ∈ gc ↔ Edge t2 c e.2 := by simp [edge_iff_value h2, hgc]
      rw [mem_compose3, hmem, hrow]
      simp only [List.mem_cons, exists_eq_or_imp, and_or_left, or_assoc]
    · cases hgc : Assoc.value c t2.toList with
      | none => rfl
      | some gc =>
        have hc : Vertex t2 c := vertex_iff_value.mpr ⟨gc, hgc⟩
        rw [hnone]
        · rfl
        · obtain ⟨c', hc', hv⟩ := hout
          refine ⟨c', (List.mem_cons.mp hc').resolve_left ?_, hv⟩
          rintro rfl
          exact hv hc

theorem compose_spec {t2 : DGraph α} (h2 : Valid t2) (nodes : List (α × List α)) :
    ((∀ p ∈ nodes, ∀ c ∈ p.2, Vertex t2 c) → ∃ newNodes, compose nodes t2 = some newNodes ∧
        ∀ u w, (u, w) ∈ newNodes ↔ ∃ c, Ugraphs.Edge nodes u c ∧ Edge t2 c w) ∧
      ((∃ p ∈ nodes, ∃ c ∈ p.2, ¬ Vertex t2 c) → compose nodes t2 = none) := by
  induction nodes with
  | nil => simp [compose]
  | cons p nodes ih =>
    obtain ⟨hsome, hnone⟩ := ih
    rw [compose]
    refine ⟨fun hin => ?_, fun hout => ?_⟩
    · obtain ⟨hp, hin'⟩ := List.forall_mem_cons.mp hin
      obtain ⟨newNodes0, heq0, hmem0⟩ := hsome hin'
      obtain ⟨newNodes, heq, hmem⟩ := (compose2_spec h2 p.2 p.1 newNodes0).1 hp
      refine ⟨newNodes, by rw [heq0]; exact heq, fun u w => ?_⟩
      rw [hmem, hmem0]
      simp only [Ugraphs.edge_cons, or_and_right, exists_or]
      refine or_congr_left ⟨?_, ?_⟩
      · rintro ⟨hu, c, hc, he⟩
        exact ⟨c, ⟨hu, hc⟩, he⟩
      · rintro ⟨c, ⟨hu, hc⟩, he⟩
        exact ⟨hu, c, hc, he⟩
    · by_cases hrest : ∃ p ∈ nodes, ∃ c ∈ p.2, ¬ Vertex t2 c
      · rw [hnone hrest]
        rfl
      · obtain ⟨q, hq, c, hc, hv⟩ := hout
        have hqp : q = p := (List.mem_cons.mp hq).resolve_right fun hmem => hrest ⟨q, hmem, c, hc, hv⟩
        subst hqp
        cases compose nodes t2 with
        | none => rfl
        | some newNodes0 => exact (compose2_spec h2 q.2 q.1 newNodes0).2 ⟨c, hc, hv⟩

/-- Children are vertices of the second graph, and every vertex is an end of a composed edge. -/
def Composable (g h : DGraph α) : Prop :=
  (∀ u c, Edge g u c → Vertex h c) ∧
    ∀ v, Vertex g v ∨ Vertex h v → ∃ u c w, Edge g u c ∧ Edge h c w ∧ (v = u ∨ v = w)

theorem dgraphCompose_spec {g h : DGraph α} (hh : Valid h) (hin : ∀ u c, Edge g u c → Vertex h c) :
    ∃ t, dgraphCompose g h = some t ∧
      Describes t (fun v => ∃ u c w, Edge g u c ∧ Edge h c w ∧ (v = u ∨ v = w))
        fun u w => ∃ c, Edge g u c ∧ Edge h c w := by
  obtain ⟨newNodes, heq, hmem⟩ := (compose_spec hh (rbVisit g)).1 fun p hp c hc =>
    hin p.1 c ⟨p.2, rbVisit_eq g ▸ hp, hc⟩
  obtain ⟨t, ht, hdesc⟩ := describes_nil.addEdges newNodes
  have hedge : ∀ u w, (u, w) ∈ newNodes ↔ ∃ c, Edge g u c ∧ Edge h c w := fun u w => by
    rw [hmem, rbVisit_eq]
    rfl
  refine ⟨t, by rw [dgraphCompose, heq]; exact ht, hdesc.congr (fun v => ?_) fun u w => ?_⟩
  · rw [false_or]
    constructor
    · rintro ⟨e, he, hv⟩
      obtain ⟨c, hc, hcw⟩ := (hedge e.1 e.2).mp he
      exact ⟨e.1, c, e.2, hc, hcw, hv⟩
    · rintro ⟨u, c, w, hc, hcw, hv⟩
      exact ⟨(u, w), (hedge u w).mpr ⟨c, hc, hcw⟩, hv⟩
  · rw [false_or, hedge]

/-- The composition is that of `library(ugraphs)` exactly for composable graphs. -/
theorem dgraphCompose_iff {g h : DGraph α} (hg : Wf g) (hh : Wf h) :
    (∃ t, dgraphCompose g h = some t ∧
      dgraphToUgraph t = Ugraphs.compose (dgraphToUgraph g) (dgraphToUgraph h)) ↔ Composable g h := by
  have hcompose := Ugraphs.compose_represents hg.ugraph hh.ugraph
  simp only [dgraphToUgraph_eq]
  constructor
  · rintro ⟨t, ht, heq⟩
    have hin : ∀ u c, Edge g u c → Vertex h c := by
      by_contra hout
      push Not at hout
      obtain ⟨u, c, ⟨ns, hns, hc⟩, hv⟩ := hout
      have hnone := (compose_spec hh.valid (rbVisit g)).2 ⟨(u, ns), rbVisit_eq g ▸ hns, c, hc, hv⟩
      rw [dgraphCompose, hnone] at ht
      cases ht
    obtain ⟨t', ht', hdesc⟩ := dgraphCompose_spec hh.valid hin
    obtain rfl := Option.some.inj (ht.symm.trans ht')
    refine ⟨hin, fun v hv => (hdesc.vertices v).mp ?_⟩
    rw [Vertex, heq]
    exact (hcompose.vertices v).mpr hv
  · rintro ⟨hin, hend⟩
    obtain ⟨t, ht, hdesc⟩ := dgraphCompose_spec hh.valid hin
    have hvert : ∀ v, (∃ u c w, Edge g u c ∧ Edge h c w ∧ (v = u ∨ v = w)) ↔ Vertex g v ∨ Vertex h v := by
      refine fun v => ⟨?_, hend v⟩
      rintro ⟨u, c, w, huc, hcw, rfl | rfl⟩
      · exact .inl huc.source
      · exact .inr (hh.inside c v hcw)
    have hrep : Represents t (fun v => Vertex g v ∨ Vertex h v) fun u w => ∃ c, Edge g u c ∧ Edge h c w := by
      refine ⟨hdesc.congr hvert fun _ _ => Iff.rfl, fun u w he => ?_⟩
      obtain ⟨c, -, hcw⟩ := he
      exact .inr (hh.inside c w hcw)
    exact ⟨t, ht, hrep.ugraph.unique hcompose⟩

-- ---------------------------------------------------------------------------
-- Transitive closure
-- ---------------------------------------------------------------------------

theorem mem_transitGraph2 {g : DGraph α} (h : Valid g) {grandChildren : List α} {v : α}
    {moreEdges : List (α × α)} {e : α × α} :
    e ∈ transitGraph2 grandChildren v g moreEdges ↔
      e.1 = v ∧ e.2 ∈ grandChildren ∧ ¬ Edge g v e.2 ∨ e ∈ moreEdges := by
  induction grandChildren with
  | nil => simp [transitGraph2]
  | cons gc grandChildren ih =>
    rw [transitGraph2, List.mem_cons]
    split_ifs with hedge
    · rw [isEdge_iff h] at hedge
      have hold : e.2 = gc → Edge g v e.2 := fun heq => heq ▸ hedge
      rw [ih]
      tauto
    · rw [isEdge_iff h] at hedge
      have hnew : e.2 = gc → ¬ Edge g v e.2 := fun heq => heq ▸ hedge
      rw [List.mem_cons, ih, Prod.ext_iff]
      tauto

theorem transitGraph_spec {g : DGraph α} (h : Valid g) (edges : List (α × α)) (hin : ∀ e ∈ edges, Vertex g e.2) :
    ∃ newEdges, transitGraph edges g = some newEdges ∧
      ∀ u w, (u, w) ∈ newEdges ↔ (∃ v, (u, v) ∈ edges ∧ Edge g v w) ∧ ¬ Edge g u w := by
  induction edges with
  | nil => exact ⟨[], rfl, by simp⟩
  | cons e edges ih =>
    obtain ⟨he, hin'⟩ := List.forall_mem_cons.mp hin
    obtain ⟨gc, hgc⟩ := vertex_iff_value.mp he
    obtain ⟨moreEdges, heq, hmem⟩ := ih hin'
    have hrow : ∀ w, w ∈ gc ↔ Edge g e.2 w := fun w => by simp [edge_iff_value h, hgc]
    refine ⟨_, by rw [transitGraph, h.lookup_eq, hgc, heq]; rfl, fun u w => ?_⟩
    rw [mem_transitGraph2 h, hmem, hrow]
    constructor
    · rintro (⟨rfl, he', hn⟩ | ⟨⟨v, hv, he'⟩, hn⟩)
      · exact ⟨⟨e.2, List.mem_cons_self, he'⟩, hn⟩
      · exact ⟨⟨v, List.mem_cons_of_mem _ hv, he'⟩, hn⟩
    · rintro ⟨⟨v, hv, he'⟩, hn⟩
      cases List.mem_cons.mp hv with
      | inl heq =>
        subst heq
        exact .inl ⟨rfl, he', hn⟩
      | inr hv => exact .inr ⟨⟨v, hv, he'⟩, hn⟩

/-- The pairs of vertices without an edge. -/
def missing (vertex : α → Prop) (edge : α → α → Prop) : Set (α × α) :=
  {p | vertex p.1 ∧ vertex p.2 ∧ ¬ edge p.1 p.2}

theorem finite_missing {g : DGraph α} {vertex : α → Prop} {edge : α → α → Prop} (h : Describes g vertex edge)
    (edge' : α → α → Prop) : (missing vertex edge').Finite := by
  refine ((List.finite_toSet (Ugraphs.vertices g.toList)).prod
    (List.finite_toSet (Ugraphs.vertices g.toList))).subset ?_
  rintro p ⟨h1, h2, -⟩
  exact ⟨(h.vertices p.1).mpr h1, (h.vertices p.2).mpr h2⟩

/-- A round that adds an edge leaves fewer pairs without one. -/
theorem ncard_missing_lt {g : DGraph α} {vertex : α → Prop} {edge edge' : α → α → Prop}
    (h : Describes g vertex edge) (hle : ∀ u v, edge u v → edge' u v) {u v : α} (hu : vertex u) (hv : vertex v)
    (hold : ¬ edge u v) (hnew : edge' u v) : (missing vertex edge').ncard < (missing vertex edge).ncard := by
  refine Set.ncard_lt_ncard ⟨fun p hp => ⟨hp.1, hp.2.1, fun he => hp.2.2 (hle _ _ he)⟩, fun hsub => ?_⟩
    (finite_missing h edge)
  exact (hsub (show (u, v) ∈ missing vertex edge from ⟨hu, hv, hold⟩)).2.2 hnew

/-- There are at most as many rounds as pairs without an edge. -/
theorem continueClosure_spec {n : ℕ} {edges : List (α × α)} {g : DGraph α} {vertex : α → Prop}
    {base edge : α → α → Prop} (h : Represents g vertex edge)
    (hrounds : Closure.Rounds base (fun u v => (u, v) ∈ edges) edge)
    (hn : edges ≠ [] → (missing vertex edge).ncard < n) :
    ∃ t, (∀ m ≥ n, continueClosure m edges g = some t) ∧ Represents t vertex (TransGen base) := by
  induction n generalizing edges g edge with
  | zero =>
    cases edges with
    | nil =>
      refine ⟨g, fun m _ => by rw [continueClosure], ?_⟩
      exact ⟨h.congr (fun _ => Iff.rfl) (hrounds.done (by simp)),
        fun u v he => h.inside u v ((hrounds.done (by simp) u v).mpr he)⟩
    | cons e edges => exact absurd (hn (by simp)) (Nat.not_lt_zero _)
  | succ n ih =>
    cases edges with
    | nil =>
      refine ⟨g, fun m _ => by rw [continueClosure], ?_⟩
      exact ⟨h.congr (fun _ => Iff.rfl) (hrounds.done (by simp)),
        fun u v he => h.inside u v ((hrounds.done (by simp) u v).mpr he)⟩
    | cons e edges =>
      have hcard := hn (by simp)
      obtain ⟨newEdges, heq, hmem⟩ := transitGraph_spec h.valid (e :: edges) fun d hd =>
        (h.vertices d.2).mpr (h.inside d.1 d.2 (hrounds.inside d.1 d.2 hd))
      have hmem' : ∀ u w, (u, w) ∈ newEdges ↔ (∃ v, (u, v) ∈ e :: edges ∧ edge v w) ∧ ¬ edge u w := fun u w => by
        simp only [hmem, h.edges]
      have hends : ∀ d ∈ newEdges, vertex d.1 ∧ vertex d.2 := by
        intro d hd
        obtain ⟨⟨v, hv, he⟩, -⟩ := (hmem' d.1 d.2).mp hd
        have hsource : Edge g d.1 v := (h.edges _ _).mpr (hrounds.inside d.1 v hv)
        exact ⟨(h.vertices d.1).mp hsource.source, h.inside v d.2 he⟩
      obtain ⟨gn, hgn, hdesc⟩ := h.addEdges newEdges
      have hrep : Represents gn vertex fun u v => edge u v ∨ (u, v) ∈ newEdges := by
        refine ⟨hdesc.congr (fun v => or_iff_left_of_imp ?_) fun _ _ => Iff.rfl, fun u v he => ?_⟩
        · rintro ⟨d, hd, rfl | rfl⟩
          · exact (hends d hd).1
          · exact (hends d hd).2
        · exact he.elim (h.inside u v) fun hd => (hends (u, v) hd).2
      obtain ⟨t, ht, htrep⟩ := ih hrep (hrounds.next hmem') fun hne => by
        obtain ⟨d, hd⟩ := List.exists_mem_of_ne_nil newEdges hne
        have hlt := ncard_missing_lt h.toDescribes
          (fun u v (he : edge u v) => show edge u v ∨ (u, v) ∈ newEdges from .inl he) (hends d hd).1 (hends d hd).2
          ((hmem' d.1 d.2).mp hd).2 (.inr hd)
        omega
      refine ⟨t, fun m hm => ?_, htrep⟩
      obtain ⟨m, rfl⟩ := Nat.exists_eq_succ_of_ne_zero (Nat.ne_zero_of_lt hm)
      rw [continueClosure, heq, Option.bind_some, hgn, Option.bind_some]
      · exact ht m (Nat.le_of_succ_le_succ hm)
      · intro h
        cases h

theorem dgraphTransitiveClosure_represents {g : DGraph α} (h : Wf g) :
    ∃ t n, (∀ m ≥ n, dgraphTransitiveClosure m g = some t) ∧ Represents t (Vertex g) (TransGen (Edge g)) := by
  have hrounds : Closure.Rounds (Edge g) (fun u v => (u, v) ∈ dgraphEdges g) (Edge g) := by
    simp only [mem_dgraphEdges]
    exact Closure.rounds_start (Edge g)
  obtain ⟨t, ht, hrep⟩ := continueClosure_spec h hrounds fun _ => Nat.lt_succ_self _
  exact ⟨t, _, ht, hrep⟩

-- ---------------------------------------------------------------------------
-- Symmetric closure and complement
-- ---------------------------------------------------------------------------

theorem dgraphSymmetricClosure_represents {g : DGraph α} (h : Wf g) :
    ∃ t, dgraphSymmetricClosure g = some t ∧ Represents t (Vertex g) fun u v => Edge g u v ∨ Edge g v u := by
  have hinverted : ∀ u v, (u, v) ∈ invertEdges (dgraphEdges g) ↔ Edge g v u := fun u v => by
    rw [mem_invertEdges, mem_dgraphEdges]
  obtain ⟨t, heq, ht⟩ := h.addEdges (invertEdges (dgraphEdges g))
  refine ⟨t, heq, ht.congr (fun v => or_iff_left_of_imp ?_) fun u v => or_congr_right (hinverted u v),
    fun u v he => he.elim (h.inside u v) Ugraphs.Edge.source⟩
  rintro ⟨e, he, rfl | rfl⟩
  · exact h.inside _ _ ((hinverted e.1 e.2).mp he)
  · exact ((hinverted e.1 e.2).mp he).source

theorem dgraphComplement_represents {g : DGraph α} (h : Wf g) :
    ∃ t, dgraphComplement g = some t ∧
      Represents t (Vertex g) fun u v => Vertex g u ∧ Vertex g v ∧ ¬ Edge g u v := by
  have hvert : OrdSet (Ugraphs.vertices g.toList) := h.ugraph.vertices
  have hkeys : dgraphVertices g = Ugraphs.vertices g.toList := rbKeys_eq g
  have hmap : dgraphComplement g = some (g.mapValues (complement (dgraphVertices g))) :=
    rbMap_some fun _ _ => rfl
  refine ⟨_, hmap, ⟨h.valid.mapValues _, fun p hp => ?_, fun v => ?_, fun u v => ?_⟩, fun u v he => he.2.1⟩
  · rw [toList_mapValues] at hp
    obtain ⟨q, -, rfl⟩ := List.mem_map.mp hp
    exact ordSet_ordSubtract (hkeys ▸ hvert) q.2
  · rw [Vertex, toList_mapValues, Ugraphs.vertices, List.map_map]
    rfl
  · rw [edge_iff_value (h.valid.mapValues _), value_mapValues, edge_iff_value h.valid, vertex_iff_value]
    cases hu : Assoc.value u g.toList with
    | none => simp
    | some ns =>
      have hns := (value_row h.toDescribes hu).1
      have hmem : v ∈ complement (dgraphVertices g) ns ↔ Vertex g v ∧ v ∉ ns := by
        rw [complement, hkeys, mem_ordSubtract hvert (hns.imp le_of_lt)]
        rfl
      simp [hmem]

-- ---------------------------------------------------------------------------
-- Agreement with unweighted graphs
-- ---------------------------------------------------------------------------

/-- The operations give the graphs that `library(ugraphs)` computes, and the two sets of edges it
has no operation for. -/
structure Agree (g h : DGraph α) : Prop where
  conversion : ∃ g', ugraphToDgraph (dgraphToUgraph g) = some g' ∧ dgraphToUgraph g' = dgraphToUgraph g
  transpose : ∃ t, dgraphTranspose g = some t ∧ Ugraphs.transpose (dgraphToUgraph g) = some (dgraphToUgraph t)
  compose : ∃ t, dgraphCompose g h = some t ∧
    dgraphToUgraph t = Ugraphs.compose (dgraphToUgraph g) (dgraphToUgraph h)
  transitiveClosure : ∃ t n, (∀ m ≥ n, dgraphTransitiveClosure m g = some t) ∧
    Ugraphs.transitiveClosure (dgraphToUgraph g) = some (dgraphToUgraph t)
  symmetricClosure : ∃ t, dgraphSymmetricClosure g = some t ∧
    Represents t (Vertex g) fun u v => Edge g u v ∨ Edge g v u
  complement : ∃ t, dgraphComplement g = some t ∧
    Represents t (Vertex g) fun u v => Vertex g u ∧ Vertex g v ∧ ¬ Edge g u v

/-- **Agreement.** The two libraries agree on two graphs exactly when these are composable. -/
theorem agree_iff {g h : DGraph α} (hg : Wf g) (hh : Wf h) : Agree g h ↔ Composable g h := by
  refine ⟨fun hagree => (dgraphCompose_iff hg hh).mp hagree.compose, fun hcomp => ?_⟩
  obtain ⟨g', hconv, -, hlist⟩ := ugraphToDgraph_spec (Wf.ugraph hg)
  obtain ⟨t, ht, htrep⟩ := dgraphTranspose_represents hg
  obtain ⟨t', ht', htrep'⟩ := Ugraphs.transpose_represents (Wf.ugraph hg)
  obtain ⟨c, n, hc, hcrep⟩ := dgraphTransitiveClosure_represents hg
  obtain ⟨c', hc', hcrep'⟩ := Ugraphs.transitiveClosure_represents (Wf.ugraph hg)
  refine ⟨⟨g', by rw [dgraphToUgraph_eq]; exact hconv, by rw [hlist, dgraphToUgraph_eq]⟩, ⟨t, ht, ?_⟩,
    (dgraphCompose_iff hg hh).mpr hcomp, ⟨c, n, hc, ?_⟩, dgraphSymmetricClosure_represents hg,
    dgraphComplement_represents hg⟩
  · rw [dgraphToUgraph_eq, dgraphToUgraph_eq, ht', htrep'.unique htrep.ugraph]
  · rw [dgraphToUgraph_eq, dgraphToUgraph_eq, hc', hcrep'.unique hcrep.ugraph]

/-- A graph of one loop is composed with itself. -/
theorem agree_iff_loop : Agree (dgraphAddEdge .nil 1 (1 : ℕ)) (dgraphAddEdge .nil 1 1) := by
  have h := describes_nil.addEdge (1 : ℕ) 1
  have hloop : Edge (dgraphAddEdge .nil 1 (1 : ℕ)) 1 1 := (h.edges 1 1).mpr (.inr ⟨rfl, rfl⟩)
  have hone : ∀ v, Vertex (dgraphAddEdge .nil 1 (1 : ℕ)) v → v = 1 := fun v hv => by
    simpa using (h.vertices v).mp hv
  refine (agree_iff (wf_addEdge_nil 1 1) (wf_addEdge_nil 1 1)).mpr ⟨fun u c he => ?_, fun v hv => ?_⟩
  · exact (wf_addEdge_nil 1 1).inside u c he
  · exact ⟨1, 1, 1, hloop, hloop, .inl (hone v (hv.elim id id))⟩

/-- The child 2 of 1 is no vertex of the empty graph. -/
theorem not_agree : ¬ ∀ g h : DGraph ℕ, Wf g → Wf h → Agree g h := by
  intro hall
  have hnil : Wf (.nil : DGraph ℕ) := Represents.wf ⟨describes_nil, fun _ _ he => he⟩
  have hagree := hall _ _ (wf_addEdge_nil 1 2) hnil
  have hcomp := (dgraphCompose_iff (wf_addEdge_nil 1 2) hnil).mp hagree.compose
  have hedge : Edge (dgraphAddEdge .nil 1 (2 : ℕ)) 1 2 :=
    ((describes_nil.addEdge (1 : ℕ) 2).edges 1 2).mpr (.inr ⟨rfl, rfl⟩)
  exact (describes_nil.vertices 2).mp (hcomp.1 1 2 hedge)

end Dgraphs

end Yap
