-- SUMMARY: Graphs of library(ugraphs) as adjacency lists: vertices, edges, well-formedness, and the graph of a list of edges.
import Yap.Library.Ordsets
import Yap.Base.Assoc

/-!
# Unweighted graphs

A graph is a list of pairs `Vertex-Neighbours` in increasing order of the
vertices; each list of neighbours is an ordered set of vertices of the graph.
Edges are ordered as terms `A-Z`: by the source, then by the target.
-/

namespace Yap

namespace Ugraphs

open Ordsets

abbrev UGraph (α : Type*) := List (α × List α)

variable {α : Type*}

def vertices (g : UGraph α) : List α := g.map Prod.fst

def Edge (g : UGraph α) (u v : α) : Prop := ∃ ns, (u, ns) ∈ g ∧ v ∈ ns

@[simp] theorem vertices_nil : vertices ([] : UGraph α) = [] := rfl

@[simp] theorem vertices_cons (p : α × List α) (g : UGraph α) : vertices (p :: g) = p.1 :: vertices g := rfl

@[simp] theorem edge_nil (u v : α) : ¬ Edge [] u v := by
  rintro ⟨ns, hmem, -⟩
  cases hmem

theorem edge_cons {p : α × List α} {g : UGraph α} {u v : α} :
    Edge (p :: g) u v ↔ u = p.1 ∧ v ∈ p.2 ∨ Edge g u v := by
  constructor
  · rintro ⟨ns, hmem, hv⟩
    cases List.mem_cons.mp hmem with
    | inl heq => exact .inl (heq ▸ ⟨rfl, hv⟩)
    | inr hmem => exact .inr ⟨ns, hmem, hv⟩
  · rintro (⟨rfl, hv⟩ | ⟨ns, hmem, hv⟩)
    · exact ⟨p.2, List.mem_cons_self, hv⟩
    · exact ⟨ns, List.mem_cons_of_mem _ hmem, hv⟩

theorem Edge.source {g : UGraph α} {u v : α} (h : Edge g u v) : u ∈ vertices g := by
  obtain ⟨ns, hmem, -⟩ := h
  exact List.mem_map_of_mem (f := Prod.fst) hmem

def pToSVertices : List (α × α) → List α
  | [] => []
  | (a, z) :: edges => a :: z :: pToSVertices edges

theorem mem_pToSVertices {es : List (α × α)} {v : α} :
    v ∈ pToSVertices es ↔ ∃ e ∈ es, v = e.1 ∨ v = e.2 := by
  induction es with
  | nil => simp [pToSVertices]
  | cons e es ih =>
    simp only [pToSVertices, List.mem_cons, ih, exists_eq_or_imp, or_assoc]

section Order

variable [LinearOrder α]

/-- Vertices strictly increasing, each list of neighbours an ordered set of vertices. -/
structure Wf (g : UGraph α) : Prop where
  vertices : OrdSet (vertices g)
  neighbours : ∀ p ∈ g, OrdSet p.2
  inside : ∀ p ∈ g, ∀ v ∈ p.2, v ∈ Ugraphs.vertices g

theorem Wf.target {g : UGraph α} (h : Wf g) {u v : α} (he : Edge g u v) : v ∈ Ugraphs.vertices g := by
  obtain ⟨ns, hmem, hv⟩ := he
  exact h.inside _ hmem v hv

/-- The well-formed graph with the set of vertices and the relation of edges. -/
structure Represents (g : UGraph α) (vertex : α → Prop) (edge : α → α → Prop) : Prop where
  wf : Wf g
  vertices : ∀ v, v ∈ Ugraphs.vertices g ↔ vertex v
  edges : ∀ u v, Edge g u v ↔ edge u v

theorem sorted_iff {g : UGraph α} : Assoc.Sorted g ↔ OrdSet (vertices g) := List.pairwise_map.symm

/-- The neighbours of a vertex are the targets of its edges. -/
theorem Wf.mem_row {g : UGraph α} (h : Wf g) {u : α} {ns : List α} (hu : (u, ns) ∈ g) {v : α} :
    v ∈ ns ↔ Edge g u v := by
  refine ⟨fun hv => ⟨ns, hu, hv⟩, ?_⟩
  rintro ⟨ns', hu', hv⟩
  have hs := sorted_iff.mpr h.vertices
  obtain rfl : ns' = ns := Option.some.inj
    (((Assoc.value_eq_some hs).mpr hu').symm.trans ((Assoc.value_eq_some hs).mpr hu))
  exact hv

theorem Represents.mem_of_mem {g g' : UGraph α} {vertex : α → Prop} {edge : α → α → Prop}
    (h : Represents g vertex edge) (h' : Represents g' vertex edge) {p : α × List α} (hp : p ∈ g) : p ∈ g' := by
  have hv : p.1 ∈ Ugraphs.vertices g' :=
    (h'.vertices p.1).mpr ((h.vertices p.1).mp (List.mem_map_of_mem (f := Prod.fst) hp))
  obtain ⟨q, hq, hkey⟩ := List.mem_map.mp hv
  have hrow : q.2 = p.2 := (h'.wf.neighbours q hq).ext (h.wf.neighbours p hp) fun w => by
    rw [h'.wf.mem_row (u := q.1) hq, h.wf.mem_row (u := p.1) hp, h'.edges, h.edges, hkey]
  obtain rfl : q = p := Prod.ext hkey hrow
  exact hq

/-- A well-formed graph is determined by its vertices and edges. -/
theorem Represents.unique {g g' : UGraph α} {vertex : α → Prop} {edge : α → α → Prop}
    (h : Represents g vertex edge) (h' : Represents g' vertex edge) : g = g' :=
  Assoc.ext_mem (sorted_iff.mpr h.wf.vertices) (sorted_iff.mpr h'.wf.vertices) fun _ =>
    ⟨h.mem_of_mem h', h'.mem_of_mem h⟩

/-- Neighbours stay inside the graph when the ends of every edge are vertices. -/
theorem wf_of_edges {g : UGraph α} (hv : OrdSet (vertices g)) (hn : ∀ p ∈ g, OrdSet p.2)
    (he : ∀ u v, Edge g u v → v ∈ vertices g) : Wf g :=
  ⟨hv, hn, fun p hp v hv => he p.1 v ⟨p.2, hp, hv⟩⟩

/-- The vertices with an edge to a vertex, in order. -/
def sources (g : UGraph α) (w : α) : List α := (g.filter fun p => w ∈ p.2).map Prod.fst

theorem mem_sources {g : UGraph α} {u w : α} : u ∈ sources g w ↔ Edge g u w := by
  simp [sources, Edge, and_comm]

theorem ordSet_sources {g : UGraph α} (h : OrdSet (vertices g)) (w : α) : OrdSet (sources g w) :=
  List.pairwise_map.mpr ((List.pairwise_map.mp h).filter _)

/-- A vertex that comes after all its sources comes after each of them. -/
theorem idxOf_lt_of_ordered {g : UGraph α} {l : List α}
    (h : ∀ l₁ w l₂, l = l₁ ++ w :: l₂ → ∀ u ∈ sources g w, u ∈ l₁) {u w : α} (hw : w ∈ l)
    (hu : u ∈ sources g w) : l.idxOf u < l.idxOf w := by
  obtain ⟨l₁, l₂, rfl, hnot⟩ := List.eq_append_cons_of_mem hw
  have hu₁ := h l₁ w l₂ rfl u hu
  rw [List.idxOf_append_of_mem hu₁, List.idxOf_append, if_neg hnot, List.idxOf_cons_self, zero_add]
  exact List.idxOf_lt_length_iff.mpr hu₁

-- ---------------------------------------------------------------------------
-- The graph of a list of edges
-- ---------------------------------------------------------------------------

/-- `sort/2` on a list of edges. -/
def sortEdges (es : List (α × α)) : List (α × α) := (sort (es.map toLex)).map ofLex

/-- `p_to_s_group/4`: the neighbours of a vertex and the edges that are left. -/
def pToSGroup4 : List (α × α) → α → List α × List (α × α)
  | (v1, x) :: edges, v2 =>
    if v1 = v2 then (x :: (pToSGroup4 edges v2).1, (pToSGroup4 edges v2).2)
    else ([], (v1, x) :: edges)
  | [], _ => ([], [])

/-- `p_to_s_group/3`. -/
def pToSGroup : List α → List (α × α) → UGraph α
  | [], _ => []
  | vertex :: vertices, edgeSet =>
    (vertex, (pToSGroup4 edgeSet vertex).1) :: pToSGroup vertices (pToSGroup4 edgeSet vertex).2

def pToSGraph (edges : List (α × α)) : UGraph α :=
  pToSGroup (sort (pToSVertices (sortEdges edges))) (sortEdges edges)

/-- Edges in strictly increasing order. -/
def EdgeSet (es : List (α × α)) : Prop := es.Pairwise fun e f => e.1 < f.1 ∨ e.1 = f.1 ∧ e.2 < f.2

theorem mem_sortEdges {es : List (α × α)} {e : α × α} : e ∈ sortEdges es ↔ e ∈ es := by
  simp only [sortEdges, List.mem_map, mem_sort]
  constructor
  · rintro ⟨a, ⟨b, hb, rfl⟩, rfl⟩
    exact hb
  · exact fun h => ⟨toLex e, ⟨e, h, rfl⟩, rfl⟩

theorem edgeSet_sortEdges (es : List (α × α)) : EdgeSet (sortEdges es) := by
  refine List.pairwise_map.mpr ((ordSet_sort (es.map toLex)).imp ?_)
  intro a b hab
  exact Prod.Lex.lt_iff.mp hab

/-- A group takes the edges of the least source. -/
theorem pToSGroup4_spec {es : List (α × α)} {v : α} (hes : EdgeSet es) (hv : ∀ e ∈ es, v ≤ e.1) :
    (∀ x, x ∈ (pToSGroup4 es v).1 ↔ (v, x) ∈ es) ∧ OrdSet (pToSGroup4 es v).1 ∧
      (∀ e, e ∈ (pToSGroup4 es v).2 ↔ e ∈ es ∧ e.1 ≠ v) ∧ EdgeSet (pToSGroup4 es v).2 := by
  induction es with
  | nil => simp [pToSGroup4, OrdSet, EdgeSet]
  | cons e es ih =>
    obtain ⟨hhead, htail⟩ := List.pairwise_cons.mp hes
    obtain ⟨hmem, hord, hrest, hset⟩ := ih htail fun f hf => hv f (List.mem_cons_of_mem _ hf)
    rw [pToSGroup4]
    split_ifs with heq
    · refine ⟨fun x => ?_, List.pairwise_cons.mpr ⟨fun x hx => ?_, hord⟩, fun f => ?_, hset⟩
      · rw [List.mem_cons, List.mem_cons, hmem, ← heq, Prod.ext_iff]
        simp
      · have hlt := hhead _ ((hmem x).mp hx)
        simpa [heq] using hlt
      · rw [hrest, List.mem_cons]
        constructor
        · exact fun h => ⟨.inr h.1, h.2⟩
        · rintro ⟨rfl | hf, hne⟩
          · exact absurd heq hne
          · exact ⟨hf, hne⟩
    · have hlt : v < e.1 := lt_of_le_of_ne (hv e List.mem_cons_self) (Ne.symm heq)
      have hall : ∀ f ∈ e :: es, v < f.1 := by
        intro f hf
        cases List.mem_cons.mp hf with
        | inl h => exact h ▸ hlt
        | inr h => exact hlt.trans_le ((hhead f h).elim le_of_lt fun h => h.1.le)
      refine ⟨fun x => ?_, List.Pairwise.nil, fun f => ?_, hes⟩
      · simp only [List.not_mem_nil, false_iff]
        exact fun h => lt_irrefl _ (hall _ h)
      · exact ⟨fun h => ⟨h, (hall f h).ne'⟩, fun h => h.1⟩

theorem vertices_pToSGroup (vs : List α) (es : List (α × α)) : vertices (pToSGroup vs es) = vs := by
  induction vs generalizing es with
  | nil => rfl
  | cons v vs ih => rw [pToSGroup, vertices_cons, ih]

theorem pToSGroup_spec {vs : List α} {es : List (α × α)} (hvs : OrdSet vs) (hes : EdgeSet es)
    (hsource : ∀ e ∈ es, e.1 ∈ vs) :
    (∀ u w, Edge (pToSGroup vs es) u w ↔ (u, w) ∈ es) ∧ ∀ p ∈ pToSGroup vs es, OrdSet p.2 := by
  induction vs generalizing es with
  | nil =>
    cases es with
    | nil => simp [pToSGroup]
    | cons e es => exact absurd (hsource e List.mem_cons_self) List.not_mem_nil
  | cons v vs ih =>
    obtain ⟨hlt, hvs'⟩ := List.pairwise_cons.mp hvs
    have hle : ∀ e ∈ es, v ≤ e.1 := fun e he =>
      (List.mem_cons.mp (hsource e he)).elim (fun h => h.ge) fun h => (hlt _ h).le
    obtain ⟨hmem, hord, hrest, hset⟩ := pToSGroup4_spec hes hle
    obtain ⟨hedge, hneigh⟩ := ih hvs' hset fun e he =>
      (List.mem_cons.mp (hsource e ((hrest e).mp he).1)).resolve_left ((hrest e).mp he).2
    rw [pToSGroup]
    refine ⟨fun u w => ?_, fun p hp => ?_⟩
    · rw [edge_cons, hedge, hrest, hmem]
      constructor
      · rintro (⟨rfl, h⟩ | h)
        · exact h
        · exact h.1
      · intro h
        by_cases hu : u = v
        · exact .inl ⟨hu, hu ▸ h⟩
        · exact .inr ⟨h, hu⟩
    · cases List.mem_cons.mp hp with
      | inl heq => exact heq ▸ hord
      | inr hp => exact hneigh p hp

/-- The graph of a list of edges has these edges and their ends. -/
theorem pToSGraph_represents (es : List (α × α)) :
    Represents (pToSGraph es) (fun v => ∃ e ∈ es, v = e.1 ∨ v = e.2) fun u v => (u, v) ∈ es := by
  have hvertex : ∀ v, v ∈ vertices (pToSGraph es) ↔ ∃ e ∈ es, v = e.1 ∨ v = e.2 := by
    intro v
    simp only [pToSGraph, vertices_pToSGroup, mem_sort, mem_pToSVertices, mem_sortEdges]
  obtain ⟨hedge, hord⟩ := pToSGroup_spec (ordSet_sort (pToSVertices (sortEdges es))) (edgeSet_sortEdges es)
    fun e he => mem_sort.mpr (mem_pToSVertices.mpr ⟨e, he, .inl rfl⟩)
  have hedge' : ∀ u v, Edge (pToSGraph es) u v ↔ (u, v) ∈ es := fun u v => (hedge u v).trans mem_sortEdges
  refine ⟨wf_of_edges ?_ hord fun u v he => ?_, hvertex, hedge'⟩
  · rw [pToSGraph, vertices_pToSGroup]
    exact ordSet_sort _
  · exact (hvertex v).mpr ⟨(u, v), (hedge' u v).mp he, .inr rfl⟩

end Order

end Ugraphs

end Yap
