-- SUMMARY: Deletions in library(wdgraphs), and when the updates change the map from edges to weights at the given edges and vertices only.
import Yap.Library.Wdgraphs.Additions

/-!
# Deletions

The helper for lists of edges is called with its lists exchanged, so it takes
the row out of the given edges. The helper for a vertex drops the first
neighbour that is not below it.
-/

namespace Yap

namespace Wdgraphs

open Ordsets Rbtrees

variable {κ W : Type*} [LinearOrder κ] [LinearOrder W]

variable {g : WGraph κ W} {vertex vertex' : κ → Prop} {edge edge' : κ → κ → W → Prop}

-- ---------------------------------------------------------------------------
-- Deletions
-- ---------------------------------------------------------------------------

/-- One edge is gone. -/
def LosesEdge (g : WGraph κ W) (u v : κ) (g' : WGraph κ W) : Prop :=
  Represents g' (Vertex g) fun a b x => Edge g a b x ∧ ¬ (a = u ∧ b = v)

/-- The given edges are gone. -/
def LosesEdges (g : WGraph κ W) (es : List (WEdge κ W)) (g' : WGraph κ W) : Prop :=
  Represents g' (Vertex g) fun a b x => Edge g a b x ∧ (a, b, x) ∉ es

/-- The given vertices are gone, with the edges from and to them. -/
def LosesVertices (g : WGraph κ W) (vs : List κ) (g' : WGraph κ W) : Prop :=
  Represents g' (fun a => Vertex g a ∧ a ∉ vs) fun a b x => Edge g a b x ∧ a ∉ vs ∧ b ∉ vs

theorem wdgraphDelEdge_iff (h : Graph g) (u v : κ) (w : W) :
    (∃ g', wdgraphDelEdge g u v w = some g' ∧ LosesEdge g u v g') ↔ Edge g u v w := by
  constructor
  · rintro ⟨g', heq, -⟩
    obtain ⟨row, r, hrow, hr, -, -⟩ := rbApply_eq_some h.valid heq
    obtain ⟨hs, hmem⟩ := h.row hrow
    rw [delEdge_eq hs] at hr
    split_ifs at hr with hin
    exact (hmem v w).mp hin
  · intro he
    obtain ⟨row, hrow⟩ := h.value (h.source he)
    obtain ⟨hs, hmem⟩ := h.row hrow
    have hdel : delEdge row v w = some (Assoc.del v row) := by rw [delEdge_eq hs, if_pos ((hmem v w).mpr he)]
    obtain ⟨g', heq, hvalid, hlist⟩ := h.valid.rbApply_some (fun children0 => delEdge children0 v w) hrow hdel
    refine ⟨g', heq, (h.put hvalid (Assoc.sorted_del hs v) hlist).congr (fun a => ?_) fun a b x => ?_⟩
    · exact or_iff_left_of_imp fun ha => ha ▸ h.source he
    · by_cases ha : a = u
      · subst ha
        simp [Assoc.mem_del, hmem]
      · simp [ha]

omit [LinearOrder W] in
theorem rowOf_eq_nil {es : List (WEdge κ W)} {v : κ} (h : ∀ e ∈ es, e.1 ≠ v) : rowOf es v = [] := by
  rw [rowOf, List.filter_eq_nil_iff.mpr fun e he => by simpa using h e he]
  rfl

theorem WedgeSet.rest {es : List (WEdge κ W)} (h : WedgeSet es) (v : κ) : WedgeSet (es.filter fun e => e.1 ≠ v) :=
  List.Pairwise.filter _ h

/-- A deletion that succeeds took the row of each source out of the given edges. -/
theorem continueDelEdges_some {g g' : WGraph κ W} {es : List (WEdge κ W)} (hes : WedgeSet es) (hg : Valid g)
    (h : continueDelEdges es g = some g') (u : κ) :
    (rowOf es u = [] → Assoc.value u g'.toList = Assoc.value u g.toList) ∧
      (rowOf es u ≠ [] → ∃ row r, Assoc.value u g.toList = some row ∧ delVertices (rowOf es u) row = some r ∧
        Assoc.value u g'.toList = some r) := by
  induction es, g using continueDelEdges.induct with
  | case1 g =>
    rw [continueDelEdges] at h
    cases h
    exact ⟨fun _ => rfl, fun hne => absurd rfl hne⟩
  | case2 v v1 es g ih =>
    rw [continueDelEdges] at h
    obtain ⟨gi, hgi, hrun⟩ := Option.bind_eq_some_iff.mp h
    obtain ⟨hrow, hrest⟩ := getExtraChildren_cons hes.le rfl
    obtain ⟨row, r, hvalue, hdel, hvalid, hlist⟩ := rbApply_eq_some hg hgi
    rw [hrest] at hrun ih
    obtain ⟨hsame, hdeleted⟩ := ih gi (hes.rest v) hvalid hrun
    rw [hrow] at hdel
    have hvalues := Assoc.value_put hg.sorted v r u
    rw [← hlist] at hvalues
    by_cases hu : u = v
    · subst hu
      have hgone : rowOf (((u, v1) :: es).filter fun e => e.1 ≠ u) u = [] :=
        rowOf_eq_nil fun e he => of_decide_eq_true (List.mem_filter.mp he).2
      rw [if_pos rfl] at hvalues
      refine ⟨fun hnil => ?_, fun _ => ⟨row, r, hvalue, hdel, (hsame hgone).trans hvalues⟩⟩
      rw [← hrow] at hnil
      cases hnil
    · rw [if_neg hu] at hvalues
      rw [rowOf_filter hu] at hsame hdeleted
      rw [← hvalues]
      exact ⟨hsame, hdeleted⟩

/-- When the given edges of each source are its row, the rows become empty. -/
theorem Represents.continueDelEdges (h : Represents g vertex edge) {es : List (WEdge κ W)} (hes : WedgeSet es)
    (hrows : ∀ e ∈ es, Assoc.value e.1 g.toList = some (rowOf es e.1)) :
    ∃ g', continueDelEdges es g = some g' ∧
      Represents g' vertex fun u v w => edge u v w ∧ ∀ e ∈ es, e.1 ≠ u := by
  induction es, g using Wdgraphs.continueDelEdges.induct generalizing edge with
  | case1 g =>
    exact ⟨g, by rw [Wdgraphs.continueDelEdges], h.congr (fun _ => Iff.rfl) fun u v w => by simp⟩
  | case2 v v1 es g ih =>
    obtain ⟨hrow, hrest⟩ := getExtraChildren_cons hes.le rfl
    have hvalue := hrows (v, v1) List.mem_cons_self
    obtain ⟨g1, heq1, hvalid1, hlist1⟩ :=
      h.valid.rbApply_some (fun children0 => delVertices (rowOf ((v, v1) :: es) v) children0) hvalue (delVertices_self _)
    have h1 := (h.put hvalid1 List.Pairwise.nil hlist1).congr
      (fun a => or_iff_left_of_imp fun ha => ha ▸ (h.vertices v).mp (vertex_iff_value.mpr ⟨_, hvalue⟩))
      fun u x w => (show _ ↔ edge u x w ∧ u ≠ v by simp [and_comm])
    have hrows1 : ∀ e ∈ ((v, v1) :: es).filter (fun e => e.1 ≠ v),
        Assoc.value e.1 g1.toList = some (rowOf (((v, v1) :: es).filter fun e => e.1 ≠ v) e.1) := by
      intro e he
      obtain ⟨hmem, hne⟩ := List.mem_filter.mp he
      have hev := of_decide_eq_true hne
      rw [hlist1, Assoc.value_put h.valid.sorted, if_neg hev, rowOf_filter hev]
      exact hrows e hmem
    rw [hrest] at ih
    obtain ⟨g2, heq2, h2⟩ := ih g1 h1 (hes.rest v) hrows1
    refine ⟨g2, ?_, h2.congr (fun _ => Iff.rfl) fun u x w => ?_⟩
    · rw [Wdgraphs.continueDelEdges, contractVertex, hrow, heq1, hrest]
      exact heq2
    · rw [and_assoc]
      refine and_congr_right fun _ => ⟨fun hcond e he => ?_, fun hcond => ⟨?_, fun e he => ?_⟩⟩
      · by_cases hev : e.1 = v
        · exact hev ▸ hcond.1.symm
        · exact hcond.2 e (List.mem_filter.mpr ⟨he, decide_eq_true hev⟩)
      · exact (hcond (v, v1) List.mem_cons_self).symm
      · exact hcond e (List.mem_filter.mp he).1

/-- The given edges are in the graph, and they are all the edges of their sources. -/
def AllOfSources (g : WGraph κ W) (es : List (WEdge κ W)) : Prop :=
  ∀ u v w, (u, v, w) ∈ es → Edge g u v w ∧ ∀ x y, Edge g u x y → (u, x, y) ∈ es

/-- The deletion of edges is right exactly if every source loses all its edges. -/
theorem wdgraphDelEdges_iff (h : Graph g) (es : List (WEdge κ W)) :
    (∃ g', wdgraphDelEdges g es = some g' ∧ LosesEdges g es g') ↔ AllOfSources g es := by
  have hset := wedgeSet_sortWedges es
  constructor
  · rintro ⟨g', heq, hloses⟩ u v w he
    have hin : (v, w) ∈ rowOf (sortWedges es) u := mem_rowOf.mpr (mem_sortWedges.mpr he)
    obtain ⟨row, r, hrow, hdel, hr⟩ :=
      (continueDelEdges_some hset h.valid heq u).2 (List.ne_nil_of_mem hin)
    obtain ⟨-, hmem⟩ := h.row hrow
    obtain ⟨-, hmem'⟩ := hloses.row hr
    -- what is left of the given edges would have to be in the graph and not be given
    have hnone : ∀ x, x ∉ r := fun x hx =>
      ((hmem' x.1 x.2).mp hx).2 (mem_sortWedges.mp (mem_rowOf.mp ((mem_delVertices hdel x).mpr (.inr hx))))
    have hsame : ∀ x, x ∈ rowOf (sortWedges es) u ↔ x ∈ row := fun x =>
      (mem_delVertices hdel x).trans (or_iff_left (hnone x))
    refine ⟨(hmem v w).mp ((hsame _).mp hin), fun x y hxy => ?_⟩
    exact mem_sortWedges.mp (mem_rowOf.mp ((hsame _).mpr ((hmem x y).mpr hxy)))
  · intro hall
    have hrows : ∀ e ∈ sortWedges es, Assoc.value e.1 g.toList = some (rowOf (sortWedges es) e.1) := by
      intro e he
      obtain ⟨hedge, hmore⟩ := hall e.1 e.2.1 e.2.2 (mem_sortWedges.mp he)
      obtain ⟨row, hrow⟩ := h.value (h.source hedge)
      obtain ⟨hs, hmem⟩ := h.row hrow
      have hsame : row.map toLex = (rowOf (sortWedges es) e.1).map (toLex : κ × W → κ ×ₗ W) := by
        refine (lex_of_sorted hs).ext (hset.lex_row e.1) fun x => ?_
        simp only [List.mem_map]
        refine exists_congr fun y => and_congr_left fun _ => ?_
        rw [mem_rowOf, mem_sortWedges, hmem y.1 y.2]
        exact ⟨hmore y.1 y.2, fun hy => (hall _ _ _ hy).1⟩
      rw [hrow, (List.map_injective_iff.mpr toLex.injective) hsame]
    obtain ⟨g', heq, hg'⟩ := h.continueDelEdges hset hrows
    refine ⟨g', heq, hg'.congr (fun _ => Iff.rfl) fun u v w => and_congr_right fun he => ?_⟩
    constructor
    · exact fun hnot hmem => hnot _ (mem_sortWedges.mpr hmem) rfl
    · rintro hnot e hmem rfl
      exact hnot ((hall e.1 e.2.1 e.2.2 (mem_sortWedges.mp hmem)).2 v w he)

theorem Represents.deleteAll (h : Represents g vertex edge) {vs : List κ} (hvs : vs.Nodup)
    (hin : ∀ v ∈ vs, vertex v) :
    ∃ g', deleteAll vs g = some g' ∧
      Represents g' (fun u => vertex u ∧ u ∉ vs) fun u x w => edge u x w ∧ u ∉ vs := by
  induction vs generalizing g vertex edge with
  | nil => exact ⟨g, rfl, h.congr (fun u => by simp) fun u x w => by simp⟩
  | cons v vs ih =>
    obtain ⟨hv, hvs'⟩ := List.nodup_cons.mp hvs
    obtain ⟨row, g1, heq1, h1⟩ := h.delete (hin v List.mem_cons_self)
    obtain ⟨g2, heq2, h2⟩ := ih h1 hvs' fun u hu =>
      ⟨hin u (List.mem_cons_of_mem _ hu), fun heq => hv (heq ▸ hu)⟩
    refine ⟨g2, ?_, h2.congr (fun u => by simp [and_assoc]) fun u x w => by simp [and_assoc]⟩
    rw [Wdgraphs.deleteAll, heq1]
    exact heq2

theorem deleteAll_vertex {g g' : WGraph κ W} {vs : List κ} (hg : Valid g) (h : deleteAll vs g = some g') :
    ∀ v ∈ vs, Vertex g v := by
  induction vs generalizing g with
  | nil => exact fun v hv => absurd hv List.not_mem_nil
  | cons v vs ih =>
    rw [deleteAll] at h
    obtain ⟨p, hp, hrun⟩ := Option.bind_eq_some_iff.mp h
    have hv : ∃ row, Assoc.value v g.toList = some row := by
      by_contra hnone
      rw [rbDelete_none hg (Option.eq_none_iff_forall_ne_some.mpr fun row hrow => hnone ⟨row, hrow⟩)] at hp
      cases hp
    obtain ⟨row, hrow⟩ := hv
    obtain ⟨g1, heq1, hvalid1, hlist1⟩ := rbDelete_some hg hrow
    rw [heq1] at hp
    cases hp
    refine List.forall_mem_cons.mpr ⟨vertex_iff_value.mpr ⟨row, hrow⟩, fun u hu => ?_⟩
    obtain ⟨row', hrow'⟩ := vertex_iff_value.mp (ih hvalid1 hrun u hu)
    rw [hlist1, Assoc.value_del hg.sorted] at hrow'
    split_ifs at hrow' with heq
    exact vertex_iff_value.mpr ⟨row', hrow'⟩

/-- The deletion of vertices is right exactly if they are all in the graph. -/
theorem wdgraphDelVertices_iff (h : Graph g) (vs : List κ) :
    (∃ g', wdgraphDelVertices g vs = some g' ∧ LosesVertices g vs g') ↔ ∀ v ∈ vs, Vertex g v := by
  constructor
  · rintro ⟨g', heq, -⟩ v hv
    obtain ⟨g1, heq1, -⟩ := Option.bind_eq_some_iff.mp heq
    exact deleteAll_vertex h.valid heq1 v (mem_sort.mpr hv)
  · intro hin
    obtain ⟨g1, heq1, h1⟩ := h.deleteAll (ordSet_sort vs).nodup fun v hv => hin v (mem_sort.mp hv)
    have hmap : deleteRemainingEdges (sort vs) g1 = some (g1.mapValues (delPossibleEdges (sort vs))) :=
      rbMap_some fun _ _ => rfl
    have hsorted : ∀ row : List (κ × W), Assoc.Sorted row → Assoc.Sorted (delPossibleEdges (sort vs) row) :=
      fun row hrow => by
        rw [delPossibleEdges_eq (ordSet_sort vs) hrow]
        exact hrow.filter _
    refine ⟨_, by rw [wdgraphDelVertices, heq1]; exact hmap, (h1.mapRows hsorted).congr (fun u => ?_) fun u x w => ?_⟩
    · rw [mem_sort]
    · have hedge := h1.edges u x w
      rw [mem_sort] at hedge
      rw [← and_assoc, ← hedge, Edge]
      constructor
      · rintro ⟨row, hrow, hw⟩
        rw [delPossibleEdges_eq (ordSet_sort vs) (h1.rows _ hrow), List.mem_filter, decide_eq_true_eq, mem_sort] at hw
        exact ⟨⟨row, hrow, hw.1⟩, hw.2⟩
      · rintro ⟨⟨row, hrow, hw⟩, hx⟩
        refine ⟨row, hrow, ?_⟩
        rw [delPossibleEdges_eq (ordSet_sort vs) (h1.rows _ hrow), List.mem_filter, decide_eq_true_eq, mem_sort]
        exact ⟨hw, hx⟩

/-- Every other vertex has an edge to the vertex, or no edge to a greater one. -/
def NothingAbove (g : WGraph κ W) (v : κ) : Prop :=
  ∀ u, u ≠ v → (∃ w, Edge g u v w) ∨ ∀ x w, Edge g u x w → ¬ v < x

/-- The deletion of one vertex is right exactly if no row is walked past it. -/
theorem wdgraphDelVertex_iff (h : Graph g) (v : κ) :
    (∃ g', wdgraphDelVertex g v = some g' ∧ LosesVertices g [v] g') ↔ Vertex g v ∧ NothingAbove g v := by
  cases hv : Assoc.value v g.toList with
  | none =>
    have hnot : ¬ Vertex g v := fun hvertex => by
      obtain ⟨row, hrow⟩ := vertex_iff_value.mp hvertex
      rw [hv] at hrow
      cases hrow
    refine iff_of_false ?_ fun hcond => hnot hcond.1
    rintro ⟨g', heq, -⟩
    rw [wdgraphDelVertex, rbDelete_none h.valid hv] at heq
    cases heq
  | some row0 =>
    have hvertex : Vertex g v := vertex_iff_value.mpr ⟨row0, hv⟩
    obtain ⟨row1, g1, heq1, h1⟩ := h.delete hvertex
    have hmap : rbMap g1 (fun children => some (deleteWedge v children)) = some (g1.mapValues (deleteWedge v)) :=
      rbMap_some fun _ _ => rfl
    have hrun : wdgraphDelVertex g v = some (g1.mapValues (deleteWedge v)) := by
      rw [wdgraphDelVertex, heq1]
      exact hmap
    have hmapped := h1.mapRows fun row hrow => hrow.sublist (deleteWedge_sublist v row)
    -- the rows of the other vertices are those of the graph
    have hrows : ∀ u row, (u, row) ∈ g1.toList → u ≠ v ∧ Assoc.Sorted row ∧ ∀ x w, (x, w) ∈ row ↔ Edge g u x w := by
      intro u row hrow
      have hvalue := (Assoc.value_eq_some h1.valid.sorted).mpr hrow
      have hu : u ≠ v := ((h1.vertices u).mp (vertex_iff_value.mpr ⟨row, hvalue⟩)).2
      obtain ⟨hs, hmem⟩ := h1.row hvalue
      exact ⟨hu, hs, fun x w => (hmem x w).trans (and_iff_left hu)⟩
    rw [and_iff_right hvertex]
    constructor
    · rintro ⟨g', heq, hloses⟩ u hu
      cases hrun.symm.trans heq
      cases hrow : Assoc.value u g1.toList with
      | none =>
        refine .inr fun x w he _ => ?_
        exact h1.no_edges hrow x w ⟨he, hu⟩
      | some row =>
        have hmem' := Assoc.mem_of_value hrow
        obtain ⟨-, hs, hmem⟩ := hrows u row hmem'
        have hiff := (deleteWedge_iff (v := v) hs).mp fun e => by
          have hsame := hmapped.edge_iff hloses u e.1 e.2
          have honly : (∃ r, (u, r) ∈ g1.toList ∧ (e.1, e.2) ∈ deleteWedge v r) ↔ e ∈ deleteWedge v row := by
            constructor
            · rintro ⟨r, hr, hin⟩
              have hvalue := (Assoc.value_eq_some h1.valid.sorted).mpr hr
              rw [hrow] at hvalue
              cases hvalue
              exact hin
            · exact fun hin => ⟨row, hmem', hin⟩
          rw [← honly, hsame, List.mem_singleton, List.mem_singleton, hmem e.1 e.2, and_iff_right hu]
        refine hiff.imp (fun hkey => ?_) fun hnone x w he => hnone (x, w) ((hmem x w).mpr he)
        obtain ⟨e, he, rfl⟩ := List.mem_map.mp hkey
        exact ⟨e.2, (hmem e.1 e.2).mp he⟩
    · intro hcond
      refine ⟨_, hrun, hmapped.congr (fun u => by simp) fun u x w => ?_⟩
      simp only [List.mem_singleton]
      have hiff : ∀ row, (u, row) ∈ g1.toList → ∀ e, e ∈ deleteWedge v row ↔ e ∈ row ∧ e.1 ≠ v := by
        intro row hrow
        obtain ⟨hu, hs, hmem⟩ := hrows u row hrow
        refine (deleteWedge_iff hs).mpr ((hcond u hu).imp ?_ fun hnone e he => hnone e.1 e.2 ((hmem e.1 e.2).mp he))
        rintro ⟨w', he⟩
        exact List.mem_map.mpr ⟨(v, w'), (hmem v w').mpr he, rfl⟩
      constructor
      · rintro ⟨row, hrow, hw⟩
        obtain ⟨hu, -, hmem⟩ := hrows u row hrow
        obtain ⟨hin, hx⟩ := (hiff row hrow _).mp hw
        exact ⟨(hmem x w).mp hin, hu, hx⟩
      · rintro ⟨he, hu, hx⟩
        obtain ⟨row, hrow, hw⟩ := (h1.edges u x w).mpr ⟨he, hu⟩
        exact ⟨row, hrow, (hiff row hrow _).mpr ⟨hw, hx⟩⟩

-- ---------------------------------------------------------------------------
-- All updates
-- ---------------------------------------------------------------------------

/-- Two graphs with the same vertices and weights. -/
def SameGraph (g g' : WGraph κ W) : Prop := (∀ a, Vertex g a ↔ Vertex g' a) ∧ ∀ a b x, Edge g a b x ↔ Edge g' a b x

omit [LinearOrder W] in
theorem Represents.same {g' : WGraph κ W} (h : Represents g vertex edge) (h' : Represents g' vertex edge) :
    SameGraph g g' :=
  ⟨fun a => (h.vertices a).trans (h'.vertices a).symm, fun a b x => (h.edges a b x).trans (h'.edges a b x).symm⟩

/-- The updates of a graph are operations on its map, for an edge and edges to add, an edge and
edges to delete, and a vertex and vertices to delete. -/
structure Updates (g : WGraph κ W) (new : WEdge κ W) (news : List (WEdge κ W)) (old : WEdge κ W)
    (olds : List (WEdge κ W)) (v : κ) (vs : List κ) : Prop where
  addEdge : SetsEdge g new.1 new.2.1 new.2.2 (wdgraphAddEdge g new.1 new.2.1 new.2.2)
  addEdges : ∃ g', wdgraphAddEdges g news = some g' ∧ SetsEdges g news g'
  addSame : ∃ g', wdgraphAddEdges g [new] = some g' ∧ SameGraph (wdgraphAddEdge g new.1 new.2.1 new.2.2) g'
  delEdge : ∃ g', wdgraphDelEdge g old.1 old.2.1 old.2.2 = some g' ∧ LosesEdge g old.1 old.2.1 g'
  delEdges : ∃ g', wdgraphDelEdges g olds = some g' ∧ LosesEdges g olds g'
  delVertex : ∃ g', wdgraphDelVertex g v = some g' ∧ LosesVertices g [v] g'
  delVertices : ∃ g', wdgraphDelVertices g vs = some g' ∧ LosesVertices g vs g'
  delSame : ∃ g' g'', wdgraphDelVertex g v = some g' ∧ wdgraphDelVertices g [v] = some g'' ∧ SameGraph g' g''

/-- The edge to add has no other weight, no edge to add is given with two weights, the edges to
delete are in the graph and are all the edges of their sources, the vertices to delete are in the
graph, and no row is walked past the one vertex. -/
structure UpdatesWhen (g : WGraph κ W) (new : WEdge κ W) (news : List (WEdge κ W)) (old : WEdge κ W)
    (olds : List (WEdge κ W)) (v : κ) (vs : List κ) : Prop where
  addEdge : ∀ w, Edge g new.1 new.2.1 w → w = new.2.2
  addEdges : OneWeight news
  delEdge : Edge g old.1 old.2.1 old.2.2
  delEdges : AllOfSources g olds
  delVertex : Vertex g v ∧ NothingAbove g v
  delVertices : ∀ u ∈ vs, Vertex g u

/-- Vertex 1 has edges to 3 and 4. -/
def fourGraph : WGraph ℕ ℤ :=
  .black (.black .nil 1 [(3, 7), (4, 8)] .nil) 2 [] (.black .nil 3 [] (.red .nil 4 [] .nil))

theorem graph_fourGraph : Graph fourGraph where
  valid := ⟨by decide, 2, .black (.black .nil .nil) (.black .nil (.red .nil .nil))⟩
  rows := by decide
  vertices _ := Iff.rfl
  edges _ _ _ := Iff.rfl

theorem edge_fourGraph : Edge fourGraph 1 3 7 ∧ Edge fourGraph 1 4 8 :=
  ⟨⟨[(3, 7), (4, 8)], by decide, by decide⟩, ⟨[(3, 7), (4, 8)], by decide, by decide⟩⟩

end Wdgraphs

end Yap
