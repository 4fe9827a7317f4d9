-- SUMMARY: Additions of edges in library(wdgraphs): when they set the weights of the given edges.
import Yap.Library.Wdgraphs.Graph

/-!
# Additions

A row is merged with the new one by the neighbours, but a single edge is put
in as a term `V2-W`, beside an old weight of the same edge.
-/

namespace Yap

namespace Wdgraphs

open Ordsets Rbtrees

variable {κ W : Type*} [LinearOrder κ] [LinearOrder W]

variable {g : WGraph κ W} {vertex vertex' : κ → Prop} {edge edge' : κ → κ → W → Prop}

omit [LinearOrder W] in
theorem Represents.no_edges (h : Represents g vertex edge) {u : κ} (hu : Assoc.value u g.toList = none) (v : κ)
    (w : W) : ¬ edge u v w := by
  intro he
  obtain ⟨row, hrow, -⟩ := (edge_iff_value h.valid).mp ((h.edges u v w).mpr he)
  rw [hu] at hrow
  cases hrow

omit [LinearOrder W] in
theorem Represents.updateVertex (h : Represents g vertex edge) (v : κ) {row : List (κ × W)}
    (hrow : Assoc.Sorted row) :
    Represents (wdgraphUpdateVertex v row g) (fun u => vertex u ∨ u = v)
      fun u x w => u = v ∧ (x, w) ∈ row ∨ edge u x w ∧ ¬ (u = v ∧ x ∈ row.map Prod.fst) := by
  unfold wdgraphUpdateVertex
  cases hv : Assoc.value v g.toList with
  | none =>
    rw [apply_none h.valid.sorted _ hv]
    refine (h.put (h.valid.rbInsert v row) hrow (toList_rbInsert h.valid.sorted v row)).congr
      (fun _ => Iff.rfl) fun u x w => ?_
    by_cases hu : u = v
    · subst hu
      simp [h.no_edges hv]
    · simp [hu]
  | some row0 =>
    obtain ⟨hrow0, hmem0⟩ := h.row hv
    obtain ⟨hsorted, hmem⟩ := keyUnion_spec hrow hrow0
    obtain ⟨g', heq, hvalid, hlist⟩ := h.valid.rbApply_some (fun edges0 => some (keyUnion row edges0)) hv rfl
    rw [heq]
    refine (h.put hvalid hsorted hlist).congr (fun _ => Iff.rfl) fun u x w => ?_
    by_cases hu : u = v
    · subst hu
      simp [hmem, hmem0]
    · simp [hu]

omit [LinearOrder W] in
theorem Represents.addRows (h : Represents g vertex edge) {vs : List κ} {f : κ → List (κ × W)}
    (hf : ∀ v ∈ vs, Assoc.Sorted (f v)) :
    Represents (vs.foldl (fun g v => wdgraphUpdateVertex v (f v) g) g) (fun u => vertex u ∨ u ∈ vs)
      fun u x w => u ∈ vs ∧ (x, w) ∈ f u ∨ edge u x w ∧ ¬ (u ∈ vs ∧ x ∈ (f u).map Prod.fst) := by
  induction vs generalizing g vertex edge with
  | nil => exact h.congr (fun u => by simp) fun u x w => by simp
  | cons v vs ih =>
    obtain ⟨hv, hf'⟩ := List.forall_mem_cons.mp hf
    refine (ih (h.updateVertex v hv) hf').congr (fun u => by simp [or_assoc]) fun u x w => ?_
    have hkey : (x, w) ∈ f u → x ∈ (f u).map Prod.fst := fun hmem => List.mem_map_of_mem hmem
    by_cases hu : u = v
    · subst hu
      simp only [List.mem_cons, true_or, true_and]
      tauto
    · simp [hu]

/-- The weight of one edge is set. -/
def SetsEdge (g : WGraph κ W) (u v : κ) (w : W) (g' : WGraph κ W) : Prop :=
  Represents g' (fun a => Vertex g a ∨ a = u ∨ a = v)
    fun a b x => a = u ∧ b = v ∧ x = w ∨ ¬ (a = u ∧ b = v) ∧ Edge g a b x

/-- The weights of the given edges are set. -/
def SetsEdges (g : WGraph κ W) (es : List (WEdge κ W)) (g' : WGraph κ W) : Prop :=
  Represents g' (fun a => Vertex g a ∨ ∃ e ∈ es, a = e.1 ∨ a = e.2.1)
    fun a b x => (a, b, x) ∈ es ∨ (∀ y, (a, b, y) ∉ es) ∧ Edge g a b x

omit [LinearOrder κ] [LinearOrder W] in
theorem mem_allVerticesInWedges {es : List (WEdge κ W)} {v : κ} :
    v ∈ allVerticesInWedges es ↔ ∃ e ∈ es, v = e.1 ∨ v = e.2.1 := by
  induction es with
  | nil => simp [allVerticesInWedges]
  | cons e es ih =>
    obtain ⟨v1, v2, w⟩ := e
    simp only [allVerticesInWedges, List.mem_cons, ih, exists_eq_or_imp, or_assoc]

/-- Each given edge has one weight. -/
def OneWeight (es : List (WEdge κ W)) : Prop := ∀ u v w w', (u, v, w) ∈ es → (u, v, w') ∈ es → w = w'

/-- The additions set the weights exactly if no edge is given with two. -/
theorem wdgraphAddEdges_iff (h : Graph g) (es : List (WEdge κ W)) :
    (∃ g', wdgraphAddEdges g es = some g' ∧ SetsEdges g es g') ↔ OneWeight es := by
  constructor
  · rintro ⟨g', -, hg'⟩ u v w w' hw hw'
    exact hg'.functional (.inl hw) (.inl hw')
  · intro hone
    have hset := wedgeSet_sortWedges es
    have hsource : ∀ e ∈ sortWedges es, e.1 ∈ sort (allVerticesInWedges (sortWedges es)) := fun e he =>
      mem_sort.mpr (mem_allVerticesInWedges.mpr ⟨e, he, .inl rfl⟩)
    have hrows : ∀ v, Assoc.Sorted (rowOf (sortWedges es) v) := fun v => by
      refine sorted_of_lex (hset.lex_row v) fun k w w' hw hw' => ?_
      rw [mem_rowOf, mem_sortWedges] at hw hw'
      exact hone v k w w' hw hw'
    have hvertex : ∀ v, v ∈ sort (allVerticesInWedges (sortWedges es)) ↔ ∃ e ∈ es, v = e.1 ∨ v = e.2.1 := fun v => by
      simp only [mem_sort, mem_allVerticesInWedges, mem_sortWedges]
    have hgiven : ∀ u x w, u ∈ sort (allVerticesInWedges (sortWedges es)) ∧ (x, w) ∈ rowOf (sortWedges es) u ↔
        (u, x, w) ∈ es := fun u x w => by
      rw [mem_rowOf, mem_sortWedges]
      exact and_iff_right_of_imp fun he => (hvertex u).mpr ⟨_, he, .inl rfl⟩
    have hkeys : ∀ u x, u ∈ sort (allVerticesInWedges (sortWedges es)) ∧ x ∈ (rowOf (sortWedges es) u).map Prod.fst ↔
        ∃ y, (u, x, y) ∈ es := fun u x => by
      simp only [← hgiven]
      simp
    unfold wdgraphAddEdges
    split
    case h_1 =>
      rw [edges2wgraphl_eq (ordSet_sort _) hset.le hsource, Option.bind_some]
      have hsorted : Assoc.Sorted ((sort (allVerticesInWedges (sortWedges es))).map
          fun v => (v, rowOf (sortWedges es) v)) := List.pairwise_map.mpr (ordSet_sort _)
      obtain ⟨g', heq, hvalid, hlist⟩ := ordListToRbtree_spec hsorted
      refine ⟨g', heq, hvalid, fun p hp => ?_, fun v => ?_, fun u x w => ?_⟩
      · rw [hlist] at hp
        obtain ⟨v, -, rfl⟩ := List.mem_map.mp hp
        exact hrows v
      · have hno : ¬ Vertex (.nil : WGraph κ W) v := by simp [Vertex]
        rw [Vertex, hlist, List.map_map, or_iff_right hno, ← hvertex]
        simp
      · have hno : ¬ Edge (.nil : WGraph κ W) u x w := by simp [Edge]
        rw [or_iff_left fun he => hno he.2, ← hgiven, Edge, hlist]
        constructor
        · rintro ⟨row, hrow, hw⟩
          obtain ⟨v, hv, heq⟩ := List.mem_map.mp hrow
          cases heq
          exact ⟨hv, hw⟩
        · exact fun he => ⟨_, List.mem_map.mpr ⟨u, he.1, rfl⟩, he.2⟩
    case h_2 =>
      refine ⟨_, addEdges_eq (ordSet_sort _) hset.le hsource g, ?_⟩
      refine (h.addRows fun v _ => hrows v).congr (fun v => or_congr_right (hvertex v)) fun u x w => ?_
      rw [hgiven, hkeys, not_exists, and_comm (a := Edge g u x w)]

omit [LinearOrder W] in
/-- What a call on the value of a key was when it succeeded. -/
theorem rbApply_eq_some {g g' : WGraph κ W} (hg : Valid g) {v : κ} {goal : List (κ × W) → Option (List (κ × W))}
    (h : rbApply g v goal = some g') :
    ∃ row r, Assoc.value v g.toList = some row ∧ goal row = some r ∧ Valid g' ∧
      g'.toList = Assoc.put v r g.toList := by
  cases hv : Assoc.value v g.toList with
  | none =>
    rw [apply_none hg.sorted goal hv] at h
    cases h
  | some row =>
    cases hgoal : goal row with
    | none =>
      rw [(apply_some hg.sorted goal hv).1 hgoal] at h
      cases h
    | some r =>
      obtain ⟨t, heq, hvalid, hlist⟩ := hg.rbApply_some goal hv hgoal
      rw [h] at heq
      cases heq
      exact ⟨row, r, rfl, hgoal, hvalid, hlist⟩

omit [LinearOrder W] in
theorem Represents.addVertex (h : Represents g vertex edge) (v : κ) :
    Represents (wdgraphAddVertex g v) (fun u => vertex u ∨ u = v) edge := by
  unfold wdgraphAddVertex
  rw [h.valid.lookup_eq]
  cases hv : Assoc.value v g.toList with
  | some row =>
    refine h.congr (fun u => ⟨.inl, ?_⟩) fun _ _ _ => Iff.rfl
    rintro (hu | rfl)
    · exact hu
    · exact (h.vertices u).mp (vertex_iff_value.mpr ⟨row, hv⟩)
  | none =>
    refine (h.put (h.valid.rbInsert v []) List.Pairwise.nil (toList_rbInsert h.valid.sorted v [])).congr
      (fun _ => Iff.rfl) fun u x w => ?_
    by_cases hu : u = v
    · subst hu
      simp [h.no_edges hv]
    · simp [hu]

omit [LinearOrder W] in
/-- Another vertex leaves the rows there are. -/
theorem mem_addVertex {g : WGraph κ W} (hg : Valid g) (v : κ) {p : κ × List (κ × W)} (hp : p ∈ g.toList) :
    p ∈ (wdgraphAddVertex g v).toList := by
  unfold wdgraphAddVertex
  rw [hg.lookup_eq]
  cases hv : Assoc.value v g.toList with
  | some row => exact hp
  | none =>
    dsimp only
    rw [toList_rbInsert hg.sorted, Assoc.mem_put]
    exact .inr ⟨hp, Assoc.value_eq_none.mp hv p hp⟩

/-- The addition of an edge sets its weight exactly if it has no other one. -/
theorem wdgraphAddEdge_iff (h : Graph g) (u v : κ) (w : W) :
    SetsEdge g u v w (wdgraphAddEdge g u v w) ↔ ∀ w', Edge g u v w' → w' = w := by
  unfold wdgraphAddEdge wdgraphNewEdge
  cases hu : Assoc.value u g.toList with
  | none =>
    rw [apply_none h.valid.sorted _ hu]
    refine iff_of_true ?_ fun w' he => absurd he (h.no_edges hu v w')
    have hput := h.put (h.valid.rbInsert u [(v, w)]) (List.pairwise_singleton _ _)
      (toList_rbInsert h.valid.sorted u [(v, w)])
    refine (hput.addVertex v).congr (fun a => or_assoc) fun a b x => ?_
    by_cases ha : a = u
    · subst ha
      simp [h.no_edges hu]
    · simp [ha]
  | some row =>
    obtain ⟨hrow, hmem⟩ := h.row hu
    obtain ⟨g', heq, hvalid, hlist⟩ :=
      h.valid.rbApply_some (fun children0 => some (insertEdge v w children0)) hu rfl
    rw [heq]
    have hsorted : Assoc.Sorted (insertEdge v w row) ↔ ∀ w', Edge g u v w' → w' = w :=
      (sorted_insertEdge hrow).trans (forall_congr' fun w' => by rw [hmem])
    rw [← hsorted]
    constructor
    · intro hset
      refine hset.rows (u, insertEdge v w row) (mem_addVertex hvalid v ?_)
      rw [hlist, Assoc.mem_put]
      exact .inl rfl
    · intro hs
      have hone := (sorted_insertEdge hrow).mp hs
      refine ((h.put hvalid hs hlist).addVertex v).congr (fun a => or_assoc) fun a b x => ?_
      by_cases ha : a = u
      · subst ha
        simp only [mem_insertEdge, Prod.mk.injEq, hmem, true_and, ne_eq, not_true_eq_false, false_and, or_false]
        have hold : b = v → Edge g a b x → x = w := fun hb he => hone x (hb ▸ (hmem b x).mpr he)
        tauto
      · simp [ha]

end Wdgraphs

end Yap
