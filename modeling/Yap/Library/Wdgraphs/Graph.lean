-- SUMMARY: Weighted graphs of library(wdgraphs) as vertices and weights of edges; new rows, and the rows of a list of edges.
import Yap.Library.Wdgraphs.Update

/-!
# Weighted graphs as maps

A graph is described by its vertices and by the relation between an edge and
its weight. An update of a list of edges goes through the sorted vertices and
the sorted edges; the edges from one vertex are a row.
-/

namespace Yap

namespace Wdgraphs

open Ordsets Rbtrees

variable {κ W : Type*} [LinearOrder κ] [LinearOrder W]

/-- A valid tree of rows in strictly increasing order of the neighbours, with the vertices and the
weights of the edges. -/
structure Represents (g : WGraph κ W) (vertex : κ → Prop) (edge : κ → κ → W → Prop) : Prop where
  valid : Valid g
  rows : ∀ p ∈ g.toList, Assoc.Sorted p.2
  vertices : ∀ v, Vertex g v ↔ vertex v
  edges : ∀ u v w, Edge g u v w ↔ edge u v w

/-- A weighted graph, with its own vertices and edges. -/
def Graph (g : WGraph κ W) : Prop := Represents g (Vertex g) (Edge g)

section Rows

omit [LinearOrder W]

theorem edge_iff_value {g : WGraph κ W} (h : Valid g) {u v : κ} {w : W} :
    Edge g u v w ↔ ∃ row, Assoc.value u g.toList = some row ∧ (v, w) ∈ row := by
  simp only [Edge, Assoc.value_eq_some h.sorted]

theorem vertex_iff_value {g : WGraph κ W} {v : κ} : Vertex g v ↔ ∃ row, Assoc.value v g.toList = some row := by
  cases hv : Assoc.value v g.toList with
  | none =>
    simp only [reduceCtorEq, exists_false, iff_false]
    intro hmem
    obtain ⟨p, hp, heq⟩ := List.mem_map.mp hmem
    exact Assoc.value_eq_none.mp hv p hp heq
  | some row =>
    simp only [Option.some.injEq, exists_eq', iff_true]
    exact List.mem_map_of_mem (f := Prod.fst) (Assoc.mem_of_value hv)

variable {g : WGraph κ W} {vertex vertex' : κ → Prop} {edge edge' : κ → κ → W → Prop}

theorem Represents.congr (h : Represents g vertex edge) (hv : ∀ v, vertex v ↔ vertex' v)
    (he : ∀ u v w, edge u v w ↔ edge' u v w) : Represents g vertex' edge' :=
  ⟨h.valid, h.rows, fun v => (h.vertices v).trans (hv v), fun u v w => (h.edges u v w).trans (he u v w)⟩

/-- A graph represents one relation. -/
theorem Represents.edge_iff (h : Represents g vertex edge) (h' : Represents g vertex' edge') (u v : κ) (w : W) :
    edge u v w ↔ edge' u v w := (h.edges u v w).symm.trans (h'.edges u v w)

theorem Represents.functional (h : Represents g vertex edge) {u v : κ} {w w' : W} (he : edge u v w)
    (he' : edge u v w') : w = w' := by
  obtain ⟨row, hrow, hw⟩ := (edge_iff_value h.valid).mp ((h.edges u v w).mpr he)
  obtain ⟨row', hrow', hw'⟩ := (edge_iff_value h.valid).mp ((h.edges u v w').mpr he')
  obtain rfl : row = row' := Option.some.inj (hrow.symm.trans hrow')
  exact functional_of_sorted (h.rows _ (Assoc.mem_of_value hrow)) v w w' hw hw'

theorem Represents.row (h : Represents g vertex edge) {u : κ} {row : List (κ × W)}
    (hu : Assoc.value u g.toList = some row) : Assoc.Sorted row ∧ ∀ v w, (v, w) ∈ row ↔ edge u v w := by
  refine ⟨h.rows _ (Assoc.mem_of_value hu), fun v w => ?_⟩
  rw [← h.edges, edge_iff_value h.valid]
  simp [hu]

theorem Represents.value (h : Represents g vertex edge) {v : κ} (hv : vertex v) :
    ∃ row, Assoc.value v g.toList = some row :=
  vertex_iff_value.mp ((h.vertices v).mpr hv)

theorem Represents.source (h : Represents g vertex edge) {u v : κ} {w : W} (he : edge u v w) : vertex u := by
  obtain ⟨row, hrow, -⟩ := (edge_iff_value h.valid).mp ((h.edges u v w).mpr he)
  exact (h.vertices u).mp (vertex_iff_value.mpr ⟨row, hrow⟩)

/-- A new row of a vertex. -/
theorem Represents.put {g' : WGraph κ W} (h : Represents g vertex edge) (hg' : Valid g') {k : κ}
    {row : List (κ × W)} (hrow : Assoc.Sorted row) (hlist : g'.toList = Assoc.put k row g.toList) :
    Represents g' (fun v => vertex v ∨ v = k) fun u v w => u = k ∧ (v, w) ∈ row ∨ u ≠ k ∧ edge u v w where
  valid := hg'
  rows p hp := by
    rw [hlist, Assoc.mem_put] at hp
    exact hp.elim (fun heq => heq ▸ hrow) fun hmem => h.rows p hmem.1
  vertices v := by
    rw [← h.vertices, vertex_iff_value, vertex_iff_value, hlist]
    by_cases heq : v = k
    · simp [Assoc.value_put h.valid.sorted, heq]
    · simp [Assoc.value_put h.valid.sorted, heq]
  edges u v w := by
    rw [← h.edges, edge_iff_value hg', edge_iff_value h.valid, hlist]
    by_cases heq : u = k
    · simp [Assoc.value_put h.valid.sorted, heq]
    · simp [Assoc.value_put h.valid.sorted, heq]

/-- The same change of every row. -/
theorem Represents.mapRows (h : Represents g vertex edge) {f : List (κ × W) → List (κ × W)}
    (hf : ∀ row, Assoc.Sorted row → Assoc.Sorted (f row)) :
    Represents (g.mapValues f) vertex fun u v w => ∃ row, (u, row) ∈ g.toList ∧ (v, w) ∈ f row where
  valid := h.valid.mapValues f
  rows p hp := by
    rw [toList_mapValues] at hp
    obtain ⟨q, hq, rfl⟩ := List.mem_map.mp hp
    exact hf _ (h.rows q hq)
  vertices v := by
    rw [← h.vertices, Vertex, toList_mapValues, List.map_map]
    rfl
  edges u v w := by
    simp only [Edge, toList_mapValues, List.mem_map, Prod.mk.injEq]
    constructor
    · rintro ⟨row, ⟨q, hq, rfl, rfl⟩, hw⟩
      exact ⟨q.2, hq, hw⟩
    · rintro ⟨row, hrow, hw⟩
      exact ⟨f row, ⟨(u, row), hrow, rfl, rfl⟩, hw⟩

end Rows

variable {g : WGraph κ W} {vertex vertex' : κ → Prop} {edge edge' : κ → κ → W → Prop}

/-- The tree without the row of a vertex. -/
theorem Represents.delete (h : Represents g vertex edge) {v : κ} (hv : vertex v) :
    ∃ row g', rbDelete g v = some (row, g') ∧
      Represents g' (fun u => vertex u ∧ u ≠ v) fun u x w => edge u x w ∧ u ≠ v := by
  obtain ⟨row, hrow⟩ := h.value hv
  obtain ⟨g', heq, hvalid, hlist⟩ := rbDelete_some h.valid hrow
  refine ⟨row, g', heq, hvalid, fun p hp => ?_, fun u => ?_, fun u x w => ?_⟩
  · rw [hlist] at hp
    exact h.rows p (Assoc.mem_del.mp hp).1
  · rw [← h.vertices, vertex_iff_value, vertex_iff_value, hlist]
    by_cases hu : u = v
    · simp [Assoc.value_del h.valid.sorted, hu]
    · simp [Assoc.value_del h.valid.sorted, hu]
  · rw [← h.edges, edge_iff_value hvalid, edge_iff_value h.valid, hlist]
    by_cases hu : u = v
    · simp [Assoc.value_del h.valid.sorted, hu]
    · simp [Assoc.value_del h.valid.sorted, hu]

-- ---------------------------------------------------------------------------
-- Given edges
-- ---------------------------------------------------------------------------

/-- The neighbours and weights of a vertex in a list of edges. -/
def rowOf (es : List (WEdge κ W)) (v : κ) : List (κ × W) := (es.filter fun e => e.1 = v).map Prod.snd

/-- Edges in the order of terms. -/
def WedgeSet (es : List (WEdge κ W)) : Prop :=
  es.Pairwise fun e f => e.1 < f.1 ∨ e.1 = f.1 ∧ (toLex e.2 : κ ×ₗ W) < toLex f.2

omit [LinearOrder W] in
theorem mem_rowOf {es : List (WEdge κ W)} {v : κ} {x : κ × W} : x ∈ rowOf es v ↔ (v, x) ∈ es := by
  simp [rowOf]

theorem mem_sortWedges {es : List (WEdge κ W)} {e : WEdge κ W} : e ∈ sortWedges es ↔ e ∈ es := by
  simp only [sortWedges, List.mem_map, mem_sort]
  constructor
  · rintro ⟨a, ⟨b, hb, rfl⟩, rfl⟩
    exact hb
  · exact fun he => ⟨_, ⟨e, he, rfl⟩, rfl⟩

theorem wedgeSet_sortWedges (es : List (WEdge κ W)) : WedgeSet (sortWedges es) := by
  refine List.pairwise_map.mpr ((ordSet_sort (es.map fun e => toLex (e.1, toLex e.2))).imp ?_)
  intro a b hab
  exact (Prod.Lex.lt_iff (α := κ) (β := κ ×ₗ W)).mp hab

section Groups

variable {es : List (WEdge κ W)}

theorem WedgeSet.le (h : WedgeSet es) : es.Pairwise fun e f => e.1 ≤ f.1 :=
  h.imp fun hef => hef.elim le_of_lt fun heq => heq.1.le

theorem WedgeSet.lex_row (h : WedgeSet es) (v : κ) : OrdSet ((rowOf es v).map toLex) := by
  rw [OrdSet, rowOf, List.map_map, List.pairwise_map]
  refine (List.Pairwise.filter _ h).imp_of_mem fun he hf hef => ?_
  have hev := of_decide_eq_true (List.mem_filter.mp he).2
  have hfv := of_decide_eq_true (List.mem_filter.mp hf).2
  exact (hef.resolve_left (by rw [hev, hfv]; exact lt_irrefl v)).2

omit [LinearOrder W] in
theorem getExtraChildren_eq (hs : es.Pairwise fun e f => e.1 ≤ f.1) {v : κ} (hv : ∀ e ∈ es, v ≤ e.1) :
    getExtraChildren es v = (rowOf es v, es.filter fun e => e.1 ≠ v) := by
  induction es with
  | nil => rfl
  | cons e es ih =>
    obtain ⟨va, c, w⟩ := e
    obtain ⟨hle, hs'⟩ := List.pairwise_cons.mp hs
    obtain ⟨hva, hv'⟩ := List.forall_mem_cons.mp hv
    rw [getExtraChildren]
    split_ifs with heq
    · rw [ih hs' hv']
      simp [rowOf, heq]
    · have hlt : ∀ e ∈ (va, c, w) :: es, e.1 ≠ v := List.forall_mem_cons.mpr
        ⟨heq, fun e he => ((lt_of_le_of_ne hva (Ne.symm heq)).trans_le (hle e he)).ne'⟩
      have hrow : ((va, c, w) :: es).filter (fun e => e.1 = v) = [] :=
        List.filter_eq_nil_iff.mpr fun e he => by simpa using hlt e he
      have hrest : ((va, c, w) :: es).filter (fun e => e.1 ≠ v) = (va, c, w) :: es :=
        List.filter_eq_self.mpr fun e he => by simpa using hlt e he
      rw [rowOf, hrow, hrest]
      rfl

omit [LinearOrder W] in
theorem rowOf_filter {u v : κ} (hu : u ≠ v) : rowOf (es.filter fun e => e.1 ≠ v) u = rowOf es u := by
  rw [rowOf, rowOf, List.filter_filter]
  refine congrArg _ (List.filter_congr fun e _ => ?_)
  by_cases heq : e.1 = u
  · simp [heq, hu]
  · simp [heq]

omit [LinearOrder W] in
/-- The edges of the first source and the rest. -/
theorem getExtraChildren_cons (hs : es.Pairwise fun e f => e.1 ≤ f.1) {v : κ} {e : κ × W}
    {rest : List (WEdge κ W)} (heq : es = (v, e) :: rest) :
    e :: (getExtraChildren rest v).1 = rowOf es v ∧ (getExtraChildren rest v).2 = es.filter fun e => e.1 ≠ v := by
  subst heq
  obtain ⟨hle, hs'⟩ := List.pairwise_cons.mp hs
  rw [getExtraChildren_eq hs' hle]
  simp [rowOf]

variable {vs : List κ} (hvs : OrdSet vs) (hs : es.Pairwise fun e f => e.1 ≤ f.1) (hsource : ∀ e ∈ es, e.1 ∈ vs)

include hvs hs hsource

omit [LinearOrder W] in
/-- What is left for the rest of the vertices. -/
theorem sources_rest {v : κ} {vs' : List κ} (heq : vs = v :: vs') :
    (es.filter fun e => e.1 ≠ v).Pairwise (fun e f => e.1 ≤ f.1) ∧
      (∀ e ∈ es.filter fun e => e.1 ≠ v, e.1 ∈ vs') ∧
      ∀ u ∈ vs', rowOf (es.filter fun e => e.1 ≠ v) u = rowOf es u := by
  subst heq
  refine ⟨hs.filter _, fun e he => ?_, fun u hu => rowOf_filter (hvs.head_lt u hu).ne'⟩
  obtain ⟨hmem, hne⟩ := List.mem_filter.mp he
  exact (List.mem_cons.mp (hsource e hmem)).resolve_left (of_decide_eq_true hne)

omit [LinearOrder W] in
/-- The first edges have the first vertex as their source, or it has no edges. -/
theorem group_cases {v : κ} {vs' : List κ} (heq : vs = v :: vs') :
    (∃ e rest, es = (v, e) :: rest ∧ e :: (getExtraChildren rest v).1 = rowOf es v ∧
      (getExtraChildren rest v).2 = es.filter fun e => e.1 ≠ v) ∨
      (∀ e ∈ es, e.1 ≠ v) ∧ rowOf es v = [] ∧ (es.filter fun e => e.1 ≠ v) = es := by
  subst heq
  by_cases hnone : ∀ e ∈ es, e.1 ≠ v
  · refine .inr ⟨hnone, ?_, List.filter_eq_self.mpr fun e he => by simpa using hnone e he⟩
    rw [rowOf, List.filter_eq_nil_iff.mpr fun e he => by simpa using hnone e he]
    rfl
  · push Not at hnone
    obtain ⟨d, hd, hdv⟩ := hnone
    cases es with
    | nil => cases hd
    | cons e rest =>
      obtain ⟨va, e⟩ := e
      have hva : va ≤ v := by
        cases List.mem_cons.mp hd with
        | inl heq => exact (congrArg Prod.fst heq).symm.le.trans hdv.le
        | inr hmem => exact ((List.pairwise_cons.mp hs).1 d hmem).trans hdv.le
      have hle : v ≤ va := (List.mem_cons.mp (hsource _ List.mem_cons_self)).elim (fun h => h.ge)
        fun h => (hvs.head_lt va h).le
      obtain rfl : va = v := le_antisymm hva hle
      exact .inl ⟨e, rest, rfl, getExtraChildren_cons hs rfl⟩

omit [LinearOrder W] hvs hs hsource in
theorem addEdges_skip {v : κ} (h : ∀ e ∈ es, e.1 ≠ v) (g : WGraph κ W) :
    addEdges (v :: vs) es g = addEdges vs es (wdgraphUpdateVertex v [] g) := by
  cases es with
  | nil => rfl
  | cons e es => exact if_neg (h e List.mem_cons_self).symm

omit [LinearOrder W] hvs hs hsource in
theorem edges2wgraphl_skip {v : κ} (h : ∀ e ∈ es, e.1 ≠ v) :
    edges2wgraphl (v :: vs) es = (edges2wgraphl vs es).map fun graphL => (v, []) :: graphL := by
  cases es with
  | nil => rfl
  | cons e es => exact if_neg (h e List.mem_cons_self).symm

omit [LinearOrder W] in
/-- The list for an empty graph has a row for each vertex. -/
theorem edges2wgraphl_eq : edges2wgraphl vs es = some (vs.map fun v => (v, rowOf es v)) := by
  induction vs generalizing es with
  | nil =>
    cases es with
    | nil => rfl
    | cons e es => exact absurd (hsource e List.mem_cons_self) List.not_mem_nil
  | cons v vs ih =>
    obtain ⟨hs', hsource', hrows⟩ := sources_rest hvs hs hsource rfl
    have hih := ih hvs.tail hs' hsource'
    rw [List.map_congr_left fun u hu => by rw [hrows u hu]] at hih
    rcases group_cases hvs hs hsource rfl with ⟨e, rest, heq, hrow, hrest⟩ | ⟨hnone, hrow, hrest⟩
    · rw [← hrest] at hih
      rw [List.map_cons, ← hrow]
      rw [heq] at hih ⊢
      rw [edges2wgraphl, if_pos rfl, hih]
      rfl
    · rw [hrest] at hih
      rw [edges2wgraphl_skip hnone, hih, List.map_cons, hrow]
      rfl

omit [LinearOrder W] in
/-- For other graphs the same rows are added one by one. -/
theorem addEdges_eq (g : WGraph κ W) :
    addEdges vs es g = some (vs.foldl (fun g v => wdgraphUpdateVertex v (rowOf es v) g) g) := by
  induction vs generalizing es g with
  | nil =>
    cases es with
    | nil => rfl
    | cons e es => exact absurd (hsource e List.mem_cons_self) List.not_mem_nil
  | cons v vs ih =>
    obtain ⟨hs', hsource', hrows⟩ := sources_rest hvs hs hsource rfl
    have hih := fun g => ih hvs.tail hs' hsource' g
    have hfold : ∀ g : WGraph κ W,
        vs.foldl (fun g v' => wdgraphUpdateVertex v' (rowOf (es.filter fun e => e.1 ≠ v) v') g) g =
          vs.foldl (fun g v' => wdgraphUpdateVertex v' (rowOf es v') g) g := fun g =>
      List.foldl_ext _ _ _ fun g u hu => by rw [hrows u hu]
    simp only [hfold] at hih
    rcases group_cases hvs hs hsource rfl with ⟨e, rest, heq, hrow, hrest⟩ | ⟨hnone, hrow, hrest⟩
    · rw [← hrest] at hih
      rw [List.foldl_cons, ← hrow]
      rw [heq] at hih ⊢
      rw [addEdges, if_pos rfl]
      exact hih _
    · rw [hrest] at hih
      rw [addEdges_skip hnone, List.foldl_cons, hrow]
      exact hih _

end Groups

end Wdgraphs

end Yap
