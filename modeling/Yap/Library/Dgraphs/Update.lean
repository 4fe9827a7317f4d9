-- SUMMARY: Directed graphs of library(dgraphs) as red-black trees of neighbour lists, and additions of vertices and edges and deletions of edges as set operations.
import Yap.Library.Rbtrees.Insert
import Yap.Library.Rbtrees.Delete
import Yap.Library.Rbtrees.Maps
import Yap.Library.Ugraphs.Graph

/-!
# Directed graphs and their updates

A graph is a red-black tree from its vertices to ordered sets of vertices. The
entries of the tree are a graph of `library(ugraphs)`, so vertices and edges
are those of this list.

Additions keep a row for every vertex, also for the targets of new edges. The
deletions of single edges and vertices are in another module: they call their
helper with its arguments in another order.
-/

namespace Yap

namespace Dgraphs

section

open Ordsets Rbtrees

abbrev DGraph (α : Type*) := Tree α (List α)

variable {α : Type*}

def Vertex (g : DGraph α) (v : α) : Prop := v ∈ Ugraphs.vertices g.toList

def Edge (g : DGraph α) (u v : α) : Prop := Ugraphs.Edge g.toList u v

variable [LinearOrder α]

/-- A valid tree of ordered sets with the vertices and the edges. -/
structure Describes (g : DGraph α) (vertex : α → Prop) (edge : α → α → Prop) : Prop where
  valid : Valid g
  rows : ∀ p ∈ g.toList, OrdSet p.2
  vertices : ∀ v, Vertex g v ↔ vertex v
  edges : ∀ u v, Edge g u v ↔ edge u v

/-- A graph: the ends of every edge are vertices. -/
structure Represents (g : DGraph α) (vertex : α → Prop) (edge : α → α → Prop) : Prop extends
    Describes g vertex edge where
  inside : ∀ u v, edge u v → vertex v

/-- A well-formed graph, with its own vertices and edges. -/
def Wf (g : DGraph α) : Prop := Represents g (Vertex g) (Edge g)

theorem Represents.wf {g : DGraph α} {vertex : α → Prop} {edge : α → α → Prop}
    (h : Represents g vertex edge) : Wf g where
  valid := h.valid
  rows := h.rows
  vertices _ := Iff.rfl
  edges _ _ := Iff.rfl
  inside u v he := (h.vertices v).mpr (h.inside u v ((h.edges u v).mp he))

theorem Wf.ugraph {g : DGraph α} (h : Wf g) : Ugraphs.Wf g.toList :=
  ⟨Ugraphs.sorted_iff.mp h.valid.sorted, h.rows, fun p hp v hv => h.inside p.1 v ⟨p.2, hp, hv⟩⟩

theorem Describes.congr {g : DGraph α} {vertex vertex' : α → Prop} {edge edge' : α → α → Prop}
    (h : Describes g vertex edge) (hv : ∀ v, vertex v ↔ vertex' v) (he : ∀ u v, edge u v ↔ edge' u v) :
    Describes g vertex' edge' :=
  ⟨h.valid, h.rows, fun v => (h.vertices v).trans (hv v), fun u v => (h.edges u v).trans (he u v)⟩

theorem describes_nil : Describes (.nil : DGraph α) (fun _ => False) fun _ _ => False where
  valid := valid_nil
  rows p hp := absurd hp List.not_mem_nil
  vertices v := by simp [Vertex]
  edges u v := iff_of_false (Ugraphs.edge_nil u v) id

-- ---------------------------------------------------------------------------
-- Rows
-- ---------------------------------------------------------------------------

/-- The children of a vertex are the row that a lookup finds. -/
theorem edge_iff_value {g : DGraph α} (h : Valid g) {u v : α} :
    Edge g u v ↔ ∃ ns, Assoc.value u g.toList = some ns ∧ v ∈ ns := by
  simp only [Edge, Ugraphs.Edge, Assoc.value_eq_some h.sorted]

theorem vertex_iff_value {g : DGraph α} {v : α} : Vertex g v ↔ ∃ ns, Assoc.value v g.toList = some ns := by
  cases hv : Assoc.value v g.toList with
  | none =>
    simp only [reduceCtorEq, exists_false, iff_false]
    intro hmem
    obtain ⟨p, hp, heq⟩ := List.mem_map.mp hmem
    exact Assoc.value_eq_none.mp hv p hp heq
  | some ns =>
    simp only [Option.some.injEq, exists_eq', iff_true]
    exact List.mem_map_of_mem (f := Prod.fst) (Assoc.mem_of_value hv)

theorem value_row {g : DGraph α} {vertex : α → Prop} {edge : α → α → Prop} (h : Describes g vertex edge)
    {v : α} {ns : List α} (hv : Assoc.value v g.toList = some ns) :
    OrdSet ns ∧ ∀ w, w ∈ ns ↔ edge v w := by
  refine ⟨h.rows _ (Assoc.mem_of_value hv), fun w => ?_⟩
  rw [← h.edges, edge_iff_value h.valid]
  simp [hv]

/-- A new row of a vertex. -/
theorem Describes.put {g g' : DGraph α} {vertex : α → Prop} {edge : α → α → Prop}
    (h : Describes g vertex edge) (hg' : Valid g') {k : α} {ns : List α} (hns : OrdSet ns)
    (hlist : g'.toList = Assoc.put k ns g.toList) :
    Describes g' (fun v => v = k ∨ vertex v) fun u v => u = k ∧ v ∈ ns ∨ u ≠ k ∧ edge u v where
  valid := hg'
  rows p hp := by
    rw [hlist, Assoc.mem_put] at hp
    cases hp with
    | inl heq => exact heq ▸ hns
    | inr hmem => exact h.rows p hmem.1
  vertices v := by
    rw [← h.vertices, vertex_iff_value, vertex_iff_value, hlist]
    by_cases heq : v = k
    · simp [Assoc.value_put h.valid.sorted, heq]
    · simp [Assoc.value_put h.valid.sorted, heq]
  edges u v := by
    rw [← h.edges, edge_iff_value hg', edge_iff_value h.valid, hlist]
    by_cases heq : u = k
    · simp [Assoc.value_put h.valid.sorted, heq]
    · simp [Assoc.value_put h.valid.sorted, heq]

end

open Ordsets Rbtrees Ugraphs

variable {α : Type*} [LinearOrder α]

-- ---------------------------------------------------------------------------
-- Code
-- ---------------------------------------------------------------------------

/-- The helper `add_edges/3` of `dgraph_update_vertex/4`. -/
def addChildren (e0 e1 : List α) : List α := ordUnion e0 e1

/-- `rb_apply/4`, and `rb_insert/4` where it fails. -/
def applyOrInsert (vs0 : DGraph α) (v : α) (goal : List α → List α) (children : List α) : DGraph α :=
  match rbApply vs0 v fun val0 => some (goal val0) with
  | some vs => vs
  | none => rbInsert vs0 v children

def dgraphUpdateVertex (v : α) (children : List α) (vs0 : DGraph α) : DGraph α :=
  applyOrInsert vs0 v (addChildren children) children

def insertEdge (v2 : α) (children0 : List α) : List α := ordInsert children0 v2

def dgraphNewEdge (v1 v2 : α) (vs0 : DGraph α) : DGraph α := applyOrInsert vs0 v1 (insertEdge v2) [v2]

def dgraphAddVertex (vs0 : DGraph α) (v : α) : DGraph α :=
  match rbLookup v vs0 with
  | some _ => vs0
  | none => rbInsert vs0 v []

def dgraphAddVertices : DGraph α → List α → DGraph α
  | g, [] => g
  | g0, v :: vs => dgraphAddVertices (dgraphAddVertex g0 v) vs

def dgraphAddEdge (vs0 : DGraph α) (v1 v2 : α) : DGraph α := dgraphAddVertex (dgraphNewEdge v1 v2 vs0) v2

/-- The same clauses as `p_to_s_vertices/2` of `library(ugraphs)`. -/
def allVerticesInEdges (edges : List (α × α)) : List α := pToSVertices edges

/-- The same clauses as `p_to_s_group/4` of `library(ugraphs)`. -/
def getExtraChildren (es : List (α × α)) (vv : α) : List α × List (α × α) := pToSGroup4 es vv

def edges2graphl : List α → List (α × α) → Option (UGraph α)
  | [], [] => some []
  | [], _ :: _ => none
  | v :: vertices, [] => (edges2graphl vertices []).map fun graphL => (v, []) :: graphL
  | v :: vertices, (vv, v1) :: sortedEdges =>
    if v = vv then
      (edges2graphl vertices (getExtraChildren sortedEdges vv).2).map fun graphL =>
        (v, v1 :: (getExtraChildren sortedEdges vv).1) :: graphL
    else (edges2graphl vertices ((vv, v1) :: sortedEdges)).map fun graphL => (v, []) :: graphL

/-- `dgraph_add_edges/4`. -/
def dgraphAddEdges4 : List α → List (α × α) → DGraph α → Option (DGraph α)
  | [], [], g => some g
  | [], _ :: _, _ => none
  | v :: vs, [], g => dgraphAddEdges4 vs [] (dgraphUpdateVertex v [] g)
  | v :: vs, (v0, v1) :: es, g =>
    if v = v0 then
      dgraphAddEdges4 vs (getExtraChildren es v).2 (dgraphUpdateVertex v (v1 :: (getExtraChildren es v).1) g)
    else dgraphAddEdges4 vs ((v0, v1) :: es) (dgraphUpdateVertex v [] g)

def dgraphAddEdges (g0 : DGraph α) (edges : List (α × α)) : Option (DGraph α) :=
  match g0 with
  | .nil => (edges2graphl (sort (allVerticesInEdges (sortEdges edges))) (sortEdges edges)).bind ordListToRbtree
  | g0 => dgraphAddEdges4 (sort (allVerticesInEdges (sortEdges edges))) (sortEdges edges) g0

/-- The helper `del_edges/3`. -/
def removeChildren (toRemove e0 : List α) : List α := ordSubtract e0 toRemove

def contractVertex (v : α) (children : List α) (vs0 : DGraph α) : Option (DGraph α) :=
  rbApply vs0 v fun e0 => some (removeChildren children e0)

theorem length_pToSGroup4 (es : List (α × α)) (v : α) : (pToSGroup4 es v).2.length ≤ es.length := by
  induction es with
  | nil => simp [pToSGroup4]
  | cons e es ih =>
    rw [pToSGroup4]
    split_ifs
    · exact ih.trans (Nat.le_succ _)
    · exact le_rfl

def continueDelEdges : List (α × α) → DGraph α → Option (DGraph α)
  | [], g => some g
  | (v, v1) :: es, g =>
    (contractVertex v (v1 :: (getExtraChildren es v).1) g).bind fun gi =>
      continueDelEdges (getExtraChildren es v).2 gi
termination_by es => es.length
decreasing_by exact Nat.lt_succ_of_le (length_pToSGroup4 es v)

def dgraphDelEdges (g0 : DGraph α) (edges : List (α × α)) : Option (DGraph α) :=
  continueDelEdges (sortEdges edges) g0

def deleteAll : List α → DGraph α → Option (DGraph α)
  | [], vs => some vs
  | v :: vs, vs0 => (rbDelete vs0 v).bind fun p => deleteAll vs p.2

def deleteRemainingEdges (sortedVs : List α) (vs0 : DGraph α) : Option (DGraph α) :=
  rbMap vs0 fun e0 => some (removeChildren sortedVs e0)

def dgraphDelVertices (g0 : DGraph α) (vs : List α) : Option (DGraph α) :=
  (deleteAll (sort vs) g0).bind fun g1 => deleteRemainingEdges (sort vs) g1

-- ---------------------------------------------------------------------------
-- Adding rows
-- ---------------------------------------------------------------------------

section Rows

variable {g : DGraph α} {vertex : α → Prop} {edge : α → α → Prop}

/-- A row that gets more children, or is new. -/
theorem Describes.applyOrInsert (h : Describes g vertex edge) (v : α) (goal : List α → List α)
    {children : List α} (hchildren : OrdSet children) (hord : ∀ ns, OrdSet ns → OrdSet (goal ns))
    (hmem : ∀ ns w, w ∈ goal ns ↔ w ∈ children ∨ w ∈ ns) :
    Describes (applyOrInsert g v goal children) (fun u => vertex u ∨ u = v)
      fun u w => edge u w ∨ u = v ∧ w ∈ children := by
  unfold Dgraphs.applyOrInsert
  cases hv : Assoc.value v g.toList with
  | none =>
    rw [apply_none h.valid.sorted _ hv]
    have hnone : ∀ w, ¬ edge v w := by
      intro w hw
      obtain ⟨ns, hns, -⟩ := (edge_iff_value h.valid).mp ((h.edges v w).mpr hw)
      rw [hv] at hns
      cases hns
    refine (h.put (h.valid.rbInsert v children) hchildren (toList_rbInsert h.valid.sorted v children)).congr
      (fun u => or_comm) fun u w => ?_
    by_cases hu : u = v
    · subst hu
      simp [hnone w]
    · simp [hu]
  | some ns =>
    obtain ⟨hns, hrow⟩ := value_row h hv
    obtain ⟨g', heq, hvalid, hlist⟩ := h.valid.rbApply_some (fun val0 => some (goal val0)) hv rfl
    rw [heq]
    refine (h.put hvalid (hord ns hns) hlist).congr (fun u => or_comm) fun u w => ?_
    by_cases hu : u = v
    · subst hu
      simp [hmem, hrow, or_comm]
    · simp [hu]

theorem Describes.updateVertex (h : Describes g vertex edge) (v : α) {children : List α}
    (hchildren : OrdSet children) :
    Describes (dgraphUpdateVertex v children g) (fun u => vertex u ∨ u = v)
      fun u w => edge u w ∨ u = v ∧ w ∈ children :=
  h.applyOrInsert v _ hchildren (fun _ hns => ordSet_ordUnion hchildren hns) fun _ _ => mem_ordUnion

theorem Describes.newEdge (h : Describes g vertex edge) (v1 v2 : α) :
    Describes (dgraphNewEdge v1 v2 g) (fun u => vertex u ∨ u = v1)
      fun u w => edge u w ∨ u = v1 ∧ w = v2 := by
  have hsingle : OrdSet [v2] := List.pairwise_singleton _ _
  have hrow := h.applyOrInsert v1 (insertEdge v2) hsingle (fun _ hns => ordSet_ordInsert hns v2) fun ns w => by
      simp [insertEdge, mem_ordInsert]
  exact hrow.congr (fun _ => Iff.rfl) fun u w => by simp

theorem Describes.addVertex (h : Describes g vertex edge) (v : α) :
    Describes (dgraphAddVertex g v) (fun u => vertex u ∨ u = v) edge := by
  unfold dgraphAddVertex
  rw [h.valid.lookup_eq]
  cases hv : Assoc.value v g.toList with
  | some ns =>
    refine h.congr (fun u => ⟨.inl, ?_⟩) fun _ _ => Iff.rfl
    rintro (hu | rfl)
    · exact hu
    · exact (h.vertices u).mp (vertex_iff_value.mpr ⟨ns, hv⟩)
  | none =>
    have hnone : ∀ w, ¬ edge v w := by
      intro w hw
      obtain ⟨ns, hns, -⟩ := (edge_iff_value h.valid).mp ((h.edges v w).mpr hw)
      rw [hv] at hns
      cases hns
    refine (h.put (h.valid.rbInsert v []) List.Pairwise.nil (toList_rbInsert h.valid.sorted v [])).congr
      (fun u => or_comm) fun u w => ?_
    by_cases hu : u = v
    · subst hu
      simp [hnone w]
    · simp [hu]

theorem Describes.addVertices (h : Describes g vertex edge) (vs : List α) :
    Describes (dgraphAddVertices g vs) (fun u => vertex u ∨ u ∈ vs) edge := by
  induction vs generalizing g vertex with
  | nil => exact h.congr (fun u => by simp) fun _ _ => Iff.rfl
  | cons v vs ih =>
    exact (ih (h.addVertex v)).congr (fun u => by simp [or_assoc]) fun _ _ => Iff.rfl

theorem Describes.addEdge (h : Describes g vertex edge) (v1 v2 : α) :
    Describes (dgraphAddEdge g v1 v2) (fun u => vertex u ∨ u = v1 ∨ u = v2)
      fun u w => edge u w ∨ u = v1 ∧ w = v2 :=
  ((h.newEdge v1 v2).addVertex v2).congr (fun _ => or_assoc) fun _ _ => Iff.rfl

/-- The graph of one edge. -/
theorem wf_addEdge_nil (v1 v2 : α) : Wf (dgraphAddEdge .nil v1 v2) := by
  have h := describes_nil.addEdge v1 v2
  refine Represents.wf ⟨h, fun u v he => ?_⟩
  simp only [false_or] at he ⊢
  exact .inr he.2

/-- The rows of a graph are added one by one. -/
theorem Describes.addRows (h : Describes g vertex edge) {rows : UGraph α} (hrows : ∀ p ∈ rows, OrdSet p.2) :
    Describes (rows.foldl (fun g p => dgraphUpdateVertex p.1 p.2 g) g)
      (fun u => vertex u ∨ u ∈ Ugraphs.vertices rows) fun u w => edge u w ∨ Ugraphs.Edge rows u w := by
  induction rows generalizing g vertex edge with
  | nil => exact h.congr (fun u => by simp) fun u w => by simp
  | cons p rows ih =>
    obtain ⟨hp, hrows'⟩ := List.forall_mem_cons.mp hrows
    exact (ih (h.updateVertex p.1 hp) hrows').congr (fun u => by simp [or_assoc])
      fun u w => by simp [Ugraphs.edge_cons, or_assoc]

end Rows

-- ---------------------------------------------------------------------------
-- Adding edges
-- ---------------------------------------------------------------------------

section Groups

variable {vs : List α} {es : List (α × α)} (hvs : OrdSet vs) (hes : EdgeSet es)
  (hsource : ∀ e ∈ es, e.1 ∈ vs)

include hvs hes hsource

/-- The rest of the edges after a group has its sources among the rest of the vertices. -/
theorem group_rest {v : α} {vs' : List α} (heq : vs = v :: vs') :
    OrdSet vs' ∧ EdgeSet (pToSGroup4 es v).2 ∧ ∀ e ∈ (pToSGroup4 es v).2, e.1 ∈ vs' := by
  subst heq
  obtain ⟨hlt, hvs'⟩ := List.pairwise_cons.mp hvs
  have hle : ∀ e ∈ es, v ≤ e.1 := fun e he =>
    (List.mem_cons.mp (hsource e he)).elim (fun h => h.ge) fun h => (hlt _ h).le
  obtain ⟨-, -, hrest, hset⟩ := pToSGroup4_spec hes hle
  exact ⟨hvs', hset, fun e he =>
    (List.mem_cons.mp (hsource e ((hrest e).mp he).1)).resolve_left ((hrest e).mp he).2⟩

/-- The list for an empty graph is the graph that `library(ugraphs)` makes of the edges. -/
theorem edges2graphl_eq : edges2graphl vs es = some (pToSGroup vs es) := by
  induction vs generalizing es with
  | nil =>
    cases es with
    | nil => rfl
    | cons e es => exact absurd (hsource e List.mem_cons_self) List.not_mem_nil
  | cons v vs ih =>
    obtain ⟨hvs', hset, hrest⟩ := group_rest hvs hes hsource rfl
    have hih := ih hvs' hset hrest
    cases es with
    | nil =>
      rw [pToSGroup4] at hih
      simp only [edges2graphl, pToSGroup, pToSGroup4, hih, Option.map_some]
    | cons e es =>
      obtain ⟨vv, v1⟩ := e
      rw [edges2graphl, pToSGroup]
      rw [pToSGroup4] at hih ⊢
      split_ifs at hih ⊢ with h1 h2 h2
      · subst h1
        rw [getExtraChildren, hih]
        rfl
      · exact absurd h1.symm h2
      · exact absurd h2.symm h1
      · rw [hih]
        rfl

/-- For other graphs the same rows are added one by one. -/
theorem dgraphAddEdges4_eq (g : DGraph α) : dgraphAddEdges4 vs es g =
    some ((pToSGroup vs es).foldl (fun g p => dgraphUpdateVertex p.1 p.2 g) g) := by
  induction vs generalizing es g with
  | nil =>
    cases es with
    | nil => rfl
    | cons e es => exact absurd (hsource e List.mem_cons_self) List.not_mem_nil
  | cons v vs ih =>
    obtain ⟨hvs', hset, hrest⟩ := group_rest hvs hes hsource rfl
    have hih := ih hvs' hset hrest
    cases es with
    | nil =>
      rw [pToSGroup4] at hih
      rw [dgraphAddEdges4, hih, pToSGroup, pToSGroup4]
      rfl
    | cons e es =>
      obtain ⟨v0, v1⟩ := e
      rw [dgraphAddEdges4, pToSGroup]
      rw [pToSGroup4] at hih ⊢
      split_ifs at hih ⊢ with h1 h2 h2
      · rw [getExtraChildren, hih]
        rfl
      · exact absurd h1.symm h2
      · exact absurd h2.symm h1
      · rw [hih]
        rfl

end Groups

theorem Describes.addEdges {g : DGraph α} {vertex : α → Prop} {edge : α → α → Prop}
    (h : Describes g vertex edge) (es : List (α × α)) :
    ∃ g', dgraphAddEdges g es = some g' ∧
      Describes g' (fun v => vertex v ∨ ∃ e ∈ es, v = e.1 ∨ v = e.2) fun u v => edge u v ∨ (u, v) ∈ es := by
  have hrep := pToSGraph_represents es
  have hsource : ∀ e ∈ sortEdges es, e.1 ∈ sort (pToSVertices (sortEdges es)) := fun e he =>
    mem_sort.mpr (mem_pToSVertices.mpr ⟨e, he, .inl rfl⟩)
  unfold dgraphAddEdges
  split
  case h_1 =>
    rw [allVerticesInEdges, edges2graphl_eq (ordSet_sort _) (edgeSet_sortEdges es) hsource]
    obtain ⟨g', heq, hvalid, hlist⟩ := ordListToRbtree_spec (Ugraphs.sorted_iff.mpr hrep.wf.vertices)
    have hno : ∀ v, ¬ vertex v := fun v hv => by simpa [Vertex] using (h.vertices v).mpr hv
    have hne : ∀ u v, ¬ edge u v := fun u v he => Ugraphs.edge_nil u v ((h.edges u v).mpr he)
    refine ⟨g', heq, hvalid, ?_, fun v => ?_, fun u v => ?_⟩
    · rw [hlist]
      exact hrep.wf.neighbours
    · rw [Vertex, hlist, hrep.vertices]
      simp [hno v]
    · rw [Edge, hlist, hrep.edges]
      simp [hne u v]
  case h_2 =>
    refine ⟨_, dgraphAddEdges4_eq (ordSet_sort _) (edgeSet_sortEdges es) hsource g, ?_⟩
    exact (h.addRows hrep.wf.neighbours).congr (fun v => or_congr_right (hrep.vertices v))
      fun u v => or_congr_right (hrep.edges u v)

-- ---------------------------------------------------------------------------
-- Deleting edges
-- ---------------------------------------------------------------------------

section Deletion

variable {g : DGraph α} {vertex : α → Prop} {edge : α → α → Prop}

theorem Describes.value (h : Describes g vertex edge) {v : α} (hv : vertex v) :
    ∃ ns, Assoc.value v g.toList = some ns :=
  vertex_iff_value.mp ((h.vertices v).mpr hv)

theorem Describes.contract (h : Describes g vertex edge) {v : α} (hv : vertex v) {children : List α}
    (hchildren : OrdSet children) :
    ∃ g', contractVertex v children g = some g' ∧
      Describes g' vertex fun u w => edge u w ∧ ¬ (u = v ∧ w ∈ children) := by
  obtain ⟨ns, hns⟩ := h.value hv
  obtain ⟨hord, hrow⟩ := value_row h hns
  obtain ⟨g', heq, hvalid, hlist⟩ :=
    h.valid.rbApply_some (fun e0 => some (removeChildren children e0)) hns rfl
  refine ⟨g', heq, (h.put hvalid (ordSet_ordSubtract hord children) hlist).congr (fun u => ?_) fun u w => ?_⟩
  · exact ⟨fun hu => hu.elim (fun heq => heq ▸ hv) id, .inr⟩
  · rw [mem_ordSubtract hord (hchildren.imp le_of_lt), hrow]
    by_cases hu : u = v
    · subst hu
      simp
    · simp [hu]

/-- The first edges have one source; the rest of them are the edges from other sources. -/
theorem children_group {v v1 : α} {es : List (α × α)} (hes : EdgeSet ((v, v1) :: es)) :
    (∀ w, w ∈ v1 :: (pToSGroup4 es v).1 ↔ (v, w) ∈ (v, v1) :: es) ∧ OrdSet (v1 :: (pToSGroup4 es v).1) ∧
      (∀ e, e ∈ (pToSGroup4 es v).2 ↔ e ∈ (v, v1) :: es ∧ e.1 ≠ v) ∧ EdgeSet (pToSGroup4 es v).2 := by
  have hle : ∀ e ∈ (v, v1) :: es, v ≤ e.1 := List.forall_mem_cons.mpr ⟨le_rfl, fun e he =>
    ((List.pairwise_cons.mp hes).1 e he).elim le_of_lt fun h => h.1.le⟩
  have hspec := pToSGroup4_spec hes hle
  rwa [pToSGroup4, if_pos rfl] at hspec

/-- Each group of edges with one source is deleted from the row of the source. -/
theorem Describes.continueDelEdges (h : Describes g vertex edge) {es : List (α × α)} (hes : EdgeSet es)
    (hsource : ∀ e ∈ es, vertex e.1) :
    ∃ g', continueDelEdges es g = some g' ∧ Describes g' vertex fun u w => edge u w ∧ (u, w) ∉ es := by
  induction es, g using continueDelEdges.induct generalizing edge with
  | case1 g => exact ⟨g, by rw [Dgraphs.continueDelEdges], h.congr (fun _ => Iff.rfl) fun u w => by simp⟩
  | case2 v v1 es g ih =>
    obtain ⟨hmem, hord, hrest, hset⟩ := children_group hes
    obtain ⟨g1, heq1, h1⟩ := h.contract (hsource _ List.mem_cons_self) hord
    obtain ⟨g2, heq2, h2⟩ := ih g1 h1 hset fun e he => hsource e ((hrest e).mp he).1
    refine ⟨g2, ?_, h2.congr (fun _ => Iff.rfl) fun u w => ?_⟩
    · rw [Dgraphs.continueDelEdges, getExtraChildren, heq1]
      exact heq2
    · rw [getExtraChildren, hmem, hrest]
      by_cases hu : u = v
      · subst hu
        simp
      · simp [hu]

theorem Describes.delEdges (h : Describes g vertex edge) {es : List (α × α)} (hsource : ∀ e ∈ es, vertex e.1) :
    ∃ g', dgraphDelEdges g es = some g' ∧ Describes g' vertex fun u w => edge u w ∧ (u, w) ∉ es := by
  obtain ⟨g', heq, hg'⟩ := h.continueDelEdges (edgeSet_sortEdges es) fun e he => hsource e (mem_sortEdges.mp he)
  exact ⟨g', heq, hg'.congr (fun _ => Iff.rfl) fun u w => by rw [mem_sortEdges]⟩

-- ---------------------------------------------------------------------------
-- Deleting vertices
-- ---------------------------------------------------------------------------

/-- The tree without the row of a vertex. -/
theorem Describes.delete (h : Describes g vertex edge) {v : α} (hv : vertex v) :
    ∃ ns g', rbDelete g v = some (ns, g') ∧ g'.toList = Assoc.del v g.toList ∧
      Describes g' (fun u => vertex u ∧ u ≠ v) fun u w => edge u w ∧ u ≠ v := by
  obtain ⟨ns, hns⟩ := h.value hv
  obtain ⟨g', heq, hvalid, hlist⟩ := rbDelete_some h.valid hns
  refine ⟨ns, g', heq, hlist, hvalid, fun p hp => ?_, fun u => ?_, fun u w => ?_⟩
  · rw [hlist] at hp
    exact h.rows p (Assoc.mem_del.mp hp).1
  · rw [← h.vertices, vertex_iff_value, vertex_iff_value, hlist]
    by_cases hu : u = v
    · simp [Assoc.value_del h.valid.sorted, hu]
    · simp [Assoc.value_del h.valid.sorted, hu]
  · rw [← h.edges, edge_iff_value hvalid, edge_iff_value h.valid, hlist]
    by_cases hu : u = v
    · simp [Assoc.value_del h.valid.sorted, hu]
    · simp [Assoc.value_del h.valid.sorted, hu]

/-- The same change of every row. -/
theorem Describes.mapRows (h : Describes g vertex edge) {f : List α → List α} {p : α → Prop}
    (hord : ∀ ns, OrdSet ns → OrdSet (f ns)) (hmem : ∀ ns w, OrdSet ns → (w ∈ f ns ↔ w ∈ ns ∧ p w)) :
    Describes (g.mapValues f) vertex fun u w => edge u w ∧ p w where
  valid := h.valid.mapValues f
  rows q hq := by
    rw [toList_mapValues] at hq
    obtain ⟨q', hq', rfl⟩ := List.mem_map.mp hq
    exact hord _ (h.rows q' hq')
  vertices v := by
    rw [← h.vertices, Vertex, toList_mapValues, Ugraphs.vertices, List.map_map]
    rfl
  edges u w := by
    rw [← h.edges]
    simp only [Edge, Ugraphs.Edge, toList_mapValues, List.mem_map, Prod.mk.injEq]
    constructor
    · rintro ⟨ns, ⟨q, hq, rfl, rfl⟩, hw⟩
      obtain ⟨hw', hp⟩ := (hmem _ w (h.rows q hq)).mp hw
      exact ⟨⟨q.2, hq, hw'⟩, hp⟩
    · rintro ⟨⟨ns, hq, hw⟩, hp⟩
      exact ⟨f ns, ⟨(u, ns), hq, rfl, rfl⟩, (hmem ns w (h.rows _ hq)).mpr ⟨hw, hp⟩⟩

theorem Describes.deleteAll (h : Describes g vertex edge) {vs : List α} (hvs : vs.Nodup)
    (hin : ∀ v ∈ vs, vertex v) :
    ∃ g', deleteAll vs g = some g' ∧
      Describes g' (fun u => vertex u ∧ u ∉ vs) fun u w => edge u w ∧ u ∉ vs := by
  induction vs generalizing g vertex edge with
  | nil => exact ⟨g, rfl, h.congr (fun u => by simp) fun u w => by simp⟩
  | cons v vs ih =>
    obtain ⟨hv, hvs'⟩ := List.nodup_cons.mp hvs
    obtain ⟨ns, g1, heq1, -, h1⟩ := h.delete (hin v List.mem_cons_self)
    obtain ⟨g2, heq2, h2⟩ := ih h1 hvs' fun u hu =>
      ⟨hin u (List.mem_cons_of_mem _ hu), fun heq => hv (heq ▸ hu)⟩
    refine ⟨g2, ?_, h2.congr (fun u => by simp [and_assoc]) fun u w => by simp [and_assoc]⟩
    rw [Dgraphs.deleteAll, heq1]
    exact heq2

theorem Describes.delVertices (h : Describes g vertex edge) {vs : List α} (hin : ∀ v ∈ vs, vertex v) :
    ∃ g', dgraphDelVertices g vs = some g' ∧
      Describes g' (fun u => vertex u ∧ u ∉ vs) fun u w => edge u w ∧ u ∉ vs ∧ w ∉ vs := by
  obtain ⟨g1, heq1, h1⟩ := h.deleteAll (ordSet_sort vs).nodup fun v hv => hin v (mem_sort.mp hv)
  have hmap : deleteRemainingEdges (sort vs) g1 = some (g1.mapValues (removeChildren (sort vs))) :=
    rbMap_some fun _ _ => rfl
  refine ⟨g1.mapValues (removeChildren (sort vs)), by rw [dgraphDelVertices, heq1]; exact hmap, ?_⟩
  refine (h1.mapRows (p := (· ∉ sort vs)) (fun ns hns => ordSet_ordSubtract hns _) fun ns w hns =>
    mem_ordSubtract hns ((ordSet_sort vs).imp le_of_lt)).congr (fun u => ?_) fun u w => ?_
  · rw [mem_sort]
  · rw [mem_sort, mem_sort, and_assoc]

end Deletion

end Dgraphs

end Yap
