-- SUMMARY: add_vertices/3, del_vertices/3, add_edges/3 and del_edges/3 of library(ugraphs) as set operations, and when they are.
import Yap.Library.Ugraphs.Graph

/-!
# Updates of unweighted graphs

`add_vertices/3` and `del_vertices/3` sort the vertices without removing
duplicates; `del_vertices/4` steps over a vertex of the graph that is greater
than the next vertex to delete without comparing it with the later ones.
-/

namespace Yap

namespace Ugraphs

open Ordsets

variable {α : Type*}

-- ---------------------------------------------------------------------------
-- Code
-- ---------------------------------------------------------------------------

def addEmptyVertices : List α → UGraph α
  | [] => []
  | v :: g => (v, []) :: addEmptyVertices g

theorem vertices_addEmptyVertices (l : List α) : vertices (addEmptyVertices l) = l := by
  induction l with
  | nil => rfl
  | cons v l ih => rw [addEmptyVertices, vertices_cons, ih]

theorem mem_addEmptyVertices {l : List α} {p : α × List α} (h : p ∈ addEmptyVertices l) :
    p.1 ∈ l ∧ p.2 = [] := by
  induction l with
  | nil => cases h
  | cons v l ih =>
    cases List.mem_cons.mp h with
    | inl heq => exact heq ▸ ⟨List.mem_cons_self, rfl⟩
    | inr h => exact ⟨List.mem_cons_of_mem _ (ih h).1, (ih h).2⟩

variable [LinearOrder α]

def addVerticesToSGraph : List α → UGraph α → UGraph α
  | l, [] => addEmptyVertices l
  | [], l => l
  | v1 :: vl, (v, edges) :: g =>
    match compare v1 v with
    | .eq => (v, edges) :: addVerticesToSGraph vl g
    | .lt => (v1, []) :: addVerticesToSGraph vl ((v, edges) :: g)
    | .gt => (v, edges) :: addVerticesToSGraph (v1 :: vl) g
termination_by l g => l.length + g.length

def addVertices (graph : UGraph α) (vertices : List α) : UGraph α :=
  addVerticesToSGraph (msort vertices) graph

def delRemainingEdgesForVertices : UGraph α → List α → UGraph α
  | [], _ => []
  | (v0, edges) :: g, v1 => (v0, ordSubtract edges v1) :: delRemainingEdgesForVertices g v1

/-- `del_vertices/4` with `split_on_del_vertices/8`. -/
def delVertices4 : UGraph α → List α → List α → UGraph α
  | g, [], v1 => delRemainingEdgesForVertices g v1
  | [], _ :: _, _ => []
  | (v, edges) :: g, v0 :: vs, v1 =>
    match compare v v0 with
    | .lt => (v, ordSubtract edges v1) :: delVertices4 g (v0 :: vs) v1
    | .gt => (v, ordSubtract edges v1) :: delVertices4 g vs v1
    | .eq => delVertices4 g vs v1

def delVertices (graph : UGraph α) (vertices : List α) : UGraph α :=
  if msort vertices = [] then graph else delVertices4 graph (msort vertices) (msort vertices)

def graphUnion : UGraph α → UGraph α → UGraph α
  | set1, [] => set1
  | [], set2 => set2
  | (head1, e1) :: tail1, (head2, e2) :: tail2 =>
    match compare head1 head2 with
    | .eq => (head1, ordUnion e1 e2) :: graphUnion tail1 tail2
    | .lt => (head1, e1) :: graphUnion tail1 ((head2, e2) :: tail2)
    | .gt => (head2, e2) :: graphUnion ((head1, e1) :: tail1) tail2
termination_by g1 g2 => g1.length + g2.length

def addEdges (graph : UGraph α) (edges : List (α × α)) : UGraph α := graphUnion graph (pToSGraph edges)

def graphSubtract : UGraph α → UGraph α → UGraph α
  | set1, [] => set1
  | [], _ => []
  | (head1, e1) :: tail1, (head2, e2) :: tail2 =>
    match compare head1 head2 with
    | .eq => (head1, ordSubtract e1 e2) :: graphSubtract tail1 tail2
    | .lt => (head1, e1) :: graphSubtract tail1 ((head2, e2) :: tail2)
    | .gt => graphSubtract ((head1, e1) :: tail1) tail2
termination_by g1 g2 => g1.length + g2.length

def delEdges (graph : UGraph α) (edges : List (α × α)) : UGraph α := graphSubtract graph (pToSGraph edges)

-- ---------------------------------------------------------------------------
-- Adding vertices
-- ---------------------------------------------------------------------------

/-- A row of the result is new, without neighbours, or a row of the graph. -/
theorem mem_addVerticesToSGraph {l : List α} {g : UGraph α} {p : α × List α}
    (h : p ∈ addVerticesToSGraph l g) : p ∈ g ∨ p.1 ∈ l ∧ p.2 = [] := by
  induction l, g using addVerticesToSGraph.induct with
  | case1 l =>
    rw [addVerticesToSGraph] at h
    exact .inr (mem_addEmptyVertices h)
  | case2 g hne =>
    cases g with
    | nil => exact absurd rfl hne
    | cons => exact .inl (by simpa [addVerticesToSGraph] using h)
  | case3 v1 vl v edges g heq ih =>
    simp only [addVerticesToSGraph, heq, List.mem_cons] at h ⊢
    exact h.elim (fun h => .inl (.inl h)) fun h => (ih h).imp .inr fun h => ⟨.inr h.1, h.2⟩
  | case4 v1 vl v edges g hlt ih =>
    simp only [addVerticesToSGraph, hlt, List.mem_cons] at h ⊢
    exact h.elim (fun h => .inr (h ▸ ⟨.inl rfl, rfl⟩)) fun h =>
      (ih h).imp List.mem_cons.mp fun h => ⟨.inr h.1, h.2⟩
  | case5 v1 vl v edges g hgt ih =>
    simp only [addVerticesToSGraph, hgt, List.mem_cons] at h ⊢
    exact h.elim (fun h => .inl (.inl h)) fun h => (ih h).imp .inr fun h => ⟨List.mem_cons.mp h.1, h.2⟩

/-- Every row of the graph stays, and every new vertex has a row. -/
theorem addVerticesToSGraph_keeps (l : List α) (g : UGraph α) :
    g.Sublist (addVerticesToSGraph l g) ∧ l.Sublist (vertices (addVerticesToSGraph l g)) := by
  induction l, g using addVerticesToSGraph.induct with
  | case1 l => simp [addVerticesToSGraph, vertices_addEmptyVertices]
  | case2 g hne =>
    cases g with
    | nil => exact absurd rfl hne
    | cons => simp [addVerticesToSGraph]
  | case3 v1 vl v edges g heq ih =>
    obtain rfl := compare_eq_iff_eq.mp heq
    simp only [addVerticesToSGraph, heq, vertices_cons]
    exact ⟨ih.1.cons_cons _, ih.2.cons_cons _⟩
  | case4 v1 vl v edges g hlt ih =>
    simp only [addVerticesToSGraph, hlt, vertices_cons]
    exact ⟨ih.1.cons _, ih.2.cons_cons _⟩
  | case5 v1 vl v edges g hgt ih =>
    simp only [addVerticesToSGraph, hgt, vertices_cons]
    exact ⟨ih.1.cons_cons _, ih.2.cons _⟩

theorem vertices_addVerticesToSGraph {l : List α} {g : UGraph α} {v : α} :
    v ∈ vertices (addVerticesToSGraph l g) ↔ v ∈ vertices g ∨ v ∈ l := by
  obtain ⟨hg, hl⟩ := addVerticesToSGraph_keeps l g
  constructor
  · intro h
    obtain ⟨p, hp, rfl⟩ := List.mem_map.mp h
    exact (mem_addVerticesToSGraph hp).imp (fun h => List.mem_map_of_mem h) fun h => h.1
  · exact fun h => h.elim (fun h => (hg.map Prod.fst).subset h) fun h => hl.subset h

theorem lt_addVerticesToSGraph {l : List α} {g : UGraph α} {a : α} (hg : ∀ v ∈ vertices g, a < v)
    (hl : ∀ v ∈ l, a < v) : ∀ v ∈ vertices (addVerticesToSGraph l g), a < v := fun v hv =>
  (vertices_addVerticesToSGraph.mp hv).elim (hg v) (hl v)

theorem ordSet_addVerticesToSGraph {l : List α} {g : UGraph α} (hl : OrdSet l)
    (hg : OrdSet (vertices g)) : OrdSet (vertices (addVerticesToSGraph l g)) := by
  induction l, g using addVerticesToSGraph.induct with
  | case1 l => rwa [addVerticesToSGraph, vertices_addEmptyVertices]
  | case2 g hne =>
    cases g with
    | nil => exact absurd rfl hne
    | cons => simpa [addVerticesToSGraph] using hg
  | case3 v1 vl v edges g heq ih =>
    obtain rfl := compare_eq_iff_eq.mp heq
    obtain ⟨hl1, hl2⟩ := List.pairwise_cons.mp hl
    obtain ⟨hg1, hg2⟩ := List.pairwise_cons.mp hg
    simp only [addVerticesToSGraph, heq, vertices_cons]
    exact List.pairwise_cons.mpr ⟨lt_addVerticesToSGraph hg1 hl1, ih hl2 hg2⟩
  | case4 v1 vl v edges g hlt ih =>
    obtain ⟨hl1, hl2⟩ := List.pairwise_cons.mp hl
    have hlt' := compare_lt_iff_lt.mp hlt
    have hg1 : ∀ w ∈ vertices ((v, edges) :: g), v1 < w := List.forall_mem_cons.mpr
      ⟨hlt', fun w hw => hlt'.trans ((List.pairwise_cons.mp hg).1 w hw)⟩
    simp only [addVerticesToSGraph, hlt, vertices_cons]
    exact List.pairwise_cons.mpr ⟨lt_addVerticesToSGraph hg1 hl1, ih hl2 hg⟩
  | case5 v1 vl v edges g hgt ih =>
    obtain ⟨hg1, hg2⟩ := List.pairwise_cons.mp hg
    have hlt' := compare_gt_iff_gt.mp hgt
    have hl1 : ∀ w ∈ v1 :: vl, v < w := List.forall_mem_cons.mpr
      ⟨hlt', fun w hw => hlt'.trans ((List.pairwise_cons.mp hl).1 w hw)⟩
    simp only [addVerticesToSGraph, hgt, vertices_cons]
    exact List.pairwise_cons.mpr ⟨lt_addVerticesToSGraph hg1 hl1, ih hl hg2⟩

theorem edge_addVertices {g : UGraph α} {vs : List α} {u v : α} :
    Edge (addVertices g vs) u v ↔ Edge g u v := by
  constructor
  · rintro ⟨ns, hmem, hv⟩
    cases mem_addVerticesToSGraph hmem with
    | inl h => exact ⟨ns, h, hv⟩
    | inr h =>
      obtain rfl : ns = [] := h.2
      cases hv
  · rintro ⟨ns, hmem, hv⟩
    exact ⟨ns, (addVerticesToSGraph_keeps _ g).1.subset hmem, hv⟩

/-- The vertices are added when none of them is repeated. -/
theorem addVertices_represents {g : UGraph α} (h : Wf g) {vs : List α} (hvs : vs.Nodup) :
    Represents (addVertices g vs) (fun v => v ∈ vertices g ∨ v ∈ vs) (Edge g) := by
  have hv : ∀ v, v ∈ vertices (addVertices g vs) ↔ v ∈ vertices g ∨ v ∈ vs := fun v => by
    rw [addVertices, vertices_addVerticesToSGraph, mem_msort]
  refine ⟨wf_of_edges ?_ (fun p hp => ?_) fun u v he => ?_, hv, fun u v => edge_addVertices⟩
  · exact ordSet_addVerticesToSGraph (ordSet_of_le (msort_le vs) (nodup_msort.mpr hvs)) h.vertices
  · cases mem_addVerticesToSGraph hp with
    | inl hp => exact h.neighbours p hp
    | inr hp => exact hp.2 ▸ List.Pairwise.nil
  · exact (hv v).mpr (.inl (h.target (edge_addVertices.mp he)))

/-- A repeated vertex gets a row for each of its occurrences. -/
theorem nodup_of_addVertices {g : UGraph α} {vs : List α} (h : OrdSet (vertices (addVertices g vs))) :
    vs.Nodup :=
  nodup_msort.mp ((addVerticesToSGraph_keeps (msort vs) g).2.nodup h.nodup)

-- ---------------------------------------------------------------------------
-- Deleting vertices
-- ---------------------------------------------------------------------------

/-- No vertex of the second list is met by a smaller one, which makes `del_vertices/4` step over it. -/
def NeverSkipped : List α → List α → Prop
  | [], _ => True
  | _ :: _, [] => True
  | v :: g, v0 :: vs =>
    match compare v v0 with
    | .lt => NeverSkipped g (v0 :: vs)
    | .gt => v ∉ vs ∧ NeverSkipped g vs
    | .eq => NeverSkipped g vs

attribute [local instance] Ordsets.lawfulBEq

/-- What is left of the rows when the vertices are deleted. -/
def without (g : UGraph α) (vs : List α) (v1 : List α) : UGraph α :=
  (g.filter fun p => p.1 ∉ vs).map fun p => (p.1, ordSubtract p.2 v1)

theorem without_cons_of_notMem {p : α × List α} {vs : List α} (h : p.1 ∉ vs) (g : UGraph α) (v1 : List α) :
    without (p :: g) vs v1 = (p.1, ordSubtract p.2 v1) :: without g vs v1 := by
  simp [without, h]

theorem without_cons_of_mem {p : α × List α} {vs : List α} (h : p.1 ∈ vs) (g : UGraph α) (v1 : List α) :
    without (p :: g) vs v1 = without g vs v1 := by
  simp [without, h]

/-- A vertex that is no vertex of the graph makes no difference. -/
theorem without_skip {g : UGraph α} {v0 : α} (h : v0 ∉ vertices g) (vs v1 : List α) :
    without g (v0 :: vs) v1 = without g vs v1 := by
  refine congrArg (List.map _) (List.filter_congr fun p hp => ?_)
  have hne : p.1 ≠ v0 := fun heq => h (heq ▸ List.mem_map_of_mem hp)
  simp [hne]

theorem delRemaining_eq (g : UGraph α) (v1 : List α) :
    delRemainingEdgesForVertices g v1 = without g [] v1 := by
  induction g with
  | nil => rfl
  | cons p g ih => rw [delRemainingEdgesForVertices, ih, without_cons_of_notMem List.not_mem_nil]

theorem delVertices4_eq {g : UGraph α} {vs : List α} (hg : OrdSet (vertices g)) (hvs : vs.Pairwise (· ≤ ·))
    (h : NeverSkipped (vertices g) vs) (v1 : List α) : delVertices4 g vs v1 = without g vs v1 := by
  induction g, vs, v1 using delVertices4.induct with
  | case1 g v1 => rw [delVertices4, delRemaining_eq]
  | case2 v0 vs v1 => rfl
  | case3 v edges g v0 vs v1 hlt ih =>
    obtain ⟨hv, hg'⟩ := List.pairwise_cons.mp hg
    simp only [vertices_cons, NeverSkipped, hlt] at h
    have hlt' := compare_lt_iff_lt.mp hlt
    have hnot : v ∉ v0 :: vs := by
      intro hmem
      cases List.mem_cons.mp hmem with
      | inl heq => exact hlt'.ne heq
      | inr hmem => exact absurd ((List.pairwise_cons.mp hvs).1 v hmem) (not_le.mpr hlt')
    simp only [delVertices4, hlt, ih hg' hvs h]
    rw [without_cons_of_notMem hnot]
  | case4 v edges g v0 vs v1 hgt ih =>
    obtain ⟨hv, hg'⟩ := List.pairwise_cons.mp hg
    simp only [vertices_cons, NeverSkipped, hgt] at h
    have hlt' := compare_gt_iff_gt.mp hgt
    have hnot : v ∉ v0 :: vs := fun hmem => (List.mem_cons.mp hmem).elim (fun heq => hlt'.ne' heq) h.1
    simp only [delVertices4, hgt, ih hg' (List.pairwise_cons.mp hvs).2 h.2]
    rw [without_cons_of_notMem hnot, without_skip fun hmem => (hv _ hmem).asymm hlt']
  | case5 v edges g v0 vs v1 heq ih =>
    obtain ⟨hv, hg'⟩ := List.pairwise_cons.mp hg
    simp only [vertices_cons, NeverSkipped, heq] at h
    obtain rfl := compare_eq_iff_eq.mp heq
    simp only [delVertices4, heq, ih hg' (List.pairwise_cons.mp hvs).2 h]
    rw [without_cons_of_mem List.mem_cons_self, without_skip fun hmem => lt_irrefl _ (hv _ hmem)]

/-- A vertex that is stepped over stays in the graph. -/
theorem neverSkipped_of_deleted {g : UGraph α} {vs : List α} (v1 : List α)
    (h : ∀ v ∈ vertices (delVertices4 g vs v1), v ∉ vs) : NeverSkipped (vertices g) vs := by
  induction g, vs, v1 using delVertices4.induct with
  | case1 g v1 => cases g <;> trivial
  | case2 v0 vs v1 => trivial
  | case3 v edges g v0 vs v1 hlt ih =>
    simp only [delVertices4, hlt, vertices_cons, List.forall_mem_cons] at h
    simp only [vertices_cons, NeverSkipped, hlt]
    exact ih h.2
  | case4 v edges g v0 vs v1 hgt ih =>
    simp only [delVertices4, hgt, vertices_cons, List.forall_mem_cons] at h
    simp only [vertices_cons, NeverSkipped, hgt]
    exact ⟨fun hmem => h.1 (List.mem_cons_of_mem _ hmem),
      ih fun v hv hmem => h.2 v hv (List.mem_cons_of_mem _ hmem)⟩
  | case5 v edges g v0 vs v1 heq ih =>
    simp only [delVertices4, heq] at h
    simp only [vertices_cons, NeverSkipped, heq]
    exact ih fun v hv hmem => h v hv (List.mem_cons_of_mem _ hmem)

theorem without_nil {g : UGraph α} : without g [] [] = g := by
  simp [without, ordSubtract]

theorem delVertices_eq (g : UGraph α) (vs : List α) :
    delVertices g vs = delVertices4 g (msort vs) (msort vs) := by
  unfold delVertices
  split_ifs with h
  · rw [h, delVertices4, delRemaining_eq, without_nil]
  · rfl

/-- The vertices and their edges are deleted when no vertex to delete is stepped over. -/
theorem delVertices_represents {g : UGraph α} (h : Wf g) {vs : List α}
    (hskip : NeverSkipped (vertices g) (msort vs)) :
    Represents (delVertices g vs) (fun v => v ∈ vertices g ∧ v ∉ vs)
      fun u v => Edge g u v ∧ u ∉ vs ∧ v ∉ vs := by
  have heq : delVertices g vs = without g (msort vs) (msort vs) := by
    rw [delVertices_eq, delVertices4_eq h.vertices (msort_le vs) hskip]
  have hrow : ∀ p, p ∈ without g (msort vs) (msort vs) ↔
      ∃ ns, (p.1, ns) ∈ g ∧ p.1 ∉ vs ∧ p.2 = ordSubtract ns (msort vs) := by
    intro p
    simp only [without, List.mem_map, List.mem_filter, mem_msort, decide_eq_true_eq]
    constructor
    · rintro ⟨q, ⟨hq, hnot⟩, rfl⟩
      exact ⟨q.2, hq, hnot, rfl⟩
    · rintro ⟨ns, hq, hnot, hp⟩
      exact ⟨(p.1, ns), ⟨hq, hnot⟩, by rw [← hp]⟩
  have hv : ∀ v, v ∈ vertices (without g (msort vs) (msort vs)) ↔ v ∈ vertices g ∧ v ∉ vs := by
    intro v
    simp only [vertices, List.mem_map, hrow]
    constructor
    · rintro ⟨p, ⟨ns, hq, hnot, -⟩, rfl⟩
      exact ⟨⟨_, hq, rfl⟩, hnot⟩
    · rintro ⟨⟨q, hq, rfl⟩, hnot⟩
      exact ⟨(q.1, ordSubtract q.2 (msort vs)), ⟨q.2, hq, hnot, rfl⟩, rfl⟩
  have he : ∀ u v, Edge (without g (msort vs) (msort vs)) u v ↔ Edge g u v ∧ u ∉ vs ∧ v ∉ vs := by
    intro u v
    constructor
    · rintro ⟨ns, hmem, hv⟩
      obtain ⟨ns', hq, hnot, rfl⟩ := (hrow _).mp hmem
      obtain ⟨hv1, hv2⟩ := (mem_ordSubtract (h.neighbours _ hq) (msort_le vs)).mp hv
      exact ⟨⟨ns', hq, hv1⟩, hnot, fun hmem => hv2 (mem_msort.mpr hmem)⟩
    · rintro ⟨⟨ns, hmem, hv⟩, hu, hv'⟩
      refine ⟨_, (hrow (u, _)).mpr ⟨ns, hmem, hu, rfl⟩, ?_⟩
      exact (mem_ordSubtract (h.neighbours _ hmem) (msort_le vs)).mpr ⟨hv, fun hm => hv' (mem_msort.mp hm)⟩
  rw [heq]
  refine ⟨wf_of_edges ?_ (fun p hp => ?_) fun u v huv => ?_, hv, he⟩
  · have : vertices (without g (msort vs) (msort vs)) = (vertices g).filter fun v => v ∉ msort vs := by
      simp [vertices, without, List.filter_map, Function.comp_def]
    rw [this]
    exact h.vertices.filter _
  · obtain ⟨ns, hq, -, hp⟩ := (hrow p).mp hp
    rw [hp]
    exact ordSet_ordSubtract (h.neighbours _ hq) _
  · obtain ⟨hedge, -, hnot⟩ := (he u v).mp huv
    exact (hv v).mpr ⟨h.target hedge, hnot⟩

-- ---------------------------------------------------------------------------
-- Adding edges
-- ---------------------------------------------------------------------------

theorem vertices_graphUnion {g1 g2 : UGraph α} {v : α} :
    v ∈ vertices (graphUnion g1 g2) ↔ v ∈ vertices g1 ∨ v ∈ vertices g2 := by
  induction g1, g2 using graphUnion.induct with
  | case1 g1 => simp [graphUnion]
  | case2 g2 hne =>
    cases g2 with
    | nil => exact absurd rfl hne
    | cons => simp [graphUnion]
  | case3 u e1 t1 w e2 t2 heq ih =>
    obtain rfl := compare_eq_iff_eq.mp heq
    simp only [graphUnion, heq, vertices_cons, List.mem_cons, ih]
    tauto
  | case4 u e1 t1 w e2 t2 hlt ih =>
    simp only [graphUnion, hlt, vertices_cons, List.mem_cons, ih, or_assoc]
  | case5 u e1 t1 w e2 t2 hgt ih =>
    simp only [graphUnion, hgt, vertices_cons, List.mem_cons, ih]
    tauto

theorem edge_graphUnion {g1 g2 : UGraph α} {u v : α} :
    Edge (graphUnion g1 g2) u v ↔ Edge g1 u v ∨ Edge g2 u v := by
  induction g1, g2 using graphUnion.induct with
  | case1 g1 => simp [graphUnion]
  | case2 g2 hne =>
    cases g2 with
    | nil => exact absurd rfl hne
    | cons => simp [graphUnion]
  | case3 a e1 t1 b e2 t2 heq ih =>
    obtain rfl := compare_eq_iff_eq.mp heq
    simp only [graphUnion, heq, edge_cons, mem_ordUnion, ih]
    tauto
  | case4 a e1 t1 b e2 t2 hlt ih =>
    simp only [graphUnion, hlt, edge_cons, ih, or_assoc]
  | case5 a e1 t1 b e2 t2 hgt ih =>
    simp only [graphUnion, hgt, edge_cons, ih]
    tauto

theorem lt_graphUnion {g1 g2 : UGraph α} {a : α} (h1 : ∀ v ∈ vertices g1, a < v)
    (h2 : ∀ v ∈ vertices g2, a < v) : ∀ v ∈ vertices (graphUnion g1 g2), a < v := fun v hv =>
  (vertices_graphUnion.mp hv).elim (h1 v) (h2 v)

theorem ordSet_graphUnion {g1 g2 : UGraph α} (h1 : OrdSet (vertices g1)) (h2 : OrdSet (vertices g2)) :
    OrdSet (vertices (graphUnion g1 g2)) := by
  induction g1, g2 using graphUnion.induct with
  | case1 g1 => rwa [graphUnion]
  | case2 g2 hne =>
    cases g2 with
    | nil => exact absurd rfl hne
    | cons => simpa [graphUnion] using h2
  | case3 a e1 t1 b e2 t2 heq ih =>
    obtain rfl := compare_eq_iff_eq.mp heq
    obtain ⟨ha1, ht1⟩ := List.pairwise_cons.mp h1
    obtain ⟨ha2, ht2⟩ := List.pairwise_cons.mp h2
    simp only [graphUnion, heq, vertices_cons]
    exact List.pairwise_cons.mpr ⟨lt_graphUnion ha1 ha2, ih ht1 ht2⟩
  | case4 a e1 t1 b e2 t2 hlt ih =>
    obtain ⟨ha1, ht1⟩ := List.pairwise_cons.mp h1
    have hab := compare_lt_iff_lt.mp hlt
    have ha2 : ∀ w ∈ vertices ((b, e2) :: t2), a < w := List.forall_mem_cons.mpr
      ⟨hab, fun w hw => hab.trans ((List.pairwise_cons.mp h2).1 w hw)⟩
    simp only [graphUnion, hlt, vertices_cons]
    exact List.pairwise_cons.mpr ⟨lt_graphUnion ha1 ha2, ih ht1 h2⟩
  | case5 a e1 t1 b e2 t2 hgt ih =>
    obtain ⟨hb2, ht2⟩ := List.pairwise_cons.mp h2
    have hba := compare_gt_iff_gt.mp hgt
    have hb1 : ∀ w ∈ vertices ((a, e1) :: t1), b < w := List.forall_mem_cons.mpr
      ⟨hba, fun w hw => hba.trans ((List.pairwise_cons.mp h1).1 w hw)⟩
    simp only [graphUnion, hgt, vertices_cons]
    exact List.pairwise_cons.mpr ⟨lt_graphUnion hb1 hb2, ih h1 ht2⟩

theorem neighbours_graphUnion {g1 g2 : UGraph α} (h1 : ∀ p ∈ g1, OrdSet p.2) (h2 : ∀ p ∈ g2, OrdSet p.2) :
    ∀ p ∈ graphUnion g1 g2, OrdSet p.2 := by
  induction g1, g2 using graphUnion.induct with
  | case1 g1 => simpa [graphUnion] using h1
  | case2 g2 hne =>
    cases g2 with
    | nil => exact absurd rfl hne
    | cons => simpa [graphUnion] using h2
  | case3 a e1 t1 b e2 t2 heq ih =>
    obtain ⟨ha1, ht1⟩ := List.forall_mem_cons.mp h1
    obtain ⟨ha2, ht2⟩ := List.forall_mem_cons.mp h2
    simp only [graphUnion, heq]
    exact List.forall_mem_cons.mpr ⟨ordSet_ordUnion ha1 ha2, ih ht1 ht2⟩
  | case4 a e1 t1 b e2 t2 hlt ih =>
    obtain ⟨ha1, ht1⟩ := List.forall_mem_cons.mp h1
    simp only [graphUnion, hlt]
    exact List.forall_mem_cons.mpr ⟨ha1, ih ht1 h2⟩
  | case5 a e1 t1 b e2 t2 hgt ih =>
    obtain ⟨ha2, ht2⟩ := List.forall_mem_cons.mp h2
    simp only [graphUnion, hgt]
    exact List.forall_mem_cons.mpr ⟨ha2, ih h1 ht2⟩

theorem addEdges_represents {g : UGraph α} (h : Wf g) (es : List (α × α)) :
    Represents (addEdges g es) (fun v => v ∈ vertices g ∨ ∃ e ∈ es, v = e.1 ∨ v = e.2)
      fun u v => Edge g u v ∨ (u, v) ∈ es := by
  have hg1 := pToSGraph_represents es
  have hv : ∀ v, v ∈ vertices (addEdges g es) ↔ v ∈ vertices g ∨ ∃ e ∈ es, v = e.1 ∨ v = e.2 := fun v => by
    rw [addEdges, vertices_graphUnion, hg1.vertices]
  have he : ∀ u v, Edge (addEdges g es) u v ↔ Edge g u v ∨ (u, v) ∈ es := fun u v => by
    rw [addEdges, edge_graphUnion, hg1.edges]
  refine ⟨wf_of_edges (ordSet_graphUnion h.vertices hg1.wf.vertices)
    (neighbours_graphUnion h.neighbours hg1.wf.neighbours) fun u v huv => ?_, hv, he⟩
  exact (hv v).mpr (((he u v).mp huv).imp h.target fun hmem => ⟨(u, v), hmem, .inr rfl⟩)

-- ---------------------------------------------------------------------------
-- Deleting edges
-- ---------------------------------------------------------------------------

theorem vertices_graphSubtract (g1 g2 : UGraph α) : vertices (graphSubtract g1 g2) = vertices g1 := by
  induction g1, g2 using graphSubtract.induct with
  | case1 g1 => rw [graphSubtract]
  | case2 g2 hne => cases g2 <;> simp [graphSubtract]
  | case3 a e1 t1 b e2 t2 heq ih => simp only [graphSubtract, heq, vertices_cons, ih]
  | case4 a e1 t1 b e2 t2 hlt ih => simp only [graphSubtract, hlt, vertices_cons, ih]
  | case5 a e1 t1 b e2 t2 hgt ih => simp only [graphSubtract, hgt, ih]

theorem edge_graphSubtract {g1 g2 : UGraph α} (h1 : OrdSet (vertices g1)) (h2 : OrdSet (vertices g2))
    (hn1 : ∀ p ∈ g1, OrdSet p.2) (hn2 : ∀ p ∈ g2, OrdSet p.2) {u v : α} :
    Edge (graphSubtract g1 g2) u v ↔ Edge g1 u v ∧ ¬ Edge g2 u v := by
  induction g1, g2 using graphSubtract.induct with
  | case1 g1 => simp [graphSubtract]
  | case2 g2 hne => cases g2 <;> simp [graphSubtract]
  | case3 a e1 t1 b e2 t2 heq ih =>
    obtain rfl := compare_eq_iff_eq.mp heq
    obtain ⟨ha1, ht1⟩ := List.pairwise_cons.mp h1
    obtain ⟨ha2, ht2⟩ := List.pairwise_cons.mp h2
    obtain ⟨hr1, hn1'⟩ := List.forall_mem_cons.mp hn1
    obtain ⟨hr2, hn2'⟩ := List.forall_mem_cons.mp hn2
    have hnot1 : ¬ Edge t1 a v := fun h => lt_irrefl _ (ha1 _ h.source)
    have hnot2 : ¬ Edge t2 a v := fun h => lt_irrefl _ (ha2 _ h.source)
    simp only [graphSubtract, heq, edge_cons, ih ht1 ht2 hn1' hn2',
      mem_ordSubtract hr1 (hr2.imp le_of_lt)]
    by_cases hu : u = a
    · subst hu
      simp [hnot1, hnot2]
    · simp [hu]
  | case4 a e1 t1 b e2 t2 hlt ih =>
    obtain ⟨ha1, ht1⟩ := List.pairwise_cons.mp h1
    obtain ⟨hr1, hn1'⟩ := List.forall_mem_cons.mp hn1
    have hab := compare_lt_iff_lt.mp hlt
    have hnot2 : ¬ Edge ((b, e2) :: t2) a v := fun h =>
      (List.mem_cons.mp h.source).elim (fun heq => hab.ne heq) fun hmem =>
        hab.asymm ((List.pairwise_cons.mp h2).1 _ hmem)
    simp only [graphSubtract, hlt]
    rw [edge_cons, edge_cons, ih ht1 h2 hn1' hn2]
    by_cases hu : u = a
    · subst hu
      simp [hnot2]
    · simp [hu]
  | case5 a e1 t1 b e2 t2 hgt ih =>
    obtain ⟨hb2, ht2⟩ := List.pairwise_cons.mp h2
    obtain ⟨hr2, hn2'⟩ := List.forall_mem_cons.mp hn2
    have hba := compare_gt_iff_gt.mp hgt
    have hnot1 : ¬ Edge ((a, e1) :: t1) b v := fun h =>
      (List.mem_cons.mp h.source).elim (fun heq => hba.ne heq) fun hmem =>
        hba.asymm ((List.pairwise_cons.mp h1).1 _ hmem)
    simp only [graphSubtract, hgt]
    rw [ih h1 ht2 hn1 hn2', edge_cons (p := (b, e2))]
    by_cases hu : u = b
    · subst hu
      simp [hnot1]
    · simp [hu]

theorem neighbours_graphSubtract {g1 : UGraph α} (g2 : UGraph α) (h1 : ∀ p ∈ g1, OrdSet p.2) :
    ∀ p ∈ graphSubtract g1 g2, OrdSet p.2 := by
  induction g1, g2 using graphSubtract.induct with
  | case1 g1 => simpa [graphSubtract] using h1
  | case2 g2 hne => cases g2 <;> simp [graphSubtract]
  | case3 a e1 t1 b e2 t2 heq ih =>
    obtain ⟨ha1, ht1⟩ := List.forall_mem_cons.mp h1
    simp only [graphSubtract, heq]
    exact List.forall_mem_cons.mpr ⟨ordSet_ordSubtract ha1 e2, ih ht1⟩
  | case4 a e1 t1 b e2 t2 hlt ih =>
    obtain ⟨ha1, ht1⟩ := List.forall_mem_cons.mp h1
    simp only [graphSubtract, hlt]
    exact List.forall_mem_cons.mpr ⟨ha1, ih ht1⟩
  | case5 a e1 t1 b e2 t2 hgt ih =>
    simp only [graphSubtract, hgt]
    exact ih h1

theorem delEdges_represents {g : UGraph α} (h : Wf g) (es : List (α × α)) :
    Represents (delEdges g es) (· ∈ vertices g) fun u v => Edge g u v ∧ (u, v) ∉ es := by
  have hg1 := pToSGraph_represents es
  have hv : vertices (delEdges g es) = vertices g := vertices_graphSubtract _ _
  have he : ∀ u v, Edge (delEdges g es) u v ↔ Edge g u v ∧ (u, v) ∉ es := fun u v => by
    rw [delEdges, edge_graphSubtract h.vertices hg1.wf.vertices h.neighbours hg1.wf.neighbours, hg1.edges]
  refine ⟨wf_of_edges (hv ▸ h.vertices) (neighbours_graphSubtract _ h.neighbours) fun u v huv => ?_,
    fun v => by rw [hv], he⟩
  rw [hv]
  exact h.target ((he u v).mp huv).1

-- ---------------------------------------------------------------------------
-- The four updates
-- ---------------------------------------------------------------------------

/-- The four updates of the graph are set operations. -/
structure Updates (g : UGraph α) (vs : List α) (es : List (α × α)) : Prop where
  addVertices : Represents (addVertices g vs) (fun v => v ∈ vertices g ∨ v ∈ vs) (Edge g)
  delVertices : Represents (delVertices g vs) (fun v => v ∈ vertices g ∧ v ∉ vs)
    fun u v => Edge g u v ∧ u ∉ vs ∧ v ∉ vs
  addEdges : Represents (addEdges g es) (fun v => v ∈ vertices g ∨ ∃ e ∈ es, v = e.1 ∨ v = e.2)
    fun u v => Edge g u v ∨ (u, v) ∈ es
  delEdges : Represents (delEdges g es) (· ∈ vertices g) fun u v => Edge g u v ∧ (u, v) ∉ es

/-- **Updates.** The updates of a well-formed graph are set operations exactly when no vertex is
repeated in the list and none of them is stepped over by a smaller one. -/
theorem updates_iff {g : UGraph α} (h : Wf g) (vs : List α) (es : List (α × α)) :
    Updates g vs es ↔ vs.Nodup ∧ NeverSkipped (vertices g) (msort vs) := by
  constructor
  · intro hup
    refine ⟨nodup_of_addVertices hup.addVertices.wf.vertices,
      neverSkipped_of_deleted (msort vs) fun v hv hmem => ?_⟩
    rw [← delVertices_eq] at hv
    exact ((hup.delVertices.vertices v).mp hv).2 (mem_msort.mp hmem)
  · rintro ⟨hnodup, hskip⟩
    exact ⟨addVertices_represents h hnodup, delVertices_represents h hskip, addEdges_represents h es,
      delEdges_represents h es⟩

theorem wf_two : Wf [((1 : ℕ), [2]), (2, [])] :=
  ⟨by decide, by decide, by decide⟩

/-- The updates with the vertex 1 and an edge from 2 to 1. -/
theorem updates_iff_two : Updates [((1 : ℕ), [2]), (2, [])] [1] [(2, 1)] :=
  (updates_iff wf_two [1] [(2, 1)]).mpr ⟨by decide, by simp [msort, NeverSkipped]⟩

/-- A vertex to delete after one that is no vertex of the graph stays in it. -/
theorem not_updates : ¬ ∀ (g : UGraph ℕ) (vs : List ℕ) (es : List (ℕ × ℕ)), Wf g → Updates g vs es := by
  intro h
  have hup := h [(2, [])] [1, 2] [] ⟨by decide, by decide, by decide⟩
  have hv : (2 : ℕ) ∈ vertices (delVertices [((2 : ℕ), [])] [1, 2]) := by decide
  exact ((hup.delVertices.vertices 2).mp hv).2 (by decide)

end Ugraphs

end Yap
