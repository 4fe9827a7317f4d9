-- SUMMARY: The updates of library(dgraphs) as one family of operations, and when each of them is a set operation.
import Yap.Library.Dgraphs.Delete

/-!
# Operations on directed graphs

Every operation but `dgraph_del_edge/4` and `dgraph_del_vertex/3` is the set
operation it is documented to be. These two are for the vertices that are
themselves the expected list of children, or as near to it as the exchanged
arguments of `delete_edge/3` need.
-/

namespace Yap

namespace Dgraphs

open Ordsets Rbtrees

inductive Op (α : Type*) where
  | addEdge (v1 v2 : α)
  | addEdges (edges : List (α × α))
  | addVertex (v : α)
  | addVertices (vs : List α)
  | delEdge (v1 v2 : α)
  | delEdges (edges : List (α × α))
  | delVertex (v : α)
  | delVertices (vs : List α)

section Sets

variable {α : Type*}

/-- The vertices of the new graph. -/
def Op.vertex (g : DGraph α) : Op α → α → Prop
  | .addEdge v1 v2, v => Vertex g v ∨ v = v1 ∨ v = v2
  | .addEdges edges, v => Vertex g v ∨ ∃ e ∈ edges, v = e.1 ∨ v = e.2
  | .addVertex u, v => Vertex g v ∨ v = u
  | .addVertices vs, v => Vertex g v ∨ v ∈ vs
  | .delEdge _ _, v => Vertex g v
  | .delEdges _, v => Vertex g v
  | .delVertex u, v => Vertex g v ∧ v ≠ u
  | .delVertices vs, v => Vertex g v ∧ v ∉ vs

/-- The edges of the new graph. -/
def Op.edge (g : DGraph α) : Op α → α → α → Prop
  | .addEdge v1 v2, u, v => Edge g u v ∨ u = v1 ∧ v = v2
  | .addEdges edges, u, v => Edge g u v ∨ (u, v) ∈ edges
  | .addVertex _, u, v => Edge g u v
  | .addVertices _, u, v => Edge g u v
  | .delEdge v1 v2, u, v => Edge g u v ∧ ¬ (u = v1 ∧ v = v2)
  | .delEdges edges, u, v => Edge g u v ∧ (u, v) ∉ edges
  | .delVertex w, u, v => Edge g u v ∧ u ≠ w ∧ v ≠ w
  | .delVertices vs, u, v => Edge g u v ∧ u ∉ vs ∧ v ∉ vs

/-- The vertices concerned are in the graph; additions concern new ones as well. -/
def Op.Concerned (g : DGraph α) : Op α → Prop
  | .addEdge _ _ | .addEdges _ | .addVertex _ | .addVertices _ => True
  | .delEdge v1 v2 => Vertex g v1 ∧ Vertex g v2
  | .delEdges edges => ∀ e ∈ edges, Vertex g e.1 ∧ Vertex g e.2
  | .delVertex v => Vertex g v
  | .delVertices vs => ∀ v ∈ vs, Vertex g v

end Sets

theorem Vertex.of_row {α : Type*} {g : DGraph α} {v : α} {ns : List α} (h : (v, ns) ∈ g.toList) :
    Vertex g v := List.mem_map_of_mem (f := Prod.fst) h

variable {κ : Type*}

theorem mem_asTerms {g : DGraph (Term κ)} {p : Term κ × Term κ} :
    p ∈ (asTerms g).toList ↔ ∃ ns, (p.1, ns) ∈ g.toList ∧ p.2 = ofList ns := by
  rw [asTerms, toList_mapValues]
  constructor
  · intro h
    obtain ⟨q, hq, rfl⟩ := List.mem_map.mp h
    exact ⟨q.2, hq, rfl⟩
  · rintro ⟨ns, hns, heq⟩
    exact List.mem_map.mpr ⟨(p.1, ns), hns, Prod.ext rfl heq.symm⟩

variable [LinearOrder (Term κ)]

def Op.run (g : DGraph (Term κ)) : Op (Term κ) → Option (Tree (Term κ) (Term κ))
  | .addEdge v1 v2 => some (asTerms (dgraphAddEdge g v1 v2))
  | .addEdges edges => (dgraphAddEdges g edges).map asTerms
  | .addVertex v => some (asTerms (dgraphAddVertex g v))
  | .addVertices vs => some (asTerms (dgraphAddVertices g vs))
  | .delEdge v1 v2 => dgraphDelEdge g v1 v2
  | .delEdges edges => (dgraphDelEdges g edges).map asTerms
  | .delVertex v => dgraphDelVertex g v
  | .delVertices vs => (dgraphDelVertices g vs).map asTerms

/-- The operation succeeds when its vertices are in the graph, and what it returns is the graph
with the expected vertices and edges. -/
structure Op.Right (g : DGraph (Term κ)) (op : Op (Term κ)) : Prop where
  succeeds : op.Concerned g → (op.run g).isSome
  result : ∀ t, op.run g = some t → ∃ g', t = asTerms g' ∧ Represents g' (op.vertex g) (op.edge g)

/-- The vertex is a partial list that ends before an element could be at the place of the list of
children. -/
def RunsOut (v : Term κ) (children : List (Term κ)) : Prop :=
  ∃ p k, v = append p (.other k) ∧ ∀ x ∈ p, x < ofList children

/-- When the operation is the set operation. -/
def Op.Condition (g : DGraph (Term κ)) : Op (Term κ) → Prop
  | .delEdge v1 v2 => ∀ children, (v1, children) ∈ g.toList →
      Coincides v2 children ∨ ¬ Vertex g v2 ∧ RunsOut v2 children
  | .delVertex v => Vertex g v → ∀ p ∈ g.toList, p.1 ≠ v → Coincides v p.2
  | _ => True

-- ---------------------------------------------------------------------------
-- Operations that are right on every graph
-- ---------------------------------------------------------------------------

theorem right_of_some {g g' : DGraph (Term κ)} {op : Op (Term κ)} (hrun : op.run g = some (asTerms g'))
    (h : Describes g' (op.vertex g) (op.edge g)) (hin : ∀ u v, op.edge g u v → op.vertex g v) : op.Right g where
  succeeds _ := by rw [hrun]; rfl
  result t ht := ⟨g', Option.some.inj (ht.symm.trans hrun), h, hin⟩

theorem right_of_none {g : DGraph (Term κ)} {op : Op (Term κ)} (hrun : op.run g = none)
    (h : ¬ op.Concerned g) : op.Right g where
  succeeds hc := absurd hc h
  result t ht := by
    rw [hrun] at ht
    cases ht

section Deletion

variable {α : Type*} [LinearOrder α] {g : DGraph α} {vertex : α → Prop} {edge : α → α → Prop}

theorem value_none (h : Describes g vertex edge) {v : α} (hv : ¬ vertex v) :
    Assoc.value v g.toList = none := by
  cases heq : Assoc.value v g.toList with
  | none => rfl
  | some ns => exact absurd ((h.vertices v).mp (vertex_iff_value.mpr ⟨ns, heq⟩)) hv

/-- Edges from a vertex that is not in the graph cannot be deleted. -/
theorem continueDelEdges_none (h : Describes g vertex edge) {es : List (α × α)} (hes : Ugraphs.EdgeSet es)
    {e : α × α} (he : e ∈ es) (hmissing : ¬ vertex e.1) : continueDelEdges es g = none := by
  induction es, g using continueDelEdges.induct generalizing edge with
  | case1 g => cases he
  | case2 v v1 es g ih =>
    obtain ⟨-, hord, hrest, hset⟩ := children_group hes
    rw [continueDelEdges]
    by_cases hv : vertex v
    · obtain ⟨g1, heq1, h1⟩ := h.contract hv hord
      rw [getExtraChildren, heq1]
      refine ih g1 h1 hset ((hrest e).mpr ⟨he, ?_⟩)
      rintro rfl
      exact hmissing hv
    · rw [contractVertex, apply_none h.valid.sorted _ (value_none h hv)]
      rfl

theorem deleteAll_none (h : Describes g vertex edge) {vs : List α} {v : α} (hv : v ∈ vs)
    (hmissing : ¬ vertex v) : deleteAll vs g = none := by
  induction vs generalizing g vertex edge with
  | nil => cases hv
  | cons u vs ih =>
    rw [deleteAll]
    by_cases hu : vertex u
    · obtain ⟨ns, g1, heq1, -, h1⟩ := h.delete hu
      rw [heq1]
      refine ih h1 ((List.mem_cons.mp hv).resolve_left ?_) fun hmem => hmissing hmem.1
      rintro rfl
      exact hmissing hu
    · rw [rbDelete_none h.valid (value_none h hu)]
      rfl

end Deletion

theorem right_addEdge {g : DGraph (Term κ)} (h : Wf g) (v1 v2 : Term κ) : (Op.addEdge v1 v2).Right g := by
  refine right_of_some rfl (h.addEdge v1 v2) fun u v he => ?_
  cases he with
  | inl he => exact .inl (h.inside u v he)
  | inr heq => exact .inr (.inr heq.2)

theorem right_addEdges {g : DGraph (Term κ)} (h : Wf g) (edges : List (Term κ × Term κ)) :
    (Op.addEdges edges).Right g := by
  obtain ⟨g', heq, hg'⟩ := h.addEdges edges
  refine right_of_some (by rw [Op.run, heq]; rfl) hg' fun u v he => ?_
  cases he with
  | inl he => exact .inl (h.inside u v he)
  | inr hmem => exact .inr ⟨(u, v), hmem, .inr rfl⟩

theorem right_addVertex {g : DGraph (Term κ)} (h : Wf g) (v : Term κ) : (Op.addVertex v).Right g :=
  right_of_some rfl (h.addVertex v) fun u w he => .inl (h.inside u w he)

theorem right_addVertices {g : DGraph (Term κ)} (h : Wf g) (vs : List (Term κ)) :
    (Op.addVertices vs).Right g :=
  right_of_some rfl (h.addVertices vs) fun u w he => .inl (h.inside u w he)

theorem right_delEdges {g : DGraph (Term κ)} (h : Wf g) (edges : List (Term κ × Term κ)) :
    (Op.delEdges edges).Right g := by
  by_cases hsource : ∀ e ∈ edges, Vertex g e.1
  · obtain ⟨g', heq, hg'⟩ := h.delEdges hsource
    exact right_of_some (by rw [Op.run, heq]; rfl) hg' fun u v he => h.inside u v he.1
  · push Not at hsource
    obtain ⟨e, he, hmissing⟩ := hsource
    have hnone : dgraphDelEdges g edges = none :=
      continueDelEdges_none h.toDescribes (Ugraphs.edgeSet_sortEdges edges) (Ugraphs.mem_sortEdges.mpr he) hmissing
    refine right_of_none (by rw [Op.run, hnone]; rfl) fun hc => hmissing (hc e he).1

theorem right_delVertices {g : DGraph (Term κ)} (h : Wf g) (vs : List (Term κ)) :
    (Op.delVertices vs).Right g := by
  by_cases hin : ∀ v ∈ vs, Vertex g v
  · obtain ⟨g', heq, hg'⟩ := h.delVertices hin
    exact right_of_some (by rw [Op.run, heq]; rfl) hg' fun u v he => ⟨h.inside u v he.1, he.2.2⟩
  · have hnone : dgraphDelVertices g vs = none := by
      push Not at hin
      obtain ⟨v, hv, hmissing⟩ := hin
      rw [dgraphDelVertices, deleteAll_none h.toDescribes (mem_sort.mpr hv) hmissing]
      rfl
    exact right_of_none (by rw [Op.run, hnone]; rfl) hin

-- ---------------------------------------------------------------------------
-- Operations with the exchanged arguments
-- ---------------------------------------------------------------------------

/-- The call fails for a vertex that is no list, or no list up to the place of the children. -/
theorem deleteEdge_eq_none {v : Term κ} {children : List (Term κ)} :
    deleteEdge v (ofList children) = none ↔ RunsOut v children := by
  unfold deleteEdge RunsOut
  generalize ofList children = c
  induction v with
  | other k => exact iff_of_true rfl ⟨[], k, rfl, by simp⟩
  | nil =>
    refine iff_of_false (by simp [ordDelElement]) ?_
    rintro ⟨p, k, heq, -⟩
    cases p <;> cases heq
  | cons head tail _ ih =>
    rw [ordDelElement]
    constructor
    · intro h
      split at h
      case h_1 => cases h
      case h_3 => cases h
      case h_2 hlt =>
        obtain ⟨p, k, rfl, hp⟩ := ih.mp (Option.map_eq_none_iff.mp h)
        exact ⟨head :: p, k, rfl, List.forall_mem_cons.mpr ⟨compare_lt_iff_lt.mp hlt, hp⟩⟩
    · rintro ⟨p, k, heq, hp⟩
      cases p with
      | nil => cases heq
      | cons x p =>
        obtain ⟨rfl, htail⟩ := Term.cons.inj heq
        obtain ⟨hx, hp'⟩ := List.forall_mem_cons.mp hp
        rw [compare_lt_iff_lt.mpr hx]
        exact Option.map_eq_none_iff.mpr (ih.mpr ⟨p, k, htail, hp'⟩)

section Exchanged

variable {g : DGraph (Term κ)} (h : Wf g)

include h

/-- The children of a vertex in a graph without some edges. -/
theorem children_eq {g' : DGraph (Term κ)} {vertex : Term κ → Prop} {edge : Term κ → Term κ → Prop}
    (h' : Represents g' vertex edge) {u v : Term κ} {ns ns' : List (Term κ)} (hns : (u, ns) ∈ g.toList)
    (hns' : (u, ns') ∈ g'.toList) (hedge : ∀ w, edge u w ↔ Edge g u w ∧ w ≠ v) : ns' = ns.filter (· ≠ v) := by
  obtain ⟨hord, hrow⟩ := value_row h.toDescribes ((Assoc.value_eq_some h.valid.sorted).mpr hns)
  obtain ⟨hord', hrow'⟩ := value_row h'.toDescribes ((Assoc.value_eq_some h'.valid.sorted).mpr hns')
  refine hord'.ext (hord.filter _) fun w => ?_
  simp [hrow', hedge, hrow]

theorem right_delEdge_iff (v1 v2 : Term κ) :
    (Op.delEdge v1 v2).Right g ↔ (Op.delEdge v1 v2).Condition g := by
  have hkeys : Assoc.Sorted (asTerms g).toList := (h.valid.mapValues ofList).sorted
  constructor
  · intro hright ns hns
    have hvalue : Assoc.value v1 (asTerms g).toList = some (ofList ns) := by
      rw [asTerms, value_mapValues, (Assoc.value_eq_some h.valid.sorted).mpr hns]
      rfl
    obtain ⟨hnone, hsome⟩ := apply_some hkeys (deleteEdge v2) hvalue
    cases hcall : deleteEdge v2 (ofList ns) with
    | none =>
      refine .inr ⟨fun hv2 => ?_, deleteEdge_eq_none.mp hcall⟩
      have hrun := hright.succeeds ⟨Vertex.of_row hns, hv2⟩
      rw [Op.run, dgraphDelEdge, hnone hcall] at hrun
      cases hrun
    | some r =>
      obtain ⟨t, hrun, hlist⟩ := hsome r hcall
      obtain ⟨g', rfl, hg'⟩ := hright.result t hrun
      have hmem : (v1, r) ∈ (asTerms g').toList := by
        rw [hlist]
        exact Assoc.mem_put.mpr (.inl rfl)
      obtain ⟨ns', hns', hr⟩ := mem_asTerms.mp hmem
      have heq := children_eq h hg' hns hns' (v := v2) fun w => by simp [Op.edge]
      refine .inl ((deleteEdge_iff v2 ns).mp ?_)
      rw [hcall, show r = ofList ns' from hr, heq]
  · intro hcond
    by_cases hv1 : Vertex g v1
    · obtain ⟨ns, hvalue⟩ := vertex_iff_value.mp hv1
      have hns := Assoc.mem_of_value hvalue
      obtain ⟨hord, hrow⟩ := value_row h.toDescribes hvalue
      cases hcond ns hns with
      | inl hco =>
        obtain ⟨g', heq, hvalid, hlist⟩ :=
          h.valid.rbApply_some (fun ns => some (ns.filter (· ≠ v2))) hvalue rfl
        have hrun : dgraphDelEdge g v1 v2 = some (asTerms g') := by
          rw [dgraphDelEdge, asTerms, apply_mapValues fun ns => some (ns.filter (· ≠ v2)), heq]
          · rfl
          · intro ns' hns'
            obtain rfl := Option.some.inj (((Assoc.value_eq_some h.valid.sorted).mpr hns').symm.trans hvalue)
            exact (deleteEdge_iff v2 ns').mpr hco
        refine right_of_some hrun ((h.put hvalid (hord.filter _) hlist).congr (fun u => ?_) fun u w => ?_)
          fun u w he => h.inside u w he.1
        · exact or_iff_right_of_imp fun heq => heq ▸ hv1
        · by_cases hu : u = v1
          · subst hu
            simp [Op.edge, hrow]
          · simp [Op.edge, hu]
      | inr hout =>
        refine right_of_none ?_ fun hc => hout.1 hc.2
        refine (apply_some hkeys (deleteEdge v2) ?_).1 (deleteEdge_eq_none.mpr hout.2)
        rw [asTerms, value_mapValues, hvalue]
        rfl
    · refine right_of_none (apply_none hkeys _ ?_) fun hc => hv1 hc.1
      rw [asTerms, value_mapValues, value_none h.toDescribes hv1]
      rfl

theorem right_delVertex_iff (v : Term κ) : (Op.delVertex v).Right g ↔ (Op.delVertex v).Condition g := by
  by_cases hv : Vertex g v
  · obtain ⟨ns0, g1, heq1, hlist1, h1⟩ := h.delete hv
    have hrun : dgraphDelVertex g v = rbMap g1 (deleteEdge v ∘ ofList) := by
      rw [dgraphDelVertex, heq1]
      exact rbMap_mapValues ofList g1 (deleteEdge v)
    constructor
    · intro hright _ p hp hne
      obtain ⟨t, ht⟩ := Option.isSome_iff_exists.mp (hright.succeeds hv)
      obtain ⟨g', rfl, hg'⟩ := hright.result t ht
      have hp1 : p ∈ g1.toList := hlist1 ▸ Assoc.mem_del.mpr ⟨hp, hne⟩
      obtain ⟨r, hr, hcall⟩ := rbMap_goal (hrun.symm.trans ht) p hp1
      obtain ⟨ns', hns', rfl⟩ := mem_asTerms.mp hr
      have hrow : (p.1, p.2) ∈ g.toList := hp
      have heq := children_eq h hg' hrow hns' (v := v) fun w => by simp [Op.edge, hne]
      refine (deleteEdge_iff v p.2).mp (hcall.trans ?_)
      rw [heq]
    · intro hcond
      have hmap : dgraphDelVertex g v = some (asTerms (g1.mapValues (List.filter (· ≠ v)))) := by
        rw [hrun, asTerms, mapValues_mapValues]
        refine rbMap_some fun p hp => ?_
        rw [hlist1] at hp
        obtain ⟨hp, hne⟩ := Assoc.mem_del.mp hp
        exact (deleteEdge_iff v p.2).mpr (hcond hv p hp hne)
      refine right_of_some hmap ((h1.mapRows (p := (· ≠ v)) (fun ns hns => hns.filter _)
        fun ns w _ => by simp).congr (fun u => Iff.rfl) fun u w => and_assoc)
        fun u w he => ⟨h.inside u w he.1, he.2.2⟩
  · refine iff_of_true (right_of_none ?_ hv) fun hv' => absurd hv' hv
    rw [Op.run, dgraphDelVertex, rbDelete_none h.valid (value_none h.toDescribes hv)]
    rfl

/-- **Updates.** An operation on a graph is a set operation exactly when it is not one of the two
with the exchanged arguments, or these arguments coincide. -/
theorem right_iff (op : Op (Term κ)) : op.Right g ↔ op.Condition g := by
  cases op with
  | addEdge v1 v2 => exact iff_of_true (right_addEdge h v1 v2) trivial
  | addEdges edges => exact iff_of_true (right_addEdges h edges) trivial
  | addVertex v => exact iff_of_true (right_addVertex h v) trivial
  | addVertices vs => exact iff_of_true (right_addVertices h vs) trivial
  | delEdge v1 v2 => exact right_delEdge_iff h v1 v2
  | delEdges edges => exact iff_of_true (right_delEdges h edges) trivial
  | delVertex v => exact right_delVertex_iff h v
  | delVertices vs => exact iff_of_true (right_delVertices h vs) trivial

end Exchanged

-- ---------------------------------------------------------------------------
-- Graphs of numbers
-- ---------------------------------------------------------------------------

/-- Numbers before `[]`, and `[]` before list cells, which are compared by heads first. -/
def Term.tokens : Term ℕ → List ℕ
  | .other k => [0, k]
  | .nil => [1]
  | .cons head tail => 2 :: (head.tokens ++ tail.tokens)

theorem tokens_append (t t' : Term ℕ) (l l' : List ℕ) (h : t.tokens ++ l = t'.tokens ++ l') :
    t = t' ∧ l = l' := by
  induction t generalizing t' l l' with
  | other k => cases t' <;> simp_all [Term.tokens]
  | nil => cases t' <;> simp_all [Term.tokens]
  | cons head tail ihh iht =>
    cases t' with
    | other k => simp [Term.tokens] at h
    | nil => simp [Term.tokens] at h
    | cons head' tail' =>
      simp only [Term.tokens, List.cons_append, List.cons.injEq, true_and, List.append_assoc] at h
      obtain ⟨rfl, htail⟩ := ihh head' _ _ h
      obtain ⟨rfl, hl⟩ := iht tail' _ _ htail
      exact ⟨rfl, hl⟩

theorem tokens_injective : Function.Injective Term.tokens := fun t t' h =>
  (tokens_append t t' [] [] (by rw [h])).1

/-- The standard order of terms over numbers. -/
instance : LinearOrder (Term ℕ) := LinearOrder.lift' Term.tokens tokens_injective

/-- The edge from 1 to `[]` is deleted: `[]` is also the list of the other children. -/
theorem right_iff_nil : (Op.delEdge (.other 1) .nil).Right (dgraphAddEdge .nil (.other 1) (Term.nil : Term ℕ)) := by
  refine (right_iff (wf_addEdge_nil _ _) _).mpr fun children hrow => .inl (.inl ?_)
  have h := describes_nil.addEdge (.other 1) (Term.nil : Term ℕ)
  obtain ⟨-, hmem⟩ := value_row h ((Assoc.value_eq_some h.valid.sorted).mpr hrow)
  have hfilter : children.filter (· ≠ .nil) = [] :=
    List.filter_eq_nil_iff.mpr fun w hw => by simpa using (hmem w).mp hw
  rw [hfilter]
  rfl

/-- The edge from 1 to 2 is not deleted. -/
theorem not_right : ¬ ∀ (g : DGraph (Term ℕ)) (op : Op (Term ℕ)), Wf g → op.Right g := by
  intro hall
  have h := describes_nil.addEdge (.other 1) (.other 2 : Term ℕ)
  have hwf := wf_addEdge_nil (Term.other 1) (.other 2 : Term ℕ)
  have hcond := (right_delEdge_iff hwf (.other 1) (.other 2)).mp (hall _ (.delEdge (.other 1) (.other 2)) hwf)
  obtain ⟨children, hrow, -⟩ := (h.edges (.other 1) (.other 2)).mpr (.inr ⟨rfl, rfl⟩)
  cases hcond children hrow with
  | inl hco => exact not_coincides_other 2 children hco
  | inr hout => exact hout.1 ((h.vertices (.other 2)).mpr (.inr (.inr rfl)))

end Dgraphs

end Yap
