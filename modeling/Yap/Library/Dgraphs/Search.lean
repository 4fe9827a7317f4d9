-- SUMMARY: dgraph_top_sort/2 and dgraph_path/4 of library(dgraphs): topological orders of acyclic graphs, and the paths that are found.
import Yap.Library.Dgraphs.Queue

/-!
# Topological orders and paths

The sort is right for every graph. In `dgraph_path_children/5` the visited
vertices are looked up in a variable `E0` that nothing has bound: the lookup fails,
and the insertion that would bind it has no result that is an empty tree.
-/

namespace Yap

namespace Dgraphs

open Ordsets Rbtrees Ugraphs Relation

variable {α : Type*} [LinearOrder α]

-- ---------------------------------------------------------------------------
-- Runs of the sort
-- ---------------------------------------------------------------------------

/-- The edges from the first vertices of the queue. -/
def EdgesFrom (rows : List (α × List α)) (done : List α) (u w : α) : Prop := u ∈ done ∧ u ∈ sources rows w

/-- The row of links of a vertex. -/
def linksOf (v : α) (vs : List α) : List (Link α) := vs.map (Link.mk v)

/-- A run of the queue ends with all vertices, or where every vertex in the queue was taken. -/
theorem continueQueue_spec {g : DGraph α} (h : Wf g) (rest : ℕ) {σ : Aliases (LVar α)} {q : List α}
    (hrest : rest ≤ g.toList.length)
    (hq : Progress g.toList (EdgesFrom g.toList (q.take (g.toList.length - rest))) σ q)
    (hlen : g.toList.length - rest ≤ q.length) :
    (∃ done σ', continueQueue g.toList.length (g.mapEntries linksOf) rest σ q = some done ∧
      done.length = g.toList.length ∧ Progress g.toList (EdgesFrom g.toList done) σ' done) ∨
    (∃ done σ', continueQueue g.toList.length (g.mapEntries linksOf) rest σ q = none ∧
      done.length < g.toList.length ∧ Progress g.toList (EdgesFrom g.toList done) σ' done) := by
  induction rest generalizing σ q with
  | zero =>
    have heq : q.length = g.toList.length := le_antisymm hq.length_le hlen
    rw [Nat.sub_zero, ← heq, List.take_length] at hq
    exact .inl ⟨q, σ, if_pos heq, heq, hq⟩
  | succ rest ih =>
    rw [continueQueue]
    cases hnext : q[g.toList.length - (rest + 1)]? with
    | none =>
      have hshort := List.getElem?_eq_none_iff.mp hnext
      have heq : q.length = g.toList.length - (rest + 1) := le_antisymm hshort hlen
      rw [← heq, List.take_length] at hq
      exact .inr ⟨q, σ, rfl, by omega, hq⟩
    | some v =>
      obtain ⟨hlt, hget⟩ := List.getElem?_eq_some_iff.mp hnext
      have hv : v ∈ q := hget ▸ List.getElem_mem hlt
      have hvertex : Vertex g v := ((hq.mem v).mp hv).1
      obtain ⟨ns, hns⟩ := vertex_iff_value.mp hvertex
      have hlookup : rbLookup v (g.mapEntries linksOf) = some (linksOf v ns) := by
        rw [rbLookup, lookup_eq_value (h.valid.mapEntries linksOf).sorted, value_mapEntries, hns]
        rfl
      obtain ⟨hord, hrow⟩ := value_row h.toDescribes hns
      -- the vertex was not taken before
      have hsplit : q.take (g.toList.length - rest) = q.take (g.toList.length - (rest + 1)) ++ [v] := by
        have hsucc : g.toList.length - rest = g.toList.length - (rest + 1) + 1 := by omega
        rw [hsucc, List.take_add_one, hnext]
        rfl
      have hnew : v ∉ q.take (g.toList.length - (rest + 1)) := by
        have hnd := (List.take_sublist (g.toList.length - rest) q).nodup hq.nodup
        rw [hsplit, List.nodup_append] at hnd
        exact fun hmem => hnd.2.2 v hmem v (List.mem_singleton_self v) rfl
      obtain ⟨σ', q', hclose, hq', hpre⟩ := closeLinks_spec h.ugraph.vertices ns hq hv
        (hord.imp fun hlt => hlt.ne) (fun w _ hc => hnew hc.1)
        fun w hw => ⟨mem_sources.mpr ((hrow w).mp hw), h.inside v w ((hrow w).mp hw)⟩
      have htake : q'.take (g.toList.length - rest) = q.take (g.toList.length - (rest + 1)) ++ [v] := by
        obtain ⟨added, rfl⟩ := hpre
        rw [← hsplit, List.take_append_of_le_length (by omega)]
      have hclosed : Progress g.toList (EdgesFrom g.toList (q'.take (g.toList.length - rest))) σ' q' := by
        refine hq'.congr fun u w => ?_
        rw [htake, EdgesFrom, EdgesFrom, List.mem_append, List.mem_singleton, or_and_right]
        refine or_congr_right (and_congr_right ?_)
        rintro rfl
        rw [mem_sources]
        exact hrow w
      have hlen' : g.toList.length - rest ≤ q'.length := by
        have := hpre.length_le
        omega
      rw [Option.bind_some, hlookup, Option.bind_some, linksOf, hclose, Option.bind_some]
      exact ih (by omega) hclosed hlen'

/-- A permutation of the vertices with every edge going forward. -/
structure TopOrder (g : DGraph α) (l : List α) : Prop where
  perm : l.Perm (dgraphVertices g)
  forward : ∀ u w, Edge g u w → l.idxOf u < l.idxOf w

/-- Edges that go forward have no cycle. -/
theorem TopOrder.acyclic {g : DGraph α} {l : List α} (h : TopOrder g l) (v : α) : ¬ TransGen (Edge g) v v :=
  Closure.acyclic_of_lt h.forward v

/-- When the queue runs out, each vertex that is left has a source that is left. -/
theorem exists_cycle {g : DGraph α} (h : Wf g) {done : List α} {σ : Aliases (LVar α)}
    (hdone : Progress g.toList (EdgesFrom g.toList done) σ done) (hlen : done.length < g.toList.length) :
    ∃ v, TransGen (Edge g) v v := by
  by_contra hacyclic
  have hleft : ((vertices g.toList).toFinset \ done.toFinset).Nonempty := by
    by_contra hnone
    rw [Finset.not_nonempty_iff_eq_empty, Finset.sdiff_eq_empty_iff_subset] at hnone
    have hnd : (vertices g.toList).Nodup := h.ugraph.vertices.imp fun hlt => hlt.ne
    have hle := (hnd.subperm fun w hw => List.mem_toFinset.mp (hnone (List.mem_toFinset.mpr hw))).length_le
    rw [vertices, List.length_map] at hle
    omega
  -- a vertex that is left and has no source that is left
  obtain ⟨m, hm, hmin⟩ := Closure.exists_source (fun v hv => hacyclic ⟨v, hv⟩) hleft
  rw [Finset.mem_sdiff, List.mem_toFinset, List.mem_toFinset] at hm
  refine hm.2 ((hdone.mem m).mpr ⟨hm.1, fun u hu => ⟨?_, hu⟩⟩)
  by_contra hsource
  have hedge : Edge g u m := mem_sources.mp hu
  exact hmin u (by simp [hedge.source, hsource]) hedge

/-- The sort has a topological order as its result, or fails on a cycle. -/
theorem dgraphTopSort_spec {g : DGraph α} (h : Wf g) :
    (∃ l, dgraphTopSort g = some l ∧ TopOrder g l) ∨ dgraphTopSort g = none ∧ ∃ v, TransGen (Edge g) v v := by
  have hnd : (vertices g.toList).Nodup := h.ugraph.vertices.imp fun hlt => hlt.ne
  have hclone : rbClone g (g.toList.map fun p => (p.1, linksOf p.1 p.2)) = some (g.mapEntries linksOf) :=
    rbClone_mapEntries linksOf g
  have hstart := startQueue_eq (σ := id) g.toList.length (sources g.toList) hnd (q := [])
    (by rw [List.length_nil, zero_add, vertices, List.length_map])
  have hprogress : Progress g.toList (EdgesFrom g.toList [])
      (Aliases.unifyAll (startPairs (vertices g.toList) (sources g.toList)) id)
      ((vertices g.toList).filter fun w => sources g.toList w = []) := by
    refine ⟨(Aliases.binds_id.unifyAll _).congr fun x y => ?_, fun w => ?_, hnd.filter _, ?_, ?_⟩
    · simp [EdgesFrom]
    · rw [List.mem_filter, decide_eq_true_eq, List.eq_nil_iff_forall_not_mem]
      simp [EdgesFrom]
    · intro l w r heq u hu
      have hw : w ∈ (vertices g.toList).filter fun w => sources g.toList w = [] := by simp [heq]
      rw [List.mem_filter, decide_eq_true_eq] at hw
      rw [hw.2] at hu
      cases hu
    · rintro u w ⟨hu, -⟩
      cases hu
  have hrun := continueQueue_spec h g.toList.length le_rfl (by rwa [Nat.sub_self, List.take_zero])
    (by rw [Nat.sub_self]; exact Nat.zero_le _)
  have hsort : dgraphTopSort g = continueQueue g.toList.length (g.mapEntries linksOf) g.toList.length
      (Aliases.unifyAll (startPairs (vertices g.toList) (sources g.toList)) id)
      ((vertices g.toList).filter fun w => sources g.toList w = []) := by
    rw [dgraphTopSort, rbVisit_eq, invertAndLink_eq]
    dsimp only
    rw [sortEdges_inverted h.ugraph]
    have hclone' : rbClone g (g.toList.map fun p => (p.1, p.2.map (Link.mk p.1))) =
        some (g.mapEntries linksOf) := hclone
    rw [hclone', Option.bind_some]
    have hstart' : startQueue g.toList.length (g.toList.map Prod.fst)
        ((vertices g.toList).flatMap fun w => (sources g.toList w).map fun u => (w, u)) id [] = _ := hstart
    rw [hstart', Option.bind_some, List.nil_append]
    rfl
  rw [hsort]
  rcases hrun with ⟨done, σ', heq, hlen, hdone⟩ | ⟨done, σ', heq, hlen, hdone⟩
  · refine .inl ⟨done, heq, ?_, fun u w hedge => ?_⟩
    · have hsub : done ⊆ dgraphVertices g := by
        intro w hw
        rw [dgraphVertices, rbKeys_eq]
        exact ((hdone.mem w).mp hw).1
      refine (hdone.nodup.subperm hsub).perm_of_length_le ?_
      rw [dgraphVertices, rbKeys_eq, List.length_map, hlen]
    · have hw : w ∈ done := by
        have hsub : done ⊆ vertices g.toList := fun w hw => ((hdone.mem w).mp hw).1
        have hperm := (hdone.nodup.subperm hsub).perm_of_length_le (by rw [vertices, List.length_map, hlen])
        exact hperm.mem_iff.mpr (h.inside u w hedge)
      exact idxOf_lt_of_ordered hdone.ordered hw (mem_sources.mpr hedge)
  · exact .inr ⟨heq, exists_cycle h hdone hlen⟩

/-- The sort succeeds when there is no cycle, with a topological order. -/
def SortsRight (g : DGraph α) : Prop :=
  ((dgraphTopSort g).isSome ↔ ∀ v, ¬ TransGen (Edge g) v v) ∧ ∀ l, dgraphTopSort g = some l → TopOrder g l

theorem Wf.sortsRight {g : DGraph α} (h : Wf g) : SortsRight g := by
  rcases dgraphTopSort_spec h with ⟨l, heq, horder⟩ | ⟨heq, v, hv⟩
  · rw [SortsRight, heq]
    refine ⟨iff_of_true rfl horder.acyclic, ?_⟩
    rintro l' hl'
    exact Option.some.inj hl' ▸ horder
  · rw [SortsRight, heq]
    refine ⟨iff_of_false (by simp) fun hacyclic => hacyclic v hv, ?_⟩
    rintro l' hl'
    cases hl'

-- ---------------------------------------------------------------------------
-- Paths
-- ---------------------------------------------------------------------------

/-- The answers of `dgraph_path_children/5`, in order, for a number of calls on the way to each of
them. `E0` is unbound: `lookup/3` and `insert2/6` take it for an empty tree, and the tree with
the key only has to be that of `E1`. -/
def dgraphPathChildren (v2 : α) (e1 : Tree α Unit) (graph : DGraph α) : ℕ → List α → Option (List (List α))
  | 0, _ => none
  | _ + 1, [] => some []
  | calls + 1, v1 :: children =>
    let found := if v1 = v2 then [[]] else []
    let below :=
      if v2 ≠ v1 ∧ rbLookup v1 (.nil : Tree α Unit) = none ∧ rbInsert .nil v2 () = e1 then
        match rbLookup v1 graph with
        | none => some []
        | some children => (dgraphPathChildren v2 e1 graph calls children).map fun ps => ps.map (v1 :: ·)
      else some []
    below.bind fun below => (dgraphPathChildren v2 e1 graph calls children).map fun rest => found ++ below ++ rest

/-- `dgraph_path/4`: the vertices between the first and the last one. -/
def dgraphPath (calls : ℕ) (v1 v2 : α) (graph : DGraph α) : Option (List (List α)) :=
  match rbLookup v1 graph with
  | none => some []
  | some children => dgraphPathChildren v2 .nil graph calls children

/-- The search looks at the children of the first vertex only. -/
theorem dgraphPathChildren_nil (v2 : α) (graph : DGraph α) (children : List α) (calls : ℕ) :
    dgraphPathChildren v2 .nil graph calls children =
      if children.length < calls then some ((children.filter (· = v2)).map fun _ => []) else none := by
  induction children generalizing calls with
  | nil => cases calls <;> rfl
  | cons v1 children ih =>
    cases calls with
    | zero => rfl
    | succ calls =>
      have hinsert : ¬ (v2 ≠ v1 ∧ rbLookup v1 (.nil : Tree α Unit) = none ∧ rbInsert .nil v2 () = (.nil : Tree α Unit)) := by
        rintro ⟨-, -, heq⟩
        cases heq
      rw [dgraphPathChildren, if_neg hinsert, Option.bind_some, ih, List.length_cons]
      by_cases hlt : children.length < calls
      · rw [if_pos hlt, if_pos (Nat.succ_lt_succ hlt)]
        by_cases heq : v1 = v2 <;> simp [heq]
      · rw [if_neg hlt, if_neg fun hlt' => hlt (Nat.lt_of_succ_lt_succ hlt')]
        rfl

/-- The search ends, its answers are paths, and there is one when there is a path. -/
def PathsRight (g : DGraph α) (v1 v2 : α) : Prop :=
  ∃ calls answers, dgraphPath calls v1 v2 g = some answers ∧
    (∀ p ∈ answers, (v1 :: (p ++ [v2])).IsChain (Edge g)) ∧ (TransGen (Edge g) v1 v2 → answers ≠ [])

theorem pathsRight_iff {g : DGraph α} (h : Wf g) (v1 v2 : α) :
    PathsRight g v1 v2 ↔ Edge g v1 v2 ∨ ¬ TransGen (Edge g) v1 v2 := by
  have hedge := edge_iff_value h.valid (u := v1) (v := v2)
  unfold PathsRight dgraphPath
  rw [rbLookup, lookup_eq_value h.valid.sorted]
  cases hrow : Assoc.value v1 g.toList with
  | none =>
    have hnone : ¬ TransGen (Edge g) v1 v2 := by
      intro hgen
      obtain ⟨w, hw, -⟩ := TransGen.head'_iff.mp hgen
      obtain ⟨ns, hns, -⟩ := (edge_iff_value h.valid).mp hw
      rw [hrow] at hns
      cases hns
    refine iff_of_true ⟨0, [], rfl, ?_, fun hgen => absurd hgen hnone⟩ (.inr hnone)
    intro p hp
    cases hp
  | some children =>
    simp only [hrow, Option.some.injEq, exists_eq_left'] at hedge
    simp only [dgraphPathChildren_nil]
    constructor
    · rintro ⟨calls, answers, heq, -, hfound⟩
      by_cases hgen : TransGen (Edge g) v1 v2
      · left
        have hne := hfound hgen
        by_cases hlt : children.length < calls
        · rw [if_pos hlt, Option.some.injEq] at heq
          rw [← heq, ne_eq, List.map_eq_nil_iff, List.filter_eq_nil_iff] at hne
          rw [hedge]
          by_contra hnot
          refine hne fun w hw => ?_
          rw [decide_eq_true_eq]
          rintro rfl
          exact hnot hw
        · rw [if_neg hlt] at heq
          cases heq
      · exact .inr hgen
    · intro hcond
      refine ⟨children.length + 1, _, if_pos (Nat.lt_succ_self _), fun p hp => ?_, fun hgen => ?_⟩
      · obtain ⟨w, hw, rfl⟩ := List.mem_map.mp hp
        rw [List.mem_filter, decide_eq_true_eq] at hw
        obtain ⟨hmem, rfl⟩ := hw
        exact List.isChain_pair.mpr (hedge.mpr hmem)
      · have hmem := hedge.mp (hcond.resolve_right fun hnot => hnot hgen)
        rw [ne_eq, List.map_eq_nil_iff, List.filter_eq_nil_iff]
        exact fun hnone => hnone v2 hmem (by simp)

/-- The sort is right for every graph; paths are found if and only if they are edges, or there are none. -/
theorem dgraph_search_iff {g : DGraph α} (h : Wf g) (v1 v2 : α) :
    PathsRight g v1 v2 ∧ SortsRight g ↔ Edge g v1 v2 ∨ ¬ TransGen (Edge g) v1 v2 := by
  rw [and_iff_left h.sortsRight, pathsRight_iff h]

/-- The path of two edges. -/
def lineGraph : DGraph ℕ := .black (.red .nil 1 [2] .nil) 2 [3] (.red .nil 3 [] .nil)

theorem wf_lineGraph : Wf lineGraph where
  valid := ⟨by decide, 1, .black (.red .nil .nil) (.red .nil .nil)⟩
  rows := by decide
  vertices _ := Iff.rfl
  edges _ _ := Iff.rfl
  inside u v hedge := by
    obtain ⟨ns, hns, hv⟩ := hedge
    simp only [lineGraph, toList_black, toList_red, toList_nil, List.nil_append, List.cons_append,
      List.mem_cons, Prod.mk.injEq, List.not_mem_nil, or_false] at hns
    rcases hns with ⟨rfl, rfl⟩ | ⟨rfl, rfl⟩ | ⟨rfl, rfl⟩ <;> simp_all [Vertex, lineGraph, vertices]

theorem edge_lineGraph : Edge lineGraph 1 2 ∧ Edge lineGraph 2 3 :=
  ⟨⟨[2], by decide, by decide⟩, ⟨[3], by decide, by decide⟩⟩

theorem dgraph_search_iff_line :
    PathsRight lineGraph 1 2 ∧ SortsRight lineGraph ↔
      Edge lineGraph 1 2 ∨ ¬ TransGen (Edge lineGraph) 1 2 :=
  dgraph_search_iff wf_lineGraph 1 2

/-- A path of two edges is not found. -/
theorem not_pathsRight_line : ¬ PathsRight lineGraph 1 3 := by
  rintro ⟨calls, answers, heq, -, hfound⟩
  have hgen : TransGen (Edge lineGraph) 1 3 := (TransGen.single edge_lineGraph.1).tail edge_lineGraph.2
  have hrow : rbLookup 1 lineGraph = some [2] := by decide
  rw [dgraphPath, hrow] at heq
  simp only [dgraphPathChildren_nil] at heq
  by_cases hlt : [2].length < calls
  · rw [if_pos hlt, Option.some.injEq] at heq
    exact hfound hgen (heq ▸ rfl)
  · rw [if_neg hlt] at heq
    cases heq

end Dgraphs

end Yap
