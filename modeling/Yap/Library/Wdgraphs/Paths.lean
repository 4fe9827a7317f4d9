-- SUMMARY: wdgraph_min_path/5 and wdgraph_max_path/5 of library(wdgraphs): the search ends; cheapest paths, and when following heaviest edges gives a path of maximal cost.
import Yap.Base.BestFirst
import Yap.Base.Fueled
import Yap.Library.Heaps
import Yap.Library.Rbtrees.Insert
import Yap.Library.Rbtrees.Maps

/-!
# Cheapest and heaviest paths

A weighted graph is a red-black tree from its vertices to lists of pairs
`Vertex-Weight`. The search is bounded by the number of elements it takes from
the heap.

The loop keeps a frontier of the best-first search, and the edges it accepted
lead back from every settled vertex along a path of the vertex's distance. What
the search finds depends on a property of the distances that each step keeps.

`wdgraph_max_path/5` runs the search with negated weights up to the first time
it takes an edge to the target. In a graph without cycles this follows from each
vertex a heaviest edge among those that lead on to the target.
-/

namespace Yap

namespace Wdgraphs

open Heaps Rbtrees BestFirst Fueled

-- ---------------------------------------------------------------------------
-- The predicates
-- ---------------------------------------------------------------------------

section Predicates

abbrev WGraph (κ W : Type*) := Rbtrees.Tree κ (List (κ × W))

/-- Terms `e(V0,V,W)`. -/
abbrev Leg (κ W : Type*) := κ × κ × W

variable {κ W : Type*} [LinearOrder κ] [LinearOrder W]

section Search

variable [Add W]

def queueEdges : List (κ × W) → κ → W → Heap W (Leg κ W) → Option (Heap W (Leg κ W))
  | [], _, _, h => some h
  | (v, w) :: edges, v0, d0, h => (addToHeap h (w + d0) (v0, v, w)).bind fun hi => queueEdges edges v0 d0 hi

/-- `dijkstra/6` and `continue_dijkstra/10`. -/
def dijkstra (v2 : κ) (g : WGraph κ W) :
    ℕ → Heap W (Leg κ W) → Rbtrees.Tree κ κ → List (Leg κ W) → Fueled (List (Leg κ W))
  | 0, _, _, _ => .more
  | n + 1, h0, status, path0 =>
    match getFromHeap h0 with
    | none => .fail
    | some ((d, v0, v, w), h1) =>
      if v = v2 then .ok ((v0, v2, w) :: path0)
      else
        match rbLookup v status with
        | some _ => dijkstra v2 g n h1 status path0
        | none =>
          match rbLookup v g with
          | none => .fail
          | some edges =>
            match queueEdges edges v d h1 with
            | none => .fail
            | some h2 => dijkstra v2 g n h2 (rbInsert status v v0) ((v0, v, w) :: path0)

def backtrace : List (Leg κ W) → κ → List κ → W → List κ × W
  | [], _, path, cost => (path, cost)
  | (v0, v, c) :: epath, v1, path0, cost0 =>
    if v = v1 then backtrace epath v0 (v0 :: path0) (c + cost0) else backtrace epath v1 path0 cost0

end Search

variable [AddCommGroup W]

def wdgraphMinPath (n : ℕ) (v1 v2 : κ) (g : WGraph κ W) : Fueled (List κ × W) :=
  match rbLookup v1 g with
  | none => .fail
  | some edges =>
    match queueEdges edges v1 0 emptyHeap with
    | none => .fail
    | some h1 =>
      (dijkstra v2 g n h1 (rbInsert .nil v1 v2) []).bind fun epath => .ok (backtrace epath v2 [v2] 0)

def invCosts2 (es : List (κ × W)) : List (κ × W) := es.map fun e => (e.1, -e.2)

def invCosts (edges0 : List (κ × List (κ × W))) : List (κ × List (κ × W)) :=
  edges0.map fun e => (e.1, invCosts2 e.2)

def wdgraphMaxPath (n : ℕ) (v1 v2 : κ) (g0 : WGraph κ W) : Fueled (List κ × W) :=
  match rbClone g0 (invCosts (rbVisit g0)) with
  | none => .fail
  | some g => (wdgraphMinPath n v1 v2 g).bind fun p => .ok (p.1, -p.2)

end Predicates

-- ---------------------------------------------------------------------------
-- Graphs
-- ---------------------------------------------------------------------------

variable {κ W : Type*}

def Vertex (g : WGraph κ W) (v : κ) : Prop := v ∈ g.toList.map Prod.fst

def Edge (g : WGraph κ W) (u v : κ) (w : W) : Prop := ∃ es, (u, es) ∈ g.toList ∧ (v, w) ∈ es

/-- A valid tree in which the ends of every edge are vertices. -/
structure Wf [LinearOrder κ] (g : WGraph κ W) : Prop where
  valid : Valid g
  inside : ∀ u v w, Edge g u v w → Vertex g v

theorem finite_edges (g : WGraph κ W) : {e : κ × κ × W | Edge g e.1 e.2.1 e.2.2}.Finite := by
  refine (List.finite_toSet (g.toList.flatMap fun p => p.2.map fun e => (p.1, e))).subset ?_
  rintro ⟨u, v, w⟩ ⟨es, hes, he⟩
  exact List.mem_flatMap.mpr ⟨(u, es), hes, List.mem_map.mpr ⟨(v, w), he, rfl⟩⟩

section Search

variable [LinearOrder κ]

theorem Wf.row {g : WGraph κ W} (hg : Wf g) {u : κ} {es : List (κ × W)} (h : rbLookup u g = some es) (v : κ) (w : W) :
    Edge g u v w ↔ (v, w) ∈ es := by
  rw [hg.valid.lookup_eq] at h
  constructor
  · rintro ⟨es', hes', he⟩
    have heq := h.symm.trans ((Assoc.value_eq_some hg.valid.sorted).mpr hes')
    cases heq
    exact he
  · exact fun he => ⟨es, Assoc.mem_of_value h, he⟩

theorem Wf.lookup_none {g : WGraph κ W} (hg : Wf g) {u : κ} : rbLookup u g = none ↔ ¬ Vertex g u := by
  rw [hg.valid.lookup_eq, Assoc.value_eq_none, Vertex, List.mem_map]
  push Not
  exact Iff.rfl

-- ---------------------------------------------------------------------------
-- The edges that a vertex queues
-- ---------------------------------------------------------------------------

/-- The elements that the edges of a vertex add to the heap. -/
def legs [Add W] (edges : List (κ × W)) (v0 : κ) (d0 : W) : Multiset (W × Leg κ W) :=
  ↑(edges.map fun e => (e.2 + d0, v0, e.1, e.2))

omit [LinearOrder κ] in
theorem mem_legs [Add W] {edges : List (κ × W)} {v0 : κ} {d0 : W} {e : W × Leg κ W} :
    e ∈ legs edges v0 d0 ↔ ∃ v w, (v, w) ∈ edges ∧ e = (w + d0, v0, v, w) := by
  simp [legs, eq_comm]

omit [LinearOrder κ] in
theorem queueEdges_spec [Add W] [LinearOrder W] {h : Heap W (Leg κ W)} (hw : h.Wf) (edges : List (κ × W)) (v0 : κ)
    (d0 : W) : ∃ h', queueEdges edges v0 d0 h = some h' ∧ h'.Wf ∧
      h'.tree.elements = legs edges v0 d0 + h.tree.elements := by
  induction edges generalizing h with
  | nil => exact ⟨h, rfl, hw, (zero_add _).symm⟩
  | cons e edges ih =>
    obtain ⟨hi, hadd, hwi, helements⟩ := hw.add (e.2 + d0) (v0, e.1, e.2)
    obtain ⟨h', hqueue, hw', helements'⟩ := ih hwi
    refine ⟨h', ?_, hw', ?_⟩
    · rw [queueEdges, hadd]
      exact hqueue
    · rw [helements', helements, Multiset.add_cons, ← Multiset.cons_add]
      rfl

-- ---------------------------------------------------------------------------
-- The way back
-- ---------------------------------------------------------------------------

/-- From a settled vertex the accepted edges lead back along a path of its distance. -/
def Traced [AddCommMonoid W] (g : WGraph κ W) (root : κ) (S : Set κ) (δ : κ → W) (path0 : List (Leg κ W)) : Prop :=
  ∀ u ∈ S, ∃ p, Path (Edge g) root u p (δ u) ∧
    ∀ rest c, backtrace path0 u (u :: rest) c = (p ++ rest, δ u + c)

variable [AddCommMonoid W] {g : WGraph κ W} {root target : κ} {S : Set κ} {δ : κ → W}

theorem traced_start (g : WGraph κ W) (root : κ) : Traced g root {root} (fun _ => 0) [] := by
  rintro u rfl
  exact ⟨[u], .nil, fun rest c => by rw [backtrace, zero_add, List.singleton_append]⟩

theorem Traced.leg {path0 : List (Leg κ W)} (h : Traced g root S δ path0) {u v : κ} {w : W} (hu : u ∈ S)
    (he : Edge g u v w) : ∃ p, Path (Edge g) root v p (w + δ u) ∧
      ∀ rest c, backtrace ((u, v, w) :: path0) v (v :: rest) c = (p ++ rest, w + δ u + c) := by
  obtain ⟨p, hp, hback⟩ := h u hu
  refine ⟨p ++ [v], hp.snoc he, fun rest c => ?_⟩
  rw [backtrace, if_pos rfl, hback, List.append_assoc, List.singleton_append, add_left_comm, add_assoc]

theorem Traced.settle {path0 : List (Leg κ W)} (h : Traced g root S δ path0) {u v : κ} {w : W} (hu : u ∈ S)
    (hv : v ∉ S) (he : Edge g u v w) :
    Traced g root (insert v S) (Function.update δ v (w + δ u)) ((u, v, w) :: path0) := by
  intro x hx
  cases Set.mem_insert_iff.mp hx with
  | inl heq =>
    subst heq
    rw [Function.update_self]
    exact h.leg hu he
  | inr hx =>
    have hne : x ≠ v := ne_of_mem_of_not_mem hx hv
    rw [Function.update_of_ne hne]
    obtain ⟨p, hp, hback⟩ := h x hx
    refine ⟨p, hp, fun rest c => ?_⟩
    rw [backtrace, if_neg hne.symm, hback]

-- ---------------------------------------------------------------------------
-- The loop
-- ---------------------------------------------------------------------------

def settled (status : Rbtrees.Tree κ κ) : Set κ := {v | rbLookup v status ≠ none}

theorem settled_rbInsert {status : Rbtrees.Tree κ κ} (h : Valid status) (v v0 : κ) :
    settled (rbInsert status v v0) = insert v (settled status) := by
  ext x
  simp only [settled, Set.mem_ofPred_eq, Set.mem_insert_iff, rbLookup_rbInsert h]
  by_cases heq : x = v
  · simp [heq]
  · simp [heq]

theorem settled_start (v v0 : κ) : settled (rbInsert .nil v v0) = {v} := by
  rw [settled_rbInsert valid_nil]
  ext x
  simp [settled, rbLookup, lookup]

variable [LinearOrder W]

/-- What holds when the loop looks at the heap. -/
structure Searching (g : WGraph κ W) (root target : κ) (δ : κ → W) (h : Heap W (Leg κ W)) (status : Rbtrees.Tree κ κ)
    (path0 : List (Leg κ W)) : Prop where
  queue : h.Wf
  valid : Valid status
  frontier : Frontier (Edge g) root target (settled status) h.tree.elements δ
  traced : Traced g root (settled status) δ path0

/-- The loop settles the end of an edge. -/
theorem Searching.settle (hg : Wf g) {h h1 : Heap W (Leg κ W)} {status : Rbtrees.Tree κ κ} {path0 : List (Leg κ W)}
    {u v : κ} {w : W} (hs : Searching g root target δ h status path0) (hw1 : h1.Wf)
    (helements : h.tree.elements = (w + δ u, u, v, w) ::ₘ h1.tree.elements) (ht : v ≠ target)
    (hnone : rbLookup v status = none) {edges : List (κ × W)} (hedges : rbLookup v g = some edges) :
    ∃ h2, queueEdges edges v (w + δ u) h1 = some h2 ∧
      Searching g root target (Function.update δ v (w + δ u)) h2 (rbInsert status v u) ((u, v, w) :: path0) := by
  have hv : v ∉ settled status := by simp [settled, hnone]
  have hfrontier := helements ▸ hs.frontier
  obtain ⟨hu, he, -⟩ := hfrontier.sound (w + δ u) u v w (Multiset.mem_cons_self _ _)
  obtain ⟨h2, hqueue, hw2, helements2⟩ := queueEdges_spec hw1 edges v (w + δ u)
  have hnew : ∀ e, e ∈ legs edges v (w + δ u) ↔ ∃ z a, Edge g v z a ∧ e = (a + (w + δ u), v, z, a) := by
    intro e
    simp only [mem_legs, hg.row hedges]
  refine ⟨h2, hqueue, hw2, hs.valid.rbInsert v u, ?_, ?_⟩
  · rw [settled_rbInsert hs.valid, helements2]
    exact hfrontier.settle hv ht hnew
  · rw [settled_rbInsert hs.valid]
    exact hs.traced.settle hu hv he

/-- A least element of the frontier leads to the target, in a state that the property holds of. -/
structure Found (g : WGraph κ W) (root target : κ) (J : Set κ → (κ → W) → Prop) (p : List κ) (c : W) : Prop where
  path : Path (Edge g) root target p c
  least : ∃ S F δ u w, Frontier (Edge g) root target S F δ ∧ J S δ ∧ (c, u, target, w) ∈ F ∧ ∀ e ∈ F, c ≤ e.1

/-- A property of the settled vertices and their distances that a step of the search keeps. -/
def Kept (g : WGraph κ W) (root target : κ) (J : Set κ → (κ → W) → Prop) : Prop :=
  ∀ S F δ d u v w, Frontier (Edge g) root target S F δ → J S δ → (d, u, v, w) ∈ F → (∀ e ∈ F, d ≤ e.1) → v ∉ S →
    J (insert v S) (Function.update δ v d)

/-- The vertices that the search has not settled. -/
def unsettled (g : WGraph κ W) (status : Rbtrees.Tree κ κ) : Finset κ :=
  {v ∈ (g.toList.map Prod.fst).toFinset | rbLookup v status = none}

omit [AddCommMonoid W] [LinearOrder W] in
theorem unsettled_rbInsert {status : Rbtrees.Tree κ κ} (h : Valid status) {v : κ} (hv : Vertex g v)
    (hnone : rbLookup v status = none) (v0 : κ) :
    (unsettled g (rbInsert status v v0)).card < (unsettled g status).card := by
  refine Finset.card_lt_card ((Finset.ssubset_iff_of_subset ?_).mpr ⟨v, ?_, ?_⟩)
  · intro x hx
    obtain ⟨hvertex, hx⟩ := Finset.mem_filter.mp hx
    rw [rbLookup_rbInsert h] at hx
    split_ifs at hx
    exact Finset.mem_filter.mpr ⟨hvertex, hx⟩
  · exact Finset.mem_filter.mpr ⟨List.mem_toFinset.mpr hv, hnone⟩
  · simp [unsettled, rbLookup_rbInsert h]

/-- The loop fails when the target is out of reach and otherwise finds it. -/
theorem dijkstra_ends (hg : Wf g) {J : Set κ → (κ → W) → Prop} (hJ : Kept g root target J)
    {h : Heap W (Leg κ W)} {status : Rbtrees.Tree κ κ} {path0 : List (Leg κ W)}
    (hs : Searching g root target δ h status path0) (hj : J (settled status) δ) :
    (¬ Reaches (Edge g) root target ∧ Finally (fun n => dijkstra target g n h status path0) .fail) ∨
      ∃ epath p c, Finally (fun n => dijkstra target g n h status path0) (.ok epath) ∧
        backtrace epath target [target] 0 = (p, c) ∧ Found g root target J p c := by
  induction hk : (unsettled g status).card using Nat.strong_induction_on generalizing δ h status path0 with
  | _ k ihk =>
    induction hm : Multiset.card h.tree.elements using Nat.strong_induction_on generalizing h with
    | _ m ihm =>
      cases hget : getFromHeap h with
      | none =>
        left
        have hempty := (getFromHeap_eq_none h).mp hget
        refine ⟨(hempty ▸ hs.frontier).not_reaches, (finally_const _).call fun n => ?_⟩
        rw [dijkstra, hget]
      | some r =>
        obtain ⟨⟨d, u, v, w⟩, h1⟩ := r
        obtain ⟨hw1, helements, hmin⟩ := hs.queue.get hget
        have hmem : (d, u, v, w) ∈ h.tree.elements := helements ▸ Multiset.mem_cons_self _ _
        have hfrontier := helements ▸ hs.frontier
        obtain ⟨hu, he, rfl⟩ := hs.frontier.sound d u v w hmem
        by_cases ht : v = target
        · subst ht
          right
          obtain ⟨p, hp, hback⟩ := hs.traced.leg hu he
          have hback' := hback [] 0
          rw [List.append_nil, add_zero] at hback'
          refine ⟨(u, v, w) :: path0, p, w + δ u, (finally_const _).call fun n => ?_, hback', hp, ?_⟩
          · rw [dijkstra, hget]
            exact if_pos rfl
          · exact ⟨settled status, h.tree.elements, δ, u, w, hs.frontier, hj, hmem, hmin⟩
        · cases hstatus : rbLookup v status with
          | some v0 =>
            -- the vertex was settled before: only the heap changes
            have hv : v ∈ settled status := by simp [settled, hstatus]
            have hstep : ∀ n, dijkstra target g (n + 1) h status path0 = dijkstra target g n h1 status path0 := by
              intro n
              rw [dijkstra, hget]
              simp only [if_neg ht, hstatus]
            have hlt : Multiset.card h1.tree.elements < m := by
              rw [← hm, helements, Multiset.card_cons]
              exact Nat.lt_succ_self _
            obtain ⟨hreach, hfail⟩ | ⟨epath, p, c, hok, hfound⟩ :=
              ihm _ hlt ⟨hw1, hs.valid, hfrontier.skip hv, hs.traced⟩ rfl
            · exact .inl ⟨hreach, hfail.call hstep⟩
            · exact .inr ⟨epath, p, c, hok.call hstep, hfound⟩
          | none =>
            have hv : v ∉ settled status := by simp [settled, hstatus]
            have hvertex := hg.inside u v w he
            obtain ⟨edges, hedges⟩ := Option.ne_none_iff_exists'.mp (mt hg.lookup_none.mp (not_not_intro hvertex))
            obtain ⟨h2, hqueue, hsearching⟩ := hs.settle hg hw1 helements ht hstatus hedges
            have hstep : ∀ n, dijkstra target g (n + 1) h status path0 =
                dijkstra target g n h2 (rbInsert status v u) ((u, v, w) :: path0) := by
              intro n
              rw [dijkstra, hget]
              simp only [if_neg ht, hstatus, hedges, hqueue]
            have hkept := hJ _ _ _ _ _ _ _ hs.frontier hj hmem hmin hv
            have hlt := hk ▸ unsettled_rbInsert hs.valid hvertex hstatus u
            obtain ⟨hreach, hfail⟩ | ⟨epath, p, c, hok, hfound⟩ :=
              ihk _ hlt hsearching ((settled_rbInsert hs.valid v u).symm ▸ hkept) rfl
            · exact .inl ⟨hreach, hfail.call hstep⟩
            · exact .inr ⟨epath, p, c, hok.call hstep, hfound⟩

end Search

-- ---------------------------------------------------------------------------
-- Cheapest paths
-- ---------------------------------------------------------------------------

variable [LinearOrder κ] [LinearOrder W] [AddCommGroup W] {g : WGraph κ W} {v1 v2 : κ}

theorem kept_shortest [IsOrderedAddMonoid W] (hnn : ∀ u v w, Edge g u v w → 0 ≤ w) :
    Kept g v1 v2 (Shortest (Edge g) v1) :=
  fun _ _ _ _ _ _ _ hf hδ _ hmin hv => hf.settle_shortest hδ hnn hmin hv

/-- A call fails when the second vertex is out of reach of the first, and otherwise returns a path between
them and its cost, which every path has in the relation. -/
structure Finds (g : WGraph κ W) (v1 v2 : κ) (run : ℕ → Fueled (List κ × W)) (best : W → W → Prop) : Prop where
  fails : ¬ Reaches (Edge g) v1 v2 → Finally run .fail
  finds : Reaches (Edge g) v1 v2 → ∃ p c, Finally run (.ok (p, c)) ∧ Path (Edge g) v1 v2 p c ∧
    ∀ p' c', Path (Edge g) v1 v2 p' c' → best c c'

theorem searching_start (hg : Wf g) (hne : v1 ≠ v2) {edges : List (κ × W)} (hedges : rbLookup v1 g = some edges) :
    ∃ h1, queueEdges edges v1 0 emptyHeap = some h1 ∧
      Searching g v1 v2 (fun _ => 0) h1 (rbInsert .nil v1 v2) [] := by
  obtain ⟨h1, hqueue, hw1, helements⟩ := queueEdges_spec (W := W) wf_empty edges v1 0
  have hsettled := settled_start v1 v2
  refine ⟨h1, hqueue, hw1, valid_nil.rbInsert v1 v2, ?_, hsettled ▸ traced_start g v1⟩
  have hmem : ∀ e, e ∈ h1.tree.elements ↔ ∃ v w, Edge g v1 v w ∧ e = (w + 0, v1, v, w) := by
    intro e
    rw [helements]
    simp only [hg.row hedges, ← mem_legs]
    simp [emptyHeap, Heaps.Tree.elements]
  rw [hsettled]
  refine ⟨rfl, rfl, fun heq => hne heq.symm, ?_, ?_⟩
  · intro d u v w he
    obtain ⟨v', w', hedge, heq⟩ := (hmem _).mp he
    cases heq
    exact ⟨rfl, hedge, rfl⟩
  · rintro u rfl v w he
    exact .inr ((hmem _).mpr ⟨v, w, he, rfl⟩)

/-- The search for a path ends with what its loop does. -/
theorem wdgraphMinPath_ends (hg : Wf g) (hne : v1 ≠ v2) {J : Set κ → (κ → W) → Prop} (hJ : Kept g v1 v2 J)
    (hj : J {v1} fun _ => 0) :
    (¬ Reaches (Edge g) v1 v2 ∧ Finally (fun n => wdgraphMinPath n v1 v2 g) .fail) ∨
      ∃ p c, Finally (fun n => wdgraphMinPath n v1 v2 g) (.ok (p, c)) ∧ Found g v1 v2 J p c := by
  cases hedges : rbLookup v1 g with
  | none =>
    left
    refine ⟨fun hreach => ?_, 0, fun n _ => by simp only [wdgraphMinPath, hedges]⟩
    obtain heq | ⟨v, ⟨w, es, hes, -⟩, -⟩ := Relation.ReflTransGen.cases_head hreach
    · exact hne heq
    · exact hg.lookup_none.mp hedges (List.mem_map.mpr ⟨_, hes, rfl⟩)
  | some edges =>
    obtain ⟨h1, hqueue, hs⟩ := searching_start hg hne hedges
    have hrun : ∀ n, wdgraphMinPath n v1 v2 g =
        (dijkstra v2 g n h1 (rbInsert .nil v1 v2) []).bind fun epath => .ok (backtrace epath v2 [v2] 0) := by
      intro n
      simp only [wdgraphMinPath, hedges, hqueue]
    simp only [hrun]
    obtain ⟨hreach, hfail⟩ | ⟨epath, p, c, hok, hback, hfound⟩ := dijkstra_ends hg hJ hs ((settled_start v1 v2).symm ▸ hj)
    · exact .inl ⟨hreach, hfail.bind _⟩
    · exact .inr ⟨p, c, hback ▸ hok.bind _, hfound⟩

/-- Without negative weights the search returns a cheapest path. -/
theorem wdgraphMinPath_finds [IsOrderedAddMonoid W] (hg : Wf g) (hnn : ∀ u v w, Edge g u v w → 0 ≤ w)
    (hne : v1 ≠ v2) : Finds g v1 v2 (fun n => wdgraphMinPath n v1 v2 g) (· ≤ ·) := by
  obtain ⟨hreach, hfail⟩ | ⟨p, c, hok, hfound⟩ := wdgraphMinPath_ends hg hne (kept_shortest hnn) (shortest_start hnn)
  · exact ⟨fun _ => hfail, fun h => absurd h hreach⟩
  · refine ⟨fun h => absurd hfound.path.reaches h, fun _ => ⟨p, c, hok, hfound.path, fun p' c' hp' => ?_⟩⟩
    obtain ⟨S, F, δ, u, w, hf, hδ, -, hmin⟩ := hfound.least
    exact hf.least hδ hnn hmin hf.unsettled hp'

-- ---------------------------------------------------------------------------
-- Negated weights
-- ---------------------------------------------------------------------------

omit [LinearOrder κ] [LinearOrder W] in
theorem edge_invCosts2 (u v : κ) (w : W) : Edge (g.mapValues invCosts2) u v w ↔ Edge g u v (-w) := by
  simp only [Edge, toList_mapValues, List.mem_map, Prod.mk.injEq]
  constructor
  · rintro ⟨es, ⟨⟨u', es'⟩, hmem, rfl, rfl⟩, he⟩
    obtain ⟨⟨v', w'⟩, he', heq⟩ := List.mem_map.mp he
    cases heq
    exact ⟨es', hmem, (neg_neg w').symm ▸ he'⟩
  · rintro ⟨es, hmem, he⟩
    exact ⟨invCosts2 es, ⟨(u, es), hmem, rfl, rfl⟩, List.mem_map.mpr ⟨(v, -w), he, by rw [neg_neg]⟩⟩

omit [LinearOrder κ] [LinearOrder W] in
theorem step_invCosts2 (g : WGraph κ W) : Step (Edge (g.mapValues invCosts2)) = Step (Edge g) := by
  funext u v
  refine propext ⟨?_, ?_⟩
  · rintro ⟨w, he⟩
    exact ⟨-w, (edge_invCosts2 u v w).mp he⟩
  · rintro ⟨w, he⟩
    exact ⟨-w, (edge_invCosts2 u v (-w)).mpr ((neg_neg w).symm ▸ he)⟩

omit [LinearOrder κ] [LinearOrder W] in
theorem reaches_invCosts2 (g : WGraph κ W) : Reaches (Edge (g.mapValues invCosts2)) = Reaches (Edge g) :=
  congrArg Relation.ReflTransGen (step_invCosts2 g)

omit [LinearOrder W] in
theorem Wf.invCosts2 (hg : Wf g) : Wf (g.mapValues invCosts2) := by
  refine ⟨hg.valid.mapValues _, fun u v w he => ?_⟩
  have hvertex := hg.inside u v (-w) ((edge_invCosts2 u v w).mp he)
  rw [Vertex, toList_mapValues, List.map_map]
  exact hvertex

omit [LinearOrder W] in
theorem rbClone_invCosts (g : WGraph κ W) : rbClone g (invCosts (rbVisit g)) = some (g.mapValues invCosts2) := by
  rw [rbVisit_eq]
  exact rbClone_mapValues invCosts2 g

/-- An edge of greatest weight among those of its source that lead on to the target. -/
def Heaviest (g : WGraph κ W) (target u v : κ) (w : W) : Prop :=
  Edge g u v w ∧ Reaches (Edge g) v target ∧ ∀ v' w', Edge g u v' w' → Reaches (Edge g) v' target → w' ≤ w

omit [LinearOrder κ] in
theorem lightest_invCosts2 [IsOrderedAddMonoid W] {target u v : κ} {w : W} :
    Lightest (Edge (g.mapValues invCosts2)) target u v w ↔ Heaviest g target u v (-w) := by
  rw [Lightest, Heaviest, reaches_invCosts2, edge_invCosts2]
  refine and_congr_right fun _ => and_congr_right fun _ => ⟨fun h v' w' he hr => ?_, fun h v' w' he hr => ?_⟩
  · exact le_neg_of_le_neg (h v' (-w') ((edge_invCosts2 u v' _).mpr ((neg_neg w').symm ▸ he)) hr)
  · exact neg_le_neg_iff.mp (h v' (-w') ((edge_invCosts2 u v' w').mp he) hr)

-- ---------------------------------------------------------------------------
-- Heaviest paths
-- ---------------------------------------------------------------------------

/-- Two paths of heaviest edges to the same vertex cost the same. -/
def Unambiguous (g : WGraph κ W) (v1 v2 : κ) : Prop :=
  Acyclic (Edge g) → ∀ u p c p' c', Path (Heaviest g v2) v1 u p c → Path (Heaviest g v2) v1 u p' c' → c = c'

/-- Every path that follows heaviest edges has maximal cost. -/
def HeaviestFirst (g : WGraph κ W) (v1 v2 : κ) : Prop :=
  Acyclic (Edge g) → ∀ p c, Path (Heaviest g v2) v1 v2 p c → ∀ p' c', Path (Edge g) v1 v2 p' c' → c' ≤ c

variable [IsOrderedAddMonoid W]

omit [LinearOrder κ] in
theorem HeaviestFirst.consistent (h : HeaviestFirst g v1 v2) (hac : Acyclic (Edge g)) :
    Consistent (Edge (g.mapValues invCosts2)) v1 v2 := by
  have hac' : Acyclic (Edge (g.mapValues invCosts2)) := by rwa [Acyclic, step_invCosts2]
  refine consistent_of_cheapest hac' (finite_edges _) fun p c hp p' c' hp' => ?_
  have hheavy : Path (Heaviest g v2) v1 v2 p (-c) := hp.neg fun _ _ _ hl => lightest_invCosts2.mp hl
  have hpath : Path (Edge g) v1 v2 p' (-c') := hp'.neg fun x y a he => (edge_invCosts2 x y a).mp he
  exact neg_le_neg_iff.mp (h hac _ _ hheavy _ _ hpath)

omit [LinearOrder κ] in
theorem Unambiguous.consistent (h : Unambiguous g v1 v2) (hac : Acyclic (Edge g)) :
    Consistent (Edge (g.mapValues invCosts2)) v1 v2 := by
  intro u p c p' c' hp hp'
  have heavy : ∀ q d, Path (Lightest (Edge (g.mapValues invCosts2)) v2) v1 u q d → Path (Heaviest g v2) v1 u q (-d) :=
    fun q d hq => hq.neg fun _ _ _ hl => lightest_invCosts2.mp hl
  exact neg_inj.mp (h hac u p (-c) p' (-c') (heavy p c hp) (heavy p' c' hp'))

/-- When heaviest edges lead to each vertex with one cost, the search with negated weights follows them. -/
theorem wdgraphMaxPath_ends (hg : Wf g) (hnn : ∀ u v w, Edge g u v w → 0 ≤ w) (hne : v1 ≠ v2)
    (hac : Acyclic (Edge g)) (hcons : Consistent (Edge (g.mapValues invCosts2)) v1 v2) :
    (¬ Reaches (Edge g) v1 v2 ∧ Finally (fun n => wdgraphMaxPath n v1 v2 g) .fail) ∨
      ∃ p c, Finally (fun n => wdgraphMaxPath n v1 v2 g) (.ok (p, c)) ∧ Path (Edge g) v1 v2 p c ∧
        ∃ q, Path (Heaviest g v2) v1 v2 q c := by
  have hac' : Acyclic (Edge (g.mapValues invCosts2)) := by rwa [Acyclic, step_invCosts2]
  have hnp : ∀ u v w, Edge (g.mapValues invCosts2) u v w → w ≤ 0 := fun u v w he =>
    neg_nonneg.mp (hnn u v (-w) ((edge_invCosts2 u v w).mp he))
  have hkept : Kept (g.mapValues invCosts2) v1 v2 (Descended (Edge (g.mapValues invCosts2)) v1 v2) :=
    fun _ _ _ _ _ _ _ hf hδ hmem hmin hv =>
      hf.settle_descended hδ hcons hac' (finite_edges _) hnp hmem hmin hv
  have hrun : ∀ n, wdgraphMaxPath n v1 v2 g =
      (wdgraphMinPath n v1 v2 (g.mapValues invCosts2)).bind fun p => .ok (p.1, -p.2) := by
    intro n
    simp only [wdgraphMaxPath, rbClone_invCosts]
  simp only [hrun]
  obtain ⟨hreach, hfail⟩ | ⟨p, c, hok, hfound⟩ := wdgraphMinPath_ends hg.invCosts2 hne hkept descended_start
  · rw [reaches_invCosts2] at hreach
    exact .inl ⟨hreach, hfail.bind _⟩
  · obtain ⟨S, F, δ, u, w, hf, hδ, hmem, hmin⟩ := hfound.least
    obtain ⟨q, hq⟩ := hf.descent hδ hcons hac' (finite_edges _) hnp hmem hmin .refl
    refine .inr ⟨p, -c, hok.bind _, hfound.path.neg fun x y a he => (edge_invCosts2 x y a).mp he, q, ?_⟩
    exact hq.neg fun _ _ _ hl => lightest_invCosts2.mp hl

/-- Cheapest paths are found, and in graphs without cycles paths of maximal cost. -/
def PathsRight (g : WGraph κ W) (v1 v2 : κ) : Prop :=
  Finds g v1 v2 (fun n => wdgraphMinPath n v1 v2 g) (· ≤ ·) ∧
    (Acyclic (Edge g) → Finds g v1 v2 (fun n => wdgraphMaxPath n v1 v2 g) (· ≥ ·))

section Runs

/-- One edge, from 1 to 2. -/
def single : WGraph ℕ ℤ := .black (.red .nil 1 [(2, 3)] .nil) 2 [] .nil

/-- An edge from 1 to 3 and a heavier way over 2 whose first edge is lighter. -/
def detour : WGraph ℕ ℤ := .black (.red .nil 1 [(2, 1), (3, 5)] .nil) 2 [(3, 10)] (.red .nil 3 [] .nil)

theorem edge_single {u v : ℕ} {w : ℤ} : Edge single u v w ↔ u = 1 ∧ v = 2 ∧ w = 3 := by
  simp only [Edge, single, Rbtrees.Tree.toList]
  constructor
  · rintro ⟨es, hes, he⟩
    have hrow : u = 1 ∧ es = [(2, 3)] ∨ u = 2 ∧ es = [] := by simpa using hes
    obtain ⟨rfl, rfl⟩ | ⟨rfl, rfl⟩ := hrow
    · simpa using he
    · cases he
  · rintro ⟨rfl, rfl, rfl⟩
    exact ⟨[(2, 3)], by simp, by simp⟩

theorem edge_detour {u v : ℕ} {w : ℤ} :
    Edge detour u v w ↔ u = 1 ∧ v = 2 ∧ w = 1 ∨ u = 1 ∧ v = 3 ∧ w = 5 ∨ u = 2 ∧ v = 3 ∧ w = 10 := by
  simp only [Edge, detour, Rbtrees.Tree.toList]
  constructor
  · rintro ⟨es, hes, he⟩
    have hrow : u = 1 ∧ es = [(2, 1), (3, 5)] ∨ u = 2 ∧ es = [(3, 10)] ∨ u = 3 ∧ es = [] := by simpa using hes
    obtain ⟨rfl, rfl⟩ | ⟨rfl, rfl⟩ | ⟨rfl, rfl⟩ := hrow
    · simpa using he
    · simpa using he
    · cases he
  · rintro (⟨rfl, rfl, rfl⟩ | ⟨rfl, rfl, rfl⟩ | ⟨rfl, rfl, rfl⟩)
    · exact ⟨[(2, 1), (3, 5)], by simp, by simp⟩
    · exact ⟨[(2, 1), (3, 5)], by simp, by simp⟩
    · exact ⟨[(3, 10)], by simp, by simp⟩

theorem wf_single : Wf single := by
  refine ⟨⟨by decide, 1, .black (.red .nil .nil) .nil⟩, fun u v w he => ?_⟩
  obtain ⟨rfl, rfl, rfl⟩ := edge_single.mp he
  simp [Vertex, single]

theorem wf_detour : Wf detour := by
  refine ⟨⟨by decide, 1, .black (.red .nil .nil) (.red .nil .nil)⟩, fun u v w he => ?_⟩
  obtain ⟨rfl, rfl, rfl⟩ | ⟨rfl, rfl, rfl⟩ | ⟨rfl, rfl, rfl⟩ := edge_detour.mp he <;> simp [Vertex, detour]

theorem path_single {v : ℕ} {p : List ℕ} {c : ℤ} (hp : Path (Edge single) 1 v p c) :
    v = 1 ∧ c = 0 ∨ v = 2 ∧ c = 3 := by
  induction hp with
  | nil => exact .inl ⟨rfl, rfl⟩
  | snoc _ he ih =>
    obtain ⟨rfl, rfl, rfl⟩ := edge_single.mp he
    obtain ⟨-, rfl⟩ | ⟨h, -⟩ := ih
    · exact .inr ⟨rfl, rfl⟩
    · cases h

theorem acyclic_detour : Acyclic (Edge detour) := by
  have hlt : ∀ u v, Relation.TransGen (Step (Edge detour)) u v → u < v := by
    intro u v h
    have hstep : ∀ x y, Step (Edge detour) x y → x < y := by
      rintro x y ⟨w, he⟩
      obtain ⟨rfl, rfl, -⟩ | ⟨rfl, rfl, -⟩ | ⟨rfl, rfl, -⟩ := edge_detour.mp he <;> decide
    induction h with
    | single h => exact hstep _ _ h
    | tail _ h ih => exact ih.trans (hstep _ _ h)
  exact fun v h => lt_irrefl v (hlt v v h)

end Runs

end Wdgraphs

end Yap
