-- SUMMARY: top_sort/2 of library(ugraphs): counting the edges into each vertex, taking vertices without any, and what the result is.
import Yap.Library.Ugraphs.Reachable

/-!
# Topological sorting

The counters of the edges into the vertices are a list beside the list of the
vertices. A vertex whose counter is zero is taken, and the counters of its
neighbours go down; those that reach zero are taken next.
-/

namespace Yap

namespace Ugraphs

open Ordsets Relation

variable {α : Type*} [LinearOrder α]

-- ---------------------------------------------------------------------------
-- Code
-- ---------------------------------------------------------------------------

def verticesAndZeros : UGraph α → List α × List ℤ
  | [] => ([], [])
  | (vertex, _) :: graph => (vertex :: (verticesAndZeros graph).1, 0 :: (verticesAndZeros graph).2)

def incrList : List α → List α → List ℤ → Option (List ℤ)
  | [], _, counts => some counts
  | v1 :: neibs, v2 :: vertices, m :: counts0 =>
    if v1 = v2 then (incrList neibs vertices counts0).map fun counts1 => (m + 1) :: counts1
    else (incrList (v1 :: neibs) vertices counts0).map fun counts1 => m :: counts1
  | _, _, _ => none

def countEdges : UGraph α → List α → List ℤ → Option (List ℤ)
  | [], _, counts => some counts
  | (_, neibs) :: graph, vertices, counts0 =>
    (incrList neibs vertices counts0).bind fun counts1 => countEdges graph vertices counts1

def selectZeros : List ℤ → List α → Option (List α)
  | [], [] => some []
  | n :: counts, vertex :: vertices =>
    if n = 0 then (selectZeros counts vertices).map fun zeros => vertex :: zeros else selectZeros counts vertices
  | _, _ => none

def graphMemberchk (element1 : α) : UGraph α → Option (List α)
  | [] => none
  | (element2, edges2) :: rest => if element1 = element2 then some edges2 else graphMemberchk element1 rest

/-- The new counters, and the vertices whose counters are zero now. -/
def decrList : List α → List α → List ℤ → List α → Option (List ℤ × List α)
  | [], _, counts, zeros => some (counts, zeros)
  | v1 :: neibs, v2 :: vertices, n :: counts1, zi =>
    if v1 = v2 then
      if n = 1 then (decrList neibs vertices counts1 (v2 :: zi)).map fun r => (0 :: r.1, r.2)
      else (decrList neibs vertices counts1 zi).map fun r => ((n - 1) :: r.1, r.2)
    else (decrList (v1 :: neibs) vertices counts1 zi).map fun r => (n :: r.1, r.2)
  | _, _, _, _ => none

/-- `top_sort/5`. -/
def topSort5 (graph : UGraph α) (vertices : List α) : ℕ → List α → List ℤ → Fueled (List α)
  | 0, _, _ => .more
  -- the counters unify with the zeros of the graph
  | _ + 1, [], counts => if (verticesAndZeros graph).2 = counts then .ok [] else .fail
  | calls + 1, zero :: zeros, counts1 =>
    match graphMemberchk zero graph with
    | none => .fail
    | some neibs =>
      match decrList neibs vertices counts1 zeros with
      | none => .fail
      | some (counts2, newZeros) =>
        (topSort5 graph vertices calls newZeros counts2).bind fun sorted => .ok (zero :: sorted)

def topSort (calls : ℕ) (graph : UGraph α) : Fueled (List α) :=
  let (vertices, counts0) := verticesAndZeros graph
  match countEdges graph vertices counts0 with
  | none => .fail
  | some counts1 =>
    match selectZeros counts1 vertices with
    | none => .fail
    | some zeros => topSort5 graph vertices calls zeros counts1

-- ---------------------------------------------------------------------------
-- Walks along the vertices
-- ---------------------------------------------------------------------------

/-- The induction of a walk along the vertices with a set of them in hand: the next vertex is the
first of the set, or it is not in the set. -/
theorem walk_induction {motive : List α → List α → Prop} (done : ∀ vs, motive [] vs)
    (here : ∀ a neibs vs, (∀ v ∈ vs, a < v) → motive neibs vs → motive (a :: neibs) (a :: vs))
    (skip : ∀ a n neibs vs, n ≠ a → a ∉ n :: neibs → motive (n :: neibs) vs → motive (n :: neibs) (a :: vs))
    {neibs vs : List α} (hvs : OrdSet vs) (hneibs : OrdSet neibs) (hin : ∀ n ∈ neibs, n ∈ vs) :
    motive neibs vs := by
  induction vs generalizing neibs with
  | nil =>
    cases neibs with
    | nil => exact done []
    | cons n neibs => exact absurd (hin n List.mem_cons_self) List.not_mem_nil
  | cons a vs ih =>
    cases neibs with
    | nil => exact done _
    | cons n neibs =>
      by_cases heq : n = a
      · subst heq
        exact here n neibs vs hvs.head_lt (ih hvs.tail hneibs.tail fun m hm =>
          (List.mem_cons.mp (hin m (List.mem_cons_of_mem _ hm))).resolve_left (hneibs.head_lt m hm).ne')
      · have hn : n ∈ vs := (List.mem_cons.mp (hin n List.mem_cons_self)).resolve_left heq
        have hbelow := hneibs.lt_of_lt_head (hvs.head_lt n hn)
        exact skip a n neibs vs heq (fun hmem => (hbelow a hmem).false) (ih hvs.tail hneibs fun m hm =>
          (List.mem_cons.mp (hin m hm)).resolve_left (hbelow m hm).ne')

theorem map_if_not_mem {a : α} {l vs : List α} {f g : α → ℤ} (h : ∀ v ∈ vs, a < v) :
    vs.map (fun w => if w ∈ a :: l then f w else g w) = vs.map fun w => if w ∈ l then f w else g w := by
  refine List.map_congr_left fun w hw => ?_
  simp only [List.mem_cons, (h w hw).ne', false_or]

/-- The counters of the neighbours go up. -/
theorem incrList_eq {neibs vs : List α} (hvs : OrdSet vs) (hneibs : OrdSet neibs) (hin : ∀ n ∈ neibs, n ∈ vs)
    (c : α → ℤ) :
    incrList neibs vs (vs.map c) = some (vs.map fun w => if w ∈ neibs then c w + 1 else c w) := by
  refine walk_induction (motive := fun neibs vs =>
    incrList neibs vs (vs.map c) = some (vs.map fun w => if w ∈ neibs then c w + 1 else c w))
    ?done ?here ?skip hvs hneibs hin
  case done => simp [incrList]
  case here =>
    intro a neibs vs hlt ih
    rw [List.map_cons, incrList, if_pos rfl, ih, List.map_cons, if_pos List.mem_cons_self, map_if_not_mem hlt]
    rfl
  case skip =>
    intro a n neibs vs hne hnot ih
    rw [List.map_cons, incrList, if_neg hne, ih, List.map_cons, if_neg hnot]
    rfl

/-- The counters of the neighbours go down, and the neighbours whose counters were one are put in
front of the zeros, the last of them first. -/
theorem decrList_eq {neibs vs : List α} (hvs : OrdSet vs) (hneibs : OrdSet neibs) (hin : ∀ n ∈ neibs, n ∈ vs)
    (c : α → ℤ) (zeros : List α) :
    decrList neibs vs (vs.map c) zeros =
      some (vs.map fun w => if w ∈ neibs then c w - 1 else c w, (neibs.filter fun w => c w = 1).reverse ++ zeros) := by
  refine walk_induction (motive := fun neibs vs => ∀ zeros, decrList neibs vs (vs.map c) zeros =
      some (vs.map fun w => if w ∈ neibs then c w - 1 else c w, (neibs.filter fun w => c w = 1).reverse ++ zeros))
    ?done ?here ?skip hvs hneibs hin zeros
  case done => simp [decrList]
  case here =>
    intro a neibs vs hlt ih zeros
    rw [List.map_cons, decrList, if_pos rfl, List.map_cons, if_pos List.mem_cons_self, map_if_not_mem hlt]
    split_ifs with hone
    · simp [ih, hone]
    · simp [ih, hone]
  case skip =>
    intro a n neibs vs hne hnot ih zeros
    rw [List.map_cons, decrList, if_neg hne, ih, List.map_cons, if_neg hnot]
    rfl

omit [LinearOrder α] in
theorem verticesAndZeros_eq (g : UGraph α) : verticesAndZeros g = (vertices g, (vertices g).map fun _ => 0) := by
  induction g with
  | nil => rfl
  | cons p g ih =>
    obtain ⟨v, ns⟩ := p
    rw [verticesAndZeros, ih]
    rfl

omit [LinearOrder α] in
theorem selectZeros_eq (vs : List α) (c : α → ℤ) :
    selectZeros (vs.map c) vs = some (vs.filter fun w => c w = 0) := by
  induction vs with
  | nil => rfl
  | cons a vs ih =>
    rw [List.map_cons, selectZeros, ih]
    split_ifs with hzero
    · simp [hzero]
    · simp [hzero]

theorem graphMemberchk_eq (v : α) (g : UGraph α) : graphMemberchk v g = neighbours v g := by
  induction g with
  | nil => rfl
  | cons p g ih =>
    obtain ⟨v0, neig⟩ := p
    rw [graphMemberchk, neighbours, ih]

/-- Each row counts once for each of its vertices. -/
theorem countEdges_eq {g : UGraph α} {vs : List α} (hvs : OrdSet vs) (hrows : ∀ p ∈ g, OrdSet p.2)
    (hin : ∀ p ∈ g, ∀ v ∈ p.2, v ∈ vs) (c : α → ℤ) :
    countEdges g vs (vs.map c) = some (vs.map fun w => c w + (sources g w).length) := by
  induction g generalizing c with
  | nil => simp [countEdges, sources]
  | cons p g ih =>
    obtain ⟨v, neibs⟩ := p
    obtain ⟨hneibs, hrows⟩ := List.forall_mem_cons.mp hrows
    obtain ⟨hneibsin, hin⟩ := List.forall_mem_cons.mp hin
    rw [countEdges, incrList_eq hvs hneibs hneibsin, Option.bind_some, ih hrows hin]
    refine congrArg some (List.map_congr_left fun w _ => ?_)
    by_cases hw : w ∈ neibs
    · simp [sources, hw]
      ring
    · simp [sources, hw]

-- ---------------------------------------------------------------------------
-- Taking vertices
-- ---------------------------------------------------------------------------

attribute [local instance] Ordsets.lawfulBEq

/-- The sources of a vertex that are not taken. -/
def waiting (g : UGraph α) (taken : List α) (w : α) : List α := (sources g w).filter (· ∉ taken)

/-- Taking a vertex takes it from the sources of its neighbours. -/
theorem length_waiting {g : UGraph α} (h : Wf g) {taken : List α} {z : α} (hz : z ∉ taken) (w : α) :
    (waiting g taken w).length =
      (waiting g (taken ++ [z]) w).length + if z ∈ sources g w then 1 else 0 := by
  have hnd : (waiting g taken w).Nodup := (ordSet_sources h.vertices w).nodup.filter _
  have hrest : waiting g (taken ++ [z]) w = (waiting g taken w).erase z := by
    rw [hnd.erase_eq_filter, waiting, waiting, List.filter_filter]
    refine List.filter_congr fun u _ => ?_
    simp [and_comm, bne, Bool.beq_eq_decide_eq]
  rw [hrest]
  split_ifs with hmem
  · have hin : z ∈ waiting g taken w := List.mem_filter.mpr ⟨hmem, by simpa using hz⟩
    rw [List.length_erase_of_mem hin, Nat.sub_add_cancel (List.length_pos_of_mem hin)]
  · have hnot : z ∉ waiting g taken w := fun hin => hmem (List.mem_filter.mp hin).1
    rw [List.erase_of_not_mem hnot, Nat.add_zero]

/-- A run of the sort: the counters count the sources that are not taken, the zeros are what is left
of the vertices without any, and each vertex was taken after its sources. -/
structure Sorting (g : UGraph α) (taken zeros : List α) (counts : List ℤ) : Prop where
  counts : counts = (vertices g).map fun w => ((waiting g taken w).length : ℤ)
  nodup : (taken ++ zeros).Nodup
  mem : ∀ w, w ∈ taken ++ zeros ↔ w ∈ vertices g ∧ waiting g taken w = []
  ordered : ∀ l₁ w l₂, taken = l₁ ++ w :: l₂ → ∀ u ∈ sources g w, u ∈ l₁

variable {g : UGraph α} {taken zeros : List α} {counts : List ℤ}

theorem Sorting.length_le (h : Sorting g taken zeros counts) : (taken ++ zeros).length ≤ (vertices g).length :=
  (h.nodup.subperm fun w hw => ((h.mem w).mp hw).1).length_le

/-- What is not waiting for a source has all of them taken. -/
theorem waiting_eq_nil {w : α} : waiting g taken w = [] ↔ ∀ u ∈ sources g w, u ∈ taken := by
  simp [waiting, List.filter_eq_nil_iff]

/-- The vertices that begin to have no source left are the neighbours whose only source was the one
that is taken. -/
theorem Sorting.step (hg : Wf g) {z : α} (h : Sorting g taken (z :: zeros) counts) {neibs : List α}
    (hord : OrdSet neibs) (hneibs : ∀ w, w ∈ neibs ↔ Edge g z w) :
    ∃ counts', decrList neibs (vertices g) counts zeros =
        some (counts', (neibs.filter fun w => (waiting g taken w).length = (1 : ℤ)).reverse ++ zeros) ∧
      Sorting g (taken ++ [z])
        ((neibs.filter fun w => (waiting g taken w).length = (1 : ℤ)).reverse ++ zeros) counts' := by
  have hz : z ∉ taken := fun hmem => List.disjoint_of_nodup_append h.nodup hmem List.mem_cons_self
  have hsource : ∀ w, z ∈ sources g w ↔ w ∈ neibs := fun w => mem_sources.trans (hneibs w).symm
  have hlen := fun w => length_waiting hg hz w
  simp only [hsource] at hlen
  have hdecr := decrList_eq hg.vertices hord (fun w hw => hg.target ((hneibs w).mp hw))
    (fun w => ((waiting g taken w).length : ℤ)) zeros
  rw [← h.counts] at hdecr
  set new := neibs.filter fun w => (waiting g taken w).length = (1 : ℤ) with hnew
  have hmem : ∀ w, w ∈ new ↔ w ∈ neibs ∧ (waiting g taken w).length = 1 := fun w => by
    rw [hnew, List.mem_filter, decide_eq_true_eq, Nat.cast_eq_one]
  have hperm : (taken ++ [z] ++ (new.reverse ++ zeros)).Perm (new ++ (taken ++ z :: zeros)) := by
    rw [List.append_assoc, List.singleton_append]
    refine (List.perm_append_left_iff taken |>.mpr ?_).trans (List.perm_append_comm_assoc taken new (z :: zeros))
    exact List.perm_middle.symm.trans (List.Perm.append_right _ new.reverse_perm)
  refine ⟨_, hdecr, ?_, ?_, fun w => ?_, fun l₁ w l₂ heq u hu => ?_⟩
  · refine List.map_congr_left fun w _ => ?_
    rw [hlen w]
    split_ifs <;> push_cast <;> ring
  · rw [hperm.nodup_iff, List.nodup_append]
    refine ⟨hord.nodup.filter _, h.nodup, ?_⟩
    rintro w hw _ hold rfl
    have hone := ((hmem w).mp hw).2
    rw [((h.mem w).mp hold).2] at hone
    cases hone
  · have hw := hlen w
    rw [hperm.mem_iff, List.mem_append, hmem, h.mem, ← List.length_eq_zero_iff, ← List.length_eq_zero_iff]
    constructor
    · rintro (⟨hn, hone⟩ | ⟨hv, hzero⟩)
      · rw [if_pos hn] at hw
        exact ⟨hg.target ((hneibs w).mp hn), by omega⟩
      · exact ⟨hv, by omega⟩
    · rintro ⟨hv, hzero⟩
      by_cases hn : w ∈ neibs
      · rw [if_pos hn] at hw
        exact .inl ⟨hn, by omega⟩
      · rw [if_neg hn] at hw
        exact .inr ⟨hv, by omega⟩
  · have hzeros : waiting g taken z = [] := ((h.mem z).mp (by simp)).2
    rcases List.eq_nil_or_concat l₂ with rfl | ⟨l, y, rfl⟩
    · obtain ⟨rfl, hlast⟩ := List.append_inj' heq rfl
      rw [List.cons.injEq] at hlast
      obtain ⟨rfl, -⟩ := hlast
      exact waiting_eq_nil.mp hzeros u hu
    · rw [List.concat_eq_append, ← List.cons_append, ← List.append_assoc] at heq
      exact h.ordered l₁ w l (List.append_inj' heq rfl).1 u hu

/-- The run takes vertices until none is left without a source; it succeeds when the counters are
zero then. -/
theorem topSort5_spec (hg : Wf g) {rest : ℕ} (h : Sorting g taken zeros counts)
    (hrest : (vertices g).length ≤ rest + taken.length) :
    ∃ sorted counts', Sorting g (taken ++ sorted) [] counts' ∧
      ∀ calls > rest, topSort5 g (vertices g) calls zeros counts =
        if (vertices g).map (fun _ => 0) = counts' then .ok sorted else .fail := by
  have hle := h.length_le
  rw [List.length_append] at hle
  induction rest generalizing taken zeros counts with
  | zero =>
    obtain rfl : zeros = [] := List.length_eq_zero_iff.mp (by omega)
    refine ⟨[], counts, by rwa [List.append_nil], fun calls hcalls => ?_⟩
    obtain ⟨calls, rfl⟩ := Nat.exists_eq_add_one_of_ne_zero hcalls.ne'
    rw [topSort5, verticesAndZeros_eq]
  | succ rest ih =>
    cases zeros with
    | nil =>
      refine ⟨[], counts, by rwa [List.append_nil], fun calls hcalls => ?_⟩
      obtain ⟨calls, rfl⟩ := Nat.exists_eq_add_one_of_ne_zero (Nat.ne_zero_of_lt hcalls)
      rw [topSort5, verticesAndZeros_eq]
    | cons z zeros =>
      have hz : z ∈ vertices g := ((h.mem z).mp (by simp)).1
      obtain ⟨neibs, heq, hord, hneibs⟩ := hg.neighbours_eq hz
      obtain ⟨counts₁, hdecr, hstep⟩ := h.step hg hord hneibs
      have hlen : (vertices g).length ≤ rest + (taken ++ [z]).length := by
        rw [List.length_append, List.length_singleton]
        omega
      have hle' := hstep.length_le
      rw [List.length_append] at hle'
      obtain ⟨sorted, counts', hend, hrun⟩ := ih hstep hlen hle'
      refine ⟨z :: sorted, counts', by rwa [List.append_assoc] at hend, fun calls hcalls => ?_⟩
      obtain ⟨calls, rfl⟩ := Nat.exists_eq_add_one_of_ne_zero (Nat.ne_zero_of_lt hcalls)
      rw [topSort5, graphMemberchk_eq, heq]
      dsimp only
      rw [hdecr]
      dsimp only
      rw [hrun calls (by omega)]
      split_ifs <;> rfl

/-- A permutation of the vertices with every edge going forward. -/
structure TopOrder (g : UGraph α) (l : List α) : Prop where
  perm : l.Perm (vertices g)
  forward : ∀ u w, Edge g u w → l.idxOf u < l.idxOf w

/-- When no zeros are left the counters are zero exactly if every vertex was taken. -/
theorem Sorting.counts_eq_zeros (h : Sorting g taken [] counts) :
    (vertices g).map (fun _ => 0) = counts ↔ ∀ w ∈ vertices g, w ∈ taken := by
  have hmem := h.mem
  rw [List.append_nil] at hmem
  rw [h.counts, List.map_inj_left]
  refine forall₂_congr fun w hw => ?_
  rw [hmem, and_iff_right hw, eq_comm, Nat.cast_eq_zero, List.length_eq_zero_iff]

theorem Sorting.topOrder (hg : Wf g) (h : Sorting g taken [] counts) (hall : ∀ w ∈ vertices g, w ∈ taken) :
    TopOrder g taken := by
  have hnd := h.nodup
  rw [List.append_nil] at hnd
  refine ⟨?_, fun u w hedge => ?_⟩
  · refine (List.perm_ext_iff_of_nodup hnd hg.vertices.nodup).mpr fun w => ⟨fun hw => ?_, hall w⟩
    exact ((h.mem w).mp (List.mem_append_left _ hw)).1
  · exact idxOf_lt_of_ordered h.ordered (hall w (hg.target hedge)) (mem_sources.mpr hedge)

/-- When a vertex is not taken, each vertex that is not has a source that is not. -/
theorem Sorting.exists_cycle (h : Sorting g taken [] counts) {w : α} (hw : w ∈ vertices g) (hnot : w ∉ taken) :
    ∃ v, TransGen (Edge g) v v := by
  by_contra hacyclic
  have hleft : ((vertices g).toFinset \ taken.toFinset).Nonempty := ⟨w, by simp [hw, hnot]⟩
  obtain ⟨m, hm, hmin⟩ := Closure.exists_source (fun v hv => hacyclic ⟨v, hv⟩) hleft
  rw [Finset.mem_sdiff, List.mem_toFinset, List.mem_toFinset] at hm
  have hopen := h.mem m
  rw [List.append_nil, and_iff_right hm.1, waiting_eq_nil] at hopen
  refine hm.2 (hopen.mpr fun u hu => ?_)
  by_contra hsource
  have hedge : Edge g u m := mem_sources.mp hu
  exact hmin u (by simp [hedge.source, hsource]) hedge

/-- Before anything is taken. -/
theorem sorting_start (hg : Wf g) :
    Sorting g [] ((vertices g).filter fun w => ((sources g w).length : ℤ) = 0)
      ((vertices g).map fun w => ((sources g w).length : ℤ)) := by
  have hwaiting : ∀ w, waiting g [] w = sources g w := fun w => by simp [waiting]
  refine ⟨by simp only [hwaiting], ?_, fun w => ?_, fun l₁ w l₂ heq => ?_⟩
  · exact hg.vertices.nodup.filter _
  · simp [hwaiting]
  · exact absurd heq (List.append_ne_nil_of_right_ne_nil _ (List.cons_ne_nil _ _)).symm

/-- The sort has a topological order as its result, or fails on a cycle. -/
theorem topSort_spec (hg : Wf g) :
    (∃ l, Fueled.Finally (fun calls => topSort calls g) (.ok l) ∧ TopOrder g l) ∨
      Fueled.Finally (fun calls => topSort calls g) .fail ∧ ∃ v, TransGen (Edge g) v v := by
  have hcount := countEdges_eq hg.vertices hg.neighbours hg.inside fun _ => 0
  simp only [zero_add] at hcount
  have hrest : (vertices g).length ≤ (vertices g).length + ([] : List α).length := Nat.le_add_right _ _
  obtain ⟨sorted, counts', hend, hrun⟩ := topSort5_spec hg (sorting_start hg) hrest
  rw [List.nil_append] at hend
  have hsort : ∀ calls > (vertices g).length, topSort calls g =
      if (vertices g).map (fun _ => 0) = counts' then .ok sorted else .fail := fun calls hcalls => by
    rw [topSort, verticesAndZeros_eq]
    dsimp only
    rw [hcount]
    dsimp only
    rw [selectZeros_eq]
    exact hrun calls hcalls
  by_cases hall : ∀ w ∈ vertices g, w ∈ sorted
  · have hzeros := hend.counts_eq_zeros.mpr hall
    refine .inl ⟨sorted, ⟨(vertices g).length + 1, fun calls hcalls => ?_⟩, hend.topOrder hg hall⟩
    exact (hsort calls hcalls).trans (if_pos hzeros)
  · have hzeros := fun heq => hall (hend.counts_eq_zeros.mp heq)
    push Not at hall
    obtain ⟨w, hw, hnot⟩ := hall
    refine .inr ⟨⟨(vertices g).length + 1, fun calls hcalls => ?_⟩, hend.exists_cycle hw hnot⟩
    exact (hsort calls hcalls).trans (if_neg hzeros)

/-- The sort succeeds when there is no cycle, with a topological order, and fails otherwise. -/
theorem topSort_sorts (hg : Wf g) :
    ((∃ l, Fueled.Finally (fun calls => topSort calls g) (.ok l)) ↔ ∀ v, ¬ TransGen (Edge g) v v) ∧
      (Fueled.Finally (fun calls => topSort calls g) .fail ↔ ∃ v, TransGen (Edge g) v v) ∧
      ∀ l, Fueled.Finally (fun calls => topSort calls g) (.ok l) → TopOrder g l := by
  have hacyclic : ∀ l, TopOrder g l → ∀ v, ¬ TransGen (Edge g) v v := fun l hl => Closure.acyclic_of_lt hl.forward
  rcases topSort_spec hg with ⟨l, hrun, horder⟩ | ⟨hrun, v, hv⟩
  · refine ⟨iff_of_true ⟨l, hrun⟩ (hacyclic l horder), iff_of_false (fun hfail => ?_) ?_, fun l' hrun' => ?_⟩
    · exact absurd (hrun.unique hfail) (by simp)
    · rintro ⟨v, hv⟩
      exact hacyclic l horder v hv
    · cases hrun.unique hrun'
      exact horder
  · refine ⟨iff_of_false ?_ fun hnone => hnone v hv, iff_of_true hrun ⟨v, hv⟩, fun l' hrun' => ?_⟩
    · rintro ⟨l, hrun'⟩
      exact absurd (hrun.unique hrun') (by simp)
    · exact absurd (hrun.unique hrun') (by simp)

theorem topSort_sorts_line :
    ((∃ l, Fueled.Finally (fun calls => topSort calls [((1 : ℕ), [2]), (2, [])]) (.ok l)) ↔
        ∀ v, ¬ TransGen (Edge [((1 : ℕ), [2]), (2, [])]) v v) ∧
      (Fueled.Finally (fun calls => topSort calls [((1 : ℕ), [2]), (2, [])]) .fail ↔
        ∃ v, TransGen (Edge [((1 : ℕ), [2]), (2, [])]) v v) ∧
      ∀ l, Fueled.Finally (fun calls => topSort calls [((1 : ℕ), [2]), (2, [])]) (.ok l) →
        TopOrder [((1 : ℕ), [2]), (2, [])] l :=
  topSort_sorts wf_line

end Ugraphs

end Yap
