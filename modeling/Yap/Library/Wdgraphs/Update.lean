-- SUMMARY: Additions and deletions of edges and vertices in library(wdgraphs), with the lists of neighbours and weights as maps.
import Yap.Library.Rbtrees.Delete
import Yap.Library.Wdgraphs.Paths
import Yap.Library.Ordsets.Operations

/-!
# Updates of weighted directed graphs

The row of a vertex is a list of pairs `Neighbour-Weight` in increasing order
of the neighbours. A term `K-W` is ordered by `K`, then by `W`. Weights that
are unified are ground, so they unify when they are equal.
-/

namespace Yap

namespace Wdgraphs

open Ordsets Rbtrees

variable {κ W : Type*} [LinearOrder κ] [LinearOrder W]

/-- Terms `V1-(V2-W)`. -/
abbrev WEdge (κ W : Type*) := κ × κ × W

-- ---------------------------------------------------------------------------
-- Code
-- ---------------------------------------------------------------------------

/-- `ord_insert/3` on terms `V2-W`. -/
def insertEdge (v2 : κ) (w : W) (children0 : List (κ × W)) : List (κ × W) :=
  (ordInsert (children0.map toLex) (toLex (v2, w))).map ofLex

def wdgraphNewEdge (v1 v2 : κ) (w : W) (vs0 : WGraph κ W) : WGraph κ W :=
  match rbApply vs0 v1 fun children0 => some (insertEdge v2 w children0) with
  | some vs => vs
  | none => rbInsert vs0 v1 [(v2, w)]

/-- `dgraph_add_vertex/3` of `library(dgraphs)`. -/
def wdgraphAddVertex (vs0 : WGraph κ W) (v : κ) : WGraph κ W :=
  match rbLookup v vs0 with
  | some _ => vs0
  | none => rbInsert vs0 v []

def wdgraphAddEdge (vs0 : WGraph κ W) (v1 v2 : κ) (weight : W) : WGraph κ W :=
  wdgraphAddVertex (wdgraphNewEdge v1 v2 weight vs0) v2

def keyUnion : List (κ × W) → List (κ × W) → List (κ × W)
  | [], children => children
  | c :: children, [] => c :: children
  | (k, w) :: toAdd, (k1, w1) :: children0 =>
    if k = k1 then (k, w) :: keyUnion toAdd children0
    else if k1 < k then (k1, w1) :: keyUnion ((k, w) :: toAdd) children0
    else (k, w) :: keyUnion toAdd ((k1, w1) :: children0)
termination_by toAdd children0 => toAdd.length + children0.length

/-- `rb_update/5` finds the old row and puts the new one in its place. -/
def wdgraphUpdateVertex (v : κ) (edges : List (κ × W)) (wg0 : WGraph κ W) : WGraph κ W :=
  match rbApply wg0 v fun edges0 => some (keyUnion edges edges0) with
  | some wgf => wgf
  | none => rbInsert wg0 v edges

def allVerticesInWedges : List (WEdge κ W) → List κ
  | [] => []
  | (v1, v2, _) :: edges => v1 :: v2 :: allVerticesInWedges edges

/-- `sort/2` on terms `V1-(V2-W)`. -/
def sortWedges (edges : List (WEdge κ W)) : List (WEdge κ W) :=
  (sort (edges.map fun e => toLex (e.1, toLex e.2))).map fun e => ((ofLex e).1, ofLex (ofLex e).2)

def getExtraChildren : List (WEdge κ W) → κ → List (κ × W) × List (WEdge κ W)
  | (va, c, w) :: es, vb =>
    if va = vb then ((c, w) :: (getExtraChildren es vb).1, (getExtraChildren es vb).2) else ([], (va, c, w) :: es)
  | [], _ => ([], [])

def edges2wgraphl : List κ → List (WEdge κ W) → Option (List (κ × List (κ × W)))
  | [], [] => some []
  | [], _ :: _ => none
  | v :: vertices, [] => (edges2wgraphl vertices []).map fun graphL => (v, []) :: graphL
  | v :: vertices, (va, e) :: sortedEdges =>
    if v = va then
      (edges2wgraphl vertices (getExtraChildren sortedEdges v).2).map fun graphL =>
        (v, e :: (getExtraChildren sortedEdges v).1) :: graphL
    else (edges2wgraphl vertices ((va, e) :: sortedEdges)).map fun graphL => (v, []) :: graphL

def addEdges : List κ → List (WEdge κ W) → WGraph κ W → Option (WGraph κ W)
  | [], [], g => some g
  | [], _ :: _, _ => none
  | v :: vs, [], g => addEdges vs [] (wdgraphUpdateVertex v [] g)
  | va :: vs, (vb, e) :: es, g =>
    if va = vb then
      addEdges vs (getExtraChildren es va).2 (wdgraphUpdateVertex va (e :: (getExtraChildren es va).1) g)
    else addEdges vs ((vb, e) :: es) (wdgraphUpdateVertex va [] g)

def wdgraphAddEdges (g0 : WGraph κ W) (edges : List (WEdge κ W)) : Option (WGraph κ W) :=
  match g0 with
  | .nil => (edges2wgraphl (sort (allVerticesInWedges (sortWedges edges))) (sortWedges edges)).bind ordListToRbtree
  | g0 => addEdges (sort (allVerticesInWedges (sortWedges edges))) (sortWedges edges) g0

def delEdge : List (κ × W) → κ → W → Option (List (κ × W))
  | [], _, _ => none
  | (k, w) :: children, k1, w1 =>
    if k = k1 then if w = w1 then some children else none
    else (delEdge children k1 w1).map fun childrenLeft => (k, w) :: childrenLeft

def wdgraphDelEdge (vs0 : WGraph κ W) (v1 v2 : κ) (w : W) : Option (WGraph κ W) :=
  rbApply vs0 v1 fun children0 => delEdge children0 v2 w

/-- `del_vertices/3`: the first list without the second. -/
def delVertices : List (κ × W) → List (κ × W) → Option (List (κ × W))
  | children, [] => some children
  | [], _ :: _ => none
  | (k1, w1) :: children0, (k, w) :: toDel =>
    if k = k1 then if w = w1 then delVertices children0 toDel else none
    else (delVertices children0 ((k, w) :: toDel)).map fun childrenLeft => (k1, w1) :: childrenLeft

/-- The call is `del_vertices(Children, Children0, NewChildren)`. -/
def contractVertex (v : κ) (children : List (κ × W)) (vs0 : WGraph κ W) : Option (WGraph κ W) :=
  rbApply vs0 v fun children0 => delVertices children children0

omit [LinearOrder W] in
theorem length_getExtraChildren (es : List (WEdge κ W)) (v : κ) :
    (getExtraChildren es v).2.length ≤ es.length := by
  induction es with
  | nil => simp [getExtraChildren]
  | cons e es ih =>
    obtain ⟨va, c, w⟩ := e
    rw [getExtraChildren]
    split_ifs
    · exact ih.trans (Nat.le_succ _)
    · exact le_rfl

def continueDelEdges : List (WEdge κ W) → WGraph κ W → Option (WGraph κ W)
  | [], g => some g
  | (v, v1) :: es, g =>
    (contractVertex v (v1 :: (getExtraChildren es v).1) g).bind fun gi =>
      continueDelEdges (getExtraChildren es v).2 gi
termination_by es => es.length
decreasing_by exact Nat.lt_succ_of_le (length_getExtraChildren es v)

def wdgraphDelEdges (g0 : WGraph κ W) (edges : List (WEdge κ W)) : Option (WGraph κ W) :=
  continueDelEdges (sortWedges edges) g0

def deleteWedge (v : κ) : List (κ × W) → List (κ × W)
  | [] => []
  | (k, w) :: children =>
    if k = v then children
    else if k < v then (k, w) :: deleteWedge v children
    else children

def wdgraphDelVertex (vs0 : WGraph κ W) (v : κ) : Option (WGraph κ W) :=
  (rbDelete vs0 v).bind fun p => rbMap p.2 fun children => some (deleteWedge v children)

def deleteAll : List κ → WGraph κ W → Option (WGraph κ W)
  | [], vs => some vs
  | v :: vs, vs0 => (rbDelete vs0 v).bind fun p => deleteAll vs p.2

def delPossibleEdges : List κ → List (κ × W) → List (κ × W)
  | [], children => children
  | _ :: _, [] => []
  | k :: toDel, (k1, w1) :: children0 =>
    if k = k1 then delPossibleEdges toDel children0
    else if k1 < k then (k1, w1) :: delPossibleEdges (k :: toDel) children0
    else delPossibleEdges toDel ((k1, w1) :: children0)
termination_by toDel children0 => toDel.length + children0.length

def deleteRemainingEdges (sortedVs : List κ) (vs0 : WGraph κ W) : Option (WGraph κ W) :=
  rbMap vs0 fun children => some (delPossibleEdges sortedVs children)

def wdgraphDelVertices (g0 : WGraph κ W) (vs : List κ) : Option (WGraph κ W) :=
  (deleteAll (sort vs) g0).bind fun g1 => deleteRemainingEdges (sort vs) g1

-- ---------------------------------------------------------------------------
-- Rows
-- ---------------------------------------------------------------------------

/-- Each key has one value. -/
def Functional {α β : Type*} (l : List (α × β)) : Prop := ∀ k v v', (k, v) ∈ l → (k, v') ∈ l → v = v'

omit [LinearOrder W] in
theorem functional_of_sorted {l : List (κ × W)} (h : Assoc.Sorted l) : Functional l := by
  intro k v v' hv hv'
  rw [← Assoc.value_eq_some h] at hv hv'
  exact Option.some.inj (hv.symm.trans hv')

/-- Pairs in the order of terms are in the order of the keys when no key is there twice. -/
theorem sorted_of_lex {l : List (κ × W)} (h : OrdSet (l.map toLex)) (hf : Functional l) : Assoc.Sorted l := by
  refine (List.pairwise_map.mp h).imp_of_mem fun ha hb hlt => ?_
  refine (Prod.Lex.lt_iff.mp hlt).resolve_right fun hsame => ?_
  exact hsame.2.ne (hf _ _ _ ha (hsame.1 ▸ hb))

theorem lex_of_sorted {l : List (κ × W)} (h : Assoc.Sorted l) : OrdSet (l.map toLex) :=
  List.pairwise_map.mpr (h.imp fun hlt => Prod.Lex.lt_iff.mpr (.inl hlt))

theorem mem_insertEdge {v2 : κ} {w : W} {children : List (κ × W)} {e : κ × W} :
    e ∈ insertEdge v2 w children ↔ e = (v2, w) ∨ e ∈ children := by
  simp only [insertEdge, List.mem_map, mem_ordInsert]
  constructor
  · rintro ⟨a, rfl | ⟨b, hb, rfl⟩, rfl⟩
    · exact .inl rfl
    · exact .inr hb
  · rintro (rfl | he)
    · exact ⟨toLex (v2, w), .inl rfl, rfl⟩
    · exact ⟨toLex e, .inr ⟨e, he, rfl⟩, rfl⟩

/-- The row stays a map when the neighbour had no other weight. -/
theorem sorted_insertEdge {v2 : κ} {w : W} {children : List (κ × W)} (h : Assoc.Sorted children) :
    Assoc.Sorted (insertEdge v2 w children) ↔ ∀ w', (v2, w') ∈ children → w' = w := by
  constructor
  · intro hs w' hw'
    exact functional_of_sorted hs v2 w' w (mem_insertEdge.mpr (.inr hw')) (mem_insertEdge.mpr (.inl rfl))
  · intro hone
    have hlex : OrdSet ((insertEdge v2 w children).map toLex) := by
      rw [insertEdge, List.map_map]
      exact (List.map_id _).symm ▸ ordSet_ordInsert (lex_of_sorted h) _
    refine sorted_of_lex hlex fun k v v' hv hv' => ?_
    rw [mem_insertEdge] at hv hv'
    rcases hv with heq | hv
    · cases heq
      rcases hv' with heq' | hv'
      · cases heq'
        rfl
      · exact (hone v' hv').symm
    · rcases hv' with heq' | hv'
      · cases heq'
        exact hone v hv
      · exact functional_of_sorted h k v v' hv hv'

omit [LinearOrder W] in
/-- The entries of the first list, and those of the second whose keys it does not have. -/
theorem keyUnion_spec {toAdd children : List (κ × W)} (h1 : Assoc.Sorted toAdd) (h2 : Assoc.Sorted children) :
    Assoc.Sorted (keyUnion toAdd children) ∧
      ∀ e, e ∈ keyUnion toAdd children ↔ e ∈ toAdd ∨ e ∈ children ∧ e.1 ∉ toAdd.map Prod.fst := by
  induction toAdd, children using keyUnion.induct with
  | case1 children => simpa [keyUnion] using h2
  | case2 c children => simpa [keyUnion] using h1
  | case3 w toAdd k w1 children ih =>
    obtain ⟨hlt1, h1'⟩ := List.pairwise_cons.mp h1
    obtain ⟨hlt2, h2'⟩ := List.pairwise_cons.mp h2
    obtain ⟨hs, hmem⟩ := ih h1' h2'
    rw [keyUnion, if_pos rfl]
    refine ⟨List.pairwise_cons.mpr ⟨fun e he => ?_, hs⟩, fun e => ?_⟩
    · exact ((hmem e).mp he).elim (hlt1 e) fun h => hlt2 e h.1
    · rw [List.mem_cons, hmem]
      have hne : e ∈ children → e.1 ≠ k := fun he => (hlt2 e he).ne'
      grind
  | case4 k w toAdd k1 w1 children hne hlt ih =>
    obtain ⟨hlt1, -⟩ := List.pairwise_cons.mp h1
    obtain ⟨hlt2, h2'⟩ := List.pairwise_cons.mp h2
    obtain ⟨hs, hmem⟩ := ih h1 h2'
    have hbelow : ∀ e ∈ (k, w) :: toAdd, k1 < e.1 :=
      List.forall_mem_cons.mpr ⟨hlt, fun e he => hlt.trans (hlt1 e he)⟩
    rw [keyUnion, if_neg hne, if_pos hlt]
    refine ⟨List.pairwise_cons.mpr ⟨fun e he => ?_, hs⟩, fun e => ?_⟩
    · exact ((hmem e).mp he).elim (hbelow e) fun h => hlt2 e h.1
    · have hnot : k1 ∉ ((k, w) :: toAdd).map Prod.fst := by
        rintro hk
        obtain ⟨e, he, heq⟩ := List.mem_map.mp hk
        exact (hbelow e he).ne' heq
      rw [List.mem_cons, hmem, List.mem_cons (b := (k1, w1))]
      constructor
      · rintro (rfl | he | he)
        · exact .inr ⟨.inl rfl, hnot⟩
        · exact .inl he
        · exact .inr ⟨.inr he.1, he.2⟩
      · rintro (he | ⟨rfl | he, hk⟩)
        · exact .inr (.inl he)
        · exact .inl rfl
        · exact .inr (.inr ⟨he, hk⟩)
  | case5 k w toAdd k1 w1 children hne hlt ih =>
    have hgt : k < k1 := lt_of_le_of_ne (not_lt.mp hlt) hne
    obtain ⟨hlt1, h1'⟩ := List.pairwise_cons.mp h1
    obtain ⟨hlt2, -⟩ := List.pairwise_cons.mp h2
    obtain ⟨hs, hmem⟩ := ih h1' h2
    have hbelow : ∀ e ∈ (k1, w1) :: children, k < e.1 :=
      List.forall_mem_cons.mpr ⟨hgt, fun e he => hgt.trans (hlt2 e he)⟩
    rw [keyUnion, if_neg hne, if_neg hlt]
    refine ⟨List.pairwise_cons.mpr ⟨fun e he => ?_, hs⟩, fun e => ?_⟩
    · exact ((hmem e).mp he).elim (hlt1 e) fun h => hbelow e h.1
    · have hne' : e ∈ (k1, w1) :: children → e.1 ≠ k := fun he => (hbelow e he).ne'
      have hkeys : e ∈ (k1, w1) :: children →
          (e.1 ∉ ((k, w) :: toAdd).map Prod.fst ↔ e.1 ∉ toAdd.map Prod.fst) := fun he => by
        rw [List.map_cons, List.mem_cons, not_or, and_iff_right (hne' he)]
      rw [List.mem_cons, hmem, List.mem_cons (l := toAdd), or_assoc]
      exact or_congr_right (or_congr_right (and_congr_right fun he => (hkeys he).symm))

theorem delEdge_eq {children : List (κ × W)} (h : Assoc.Sorted children) (k : κ) (w : W) :
    delEdge children k w = if (k, w) ∈ children then some (Assoc.del k children) else none := by
  induction children with
  | nil => rfl
  | cons e children ih =>
    obtain ⟨k1, w1⟩ := e
    obtain ⟨hlt, h'⟩ := List.pairwise_cons.mp h
    rw [delEdge]
    split_ifs with hk hw hmem hmem hmem
    · subst hk
      have hrest : Assoc.del k1 children = children :=
        List.filter_eq_self.mpr fun e he => decide_eq_true (hlt e he).ne'
      rw [Assoc.del] at hrest
      rw [Assoc.del, List.filter_cons_of_neg (by simp), hrest]
    · exact absurd (by rw [hk, hw]; exact List.mem_cons_self) hmem
    · subst hk
      cases List.mem_cons.mp hmem with
      | inl heq => exact absurd (Prod.ext_iff.mp heq).2.symm hw
      | inr hmem => exact absurd (hlt _ hmem) (lt_irrefl _)
    · rfl
    · have hrest : (k, w) ∈ children :=
        (List.mem_cons.mp hmem).resolve_left fun heq => hk (Prod.ext_iff.mp heq).1.symm
      rw [ih h', if_pos hrest]
      simp [Assoc.del, hk]
    · rw [ih h', if_neg fun hrest => hmem (List.mem_cons_of_mem _ hrest)]
      rfl

/-- When the second list is taken out of the first, the first is made of the second and the rest. -/
theorem mem_delVertices {l toDel r : List (κ × W)} (h : delVertices l toDel = some r) (e : κ × W) :
    e ∈ l ↔ e ∈ toDel ∨ e ∈ r := by
  induction l, toDel using delVertices.induct generalizing r with
  | case1 children =>
    cases children <;> simp_all [delVertices]
  | case2 => simp [delVertices] at h
  | case3 w1 children k toDel ih =>
    rw [delVertices, if_pos rfl, if_pos rfl] at h
    rw [List.mem_cons, ih h, List.mem_cons, or_assoc]
  | case4 w1 children k w toDel hne =>
    rw [delVertices, if_pos rfl, if_neg hne] at h
    cases h
  | case5 k1 w1 children k w toDel hne ih =>
    rw [delVertices, if_neg hne] at h
    obtain ⟨left, hleft, rfl⟩ := Option.map_eq_some_iff.mp h
    rw [List.mem_cons, ih hleft, List.mem_cons (l := left)]
    tauto

theorem delVertices_self (l : List (κ × W)) : delVertices l l = some [] := by
  induction l with
  | nil => rfl
  | cons e l ih =>
    obtain ⟨k, w⟩ := e
    rw [delVertices, if_pos rfl, if_pos rfl, ih]

omit [LinearOrder W] in
theorem deleteWedge_sublist (v : κ) (children : List (κ × W)) : (deleteWedge v children).Sublist children := by
  induction children with
  | nil => simp [deleteWedge]
  | cons e children ih =>
    obtain ⟨k, w⟩ := e
    rw [deleteWedge]
    split_ifs
    · exact List.sublist_cons_self _ _
    · exact ih.cons_cons _
    · exact List.sublist_cons_self _ _

omit [LinearOrder W] in
/-- The walk drops the first neighbour that is not below the vertex. -/
theorem mem_deleteWedge {v : κ} {children : List (κ × W)} (h : Assoc.Sorted children) (e : κ × W) :
    e ∈ deleteWedge v children ↔ e ∈ children ∧ (e.1 < v ∨ ∃ d ∈ children, v ≤ d.1 ∧ d.1 < e.1) := by
  induction children with
  | nil => simp [deleteWedge]
  | cons d children ih =>
    obtain ⟨k, w⟩ := d
    obtain ⟨hlt, h'⟩ := List.pairwise_cons.mp h
    have hrest : e ∈ children → k < e.1 := hlt e
    have hleast : ∀ d ∈ (k, w) :: children, k ≤ d.1 :=
      List.forall_mem_cons.mpr ⟨le_rfl, fun d hd => (hlt d hd).le⟩
    -- the first neighbour is not below the vertex
    have hdrop : v ≤ k → (e ∈ children ↔
        e ∈ (k, w) :: children ∧ (e.1 < v ∨ ∃ d ∈ (k, w) :: children, v ≤ d.1 ∧ d.1 < e.1)) := by
      intro hvk
      constructor
      · intro he
        exact ⟨List.mem_cons_of_mem _ he, .inr ⟨(k, w), List.mem_cons_self, hvk, hrest he⟩⟩
      · rintro ⟨he, hcond⟩
        refine (List.mem_cons.mp he).resolve_left fun heq => ?_
        subst heq
        rcases hcond with hbelow | ⟨d, hd, -, hdk⟩
        · exact absurd hbelow hvk.not_gt
        · exact absurd hdk (hleast d hd).not_gt
    rw [deleteWedge]
    split_ifs with hk hkv
    · exact hdrop hk.ge
    · rw [List.mem_cons, ih h', List.mem_cons]
      grind
    · exact hdrop (not_lt.mp hkv)

omit [LinearOrder W] in
/-- The row loses exactly the vertex when the vertex is in it or nothing is above the vertex. -/
theorem deleteWedge_iff {v : κ} {children : List (κ × W)} (h : Assoc.Sorted children) :
    (∀ e, e ∈ deleteWedge v children ↔ e ∈ children ∧ e.1 ≠ v) ↔
      v ∈ children.map Prod.fst ∨ ∀ e ∈ children, ¬ v < e.1 := by
  simp only [mem_deleteWedge h]
  constructor
  · intro heq
    by_contra hnot
    push Not at hnot
    obtain ⟨hv, e, he, hlt⟩ := hnot
    -- everything above the vertex has something before it that is not below, back to the least one
    have hwf : WellFounded fun (a b : {d // d ∈ children}) => a.1.1 < b.1.1 := by
      have hfinite : Finite {d // d ∈ children} := (List.finite_toSet children).to_subtype
      have hirrefl : Std.Irrefl fun (a b : {d // d ∈ children}) => a.1.1 < b.1.1 := ⟨fun a => lt_irrefl _⟩
      have htrans : IsTrans {d // d ∈ children} fun a b => a.1.1 < b.1.1 := ⟨fun _ _ _ => lt_trans⟩
      exact Finite.wellFounded_of_trans_of_irrefl _
    obtain ⟨m, hm, hmin⟩ := hwf.has_min {d | v < d.1.1} ⟨⟨e, he⟩, hlt⟩
    obtain hbelow | ⟨d, hd, hvd, hdm⟩ := ((heq m.1).mpr ⟨m.2, ne_of_gt hm⟩).2
    · exact absurd hbelow hm.asymm
    · have hne : v ≠ d.1 := fun hvd' => hv (hvd' ▸ List.mem_map_of_mem hd)
      exact hmin ⟨d, hd⟩ (lt_of_le_of_ne hvd hne) hdm
  · intro hcond e
    refine and_congr_right fun he => ⟨?_, fun hne => ?_⟩
    · rintro (hbelow | ⟨d, hd, hvd, hlt⟩)
      · exact hbelow.ne
      · exact (hvd.trans_lt hlt).ne'
    · refine (lt_or_gt_of_ne hne).imp_right fun hgt => ?_
      rcases hcond with hv | hnone
      · obtain ⟨d, hd, rfl⟩ := List.mem_map.mp hv
        exact ⟨d, hd, le_rfl, hgt⟩
      · exact absurd hgt (hnone e he)

omit [LinearOrder W] in
theorem delPossibleEdges_eq {vs : List κ} {children : List (κ × W)} (hvs : OrdSet vs) (h : Assoc.Sorted children) :
    delPossibleEdges vs children = children.filter fun e => e.1 ∉ vs := by
  induction vs, children using delPossibleEdges.induct with
  | case1 children => simp [delPossibleEdges]
  | case2 v vs => simp [delPossibleEdges]
  | case3 k toDel w1 children ih =>
    obtain ⟨hlt, h'⟩ := List.pairwise_cons.mp h
    rw [delPossibleEdges, if_pos rfl, ih hvs.tail h', List.filter_cons_of_neg (by simp)]
    refine List.filter_congr fun e he => ?_
    simp [(hlt e he).ne']
  | case4 k toDel k1 w1 children hne hlt ih =>
    have hnot : k1 ∉ k :: toDel := fun hmem => lt_irrefl _ (hvs.lt_of_lt_head hlt k1 hmem)
    rw [delPossibleEdges, if_neg hne, if_pos hlt, ih hvs (List.pairwise_cons.mp h).2,
      List.filter_cons_of_pos (by simpa using hnot)]
  | case5 k toDel k1 w1 children hne hlt ih =>
    have hgt : k < k1 := lt_of_le_of_ne (not_lt.mp hlt) hne
    have hbelow : ∀ e ∈ (k1, w1) :: children, k < e.1 :=
      List.forall_mem_cons.mpr ⟨hgt, fun e he => hgt.trans ((List.pairwise_cons.mp h).1 e he)⟩
    rw [delPossibleEdges, if_neg hne, if_neg hlt, ih hvs.tail h]
    refine List.filter_congr fun e he => ?_
    simp [(hbelow e he).ne']

end Wdgraphs

end Yap
