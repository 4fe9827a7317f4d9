-- SUMMARY: Minimum and maximum spanning trees of library(wundgraphs): the sorted edges that link two components, and that no forest costs less or more.
import Yap.Base.Greedy
import Yap.Base.Variables
import Yap.Library.Wdgraphs.Additions

/-!
# Spanning trees

The edges are taken in the order of their weights. The component of a vertex is
a variable; an edge between two components unifies their variables. The tree of
components therefore only grows by new vertices.
-/

namespace Yap

namespace Wdgraphs

open Ordsets Rbtrees

variable {κ W : Type*} [LinearOrder κ] [LinearOrder W]

-- ---------------------------------------------------------------------------
-- Code
-- ---------------------------------------------------------------------------

/-- Terms `W-(V0-V)`. -/
abbrev TreeEdge (κ W : Type*) := W × κ × κ

/-- The edges to greater vertices, in front of `edges0`. -/
def addNeighbs : List (κ × W) → κ → List (TreeEdge κ W) → List (TreeEdge κ W)
  | [], _, edges0 => edges0
  | (v, w) :: els, v0, edges0 =>
    if v0 < v then (w, v0, v) :: addNeighbs els v0 edges0 else addNeighbs els v0 edges0

def mkListOfEdges : List (κ × List (κ × W)) → List (TreeEdge κ W)
  | [] => []
  | (v, els) :: els0 => addNeighbs els v (mkListOfEdges els0)

/-- The stable sort by the keys. -/
def keysort (edges : List (TreeEdge κ W)) : List (TreeEdge κ W) := edges.insertionSort fun a b => a.1 ≤ b.1

/-- The components of the vertices, the aliases of their variables, and the next new variable. -/
structure Components (κ : Type*) where
  tree : Tree κ ℕ
  deref : Aliases ℕ
  next : ℕ

/-- `Component = Component1` for two variables. -/
def Components.unify (s : Components κ) (component component1 : ℕ) : Components κ :=
  { s with deref := s.deref.unify component component1 }

def Components.insert (s : Components κ) (v : κ) (component : ℕ) : Components κ :=
  { s with tree := rbInsert s.tree v component }

/-- A vertex with a new variable. -/
def Components.insertNew (s : Components κ) (v : κ) : Components κ :=
  { s with tree := rbInsert s.tree v s.next, next := s.next + 1 }

/-- The condition of the first clause of `add_sorted_edges/5`. -/
def linkComponents (v0 v : κ) (s : Components κ) : Option (Components κ) :=
  match rbLookup v0 s.tree with
  | some component =>
    match rbLookup v s.tree with
    | some component1 =>
      if s.deref component ≠ s.deref component1 then some (s.unify component component1) else none
    | none => some (s.insert v component)
  | none =>
    match rbLookup v s.tree with
    | some component1 => some (s.insert v0 component1)
    | none => some ((s.insertNew v0).insert v s.next)

def addSortedEdges [Add W] : List (TreeEdge κ W) → Components κ → W → List (WEdge κ W) × W
  | [], _, c => ([], c)
  | (w, v0, v) :: sortedEdges, t0, c0 =>
    match linkComponents v0 v t0 with
    | some ti =>
      ((v0, v, w) :: (v, v0, w) :: (addSortedEdges sortedEdges ti (c0 + w)).1,
        (addSortedEdges sortedEdges ti (c0 + w)).2)
    | none => addSortedEdges sortedEdges t0 c0

def dupEdges : List (WEdge κ W) → List (WEdge κ W)
  | [] => []
  | (e1, e2, k) :: edges => (e1, e2, k) :: (e2, e1, k) :: dupEdges edges

def wundgraphAddEdges (g0 : WGraph κ W) (edges : List (WEdge κ W)) : Option (WGraph κ W) :=
  wdgraphAddEdges g0 (dupEdges edges)

/-- `generate_min_tree/3` and `generate_max_tree/3`, which differ in the order of the edges. -/
def generateTree [AddCommMonoid W] (order : List (TreeEdge κ W) → List (TreeEdge κ W)) :
    List (κ × List (κ × W)) → Option (WGraph κ W × W)
  | [] => some (.nil, 0)
  | [(el, _)] => some (wdgraphAddVertex .nil el, 0)
  | els0 =>
    let added := addSortedEdges (order (mkListOfEdges els0)) ⟨.nil, id, 0⟩ 0
    (wundgraphAddEdges .nil added.1).map fun t => (t, added.2)

def wundgraphMinTree [AddCommMonoid W] (g : WGraph κ W) : Option (WGraph κ W × W) := generateTree keysort (rbVisit g)

def wundgraphMaxTree [AddCommMonoid W] (g : WGraph κ W) : Option (WGraph κ W × W) :=
  generateTree (fun edges => (keysort edges).reverse) (rbVisit g)

-- ---------------------------------------------------------------------------
-- The list of edges
-- ---------------------------------------------------------------------------

section Lists

omit [LinearOrder W]

theorem mem_addNeighbs {els : List (κ × W)} {v0 : κ} {edges0 : List (TreeEdge κ W)} {e : TreeEdge κ W} :
    e ∈ addNeighbs els v0 edges0 ↔ e.2.1 = v0 ∧ v0 < e.2.2 ∧ (e.2.2, e.1) ∈ els ∨ e ∈ edges0 := by
  induction els with
  | nil => simp [addNeighbs]
  | cons x els ih =>
    obtain ⟨v, w⟩ := x
    obtain ⟨we, ue, ve⟩ := e
    rw [addNeighbs]
    split_ifs with hlt
    · simp only [List.mem_cons, ih, Prod.mk.injEq]
      constructor
      · rintro (⟨rfl, rfl, rfl⟩ | ⟨hu, hv, hmem⟩ | hmem)
        · exact .inl ⟨rfl, hlt, .inl ⟨rfl, rfl⟩⟩
        · exact .inl ⟨hu, hv, .inr hmem⟩
        · exact .inr hmem
      · rintro (⟨hu, hv, ⟨rfl, rfl⟩ | hmem⟩ | hmem)
        · exact .inl ⟨rfl, hu, rfl⟩
        · exact .inr (.inl ⟨hu, hv, hmem⟩)
        · exact .inr (.inr hmem)
    · simp only [List.mem_cons, ih, Prod.mk.injEq]
      refine or_congr_left (and_congr_right fun _ => and_congr_right fun hv => ?_)
      exact (or_iff_right (by rintro ⟨rfl, -⟩; exact hlt hv)).symm

theorem mem_mkListOfEdges {els0 : List (κ × List (κ × W))} {e : TreeEdge κ W} :
    e ∈ mkListOfEdges els0 ↔ e.2.1 < e.2.2 ∧ ∃ row, (e.2.1, row) ∈ els0 ∧ (e.2.2, e.1) ∈ row := by
  induction els0 with
  | nil => simp [mkListOfEdges]
  | cons x els0 ih =>
    obtain ⟨v, els⟩ := x
    simp only [mkListOfEdges, mem_addNeighbs, ih, List.mem_cons, Prod.mk.injEq]
    constructor
    · rintro (⟨rfl, hlt, hmem⟩ | ⟨hlt, row, hrow, hmem⟩)
      · exact ⟨hlt, els, .inl ⟨rfl, rfl⟩, hmem⟩
      · exact ⟨hlt, row, .inr hrow, hmem⟩
    · rintro ⟨hlt, row, ⟨hv, rfl⟩ | hrow, hmem⟩
      · exact .inl ⟨hv, hv ▸ hlt, hmem⟩
      · exact .inr ⟨hlt, row, hrow, hmem⟩

theorem mem_dupEdges {es : List (WEdge κ W)} {u v : κ} {w : W} :
    (u, v, w) ∈ dupEdges es ↔ (u, v, w) ∈ es ∨ (v, u, w) ∈ es := by
  induction es with
  | nil => simp [dupEdges]
  | cons e es ih =>
    obtain ⟨a, b, x⟩ := e
    simp only [dupEdges, List.mem_cons, Prod.mk.injEq, ih]
    tauto

end Lists

omit [LinearOrder κ] in
theorem perm_keysort (edges : List (TreeEdge κ W)) : (keysort edges).Perm edges := List.perm_insertionSort _ edges

omit [LinearOrder κ] in
theorem pairwise_keysort (edges : List (TreeEdge κ W)) : (keysort edges).Pairwise fun a b => a.1 ≤ b.1 :=
  List.pairwise_insertionSort _ edges

-- ---------------------------------------------------------------------------
-- Components
-- ---------------------------------------------------------------------------

/-- The ends of an edge. -/
def ends (e : TreeEdge κ W) : κ × κ := e.2

/-- The vertices of the tree are those the edges `A` have joined, and two have one variable when `A` links them. -/
structure Tracks (s : Components κ) (A : List (TreeEdge κ W)) : Prop where
  valid : Valid s.tree
  bound : ∀ u c, rbLookup u s.tree = some c → c < s.next
  deref_lt : ∀ x < s.next, s.deref x < s.next
  deref_new : ∀ x, s.next ≤ x → s.deref x = x
  linked : ∀ u v c c1, rbLookup u s.tree = some c → rbLookup v s.tree = some c1 →
    (s.deref c = s.deref c1 ↔ Linked ends A u v)
  alone : ∀ u v, rbLookup u s.tree = none → Linked ends A u v → u = v

section Components

omit [LinearOrder W]

variable {s : Components κ} {A : List (TreeEdge κ W)} {u v : κ} {w : W} {c c1 : ℕ}

theorem tracks_start : Tracks (⟨.nil, id, 0⟩ : Components κ) ([] : List (TreeEdge κ W)) where
  valid := valid_nil
  bound _ _ h := by cases h
  deref_lt _ h := h
  deref_new _ _ := rfl
  linked _ _ _ _ h := by cases h
  alone _ _ _ h := linked_nil.mp h

theorem Tracks.insertNew (h : Tracks s A) (hu : rbLookup u s.tree = none) : Tracks (s.insertNew u) A := by
  have hlookup : ∀ a, rbLookup a (s.insertNew u).tree = if a = u then some s.next else rbLookup a s.tree :=
    rbLookup_rbInsert h.valid u s.next
  have hnew : s.deref s.next = s.next := h.deref_new s.next le_rfl
  refine ⟨h.valid.rbInsert u s.next, fun a c ha => ?_, fun x hx => ?_, fun x hx => ?_, fun a b c c1 ha hb => ?_,
    fun a b ha hab => ?_⟩
  · rw [hlookup] at ha
    split_ifs at ha
    · exact Option.some.inj ha ▸ Nat.lt_succ_self s.next
    · exact (h.bound a c ha).trans (Nat.lt_succ_self s.next)
  · cases Nat.lt_succ_iff_lt_or_eq.mp hx with
    | inl hlt => exact (h.deref_lt x hlt).trans (Nat.lt_succ_self s.next)
    | inr heq => exact heq ▸ hnew.symm ▸ Nat.lt_succ_self s.next
  · exact h.deref_new x ((Nat.le_succ s.next).trans hx)
  · rw [hlookup] at ha hb
    have hother : ∀ {b c1}, rbLookup b s.tree = some c1 → s.next ≠ s.deref c1 ∧ ¬ Linked ends A u b := by
      intro b c1 hb
      refine ⟨(h.deref_lt c1 (h.bound b c1 hb)).ne', fun hub => ?_⟩
      rw [← h.alone u b hu hub, hu] at hb
      cases hb
    split_ifs at ha hb with hau hbu hbu
    · cases ha
      cases hb
      exact iff_of_true rfl (by rw [hau, hbu]; exact .refl A u)
    · cases ha
      change s.deref s.next = s.deref c1 ↔ _
      rw [hnew, hau]
      exact iff_of_false (hother hb).1 (hother hb).2
    · cases hb
      change s.deref c = s.deref s.next ↔ _
      rw [hnew, hbu]
      exact iff_of_false (hother ha).1.symm fun hab => (hother ha).2 hab.symm
    · exact h.linked a b c c1 ha hb
  · rw [hlookup] at ha
    split_ifs at ha
    exact h.alone a b ha hab

/-- A new vertex with the component of the other end of an edge. -/
theorem Tracks.insert (h : Tracks s A) (hu : rbLookup u s.tree = some c) (hv : rbLookup v s.tree = none)
    {e : TreeEdge κ W} (he : ends e = (u, v) ∨ ends e = (v, u)) : Tracks (s.insert v c) (e :: A) := by
  have hlookup : ∀ a, rbLookup a (s.insert v c).tree = if a = v then some c else rbLookup a s.tree :=
    rbLookup_rbInsert h.valid v c
  have hcons : ∀ a b, Linked ends (e :: A) a b ↔ Linked ends A a b ∨ Linked ends A a u ∧ v = b ∨
      a = v ∧ Linked ends A u b := by
    intro a b
    have hvb : ∀ b, Linked ends A v b ↔ v = b := fun b => ⟨h.alone v b hv, fun hb => hb ▸ .refl A v⟩
    have hav : ∀ a, Linked ends A a v ↔ a = v := fun a =>
      ⟨fun ha => (h.alone v a hv ha.symm).symm, fun ha => ha ▸ .refl A a⟩
    rw [linked_cons]
    cases he with
    | inl he => simp only [he, hvb, hav]
    | inr he => simp only [he, hvb, hav, or_comm (a := a = v ∧ _)]
  refine ⟨h.valid.rbInsert v c, fun a c' ha => ?_, h.deref_lt, h.deref_new, fun a b c' c1 ha hb => ?_,
    fun a b ha hab => ?_⟩
  · rw [hlookup] at ha
    split_ifs at ha
    · exact Option.some.inj ha ▸ h.bound u c hu
    · exact h.bound a c' ha
  · rw [hlookup] at ha hb
    change s.deref c' = s.deref c1 ↔ _
    rw [hcons]
    have hne : ∀ {b c1}, rbLookup b s.tree = some c1 → v ≠ b := by
      rintro b c1 hb rfl
      rw [hv] at hb
      cases hb
    split_ifs at ha hb with hav hbv hbv
    · cases ha
      cases hb
      exact iff_of_true rfl (.inl (by rw [hav, hbv]; exact .refl A v))
    · cases ha
      rw [hav]
      have hnot : ¬ Linked ends A v b := fun hvb => hne hb (h.alone v b hv hvb)
      simpa [hnot, hne hb] using h.linked u b c c1 hu hb
    · cases hb
      rw [hbv]
      have hnot : ¬ Linked ends A a v := fun hav => hne ha (h.alone v a hv hav.symm)
      simpa [hnot, (hne ha).symm] using h.linked a u c' c ha hu
    · simpa only [hav, ne_comm.mp hbv, and_false, false_and, or_false] using h.linked a b c' c1 ha hb
  · rw [hlookup] at ha
    split_ifs at ha with hav
    rcases (hcons a b).mp hab with hab | ⟨hau, -⟩ | ⟨hav', -⟩
    · exact h.alone a b ha hab
    · rw [h.alone a u ha hau, hu] at ha
      cases ha
    · exact absurd hav' hav

theorem Tracks.unify (h : Tracks s A) (hu : rbLookup u s.tree = some c) (hv : rbLookup v s.tree = some c1)
    (hne : s.deref c ≠ s.deref c1) : Tracks (s.unify c c1) ((w, u, v) :: A) := by
  refine ⟨h.valid, h.bound, fun x hx => ?_, fun x hx => ?_, fun a b ca cb ha hb => ?_, fun a b ha hab => ?_⟩
  · simp only [Components.unify, Aliases.unify]
    split_ifs
    · exact h.deref_lt c1 (h.bound v c1 hv)
    · exact h.deref_lt x hx
  · have hlt : s.deref c < s.next := h.deref_lt c (h.bound u c hu)
    simp only [Components.unify, Aliases.unify] at hx ⊢
    rw [h.deref_new x hx, if_neg (hlt.trans_le hx).ne']
  · have ha' : rbLookup a s.tree = some ca := ha
    have hb' : rbLookup b s.tree = some cb := hb
    rw [linked_cons, ← h.linked a b ca cb ha' hb']
    change (if s.deref ca = s.deref c then s.deref c1 else s.deref ca) =
      (if s.deref cb = s.deref c then s.deref c1 else s.deref cb) ↔ _ ∨ Linked ends A a u ∧ Linked ends A v b ∨
        Linked ends A a v ∧ Linked ends A u b
    rw [← h.linked a u ca c ha' hu, ← h.linked v b c1 cb hv hb', ← h.linked a v ca c1 ha' hv,
      ← h.linked u b c cb hu hb']
    generalize s.deref ca = x, s.deref cb = y, s.deref c = i, s.deref c1 = j at hne ⊢
    split_ifs <;> grind
  · have ha' : rbLookup a s.tree = none := ha
    rcases linked_cons.mp hab with hab | ⟨hau, -⟩ | ⟨hav, -⟩
    · exact h.alone a b ha' hab
    · rw [h.alone a u ha' hau] at ha'
      cases hu.symm.trans ha'
    · rw [h.alone a v ha' hav] at ha'
      cases hv.symm.trans ha'

/-- An edge is refused when its ends are linked, else its ends are linked from then on. -/
theorem Tracks.step (h : Tracks s A) (hne : u ≠ v) (w : W) :
    linkComponents u v s = none ∧ Linked ends A u v ∨
      ∃ s', linkComponents u v s = some s' ∧ ¬ Linked ends A u v ∧ Tracks s' ((w, u, v) :: A) := by
  unfold linkComponents
  cases hu : rbLookup u s.tree with
  | some c =>
    cases hv : rbLookup v s.tree with
    | some c1 =>
      dsimp only
      by_cases heq : s.deref c = s.deref c1
      · exact .inl ⟨if_neg (not_not_intro heq), (h.linked u v c c1 hu hv).mp heq⟩
      · exact .inr ⟨_, if_pos heq, fun huv => heq ((h.linked u v c c1 hu hv).mpr huv), h.unify hu hv heq⟩
    | none => exact .inr ⟨_, rfl, fun huv => hne (h.alone v u hv huv.symm).symm, h.insert hu hv (.inl rfl)⟩
  | none =>
    have hnot : ¬ Linked ends A u v := fun huv => hne (h.alone u v hu huv)
    cases hv : rbLookup v s.tree with
    | some c1 => exact .inr ⟨_, rfl, hnot, h.insert hv hu (.inr rfl)⟩
    | none =>
      refine .inr ⟨_, rfl, hnot, (h.insertNew hu).insert ?_ ?_ (.inl rfl)⟩
      · exact (rbLookup_rbInsert h.valid u s.next u).trans (if_pos rfl)
      · exact (rbLookup_rbInsert h.valid u s.next v).trans ((if_neg hne.symm).trans hv)

end Components

-- ---------------------------------------------------------------------------
-- Spanning forests
-- ---------------------------------------------------------------------------

variable {g t : WGraph κ W} {S : List (TreeEdge κ W)}

def Undirected (g : WGraph κ W) : Prop := ∀ u v w, Edge g u v w → Edge g v u w

/-- Edges of the graph without a cycle that link all that it links. -/
structure SpanningForest (g : WGraph κ W) (S : List (TreeEdge κ W)) : Prop where
  edges : ∀ e ∈ S, e.2.1 < e.2.2 ∧ Edge g e.2.1 e.2.2 e.1
  forest : Forest ends S
  spans : ∀ u v w, Edge g u v w → Linked ends S u v

/-- A vertex with an edge to another one, or the only vertex. -/
def Joined (g : WGraph κ W) (v : κ) : Prop :=
  Vertex g v ∧ ((∃ u w, u ≠ v ∧ Edge g v u w) ∨ ∀ u, Vertex g u → u = v)

/-- The graph of the edges, in both directions. -/
def TreeOf (g : WGraph κ W) (S : List (TreeEdge κ W)) (t : WGraph κ W) : Prop :=
  Represents t (Joined g) fun u v w => (w, u, v) ∈ S ∨ (w, v, u) ∈ S

def cost [AddCommMonoid W] (S : List (TreeEdge κ W)) : W := (S.map Prod.fst).sum

def treeEdges (S : List (TreeEdge κ W)) : List (WEdge κ W) :=
  S.flatMap fun e => [(e.2.1, e.2.2, e.1), (e.2.2, e.2.1, e.1)]

omit [LinearOrder κ] [LinearOrder W] in
theorem mem_treeEdges {u v : κ} {w : W} : (u, v, w) ∈ treeEdges S ↔ (w, u, v) ∈ S ∨ (w, v, u) ∈ S := by
  simp only [treeEdges, List.mem_flatMap, List.mem_cons, List.not_mem_nil, or_false, Prod.mk.injEq]
  constructor
  · rintro ⟨⟨a, b, c⟩, he, ⟨rfl, rfl, rfl⟩ | ⟨rfl, rfl, rfl⟩⟩
    · exact .inl he
    · exact .inr he
  · rintro (he | he)
    · exact ⟨_, he, .inl ⟨rfl, rfl, rfl⟩⟩
    · exact ⟨_, he, .inr ⟨rfl, rfl, rfl⟩⟩

omit [LinearOrder W] in
theorem addSortedEdges_spec [AddCommMonoid W] {s : Components κ} {A es : List (TreeEdge κ W)} (h : Tracks s A)
    (hes : ∀ e ∈ es, e.2.1 < e.2.2) (c0 : W) :
    ∃ S, (graphic ends).Choice A es S ∧ addSortedEdges es s c0 = (treeEdges S, c0 + cost S) := by
  induction es generalizing s A c0 with
  | nil => exact ⟨[], .nil A, by simp [addSortedEdges, treeEdges, cost]⟩
  | cons e es ih =>
    obtain ⟨w, u, v⟩ := e
    obtain ⟨hlt, hes'⟩ := List.forall_mem_cons.mp hes
    rcases h.step hlt.ne w with ⟨hnone, hlinked⟩ | ⟨s', hsome, hnot, h'⟩
    · obtain ⟨S, hchoice, heq⟩ := ih h hes' c0
      refine ⟨S, .skip hlinked hchoice, ?_⟩
      rw [addSortedEdges, hnone]
      exact heq
    · obtain ⟨S, hchoice, heq⟩ := ih h' hes' (c0 + w)
      refine ⟨(w, u, v) :: S, .take hnot hchoice, ?_⟩
      rw [addSortedEdges, hsome]
      dsimp only
      rw [heq]
      simp [treeEdges, cost, add_assoc]

omit [LinearOrder κ] [LinearOrder W] in
theorem Undirected.target (hu : Undirected g) {u v : κ} {w : W} (he : Edge g u v w) : Vertex g v := by
  obtain ⟨row, hrow, -⟩ := hu u v w he
  exact List.mem_map_of_mem (f := Prod.fst) hrow

omit [LinearOrder W] in
/-- The edges are listed from the smaller end. -/
theorem mem_edges {e : TreeEdge κ W} : e ∈ mkListOfEdges (rbVisit g) ↔ e.2.1 < e.2.2 ∧ Edge g e.2.1 e.2.2 e.1 := by
  rw [mem_mkListOfEdges, rbVisit_eq]
  rfl

omit [LinearOrder W] in
/-- What is chosen from the edges in any order spans the graph. -/
theorem spanningForest_of_choice (hu : Undirected g) {es : List (TreeEdge κ W)}
    (hperm : es.Perm (mkListOfEdges (rbVisit g))) (hS : (graphic ends).Choice [] es S) : SpanningForest g S := by
  have hedges : ∀ u v w, u < v → Edge g u v w → Linked ends S u v := fun u v w hlt he => by
    simpa [graphic, ends] using hS.spans (w, u, v) (hperm.mem_iff.mpr (mem_edges.mpr ⟨hlt, he⟩))
  refine ⟨fun e he => mem_edges.mp (hperm.mem_iff.mp (hS.sublist.subset he)), hS.indep, fun u v w he => ?_⟩
  rcases lt_trichotomy u v with hlt | rfl | hgt
  · exact hedges u v w hlt he
  · exact .refl S u
  · exact (hedges v u w hgt (hu u v w he)).symm

omit [LinearOrder W] in
/-- The ends of a spanning forest are the vertices with an edge to another one. -/
theorem SpanningForest.end_iff (h : SpanningForest g S) (hu : Undirected g) (v : κ) :
    (∃ x w, (w, v, x) ∈ S ∨ (w, x, v) ∈ S) ↔ ∃ u w, u ≠ v ∧ Edge g v u w := by
  constructor
  · rintro ⟨x, w, hmem | hmem⟩
    · obtain ⟨hlt, he⟩ := h.edges _ hmem
      exact ⟨x, w, hlt.ne', he⟩
    · obtain ⟨hlt, he⟩ := h.edges _ hmem
      exact ⟨x, w, hlt.ne, hu _ _ _ he⟩
  · rintro ⟨u, w, hne, he⟩
    by_contra hnot
    have hends : ∀ e ∈ S, (ends e).1 ≠ v ∧ (ends e).2 ≠ v := by
      rintro ⟨w, a, b⟩ hmem
      refine ⟨fun ha => hnot ⟨b, w, .inl ?_⟩, fun hb => hnot ⟨a, w, .inr ?_⟩⟩
      · exact ha ▸ hmem
      · exact hb ▸ hmem
    exact hne (((h.spans v u w he).alone hends).mp rfl)

omit [LinearOrder W] in
theorem represents_nil : Represents (.nil : WGraph κ W) (fun _ => False) fun _ _ _ => False where
  valid := valid_nil
  rows _ hp := by cases hp
  vertices v := by simp [Vertex]
  edges u v w := by simp [Edge]

omit [LinearOrder W] in
/-- With two rows, an only vertex is none. -/
theorem joined_iff (hg : Graph g) {p q : κ × List (κ × W)} {els : List (κ × List (κ × W))}
    (hrows : rbVisit g = p :: q :: els) (v : κ) : Joined g v ↔ ∃ u w, u ≠ v ∧ Edge g v u w := by
  rw [rbVisit_eq] at hrows
  have hlt : p.1 < q.1 := by
    have hsorted := hg.valid.sorted
    rw [hrows] at hsorted
    exact (List.pairwise_cons.mp hsorted).1 q List.mem_cons_self
  have hvertex : ∀ r ∈ p :: q :: els, Vertex g r.1 := fun r hr => List.mem_map_of_mem (hrows ▸ hr)
  constructor
  · rintro ⟨-, hjoined | honly⟩
    · exact hjoined
    · have hp := honly p.1 (hvertex p (by simp))
      have hq := honly q.1 (hvertex q (by simp))
      exact absurd (hp.trans hq.symm) hlt.ne
  · rintro ⟨u, w, hne, he⟩
    exact ⟨he.elim fun row hrow => List.mem_map_of_mem (f := Prod.fst) hrow.1, .inl ⟨u, w, hne, he⟩⟩

variable [AddCommMonoid W]

omit [AddCommMonoid W] [LinearOrder W] in
/-- The given edges, which an edge of a forest gives in both directions, twice. -/
theorem mem_given {u v : κ} {w : W} : (u, v, w) ∈ dupEdges (treeEdges S) ↔ (w, u, v) ∈ S ∨ (w, v, u) ∈ S := by
  rw [mem_dupEdges, mem_treeEdges, mem_treeEdges]
  tauto

omit [AddCommMonoid W] in
theorem SpanningForest.wundgraphAddEdges (h : SpanningForest g S) (hg : Graph g) (hu : Undirected g)
    {p q : κ × List (κ × W)} {els : List (κ × List (κ × W))} (hrows : rbVisit g = p :: q :: els) :
    ∃ t, wundgraphAddEdges .nil (treeEdges S) = some t ∧ TreeOf g S t := by
  have hedge : ∀ u v w, (u, v, w) ∈ dupEdges (treeEdges S) → Edge g u v w := fun u v w he =>
    (mem_given.mp he).elim (fun he => (h.edges _ he).2) fun he => hu _ _ _ (h.edges _ he).2
  have hone : OneWeight (dupEdges (treeEdges S)) := fun u v w w' hw hw' =>
    hg.functional (hedge u v w hw) (hedge u v w' hw')
  have hnil : Graph (.nil : WGraph κ W) := represents_nil.congr (fun v => by simp [Vertex]) fun u v w => by simp [Edge]
  obtain ⟨t, ht, hsets⟩ := (wdgraphAddEdges_iff hnil _).mpr hone
  refine ⟨t, ht, hsets.congr (fun v => ?_) fun u v w => ?_⟩
  · rw [joined_iff hg hrows, ← h.end_iff hu]
    constructor
    · rintro (hv | ⟨⟨a, b, w⟩, he, rfl | rfl⟩)
      · cases hv
      · exact ⟨b, w, mem_given.mp he⟩
      · exact ⟨a, w, (mem_given.mp he).symm⟩
    · rintro ⟨x, w, he⟩
      exact .inr ⟨(v, x, w), mem_given.mpr he, .inl rfl⟩
  · rw [mem_given, or_iff_left]
    rintro ⟨-, he⟩
    simp [Edge] at he

omit [AddCommMonoid W] [LinearOrder W] in
theorem mkListOfEdges_single (hu : Undirected g) {el : κ} {row : List (κ × W)} (hrows : rbVisit g = [(el, row)]) :
    mkListOfEdges (rbVisit g) = [] := by
  have hvertex : ∀ v, Vertex g v → v = el := fun v hv => by simpa [Vertex, ← rbVisit_eq, hrows] using hv
  refine List.eq_nil_iff_forall_not_mem.mpr fun e he => ?_
  obtain ⟨hlt, hedge⟩ := mem_edges.mp he
  have hsource : e.2.1 = el := hvertex _ (hu.target (hu _ _ _ hedge))
  have htarget : e.2.2 = el := hvertex _ (hu.target hedge)
  exact absurd (hsource.trans htarget.symm) hlt.ne

omit [AddCommMonoid W] [LinearOrder W] in
theorem treeOf_single {el : κ} {row : List (κ × W)} (hrows : rbVisit g = [(el, row)]) :
    TreeOf g [] (wdgraphAddVertex .nil el) := by
  refine (represents_nil.addVertex el).congr (fun v => ?_) fun u v w => by simp
  rw [false_or]
  have hvertex : ∀ v, Vertex g v ↔ v = el := fun v => by simp [Vertex, ← rbVisit_eq, hrows]
  constructor
  · rintro rfl
    exact ⟨(hvertex v).mpr rfl, .inr fun u => (hvertex u).mp⟩
  · exact fun hv => (hvertex v).mp hv.1

/-- The tree is that of the edges chosen in the given order. -/
theorem generateTree_spec (hg : Graph g) (hu : Undirected g) {order : List (TreeEdge κ W) → List (TreeEdge κ W)}
    (hperm : ∀ es, (order es).Perm es) :
    ∃ S t, generateTree order (rbVisit g) = some (t, cost S) ∧ TreeOf g S t ∧
      (graphic ends).Choice [] (order (mkListOfEdges (rbVisit g))) S := by
  have hnone : mkListOfEdges (rbVisit g) = [] → (graphic ends).Choice [] (order (mkListOfEdges (rbVisit g))) [] :=
    fun hnil => by
      rw [hnil, (hperm []).eq_nil]
      exact .nil []
  rcases hrows : rbVisit g with _ | ⟨⟨el, row⟩, _ | ⟨q, els⟩⟩
  · refine ⟨[], .nil, rfl, represents_nil.congr (fun v => ?_) fun u v w => by simp, hrows ▸ hnone (hrows ▸ rfl)⟩
    simp [Joined, Vertex, ← rbVisit_eq, hrows]
  · exact ⟨[], _, rfl, treeOf_single hrows, hrows ▸ hnone (mkListOfEdges_single hu hrows)⟩
  · have hlt : ∀ e ∈ order (mkListOfEdges (rbVisit g)), e.2.1 < e.2.2 := fun e he =>
      (mem_edges.mp ((hperm _).mem_iff.mp he)).1
    obtain ⟨S, hchoice, heq⟩ := addSortedEdges_spec tracks_start hlt 0
    obtain ⟨t, ht, htree⟩ := (spanningForest_of_choice hu (hperm _) hchoice).wundgraphAddEdges hg hu hrows
    refine ⟨S, t, ?_, htree, hrows ▸ hchoice⟩
    rw [hrows] at heq
    simp only [generateTree, heq, ht, Option.map_some, zero_add]

omit [LinearOrder W] [AddCommMonoid W] in
/-- The forest as a choice from the edges of the graph. -/
theorem SpanningForest.candidate (h : SpanningForest g S) {es : List (TreeEdge κ W)}
    (hperm : es.Perm (mkListOfEdges (rbVisit g))) :
    S.Subperm es ∧ (graphic ends).Indep [] S ∧ ∀ e ∈ es, (graphic ends).Spans (S ++ []) e := by
  refine ⟨h.forest.nodup.subperm fun e he => ?_, h.forest, fun e he => ?_⟩
  · exact hperm.mem_iff.mpr (mem_edges.mpr (h.edges e he))
  · rw [List.append_nil]
    exact h.spans _ _ _ (mem_edges.mp (hperm.mem_iff.mp he)).2

variable [IsOrderedAddMonoid W]

/-- A triangle with a loop, and a vertex without edges. -/
def triangle : WGraph ℕ ℤ :=
  .black (.black .nil 1 [(1, 9), (2, 4), (3, 2)] .nil) 2 [(1, 4), (3, 1)]
    (.black .nil 3 [(1, 2), (2, 1)] (.red .nil 5 [] .nil))

theorem graph_triangle : Graph triangle where
  valid := ⟨by decide, 2, .black (.black .nil .nil) (.black .nil (.red .nil .nil))⟩
  rows := by decide
  vertices _ := Iff.rfl
  edges _ _ _ := Iff.rfl

theorem undirected_triangle : Undirected triangle := by
  rintro u v w ⟨row, hrow, hw⟩
  have hback : ∀ p ∈ triangle.toList, ∀ e ∈ p.2, ∃ q ∈ triangle.toList, q.1 = e.1 ∧ (p.1, e.2) ∈ q.2 := by decide
  obtain ⟨⟨v', row'⟩, hmem, rfl, he⟩ := hback _ hrow _ hw
  exact ⟨row', hmem, he⟩

example : (wundgraphMinTree triangle).map (fun p => (p.1.toList, p.2)) =
    some ([(1, [(3, 2)]), (2, [(3, 1)]), (3, [(1, 2), (2, 1)])], 3) := by decide +kernel

end Wdgraphs

end Yap
