-- SUMMARY: Best-first search in weighted graphs: its frontier, optimal distances for costs that grow along paths, and lightest edges first where they shrink.
import Mathlib

/-!
# Best-first search

A search keeps the settled vertices with their distances and a frontier: the
edges out of settled vertices, each with the distance of its end through it. It
takes a least element of the frontier and settles the end of the edge, unless it
is settled already.

When no weight is negative, distances are those of cheapest paths. When no
weight is positive the search instead follows from each vertex a lightest edge
among those that lead on to the target.
-/

namespace BestFirst

open Relation

variable {κ W : Type*}

/-- A path from a vertex: its vertices and its cost. -/
inductive Path [Zero W] [Add W] (edge : κ → κ → W → Prop) (u : κ) : κ → List κ → W → Prop
  | nil : Path edge u u [u] 0
  | snoc {v z p c w} : Path edge u v p c → edge v z w → Path edge u z (p ++ [z]) (w + c)

def Step (edge : κ → κ → W → Prop) (u v : κ) : Prop := ∃ w, edge u v w

def Reaches (edge : κ → κ → W → Prop) : κ → κ → Prop := ReflTransGen (Step edge)

def Acyclic (edge : κ → κ → W → Prop) : Prop := ∀ v, ¬ TransGen (Step edge) v v

-- ---------------------------------------------------------------------------
-- Paths
-- ---------------------------------------------------------------------------

section Paths

variable {edge edge' : κ → κ → W → Prop} {u v z : κ} {p q : List κ} {c d w : W}

section

variable [Zero W] [Add W]

theorem Path.mono (h : Path edge u v p c) (hle : ∀ x y a, edge x y a → edge' x y a) : Path edge' u v p c := by
  induction h with
  | nil => exact .nil
  | snoc _ he ih => exact .snoc ih (hle _ _ _ he)

theorem Path.reaches (h : Path edge u v p c) : Reaches edge u v := by
  induction h with
  | nil => exact .refl
  | snoc _ he ih => exact ih.tail ⟨_, he⟩

end

variable [AddCommMonoid W]

/-- A path after a path; their vertices are those of both, the common one once. -/
theorem Path.trans (h : Path edge u v p c) (h' : Path edge v z q d) :
    ∃ r, Path edge u z r (c + d) := by
  induction h' with
  | nil => exact ⟨p, (add_zero c).symm ▸ h⟩
  | @snoc y z q d w _ he ih =>
    obtain ⟨r, hr⟩ := ih
    refine ⟨r ++ [z], ?_⟩
    rw [add_left_comm]
    exact hr.snoc he

section

variable [PartialOrder W] [IsOrderedAddMonoid W]

theorem Path.nonneg (h : Path edge u v p c) (hnn : ∀ x y a, edge x y a → 0 ≤ a) : 0 ≤ c := by
  induction h with
  | nil => exact le_rfl
  | snoc _ he ih => exact add_nonneg (hnn _ _ _ he) ih

end

end Paths

/-- The path with negated weights. -/
theorem Path.neg [AddCommGroup W] {edge edge' : κ → κ → W → Prop} {u v : κ} {p : List κ} {c : W}
    (h : Path edge u v p c) (hneg : ∀ x y a, edge x y a → edge' x y (-a)) : Path edge' u v p (-c) := by
  induction h with
  | nil =>
    rw [neg_zero]
    exact .nil
  | snoc _ he ih =>
    rw [neg_add]
    exact ih.snoc (hneg _ _ _ he)

-- ---------------------------------------------------------------------------
-- The frontier
-- ---------------------------------------------------------------------------

/-- The frontier of a search that has not settled its target: `(d, u, v, w)` stands for the edge of weight
`w` from `u` to `v`, with the distance `d` of `v` through it. -/
structure Frontier [Zero W] [Add W] (edge : κ → κ → W → Prop) (root target : κ) (S : Set κ)
    (F : Multiset (W × κ × κ × W)) (δ : κ → W) : Prop where
  start : root ∈ S
  zero : δ root = 0
  unsettled : target ∉ S
  sound : ∀ d u v w, (d, u, v, w) ∈ F → u ∈ S ∧ edge u v w ∧ d = w + δ u
  complete : ∀ u ∈ S, ∀ v w, edge u v w → v ∈ S ∨ (w + δ u, u, v, w) ∈ F

section Frontier

variable {edge : κ → κ → W → Prop} {root target : κ} {S : Set κ} {F N : Multiset (W × κ × κ × W)} {δ : κ → W}
  {d w : W} {u v : κ}

section

variable [Zero W] [Add W]

/-- An edge to a settled vertex leaves the frontier. -/
theorem Frontier.skip (h : Frontier edge root target S ((d, u, v, w) ::ₘ F) δ) (hv : v ∈ S) :
    Frontier edge root target S F δ where
  start := h.start
  zero := h.zero
  unsettled := h.unsettled
  sound d' u' v' w' hmem := h.sound d' u' v' w' (Multiset.mem_cons_of_mem hmem)
  complete u' hu' v' w' he := by
    cases h.complete u' hu' v' w' he with
    | inl hv' => exact .inl hv'
    | inr hmem =>
      cases Multiset.mem_cons.mp hmem with
      | inl heq =>
        left
        simp only [Prod.mk.injEq] at heq
        exact heq.2.2.1 ▸ hv
      | inr hmem => exact .inr hmem

/-- The end of an edge is settled, and its edges enter the frontier. -/
theorem Frontier.settle [DecidableEq κ] (h : Frontier edge root target S ((d, u, v, w) ::ₘ F) δ)
    (hv : v ∉ S) (ht : v ≠ target)
    (hN : ∀ e, e ∈ N ↔ ∃ z a, edge v z a ∧ e = (a + d, v, z, a)) :
    Frontier edge root target (insert v S) (N + F) (Function.update δ v d) := by
  have hkeep : ∀ x ∈ S, Function.update δ v d x = δ x := fun x hx =>
    Function.update_of_ne (ne_of_mem_of_not_mem hx hv) d δ
  refine ⟨Set.mem_insert_of_mem v h.start, (hkeep root h.start).trans h.zero, ?_, ?_, ?_⟩
  · rw [Set.mem_insert_iff, not_or]
    exact ⟨ht.symm, h.unsettled⟩
  · intro d' u' v' w' hmem
    cases Multiset.mem_add.mp hmem with
    | inl hnew =>
      obtain ⟨z, a, he, heq⟩ := (hN _).mp hnew
      cases heq
      exact ⟨Set.mem_insert v S, he, by rw [Function.update_self]⟩
    | inr hold =>
      obtain ⟨hu', he, hd'⟩ := h.sound d' u' v' w' (Multiset.mem_cons_of_mem hold)
      exact ⟨Set.mem_insert_of_mem v hu', he, (hkeep u' hu').symm ▸ hd'⟩
  · intro u' hu' v' w' he
    cases Set.mem_insert_iff.mp hu' with
    | inl heq =>
      subst heq
      right
      rw [Function.update_self]
      exact Multiset.mem_add.mpr (.inl ((hN _).mpr ⟨v', w', he, rfl⟩))
    | inr hu' =>
      rw [hkeep u' hu']
      cases h.complete u' hu' v' w' he with
      | inl hv' => exact .inl (Set.mem_insert_of_mem v hv')
      | inr hmem =>
        cases Multiset.mem_cons.mp hmem with
        | inl heq =>
          simp only [Prod.mk.injEq] at heq
          exact .inl (heq.2.2.1 ▸ Set.mem_insert v S)
        | inr hmem => exact .inr (Multiset.mem_add.mpr (.inr hmem))

/-- A search whose frontier is empty cannot reach its target. -/
theorem Frontier.not_reaches (h : Frontier edge root target S 0 δ) : ¬ Reaches edge root target := by
  intro hreach
  have hclosed : ∀ x, Reaches edge root x → x ∈ S := by
    intro x hx
    induction hx with
    | refl => exact h.start
    | tail _ hstep ih =>
      obtain ⟨w, he⟩ := hstep
      exact (h.complete _ ih _ w he).resolve_right (Multiset.notMem_zero _)
  exact h.unsettled (hclosed target hreach)

end

-- ---------------------------------------------------------------------------
-- Costs that grow along paths
-- ---------------------------------------------------------------------------

/-- The distances of the settled vertices are least. -/
def Shortest [Zero W] [Add W] [LE W] (edge : κ → κ → W → Prop) (root : κ) (S : Set κ) (δ : κ → W) : Prop :=
  ∀ u ∈ S, ∀ p c, Path edge root u p c → δ u ≤ c

variable [AddCommMonoid W] [PartialOrder W] [IsOrderedAddMonoid W]

theorem shortest_start (hnn : ∀ x y a, edge x y a → 0 ≤ a) : Shortest edge root {root} fun _ => 0 :=
  fun _ _ _ _ hp => hp.nonneg hnn

/-- A path out of the settled vertices costs at least what some element of the frontier does. -/
theorem Frontier.bound (h : Frontier edge root target S F δ) (hδ : Shortest edge root S δ)
    (hnn : ∀ x y a, edge x y a → 0 ≤ a) {x : κ} {p : List κ} {c : W} (hp : Path edge root x p c) (hx : x ∉ S) :
    ∃ e ∈ F, e.1 ≤ c := by
  induction hp with
  | nil => exact absurd h.start hx
  | @snoc y z p c a hp he ih =>
    by_cases hy : y ∈ S
    · have hmem := (h.complete y hy z a he).resolve_left hx
      exact ⟨_, hmem, add_le_add_right (hδ y hy p c hp) a⟩
    · obtain ⟨e, hmem, hle⟩ := ih hy
      exact ⟨e, hmem, hle.trans (le_add_of_nonneg_left (hnn y z a he))⟩

/-- A least element of the frontier whose end is not settled has the least distance of this vertex. -/
theorem Frontier.least (h : Frontier edge root target S F δ) (hδ : Shortest edge root S δ)
    (hnn : ∀ x y a, edge x y a → 0 ≤ a) (hmin : ∀ e ∈ F, d ≤ e.1) (hv : v ∉ S) {p : List κ} {c : W}
    (hp : Path edge root v p c) : d ≤ c := by
  obtain ⟨e, hmem, hle⟩ := h.bound hδ hnn hp hv
  exact (hmin e hmem).trans hle

theorem Frontier.settle_shortest [DecidableEq κ] (h : Frontier edge root target S F δ)
    (hδ : Shortest edge root S δ) (hnn : ∀ x y a, edge x y a → 0 ≤ a) (hmin : ∀ e ∈ F, d ≤ e.1) (hv : v ∉ S) :
    Shortest edge root (insert v S) (Function.update δ v d) := by
  intro x hx p c hp
  cases Set.mem_insert_iff.mp hx with
  | inl heq =>
    subst heq
    rw [Function.update_self]
    exact h.least hδ hnn hmin hv hp
  | inr hx =>
    rw [Function.update_of_ne (ne_of_mem_of_not_mem hx hv)]
    exact hδ x hx p c hp

end Frontier

-- ---------------------------------------------------------------------------
-- Costs that shrink along paths
-- ---------------------------------------------------------------------------

section Lightest

/-- An edge of least weight among those of its source that lead on to the target. -/
def Lightest [LE W] (edge : κ → κ → W → Prop) (target u v : κ) (w : W) : Prop :=
  edge u v w ∧ Reaches edge v target ∧ ∀ v' w', edge u v' w' → Reaches edge v' target → w ≤ w'

/-- Two paths of lightest edges to the same vertex cost the same. -/
def Consistent [Zero W] [Add W] [LE W] (edge : κ → κ → W → Prop) (root target : κ) : Prop :=
  ∀ u p c p' c', Path (Lightest edge target) root u p c → Path (Lightest edge target) root u p' c' → c = c'

/-- The settled vertices that lead on to the target have the distance of a path of lightest edges. -/
def Descended [Zero W] [Add W] [LE W] (edge : κ → κ → W → Prop) (root target : κ) (S : Set κ) (δ : κ → W) :
    Prop :=
  ∀ u ∈ S, Reaches edge u target → ∃ p, Path (Lightest edge target) root u p (δ u)

variable {edge : κ → κ → W → Prop} {root target : κ}

/-- The edges of a finite graph without cycles can be followed only so often. -/
theorem Acyclic.wellFounded (hac : Acyclic edge) (hfin : {e : κ × κ × W | edge e.1 e.2.1 e.2.2}.Finite) :
    WellFounded fun v u => Step edge u v := by
  have hends : (Prod.fst '' {e : κ × κ × W | edge e.1 e.2.1 e.2.2} ∪
      (fun e => e.2.1) '' {e : κ × κ × W | edge e.1 e.2.1 e.2.2}).Finite :=
    (hfin.image _).union (hfin.image _)
  have hstrict : IsStrictOrder κ fun v u => TransGen (Step edge) u v :=
    { irrefl := hac, trans := fun _ _ _ hab hbc => hbc.trans hab }
  refine Subrelation.wf ?_ (Set.wellFoundedOn_iff.mp (hends.wellFoundedOn (r := fun v u => TransGen (Step edge) u v)))
  intro v u hstep
  obtain ⟨w, he⟩ := hstep
  exact ⟨.single ⟨w, he⟩, .inr ⟨(u, v, w), he, rfl⟩, .inl ⟨(u, v, w), he, rfl⟩⟩

variable [LinearOrder W]

/-- A vertex other than the target from which the target is reached has a lightest edge. -/
theorem exists_lightest (hfin : {e : κ × κ × W | edge e.1 e.2.1 e.2.2}.Finite) {u : κ}
    (hu : Reaches edge u target) (hne : u ≠ target) : ∃ v w, Lightest edge target u v w := by
  obtain heq | ⟨v, ⟨w, he⟩, hv⟩ := ReflTransGen.cases_head hu
  · exact absurd heq hne
  let leads : Set (κ × κ × W) := {e | edge e.1 e.2.1 e.2.2 ∧ e.1 = u ∧ Reaches edge e.2.1 target}
  have hleads : leads.Finite := hfin.subset fun e he => he.1
  obtain ⟨⟨u', v', w'⟩, ⟨he', hu', hv'⟩, hmin⟩ :=
    Set.exists_min_image leads (fun e => e.2.2) hleads ⟨(u, v, w), he, rfl, hv⟩
  have he'' : edge u v' w' := hu' ▸ he'
  exact ⟨v', w', he'', hv', fun y a hy hreach => hmin (u, y, a) ⟨hy, rfl, hreach⟩⟩

variable [AddCommGroup W]

/-- From where the target is reached, some path of lightest edges reaches it. -/
theorem exists_descent (hac : Acyclic edge) (hfin : {e : κ × κ × W | edge e.1 e.2.1 e.2.2}.Finite) {u : κ}
    (hu : Reaches edge u target) : ∃ p c, Path (Lightest edge target) u target p c := by
  induction u using (hac.wellFounded hfin).induction with
  | _ u ih =>
    by_cases heq : u = target
    · rw [heq]
      exact ⟨_, _, .nil⟩
    · obtain ⟨v, w, hl⟩ := exists_lightest hfin hu heq
      obtain ⟨p, c, hp⟩ := ih v ⟨w, hl.1⟩ hl.2.1
      obtain ⟨r, hr⟩ := (Path.nil.snoc hl).trans hp
      exact ⟨r, _, hr⟩

variable [IsOrderedAddMonoid W]

/-- When every path of lightest edges to the target is cheapest, such paths to one vertex cost the same. -/
theorem consistent_of_cheapest (hac : Acyclic edge) (hfin : {e : κ × κ × W | edge e.1 e.2.1 e.2.2}.Finite)
    (h : ∀ p c, Path (Lightest edge target) root target p c → ∀ p' c', Path edge root target p' c' → c ≤ c') :
    Consistent edge root target := by
  have hle : ∀ u p c p' c', Reaches edge u target → Path (Lightest edge target) root u p c →
      Path (Lightest edge target) root u p' c' → c ≤ c' := by
    intro u p c p' c' hu hp hp'
    obtain ⟨q, d, hq⟩ := exists_descent hac hfin hu
    obtain ⟨r, hr⟩ := hp.trans hq
    obtain ⟨r', hr'⟩ := hp'.trans hq
    exact le_of_add_le_add_right (h r _ hr r' _ (hr'.mono fun _ _ _ hl => hl.1))
  intro u p c p' c' hp hp'
  by_cases hu : Reaches edge u target
  · exact le_antisymm (hle u p c p' c' hu hp hp') (hle u p' c' p c hu hp' hp)
  · -- no lightest edge ends where the target is out of reach
    cases hp with
    | snoc _ hl => exact absurd hl.2.1 hu
    | nil =>
      cases hp' with
      | snoc _ hl => exact absurd hl.2.1 hu
      | nil => rfl

variable {S : Set κ} {F : Multiset (W × κ × κ × W)} {δ : κ → W} {d w : W} {u v : κ}

omit [IsOrderedAddMonoid W] in
theorem descended_start : Descended edge root target {root} fun _ => 0 := by
  rintro u rfl -
  exact ⟨[u], .nil⟩

/-- Below each settled vertex that leads on to the target some edge of the frontier is at most as far. -/
theorem Frontier.below (h : Frontier edge root target S F δ) (hδ : Descended edge root target S δ)
    (hcons : Consistent edge root target) (hac : Acyclic edge)
    (hfin : {e : κ × κ × W | edge e.1 e.2.1 e.2.2}.Finite) (hnp : ∀ x y a, edge x y a → a ≤ 0)
    (hu : u ∈ S) (hreach : Reaches edge u target) : ∃ e ∈ F, e.1 ≤ δ u := by
  induction u using (hac.wellFounded hfin).induction with
  | _ u ih =>
    have hne : u ≠ target := ne_of_mem_of_not_mem hu h.unsettled
    obtain ⟨v, w, hl⟩ := exists_lightest hfin hreach hne
    have hdown : w + δ u ≤ δ u := add_le_of_nonpos_left (hnp u v w hl.1)
    cases h.complete u hu v w hl.1 with
    | inr hmem => exact ⟨_, hmem, hdown⟩
    | inl hv =>
      obtain ⟨p, hp⟩ := hδ u hu hreach
      obtain ⟨q, hq⟩ := hδ v hv hl.2.1
      have heq : δ v = w + δ u := hcons v q _ _ _ hq (hp.snoc hl)
      obtain ⟨e, hmem, hle⟩ := ih v ⟨w, hl.1⟩ hv hl.2.1
      exact ⟨e, hmem, hle.trans (heq.trans_le hdown)⟩

/-- A least element of the frontier that leads on to the target is a lightest edge of its source. -/
theorem Frontier.lightest (h : Frontier edge root target S F δ) (hδ : Descended edge root target S δ)
    (hcons : Consistent edge root target) (hac : Acyclic edge)
    (hfin : {e : κ × κ × W | edge e.1 e.2.1 e.2.2}.Finite) (hnp : ∀ x y a, edge x y a → a ≤ 0)
    (hmem : (d, u, v, w) ∈ F) (hmin : ∀ e ∈ F, d ≤ e.1) (hreach : Reaches edge v target) :
    Lightest edge target u v w := by
  obtain ⟨hu, he, hd⟩ := h.sound d u v w hmem
  have hureach : Reaches edge u target := .head ⟨w, he⟩ hreach
  obtain ⟨y, a, hl⟩ := exists_lightest hfin hureach (ne_of_mem_of_not_mem hu h.unsettled)
  suffices hle : w ≤ a from ⟨he, hreach, fun v' w' he' hr => hle.trans (hl.2.2 v' w' he' hr)⟩
  suffices hle : d ≤ a + δ u from le_of_add_le_add_right (hd ▸ hle)
  cases h.complete u hu y a hl.1 with
  | inr hmem' => exact hmin _ hmem'
  | inl hy =>
    -- the lighter edge was followed already, so something at most as far is left below it
    obtain ⟨p, hp⟩ := hδ u hu hureach
    obtain ⟨q, hq⟩ := hδ y hy hl.2.1
    have heq : δ y = a + δ u := hcons y q _ _ _ hq (hp.snoc hl)
    obtain ⟨e, hmem', hle⟩ := h.below hδ hcons hac hfin hnp hy hl.2.1
    exact (hmin e hmem').trans (heq ▸ hle)

theorem Frontier.descent (h : Frontier edge root target S F δ) (hδ : Descended edge root target S δ)
    (hcons : Consistent edge root target) (hac : Acyclic edge)
    (hfin : {e : κ × κ × W | edge e.1 e.2.1 e.2.2}.Finite) (hnp : ∀ x y a, edge x y a → a ≤ 0)
    (hmem : (d, u, v, w) ∈ F) (hmin : ∀ e ∈ F, d ≤ e.1) (hreach : Reaches edge v target) :
    ∃ p, Path (Lightest edge target) root v p d := by
  obtain ⟨hu, he, hd⟩ := h.sound d u v w hmem
  obtain ⟨p, hp⟩ := hδ u hu (.head ⟨w, he⟩ hreach)
  exact ⟨p ++ [v], hd ▸ hp.snoc (h.lightest hδ hcons hac hfin hnp hmem hmin hreach)⟩

theorem Frontier.settle_descended [DecidableEq κ] (h : Frontier edge root target S F δ)
    (hδ : Descended edge root target S δ) (hcons : Consistent edge root target) (hac : Acyclic edge)
    (hfin : {e : κ × κ × W | edge e.1 e.2.1 e.2.2}.Finite) (hnp : ∀ x y a, edge x y a → a ≤ 0)
    (hmem : (d, u, v, w) ∈ F) (hmin : ∀ e ∈ F, d ≤ e.1) (hv : v ∉ S) :
    Descended edge root target (insert v S) (Function.update δ v d) := by
  intro x hx hreach
  cases Set.mem_insert_iff.mp hx with
  | inl heq =>
    subst heq
    rw [Function.update_self]
    exact h.descent hδ hcons hac hfin hnp hmem hmin hreach
  | inr hx =>
    rw [Function.update_of_ne (ne_of_mem_of_not_mem hx hv)]
    exact hδ x hx hreach

end Lightest

end BestFirst
