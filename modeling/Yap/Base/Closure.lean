-- SUMMARY: Transitive closures of relations: pivoting at every element, and rounds that compose only what the last round added.
import Mathlib

/-!
# Ways to the transitive closure

Two algorithms as changes of a relation. Pivoting at an element adds the pairs
that go through it; after every element was a pivot the relation is closed.
Rounds with a delta compose only the pairs of the last round; with the pairs
that were composed before nothing is missed.
-/

namespace Closure

open Relation

variable {α : Type*}

-- ---------------------------------------------------------------------------
-- Pivots
-- ---------------------------------------------------------------------------

def pivot (r : α → α → Prop) (v : α) (x y : α) : Prop := r x y ∨ r x v ∧ r v y

/-- Two steps through the element are one. -/
def TransAt (r : α → α → Prop) (v : α) : Prop := ∀ x y, r x v → r v y → r x y

theorem transAt_pivot (r : α → α → Prop) (v : α) : TransAt (pivot r v) v := by
  rintro x y hxv hvy
  exact .inr ⟨hxv.elim id And.left, hvy.elim id And.right⟩

/-- A pivot keeps what earlier pivots established. -/
theorem TransAt.pivot {r : α → α → Prop} {w : α} (h : TransAt r w) (v : α) : TransAt (pivot r v) w := by
  intro x y hxw hwy
  cases hxw with
  | inl hxw =>
    cases hwy with
    | inl hwy => exact .inl (h x y hxw hwy)
    | inr hwy => exact .inr ⟨h x v hxw hwy.1, hwy.2⟩
  | inr hxw =>
    cases hwy with
    | inl hwy => exact .inr ⟨hxw.1, h v y hxw.2 hwy⟩
    | inr hwy => exact .inr ⟨hxw.1, hwy.2⟩

/-- Pivots stay inside every closure of the relation. -/
theorem pivot_transGen {e r : α → α → Prop} (h : ∀ x y, r x y → TransGen e x y) (v x y : α)
    (hp : pivot r v x y) : TransGen e x y := by
  cases hp with
  | inl hr => exact h x y hr
  | inr hr => exact (h x v hr.1).trans (h v y hr.2)

/-- A relation between the base and its closure that is transitive at every source is the closure. -/
theorem eq_transGen {e r : α → α → Prop} (hbase : ∀ x y, e x y → r x y)
    (hsound : ∀ x y, r x y → TransGen e x y) (htrans : ∀ x y, e x y → TransAt r x) (x y : α) :
    r x y ↔ TransGen e x y := by
  refine ⟨hsound x y, fun h => ?_⟩
  induction h with
  | single hxy => exact hbase _ _ hxy
  | tail _ hyz ih => exact htrans _ _ hyz x _ ih (hbase _ _ hyz)

-- ---------------------------------------------------------------------------
-- Rounds
-- ---------------------------------------------------------------------------

/-- A relation on its way to the closure: all its pairs but those of the delta were composed with
the base. -/
structure Rounds (e delta r : α → α → Prop) : Prop where
  base : ∀ x y, e x y → r x y
  inside : ∀ x y, delta x y → r x y
  sound : ∀ x y, r x y → TransGen e x y
  composed : ∀ x y z, r x y → ¬ delta x y → e y z → r x z

variable {e delta r : α → α → Prop}

theorem rounds_start (e : α → α → Prop) : Rounds e e e where
  base _ _ h := h
  inside _ _ h := h
  sound _ _ h := .single h
  composed _ _ _ h hn := absurd h hn

/-- The new delta is what the old one adds when it is composed with the relation. -/
theorem Rounds.next (h : Rounds e delta r) {delta' : α → α → Prop}
    (hdelta : ∀ x z, delta' x z ↔ (∃ y, delta x y ∧ r y z) ∧ ¬ r x z) :
    Rounds e delta' fun x y => r x y ∨ delta' x y where
  base x y he := .inl (h.base x y he)
  inside _ _ hd := .inr hd
  sound x z hr := by
    cases hr with
    | inl hr => exact h.sound x z hr
    | inr hd =>
      obtain ⟨⟨y, hxy, hyz⟩, -⟩ := (hdelta x z).mp hd
      exact (h.sound x y (h.inside x y hxy)).trans (h.sound y z hyz)
  composed x y z hr hn he := by
    have hxy := hr.resolve_right hn
    by_cases hxz : r x z
    · exact .inl hxz
    · by_cases hd : delta x y
      · exact .inr ((hdelta x z).mpr ⟨⟨y, hd, h.base y z he⟩, hxz⟩)
      · exact absurd (h.composed x y z hxy hd he) hxz

/-- When a round adds nothing, the relation is the closure. -/
theorem Rounds.done (h : Rounds e delta r) (hnone : ∀ x y, ¬ delta x y) (x y : α) :
    r x y ↔ TransGen e x y := by
  refine ⟨h.sound x y, fun ht => ?_⟩
  induction ht with
  | single hxy => exact h.base _ _ hxy
  | tail _ hyz ih => exact h.composed _ _ _ ih (hnone _ _) hyz

-- ---------------------------------------------------------------------------
-- What an element reaches
-- ---------------------------------------------------------------------------

/-- A set that is closed under the relation and holds only what the element reaches is all of it. -/
theorem mem_iff_reaches {s : Set α} {a : α} (ha : a ∈ s) (hsound : ∀ x ∈ s, ReflTransGen e a x)
    (hclosed : ∀ x ∈ s, ∀ y, e x y → y ∈ s) (x : α) : x ∈ s ↔ ReflTransGen e a x := by
  refine ⟨hsound x, fun h => ?_⟩
  induction h with
  | refl => exact ha
  | tail _ hyz ih => exact hclosed _ ih _ hyz

/-- A relation that goes up in some measure has no cycle. -/
theorem acyclic_of_lt {e : α → α → Prop} {f : α → ℕ} (h : ∀ x y, e x y → f x < f y) (x : α) :
    ¬ TransGen e x x := by
  have hlt : ∀ y, TransGen e x y → f x < f y := by
    intro y hgen
    induction hgen with
    | single hxy => exact h _ _ hxy
    | tail _ hyz ih => exact ih.trans (h _ _ hyz)
  exact fun hcycle => lt_irrefl _ (hlt x hcycle)

/-- A part of a finite set that is not empty has an element without predecessors in it, when the
relation has no cycle. -/
theorem exists_source [DecidableEq α] {e : α → α → Prop} (hacyclic : ∀ x, ¬ TransGen e x x) {s : Finset α}
    (hs : s.Nonempty) : ∃ x ∈ s, ∀ y ∈ s, ¬ e y x := by
  have hirrefl : Std.Irrefl fun (x y : s) => TransGen e x.1 y.1 := ⟨fun x => hacyclic x.1⟩
  have htrans : IsTrans s fun x y => TransGen e x.1 y.1 := ⟨fun _ _ _ => TransGen.trans⟩
  have hwf : WellFounded fun (x y : s) => TransGen e x.1 y.1 := Finite.wellFounded_of_trans_of_irrefl _
  obtain ⟨a, ha⟩ := hs
  obtain ⟨m, -, hmin⟩ := hwf.has_min Set.univ ⟨⟨a, ha⟩, Set.mem_univ _⟩
  exact ⟨m.1, m.2, fun y hy hedge => hmin ⟨y, hy⟩ (Set.mem_univ _) (.single hedge)⟩

end Closure
