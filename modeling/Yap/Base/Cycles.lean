-- SUMMARY: Following a cycle of a permutation until it returns to where it began.
import Mathlib

/-!
# Cycles

A permutation of a finite set is applied in place by following its cycles, each
from its first element on. What has been left behind is closed under going back,
except for the element where the cycle began.
-/

namespace Cycles

variable {α : Type*} {f : α → α} {S D : Finset α} {i j : α}

/-- What goes to a finished element is finished. -/
structure Finished (f : α → α) (S D : Finset α) : Prop where
  subset : D ⊆ S
  back : ∀ a ∈ S, f a ∈ D → a ∈ D

/-- A walk along `f` that began at the first element and is at the second. -/
structure Chain (f : α → α) (S D : Finset α) (i j : α) : Prop where
  subset : D ⊆ S
  mem : j ∈ S
  fresh : j ∉ D
  back : ∀ a ∈ S, f a ∈ D → a ∈ D ∨ f a = i
  reached : j = i ∨ ∃ a ∈ D, f a = j

theorem finished_empty : Finished f S ∅ := ⟨Finset.empty_subset S, fun _ _ h => absurd h (Finset.notMem_empty _)⟩

theorem Finished.chain (h : Finished f S D) (hi : i ∈ S) (hfresh : i ∉ D) : Chain f S D i i :=
  ⟨h.subset, hi, hfresh, fun a ha hfa => .inl (h.back a ha hfa), .inl rfl⟩

theorem Chain.card_lt (h : Chain f S D i j) : D.card < S.card :=
  Finset.card_lt_card ⟨h.subset, fun hle => h.fresh (hle h.mem)⟩

/-- Only the element before it goes to the element of a walk. -/
theorem Chain.back_self (h : Chain f S D i j) (hinj : Set.InjOn f S) {a : α} (ha : a ∈ S) (hfa : f a = j) :
    a ∈ D ∨ f a = i := by
  rcases h.reached with rfl | ⟨b, hb, hfb⟩
  · exact .inr hfa
  · have hab : a = b := hinj ha (h.subset hb) (hfa.trans hfb.symm)
    exact .inl (hab ▸ hb)

variable [DecidableEq α]

theorem Chain.back_insert (h : Chain f S D i j) (hinj : Set.InjOn f S) {a : α} (ha : a ∈ S)
    (hfa : f a ∈ insert j D) : a ∈ D ∨ f a = i := by
  cases Finset.mem_insert.mp hfa with
  | inl heq => exact h.back_self hinj ha heq
  | inr hmem => exact h.back a ha hmem

theorem Chain.subset_insert (h : Chain f S D i j) : insert j D ⊆ S := Finset.insert_subset h.mem h.subset

theorem Chain.next (h : Chain f S D i j) (hinj : Set.InjOn f S) (hmaps : ∀ a ∈ S, f a ∈ S) (hne : f j ≠ i) :
    Chain f S (insert j D) i (f j) where
  subset := h.subset_insert
  mem := hmaps j h.mem
  fresh hmem := by
    cases h.back_insert hinj h.mem hmem with
    | inl hj => exact h.fresh hj
    | inr heq => exact hne heq
  back a ha hfa := (h.back_insert hinj ha hfa).imp_left (Finset.mem_insert_of_mem ·)
  reached := .inr ⟨j, Finset.mem_insert_self j D, rfl⟩

/-- The element that goes to the beginning ends the cycle. -/
theorem Chain.finish (h : Chain f S D i j) (hinj : Set.InjOn f S) (heq : f j = i) : Finished f S (insert j D) where
  subset := h.subset_insert
  back a ha hfa := by
    cases h.back_insert hinj ha hfa with
    | inl hmem => exact Finset.mem_insert_of_mem hmem
    | inr hi =>
      have haj : a = j := hinj ha h.mem (hi.trans heq.symm)
      exact haj ▸ Finset.mem_insert_self j D

end Cycles
