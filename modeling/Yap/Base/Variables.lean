-- SUMMARY: Logic variables that are unified with each other: representatives, the relation they generate, and invariant colours.
import Mathlib

/-!
# Variables bound to variables

Each variable has a representative; two variables are identical
when they have the same one. Unifying two variables gives the class of the first
the representative of the second.
-/

/-- The representative of each variable. -/
abbrev Aliases (ν : Type*) := ν → ν

namespace Aliases

open Relation

variable {ν : Type*} [DecidableEq ν]

def unify (x y : ν) (σ : Aliases ν) : Aliases ν := fun v => if σ v = σ x then σ y else σ v

def unifyAll (pairs : List (ν × ν)) (σ : Aliases ν) : Aliases ν := pairs.foldl (fun σ p => σ.unify p.1 p.2) σ

/-- Variables are identical when the relation makes them so. -/
def Binds (σ : Aliases ν) (r : ν → ν → Prop) : Prop := ∀ x y, σ x = σ y ↔ EqvGen r x y

omit [DecidableEq ν] in
theorem binds_id : Binds (id : Aliases ν) fun _ _ => False := by
  intro x y
  constructor
  · rintro rfl
    exact .refl _
  · intro h
    induction h with
    | rel _ _ h => exact h.elim
    | refl _ => rfl
    | symm _ _ _ ih => exact ih.symm
    | trans _ _ _ _ _ ih ih' => exact ih.trans ih'

variable {σ : Aliases ν} {r : ν → ν → Prop}

omit [DecidableEq ν] in
theorem Binds.rel (h : Binds σ r) {x y : ν} (hr : r x y) : σ x = σ y := (h x y).mpr (.rel _ _ hr)

omit [DecidableEq ν] in
theorem Binds.congr {r' : ν → ν → Prop} (h : Binds σ r) (heq : ∀ x y, r x y ↔ r' x y) : Binds σ r' := by
  have hr : r = r' := by
    funext x y
    exact propext (heq x y)
  exact hr ▸ h

/-- A unification adds one pair to the relation. -/
theorem Binds.unify (h : Binds σ r) (x y : ν) : Binds (σ.unify x y) fun u v => r u v ∨ u = x ∧ v = y := by
  have hmono : ∀ u v, EqvGen r u v → EqvGen (fun u v => r u v ∨ u = x ∧ v = y) u v := fun u v huv =>
    EqvGen.mono (fun _ _ hr => Or.inl hr) u v huv
  have hxy : EqvGen (fun u v => r u v ∨ u = x ∧ v = y) x y := .rel _ _ (.inr ⟨rfl, rfl⟩)
  intro u v
  constructor
  · intro heq
    unfold Aliases.unify at heq
    by_cases hu : σ u = σ x
    · rw [if_pos hu] at heq
      have hux := hmono _ _ ((h u x).mp hu)
      by_cases hv : σ v = σ x
      · exact hux.trans _ _ _ ((hmono _ _ ((h v x).mp hv)).symm _ _)
      · rw [if_neg hv] at heq
        exact (hux.trans _ _ _ hxy).trans _ _ _ (hmono _ _ ((h y v).mp heq))
    · rw [if_neg hu] at heq
      by_cases hv : σ v = σ x
      · rw [if_pos hv] at heq
        have hvx := hmono _ _ ((h v x).mp hv)
        exact (hmono _ _ ((h u y).mp heq)).trans _ _ _ ((hvx.trans _ _ _ hxy).symm _ _)
      · rw [if_neg hv] at heq
        exact hmono _ _ ((h u v).mp heq)
  · intro hgen
    induction hgen with
    | rel u v huv =>
      unfold Aliases.unify
      rcases huv with hr | ⟨rfl, rfl⟩
      · rw [h.rel hr]
      · rw [if_pos rfl]
        split <;> rfl
    | refl _ => rfl
    | symm _ _ _ ih => exact ih.symm
    | trans _ _ _ _ _ ih ih' => exact ih.trans ih'

theorem Binds.unifyAll (h : Binds σ r) (pairs : List (ν × ν)) :
    Binds (σ.unifyAll pairs) fun u v => r u v ∨ (u, v) ∈ pairs := by
  induction pairs generalizing σ r with
  | nil => exact h.congr fun u v => by simp
  | cons p pairs ih =>
    refine (ih (h.unify p.1 p.2)).congr fun u v => ?_
    rw [List.mem_cons, or_assoc, Prod.ext_iff]

theorem unifyAll_append (pairs pairs' : List (ν × ν)) :
    σ.unifyAll (pairs ++ pairs') = (σ.unifyAll pairs).unifyAll pairs' := List.foldl_append

omit [DecidableEq ν] in
/-- A colour that every pair keeps is the same for identical variables. -/
theorem Binds.colour (h : Binds σ r) {κ : Type*} {φ : ν → κ} (hφ : ∀ u v, r u v → φ u = φ v) {x y : ν}
    (heq : σ x = σ y) : φ x = φ y := by
  have hgen := (h x y).mp heq
  clear heq
  induction hgen with
  | rel u v huv => exact hφ u v huv
  | refl _ => rfl
  | symm _ _ _ ih => exact ih.symm
  | trans _ _ _ _ _ ih ih' => exact ih.trans ih'

end Aliases
