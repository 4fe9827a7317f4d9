-- SUMMARY: Machines that make turns until they exit: runs, results, and invariants of what is reached.
import Mathlib

/-!
# Machines

A turn of a machine leads to another state, or leaves the machine with a result.
Results are those of runs with any bound on the number of turns.
-/

namespace Yap

/-- What a turn does. -/
inductive Turn (σ ω : Type*) where
  | go (st : σ)
  | exit (w : ω)

namespace Machine

open Relation

variable {σ ω : Type*}

/-- The machine, for a number of turns. -/
def run (turn : σ → Turn σ ω) : ℕ → σ → Option ω
  | 0, _ => none
  | turns + 1, st =>
    match turn st with
    | .go st' => run turn turns st'
    | .exit w => some w

variable (turn : σ → Turn σ ω)

def Goes (st st' : σ) : Prop := turn st = .go st'

def Returns (st : σ) (w : ω) : Prop := ∃ turns, run turn turns st = some w

variable {turn} {st st' : σ} {w w' : ω}

theorem run_of_goes (h : turn st = .go st') (turns : ℕ) : run turn (turns + 1) st = run turn turns st' := by
  rw [run, h]

theorem run_of_exit (h : turn st = .exit w) (turns : ℕ) : run turn (turns + 1) st = some w := by
  rw [run, h]

theorem run_le {turns turns' : ℕ} (hle : turns ≤ turns') (h : run turn turns st = some w) :
    run turn turns' st = some w := by
  induction turns generalizing st turns' with
  | zero => cases h
  | succ turns ih =>
    obtain ⟨turns', rfl⟩ := Nat.exists_eq_add_one_of_ne_zero (Nat.ne_zero_of_lt hle)
    cases hturn : turn st with
    | go st' =>
      rw [run_of_goes hturn] at h ⊢
      exact ih (Nat.le_of_succ_le_succ hle) h
    | exit w' =>
      rw [run_of_exit hturn] at h ⊢
      exact h

theorem returns_of_exit (h : turn st = .exit w) : Returns turn st w := ⟨1, run_of_exit h 0⟩

/-- A machine that makes the same step again and again, until it exits. -/
theorem run_iterate (next : σ → σ) {j turns : ℕ} (hgo : ∀ i < j, turn (next^[i] st) = .go (next^[i + 1] st))
    (hexit : turn (next^[j] st) = .exit w) (hlt : j < turns) : run turn turns st = some w := by
  induction j generalizing st turns with
  | zero => exact run_le hlt (run_of_exit hexit 0)
  | succ j ih =>
    obtain ⟨turns, rfl⟩ := Nat.exists_eq_add_one_of_ne_zero (Nat.ne_zero_of_lt hlt)
    have hfirst : turn st = .go (next st) := hgo 0 (Nat.succ_pos j)
    rw [run_of_goes hfirst]
    exact ih (fun i hi => hgo (i + 1) (Nat.succ_lt_succ hi)) hexit (Nat.lt_of_succ_lt_succ hlt)

theorem returns_go (h : turn st = .go st') : Returns turn st w ↔ Returns turn st' w := by
  constructor
  · rintro ⟨turns, hrun⟩
    cases turns with
    | zero => cases hrun
    | succ turns => exact ⟨turns, run_of_goes h turns ▸ hrun⟩
  · rintro ⟨turns, hrun⟩
    exact ⟨turns + 1, (run_of_goes h turns).trans hrun⟩

theorem returns_reaches (h : ReflTransGen (Goes turn) st st') : Returns turn st w ↔ Returns turn st' w := by
  induction h with
  | refl => rfl
  | tail _ hgo ih => exact ih.trans (returns_go hgo)

/-- A machine has one result at most. -/
theorem Returns.unique (h : Returns turn st w) (h' : Returns turn st w') : w = w' := by
  obtain ⟨turns, hrun⟩ := h
  obtain ⟨turns', hrun'⟩ := h'
  have hle := run_le (le_max_left turns turns') hrun
  exact Option.some.inj (hle.symm.trans (run_le (le_max_right turns turns') hrun'))

/-- A result comes from a state that is reached. -/
theorem Returns.exists_exit (h : Returns turn st w) :
    ∃ st', ReflTransGen (Goes turn) st st' ∧ turn st' = .exit w := by
  obtain ⟨turns, hrun⟩ := h
  induction turns generalizing st with
  | zero => cases hrun
  | succ turns ih =>
    cases hturn : turn st with
    | go st₁ =>
      obtain ⟨st', hreach, hexit⟩ := ih (run_of_goes hturn turns ▸ hrun)
      exact ⟨st', .head hturn hreach, hexit⟩
    | exit w' =>
      obtain rfl := Option.some.inj ((run_of_exit hturn turns).symm.trans hrun)
      exact ⟨st, .refl, hturn⟩

/-- What every turn keeps holds of all that is reached. -/
theorem invariant {P : σ → Prop} (hstep : ∀ st st', P st → turn st = .go st' → P st')
    (h : ReflTransGen (Goes turn) st st') (hst : P st) : P st' := by
  induction h with
  | refl => exact hst
  | tail _ hgo ih => exact hstep _ _ ih hgo

end Machine

end Yap
