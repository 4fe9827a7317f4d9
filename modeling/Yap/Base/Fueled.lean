-- SUMMARY: Results of calls that may fail or run longer than a bound.
import Mathlib

/-- What a call does: it runs longer than its bound, fails, or succeeds. -/
inductive Fueled (β : Type*) where
  | more
  | fail
  | ok (b : β)

namespace Fueled

variable {β γ : Type*}

def bind : Fueled β → (β → Fueled γ) → Fueled γ
  | .more, _ => .more
  | .fail, _ => .fail
  | .ok b, f => f b

@[simp] theorem bind_ok (b : β) (f : β → Fueled γ) : (Fueled.ok b).bind f = f b := rfl

@[simp] theorem bind_fail (f : β → Fueled γ) : Fueled.fail.bind f = .fail := rfl

/-- With every large enough bound the call does this. -/
def Finally (run : ℕ → Fueled β) (r : Fueled β) : Prop := ∃ n₀, ∀ n ≥ n₀, run n = r

theorem Finally.bind {run : ℕ → Fueled β} {r : Fueled β} (h : Finally run r) (f : β → Fueled γ) :
    Finally (fun n => (run n).bind f) (r.bind f) := by
  obtain ⟨n₀, h⟩ := h
  exact ⟨n₀, fun n hn => congrArg (Fueled.bind · f) (h n hn)⟩

/-- One call more needs a bound greater by one. -/
theorem Finally.call {run run' : ℕ → Fueled β} {r : Fueled β} (h : Finally run r)
    (heq : ∀ n, run' (n + 1) = run n) : Finally run' r := by
  obtain ⟨n₀, h⟩ := h
  refine ⟨n₀ + 1, fun n hn => ?_⟩
  obtain ⟨n, rfl⟩ := Nat.exists_eq_add_one_of_ne_zero (Nat.ne_zero_of_lt hn)
  exact (heq n).trans (h n (Nat.le_of_succ_le_succ hn))

theorem finally_const (r : Fueled β) : Finally (fun _ => r) r := ⟨0, fun _ _ => rfl⟩

theorem Finally.unique {run : ℕ → Fueled β} {r r' : Fueled β} (h : Finally run r) (h' : Finally run r') :
    r = r' := by
  obtain ⟨n₀, h⟩ := h
  obtain ⟨n₁, h'⟩ := h'
  exact (h (max n₀ n₁) (le_max_left n₀ n₁)).symm.trans (h' _ (le_max_right n₀ n₁))

end Fueled
