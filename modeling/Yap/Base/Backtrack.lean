-- SUMMARY: Computations on a state that may fail, alternatives that are tried from a saved state, and rules for what holds after them.
import Mathlib

/-!
# Backtracking

A computation changes a state, and succeeds or fails in the state it has reached. It
is undefined where a recursion runs out of fuel. An alternative that fails is
followed by another one, from a state made of the one before and the one of the
failure.
-/

namespace Yap

/-- How a computation ends. -/
inductive Outcome (σ ε α : Type*) where
  | ok (a : α) (s : σ)
  | fail (e : ε) (s : σ)

/-- A computation on a state. -/
def Backtrack (σ ε α : Type*) := σ → Option (Outcome σ ε α)

/-- The end is as the postconditions say. -/
def Outcome.Meets {σ ε α : Type*} (post : α → σ → Prop) (fails : σ → Prop) : Outcome σ ε α → Prop
  | .ok a s => post a s
  | .fail _ s => fails s

namespace Backtrack

variable {σ ε α β : Type*}

/-- The result, without a change of the state. -/
def done (a : α) : Backtrack σ ε α := fun s => some (.ok a s)

def failWith (e : ε) : Backtrack σ ε α := fun s => some (.fail e s)

/-- No fuel is left. -/
def outOfFuel : Backtrack σ ε α := fun _ => none

/-- One computation after another. -/
def next (x : Backtrack σ ε α) (f : α → Backtrack σ ε β) : Backtrack σ ε β := fun s =>
  match x s with
  | none => none
  | some (.fail e s') => some (.fail e s')
  | some (.ok a s') => f a s'

/-- Goes on with `f` after `x`, or with `y` where `x` fails. -/
def attempt (restore : σ → σ → σ) (x : Backtrack σ ε α) (f : α → Backtrack σ ε β) (y : Backtrack σ ε β) :
    Backtrack σ ε β := fun s =>
  match x s with
  | none => none
  | some (.fail _ s') => y (restore s s')
  | some (.ok a s') => f a s'

/-- Changes the state. -/
def modify (f : σ → σ) : Backtrack σ ε Unit := fun s => some (.ok () (f s))

/-- Goes on from a part of the state. -/
def look (f : σ → Backtrack σ ε α) : Backtrack σ ε α := fun s => f s s

theorem look_apply (f : σ → Backtrack σ ε α) (s : σ) : look f s = f s s := rfl

-- ---------------------------------------------------------------------------
-- Triples
-- ---------------------------------------------------------------------------

/-- The computation ends, and as the postconditions say. -/
def Ends (x : Backtrack σ ε α) (s : σ) (post : α → σ → Prop) (fails : σ → Prop) : Prop :=
  ∃ r, x s = some r ∧ r.Meets post fails

variable {x : Backtrack σ ε α} {s : σ} {post : α → σ → Prop} {fails : σ → Prop}

theorem Ends.done {a : α} (h : post a s) : (done a : Backtrack σ ε α).Ends s post fails := ⟨_, rfl, h⟩

theorem Ends.mono {post' : α → σ → Prop} {fails' : σ → Prop} (h : x.Ends s post fails)
    (hpost : ∀ a s', post a s' → post' a s') (hfails : ∀ s', fails s' → fails' s') : x.Ends s post' fails' := by
  obtain ⟨r, hr, hends⟩ := h
  refine ⟨r, hr, ?_⟩
  cases r with
  | ok a s' => exact hpost a s' hends
  | fail e s' => exact hfails s' hends

theorem Ends.next {f : α → Backtrack σ ε β} {post' : β → σ → Prop} (h : x.Ends s post fails)
    (hf : ∀ a s', post a s' → (f a).Ends s' post' fails) : (x.next f).Ends s post' fails := by
  obtain ⟨r, hr, hends⟩ := h
  cases r with
  | ok a s' =>
      have heq : x.next f s = f a s' := by rw [Backtrack.next, hr]
      obtain ⟨r', hr', hends'⟩ := hf a s' hends
      exact ⟨r', heq.trans hr', hends'⟩
  | fail e s' => exact ⟨.fail e s', by rw [Backtrack.next, hr], hends⟩

theorem Ends.attempt {restore : σ → σ → σ} {f : α → Backtrack σ ε β} {y : Backtrack σ ε β} {post' : β → σ → Prop}
    {fails' : σ → Prop} (h : x.Ends s post fails) (hf : ∀ a s', post a s' → (f a).Ends s' post' fails')
    (hy : ∀ s', fails s' → y.Ends (restore s s') post' fails') : (x.attempt restore f y).Ends s post' fails' := by
  obtain ⟨r, hr, hends⟩ := h
  cases r with
  | ok a s' =>
      have heq : x.attempt restore f y s = f a s' := by rw [Backtrack.attempt, hr]
      obtain ⟨r', hr', hends'⟩ := hf a s' hends
      exact ⟨r', heq.trans hr', hends'⟩
  | fail e s' =>
      have heq : x.attempt restore f y s = y (restore s s') := by rw [Backtrack.attempt, hr]
      obtain ⟨r', hr', hends'⟩ := hy s' hends
      exact ⟨r', heq.trans hr', hends'⟩

theorem Ends.look {f : σ → Backtrack σ ε α} (h : (f s).Ends s post fails) : (look f).Ends s post fails := h

/-- The state of a failure is one that the computation fails in. -/
theorem Ends.record (h : x.Ends s post fails) :
    x.Ends s post fun s' => fails s' ∧ ∃ e, x s = some (.fail e s') := by
  obtain ⟨r, hr, hends⟩ := h
  refine ⟨r, hr, ?_⟩
  cases r with
  | ok a s' => exact hends
  | fail e s' => exact ⟨hends, e, hr⟩

/-- What holds after a computation holds of the result it has. -/
theorem Ends.meets {r : Outcome σ ε α} (h : x.Ends s post fails) (hr : x s = some r) : r.Meets post fails := by
  obtain ⟨r', hr', hends⟩ := h
  rw [hr] at hr'
  exact Option.some.inj hr' ▸ hends

end Backtrack

end Yap
