-- SUMMARY: Memories with two interleaved lanes of cells, what writes leave of a lane, and loops that copy the rest of a lane.
import Mathlib

/-!
# Lanes

The cells at distance two from a position are a lane. A loop copies the rest of
a lane to a position that it advances. What it writes does not reach what it
still reads when it writes to the other lane, or not ahead of what it reads.
-/

namespace Lanes

variable {γ : Type*}

/-- The cells from a position on, every second one. -/
def lane (m : ℕ → γ) (p : ℕ) : ℕ → List γ
  | 0 => []
  | n + 1 => m p :: lane m (p + 2) n

def store (m : ℕ → γ) (p : ℕ) (v : γ) : ℕ → γ := Function.update m p v

@[simp] theorem store_self (m : ℕ → γ) (p : ℕ) (v : γ) : store m p v p = v := by
  rw [store, Function.update_self]

theorem store_of_ne {m : ℕ → γ} {p q : ℕ} {v : γ} (h : q ≠ p) : store m p v q = m q := by
  rw [store, Function.update_of_ne h]

@[simp] theorem length_lane (m : ℕ → γ) (p n : ℕ) : (lane m p n).length = n := by
  induction n generalizing p with
  | zero => rfl
  | succ n ih => rw [lane, List.length_cons, ih]

theorem lane_congr {m m' : ℕ → γ} {p n : ℕ} (h : ∀ i < n, m' (p + 2 * i) = m (p + 2 * i)) :
    lane m' p n = lane m p n := by
  induction n generalizing p with
  | zero => rfl
  | succ n ih =>
    have hfirst : m' p = m p := h 0 (Nat.succ_pos n)
    rw [lane, lane, hfirst, ih fun i hi => ?_]
    have heq : p + 2 + 2 * i = p + 2 * (i + 1) := by omega
    rw [heq]
    exact h (i + 1) (Nat.succ_lt_succ hi)

theorem lane_store {m : ℕ → γ} {p n q : ℕ} {v : γ} (h : ∀ i < n, p + 2 * i ≠ q) :
    lane (store m q v) p n = lane m p n :=
  lane_congr fun i hi => store_of_ne (h i hi)

theorem lane_append (m : ℕ → γ) (p a b : ℕ) : lane m p (a + b) = lane m p a ++ lane m (p + 2 * a) b := by
  induction a generalizing p with
  | zero => rw [Nat.zero_add]; rfl
  | succ a ih =>
    have hstart : p + 2 + 2 * a = p + 2 * (a + 1) := by omega
    rw [Nat.succ_add, lane, ih, lane, hstart, List.cons_append]

/-- Nothing outside the cells from the first position to before the second has changed. -/
def Keeps (m m' : ℕ → γ) (p q : ℕ) : Prop := ∀ x, x < p ∨ q ≤ x → m' x = m x

theorem Keeps.refl (m : ℕ → γ) (p q : ℕ) : Keeps m m p q := fun _ _ => rfl

theorem Keeps.trans {m m' m'' : ℕ → γ} {p q p' q' a b : ℕ} (h : Keeps m m' p q) (h' : Keeps m' m'' p' q')
    (hp : a ≤ p) (hq : q ≤ b) (hp' : a ≤ p') (hq' : q' ≤ b) : Keeps m m'' a b := fun x hx =>
  (h' x (by omega)).trans (h x (by omega))

theorem keeps_store {m : ℕ → γ} {p q x : ℕ} {v : γ} (hp : p ≤ x) (hq : x < q) : Keeps m (store m x v) p q :=
  fun _ _ => store_of_ne (by omega)

theorem Keeps.mono {m m' : ℕ → γ} {p q a b : ℕ} (h : Keeps m m' p q) (hp : a ≤ p) (hq : q ≤ b) : Keeps m m' a b :=
  fun x hx => h x (by omega)

theorem Keeps.lane {m m' : ℕ → γ} {p q a n : ℕ} (h : Keeps m m' p q) (hout : a + 2 * n ≤ p + 1 ∨ q ≤ a) :
    lane m' a n = lane m a n :=
  lane_congr fun i hi => h _ (by omega)

-- ---------------------------------------------------------------------------
-- Copies
-- ---------------------------------------------------------------------------

/-- `while (src < stop) { *dst = *src; dst += 2; src += 2; }`: the memory and the number of cells copied. -/
def copyLoop (stop : ℕ) (m : ℕ → γ) (dst src : ℕ) : (ℕ → γ) × ℕ :=
  if src < stop then
    let rest := copyLoop stop (store m dst (m src)) (dst + 2) (src + 2)
    (rest.1, rest.2 + 1)
  else (m, 0)
termination_by stop - src

/-- The loop writes to the other lane or not ahead of what it reads. -/
def Clear (dst src : ℕ) : Prop := (dst + src) % 2 = 1 ∨ dst ≤ src

theorem copyLoop_spec {stop : ℕ} {m : ℕ → γ} {dst src n : ℕ} (hn : stop ≤ src + 2 * n) (hn' : src + 2 * n ≤ stop + 1)
    (hclear : Clear dst src) :
    lane (copyLoop stop m dst src).1 dst n = lane m src n ∧ (copyLoop stop m dst src).2 = n ∧
      Keeps m (copyLoop stop m dst src).1 dst (dst + 2 * n - 1) := by
  induction n generalizing m dst src with
  | zero =>
    rw [copyLoop, if_neg (by omega)]
    exact ⟨rfl, rfl, Keeps.refl m _ _⟩
  | succ n ih =>
    have hclear' : Clear (dst + 2) (src + 2) := by unfold Clear at hclear ⊢; omega
    obtain ⟨hlane, hcount, hkeeps⟩ := ih (m := store m dst (m src)) (by omega) (by omega) hclear'
    rw [copyLoop, if_pos (by omega)]
    refine ⟨?_, congrArg (· + 1) hcount,
      (keeps_store le_rfl (Nat.lt_succ_self dst)).trans hkeeps le_rfl (by omega) (by omega) (by omega)⟩
    have hfirst := hkeeps dst (by omega)
    rw [store_self] at hfirst
    have hrest : lane (store m dst (m src)) (src + 2) n = lane m (src + 2) n := by
      refine lane_store fun i _ => ?_
      unfold Clear at hclear
      omega
    rw [lane, lane, hfirst, hlane, hrest]

end Lanes
