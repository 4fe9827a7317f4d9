-- SUMMARY: Searches that go round a circle, from one position to the next or in strides of one length: where they come, and when they end.
import Yap.Base.Machine

/-!
# Strides

Strides of length `s` on a circle of `n` numbers lead to the numbers that are
congruent to the start modulo the greatest common divisor of `s` and `n`. A search
that goes from each position to the next one ends within one round, at the first
position from its start that stops it.
-/

namespace Probing

variable {size : ℕ}

/-- The position some steps further on the circle. -/
def rot (i : Fin size) (d : ℕ) : Fin size := ⟨(i + d) % size, Nat.mod_lt _ i.pos⟩

def next (i : Fin size) : Fin size := ⟨(i + 1) % size, Nat.mod_lt _ i.pos⟩

/-- The first position that stops a search is so many steps away. -/
structure First (stop : Fin size → Bool) (i : Fin size) (d : ℕ) : Prop where
  stops : stop (rot i d) = true
  before : ∀ d' < d, stop (rot i d') = false

@[simp] theorem rot_zero (i : Fin size) : rot i 0 = i := Fin.ext (Nat.mod_eq_of_lt i.isLt)

theorem rot_next (i : Fin size) (d : ℕ) : rot (next i) d = rot i (d + 1) := by
  refine Fin.ext ?_
  simp only [rot, next, Nat.mod_add_mod]
  congr 1
  omega

/-- Every position is reached within one round. -/
theorem exists_rot (i j : Fin size) : ∃ d < size, rot i d = j := by
  refine ⟨(j + (size - i)) % size, Nat.mod_lt _ i.pos, Fin.ext ?_⟩
  have hsum : i + (j + (size - i)) = j + size := by omega
  simp only [rot, Nat.add_mod_mod, hsum, Nat.add_mod_right]
  exact Nat.mod_eq_of_lt j.isLt

theorem exists_first (stop : Fin size → Bool) {j : Fin size} (hj : stop j = true) (i : Fin size) :
    ∃ d < size, First stop i d := by
  obtain ⟨d, hd, hrot⟩ := exists_rot i j
  have hex : ∃ d, stop (rot i d) = true := ⟨d, hrot ▸ hj⟩
  refine ⟨Nat.find hex, lt_of_le_of_lt (Nat.find_min' hex (hrot ▸ hj)) hd, Nat.find_spec hex, fun d' hd' => ?_⟩
  exact Bool.eq_false_of_not_eq_true (Nat.find_min hex hd')

/-- A function that goes from position to position until one stops it ends with what it does at the
first of these. -/
theorem search_first {β : Type*} {stop : Fin size → Bool} (search : ℕ → Fin size → β) (done : Fin size → β)
    (hstop : ∀ n i, stop i = true → search (n + 1) i = done i)
    (hgo : ∀ n i, stop i = false → search (n + 1) i = search n (next i)) {i : Fin size} {d n : ℕ}
    (h : First stop i d) (hn : d < n) : search n i = done (rot i d) := by
  induction d generalizing i n with
  | zero =>
    obtain ⟨n, rfl⟩ := Nat.exists_eq_add_one_of_ne_zero (Nat.ne_zero_of_lt hn)
    rw [rot_zero]
    exact hstop n i (rot_zero i ▸ h.stops)
  | succ d ih =>
    obtain ⟨n, rfl⟩ := Nat.exists_eq_add_one_of_ne_zero (Nat.ne_zero_of_lt hn)
    have hnext : First stop (next i) d :=
      ⟨by rw [rot_next]; exact h.stops, fun d' hd' => by rw [rot_next]; exact h.before _ (Nat.succ_lt_succ hd')⟩
    rw [hgo n i (rot_zero i ▸ h.before 0 (Nat.succ_pos d)), ih hnext (Nat.lt_of_succ_lt_succ hn), rot_next]

end Probing

namespace Yap

namespace Machine

open Relation

/-- The numbers on a circle that strides of one length lead to. -/
theorem exists_stride_iff {n start s x : ℕ} (hx : x < n) :
    (∃ k, (start + k * s) % n = x) ↔ x ≡ start [MOD s.gcd n] := by
  constructor
  · rintro ⟨k, rfl⟩
    have hn : (start + k * s) % n ≡ start + k * s [MOD s.gcd n] := (Nat.mod_modEq _ n).of_dvd (Nat.gcd_dvd_right s n)
    have hs : k * s ≡ 0 [MOD s.gcd n] := (Nat.modEq_zero_iff_dvd).mpr ((Nat.gcd_dvd_left s n).mul_left k)
    exact hn.trans (by simpa using Nat.ModEq.add_left start hs)
  · intro h
    obtain ⟨y, hys, hyn⟩ := Nat.chineseRemainder' h.symm
    -- Turns of the circle are strides of length `0`: enough of them get past the start.
    have hle : start ≤ y + start * (s * n) ∨ s = 0 := by
      rcases Nat.eq_zero_or_pos s with hs | hs
      · exact .inr hs
      · have := Nat.mul_pos hs (Nat.zero_lt_of_lt hx)
        exact .inl (by nlinarith)
    rcases hle with hle | rfl
    · have hcong : start ≡ y + start * (s * n) [MOD s] := by
        have hzero : start * (s * n) ≡ 0 [MOD s] := Nat.modEq_zero_iff_dvd.mpr ⟨start * n, by ring⟩
        exact (hys.symm.trans (by simpa using Nat.ModEq.add_left y hzero.symm))
      obtain ⟨k, hk⟩ := (Nat.modEq_iff_dvd' hle).mp hcong
      refine ⟨k, ?_⟩
      have hsum : start + k * s = y + n * (start * s) := by
        rw [mul_comm k s, ← hk, Nat.add_sub_cancel' hle]
        ring
      rw [hsum, Nat.add_mul_mod_self_left]
      exact Nat.mod_eq_of_modEq hyn hx
    · have hy : y = start := Nat.modEq_zero_iff.mp hys
      refine ⟨0, ?_⟩
      rw [Nat.zero_mul, Nat.add_zero, ← hy]
      exact Nat.mod_eq_of_modEq hyn hx

variable {σ ω : Type*} {turn : σ → Turn σ ω} {n s : ℕ}

/-- A machine that goes round a circle in strides, and leaves at the numbers that stop
    it, has a result when one of these is congruent to the start. -/
theorem returns_iff_of_stride (P : σ → Prop) (pos : σ → ℕ) {stop : ℕ → Prop}
    (hexit : ∀ st, P st → stop (pos st) → ∃ w, turn st = .exit w)
    (hgo : ∀ st, P st → ¬ stop (pos st) → ∃ st', turn st = .go st' ∧ P st' ∧ pos st' = (pos st + s) % n)
    {st : σ} (hst : P st) (hpos : pos st < n) :
    (∃ w, Returns turn st w) ↔ ∃ x < n, x ≡ pos st [MOD s.gcd n] ∧ stop x := by
  constructor
  · rintro ⟨w, turns, hrun⟩
    induction turns generalizing st with
    | zero => cases hrun
    | succ turns ih =>
      by_cases hstop : stop (pos st)
      · exact ⟨pos st, hpos, rfl, hstop⟩
      · obtain ⟨st', hturn, hst', hpos'⟩ := hgo st hst hstop
        have hn : 0 < n := Nat.zero_lt_of_lt hpos
        obtain ⟨x, hx, hmod, hstop'⟩ := ih hst' (hpos' ▸ Nat.mod_lt _ hn) (run_of_goes hturn turns ▸ hrun)
        refine ⟨x, hx, hmod.trans ?_, hstop'⟩
        exact (exists_stride_iff (hpos' ▸ Nat.mod_lt _ hn)).mp ⟨1, by rw [hpos', Nat.one_mul]⟩
  · rintro ⟨x, hx, hmod, hstop⟩
    obtain ⟨k, hk⟩ := (exists_stride_iff hx).mpr hmod
    clear hmod
    induction k generalizing st with
    | zero =>
      rw [Nat.zero_mul, Nat.add_zero, Nat.mod_eq_of_lt hpos] at hk
      obtain ⟨w, hturn⟩ := hexit st hst (hk ▸ hstop)
      exact ⟨w, returns_of_exit hturn⟩
    | succ k ih =>
      by_cases hnow : stop (pos st)
      · obtain ⟨w, hturn⟩ := hexit st hst hnow
        exact ⟨w, returns_of_exit hturn⟩
      · obtain ⟨st', hturn, hst', hpos'⟩ := hgo st hst hnow
        have hk' : (pos st' + k * s) % n = x := by
          rw [← hk, hpos', Nat.mod_add_mod, Nat.succ_mul, Nat.add_assoc, Nat.add_comm s]
        obtain ⟨w, hw⟩ := ih hst' (hpos' ▸ Nat.mod_lt _ (Nat.zero_lt_of_lt hpos)) hk'
        exact ⟨w, (returns_go hturn).mpr hw⟩

end Machine

end Yap
