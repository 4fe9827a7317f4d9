-- SUMMARY: Rounding of real numbers to the nearest double: the grid of doubles of a magnitude, and bounds on the error.
import Mathlib

/-!
# Nearest doubles

The finite doubles as a set of real numbers. A function that is rounded
correctly gives a double nearest to the exact result; how ties are resolved does
not matter here.
-/

/-- The values of the finite doubles. -/
def doubles : Set ℝ := {x | ∃ m e : ℤ, |m| < 2 ^ 53 ∧ -1074 ≤ e ∧ e ≤ 971 ∧ x = m * 2 ^ e}

namespace Doubles

/-- A double that no other double is nearer to the number than. -/
structure IsNearest (x y : ℝ) : Prop where
  mem : y ∈ doubles
  le : ∀ z ∈ doubles, |x - y| ≤ |x - z|

-- ---------------------------------------------------------------------------
-- The grid of a magnitude
-- ---------------------------------------------------------------------------

theorem two_zpow_pos (e : ℤ) : (0 : ℝ) < 2 ^ e := zpow_pos two_pos e

theorem mem_doubles {m e : ℤ} (hm : |m| ≤ 2 ^ 53) (he : -1074 ≤ e) (he' : e < 971) :
    (m * 2 ^ e : ℝ) ∈ doubles := by
  rcases hm.lt_or_eq with hlt | heq
  · exact ⟨m, e, hlt, he, he'.le, rfl⟩
  · -- the bound itself is a double with a greater exponent
    have hpow : (2 : ℝ) ^ (e + 1) = 2 ^ e * 2 := zpow_add_one₀ two_ne_zero e
    rcases (abs_eq (by positivity)).mp heq with rfl | rfl
    · refine ⟨2 ^ 52, e + 1, by norm_num, by omega, by omega, ?_⟩
      rw [hpow]
      push_cast
      ring
    · refine ⟨-2 ^ 52, e + 1, by norm_num, by omega, by omega, ?_⟩
      rw [hpow]
      push_cast
      ring

theorem natCast_mem_doubles {n : ℕ} (h : n < 2 ^ 53) : (n : ℝ) ∈ doubles := by
  refine ⟨n, 0, ?_, by omega, by omega, by simp⟩
  rw [abs_of_nonneg (Int.natCast_nonneg n)]
  exact_mod_cast h

/-- A double of a magnitude is a multiple of the unit of its last bit. -/
theorem exists_grid {y : ℝ} {j : ℤ} (hy : y ∈ doubles) (h : 2 ^ j ≤ |y|) : ∃ n : ℤ, y = n * 2 ^ (j - 52) := by
  obtain ⟨m, e, hm, -, -, rfl⟩ := hy
  have hexp : j - 52 ≤ e := by
    have hmlt : |(m : ℝ)| < 2 ^ (53 : ℤ) := by exact_mod_cast hm
    rw [abs_mul, abs_of_pos (two_zpow_pos e)] at h
    have hlt : (2 : ℝ) ^ j < 2 ^ (53 + e) := by
      rw [zpow_add₀ two_ne_zero]
      exact h.trans_lt (mul_lt_mul_of_pos_right hmlt (two_zpow_pos e))
    have hj := (zpow_lt_zpow_iff_right₀ one_lt_two).mp hlt
    omega
  obtain ⟨d, hd⟩ := Int.le.dest hexp
  refine ⟨m * 2 ^ d, ?_⟩
  rw [← hd, zpow_add₀ two_ne_zero]
  push_cast
  rw [zpow_natCast]
  ring

/-- Some double is within half a unit of the last bit. -/
theorem exists_near {x : ℝ} {i : ℤ} (hi : -1000 ≤ i) (hi' : i ≤ 1000) (hlo : 2 ^ i ≤ x) (hhi : x < 2 ^ (i + 1)) :
    ∃ z ∈ doubles, |x - z| ≤ 2 ^ (i - 53) := by
  have hu := two_zpow_pos (i - 52)
  have hhalf : (2 : ℝ) ^ (i - 52) = 2 ^ (i - 53) * 2 := by
    rw [← zpow_add_one₀ two_ne_zero]
    congr 1
    ring
  have hround := abs_sub_round (x / 2 ^ (i - 52))
  refine ⟨round (x / 2 ^ (i - 52)) * 2 ^ (i - 52), mem_doubles ?_ (by omega) (by omega), ?_⟩
  · have htop : x / 2 ^ (i - 52) < 2 ^ 53 := by
      rw [div_lt_iff₀ hu]
      refine hhi.trans_eq ?_
      rw [← zpow_natCast (2 : ℝ) 53, ← zpow_add₀ two_ne_zero]
      congr 1
      push_cast
      ring
    have hpos : 0 ≤ x / 2 ^ (i - 52) := div_nonneg ((two_zpow_pos i).le.trans hlo) hu.le
    have hge : 0 ≤ round (x / 2 ^ (i - 52)) := by
      rw [round_eq]
      exact Int.floor_nonneg.mpr (by linarith)
    rw [abs_of_nonneg hge, round_eq, ← Int.lt_add_one_iff, Int.floor_lt]
    push_cast
    linarith
  · have heq : x - round (x / 2 ^ (i - 52)) * 2 ^ (i - 52) =
        (x / 2 ^ (i - 52) - round (x / 2 ^ (i - 52))) * 2 ^ (i - 52) := by
      rw [sub_mul, div_mul_cancel₀ _ hu.ne']
    rw [heq, abs_mul, abs_of_pos hu]
    calc |x / 2 ^ (i - 52) - round (x / 2 ^ (i - 52))| * 2 ^ (i - 52)
        ≤ 1 / 2 * 2 ^ (i - 52) := mul_le_mul_of_nonneg_right hround hu.le
      _ = 2 ^ (i - 53) := by
        rw [hhalf]
        ring

-- ---------------------------------------------------------------------------
-- Nearest doubles
-- ---------------------------------------------------------------------------

theorem finite_doubles : doubles.Finite := by
  have hfin : ((Set.Icc (-2 ^ 53 : ℤ) (2 ^ 53) ×ˢ Set.Icc (-1074 : ℤ) 971).image
      fun p : ℤ × ℤ => (p.1 * 2 ^ p.2 : ℝ)).Finite := ((Set.finite_Icc _ _).prod (Set.finite_Icc _ _)).image _
  refine hfin.subset ?_
  rintro x ⟨m, e, hm, he, he', rfl⟩
  exact ⟨(m, e), ⟨⟨(abs_lt.mp hm).1.le, (abs_lt.mp hm).2.le⟩, he, he'⟩, rfl⟩

theorem exists_isNearest (x : ℝ) : ∃ y, IsNearest x y := by
  obtain ⟨y, hy, hle⟩ := Set.exists_min_image doubles (fun z => |x - z|) finite_doubles
    ⟨_, natCast_mem_doubles (n := 0) (by norm_num)⟩
  exact ⟨y, hy, hle⟩

variable {x y : ℝ}

theorem IsNearest.abs_sub_le {i : ℤ} (h : IsNearest x y) (hi : -1000 ≤ i) (hi' : i ≤ 1000) (hlo : 2 ^ i ≤ x)
    (hhi : x < 2 ^ (i + 1)) : |x - y| ≤ 2 ^ (i - 53) := by
  obtain ⟨z, hz, hle⟩ := exists_near hi hi' hlo hhi
  exact (h.le z hz).trans hle

/-- Between two doubles, a number rounded to the lower one is not above their middle. -/
theorem IsNearest.le_middle {z : ℝ} (h : IsNearest x y) (hz : z ∈ doubles) (hlt : y < z) : x ≤ (y + z) / 2 := by
  have hdist := h.le z hz
  by_contra hgt
  rw [not_le] at hgt
  rw [abs_of_pos (by linarith)] at hdist
  rcases abs_cases (x - z) with ⟨heq, -⟩ | ⟨heq, -⟩ <;> rw [heq] at hdist <;> linarith

/-- What is not below a number is not rounded further down than the number may be. -/
theorem IsNearest.sub_le {i : ℤ} {x₀ : ℝ} (h : IsNearest x y) (hi : -1000 ≤ i) (hi' : i ≤ 1000)
    (hlo : 2 ^ i ≤ x₀) (hhi : x₀ < 2 ^ (i + 1)) (hle : x₀ ≤ x) : x₀ - 2 ^ (i - 53) ≤ y := by
  obtain ⟨z, hz, hnear⟩ := exists_near hi hi' hlo hhi
  obtain ⟨hz1, hz2⟩ := abs_le.mp hnear
  by_contra hlt
  rw [not_le] at hlt
  have hmiddle := h.le_middle hz (by linarith)
  linarith

/-- A number below a double is not rounded above it. -/
theorem IsNearest.le_of_le {z : ℝ} (h : IsNearest x y) (hz : z ∈ doubles) (hle : x ≤ z) : y ≤ z := by
  by_contra hlt
  rw [not_le] at hlt
  have hdist := h.le z hz
  rw [abs_of_neg (by linarith), abs_of_nonpos (by linarith)] at hdist
  linarith

/-- A double below a multiple of the unit of its last bit is below it by that unit. -/
theorem le_sub_of_lt {y : ℝ} {j m : ℤ} (hy : y ∈ doubles) (hlt : y < m * 2 ^ (j - 52))
    (h : 2 ^ j + 2 ^ (j - 52) ≤ (m * 2 ^ (j - 52) : ℝ)) : y ≤ m * 2 ^ (j - 52) - 2 ^ (j - 52) := by
  have hu := two_zpow_pos (j - 52)
  by_cases hj : 2 ^ j ≤ |y|
  · obtain ⟨n, rfl⟩ := exists_grid hy hj
    have hnm : n + 1 ≤ m := by exact_mod_cast lt_of_mul_lt_mul_right hlt hu.le
    have hcast : (n : ℝ) + 1 ≤ m := by exact_mod_cast hnm
    have hmul := mul_le_mul_of_nonneg_right hcast hu.le
    linarith
  · rw [not_le] at hj
    have := le_abs_self y
    linarith

end Doubles
