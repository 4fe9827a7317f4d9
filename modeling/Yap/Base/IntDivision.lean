-- SUMMARY: Floored and truncated division of integers: what characterises them, and when one can be computed by the other.
import Mathlib

/-!
# Integer division

`Int.fdiv` and `Int.fmod` round towards minus infinity, `Int.tdiv` and `Int.tmod`
towards zero.
-/

namespace IntDivision

/-- `q` and `m` are the quotient and the modulus of the division that rounds down. -/
structure IsFloored (x y q m : ℤ) : Prop where
  quotient : q = ⌊(x : ℚ) / y⌋
  modulus : m = x - y * ⌊(x : ℚ) / y⌋
  identity : x = y * q + m
  sign : m = 0 ∨ m.sign = y.sign

/-- `q` and `r` are the quotient and the remainder of the division that rounds
    towards zero. -/
structure IsTruncated (x y q r : ℤ) : Prop where
  quotient : q = if 0 ≤ (x : ℚ) / y then ⌊(x : ℚ) / y⌋ else ⌈(x : ℚ) / y⌉
  remainder : r = x - y * q
  small : |r| < |y|
  sign : r = 0 ∨ r.sign = x.sign

theorem floor_div (x y : ℤ) : ⌊(x : ℚ) / y⌋ = x.fdiv y := by
  rcases le_or_gt 0 y with hy | hy
  · obtain ⟨d, rfl⟩ := Int.eq_ofNat_of_zero_le hy
    rw [Int.cast_natCast, Rat.floor_intCast_div_natCast, Int.fdiv_eq_ediv_of_nonneg _ hy]
  · obtain ⟨d, hd⟩ := Int.eq_ofNat_of_zero_le (Int.neg_nonneg.mpr hy.le)
    obtain rfl : y = -(d : ℤ) := by omega
    rw [Int.cast_neg, Int.cast_natCast, div_neg, ← neg_div, ← Int.cast_neg,
      Rat.floor_intCast_div_natCast, ← Int.neg_fdiv_neg, neg_neg,
      Int.fdiv_eq_ediv_of_nonneg _ (Int.natCast_nonneg d)]

/-- The modulus lies between zero and the divisor. -/
theorem fmod_bounds (x : ℤ) {y : ℤ} (hy : y ≠ 0) :
    (0 < y → 0 ≤ x.fmod y ∧ x.fmod y < y) ∧ (y < 0 → y < x.fmod y ∧ x.fmod y ≤ 0) := by
  have hlo := Int.emod_nonneg x hy
  have hhi := Int.emod_lt x hy
  rw [Int.fmod_eq_emod]
  simp only [Int.dvd_iff_emod_eq_zero]
  split <;> omega

theorem fmod_sign (x : ℤ) {y : ℤ} (hy : y ≠ 0) : x.fmod y = 0 ∨ (x.fmod y).sign = y.sign := by
  obtain ⟨hpos, hneg⟩ := fmod_bounds x hy
  by_cases hzero : x.fmod y = 0
  · exact .inl hzero
  · right
    rcases lt_or_gt_of_ne hy with h | h
    · have hm := hneg h
      rw [Int.sign_eq_neg_one_of_neg h, Int.sign_eq_neg_one_of_neg (by omega)]
    · have hm := hpos h
      rw [Int.sign_eq_one_of_pos h, Int.sign_eq_one_of_pos (by omega)]

theorem isFloored_iff {x y q m : ℤ} (hy : y ≠ 0) :
    IsFloored x y q m ↔ q = x.fdiv y ∧ m = x.fmod y := by
  have hmod : x - y * x.fdiv y = x.fmod y := (Int.fmod_def x y).symm
  constructor
  · intro h
    exact ⟨by rw [h.quotient, floor_div], by rw [h.modulus, floor_div, hmod]⟩
  · rintro ⟨rfl, rfl⟩
    exact ⟨(floor_div x y).symm, by rw [floor_div, hmod], (Int.mul_fdiv_add_fmod x y).symm,
      fmod_sign x hy⟩

/-- The two quotients of an inexact division differ by one when the signs of the
    operands do. -/
theorem tdiv_of_not_dvd {x y : ℤ} (hy : y ≠ 0) (h : ¬ y ∣ x) :
    x.tdiv y = x.fdiv y + if 0 ≤ x ↔ 0 ≤ y then 0 else 1 := by
  have hneg : y < 0 → y.sign = -1 := Int.sign_eq_neg_one_of_neg
  have hpos : 0 < y → y.sign = 1 := Int.sign_eq_one_of_pos
  rw [Int.tdiv_eq_fdiv]
  simp only [h, if_false]
  split <;> split <;> split <;> omega

/-- Truncation rounds down or up by one. -/
theorem tdiv_close (x : ℤ) {y : ℤ} (hy : y ≠ 0) :
    x.fdiv y ≤ x.tdiv y ∧ x.tdiv y ≤ x.fdiv y + 1 := by
  by_cases hdvd : y ∣ x
  · simp [hdvd, Int.tdiv_eq_fdiv]
  · rw [tdiv_of_not_dvd hy hdvd]
    split <;> omega

/-- Truncated division is floored division of the magnitudes. -/
theorem tdiv_floor (x : ℤ) {y : ℤ} (hy : y ≠ 0) :
    x.tdiv y = if 0 ≤ (x : ℚ) / y then ⌊(x : ℚ) / y⌋ else ⌈(x : ℚ) / y⌉ := by
  have hnonneg : 0 ≤ (x : ℚ) / y ↔ 0 ≤ x ∧ 0 ≤ y ∨ x ≤ 0 ∧ y ≤ 0 := by
    rw [div_nonneg_iff]
    norm_cast
  have hceil : ⌈(x : ℚ) / y⌉ = -(-x).fdiv y := by
    rw [← floor_div, ← Int.ceil_neg, Int.cast_neg, neg_div, neg_neg]
  rw [hceil, floor_div, Int.neg_fdiv]
  simp only [hnonneg]
  by_cases hdvd : y ∣ x
  · simp [hdvd, Int.tdiv_eq_fdiv]
  · have hx : x ≠ 0 := fun h => hdvd (h ▸ dvd_zero y)
    rw [tdiv_of_not_dvd hy hdvd]
    simp only [hdvd, hy, or_false, if_false]
    split <;> split <;> omega

/-- The remainder is smaller than the divisor and has the sign of the dividend. -/
theorem tmod_bounds (x : ℤ) {y : ℤ} (hy : y ≠ 0) :
    |x.tmod y| < |y| ∧ (x.tmod y = 0 ∨ (x.tmod y).sign = x.sign) := by
  constructor
  · rw [Int.abs_eq_natAbs, Int.abs_eq_natAbs, Int.natAbs_tmod]
    exact_mod_cast Nat.mod_lt _ (Int.natAbs_pos.mpr hy)
  · rw [Int.sign_tmod]
    by_cases hdvd : y ∣ x
    · exact .inl (Int.tmod_eq_zero_of_dvd hdvd)
    · exact .inr (if_neg hdvd)

theorem isTruncated_iff {x y q r : ℤ} (hy : y ≠ 0) :
    IsTruncated x y q r ↔ q = x.tdiv y ∧ r = x.tmod y := by
  have hrem : x - y * x.tdiv y = x.tmod y := (Int.tmod_def x y).symm
  constructor
  · intro h
    have hq : q = x.tdiv y := by rw [h.quotient, tdiv_floor x hy]
    exact ⟨hq, by rw [h.remainder, hq, hrem]⟩
  · rintro ⟨rfl, rfl⟩
    obtain ⟨hsmall, hsign⟩ := tmod_bounds x hy
    exact ⟨tdiv_floor x hy, hrem.symm, hsmall, hsign⟩

/-- The remainder of C is brought to the sign of the divisor by adding it once. -/
theorem fmod_of_tmod (x : ℤ) {y : ℤ} (hy : y ≠ 0) :
    x.fmod y = if x.tmod y ≠ 0 ∧ (x.tmod y < 0 ↔ 0 < y) then x.tmod y + y else x.tmod y := by
  have hlo := Int.emod_nonneg x hy
  have hhi := Int.emod_lt x hy
  rw [Int.tmod_eq_emod, Int.fmod_eq_emod]
  simp only [Int.dvd_iff_emod_eq_zero]
  split <;> split <;> split <;> omega

/-- Floored and truncated quotients agree on operands of one sign and on exact
    divisions. -/
theorem fdiv_eq_tdiv_iff {x y : ℤ} (hy : y ≠ 0) :
    x.fdiv y = x.tdiv y ↔ (0 ≤ x ↔ 0 ≤ y) ∨ y ∣ x := by
  by_cases hdvd : y ∣ x
  · simp [hdvd, Int.fdiv_eq_tdiv]
  · rw [tdiv_of_not_dvd hy hdvd]
    simp only [hdvd, or_false]
    split <;> omega

/-- Negating the divisor and the floored quotient rounds up. -/
theorem neg_fdiv_neg_eq {x y : ℤ} (hy : y ≠ 0) :
    -x.fdiv (-y) = x.fdiv y + if y ∣ x then 0 else 1 := by
  rw [Int.fdiv_neg hy]
  split <;> omega

/-- A multiple of the divisor is divided exactly. -/
theorem sub_fmod_tdiv (x : ℤ) {y : ℤ} (hy : y ≠ 0) : (x - x.fmod y).tdiv y = x.fdiv y := by
  rw [← Int.mul_fdiv_self, Int.mul_tdiv_cancel_left _ hy]

/-- A quotient of magnitude less than one rounds down to zero or to minus one. -/
theorem fdiv_of_lt {x y : ℤ} (h : |x| < |y|) :
    x.fdiv y = if x = 0 ∨ (0 < x ↔ 0 < y) then 0 else -1 := by
  have habs : x.natAbs < y.natAbs := by
    rwa [Int.abs_eq_natAbs, Int.abs_eq_natAbs, Nat.cast_lt] at h
  have hquot : x.tdiv y = 0 := by
    rw [← Int.sign_eq_zero_iff_zero, Int.sign_tdiv, if_pos habs]
  by_cases hdvd : y ∣ x
  · simp [Int.eq_zero_of_dvd_of_natAbs_lt_natAbs hdvd habs]
  · have hx : x ≠ 0 := fun hx => hdvd (hx ▸ dvd_zero y)
    have hy : y ≠ 0 := by omega
    have hround := tdiv_of_not_dvd hy hdvd
    rw [hquot] at hround
    simp only [hx, false_or]
    split <;> split at hround <;> omega

end IntDivision
