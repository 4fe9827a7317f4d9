-- SUMMARY: ord_list_to_rbtree/2 of library(rbtrees) with the height computed by doubles, for every list in memory.
import Yap.Base.Doubles
import Yap.Library.Rbtrees.Maps

/-!
# Heights computed by doubles

`Height is truncate(log(L)/log(2))` is computed with doubles: the logarithm of
a power of two divided by that of two may be rounded below the exponent, and
that of the number below a power of two to the exponent. Neither happens for the
lengths of lists that memory can hold.
-/

namespace Yap

namespace Rbtrees

open Doubles

variable {α β : Type*}

/-- The logarithm of the C library and the division of the machine, rounded to nearest. -/
structure Floats where
  log : ℝ → ℝ
  div : ℝ → ℝ → ℝ
  log_nearest : ∀ x, 0 < x → IsNearest (Real.log x) (log x)
  div_nearest : ∀ x y, y ≠ 0 → |x / y| ≤ 2 ^ 1023 → IsNearest (x / y) (div x y)

/-- A list of entries in memory: a pair of two cells for each entry, the entry of
three cells, and the argument of `seq` for it; cells have 8 bytes, and addresses 48 bits. -/
structure StoredList (α β : Type*) where
  entries : List (α × β)
  fits : entries.length * (6 * 8) < 2 ^ 48

local instance atLeastTwo_two : Nat.AtLeastTwo 2 := ⟨le_rfl⟩

/-- `truncate(log(L)/log(2))`; a length in memory is a double. -/
noncomputable def height (fl : Floats) (l : ℕ) : ℤ := ⌊fl.div (fl.log l) (fl.log 2)⌋

/-- `ord_list_to_rbtree/2`. -/
noncomputable def ordListToRbtreeFl (fl : Floats) (list : List (α × β)) : Option (Tree α β) :=
  if list = [] then some .nil
  else if list.length = 1 then (list[0]?).map fun e => .black .nil e.1 e.2 .nil
  else constructRbtree list 1 list.length (height fl list.length)

-- ---------------------------------------------------------------------------
-- The logarithm of two
-- ---------------------------------------------------------------------------

/-- The double nearest to the logarithm of two, in units of `2 ^ -53`. -/
def logTwoUnits : ℤ := 6243314768165359

theorem log_two_bounds :
    (logTwoUnits + 0.2088) / 2 ^ 53 < Real.log 2 ∧ Real.log 2 < (logTwoUnits + 0.2089) / 2 ^ 53 := by
  have hsum := Real.abs_log_sub_add_sum_range_le (x := 1 / 2) (by norm_num [abs_of_pos]) 70
  have hlog : Real.log (1 - 1 / 2) = -Real.log 2 := by
    rw [← Real.log_inv]
    norm_num
  rw [hlog, abs_of_pos (by norm_num : (0 : ℝ) < 1 / 2), abs_le] at hsum
  norm_num [Finset.sum_range_succ] at hsum
  constructor <;> norm_num [logTwoUnits] <;> linarith [hsum.1, hsum.2]

theorem logTwoUnits_eq : (logTwoUnits : ℝ) = 6243314768165359 := by norm_num [logTwoUnits]

theorem log_two_eq (fl : Floats) : fl.log 2 = logTwoUnits / 2 ^ 53 := by
  have hnear := fl.log_nearest 2 two_pos
  obtain ⟨hlo, hhi⟩ := log_two_bounds
  rw [logTwoUnits_eq] at hlo hhi
  have hhalf : (2 : ℝ) ^ (-1 : ℤ) = 1 / 2 := by norm_num
  -- the double is within half a unit, and a multiple of the unit
  have herr := abs_le.mp (hnear.abs_sub_le (i := -1) (by norm_num) (by norm_num)
    (by rw [hhalf]; linarith) (by norm_num; linarith))
  norm_num at herr
  obtain ⟨n, hn⟩ := exists_grid (j := -1) hnear.mem (by
    rw [hhalf, abs_of_pos (by linarith)]
    linarith)
  norm_num at hn
  have hunits : n = logTwoUnits := by
    have hlt : (n : ℝ) < logTwoUnits + 1 := by
      rw [logTwoUnits_eq]
      rw [hn] at herr
      linarith
    have hgt : (logTwoUnits : ℝ) - 1 < n := by
      rw [logTwoUnits_eq]
      rw [hn] at herr
      linarith
    have hlt' : n < logTwoUnits + 1 := by exact_mod_cast hlt
    have hgt' : logTwoUnits - 1 < n := by exact_mod_cast hgt
    omega
  rw [hn, hunits]
  norm_num
  ring

-- ---------------------------------------------------------------------------
-- The height of a tree
-- ---------------------------------------------------------------------------

/-- The logarithms of the C library and of the reals, in units of the last bit of the former. -/
theorem log_bounds {n k : ℕ} (hn : 2 ^ k ≤ n) :
    (k : ℝ) * (6243314768165359 + 0.2088) / 2 ^ 53 ≤ k * Real.log 2 ∧ k * Real.log 2 ≤ Real.log n := by
  constructor
  · have hlo := log_two_bounds.1.le
    rw [logTwoUnits_eq] at hlo
    rw [mul_div_assoc]
    exact mul_le_mul_of_nonneg_left hlo (Nat.cast_nonneg k)
  · rw [← Real.log_pow]
    exact Real.log_le_log (by positivity) (by exact_mod_cast hn)

theorem zpow_natCast_sub (j n : ℕ) : (2 : ℝ) ^ ((j : ℤ) - n) = 2 ^ j / 2 ^ n := by
  rw [zpow_sub₀ two_ne_zero, zpow_natCast, zpow_natCast]

/-- No exponent up to 42 is as much above a power of two as the rounding of a quotient would need. -/
theorem exponent_not_between :
    ∀ j < 6, ∀ k < 43, ¬ (14426 * 2 ^ j ≤ 10000 * k ∧ 10000 * k ≤ 14697 * 2 ^ j) := by decide

/-- The quotient of the logarithms, as the machine divides. -/
theorem quotient_nearest (fl : Floats) {n : ℕ} (hle : fl.log n ≤ 64) (hge : 0 ≤ fl.log n) :
    IsNearest (fl.log n / fl.log 2) (fl.div (fl.log n) (fl.log 2)) := by
  rw [log_two_eq, logTwoUnits_eq]
  refine fl.div_nearest _ _ (by norm_num) ?_
  rw [abs_of_nonneg (by positivity)]
  calc fl.log n / (6243314768165359 / 2 ^ 53)
      ≤ 2 ^ 7 := by
        rw [div_le_iff₀ (by norm_num)]
        norm_num
        linarith
    _ ≤ 2 ^ 1023 := pow_le_pow_right₀ one_le_two (by norm_num)

/-- A double below a number of the list is below it by a unit of its last bit. -/
theorem natCast_gap {q : ℝ} {k j d : ℕ} (hq : q ∈ doubles) (hlt : q < k) (hj : j ≤ 52)
    (h : 2 ^ j / 2 ^ d + 2 ^ j / 2 ^ (52 + d) ≤ (k : ℝ)) : q ≤ k - 2 ^ j / 2 ^ (52 + d) := by
  have hexp : (2 : ℝ) ^ ((j : ℤ) - d - 52) = 2 ^ j / 2 ^ (52 + d) := by
    rw [← zpow_natCast_sub]
    congr 1
    push_cast
    ring
  have hk : ((k * 2 ^ (52 + d - j) : ℤ) : ℝ) * 2 ^ ((j : ℤ) - d - 52) = k := by
    rw [hexp]
    push_cast
    have hpow : (2 : ℝ) ^ (52 + d) = 2 ^ (52 + d - j) * 2 ^ j := by
      rw [← pow_add]
      congr 1
      omega
    rw [hpow]
    field_simp
  have hsub := le_sub_of_lt (j := (j : ℤ) - d) hq (hk.symm ▸ hlt) (by rw [hk, hexp, zpow_natCast_sub]; exact h)
  rwa [hk, hexp] at hsub

theorem le_quotient (fl : Floats) {n k j : ℕ} (hj : 2 ^ j ≤ k) (hj' : k < 2 ^ (j + 1)) (hk : k ≤ 42)
    (hn : 2 ^ k ≤ n) (hq : IsNearest (fl.log n / fl.log 2) (fl.div (fl.log n) (fl.log 2))) :
    (k : ℝ) ≤ fl.div (fl.log n) (fl.log 2) := by
  have hn0 : 0 < n := (Nat.two_pow_pos k).trans_le hn
  have hlog := fl.log_nearest n (by exact_mod_cast hn0)
  obtain ⟨hlo, hle⟩ := log_bounds hn
  have hj6 : j < 6 := by
    by_contra h
    have := Nat.pow_le_pow_right two_pos (not_lt.mp h)
    omega
  have hjk : (2 : ℝ) ^ j ≤ k := by exact_mod_cast hj
  have hkj : (k : ℝ) < 2 * 2 ^ j := by
    rw [pow_succ'] at hj'
    exact_mod_cast hj'
  have hpos : (1 : ℝ) ≤ 2 ^ j := one_le_pow₀ one_le_two
  have hkd : (k : ℝ) ∈ doubles := natCast_mem_doubles (hk.trans_lt (by norm_num))
  rw [log_two_eq, logTwoUnits_eq] at hq ⊢
  have hhi : k * Real.log 2 ≤ k * 0.6931472 :=
    mul_le_mul_of_nonneg_left (by linarith [Real.log_two_lt_d9]) (Nat.cast_nonneg k)
  by_contra hlt
  rw [not_le] at hlt
  have hmiddle := hq.le_middle hkd hlt
  rw [div_le_iff₀ (by norm_num)] at hmiddle
  by_cases hcase : (k : ℝ) * Real.log 2 < 2 ^ j
  · -- the logarithm has a smaller exponent than `k`: its error is less than the gap below `k`
    have hunit : (2 : ℝ) ^ ((j : ℤ) - 1 - 53) = 2 ^ j / 2 ^ 54 := by
      rw [← zpow_natCast_sub]
      congr 1
      push_cast
      ring
    have hbelow : fl.log n ≥ k * Real.log 2 - 2 ^ j / 2 ^ 54 := by
      rw [← hunit]
      refine hlog.sub_le (by omega) (by omega) ?_ ?_ hle
      · have hexp : (2 : ℝ) ^ ((j : ℤ) - 1) = 2 ^ j / 2 := by
          have := zpow_natCast_sub j 1
          norm_num at this ⊢
          exact this
        rw [hexp]
        nlinarith [Real.log_two_gt_d9]
      · rw [sub_add_cancel, zpow_natCast]
        exact hcase
    have hgap : fl.div (fl.log n) (6243314768165359 / 2 ^ 53) ≤ k - 2 ^ j / 2 ^ 53 := by
      refine natCast_gap (d := 1) hq.mem hlt (by omega) ?_
      norm_num
      linarith
    linarith
  · rw [not_lt] at hcase
    have hunit : (2 : ℝ) ^ ((j : ℤ) - 53) = 2 ^ j / 2 ^ 53 := zpow_natCast_sub j 53
    have hbelow : fl.log n ≥ k * Real.log 2 - 2 ^ j / 2 ^ 53 := by
      rw [← hunit]
      refine hlog.sub_le (by omega) (by omega) ?_ ?_ hle
      · rw [zpow_natCast]
        exact hcase
      · rw [zpow_add_one₀ two_ne_zero, zpow_natCast]
        linarith
    have hgap : fl.div (fl.log n) (6243314768165359 / 2 ^ 53) ≤ k - 2 ^ j / 2 ^ 52 := by
      refine natCast_gap (d := 0) hq.mem hlt (by omega) ?_
      norm_num
      linarith
    -- `k` would be between two multiples of the power of two that no number is between
    refine exponent_not_between j hj6 k (by omega) ⟨?_, ?_⟩
    · have h : (14426 * 2 ^ j : ℝ) ≤ 10000 * k := by linarith
      exact_mod_cast h
    · have h : (10000 * k : ℝ) ≤ 14697 * 2 ^ j := by linarith
      exact_mod_cast h

/-- Below a power of two, the logarithm is below a multiple of that of two by more than the errors. -/
theorem log_le_sub {n k : ℕ} (hn : 0 < n) (hlt : n < 2 ^ (k + 1)) (hk : k ≤ 42) :
    Real.log n ≤ (k + 1) * Real.log 2 - 1 / 2 ^ 43 := by
  have hpow : (0 : ℝ) < 2 ^ (k + 1) := by positivity
  have hn0 : (0 : ℝ) < n := by exact_mod_cast hn
  have hratio := Real.log_le_sub_one_of_pos (div_pos hn0 hpow)
  rw [Real.log_div hn0.ne' hpow.ne', Real.log_pow] at hratio
  push_cast at hratio
  have hstep : (n : ℝ) + 1 ≤ 2 ^ (k + 1) := by exact_mod_cast hlt
  have hle : (n : ℝ) / 2 ^ (k + 1) ≤ 1 - 1 / 2 ^ (k + 1) := by
    rw [div_le_iff₀ hpow, sub_mul, div_mul_cancel₀ _ hpow.ne']
    linarith
  have hunit : (1 : ℝ) / 2 ^ 43 ≤ 1 / 2 ^ (k + 1) :=
    one_div_le_one_div_of_le hpow (pow_le_pow_right₀ one_le_two (by omega))
  linarith

theorem abs_log_sub_le (fl : Floats) {n : ℕ} (hn : 2 ≤ n) (hlt : n < 2 ^ 43) :
    |Real.log n - fl.log n| ≤ 1 / 2 ^ 49 := by
  have hn0 : 0 < n := by omega
  have hlog := fl.log_nearest n (by exact_mod_cast hn0)
  have hlo := (log_bounds (k := 1) (by simpa using hn))
  have hhi := log_le_sub hn0 (k := 42) hlt le_rfl
  norm_num at hlo
  have hpos : 0 < Real.log n := by linarith [hlo.1, hlo.2]
  -- the exponent of the logarithm
  have hle := Int.zpow_log_le_self one_lt_two hpos
  have hgt := Int.lt_zpow_succ_log_self one_lt_two (Real.log n)
  push_cast at hle hgt
  generalize Int.log 2 (Real.log n) = i at hle hgt
  have hi : i < 5 := by
    refine (zpow_lt_zpow_iff_right₀ (one_lt_two (α := ℝ))).mp (hle.trans_lt ?_)
    norm_num
    push_cast at hhi
    linarith [Real.log_two_lt_d9]
  have hi' : -1 < i + 1 := by
    refine (zpow_lt_zpow_iff_right₀ (one_lt_two (α := ℝ))).mp (lt_trans ?_ hgt)
    norm_num
    linarith [hlo.1, hlo.2]
  refine (hlog.abs_sub_le (by omega) (by omega) hle hgt).trans ?_
  calc (2 : ℝ) ^ (i - 53) ≤ 2 ^ (-49 : ℤ) := zpow_le_zpow_right₀ one_le_two (by omega)
    _ = 1 / 2 ^ 49 := by norm_num

theorem quotient_lt (fl : Floats) {n k : ℕ} (hn : 2 ≤ n) (hlt : n < 2 ^ (k + 1)) (hk : k ≤ 42)
    (hq : IsNearest (fl.log n / fl.log 2) (fl.div (fl.log n) (fl.log 2))) :
    fl.div (fl.log n) (fl.log 2) < k + 1 := by
  have hlt43 : n < 2 ^ 43 := hlt.trans_le (Nat.pow_le_pow_right two_pos (by omega))
  have herr := abs_le.mp (abs_log_sub_le fl hn hlt43)
  have hlog := log_le_sub (by omega) hlt hk
  have htwo := mul_le_mul_of_nonneg_left log_two_bounds.2.le (Nat.cast_nonneg (k + 1))
  rw [logTwoUnits_eq] at htwo
  push_cast at htwo
  have hk' : (k : ℝ) ≤ 42 := by exact_mod_cast hk
  rw [log_two_eq, logTwoUnits_eq] at hq ⊢
  have hmem : ((k : ℝ) + 1 - 1 / 2 ^ 44) ∈ doubles := by
    refine ⟨(k + 1) * 2 ^ 44 - 1, -44, ?_, by norm_num, by norm_num, ?_⟩
    · rw [abs_of_nonneg (by omega)]
      omega
    · push_cast
      norm_num
      ring
  have hle := hq.le_of_le hmem (by
    rw [div_le_iff₀ (by norm_num)]
    linarith [herr.1])
  linarith

/-- The computed height is the integer part of the logarithm. -/
theorem height_eq (fl : Floats) {n : ℕ} (hn : 2 ≤ n) (hlt : n < 2 ^ 43) : height fl n = Nat.log 2 n := by
  have hn0 : n ≠ 0 := by omega
  have hlow := Nat.pow_log_le_self 2 hn0
  have hhigh := Nat.lt_pow_succ_log_self one_lt_two n
  have hk : Nat.log 2 n ≤ 42 := Nat.lt_succ_iff.mp (Nat.log_lt_of_lt_pow hn0 hlt)
  have hpos : Nat.log 2 n ≠ 0 := (Nat.log_pos one_lt_two hn).ne'
  have herr := abs_le.mp (abs_log_sub_le fl hn hlt)
  have hlo := log_bounds (k := 1) (by simpa using hn)
  have hhi := log_le_sub (by omega) (k := 42) hlt le_rfl
  norm_num at hlo hhi herr
  have hquot := quotient_nearest fl (n := n) (by linarith [Real.log_two_lt_d9]) (by linarith [hlo.1, hlo.2])
  rw [height, Int.floor_eq_iff]
  constructor
  · exact_mod_cast le_quotient fl (Nat.pow_log_le_self 2 hpos) (Nat.lt_pow_succ_log_self one_lt_two _) hk hlow hquot
  · exact_mod_cast quotient_lt fl hn hhigh hk hquot

-- ---------------------------------------------------------------------------
-- Trees of lists in memory
-- ---------------------------------------------------------------------------

theorem ordListToRbtreeFl_eq (fl : Floats) (list : List (α × β)) (h : list.length < 2 ^ 43) :
    ordListToRbtreeFl fl list = ordListToRbtree list := by
  unfold ordListToRbtreeFl ordListToRbtree
  by_cases hnil : list = []
  · rw [if_pos hnil, if_pos hnil]
  · by_cases hone : list.length = 1
    · rw [if_neg hnil, if_neg hnil, if_pos hone, if_pos hone]
    · have hlen : 2 ≤ list.length := by
        have := List.length_pos_iff.mpr hnil
        omega
      rw [if_neg hnil, if_neg hnil, if_neg hone, if_neg hone, height_eq fl hlen h]

theorem div_choose_nearest (x y : ℝ) (_ : y ≠ 0) (_ : |x / y| ≤ 2 ^ 1023) :
    IsNearest (x / y) (exists_isNearest (x / y)).choose := (exists_isNearest (x / y)).choose_spec

/-- Functions that give a nearest double everywhere. -/
noncomputable def nearestFloats : Floats where
  log x := (exists_isNearest (Real.log x)).choose
  div x y := (exists_isNearest (x / y)).choose
  log_nearest x _ := (exists_isNearest (Real.log x)).choose_spec
  div_nearest := div_choose_nearest

def storedFour : StoredList ℕ Char := ⟨[(1, 'a'), (2, 'b'), (3, 'c'), (4, 'd')], by decide⟩

end Rbtrees

end Yap
