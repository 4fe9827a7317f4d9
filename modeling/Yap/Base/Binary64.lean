-- SUMMARY: IEEE 754 double-precision numbers as sign and magnitude bits: values, rounding, the arithmetic of exact results, and the sign of a difference.
import Yap.Base.Word

/-!
# Double-precision numbers

A double is its sign bit and the 63 bits below it, the exponent field above the
fraction field. Finite values are counted in units of `2 ^ -1074`, the least
subnormal number, so that every sum, difference and product of doubles is an
exact quotient of integers before it is rounded.
-/

/-- A double: the sign bit and the 63 magnitude bits. -/
structure Binary64 where
  neg : Bool
  mag : ℕ
  mag_lt : mag < 2 ^ 63
deriving DecidableEq

namespace Binary64

/-- The magnitude bits of an infinity; every magnitude above is a NaN. -/
def infMag : ℕ := 2047 * 2 ^ 52

def isNaN (x : Binary64) : Bool := infMag < x.mag

def isInf (x : Binary64) : Bool := x.mag = infMag

def isFinite (x : Binary64) : Bool := x.mag < infMag

def zero : Binary64 := ⟨false, 0, by decide⟩

/-- The default quiet NaN. -/
def nan : Binary64 := ⟨false, infMag + 2 ^ 51, by decide⟩

def negate (x : Binary64) : Binary64 := { x with neg := !x.neg }

/-! ## Values -/

/-- The value of finite magnitude bits, in units of `2 ^ -1074`. -/
def units (m : ℕ) : ℕ :=
  if m < 2 ^ 52 then m else (2 ^ 52 + m % 2 ^ 52) * 2 ^ (m / 2 ^ 52 - 1)

/-- The signed value of a finite double, in units of `2 ^ -1074`. -/
def signedUnits (x : Binary64) : ℤ := if x.neg then -(units x.mag : ℤ) else units x.mag

/-- The magnitude bits with the sign bit as their sign. Doubles that are not
    NaN compare as these integers do. -/
def key (x : Binary64) : ℤ := if x.neg then -(x.mag : ℤ) else x.mag

/-- A total order on the bits: the numerical order on numbers, with `-0.0` before
    `0.0`, and every NaN above or below all numbers. -/
def totalKey (x : Binary64) : ℤ := if x.neg then -(x.mag : ℤ) - 1 else x.mag

theorem totalKey_inj {x y : Binary64} : totalKey x = totalKey y ↔ x = y := by
  constructor
  · intro h
    obtain ⟨xn, xm, _⟩ := x
    obtain ⟨yn, ym, _⟩ := y
    unfold totalKey at h
    cases xn <;> cases yn <;> simp at h ⊢ <;> omega
  · rintro rfl
    rfl

/-- Doubles that are not the two zeros have the same order by either key. -/
theorem compare_totalKey {x y : Binary64} (h : key x = key y → x = y) :
    compare (totalKey x) (totalKey y) = compare (key x) (key y) := by
  refine signOf.compare_congr ?_ (fun heq => by rw [h heq]) ?_ <;> intro hlt <;>
    unfold key totalKey at * <;> cases hx : x.neg <;> cases hy : y.neg <;>
    simp only [hx, hy, Bool.false_eq_true, if_true, if_false] at hlt ⊢ <;> omega

private theorem units_lt_succ (m : ℕ) : units m < units (m + 1) := by
  unfold units
  split
  case isTrue hlt =>
    split
    case isTrue => omega
    case isFalse h =>
      have hm : m + 1 = 2 ^ 52 := by omega
      rw [hm]; norm_num at hlt ⊢; omega
  case isFalse hge =>
    rw [if_neg (by omega)]
    have hpos : 0 < 2 ^ (m / 2 ^ 52 - 1) := Nat.two_pow_pos _
    -- either the fraction field grows, or it wraps and the exponent grows
    by_cases hfrac : m % 2 ^ 52 + 1 < 2 ^ 52
    · have hdiv : (m + 1) / 2 ^ 52 = m / 2 ^ 52 := by omega
      have hmod : (m + 1) % 2 ^ 52 = m % 2 ^ 52 + 1 := by omega
      rw [hdiv, hmod]
      exact Nat.mul_lt_mul_of_pos_right (by omega) hpos
    · have hdiv : (m + 1) / 2 ^ 52 - 1 = (m / 2 ^ 52 - 1) + 1 := by omega
      have hmod : (m + 1) % 2 ^ 52 = 0 := by omega
      have hlast : m % 2 ^ 52 = 2 ^ 52 - 1 := by omega
      rw [hdiv, hmod, hlast, pow_succ]
      calc (2 ^ 52 + (2 ^ 52 - 1)) * 2 ^ (m / 2 ^ 52 - 1)
          < (2 ^ 52 * 2) * 2 ^ (m / 2 ^ 52 - 1) :=
            Nat.mul_lt_mul_of_pos_right (by norm_num) hpos
        _ = (2 ^ 52 + 0) * (2 ^ (m / 2 ^ 52 - 1) * 2) := by ring

/-- Larger magnitude bits stand for larger values. -/
theorem units_strictMono : StrictMono units := strictMono_nat_of_lt_succ units_lt_succ

@[simp] theorem units_zero : units 0 = 0 := rfl

theorem signedUnits_lt_iff (x y : Binary64) : signedUnits x < signedUnits y ↔ key x < key y := by
  have hmono := units_strictMono.lt_iff_lt (a := x.mag) (b := y.mag)
  have hmono' := units_strictMono.lt_iff_lt (a := y.mag) (b := x.mag)
  have hx := units_strictMono.le_iff_le (a := x.mag) (b := 0)
  have hy := units_strictMono.le_iff_le (a := y.mag) (b := 0)
  simp only [units_zero] at hx hy
  unfold signedUnits key
  cases x.neg <;> cases y.neg <;> simp only [Bool.false_eq_true, if_true, if_false] <;> omega

/-! ## Rounding -/

/-- The magnitude bits of `n / d` units, rounded to nearest with ties to even.
    A carry out of the fraction field moves into the exponent field. -/
def roundMag (n d : ℕ) : ℕ :=
  let e := Nat.log2 (n / d) - 52
  let q := n / (d * 2 ^ e)
  let r := n % (d * 2 ^ e)
  let up := if d * 2 ^ e < 2 * r ∨ (2 * r = d * 2 ^ e ∧ q % 2 = 1) then 1 else 0
  min (e * 2 ^ 52 + q + up) infMag

/-- The magnitude bits of `n / d` units, rounded towards zero. -/
def truncMag (n d : ℕ) : ℕ :=
  let e := Nat.log2 (n / d) - 52
  min (e * 2 ^ 52 + n / (d * 2 ^ e)) infMag

theorem roundMag_lt (n d : ℕ) : roundMag n d < 2 ^ 63 :=
  lt_of_le_of_lt (min_le_right _ _) (by decide)

theorem truncMag_lt (n d : ℕ) : truncMag n d < 2 ^ 63 :=
  lt_of_le_of_lt (min_le_right _ _) (by decide)

theorem roundMag_le (n d : ℕ) : roundMag n d ≤ infMag := min_le_right _ _

@[simp] theorem roundMag_zero : roundMag 0 1 = 0 := by decide

/-- A nonzero number of whole units does not round to zero. -/
theorem roundMag_pos {n : ℕ} (h : 0 < n) : 0 < roundMag n 1 := by
  unfold roundMag
  simp only [Nat.div_one, one_mul]
  refine lt_min ?_ (by decide)
  by_cases he : Nat.log2 n - 52 = 0
  · rw [he]
    simp only [zero_mul, zero_add, pow_zero, Nat.div_one]
    exact Nat.add_pos_left h _
  · have hexp : 0 < (Nat.log2 n - 52) * 2 ^ 52 :=
      Nat.mul_pos (Nat.pos_of_ne_zero he) (by norm_num)
    exact Nat.add_pos_left (Nat.add_pos_left hexp _) _

/-- The double nearest to `z / d` units. -/
def roundUnits (z : ℤ) (d : ℕ) : Binary64 := ⟨z < 0, roundMag z.natAbs d, roundMag_lt _ _⟩

/-! ## Arithmetic -/

def add (x y : Binary64) : Binary64 :=
  if x.isNaN || y.isNaN then nan
  else if x.isInf then if y.isInf && x.neg != y.neg then nan else x
  else if y.isInf then y
  else if signedUnits x + signedUnits y = 0 then ⟨x.neg && y.neg, 0, by decide⟩
  else roundUnits (signedUnits x + signedUnits y) 1

def sub (x y : Binary64) : Binary64 := add x (negate y)

def mul (x y : Binary64) : Binary64 :=
  if x.isNaN || y.isNaN then nan
  else if x.isInf || y.isInf then
    if x.mag = 0 || y.mag = 0 then nan else ⟨x.neg != y.neg, infMag, by decide⟩
  else ⟨x.neg != y.neg, roundMag (units x.mag * units y.mag) (2 ^ 1074), roundMag_lt _ _⟩

/-- Conversion of an integer, to nearest. -/
def ofInt (z : ℤ) : Binary64 := roundUnits (z * 2 ^ 1074) 1

/-- Conversion of a rational number, towards zero. -/
def truncRat (q : ℚ) : Binary64 := ⟨q < 0, truncMag (q.num.natAbs * 2 ^ 1074) q.den, truncMag_lt _ _⟩

/-- The value of a finite double. -/
def toRat (x : Binary64) : ℚ := mkRat (signedUnits x) (2 ^ 1074)

/-! ## Comparison -/

/-- `x < y` of the C language: false when an operand is a NaN. -/
def lt (x y : Binary64) : Bool := !x.isNaN && !y.isNaN && decide (key x < key y)

/-- `x == y` of the C language: false when an operand is a NaN, and true of the
    two zeros. -/
def eq (x y : Binary64) : Bool := !x.isNaN && !y.isNaN && decide (key x = key y)

/-- The two operands have a difference: neither is a NaN and they are not the
    same infinity. -/
def HasDifference (x y : Binary64) : Prop :=
  x.isNaN = false ∧ y.isNaN = false ∧ ¬ (x.isInf = true ∧ x = y)

instance (x y : Binary64) : Decidable (HasDifference x y) := inferInstanceAs (Decidable (_ ∧ _))

@[simp] theorem isNaN_nan : nan.isNaN = true := by decide

@[simp] theorem key_zero : key zero = 0 := rfl

@[simp] theorem isNaN_zero : zero.isNaN = false := rfl

@[simp] theorem isNaN_negate (x : Binary64) : (negate x).isNaN = x.isNaN := rfl

@[simp] theorem isInf_negate (x : Binary64) : (negate x).isInf = x.isInf := rfl

@[simp] theorem key_negate (x : Binary64) : key (negate x) = -key x := by
  unfold key negate; cases x.neg <;> simp

@[simp] theorem signedUnits_negate (x : Binary64) : signedUnits (negate x) = -signedUnits x := by
  unfold signedUnits negate; cases x.neg <;> simp

theorem lt_iff {x y : Binary64} (hx : x.isNaN = false) (hy : y.isNaN = false) :
    lt x y = true ↔ key x < key y := by
  simp only [lt, hx, hy, Bool.not_false, Bool.true_and, decide_eq_true_eq]

theorem eq_iff {x y : Binary64} (hx : x.isNaN = false) (hy : y.isNaN = false) :
    eq x y = true ↔ key x = key y := by
  simp only [eq, hx, hy, Bool.not_false, Bool.true_and, decide_eq_true_eq]

theorem isNaN_roundUnits (z : ℤ) (d : ℕ) : (roundUnits z d).isNaN = false :=
  decide_eq_false (not_lt.mpr (roundMag_le z.natAbs d))

theorem signOf_key_roundUnits {z : ℤ} (h : z ≠ 0) : signOf (key (roundUnits z 1)) = signOf z := by
  have hpos := roundMag_pos (n := z.natAbs) (by omega)
  unfold roundUnits key
  rcases lt_or_gt_of_ne h with hz | hz
  · rw [signOf.eq_lt.mpr hz, signOf.eq_lt]; simp [hz]; omega
  · rw [signOf.eq_gt.mpr hz, signOf.eq_gt]; simp [not_lt.mpr hz.le]; omega

theorem compare_signedUnits (x y : Binary64) :
    compare (signedUnits x) (signedUnits y) = compare (key x) (key y) := by
  have hlt := signedUnits_lt_iff x y
  have hgt := signedUnits_lt_iff y x
  exact signOf.compare_congr hlt.mpr (fun h => by omega) hgt.mpr

/-- The infinite operand decides the sign of a difference. -/
private theorem signOf_key_of_isInf {x y : Binary64} (hx : x.isInf = true) (hy : y.isNaN = false)
    (hne : x ≠ y) : signOf (key x) = compare (key x) (key y) := by
  have hxm : x.mag = infMag := of_decide_eq_true hx
  have hym : y.mag ≤ infMag := not_lt.mp (of_decide_eq_false hy)
  have hpos : 0 < infMag := by decide
  -- equal magnitudes are the two infinities, which differ in sign
  have hmag : y.mag = infMag → x.neg ≠ y.neg := by
    intro hyi hneg
    exact hne (by cases x; cases y; simp_all)
  unfold key
  cases hxn : x.neg <;> cases hyn : y.neg <;> simp only [hxn, hyn] at hmag <;>
    simp only [Bool.false_eq_true, if_true, if_false] <;>
    refine signOf.eq_compare_iff ?_ ?_ ?_ <;> intro h <;> by_cases hyi : y.mag = infMag <;>
    simp_all <;> omega

/-- The difference of two doubles that have one is above zero, zero or below
    zero as the first is above, equal to or below the second: rounding keeps
    the sign, and gradual underflow leaves no nonzero difference at zero. -/
theorem signOf_key_sub {x y : Binary64} (h : HasDifference x y) :
    (sub x y).isNaN = false ∧ signOf (key (sub x y)) = compare (key x) (key y) := by
  obtain ⟨hx, hy, hinf⟩ := h
  unfold sub add
  simp only [isNaN_negate, isInf_negate, signedUnits_negate, hx, hy, Bool.or_false,
    Bool.false_eq_true, if_false]
  by_cases hxi : x.isInf = true
  · have hne : x ≠ y := fun heq => hinf ⟨hxi, heq⟩
    have hopp : (y.isInf && x.neg != (negate y).neg) = false := by
      rw [Bool.and_eq_false_iff]
      by_cases hyi : y.isInf = true
      · right
        have hxm : x.mag = infMag := of_decide_eq_true hxi
        have hym : y.mag = infMag := of_decide_eq_true hyi
        by_contra hneg
        refine hne ?_
        cases x; cases y; simp_all [negate]
      · exact .inl (by simpa using hyi)
    simp only [hxi, hopp, Bool.false_eq_true, if_true, if_false]
    exact ⟨hx, signOf_key_of_isInf hxi hy hne⟩
  · simp only [hxi]
    by_cases hyi : y.isInf = true
    · have hne : y ≠ x := fun heq => hxi (heq ▸ hyi)
      simp only [hyi, if_true, isNaN_negate, key_negate, hy, true_and, Bool.false_eq_true, if_false]
      rw [signOf.neg, signOf_key_of_isInf hyi hx hne, ← Std.OrientedCmp.eq_swap]
    · simp only [hyi, Bool.false_eq_true, if_false]
      by_cases hz : signedUnits x + -signedUnits y = 0
      · have heq : key x = key y := by
          rw [← compare_eq_iff_eq, ← compare_signedUnits, compare_eq_iff_eq]; omega
        rw [if_pos hz, heq, compare_eq_iff_eq.mpr rfl, signOf.eq_eq]
        refine ⟨rfl, ?_⟩
        unfold key; split <;> simp
      · rw [if_neg hz]
        refine ⟨isNaN_roundUnits _ _, ?_⟩
        rw [signOf_key_roundUnits hz, ← sub_eq_add_neg, signOf.sub, compare_signedUnits]

end Binary64
