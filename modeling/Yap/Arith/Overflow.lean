-- SUMMARY: The compiled variants of the addition, the subtraction and the multiplication of machine integers, and when each of them takes the path to GMP exactly on overflow.
import Yap.Arith.Binary

/-!
# Overflow tests

`add_int`, `sub_int` and `times_int` are compiled to one of several branches,
which the preprocessor selects. Each branch decides whether the word it
computed is the result or whether GMP has to compute it again.
-/

namespace Yap

-- ---------------------------------------------------------------------------
-- The branches
-- ---------------------------------------------------------------------------

inductive IntOp
  | add
  | sub
  | times
  deriving DecidableEq, Repr

/-- What GMP computes. -/
def IntOp.exact : IntOp → ℤ → ℤ → ℤ
  | .add => (· + ·)
  | .sub => (· - ·)
  | .times => (· * ·)

/-- What the machine computes on words. -/
def IntOp.wrapped {w : ℕ} : IntOp → BitVec w → BitVec w → BitVec w
  | .add => (· + ·)
  | .sub => (· - ·)
  | .times => (· * ·)

/-- The branches of `add_int`, `sub_int` and `DO_MULTI`, with the widths of a
word that the preprocessor compiles them for. The branches that name
`__builtin_add_overflow_p` stand behind the condition of the first branch. -/
inductive Branch : IntOp → ℕ → Type
  | builtin (op : IntOp) (w : ℕ) : Branch op w
  | addSigns (w : ℕ) : Branch .add w
  | subSigns (w : ℕ) : Branch .sub w
  | timesImull : Branch .times 32
  | timesMsvc : Branch .times 64
  | timesWide32 : Branch .times 32
  | timesWide64 : Branch .times 64

/-- `__builtin_add_overflow` and its likes. -/
def builtinOverflow {w : ℕ} : IntOp → BitVec w → BitVec w → Bool
  | .add, i, j => i.saddOverflow j
  | .sub, i, j => i.ssubOverflow j
  | .times, i, j => i.smulOverflow j

/-- The sign tests of `add_int`. -/
def addSignsOverflow {w : ℕ} (i j : BitVec w) : Bool :=
  let x := i + j
  if 0 < i.toInt then 0 < j.toInt && x.toInt < 0
  else j.toInt < 0 && 0 < x.toInt

/-- `sub_overflow`. -/
def subOverflow {w : ℕ} (x i j : BitVec w) : Bool :=
  ((i &&& ~~~j &&& ~~~x) ||| (~~~i &&& j &&& x)).toInt < 0

/-- The product of two words in a word of twice the width, tested against a
mask. -/
def wideOverflow {w : ℕ} (mask : BitVec (w + w)) (i1 i2 : BitVec w) : Bool :=
  let x := i1.signExtend (w + w) * i2.signExtend (w + w)
  if 0 ≤ x.toInt then x ||| mask != mask else -x ||| mask != mask

/-- The masks are meant to be the greatest word, but `^` is the exclusive or. -/
def wideMask32 : BitVec (32 + 32) := (2 ^^^ 31) - 1

def wideMask64 : BitVec (64 + 64) := (2 ^^^ 63) - 1

/-- The test on the halves of the factors. The constants `11 > 0` and `12 > 0`
of the source stand for `i1 > 0` and `i2 > 0`, so that neither sign is seen. -/
def msvcOverflow (i1 i2 : Word) : Bool :=
  let h1 := (if (11 : ℤ) > 0 then i1 else -i1).sshiftRight 32
  let h2 := (if (12 : ℤ) > 0 then i2 else -12).sshiftRight 32
  if h1 ≠ 0 ∧ h2 ≠ 0 then true
  else 0x7fffffff < (i1 &&& 0xfffffff) * h2 + (i2 &&& 0xfffffff) * h1

/-- Whether a branch takes the path to GMP. -/
def Branch.overflows : {op : IntOp} → {w : ℕ} → Branch op w → BitVec w → BitVec w → Bool
  | op, _, .builtin _ _, i, j => builtinOverflow op i j
  | _, _, .addSigns _, i, j => addSignsOverflow i j
  | _, _, .subSigns _, i, j => subOverflow (i - j) i j
  | _, _, .timesImull, i, j => builtinOverflow .times i j
  | _, _, .timesMsvc, i, j => msvcOverflow i j
  | _, _, .timesWide32, i, j => wideOverflow wideMask32 i j
  | _, _, .timesWide64, i, j => wideOverflow wideMask64 i j

/-- The integer that a branch returns. -/
def Branch.result {op : IntOp} {w : ℕ} (b : Branch op w) (i j : BitVec w) : ℤ :=
  if b.overflows i j then op.exact i.toInt j.toInt else (op.wrapped i j).toInt

/-- The branch of today's compilers is the one that the evaluator uses. -/
theorem addInt_eq_builtin (hr : Addr) (i j : Word) :
    addInt hr i j = if (Branch.builtin .add 64).overflows i j then gmpAddInts hr i j
      else rint hr (IntOp.add.wrapped i j) := rfl

theorem subInt_eq_builtin (hr : Addr) (i j : Word) :
    subInt hr i j = if (Branch.builtin .sub 64).overflows i j then gmpSubInts hr i j
      else rint hr (IntOp.sub.wrapped i j) := rfl

theorem timesInt_eq_builtin (hr : Addr) (i j : Word) :
    timesInt hr i j = if (Branch.builtin .times 64).overflows i j then gmpMulInts hr i j
      else rint hr (IntOp.times.wrapped i j) := rfl

-- ---------------------------------------------------------------------------
-- Words and their range
-- ---------------------------------------------------------------------------

/-- The integers that a word of width `w` holds. -/
def FitsIn (w : ℕ) (z : ℤ) : Prop := -2 ^ (w - 1) ≤ z ∧ z < 2 ^ (w - 1)

instance (w : ℕ) (z : ℤ) : Decidable (FitsIn w z) := inferInstanceAs (Decidable (_ ∧ _))

theorem fitsIn_toInt {w : ℕ} (i : BitVec w) : FitsIn w i.toInt :=
  ⟨BitVec.le_toInt i, BitVec.toInt_lt⟩

/-- A word is computed by taking the remainder into the range. -/
theorem IntOp.toInt_wrapped {w : ℕ} (op : IntOp) (i j : BitVec w) :
    (op.wrapped i j).toInt = (op.exact i.toInt j.toInt).bmod (2 ^ w) := by
  cases op with
  | add => exact BitVec.toInt_add i j
  | sub => exact BitVec.toInt_sub
  | times => exact BitVec.toInt_mul i j

theorem bmod_of_fitsIn {w : ℕ} {z : ℤ} (hz : FitsIn w z) (hw : 0 < w) :
    z.bmod (2 ^ w) = z := by
  obtain ⟨n, rfl⟩ : ∃ n, w = n + 1 := ⟨w - 1, by omega⟩
  obtain ⟨h1, h2⟩ := hz
  rw [Nat.add_sub_cancel] at h1 h2
  have hp : ((2 ^ (n + 1) : ℕ) : ℤ) = 2 * 2 ^ n := by push_cast; ring
  apply Int.bmod_eq_of_le <;> push_cast at * <;> omega

/-- The words that a sum or a difference out of the range turns into. -/
theorem bmod_of_not_fitsIn {w : ℕ} {z : ℤ} (hw : 0 < w)
    (hl : -2 ^ w ≤ z) (hu : z < 2 ^ w) (hz : ¬ FitsIn w z) :
    z.bmod (2 ^ w) = if z < 0 then z + 2 ^ w else z - 2 ^ w := by
  obtain ⟨n, rfl⟩ : ∃ n, w = n + 1 := ⟨w - 1, by omega⟩
  have hp : (2 : ℤ) ^ (n + 1) = 2 * 2 ^ n := by ring
  unfold FitsIn at hz
  rw [Nat.add_sub_cancel] at hz
  have hs : ∀ k : ℤ, (z + k * 2 ^ (n + 1)).bmod (2 ^ (n + 1)) = z.bmod (2 ^ (n + 1)) := by
    intro k
    have := Int.add_mul_bmod_self_right z k (2 ^ (n + 1))
    push_cast at this
    exact this
  split
  · rw [← hs 1, one_mul]
    exact bmod_of_fitsIn ⟨by rw [Nat.add_sub_cancel]; omega,
      by rw [Nat.add_sub_cancel]; omega⟩ hw
  · rw [← hs (-1), neg_one_mul, ← sub_eq_add_neg]
    exact bmod_of_fitsIn ⟨by rw [Nat.add_sub_cancel]; omega,
      by rw [Nat.add_sub_cancel]; omega⟩ hw

theorem IntOp.exact_zero (op : IntOp) : op.exact 0 0 = 0 := by cases op <;> rfl

-- ---------------------------------------------------------------------------
-- Agreement with the integers
-- ---------------------------------------------------------------------------

/-- A branch takes the path to GMP exactly on overflow, and the integer that it
returns is the mathematical result. -/
def Branch.Agrees {op : IntOp} {w : ℕ} (b : Branch op w) (i j : BitVec w) : Prop :=
  (b.overflows i j = true ↔ ¬ FitsIn w (op.exact i.toInt j.toInt)) ∧
    b.result i j = op.exact i.toInt j.toInt

/-- The result is right where the test is. -/
theorem Branch.agrees_iff {op : IntOp} {w : ℕ} (b : Branch op w) (i j : BitVec w) :
    b.Agrees i j ↔ (b.overflows i j = true ↔ ¬ FitsIn w (op.exact i.toInt j.toInt)) := by
  refine and_iff_left_of_imp fun h => ?_
  unfold Branch.result
  split
  · rfl
  · rename_i hno
    have hfits : FitsIn w (op.exact i.toInt j.toInt) := not_not.1 fun hn => hno (h.2 hn)
    rw [op.toInt_wrapped]
    rcases Nat.eq_zero_or_pos w with rfl | hw
    · rw [BitVec.eq_nil i, BitVec.eq_nil j]
      simp [op.exact_zero]
    · exact bmod_of_fitsIn hfits hw

theorem builtinOverflow_iff {w : ℕ} (op : IntOp) (i j : BitVec w) :
    builtinOverflow op i j = true ↔ ¬ FitsIn w (op.exact i.toInt j.toInt) := by
  unfold FitsIn
  cases op with
  | add =>
    simp only [builtinOverflow, BitVec.saddOverflow, IntOp.exact, Bool.or_eq_true, decide_eq_true_eq]
    omega
  | sub =>
    simp only [builtinOverflow, BitVec.ssubOverflow, IntOp.exact, Bool.or_eq_true, decide_eq_true_eq]
    omega
  | times =>
    simp only [builtinOverflow, BitVec.smulOverflow, IntOp.exact, Bool.or_eq_true, decide_eq_true_eq]
    omega

/-- The sign tests of the addition miss the sum that wraps to zero. -/
theorem addSignsOverflow_iff {w : ℕ} (i j : BitVec w) :
    addSignsOverflow i j = true ↔
      ¬ FitsIn w (i.toInt + j.toInt) ∧ i.toInt + j.toInt ≠ -2 ^ w := by
  rcases Nat.eq_zero_or_pos w with rfl | hw
  · rw [BitVec.eq_nil i, BitVec.eq_nil j]
    decide
  have hi := fitsIn_toInt i
  have hj := fitsIn_toInt j
  have hp : (2 : ℤ) ^ w = 2 * 2 ^ (w - 1) := by
    rw [← pow_succ', Nat.sub_add_cancel hw]
  have hpos : (0 : ℤ) < 2 ^ (w - 1) := by positivity
  have hx : (i + j).toInt = (i.toInt + j.toInt).bmod (2 ^ w) := BitVec.toInt_add i j
  simp only [addSignsOverflow, hx]
  by_cases hfits : FitsIn w (i.toInt + j.toInt)
  · rw [bmod_of_fitsIn hfits hw]
    simp only [hfits, not_true_eq_false, false_and, iff_false, Bool.not_eq_true]
    split <;> simp <;> omega
  · unfold FitsIn at hi hj
    rw [bmod_of_not_fitsIn hw (by omega) (by omega) hfits]
    unfold FitsIn at hfits ⊢
    generalize (2 : ℤ) ^ (w - 1) = m at *
    generalize (2 : ℤ) ^ w = k at *
    subst hp
    split <;> split <;> simp <;> omega

/-- The sign bits of the operands and of the difference tell the overflow. -/
theorem subOverflow_iff {w : ℕ} (i j : BitVec w) :
    subOverflow (i - j) i j = true ↔ ¬ FitsIn w (i.toInt - j.toInt) := by
  rcases Nat.eq_zero_or_pos w with rfl | hw
  · rw [BitVec.eq_nil i, BitVec.eq_nil j]
    decide
  have hi := fitsIn_toInt i
  have hj := fitsIn_toInt j
  have hp : (2 : ℤ) ^ w = 2 * 2 ^ (w - 1) := by
    rw [← pow_succ', Nat.sub_add_cancel hw]
  have hpos : (0 : ℤ) < 2 ^ (w - 1) := by positivity
  have hx : (i - j).toInt = (i.toInt - j.toInt).bmod (2 ^ w) := BitVec.toInt_sub
  simp only [subOverflow, ← BitVec.msb_eq_toInt, BitVec.msb_or, BitVec.msb_and,
    BitVec.msb_not, decide_eq_true hw, Bool.true_and]
  simp only [BitVec.msb_eq_toInt, hx, Bool.or_eq_true, Bool.and_eq_true, Bool.not_eq_true',
    decide_eq_true_eq, decide_eq_false_iff_not]
  by_cases hfits : FitsIn w (i.toInt - j.toInt)
  · rw [bmod_of_fitsIn hfits hw]
    simp only [hfits, not_true_eq_false, iff_false]
    omega
  · unfold FitsIn at hi hj
    rw [bmod_of_not_fitsIn hw (by omega) (by omega) hfits]
    unfold FitsIn at hfits
    simp only [FitsIn, hfits, not_false_eq_true, iff_true]
    split <;> omega

-- ---------------------------------------------------------------------------
-- The wider product
-- ---------------------------------------------------------------------------

theorem toNat_of_nonneg {n : ℕ} {x : BitVec n} (h : 0 ≤ x.toInt) : (x.toNat : ℤ) = x.toInt := by
  have := BitVec.toInt_pos_iff.1 h
  rw [BitVec.toInt_eq_toNat_cond, if_pos this]

theorem fitsIn_product {w : ℕ} (hw : 0 < w) (i j : BitVec w) :
    |i.toInt * j.toInt| < 2 ^ (w + w - 1) := by
  have hi : |i.toInt| ≤ 2 ^ (w - 1) := abs_le.2 ⟨BitVec.le_toInt i, BitVec.toInt_lt.le⟩
  have hj : |j.toInt| ≤ 2 ^ (w - 1) := abs_le.2 ⟨BitVec.le_toInt j, BitVec.toInt_lt.le⟩
  calc |i.toInt * j.toInt| = |i.toInt| * |j.toInt| := abs_mul _ _
    _ ≤ 2 ^ (w - 1) * 2 ^ (w - 1) := mul_le_mul hi hj (abs_nonneg _) (by positivity)
    _ = 2 ^ (w - 1 + (w - 1)) := (pow_add _ _ _).symm
    _ < 2 ^ (w + w - 1) := pow_lt_pow_right₀ (by decide) (by omega)

/-- The wide product is tested by its absolute value. -/
theorem wideOverflow_iff {w : ℕ} (hw : 0 < w) (mask : BitVec (w + w)) (i j : BitVec w) :
    wideOverflow mask i j = true ↔
      (i.toInt * j.toInt).natAbs ||| mask.toNat ≠ mask.toNat := by
  have hlt := abs_lt.1 (fitsIn_product hw i j)
  have hx : (i.signExtend (w + w) * j.signExtend (w + w)).toInt = i.toInt * j.toInt := by
    rw [BitVec.toInt_mul, BitVec.toInt_signExtend_of_le (by omega),
      BitVec.toInt_signExtend_of_le (by omega)]
    exact bmod_of_fitsIn ⟨hlt.1.le, hlt.2⟩ (by omega)
  simp only [wideOverflow]
  generalize i.signExtend (w + w) * j.signExtend (w + w) = x at hx ⊢
  rw [← hx] at hlt ⊢
  split
  · rename_i hnonneg
    have hnat : x.toNat = x.toInt.natAbs := by
      have := toNat_of_nonneg hnonneg
      omega
    rw [bne_iff_ne, ne_eq, ← BitVec.toNat_inj, BitVec.toNat_or, hnat]
  · rename_i hneg
    have hxneg : (-x).toInt = -x.toInt := by
      rw [BitVec.toInt_neg]
      exact bmod_of_fitsIn ⟨by omega, by omega⟩ (by omega)
    have hnat : (-x).toNat = x.toInt.natAbs := by
      have := toNat_of_nonneg (x := -x) (by omega)
      omega
    rw [bne_iff_ne, ne_eq, ← BitVec.toNat_inj, BitVec.toNat_or, hnat]

/-- The bits of both masks start at the third. -/
theorem or_mask32 (n : ℕ) : n ||| 28 = 28 ↔ 4 ∣ n ∧ n ≤ 28 := by
  constructor
  · intro h
    have hle : n ≤ 28 := h ▸ Nat.left_le_or
    interval_cases n <;> revert h <;> decide
  · rintro ⟨hd, hle⟩
    interval_cases n <;> revert hd <;> decide

theorem or_mask64 (n : ℕ) : n ||| 60 = 60 ↔ 4 ∣ n ∧ n ≤ 60 := by
  constructor
  · intro h
    have hle : n ≤ 60 := h ▸ Nat.left_le_or
    interval_cases n <;> revert h <;> decide
  · rintro ⟨hd, hle⟩
    interval_cases n <;> revert hd <;> decide

-- ---------------------------------------------------------------------------
-- The halves of the factors
-- ---------------------------------------------------------------------------

/-- The upper half of a machine integer. -/
def upper (i : ℤ) : ℤ := i / 2 ^ 32

theorem toInt_upper (i : Word) : (i.sshiftRight 32).toInt = upper i.toInt := by
  rw [BitVec.toInt_sshiftRight, Int.shiftRight_eq_div_pow]
  rfl

theorem upper_eq_zero (i : Word) : i.sshiftRight 32 = 0 ↔ upper i.toInt = 0 := by
  rw [← toInt_upper, ← BitVec.toInt_inj]
  rfl

/-- An unsigned comparison takes a negative word for a great one. -/
theorem lt_iff_toInt (x : Word) : (0x7fffffff : Word) < x ↔ x.toInt < 0 ∨ 2 ^ 31 ≤ x.toInt := by
  rw [BitVec.lt_def, BitVec.toInt_eq_toNat_cond]
  have := x.isLt
  simp only [BitVec.reduceToNat]
  split <;> omega

/-- The product that is tested if one factor has an upper half alone: it is
the product of the 28 lower bits of the other factor and that half. -/
theorem toInt_lower_mul_upper (c d : Word) (hc : upper c.toInt = 0) :
    ((c &&& 0xfffffff) * d.sshiftRight 32).toInt = c.toInt % 2 ^ 28 * upper d.toInt := by
  have hlow : (c &&& 0xfffffff).toInt = c.toInt % 2 ^ 28 := by
    have hnonneg : 0 ≤ c.toInt := by unfold upper at hc; omega
    have hnat : (c &&& 0xfffffff).toNat = c.toNat % 2 ^ 28 :=
      Nat.and_two_pow_sub_one_eq_mod c.toNat 28
    have hc' := toNat_of_nonneg hnonneg
    rw [BitVec.toInt_eq_toNat_cond, hnat]
    split <;> omega
  have hd := fitsIn_toInt d
  unfold FitsIn at hd
  rw [BitVec.toInt_mul, hlow, toInt_upper]
  have hu : -2 ^ 31 ≤ upper d.toInt ∧ upper d.toInt < 2 ^ 31 := by unfold upper; omega
  have hl : 0 ≤ c.toInt % 2 ^ 28 ∧ c.toInt % 2 ^ 28 < 2 ^ 28 := by omega
  generalize upper d.toInt = u at hu ⊢
  generalize c.toInt % 2 ^ 28 = l at hl ⊢
  have hlu := mul_le_mul_of_nonneg_left hu.1 hl.1
  have hul := mul_le_mul_of_nonneg_left hu.2.le hl.1
  exact bmod_of_fitsIn ⟨by omega, by omega⟩ (by decide)

/-- When the test on one factor below `2 ^ 32` and one other factor agrees with
the product. -/
def MixedWhen (c d : ℤ) : Prop :=
  if 0 < d then 2 ^ 31 ≤ c % 2 ^ 28 * upper d ↔ 2 ^ 63 ≤ c * d
  else 2 ^ 28 ∣ c ↔ -2 ^ 63 ≤ c * d

instance (c d : ℤ) : Decidable (MixedWhen c d) := by
  unfold MixedWhen
  infer_instance

/-- When the test on the halves agrees with the product. -/
def MsvcWhen (i j : ℤ) : Prop :=
  if upper i = 0 then
    if upper j = 0 then i * j < 2 ^ 63 else MixedWhen i j
  else if upper j = 0 then MixedWhen j i
  else ¬ FitsIn 64 (i * j)

instance (i j : ℤ) : Decidable (MsvcWhen i j) := by
  unfold MsvcWhen
  infer_instance

/-- The test where one factor alone has an upper half. -/
theorem mixed_iff (c d : Word) (hc : upper c.toInt = 0) (hd : upper d.toInt ≠ 0) :
    ((0x7fffffff : Word) < (c &&& 0xfffffff) * d.sshiftRight 32 ↔
        ¬ FitsIn 64 (c.toInt * d.toInt)) ↔
      MixedWhen c.toInt d.toInt := by
  have hc0 : 0 ≤ c.toInt := by unfold upper at hc; omega
  have hl : 0 ≤ c.toInt % 2 ^ 28 := by omega
  rw [lt_iff_toInt, toInt_lower_mul_upper c d hc]
  unfold MixedWhen
  split
  · rename_i hpos
    have hprod : 0 ≤ c.toInt * d.toInt := mul_nonneg hc0 hpos.le
    have hup : 0 ≤ upper d.toInt := by unfold upper; omega
    have htest : 0 ≤ c.toInt % 2 ^ 28 * upper d.toInt := mul_nonneg hl hup
    unfold FitsIn
    omega
  · rename_i hneg
    have hprod : c.toInt * d.toInt ≤ 0 := mul_nonpos_of_nonneg_of_nonpos hc0 (by omega)
    have hup : upper d.toInt < 0 := by unfold upper at hd ⊢; omega
    have htest : c.toInt % 2 ^ 28 * upper d.toInt < 0 ↔ ¬ (2 ^ 28 : ℤ) ∣ c.toInt := by
      rw [Int.dvd_iff_emod_eq_zero, mul_neg_iff]
      omega
    have hle : c.toInt % 2 ^ 28 * upper d.toInt ≤ 0 := mul_nonpos_of_nonneg_of_nonpos hl hup.le
    unfold FitsIn
    omega

theorem msvcOverflow_iff (i j : Word) :
    (msvcOverflow i j = true ↔ ¬ FitsIn 64 (i.toInt * j.toInt)) ↔ MsvcWhen i.toInt j.toInt := by
  have htest : msvcOverflow i j = true ↔
      (¬ upper i.toInt = 0 ∧ ¬ upper j.toInt = 0) ∨
        (0x7fffffff : Word) <
          (i &&& 0xfffffff) * j.sshiftRight 32 + (j &&& 0xfffffff) * i.sshiftRight 32 := by
    simp only [msvcOverflow, if_pos (show (11 : ℤ) > 0 by decide),
      if_pos (show (12 : ℤ) > 0 by decide), ne_eq, upper_eq_zero]
    split <;> simp [*]
  rw [htest]
  unfold MsvcWhen
  by_cases hi : upper i.toInt = 0
  · by_cases hj : upper j.toInt = 0
    · rw [if_pos hi, if_pos hj, (upper_eq_zero i).2 hi, (upper_eq_zero j).2 hj]
      have hprod : 0 ≤ i.toInt * j.toInt := by
        apply mul_nonneg <;> unfold upper at hi hj <;> omega
      simp only [hi, hj, not_true_eq_false, and_false, false_or, BitVec.ofNat_eq_ofNat,
        BitVec.mul_zero, BitVec.add_zero]
      have hzero : ¬ 0x7fffffff#64 < 0#64 := by decide
      simp only [hzero, false_iff, not_not]
      unfold FitsIn
      omega
    · rw [if_pos hi, if_neg hj, (upper_eq_zero i).2 hi, ← mixed_iff i j hi hj]
      simp only [hi, not_true_eq_false, false_and, false_or, BitVec.ofNat_eq_ofNat,
        BitVec.mul_zero, BitVec.add_zero]
  · by_cases hj : upper j.toInt = 0
    · rw [if_neg hi, if_pos hj, (upper_eq_zero j).2 hj, ← mixed_iff j i hj hi, mul_comm j.toInt]
      simp only [hj, not_true_eq_false, and_false, false_or, BitVec.ofNat_eq_ofNat,
        BitVec.mul_zero, BitVec.zero_add]
    · rw [if_neg hi, if_neg hj]
      simp only [hi, hj, not_false_eq_true, and_self, true_or, true_iff]

-- ---------------------------------------------------------------------------
-- All branches
-- ---------------------------------------------------------------------------

/-- When a branch agrees with the integers `i` and `j`. -/
def Branch.AgreesWhen : {op : IntOp} → {w : ℕ} → Branch op w → ℤ → ℤ → Prop
  | _, _, .builtin _ _, _, _ => True
  | _, _, .addSigns w, i, j => i + j ≠ -2 ^ w
  | _, _, .subSigns _, _, _ => True
  | _, _, .timesImull, _, _ => True
  | _, _, .timesMsvc, i, j => MsvcWhen i j
  | _, _, .timesWide32, i, j => ¬ FitsIn 32 (i * j) ∨ 4 ∣ i * j ∧ |i * j| ≤ 28
  | _, _, .timesWide64, i, j => ¬ FitsIn 64 (i * j) ∨ 4 ∣ i * j ∧ |i * j| ≤ 60

/-- The masks let through the products that the mask covers alone. -/
theorem wide_agrees_iff {m n : ℕ} {fits : Prop} (z : ℤ) (hmask : n ||| m = m ↔ 4 ∣ n ∧ n ≤ m)
    (hn : n = z.natAbs) (hm : (4 ∣ z ∧ |z| ≤ m) → fits) :
    (n ||| m ≠ m ↔ ¬ fits) ↔ ¬ fits ∨ 4 ∣ z ∧ |z| ≤ m := by
  have hz : 4 ∣ n ∧ n ≤ m ↔ 4 ∣ z ∧ |z| ≤ m := by
    subst hn
    rw [Int.abs_eq_natAbs]
    omega
  rw [ne_eq, hmask, hz]
  by_cases hround : 4 ∣ z ∧ |z| ≤ m
  · simp only [hround, hm hround, not_true_eq_false, and_self, or_true]
  · simp only [hround, not_false_eq_true, true_iff, or_false]

/-- Every branch takes the path to GMP exactly on overflow under the condition
of the branch, and under it alone. -/
theorem branch_agrees_iff {op : IntOp} {w : ℕ} (b : Branch op w) (i j : BitVec w) :
    b.Agrees i j ↔ b.AgreesWhen i.toInt j.toInt := by
  rw [b.agrees_iff]
  cases b with
  | builtin => exact iff_true_intro (builtinOverflow_iff op i j)
  | addSigns =>
    rw [Branch.overflows, addSignsOverflow_iff]
    change _ ↔ i.toInt + j.toInt ≠ -2 ^ w
    have hfits : i.toInt + j.toInt = -2 ^ w → ¬ FitsIn w (i.toInt + j.toInt) := by
      intro hsum hfits
      rcases Nat.eq_zero_or_pos w with rfl | hw
      · rw [BitVec.eq_nil i, BitVec.eq_nil j] at hsum
        exact absurd hsum (by decide)
      · have hlt : (2 : ℤ) ^ (w - 1) < 2 ^ w := pow_lt_pow_right₀ (by decide) (by omega)
        have := hfits.1
        omega
    unfold IntOp.exact
    tauto
  | subSigns => exact iff_true_intro (subOverflow_iff i j)
  | timesImull => exact iff_true_intro (builtinOverflow_iff .times i j)
  | timesMsvc => exact msvcOverflow_iff i j
  | timesWide32 =>
    rw [Branch.overflows, wideOverflow_iff (by decide)]
    refine wide_agrees_iff _ (or_mask32 _) rfl fun h => ?_
    have hle := abs_le.1 (h.2.trans (show ((wideMask32.toNat : ℕ) : ℤ) ≤ 28 by decide))
    exact ⟨le_trans (by decide) hle.1, lt_of_le_of_lt hle.2 (by decide)⟩
  | timesWide64 =>
    rw [Branch.overflows, wideOverflow_iff (by decide)]
    refine wide_agrees_iff _ (or_mask64 _) rfl fun h => ?_
    have hle := abs_le.1 (h.2.trans (show ((wideMask64.toNat : ℕ) : ℤ) ≤ 60 by decide))
    exact ⟨le_trans (by decide) hle.1, lt_of_le_of_lt hle.2 (by decide)⟩

/-- The sum of the two least machine integers wraps to zero, which the sign
tests take for the sum of the builtin. -/
theorem not_branch_agrees :
    ¬ (Branch.addSigns 64).Agrees (BitVec.intMin 64) (BitVec.intMin 64) := by
  rw [Branch.agrees_iff]
  decide

end Yap
