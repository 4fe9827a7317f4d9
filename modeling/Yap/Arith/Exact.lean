-- SUMMARY: Addition, subtraction and multiplication of integers and rationals return the exact result, in normal form exactly when it can be boxed.
import Yap.Arith.Value

/-!
# Exact arithmetic

Each operator returns `mkBigRatTerm` of the exact result, whatever the
representations of its operands: machine integers overflow into big ones, and
big results that fit a word are machine integers again.
-/

namespace Yap

/-- The operators `+`, `-` and `*`. -/
inductive RingOp where
  | plus
  | minus
  | times
deriving DecidableEq

namespace RingOp

/-- The function that computes the operator. -/
def run (hr : Addr) : RingOp → Term → Term → Calc Term
  | plus => pPlus hr
  | minus => pMinus hr
  | times => pTimes hr

/-- The operation on rational numbers. -/
def eval : RingOp → ℚ → ℚ → ℚ
  | plus => (· + ·)
  | minus => (· - ·)
  | times => (· * ·)

end RingOp

-- ---------------------------------------------------------------------------
-- Machine integers
-- ---------------------------------------------------------------------------

variable (hr : Addr)

theorem rint_returns {w : Word} {v : ℚ} (h : v = w.toInt) : (rint hr w).Returns (mkBigRatTerm hr v) :=
  ⟨false, by rw [h, mkBigRatTerm_toInt]; rfl⟩

/-- Only the least word is taken for a negative overflow. -/
theorem toInt_sub_one_pos {j : Word} (h : j.toInt ≤ 0) (hmin : j ≠ Word.intMin) :
    ¬ 0 < (j - 1).toInt := by
  have hlo := Word.le_toInt j
  have hne : j.toInt ≠ -2 ^ 63 := fun hj => hmin (Word.toInt_eq_intMin.mp hj)
  have hone : (1 : Word).toInt = 1 := by decide
  rw [Word.toInt_sub_of_fits (by rw [hone, Word.Fits]; omega)]
  omega

theorem gmpAddInts_returns (i j : Word) :
    (gmpAddInts hr i j).Returns (mkBigIntTerm hr (i.toInt + j.toInt)) := by
  unfold gmpAddInts
  by_cases hpos : 0 < j.toInt
  · rw [if_pos hpos, Word.toInt_eq_toNat hpos.le]
    exact ⟨_, rfl⟩
  · rw [if_neg hpos]
    by_cases hmin : j = Word.intMin
    · -- the sum is split into two steps that do not overflow
      subst hmin
      have hsum : i.toInt + Word.intMin.toInt = i.toInt - ((-(Word.intMin + 1)).toNat : ℤ) - 1 := by
        rw [show ((-(Word.intMin + 1)).toNat : ℤ) = 2 ^ 63 - 1 by decide, Word.toInt_intMin]
        ring
      rw [hsum]
      exact ⟨_, rfl⟩
    · have hrest := Word.toNat_neg (not_lt.mp hpos)
      have hbelow := toInt_sub_one_pos (not_lt.mp hpos) hmin
      rw [show i.toInt + j.toInt = i.toInt - (-j).toNat by omega]
      simp only [Calc.Returns, signed_bind_run, if_neg hbelow, Calc.pure_run]
      exact ⟨_, rfl⟩

theorem gmpSubInts_returns (i j : Word) :
    (gmpSubInts hr i j).Returns (mkBigIntTerm hr (i.toInt - j.toInt)) := by
  unfold gmpSubInts
  by_cases hpos : 0 < j.toInt
  · rw [if_pos hpos, Word.toInt_eq_toNat hpos.le]
    exact ⟨_, rfl⟩
  · rw [if_neg hpos]
    by_cases hmin : j = Word.intMin
    · subst hmin
      have hdiff : i.toInt - Word.intMin.toInt = i.toInt + ((-(Word.intMin + 1)).toNat : ℤ) + 1 := by
        rw [show ((-(Word.intMin + 1)).toNat : ℤ) = 2 ^ 63 - 1 by decide, Word.toInt_intMin]
        ring
      rw [hdiff]
      exact ⟨_, rfl⟩
    · have hrest := Word.toNat_neg (not_lt.mp hpos)
      have hbelow := toInt_sub_one_pos (not_lt.mp hpos) hmin
      rw [show i.toInt - j.toInt = i.toInt + (-j).toNat by omega]
      simp only [Calc.Returns, signed_bind_run, if_neg hbelow, Calc.pure_run]
      exact ⟨_, rfl⟩

theorem addInt_returns (i j : Word) :
    (addInt hr i j).Returns (mkBigRatTerm hr (i.toInt + j.toInt)) := by
  unfold addInt
  split
  case isTrue => rw [← Int.cast_add, mkBigRatTerm_intCast]; exact gmpAddInts_returns hr i j
  case isFalse h =>
    refine rint_returns hr ?_
    rw [BitVec.toInt_add_of_not_saddOverflow (by simpa using h), Int.cast_add]

theorem subInt_returns (i j : Word) :
    (subInt hr i j).Returns (mkBigRatTerm hr (i.toInt - j.toInt)) := by
  unfold subInt
  split
  case isTrue => rw [← Int.cast_sub, mkBigRatTerm_intCast]; exact gmpSubInts_returns hr i j
  case isFalse h =>
    refine rint_returns hr ?_
    rw [BitVec.toInt_sub_of_not_ssubOverflow (by simpa using h), Int.cast_sub]

theorem timesInt_returns (i j : Word) :
    (timesInt hr i j).Returns (mkBigRatTerm hr (i.toInt * j.toInt)) := by
  unfold timesInt
  split
  case isTrue => rw [← Int.cast_mul, mkBigRatTerm_intCast]; exact ⟨_, rfl⟩
  case isFalse h =>
    refine rint_returns hr ?_
    rw [BitVec.toInt_mul_of_not_smulOverflow (by simpa using h), Int.cast_mul]

-- ---------------------------------------------------------------------------
-- Big operands
-- ---------------------------------------------------------------------------

/-- A wrapper is exact when its integer operation and its rational operation
    agree. -/
theorem gmpIntBig_returns {opZ : ℤ → ℤ → ℤ} (opQ : ℚ → ℚ → ℚ)
    (hop : ∀ a b : ℤ, ((opZ a b : ℤ) : ℚ) = opQ a b) (i : Word) (b : BigNum) :
    (gmpIntBig hr opZ opQ i b).Returns (mkBigRatTerm hr (opQ i.toInt b.val)) := by
  cases b with
  | int b => rw [BigNum.val, ← hop, mkBigRatTerm_intCast]; exact ⟨_, rfl⟩
  | rat b => exact ⟨_, rfl⟩

theorem gmpBigBig_returns {opZ : ℤ → ℤ → ℤ} {opQ : ℚ → ℚ → ℚ}
    (hop : ∀ a b : ℤ, ((opZ a b : ℤ) : ℚ) = opQ a b) (b1 b2 : BigNum) :
    (gmpBigBig hr opZ opQ b1 b2).Returns (mkBigRatTerm hr (opQ b1.val b2.val)) := by
  cases b1 with
  | int b1 =>
      cases b2 with
      | int b2 => rw [BigNum.val, BigNum.val, ← hop, mkBigRatTerm_intCast]; exact ⟨_, rfl⟩
      | rat b2 => exact ⟨_, rfl⟩
  | rat b1 => exact ⟨_, rfl⟩

-- ---------------------------------------------------------------------------
-- The operators
-- ---------------------------------------------------------------------------

theorem pPlus_returns {t1 t2 : Term} {x y : ℚ} (h1 : t1.value? = some x) (h2 : t2.value? = some y) :
    (pPlus hr t1 t2).Returns (mkBigRatTerm hr (x + y)) := by
  have hop : ∀ a b : ℤ, ((a + b : ℤ) : ℚ) = a + b := Int.cast_add
  unfold pPlus
  rcases EType.value?_cases h1 with ⟨i, he1, rfl⟩ | ⟨b, he1, rfl⟩ <;>
    rcases EType.value?_cases h2 with ⟨j, he2, rfl⟩ | ⟨c, he2, rfl⟩ <;>
    rw [he1, he2]
  · exact addInt_returns hr i j
  · exact gmpIntBig_returns hr _ hop i c
  · rw [add_comm]
    exact gmpIntBig_returns hr _ hop j b
  · exact gmpBigBig_returns hr hop b c

theorem pMinus_returns {t1 t2 : Term} {x y : ℚ} (h1 : t1.value? = some x) (h2 : t2.value? = some y) :
    (pMinus hr t1 t2).Returns (mkBigRatTerm hr (x - y)) := by
  have hop : ∀ a b : ℤ, ((a - b : ℤ) : ℚ) = a - b := Int.cast_sub
  unfold pMinus
  rcases EType.value?_cases h1 with ⟨i, he1, rfl⟩ | ⟨b, he1, rfl⟩ <;>
    rcases EType.value?_cases h2 with ⟨j, he2, rfl⟩ | ⟨c, he2, rfl⟩ <;>
    rw [he1, he2]
  · exact subInt_returns hr i j
  · exact gmpIntBig_returns hr _ hop i c
  · exact gmpIntBig_returns hr (fun i b => b - i) (fun a b => by push_cast; ring) j b
  · exact gmpBigBig_returns hr hop b c

theorem pTimes_returns {t1 t2 : Term} {x y : ℚ} (h1 : t1.value? = some x) (h2 : t2.value? = some y) :
    (pTimes hr t1 t2).Returns (mkBigRatTerm hr (x * y)) := by
  have hop : ∀ a b : ℤ, ((a * b : ℤ) : ℚ) = a * b := Int.cast_mul
  unfold pTimes
  rcases EType.value?_cases h1 with ⟨i, he1, rfl⟩ | ⟨b, he1, rfl⟩ <;>
    rcases EType.value?_cases h2 with ⟨j, he2, rfl⟩ | ⟨c, he2, rfl⟩ <;>
    rw [he1, he2]
  · exact timesInt_returns hr i j
  · exact gmpIntBig_returns hr _ hop i c
  · rw [mul_comm]
    exact gmpIntBig_returns hr _ hop j b
  · exact gmpBigBig_returns hr hop b c

theorem RingOp.run_returns (op : RingOp) {t1 t2 : Term} {x y : ℚ} (h1 : t1.value? = some x)
    (h2 : t2.value? = some y) : (op.run hr t1 t2).Returns (mkBigRatTerm hr (op.eval x y)) := by
  cases op with
  | plus => exact pPlus_returns hr h1 h2
  | minus => exact pMinus_returns hr h1 h2
  | times => exact pTimes_returns hr h1 h2

/-- The operator returns `v`, in normal form. -/
def ReturnsNormal (c : Calc Term) (v : ℚ) : Prop := ∃ t, c.Returns t ∧ IsNormalForm v t

theorem returnsNormal_iff {c : Calc Term} {v : ℚ} (h : c.Returns (mkBigRatTerm hr v)) :
    ReturnsNormal c v ↔ Boxable v := by
  rw [← isNormalForm_mkBigRatTerm_iff hr]
  constructor
  · rintro ⟨t, ht, hnormal⟩
    rwa [← ht.inj h]
  · intro hnormal
    exact ⟨_, h, hnormal⟩

/-- On all representations of its operands, an operator returns the exact result
    in normal form exactly when that result is not an integer which is tagged
    without fitting the field. -/
theorem ringOp_returnsNormal_iff (op : RingOp) {t1 t2 : Term} {x y : ℚ}
    (h1 : t1.value? = some x) (h2 : t2.value? = some y) :
    ReturnsNormal (op.run hr t1 t2) (op.eval x y) ↔ Boxable (op.eval x y) :=
  returnsNormal_iff hr (op.run_returns hr h1 h2)

/-- The greatest word plus one is a big integer. -/
theorem intMax_plus_one_returnsNormal :
    ReturnsNormal (RingOp.plus.run 0 (mkIntegerTerm 0 Word.intMax) (mkIntegerTerm 0 1)) (2 ^ 63) := by
  have h := (ringOp_returnsNormal_iff 0 .plus (x := (Word.intMax.toInt : ℚ)) (y := ((1 : Word).toInt : ℚ))
    ((mkIntegerTerm_value? 0 Word.intMax).mpr (by decide))
    ((mkIntegerTerm_value? 0 1).mpr (by decide))).mpr (by decide +kernel)
  rwa [show RingOp.plus.eval (Word.intMax.toInt : ℚ) ((1 : Word).toInt : ℚ) = 2 ^ 63 by
    decide +kernel] at h

/-- The sum `(2 ^ 57 - 1) + 1` is tagged and comes back as another number. -/
theorem two_pow_57_not_returnsNormal :
    ¬ ReturnsNormal (RingOp.plus.run 0 (mkIntegerTerm 0 (BitVec.ofInt 64 (2 ^ 57 - 1)))
      (mkIntegerTerm 0 1)) (2 ^ 57) := by
  have h1 : (mkIntegerTerm 0 (BitVec.ofInt 64 (2 ^ 57 - 1))).value? = some (2 ^ 57 - 1) := by
    decide +kernel
  have h2 : (mkIntegerTerm 0 1).value? = some 1 := by decide +kernel
  have hsum : RingOp.plus.eval (2 ^ 57 - 1) 1 = 2 ^ 57 := by decide +kernel
  have hret := RingOp.plus.run_returns 0 h1 h2
  rw [hsum] at hret
  rw [returnsNormal_iff 0 hret]
  decide +kernel

end Yap
