-- SUMMARY: The negation, the absolute value, the sign and the complement of a number, and when they are exact and in normal form on integers.
import Yap.Arith.Power

/-!
# Unary functions

The cases of `eval1` for `-`, `abs`, `sign` and `\`. A machine integer that
leaves the range of a word is handed to GMP by the negation alone.
-/

namespace Yap

-- ---------------------------------------------------------------------------
-- The functions
-- ---------------------------------------------------------------------------

/-- `Yap_gmp_neg_int`, which is called with the least word. -/
def gmpNegInt (hr : Addr) : Calc Term := return mkBigIntTerm hr (-Word.intMin.toInt)

/-- `Yap_gmp_neg_big`. -/
def gmpNegBig (hr : Addr) : BigNum → Calc Term
  | .int b => return mkBigIntTerm hr (-b.1)
  | .rat b => return mkBigRatTerm hr (-b.1)

/-- `Yap_gmp_abs_big`. -/
def gmpAbsBig (hr : Addr) : BigNum → Calc Term
  | .int b => return mkBigIntTerm hr |b.1|
  | .rat b => return mkBigRatTerm hr |b.1|

/-- `Yap_gmp_unot_big`. -/
def gmpUnotBig (hr : Addr) (t : Term) : BigNum → Calc Term
  | .int b => return mkBigIntTerm hr (-b.1 - 1)
  | .rat _ => arithError .typeErrorInteger t "#/1"

/-- `Yap_gmp_sign`. -/
def gmpSign (hr : Addr) : BigNum → Calc Term
  | .int b => return mkIntegerTerm hr (BitVec.ofInt 64 b.1.sign)
  | .rat b => return mkIntegerTerm hr (BitVec.ofInt 64 (SignType.sign b.1))

/-- `labs`. -/
def labs (i : Word) : Calc Word := signed |i.toInt| (if i.toInt < 0 then -i else i)

def fabs (d : Binary64) : Binary64 := { d with neg := false }

/-- The case `op_uminus` of `eval1`. -/
def evalUminus (hr : Addr) (t : Term) : Calc Term :=
  match eTypeOfTerm t with
  | .longInt i =>
    if i = Word.intMin then gmpNegInt hr
    else do
      let w ← signed (-i.toInt) (-i)
      rint hr w
  | .double d => rfloatTerm hr d.negate
  | .bigInt b => gmpNegBig hr b
  | .dbRef => rerror

/-- The case `op_abs` of `eval1`. -/
def evalAbs (hr : Addr) (t : Term) : Calc Term :=
  match eTypeOfTerm t with
  | .longInt i => do
    let w ← labs i
    rint hr w
  | .double d => rfloatTerm hr (fabs d)
  | .bigInt b => gmpAbsBig hr b
  | .dbRef => rerror

/-- The case `op_sign` of `eval1`. The sign of a float is an integer. -/
def evalSign (hr : Addr) (t : Term) : Calc Term :=
  match eTypeOfTerm t with
  | .longInt i => rint hr (if 0 < i.toInt then 1 else if i.toInt < 0 then -1 else 0)
  | .double d => rint hr (if Binary64.zero.lt d then 1 else if d.lt .zero then -1 else 0)
  | .bigInt b => gmpSign hr b
  | .dbRef => rerror

/-- The case `op_unot` of `eval1`. The text of the type error holds the float. -/
def evalUnot (hr : Addr) (t : Term) : Calc Term :=
  match eTypeOfTerm t with
  | .longInt i => rint hr (~~~i)
  | .double _ => arithError .typeErrorInteger t "\\(%f)"
  | .bigInt b => gmpUnotBig hr t b
  | .dbRef => rerror

inductive UnaryOp where
  | uminus
  | abs
  | sign
  | unot
deriving DecidableEq

/-- The function that computes the operator. -/
def UnaryOp.run (hr : Addr) : UnaryOp → Term → Calc Term
  | uminus => evalUminus hr
  | abs => evalAbs hr
  | sign => evalSign hr
  | unot => evalUnot hr

def UnaryOp.eval : UnaryOp → ℤ → ℤ
  | uminus, x => -x
  | abs, x => |x|
  | sign, x => x.sign
  | unot, x => -x - 1

-- ---------------------------------------------------------------------------
-- Exact results in normal form
-- ---------------------------------------------------------------------------

variable {hr : Addr} {t : Term} {x : ℤ} {c : Calc Term}

/-- The call returns the integer in normal form, and no signed operation overflows. -/
def YieldsNormal (c : Calc Term) (x : ℤ) : Prop := ∃ t, c.ReturnsExactly t ∧ IsNormalForm x t

theorem yieldsNormal_iff (h : c.run false = .ok (mkBigIntTerm hr x, false)) : YieldsNormal c x ↔ ¬ InBand x := by
  rw [← boxable_intCast, ← isNormalForm_mkBigRatTerm_iff hr, mkBigRatTerm_intCast]
  constructor
  · rintro ⟨t, ht, hnormal⟩
    obtain ⟨rfl, -⟩ := Prod.mk.inj (Except.ok.inj (h.symm.trans ht))
    exact hnormal
  · intro hnormal
    exact ⟨_, h, hnormal⟩

theorem rint_boxed (hr : Addr) {w : Word} (h : w.toInt = x) : (rint hr w).run false = .ok (mkBigIntTerm hr x, false) := by
  rw [← h, ← mkIntegerTerm_eq]
  rfl

/-- A sign is a word. -/
theorem sign_boxed (hr : Addr) (x : ℤ) :
    (pure (mkIntegerTerm hr (BitVec.ofInt 64 x.sign)) : Calc Term).run false = .ok (mkBigIntTerm hr x.sign, false) := by
  have hfits : Word.Fits x.sign := by
    rcases Int.sign_trichotomy x with h | h | h <;> rw [h] <;> decide
  rw [mkIntegerTerm_ofInt hr hfits]
  rfl

theorem toInt_complement (i : Word) : (~~~i).toInt = -i.toInt - 1 := by
  have hlt := i.isLt
  rw [BitVec.toInt_not, BitVec.toInt_eq_toNat_bmod]
  simp only [Int.bmod]
  norm_num
  omega

/-- A function of a word boxes its value, except the absolute value of the least word. -/
theorem unary_word_run (hr : Addr) (op : UnaryOp) {i : Word} (he : eTypeOfTerm t = .longInt i)
    (hmin : ¬ (op = .abs ∧ i.toInt = -2 ^ 63)) : (op.run hr t).run false = .ok (mkBigIntTerm hr (op.eval i.toInt), false) := by
  have hlo := Word.le_toInt i
  have hhi := Word.toInt_lt i
  cases op with
  | uminus =>
    rw [UnaryOp.run, evalUminus, he]
    by_cases hi : i = Word.intMin
    · subst hi
      rfl
    · have hne : i.toInt ≠ -2 ^ 63 := fun h => hi (Word.toInt_eq_intMin.mp h)
      have hfits : Word.Fits (-i.toInt) := by simp only [Word.Fits]; omega
      simp only [if_neg hi]
      rw [signed_bind_run, decide_eq_true hfits]
      exact rint_boxed hr (by rw [BitVec.toInt_neg, Word.bmod_of_fits hfits, UnaryOp.eval])
  | abs =>
    have hne : i.toInt ≠ -2 ^ 63 := fun h => hmin ⟨rfl, h⟩
    have hfits : Word.Fits |i.toInt| := by
      have habs := abs_cases i.toInt
      simp only [Word.Fits]
      omega
    rw [UnaryOp.run, evalAbs, he]
    simp only [labs]
    rw [signed_bind_run, decide_eq_true hfits]
    refine rint_boxed hr ?_
    by_cases hneg : i.toInt < 0
    · rw [abs_of_neg hneg] at hfits
      rw [if_pos hneg, BitVec.toInt_neg, Word.bmod_of_fits hfits, UnaryOp.eval, abs_of_neg hneg]
    · rw [if_neg hneg, UnaryOp.eval, abs_of_nonneg (not_lt.mp hneg)]
  | sign =>
    rw [UnaryOp.run, evalSign, he]
    refine rint_boxed hr ?_
    by_cases hpos : 0 < i.toInt
    · rw [if_pos hpos, UnaryOp.eval, Int.sign_eq_one_of_pos hpos]
      decide
    · by_cases hneg : i.toInt < 0
      · rw [if_neg hpos, if_pos hneg, UnaryOp.eval, Int.sign_eq_neg_one_of_neg hneg]
        decide
      · have hzero : i.toInt = 0 := by omega
        rw [if_neg hpos, if_neg hneg, UnaryOp.eval, hzero]
        decide
  | unot =>
    rw [UnaryOp.run, evalUnot, he]
    exact rint_boxed hr (toInt_complement i)

theorem unary_big_run (hr : Addr) (op : UnaryOp) {b : BigInt} (he : eTypeOfTerm t = .bigInt (.int b)) :
    (op.run hr t).run false = .ok (mkBigIntTerm hr (op.eval b.1), false) := by
  cases op with
  | uminus =>
    rw [UnaryOp.run, evalUminus, he]
    rfl
  | abs =>
    rw [UnaryOp.run, evalAbs, he]
    rfl
  | sign =>
    rw [UnaryOp.run, evalSign, he]
    exact sign_boxed hr b.1
  | unot =>
    rw [UnaryOp.run, evalUnot, he]
    rfl

/-- The functions are exact and in normal form, apart from results in the band and the absolute value of the least
    word. -/
theorem unary_yieldsNormal_iff (hr : Addr) (op : UnaryOp) (ht : t.intValue? = some x) :
    YieldsNormal (op.run hr t) (op.eval x) ↔ ¬ InBand (op.eval x) ∧ ¬ (op = .abs ∧ x = -2 ^ 63) := by
  rcases Term.intValue?_cases ht with ⟨i, he, rfl, -⟩ | ⟨b, he, rfl, -⟩
  · by_cases hmin : op = .abs ∧ i.toInt = -2 ^ 63
    · obtain ⟨rfl, hi⟩ := hmin
      refine iff_of_false ?_ fun h => h.2 ⟨rfl, hi⟩
      obtain rfl : i = Word.intMin := Word.toInt_eq_intMin.mp hi
      have hrun : (UnaryOp.abs.run hr t).run false = .ok (mkIntegerTerm hr Word.intMin, true) := by
        rw [UnaryOp.run, evalAbs, he]
        rfl
      rintro ⟨u, hu, -⟩
      cases hrun.symm.trans hu
    · rw [yieldsNormal_iff (unary_word_run hr op he hmin), and_iff_left hmin]
  · have hne : ¬ (op = .abs ∧ b.1 = -2 ^ 63) := fun h => b.2 (by rw [h.2]; decide)
    rw [yieldsNormal_iff (unary_big_run hr op he), and_iff_left hne]

/-- The least word is negated to a big integer. -/
theorem unary_neg_intMin :
    YieldsNormal (UnaryOp.uminus.run 0 (.blob 0 (.longInt ⟨Word.intMin, by decide⟩))) (UnaryOp.uminus.eval (-2 ^ 63)) :=
  (unary_yieldsNormal_iff 0 .uminus rfl).mpr ⟨by decide, by decide⟩

/-- The absolute value of the least word overflows. -/
theorem not_unary_abs_intMin :
    ¬ YieldsNormal (UnaryOp.abs.run 0 (.blob 0 (.longInt ⟨Word.intMin, by decide⟩))) (UnaryOp.abs.eval (-2 ^ 63)) := by
  have hrun : (UnaryOp.abs.run 0 (.blob 0 (.longInt ⟨Word.intMin, by decide⟩))).run false =
      .ok (mkIntegerTerm 0 Word.intMin, true) := rfl
  rintro ⟨u, hu, -⟩
  cases hrun.symm.trans hu

end Yap
