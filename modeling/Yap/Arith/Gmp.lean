-- SUMMARY: Arithmetic errors and the overflow record, number terms in normal form, and the GMP wrappers on machine, big and rational operands.
import Yap.Terms.Term

/-!
# Numbers and the GMP wrappers

Multi-precision integers and rationals are Lean's own. The functions follow
`bignum.c` and `gmp_support.c`; `hr` is the place at the top of the global stack
where a result is boxed.
-/

namespace Yap

-- ---------------------------------------------------------------------------
-- Results
-- ---------------------------------------------------------------------------

inductive ErrorId where
  | evaluationErrorZeroDivisor
  | evaluationErrorUndefined
  | evaluationErrorIntOverflow
  | typeErrorInteger
  | typeErrorEvaluable
  | instantiationError
  | domainErrorNotLessThanZero
  | resourceErrorHugeInt
deriving DecidableEq

/-- How an evaluation ends without a number: an error is thrown, the null term
    of `RERROR` comes back, or GMP aborts on a zero denominator. -/
inductive ArithError where
  | thrown (id : ErrorId) (culprit : Term) (text : String)
  | null
  | aborted

/-- A computation on machine words. The state records whether the exact result
    of some signed operation has left the range of a word. -/
abbrev Calc (α : Type) : Type := StateT Bool (Except ArithError) α

def arithError {α : Type} (id : ErrorId) (culprit : Term) (text : String) : Calc α :=
  throw (.thrown id culprit text)

/-- `RERROR()`. -/
def rerror {α : Type} : Calc α := throw .null

/-- A signed operation with exact result `z`, which the machine computes as `w`. -/
def signed (z : ℤ) (w : Word) : Calc Word := do
  modify (· || !decide (Word.Fits z))
  return w

/-- The computation ends with the value `a`. -/
def Calc.Returns {α : Type} (c : Calc α) (a : α) : Prop := ∃ overflow, c.run false = .ok (a, overflow)

/-- The computation ends with the value `a`, and no signed operation overflows. -/
def Calc.ReturnsExactly {α : Type} (c : Calc α) (a : α) : Prop := c.run false = .ok (a, false)

theorem Calc.Returns.inj {α : Type} {c : Calc α} {a b : α} (ha : c.Returns a) (hb : c.Returns b) :
    a = b := by
  obtain ⟨_, ha⟩ := ha
  obtain ⟨_, hb⟩ := hb
  have hab := ha.symm.trans hb
  injection hab with hab
  exact congrArg Prod.fst hab

/-- A signed operation only adds to the record of overflows. -/
@[simp] theorem signed_bind_run {α : Type} (z : ℤ) (w : Word) (f : Word → Calc α) (o : Bool) :
    (signed z w >>= f).run o = (f w).run (o || !decide (Word.Fits z)) := rfl

@[simp] theorem signed_run (z : ℤ) (w : Word) (o : Bool) :
    (signed z w).run o = .ok (w, o || !decide (Word.Fits z)) := rfl

theorem Calc.bind_run {α β : Type} {c : Calc α} {a : α} {o o' : Bool} (h : c.run o = .ok (a, o'))
    (f : α → Calc β) : (c >>= f).run o = (f a).run o' := by
  rw [StateT.run_bind, h]
  rfl

@[simp] theorem Calc.pure_run {α : Type} (a : α) (o : Bool) : (pure a : Calc α).run o = .ok (a, o) := rfl

-- ---------------------------------------------------------------------------
-- Number terms
-- ---------------------------------------------------------------------------

/-- `Yap_MkBigIntTerm`: an integer that fits a word is not boxed as a big one. -/
def mkBigIntTerm (hr : Addr) (big : ℤ) : Term :=
  if h : Word.Fits big then mkIntegerTerm hr (BitVec.ofInt 64 big)
  else .blob hr (.bigInt (.int ⟨big, h⟩))

/-- `Yap_MkBigRatTerm`: a rational with denominator 1 is not boxed as one. -/
def mkBigRatTerm (hr : Addr) (big : ℚ) : Term :=
  if h : big.den = 1 then mkBigIntTerm hr big.num
  else .blob hr (.bigInt (.rat ⟨big, h⟩))

def mkFloatTerm (hr : Addr) (d : Binary64) : Term := .blob hr (.double d)

/-- `ETypeOfTerm` with the operand that its answer lets the caller read. -/
inductive EType where
  | longInt (i : Word)
  | double (d : Binary64)
  | bigInt (b : BigNum)
  | dbRef

def eTypeOfTerm : Term → EType
  | .int n => .longInt (intOfTerm n)
  | .blob _ (.double d) => .double d
  | .blob _ (.longInt n) => .longInt n.1
  | .blob _ (.bigInt b) => .bigInt b
  | _ => .dbRef

-- ---------------------------------------------------------------------------
-- Addition, subtraction and multiplication
-- ---------------------------------------------------------------------------

/-- The value of the contents of a `FunctorBigInt` box. -/
def BigNum.val : BigNum → ℚ
  | .int z => z.1
  | .rat q => q.1

/-- `Yap_gmp_add_ints`. -/
def gmpAddInts (hr : Addr) (i j : Word) : Calc Term := do
  if 0 < j.toInt then
    return mkBigIntTerm hr (i.toInt + j.toNat)
  else
    let below ← signed (j.toInt - 1) (j - 1)
    if 0 < below.toInt then
      -- negative overflow
      let above ← signed (j.toInt + 1) (j + 1)
      let rest ← signed (-above.toInt) (-above)
      return mkBigIntTerm hr (i.toInt - rest.toNat - 1)
    else
      let rest ← signed (-j.toInt) (-j)
      return mkBigIntTerm hr (i.toInt - rest.toNat)

/-- `Yap_gmp_sub_ints`. -/
def gmpSubInts (hr : Addr) (i j : Word) : Calc Term := do
  if 0 < j.toInt then
    return mkBigIntTerm hr (i.toInt - j.toNat)
  else
    let below ← signed (j.toInt - 1) (j - 1)
    if 0 < below.toInt then
      -- negative overflow
      let above ← signed (j.toInt + 1) (j + 1)
      let rest ← signed (-above.toInt) (-above)
      return mkBigIntTerm hr (i.toInt + rest.toNat + 1)
    else
      let rest ← signed (-j.toInt) (-j)
      return mkBigIntTerm hr (i.toInt + rest.toNat)

/-- `Yap_gmp_mul_ints`. -/
def gmpMulInts (hr : Addr) (i j : Word) : Calc Term :=
  return mkBigIntTerm hr (i.toInt * j.toInt)

/-- The wrappers of a ring operation: a big integer takes the integer operation,
    a rational takes the rational one. -/
def gmpIntBig (hr : Addr) (opZ : ℤ → ℤ → ℤ) (opQ : ℚ → ℚ → ℚ) (i : Word) : BigNum → Calc Term
  | .int b => return mkBigIntTerm hr (opZ i.toInt b.1)
  | .rat b => return mkBigRatTerm hr (opQ i.toInt b.1)

def gmpBigBig (hr : Addr) (opZ : ℤ → ℤ → ℤ) (opQ : ℚ → ℚ → ℚ) : BigNum → BigNum → Calc Term
  | .int b1, .int b2 => return mkBigIntTerm hr (opZ b1.1 b2.1)
  | b1, b2 => return mkBigRatTerm hr (opQ b1.val b2.val)

/-- `Yap_gmp_add_int_big`. -/
def gmpAddIntBig (hr : Addr) : Word → BigNum → Calc Term := gmpIntBig hr (· + ·) (· + ·)

/-- `Yap_gmp_sub_int_big`. -/
def gmpSubIntBig (hr : Addr) : Word → BigNum → Calc Term := gmpIntBig hr (· - ·) (· - ·)

/-- `Yap_gmp_mul_int_big`. -/
def gmpMulIntBig (hr : Addr) : Word → BigNum → Calc Term := gmpIntBig hr (· * ·) (· * ·)

/-- `Yap_gmp_sub_big_int`: an integer operand is negated and added. -/
def gmpSubBigInt (hr : Addr) (b : BigNum) (i : Word) : Calc Term :=
  gmpIntBig hr (fun i b => -i + b) (fun i b => b - i) i b

/-- `Yap_gmp_add_big_big`. -/
def gmpAddBigBig (hr : Addr) : BigNum → BigNum → Calc Term := gmpBigBig hr (· + ·) (· + ·)

/-- `Yap_gmp_sub_big_big`. -/
def gmpSubBigBig (hr : Addr) : BigNum → BigNum → Calc Term := gmpBigBig hr (· - ·) (· - ·)

/-- `Yap_gmp_mul_big_big`. -/
def gmpMulBigBig (hr : Addr) : BigNum → BigNum → Calc Term := gmpBigBig hr (· * ·) (· * ·)

/-- `mpz_get_d` and `mpq_get_d` both truncate. -/
def BigNum.toFloat (b : BigNum) : Binary64 := Binary64.truncRat b.val

def gmpAddFloatBig (hr : Addr) (d : Binary64) (b : BigNum) : Calc Term :=
  return mkFloatTerm hr (d.add b.toFloat)

def gmpSubFloatBig (hr : Addr) (d : Binary64) (b : BigNum) : Calc Term :=
  return mkFloatTerm hr (d.sub b.toFloat)

def gmpSubBigFloat (hr : Addr) (b : BigNum) (d : Binary64) : Calc Term :=
  return mkFloatTerm hr (b.toFloat.sub d)

def gmpMulFloatBig (hr : Addr) (d : Binary64) (b : BigNum) : Calc Term :=
  return mkFloatTerm hr (d.mul b.toFloat)

-- ---------------------------------------------------------------------------
-- Division
-- ---------------------------------------------------------------------------

/-- The test `(-3 / 2) == -2` by which `//` picks a division of GMP. The
    division of C truncates, so it is false. -/
def divRoundsDown : Bool := Int.tdiv (-3) 2 == -2

/-- `Yap_gmp_div_int_big`. -/
def gmpDivIntBig (hr : Addr) (i : Word) : BigNum → Calc Term
  | .int _ => return mkIntTerm 0
  | .rat b => return mkBigRatTerm hr (i.toInt / b.1)

/-- `Yap_gmp_div_big_int`. -/
def gmpDivBigInt (hr : Addr) (t : BigNum) (i : Word) : Calc Term :=
  match t with
  | .int b => do
    if divRoundsDown then
      if 0 < i.toInt then return mkBigIntTerm hr (b.1.tdiv i.toNat)
      else if i = 0 then arithError .evaluationErrorZeroDivisor (mkIntTerm 0) "// /2"
      else
        let i' ← signed (-i.toInt) (-i)
        return mkBigIntTerm hr (-b.1.tdiv i'.toNat)
    else
      if 0 < i.toInt then return mkBigIntTerm hr (b.1.fdiv i.toNat)
      else if i = 0 then arithError .evaluationErrorZeroDivisor (mkIntTerm 0) "// /2"
      else
        let i' ← signed (-i.toInt) (-i)
        return mkBigIntTerm hr (-b.1.fdiv i'.toNat)
  | .rat b => if i = 0 then throw .aborted else return mkBigRatTerm hr (b.1 / i.toInt)

/-- `Yap_gmp_div2_big_int`. -/
def gmpDiv2BigInt (hr : Addr) (t : BigNum) (i : Word) : Calc Term :=
  match t with
  | .int b => do
    if 0 < i.toInt then return mkBigIntTerm hr (b.1.fdiv i.toNat)
    else if i = 0 then arithError .evaluationErrorZeroDivisor (mkIntTerm 0) "// /2"
    else
      let i' ← signed (-i.toInt) (-i)
      return mkBigIntTerm hr (-b.1.fdiv i'.toNat)
  | .rat b => if i = 0 then throw .aborted else return mkBigRatTerm hr (b.1 / i.toInt)

/-- `Yap_gmp_div_big_big`. -/
def gmpDivBigBig (hr : Addr) : BigNum → BigNum → Calc Term :=
  gmpBigBig hr (if divRoundsDown then Int.tdiv else Int.fdiv) (· / ·)

/-- `Yap_gmp_div2_big_big`. -/
def gmpDiv2BigBig (hr : Addr) : BigNum → BigNum → Calc Term := gmpBigBig hr Int.fdiv (· / ·)

-- ---------------------------------------------------------------------------
-- Modulus and remainder
-- ---------------------------------------------------------------------------

/-- The wrappers that only big integers may enter. -/
def gmpOnInts (hr : Addr) (text : String) (op : ℤ → ℤ → ℤ) (t1 t2 : Term) :
    BigNum → BigNum → Calc Term
  | .int b1, .int b2 => return mkBigIntTerm hr (op b1.1 b2.1)
  | .rat _, _ => arithError .typeErrorInteger t1 text
  | .int _, .rat _ => arithError .typeErrorInteger t2 text

/-- `Yap_gmp_mod_big_big`. -/
def gmpModBigBig (hr : Addr) : Term → Term → BigNum → BigNum → Calc Term :=
  gmpOnInts hr "mod/2" Int.fmod

/-- `Yap_gmp_rem_big_big`. -/
def gmpRemBigBig (hr : Addr) : Term → Term → BigNum → BigNum → Calc Term :=
  gmpOnInts hr "rem/2" Int.tmod

/-- The wrappers of a division of a big integer by a word. -/
def gmpOnBigInt (hr : Addr) (text : String) (op : ℤ → ℤ → ℤ) (t : Term) (i2 : Word) :
    BigNum → Calc Term
  | .int b => return mkBigIntTerm hr (op b.1 i2.toInt)
  | .rat _ => arithError .typeErrorInteger t text

/-- `Yap_gmp_mod_big_int`. -/
def gmpModBigInt (hr : Addr) : Term → Word → BigNum → Calc Term := gmpOnBigInt hr "mod/2" Int.fmod

/-- `Yap_gmp_rem_big_int`. -/
def gmpRemBigInt (hr : Addr) : Term → Word → BigNum → Calc Term := gmpOnBigInt hr "rem/2" Int.tmod

/-- `Yap_gmp_mod_int_big`: the machine integer is taken to be the smaller one. -/
def gmpModIntBig (hr : Addr) (i1 : Word) (t : Term) : BigNum → Calc Term
  | .rat _ => arithError .typeErrorInteger t "mod/2"
  | .int b =>
    if 0 < b.1 then
      if 0 < i1.toInt then return mkIntegerTerm hr i1
      else return mkBigIntTerm hr (i1.toInt + b.1)
    else
      if 0 < i1.toInt then return mkBigIntTerm hr (b.1 + i1.toInt)
      else return mkIntegerTerm hr i1

/-- `Yap_gmp_rem_int_big`. -/
def gmpRemIntBig (hr : Addr) (i1 : Word) (t : Term) : BigNum → Calc Term
  | .rat _ => arithError .typeErrorInteger t "rem/2"
  | .int _ => return mkIntegerTerm hr i1

-- ---------------------------------------------------------------------------
-- Comparison
-- ---------------------------------------------------------------------------

/-- `mpz_cmp` and `mpz_cmp_si`. -/
def mpzCmp (a b : ℤ) : ℤ := (a - b).sign

/-- `mpq_cmp` and `mpq_cmp_si`. -/
def mpqCmp (a b : ℚ) : ℤ := if a < b then -1 else if a = b then 0 else 1

theorem compare_intCast (a b : ℤ) : compare (a : ℚ) (b : ℚ) = compare a b :=
  signOf.compare_congr (fun h => by exact_mod_cast h) (fun h => by exact_mod_cast h)
    (fun h => by exact_mod_cast h)

theorem signOf_mpzCmp (a b : ℤ) : signOf (mpzCmp a b) = compare a b := by
  unfold mpzCmp
  refine signOf.eq_compare_iff (fun h => ?_) (fun h => ?_) (fun h => ?_)
  · exact Int.sign_neg_iff.mpr (by omega)
  · rw [h, sub_self]; rfl
  · exact Int.sign_pos_iff.mpr (by omega)

theorem signOf_mpqCmp (a b : ℚ) : signOf (mpqCmp a b) = compare a b := by
  refine signOf.eq_compare_iff (fun h => ?_) (fun h => ?_) (fun h => ?_) <;> unfold mpqCmp
  · rw [if_pos h]; decide
  · rw [h, if_neg (lt_irrefl b), if_pos rfl]
  · rw [if_neg (lt_asymm h), if_neg h.ne']; decide

/-- `Yap_gmp_cmp_big_int`. -/
def gmpCmpBigInt (t : BigNum) (i : Word) : ℤ :=
  match t with
  | .int b => mpzCmp b.1 i.toInt
  | .rat b => mpqCmp b.1 i.toInt

/-- `Yap_gmp_cmp_int_big`. -/
def gmpCmpIntBig (i : Word) (t : BigNum) : ℤ :=
  match t with
  | .int b => -mpzCmp b.1 i.toInt
  | .rat b => -mpqCmp b.1 i.toInt

/-- `Yap_gmp_cmp_big_big`. A big integer is converted to a rational that is
    cleared before the comparison reads it: `cleared` is what it holds then. -/
def gmpCmpBigBig (cleared : ℚ → ℚ) : BigNum → BigNum → ℤ
  | .int b1, .int b2 => mpzCmp b1.1 b2.1
  | .int b1, .rat b2 => mpqCmp (cleared b1.1) b2.1
  | .rat b1, .int b2 => mpqCmp b1.1 (cleared b2.1)
  | .rat b1, .rat b2 => mpqCmp b1.1 b2.1

/-- `Yap_gmp_tcmp_big_int`: rationals come before integers. -/
def gmpTcmpBigInt (t : BigNum) (i : Word) : ℤ :=
  match t with
  | .int b => mpzCmp b.1 i.toInt
  | .rat _ => -1

/-- `Yap_gmp_tcmp_int_big`. -/
def gmpTcmpIntBig (i : Word) (t : BigNum) : ℤ :=
  match t with
  | .int b => -mpzCmp b.1 i.toInt
  | .rat _ => 1

/-- `Yap_gmp_tcmp_big_big`. -/
def gmpTcmpBigBig : BigNum → BigNum → ℤ
  | .int b1, .int b2 => mpzCmp b1.1 b2.1
  | .int _, .rat _ => 1
  | .rat _, .int _ => -1
  | .rat b1, .rat b2 => mpqCmp b1.1 b2.1

end Yap
