-- SUMMARY: The binary arithmetic operators `+`, `-`, `*`, `//`, `div`, `mod` and `rem`, dispatched on the representations of their operands.
import Yap.Arith.Gmp

/-!
# Binary operators

The functions follow `YapEval.h`, `arith2.h` and `arith2.c`. The overflow tests
of `+`, `-` and `*` are the compiler's builtins.
-/

namespace Yap

variable (hr : Addr)

/-- `RINT`. -/
def rint (v : Word) : Calc Term := return mkIntegerTerm hr v

/-- `RFLOAT`. -/
def rfloatTerm (d : Binary64) : Calc Term := return mkFloatTerm hr d

def floatOfWord (i : Word) : Binary64 := Binary64.ofInt i.toInt

-- ---------------------------------------------------------------------------
-- Addition, subtraction and multiplication
-- ---------------------------------------------------------------------------

def addInt (i j : Word) : Calc Term :=
  if i.saddOverflow j then gmpAddInts hr i j else rint hr (i + j)

def subInt (i j : Word) : Calc Term :=
  if i.ssubOverflow j then gmpSubInts hr i j else rint hr (i - j)

def timesInt (i1 i2 : Word) : Calc Term :=
  if i1.smulOverflow i2 then gmpMulInts hr i1 i2 else rint hr (i1 * i2)

def pPlus (t1 t2 : Term) : Calc Term :=
  match eTypeOfTerm t1, eTypeOfTerm t2 with
  | .longInt i1, .longInt i2 => addInt hr i1 i2
  | .longInt i1, .double d2 => rfloatTerm hr ((floatOfWord i1).add d2)
  | .longInt i1, .bigInt b2 => gmpAddIntBig hr i1 b2
  | .double d1, .longInt i2 => rfloatTerm hr (d1.add (floatOfWord i2))
  | .double d1, .double d2 => rfloatTerm hr (d1.add d2)
  | .double d1, .bigInt b2 => gmpAddFloatBig hr d1 b2
  | .bigInt b1, .longInt i2 => gmpAddIntBig hr i2 b1
  | .bigInt b1, .bigInt b2 => gmpAddBigBig hr b1 b2
  | .bigInt b1, .double d2 => gmpAddFloatBig hr d2 b1
  | _, _ => rerror

def pMinus (t1 t2 : Term) : Calc Term :=
  match eTypeOfTerm t1, eTypeOfTerm t2 with
  | .longInt i1, .longInt i2 => subInt hr i1 i2
  | .longInt i1, .double d2 => rfloatTerm hr ((floatOfWord i1).sub d2)
  | .longInt i1, .bigInt b2 => gmpSubIntBig hr i1 b2
  | .double d1, .longInt i2 => rfloatTerm hr (d1.sub (floatOfWord i2))
  | .double d1, .double d2 => rfloatTerm hr (d1.sub d2)
  | .double d1, .bigInt b2 => gmpSubFloatBig hr d1 b2
  | .bigInt b1, .longInt i2 => gmpSubBigInt hr b1 i2
  | .bigInt b1, .bigInt b2 => gmpSubBigBig hr b1 b2
  | .bigInt b1, .double d2 => gmpSubBigFloat hr b1 d2
  | _, _ => rerror

def pTimes (t1 t2 : Term) : Calc Term :=
  match eTypeOfTerm t1, eTypeOfTerm t2 with
  | .longInt i1, .longInt i2 => timesInt hr i1 i2
  | .longInt i1, .double d2 => rfloatTerm hr ((floatOfWord i1).mul d2)
  | .longInt i1, .bigInt b2 => gmpMulIntBig hr i1 b2
  | .double d1, .longInt i2 => rfloatTerm hr (d1.mul (floatOfWord i2))
  | .double d1, .double d2 => rfloatTerm hr (d1.mul d2)
  | .double d1, .bigInt b2 => gmpMulFloatBig hr d1 b2
  | .bigInt b1, .longInt i2 => gmpMulIntBig hr i2 b1
  | .bigInt b1, .bigInt b2 => gmpMulBigBig hr b1 b2
  | .bigInt b1, .double d2 => gmpMulFloatBig hr d2 b1
  | _, _ => rerror

-- ---------------------------------------------------------------------------
-- Division of machine integers
-- ---------------------------------------------------------------------------

/-- `i1 % i2`, with the sign of the divisor where the two differ. -/
def modWord (i1 i2 : Word) : Calc Word := do
  let mod := i1.srem i2
  if mod ≠ 0 ∧ (mod ^^^ i2).toInt < 0 then signed (mod.toInt + i2.toInt) (mod + i2)
  else return mod

/-- The two-integer case of `p_mod`. -/
def modInt (t2 : Term) (i1 i2 : Word) : Calc Term := do
  if i2 = 0 then
    arithError .evaluationErrorZeroDivisor t2 ("X is " ++ toString i1.toInt ++ " mod 0")
  else if i1 = Word.intMin ∧ i2 = -1 then return mkIntTerm 0
  else
    let mod ← modWord i1 i2
    rint hr mod

/-- The two-integer case of `p_div2`. -/
def div2Int (t2 : Term) (i1 i2 : Word) : Calc Term := do
  if i2 = 0 then
    arithError .evaluationErrorZeroDivisor t2 ("X is " ++ toString i1.toInt ++ " div 0")
  else if i1 = Word.intMin ∧ i2 = -1 then gmpAddInts hr Word.intMax 1
  else
    let mod ← modWord i1 i2
    let diff ← signed (i1.toInt - mod.toInt) (i1 - mod)
    let res ← signed (diff.toInt.tdiv i2.toInt) (diff.sdiv i2)
    rint hr res

/-- The two-integer case of `p_div`. -/
def divInt (t2 : Term) (i1 i2 : Word) : Calc Term := do
  if i2 = 0 then arithError .evaluationErrorZeroDivisor t2 "// /2"
  else if i1 = Word.intMin ∧ i2 = -1 then gmpAddInts hr Word.intMax 1
  else
    let res ← signed (i1.toInt.tdiv i2.toInt) (i1.sdiv i2)
    rint hr res

/-- The two-integer case of `p_rem`. -/
def remInt (t2 : Term) (i1 i2 : Word) : Calc Term := do
  if i2 = 0 then
    arithError .evaluationErrorZeroDivisor t2 ("X is " ++ toString i1.toInt ++ " rem 0")
  else if i1 = Word.intMin ∧ i2 = -1 then return mkIntTerm 0
  else rint hr (i1.srem i2)

-- ---------------------------------------------------------------------------
-- Division
-- ---------------------------------------------------------------------------

def pMod (t1 t2 : Term) : Calc Term :=
  match eTypeOfTerm t1, eTypeOfTerm t2 with
  | .longInt i1, .longInt i2 => modInt hr t2 i1 i2
  | .longInt _, .double _ => arithError .typeErrorInteger t2 "mod/2"
  | .longInt i1, .bigInt b2 => gmpModIntBig hr i1 t2 b2
  | .double _, _ => arithError .typeErrorInteger t1 "mod/2"
  | .bigInt b1, .longInt i2 =>
    if i2 = 0 then arithError .evaluationErrorZeroDivisor t2 "X is ... mod 0"
    else gmpModBigInt hr t1 i2 b1
  | .bigInt b1, .bigInt b2 => gmpModBigBig hr t1 t2 b1 b2
  | .bigInt _, .double _ => arithError .typeErrorInteger t2 "mod/2"
  | _, _ => rerror

/-- `p_div2`, the operator `div`. A double on the left is reported through the
    right operand. -/
def pDiv2 (t1 t2 : Term) : Calc Term :=
  match eTypeOfTerm t1, eTypeOfTerm t2 with
  | .longInt i1, .longInt i2 => div2Int hr t2 i1 i2
  | .longInt _, .double _ => arithError .typeErrorInteger t2 "div/2"
  | .longInt i1, .bigInt b2 => gmpDivIntBig hr i1 b2
  | .double _, _ => arithError .typeErrorInteger t2 "div/2"
  | .bigInt b1, .longInt i2 =>
    if i2 = 0 then arithError .evaluationErrorZeroDivisor t2 "X is ... div 0"
    else gmpDiv2BigInt hr b1 i2
  | .bigInt b1, .bigInt b2 => gmpDiv2BigBig hr b1 b2
  | .bigInt _, .double _ => arithError .typeErrorInteger t2 "div/2"
  | _, _ => rerror

/-- `p_div`, the operator `//`. -/
def pDiv (t1 t2 : Term) : Calc Term :=
  match eTypeOfTerm t1, eTypeOfTerm t2 with
  | .longInt i1, .longInt i2 => divInt hr t2 i1 i2
  | .longInt _, .double _ => arithError .typeErrorInteger t2 "// /2"
  | .longInt i1, .bigInt b2 => gmpDivIntBig hr i1 b2
  | .double _, _ => arithError .typeErrorInteger t1 "// /2"
  | .bigInt b1, .longInt i2 => gmpDivBigInt hr b1 i2
  | .bigInt b1, .bigInt b2 => gmpDivBigBig hr b1 b2
  | .bigInt _, .double _ => arithError .typeErrorInteger t2 "// /2"
  | _, _ => rerror

def pRem (t1 t2 : Term) : Calc Term :=
  match eTypeOfTerm t1, eTypeOfTerm t2 with
  | .longInt i1, .longInt i2 => remInt hr t2 i1 i2
  | .longInt _, .double _ => arithError .typeErrorInteger t2 "rem/2"
  | .longInt i1, .bigInt b2 => gmpRemIntBig hr i1 t2 b2
  | .double _, _ => arithError .typeErrorInteger t1 "rem/2"
  | .bigInt b1, .longInt i2 =>
    if i2 = 0 then arithError .evaluationErrorZeroDivisor t2 "X is ... rem 0"
    else gmpRemBigInt hr t1 i2 b1
  | .bigInt b1, .bigInt b2 => gmpRemBigBig hr t1 t2 b1 b2
  | .bigInt _, .double _ => arithError .typeErrorInteger t2 "rem/2"
  | _, _ => rerror

end Yap
