-- SUMMARY: The operators `^` and `**`, and when the loop on machine words behind `^` gives the power without an overflow.
import Yap.Arith.Division

/-!
# Powers

A power of machine integers is computed by a loop when an estimate of its size
is small, and by GMP when the loop returns zero. The estimate multiplies the
exponent by the result of `msb`.
-/

namespace Yap

-- ---------------------------------------------------------------------------
-- The most significant bit
-- ---------------------------------------------------------------------------

/-- What `msb` is compiled to: `ffsll` where the configuration has found it, and a binary search elsewhere. -/
inductive MsbBuild where
  | search
  | ffsll
deriving DecidableEq

/-- One step of the search, on the rest of the number and the bits found so far. -/
def msbStep (mask : Word) (k : ℕ) (s : Word × ℕ) : Word × ℕ :=
  if s.1 &&& (mask <<< k) ≠ 0 then (s.1.sshiftRight k, s.2 + k) else s

def msbSearch (inp : Word) : ℕ :=
  if inp = 0 then 0
  else
    let s := msbStep 0x3 2 (msbStep 0xf 4 (msbStep 0xff 8 (msbStep 0xffff 16 (msbStep 0xffffffff 32 (inp, 0)))))
    if s.1 &&& ((0x1 : Word) <<< 1) ≠ 0 then s.2 + 1 else s.2

/-- `ffsll` of the C library: the place of the least significant bit, where the first one is 1. -/
def ffsll (inp : Word) : ℕ := if inp = 0 then 0 else padicValNat 2 inp.toNat + 1

/-- The text of an integer printed as an `int`. -/
def intText (i : Word) : String := toString (i.setWidth 32).toInt

/-- `Yap_msb`. -/
def yapMsb (build : MsbBuild) (hr : Addr) (inp : Word) : Calc ℕ := do
  if inp.toInt < 0 then
    arithError .domainErrorNotLessThanZero (mkIntegerTerm hr inp) ("msb/1 received " ++ intText inp)
  else
    match build with
    | .search => return msbSearch inp
    | .ffsll => return ffsll inp

-- ---------------------------------------------------------------------------
-- Powers of machine integers
-- ---------------------------------------------------------------------------

/-- The loop of `ipow`; its exponent is not negative. -/
def ipowLoop (r x : Word) (p : ℕ) : Calc Word := do
  let r ← if p % 2 = 1 then signed (r.toInt * x.toInt) (r * x) else pure r
  if p / 2 = 0 then return r
  else
    let x ← signed (x.toInt * x.toInt) (x * x)
    ipowLoop r x (p / 2)
termination_by p
decreasing_by omega

/-- `x < 0 ? -x : x`. -/
def absInt (x : Word) : Calc Word := if x.toInt < 0 then signed (-x.toInt) (-x) else pure x

def ipow (build : MsbBuild) (hr : Addr) (x p : Word) : Calc Word := do
  if p = 0 then return 1
  else if x = 0 ∧ 0 < p.toInt then return 0
  else if p.toInt < 0 then
    let odd ← signed (-p.toInt) (-p)
    return if odd.srem 2 ≠ 0 then x else 1
  else
    let px ← absInt x
    let msb ← yapMsb build hr px
    let nbits ← signed (msb * p.toInt) (BitVec.ofNat 64 msb * p)
    -- the bound is a `size_t`, so the estimate is read without its sign
    if 64 - 3 < nbits.toNat then return 0
    else ipowLoop 1 x p.toNat

/-- `Yap_gmp_exp_int_int`. -/
def gmpExpIntInt (hr : Addr) (i1 i2 : Word) : Calc Term := return mkBigIntTerm hr (i1.toInt ^ i2.toNat)

/-- The two-integer case of `p_exp`. -/
def expInt (build : MsbBuild) (hr : Addr) (t2 : Term) (i1 i2 : Word) : Calc Term := do
  if i2.toInt < 0 then
    arithError .domainErrorNotLessThanZero t2 (intText i1 ++ " ^ " ++ intText i2)
  else
    let pow ← ipow build hr i1 i2
    if i1 ≠ 0 ∧ pow = 0 then gmpExpIntInt hr i1 i2
    else rint hr pow

-- ---------------------------------------------------------------------------
-- The operators
-- ---------------------------------------------------------------------------

section Operators

-- `pow` of the C library, and what the two GMP conversions read in a box, whichever number it holds
variable (pow : Binary64 → Binary64 → Binary64) (mpzGetD mpqGetD : BigNum → Binary64)

/-- `Yap_gmp_exp_big_int`. The inverse that a negative exponent asks for does not exist. -/
def gmpExpBigInt (hr : Addr) (b : BigNum) (i : Word) : Calc Term :=
  match b with
  | .int z =>
    if 0 < i.toInt then return mkBigIntTerm hr (z.1 ^ i.toNat)
    else if i = 0 then return mkIntTerm 1
    else throw .aborted
  | .rat q => rfloatTerm hr (pow (mpqGetD (.rat q)) (floatOfWord i))

/-- `Yap_gmp_exp_int_big`. A rational exponent is read as an integer. -/
def gmpExpIntBig (hr : Addr) (i : Word) (t : Term) : BigNum → Calc Term
  | .int _ => arithError .resourceErrorHugeInt t "^/2"
  | .rat q => rfloatTerm hr (pow (floatOfWord i) (mpzGetD (.rat q)))

/-- `Yap_gmp_exp_big_big`. A rational base is read as an integer and an integer base as a
    rational, and the test on the exponent looks at another word than its tag. -/
def gmpExpBigBig (hr : Addr) (t2 : Term) : BigNum → BigNum → Calc Term
  | .int _, .int _ => arithError .resourceErrorHugeInt t2 "^/2"
  | .rat q1, b2 => rfloatTerm hr (pow (mpzGetD (.rat q1)) (mpzGetD b2))
  | .int z1, b2 => rfloatTerm hr (pow (mpqGetD (.int z1)) (mpzGetD b2))

/-- `p_exp`, the operator `^`. -/
def pExp (build : MsbBuild) (hr : Addr) (t1 t2 : Term) : Calc Term :=
  match eTypeOfTerm t1, eTypeOfTerm t2 with
  | .longInt i1, .longInt i2 => expInt build hr t2 i1 i2
  | .longInt i1, .double d2 => rfloatTerm hr (pow (floatOfWord i1) d2)
  | .longInt i1, .bigInt b2 => gmpExpIntBig pow mpzGetD hr i1 t2 b2
  | .double d1, .longInt i2 => rfloatTerm hr (pow d1 (floatOfWord i2))
  | .double d1, .double d2 => rfloatTerm hr (pow d1 d2)
  | .double d1, .bigInt b2 => rfloatTerm hr (pow d1 b2.toFloat)
  | .bigInt b1, .longInt i2 => gmpExpBigInt pow mpqGetD hr b1 i2
  | .bigInt b1, .bigInt b2 => gmpExpBigBig pow mpzGetD mpqGetD hr t2 b1 b2
  | .bigInt b1, .double d2 => rfloatTerm hr (pow b1.toFloat d2)
  | _, _ => rerror

/-- `p_power`, the operator `**`: a power of floats. -/
def pPower (hr : Addr) (t1 t2 : Term) : Calc Term :=
  match eTypeOfTerm t1, eTypeOfTerm t2 with
  | .longInt i1, .longInt i2 => rfloatTerm hr (pow (floatOfWord i1) (floatOfWord i2))
  | .longInt i1, .double d2 => rfloatTerm hr (pow (floatOfWord i1) d2)
  | .longInt i1, .bigInt b2 => rfloatTerm hr (pow (floatOfWord i1) b2.toFloat)
  | .double d1, .longInt i2 => rfloatTerm hr (pow d1 (floatOfWord i2))
  | .double d1, .double d2 => rfloatTerm hr (pow d1 d2)
  | .double d1, .bigInt b2 => rfloatTerm hr (pow d1 b2.toFloat)
  | .bigInt b1, .longInt i2 => rfloatTerm hr (pow b1.toFloat (floatOfWord i2))
  | .bigInt b1, .bigInt b2 => rfloatTerm hr (pow b1.toFloat b2.toFloat)
  | .bigInt b1, .double d2 => rfloatTerm hr (pow b1.toFloat d2)
  | _, _ => rerror

end Operators

-- ---------------------------------------------------------------------------
-- The estimate
-- ---------------------------------------------------------------------------

theorem and_shiftLeft_mask {v k : ℕ} (h : v < 2 ^ (2 * k)) : v &&& ((2 ^ k - 1) <<< k) = v / 2 ^ k * 2 ^ k := by
  apply Nat.eq_of_testBit_eq
  intro i
  rw [Nat.testBit_and, Nat.testBit_shiftLeft, Nat.testBit_two_pow_sub_one, ← Nat.shiftLeft_eq, Nat.testBit_shiftLeft,
    ← Nat.shiftRight_eq_div_pow, Nat.testBit_shiftRight]
  by_cases hk : k ≤ i
  · obtain ⟨j, rfl⟩ := Nat.exists_eq_add_of_le hk
    by_cases hj : j < k
    · simp [hj]
    · have hhigh : v.testBit (k + j) = false :=
        Nat.testBit_lt_two_pow (lt_of_lt_of_le h (Nat.pow_le_pow_right (by norm_num) (by omega)))
      simp [hhigh]
  · simp [hk]

theorem test_iff (mask : Word) {w : Word} {k : ℕ} (hmask : (mask <<< k).toNat = (2 ^ k - 1) <<< k)
    (hw : w.toNat < 2 ^ (2 * k)) : w &&& (mask <<< k) ≠ 0 ↔ 2 ^ k ≤ w.toNat := by
  have hand : (w &&& (mask <<< k)).toNat = w.toNat / 2 ^ k * 2 ^ k := by
    rw [BitVec.toNat_and, hmask, and_shiftLeft_mask hw]
  rw [ne_eq, ← BitVec.toNat_inj, hand]
  simp [Nat.div_eq_zero_iff]

/-- The search has counted the bits that it has cut off. -/
structure Counted (w : Word) (k : ℕ) (s : Word × ℕ) : Prop where
  lt : s.1.toNat < 2 ^ k
  pos : 0 < s.1.toNat
  log : s.2 + Nat.log 2 s.1.toNat = Nat.log 2 w.toNat

theorem Counted.step (mask : Word) {w : Word} {k : ℕ} {s : Word × ℕ} (h : Counted w (2 * k) s) (hs : s.1.toNat < 2 ^ 63)
    (hmask : (mask <<< k).toNat = (2 ^ k - 1) <<< k) : Counted w k (msbStep mask k s) := by
  unfold msbStep
  simp only [test_iff mask hmask h.lt]
  by_cases hle : 2 ^ k ≤ s.1.toNat
  · rw [if_pos hle]
    have hsign : s.1.msb = false := by
      rw [BitVec.msb_eq_false_iff_two_mul_lt]
      omega
    have hshift : (s.1.sshiftRight k).toNat = s.1.toNat / 2 ^ k := by
      rw [BitVec.toNat_sshiftRight_of_msb_false hsign, Nat.shiftRight_eq_div_pow]
    have hlog : k ≤ Nat.log 2 s.1.toNat := Nat.le_log_of_pow_le (by norm_num) hle
    have hcount := h.log
    refine ⟨?_, ?_, ?_⟩
    · rw [hshift, Nat.div_lt_iff_lt_mul (by positivity), ← pow_add, ← two_mul]
      exact h.lt
    · rw [hshift]
      exact Nat.div_pos hle (by positivity)
    · rw [hshift, Nat.log_div_base_pow]
      omega
  · rw [if_neg hle]
    exact ⟨not_le.mp hle, h.pos, h.log⟩

/-- The search finds the most significant bit. -/
theorem msbSearch_eq {w : Word} (hpos : 0 < w.toNat) (hlt : w.toNat < 2 ^ 63) : msbSearch w = Nat.log 2 w.toNat := by
  have hne : w ≠ 0 := fun h => by simp [h] at hpos
  have h64 : Counted w (2 * 32) (w, 0) := ⟨by omega, hpos, Nat.zero_add _⟩
  have h32 : Counted w (2 * 16) _ := h64.step 0xffffffff hlt (by decide)
  have h16 : Counted w (2 * 8) _ := h32.step 0xffff (lt_trans h32.lt (by norm_num)) (by decide)
  have h8 : Counted w (2 * 4) _ := h16.step 0xff (lt_trans h16.lt (by norm_num)) (by decide)
  have h4 : Counted w (2 * 2) _ := h8.step 0xf (lt_trans h8.lt (by norm_num)) (by decide)
  have h2 : Counted w (2 * 1) _ := h4.step 0x3 (lt_trans h4.lt (by norm_num)) (by decide)
  unfold msbSearch
  rw [if_neg hne]
  generalize msbStep 0x3 2 (msbStep 0xf 4 (msbStep 0xff 8 (msbStep 0xffff 16 (msbStep 0xffffffff 32 (w, 0))))) = s at h2
  have htest := test_iff 0x1 (k := 1) (by decide) h2.lt
  have hcount := h2.log
  have hsmall : s.1.toNat < 4 := h2.lt
  by_cases hle : 2 ≤ s.1.toNat
  · have hlog : Nat.log 2 s.1.toNat = 1 := Nat.log_eq_one_iff.mpr ⟨by omega, by norm_num, hle⟩
    rw [if_pos (htest.mpr hle)]
    omega
  · have hlog : Nat.log 2 s.1.toNat = 0 := Nat.log_of_lt (not_le.mp hle)
    rw [if_neg (mt htest.mp hle)]
    omega

-- ---------------------------------------------------------------------------
-- The loop
-- ---------------------------------------------------------------------------

section Loop

variable (r x : Word) (o : Bool)

theorem ipowLoop_one : (ipowLoop r x 1).run o = .ok (r * x, o || !decide (Word.Fits (r.toInt * x.toInt))) := by
  rw [ipowLoop]
  rfl

theorem ipowLoop_odd {p : ℕ} (hodd : p % 2 = 1) (hp : p / 2 ≠ 0) :
    (ipowLoop r x p).run o = (ipowLoop (r * x) (x * x) (p / 2)).run
      ((o || !decide (Word.Fits (r.toInt * x.toInt))) || !decide (Word.Fits (x.toInt * x.toInt))) := by
  rw [ipowLoop, if_pos hodd]
  simp only [if_neg hp]
  rfl

theorem ipowLoop_even {p : ℕ} (heven : p % 2 ≠ 1) (hp : p / 2 ≠ 0) :
    (ipowLoop r x p).run o =
      (ipowLoop r (x * x) (p / 2)).run (o || !decide (Word.Fits (x.toInt * x.toInt))) := by
  rw [ipowLoop, if_neg heven]
  simp only [if_neg hp]
  rfl

/-- A recorded overflow stays recorded. -/
theorem ipowLoop_overflowed {p : ℕ} (hp : 1 ≤ p) : ∃ w, (ipowLoop r x p).run true = .ok (w, true) := by
  induction p using Nat.strong_induction_on generalizing r x with
  | _ p ih =>
    by_cases hzero : p / 2 = 0
    · obtain rfl : p = 1 := by omega
      exact ⟨_, ipowLoop_one r x true⟩
    · by_cases hodd : p % 2 = 1
      · rw [ipowLoop_odd r x true hodd hzero]
        exact ih (p / 2) (by omega) (r * x) (x * x) (by omega)
      · rw [ipowLoop_even r x true hodd hzero]
        exact ih (p / 2) (by omega) r (x * x) (by omega)

end Loop

theorem fits_of_mul {a b : ℤ} (hb : 1 ≤ b) (h : Word.Fits (a * b)) : Word.Fits a := by
  obtain ⟨hlo, hhi⟩ := h
  constructor
  · by_contra hlt
    nlinarith
  · by_contra hge
    nlinarith

/-- A square that divides a word is a word, for `2 ^ 63` is no square. -/
theorem fits_square {a x b : ℤ} (ha : a ≠ 0) (hb : 1 ≤ b) (h : Word.Fits (a * (x * x * b))) : Word.Fits (x * x) := by
  obtain ⟨hlo, hhi⟩ := h
  have hsquare : 0 ≤ x * x := mul_self_nonneg x
  have hprod : x * x ≤ x * x * b := le_mul_of_one_le_right hsquare hb
  have hle : x * x ≤ 2 ^ 63 := by
    rcases lt_or_gt_of_ne ha with hneg | hpos
    · nlinarith
    · nlinarith
  have hne : x * x ≠ 2 ^ 63 := by
    intro heq
    rcases le_or_gt |x| 3037000499 with hsmall | hlarge
    · have hmul : |x| * |x| ≤ 3037000499 * 3037000499 := mul_le_mul hsmall hsmall (abs_nonneg x) (by norm_num)
      rw [abs_mul_abs_self, heq] at hmul
      norm_num at hmul
    · have hmul : 3037000500 * 3037000500 ≤ |x| * |x| := mul_le_mul hlarge hlarge (by norm_num) (abs_nonneg x)
      rw [abs_mul_abs_self, heq] at hmul
      norm_num at hmul
  exact ⟨by omega, lt_of_le_of_ne hle hne⟩

theorem toInt_mul_of_fits {x y : Word} (h : Word.Fits (x.toInt * y.toInt)) : (x * y).toInt = x.toInt * y.toInt := by
  rw [BitVec.toInt_mul, Word.bmod_of_fits h]

/-- One turn of the loop keeps the product. -/
theorem pow_odd {p : ℕ} (h : p % 2 = 1) (r x : ℤ) : r * x ^ p = r * x * (x * x) ^ (p / 2) := by
  have hp : p = 2 * (p / 2) + 1 := by omega
  conv_lhs => rw [hp]
  rw [pow_succ, pow_mul, pow_two]
  ring

theorem pow_even {p : ℕ} (h : p % 2 ≠ 1) (r x : ℤ) : r * x ^ p = r * (x * x) ^ (p / 2) := by
  have hp : p = 2 * (p / 2) := by omega
  conv_lhs => rw [hp]
  rw [pow_mul, pow_two]

theorem one_le_pow_square {x : ℤ} (hx : x ≠ 0) (n : ℕ) : 1 ≤ (x * x) ^ n :=
  one_le_pow₀ (mul_self_pos.mpr hx)

/-- Neither the squares nor the products before the power leave the range of a word. -/
theorem ipowLoop_exact {r x : Word} {p : ℕ} (o : Bool) (hr : r.toInt ≠ 0) (hx : x.toInt ≠ 0) (hp : 1 ≤ p)
    (h : Word.Fits (r.toInt * x.toInt ^ p)) :
    (ipowLoop r x p).run o = .ok (BitVec.ofInt 64 (r.toInt * x.toInt ^ p), o) := by
  induction p using Nat.strong_induction_on generalizing r x with
  | _ p ih =>
    by_cases hzero : p / 2 = 0
    · obtain rfl : p = 1 := by omega
      rw [pow_one] at h ⊢
      rw [ipowLoop_one, decide_eq_true h, ← toInt_mul_of_fits h, BitVec.ofInt_toInt]
      simp
    · have hsplit : (x.toInt * x.toInt) ^ (p / 2) = x.toInt * x.toInt * (x.toInt * x.toInt) ^ (p / 2 - 1) := by
        rw [← pow_succ']
        congr 1
        omega
      have hrest := one_le_pow_square hx (p / 2 - 1)
      have hx' : x.toInt * x.toInt ≠ 0 := mul_ne_zero hx hx
      by_cases hodd : p % 2 = 1
      · rw [pow_odd hodd] at h ⊢
        have hprod : Word.Fits (r.toInt * x.toInt) := fits_of_mul (one_le_pow_square hx _) h
        have hsquare : Word.Fits (x.toInt * x.toInt) := fits_square (mul_ne_zero hr hx) hrest (hsplit ▸ h)
        rw [← toInt_mul_of_fits hprod, ← toInt_mul_of_fits hsquare] at h ⊢
        rw [ipowLoop_odd r x o hodd hzero, decide_eq_true hprod, decide_eq_true hsquare]
        simp only [Bool.not_true, Bool.or_false]
        refine ih (p / 2) (by omega) ?_ ?_ (by omega) h
        · rw [toInt_mul_of_fits hprod]
          exact mul_ne_zero hr hx
        · rwa [toInt_mul_of_fits hsquare]
      · rw [pow_even hodd] at h ⊢
        have hsquare : Word.Fits (x.toInt * x.toInt) := fits_square hr hrest (hsplit ▸ h)
        rw [← toInt_mul_of_fits hsquare] at h ⊢
        rw [ipowLoop_even r x o hodd hzero, decide_eq_true hsquare]
        simp only [Bool.not_true, Bool.or_false]
        refine ih (p / 2) (by omega) hr ?_ (by omega) h
        rwa [toInt_mul_of_fits hsquare]

/-- A power that is no word is not reached without an overflow. -/
theorem ipowLoop_overflows {r x : Word} {p : ℕ} (o : Bool) (hp : 1 ≤ p) (h : ¬ Word.Fits (r.toInt * x.toInt ^ p)) :
    ∃ w, (ipowLoop r x p).run o = .ok (w, true) := by
  induction p using Nat.strong_induction_on generalizing r x o with
  | _ p ih =>
    by_cases hzero : p / 2 = 0
    · obtain rfl : p = 1 := by omega
      rw [pow_one] at h
      rw [ipowLoop_one, decide_eq_false h]
      exact ⟨r * x, by simp⟩
    · by_cases hsquare : Word.Fits (x.toInt * x.toInt)
      · by_cases hodd : p % 2 = 1
        · rw [ipowLoop_odd r x o hodd hzero]
          by_cases hprod : Word.Fits (r.toInt * x.toInt)
          · refine ih (p / 2) (by omega) _ (by omega) ?_
            rwa [toInt_mul_of_fits hprod, toInt_mul_of_fits hsquare, ← pow_odd hodd]
          · rw [decide_eq_false hprod, Bool.not_false, Bool.or_true, Bool.true_or]
            exact ipowLoop_overflowed _ _ (by omega)
        · rw [ipowLoop_even r x o hodd hzero]
          refine ih (p / 2) (by omega) _ (by omega) ?_
          rwa [toInt_mul_of_fits hsquare, ← pow_even hodd]
      · by_cases hodd : p % 2 = 1
        · rw [ipowLoop_odd r x o hodd hzero, decide_eq_false hsquare, Bool.not_false, Bool.or_true]
          exact ipowLoop_overflowed _ _ (by omega)
        · rw [ipowLoop_even r x o hodd hzero, decide_eq_false hsquare, Bool.not_false, Bool.or_true]
          exact ipowLoop_overflowed _ _ (by omega)

theorem ipowLoop_ends (x : Word) {p : ℕ} (o : Bool) (hx : x.toInt ≠ 0) (hp : 1 ≤ p) :
    ∃ w o', (ipowLoop 1 x p).run o = .ok (w, o') := by
  by_cases h : Word.Fits ((1 : Word).toInt * x.toInt ^ p)
  · exact ⟨_, _, ipowLoop_exact o (by decide) hx hp h⟩
  · obtain ⟨w, hw⟩ := ipowLoop_overflows o hp h
    exact ⟨w, true, hw⟩

-- ---------------------------------------------------------------------------
-- Powers of words
-- ---------------------------------------------------------------------------

/-- What `msb` returns for a positive number. -/
def MsbBuild.bits : MsbBuild → ℕ → ℕ
  | search, a => Nat.log 2 a
  | ffsll, a => padicValNat 2 a + 1

variable {build : MsbBuild} {hr : Addr}

theorem yapMsb_run {w : Word} (hpos : 0 < w.toInt) (o : Bool) :
    (yapMsb build hr w).run o = .ok (build.bits w.toNat, o) := by
  have hnat := Word.toInt_eq_toNat hpos.le
  have hlt := Word.toInt_lt w
  unfold yapMsb
  rw [if_neg (by omega)]
  cases build with
  | search =>
    rw [MsbBuild.bits, ← msbSearch_eq (by omega) (by omega)]
    rfl
  | ffsll =>
    have hne : w ≠ 0 := fun h => by simp [h] at hpos
    have hplace : ffsll w = padicValNat 2 w.toNat + 1 := if_neg hne
    rw [MsbBuild.bits, ← hplace]
    rfl

theorem absInt_run {x : Word} (hx : x.toInt ≠ 0) (hmin : x ≠ Word.intMin) :
    ∃ px, (∀ o, (absInt x).run o = .ok (px, o)) ∧ 0 < px.toInt ∧ px.toNat = x.toInt.natAbs := by
  unfold absInt
  by_cases hneg : x.toInt < 0
  · have hlo := Word.le_toInt x
    have hne : x.toInt ≠ -2 ^ 63 := fun h => hmin (Word.toInt_eq_intMin.mp h)
    have hfits : Word.Fits (-x.toInt) := by simp only [Word.Fits]; omega
    have hint : (-x).toInt = -x.toInt := by rw [BitVec.toInt_neg, Word.bmod_of_fits hfits]
    have hnat := Word.toNat_neg hneg.le
    refine ⟨-x, fun o => ?_, by omega, by omega⟩
    rw [if_pos hneg, signed_run, decide_eq_true hfits, Bool.not_true, Bool.or_false]
  · have hnat := Word.toInt_eq_toNat (not_lt.mp hneg)
    refine ⟨x, fun o => ?_, by omega, by omega⟩
    rw [if_neg hneg]
    rfl

/-- The power is left to GMP, or it is computed by the loop, and the product of the estimate may overflow. -/
theorem ipow_run (build : MsbBuild) (hr : Addr) {x p : Word} (hx : x.toInt ≠ 0) (hmin : x ≠ Word.intMin) (hp : 0 < p.toInt) :
    (ipow build hr x p).run false =
      if 61 < (BitVec.ofNat 64 (build.bits x.toInt.natAbs) * p).toNat then
        .ok (0, !decide (Word.Fits (build.bits x.toInt.natAbs * p.toInt)))
      else (ipowLoop 1 x p.toNat).run (!decide (Word.Fits (build.bits x.toInt.natAbs * p.toInt))) := by
  obtain ⟨px, hpx, hpos, habs⟩ := absInt_run hx hmin
  have hp0 : p ≠ 0 := fun h => by simp [h] at hp
  have hx0 : x ≠ 0 := fun h => hx (by simp [h])
  unfold ipow
  rw [if_neg hp0, if_neg fun h => hx0 h.1, if_neg (not_lt.mpr hp.le), Calc.bind_run (hpx false),
    Calc.bind_run (yapMsb_run hpos false), habs, signed_bind_run, Bool.false_or]
  split <;> rfl

theorem ipow_intMin (build : MsbBuild) (hr : Addr) {p : Word} (hp : 0 < p.toInt) :
    ∃ t text, (ipow build hr Word.intMin p).run false = .error (.thrown .domainErrorNotLessThanZero t text) := by
  have hp0 : p ≠ 0 := fun h => by simp [h] at hp
  unfold ipow
  rw [if_neg hp0, if_neg fun h => absurd h.1 (by decide), if_neg (not_lt.mpr hp.le)]
  exact ⟨_, _, rfl⟩

-- ---------------------------------------------------------------------------
-- Correct powers
-- ---------------------------------------------------------------------------

/-- The code reaches the power of two words without an overflow: trivially, through GMP, or by the loop. -/
def WordPower (build : MsbBuild) (x : ℤ) (n : ℕ) : Prop :=
  n = 0 ∨ x = 0 ∨
    x ≠ -2 ^ 63 ∧ Word.Fits (build.bits x.natAbs * n) ∧ (61 < build.bits x.natAbs * n ∨ Word.Fits (x ^ n))

theorem yieldsExactly_boxed {c : Calc Term} {z : ℤ} (h : c.run false = .ok (mkBigIntTerm hr z, false)) :
    YieldsExactly c z ↔ ¬ InBand z := by
  rw [yieldsExactly_iff h, mkBigIntTerm_intValue?, and_iff_right rfl]

theorem not_yieldsExactly {c : Calc Term} {t : Term} (z : ℤ) (h : c.run false = .ok (t, true)) :
    ¬ YieldsExactly c z := fun hy => absurd ((yieldsExactly_iff h).mp hy).1 (by decide)

theorem not_yieldsExactly_error {c : Calc Term} {e : ArithError} (z : ℤ) (h : c.run false = .error e) :
    ¬ YieldsExactly c z := by
  rintro ⟨t, ht, -⟩
  cases h.symm.trans ht

variable {t2 : Term} {x p : Word}

/-- What `ipow` returns is boxed, or replaced by the power of GMP. -/
theorem expInt_run (t2 : Term) {pow : Word} {o : Bool} (hp : ¬ p.toInt < 0) (h : (ipow build hr x p).run false = .ok (pow, o)) :
    (expInt build hr t2 x p).run false =
      .ok (if x ≠ 0 ∧ pow = 0 then mkBigIntTerm hr (x.toInt ^ p.toNat) else mkIntegerTerm hr pow, o) := by
  unfold expInt
  rw [if_neg hp, Calc.bind_run h]
  split <;> rfl

theorem expInt_small {v : Word} (hp : 0 ≤ p.toInt) (h : (ipow build hr x p).run false = .ok (v, false))
    (hv : v.toInt = x.toInt ^ p.toNat) :
    YieldsExactly (expInt build hr t2 x p) (x.toInt ^ p.toNat) ↔ ¬ InBand (x.toInt ^ p.toNat) := by
  apply yieldsExactly_boxed
  rw [expInt_run t2 (not_lt.mpr hp) h, ← hv, ← mkIntegerTerm_ofInt hr (Word.fits_toInt v), BitVec.ofInt_toInt, ite_self]

/-- The power of two words where the estimate decides. -/
theorem expInt_estimated (hx : x.toInt ≠ 0) (hmin : x ≠ Word.intMin) (hpos : 0 < p.toInt) :
    YieldsExactly (expInt build hr t2 x p) (x.toInt ^ p.toNat) ↔
      ¬ InBand (x.toInt ^ p.toNat) ∧ Word.Fits (build.bits x.toInt.natAbs * p.toNat) ∧
        (61 < build.bits x.toInt.natAbs * p.toNat ∨ Word.Fits (x.toInt ^ p.toNat)) := by
  have hneg : ¬ p.toInt < 0 := not_lt.mpr hpos.le
  have hnat := Word.toInt_eq_toNat hpos.le
  have hrun := ipow_run build hr hx hmin hpos
  rw [hnat] at hrun
  by_cases hfits : Word.Fits (build.bits x.toInt.natAbs * p.toNat)
  · have hestimate : (BitVec.ofNat 64 (build.bits x.toInt.natAbs) * p).toNat = build.bits x.toInt.natAbs * p.toNat := by
      have hlt := hfits.2
      rw [BitVec.toNat_mul, BitVec.toNat_ofNat, Nat.mod_mul_mod]
      exact Nat.mod_eq_of_lt (by push_cast at hlt; omega)
    rw [hestimate, decide_eq_true hfits, Bool.not_true] at hrun
    by_cases hlarge : 61 < build.bits x.toInt.natAbs * p.toNat
    · rw [if_pos hlarge] at hrun
      have hx0 : x ≠ 0 := fun h => hx (by simp [h])
      have hgmp := expInt_run t2 hneg hrun
      rw [if_pos ⟨hx0, rfl⟩] at hgmp
      rw [yieldsExactly_boxed hgmp]
      exact ⟨fun hband => ⟨hband, hfits, .inl hlarge⟩, fun h => h.1⟩
    · rw [if_neg hlarge] at hrun
      by_cases hpow : Word.Fits (x.toInt ^ p.toNat)
      · have hone : (1 : Word).toInt * x.toInt ^ p.toNat = x.toInt ^ p.toNat := one_mul _
        rw [ipowLoop_exact false (by decide) hx (by omega) (by rwa [hone]), hone] at hrun
        rw [expInt_small hpos.le hrun (Word.toInt_ofInt hpow)]
        exact ⟨fun hband => ⟨hband, hfits, .inr hpow⟩, fun h => h.1⟩
      · obtain ⟨w, hw⟩ := ipowLoop_overflows (r := 1) (x := x) (p := p.toNat) false (by omega) (by
          rwa [show (1 : Word).toInt = 1 from by decide, one_mul])
        rw [hw] at hrun
        exact iff_of_false (not_yieldsExactly _ (expInt_run t2 hneg hrun)) fun h => h.2.2.elim hlarge hpow
  · -- the product of the estimate has overflowed, whatever is computed after it
    rw [decide_eq_false hfits, Bool.not_false] at hrun
    refine iff_of_false ?_ fun h => hfits h.2.1
    split at hrun
    · exact not_yieldsExactly _ (expInt_run t2 hneg hrun)
    · obtain ⟨w, hw⟩ := ipowLoop_overflowed 1 x (p := p.toNat) (by omega)
      exact not_yieldsExactly _ (expInt_run t2 hneg (hrun.trans hw))

theorem ipow_zero (x : Word) : (ipow build hr x 0).run false = .ok (1, false) := rfl

theorem ipow_of_zero (hpos : 0 < p.toInt) : (ipow build hr 0 p).run false = .ok (0, false) := by
  have hp0 : p ≠ 0 := fun h => by simp [h] at hpos
  unfold ipow
  rw [if_neg hp0, if_pos ⟨rfl, hpos⟩]
  rfl

theorem expInt_intMin (build : MsbBuild) (hr : Addr) (t2 : Term) (hpos : 0 < p.toInt) :
    ∃ t text, (expInt build hr t2 Word.intMin p).run false = .error (.thrown .domainErrorNotLessThanZero t text) := by
  obtain ⟨t, text, herror⟩ := ipow_intMin build hr hpos
  refine ⟨t, text, ?_⟩
  unfold expInt
  rw [if_neg (not_lt.mpr hpos.le), StateT.run_bind, herror]
  rfl

theorem expInt_exactly_iff (hp : 0 ≤ p.toInt) :
    YieldsExactly (expInt build hr t2 x p) (x.toInt ^ p.toNat) ↔
      ¬ InBand (x.toInt ^ p.toNat) ∧ WordPower build x.toInt p.toNat := by
  have hnat := Word.toInt_eq_toNat hp
  obtain hzero | hpos := hp.eq_or_lt
  · obtain rfl : p = 0 := Word.toInt_inj.mp hzero.symm
    rw [expInt_small hp (ipow_zero x) (by simp), and_iff_left]
    exact .inl rfl
  · by_cases hx : x.toInt = 0
    · obtain rfl : x = 0 := Word.toInt_inj.mp hx
      rw [expInt_small hp (ipow_of_zero hpos) (zero_pow (by omega)).symm, and_iff_left]
      exact .inr (.inl rfl)
    · by_cases hmin : x = Word.intMin
      · subst hmin
        obtain ⟨t, text, herror⟩ := expInt_intMin build hr t2 hpos
        refine iff_of_false (not_yieldsExactly_error _ herror) fun h => ?_
        obtain hn | hx' | ⟨hne, -⟩ := h.2
        · omega
        · exact hx hx'
        · exact hne Word.toInt_intMin
      · rw [expInt_estimated hx hmin hpos, WordPower]
        have hne : x.toInt ≠ -2 ^ 63 := fun h => hmin (Word.toInt_eq_intMin.mp h)
        have hn : p.toNat ≠ 0 := by omega
        simp only [hn, hx, hne, ne_eq, not_false_eq_true, true_and, false_or]

/-- The exponent is refused, as GMP could not compute the power. -/
def Refuses (c : Calc Term) : Prop := ∃ t text, c.run false = .error (.thrown .resourceErrorHugeInt t text)

theorem not_refuses_of_ok {c : Calc Term} {r : Term × Bool} (h : c.run false = .ok r) : ¬ Refuses c := by
  rintro ⟨t, text, herror⟩
  cases h.symm.trans herror

theorem not_refuses_expInt (hp : 0 ≤ p.toInt) : ¬ Refuses (expInt build hr t2 x p) := by
  obtain hzero | hpos := hp.eq_or_lt
  · obtain rfl : p = 0 := Word.toInt_inj.mp hzero.symm
    exact not_refuses_of_ok (expInt_run t2 (by decide) (ipow_zero x))
  · have hneg := not_lt.mpr hp
    have hnat := Word.toInt_eq_toNat hp
    by_cases hx : x.toInt = 0
    · obtain rfl : x = 0 := Word.toInt_inj.mp hx
      exact not_refuses_of_ok (expInt_run t2 hneg (ipow_of_zero hpos))
    · by_cases hmin : x = Word.intMin
      · subst hmin
        obtain ⟨t, text, herror⟩ := expInt_intMin build hr t2 hpos
        rintro ⟨t', text', hhuge⟩
        cases herror.symm.trans hhuge
      · have hrun := ipow_run build hr hx hmin hpos
        split at hrun
        · exact not_refuses_of_ok (expInt_run t2 hneg hrun)
        · obtain ⟨w, o, hw⟩ := ipowLoop_ends x
            (!decide (Word.Fits (build.bits x.toInt.natAbs * p.toInt))) hx (p := p.toNat) (by omega)
          exact not_refuses_of_ok (expInt_run t2 hneg (hrun.trans hw))

-- ---------------------------------------------------------------------------
-- Powers of integers
-- ---------------------------------------------------------------------------

section Powers

variable (pow : Binary64 → Binary64 → Binary64) (mpzGetD mpqGetD : BigNum → Binary64)

/-- The call returns the power and nothing overflows, or it refuses the exponent. -/
def PowerRight (c : Calc Term) (x : ℤ) (n : ℕ) : Prop := Refuses c ∨ YieldsExactly c (x ^ n)

theorem powerRight_boxed {c : Calc Term} {x : ℤ} {n : ℕ} (h : c.run false = .ok (mkBigIntTerm hr (x ^ n), false)) :
    PowerRight c x n ↔ ¬ InBand (x ^ n) := by
  rw [PowerRight, or_iff_right (not_refuses_of_ok h), yieldsExactly_boxed h]

/-- An exponent that is a word is right where boxing keeps the power and the code reaches it. -/
theorem power_right_iff (build : MsbBuild) (hr : Addr) {t1 t2 : Term} {x : ℤ} {n : ℕ} (h1 : t1.intValue? = some x)
    (h2 : t2.intValue? = some (n : ℤ)) :
    PowerRight (pExp pow mpzGetD mpqGetD build hr t1 t2) x n ↔
      (Word.Fits n → ¬ InBand (x ^ n) ∧ (Word.Fits x → WordPower build x n)) := by
  unfold pExp
  rcases Term.intValue?_cases h1 with ⟨i, he1, rfl, -⟩ | ⟨b, he1, rfl, -⟩ <;>
    rcases Term.intValue?_cases h2 with ⟨p, he2, hn, -⟩ | ⟨c, he2, hn, -⟩ <;>
    rw [he1, he2]
  · have hp : 0 ≤ p.toInt := hn ▸ Int.natCast_nonneg n
    obtain rfl : n = p.toNat := by
      have hnat := Word.toInt_eq_toNat hp
      omega
    rw [PowerRight, or_iff_right (not_refuses_expInt hp), expInt_exactly_iff hp]
    simp only [hn, Word.fits_toInt, forall_const]
  · exact iff_of_true (.inl ⟨_, _, rfl⟩) fun hfits => absurd (hn ▸ hfits) c.2
  · have hfits : Word.Fits (n : ℤ) := hn ▸ Word.fits_toInt p
    simp only [hfits, b.2, forall_const, IsEmpty.forall_iff, and_true]
    apply powerRight_boxed
    rw [gmpExpBigInt]
    by_cases hpos : 0 < p.toInt
    · have hnat := Word.toInt_eq_toNat hpos.le
      obtain rfl : n = p.toNat := by omega
      rw [if_pos hpos]
      rfl
    · obtain rfl : p = 0 := Word.toInt_inj.mp (by simpa using le_antisymm (not_lt.mp hpos) (hn ▸ Int.natCast_nonneg n))
      obtain rfl : n = 0 := by simpa using hn
      rw [if_neg hpos, if_pos rfl, pow_zero, ← mkIntegerTerm_ofInt hr (by decide)]
      rfl
  · exact iff_of_true (.inl ⟨_, _, rfl⟩) fun hfits => absurd (hn ▸ hfits) c.2

end Powers

/-- The greatest power of three that is a word comes out of the loop. -/
theorem power_right_iff_three :
    PowerRight (pExp (fun d _ => d) BigNum.toFloat BigNum.toFloat .search 0 (.int 3) (.int 39)) 3 39 :=
  (power_right_iff (fun d _ => d) BigNum.toFloat BigNum.toFloat .search 0
    (show (Term.int 3).intValue? = some 3 from rfl) (show (Term.int 39).intValue? = some ((39 : ℕ) : ℤ) from rfl)).mpr
    fun _ => ⟨by decide, fun _ => .inr (.inr ⟨by decide, by decide, .inr (by decide)⟩)⟩

theorem not_powerRight_three {build : MsbBuild} (hbits : build.bits 3 = 1) (pow : Binary64 → Binary64 → Binary64)
    (mpzGetD mpqGetD : BigNum → Binary64) :
    ¬ PowerRight (pExp pow mpzGetD mpqGetD build 0 (.int 3) (.int 40)) 3 40 := by
  have hcall : pExp pow mpzGetD mpqGetD build 0 (.int 3) (.int 40) =
      expInt build 0 (.int 40) (intOfTerm 3) (intOfTerm 40) := rfl
  have hp : 0 ≤ (intOfTerm 40).toInt := by decide
  rw [hcall]
  rintro (hrefuses | hyields)
  · exact not_refuses_expInt hp hrefuses
  · obtain hn | hx | ⟨-, -, hlarge | hfits⟩ := ((expInt_exactly_iff hp).mp hyields).2
    · exact absurd hn (by decide)
    · exact absurd hx (by decide)
    · have hestimate : (intOfTerm 3).toInt.natAbs = 3 ∧ (intOfTerm 40).toNat = 40 := by decide
      rw [hestimate.1, hestimate.2, hbits] at hlarge
      exact absurd hlarge (by decide)
    · exact absurd hfits (by decide)

/-- The next power of three overflows in the loop, with a search for the bit and with `ffsll`. -/
theorem not_power_right :
    ¬ PowerRight (pExp (fun d _ => d) BigNum.toFloat BigNum.toFloat .search 0 (.int 3) (.int 40)) 3 40 ∧
      ¬ PowerRight (pExp (fun d _ => d) BigNum.toFloat BigNum.toFloat .ffsll 0 (.int 3) (.int 40)) 3 40 := by
  refine ⟨not_powerRight_three ?_ _ _ _, not_powerRight_three ?_ _ _ _⟩
  · exact Nat.log_eq_one_iff.mpr ⟨by norm_num, by norm_num, by norm_num⟩
  · rw [MsbBuild.bits, padicValNat.eq_zero_of_not_dvd (by norm_num)]

end Yap
