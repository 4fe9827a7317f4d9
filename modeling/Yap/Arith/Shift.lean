-- SUMMARY: The shifts `<<` and `>>` are exact on every representation of integers, apart from results that tagging cuts.
import Yap.Arith.Power

/-!
# Shifts

A left shift of a machine integer stays in a word when a count of its leading
bits is above the shift, and goes to GMP otherwise.
-/

namespace Yap

-- ---------------------------------------------------------------------------
-- Machine integers
-- ---------------------------------------------------------------------------

/-- One step of the count, on the rest of the number and the leading bits found so far. -/
def clrsbStep (k : ℕ) (s : Word × ℕ) : Word × ℕ :=
  if s.1.toInt < 2 ^ k then (s.1, s.2 + k) else (s.1.sshiftRight k, s.2)

def clrsb (i : Word) : Calc ℕ := do
  if i = Word.intMin then return 1
  else
    let i ← absInt i
    let s := clrsbStep 2 (clrsbStep 4 (clrsbStep 8 (clrsbStep 16 (clrsbStep 32 (i, 0)))))
    return if s.1.toInt < 2 then s.2 + 1 else s.2

/-- `Yap_gmp_sll_ints`. -/
def gmpSllInts (hr : Addr) (i j : Word) : Calc Term := return mkBigIntTerm hr (i.toInt * 2 ^ j.toNat)

/-- The shift is positive. -/
def doSll (hr : Addr) (i j : Word) : Calc Term := do
  let bits ← clrsb i
  if j.toInt < bits then
    let w ← signed (i.toInt * 2 ^ j.toNat) (i <<< j.toNat)
    rint hr w
  else gmpSllInts hr i j

/-- The shift is compared with a `size_t`, without its sign. -/
def slr (i shift : Word) : Word :=
  if shift.toNat < 64 - 1 then i.sshiftRight shift.toNat else if 0 ≤ i.toInt then 0 else -1

-- ---------------------------------------------------------------------------
-- The operators
-- ---------------------------------------------------------------------------

/-- `Yap_gmp_sll_big_int`. A rational is divided by the power that a negative shift is without its sign. -/
def gmpSllBigInt (hr : Addr) (t : Term) (i : Word) : BigNum → Calc Term
  | .int b => do
    if 0 < i.toInt then return mkBigIntTerm hr (b.1 * 2 ^ i.toNat)
    else if i = 0 then return t
    else if i = Word.intMin then arithError .resourceErrorHugeInt (mkIntegerTerm hr i) "<</2"
    else
      let n ← signed (-i.toInt) (-i)
      return mkBigIntTerm hr (b.1.fdiv (2 ^ n.toNat))
  | .rat b =>
    if 0 < i.toInt then return mkBigRatTerm hr (b.1 * 2 ^ i.toNat)
    else if i = 0 then return t
    else return mkBigRatTerm hr (b.1 / 2 ^ i.toNat)

/-- `p_sll`, the operator `<<`. -/
def pSll (hr : Addr) (t1 t2 : Term) : Calc Term :=
  match eTypeOfTerm t1, eTypeOfTerm t2 with
  | .longInt i1, .longInt i2 => do
    if i2.toInt ≤ 0 then
      if i2 = Word.intMin then arithError .resourceErrorHugeInt t2 ">>/2"
      else
        let n ← signed (-i2.toInt) (-i2)
        rint hr (slr i1 n)
    else doSll hr i1 i2
  | .longInt _, .double _ => arithError .typeErrorInteger t2 "<</2"
  | .longInt _, .bigInt _ => arithError .resourceErrorHugeInt t2 "<</2"
  | .double _, _ => arithError .typeErrorInteger t1 "<< /2"
  | .bigInt b1, .longInt i2 => gmpSllBigInt hr t1 i2 b1
  | .bigInt _, .bigInt _ => arithError .resourceErrorHugeInt t2 ">>/2"
  | .bigInt _, .double _ => arithError .typeErrorInteger t2 "<</2"
  | _, _ => rerror

/-- `p_slr`, the operator `>>`. -/
def pSlr (hr : Addr) (t1 t2 : Term) : Calc Term :=
  match eTypeOfTerm t1, eTypeOfTerm t2 with
  | .longInt i1, .longInt i2 => do
    if i2.toInt < 0 then
      if i2 = Word.intMin then arithError .resourceErrorHugeInt t2 ">>/2"
      else
        let n ← signed (-i2.toInt) (-i2)
        doSll hr i1 n
    else rint hr (slr i1 i2)
  | .longInt _, .double _ => arithError .typeErrorInteger t2 ">>/2"
  | .longInt _, .bigInt _ => arithError .resourceErrorHugeInt t2 ">>/2"
  | .double _, _ => arithError .typeErrorInteger t1 ">>/2"
  | .bigInt b1, .longInt i2 => do
    let n ← signed (-i2.toInt) (-i2)
    gmpSllBigInt hr t1 n b1
  | .bigInt _, .bigInt _ => arithError .resourceErrorHugeInt t2 ">>/2"
  | .bigInt _, .double _ => arithError .typeErrorInteger t2 ">>/2"
  | _, _ => rerror

-- ---------------------------------------------------------------------------
-- The count of leading bits
-- ---------------------------------------------------------------------------

/-- The number `a` is below what the rest of `k` bits and the bits cut off behind it make up. -/
structure Leading (a k : ℕ) (s : Word × ℕ) : Prop where
  lt : s.1.toNat < 2 ^ k
  below : ∃ e, s.2 + k + e = 64 ∧ a < (s.1.toNat + 1) * 2 ^ e

theorem Leading.step {a k : ℕ} {s : Word × ℕ} (h : Leading a (2 * k) s) (hs : s.1.toNat < 2 ^ 63) :
    Leading a k (clrsbStep k s) := by
  obtain ⟨e, hsum, hbelow⟩ := h.below
  have hint : s.1.toInt = s.1.toNat := BitVec.toInt_eq_toNat_of_lt (by omega)
  unfold clrsbStep
  by_cases hlt : s.1.toNat < 2 ^ k
  · rw [if_pos (by rw [hint]; exact_mod_cast hlt)]
    exact ⟨hlt, e, by simp only; omega, hbelow⟩
  · rw [if_neg (by rw [hint]; exact_mod_cast hlt)]
    have hsign : s.1.msb = false := by
      rw [BitVec.msb_eq_false_iff_two_mul_lt]
      omega
    have hshift : (s.1.sshiftRight k).toNat = s.1.toNat / 2 ^ k := by
      rw [BitVec.toNat_sshiftRight_of_msb_false hsign, Nat.shiftRight_eq_div_pow]
    refine ⟨?_, e + k, by simp only; omega, ?_⟩
    · rw [hshift, Nat.div_lt_iff_lt_mul (by positivity), ← pow_add, ← two_mul]
      exact h.lt
    · have hcut : s.1.toNat + 1 ≤ (s.1.toNat / 2 ^ k + 1) * 2 ^ k := by
        rw [add_mul, one_mul, mul_comm]
        have hmod := Nat.mod_lt s.1.toNat (Nat.two_pow_pos k)
        have hdiv := Nat.div_add_mod s.1.toNat (2 ^ k)
        omega
      calc a < (s.1.toNat + 1) * 2 ^ e := hbelow
        _ ≤ (s.1.toNat / 2 ^ k + 1) * 2 ^ k * 2 ^ e := Nat.mul_le_mul_right _ hcut
        _ = ((s.1.sshiftRight k).toNat + 1) * 2 ^ (e + k) := by rw [hshift, pow_add]; ring

/-- A number whose leading bits are counted can be shifted by less than their count. -/
theorem clrsb_run (i : Word) (o : Bool) :
    ∃ n : ℕ, (clrsb i).run o = .ok (n, o) ∧ ∀ j : ℕ, 0 < j → j < n → i.toInt.natAbs * 2 ^ j < 2 ^ 63 := by
  unfold clrsb
  by_cases hmin : i = Word.intMin
  · rw [if_pos hmin]
    exact ⟨1, rfl, fun j hpos hj => by omega⟩
  · rw [if_neg hmin]
    obtain ⟨w, hrun, habs⟩ : ∃ w : Word, (∀ o, (absInt i).run o = .ok (w, o)) ∧ w.toNat = i.toInt.natAbs := by
      by_cases hzero : i.toInt = 0
      · obtain rfl : i = 0 := Word.toInt_inj.mp hzero
        exact ⟨0, fun o => rfl, rfl⟩
      · obtain ⟨w, hrun, -, habs⟩ := absInt_run hzero hmin
        exact ⟨w, hrun, habs⟩
    have hlt : w.toNat < 2 ^ 63 := by
      have hlo := Word.le_toInt i
      have hhi := Word.toInt_lt i
      have hne : i.toInt ≠ -2 ^ 63 := fun h => hmin (Word.toInt_eq_intMin.mp h)
      omega
    rw [Calc.bind_run (hrun o), ← habs]
    have h64 : Leading w.toNat (2 * 32) (w, 0) := ⟨lt_trans hlt (by norm_num), 0, rfl, by simp⟩
    have h32 : Leading w.toNat (2 * 16) _ := h64.step hlt
    have h16 : Leading w.toNat (2 * 8) _ := h32.step (lt_trans h32.lt (by norm_num))
    have h8 : Leading w.toNat (2 * 4) _ := h16.step (lt_trans h16.lt (by norm_num))
    have h4 : Leading w.toNat (2 * 2) _ := h8.step (lt_trans h8.lt (by norm_num))
    have h2 : Leading w.toNat (2 * 1) _ := h4.step (lt_trans h4.lt (by norm_num))
    generalize clrsbStep 2 (clrsbStep 4 (clrsbStep 8 (clrsbStep 16 (clrsbStep 32 (w, 0))))) = s at h2 ⊢
    refine ⟨_, rfl, fun j _ hj => ?_⟩
    obtain ⟨e, hsum, hbelow⟩ := h2.below
    have hsmall : s.1.toNat < 4 := h2.lt
    have hint : s.1.toInt = s.1.toNat := BitVec.toInt_eq_toNat_of_lt (by omega)
    -- the number is below the power that the count leaves
    obtain ⟨b, hb, hpow⟩ : ∃ b, j + b ≤ 63 ∧ w.toNat < 2 ^ b := by
      by_cases hbit : s.1.toInt < 2
      · rw [if_pos hbit] at hj
        refine ⟨e + 1, by omega, lt_of_lt_of_le hbelow ?_⟩
        rw [pow_succ']
        exact Nat.mul_le_mul_right _ (by omega)
      · rw [if_neg hbit] at hj
        refine ⟨e + 2, by omega, lt_of_lt_of_le hbelow ?_⟩
        rw [pow_add, mul_comm (2 ^ e)]
        exact Nat.mul_le_mul_right _ (by omega)
    calc w.toNat * 2 ^ j < 2 ^ b * 2 ^ j := Nat.mul_lt_mul_of_pos_right hpow (by positivity)
      _ = 2 ^ (j + b) := by rw [← pow_add, add_comm]
      _ ≤ 2 ^ 63 := Nat.pow_le_pow_right (by norm_num) hb

-- ---------------------------------------------------------------------------
-- Shifts of machine integers
-- ---------------------------------------------------------------------------

variable {hr : Addr} {i j : Word} {x s : ℤ} {t1 t2 : Term}

/-- The left shift that the count admits does not overflow. -/
theorem doSll_run (hr : Addr) (i : Word) (hj : 0 < j.toInt) :
    (doSll hr i j).run false = .ok (mkBigIntTerm hr (i.toInt * 2 ^ j.toNat), false) := by
  obtain ⟨n, hrun, hsafe⟩ := clrsb_run i false
  have hnat := Word.toInt_eq_toNat hj.le
  unfold doSll
  rw [Calc.bind_run hrun]
  by_cases hlt : j.toInt < n
  · have hmul := hsafe j.toNat (by omega) (by omega)
    have hfits : Word.Fits (i.toInt * 2 ^ j.toNat) := by
      have habs : |i.toInt * 2 ^ j.toNat| < 2 ^ 63 := by
        rw [abs_mul, abs_of_pos (by positivity : (0 : ℤ) < 2 ^ j.toNat), Int.abs_eq_natAbs]
        exact_mod_cast hmul
      rw [abs_lt] at habs
      exact ⟨habs.1.le, habs.2⟩
    have hword : i <<< j.toNat = BitVec.ofInt 64 (i.toInt * 2 ^ j.toNat) := by
      have hpow : BitVec.ofInt 64 (2 ^ j.toNat) = BitVec.twoPow 64 j.toNat := by
        rw [← BitVec.toNat_inj, BitVec.toNat_twoPow, BitVec.toNat_ofInt]
        norm_cast
      rw [BitVec.shiftLeft_eq_mul_twoPow, BitVec.ofInt_mul, BitVec.ofInt_toInt, hpow]
    rw [if_pos hlt, signed_bind_run, decide_eq_true hfits, hword]
    show Except.ok (mkIntegerTerm hr _, _) = _
    rw [mkIntegerTerm_ofInt hr hfits]
    rfl
  · rw [if_neg hlt]
    rfl

/-- A right shift by the width of a word or more leaves the sign. -/
theorem slr_toInt (i j : Word) : (slr i j).toInt = i.toInt.fdiv (2 ^ j.toNat) := by
  have hpos : (0 : ℤ) < 2 ^ j.toNat := by positivity
  rw [Int.fdiv_eq_ediv_of_nonneg _ hpos.le]
  unfold slr
  by_cases hlt : j.toNat < 64 - 1
  · rw [if_pos hlt, BitVec.toInt_sshiftRight, Int.shiftRight_eq_div_pow]
    norm_cast
  · have hlo := Word.le_toInt i
    have hhi := Word.toInt_lt i
    have hpow : (2 : ℤ) ^ 63 ≤ 2 ^ j.toNat := pow_le_pow_right₀ (by norm_num) (by omega)
    rw [if_neg hlt]
    by_cases hsign : 0 ≤ i.toInt
    · rw [if_pos hsign, Int.ediv_eq_zero_of_lt hsign (by omega)]
      rfl
    · rw [if_neg hsign, Int.ediv_eq_neg_one_of_neg_of_le (by omega) (by omega)]
      rfl

theorem slr_run (hr : Addr) (i j : Word) :
    (rint hr (slr i j)).run false = .ok (mkBigIntTerm hr (i.toInt.fdiv (2 ^ j.toNat)), false) := by
  rw [← slr_toInt, ← mkIntegerTerm_eq]
  rfl

/-- Only the negation of the least word overflows. -/
theorem negated_run {α : Type} (f : Word → Calc α) (hmin : j.toInt ≠ -2 ^ 63) :
    (signed (-j.toInt) (-j) >>= f).run false = (f (-j)).run false ∧ (-j).toInt = -j.toInt := by
  have hlo := Word.le_toInt j
  have hhi := Word.toInt_lt j
  have hfits : Word.Fits (-j.toInt) := by simp only [Word.Fits]; omega
  rw [signed_bind_run, decide_eq_true hfits, BitVec.toInt_neg, Word.bmod_of_fits hfits]
  exact ⟨rfl, rfl⟩

-- ---------------------------------------------------------------------------
-- Exact shifts
-- ---------------------------------------------------------------------------

/-- `x * 2 ^ s`, rounded down when `s` is negative. -/
def shifted (x s : ℤ) : ℤ := if 0 ≤ s then x * 2 ^ s.toNat else x.fdiv (2 ^ (-s).toNat)

theorem shifted_left (x : ℤ) (hj : 0 ≤ j.toInt) : shifted x j.toInt = x * 2 ^ j.toNat := by
  have hnat := Word.toInt_eq_toNat hj
  rw [shifted, if_pos hj]
  congr 2
  omega

theorem shifted_right (x : ℤ) (hj : 0 ≤ j.toInt) : shifted x (-j.toInt) = x.fdiv (2 ^ j.toNat) := by
  have hnat := Word.toInt_eq_toNat hj
  by_cases hzero : j.toInt = 0
  · obtain rfl : j = 0 := Word.toInt_inj.mp hzero
    simp [shifted]
  · rw [shifted, if_neg (by omega)]
    congr 2
    omega

theorem sll_word_run (hr : Addr) (i : Word) (h2 : eTypeOfTerm t2 = .longInt j) (h1 : eTypeOfTerm t1 = .longInt i)
    (hmin : j.toInt ≠ -2 ^ 63) : (pSll hr t1 t2).run false = .ok (mkBigIntTerm hr (shifted i.toInt j.toInt), false) := by
  have hne : j ≠ Word.intMin := fun h => hmin (Word.toInt_eq_intMin.mpr h)
  unfold pSll
  rw [h1, h2]
  by_cases hj : j.toInt ≤ 0
  · obtain ⟨hrun, hneg⟩ := negated_run (fun n => rint hr (slr i n)) hmin
    simp only [if_pos hj, if_neg hne]
    rw [hrun, slr_run, ← shifted_right i.toInt (by omega), hneg, neg_neg]
  · simp only [if_neg hj]
    rw [doSll_run hr i (by omega), shifted_left i.toInt (by omega)]

theorem slr_word_run (hr : Addr) (i : Word) (h2 : eTypeOfTerm t2 = .longInt j) (h1 : eTypeOfTerm t1 = .longInt i)
    (hmin : j.toInt ≠ -2 ^ 63) :
    (pSlr hr t1 t2).run false = .ok (mkBigIntTerm hr (shifted i.toInt (-j.toInt)), false) := by
  have hne : j ≠ Word.intMin := fun h => hmin (Word.toInt_eq_intMin.mpr h)
  unfold pSlr
  rw [h1, h2]
  by_cases hj : j.toInt < 0
  · obtain ⟨hrun, hneg⟩ := negated_run (fun n => doSll hr i n) hmin
    simp only [if_pos hj, if_neg hne]
    rw [hrun, doSll_run hr i (by omega), ← hneg, shifted_left i.toInt (by omega)]
  · simp only [if_neg hj]
    rw [slr_run, shifted_right i.toInt (by omega)]

/-- A big integer that is shifted by nothing is returned as it is. -/
theorem gmpSllBigInt_run (hr : Addr) (t : Term) (b : BigInt) (hmin : j.toInt ≠ -2 ^ 63) :
    (gmpSllBigInt hr t j (.int b)).run false =
      .ok (if j = 0 then t else mkBigIntTerm hr (shifted b.1 j.toInt), false) := by
  have hne : j ≠ Word.intMin := fun h => hmin (Word.toInt_eq_intMin.mpr h)
  rw [gmpSllBigInt]
  by_cases hpos : 0 < j.toInt
  · have hzero : j ≠ 0 := by
      rintro rfl
      exact absurd hpos (by decide)
    rw [if_pos hpos, if_neg hzero, shifted_left b.1 hpos.le]
    rfl
  · by_cases hzero : j = 0
    · rw [if_neg hpos, if_pos hzero, if_pos hzero]
      rfl
    · obtain ⟨hrun, hneg⟩ := negated_run
        (fun n => (pure (mkBigIntTerm hr (b.1.fdiv (2 ^ n.toNat))) : Calc Term)) hmin
      rw [if_neg hpos, if_neg hzero, if_neg hne, if_neg hzero, hrun, Calc.pure_run,
        ← shifted_right b.1 (by omega), hneg, neg_neg]

theorem gmpSllBigInt_yieldsExactly_iff (hr : Addr) {b : BigInt} (ht : t1.intValue? = some b.1) (hmin : j.toInt ≠ -2 ^ 63) :
    YieldsExactly (gmpSllBigInt hr t1 j (.int b)) (shifted b.1 j.toInt) ↔ ¬ InBand (shifted b.1 j.toInt) := by
  rw [yieldsExactly_iff (gmpSllBigInt_run hr t1 b hmin)]
  by_cases hzero : j = 0
  · subst hzero
    have hsame : shifted b.1 (0 : Word).toInt = b.1 := by simp [shifted]
    rw [if_pos rfl, hsame, ht]
    exact iff_of_true ⟨rfl, rfl⟩ b.not_inBand
  · rw [if_neg hzero, mkBigIntTerm_intValue?]
    exact and_iff_right rfl

inductive ShiftOp where
  | sll
  | slr
deriving DecidableEq

/-- The function that computes the operator. -/
def ShiftOp.run (hr : Addr) : ShiftOp → Term → Term → Calc Term
  | sll => pSll hr
  | slr => pSlr hr

def ShiftOp.eval : ShiftOp → ℤ → ℤ → ℤ
  | sll, x, s => shifted x s
  | slr, x, s => shifted x (-s)

/-- On all representations a shift is exact and overflows nowhere, apart from results in the band. -/
theorem shift_yieldsExactly_iff (hr : Addr) (op : ShiftOp) (h1 : t1.intValue? = some x) (h2 : t2.intValue? = some s)
    (hword : Word.Fits s) (hmin : s ≠ -2 ^ 63) :
    YieldsExactly (op.run hr t1 t2) (op.eval x s) ↔ ¬ InBand (op.eval x s) := by
  rcases Term.intValue?_cases h2 with ⟨j, he2, rfl, -⟩ | ⟨c, he2, rfl, -⟩
  · rcases Term.intValue?_cases h1 with ⟨i, he1, rfl, -⟩ | ⟨b, he1, rfl, -⟩
    · cases op with
      | sll => exact yieldsExactly_boxed (sll_word_run hr i he2 he1 hmin)
      | slr => exact yieldsExactly_boxed (slr_word_run hr i he2 he1 hmin)
    · cases op with
      | sll =>
        have hcall : pSll hr t1 t2 = gmpSllBigInt hr t1 j (.int b) := by rw [pSll, he1, he2]
        rw [ShiftOp.run, ShiftOp.eval, hcall]
        exact gmpSllBigInt_yieldsExactly_iff hr h1 hmin
      | slr =>
        obtain ⟨hrun, hneg⟩ := negated_run (fun n => gmpSllBigInt hr t1 n (.int b)) hmin
        have hcall : (pSlr hr t1 t2).run false = (gmpSllBigInt hr t1 (-j) (.int b)).run false := by
          rw [pSlr, he1, he2, ← hrun]
        have hsame : ∀ z, YieldsExactly (pSlr hr t1 t2) z ↔ YieldsExactly (gmpSllBigInt hr t1 (-j) (.int b)) z := by
          intro z
          simp only [YieldsExactly, Calc.ReturnsExactly, hcall]
        have hlo := Word.toInt_lt j
        rw [ShiftOp.run, ShiftOp.eval, hsame, ← hneg]
        exact gmpSllBigInt_yieldsExactly_iff hr h1 (by omega)
  · exact absurd hword c.2

/-- The least word shifted left by one is a big integer. -/
theorem shift_intMin_one :
    YieldsExactly (ShiftOp.sll.run 0 (.blob 0 (.longInt ⟨Word.intMin, by decide⟩)) (.int 1)) (ShiftOp.sll.eval (-2 ^ 63) 1) :=
  (shift_yieldsExactly_iff 0 .sll rfl rfl (by decide) (by decide)).mpr (by decide)

/-- `1 << 57` is tagged and comes back as another number. -/
theorem not_shift_one_57 : ¬ YieldsExactly (ShiftOp.sll.run 0 (.int 1) (.int 57)) (ShiftOp.sll.eval 1 57) := by
  have hrun : (pSll 0 (.int 1) (.int 57)).run false = .ok (mkBigIntTerm 0 (shifted 1 57), false) :=
    sll_word_run 0 (intOfTerm 1) rfl rfl (show (intOfTerm 57).toInt ≠ -2 ^ 63 by decide)
  rw [ShiftOp.run, ShiftOp.eval, yieldsExactly_boxed hrun]
  decide

end Yap
