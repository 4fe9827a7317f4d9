-- SUMMARY: When `div` with `mod`, and `//` with `rem`, give the quotient and the remainder of the division they stand for, on every representation of integers.
import Yap.Arith.Value
import Yap.Base.IntDivision

/-!
# Division of integers

Each operator boxes some integer. A pair of operators is right when the two
integers are the quotient and the remainder, and when boxing keeps them.
-/

namespace Yap

open IntDivision

-- ---------------------------------------------------------------------------
-- Results
-- ---------------------------------------------------------------------------

/-- The computation returns the integer `z`. -/
def Yields (c : Calc Term) (z : ℤ) : Prop := ∃ t, c.Returns t ∧ t.intValue? = some z

/-- The computation returns the integer `z` and no signed operation overflows. -/
def YieldsExactly (c : Calc Term) (z : ℤ) : Prop := ∃ t, c.ReturnsExactly t ∧ t.intValue? = some z

variable {hr : Addr} {c : Calc Term} {z z' : ℤ} {o : Bool}

theorem yields_iff {t : Term} (h : c.run false = .ok (t, o)) : Yields c z ↔ t.intValue? = some z := by
  constructor
  · rintro ⟨u, hu, hz⟩
    rwa [Calc.Returns.inj ⟨o, h⟩ hu]
  · intro hz
    exact ⟨t, ⟨o, h⟩, hz⟩

theorem yieldsExactly_iff {t : Term} (h : c.run false = .ok (t, o)) :
    YieldsExactly c z ↔ o = false ∧ t.intValue? = some z := by
  constructor
  · rintro ⟨u, hu, hz⟩
    have heq := h.symm.trans hu
    injection heq with heq
    obtain ⟨rfl, rfl⟩ := Prod.mk.inj heq
    exact ⟨rfl, hz⟩
  · rintro ⟨rfl, hz⟩
    exact ⟨t, h, hz⟩

/-- A result next to the right one is wrong, also after boxing. -/
theorem mkBigIntTerm_intValue?_iff (hclose : |z - z'| ≤ 1) :
    (mkBigIntTerm hr z).intValue? = some z' ↔ z = z' ∧ ¬ InBand z' := by
  constructor
  · intro hz
    have hdvd := mkBigIntTerm_intValue?_dvd hz
    have hzero := Int.eq_zero_of_abs_lt_dvd hdvd (lt_of_le_of_lt hclose (by norm_num))
    obtain rfl : z = z' := by omega
    exact ⟨rfl, (mkBigIntTerm_intValue? hr z).mp hz⟩
  · rintro ⟨rfl, hband⟩
    exact (mkBigIntTerm_intValue? hr z).mpr hband

-- ---------------------------------------------------------------------------
-- Machine integers
-- ---------------------------------------------------------------------------

theorem toInt_xor_neg_iff (x y : Word) :
    (x ^^^ y).toInt < 0 ↔ (x.toInt < 0 ↔ 0 ≤ y.toInt) := by
  have hmsb : ∀ w : Word, w.toInt < 0 ↔ w.msb = true := fun w => by
    rw [BitVec.msb_eq_toInt, decide_eq_true_iff]
  have hy := hmsb y
  rw [hmsb, hmsb x, BitVec.msb_xor, ← not_lt, hy]
  cases x.msb <;> cases y.msb <;> simp

theorem fits_fmod (i : Word) {j : Word} (hj : j.toInt ≠ 0) : Word.Fits (i.toInt.fmod j.toInt) := by
  have hbounds := fmod_bounds i.toInt hj
  have hlo := Word.le_toInt j
  have hhi := Word.toInt_lt j
  simp only [Word.Fits]
  omega

/-- The modulus of two words is exact and overflows nowhere. -/
theorem modWord_run {i j : Word} (hj : j.toInt ≠ 0) (o : Bool) :
    (modWord i j).run o = .ok (BitVec.ofInt 64 (i.toInt.fmod j.toInt), o) := by
  have hmod := fmod_of_tmod i.toInt hj
  have hrem : (i.srem j).toInt = i.toInt.tmod j.toInt := BitVec.toInt_srem i j
  have hzero : i.srem j ≠ 0 ↔ i.toInt.tmod j.toInt ≠ 0 := by
    rw [← hrem, ← BitVec.toInt_zero (w := 64), ne_eq, ne_eq, Word.toInt_inj]
    rfl
  have hsign : (0 ≤ j.toInt) ↔ 0 < j.toInt := by omega
  have hfits := fits_fmod i hj
  unfold modWord
  simp only [toInt_xor_neg_iff, hrem, hzero, hsign]
  by_cases hfix : i.toInt.tmod j.toInt ≠ 0 ∧ (i.toInt.tmod j.toInt < 0 ↔ 0 < j.toInt)
  · rw [if_pos hfix] at hmod ⊢
    rw [signed_run, ← hmod, decide_eq_true hfits, Bool.not_true, Bool.or_false]
    have hword : i.srem j + j = BitVec.ofInt 64 (i.toInt.fmod j.toInt) := by
      rw [hmod, ← hrem, BitVec.ofInt_add, BitVec.ofInt_toInt, BitVec.ofInt_toInt]
    rw [hword]
  · rw [if_neg hfix] at hmod ⊢
    rw [Calc.pure_run, hmod, ← hrem, BitVec.ofInt_toInt]

/-- Boxing the word of an integer is boxing the integer. -/
theorem mkIntegerTerm_ofInt (hr : Addr) (h : Word.Fits z) :
    mkIntegerTerm hr (BitVec.ofInt 64 z) = mkBigIntTerm hr z := by
  rw [mkBigIntTerm, dif_pos h]

theorem mkIntTerm_zero (hr : Addr) : mkIntTerm 0 = mkBigIntTerm hr 0 := by
  rw [← mkIntegerTerm_ofInt hr (by decide)]
  rfl

theorem modInt_run (hr : Addr) (t2 : Term) (i : Word) {j : Word} (hj : j.toInt ≠ 0) :
    (modInt hr t2 i j).run false = .ok (mkBigIntTerm hr (i.toInt.fmod j.toInt), false) := by
  have hne : j ≠ 0 := fun h => hj (by rw [h]; rfl)
  unfold modInt
  rw [if_neg hne]
  split
  case isTrue h =>
    obtain ⟨rfl, rfl⟩ := h
    rw [mkIntTerm_zero hr]
    rfl
  case isFalse h =>
    rw [Calc.bind_run (modWord_run hj false), ← mkIntegerTerm_ofInt hr (fits_fmod i hj)]
    rfl

/-- Only the least word divided by minus one has a quotient that is not a word. -/
theorem toInt_sdiv_sub_fmod {i j : Word} (hj : j.toInt ≠ 0) (hmin : ¬ (i = Word.intMin ∧ j = -1))
    (hfits : Word.Fits (i.toInt - i.toInt.fmod j.toInt)) :
    ((i - BitVec.ofInt 64 (i.toInt.fmod j.toInt)).sdiv j).toInt = i.toInt.fdiv j.toInt := by
  have hmod := Word.toInt_ofInt (fits_fmod i hj)
  rw [BitVec.toInt_sdiv_of_ne_or_ne, Word.toInt_sub_of_fits (by rwa [hmod]), hmod,
    sub_fmod_tdiv i.toInt hj]
  by_contra hboth
  obtain ⟨hi, hneg⟩ := not_or.mp hboth
  obtain rfl : j = -1 := not_not.mp hneg
  refine hmin ⟨?_, rfl⟩
  -- a division by minus one leaves nothing over
  have hzero : i.toInt.fmod (-1 : Word).toInt = 0 := Int.fmod_eq_zero_of_dvd (by simp)
  rw [hzero] at hi
  simpa [Word.intMin] using not_not.mp hi

/-- The difference of the dividend and the modulus is divided exactly, if it is a word. -/
theorem div2Int_run (hr : Addr) (t2 : Term) {i j : Word} (hj : j.toInt ≠ 0)
    (hfits : Word.Fits (i.toInt - i.toInt.fmod j.toInt)) :
    (div2Int hr t2 i j).run false = .ok (mkBigIntTerm hr (i.toInt.fdiv j.toInt), false) := by
  have hne : j ≠ 0 := fun h => hj (by rw [h]; rfl)
  unfold div2Int
  rw [if_neg hne]
  split
  case isTrue h =>
    obtain ⟨rfl, rfl⟩ := h
    rfl
  case isFalse h =>
    have hmod := Word.toInt_ofInt (fits_fmod i hj)
    have hquot := toInt_sdiv_sub_fmod hj h hfits
    have hdiff : (i - BitVec.ofInt 64 (i.toInt.fmod j.toInt)).toInt =
        i.toInt - i.toInt.fmod j.toInt := by
      rw [Word.toInt_sub_of_fits (by rwa [hmod]), hmod]
    have hquotFits : Word.Fits (i.toInt.fdiv j.toInt) := hquot ▸ Word.fits_toInt _
    rw [Calc.bind_run (modWord_run hj false), signed_bind_run, signed_bind_run, hdiff, hmod,
      sub_fmod_tdiv i.toInt hj, decide_eq_true hfits, decide_eq_true hquotFits,
      ← mkIntegerTerm_ofInt hr hquotFits, ← hquot, BitVec.ofInt_toInt]
    rfl

theorem div2Int_overflow (hr : Addr) (t2 : Term) {i j : Word} (hj : j.toInt ≠ 0)
    (hfits : ¬ Word.Fits (i.toInt - i.toInt.fmod j.toInt)) :
    ∃ t, (div2Int hr t2 i j).run false = .ok (t, true) := by
  have hne : j ≠ 0 := fun h => hj (by rw [h]; rfl)
  have hmod := Word.toInt_ofInt (fits_fmod i hj)
  unfold div2Int
  rw [if_neg hne]
  split
  case isTrue h =>
    obtain ⟨rfl, rfl⟩ := h
    exact absurd (by decide) hfits
  case isFalse h =>
    rw [Calc.bind_run (modWord_run hj false), signed_bind_run, signed_bind_run, hmod,
      decide_eq_false hfits]
    exact ⟨_, rfl⟩

-- ---------------------------------------------------------------------------
-- Big integers
-- ---------------------------------------------------------------------------

theorem BigInt.not_inBand (b : BigInt) : ¬ InBand b.1 := by
  have hb := b.2
  simp only [Word.Fits, InBand] at hb ⊢
  omega

/-- The modulus of a word by a big integer is the word, or the word plus the big
    integer where their signs differ. -/
theorem gmpModIntBig_run (hr : Addr) (i : Word) (t : Term) (b : BigInt) :
    (gmpModIntBig hr i t (.int b)).run false =
      .ok (mkBigIntTerm hr (if 0 < b.1 ↔ 0 < i.toInt then i.toInt else i.toInt + b.1), false) := by
  have hword : mkIntegerTerm hr i = mkBigIntTerm hr i.toInt := by
    rw [← mkIntegerTerm_ofInt hr (Word.fits_toInt i), BitVec.ofInt_toInt]
  unfold gmpModIntBig
  by_cases hb : 0 < b.1 <;> by_cases hi : 0 < i.toInt <;>
    simp only [hb, hi, hword, if_true, if_false, iff_self, iff_false, iff_true, not_true,
      Calc.pure_run, add_comm]

/-- The quotient of a big integer by a negative word is rounded up. -/
theorem gmpDiv2BigInt_run (hr : Addr) (b : BigInt) {i : Word} (hi : i.toInt ≠ 0) :
    (gmpDiv2BigInt hr (.int b) i).run false =
      .ok (mkBigIntTerm hr (b.1.fdiv i.toInt + if 0 < i.toInt ∨ i.toInt ∣ b.1 then 0 else 1),
        decide (i.toInt = -2 ^ 63)) := by
  have hne : i ≠ 0 := fun h => hi (by rw [h]; rfl)
  simp only [gmpDiv2BigInt]
  by_cases hpos : 0 < i.toInt
  · have hmin : i.toInt ≠ -2 ^ 63 := by omega
    rw [if_pos hpos, if_pos (.inl hpos), add_zero, decide_eq_false hmin,
      ← Word.toInt_eq_toNat hpos.le, Calc.pure_run]
  · have hneg := Word.toNat_neg (not_lt.mp hpos)
    have hmin : (!decide (Word.Fits (-i.toInt))) = decide (i.toInt = -2 ^ 63) := by
      have hlo := Word.le_toInt i
      rw [← decide_not, decide_eq_decide, Word.Fits]
      omega
    have hquot := neg_fdiv_neg_eq (x := b.1) hi
    rw [if_neg hpos, if_neg hne, signed_bind_run, Calc.pure_run, hneg, hquot, hmin, Bool.false_or]
    simp only [hpos, false_or]

theorem gmpDivBigInt_eq (hr : Addr) (b : BigInt) (i : Word) :
    gmpDivBigInt hr (.int b) i = gmpDiv2BigInt hr (.int b) i := by
  rfl

-- ---------------------------------------------------------------------------
-- `div` and `mod`
-- ---------------------------------------------------------------------------

/-- `div` and `mod` return the quotient and the modulus of the division that
    rounds down, and no signed operation overflows. -/
def DividesDown (hr : Addr) (t1 t2 : Term) (x y : ℤ) : Prop :=
  ∃ q m, YieldsExactly (pDiv2 hr t1 t2) q ∧ YieldsExactly (pMod hr t1 t2) m ∧ IsFloored x y q m

theorem dividesDown_iff {t1 t2 : Term} {x y : ℤ} (hy : y ≠ 0) :
    DividesDown hr t1 t2 x y ↔
      YieldsExactly (pDiv2 hr t1 t2) (x.fdiv y) ∧ YieldsExactly (pMod hr t1 t2) (x.fmod y) := by
  constructor
  · rintro ⟨q, m, hq, hm, hfloor⟩
    obtain ⟨rfl, rfl⟩ := (isFloored_iff hy).mp hfloor
    exact ⟨hq, hm⟩
  · rintro ⟨hq, hm⟩
    exact ⟨_, _, hq, hm, (isFloored_iff hy).mpr ⟨rfl, rfl⟩⟩

/-- The quotient and the modulus can be boxed, and

    - on two words the dividend minus the modulus is a word;
    - on a word and a big integer the quotient is zero, and the word is not zero
      below a positive one;
    - on a big integer and a negative word the division is exact, and the word
      has a negation. -/
structure DividesDownWhen (t1 t2 : Term) (x y : ℤ) : Prop where
  quotient : ¬ InBand (x.fdiv y)
  modulus : ¬ InBand (x.fmod y)
  wordWord : t1.isBignum = false → t2.isBignum = false → Word.Fits (x - x.fmod y)
  wordBig : t1.isBignum = false → t2.isBignum = true → (0 < x ∧ 0 < y) ∨ (x ≤ 0 ∧ y < 0)
  bigWord : t1.isBignum = true → t2.isBignum = false → 0 < y ∨ (y ∣ x ∧ y ≠ -2 ^ 63)

theorem div2Int_yieldsExactly_iff (t2 : Term) {i j : Word} (hj : j.toInt ≠ 0) :
    YieldsExactly (div2Int hr t2 i j) (i.toInt.fdiv j.toInt) ↔
      Word.Fits (i.toInt - i.toInt.fmod j.toInt) ∧ ¬ InBand (i.toInt.fdiv j.toInt) := by
  by_cases hfits : Word.Fits (i.toInt - i.toInt.fmod j.toInt)
  · rw [yieldsExactly_iff (div2Int_run hr t2 hj hfits), mkBigIntTerm_intValue?]
    simp [hfits]
  · obtain ⟨t, ht⟩ := div2Int_overflow hr t2 hj hfits
    rw [yieldsExactly_iff ht]
    simp [hfits]

/-- A big integer has a greater magnitude than a word, unless they are the least
    word and its negation. -/
theorem abs_toInt_lt {i : Word} {b : BigInt} (h : ¬ (i.toInt = -2 ^ 63 ∧ b.1 = 2 ^ 63)) :
    |i.toInt| < |b.1| := by
  have hlo := Word.le_toInt i
  have hhi := Word.toInt_lt i
  have hb := b.2
  simp only [Word.Fits] at hb
  rw [Int.abs_eq_natAbs, Int.abs_eq_natAbs]
  omega

/-- The quotient of a word by a big integer rounds down to zero or to minus one. -/
theorem fdiv_bigInt (i : Word) (b : BigInt) :
    i.toInt.fdiv b.1 = if i.toInt = 0 ∨ (0 < i.toInt ↔ 0 < b.1) then 0 else -1 := by
  by_cases hmin : i.toInt = -2 ^ 63 ∧ b.1 = 2 ^ 63
  · rw [hmin.1, hmin.2]
    decide
  · exact fdiv_of_lt (abs_toInt_lt hmin)

theorem gmpDivIntBig_yieldsExactly_iff (i : Word) (b : BigInt) :
    YieldsExactly (gmpDivIntBig hr i (.int b)) z ↔ z = 0 := by
  have hrun : (gmpDivIntBig hr i (.int b)).run false = .ok (mkIntTerm 0, false) := rfl
  rw [yieldsExactly_iff hrun, show (mkIntTerm 0).intValue? = some 0 from rfl]
  simp [eq_comm]

/-- On a word and a big integer `div` answers zero, which is wrong where the
    quotient rounds down to minus one; of the operands with quotient zero only a
    zero below a positive big integer has a wrong modulus. -/
theorem wordBig_yieldsExactly_iff (t : Term) (i : Word) (b : BigInt) :
    YieldsExactly (gmpDivIntBig hr i (.int b)) (i.toInt.fdiv b.1) ∧
        YieldsExactly (gmpModIntBig hr i t (.int b)) (i.toInt.fmod b.1) ↔
      (¬ InBand (i.toInt.fdiv b.1) ∧ ¬ InBand (i.toInt.fmod b.1)) ∧
        ((0 < i.toInt ∧ 0 < b.1) ∨ (i.toInt ≤ 0 ∧ b.1 < 0)) := by
  have hb : b.1 ≠ 0 := fun h => b.2 (by rw [h]; decide)
  have hmod : i.toInt.fmod b.1 = i.toInt - b.1 * i.toInt.fdiv b.1 := Int.fmod_def _ _
  rw [gmpDivIntBig_yieldsExactly_iff, yieldsExactly_iff (gmpModIntBig_run hr i t b)]
  by_cases hzero : i.toInt.fdiv b.1 = 0
  · rw [hzero, mul_zero, sub_zero] at hmod
    rw [hzero, hmod]
    rw [fdiv_bigInt] at hzero
    have hzeroBox : ¬ InBand 0 := by decide
    by_cases hsame : 0 < b.1 ↔ 0 < i.toInt
    · have hsign : (0 < i.toInt ∧ 0 < b.1) ∨ (i.toInt ≤ 0 ∧ b.1 < 0) := by omega
      rw [if_pos hsame, mkBigIntTerm_intValue?]
      simp [hzeroBox, hsign]
    · -- the modulus comes out as the positive big integer
      obtain ⟨hi, hpos⟩ : i.toInt = 0 ∧ 0 < b.1 := by split at hzero <;> omega
      have hread := (mkBigIntTerm_intValue? hr b.1).mpr b.not_inBand
      rw [if_neg hsame, hi, zero_add, hread]
      simp [hb, hpos.le]
  · refine iff_of_false (fun h => hzero h.1) ?_
    rw [fdiv_bigInt] at hzero
    split at hzero <;> omega

theorem bigWord_yieldsExactly_iff (b : BigInt) {i : Word} (hi : i.toInt ≠ 0) :
    YieldsExactly (gmpDiv2BigInt hr (.int b) i) (b.1.fdiv i.toInt) ↔
      ¬ InBand (b.1.fdiv i.toInt) ∧ (0 < i.toInt ∨ (i.toInt ∣ b.1 ∧ i.toInt ≠ -2 ^ 63)) := by
  have hmin : 0 < i.toInt → i.toInt ≠ -2 ^ 63 := by omega
  rw [yieldsExactly_iff (gmpDiv2BigInt_run hr b hi), decide_eq_false_iff_not,
    mkBigIntTerm_intValue?_iff (by split <;> simp)]
  by_cases hexact : 0 < i.toInt ∨ i.toInt ∣ b.1
  · rw [if_pos hexact, add_zero]
    tauto
  · rw [if_neg hexact]
    obtain ⟨hneg, hdvd⟩ := not_or.mp hexact
    simp [hneg, hdvd]

theorem dividesDown_iff_when {t1 t2 : Term} {x y : ℤ} (h1 : t1.intValue? = some x)
    (h2 : t2.intValue? = some y) (hy : y ≠ 0) :
    DividesDown hr t1 t2 x y ↔ DividesDownWhen t1 t2 x y := by
  rw [dividesDown_iff hy]
  unfold pDiv2 pMod
  rcases Term.intValue?_cases h1 with ⟨i, he1, rfl, hk1⟩ | ⟨b, he1, rfl, hk1⟩ <;>
    rcases Term.intValue?_cases h2 with ⟨j, he2, rfl, hk2⟩ | ⟨c, he2, rfl, hk2⟩
  · simp only [he1, he2]
    rw [div2Int_yieldsExactly_iff t2 hy, yieldsExactly_iff (modInt_run hr t2 i hy),
      mkBigIntTerm_intValue?]
    constructor
    · rintro ⟨⟨hfits, hquot⟩, -, hmod⟩
      exact ⟨hquot, hmod, fun _ _ => hfits, by simp [hk2], by simp [hk1]⟩
    · intro h
      exact ⟨⟨h.wordWord hk1 hk2, h.quotient⟩, rfl, h.modulus⟩
  · simp only [he1, he2]
    rw [wordBig_yieldsExactly_iff]
    constructor
    · rintro ⟨⟨hquot, hmod⟩, hsign⟩
      exact ⟨hquot, hmod, by simp [hk2], fun _ _ => hsign, by simp [hk1]⟩
    · intro h
      exact ⟨⟨h.quotient, h.modulus⟩, h.wordBig hk1 hk2⟩
  · have hne : j ≠ 0 := fun h => hy (by rw [h]; rfl)
    have hmod : (gmpModBigInt hr t1 j (.int b)).run false =
        .ok (mkBigIntTerm hr (b.1.fmod j.toInt), false) := rfl
    simp only [he1, he2, if_neg hne]
    rw [bigWord_yieldsExactly_iff b hy, yieldsExactly_iff hmod, mkBigIntTerm_intValue?]
    constructor
    · rintro ⟨⟨hquot, hsign⟩, -, hmodulus⟩
      exact ⟨hquot, hmodulus, by simp [hk1], by simp [hk1], fun _ _ => hsign⟩
    · intro h
      exact ⟨⟨h.quotient, h.bigWord hk1 hk2⟩, rfl, h.modulus⟩
  · have hquot : (gmpDiv2BigBig hr (.int b) (.int c)).run false =
        .ok (mkBigIntTerm hr (b.1.fdiv c.1), false) := rfl
    have hmod : (gmpModBigBig hr t1 t2 (.int b) (.int c)).run false =
        .ok (mkBigIntTerm hr (b.1.fmod c.1), false) := rfl
    simp only [he1, he2]
    rw [yieldsExactly_iff hquot, yieldsExactly_iff hmod, mkBigIntTerm_intValue?,
      mkBigIntTerm_intValue?]
    constructor
    · rintro ⟨⟨-, hquotient⟩, -, hmodulus⟩
      exact ⟨hquotient, hmodulus, by simp [hk1], by simp [hk1], by simp [hk2]⟩
    · intro h
      exact ⟨⟨rfl, h.quotient⟩, rfl, h.modulus⟩

/-- The division of a big integer by a negative word, at an exact quotient. -/
theorem dividesDown_two_pow_64_neg_two :
    DividesDown 0 (.blob 0 (.bigInt (.int ⟨2 ^ 64, by decide⟩))) (.int (-2)) (2 ^ 64) (-2) :=
  (dividesDown_iff_when rfl rfl (by decide)).mpr
    ⟨by decide, by decide, nofun, nofun, fun _ _ => .inr (by decide)⟩

/-- `-1 div 2 ^ 64` is answered with zero. -/
theorem not_dividesDown_neg_one_two_pow_64 :
    ¬ DividesDown 0 (.int (-1)) (.blob 0 (.bigInt (.int ⟨2 ^ 64, by decide⟩))) (-1) (2 ^ 64) := by
  rw [dividesDown_iff (by decide)]
  rintro ⟨hquot, -⟩
  have hzero : YieldsExactly (gmpDivIntBig 0 (intOfTerm (-1)) (.int ⟨2 ^ 64, by decide⟩)) (-1) := hquot
  rw [gmpDivIntBig_yieldsExactly_iff] at hzero
  exact absurd hzero (by decide)

-- ---------------------------------------------------------------------------
-- `//` and `rem`
-- ---------------------------------------------------------------------------

/-- `//` and `rem` return the quotient and the remainder of the division that
    rounds towards zero. -/
def DividesTowardsZero (hr : Addr) (t1 t2 : Term) (x y : ℤ) : Prop :=
  ∃ q r, Yields (pDiv hr t1 t2) q ∧ Yields (pRem hr t1 t2) r ∧ IsTruncated x y q r

theorem dividesTowardsZero_iff {t1 t2 : Term} {x y : ℤ} (hy : y ≠ 0) :
    DividesTowardsZero hr t1 t2 x y ↔
      Yields (pDiv hr t1 t2) (x.tdiv y) ∧ Yields (pRem hr t1 t2) (x.tmod y) := by
  constructor
  · rintro ⟨q, r, hq, hrem, htrunc⟩
    obtain ⟨rfl, rfl⟩ := (isTruncated_iff hy).mp htrunc
    exact ⟨hq, hrem⟩
  · rintro ⟨hq, hrem⟩
    exact ⟨_, _, hq, hrem, (isTruncated_iff hy).mpr ⟨rfl, rfl⟩⟩

/-- The quotient and the remainder can be boxed, and

    - a word and a big integer are not the least word and its negation;
    - a big integer divided by a word is not negative, or the division is exact;
    - two big integers have one sign, or the division is exact. -/
structure DividesTowardsZeroWhen (t1 t2 : Term) (x y : ℤ) : Prop where
  quotient : ¬ InBand (x.tdiv y)
  remainder : ¬ InBand (x.tmod y)
  wordBig : t1.isBignum = false → t2.isBignum = true → ¬ (x = -2 ^ 63 ∧ y = 2 ^ 63)
  bigWord : t1.isBignum = true → t2.isBignum = false → 0 ≤ x ∨ y ∣ x
  bigBig : t1.isBignum = true → t2.isBignum = true → (0 ≤ x ↔ 0 ≤ y) ∨ y ∣ x

theorem mkIntegerTerm_eq (hr : Addr) (i : Word) : mkIntegerTerm hr i = mkBigIntTerm hr i.toInt := by
  rw [← mkIntegerTerm_ofInt hr (Word.fits_toInt i), BitVec.ofInt_toInt]

theorem divInt_run (hr : Addr) (t2 : Term) {i j : Word} (hj : j.toInt ≠ 0) :
    (divInt hr t2 i j).run false = .ok (mkBigIntTerm hr (i.toInt.tdiv j.toInt), false) := by
  have hne : j ≠ 0 := fun h => hj (by rw [h]; rfl)
  unfold divInt
  rw [if_neg hne]
  split
  case isTrue h =>
    obtain ⟨rfl, rfl⟩ := h
    rfl
  case isFalse h =>
    have hquot : (i.sdiv j).toInt = i.toInt.tdiv j.toInt :=
      BitVec.toInt_sdiv_of_ne_or_ne i j (not_and_or.mp h)
    have hfits : Word.Fits (i.toInt.tdiv j.toInt) := hquot ▸ Word.fits_toInt _
    rw [signed_bind_run, decide_eq_true hfits, ← hquot, ← mkIntegerTerm_eq]
    rfl

theorem remInt_run (hr : Addr) (t2 : Term) {i j : Word} (hj : j.toInt ≠ 0) :
    (remInt hr t2 i j).run false = .ok (mkBigIntTerm hr (i.toInt.tmod j.toInt), false) := by
  have hne : j ≠ 0 := fun h => hj (by rw [h]; rfl)
  unfold remInt
  rw [if_neg hne]
  split
  case isTrue h =>
    obtain ⟨rfl, rfl⟩ := h
    rw [mkIntTerm_zero hr]
    rfl
  case isFalse h =>
    rw [← BitVec.toInt_srem, ← mkIntegerTerm_eq]
    rfl

/-- The quotient of a word by a big integer is zero, except at the least word
    and its negation. -/
theorem tdiv_bigInt (i : Word) (b : BigInt) :
    i.toInt.tdiv b.1 = 0 ↔ ¬ (i.toInt = -2 ^ 63 ∧ b.1 = 2 ^ 63) := by
  by_cases hmin : i.toInt = -2 ^ 63 ∧ b.1 = 2 ^ 63
  · rw [hmin.1, hmin.2]
    decide
  · have hlt := abs_toInt_lt hmin
    rw [Int.abs_eq_natAbs, Int.abs_eq_natAbs, Nat.cast_lt] at hlt
    rw [← Int.sign_eq_zero_iff_zero, Int.sign_tdiv, if_pos hlt]
    exact iff_of_true rfl hmin

theorem gmpDivIntBig_yields_iff (i : Word) (b : BigInt) :
    Yields (gmpDivIntBig hr i (.int b)) z ↔ z = 0 := by
  have hrun : (gmpDivIntBig hr i (.int b)).run false = .ok (mkIntTerm 0, false) := rfl
  rw [yields_iff hrun, show (mkIntTerm 0).intValue? = some 0 from rfl]
  simp [eq_comm]

/-- The rounding of `//` on a big integer and a word: the quotient is the floor
    for a positive word and the ceiling for a negative one. -/
theorem roundedQuotient_eq_tdiv_iff (x : ℤ) {y : ℤ} (hy : y ≠ 0) :
    (x.fdiv y + if 0 < y ∨ y ∣ x then 0 else 1) = x.tdiv y ↔ 0 ≤ x ∨ y ∣ x := by
  by_cases hdvd : y ∣ x
  · simp [hdvd, Int.tdiv_eq_fdiv]
  · rw [tdiv_of_not_dvd hy hdvd]
    simp only [hdvd, or_false]
    split <;> split <;> omega

theorem roundedQuotient_close (x : ℤ) {y : ℤ} (hy : y ≠ 0) :
    |(x.fdiv y + if 0 < y ∨ y ∣ x then 0 else 1) - x.tdiv y| ≤ 1 := by
  have hclose := tdiv_close x hy
  rw [abs_le]
  split <;> omega

theorem dividesTowardsZero_iff_when {t1 t2 : Term} {x y : ℤ} (h1 : t1.intValue? = some x)
    (h2 : t2.intValue? = some y) (hy : y ≠ 0) :
    DividesTowardsZero hr t1 t2 x y ↔ DividesTowardsZeroWhen t1 t2 x y := by
  rw [dividesTowardsZero_iff hy]
  unfold pDiv pRem
  rcases Term.intValue?_cases h1 with ⟨i, he1, rfl, hk1⟩ | ⟨b, he1, rfl, hk1⟩ <;>
    rcases Term.intValue?_cases h2 with ⟨j, he2, rfl, hk2⟩ | ⟨c, he2, rfl, hk2⟩
  · simp only [he1, he2]
    rw [yields_iff (divInt_run hr t2 hy), yields_iff (remInt_run hr t2 hy),
      mkBigIntTerm_intValue?, mkBigIntTerm_intValue?]
    constructor
    · rintro ⟨hquot, hrem⟩
      exact ⟨hquot, hrem, by simp [hk2], by simp [hk1], by simp [hk1]⟩
    · intro h
      exact ⟨h.quotient, h.remainder⟩
  · have hrem : (gmpRemIntBig hr i t2 (.int c)).run false =
        .ok (mkBigIntTerm hr i.toInt, false) := by rw [← mkIntegerTerm_eq]; rfl
    have hmod : i.toInt.tmod c.1 = i.toInt - c.1 * i.toInt.tdiv c.1 := Int.tmod_def _ _
    simp only [he1, he2]
    rw [gmpDivIntBig_yields_iff, yields_iff hrem]
    constructor
    · rintro ⟨hzero, hval⟩
      rw [hzero, mul_zero, sub_zero] at hmod
      rw [hmod, mkBigIntTerm_intValue?] at hval
      have hmin := (tdiv_bigInt i c).mp hzero
      exact ⟨by rw [hzero]; decide, by rwa [hmod], fun _ _ => hmin, by simp [hk1], by simp [hk1]⟩
    · intro h
      have hzero := (tdiv_bigInt i c).mpr (h.wordBig hk1 hk2)
      have hband := h.remainder
      rw [hzero, mul_zero, sub_zero] at hmod
      rw [hmod] at hband ⊢
      exact ⟨hzero, (mkBigIntTerm_intValue? hr _).mpr hband⟩
  · have hne : j ≠ 0 := fun h => hy (by rw [h]; rfl)
    have hrem : (gmpRemBigInt hr t1 j (.int b)).run false =
        .ok (mkBigIntTerm hr (b.1.tmod j.toInt), false) := rfl
    simp only [he1, he2, if_neg hne, gmpDivBigInt_eq]
    rw [yields_iff (gmpDiv2BigInt_run hr b hy), yields_iff hrem, mkBigIntTerm_intValue?,
      mkBigIntTerm_intValue?_iff (roundedQuotient_close b.1 hy), roundedQuotient_eq_tdiv_iff b.1 hy]
    constructor
    · rintro ⟨⟨hround, hquot⟩, hremainder⟩
      exact ⟨hquot, hremainder, by simp [hk1], fun _ _ => hround, by simp [hk2]⟩
    · intro h
      exact ⟨⟨h.bigWord hk1 hk2, h.quotient⟩, h.remainder⟩
  · have hquot : (gmpDivBigBig hr (.int b) (.int c)).run false =
        .ok (mkBigIntTerm hr (b.1.fdiv c.1), false) := rfl
    have hrem : (gmpRemBigBig hr t1 t2 (.int b) (.int c)).run false =
        .ok (mkBigIntTerm hr (b.1.tmod c.1), false) := rfl
    have hclose : |b.1.fdiv c.1 - b.1.tdiv c.1| ≤ 1 := by
      have h := tdiv_close b.1 hy
      rw [abs_le]
      omega
    simp only [he1, he2]
    rw [yields_iff hquot, yields_iff hrem, mkBigIntTerm_intValue?,
      mkBigIntTerm_intValue?_iff hclose, fdiv_eq_tdiv_iff hy]
    constructor
    · rintro ⟨⟨hround, hquotient⟩, hremainder⟩
      exact ⟨hquotient, hremainder, by simp [hk1], by simp [hk2], fun _ _ => hround⟩
    · intro h
      exact ⟨⟨h.bigBig hk1 hk2, h.quotient⟩, h.remainder⟩

/-- The least word divided by minus one. -/
theorem dividesTowardsZero_intMin_neg_one :
    DividesTowardsZero 0 (.blob 0 (.longInt ⟨Word.intMin, by decide⟩)) (.int (-1)) (-2 ^ 63) (-1) :=
  (dividesTowardsZero_iff_when rfl rfl (by decide)).mpr
    ⟨by decide, by decide, nofun, nofun, nofun⟩

/-- The least word divided by its negation is answered with zero. -/
theorem not_dividesTowardsZero_intMin_two_pow_63 :
    ¬ DividesTowardsZero 0 (.blob 0 (.longInt ⟨Word.intMin, by decide⟩))
      (.blob 0 (.bigInt (.int ⟨2 ^ 63, by decide⟩))) (-2 ^ 63) (2 ^ 63) := by
  rw [dividesTowardsZero_iff (by decide)]
  rintro ⟨hquot, -⟩
  have hzero : Yields (gmpDivIntBig 0 Word.intMin (.int ⟨2 ^ 63, by decide⟩)) (-1) := hquot
  rw [gmpDivIntBig_yields_iff] at hzero
  exact absurd hzero (by decide)

end Yap
