-- SUMMARY: `gcd` of integers: the loop on machine words and its cofactors, and when the greatest common divisor is returned.
import Yap.Arith.Power

/-!
# Greatest common divisors

The loop divides the larger of two words by the smaller one, and keeps two
cofactors that the result does not need. They stay below the second operand.
-/

namespace Yap

-- ---------------------------------------------------------------------------
-- Machine integers
-- ---------------------------------------------------------------------------

/-- `m -= k * n`. -/
def subMul (m k n : Word) : Calc {w : Word // w = m - k * n} := do
  let _ ← signed (k.toInt * n.toInt) (k * n)
  let _ ← signed (m.toInt - (k * n).toInt) (m - k * n)
  return ⟨m - k * n, rfl⟩

theorem toInt_sdiv_of_pos {m n : Word} (hn : 0 < n.toInt) : (m.sdiv n).toInt = m.toInt.tdiv n.toInt := by
  refine BitVec.toInt_sdiv_of_ne_or_ne m n (.inr ?_)
  rintro rfl
  exact absurd hn (by decide)

theorem toInt_subMul {m k n : Word} (hmul : Word.Fits (k.toInt * n.toInt))
    (hsub : Word.Fits (m.toInt - k.toInt * n.toInt)) : (m - k * n).toInt = m.toInt - k.toInt * n.toInt := by
  have hint : (k * n).toInt = k.toInt * n.toInt := toInt_mul_of_fits hmul
  rw [Word.toInt_sub_of_fits (by rwa [hint]), hint]

/-- The quotient of two words leaves their remainder, and nothing overflows. -/
theorem sdiv_subMul {m n : Word} (hm : 0 ≤ m.toInt) (hn : 0 < n.toInt) :
    0 ≤ (m.sdiv n).toInt ∧ m.toInt - (m.sdiv n).toInt * n.toInt = m.toInt % n.toInt ∧
      Word.Fits ((m.sdiv n).toInt * n.toInt) ∧ Word.Fits (m.toInt - (m.sdiv n).toInt * n.toInt) := by
  have hhi := Word.toInt_lt m
  have hquot : (m.sdiv n).toInt = m.toInt / n.toInt := by
    rw [toInt_sdiv_of_pos hn, Int.tdiv_eq_ediv_of_nonneg hm]
  have hle := Int.ediv_mul_le m.toInt hn.ne'
  have hnonneg : 0 ≤ m.toInt / n.toInt := Int.ediv_nonneg hm hn.le
  have hprod := mul_nonneg hnonneg hn.le
  have hmod : m.toInt - m.toInt / n.toInt * n.toInt = m.toInt % n.toInt := by
    rw [Int.emod_def, mul_comm]
  have hrest := Int.emod_nonneg m.toInt hn.ne'
  rw [hquot]
  exact ⟨hnonneg, hmod, by constructor <;> omega, by constructor <;> omega⟩

theorem toNat_subMul_lt {m n : Word} (hm : 0 ≤ m.toInt) (hn : 0 < n.toInt) (hle : n.toInt ≤ m.toInt) :
    (m - m.sdiv n * n).toNat < m.toNat := by
  obtain ⟨-, hmod, hmul, hsub⟩ := sdiv_subMul hm hn
  have hint := toInt_subMul hmul hsub
  have hrest := Int.emod_nonneg m.toInt hn.ne'
  have hlt := Int.emod_lt_of_pos m.toInt hn
  have h1 := Word.toInt_eq_toNat hm
  have h2 := Word.toInt_eq_toNat (x := m - m.sdiv n * n) (by omega)
  omega

/-- The loop of `gcd`, with the numbers and the cofactors of the first one. -/
def gcdLoop (m11 m21 m12 m22 : Word) : Calc (Word × Word) := do
  if _hpos : 0 < m11.toInt ∧ 0 < m21.toInt then
    if _hlt : m11.toInt < m21.toInt then
      let m21' ← subMul m21 (m21.sdiv m11) m11
      let m22' ← subMul m22 (m21.sdiv m11) m12
      gcdLoop m11 m21'.1 m12 m22'.1
    else
      let m11' ← subMul m11 (m11.sdiv m21) m21
      let m12' ← subMul m12 (m11.sdiv m21) m22
      gcdLoop m11'.1 m21 m12'.1 m22
  else return (m11, m21)
termination_by m11.toNat + m21.toNat
decreasing_by
  · rw [m21'.2]
    have hless := toNat_subMul_lt _hpos.2.le _hpos.1 _hlt.le
    omega
  · rw [m11'.2]
    have hless := toNat_subMul_lt _hpos.1.le _hpos.2 (not_lt.mp _hlt)
    omega

def gcdWord (hr : Addr) (m11 m21 : Word) : Calc Word := do
  let (m11, m21) ← gcdLoop m11 m21 1 0
  if m11.toInt < 0 ∨ m21.toInt < 0 then
    arithError .evaluationErrorIntOverflow (mkIntegerTerm hr m11)
      ("gcd/2 with " ++ intText m11 ++ " and " ++ intText m21)
  else if m11 ≠ 0 then return m11
  else return m21

-- ---------------------------------------------------------------------------
-- The operator
-- ---------------------------------------------------------------------------

/-- `mpz_gcd_ui`. -/
def mpzGcdUi (b : ℤ) (n : Word) : Word := BitVec.ofNat 64 (Nat.gcd b.natAbs n.toNat)

/-- `Yap_gmp_gcd_int_big`. -/
def gmpGcdIntBig (hr : Addr) (i : Word) (t : Term) : BigNum → Calc Term
  | .rat _ => arithError .typeErrorInteger t "gcd/2"
  | .int b => do
    if 0 < i.toInt then return mkIntegerTerm hr (mpzGcdUi b.1 i)
    else if i = 0 then return mkIntTerm 0
    else
      let n ← signed (-i.toInt) (-i)
      return mkIntegerTerm hr (mpzGcdUi b.1 n)

/-- `Yap_gmp_gcd_big_big`. -/
def gmpGcdBigBig (hr : Addr) : Term → Term → BigNum → BigNum → Calc Term :=
  gmpOnInts hr "gcd/2" fun b1 b2 => Int.gcd b1 b2

def pGcd (hr : Addr) (t1 t2 : Term) : Calc Term :=
  match eTypeOfTerm t1, eTypeOfTerm t2 with
  | .longInt i1, .longInt i2 => do
    let i1 ← absInt i1
    let i2 ← absInt i2
    let d ← gcdWord hr i1 i2
    rint hr d
  | .longInt _, .double _ => arithError .typeErrorInteger t2 "gcd/2"
  | .longInt i1, .bigInt b2 => gmpGcdIntBig hr i1 t2 b2
  | .double _, _ => arithError .typeErrorInteger t1 "gcd/2"
  | .bigInt b1, .longInt i2 => gmpGcdIntBig hr i2 t1 b1
  | .bigInt b1, .bigInt b2 => gmpGcdBigBig hr t1 t2 b1 b2
  | .bigInt _, .double _ => arithError .typeErrorInteger t2 "gcd/2"
  | _, _ => rerror

-- ---------------------------------------------------------------------------
-- The loop
-- ---------------------------------------------------------------------------

theorem subMul_run {m k n : Word} (o : Bool) (hmul : Word.Fits (k.toInt * n.toInt))
    (hsub : Word.Fits (m.toInt - k.toInt * n.toInt)) : (subMul m k n).run o = .ok (⟨m - k * n, rfl⟩, o) := by
  unfold subMul
  rw [signed_bind_run, signed_bind_run, toInt_mul_of_fits hmul, decide_eq_true hmul, decide_eq_true hsub,
    Bool.not_true, Bool.or_false, Bool.or_false]
  rfl

/-- What the loop keeps: the numbers are not negative, the cofactors have opposite signs, and the cofactors with the
    numbers make up the second operand, so that they are words. -/
structure Cofactors (m11 m21 m12 m22 : ℤ) : Prop where
  first : 0 ≤ m11
  second : 0 ≤ m21
  left : 0 ≤ m12
  right : m22 ≤ 0
  bound : m12 * m21 - m22 * m11 < 2 ^ 63

/-- The second number is reduced by the first one. -/
theorem Cofactors.reduce {m11 m21 m12 m22 : ℤ} (h : Cofactors m11 m21 m12 m22) (hpos : 0 < m11) (k : ℤ) (hk : 0 ≤ k)
    (hrest : 0 ≤ m21 - k * m11) :
    Cofactors m11 (m21 - k * m11) m12 (m22 - k * m12) ∧ 0 ≤ k * m12 ∧ k * m12 < 2 ^ 63 ∧ -2 ^ 63 < m22 - k * m12 := by
  have hprod : 0 ≤ k * m12 := mul_nonneg hk h.left
  have hsame : m12 * (m21 - k * m11) - (m22 - k * m12) * m11 = m12 * m21 - m22 * m11 := by ring
  have hfirst : 0 ≤ m12 * (m21 - k * m11) := mul_nonneg h.left hrest
  have hle : -(m22 - k * m12) ≤ -(m22 - k * m12) * m11 :=
    le_mul_of_one_le_right (by linarith [h.right]) (by omega)
  have hbound := h.bound
  have hright := h.right
  have hsmall : -(m22 - k * m12) < 2 ^ 63 := by
    have hneg : -(m22 - k * m12) * m11 = m12 * m21 - m22 * m11 - m12 * (m21 - k * m11) := by ring
    omega
  exact ⟨⟨h.first, hrest, h.left, by omega, hsame ▸ hbound⟩, hprod, by omega, by omega⟩

theorem Cofactors.flip {m11 m21 m12 m22 : ℤ} (h : Cofactors m11 m21 m12 m22) : Cofactors m21 m11 (-m22) (-m12) :=
  ⟨h.second, h.first, by linarith [h.right], by linarith [h.left], by linarith [h.bound]⟩

/-- The loop ends with a zero and the greatest common divisor, and overflows nowhere. -/
theorem gcdLoop_run {m11 m21 m12 m22 : Word} (o : Bool) (h : Cofactors m11.toInt m21.toInt m12.toInt m22.toInt) :
    ∃ d e : Word, (gcdLoop m11 m21 m12 m22).run o = .ok ((d, e), o) ∧ 0 ≤ d.toInt ∧ 0 ≤ e.toInt ∧
      (d.toInt = 0 ∨ e.toInt = 0) ∧ Int.gcd d.toInt e.toInt = Int.gcd m11.toInt m21.toInt := by
  induction hsize : m11.toNat + m21.toNat using Nat.strong_induction_on generalizing m11 m21 m12 m22 with
  | _ size ih =>
    rw [gcdLoop]
    by_cases hpos : 0 < m11.toInt ∧ 0 < m21.toInt
    · rw [dif_pos hpos]
      by_cases hlt : m11.toInt < m21.toInt
      · obtain ⟨hquot, hmod, hmul, hsub⟩ := sdiv_subMul h.second hpos.1
        have hrest := Int.emod_nonneg m21.toInt hpos.1.ne'
        obtain ⟨hnext, hprod, hlarge, hsmall⟩ := h.reduce hpos.1 _ hquot (by omega)
        have hmul' : Word.Fits ((m21.sdiv m11).toInt * m12.toInt) := ⟨by omega, hlarge⟩
        have hsub' : Word.Fits (m22.toInt - (m21.sdiv m11).toInt * m12.toInt) := ⟨hsmall.le, by linarith [hnext.right]⟩
        have hless := toNat_subMul_lt h.second hpos.1 hlt.le
        rw [dif_pos hlt, Calc.bind_run (subMul_run o hmul hsub), Calc.bind_run (subMul_run o hmul' hsub')]
        rw [← toInt_subMul hmul hsub, ← toInt_subMul hmul' hsub'] at hnext
        obtain ⟨d, e, hrun, hd, he, hzero, hgcd⟩ := ih _ (by omega) hnext rfl
        refine ⟨d, e, hrun, hd, he, hzero, ?_⟩
        rw [hgcd, toInt_subMul hmul hsub, Int.gcd_sub_mul_right_right]
      · obtain ⟨hquot, hmod, hmul, hsub⟩ := sdiv_subMul h.first hpos.2
        have hrest := Int.emod_nonneg m11.toInt hpos.2.ne'
        obtain ⟨hnext, hprod, hlarge, hsmall⟩ := h.flip.reduce hpos.2 _ hquot (by omega)
        rw [mul_neg] at hprod hlarge hsmall
        have hmul' : Word.Fits ((m11.sdiv m21).toInt * m22.toInt) := by constructor <;> omega
        have hsub' : Word.Fits (m12.toInt - (m11.sdiv m21).toInt * m22.toInt) :=
          ⟨by linarith [h.left], by linarith⟩
        have hless := toNat_subMul_lt h.first hpos.2 (not_lt.mp hlt)
        have hnext' := hnext.flip
        rw [neg_neg, mul_neg, sub_neg_eq_add, neg_add, neg_neg, ← sub_eq_add_neg, ← toInt_subMul hmul hsub,
          ← toInt_subMul hmul' hsub'] at hnext'
        rw [dif_neg hlt, Calc.bind_run (subMul_run o hmul hsub), Calc.bind_run (subMul_run o hmul' hsub')]
        obtain ⟨d, e, hrun, hd, he, hzero, hgcd⟩ := ih _ (by omega) hnext' rfl
        refine ⟨d, e, hrun, hd, he, hzero, ?_⟩
        rw [hgcd, toInt_subMul hmul hsub, Int.gcd_sub_mul_right_left]
    · rw [dif_neg hpos]
      exact ⟨m11, m21, rfl, h.first, h.second, by have := h.first; have := h.second; omega, rfl⟩

-- ---------------------------------------------------------------------------
-- Machine integers
-- ---------------------------------------------------------------------------

variable {hr : Addr} {t1 t2 : Term} {x y : ℤ}

/-- `gcd` of two words that are not negative. -/
theorem gcdWord_run (hr : Addr) {m n : Word} (o : Bool) (hm : 0 ≤ m.toInt) (hn : 0 ≤ n.toInt) :
    ∃ d : Word, (gcdWord hr m n).run o = .ok (d, o) ∧ d.toInt = Int.gcd m.toInt n.toInt := by
  have hstart : Cofactors m.toInt n.toInt (1 : Word).toInt (0 : Word).toInt := by
    have hone : (1 : Word).toInt = 1 := by decide
    have hzero : (0 : Word).toInt = 0 := by decide
    have hhi := Word.toInt_lt n
    rw [hone, hzero]
    exact ⟨hm, hn, by norm_num, le_refl 0, by omega⟩
  obtain ⟨d, e, hrun, hd, he, hzero, hgcd⟩ := gcdLoop_run o hstart
  have hsign : ¬ (d.toInt < 0 ∨ e.toInt < 0) := by omega
  unfold gcdWord
  rw [Calc.bind_run hrun]
  simp only [if_neg hsign]
  rcases eq_or_ne d 0 with rfl | hne
  · rw [if_neg (not_not.mpr rfl)]
    refine ⟨e, rfl, ?_⟩
    rw [← hgcd, show (0 : Word).toInt = 0 by decide, Int.gcd_zero_left, ← Int.eq_natAbs_of_nonneg he]
  · rw [if_pos hne]
    refine ⟨d, rfl, ?_⟩
    have hd0 : d.toInt ≠ 0 := fun h => hne (Word.toInt_inj.mp h)
    rw [← hgcd, hzero.resolve_left hd0, Int.gcd_zero_right, ← Int.eq_natAbs_of_nonneg hd]

/-- The absolute value of the least word is negative, and `gcd` refuses it. -/
theorem gcdWord_negative (hr : Addr) (o : Bool) {m n : Word} (h : m.toInt < 0 ∨ n.toInt < 0) :
    ∃ e, (gcdWord hr m n).run o = .error e := by
  have hloop : (gcdLoop m n 1 0).run o = .ok ((m, n), o) := by
    rw [gcdLoop, dif_neg (by omega)]
    rfl
  unfold gcdWord
  rw [Calc.bind_run hloop]
  simp only [if_pos h]
  exact ⟨_, rfl⟩

/-- Words in absolute value, where the least word stays negative. -/
theorem absInt_cases (i : Word) (o : Bool) :
    ∃ (w : Word) (o' : Bool), (absInt i).run o = .ok (w, o') ∧
      (i.toInt ≠ -2 ^ 63 → o' = o ∧ 0 ≤ w.toInt ∧ w.toInt = i.toInt.natAbs) ∧ (i.toInt = -2 ^ 63 → w.toInt < 0) := by
  by_cases hmin : i = Word.intMin
  · subst hmin
    exact ⟨Word.intMin, _, rfl, fun h => absurd rfl h, fun _ => by decide⟩
  · have hne : i.toInt ≠ -2 ^ 63 := fun h => hmin (Word.toInt_eq_intMin.mp h)
    by_cases hzero : i.toInt = 0
    · obtain rfl : i = 0 := Word.toInt_inj.mp hzero
      exact ⟨0, o, rfl, fun _ => ⟨rfl, le_refl 0, rfl⟩, fun h => absurd h hne⟩
    · obtain ⟨w, hrun, hpos, habs⟩ := absInt_run hzero hmin
      refine ⟨w, o, hrun o, fun _ => ⟨rfl, hpos.le, ?_⟩, fun h => absurd h hne⟩
      rw [Word.toInt_eq_toNat hpos.le, habs]

theorem word_yieldsExactly_iff (hr : Addr) (i j : Word) :
    YieldsExactly (do
      let i ← absInt i
      let j ← absInt j
      let d ← gcdWord hr i j
      rint hr d) (Int.gcd i.toInt j.toInt) ↔
      i.toInt ≠ -2 ^ 63 ∧ j.toInt ≠ -2 ^ 63 ∧ ¬ InBand (Int.gcd i.toInt j.toInt) := by
  obtain ⟨a, o, hi, hi1, hi2⟩ := absInt_cases i false
  obtain ⟨b, o', hj, hj1, hj2⟩ := absInt_cases j o
  by_cases hmin : i.toInt = -2 ^ 63 ∨ j.toInt = -2 ^ 63
  · obtain ⟨e, he⟩ := gcdWord_negative hr o' (m := a) (n := b) (hmin.imp hi2 hj2)
    refine iff_of_false (not_yieldsExactly_error _ (e := e) ?_) (by tauto)
    rw [Calc.bind_run hi, Calc.bind_run hj, StateT.run_bind, he]
    rfl
  · obtain ⟨hne1, hne2⟩ := not_or.mp hmin
    obtain ⟨rfl, ha, habs⟩ := hi1 hne1
    obtain ⟨rfl, hb, habs'⟩ := hj1 hne2
    obtain ⟨d, hrun, hd⟩ := gcdWord_run hr false ha hb
    have hgcd : d.toInt = Int.gcd i.toInt j.toInt := by
      rw [hd, habs, habs', Int.gcd, Int.gcd, Int.natAbs_natCast, Int.natAbs_natCast]
    rw [← hgcd]
    simp only [hne1, hne2, ne_eq, not_false_eq_true, true_and]
    refine yieldsExactly_boxed (?_ : _ = Except.ok (mkBigIntTerm hr _, false))
    rw [Calc.bind_run hi, Calc.bind_run hj, Calc.bind_run hrun, ← mkIntegerTerm_eq]
    rfl

-- ---------------------------------------------------------------------------
-- Big integers
-- ---------------------------------------------------------------------------

theorem mpzGcdUi_toInt (b : ℤ) {n : Word} (hn : 0 < n.toInt) : (mpzGcdUi b n).toInt = Int.gcd b n.toInt := by
  have hnat := Word.toInt_eq_toNat hn.le
  have hhi := Word.toInt_lt n
  have hgcd : Nat.gcd b.natAbs n.toNat ≤ n.toNat := Nat.le_of_dvd (by omega) (Nat.gcd_dvd_right _ _)
  rw [mpzGcdUi, Int.gcd, hnat, Int.natAbs_natCast]
  rw [BitVec.toInt_ofNat']
  exact Word.bmod_of_fits ⟨by omega, by omega⟩

theorem gmpGcdIntBig_yieldsExactly_iff (hr : Addr) (i : Word) (t : Term) (b : BigInt) :
    YieldsExactly (gmpGcdIntBig hr i t (.int b)) (Int.gcd i.toInt b.1) ↔
      i.toInt ≠ -2 ^ 63 ∧ i.toInt ≠ 0 ∧ ¬ InBand (Int.gcd i.toInt b.1) := by
  rw [gmpGcdIntBig, Int.gcd_comm]
  by_cases hpos : 0 < i.toInt
  · rw [if_pos hpos, and_iff_right (by omega), and_iff_right (by omega), ← mpzGcdUi_toInt b.1 hpos]
    refine yieldsExactly_boxed (?_ : _ = Except.ok (mkBigIntTerm hr _, false))
    rw [← mkIntegerTerm_eq]
    rfl
  · by_cases hzero : i = 0
    · subst hzero
      have hrun : (pure (mkIntTerm 0) : Calc Term).run false = .ok (mkIntTerm 0, false) := rfl
      have hb : b.1 ≠ 0 := fun h => b.2 (by rw [h]; decide)
      rw [if_neg hpos, if_pos rfl, yieldsExactly_iff hrun, show (mkIntTerm 0).intValue? = some 0 from rfl]
      refine iff_of_false ?_ (fun h => h.2.1 rfl)
      rintro ⟨-, heq⟩
      have hgcd : Int.gcd b.1 (0 : Word).toInt = 0 := by exact_mod_cast (Option.some.inj heq).symm
      exact hb (Int.gcd_eq_zero_iff.mp hgcd).1
    · have hne : i.toInt ≠ 0 := fun h => hzero (Word.toInt_inj.mp h)
      rw [if_neg hpos, if_neg hzero, and_iff_right hne]
      by_cases hmin : i.toInt = -2 ^ 63
      · obtain rfl : i = Word.intMin := Word.toInt_eq_intMin.mp hmin
        exact iff_of_false (not_yieldsExactly _ rfl) fun h => h.1 hmin
      · have hlo := Word.le_toInt i
        have hfits : Word.Fits (-i.toInt) := by simp only [Word.Fits]; omega
        have hneg : (-i).toInt = -i.toInt := by rw [BitVec.toInt_neg, Word.bmod_of_fits hfits]
        rw [and_iff_right hmin, ← Int.gcd_neg, ← hneg, ← mpzGcdUi_toInt b.1 (by omega)]
        refine yieldsExactly_boxed (?_ : _ = Except.ok (mkBigIntTerm hr _, false))
        rw [signed_bind_run, hneg, decide_eq_true hfits, ← mkIntegerTerm_eq]
        rfl

-- ---------------------------------------------------------------------------
-- The operator
-- ---------------------------------------------------------------------------

/-- The greatest common divisor that is not negative. -/
structure IsGcd (x y d : ℤ) : Prop where
  nonneg : 0 ≤ d
  dvd_left : d ∣ x
  dvd_right : d ∣ y
  greatest : ∀ c, c ∣ x → c ∣ y → c ∣ d

theorem isGcd_iff {d : ℤ} : IsGcd x y d ↔ d = Int.gcd x y := by
  constructor
  · intro h
    exact Int.dvd_antisymm h.nonneg (Int.natCast_nonneg _) (Int.dvd_coe_gcd h.dvd_left h.dvd_right)
      (h.greatest _ (Int.gcd_dvd_left x y) (Int.gcd_dvd_right x y))
  · rintro rfl
    exact ⟨Int.natCast_nonneg _, Int.gcd_dvd_left x y, Int.gcd_dvd_right x y, fun c => Int.dvd_coe_gcd⟩

/-- The operator returns the greatest common divisor, and nothing overflows. -/
def GcdRight (c : Calc Term) (x y : ℤ) : Prop := ∃ d, YieldsExactly c d ∧ IsGcd x y d

theorem gcdRight_iff {c : Calc Term} : GcdRight c x y ↔ YieldsExactly c (Int.gcd x y) := by
  simp only [GcdRight, isGcd_iff, exists_eq_right]

/-- The divisor can be boxed, neither operand is the least word, and no big integer is next to zero. -/
structure GcdWhen (x y : ℤ) : Prop where
  divisor : ¬ InBand (Int.gcd x y)
  left : x ≠ -2 ^ 63
  right : y ≠ -2 ^ 63
  zeroLeft : x = 0 → Word.Fits y
  zeroRight : y = 0 → Word.Fits x

theorem BigInt.ne_of_fits {z : ℤ} (b : BigInt) (h : Word.Fits z) : b.1 ≠ z := fun heq => b.2 (heq ▸ h)

theorem gcd_right_iff (hr : Addr) (h1 : t1.intValue? = some x) (h2 : t2.intValue? = some y) :
    GcdRight (pGcd hr t1 t2) x y ↔ GcdWhen x y := by
  rw [gcdRight_iff]
  unfold pGcd
  rcases Term.intValue?_cases h1 with ⟨i, he1, rfl, -⟩ | ⟨b, he1, rfl, -⟩ <;>
    rcases Term.intValue?_cases h2 with ⟨j, he2, rfl, -⟩ | ⟨c, he2, rfl, -⟩ <;>
    simp only [he1, he2]
  · rw [word_yieldsExactly_iff hr i j]
    constructor
    · rintro ⟨hi, hj, hband⟩
      exact ⟨hband, hi, hj, fun _ => Word.fits_toInt j, fun _ => Word.fits_toInt i⟩
    · intro h
      exact ⟨h.left, h.right, h.divisor⟩
  · rw [gmpGcdIntBig_yieldsExactly_iff]
    constructor
    · rintro ⟨hmin, hzero, hband⟩
      exact ⟨hband, hmin, c.ne_of_fits (by decide), fun h => absurd h hzero, fun _ => Word.fits_toInt i⟩
    · intro h
      exact ⟨h.left, fun hzero => c.2 (h.zeroLeft hzero), h.divisor⟩
  · rw [Int.gcd_comm, gmpGcdIntBig_yieldsExactly_iff]
    constructor
    · rintro ⟨hmin, hzero, hband⟩
      exact ⟨Int.gcd_comm _ _ ▸ hband, b.ne_of_fits (by decide), hmin, fun _ => Word.fits_toInt j, fun h => absurd h hzero⟩
    · intro h
      exact ⟨h.right, fun hzero => b.2 (h.zeroRight hzero), Int.gcd_comm b.1 _ ▸ h.divisor⟩
  · have hrun : (gmpGcdBigBig hr t1 t2 (.int b) (.int c)).run false = .ok (mkBigIntTerm hr (Int.gcd b.1 c.1), false) := rfl
    rw [yieldsExactly_boxed hrun]
    constructor
    · intro hband
      exact ⟨hband, b.ne_of_fits (by decide), c.ne_of_fits (by decide), fun h => absurd h (b.ne_of_fits (by decide)),
        fun h => absurd h (c.ne_of_fits (by decide))⟩
    · exact GcdWhen.divisor

/-- A negative machine integer with a big one. -/
theorem gcd_right_neg_six :
    GcdRight (pGcd 0 (.int (-6)) (.blob 0 (.bigInt (.int ⟨2 ^ 64, by decide⟩)))) (-6) (2 ^ 64) :=
  (gcd_right_iff 0 rfl rfl).mpr ⟨by decide +kernel, by decide, by decide, by decide, by decide⟩

/-- `gcd(0, 2 ^ 64)` is answered with zero. -/
theorem not_gcd_right_zero : ¬ GcdRight (pGcd 0 (.int 0) (.blob 0 (.bigInt (.int ⟨2 ^ 64, by decide⟩)))) 0 (2 ^ 64) := by
  rw [gcdRight_iff]
  intro h
  have hcall : YieldsExactly (gmpGcdIntBig 0 (intOfTerm 0) (.blob 0 (.bigInt (.int ⟨2 ^ 64, by decide⟩)))
      (.int ⟨2 ^ 64, by decide⟩)) (Int.gcd (intOfTerm 0).toInt (2 ^ 64)) := h
  exact ((gmpGcdIntBig_yieldsExactly_iff 0 _ _ _).mp hcall).2.1 rfl

end Yap
