-- SUMMARY: `floor`, `ceiling`, `round`, `truncate` and `integer` of a rational, and when the integer comes back in normal form.
import Yap.Arith.Unary

/-!
# Rounding

`mpz_set_q` divides towards zero. Each function corrects the quotient by the sign of
the rational, or changes the rational before it is divided. What the functions do with a
float is a parameter.
-/

namespace Yap

-- ---------------------------------------------------------------------------
-- The functions
-- ---------------------------------------------------------------------------

/-- `mpz_set_q`. -/
def mpzSetQ (b : ℚ) : ℤ := b.num.tdiv b.den

/-- `Yap_gmp_floor`. -/
def gmpFloor (hr : Addr) (t : Term) : BigNum → Calc Term
  | .int _ => return t
  | .rat b =>
    let new := mpzSetQ b.1
    return mkBigIntTerm hr (if b.1 < 0 ∧ b.1.den ≠ 1 then new - 1 else new)

/-- `Yap_gmp_ceiling`. -/
def gmpCeiling (hr : Addr) (t : Term) : BigNum → Calc Term
  | .int _ => return t
  | .rat b =>
    let new := mpzSetQ b.1
    return mkBigIntTerm hr (if 0 < b.1 ∧ b.1.den ≠ 1 then new + 1 else new)

/-- `Yap_gmp_round`. -/
def gmpRound (hr : Addr) (t : Term) : BigNum → Calc Term
  | .int _ => return t
  | .rat b =>
    let half : ℚ := 1 / 2
    let q := if 0 < b.1 then b.1 + half else b.1 - half
    return mkBigIntTerm hr (mpzSetQ q)

/-- `Yap_gmp_trunc`. Whatever the sign is, if it is not 0 the rational is negated before the division. -/
def gmpTrunc (hr : Addr) (t : Term) : BigNum → Calc Term
  | .int _ => return t
  | .rat b => return mkBigIntTerm hr (if b.1 ≠ 0 then -mpzSetQ (-b.1) else mpzSetQ b.1)

/-- The cases of `eval1` that round, by what they do with a float and with the contents of
    a `FunctorBigInt` box. -/
def evalRounding (onDouble : Binary64 → Calc Term) (onBig : Term → BigNum → Calc Term) (t : Term) : Calc Term :=
  match eTypeOfTerm t with
  | .longInt _ => return t
  | .double d => onDouble d
  | .bigInt b => onBig t b
  | .dbRef => rerror

inductive RoundingOp where
  | floor
  | ceiling
  | round
  | truncate
  | integer
deriving DecidableEq

namespace RoundingOp

/-- The function that computes the operator. -/
def run (onDouble : RoundingOp → Binary64 → Calc Term) (hr : Addr) : RoundingOp → Term → Calc Term
  | floor => evalRounding (onDouble floor) (gmpFloor hr)
  | ceiling => evalRounding (onDouble ceiling) (gmpCeiling hr)
  | round => evalRounding (onDouble round) (gmpRound hr)
  | truncate => evalRounding (onDouble truncate) (gmpTrunc hr)
  | integer => evalRounding (onDouble integer) (gmpTrunc hr)

/-- The integer that a rational is rounded to: the floor, the ceiling, the nearest
    integer with halves away from zero, or the integer towards zero. -/
def Rounds : RoundingOp → ℚ → ℤ → Prop
  | floor, q, z => z = ⌊q⌋
  | ceiling, q, z => z = ⌈q⌉
  | round, q, z => |q - z| ≤ 1 / 2 ∧ (|q - z| = 1 / 2 → |q| < |(z : ℚ)|)
  | truncate, q, z | integer, q, z => z = if 0 ≤ q then ⌊q⌋ else ⌈q⌉

/-- The rationals that are rounded to the integers that are tagged but do not fit the field. -/
def Strays : RoundingOp → ℚ → Prop
  | floor, q => -2 ^ 59 ≤ q ∧ q < -2 ^ 57 ∨ 2 ^ 57 ≤ q ∧ q < 2 ^ 59
  | ceiling, q => -2 ^ 59 - 1 < q ∧ q ≤ -2 ^ 57 - 1 ∨ 2 ^ 57 - 1 < q ∧ q ≤ 2 ^ 59 - 1
  | round, q => -2 ^ 59 - 1 / 2 < q ∧ q ≤ -2 ^ 57 - 1 / 2 ∨ 2 ^ 57 - 1 / 2 ≤ q ∧ q < 2 ^ 59 - 1 / 2
  | truncate, q | integer, q => -2 ^ 59 - 1 < q ∧ q ≤ -2 ^ 57 - 1 ∨ 2 ^ 57 ≤ q ∧ q < 2 ^ 59

end RoundingOp

-- ---------------------------------------------------------------------------
-- Division towards zero
-- ---------------------------------------------------------------------------

variable {q : ℚ} {z : ℤ}

theorem mpzSetQ_neg (q : ℚ) : mpzSetQ (-q) = -mpzSetQ q := by
  rw [mpzSetQ, mpzSetQ, Rat.num_neg_eq_neg_num, Rat.den_neg_eq_den, Int.neg_tdiv]

theorem mpzSetQ_of_nonneg (h : 0 ≤ q) : mpzSetQ q = ⌊q⌋ := by
  rw [mpzSetQ, Rat.floor_def', Int.tdiv_eq_ediv_of_nonneg (Rat.num_nonneg.mpr h)]

theorem mpzSetQ_of_nonpos (h : q ≤ 0) : mpzSetQ q = ⌈q⌉ := by
  rw [← neg_neg (mpzSetQ q), ← mpzSetQ_neg, mpzSetQ_of_nonneg (neg_nonneg.mpr h), Int.floor_neg, neg_neg]

/-- A rational with a denominator is strictly between two integers. -/
theorem ceil_eq_floor_add_one (h : q.den ≠ 1) : ⌈q⌉ = ⌊q⌋ + 1 := by
  have hne : (⌊q⌋ : ℚ) ≠ q := by
    intro heq
    rw [← heq] at h
    exact h (Rat.den_intCast _)
  rw [Int.ceil_eq_iff]
  refine ⟨?_, ?_⟩
  · push_cast
    rw [add_sub_cancel_right]
    exact lt_of_le_of_ne (Int.floor_le q) hne
  · push_cast
    exact (Int.lt_floor_add_one q).le

namespace RoundingOp

/-- The integer that a rational is rounded to. -/
def value : RoundingOp → ℚ → ℤ
  | floor, q => ⌊q⌋
  | ceiling, q => ⌈q⌉
  | round, q => if 0 < q then ⌊q + 1 / 2⌋ else ⌈q - 1 / 2⌉
  | truncate, q | integer, q => if 0 ≤ q then ⌊q⌋ else ⌈q⌉

/-- The nearest integer, with halves away from zero. -/
theorem nearest_iff_of_nonneg (h : 0 ≤ q) : |q - z| ≤ 1 / 2 ∧ (|q - z| = 1 / 2 → |q| < |(z : ℚ)|) ↔ z = ⌊q + 1 / 2⌋ := by
  rw [@eq_comm ℤ z, Int.floor_eq_iff, abs_of_nonneg h]
  constructor
  · rintro ⟨hnear, hhalf⟩
    obtain ⟨hlo, hhi⟩ := abs_le.mp hnear
    refine ⟨by linarith, lt_of_le_of_ne (by linarith) fun heq => ?_⟩
    have hdist : q - z = 1 / 2 := by linarith
    have hz : 0 ≤ (z : ℚ) := by
      have hnonneg : 0 ≤ z := by
        by_contra hneg
        have hle : (z : ℚ) ≤ -1 := by exact_mod_cast Int.le_sub_one_of_lt (not_le.mp hneg)
        linarith
      exact_mod_cast hnonneg
    have hlt := hhalf (by rw [hdist]; norm_num)
    rw [abs_of_nonneg hz] at hlt
    linarith
  · rintro ⟨hlo, hhi⟩
    refine ⟨abs_le.mpr ⟨by linarith, by linarith⟩, fun hhalf => ?_⟩
    refine lt_of_lt_of_le ?_ (le_abs_self _)
    rcases abs_eq (by norm_num : (0 : ℚ) ≤ 1 / 2) |>.mp hhalf with heq | heq
    · linarith
    · linarith

/-- Rounding is symmetric. -/
theorem nearest_neg : |-q - ((-z : ℤ) : ℚ)| ≤ 1 / 2 ∧ (|-q - ((-z : ℤ) : ℚ)| = 1 / 2 → |-q| < |((-z : ℤ) : ℚ)|) ↔
    |q - z| ≤ 1 / 2 ∧ (|q - z| = 1 / 2 → |q| < |(z : ℚ)|) := by
  have hdist : |-q - ((-z : ℤ) : ℚ)| = |q - z| := by
    push_cast
    rw [← abs_neg, neg_sub_neg, neg_sub]
  rw [hdist]
  push_cast
  rw [abs_neg, abs_neg]

theorem rounds_iff (op : RoundingOp) : op.Rounds q z ↔ z = op.value q := by
  cases op with
  | round =>
    rw [Rounds, value]
    by_cases hpos : 0 < q
    · rw [if_pos hpos, nearest_iff_of_nonneg hpos.le]
    · have hneg : -q + 1 / 2 = -(q - 1 / 2) := by ring
      rw [if_neg hpos, ← nearest_neg, nearest_iff_of_nonneg (neg_nonneg.mpr (not_lt.mp hpos)), hneg, Int.floor_neg, neg_inj]
  | _ => rfl

theorem inBand_iff : InBand z ↔ (-2 ^ 59 ≤ z ∧ z < -2 ^ 57) ∨ 2 ^ 57 ≤ z ∧ z < 2 ^ 59 := by
  simp only [InBand, Tags.InField]
  omega

theorem inBand_floor : InBand ⌊q⌋ ↔ -2 ^ 59 ≤ q ∧ q < -2 ^ 57 ∨ 2 ^ 57 ≤ q ∧ q < 2 ^ 59 := by
  rw [inBand_iff, Int.le_floor, Int.le_floor, Int.floor_lt, Int.floor_lt]
  push_cast
  rfl

theorem inBand_ceil : InBand ⌈q⌉ ↔ -2 ^ 59 - 1 < q ∧ q ≤ -2 ^ 57 - 1 ∨ 2 ^ 57 - 1 < q ∧ q ≤ 2 ^ 59 - 1 := by
  have hle : ∀ k : ℤ, k ≤ ⌈q⌉ ↔ (k : ℚ) - 1 < q := fun k => by
    rw [← Int.sub_one_lt_iff, Int.lt_ceil]
    push_cast
    rfl
  have hlt : ∀ k : ℤ, ⌈q⌉ < k ↔ q ≤ (k : ℚ) - 1 := fun k => by
    rw [← Int.le_sub_one_iff, Int.ceil_le]
    push_cast
    rfl
  rw [inBand_iff, hle, hle, hlt, hlt]
  push_cast
  rfl

theorem inBand_value (op : RoundingOp) (q : ℚ) : InBand (op.value q) ↔ op.Strays q := by
  have htrunc : InBand (if 0 ≤ q then ⌊q⌋ else ⌈q⌉) ↔
      -2 ^ 59 - 1 < q ∧ q ≤ -2 ^ 57 - 1 ∨ 2 ^ 57 ≤ q ∧ q < 2 ^ 59 := by
    by_cases hq : 0 ≤ q
    · rw [if_pos hq, inBand_floor]
      refine or_congr (iff_of_false ?_ ?_) Iff.rfl
      · rintro ⟨-, hlt⟩
        linarith
      · rintro ⟨-, hle⟩
        linarith
    · rw [if_neg hq, inBand_ceil]
      refine or_congr Iff.rfl (iff_of_false ?_ ?_)
      · rintro ⟨hlt, -⟩
        linarith
      · rintro ⟨hle, -⟩
        linarith
  cases op with
  | floor => exact inBand_floor
  | ceiling => exact inBand_ceil
  | truncate => exact htrunc
  | integer => exact htrunc
  | round =>
    rw [value, Strays]
    by_cases hpos : 0 < q
    · rw [if_pos hpos, inBand_floor]
      constructor
      · rintro (⟨-, hlt⟩ | ⟨hlo, hhi⟩)
        · linarith
        · exact .inr ⟨by linarith, by linarith⟩
      · rintro (⟨-, hle⟩ | ⟨hlo, hhi⟩)
        · linarith
        · exact .inr ⟨by linarith, by linarith⟩
    · rw [if_neg hpos, inBand_ceil]
      constructor
      · rintro (⟨hlo, hhi⟩ | ⟨hlo, -⟩)
        · exact .inl ⟨by linarith, by linarith⟩
        · linarith
      · rintro (⟨hlo, hhi⟩ | ⟨hlo, -⟩)
        · exact .inl ⟨by linarith, by linarith⟩
        · linarith

end RoundingOp

-- ---------------------------------------------------------------------------
-- Results
-- ---------------------------------------------------------------------------

variable {t : Term}

/-- The kind of a number does not depend on its place. -/
theorem kind_erase (t : Term) : t.isIntTerm = t.erase.isIntTerm ∧ t.isBignum = t.erase.isBignum ∧
    t.isBigRat = t.erase.isBigRat := by
  cases t with
  | blob p b =>
    cases b with
    | bigInt b => cases b <;> exact ⟨rfl, rfl, rfl⟩
    | _ => exact ⟨rfl, rfl, rfl⟩
  | _ => exact ⟨rfl, rfl, rfl⟩

/-- A number that is read from a term is in normal form there unless it is in the band. -/
theorem isNormalForm_iff_of_value? {v : ℚ} (ht : t.value? = some v) : IsNormalForm v t ↔ Boxable v := by
  constructor
  · intro h hden hband
    have hfits : Word.Fits v.num := by
      simp only [InBand, Word.Fits] at hband ⊢
      omega
    have htoInt := Word.toInt_ofInt hfits
    have hbound : Tags.intInBnd (BitVec.ofInt 64 v.num) = true := by
      rw [Tags.intInBnd_iff, htoInt]
      exact hband.1
    have htagged : t.isIntTerm = true :=
      h.tagged.mpr ⟨_, by rw [htoInt, Rat.coe_int_num_of_den_eq_one hden], hbound⟩
    cases t with
    | int n =>
      obtain rfl : ((intOfTerm n).toInt : ℚ) = v := Option.some.inj ht
      exact hband.2 (inField_intOfTerm n)
    | _ => cases htagged
  · intro hv
    have h := (isNormalForm_mkBigRatTerm_iff 0 v).mpr hv
    have hidentical : t.erase = (mkBigRatTerm 0 v).erase := h.unique t ht
    obtain ⟨hint, hbig, hrat⟩ := kind_erase t
    obtain ⟨hint', hbig', hrat'⟩ := kind_erase (mkBigRatTerm 0 v)
    refine ⟨ht, ?_, ?_, ?_, fun u hu => identical_of_value?_eq hu ht⟩
    · rw [hbig, hidentical, ← hbig', h.bignum]
    · rw [hint, hidentical, ← hint', h.tagged]
    · rw [hrat, hidentical, ← hrat', h.rational]

/-- A rational that is no integer is rounded to an integer that is boxed. -/
theorem rounding_rat_run (onDouble : RoundingOp → Binary64 → Calc Term) (hr : Addr) (op : RoundingOp) {b : BigRat}
    (he : eTypeOfTerm t = .bigInt (.rat b)) :
    (op.run onDouble hr t).run false = .ok (mkBigIntTerm hr (op.value b.1), false) := by
  have hne : b.1 ≠ 0 := fun h => b.2 (by rw [h]; rfl)
  have hboxes : ∀ {onDouble onBig z}, onBig t (.rat b) = pure (mkBigIntTerm hr z) → z = op.value b.1 →
      (evalRounding onDouble onBig t).run false = .ok (mkBigIntTerm hr (op.value b.1), false) := by
    intro onDouble onBig z hbig hz
    rw [evalRounding, he]
    simp only [hbig, hz]
    rfl
  have htrunc : (if b.1 ≠ 0 then -mpzSetQ (-b.1) else mpzSetQ b.1) = if 0 ≤ b.1 then ⌊b.1⌋ else ⌈b.1⌉ := by
    rw [if_pos hne, mpzSetQ_neg, neg_neg]
    by_cases hnonneg : 0 ≤ b.1
    · rw [if_pos hnonneg, mpzSetQ_of_nonneg hnonneg]
    · rw [if_neg hnonneg, mpzSetQ_of_nonpos (not_le.mp hnonneg).le]
  cases op with
  | floor =>
    refine hboxes rfl ?_
    by_cases hneg : b.1 < 0
    · rw [if_pos ⟨hneg, b.2⟩, mpzSetQ_of_nonpos hneg.le, ceil_eq_floor_add_one b.2, add_sub_cancel_right]
      rfl
    · rw [if_neg fun h => hneg h.1, mpzSetQ_of_nonneg (not_lt.mp hneg)]
      rfl
  | ceiling =>
    refine hboxes rfl ?_
    by_cases hpos : 0 < b.1
    · rw [if_pos ⟨hpos, b.2⟩, mpzSetQ_of_nonneg hpos.le, ← ceil_eq_floor_add_one b.2]
      rfl
    · rw [if_neg fun h => hpos h.1, mpzSetQ_of_nonpos (not_lt.mp hpos)]
      rfl
  | round =>
    refine hboxes rfl ?_
    rw [RoundingOp.value]
    by_cases hpos : 0 < b.1
    · have hnonneg : 0 ≤ b.1 + 1 / 2 := by linarith
      rw [if_pos hpos, if_pos hpos, mpzSetQ_of_nonneg hnonneg]
    · have hnonpos : b.1 - 1 / 2 ≤ 0 := by linarith
      rw [if_neg hpos, if_neg hpos, mpzSetQ_of_nonpos hnonpos]
  | truncate => exact hboxes rfl htrunc
  | integer => exact hboxes rfl htrunc

/-- An integer is not rounded. -/
theorem value_intCast (op : RoundingOp) (x : ℤ) : op.value x = x := by
  refine ((op.rounds_iff).mp ?_).symm
  cases op with
  | round =>
    rw [RoundingOp.Rounds, sub_self, abs_zero]
    norm_num
  | floor => exact (Int.floor_intCast x).symm
  | ceiling => exact (Int.ceil_intCast x).symm
  | truncate | integer => rw [RoundingOp.Rounds, Int.floor_intCast, Int.ceil_intCast, ite_self]

theorem rounding_int_run (onDouble : RoundingOp → Binary64 → Calc Term) (hr : Addr) (op : RoundingOp) {x : ℤ}
    (ht : t.intValue? = some x) : (op.run onDouble hr t).run false = .ok (t, false) := by
  have hreturns : ∀ {onDouble onBig}, (∀ b : BigInt, onBig t (.int b) = pure t) →
      (evalRounding onDouble onBig t).run false = .ok (t, false) := by
    intro onDouble onBig hbig
    rcases Term.intValue?_cases ht with ⟨i, he, -⟩ | ⟨b, he, -⟩
    · rw [evalRounding, he]
      rfl
    · rw [evalRounding, he]
      simp only [hbig]
      rfl
  cases op with
  | _ => exact hreturns fun _ => rfl

theorem exists_rounds_iff {op : RoundingOp} {q : ℚ} {c : Calc Term} :
    (∃ z : ℤ, op.Rounds q z ∧ YieldsNormal c z) ↔ YieldsNormal c (op.value q) := by
  simp only [RoundingOp.rounds_iff, exists_eq_left]

/-- The functions round every rational, to an integer in normal form if it is not in the band. -/
theorem rounding_yieldsNormal_iff (onDouble : RoundingOp → Binary64 → Calc Term) (hr : Addr) (op : RoundingOp) {q : ℚ}
    (ht : t.value? = some q) : (∃ z : ℤ, op.Rounds q z ∧ YieldsNormal (op.run onDouble hr t) z) ↔ ¬ op.Strays q := by
  rw [exists_rounds_iff, ← RoundingOp.inBand_value]
  by_cases hint : ∃ x : ℤ, q = x
  · obtain ⟨x, rfl⟩ := hint
    have hrun := rounding_int_run onDouble hr op ((EType.value?_intCast _ x).mp ht)
    rw [value_intCast, ← boxable_intCast, ← isNormalForm_iff_of_value? ht]
    constructor
    · rintro ⟨u, hu, hnormal⟩
      obtain ⟨rfl, -⟩ := Prod.mk.inj (Except.ok.inj (hrun.symm.trans hu))
      exact hnormal
    · exact fun hnormal => ⟨t, hrun, hnormal⟩
  · obtain ⟨i, -, hq⟩ | ⟨b, he, hq⟩ := EType.value?_cases ht
    · exact absurd ⟨_, hq⟩ hint
    · cases b with
      | int z => exact absurd ⟨_, hq⟩ hint
      | rat b =>
        obtain rfl : q = b.1 := hq
        exact yieldsNormal_iff (rounding_rat_run onDouble hr op he)

/-- `-5/2` is rounded to an integer in normal form. -/
theorem rounding_round_neg_five_halves :
    ∃ z : ℤ, RoundingOp.round.Rounds (-5 / 2) z ∧
      YieldsNormal (RoundingOp.round.run (fun _ _ => rerror) 0 (.blob 0 (.bigInt (.rat ⟨-5 / 2, by norm_num⟩)))) z :=
  (rounding_yieldsNormal_iff (fun _ _ => rerror) 0 .round rfl).mpr (by norm_num [RoundingOp.Strays])

/-- The floor of `2^57 + 1/2` is tagged though the field does not hold it. -/
theorem not_rounding_floor_two_pow_57 : ¬ ∃ z : ℤ, RoundingOp.floor.Rounds (2 ^ 57 + 1 / 2) z ∧
    YieldsNormal (RoundingOp.floor.run (fun _ _ => rerror) 0
      (.blob 0 (.bigInt (.rat ⟨2 ^ 57 + 1 / 2, by norm_num⟩)))) z := by
  rw [exists_rounds_iff]
  intro h
  have hrun := rounding_rat_run (t := .blob 0 (.bigInt (.rat ⟨2 ^ 57 + 1 / 2, by norm_num⟩)))
    (b := ⟨2 ^ 57 + 1 / 2, by norm_num⟩) (fun _ _ => rerror) 0 .floor rfl
  refine (yieldsNormal_iff hrun).mp h ((RoundingOp.inBand_value .floor _).mpr ?_)
  norm_num [RoundingOp.Strays]

end Yap
