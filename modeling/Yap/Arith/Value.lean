-- SUMMARY: The rational number a number term stands for, the normal form of a result, and which results keep their value when they are tagged.
import Yap.Arith.Binary

/-!
# Values and normal forms

Every integer or rational result is built by one of `mkIntegerTerm`,
`mkBigIntTerm` and `mkBigRatTerm`. On the values they share the three build the
same term, so the last one stands for all results.
-/

namespace Yap

-- ---------------------------------------------------------------------------
-- Values
-- ---------------------------------------------------------------------------

/-- The number that the code reads from a term, an integer or a rational. -/
def EType.value? : EType → Option ℚ
  | .longInt i => some i.toInt
  | .bigInt b => some b.val
  | _ => none

def Term.value? (t : Term) : Option ℚ := (eTypeOfTerm t).value?

/-- The integer that the code reads from a term. -/
def EType.intValue? : EType → Option ℤ
  | .longInt i => some i.toInt
  | .bigInt (.int z) => some z.1
  | _ => none

def Term.intValue? (t : Term) : Option ℤ := (eTypeOfTerm t).intValue?

@[simp] theorem intOfTerm_toInt (n : BitVec 58) : (intOfTerm n).toInt = n.toInt :=
  Tags.toInt_signExtend n

theorem inField_toInt (n : BitVec 58) : Tags.InField n.toInt :=
  ⟨BitVec.le_toInt n, BitVec.toInt_lt⟩

theorem inField_intOfTerm (n : BitVec 58) : Tags.InField (intOfTerm n).toInt := by
  rw [intOfTerm_toInt]
  exact inField_toInt n

theorem intOfTerm_inj {m n : BitVec 58} : intOfTerm m = intOfTerm n ↔ m = n := by
  rw [← Word.toInt_inj, intOfTerm_toInt, intOfTerm_toInt, BitVec.toInt_inj]

/-- Cutting a word to the field changes its value by a multiple of the field's size. -/
theorem toInt_sub_setWidth_dvd (n : Word) : (2 ^ 58 : ℤ) ∣ n.toInt - (n.setWidth 58).toInt := by
  have hfield := Int.dvd_self_sub_bmod (x := n.toNat) (m := 2 ^ 58)
  have hword := Int.dvd_self_sub_bmod (x := n.toNat) (m := 2 ^ 64)
  rw [BitVec.toInt_setWidth, BitVec.toInt_eq_toNat_bmod]
  norm_num at hfield hword ⊢
  omega

theorem fits_of_inField {z : ℤ} (h : Tags.InField z) : Word.Fits z := by
  simp only [Tags.InField, Word.Fits] at h ⊢
  omega

/-- Only machine integers and the contents of a big box have values. -/
theorem EType.value?_cases {e : EType} {v : ℚ} (h : e.value? = some v) :
    (∃ i, e = .longInt i ∧ v = i.toInt) ∨ (∃ b, e = .bigInt b ∧ v = b.val) := by
  cases e with
  | longInt i => exact .inl ⟨i, rfl, (Option.some.inj h).symm⟩
  | bigInt b => exact .inr ⟨b, rfl, (Option.some.inj h).symm⟩
  | double d => exact absurd h (by simp [EType.value?])
  | dbRef => exact absurd h (by simp [EType.value?])

/-- An integer value comes from a machine integer or from a big integer. -/
theorem Term.intValue?_cases {t : Term} {z : ℤ} (h : t.intValue? = some z) :
    (∃ i, eTypeOfTerm t = .longInt i ∧ z = i.toInt ∧ t.isBignum = false) ∨
      (∃ b, eTypeOfTerm t = .bigInt (.int b) ∧ z = b.1 ∧ t.isBignum = true) := by
  cases t with
  | int n => exact .inl ⟨_, rfl, (Option.some.inj h).symm, rfl⟩
  | blob p b =>
      cases b with
      | longInt n => exact .inl ⟨_, rfl, (Option.some.inj h).symm, rfl⟩
      | bigInt b =>
          cases b with
          | int z => exact .inr ⟨_, rfl, (Option.some.inj h).symm, rfl⟩
          | rat q => exact absurd h (by simp [Term.intValue?, eTypeOfTerm, EType.intValue?])
      | _ => exact absurd h (by simp [Term.intValue?, eTypeOfTerm, EType.intValue?])
  | _ => exact absurd h (by simp [Term.intValue?, eTypeOfTerm, EType.intValue?])

theorem EType.value?_intCast (e : EType) (z : ℤ) :
    e.value? = some (z : ℚ) ↔ e.intValue? = some z := by
  cases e with
  | longInt i => simp [EType.intValue?, EType.value?]
  | bigInt b =>
      cases b with
      | int b => simp [EType.intValue?, EType.value?, BigNum.val]
      | rat q =>
          simp only [EType.intValue?, EType.value?, BigNum.val, Option.some.injEq, reduceCtorEq,
            iff_false]
          intro hq
          exact q.2 (by rw [hq, Rat.den_intCast])
  | _ => simp [EType.intValue?, EType.value?]

/-- The representation of a value in normal form, up to its place. -/
def Term.ofValue (v : ℚ) : Term :=
  if hden : v.den = 1 then
    if hfits : Word.Fits v.num then
      if hfield : Tags.InField v.num then .int (BitVec.ofInt 58 v.num)
      else .blob 0 (.longInt ⟨BitVec.ofInt 64 v.num, by rwa [Word.toInt_ofInt hfits]⟩)
    else .blob 0 (.bigInt (.int ⟨v.num, hfits⟩))
  else .blob 0 (.bigInt (.rat ⟨v, hden⟩))

/-- The value determines the representation: a tagged integer is in the field, a
    long integer is a word out of the field, a big integer is not a word, and a
    rational is not an integer. -/
theorem erase_eq_ofValue {t : Term} {v : ℚ} (h : t.value? = some v) : t.erase = Term.ofValue v := by
  cases t with
  | int n =>
      obtain rfl : ((intOfTerm n).toInt : ℚ) = v := Option.some.inj h
      have hfield := inField_toInt n
      simp [Term.ofValue, Term.erase, fits_of_inField hfield, hfield]
  | blob p b =>
      cases b with
      | longInt n =>
          obtain rfl : (n.1.toInt : ℚ) = v := Option.some.inj h
          simp [Term.ofValue, Term.erase, Word.fits_toInt, n.2]
      | bigInt b =>
          cases b with
          | int z =>
              obtain rfl : (z.1 : ℚ) = v := Option.some.inj h
              simp [Term.ofValue, Term.erase, z.2]
          | rat q =>
              obtain rfl : q.1 = v := Option.some.inj h
              simp [Term.ofValue, Term.erase, q.2]
      | _ => exact absurd h (by simp [Term.value?, eTypeOfTerm, EType.value?])
  | _ => exact absurd h (by simp [Term.value?, eTypeOfTerm, EType.value?])

theorem identical_of_value?_eq {t u : Term} {v : ℚ} (ht : t.value? = some v)
    (hu : u.value? = some v) : t.Identical u := by
  rw [Term.Identical, erase_eq_ofValue ht, erase_eq_ofValue hu]

-- ---------------------------------------------------------------------------
-- Normal forms
-- ---------------------------------------------------------------------------

/-- The term represents `v` in normal form: it is a big integer exactly when `v`
    is an integer that is not a word, tagged exactly when `v` is within the bound
    of tagged integers, and a rational exactly when `v` is not an integer. -/
structure IsNormalForm (v : ℚ) (t : Term) : Prop where
  value : t.value? = some v
  bignum : t.isBignum = true ↔ v.den = 1 ∧ ¬ Word.Fits v.num
  tagged : t.isIntTerm = true ↔ ∃ n : Word, v = n.toInt ∧ Tags.intInBnd n = true
  rational : t.isBigRat = true ↔ v.den ≠ 1
  unique : ∀ u : Term, u.value? = some v → u.Identical t

/-- The integers that the bound admits as tagged integers but the field does not
    hold. -/
def InBand (z : ℤ) : Prop := (-2 ^ 59 ≤ z ∧ z < 2 ^ 59) ∧ ¬ Tags.InField z

instance (z : ℤ) : Decidable (InBand z) := inferInstanceAs (Decidable (_ ∧ _))

/-- The value keeps its representation when it is boxed. -/
def Boxable (v : ℚ) : Prop := v.den = 1 → ¬ InBand v.num

instance (v : ℚ) : Decidable (Boxable v) := inferInstanceAs (Decidable (_ → _))

theorem boxable_intCast {z : ℤ} : Boxable z ↔ ¬ InBand z := by
  simp [Boxable]

theorem fieldHolds_iff (n : Word) : Tags.FieldHolds n ↔ ¬ InBand n.toInt := by
  simp only [Tags.FieldHolds, Tags.intInBnd_iff, InBand, not_and, not_not]

/-- A tagged integer cut to its field has its own value only if the field holds it. -/
theorem mkIntegerTerm_value? (hr : Addr) (n : Word) :
    (mkIntegerTerm hr n).value? = some (n.toInt : ℚ) ↔ ¬ InBand n.toInt := by
  rw [← fieldHolds_iff, Tags.FieldHolds]
  unfold mkIntegerTerm
  split
  case isTrue h =>
    rw [← Tags.signExtend_setWidth_eq_iff]
    simp [Term.value?, mkIntTerm, eTypeOfTerm, EType.value?, h, intOfTerm, Word.toInt_inj]
  case isFalse h =>
    simp [Term.value?, mkLongIntTerm, eTypeOfTerm, EType.value?, h]

theorem mkIntegerTerm_isIntTerm (hr : Addr) (n : Word) :
    (mkIntegerTerm hr n).isIntTerm = Tags.intInBnd n := by
  unfold mkIntegerTerm
  split
  case isTrue h => rw [h]; rfl
  case isFalse h => rw [Bool.not_eq_true] at h; rw [h]; rfl

/-- A word boxed as an integer is neither a big integer nor a rational. -/
theorem mkIntegerTerm_kind (hr : Addr) (n : Word) :
    (mkIntegerTerm hr n).isBignum = false ∧ (mkIntegerTerm hr n).isBigRat = false := by
  unfold mkIntegerTerm
  split <;> exact ⟨rfl, rfl⟩

theorem mkBigRatTerm_intCast (hr : Addr) (z : ℤ) : mkBigRatTerm hr z = mkBigIntTerm hr z := by
  simp [mkBigRatTerm]

theorem mkBigRatTerm_toInt (hr : Addr) (n : Word) :
    mkBigRatTerm hr (n.toInt : ℚ) = mkIntegerTerm hr n := by
  rw [mkBigRatTerm_intCast, mkBigIntTerm, dif_pos (Word.fits_toInt n), BitVec.ofInt_toInt]

/-- A result is a machine integer, a big integer or a rational. -/
theorem mkBigRatTerm_cases (hr : Addr) (v : ℚ) :
    (∃ n : Word, v = n.toInt ∧ mkBigRatTerm hr v = mkIntegerTerm hr n) ∨
      (∃ z : BigInt, v = z.1 ∧ mkBigRatTerm hr v = .blob hr (.bigInt (.int z))) ∨
      (∃ q : BigRat, v = q.1 ∧ mkBigRatTerm hr v = .blob hr (.bigInt (.rat q))) := by
  by_cases hden : v.den = 1
  · obtain ⟨z, rfl⟩ : ∃ z : ℤ, v = z := ⟨v.num, (Rat.coe_int_num_of_den_eq_one hden).symm⟩
    by_cases hfits : Word.Fits z
    · have hz := Word.toInt_ofInt hfits
      refine .inl ⟨BitVec.ofInt 64 z, by rw [hz], ?_⟩
      rw [← mkBigRatTerm_toInt, hz]
    · refine .inr (.inl ⟨⟨z, hfits⟩, rfl, ?_⟩)
      rw [mkBigRatTerm_intCast, mkBigIntTerm, dif_neg hfits]
  · exact .inr (.inr ⟨⟨v, hden⟩, rfl, by rw [mkBigRatTerm, dif_neg hden]⟩)

/-- A result is read back with its value exactly when it can be boxed. -/
theorem mkBigRatTerm_value? (hr : Addr) (v : ℚ) :
    (mkBigRatTerm hr v).value? = some v ↔ Boxable v := by
  rcases mkBigRatTerm_cases hr v with ⟨n, rfl, h⟩ | ⟨z, rfl, h⟩ | ⟨q, rfl, h⟩
  · rw [h, mkIntegerTerm_value?, boxable_intCast]
  · -- a number that is not a word is far above the bound
    have hband : ¬ InBand z.1 := fun hb => z.2 (by simp only [InBand, Word.Fits] at hb ⊢; omega)
    rw [h, boxable_intCast]
    exact iff_of_true rfl hband
  · rw [h]
    exact iff_of_true rfl fun hden => absurd hden q.2

/-- An integer result is read back as itself exactly when it is not in the band. -/
theorem mkBigIntTerm_intValue? (hr : Addr) (z : ℤ) :
    (mkBigIntTerm hr z).intValue? = some z ↔ ¬ InBand z := by
  rw [Term.intValue?, ← EType.value?_intCast, ← mkBigRatTerm_intCast, ← boxable_intCast]
  exact mkBigRatTerm_value? hr z

/-- Boxing changes a value only by multiples of the size of the field. -/
theorem mkBigIntTerm_intValue?_dvd {hr : Addr} {z r : ℤ}
    (h : (mkBigIntTerm hr z).intValue? = some r) : (2 ^ 58 : ℤ) ∣ z - r := by
  by_cases hband : InBand z
  · have hfits : Word.Fits z := by simp only [InBand, Word.Fits] at hband ⊢; omega
    have hbnd : Tags.intInBnd (BitVec.ofInt 64 z) = true := by
      rw [Tags.intInBnd_iff, Word.toInt_ofInt hfits]
      exact hband.1
    rw [mkBigIntTerm, dif_pos hfits, mkIntegerTerm, dif_pos hbnd] at h
    obtain rfl : (intOfTerm ((BitVec.ofInt 64 z).setWidth 58)).toInt = r := Option.some.inj h
    have hcut := toInt_sub_setWidth_dvd (BitVec.ofInt 64 z)
    rwa [Word.toInt_ofInt hfits, ← intOfTerm_toInt] at hcut
  · rw [(mkBigIntTerm_intValue? hr z).mpr hband] at h
    simp [Option.some.inj h]

theorem mkBigRatTerm_bignum (hr : Addr) (v : ℚ) :
    (mkBigRatTerm hr v).isBignum = true ↔ v.den = 1 ∧ ¬ Word.Fits v.num := by
  rcases mkBigRatTerm_cases hr v with ⟨n, rfl, h⟩ | ⟨z, rfl, h⟩ | ⟨q, rfl, h⟩
  · simp [h, (mkIntegerTerm_kind hr n).1, Word.fits_toInt]
  · simp [h, Term.isBignum, z.2]
  · simp [h, Term.isBignum, q.2]

theorem mkBigRatTerm_rational (hr : Addr) (v : ℚ) :
    (mkBigRatTerm hr v).isBigRat = true ↔ v.den ≠ 1 := by
  rcases mkBigRatTerm_cases hr v with ⟨n, rfl, h⟩ | ⟨z, rfl, h⟩ | ⟨q, rfl, h⟩
  · simp [h, (mkIntegerTerm_kind hr n).2]
  · simp [h, Term.isBigRat]
  · simp [h, Term.isBigRat, q.2]

theorem mkBigRatTerm_tagged (hr : Addr) (v : ℚ) :
    (mkBigRatTerm hr v).isIntTerm = true ↔ ∃ n : Word, v = n.toInt ∧ Tags.intInBnd n = true := by
  rcases mkBigRatTerm_cases hr v with ⟨n, rfl, h⟩ | ⟨z, rfl, h⟩ | ⟨q, rfl, h⟩
  · rw [h, mkIntegerTerm_isIntTerm]
    constructor
    · intro hn
      exact ⟨n, rfl, hn⟩
    · rintro ⟨m, hnm, hm⟩
      rwa [Word.toInt_inj.mp (Int.cast_injective hnm)]
  · rw [h]
    refine iff_of_false (by simp [Term.isIntTerm]) ?_
    rintro ⟨n, hzn, -⟩
    exact z.2 (Int.cast_injective hzn ▸ Word.fits_toInt n)
  · rw [h]
    refine iff_of_false (by simp [Term.isIntTerm]) ?_
    rintro ⟨n, hqn, -⟩
    exact q.2 (by rw [hqn, Rat.den_intCast])

/-- A result is in normal form exactly when boxing keeps its value. -/
theorem isNormalForm_mkBigRatTerm_iff (hr : Addr) (v : ℚ) :
    IsNormalForm v (mkBigRatTerm hr v) ↔ Boxable v := by
  rw [← mkBigRatTerm_value? hr v]
  constructor
  · intro h
    exact h.value
  · intro h
    exact ⟨h, mkBigRatTerm_bignum hr v, mkBigRatTerm_tagged hr v, mkBigRatTerm_rational hr v,
      fun u hu => identical_of_value?_eq hu h⟩

end Yap
