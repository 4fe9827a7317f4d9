-- SUMMARY: The 64-bit tag scheme: words of terms, boxing and unboxing of machine integers on the global stack, and when boxing loses no bits.
import Yap.Base.Word

/-!
# The 64-bit tag scheme

A term is a word. Three bits at each end are its tag, and the bits between hold
a small integer, an atom or an address. Integers that the bound `intInBnd`
rejects are boxed on the global stack.

The constants and functions follow `Tags_64bits.h`, `YapTags.h` and `TermExt.h`.
-/

namespace Yap.Tags

-- ---------------------------------------------------------------------------
-- Constants
-- ---------------------------------------------------------------------------

def shiftHighTag : ℕ := 61

def mkTag (hi lo : Word) : Word := (hi <<< shiftHighTag) ||| lo

def tagBits : Word := mkTag 7 7
def lowTagBits : Word := mkTag 0 7
def maskPrim : Word := (((1 : Word) <<< (shiftHighTag - 3)) - 1) <<< 3
def numberTag : Word := mkTag 1 1
def applBits : Word := 4
def maxAbsInt : Word := ((1 : Word) <<< (62 - (3 + 3))) <<< 3

/-- `long_int_e`, the functor cell of a boxed machine integer. -/
def functorLongInt : Word := 4 * 8

/-- `string_e + sizeof(Functor *)`, the cell that closes a box. -/
def endSpecials : Word := 6 * 8 + 8

-- ---------------------------------------------------------------------------
-- Tagged integers
-- ---------------------------------------------------------------------------

def nonTagPart (x : Word) : Word := x &&& maskPrim

def tagged (tag v : Word) : Word := tag ||| nonTagPart (v <<< 3)

def chkTag (t tag : Word) : Bool := t &&& tagBits == tag

def mkIntTerm (n : Word) : Word := tagged numberTag n

def isIntTerm (t : Word) : Bool := chkTag t numberTag

def intOfTerm (t : Word) : Word := (t <<< 3).sshiftRight 6

/-- `IntInBnd`: the comparisons are signed. -/
def intInBnd (n : Word) : Bool := n.slt maxAbsInt && (-maxAbsInt - 1).slt n

-- ---------------------------------------------------------------------------
-- Boxed integers
-- ---------------------------------------------------------------------------

/-- The memory and the top `HR` of the global stack. Addresses are multiples of
    the cell size. -/
structure Global where
  cell : Word → Word
  hr : Word
  aligned : hr.toNat % 8 = 0

def absAppl (p : Word) : Word := p + applBits

def repAppl (t : Word) : Word := t - applBits

def isApplTerm (t : Word) : Bool := t &&& 4 != 0

def Global.store (g : Global) (p w : Word) : Global :=
  { g with cell := Function.update g.cell p w }

/-- `HR += 3`. -/
def Global.advance (g : Global) : Global where
  cell := g.cell
  hr := g.hr + 24
  aligned := by have := g.aligned; rw [BitVec.toNat_add]; simp; omega

def mkLongIntTerm (g : Global) (i : Word) : Word × Global :=
  (absAppl g.hr,
    (((g.store g.hr functorLongInt).store (g.hr + 8) i).store (g.hr + 16) endSpecials).advance)

def functorOfTerm (g : Global) (t : Word) : Word := g.cell (repAppl t)

def isLongIntTerm (g : Global) (t : Word) : Bool :=
  isApplTerm t && functorOfTerm g t == functorLongInt

def longIntOfTerm (g : Global) (t : Word) : Word := g.cell (repAppl t + 8)

def mkIntegerTerm (g : Global) (n : Word) : Word × Global :=
  if intInBnd n then (mkIntTerm n, g) else mkLongIntTerm g n

def isIntegerTerm (g : Global) (t : Word) : Bool := isIntTerm t || isLongIntTerm g t

def integerOfTerm (g : Global) (t : Word) : Word :=
  if isIntTerm t then intOfTerm t else longIntOfTerm g t

-- ---------------------------------------------------------------------------
-- The value field
-- ---------------------------------------------------------------------------

/-- The value fits the field of 58 bits that `maskPrim` keeps. -/
def InField (z : ℤ) : Prop := -2 ^ 57 ≤ z ∧ z < 2 ^ 57

instance (z : ℤ) : Decidable (InField z) := inferInstanceAs (Decidable (_ ∧ _))

/-- The word of the tagged integer with value field `f`. -/
def taggedWord (f : BitVec 58) : Word := numberTag ||| (f.setWidth 64 <<< 3)

private theorem getLsbD_maskPrim (j : ℕ) :
    maskPrim.getLsbD j = (decide (3 ≤ j) && decide (j < 61)) := by
  by_cases h : j < 64
  · revert j; decide
  · rw [BitVec.getLsbD_of_ge _ _ (by omega)]; simp; omega

private theorem getLsbD_numberTag (j : ℕ) :
    numberTag.getLsbD j = (decide (j = 0) || decide (j = 61)) := by
  by_cases h : j < 64
  · revert j; decide
  · rw [BitVec.getLsbD_of_ge _ _ (by omega)]; simp; omega

private theorem getLsbD_tagBits (j : ℕ) :
    tagBits.getLsbD j = (decide (j < 3) || decide (61 ≤ j) && decide (j < 64)) := by
  by_cases h : j < 64
  · revert j; decide
  · rw [BitVec.getLsbD_of_ge _ _ (by omega)]; simp; omega

/-- `mkIntTerm` keeps the low 58 bits of its argument. -/
theorem mkIntTerm_eq (n : Word) : mkIntTerm n = taggedWord (n.setWidth 58) := by
  apply BitVec.eq_of_getLsbD_eq
  intro i hi
  simp only [mkIntTerm, tagged, nonTagPart, taggedWord, BitVec.getLsbD_or, BitVec.getLsbD_and,
    BitVec.getLsbD_shiftLeft, BitVec.getLsbD_setWidth, getLsbD_maskPrim, getLsbD_numberTag]
  grind

theorem isIntTerm_taggedWord (f : BitVec 58) : isIntTerm (taggedWord f) = true := by
  simp only [isIntTerm, chkTag, beq_iff_eq]
  apply BitVec.eq_of_getLsbD_eq
  intro i hi
  simp only [taggedWord, BitVec.getLsbD_or, BitVec.getLsbD_and, BitVec.getLsbD_shiftLeft,
    BitVec.getLsbD_setWidth, getLsbD_tagBits, getLsbD_numberTag]
  grind

/-- `intOfTerm` extends the sign of the value field. -/
theorem intOfTerm_taggedWord (f : BitVec 58) : intOfTerm (taggedWord f) = f.signExtend 64 := by
  apply BitVec.eq_of_getLsbD_eq
  intro i hi
  simp only [intOfTerm, taggedWord, BitVec.getLsbD_sshiftRight, BitVec.getLsbD_shiftLeft,
    BitVec.getLsbD_or, getLsbD_numberTag, BitVec.getLsbD_signExtend, BitVec.msb_eq_getLsbD_last,
    BitVec.getLsbD_setWidth]
  grind

theorem toInt_signExtend (f : BitVec 58) : (f.signExtend 64).toInt = f.toInt :=
  BitVec.toInt_signExtend_of_le (by decide)

/-- Cutting a word to the field and extending it again gives the word back
    exactly when its value fits the field. -/
theorem signExtend_setWidth_eq_iff (n : Word) :
    (n.setWidth 58).signExtend 64 = n ↔ InField n.toInt := by
  rw [← Word.toInt_inj, toInt_signExtend, BitVec.toInt_setWidth, BitVec.toInt_eq_toNat_bmod]
  have hlt := n.isLt
  simp only [InField, Int.bmod]
  norm_num
  omega

theorem intInBnd_iff (n : Word) : intInBnd n = true ↔ -2 ^ 59 ≤ n.toInt ∧ n.toInt < 2 ^ 59 := by
  have hmax : maxAbsInt.toInt = 2 ^ 59 := by decide
  have hmin : (-maxAbsInt - 1).toInt = -2 ^ 59 - 1 := by decide
  simp only [intInBnd, Bool.and_eq_true, BitVec.slt_iff_toInt_lt, hmax, hmin]
  omega

-- ---------------------------------------------------------------------------
-- Boxes
-- ---------------------------------------------------------------------------

private theorem isIntTerm_eq_false_of_even {t : Word} (h : t.toNat % 2 = 0) :
    isIntTerm t = false := by
  -- the lowest bit of `numberTag` is set
  have hbit : t.getLsbD 0 = false := by
    rw [BitVec.getLsbD, Nat.testBit_zero]; simp [h]
  by_contra hint
  have heq : t &&& tagBits = numberTag := by simpa [isIntTerm, chkTag] using hint
  have hbits := congrArg (fun w : Word => w.getLsbD 0) heq
  simp only [BitVec.getLsbD_and, hbit, getLsbD_numberTag] at hbits
  simp at hbits

theorem isIntTerm_absAppl {p : Word} (h : p.toNat % 8 = 0) : isIntTerm (absAppl p) = false := by
  apply isIntTerm_eq_false_of_even
  rw [absAppl, BitVec.toNat_add, show applBits.toNat = 4 from rfl]
  omega

@[simp] theorem repAppl_absAppl (p : Word) : repAppl (absAppl p) = p :=
  BitVec.add_sub_cancel p applBits

/-- The box of a new long integer holds the integer. -/
theorem longIntOfTerm_mkLongIntTerm (g : Global) (n : Word) :
    longIntOfTerm (mkLongIntTerm g n).2 (mkLongIntTerm g n).1 = n := by
  simp [longIntOfTerm, mkLongIntTerm, Global.store, Global.advance]

theorem isIntTerm_mkLongIntTerm (g : Global) (n : Word) :
    isIntTerm (mkLongIntTerm g n).1 = false :=
  isIntTerm_absAppl g.aligned

theorem isIntTerm_mkIntegerTerm (g : Global) (n : Word) :
    isIntTerm (mkIntegerTerm g n).1 = intInBnd n := by
  unfold mkIntegerTerm
  cases h : intInBnd n
  · exact isIntTerm_mkLongIntTerm g n
  · simp [mkIntTerm_eq, isIntTerm_taggedWord]

/-- Unboxing gives the value field of a tagged integer, extended, and the
    integer itself of a boxed one. -/
theorem integerOfTerm_mkIntegerTerm (g : Global) (n : Word) :
    integerOfTerm (mkIntegerTerm g n).2 (mkIntegerTerm g n).1 =
      if intInBnd n then (n.setWidth 58).signExtend 64 else n := by
  unfold integerOfTerm
  rw [isIntTerm_mkIntegerTerm]
  unfold mkIntegerTerm
  cases h : intInBnd n
  · simpa using longIntOfTerm_mkLongIntTerm g n
  · simp [mkIntTerm_eq, intOfTerm_taggedWord]

/-- Boxing loses no bits of an integer: what the bound admits, the field holds. -/
def FieldHolds (n : Word) : Prop := intInBnd n = true → InField n.toInt

instance (n : Word) : Decidable (FieldHolds n) := inferInstanceAs (Decidable (_ → _))

theorem integerOfTerm_mkIntegerTerm_eq_iff (g : Global) (n : Word) :
    integerOfTerm (mkIntegerTerm g n).2 (mkIntegerTerm g n).1 = n ↔ FieldHolds n := by
  rw [integerOfTerm_mkIntegerTerm, FieldHolds]
  cases intInBnd n
  · simp
  · simp [signExtend_setWidth_eq_iff]

/-- Building another integer leaves the integers built before unchanged. -/
theorem integerOfTerm_frame (g : Global) (n m : Word) :
    integerOfTerm (mkIntegerTerm (mkIntegerTerm g n).2 m).2 (mkIntegerTerm g n).1 =
      integerOfTerm (mkIntegerTerm g n).2 (mkIntegerTerm g n).1 := by
  unfold integerOfTerm
  rw [isIntTerm_mkIntegerTerm]
  cases hn : intInBnd n
  case true => simp only [if_true]
  case false =>
    simp only [Bool.false_eq_true, if_false, mkIntegerTerm, hn, longIntOfTerm,
      show repAppl (mkLongIntTerm g n).1 = g.hr from repAppl_absAppl g.hr]
    cases intInBnd m
    case true => simp only [if_true]
    case false =>
      -- the box of `m` starts above the box of `n`
      have h0 : g.hr + 8 ≠ g.hr + 24 := by bv_omega
      have h8 : g.hr + 8 ≠ g.hr + 24 + 8 := by bv_omega
      have h16 : g.hr + 8 ≠ g.hr + 24 + 16 := by bv_omega
      simp only [Bool.false_eq_true, if_false, mkLongIntTerm, Global.store, Global.advance,
        Function.update_of_ne h0, Function.update_of_ne h8, Function.update_of_ne h16]

/-- Two integers built one after the other have different words unless both are
    tagged with the same value field. -/
theorem mkIntegerTerm_word_ne (g : Global) (n m : Word)
    (h : intInBnd n = true → intInBnd m = true → n.setWidth 58 ≠ m.setWidth 58) :
    (mkIntegerTerm g n).1 ≠ (mkIntegerTerm (mkIntegerTerm g n).2 m).1 := by
  intro hword
  have hkind := congrArg isIntTerm hword
  rw [isIntTerm_mkIntegerTerm, isIntTerm_mkIntegerTerm] at hkind
  cases hn : intInBnd n
  case true =>
    have hm : intInBnd m = true := by rw [← hkind, hn]
    simp only [mkIntegerTerm, hn, hm, if_true] at hword
    have hfield := congrArg (fun t => (intOfTerm t).toInt) hword
    simp only [mkIntTerm_eq, intOfTerm_taggedWord, toInt_signExtend, BitVec.toInt_inj] at hfield
    exact h hn hm hfield
  case false =>
    have hm : intInBnd m = false := by rw [← hkind, hn]
    simp [mkIntegerTerm, hn, hm, mkLongIntTerm, Global.advance, Global.store, absAppl] at hword

/-! ## Boxing and unboxing -/

/-- Boxing `n` and then `m` on the stack `g`: unboxing gives the integers back,
    a term is tagged exactly when its integer is within the bound, and different
    integers have different words. -/
structure BoxingFaithful (g : Global) (n m : Word) : Prop where
  first : integerOfTerm (mkIntegerTerm g n).2 (mkIntegerTerm g n).1 = n
  kept : integerOfTerm (mkIntegerTerm (mkIntegerTerm g n).2 m).2 (mkIntegerTerm g n).1 = n
  second : integerOfTerm (mkIntegerTerm (mkIntegerTerm g n).2 m).2
    (mkIntegerTerm (mkIntegerTerm g n).2 m).1 = m
  firstTagged : isIntTerm (mkIntegerTerm g n).1 = true ↔ intInBnd n = true
  secondTagged : isIntTerm (mkIntegerTerm (mkIntegerTerm g n).2 m).1 = true ↔ intInBnd m = true
  distinct : n ≠ m → (mkIntegerTerm g n).1 ≠ (mkIntegerTerm (mkIntegerTerm g n).2 m).1

/-- Boxing is faithful exactly on the integers whose value field holds them: the
    bound is `2 ^ 59` and the field keeps 58 bits, so the integers of magnitude
    between `2 ^ 57` and `2 ^ 59` are tagged with a wrong value. -/
theorem boxingFaithful_iff (g : Global) (n m : Word) :
    BoxingFaithful g n m ↔ FieldHolds n ∧ FieldHolds m := by
  constructor
  · intro h
    exact ⟨(integerOfTerm_mkIntegerTerm_eq_iff g n).mp h.first,
      (integerOfTerm_mkIntegerTerm_eq_iff _ m).mp h.second⟩
  · rintro ⟨hn, hm⟩
    refine ⟨(integerOfTerm_mkIntegerTerm_eq_iff g n).mpr hn, ?_,
      (integerOfTerm_mkIntegerTerm_eq_iff _ m).mpr hm,
      by rw [isIntTerm_mkIntegerTerm], by rw [isIntTerm_mkIntegerTerm], ?_⟩
    · rw [integerOfTerm_frame]
      exact (integerOfTerm_mkIntegerTerm_eq_iff g n).mpr hn
    · intro hne
      apply mkIntegerTerm_word_ne
      intro hnb hmb hfield
      -- two faithful fields that are equal come from one integer
      apply hne
      rw [← (signExtend_setWidth_eq_iff n).mpr (hn hnb), hfield,
        (signExtend_setWidth_eq_iff m).mpr (hm hmb)]

/-- The least positive integer that comes back changed. -/
theorem not_boxingFaithful_two_pow_57 :
    ¬ BoxingFaithful ⟨fun _ => 0, 0, rfl⟩ (BitVec.ofInt 64 (2 ^ 57)) 0 := by
  intro h
  have hfield := (integerOfTerm_mkIntegerTerm_eq_iff _ _).mp h.first
  exact absurd hfield (by decide)

end Yap.Tags
