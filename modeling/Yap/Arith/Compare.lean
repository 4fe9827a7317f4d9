-- SUMMARY: The arithmetic comparison of `=:=`, `=\=`, `<`, `=<`, `>` and `>=`, and when it is exact on integers and rationals.
import Yap.Arith.Value

/-!
# Arithmetic comparison

The functions follow `cmppreds.c`. The evaluator of compound expressions is a
parameter, and so is what a rational holds after it was cleared.
-/

namespace Yap

-- ---------------------------------------------------------------------------
-- The comparison
-- ---------------------------------------------------------------------------

def intCmp (dif : Word) : ℤ := dif.toInt

def fltCmp (dif : Binary64) : ℤ :=
  if dif.lt .zero then -1
  else if Binary64.zero.lt dif then 1
  else 0

/-- `mpz_cmp_d` compares with the value of the double, `mpq_get_d` converts. -/
def gmpCmpBigFloat (t : BigNum) (d : Binary64) : ℤ :=
  match t with
  | .int b =>
    if d.isInf then if d.neg then 1 else -1
    else mpqCmp b.1 d.toRat
  | .rat b =>
    let d1 := Binary64.truncRat b.1
    if d1.lt d then -1 else if d1.eq d then 0 else 1

/-- `Yap_gmp_cmp_float_big`. -/
def gmpCmpFloatBig (d : Binary64) (t : BigNum) : ℤ := -gmpCmpBigFloat t d

/-- `IsNumTerm`. -/
def Term.isNumTerm : Term → Bool
  | .int _ | .blob _ (.double _) | .blob _ (.longInt _) | .blob _ (.bigInt _) => true
  | _ => false

variable (innerEval : Term → Calc Term) (cleared : ℚ → ℚ)

/-- `Yap_Eval`: a number is its own value. -/
def yapEval (t : Term) : Calc Term := if t.isNumTerm then return t else innerEval t

/-- The answer of a computation whose result may be the null term. -/
def orNull (c : Calc Term) : Calc (Option Term) :=
  tryCatch (some <$> c) fun
    | .null => return none
    | e => throw e

def nanError {α : Type} (t : Term) : Calc α :=
  arithError .evaluationErrorUndefined t "trying to evaluate nan"

/-- The part of `a_cmp` that has evaluated its first operand to a machine integer. -/
def aCmpInt (i1 : Word) (t2 : Term) : Calc ℤ :=
  match eTypeOfTerm t2 with
  | .longInt i2 => return intCmp (i1 - i2)
  | .double f2 => if f2.isNaN then nanError t2 else return fltCmp ((floatOfWord i1).sub f2)
  | .bigInt b2 => return gmpCmpIntBig i1 b2
  | .dbRef => return 0

/-- The part of `a_cmp` that has evaluated its first operand to a double. -/
def aCmpFloat (f1 : Binary64) (t2 : Term) : Calc ℤ :=
  match eTypeOfTerm t2 with
  | .longInt i2 => return fltCmp (f1.sub (floatOfWord i2))
  | .double f2 => if f2.isNaN then nanError t2 else return fltCmp (f1.sub f2)
  | .bigInt b2 => return gmpCmpFloatBig f1 b2
  | .dbRef => return 0

/-- The part of `a_cmp` that has evaluated its first operand to a big number. -/
def aCmpBig (b1 : BigNum) (t2 : Term) : Calc ℤ :=
  match eTypeOfTerm t2 with
  | .longInt i2 => return gmpCmpBigInt b1 i2
  | .double f2 => if f2.isNaN then nanError t2 else return gmpCmpBigFloat b1 f2
  | .bigInt b2 => return gmpCmpBigBig cleared b1 b2
  | .dbRef => return 0

/-- `a_cmp` after its shortcuts: the operands are evaluated, the first one first. -/
def aCmpEval (t1 t2 : Term) : Calc ℤ := do
  match ← orNull (yapEval innerEval t1) with
  | none => return 0
  | some t1 =>
    match eTypeOfTerm t1 with
    | .longInt i1 => aCmpInt i1 (← yapEval innerEval t2)
    | .double f1 => if f1.isNaN then nanError t1 else aCmpFloat f1 (← yapEval innerEval t2)
    | .bigInt b1 => aCmpBig cleared b1 (← yapEval innerEval t2)
    | .dbRef => return 0

def aCmp (t1 t2 : Term) : Calc ℤ :=
  if t1.isVarTerm then arithError .instantiationError t1 "while doing arithmetic comparison"
  else if t2.isVarTerm then arithError .instantiationError t2 "while doing arithmetic comparison"
  else
    match eTypeOfTerm t1, eTypeOfTerm t2 with
    | .double d1, .double d2 => return fltCmp (d1.sub d2)
    | .longInt i1, .longInt i2 => return intCmp (i1 - i2)
    | _, _ => aCmpEval innerEval cleared t1 t2

-- ---------------------------------------------------------------------------
-- The predicates
-- ---------------------------------------------------------------------------

/-- `=:=`, which compares machine integers and doubles by itself. -/
def aEq (t1 t2 : Term) : Calc Bool :=
  if t1.isVarTerm then arithError .instantiationError t1 "=:=/2"
  else if t2.isVarTerm then arithError .instantiationError t2 "=:=/2"
  else
    match eTypeOfTerm t1, eTypeOfTerm t2 with
    | .double f1, .double f2 => return f1.eq f2
    | .double f1, .longInt i2 => return f1.eq (floatOfWord i2)
    | .longInt i1, .longInt i2 => return decide (i1 = i2)
    | .longInt i1, .double f2 => return f2.eq (floatOfWord i1)
    | _, _ => do
      let out ← aCmp innerEval cleared t1 t2
      return decide (out = 0)

/-- The predicates that test the result of `a_cmp`. -/
def aTest (test : ℤ → Bool) (t1 t2 : Term) : Calc Bool := do
  let out ← aCmp innerEval cleared t1 t2
  return test out

/-- `=\=`. -/
def aDif : Term → Term → Calc Bool := aTest innerEval cleared fun out => out ≠ 0

/-- `>`. -/
def aGt : Term → Term → Calc Bool := aTest innerEval cleared fun out => 0 < out

/-- `>=`. -/
def aGe : Term → Term → Calc Bool := aTest innerEval cleared fun out => 0 ≤ out

/-- `<`. -/
def aLt : Term → Term → Calc Bool := aTest innerEval cleared fun out => out < 0

/-- `=<`. -/
def aLe : Term → Term → Calc Bool := aTest innerEval cleared fun out => out ≤ 0

-- ---------------------------------------------------------------------------
-- Signs
-- ---------------------------------------------------------------------------

theorem signOf_gmpCmpBigInt (b : BigNum) (i : Word) :
    signOf (gmpCmpBigInt b i) = compare b.val (i.toInt : ℚ) := by
  cases b with
  | int b => rw [BigNum.val, compare_intCast]; exact signOf_mpzCmp _ _
  | rat b => exact signOf_mpqCmp _ _

theorem signOf_gmpCmpIntBig (i : Word) (b : BigNum) :
    signOf (gmpCmpIntBig i b) = compare (i.toInt : ℚ) b.val := by
  have hneg : gmpCmpIntBig i b = -gmpCmpBigInt b i := by cases b <;> rfl
  rw [hneg, signOf.neg, signOf_gmpCmpBigInt, ← Std.OrientedCmp.eq_swap]

/-- The contents of two boxes are of one kind. -/
def BigNum.SameKind : BigNum → BigNum → Prop
  | .int _, .int _ | .rat _, .rat _ => True
  | _, _ => False

/-- A comparison of a big integer and a rational depends on memory that was freed. -/
theorem signOf_gmpCmpBigBig_iff (b c : BigNum) :
    (∀ cleared, signOf (gmpCmpBigBig cleared b c) = compare b.val c.val) ↔ b.SameKind c := by
  cases b with
  | int b =>
      cases c with
      | int c =>
          refine iff_of_true (fun cleared => ?_) trivial
          rw [BigNum.val, BigNum.val, compare_intCast]
          exact signOf_mpzCmp _ _
      | rat c =>
          refine iff_of_false (fun h => ?_) id
          -- the freed rational may look like the other operand
          have heq := h fun _ => c.1
          have hcmp : gmpCmpBigBig (fun _ => c.1) (.int b) (.rat c) = mpqCmp c.1 c.1 := rfl
          rw [hcmp, signOf_mpqCmp, compare_eq_iff_eq.mpr rfl, eq_comm, compare_eq_iff_eq] at heq
          have hrat : c.1 = b.1 := heq.symm
          exact c.2 (by rw [hrat, Rat.den_intCast])
  | rat b =>
      cases c with
      | int c =>
          refine iff_of_false (fun h => ?_) id
          have heq := h fun _ => b.1
          have hcmp : gmpCmpBigBig (fun _ => b.1) (.rat b) (.int c) = mpqCmp b.1 b.1 := rfl
          rw [hcmp, signOf_mpqCmp, compare_eq_iff_eq.mpr rfl, eq_comm, compare_eq_iff_eq] at heq
          have hrat : b.1 = c.1 := heq
          exact b.2 (by rw [hrat, Rat.den_intCast])
      | rat c => exact iff_of_true (fun cleared => signOf_mpqCmp _ _) trivial

theorem signOf_intCmp_iff (i j : Word) :
    signOf (intCmp (i - j)) = compare (i.toInt : ℚ) j.toInt ↔ Word.Fits (i.toInt - j.toInt) := by
  rw [compare_intCast]
  exact signOf.wordSub_eq_iff i j

-- ---------------------------------------------------------------------------
-- Exact numbers
-- ---------------------------------------------------------------------------

/-- `a_cmp` has the sign of the difference, and every predicate has the truth
    value of its relation. -/
structure ComparesExactly (t1 t2 : Term) (x y : ℚ) : Prop where
  cmp : ∃ out, (aCmp innerEval cleared t1 t2).Returns out ∧ signOf out = compare x y
  eq : (aEq innerEval cleared t1 t2).Returns (decide (x = y))
  dif : (aDif innerEval cleared t1 t2).Returns (decide (x ≠ y))
  lt : (aLt innerEval cleared t1 t2).Returns (decide (x < y))
  le : (aLe innerEval cleared t1 t2).Returns (decide (x ≤ y))
  gt : (aGt innerEval cleared t1 t2).Returns (decide (x > y))
  ge : (aGe innerEval cleared t1 t2).Returns (decide (x ≥ y))

variable {innerEval cleared} {t1 t2 : Term} {x y : ℚ}

/-- The predicates are right when the sign of `a_cmp` is. -/
theorem comparesExactly_iff {out : ℤ} (hcmp : aCmp innerEval cleared t1 t2 = pure out)
    (heq : aEq innerEval cleared t1 t2 = pure (decide (x = y)) ∨
      aEq innerEval cleared t1 t2 = pure (decide (out = 0))) :
    ComparesExactly innerEval cleared t1 t2 x y ↔ signOf out = compare x y := by
  have htest : ∀ test, aTest innerEval cleared test t1 t2 = pure (test out) := fun test => by
    rw [aTest, hcmp, pure_bind]
  constructor
  · intro h
    obtain ⟨z, hz, hsign⟩ := h.cmp
    rw [hcmp] at hz
    rwa [Calc.Returns.inj ⟨_, rfl⟩ hz]
  · intro h
    have hlt : out < 0 ↔ x < y := by rw [← signOf.eq_lt, h, compare_lt_iff_lt]
    have hzero : out = 0 ↔ x = y := by rw [← signOf.eq_eq, h, compare_eq_iff_eq]
    have hgt : 0 < out ↔ y < x := by rw [← signOf.eq_gt, h, compare_gt_iff_gt]
    have hle : out ≤ 0 ↔ x ≤ y := by rw [← not_lt, hgt, not_lt]
    have hge : 0 ≤ out ↔ y ≤ x := by rw [← not_lt, hlt, not_lt]
    refine ⟨⟨out, ⟨_, by rw [hcmp]; rfl⟩, h⟩, ⟨false, ?_⟩, ⟨false, ?_⟩, ⟨false, ?_⟩, ⟨false, ?_⟩,
      ⟨false, ?_⟩, ⟨false, ?_⟩⟩
    · rcases heq with heq | heq
      · rw [heq]; rfl
      · simp only [heq, hzero]; rfl
    · simp only [aDif, htest, ne_eq, hzero]; rfl
    · simp only [aLt, htest, hlt]; rfl
    · simp only [aLe, htest, hle]; rfl
    · simp only [aGt, htest, hgt]; rfl
    · simp only [aGe, htest, hge]; rfl

/-- Where `=:=` asks `a_cmp`, the sign of `a_cmp` is all that counts. -/
theorem comparesExactly_forall_iff {out : (ℚ → ℚ) → ℤ}
    (hcmp : ∀ cleared, aCmp innerEval cleared t1 t2 = pure (out cleared))
    (heq : ∀ cleared, aEq innerEval cleared t1 t2 = do
      let out ← aCmp innerEval cleared t1 t2
      return decide (out = 0)) :
    (∀ cleared, ComparesExactly innerEval cleared t1 t2 x y) ↔
      ∀ cleared, signOf (out cleared) = compare x y :=
  forall_congr' fun cleared =>
    comparesExactly_iff (hcmp cleared) (.inr (by rw [heq cleared, hcmp cleared, pure_bind]))

theorem orNull_pure (t : Term) : orNull (pure t) = pure (some t) := rfl

theorem Term.number_tests {t : Term} (h : t.value? = some x) :
    t.isVarTerm = false ∧ t.isNumTerm = true := by
  cases t with
  | int n => exact ⟨rfl, rfl⟩
  | blob p b =>
      cases b with
      | longInt | bigInt => exact ⟨rfl, rfl⟩
      | _ => exact absurd h (by simp [Term.value?, eTypeOfTerm, EType.value?])
  | _ => exact absurd h (by simp [Term.value?, eTypeOfTerm, EType.value?])

/-- Numbers are compared without evaluation. -/
theorem aCmp_number (innerEval : Term → Calc Term) (cleared : ℚ → ℚ) (h1 : t1.value? = some x) (h2 : t2.value? = some y) :
    aCmp innerEval cleared t1 t2 =
      match eTypeOfTerm t1 with
      | .longInt i1 => aCmpInt i1 t2
      | .bigInt b1 => aCmpBig cleared b1 t2
      | _ => return 0 := by
  obtain ⟨hvar1, hnum1⟩ := Term.number_tests h1
  obtain ⟨hvar2, hnum2⟩ := Term.number_tests h2
  unfold aCmp aCmpEval yapEval
  rcases EType.value?_cases h1 with ⟨i, he1, -⟩ | ⟨b, he1, -⟩ <;>
    rcases EType.value?_cases h2 with ⟨j, he2, -⟩ | ⟨c, he2, -⟩ <;>
    simp [hvar1, hvar2, hnum1, hnum2, he1, he2, orNull_pure, aCmpInt]

/-- Of numbers, `=:=` compares only machine integers by itself. -/
theorem aEq_number (innerEval : Term → Calc Term) (cleared : ℚ → ℚ) (h1 : t1.value? = some x) (h2 : t2.value? = some y) :
    aEq innerEval cleared t1 t2 =
      match eTypeOfTerm t1, eTypeOfTerm t2 with
      | .longInt i1, .longInt i2 => return decide (i1 = i2)
      | _, _ => do
        let out ← aCmp innerEval cleared t1 t2
        return decide (out = 0) := by
  obtain ⟨hvar1, -⟩ := Term.number_tests h1
  obtain ⟨hvar2, -⟩ := Term.number_tests h2
  unfold aEq
  rcases EType.value?_cases h1 with ⟨i, he1, -⟩ | ⟨b, he1, -⟩ <;>
    rcases EType.value?_cases h2 with ⟨j, he2, -⟩ | ⟨c, he2, -⟩ <;>
    simp [hvar1, hvar2, he1, he2]

/-- The difference of two machine integers is a word, and a big integer is not
    compared with a rational. -/
structure ComparesExactlyWhen (t1 t2 : Term) (x y : ℚ) : Prop where
  words : t1.isIntegerTerm = true → t2.isIntegerTerm = true → Word.Fits (x.num - y.num)
  kinds : ¬ (t1.isBignum = true ∧ t2.isBigRat = true) ∧ ¬ (t1.isBigRat = true ∧ t2.isBignum = true)

theorem Term.longInt_tests {t : Term} {i : Word} (h : eTypeOfTerm t = .longInt i) :
    t.isIntegerTerm = true ∧ t.isBignum = false ∧ t.isBigRat = false := by
  cases t with
  | int n => exact ⟨rfl, rfl, rfl⟩
  | blob p b => cases b <;> simp_all [eTypeOfTerm, Term.isIntegerTerm, Term.isIntTerm,
      Term.isLongIntTerm, Term.isBignum, Term.isBigRat]
  | _ => simp [eTypeOfTerm] at h

theorem Term.bigInt_tests {t : Term} {b : BigNum} (h : eTypeOfTerm t = .bigInt b) :
    t.isIntegerTerm = false ∧ (t.isBignum = true ↔ ∃ z, b = .int z) ∧
      (t.isBigRat = true ↔ ∃ q, b = .rat q) := by
  cases t with
  | blob p c =>
      cases c with
      | bigInt c =>
          obtain rfl : c = b := by simpa [eTypeOfTerm] using h
          cases c <;> simp [Term.isIntegerTerm, Term.isIntTerm, Term.isLongIntTerm, Term.isBignum,
            Term.isBigRat]
      | _ => simp [eTypeOfTerm] at h
  | _ => simp [eTypeOfTerm] at h

theorem BigNum.sameKind_iff (b c : BigNum) :
    b.SameKind c ↔ ¬ ((∃ z, b = .int z) ∧ ∃ q, c = .rat q) ∧ ¬ ((∃ q, b = .rat q) ∧ ∃ z, c = .int z) := by
  cases b <;> cases c <;> simp [BigNum.SameKind]

/-- On integers and rationals the comparison is exact, whatever memory that was
    freed holds, exactly under these conditions. -/
theorem comparesExactly_iff_when (h1 : t1.value? = some x) (h2 : t2.value? = some y) :
    (∀ cleared, ComparesExactly innerEval cleared t1 t2 x y) ↔ ComparesExactlyWhen t1 t2 x y := by
  have hcmp := fun cleared => aCmp_number innerEval cleared h1 h2
  have heq := fun cleared => aEq_number innerEval cleared h1 h2
  rcases EType.value?_cases h1 with ⟨i, he1, rfl⟩ | ⟨b, he1, rfl⟩ <;>
    rcases EType.value?_cases h2 with ⟨j, he2, rfl⟩ | ⟨c, he2, rfl⟩ <;>
    simp only [he1, he2, aCmpInt, aCmpBig] at hcmp heq
  · obtain ⟨hint1, hbig1, hrat1⟩ := Term.longInt_tests he1
    obtain ⟨hint2, hbig2, hrat2⟩ := Term.longInt_tests he2
    have hwords : decide (i = j) = decide ((i.toInt : ℚ) = j.toInt) := by
      rw [decide_eq_decide, Int.cast_inj, Word.toInt_inj]
    have hexact : ∀ cleared, ComparesExactly innerEval cleared t1 t2 i.toInt j.toInt ↔
        signOf (intCmp (i - j)) = compare (i.toInt : ℚ) j.toInt := fun cleared =>
      comparesExactly_iff (hcmp cleared) (.inl (by rw [heq cleared, hwords]))
    rw [forall_congr' hexact, signOf_intCmp_iff, forall_const]
    constructor
    · intro hfits
      exact ⟨fun _ _ => hfits, by simp [hbig1, hrat1]⟩
    · intro h
      exact h.words hint1 hint2
  · obtain ⟨-, hbig1, hrat1⟩ := Term.longInt_tests he1
    obtain ⟨hint2, -, -⟩ := Term.bigInt_tests he2
    rw [comparesExactly_forall_iff hcmp heq]
    exact iff_of_true (fun _ => signOf_gmpCmpIntBig i c)
      ⟨by simp [hint2], by simp [hbig1, hrat1]⟩
  · obtain ⟨-, hbig2, hrat2⟩ := Term.longInt_tests he2
    obtain ⟨hint1, -, -⟩ := Term.bigInt_tests he1
    rw [comparesExactly_forall_iff hcmp heq]
    exact iff_of_true (fun _ => signOf_gmpCmpBigInt b j)
      ⟨by simp [hint1], by simp [hbig2, hrat2]⟩
  · obtain ⟨hint1, hbig1, hrat1⟩ := Term.bigInt_tests he1
    obtain ⟨-, hbig2, hrat2⟩ := Term.bigInt_tests he2
    rw [comparesExactly_forall_iff hcmp heq, signOf_gmpCmpBigBig_iff, BigNum.sameKind_iff, ← hbig1, ← hrat1,
      ← hbig2, ← hrat2]
    constructor
    · intro hkinds
      exact ⟨by simp [hint1], hkinds⟩
    · intro h
      exact h.kinds

/-- A long integer and a rational. -/
theorem comparesExactly_intMax_half :
    ComparesExactly (fun t => pure t) id (.blob 0 (.longInt ⟨Word.intMax, by decide⟩))
      (.blob 0 (.bigInt (.rat ⟨1 / 2, by decide +kernel⟩))) (Word.intMax.toInt : ℚ) (1 / 2) := by
  have hwhen : ComparesExactlyWhen (.blob 0 (.longInt ⟨Word.intMax, by decide⟩))
      (.blob 0 (.bigInt (.rat ⟨1 / 2, by decide +kernel⟩))) (Word.intMax.toInt : ℚ) (1 / 2) :=
    ⟨nofun, by decide, by decide⟩
  exact (comparesExactly_iff_when rfl rfl).mpr hwhen id

/-- The greatest word is found less than minus one. -/
theorem not_comparesExactly_intMax_neg_one :
    ¬ ∀ cleared, ComparesExactly (fun t => pure t) cleared
      (.blob 0 (.longInt ⟨Word.intMax, by decide⟩)) (.int (-1)) (2 ^ 63 - 1) (-1) := by
  intro h
  obtain ⟨out, hout, hsign⟩ := (h id).cmp
  have hcmp : aCmp (fun t => pure t) id (.blob 0 (.longInt ⟨Word.intMax, by decide⟩)) (.int (-1)) =
      pure (-2 ^ 63) := rfl
  rw [hcmp] at hout
  rw [← Calc.Returns.inj ⟨false, rfl⟩ hout] at hsign
  exact absurd hsign (by decide +kernel)

end Yap
