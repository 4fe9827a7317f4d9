-- SUMMARY: The standard order of two integers is numeric exactly when the difference of two machine integers fits a word.
import Yap.Compare.Standard

/-!
# The standard order of integers

An integer is tagged, boxed as a long integer, or big. The branches for these are
the same at the top level and among arguments.
-/

namespace Yap

open Term

-- ---------------------------------------------------------------------------
-- Cells with integers
-- ---------------------------------------------------------------------------

/-- The standard order compares integers by their values. -/
theorem key_of_intValue? {t : Term} {x : ℤ} (h : t.intValue? = some x) : t.key = ⟨4, x, []⟩ := by
  cases t using kindCases with
  | int n =>
      obtain rfl : (intOfTerm n).toInt = x := Option.some.inj h
      rw [key, intOfTerm_toInt]
  | longInt p n =>
      obtain rfl : n.val.toInt = x := Option.some.inj h
      rfl
  | bigInt p z =>
      obtain rfl : z.val = x := Option.some.inj h
      rfl
  | _ => exact absurd h (by simp [intValue?, eTypeOfTerm, EType.intValue?])

theorem machineInt?_toInt {t : Term} {w : Word} {x : ℤ} (h : t.machineInt? = some w)
    (hx : t.intValue? = some x) : w.toInt = x := by
  cases t using kindCases with
  | int n =>
      obtain rfl : intOfTerm n = w := Option.some.inj h
      exact Option.some.inj hx
  | longInt p n =>
      obtain rfl : n.val = w := Option.some.inj h
      exact Option.some.inj hx
  | _ => cases h

/-- Of the defects only the difference of machine integers concerns integers. -/
theorem defects_of_intValue? {t1 : Term} {x : ℤ} (hx : t1.intValue? = some x) (t2 : Term) :
    argDefect t1 t2 = intDefect t1 t2 ∧
      (t2.intValue?.isSome → topDefect t1 t2 = intDefect t1 t2) := by
  cases t1 using kindCases with
  | int | longInt | bigInt => simp [argDefect, topDefect, doubleDefect, argCompoundDefect, topKindDefect]
  | _ => exact absurd hx (by simp [intValue?, eTypeOfTerm, EType.intValue?])

/-- Two machine integers are compared by the sign of their difference as words. -/
theorem order_of_machineInt? {t1 t2 : Term} {v w : Word} (hv : t1.machineInt? = some v)
    (hw : t2.machineInt? = some w) (hne : t1 ≠ t2) :
    cellOrder t1 t2 = signOf (v - w).toInt ∧ topOrder t1 t2 = signOf (v - w).toInt := by
  have hvar1 : t1.isVarTerm = false := by cases t1 <;> first | rfl | cases hv
  have hvar2 : t2.isVarTerm = false := by cases t2 <;> first | rfl | cases hw
  rw [cellOrder, compareCell, topOrder, compareTop]
  simp only [hvar1, hvar2, hne, Bool.or_self, Bool.false_eq_true, if_false]
  cases t1 using kindCases with
  | int | longInt =>
      obtain rfl := Option.some.inj hv
      rw [compareNonvar, CompareStep.ofOut_order, compareTopNonvar]
      cases t2 using kindCases with
      | int | longInt =>
          obtain rfl := Option.some.inj hw
          exact ⟨rfl, rfl⟩
      | _ => cases hw
  | _ => cases hv

/-- Off the defect two integers are compared by their values at both levels. -/
theorem orders_of_intDefect {t1 t2 : Term} {x y : ℤ} (hx : t1.intValue? = some x)
    (hy : t2.intValue? = some y) (h : intDefect t1 t2 = false) :
    topOrder t1 t2 = compare x y ∧ cellOrder t1 t2 = compare x y := by
  have hkeys : Key.cmp t1.key t2.key = compare x y := by
    rw [key_of_intValue? hx, key_of_intValue? hy, Key.cmp_value, compare_intCast]
  obtain ⟨harg, htop⟩ := defects_of_intValue? hx t2
  constructor
  · rw [topOrder_eq ((htop (by rw [hy]; rfl)).trans h), hkeys]
  · rw [cellOrder_eq (harg.trans h), hkeys]

/-- A difference that does not fit a word has the wrong sign at both levels. -/
theorem intDefect_of_order {t1 t2 : Term} {x y : ℤ} (hx : t1.intValue? = some x)
    (hy : t2.intValue? = some y)
    (h : topOrder t1 t2 = compare x y ∨ cellOrder t1 t2 = compare x y) :
    intDefect t1 t2 = false := by
  unfold intDefect
  split
  case h_1 v w hv hw =>
    obtain rfl := machineInt?_toInt hv hx
    obtain rfl := machineInt?_toInt hw hy
    rw [Bool.not_eq_false', decide_eq_true_iff, ← signOf.wordSub_eq_iff]
    by_cases hne : t1 = t2
    · obtain rfl : v = w := Option.some.inj (hv.symm.trans (hne ▸ hw))
      simp
    · obtain ⟨hcell, htop⟩ := order_of_machineInt? hv hw hne
      rw [hcell, htop, or_self] at h
      exact h
  case h_2 => rfl

-- ---------------------------------------------------------------------------
-- Both levels
-- ---------------------------------------------------------------------------

/-- The two terms are ordered as the integers `x` and `y`, as whole terms and as
    corresponding arguments wherever the loop meets them. -/
structure NumericOrder (t1 t2 : Term) (x y : ℤ) : Prop where
  top : signOf (compareTerms t1 t2) = compare x y
  args : ∀ frame toVisit, signOf (compareLoop ((t1, t2) :: frame) toVisit) =
    (compare x y).then (signOf (compareLoop frame toVisit))

theorem args_of_intValue? {t : Term} {x : ℤ} (h : t.intValue? = some x) : t.args = [] := by
  have hrank : t.rank = 4 := congrArg Key.rank (key_of_intValue? h)
  exact args_eq_nil (by omega)

/-- The order of two integers is numeric exactly when their difference, if both
    are machine integers, fits a word. -/
theorem numericOrder_iff {t1 t2 : Term} {x y : ℤ} (hx : t1.intValue? = some x)
    (hy : t2.intValue? = some y) : NumericOrder t1 t2 x y ↔ intDefect t1 t2 = false := by
  have htop : signOf (compareTerms t1 t2) = topOrder t1 t2 :=
    signOf_compare_of_not_visit (compareTop_ne_visit (args_of_intValue? hx) t2)
  have hargs : argOrder t1 t2 = cellOrder t1 t2 :=
    argOrder_of_not_visit (compareCell_ne_visit (args_of_intValue? hx) t2)
  constructor
  · rintro ⟨h, -⟩
    exact intDefect_of_order hx hy (.inl (htop.symm.trans h))
  · intro h
    obtain ⟨hto, hco⟩ := orders_of_intDefect hx hy h
    refine ⟨htop.trans hto, fun frame toVisit => ?_⟩
    rw [signOf_compareLoop_cons, hargs, hco]

/-- The order of 2^63 - 1 and 0, a long and a tagged integer. -/
theorem numericOrder_intMax_zero :
    NumericOrder (.blob 1 (.longInt ⟨Word.intMax, by decide⟩)) (.int 0) (2 ^ 63 - 1) 0 :=
  (numericOrder_iff (by rfl) (by rfl)).mpr (by decide)

/-- 2^63 - 1 is taken to precede -1. -/
theorem not_numericOrder_intMax_neg_one :
    ¬ NumericOrder (.blob 1 (.longInt ⟨Word.intMax, by decide⟩)) (.int (-1)) (2 ^ 63 - 1) (-1) := by
  intro h
  exact absurd h.top (by decide)

end Yap
