-- SUMMARY: Where the comparison of whole terms agrees with the comparison of the same terms as arguments.
import Yap.Compare.Compound

/-!
# The two implementations

The order of two terms is decided by `compare` when they are whole terms and by
the loop when they are arguments. The two agree on every pair of kinds but four.
-/

namespace Yap

open Term

/-- The kinds of pairs of terms for which both levels give one answer. -/
def LevelsAgree : Term → Term → Prop
  | .blob _ (.string _), .int _ => False
  | .appl _ _ _, .blob _ _ => False
  | .appl _ f _, .pair _ _ _ => 0 < strcmp f.nameOfFE.strOfAE dotName
  | .pair _ _ _, .appl _ f _ => f.BesideDot
  | _, _ => True

-- ---------------------------------------------------------------------------
-- One step
-- ---------------------------------------------------------------------------

theorem levelsAgree_self (t : Term) : LevelsAgree t t := by
  cases t using kindCases <;> trivial

theorem levelsAgree_of_isVarTerm {a b : Term} (h : (a.isVarTerm || b.isVarTerm) = true) :
    LevelsAgree a b := by
  cases a using kindCases <;> cases b using kindCases <;> trivial

theorem compareStringTop_eq_cell_iff (p : Addr) (s : CString) {t : Term} (ht : t.isVarTerm = false) :
    signOf (compareStringTop s t) = signOf (compareStringCell s t) ↔
      LevelsAgree (.blob p (.string s)) t := by
  cases t using kindCases with
  | var => cases ht
  | int => exact iff_of_false (by decide : ¬ Ordering.lt = Ordering.gt) id
  | _ => exact iff_of_true rfl trivial

theorem comparePairTop_eq_cell_iff (p : Addr) (h tl : Term) {t : Term} (ht : t.isVarTerm = false) :
    (comparePairTop h tl t).order = (comparePairCell h tl t).order ↔
      LevelsAgree (.pair p h tl) t := by
  cases t using kindCases with
  | var => cases ht
  | appl q f as =>
      have hcell : (comparePairCell h tl (.appl q f as)).order = Key.cmp dotKey f.key :=
        comparePairCell_eq h tl (rank_ne_zero rfl)
      rw [hcell]
      simp only [comparePairTop, f.isDot_eq_false]
      exact signOf_dotName_strcmp_iff f
  | _ => exact iff_of_true rfl trivial

theorem compareApplTop_eq_cell_iff (p : Addr) (f : Functor) (as : Fin f.arityOfFE → Term) {t : Term}
    (ht : t.isVarTerm = false) :
    (compareApplTop f as t).order = (compareApplCell f as t).order ↔
      LevelsAgree (.appl p f as) t := by
  cases t using kindCases with
  | var => cases ht
  | int | atom => exact iff_of_true rfl trivial
  | pair q h tl =>
      simp only [compareApplTop, arityTest_eq_true, if_true]
      exact signOf.eq_gt
  | appl q g bs =>
      refine iff_of_true ?_ trivial
      have htop : (compareApplTop f as (.appl q g bs)).order = Key.cmp f.key g.key :=
        compareApplTop_eq (p := p) (rank_ne_zero rfl) rfl
      have hcell : (compareApplCell f as (.appl q g bs)).order = Key.cmp f.key g.key :=
        compareApplCell_eq (p := p) (rank_ne_zero rfl) rfl
      rw [htop, hcell]
  | _ => exact iff_of_false (by decide : ¬ Ordering.gt = Ordering.lt) id

/-- The first steps of the two levels agree on these kinds and on no others. -/
theorem topOrder_eq_cellOrder_iff (a b : Term) : topOrder a b = cellOrder a b ↔ LevelsAgree a b := by
  by_cases hab : a = b
  · subst hab
    exact iff_of_true ((topOrder_self a).trans (cellOrder_self a).symm) (levelsAgree_self a)
  · rw [topOrder, cellOrder, compareTop, compareCell, if_neg hab, if_neg hab]
    by_cases hvar : (a.isVarTerm || b.isVarTerm) = true
    · rw [if_pos hvar, if_pos hvar, CompareStep.ofOut_order]
      exact iff_of_true rfl (levelsAgree_of_isVarTerm hvar)
    · rw [if_neg hvar, if_neg hvar]
      obtain ⟨ha, hb⟩ := Bool.or_eq_false_iff.mp (Bool.not_eq_true _ ▸ hvar)
      cases a using kindCases with
      | pair p h tl => exact comparePairTop_eq_cell_iff p h tl hb
      | appl p f as => exact compareApplTop_eq_cell_iff p f as hb
      | string p s =>
          rw [compareNonvar, CompareStep.ofOut_order]
          exact compareStringTop_eq_cell_iff p s hb
      | var => cases ha
      | atom a =>
          rw [compareTopNonvar, compareAtomTop_eq_cell]
          exact iff_of_true rfl trivial
      | dbRef => exact iff_of_true rfl trivial
      | _ =>
          rw [compareNonvar, CompareStep.ofOut_order]
          exact iff_of_true rfl trivial

-- ---------------------------------------------------------------------------
-- The loop
-- ---------------------------------------------------------------------------

theorem comparePair_visit_iff (h tl t : Term) (l r : List Term) :
    comparePairTop h tl t = .visit l r ↔ comparePairCell h tl t = .visit l r := by
  cases t with
  | pair => rfl
  | appl q f as =>
      simp only [comparePairTop, comparePairCell, f.isDot_eq_false]
      refine iff_of_false (by rintro ⟨⟩) ?_
      split <;> rintro ⟨⟩
  | _ => exact iff_of_false (by rintro ⟨⟩) (by rintro ⟨⟩)

theorem compareAppl_visit_iff (f : Functor) (as : Fin f.arityOfFE → Term) (t : Term)
    (l r : List Term) : compareApplTop f as t = .visit l r ↔ compareApplCell f as t = .visit l r := by
  cases t with
  | appl q g bs =>
      by_cases hfg : f = g
      · subst hfg
        simp [compareApplTop, compareApplCell, cmpAtoms_eq_zero.mpr]
      · have hname : (f.arityOfFE : ℤ) - g.arityOfFE = 0 → cmpAtoms f.nameOfFE g.nameOfFE ≠ 0 :=
          fun harity h => hfg (Functor.ext (cmpAtoms_eq_zero.mp h) (by omega))
        simp only [compareApplTop, compareApplCell, if_pos hfg]
        refine iff_of_false ?_ ?_
        · split
          · rintro ⟨⟩
          · rw [if_pos (hname (by omega))]
            rintro ⟨⟩
        · split <;> rintro ⟨⟩
  | _ => exact iff_of_false (by rintro ⟨⟩) (by rintro ⟨⟩)

/-- The two levels enter the same terms. -/
theorem compareTop_visit_iff {a b : Term} {l r : List Term} :
    compareTop a b = .visit l r ↔ compareCell a b = .visit l r := by
  by_cases hab : a = b
  · subst hab
    rw [compareTop, if_pos rfl, compareCell_self]
    exact iff_of_false (by rintro ⟨⟩) (by rintro ⟨⟩)
  · rw [compareTop, compareCell, if_neg hab, if_neg hab]
    by_cases hvar : (a.isVarTerm || b.isVarTerm) = true
    · rw [if_pos hvar, if_pos hvar]
      exact iff_of_false (by rintro ⟨⟩) CompareStep.ofOut_ne_visit
    · rw [if_neg hvar, if_neg hvar]
      cases a using kindCases with
      | pair p h tl => exact comparePair_visit_iff h tl b l r
      | appl p f as => exact compareAppl_visit_iff f as b l r
      | var | atom | dbRef => exact iff_of_false (by rintro ⟨⟩) (by rintro ⟨⟩)
      | _ => exact iff_of_false (by rintro ⟨⟩) CompareStep.ofOut_ne_visit

/-- The sign of a whole comparison is the sign among arguments. -/
theorem signOf_compare_eq_argOrder_iff (a b : Term) :
    signOf (compareTerms a b) = argOrder a b ↔ LevelsAgree a b := by
  rw [← topOrder_eq_cellOrder_iff]
  by_cases hvisit : ∀ l r, compareTop a b ≠ .visit l r
  · rw [compareTerms, signOf_compare_of_not_visit hvisit,
      argOrder_of_not_visit fun l r h => hvisit l r (compareTop_visit_iff.mpr h)]
  · obtain ⟨l, r, htop⟩ : ∃ l r, compareTop a b = .visit l r := by simpa using hvisit
    have hcell := compareTop_visit_iff.mp htop
    rw [compareTerms, Term.compare, htop, argOrder_of_visit hcell, topOrder, cellOrder, htop, hcell]
    exact iff_of_true rfl rfl

/-- The functor of arity 1 and a name. -/
def unaryFunctor (name : Atom) : Functor := ⟨name, 1, Nat.one_pos, fun h => absurd h.2 (by decide)⟩

/-- The unary term at `p`. -/
def unaryTerm (p : Addr) (name : Atom) (a : Term) : Term := .appl p (unaryFunctor name) fun _ => a

/-- A comparison of unary terms with one name is the loop on their arguments. -/
theorem signOf_compare_unary (p q : Addr) (name : Atom) (a b : Term) :
    signOf (compareTerms (unaryTerm p name a) (unaryTerm q name b)) = argOrder a b := by
  have hkey : keyOrder (unaryTerm p name a) (unaryTerm q name b) = .eq :=
    Key.cmp_self (unaryFunctor name).key
  have hargs : ∀ p a, (unaryTerm p name a).args = [a] := fun _ _ => rfl
  rw [signOf_compare_args rfl, hkey, hargs, hargs, List.compareLex_cons_cons]
  cases argOrder a b <;> rfl

/-- Two terms compare as the arguments of unary terms do exactly when they are not
    of the kinds for which the two implementations differ. -/
theorem compare_unary_iff (p q : Addr) (name : Atom) (a b : Term) :
    signOf (compareTerms a b) =
      signOf (compareTerms (unaryTerm p name a) (unaryTerm q name b)) ↔ LevelsAgree a b := by
  rw [signOf_compare_unary, signOf_compare_eq_argOrder_iff]

/-- A string precedes a tagged integer as a whole term and follows it as an
    argument. -/
theorem not_compare_unary_string_int :
    signOf (compareTerms (.blob 1 (.string ⟨[97], by decide⟩)) (.int 1)) ≠
      signOf (compareTerms (unaryTerm 3 ⟨⟨[102], by decide⟩⟩ (.blob 1 (.string ⟨[97], by decide⟩)))
        (unaryTerm 5 ⟨⟨[102], by decide⟩⟩ (.int 1))) := by
  rw [ne_eq, signOf_compare_unary, signOf_compare_eq_argOrder_iff]
  exact id

end Yap
