-- SUMMARY: The comparison computes the standard order of terms off its defects, and is a total order there.
import Yap.Compare.Cells

/-!
# The standard order

A comparison is sound when no defect decides it: then it has the sign of the
standard order, and the laws of a total order follow.
-/

namespace Yap

open Term

-- ---------------------------------------------------------------------------
-- The top level
-- ---------------------------------------------------------------------------

/-- The order of two cells by their keys. -/
def keyOrder (d0 d1 : Term) : Ordering := Key.cmp d0.key d1.key

theorem standardOrder_unfold (t1 t2 : Term) :
    t1.standardOrder t2 =
      (keyOrder t1 t2).then (List.compareLex keyOrder (blockCells t1.args) (blockCells t2.args)) := by
  rw [standardOrder, keys, keys, Lex.compareLex_map, cells_eq, cells_eq t2,
    List.compareLex_cons_cons]
  rfl

theorem comparePairTop_visit {h t t2 : Term} {l r : List Term}
    (hv : comparePairTop h t t2 = .visit l r) : l = [h, t] ∧ r = t2.args ∧ l.length = r.length := by
  cases t2 with
  | pair q h' t' =>
      obtain ⟨rfl, rfl⟩ := CompareStep.visit.inj hv
      exact ⟨rfl, rfl, rfl⟩
  | appl q f as => simp [comparePairTop, f.isDot_eq_false] at hv
  | _ => cases hv

theorem compareApplTop_visit {f : Functor} {as : Fin f.arityOfFE → Term} {t2 : Term}
    {l r : List Term} (hv : compareApplTop f as t2 = .visit l r) :
    l = List.ofFn as ∧ r = t2.args ∧ l.length = r.length := by
  cases t2 with
  | appl q g bs =>
      simp only [compareApplTop] at hv
      split at hv
      case isTrue => cases hv
      case isFalse harity =>
        split at hv
        case isTrue => cases hv
        case isFalse =>
          obtain ⟨rfl, rfl⟩ := CompareStep.visit.inj hv
          exact ⟨rfl, rfl, by simp; omega⟩
  | _ => cases hv

/-- `compare` goes to the arguments of terms with one functor. -/
theorem compareTop_visit {t1 t2 : Term} {l r : List Term} (h : compareTop t1 t2 = .visit l r) :
    l = t1.args ∧ r = t2.args ∧ l.length = r.length := by
  unfold compareTop at h
  split at h
  case isTrue => cases h
  case isFalse =>
    split at h
    case isTrue => cases h
    case isFalse =>
      cases t1 using kindCases with
      | pair p hd tl => exact comparePairTop_visit h
      | appl p f as => exact compareApplTop_visit h
      | _ => cases h

/-- `compare` does not enter a term without arguments. -/
theorem compareTop_ne_visit {t1 : Term} (h : t1.args = []) (t2 : Term) (l r : List Term) :
    compareTop t1 t2 ≠ .visit l r := by
  unfold compareTop
  split
  case isTrue => rintro ⟨⟩
  case isFalse =>
    split
    case isTrue => rintro ⟨⟩
    case isFalse =>
      cases t1 using kindCases with
      | pair => cases h
      | appl p f as => exact absurd h (appl_args_ne_nil p f as)
      | _ => rintro ⟨⟩

/-- Without a call of the loop the answer is that of the first step. -/
theorem signOf_compare_of_not_visit {t1 t2 : Term} (h : ∀ l r, compareTop t1 t2 ≠ .visit l r) :
    signOf (t1.compare t2) = topOrder t1 t2 := by
  unfold Term.compare topOrder
  cases hstep : compareTop t1 t2 with
  | done | next => rfl
  | visit l r => exact absurd hstep (h l r)

theorem signOf_compare_of_visit {t1 t2 : Term} {l r : List Term}
    (h : compareTop t1 t2 = .visit l r) :
    signOf (t1.compare t2) =
      List.compareLex cellOrder (blockCells t1.args) (blockCells t2.args) := by
  obtain ⟨rfl, rfl, hlen⟩ := compareTop_visit h
  rw [Term.compare, h]
  exact signOf_compareComplex hlen

/-- Compound terms with one functor are entered, unless they are one word. -/
theorem eq_or_args_eq_nil {t1 t2 : Term} (hkey : t1.key = t2.key)
    (hvisit : ∀ l r, compareTop t1 t2 ≠ .visit l r) :
    t1 = t2 ∨ (t1.args = [] ∧ t2.args = []) := by
  cases sameHead_of_key_eq hkey with
  | leaf h1 h2 => exact .inr ⟨h1, h2⟩
  | @pair p q h t h' t' =>
      left
      by_contra hne
      exact hvisit [h, t] [h', t'] (by rw [compareTop, if_neg hne]; rfl)
  | @appl p q f as bs =>
      left
      by_contra hne
      refine hvisit (List.ofFn as) (List.ofFn bs) ?_
      rw [compareTop, if_neg hne]
      simp [isVarTerm, compareTopNonvar, compareApplTop, cmpAtoms_eq_zero]

/-- No defect decides the comparison of the two terms. -/
structure Sound (t1 t2 : Term) : Prop where
  top : topDefect t1 t2 = false
  args : keyOrder t1 t2 = .eq →
    Lex.Avoids keyOrder (fun d0 d1 => argDefect d0 d1 = true) (blockCells t1.args) (blockCells t2.args)

instance (t1 t2 : Term) : Decidable (Sound t1 t2) :=
  decidable_of_iff (topDefect t1 t2 = false ∧ (keyOrder t1 t2 = .eq →
    Lex.Avoids keyOrder (fun d0 d1 => argDefect d0 d1 = true) (blockCells t1.args)
      (blockCells t2.args))) ⟨fun h => ⟨h.1, h.2⟩, fun h => ⟨h.1, h.2⟩⟩

/-- The comparison has the sign of the standard order. -/
theorem signOf_compare {t1 t2 : Term} (h : Sound t1 t2) :
    signOf (t1.compare t2) = t1.standardOrder t2 := by
  have htop : topOrder t1 t2 = keyOrder t1 t2 := topOrder_eq h.top
  rw [standardOrder_unfold]
  by_cases hvisit : ∀ l r, compareTop t1 t2 ≠ .visit l r
  · rw [signOf_compare_of_not_visit hvisit, htop]
    cases hkey : keyOrder t1 t2 with
    | lt | gt => rfl
    | eq =>
        rcases eq_or_args_eq_nil (Std.LawfulEqCmp.eq_of_compare hkey) hvisit with rfl | ⟨h1, h2⟩
        · exact (Lex.compareLex_self fun d _ => Key.cmp_self d.key).symm
        · rw [h1, h2]
          rfl
  · obtain ⟨l, r, hstep⟩ : ∃ l r, compareTop t1 t2 = .visit l r := by simpa using hvisit
    have hkey : keyOrder t1 t2 = .eq := by rw [← htop, topOrder, hstep]; rfl
    rw [signOf_compare_of_visit hstep, hkey]
    exact Lex.compareLex_congr (fun d0 d1 hdef => cellOrder_eq (by simpa using hdef)) (h.args hkey)

-- ---------------------------------------------------------------------------
-- The laws of a total order
-- ---------------------------------------------------------------------------

/-- The comparison of three terms obeys the laws of a total order in which only
    identical terms are equal. -/
structure TotallyOrdered (a b c : Term) : Prop where
  antisymm : signOf (compareTerms a b) = (signOf (compareTerms b a)).swap
  trans : compareTerms a b ≤ 0 → compareTerms b c ≤ 0 → compareTerms a c ≤ 0
  eq_iff : compareTerms a b = 0 ↔ a.Identical b

theorem signOf_isLE {z : ℤ} : (signOf z).isLE = true ↔ z ≤ 0 := by
  rw [Ordering.isLE_iff_ne_gt, signOf.eq_gt, not_lt]

/-- Where no defect decides, the comparison is a total order. -/
theorem totallyOrdered_of_sound {a b c : Term} (hab : Sound a b) (hba : Sound b a)
    (hbc : Sound b c) (hac : Sound a c) : TotallyOrdered a b c := by
  have hsign : ∀ {t u : Term}, Sound t u → signOf (compareTerms t u) = t.standardOrder u :=
    signOf_compare
  refine ⟨?_, ?_, ?_⟩
  · rw [hsign hab, hsign hba]
    exact standardOrder_swap a b
  · intro h1 h2
    rw [← signOf_isLE, hsign hac]
    have hle1 : (a.standardOrder b).isLE := by rwa [← hsign hab, signOf_isLE]
    have hle2 : (b.standardOrder c).isLE := by rwa [← hsign hbc, signOf_isLE]
    exact standardOrder_trans hle1 hle2
  · rw [← signOf.eq_eq, hsign hab]
    exact standardOrder_eq_iff

/-- The terms `[1|2]`, `[1|a]` and `f(0, 1, 2)`. -/
theorem totallyOrdered_pairs_appl :
    TotallyOrdered (.pair 1 (.int 1) (.int 2)) (.pair 3 (.int 1) (.atom ⟨⟨[97], by decide⟩⟩))
      (.appl 5 ⟨⟨⟨[102], by decide⟩⟩, 3, by decide, by decide⟩
        fun i => .int (BitVec.ofNat 58 i.val)) :=
  totallyOrdered_of_sound (by decide) (by decide) (by decide) (by decide)

/-- A string and a tagged integer precede each other. -/
theorem not_totallyOrdered_string_int :
    ¬ TotallyOrdered (.blob 1 (.string ⟨[97], by decide⟩)) (.int 1) (.int 1) := by
  intro h
  have hswap : Ordering.lt = Ordering.gt := h.antisymm
  exact absurd hswap (by decide)

end Yap
