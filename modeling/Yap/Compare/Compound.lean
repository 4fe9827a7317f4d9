-- SUMMARY: Compound terms are ordered by arity, name and arguments, except some pairs of a list cell and another compound term.
import Yap.Compare.Standard

/-!
# Compound terms

Pairs have a tag of their own, so a pair and a compound term of another functor
have their own branches, and these differ between the two levels.
-/

namespace Yap

open Term

-- ---------------------------------------------------------------------------
-- Functors beside the functor of pairs
-- ---------------------------------------------------------------------------

/-- The name alone puts the functor on the side of `./2` on which its arity and
    name put it. -/
def Functor.BesideDot (f : Functor) : Prop :=
  f.arityOfFE = 2 ∨ (2 < f.arityOfFE ∧ 0 < strcmp f.nameOfFE.strOfAE dotName) ∨
    (f.arityOfFE < 2 ∧ strcmp f.nameOfFE.strOfAE dotName < 0)

instance (f : Functor) : Decidable f.BesideDot := inferInstanceAs (Decidable (_ ∨ _ ∨ _))

theorem signOf_strcmp_swap (s t : CString) : signOf (strcmp s t) = (signOf (strcmp t s)).swap := by
  rw [signOf_strcmp, signOf_strcmp]
  exact Lex.compareLex_swap _ _ _

theorem cmp_key_dotKey (f : Functor) :
    Key.cmp f.key dotKey =
      (signOf ((f.arityOfFE : ℤ) - 2)).then (signOf (strcmp f.nameOfFE.strOfAE dotName)) :=
  cmp_functorKey f.nameOfFE atomDot f.arityOfFE 2

theorem signOf_strcmp_dotName_iff (f : Functor) :
    signOf (strcmp f.nameOfFE.strOfAE dotName) = Key.cmp f.key dotKey ↔ f.BesideDot := by
  rw [cmp_key_dotKey, Functor.BesideDot]
  rcases lt_trichotomy f.arityOfFE 2 with hlt | heq | hgt
  · have harity : signOf ((f.arityOfFE : ℤ) - 2) = .lt := signOf.eq_lt.mpr (by omega)
    simp [harity, signOf.eq_lt]
    omega
  · simp [heq]
  · have harity : signOf ((f.arityOfFE : ℤ) - 2) = .gt := signOf.eq_gt.mpr (by omega)
    simp [harity, signOf.eq_gt]
    omega

theorem signOf_dotName_strcmp_iff (f : Functor) :
    signOf (strcmp dotName f.nameOfFE.strOfAE) = Key.cmp dotKey f.key ↔ f.BesideDot := by
  rw [← signOf_strcmp_dotName_iff, signOf_strcmp_swap, Key.cmp_swap, Ordering.swap_inj]

-- ---------------------------------------------------------------------------
-- One step and the arguments
-- ---------------------------------------------------------------------------

/-- Off the defects `compare` decides by the first cells and then by the arguments. -/
theorem signOf_compare_args {s t : Term} (h : topDefect s t = false) :
    signOf (compareTerms s t) = (keyOrder s t).then (List.compareLex argOrder s.args t.args) := by
  have htop : topOrder s t = keyOrder s t := topOrder_eq h
  by_cases hvisit : ∀ l r, compareTop s t ≠ .visit l r
  · rw [compareTerms, signOf_compare_of_not_visit hvisit, htop]
    cases hkey : keyOrder s t with
    | lt | gt => rfl
    | eq =>
        rcases eq_or_args_eq_nil (Std.LawfulEqCmp.eq_of_compare hkey) hvisit with rfl | ⟨h1, h2⟩
        · exact (Lex.compareLex_self fun d _ => argOrder_self d).symm
        · rw [h1, h2]
          rfl
  · obtain ⟨l, r, hstep⟩ : ∃ l r, compareTop s t = .visit l r := by simpa using hvisit
    obtain ⟨rfl, rfl, hlen⟩ := compareTop_visit hstep
    have hkey : keyOrder s t = .eq := by rw [← htop, topOrder, hstep]; rfl
    rw [compareTerms, Term.compare, hstep, hkey]
    exact signOf_compareComplex_args hlen

/-- Off the defects the loop decides by the first cells and then by the arguments. -/
theorem argOrder_args {s t : Term} (h : argDefect s t = false) :
    argOrder s t = (keyOrder s t).then (List.compareLex argOrder s.args t.args) := by
  have hcell : cellOrder s t = keyOrder s t := cellOrder_eq h
  cases hstep : compareCell s t with
  | visit l r =>
      obtain ⟨rfl, rfl, hlen⟩ := compareCell_visit hstep
      have hkey : keyOrder s t = .eq := by rw [← hcell, cellOrder, hstep]; rfl
      rw [argOrder_of_visit hstep, hkey]
      exact signOf_compareComplex_args hlen
  | done out =>
      have hne : keyOrder s t ≠ .eq := by
        rw [← hcell, cellOrder, hstep]
        exact fun heq => compareCell_done hstep (signOf.eq_eq.mp heq)
      rw [argOrder_of_not_visit (by simp [hstep]), hcell]
      cases hkey : keyOrder s t with
      | eq => exact absurd hkey hne
      | lt | gt => rfl
  | next =>
      have hkey : keyOrder s t = .eq := by rw [← hcell, cellOrder, hstep]; rfl
      rw [argOrder_of_not_visit (by simp [hstep]), hcell, hkey]
      rcases compareCell_next hstep with rfl | ⟨h1, h2⟩
      · exact (Lex.compareLex_self fun d _ => argOrder_self d).symm
      · rw [h1, h2]
        rfl

-- ---------------------------------------------------------------------------
-- Arity, name and arguments
-- ---------------------------------------------------------------------------

/-- The functor of a compound term: a pair has name `.` and arity 2. -/
def Term.nameArity? : Term → Option (Atom × ℕ)
  | .pair _ _ _ => some (atomDot, 2)
  | .appl _ f _ => some (f.nameOfFE, f.arityOfFE)
  | _ => none

/-- Two compound terms with functors `f` and `g` by arity, then by name, then by
    the first arguments that differ. -/
def functorOrder (f g : Atom × ℕ) (s t : Term) : Ordering :=
  (compare f.2 g.2).then
    ((List.compareLex compare f.1.strOfAE.codes g.1.strOfAE.codes).then
      (List.compareLex argOrder s.args t.args))

/-- The comparison decides two compound terms by arity, name and arguments, as
    whole terms and wherever the loop meets them. -/
structure OrderedByFunctor (f g : Atom × ℕ) (s t : Term) : Prop where
  top : signOf (compareTerms s t) = functorOrder f g s t
  nested : ∀ frame toVisit, signOf (compareLoop ((s, t) :: frame) toVisit) =
    (functorOrder f g s t).then (signOf (compareLoop frame toVisit))

theorem key_of_nameArity? {t : Term} {f : Atom × ℕ} (h : t.nameArity? = some f) :
    t.key = functorKey f.1 f.2 := by
  cases t with
  | pair | appl =>
      obtain rfl := Option.some.inj h
      rfl
  | _ => cases h

theorem functorOrder_eq {s t : Term} {f g : Atom × ℕ} (hs : s.nameArity? = some f)
    (ht : t.nameArity? = some g) :
    functorOrder f g s t = (keyOrder s t).then (List.compareLex argOrder s.args t.args) := by
  have hcast : compare f.2 g.2 = compare (f.2 : ℤ) (g.2 : ℤ) :=
    signOf.compare_congr (fun h => by exact_mod_cast h) (fun h => by exact_mod_cast h)
      (fun h => by exact_mod_cast h)
  rw [keyOrder, key_of_nameArity? hs, key_of_nameArity? ht, cmp_functorKey, signOf.sub, cmpAtoms,
    signOf_strcmp, functorOrder, hcast, Ordering.then_assoc]

/-- The functor of a compound term beside a pair that both levels order by arity
    and name. -/
def MixedSound : Term → Term → Prop
  | .pair _ _ _, .appl _ f _ => f.BesideDot
  | .appl _ f _, .pair _ _ _ => 2 ≤ f.arityOfFE ∧ 0 < strcmp f.nameOfFE.strOfAE dotName
  | _, _ => True

theorem besideDot_and_gt_iff (f : Functor) :
    (f.BesideDot ∧ Key.cmp f.key dotKey ≠ .lt) ↔
      2 ≤ f.arityOfFE ∧ 0 < strcmp f.nameOfFE.strOfAE dotName := by
  have hne := f.key_ne_dotKey
  rw [cmp_key_dotKey] at hne ⊢
  unfold Functor.BesideDot
  rcases lt_trichotomy f.arityOfFE 2 with hlt | heq | hgt
  · have harity : signOf ((f.arityOfFE : ℤ) - 2) = .lt := signOf.eq_lt.mpr (by omega)
    simp [harity]
    omega
  · simp [heq] at hne ⊢
    omega
  · have harity : signOf ((f.arityOfFE : ℤ) - 2) = .gt := signOf.eq_gt.mpr (by omega)
    simp [harity]
    omega

/-- On compound terms the defects of both levels are those of a pair and another
    compound term. -/
theorem mixedSound_iff {s t : Term} {f g : Atom × ℕ} (hs : s.nameArity? = some f)
    (ht : t.nameArity? = some g) :
    (topDefect s t = false ∧ argDefect s t = false) ↔ MixedSound s t := by
  cases s with
  | pair p h tl =>
      cases t with
      | pair => exact iff_of_true ⟨rfl, rfl⟩ trivial
      | appl q g bs =>
          rw [MixedSound, ← signOf_dotName_strcmp_iff]
          simp [topDefect, argDefect, intDefect, doubleDefect, topKindDefect, argCompoundDefect, machineInt?]
      | _ => cases ht
  | appl p f as =>
      cases t with
      | pair q h tl =>
          rw [MixedSound, ← besideDot_and_gt_iff, ← signOf_strcmp_dotName_iff]
          simp [topDefect, argDefect, intDefect, doubleDefect, topKindDefect, argCompoundDefect, machineInt?]
      | appl => exact iff_of_true ⟨rfl, rfl⟩ trivial
      | _ => cases ht
  | _ => cases hs

theorem then_of_ne_eq {o : Ordering} (h : o ≠ .eq) (o' : Ordering) : o.then o' = o := by
  cases o with
  | eq => exact absurd rfl h
  | lt | gt => rfl

theorem compareTerms_pair_appl (p q : Addr) (h tl : Term) (f : Functor)
    (as : Fin f.arityOfFE → Term) :
    compareTerms (.pair p h tl) (.appl q f as) = strcmp dotName f.nameOfFE.strOfAE := by
  simp [compareTerms, Term.compare, compareTop, isVarTerm, compareTopNonvar, comparePairTop,
    f.isDot_eq_false]

theorem compareTerms_appl_pair (p q : Addr) (h tl : Term) (f : Functor)
    (as : Fin f.arityOfFE → Term) :
    compareTerms (.appl p f as) (.pair q h tl) = strcmp f.nameOfFE.strOfAE dotName := by
  simp [compareTerms, Term.compare, compareTop, isVarTerm, compareTopNonvar, compareApplTop,
    arityTest_eq_true]

theorem argOrder_appl_pair (p q : Addr) (h tl : Term) (f : Functor)
    (as : Fin f.arityOfFE → Term) : argOrder (.appl p f as) (.pair q h tl) = .gt := by
  have hstep : compareCell (.appl p f as) (.pair q h tl) = .done 1 := by
    simp [compareCell, isVarTerm, compareNonvar, compareApplCell]
  rw [argOrder_of_not_visit (by simp [hstep]), cellOrder, hstep]
  rfl

/-- Compound terms that are ordered by arity, name and arguments meet no defect. -/
theorem mixedSound_of_order {s t : Term} {f g : Atom × ℕ} (hs : s.nameArity? = some f)
    (ht : t.nameArity? = some g) (htop : signOf (compareTerms s t) = functorOrder f g s t)
    (harg : argOrder s t = functorOrder f g s t) : MixedSound s t := by
  rw [functorOrder_eq hs ht, keyOrder] at htop harg
  cases s with
  | pair p h tl =>
      cases t with
      | pair => trivial
      | appl q f bs =>
          have hne : Key.cmp dotKey f.key ≠ .eq := by
            rw [Key.cmp_swap, ne_eq, Ordering.swap_eq_eq]
            exact f.key_ne_dotKey
          rw [compareTerms_pair_appl, key, key, then_of_ne_eq hne] at htop
          exact (signOf_dotName_strcmp_iff f).mp htop
      | _ => cases ht
  | appl p f as =>
      cases t with
      | pair q h tl =>
          rw [compareTerms_appl_pair, key, key, then_of_ne_eq f.key_ne_dotKey] at htop
          rw [argOrder_appl_pair, key, key, then_of_ne_eq f.key_ne_dotKey] at harg
          refine (besideDot_and_gt_iff f).mp ⟨(signOf_strcmp_dotName_iff f).mp htop, ?_⟩
          rw [← harg]
          rintro ⟨⟩
      | appl => trivial
      | _ => cases ht
  | _ => cases hs

/-- Compound terms are ordered by arity, name and arguments exactly when a pair
    and another compound term are on the sides of each other that both levels
    take them to be. -/
theorem orderedByFunctor_iff {s t : Term} {f g : Atom × ℕ} (hs : s.nameArity? = some f)
    (ht : t.nameArity? = some g) : OrderedByFunctor f g s t ↔ MixedSound s t := by
  constructor
  · rintro ⟨htop, hnested⟩
    have harg := hnested [] []
    rw [signOf_compareLoop_cons, compareLoop_nil] at harg
    exact mixedSound_of_order hs ht htop (by simpa using harg)
  · intro h
    obtain ⟨htop, harg⟩ := (mixedSound_iff hs ht).mpr h
    have horder := functorOrder_eq hs ht
    refine ⟨(signOf_compare_args htop).trans horder.symm, fun frame toVisit => ?_⟩
    rw [signOf_compareLoop_cons, argOrder_args harg, horder]

/-- The functor `f/3`. -/
private def exampleFunctor : Functor := ⟨⟨⟨[102], by decide⟩⟩, 3, by decide, by decide⟩

/-- `f(0, 1, 2)` follows `[1|2]`. -/
theorem orderedByFunctor_appl_pair :
    OrderedByFunctor (exampleFunctor.nameOfFE, 3) (atomDot, 2)
      (.appl 1 exampleFunctor fun i => .int (BitVec.ofNat 58 i.val)) (.pair 5 (.int 1) (.int 2)) :=
  (orderedByFunctor_iff rfl rfl).mpr ⟨by decide, by decide⟩

/-- The functor `+/3`, whose name precedes `.`. -/
private def plusFunctor : Functor := ⟨⟨⟨[43], by decide⟩⟩, 3, by decide, by decide⟩

/-- `+(0, 1, 2)` is taken to precede `[1|2]`. -/
theorem not_orderedByFunctor_appl_pair :
    ¬ OrderedByFunctor (plusFunctor.nameOfFE, 3) (atomDot, 2)
      (.appl 1 plusFunctor fun i => .int (BitVec.ofNat 58 i.val)) (.pair 5 (.int 1) (.int 2)) := by
  intro h
  exact absurd h.top (by decide)

end Yap
