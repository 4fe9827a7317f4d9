-- SUMMARY: The comparison of terms as the code computes it: one pair of cells, the loop over arguments with its stack, and the separate comparison at the top level.
import Yap.Arith.Gmp

/-!
# The comparison of terms

The functions follow `compare` and `compare_complex` of `cmppreds.c`. The loop
links a cell of the left term to the right term while it is below it and
restores the cell afterwards; on the trees that the terms unfold to, nothing of
this is visible.
-/

namespace Yap

/-- `rfloat`. -/
def rfloat (x : Binary64) : ℤ :=
  if Binary64.zero.lt x then 1 else if x.eq .zero then 0 else -1

/-- The name of the functor of a pair. -/
def dotName : CString := atomDot.strOfAE

/-- How the comparison of two terms goes on: it ends, it is left undecided, or it
    goes to the arguments. -/
inductive CompareStep where
  | done (out : ℤ)
  | next
  | visit (left right : List Term)

/-- `if (out != 0) goto done`. -/
def CompareStep.ofOut (out : ℤ) : CompareStep := if out ≠ 0 then .done out else .next

/-- The answer where one of the terms is a variable: variables come first, and
    the difference of their addresses orders them. -/
def compareVars : Term → Term → ℤ
  | .var v, .var w => (v : ℤ) - w
  | .var _, _ => -1
  | _, _ => 1

-- ---------------------------------------------------------------------------
-- Arguments
-- ---------------------------------------------------------------------------

/-- The branch of a tagged integer in the loop. -/
def compareIntCell (n : Word) : Term → ℤ
  | .int m => (n - intOfTerm m).toInt
  | .blob _ (.double _) => 1
  | .blob _ (.longInt m) => (n - m.val).toInt
  | .blob _ (.bigInt b) => gmpTcmpIntBig n b
  | .blob _ .dbRef => 1
  | _ => -1

/-- The branch of a double. -/
def compareFloatCell (x : Binary64) : Term → ℤ
  | .blob _ (.double y) => rfloat (x.sub y)
  | .blob _ .dbRef => 1
  | _ => -1

/-- The branch of a string in the loop. -/
def compareStringCell (s : CString) : Term → ℤ
  | .blob _ (.string s') => strcmp s s'
  | .int _ => 1
  | .blob _ (.double _) => 1
  | .blob _ (.longInt _) => 1
  | .blob _ (.bigInt _) => 1
  | .blob _ .dbRef => 1
  | _ => -1

/-- The branch of a long integer. -/
def compareLongIntCell (n : LongInt) : Term → ℤ
  | .int m => (n.val - intOfTerm m).toInt
  | .blob _ (.double _) => 1
  | .blob _ (.longInt m) => (n.val - m.val).toInt
  | .blob _ (.bigInt b) => gmpTcmpIntBig n.val b
  | .blob _ .dbRef => 1
  | _ => -1

/-- The branch of a big number. -/
def compareBigIntCell (b : BigNum) : Term → ℤ
  | .int m => gmpTcmpBigInt b (intOfTerm m)
  | .blob _ (.double _) => 1
  | .blob _ (.longInt m) => gmpTcmpBigInt b m.val
  | .blob _ (.bigInt c) => gmpTcmpBigBig b c
  | .blob _ .dbRef => 1
  | _ => -1

/-- The branch of an atom in the loop. -/
def compareAtomCell (a : Atom) : Term → ℤ
  | .atom b => cmpAtoms a b
  | d1 => if d1.isPrimitiveTerm then 1 else -1

/-- The branch of a database reference at `p`. -/
def compareRefCell (p : Addr) : Term → ℤ
  | .blob q .dbRef => (q : ℤ) - p
  | _ => -1

/-- The branch of a pair in the loop. -/
def comparePairCell (h t : Term) : Term → CompareStep
  | .pair _ h' t' => .visit [h, t] [h', t']
  | .appl _ f _ =>
    let out : ℤ := 2 - f.arityOfFE
    if out = 0 then .done (strcmp dotName f.nameOfFE.strOfAE) else .done out
  | _ => .done 1

/-- The branch of a compound term in the loop. A pair is not an `Appl` term. -/
def compareApplCell (f : Functor) (as : Fin f.arityOfFE → Term) : Term → CompareStep
  | .appl _ g bs =>
    if f ≠ g then
      let out : ℤ := (f.arityOfFE : ℤ) - g.arityOfFE
      if out = 0 then .done (cmpAtoms f.nameOfFE g.nameOfFE) else .done out
    else .visit (List.ofFn as) (List.ofFn bs)
  | .blob _ _ => .done (-1)
  | _ => .done 1

/-- The branches of the loop on two different words that are not variables. -/
def compareNonvar (d0 d1 : Term) : CompareStep :=
  match d0 with
  | .var _ => .next
  | .atom a => .done (compareAtomCell a d1)
  | .int n => .ofOut (compareIntCell (intOfTerm n) d1)
  | .blob _ (.double x) => .ofOut (compareFloatCell x d1)
  | .blob _ (.string s) => .ofOut (compareStringCell s d1)
  | .blob _ (.longInt n) => .ofOut (compareLongIntCell n d1)
  | .blob _ (.bigInt b) => .ofOut (compareBigIntCell b d1)
  | .pair _ h t => comparePairCell h t d1
  | .blob p .dbRef => .done (compareRefCell p d1)
  | .appl _ f as => compareApplCell f as d1

/-- One turn of the loop of `compare_complex`, on two dereferenced cells. -/
def compareCell (d0 d1 : Term) : CompareStep :=
  if d0.isVarTerm || d1.isVarTerm then .ofOut (compareVars d0 d1)
  else if d0 = d1 then .next
  else compareNonvar d0 d1

theorem CompareStep.ofOut_ne_visit {out : ℤ} {l r : List Term} : ofOut out ≠ .visit l r := by
  unfold ofOut
  split <;> rintro ⟨⟩

theorem comparePairCell_visit {h t d1 : Term} {l r : List Term}
    (hv : comparePairCell h t d1 = .visit l r) : l = [h, t] ∧ r = d1.args ∧ l.length = r.length := by
  cases d1 with
  | pair q h' t' =>
      obtain ⟨rfl, rfl⟩ := CompareStep.visit.inj hv
      exact ⟨rfl, rfl, rfl⟩
  | appl q f as =>
      simp only [comparePairCell] at hv
      split at hv <;> cases hv
  | _ => cases hv

theorem compareApplCell_visit {f : Functor} {as : Fin f.arityOfFE → Term} {d1 : Term}
    {l r : List Term} (hv : compareApplCell f as d1 = .visit l r) :
    l = List.ofFn as ∧ r = d1.args ∧ l.length = r.length := by
  cases d1 with
  | appl q g bs =>
      simp only [compareApplCell] at hv
      split at hv
      · split at hv <;> cases hv
      case isFalse hfg =>
        obtain rfl := not_not.mp hfg
        obtain ⟨rfl, rfl⟩ := CompareStep.visit.inj hv
        exact ⟨rfl, rfl, by simp⟩
  | _ => cases hv

/-- The loop goes to the arguments of terms with one functor. -/
theorem compareCell_visit {d0 d1 : Term} {l r : List Term} (h : compareCell d0 d1 = .visit l r) :
    l = d0.args ∧ r = d1.args ∧ l.length = r.length := by
  unfold compareCell at h
  split at h
  case isTrue => exact absurd h CompareStep.ofOut_ne_visit
  case isFalse =>
    split at h
    case isTrue => cases h
    case isFalse =>
      cases d0 using Term.kindCases with
      | var | atom | dbRef => cases h
      | pair p hd tl => exact comparePairCell_visit h
      | appl p f as => exact compareApplCell_visit h
      | _ => exact absurd h CompareStep.ofOut_ne_visit

/-- The loop does not go to the arguments of a term without arguments. -/
theorem compareCell_ne_visit {d0 : Term} (h : d0.args = []) (d1 : Term) (l r : List Term) :
    compareCell d0 d1 ≠ .visit l r := by
  unfold compareCell
  split
  case isTrue => exact CompareStep.ofOut_ne_visit
  case isFalse =>
    split
    case isTrue => rintro ⟨⟩
    case isFalse =>
      cases d0 using Term.kindCases with
      | var | atom | dbRef => rintro ⟨⟩
      | pair => cases h
      | appl p f as => exact absurd h (Term.appl_args_ne_nil p f as)
      | _ => exact CompareStep.ofOut_ne_visit

/-- The cells that remain to be compared, in pairs. -/
abbrev CompareFrame : Type := List (Term × Term)

/-- The cells of the left sides and everything below them. -/
def CompareFrame.left (fr : CompareFrame) : List Term := Term.blockCells (fr.map Prod.fst)

/-- The cells of the right sides and everything below them. -/
def CompareFrame.right (fr : CompareFrame) : List Term := Term.blockCells (fr.map Prod.snd)

theorem CompareFrame.left_cons (d0 d1 : Term) (fr : CompareFrame) :
    CompareFrame.left ((d0, d1) :: fr) = d0.cells ++ fr.left := rfl

theorem CompareFrame.right_cons (d0 d1 : Term) (fr : CompareFrame) :
    CompareFrame.right ((d0, d1) :: fr) = d1.cells ++ fr.right := rfl

theorem CompareFrame.left_zip {l r : List Term} (h : l.length = r.length) :
    CompareFrame.left (l.zip r) = Term.blockCells l := by
  rw [CompareFrame.left, List.map_fst_zip h.le]

theorem CompareFrame.right_zip {l r : List Term} (h : l.length = r.length) :
    CompareFrame.right (l.zip r) = Term.blockCells r := by
  rw [CompareFrame.right, List.map_snd_zip h.ge]

/-- `compare_complex`, from the block it is in and the blocks it will return to. -/
def compareLoop (frame : CompareFrame) (toVisit : List CompareFrame) : ℤ :=
  match frame, toVisit with
  | [], [] => 0
  | [], frame :: toVisit => compareLoop frame toVisit
  | (d0, d1) :: frame, toVisit =>
    match _h : compareCell d0 d1 with
    | .done out => out
    | .next => compareLoop frame toVisit
    | .visit l r => compareLoop (l.zip r) (frame :: toVisit)
termination_by (frame.left.length + (toVisit.flatMap CompareFrame.left).length, toVisit.length)
decreasing_by
  · simp [Prod.lex_def, CompareFrame.left]
  · refine Prod.Lex.left _ _ ?_
    simp only [CompareFrame.left_cons, Term.cells_eq, List.length_append, List.length_cons]
    omega
  · obtain ⟨rfl, -, hlen⟩ := compareCell_visit _h
    refine Prod.Lex.left _ _ ?_
    simp only [CompareFrame.left_cons, Term.cells_eq d0, CompareFrame.left_zip hlen,
      List.flatMap_cons, List.length_append, List.length_cons]
    omega

/-- `compare_complex` on the arguments of two compound terms. -/
def compareComplex (l r : List Term) : ℤ := compareLoop (l.zip r) []

-- ---------------------------------------------------------------------------
-- The top level
-- ---------------------------------------------------------------------------

def Term.isStringTerm : Term → Bool
  | .blob _ (.string _) => true
  | _ => false

/-- The branch of an atom in `compare`. -/
def compareAtomTop (a : Atom) : Term → ℤ
  | .atom b => cmpAtoms a b
  | t2 => if t2.isPrimitiveTerm then 1 else if t2.isStringTerm then 1 else -1

/-- The branch of a string in `compare`. -/
def compareStringTop (s : CString) : Term → ℤ
  | .blob _ (.double _) => 1
  | .blob _ (.longInt _) => 1
  | .blob _ (.bigInt _) => 1
  | .blob _ .dbRef => 1
  | .blob _ (.string s') => strcmp s s'
  | _ => -1

/-- `FunctorDot`. -/
def Functor.isDot (f : Functor) : Bool := f.nameOfFE = atomDot ∧ f.arityOfFE = 2

/-- The branch of a pair in `compare`: the arity of a functor other than
    `FunctorDot` is not looked at. -/
def comparePairTop (h t : Term) : Term → CompareStep
  | .blob _ _ => .done 1
  | .appl _ f as =>
    if f.isDot then .visit [h, t] (List.ofFn as) else .done (strcmp dotName f.nameOfFE.strOfAE)
  | .pair _ h' t' => .visit [h, t] [h', t']
  | _ => .done 1

/-- The test `!(out = ArityOfFunctor(f)) - 2`, which is never zero: the negation
    binds to the assignment alone. -/
def arityTest (out : ℤ) : Bool := (if out = 0 then 1 else 0) - 2 != (0 : ℤ)

/-- The branch of a compound term in `compare`. -/
def compareApplTop (f : Functor) (as : Fin f.arityOfFE → Term) : Term → CompareStep
  | .pair _ _ _ =>
    let out : ℤ := f.arityOfFE
    .done (if arityTest out then strcmp f.nameOfFE.strOfAE dotName else out)
  | .appl _ g bs =>
    let r : ℤ := (f.arityOfFE : ℤ) - g.arityOfFE
    if r ≠ 0 then .done r
    else
      let r := cmpAtoms f.nameOfFE g.nameOfFE
      if r ≠ 0 then .done r else .visit (List.ofFn as) (List.ofFn bs)
  | _ => .done 1

/-- The branches of `compare` on two different words that are not variables. The
    branches of integers, doubles, big numbers and references are those of the loop. -/
def compareTopNonvar (t1 t2 : Term) : CompareStep :=
  match t1 with
  | .var _ => .next
  | .atom a => .done (compareAtomTop a t2)
  | .int n => .done (compareIntCell (intOfTerm n) t2)
  | .pair _ h t => comparePairTop h t t2
  | .blob _ (.double x) => .done (compareFloatCell x t2)
  | .blob _ (.longInt n) => .done (compareLongIntCell n t2)
  | .blob _ (.bigInt b) => .done (compareBigIntCell b t2)
  | .blob _ (.string s) => .done (compareStringTop s t2)
  | .blob p .dbRef => .done (compareRefCell p t2)
  | .appl _ f as => compareApplTop f as t2

/-- `compare` up to its calls of `compare_complex`. -/
def compareTop (t1 t2 : Term) : CompareStep :=
  if t1 = t2 then .done 0
  else if t1.isVarTerm || t2.isVarTerm then .done (compareVars t1 t2)
  else compareTopNonvar t1 t2

/-- `compare`. -/
def Term.compare (t1 t2 : Term) : ℤ :=
  match compareTop t1 t2 with
  | .done out => out
  | .next => 0
  | .visit l r => compareComplex l r

/-- `Yap_compare_terms`. -/
def compareTerms (d0 d1 : Term) : ℤ := d0.compare d1

end Yap
