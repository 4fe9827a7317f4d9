-- SUMMARY: The loop over arguments decides lexicographically: its result has the sign of the preorder comparison of the cells, by the code's own comparison of two cells.
import Yap.Compare.Code
import Yap.Compare.Order

/-!
# The loop over arguments

Whatever the comparison of two cells answers, the loop gives its answer on the
first pair of cells, in preorder, that it tells apart.
-/

namespace Yap

-- ---------------------------------------------------------------------------
-- Strings
-- ---------------------------------------------------------------------------

theorem toNat_pos_of_ne_zero {b : UInt8} (h : b ≠ 0) : 0 < b.toNat :=
  Nat.pos_of_ne_zero fun hb => h (UInt8.toNat_inj.mp hb)

theorem signOf_strcmpBytes {as bs : List UInt8} (has : 0 ∉ as) (hbs : 0 ∉ bs) :
    signOf (strcmpBytes as bs) =
      List.compareLex compare (as.map UInt8.toNat) (bs.map UInt8.toNat) := by
  induction as generalizing bs with
  | nil =>
      cases bs with
      | nil => rfl
      | cons b bs =>
          have hb := toNat_pos_of_ne_zero (List.ne_of_not_mem_cons hbs).symm
          rw [strcmpBytes, signOf.eq_lt.mpr (by omega)]
          rfl
  | cons a as ih =>
      have ha := toNat_pos_of_ne_zero (List.ne_of_not_mem_cons has).symm
      cases bs with
      | nil =>
          rw [strcmpBytes, signOf.eq_gt.mpr (by omega)]
          rfl
      | cons b bs =>
          rw [List.map_cons, List.map_cons, List.compareLex_cons_cons, strcmpBytes]
          split
          case isTrue hab =>
            rw [hab, compare_eq_iff_eq.mpr rfl,
              ih (List.not_mem_of_not_mem_cons has) (List.not_mem_of_not_mem_cons hbs)]
            rfl
          case isFalse hab =>
            have hne : a.toNat ≠ b.toNat := fun h => hab (UInt8.toNat_inj.mp h)
            rcases lt_or_gt_of_ne hne with hlt | hgt
            · rw [compare_lt_iff_lt.mpr hlt, signOf.eq_lt.mpr (by omega)]
              rfl
            · rw [compare_gt_iff_gt.mpr hgt, signOf.eq_gt.mpr (by omega)]
              rfl

/-- `strcmp` is the lexicographic order of the bytes. -/
theorem signOf_strcmp (s t : CString) :
    signOf (strcmp s t) = List.compareLex compare s.codes t.codes :=
  signOf_strcmpBytes s.nul_free t.nul_free

theorem strcmp_eq_zero {s t : CString} : strcmp s t = 0 ↔ s = t := by
  rw [← signOf.eq_eq, signOf_strcmp, Lex.compareLex_eq_iff, CString.codes_inj]

-- ---------------------------------------------------------------------------
-- One pair of cells
-- ---------------------------------------------------------------------------

/-- The answer of a step, where a step that goes on has not told the terms apart. -/
def CompareStep.order : CompareStep → Ordering
  | .done out => signOf out
  | _ => .eq

/-- The order of two cells among arguments. -/
def cellOrder (d0 d1 : Term) : Ordering := (compareCell d0 d1).order

theorem CompareStep.ofOut_order (out : ℤ) : (ofOut out).order = signOf out := by
  unfold ofOut
  split
  · rfl
  · simp_all [order]

theorem compareCell_self (t : Term) : compareCell t t = .next := by
  cases t <;> simp [compareCell, compareVars, Term.isVarTerm, CompareStep.ofOut]

theorem cellOrder_self (t : Term) : cellOrder t t = .eq := by
  rw [cellOrder, compareCell_self]
  rfl

theorem CompareStep.ofOut_eq_done {n out : ℤ} (h : ofOut n = .done out) : out ≠ 0 := by
  unfold ofOut at h
  split at h
  · obtain rfl := CompareStep.done.inj h
    assumption
  · cases h

theorem CompareStep.ofOut_eq_next {n : ℤ} (h : ofOut n = .next) : n = 0 := by
  unfold ofOut at h
  split at h
  · cases h
  · simp_all

theorem compareAtomCell_ne_zero {a : Atom} {d1 : Term} (h : .atom a ≠ d1) :
    compareAtomCell a d1 ≠ 0 := by
  cases d1 with
  | atom b =>
      rw [compareAtomCell, cmpAtoms, ne_eq, strcmp_eq_zero]
      intro hname
      exact h (congrArg Term.atom (Atom.ext hname))
  | _ => simp [compareAtomCell, Term.isPrimitiveTerm]

theorem compareRefCell_ne_zero {p : Addr} {d1 : Term} (h : .blob p .dbRef ≠ d1) :
    compareRefCell p d1 ≠ 0 := by
  cases d1 with
  | blob q b =>
      cases b with
      | dbRef =>
          have hne : q ≠ p := fun hpq => h (by rw [hpq])
          exact sub_ne_zero.mpr (by exact_mod_cast hne)
      | _ => simp [compareRefCell]
  | _ => simp [compareRefCell]

theorem comparePairCell_done {h t d1 : Term} {out : ℤ} (hd : comparePairCell h t d1 = .done out) :
    out ≠ 0 := by
  cases d1 with
  | pair => cases hd
  | appl q f bs =>
      simp only [comparePairCell] at hd
      split at hd
      case isTrue harity =>
        obtain rfl := CompareStep.done.inj hd
        rw [ne_eq, strcmp_eq_zero]
        intro hname
        exact f.not_list ⟨Atom.ext hname.symm, by omega⟩
      case isFalse harity =>
        obtain rfl := CompareStep.done.inj hd
        exact harity
  | _ =>
      obtain rfl := CompareStep.done.inj hd
      decide

theorem cmpAtoms_eq_zero {a b : Atom} : cmpAtoms a b = 0 ↔ a = b := by
  rw [cmpAtoms, strcmp_eq_zero, Atom.ext_iff]

theorem compareApplCell_done {f : Functor} {as : Fin f.arityOfFE → Term} {d1 : Term} {out : ℤ}
    (hd : compareApplCell f as d1 = .done out) : out ≠ 0 := by
  cases d1 with
  | appl q g bs =>
      simp only [compareApplCell] at hd
      split at hd
      case isTrue hfg =>
        split at hd <;> obtain rfl := CompareStep.done.inj hd
        case isTrue harity =>
          rw [ne_eq, cmpAtoms_eq_zero]
          intro hname
          exact hfg (Functor.ext hname (by omega))
        case isFalse harity => exact harity
      case isFalse => cases hd
  | _ =>
      obtain rfl := CompareStep.done.inj hd
      decide

theorem comparePairCell_ne_next {h t d1 : Term} : comparePairCell h t d1 ≠ .next := by
  cases d1 with
  | appl q f bs =>
      simp only [comparePairCell]
      split <;> rintro ⟨⟩
  | _ => rintro ⟨⟩

theorem compareApplCell_ne_next {f : Functor} {as : Fin f.arityOfFE → Term} {d1 : Term} :
    compareApplCell f as d1 ≠ .next := by
  cases d1 with
  | appl q g bs =>
      simp only [compareApplCell]
      split
      · split <;> rintro ⟨⟩
      · rintro ⟨⟩
  | _ => rintro ⟨⟩

/-- The loop ends only at terms that it has told apart. -/
theorem compareCell_done {d0 d1 : Term} {out : ℤ} (h : compareCell d0 d1 = .done out) : out ≠ 0 := by
  unfold compareCell at h
  split at h
  case isTrue => exact CompareStep.ofOut_eq_done h
  case isFalse =>
    split at h
    case isTrue => cases h
    case isFalse hne =>
      cases d0 using Term.kindCases with
      | var => cases h
      | atom a => exact CompareStep.done.inj h ▸ compareAtomCell_ne_zero hne
      | pair => exact comparePairCell_done h
      | appl => exact compareApplCell_done h
      | dbRef => exact CompareStep.done.inj h ▸ compareRefCell_ne_zero hne
      | _ => exact CompareStep.ofOut_eq_done h

/-- The loop goes past equal words and past undivided terms. -/
theorem compareCell_next {d0 d1 : Term} (h : compareCell d0 d1 = .next) :
    d0 = d1 ∨ (d0.args = [] ∧ d1.args = []) := by
  unfold compareCell at h
  split at h
  case isTrue =>
    have hout := CompareStep.ofOut_eq_next h
    right
    cases d0 <;> cases d1 <;> simp_all [compareVars, Term.args, Term.isVarTerm]
  case isFalse =>
    split at h
    case isTrue heq => exact .inl heq
    case isFalse hne =>
      right
      cases d0 using Term.kindCases with
      | var v => simp_all [Term.isVarTerm]
      | atom | dbRef => cases h
      | pair => exact absurd h comparePairCell_ne_next
      | appl => exact absurd h compareApplCell_ne_next
      | int n =>
          have hout := CompareStep.ofOut_eq_next h
          exact ⟨rfl, by cases d1 <;> simp_all [compareIntCell, Term.args]⟩
      | double p x =>
          have hout := CompareStep.ofOut_eq_next h
          exact ⟨rfl, by cases d1 <;> simp_all [compareFloatCell, Term.args]⟩
      | longInt p n =>
          have hout := CompareStep.ofOut_eq_next h
          exact ⟨rfl, by cases d1 <;> simp_all [compareLongIntCell, Term.args]⟩
      | string p s =>
          have hout := CompareStep.ofOut_eq_next h
          exact ⟨rfl, by cases d1 <;> simp_all [compareStringCell, Term.args]⟩
      | _ =>
          have hout := CompareStep.ofOut_eq_next h
          exact ⟨rfl, by cases d1 <;> simp_all [compareBigIntCell, Term.args]⟩

-- ---------------------------------------------------------------------------
-- The loop
-- ---------------------------------------------------------------------------

/-- Words that are not told apart and not entered do not decide. -/
theorem compareLex_next {d0 d1 : Term} (h : compareCell d0 d1 = .next) (ls rs : List Term) :
    List.compareLex cellOrder (d0.cells ++ ls) (d1.cells ++ rs) =
      List.compareLex cellOrder ls rs := by
  rcases compareCell_next h with rfl | ⟨hl, hr⟩
  · exact Lex.compareLex_append_left (fun t _ => cellOrder_self t) ls rs
  · have heq : cellOrder d0 d1 = .eq := by rw [cellOrder, h]; rfl
    rw [Term.cells_eq, Term.cells_eq d1, hl, hr]
    simp [List.compareLex_cons_cons, heq]

/-- The loop answers as the lexicographic comparison of the cells. -/
theorem signOf_compareLoop (frame : CompareFrame) (toVisit : List CompareFrame) :
    signOf (compareLoop frame toVisit) =
      List.compareLex cellOrder (frame.left ++ toVisit.flatMap CompareFrame.left)
        (frame.right ++ toVisit.flatMap CompareFrame.right) := by
  fun_induction compareLoop frame toVisit with
  | case1 => rfl
  | case2 frame toVisit ih => simpa [CompareFrame.left, CompareFrame.right] using ih
  | case3 d0 d1 frame toVisit out h =>
      have hne : signOf out ≠ .eq := fun heq => compareCell_done h (signOf.eq_eq.mp heq)
      have hcell : cellOrder d0 d1 = signOf out := by rw [cellOrder, h]; rfl
      rw [CompareFrame.left_cons, CompareFrame.right_cons, Term.cells_eq, Term.cells_eq d1]
      simp only [List.cons_append, List.compareLex_cons_cons, hcell]
      cases hout : signOf out with
      | eq => exact absurd hout hne
      | lt | gt => rfl
  | case4 d0 d1 frame toVisit h ih =>
      rw [ih, CompareFrame.left_cons, CompareFrame.right_cons, List.append_assoc,
        List.append_assoc, compareLex_next h]
  | case5 d0 d1 frame toVisit l r h ih =>
      have heq : cellOrder d0 d1 = .eq := by rw [cellOrder, h]; rfl
      obtain ⟨rfl, rfl, hlen⟩ := compareCell_visit h
      rw [ih, CompareFrame.left_zip hlen, CompareFrame.right_zip hlen, CompareFrame.left_cons,
        CompareFrame.right_cons, Term.cells_eq d0, Term.cells_eq d1]
      simp [List.compareLex_cons_cons, heq]

/-- `compare_complex` compares two blocks of cells. -/
theorem signOf_compareComplex {l r : List Term} (h : l.length = r.length) :
    signOf (compareComplex l r) =
      List.compareLex cellOrder (Term.blockCells l) (Term.blockCells r) := by
  rw [compareComplex, signOf_compareLoop, CompareFrame.left_zip h, CompareFrame.right_zip h]
  simp

theorem compareLoop_nil : compareLoop [] [] = 0 := by rw [compareLoop]

theorem compareLoop_return (frame : CompareFrame) (toVisit : List CompareFrame) :
    compareLoop [] (frame :: toVisit) = compareLoop frame toVisit := by rw [compareLoop]

theorem compareLoop_done {d0 d1 : Term} {out : ℤ} (h : compareCell d0 d1 = .done out)
    (frame : CompareFrame) (toVisit : List CompareFrame) :
    compareLoop ((d0, d1) :: frame) toVisit = out := by
  rw [compareLoop]
  split <;> simp_all

theorem compareLoop_next {d0 d1 : Term} (h : compareCell d0 d1 = .next)
    (frame : CompareFrame) (toVisit : List CompareFrame) :
    compareLoop ((d0, d1) :: frame) toVisit = compareLoop frame toVisit := by
  rw [compareLoop]
  split <;> simp_all

theorem compareLoop_visit {d0 d1 : Term} {l r : List Term} (h : compareCell d0 d1 = .visit l r)
    (frame : CompareFrame) (toVisit : List CompareFrame) :
    compareLoop ((d0, d1) :: frame) toVisit = compareLoop (l.zip r) (frame :: toVisit) := by
  rw [compareLoop]
  split <;> simp_all

/-- An answer that is not zero decides. -/
theorem signOf_then {out : ℤ} (h : out ≠ 0) (o : Ordering) : (signOf out).then o = signOf out := by
  cases hout : signOf out with
  | eq => exact absurd (signOf.eq_eq.mp hout) h
  | lt | gt => rfl

/-- The blocks to return to decide after the block the loop is in. -/
theorem signOf_compareLoop_append (frame : CompareFrame) (toVisit toVisit' : List CompareFrame) :
    signOf (compareLoop frame (toVisit ++ toVisit')) =
      (signOf (compareLoop frame toVisit)).then (signOf (compareLoop [] toVisit')) := by
  fun_induction compareLoop frame toVisit with
  | case1 => rfl
  | case2 frame toVisit ih =>
      rw [List.cons_append, compareLoop_return]
      exact ih
  | case3 d0 d1 frame toVisit out h =>
      rw [compareLoop_done h, signOf_then (compareCell_done h)]
  | case4 d0 d1 frame toVisit h ih =>
      rw [compareLoop_next h]
      exact ih
  | case5 d0 d1 frame toVisit l r h ih =>
      rw [compareLoop_visit h]
      exact ih

/-- The order of two terms among arguments. -/
def argOrder (d0 d1 : Term) : Ordering := signOf (compareLoop [(d0, d1)] [])

theorem argOrder_of_visit {d0 d1 : Term} {l r : List Term} (h : compareCell d0 d1 = .visit l r) :
    argOrder d0 d1 = signOf (compareComplex l r) := by
  rw [argOrder, compareLoop_visit h, compareComplex]
  have happ := signOf_compareLoop_append (l.zip r) [] [[]]
  rw [List.nil_append, compareLoop_return, compareLoop_nil] at happ
  rw [happ]
  cases signOf (compareLoop (l.zip r) []) <;> rfl

theorem argOrder_of_not_visit {d0 d1 : Term} (h : ∀ l r, compareCell d0 d1 ≠ .visit l r) :
    argOrder d0 d1 = cellOrder d0 d1 := by
  rw [argOrder, cellOrder]
  cases hstep : compareCell d0 d1 with
  | done out => rw [compareLoop_done hstep]; rfl
  | next => rw [compareLoop_next hstep, compareLoop_nil]; rfl
  | visit l r => exact absurd hstep (h l r)

@[simp] theorem argOrder_self (d : Term) : argOrder d d = .eq := by
  rw [argOrder_of_not_visit (by simp [compareCell_self]), cellOrder_self]

/-- A pair of cells decides before the cells that come after it. -/
theorem signOf_compareLoop_cons (d0 d1 : Term) (frame : CompareFrame) (toVisit : List CompareFrame) :
    signOf (compareLoop ((d0, d1) :: frame) toVisit) =
      (argOrder d0 d1).then (signOf (compareLoop frame toVisit)) := by
  cases h : compareCell d0 d1 with
  | done out =>
      rw [argOrder, compareLoop_done h, compareLoop_done h, signOf_then (compareCell_done h)]
  | next =>
      rw [argOrder, compareLoop_next h, compareLoop_next h, compareLoop_nil]
      rfl
  | visit l r =>
      rw [argOrder_of_visit h, compareLoop_visit h, compareComplex]
      have happ := signOf_compareLoop_append (l.zip r) [] (frame :: toVisit)
      rw [List.nil_append, compareLoop_return] at happ
      exact happ

/-- The first pair of arguments that differ decides. -/
theorem signOf_compareComplex_args {l r : List Term} (h : l.length = r.length) :
    signOf (compareComplex l r) = List.compareLex argOrder l r := by
  unfold compareComplex
  induction l generalizing r with
  | nil =>
      obtain rfl := List.length_eq_zero_iff.mp h.symm
      rw [List.zip_nil_left, compareLoop_nil]
      rfl
  | cons d0 l ih =>
      obtain ⟨d1, r, rfl⟩ := List.exists_cons_of_length_eq_add_one h.symm
      rw [List.zip_cons_cons, signOf_compareLoop_cons, ih (by simpa using h),
        List.compareLex_cons_cons]

end Yap
