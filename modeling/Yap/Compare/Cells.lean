-- SUMMARY: The code's comparison of two cells against the keys of the standard order: where the two agree among arguments and at the top level, and the defects where they do not.
import Yap.Compare.Loop

/-!
# Comparison of two cells

Among arguments and at the top level the code has its own branch for every pair
of kinds. Off the defects named here a branch answers as the keys compare.
-/

namespace Yap

open Term

-- ---------------------------------------------------------------------------
-- Numbers
-- ---------------------------------------------------------------------------

/-- The machine integer in a cell, tagged or boxed. -/
def Term.machineInt? : Term → Option Word
  | .int n => some (intOfTerm n)
  | .blob _ (.longInt n) => some n.val
  | _ => none

/-- The difference of the two machine integers does not fit a word. -/
def intDefect (d0 d1 : Term) : Bool :=
  match d0.machineInt?, d1.machineInt? with
  | some x, some y => !decide (Word.Fits (x.toInt - y.toInt))
  | _, _ => false

/-- The key of a machine integer. -/
def wordKey (n : Word) : Key := ⟨4, n.toInt, []⟩

theorem signOf_wordSub {x y : Word} (h : Word.Fits (x.toInt - y.toInt)) :
    signOf (x - y).toInt = Key.cmp (wordKey x) (wordKey y) := by
  rw [wordKey, wordKey, Key.cmp_value, compare_intCast]
  exact (signOf.wordSub_eq_iff x y).mpr h

theorem signOf_gmpTcmpIntBig (n : Word) (b : BigNum) :
    signOf (gmpTcmpIntBig n b) = Key.cmp (wordKey n) b.key := by
  cases b with
  | int z =>
      rw [wordKey, BigNum.key, Key.cmp_value, compare_intCast, gmpTcmpIntBig, signOf.neg,
        signOf_mpzCmp, ← Std.OrientedCmp.eq_swap]
  | rat q => rfl

theorem signOf_gmpTcmpBigInt (b : BigNum) (n : Word) :
    signOf (gmpTcmpBigInt b n) = Key.cmp b.key (wordKey n) := by
  cases b with
  | int z => rw [wordKey, BigNum.key, Key.cmp_value, compare_intCast, gmpTcmpBigInt, signOf_mpzCmp]
  | rat q => rfl

theorem signOf_gmpTcmpBigBig (b c : BigNum) : signOf (gmpTcmpBigBig b c) = Key.cmp b.key c.key := by
  cases b with
  | int z =>
      cases c with
      | int z' => rw [BigNum.key, BigNum.key, Key.cmp_value, compare_intCast, gmpTcmpBigBig, signOf_mpzCmp]
      | rat q => rfl
  | rat q =>
      cases c with
      | int z => rfl
      | rat q' => rw [BigNum.key, BigNum.key, Key.cmp_value, gmpTcmpBigBig, signOf_mpqCmp]

theorem key_int (n : BitVec 58) : (Term.int n).key = wordKey (intOfTerm n) := by
  rw [key, wordKey, intOfTerm_toInt]

theorem compareIntCell_eq {n : Word} {t : Term} (hvar : t.rank ≠ 0)
    (hfits : ∀ m, t.machineInt? = some m → Word.Fits (n.toInt - m.toInt)) :
    signOf (compareIntCell n t) = Key.cmp (wordKey n) t.key := by
  cases t using kindCases with
  | var => exact absurd rfl hvar
  | int m => rw [key_int]; exact signOf_wordSub (hfits _ rfl)
  | longInt p m => exact signOf_wordSub (hfits _ rfl)
  | bigInt p z => exact signOf_gmpTcmpIntBig n (.int z)
  | _ => rfl

theorem compareLongIntCell_eq {n : LongInt} {t : Term} (hvar : t.rank ≠ 0)
    (hfits : ∀ m, t.machineInt? = some m → Word.Fits (n.val.toInt - m.toInt)) :
    signOf (compareLongIntCell n t) = Key.cmp (wordKey n.val) t.key := by
  have hbranch : compareLongIntCell n t = compareIntCell n.val t := by
    cases t using kindCases <;> rfl
  rw [hbranch]
  exact compareIntCell_eq hvar hfits

theorem compareBigIntCell_eq (b : BigNum) {t : Term} (hvar : t.rank ≠ 0) :
    signOf (compareBigIntCell b t) = Key.cmp b.key t.key := by
  cases t using kindCases with
  | var => exact absurd rfl hvar
  | int m => rw [key_int]; exact signOf_gmpTcmpBigInt b _
  | longInt p m => exact signOf_gmpTcmpBigInt b m.val
  | bigInt p z => exact signOf_gmpTcmpBigBig b (.int z)
  | bigRat p q => exact signOf_gmpTcmpBigBig b (.rat q)
  | _ => cases b <;> rfl

/-- Two boxes hold doubles whose difference has no sign, or the sign does not tell
    them apart. -/
def doubleDefect : Term → Term → Bool
  | .blob p (.double x), .blob q (.double y) =>
    (p != q || x != y) && !(decide (Binary64.HasDifference x y) && (x.key != y.key || x == y))
  | _, _ => false

theorem signOf_rfloat {x : Binary64} (h : x.isNaN = false) : signOf (rfloat x) = signOf x.key := by
  have hpos : Binary64.zero.lt x = true ↔ 0 < x.key := Binary64.lt_iff rfl h
  have hzero : x.eq .zero = true ↔ x.key = 0 := Binary64.eq_iff h rfl
  simp only [rfloat, hpos, hzero]
  rcases lt_trichotomy x.key 0 with hlt | heq | hgt
  · rw [if_neg (by omega), if_neg (by omega), signOf.eq_lt.mpr hlt]
    rfl
  · rw [if_neg (by omega), if_pos heq, heq]
  · rw [if_pos hgt, signOf.eq_gt.mpr hgt]
    rfl

/-- The sign of a difference orders doubles, except the two zeros. -/
theorem signOf_rfloat_sub {x y : Binary64} (h : Binary64.HasDifference x y)
    (hkey : x.key = y.key → x = y) :
    signOf (rfloat (x.sub y)) = Key.cmp ⟨2, x.totalKey, []⟩ ⟨2, y.totalKey, []⟩ := by
  obtain ⟨hnan, hsign⟩ := Binary64.signOf_key_sub h
  rw [signOf_rfloat hnan, hsign, Key.cmp_value, compare_intCast, Binary64.compare_totalKey hkey]

theorem compareFloatCell_eq {x : Binary64} {t : Term} (hvar : t.rank ≠ 0)
    (hdiff : ∀ p y, t = .blob p (.double y) → Binary64.HasDifference x y ∧ (x.key = y.key → x = y)) :
    signOf (compareFloatCell x t) = Key.cmp ⟨2, x.totalKey, []⟩ t.key := by
  cases t using kindCases with
  | var => exact absurd rfl hvar
  | double p y =>
      obtain ⟨hd, hkey⟩ := hdiff p y rfl
      exact signOf_rfloat_sub hd hkey
  | _ => rfl

-- ---------------------------------------------------------------------------
-- Strings, atoms and references
-- ---------------------------------------------------------------------------

theorem compareStringCell_eq (s : CString) {t : Term} (hvar : t.rank ≠ 0) :
    signOf (compareStringCell s t) = Key.cmp ⟨5, 0, s.codes⟩ t.key := by
  cases t using kindCases with
  | var => exact absurd rfl hvar
  | string p s' => rw [compareStringCell, key, Key.cmp_text, signOf_strcmp]
  | _ => rfl

/-- At the top level a string is not told from a tagged integer. -/
theorem compareStringTop_eq (s : CString) {t : Term} (hvar : t.rank ≠ 0) (hint : t.isIntTerm = false) :
    signOf (compareStringTop s t) = Key.cmp ⟨5, 0, s.codes⟩ t.key := by
  cases t using kindCases with
  | var => exact absurd rfl hvar
  | int => cases hint
  | string p s' => rw [compareStringTop, key, Key.cmp_text, signOf_strcmp]
  | _ => rfl

theorem compareAtomCell_eq (a : Atom) {t : Term} (hvar : t.rank ≠ 0) :
    signOf (compareAtomCell a t) = Key.cmp ⟨6, 0, a.strOfAE.codes⟩ t.key := by
  cases t using kindCases with
  | var => exact absurd rfl hvar
  | atom b => rw [compareAtomCell, key, Key.cmp_text, cmpAtoms, signOf_strcmp]
  | _ => rfl

/-- The extra test of the top level is never reached by a string. -/
theorem compareAtomTop_eq_cell (a : Atom) (t : Term) : compareAtomTop a t = compareAtomCell a t := by
  cases t using kindCases <;> rfl

theorem compareRefCell_eq (p : Addr) {t : Term} (hvar : t.rank ≠ 0) :
    signOf (compareRefCell p t) = Key.cmp ⟨1, -p, []⟩ t.key := by
  cases t using kindCases with
  | var => exact absurd rfl hvar
  | dbRef q =>
      rw [compareRefCell, signOf.sub, key, Key.cmp_value]
      exact signOf.compare_congr (fun h => by simpa using h)
        (fun h => by simpa [eq_comm] using h) (fun h => by simpa using h)
  | _ => rfl

-- ---------------------------------------------------------------------------
-- Compound terms
-- ---------------------------------------------------------------------------

theorem compare_natCast (m n : ℕ) : compare (m : ℚ) (n : ℚ) = compare (m : ℤ) (n : ℤ) :=
  signOf.compare_congr (fun h => by exact_mod_cast h) (fun h => by exact_mod_cast h)
    (fun h => by exact_mod_cast h)

/-- Functors are ordered by arity and then by name. -/
theorem cmp_functorKey (a b : Atom) (m n : ℕ) :
    Key.cmp (functorKey a m) (functorKey b n) =
      (signOf ((m : ℤ) - n)).then (signOf (cmpAtoms a b)) := by
  simp only [functorKey, Key.cmp_of_rank_eq, signOf.sub, cmpAtoms, signOf_strcmp, compare_natCast]

theorem order_arity_name (a b : Atom) (m n : ℕ) :
    (if (m : ℤ) - n = 0 then CompareStep.done (cmpAtoms a b) else .done (m - n)).order =
      Key.cmp (functorKey a m) (functorKey b n) := by
  rw [cmp_functorKey]
  split
  case isTrue h =>
    rw [h]
    rfl
  case isFalse h =>
    have hne : signOf ((m : ℤ) - n) ≠ .eq := fun heq => h (signOf.eq_eq.mp heq)
    change signOf ((m : ℤ) - n) = _
    cases hs : signOf ((m : ℤ) - n) with
    | eq => exact absurd hs hne
    | lt | gt => rfl

theorem comparePairCell_eq (h t : Term) {d1 : Term} (hvar : d1.rank ≠ 0) :
    (comparePairCell h t d1).order = Key.cmp dotKey d1.key := by
  cases d1 using kindCases with
  | var => exact absurd rfl hvar
  | pair => exact (Key.cmp_self _).symm
  | appl p f as => exact order_arity_name atomDot f.nameOfFE 2 f.arityOfFE
  | _ => rfl

/-- Among arguments a compound term is taken to follow every pair and to precede
    every box. -/
def argCompoundDefect : Term → Term → Bool
  | .appl _ f _, .pair _ _ _ => Key.cmp f.key dotKey == .lt
  | .appl _ _ _, .blob _ _ => true
  | _, _ => false

theorem Functor.key_ne_dotKey (f : Functor) : Key.cmp f.key dotKey ≠ .eq := by
  intro h
  exact f.not_list (functorKey_inj.mp (Std.LawfulEqCmp.eq_of_compare h))

theorem compareApplCell_eq {p : Addr} {f : Functor} {as : Fin f.arityOfFE → Term} {d1 : Term}
    (hvar : d1.rank ≠ 0) (hdef : argCompoundDefect (.appl p f as) d1 = false) :
    (compareApplCell f as d1).order = Key.cmp f.key d1.key := by
  cases d1 using kindCases with
  | var => exact absurd rfl hvar
  | pair q h t =>
      have hlt : Key.cmp f.key dotKey ≠ .lt := by simpa [argCompoundDefect] using hdef
      change Ordering.gt = Key.cmp f.key dotKey
      cases hk : Key.cmp f.key dotKey with
      | gt => rfl
      | lt => exact absurd hk hlt
      | eq => exact absurd hk f.key_ne_dotKey
  | appl q g bs =>
      simp only [compareApplCell]
      split
      case isTrue => exact order_arity_name f.nameOfFE g.nameOfFE f.arityOfFE g.arityOfFE
      case isFalse hfg =>
        obtain rfl := not_not.mp hfg
        exact (Key.cmp_self _).symm
  | int | atom => rfl
  | _ => cases hdef

/-- At the top level a pair and another compound term are compared by name only,
    and a string is taken to precede every tagged integer. -/
def topKindDefect : Term → Term → Bool
  | .pair _ _ _, .appl _ f _ => signOf (strcmp dotName f.nameOfFE.strOfAE) != Key.cmp dotKey f.key
  | .appl _ f _, .pair _ _ _ => signOf (strcmp f.nameOfFE.strOfAE dotName) != Key.cmp f.key dotKey
  | .blob _ (.string _), .int _ => true
  | _, _ => false

theorem Functor.isDot_eq_false (f : Functor) : f.isDot = false := by
  simpa [isDot] using fun h ha => f.not_list ⟨h, ha⟩

theorem arityTest_eq_true (n : ℕ) : arityTest n = true := by
  unfold arityTest
  split <;> rfl

theorem comparePairTop_eq {p : Addr} {h t d1 : Term} (hvar : d1.rank ≠ 0)
    (hdef : topKindDefect (.pair p h t) d1 = false) :
    (comparePairTop h t d1).order = Key.cmp dotKey d1.key := by
  cases d1 using kindCases with
  | var => exact absurd rfl hvar
  | pair => exact (Key.cmp_self _).symm
  | appl q f as =>
      have hsign : signOf (strcmp dotName f.nameOfFE.strOfAE) = Key.cmp dotKey f.key := by
        simpa [topKindDefect] using hdef
      simp only [comparePairTop, f.isDot_eq_false]
      exact hsign
  | _ => rfl

theorem compareApplTop_eq {p : Addr} {f : Functor} {as : Fin f.arityOfFE → Term} {d1 : Term}
    (hvar : d1.rank ≠ 0) (hdef : topKindDefect (.appl p f as) d1 = false) :
    (compareApplTop f as d1).order = Key.cmp f.key d1.key := by
  cases d1 using kindCases with
  | var => exact absurd rfl hvar
  | pair q h t =>
      have hsign : signOf (strcmp f.nameOfFE.strOfAE dotName) = Key.cmp f.key dotKey := by
        simpa [topKindDefect] using hdef
      simp only [compareApplTop, arityTest_eq_true, if_true]
      exact hsign
  | appl q g bs =>
      rw [key, Functor.key, Functor.key, cmp_functorKey]
      simp only [compareApplTop]
      split
      case isTrue hr =>
        have hne : signOf ((f.arityOfFE : ℤ) - g.arityOfFE) ≠ .eq := fun h => hr (signOf.eq_eq.mp h)
        change signOf ((f.arityOfFE : ℤ) - g.arityOfFE) = _
        cases hs : signOf ((f.arityOfFE : ℤ) - g.arityOfFE) with
        | eq => exact absurd hs hne
        | lt | gt => rfl
      case isFalse hr =>
        rw [not_not.mp hr]
        split
        case isTrue hname => rfl
        case isFalse hname => rw [not_not.mp hname]; rfl
  | _ => rfl

-- ---------------------------------------------------------------------------
-- All kinds
-- ---------------------------------------------------------------------------

/-- The loop does not compare these two cells by their keys. -/
def argDefect (d0 d1 : Term) : Bool :=
  intDefect d0 d1 || doubleDefect d0 d1 || argCompoundDefect d0 d1

/-- `compare` does not compare these two terms by their keys. -/
def topDefect (t1 t2 : Term) : Bool :=
  intDefect t1 t2 || doubleDefect t1 t2 || topKindDefect t1 t2

/-- The order of two terms by the first step of `compare`. -/
def topOrder (t1 t2 : Term) : Ordering := (compareTop t1 t2).order

theorem fits_of_intDefect {d0 d1 : Term} {x : Word} (h : intDefect d0 d1 = false)
    (hx : d0.machineInt? = some x) :
    ∀ m, d1.machineInt? = some m → Word.Fits (x.toInt - m.toInt) := by
  intro m hm
  simpa [intDefect, hx, hm] using h

theorem difference_of_doubleDefect {p : Addr} {x : Binary64} {d1 : Term}
    (h : doubleDefect (.blob p (.double x)) d1 = false) (hne : .blob p (.double x) ≠ d1) :
    ∀ q y, d1 = .blob q (.double y) → Binary64.HasDifference x y ∧ (x.key = y.key → x = y) := by
  rintro q y rfl
  have hwords : p ≠ q ∨ x ≠ y := by
    by_contra hboth
    obtain ⟨hp, hx⟩ := not_or.mp hboth
    exact hne (by rw [not_not.mp hp, not_not.mp hx])
  have hwordsTest : (p != q || x != y) = true := by simpa using hwords
  rw [doubleDefect, hwordsTest, Bool.true_and, Bool.not_eq_false'] at h
  simpa [← imp_iff_not_or] using h

theorem isVarTerm_iff {t : Term} : t.isVarTerm = true ↔ ∃ v, t = .var v := by
  cases t <;> simp [isVarTerm]

theorem rank_ne_zero {t : Term} (h : t.isVarTerm = false) : t.rank ≠ 0 := by
  intro hrank
  obtain ⟨v, rfl⟩ := t.rankForms.isVar hrank
  cases h

/-- A variable precedes every term that is not one. -/
theorem cmp_var_key {v : Addr} {t : Term} (h : t.isVarTerm = false) :
    Key.cmp (Term.var v).key t.key = .lt := by
  have hne : (0 : ℕ) ≠ t.key.rank := (rank_ne_zero h).symm
  rw [Key.cmp_of_rank_ne hne, compare_lt_iff_lt]
  exact Nat.pos_of_ne_zero (rank_ne_zero h)

theorem signOf_addrSub (v w : Addr) :
    signOf ((v : ℤ) - w) = Key.cmp (Term.var v).key (Term.var w).key := by
  rw [signOf.sub, key, key, Key.cmp_value, compare_natCast]

/-- Off the defects the branches of the loop compare by the keys. -/
theorem compareNonvar_eq {d0 d1 : Term} (hne : d0 ≠ d1) (h0 : d0.isVarTerm = false)
    (h1 : d1.isVarTerm = false) (hdef : argDefect d0 d1 = false) :
    (compareNonvar d0 d1).order = Key.cmp d0.key d1.key := by
  simp only [argDefect, Bool.or_eq_false_iff] at hdef
  obtain ⟨⟨hint, hdouble⟩, hcompound⟩ := hdef
  have hrank := rank_ne_zero h1
  cases d0 using kindCases with
  | var => cases h0
  | int n =>
      rw [key_int]
      exact (CompareStep.ofOut_order _).trans (compareIntCell_eq hrank (fits_of_intDefect hint rfl))
  | atom a => exact compareAtomCell_eq a hrank
  | pair p h t => exact comparePairCell_eq h t hrank
  | appl p f as => exact compareApplCell_eq hrank hcompound
  | dbRef p => exact compareRefCell_eq p hrank
  | double p x =>
      exact (CompareStep.ofOut_order _).trans
        (compareFloatCell_eq hrank (difference_of_doubleDefect hdouble hne))
  | longInt p n =>
      exact (CompareStep.ofOut_order _).trans
        (compareLongIntCell_eq hrank (fits_of_intDefect hint rfl))
  | bigInt p z => exact (CompareStep.ofOut_order _).trans (compareBigIntCell_eq (.int z) hrank)
  | bigRat p q => exact (CompareStep.ofOut_order _).trans (compareBigIntCell_eq (.rat q) hrank)
  | string p s => exact (CompareStep.ofOut_order _).trans (compareStringCell_eq s hrank)

theorem compareVars_eq {d0 d1 : Term} (h : (d0.isVarTerm || d1.isVarTerm) = true) :
    signOf (compareVars d0 d1) = Key.cmp d0.key d1.key := by
  cases h1 : d1.isVarTerm
  · have h0 : d0.isVarTerm = true := by simpa [h1] using h
    obtain ⟨v, rfl⟩ := isVarTerm_iff.mp h0
    rw [cmp_var_key h1]
    cases d1 <;> first | rfl | cases h1
  · obtain ⟨w, rfl⟩ := isVarTerm_iff.mp h1
    cases h0 : d0.isVarTerm
    · rw [Key.cmp_swap, cmp_var_key h0]
      cases d0 <;> first | rfl | cases h0
    · obtain ⟨v, rfl⟩ := isVarTerm_iff.mp h0
      exact signOf_addrSub v w

/-- Off the defects the loop compares two cells by their keys. -/
theorem cellOrder_eq {d0 d1 : Term} (h : argDefect d0 d1 = false) :
    cellOrder d0 d1 = Key.cmp d0.key d1.key := by
  unfold cellOrder compareCell
  split
  case isTrue hvar => rw [CompareStep.ofOut_order, compareVars_eq hvar]
  case isFalse hvar =>
    obtain ⟨h0, h1⟩ := Bool.or_eq_false_iff.mp (Bool.not_eq_true _ ▸ hvar)
    split
    case isTrue heq =>
      rw [heq, Key.cmp_self]
      rfl
    case isFalse hne => exact compareNonvar_eq hne h0 h1 h

theorem topOrder_self (t : Term) : topOrder t t = .eq := by
  rw [topOrder, compareTop, if_pos rfl]
  rfl

/-- Off the defects the branches of `compare` compare by the keys. -/
theorem compareTopNonvar_eq {t1 t2 : Term} (hne : t1 ≠ t2) (h1 : t1.isVarTerm = false)
    (h2 : t2.isVarTerm = false) (hdef : topDefect t1 t2 = false) :
    (compareTopNonvar t1 t2).order = Key.cmp t1.key t2.key := by
  simp only [topDefect, Bool.or_eq_false_iff] at hdef
  obtain ⟨⟨hint, hdouble⟩, hkind⟩ := hdef
  have hrank := rank_ne_zero h2
  cases t1 using kindCases with
  | var => cases h1
  | int n =>
      rw [key_int]
      exact compareIntCell_eq hrank (fits_of_intDefect hint rfl)
  | atom a =>
      rw [compareTopNonvar, compareAtomTop_eq_cell]
      exact compareAtomCell_eq a hrank
  | pair p h t => exact comparePairTop_eq hrank hkind
  | appl p f as => exact compareApplTop_eq hrank hkind
  | dbRef p => exact compareRefCell_eq p hrank
  | double p x =>
      exact compareFloatCell_eq hrank (difference_of_doubleDefect hdouble hne)
  | longInt p n => exact compareLongIntCell_eq hrank (fits_of_intDefect hint rfl)
  | bigInt p z => exact compareBigIntCell_eq (.int z) hrank
  | bigRat p q => exact compareBigIntCell_eq (.rat q) hrank
  | string p s =>
      have hint : t2.isIntTerm = false := by
        cases t2 <;> first | rfl | cases hkind
      exact compareStringTop_eq s hrank hint

/-- Off the defects `compare` compares the first cells by their keys. -/
theorem topOrder_eq {t1 t2 : Term} (h : topDefect t1 t2 = false) :
    topOrder t1 t2 = Key.cmp t1.key t2.key := by
  unfold topOrder compareTop
  split
  case isTrue heq =>
    rw [heq, Key.cmp_self]
    rfl
  case isFalse hne =>
    split
    case isTrue hvar => exact compareVars_eq hvar
    case isFalse hvar =>
      obtain ⟨h1, h2⟩ := Bool.or_eq_false_iff.mp (Bool.not_eq_true _ ▸ hvar)
      exact compareTopNonvar_eq hne h1 h2 h

end Yap
