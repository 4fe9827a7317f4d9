-- SUMMARY: The length of lists on the heap: the search for their end, which stops on cyclic lists, the tests for lists, and the length of lists.
import Yap.Base.Brent
import Yap.Heap.Store
import Yap.Parse.Tokens

/-!
# Skipping lists

The functions follow `Yap_SkipList` and its callers in `utilpreds.c`, and `is_list`
in `errors.c`. A list starts in an argument register, or in a variable of the caller,
and goes on in the cells of the heap.
-/

namespace Yap

open Machine

-- ---------------------------------------------------------------------------
-- Places
-- ---------------------------------------------------------------------------

/-- `do_derefa`, from the cell `a` on: the cell where the chain of references ends. -/
def Store.derefAddr (s : Store) (a : Addr) : Addr :=
  match _h : s.cell a with
  | .ref b => if _hb : b = a then a else s.derefAddr b
  | .nonvar _ => a
termination_by (show s.At from a)
decreasing_by exact ⟨_h, _hb⟩

/-- The register, or a cell of the heap. -/
abbrev CellPtr : Type := Option Addr

namespace Store

variable (s : Store) (c : Cell)

/-- What is at a place, where `c` is in the register. -/
def contents : CellPtr → Cell
  | none => c
  | some a => s.cell a

/-- `do_derefa`. -/
def derefa : CellPtr → CellPtr
  | none =>
    match c with
    | .ref a => some (s.derefAddr a)
    | .nonvar _ => none
  | some a => some (s.derefAddr a)

/-- `RepPair(*l)+1`, dereferenced, where `IsPairTerm(*l)`. -/
def tailPlace (l : CellPtr) : Option CellPtr :=
  match s.contents c l with
  | .nonvar (.pair p) => some (s.derefa c (some (p + 1)))
  | _ => none

/-- The loop of `Yap_SkipList`. It compares what is at two places. -/
def skipTurn : Brent.State CellPtr → Turn (Brent.State CellPtr) (ℕ × CellPtr) :=
  Brent.turn (s.tailPlace c) (s.contents c)

/-- `Yap_SkipList`: the length and the place of the tail. -/
def skipList (turns : ℕ) : Option (ℕ × CellPtr) := run (s.skipTurn c) turns (Brent.start (s.derefa c none))

/-- `Yap_SkipList` returns this. -/
def Skips (len : ℕ) (tail : CellPtr) : Prop := ∃ turns, s.skipList c turns = some (len, tail)

-- ---------------------------------------------------------------------------
-- Predicates
-- ---------------------------------------------------------------------------

/-- `TermNil`. -/
def nil : Cell := .nonvar (.atom atomNil)

/-- `Yap_IsListTerm`, for `is_list/1`. -/
def isListTerm (turns : ℕ) : Option Bool := (s.skipList c turns).map fun r => decide (s.contents c r.2 = nil)

/-- What `is_list` in `errors.c` does. -/
inductive ListTest where
  | instantiationError
  | holds (b : Bool)

/-- The tests of `is_list` in `errors.c` on the tail. -/
def listTest : Cell → ListTest
  | .ref _ => .instantiationError
  | .nonvar d => .holds (decide (Cell.nonvar d = nil))

/-- `is_list` in `errors.c`. -/
def isList (turns : ℕ) : Option ListTest := (s.skipList c turns).map fun r => listTest (s.contents c r.2)

/-- What `$skip_list/4` does: it raises an error, fails, or unifies its second
    argument with a length, its third one with a length, and its fourth one with
    the tail. -/
inductive SkipResult where
  | typeErrorInteger
  | domainErrorNotLessThanZero
  | fail
  | unify (arg2 arg3 : Option ℕ) (arg4 : Cell)

/-- `IntegerOfTerm`, of integers. -/
def integerOfTerm (hp : Heap) : Nonvar → Option ℤ
  | .int n => some n.toInt
  | .appl p =>
    match hp.functorAt p with
    | .blob (.longInt n) => some n.val.toInt
    | _ => none
  | _ => none

/-- What `p_skip_list4` does with its dereferenced second argument, the length and
    the tail. -/
def skipResult (hp : Heap) (t2 : Cell) (len : ℕ) (t : Cell) : SkipResult :=
  match t2 with
  | .ref _ => if t = nil then .unify (some len) none nil else .unify none (some len) t
  | .nonvar d =>
    match integerOfTerm hp d with
    | none => .typeErrorInteger
    | some len1 =>
      if len1 < 0 then .domainErrorNotLessThanZero
      else if t = nil then if len1 = len then .unify none none nil else .fail
      else .unify none (some len) t

/-- `p_skip_list4`. -/
def skipList4 (hp : Heap) (t2 : Cell) (turns : ℕ) : Option SkipResult :=
  (s.skipList c turns).map fun r => skipResult hp t2 r.1 (s.contents c r.2)

end Store

-- ---------------------------------------------------------------------------
-- Lists
-- ---------------------------------------------------------------------------

/-- The pairs of a list that ends, and what is behind the last one. -/
inductive ListCells (s : Store) : Cell → List Addr → Cell → Prop where
  | tail {c : Cell} : (∀ p, s.deref c ≠ .nonvar (.pair p)) → ListCells s c [] (s.deref c)
  | pair {c t : Cell} {p : Addr} {ps : List Addr} :
      s.deref c = .nonvar (.pair p) → ListCells s (.ref (p + 1)) ps t → ListCells s c (p :: ps) t

namespace Store

variable {s : Store} {c : Cell} {l : CellPtr}

theorem cell_derefAddr (s : Store) (a : Addr) : s.cell (s.derefAddr a) = s.derefCell a := by
  induction a using deref_induction (s := s) with
  | unbound a h =>
    rw [derefCell_unbound h, derefAddr]
    split <;> simp_all
  | ref a b hc hb ih =>
    rw [derefCell_ne (by simp [hc, hb]), hc, deref, ← ih, derefAddr]
    split <;> simp_all
  | nonvar a d hc =>
    rw [derefCell_ne (by simp [hc]), hc, deref, derefAddr]
    split <;> simp_all

theorem contents_derefa_some (a : Addr) : s.contents c (s.derefa c (some a)) = s.deref (.ref a) := cell_derefAddr s a

theorem contents_derefa_none : s.contents c (s.derefa c none) = s.deref c := by
  cases c with
  | ref a => exact cell_derefAddr s a
  | nonvar d => rfl

/-- The next place depends on what is at the place, not on the place. -/
theorem tailPlace_congr (a b : CellPtr) (h : s.contents c a = s.contents c b) : s.tailPlace c a = s.tailPlace c b := by
  rw [tailPlace, tailPlace, h]

theorem tailPlace_pair {p : Addr} (h : s.contents c l = .nonvar (.pair p)) :
    s.tailPlace c l = some (s.derefa c (some (p + 1))) := by
  rw [tailPlace, h]

theorem tailPlace_eq_none : s.tailPlace c l = none ↔ ∀ p, s.contents c l ≠ .nonvar (.pair p) := by
  unfold tailPlace
  split
  case h_1 p h => exact iff_of_false (fun hnone => by cases hnone) fun hall => hall p h
  case h_2 hne => exact iff_of_true rfl hne

/-- A list that ends is a walk that ends. -/
theorem ends_of_listCells {c' t : Cell} {ps : List Addr} (h : ListCells s c' ps t) (hl : s.contents c l = s.deref c') :
    ∃ b, Brent.Ends (s.tailPlace c) l ps.length b ∧ s.contents c b = t := by
  induction h generalizing l with
  | tail hne => exact ⟨l, Brent.ends_zero.mpr ⟨rfl, tailPlace_eq_none.mpr (hl ▸ hne)⟩, hl⟩
  | @pair c' t p ps hpair _ ih =>
    obtain ⟨b, hends, hb⟩ := ih (contents_derefa_some (p + 1))
    exact ⟨b, Brent.ends_succ.mpr ⟨_, tailPlace_pair (hl.trans hpair), hends⟩, hb⟩

theorem listCells_of_ends {c' : Cell} {n : ℕ} {b : CellPtr} (h : Brent.Ends (s.tailPlace c) l n b)
    (hl : s.contents c l = s.deref c') : ∃ ps, ListCells s c' ps (s.contents c b) := by
  induction n generalizing l c' with
  | zero =>
    obtain ⟨rfl, hnone⟩ := Brent.ends_zero.mp h
    rw [hl]
    exact ⟨[], .tail (hl ▸ tailPlace_eq_none.mp hnone)⟩
  | succ n ih =>
    obtain ⟨y, hy, hends⟩ := Brent.ends_succ.mp h
    unfold tailPlace at hy
    split at hy
    case h_1 p hp =>
      obtain rfl := Option.some.inj hy
      obtain ⟨ps, hps⟩ := ih hends (contents_derefa_some (p + 1))
      exact ⟨p :: ps, .pair (hl ▸ hp) hps⟩
    case h_2 => cases hy

theorem derefAddr_mem {hp : Heap} {R : Finset Addr} (hR : Closed hp R s.cell) {a : Addr} (ha : a ∈ R) :
    s.derefAddr a ∈ R := by
  induction a using deref_induction (s := s) with
  | unbound a h =>
    rw [derefAddr]
    split <;> simp_all
  | ref a b hc hb ih =>
    have hmem := hR a ha
    rw [hc] at hmem
    rw [derefAddr]
    split
    case h_1 b' hc' =>
      obtain rfl := Cell.ref.inj (hc.symm.trans hc')
      rw [dif_neg hb]
      exact ih (Cell.within_ref.mp hmem)
    case h_2 => exact ha
  | nonvar a d hc =>
    rw [derefAddr]
    split <;> simp_all

/-- In a finite heap the walk along a list stays in a finite set. -/
theorem tailPlace_mem {hp : Heap} {R : Finset Addr} (hR : Closed hp R s.cell) (hc : c.Within hp R) :
    ∀ x ∈ Finset.insertNone R, ∀ y, s.tailPlace c x = some y → y ∈ Finset.insertNone R := by
  intro x hx y hy
  have hwithin : (s.contents c x).Within hp R := by
    cases x with
    | none => exact hc
    | some a => exact hR a (Finset.some_mem_insertNone.mp hx)
  unfold tailPlace at hy
  split at hy
  case h_1 p hp' =>
    obtain rfl := Option.some.inj hy
    rw [hp'] at hwithin
    exact Finset.some_mem_insertNone.mpr (derefAddr_mem hR (hwithin _ (by simp [Cell.cells])))
  case h_2 => cases hy

theorem derefa_none_mem {hp : Heap} {R : Finset Addr} (hR : Closed hp R s.cell) (hc : c.Within hp R) :
    s.derefa c none ∈ Finset.insertNone R := by
  cases c with
  | ref a => exact Finset.some_mem_insertNone.mpr (derefAddr_mem hR (Cell.within_ref.mp hc))
  | nonvar d => exact Finset.none_mem_insertNone

/-- A list that ends is counted. -/
theorem skips_of_listCells {t : Cell} {ps : List Addr} (h : ListCells s c ps t) :
    ∃ tail, s.Skips c ps.length tail ∧ s.contents c tail = t := by
  obtain ⟨b, hends, hb⟩ := ends_of_listCells h contents_derefa_none
  have hslow : Brent.Ends (s.tailPlace c) (s.derefa c none) (0 + ps.length) b := by rwa [Nat.zero_add]
  have hreturns : Returns (s.skipTurn c) (Brent.start (s.derefa c none)) (0 + ps.length, b) :=
    Brent.returns_of_ends tailPlace_congr 0 hends hslow
  rw [Nat.zero_add] at hreturns
  exact ⟨b, hreturns, hb⟩

/-- What is not a pair is the tail of a list that ends. -/
theorem listCells_of_skips {len : ℕ} {tail : CellPtr} (h : s.Skips c len tail)
    (hne : ∀ p, s.contents c tail ≠ .nonvar (.pair p)) : ∃ ps, ListCells s c ps (s.contents c tail) := by
  obtain ⟨k, hk⟩ := Brent.walk_of_returns h
  exact listCells_of_ends ⟨hk, tailPlace_eq_none.mpr hne⟩ contents_derefa_none

theorem Skips.unique {len len' : ℕ} {tail tail' : CellPtr} (h : s.Skips c len tail) (h' : s.Skips c len' tail') :
    len = len' ∧ tail = tail' :=
  Prod.mk.inj (Returns.unique h h')

/-- The search ends and counts the cells of proper and partial lists, the tests hold of
    proper lists, and the length of a proper list is exact. -/
structure SkipsRight (hp : Heap) (s : Store) (c : Cell) : Prop where
  ends : ∃ len tail, s.Skips c len tail
  counts : ∀ ps t, ListCells s c ps t → ∃ tail, s.Skips c ps.length tail ∧ s.contents c tail = t
  isListTerm : (∃ turns, s.isListTerm c turns = some true) ↔ ∃ ps, ListCells s c ps nil
  isList : (∃ turns, s.isList c turns = some (.holds true)) ↔ ∃ ps, ListCells s c ps nil
  lengthUnbound : ∀ ps v, ListCells s c ps nil →
    ∃ turns, s.skipList4 c hp (.ref v) turns = some (.unify (some ps.length) none nil)
  lengthBound : ∀ ps d n, ListCells s c ps nil → integerOfTerm hp d = some n → 0 ≤ n →
    ∃ turns, s.skipList4 c hp (.nonvar d) turns = some (if n = ps.length then .unify none none nil else .fail)
  partialLength : ∀ ps t v, ListCells s c ps t → t ≠ nil →
    ∃ turns, s.skipList4 c hp (.ref v) turns = some (.unify none (some ps.length) t)

theorem skipList4_of_listCells (hp : Heap) (t2 : Cell) {t : Cell} {ps : List Addr} (h : ListCells s c ps t) :
    ∃ turns, s.skipList4 c hp t2 turns = some (skipResult hp t2 ps.length t) := by
  obtain ⟨tail, ⟨turns, hskips⟩, htail⟩ := skips_of_listCells h
  exact ⟨turns, by rw [skipList4, hskips, Option.map_some, htail]⟩

/-- A test of the tail that holds of `[]` only is a test for proper lists. -/
theorem test_iff {α : Type*} (test : Cell → α) {yes : α} (htest : ∀ t, test t = yes ↔ t = nil) :
    (∃ turns, (s.skipList c turns).map (fun r => test (s.contents c r.2)) = some yes) ↔ ∃ ps, ListCells s c ps nil := by
  constructor
  · rintro ⟨turns, h⟩
    obtain ⟨⟨len, tail⟩, hskips, hyes⟩ := Option.map_eq_some_iff.mp h
    have htail := (htest _).mp hyes
    have hlist := listCells_of_skips ⟨turns, hskips⟩ fun p hp => by
      rw [htail] at hp
      cases hp
    rwa [htail] at hlist
  · rintro ⟨ps, hps⟩
    obtain ⟨tail, ⟨turns, hskips⟩, htail⟩ := skips_of_listCells hps
    exact ⟨turns, by rw [hskips, Option.map_some, htail, (htest nil).mpr rfl]⟩

/-- Lists are skipped right in every finite heap. -/
theorem skipList_right {hp : Heap} {R : Finset Addr} {s : Store} (hR : Closed hp R s.cell) {c : Cell}
    (hc : c.Within hp R) : SkipsRight hp s c where
  ends := by
    obtain ⟨⟨len, tail⟩, h⟩ := Brent.exists_returns tailPlace_congr (tailPlace_mem hR hc) (derefa_none_mem hR hc)
    exact ⟨len, tail, h⟩
  counts _ _ := skips_of_listCells
  isListTerm := test_iff _ fun t => decide_eq_true_iff
  isList := by
    refine test_iff listTest fun t => ?_
    cases t with
    | ref a => exact iff_of_false (fun h => by cases h) fun h => by cases h
    | nonvar d => exact ⟨fun h => of_decide_eq_true (ListTest.holds.inj h), fun h => by rw [h]; rfl⟩
  lengthUnbound ps v h := skipList4_of_listCells hp (.ref v) h
  lengthBound ps d n h hd hn := by
    obtain ⟨turns, hskip⟩ := skipList4_of_listCells hp (.nonvar d) h
    refine ⟨turns, hskip.trans ?_⟩
    simp only [skipResult, hd, if_neg (not_lt.mpr hn), if_true]
  partialLength ps t v h ht := by
    obtain ⟨turns, hskip⟩ := skipList4_of_listCells hp (.ref v) h
    refine ⟨turns, hskip.trans ?_⟩
    simp only [skipResult, if_neg ht]

/-- A list that is its own tail. -/
theorem skipList_right_cyclic :
    SkipsRight ⟨fun _ => .blob .dbRef, 18⟩ (ofWords fun a => if a = 17 then some (.pair 16) else none)
      (.nonvar (.pair 16)) := by
  refine skipList_right (R := {16, 17}) (fun a ha => ?_) fun a ha => ?_
  · rcases Finset.mem_insert.mp ha with rfl | ha
    · exact fun b hb => by simpa [ofWords, Cell.cells] using Or.inl hb
    · obtain rfl := Finset.mem_singleton.mp ha
      exact fun b hb => by simpa [ofWords, Cell.cells] using hb
  · simpa [Cell.cells] using ha

end Store

end Yap
