-- SUMMARY: The clauses that an index is generated for: their tags, the order that groups are sorted by, and the counting of constants and functors.
import Yap.Terms.Tags

/-!
# Clauses of an index

The functions follow `index.h`, `index.c` and `Tags_64bits.h`. A group of clauses is
the list of them from `FirstClause` to `LastClause`. The tag of a clause says what it
needs of the argument: a constant, a list, a term with a functor, or a test.
-/

namespace Yap.Indexing

open Tags

-- ---------------------------------------------------------------------------
-- Tags
-- ---------------------------------------------------------------------------

structure ClauseDef where
  Tag : Word
  Code : Word
  CurrentCode : Word
  workPC : Word
deriving DecidableEq

/-- `AtomTag`. -/
def atomTag : Word := mkTag 0 1

def isVarTerm (t : Word) : Bool := t &&& 7 == 0

def isPairTerm (t : Word) : Bool := t &&& 2 != 0

def isAtomTerm (t : Word) : Bool := chkTag t atomTag

def isAtomOrIntTerm (t : Word) : Bool := t &&& lowTagBits == 1

def lowTagOf (t : Word) : Word := t &&& lowTagBits

def isConst (t : Word) : Bool := isAtomTerm t || isIntTerm t

/-- `(_var + 1) * sizeof(CELL)`, the tag of a clause that starts with a test that the
    argument is unbound. -/
def varTest : Word := (7 + 1) * 8

def smaller (t1 t2 : Word) : Bool :=
  if lowTagOf t1 = lowTagOf t2 then decide (t1 < t2) else decide (lowTagOf t1 < lowTagOf t2)

def smallerOrEq (t1 t2 : Word) : Bool :=
  if lowTagOf t1 = lowTagOf t2 then decide (t1 ≤ t2) else decide (lowTagOf t1 < lowTagOf t2)

/-- A group after `sort_group`. -/
def Sorted (cls : List ClauseDef) : Prop := cls.Pairwise fun c c' => smallerOrEq c.Tag c'.Tag = true

theorem smallerOrEq_iff {t1 t2 : Word} :
    smallerOrEq t1 t2 = true ↔ lowTagOf t1 < lowTagOf t2 ∨ (lowTagOf t1 = lowTagOf t2 ∧ t1 ≤ t2) := by
  rw [smallerOrEq]
  by_cases h : lowTagOf t1 = lowTagOf t2
  · rw [if_pos h, decide_eq_true_iff, h]
    simp [BitVec.lt_irrefl]
  · rw [if_neg h, decide_eq_true_iff]
    simp [h]

theorem lowTagOf_le {t1 t2 : Word} (h : smallerOrEq t1 t2 = true) : lowTagOf t1 ≤ lowTagOf t2 := by
  rcases smallerOrEq_iff.mp h with hlt | ⟨heq, -⟩
  · exact BitVec.le_of_lt hlt
  · exact heq ▸ BitVec.le_refl _

theorem smallerOrEq_antisymm {t1 t2 : Word} (h : smallerOrEq t1 t2 = true) (h' : smallerOrEq t2 t1 = true) :
    t1 = t2 := by
  have hlow : lowTagOf t1 = lowTagOf t2 := BitVec.le_antisymm (lowTagOf_le h) (lowTagOf_le h')
  rw [smallerOrEq, if_pos hlow, decide_eq_true_iff] at h
  rw [smallerOrEq, if_pos hlow.symm, decide_eq_true_iff] at h'
  exact BitVec.le_antisymm h h'

/-- A constant has the low bits of one. -/
theorem lowTagOf_isConst {t : Word} (h : isConst t = true) : lowTagOf t = 1 := by
  have hlow : ∀ tag : Word, tag &&& lowTagBits = 1 → chkTag t tag = true → lowTagOf t = 1 := by
    intro tag htag hchk
    have hbits : tagBits &&& lowTagBits = lowTagBits := by decide
    rw [lowTagOf, ← hbits, ← BitVec.and_assoc, eq_of_beq hchk, htag]
  rcases Bool.or_eq_true _ _ ▸ h with hatom | hint
  · exact hlow atomTag (by decide) hatom
  · exact hlow numberTag (by decide) hint

theorem exists_lowTagOf (t : Word) : ∃ n < 8, lowTagOf t = BitVec.ofNat 64 n := by
  refine ⟨(lowTagOf t).toNat, ?_, by rw [BitVec.ofNat_toNat, BitVec.setWidth_eq]⟩
  rw [lowTagOf, BitVec.toNat_and]
  exact Nat.lt_of_le_of_lt Nat.and_le_right (by decide)

/-- The low bits say which words are terms with a functor. -/
theorem isApplTerm_iff {t : Word} : isApplTerm t = true ↔ 4 ≤ lowTagOf t := by
  have hbit : isApplTerm t = (lowTagOf t &&& 4 != 0) := by
    have hbits : lowTagBits &&& 4 = (4 : Word) := by decide
    rw [isApplTerm, lowTagOf, BitVec.and_assoc, hbits]
  obtain ⟨n, hn, hlow⟩ := exists_lowTagOf t
  rw [hbit, hlow]
  interval_cases n <;> decide

-- ---------------------------------------------------------------------------
-- Clauses with one tag
-- ---------------------------------------------------------------------------

/-- What is taken from the beginning of a list, when nothing else of the kind comes later. -/
theorem takeWhile_eq_filter {α : Type*} {p : α → Bool} {l : List α}
    (h : l.Pairwise fun a b => p b = true → p a = true) :
    l.takeWhile p = l.filter p ∧ l.dropWhile p = l.filter fun a => !p a := by
  induction l with
  | nil => exact ⟨rfl, rfl⟩
  | cons a l ih =>
    obtain ⟨ha, hl⟩ := List.pairwise_cons.mp h
    by_cases hp : p a = true
    · obtain ⟨htake, hdrop⟩ := ih hl
      simp [hp, htake, hdrop]
    · have hnone : ∀ b ∈ l, p b = false := fun b hb => Bool.eq_false_of_not_eq_true fun hpb => hp (ha b hb hpb)
      have hfilter : l.filter p = [] := List.filter_eq_nil_iff.mpr fun b hb => by simp [hnone b hb]
      have hfilter' : (l.filter fun a => !p a) = l := List.filter_eq_self.mpr fun b hb => by simp [hnone b hb]
      simp [hp, hfilter, hfilter']

/-- After the first clause of a sorted group the ones with its tag come before the others. -/
theorem Sorted.run {min : ClauseDef} {cls : List ClauseDef} (h : Sorted (min :: cls)) :
    cls.Pairwise fun c c' => (c'.Tag == min.Tag) = true → (c.Tag == min.Tag) = true := by
  obtain ⟨hmin, hcls⟩ := List.pairwise_cons.mp h
  refine (List.pairwise_iff_forall_sublist.mpr fun {a b} hab hb => ?_)
  have hle : smallerOrEq a.Tag b.Tag = true := List.pairwise_iff_forall_sublist.mp hcls hab
  have ha : a ∈ cls := hab.subset List.mem_cons_self
  rw [beq_iff_eq] at hb ⊢
  rw [hb] at hle
  exact smallerOrEq_antisymm hle (hmin a ha)

-- ---------------------------------------------------------------------------
-- Counting
-- ---------------------------------------------------------------------------

/-- The loop of `count_consts` and `count_funcs`: how often the tag of the clauses changes. -/
def countTags (is : Word → Bool) : Word → List ClauseDef → ℕ
  | _, [] => 0
  | current, cl :: cls =>
    if is cl.Tag then
      if current ≠ cl.Tag then countTags is cl.Tag cls + 1 else countTags is current cls
    else 0

/-- `foundVar` is the term `AtomFoundVar`, an atom that is not in the table of atoms. -/
def countConsts (foundVar : Word) (cls : List ClauseDef) : ℕ := countTags isConst foundVar cls

def countFuncs (foundVar : Word) (cls : List ClauseDef) : ℕ := countTags isApplTerm foundVar cls

variable {is : Word → Bool}

theorem countTags_dropWhile (tag : Word) (htag : is tag = true) (cls : List ClauseDef) :
    countTags is tag cls = countTags is tag (cls.dropWhile (·.Tag == tag)) := by
  induction cls with
  | nil => rfl
  | cons cl cls ih =>
    by_cases heq : cl.Tag = tag
    · rw [List.dropWhile_cons_of_pos (by simp [heq]), ← ih, countTags, heq, if_pos htag, if_neg (by simp)]
    · rw [List.dropWhile_cons_of_neg (by simp [heq])]

end Yap.Indexing
