-- SUMMARY: library(ordsets) and the sorting built-ins: union, subtraction and insertion on ordered lists, as operations on sets.
import Mathlib

/-!
# Ordered sets

Lists in strictly increasing standard order. `compare/3` is the comparison of
the linear order of terms.
-/

namespace Yap

namespace Ordsets

variable {α : Type*} [LinearOrder α]

/-- An ordered set: strictly increasing. -/
def OrdSet (l : List α) : Prop := l.Pairwise (· < ·)

theorem lawfulBEq : LawfulBEq α := inferInstance

instance (l : List α) : Decidable (OrdSet l) := inferInstanceAs (Decidable (l.Pairwise (· < ·)))

-- ---------------------------------------------------------------------------
-- Code
-- ---------------------------------------------------------------------------

/-- `msort/2`: equal elements are kept. -/
def msort (l : List α) : List α := l.insertionSort (· ≤ ·)

/-- `sort/2`: equal elements are merged. -/
def sort (l : List α) : List α := (msort l).dedup

def ordUnion : List α → List α → List α
  | set1, [] => set1
  | [], set2 => set2
  | head1 :: tail1, head2 :: tail2 =>
    match compare head1 head2 with
    | .eq => head1 :: ordUnion tail1 tail2
    | .lt => head1 :: ordUnion tail1 (head2 :: tail2)
    | .gt => head2 :: ordUnion (head1 :: tail1) tail2
termination_by l1 l2 => l1.length + l2.length

def ordSubtract : List α → List α → List α
  | set1, [] => set1
  | [], _ => []
  | head1 :: tail1, head2 :: tail2 =>
    match compare head1 head2 with
    | .eq => ordSubtract tail1 tail2
    | .lt => head1 :: ordSubtract tail1 (head2 :: tail2)
    | .gt => ordSubtract (head1 :: tail1) tail2
termination_by l1 l2 => l1.length + l2.length

def ordInsert : List α → α → List α
  | [], element => [element]
  | head :: tail, element =>
    match compare head element with
    | .lt => head :: ordInsert tail element
    | .eq => head :: tail
    | .gt => element :: head :: tail

def ordMemberchk (element : α) : List α → Bool
  | [] => false
  | e :: set => if e = element then true else ordMemberchk element set

-- ---------------------------------------------------------------------------
-- Sorting
-- ---------------------------------------------------------------------------

theorem mem_msort {l : List α} {x : α} : x ∈ msort l ↔ x ∈ l := List.mem_insertionSort _

theorem msort_le (l : List α) : (msort l).Pairwise (· ≤ ·) := List.pairwise_insertionSort _ l

theorem nodup_msort {l : List α} : (msort l).Nodup ↔ l.Nodup := (List.perm_insertionSort _ l).nodup_iff

theorem mem_sort {l : List α} {x : α} : x ∈ sort l ↔ x ∈ l := List.mem_dedup.trans mem_msort

theorem ordSet_of_le {l : List α} (h : l.Pairwise (· ≤ ·)) (hn : l.Nodup) : OrdSet l :=
  (h.and hn).imp fun h => lt_of_le_of_ne h.1 h.2

theorem ordSet_sort (l : List α) : OrdSet (sort l) :=
  ordSet_of_le ((msort_le l).sublist (List.dedup_sublist _)) (List.nodup_dedup _)

theorem OrdSet.nodup {l : List α} (h : OrdSet l) : l.Nodup := h.imp fun h => h.ne

/-- Two ordered sets with the same elements are equal. -/
theorem OrdSet.ext {l l' : List α} (h : OrdSet l) (h' : OrdSet l') (heq : ∀ x, x ∈ l ↔ x ∈ l') : l = l' :=
  List.Pairwise.eq_of_mem_iff h h' heq

-- ---------------------------------------------------------------------------
-- Operations
-- ---------------------------------------------------------------------------

theorem mem_ordUnion {l1 l2 : List α} {x : α} : x ∈ ordUnion l1 l2 ↔ x ∈ l1 ∨ x ∈ l2 := by
  induction l1, l2 using ordUnion.induct with
  | case1 l1 => simp [ordUnion]
  | case2 l2 h => cases l2 <;> simp [ordUnion]
  | case3 h1 t1 h2 t2 heq ih =>
    obtain rfl := compare_eq_iff_eq.mp heq
    simp only [ordUnion, heq, List.mem_cons, ih]
    tauto
  | case4 h1 t1 h2 t2 hlt ih =>
    simp only [ordUnion, hlt, List.mem_cons, ih]
    tauto
  | case5 h1 t1 h2 t2 hgt ih =>
    simp only [ordUnion, hgt, List.mem_cons, ih]
    tauto

theorem ordSet_ordUnion {l1 l2 : List α} (h1 : OrdSet l1) (h2 : OrdSet l2) : OrdSet (ordUnion l1 l2) := by
  induction l1, l2 using ordUnion.induct with
  | case1 l1 => rwa [ordUnion]
  | case2 l2 h =>
    cases l2 with
    | nil => exact absurd rfl h
    | cons => simpa [ordUnion] using h2
  | case3 a t1 b t2 heq ih =>
    obtain rfl := compare_eq_iff_eq.mp heq
    obtain ⟨ha1, ht1⟩ := List.pairwise_cons.mp h1
    obtain ⟨ha2, ht2⟩ := List.pairwise_cons.mp h2
    simp only [ordUnion, heq]
    exact List.pairwise_cons.mpr ⟨fun x hx => (mem_ordUnion.mp hx).elim (ha1 x) (ha2 x), ih ht1 ht2⟩
  | case4 a t1 b t2 hlt ih =>
    have hab := compare_lt_iff_lt.mp hlt
    obtain ⟨ha, ht1⟩ := List.pairwise_cons.mp h1
    have hb : ∀ x ∈ b :: t2, a < x := by
      intro x hx
      cases List.mem_cons.mp hx with
      | inl heq => exact heq ▸ hab
      | inr hmem => exact hab.trans ((List.pairwise_cons.mp h2).1 x hmem)
    simp only [ordUnion, hlt]
    exact List.pairwise_cons.mpr ⟨fun x hx => (mem_ordUnion.mp hx).elim (ha x) (hb x), ih ht1 h2⟩
  | case5 a t1 b t2 hgt ih =>
    have hba := compare_gt_iff_gt.mp hgt
    obtain ⟨hb, ht2⟩ := List.pairwise_cons.mp h2
    have ha : ∀ x ∈ a :: t1, b < x := by
      intro x hx
      cases List.mem_cons.mp hx with
      | inl heq => exact heq ▸ hba
      | inr hmem => exact hba.trans ((List.pairwise_cons.mp h1).1 x hmem)
    simp only [ordUnion, hgt]
    exact List.pairwise_cons.mpr ⟨fun x hx => (mem_ordUnion.mp hx).elim (ha x) (hb x), ih h1 ht2⟩

theorem ordSubtract_sublist (l1 l2 : List α) : (ordSubtract l1 l2).Sublist l1 := by
  induction l1, l2 using ordSubtract.induct with
  | case1 l1 => simp [ordSubtract]
  | case2 l2 h => cases l2 <;> simp [ordSubtract]
  | case3 h1 t1 h2 t2 heq ih =>
    simp only [ordSubtract, heq]
    exact ih.cons h1
  | case4 h1 t1 h2 t2 hlt ih =>
    simp only [ordSubtract, hlt]
    exact ih.cons_cons h1
  | case5 h1 t1 h2 t2 hgt ih =>
    simp only [ordSubtract, hgt]
    exact ih

theorem ordSet_ordSubtract {l1 : List α} (h1 : OrdSet l1) (l2 : List α) : OrdSet (ordSubtract l1 l2) :=
  List.Pairwise.sublist (ordSubtract_sublist l1 l2) h1

/-- The second list may have repetitions. -/
theorem mem_ordSubtract {l1 l2 : List α} (h1 : OrdSet l1) (h2 : l2.Pairwise (· ≤ ·)) {x : α} :
    x ∈ ordSubtract l1 l2 ↔ x ∈ l1 ∧ x ∉ l2 := by
  induction l1, l2 using ordSubtract.induct with
  | case1 l1 => simp [ordSubtract]
  | case2 l2 h => cases l2 <;> simp [ordSubtract]
  | case3 a t1 b t2 heq ih =>
    obtain rfl := compare_eq_iff_eq.mp heq
    obtain ⟨ha, ht1⟩ := List.pairwise_cons.mp h1
    simp only [ordSubtract, heq, ih ht1 (List.pairwise_cons.mp h2).2, List.mem_cons, not_or]
    constructor
    · rintro ⟨hx, hnot⟩
      exact ⟨.inr hx, (ha x hx).ne', hnot⟩
    · rintro ⟨hx, hne, hnot⟩
      exact ⟨hx.resolve_left hne, hnot⟩
  | case4 a t1 b t2 hlt ih =>
    have hab := compare_lt_iff_lt.mp hlt
    obtain ⟨ha, ht1⟩ := List.pairwise_cons.mp h1
    have hnot : a ∉ b :: t2 := by
      intro hmem
      cases List.mem_cons.mp hmem with
      | inl heq => exact hab.ne heq
      | inr hmem => exact absurd ((List.pairwise_cons.mp h2).1 a hmem) (not_le.mpr hab)
    simp only [ordSubtract, hlt, List.mem_cons (a := x) (l := ordSubtract _ _), ih ht1 h2]
    constructor
    · rintro (rfl | ⟨hx, hn⟩)
      · exact ⟨List.mem_cons_self, hnot⟩
      · exact ⟨List.mem_cons_of_mem _ hx, hn⟩
    · rintro ⟨hx, hn⟩
      exact (List.mem_cons.mp hx).imp_right fun hx => ⟨hx, hn⟩
  | case5 a t1 b t2 hgt ih =>
    have hba := compare_gt_iff_gt.mp hgt
    simp only [ordSubtract, hgt, ih h1 (List.pairwise_cons.mp h2).2, List.mem_cons (a := x) (b := b), not_or]
    refine and_congr_right fun hx => ⟨fun hn => ⟨?_, hn⟩, fun hn => hn.2⟩
    rintro rfl
    cases List.mem_cons.mp hx with
    | inl heq => exact hba.ne heq
    | inr hmem => exact absurd ((List.pairwise_cons.mp h1).1 x hmem) hba.asymm

theorem mem_ordInsert {l : List α} {e x : α} : x ∈ ordInsert l e ↔ x = e ∨ x ∈ l := by
  induction l with
  | nil => simp [ordInsert]
  | cons a t ih =>
    rw [ordInsert]
    split
    case h_1 hlt =>
      simp only [List.mem_cons, ih]
      tauto
    case h_2 heq =>
      obtain rfl := compare_eq_iff_eq.mp heq
      simp
    case h_3 => simp

theorem ordSet_ordInsert {l : List α} (h : OrdSet l) (e : α) : OrdSet (ordInsert l e) := by
  induction l with
  | nil => exact List.pairwise_singleton _ _
  | cons a t ih =>
    obtain ⟨ha, ht⟩ := List.pairwise_cons.mp h
    rw [ordInsert]
    split
    case h_1 hlt =>
      refine List.pairwise_cons.mpr ⟨fun x hx => ?_, ih ht⟩
      cases mem_ordInsert.mp hx with
      | inl heq => exact heq ▸ compare_lt_iff_lt.mp hlt
      | inr hmem => exact ha x hmem
    case h_2 heq => exact h
    case h_3 hgt =>
      have hea := compare_gt_iff_gt.mp hgt
      refine List.pairwise_cons.mpr ⟨fun x hx => ?_, h⟩
      cases List.mem_cons.mp hx with
      | inl heq => exact heq ▸ hea
      | inr hmem => exact hea.trans (ha x hmem)

theorem ordMemberchk_iff {e : α} {l : List α} : ordMemberchk e l = true ↔ e ∈ l := by
  induction l with
  | nil => simp [ordMemberchk]
  | cons a t ih =>
    rw [ordMemberchk]
    split_ifs with heq
    · simp [heq]
    · simp [ih, Ne.symm heq]

end Ordsets

end Yap
