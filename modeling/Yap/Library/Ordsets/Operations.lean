-- SUMMARY: The rest of library(ordsets): intersections, differences, tests and the union of a list of sets, each as the operation on sets it stands for.
import Yap.Library.Ordsets

/-!
# Operations on ordered sets

Each operation walks down its two lists and compares the heads. The claims
about it go by one induction, that takes the least element off both lists.
-/

namespace Yap

namespace Ordsets

variable {α : Type*} [LinearOrder α]

-- ---------------------------------------------------------------------------
-- Code
-- ---------------------------------------------------------------------------

def ordDisjoint : List α → List α → Bool
  | [], _ => true
  | _, [] => true
  | head1 :: tail1, head2 :: tail2 =>
    match compare head1 head2 with
    | .eq => false
    | .lt => ordDisjoint tail1 (head2 :: tail2)
    | .gt => ordDisjoint (head1 :: tail1) tail2
termination_by l1 l2 => l1.length + l2.length

def ordAddElement : List α → α → List α
  | [], element => [element]
  | head :: tail, element =>
    match compare head element with
    | .lt => head :: ordInsert tail element
    | .eq => head :: tail
    | .gt => element :: head :: tail

/-- `ord_intersect/2`. -/
def ordIntersect : List α → List α → Bool
  | head1 :: tail1, head2 :: tail2 =>
    match compare head1 head2 with
    | .eq => true
    | .lt => ordIntersect tail1 (head2 :: tail2)
    | .gt => ordIntersect (head1 :: tail1) tail2
  | _, _ => false
termination_by l1 l2 => l1.length + l2.length

/-- `ord_intersection/3`. -/
def ordIntersection : List α → List α → List α
  | [], _ => []
  | _ :: _, [] => []
  | head1 :: tail1, head2 :: tail2 =>
    if head1 = head2 then head1 :: ordIntersection tail1 tail2
    else if head1 < head2 then ordIntersection tail1 (head2 :: tail2)
    else ordIntersection (head1 :: tail1) tail2
termination_by l1 l2 => l1.length + l2.length

/-- `ord_intersect/3`. -/
def ordIntersect3 (l1 l2 : List α) : List α := ordIntersection l1 l2

/-- `ord_intersection/4`: the intersection, and what only the second set has. -/
def ordIntersection4 : List α → List α → List α × List α
  | [], l => ([], l)
  | _ :: _, [] => ([], [])
  | head1 :: tail1, head2 :: tail2 =>
    if head1 = head2 then
      let (tail, difference) := ordIntersection4 tail1 tail2
      (head1 :: tail, difference)
    else if head1 < head2 then ordIntersection4 tail1 (head2 :: tail2)
    else
      let (intersection, hdifference) := ordIntersection4 (head1 :: tail1) tail2
      (intersection, head2 :: hdifference)
termination_by l1 l2 => l1.length + l2.length

def ordSeteq (set1 set2 : List α) : Bool := set1 = set2

def ordSubset : List α → List α → Bool
  | [], _ => true
  | _ :: _, [] => false
  | head1 :: tail1, head2 :: tail2 =>
    match compare head1 head2 with
    | .eq => ordSubset tail1 tail2
    | .lt => false
    | .gt => ordSubset (head1 :: tail1) tail2
termination_by l1 l2 => l1.length + l2.length

def ordDelElement : List α → α → List α
  | [], _ => []
  | head1 :: tail1, head2 =>
    match compare head1 head2 with
    | .eq => tail1
    | .lt => head1 :: ordDelElement tail1 head2
    | .gt => head1 :: tail1

def ordSymdiff : List α → List α → List α
  | set1, [] => set1
  | [], set2 => set2
  | head1 :: tail1, head2 :: tail2 =>
    match compare head1 head2 with
    | .eq => ordSymdiff tail1 tail2
    | .lt => head1 :: ordSymdiff tail1 (head2 :: tail2)
    | .gt => head2 :: ordSymdiff (head1 :: tail1) tail2
termination_by l1 l2 => l1.length + l2.length

/-- `ord_union/4`: the union, and what only the second set has. -/
def ordUnion4 : List α → List α → List α × List α
  | set1, [] => (set1, [])
  | [], set2 => (set2, set2)
  | head1 :: tail1, head2 :: tail2 =>
    match compare head1 head2 with
    | .eq =>
      let (union, diff) := ordUnion4 tail1 tail2
      (head1 :: union, diff)
    | .lt =>
      let (union, diff) := ordUnion4 tail1 (head2 :: tail2)
      (head1 :: union, diff)
    | .gt =>
      let (union, diff) := ordUnion4 (head1 :: tail1) tail2
      (head2 :: union, head2 :: diff)
termination_by l1 l2 => l1.length + l2.length

/-- The union of the first `n` sets of the list, and the rest of it; `none` where the source fails,
and for no set, where it does not end. -/
def ordUnionAll (n : ℕ) (sets0 : List (List α)) : Option (List α × List (List α)) :=
  if n = 0 then none
  else if n = 1 then
    match sets0 with
    | union :: sets => some (union, sets)
    | [] => none
  else if n = 2 then
    match sets0 with
    | set1 :: set2 :: sets => some (ordUnion set1 set2, sets)
    | _ => none
  else do
    let (x, sets1) ← ordUnionAll (n / 2) sets0
    let (y, sets) ← ordUnionAll (n - n / 2) sets1
    return (ordUnion x y, sets)
termination_by n

/-- `ord_union/2`. -/
def ordUnion2 : List (List α) → Option (List α)
  | [] => some []
  | set :: sets => do
    let (union, rest) ← ordUnionAll (set :: sets).length (set :: sets)
    -- the last argument of the call is `[]`
    if rest = [] then some union else none

-- ---------------------------------------------------------------------------
-- Two ordered lists
-- ---------------------------------------------------------------------------

theorem OrdSet.tail {a : α} {l : List α} (h : OrdSet (a :: l)) : OrdSet l := (List.pairwise_cons.mp h).2

theorem OrdSet.head_lt {a : α} {l : List α} (h : OrdSet (a :: l)) : ∀ x ∈ l, a < x :=
  (List.pairwise_cons.mp h).1

theorem OrdSet.lt_of_lt_head {a b : α} {l : List α} (h : OrdSet (b :: l)) (hab : a < b) : ∀ x ∈ b :: l, a < x :=
  List.forall_mem_cons.mpr ⟨hab, fun x hx => hab.trans (h.head_lt x hx)⟩

/-- The induction of every operation on two ordered sets: the least element of both is taken off
the set it is in, or off both. -/
theorem merge_induction {motive : List α → List α → Prop} (left : ∀ l2, OrdSet l2 → motive [] l2)
    (right : ∀ l1, OrdSet l1 → motive l1 [])
    (eq : ∀ a t1 t2, (∀ x ∈ t1, a < x) → (∀ x ∈ t2, a < x) → motive t1 t2 → motive (a :: t1) (a :: t2))
    (lt : ∀ a t1 b t2, a < b → (∀ x ∈ t1, a < x) → (∀ x ∈ b :: t2, a < x) → motive t1 (b :: t2) →
      motive (a :: t1) (b :: t2))
    (gt : ∀ a t1 b t2, b < a → (∀ x ∈ a :: t1, b < x) → (∀ x ∈ t2, b < x) → motive (a :: t1) t2 →
      motive (a :: t1) (b :: t2))
    {l1 l2 : List α} (h1 : OrdSet l1) (h2 : OrdSet l2) : motive l1 l2 := by
  induction l1 generalizing l2 with
  | nil => exact left l2 h2
  | cons a t1 ih1 =>
    induction l2 with
    | nil => exact right _ h1
    | cons b t2 ih2 =>
      rcases lt_trichotomy a b with hlt | rfl | hgt
      · exact lt a t1 b t2 hlt h1.head_lt (h2.lt_of_lt_head hlt) (ih1 h1.tail h2)
      · exact eq a t1 t2 h1.head_lt h2.head_lt (ih1 h1.tail h2.tail)
      · exact gt a t1 b t2 hgt (h1.lt_of_lt_head hgt) h2.head_lt (ih2 h2.tail)

theorem ordAddElement_eq (l : List α) (e : α) : ordAddElement l e = ordInsert l e := by
  cases l <;> rfl

-- ---------------------------------------------------------------------------
-- Intersections
-- ---------------------------------------------------------------------------

theorem mem_ordIntersection {l1 l2 : List α} (h1 : OrdSet l1) (h2 : OrdSet l2) (x : α) :
    x ∈ ordIntersection l1 l2 ↔ x ∈ l1 ∧ x ∈ l2 := by
  refine merge_induction (motive := fun l1 l2 => x ∈ ordIntersection l1 l2 ↔ x ∈ l1 ∧ x ∈ l2)
    ?left ?right ?eq ?lt ?gt h1 h2
  case left => simp [ordIntersection]
  case right => rintro (_ | ⟨a, t⟩) <;> simp [ordIntersection]
  case eq =>
    intro a t1 t2 _ _ ih
    simp only [ordIntersection, if_pos, List.mem_cons, ih]
    tauto
  case lt =>
    intro a t1 b t2 hlt _ hnot ih
    simp only [ordIntersection, if_neg hlt.ne, if_pos hlt, ih]
    grind
  case gt =>
    intro a t1 b t2 hgt hnot _ ih
    simp only [ordIntersection, if_neg hgt.ne', if_neg hgt.asymm, ih]
    grind

theorem ordIntersection_sublist (l1 l2 : List α) : (ordIntersection l1 l2).Sublist l1 := by
  induction l1, l2 using ordIntersection.induct with
  | case1 l2 => simp [ordIntersection]
  | case2 => simp [ordIntersection]
  | case3 a t1 t2 ih => simpa [ordIntersection] using ih
  | case4 a t1 b t2 hne hlt ih =>
    rw [ordIntersection, if_neg hne, if_pos hlt]
    exact ih.cons a
  | case5 a t1 b t2 hne hlt ih => rwa [ordIntersection, if_neg hne, if_neg hlt]

theorem ordSet_ordIntersection {l1 : List α} (h1 : OrdSet l1) (l2 : List α) : OrdSet (ordIntersection l1 l2) :=
  List.Pairwise.sublist (ordIntersection_sublist l1 l2) h1

/-- The two results of `ord_intersection/4` are those of two other operations. -/
theorem ordIntersection4_eq {l1 l2 : List α} (h1 : OrdSet l1) (h2 : OrdSet l2) :
    ordIntersection4 l1 l2 = (ordIntersection l1 l2, ordSubtract l2 l1) := by
  refine merge_induction (motive := fun l1 l2 => ordIntersection4 l1 l2 = (ordIntersection l1 l2, ordSubtract l2 l1))
    ?left ?right ?eq ?lt ?gt h1 h2
  case left => simp [ordIntersection4, ordIntersection, ordSubtract]
  case right => rintro (_ | ⟨a, t⟩) <;> simp [ordIntersection4, ordIntersection, ordSubtract]
  case eq =>
    intro a t1 t2 _ _ ih
    simp [ordIntersection4, ordIntersection, ordSubtract, ih]
  case lt =>
    intro a t1 b t2 hlt _ _ ih
    simp [ordIntersection4, ordIntersection, ordSubtract, ih, hlt, hlt.ne, compare_gt_iff_gt.mpr hlt]
  case gt =>
    intro a t1 b t2 hgt _ _ ih
    simp [ordIntersection4, ordIntersection, ordSubtract, ih, hgt.asymm, hgt.ne', compare_lt_iff_lt.mpr hgt]

theorem ordIntersect_iff {l1 l2 : List α} (h1 : OrdSet l1) (h2 : OrdSet l2) :
    ordIntersect l1 l2 = true ↔ ∃ x, x ∈ l1 ∧ x ∈ l2 := by
  refine merge_induction (motive := fun l1 l2 => ordIntersect l1 l2 = true ↔ ∃ x, x ∈ l1 ∧ x ∈ l2)
    ?left ?right ?eq ?lt ?gt h1 h2
  case left => simp [ordIntersect]
  case right => simp [ordIntersect]
  case eq =>
    intro a t1 t2 _ _ _
    simp only [ordIntersect, compare_eq_iff_eq.mpr, true_iff]
    exact ⟨a, List.mem_cons_self, List.mem_cons_self⟩
  case lt =>
    intro a t1 b t2 hlt _ hnot ih
    simp only [ordIntersect, compare_lt_iff_lt.mpr hlt, ih]
    grind
  case gt =>
    intro a t1 b t2 hgt hnot _ ih
    simp only [ordIntersect, compare_gt_iff_gt.mpr hgt, ih]
    grind

theorem ordDisjoint_eq {l1 l2 : List α} (h1 : OrdSet l1) (h2 : OrdSet l2) :
    ordDisjoint l1 l2 = !ordIntersect l1 l2 := by
  refine merge_induction (motive := fun l1 l2 => ordDisjoint l1 l2 = !ordIntersect l1 l2)
    ?left ?right ?eq ?lt ?gt h1 h2
  case left => simp [ordDisjoint, ordIntersect]
  case right => rintro (_ | ⟨a, t⟩) <;> simp [ordDisjoint, ordIntersect]
  case eq =>
    intro a t1 t2 _ _ _
    simp [ordDisjoint, ordIntersect]
  case lt =>
    intro a t1 b t2 hlt _ _ ih
    simp [ordDisjoint, ordIntersect, compare_lt_iff_lt.mpr hlt, ih]
  case gt =>
    intro a t1 b t2 hgt _ _ ih
    simp [ordDisjoint, ordIntersect, compare_gt_iff_gt.mpr hgt, ih]

-- ---------------------------------------------------------------------------
-- Inclusion and differences
-- ---------------------------------------------------------------------------

theorem ordSubset_iff {l1 l2 : List α} (h1 : OrdSet l1) (h2 : OrdSet l2) :
    ordSubset l1 l2 = true ↔ ∀ x ∈ l1, x ∈ l2 := by
  refine merge_induction (motive := fun l1 l2 => ordSubset l1 l2 = true ↔ ∀ x ∈ l1, x ∈ l2)
    ?left ?right ?eq ?lt ?gt h1 h2
  case left => simp [ordSubset]
  case right =>
    rintro (_ | ⟨a, t⟩) _
    · simp [ordSubset]
    · simp only [ordSubset, Bool.false_eq_true, false_iff]
      exact fun hall => List.not_mem_nil (hall a List.mem_cons_self)
  case eq =>
    intro a t1 t2 hle _ ih
    simp only [ordSubset, compare_eq_iff_eq.mpr, ih]
    grind
  case lt =>
    intro a t1 b t2 hlt _ hnot _
    have hmem : a ∉ b :: t2 := fun hmem => (hnot a hmem).false
    simp only [ordSubset, compare_lt_iff_lt.mpr hlt, Bool.false_eq_true, false_iff]
    exact fun hall => hmem (hall a List.mem_cons_self)
  case gt =>
    intro a t1 b t2 hgt hnot _ ih
    simp only [ordSubset, compare_gt_iff_gt.mpr hgt, ih]
    grind

theorem ordDelElement_eq (l : List α) (e : α) : ordDelElement l e = ordSubtract l [e] := by
  induction l with
  | nil => simp [ordDelElement, ordSubtract]
  | cons a t ih =>
    rw [ordDelElement, ordSubtract]
    cases compare a e <;> simp [ih, ordSubtract]

/-- What is put in front is below the rest, which is in one of the two sets. -/
theorem ordSymdiff_spec {l1 l2 : List α} (h1 : OrdSet l1) (h2 : OrdSet l2) :
    OrdSet (ordSymdiff l1 l2) ∧ ∀ x, x ∈ ordSymdiff l1 l2 ↔ x ∈ l1 ∧ x ∉ l2 ∨ x ∈ l2 ∧ x ∉ l1 := by
  refine merge_induction (motive := fun l1 l2 => OrdSet (ordSymdiff l1 l2) ∧
    ∀ x, x ∈ ordSymdiff l1 l2 ↔ x ∈ l1 ∧ x ∉ l2 ∨ x ∈ l2 ∧ x ∉ l1) ?left ?right ?eq ?lt ?gt h1 h2
  case left => rintro (_ | ⟨a, t⟩) h <;> simp [ordSymdiff, h]
  case right =>
    intro l h
    simp [ordSymdiff, h]
  case eq =>
    intro a t1 t2 hle1 hle2 ⟨hord, ih⟩
    simp only [ordSymdiff, compare_eq_iff_eq.mpr, ih]
    refine ⟨hord, ?_⟩
    grind
  case lt =>
    intro a t1 b t2 hlt hle hnot ⟨hord, ih⟩
    simp only [ordSymdiff, compare_lt_iff_lt.mpr hlt]
    refine ⟨List.pairwise_cons.mpr ⟨fun x hx => ?_, hord⟩, fun x => ?_⟩
    · exact ((ih x).mp hx).elim (fun h => hle x h.1) fun h => hnot x h.1
    · rw [List.mem_cons, ih]
      grind
  case gt =>
    intro a t1 b t2 hgt hnot hle ⟨hord, ih⟩
    simp only [ordSymdiff, compare_gt_iff_gt.mpr hgt]
    refine ⟨List.pairwise_cons.mpr ⟨fun x hx => ?_, hord⟩, fun x => ?_⟩
    · exact ((ih x).mp hx).elim (fun h => hnot x h.1) fun h => hle x h.1
    · rw [List.mem_cons, ih]
      grind

theorem ordUnion4_eq {l1 l2 : List α} (h1 : OrdSet l1) (h2 : OrdSet l2) :
    ordUnion4 l1 l2 = (ordUnion l1 l2, ordSubtract l2 l1) := by
  refine merge_induction (motive := fun l1 l2 => ordUnion4 l1 l2 = (ordUnion l1 l2, ordSubtract l2 l1))
    ?left ?right ?eq ?lt ?gt h1 h2
  case left => rintro (_ | ⟨a, t⟩) <;> simp [ordUnion4, ordUnion, ordSubtract]
  case right => rintro (_ | ⟨a, t⟩) <;> simp [ordUnion4, ordUnion, ordSubtract]
  case eq =>
    intro a t1 t2 _ _ ih
    simp [ordUnion4, ordUnion, ordSubtract, ih]
  case lt =>
    intro a t1 b t2 hlt _ _ ih
    simp [ordUnion4, ordUnion, ordSubtract, ih, compare_lt_iff_lt.mpr hlt, compare_gt_iff_gt.mpr hlt]
  case gt =>
    intro a t1 b t2 hgt _ _ ih
    simp [ordUnion4, ordUnion, ordSubtract, ih, compare_gt_iff_gt.mpr hgt, compare_lt_iff_lt.mpr hgt]

/-- What the second set adds. -/
theorem length_ordUnion {l1 l2 : List α} (h1 : OrdSet l1) (h2 : OrdSet l2) :
    (ordUnion l1 l2).length = l1.length + (ordSubtract l2 l1).length := by
  refine merge_induction
    (motive := fun l1 l2 => (ordUnion l1 l2).length = l1.length + (ordSubtract l2 l1).length)
    ?left ?right ?eq ?lt ?gt h1 h2
  case left => rintro (_ | ⟨a, t⟩) <;> simp [ordUnion, ordSubtract]
  case right => rintro (_ | ⟨a, t⟩) <;> simp [ordUnion, ordSubtract]
  case eq =>
    intro a t1 t2 _ _ ih
    simp [ordUnion, ordSubtract, ih, Nat.add_right_comm]
  case lt =>
    intro a t1 b t2 hlt _ _ ih
    simp [ordUnion, ordSubtract, ih, compare_lt_iff_lt.mpr hlt, compare_gt_iff_gt.mpr hlt, Nat.add_right_comm]
  case gt =>
    intro a t1 b t2 hgt _ _ ih
    simp [ordUnion, ordSubtract, ih, compare_gt_iff_gt.mpr hgt, compare_lt_iff_lt.mpr hgt, Nat.add_assoc]

-- ---------------------------------------------------------------------------
-- Sets
-- ---------------------------------------------------------------------------

/-- The list is the ordered set of the elements of `A`. -/
def Represents (l : List α) (A : Set α) : Prop := OrdSet l ∧ ∀ x, x ∈ l ↔ x ∈ A

section Represents

variable {s1 s2 : List α} {A B : Set α} (h1 : Represents s1 A) (h2 : Represents s2 B)
include h1

theorem Represents.insert (e : α) : Represents (ordInsert s1 e) (insert e A) :=
  ⟨ordSet_ordInsert h1.1 e, fun x => by rw [mem_ordInsert, h1.2, Set.mem_insert_iff]⟩

theorem Represents.delElement (e : α) : Represents (ordDelElement s1 e) (A \ {e}) := by
  rw [ordDelElement_eq]
  refine ⟨ordSet_ordSubtract h1.1 _, fun x => ?_⟩
  rw [mem_ordSubtract h1.1 (List.pairwise_singleton _ _), h1.2, List.mem_singleton, Set.mem_sdiff,
    Set.mem_singleton_iff]

theorem Represents.memberchk (e : α) : ordMemberchk e s1 = true ↔ e ∈ A := by
  rw [ordMemberchk_iff, h1.2]

include h2

theorem Represents.union : Represents (ordUnion s1 s2) (A ∪ B) :=
  ⟨ordSet_ordUnion h1.1 h2.1, fun x => by rw [mem_ordUnion, h1.2, h2.2, Set.mem_union]⟩

theorem Represents.subtract : Represents (ordSubtract s1 s2) (A \ B) := by
  refine ⟨ordSet_ordSubtract h1.1 s2, fun x => ?_⟩
  rw [mem_ordSubtract h1.1 (h2.1.imp le_of_lt), h1.2, h2.2, Set.mem_sdiff]

theorem Represents.symmDiff : Represents (ordSymdiff s1 s2) (symmDiff A B) := by
  refine ⟨(ordSymdiff_spec h1.1 h2.1).1, fun x => ?_⟩
  rw [(ordSymdiff_spec h1.1 h2.1).2, h1.2, h2.2, Set.mem_symmDiff]

theorem Represents.inter : Represents (ordIntersection s1 s2) (A ∩ B) :=
  ⟨ordSet_ordIntersection h1.1 s2, fun x => by rw [mem_ordIntersection h1.1 h2.1, h1.2, h2.2, Set.mem_inter_iff]⟩

theorem Represents.union4 :
    Represents (ordUnion4 s1 s2).1 (A ∪ B) ∧ Represents (ordUnion4 s1 s2).2 (B \ A) := by
  rw [ordUnion4_eq h1.1 h2.1]
  exact ⟨h1.union h2, h2.subtract h1⟩

theorem Represents.inter4 :
    Represents (ordIntersection4 s1 s2).1 (A ∩ B) ∧ Represents (ordIntersection4 s1 s2).2 (B \ A) := by
  rw [ordIntersection4_eq h1.1 h2.1]
  exact ⟨h1.inter h2, h2.subtract h1⟩

theorem Represents.intersect : ordIntersect s1 s2 = true ↔ (A ∩ B).Nonempty := by
  simp only [ordIntersect_iff h1.1 h2.1, h1.2, h2.2, Set.Nonempty, Set.mem_inter_iff]

theorem Represents.disjoint : ordDisjoint s1 s2 = true ↔ Disjoint A B := by
  rw [ordDisjoint_eq h1.1 h2.1, Bool.not_eq_true', ← Bool.not_eq_true, h1.intersect h2,
    Set.not_nonempty_iff_eq_empty, Set.disjoint_iff_inter_eq_empty]

theorem Represents.subset : ordSubset s1 s2 = true ↔ A ⊆ B := by
  simp only [ordSubset_iff h1.1 h2.1, h1.2, h2.2, Set.subset_def]

theorem Represents.seteq : ordSeteq s1 s2 = true ↔ A = B := by
  rw [ordSeteq, decide_eq_true_eq]
  constructor
  · rintro rfl
    exact Set.ext fun x => (h1.2 x).symm.trans (h2.2 x)
  · rintro rfl
    exact h1.1.ext h2.1 fun x => (h1.2 x).trans (h2.2 x).symm

end Represents

-- ---------------------------------------------------------------------------
-- The union of a list of sets
-- ---------------------------------------------------------------------------

omit [LinearOrder α] in
theorem iUnion_append (As Bs : List (Set α)) : ⋃ A ∈ As ++ Bs, A = (⋃ A ∈ As, A) ∪ ⋃ A ∈ Bs, A := by
  ext x
  simp only [Set.mem_iUnion, Set.mem_union, List.mem_append, exists_prop, or_and_right, exists_or]

/-- The union of the first `n` sets: they are split in two, and the union of each half is one of
fewer sets. -/
theorem ordUnionAll_spec {n : ℕ} (hn : n ≠ 0) {sets : List (List α)} {As : List (Set α)}
    (hsets : List.Forall₂ Represents sets As) (hlen : sets.length = n) (rest : List (List α)) :
    ∃ union, ordUnionAll n (sets ++ rest) = some (union, rest) ∧ Represents union (⋃ A ∈ As, A) := by
  induction n using Nat.strong_induction_on generalizing sets As rest with
  | h n ih =>
    rw [ordUnionAll.eq_def, if_neg hn]
    by_cases hone : n = 1
    · obtain ⟨s, rfl⟩ := List.length_eq_one_iff.mp (hlen.trans hone)
      cases hsets with
      | cons h hsets =>
        cases hsets
        exact ⟨s, by simp [hone], by simpa using h⟩
    · by_cases htwo : n = 2
      · obtain ⟨s1, s2, rfl⟩ := List.length_eq_two.mp (hlen.trans htwo)
        cases hsets with
        | cons h1 hsets =>
          cases hsets with
          | cons h2 hsets =>
            cases hsets
            exact ⟨ordUnion s1 s2, by simp [htwo], by simpa using h1.union h2⟩
      · have hleft := List.forall₂_take (n / 2) hsets
        have hright := List.forall₂_drop (n / 2) hsets
        obtain ⟨x, hx, hxrep⟩ := ih (n / 2) (by omega) (by omega) hleft
          (by rw [List.length_take]; omega) (sets.drop (n / 2) ++ rest)
        obtain ⟨y, hy, hyrep⟩ := ih (n - n / 2) (by omega) (by omega) hright
          (by rw [List.length_drop]; omega) rest
        rw [← List.append_assoc, List.take_append_drop] at hx
        refine ⟨ordUnion x y, by simp [hone, htwo, hx, hy], ?_⟩
        have hsplit := iUnion_append (As.take (n / 2)) (As.drop (n / 2))
        rw [List.take_append_drop] at hsplit
        exact hsplit ▸ hxrep.union hyrep

theorem ordUnion2_spec {sets : List (List α)} {As : List (Set α)} (hsets : List.Forall₂ Represents sets As) :
    ∃ union, ordUnion2 sets = some union ∧ Represents union (⋃ A ∈ As, A) := by
  cases hsets with
  | nil => exact ⟨[], rfl, List.Pairwise.nil, by simp⟩
  | @cons s A sets As h hsets =>
    obtain ⟨union, hunion, hrep⟩ :=
      ordUnionAll_spec (Nat.succ_ne_zero _) (List.Forall₂.cons h hsets) List.length_cons []
    refine ⟨union, ?_, hrep⟩
    rw [List.append_nil] at hunion
    rw [ordUnion2, List.length_cons, hunion]
    rfl

/-- The elements of a list. -/
def elements (l : List α) : Set α := {x | x ∈ l}

theorem OrdSet.represents {l : List α} (h : OrdSet l) : Represents l (elements l) := ⟨h, fun _ => Iff.rfl⟩

theorem represents_elements {sets : List (List α)} (h : ∀ s ∈ sets, OrdSet s) :
    List.Forall₂ Represents sets (sets.map elements) := by
  rw [List.forall₂_map_right_iff, List.forall₂_same]
  exact fun s hs => (h s hs).represents

/-- The operations on ordered sets. -/
theorem operations_represent {s1 s2 : List α} (h1 : OrdSet s1) (h2 : OrdSet s2) (e : α)
    {sets : List (List α)} (hsets : ∀ s ∈ sets, OrdSet s) :
    Represents (ordInsert s1 e) (insert e (elements s1)) ∧
      Represents (ordAddElement s1 e) (insert e (elements s1)) ∧
      Represents (ordDelElement s1 e) (elements s1 \ {e}) ∧
      (ordMemberchk e s1 = true ↔ e ∈ elements s1) ∧
      Represents (ordUnion s1 s2) (elements s1 ∪ elements s2) ∧
      Represents (ordUnion4 s1 s2).1 (elements s1 ∪ elements s2) ∧
      Represents (ordUnion4 s1 s2).2 (elements s2 \ elements s1) ∧
      Represents (ordSubtract s1 s2) (elements s1 \ elements s2) ∧
      Represents (ordSymdiff s1 s2) (symmDiff (elements s1) (elements s2)) ∧
      (ordIntersect s1 s2 = true ↔ (elements s1 ∩ elements s2).Nonempty) ∧
      Represents (ordIntersect3 s1 s2) (elements s1 ∩ elements s2) ∧
      Represents (ordIntersection s1 s2) (elements s1 ∩ elements s2) ∧
      Represents (ordIntersection4 s1 s2).1 (elements s1 ∩ elements s2) ∧
      Represents (ordIntersection4 s1 s2).2 (elements s2 \ elements s1) ∧
      (ordSeteq s1 s2 = true ↔ elements s1 = elements s2) ∧
      (ordSubset s1 s2 = true ↔ elements s1 ⊆ elements s2) ∧
      (ordDisjoint s1 s2 = true ↔ Disjoint (elements s1) (elements s2)) ∧
      ∃ union, ordUnion2 sets = some union ∧ Represents union (⋃ s ∈ sets, elements s) := by
  have hr1 := h1.represents
  have hr2 := h2.represents
  refine ⟨hr1.insert e, ordAddElement_eq s1 e ▸ hr1.insert e, hr1.delElement e, hr1.memberchk e, hr1.union hr2,
    (hr1.union4 hr2).1, (hr1.union4 hr2).2, hr1.subtract hr2, hr1.symmDiff hr2, hr1.intersect hr2,
    hr1.inter hr2, hr1.inter hr2, (hr1.inter4 hr2).1, (hr1.inter4 hr2).2, hr1.seteq hr2, hr1.subset hr2,
    hr1.disjoint hr2, ?_⟩
  obtain ⟨union, hunion, hrep⟩ := ordUnion2_spec (represents_elements hsets)
  refine ⟨union, hunion, ?_⟩
  simpa using hrep

theorem operations_represent_one_two : ∃ union, ordUnion2 [[1, 3], [2]] = some union ∧
    Represents union (⋃ s ∈ [[1, 3], [2]], elements s) :=
  (@operations_represent ℕ _ [1, 3] [2] (by decide) (by decide) 2 [[1, 3], [2]] (by decide)).2.2.2.2.2.2.2.2.2.2.2.2.2.2.2.2.2

end Ordsets

end Yap
