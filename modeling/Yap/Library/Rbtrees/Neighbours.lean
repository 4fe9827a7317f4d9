-- SUMMARY: rb_min/3, rb_max/3, rb_next/4 and rb_previous/4 of library(rbtrees): the neighbours of a key, and iteration over a tree.
import Yap.Library.Rbtrees.Tree

/-!
# Neighbours

`next/5` carries a candidate: the last entry at which the descent went left.
It is `[]` in the source before the first of them, and `none` here.
-/

namespace Yap

namespace Rbtrees

variable {α β : Type*}

-- ---------------------------------------------------------------------------
-- The ends of a tree
-- ---------------------------------------------------------------------------

def min : Tree α β → Option (α × β)
  | .nil => none
  | .red .nil key val _ => some (key, val)
  | .black .nil key val _ => some (key, val)
  | .red right _ _ _ => min right
  | .black right _ _ _ => min right

def rbMin (t : Tree α β) : Option (α × β) := min t

def max : Tree α β → Option (α × β)
  | .nil => none
  | .red _ key val .nil => some (key, val)
  | .black _ key val .nil => some (key, val)
  | .red _ _ _ left => max left
  | .black _ _ _ left => max left

def rbMax (t : Tree α β) : Option (α × β) := max t

theorem head?_append_cons (l : List (α × β)) (e : α × β) (r : List (α × β)) :
    (l ++ e :: r).head? = l.head?.or (some e) := by
  rw [List.head?_append, List.head?_cons]

theorem getLast?_append_cons (l : List (α × β)) (e : α × β) (r : List (α × β)) :
    (l ++ e :: r).getLast? = r.getLast?.or (some e) := by
  rw [List.getLast?_append, List.getLast?_cons]
  cases r.getLast? <;> rfl

theorem Tree.head?_isSome {t : Tree α β} (h : t ≠ .nil) : ∃ e, t.toList.head? = some e := by
  cases t with
  | nil => exact absurd rfl h
  | red l k v r | black l k v r =>
    cases hl : l.toList.head? with
    | none => exact ⟨(k, v), by simp [hl]⟩
    | some e => exact ⟨e, by simp [hl]⟩

theorem Tree.getLast?_isSome {t : Tree α β} (h : t ≠ .nil) : ∃ e, t.toList.getLast? = some e := by
  cases t with
  | nil => exact absurd rfl h
  | red l k v r | black l k v r =>
    cases hr : r.toList.getLast? with
    | none => exact ⟨(k, v), by simp [List.getLast?_cons, hr]⟩
    | some e => exact ⟨e, by simp [List.getLast?_cons, hr]⟩

/-- The entry of the minimum is the first one. -/
theorem min_eq (t : Tree α β) : min t = t.toList.head? := by
  induction t with
  | nil => rfl
  | red l k v r ihl _ | black l k v r ihl _ =>
    by_cases hl : l = .nil
    · subst hl
      rfl
    · obtain ⟨e, he⟩ := Tree.head?_isSome hl
      rw [min, ihl]
      · simp only [toList_red, toList_black, head?_append_cons, he, Option.some_or]
      · exact hl

theorem max_eq (t : Tree α β) : max t = t.toList.getLast? := by
  induction t with
  | nil => rfl
  | red l k v r _ ihr | black l k v r _ ihr =>
    by_cases hr : r = .nil
    · subst hr
      simp [max]
    · obtain ⟨e, he⟩ := Tree.getLast?_isSome hr
      rw [max, ihr]
      · simp only [toList_red, toList_black, getLast?_append_cons, he, Option.some_or]
      · exact hr

-- ---------------------------------------------------------------------------
-- The neighbours of a key
-- ---------------------------------------------------------------------------

section Neighbours

variable [LinearOrder α]

/-- `next/5` and `next/8`. -/
def next (key : α) : Tree α β → Option (α × β) → Option (α × β)
  | .nil, _ => none
  | .red l ka va r, candidate | .black l ka va r, candidate =>
    match compare ka key with
    | .gt => next key l (some (ka, va))
    | .lt => next key r candidate
    | .eq => (min r).or candidate

def rbNext (t : Tree α β) (key : α) : Option (α × β) := next key t none

/-- `previous/5` and `previous/8`. -/
def previous (key : α) : Tree α β → Option (α × β) → Option (α × β)
  | .nil, _ => none
  | .red l ka va r, candidate | .black l ka va r, candidate =>
    match compare ka key with
    | .gt => previous key l candidate
    | .lt => previous key r (some (ka, va))
    | .eq => (max l).or candidate

def rbPrevious (t : Tree α β) (key : α) : Option (α × β) := previous key t none

variable {t : Tree α β} {key : α}

/-- The descent for a key that is there ends with the entry after it, or with the candidate. -/
theorem next_eq (hs : Assoc.Sorted t.toList) (candidate : Option (α × β)) :
    next key t candidate =
      (Assoc.value key t.toList).bind fun _ => (Assoc.after key t.toList).or candidate := by
  induction t generalizing candidate with
  | nil => rfl
  | red l ka va r ihl ihr | black l ka va r ihl ihr =>
    obtain ⟨hl, hr, -, -⟩ := Assoc.sorted_split.mp hs
    rw [next]
    split
    case h_1 hgt =>
      have hlt := compare_gt_iff_gt.mp hgt
      rw [ihl hl]
      simp only [toList_red, toList_black]
      rw [Assoc.value_left hs hlt, Assoc.after_left hlt, Option.or_assoc]
      rfl
    case h_2 hlt' =>
      have hlt := compare_lt_iff_lt.mp hlt'
      rw [ihr hr]
      simp only [toList_red, toList_black]
      rw [Assoc.value_right hs hlt, Assoc.after_right hs hlt]
    case h_3 heq =>
      obtain rfl := compare_eq_iff_eq.mp heq
      have hvalue := Assoc.value_here hs
      have hafter := Assoc.after_here hs
      rw [min_eq]
      simp only [toList_red, toList_black]
      rw [hvalue, hafter]
      rfl

theorem previous_eq (hs : Assoc.Sorted t.toList) (candidate : Option (α × β)) :
    previous key t candidate =
      (Assoc.value key t.toList).bind fun _ => (Assoc.before key t.toList).or candidate := by
  induction t generalizing candidate with
  | nil => rfl
  | red l ka va r ihl ihr | black l ka va r ihl ihr =>
    obtain ⟨hl, hr, -, -⟩ := Assoc.sorted_split.mp hs
    rw [previous]
    split
    case h_1 hgt =>
      have hlt := compare_gt_iff_gt.mp hgt
      rw [ihl hl]
      simp only [toList_red, toList_black]
      rw [Assoc.value_left hs hlt, Assoc.before_left hs hlt]
    case h_2 hlt' =>
      have hlt := compare_lt_iff_lt.mp hlt'
      rw [ihr hr]
      simp only [toList_red, toList_black]
      rw [Assoc.value_right hs hlt, Assoc.before_right hlt, Option.or_assoc]
      rfl
    case h_3 heq =>
      obtain rfl := compare_eq_iff_eq.mp heq
      have hvalue := Assoc.value_here hs
      have hbefore := Assoc.before_here hs
      rw [max_eq]
      simp only [toList_red, toList_black]
      rw [hvalue, hbefore]
      rfl

theorem rbNext_eq_some (hs : Assoc.Sorted t.toList) {e : α × β} :
    rbNext t key = some e ↔
      (∃ v, (key, v) ∈ t.toList) ∧ e ∈ t.toList ∧ key < e.1 ∧ ∀ a ∈ t.toList, key < a.1 → e.1 ≤ a.1 := by
  rw [rbNext, next_eq hs, Option.bind_eq_some_iff, ← Assoc.after_eq_some hs, Option.or_none]
  simp only [Assoc.value_eq_some hs, exists_and_right]

theorem rbNext_isSome (hs : Assoc.Sorted t.toList) :
    (rbNext t key).isSome ↔ (∃ v, (key, v) ∈ t.toList) ∧ ∃ e ∈ t.toList, key < e.1 := by
  rw [← Assoc.after_isSome]
  simp only [← Assoc.value_eq_some hs]
  rw [rbNext, next_eq hs, Option.or_none]
  cases Assoc.value key t.toList <;> simp

theorem rbPrevious_isSome (hs : Assoc.Sorted t.toList) :
    (rbPrevious t key).isSome ↔ (∃ v, (key, v) ∈ t.toList) ∧ ∃ e ∈ t.toList, e.1 < key := by
  rw [← Assoc.before_isSome]
  simp only [← Assoc.value_eq_some hs]
  rw [rbPrevious, previous_eq hs, Option.or_none]
  cases Assoc.value key t.toList <;> simp

theorem rbPrevious_eq_some (hs : Assoc.Sorted t.toList) {e : α × β} :
    rbPrevious t key = some e ↔
      (∃ v, (key, v) ∈ t.toList) ∧ e ∈ t.toList ∧ e.1 < key ∧ ∀ a ∈ t.toList, a.1 < key → a.1 ≤ e.1 := by
  rw [rbPrevious, previous_eq hs, Option.bind_eq_some_iff, ← Assoc.before_eq_some hs, Option.or_none]
  simp only [Assoc.value_eq_some hs, exists_and_right]

-- ---------------------------------------------------------------------------
-- Iteration
-- ---------------------------------------------------------------------------

/-- The entries met from one on, for a number of calls of `rb_next/4`. -/
def nexts (t : Tree α β) : ℕ → Option (α × β) → List (α × β)
  | 0, _ => []
  | _ + 1, none => []
  | calls + 1, some e => e :: nexts t calls (rbNext t e.1)

/-- From an entry, `rb_next/4` meets the rest of the list. -/
theorem nexts_eq (hs : Assoc.Sorted t.toList) {l r : List (α × β)} (ht : t.toList = l ++ r) {calls : ℕ}
    (hcalls : r.length ≤ calls) : nexts t calls r.head? = r := by
  induction calls generalizing l r with
  | zero =>
    rw [List.eq_nil_of_length_eq_zero (Nat.le_zero.mp hcalls)]
    rfl
  | succ calls ih =>
    cases r with
    | nil => rfl
    | cons e r =>
      have hsplit := ht ▸ hs
      have hnext : rbNext t e.1 = r.head? := by
        rw [rbNext, next_eq hs, ht, Assoc.value_here hsplit, Assoc.after_here hsplit, Option.or_none]
        rfl
      rw [List.head?_cons, nexts, hnext, ih (l := l ++ [e]) (by simpa using ht) (Nat.le_of_succ_le_succ hcalls)]

end Neighbours

-- ---------------------------------------------------------------------------
-- Neighbours in valid trees
-- ---------------------------------------------------------------------------

/-- In a valid tree, `rb_next/4` of a key that is there is the least entry above it and
`rb_previous/4` the greatest one below it; both fail otherwise. From the minimum on,
`rb_next/4` meets every entry once, in increasing order. -/
theorem rb_next_previous_correct [LinearOrder α] {t : Tree α β} (h : Valid t) :
    (∀ key,
      ((rbNext t key).isSome ↔ (∃ v, (key, v) ∈ t.toList) ∧ ∃ e ∈ t.toList, key < e.1) ∧
      (∀ e, rbNext t key = some e →
        e ∈ t.toList ∧ key < e.1 ∧ ∀ a ∈ t.toList, key < a.1 → e.1 ≤ a.1) ∧
      ((rbPrevious t key).isSome ↔ (∃ v, (key, v) ∈ t.toList) ∧ ∃ e ∈ t.toList, e.1 < key) ∧
      (∀ e, rbPrevious t key = some e →
        e ∈ t.toList ∧ e.1 < key ∧ ∀ a ∈ t.toList, a.1 < key → a.1 ≤ e.1)) ∧
    (∀ calls, t.toList.length ≤ calls → nexts t calls (rbMin t) = t.toList) ∧
    t.toList.Pairwise fun e e' => e.1 < e'.1 := by
  have hs := h.sorted
  refine ⟨fun key => ⟨rbNext_isSome hs, fun e he => ((rbNext_eq_some hs).mp he).2, rbPrevious_isSome hs,
    fun e he => ((rbPrevious_eq_some hs).mp he).2⟩, fun calls hcalls => ?_, hs⟩
  rw [rbMin, min_eq]
  exact nexts_eq hs (List.nil_append _).symm hcalls

theorem rb_next_previous_correct_three :
    Valid threeTree ∧ (rbNext threeTree 1 = some (2, 'b') → (2, 'b') ∈ threeTree.toList ∧ 1 < 2) ∧
      nexts threeTree 3 (rbMin threeTree) = threeTree.toList := by
  have h := rb_next_previous_correct valid_threeTree
  refine ⟨valid_threeTree, fun heq => ?_, h.2.1 3 (by decide)⟩
  have hnext := (h.1 1).2.1 (2, 'b') heq
  exact ⟨hnext.1, hnext.2.1⟩

end Rbtrees

end Yap
