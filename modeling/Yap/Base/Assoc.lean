-- SUMMARY: Association lists in increasing order of their keys: the value of a key, putting and removing an entry, and each of them at a split of the list.
import Mathlib

/-!
# Ordered association lists

The view of a search tree: its entries from left to right. An operation of the
tree goes to one side of an entry, so each operation of the list has a lemma
for the part before an entry, the part after it, and the entry itself.
-/

namespace Assoc

variable {α β : Type*} [LinearOrder α]

/-- The keys increase strictly. -/
def Sorted (l : List (α × β)) : Prop := l.Pairwise fun a b => a.1 < b.1

instance (l : List (α × β)) : Decidable (Sorted l) :=
  inferInstanceAs (Decidable (l.Pairwise fun a b => a.1 < b.1))

def value (k : α) (l : List (α × β)) : Option β := (l.find? fun e => e.1 = k).map Prod.snd

def put (k : α) (v : β) (l : List (α × β)) : List (α × β) :=
  l.filter (fun e => e.1 < k) ++ (k, v) :: l.filter fun e => k < e.1

def del (k : α) (l : List (α × β)) : List (α × β) := l.filter fun e => e.1 ≠ k

/-- The first entry with a greater key. -/
def after (k : α) (l : List (α × β)) : Option (α × β) := (l.filter fun e => k < e.1).head?

/-- The last entry with a smaller key. -/
def before (k : α) (l : List (α × β)) : Option (α × β) := (l.filter fun e => e.1 < k).getLast?

-- ---------------------------------------------------------------------------
-- Order
-- ---------------------------------------------------------------------------

theorem sorted_nil : Sorted ([] : List (α × β)) := List.Pairwise.nil

theorem sorted_split {l r : List (α × β)} {e : α × β} :
    Sorted (l ++ e :: r) ↔ Sorted l ∧ Sorted r ∧ (∀ a ∈ l, a.1 < e.1) ∧ ∀ b ∈ r, e.1 < b.1 := by
  unfold Sorted
  simp only [List.pairwise_append, List.pairwise_cons, List.mem_cons, forall_eq_or_imp]
  constructor
  · rintro ⟨hl, ⟨hr, hrs⟩, hlr⟩
    exact ⟨hl, hrs, fun a ha => (hlr a ha).1, hr⟩
  · rintro ⟨hl, hrs, hlt, hr⟩
    exact ⟨hl, ⟨hr, hrs⟩, fun a ha => ⟨hlt a ha, fun b hb => (hlt a ha).trans (hr b hb)⟩⟩

theorem Sorted.filter {l : List (α × β)} (h : Sorted l) (p : α × β → Bool) : Sorted (l.filter p) :=
  List.Pairwise.filter p h

theorem sorted_put {l : List (α × β)} (h : Sorted l) (k : α) (v : β) : Sorted (put k v l) :=
  sorted_split.mpr ⟨h.filter _, h.filter _, fun a ha => by simpa using (List.mem_filter.mp ha).2,
    fun b hb => by simpa using (List.mem_filter.mp hb).2⟩

theorem sorted_del {l : List (α × β)} (h : Sorted l) (k : α) : Sorted (del k l) := h.filter _

-- ---------------------------------------------------------------------------
-- The map of a list
-- ---------------------------------------------------------------------------

@[simp] theorem value_nil (k : α) : value k ([] : List (α × β)) = none := rfl

theorem value_eq_none {k : α} {l : List (α × β)} : value k l = none ↔ ∀ e ∈ l, e.1 ≠ k := by
  simp [value]

theorem mem_of_value {k : α} {v : β} {l : List (α × β)} (h : value k l = some v) : (k, v) ∈ l := by
  simp only [value, Option.map_eq_some_iff] at h
  obtain ⟨e, he, rfl⟩ := h
  have hk : e.1 = k := by simpa using List.find?_some he
  rw [← hk]
  exact List.mem_of_find?_eq_some he

/-- In an ordered list a key has one value. -/
theorem value_eq_some {k : α} {v : β} {l : List (α × β)} (h : Sorted l) :
    value k l = some v ↔ (k, v) ∈ l := by
  refine ⟨mem_of_value, fun hmem => ?_⟩
  obtain ⟨l₁, l₂, rfl⟩ := List.mem_iff_append.mp hmem
  have hnone : l₁.find? (fun e => e.1 = k) = none :=
    List.find?_eq_none.mpr fun a ha => by simpa using ((sorted_split.mp h).2.2.1 a ha).ne
  simp [value, List.find?_append, hnone]

theorem mem_put {k : α} {v : β} {l : List (α × β)} {e : α × β} :
    e ∈ put k v l ↔ e = (k, v) ∨ e ∈ l ∧ e.1 ≠ k := by
  simp only [put, List.mem_append, List.mem_cons, List.mem_filter, decide_eq_true_eq, ne_iff_lt_or_gt]
  tauto

theorem mem_del {k : α} {l : List (α × β)} {e : α × β} : e ∈ del k l ↔ e ∈ l ∧ e.1 ≠ k := by
  simp [del]

theorem value_put {l : List (α × β)} (h : Sorted l) (k : α) (v : β) (k' : α) :
    value k' (put k v l) = if k' = k then some v else value k' l := by
  ext w
  rw [value_eq_some (sorted_put h k v), mem_put]
  split_ifs with heq
  · simp [heq, eq_comm]
  · simp [heq, value_eq_some h]

theorem value_del {l : List (α × β)} (h : Sorted l) (k k' : α) :
    value k' (del k l) = if k' = k then none else value k' l := by
  ext w
  rw [value_eq_some (sorted_del h k), mem_del]
  split_ifs with heq
  · simp [heq]
  · simp [heq, value_eq_some h]

/-- Two ordered lists with the same entries are equal. -/
theorem ext_mem {l l' : List (α × β)} (h : Sorted l) (h' : Sorted l') (heq : ∀ e, e ∈ l ↔ e ∈ l') : l = l' := by
  refine List.Perm.eq_of_pairwise (fun a b _ _ hab hba => absurd hab hba.asymm) h h' ?_
  refine (List.perm_ext_iff_of_nodup ?_ ?_).mpr heq
  · exact h.imp fun hab heq => absurd (congrArg Prod.fst heq) hab.ne
  · exact h'.imp fun hab heq => absurd (congrArg Prod.fst heq) hab.ne

-- ---------------------------------------------------------------------------
-- Neighbours
-- ---------------------------------------------------------------------------

/-- The entry after a key is the least one above it. -/
theorem after_eq_some {k : α} {l : List (α × β)} {e : α × β} (h : Sorted l) :
    after k l = some e ↔ e ∈ l ∧ k < e.1 ∧ ∀ a ∈ l, k < a.1 → e.1 ≤ a.1 := by
  have hf : Sorted (l.filter fun a => k < a.1) := h.filter _
  constructor
  · intro heq
    obtain ⟨rest, hcons⟩ := List.head?_eq_some_iff.mp heq
    have hmem : e ∈ l.filter fun a => k < a.1 := hcons ▸ List.mem_cons_self
    rw [List.mem_filter, decide_eq_true_eq] at hmem
    refine ⟨hmem.1, hmem.2, fun a ha hlt => ?_⟩
    have hin : a ∈ l.filter fun a => k < a.1 := by simp [ha, hlt]
    rw [hcons] at hf hin
    obtain rfl | hrest := List.mem_cons.mp hin
    · exact le_rfl
    · exact ((List.pairwise_cons.mp hf).1 a hrest).le
  · rintro ⟨hmem, hlt, hleast⟩
    have hin : e ∈ l.filter fun a => k < a.1 := by simp [hmem, hlt]
    unfold after
    cases hcons : l.filter fun a => k < a.1 with
    | nil =>
      rw [hcons] at hin
      cases hin
    | cons a rest =>
      have ha : a ∈ l.filter fun a => k < a.1 := hcons ▸ List.mem_cons_self
      rw [List.mem_filter, decide_eq_true_eq] at ha
      rw [hcons] at hf hin
      obtain rfl | hrest := List.mem_cons.mp hin
      · rfl
      · exact absurd ((List.pairwise_cons.mp hf).1 e hrest) (hleast a ha.1 ha.2).not_gt

/-- The entry before a key is the greatest one below it. -/
theorem before_eq_some {k : α} {l : List (α × β)} {e : α × β} (h : Sorted l) :
    before k l = some e ↔ e ∈ l ∧ e.1 < k ∧ ∀ a ∈ l, a.1 < k → a.1 ≤ e.1 := by
  have hf : Sorted (l.filter fun a => a.1 < k) := h.filter _
  constructor
  · intro heq
    obtain ⟨rest, hconcat⟩ := List.getLast?_eq_some_iff.mp heq
    have hmem : e ∈ l.filter fun a => a.1 < k := hconcat ▸ List.mem_append_right _ List.mem_cons_self
    rw [List.mem_filter, decide_eq_true_eq] at hmem
    refine ⟨hmem.1, hmem.2, fun a ha hlt => ?_⟩
    have hin : a ∈ l.filter fun a => a.1 < k := by simp [ha, hlt]
    rw [hconcat] at hf hin
    obtain hrest | hlast := List.mem_append.mp hin
    · exact ((sorted_split.mp hf).2.2.1 a hrest).le
    · exact (List.mem_singleton.mp hlast) ▸ le_rfl
  · rintro ⟨hmem, hlt, hgreatest⟩
    have hin : e ∈ l.filter fun a => a.1 < k := by simp [hmem, hlt]
    unfold before
    rcases List.eq_nil_or_concat (l.filter fun a => a.1 < k) with hnil | ⟨rest, a, hconcat⟩
    · rw [hnil] at hin
      cases hin
    · rw [List.concat_eq_append] at hconcat
      have ha : a ∈ l.filter fun a => a.1 < k := hconcat ▸ List.mem_append_right _ List.mem_cons_self
      rw [List.mem_filter, decide_eq_true_eq] at ha
      rw [hconcat] at hf hin ⊢
      rw [List.getLast?_concat]
      obtain hrest | hlast := List.mem_append.mp hin
      · exact absurd ((sorted_split.mp hf).2.2.1 e hrest) (hgreatest a ha.1 ha.2).not_gt
      · rw [List.mem_singleton.mp hlast]

theorem after_isSome {k : α} {l : List (α × β)} : (after k l).isSome ↔ ∃ e ∈ l, k < e.1 := by
  rw [after, Option.isSome_iff_ne_none, Ne, List.head?_eq_none_iff, List.filter_eq_nil_iff]
  simp

theorem before_isSome {k : α} {l : List (α × β)} : (before k l).isSome ↔ ∃ e ∈ l, e.1 < k := by
  rw [before, Option.isSome_iff_ne_none, Ne, List.getLast?_eq_none_iff, List.filter_eq_nil_iff]
  simp

theorem after_left {l r : List (α × β)} {e : α × β} {k : α} (hlt : k < e.1) :
    after k (l ++ e :: r) = (after k l).or (some e) := by
  simp [after, List.filter_append, List.head?_append, hlt]

theorem before_right {l r : List (α × β)} {e : α × β} {k : α} (hlt : e.1 < k) :
    before k (l ++ e :: r) = (before k r).or (some e) := by
  rw [before, List.filter_append, List.filter_cons_of_pos (by simpa using hlt), List.getLast?_append,
    List.getLast?_cons, before]
  cases (r.filter fun a => a.1 < k).getLast? <;> rfl

-- ---------------------------------------------------------------------------
-- Operations at a split
-- ---------------------------------------------------------------------------

section Split

variable {l r : List (α × β)} {e : α × β} (h : Sorted (l ++ e :: r))

include h

theorem value_here : value e.1 (l ++ e :: r) = some e.2 :=
  (value_eq_some h).mpr (by simp)

theorem value_left {k : α} (hlt : k < e.1) : value k (l ++ e :: r) = value k l := by
  obtain ⟨hl, hr, hle, hge⟩ := sorted_split.mp h
  ext v
  rw [value_eq_some h, value_eq_some hl, List.mem_append, List.mem_cons]
  constructor
  · rintro (hmem | rfl | hmem)
    · exact hmem
    · exact absurd hlt (lt_irrefl _)
    · exact absurd (hge _ hmem) hlt.asymm
  · exact .inl

theorem value_right {k : α} (hlt : e.1 < k) : value k (l ++ e :: r) = value k r := by
  obtain ⟨hl, hr, hle, hge⟩ := sorted_split.mp h
  ext v
  rw [value_eq_some h, value_eq_some hr, List.mem_append, List.mem_cons]
  constructor
  · rintro (hmem | rfl | hmem)
    · exact absurd (hle _ hmem) hlt.asymm
    · exact absurd hlt (lt_irrefl _)
    · exact hmem
  · exact fun hmem => .inr (.inr hmem)

theorem put_here (v : β) : put e.1 v (l ++ e :: r) = l ++ (e.1, v) :: r := by
  obtain ⟨-, -, hle, hge⟩ := sorted_split.mp h
  have hl : l.filter (fun a => a.1 < e.1) = l := List.filter_eq_self.mpr fun a ha => by simpa using hle a ha
  have hl' : l.filter (fun a => e.1 < a.1) = [] :=
    List.filter_eq_nil_iff.mpr fun a ha => by simpa using (hle a ha).le
  have hr : r.filter (fun a => e.1 < a.1) = r := List.filter_eq_self.mpr fun a ha => by simpa using hge a ha
  have hr' : r.filter (fun a => a.1 < e.1) = [] :=
    List.filter_eq_nil_iff.mpr fun a ha => by simpa using (hge a ha).le
  simp [put, hl, hl', hr, hr']

theorem put_left {k : α} (v : β) (hlt : k < e.1) : put k v (l ++ e :: r) = put k v l ++ e :: r := by
  obtain ⟨-, -, -, hge⟩ := sorted_split.mp h
  have hr : r.filter (fun a => k < a.1) = r :=
    List.filter_eq_self.mpr fun a ha => by simpa using hlt.trans (hge a ha)
  have hr' : r.filter (fun a => a.1 < k) = [] :=
    List.filter_eq_nil_iff.mpr fun a ha => by simpa using (hlt.trans (hge a ha)).le
  simp [put, hr, hr', hlt, hlt.le]

theorem put_right {k : α} (v : β) (hlt : e.1 < k) : put k v (l ++ e :: r) = l ++ e :: put k v r := by
  obtain ⟨-, -, hle, -⟩ := sorted_split.mp h
  have hl : l.filter (fun a => a.1 < k) = l :=
    List.filter_eq_self.mpr fun a ha => by simpa using (hle a ha).trans hlt
  have hl' : l.filter (fun a => k < a.1) = [] :=
    List.filter_eq_nil_iff.mpr fun a ha => by simpa using ((hle a ha).trans hlt).le
  simp [put, hl, hl', hlt, hlt.le]

theorem del_here : del e.1 (l ++ e :: r) = l ++ r := by
  obtain ⟨-, -, hle, hge⟩ := sorted_split.mp h
  have hl : l.filter (fun a => a.1 ≠ e.1) = l :=
    List.filter_eq_self.mpr fun a ha => by simpa using (hle a ha).ne
  have hr : r.filter (fun a => a.1 ≠ e.1) = r :=
    List.filter_eq_self.mpr fun a ha => by simpa using (hge a ha).ne'
  rw [del, List.filter_append, List.filter_cons, hl, hr]
  simp

theorem del_left {k : α} (hlt : k < e.1) : del k (l ++ e :: r) = del k l ++ e :: r := by
  obtain ⟨-, -, -, hge⟩ := sorted_split.mp h
  have hr : r.filter (fun a => a.1 ≠ k) = r :=
    List.filter_eq_self.mpr fun a ha => by simpa using (hlt.trans (hge a ha)).ne'
  rw [del, List.filter_append, List.filter_cons, hr, del]
  simp [hlt.ne']

theorem del_right {k : α} (hlt : e.1 < k) : del k (l ++ e :: r) = l ++ e :: del k r := by
  obtain ⟨-, -, hle, -⟩ := sorted_split.mp h
  have hl : l.filter (fun a => a.1 ≠ k) = l :=
    List.filter_eq_self.mpr fun a ha => by simpa using ((hle a ha).trans hlt).ne
  rw [del, List.filter_append, List.filter_cons, hl, del]
  simp [hlt.ne]

theorem after_here : after e.1 (l ++ e :: r) = r.head? := by
  obtain ⟨-, -, hle, hge⟩ := sorted_split.mp h
  have hl : l.filter (fun a => e.1 < a.1) = [] :=
    List.filter_eq_nil_iff.mpr fun a ha => by simpa using (hle a ha).le
  have hr : r.filter (fun a => e.1 < a.1) = r := List.filter_eq_self.mpr fun a ha => by simpa using hge a ha
  simp [after, hl, hr]

theorem after_right {k : α} (hlt : e.1 < k) : after k (l ++ e :: r) = after k r := by
  obtain ⟨-, -, hle, -⟩ := sorted_split.mp h
  have hl : l.filter (fun a => k < a.1) = [] :=
    List.filter_eq_nil_iff.mpr fun a ha => by simpa using ((hle a ha).trans hlt).le
  simp [after, hl, hlt.le]

theorem before_here : before e.1 (l ++ e :: r) = l.getLast? := by
  obtain ⟨-, -, hle, hge⟩ := sorted_split.mp h
  have hl : l.filter (fun a => a.1 < e.1) = l := List.filter_eq_self.mpr fun a ha => by simpa using hle a ha
  have hr : r.filter (fun a => a.1 < e.1) = [] :=
    List.filter_eq_nil_iff.mpr fun a ha => by simpa using (hge a ha).le
  simp [before, hl, hr]

theorem before_left {k : α} (hlt : k < e.1) : before k (l ++ e :: r) = before k l := by
  obtain ⟨-, -, -, hge⟩ := sorted_split.mp h
  have hr : r.filter (fun a => a.1 < k) = [] :=
    List.filter_eq_nil_iff.mpr fun a ha => by simpa using (hlt.trans (hge a ha)).le
  simp [before, hr, hlt.le]

end Split

end Assoc
