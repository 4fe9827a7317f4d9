-- SUMMARY: Stable sorting by merges, and merges that keep one of equal elements, for comparisons that are total preorders.
import Mathlib

/-!
# Merges

A comparison returns an integer whose sign orders its arguments. A sorted list
is a stable sort of a list when it has the same elements and equal elements keep
their order; stable sorts of two lists are merged to one of their concatenation.
A merge that drops one of two equal elements gives the strictly increasing list
of the classes of both lists.
-/

namespace StableSort

variable {α : Type*}

/-- The signs of a comparison are those of a total preorder. -/
structure TotalPreorder (cmp : α → α → ℤ) : Prop where
  swap : ∀ a b, 0 < cmp a b ↔ cmp b a < 0
  trans : ∀ a b c, cmp a b ≤ 0 → cmp b c ≤ 0 → cmp a c ≤ 0

/-- The left argument may stand before the right one. -/
def before (cmp : α → α → ℤ) (a b : α) : Bool := cmp a b ≤ 0

theorem before_iff {cmp : α → α → ℤ} {a b : α} : before cmp a b = true ↔ cmp a b ≤ 0 := decide_eq_true_iff

namespace TotalPreorder

variable {cmp : α → α → ℤ}

theorem total (h : TotalPreorder cmp) (a b : α) : cmp a b ≤ 0 ∨ cmp b a ≤ 0 := by
  rcases le_or_gt (cmp a b) 0 with hle | hlt
  · exact .inl hle
  · exact .inr ((h.swap a b).mp hlt).le

theorem refl (h : TotalPreorder cmp) (a : α) : cmp a a = 0 := by
  have hswap := h.swap a a
  omega

theorem eq_swap (h : TotalPreorder cmp) {a b : α} (hab : cmp a b = 0) : cmp b a = 0 := by
  have h1 := h.swap a b
  have h2 := h.swap b a
  omega

theorem lt_of_lt_of_le (h : TotalPreorder cmp) {a b c : α} (hab : cmp a b < 0) (hbc : cmp b c ≤ 0) :
    cmp a c < 0 := by
  by_contra hac
  have hca : cmp c a ≤ 0 := by
    have hswap := h.swap c a
    omega
  have hba := h.trans b c a hbc hca
  have hswap := h.swap b a
  omega

theorem lt_of_le_of_lt (h : TotalPreorder cmp) {a b c : α} (hab : cmp a b ≤ 0) (hbc : cmp b c < 0) :
    cmp a c < 0 := by
  by_contra hac
  have hca : cmp c a ≤ 0 := by
    have hswap := h.swap c a
    omega
  have hcb := h.trans c a b hca hab
  have hswap := h.swap c b
  omega

end TotalPreorder

/-- Elements compared by the difference of their ranks. -/
theorem totalPreorder_sub (f : α → ℤ) : TotalPreorder fun a b => f a - f b where
  swap a b := by omega
  trans a b c hab hbc := by omega

-- ---------------------------------------------------------------------------
-- Stable sorts
-- ---------------------------------------------------------------------------

/-- The second list is sorted, has the elements of the first, and equal elements in the same order. -/
structure Sorts (cmp : α → α → ℤ) (l out : List α) : Prop where
  perm : out.Perm l
  sorted : out.Pairwise fun a b => cmp a b ≤ 0
  stable : ∀ a, out.filter (fun b => cmp a b = 0) = l.filter fun b => cmp a b = 0

variable {cmp : α → α → ℤ}

theorem sorts_nil : Sorts cmp [] [] := ⟨.refl _, .nil, fun _ => rfl⟩

theorem sorts_singleton (a : α) : Sorts cmp [a] [a] := ⟨.refl _, List.pairwise_singleton _ a, fun _ => rfl⟩

theorem sorts_pair {a b : α} (h : cmp a b ≤ 0) : Sorts cmp [a, b] [a, b] :=
  ⟨.refl _, List.pairwise_pair.mpr h, fun _ => rfl⟩

/-- Elements in the wrong order are not equal to the same element. -/
theorem sorts_swap (hcmp : TotalPreorder cmp) {a b : α} (h : 0 < cmp a b) : Sorts cmp [a, b] [b, a] := by
  have hba := (hcmp.swap a b).mp h
  refine ⟨.swap a b [], List.pairwise_pair.mpr hba.le, fun c => ?_⟩
  by_cases hca : cmp c a = 0
  · have hcb : cmp c b ≠ 0 := by
      intro hcb
      have hbc := hcmp.eq_swap hca
      have hlt := hcmp.lt_of_lt_of_le hba hbc.le
      have hswap := hcmp.eq_swap hcb
      omega
    simp [hca, hcb]
  · simp [hca, List.filter_cons]

/-- A stable sort of what is sorted already and more elements sorts all of them. -/
theorem Sorts.append {l l' r out : List α} (h : Sorts cmp l l') (h' : Sorts cmp (l' ++ r) out) : Sorts cmp (l ++ r) out where
  perm := h'.perm.trans (h.perm.append_right r)
  sorted := h'.sorted
  stable a := by rw [h'.stable, List.filter_append, List.filter_append, h.stable]

theorem Sorts.snoc {l : List α} {a : α} (hl : l.Pairwise fun b c => cmp b c ≤ 0) (ha : ∀ b ∈ l, cmp b a ≤ 0) :
    Sorts cmp (l ++ [a]) (l ++ [a]) := by
  refine ⟨.refl _, List.pairwise_append.mpr ⟨hl, List.pairwise_singleton _ a, ?_⟩, fun _ => rfl⟩
  intro b hb c hc
  rw [List.mem_singleton.mp hc]
  exact ha b hb

/-- An element that goes before the last of a sorted list is inserted into the rest of it. -/
theorem Sorts.insert_before (hcmp : TotalPreorder cmp) {l out : List α} {a b : α} (h : Sorts cmp (l ++ [a]) out)
    (hb : ∀ c ∈ l, cmp c b ≤ 0) (hab : cmp a b < 0) : Sorts cmp (l ++ [b] ++ [a]) (out ++ [b]) where
  perm := by
    rw [List.append_assoc]
    exact (h.perm.append_right [b]).trans (by
      rw [List.append_assoc]
      exact (List.Perm.swap b a []).append_left l)
  sorted := by
    refine List.pairwise_append.mpr ⟨h.sorted, List.pairwise_singleton _ b, fun c hc d hd => ?_⟩
    rw [List.mem_singleton.mp hd]
    cases List.mem_append.mp (h.perm.mem_iff.mp hc) with
    | inl hc => exact hb c hc
    | inr hc => exact List.mem_singleton.mp hc ▸ hab.le
  stable c := by
    have hswap := (sorts_swap hcmp ((hcmp.swap b a).mpr hab)).stable c
    calc (out ++ [b]).filter (fun d => cmp c d = 0)
        = l.filter (fun d => cmp c d = 0) ++ [a, b].filter fun d => cmp c d = 0 := by
          rw [List.filter_append, h.stable, List.filter_append, List.append_assoc, ← List.filter_append]
          rfl
      _ = (l ++ [b] ++ [a]).filter fun d => cmp c d = 0 := by
          rw [hswap, ← List.filter_append, List.append_assoc]
          rfl

/-- A merge of sorted lists keeps the equal elements of the first before those of the second. -/
theorem filter_merge (hcmp : TotalPreorder cmp) {l r : List α} (hl : l.Pairwise fun a b => cmp a b ≤ 0) (c : α) :
    (List.merge l r (before cmp)).filter (fun b => cmp c b = 0) =
      l.filter (fun b => cmp c b = 0) ++ r.filter fun b => cmp c b = 0 := by
  induction l generalizing r with
  | nil => simp
  | cons a l ihl =>
    have hl' := (List.pairwise_cons.mp hl).2
    induction r with
    | nil => simp
    | cons b r ihr =>
      by_cases hab : cmp a b ≤ 0
      · rw [List.cons_merge_cons_pos _ _ _ (before_iff.mpr hab)]
        by_cases hca : cmp c a = 0
        · rw [List.filter_cons_of_pos (by simpa using hca), ihl hl',
            List.filter_cons_of_pos (a := a) (by simpa using hca), List.cons_append]
        · rw [List.filter_cons_of_neg (by simpa using hca), ihl hl',
            List.filter_cons_of_neg (a := a) (by simpa using hca)]
      · rw [List.cons_merge_cons_neg _ _ _ (mt before_iff.mp hab)]
        by_cases hcb : cmp c b = 0
        · -- nothing in the first list equals an element that goes before its head
          have hba := (hcmp.swap a b).mp (not_le.mp hab)
          have hnone : (a :: l).filter (fun b => cmp c b = 0) = [] := by
            refine List.filter_eq_nil_iff.mpr fun z hz => ?_
            have haz : cmp a z ≤ 0 := by
              cases List.mem_cons.mp hz with
              | inl heq => exact heq ▸ (hcmp.refl a).le
              | inr hz => exact (List.pairwise_cons.mp hl).1 z hz
            have hcz : cmp c z < 0 :=
              hcmp.lt_of_le_of_lt hcb.le (hcmp.lt_of_lt_of_le hba haz)
            simpa using hcz.ne
          rw [List.filter_cons_of_pos (by simpa using hcb), ihr, hnone,
            List.filter_cons_of_pos (by simpa using hcb), List.nil_append, List.nil_append]
        · rw [List.filter_cons_of_neg (by simpa using hcb), ihr]
          congr 1
          exact (List.filter_cons_of_neg (by simpa using hcb)).symm

theorem Sorts.merge (hcmp : TotalPreorder cmp) {l r outl outr : List α} (hl : Sorts cmp l outl)
    (hr : Sorts cmp r outr) : Sorts cmp (l ++ r) (List.merge outl outr (before cmp)) where
  perm := (List.merge_perm_append (before cmp)).trans (hl.perm.append hr.perm)
  sorted := by
    have hle := @List.pairwise_merge α (before cmp)
      (fun a b c hab hbc => before_iff.mpr (hcmp.trans a b c (before_iff.mp hab) (before_iff.mp hbc)))
      (fun a b => by simpa [before] using hcmp.total a b) outl outr
      (hl.sorted.imp before_iff.mpr) (hr.sorted.imp before_iff.mpr)
    exact hle.imp before_iff.mp
  stable c := by rw [filter_merge hcmp hl.sorted, hl.stable, hr.stable, List.filter_append]

-- ---------------------------------------------------------------------------
-- Merges without duplicates
-- ---------------------------------------------------------------------------

/-- A merge that drops an element of the first list when the head of the second equals it. -/
def mergeDistinct (cmp : α → α → ℤ) : List α → List α → List α
  | [], r => r
  | l, [] => l
  | a :: l, b :: r =>
    if cmp a b < 0 then a :: mergeDistinct cmp l (b :: r)
    else if cmp a b = 0 then mergeDistinct cmp l (b :: r)
    else b :: mergeDistinct cmp (a :: l) r

theorem mergeDistinct_nil (r : List α) : mergeDistinct cmp [] r = r := by rw [mergeDistinct]

/-- The second list is strictly increasing, from the first, and has an equal for each of its elements. -/
structure Distinct (cmp : α → α → ℤ) (l out : List α) : Prop where
  increasing : out.Pairwise fun a b => cmp a b < 0
  from_list : ∀ a ∈ out, a ∈ l
  complete : ∀ a ∈ l, ∃ b ∈ out, cmp a b = 0

theorem Distinct.length_le (hcmp : TotalPreorder cmp) {l out : List α} (h : Distinct cmp l out) :
    out.length ≤ l.length := by
  have hnodup : out.Nodup := by
    refine h.increasing.imp fun {a b} hlt heq => ?_
    subst heq
    have hrefl := hcmp.refl a
    omega
  exact (List.subperm_of_subset hnodup h.from_list).length_le

theorem mem_mergeDistinct {l r : List α} {c : α} (h : c ∈ mergeDistinct cmp l r) : c ∈ l ∨ c ∈ r := by
  induction l, r using mergeDistinct.induct cmp with
  | case1 r =>
    rw [mergeDistinct] at h
    exact .inr h
  | case2 l hne => exact .inl (by rwa [mergeDistinct] at h; exact hne)
  | case3 a l b r hlt ih =>
    rw [mergeDistinct, if_pos hlt] at h
    cases List.mem_cons.mp h with
    | inl heq => exact .inl (heq ▸ List.mem_cons_self)
    | inr h => exact (ih h).imp_left (List.mem_cons_of_mem a)
  | case4 a l b r hlt heq ih =>
    rw [mergeDistinct, if_neg hlt, if_pos heq] at h
    exact (ih h).imp_left (List.mem_cons_of_mem a)
  | case5 a l b r hlt heq ih =>
    rw [mergeDistinct, if_neg hlt, if_neg heq] at h
    cases List.mem_cons.mp h with
    | inl heq => exact .inr (heq ▸ List.mem_cons_self)
    | inr h => exact (ih h).imp_right (List.mem_cons_of_mem b)

theorem increasing_mergeDistinct (hcmp : TotalPreorder cmp) {l r : List α} (hl : l.Pairwise fun a b => cmp a b < 0)
    (hr : r.Pairwise fun a b => cmp a b < 0) : (mergeDistinct cmp l r).Pairwise fun a b => cmp a b < 0 := by
  induction l, r using mergeDistinct.induct cmp with
  | case1 r => rwa [mergeDistinct]
  | case2 l hne => rwa [mergeDistinct]; exact hne
  | case3 a l b r hlt ih =>
    obtain ⟨ha, hl'⟩ := List.pairwise_cons.mp hl
    rw [mergeDistinct, if_pos hlt]
    refine List.pairwise_cons.mpr ⟨fun c hc => ?_, ih hl' hr⟩
    cases mem_mergeDistinct hc with
    | inl hc => exact ha c hc
    | inr hc =>
      cases List.mem_cons.mp hc with
      | inl heq => exact heq ▸ hlt
      | inr hc => exact hcmp.lt_of_lt_of_le hlt ((List.pairwise_cons.mp hr).1 c hc).le
  | case4 a l b r hlt heq ih =>
    rw [mergeDistinct, if_neg hlt, if_pos heq]
    exact ih (List.pairwise_cons.mp hl).2 hr
  | case5 a l b r hlt heq ih =>
    obtain ⟨hb, hr'⟩ := List.pairwise_cons.mp hr
    have hba : cmp b a < 0 := (hcmp.swap a b).mp (lt_of_le_of_ne (not_lt.mp hlt) (Ne.symm heq))
    rw [mergeDistinct, if_neg hlt, if_neg heq]
    refine List.pairwise_cons.mpr ⟨fun c hc => ?_, ih hl hr'⟩
    cases mem_mergeDistinct hc with
    | inr hc => exact hb c hc
    | inl hc =>
      cases List.mem_cons.mp hc with
      | inl heq => exact heq ▸ hba
      | inr hc => exact hcmp.lt_of_lt_of_le hba ((List.pairwise_cons.mp hl).1 c hc).le

/-- Whatever has an equal in one of the lists has one in their merge. -/
theorem complete_mergeDistinct (hcmp : TotalPreorder cmp) {l r : List α} {c : α}
    (h : (∃ a ∈ l, cmp c a = 0) ∨ ∃ b ∈ r, cmp c b = 0) : ∃ d ∈ mergeDistinct cmp l r, cmp c d = 0 := by
  induction l, r using mergeDistinct.induct cmp with
  | case1 r =>
    rw [mergeDistinct]
    exact h.resolve_left (by simp)
  | case2 l hne =>
    rw [mergeDistinct]
    · exact h.resolve_right (by simp)
    · exact hne
  | case3 a l b r hlt ih =>
    rw [mergeDistinct, if_pos hlt]
    simp only [List.exists_mem_cons_iff (a := a)] at h ⊢
    obtain (ha | hl) | hr := h
    · exact .inl ha
    · exact .inr (ih (.inl hl))
    · exact .inr (ih (.inr hr))
  | case4 a l b r hlt heq ih =>
    rw [mergeDistinct, if_neg hlt, if_pos heq]
    simp only [List.exists_mem_cons_iff (a := a)] at h
    obtain (ha | hl) | hr := h
    · have hcb : cmp c b = 0 := by
        have hle := hcmp.trans c a b ha.le heq.le
        have hge := hcmp.trans b a c (hcmp.eq_swap heq).le (hcmp.eq_swap ha).le
        have hswap := hcmp.swap b c
        have hswap' := hcmp.swap c b
        omega
      exact ih (.inr ⟨b, List.mem_cons_self, hcb⟩)
    · exact ih (.inl hl)
    · exact ih (.inr hr)
  | case5 a l b r hlt heq ih =>
    rw [mergeDistinct, if_neg hlt, if_neg heq]
    simp only [List.exists_mem_cons_iff (a := b)] at h ⊢
    obtain hl | hb | hr := h
    · exact .inr (ih (.inl hl))
    · exact .inl hb
    · exact .inr (ih (.inr hr))

theorem Distinct.merge (hcmp : TotalPreorder cmp) {l r outl outr : List α} (hl : Distinct cmp l outl)
    (hr : Distinct cmp r outr) : Distinct cmp (l ++ r) (mergeDistinct cmp outl outr) where
  increasing := increasing_mergeDistinct hcmp hl.increasing hr.increasing
  from_list a ha :=
    List.mem_append.mpr ((mem_mergeDistinct ha).imp (hl.from_list a) (hr.from_list a))
  complete a ha := complete_mergeDistinct hcmp ((List.mem_append.mp ha).imp (hl.complete a) (hr.complete a))

theorem distinct_nil : Distinct cmp [] [] := ⟨.nil, fun _ h => h, fun _ h => absurd h List.not_mem_nil⟩

theorem distinct_singleton (hcmp : TotalPreorder cmp) (a : α) : Distinct cmp [a] [a] where
  increasing := List.pairwise_singleton _ a
  from_list _ h := h
  complete _ hb := ⟨a, List.mem_singleton_self a, List.mem_singleton.mp hb ▸ hcmp.refl a⟩

theorem distinct_pair (hcmp : TotalPreorder cmp) {a b : α} (h : cmp a b < 0) : Distinct cmp [a, b] [a, b] where
  increasing := List.pairwise_pair.mpr h
  from_list _ h := h
  complete c hc := ⟨c, hc, hcmp.refl c⟩

theorem distinct_swap (hcmp : TotalPreorder cmp) {a b : α} (h : 0 < cmp a b) : Distinct cmp [a, b] [b, a] where
  increasing := List.pairwise_pair.mpr ((hcmp.swap a b).mp h)
  from_list _ h := (List.Perm.swap a b []).mem_iff.mp h
  complete c hc := ⟨c, (List.Perm.swap a b []).mem_iff.mpr hc, hcmp.refl c⟩

theorem distinct_equal (hcmp : TotalPreorder cmp) {a b : α} (h : cmp a b = 0) : Distinct cmp [a, b] [a] where
  increasing := List.pairwise_singleton _ a
  from_list _ h := List.mem_singleton.mp h ▸ List.mem_cons_self
  complete c hc := by
    refine ⟨a, List.mem_singleton_self a, ?_⟩
    simp only [List.mem_cons, List.not_mem_nil, or_false] at hc
    obtain rfl | rfl := hc
    · exact hcmp.refl c
    · exact hcmp.eq_swap h

end StableSort
