-- SUMMARY: Binary heaps in arrays: the order between parents and children, the elements as a multiset, sifting down, and the removal of the root.
import Mathlib

/-!
# Binary heaps

The heap of `n` elements is the first `n` entries of an array; the children of
entry `i` are the entries `2 * i + 1` and `2 * i + 2`. The test `lt` that moves
elements and the relation `r` that orders them are kept apart: the test has to
decide the relation on the elements of the heap only.
-/

namespace BinaryHeap

variable {α : Type*}

-- ---------------------------------------------------------------------------
-- Positions
-- ---------------------------------------------------------------------------

def parent (i : ℕ) : ℕ := (i + 1) / 2 - 1

theorem parent_lt {i : ℕ} (h : 0 < i) : parent i < i := by
  unfold parent
  omega

theorem parent_left (i : ℕ) : parent (2 * i + 1) = i := by
  unfold parent
  omega

theorem parent_right (i : ℕ) : parent (2 * i + 2) = i := by
  unfold parent
  omega

/-- An entry with a parent is its left or its right child. -/
theorem eq_child_of_parent {i j : ℕ} (hj : 0 < j) (h : parent j = i) : j = 2 * i + 1 ∨ j = 2 * i + 2 := by
  unfold parent at h
  omega

-- ---------------------------------------------------------------------------
-- Elements
-- ---------------------------------------------------------------------------

/-- The elements of the heap. -/
def elements (a : ℕ → α) (n : ℕ) : Multiset α := (Multiset.range n).map a

theorem mem_elements {a : ℕ → α} {n : ℕ} {x : α} : x ∈ elements a n ↔ ∃ i < n, a i = x := by
  simp [elements]

@[simp] theorem elements_zero (a : ℕ → α) : elements a 0 = 0 := rfl

theorem elements_succ (a : ℕ → α) (n : ℕ) : elements a (n + 1) = a n ::ₘ elements a n := by
  rw [elements, Multiset.range_succ, Multiset.map_cons]
  rfl

theorem elements_congr {a b : ℕ → α} {n : ℕ} (h : ∀ i < n, a i = b i) : elements a n = elements b n :=
  Multiset.map_congr rfl fun i hi => h i (Multiset.mem_range.mp hi)

/-- An element outside the heap is not one of its elements. -/
theorem elements_update {a : ℕ → α} {n i : ℕ} (x : α) (h : n ≤ i) :
    elements (Function.update a i x) n = elements a n :=
  elements_congr fun j hj => Function.update_of_ne (by omega) ..

/-- To move an element into a hole is to move the hole. -/
theorem elements_move {a : ℕ → α} {n i j : ℕ} (x : α) (hij : i ≠ j) (hi : i < n) (hj : j < n) :
    elements (Function.update (Function.update a i (a j)) j x) n = elements (Function.update a i x) n := by
  have hswap : Function.update (Function.update a i (a j)) j x =
      Function.update a i x ∘ Equiv.swap i j := by
    funext k
    rw [Function.comp_apply]
    by_cases hki : k = i
    · rw [hki, Equiv.swap_apply_left, Function.update_of_ne hij, Function.update_self,
        Function.update_of_ne hij.symm]
    · by_cases hkj : k = j
      · rw [hkj, Equiv.swap_apply_right, Function.update_self, Function.update_self]
      · rw [Equiv.swap_apply_of_ne_of_ne hki hkj, Function.update_of_ne hkj, Function.update_of_ne hki,
          Function.update_of_ne hki]
  have hrange : (Multiset.range n).map (Equiv.swap i j) = Multiset.range n := by
    have hmem : ∀ k ∈ Finset.range n, Equiv.swap i j k ∈ Finset.range n := by
      intro k hk
      simp only [Finset.mem_range] at hk ⊢
      rw [Equiv.swap_apply_def]
      split_ifs <;> omega
    have himage : (Finset.range n).map (Equiv.swap i j).toEmbedding = Finset.range n :=
      Finset.eq_of_subset_of_card_le (fun k hk => by
        obtain ⟨l, hl, rfl⟩ := Finset.mem_map.mp hk
        exact hmem l hl) (by simp)
    exact congrArg Finset.val himage
  rw [hswap, elements, ← Multiset.map_map, hrange]
  rfl

-- ---------------------------------------------------------------------------
-- Order
-- ---------------------------------------------------------------------------

section Order

variable (r : α → α → Prop)

/-- Every entry is related to its children. -/
def Ordered (a : ℕ → α) (n : ℕ) : Prop := ∀ i, 0 < i → i < n → r (a (parent i)) (a i)

/-- The heap is ordered but for the hole at `i`, where `x` fits below the parent of
    the hole, and so do the children of the hole. -/
structure OrderedBut (a : ℕ → α) (n i : ℕ) (x : α) : Prop where
  off : ∀ j, 0 < j → j < n → j ≠ i → parent j ≠ i → r (a (parent j)) (a j)
  above : 0 < i → r (a (parent i)) x
  grand : 0 < i → ∀ j, 0 < j → j < n → parent j = i → r (a (parent i)) (a j)

variable {r} {a : ℕ → α} {n i : ℕ} {x : α}

/-- The root is related to every element. -/
theorem Ordered.root [Std.Refl r] [IsTrans α r] (h : Ordered r a n) {i : ℕ} (hi : i < n) :
    r (a 0) (a i) := by
  induction i using Nat.strongRecOn with
  | ind i ih =>
      rcases Nat.eq_zero_or_pos i with rfl | hpos
      · exact refl _
      · have hp := parent_lt hpos
        exact trans_of r (ih _ hp (hp.trans hi)) (h i hpos hi)

/-- Nothing is above the root. -/
theorem OrderedBut.root (h : Ordered r a n) (x : α) : OrderedBut r a n 0 x :=
  ⟨fun j hj hjn _ _ => h j hj hjn, fun h => absurd h (lt_irrefl 0), fun h => absurd h (lt_irrefl 0)⟩

/-- The element that is related to the children of the hole fills it. -/
theorem OrderedBut.fill (h : OrderedBut r a n i x)
    (hx : ∀ j, 0 < j → j < n → parent j = i → r x (a j)) : Ordered r (Function.update a i x) n := by
  intro j hj hjn
  by_cases hji : j = i
  · subst hji
    rw [Function.update_self, Function.update_of_ne (parent_lt hj).ne]
    exact h.above hj
  · rw [Function.update_of_ne hji]
    by_cases hp : parent j = i
    · rw [hp, Function.update_self]
      exact hx j hj hjn hp
    · rw [Function.update_of_ne hp]
      exact h.off j hj hjn hji hp

/-- A child that is related to the other child and to `x` moves into the hole. -/
theorem OrderedBut.move [Std.Refl r] (h : OrderedBut r a n i x) {c : ℕ} (hc : 0 < c) (hcn : c < n)
    (hci : parent c = i) (hx : r (a c) x)
    (hother : ∀ j, 0 < j → j < n → parent j = i → r (a c) (a j)) :
    OrderedBut r (Function.update a i (a c)) n c x := by
  have hic : i < c := hci ▸ parent_lt hc
  refine ⟨fun j hj hjn hjc hpc => ?_, fun _ => ?_, fun _ j hj hjn hjp => ?_⟩
  · by_cases hji : j = i
    · subst hji
      rw [Function.update_self, Function.update_of_ne (parent_lt hj).ne]
      exact h.grand hj c hc hcn hci
    · rw [Function.update_of_ne hji]
      by_cases hp : parent j = i
      · rw [hp, Function.update_self]
        exact hother j hj hjn hp
      · rw [Function.update_of_ne hp]
        exact h.off j hj hjn hji hp
  · rw [hci, Function.update_self]
    exact hx
  · have hcj : c < j := hjp ▸ parent_lt hj
    rw [hci, Function.update_self, Function.update_of_ne (by omega)]
    have hoff := h.off j hj hjn (by omega) (by omega)
    rwa [hjp] at hoff

/-- A last element that fits below its parent keeps the order. -/
theorem Ordered.push (h : Ordered r a n) (hx : 0 < n → r (a (parent n)) x) :
    Ordered r (Function.update a n x) (n + 1) := by
  intro j hj hjn
  rcases Nat.lt_succ_iff_lt_or_eq.mp hjn with hlt | rfl
  · have hp := parent_lt hj
    rw [Function.update_of_ne hlt.ne, Function.update_of_ne (by omega)]
    exact h j hj hlt
  · rw [Function.update_self, Function.update_of_ne (parent_lt hj).ne]
    exact hx hj

end Order

-- ---------------------------------------------------------------------------
-- Sifting down
-- ---------------------------------------------------------------------------

/-- Moves the hole at `i` down to where `x` fits, the smaller child up into the hole
    at each step, and puts `x` there. -/
def siftDown (lt : α → α → Bool) (n : ℕ) (x : α) (a : ℕ → α) (i : ℕ) : ℕ → α :=
  if n < 2 * i + 3 ∨ lt (a (2 * i + 1)) (a (2 * i + 2)) = true then
    if n < 2 * i + 2 ∨ lt x (a (2 * i + 1)) = true then Function.update a i x
    else siftDown lt n x (Function.update a i (a (2 * i + 1))) (2 * i + 1)
  else if lt x (a (2 * i + 2)) = true then Function.update a i x
  else siftDown lt n x (Function.update a i (a (2 * i + 2))) (2 * i + 2)
termination_by n - i
decreasing_by all_goals omega

/-- The test decides the relation on a set of elements. -/
structure Decides (lt : α → α → Bool) (r : α → α → Prop) (S : Set α) : Prop where
  of_true : ∀ x ∈ S, ∀ y ∈ S, lt x y = true → r x y
  of_false : ∀ x ∈ S, ∀ y ∈ S, lt x y = false → r y x

section Sift

variable {lt : α → α → Bool} {r : α → α → Prop} {S : Set α} {n : ℕ} {x : α}

/-- Sifting down puts `x` into the hole and moves the other elements. -/
theorem elements_siftDown (a : ℕ → α) {i : ℕ} (hi : i < n) :
    elements (siftDown lt n x a i) n = elements (Function.update a i x) n := by
  induction a, i using siftDown.induct lt n x with
  | case1 a i h1 h2 => rw [siftDown, if_pos h1, if_pos h2]
  | case2 a i h1 h2 ih =>
      rw [siftDown, if_pos h1, if_neg h2, ih (by omega)]
      exact elements_move x (by omega) hi (by omega)
  | case3 a i h1 h2 => rw [siftDown, if_neg h1, if_pos h2]
  | case4 a i h1 h2 ih =>
      rw [siftDown, if_neg h1, if_neg h2, ih (by omega)]
      exact elements_move x (by omega) hi (by omega)

/-- Sifting down orders the heap. -/
theorem ordered_siftDown [Std.Refl r] [IsTrans α r] (hlt : Decides lt r S) (hx : x ∈ S) {a : ℕ → α}
    {i : ℕ} (hi : i < n) (ha : ∀ j < n, a j ∈ S) (h : OrderedBut r a n i x) :
    Ordered r (siftDown lt n x a i) n := by
  have hmove : ∀ {a : ℕ → α} {i c : ℕ}, c < n → (∀ j < n, a j ∈ S) →
      ∀ j < n, Function.update a i (a c) j ∈ S := by
    intro a i c hc ha j hj
    by_cases hji : j = i
    · rw [hji, Function.update_self]
      exact ha c hc
    · rw [Function.update_of_ne hji]
      exact ha j hj
  induction a, i using siftDown.induct lt n x with
  | case1 a i h1 h2 =>
      rw [siftDown, if_pos h1, if_pos h2]
      refine h.fill fun j hj hjn hji => ?_
      rcases h2 with h2 | h2
      · have := eq_child_of_parent hj hji
        omega
      · have hleft : r x (a (2 * i + 1)) := by
          rcases eq_child_of_parent hj hji with rfl | rfl
          · exact hlt.of_true _ hx _ (ha _ hjn) h2
          · exact hlt.of_true _ hx _ (ha _ (by omega)) h2
        rcases eq_child_of_parent hj hji with rfl | rfl
        · exact hleft
        · have hchildren := h1.resolve_left (by omega)
          exact trans_of r hleft (hlt.of_true _ (ha _ (by omega)) _ (ha _ hjn) hchildren)
  | case2 a i h1 h2 ih =>
      rw [siftDown, if_pos h1, if_neg h2]
      obtain ⟨hn, hlast⟩ := not_or.mp h2
      have hc : 2 * i + 1 < n := by omega
      refine ih (by omega) (hmove hc ha) (h.move (by omega) hc (parent_left i) ?_ fun j hj hjn hji => ?_)
      · exact hlt.of_false _ hx _ (ha _ hc) (Bool.not_eq_true _ ▸ hlast)
      · rcases eq_child_of_parent hj hji with rfl | rfl
        · exact refl _
        · exact hlt.of_true _ (ha _ hc) _ (ha _ hjn) (h1.resolve_left (by omega))
  | case3 a i h1 h2 =>
      rw [siftDown, if_neg h1, if_pos h2]
      obtain ⟨hn, hchildren⟩ := not_or.mp h1
      have hright : r x (a (2 * i + 2)) := hlt.of_true _ hx _ (ha _ (by omega)) h2
      refine h.fill fun j hj hjn hji => ?_
      rcases eq_child_of_parent hj hji with rfl | rfl
      · refine trans_of r hright (hlt.of_false _ (ha _ hjn) _ (ha _ (by omega)) ?_)
        exact Bool.not_eq_true _ ▸ hchildren
      · exact hright
  | case4 a i h1 h2 ih =>
      rw [siftDown, if_neg h1, if_neg h2]
      obtain ⟨hn, hchildren⟩ := not_or.mp h1
      have hc : 2 * i + 2 < n := by omega
      refine ih (by omega) (hmove hc ha) (h.move (by omega) hc (parent_right i) ?_ fun j hj hjn hji => ?_)
      · exact hlt.of_false _ hx _ (ha _ hc) (Bool.not_eq_true _ ▸ h2)
      · rcases eq_child_of_parent hj hji with rfl | rfl
        · exact hlt.of_false _ (ha _ hjn) _ (ha _ hc) (Bool.not_eq_true _ ▸ hchildren)
        · exact refl _

end Sift

-- ---------------------------------------------------------------------------
-- Removing the root
-- ---------------------------------------------------------------------------

section Root

variable {lt : α → α → Bool} {r : α → α → Prop} {S : Set α} {n : ℕ} {a : ℕ → α}

/-- The root and the last element are replaced by the last element. -/
theorem elements_root (a : ℕ → α) (hn : 0 < n) :
    elements a (n + 1) = a 0 ::ₘ elements (Function.update a 0 (a n)) n := by
  obtain ⟨m, rfl⟩ : ∃ m, n = m + 1 := ⟨n - 1, by omega⟩
  have hmove : elements (Function.update (Function.update a 0 (a (m + 1))) (m + 1) (a 0)) (m + 1 + 1) =
      elements (Function.update a 0 (a 0)) (m + 1 + 1) :=
    elements_move (a 0) (by omega) (by omega) (by omega)
  rw [Function.update_eq_self, elements_succ _ (m + 1), Function.update_self,
    elements_update _ le_rfl] at hmove
  exact hmove.symm

end Root

end BinaryHeap
