-- SUMMARY: library(heaps): additions at positions, removals with their holes, and the refinement of a priority queue over every run.
import Mathlib

/-!
# Heaps

A heap `t(N,Free,Tree)` has `N` elements; `Free` lists the positions that
removals left, the latest first. A position is read from its lowest bit: an even
one lies in the left subtree, an odd one in the right subtree, at the position
without that bit, and `1` is the root. Keys are compared by the standard order
of terms.
-/

namespace Yap

namespace Heaps

-- ---------------------------------------------------------------------------
-- Code
-- ---------------------------------------------------------------------------

/-- `t` and `t(Key,Datum,L,R)`. -/
inductive Tree (α β : Type*) where
  | nil
  | node (key : α) (datum : β) (l r : Tree α β)
deriving DecidableEq, Repr

/-- `t(Size,Free,Tree)`. -/
structure Heap (α β : Type*) where
  size : ℕ
  free : List ℕ
  tree : Tree α β
deriving DecidableEq, Repr

variable {α β : Type*}

def emptyHeap : Heap α β := ⟨0, [], .nil⟩

def heapSize (h : Heap α β) : ℕ := h.size

section Code

variable [LinearOrder α]

def sort2 (e1 e2 : α × β) : (α × β) × (α × β) := if e1.1 < e2.1 then (e1, e2) else (e2, e1)

/-- `add_to_heap/5` and `add_to_heap/8`: the tree with the pair at the position `n`. -/
def addTree : ℕ → α × β → Tree α β → Option (Tree α β)
  | n, (key, datum), .nil => if n = 1 then some (.node key datum .nil .nil) else none
  | n, (key, datum), .node k1 d1 l1 r1 =>
    if n = 1 then some (.node key datum .nil .nil)
    else
      let (k2, d2) := (sort2 (key, datum) (k1, d1)).1
      let e3 := (sort2 (key, datum) (k1, d1)).2
      if n % 2 = 0 then (addTree (n / 2) e3 l1).map fun l2 => .node k2 d2 l2 r1
      else (addTree (n / 2) e3 r1).map fun r2 => .node k2 d2 l1 r2

def addToHeap (h : Heap α β) (key : α) (datum : β) : Option (Heap α β) :=
  match h.free with
  | [] => (addTree (h.size + 1) (key, datum) h.tree).map fun newTree => ⟨h.size + 1, [], newTree⟩
  | hole :: t => (addTree hole (key, datum) h.tree).map fun newTree => ⟨h.size + 1, t, newTree⟩

/-- The heap of the elements of two heaps, and the position of the gap. -/
def repairHeap : Tree α β → Tree α β → Tree α β × ℕ
  | .node k1 d1 l1 r1, .node k2 d2 l2 r2 =>
    if k2 < k1 then
      let below := repairHeap l2 r2
      (.node k2 d2 (.node k1 d1 l1 r1) below.1, 2 * below.2 + 1)
    else
      let below := repairHeap l1 r1
      (.node k1 d1 below.1 (.node k2 d2 l2 r2), 2 * below.2)
  | .node k1 d1 l1 r1, .nil =>
    let below := repairHeap l1 r1
    (.node k1 d1 below.1 .nil, 2 * below.2)
  | .nil, .node k2 d2 l2 r2 =>
    let below := repairHeap l2 r2
    (.node k2 d2 .nil below.1, 2 * below.2 + 1)
  | .nil, .nil => (.nil, 1)
termination_by l r => sizeOf l + sizeOf r

/-- The least pair and the heap without it. -/
def getFromHeap (h : Heap α β) : Option ((α × β) × Heap α β) :=
  match h.tree with
  | .nil => none
  | .node key datum l r =>
    some ((key, datum), ⟨h.size - 1, (repairHeap l r).2 :: h.free, (repairHeap l r).1⟩)

end Code

-- ---------------------------------------------------------------------------
-- Elements and order
-- ---------------------------------------------------------------------------

def Tree.elements : Tree α β → Multiset (α × β)
  | .nil => 0
  | .node key datum l r => (key, datum) ::ₘ (l.elements + r.elements)

/-- No key below a node is smaller than its key. -/
def Tree.Ordered [LE α] : Tree α β → Prop
  | .nil => True
  | .node key _ l r => (∀ e ∈ l.elements + r.elements, key ≤ e.1) ∧ l.Ordered ∧ r.Ordered

-- ---------------------------------------------------------------------------
-- Positions
-- ---------------------------------------------------------------------------

/-- The position above a position: it loses the highest bit but one. -/
def parent (p : ℕ) : ℕ := if p < 4 then 1 else 2 * parent (p / 2) + p % 2

/-- The node of the position is in the tree. -/
def Tree.Has : Tree α β → ℕ → Prop
  | .nil, _ => False
  | .node _ _ l r, p => p = 1 ∨ 1 < p ∧ if p % 2 = 0 then l.Has (p / 2) else r.Has (p / 2)

theorem parent_small {p : ℕ} (h : p < 4) : parent p = 1 := by
  rw [parent, if_pos h]

theorem parent_large {p : ℕ} (h : 4 ≤ p) : parent p = 2 * parent (p / 2) + p % 2 := by
  rw [parent, if_neg (by omega)]

theorem parent_pos (p : ℕ) : 1 ≤ parent p := by
  induction p using Nat.strong_induction_on with
  | _ p ih =>
    by_cases h : p < 4
    · exact (parent_small h).ge
    · have := ih (p / 2) (by omega)
      rw [parent_large (by omega)]
      omega

theorem parent_lt {p : ℕ} (h : 1 < p) : parent p < p := by
  induction p using Nat.strong_induction_on with
  | _ p ih =>
    by_cases h4 : p < 4
    · rw [parent_small h4]
      exact h
    · have := ih (p / 2) (by omega) (by omega)
      rw [parent_large (by omega)]
      omega

/-- The subtree in which a position lies. -/
def side (p : ℕ) (l r : Tree α β) : Tree α β := if p % 2 = 0 then l else r

theorem has_node {k : α} {d : β} {l r : Tree α β} {p : ℕ} :
    (Tree.node k d l r).Has p ↔ p = 1 ∨ 1 < p ∧ (side p l r).Has (p / 2) := by
  unfold side
  rw [Tree.Has]
  split_ifs <;> rfl

/-- Above a position of a subtree there is a position of the same subtree. -/
theorem has_parent_node {k : α} {d : β} {l r : Tree α β} {p : ℕ} (hp : 4 ≤ p) :
    (Tree.node k d l r).Has (parent p) ↔ (side p l r).Has (parent (p / 2)) := by
  have hpos := parent_pos (p / 2)
  have hmod : (2 * parent (p / 2) + p % 2) % 2 = p % 2 := by omega
  have hdiv : (2 * parent (p / 2) + p % 2) / 2 = parent (p / 2) := by omega
  rw [parent_large hp, has_node, side, hmod, hdiv]
  constructor
  · rintro (heq | hside)
    · omega
    · exact hside.2
  · exact fun hside => .inr ⟨by omega, hside⟩

/-- Every node but the root has a parent. -/
theorem Tree.Has.parent {t : Tree α β} {p : ℕ} (h : t.Has p) (hp : 1 < p) : t.Has (parent p) := by
  induction t generalizing p with
  | nil => exact h.elim
  | node k d l r ihl ihr =>
    by_cases h4 : p < 4
    · exact .inl (parent_small h4)
    · obtain rfl | ⟨-, hside⟩ := has_node.mp h
      · exact absurd hp (lt_irrefl _)
      · rw [has_parent_node (by omega)]
        unfold side at hside ⊢
        split_ifs at hside ⊢
        · exact ihl hside (by omega)
        · exact ihr hside (by omega)

/-- One more position on the left, at the level above. -/
theorem has_left {k k' : α} {d d' : β} {l l' r : Tree α β} {m : ℕ} (hm : 1 ≤ m)
    (h : ∀ q, l'.Has q ↔ l.Has q ∨ q = m) (q : ℕ) :
    (Tree.node k' d' l' r).Has q ↔ (Tree.node k d l r).Has q ∨ q = 2 * m := by
  rw [has_node, has_node]
  unfold side
  split_ifs with heven
  · rw [h]
    constructor
    · rintro (rfl | ⟨hq, hhas | heq⟩)
      · exact .inl (.inl rfl)
      · exact .inl (.inr ⟨hq, hhas⟩)
      · exact .inr (by omega)
    · rintro ((rfl | ⟨hq, hhas⟩) | rfl)
      · exact .inl rfl
      · exact .inr ⟨hq, .inl hhas⟩
      · exact .inr ⟨by omega, .inr (by omega)⟩
  · have hne : q ≠ 2 * m := by omega
    simp [hne]

/-- One more position on the right. -/
theorem has_right {k k' : α} {d d' : β} {l r r' : Tree α β} {m : ℕ} (hm : 1 ≤ m)
    (h : ∀ q, r'.Has q ↔ r.Has q ∨ q = m) (q : ℕ) :
    (Tree.node k' d' l r').Has q ↔ (Tree.node k d l r).Has q ∨ q = 2 * m + 1 := by
  rw [has_node, has_node]
  unfold side
  split_ifs with heven
  · have hne : q ≠ 2 * m + 1 := by omega
    simp [hne]
  · rw [h]
    constructor
    · rintro (rfl | ⟨hq, hhas | heq⟩)
      · exact .inl (.inl rfl)
      · exact .inl (.inr ⟨hq, hhas⟩)
      · exact .inr (by omega)
    · rintro ((rfl | ⟨hq, hhas⟩) | rfl)
      · exact .inl rfl
      · exact .inr ⟨hq, .inl hhas⟩
      · exact .inr ⟨by omega, .inr (by omega)⟩

/-- A position that a new node can take: it is vacant, and its parent is not. -/
structure Tree.Open (t : Tree α β) (p : ℕ) : Prop where
  pos : 1 ≤ p
  vacant : ¬ t.Has p
  parent : 1 < p → t.Has (parent p)

theorem open_nil {p : ℕ} (h : (Tree.nil : Tree α β).Open p) : p = 1 := by
  have hpos := h.pos
  by_contra hne
  exact h.parent (by omega)

/-- An open position of a node is an open position of one of its subtrees. -/
theorem open_node {k : α} {d : β} {l r : Tree α β} {p : ℕ} (h : (Tree.node k d l r).Open p) :
    1 < p ∧ (side p l r).Open (p / 2) := by
  have hp : 1 < p := lt_of_le_of_ne h.pos fun heq => h.vacant (.inl heq.symm)
  refine ⟨hp, by omega, fun hhas => h.vacant (has_node.mpr (.inr ⟨hp, hhas⟩)), fun h2 => ?_⟩
  exact (has_parent_node (by omega)).mp (h.parent hp)

-- ---------------------------------------------------------------------------
-- Addition
-- ---------------------------------------------------------------------------

section Ordered

variable [LinearOrder α]

/-- The pair with the smaller key stays; one of the two pairs goes down. -/
theorem sort2_cases (e1 e2 : α × β) :
    (sort2 e1 e2 = (e1, e2) ∧ e1.1 ≤ e2.1) ∨ (sort2 e1 e2 = (e2, e1) ∧ e2.1 ≤ e1.1) := by
  unfold sort2
  split_ifs with h
  · exact .inl ⟨rfl, h.le⟩
  · exact .inr ⟨rfl, not_lt.mp h⟩

theorem sort2_spec (e1 e2 : α × β) :
    ((sort2 e1 e2).1 ::ₘ {(sort2 e1 e2).2} : Multiset (α × β)) = e1 ::ₘ {e2} ∧
      (sort2 e1 e2).1.1 ≤ (sort2 e1 e2).2.1 ∧ (sort2 e1 e2).1.1 ≤ e2.1 := by
  cases sort2_cases e1 e2 with
  | inl h =>
    rw [h.1]
    exact ⟨rfl, h.2, h.2⟩
  | inr h =>
    rw [h.1]
    exact ⟨Multiset.pair_comm .., h.2, le_rfl⟩

/-- What an addition at an open position gives. -/
structure Added (t : Tree α β) (p : ℕ) (e : α × β) (t' : Tree α β) : Prop where
  elements : t'.elements = e ::ₘ t.elements
  ordered : t'.Ordered
  has : ∀ q, t'.Has q ↔ t.Has q ∨ q = p

theorem addTree_added {t : Tree α β} {p : ℕ} {e : α × β} (hopen : t.Open p) (ht : t.Ordered) :
    ∃ t', addTree p e t = some t' ∧ Added t p e t' := by
  induction t generalizing p e with
  | nil =>
    obtain rfl := open_nil hopen
    refine ⟨.node e.1 e.2 .nil .nil, rfl, rfl, by simp [Tree.Ordered, Tree.elements], fun q => ?_⟩
    simp [Tree.Has]
  | node k1 d1 l r ihl ihr =>
    obtain ⟨hroot, hl, hr⟩ := ht
    obtain ⟨hp, hside⟩ := open_node hopen
    obtain ⟨hpair, hle3, hle1⟩ := sort2_spec e (k1, d1)
    rw [addTree, if_neg (by omega)]
    generalize sort2 e (k1, d1) = s at hpair hle3 hle1
    obtain ⟨⟨k2, d2⟩, e3⟩ := s
    have hroot3 : ∀ a ∈ e3 ::ₘ (l.elements + r.elements), k2 ≤ a.1 := by
      intro a ha
      cases Multiset.mem_cons.mp ha with
      | inl heq => exact heq ▸ hle3
      | inr hmem => exact hle1.trans (hroot a hmem)
    have hsum : (k2, d2) ::ₘ e3 ::ₘ (l.elements + r.elements) =
        e ::ₘ (k1, d1) ::ₘ (l.elements + r.elements) := by
      simpa using congrArg (· + (l.elements + r.elements)) hpair
    unfold side at hside
    dsimp only
    split_ifs at hside ⊢ with heven
    · obtain ⟨l2, heq, hadded⟩ := ihl hside hl (e := e3)
      refine ⟨.node k2 d2 l2 r, by rw [heq]; rfl, ?_, ⟨?_, hadded.ordered, hr⟩, fun q => ?_⟩
      · simpa [Tree.elements, hadded.elements] using hsum
      · simpa [hadded.elements] using hroot3
      · rw [has_left hside.pos hadded.has q, show 2 * (p / 2) = p by omega]
    · obtain ⟨r2, heq, hadded⟩ := ihr hside hr (e := e3)
      refine ⟨.node k2 d2 l r2, by rw [heq]; rfl, ?_, ⟨?_, hl, hadded.ordered⟩, fun q => ?_⟩
      · simpa [Tree.elements, hadded.elements] using hsum
      · simpa [hadded.elements] using hroot3
      · rw [has_right hside.pos hadded.has q, show 2 * (p / 2) + 1 = p by omega]

-- ---------------------------------------------------------------------------
-- Removal
-- ---------------------------------------------------------------------------

/-- What is left of the two subtrees of a removed root, and the position that became free. -/
structure Repaired (l r : Tree α β) (t : Tree α β) (hole : ℕ) : Prop where
  elements : t.elements = l.elements + r.elements
  ordered : t.Ordered
  pos : 1 ≤ hole
  vacant : ¬ t.Has hole
  has : ∀ k d q, (Tree.node k d l r).Has q ↔ t.Has q ∨ q = hole

/-- The root of the right subtree moves up. -/
theorem Repaired.right {t l r r' : Tree α β} {k : α} {d : β} {m : ℕ} (h : Repaired l r r' m)
    (ht : t.Ordered) (hr : (Tree.node k d l r).Ordered) (hle : ∀ e ∈ t.elements, k ≤ e.1) :
    Repaired t (.node k d l r) (.node k d t r') (2 * m + 1) := by
  refine ⟨?_, ⟨?_, ht, h.ordered⟩, by omega, fun hhas => ?_, fun k' d' => has_right h.pos (h.has k d)⟩
  · simp [Tree.elements, h.elements]
  · intro e he
    rw [h.elements, Multiset.mem_add] at he
    exact he.elim (hle e) (hr.1 e)
  · cases has_node.mp hhas with
    | inl heq =>
      have := h.pos
      omega
    | inr hside =>
      rw [side, if_neg (by omega), show (2 * m + 1) / 2 = m by omega] at hside
      exact h.vacant hside.2

/-- The root of the left subtree moves up. -/
theorem Repaired.left {t l r l' : Tree α β} {k : α} {d : β} {m : ℕ} (h : Repaired l r l' m)
    (ht : t.Ordered) (hl : (Tree.node k d l r).Ordered) (hle : ∀ e ∈ t.elements, k ≤ e.1) :
    Repaired (.node k d l r) t (.node k d l' t) (2 * m) := by
  have hpos := h.pos
  refine ⟨?_, ⟨?_, h.ordered, ht⟩, by omega, fun hhas => ?_, fun k' d' => has_left h.pos (h.has k d)⟩
  · simp [Tree.elements, h.elements]
  · intro e he
    rw [h.elements, Multiset.mem_add] at he
    exact he.elim (hl.1 e) (hle e)
  · cases has_node.mp hhas with
    | inl heq => omega
    | inr hside =>
      rw [side, if_pos (by omega), show 2 * m / 2 = m by omega] at hside
      exact h.vacant hside.2

theorem root_le {k k' : α} {d : β} {l r : Tree α β} (h : (Tree.node k d l r).Ordered) (hk : k' ≤ k) :
    ∀ e ∈ (Tree.node k d l r).elements, k' ≤ e.1 := by
  intro e he
  cases Multiset.mem_cons.mp he with
  | inl heq => exact heq ▸ hk
  | inr hmem => exact hk.trans (h.1 e hmem)

theorem repairHeap_repaired {l r : Tree α β} (hl : l.Ordered) (hr : r.Ordered) :
    Repaired l r (repairHeap l r).1 (repairHeap l r).2 := by
  induction l, r using repairHeap.induct with
  | case1 k1 d1 l1 r1 k2 d2 l2 r2 hlt ih =>
    rw [repairHeap, if_pos hlt]
    exact (ih hr.2.1 hr.2.2).right hl hr (root_le hl hlt.le)
  | case2 k1 d1 l1 r1 k2 d2 l2 r2 hlt ih =>
    rw [repairHeap, if_neg hlt]
    exact (ih hl.2.1 hl.2.2).left hr hl (root_le hr (not_lt.mp hlt))
  | case3 k1 d1 l1 r1 ih =>
    rw [repairHeap]
    exact (ih hl.2.1 hl.2.2).left hr hl fun e he => absurd he (Multiset.notMem_zero e)
  | case4 k2 d2 l2 r2 ih =>
    rw [repairHeap]
    exact (ih hr.2.1 hr.2.2).right hl hr fun e he => absurd he (Multiset.notMem_zero e)
  | case5 =>
    rw [repairHeap]
    exact ⟨rfl, trivial, le_rfl, fun h => h, fun k d q => by simp [Tree.Has]⟩

-- ---------------------------------------------------------------------------
-- The heap over its runs
-- ---------------------------------------------------------------------------

/-- The parent of every position of the set is in the set. -/
def Closed (s : ℕ → Prop) : Prop := ∀ p, s p → 1 < p → s (parent p)

/-- The positions up to the number of elements and holes are occupied, but for the holes;
and when the first holes have been filled the positions are closed under parents. -/
structure Heap.Wf (h : Heap α β) : Prop where
  size : h.size = Multiset.card h.tree.elements
  ordered : h.tree.Ordered
  nodup : h.free.Nodup
  has : ∀ p, h.tree.Has p ↔ 1 ≤ p ∧ p ≤ h.size + h.free.length ∧ p ∉ h.free
  closed : ∀ holes, holes <:+ h.free →
    Closed fun p => 1 ≤ p ∧ p ≤ h.size + h.free.length ∧ p ∉ holes
  bounded : ∀ p ∈ h.free, 1 ≤ p ∧ p ≤ h.size + h.free.length

theorem wf_empty : (emptyHeap : Heap α β).Wf where
  size := rfl
  ordered := trivial
  nodup := List.nodup_nil
  has p := by
    simp only [emptyHeap, Tree.Has, false_iff]
    rintro ⟨h1, h2, -⟩
    exact absurd (h1.trans h2) (by simp)
  closed holes _ p hp hlt := by
    have := hp.2.1
    simp only [emptyHeap, List.length_nil] at this
    omega
  bounded p hp := absurd hp List.not_mem_nil

/-- The position that the next addition takes. -/
def Heap.next (h : Heap α β) : ℕ := h.free.headD (h.size + 1)

theorem Heap.Wf.open_next {h : Heap α β} (hw : h.Wf) : h.tree.Open h.next := by
  unfold Heap.next
  cases hfree : h.free with
  | nil =>
    have hhas := hw.has
    simp only [hfree, List.length_nil, add_zero, List.not_mem_nil, not_false_eq_true, and_true] at hhas
    refine ⟨by simp, fun hin => ?_, fun hlt => ?_⟩
    · have := ((hhas _).mp hin).2
      simp at this
    · rw [List.headD_nil] at hlt ⊢
      exact (hhas _).mpr ⟨parent_pos _, Nat.le_of_lt_succ (parent_lt hlt)⟩
  | cons hole rest =>
    have hmem : hole ∈ h.free := by simp [hfree]
    have hnodup := hw.nodup
    rw [hfree, List.nodup_cons] at hnodup
    obtain ⟨hpos, hle⟩ := hw.bounded hole hmem
    refine ⟨hpos, fun hin => ((hw.has _).mp hin).2.2 hmem, fun hlt => ?_⟩
    have hsuffix : rest <:+ h.free := hfree ▸ List.suffix_cons hole rest
    obtain ⟨hpos', hle', hnot⟩ := hw.closed rest hsuffix hole ⟨hpos, hle, hnodup.1⟩ hlt
    refine (hw.has _).mpr ⟨hpos', hle', ?_⟩
    rw [hfree, List.mem_cons, not_or]
    exact ⟨(parent_lt hlt).ne, hnot⟩

theorem addToHeap_eq (h : Heap α β) (key : α) (datum : β) :
    addToHeap h key datum =
      (addTree h.next (key, datum) h.tree).map fun newTree => ⟨h.size + 1, h.free.tail, newTree⟩ := by
  unfold addToHeap Heap.next
  cases h.free <;> rfl

/-- An addition always succeeds and adds the pair. -/
theorem Heap.Wf.add {h : Heap α β} (hw : h.Wf) (key : α) (datum : β) :
    ∃ h', addToHeap h key datum = some h' ∧ h'.Wf ∧
      h'.tree.elements = (key, datum) ::ₘ h.tree.elements := by
  obtain ⟨t', heq, hadded⟩ := addTree_added (e := (key, datum)) hw.open_next hw.ordered
  refine ⟨⟨h.size + 1, h.free.tail, t'⟩, by simp [addToHeap_eq, heq], ?_, hadded.elements⟩
  have hhas := hadded.has
  cases hfree : h.free with
  | nil =>
    simp only [Heap.next, hfree, List.headD_nil] at hhas
    have hold := hw.has
    simp only [hfree, List.length_nil, add_zero, List.not_mem_nil, not_false_eq_true, and_true] at hold
    refine ⟨by simp [hadded.elements, hw.size], hadded.ordered, by simp, fun p => ?_, ?_, by simp⟩
    · simp only [hhas, hold, List.tail_nil, List.length_nil, List.not_mem_nil, not_false_eq_true, and_true]
      omega
    · intro holes hsuffix p hp hlt
      have hpos := parent_pos p
      have hlt' := parent_lt hlt
      obtain rfl : holes = [] := List.suffix_nil.mp hsuffix
      simp only [List.tail_nil, List.length_nil, List.not_mem_nil, not_false_eq_true, and_true] at hp ⊢
      omega
  | cons hole rest =>
    simp only [Heap.next, hfree, List.headD_cons] at hhas
    have hnodup := hw.nodup
    have hbounded := hw.bounded
    have hold := hw.has
    have hclosed := hw.closed
    simp only [hfree, List.length_cons, List.nodup_cons, List.mem_cons, forall_eq_or_imp] at hnodup hbounded hold hclosed
    have hcount : h.size + 1 + rest.length = h.size + (rest.length + 1) := by omega
    refine ⟨by simp [hadded.elements, hw.size], hadded.ordered, hnodup.2, fun p => ?_, ?_, ?_⟩
    · simp only [hhas, hold, List.tail_cons, hcount]
      constructor
      · rintro (⟨h1, h2, h3⟩ | rfl)
        · exact ⟨h1, h2, fun hmem => h3 (.inr hmem)⟩
        · exact ⟨hbounded.1.1, hbounded.1.2, hnodup.1⟩
      · rintro ⟨h1, h2, h3⟩
        by_cases heq : p = hole
        · exact .inr heq
        · exact .inl ⟨h1, h2, fun hmem => hmem.elim heq h3⟩
    · intro holes hsuffix
      rw [List.tail_cons] at hsuffix ⊢
      rw [hcount]
      exact hclosed holes (hsuffix.trans (List.suffix_cons hole rest))
    · rw [List.tail_cons, hcount]
      exact hbounded.2

/-- A removal takes a pair with a least key out of the heap. -/
theorem Heap.Wf.get {h h' : Heap α β} {e : α × β} (hw : h.Wf) (heq : getFromHeap h = some (e, h')) :
    h'.Wf ∧ h.tree.elements = e ::ₘ h'.tree.elements ∧ ∀ a ∈ h.tree.elements, e.1 ≤ a.1 := by
  obtain ⟨size, free, tree⟩ := h
  cases tree with
  | nil => cases heq
  | node key datum l r =>
    simp only [getFromHeap, Option.some.injEq, Prod.mk.injEq] at heq
    obtain ⟨rfl, rfl⟩ := heq
    obtain ⟨helements, hordered, hpos, hvacant, hhas⟩ := repairHeap_repaired hw.ordered.2.1 hw.ordered.2.2
    generalize repairHeap l r = out at *
    obtain ⟨tree, hole⟩ := out
    have hsize : size = Multiset.card tree.elements + 1 := by
      rw [helements]
      simpa [Tree.elements] using hw.size
    have hcount : size - 1 + (free.length + 1) = size + free.length := by omega
    have hold := hw.has
    have hin := (hold hole).mp ((hhas _ _ _).mpr (.inr rfl))
    have hnew : ∀ p, tree.Has p ↔ 1 ≤ p ∧ p ≤ size - 1 + (hole :: free).length ∧ p ∉ hole :: free := by
      intro p
      rw [List.length_cons, hcount, List.mem_cons, not_or]
      constructor
      · intro hp
        obtain ⟨h1, h2, h3⟩ := (hold p).mp ((hhas _ _ _).mpr (.inl hp))
        exact ⟨h1, h2, fun heq => hvacant (heq ▸ hp), h3⟩
      · rintro ⟨h1, h2, hne, h3⟩
        exact ((hhas _ _ _).mp ((hold p).mpr ⟨h1, h2, h3⟩)).resolve_right hne
    refine ⟨⟨by simp [hsize], hordered, ?_, hnew, ?_, ?_⟩, by simp [Tree.elements, helements],
      root_le hw.ordered le_rfl⟩
    · exact List.nodup_cons.mpr ⟨hin.2.2, hw.nodup⟩
    · intro holes hsuffix
      cases List.suffix_cons_iff.mp hsuffix with
      | inl heq =>
        -- the positions of a tree are closed
        subst heq
        intro p hp hlt
        exact (hnew _).mp (((hnew p).mpr hp).parent hlt)
      | inr hrest =>
        rw [List.length_cons, hcount]
        exact hw.closed holes hrest
    · intro p hp
      rw [List.length_cons, hcount]
      cases List.mem_cons.mp hp with
      | inl heq => exact heq ▸ ⟨hpos, hin.2.1⟩
      | inr hmem => exact hw.bounded p hmem

theorem getFromHeap_eq_none (h : Heap α β) : getFromHeap h = none ↔ h.tree.elements = 0 := by
  unfold getFromHeap
  cases h.tree with
  | nil => simp [Tree.elements]
  | node k d l r => simp [Tree.elements]

/-- One operation and its result. -/
inductive Event (α β : Type*) where
  | add (key : α) (datum : β)
  | get (key : α) (datum : β)

/-- The heaps that a sequence of operations gives. -/
inductive Run : List (Event α β) → Heap α β → Prop
  | empty : Run [] emptyHeap
  | add {es h h' key datum} : Run es h → addToHeap h key datum = some h' → Run (es ++ [.add key datum]) h'
  | get {es h h' key datum} : Run es h → getFromHeap h = some ((key, datum), h') →
      Run (es ++ [.get key datum]) h'

/-- A priority queue: a multiset, from which a pair with a minimal key is taken. -/
inductive Queue : List (Event α β) → Multiset (α × β) → Prop
  | empty : Queue [] 0
  | add {es m key datum} : Queue es m → Queue (es ++ [.add key datum]) ((key, datum) ::ₘ m)
  | get {es m key datum} : Queue es ((key, datum) ::ₘ m) → (∀ a ∈ (key, datum) ::ₘ m, key ≤ a.1) →
      Queue (es ++ [.get key datum]) m

theorem Run.wf {es : List (Event α β)} {h : Heap α β} (hrun : Run es h) :
    h.Wf ∧ Queue es h.tree.elements := by
  induction hrun with
  | empty => exact ⟨wf_empty, .empty⟩
  | add _ heq ih =>
    obtain ⟨h₁, heq₁, hw, helements⟩ := ih.1.add _ _
    rw [heq] at heq₁
    obtain rfl := Option.some.inj heq₁
    exact ⟨hw, helements ▸ ih.2.add⟩
  | get _ heq ih =>
    obtain ⟨hw, helements, hle⟩ := ih.1.get heq
    rw [helements] at hle
    exact ⟨hw, .get (helements ▸ ih.2) hle⟩

/-- **Heaps are priority queues.** After any sequence of additions and removals the elements of
the tree are those of the priority queue, their number is the size, no key on a path decreases,
an addition succeeds, and a removal fails for the empty heap only. -/
theorem heap_refines_queue {es : List (Event α β)} {h : Heap α β} (hrun : Run es h) :
    Queue es h.tree.elements ∧ heapSize h = Multiset.card h.tree.elements ∧ h.tree.Ordered ∧
      (∀ key datum, ∃ h', addToHeap h key datum = some h' ∧
        h'.tree.elements = (key, datum) ::ₘ h.tree.elements) ∧
      (getFromHeap h = none ↔ h.tree.elements = 0) ∧
      ∀ e h', getFromHeap h = some (e, h') →
        h.tree.elements = e ::ₘ h'.tree.elements ∧ ∀ a ∈ h.tree.elements, e.1 ≤ a.1 := by
  obtain ⟨hw, hqueue⟩ := hrun.wf
  refine ⟨hqueue, hw.size, hw.ordered, fun key datum => ?_, getFromHeap_eq_none h, fun e h' heq => ?_⟩
  · obtain ⟨h', heq, -, helements⟩ := hw.add key datum
    exact ⟨h', heq, helements⟩
  · exact (hw.get heq).2

end Ordered

/-- Two additions and a removal. -/
theorem heap_refines_queue_three :
    Queue [.add (2 : ℕ) 'b', .add 1 'a', .get 1 'a'] ((2, 'b') ::ₘ 0) := by
  have h1 : Run [.add (2 : ℕ) 'b'] ⟨1, [], .node 2 'b' .nil .nil⟩ := .add .empty rfl
  have h2 : Run [.add (2 : ℕ) 'b', .add 1 'a'] ⟨2, [], .node 1 'a' (.node 2 'b' .nil .nil) .nil⟩ := .add h1 rfl
  have hget : getFromHeap (⟨2, [], .node 1 'a' (.node 2 'b' .nil .nil) .nil⟩ : Heap ℕ Char) =
      some ((1, 'a'), ⟨1, [2], .node 2 'b' .nil .nil⟩) := by simp [getFromHeap, repairHeap]
  exact (heap_refines_queue (h2.get hget)).1

end Heaps

end Yap
