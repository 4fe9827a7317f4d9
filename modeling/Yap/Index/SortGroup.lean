-- SUMMARY: sort_group: the offsets of the clauses of a group are sorted in a vector of two lanes, and the clauses are moved along the cycles of the permutation they make.
import Yap.Base.Cycles
import Yap.Index.Clauses
import Yap.Sorting.MergeSort

/-!
# Sorting the clauses of a group

The functions follow `index.c`. The vector holds the offset of each clause in its
even cells; `msort` and `insort` leave the sorted offsets in the even or the odd
ones, as their caller asks. `copy_back` moves the clauses in place.

Not modelled: groups with more clauses than an `int` can count, and the growth of
the trail for the vector.
-/

namespace Yap.Indexing

open Lanes StableSort

-- ---------------------------------------------------------------------------
-- The vector of offsets
-- ---------------------------------------------------------------------------

/-- The inner loop of `insort`: the memory and the position that is free. -/
def shiftLoop (base : ℕ → ClauseDef) (key : Word) (first : ℕ) (m : ℕ → ℕ) (i : ℕ) : (ℕ → ℕ) × ℕ :=
  if first < i ∧ smaller key (base (m (i - 2))).Tag then shiftLoop base key first (store m i (m (i - 2))) (i - 2)
  else (m, i)
termination_by i

/-- The outer loop: it reads the even cells from `j` on, and inserts to the lane that starts at `first`. -/
def insertLoop (base : ℕ → ClauseDef) (first myP q : ℕ) (m : ℕ → ℕ) (j : ℕ) : ℕ → ℕ :=
  if j < q then
    let off := m j
    let shifted := shiftLoop base (base off).Tag first m (j + myP)
    insertLoop base first myP q (store shifted.1 shifted.2 off) (j + 2)
  else m
termination_by q - j

def insort (base : ℕ → ClauseDef) (p q myP : ℕ) (m : ℕ → ℕ) : ℕ → ℕ :=
  if myP ≠ 0 then insertLoop base (p + 1) 1 q (store m (p + 1) (m p)) p else insertLoop base p 0 q m (p + 2)

/-- The loop that compares the heads of the two halves. The result has the memory and the three positions. -/
def mergeLoop (base : ℕ → ClauseDef) (endLeft endRight : ℕ) (m : ℕ → ℕ) (pt ptLeft ptRight : ℕ) :
    (ℕ → ℕ) × ℕ × ℕ × ℕ :=
  if ptLeft < endLeft ∧ ptRight < endRight then
    if smallerOrEq (base (m ptLeft)).Tag (base (m ptRight)).Tag then
      mergeLoop base endLeft endRight (store m pt (m ptLeft)) (pt + 2) (ptLeft + 2) ptRight
    else mergeLoop base endLeft endRight (store m pt (m ptRight)) (pt + 2) ptLeft (ptRight + 2)
  else (m, pt, ptLeft, ptRight)
termination_by (endLeft - ptLeft) + (endRight - ptRight)

def msort (base : ℕ → ClauseDef) (pt size myP : ℕ) (m : ℕ → ℕ) : ℕ → ℕ :=
  if 2 < size then
    let halfSize := size / 2
    if size < 50 then insort base pt (pt + 2 * size) myP m
    else
      let ptRight := pt + halfSize * 2
      let leftP := myP ^^^ 1
      let rightP := myP
      let m := msort base pt halfSize leftP m
      let m := msort base ptRight (size - halfSize) rightP m
      let endPt := pt + 2 * size
      let endPtLeft := pt + halfSize * 2
      let (m, pt, ptLeft, ptRight) := mergeLoop base endPtLeft endPt m (pt + myP) (pt + leftP) (ptRight + rightP)
      let left := copyLoop endPtLeft m pt ptLeft
      if myP ≠ rightP then (copyLoop endPt left.1 (pt + 2 * left.2) ptRight).1 else left.1
  else if 1 < size ∧ smaller (base (m (pt + 2))).Tag (base (m pt)).Tag then
    let t := m (pt + 2)
    store (store m (pt + 2 + myP) (m pt)) (pt + myP) t
  else if myP ≠ 0 then
    let m := store m (pt + 1) (m pt)
    if 1 < size then store m (pt + 3) (m (pt + 2)) else m
  else m
termination_by size

-- ---------------------------------------------------------------------------
-- The clauses
-- ---------------------------------------------------------------------------

/-- The inner loop of `copy_back`, which reads the cell `pnt` and writes the clause `j`. -/
def followChain (i : ℕ) (cl : ClauseDef) (pt : ℕ) :
    ℕ → (ℕ → ClauseDef) → (ℕ → ℕ) → ℕ → ℕ → Option ((ℕ → ClauseDef) × (ℕ → ℕ))
  | 0, _, _, _, _ => none
  | n + 1, dest, m, j, pnt =>
    let k := m pnt
    let m := store m pnt j
    if k = i then some (store dest j cl, m) else followChain i cl pt n (store dest j (dest k)) m k (pt + 2 * k)

/-- The loop of `copy_back` from `i` on. No chain is longer than the vector. -/
def copyBackFrom (pt max i tmp : ℕ) (dest : ℕ → ClauseDef) (m : ℕ → ℕ) : Option (ℕ → ClauseDef) :=
  if i < max then
    if m tmp ≠ i then
      (followChain i (dest i) pt max dest m i tmp).bind fun s => copyBackFrom pt max (i + 1) (tmp + 2) s.1 s.2
    else copyBackFrom pt max (i + 1) (tmp + 2) dest m
  else some dest
termination_by max - i

def copyBack (dest : ℕ → ClauseDef) (pt max : ℕ) (m : ℕ → ℕ) : Option (ℕ → ClauseDef) :=
  copyBackFrom pt max 0 pt dest m

/-- The loop of `sort_group` that writes the offsets. -/
def initFrom (max i pt : ℕ) (m : ℕ → ℕ) : ℕ → ℕ :=
  if i < max then initFrom max (i + 1) (pt + 2) (store (store m pt i) (pt + 1) 0) else m
termination_by max - i

/-- `sort_group` for the clauses from `FirstClause` on, with the vector at `top`. -/
def sortGroup (firstClause : ℕ → ClauseDef) (max top : ℕ) (m : ℕ → ℕ) : Option (ℕ → ClauseDef) :=
  copyBack firstClause top max (msort firstClause top max 0 (initFrom max 0 top m))

-- ---------------------------------------------------------------------------
-- The order
-- ---------------------------------------------------------------------------

/-- The low tag first, then the whole word. -/
def rank (t : Word) : ℤ := (lowTagOf t).toNat * 2 ^ 64 + t.toNat

theorem smallerOrEq_iff_rank {t1 t2 : Word} : smallerOrEq t1 t2 = true ↔ rank t1 ≤ rank t2 := by
  rw [smallerOrEq_iff, BitVec.lt_def, BitVec.le_def, ← BitVec.toNat_inj]
  have h1 := t1.isLt
  have h2 := t2.isLt
  unfold rank
  omega

theorem smaller_iff_rank {t1 t2 : Word} : smaller t1 t2 = true ↔ rank t1 < rank t2 := by
  have hnot : smaller t1 t2 = !smallerOrEq t2 t1 := by
    by_cases h : lowTagOf t1 = lowTagOf t2
    · rw [smaller, smallerOrEq, if_pos h, if_pos h.symm, ← decide_not]
      exact decide_eq_decide.mpr BitVec.not_le.symm
    · rw [smaller, smallerOrEq, if_neg h, if_neg (Ne.symm h), ← decide_not]
      refine decide_eq_decide.mpr ⟨fun hlt => BitVec.not_lt.mpr (BitVec.le_of_lt hlt), fun hle => ?_⟩
      exact BitVec.lt_of_le_ne (BitVec.not_lt.mp hle) h
  rw [hnot, Bool.not_eq_true', Bool.eq_false_iff, Ne, smallerOrEq_iff_rank, not_le]

theorem rank_inj {t1 t2 : Word} (h : rank t1 = rank t2) : t1 = t2 :=
  smallerOrEq_antisymm (smallerOrEq_iff_rank.mpr h.le) (smallerOrEq_iff_rank.mpr h.ge)

/-- The order of two offsets. -/
def order (base : ℕ → ClauseDef) (a b : ℕ) : ℤ := rank (base a).Tag - rank (base b).Tag

theorem order_totalPreorder (base : ℕ → ClauseDef) : TotalPreorder (order base) :=
  totalPreorder_sub fun a => rank (base a).Tag

theorem smallerOrEq_iff_order {base : ℕ → ClauseDef} {a b : ℕ} :
    smallerOrEq (base a).Tag (base b).Tag = true ↔ order base a b ≤ 0 := by
  rw [smallerOrEq_iff_rank, order, sub_nonpos]

theorem smaller_iff_order {base : ℕ → ClauseDef} {a b : ℕ} :
    smaller (base a).Tag (base b).Tag = true ↔ order base a b < 0 := by
  rw [smaller_iff_rank, order, sub_neg]

theorem order_eq_zero {base : ℕ → ClauseDef} {a b : ℕ} : order base a b = 0 ↔ (base b).Tag = (base a).Tag := by
  rw [order, sub_eq_zero]
  exact ⟨fun h => (rank_inj h).symm, fun h => congrArg rank h.symm⟩

-- ---------------------------------------------------------------------------
-- Insertion
-- ---------------------------------------------------------------------------

theorem lane_snoc {γ : Type*} (m : ℕ → γ) (p n : ℕ) : lane m p (n + 1) = lane m p n ++ [m (p + 2 * n)] :=
  lane_append m p n 1

variable {base : ℕ → ClauseDef}

/-- The element that is inserted stands after the ones that are not greater. -/
theorem shiftLoop_spec {first n off : ℕ} {m : ℕ → ℕ}
    (hsorted : (lane m first n).Pairwise fun a b => order base a b ≤ 0) {s : (ℕ → ℕ) × ℕ}
    (hs : shiftLoop base (base off).Tag first m (first + 2 * n) = s) :
    Sorts (order base) (lane m first n ++ [off]) (lane (store s.1 s.2 off) first (n + 1)) ∧
      Keeps m (store s.1 s.2 off) first (first + 2 * n + 1) := by
  have hcmp := order_totalPreorder base
  induction n generalizing m with
  | zero =>
    rw [shiftLoop, if_neg (by omega)] at hs
    subst hs
    refine ⟨?_, keeps_store le_rfl (by omega)⟩
    simpa [lane] using sorts_singleton off
  | succ n ih =>
    have hprev : first + 2 * (n + 1) - 2 = first + 2 * n := by omega
    rw [shiftLoop, hprev] at hs
    rw [lane_snoc] at hsorted ⊢
    obtain ⟨hinit, -, hlast⟩ := List.pairwise_append.mp hsorted
    have hlast : ∀ b ∈ lane m first n, order base b (m (first + 2 * n)) ≤ 0 := fun b hb =>
      hlast b hb _ (List.mem_singleton_self _)
    by_cases hlt : order base off (m (first + 2 * n)) < 0
    · rw [if_pos ⟨by omega, smaller_iff_order.mpr hlt⟩] at hs
      have hlane : lane (store m (first + 2 * (n + 1)) (m (first + 2 * n))) first n = lane m first n :=
        lane_store fun i hi => by omega
      obtain ⟨hsorts, hkeeps⟩ := ih (hlane.symm ▸ hinit) hs
      have hmoved := hkeeps (first + 2 * (n + 1)) (by omega)
      rw [store_self] at hmoved
      refine ⟨?_, (keeps_store (by omega) (by omega)).trans hkeeps le_rfl le_rfl le_rfl (by omega)⟩
      rw [lane_snoc, hmoved]
      exact (hlane ▸ hsorts).insert_before hcmp hlast hlt
    · rw [if_neg fun h => hlt (smaller_iff_order.mp h.2)] at hs
      subst hs
      have hlane : lane (store m (first + 2 * (n + 1)) off) first (n + 1) = lane m first (n + 1) :=
        lane_store fun i hi => by omega
      refine ⟨?_, keeps_store (by omega) (by omega)⟩
      have hle : order base (m (first + 2 * n)) off ≤ 0 := not_lt.mp fun hpos => hlt ((hcmp.swap _ _).mp hpos)
      rw [lane_snoc _ _ (n + 1), store_self, hlane, lane_snoc]
      refine Sorts.snoc hsorted fun b hb => ?_
      cases List.mem_append.mp hb with
      | inl hb => exact hcmp.trans _ _ _ (hlast b hb) hle
      | inr hb => exact List.mem_singleton.mp hb ▸ hle

theorem insertLoop_spec {first myP q j n k : ℕ} {m : ℕ → ℕ} {l : List ℕ} (hp : myP ≤ 1) (hq : q = j + 2 * k)
    (hj : j + myP = first + 2 * n) (hl : Sorts (order base) l (lane m first n)) :
    Sorts (order base) (l ++ lane m j k) (lane (insertLoop base first myP q m j) first (n + k)) ∧
      Keeps m (insertLoop base first myP q m j) first q := by
  induction k generalizing m j n l with
  | zero =>
    rw [insertLoop, if_neg (by omega)]
    exact ⟨by simpa [lane] using hl, Keeps.refl m _ _⟩
  | succ k ih =>
    rw [insertLoop, if_pos (by omega), hj]
    dsimp only
    generalize hs : shiftLoop base (base (m j)).Tag first m (first + 2 * n) = s
    obtain ⟨hsorts, hkeeps⟩ := shiftLoop_spec hl.sorted hs
    have hrest : lane (store s.1 s.2 (m j)) (j + 2) k = lane m (j + 2) k := hkeeps.lane (.inr (by omega))
    obtain ⟨hsorts', hkeeps'⟩ := ih (j := j + 2) (n := n + 1) (m := store s.1 s.2 (m j)) (by omega) (by omega)
      (hl.append hsorts)
    rw [hrest, List.append_assoc, List.singleton_append, ← lane, Nat.add_right_comm, Nat.add_assoc] at hsorts'
    exact ⟨hsorts', hkeeps.trans hkeeps' le_rfl (by omega) le_rfl le_rfl⟩

theorem insort_spec {p size myP : ℕ} {m : ℕ → ℕ} (hsize : 1 ≤ size) (hp : myP ≤ 1) :
    Sorts (order base) (lane m p size) (lane (insort base p (p + 2 * size) myP m) (p + myP) size) ∧
      Keeps m (insort base p (p + 2 * size) myP m) p (p + 2 * size) := by
  cases Nat.le_one_iff_eq_zero_or_eq_one.mp hp with
  | inl h =>
    subst h
    obtain ⟨k, rfl⟩ := Nat.exists_eq_add_of_le' hsize
    obtain ⟨hsorts, hkeeps⟩ := @insertLoop_spec base p 0 (p + 2 * (k + 1)) (p + 2) 1 k m [m p] (by omega) (by omega)
      (by omega) (sorts_singleton _)
    rw [insort, if_neg (by omega)]
    exact ⟨by rwa [Nat.add_comm 1 k] at hsorts, hkeeps⟩
  | inr h =>
    subst h
    -- the first cell is copied to the odd lane and inserted there once more
    obtain ⟨hsorts, hkeeps⟩ := @insertLoop_spec base (p + 1) 1 (p + 2 * size) p 0 size (store m (p + 1) (m p)) []
      (by omega) (by omega) (by omega) sorts_nil
    have hlane : lane (store m (p + 1) (m p)) p size = lane m p size := lane_store fun i _ => by omega
    rw [insort, if_pos (by omega)]
    refine ⟨?_, (keeps_store (by omega) (by omega)).trans hkeeps le_rfl le_rfl (by omega) le_rfl⟩
    rwa [List.nil_append, hlane, Nat.zero_add] at hsorts

-- ---------------------------------------------------------------------------
-- The merge sort
-- ---------------------------------------------------------------------------

/-- The order as a comparison that never fails. -/
def compared (base : ℕ → ClauseDef) (a b : ℕ) : Option ℤ := some (order base a b)

theorem mergeLoop_eq (endLeft endRight : ℕ) (m : ℕ → ℕ) (pt l r : ℕ) :
    Sorting.mergeLoop (compared base) endLeft endRight m pt l r = some (mergeLoop base endLeft endRight m pt l r) := by
  induction m, pt, l, r using mergeLoop.induct base endLeft endRight with
  | case1 m pt l r hlt hle ih =>
    rw [Sorting.mergeLoop, mergeLoop, if_pos hlt, if_pos hlt, if_pos hle, compared, Option.bind_some,
      if_pos (smallerOrEq_iff_order.mp hle)]
    exact ih
  | case2 m pt l r hlt hle ih =>
    rw [Sorting.mergeLoop, mergeLoop, if_pos hlt, if_pos hlt, if_neg hle, compared, Option.bind_some,
      if_neg (mt smallerOrEq_iff_order.mpr hle)]
    exact ih
  | case3 m pt l r hlt => rw [Sorting.mergeLoop, mergeLoop, if_neg hlt, if_neg hlt]

/-- Two clauses are sorted as two terms are. -/
theorem msort_le_two {size : ℕ} (h : size ≤ 2) (pt myP : ℕ) (m : ℕ → ℕ) :
    Sorting.mergesort (compared base) pt size myP m = some (msort base pt size myP m) := by
  rw [Sorting.mergesort, msort, if_neg (Nat.not_lt.mpr h), if_neg (Nat.not_lt.mpr h)]
  by_cases hone : 1 < size
  · rw [if_pos hone, compared, Option.map_some]
    by_cases hlt : order base (m (pt + 2)) (m pt) < 0
    · rw [if_pos (((order_totalPreorder base).swap _ _).mpr hlt), if_pos ⟨hone, smaller_iff_order.mpr hlt⟩]
    · have hnot : ¬ (1 < size ∧ smaller (base (m (pt + 2))).Tag (base (m pt)).Tag = true) := fun hswap =>
        hlt (smaller_iff_order.mp hswap.2)
      rw [if_neg fun hpos => hlt (((order_totalPreorder base).swap _ _).mp hpos), if_neg hnot]
      dsimp only
      rw [if_pos hone, store_of_ne (by omega : pt + 2 ≠ pt + 1)]
  · have hnot : ¬ (1 < size ∧ smaller (base (m (pt + 2))).Tag (base (m pt)).Tag = true) := fun hswap => hone hswap.1
    rw [if_neg hone, if_neg hnot]
    dsimp only
    rw [if_neg hone]

theorem msort_large {pt size myP : ℕ} {m : ℕ → ℕ} (h : 50 ≤ size) :
    msort base pt size myP m =
      Sorting.merged (pt + 2 * (size / 2)) (mergeLoop base (pt + 2 * (size / 2)) (pt + 2 * size)
        (msort base (pt + 2 * (size / 2)) (size - size / 2) myP (msort base pt (size / 2) (myP ^^^ 1) m))
        (pt + myP) (pt + (myP ^^^ 1)) (pt + 2 * (size / 2) + myP)) := by
  rw [msort, if_pos (by omega)]
  dsimp only
  rw [if_neg (by omega)]
  simp only [ne_eq, not_true_eq_false, if_false, Nat.mul_comm (size / 2) 2]
  rfl

/-- Every call leaves a stable sort of its even cells in the lane it is asked for. -/
theorem msort_spec {pt size myP : ℕ} {m : ℕ → ℕ} (hsize : 1 ≤ size) (hp : myP ≤ 1) :
    Sorts (order base) (lane m pt size) (lane (msort base pt size myP m) (pt + myP) size) ∧
      Keeps m (msort base pt size myP m) pt (pt + 2 * size) := by
  have hcmp := order_totalPreorder base
  induction size using Nat.strong_induction_on generalizing pt myP m with
  | _ size ih =>
    obtain htwo | hsmall | hlarge : size ≤ 2 ∨ (2 < size ∧ size < 50) ∨ 50 ≤ size := by omega
    · obtain ⟨m', hm', hrearranges, hkeeps⟩ :=
        @Sorting.mergesort_spec ℕ (order base) (compared base) (fun _ => True) (fun _ _ _ _ => rfl) pt size myP m hsize hp
          fun _ _ => trivial
      rw [msort_le_two htwo] at hm'
      cases hm'
      exact ⟨hrearranges.sorts hcmp, hkeeps⟩
    · rw [msort, if_pos hsmall.1]
      dsimp only
      rw [if_pos hsmall.2]
      exact insort_spec hsize hp
    · have hxor := Sorting.xor_one hp
      obtain ⟨hsorts1, hkeeps1⟩ := @ih (size / 2) (by omega) pt (myP ^^^ 1) m (by omega) (by omega)
      generalize hrun1 : msort base pt (size / 2) (myP ^^^ 1) m = m1 at hsorts1 hkeeps1
      obtain ⟨hsorts2, hkeeps2⟩ := @ih (size - size / 2) (by omega) (pt + 2 * (size / 2)) myP m1 (by omega) hp
      generalize hrun2 : msort base (pt + 2 * (size / 2)) (size - size / 2) myP m1 = m2 at hsorts2 hkeeps2
      have hright : lane m1 (pt + 2 * (size / 2)) (size - size / 2) = lane m (pt + 2 * (size / 2)) (size - size / 2) :=
        hkeeps1.lane (.inr le_rfl)
      have hleft : lane m2 (pt + (myP ^^^ 1)) (size / 2) = lane m1 (pt + (myP ^^^ 1)) (size / 2) :=
        hkeeps2.lane (.inl (by omega))
      obtain ⟨s, hs, hlane, hkeeps⟩ := @Sorting.mergeLoop_spec _ (order base) (compared base) (fun _ => True)
        (fun _ _ _ _ => rfl) (pt + 2 * (size / 2)) (pt + 2 * size) (pt + myP) (pt + (myP ^^^ 1))
        (pt + 2 * (size / 2) + myP) (size / 2) (size - size / 2) m2
        (by omega) (by omega) (by omega) (by omega) (by omega) (by omega) (fun _ _ => trivial) (fun _ _ => trivial)
      rw [mergeLoop_eq] at hs
      cases hs
      have hhalf : size / 2 + (size - size / 2) = size := by omega
      have hsplit := lane_append m pt (size / 2) (size - size / 2)
      rw [hhalf] at hlane hkeeps hsplit
      rw [msort_large hlarge, hrun1, hrun2, hlane, hsplit, hleft, ← hright]
      refine ⟨?_, ?_⟩
      · rw [hright] at hsorts2 ⊢
        exact hsorts1.merge hcmp hsorts2
      · have hkeeps12 := hkeeps1.trans hkeeps2 (a := pt) (b := pt + 2 * size) le_rfl (by omega) (by omega) (by omega)
        exact hkeeps12.trans hkeeps le_rfl le_rfl (by omega) (by omega)

-- ---------------------------------------------------------------------------
-- Following the cycles
-- ---------------------------------------------------------------------------

/-- The clauses in the set have got those that the vector named for them; the vector still says it for the others. -/
structure Placed (firstClause : ℕ → ClauseDef) (source : ℕ → ℕ) (pt max : ℕ) (D : Finset ℕ)
    (dest : ℕ → ClauseDef) (m : ℕ → ℕ) : Prop where
  done : ∀ l ∈ D, m (pt + 2 * l) = l ∧ dest l = firstClause (source l)
  pending : ∀ l < max, l ∉ D → m (pt + 2 * l) = source l ∧ dest l = firstClause l
  outside : ∀ l, max ≤ l → dest l = firstClause l

variable {firstClause dest : ℕ → ClauseDef} {source : ℕ → ℕ} {pt max i j n : ℕ} {D : Finset ℕ} {m : ℕ → ℕ}

theorem Placed.insert (h : Placed firstClause source pt max D dest m) (hj : j < max) :
    Placed firstClause source pt max (insert j D) (store dest j (firstClause (source j))) (store m (pt + 2 * j) j) where
  done l hl := by
    by_cases heq : l = j
    · subst heq
      exact ⟨store_self _ _ _, store_self _ _ _⟩
    · obtain ⟨hcell, hclause⟩ := h.done l (Finset.mem_of_mem_insert_of_ne hl heq)
      exact ⟨(store_of_ne (by omega)).trans hcell, (store_of_ne heq).trans hclause⟩
  pending l hl hnot := by
    obtain ⟨heq, hnot⟩ := not_or.mp (mt Finset.mem_insert.mpr hnot)
    obtain ⟨hcell, hclause⟩ := h.pending l hl hnot
    exact ⟨(store_of_ne (by omega)).trans hcell, (store_of_ne heq).trans hclause⟩
  outside l hl := (store_of_ne (by omega)).trans (h.outside l hl)

theorem followChain_spec (hmaps : ∀ a ∈ Finset.range max, source a ∈ Finset.range max)
    (hinj : Set.InjOn source (Finset.range max)) (h : Placed firstClause source pt max D dest m)
    (hchain : Cycles.Chain source (Finset.range max) D i j) (hn : max ≤ D.card + n) :
    ∃ s D', followChain i (firstClause i) pt n dest m j (pt + 2 * j) = some s ∧ insert j D ⊆ D' ∧
      Cycles.Finished source (Finset.range max) D' ∧ Placed firstClause source pt max D' s.1 s.2 := by
  induction n generalizing D dest m j with
  | zero =>
    have hcard := hchain.card_lt
    rw [Finset.card_range] at hcard
    omega
  | succ n ih =>
    have hj : j < max := Finset.mem_range.mp hchain.mem
    have hcell := (h.pending j hj hchain.fresh).1
    have hplaced := h.insert hj
    rw [followChain, hcell]
    by_cases heq : source j = i
    · rw [if_pos heq]
      rw [heq] at hplaced
      exact ⟨_, _, rfl, subset_rfl, hchain.finish hinj heq, hplaced⟩
    · have hnext := hchain.next hinj hmaps heq
      have hfresh : source j ∉ D := fun hmem => hnext.fresh (Finset.mem_insert_of_mem hmem)
      have hclause := (h.pending (source j) (Finset.mem_range.mp (hmaps j hchain.mem)) hfresh).2
      rw [if_neg heq, hclause]
      obtain ⟨s, D', hs, hsubset, hfinished, hplaced'⟩ := ih hplaced hnext (by
        rw [Finset.card_insert_of_notMem hchain.fresh]
        omega)
      exact ⟨s, D', hs, (Finset.subset_insert _ _).trans hsubset, hfinished, hplaced'⟩

theorem copyBackFrom_spec (hmaps : ∀ a ∈ Finset.range max, source a ∈ Finset.range max)
    (hinj : Set.InjOn source (Finset.range max)) (hi : i ≤ max) (h : Placed firstClause source pt max D dest m)
    (hfinished : Cycles.Finished source (Finset.range max) D) (hbefore : Finset.range i ⊆ D) :
    ∃ dest', copyBackFrom pt max i (pt + 2 * i) dest m = some dest' ∧
      (∀ l < max, dest' l = firstClause (source l)) ∧ ∀ l, max ≤ l → dest' l = firstClause l := by
  induction hd : max - i generalizing i D dest m with
  | zero =>
    obtain rfl : i = max := by omega
    rw [copyBackFrom, if_neg (by omega)]
    exact ⟨dest, rfl, fun l hl => (h.done l (hbefore (Finset.mem_range.mpr hl))).2, h.outside⟩
  | succ d ih =>
    have hlt : i < max := by omega
    have hsucc : ∀ D', insert i D ⊆ D' → Finset.range (i + 1) ⊆ D' := fun D' hD' => by
      rw [Finset.range_add_one]
      exact (Finset.insert_subset_insert i hbefore).trans hD'
    rw [copyBackFrom, if_pos hlt]
    by_cases hmem : i ∈ D
    · have hskip : insert i D ⊆ D := (Finset.insert_eq_of_mem hmem).subset
      rw [if_neg (not_not_intro (h.done i hmem).1)]
      exact ih (by omega) h hfinished (hsucc D hskip) (by omega)
    · have hchain := hfinished.chain (Finset.mem_range.mpr hlt) hmem
      obtain ⟨hcell, hclause⟩ := h.pending i hlt hmem
      by_cases hfixed : source i = i
      · -- a clause that is in its place is a cycle that is finished
        have hplaced : Placed firstClause source pt max (insert i D) dest m := by
          have hinsert := h.insert hlt
          rwa [hfixed, ← hclause, store, Function.update_eq_self, store,
            Function.update_eq_iff.mpr ⟨(hcell.trans hfixed).symm, fun _ _ => rfl⟩] at hinsert
        rw [if_neg (not_not_intro (hcell.trans hfixed))]
        exact ih (by omega) hplaced (hchain.finish hinj hfixed) (hsucc _ subset_rfl) (by omega)
      · rw [if_pos (by rwa [hcell]), hclause]
        obtain ⟨s, D', hs, hsubset, hfinished', hplaced⟩ := followChain_spec (n := max) hmaps hinj h hchain (by omega)
        rw [hs, Option.bind_some]
        exact ih (by omega) hplaced hfinished' (hsucc D' hsubset) (by omega)

-- ---------------------------------------------------------------------------
-- The group
-- ---------------------------------------------------------------------------

/-- The clauses of a group in memory. -/
def clauses (firstClause : ℕ → ClauseDef) (max : ℕ) : List ClauseDef := (List.range max).map firstClause

theorem initFrom_spec {max i n pt : ℕ} {m : ℕ → ℕ} (h : i + n = max) :
    lane (initFrom max i pt m) pt n = List.range' i n ∧ Keeps m (initFrom max i pt m) pt (pt + 2 * n) := by
  induction n generalizing i pt m with
  | zero =>
    rw [initFrom, if_neg (by omega)]
    exact ⟨rfl, Keeps.refl m _ _⟩
  | succ n ih =>
    rw [initFrom, if_pos (by omega)]
    obtain ⟨hlane, hkeeps⟩ := @ih (i + 1) (pt + 2) (store (store m pt i) (pt + 1) 0) (by omega)
    have hfirst := hkeeps pt (by omega)
    rw [store_of_ne (by omega), store_self] at hfirst
    refine ⟨by rw [lane, hlane, hfirst, List.range'_succ], ?_⟩
    have hstores : Keeps m (store (store m pt i) (pt + 1) 0) pt (pt + 2) :=
      (keeps_store (by omega) (by omega)).trans (keeps_store (p := pt) (q := pt + 2) (by omega) (by omega))
        le_rfl le_rfl le_rfl le_rfl
    exact hstores.trans hkeeps le_rfl (by omega) (by omega) (by omega)

theorem lane_eq_map {γ : Type*} (m : ℕ → γ) (p n : ℕ) : lane m p n = (List.range n).map fun l => m (p + 2 * l) := by
  induction n with
  | zero => rfl
  | succ n ih => rw [lane_snoc, ih, List.range_succ, List.map_append, List.map_singleton]

/-- The clauses with one tag follow each other in a sorted group. -/
theorem Sorted.infix_filter {cls : List ClauseDef} (h : Sorted cls) (t : Word) :
    cls.filter (·.Tag == t) <:+: cls := by
  induction cls with
  | nil => exact List.infix_rfl
  | cons c cls ih =>
    by_cases heq : c.Tag = t
    · subst heq
      rw [List.filter_cons_of_pos (by simp), ← (takeWhile_eq_filter h.run).1]
      exact ((List.prefix_cons_inj c).mpr (List.takeWhile_prefix _)).isInfix
    · rw [List.filter_cons_of_neg (by simpa using heq)]
      exact (ih (List.pairwise_cons.mp h).2).trans (List.suffix_cons c cls).isInfix

theorem sorted_clauses {l offsets : List ℕ} (h : Sorts (order base) l offsets) : Sorted (offsets.map base) :=
  List.pairwise_map.mpr (h.sorted.imp smallerOrEq_iff_order.mpr)

/-- The clauses with one tag are in the order of their offsets. -/
theorem filter_clauses {l offsets : List ℕ} (h : Sorts (order base) l offsets) (t : Word) :
    (offsets.map base).filter (·.Tag == t) = (l.map base).filter (·.Tag == t) := by
  rw [List.filter_map, List.filter_map]
  by_cases hex : ∃ a ∈ l, (base a).Tag = t
  · obtain ⟨a, -, rfl⟩ := hex
    have hfilter : (fun b => decide (order base a b = 0)) = (·.Tag == (base a).Tag) ∘ base := by
      funext b
      rw [Function.comp_apply, Bool.eq_iff_iff, decide_eq_true_iff, beq_iff_eq, order_eq_zero]
    rw [← hfilter, h.stable]
  · push Not at hex
    have hnone : ∀ a ∈ l, ¬ ((·.Tag == t) ∘ base) a = true := fun a ha => by simpa using hex a ha
    rw [List.filter_eq_nil_iff.mpr hnone,
      List.filter_eq_nil_iff.mpr fun a ha => hnone a (h.perm.mem_iff.mp ha)]

theorem msort_sorts (firstClause : ℕ → ClauseDef) (max top : ℕ) (m : ℕ → ℕ) :
    Sorts (order firstClause) (List.range max)
      (lane (msort firstClause top max 0 (initFrom max 0 top m)) top max) := by
  obtain rfl | hpos := Nat.eq_zero_or_pos max
  · exact sorts_nil
  · have hinit := (@initFrom_spec max 0 max top m (Nat.zero_add max)).1
    rw [List.range_eq_range', ← hinit]
    exact (msort_spec hpos (Nat.zero_le 1)).1

end Yap.Indexing
