-- SUMMARY: Trees of quadrants in the array of a range list: what a place holds, where the subtree of a quadrant starts, and lookups.
import Yap.Library.Rltree.Tree

/-!
# Trees in the array

A subtree takes the places from its node on, in the order of its quadrants. The
number of nodes that a node holds is only read below the root. A lookup goes to the
quadrant of the number until a quadrant is in the set as a whole or not at all, or
a leaf is reached.
-/

namespace Yap

namespace Rltree

-- ---------------------------------------------------------------------------
-- Bits of a node
-- ---------------------------------------------------------------------------

/-- A quadrant as the code counts it. -/
def quadrantNum (i : Fin 4) : ℤ := i.val + 1

theorem ofBits_bits (s : QuadrantStatus) : QuadrantStatus.ofBits s.bits = s := by
  cases s <;> rfl

theorem quadrantStatus_eq (node : RlNode) (i : Fin 4) :
    quadrantStatus node (quadrantNum i) = .ofBits (node.extractLsb' (2 * i.val) 2) := by
  fin_cases i <;> rfl

theorem setQuadrant_eq (node : RlNode) (i : Fin 4) (s : QuadrantStatus) :
    setQuadrant node (quadrantNum i) s =
      node &&& ~~~((3 : RlNode) <<< (2 * i.val)) ||| s.bits.setWidth 16 <<< (2 * i.val) := by
  fin_cases i <;> rfl

theorem getLsbD_mask : ∀ i : Fin 4, ∀ n < 16,
    ((3 : RlNode) <<< (2 * i.val)).getLsbD n = decide (2 * i.val ≤ n ∧ n < 2 * i.val + 2) := by decide

theorem getLsbD_bits (s : QuadrantStatus) : ∀ i : Fin 4, ∀ n < 16, (s.bits.setWidth 16 <<< (2 * i.val)).getLsbD n =
    (decide (2 * i.val ≤ n ∧ n < 2 * i.val + 2) && s.bits.getLsbD (n - 2 * i.val)) := by
  cases s <;> decide

/-- The two bits of the quadrant are replaced. -/
theorem getLsbD_setQuadrant (node : RlNode) (i : Fin 4) (s : QuadrantStatus) {n : ℕ} (hn : n < 16) :
    (setQuadrant node (quadrantNum i) s).getLsbD n =
      if 2 * i.val ≤ n ∧ n < 2 * i.val + 2 then s.bits.getLsbD (n - 2 * i.val) else node.getLsbD n := by
  rw [setQuadrant_eq, BitVec.getLsbD_or, BitVec.getLsbD_and, BitVec.getLsbD_not, getLsbD_mask i n hn,
    getLsbD_bits s i n hn]
  split_ifs with h <;> simp [h, hn]

theorem quadrantStatus_setQuadrant (node : RlNode) (i j : Fin 4) (s : QuadrantStatus) :
    quadrantStatus (setQuadrant node (quadrantNum i) s) (quadrantNum j) =
      if j = i then s else quadrantStatus node (quadrantNum j) := by
  rw [quadrantStatus_eq, quadrantStatus_eq]
  have hj := j.isLt
  by_cases h : j = i
  · subst h
    have hbits : (setQuadrant node (quadrantNum j) s).extractLsb' (2 * j.val) 2 = s.bits := by
      ext n hn
      rw [BitVec.getElem_extractLsb', getLsbD_setQuadrant node j s (by omega), if_pos (by omega),
        Nat.add_sub_cancel_left]
      simp [hn]
    rw [if_pos rfl, hbits, ofBits_bits]
  · have hbits : (setQuadrant node (quadrantNum i) s).extractLsb' (2 * j.val) 2 = node.extractLsb' (2 * j.val) 2 := by
      ext n hn
      have hne : j.val ≠ i.val := fun hv => h (Fin.ext hv)
      rw [BitVec.getElem_extractLsb', BitVec.getElem_extractLsb', getLsbD_setQuadrant node i s (by omega),
        if_neg (by omega)]
    rw [if_neg h, hbits]

theorem numSubnodes_setQuadrant (node : RlNode) (i : Fin 4) (s : QuadrantStatus) :
    numSubnodes (setQuadrant node (quadrantNum i) s) = numSubnodes node := by
  rw [numSubnodes, numSubnodes]
  congr 1
  ext n hn
  have hi := i.isLt
  rw [BitVec.getElem_extractLsb', BitVec.getElem_extractLsb', getLsbD_setQuadrant node i s (by omega),
    if_neg (by omega)]

theorem getLsbD_low : ∀ n < 16, (0xff : RlNode).getLsbD n = decide (n < 8) := by decide

theorem quadrantStatus_setNumSubnodes (node : RlNode) (n : ℕ) (i : Fin 4) :
    quadrantStatus (setNumSubnodes node n) (quadrantNum i) = quadrantStatus node (quadrantNum i) := by
  rw [quadrantStatus_eq, quadrantStatus_eq, setNumSubnodes]
  congr 1
  ext j hj
  have hi := i.isLt
  rw [BitVec.getElem_extractLsb', BitVec.getElem_extractLsb', BitVec.getLsbD_or, BitVec.getLsbD_and,
    getLsbD_low _ (by omega), BitVec.getLsbD_shiftLeft]
  have hlow : 2 * i.val + j < 8 := by omega
  simp [hlow]

theorem numSubnodes_setNumSubnodes (node : RlNode) {n : ℕ} (h : n ≤ 255) :
    numSubnodes (setNumSubnodes node n) = n := by
  have hbyte : (setNumSubnodes node n).extractLsb' 8 8 = BitVec.ofNat 8 n := by
    ext j hj
    rw [setNumSubnodes, BitVec.getElem_extractLsb', BitVec.getLsbD_or, BitVec.getLsbD_and,
      getLsbD_low _ (by omega), BitVec.getLsbD_shiftLeft]
    have hhigh : ¬ 8 + j < 8 := by omega
    have hword : 8 + j < 16 := by omega
    have hbit : j < 16 := by omega
    rw [Nat.add_sub_cancel_left, BitVec.getLsbD_ofNat, ← BitVec.getLsbD_eq_getElem hj, BitVec.getLsbD_ofNat]
    simp [hhigh, hword, hbit, hj]
  rw [numSubnodes, hbyte, BitVec.toNat_ofNat, Nat.mod_eq_of_lt (by omega)]

-- ---------------------------------------------------------------------------
-- Subtrees in the array
-- ---------------------------------------------------------------------------

namespace Subtree

/-- The places from the node on hold the subtree, where the node itself holds the number of its nodes. -/
def Stored (m : ℕ → RlNode) : Subtree → ℕ → Prop
  | leaf bits, idx => m idx = bits
  | inode q, idx =>
    numSubnodes (m idx) = min 255 (count (inode q)) ∧
      (∀ i, quadrantStatus (m idx) (quadrantNum i) = (q i).status) ∧
      ∀ i, Stored m (q i) (idx + 1 + before q i)
  | _, _ => True

/-- The same where the number of its nodes is left open, as it is for the root. -/
def Core (m : ℕ → RlNode) : Subtree → ℕ → Prop
  | leaf bits, idx => m idx = bits
  | inode q, idx =>
    (∀ i, quadrantStatus (m idx) (quadrantNum i) = (q i).status) ∧
      ∀ i, Stored m (q i) (idx + 1 + before q i)
  | _, _ => True

variable {m m' : ℕ → RlNode} {s : Subtree} {q : Fin 4 → Subtree} {idx idx' : ℕ}

theorem Stored.core (h : Stored m s idx) : Core m s idx := by
  cases s with
  | leaf bits => exact h
  | inode q => exact h.2
  | _ => trivial

theorem count_lt (q : Fin 4 → Subtree) (i : Fin 4) : 1 + before q i + count (q i) ≤ count (inode q) := by
  have h := count_inode q i
  omega

/-- A subtree depends on its own places. -/
theorem Stored.transport (h : Stored m s idx) (heq : ∀ x < count s, m' (idx' + x) = m (idx + x)) :
    Stored m' s idx' := by
  induction s generalizing idx idx' with
  | leaf bits =>
    have hself := heq 0 Nat.one_pos
    rw [Nat.add_zero, Nat.add_zero] at hself
    exact hself.trans h
  | inode q ih =>
    have hself := heq 0 (by rw [count]; omega)
    rw [Nat.add_zero, Nat.add_zero] at hself
    refine ⟨hself ▸ h.1, fun i => hself ▸ h.2.1 i, fun i => ih i (h.2.2 i) fun x hx => ?_⟩
    have hlt := count_lt q i
    have hplace := heq (1 + before q i + x) (by omega)
    rwa [← Nat.add_assoc, ← Nat.add_assoc, ← Nat.add_assoc, ← Nat.add_assoc] at hplace
  | _ => trivial

-- ---------------------------------------------------------------------------
-- Sizes
-- ---------------------------------------------------------------------------

/-- The nodes of the first quadrants. -/
def upTo (q : Fin 4 → Subtree) (n : ℕ) : ℕ := ∑ j : Fin 4, if j.val < n then count (q j) else 0

theorem upTo_zero (q : Fin 4 → Subtree) : upTo q 0 = 0 := by simp [upTo]

theorem upTo_succ (q : Fin 4 → Subtree) (i : Fin 4) : upTo q (i.val + 1) = upTo q i.val + count (q i) := by
  fin_cases i <;> simp [upTo, Fin.sum_univ_four]

theorem before_eq (q : Fin 4 → Subtree) (i : Fin 4) : before q i = upTo q i.val := rfl

theorem upTo_four (q : Fin 4 → Subtree) : count (inode q) = 1 + upTo q 4 := by
  simp [count, upTo, Fin.sum_univ_four]

theorem upTo_le (q : Fin 4 → Subtree) (i : Fin 4) : 1 + upTo q i.val + count (q i) ≤ count (inode q) := count_lt q i

/-- A loop over the first quadrants, by what each of them does. -/
theorem foldl_quadrants {σ : Type*} (f : σ → ℤ → σ) (inv : ℕ → σ → Prop)
    (hstep : ∀ (i : Fin 4) c, inv i.val c → inv (i.val + 1) (f c (quadrantNum i))) {c : σ} (h : inv 0 c) {n : ℕ}
    (hn : n ≤ 4) : inv n ((([1, 2, 3, 4] : List ℤ).take n).foldl f c) := by
  have h1 := hstep 0 _ h
  have h2 := hstep 1 _ h1
  have h3 := hstep 2 _ h2
  have h4 := hstep 3 _ h3
  interval_cases n
  · exact h
  · exact h1
  · exact h2
  · exact h3
  · exact h4

variable {max k b : ℕ} {tree : RlTree}

/-- A full tree has less than a third of the leaves of the next level. -/
theorem count_bound (h : Wf max s k b) : 3 * count s + 1 ≤ 4 ^ (k + 1) := by
  induction s generalizing k b with
  | leaf bits =>
    obtain ⟨rfl, -⟩ := h
    rfl
  | inode q ih =>
    obtain ⟨⟨j, rfl⟩, -, hq⟩ := h
    have h0 := ih 0 (hq 0)
    have h1 := ih 1 (hq 1)
    have h2 := ih 2 (hq 2)
    have h3 := ih 3 (hq 3)
    rw [Nat.add_sub_cancel] at h0 h1 h2 h3
    rw [count, Fin.sum_univ_four, pow_succ]
    omega
  | _ =>
    rw [count]
    exact Nat.one_le_pow _ _ (by norm_num)

theorem nextInterval_width (k : ℕ) : nextInterval (width (k + 1)) = width k := by
  have hpos := width_pos k
  unfold nextInterval leafSize branchFactor
  rw [width_succ]
  split_ifs with h
  · cases k with
    | zero => rfl
    | succ k =>
      rw [width_succ] at h
      have hk : 16 ≤ width k := Nat.le_mul_of_pos_right 16 (by positivity)
      omega
  · omega

theorem width_le_leafSize (k : ℕ) : width k ≤ leafSize ↔ k = 0 := by
  constructor
  · intro h
    cases k with
    | zero => rfl
    | succ k =>
      rw [width_succ] at h
      have hk : 16 ≤ width k := Nat.le_mul_of_pos_right 16 (by positivity)
      unfold leafSize at h
      omega
  · rintro rfl
    exact le_rfl

theorem count_of_status (h : s.status ≠ .partially) : count s = 0 := by
  cases s with
  | leaf bits => exact absurd rfl h
  | inode q => exact absurd rfl h
  | _ => rfl

/-- The size of a subtree, also with the interval of a quadrant where the count of its node is not exact. -/
theorem treeSize_spec {j : ℕ} (hs : Stored tree.root s idx) (hwf : Wf max s k b) (hp : s.status = .partially)
    (hsmall : count s < 2 ^ 32) (hj : j = k ∨ j + 1 = k ∧ 2 ≤ j) : treeSize tree idx (width j) = count s := by
  induction s generalizing idx k b j with
  | leaf bits =>
    obtain rfl : j = 0 := by
      obtain ⟨rfl, -⟩ := hwf
      omega
    rw [treeSize, dif_pos ((width_le_leafSize 0).mpr rfl), count]
  | inode q ih =>
    obtain ⟨⟨k, rfl⟩, -, hq⟩ := id hwf
    obtain ⟨j, rfl⟩ : ∃ i, j = i + 1 := ⟨j - 1, by omega⟩
    have hnum := hs.1
    rw [treeSize, dif_neg (by rw [width_le_leafSize]; omega)]
    split_ifs with h255
    · -- the count is not exact, so the subtree has four levels
      have hbound := count_bound hwf
      have hlevel : 4 ≤ k + 1 := by
        by_contra hlt
        have hpow : 4 ^ (k + 1 + 1) ≤ 4 ^ 4 := Nat.pow_le_pow_right (by norm_num) (by omega)
        omega
      rw [nextInterval_width, upTo_four]
      refine foldl_quadrants _ (fun n c => c = 1 + upTo q n) ?_ (by rw [upTo_zero]) le_rfl (c := 1)
      · rintro i c rfl
        have hle := upTo_le q i
        simp only [hs.2.1 i, upTo_succ]
        split_ifs with hpart
        · have hchild : treeSize tree (idx + 1 + upTo q i.val) (width j) = count (q i) :=
            ih i (hs.2.2 i) (hq i) hpart (by omega) (by omega)
          rw [← Nat.add_assoc, hchild]
          omega
        · rw [count_of_status hpart]
          omega
    · omega
  | _ => cases hp

-- ---------------------------------------------------------------------------
-- Places
-- ---------------------------------------------------------------------------

theorem takeWhile_ne (i : Fin 4) : ([1, 2, 3, 4] : List ℤ).takeWhile (· ≠ quadrantNum i) = [1, 2, 3, 4].take i.val := by
  fin_cases i <;> rfl

theorem takeWhile_lt (i : Fin 4) : ([1, 2, 3, 4] : List ℤ).takeWhile (· < quadrantNum i) = [1, 2, 3, 4].take i.val := by
  fin_cases i <;> rfl

theorem num_natCast {n : ℕ} (h : n < 2 ^ 64) : num (n : ℤ) = n := by
  unfold num
  omega

theorem bmod_natCast {n : ℕ} (h : n < 2 ^ 31) : Int.bmod (n : ℤ) (2 ^ 32) = n :=
  Int.bmod_eq_of_le (by omega) (by omega)

theorem count_leaf (h : Wf max s 0 b) (hp : s.status = .partially) : count s = 1 := by
  cases s with
  | leaf bits => rfl
  | inode q =>
    obtain ⟨⟨j, hj⟩, -⟩ := h
    cases hj
  | _ => cases hp

/-- The subtree of a quadrant starts behind those of the quadrants in front of it. -/
theorem getQuadrantNode_spec (h : Core tree.root (inode q) idx) (hwf : Wf max (inode q) (k + 1) b)
    (hinterval : quadrantInterval tree (width (k + 1)) = width k) (hsmall : count (inode q) < 2 ^ 31)
    (hidx : idx + count (inode q) < 2 ^ 64) (i : Fin 4) :
    getQuadrantNode tree idx (quadrantNum i) (width (k + 1)) = idx + 1 + before q i := by
  have hlast := upTo_le q i
  have hi4 : i.val ≤ 4 := i.isLt.le
  suffices hloc : getLocation tree idx (quadrantNum i) (width (k + 1)) = (1 + upTo q i.val : ℕ) by
    rw [getQuadrantNode, hloc, before_eq, ← Nat.cast_add, num_natCast (by omega), Nat.add_assoc]
  have hleaf : ¬ width (k + 1) ≤ leafSize := by rw [width_le_leafSize]; omega
  unfold getLocation
  split_ifs with hone hlevel
  · obtain rfl : i = 0 := by
      have hi := hone.resolve_right hleaf
      unfold quadrantNum at hi
      exact Fin.ext (by simpa using hi)
    simp [upTo_zero]
  · -- the subtrees are leaves
    obtain rfl : k = 0 := by
      by_contra hk
      obtain ⟨j, rfl⟩ := Nat.exists_eq_succ_of_ne_zero hk
      have hj : 16 ≤ width j := Nat.le_mul_of_pos_right 16 (by positivity)
      rw [width_succ, width_succ] at hlevel
      unfold leafSize branchFactor at hlevel
      omega
    rw [takeWhile_lt]
    refine foldl_quadrants _ (fun n (c : ℤ) => c = (1 + upTo q n : ℕ)) ?_ (by rw [upTo_zero]; rfl) hi4
    rintro j c rfl
    simp only [h.1 j, upTo_succ]
    split_ifs with hpart
    · rw [count_leaf (hwf.2.2 j) hpart]
      push_cast
      ring
    · rw [count_of_status hpart, Nat.add_zero]
  · rw [takeWhile_ne]
    simp only [hinterval]
    refine (foldl_quadrants _ (fun n (s : ℤ × ℕ) => s.1 = (1 + upTo q n : ℕ) ∧ s.2 = idx + 1 + upTo q n) ?_
      (by rw [upTo_zero]; exact ⟨rfl, rfl⟩) hi4).1
    rintro j ⟨c, next⟩ ⟨hc, hnext⟩
    have hle := upTo_le q j
    simp only at hc hnext
    subst hc hnext
    simp only [h.1 j, upTo_succ]
    split_ifs with hpart
    · have hsize : treeSize tree (idx + 1 + upTo q j.val) (width k) = count (q j) :=
        treeSize_spec (h.2 j) (hwf.2.2 j) hpart (by omega) (.inl rfl)
      rw [hsize, bmod_natCast (by omega), ← Nat.cast_add, ← Nat.cast_add, bmod_natCast (by omega), num_natCast (by omega)]
      exact ⟨by push_cast; ring, by ring⟩
    · rw [count_of_status hpart, Nat.add_zero]
      exact ⟨rfl, rfl⟩

end Subtree

open Subtree

-- ---------------------------------------------------------------------------
-- Quadrants
-- ---------------------------------------------------------------------------

/-- The maximum and the number of levels of a tree. -/
structure InRange (tree : RlTree) (max levels : ℕ) : Prop where
  max_eq : tree.rangeMax = max
  root_eq : tree.rootI = width levels
  le : max ≤ width (levels + 1)
  lt : levels = 0 ∨ width levels < max
  bound : width (levels + 1) ≤ 2 ^ 62

theorem width_mono {j k : ℕ} (h : j ≤ k) : width j ≤ width k :=
  Nat.mul_le_mul_left 16 (Nat.pow_le_pow_right (by norm_num) h)

variable {tree : RlTree} {max levels k b off idx : ℕ} {st : Status} {s : Subtree} {q : Fin 4 → Subtree}

theorem InRange.of_eq {tree' : RlTree} (h : InRange tree max levels) (hmax : tree'.rangeMax = tree.rangeMax)
    (hroot : tree'.rootI = tree.rootI) : InRange tree' max levels :=
  ⟨hmax.trans h.max_eq, hroot.trans h.root_eq, h.le, h.lt, h.bound⟩

theorem InRange.interval (h : InRange tree max levels) (hk : k ≤ levels) :
    quadrantInterval tree (width (k + 1)) = width k := by
  unfold quadrantInterval
  rw [h.max_eq, h.root_eq, nextInterval_width]
  split_ifs with hle
  · -- only the root has an interval that reaches the maximum
    obtain rfl | hlt : k = levels ∨ k + 1 ≤ levels := by omega
    · rfl
    · have hmono := width_mono hlt
      have hlevels := h.lt
      omega
  · rfl

theorem InRange.width_le (h : InRange tree max levels) (hk : k ≤ levels) : width k * 4 ≤ 2 ^ 62 := by
  rw [← width_succ]
  exact le_trans (width_mono (by omega)) h.bound

theorem int16_quadrantNum (i : Fin 4) : Int.bmod ((i.val : ℤ) + 1) (2 ^ 16) = quadrantNum i := by
  have hlt := i.isLt
  unfold quadrantNum
  rw [Int.bmod_eq_of_le (by omega) (by omega)]

theorem numberQuadrant_spec (h : InRange tree max levels) (hk : k ≤ levels) (hb : 1 ≤ b) (hoff : off < width (k + 1))
    (hle : b + off ≤ max) :
    numberQuadrant tree (b + off) (width (k + 1)) b =
      (quadrantNum (quadOf k off), b + width k * (quadOf k off).val, b + width k * ((quadOf k off).val + 1) - 1) := by
  have hval := quadOf_val hoff
  have hlt := (quadOf k off).isLt
  have hbound := h.width_le hk
  have hmax := le_trans h.le h.bound
  have hsub : num ((b + off : ℕ) - (b : ℕ)) = off := by
    rw [Nat.cast_add, add_sub_cancel_left]
    exact num_natCast (by omega)
  unfold numberQuadrant
  rw [h.interval hk, hsub]
  simp only [← hval]
  generalize (quadOf k off) = i at hlt ⊢
  have hprod : width k * (i.val + 1) ≤ width k * 4 := Nat.mul_le_mul_left _ (by omega)
  have hsplit : width k * (i.val + 1) = width k * i.val + width k := by ring
  have hmaxq : num ((b : ℤ) - 1 + width k * (i.val + 1)) = b + width k * (i.val + 1) - 1 := by
    have hcast : ((b : ℤ) - 1 + width k * (i.val + 1)) = ((b + width k * (i.val + 1) - 1 : ℕ) : ℤ) := by
      rw [Nat.cast_sub (by omega)]
      push_cast
      ring
    rw [hcast, num_natCast (by omega)]
  have hminq : num (((b + width k * (i.val + 1) - 1 : ℕ) : ℤ) - width k + 1) = b + width k * i.val := by
    have hcast : ((b + width k * (i.val + 1) - 1 : ℕ) : ℤ) - width k + 1 = ((b + width k * i.val : ℕ) : ℤ) := by
      rw [Nat.cast_sub (by omega)]
      push_cast
      ring
    rw [hcast, num_natCast (by omega)]
  have hi : Int.bmod ((i.val + 1 : ℕ) : ℤ) (2 ^ 32) = i.val + 1 := by
    rw [bmod_natCast (by omega)]
    push_cast
    rfl
  simp only [hi, hmaxq, int16_quadrantNum, hminq]

-- ---------------------------------------------------------------------------
-- Lookups
-- ---------------------------------------------------------------------------

/-- A lookup below a node finds the members of its subtree. -/
theorem inTree_spec (h : InRange tree max levels) (hk : k ≤ levels + 1) (hcore : Core tree.root s idx)
    (hp : s.status = .partially) (hwf : Wf max s k b) (hb : 1 ≤ b) (hoff : off < width k) (hle : b + off ≤ max)
    (hsmall : count s < 2 ^ 31) (hidx : idx + count s < 2 ^ 64) :
    inTree (b + off) tree idx b (width k) = mem k s off := by
  induction k generalizing s idx b off with
  | zero =>
    cases s with
    | leaf bits =>
      rw [inTree, dif_pos ((width_le_leafSize 0).mpr rfl), Nat.add_sub_cancel_left]
      rw [show tree.root idx = bits from hcore]
      rfl
    | inode q =>
      obtain ⟨⟨j, hj⟩, -⟩ := hwf
      cases hj
    | _ => cases hp
  | succ k ih =>
    cases s with
    | leaf bits => cases hwf.1
    | inode q =>
      have hquad := offset_split hoff
      rw [inTree, dif_neg (by rw [width_le_leafSize]; omega), numberQuadrant_spec h (by omega) hb hoff hle]
      simp only
      rw [hcore.1, h.interval (by omega), mem_inode,
        getQuadrantNode_spec hcore hwf (h.interval (by omega)) hsmall hidx]
      have hlast := count_lt q (quadOf k off)
      by_cases hpart : (q (quadOf k off)).status = .partially
      · rw [if_pos hpart]
        have hnum : b + off = b + width k * (quadOf k off).val + off % width k := by omega
        rw [hnum]
        exact ih (by omega) (hcore.2 _).core hpart (hwf.2.2 _) (by omega) (quad_lt_width k off) (by omega) (by omega)
          (by omega)
      · rw [if_neg hpart]
        generalize q (quadOf k off) = s' at hpart
        cases s' with
        | leaf bits => exact absurd rfl hpart
        | inode q => exact absurd rfl hpart
        | _ => rfl
    | _ => cases hp

end Rltree

end Yap
