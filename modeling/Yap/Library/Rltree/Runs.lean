-- SUMMARY: Range lists over runs: they hold the numbers last set, where no node is lost and the asked number is in range.
import Yap.Library.Rltree.Insert

/-!
# Runs of a range list

The numbers of a run of settings are those that were last set in. The array
agrees with them as long as no insertion has exactly one node behind its place.
-/

namespace Yap

namespace Rltree

open Subtree

-- ---------------------------------------------------------------------------
-- Operations
-- ---------------------------------------------------------------------------

inductive Op where
  | setInRl (number : ℕ) (status : Status)
  | rlAll (status : Status)

def Op.run (tree : RlTree) : Op → RlTree
  | setInRl number status => Rltree.setInRl tree number status
  | rlAll status => Rltree.rlAll tree status

def Op.concerns (number : ℕ) : Op → Bool
  | setInRl n _ => n = number
  | rlAll _ => true

def Op.status : Op → Status
  | setInRl _ status => status
  | rlAll status => status

/-- The last operation that concerns the number sets it in. -/
def LastIn (ops : List Op) (number : ℕ) : Prop :=
  (ops.reverse.find? (Op.concerns number)).map Op.status = some .isIn

-- ---------------------------------------------------------------------------
-- Insertions that lose no node
-- ---------------------------------------------------------------------------

/-- The place and the interval of the first node that setting a number adds. -/
def splitPlace (number node nodeNum nodeInterval : ℕ) (tree : RlTree) (status : Status) : Option (ℕ × ℕ) :=
  if _ : nodeInterval ≤ leafSize then none
  else
    let quad := numberQuadrant tree number nodeInterval nodeNum
    let next := getQuadrantNode tree node quad.1 nodeInterval
    if quadrantStatus (tree.root node) quad.1 = status.splits then some (next, quadrantInterval tree nodeInterval)
    else if quadrantStatus (tree.root node) quad.1 = .partially then
      splitPlace number next quad.2.1 (quadrantInterval tree nodeInterval) tree status
    else none
termination_by nodeInterval
decreasing_by exact quadrantInterval_lt tree ‹_›

/-- The nodes from a new node down to its leaf. -/
def newNodes (interval : ℕ) : ℕ :=
  if h : interval ≤ leafSize then 1 else newNodes (nextInterval interval) + 1
termination_by interval
decreasing_by exact nextInterval_lt h

/-- No insertion has exactly one node behind its place, and a place of the array is an `int`. -/
def Op.LosesNone (tree : RlTree) : Op → Prop
  | setInRl number status => 0 < number → number ≤ tree.rangeMax → ∀ place interval,
      splitPlace number 0 1 tree.rootInterval tree status = some (place, interval) →
        place + 1 ≠ tree.size ∧ tree.size + newNodes interval < 2 ^ 31
  | rlAll _ => True

/-- Each step of a run loses no node. -/
def LosesNone (tree : RlTree) : List Op → Prop
  | [] => True
  | op :: ops => op.LosesNone tree ∧ LosesNone (op.run tree) ops

variable {tree tree' : RlTree} {max levels k b off idx : ℕ} {st : Status} {s : Subtree} {q : Fin 4 → Subtree}

theorem newNodes_width (k : ℕ) : newNodes (width k) = k + 1 := by
  induction k with
  | zero => rw [newNodes, dif_pos ((width_le_leafSize 0).mpr rfl)]
  | succ k ih => rw [newNodes, dif_neg (by rw [width_le_leafSize]; omega), nextInterval_width, ih]

theorem splitPlace_spec (st : Status) (hr : InRange tree max levels) (hk : k ≤ levels + 1) (hcore : Core tree.root s idx)
    (hp : s.status = .partially) (hwf : Wf max s k b) (hb : 1 ≤ b) (hoff : off < width k) (hle : b + off ≤ max)
    (hsmall : count s < 2 ^ 31) (hidx : idx + count s < 2 ^ 64) :
    splitPlace (b + off) idx b (width k) tree st =
      (behind st k s off).map fun a => (idx + count s - a.1, width a.2) := by
  induction k generalizing s idx b off with
  | zero =>
    rw [splitPlace, dif_pos ((width_le_leafSize 0).mpr rfl)]
    cases s with
    | leaf bits => rfl
    | inode q =>
      obtain ⟨⟨j, hj⟩, -⟩ := hwf
      cases hj
    | _ => cases hp
  | succ k ih =>
    cases s with
    | leaf bits => cases hwf.1
    | inode q =>
      have hquad := offset_split hoff
      have hsum := count_inode q (quadOf k off)
      have hstatus := hcore.1 (quadOf k off)
      rw [splitPlace, dif_neg (by rw [width_le_leafSize]; omega), numberQuadrant_spec hr (by omega) hb hoff hle]
      simp only
      rw [hstatus, hr.interval (by omega), getQuadrantNode_spec hcore hwf (hr.interval (by omega)) hsmall hidx,
        behind_inode]
      have hskip : q (quadOf k off) ≠ skip := (hwf.2.2 (quadOf k off)).ne_skip (by rw [Nat.add_sub_cancel]; omega)
      have hchild : (q (quadOf k off)).status = .partially →
          splitPlace (b + off) (idx + 1 + before q (quadOf k off)) (b + width k * (quadOf k off).val) (width k) tree st =
            (behind st k (q (quadOf k off)) (off % width k)).map
              fun a => (idx + 1 + before q (quadOf k off) + count (q (quadOf k off)) - a.1, width a.2) := by
        intro hpart
        rw [show b + off = b + width k * (quadOf k off).val + off % width k by omega]
        exact ih (by omega) (hcore.2 _).core hpart (hwf.2.2 _) (by omega) (quad_lt_width k off) (by omega) (by omega)
          (by omega)
      have hsub : ∀ a, idx + 1 + before q (quadOf k off) + count (q (quadOf k off)) - a =
          idx + count (inode q) - (a + after q (quadOf k off)) := by omega
      rcases quadrant_cases st hskip with hblank | hfull | hpart
      · rw [if_pos (status_eq_splits.mpr hblank), hblank, behind_blank]
        have hplace := hsub 0
        rw [hblank, count_blank] at hplace
        exact congrArg (fun p => some (p, width k)) hplace
      · rw [hfull, behind_full]
        cases st <;> rfl
      · have hpart : (q (quadOf k off)).status = .partially := by
          rcases hpart with ⟨bits, h⟩ | ⟨q', h⟩ <;> rw [h] <;> rfl
        have hsplits : ¬ (q (quadOf k off)).status = st.splits := by
          rw [hpart]
          cases st <;> decide
        rw [if_neg hsplits, if_pos hpart, hchild hpart, Option.map_map]
        refine congrArg (fun f => Option.map f _) (funext fun a => ?_)
        exact congrArg (fun p => (p, width a.2)) (hsub a.1)
    | _ => cases hp

-- ---------------------------------------------------------------------------
-- States of a run
-- ---------------------------------------------------------------------------

/-- The array holds a tree of quadrants with these numbers. -/
structure Rep (tree : RlTree) (max levels : ℕ) (q : Fin 4 → Subtree) : Prop where
  range : InRange tree max levels
  alloc : tree.memAlloc ≠ 0
  core : Core tree.root (inode q) 0
  wf : Wf max (inode q) (levels + 1) 1
  size : tree.size = count (inode q)
  small : tree.size < 2 ^ 31

/-- The numbers in the tree of quadrants. -/
def Holds (levels : ℕ) (q : Fin 4 → Subtree) (number : ℕ) : Bool := mem (levels + 1) (inode q) (number - 1)

theorem InRange.rootInterval (h : InRange tree max levels) : tree.rootInterval = width (levels + 1) := by
  rw [RlTree.rootInterval, h.root_eq, width_succ]
  rfl

theorem Rep.setInRl (h : Rep tree max levels q) {number : ℕ} (hlo : 0 < number) (hhi : number ≤ max)
    (hkeep : (Op.setInRl number st).LosesNone tree) :
    ∃ q', Rep (Rltree.setInRl tree number st) max levels q' ∧ ∀ n, 0 < n → n ≤ max →
      Holds levels q' n = if n = number then decide (st = .isIn) else Holds levels q n := by
  obtain ⟨off, rfl⟩ : ∃ off, number = 1 + off := ⟨number - 1, by omega⟩
  have hmax := h.range.le
  have hsize := h.size
  have hsmall := h.small
  have hone : 1 ≤ count (inode q) := by
    rw [count]
    omega
  have hoff : off < width (levels + 1) := by omega
  have hplace := splitPlace_spec st h.range le_rfl h.core rfl h.wf le_rfl hoff hhi (by omega) (by omega)
  have hkeeps : Keeps tree st (levels + 1) (inode q) off 0 := by
    intro a l hal
    rw [hal, ← h.range.rootInterval] at hplace
    have hstep := hkeep hlo (by rw [h.range.max_eq]; exact hhi) _ _ hplace
    rw [newNodes_width] at hstep
    omega
  have hset := setIn_spec h.range le_rfl h.alloc h.core rfl h.wf le_rfl hoff hhi (by omega) hsmall hkeeps
  have hspec := set_setSub st h.wf hhi hoff
  have htree : Rltree.setInRl tree (1 + off) st = (setIn (1 + off) 0 1 (width (levels + 1)) tree st).1 := by
    unfold Rltree.setInRl
    rw [if_pos ⟨hlo, by rw [h.range.max_eq]; exact hhi⟩, h.range.rootInterval]
  rw [htree]
  rw [setSub_inode] at hset hspec
  obtain ⟨c, hafter⟩ := hset.after
  refine ⟨_, ⟨h.range.of_eq hafter.rangeMax hafter.rootI, hafter.alloc, hafter.core, hspec.wf, ?_, hset.small⟩,
    fun n hlo' hhi' => ?_⟩
  · rw [hafter.size, hafter.count, hsize]
  · rw [Holds, hspec.mem _ (by omega) (by omega), Holds]
    have hiff : n - 1 = off ↔ n = 1 + off := by omega
    simp only [hiff]

/-- The quadrants of the root after `rl_all`. -/
def allQuadrants (q : Fin 4 → Subtree) (st : Status) (i : Fin 4) : Subtree :=
  if (q i).status = .ignore then skip else full st

theorem allQuadrants_count (q : Fin 4 → Subtree) (st : Status) (i : Fin 4) : count (allQuadrants q st i) = 0 := by
  unfold allQuadrants
  split_ifs
  · rfl
  · exact count_full

theorem allQuadrants_status (q : Fin 4 → Subtree) (st : Status) (i : Fin 4) :
    (allQuadrants q st i).status = if (q i).status = .ignore then .ignore else st.full := by
  unfold allQuadrants
  split_ifs
  · rfl
  · cases st <;> rfl

theorem status_eq_ignore : s.status = .ignore ↔ s = skip := by
  cases s <;> simp [status]

theorem rlAll_root (tree : RlTree) (st : Status) : (Rltree.rlAll tree st).root 0 =
    setQuadrants (fun _ t => t ≠ .ignore) st.full [0, 1, 2, 3] (tree.root 0) := by
  unfold Rltree.rlAll
  simp only [RlTree.setNode_self]
  rfl

theorem Rep.rlAll (h : Rep tree max levels q) (st : Status) :
    ∃ q', Rep (Rltree.rlAll tree st) max levels q' ∧ ∀ n, 0 < n → n ≤ max →
      Holds levels q' n = decide (st = .isIn) := by
  have hsize : 1 = count (inode (allQuadrants q st)) := by simp [count, allQuadrants_count]
  have hsmall : (Rltree.rlAll tree st).size < 2 ^ 31 := by
    show 1 < 2 ^ 31
    norm_num
  refine ⟨allQuadrants q st, ⟨h.range.of_eq rfl rfl, h.alloc, ⟨fun i => ?_, fun i => ?_⟩,
    ⟨⟨levels, rfl⟩, h.wf.2.1, fun i => ?_⟩, hsize, hsmall⟩, fun n hlo hhi => ?_⟩
  · have hmem : i ∈ ([0, 1, 2, 3] : List (Fin 4)) := by fin_cases i <;> decide
    rw [rlAll_root, quadrantStatus_setQuadrants _ _ (by decide), h.core.1, allQuadrants_status]
    by_cases hskip : (q i).status = .ignore
    · rw [if_neg fun h => h.2 hskip, if_pos hskip, hskip]
    · rw [if_pos ⟨hmem, hskip⟩, if_neg hskip]
  · unfold allQuadrants
    split_ifs
    · trivial
    · cases st <;> trivial
  · have hwf := h.wf.2.2 i
    unfold allQuadrants
    split_ifs with hskip
    · rwa [status_eq_ignore.mp hskip] at hwf
    · have hle := hwf.le fun hq => hskip (status_eq_ignore.mpr hq)
      cases st <;> exact hle
  · have hmax := h.range.le
    have hoff : n - 1 < width (levels + 1) := by omega
    have hquad := offset_split hoff
    have hskip := (h.wf.2.2 (quadOf levels (n - 1))).ne_skip (by rw [Nat.add_sub_cancel]; omega)
    rw [Holds, mem_inode, allQuadrants, if_neg fun hignore => hskip (status_eq_ignore.mp hignore), mem_full]

-- ---------------------------------------------------------------------------
-- New range lists
-- ---------------------------------------------------------------------------

theorem width_max : width 29 = 2 ^ 62 := by norm_num [width]

theorem width_lt {j k : ℕ} (h : j < k) : width j < width k :=
  Nat.mul_lt_mul_of_pos_left (Nat.pow_lt_pow_right (by norm_num) h) (by norm_num)

theorem lt_of_width_lt {j k : ℕ} (h : width j < width k) : j < k := by
  by_contra hle
  exact absurd h (not_lt.mpr (width_mono (not_lt.mp hle)))

/-- The loop finds the first level whose next one reaches the maximum. -/
theorem normLoop_spec {interval n i : ℕ} (hlt : width i < interval) (hle : interval ≤ 2 ^ 62) (hn : 29 ≤ i + n) :
    ∃ l, normLoop interval n (4 ^ i) = some (width l) ∧ interval ≤ width (l + 1) ∧ width l < interval := by
  have hmax := width_max
  have hi29 : i < 29 := lt_of_width_lt (by omega)
  induction n generalizing i with
  | zero => omega
  | succ n ih =>
    have hbound : width i < 2 ^ 62 := by omega
    have hpow : width i = 16 * 4 ^ i := rfl
    have htmp : num ((leafSize : ℤ) * (4 ^ i : ℕ)) = width i := by
      rw [← Nat.cast_mul]
      exact num_natCast (by unfold leafSize; omega)
    have hnext : num ((width i : ℤ) * branchFactor) = width (i + 1) := by
      rw [← Nat.cast_mul, width_succ]
      exact num_natCast (by unfold branchFactor; omega)
    have hj : num (((4 ^ i : ℕ) : ℤ) * branchFactor) = 4 ^ (i + 1) := by
      rw [← Nat.cast_mul, pow_succ]
      exact num_natCast (by unfold branchFactor; omega)
    rw [normLoop, htmp, hnext, hj]
    split_ifs with hfound
    · exact ⟨i, rfl, hfound, hlt⟩
    · have hlt' := not_le.mp hfound
      exact ih hlt' (by omega) (lt_of_width_lt (by omega))

theorem rootIntervals_spec (h2 : 2 ≤ max) (hle : max ≤ 2 ^ 62) :
    ∃ l, rootIntervals 28 max = some (width l) ∧ max ≤ width (l + 1) ∧ (l = 0 ∨ width l < max) ∧
      width (l + 1) ≤ 2 ^ 62 := by
  have hone : width 1 = 64 := rfl
  have hmax := width_max
  obtain ⟨l, hl, hreach, hlt⟩ : ∃ l, normTreeSize 28 max = some (width l) ∧ max ≤ width (l + 1) ∧
      (l = 0 ∨ width l < max) := by
    unfold normTreeSize
    split_ifs with hsmall
    · exact ⟨0, rfl, hsmall, .inl rfl⟩
    · obtain ⟨l, hl, hreach, hlt⟩ := normLoop_spec (i := 1) (n := 28) (not_le.mp hsmall) hle le_rfl
      exact ⟨l, hl, hreach, .inr hlt⟩
  have hbound : width (l + 1) ≤ 2 ^ 62 := by
    rw [← hmax]
    refine width_mono ?_
    rcases hlt with rfl | hlt
    · norm_num
    · exact lt_of_width_lt (by omega)
  have hnext : num ((width l * branchFactor : ℕ) : ℤ) = width (l + 1) := by
    rw [width_succ] at hbound ⊢
    exact num_natCast (by unfold branchFactor; omega)
  refine ⟨l, ?_, hreach, hlt, hbound⟩
  rw [rootIntervals, hl, Option.map_some, hnext, if_neg (not_lt.mpr hreach)]

/-- The quadrants of the root of a new range list. -/
def newQuadrants (max levels : ℕ) (i : Fin 4) : Subtree := if max < 1 + width levels * i.val then skip else out

theorem newQuadrants_count (max levels : ℕ) (i : Fin 4) : count (newQuadrants max levels i) = 0 := by
  unfold newQuadrants
  split_ifs <;> rfl

theorem newTree_root (heap : ℕ → RlNode) (rangeMax rootI : ℕ) (h : rootI = leafSize ∨ rootI < rangeMax) :
    (newTree heap rangeMax rootI h).root 0 =
      setQuadrants (fun z _ => (rangeMax : ℤ) < rootI * (z - 1) + 1) .ignore [1, 2, 3] (setNumSubnodes 0 1) := by
  unfold newTree
  simp only [Function.update_self]
  rfl

theorem newTree_rep (heap : ℕ → RlNode) {l : ℕ} (h2 : 2 ≤ max) (hreach : max ≤ width (l + 1))
    (hlt : l = 0 ∨ width l < max) (hbound : width (l + 1) ≤ 2 ^ 62) (h : width l = leafSize ∨ width l < max) :
    Rep (newTree heap max (width l) h) max l (newQuadrants max l) := by
  have hsize : 1 = count (inode (newQuadrants max l)) := by simp [count, newQuadrants_count]
  have halloc : nodeSize ≠ 0 := by decide
  refine ⟨⟨rfl, rfl, hreach, hlt, hbound⟩, halloc, ⟨fun i => ?_, fun i => ?_⟩,
    ⟨⟨l, rfl⟩, by omega, fun i => ?_⟩, hsize, ?_⟩
  · have hmem : i ∈ ([1, 2, 3] : List (Fin 4)) ↔ i.val ≠ 0 := by fin_cases i <;> decide
    have hstart : (max : ℤ) < width l * (quadrantNum i - 1) + 1 ↔ max < 1 + width l * i.val := by
      rw [quadrantNum, add_sub_cancel_right, add_comm]
      norm_cast
    rw [newTree_root, quadrantStatus_setQuadrants _ _ (by decide), quadrantStatus_setNumSubnodes]
    simp only [hmem, hstart]
    unfold newQuadrants
    by_cases hskip : max < 1 + width l * i.val
    · have hi : i.val ≠ 0 := by
        intro hzero
        rw [hzero] at hskip
        omega
      rw [if_pos ⟨hi, hskip⟩, if_pos hskip]
      rfl
    · rw [if_neg fun h => hskip h.2, if_neg hskip]
      fin_cases i <;> rfl
  · unfold newQuadrants
    split_ifs <;> trivial
  · unfold newQuadrants
    split_ifs with hskip
    · exact hskip
    · exact not_lt.mp hskip
  · show 1 < 2 ^ 31
    norm_num

/-- The products of the loop wrap around to zero, so that they do not reach a greater maximum. -/
theorem normLoop_none {interval : ℕ} (h : 2 ^ 62 < interval) (n i : ℕ) :
    normLoop interval n (num ((4 ^ i : ℕ) : ℤ)) = none := by
  induction n generalizing i with
  | zero => rfl
  | succ n ih =>
    have hnext : num (num ((leafSize : ℤ) * num ((4 ^ i : ℕ) : ℤ)) * branchFactor) = 4 ^ (i + 3) % 2 ^ 64 := by
      have hpow : 4 ^ (i + 3) = 4 ^ i * 64 := pow_add 4 i 3
      rw [hpow]
      simp only [num, leafSize, branchFactor]
      omega
    have hj : num ((num ((4 ^ i : ℕ) : ℤ) : ℤ) * branchFactor) = num ((4 ^ (i + 1) : ℕ) : ℤ) := by
      simp only [num, branchFactor]
      omega
    have hle : 4 ^ (i + 3) % 2 ^ 64 ≤ 2 ^ 62 := by
      rcases Nat.lt_or_ge (i + 3) 32 with hlt | hge
      · have hpow : 4 ^ (i + 3) ≤ 4 ^ 31 := Nat.pow_le_pow_right (by norm_num) (by omega)
        exact le_trans (Nat.mod_le _ _) hpow
      · have hzero : 2 ^ 64 ∣ 4 ^ (i + 3) := by
          rw [show (4 : ℕ) = 2 ^ 2 from rfl, ← pow_mul]
          exact pow_dvd_pow 2 (by omega)
        rw [Nat.mod_eq_zero_of_dvd hzero]
        exact Nat.zero_le _
    rw [normLoop, hnext, if_neg (by omega), hj]
    exact ih (i + 1)

/-- With a greater maximum the range list is not made. -/
theorem newRl_none (heap : ℕ → RlNode) (h : 2 ^ 62 < max) (n : ℕ) : newRl heap n max = none := by
  have hnone : rootIntervals n max = none := by
    have hloop := normLoop_none h n 1
    have hbig : ¬ max ≤ leafSize * branchFactor := by
      unfold leafSize branchFactor
      omega
    rw [rootIntervals, normTreeSize, if_neg hbig]
    exact congrArg _ hloop
  unfold newRl
  rw [if_neg (by omega)]
  dsimp only
  split
  · rename_i rootI hroot
    rw [hnone] at hroot
    cases hroot
  · rfl

theorem newRl_spec (heap : ℕ → RlNode) (h2 : 2 ≤ max) (hle : max ≤ 2 ^ 62) :
    ∃ tree levels, newRl heap 28 max = some tree ∧ Rep tree max levels (newQuadrants max levels) := by
  obtain ⟨l, hl, hreach, hlt, hbound⟩ := rootIntervals_spec h2 hle
  have hrange : (if max < 2 then 2 else max) = max := if_neg (not_lt.mpr h2)
  unfold newRl
  rw [hrange]
  dsimp only
  split
  · rename_i rootI hroot
    obtain rfl : width l = rootI := Option.some.inj (hl.symm.trans hroot)
    exact ⟨_, l, rfl, newTree_rep heap h2 hreach hlt hbound _⟩
  · rename_i hroot
    rw [hl] at hroot
    cases hroot

-- ---------------------------------------------------------------------------
-- Runs
-- ---------------------------------------------------------------------------

theorem lastIn_append (ops : List Op) (op : Op) (number : ℕ) :
    LastIn (ops ++ [op]) number ↔ if op.concerns number then op.status = .isIn else LastIn ops number := by
  unfold LastIn
  rw [List.reverse_append, List.reverse_singleton, List.singleton_append, List.find?_cons]
  cases op.concerns number <;> simp

theorem losesNone_append (ops : List Op) (op : Op) (tree : RlTree) :
    LosesNone tree (ops ++ [op]) ↔ LosesNone tree ops ∧ op.LosesNone (ops.foldl Op.run tree) := by
  induction ops generalizing tree with
  | nil => simp [LosesNone]
  | cons o ops ih =>
    rw [List.cons_append, LosesNone, LosesNone, ih, List.foldl_cons, and_assoc]

/-- A step keeps the tree of quadrants, where the number that it concerns has the status. -/
theorem Rep.step (h : Rep tree max levels q) (op : Op) (hkeep : op.LosesNone tree) :
    ∃ q', Rep (op.run tree) max levels q' ∧ ∀ n, 0 < n → n ≤ max →
      Holds levels q' n = if op.concerns n then decide (op.status = .isIn) else Holds levels q n := by
  cases op with
  | setInRl number st =>
    by_cases hrange : 0 < number ∧ number ≤ max
    · obtain ⟨q', hrep, hholds⟩ := h.setInRl hrange.1 hrange.2 hkeep
      refine ⟨q', hrep, fun n hlo hhi => ?_⟩
      rw [hholds n hlo hhi]
      by_cases hn : n = number
      · subst hn
        rw [if_pos rfl, if_pos (by simp [Op.concerns])]
        rfl
      · simp [Op.concerns, hn, Ne.symm hn]
    · refine ⟨q, ?_, fun n hlo hhi => ?_⟩
      · rw [Op.run, Rltree.setInRl, h.range.max_eq, if_neg hrange]
        exact h
      · have hne : number ≠ n := by
          rintro rfl
          exact hrange ⟨hlo, hhi⟩
        simp [Op.concerns, hne]
  | rlAll st =>
    obtain ⟨q', hrep, hholds⟩ := h.rlAll st
    exact ⟨q', hrep, fun n hlo hhi => hholds n hlo hhi⟩

theorem Rep.run (h : Rep tree max levels (newQuadrants max levels)) (ops : List Op) (hkeep : LosesNone tree ops) :
    ∃ q, Rep (ops.foldl Op.run tree) max levels q ∧ ∀ n, 0 < n → n ≤ max →
      (Holds levels q n = true ↔ LastIn ops n) := by
  induction ops using List.reverseRecOn with
  | nil =>
    refine ⟨_, h, fun n hlo hhi => ?_⟩
    have hnone : ¬ LastIn [] n := by simp [LastIn]
    have hmem : Holds levels (newQuadrants max levels) n = false := by
      rw [Holds, mem_inode]
      unfold newQuadrants
      split_ifs <;> rfl
    simp [hnone, hmem]
  | append_singleton ops op ih =>
    obtain ⟨hops, hop⟩ := (losesNone_append ops op tree).mp hkeep
    obtain ⟨q, hrep, hholds⟩ := ih hops
    obtain ⟨q', hrep', hholds'⟩ := hrep.step op hop
    rw [List.foldl_append, List.foldl_cons, List.foldl_nil]
    refine ⟨q', hrep', fun n hlo hhi => ?_⟩
    rw [hholds' n hlo hhi, lastIn_append]
    split_ifs
    · exact decide_eq_true_iff
    · exact hholds n hlo hhi

theorem num_neg_one : num ((0 : ℕ) - (1 : ℕ)) = 2 ^ 64 - 1 := by decide +kernel

/-- The quadrant of zero is none of the four, for a root of each size. -/
theorem quadrant_zero : ∀ l < 29,
    ¬ (1 ≤ Int.bmod (Int.bmod (((2 ^ 64 - 1) / width l + 1 : ℕ) : ℤ) (2 ^ 32)) (2 ^ 16) ∧
      Int.bmod (Int.bmod (((2 ^ 64 - 1) / width l + 1 : ℕ) : ℤ) (2 ^ 32)) (2 ^ 16) ≤ 4) := by
  decide +kernel

theorem numberQuadrant_zero (h : InRange tree max levels) (node : RlNode) :
    quadrantStatus node (numberQuadrant tree 0 (width (levels + 1)) 1).1 = .notIn := by
  have hmax := width_max
  have hbound := h.bound
  have hl : levels < 29 := by
    by_contra hge
    have hlt := width_lt (show 29 < levels + 1 by omega)
    omega
  unfold numberQuadrant
  rw [h.interval le_rfl, num_neg_one]
  simp only
  unfold quadrantStatus
  rw [if_neg (quadrant_zero levels hl)]

theorem Rep.inRl (h : Rep tree max levels q) {n : ℕ} (hle : n ≤ max) :
    Rltree.inRl tree n = true ↔ 0 < n ∧ Holds levels q n = true := by
  have hmax := h.range.max_eq
  have hreach := h.range.le
  have hsize := h.size
  have hsmall := h.small
  unfold Rltree.inRl
  rw [if_neg (by omega), h.range.rootInterval]
  cases n with
  | zero =>
    have hzero := numberQuadrant_zero h.range (tree.root 0)
    rw [inTree, dif_neg (by rw [width_le_leafSize]; omega)]
    simp only
    rw [hzero]
    simp
  | succ n =>
    rw [Nat.add_comm, inTree_spec h.range le_rfl h.core rfl h.wf le_rfl (by omega) (by omega) (by omega) (by omega), Holds,
      Nat.add_sub_cancel_left]
    exact ⟨fun hmem => ⟨by omega, hmem⟩, fun hmem => hmem.2⟩

theorem inRl_run (heap : ℕ → RlNode) {max : ℕ} (h2 : 2 ≤ max) (hle : max ≤ 2 ^ 62) :
    ∃ tree, newRl heap 28 max = some tree ∧ ∀ ops, LosesNone tree ops → ∀ n ≤ max,
      (inRl (ops.foldl Op.run tree) n = true ↔ 1 ≤ n ∧ n ≤ max ∧ LastIn ops n) := by
  obtain ⟨tree, levels, hnew, hrep⟩ := newRl_spec heap h2 hle
  refine ⟨tree, hnew, fun ops hkeep n hn => ?_⟩
  obtain ⟨q, hrun, hholds⟩ := hrep.run ops hkeep
  rw [hrun.inRl hn]
  constructor
  · rintro ⟨hlo, hmem⟩
    exact ⟨hlo, hn, (hholds n hlo hn).mp hmem⟩
  · rintro ⟨hlo, -, hlast⟩
    exact ⟨hlo, (hholds n hlo hn).mpr hlast⟩

theorem inRl_run_ten : ∃ tree, newRl (fun _ => 0) 28 10 = some tree ∧ ∀ ops, LosesNone tree ops → ∀ n ≤ 10,
    (inRl (ops.foldl Op.run tree) n = true ↔ 1 ≤ n ∧ n ≤ 10 ∧ LastIn ops n) :=
  inRl_run (fun _ => 0) (by norm_num) (by norm_num)

/-- The node of 20 has one node behind its place when the node of 5 is put in front of it, and is lost. -/
theorem not_inRl_run : ¬ ∀ (heap : ℕ → RlNode) (max : ℕ), 2 ≤ max → max < 2 ^ 64 →
    ∃ n tree, newRl heap n max = some tree ∧ ∀ ops number,
      inRl (ops.foldl Op.run tree) number = true ↔ 1 ≤ number ∧ number ≤ max ∧ LastIn ops number := by
  intro hall
  obtain ⟨n, tree, hnew, hrun⟩ := hall (fun _ => 0) 64 (by norm_num) (by norm_num)
  have htree : newRl (fun _ => 0) n 64 = some (newTree (fun _ => 0) 64 16 (.inl rfl)) := rfl
  obtain rfl := Option.some.inj (htree.symm.trans hnew)
  have hlost : inRl ([.setInRl 1 .isIn, .setInRl 17 .isIn, .rlAll .isOut, .setInRl 20 .isIn,
      .setInRl 5 .isIn].foldl Op.run (newTree (fun _ => 0) 64 16 (.inl rfl))) 20 = false := by decide +kernel
  have hlast : LastIn [.setInRl 1 .isIn, .setInRl 17 .isIn, .rlAll .isOut, .setInRl 20 .isIn, .setInRl 5 .isIn] 20 :=
    rfl
  rw [(hrun _ 20).mpr ⟨by norm_num, by norm_num, hlast⟩] at hlost
  cases hlost

/-- A number beyond the maximum is looked up as the others are. -/
example : inRl ([.rlAll .isIn].foldl Op.run (newTree (fun _ => 0) 10 16 (.inl rfl))) 11 = true := by decide +kernel

end Rltree

end Yap
