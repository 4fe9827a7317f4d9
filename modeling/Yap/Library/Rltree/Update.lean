-- SUMMARY: New nodes of range lists: they shift the array, and no node is lost where not exactly one is shifted.
import Yap.Library.Rltree.Array

/-!
# New nodes

The nodes from the place of a new node on make room for it. They do so where
they are at least two; a single one is overwritten.
-/

namespace Yap

namespace Rltree

open Subtree

-- ---------------------------------------------------------------------------
-- Shifted subtrees
-- ---------------------------------------------------------------------------

variable {tree : RlTree} {max levels k b off idx : ℕ} {st : Status} {s : Subtree} {q q' : Fin 4 → Subtree}
variable {m m' : ℕ → RlNode} {c c' : ℕ} {s' s'' : Subtree} {tree' tree'' : RlTree} {i : Fin 4}

theorem before_le (q : Fin 4 → Subtree) {i j : Fin 4} (h : i < j) : before q i + count (q i) ≤ before q j := by
  revert h
  fin_cases i <;> fin_cases j <;> simp [before, Fin.sum_univ_four]
  omega

/-- The subtree of a quadrant is changed, and what is behind it in the array is shifted. -/
theorem Core.update (h : Core m (inode q) idx)
    (hstatus : ∀ j, quadrantStatus (m' idx) (quadrantNum j) = (Function.update q i s' j).status)
    (hnew : Stored m' s' (idx + 1 + before q i)) (hcount : count s' = count (q i) + c)
    (hfront : ∀ x, idx < x → x < idx + 1 + before q i → m' x = m x)
    (hbehind : ∀ x, idx + 1 + before q i + count (q i) ≤ x → x < idx + count (inode q) → m' (x + c) = m x) :
    Core m' (inode (Function.update q i s')) idx := by
  refine ⟨hstatus, fun j => ?_⟩
  have hplace := before_update q i j s'
  have hlast := count_lt q j
  rcases lt_trichotomy j i with hlt | rfl | hlt
  · have hle := before_le q hlt
    rw [if_neg (not_lt.mpr hlt.le), if_neg (not_lt.mpr hlt.le)] at hplace
    rw [Function.update_of_ne hlt.ne]
    refine (h.2 j).transport fun x hx => ?_
    rw [show idx + 1 + before (Function.update q i s') j + x = idx + 1 + before q j + x by omega]
    exact hfront _ (by omega) (by omega)
  · rw [if_neg (lt_irrefl j), if_neg (lt_irrefl j)] at hplace
    rw [Function.update_self, show idx + 1 + before (Function.update q j s') j = idx + 1 + before q j by omega]
    exact hnew
  · have hle := before_le q hlt
    rw [if_pos hlt, if_pos hlt] at hplace
    rw [Function.update_of_ne hlt.ne']
    refine (h.2 j).transport fun x hx => ?_
    rw [show idx + 1 + before (Function.update q i s') j + x = idx + 1 + before q j + x + c by omega]
    exact hbehind _ (by omega) (by omega)

/-- A step on the subtree at a place that adds nodes to it, and shifts those behind. -/
structure After (tree : RlTree) (idx : ℕ) (s : Subtree) (c : ℕ) (s' : Subtree) (tree' : RlTree) : Prop where
  size : tree'.size = tree.size + c
  alloc : tree'.memAlloc ≠ 0
  rangeMax : tree'.rangeMax = tree.rangeMax
  rootI : tree'.rootI = tree.rootI
  count : count s' = count s + c
  core : Core tree'.root s' idx
  front : ∀ x < idx, tree'.root x = tree.root x
  behind : ∀ x, idx + Subtree.count s ≤ x → x < tree.size → tree'.root (x + c) = tree.root x

theorem After.refl (halloc : tree.memAlloc ≠ 0) (h : Core tree.root s idx) : After tree idx s 0 s tree :=
  ⟨rfl, halloc, rfl, rfl, rfl, h, fun _ _ => rfl, fun _ _ _ => rfl⟩

theorem After.trans (h : After tree idx s c s' tree') (h' : After tree' idx s' c' s'' tree'') :
    After tree idx s (c + c') s'' tree'' where
  size := by rw [h'.size, h.size, Nat.add_assoc]
  alloc := h'.alloc
  rangeMax := h'.rangeMax.trans h.rangeMax
  rootI := h'.rootI.trans h.rootI
  count := by rw [h'.count, h.count, Nat.add_assoc]
  core := h'.core
  front x hx := (h'.front x hx).trans (h.front x hx)
  behind x hx hlt := by
    have hsize := h.size
    have hcount := h.count
    rw [← Nat.add_assoc, h'.behind _ (by omega) (by omega), h.behind x hx hlt]

/-- A node takes the step on the subtree of one of its quadrants. -/
theorem After.inode (h : After tree (idx + 1 + before q i) (q i) c s' tree') (hcore : Core tree.root (inode q) idx)
    (hsize : idx + Subtree.count (inode q) ≤ tree.size) (hstatus : s'.status = (q i).status)
    (hnew : Stored tree'.root s' (idx + 1 + before q i)) :
    After tree idx (inode q) c (inode (Function.update q i s')) tree' where
  size := h.size
  alloc := h.alloc
  rangeMax := h.rangeMax
  rootI := h.rootI
  count := by
    have hupdate := count_update q i s'
    have hcount := h.count
    omega
  core := by
    refine Core.update hcore (fun j => ?_) hnew h.count (fun x _ hlt => h.front x hlt)
      fun x hle hlt => h.behind x hle (by omega)
    rw [h.front idx (by omega), hcore.1 j]
    by_cases hj : j = i
    · subst hj
      rw [Function.update_self, hstatus]
    · rw [Function.update_of_ne hj]
  front x hx := h.front x (by omega)
  behind x hx hlt := by
    have hlast := count_lt q i
    exact h.behind x (by omega) hlt

/-- The number of nodes that a node holds may be any. -/
theorem After.setNode (h : After tree idx (Subtree.inode q) c (Subtree.inode q') tree') (n : ℕ) :
    After tree idx (Subtree.inode q) c (Subtree.inode q')
      (tree'.setNode idx (setNumSubnodes (tree'.root idx) n)) where
  size := h.size
  alloc := h.alloc
  rangeMax := h.rangeMax
  rootI := h.rootI
  count := h.count
  core := by
    refine ⟨fun j => ?_, fun j => (h.core.2 j).transport fun x _ => ?_⟩
    · rw [RlTree.setNode_self, quadrantStatus_setNumSubnodes]
      exact h.core.1 j
    · exact RlTree.setNode_of_ne _ _ (by omega)
  front x hx := by
    rw [RlTree.setNode_of_ne _ _ (by omega)]
    exact h.front x hx
  behind x hx hlt := by
    have hone : 1 ≤ Subtree.count (Subtree.inode q) := by
      rw [Subtree.count]
      omega
    rw [RlTree.setNode_of_ne _ _ (by omega)]
    exact h.behind x hx hlt

-- ---------------------------------------------------------------------------
-- New nodes
-- ---------------------------------------------------------------------------

/-- The nodes from `idx` to `idx + n` move by one. -/
theorem shiftLoop_apply (idx n : ℕ) (m : ℕ → RlNode) (x : ℕ) :
    shiftLoop idx n m x = if idx < x ∧ x ≤ idx + n + 1 then m (x - 1) else m x := by
  induction n generalizing m with
  | zero =>
    rw [shiftLoop, Function.update_apply]
    split_ifs with hx hle hle
    · rw [hx, Nat.add_sub_cancel]
    · omega
    · omega
    · rfl
  | succ n ih =>
    rw [shiftLoop, ih]
    by_cases hlast : x = idx + (n + 1) + 1
    · subst hlast
      rw [if_neg (by omega), if_pos (by omega), Function.update_self, Nat.add_sub_cancel]
    · rw [Function.update_of_ne hlast]
      split_ifs with hle hle' hle'
      · rw [Function.update_of_ne (by omega)]
      · omega
      · omega
      · rfl

theorem shiftRight_apply {p n : ℕ} {times : ℤ} (htimes : times = (n : ℤ) - 1 - p) (hp : p ≤ n) (hone : p + 1 ≠ n)
    (x : ℕ) : shiftRight m p times x = if p < x ∧ x ≤ n then m (x - 1) else m x := by
  unfold shiftRight
  split_ifs with hle hx hx
  · omega
  · rfl
  · rw [shiftLoop_apply, if_pos (by omega)]
  · rw [shiftLoop_apply, if_neg (by omega)]

theorem bmod_num {z : ℤ} (hlo : -2 ^ 62 ≤ z) (hhi : z < 2 ^ 62) : Int.bmod (num z) (2 ^ 64) = z := by
  have hnum : (num z : ℤ) = z % (2 ^ 64 : ℕ) := by
    rw [num, Int.toNat_of_nonneg (Int.emod_nonneg z (by norm_num))]
    rfl
  rw [hnum, Int.emod_bmod]
  exact Int.bmod_eq_of_le (by omega) (by omega)

/-- The nodes behind a place make room, where they are none or at least two. -/
theorem makeRoom_root {p : ℕ} (halloc : tree.memAlloc ≠ 0) (hp : p ≤ tree.size) (hone : p + 1 ≠ tree.size)
    (hsmall : tree.size < 2 ^ 31) (x : ℕ) :
    (tree.makeRoom p).root x = if p < x ∧ x ≤ tree.size then tree.root (x - 1) else tree.root x := by
  have htimes : Int.bmod (num ((tree.size : ℤ) - 1 - p)) (2 ^ 64) = (tree.size : ℤ) - 1 - p :=
    bmod_num (by omega) (by omega)
  unfold RlTree.makeRoom
  rw [if_pos halloc]
  simp only [htimes]
  exact shiftRight_apply rfl hp hone x

theorem reallocMem_memAlloc (tree : RlTree) (halloc : tree.memAlloc ≠ 0) : tree.reallocMem.memAlloc ≠ 0 := by
  unfold RlTree.reallocMem nodeSize
  split_ifs
  · show (tree.size + 2) * 2 ≠ 0
    omega
  · exact halloc

theorem reallocMem_eq (tree : RlTree) : tree.reallocMem.size = tree.size ∧ tree.reallocMem.rangeMax = tree.rangeMax ∧
    tree.reallocMem.rootI = tree.rootI := by
  unfold RlTree.reallocMem
  split_ifs <;> exact ⟨rfl, rfl, rfl⟩

/-- The states of some quadrants are set, where a condition on the quadrant and its state holds. -/
def setQuadrants (P : ℤ → QuadrantStatus → Prop) [∀ z t, Decidable (P z t)] (status : QuadrantStatus)
    (quadrants : List (Fin 4)) (node : RlNode) : RlNode :=
  (quadrants.map quadrantNum).foldl
    (fun node z => if P z (quadrantStatus node z) then setQuadrant node z status else node) node

section
variable (P : ℤ → QuadrantStatus → Prop) [∀ z t, Decidable (P z t)] (status : QuadrantStatus)

theorem quadrantStatus_setQuadrants {quadrants : List (Fin 4)} (hnodup : quadrants.Nodup) (node : RlNode) (i : Fin 4) :
    quadrantStatus (setQuadrants P status quadrants node) (quadrantNum i) =
      if i ∈ quadrants ∧ P (quadrantNum i) (quadrantStatus node (quadrantNum i)) then status
      else quadrantStatus node (quadrantNum i) := by
  induction quadrants generalizing node with
  | nil => simp [setQuadrants]
  | cons j quadrants ih =>
    obtain ⟨hj, hnodup⟩ := List.nodup_cons.mp hnodup
    have hstep : setQuadrants P status (j :: quadrants) node = setQuadrants P status quadrants
      (if P (quadrantNum j) (quadrantStatus node (quadrantNum j)) then setQuadrant node (quadrantNum j) status
        else node) := rfl
    rw [hstep, ih hnodup]
    by_cases hi : i = j
    · subst hi
      rw [if_neg (fun h => hj h.1)]
      split_ifs with hp hall hall
      · rw [quadrantStatus_setQuadrant, if_pos rfl]
      · exact absurd ⟨List.mem_cons_self, hp⟩ hall
      · exact absurd hall.2 hp
      · rfl
    · have hsame : quadrantStatus (if P (quadrantNum j) (quadrantStatus node (quadrantNum j)) then
          setQuadrant node (quadrantNum j) status else node) (quadrantNum i) = quadrantStatus node (quadrantNum i) := by
        split_ifs
        · rw [quadrantStatus_setQuadrant, if_neg hi]
        · rfl
      rw [hsame]
      simp only [List.mem_cons, hi, false_or]

theorem numSubnodes_setQuadrants (quadrants : List (Fin 4)) (node : RlNode) :
    numSubnodes (setQuadrants P status quadrants node) = numSubnodes node := by
  induction quadrants generalizing node with
  | nil => rfl
  | cons j quadrants ih =>
    have hstep : setQuadrants P status (j :: quadrants) node = setQuadrants P status quadrants
      (if P (quadrantNum j) (quadrantStatus node (quadrantNum j)) then setQuadrant node (quadrantNum j) status
        else node) := rfl
    rw [hstep, ih]
    split_ifs
    · exact numSubnodes_setQuadrant ..
    · rfl

end

/-- The quadrants that start beyond the maximum are ignored. -/
theorem ignoreQuadrants_eq {quadMin quadMax : ℕ} (hmax : tree.rangeMax = max)
    (hquad : quadMin + width (k + 1) ≤ quadMax + 1) (node : RlNode) :
    ignoreQuadrants tree quadMin quadMax (width (k + 1)) node =
      setQuadrants (fun z _ => (max : ℤ) < quadMin + width k * (z - 1)) .ignore [1, 2, 3] node := by
  have hsplit := width_succ k
  have hiff : ∀ z : ℤ, 1 ≤ z → z ≤ 4 → ((min quadMax max : ℤ) < quadMin + width k * (z - 1) ↔
      (max : ℤ) < quadMin + width k * (z - 1)) := by
    intro z h1 h4
    have hprod : (width k : ℤ) * (z - 1) ≤ width k * 3 := by
      apply mul_le_mul_of_nonneg_left
      · omega
      · omega
    have hpos := width_pos k
    omega
  have h2 := hiff 2 (by norm_num) (by norm_num)
  have h3 := hiff 3 (by norm_num) (by norm_num)
  have h4 := hiff 4 (by norm_num) (by norm_num)
  rw [ignoreQuadrants, nextInterval_width, hmax]
  simp only [List.foldl_cons, List.foldl_nil, h2, h3, h4]
  rfl

theorem initNode_isIn (quadMin quadMax newInterval : ℕ) : initNode tree quadMin quadMax newInterval .isIn =
    if newInterval ≤ leafSize then 0 else ignoreQuadrants tree quadMin quadMax newInterval (setNumSubnodes 0 1) := rfl

theorem initNode_isOut (quadMin quadMax newInterval : ℕ) : initNode tree quadMin quadMax newInterval .isOut =
    if newInterval ≤ leafSize then onBits (min 16 (tree.rangeMax - quadMin + 1))
    else ignoreQuadrants tree quadMin quadMax newInterval (([1, 2, 3, 4] : List ℤ).foldl
      (fun node q => setQuadrant node q .totally)
      (setNumSubnodes (onBits (min 16 (tree.rangeMax - quadMin + 1))) 1)) := rfl

/-- A new node stands for a quadrant whose numbers have the other status. -/
theorem initNode_stored (tree : RlTree) {p quadMax : ℕ} (hmax : tree.rangeMax = max) (hb : b ≤ max)
    (hquad : b + width k ≤ quadMax + 1)
    (h : m p = initNode tree b quadMax (width k) st) : Stored m (fresh max st k b) p := by
  cases k with
  | zero =>
    have hleaf : width 0 ≤ leafSize := le_rfl
    cases st with
    | isIn => rwa [initNode_isIn, if_pos hleaf] at h
    | isOut => rwa [initNode_isOut, if_pos hleaf, hmax] at h
  | succ k =>
    have hinner : ¬ width (k + 1) ≤ leafSize := by rw [width_le_leafSize]; omega
    -- the node before the quadrants beyond the maximum are ignored
    obtain ⟨node, hnode, hcount, hstatus⟩ : ∃ node, m p = setQuadrants (fun z _ => (max : ℤ) < b + width k * (z - 1))
        .ignore [1, 2, 3] node ∧ numSubnodes node = 1 ∧ ∀ i, quadrantStatus node (quadrantNum i) = (blank st).status := by
      cases st with
      | isIn =>
        rw [initNode_isIn, if_neg hinner, ignoreQuadrants_eq hmax hquad] at h
        refine ⟨_, h, numSubnodes_setNumSubnodes _ (by norm_num), fun i => ?_⟩
        rw [quadrantStatus_setNumSubnodes]
        fin_cases i <;> rfl
      | isOut =>
        have hall : ∀ node : RlNode, ([1, 2, 3, 4] : List ℤ).foldl (fun node q => setQuadrant node q .totally) node =
            setQuadrants (fun _ _ => True) .totally [0, 1, 2, 3] node := by
          intro node
          simp only [setQuadrants, if_true]
          rfl
        rw [initNode_isOut, if_neg hinner, ignoreQuadrants_eq hmax hquad, hall] at h
        refine ⟨_, h, ?_, fun i => ?_⟩
        · rw [numSubnodes_setQuadrants, numSubnodes_setNumSubnodes _ (by norm_num)]
        · rw [quadrantStatus_setQuadrants _ _ (by decide), if_pos ⟨by fin_cases i <;> decide, trivial⟩]
          rfl
    rw [fresh_succ]
    refine ⟨?_, fun i => ?_, fun i => ?_⟩
    · rw [hnode, numSubnodes_setQuadrants, hcount, ← fresh_succ, count_fresh]
      rfl
    · have hmem : i ∈ ([1, 2, 3] : List (Fin 4)) ↔ i.val ≠ 0 := by fin_cases i <;> decide
      have hstart : (max : ℤ) < b + width k * (quadrantNum i - 1) ↔ max < b + width k * i.val := by
        rw [quadrantNum, add_sub_cancel_right]
        norm_cast
      rw [hnode, quadrantStatus_setQuadrants _ _ (by decide), hstatus]
      simp only [hmem, hstart]
      by_cases hlt : max < b + width k * i.val
      · have hi : i.val ≠ 0 := by
          intro hzero
          rw [hzero] at hlt
          omega
        rw [if_pos ⟨hi, hlt⟩, if_pos hlt]
        rfl
      · rw [if_neg fun h => hlt h.2, if_neg hlt]
    · show Stored m (if max < b + width k * i.val then skip else blank st) _
      split_ifs
      · trivial
      · cases st <;> trivial

/-- What `makeRoom` does to the array, for the place of a new node. -/
structure Room (tree : RlTree) (p : ℕ) (room : RlTree) : Prop where
  size : room.size = tree.size
  alloc : room.memAlloc ≠ 0
  rangeMax : room.rangeMax = tree.rangeMax
  rootI : room.rootI = tree.rootI
  front : ∀ x ≤ p, room.root x = tree.root x
  behind : ∀ x, p ≤ x → x < tree.size → room.root (x + 1) = tree.root x

theorem makeRoom_spec {p : ℕ} (halloc : tree.memAlloc ≠ 0) (hp : p ≤ tree.size) (hone : p + 1 ≠ tree.size)
    (hsmall : tree.size < 2 ^ 31) : Room tree p (tree.makeRoom p) := by
  have hroot := makeRoom_root halloc hp hone hsmall
  have hroom : (tree.makeRoom p).size = tree.size ∧ (tree.makeRoom p).memAlloc ≠ 0 ∧
      (tree.makeRoom p).rangeMax = tree.rangeMax ∧ (tree.makeRoom p).rootI = tree.rootI := by
    obtain ⟨hsize, hmax, hrootI⟩ := reallocMem_eq tree
    unfold RlTree.makeRoom
    rw [if_pos halloc]
    exact ⟨hsize, reallocMem_memAlloc tree halloc, hmax, hrootI⟩
  obtain ⟨hsize, halloc', hmax, hrootI⟩ := hroom
  refine ⟨hsize, halloc', hmax, hrootI, fun x hx => ?_, fun x hx hlt => ?_⟩
  · rw [hroot, if_neg (by omega)]
  · rw [hroot, if_pos (by omega), Nat.add_sub_cancel]

variable {p quadMax : ℕ} {room : RlTree}

theorem fillNode_place (hr : InRange room max levels) (hle : b ≤ max) (hquad : b + width k ≤ quadMax + 1) (z : ℤ) :
    Stored (fillNode room idx z p (width (k + 1)) b quadMax st).root (fresh max st k b) p := by
  refine initNode_stored room hr.max_eq hle hquad ?_
  unfold fillNode
  rw [nextInterval_width]
  exact RlTree.setNode_self ..

theorem fillNode_father (z : ℤ) (fatherInterval quadMin : ℕ) (h : idx ≠ p) :
    (fillNode room idx z p fatherInterval quadMin quadMax st).root idx =
      setQuadrant (room.root idx) z .partially :=
  (RlTree.setNode_of_ne _ _ h).trans (RlTree.setNode_self ..)

theorem fillNode_of_ne (z : ℤ) (fatherInterval quadMin : ℕ) {x : ℕ} (hp : x ≠ p) (h : x ≠ idx) :
    (fillNode room idx z p fatherInterval quadMin quadMax st).root x = room.root x :=
  (RlTree.setNode_of_ne _ _ hp).trans (RlTree.setNode_of_ne _ _ h)

theorem fresh_status : (fresh max st k b).status = .partially := by
  cases k <;> rfl

/-- The new node is put in front of the nodes from its place on. -/
theorem fillNode_spec (hr : InRange room max levels) (hroom : Room tree (idx + 1 + before q i) room)
    (hcore : Core tree.root (inode q) idx) (hblank : q i = blank st)
    (hquad : b + width k ≤ quadMax + 1) (hle : b ≤ max) (hidx : idx + count (inode q) ≤ tree.size) :
    After tree idx (inode q) 1 (inode (Function.update q i (fresh max st k b)))
      (fillNode room idx (quadrantNum i) (idx + 1 + before q i) (width (k + 1)) b quadMax st) := by
  have hlast := count_lt q i
  have hzero : Subtree.count (q i) = 0 := by rw [hblank, count_blank]
  have hbehind : ∀ x, idx + 1 + before q i ≤ x → x < tree.size →
      (fillNode room idx (quadrantNum i) (idx + 1 + before q i) (width (k + 1)) b quadMax st).root (x + 1) =
        tree.root x := by
    intro x hlo hhi
    rw [fillNode_of_ne _ _ _ (by omega) (by omega), hroom.behind x hlo hhi]
  have hfront : ∀ x < idx + 1 + before q i, x ≠ idx →
      (fillNode room idx (quadrantNum i) (idx + 1 + before q i) (width (k + 1)) b quadMax st).root x =
        tree.root x := by
    intro x hlt hx
    rw [fillNode_of_ne _ _ _ (by omega) hx, hroom.front x (by omega)]
  exact
    { size := congrArg (· + 1) hroom.size
      alloc := hroom.alloc
      rangeMax := hroom.rangeMax
      rootI := hroom.rootI
      count := by
        have hupdate := count_update q i (fresh max st k b)
        rw [count_fresh] at hupdate
        omega
      core := by
        refine Core.update hcore (fun j => ?_) (fillNode_place hr hle hquad _) (by rw [count_fresh, hzero])
          (fun x hlo hhi => hfront x hhi (by omega)) fun x hlo hhi => hbehind x (by omega) (by omega)
        rw [fillNode_father _ _ _ (by omega), quadrantStatus_setQuadrant, hroom.front idx (by omega), hcore.1]
        by_cases hj : j = i
        · subst hj
          rw [if_pos rfl, Function.update_self, fresh_status]
        · rw [if_neg hj, Function.update_of_ne hj]
      front := fun x hx => hfront x (by omega) (by omega)
      behind := fun x hx hlt => hbehind x (by omega) hlt }

/-- A quadrant is split by a new node, where not exactly one node is behind its place. -/
theorem newNode_spec (quadMax : ℕ) (hr : InRange tree max levels) (hk : k ≤ levels) (halloc : tree.memAlloc ≠ 0)
    (hcore : Core tree.root (inode q) idx) (hwf : Wf max (inode q) (k + 1) b) (hblank : q i = blank st)
    (hquad : b + width k * i.val + width k ≤ quadMax + 1) (hle : b + width k * i.val ≤ max)
    (hidx : idx + count (inode q) ≤ tree.size) (hsmall : tree.size < 2 ^ 31)
    (hone : idx + 1 + before q i + 1 ≠ tree.size) :
    After tree idx (inode q) 1 (inode (Function.update q i (fresh max st k (b + width k * i.val))))
        (newNode tree idx (quadrantNum i) (width (k + 1)) (b + width k * i.val) quadMax st) ∧
      numSubnodes ((newNode tree idx (quadrantNum i) (width (k + 1)) (b + width k * i.val) quadMax st).root idx) =
        numSubnodes (tree.root idx) := by
  have hlast := count_lt q i
  have hplace : getQuadrantNode tree idx (quadrantNum i) (width (k + 1)) = idx + 1 + before q i :=
    getQuadrantNode_spec hcore hwf (hr.interval hk) (by omega) (by omega) i
  have hroom := makeRoom_spec (p := idx + 1 + before q i) halloc (by omega) hone hsmall
  unfold newNode
  rw [hplace]
  refine ⟨fillNode_spec (hr.of_eq hroom.rangeMax hroom.rootI) hroom hcore hblank hquad hle hidx, ?_⟩
  rw [fillNode_father _ _ _ (by omega), numSubnodes_setQuadrant, hroom.front idx (by omega)]

end Rltree

end Yap
