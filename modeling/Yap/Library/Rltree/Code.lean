-- SUMMARY: Range-list trees of `range_list.c`: nodes of 16 bits in one array, insertions that shift the array, and lookups.
import Mathlib

/-!
# Range lists

A set of numbers up to a maximum is a tree in one array. An inner node holds the
states of its four quadrants and the number of nodes of its subtree, a leaf one
bit for each of 16 numbers. The subtrees of the quadrants that are in part in
the set follow their node in order.
-/

namespace Yap

namespace Rltree

inductive Status where
  | isIn
  | isOut
deriving DecidableEq

inductive QuadrantStatus where
  | notIn
  | ignore
  | partially
  | totally
deriving DecidableEq

namespace QuadrantStatus

/-- The two bits of a state. -/
def bits : QuadrantStatus → BitVec 2
  | notIn => 0
  | ignore => 1
  | partially => 2
  | totally => 3

def ofBits (b : BitVec 2) : QuadrantStatus :=
  if b = 0 then notIn else if b = 1 then ignore else if b = 2 then partially else totally

end QuadrantStatus

-- ---------------------------------------------------------------------------
-- Nodes
-- ---------------------------------------------------------------------------

/-- A leaf, or from the low bits on the states of the quadrants and `num_subnodes`. -/
abbrev RlNode : Type := BitVec 16

def quadrantStatus (node : RlNode) (quadrant : ℤ) : QuadrantStatus :=
  if 1 ≤ quadrant ∧ quadrant ≤ 4 then .ofBits (node.extractLsb' (2 * (quadrant.toNat - 1)) 2) else .notIn

def setQuadrant (node : RlNode) (quadrant : ℤ) (status : QuadrantStatus) : RlNode :=
  if 1 ≤ quadrant ∧ quadrant ≤ 4 then
    node &&& ~~~((3 : RlNode) <<< (2 * (quadrant.toNat - 1))) |||
      status.bits.setWidth 16 <<< (2 * (quadrant.toNat - 1))
  else node

def numSubnodes (node : RlNode) : ℕ := (node.extractLsb' 8 8).toNat

def setNumSubnodes (node : RlNode) (n : ℕ) : RlNode := node &&& (0xff : RlNode) ||| BitVec.ofNat 16 n <<< 8

def setNumBit (number : ℕ) (node : RlNode) : Status → RlNode
  | .isIn => node ||| (1 : RlNode) <<< number
  | .isOut => node &&& ~~~((1 : RlNode) <<< number)

/-- `is_num_bit` for the state `IN`. -/
def isNumBit (number : ℕ) (node : RlNode) : Bool := node.getLsbD number

def activeBits : List RlNode :=
  [1, 3, 7, 15, 31, 63, 127, 255, 511, 1023, 2047, 4095, 8191, 16383, 32767, 65535]

/-- `ON_BITS`. -/
def onBits (n : ℕ) : RlNode := activeBits.getD (n - 1) 0

-- ---------------------------------------------------------------------------
-- Intervals
-- ---------------------------------------------------------------------------

def branchFactor : ℕ := 4

def leafSize : ℕ := 16

/-- `sizeof(RL_Node)`. -/
def nodeSize : ℕ := 2

/-- An unsigned 64-bit number, the type `NUM`. -/
def num (z : ℤ) : ℕ := (z % 2 ^ 64).toNat

/-- `RL_Tree`. The interval of a quadrant of the root is that of a leaf, or below the maximum. -/
structure RlTree where
  root : ℕ → RlNode
  size : ℕ
  memAlloc : ℕ
  rangeMax : ℕ
  rootI : ℕ
  rootI_lt : rootI = leafSize ∨ rootI < rangeMax

def RlTree.rootInterval (tree : RlTree) : ℕ := tree.rootI * branchFactor

def RlTree.setNode (tree : RlTree) (idx : ℕ) (node : RlNode) : RlTree :=
  { tree with root := Function.update tree.root idx node }

@[simp] theorem RlTree.setNode_self (tree : RlTree) (idx : ℕ) (node : RlNode) : (tree.setNode idx node).root idx = node :=
  Function.update_self ..

theorem RlTree.setNode_of_ne (tree : RlTree) {idx x : ℕ} (node : RlNode) (h : x ≠ idx) :
    (tree.setNode idx node).root x = tree.root x :=
  Function.update_of_ne h ..

def nextInterval (interval : ℕ) : ℕ :=
  if interval ≤ leafSize * branchFactor then leafSize else interval / branchFactor + interval % branchFactor

/-- A root is told by its interval. -/
def quadrantInterval (tree : RlTree) (interval : ℕ) : ℕ :=
  if tree.rangeMax ≤ interval then tree.rootI else nextInterval interval

theorem nextInterval_lt {interval : ℕ} (h : ¬ interval ≤ leafSize) : nextInterval interval < interval := by
  unfold nextInterval
  unfold leafSize branchFactor at *
  split_ifs <;> omega

theorem quadrantInterval_lt (tree : RlTree) {interval : ℕ} (h : ¬ interval ≤ leafSize) :
    quadrantInterval tree interval < interval := by
  unfold quadrantInterval
  split
  · have hroot := tree.rootI_lt
    omega
  · exact nextInterval_lt h

/-- The quadrant of a number, computed as an `int` and kept as a `short`, and its bounds. -/
def numberQuadrant (tree : RlTree) (number nodeInterval nodeNum : ℕ) : ℤ × ℕ × ℕ :=
  let quadInterval := quadrantInterval tree nodeInterval
  let i : ℤ := Int.bmod ((num (number - nodeNum) / quadInterval + 1 : ℕ) : ℤ) (2 ^ 32)
  let quadMax := num (nodeNum - 1 + quadInterval * i)
  (Int.bmod i (2 ^ 16), num (quadMax - quadInterval + 1), quadMax)

-- ---------------------------------------------------------------------------
-- Places in the array
-- ---------------------------------------------------------------------------

/-- The nodes of a subtree, counted in an `unsigned int`; a count of 255 is not exact. -/
def treeSize (tree : RlTree) (node interval : ℕ) : ℕ :=
  if h : interval ≤ leafSize then 1
  else if numSubnodes (tree.root node) = 255 then
    [1, 2, 3, 4].foldl (fun c i =>
      if quadrantStatus (tree.root node) i = .partially then
        (c + treeSize tree (node + c) (nextInterval interval)) % 2 ^ 32
      else c) 1
  else numSubnodes (tree.root node)
termination_by interval
decreasing_by exact nextInterval_lt h

/-- The distance of a quadrant's subtree from the node, an `int`. -/
def getLocation (tree : RlTree) (node : ℕ) (quadrant : ℤ) (nodeInterval : ℕ) : ℤ :=
  if quadrant = 1 ∨ nodeInterval ≤ leafSize then 1
  else if nodeInterval ≤ leafSize * branchFactor then
    ([1, 2, 3, 4].takeWhile (· < quadrant)).foldl (fun c i =>
      if quadrantStatus (tree.root node) i = .partially then c + 1 else c) 1
  else
    let nextInterval := quadrantInterval tree nodeInterval
    (([1, 2, 3, 4].takeWhile (· ≠ quadrant)).foldl (fun s i =>
      if quadrantStatus (tree.root node) i = .partially then
        let tmp := Int.bmod (treeSize tree s.2 nextInterval) (2 ^ 32)
        (Int.bmod (s.1 + tmp) (2 ^ 32), num (s.2 + tmp))
      else s) ((1 : ℤ), node + 1)).1

def getQuadrantNode (tree : RlTree) (node : ℕ) (quadrant : ℤ) (interval : ℕ) : ℕ :=
  num (node + getLocation tree node quadrant interval)

-- ---------------------------------------------------------------------------
-- Insertions
-- ---------------------------------------------------------------------------

/-- The loop of `shift_right` from the node `idx + n` down. -/
def shiftLoop (idx : ℕ) : ℕ → (ℕ → RlNode) → ℕ → RlNode
  | 0, s => Function.update s (idx + 1) (s idx)
  | n + 1, s => shiftLoop idx n (Function.update s (idx + (n + 1) + 1) (s (idx + (n + 1))))

def shiftRight (s : ℕ → RlNode) (idx : ℕ) (nnodes : ℤ) : ℕ → RlNode :=
  if nnodes ≤ 0 then s else shiftLoop idx nnodes.toNat s

/-- The quadrants beyond the maximum are ignored. -/
def ignoreQuadrants (tree : RlTree) (quadMin quadMax newInterval : ℕ) (node : RlNode) : RlNode :=
  [2, 3, 4].foldl (fun node (q : ℤ) =>
    if (min quadMax tree.rangeMax : ℤ) < quadMin + nextInterval newInterval * (q - 1) then
      setQuadrant node q .ignore
    else node) node

/-- The contents of a node that splits a quadrant. -/
def initNode (tree : RlTree) (quadMin quadMax newInterval : ℕ) : Status → RlNode
  | .isIn =>
    if newInterval ≤ leafSize then 0
    else ignoreQuadrants tree quadMin quadMax newInterval (setNumSubnodes 0 1)
  | .isOut =>
    let node := onBits (min 16 (tree.rangeMax - quadMin + 1))
    if newInterval ≤ leafSize then node
    else
      ignoreQuadrants tree quadMin quadMax newInterval
        ([1, 2, 3, 4].foldl (fun node q => setQuadrant node q .totally) (setNumSubnodes node 1))

/-- The array is enlarged where it is full, which leaves its contents. -/
def RlTree.reallocMem (tree : RlTree) : RlTree :=
  if tree.memAlloc < (tree.size + 1) * nodeSize then { tree with memAlloc := (tree.size + 2) * nodeSize } else tree

/-- The place of a new node, which takes it from the nodes there on. -/
def RlTree.makeRoom (tree : RlTree) (new : ℕ) : RlTree :=
  if tree.memAlloc ≠ 0 then
    { tree.reallocMem with root := shiftRight tree.root new (Int.bmod (num ((tree.size : ℤ) - 1 - new)) (2 ^ 64)) }
  else tree

/-- The father refers to the new node, which takes its contents. -/
def fillNode (tree : RlTree) (nodeFather : ℕ) (quadrant : ℤ) (new fatherInterval quadMin quadMax : ℕ)
    (status : Status) : RlTree :=
  let tree := tree.setNode nodeFather (setQuadrant (tree.root nodeFather) quadrant .partially)
  let tree := tree.setNode new (initNode tree quadMin quadMax (nextInterval fatherInterval) status)
  { tree with size := tree.size + 1 }

/-- The tree with the new node, whose place is the one that `getQuadrantNode` gives. -/
def newNode (tree : RlTree) (nodeFather : ℕ) (quadrant : ℤ) (fatherInterval quadMin quadMax : ℕ) (status : Status) :
    RlTree :=
  let new := getQuadrantNode tree nodeFather quadrant fatherInterval
  fillNode (tree.makeRoom new) nodeFather quadrant new fatherInterval quadMin quadMax status

/-- The state of a quadrant that a number of this status splits. -/
def Status.splits : Status → QuadrantStatus
  | isIn => .notIn
  | isOut => .totally

/-- The state of a quadrant that has all its numbers of this status. -/
def Status.full : Status → QuadrantStatus
  | isIn => .totally
  | isOut => .notIn

/-- A quadrant is split by a new node where it has no subtree. -/
def splitQuadrant (tree : RlTree) (node nodeInterval : ℕ) (quad : ℤ × ℕ × ℕ) (status : Status) : RlTree :=
  if quadrantStatus (tree.root node) quad.1 = status.splits then
    newNode tree node quad.1 nodeInterval quad.2.1 quad.2.2 status
  else tree

/-- The number of nodes of a subtree is brought up to date, with the interval of the quadrant for the node's. -/
def updateSubnodes (tree : RlTree) (node interval retVal : ℕ) : RlTree :=
  let size :=
    if numSubnodes (tree.root node) = 255 then treeSize tree node interval
    else retVal + numSubnodes (tree.root node)
  tree.setNode node (setNumSubnodes (tree.root node) (if 254 < size then 255 else size))

/-- The tree and the number of nodes created. The call of `compact_node` is commented out, so no node is deleted. -/
def setIn (number node nodeNum nodeInterval : ℕ) (tree : RlTree) (status : Status) : RlTree × ℕ :=
  if _ : nodeInterval ≤ leafSize then
    (tree.setNode node (setNumBit (number - nodeNum) (tree.root node) status), 0)
  else
    let quad := numberQuadrant tree number nodeInterval nodeNum
    if quadrantStatus (tree.root node) quad.1 = status.full then (tree, 0)
    else
      let next := getQuadrantNode tree node quad.1 nodeInterval
      let tree1 := splitQuadrant tree node nodeInterval quad status
      -- the interval is `quad_max - quad_min + 1`
      let tree2 := (setIn number next quad.2.1 (quadrantInterval tree nodeInterval) tree1 status).1
      let retVal := tree2.size - tree.size
      (updateSubnodes tree2 node (quadrantInterval tree nodeInterval) retVal, retVal)
termination_by nodeInterval
decreasing_by exact quadrantInterval_lt tree ‹_›

-- ---------------------------------------------------------------------------
-- Lookups
-- ---------------------------------------------------------------------------

def inTree (number : ℕ) (tree : RlTree) (node nodeNum nodeInterval : ℕ) : Bool :=
  if _ : nodeInterval ≤ leafSize then isNumBit (number - nodeNum) (tree.root node)
  else
    let quad := numberQuadrant tree number nodeInterval nodeNum
    if quadrantStatus (tree.root node) quad.1 = .partially then
      inTree number tree (getQuadrantNode tree node quad.1 nodeInterval) quad.2.1 (quadrantInterval tree nodeInterval)
    else quadrantStatus (tree.root node) quad.1 = .totally
termination_by nodeInterval
decreasing_by exact quadrantInterval_lt tree ‹_›

-- ---------------------------------------------------------------------------
-- The interface
-- ---------------------------------------------------------------------------

/-- The loop of `norm_tree_size`, with a bound on its turns. -/
def normLoop (interval : ℕ) : ℕ → ℕ → Option ℕ
  | 0, _ => none
  | n + 1, j =>
    if interval ≤ num (num (leafSize * j) * branchFactor) then some (num (leafSize * j))
    else normLoop interval n (num (j * branchFactor))

def normTreeSize (n interval : ℕ) : Option ℕ :=
  if interval ≤ leafSize * branchFactor then some leafSize else normLoop interval n branchFactor

/-- `root_intervals`. -/
def rootIntervals (n rangeMax : ℕ) : Option ℕ :=
  (normTreeSize n rangeMax).map fun firstI =>
    if num ((firstI * branchFactor : ℕ) : ℤ) < rangeMax then num ((firstI * branchFactor : ℕ) : ℤ) else firstI

theorem normLoop_lt {interval n j r : ℕ} (hj : num (leafSize * j) < interval) (h : normLoop interval n j = some r) :
    r < interval := by
  induction n generalizing j with
  | zero => cases h
  | succ n ih =>
    rw [normLoop] at h
    split_ifs at h with hle
    · obtain rfl := Option.some.inj h
      exact hj
    · refine ih ?_ h
      have hnext : num (leafSize * num (j * branchFactor)) = num (num (leafSize * j) * branchFactor) := by
        simp only [num, leafSize, branchFactor]
        omega
      rw [hnext]
      exact not_le.mp hle

theorem rootIntervals_lt {n rangeMax r : ℕ} (h : rootIntervals n rangeMax = some r) :
    r = leafSize ∨ r < rangeMax := by
  obtain ⟨firstI, hfirst, rfl⟩ := Option.map_eq_some_iff.mp h
  split_ifs with hlt
  · exact .inr hlt
  · unfold normTreeSize at hfirst
    split_ifs at hfirst with hsmall
    · exact .inl (Option.some.inj hfirst).symm
    · refine .inr (normLoop_lt ?_ hfirst)
      simp only [num, leafSize, branchFactor] at hsmall ⊢
      omega

/-- A tree with the root alone, in an array that holds what `calloc` finds beyond it. -/
def newTree (heap : ℕ → RlNode) (rangeMax rootI : ℕ) (h : rootI = leafSize ∨ rootI < rangeMax) : RlTree where
  root := Function.update heap 0 ([2, 3, 4].foldl (fun node (q : ℤ) =>
    if (rangeMax : ℤ) < rootI * (q - 1) + 1 then setQuadrant node q .ignore else node) (setNumSubnodes 0 1))
  size := 1
  memAlloc := nodeSize
  rangeMax := rangeMax
  rootI := rootI
  rootI_lt := h

/-- With a bound on the turns of the loop that looks for the interval of the root. -/
def newRl (heap : ℕ → RlNode) (n maxSize : ℕ) : Option RlTree :=
  let rangeMax := if maxSize < 2 then 2 else maxSize
  match h : rootIntervals n rangeMax with
  | some rootI => some (newTree heap rangeMax rootI (rootIntervals_lt h))
  | none => none

/-- Each of the numbers is of the status. The nodes below the root are dropped. -/
def rlAll (tree : RlTree) (status : Status) : RlTree :=
  { tree.setNode 0 ([1, 2, 3, 4].foldl (fun node i =>
      if quadrantStatus node i ≠ .ignore then setQuadrant node i status.full else node) (tree.root 0)) with
    size := 1 }

def setInRl (tree : RlTree) (number : ℕ) (status : Status) : RlTree :=
  if 0 < number ∧ number ≤ tree.rangeMax then (setIn number 0 1 tree.rootInterval tree status).1 else tree

def inRl (tree : RlTree) (number : ℕ) : Bool :=
  if number < 1 ∧ tree.rangeMax < number then false else inTree number tree 0 1 tree.rootInterval

end Rltree

end Yap
