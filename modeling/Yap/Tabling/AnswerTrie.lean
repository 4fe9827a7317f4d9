-- SUMMARY: Answer tries of tabled subgoals: nodes, hash tables of siblings, the insertion of entries, and the compilation of a completed trie.
import Yap.Base.Word

/-!
# Answer tries

The functions follow `tab.tries.h`, `tab.tries.c` and `tab.macros.h`, for a build
without parallel execution. A chain of siblings is the list of the nodes that
`TrNode_next` leads to. Nodes and hashes are numbered as they are allocated, the root
is node 0.
-/

namespace Yap.Tabling

-- ---------------------------------------------------------------------------
-- Instructions
-- ---------------------------------------------------------------------------

/-- The families of trie instructions, in the order of their numbers. -/
inductive Family where
  | var
  | varInPair
  | val
  | valInPair
  | atom
  | atomInPair
  | null
  | nullInPair
  | pair
  | appl
  | applInPair
  | extension
  | double
  | longint
  | bigint
  | gterm
deriving DecidableEq

/-- The instructions of a family, in the order of their numbers. -/
inductive Kind where
  | do_
  | trust
  | try_
  | retry
deriving DecidableEq

/-- The number of an instruction; `trieDoVar` is that of the first one. -/
def opNumber (trieDoVar : ℕ) (fam : Family) (kind : Kind) : ℕ := trieDoVar + 4 * fam.ctorIdx + kind.ctorIdx

def traversePositionNext : ℕ := 0
def traversePositionFirst : ℕ := 1
def traversePositionLast : ℕ := 2

-- ---------------------------------------------------------------------------
-- Nodes and hashes
-- ---------------------------------------------------------------------------

/-- The field `TrNode_child`: the first of a chain of siblings, a hash of them, or the next
    answer, in leaves. -/
inductive Child where
  | null
  | chain (nodes : List ℕ)
  | hash (h : ℕ)
  | answer (a : ℕ)

structure AnsNode where
  instr : ℕ
  entry : Word
  parent : ℕ
  leaf : Bool
  child : Child

structure AnsHash where
  buckets : List (List ℕ)
  numNodes : ℕ

/-- The fields of a subgoal frame that belong to its answers, with the memory of the trie. -/
structure SgFrame where
  node : ℕ → AnsNode
  nodes : ℕ
  hash : ℕ → AnsHash
  hashes : ℕ
  hashChain : List ℕ
  firstAnswer : Option ℕ
  lastAnswer : Option ℕ
  state : ℕ

namespace SgFrame

/-- The frame of a subgoal without answers. -/
def new (state : ℕ) : SgFrame where
  node _ := ⟨0, 0, 0, false, .null⟩
  nodes := 1
  hash _ := ⟨[], 0⟩
  hashes := 0
  hashChain := []
  firstAnswer := none
  lastAnswer := none
  state := state

variable (sgFr : SgFrame)

def setChild (a : ℕ) (c : Child) : SgFrame :=
  { sgFr with node := Function.update sgFr.node a { sgFr.node a with child := c } }

def setInstr (a : ℕ) (instr : ℕ) : SgFrame :=
  { sgFr with node := Function.update sgFr.node a { sgFr.node a with instr := instr } }

/-- `TAG_AS_ANSWER_LEAF_NODE`. -/
def tagLeaf (a : ℕ) : SgFrame :=
  { sgFr with node := Function.update sgFr.node a { sgFr.node a with leaf := true } }

/-- `NEW_ANSWER_TRIE_NODE`: the node is number `sgFr.nodes`. -/
def newNode (instr : ℕ) (t : Word) (parent : ℕ) : SgFrame :=
  { sgFr with
    node := Function.update sgFr.node sgFr.nodes ⟨instr, t, parent, false, .null⟩
    nodes := sgFr.nodes + 1 }

/-- `new_answer_trie_hash`, and the chain of all hashes. The hash is number `sgFr.hashes`. -/
def newHash (buckets : List (List ℕ)) (numNodes : ℕ) : SgFrame :=
  { sgFr with
    hash := Function.update sgFr.hash sgFr.hashes ⟨buckets, numNodes⟩
    hashes := sgFr.hashes + 1
    hashChain := sgFr.hashes :: sgFr.hashChain }

def setHash (h : ℕ) (hash : AnsHash) : SgFrame := { sgFr with hash := Function.update sgFr.hash h hash }

end SgFrame

-- ---------------------------------------------------------------------------
-- Insertion
-- ---------------------------------------------------------------------------

def maxNodesPerTrieLevel : ℕ := 8

def maxNodesPerBucket : ℕ := maxNodesPerTrieLevel / 2

def baseHashBuckets : ℕ := 64

def hashEntry (entry : Word) (numBuckets : ℕ) : ℕ := ((entry >>> 3) &&& (BitVec.ofNat 64 numBuckets - 1)).toNat

/-- The nodes of a chain are put in front of their buckets, one after the other. -/
def distribute (entry : ℕ → Word) (numBuckets : ℕ) (buckets : List (List ℕ)) (chain : List ℕ) : List (List ℕ) :=
  chain.foldl (fun buckets a => buckets.modify (hashEntry (entry a) numBuckets) (a :: ·)) buckets

/-- The buckets of the expanded hash. The old ones are emptied from the last to the first. -/
def expandBuckets (entry : ℕ → Word) (buckets : List (List ℕ)) : List (List ℕ) :=
  buckets.reverse.foldl (distribute entry (2 * buckets.length)) (List.replicate (2 * buckets.length) [])

/-- `answer_trie_check_insert_entry`. There is no result below a leaf, which is an error that
    `TABLING_ERROR_CHECKING` looks for, and none when the number of buckets is no `int` any more. -/
def answerTrieCheckInsertEntry (sgFr : SgFrame) (parent : ℕ) (t : Word) (instr : ℕ) : Option (SgFrame × ℕ) :=
  if (sgFr.node parent).leaf then none
  else
    match (sgFr.node parent).child with
    | .null => some ((sgFr.newNode instr t parent).setChild parent (.chain [sgFr.nodes]), sgFr.nodes)
    | .chain nodes =>
      match nodes.find? fun a => (sgFr.node a).entry == t with
      | some a => some (sgFr, a)
      | none =>
        let child := sgFr.nodes
        let sgFr := sgFr.newNode instr t parent
        let chain := child :: nodes
        if maxNodesPerTrieLevel ≤ chain.length then
          let buckets := distribute (fun a => (sgFr.node a).entry) baseHashBuckets
            (List.replicate baseHashBuckets []) chain
          some ((sgFr.newHash buckets chain.length).setChild parent (.hash sgFr.hashes), child)
        else some (sgFr.setChild parent (.chain chain), child)
    | .hash h =>
      let hash := sgFr.hash h
      let bucket := hash.buckets.getD (hashEntry t hash.buckets.length) []
      match bucket.find? fun a => (sgFr.node a).entry == t with
      | some a => some (sgFr, a)
      | none =>
        let child := sgFr.nodes
        let sgFr := sgFr.newNode instr t parent
        let buckets := hash.buckets.modify (hashEntry t hash.buckets.length) (child :: ·)
        if maxNodesPerBucket ≤ bucket.length + 1 ∧ buckets.length < hash.numNodes + 1 then
          if 2 * buckets.length < 2 ^ 31 then
            some (sgFr.setHash h ⟨expandBuckets (fun a => (sgFr.node a).entry) buckets, hash.numNodes + 1⟩, child)
          else none
        else some (sgFr.setHash h ⟨buckets, hash.numNodes + 1⟩, child)
    | .answer _ => none

/-- The part of `table_new_answer` for a node that is no leaf yet. -/
def tableNewAnswer (sgFr : SgFrame) (ansNode : ℕ) : SgFrame :=
  let sgFr := sgFr.tagLeaf ansNode
  match sgFr.firstAnswer, sgFr.lastAnswer with
  | some _, some last => { sgFr.setChild last (.answer ansNode) with lastAnswer := some ansNode }
  | _, _ => { sgFr with firstAnswer := some ansNode, lastAnswer := some ansNode }

-- ---------------------------------------------------------------------------
-- Compilation
-- ---------------------------------------------------------------------------

/-- The hashes are freed one after the other: the first node of a bucket tells the parent, and
    the chains of the buckets are linked. -/
def freeAnswerHashChain : SgFrame → List ℕ → Option SgFrame
  | sgFr, [] => some sgFr
  | sgFr, h :: hashes =>
    match (sgFr.hash h).buckets.flatten with
    | [] => none
    | first :: rest => freeAnswerHashChain (sgFr.setChild (sgFr.node first).parent (.chain (first :: rest))) hashes

section

variable (yapOpcode : ℕ → ℕ)

/-- The siblings after the first node: the last one is told apart. -/
def updateNexts (branch : SgFrame → List ℕ → ℕ → Option SgFrame) : SgFrame → List ℕ → Option SgFrame
  | sgFr, [] => some sgFr
  | sgFr, [last] => branch sgFr [last] traversePositionLast
  | sgFr, next :: next' :: nexts =>
    (branch sgFr (next :: next' :: nexts) traversePositionNext).bind fun sgFr =>
      updateNexts branch sgFr (next' :: nexts)

/-- The nodes below a node. -/
def updateBelow (branch : SgFrame → List ℕ → ℕ → Option SgFrame) (sgFr : SgFrame) (current : ℕ) : Option SgFrame :=
  if (sgFr.node current).leaf then some sgFr
  else
    match (sgFr.node current).child with
    | .chain nodes => branch sgFr nodes traversePositionFirst
    | _ => none

/-- `update_answer_trie_branch`, for a node and the siblings behind it. -/
def updateAnswerTrieBranch : ℕ → SgFrame → List ℕ → ℕ → Option SgFrame
  | 0, _, _, _ => none
  | _, _, [], _ => none
  | fuel + 1, sgFr, current :: nexts, position =>
    (updateBelow (updateAnswerTrieBranch fuel) sgFr current).bind fun sgFr =>
      if position = traversePositionFirst then
        (updateNexts (updateAnswerTrieBranch fuel) sgFr nexts).map fun sgFr =>
          let position := if nexts = [] then position + traversePositionLast else position
          sgFr.setInstr current (yapOpcode ((sgFr.node current).instr - position))
      else some (sgFr.setInstr current (yapOpcode ((sgFr.node current).instr - position)))

/-- `update_answer_trie`, with a bound on the depth of the recursion. -/
def updateAnswerTrie (fuel : ℕ) (sgFr : SgFrame) : Option SgFrame :=
  (freeAnswerHashChain sgFr sgFr.hashChain).bind fun sgFr =>
    let sgFr := { sgFr with hashChain := [], state := sgFr.state + 2 }
    match (sgFr.node 0).child with
    | .null => some sgFr
    | .chain nodes => updateAnswerTrieBranch yapOpcode fuel sgFr nodes traversePositionFirst
    | _ => none

end

end Yap.Tabling
