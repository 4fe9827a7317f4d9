-- SUMMARY: Tries of `core_tries.c`: the words that stand for terms, writing and matching a term along a path, and reading it back from a leaf.
import Yap.Terms.Term

/-!
# Tries

A term is flattened into the words on a path of the trie. The words of lists,
comma terms and floats are put between tags; the words of atoms, functors,
integers and numbered variables stand for themselves.
-/

namespace Yap

namespace Tries

-- ---------------------------------------------------------------------------
-- Words
-- ---------------------------------------------------------------------------

def applTag : ℕ := 5

def pairInitTag : ℕ := 3

def pairEndEmptyTag : ℕ := 19

def pairEndTermTag : ℕ := 99

def commaInitTag : ℕ := 35

def commaEndTag : ℕ := 51

def floatInitTag : ℕ := 67

def floatEndTag : ℕ := 83

def mkTrieVar (index : ℕ) : ℕ := index * 16

def trieVarIndex (w : ℕ) : ℕ := w / 16

/-- The words of atoms and the places of functors, with the tag bits of 64-bit words. -/
structure Symbols where
  mkAtomTerm : Atom → ℕ
  atomOfTerm : ℕ → Atom
  functor : Functor → ℕ
  functorOf : ℕ → Functor
  atom_tag : ∀ a, mkAtomTerm a % 8 = 1
  atom_not_int : ∀ a, mkAtomTerm a / 2 ^ 61 ≠ 1
  functor_aligned : ∀ f, functor f % 8 = 0
  atomOfTerm_mkAtomTerm : ∀ a, atomOfTerm (mkAtomTerm a) = a
  functorOf_functor : ∀ f, functorOf (functor f) = f

/-- The word of a tagged integer. -/
def intWord (n : BitVec 58) : ℕ := (Tags.taggedWord n).toNat

/-- `AbsAppl` of the box at a cell. -/
def boxWord (p : Addr) : ℕ := p * 8 + 4

/-- The bits of a double as a word. -/
def floatWord (x : Binary64) : ℕ := (if x.neg then 2 ^ 63 else 0) + x.mag

def floatOfWord (w : ℕ) : Binary64 := ⟨decide (2 ^ 63 ≤ w), w % 2 ^ 63, Nat.mod_lt _ (by norm_num)⟩

def isVarTerm (w : ℕ) : Bool := w % 8 = 0

def isAtomTerm (w : ℕ) : Bool := w % 8 = 1 ∧ w / 2 ^ 61 ≠ 1

def isIntTerm (w : ℕ) : Bool := w % 8 = 1 ∧ w / 2 ^ 61 = 1

def isPairTerm (w : ℕ) : Bool := w / 2 % 2 = 1

/-- The large integer that a word refers to, in memory as it is now. The word of a functor is not that of a box. -/
def longIntOf (box : Addr → LongInt) (w : ℕ) : Option LongInt := if w % 8 = 4 then some (box (w / 8)) else none

theorem nul_free_nil : (0 : UInt8) ∉ [91, 93] := by decide

theorem nul_free_comma : (0 : UInt8) ∉ [44] := by decide

def atomNil : Atom := ⟨[91, 93], nul_free_nil⟩

def functorComma : Functor := ⟨⟨[44], nul_free_comma⟩, 2, by norm_num, by decide⟩

-- ---------------------------------------------------------------------------
-- Flattening
-- ---------------------------------------------------------------------------

/-- A term, or what the loop over the tails of a list or of a comma term is at. -/
inductive Mode where
  | entry
  | tail
  | comma
deriving DecidableEq

/-- `NULL` is returned, or a pointer is followed that is `NULL` or marked. -/
inductive Stop where
  | null
  | crash
deriving DecidableEq

section

variable {α : Type*} (sym : Symbols) (step : α → ℕ → Except Stop α)

/-- What follows the last term of a list or of a comma term. -/
def endTag (mode : Mode) (node : α) : Except Stop α :=
  match mode with
  | .entry => .ok node
  | .tail => step node pairEndTermTag
  | .comma => step node commaEndTag

/-- `YAP_IsIntTerm` holds of a large integer, and its word is the place of the box. The bits of a float are put between
    tags. Any other box is of an unknown type and has no word. -/
def walkBlob (p : Addr) : Blob → α → Except Stop α
  | .longInt _, node => step node (boxWord p)
  | .double x, node => do
    let node ← step node floatInitTag
    let node ← step node (floatWord x)
    step node floatEndTag
  | .dbRef, node => .ok node
  | .bigInt _, node => .ok node
  | .string _, node => .ok node

/-- The walk over a term that `put_entry` and `check_entry` share, with the variables seen so far. -/
def walk : Mode → Term → α → List Addr → Except Stop (α × List Addr)
  | mode, .var v, node, vars => do
    -- `IsTrieVar`: the cell of the variable refers to its place in the stack
    if v ∈ vars then
      let node ← step node (mkTrieVar (vars.idxOf v))
      let node ← endTag step mode node
      return (node, vars)
    else
      let node ← step node (mkTrieVar vars.length)
      let node ← endTag step mode node
      return (node, vars ++ [v])
  | mode, .atom a, node, vars => do
    if mode = .tail ∧ a = atomNil then
      let node ← step node pairEndEmptyTag
      return (node, vars)
    else
      let node ← step node (sym.mkAtomTerm a)
      let node ← endTag step mode node
      return (node, vars)
  | mode, .int n, node, vars => do
    let node ← step node (intWord n)
    let node ← endTag step mode node
    return (node, vars)
  | mode, .blob p b, node, vars => do
    let node ← walkBlob step p b node
    let node ← endTag step mode node
    return (node, vars)
  | mode, .pair _ head tail, node, vars => do
    if mode = .tail then
      let (node, vars) ← walk .entry head node vars
      walk .tail tail node vars
    else
      let node ← step node pairInitTag
      let (node, vars) ← walk .entry head node vars
      let (node, vars) ← walk .tail tail node vars
      let node ← endTag step mode node
      return (node, vars)
  | mode, .appl _ f args, node, vars => do
    if h : f = functorComma then
      if mode = .comma then
        let (node, vars) ← walk .entry (args ⟨0, f.arity_pos⟩) node vars
        walk .comma (args ⟨1, by rw [h]; decide⟩) node vars
      else
        let node ← step node commaInitTag
        let (node, vars) ← walk .entry (args ⟨0, f.arity_pos⟩) node vars
        let (node, vars) ← walk .comma (args ⟨1, by rw [h]; decide⟩) node vars
        let node ← endTag step mode node
        return (node, vars)
    else
      let node ← step node (sym.functor f + applTag)
      let (node, vars) ← (List.finRange f.arityOfFE).foldlM (fun s i => walk .entry (args i) s.1 s.2) (node, vars)
      let node ← endTag step mode node
      return (node, vars)

end

-- ---------------------------------------------------------------------------
-- Nodes
-- ---------------------------------------------------------------------------

/-- A node by the words on the way from it up to the root. -/
abbrev TrNode : Type := List ℕ

/-- The nodes below the root and those marked as leaves. -/
structure Trie where
  nodes : List TrNode
  leaves : List TrNode
deriving DecidableEq

def coreTrieOpen : Trie := ⟨[], []⟩

def Trie.hasChild (trie : Trie) (node : TrNode) : Bool := trie.nodes.any fun child => child.tail = node ∧ child ≠ []

/-- The mark of a leaf is in its pointer to the children, which then is not followed. -/
def trieNodeCheckInsert (trie : Trie × TrNode) (t : ℕ) : Except Stop (Trie × TrNode) :=
  if trie.2 ∈ trie.1.leaves then .error .crash
  else if t :: trie.2 ∈ trie.1.nodes then .ok (trie.1, t :: trie.2)
  else .ok ({ trie.1 with nodes := (t :: trie.2) :: trie.1.nodes }, t :: trie.2)

/-- The pointer to the children of a node is followed without a test. -/
def trieNodeCheck (trie : Trie) (parent : TrNode) (t : ℕ) : Except Stop TrNode :=
  if parent ∈ trie.leaves ∨ ¬ trie.hasChild parent then .error .crash
  else if t :: parent ∈ trie.nodes then .ok (t :: parent)
  else .error .null

def putEntry (sym : Symbols) : Term → Trie × TrNode → List Addr → Except Stop ((Trie × TrNode) × List Addr) :=
  walk sym trieNodeCheckInsert .entry

def checkEntry (sym : Symbols) (trie : Trie) : Term → TrNode → List Addr → Except Stop (TrNode × List Addr) :=
  walk sym (trieNodeCheck trie) .entry

def coreTriePutEntry (sym : Symbols) (trie : Trie) (entry : Term) : Except Stop (Trie × TrNode) := do
  let ((trie, node), _) ← putEntry sym entry (trie, []) []
  if node ∈ trie.leaves then return (trie, node)
  else return ({ trie with leaves := node :: trie.leaves }, node)

def coreTrieCheckEntry (sym : Symbols) (trie : Trie) (entry : Term) : Except Stop TrNode := do
  if [] ∉ trie.leaves ∧ ¬ trie.hasChild [] then .error .null
  else
    let (node, _) ← checkEntry sym trie entry [] []
    return node

-- ---------------------------------------------------------------------------
-- Reading
-- ---------------------------------------------------------------------------

/-- The stack with the last term in front, the marks of the calls under way, and the variables read so far. -/
structure GetState where
  stackArgs : List Term
  marks : List ℕ
  vars : ℕ → Option Addr
  hr : Addr

def GetState.push (st : GetState) (t : Term) : GetState := { st with stackArgs := t :: st.stackArgs }

/-- A call of `get_entry` with the mark at this height of the stack. -/
def GetState.call (st : GetState) (mark : ℕ) : GetState := { st with marks := mark :: st.marks }

/-- The terms above the mark are combined from the oldest on, each in front of what is built so far. -/
def buildFrom (mk : Addr → Term → Term → Term) : List Term → Addr → Option (Term × Addr)
  | [], _ => none
  | t :: ts, hr => some (ts.foldl (fun s u => (mk s.2 u s.1, s.2 + 1)) (t, hr))

def mkComma (hr : Addr) (t u : Term) : Term := .appl hr functorComma fun i => if i.val = 0 then t else u

/-- The end of a call: its terms are taken from the stack and the one built of them is pushed by the caller. -/
def GetState.close (st : GetState) (mk : Addr → Term → Term → Term) (least : ℕ) : Option GetState :=
  match st.marks with
  | [] => none
  | mark :: marks =>
    if st.stackArgs.length < mark + least then none
    else (buildFrom mk (st.stackArgs.take (st.stackArgs.length - mark)).reverse st.hr).map fun s =>
      ⟨s.1 :: st.stackArgs.drop (st.stackArgs.length - mark), marks, st.vars, s.2⟩

/-- The variable of an index, a new one where it is not on the stack of variables. -/
def GetState.pushVar (st : GetState) (index : ℕ) : GetState :=
  match st.vars index with
  | some v => st.push (.var v)
  | none => { st with
      stackArgs := .var st.hr :: st.stackArgs, vars := Function.update st.vars index (some st.hr), hr := st.hr + 1 }

/-- The arguments are the last terms on the stack. -/
def GetState.pushAppl (st : GetState) (f : Functor) : Option GetState :=
  if h : f.arityOfFE ≤ st.stackArgs.length then
    some { st with
      stackArgs := .appl st.hr f (fun i => st.stackArgs.get ⟨i, by omega⟩) :: st.stackArgs.drop f.arityOfFE
      hr := st.hr + 1 }
  else none

/-- A word other than the end of a float. A word that no term has where it stands gives `none`. -/
def getWord (sym : Symbols) (box : Addr → LongInt) (w : ℕ) (st : GetState) : Option GetState :=
  if isVarTerm w then some (st.pushVar (trieVarIndex w))
  else if isAtomTerm w then some (st.push (.atom (sym.atomOfTerm w)))
  else if isIntTerm w then some (st.push (.int (.ofNat 58 (w / 8))))
  else match longIntOf box w with
  | some n => some (st.push (.blob (w / 8) (.longInt n)))
  | none =>
    if isPairTerm w then
      if w = pairInitTag then st.close .pair 1
      else if w = pairEndEmptyTag then some ((st.call st.stackArgs.length).push (.atom atomNil))
      else if w = pairEndTermTag then some (st.call st.stackArgs.length)
      else if w = commaEndTag then some (st.call st.stackArgs.length)
      else if w = commaInitTag then st.close mkComma 2
      else none
    else if w % 8 = applTag then st.pushAppl (sym.functorOf (w - applTag))
    else none

/-- `get_entry` from a node up to the root, where the calls under way are their marks. The bits of a float are read
    with its end. -/
def getEntry (sym : Symbols) (box : Addr → LongInt) : TrNode → GetState → Option GetState
  | [], st => some st
  | w :: node, st =>
    if w = floatEndTag then
      match node with
      | p :: _ :: node =>
        getEntry sym box node { st with
          stackArgs := .blob st.hr (.double (floatOfWord p)) :: st.stackArgs, hr := st.hr + 1 }
      | _ => none
    else (getWord sym box w st).bind (getEntry sym box node)

/-- The term that the path of a leaf reads as, which is the last one on the stack. -/
def coreTrieGetEntry (sym : Symbols) (box : Addr → LongInt) (hr : Addr) (node : TrNode) : Option Term :=
  match getEntry sym box node ⟨[], [], fun _ => none, hr⟩ with
  | some ⟨t :: _, [], _, _⟩ => some t
  | _ => none

end Tries

end Yap
