-- SUMMARY: The loops that insert the terms of an answer into its trie, and the insertion of a sequence of answers.
import Yap.Index.Boxes
import Yap.Parse.Tokens
import Yap.Tabling.AnswerTrie

/-!
# The search for an answer

The functions follow `tab.tries.h` and `tab.tries.c`, with `TRIE_COMPACT_PAIRS` and
`TRIE_RATIONAL_TERMS`. Terms are dereferenced. A variable that has a number already is one
of the list of variables. A compound term is known by its word, and a word by the tree that
it unfolds to.
-/

namespace Yap.Tabling

-- ---------------------------------------------------------------------------
-- Entries
-- ---------------------------------------------------------------------------

/-- The words of atoms, and the places of the functors that there are, of nodes, of the copies
    that `Yap_HeapStoreOpaqueTerm` makes and of nodes of the global trie. -/
structure TrieWords where
  mkAtomTerm : Atom → Word
  functor : Functor → Option Word
  node : ℕ → Word
  heapStore : ℕ → Word
  globalTrie : Term → List Addr → Word × List Addr
  atom_low : ∀ a, (mkAtomTerm a).toNat % 8 = 1
  functor_low : ∀ f w, functor f = some w → w.toNat % 8 = 0
  functor_inj : ∀ f g w, functor f = some w → functor g = some w → f = g
  functor_special : ∀ f w, functor f = some w → Boxes.functorString.toNat < w.toNat
  node_low : ∀ n, (node n).toNat % 8 = 0
  globalTrie_low : ∀ t vars, (globalTrie t vars).1.toNat % 8 = 0

def maxTableVars : ℕ := 1000

def makeTableVarTerm (index : ℕ) : Word := BitVec.ofNat 64 index <<< 3

def absPair (p : Word) : Word := p + 2

def compactPairInit : Word := absPair 0

def compactPairEndTerm : Word := absPair 8

def compactPairEndList : Word := absPair 16

/-- `u.t_dbl[0]`. -/
def doubleWord (x : Binary64) : Word := BitVec.ofNat 64 ((if x.neg then 2 ^ 63 else 0) + x.mag)

/-- The family that is `in_pair` instructions further. -/
def Family.plus : Family → Bool → Family
  | .var, true => .varInPair
  | .val, true => .valInPair
  | .atom, true => .atomInPair
  | .null, true => .nullInPair
  | .appl, true => .applInPair
  | fam, _ => fam

-- ---------------------------------------------------------------------------
-- The state of the loop
-- ---------------------------------------------------------------------------

/-- What is pushed for later: a term, the mark of a pair above its tail, or the node of a term
    that was met before, below `RationalMark`. -/
inductive Item where
  | term (t : Term)
  | pairMark
  | rational (node : ℕ)

structure Search where
  sgFr : SgFrame
  currentNode : ℕ
  vars : List Addr
  /-- The number of opaque terms that were stored. -/
  opqs : ℕ
  /-- The compound terms that were met, with the nodes above them. -/
  ts : List (Term × ℕ)
  inPair : Bool
  stackTerms : List Item

def isPairTerm : Term → Bool
  | .pair .. => true
  | _ => false

def isApplTerm : Term → Bool
  | .appl .. | .blob .. => true
  | _ => false

namespace Search

def termArrayMember (st : Search) (t : Term) : Option ℕ := (st.ts.find? fun e => e.1 = t).map Prod.snd

def termArrayPush (st : Search) (t : Term) : Search := { st with ts := st.ts ++ [(t, st.currentNode)] }

/-- `STACK_PUSH_UP`. -/
def push (st : Search) (item : Item) : Search := { st with stackTerms := item :: st.stackTerms }

/-- A subterm, or the node of one that was met before where this is looked for. -/
def subterm (st : Search) (t : Term) (check : Bool) : Item :=
  match if check then st.termArrayMember t else none with
  | some node => .rational node
  | none => .term t

variable (trieDoVar : ℕ)

/-- `ANSWER_CHECK_INSERT_ENTRY`. -/
def checkInsertEntry (st : Search) (t : Word) (fam : Family) : Option Search :=
  (answerTrieCheckInsertEntry st.sgFr st.currentNode t (opNumber trieDoVar fam .retry)).map fun out =>
    { st with sgFr := out.1, currentNode := out.2 }

end Search

-- ---------------------------------------------------------------------------
-- The loop
-- ---------------------------------------------------------------------------

section

variable (words : TrieWords) (isRef : Addr → Bool) (trieDoVar : ℕ)

open Search

/-- A variable, an atom or a small integer. -/
def searchAtomic (st : Search) : Term → Option Search
  | .var v =>
    if v ∈ st.vars then
      (st.checkInsertEntry trieDoVar (makeTableVarTerm (st.vars.idxOf v)) (Family.val.plus st.inPair)).map fun st =>
        { st with inPair := false }
    else if st.vars.length = maxTableVars then none
    else
      (st.checkInsertEntry trieDoVar (makeTableVarTerm st.vars.length) (Family.var.plus st.inPair)).map fun st =>
        { st with vars := st.vars ++ [v], inPair := false }
  | .atom a =>
    (st.checkInsertEntry trieDoVar (words.mkAtomTerm a) (Family.atom.plus st.inPair)).map fun st =>
      { st with inPair := false }
  | .int n =>
    (st.checkInsertEntry trieDoVar (Tags.taggedWord n) (Family.atom.plus st.inPair)).map fun st =>
      { st with inPair := false }
  | _ => none

/-- The contents of a box, between two entries for its functor. -/
def searchExtension (st : Search) (f contents : Word) (fam : Family) : Option Search :=
  (st.checkInsertEntry trieDoVar (Tags.absAppl f) (Family.null.plus st.inPair)).bind fun st =>
    (st.checkInsertEntry trieDoVar contents .extension).bind fun st =>
      (st.checkInsertEntry trieDoVar (Tags.absAppl f) fam).map fun st => { st with inPair := false }

def searchBlob (st : Search) : Blob → Option Search
  | .double x => searchExtension trieDoVar st Boxes.functorDouble (doubleWord x) .double
  | .longInt n => searchExtension trieDoVar st Tags.functorLongInt n.val .longint
  | .bigInt _ =>
    searchExtension trieDoVar { st with opqs := st.opqs + 1 } Boxes.functorBigInt (words.heapStore st.opqs) .bigint
  | .string _ =>
    searchExtension trieDoVar { st with opqs := st.opqs + 1 } Boxes.functorString (words.heapStore st.opqs) .bigint
  | .dbRef => none

/-- The tail of a pair at `p` and, above it, the head. `afterNil` is `in_pair` after a list of
    one element. -/
def searchPair (st : Search) (p : Addr) (head tail : Term) (afterNil : Bool) : Option Search :=
  let out : Option Search :=
    match st.subterm tail (isRef (p + 1) || isPairTerm tail) with
    | .term t =>
      if t = termNil then
        (st.checkInsertEntry trieDoVar compactPairEndList .pair).map fun st => { st with inPair := afterNil }
      else some { (st.push (.term t)).push .pairMark with inPair := true }
    | item => some { (st.push item).push .pairMark with inPair := true }
  out.map fun st => st.push (st.subterm head (isRef p || isPairTerm head))

/-- One round of the loop, for an item that is not on the stack any more. -/
def searchStep (st : Search) : Item → Option Search
  | .rational node => st.checkInsertEntry trieDoVar (words.node node) (Family.var.plus st.inPair)
  | .pairMark =>
    match st.stackTerms with
    | .term (.pair p head tail) :: stack =>
      let st := { st with stackTerms := stack }
      searchPair isRef trieDoVar (st.termArrayPush (.pair p head tail)) p head tail st.inPair
    | .term _ :: _ | .rational _ :: _ => st.checkInsertEntry trieDoVar compactPairEndTerm .null
    | _ => none
  | .term (.pair p head tail) =>
    ((st.termArrayPush (.pair p head tail)).checkInsertEntry trieDoVar compactPairInit (Family.null.plus st.inPair)).bind
      fun st => searchPair isRef trieDoVar st p head tail false
  | .term (.appl p f args) =>
    (words.functor f).bind fun w =>
      ((st.termArrayPush (.appl p f args)).checkInsertEntry trieDoVar (Tags.absAppl w) (Family.appl.plus st.inPair)).map
        fun st =>
          { st with
            stackTerms := (List.ofFn fun i => st.subterm (args i) (isRef (p + 1 + i) || isApplTerm (args i))) ++
              st.stackTerms
            inPair := false }
  | .term (.blob _ b) => searchBlob words trieDoVar st b
  | .term (.var v) => searchAtomic words trieDoVar st (.var v)
  | .term (.atom a) => searchAtomic words trieDoVar st (.atom a)
  | .term (.int n) => searchAtomic words trieDoVar st (.int n)

/-- `answer_search_loop`, with a bound on the number of rounds. -/
def answerSearchLoop : ℕ → Search → Option Search
  | 0, _ => none
  | fuel + 1, st =>
    match st.stackTerms with
    | [] => some st
    | item :: stack =>
      (searchStep words isRef trieDoVar { st with stackTerms := stack } item).bind (answerSearchLoop fuel)

/-- `answer_search_terms_loop`: compound terms are in the global trie. -/
def answerSearchTermsLoop (st : Search) (t : Term) : Option Search :=
  if t.isVarTerm || t.isAtomOrIntTerm then searchAtomic words trieDoVar st t
  else
    Search.checkInsertEntry trieDoVar { st with vars := (words.globalTrie t st.vars).2 } (words.globalTrie t st.vars).1
      .gterm

-- ---------------------------------------------------------------------------
-- Answers
-- ---------------------------------------------------------------------------

/-- The loop of `answer_search` for one term of the substitution. -/
def searchSubs (globalMode : Bool) (fuel : ℕ) (st : Search) (t : Term) : Option Search :=
  let st := { st with ts := [], inPair := false, stackTerms := [] }
  if globalMode then answerSearchTermsLoop words trieDoVar st t
  else answerSearchLoop words isRef trieDoVar fuel (st.push (.term t))

/-- `answer_search`: the terms stand in the order in which they are taken. -/
def answerSearch (globalMode : Bool) (fuel : ℕ) (sgFr : SgFrame) (opqs : ℕ) (subs : List Term) : Option Search :=
  subs.foldlM (searchSubs words isRef trieDoVar globalMode fuel) ⟨sgFr, 0, [], opqs, [], false, []⟩

/-- A new answer of a subgoal with so many variables. -/
def insertAnswer (globalMode : Bool) (fuel : ℕ) {subsArity : ℕ} (sgFr : SgFrame × ℕ) (subs : Fin subsArity → Term) :
    Option (SgFrame × ℕ) :=
  (answerSearch words isRef trieDoVar globalMode fuel sgFr.1 sgFr.2 (List.ofFn subs)).map fun st =>
    (if (st.sgFr.node st.currentNode).leaf then st.sgFr else tableNewAnswer st.sgFr st.currentNode, st.opqs)

/-- The trie of a sequence of answers. -/
def insertAnswers (globalMode : Bool) (fuel : ℕ) {subsArity : ℕ} (sgFr : SgFrame × ℕ)
    (answers : List (Fin subsArity → Term)) : Option (SgFrame × ℕ) :=
  answers.foldlM (insertAnswer words isRef trieDoVar globalMode fuel) sgFr

end

end Yap.Tabling
