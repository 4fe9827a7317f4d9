-- SUMMARY: sort/2, msort/2 and keysort/2: the vector of cells, the three merge sorts in it, and the list that is left.
import Yap.Base.Lanes
import Yap.Text.Lists

/-!
# Sorting

The elements of the argument are written to every second cell of a vector on the
top of the global stack. The sorts leave their result in the even or the odd
cells, as their caller asks; afterwards the odd cells are turned into the tails
of a list. The comparison of terms is a parameter.

Not modelled: garbage collection when the vector does not fit, and calls whose
second argument is bound.
-/

namespace Yap

namespace Sorting

open Lanes

-- ---------------------------------------------------------------------------
-- Lists
-- ---------------------------------------------------------------------------

def functorMinus : Functor := ⟨atomMinus, 2, by decide, by decide⟩

def isPairTerm : Term → Bool
  | .pair .. => true
  | _ => false

/-- The loop of `Yap_SkipList`: the length and the tail. -/
def skipLoop (s : Term) (power lam length : ℕ) : Term → ℕ × Term
  | .pair p h t =>
    let s' := if power = lam then .pair p h t else s
    let power' := if power = lam then power * 2 else power
    let lam' := if power = lam then 0 else lam
    if t ≠ s' ∧ isPairTerm t then skipLoop s' power' (lam' + 1) (length + 1) t else (length + 1, t)
  | t => (length, t)

/-- `$skip_list/3`. -/
def skipList (l : Term) : ℕ × Term := skipLoop l 1 0 0 l

def buildLoop (pt : ℕ) (out : ℤ) (m : ℕ → Term) : Term → ℤ × (ℕ → Term)
  | .pair _ h t =>
    if t.isVarTerm then (-1, store m pt h)
    else if t = termNil then (out + 1, store m pt h)
    else buildLoop (pt + 2) (out + 1) (store m pt h) t
  | _ => (-1, m)

/-- The number of elements, or `-1`, and the memory with the vector. -/
def buildNewList (pt : ℕ) (t : Term) (m : ℕ → Term) : ℤ × (ℕ → Term) :=
  if t.isVarTerm then (-1, m) else if t = termNil then (0, m) else buildLoop pt 0 m t

-- ---------------------------------------------------------------------------
-- Merge sorts
-- ---------------------------------------------------------------------------

section Merge

variable {γ : Type*}

/-- The loop that compares the heads of the two halves. The result has the memory and the three positions. -/
def mergeLoop (order : γ → γ → Option ℤ) (endLeft endRight : ℕ) (m : ℕ → γ) (pt ptLeft ptRight : ℕ) :
    Option ((ℕ → γ) × ℕ × ℕ × ℕ) :=
  if ptLeft < endLeft ∧ ptRight < endRight then
    (order (m ptLeft) (m ptRight)).bind fun c =>
      if c ≤ 0 then mergeLoop order endLeft endRight (store m pt (m ptLeft)) (pt + 2) (ptLeft + 2) ptRight
      else mergeLoop order endLeft endRight (store m pt (m ptRight)) (pt + 2) ptLeft (ptRight + 2)
  else some (m, pt, ptLeft, ptRight)
termination_by (endLeft - ptLeft) + (endRight - ptRight)

/-- `simple_mergesort` and `key_mergesort`, which differ in the comparison. It fails on elements that are not
pairs with keys. -/
def mergesort (order : γ → γ → Option ℤ) (pt size myP : ℕ) (m : ℕ → γ) : Option (ℕ → γ) :=
  if 2 < size then
    let halfSize := size / 2
    let ptRight := pt + halfSize * 2
    let leftP := myP ^^^ 1
    let rightP := myP
    (mergesort order pt halfSize leftP m).bind fun m =>
    (mergesort order ptRight (size - halfSize) rightP m).bind fun m =>
    (mergeLoop order (pt + halfSize * 2) (pt + 2 * size) m (pt + myP) (pt + leftP) (ptRight + rightP)).map
      fun (m, pt', ptLeft, ptRight) =>
        let left := copyLoop (pt + halfSize * 2) m pt' ptLeft
        if myP ≠ rightP then (copyLoop (pt + 2 * size) left.1 (pt' + 2 * left.2) ptRight).1 else left.1
  else if 1 < size then
    (order (m pt) (m (pt + 2))).map fun c =>
      if 0 < c then store (store m (pt + 2 + myP) (m pt)) (pt + myP) (m (pt + 2))
      else if myP ≠ 0 then store (store m (pt + 1) (m pt)) (pt + 3) (m (pt + 2))
      else m
  else some (if myP ≠ 0 then store m (pt + 1) (m pt) else m)
termination_by size

/-- The loop of `compact_mergesort`: the number of cells it wrote, and the memory with the positions. -/
def compactLoop (cmp : γ → γ → ℤ) (endLeft endRight : ℕ) (m : ℕ → γ) (size pt ptLeft ptRight : ℕ) :
    ℕ × (ℕ → γ) × ℕ × ℕ × ℕ :=
  if ptLeft < endLeft ∧ ptRight < endRight then
    if cmp (m ptLeft) (m ptRight) < 0 then
      compactLoop cmp endLeft endRight (store m pt (m ptLeft)) (size + 1) (pt + 2) (ptLeft + 2) ptRight
    else if cmp (m ptLeft) (m ptRight) = 0 then
      compactLoop cmp endLeft endRight m size pt (ptLeft + 2) ptRight
    else compactLoop cmp endLeft endRight (store m pt (m ptRight)) (size + 1) (pt + 2) ptLeft (ptRight + 2)
  else (size, m, pt, ptLeft, ptRight)
termination_by (endLeft - ptLeft) + (endRight - ptRight)

/-- The number of cells of the result, and the memory. -/
def compactMergesort (cmp : γ → γ → ℤ) (pt size myP : ℕ) (m : ℕ → γ) : ℕ × (ℕ → γ) :=
  if 2 < size then
    let halfSize := size / 2
    let ptRight := pt + halfSize * 2
    let leftP := myP ^^^ 1
    let rightP := myP
    let (lsize, m) := compactMergesort cmp pt halfSize leftP m
    let (rsize, m) := compactMergesort cmp ptRight (size - halfSize) rightP m
    let (size, m, pt', ptLeft, ptRight) :=
      compactLoop cmp (pt + 2 * lsize) (ptRight + rightP + 2 * rsize) m 0 (pt + myP) (pt + leftP) (ptRight + rightP)
    let left := copyLoop (pt + 2 * lsize) m pt' ptLeft
    let right := copyLoop (pt + halfSize * 2 + rightP + 2 * rsize) left.1 (pt' + 2 * left.2) ptRight
    (size + left.2 + right.2, right.1)
  else if size = 2 then
    if 0 < cmp (m pt) (m (pt + 2)) then
      (2, store (store m (pt + 2 + myP) (m pt)) (pt + myP) (m (pt + 2)))
    else if cmp (m pt) (m (pt + 2)) = 0 then
      (1, if myP ≠ 0 then store m (pt + 1) (m pt) else m)
    else (2, if myP ≠ 0 then store (store m (pt + 1) (m pt)) (pt + 3) (m (pt + 2)) else m)
  else (1, if myP ≠ 0 then store m (pt + 1) (m pt) else m)
termination_by size

end Merge

def simpleMergesort (compareTerms : Term → Term → ℤ) (pt size myP : ℕ) (m : ℕ → Term) : Option (ℕ → Term) :=
  mergesort (fun t0 t1 => some (compareTerms t0 t1)) pt size myP m

/-- The key of an element `Key-Value`. -/
def keyOf : Term → Option Term
  | .appl _ f args => if f = functorMinus then some (args ⟨0, f.arity_pos⟩) else none
  | _ => none

def keyOrder (compareTerms : Term → Term → ℤ) (t0 t1 : Term) : Option ℤ :=
  (keyOf t0).bind fun k0 => (keyOf t1).map fun k1 => compareTerms k0 k1

def keyMergesort (compareTerms : Term → Term → ℤ) (pt size myP : ℕ) (m : ℕ → Term) : Option (ℕ → Term) :=
  mergesort (keyOrder compareTerms) pt size myP m

-- ---------------------------------------------------------------------------
-- The list in the vector
-- ---------------------------------------------------------------------------

/-- A cell of the vector: a term, or the pair whose first cell is at an address. -/
inductive Cell where
  | term (t : Term)
  | absPair (p : Addr)

def adjustLoop (ptf : ℕ) (m : ℕ → Cell) (pt : ℕ) : ℕ → Cell :=
  if pt < ptf then adjustLoop ptf (store m pt (.absPair (pt + 1))) (pt + 2) else store m pt (.term termNil)
termination_by ptf - pt

def adjustVector (pt size : ℕ) (m : ℕ → Term) : Addr → Cell :=
  adjustLoop (pt + 2 * (size - 1)) (fun p => .term (m p)) (pt + 1)

/-- The term that a cell stands for in a memory. -/
inductive Unfolds (m : Addr → Cell) : Cell → Term → Prop
  | term (t : Term) : Unfolds m (.term t) t
  | absPair {p : Addr} {hd tl : Term} : Unfolds m (m p) hd → Unfolds m (m (p + 1)) tl →
      Unfolds m (.absPair p) (.pair p hd tl)

-- ---------------------------------------------------------------------------
-- Predicates
-- ---------------------------------------------------------------------------

/-- What the predicates unify with their second argument: a word and the memory that it is read in. -/
abbrev Answer := Cell × (Addr → Cell)

/-- `p_sort` with the top of the global stack at `hr`; `none` where it fails. -/
def pSort (compareTerms : Term → Term → ℤ) (hr : Addr) (m : Addr → Term) (t : Term) : Option Answer :=
  let built := buildNewList hr t m
  if built.1 < 0 then none
  else if built.1 < 2 then some (.term t, fun p => .term (built.2 p))
  else
    let sorted := compactMergesort compareTerms hr built.1.toNat 0 built.2
    some (.absPair hr, adjustVector hr sorted.1 sorted.2)

/-- `p_msort` and `p_ksort`, which differ in the sort. -/
def sortWith (mergesort : ℕ → ℕ → ℕ → (ℕ → Term) → Option (ℕ → Term)) (hr : Addr) (m : Addr → Term) (t : Term) :
    Option Answer :=
  let built := buildNewList hr t m
  if built.1 < 0 then none
  else if built.1 < 2 then some (.term t, fun p => .term (built.2 p))
  else (mergesort hr built.1.toNat 0 built.2).map fun sorted => (.absPair hr, adjustVector hr built.1.toNat sorted)

def pMsort (compareTerms : Term → Term → ℤ) : Addr → (Addr → Term) → Term → Option Answer :=
  sortWith (simpleMergesort compareTerms)

def pKsort (compareTerms : Term → Term → ℤ) : Addr → (Addr → Term) → Term → Option Answer :=
  sortWith (keyMergesort compareTerms)

/-- The errors of `sort/2` and `keysort/2`. -/
inductive SortError where
  | instantiationError
  | typeErrorList (culprit : Term)

/-- What a call does. -/
inductive Call where
  | raises (e : SortError)
  | fails
  | succeeds (a : Answer)

/-- The test of the first argument in `sort/2` and `keysort/2`, and the call that follows. -/
def checkList (goal : Term → Option Answer) (l : Term) : Call :=
  let rl := (skipList l).2
  if rl = termNil then
    match goal l with
    | none => .fails
    | some a => .succeeds a
  else if rl.isVarTerm then .raises .instantiationError
  else .raises (.typeErrorList l)

def sort (compareTerms : Term → Term → ℤ) (hr : Addr) (m : Addr → Term) (l : Term) : Call :=
  checkList (pSort compareTerms hr m) l

def msort (compareTerms : Term → Term → ℤ) (hr : Addr) (m : Addr → Term) (l : Term) : Call :=
  match pMsort compareTerms hr m l with
  | none => .fails
  | some a => .succeeds a

def keysort (compareTerms : Term → Term → ℤ) (hr : Addr) (m : Addr → Term) (l : Term) : Call :=
  checkList (pKsort compareTerms hr m) l

end Sorting

end Yap
