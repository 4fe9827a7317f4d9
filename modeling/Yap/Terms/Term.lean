-- SUMMARY: Terms as the trees of cells they unfold to: functors, atoms, boxed values in normal form, type tests, preorder traversal and structural identity.
import Yap.Base.Binary64
import Yap.Terms.Tags

/-!
# Terms

A term is modelled as the tree that its word unfolds to in the heap. Every boxed
or compound node carries the address of its first cell, so two words of one heap
are equal exactly when the trees they unfold to are: equality of trees is the
test `t1 == t2` of the code. Structural identity forgets the addresses.
-/

namespace Yap

/-- The index of a cell. -/
abbrev Addr : Type := ℕ

-- ---------------------------------------------------------------------------
-- Atoms and functors
-- ---------------------------------------------------------------------------

/-- A NUL-terminated string: the bytes before the terminator. -/
@[ext]
structure CString where
  bytes : List UInt8
  nul_free : 0 ∉ bytes
deriving DecidableEq

theorem nul_free_f : (0 : UInt8) ∉ [102] := by decide

/-- `strcmp`: the difference of the first bytes that differ. -/
def strcmpBytes : List UInt8 → List UInt8 → ℤ
  | [], [] => 0
  | [], b :: _ => -b.toNat
  | a :: _, [] => a.toNat
  | a :: as, b :: bs => if a = b then strcmpBytes as bs else (a.toNat : ℤ) - b.toNat

def strcmp (s t : CString) : ℤ := strcmpBytes s.bytes t.bytes

/-- An atom is its entry in the atom table, found by name. -/
@[ext]
structure Atom where
  strOfAE : CString
deriving DecidableEq

/-- `cmp_atoms`. -/
def cmpAtoms (a1 a2 : Atom) : ℤ := strcmp a1.strOfAE a2.strOfAE

/-- `AtomDot`. -/
def atomDot : Atom := ⟨[46], by decide⟩

/-- A functor of an `Appl` term. `Yap_MkApplTerm` builds an atom when the arity
    is 0 and a pair when the functor is `FunctorList`. -/
@[ext]
structure Functor where
  nameOfFE : Atom
  arityOfFE : ℕ
  arity_pos : 0 < arityOfFE
  not_list : ¬ (nameOfFE = atomDot ∧ arityOfFE = 2)
deriving DecidableEq

-- ---------------------------------------------------------------------------
-- Boxed values
-- ---------------------------------------------------------------------------

/-- The value of a `LongInt` box, one that the field of a tagged integer cannot
    hold. -/
structure LongInt where
  val : Word
  out_of_field : ¬ Tags.InField val.toInt
deriving DecidableEq

/-- The value of a `BIG_INT` box, one that a word cannot hold. -/
structure BigInt where
  val : ℤ
  not_word : ¬ Word.Fits val
deriving DecidableEq

/-- The value of a `BIG_RATIONAL` box, in lowest terms and not an integer. -/
structure BigRat where
  val : ℚ
  not_integer : val.den ≠ 1
deriving DecidableEq

/-- The contents of a `FunctorBigInt` box, told apart by its second cell. -/
inductive BigNum where
  | int (z : BigInt)
  | rat (q : BigRat)
deriving DecidableEq

/-- The contents of a box, told apart by its functor cell. A database reference
    has no contents: it is the address of its entry. -/
inductive Blob where
  | dbRef
  | double (d : Binary64)
  | longInt (n : LongInt)
  | bigInt (b : BigNum)
  | string (s : CString)
deriving DecidableEq

-- ---------------------------------------------------------------------------
-- Terms
-- ---------------------------------------------------------------------------

/-- A dereferenced term and everything below it. -/
inductive Term where
  | var (v : Addr)
  | int (n : BitVec 58)
  | atom (a : Atom)
  | pair (p : Addr) (head tail : Term)
  | appl (p : Addr) (f : Functor) (args : Fin f.arityOfFE → Term)
  | blob (p : Addr) (b : Blob)

namespace Term

/-- The kinds of terms, boxes by their contents. -/
@[elab_as_elim]
theorem kindCases {motive : Term → Prop} (var : ∀ v, motive (.var v))
    (int : ∀ n, motive (.int n)) (atom : ∀ a, motive (.atom a))
    (pair : ∀ p h t, motive (.pair p h t)) (appl : ∀ p f as, motive (.appl p f as))
    (dbRef : ∀ p, motive (.blob p .dbRef)) (double : ∀ p x, motive (.blob p (.double x)))
    (longInt : ∀ p n, motive (.blob p (.longInt n)))
    (bigInt : ∀ p z, motive (.blob p (.bigInt (.int z))))
    (bigRat : ∀ p q, motive (.blob p (.bigInt (.rat q))))
    (string : ∀ p s, motive (.blob p (.string s))) : ∀ t, motive t
  | .var v => var v
  | .int n => int n
  | .atom a => atom a
  | .pair p h t => pair p h t
  | .appl p f as => appl p f as
  | .blob p .dbRef => dbRef p
  | .blob p (.double x) => double p x
  | .blob p (.longInt n) => longInt p n
  | .blob p (.bigInt (.int z)) => bigInt p z
  | .blob p (.bigInt (.rat q)) => bigRat p q
  | .blob p (.string s) => string p s

/-- Equality of words, computed on the trees they unfold to. -/
def beq : Term → Term → Bool
  | .var v, .var w => v = w
  | .int m, .int n => m = n
  | .atom a, .atom b => a = b
  | .pair p h t, .pair q h' t' => p = q && beq h h' && beq t t'
  | .appl p f args, .appl q g args' =>
    if hfg : f = g then
      decide (p = q) && decide (∀ i, beq (args i) (args' (i.cast (by rw [hfg]))) = true)
    else false
  | .blob p b, .blob q c => p = q && b = c
  | _, _ => false

theorem beq_iff_eq (t u : Term) : beq t u = true ↔ t = u := by
  induction t generalizing u with
  | var | int | atom | blob => cases u <;> simp [beq]
  | pair p h t ihh iht => cases u <;> simp [beq, ihh, iht, and_assoc]
  | appl p f args ih =>
    cases u with
    | appl q g args' =>
      by_cases hfg : f = g
      · subst hfg
        simp [beq, ih, funext_iff]
      · simp [beq, hfg]
    | _ => simp [beq]

instance : DecidableEq Term := fun t u => decidable_of_iff _ (beq_iff_eq t u)

-- ---------------------------------------------------------------------------
-- Type tests
-- ---------------------------------------------------------------------------

def isVarTerm : Term → Bool
  | .var _ => true
  | _ => false

def isIntTerm : Term → Bool
  | .int _ => true
  | _ => false

def isAtomOrIntTerm : Term → Bool
  | .int _ | .atom _ => true
  | _ => false

/-- `IsBlobFunctor` holds of every functor of a box. -/
def isPrimitiveTerm : Term → Bool
  | .int _ | .atom _ | .blob _ _ => true
  | _ => false

def isLongIntTerm : Term → Bool
  | .blob _ (.longInt _) => true
  | _ => false

def isIntegerTerm (t : Term) : Bool := t.isIntTerm || t.isLongIntTerm

/-- `p_is_bignum`: a `BIG_INT` box. -/
def isBignum : Term → Bool
  | .blob _ (.bigInt (.int _)) => true
  | _ => false

/-- A `BIG_RATIONAL` box. -/
def isBigRat : Term → Bool
  | .blob _ (.bigInt (.rat _)) => true
  | _ => false

/-- `p_is_rational`. -/
def isRational : Term → Bool
  | .int _ | .blob _ (.longInt _) | .blob _ (.bigInt _) => true
  | _ => false

-- ---------------------------------------------------------------------------
-- Traversal
-- ---------------------------------------------------------------------------

/-- The arguments of a compound term, head and tail for a pair. -/
def args : Term → List Term
  | .pair _ h t => [h, t]
  | .appl _ _ as => List.ofFn as
  | _ => []

theorem appl_args_ne_nil (p : Addr) (f : Functor) (as : Fin f.arityOfFE → Term) :
    (appl p f as).args ≠ [] := by
  rw [args, ne_eq, List.ofFn_eq_nil_iff]
  exact f.arity_pos.ne'

/-- The subterms in the order of a depth-first, left-to-right walk. -/
def cells : Term → List Term
  | .pair p h t => .pair p h t :: (cells h ++ cells t)
  | .appl p f as => .appl p f as :: (List.ofFn fun i => cells (as i)).flatten
  | t => [t]

/-- The subterms of a block of cells. -/
def blockCells (ts : List Term) : List Term := ts.flatMap cells

@[simp] theorem blockCells_nil : blockCells [] = [] := rfl

@[simp] theorem blockCells_cons (t : Term) (ts : List Term) :
    blockCells (t :: ts) = t.cells ++ blockCells ts := rfl

/-- A walk visits the term itself and then its arguments. -/
theorem cells_eq (t : Term) : t.cells = t :: blockCells t.args := by
  cases t with
  | pair p h t => simp [cells, args]
  | appl p f as => simp [cells, args, blockCells, List.flatMap, List.map_ofFn, Function.comp_def]
  | _ => rfl

/-- Induction along the arguments of a term. -/
theorem args_induction {motive : Term → Prop}
    (h : ∀ t, (∀ u ∈ t.args, motive u) → motive t) (t : Term) : motive t := by
  induction t with
  | pair p hd tl ihh iht => exact h _ (by simp [args, ihh, iht])
  | appl p f as ih => exact h _ (by simpa [args, List.mem_ofFn] using ih)
  | _ => exact h _ (by simp [args])

-- ---------------------------------------------------------------------------
-- Structural identity
-- ---------------------------------------------------------------------------

/-- The term without the places of its boxes and compounds. The address of a
    variable or of a database reference is its identity and stays. -/
def erase : Term → Term
  | .pair _ h t => .pair 0 h.erase t.erase
  | .appl _ f as => .appl 0 f fun i => (as i).erase
  | .blob p .dbRef => .blob p .dbRef
  | .blob _ b => .blob 0 b
  | t => t

/-- Structural identity: the terms are equal up to the places of their cells. -/
def Identical (t u : Term) : Prop := t.erase = u.erase

end Term

-- ---------------------------------------------------------------------------
-- Machine integers
-- ---------------------------------------------------------------------------

def mkIntTerm (n : Word) : Term := .int (n.setWidth 58)

def intOfTerm (n : BitVec 58) : Word := n.signExtend 64

/-- `MkLongIntTerm`, with the box at `hr`. -/
def mkLongIntTerm (hr : Addr) (n : LongInt) : Term := .blob hr (.longInt n)

theorem not_inField_of_not_intInBnd {n : Word} (h : ¬ Tags.intInBnd n = true) :
    ¬ Tags.InField n.toInt := by
  rw [Tags.intInBnd_iff] at h
  simp only [Tags.InField]
  omega

/-- `MkIntegerTerm`, with the box, if any, at `hr`. -/
def mkIntegerTerm (hr : Addr) (n : Word) : Term :=
  if h : Tags.intInBnd n = true then mkIntTerm n
  else mkLongIntTerm hr ⟨n, not_inField_of_not_intInBnd h⟩

/-- The tagged integers are the words of the tag scheme. -/
theorem mkIntTerm_taggedWord (n : Word) :
    Tags.mkIntTerm n = Tags.taggedWord (n.setWidth 58) ∧
      Tags.intOfTerm (Tags.taggedWord (n.setWidth 58)) = intOfTerm (n.setWidth 58) :=
  ⟨Tags.mkIntTerm_eq n, Tags.intOfTerm_taggedWord _⟩

end Yap
