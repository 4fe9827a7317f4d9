-- SUMMARY: Boxed terms as the cells that their constructors write, the equality of boxes, and the keys that clause indexing computes from the cells.
import Yap.Unify.Code

/-!
# Boxes and their index keys

The functions follow `TermExt.h` and `bignum.c`. A constructor is modelled by the
word that it leaves in each cell of the box, from the word that was there: some
cells are not written, and the last cell of a text may be written in part. The
cells are numbered; a number is read from the memory that GMP keeps it in.
-/

namespace Yap.Boxes

open Tags

-- ---------------------------------------------------------------------------
-- Constants
-- ---------------------------------------------------------------------------

def functorDouble : Word := 3 * 8
def functorBigInt : Word := 5 * 8
def functorString : Word := 6 * 8

/-- `BIG_INT` and `BIG_RATIONAL`. -/
def bigIntTag : Word := 1
def bigRationalTag : Word := 2

-- ---------------------------------------------------------------------------
-- Texts
-- ---------------------------------------------------------------------------

/-- A word after bytes were copied to its beginning. -/
def copyBytes (w : Word) (bytes : List UInt8) : Word :=
  BitVec.ofFnLE fun t : Fin 64 =>
    match bytes[t.val / 8]? with
    | some b => b.toBitVec.getLsbD (t % 8)
    | none => w.getLsbD t

/-- The cell that `strcpy` leaves, so many cells after the first. -/
def strcpyCell (s : CString) (i : ℕ) (w : Word) : Word := copyBytes w ((s.bytes ++ [0]).drop (8 * i))

/-- `ALIGN_BY_TYPE(n, CELL)`. -/
def alignByCell (n : ℕ) : ℕ := (n + 7) / 8 * 8

/-- The size that is stored with a text. It counts bytes, and as many cells follow. -/
def stringSize (s : CString) : ℕ := if s.bytes = [] then 8 else alignByCell (s.bytes.length + 1)

/-- `__MkStringTerm`: what it leaves in `HR[i]`. -/
def stringCell (s : CString) (i : ℕ) (w : Word) : Word :=
  if i = 0 then functorString
  else if i = 1 then BitVec.ofNat 64 (stringSize s)
  else if i = 2 + stringSize s then endSpecials
  else if s.bytes = [] then if i = 2 then 0 else w
  else strcpyCell s (i - 2) w

-- ---------------------------------------------------------------------------
-- Numbers
-- ---------------------------------------------------------------------------

/-- The limbs of a number, the least significant first. -/
def limbs (z : ℤ) : List ℕ := Nat.digits (2 ^ 64) z.natAbs

/-- An `MP_INT` with a value: `_mp_alloc`, and the limbs that are allocated and not
    in use. -/
structure MpInt (z : ℤ) where
  alloc : ℕ
  spare : ℕ → Word
  enough : (limbs z).length ≤ alloc
  is_int : alloc < 2 ^ 31

/-- The cell of `_mp_alloc` and `_mp_size`. -/
def mpHeader (alloc : ℕ) (size : ℤ) : Word := BitVec.ofInt 32 size ++ BitVec.ofNat 32 alloc

/-- `_mp_size`. -/
def mpSize (z : ℤ) : ℤ := z.sign * (limbs z).length

namespace MpInt

variable {z : ℤ}

/-- `_mp_d[i]`. -/
def limb (mp : MpInt z) (i : ℕ) : Word := ((limbs z)[i]?).elim (mp.spare i) (BitVec.ofNat 64)

def header (mp : MpInt z) : Word := mpHeader mp.alloc (mpSize z)

end MpInt

/-- `Yap_MkBigIntTerm`: what it leaves in `HR[i]`. It does not write `_mp_d`. -/
def bigIntCell {z : ℤ} (big : MpInt z) (i : ℕ) (w : Word) : Word :=
  if i = 0 then functorBigInt
  else if i = 1 then bigIntTag
  else if i = 2 then big.header
  else if i = 3 then w
  else if i < 4 + big.alloc then big.limb (i - 4)
  else if i = 4 + big.alloc then endSpecials
  else w

/-- `Yap_MkBigRatTerm`: what it leaves in `HR[i]`. The numerator and the denominator
    follow an `MP_INT` that stands for the space they take. -/
def bigRatCell {n d : ℤ} (num : MpInt n) (den : MpInt d) (i : ℕ) (w : Word) : Word :=
  if i = 0 then functorBigInt
  else if i = 1 then bigRationalTag
  else if i = 2 then mpHeader (4 + num.alloc + den.alloc) 0
  else if i = 4 then num.header
  else if i = 6 then den.header
  else if i = 3 ∨ i = 5 ∨ i = 7 then w
  else if i < 8 + num.alloc then num.limb (i - 8)
  else if i < 8 + num.alloc + den.alloc then den.limb (i - (8 + num.alloc))
  else if i = 8 + num.alloc + den.alloc then endSpecials
  else w

/-- `__MkLongIntTerm` and `__MkFloatTerm`: what they leave in `HR[i]`. -/
def wordCell (f v : Word) (i : ℕ) (w : Word) : Word :=
  if i = 0 then f else if i = 1 then v else if i = 2 then endSpecials else w

-- ---------------------------------------------------------------------------
-- Boxes
-- ---------------------------------------------------------------------------

/-- What a box is made from. A double is the word of its bits. -/
inductive Box where
  | longInt (i : Word)
  | double (dbl : Word)
  | string (s : CString)
  | bigInt (z : BigInt) (big : MpInt z.val)
  | bigRat (q : BigRat) (num : MpInt q.val.num) (den : MpInt q.val.den)

namespace Box

/-- What the constructor leaves in `HR[i]`. -/
def cell : Box → ℕ → Word → Word
  | .longInt i => wordCell functorLongInt i
  | .double dbl => wordCell functorDouble dbl
  | .string s => stringCell s
  | .bigInt _ big => bigIntCell big
  | .bigRat _ num den => bigRatCell num den

/-- The cells by which the constructor moves `HR`. -/
def size : Box → ℕ
  | .longInt _ | .double _ => 3
  | .string s => 3 + stringSize s
  | .bigInt _ big => 5 + big.alloc
  | .bigRat _ num den => 9 + num.alloc + den.alloc

/-- The box is at `p`: its cells are as the constructor leaves them, where the cells
    that it does not write hold anything. -/
def At (b : Box) (m : ℕ → Word) (p : ℕ) : Prop := ∀ i < b.size, b.cell i (m (p + i)) = m (p + i)

/-- `unify_extension`, for two boxes with one functor. -/
def unifyExtension : Box → Box → Bool
  | .longInt i, .longInt j => i = j
  | .double x, .double y => x = y
  | .string s, .string t => strcmp s t = 0
  | .bigInt z _, .bigInt z' _ => gmpTcmpBigBig (.int z) (.int z') = 0
  | .bigInt z _, .bigRat q _ _ => gmpTcmpBigBig (.int z) (.rat q) = 0
  | .bigRat q _ _, .bigInt z _ => gmpTcmpBigBig (.rat q) (.int z) = 0
  | .bigRat q _ _, .bigRat q' _ _ => gmpTcmpBigBig (.rat q) (.rat q') = 0
  | _, _ => false

end Box

-- ---------------------------------------------------------------------------
-- Keys
-- ---------------------------------------------------------------------------

variable (m : ℕ → Word)

/-- The key of a word. -/
def keyOf (val : Word) : Word := Tags.mkIntTerm (val &&& (maxAbsInt - 1))

/-- `Yap_BigIntOfTerm`: the cell of the `MP_INT`. -/
def bigIntOfTerm (p : ℕ) : ℕ := p + 2

/-- `Yap_IntP_key`. The first cell behind the `MP_INT` is read. -/
def intPKey (pt : ℕ) : Word :=
  if m (pt - 1) = functorBigInt then keyOf (m (bigIntOfTerm (pt - 1) + 2)) else keyOf (m pt)

/-- `Yap_Int_key`. -/
def intKey (p : ℕ) : Word := intPKey m (p + 1)

/-- `Yap_DoubleP_key`. -/
def doublePKey (pt : ℕ) : Word := keyOf (m pt)

/-- `Yap_Double_key`. -/
def doubleKey (p : ℕ) : Word := doublePKey m (p + 1)

/-- `val` after so many turns of the loop of `Yap_StringP_key`. -/
def xorCells (pt : ℕ) : ℕ → Word
  | 0 => m (pt + 2)
  | i + 1 => xorCells pt i ^^^ m (pt + (i + 2))

/-- `Yap_StringP_key`. -/
def stringPKey (pt : ℕ) : Word :=
  let n := m (pt + 1)
  keyOf (xorCells m pt (n.toNat - 1))

/-- `Yap_String_key`. -/
def stringKey (p : ℕ) : Word := stringPKey m (p + 1)

/-- The key of the box at `p`, chosen by its functor as `install_clause` does. -/
def key (p : ℕ) : Word :=
  if m p = functorDouble then doubleKey m p
  else if m p = functorString then stringKey m p
  else intKey m p

end Yap.Boxes
