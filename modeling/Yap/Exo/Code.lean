-- SUMMARY: Indices of predicates whose clauses are tuples: hash functions, insertion, lookup, and the building of an index.
import Yap.Base.Strides
import Yap.Base.Word

/-!
# Exo indices

The functions follow `exo.c`. The clauses of a predicate are tuples of cells, one
behind the other, and an index finds the tuples with given cells in the bound
arguments. Cells are hashed byte by byte, the low byte first. Loops that need not
end get a bound on their turns. Requests for space are granted, and blocks grow and
shrink in place.
-/

namespace Yap

namespace Exo

open Machine

abbrev Bits32 : Type := BitVec 32

/-- The cells of a clause or of the argument registers. -/
abbrev Tuple : Type := List Word

-- ---------------------------------------------------------------------------
-- Hash functions
-- ---------------------------------------------------------------------------

def fnvOffset : Word := 14695981039346656037

def fnvPrime : Word := 1099511628211

/-- The cells of the bound arguments. -/
def boundCells : Tuple → List Bool → List Word
  | c :: cl, bnd :: bnds => if bnd then c :: boundCells cl bnds else boundCells cl bnds
  | _, _ => []

def cellBytes (w : Word) : List (BitVec 8) := (List.range 8).map fun i => (w >>> (8 * i)).setWidth 8

/-- `HASH_FVN_1A`. -/
def hashFvn1a (cl : Tuple) (bnds : List Bool) : Bits32 :=
  (((boundCells cl bnds).flatMap cellBytes).foldl
    (fun hash i => (hash ^^^ i.setWidth 64) * fnvPrime) fnvOffset).setWidth 32

def rotl32 (x : Bits32) (r : ℕ) : Bits32 := (x <<< r) ||| (x >>> (32 - r))

def fmix32 (h : Bits32) : Bits32 :=
  let h := h ^^^ (h >>> 16)
  let h := h * 0x85ebca6b
  let h := h ^^^ (h >>> 13)
  let h := h * 0xc2b2ae35
  h ^^^ (h >>> 16)

/-- What `HASH_MURMUR3_32` does with one byte. The variable `hash` has 64 bits. -/
def murmurByte (hash : Word) (i : BitVec 8) : Word :=
  let k1 : Bits32 := rotl32 (i.setWidth 32 * 0xcc9e2d51) 15 * 0x1b873593
  (rotl32 ((hash ^^^ k1.setWidth 64).setWidth 32) 13).setWidth 64 * 5 + 0xe6546b64

/-- `HASH_MURMUR3_32`. -/
def hashMurmur332 (cl : Tuple) (bnds : List Bool) : Bits32 :=
  let bytes := (boundCells cl bnds).flatMap cellBytes
  fmix32 ((bytes.foldl murmurByte fnvOffset ^^^ BitVec.ofNat 64 bytes.length).setWidth 32)

/-- `NEXT`. The sum with the first bound cell has 64 bits before it is returned. -/
def next (cl : Tuple) (bnds : List Bool) (hash : Bits32) : Bits32 :=
  ((hash + hashMurmur332 cl bnds).setWidth 64 + (boundCells cl bnds).headD 0).setWidth 32

/-- `MATCH`. -/
def match' : Tuple → Tuple → List Bool → Bool
  | c :: clp, k :: kvp, bnd :: bnds => !(bnd && c != k) && match' clp kvp bnds
  | _, _, _ => true

-- ---------------------------------------------------------------------------
-- The index
-- ---------------------------------------------------------------------------

/-- `struct index_t`: the slots, the links between tuples with the same bound cells,
    and the counts of a build. -/
structure Index where
  hsize : ℕ
  key : ℕ → Bits32
  links : ℕ → Bits32
  nentries : ℕ
  ncollisions : ℕ
  ntrys : ℕ
  isKey : Bool

/-- `EXO_ADDRESS_TO_OFFSET`, of a clause by its number. -/
def exoAddressToOffset (n : ℕ) : Bits32 := BitVec.ofNat 32 (n + 1)

section

variable (cls : List Tuple) (bnds : List Bool)

/-- The tuple at `EXO_OFFSET_TO_ADDRESS`, for an offset that is not `0`. -/
def exoOffsetToTuple (off : Bits32) : Tuple := cls.getD (off.toNat - 1) []

/-- `ADD_TO_TRY_CHAIN`, of offsets. -/
def addToTryChain (old new : Bits32) (links : ℕ → Bits32) : ℕ → Bits32 :=
  let tmp := links old.toNat
  if tmp = 0 then Function.update (Function.update links new.toNat new) old.toNat new
  else
    let links := Function.update links new.toNat (links tmp.toNat)
    Function.update (Function.update links tmp.toNat new) old.toNat new

namespace Index

/-- The slot of a hash. -/
def slot (it : Index) (hash : Bits32) : ℕ := hash.toNat % it.hsize

/-- One pass from `next` on in `INSERT`, for the clause with number `n`. -/
def insertTurn (n : ℕ) : Bits32 × Index → Turn (Bits32 × Index) Index
  | (hash, it) =>
    let cl := cls.getD n []
    let kvp := it.key (it.slot hash)
    if kvp = 0 then
      .exit { it with
        nentries := it.nentries + 1
        key := Function.update it.key (it.slot hash) (exoAddressToOffset n) }
    else if match' (exoOffsetToTuple cls kvp) cl bnds then
      .exit { it with
        ntrys := it.ntrys + 1
        links := addToTryChain kvp (exoAddressToOffset n) it.links }
    else .go (next cl bnds hash, { it with ncollisions := it.ncollisions + 1 })

/-- `INSERT`. The remainder by a size of `0` is a fault. -/
def insert (turns : ℕ) (it : Index) (n : ℕ) : Option Index :=
  if it.hsize = 0 then none
  else run (insertTurn cls bnds n) turns (hashFvn1a (cls.getD n []) bnds, it)

/-- The answer of `LOOKUP`: `FAILCODE`, or a clause with the code that goes on to the
    other clauses or that of a last clause. -/
inductive Found where
  | fail
  | more (kvp : ℕ)
  | last (kvp : ℕ)

/-- One pass from `next` on in `LOOKUP`, for the cells in the argument registers. -/
def lookupTurn (it : Index) (xregs : Tuple) (hash : Bits32) : Turn Bits32 Found :=
  let kvp := it.key (it.slot hash)
  if kvp = 0 then .exit .fail
  else if match' (exoOffsetToTuple cls kvp) xregs bnds then
    if !it.isKey && it.links kvp.toNat != 0 then .exit (.more (kvp.toNat - 1))
    else .exit (.last (kvp.toNat - 1))
  else .go (next xregs bnds hash)

/-- `LOOKUP`. -/
def lookup (turns : ℕ) (it : Index) (xregs : Tuple) : Option Found :=
  if it.hsize = 0 then none
  else run (lookupTurn cls bnds it xregs) turns (hashFvn1a xregs bnds)

-- ---------------------------------------------------------------------------
-- Building
-- ---------------------------------------------------------------------------

/-- The chain of a slot pointed to its last tuple, and the last back to the first. -/
def openChain (it : Index) (i : ℕ) : Index :=
  let offset := it.key i
  let last := it.links offset.toNat
  if offset = 0 ∨ last = 0 then it
  else
    { it with
      links := Function.update (Function.update it.links offset.toNat (it.links last.toNat)) last.toNat 0 }

/-- The first loop of `fill_hash`, from the clause with number `n` on. -/
def insertFrom (turns : ℕ) (it : Index) (n : ℕ) : Option Index :=
  (List.range' n (cls.length - n)).foldlM (insert cls bnds turns) it

/-- `fill_hash`. -/
def fillHash (turns : ℕ) (it : Index) : Option Index :=
  (insertFrom cls bnds turns it 0).map fun it => (List.range it.hsize).foldl openChain it

/-- An index without entries. -/
def cleared (hsize : ℕ) (isKey : Bool) : Index := ⟨hsize, fun _ => 0, fun _ => 0, 0, 0, 0, isKey⟩

/-- The table is just too large. -/
def TooLarge (it : Index) : Prop := (it.nentries + it.ncollisions) * 10 < it.hsize

instance (it : Index) : Decidable it.TooLarge := inferInstanceAs (Decidable (_ < _))

/-- The table of the next size that `add_index` tries. -/
def smaller (it : Index) : Index :=
  cleared ((it.nentries + it.ncollisions) * 10) (it.isKey || it.ntrys == 0)

/-- What `add_index` does when a table is filled, with a bound on the sizes tried. -/
def addIndexLoop (turns : ℕ) : ℕ → Index → Option Index
  | 0, _ => none
  | sizes + 1, it =>
    match fillHash cls bnds turns it with
    | none => none
    | some it =>
      if it.TooLarge then addIndexLoop turns sizes it.smaller
      else some { it with isKey := it.isKey || it.ntrys == 0 }

/-- The first table of `add_index`. -/
def start : Index := cleared (2 * cls.length) false

/-- `add_index`, when an argument is bound. -/
def addIndex (turns sizes : ℕ) : Option Index := addIndexLoop cls bnds turns sizes (start cls)

end Index

end

end Exo

end Yap
