-- SUMMARY: The loop of `term_hash`, which copies a term into scratch cells and marks the cells that it is below, with its four exits, and the hash of the copied bytes.
import Yap.OccursCheck.Marks

/-!
# Hashing terms

`hash_complex_term` copies the term into the free cells from `HR`, one encoding for
each kind of word. An argument cell that holds a compound is overwritten with
`TermFoundVar` while the loop is below it. Cells of boxes are read as they are in
memory.
-/

namespace Yap

-- ---------------------------------------------------------------------------
-- States
-- ---------------------------------------------------------------------------

/-- What the loop reads: functor cells, the raw words of boxes, the free cells up to
    `ASP`, the frames up to `AuxSp`, and whether variables are passed over. -/
structure HashContext where
  heap : Heap
  raw : Addr → Word
  asp : ℕ
  auxSp : ℕ
  variant : Bool

/-- `visited_t`: where to return to, what was in the marked cell, and the depth. -/
structure Visited where
  start : Addr
  stop : Addr
  old : MarkedCell
  vdepth : ℤ
deriving DecidableEq

/-- The memory, the cells to copy, the frames, the depth, the scratch cells with the
    next one, and the word that is dereferenced with the cell it has been read from. -/
structure HashState where
  memory : Addr → MarkedCell
  pt0 : Addr
  pt0End : Addr
  toVisit : List Visited
  depth : ℤ
  scratch : ℕ → Word
  st : ℕ
  d0 : Option (Addr × MarkedCell)

/-- How the loop is left: the scratch cells with the end of the copy, `NULL`, -1 or -2. -/
inductive HashExit where
  | done (scratch : ℕ → Word) (st : ℕ)
  | unbound
  | auxOverflow
  | globalOverflow

/-- The term is to be hashed again with more space. -/
def HashExit.IsOverflow : HashExit → Prop
  | auxOverflow | globalOverflow => True
  | _ => False

-- ---------------------------------------------------------------------------
-- Copying words
-- ---------------------------------------------------------------------------

/-- A word of bytes, the lowest first. -/
def wordOfBytes (bs : List UInt8) : Word := BitVec.ofNat 64 (bs.foldr (fun b n => b.toNat + 256 * n) 0)

/-- The words of a name, the last one filled up with zeros. -/
def nameWords (bs : List UInt8) : List Word :=
  (List.range ((bs.length + 7) / 8)).map fun i => wordOfBytes ((bs.drop (8 * i)).take 8)

/-- The words that `addAtomToHash` appends. -/
def addAtomToHash (a : Atom) : List Word := nameWords a.strOfAE.bytes

/-- The bits of a double. -/
def doubleWord (x : Binary64) : Word := BitVec.ofNat 64 ((if x.neg then 2 ^ 63 else 0) + x.mag)

/-- `FunctorDBRef`. -/
def functorDBRef : Word := 8

/-- Writes words from a scratch cell on. -/
def writeWords (scratch : ℕ → Word) (st : ℕ) (ws : List Word) (i : ℕ) : Word :=
  if st ≤ i then (ws[i - st]?).getD (scratch i) else scratch i

/-- Writes the low byte of a scratch cell. -/
def writeByte (scratch : ℕ → Word) (st : ℕ) (w : Word) : ℕ → Word :=
  Function.update scratch st ((scratch st &&& ~~~0xff) ||| (w &&& 0xff))

/-- Consecutive words of a box. -/
def rawWords (raw : Addr → Word) (p n : ℕ) : List Word := (List.range' p n).map raw

/-- `_mp_alloc` of the number in a box. -/
def mpAlloc (raw : Addr → Word) (p : Addr) : ℕ := ((raw (p + 2)).truncate 32).toNat

/-- The length of a string in cells, as its box has it. -/
def stringCells (raw : Addr → Word) (p : Addr) : ℕ := (raw (p + 1)).toNat

namespace HashState

def next (st : HashState) : HashState := { st with pt0 := st.pt0 + 1, d0 := none }

/-- Appends words to the copy. -/
def put (st : HashState) (ws : List Word) : HashState :=
  { st with scratch := writeWords st.scratch st.st ws, st := st.st + ws.length }

/-- The number in a box: the words after the functor go to the cell after the next one,
    and one byte more, and the copy ends before the last word. -/
def putBigInt (st : HashState) (raw : Addr → Word) (p : Addr) : HashState :=
  let n := 2 + mpAlloc raw p
  { st with
    scratch := writeByte (writeWords st.scratch (st.st + 1) (rawWords raw (p + 1) n)) (st.st + 1 + n) (raw (p + 1 + n))
    st := st.st + n }

/-- Marks the cell and goes to the arguments of its word. -/
def descend (st : HashState) (l : Addr) (n : ℕ) : HashState :=
  { st with
    memory := Function.update st.memory st.pt0 .foundVar
    pt0 := l
    pt0End := l + n
    toVisit := ⟨st.pt0, st.pt0End, st.memory st.pt0, st.depth⟩ :: st.toVisit
    depth := st.depth - 1
    d0 := none }

/-- Returns to the cell after a marked one. -/
def ret (st : HashState) (fr : Visited) (toVisit : List Visited) : HashState :=
  { st with
    memory := Function.update st.memory fr.start fr.old
    pt0 := fr.start + 1
    pt0End := fr.stop
    toVisit := toVisit
    depth := fr.vdepth
    d0 := none }

/-- Writes back what the stack keeps. -/
def unwind (st : HashState) : Addr → MarkedCell :=
  Trail.rewind (st.toVisit.map fun fr => (fr.start, fr.old)) st.memory

-- ---------------------------------------------------------------------------
-- The loop
-- ---------------------------------------------------------------------------

variable (cx : HashContext)

/-- The arguments of a compound, if the depth and the frames allow it. -/
def visit (st : HashState) (margin : ℕ) (l : Addr) (n : ℕ) : Turn HashState (HashExit × (Addr → MarkedCell)) :=
  if st.depth = 1 then .go st.next
  else if cx.auxSp ≤ st.toVisit.length + margin then .exit (.auxOverflow, st.unwind)
  else .go (st.descend l n)

/-- A box. -/
def box (st : HashState) (p : Addr) : Blob → Turn HashState (HashExit × (Addr → MarkedCell))
  | .dbRef => .go (st.put [functorDBRef]).next
  | .longInt n => .go (st.put [n.val]).next
  | .string _ => .go (st.put (rawWords cx.raw p (3 + stringCells cx.raw p))).next
  | .bigInt _ =>
    if cx.asp ≤ st.st + (1024 + (2 + mpAlloc cx.raw p)) then .exit (.globalOverflow, st.unwind)
    else .go (st.putBigInt cx.raw p).next
  | .double x => .go (st.put [doubleWord x]).next

/-- A word that is not a reference. -/
def word (st : HashState) : Nonvar → Turn HashState (HashExit × (Addr → MarkedCell))
  | .int n => .go (st.put [n.signExtend 64]).next
  | .atom a => .go (st.put (addAtomToHash a)).next
  | .pair p => (st.put (addAtomToHash atomDot)).visit cx 256 p 2
  | .appl p =>
    match cx.heap.functorAt p with
    | .functor f => (st.put (addAtomToHash f.nameOfFE)).visit cx 1024 (p + 1) f.arityOfFE
    | .blob b => st.box cx p b

/-- One turn of `hash_complex_term`; following a reference is a turn. -/
def turn (st : HashState) : Turn HashState (HashExit × (Addr → MarkedCell)) :=
  match st.d0 with
  | none =>
    if st.pt0 < st.pt0End then .go { st with d0 := some (st.pt0, st.memory st.pt0) }
    else
      match st.toVisit with
      | [] => .exit (.done st.scratch st.st, st.memory)
      | fr :: toVisit => .go (st.ret fr toVisit)
  | some (ptd0, .cell (.ref a)) =>
    if a = ptd0 then if cx.variant then .go st.next else .exit (.unbound, st.memory)
    else .go { st with d0 := some (a, st.memory a) }
  | some (_, .cell (.nonvar d)) =>
    if cx.asp ≤ st.st + 1024 then .exit (.globalOverflow, st.unwind) else st.word cx d
  | some (_, .foundVar) => if cx.asp ≤ st.st + 1024 then .exit (.globalOverflow, st.unwind) else .go st.next

/-- The loop at the `n` cells from `l`. -/
def init (m : Addr → MarkedCell) (l : Addr) (n : ℕ) (depth : ℤ) (scratch : ℕ → Word) : HashState :=
  ⟨m, l, l + n, [], depth, scratch, 0, none⟩

end HashState

/-- `hash_complex_term` on the `n` cells from `l`: how it is left, and the memory then. -/
def hashComplexTerm (cx : HashContext) (m : Addr → MarkedCell) (l : Addr) (n : ℕ) (depth : ℤ) (scratch : ℕ → Word) :
    HashExit × (Addr → MarkedCell) → Prop :=
  Machine.Returns (HashState.turn cx) (.init m l n depth scratch)

-- ---------------------------------------------------------------------------
-- The hash
-- ---------------------------------------------------------------------------

/-- The factor `m` of `MurmurHashNeutral2`. -/
def murmurFactor : BitVec 32 := 0x5bd1e995

/-- The loop over four bytes at a time, and the bytes that are left. -/
def murmurLoop (h : BitVec 32) : List (BitVec 8) → BitVec 32
  | a :: b :: c :: d :: data =>
    let k : BitVec 32 := a.setWidth 32 ||| b.setWidth 32 <<< 8 ||| c.setWidth 32 <<< 16 ||| d.setWidth 32 <<< 24
    let k := k * murmurFactor
    let k := (k ^^^ k >>> 24) * murmurFactor
    murmurLoop (h * murmurFactor ^^^ k) data
  | [a, b, c] => (h ^^^ c.setWidth 32 <<< 16 ^^^ b.setWidth 32 <<< 8 ^^^ a.setWidth 32) * murmurFactor
  | [a, b] => (h ^^^ b.setWidth 32 <<< 8 ^^^ a.setWidth 32) * murmurFactor
  | [a] => (h ^^^ a.setWidth 32) * murmurFactor
  | [] => h

/-- `MurmurHashNeutral2`; a negative length reads nothing. -/
def murmurHashNeutral2 (key : List (BitVec 8)) (len seed : BitVec 32) : BitVec 32 :=
  let h := murmurLoop (seed ^^^ len) (key.take len.toInt.toNat)
  let h := (h ^^^ h >>> 13) * murmurFactor
  h ^^^ h >>> 15

/-- The bytes of a word, the lowest first. -/
def wordBytes (w : Word) : List (BitVec 8) := (List.range 8).map fun i => w.extractLsb' (8 * i) 8

/-- The hash of the scratch cells before `st`. -/
def hashScratch (scratch : ℕ → Word) (st : ℕ) : BitVec 32 :=
  murmurHashNeutral2 (((List.range st).map scratch).flatMap wordBytes) (BitVec.ofNat 32 (8 * st)) 0x1a3be34a

-- ---------------------------------------------------------------------------
-- The predicate
-- ---------------------------------------------------------------------------

/-- How `p_term_hash` ends: with an error for the depth or the size, for want of
    resources, with `TRUE` or `FALSE`, or with the unification of `ARG4` and a number. -/
inductive HashAnswer where
  | instantiationError
  | typeErrorInteger
  | resourceError
  | succeed
  | fail
  | unify (n : ℤ)
deriving DecidableEq

/-- A call of `hash_complex_term`: what it reads, the store with the cell of `t1`, and
    what the scratch cells hold. -/
structure HashAttempt where
  context : HashContext
  store : Store
  root : Addr
  scratch : ℕ → Word

/-- How the call is left, and the memory then. Variables are not passed over. -/
def HashAttempt.Returns (w : HashAttempt) (depth : ℤ) : HashExit × (Addr → MarkedCell) → Prop :=
  hashComplexTerm { w.context with variant := false } w.store.unmarked w.root 1 depth w.scratch

/-- The loop of `p_term_hash`. After an overflow the term is hashed again, as the
    collector or the larger stack leaves it. -/
inductive TermHashLoop (depth size : ℤ) : List HashAttempt → HashAnswer → Prop
  | hashed {w : HashAttempt} {ws : List HashAttempt} {scratch : ℕ → Word} {st : ℕ} {m : Addr → MarkedCell} :
      w.Returns depth (.done scratch st, m) →
      TermHashLoop depth size (w :: ws) (.unify (((hashScratch scratch st).toNat : ℤ).tmod size))
  | unbound {w : HashAttempt} {ws : List HashAttempt} {m : Addr → MarkedCell} :
      w.Returns depth (.unbound, m) → TermHashLoop depth size (w :: ws) .fail
  | again {w : HashAttempt} {ws : List HashAttempt} {e : HashExit} {m : Addr → MarkedCell} {answer : HashAnswer} :
      e.IsOverflow → w.Returns depth (e, m) → TermHashLoop depth size ws answer →
      TermHashLoop depth size (w :: ws) answer
  | exhausted : TermHashLoop depth size [] .resourceError

/-- `IntegerOfTerm`, of an integer. -/
def Nonvar.integerOfTerm (hp : Heap) : Nonvar → Option ℤ
  | .int n => some n.toInt
  | .appl p =>
    match hp.functorAt p with
    | .blob (.longInt n) => some n.val.toInt
    | _ => none
  | _ => none

/-- The checks of an argument that is to be an integer. -/
def HashAttempt.integerArgument (w : HashAttempt) (t : Cell) : Except HashAnswer ℤ :=
  match w.store.deref t with
  | .ref _ => .error .instantiationError
  | .nonvar d => (d.integerOfTerm w.context.heap).elim (.error .typeErrorInteger) .ok

/-- `p_term_hash` with the depth `t2` and the size `t3`, and the calls that it can make. -/
inductive PTermHash (t2 t3 : Cell) (w : HashAttempt) (ws : List HashAttempt) : HashAnswer → Prop
  | depthError {e : HashAnswer} : w.integerArgument t2 = .error e → PTermHash t2 t3 w ws e
  | depthZeroVar {v : Addr} : w.integerArgument t2 = .ok 0 → w.store.deref (.ref w.root) = .ref v →
      PTermHash t2 t3 w ws .succeed
  | depthZero {d : Nonvar} : w.integerArgument t2 = .ok 0 → w.store.deref (.ref w.root) = .nonvar d →
      PTermHash t2 t3 w ws (.unify 0)
  | sizeError {depth : ℤ} {e : HashAnswer} : w.integerArgument t2 = .ok depth → depth ≠ 0 →
      w.integerArgument t3 = .error e → PTermHash t2 t3 w ws e
  | hash {depth size : ℤ} {answer : HashAnswer} : w.integerArgument t2 = .ok depth → depth ≠ 0 →
      w.integerArgument t3 = .ok size → TermHashLoop depth size (w :: ws) answer → PTermHash t2 t3 w ws answer

end Yap
