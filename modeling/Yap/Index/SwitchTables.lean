-- SUMMARY: The switch tables of an index: their sizes, how the compiler fills them with constants or functors, and how the emulator looks keys up in them.
import Yap.Base.Machine
import Yap.Index.Clauses

/-!
# Switch tables

The functions follow `index.c`, `amasm.c` and `index_absmi_insts.h`. A table is an
array of cells: two for an entry, its tag and its label. The compiler counts in
entries, the emulator in cells. Arithmetic on signed integers that leaves their type
has no result, and neither has the value of a `COUNT` as an `int` when it is none.

A probe that comes to no end within as many steps as the table has entries comes to
none at all: the loops below stop with no result then.
-/

namespace Yap.Indexing

open Tags Machine

-- ---------------------------------------------------------------------------
-- Sizes
-- ---------------------------------------------------------------------------

def minHashEntries : ℕ := 4

def hashShift : ℕ := 6

/-- The loop `while (cases < n) cases *= 2`, in a type with room for so many doublings. -/
def doubleUntil (n : ℕ) : ℕ → ℕ → Option ℕ
  | 0, cases => if cases < n then none else some cases
  | room + 1, cases => if cases < n then doubleUntil n room (2 * cases) else some cases

/-- The number of entries of a hash table, where `n` has `nBits` bits and `cases` has `casesBits`. -/
def hashCases (nBits casesBits n : ℕ) : Option ℕ :=
  if n + 1 + n / 4 < 2 ^ (nBits - 1) then doubleUntil (n + 1 + n / 4) (casesBits - 4) minHashEntries else none

-- ---------------------------------------------------------------------------
-- Tables
-- ---------------------------------------------------------------------------

/-- The cells of a table. -/
abbrev Cells : Type := ℕ → Word

/-- The tag and the label of an entry. -/
def Cells.setEntry (cells : Cells) (e : ℕ) (tag label : Word) : Cells :=
  Function.update (Function.update cells (2 * e) tag) (2 * e + 1) label

/-- `switch_c_op` and `switch_f_op`, or `if_c_op` and `if_f_op`. -/
inductive SwitchOp where
  | switch
  | if_
deriving DecidableEq

/-- An instruction with its table. -/
structure Switch where
  op : SwitchOp
  s : ℕ
  l : Cells

/-- The tables start with the cells that were in their space. Hash tables get a tag and a
    label in every entry, others the labels, and a tag in the last entry. -/
def emitSwitch (casesBits n : ℕ) (failL : Word) (space : Cells) : Option Switch :=
  if minHashEntries < n then
    (hashCases 64 casesBits n).map fun n =>
      { op := .switch, s := n, l := fun c => if c < 2 * n then (if c % 2 = 0 then 0 else failL) else space c }
  else
    some
      { op := .if_, s := n
        l := fun c =>
          if c = 2 * n then 0 else if c % 2 = 1 ∧ c ≤ 2 * n + 1 then failL else space c }

def emitCswitch (n : ℕ) (failL : Word) (space : Cells) : Option Switch := emitSwitch 64 n failL space

/-- Here `cases` is an `int`. -/
def emitFswitch (n : ℕ) (failL : Word) (space : Cells) : Option Switch := emitSwitch 32 n failL space

def hashStart (t : Word) (entries : ℕ) : BitVec 32 :=
  ((t >>> hashShift) &&& (BitVec.ofNat 64 entries - 1)).setWidth 32

def hashStep (t : Word) (entries : ℕ) : BitVec 32 :=
  ((BitVec.ofNat 64 entries - 1) &&& (t ||| 1)).setWidth 32

def hashNext (t : Word) (entries : ℕ) (hash : BitVec 32) : BitVec 32 :=
  ((hash + hashStep t entries).signExtend 64 &&& (BitVec.ofNat 64 entries - 1)).setWidth 32

def lookupTurn (t : Word) (cells : Cells) (entries : ℕ) (hash : BitVec 32) : Turn (BitVec 32) ℕ :=
  if cells (2 * hash.toNat) = t then .exit hash.toNat
  else if cells (2 * hash.toNat) = 0 then .exit hash.toNat
  else .go (hashNext t entries hash)

/-- The entry where the search for a key ends. -/
def lookupHash (t : Word) (cells : Cells) (entries : ℕ) : Option ℕ :=
  run (lookupTurn t cells entries) entries (hashStart t entries)

def lookupCHash (t : Word) (cells : Cells) (entries : ℕ) : Option ℕ := lookupHash t cells entries

def lookupFHash (f : Word) (cells : Cells) (entries : ℕ) : Option ℕ := lookupHash f cells entries

/-- The arguments `i` and `n`, and `cases`, are `int`s. -/
def fetchEntry (cells : Cells) (wt : Word) (i n : ℕ) : Option ℕ :=
  if minHashEntries < n then (hashCases 32 32 n).bind (lookupHash wt cells) else some i

def fetchCentry (cells : Cells) (wt : Word) (i n : ℕ) : Option ℕ := fetchEntry cells wt i n

def fetchFentry (cells : Cells) (ft : Word) (i n : ℕ) : Option ℕ := fetchEntry cells ft i n

-- ---------------------------------------------------------------------------
-- Filling a table
-- ---------------------------------------------------------------------------

/-- What the index does with a kind of terms: it goes to a label, or through a table. -/
inductive SwitchEntry where
  | label (lbl : Word)
  | code (sw : Switch)

section

variable (label : List ClauseDef → Word)

/-- The loop of `do_consts` and `do_funcs`: an entry for each of `left` runs of clauses with
    one tag. The label of an entry is that of the code for the clauses of its run. -/
def doSwitchLoop (key : Word → Word) (n : ℕ) : ℕ → ℕ → Cells → List ClauseDef → Option (Cells × List ClauseDef)
  | 0, _, cells, cls => some (cells, cls)
  | left + 1, i, cells, min :: cls =>
    let run := min :: cls.takeWhile (·.Tag == min.Tag)
    (fetchEntry cells (key min.Tag) i n).bind fun e =>
      doSwitchLoop key n left (i + 1) (cells.setEntry e (key min.Tag) (label run))
        (cls.dropWhile (·.Tag == min.Tag))
  | _ + 1, _, _, [] => none

variable (foundVar failCode nxtlbl : Word) (space : Cells)

/-- The entry, and the clauses from `FirstClause` on afterwards. -/
def doConsts (cls : List ClauseDef) : Option (SwitchEntry × List ClauseDef) :=
  match cls with
  | [] => none
  | min :: _ =>
    if !isAtomTerm min.Tag && !isIntTerm min.Tag then some (.label nxtlbl, cls)
    else
      let n := countConsts foundVar cls
      (emitCswitch n failCode space).bind fun sw =>
        (doSwitchLoop label id n n 0 sw.l cls).map fun out => (.code { sw with l := out.1 }, out.2)

/-- The keys are the functors. -/
def doFuncs (cls : List ClauseDef) : Option (SwitchEntry × List ClauseDef) :=
  match cls with
  | [] => none
  | _ :: _ =>
    let n := countFuncs foundVar cls
    if n = 0 then some (.label nxtlbl, cls)
    else
      (emitFswitch n failCode space).bind fun sw =>
        (doSwitchLoop label repAppl n n 0 sw.l cls).map fun out => (.code { sw with l := out.1 }, out.2)

end

-- ---------------------------------------------------------------------------
-- Jumping through a table
-- ---------------------------------------------------------------------------

/-- The cells that a hash leads to. -/
def switchMask (s : ℕ) : Word := (BitVec.ofNat 64 s - 1) <<< 1

def switchStart (s : ℕ) (d1 : Word) : Word := (d1 >>> (hashShift - 1)) &&& switchMask s

def switchStep (s : ℕ) (d1 : Word) : Word := ((d1 ||| 1) <<< 1) &&& switchMask s

def switchNext (s : ℕ) (d1 : Word) (hash : Word) : Word := (hash + switchStep s d1) &&& switchMask s

def switchTurn (s : ℕ) (l : Cells) (d1 : Word) (hash : Word) : Turn Word Word :=
  if l hash.toNat = d1 ∨ l hash.toNat = 0 then .exit (l (hash.toNat + 1)) else .go (switchNext s d1 hash)

/-- `switch_on_cons` and `switch_on_func`. -/
def switchOn (s : ℕ) (l : Cells) (d1 : Word) : Option Word := run (switchTurn s l d1) s (switchStart s d1)

def ifTurn (l : Cells) (d1 : Word) (pt0 : ℕ) : Turn ℕ Word :=
  if l pt0 ≠ d1 ∧ l pt0 ≠ 0 then .go (pt0 + 2) else .exit (l (pt0 + 1))

/-- `if_cons` and `if_func`. The table has one entry more than `s`. -/
def ifOn (s : ℕ) (l : Cells) (d1 : Word) : Option Word := run (ifTurn l d1) (s + 1) 0

/-- `go_on_cons` and `go_on_func`. -/
def goOn (l : Cells) (d0 : Word) : Word := if d0 = l 0 then l 1 else l 3

/-- The assembler emits `go_on_cons` and `go_on_func` for tables with one key. -/
def Switch.jump (sw : Switch) (d1 : Word) : Option Word :=
  match sw.op with
  | .switch => switchOn sw.s sw.l d1
  | .if_ => if sw.s = 1 then some (goOn sw.l d1) else ifOn sw.s sw.l d1

-- ---------------------------------------------------------------------------
-- What the tables are for
-- ---------------------------------------------------------------------------

/-- The entries that the compiler probes for a key. -/
def compilerProbe (entries : ℕ) (t : Word) (j : ℕ) : ℕ := ((hashNext t entries)^[j] (hashStart t entries)).toNat

/-- The cells that the emulator probes for a key. -/
def emulatorProbe (s : ℕ) (d1 : Word) (j : ℕ) : ℕ := ((switchNext s d1)^[j] (switchStart s d1)).toNat

/-- The clauses of a group whose tag is of a kind and has this key. -/
def clausesOf (is : Word → Bool) (key : Word → Word) (cls : List ClauseDef) (k : Word) : List ClauseDef :=
  cls.filter fun c => is c.Tag && key c.Tag == k

/-- The label of the clauses with a key, and the default without such clauses. -/
def target (is : Word → Bool) (key : Word → Word) (label : List ClauseDef → Word) (failCode : Word)
    (cls : List ClauseDef) (k : Word) : Word :=
  if clausesOf is key cls k = [] then failCode else label (clausesOf is key cls k)

/-- Jumps end, and lead to the right label, and both probe sequences of a hash table are one. -/
structure Exact (sw : Switch) (dispatch : Word → Word) : Prop where
  jump : ∀ k, sw.jump k = some (dispatch k)
  probes : sw.op = .switch → ∀ k j, emulatorProbe sw.s k j = 2 * compilerProbe sw.s k j

/-- The number of keys of a kind in a group. -/
def keyCount (is : Word → Bool) (cls : List ClauseDef) : ℕ := ((cls.filter (is ·.Tag)).map (·.Tag)).toFinset.card

/-- The table is linear, or the number of its entries is an `int`. -/
def TableFits (n : ℕ) : Prop := n ≤ 4 ∨ n + 1 + n / 4 ≤ 2 ^ 30

/-- A sorted group that starts with a constant. The low bits of a constant are only in tags that
    are constants. -/
structure ConstGroup (foundVar : Word) (cls : List ClauseDef) : Prop where
  sorted : Sorted cls
  first : ∃ c ∈ cls.head?, isConst c.Tag = true
  terms : ∀ c ∈ cls, lowTagOf c.Tag = 1 → isConst c.Tag = true
  fresh : ∀ c ∈ cls, c.Tag ≠ foundVar

/-- A sorted group that starts with a functor. -/
structure FuncGroup (cls : List ClauseDef) : Prop where
  sorted : Sorted cls
  first : ∃ c ∈ cls.head?, isApplTerm c.Tag = true
  functor : ∀ c ∈ cls, repAppl c.Tag ≠ 0

end Yap.Indexing
