-- SUMMARY: `numbervars/3`, a walk that binds variables to new structures, and `unnumbervars/2`, a copy that makes variables of these structures.
import Yap.Heap.SkipList
import Yap.Mutables.Code
import Yap.TermVisit.Code

/-!
# Numbering variables

`numbervars_in_complex_term` is the walk of `term_visit.h`. Its code for a variable
writes a structure at `HR`, which no hook does, so it is put in before a turn of the
walk. `unnumber_complex_term` is a loop of its own. The cells above `HR`, the stack of
its frames and the table below `ASP` are taken to be large enough.
-/

namespace Yap

-- ---------------------------------------------------------------------------
-- Numbers
-- ---------------------------------------------------------------------------

/-- `FunctorDollarVar`. -/
def functorDollarVar : Functor where
  nameOfFE := ⟨[36, 86, 65, 82], by decide⟩
  arityOfFE := 1
  arity_pos := Nat.one_pos
  not_list := by decide

/-- `MkIntTerm`. -/
def mkIntCell (n : ℤ) : Cell := .nonvar (.int (BitVec.ofInt 58 n))

/-- `vno` and `HR`. -/
structure NumberData where
  vno : ℤ
  hr : Addr

namespace NumberData

/-- What `HR[1]` is set to. -/
def number (data : NumberData) : ℤ := if 0 ≤ data.vno then data.vno else data.vno - 1

/-- `vno++` or `--vno`, and `HR += 2`. -/
def next (data : NumberData) : NumberData where
  vno := if 0 ≤ data.vno then data.vno + 1 else data.vno - 1
  hr := data.hr + 2

end NumberData

/-- The hooks, for a walk that begins when `HR` is `hStart`. `FOUND_VAR_AGAIN` is for
    `TermFoundVar`, which is no compound. The code for a variable is no hook. -/
def numberHooks (hStart : Addr) : Hooks NumberData NumberData where
  list := .empty
  compound := .empty
  atomic := .empty
  var data _ := .error data
  reset data := { data with hr := hStart }
  nomore := id

-- ---------------------------------------------------------------------------
-- numbervars
-- ---------------------------------------------------------------------------

namespace WalkState

variable (st : WalkState NumberData)

/-- The unbound variable that the walk has come to. -/
def unboundVar : Option Addr :=
  match st.d0 with
  | some (_, dd0) =>
    match st.visitUnmark dd0 with
    | .cell (.ref a) => if st.visitUnmark (st.memory (.arg a)) = .cell (.ref a) then some a else none
    | _ => none
  | none => none

/-- Writes a structure at `HR` and binds the variable with `mBind`, which trails cells
    below `HB`. At a marked cell it is a field of the frame that is bound, which is not
    read. -/
def numberVar (hb : Addr) (v : Addr) : WalkState NumberData :=
  let marked := st.isVisitMarker (st.memory (.arg v))
  let bound := if marked then st.memory
    else Function.update st.memory (.arg v) (.cell (.nonvar (.appl st.data.hr)))
  { st with
    memory := Function.update (Function.update bound (.functor st.data.hr) (.functor (.functor functorDollarVar)))
      (.arg (st.data.hr + 1)) (.cell (mkIntCell st.data.number))
    trail := if marked = false ∧ v < hb then v :: st.trail else st.trail
    d0 := none
    data := st.data.next }

/-- One turn of the walk. The trail is not cleaned at the end. -/
def numberTurn (hb hStart root : Addr) : Turn (WalkState NumberData) (NumberData × (Place → WalkWord)) :=
  match st.unboundVar with
  | some v => .go (st.numberVar hb v)
  | none =>
    match st.turn (numberHooks hStart) root with
    | .go st' => .go st'
    | .exit (data, _) => .exit (data, st.memory)

end WalkState

/-- `p_numbervars`, before the unification with `ARG3`: what `Yap_NumberVars` returns, and
    `HR` and the memory that it leaves. The argument `numbv` is not passed on. -/
def numberVars (hb : Addr) (hp : Heap) (s : Store) (root : Addr) (numbv : ℤ)
    (r : ℤ × Addr × (Place → WalkWord)) : Prop :=
  match rootKind hp s root with
  | .primitive => r = (numbv, hp.hr, cellWords hp s)
  | _ => ∃ data m, r = (data.vno, data.hr, m) ∧
      Machine.Returns (WalkState.numberTurn · hb hp.hr root) (.init root (cellWords hp s) [] ⟨0, hp.hr⟩) (data, m)

-- ---------------------------------------------------------------------------
-- unnumbervars
-- ---------------------------------------------------------------------------

/-- `cp_frame`, with the cell that is marked, where the copy goes on, and what was in the cell. -/
structure CpFrame where
  pt0 : Addr
  pt0End : Addr
  ptf : Addr
  oldv : Cell
  ground : Bool

/-- The arguments of a copy: `share`, `HLow`, which `HB` is set to, and what `IntegerOfTerm`
    makes of words that are no integers. -/
structure UnnumberContext where
  share : Bool
  hb : Addr
  noInteger : Cell → ℤ

/-- The memory, the table of the words `ASP[-id-1]` that are not 0, the largest number,
    the frames, the cells to visit and to write, and the word that is dereferenced. -/
structure UnnumberState where
  heap : Heap
  cell : Addr → Cell
  asp : ℤ → Option Cell
  max : ℤ
  frames : List CpFrame
  pt0 : Addr
  pt0End : Addr
  ptf : Addr
  d0 : Option Cell
  ground : Bool

/-- What a copy returns: the number that is reported as an error, and the flag. -/
structure UnnumberResult where
  reported : Option ℤ
  ground : Bool

/-- `RepPair` or `RepAppl`. -/
def Cell.rep : Cell → Addr
  | .nonvar (.pair p) | .nonvar (.appl p) => p
  | _ => 0

namespace UnnumberState

variable (cx : UnnumberContext) (st : UnnumberState)

/-- `IntegerOfTerm`. -/
def integerOfCell : Cell → ℤ
  | .ref a => cx.noInteger (.ref a)
  | .nonvar d => (Store.integerOfTerm st.heap d).getD (cx.noInteger (.nonvar d))

/-- `*ptf++ = c`, and the next cell. -/
def put (c : Cell) : UnnumberState :=
  { st with cell := Function.update st.cell st.ptf c, pt0 := st.pt0 + 1, ptf := st.ptf + 1, d0 := none }

/-- Writes the word of a copy, which is also the mark, and goes to other cells. -/
def push (w : Cell) (heap : Heap) (pt0 pt0End ptf : Addr) (ground : Bool) : UnnumberState :=
  let cell := Function.update st.cell st.ptf w
  { st with
    heap := heap
    cell := Function.update cell st.pt0 w
    frames := ⟨st.pt0, st.pt0End, st.ptf + 1, cell st.pt0, st.ground⟩ :: st.frames
    pt0 := pt0
    pt0End := pt0End
    ptf := ptf
    d0 := none
    ground := ground }

/-- A new variable for a number. -/
def newVar (asp : ℤ → Option Cell) (id : ℤ) : UnnumberState :=
  { st.put (.ref st.ptf) with asp := Function.update asp id (some (.ref st.ptf)), ground := false }

/-- A compound `'$VAR'(t)` with `IntegerOfTerm(t) = id`. -/
def visitNumber (id : ℤ) : Turn UnnumberState (UnnumberResult × UnnumberState) :=
  if id < -1 then .exit (⟨some id, false⟩, st)
  else if id ≤ st.max then
    match st.asp id with
    | some c => .go { st.put c with ground := false }
    | none => .go (st.newVar st.asp id)
  else .go { st.newVar (fun i => if st.max < i ∧ i ≤ id then none else st.asp i) id with max := id }

/-- A list at `p`. -/
def visitPair (p : Addr) : Turn UnnumberState (UnnumberResult × UnnumberState) :=
  if cx.hb ≤ p ∧ p < st.heap.hr then .go (st.put (.nonvar (.pair p)))
  else
    .go (st.push (.nonvar (.pair st.heap.hr)) { st.heap with hr := st.heap.hr + 2 } p (p + 2) st.heap.hr cx.share)

/-- A compound or a box at `p`. -/
def visitAppl (p : Addr) : Turn UnnumberState (UnnumberResult × UnnumberState) :=
  if cx.hb ≤ p ∧ p ≤ st.heap.hr then .go (st.put (.nonvar (.appl p)))
  else
    match st.heap.functorAt p with
    | .blob _ => .go (st.put (.nonvar (.appl p)))
    | .functor f =>
      if f = functorDollarVar then st.visitNumber (st.integerOfCell cx (st.cell (p + 1)))
      else
        let heap : Heap := ⟨Function.update st.heap.functorAt st.heap.hr (.functor f), st.heap.hr + 1 + f.arityOfFE⟩
        .go (st.push (.nonvar (.appl st.heap.hr)) heap (p + 1) (p + 1 + f.arityOfFE) (st.heap.hr + 1)
          (decide (f ≠ functorMutable) && cx.share))

/-- Returns to the block above. A ground copy is given up for the original. -/
def pop (fr : CpFrame) (frames : List CpFrame) : UnnumberState :=
  let cell := if st.ground then Function.update st.cell (fr.ptf - 1) fr.oldv else st.cell
  { st with
    heap := if st.ground then { st.heap with hr := (st.cell (fr.ptf - 1)).rep } else st.heap
    cell := Function.update cell fr.pt0 fr.oldv
    frames := frames
    pt0 := fr.pt0 + 1
    pt0End := fr.pt0End
    ptf := fr.ptf
    d0 := none
    ground := st.ground && fr.ground }

/-- One turn of `unnumber_complex_term`; following a reference is a turn. -/
def turn : Turn UnnumberState (UnnumberResult × UnnumberState) :=
  match st.d0 with
  | none =>
    if st.pt0 < st.pt0End then .go { st with d0 := some (st.cell st.pt0) }
    else
      match st.frames with
      | [] => .exit (⟨none, st.ground⟩, st)
      | fr :: frames => .go (st.pop fr frames)
  | some (.ref a) =>
    if st.cell a = .ref a then .go { st.put (.ref a) with ground := false }
    else .go { st with d0 := some (st.cell a) }
  | some (.nonvar (.pair p)) => st.visitPair cx p
  | some (.nonvar (.appl p)) => st.visitAppl cx p
  | some (.nonvar d) => .go (st.put (.nonvar d))

/-- The copy of the cells from `pt0` to cells from `ptf` begins. -/
def init (heap : Heap) (cell : Addr → Cell) (asp : ℤ → Option Cell) (pt0 pt0End ptf : Addr) : UnnumberState :=
  ⟨heap, cell, asp, -1, [], pt0, pt0End, ptf, none, cx.share⟩

end UnnumberState

/-- What `UnnumberTerm` returns, with the memory that it leaves, and the number that has
    been reported. -/
structure Unnumbered where
  term : Cell
  heap : Heap
  cell : Addr → Cell
  reported : Option ℤ

section

variable (hp : Heap) (s : Store) (root : Addr) (share : Bool) (noInteger : Cell → ℤ) (asp : ℤ → Option Cell)

/-- The copy of the arguments of the term `t` gives `tf`, or `t` if it is ground. -/
def UnnumberTerm.copies (t tf : Cell) (mutable : Bool) (heap : Heap) (pt0 pt0End ptf : Addr) (r : Unnumbered) : Prop :=
  let cx : UnnumberContext := ⟨share, hp.hr, noInteger⟩
  ∃ res st, Machine.Returns (UnnumberState.turn cx) (.init cx heap s.cell asp pt0 pt0End ptf) (res, st) ∧
    r = if res.ground ∧ mutable = false then ⟨t, { st.heap with hr := hp.hr }, st.cell, res.reported⟩
      else ⟨tf, st.heap, st.cell, res.reported⟩

/-- `UnnumberTerm`. -/
def unnumberTerm (r : Unnumbered) : Prop :=
  match s.deref (.ref root) with
  | .nonvar (.pair p) =>
    UnnumberTerm.copies hp s share noInteger asp (.nonvar (.pair p)) (.nonvar (.pair hp.hr)) false
      { hp with hr := hp.hr + 2 } p (p + 2) hp.hr r
  | .nonvar (.appl p) =>
    match hp.functorAt p with
    | .blob _ => r = ⟨.nonvar (.appl p), hp, s.cell, none⟩
    | .functor f =>
      UnnumberTerm.copies hp s share noInteger asp (.nonvar (.appl p)) (.nonvar (.appl hp.hr)) (decide (f = functorMutable))
        ⟨Function.update hp.functorAt hp.hr (.functor f), hp.hr + 1 + f.arityOfFE⟩ (p + 1) (p + 1 + f.arityOfFE)
        (hp.hr + 1) r
  | .nonvar d => r = ⟨.nonvar d, hp, s.cell, none⟩
  | .ref _ => r = ⟨.ref root, hp, s.cell, none⟩

/-- `p_unnumbervars`, before the unification with its second argument. -/
def unnumberVars : Unnumbered → Prop := unnumberTerm hp s root false noInteger asp

end

end Yap
