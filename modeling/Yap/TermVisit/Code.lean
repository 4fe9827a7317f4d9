-- SUMMARY: The walk over a term that marks compounds with their stack frames, with the hooks that `cyclic_term`, `ground`, `variable_in_term`, `term_variables`, `new_variables_in_term`, `variables_within_term` and `non_singletons_in_term` put into it.
import Yap.OccursCheck.Marks

/-!
# Walking a term

`term_visit.h` is a loop that is included with different hooks. A list is marked at
its head cell and a compound at its functor cell, with the frame that keeps what was
there; a marked cell is read through its frame. The walk starts again with a larger
stack when the stack is full.
-/

namespace Yap

-- ---------------------------------------------------------------------------
-- Memory
-- ---------------------------------------------------------------------------

/-- A cell of arguments, or the functor cell of a compound. -/
inductive Place where
  | arg (a : Addr)
  | functor (p : Addr)
deriving DecidableEq

/-- The contents of a cell during a walk. A mark is the index of its frame. -/
inductive WalkWord where
  | cell (c : Cell)
  | functor (f : FunctorCell)
  | foundVar
  | refoundVar
  | mark (k : ℕ)
deriving DecidableEq

/-- `TermNil`. -/
def WalkWord.termNil : WalkWord := .cell (.nonvar (.atom ⟨⟨[91, 93], by decide⟩⟩))

/-- `copy_frame`: the marked cell, what was in it, and the cells to return to. -/
structure CopyFrame where
  oldp : Place
  oldv : WalkWord
  pt0 : Addr
  pt0End : Addr

/-- What a store has in its cells. -/
def cellWords (hp : Heap) (s : Store) : Place → WalkWord
  | .arg a => .cell (s.cell a)
  | .functor p => .functor (hp.functorAt p)

-- ---------------------------------------------------------------------------
-- Hooks
-- ---------------------------------------------------------------------------

/-- A hook: it reads `ptd0`, `d0` and whether the cell at `ptd0` is marked, and returns
    from the walk, or goes on and may write to the cell at `ptd0`. -/
abbrev Hook (σ ω : Type) : Type := σ → Addr → WalkWord → Bool → Except ω (σ × Option WalkWord)

/-- The code that is put into the walk, the code for an unbound variable `ptd0` with
    whether it is bound then, what `HR = HStart` changes, and the result at the end. -/
structure Hooks (σ ω : Type) where
  list : Hook σ ω
  compound : Hook σ ω
  atomic : Hook σ ω
  var : σ → Addr → Except ω (σ × Bool)
  reset : σ → σ
  nomore : σ → ω

/-- The empty hook. -/
def Hook.empty {σ ω : Type} : Hook σ ω := fun data _ _ _ => .ok (data, none)

-- ---------------------------------------------------------------------------
-- The walk
-- ---------------------------------------------------------------------------

/-- The memory, the bound variables, the stack with its limit, the cells to visit, the
    word that is dereferenced with `ptd0`, and the data of the hooks. -/
structure WalkState (σ : Type) where
  memory : Place → WalkWord
  trail : List Addr
  frames : List CopyFrame
  max : ℕ
  pt0 : Addr
  pt0End : Addr
  d0 : Option (Addr × WalkWord)
  data : σ

namespace WalkState

variable {σ ω : Type} (st : WalkState σ)

/-- `IS_VISIT_MARKER`. -/
def isVisitMarker : WalkWord → Bool
  | .mark k => k ≤ st.frames.length
  | _ => false

/-- `VISIT_UNMARK`. -/
def visitUnmark (w : WalkWord) : WalkWord :=
  match w with
  | .mark k => (st.frames.reverse[k]?).elim w CopyFrame.oldv
  | w => w

def next : WalkState σ := { st with d0 := none }

/-- Marks a cell and goes to other cells. -/
def push (oldp : Place) (oldv : WalkWord) (pt0 pt0End : Addr) (d0 : Option (Addr × WalkWord)) : WalkState σ :=
  { st with
    memory := Function.update st.memory oldp (.mark st.frames.length)
    frames := ⟨oldp, oldv, st.pt0, st.pt0End⟩ :: st.frames
    pt0 := pt0
    pt0End := pt0End
    d0 := d0 }

/-- `pop_sub_term`. -/
def pop (fr : CopyFrame) (frames : List CopyFrame) : WalkState σ :=
  { st with
    memory := Function.update st.memory fr.oldp fr.oldv
    frames := frames
    pt0 := fr.pt0
    pt0End := fr.pt0End
    d0 := none }

/-- The memory after all frames are popped. -/
def unwind : Place → WalkWord := Trail.rewind (st.frames.map fun fr => (fr.oldp, fr.oldv)) st.memory

/-- `clean_tr`. -/
def cleanTr (trail : List Addr) (m : Place → WalkWord) : Place → WalkWord :=
  Trail.rewind (trail.map fun a => (.arg a, .cell (.ref a))) m

/-- `aux_overflow`, for a walk of the cell `root`. -/
def auxOverflow (h : Hooks σ ω) (root : Addr) : WalkState σ where
  memory := cleanTr st.trail st.unwind
  trail := []
  frames := []
  max := 2 * st.max
  pt0 := root
  pt0End := root + 1
  d0 := none
  data := h.reset st.data

/-- The test after `push_sub_term` for a list. -/
def ifRoom (h : Hooks σ ω) (root : Addr) : WalkState σ :=
  if st.max ≤ st.frames.length + 32 then st.auxOverflow h root else st

/-- Goes on after a hook. -/
def afterHook (ptd0 : Addr) (data : σ) (write : Option WalkWord) : WalkState σ :=
  { st with
    memory := write.elim st.memory (Function.update st.memory (.arg ptd0))
    data := data }

/-- `mBind_And_Trail(ptd0, TermFoundVar)`; at a marked cell it is a field of the frame
    that is bound, which is not read. -/
def mBindAndTrail (ptd0 : Addr) : WalkState σ :=
  if st.isVisitMarker (st.memory (.arg ptd0)) then st
  else { st with memory := Function.update st.memory (.arg ptd0) .foundVar, trail := ptd0 :: st.trail }

variable (h : Hooks σ ω) (root : Addr)

/-- A list at `p`. -/
def visitPair (ptd0 : Addr) (p : Addr) : Turn (WalkState σ) (ω × (Place → WalkWord)) :=
  let d1 := st.visitUnmark (st.memory (.arg p))
  if st.isVisitMarker (st.memory (.arg p)) then .go st.next
  else
    match h.list st.data ptd0 (.cell (.nonvar (.pair p))) (st.isVisitMarker (st.memory (.arg ptd0))) with
    | .error w => .exit (w, st.unwind)
    | .ok (data, write) =>
      .go (((st.afterHook ptd0 data write).push (.arg p) d1 (p + 1) (p + 2) (some (ptd0, d1))).ifRoom h root)

/-- A compound or a box at `p`. -/
def visitAppl (ptd0 : Addr) (p : Addr) : Turn (WalkState σ) (ω × (Place → WalkWord)) :=
  let d1 := st.visitUnmark (st.memory (.functor p))
  match d1 with
  | .functor (.functor f) =>
    if st.max ≤ st.frames.length + 32 then .go (st.auxOverflow h root)
    else
      match h.compound st.data ptd0 (.cell (.nonvar (.appl p))) (st.isVisitMarker (st.memory (.arg ptd0))) with
      | .error w => .exit (w, st.unwind)
      | .ok (data, write) =>
        let st' := st.afterHook ptd0 data write
        if st.isVisitMarker (st.memory (.functor p)) then .go st'.next
        else .go (st'.push (.functor p) d1 (p + 1) (p + 1 + f.arityOfFE) none)
  | _ => .go st.next

/-- An unbound variable. -/
def visitVar (ptd0 : Addr) : Turn (WalkState σ) (ω × (Place → WalkWord)) :=
  match h.var st.data ptd0 with
  | .error w => .exit (w, st.unwind)
  | .ok (data, bind) =>
    let st' := { st with data := data }
    .go (if bind then st'.mBindAndTrail ptd0 else st').next

/-- One turn of the walk; following a reference is a turn. -/
def turn : Turn (WalkState σ) (ω × (Place → WalkWord)) :=
  match st.d0 with
  | none =>
    if st.pt0 < st.pt0End then .go { st with pt0 := st.pt0 + 1, d0 := some (st.pt0, st.memory (.arg st.pt0)) }
    else
      match st.frames with
      | [] => .exit (h.nomore st.data, cleanTr st.trail st.memory)
      | fr :: frames => .go (st.pop fr frames)
  | some (ptd0, dd0) =>
    match st.visitUnmark dd0 with
    | .cell (.ref a) =>
      if st.visitUnmark (st.memory (.arg a)) = .cell (.ref a) then st.visitVar h a
      else .go { st with d0 := some (a, st.memory (.arg a)) }
    | .cell (.nonvar (.pair p)) => st.visitPair h root ptd0 p
    | .cell (.nonvar (.appl p)) => st.visitAppl h root ptd0 p
    | d0 =>
      match h.atomic st.data ptd0 d0 (st.isVisitMarker (st.memory (.arg ptd0))) with
      | .error w => .exit (w, st.unwind)
      | .ok (data, write) => .go (st.afterHook ptd0 data write).next

/-- The walk of the cell `root` begins. -/
def init (memory : Place → WalkWord) (trail : List Addr) (data : σ) : WalkState σ :=
  ⟨memory, trail, [], 1024, root, root + 1, none, data⟩

end WalkState

/-- The walk of the cell `root`: its result and the memory it leaves. -/
def termVisit {σ ω : Type} (h : Hooks σ ω) (root : Addr) (memory : Place → WalkWord) (trail : List Addr) (data : σ) :
    ω × (Place → WalkWord) → Prop :=
  Machine.Returns (WalkState.turn · h root) (.init root memory trail data)

-- ---------------------------------------------------------------------------
-- Lists that are built at `HR`
-- ---------------------------------------------------------------------------

/-- The tail of a list that is built. -/
inductive OutTail where
  | nil
  | pair (k : ℕ)
deriving DecidableEq

/-- The pairs from `HStart` on, and the next one. -/
structure OutArea where
  head : ℕ → Addr
  tail : ℕ → OutTail
  hr : ℕ

namespace OutArea

/-- Writes a pair at `HR`. -/
def add (area : OutArea) (a : Addr) (t : OutTail) : OutArea where
  head := Function.update area.head area.hr a
  tail := Function.update area.tail area.hr t
  hr := area.hr + 1

def setTail (area : OutArea) (k : ℕ) (t : OutTail) : OutArea := { area with tail := Function.update area.tail k t }

/-- `HR = HStart`. -/
def restart (area : OutArea) : OutArea := { area with hr := 0 }

/-- The list that a term is. -/
inductive IsList (area : OutArea) : OutTail → List Addr → Prop
  | nil : IsList area .nil []
  | pair {k : ℕ} {as : List Addr} : IsList area (area.tail k) as → IsList area (.pair k) (area.head k :: as)

end OutArea

-- ---------------------------------------------------------------------------
-- The predicates
-- ---------------------------------------------------------------------------

section

variable (hp : Heap) (s : Store) (root : Addr)

/-- The word of `t`, which is dereferenced. -/
inductive RootKind where
  | var (v : Addr)
  | primitive
  | compound

/-- `IsVarTerm` and `IsPrimitiveTerm` of the word in the cell `root`. -/
def rootKind : RootKind :=
  match s.deref (.ref root) with
  | .ref v => .var v
  | .nonvar (.int _) | .nonvar (.atom _) => .primitive
  | .nonvar (.pair _) => .compound
  | .nonvar (.appl p) =>
    match hp.functorAt p with
    | .functor _ => .compound
    | .blob _ => .primitive

/-- What a predicate answers without a walk, or the result of the walk. -/
def answers {ω : Type} (var : Addr → ω) (primitive : ω) (walk : ω × (Place → WalkWord) → Prop)
    (r : ω × (Place → WalkWord)) : Prop :=
  match rootKind hp s root with
  | .var v => r = (var v, cellWords hp s)
  | .primitive => r = (primitive, cellWords hp s)
  | .compound => walk r

/-- `CYC()`. -/
def cyc : Hook Unit Bool := fun _ _ _ marked => if marked then .error true else .ok ((), none)

def cyclicHooks : Hooks Unit Bool where
  list := cyc
  compound := cyc
  atomic := .empty
  var _ _ := .ok ((), false)
  reset := id
  nomore _ := false

/-- `Yap_IsCyclicTerm`. -/
def isCyclicTerm : Bool × (Place → WalkWord) → Prop :=
  answers hp s root (fun _ => false) false (termVisit cyclicHooks root (cellWords hp s) [] ())

def groundHooks : Hooks Unit Bool where
  list := .empty
  compound := .empty
  atomic := .empty
  var _ _ := .error false
  reset := id
  nomore _ := true

/-- `Yap_IsGroundTerm`. -/
def isGroundTerm : Bool × (Place → WalkWord) → Prop :=
  answers hp s root (fun _ => false) true (termVisit groundHooks root (cellWords hp s) [] ())

def varInHooks (v : Addr) : Hooks Unit Bool where
  list := .empty
  compound := .empty
  atomic := .empty
  var _ ptd0 := if ptd0 = v then .error true else .ok ((), false)
  reset := id
  nomore _ := false

/-- `var_in_term`, for an unbound variable `v`. -/
def varInTerm (v : Addr) : Bool × (Place → WalkWord) → Prop :=
  answers hp s root (fun t => decide (v = t)) false (termVisit (varInHooks v) root (cellWords hp s) [] ())

/-- The list with its first pair and the pair whose tail is open. -/
structure VarsData where
  area : OutArea
  first : OutTail
  last : Option ℕ

def varsHooks : Hooks VarsData (OutTail × OutArea) where
  list := .empty
  compound := .empty
  atomic := .empty
  var data ptd0 :=
    let area := data.last.elim data.area fun k => data.area.setTail k (.pair data.area.hr)
    let first := data.last.elim (.pair data.area.hr) fun _ => data.first
    .ok (⟨area.add ptd0 .nil, first, some data.area.hr⟩, true)
  reset data := { data with area := data.area.restart }
  nomore data := (data.first, data.area)

/-- `term_variables/2`, before the unification with its second argument. -/
def termVariables (area : OutArea) : (OutTail × OutArea) × (Place → WalkWord) → Prop :=
  termVisit varsHooks root (cellWords hp s) [] ⟨area.restart, .nil, none⟩

/-- `FOUND_VAR_AGAIN`. -/
def foundVarAgain : Hook OutArea (OutTail × OutArea) := fun area ptd0 d0 _ =>
  if d0 = .foundVar then .ok (area.add ptd0 (.pair (area.hr + 1)), some .refoundVar) else .ok (area, none)

/-- The list from `HStart`, closed with `s`. -/
def closeList (area : OutArea) (s : OutTail) : OutTail × OutArea :=
  if area.hr = 0 then (s, area) else (.pair 0, area.setTail (area.hr - 1) s)

def nonSingletonsHooks : Hooks OutArea (OutTail × OutArea) where
  list := .empty
  compound := foundVarAgain
  atomic := .empty
  var area _ := .ok (area, true)
  reset := OutArea.restart
  nomore area := closeList area .nil

/-- What `p_non_singletons_in_term` unifies with `ARG3`: `ARG2` itself, or a list. -/
inductive NonSingletons where
  | arg2
  | list (t : OutTail) (area : OutArea)

/-- `p_non_singletons_in_term`, before the unification with `ARG3`. -/
def nonSingletonsInTerm (area : OutArea) : NonSingletons × (Place → WalkWord) → Prop :=
  answers hp s root (fun _ => .arg2) .arg2 fun r =>
    ∃ t area', r.1 = .list t area' ∧
      termVisit nonSingletonsHooks root (cellWords hp s) [] area.restart ((t, area'), r.2)

-- ---------------------------------------------------------------------------
-- Predicates with a list of variables
-- ---------------------------------------------------------------------------

/-- A loop over the heads of a list that binds the variables to `TermFoundVar`: the
    rest of the list, and the variables that have been bound. -/
structure BindState where
  inp : List Cell
  bound : List Addr

/-- The head of the list, dereferenced while variables are bound: an unbound variable, or not. -/
def BindState.headVar (s : Store) (bound : List Addr) : Cell → Option Addr
  | .ref a =>
    match s.derefMarked bound a with
    | some (.ref v) => some v
    | _ => none
  | .nonvar _ => none

/-- A turn of the loop of `new_vars_in_complex_term`: the list is advanced inside the test for a variable. -/
def BindState.turnNew (st : BindState) : Turn BindState (List Addr) :=
  match st.inp with
  | [] => .exit st.bound
  | t :: inp =>
    match headVar s st.bound t with
    | some v => .go ⟨inp, v :: st.bound⟩
    | none => .go st

/-- A turn of the loop of `vars_within_complex_term`. -/
def BindState.turnWithin (st : BindState) : Turn BindState (List Addr) :=
  match st.inp with
  | [] => .exit st.bound
  | t :: inp =>
    match headVar s st.bound t with
    | some v => .go ⟨inp, v :: st.bound⟩
    | none => .go ⟨inp, st.bound⟩

/-- The words of a store in which variables hold `TermFoundVar`. -/
def boundWords (bound : List Addr) : Place → WalkWord
  | .arg a => if a ∈ bound then .foundVar else .cell (s.cell a)
  | .functor p => .functor (hp.functorAt p)

/-- The list with its first pair. -/
structure NewVarsData where
  area : OutArea
  output : OutTail

def newVarsHooks : Hooks NewVarsData (OutTail × OutArea) where
  list := .empty
  compound := .empty
  atomic := .empty
  var data ptd0 := .ok (⟨data.area.add ptd0 data.output, .pair data.area.hr⟩, true)
  reset data := { data with area := data.area.restart }
  nomore data := (data.output, data.area)

/-- `p_new_variables_in_term`, before the unification with `ARG3`. -/
def newVariablesInTerm (old : List Cell) (area : OutArea) (r : (OutTail × OutArea) × (Place → WalkWord)) : Prop :=
  match rootKind hp s root with
  | .primitive => r = ((.nil, area), cellWords hp s)
  | _ => ∃ bound, Machine.Returns (BindState.turnNew s) ⟨old, []⟩ bound ∧
      termVisit newVarsHooks root (boundWords hp s bound) bound ⟨area.restart, .nil⟩ r

/-- `FOUND_VAR`. -/
def foundVarHook : Hook OutArea (OutTail × OutArea) := fun area ptd0 d0 _ =>
  if d0 = .foundVar then .ok (area.add ptd0 (.pair (area.hr + 1)), some .termNil) else .ok (area, none)

def varsWithinHooks : Hooks OutArea (OutTail × OutArea) where
  list := .empty
  compound := .empty
  atomic := foundVarHook
  var area _ := .ok (area, false)
  reset := OutArea.restart
  nomore area := closeList area .nil

/-- `p_variables_within_term`, before the unification with `ARG3`. -/
def variablesWithinTerm (old : List Cell) (area : OutArea) (r : (OutTail × OutArea) × (Place → WalkWord)) : Prop :=
  match rootKind hp s root with
  | .primitive => r = ((.nil, area), cellWords hp s)
  | _ => ∃ bound, Machine.Returns (BindState.turnWithin s) ⟨old, []⟩ bound ∧
      termVisit varsWithinHooks root (boundWords hp s bound) bound area.restart r

end

end Yap
