-- SUMMARY: Attributed variables: their cells on the global stack, bindings on the trail, the search of a list of attributes, and putting, deleting and getting attributes.
import Yap.Base.Trail
import Yap.Parse.Tokens
import Yap.Heap.Store

/-!
# Attributed variables

The functions follow `attvar.c`. The attributes of a variable are a list of `att/3`
terms with an open tail. The first argument of the predicates is the cell of the
variable, on the global or on the local stack. A result that is `none` stands for a
step that the model leaves out: a write through a null pointer, or the unification
of an old list of attributes with a new one.
-/

namespace Yap

-- ---------------------------------------------------------------------------
-- The stacks
-- ---------------------------------------------------------------------------

/-- The contents of a cell. -/
inductive AttCell where
  | ref (a : ℕ)
  | nonvar (d : Nonvar)
  | functor (f : Functor)
  | functorAttVar
deriving DecidableEq

/-- `AtomAtt1`. -/
def atomAtt1 : Atom := ⟨[97, 116, 116], by decide⟩

/-- `FunctorAtt1`. -/
def functorAtt1 : Functor where
  nameOfFE := atomAtt1
  arityOfFE := 3
  arity_pos := Nat.succ_pos 2
  not_list := by decide

/-- A choice point: the top of the global stack when it was made, and its own place
    on the local stack. -/
structure ChoicePoint where
  hb : ℕ
  b : ℕ

/-- `OUTSIDE`. -/
def outside (min x max : ℕ) : Bool := x < min || max < x

/-- The cells that are older than a choice point. -/
def ChoicePoint.keeps (c : ChoicePoint) (a : ℕ) : Prop := outside c.hb a c.b

/-- The cells, the trail, the choice points and `HR`. -/
structure Machine extends Trail.State ℕ AttCell ChoicePoint where
  hr : ℕ

namespace Machine

/-- `TRAIL` and `MATRAIL` record a write to a cell. -/
def trails (s : Machine) (a : ℕ) : Bool := s.choices.head?.any fun c => outside c.1.hb a c.1.b

/-- `TRAIL_GLOBAL` records a write to a cell. -/
def trailsGlobal (s : Machine) (a : ℕ) : Bool := s.choices.head?.any fun c => a < c.1.hb

/-- `Bind_NonAtt`. The old value is recorded; the source resets the cell, which held
    an unbound variable. -/
def bindNonAtt (a : ℕ) (c : AttCell) (s : Machine) : Machine :=
  { s with toState := s.toState.write (s.trails a) a c }

/-- `Bind_Global`, of a variable without attributes. -/
def bindGlobal (a : ℕ) (c : AttCell) (s : Machine) : Machine :=
  { s with toState := s.toState.write (s.trailsGlobal a) a c }

/-- `MaBind`. -/
def maBind (a : ℕ) (c : AttCell) (s : Machine) : Machine :=
  { s with toState := s.toState.write (s.trails a) a c }

/-- `*a = c`. -/
def set (a : ℕ) (c : AttCell) (s : Machine) : Machine :=
  { s with toState := s.toState.write false a c }

/-- Writes cells at `HR` and moves it behind them. -/
def pushCells (cells : List AttCell) (s : Machine) : Machine :=
  { s with
    mem := fun a => if s.hr ≤ a then (cells[a - s.hr]?).getD (s.mem a) else s.mem a
    hr := s.hr + cells.length }

-- ---------------------------------------------------------------------------
-- Terms
-- ---------------------------------------------------------------------------

/-- Follows at most so many references. -/
def derefCells (m : ℕ → AttCell) : ℕ → AttCell → AttCell
  | n + 1, .ref a => if m a = .ref a then .ref a else derefCells m n (m a)
  | _, c => c

/-- `Deref`. -/
def deref (s : Machine) (c : AttCell) : AttCell := derefCells s.mem s.hr c

/-- `ArgOfTerm`, of the term whose functor is at `p`. -/
def argOfTerm (s : Machine) (i : ℕ) (p : ℕ) : AttCell := s.deref (s.mem (p + i))

/-- `NameOfFunctor(FunctorOfTerm(t))`, of the term whose functor is at `p`. -/
def nameOfTerm (s : Machine) (p : ℕ) : Option Atom :=
  match s.mem p with
  | .functor f => some f.nameOfFE
  | _ => none

/-- `IsAttVar`. -/
def isAttVar (s : Machine) (a : ℕ) : Bool := s.mem (a - 1) = .functorAttVar && a < s.hr

-- ---------------------------------------------------------------------------
-- Attributed variables
-- ---------------------------------------------------------------------------

/-- `BuildNewAttVar`: the functor, and `Done`, `Value` and `Atts` unbound. -/
def buildNewAttVar (s : Machine) : Machine :=
  s.pushCells [.functorAttVar, .ref (s.hr + 1), .ref (s.hr + 2), .ref (s.hr + 3)]

/-- `&attv->Atts`, for an attributed variable at `attv`. -/
def atts (attv : ℕ) : ℕ := attv + 3

/-- `AttsFromTerm`, of the term that a cell leads to. -/
def attsFromTerm (s : Machine) (v : ℕ) : Option ℕ :=
  match s.deref (.ref v) with
  | .ref a => if s.isAttVar a then some (a - 1) else none
  | _ => none

/-- `SearchAttsForModuleAsNameTerm`: the entry or the end that it finds, and `*p`. -/
def searchAttsForModuleAsNameTerm (s : Machine) (mname : Atom) :
    ℕ → AttCell → Option ℕ → Option (AttCell × Option ℕ)
  | _ + 1, .ref t, p => some (.ref t, p)
  | n + 1, .nonvar (.appl start), p =>
    if s.argOfTerm 1 start = .nonvar (.atom mname) ∨ s.nameOfTerm start = some mname then
      some (.nonvar (.appl start), p)
    else s.searchAttsForModuleAsNameTerm mname n (s.argOfTerm 3 start) (some start)
  | _, _, _ => none

/-- The search from the cell `Atts`. -/
def searchAtts (s : Machine) (attv : ℕ) (mname : Atom) : Option (AttCell × Option ℕ) :=
  s.searchAttsForModuleAsNameTerm mname s.hr (s.mem (atts attv)) none

/-- `Yap_unify`, of the end of a list and a new entry. -/
def unifyTail (t : ℕ) (tx : AttCell) (s : Machine) : Option Machine :=
  match s.deref (.ref t) with
  | .ref u => some (s.bindGlobal u tx)
  | _ => none

/-- `MkVarTerm` and `Yap_MkApplTerm`: a new entry behind its open tail. -/
def mkAtt (modname : Atom) (tatts : AttCell) (s : Machine) : Machine :=
  s.pushCells [.ref s.hr, .functor functorAtt1, .nonvar (.atom modname), tatts, .ref s.hr]

/-- What `put_attr` does with an attributed variable, which may be a new one. -/
def putAtts (attv : ℕ) (new : Bool) (modname : Atom) (tatts : AttCell) (s : Machine) :
    Option Machine :=
  match s.searchAtts attv modname with
  | some (.ref t, _) =>
    let tx := .nonvar (.appl (s.hr + 1))
    if new then some ((s.mkAtt modname tatts).set (atts attv) tx)
    else (s.mkAtt modname tatts).unifyTail t tx
  | some (_, some tgt) => some (s.maBind (tgt + 2) tatts)
  | _ => none

/-- `put_attr`. -/
def putAttr (v : ℕ) (modname : Atom) (tatts : AttCell) (s : Machine) : Option Machine :=
  match s.deref (.ref v) with
  | .ref a =>
    if s.isAttVar a then s.putAtts (a - 1) false modname tatts
    else (s.buildNewAttVar.bindNonAtt a (.ref (s.hr + 1))).putAtts s.hr true modname tatts
  | _ => none

/-- The loop of `del_attr`, where the third argument is a new variable: the value
    that it gets, or `none` for failure. -/
def delAtts (mod : Atom) (s : Machine) : ℕ → ℕ → AttCell → Option (Option AttCell × Machine)
  | n + 1, pt, .nonvar (.appl tatts) =>
    if s.argOfTerm 1 tatts = .nonvar (.atom mod) then
      some (some (s.argOfTerm 2 tatts), s.maBind pt (s.argOfTerm 3 tatts))
    else delAtts mod s n (tatts + 3) (s.argOfTerm 3 tatts)
  | _ + 1, _, .ref _ => some (none, s)
  | _ + 1, _, .nonvar (.atom a) => if a = atomNil then some (none, s) else none
  | _, _, _ => none

/-- `del_attr`. -/
def delAttr (v : ℕ) (mod : Atom) (s : Machine) : Option (Option AttCell × Machine) :=
  match s.attsFromTerm v with
  | some attv => delAtts mod s s.hr (atts attv) (s.mem (atts attv))
  | none => some (none, s)

/-- `get_attr`: the value that the third argument is unified with. -/
def getAttr (v : ℕ) (mod : Atom) (s : Machine) : Option (Option AttCell) :=
  match s.attsFromTerm v with
  | some attv =>
    match s.searchAtts attv mod with
    | some (.nonvar (.appl tatts), _) => some (some (s.argOfTerm 2 tatts))
    | some (.ref _, _) => some none
    | _ => none
  | none => some none

-- ---------------------------------------------------------------------------
-- Choice points
-- ---------------------------------------------------------------------------

/-- Makes a choice point at `b`. -/
def choicePoint (b : ℕ) (s : Machine) : Machine :=
  { s with toState := s.toState.choice ⟨s.hr, b⟩ }

/-- Backtracks to the latest choice point. -/
def retry (s : Machine) : Option Machine :=
  match s.choices with
  | c :: _ => some { s with toState := s.toState.undo c.2, hr := c.1.hb }
  | [] => none

/-- Removes the latest choice point. -/
def cutChoice (s : Machine) : Machine := { s with toState := s.toState.cut }

end Machine

end Yap
