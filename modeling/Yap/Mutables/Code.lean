-- SUMMARY: Timed mutables: creating, reading and updating them, the trailing of bindings, choice points, and failure.
import Yap.Attributes.Code

/-!
# Timed mutables

The functions follow `mavar.c` and the trail macros of `amiops.h`, in the
configuration with tabling: the stacks have a frozen part, and a frame of the trail
has a term and a value. An update of a mutable reads its clock, a reference to a
cell that was the top of the global stack when the mutable was trailed. Attributed
variables are left out, and so are the stack overflows.
-/

namespace Yap

-- ---------------------------------------------------------------------------
-- The stacks
-- ---------------------------------------------------------------------------

/-- `TrailTerm` of a frame: a variable, or `AbsAppl` of a cell. -/
inductive TrailTerm where
  | var (a : ℕ)
  | appl (a : ℕ)

/-- `TrailTerm` and `TrailVal` of a frame. -/
structure TrailFrame where
  trailTerm : TrailTerm
  trailVal : AttCell

/-- A choice point: its place on the local stack, `cp_h`, and `cp_tr`. -/
structure Choiceptr where
  b : ℕ
  cpH : ℕ
  cpTr : ℕ

/-- `H_FZ` and `B_FZ`, the ends of the frozen stacks. -/
structure Frozen where
  hFz : ℕ
  bFz : ℕ

/-- `PROTECT_FROZEN_H`. -/
def Frozen.protectH (fz : Frozen) (cp : Choiceptr) : ℕ := if fz.hFz < cp.cpH then cp.cpH else fz.hFz

/-- `PROTECT_FROZEN_B`. -/
def Frozen.protectB (fz : Frozen) (cp : Choiceptr) : ℕ := if cp.b < fz.bFz then cp.b else fz.bFz

/-- The cells, `HR`, the frames below `TR` with the latest first, `B`, and the choice
    points behind it. -/
structure Stacks where
  mem : ℕ → AttCell
  hr : ℕ
  tr : List TrailFrame
  b : Choiceptr
  cpB : List Choiceptr

/-- `AtomMutableVariable`. -/
def atomMutableVariable : Atom :=
  ⟨[36, 109, 117, 116, 97, 98, 108, 101, 95, 118, 97, 114, 105, 97, 98, 108, 101], by decide⟩

/-- `FunctorMutable`, with an argument for each field of `timed_var`. -/
def functorMutable : Functor where
  nameOfFE := atomMutableVariable
  arityOfFE := 2
  arity_pos := Nat.succ_pos 1
  not_list := by decide

/-- `AtomFoundVar`. -/
def atomFoundVar : Atom := ⟨[42, 42], by decide⟩

namespace Stacks

variable (fz : Frozen)

-- ---------------------------------------------------------------------------
-- The trail
-- ---------------------------------------------------------------------------

/-- `*a = d`. -/
def set (a : ℕ) (d : AttCell) (s : Stacks) : Stacks := { s with mem := Function.update s.mem a d }

/-- `*HR++ = d`. -/
def push (d : AttCell) (s : Stacks) : Stacks := { s.set s.hr d with hr := s.hr + 1 }

/-- `DO_TRAIL`. -/
def doTrail (a : ℕ) (d : AttCell) (s : Stacks) : Stacks := { s with tr := ⟨.var a, d⟩ :: s.tr }

/-- `DO_MATRAIL`. -/
def doMaTrail (a : ℕ) (old d : AttCell) (s : Stacks) : Stacks :=
  { s with tr := ⟨.appl a, d⟩ :: ⟨.appl a, old⟩ :: s.tr }

/-- `TRAIL_GLOBAL`. -/
def trailGlobal (a : ℕ) (d : AttCell) (s : Stacks) : Stacks :=
  if a < fz.protectH s.b then s.doTrail a d else s

/-- `TRAIL_LOCAL`. -/
def trailLocal (a : ℕ) (d : AttCell) (s : Stacks) : Stacks :=
  if fz.protectB s.b < a then s.doTrail a d else s

/-- `MATRAIL`. -/
def maTrail (a : ℕ) (old d : AttCell) (s : Stacks) : Stacks :=
  if outside (fz.protectH s.b) a s.b.b then s.doMaTrail a old d else s

/-- `Bind_Local`. -/
def bindLocal (a : ℕ) (d : AttCell) (s : Stacks) : Stacks := (s.trailLocal fz a d).set a d

/-- `YapBind`, of a variable without attributes. -/
def yapBind (a : ℕ) (d : AttCell) (s : Stacks) : Stacks :=
  if a < s.hr then (s.set a d).trailGlobal fz a d else (s.set a d).trailLocal fz a d

/-- `MaBind`. -/
def maBind (a : ℕ) (d : AttCell) (s : Stacks) : Stacks := (s.maTrail fz a (s.mem a) d).set a d

-- ---------------------------------------------------------------------------
-- Mutables
-- ---------------------------------------------------------------------------

/-- A variable of the local stack is bound to a new one of the global stack, which
    takes its place. -/
def globalize (val : AttCell) (s : Stacks) : Stacks × AttCell :=
  match val with
  | .ref a => if s.hr < a then ((s.push (.ref s.hr)).bindLocal fz a (.ref s.hr), .ref s.hr) else (s, val)
  | _ => (s, val)

/-- `NewTimedVar`, after the variable was taken care of: the functor, the value, and
    an unbound clock. -/
def pushTimedVar (val : AttCell) (s : Stacks) : Stacks :=
  ((s.push (.functor functorMutable)).push val).push (.ref (s.hr + 2))

/-- `NewTimedVar`: the mutable, and the stacks. -/
def newTimedVar (val : AttCell) (s : Stacks) : ℕ × Stacks :=
  let (s', val') := s.globalize fz val
  (s'.hr, s'.pushTimedVar val')

/-- `ReadTimedVar`. -/
def readTimedVar (inv : ℕ) (s : Stacks) : AttCell := s.mem (inv + 1)

/-- `UpdateTimedVar`, after the variable was taken care of. -/
def assignTimedVar (inv timestmp : ℕ) (new : AttCell) (s : Stacks) : Stacks :=
  if s.b.cpH < timestmp ∧ fz.hFz < timestmp then s.set (inv + 1) new
  else
    let nclock := .ref s.hr
    ((s.maBind fz (inv + 1) new).push (.nonvar (.atom atomFoundVar))).maBind fz (inv + 2) nclock

/-- `UpdateTimedVar`: the old value, and the stacks. The clock has to be a reference. -/
def updateTimedVar (inv : ℕ) (new : AttCell) (s : Stacks) : Option (AttCell × Stacks) :=
  match s.mem (inv + 2) with
  | .ref timestmp =>
    let (s', new') := s.globalize fz new
    some (s.mem (inv + 1), s'.assignTimedVar fz inv timestmp new')
  | _ => none

-- ---------------------------------------------------------------------------
-- Choice points
-- ---------------------------------------------------------------------------

/-- Makes a choice point at a place of the local stack. -/
def choice (b : ℕ) (s : Stacks) : Stacks :=
  { s with b := ⟨b, s.hr, s.tr.length⟩, cpB := s.b :: s.cpB }

/-- `reset_trail`, which the loop of `fail` agrees with on these frames: the rest of
    the trail, and the cells. -/
def resetTrail (tr0 : ℕ) : List TrailFrame → (ℕ → AttCell) → List TrailFrame × (ℕ → AttCell)
  | ⟨.var a, d⟩ :: tr, mem =>
    if tr.length + 1 = tr0 then (⟨.var a, d⟩ :: tr, mem)
    else resetTrail tr0 tr (Function.update mem a (.ref a))
  | ⟨.appl a, d⟩ :: old :: tr, mem =>
    if tr.length + 2 = tr0 then (⟨.appl a, d⟩ :: old :: tr, mem)
    else resetTrail tr0 tr (Function.update mem a old.trailVal)
  | tr, mem => (tr, mem)

/-- A failure that leaves alternatives to the choice point. -/
def retry (s : Stacks) : Stacks where
  mem := (resetTrail s.b.cpTr s.tr s.mem).2
  hr := fz.protectH s.b
  tr := (resetTrail s.b.cpTr s.tr s.mem).1
  b := s.b
  cpB := s.cpB

/-- A failure that takes the last alternative of the choice point. -/
def trust (s : Stacks) : Option Stacks :=
  match s.cpB with
  | b :: cpB => some { s.retry fz with b := b, cpB := cpB }
  | [] => none

end Stacks

end Yap
