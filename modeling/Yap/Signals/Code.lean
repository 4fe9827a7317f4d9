-- SUMMARY: The signals of the engine: raising and taking them, and the wake-up flag (single-threaded build).
import Mathlib

/-!
# Pending Signals

`LOCAL_Signals` is a word with a bit for each pending signal. The next call looks
at it only when `CreepFlag`, which otherwise holds the stack gap, is `LCL0`.
-/

namespace Yap
namespace Signals

/-- The signals of `YapSignals.h`, up to `YAP_CREEP_SIGNAL`; 0 is `YAP_NO_SIGNAL`. -/
structure YapSignal where
  num : ℕ
  pos : 0 < num
  le_creep : num ≤ 47

instance : DecidableEq YapSignal := fun sig sig' =>
  decidable_of_iff (sig.num = sig'.num) ⟨fun h => by cases sig; cases sig'; cases h; rfl, congrArg YapSignal.num⟩

/-- `YAP_INT_SIGNAL`, the number of `SIGINT`. -/
def yapIntSignal : YapSignal := ⟨2, Nat.two_pos, by decide⟩

def signalToBit (sig : YapSignal) : BitVec 64 := 1#64 <<< (sig.num - 1)

/-- `MinStackGap`, in a build with cells of 8 bytes. -/
def minStackGap : ℕ := 8 * 8 * 1024

/-- The bounds of the stacks, as addresses in bytes. -/
structure Stacks where
  h0 : ℕ
  lcl0 : ℕ
  h0_le : h0 ≤ lcl0
  minStackGap_lt : minStackGap < lcl0

/-- The difference of the two cell pointers counts cells of 8 bytes. -/
def stackGap (stk : Stacks) : ℕ :=
  let gmin := ((stk.lcl0 - stk.h0) / 8) >>> 2
  if gmin < minStackGap then minStackGap else gmin

/-- What the operations on signals read and write; `critMode` and `abortMode` are bits of `LOCAL_PrologMode`. -/
structure Local where
  signals : BitVec 64
  interruptsDisabled : ℤ
  creepFlag : ℕ
  eventFlag : ℕ
  critLocks : ℤ
  critMode : Bool
  abortMode : Bool

def calculateStackGap (stk : Stacks) (st : Local) : Local :=
  { st with creepFlag := stackGap stk, eventFlag := stackGap stk }

/-- The engine after its start. -/
def initial (stk : Stacks) : Local where
  signals := 0
  interruptsDisabled := 0
  creepFlag := stackGap stk
  eventFlag := stackGap stk
  critLocks := 0
  critMode := false
  abortMode := false

/-- How an operation ends: `Yap_RestartYap` leaves it by a long jump. -/
inductive Result where
  | void
  | returned (b : Bool)
  | restarts
deriving DecidableEq

-- ---------------------------------------------------------------------------
-- The operations
-- ---------------------------------------------------------------------------

def doSignal (stk : Stacks) (sig : YapSignal) (st : Local) : Local :=
  let st := { st with signals := st.signals ||| signalToBit sig }
  if st.interruptsDisabled = 0 then { st with creepFlag := stk.lcl0 } else st

def getSignal (stk : Stacks) (sig : YapSignal) (st : Local) : Local × Bool :=
  if st.signals &&& signalToBit sig ≠ 0 then
    let st := { st with signals := st.signals &&& ~~~ signalToBit sig }
    if st.interruptsDisabled = 0 ∧ st.signals ≠ 0 then
      ({ st with creepFlag := stk.lcl0 }, true)
    else
      (calculateStackGap stk st, true)
  else
    (st, false)

def enterCriticalSection (st : Local) : Local :=
  { st with critMode := true, critLocks := st.critLocks + 1 }

def leaveCriticalSection (st : Local) : Local × Result :=
  let st := { st with critLocks := st.critLocks - 1 }
  if st.critLocks = 0 then
    let st := { st with critMode := false }
    if st.abortMode then ({ st with abortMode := false }, .restarts) else (st, .returned true)
  else
    (st, .returned true)

/-- `Yap_DisableInterrupts`. -/
def yapDisableInterrupts (st : Local) : Local :=
  enterCriticalSection { st with interruptsDisabled := 1 }

/-- `Yap_EnableInterrupts`. -/
def yapEnableInterrupts (st : Local) : Local × Result :=
  leaveCriticalSection { st with interruptsDisabled := 0 }

/-- The builtin `$disable_interrupts` of `sig.c`. -/
def disableInterrupts (stk : Stacks) (st : Local) : Local :=
  calculateStackGap stk { st with interruptsDisabled := st.interruptsDisabled + 1 }

/-- `Yap_only_has_signal`: the bit is there, whatever the others are. -/
def yapOnlyHasSignal (sig : YapSignal) (st : Local) : Bool :=
  st.signals &&& signalToBit sig = signalToBit sig

def yapCreepSignal : YapSignal := ⟨47, by decide, by decide⟩

/-- The builtin `$enable_interrupts` of `sig.c`. -/
def enableInterrupts (stk : Stacks) (st : Local) : Local :=
  let st := { st with interruptsDisabled := st.interruptsDisabled - 1 }
  if st.signals ≠ 0 ∧ st.interruptsDisabled = 0 then
    let st := { st with creepFlag := stk.lcl0 }
    if !yapOnlyHasSignal yapCreepSignal st then { st with eventFlag := stk.lcl0 } else st
  else
    st

-- ---------------------------------------------------------------------------
-- Runs
-- ---------------------------------------------------------------------------

/-- The calls of the interface. -/
inductive Op where
  | doSignal (sig : YapSignal)
  | getSignal (sig : YapSignal)
  | disable
  | enable
deriving DecidableEq

def step (stk : Stacks) (st : Local) : Op → Local × Result
  | .doSignal sig => (doSignal stk sig st, .void)
  | .getSignal sig => ((getSignal stk sig st).1, .returned (getSignal stk sig st).2)
  | .disable => (yapDisableInterrupts st, .returned true)
  | .enable => yapEnableInterrupts st

def run (stk : Stacks) (st : Local) (ops : List Op) : Local :=
  ops.foldl (fun st op => (step stk st op).1) st

@[simp] theorem run_nil {stk : Stacks} {st : Local} : run stk st [] = st := rfl

@[simp] theorem run_cons {stk : Stacks} {st : Local} {op : Op} {ops : List Op} :
    run stk st (op :: ops) = run stk (step stk st op).1 ops := rfl

theorem run_append {stk : Stacks} {st : Local} (ops ops' : List Op) :
    run stk st (ops ++ ops') = run stk (run stk st ops) ops' :=
  List.foldl_append

theorem stackGap_ne_lcl0 (stk : Stacks) : stackGap stk ≠ stk.lcl0 := by
  have hmin := stk.minStackGap_lt
  have hpos : 0 < minStackGap := by decide
  have hshift : ((stk.lcl0 - stk.h0) / 8) >>> 2 = (stk.lcl0 - stk.h0) / 8 / 4 := Nat.shiftRight_eq_div_pow _ 2
  rw [stackGap, hshift]
  split <;> omega

-- ---------------------------------------------------------------------------
-- The bits of signals
-- ---------------------------------------------------------------------------

/-- A signal is pending when its bit is set. -/
def Local.has (st : Local) (sig : YapSignal) : Bool := st.signals.getLsbD (sig.num - 1)

theorem signalToBit_getLsbD (sig : YapSignal) (i : ℕ) :
    (signalToBit sig).getLsbD i = decide (i = sig.num - 1) := by
  have hle := sig.le_creep
  rw [signalToBit, BitVec.getLsbD_shiftLeft, BitVec.getLsbD_one]
  by_cases hi : i = sig.num - 1
  · have hlt : sig.num - 1 < 64 := by omega
    simp [hi, hlt]
  · have hne : i < sig.num - 1 ∨ i - (sig.num - 1) ≠ 0 := by omega
    rcases hne with hlt | hne
    · simp [hi, hlt]
    · simp [hi, hne]

theorem num_sub_one_inj {sig sig' : YapSignal} : sig.num - 1 = sig'.num - 1 ↔ sig = sig' := by
  obtain ⟨num, pos, hle⟩ := sig
  obtain ⟨num', pos', hle'⟩ := sig'
  simp only [YapSignal.mk.injEq]
  omega

/-- The test of `get_signal`. -/
theorem and_signalToBit_ne_zero (bits : BitVec 64) (sig : YapSignal) :
    bits &&& signalToBit sig ≠ 0 ↔ bits.getLsbD (sig.num - 1) = true := by
  constructor
  · intro hne
    by_contra hbit
    apply hne
    apply BitVec.eq_of_getLsbD_eq
    intro i _
    rw [BitVec.getLsbD_and, signalToBit_getLsbD]
    by_cases hi : i = sig.num - 1
    · subst hi
      simp [Bool.not_eq_true _ ▸ hbit]
    · simp [hi]
  · intro hbit hzero
    have hand : (bits &&& signalToBit sig).getLsbD (sig.num - 1) = true := by
      rw [BitVec.getLsbD_and, signalToBit_getLsbD, hbit]
      simp
    rw [hzero] at hand
    simp at hand

theorem or_signalToBit_ne_zero (bits : BitVec 64) (sig : YapSignal) : bits ||| signalToBit sig ≠ 0 := by
  intro hzero
  have hor : (bits ||| signalToBit sig).getLsbD (sig.num - 1) = true := by
    rw [BitVec.getLsbD_or, signalToBit_getLsbD]
    simp
  rw [hzero] at hor
  simp at hor

end Signals
end Yap
