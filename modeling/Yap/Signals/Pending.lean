-- SUMMARY: Pending signals and the wake-up flag over every run: when the flag is set, and what is reported once.
import Mathlib
import Yap.Signals.Code

/-!
# No Pending Signal Is Forgotten

What is pending, and whether interrupts are disabled, is first read off the
operations alone. A signal pending when `Yap_EnableInterrupts` is called may have
been raised without setting the flag, or another one taken since.
-/

namespace Yap
namespace Signals

-- ---------------------------------------------------------------------------
-- Histories
-- ---------------------------------------------------------------------------

/-- A signal is pending from its raise on, until it is asked for. -/
def pendingStep (sig : YapSignal) (pending : Bool) : Op → Bool
  | .doSignal sig' => if sig' = sig then true else pending
  | .getSignal sig' => if sig' = sig then false else pending
  | .disable => pending
  | .enable => pending

def pending (sig : YapSignal) (ops : List Op) : Bool := ops.foldl (pendingStep sig) false

def disabledStep (disabled : Bool) : Op → Bool
  | .doSignal _ => disabled
  | .getSignal _ => disabled
  | .disable => true
  | .enable => false

def disabled (ops : List Op) : Bool := ops.foldl disabledStep false

/-- The raises of a signal that found it not pending: each opens a period. -/
def periods (sig : YapSignal) : Bool → List Op → ℕ
  | _, [] => 0
  | raised, op :: ops =>
    (if op = .doSignal sig ∧ raised = false then 1 else 0) + periods sig (pendingStep sig raised op) ops

/-- The calls of `get_signal` for a signal that returned true. -/
def reports (stk : Stacks) (sig : YapSignal) : Local → List Op → ℕ
  | _, [] => 0
  | st, op :: ops =>
    (if op = .getSignal sig ∧ (step stk st op).2 = .returned true then 1 else 0) +
      reports stk sig (step stk st op).1 ops

-- ---------------------------------------------------------------------------
-- The properties
-- ---------------------------------------------------------------------------

/-- A pending signal sets the flag while interrupts are enabled. -/
def Awake (stk : Stacks) (st : Local) : Prop :=
  st.interruptsDisabled = 0 → st.signals ≠ 0 → st.creepFlag = stk.lcl0

/-- A pending signal sets the flag, in every state of the run that has interrupts enabled. -/
def NeverAsleep (stk : Stacks) (ops : List Op) : Prop :=
  ∀ before after, ops = before ++ after → Awake stk (run stk (initial stk) before)

/-- `get_signal` returns true when the signal is pending, once for each period that has ended. -/
def ReportedOnce (stk : Stacks) (ops : List Op) : Prop :=
  ∀ sig,
    (∀ before after, ops = before ++ .getSignal sig :: after →
      (step stk (run stk (initial stk) before) (.getSignal sig)).2 = .returned (pending sig before)) ∧
    reports stk sig (initial stk) ops + (if pending sig ops then 1 else 0) = periods sig false ops

/-- Interrupts are enabled again with no signal pending, or one was pending when
they were disabled and none was taken since. -/
def Notified (ops : List Op) : Prop :=
  ∀ before during after, ops = before ++ .disable :: (during ++ .enable :: after) →
    disabled before = false → .enable ∉ during →
    (∀ sig, pending sig (before ++ .disable :: during) = false) ∨
      (∃ sig, pending sig before) ∧
        ∀ during' sig rest, during = during' ++ .getSignal sig :: rest →
          pending sig (before ++ .disable :: during') = false

-- ---------------------------------------------------------------------------
-- What an operation does
-- ---------------------------------------------------------------------------

variable {stk : Stacks} {st : Local}

theorem doSignal_signals (sig : YapSignal) : (doSignal stk sig st).signals = st.signals ||| signalToBit sig := by
  rw [doSignal]
  split <;> rfl

theorem getSignal_signals (sig : YapSignal) :
    (getSignal stk sig st).1.signals = st.signals &&& ~~~ signalToBit sig := by
  rw [getSignal]
  by_cases hbit : st.signals &&& signalToBit sig ≠ 0
  · rw [if_pos hbit]
    dsimp only
    split <;> rfl
  · rw [if_neg hbit]
    apply BitVec.eq_of_getLsbD_eq
    intro i hi
    rw [and_signalToBit_ne_zero] at hbit
    simp only [BitVec.getLsbD_and, BitVec.getLsbD_not, signalToBit_getLsbD]
    by_cases heq : i = sig.num - 1
    · subst heq
      simp [hbit]
    · simp [heq, hi]

theorem leaveCriticalSection_fields :
    (leaveCriticalSection st).1.signals = st.signals ∧
      (leaveCriticalSection st).1.creepFlag = st.creepFlag ∧
      (leaveCriticalSection st).1.interruptsDisabled = st.interruptsDisabled := by
  rw [leaveCriticalSection]
  dsimp only
  split
  · split <;> exact ⟨rfl, rfl, rfl⟩
  · exact ⟨rfl, rfl, rfl⟩

theorem has_step (sig : YapSignal) (op : Op) : (step stk st op).1.has sig = pendingStep sig (st.has sig) op := by
  cases op with
  | doSignal sig' =>
    simp only [step, Local.has, pendingStep, doSignal_signals, BitVec.getLsbD_or, signalToBit_getLsbD]
    by_cases heq : sig' = sig
    · simp [heq]
    · simp [heq, num_sub_one_inj, Ne.symm heq]
  | getSignal sig' =>
    have hle := sig.le_creep
    have hlt : sig.num - 1 < 64 := by omega
    simp only [step, Local.has, pendingStep, getSignal_signals, BitVec.getLsbD_and, BitVec.getLsbD_not,
      signalToBit_getLsbD]
    by_cases heq : sig' = sig
    · simp [heq]
    · simp [heq, num_sub_one_inj, Ne.symm heq, hlt]
  | disable => rfl
  | enable => simp only [step, Local.has, pendingStep, yapEnableInterrupts, leaveCriticalSection_fields]

theorem disabled_step (op : Op) :
    decide ((step stk st op).1.interruptsDisabled ≠ 0) = disabledStep (decide (st.interruptsDisabled ≠ 0)) op := by
  cases op with
  | doSignal sig =>
    simp only [step, disabledStep, doSignal]
    split <;> rfl
  | getSignal sig =>
    simp only [step, disabledStep, getSignal]
    split
    · split <;> rfl
    · rfl
  | disable => rfl
  | enable => simp [step, disabledStep, yapEnableInterrupts, leaveCriticalSection_fields]

/-- `get_signal` says whether the signal was pending. -/
theorem getSignal_snd (sig : YapSignal) : (getSignal stk sig st).2 = st.has sig := by
  rw [getSignal, Local.has]
  by_cases hbit : st.signals &&& signalToBit sig ≠ 0
  · rw [if_pos hbit, (and_signalToBit_ne_zero _ _).mp hbit]
    dsimp only
    split <;> rfl
  · rw [if_neg hbit]
    rw [and_signalToBit_ne_zero] at hbit
    exact (Bool.not_eq_true _ ▸ hbit).symm

/-- Nothing sets an abort in these operations, so none of them restarts the engine. -/
theorem abortMode_step (op : Op) (hab : st.abortMode = false) :
    (step stk st op).1.abortMode = false ∧ (step stk st op).2 ≠ .restarts := by
  cases op with
  | doSignal sig =>
    refine ⟨?_, by simp [step]⟩
    simp only [step, doSignal]
    split <;> exact hab
  | getSignal sig =>
    refine ⟨?_, by simp [step]⟩
    simp only [step, getSignal]
    split
    · split <;> exact hab
    · exact hab
  | disable => exact ⟨hab, by simp [step]⟩
  | enable =>
    simp only [step, yapEnableInterrupts, leaveCriticalSection, hab]
    split <;> simp

theorem abortMode_run (ops : List Op) (hab : st.abortMode = false) : (run stk st ops).abortMode = false := by
  induction ops generalizing st with
  | nil => exact hab
  | cons op ops ih => exact ih (abortMode_step op hab).1

-- ---------------------------------------------------------------------------
-- Runs and their histories
-- ---------------------------------------------------------------------------

theorem has_run (sig : YapSignal) (ops : List Op) :
    (run stk st ops).has sig = ops.foldl (pendingStep sig) (st.has sig) := by
  induction ops generalizing st with
  | nil => rfl
  | cons op ops ih => rw [run_cons, ih, has_step, List.foldl_cons]

theorem has_run_initial (sig : YapSignal) (ops : List Op) :
    (run stk (initial stk) ops).has sig = pending sig ops := by
  rw [has_run, pending]
  simp [initial, Local.has]

theorem disabled_run (ops : List Op) :
    decide ((run stk st ops).interruptsDisabled ≠ 0) =
      ops.foldl disabledStep (decide (st.interruptsDisabled ≠ 0)) := by
  induction ops generalizing st with
  | nil => rfl
  | cons op ops ih => rw [run_cons, ih, disabled_step, List.foldl_cons]

theorem disabled_run_initial (ops : List Op) :
    decide ((run stk (initial stk) ops).interruptsDisabled ≠ 0) = disabled ops := disabled_run ops

theorem disabled_iff (ops : List Op) :
    disabled ops = false ↔ (run stk (initial stk) ops).interruptsDisabled = 0 := by
  rw [← @disabled_run_initial stk]
  simp

/-- Only bits of signals are set. -/
def OnlySignals (st : Local) : Prop := ∀ i, st.signals.getLsbD i = true → i < 47

theorem onlySignals_step (op : Op) (h : OnlySignals st) : OnlySignals (step stk st op).1 := by
  intro i hi
  cases op with
  | doSignal sig =>
    simp only [step, doSignal_signals, BitVec.getLsbD_or, signalToBit_getLsbD, Bool.or_eq_true,
      decide_eq_true_eq] at hi
    have hle := sig.le_creep
    have hpos := sig.pos
    rcases hi with hi | hi
    · exact h i hi
    · omega
  | getSignal sig =>
    simp only [step, getSignal_signals, BitVec.getLsbD_and, Bool.and_eq_true] at hi
    exact h i hi.1
  | disable => exact h i hi
  | enable =>
    simp only [step, yapEnableInterrupts, leaveCriticalSection_fields] at hi
    exact h i hi

theorem onlySignals_run (ops : List Op) (h : OnlySignals st) : OnlySignals (run stk st ops) := by
  induction ops generalizing st with
  | nil => exact h
  | cons op ops ih => exact ih (onlySignals_step op h)

theorem signals_ne_zero_iff (h : OnlySignals st) : st.signals ≠ 0 ↔ ∃ sig, st.has sig := by
  constructor
  · intro hne
    by_contra hnone
    apply hne
    apply BitVec.eq_of_getLsbD_eq
    intro i _
    rw [BitVec.ofNat_eq_ofNat, BitVec.getLsbD_zero]
    by_contra hi
    rw [Bool.not_eq_false] at hi
    have hlt := h i hi
    exact hnone ⟨⟨i + 1, by omega, by omega⟩, hi⟩
  · rintro ⟨sig, hsig⟩ hzero
    rw [Local.has, hzero] at hsig
    simp at hsig

theorem signals_run_ne_zero_iff (ops : List Op) :
    (run stk (initial stk) ops).signals ≠ 0 ↔ ∃ sig, pending sig ops := by
  have honly : OnlySignals (initial stk) := by
    intro i hi
    simp [initial] at hi
  rw [signals_ne_zero_iff (onlySignals_run ops honly)]
  simp only [has_run_initial]

-- ---------------------------------------------------------------------------
-- The flag
-- ---------------------------------------------------------------------------

theorem getSignal_of_not_has {sig : YapSignal} (h : st.has sig = false) : getSignal stk sig st = (st, false) := by
  rw [getSignal, if_neg]
  rw [and_signalToBit_ne_zero]
  exact Bool.not_eq_true _ ▸ h

theorem getSignal_creepFlag {sig : YapSignal} (h : st.has sig = true) :
    (getSignal stk sig st).1.creepFlag =
      if st.interruptsDisabled = 0 ∧ (getSignal stk sig st).1.signals ≠ 0 then stk.lcl0 else stackGap stk := by
  rw [getSignal_signals, getSignal, if_pos ((and_signalToBit_ne_zero _ _).mpr h)]
  dsimp only
  split <;> rfl

/-- The flag is only set with a signal pending. -/
theorem signals_ne_zero_step (op : Op) (h : st.creepFlag = stk.lcl0 → st.signals ≠ 0) :
    (step stk st op).1.creepFlag = stk.lcl0 → (step stk st op).1.signals ≠ 0 := by
  intro hflag
  cases op with
  | doSignal sig =>
    rw [step, doSignal_signals]
    exact or_signalToBit_ne_zero _ _
  | getSignal sig =>
    rw [step] at hflag ⊢
    cases hhas : st.has sig with
    | false =>
      rw [getSignal_of_not_has hhas] at hflag ⊢
      exact h hflag
    | true =>
      rw [getSignal_creepFlag hhas] at hflag
      by_cases hcond : st.interruptsDisabled = 0 ∧ (getSignal stk sig st).1.signals ≠ 0
      · exact hcond.2
      · rw [if_neg hcond] at hflag
        exact absurd hflag (stackGap_ne_lcl0 stk)
  | disable => exact h hflag
  | enable =>
    simp only [step, yapEnableInterrupts, leaveCriticalSection_fields] at hflag ⊢
    exact h hflag

theorem signals_ne_zero_run (ops : List Op) (hflag : (run stk (initial stk) ops).creepFlag = stk.lcl0) :
    (run stk (initial stk) ops).signals ≠ 0 := by
  induction ops using List.reverseRecOn with
  | nil => exact absurd hflag (stackGap_ne_lcl0 stk)
  | append_singleton ops op ih =>
    rw [run_append] at hflag ⊢
    exact signals_ne_zero_step op ih hflag

/-- While interrupts are disabled, taking a signal clears the flag and nothing sets it. -/
theorem creepFlag_step_disabled {op : Op} (hdis : st.interruptsDisabled ≠ 0) (hop : op ≠ .enable) :
    (step stk st op).1.creepFlag = stk.lcl0 ↔
      st.creepFlag = stk.lcl0 ∧ ∀ sig, op = .getSignal sig → st.has sig = false := by
  cases op with
  | doSignal sig => simp [step, doSignal, hdis]
  | getSignal sig =>
    rw [step]
    cases hhas : st.has sig with
    | false =>
      rw [getSignal_of_not_has hhas]
      simp [hhas]
    | true =>
      rw [getSignal_creepFlag hhas, if_neg]
      · simp [hhas, stackGap_ne_lcl0 stk]
      · rintro ⟨hen, -⟩
        exact hdis hen
  | disable => simp [step, yapDisableInterrupts, enterCriticalSection]
  | enable => exact absurd rfl hop

/-- Splits of a list at one of its places: the first, or one of the rest. -/
theorem forall_split_cons {P : List Op → YapSignal → Prop} {op : Op} {ops : List Op} :
    (∀ before sig after, op :: ops = before ++ .getSignal sig :: after → P before sig) ↔
      (∀ sig, op = .getSignal sig → P [] sig) ∧
        ∀ before sig after, ops = before ++ .getSignal sig :: after → P (op :: before) sig := by
  constructor
  · intro h
    refine ⟨?_, ?_⟩
    · rintro sig rfl
      exact h [] sig ops rfl
    · rintro before sig after rfl
      exact h (op :: before) sig after rfl
  · rintro ⟨hhead, htail⟩ before sig after heq
    cases before with
    | nil =>
      rw [List.nil_append, List.cons.injEq] at heq
      exact hhead sig heq.1
    | cons op' before =>
      rw [List.cons_append, List.cons.injEq] at heq
      obtain ⟨rfl, heq⟩ := heq
      exact htail before sig after heq

theorem creepFlag_run_disabled {ops : List Op} (hdis : st.interruptsDisabled ≠ 0) (hops : .enable ∉ ops) :
    (run stk st ops).creepFlag = stk.lcl0 ↔
      st.creepFlag = stk.lcl0 ∧
        ∀ before sig after, ops = before ++ .getSignal sig :: after → (run stk st before).has sig = false := by
  induction ops generalizing st with
  | nil => simp
  | cons op ops ih =>
    rw [List.mem_cons, not_or] at hops
    have hdis' : (step stk st op).1.interruptsDisabled ≠ 0 := by
      have hstep := @disabled_step stk st op
      rw [decide_eq_true hdis] at hstep
      cases op with
      | doSignal sig => exact of_decide_eq_true hstep
      | getSignal sig => exact of_decide_eq_true hstep
      | disable => exact of_decide_eq_true hstep
      | enable => exact absurd rfl hops.1
    rw [run_cons, ih hdis' hops.2, creepFlag_step_disabled hdis (Ne.symm hops.1), forall_split_cons]
    simp only [run_nil, run_cons]
    exact and_assoc

-- ---------------------------------------------------------------------------
-- The flag over a run
-- ---------------------------------------------------------------------------

/-- Interrupts were disabled by a call of `Yap_DisableInterrupts` that found them enabled. -/
theorem exists_disable {ops : List Op} (h : disabled ops = true) :
    ∃ before during, ops = before ++ .disable :: during ∧ disabled before = false ∧ .enable ∉ during := by
  induction ops using List.reverseRecOn with
  | nil => cases h
  | append_singleton ops op ih =>
    have hstep : disabledStep (disabled ops) op = true := by
      rwa [disabled, List.foldl_append] at h
    by_cases hops : disabled ops = true
    · obtain ⟨before, during, rfl, hbefore, hduring⟩ := ih hops
      refine ⟨before, during ++ [op], by simp, hbefore, ?_⟩
      rw [List.mem_append, List.mem_singleton, not_or]
      refine ⟨hduring, ?_⟩
      rintro rfl
      cases hstep
    · rw [Bool.not_eq_true] at hops
      cases op with
      | doSignal sig => exact absurd (hops ▸ hstep) (by simp [disabledStep])
      | getSignal sig => exact absurd (hops ▸ hstep) (by simp [disabledStep])
      | disable => exact ⟨ops, [], rfl, hops, by simp⟩
      | enable => cases hstep

/-- The flag at the end of a stretch with interrupts disabled, by its start. -/
theorem creepFlag_stretch {before during : List Op} (hduring : .enable ∉ during) :
    (run stk (initial stk) (before ++ .disable :: during)).creepFlag = stk.lcl0 ↔
      (run stk (initial stk) before).creepFlag = stk.lcl0 ∧
        ∀ during' sig rest, during = during' ++ .getSignal sig :: rest →
          pending sig (before ++ .disable :: during') = false := by
  have hdis : (step stk (run stk (initial stk) before) .disable).1.interruptsDisabled ≠ 0 := by
    simp [step, yapDisableInterrupts, enterCriticalSection]
  rw [run_append, run_cons, creepFlag_run_disabled hdis hduring]
  simp only [← @has_run_initial stk, run_append, run_cons]
  rfl

theorem awake_step_enabled {op : Op} (hen : st.interruptsDisabled = 0) (h : Awake stk st) :
    Awake stk (step stk st op).1 := by
  cases op with
  | doSignal sig =>
    intro _ _
    simp [step, doSignal, hen]
  | getSignal sig =>
    cases hhas : st.has sig with
    | false =>
      rw [step, getSignal_of_not_has hhas]
      exact h
    | true =>
      intro _ hne
      rw [step] at hne ⊢
      rw [getSignal_creepFlag hhas, if_pos ⟨hen, hne⟩]
  | disable =>
    intro hdis
    simp [step, yapDisableInterrupts, enterCriticalSection] at hdis
  | enable =>
    intro _ hne
    simp only [step, yapEnableInterrupts, leaveCriticalSection_fields] at hne ⊢
    exact h hen hne

theorem awake_of_disabled (h : st.interruptsDisabled ≠ 0) : Awake stk st := fun hen => absurd hen h

theorem step_enable_fields :
    (step stk st .enable).1.signals = st.signals ∧ (step stk st .enable).1.creepFlag = st.creepFlag := by
  simp only [step, yapEnableInterrupts, leaveCriticalSection_fields, and_self]

theorem awake_run_of_notified {ops : List Op} (h : Notified ops) (before after : List Op)
    (heq : ops = before ++ after) : Awake stk (run stk (initial stk) before) := by
  -- by induction on the length: the start of a stretch with interrupts disabled is a shorter run
  induction hn : before.length using Nat.strong_induction_on generalizing before after with
  | _ n ih =>
    rcases List.eq_nil_or_concat before with rfl | ⟨ops', op, rfl⟩
    · intro _ hne
      exact absurd rfl hne
    · rw [List.concat_eq_append] at heq hn ⊢
      have hlen : ops'.length < n := by
        rw [← hn, List.length_append, List.length_singleton]
        exact Nat.lt_succ_self _
      have hops' := ih ops'.length hlen ops' (op :: after) (by simpa using heq) rfl
      rw [run_append, run_cons, run_nil]
      by_cases hdis : disabled ops' = true
      · by_cases hop : op = .enable
        · subst hop
          obtain ⟨start, during, rfl, hstart, hduring⟩ := exists_disable hdis
          intro _ hne
          rw [step_enable_fields.1] at hne
          rw [step_enable_fields.2]
          have hsome := (signals_run_ne_zero_iff _).mp hne
          rcases h start during after (by simpa using heq) hstart hduring with hnone | ⟨hpending, htaken⟩
          · obtain ⟨sig, hsig⟩ := hsome
            rw [hnone sig] at hsig
            cases hsig
          · refine (creepFlag_stretch hduring).mpr ⟨?_, htaken⟩
            have hshort : start.length < n := by
              rw [List.length_append, List.length_cons] at hlen
              omega
            have hawake := ih start.length hshort start (.disable :: (during ++ .enable :: after))
              (by simpa using heq) rfl
            exact hawake ((disabled_iff start).mp hstart) ((signals_run_ne_zero_iff start).mpr hpending)
        · apply awake_of_disabled
          have hstep := @disabled_step stk (run stk (initial stk) ops') op
          rw [disabled_run_initial, hdis] at hstep
          cases op with
          | doSignal sig => exact of_decide_eq_true hstep
          | getSignal sig => exact of_decide_eq_true hstep
          | disable => exact of_decide_eq_true hstep
          | enable => exact absurd rfl hop
      · rw [Bool.not_eq_true, @disabled_iff stk] at hdis
        exact awake_step_enabled hdis hops'

theorem notified_of_neverAsleep {ops : List Op} (h : NeverAsleep stk ops) : Notified ops := by
  intro before during after heq hbefore hduring
  by_cases hnone : ∀ sig, pending sig (before ++ .disable :: during) = false
  · exact .inl hnone
  · right
    have hne : (run stk (initial stk) (before ++ .disable :: during)).signals ≠ 0 := by
      rw [signals_run_ne_zero_iff]
      by_contra hno
      apply hnone
      intro sig
      by_contra hsig
      exact hno ⟨sig, Bool.not_eq_false _ ▸ hsig⟩
    have hawake := h (before ++ .disable :: (during ++ [.enable])) after (by simpa using heq)
    have hrun : run stk (initial stk) (before ++ .disable :: (during ++ [.enable])) =
        (step stk (run stk (initial stk) (before ++ .disable :: during)) .enable).1 := by
      rw [← List.cons_append, ← List.append_assoc, run_append, run_cons, run_nil]
    rw [hrun] at hawake
    have hflag : (run stk (initial stk) (before ++ .disable :: during)).creepFlag = stk.lcl0 := by
      rw [← step_enable_fields.2]
      refine hawake ?_ (step_enable_fields.1.symm ▸ hne)
      simp only [step, yapEnableInterrupts, leaveCriticalSection_fields]
    obtain ⟨hstart, htaken⟩ := (creepFlag_stretch hduring).mp hflag
    exact ⟨(signals_run_ne_zero_iff before).mp (signals_ne_zero_run before hstart), htaken⟩

-- ---------------------------------------------------------------------------
-- What is reported
-- ---------------------------------------------------------------------------

/-- What one operation reports, opens and leaves open. -/
theorem report_step (sig : YapSignal) (op : Op) :
    (if op = .getSignal sig ∧ (step stk st op).2 = .returned true then 1 else 0) +
        (if pendingStep sig (st.has sig) op then 1 else 0) =
      (if op = .doSignal sig ∧ st.has sig = false then 1 else 0) + (if st.has sig then 1 else 0) := by
  cases op with
  | doSignal sig' =>
    by_cases heq : sig' = sig
    · cases hhas : st.has sig <;> simp [heq, pendingStep]
    · simp [heq, pendingStep]
  | getSignal sig' =>
    by_cases heq : sig' = sig
    · cases hhas : st.has sig <;> simp [heq, pendingStep, step, getSignal_snd, hhas]
    · simp [heq, pendingStep]
  | disable => cases hhas : st.has sig <;> simp [pendingStep]
  | enable => cases hhas : st.has sig <;> simp [pendingStep]

/-- Every period opened has been reported, but for the one still open. -/
theorem reports_add_pending (sig : YapSignal) (ops : List Op) :
    reports stk sig st ops + (if (run stk st ops).has sig then 1 else 0) =
      periods sig (st.has sig) ops + (if st.has sig then 1 else 0) := by
  induction ops generalizing st with
  | nil => rw [reports, periods, run_nil]
  | cons op ops ih =>
    have hops := @ih (step stk st op).1
    have hop := @report_step stk st sig op
    rw [has_step] at hops
    rw [reports, periods, run_cons]
    omega

theorem reportedOnce (ops : List Op) : ReportedOnce stk ops := by
  intro sig
  refine ⟨?_, ?_⟩
  · intro before after _
    rw [step, getSignal_snd, has_run_initial]
  · have hall := @reports_add_pending stk (initial stk) sig ops
    rw [has_run_initial] at hall
    simpa [initial, Local.has] using hall

-- ---------------------------------------------------------------------------
-- No pending signal is forgotten
-- ---------------------------------------------------------------------------

/-- No pending signal is forgotten in a run if and only if interrupts are enabled
again with no signal pending, or with one that was pending when they were disabled
and none taken since. What `get_signal` reports is right in every run. -/
theorem neverAsleep_reportedOnce_iff (stk : Stacks) (ops : List Op) :
    NeverAsleep stk ops ∧ ReportedOnce stk ops ↔ Notified ops := by
  constructor
  · rintro ⟨hawake, -⟩
    exact notified_of_neverAsleep hawake
  · intro h
    exact ⟨awake_run_of_notified h, reportedOnce ops⟩

/-- A stack of a megabyte. -/
def smallStacks : Stacks := ⟨0x100000, 0x200000, by decide, by decide⟩

/-- An interrupt raised while interrupts are disabled: the flag is not set when they are enabled again. -/
theorem not_neverAsleep_raised_disabled :
    ¬ NeverAsleep smallStacks [.disable, .doSignal yapIntSignal, .enable] := by
  intro h
  have hflag := h [.disable, .doSignal yapIntSignal, .enable] [] rfl (by decide) (by decide)
  revert hflag
  decide

/-- The builtins of `sig.c` set the flag when interrupts are enabled again. -/
theorem awake_enableInterrupts : Awake stk (enableInterrupts stk st) := by
  intro hen hne
  rw [enableInterrupts] at hen hne ⊢
  by_cases hcond : st.signals ≠ 0 ∧ st.interruptsDisabled - 1 = 0
  · rw [if_pos hcond]
    dsimp only
    split <;> rfl
  · rw [if_neg hcond] at hen hne
    exact absurd ⟨hne, hen⟩ hcond

end Signals
end Yap
