-- SUMMARY: The fast path of unification with a constant, and when it does what the general unification does.
import Yap.Unify.Correct

/-!
# Unification with a constant

`Yap_unify_constant` of `amiops.h` compares boxes by a switch of its own. The
general unification has another one at the top level and a third one among
arguments.
-/

namespace Yap

-- ---------------------------------------------------------------------------
-- The fast path
-- ---------------------------------------------------------------------------

/-- The switch of `Yap_unify_constant` on the functor of two boxes. It has no
case for strings. -/
def unifyConstantBlob (p q : Addr) : Blob → Blob → Bool
  | .dbRef, .dbRef => p = q
  | .longInt m, .longInt n => m = n
  | .double x, .double y => x.eq y
  | .bigInt b, .bigInt c => gmpTcmpBigBig b c = 0
  | _, _ => false

variable (hp : Heap)

/-- `Yap_unify_constant`. The constant is not dereferenced. -/
def unifyConstant (s : Store) (a : Cell) (cons : Nonvar) : UnifyStep :=
  match s.deref a with
  | .ref pt => .bind pt (.nonvar cons)
  | .nonvar d =>
    if d = cons then .next
    else
      match d, cons with
      | .appl p, .appl q =>
        match hp.functorAt p, hp.functorAt q with
        | .blob b, .blob c => if unifyConstantBlob p q b c then .next else .fail
        | _, _ => .fail
      | _, _ => .fail

/-- The answer and the memory after a step that visits no arguments. -/
def UnifyStep.outcome (s : Store) : UnifyStep → Option (Bool × (Addr → Cell))
  | .fail => some (false, s.cell)
  | .next => some (true, s.cell)
  | .bind a c => some (true, Function.update s.cell a c)
  | .visit _ _ _ _ => none

/-- Atoms, tagged integers and boxes. -/
def Nonvar.Atomic : Nonvar → Prop
  | .int _ | .atom _ => True
  | .pair _ => False
  | .appl p => ∃ b, hp.functorAt p = .blob b

-- ---------------------------------------------------------------------------
-- The general unification
-- ---------------------------------------------------------------------------

/-- Boxes that the fast path and the top level of the general unification do not
treat alike: strings with one text, and big numbers that differ. -/
def constantDefect : Blob → Blob → Bool
  | .string s, .string t => s = t
  | .bigInt b, .bigInt c => b ≠ c
  | _, _ => false

/-- The two words do not lead to such boxes. -/
def ConstantSound (s : Store) (a : Cell) (cons : Nonvar) : Prop :=
  ∀ p q b c, s.deref a = .nonvar (.appl p) → cons = .appl q → p ≠ q →
    hp.functorAt p = .blob b → hp.functorAt q = .blob c → constantDefect b c = false

variable {hp}

theorem unifyConstantBlob_eq_iff {p q : Addr} (b c : Blob) :
    unifyConstantBlob p q b c = unifyBlob p q b c ↔ constantDefect b c = false := by
  cases b <;> cases c <;>
    simp [unifyConstantBlob, unifyBlob, constantDefect, strcmp_eq_zero, gmpTcmpBigBig_eq_zero]

/-- Among arguments the general unification compares doubles bit by bit, and big
numbers by their contents. -/
theorem unifyConstantBlob_eq_unifyExtension_iff {p q : Addr} (b c : Blob) :
    unifyConstantBlob p q b c = unifyExtension p q b c ↔
      (∀ x y, b = .double x → c = .double y → (x.eq y = true ↔ x = y)) ∧
        ∀ s t, b = .string s → c = .string t → s ≠ t := by
  cases b <;> cases c <;> simp [unifyConstantBlob, unifyExtension, strcmp_eq_zero]
  case double.double x y =>
    constructor
    · intro h
      rw [h, decide_eq_true_iff]
    · intro h
      exact Bool.eq_iff_iff.2 (h.trans decide_eq_true_iff.symm)

/-- Beside a constant either both words are boxes, which a switch compares, or
the comparison fails. -/
theorem unifyNonvar_atomic {d cons : Nonvar} (hcons : cons.Atomic hp) (hne : d ≠ cons) :
    (∃ p q b c, d = .appl p ∧ cons = .appl q ∧ hp.functorAt p = .blob b ∧
        hp.functorAt q = .blob c ∧
        ∀ boxes, unifyNonvar hp boxes d cons = if boxes p q b c then .next else .fail) ∨
      ((∀ boxes, unifyNonvar hp boxes d cons = .fail) ∧
        ∀ p q b c, d = .appl p → cons = .appl q → hp.functorAt p = .blob b →
          hp.functorAt q ≠ .blob c) := by
  cases cons with
  | pair q => exact hcons.elim
  | appl q =>
    obtain ⟨c, hc⟩ := hcons
    cases d with
    | appl p =>
      cases hb : hp.functorAt p with
      | blob b =>
        refine .inl ⟨p, q, b, c, rfl, rfl, hb, hc, fun boxes => ?_⟩
        simp only [unifyNonvar, if_neg hne, hb, hc]
      | functor f =>
        refine .inr ⟨fun boxes => ?_, ?_⟩
        · simp only [unifyNonvar, if_neg hne, hb, hc]
        · rintro p' q' b c' ⟨⟩ - hp'
          rw [hb] at hp'
          cases hp'
    | _ => exact .inr ⟨fun boxes => by simp only [unifyNonvar, if_neg hne], by rintro _ _ _ _ ⟨⟩⟩
  | _ =>
    refine .inr ⟨fun boxes => ?_, by rintro _ _ _ _ - ⟨⟩⟩
    cases d <;> simp only [unifyNonvar, if_neg hne]

/-- The fast path is the general unification with its own switch. -/
theorem unifyConstant_nonvar {s : Store} {a : Cell} {d cons : Nonvar} (hcons : cons.Atomic hp)
    (hd : s.deref a = .nonvar d) :
    unifyConstant hp s a cons = unifyNonvar hp unifyConstantBlob d cons := by
  unfold unifyConstant
  rw [hd]
  by_cases heq : d = cons
  · simp only [unifyNonvar, if_pos heq]
  · rcases unifyNonvar_atomic hcons heq with ⟨p, q, b, c, rfl, rfl, hb, hc, hstep⟩ | ⟨hstep, hno⟩
    · rw [hstep]
      simp only [if_neg heq, hb, hc]
    · rw [hstep]
      simp only [if_neg heq]
      split
      · rename_i p q
        split
        · rename_i b c hb hc
          exact absurd hc (hno p q b c rfl rfl hb)
        · rfl
      · rfl

/-- The general unification ends at its top level where a word is a constant. -/
theorem iUnify_atomic (s : Store) (a : Cell) {d cons : Nonvar} (hcons : cons.Atomic hp)
    (hd : s.deref a = .nonvar d) (turns : ℕ) :
    iUnify hp turns s a (.nonvar cons) = (unifyNonvar hp unifyBlob d cons).outcome s := by
  have htop : unifyTop hp s a (.nonvar cons) = unifyNonvar hp unifyBlob d cons := by
    rw [unifyTop, hd]
    rfl
  unfold iUnify
  rw [htop]
  by_cases heq : d = cons
  · simp only [unifyNonvar, if_pos heq, UnifyStep.outcome]
  · rcases unifyNonvar_atomic hcons heq with ⟨p, q, b, c, -, -, -, -, hstep⟩ | ⟨hstep, -⟩
    · rw [hstep]
      cases unifyBlob p q b c <;> rfl
    · rw [hstep]
      rfl

/-- An unbound variable is bound to the constant by both. -/
theorem unifyConstant_unbound {s : Store} {a : Cell} {pt : Addr} (cons : Nonvar)
    (hd : s.deref a = .ref pt) (turns : ℕ) :
    iUnify hp turns s a (.nonvar cons) = (unifyConstant hp s a cons).outcome s := by
  have htop : unifyTop hp s a (.nonvar cons) = .bind pt (.nonvar cons) := by
    rw [unifyTop, hd]
    rfl
  rw [iUnify, htop, unifyConstant, hd]
  rfl

-- ---------------------------------------------------------------------------
-- Agreement
-- ---------------------------------------------------------------------------

variable (hp) in
/-- The fast path gives the answer and the memory of the general unification. -/
def ConstantAgrees (s : Store) (a : Cell) (cons : Nonvar) : Prop :=
  ∀ turns, iUnify hp turns s a (.nonvar cons) = (unifyConstant hp s a cons).outcome s

/-- The fast path gives the answer and the bindings of the general unification
exactly on words that do not lead to boxes that the two do not treat alike. -/
theorem unifyConstant_agrees_iff {s : Store} {a : Cell} {cons : Nonvar} (hcons : cons.Atomic hp) :
    ConstantAgrees hp s a cons ↔ ConstantSound hp s a cons := by
  unfold ConstantAgrees
  cases hd : s.deref a with
  | ref pt =>
    refine iff_of_true (unifyConstant_unbound cons hd) ?_
    intro p q b c hp
    rw [hd] at hp
    cases hp
  | nonvar d =>
    simp only [iUnify_atomic s a hcons hd, unifyConstant_nonvar hcons hd, forall_const]
    by_cases heq : d = cons
    · refine iff_of_true (by simp only [unifyNonvar, if_pos heq]) ?_
      rintro p q b c hp rfl hpq
      rw [hd, heq] at hp
      cases hp
      exact absurd rfl hpq
    · rcases unifyNonvar_atomic hcons heq with ⟨p, q, b, c, rfl, rfl, hb, hc, hstep⟩ | ⟨hstep, hno⟩
      · have hpq : p ≠ q := fun h => heq (by rw [h])
        rw [hstep, hstep]
        have hswitch : ConstantSound hp s a (.appl q) ↔
            unifyConstantBlob p q b c = unifyBlob p q b c := by
          rw [unifyConstantBlob_eq_iff]
          constructor
          · intro h
            exact h p q b c hd rfl hpq hb hc
          · rintro h p' q' b' c' hp' ⟨⟩ - hb' hc'
            rw [hd] at hp'
            cases hp'
            rw [hb] at hb'
            rw [hc] at hc'
            cases hb'
            cases hc'
            exact h
        rw [hswitch]
        cases unifyConstantBlob p q b c <;> cases unifyBlob p q b c <;> simp [UnifyStep.outcome]
      · rw [hstep, hstep]
        refine iff_of_true rfl ?_
        intro p q b c hp' hq _ hb hc
        rw [hd] at hp'
        cases hp'
        exact absurd hc (hno p q b c rfl hq hb)

/-- Two boxes that hold minus zero and zero are unified by both. -/
theorem unifyConstant_agrees_zeros :
    ConstantAgrees ⟨fun p => .blob (.double ⟨p = 0, 0, by decide⟩), 10⟩ .unbound (.nonvar (.appl 0))
      (.appl 3) := by
  have hatomic : (Nonvar.appl 3).Atomic ⟨fun p => .blob (.double ⟨p = 0, 0, by decide⟩), 10⟩ :=
    Exists.intro _ rfl
  refine (unifyConstant_agrees_iff hatomic).2 ?_
  intro p q b c _ _ _ hb hc
  cases hb
  cases hc
  rfl

/-- Two strings with one text in two boxes are not unified by the fast path. -/
theorem not_unifyConstant_agrees :
    ¬ ConstantAgrees ⟨fun _ => .blob (.string ⟨[97], by decide⟩), 10⟩ .unbound (.nonvar (.appl 0))
      (.appl 4) := by
  intro h
  have hanswer := congrArg (Option.map Prod.fst) (h 0)
  exact absurd hanswer (by decide +kernel)

end Yap
