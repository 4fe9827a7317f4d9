-- SUMMARY: The nondeterministic predicate between, its choice point and its stop test, and when it enumerates the integers between its bounds.
import Yap.Arith.Exact
import Yap.Arith.Compare
import Yap.Parse.Tokens

/-!
# Enumerating integers

`between(Low, High, X)` keeps its current value and `High` in the cells of its
choice point. Machine integers are stopped by a comparison of words, all others
by the arithmetic comparison. The functions follow `eval.c`.
-/

namespace Yap

-- ---------------------------------------------------------------------------
-- The predicate
-- ---------------------------------------------------------------------------

/-- `AtomInfinity`. -/
def atomInfinity : Atom := ⟨[105, 110, 102, 105, 110, 105, 116, 121], by decide⟩

/-- The case `op_inf` of `eval0`. -/
def evalInf (iso : Bool) (hr : Addr) : Calc Term :=
  if iso then arithError .typeErrorEvaluable termNil "evaluating infinity"
  else rfloatTerm hr (infinity false)

/-- `Eval` on the atoms that `init_between` lets through. There is no constant
`infinity`. -/
def evalBound (iso : Bool) (hr : Addr) (t : Term) : Calc Term :=
  if t = .atom atomInf then evalInf iso hr
  else arithError .typeErrorEvaluable t "atom infinity in arithmetic expression"

/-- The cells that a box takes from the global stack. GMP decides on the number
of limbs of a number. -/
def boxCells (limbs : BigNum → ℕ) : Term → ℕ
  | .blob _ (.bigInt b) => 5 + limbs b
  | .blob _ _ => 3
  | _ => 0

/-- The cells that the choice point keeps, and the top of the global stack when
it is resumed. -/
structure ExtraCback where
  t1 : Term
  t2 : Term
  hr : Addr

/-- How a call or a retry ends, with the binding of the third argument. A cut
removes the choice point. -/
inductive Reply
  | cutFail
  | cutSucceed (arg3 : Term)
  | succeed (arg3 : Term) (back : ExtraCback)

variable (limbs : BigNum → ℕ) (iso : Bool) (cleared : ℚ → ℚ)

/-- `Yap_acmp`. -/
def acmpBound (hr : Addr) (t1 t2 : Term) : Calc ℤ := aCmp (evalBound iso hr) cleared t1 t2

/-- The next value is kept, and what was built for it is kept on the stack. -/
def ExtraCback.advance (c : ExtraCback) (hr : Addr) (tn : Term) : ExtraCback where
  t1 := tn
  t2 := c.t2
  hr := hr + boxCells limbs tn

/-- `cont_between`. The test `t1 == t2` compares words. -/
def contBetween (c : ExtraCback) : Calc Reply :=
  match eTypeOfTerm c.t1 with
  | .longInt i1 =>
    if c.t1 = c.t2 then return .cutSucceed c.t1
    else do
      let tn ← addInt c.hr i1 1
      return .succeed c.t1 (c.advance limbs c.hr tn)
  | _ => do
    let cmp ← acmpBound iso cleared c.hr c.t1 c.t2
    if cmp = 0 then return .cutSucceed c.t1
    else
      -- the term `t1 + 1` is built first
      let tn ← pPlus (c.hr + 3) c.t1 (mkIntTerm 1)
      return .succeed c.t1 (c.advance limbs (c.hr + 3) tn)

/-- A bound third argument beside a machine integer. -/
def checkWord (t3 : Term) (inside : Word → Bool) : Calc Reply :=
  match eTypeOfTerm t3 with
  | .longInt i3 => return if inside i3 then .cutSucceed t3 else .cutFail
  | .bigInt _ => return .cutFail
  | _ => arithError .typeErrorInteger t3 "between/3"

/-- A bound third argument beside a big integer. -/
def checkBig (hr : Addr) (t1 t2 t3 : Term) : Calc Reply := do
  match eTypeOfTerm t3 with
  | .longInt _ | .bigInt _ =>
    if 0 ≤ (← acmpBound iso cleared hr t3 t1) then
      if 0 ≤ (← acmpBound iso cleared hr t2 t3) then return .cutSucceed t3
    return .cutFail
  | _ => arithError .typeErrorInteger t3 "between/3"

/-- `init_between` after the type tests. -/
def startBetween (hr : Addr) (t1 t2 t3 : Term) : Calc Reply :=
  match eTypeOfTerm t1, eTypeOfTerm t2 with
  | .longInt i1, .longInt i2 =>
    if !t3.isVarTerm then checkWord t3 fun i3 => i1.toInt ≤ i3.toInt ∧ i3.toInt ≤ i2.toInt
    else if i2.toInt < i1.toInt then return .cutFail
    else if i1 = i2 then return .cutSucceed t1
    else contBetween limbs iso cleared ⟨t1, t2, hr⟩
  | .longInt i1, .dbRef =>
    if !t3.isVarTerm then checkWord t3 fun i3 => i1.toInt ≤ i3.toInt
    else contBetween limbs iso cleared ⟨t1, t2, hr⟩
  | _, _ =>
    if !t3.isVarTerm then checkBig iso cleared hr t1 t2 t3
    else do
      let cmp ← acmpBound iso cleared hr t1 t2
      if 0 < cmp then return .cutFail
      else if cmp = 0 then return .cutSucceed t1
      else contBetween limbs iso cleared ⟨t1, t2, hr⟩

/-- `init_between`. The error of an unbound second argument shows the first one. -/
def initBetween (hr : Addr) (t1 t2 t3 : Term) : Calc Reply :=
  if t1.isVarTerm then arithError .instantiationError t1 "between/3"
  else if t2.isVarTerm then arithError .instantiationError t1 "between/3"
  else
    match eTypeOfTerm t1, eTypeOfTerm t2 with
    | .longInt _, .longInt _ | .longInt _, .bigInt _ | .bigInt _, .longInt _
    | .bigInt _, .bigInt _ => startBetween limbs iso cleared hr t1 t2 t3
    | .longInt _, _ | .bigInt _, _ =>
      if t2 = .atom atomInf ∨ t2 = .atom atomInfinity then startBetween limbs iso cleared hr t1 t2 t3
      else arithError .typeErrorInteger t2 "between/3"
    | _, _ => arithError .typeErrorInteger t1 "between/3"

-- ---------------------------------------------------------------------------
-- Enumeration
-- ---------------------------------------------------------------------------

/-- The replies to a call and to the retries that follow it. -/
inductive NthReply (call : Calc Reply) : ℕ → Reply → Prop
  | call {r : Reply} : call.Returns r → NthReply call 0 r
  | retry {n : ℕ} {t : Term} {c : ExtraCback} {r : Reply} : NthReply call n (.succeed t c) →
      (contBetween limbs iso cleared c).Returns r → NthReply call (n + 1) r

/-- The number that a bound stands for: an integer, or no bound at all. -/
def Term.limit? (t : Term) : Option (WithTop ℤ) :=
  if t = .atom atomInf then some ⊤ else t.intValue?.map fun z => ((z : ℤ) : WithTop ℤ)

/-- The answers are the integers from `low` on, one after another, and the
answer `high` is the last one, which leaves no choice point. -/
def YieldsRange (call : Calc Reply) (low : ℤ) (high : WithTop ℤ) : Prop :=
  ∀ n : ℕ,
    (((low + n : ℤ) : WithTop ℤ) < high →
      ∃ t c, NthReply limbs iso cleared call n (.succeed t c) ∧ t.intValue? = some (low + n)) ∧
    (((low + n : ℤ) : WithTop ℤ) = high →
      ∃ t, NthReply limbs iso cleared call n (.cutSucceed t) ∧ t.intValue? = some (low + n))

/-- When the enumeration runs from `low` to `high` without a slip. -/
structure PassesTo (low : ℤ) (high : WithTop ℤ) : Prop where
  /-- A machine integer that is boxed is not met. -/
  tagged : ∀ z : ℤ, high = z → Word.Fits z → Tags.InField z
  /-- No value on the way is tagged without fitting the field. -/
  boxable : ∀ z : ℤ, low < z → (z : WithTop ℤ) ≤ high → ¬ InBand z
  /-- The atom `inf` has to be evaluable. -/
  unbounded : high = ⊤ → iso = false

/-- When the enumeration is right. A sole answer is given by the call itself. -/
def YieldsRangeWhen (low : ℤ) (high : WithTop ℤ) : Prop := high = low ∨ PassesTo iso low high

-- ---------------------------------------------------------------------------
-- Bounds
-- ---------------------------------------------------------------------------

/-- The box of a term is below the top of the global stack. -/
def Term.Below (hr : Addr) (t : Term) : Prop := ∀ p b, t = .blob p b → p < hr

/-- A bound is a machine integer, a big integer or the atom `inf`. -/
theorem Term.limit?_cases {t : Term} {high : WithTop ℤ} (h : t.limit? = some high) :
    (t = .atom atomInf ∧ high = ⊤) ∨
      (∃ i, eTypeOfTerm t = .longInt i ∧ high = (i.toInt : ℤ)) ∨
      (∃ b : BigInt, eTypeOfTerm t = .bigInt (.int b) ∧ high = (b.1 : ℤ)) := by
  unfold Term.limit? at h
  split at h
  · rename_i hinf
    exact .inl ⟨hinf, (Option.some.inj h).symm⟩
  · obtain ⟨z, hz, rfl⟩ := Option.map_eq_some_iff.1 h
    rcases Term.intValue?_cases hz with ⟨i, hi, rfl, -⟩ | ⟨b, hb, rfl, -⟩
    · exact .inr (.inl ⟨i, hi, rfl⟩)
    · exact .inr (.inr ⟨b, hb, rfl⟩)

theorem Term.eq_inf_of_limit? {t : Term} (h : t.limit? = some ⊤) : t = .atom atomInf := by
  rcases Term.limit?_cases h with ⟨hinf, -⟩ | ⟨i, -, hi⟩ | ⟨b, -, hb⟩
  · exact hinf
  · exact absurd hi WithTop.top_ne_coe
  · exact absurd hb WithTop.top_ne_coe

/-- A machine integer that fits the field is tagged. -/
theorem eq_int_of_inField {t : Term} {i : Word} (h : eTypeOfTerm t = .longInt i)
    (hi : Tags.InField i.toInt) : ∃ n, t = .int n ∧ intOfTerm n = i := by
  cases t with
  | int n => exact ⟨n, rfl, EType.longInt.inj h⟩
  | blob p b =>
    cases b with
    | longInt n =>
      obtain rfl := EType.longInt.inj h
      exact absurd hi n.2
    | _ => cases h
  | _ => cases h

-- ---------------------------------------------------------------------------
-- One retry
-- ---------------------------------------------------------------------------

/-- The place where the next value is built. -/
def ExtraCback.top (c : ExtraCback) (v : ℤ) : Addr := if Word.Fits v then c.hr else c.hr + 3

/-- The choice point after the answer `v`. -/
def ExtraCback.next (c : ExtraCback) (v : ℤ) : ExtraCback :=
  c.advance limbs (c.top v) (mkBigIntTerm (c.top v) (v + 1))

/-- What the stop test says of the value `v`. -/
def ExtraCback.Stops (c : ExtraCback) (v : ℤ) (high : WithTop ℤ) : Prop :=
  if Word.Fits v then c.t1 = c.t2 else (v : WithTop ℤ) = high

variable {limbs iso cleared} {c : ExtraCback} {v : ℤ} {high : WithTop ℤ} {hr : Addr} {t1 t2 : Term}

/-- The atom `inf` is evaluated for the comparison with a big integer. -/
theorem acmpBound_inf (iso : Bool) (cleared : ℚ → ℚ) (hr : Addr) {b : BigNum}
    (h1 : eTypeOfTerm t1 = .bigInt b) :
    acmpBound iso cleared hr t1 (.atom atomInf) = evalInf iso hr >>= aCmpBig cleared b := by
  obtain ⟨hvar, hnum⟩ := Term.number_tests (t := t1) (x := b.val) (by rw [Term.value?, h1]; rfl)
  have hvar2 : (Term.atom atomInf).isVarTerm = false := rfl
  have hnum2 : (Term.atom atomInf).isNumTerm = false := rfl
  have hbound : evalBound iso hr (.atom atomInf) = evalInf iso hr := if_pos rfl
  unfold acmpBound aCmp aCmpEval yapEval
  simp only [hvar, hvar2, hnum, hnum2, h1, orNull_pure, hbound, Bool.false_eq_true, if_false,
    if_true, pure_bind]

/-- A big integer is compared with a bound exactly. -/
theorem acmpBound_big (cleared : ℚ → ℚ) (hr : Addr) {b : BigInt} (h1 : eTypeOfTerm t1 = .bigInt (.int b))
    (h2 : t2.limit? = some high) (hiso : high = ⊤ → iso = false) :
    ∃ out, acmpBound iso cleared hr t1 t2 = pure out ∧
      (out = 0 ↔ ((b.1 : ℤ) : WithTop ℤ) = high) ∧ (0 < out ↔ high < ((b.1 : ℤ) : WithTop ℤ)) := by
  have hv1 : t1.value? = some (b.1 : ℚ) := by rw [Term.value?, h1]; rfl
  rcases Term.limit?_cases h2 with ⟨rfl, rfl⟩ | ⟨i, hi, rfl⟩ | ⟨c, hc, rfl⟩
  · refine ⟨-1, ?_, by simp, by simp⟩
    rw [hiso rfl, acmpBound_inf false cleared hr h1]
    rfl
  · have hv2 : t2.value? = some (i.toInt : ℚ) := by rw [Term.value?, hi]; rfl
    have hsign := signOf_gmpCmpBigInt (.int b) i
    rw [BigNum.val, compare_intCast] at hsign
    refine ⟨gmpCmpBigInt (.int b) i, ?_, ?_, ?_⟩
    · rw [acmpBound, aCmp_number _ _ hv1 hv2, h1]
      simp only [aCmpBig, hi]
    · rw [WithTop.coe_inj, ← signOf.eq_eq, hsign, compare_eq_iff_eq]
    · rw [WithTop.coe_lt_coe, ← signOf.eq_gt, hsign, compare_gt_iff_gt]
  · have hv2 : t2.value? = some (c.1 : ℚ) := by rw [Term.value?, hc]; rfl
    have hsign : signOf (mpzCmp b.1 c.1) = compare b.1 c.1 := signOf_mpzCmp _ _
    refine ⟨mpzCmp b.1 c.1, ?_, ?_, ?_⟩
    · rw [acmpBound, aCmp_number _ _ hv1 hv2, h1]
      simp only [aCmpBig, hc]
      rfl
    · rw [WithTop.coe_inj, ← signOf.eq_eq, hsign, compare_eq_iff_eq]
    · rw [WithTop.coe_lt_coe, ← signOf.eq_gt, hsign, compare_gt_iff_gt]

theorem Calc.Returns.map {α β : Type} {x : Calc α} {a : α} (h : x.Returns a) (f : α → β) :
    (do let a ← x; return f a).Returns (f a) := by
  obtain ⟨o, ho⟩ := h
  exact ⟨o, Calc.bind_run ho _⟩

/-- A machine integer and one. -/
theorem addInt_one_returns (hr : Addr) (i : Word) :
    (addInt hr i 1).Returns (mkBigIntTerm hr (i.toInt + 1)) := by
  have h := addInt_returns hr i 1
  have hone : ((i.toInt : ℚ) + (1 : Word).toInt) = ((i.toInt + 1 : ℤ) : ℚ) := by
    rw [show (1 : Word).toInt = 1 by decide]
    push_cast
    rfl
  rwa [hone, mkBigRatTerm_intCast] at h

theorem pPlus_one_returns (hr : Addr) (h : t1.value? = some (v : ℚ)) :
    (pPlus hr t1 (mkIntTerm 1)).Returns (mkBigIntTerm hr (v + 1)) := by
  have hone : (mkIntTerm 1).value? = some 1 := by decide +kernel
  have hsum := pPlus_returns hr h hone
  have hcast : ((v : ℚ) + 1) = ((v + 1 : ℤ) : ℚ) := by push_cast; rfl
  rwa [hcast, mkBigRatTerm_intCast] at hsum

/-- What a retry does. -/
theorem contBetween_returns (limbs : BigNum → ℕ) (cleared : ℚ → ℚ) (h1 : c.t1.intValue? = some v) (h2 : c.t2.limit? = some high)
    (hiso : high = ⊤ → iso = true → Word.Fits v) :
    (c.Stops v high → (contBetween limbs iso cleared c).Returns (.cutSucceed c.t1)) ∧
      (¬ c.Stops v high →
        (contBetween limbs iso cleared c).Returns (.succeed c.t1 (c.next limbs v))) := by
  unfold ExtraCback.Stops ExtraCback.next ExtraCback.top contBetween
  rcases Term.intValue?_cases h1 with ⟨i, hi, rfl, -⟩ | ⟨b, hb, rfl, -⟩
  · rw [hi, if_pos (Word.fits_toInt i), if_pos (Word.fits_toInt i)]
    constructor
    · intro hstop
      simp only [if_pos hstop]
      exact ⟨false, rfl⟩
    · intro hstop
      simp only [if_neg hstop]
      exact (addInt_one_returns c.hr i).map _
  · rw [hb, if_neg b.2, if_neg b.2]
    have hiso' : high = ⊤ → iso = false := fun htop =>
      Bool.eq_false_of_not_eq_true fun htrue => b.2 (hiso htop htrue)
    obtain ⟨out, hout, hzero, -⟩ := acmpBound_big cleared c.hr hb h2 hiso'
    simp only [hout, pure_bind]
    have hv : c.t1.value? = some ((b.1 : ℤ) : ℚ) := by rw [Term.value?, hb]; rfl
    constructor
    · intro hstop
      rw [if_pos (hzero.2 hstop)]
      exact ⟨false, rfl⟩
    · intro hstop
      rw [if_neg (mt hzero.1 hstop)]
      exact (pPlus_one_returns (c.hr + 3) hv).map _

/-- The atom `inf` cannot be compared with a big integer under the ISO flag. -/
theorem contBetween_iso (h1 : c.t1.intValue? = some v) (h2 : c.t2 = .atom atomInf)
    (hv : ¬ Word.Fits v) (r : Reply) : ¬ (contBetween limbs true cleared c).Returns r := by
  rcases Term.intValue?_cases h1 with ⟨i, hi, rfl, -⟩ | ⟨b, hb, rfl, -⟩
  · exact absurd (Word.fits_toInt i) hv
  · unfold contBetween
    rw [hb]
    simp only [h2, acmpBound_inf true cleared c.hr hb]
    rintro ⟨o, ho⟩
    cases ho

-- ---------------------------------------------------------------------------
-- The run
-- ---------------------------------------------------------------------------

/-- The choice point holds the value `v`, and its cells do not share a box with
the bound unless the bound is tagged or big. -/
structure ExtraCback.Holds (c : ExtraCback) (t2 : Term) (v : ℤ) (high : WithTop ℤ) : Prop where
  value : c.t1.intValue? = some v
  bound : c.t2 = t2
  below : t2.Below c.hr
  unshared : c.t1 = t2 → ∀ z : ℤ, high = z → Word.Fits z → Tags.InField z

/-- A tagged bound fits the field. -/
theorem tagged_of_int {n : BitVec 58} (h : (Term.int n).limit? = some high) :
    ∀ z : ℤ, high = z → Word.Fits z → Tags.InField z := by
  rintro z rfl -
  have hz : (intOfTerm n).toInt = z := WithTop.coe_inj.1 (Option.some.inj h)
  rw [← hz]
  exact inField_intOfTerm n

/-- A new value is tagged, or its box is at the top of the stack. -/
theorem mkBigIntTerm_cases (hr : Addr) (z : ℤ) :
    (∃ n, mkBigIntTerm hr z = .int n) ∨ ∃ b, mkBigIntTerm hr z = .blob hr b := by
  unfold mkBigIntTerm mkIntegerTerm
  split
  · split
    · exact .inl ⟨_, rfl⟩
    · exact .inr ⟨_, rfl⟩
  · exact .inr ⟨_, rfl⟩

theorem ExtraCback.Holds.next (hc : c.Holds t2 v high) (h2 : t2.limit? = some high)
    (hband : ¬ InBand (v + 1)) : (c.next limbs v).Holds t2 (v + 1) high := by
  have htop : c.hr ≤ c.top v := by
    unfold ExtraCback.top
    split
    · exact le_rfl
    · exact Nat.le_add_right _ _
  refine ⟨(mkBigIntTerm_intValue? _ _).2 hband, hc.bound, ?_, ?_⟩
  · intro p b hpb
    exact lt_of_lt_of_le (hc.below p b hpb) (htop.trans (Nat.le_add_right _ _))
  · intro hshared
    rcases mkBigIntTerm_cases (c.top v) (v + 1) with ⟨n, hn⟩ | ⟨b, hb⟩
    · have ht2 : t2 = .int n := hshared.symm.trans hn
      rw [ht2] at h2
      exact tagged_of_int h2
    · have ht2 : t2 = .blob (c.top v) b := hshared.symm.trans hb
      exact absurd (hc.below _ _ ht2) (not_lt.2 htop)

/-- Before the bound no stop test succeeds. -/
theorem ExtraCback.Holds.not_stops (hc : c.Holds t2 v high) (h2 : t2.limit? = some high)
    (hlt : (v : WithTop ℤ) < high) : ¬ c.Stops v high := by
  unfold ExtraCback.Stops
  split
  · intro heq
    have hv := hc.value
    rw [heq, hc.bound] at hv
    unfold Term.limit? at h2
    split at h2
    · rename_i hinf
      rw [hinf] at hv
      cases hv
    · rw [hv] at h2
      exact hlt.ne (Option.some.inj h2)
  · exact hlt.ne

/-- At the bound the stop test succeeds where the bound is tagged or big. -/
theorem ExtraCback.Holds.stops (hc : c.Holds t2 v v) (h2 : t2.limit? = some (v : WithTop ℤ))
    (htagged : Word.Fits v → Tags.InField v) : c.Stops v v := by
  unfold ExtraCback.Stops
  split
  · rename_i hfits
    have hfield := htagged hfits
    rcases Term.intValue?_cases hc.value with ⟨i, hi, rfl, -⟩ | ⟨b, -, rfl, -⟩
    · obtain ⟨m, hm, rfl⟩ := eq_int_of_inField hi hfield
      rcases Term.limit?_cases h2 with ⟨-, htop⟩ | ⟨j, hj, hij⟩ | ⟨b, -, hb⟩
      · exact absurd htop (WithTop.coe_ne_top)
      · rw [WithTop.coe_inj, Word.toInt_inj] at hij
        subst hij
        obtain ⟨n, hn, hmn⟩ := eq_int_of_inField hj hfield
        rw [hm, hc.bound, hn, intOfTerm_inj.1 hmn]
      · rw [WithTop.coe_inj] at hb
        exact absurd (hb ▸ hfits) b.2
    · exact absurd hfits b.2
  · rfl

/-- Before the bound a retry keeps the next value. -/
theorem ExtraCback.Holds.advances (limbs : BigNum → ℕ) (cleared : ℚ → ℚ) (hc : c.Holds t2 v high)
    (h2 : t2.limit? = some high) (hlt : (v : WithTop ℤ) < high)
    (hiso : high = ⊤ → iso = true → Word.Fits v) :
    (contBetween limbs iso cleared c).Returns (.succeed c.t1 (c.next limbs v)) :=
  (contBetween_returns limbs cleared hc.value (hc.bound ▸ h2) hiso).2 (hc.not_stops h2 hlt)

/-- As long as every value is right, the replies are those of a choice point
that holds the next value. -/
theorem NthReply.reach {call : Calc Reply} {low : ℤ} {c0 : ExtraCback}
    (hcall : call = contBetween limbs iso cleared c0) (h0 : c0.Holds t2 low high)
    (h2 : t2.limit? = some high) (n : ℕ) (hle : ((low + n : ℤ) : WithTop ℤ) ≤ high)
    (hband : ∀ z, low < z → z ≤ low + n → ¬ InBand z)
    (hiso : high = ⊤ → iso = true → ∀ i : ℕ, i < n → Word.Fits (low + i)) :
    ∃ c : ExtraCback, c.Holds t2 (low + n) high ∧
      ∀ r, NthReply limbs iso cleared call n r ↔ (contBetween limbs iso cleared c).Returns r := by
  induction n with
  | zero =>
    refine ⟨c0, by simpa using h0, fun r => ?_⟩
    rw [← hcall]
    constructor
    · rintro (h | _)
      exact h
    · exact .call
  | succ n ih =>
    have hlt : ((low + n : ℤ) : WithTop ℤ) < high :=
      lt_of_lt_of_le (WithTop.coe_lt_coe.2 (by push_cast; omega)) hle
    obtain ⟨c, hc, hreply⟩ := ih hlt.le (fun z hz hzn => hband z hz (by push_cast; omega))
      fun htop htrue i hi => hiso htop htrue i (by omega)
    have hnext := hc.advances limbs cleared h2 hlt
      fun htop htrue => hiso htop htrue n (Nat.lt_succ_self n)
    have hval : low + n + 1 = low + ((n + 1 : ℕ) : ℤ) := by push_cast; ring
    refine ⟨c.next limbs (low + n), ?_, fun r => ?_⟩
    · rw [← hval]
      exact hc.next h2 (hval ▸ hband _ (by omega) (by omega))
    · constructor
      · rintro (_ | ⟨hsucc, hr⟩)
        have heq := Calc.Returns.inj ((hreply _).1 hsucc) hnext
        injection heq with _ heq
        rwa [heq] at hr
      · exact .retry ((hreply _).2 hnext)

theorem Calc.of_bind_run {α β : Type} {y : Calc α} {f : α → Calc β} {r : β} {o o' : Bool}
    (h : (y >>= f).run o = .ok (r, o')) : ∃ a o1, y.run o = .ok (a, o1) ∧ (f a).run o1 = .ok (r, o') := by
  rw [StateT.run_bind] at h
  cases hy : y.run o with
  | error e =>
    rw [hy] at h
    cases h
  | ok p =>
    rw [hy] at h
    exact ⟨p.1, p.2, rfl, h⟩

/-- A retry binds the third argument to the value that was kept. -/
theorem contBetween_arg3 {r : Reply} (h : (contBetween limbs iso cleared c).Returns r) :
    r = .cutSucceed c.t1 ∨ ∃ c', r = .succeed c.t1 c' := by
  obtain ⟨o, h⟩ := h
  unfold contBetween at h
  split at h
  · split at h
    · cases h
      exact .inl rfl
    · obtain ⟨tn, o1, -, h⟩ := Calc.of_bind_run h
      cases h
      exact .inr ⟨_, rfl⟩
  · obtain ⟨cmp, o1, -, h⟩ := Calc.of_bind_run h
    split at h
    · cases h
      exact .inl rfl
    · obtain ⟨tn, o2, -, h⟩ := Calc.of_bind_run h
      cases h
      exact .inr ⟨_, rfl⟩

/-- The reply after one that keeps the value of `c'` binds the argument to it. -/
theorem NthReply.arg3 {call : Calc Reply} {n : ℕ} {r : Reply} {t : Term} {c' : ExtraCback}
    (h : NthReply limbs iso cleared call (n + 1) r)
    (hreply : ∀ r, NthReply limbs iso cleared call n r ↔ (contBetween limbs iso cleared c).Returns r)
    (hnext : (contBetween limbs iso cleared c).Returns (.succeed t c')) :
    r = .cutSucceed c'.t1 ∨ ∃ c'', r = .succeed c'.t1 c'' := by
  cases h with
  | retry hsucc hr =>
    have heq := Calc.Returns.inj ((hreply _).1 hsucc) hnext
    injection heq with _ heq
    subst heq
    exact contBetween_arg3 hr

variable {low : ℤ} {x : Addr}

/-- The types of the bounds pass. -/
theorem initBetween_eq (h1 : t1.intValue? = some low) (h2 : t2.limit? = some high) :
    initBetween limbs iso cleared hr t1 t2 (.var x) =
      startBetween limbs iso cleared hr t1 t2 (.var x) := by
  have hnotvar : ∀ {t : Term} {z : ℤ}, t.intValue? = some z → t.isVarTerm = false := fun h =>
    (Term.number_tests ((EType.value?_intCast _ _).2 h)).1
  unfold initBetween
  rw [if_neg (by rw [hnotvar h1]; decide)]
  rcases Term.limit?_cases h2 with ⟨rfl, rfl⟩ | ⟨j, hj, rfl⟩ | ⟨c, hc, rfl⟩
  · have hinf : eTypeOfTerm (.atom atomInf) = .dbRef := rfl
    rw [if_neg (by decide), hinf]
    rcases Term.intValue?_cases h1 with ⟨i, hi, rfl, -⟩ | ⟨b, hb, rfl, -⟩
    · simp only [hi, true_or, if_true]
    · simp only [hb, true_or, if_true]
  · have hvar2 : t2.isVarTerm = false := hnotvar (t := t2) (z := j.toInt) (by rw [Term.intValue?, hj]; rfl)
    rw [if_neg (by rw [hvar2]; decide), hj]
    rcases Term.intValue?_cases h1 with ⟨i, hi, rfl, -⟩ | ⟨b, hb, rfl, -⟩
    · simp only [hi]
    · simp only [hb]
  · have hvar2 : t2.isVarTerm = false := hnotvar (t := t2) (z := c.1) (by rw [Term.intValue?, hc]; rfl)
    rw [if_neg (by rw [hvar2]; decide), hc]
    rcases Term.intValue?_cases h1 with ⟨i, hi, rfl, -⟩ | ⟨b, hb, rfl, -⟩
    · simp only [hi]
    · simp only [hb]

/-- A machine integer is below a big bound as the integers are. -/
theorem acmpBound_word (iso : Bool) (cleared : ℚ → ℚ) (hr : Addr) {i : Word} {b : BigInt}
    (h1 : eTypeOfTerm t1 = .longInt i) (h2 : eTypeOfTerm t2 = .bigInt (.int b)) :
    acmpBound iso cleared hr t1 t2 = pure (gmpCmpIntBig i (.int b)) ∧
      signOf (gmpCmpIntBig i (.int b)) = compare i.toInt b.1 := by
  have hv1 : t1.value? = some (i.toInt : ℚ) := by rw [Term.value?, h1]; rfl
  have hv2 : t2.value? = some (b.1 : ℚ) := by rw [Term.value?, h2]; rfl
  constructor
  · rw [acmpBound, aCmp_number _ _ hv1 hv2, h1]
    simp only [aCmpInt, h2]
  · rw [signOf_gmpCmpIntBig, BigNum.val, compare_intCast]

/-- The call of `between` with two equal bounds. -/
theorem initBetween_sole (h1 : t1.intValue? = some low) (h2 : t2.limit? = some (low : WithTop ℤ)) :
    (initBetween limbs iso cleared hr t1 t2 (.var x)).Returns (.cutSucceed t1) := by
  rw [initBetween_eq h1 h2]
  unfold startBetween
  have hvar3 : (Term.var x).isVarTerm = true := rfl
  rcases Term.intValue?_cases h1 with ⟨i, hi, rfl, -⟩ | ⟨b, hb, rfl, -⟩
  · rcases Term.limit?_cases h2 with ⟨-, htop⟩ | ⟨j, hj, hij⟩ | ⟨c, -, hc⟩
    · exact absurd htop WithTop.coe_ne_top
    · obtain rfl := Word.toInt_inj.1 (WithTop.coe_inj.1 hij)
      simp only [hi, hj, hvar3, Bool.not_true, Bool.false_eq_true, if_false, lt_self_iff_false,
        if_true]
      exact ⟨false, rfl⟩
    · exact absurd (WithTop.coe_inj.1 hc ▸ Word.fits_toInt i) c.2
  · have hiso : ((b.1 : ℤ) : WithTop ℤ) = ⊤ → iso = false := fun htop =>
      absurd htop WithTop.coe_ne_top
    obtain ⟨out, hout, hzero, -⟩ := acmpBound_big cleared hr hb h2 hiso
    simp only [hb, hvar3, hout, Bool.not_true, Bool.false_eq_true, if_false, pure_bind,
      hzero.2 rfl, lt_self_iff_false, if_true]
    exact ⟨false, rfl⟩

/-- The call of `between` with more than one answer is a retry with the first value. -/
theorem initBetween_starts (h1 : t1.intValue? = some low) (h2 : t2.limit? = some high)
    (hlt : (low : WithTop ℤ) < high) (hiso : high = ⊤ → iso = true → Word.Fits low) :
    initBetween limbs iso cleared hr t1 t2 (.var x) = contBetween limbs iso cleared ⟨t1, t2, hr⟩ := by
  rw [initBetween_eq h1 h2]
  unfold startBetween
  have hvar3 : (Term.var x).isVarTerm = true := rfl
  rcases Term.intValue?_cases h1 with ⟨i, hi, rfl, -⟩ | ⟨b, hb, rfl, -⟩
  · rcases Term.limit?_cases h2 with ⟨rfl, rfl⟩ | ⟨j, hj, rfl⟩ | ⟨c, hc, rfl⟩
    · have hinf : eTypeOfTerm (.atom atomInf) = .dbRef := rfl
      simp only [hi, hinf, hvar3, Bool.not_true, Bool.false_eq_true, if_false]
    · have hij := WithTop.coe_lt_coe.1 hlt
      have hne : i ≠ j := fun h => hij.ne (congrArg BitVec.toInt h)
      simp only [hi, hj, hvar3, Bool.not_true, Bool.false_eq_true, if_false, if_neg hij.not_gt,
        if_neg hne]
    · obtain ⟨hcmp, hsign⟩ := acmpBound_word iso cleared hr hi hc
      rw [compare_lt_iff_lt.2 (WithTop.coe_lt_coe.1 hlt), signOf.eq_lt] at hsign
      simp only [hi, hc, hvar3, hcmp, Bool.not_true, Bool.false_eq_true, if_false, pure_bind,
        if_neg hsign.not_gt, if_neg hsign.ne]
  · have hiso' : high = ⊤ → iso = false := fun htop =>
      Bool.eq_false_of_not_eq_true fun htrue => b.2 (hiso htop htrue)
    obtain ⟨out, hout, hzero, hpos⟩ := acmpBound_big cleared hr hb h2 hiso'
    simp only [hb, hvar3, hout, Bool.not_true, Bool.false_eq_true, if_false, pure_bind,
      if_neg (mt hpos.1 hlt.not_gt), if_neg (mt hzero.1 hlt.ne)]

theorem initBetween_iso (h1 : t1.intValue? = some low) (hv : ¬ Word.Fits low) (r : Reply) :
    ¬ (initBetween limbs true cleared hr t1 (.atom atomInf) (.var x)).Returns r := by
  rw [initBetween_eq h1 rfl]
  unfold startBetween
  have hvar3 : (Term.var x).isVarTerm = true := rfl
  rcases Term.intValue?_cases h1 with ⟨i, hi, rfl, -⟩ | ⟨b, hb, rfl, -⟩
  · exact absurd (Word.fits_toInt i) hv
  · simp only [hb, hvar3, acmpBound_inf true cleared hr hb, Bool.not_true, Bool.false_eq_true,
      if_false]
    rintro ⟨o, ho⟩
    cases ho

/-- No value that the enumeration passes is in the band, and the ISO flag lets
it pass machine integers alone. -/
theorem YieldsRange.passes {call : Calc Reply} {c0 : ExtraCback}
    (h : YieldsRange limbs iso cleared call low high)
    (hcall : call = contBetween limbs iso cleared c0) (h0 : c0.Holds t2 low high)
    (h2 : t2.limit? = some high) (n : ℕ) (hle : ((low + n : ℤ) : WithTop ℤ) ≤ high) :
    (∀ z, low < z → z ≤ low + n → ¬ InBand z) ∧
      (high = ⊤ → iso = true → ∀ i : ℕ, i < n → Word.Fits (low + i)) := by
  induction n with
  | zero => exact ⟨fun z hz hzn => by simp at hzn; omega, fun _ _ i hi => absurd hi (Nat.not_lt_zero i)⟩
  | succ n ih =>
    have hlt : ((low + n : ℤ) : WithTop ℤ) < high :=
      lt_of_lt_of_le (WithTop.coe_lt_coe.2 (by push_cast; omega)) hle
    obtain ⟨hband, hfits⟩ := ih hlt.le
    obtain ⟨c, hc, hreply⟩ := NthReply.reach hcall h0 h2 n hlt.le hband hfits
    have hiso : high = ⊤ → iso = true → Word.Fits (low + n) := by
      rintro rfl rfl
      by_contra hno
      obtain ⟨t, c', hsucc, -⟩ := (h n).1 hlt
      exact contBetween_iso hc.value (hc.bound.trans (Term.eq_inf_of_limit? h2)) hno _
        ((hreply _).1 hsucc)
    have hnext := hc.advances limbs cleared h2 hlt hiso
    have hval : low + n + 1 = low + ((n + 1 : ℕ) : ℤ) := by push_cast; ring
    have hnew : (c.next limbs (low + n)).t1.intValue? = some (low + n + 1) := by
      rw [hval]
      rcases hle.lt_or_eq with hlt' | heq
      · obtain ⟨t, c', hreply', ht⟩ := (h (n + 1)).1 hlt'
        rcases hreply'.arg3 hreply hnext with heq | ⟨c'', heq⟩
        · cases heq
        · injection heq with heq _
          rwa [← heq]
      · obtain ⟨t, hreply', ht⟩ := (h (n + 1)).2 heq
        rcases hreply'.arg3 hreply hnext with heq | ⟨c'', heq⟩
        · injection heq with heq
          rwa [← heq]
        · cases heq
    constructor
    · intro z hz hzn
      rcases (show z ≤ low + n ∨ z = low + n + 1 by push_cast at hzn; omega) with hzn | rfl
      · exact hband z hz hzn
      · exact (mkBigIntTerm_intValue? _ _).1 hnew
    · intro htop htrue i hi
      rcases (show i < n ∨ i = n by omega) with hi | rfl
      · exact hfits htop htrue i hi
      · exact hiso htop htrue

-- ---------------------------------------------------------------------------
-- When the enumeration is right
-- ---------------------------------------------------------------------------

theorem NthReply.zero_iff {call : Calc Reply} {r : Reply} :
    NthReply limbs iso cleared call 0 r ↔ call.Returns r := by
  constructor
  · rintro (h | _)
    exact h
  · exact .call

/-- A sole answer is given at once. -/
theorem enumerates_sole (h1 : t1.intValue? = some low) (h2 : t2.limit? = some (low : WithTop ℤ)) :
    YieldsRange limbs iso cleared (initBetween limbs iso cleared hr t1 t2 (.var x)) low low := by
  intro n
  constructor
  · intro hlt
    have := WithTop.coe_lt_coe.1 hlt
    omega
  · intro heq
    obtain rfl : n = 0 := by
      have := WithTop.coe_inj.1 heq
      omega
    exact ⟨t1, .call (initBetween_sole h1 h2), by simpa using h1⟩

/-- The initial choice point. -/
theorem holds_init (h1 : t1.intValue? = some low) (h2 : t2.limit? = some high)
    (hbelow : t2.Below hr) (hlt : (low : WithTop ℤ) < high) :
    ExtraCback.Holds ⟨t1, t2, hr⟩ t2 low high := by
  refine ⟨h1, rfl, hbelow, fun hshared => ?_⟩
  have hneq : t2.limit? = some (low : WithTop ℤ) := by
    rw [← show t1 = t2 from hshared, Term.limit?, if_neg, h1]
    · rfl
    · rintro rfl
      cases h1
  rw [h2] at hneq
  exact absurd (Option.some.inj hneq) hlt.ne'

/-- Where nothing goes wrong on the way the integers are enumerated. -/
theorem enumerates_of_passesTo (h1 : t1.intValue? = some low) (h2 : t2.limit? = some high)
    (hbelow : t2.Below hr) (hlt : (low : WithTop ℤ) < high) (h : PassesTo iso low high) :
    YieldsRange limbs iso cleared (initBetween limbs iso cleared hr t1 t2 (.var x)) low high := by
  have hiso : ∀ {p : Prop}, high = ⊤ → iso = true → p := fun htop htrue =>
    absurd ((h.unbounded htop).symm.trans htrue) (by decide)
  have hreach : ∀ n : ℕ, ((low + n : ℤ) : WithTop ℤ) ≤ high → ∃ c : ExtraCback,
      c.Holds t2 (low + n) high ∧ ∀ r,
        NthReply limbs iso cleared (initBetween limbs iso cleared hr t1 t2 (.var x)) n r ↔
          (contBetween limbs iso cleared c).Returns r := fun n hle =>
    NthReply.reach (initBetween_starts h1 h2 hlt hiso) (holds_init h1 h2 hbelow hlt) h2 n hle
      (fun z hz hzn => h.boxable z hz ((WithTop.coe_le_coe.2 hzn).trans hle)) hiso
  intro n
  constructor
  · intro hlt'
    obtain ⟨c, hc, hreply⟩ := hreach n hlt'.le
    exact ⟨c.t1, _, (hreply _).2 (hc.advances limbs cleared h2 hlt' hiso), hc.value⟩
  · intro heq
    obtain ⟨c, hc, hreply⟩ := hreach n heq.le
    subst heq
    have hstops := hc.stops h2 (h.tagged _ rfl)
    exact ⟨c.t1, (hreply _).2 ((contBetween_returns limbs cleared hc.value (hc.bound ▸ h2) hiso).1 hstops),
      hc.value⟩

/-- Where the integers are enumerated nothing goes wrong on the way. -/
theorem YieldsRange.passesTo (h1 : t1.intValue? = some low) (h2 : t2.limit? = some high)
    (hbelow : t2.Below hr) (hlt : (low : WithTop ℤ) < high)
    (h : YieldsRange limbs iso cleared (initBetween limbs iso cleared hr t1 t2 (.var x)) low high) :
    PassesTo iso low high := by
  have hfirst : high = ⊤ → iso = true → Word.Fits low := by
    rintro rfl rfl
    by_contra hno
    obtain rfl := Term.eq_inf_of_limit? h2
    obtain ⟨t, c, hreply, -⟩ := (h 0).1 (WithTop.coe_lt_top _)
    exact initBetween_iso h1 hno _ (NthReply.zero_iff.1 hreply)
  have hpass := fun n => h.passes (initBetween_starts h1 h2 hlt hfirst)
    (holds_init h1 h2 hbelow hlt) h2 n
  refine ⟨?_, ?_, ?_⟩
  · rintro z rfl hz
    obtain ⟨n, rfl⟩ : ∃ n : ℕ, z = low + n := ⟨(z - low).toNat, by
      have := WithTop.coe_lt_coe.1 hlt
      omega⟩
    obtain ⟨hband, hfits⟩ := hpass n le_rfl
    obtain ⟨c, hc, hreply⟩ := NthReply.reach (initBetween_starts h1 h2 hlt hfirst)
      (holds_init h1 h2 hbelow hlt) h2 n le_rfl hband hfits
    obtain ⟨t, hcut, -⟩ := (h n).2 rfl
    -- a retry that cuts has found the words equal
    have hstops : c.Stops (low + n) ((low + n : ℤ) : WithTop ℤ) := by
      by_contra hno
      have hiso : ((low + n : ℤ) : WithTop ℤ) = ⊤ → iso = true → Word.Fits (low + n) :=
        fun _ _ => hz
      have hsucc := (contBetween_returns limbs cleared hc.value (hc.bound ▸ h2) hiso).2 hno
      cases Calc.Returns.inj ((hreply _).1 hcut) hsucc
    rw [ExtraCback.Stops, if_pos hz, hc.bound] at hstops
    exact hc.unshared hstops _ rfl hz
  · intro z hz hzhigh
    obtain ⟨n, rfl⟩ : ∃ n : ℕ, z = low + n := ⟨(z - low).toNat, by omega⟩
    exact (hpass n hzhigh).1 _ hz le_rfl
  · rintro rfl
    by_contra htrue
    have hfits := (hpass ((2 ^ 63 - low).toNat + 1) le_top).2 rfl
      (Bool.eq_true_of_not_eq_false htrue) (2 ^ 63 - low).toNat (Nat.lt_succ_self _)
    unfold Word.Fits at hfits
    omega

/-- The integers between two bounds, or from one on, are enumerated exactly
under this condition. -/
theorem between_enumerates_iff (limbs : BigNum → ℕ) (iso : Bool) (cleared : ℚ → ℚ) (x : Addr)
    (h1 : t1.intValue? = some low) (h2 : t2.limit? = some high) (hbelow : t2.Below hr)
    (hle : (low : WithTop ℤ) ≤ high) :
    YieldsRange limbs iso cleared (initBetween limbs iso cleared hr t1 t2 (.var x)) low high ↔
      YieldsRangeWhen iso low high := by
  rcases hle.eq_or_lt with heq | hlt
  · subst heq
    exact iff_of_true (enumerates_sole h1 h2) (.inl rfl)
  · constructor
    · intro h
      exact .inr (h.passesTo h1 h2 hbelow hlt)
    · rintro (heq | h)
      · exact absurd heq hlt.ne'
      · exact enumerates_of_passesTo h1 h2 hbelow hlt h

/-- From minus one to one. -/
theorem between_neg_one_one :
    YieldsRange (fun _ => 0) false id
      (initBetween (fun _ => 0) false id 0 (.int (-1)) (.int 1) (.var 7)) (-1) (1 : ℤ) := by
  have hbelow : (Term.int 1).Below 0 := by
    intro p b h
    cases h
  refine (between_enumerates_iff _ _ _ _ rfl (by decide +kernel) hbelow (by decide +kernel)).2 (.inr ?_)
  refine ⟨fun z hz _ => ?_, fun z hz hz1 => ?_, fun h => absurd h WithTop.coe_ne_top⟩
  · rw [← WithTop.coe_inj.1 hz]
    decide
  · have := WithTop.coe_le_coe.1 hz1
    unfold InBand Tags.InField
    omega

/-- A boxed upper bound is passed over: the enumeration from `2 ^ 60` to
`2 ^ 60 + 1` does not end. -/
theorem not_between_enumerates :
    ¬ YieldsRange (fun _ => 0) false id
      (initBetween (fun _ => 0) false id 6 (.blob 0 (.longInt ⟨2 ^ 60, by decide +kernel⟩))
        (.blob 3 (.longInt ⟨2 ^ 60 + 1, by decide +kernel⟩)) (.var 7)) (2 ^ 60) ((2 ^ 60 + 1 : ℤ)) := by
  intro h
  have hbelow : Term.Below 6 (.blob 3 (.longInt ⟨2 ^ 60 + 1, by decide +kernel⟩)) := by
    intro p b hpb
    injection hpb with hp
    rw [← hp]
    decide
  have hpass := h.passesTo (by decide +kernel) (by decide +kernel) hbelow (by decide +kernel)
  exact absurd (hpass.tagged _ rfl (by decide +kernel)) (by decide +kernel)

end Yap
