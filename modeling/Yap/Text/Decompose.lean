-- SUMMARY: sub_atom/5 and sub_string/5 enumerate the decompositions of a text, mode by mode, away from the slips of the code.
import Yap.Text.SubAtom

/-!
# Enumerating decompositions

An answer is given by the position and the length of the part. Each mode is shown to
give the answers of a list of such pairs, and the list to be in order and to hold the
pairs that the arguments allow.
-/

namespace Yap

-- ---------------------------------------------------------------------------
-- Sizes
-- ---------------------------------------------------------------------------

theorem sizeSub_of_le {a b : ℕ} (h : b ≤ a) (ha : a < 0x10000000000000000) : sizeSub a b = a - b := by
  unfold sizeSub
  omega

theorem sizeAdd_of_lt {a b : ℕ} (h : a + b < 0x10000000000000000) : sizeAdd a b = a + b := Nat.mod_eq_of_lt h

theorem sizeToInt_of_lt {a : ℕ} (h : a < 0x8000000000000000) : sizeToInt a = a :=
  Int.bmod_eq_of_le_mul_two (by omega) (by omega)

theorem sizeToCInt_of_lt {a : ℕ} (h : a < 2 ^ 31) : sizeToCInt a = a :=
  Int.bmod_eq_of_le_mul_two (by omega) (by omega)

-- ---------------------------------------------------------------------------
-- Pairs
-- ---------------------------------------------------------------------------

/-- The answer for the part of a length at a position. -/
def answerAt (a : List ℕ) (s : ℕ × ℕ) : SubAnswer :=
  ⟨some s.1, some s.2, some (a.length - s.1 - s.2 : ℕ), encode ((a.drop s.1).take s.2)⟩

/-- The pairs that the arguments allow. -/
def Allows (a : List ℕ) (args : SubArgs) (s : ℕ × ℕ) : Prop :=
  s.1 + s.2 ≤ a.length ∧ Agrees args.before s.1 ∧ Agrees args.size s.2 ∧
    Agrees args.after (a.length - s.1 - s.2 : ℕ) ∧ Agrees args.out ((a.drop s.1).take s.2)

/-- The order of positions and lengths. -/
def PairLt (s t : ℕ × ℕ) : Prop := s.1 < t.1 ∨ s.1 = t.1 ∧ s.2 < t.2

section Pairs

variable {a : List ℕ} {args : SubArgs}

/-- A decomposition is a pair that the arguments allow. -/
theorem isDecomposition_iff {x : SubAnswer} : IsDecomposition a args x ↔ ∃ s, x = answerAt a s ∧ Allows a args s := by
  constructor
  · rintro ⟨bef, sub, aft, rfl, rfl, hb, hs, ha, ho⟩
    have hlen : (bef ++ sub ++ aft).length - bef.length - sub.length = aft.length := by
      simp only [List.length_append]
      omega
    have hsub : ((bef ++ sub ++ aft).drop bef.length).take sub.length = sub := by
      rw [List.append_assoc, List.drop_left, List.take_left]
    refine ⟨(bef.length, sub.length), by rw [answerAt, hlen, hsub], ?_, hb, hs, by rwa [hlen], by rwa [hsub]⟩
    simp only [List.length_append]
    omega
  · rintro ⟨⟨i, j⟩, rfl, hle, hb, hs, ha, ho⟩
    simp only at hle hb hs ha ho
    have hbef : (a.take i).length = i := by
      rw [List.length_take]
      omega
    have hsub : ((a.drop i).take j).length = j := by
      rw [List.length_take, List.length_drop]
      omega
    have haft : ((a.drop i).drop j).length = a.length - i - j := by rw [List.length_drop, List.length_drop]
    refine ⟨a.take i, (a.drop i).take j, (a.drop i).drop j, ?_, ?_, by rwa [hbef], by rwa [hsub], by rwa [haft], ho⟩
    · rw [List.append_assoc, List.take_append_drop, List.take_append_drop]
    · rw [answerAt, hbef, hsub, haft]

/-- A call that gives the allowed pairs in order enumerates the decompositions. -/
theorem enumerates_of_pairs {kind : TextKind} (ps : List (ℕ × ℕ))
    (hgives : (subAtomic kind (encode a) args.encode).Gives (encode a) (ps.map (answerAt a)))
    (hsorted : ps.Pairwise PairLt) (hmem : ∀ s, s ∈ ps ↔ Allows a args s) : Enumerates kind a args := by
  refine ⟨_, hgives, List.pairwise_map.mpr (hsorted.imp fun {s t} h => ?_), fun x => ?_⟩
  · refine ⟨s.1, s.2, t.1, t.2, rfl, rfl, rfl, rfl, ?_⟩
    rcases h with h | ⟨h, h'⟩
    · exact .inl (Nat.cast_lt.mpr h)
    · exact .inr ⟨congrArg _ h, Nat.cast_lt.mpr h'⟩
  · rw [isDecomposition_iff, List.mem_map]
    constructor
    · rintro ⟨s, hs, rfl⟩
      exact ⟨s, rfl, (hmem s).mp hs⟩
    · rintro ⟨s, rfl, hs⟩
      exact ⟨s, (hmem s).mpr hs, rfl⟩

end Pairs

-- ---------------------------------------------------------------------------
-- Building a part
-- ---------------------------------------------------------------------------

section Build

variable {a : List ℕ}

/-- A part of a text that is not empty is built. -/
theorem buildNewAtomic_encode (ha : ∀ c ∈ a, Scalar c) (hne : a ≠ []) (hlt : a.length < 2 ^ 31) {i j : ℕ}
    (h : i + j ≤ a.length) : buildNewAtomic (encode a) i j = .parts [encode ((a.drop i).take j)] := by
  have hbytes : (encode a).length ≠ 0 := fun h => hne ((encode_length_eq_zero ha).mp h)
  have hadd : sizeAdd i j = i + j := sizeAdd_of_lt (by omega)
  rcases Nat.eq_zero_or_pos i with rfl | hi
  · rw [Nat.zero_add] at h hadd
    rw [buildNewAtomic, if_neg (not_not.mpr rfl), hadd, spliceText, if_neg hbytes]
    simp only [slice_encode ha (Nat.zero_le j) h, spliceCuts, if_true]
    rfl
  · have hsum : i + j ≠ 0 := by omega
    rw [buildNewAtomic, if_pos hi.ne', hadd, spliceText, if_neg hbytes]
    simp only [slice_encode ha (Nat.zero_le i) (by omega), spliceCuts, hsum, if_false, if_true,
      cutAsInt_of_lt (show i < 2 ^ 31 by omega), Option.bind_eq_bind, Option.bind_some,
      slice_encode ha (Nat.le_add_right i j) h, Nat.add_sub_cancel_left]
    rfl

/-- The answer that a turn builds. -/
theorem contStep_build (ha : ∀ c ∈ a, Scalar c) (hne : a ≠ []) (hlt : a.length < 2 ^ 31) {i j n : ℕ}
    (h : i + j + n = a.length) (next : Option ContState) :
    ContStep.build (encode a) i j n next = next.elim (.last (answerAt a (i, j))) (.next (answerAt a (i, j))) := by
  have hn : a.length - i - j = n := by omega
  rw [ContStep.build, buildNewAtomic_encode ha hne hlt (by omega), sizeToInt_of_lt (by omega),
    sizeToInt_of_lt (by omega), sizeToInt_of_lt (by omega), answerAt, hn]

theorem subCall_build (ha : ∀ c ∈ a, Scalar c) (hne : a ≠ []) (hlt : a.length < 2 ^ 31) {i j n : ℕ}
    (h : i + j + n = a.length) (ok : Bool) :
    SubCall.build (encode a) ok i j n = .done (if ok then [answerAt a (i, j)] else []) := by
  have hn : a.length - i - j = n := by omega
  rw [SubCall.build, buildNewAtomic_encode ha hne hlt (by omega)]
  simp only [SubCall.check]
  rw [sizeToInt_of_lt (by omega), sizeToInt_of_lt (by omega), sizeToInt_of_lt (by omega), answerAt, hn]

end Build

-- ---------------------------------------------------------------------------
-- Backtracking without a given part
-- ---------------------------------------------------------------------------

section Runs

variable {a : List ℕ} (ha : ∀ c ∈ a, Scalar c) (hne : a ≠ []) (hlt : a.length < 2 ^ 31)

include ha hne hlt

/-- With a given length the part moves to the end of the text. -/
theorem contRuns_size {i l n : ℕ} (h : i + l + n = a.length) :
    ContRuns (encode a) a.length .size ⟨i, l, n⟩ (((List.range' i (n + 1)).map fun k => (k, l)).map (answerAt a)) := by
  induction n generalizing i with
  | zero =>
      refine .last ?_
      simp only [contSubAtomic, contStep_build ha hne hlt h, if_true, Option.elim]
  | succ n ih =>
      have hrest := ih (i := i + 1) (by omega)
      refine .next ?_ hrest
      simp only [contSubAtomic, contStep_build ha hne hlt h, Nat.succ_ne_zero, if_false, Option.elim]
      rfl

/-- At a given position the part grows to the end of the text. -/
theorem contRuns_min {b l n m : ℕ} (h : b + l + n = a.length) :
    ContRuns (encode a) a.length .min ⟨b, l, m⟩ (((List.range' l (n + 1)).map fun k => (b, k)).map (answerAt a)) := by
  have hafter : sizeSub a.length (sizeAdd b l) = n := by
    rw [sizeAdd_of_lt (by omega), sizeSub_of_le (by omega) (by omega)]
    omega
  induction n generalizing l m with
  | zero =>
      refine .last ?_
      simp only [contSubAtomic, hafter, contStep_build ha hne hlt h, if_true, Option.elim]
  | succ n ih =>
      have hafter' : sizeSub a.length (sizeAdd b (l + 1)) = n := by
        rw [sizeAdd_of_lt (by omega), sizeSub_of_le (by omega) (by omega)]
        omega
      have hrest := ih (l := l + 1) (m := n + 1 - 1) (by omega) hafter'
      refine .next ?_ hrest
      simp only [contSubAtomic, hafter, contStep_build ha hne hlt h, Nat.succ_ne_zero, if_false, Option.elim]

/-- In front of a given rest the part shrinks from the left. -/
theorem contRuns_after {i n m x : ℕ} (h : i + n + x = a.length) :
    ContRuns (encode a) a.length .after ⟨i, m, x⟩
      (((List.range' i (n + 1)).map fun k => (k, a.length - x - k)).map (answerAt a)) := by
  have hlen : sizeSub a.length (sizeAdd i x) = n := by
    rw [sizeAdd_of_lt (by omega), sizeSub_of_le (by omega) (by omega)]
    omega
  have hn : a.length - x - i = n := by omega
  induction n generalizing i m with
  | zero =>
      refine .last ?_
      simp only [contSubAtomic, hlen, contStep_build ha hne hlt h, if_true, Option.elim, hn]
  | succ n ih =>
      have hlen' : sizeSub a.length (sizeAdd (i + 1) x) = n := by
        rw [sizeAdd_of_lt (by omega), sizeSub_of_le (by omega) (by omega)]
        omega
      have hrest := ih (i := i + 1) (m := n + 1 - 1) (by omega) hlen' (by omega)
      refine .next ?_ hrest
      simp only [contSubAtomic, hlen, contStep_build ha hne hlt h, Nat.succ_ne_zero, if_false, Option.elim, hn]

/-- The pairs from a position on. -/
def pairsFrom (sz i : ℕ) : List (ℕ × ℕ) :=
  (List.range' i (sz + 1 - i)).flatMap fun k => (List.range' 0 (sz - k + 1)).map fun l => (k, l)

omit ha hne hlt in
theorem pairsFrom_eq {sz i : ℕ} (h : i ≤ sz) :
    pairsFrom sz i = ((List.range' 0 (sz - i + 1)).map fun l => (i, l)) ++ pairsFrom sz (i + 1) := by
  have hlen : sz + 1 - i = sz + 1 - (i + 1) + 1 := by omega
  rw [pairsFrom, hlen, List.range'_succ, List.flatMap_cons]
  rfl

/-- Without given arguments the part grows at each position in turn. -/
theorem contRuns_all {i l n : ℕ} (h : i + l + n = a.length) :
    ContRuns (encode a) a.length .all ⟨i, l, n⟩
      ((((List.range' l (n + 1)).map fun k => (i, k)) ++ pairsFrom a.length (i + 1)).map (answerAt a)) := by
  induction hm : a.length - i using Nat.strong_induction_on generalizing i l n with
  | _ m ihm =>
    induction n generalizing l with
    | zero =>
        by_cases hi : i = a.length
        · have hend : pairsFrom a.length (i + 1) = [] := by
            rw [pairsFrom, hi, Nat.sub_self]
            rfl
          rw [hend, List.append_nil]
          refine .last ?_
          simp only [contSubAtomic, contStep_build ha hne hlt h]
          simp only [if_true, hi, Option.elim]
        · have hafter : sizeSub a.length (i + 1) = a.length - (i + 1) := sizeSub_of_le (by omega) (by omega)
          have hrest := ihm (a.length - (i + 1)) (by omega) (i := i + 1) (l := 0) (n := a.length - (i + 1))
            (by omega) rfl
          rw [← pairsFrom_eq (by omega)] at hrest
          refine .next ?_ hrest
          simp only [contSubAtomic, contStep_build ha hne hlt h, if_true, hi, if_false, hafter, Option.elim]
    | succ n ih =>
        have hrest := ih (l := l + 1) (by omega)
        refine .next ?_ hrest
        simp only [contSubAtomic, contStep_build ha hne hlt h, Nat.succ_ne_zero, if_false, Option.elim]
        rfl

end Runs

-- ---------------------------------------------------------------------------
-- Calls without a given part
-- ---------------------------------------------------------------------------

@[simp] theorem agrees_none {α : Type} (x : α) : Agrees none x ↔ True :=
  iff_of_true (fun _ h => absurd h (by simp)) trivial

@[simp] theorem agrees_some {α : Type} (x y : α) : Agrees (some y) x ↔ y = x := by
  simp [Agrees]

/-- Every integer that is given has a value that `sub_atomic` accepts. -/
def ValidSizes (args : SubArgs) : Prop :=
  ∀ arg ∈ [args.before, args.size, args.after], ∀ z ∈ arg, IsWord z ∧ 0 ≤ z

/-- The other integers are errors. -/
theorem checkSizes_eq_none_iff (args : SubArgs) :
    checkSizes [args.before, args.size, args.after] = none ↔ ValidSizes args := by
  rw [checkSizes, List.findSome?_eq_none_iff]
  refine forall₂_congr fun arg _ => ?_
  cases arg with
  | none => simp
  | some z =>
      simp only [Option.bind_some, Option.mem_def, Option.some.injEq, forall_eq']
      split_ifs with hword hneg <;> simp_all

section Calls

variable {kind : TextKind} {a : List ℕ} {args : SubArgs}

theorem enumerates_single {s : ℕ × ℕ} (hcall : subAtomic kind (encode a) args.encode = .done [answerAt a s])
    (hallows : ∀ t, Allows a args t ↔ t = s) : Enumerates kind a args := by
  refine enumerates_of_pairs [s] ?_ (List.pairwise_singleton ..) fun t => ?_
  · rw [hcall]
    rfl
  · rw [List.mem_singleton, hallows]

theorem enumerates_nil (hcall : subAtomic kind (encode a) args.encode = .done [])
    (hallows : ∀ t, ¬ Allows a args t) : Enumerates kind a args := by
  refine enumerates_of_pairs [] ?_ List.Pairwise.nil fun t => ?_
  · rw [hcall]
    rfl
  · exact iff_of_false (List.not_mem_nil) (hallows t)

/-- A call with a condition has its answer or none. -/
theorem enumerates_ite {s : ℕ × ℕ} {ok : Prop} [Decidable ok]
    (hcall : subAtomic kind (encode a) args.encode = .done (if ok then [answerAt a s] else []))
    (hallows : ∀ t, Allows a args t ↔ t = s ∧ ok) : Enumerates kind a args := by
  by_cases h : ok
  · rw [if_pos h] at hcall
    exact enumerates_single hcall fun t => (hallows t).trans (and_iff_left h)
  · rw [if_neg h] at hcall
    exact enumerates_nil hcall fun t ht => h ((hallows t).mp ht).2

/-- No slip of the code touches a call without a given part: the text is not empty, one
    integer alone is not behind the text, and three do not wrap. -/
structure FitsText (a : List ℕ) (args : SubArgs) : Prop where
  nonempty : a ≠ []
  before : args.size = none → args.after = none → ∀ z ∈ args.before, z ≤ a.length
  size : args.before = none → args.after = none → ∀ z ∈ args.size, z ≤ a.length
  after : args.before = none → args.size = none → ∀ z ∈ args.after, z ≤ a.length
  sum : ∀ b ∈ args.before, ∀ l ∈ args.size, ∀ x ∈ args.after, b + l + x < 0x10000000000000000

variable (kind a) in
theorem subAtomic_var {before size after : Option ℤ} (hvalid : ValidSizes ⟨before, size, after, none⟩) :
    subAtomic kind (encode a) (SubArgs.encode ⟨before, size, after, none⟩) =
      subAtomicVar (encode a) ⟨before, size, after, none⟩ := by
  have hsizes := (checkSizes_eq_none_iff _).mpr hvalid
  rw [subAtomic]
  simp only [SubArgs.encode, Option.map_none] at hsizes ⊢
  rw [hsizes]

variable (ha : ∀ c ∈ a, Scalar c) (hlt : a.length < 2 ^ 31)

include ha hlt

/-- Position and length are given. -/
theorem enumerates_before_size {b l : ℕ} {after : Option ℤ} (hvalid : ValidSizes ⟨some b, some l, after, none⟩)
    (hfits : FitsText a ⟨some b, some l, after, none⟩) : Enumerates kind a ⟨some b, some l, after, none⟩ := by
  have hb := hvalid (some b) (by simp) b rfl
  have hl := hvalid (some l) (by simp) l rfl
  simp only [IsWord] at hb hl
  have hadd : sizeAdd b l = b + l := sizeAdd_of_lt (by omega)
  have hcall := subAtomic_var kind a hvalid
  rw [subAtomicVar] at hcall
  simp only [Option.map_some, Int.toNat_natCast, hadd, strlenUtf8_encode ha] at hcall
  have hbuild : ∀ h : b + l ≤ a.length, sizeSub a.length (b + l) = a.length - b - l := fun h => by
    rw [sizeSub_of_le h (by omega)]
    omega
  cases after with
  | none =>
      have hzero : sizeAdd (b + l) 0 = b + l := sizeAdd_of_lt (by omega)
      simp only [Option.map_none, Option.getD_none, hzero] at hcall
      by_cases hle : b + l ≤ a.length
      · rw [if_neg (by omega), hbuild hle, sizeToInt_of_lt (by omega), if_neg (by omega),
          subCall_build ha hfits.nonempty hlt (by omega)] at hcall
        refine enumerates_single hcall fun t => ?_
        simp only [Allows, agrees_some, agrees_none, Nat.cast_inj, and_true, Prod.ext_iff]
        omega
      · rw [if_pos (by omega)] at hcall
        refine enumerates_nil hcall fun t ht => ?_
        simp only [Allows, agrees_some, Nat.cast_inj] at ht
        omega
  | some x =>
      have hx := hvalid (some x) (by simp) x rfl
      have hsum := hfits.sum b rfl l rfl x rfl
      lift x to ℕ using hx.2
      have hadd' : sizeAdd (b + l) x = b + l + x := sizeAdd_of_lt (by omega)
      simp only [Option.map_some, Int.toNat_natCast, Option.getD_some, hadd'] at hcall
      by_cases hle : b + l + x ≤ a.length
      · rw [if_neg (by omega), hbuild (by omega), sizeToInt_of_lt (by omega), if_neg (by omega),
          subCall_build ha hfits.nonempty hlt (by omega), unifyInt, sizeToInt_of_lt (by omega)] at hcall
        simp only [Option.elim, decide_eq_true_eq] at hcall
        refine enumerates_ite hcall fun t => ?_
        simp only [Allows, agrees_some, agrees_none, Nat.cast_inj, and_true, Prod.ext_iff]
        constructor
        · rintro ⟨h, h1, h2, h3⟩
          refine ⟨⟨h1.symm, h2.symm⟩, ?_⟩
          rw [h3, h1, h2]
        · rintro ⟨⟨h1, h2⟩, h3⟩
          refine ⟨by omega, h1.symm, h2.symm, ?_⟩
          rw [h3, h1, h2]
      · rw [if_pos (by omega)] at hcall
        refine enumerates_nil hcall fun t ht => ?_
        simp only [Allows, agrees_some, Nat.cast_inj] at ht
        omega

/-- Position and rest are given. -/
theorem enumerates_before_after {b x : ℕ} (hvalid : ValidSizes ⟨some b, none, some x, none⟩)
    (hfits : FitsText a ⟨some b, none, some x, none⟩) : Enumerates kind a ⟨some b, none, some x, none⟩ := by
  have hb := hvalid (some b) (by simp) b rfl
  have hx := hvalid (some x) (by simp) x rfl
  simp only [IsWord] at hb hx
  have hadd : sizeAdd b x = b + x := sizeAdd_of_lt (by omega)
  have hcall := subAtomic_var kind a hvalid
  rw [subAtomicVar] at hcall
  simp only [Option.map_some, Option.map_none, Int.toNat_natCast, hadd, strlenUtf8_encode ha] at hcall
  by_cases hle : b + x ≤ a.length
  · rw [if_neg (by omega), sizeSub_of_le hle (by omega), subCall_build ha hfits.nonempty hlt (by omega)] at hcall
    refine enumerates_single hcall fun t => ?_
    simp only [Allows, agrees_some, agrees_none, Nat.cast_inj, and_true, true_and, Prod.ext_iff]
    omega
  · rw [if_pos (by omega)] at hcall
    refine enumerates_nil hcall fun t ht => ?_
    simp only [Allows, agrees_some, Nat.cast_inj] at ht
    omega

/-- Length and rest are given. -/
theorem enumerates_size_after {l x : ℕ} (hvalid : ValidSizes ⟨none, some l, some x, none⟩)
    (hfits : FitsText a ⟨none, some l, some x, none⟩) : Enumerates kind a ⟨none, some l, some x, none⟩ := by
  have hl := hvalid (some l) (by simp) l rfl
  have hx := hvalid (some x) (by simp) x rfl
  simp only [IsWord] at hl hx
  have hadd : sizeAdd l x = l + x := sizeAdd_of_lt (by omega)
  have hcall := subAtomic_var kind a hvalid
  rw [subAtomicVar] at hcall
  simp only [Option.map_some, Option.map_none, Int.toNat_natCast, hadd, strlenUtf8_encode ha] at hcall
  by_cases hle : l + x ≤ a.length
  · rw [if_neg (by omega), sizeSub_of_le hle (by omega), subCall_build ha hfits.nonempty hlt (by omega)] at hcall
    refine enumerates_single hcall fun t => ?_
    simp only [Allows, agrees_some, agrees_none, Nat.cast_inj, and_true, true_and, Prod.ext_iff]
    omega
  · rw [if_pos (by omega)] at hcall
    refine enumerates_nil hcall fun t ht => ?_
    simp only [Allows, agrees_some, Nat.cast_inj] at ht
    omega

omit hlt in
theorem enumerates_backtrack {mode : ContMode} {st : ContState} (ps : List (ℕ × ℕ))
    (hcall : subAtomic kind (encode a) args.encode = .backtrack mode st)
    (hruns : ContRuns (encode a) a.length mode st (ps.map (answerAt a))) (hsorted : ps.Pairwise PairLt)
    (hmem : ∀ s, s ∈ ps ↔ Allows a args s) : Enumerates kind a args := by
  refine enumerates_of_pairs ps ?_ hsorted hmem
  rw [hcall, SubCall.Gives, strlenUtf8_encode ha]
  exact hruns

/-- Only the position is given. -/
theorem enumerates_before {b : ℕ} (hvalid : ValidSizes ⟨some b, none, none, none⟩)
    (hfits : FitsText a ⟨some b, none, none, none⟩) : Enumerates kind a ⟨some b, none, none, none⟩ := by
  have hb := hfits.before rfl rfl b rfl
  have hcall := subAtomic_var kind a hvalid
  rw [subAtomicVar] at hcall
  simp only [Option.map_some, Option.map_none, Int.toNat_natCast, strlenUtf8_encode ha] at hcall
  rw [sizeSub_of_le (by omega) (by omega)] at hcall
  refine enumerates_backtrack ha _ hcall (contRuns_min ha hfits.nonempty hlt (n := a.length - b) (by omega)) ?_ ?_
  · exact List.pairwise_map.mpr ((List.pairwise_lt_range' ..).imp fun h => .inr ⟨rfl, h⟩)
  · rintro ⟨i, j⟩
    simp only [List.mem_map, List.mem_range'_1, Prod.mk.injEq, Allows, agrees_some, agrees_none, Nat.cast_inj]
    constructor
    · rintro ⟨k, hk, rfl, rfl⟩
      exact ⟨by omega, rfl, trivial, trivial, trivial⟩
    · rintro ⟨h, rfl, -⟩
      exact ⟨j, by omega, rfl, rfl⟩

/-- Only the length is given. -/
theorem enumerates_size {l : ℕ} (hvalid : ValidSizes ⟨none, some l, none, none⟩)
    (hfits : FitsText a ⟨none, some l, none, none⟩) : Enumerates kind a ⟨none, some l, none, none⟩ := by
  have hl := hfits.size rfl rfl l rfl
  have hcall := subAtomic_var kind a hvalid
  rw [subAtomicVar] at hcall
  simp only [Option.map_some, Option.map_none, Int.toNat_natCast, strlenUtf8_encode ha] at hcall
  rw [sizeSub_of_le (by omega) (by omega)] at hcall
  refine enumerates_backtrack ha _ hcall (contRuns_size ha hfits.nonempty hlt (by omega)) ?_ ?_
  · exact List.pairwise_map.mpr ((List.pairwise_lt_range' ..).imp fun h => .inl h)
  · rintro ⟨i, j⟩
    simp only [List.mem_map, List.mem_range'_1, Prod.mk.injEq, Allows, agrees_some, agrees_none, Nat.cast_inj]
    constructor
    · rintro ⟨k, hk, rfl, rfl⟩
      exact ⟨by omega, trivial, rfl, trivial, trivial⟩
    · rintro ⟨h, -, rfl, -⟩
      exact ⟨i, by omega, rfl, rfl⟩

/-- Only the rest is given. -/
theorem enumerates_after {x : ℕ} (hvalid : ValidSizes ⟨none, none, some x, none⟩)
    (hfits : FitsText a ⟨none, none, some x, none⟩) : Enumerates kind a ⟨none, none, some x, none⟩ := by
  have hx := hfits.after rfl rfl x rfl
  have hcall := subAtomic_var kind a hvalid
  rw [subAtomicVar] at hcall
  simp only [Option.map_some, Option.map_none, Int.toNat_natCast] at hcall
  refine enumerates_backtrack ha _ hcall (contRuns_after ha hfits.nonempty hlt (n := a.length - x) (by omega)) ?_ ?_
  · exact List.pairwise_map.mpr ((List.pairwise_lt_range' ..).imp fun h => .inl h)
  · rintro ⟨i, j⟩
    simp only [List.mem_map, List.mem_range'_1, Prod.mk.injEq, Allows, agrees_some, agrees_none, Nat.cast_inj]
    constructor
    · rintro ⟨k, hk, rfl, rfl⟩
      exact ⟨by omega, trivial, trivial, by omega, trivial⟩
    · rintro ⟨h, -, -, hx', -⟩
      exact ⟨i, by omega, rfl, by omega⟩

omit ha hlt in
theorem mem_pairsFrom {sz i : ℕ} {s : ℕ × ℕ} : s ∈ pairsFrom sz i ↔ i ≤ s.1 ∧ s.1 + s.2 ≤ sz := by
  obtain ⟨k, l⟩ := s
  simp only [pairsFrom, List.mem_flatMap, List.mem_map, List.mem_range'_1, Prod.mk.injEq]
  constructor
  · rintro ⟨k', hk, l', hl, rfl, rfl⟩
    omega
  · rintro ⟨hi, h⟩
    exact ⟨k, by omega, l, by omega, rfl, rfl⟩

omit ha hlt in
theorem pairwise_pairsFrom (sz i : ℕ) : (pairsFrom sz i).Pairwise PairLt := by
  rw [pairsFrom, List.pairwise_flatMap]
  refine ⟨fun k _ => List.pairwise_map.mpr ((List.pairwise_lt_range' ..).imp fun h => .inr ⟨rfl, h⟩), ?_⟩
  refine (List.pairwise_lt_range' ..).imp fun {k k'} hk s hs t ht => .inl ?_
  obtain ⟨l, -, rfl⟩ := List.mem_map.mp hs
  obtain ⟨l', -, rfl⟩ := List.mem_map.mp ht
  exact hk

/-- Nothing is given. -/
theorem enumerates_all (hvalid : ValidSizes ⟨none, none, none, none⟩)
    (hfits : FitsText a ⟨none, none, none, none⟩) : Enumerates kind a ⟨none, none, none, none⟩ := by
  have hcall := subAtomic_var kind a hvalid
  rw [subAtomicVar] at hcall
  simp only [Option.map_none, strlenUtf8_encode ha] at hcall
  have hruns := contRuns_all ha hfits.nonempty hlt (i := 0) (l := 0) (n := a.length) (by omega)
  have hpairs := pairsFrom_eq (Nat.zero_le a.length)
  rw [Nat.sub_zero] at hpairs
  rw [← hpairs] at hruns
  refine enumerates_backtrack ha _ hcall hruns (pairwise_pairsFrom _ _) fun s => ?_
  simp only [mem_pairsFrom, Allows, agrees_none, and_true]
  exact ⟨fun h => h.2, fun h => ⟨Nat.zero_le _, h⟩⟩

/-- Without a given part, a call that no slip touches enumerates the decompositions. -/
theorem enumerates_var {before size after : Option ℤ} (hvalid : ValidSizes ⟨before, size, after, none⟩)
    (hfits : FitsText a ⟨before, size, after, none⟩) : Enumerates kind a ⟨before, size, after, none⟩ := by
  have hnat : ∀ arg ∈ [before, size, after], arg = none ∨ ∃ n : ℕ, arg = some (n : ℤ) := by
    intro arg harg
    cases arg with
    | none => exact .inl rfl
    | some z => exact .inr ⟨z.toNat, by rw [Int.toNat_of_nonneg (hvalid _ harg z rfl).2]⟩
  rcases hnat before (by simp) with rfl | ⟨b, rfl⟩ <;> rcases hnat size (by simp) with rfl | ⟨l, rfl⟩ <;>
    rcases hnat after (by simp) with rfl | ⟨x, rfl⟩
  · exact enumerates_all ha hlt hvalid hfits
  · exact enumerates_after ha hlt hvalid hfits
  · exact enumerates_size ha hlt hvalid hfits
  · exact enumerates_size_after ha hlt hvalid hfits
  · exact enumerates_before ha hlt hvalid hfits
  · exact enumerates_before_after ha hlt hvalid hfits
  · exact enumerates_before_size ha hlt hvalid hfits
  · exact enumerates_before_size ha hlt hvalid hfits

end Calls

end Yap
