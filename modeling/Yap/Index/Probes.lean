-- SUMMARY: The sizes of hash tables are powers of two with a free entry, and the probes of the compiler and of the emulator go round all entries.
import Yap.Base.OpenAddressing
import Yap.Base.Strides
import Yap.Index.SwitchTables

/-!
# Probe sequences

The step of a probe sequence is odd and the number of entries a power of two, so the
probes come to all entries in one round. What the emulator computes is what the
compiler does, shifted by one bit.
-/

namespace Yap.Indexing

-- ---------------------------------------------------------------------------
-- Sizes
-- ---------------------------------------------------------------------------

/-- A type has room for the number of entries when it is large enough, and then the number is the
    same in every type. -/
theorem doubleUntil_spec (n room b : ℕ) :
    doubleUntil n room (2 ^ b) = none ∧ 2 ^ (b + room) < n ∨
      n ≤ 2 ^ (b + room) ∧ ∃ b' ≥ b, b' ≤ b + room ∧ n ≤ 2 ^ b' ∧
        ∀ room' ≥ room, doubleUntil n room' (2 ^ b) = some (2 ^ b') := by
  induction room generalizing b with
  | zero =>
    by_cases hlt : 2 ^ b < n
    · exact .inl ⟨by rw [doubleUntil, if_pos hlt], hlt⟩
    · refine .inr ⟨Nat.le_of_not_lt hlt, b, le_refl b, le_refl _, Nat.le_of_not_lt hlt, fun room' _ => ?_⟩
      cases room' with
      | zero => rw [doubleUntil, if_neg hlt]
      | succ room' => rw [doubleUntil, if_neg hlt]
  | succ room ih =>
    by_cases hlt : 2 ^ b < n
    · have hdouble : ∀ r, doubleUntil n (r + 1) (2 ^ b) = doubleUntil n r (2 ^ (b + 1)) := fun r => by
        rw [doubleUntil, if_pos hlt, Nat.pow_succ']
      rcases ih (b + 1) with ⟨hnone, hbig⟩ | ⟨hle, b', hb', hroom, hn, hsome⟩
      · rw [Nat.add_right_comm, Nat.add_assoc] at hbig
        exact .inl ⟨(hdouble room).trans hnone, hbig⟩
      · rw [Nat.add_right_comm, Nat.add_assoc] at hle hroom
        refine .inr ⟨hle, b', Nat.le_of_succ_le hb', hroom, hn, fun room' hroom' => ?_⟩
        obtain ⟨r, rfl⟩ := Nat.exists_eq_add_one_of_ne_zero (Nat.ne_zero_of_lt hroom')
        exact (hdouble r).trans (hsome r (Nat.le_of_succ_le_succ hroom'))
    · refine .inr ⟨(Nat.le_of_not_lt hlt).trans (Nat.pow_le_pow_right (by decide) (Nat.le_add_right _ _)), b, le_refl b,
        Nat.le_add_right _ _, Nat.le_of_not_lt hlt, fun room' _ => ?_⟩
      cases room' with
      | zero => rw [doubleUntil, if_neg hlt]
      | succ room' => rw [doubleUntil, if_neg hlt]

/-- A size that is an `int`: both functions compute it, and leave an entry free. -/
theorem hashCases_of_fits {n : ℕ} (h : n + 1 + n / 4 ≤ 2 ^ 30) :
    ∃ b ≤ 30, n < 2 ^ b ∧ ∀ nBits casesBits, 32 ≤ nBits → 32 ≤ casesBits →
      hashCases nBits casesBits n = some (2 ^ b) := by
  rcases doubleUntil_spec (n + 1 + n / 4) 28 2 with ⟨-, hbig⟩ | ⟨-, b, -, hb, hn, hsome⟩
  · exact absurd h (Nat.not_le_of_lt hbig)
  · refine ⟨b, hb, by omega, fun nBits casesBits hn' hcases => ?_⟩
    have hpow : 2 ^ 31 ≤ 2 ^ (nBits - 1) := Nat.pow_le_pow_right (by decide) (by omega)
    rw [hashCases, if_pos (by omega)]
    exact hsome (casesBits - 4) (by omega)

theorem hashCases_of_not_fits {n : ℕ} (nBits : ℕ) (h : 2 ^ 30 < n + 1 + n / 4) : hashCases nBits 32 n = none := by
  rcases doubleUntil_spec (n + 1 + n / 4) 28 2 with ⟨hnone, -⟩ | ⟨hle, -⟩
  · rw [hashCases]
    split
    · exact hnone
    · rfl
  · exact absurd h (Nat.not_lt_of_le hle)

-- ---------------------------------------------------------------------------
-- One round
-- ---------------------------------------------------------------------------

variable {b : ℕ}

theorem toNat_mask (hb : b ≤ 30) : (BitVec.ofNat 64 (2 ^ b) - 1).toNat = 2 ^ b - 1 := by
  have hpow : 2 ^ b ≤ 2 ^ 30 := Nat.pow_le_pow_right (by decide) hb
  have hpos : 0 < 2 ^ b := Nat.two_pow_pos b
  rw [BitVec.toNat_sub_of_le]
  · rw [BitVec.toNat_ofNat, Nat.mod_eq_of_lt (by omega)]
    rfl
  · rw [BitVec.le_def, BitVec.toNat_ofNat, Nat.mod_eq_of_lt (by omega)]
    exact hpos

theorem toNat_and_mask (x : Word) (hb : b ≤ 30) : (x &&& (BitVec.ofNat 64 (2 ^ b) - 1)).toNat = x.toNat % 2 ^ b := by
  rw [BitVec.toNat_and, toNat_mask hb, Nat.and_two_pow_sub_one_eq_mod]

theorem lt_of_mod_pow (x : ℕ) (hb : b ≤ 30) : x % 2 ^ b < 2 ^ 30 :=
  (Nat.mod_lt x (Nat.two_pow_pos b)).trans_le (Nat.pow_le_pow_right (by decide) hb)

theorem toNat_hashStart (t : Word) (hb : b ≤ 30) : (hashStart t (2 ^ b)).toNat = t.toNat / 64 % 2 ^ b := by
  have hlt := lt_of_mod_pow (t.toNat / 2 ^ 6) hb
  rw [hashStart, BitVec.toNat_setWidth, toNat_and_mask _ hb, BitVec.toNat_ushiftRight, hashShift,
    Nat.shiftRight_eq_div_pow]
  exact Nat.mod_eq_of_lt (by omega)

theorem toNat_hashStep (t : Word) (hb : b ≤ 30) : (hashStep t (2 ^ b)).toNat = (t ||| 1).toNat % 2 ^ b := by
  have hlt := lt_of_mod_pow (t ||| 1).toNat hb
  rw [hashStep, BitVec.and_comm, BitVec.toNat_setWidth, toNat_and_mask _ hb]
  exact Nat.mod_eq_of_lt (by omega)

/-- The sum of the `int`s is one. -/
theorem toNat_hashNext (t : Word) {hash : BitVec 32} (hb : b ≤ 30) (hhash : hash.toNat < 2 ^ 30) :
    (hashNext t (2 ^ b) hash).toNat = (hash.toNat + (t ||| 1).toNat) % 2 ^ b := by
  have hstep := toNat_hashStep t hb
  have hstepLt := lt_of_mod_pow (t ||| 1).toNat hb
  have hsum : (hash + hashStep t (2 ^ b)).toNat = hash.toNat + (t ||| 1).toNat % 2 ^ b := by
    rw [BitVec.toNat_add, hstep, Nat.mod_eq_of_lt (by omega)]
  have hmsb : (hash + hashStep t (2 ^ b)).msb = false := by
    rw [BitVec.msb_eq_false_iff_two_mul_lt, hsum]
    omega
  have hlt := lt_of_mod_pow (hash.toNat + (t ||| 1).toNat) hb
  rw [hashNext, BitVec.toNat_setWidth, toNat_and_mask _ hb, BitVec.signExtend_eq_setWidth_of_msb_false hmsb,
    BitVec.toNat_setWidth, hsum, Nat.mod_eq_of_lt (b := 2 ^ 64) (by omega), Nat.add_mod_mod]
  exact Nat.mod_eq_of_lt (by omega)

theorem compilerProbe_eq (t : Word) (hb : b ≤ 30) (j : ℕ) :
    compilerProbe (2 ^ b) t j = (t.toNat / 64 + j * (t ||| 1).toNat) % 2 ^ b := by
  induction j with
  | zero => rw [compilerProbe, Function.iterate_zero_apply, toNat_hashStart t hb, Nat.zero_mul, Nat.add_zero]
  | succ j ih =>
    rw [compilerProbe] at ih
    have hlt := lt_of_mod_pow (t.toNat / 64 + j * (t ||| 1).toNat) hb
    rw [compilerProbe, Function.iterate_succ_apply', toNat_hashNext t hb (ih ▸ hlt), ih, Nat.mod_add_mod]
    congr 1
    ring

/-- The step is odd. -/
theorem coprime_step (t : Word) : (t ||| 1).toNat.gcd (2 ^ b) = 1 := by
  have hodd : (t ||| 1).toNat % 2 = 1 := by
    rw [BitVec.toNat_or]
    simp
  exact Nat.Coprime.pow_right b (Nat.coprime_two_right.mpr (Nat.odd_iff.mpr hodd))

theorem covers_compilerProbe (t : Word) (hb : b ≤ 30) :
    OpenAddressing.Covers (2 ^ b) (compilerProbe (2 ^ b) t) := by
  have hpos : 0 < 2 ^ b := Nat.two_pow_pos b
  refine ⟨fun j => ?_, fun s hs => ?_⟩
  · rw [compilerProbe_eq t hb]
    exact Nat.mod_lt _ hpos
  · have hmod : s ≡ t.toNat / 64 [MOD (t ||| 1).toNat.gcd (2 ^ b)] := by
      rw [coprime_step]
      exact Nat.modEq_one
    obtain ⟨k, hk⟩ := (Machine.exists_stride_iff hs).mpr hmod
    refine ⟨k % 2 ^ b, Nat.mod_lt _ hpos, ?_⟩
    rw [compilerProbe_eq t hb, ← hk, ← Nat.add_mod_mod, Nat.mod_mul_mod, Nat.add_mod_mod]

-- ---------------------------------------------------------------------------
-- Cells and entries
-- ---------------------------------------------------------------------------

theorem switchStart_eq (s : ℕ) (d1 : Word) :
    switchStart s d1 = ((d1 >>> hashShift) &&& (BitVec.ofNat 64 s - 1)) <<< 1 := by
  rw [switchStart, switchMask, BitVec.shiftLeft_and_distrib]
  apply BitVec.eq_of_getLsbD_eq
  intro i hi
  rcases Nat.eq_zero_or_pos i with rfl | hpos
  · simp
  · have hshift : hashShift - 1 + i = hashShift + (i - 1) := by
      rw [hashShift]
      omega
    simp [hi, hshift, hpos.ne']

/-- A hash of the emulator is one of the compiler, shifted by one bit. -/
theorem switchNext_shiftLeft (s : ℕ) (d1 hash : Word) :
    switchNext s d1 (hash <<< 1) =
      ((hash + ((d1 ||| 1) &&& (BitVec.ofNat 64 s - 1))) &&& (BitVec.ofNat 64 s - 1)) <<< 1 := by
  have hsum : ∀ x y : Word, x <<< 1 + y <<< 1 = (x + y) <<< 1 := fun x y => by
    rw [BitVec.shiftLeft_eq_mul_twoPow, BitVec.shiftLeft_eq_mul_twoPow, BitVec.shiftLeft_eq_mul_twoPow,
      BitVec.add_mul]
  rw [switchNext, switchStep, switchMask, ← BitVec.shiftLeft_and_distrib, hsum, BitVec.shiftLeft_and_distrib]

theorem toNat_shiftLeft_one {x : Word} (h : x.toNat < 2 ^ 30) : (x <<< 1).toNat = 2 * x.toNat := by
  rw [BitVec.toNat_shiftLeft, Nat.shiftLeft_eq]
  omega

theorem emulatorProbe_eq (d1 : Word) (hb : b ≤ 30) (j : ℕ) :
    emulatorProbe (2 ^ b) d1 j = 2 * compilerProbe (2 ^ b) d1 j := by
  have hword : ∃ w : Word, (switchNext (2 ^ b) d1)^[j] (switchStart (2 ^ b) d1) = w <<< 1 ∧
      w.toNat = (d1.toNat / 64 + j * (d1 ||| 1).toNat) % 2 ^ b := by
    induction j with
    | zero =>
      refine ⟨_, switchStart_eq _ _, ?_⟩
      rw [toNat_and_mask _ hb, BitVec.toNat_ushiftRight, hashShift, Nat.shiftRight_eq_div_pow, Nat.zero_mul, Nat.add_zero]
    | succ j ih =>
      obtain ⟨w, hw, hnat⟩ := ih
      refine ⟨_, by rw [Function.iterate_succ_apply', hw, switchNext_shiftLeft], ?_⟩
      have hlt := lt_of_mod_pow (d1.toNat / 64 + j * (d1 ||| 1).toNat) hb
      have hstep := lt_of_mod_pow (d1 ||| 1).toNat hb
      rw [toNat_and_mask _ hb, BitVec.toNat_add, toNat_and_mask _ hb, hnat, Nat.mod_eq_of_lt (b := 2 ^ 64) (by omega),
        Nat.add_mod_mod, Nat.mod_add_mod]
      congr 1
      ring
  obtain ⟨w, hw, hnat⟩ := hword
  have hlt := lt_of_mod_pow (d1.toNat / 64 + j * (d1 ||| 1).toNat) hb
  rw [emulatorProbe, hw, toNat_shiftLeft_one (hnat ▸ hlt), hnat, compilerProbe_eq d1 hb]

end Yap.Indexing
