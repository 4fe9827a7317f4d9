-- SUMMARY: `msb`, `lsb` and `popcount` on machine and big integers, and when they tell the bits of a number.
import Yap.Arith.Power

/-!
# Bits

Each function has a loop on machine words and a wrapper of a GMP function. The
least significant bit is found like the most significant one, by halves.
-/

namespace Yap

-- ---------------------------------------------------------------------------
-- Machine integers
-- ---------------------------------------------------------------------------

/-- One step of the search, on the rest of the number and the bits cut off so far. -/
def lsbStep (mask : Word) (k : ℕ) (s : Word × ℕ) : Word × ℕ :=
  if s.1 &&& mask = 0 then (s.1.sshiftRight k, s.2 + k) else s

def lsb (hr : Addr) (inp : Word) : Calc ℕ := do
  if inp.toInt < 0 then
    arithError .domainErrorNotLessThanZero (mkIntegerTerm hr inp) ("msb/1 received " ++ intText inp)
  else if inp = 0 then return 0
  else
    let s := lsbStep 0x3 2 (lsbStep 0xf 4 (lsbStep 0xff 8 (lsbStep 0xffff 16 (lsbStep 0xffffffff 32 (inp, 0)))))
    return if s.1 &&& (0x1 : Word) = 0 then s.2 + 1 else s.2

/-- The loop of `popcount` with the turns left, the mask and the count. -/
def popcountLoop (inp : Word) : ℕ → Word → ℕ → ℕ
  | 0, _, c => c
  | n + 1, m, c => popcountLoop inp n (m <<< 1) (if inp &&& m ≠ 0 then c + 1 else c)

def popcount (hr : Addr) (inp : Word) : Calc ℕ := do
  if inp.toInt < 0 then
    arithError .domainErrorNotLessThanZero (mkIntegerTerm hr inp) ("popcount/1 received " ++ intText inp)
  else if inp = 0 then return 0
  else return popcountLoop inp 64 1 0

-- ---------------------------------------------------------------------------
-- Big integers
-- ---------------------------------------------------------------------------

/-- The number of one bits. -/
def oneBits (n : ℕ) : ℕ := (Nat.digits 2 n).count 1

/-- The wrappers of a count of bits, which is boxed as a machine integer. -/
def gmpCountBits (hr : Addr) (count : ℕ → ℕ) (negative rational : String) (t : Term) : BigNum → Calc Term
  | .int b =>
    if b.1 ≤ 0 then arithError .domainErrorNotLessThanZero t negative
    else return mkIntegerTerm hr (BitVec.ofNat 64 (count b.1.toNat))
  | .rat _ => arithError .typeErrorInteger t rational

/-- `Yap_gmp_lsb`, with `mpz_scan1`. -/
def gmpLsb (hr : Addr) : Term → BigNum → Calc Term :=
  gmpCountBits hr (fun n => padicValNat 2 n) "lsb/1 received negative bignum" "lsb"

/-- `Yap_gmp_msb`, with `mpz_sizeinbase`. -/
def gmpMsb (hr : Addr) : Term → BigNum → Calc Term :=
  gmpCountBits hr (fun n => Nat.log 2 n + 1) "msb/1 received negative bignum" "popcount"

/-- `Yap_gmp_popcount`, with `mpz_popcount`. -/
def gmpPopcount (hr : Addr) : Term → BigNum → Calc Term :=
  gmpCountBits hr oneBits "popcount/1 received negative bignum" "popcount"

-- ---------------------------------------------------------------------------
-- The functions
-- ---------------------------------------------------------------------------

/-- The cases of `eval1` that count bits: a word has a function of its own, and so has a big number. The text of a
    type error holds the float. -/
def evalBits (hr : Addr) (word : Word → Calc ℕ) (big : Term → BigNum → Calc Term) (text : String) (t : Term) : Calc Term :=
  match eTypeOfTerm t with
  | .longInt i => do
    let k ← word i
    rint hr (BitVec.ofNat 64 k)
  | .double _ => arithError .typeErrorInteger t text
  | .bigInt b => big t b
  | .dbRef => rerror

inductive BitOp where
  | msb
  | lsb
  | popcount
deriving DecidableEq

/-- The case of `eval1` for the function. -/
def BitOp.run (build : MsbBuild) (hr : Addr) : BitOp → Term → Calc Term
  | msb => evalBits hr (yapMsb build hr) (gmpMsb hr) "msb(%f)"
  | lsb => evalBits hr (Yap.lsb hr) (gmpLsb hr) "lsb(%f)"
  | popcount => evalBits hr (Yap.popcount hr) (gmpPopcount hr) "popcount(%f)"

def BitOp.eval : BitOp → ℕ → ℕ
  | msb => Nat.log 2
  | lsb => padicValNat 2
  | popcount => oneBits

-- ---------------------------------------------------------------------------
-- The least significant bit
-- ---------------------------------------------------------------------------

theorem mask_test_iff (mask : Word) {w : Word} {k : ℕ} (hmask : mask.toNat = 2 ^ k - 1) :
    w &&& mask = 0 ↔ 2 ^ k ∣ w.toNat := by
  rw [← BitVec.toNat_inj, BitVec.toNat_and, hmask, Nat.and_two_pow_sub_one_eq_mod, Nat.dvd_iff_mod_eq_zero]
  rfl

/-- The search has counted the zeros that it has cut off, and the lowest one bit is among the next `k`. -/
structure Trailing (w : Word) (k : ℕ) (s : Word × ℕ) : Prop where
  lt : s.1.toNat < 2 ^ 63
  pos : 0 < s.1.toNat
  small : padicValNat 2 s.1.toNat < k
  count : s.2 + padicValNat 2 s.1.toNat = padicValNat 2 w.toNat

theorem Trailing.step (mask : Word) {w : Word} {k : ℕ} {s : Word × ℕ} (h : Trailing w (2 * k) s)
    (hmask : mask.toNat = 2 ^ k - 1) : Trailing w k (lsbStep mask k s) := by
  have hle := padicValNat_dvd_iff_le (p := 2) (n := k) h.pos.ne'
  have hcount := h.count
  have hsmall := h.small
  unfold lsbStep
  simp only [mask_test_iff mask hmask]
  by_cases hdvd : 2 ^ k ∣ s.1.toNat
  · have hlow := hle.mp hdvd
    have hsign : s.1.msb = false := by
      have hlt := h.lt
      rw [BitVec.msb_eq_false_iff_two_mul_lt]
      omega
    have hshift : (s.1.sshiftRight k).toNat = s.1.toNat / 2 ^ k := by
      rw [BitVec.toNat_sshiftRight_of_msb_false hsign, Nat.shiftRight_eq_div_pow]
    have hcut : padicValNat 2 (s.1.toNat / 2 ^ k) = padicValNat 2 s.1.toNat - k := padicValNat.div_pow hdvd
    rw [if_pos hdvd]
    refine ⟨?_, ?_, ?_, ?_⟩
    · rw [hshift]
      exact lt_of_le_of_lt (Nat.div_le_self _ _) h.lt
    · rw [hshift]
      exact Nat.div_pos (Nat.le_of_dvd h.pos hdvd) (by positivity)
    · rw [hshift, hcut]
      omega
    · rw [hshift, hcut]
      omega
  · rw [if_neg hdvd]
    exact ⟨h.lt, h.pos, by rw [hle] at hdvd; omega, hcount⟩

theorem padicValNat_lt {n : ℕ} (hpos : 0 < n) (hlt : n < 2 ^ 63) : padicValNat 2 n < 64 := by
  by_contra hle
  have hdvd := (padicValNat_dvd_iff_le (p := 2) (n := 64) hpos.ne').mpr (by omega)
  have hge := Nat.le_of_dvd hpos hdvd
  omega

theorem lsb_run (hr : Addr) {w : Word} (hpos : 0 < w.toInt) (o : Bool) :
    (lsb hr w).run o = .ok (padicValNat 2 w.toNat, o) := by
  have hnat := Word.toInt_eq_toNat hpos.le
  have hhi := Word.toInt_lt w
  have hne : w ≠ 0 := by
    rintro rfl
    exact absurd hpos (by decide)
  have hpos' : 0 < w.toNat := by omega
  have hlt : w.toNat < 2 ^ 63 := by omega
  have h64 : Trailing w (2 * 32) (w, 0) := ⟨hlt, hpos', padicValNat_lt hpos' hlt, Nat.zero_add _⟩
  have h32 : Trailing w (2 * 16) _ := h64.step 0xffffffff (by decide)
  have h16 : Trailing w (2 * 8) _ := h32.step 0xffff (by decide)
  have h8 : Trailing w (2 * 4) _ := h16.step 0xff (by decide)
  have h4 : Trailing w (2 * 2) _ := h8.step 0xf (by decide)
  have h2 : Trailing w (2 * 1) _ := h4.step 0x3 (by decide)
  unfold lsb
  rw [if_neg (by omega), if_neg hne]
  generalize lsbStep 0x3 2 (lsbStep 0xf 4 (lsbStep 0xff 8 (lsbStep 0xffff 16 (lsbStep 0xffffffff 32 (w, 0))))) = s at h2
  have htest := mask_test_iff 0x1 (w := s.1) (k := 1) (by decide)
  have hdvd := padicValNat_dvd_iff_le (p := 2) (n := 1) h2.pos.ne'
  have hcount := h2.count
  have hsmall := h2.small
  rw [Calc.pure_run]
  by_cases hbit : 2 ^ 1 ∣ s.1.toNat
  · have hlow := hdvd.mp hbit
    simp only [if_pos (htest.mpr hbit)]
    rw [← hcount]
    congr 2
    omega
  · simp only [if_neg (mt htest.mp hbit)]
    rw [hdvd] at hbit
    rw [← hcount]
    congr 2
    omega

-- ---------------------------------------------------------------------------
-- The number of one bits
-- ---------------------------------------------------------------------------

theorem oneBits_half (n : ℕ) : oneBits n = (if n % 2 = 1 then 1 else 0) + oneBits (n / 2) := by
  rcases Nat.eq_zero_or_pos n with rfl | hpos
  · rfl
  · rw [oneBits, Nat.digits_def' (by norm_num) hpos, List.count_cons, ← oneBits, add_comm]
    simp

theorem bit_test_iff (w : Word) {m : Word} {j : ℕ} (hm : m.toNat = 2 ^ j) : w &&& m ≠ 0 ↔ w.toNat / 2 ^ j % 2 = 1 := by
  rw [ne_eq, ← BitVec.toNat_inj, BitVec.toNat_and, hm, Nat.and_two_pow, Nat.testBit_eq_decide_div_mod_eq]
  by_cases hbit : w.toNat / 2 ^ j % 2 = 1 <;> simp [hbit]

/-- The loop has counted the bits below the mask. -/
theorem popcountLoop_eq (w : Word) (n : ℕ) {m : Word} {j : ℕ} (c : ℕ) (hm : m.toNat = 2 ^ j % 2 ^ 64) (hn : n + j = 64) :
    popcountLoop w n m c = c + oneBits (w.toNat / 2 ^ j) := by
  induction n generalizing m j c with
  | zero =>
    obtain rfl : j = 64 := by omega
    rw [Nat.div_eq_of_lt w.isLt]
    rfl
  | succ n ih =>
    have hpow : m.toNat = 2 ^ j := by rw [hm, Nat.mod_eq_of_lt (Nat.pow_lt_pow_right (by norm_num) (by omega))]
    have hnext : (m <<< 1).toNat = 2 ^ (j + 1) % 2 ^ 64 := by
      rw [BitVec.toNat_shiftLeft, hpow, Nat.shiftLeft_eq, ← pow_add]
    rw [popcountLoop, ih _ hnext (by omega), oneBits_half (w.toNat / 2 ^ j), Nat.div_div_eq_div_mul, ← pow_succ]
    simp only [bit_test_iff w hpow]
    split_ifs <;> omega

theorem popcount_run (hr : Addr) {w : Word} (hnonneg : 0 ≤ w.toInt) (o : Bool) :
    (popcount hr w).run o = .ok (oneBits w.toNat, o) := by
  unfold popcount
  rw [if_neg (by omega)]
  by_cases hzero : w = 0
  · subst hzero
    rfl
  · rw [if_neg hzero, popcountLoop_eq w 64 (j := 0) 0 rfl rfl, Nat.zero_add, pow_zero, Nat.div_one]
    rfl

-- ---------------------------------------------------------------------------
-- The functions
-- ---------------------------------------------------------------------------

variable {build : MsbBuild} {hr : Addr} {t : Term} {n : ℕ}

theorem mkIntegerTerm_fits {w : Word} {z : ℤ} (h : (mkIntegerTerm hr w).intValue? = some z) : Word.Fits z := by
  rcases Term.intValue?_cases h with ⟨i, -, rfl, -⟩ | ⟨b, -, -, hbig⟩
  · exact Word.fits_toInt i
  · rw [(mkIntegerTerm_kind hr w).1] at hbig
    cases hbig

/-- A count that is boxed as a word is read back when it is a word and not in the band. -/
theorem countBoxed_iff (hr : Addr) (k : ℕ) :
    (mkIntegerTerm hr (BitVec.ofNat 64 k)).intValue? = some (k : ℤ) ↔ Word.Fits k ∧ ¬ InBand k := by
  by_cases hfits : Word.Fits (k : ℤ)
  · rw [and_iff_right hfits, mkIntegerTerm_eq, BitVec.toInt_ofNat', Word.bmod_of_fits hfits]
    exact mkBigIntTerm_intValue? hr k
  · exact iff_of_false (fun h => hfits (mkIntegerTerm_fits h)) fun h => hfits h.1

/-- A count is never read back as the one below it. -/
theorem countBoxed_succ (hr : Addr) (k : ℕ) : (mkIntegerTerm hr (BitVec.ofNat 64 (k + 1))).intValue? ≠ some (k : ℤ) := by
  intro h
  rw [mkIntegerTerm_eq, BitVec.toInt_ofNat'] at h
  have hfield := mkBigIntTerm_intValue?_dvd h
  have hword := Int.dvd_self_sub_bmod (x := ((k + 1 : ℕ) : ℤ)) (m := 2 ^ 64)
  generalize (((k + 1 : ℕ) : ℤ)).bmod (2 ^ 64) = z at hfield hword
  norm_num at hfield hword
  omega

theorem not_inBand_small {k : ℕ} (h : k ≤ 64) : Word.Fits k ∧ ¬ InBand k := by
  simp only [Word.Fits, InBand, Tags.InField]
  omega

theorem evalBits_word {i : Word} {k : ℕ} {word : Word → Calc ℕ} {big : Term → BigNum → Calc Term} {text : String}
    (he : eTypeOfTerm t = .longInt i) (hword : (word i).run false = .ok (k, false)) (z : ℤ) :
    YieldsExactly (evalBits hr word big text t) z ↔ (mkIntegerTerm hr (BitVec.ofNat 64 k)).intValue? = some z := by
  have hrun : (evalBits hr word big text t).run false = .ok (mkIntegerTerm hr (BitVec.ofNat 64 k), false) := by
    rw [evalBits, he]
    simp only
    rw [Calc.bind_run hword]
    rfl
  rw [yieldsExactly_iff hrun, and_iff_right rfl]

theorem evalBits_big {b : BigInt} {word : Word → Calc ℕ} {count : ℕ → ℕ} {text negative rational : String}
    (he : eTypeOfTerm t = .bigInt (.int b)) (hpos : 0 < b.1) (z : ℤ) :
    YieldsExactly (evalBits hr word (gmpCountBits hr count negative rational) text t) z ↔
      (mkIntegerTerm hr (BitVec.ofNat 64 (count b.1.toNat))).intValue? = some z := by
  have hrun : (evalBits hr word (gmpCountBits hr count negative rational) text t).run false =
      .ok (mkIntegerTerm hr (BitVec.ofNat 64 (count b.1.toNat)), false) := by
    rw [evalBits, he]
    simp only [gmpCountBits]
    rw [if_neg (by omega)]
    rfl
  rw [yieldsExactly_iff hrun, and_iff_right rfl]

/-- The answer is boxed as it is, and `msb` is asked of a word, where it is what the build of `msb` finds. -/
structure BitOp.When (build : MsbBuild) (op : BitOp) (n : ℕ) : Prop where
  word : op = .msb → Word.Fits n ∧ build.bits n = Nat.log 2 n
  boxed : Word.Fits (op.eval n) ∧ ¬ InBand (op.eval n)

theorem bits_le (build : MsbBuild) {n : ℕ} (hpos : 0 < n) (hlt : n < 2 ^ 63) : build.bits n ≤ 64 := by
  cases build with
  | search => exact (Nat.log_lt_of_lt_pow hpos.ne' hlt).le.trans (by norm_num)
  | ffsll => exact padicValNat_lt hpos hlt

theorem bits_yieldsExactly_iff (build : MsbBuild) (hr : Addr) (op : BitOp) (ht : t.intValue? = some (n : ℤ))
    (hn : 0 < n ∨ op = .popcount) : YieldsExactly (op.run build hr t) (op.eval n) ↔ op.When build n := by
  rcases Term.intValue?_cases ht with ⟨i, he, hi, -⟩ | ⟨b, he, hb, -⟩
  · have hnonneg : 0 ≤ i.toInt := by omega
    have hnat := Word.toInt_eq_toNat hnonneg
    have hhi := Word.toInt_lt i
    obtain rfl : n = i.toNat := by omega
    cases op with
    | msb =>
      have hpos : 0 < i.toNat := by simpa using hn
      have hsmall := bits_le build hpos (by omega)
      have hlog : Nat.log 2 i.toNat ≤ 64 :=
        (Nat.log_lt_of_lt_pow hpos.ne' (by omega : i.toNat < 2 ^ 63)).le.trans (by norm_num)
      rw [BitOp.run, evalBits_word he (yapMsb_run (by omega) false), (countBoxed_iff hr _).mpr (not_inBand_small hsmall)]
      constructor
      · intro h
        exact ⟨fun _ => ⟨hi ▸ Word.fits_toInt i, by exact_mod_cast Option.some.inj h⟩, not_inBand_small hlog⟩
      · intro h
        rw [(h.word rfl).2]
        rfl
    | lsb =>
      have hpos : 0 < i.toNat := by simpa using hn
      rw [BitOp.run, evalBits_word he (lsb_run hr (by omega) false), BitOp.eval, countBoxed_iff]
      exact ⟨fun h => ⟨fun hop => (by cases hop), h⟩, fun h => h.boxed⟩
    | popcount =>
      rw [BitOp.run, evalBits_word he (popcount_run hr hnonneg false), BitOp.eval, countBoxed_iff]
      exact ⟨fun h => ⟨fun hop => (by cases hop), h⟩, fun h => h.boxed⟩
  · have hbig : ¬ Word.Fits (n : ℤ) := hb ▸ b.2
    have hpos : 0 < b.1 := by
      by_contra hle
      exact hbig (by constructor <;> omega)
    obtain rfl : n = b.1.toNat := by omega
    cases op with
    | msb =>
      rw [BitOp.run, gmpMsb, evalBits_big he hpos]
      exact iff_of_false (countBoxed_succ hr _) fun h => hbig (h.word rfl).1
    | lsb =>
      rw [BitOp.run, gmpLsb, evalBits_big he hpos, BitOp.eval, countBoxed_iff]
      exact ⟨fun h => ⟨fun hop => (by cases hop), h⟩, fun h => h.boxed⟩
    | popcount =>
      rw [BitOp.run, gmpPopcount, evalBits_big he hpos, BitOp.eval, countBoxed_iff]
      exact ⟨fun h => ⟨fun hop => (by cases hop), h⟩, fun h => h.boxed⟩

/-- The least significant bit of a machine integer. -/
theorem bits_lsb_twelve : YieldsExactly (BitOp.lsb.run .search 0 (.int 12)) (BitOp.lsb.eval 12) :=
  (bits_yieldsExactly_iff .search 0 .lsb (show (Term.int 12).intValue? = some ((12 : ℕ) : ℤ) from rfl)
    (.inl (by norm_num))).mpr ⟨fun hop => (by cases hop), by decide +kernel⟩

/-- `msb` of a big integer is one above the logarithm. -/
theorem not_bits_msb : ¬ YieldsExactly (BitOp.msb.run .search 0 (.blob 0 (.bigInt (.int ⟨2 ^ 64, by decide⟩))))
    (BitOp.msb.eval (2 ^ 64)) := by
  rw [BitOp.run, gmpMsb, evalBits_big (b := ⟨2 ^ 64, by decide⟩) rfl (by norm_num)]
  exact countBoxed_succ 0 _

end Yap
