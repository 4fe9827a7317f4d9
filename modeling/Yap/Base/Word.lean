-- SUMMARY: 64-bit machine words read as two's complement integers: their range, wrap-around subtraction, and the sign of a three-way result.
import Mathlib

/-!
# Machine words

Signed words are bit vectors read in two's complement. The operations of
`BitVec` wrap around; the lemmas below say when they agree with the integers.
-/

/-- A 64-bit machine word. -/
abbrev Word : Type := BitVec 64

namespace Word

/-- `z` is the value of a signed word. -/
def Fits (z : ℤ) : Prop := -2 ^ 63 ≤ z ∧ z < 2 ^ 63

instance (z : ℤ) : Decidable (Fits z) := inferInstanceAs (Decidable (_ ∧ _))

/-- The least signed word. -/
def intMin : Word := BitVec.intMin 64

/-- The greatest signed word. -/
def intMax : Word := BitVec.intMax 64

@[simp] theorem toInt_intMin : intMin.toInt = -2 ^ 63 := by decide
@[simp] theorem toInt_intMax : intMax.toInt = 2 ^ 63 - 1 := by decide

theorem fits_toInt (x : Word) : Fits x.toInt :=
  ⟨BitVec.le_toInt x, BitVec.toInt_lt⟩

theorem le_toInt (x : Word) : -2 ^ 63 ≤ x.toInt := (fits_toInt x).1

theorem toInt_lt (x : Word) : x.toInt < 2 ^ 63 := (fits_toInt x).2

theorem toInt_inj {x y : Word} : x.toInt = y.toInt ↔ x = y := BitVec.toInt_inj

theorem toInt_eq_intMin {x : Word} : x.toInt = -2 ^ 63 ↔ x = intMin := by
  rw [← toInt_intMin, toInt_inj]

/-- A word that is not negative is the same number with and without sign. -/
theorem toInt_eq_toNat {x : Word} (h : 0 ≤ x.toInt) : x.toInt = x.toNat := by
  have hlt := x.isLt
  rw [BitVec.toInt_eq_toNat_bmod] at h ⊢
  simp only [Int.bmod] at h ⊢
  norm_num at h ⊢
  omega

/-- The negation of a word that is not positive, read without sign, is exact
    also at the least word. -/
theorem toNat_neg {x : Word} (h : x.toInt ≤ 0) : ((-x).toNat : ℤ) = -x.toInt := by
  have hlt := x.isLt
  rw [BitVec.toNat_neg]
  rw [BitVec.toInt_eq_toNat_bmod] at h ⊢
  simp only [Int.bmod] at h ⊢
  norm_num at h ⊢
  omega

/-- Wrapping a value that fits is the identity. -/
theorem bmod_of_fits {z : ℤ} (h : Fits z) : z.bmod (2 ^ 64) = z := by
  obtain ⟨hlo, hhi⟩ := h
  exact Int.bmod_eq_of_le (by norm_num; omega) (by norm_num; omega)

theorem toInt_ofInt {z : ℤ} (h : Fits z) : (BitVec.ofInt 64 z).toInt = z := by
  rw [BitVec.toInt_ofInt, bmod_of_fits h]

theorem toInt_sub_of_fits {x y : Word} (h : Fits (x.toInt - y.toInt)) :
    (x - y).toInt = x.toInt - y.toInt := by
  rw [BitVec.toInt_sub, bmod_of_fits h]

/-- A difference that leaves the range comes back with the wrong sign: it is
    moved by `2 ^ 64`, and a difference of two words is less than that. -/
theorem toInt_sub_of_not_fits {x y : Word} (h : ¬ Fits (x.toInt - y.toInt)) :
    (0 < x.toInt - y.toInt ∧ (x - y).toInt < 0) ∨
      (x.toInt - y.toInt < 0 ∧ 0 < (x - y).toInt) := by
  have hx := fits_toInt x
  have hy := fits_toInt y
  rw [BitVec.toInt_sub]
  simp only [Fits] at h hx hy
  rcases le_or_gt (2 ^ 63) (x.toInt - y.toInt) with hge | hlt
  · have hwrap : (x.toInt - y.toInt).bmod (2 ^ 64) = x.toInt - y.toInt - 2 ^ 64 := by
      simp only [Int.bmod]; norm_num; omega
    exact .inl ⟨by omega, by omega⟩
  · have hwrap : (x.toInt - y.toInt).bmod (2 ^ 64) = x.toInt - y.toInt + 2 ^ 64 := by
      simp only [Int.bmod]; norm_num; omega
    exact .inr ⟨by omega, by omega⟩

end Word

/-! ## Three-way results

C code answers a comparison with an integer of which only the sign counts. -/

/-- The ordering that the sign of a three-way result stands for. -/
def signOf (z : ℤ) : Ordering := compare z 0

namespace signOf

@[simp] theorem eq_lt {z : ℤ} : signOf z = .lt ↔ z < 0 := compare_lt_iff_lt

@[simp] theorem eq_eq {z : ℤ} : signOf z = .eq ↔ z = 0 := compare_eq_iff_eq

@[simp] theorem eq_gt {z : ℤ} : signOf z = .gt ↔ 0 < z := compare_gt_iff_gt

@[simp] theorem zero : signOf 0 = .eq := rfl

@[simp] theorem one : signOf 1 = .gt := rfl

@[simp] theorem neg_one : signOf (-1) = .lt := rfl

theorem eq_compare_iff {α : Type*} [LinearOrder α] {z : ℤ} {a b : α}
    (hlt : a < b → z < 0) (heq : a = b → z = 0) (hgt : b < a → 0 < z) :
    signOf z = compare a b := by
  rcases lt_trichotomy a b with h | h | h
  · rw [compare_lt_iff_lt.mpr h, eq_lt]; exact hlt h
  · rw [compare_eq_iff_eq.mpr h, eq_eq]; exact heq h
  · rw [compare_gt_iff_gt.mpr h, eq_gt]; exact hgt h

/-- Pairs with the same relations compare alike. -/
theorem compare_congr {α β : Type*} [LinearOrder α] [LinearOrder β] {a b : α} {c d : β}
    (hlt : a < b → c < d) (heq : a = b → c = d) (hgt : b < a → d < c) :
    compare c d = compare a b := by
  rcases lt_trichotomy a b with h | h | h
  · rw [compare_lt_iff_lt.mpr h, compare_lt_iff_lt]; exact hlt h
  · rw [compare_eq_iff_eq.mpr h, compare_eq_iff_eq]; exact heq h
  · rw [compare_gt_iff_gt.mpr h, compare_gt_iff_gt]; exact hgt h

theorem sub (a b : ℤ) : signOf (a - b) = compare a b :=
  eq_compare_iff (by omega) (by omega) (by omega)

theorem neg (z : ℤ) : signOf (-z) = (signOf z).swap := by
  rcases lt_trichotomy z 0 with h | h | h
  · rw [eq_lt.mpr h, eq_gt.mpr (by omega)]; rfl
  · subst h; rfl
  · rw [eq_gt.mpr h, eq_lt.mpr (by omega)]; rfl

/-- The sign of a wrapped difference is right exactly when nothing wraps. -/
theorem wordSub_eq_iff (x y : Word) :
    signOf (x - y).toInt = compare x.toInt y.toInt ↔ Word.Fits (x.toInt - y.toInt) := by
  constructor
  · intro h
    by_contra hfits
    rcases Word.toInt_sub_of_not_fits hfits with ⟨hpos, hneg⟩ | ⟨hneg, hpos⟩
    · rw [eq_lt.mpr hneg, eq_comm, compare_lt_iff_lt] at h; omega
    · rw [eq_gt.mpr hpos, eq_comm, compare_gt_iff_gt] at h; omega
  · intro hfits
    rw [Word.toInt_sub_of_fits hfits, sub]

end signOf
