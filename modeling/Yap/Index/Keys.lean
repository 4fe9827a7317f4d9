-- SUMMARY: Boxes that unify have the same index key in every memory, but for texts, whose keys read cells that the text does not fill, and for numerators with different allocations.
import Yap.Index.Boxes
import Yap.Unify.Moves

/-!
# Index keys of boxes that unify

The key of a text reads so many cells as the first eight bytes of the text say, and
the key of a rational the cell of `_mp_alloc` and `_mp_size` of the numerator. A
memory where two keys differ comes from one where they agree by changing a bit that
the box does not fix.
-/

namespace Yap.Boxes

-- ---------------------------------------------------------------------------
-- Words and keys
-- ---------------------------------------------------------------------------

theorem getLsbD_copyBytes (w : Word) (bytes : List UInt8) {t : ℕ} (ht : t < 64) :
    (copyBytes w bytes).getLsbD t =
      (bytes[t / 8]?).elim (w.getLsbD t) fun b => b.toBitVec.getLsbD (t % 8) := by
  rw [copyBytes, BitVec.getLsbD_eq_getElem ht, BitVec.getElem_ofFnLE]
  simp only
  cases bytes[t / 8]? <;> rfl

/-- A whole word is copied. -/
theorem copyBytes_whole {bytes : List UInt8} (h : 8 ≤ bytes.length) (w w' : Word) :
    copyBytes w bytes = copyBytes w' bytes := by
  apply BitVec.eq_of_getLsbD_eq
  intro t ht
  rw [getLsbD_copyBytes w bytes ht, getLsbD_copyBytes w' bytes ht, List.getElem?_eq_getElem (by omega)]
  rfl

theorem copyBytes_copyBytes (w : Word) (bytes : List UInt8) :
    copyBytes (copyBytes w bytes) bytes = copyBytes w bytes := by
  apply BitVec.eq_of_getLsbD_eq
  intro t ht
  rw [getLsbD_copyBytes _ bytes ht]
  cases hbyte : bytes[t / 8]? with
  | none => rfl
  | some b => rw [getLsbD_copyBytes w bytes ht, hbyte]; rfl

/-- A byte that is not 0 bounds the word. -/
theorem pow_le_copyBytes (w : Word) {bytes : List UInt8} {i : ℕ} {b : UInt8} (hi : i < 8)
    (hbyte : bytes[i]? = some b) (hb : b ≠ 0) : 2 ^ (8 * i) ≤ (copyBytes w bytes).toNat := by
  obtain ⟨t, ht, hbit⟩ : ∃ t < 8, b.toBitVec.getLsbD t = true := by
    by_contra hnone
    push Not at hnone
    apply hb
    rw [← UInt8.toBitVec_inj]
    apply BitVec.eq_of_getLsbD_eq
    intro t ht
    rw [Bool.eq_false_of_not_eq_true (hnone t ht)]
    simp
  have hword : (copyBytes w bytes).getLsbD (8 * i + t) = true := by
    rw [getLsbD_copyBytes w bytes (by omega)]
    have hdiv : (8 * i + t) / 8 = i := by omega
    have hmod : (8 * i + t) % 8 = t := by omega
    rw [hdiv, hmod, hbyte]
    exact hbit
  have hle : 2 ^ (8 * i + t) ≤ (copyBytes w bytes).toNat := Nat.ge_two_pow_of_testBit hword
  exact (Nat.pow_le_pow_right (by decide) (Nat.le_add_right _ _)).trans hle

/-- The bit that tells two keys apart. -/
def probe : Word := BitVec.twoPow 64 56

theorem getLsbD_probe (t : ℕ) : probe.getLsbD t = decide (t = 56) := by
  rw [probe, BitVec.getLsbD_twoPow]
  by_cases ht : t = 56
  · subst ht
    decide
  · simp [ht, eq_comm]

/-- The highest byte is not copied. -/
theorem copyBytes_xor_probe {bytes : List UInt8} (h : bytes.length < 8) (w : Word) :
    copyBytes (w ^^^ probe) bytes = copyBytes w bytes ^^^ probe := by
  apply BitVec.eq_of_getLsbD_eq
  intro t ht
  rw [BitVec.getLsbD_xor, getLsbD_copyBytes _ bytes ht, getLsbD_copyBytes w bytes ht, BitVec.getLsbD_xor,
    getLsbD_probe]
  cases hbyte : bytes[t / 8]? with
  | none => rfl
  | some b =>
      have hlt : t / 8 < bytes.length := (List.getElem?_eq_some_iff.mp hbyte).1
      have hne : t ≠ 56 := by omega
      simp [hne]

/-- A key keeps 58 bits. -/
theorem keyOf_eq (v : Word) : keyOf v = Tags.taggedWord (v.setWidth 58) := by
  have hmask : (v &&& (Tags.maxAbsInt - 1)).setWidth 58 = v.setWidth 58 := by
    apply BitVec.eq_of_getLsbD_eq
    intro t ht
    have hbit : ∀ t < 58, (Tags.maxAbsInt - 1).getLsbD t = true := by decide
    rw [BitVec.getLsbD_setWidth, BitVec.getLsbD_setWidth, BitVec.getLsbD_and, hbit t ht, Bool.and_true]
  rw [keyOf, Tags.mkIntTerm_eq, hmask]

theorem keyOf_inj {v w : Word} : keyOf v = keyOf w ↔ v.setWidth 58 = w.setWidth 58 := by
  rw [keyOf_eq, keyOf_eq]
  constructor
  · intro h
    have hint := congrArg Tags.intOfTerm h
    rw [Tags.intOfTerm_taggedWord, Tags.intOfTerm_taggedWord] at hint
    apply BitVec.eq_of_getLsbD_eq
    intro t ht
    have hbit : (BitVec.signExtend 64 (v.setWidth 58)).getLsbD t = (BitVec.signExtend 64 (w.setWidth 58)).getLsbD t := by
      rw [hint]
    rw [BitVec.getLsbD_signExtend, BitVec.getLsbD_signExtend, if_pos ht, if_pos ht] at hbit
    simpa only [decide_eq_true (ht.trans (by decide : 58 < 64)), Bool.true_and] using hbit
  · exact congrArg Tags.taggedWord

theorem keyOf_xor_probe (v : Word) : keyOf (v ^^^ probe) ≠ keyOf v := by
  intro h
  have hbit : ((v ^^^ probe).setWidth 58).getLsbD 56 = (v.setWidth 58).getLsbD 56 := by rw [keyOf_inj.mp h]
  rw [BitVec.getLsbD_setWidth, BitVec.getLsbD_setWidth, BitVec.getLsbD_xor, getLsbD_probe] at hbit
  simp at hbit

-- ---------------------------------------------------------------------------
-- Memories
-- ---------------------------------------------------------------------------

theorem stringCell_idem (s : CString) (i : ℕ) (w : Word) : stringCell s i (stringCell s i w) = stringCell s i w := by
  unfold stringCell
  split_ifs with h0 h1 hend hnil h2
  · rfl
  · rfl
  · rfl
  · rfl
  · rfl
  · exact copyBytes_copyBytes _ _

/-- A cell is fixed, or it is left as it is. -/
theorem bigRatCell_cases {z d : ℤ} (num : MpInt z) (den : MpInt d) (i : ℕ) :
    (∃ v, ∀ w, bigRatCell num den i w = v) ∨ ∀ w, bigRatCell num den i w = w := by
  unfold bigRatCell
  by_cases hspare : i = 3 ∨ i = 5 ∨ i = 7
  · rcases hspare with rfl | rfl | rfl <;> exact .inr fun _ => rfl
  · simp only [if_neg hspare]
    split_ifs
    all_goals first | exact .inl ⟨_, fun _ => rfl⟩ | exact .inr fun _ => rfl

theorem Box.cell_cell (b : Box) (i : ℕ) (w : Word) : b.cell i (b.cell i w) = b.cell i w := by
  cases b with
  | longInt j => simp only [cell, wordCell]; split_ifs <;> rfl
  | double x => simp only [cell, wordCell]; split_ifs <;> rfl
  | string s => exact stringCell_idem s i w
  | bigInt z big => simp only [cell, bigIntCell]; split_ifs <;> rfl
  | bigRat q num den =>
    obtain ⟨v, hv⟩ | hv := bigRatCell_cases num den i
    · exact (hv _).trans (hv w).symm
    · exact hv _

/-- Two boxes made one behind the other, in cells that all held one word. -/
def place (b c : Box) (w : Word) (x : ℕ) : Word := if x < b.size then b.cell x w else c.cell (x - b.size) w

theorem at_place (b c : Box) (w : Word) : b.At (place b c w) 0 ∧ c.At (place b c w) b.size := by
  refine ⟨fun i hi => ?_, fun i hi => ?_⟩
  · have hcell : place b c w (0 + i) = b.cell i w := by rw [Nat.zero_add, place, if_pos hi]
    rw [hcell, Box.cell_cell]
  · have hcell : place b c w (b.size + i) = c.cell i w := by
      rw [place, if_neg (Nat.not_lt.mpr (Nat.le_add_right _ _)), Nat.add_sub_cancel_left]
    rw [hcell, Box.cell_cell]

/-- A memory with one bit changed. -/
def flip (m : ℕ → Word) (x : ℕ) : ℕ → Word := Function.update m x (m x ^^^ probe)

theorem flip_of_ne (m : ℕ → Word) {x y : ℕ} (h : y ≠ x) : flip m x y = m y := Function.update_of_ne h _ _

theorem flip_self (m : ℕ → Word) (x : ℕ) : flip m x x = m x ^^^ probe := Function.update_self ..

/-- A bit that the box does not fix. -/
theorem Box.At.flip {b : Box} {m : ℕ → Word} {p : ℕ} (h : b.At m p) {i : ℕ}
    (hi : b.cell i (m (p + i) ^^^ probe) = b.cell i (m (p + i)) ^^^ probe) : b.At (flip m (p + i)) p := by
  intro j hj
  by_cases hij : j = i
  · subst hij
    rw [flip_self, hi, h j hj]
  · rw [flip_of_ne m (by omega), h j hj]

theorem Box.At.flip_below {b : Box} {m : ℕ → Word} {p x : ℕ} (h : b.At m p) (hx : x < p) :
    b.At (Boxes.flip m x) p := by
  intro j hj
  rw [flip_of_ne m (by omega), h j hj]

-- ---------------------------------------------------------------------------
-- Texts
-- ---------------------------------------------------------------------------

theorem xorCells_congr {m m' : ℕ → Word} {pt pt' k : ℕ} (hfirst : m (pt + 2) = m' (pt' + 2))
    (h : ∀ i < k, m (pt + (i + 2)) = m' (pt' + (i + 2))) : xorCells m pt k = xorCells m' pt' k := by
  induction k with
  | zero => exact hfirst
  | succ k ih =>
      rw [xorCells, xorCells, ih fun i hi => h i (Nat.lt_succ_of_lt hi), h k (Nat.lt_succ_self k)]

/-- A cell behind the first is read once. -/
theorem xorCells_flip (m : ℕ → Word) (pt : ℕ) {i k : ℕ} (hi : 3 ≤ i) (hk : i ≤ k + 1) :
    xorCells (flip m (pt + i)) pt k = xorCells m pt k ^^^ probe := by
  induction k with
  | zero => omega
  | succ k ih =>
      rw [xorCells, xorCells]
      by_cases hlast : i = k + 2
      · subst hlast
        rw [flip_self, xorCells_congr (flip_of_ne m (by omega)) fun j hj => flip_of_ne m (by omega), BitVec.xor_assoc]
      · rw [ih (by omega), flip_of_ne m (by omega), BitVec.xor_assoc, BitVec.xor_assoc, BitVec.xor_comm probe]

theorem length_lt_stringSize (s : CString) : s.bytes.length < stringSize s ∧ 8 ≤ stringSize s := by
  unfold stringSize alignByCell
  split
  · next hnil => simp [hnil]
  · omega

section Text

variable {s : CString} {m m' : ℕ → Word} {p p' : ℕ}

theorem string_cell (h : (Box.string s).At m p) (hs : s.bytes ≠ []) {j : ℕ} (hj : j < stringSize s) :
    strcpyCell s j (m (p + (2 + j))) = m (p + (2 + j)) := by
  have hcell : stringCell s (2 + j) (m (p + (2 + j))) = m (p + (2 + j)) :=
    h (2 + j) (by rw [Box.size]; omega)
  rw [stringCell, if_neg (by omega), if_neg (by omega), if_neg (by omega), if_neg hs,
    Nat.add_sub_cancel_left] at hcell
  exact hcell

/-- The cells that a text fills. -/
theorem string_cell_whole (h : (Box.string s).At m p) (h' : (Box.string s).At m' p') (hs : s.bytes ≠ []) {j : ℕ}
    (hj : 8 * (j + 1) ≤ s.bytes.length + 1) : m (p + (2 + j)) = m' (p' + (2 + j)) := by
  have hlen := length_lt_stringSize s
  rw [← string_cell h hs (by omega), ← string_cell h' hs (by omega)]
  apply copyBytes_whole
  rw [List.length_drop, List.length_append, List.length_singleton]
  omega

theorem string_word (h : (Box.string s).At m p) (hs : s.bytes ≠ []) :
    m (p + 2) = copyBytes (m (p + 2)) (s.bytes ++ [0]) := by
  have hlen := length_lt_stringSize s
  have hcell := string_cell h hs (j := 0) (by omega)
  rw [strcpyCell, Nat.mul_zero, List.drop_zero] at hcell
  exact hcell.symm

/-- The first eight bytes of a text as a number; bytes that lack are 0. -/
def firstWord (s : CString) : ℕ := (copyBytes 0 (s.bytes ++ [0])).toNat

theorem string_word_whole (h : (Box.string s).At m p) (hlen : 7 ≤ s.bytes.length) : (m (p + 2)).toNat = firstWord s := by
  have hs : s.bytes ≠ [] := List.ne_nil_of_length_pos (by omega)
  rw [string_word h hs, firstWord, copyBytes_whole]
  rw [List.length_append, List.length_singleton]
  omega

theorem pow_le_firstWord {i : ℕ} (hi : i < s.bytes.length) (hi8 : i < 8) (w : Word) :
    2 ^ (8 * i) ≤ (copyBytes w (s.bytes ++ [0])).toNat := by
  refine pow_le_copyBytes w (b := s.bytes[i]) hi8 ?_ fun h0 => s.nul_free (h0 ▸ List.getElem_mem hi)
  rw [List.getElem?_append_left hi, List.getElem?_eq_getElem hi]

theorem stringKey_eq (m : ℕ → Word) (p : ℕ) : stringKey m p = keyOf (xorCells m (p + 1) ((m (p + 2)).toNat - 1)) := rfl

/-- The cells that are read are those that the text fills. -/
def ReadsText (s : CString) : Prop := s.bytes ≠ [] ∧ 8 * firstWord s ≤ s.bytes.length + 1

theorem ReadsText.seven_le (h : ReadsText s) : 7 ≤ s.bytes.length := by
  obtain ⟨hs, hle⟩ := h
  have hpos := pow_le_firstWord (List.length_pos_of_ne_nil hs) (by decide) 0
  rw [← firstWord, Nat.mul_zero, pow_zero] at hpos
  omega

theorem stringKey_of_readsText (hreads : ReadsText s) (h : (Box.string s).At m p) (h' : (Box.string s).At m' p') :
    stringKey m p = stringKey m' p' := by
  have hlen := hreads.seven_le
  obtain ⟨hs, hle⟩ := hreads
  have htwo := pow_le_firstWord (i := 1) (s := s) (by omega) (by decide) 0
  rw [← firstWord] at htwo
  have hword := string_word_whole h hlen
  rw [stringKey_eq, stringKey_eq, hword, string_word_whole h' hlen]
  have hcell {j : ℕ} (hj : j < firstWord s) : m (p + (2 + j)) = m' (p' + (2 + j)) :=
    string_cell_whole h h' hs (by omega)
  have hfirst : m (p + 1 + 2) = m' (p' + 1 + 2) := by
    have := hcell (j := 1) (by omega)
    simpa only [Nat.add_assoc] using this
  refine congrArg keyOf (xorCells_congr hfirst fun i hi => ?_)
  have := hcell (j := i + 1) (by omega)
  have hplace (x : ℕ) : x + 1 + (i + 2) = x + (2 + (i + 1)) := by omega
  rw [hplace, hplace]
  exact this

/-- Two equal texts, one behind the other. -/
def twice (s : CString) : ℕ → Word := place (.string s) (.string s) probe

theorem stringCell_of_le {i : ℕ} (hi : 3 ≤ i) (hlt : i < 2 + stringSize s) (w : Word) :
    stringCell s i w = if s.bytes = [] then w else strcpyCell s (i - 2) w := by
  rw [stringCell, if_neg (by omega), if_neg (by omega), if_neg (by omega), if_neg (by omega : i ≠ 2)]

/-- A cell behind the text can be changed. -/
theorem stringCell_xor_probe {i : ℕ} (hi : 3 ≤ i) (hlt : i < 2 + stringSize s)
    (htext : s.bytes.length + 1 < 8 * (i - 2) + 8) (w : Word) :
    stringCell s i (w ^^^ probe) = stringCell s i w ^^^ probe := by
  rw [stringCell_of_le hi hlt, stringCell_of_le hi hlt]
  split
  · rfl
  · apply copyBytes_xor_probe
    rw [List.length_drop, List.length_append, List.length_singleton]
    omega

/-- When the key of the first text reads a cell that can be changed, the keys of the
    two texts can differ. -/
theorem exists_stringKey_ne_of_read {i : ℕ} (hi : 3 ≤ i) (hlt : i < 2 + stringSize s)
    (htext : s.bytes.length + 1 < 8 * (i - 2) + 8)
    (hread : xorCells (flip (twice s) i) 1 ((twice s 2).toNat - 1) =
      xorCells (twice s) 1 ((twice s 2).toNat - 1) ^^^ probe) :
    ∃ m, (Box.string s).At m 0 ∧ (Box.string s).At m (Box.string s).size ∧
      stringKey m 0 ≠ stringKey m (Box.string s).size := by
  have hsize : (Box.string s).size = 3 + stringSize s := rfl
  obtain ⟨hfirst, hsecond⟩ := at_place (.string s) (.string s) probe
  by_contra hnone
  push Not at hnone
  have heq := hnone _ hfirst hsecond
  have hflip : (Box.string s).At (flip (twice s) i) 0 := by
    have := hfirst.flip (i := i) (stringCell_xor_probe hi hlt htext _)
    rwa [Nat.zero_add] at this
  have heq' := hnone _ hflip (hsecond.flip_below (by omega))
  have hsame : stringKey (flip (twice s) i) (Box.string s).size = stringKey (twice s) (Box.string s).size := by
    rw [stringKey_eq, stringKey_eq, flip_of_ne _ (by omega)]
    exact congrArg keyOf (xorCells_congr (flip_of_ne _ (by omega)) fun j _ => flip_of_ne _ (by omega))
  have hdiffer : stringKey (flip (twice s) i) 0 ≠ stringKey (twice s) 0 := by
    rw [stringKey_eq, stringKey_eq, flip_of_ne _ (by omega), Nat.zero_add, Nat.zero_add, hread]
    exact keyOf_xor_probe _
  exact hdiffer (heq'.trans (hsame.trans heq.symm))

theorem twice_cell_two (hs : s.bytes ≠ []) : twice s 2 = copyBytes probe (s.bytes ++ [0]) := by
  have hlen := length_lt_stringSize s
  have hsize : (Box.string s).size = 3 + stringSize s := rfl
  rw [twice, place, if_pos (by omega)]
  change stringCell s 2 probe = _
  rw [stringCell, if_neg (by decide), if_neg (by decide), if_neg (by omega), if_neg hs]
  rfl

/-- So many cells are read that one of them can be changed. -/
theorem le_twice_cell_two (hs : s.bytes ≠ []) (hreads : ¬ ReadsText s) :
    3 ≤ (twice s 2).toNat ∧ (s.bytes.length + 1) / 8 + 1 ≤ (twice s 2).toNat := by
  rw [twice_cell_two hs]
  by_cases hlen : 7 ≤ s.bytes.length
  · have hwhole : (copyBytes probe (s.bytes ++ [0])).toNat = firstWord s := by
      rw [firstWord, copyBytes_whole]
      rw [List.length_append, List.length_singleton]
      omega
    have htwo := pow_le_firstWord (i := 1) (s := s) (by omega) (by decide) 0
    rw [← firstWord] at htwo
    have hlt : ¬ 8 * firstWord s ≤ s.bytes.length + 1 := fun hle => hreads ⟨hs, hle⟩
    rw [hwhole]
    omega
  · have hbit : (copyBytes probe (s.bytes ++ [0])).getLsbD 56 = true := by
      have hnone : (s.bytes ++ [0])[56 / 8]? = none := by
        rw [List.getElem?_eq_none_iff, List.length_append, List.length_singleton]
        omega
      rw [getLsbD_copyBytes _ _ (by decide), hnone]
      exact getLsbD_probe 56
    have hle : 2 ^ 56 ≤ (copyBytes probe (s.bytes ++ [0])).toNat := Nat.ge_two_pow_of_testBit hbit
    omega

theorem exists_stringKey_ne (hreads : ¬ ReadsText s) :
    ∃ m, (Box.string s).At m 0 ∧ (Box.string s).At m (Box.string s).size ∧
      stringKey m 0 ≠ stringKey m (Box.string s).size := by
  obtain ⟨hlen, hsize⟩ := length_lt_stringSize s
  by_cases hs : s.bytes = []
  · -- no turn of the loop: the key is the cell behind the text
    have htwo : twice s 2 = 0 := by
      have hbox : (Box.string s).size = 3 + stringSize s := rfl
      rw [twice, place, if_pos (by omega)]
      change stringCell s 2 probe = 0
      rw [stringCell, if_neg (by decide), if_neg (by decide), if_neg (by omega), if_pos hs, if_pos rfl]
    refine exists_stringKey_ne_of_read (i := 3) le_rfl (by omega) (by simp [hs]) ?_
    rw [htwo]
    exact flip_self _ 3
  · obtain ⟨hthree, hle⟩ := le_twice_cell_two hs hreads
    obtain ⟨i, hi⟩ : ∃ i, i = max 3 ((s.bytes.length + 1) / 8 + 1) := ⟨_, rfl⟩
    refine exists_stringKey_ne_of_read (i := 1 + i) (by omega) (by omega) (by omega) ?_
    exact xorCells_flip _ 1 (by omega) (by omega)

end Text

-- ---------------------------------------------------------------------------
-- Numbers
-- ---------------------------------------------------------------------------

section Numbers

variable {m : ℕ → Word} {p : ℕ}

theorem key_of_functor {f : Word} (hf : m p = f) (hdouble : f ≠ functorDouble) (hstring : f ≠ functorString) :
    key m p = intKey m p := by
  rw [key, hf, if_neg hdouble, if_neg hstring]

theorem key_longInt {i : Word} (h : (Box.longInt i).At m p) : key m p = keyOf i := by
  have hf : m p = Tags.functorLongInt := (h 0 (by decide : 0 < 3)).symm
  have hi : m (p + 1) = i := (h 1 (by decide : 1 < 3)).symm
  rw [key_of_functor hf (by decide) (by decide), intKey, intPKey, Nat.add_sub_cancel, hf, if_neg (by decide), hi]

theorem key_double {x : Word} (h : (Box.double x).At m p) : key m p = keyOf x := by
  have hf : m p = functorDouble := (h 0 (by decide : 0 < 3)).symm
  have hx : m (p + 1) = x := (h 1 (by decide : 1 < 3)).symm
  rw [key, if_pos hf, doubleKey, doublePKey, hx]

theorem key_string {s : CString} (h : (Box.string s).At m p) : key m p = stringKey m p := by
  have hf : m p = functorString := (h 0 (by rw [Box.size]; omega)).symm
  rw [key, hf, if_neg (by decide), if_pos rfl]

theorem intKey_of_bigNum (hf : m p = functorBigInt) : intKey m p = keyOf (m (p + 4)) := by
  rw [intKey, intPKey, Nat.add_sub_cancel, if_pos hf]
  rfl

/-- The least significant limb. -/
theorem key_bigInt {z : BigInt} {big : MpInt z.val} (h : (Box.bigInt z big).At m p) :
    ∃ l, (limbs z.val)[0]? = some l ∧ key m p = keyOf (BitVec.ofNat 64 l) := by
  have hf : m p = functorBigInt := (h 0 (by rw [Box.size]; omega)).symm
  have hne : limbs z.val ≠ [] := by
    rw [limbs, Nat.digits_ne_nil_iff_ne_zero, Int.natAbs_ne_zero]
    intro hz
    exact z.not_word (hz ▸ by decide)
  have hlen : 0 < (limbs z.val).length := List.length_pos_of_ne_nil hne
  have henough := big.enough
  have hlimb : m (p + 4) = big.limb 0 := by
    have hcell := h 4 (by rw [Box.size]; omega)
    rw [Box.cell, bigIntCell, if_neg (by decide), if_neg (by decide), if_neg (by decide), if_neg (by decide),
      if_pos (by omega)] at hcell
    exact hcell.symm
  refine ⟨(limbs z.val)[0], List.getElem?_eq_getElem hlen, ?_⟩
  rw [key_of_functor hf (by decide) (by decide), intKey_of_bigNum hf, hlimb, MpInt.limb, List.getElem?_eq_getElem hlen]
  rfl

theorem key_bigRat {q : BigRat} {num : MpInt q.val.num} {den : MpInt q.val.den} (h : (Box.bigRat q num den).At m p) :
    key m p = keyOf num.header := by
  have hf : m p = functorBigInt := (h 0 (by rw [Box.size]; omega)).symm
  have hheader : m (p + 4) = num.header := (h 4 (by rw [Box.size]; omega)).symm
  rw [key_of_functor hf (by decide) (by decide), intKey_of_bigNum hf, hheader]

/-- The allocation is among the bits that a key keeps. -/
theorem keyOf_mpHeader_inj {a a' : ℕ} (ha : a < 2 ^ 31) (ha' : a' < 2 ^ 31) (size : ℤ) :
    keyOf (mpHeader a size) = keyOf (mpHeader a' size) ↔ a = a' := by
  constructor
  · intro h
    have hlow : BitVec.ofNat 32 a = BitVec.ofNat 32 a' := by
      apply BitVec.eq_of_getLsbD_eq
      intro t ht
      have hbit : ((mpHeader a size).setWidth 58).getLsbD t = ((mpHeader a' size).setWidth 58).getLsbD t := by
        rw [keyOf_inj.mp h]
      rw [BitVec.getLsbD_setWidth, BitVec.getLsbD_setWidth, mpHeader, mpHeader, BitVec.getLsbD_append,
        BitVec.getLsbD_append, if_pos ht, if_pos ht] at hbit
      simpa only [decide_eq_true (ht.trans (by decide : 32 < 58)), Bool.true_and] using hbit
    have hnat := congrArg BitVec.toNat hlow
    rw [BitVec.toNat_ofNat, BitVec.toNat_ofNat] at hnat
    omega
  · rintro rfl
    rfl

end Numbers

-- ---------------------------------------------------------------------------
-- Keys and unification
-- ---------------------------------------------------------------------------

/-- The boxes have one key, in every memory that they are in, if they unify. -/
def KeysRespectUnification (b c : Box) : Prop :=
  b.unifyExtension c = true → ∀ m p q, b.At m p → c.At m q → key m p = key m q

/-- The cells that the keys of two boxes with one value are made from have one content. -/
def FixesKey : Box → Box → Prop
  | .string s, .string _ => ReadsText s
  | .bigRat _ num _, .bigRat _ num' _ => num.alloc = num'.alloc
  | _, _ => True

theorem keys_string_iff (s : CString) :
    (∀ m p q, (Box.string s).At m p → (Box.string s).At m q → key m p = key m q) ↔ ReadsText s := by
  constructor
  · intro h
    by_contra hreads
    obtain ⟨m, hfirst, hsecond, hne⟩ := exists_stringKey_ne hreads
    apply hne
    rw [← key_string hfirst, ← key_string hsecond]
    exact h m _ _ hfirst hsecond
  · intro hreads m p q hp hq
    rw [key_string hp, key_string hq]
    exact stringKey_of_readsText hreads hp hq

theorem keys_bigRat_iff {q : BigRat} (num num' : MpInt q.val.num) (den den' : MpInt q.val.den) :
    (∀ m p p', (Box.bigRat q num den).At m p → (Box.bigRat q num' den').At m p' → key m p = key m p') ↔
      num.alloc = num'.alloc := by
  constructor
  · intro h
    obtain ⟨hfirst, hsecond⟩ := at_place (.bigRat q num den) (.bigRat q num' den') 0
    have heq := h _ _ _ hfirst hsecond
    rw [key_bigRat hfirst, key_bigRat hsecond] at heq
    exact (keyOf_mpHeader_inj num.is_int num'.is_int _).mp heq
  · intro halloc m p p' hp hp'
    rw [key_bigRat hp, key_bigRat hp']
    exact (keyOf_mpHeader_inj num.is_int num'.is_int _).mpr halloc

/-- The keys of boxes that unify are the same, but for texts with a key from cells that
    they do not fill, and numerators that were allocated in different sizes. -/
theorem keysRespectUnification_iff (b c : Box) :
    KeysRespectUnification b c ↔ (b.unifyExtension c = true → FixesKey b c) := by
  refine imp_congr_right fun hunify => ?_
  cases b with
  | longInt i =>
      cases c with
      | longInt j =>
          obtain rfl : i = j := of_decide_eq_true hunify
          exact iff_of_true (fun m p q hp hq => (key_longInt hp).trans (key_longInt hq).symm) trivial
      | _ => cases hunify
  | double x =>
      cases c with
      | double y =>
          obtain rfl : x = y := of_decide_eq_true hunify
          exact iff_of_true (fun m p q hp hq => (key_double hp).trans (key_double hq).symm) trivial
      | _ => cases hunify
  | string s =>
      cases c with
      | string t =>
          obtain rfl : s = t := strcmp_eq_zero.mp (of_decide_eq_true hunify)
          exact keys_string_iff s
      | _ => cases hunify
  | bigInt z big =>
      cases c with
      | bigInt z' big' =>
          obtain rfl : z = z' := by simpa using gmpTcmpBigBig_eq_zero.mp (of_decide_eq_true hunify)
          refine iff_of_true (fun m p q hp hq => ?_) trivial
          obtain ⟨l, hl, hkey⟩ := key_bigInt hp
          obtain ⟨l', hl', hkey'⟩ := key_bigInt hq
          obtain rfl : l = l' := Option.some.inj (hl.symm.trans hl')
          exact hkey.trans hkey'.symm
      | bigRat q num den => cases hunify
      | _ => cases hunify
  | bigRat q num den =>
      cases c with
      | bigRat q' num' den' =>
          obtain rfl : q = q' := by simpa using gmpTcmpBigBig_eq_zero.mp (of_decide_eq_true hunify)
          exact keys_bigRat_iff num num' den den'
      | bigInt z big => cases hunify
      | _ => cases hunify

/-- Two boxes of the text `a`, one behind the other. -/
theorem not_keysRespectUnification : ¬ ∀ b c, KeysRespectUnification b c := by
  intro h
  obtain ⟨hfirst, hsecond⟩ := at_place (.string ⟨[97], by decide⟩) (.string ⟨[97], by decide⟩) 0
  have heq := h _ _ (by decide) _ _ _ hfirst hsecond
  revert heq
  decide +kernel

end Yap.Boxes
