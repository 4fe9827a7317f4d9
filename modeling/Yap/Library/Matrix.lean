-- SUMMARY: Matrices of integers: the operations that make a matrix of another shape keep the elements at their index vectors, but for the sum over several dimensions.
import Yap.Base.MixedRadix

/-!
# Matrices of integers

The functions follow `matrix.c`. A matrix is a block of `int`s, with its base, its
size and its dimensions, and of `long`s after them. The operations go through the
offsets of one matrix, take them to index vectors, and these to offsets of the
other matrix. Offsets below the size and index vectors below the dimensions are in
bijection, and each operation is a gathering or a scattering of elements along it.
The sum over several dimensions adds logarithms, so that it keeps the greatest element.

Not modelled: matrices of floats, arguments that are no lists of natural numbers,
and blocks that do not fit on the stack.
-/

namespace Yap

namespace IntMatrix

open MixedRadix

/-- An `unsigned int`. -/
def uint (z : ℤ) : ℕ := (z % 2 ^ 32).toNat

/-- An `int`. -/
def int (z : ℤ) : ℤ := Int.bmod z (2 ^ 32)

/-- A `long`. -/
def long (z : ℤ) : ℤ := Int.bmod z (2 ^ 64)

def maxDims : ℕ := 1024

structure Mat where
  base : ℤ
  dims : List ℕ
  size : ℤ
  data : ℕ → ℤ

-- ---------------------------------------------------------------------------
-- Offsets and index vectors
-- ---------------------------------------------------------------------------

/-- The loop of `matrix_get_offset`, which stops at an index that is too great. -/
def offsetLoop (base : ℤ) : List ℕ → List ℕ → ℕ → ℕ → ℕ
  | d :: ds, i :: is, pos, off =>
    let pos := pos / d
    let v := int (i - base)
    if d ≤ v then off else offsetLoop base ds is pos (uint (off + pos * v))
  | _, _, _, off => off

def getOffset (mat : Mat) (indx : List ℕ) : ℕ := offsetLoop mat.base mat.dims indx (uint mat.size) 0

/-- The loop of `matrix_get_index`. -/
def indexLoop : List ℕ → ℕ → ℕ → List ℕ
  | [], _, _ => []
  | d :: ds, pos, offset => offset / (pos / d) :: indexLoop ds (pos / d) (offset % (pos / d))

def getIndex (mat : Mat) (offset : ℕ) : List ℕ := indexLoop mat.dims (uint mat.size) offset

/-- `matrix_access`. -/
def access (mat : Mat) (indx : List ℕ) : ℤ := mat.data (getOffset mat indx)

-- ---------------------------------------------------------------------------
-- New matrices
-- ---------------------------------------------------------------------------

/-- A matrix whose data is what the memory holds there. -/
def newIntMatrix (heap : ℕ → ℤ) (dims : List ℕ) : Mat := ⟨0, dims, int (dims.prod : ℕ), heap⟩

/-- `for (i = 0; i < size; i++) data[i] = f(i)`. -/
def fill (size : ℤ) (f data : ℕ → ℤ) (i : ℕ) : ℤ := if i < size then f i else data i

/-- `for (i = 0; i < mat[MAT_SIZE]; i++) data[target(i)] = f(data[target(i)], mat_data[i])`. -/
def scatter (mat : Mat) (target : ℕ → ℕ) (f : ℤ → ℤ → ℤ) (data : ℕ → ℤ) : ℕ → ℤ :=
  (List.range mat.size.toNat).foldl (fun data i =>
    Function.update data (target i) (f (data (target i)) (mat.data i))) data

section

variable (heap : ℕ → ℤ) (mat : Mat)

/-- The new dimensions are written over those that the new matrix has taken from the old one. -/
def transpose (conv : List ℕ) : Option Mat :=
  if conv.length < mat.dims.length then none
  else
    let conv := conv.take mat.dims.length
    let nmat := { newIntMatrix heap mat.dims with dims := gather conv mat.dims }
    some { nmat with
      data := scatter mat (fun i => getOffset nmat (gather conv (getIndex mat i))) (fun _ x => x) nmat.data }

/-- The loop that puts the chosen index between the others. -/
def selectLoop (prdim leftarg : ℕ) : ℕ → ℕ → List ℕ → List ℕ
  | _, k, [] => if k = prdim then [leftarg] else []
  | j, k, x :: xs =>
    if j = prdim then leftarg :: x :: selectLoop prdim leftarg (j + 1) (k + 2) xs
    else x :: selectLoop prdim leftarg (j + 1) (k + 1) xs

def select (prdim leftarg : ℕ) : Mat :=
  let nmat := newIntMatrix heap ((keepWhere (· ≠ prdim) 0 mat.dims).take (mat.dims.length - 1))
  { nmat with
    data := fill nmat.size (fun i => mat.data (getOffset mat (selectLoop prdim leftarg 0 0 (getIndex nmat i)))) nmat.data }

def column (conv : List ℕ) : Option Mat :=
  if conv.length ≠ mat.dims.length - 1 then none
  else
    let size := mat.dims.headD 0
    let nmat := newIntMatrix heap [size]
    some { nmat with data := fill size (fun i => mat.data (getOffset mat (i :: conv))) nmat.data }

/-- The dimensions of the expanded matrix: a zero stands for the next one of the old matrix. -/
def expandDims : List ℕ → List ℕ → List ℕ
  | 0 :: js, d :: ds => d :: expandDims js ds
  | 0 :: js, [] => 0 :: expandDims js []
  | (j + 1) :: js, ds => (j + 1) :: expandDims js ds
  | [], _ => []

def expand (conv : List ℕ) : Option Mat :=
  let conv := conv.take maxDims
  if conv.count 0 ≠ mat.dims.length then none
  else
    let nmat := newIntMatrix heap (expandDims conv mat.dims)
    some { nmat with
      data := fill nmat.size
        (fun i => mat.data (getOffset mat (keepWhere (conv.getD · 0 = 0) 0 (getIndex nmat i)))) nmat.data }

/-- The loops of `matrix_sum_out` and `matrix_sum_out_several`, which differ in the dimensions they keep and in what
they do with an element. -/
def sumOutLoop (dims : List ℕ) (kept : ℕ → Bool) (f : ℤ → ℤ → ℤ) : Mat :=
  let nmat := newIntMatrix heap dims
  { nmat with
    data := scatter mat (fun i => getOffset nmat (keepWhere kept 0 (getIndex mat i))) f
      (fill nmat.size (fun _ => 0) nmat.data) }

def sumOut (prdim : ℕ) : Mat :=
  sumOutLoop heap mat ((keepWhere (· ≠ prdim) 0 mat.dims).take (mat.dims.length - 1)) (· ≠ prdim) fun x y => long (x + y)

/-- The elements are added as logarithms: `logAdd x y` stands for `log(exp(x) + exp(y))` as a `long`. -/
def sumOutSeveral (logAdd : ℤ → ℤ → ℤ) (conv : List ℕ) : Option Mat :=
  if conv.length < mat.dims.length then none
  else some (sumOutLoop heap mat (keepWhere (conv.getD · 0 = 0) 0 mat.dims) (conv.getD · 0 = 0) logAdd)

end

-- ---------------------------------------------------------------------------
-- Offsets and index vectors
-- ---------------------------------------------------------------------------

/-- A matrix with positive dimensions that has its elements in memory. -/
structure Proper (mat : Mat) : Prop where
  base_eq : mat.base = 0
  pos : ∀ d ∈ mat.dims, 0 < d
  size_eq : mat.size = mat.dims.prod
  lt : mat.dims.prod < 2 ^ 31

theorem uint_natCast {n : ℕ} (h : n < 2 ^ 32) : uint n = n := by
  unfold uint
  omega

theorem int_natCast {n : ℕ} (h : n < 2 ^ 31) : int n = n := Int.bmod_eq_of_le (by omega) (by omega)

theorem offsetLoop_eq {dims idx : List ℕ} {off : ℕ} (h : Valid dims idx) (hoff : off + dims.prod ≤ 2 ^ 31) :
    offsetLoop 0 dims idx dims.prod off = off + rank dims idx := by
  induction h generalizing off with
  | nil => rfl
  | @cons i d is ds hlt hds ih =>
    have hpos : 0 < ds.prod := Nat.zero_lt_of_lt (rank_lt hds)
    have hdiv : (d :: ds).prod / d = ds.prod := by
      rw [List.prod_cons]
      exact Nat.mul_div_cancel_left _ (Nat.zero_lt_of_lt hlt)
    rw [List.prod_cons] at hoff
    have hle : d ≤ d * ds.prod := Nat.le_mul_of_pos_right d hpos
    have hnext : ds.prod * i + ds.prod ≤ d * ds.prod := by
      rw [← Nat.mul_succ, Nat.mul_comm d]
      exact Nat.mul_le_mul_left _ hlt
    rw [offsetLoop, hdiv, sub_zero, int_natCast (by omega)]
    rw [if_neg (by omega), ← Nat.cast_mul, ← Nat.cast_add, uint_natCast (by omega), ih (by omega), rank, Nat.mul_comm i,
      Nat.add_assoc]

theorem indexLoop_eq {dims : List ℕ} (hpos : ∀ d ∈ dims, 0 < d) (n : ℕ) : indexLoop dims dims.prod n = digits dims n := by
  induction dims generalizing n with
  | nil => rfl
  | cons d ds ih =>
    obtain ⟨hd, hds⟩ := List.forall_mem_cons.mp hpos
    rw [indexLoop, digits, List.prod_cons, Nat.mul_div_cancel_left _ hd, ih hds]

variable {mat : Mat} {dims idx : List ℕ} {heap : ℕ → ℤ}

theorem Proper.uint_size (h : Proper mat) : uint mat.size = mat.dims.prod := by
  have hlt := h.lt
  rw [h.size_eq, uint_natCast (by omega)]

theorem Proper.getOffset (h : Proper mat) (hidx : Valid mat.dims idx) : getOffset mat idx = rank mat.dims idx := by
  have hlt := h.lt
  rw [IntMatrix.getOffset, h.uint_size, h.base_eq, offsetLoop_eq hidx (by omega), Nat.zero_add]

theorem Proper.getIndex (h : Proper mat) (n : ℕ) : getIndex mat n = digits mat.dims n := by
  rw [IntMatrix.getIndex, h.uint_size, indexLoop_eq h.pos]

@[simp] theorem newIntMatrix_dims (heap : ℕ → ℤ) (dims : List ℕ) : (newIntMatrix heap dims).dims = dims := rfl

@[simp] theorem newIntMatrix_size (heap : ℕ → ℤ) (dims : List ℕ) : (newIntMatrix heap dims).size = int (dims.prod : ℕ) := by
  rw [newIntMatrix]

theorem proper_newIntMatrix (heap : ℕ → ℤ) (hpos : ∀ d ∈ dims, 0 < d) (hlt : dims.prod < 2 ^ 31) :
    Proper (newIntMatrix heap dims) where
  base_eq := rfl
  pos := hpos
  size_eq := by rw [newIntMatrix_size, newIntMatrix_dims, int_natCast hlt]
  lt := hlt

theorem Proper.data (h : Proper mat) (data : ℕ → ℤ) : Proper { mat with data := data } := ⟨h.base_eq, h.pos, h.size_eq, h.lt⟩

theorem getOffset_data (mat : Mat) (data : ℕ → ℤ) (idx : List ℕ) :
    getOffset { mat with data := data } idx = getOffset mat idx := rfl

/-- An element that is gathered. -/
theorem access_fill (h : Proper mat) (hidx : Valid mat.dims idx) (f : List ℕ → ℤ) :
    access { mat with data := fill mat.size (fun i => f (IntMatrix.getIndex mat i)) mat.data } idx = f idx := by
  have hlt := rank_lt hidx
  rw [access, getOffset_data, h.getOffset hidx]
  dsimp only
  rw [fill, h.size_eq, if_pos (by exact_mod_cast hlt), h.getIndex, digits_rank hidx]

/-- What is scattered to an offset. -/
theorem scatter_apply (h : Proper mat) (target : ℕ → ℕ) (f : ℤ → ℤ → ℤ) (data : ℕ → ℤ) (t : ℕ) :
    scatter mat target f data t =
      (((List.range mat.dims.prod).filter fun o => target o = t).map mat.data).foldl f (data t) := by
  rw [scatter, h.size_eq, Int.toNat_natCast]
  exact foldl_update target f mat.data _ data t

-- ---------------------------------------------------------------------------
-- Operations
-- ---------------------------------------------------------------------------

inductive Op where
  | index
  | transpose (conv : List ℕ)
  | select (prdim leftarg : ℕ)
  | column (conv : List ℕ)
  | expand (conv : List ℕ)
  | sumOut (prdim : ℕ)
  | sumOutSeveral (conv : List ℕ)

/-- The arguments that the operations are for. -/
def Op.Admissible (mat : Mat) : Op → Prop
  | index => True
  | transpose conv => conv.Perm (List.range mat.dims.length)
  | select prdim leftarg => prdim < mat.dims.length ∧ leftarg < mat.dims.getD prdim 0
  | column conv => mat.dims ≠ [] ∧ Valid mat.dims.tail conv
  | expand conv => conv.count 0 = mat.dims.length
  | sumOut prdim => prdim < mat.dims.length
  | sumOutSeveral conv => conv.length = mat.dims.length

/-- The elements whose index vectors agree with `idx` in the dimensions that are kept. -/
def slice (mat : Mat) (kept : ℕ → Bool) (idx : List ℕ) : List ℤ :=
  (((List.range mat.dims.prod).map (digits mat.dims)).filter fun idx' => keepWhere kept 0 idx' = idx).map (access mat)

def InMachineRange (z : ℤ) : Prop := -2 ^ 63 ≤ z ∧ z < 2 ^ 63

/-- A matrix of these dimensions with an element for each index vector. -/
def Shaped (mat : Mat) (dims : List ℕ) : Prop := mat.dims = dims ∧ mat.size = dims.prod

theorem Proper.shaped (h : Proper mat) (data : ℕ → ℤ) : Shaped { mat with data := data } mat.dims := ⟨rfl, h.size_eq⟩

/-- What the operations are for. -/
def Op.Correct (logAdd : ℤ → ℤ → ℤ) (heap : ℕ → ℤ) (mat : Mat) : Op → Prop
  | index =>
    (∀ idx, Valid mat.dims idx → getOffset mat idx < mat.dims.prod ∧ getIndex mat (getOffset mat idx) = idx) ∧
      ∀ off < mat.dims.prod, Valid mat.dims (getIndex mat off) ∧ getOffset mat (getIndex mat off) = off
  | transpose conv => ∃ r, IntMatrix.transpose heap mat conv = some r ∧ Shaped r (gather conv mat.dims) ∧
      ∀ idx, Valid mat.dims idx → access r (gather conv idx) = access mat idx
  | select prdim leftarg => Shaped (IntMatrix.select heap mat prdim leftarg) (mat.dims.eraseIdx prdim) ∧
      ∀ idx, Valid (mat.dims.eraseIdx prdim) idx →
        access (IntMatrix.select heap mat prdim leftarg) idx = access mat (idx.insertIdx prdim leftarg)
  | column conv => ∃ r, IntMatrix.column heap mat conv = some r ∧ Shaped r [mat.dims.headD 0] ∧
      ∀ i < mat.dims.headD 0, access r [i] = access mat (i :: conv)
  | expand conv => ∃ r, IntMatrix.expand heap mat conv = some r ∧ Shaped r (expandDims conv mat.dims) ∧
      ∀ idx, Valid (expandDims conv mat.dims) idx → access r idx = access mat (keepWhere (conv.getD · 0 = 0) 0 idx)
  | sumOut prdim => Shaped (IntMatrix.sumOut heap mat prdim) (mat.dims.eraseIdx prdim) ∧
      ∀ idx, Valid (mat.dims.eraseIdx prdim) idx → InMachineRange (slice mat (· ≠ prdim) idx).sum →
        access (IntMatrix.sumOut heap mat prdim) idx = (slice mat (· ≠ prdim) idx).sum
  | sumOutSeveral conv => ∃ r, IntMatrix.sumOutSeveral heap mat logAdd conv = some r ∧
      Shaped r (keepWhere (conv.getD · 0 = 0) 0 mat.dims) ∧
      ∀ idx, Valid (keepWhere (conv.getD · 0 = 0) 0 mat.dims) idx →
        InMachineRange (slice mat (conv.getD · 0 = 0) idx).sum → access r idx = (slice mat (conv.getD · 0 = 0) idx).sum

/-- The size of an expanded matrix is an `int`, and what is summed over several dimensions is the greatest element, or
zero where none is positive. -/
def Op.Holds (mat : Mat) : Op → Prop
  | expand conv => conv.length ≤ maxDims ∧ (expandDims conv mat.dims).prod < 2 ^ 31
  | sumOutSeveral conv => ∀ idx, Valid (keepWhere (conv.getD · 0 = 0) 0 mat.dims) idx →
      InMachineRange (slice mat (conv.getD · 0 = 0) idx).sum →
      (slice mat (conv.getD · 0 = 0) idx).foldl max 0 = (slice mat (conv.getD · 0 = 0) idx).sum
  | _ => True

/-- No exponential of an element is beyond the doubles. -/
def Op.Small (mat : Mat) : Op → Prop
  | sumOutSeveral _ => ∀ off < mat.dims.prod, mat.data off ≤ 709
  | _ => True

/-- `log(exp(x) + exp(y))` is not below the greater number and below the one after it, as long as `exp` is a double. -/
def LogAdd (logAdd : ℤ → ℤ → ℤ) : Prop := ∀ x y, 0 ≤ x → x ≤ 709 → y ≤ 709 → logAdd x y = max x y

-- ---------------------------------------------------------------------------
-- The bijection
-- ---------------------------------------------------------------------------

theorem correct_index (logAdd : ℤ → ℤ → ℤ) (heap : ℕ → ℤ) (h : Proper mat) : Op.Correct logAdd heap mat .index := by
  refine ⟨fun idx hidx => ?_, fun off hoff => ?_⟩
  · rw [h.getOffset hidx, h.getIndex, digits_rank hidx]
    exact ⟨rank_lt hidx, rfl⟩
  · have hvalid := digits_valid h.pos hoff
    rw [h.getIndex, h.getOffset hvalid, rank_digits h.pos hoff]
    exact ⟨hvalid, rfl⟩

-- ---------------------------------------------------------------------------
-- Gathered elements
-- ---------------------------------------------------------------------------

theorem selectLoop_after {prdim leftarg j k : ℕ} (hj : prdim < j) (hk : prdim < k) (l : List ℕ) :
    selectLoop prdim leftarg j k l = l := by
  induction l generalizing j k with
  | nil => rw [selectLoop, if_neg (by omega)]
  | cons x xs ih => rw [selectLoop, if_neg (by omega), ih (by omega) (by omega)]

/-- The chosen index is put in its place. -/
theorem selectLoop_eq {prdim leftarg j : ℕ} {l : List ℕ} (hj : j ≤ prdim) (hl : prdim ≤ j + l.length) :
    selectLoop prdim leftarg j j l = l.insertIdx (prdim - j) leftarg := by
  induction l generalizing j with
  | nil =>
    obtain rfl : j = prdim := le_antisymm hj hl
    rw [selectLoop, if_pos rfl, Nat.sub_self]
    rfl
  | cons x xs ih =>
    rw [selectLoop]
    rw [List.length_cons] at hl
    by_cases heq : j = prdim
    · subst heq
      rw [if_pos rfl, selectLoop_after (by omega) (by omega), Nat.sub_self, List.insertIdx_zero]
    · rw [if_neg heq, ih (by omega) (by omega), show prdim - j = prdim - (j + 1) + 1 by omega, List.insertIdx_succ_cons]

theorem dims_take {k : ℕ} (hk : k < dims.length) :
    (keepWhere (· ≠ k) 0 dims).take (dims.length - 1) = dims.eraseIdx k := by
  have herase := keepWhere_ne 0 k dims
  rw [Nat.zero_add] at herase
  rw [herase]
  exact List.take_of_length_le (by rw [List.length_eraseIdx_of_lt hk])

theorem prod_eraseIdx_le (hpos : ∀ d ∈ dims, 0 < d) (k : ℕ) : (dims.eraseIdx k).prod ≤ dims.prod := by
  have herase := keepWhere_ne 0 k dims
  rw [← herase]
  exact prod_keepWhere_le hpos _ 0

theorem proper_eraseIdx (h : Proper mat) (heap : ℕ → ℤ) (k : ℕ) : Proper (newIntMatrix heap (mat.dims.eraseIdx k)) :=
  proper_newIntMatrix heap (fun d hd => h.pos d (List.mem_of_mem_eraseIdx hd))
    ((prod_eraseIdx_le h.pos k).trans_lt h.lt)

theorem select_eq (heap : ℕ → ℤ) (leftarg : ℕ) {k : ℕ} (hk : k < mat.dims.length) :
    select heap mat k leftarg =
      let nmat := newIntMatrix heap (mat.dims.eraseIdx k)
      { nmat with
        data := fill nmat.size (fun i => mat.data (getOffset mat (selectLoop k leftarg 0 0 (getIndex nmat i)))) nmat.data } := by
  rw [select, dims_take hk]

theorem correct_select (logAdd : ℤ → ℤ → ℤ) (heap : ℕ → ℤ) (h : Proper mat) {prdim leftarg : ℕ}
    (hk : prdim < mat.dims.length) : Op.Correct logAdd heap mat (.select prdim leftarg) := by
  have hnew := proper_eraseIdx h heap prdim
  rw [Op.Correct, select_eq heap leftarg hk]
  refine ⟨hnew.shaped _, fun idx hidx => ?_⟩
  have hlen : prdim ≤ 0 + idx.length := by
    rw [hidx.length_eq, List.length_eraseIdx_of_lt hk]
    omega
  have hfill := access_fill hnew hidx fun is => mat.data (getOffset mat (selectLoop prdim leftarg 0 0 is))
  rw [selectLoop_eq (Nat.zero_le prdim) hlen, Nat.sub_zero] at hfill
  exact hfill

theorem correct_column (logAdd : ℤ → ℤ → ℤ) (heap : ℕ → ℤ) (h : Proper mat) {conv : List ℕ} (hdims : mat.dims ≠ [])
    (hconv : Valid mat.dims.tail conv) : Op.Correct logAdd heap mat (.column conv) := by
  obtain ⟨d, ds, heq⟩ := List.exists_cons_of_ne_nil hdims
  have hd : 0 < d := h.pos d (heq ▸ List.mem_cons_self)
  have hlt : [d].prod < 2 ^ 31 := by
    have hprod := h.lt
    have hds : 0 < ds.prod := List.prod_pos fun x hx => h.pos x (heq ▸ List.mem_cons_of_mem d hx)
    rw [heq, List.prod_cons] at hprod
    rw [List.prod_singleton]
    exact (Nat.le_mul_of_pos_right d hds).trans_lt hprod
  have hnew := @proper_newIntMatrix [d] heap (by simpa using hd) hlt
  have hlen : conv.length = mat.dims.length - 1 := by rw [hconv.length_eq, List.length_tail]
  have hhead : mat.dims.headD 0 = d := by rw [heq, List.headD_cons]
  rw [Op.Correct, IntMatrix.column, if_neg (not_not_intro hlen), hhead]
  refine ⟨_, rfl, hnew.shaped _, fun i hi => ?_⟩
  have hvalid : Valid [d] [i] := valid_cons.mpr ⟨hi, valid_nil⟩
  rw [access, getOffset_data, hnew.getOffset hvalid, newIntMatrix_dims, rank_singleton]
  exact if_pos (by exact_mod_cast hi)

theorem length_expandDims (js ds : List ℕ) : (expandDims js ds).length = js.length := by
  induction js, ds using expandDims.induct with
  | case1 js d ds ih => rw [expandDims, List.length_cons, List.length_cons, ih]
  | case2 js ih => rw [expandDims, List.length_cons, List.length_cons, ih]
  | case3 j js ds ih => rw [expandDims, List.length_cons, List.length_cons, ih]
  | case4 ds => rfl

theorem expandDims_pos {js ds : List ℕ} (hpos : ∀ d ∈ ds, 0 < d) (hcount : js.count 0 = ds.length) :
    ∀ d ∈ expandDims js ds, 0 < d := by
  induction js, ds using expandDims.induct with
  | case1 js d ds ih =>
    obtain ⟨hd, hds⟩ := List.forall_mem_cons.mp hpos
    rw [List.count_cons_self, List.length_cons] at hcount
    rw [expandDims]
    exact List.forall_mem_cons.mpr ⟨hd, ih hds (Nat.succ.inj hcount)⟩
  | case2 js ih =>
    rw [List.count_cons_self] at hcount
    cases hcount
  | case3 j js ds ih =>
    rw [List.count_cons_of_ne (Nat.succ_ne_zero j)] at hcount
    rw [expandDims]
    exact List.forall_mem_cons.mpr ⟨Nat.succ_pos j, ih hpos hcount⟩
  | case4 ds => simp [expandDims]

theorem int_lt (z : ℤ) : int z < 2 ^ 31 := by
  have hlt := Int.bmod_lt (x := z) (m := 2 ^ 32) (by norm_num)
  unfold int
  omega

/-- An expanded matrix has its elements where its size does not wrap around and its dimensions fit. -/
theorem correct_expand (logAdd : ℤ → ℤ → ℤ) (heap : ℕ → ℤ) (h : Proper mat) {conv : List ℕ}
    (hcount : conv.count 0 = mat.dims.length) :
    Op.Correct logAdd heap mat (.expand conv) ↔ Op.Holds mat (.expand conv) := by
  rw [Op.Correct, Op.Holds]
  constructor
  · rintro ⟨r, hr, ⟨hdims, hsize⟩, -⟩
    rw [IntMatrix.expand] at hr
    dsimp only at hr
    split_ifs at hr with htake
    · obtain rfl := Option.some.inj hr
      have hlen : conv.length ≤ maxDims := by
        have hlength := congrArg List.length hdims
        dsimp only at hlength
        rw [newIntMatrix_dims, length_expandDims, length_expandDims, List.length_take] at hlength
        omega
      refine ⟨hlen, ?_⟩
      dsimp only at hsize
      rw [newIntMatrix_size] at hsize
      have hlt := int_lt (expandDims (conv.take maxDims) mat.dims).prod
      rw [hsize] at hlt
      exact_mod_cast hlt
  · rintro ⟨hlen, hlt⟩
    have hnew := proper_newIntMatrix heap (expandDims_pos h.pos hcount) hlt
    rw [IntMatrix.expand, List.take_of_length_le hlen]
    dsimp only
    rw [if_neg (not_not_intro hcount)]
    exact ⟨_, rfl, hnew.shaped _, fun idx hidx =>
      access_fill hnew hidx fun is => mat.data (getOffset mat (keepWhere (conv.getD · 0 = 0) 0 is))⟩

-- ---------------------------------------------------------------------------
-- Scattered elements
-- ---------------------------------------------------------------------------

/-- Each element of the new matrix takes those whose index vectors are taken to its own. -/
theorem access_scatter {nmat : Mat} (hnew : Proper nmat) (h : Proper mat) (g : List ℕ → List ℕ)
    (hg : ∀ idx, Valid mat.dims idx → Valid nmat.dims (g idx)) (f : ℤ → ℤ → ℤ) (data : ℕ → ℤ)
    (hidx : Valid nmat.dims idx) :
    access { nmat with data := scatter mat (fun i => getOffset nmat (g (getIndex mat i))) f data } idx =
      (((List.range mat.dims.prod).filter fun off => g (digits mat.dims off) = idx).map mat.data).foldl f
        (data (rank nmat.dims idx)) := by
  rw [access, getOffset_data, hnew.getOffset hidx]
  dsimp only
  rw [scatter_apply h]
  congr 2
  refine List.filter_congr fun off hoff => ?_
  have hvalid := hg _ (digits_valid h.pos (List.mem_range.mp hoff))
  rw [h.getIndex, hnew.getOffset hvalid]
  exact decide_eq_decide.mpr ⟨rank_inj hvalid hidx, fun heq => heq ▸ rfl⟩

theorem correct_transpose (logAdd : ℤ → ℤ → ℤ) (heap : ℕ → ℤ) (h : Proper mat) {conv : List ℕ}
    (hperm : conv.Perm (List.range mat.dims.length)) : Op.Correct logAdd heap mat (.transpose conv) := by
  have hlen : conv.length = mat.dims.length := by rw [hperm.length_eq, List.length_range]
  have hconv : ∀ j ∈ conv, j < mat.dims.length := fun j hj => List.mem_range.mp (hperm.mem_iff.mp hj)
  have hdims := gather_perm hperm
  have hnew : Proper { newIntMatrix heap mat.dims with dims := gather conv mat.dims } := by
    refine ⟨rfl, fun d hd => h.pos d (hdims.mem_iff.mp hd), ?_, ?_⟩
    · dsimp only
      rw [hdims.prod_eq, newIntMatrix_size, int_natCast h.lt]
    · exact hdims.prod_eq.symm ▸ h.lt
  rw [Op.Correct, IntMatrix.transpose, if_neg (by omega), List.take_of_length_le hlen.le]
  refine ⟨_, rfl, ⟨rfl, ?_⟩, fun idx hidx => ?_⟩
  · dsimp only
    rw [newIntMatrix_size, int_natCast h.lt, hdims.prod_eq]
  · have hscatter := access_scatter hnew h (gather conv) (fun idx hidx => hidx.gather hconv) (fun _ x => x) heap
      (hidx.gather hconv)
    have hsource : ((List.range mat.dims.prod).filter fun off => gather conv (digits mat.dims off) = gather conv idx) =
        [rank mat.dims idx] := by
      have hcongr : ((List.range mat.dims.prod).filter fun off => gather conv (digits mat.dims off) = gather conv idx) =
          (List.range mat.dims.prod).filter (· == rank mat.dims idx) := by
        refine List.filter_congr fun off hoff => ?_
        rw [Bool.eq_iff_iff, decide_eq_true_iff, beq_iff_eq]
        have hvalid := digits_valid h.pos (List.mem_range.mp hoff)
        constructor
        · intro heq
          rw [← gather_inj (hvalid.length_eq ▸ hperm) (hidx.length_eq.trans hvalid.length_eq.symm) heq,
            rank_digits h.pos (List.mem_range.mp hoff)]
        · rintro rfl
          rw [digits_rank hidx]
      rw [hcongr, List.filter_beq, List.count_eq_one_of_mem List.nodup_range (List.mem_range.mpr (rank_lt hidx))]
      rfl
    rw [hsource] at hscatter
    have helem : access mat idx = mat.data (rank mat.dims idx) := by rw [access, h.getOffset hidx]
    exact hscatter.trans helem.symm

theorem access_slice (h : Proper mat) (kept : ℕ → Bool) (idx : List ℕ) :
    slice mat kept idx =
      ((List.range mat.dims.prod).filter fun off => keepWhere kept 0 (digits mat.dims off) = idx).map mat.data := by
  rw [slice, List.filter_map, List.map_map]
  refine List.map_congr_left fun off hoff => ?_
  have hlt := List.mem_range.mp (List.mem_filter.mp hoff).1
  rw [Function.comp_apply, access, h.getOffset (digits_valid h.pos hlt), rank_digits h.pos hlt]

/-- What is folded over a slice, from zero on. -/
theorem access_sumOutLoop (h : Proper mat) (heap : ℕ → ℤ) (kept : ℕ → Bool) (f : ℤ → ℤ → ℤ)
    (hidx : Valid (keepWhere kept 0 mat.dims) idx) :
    access (sumOutLoop heap mat (keepWhere kept 0 mat.dims) kept f) idx = (slice mat kept idx).foldl f 0 := by
  have hnew := proper_newIntMatrix heap (fun d hd => h.pos d ((keepWhere_sublist kept 0 mat.dims).subset hd))
    ((prod_keepWhere_le h.pos kept 0).trans_lt h.lt)
  have hdims := newIntMatrix_dims heap (keepWhere kept 0 mat.dims)
  rw [sumOutLoop, access_slice h]
  generalize newIntMatrix heap (keepWhere kept 0 mat.dims) = nmat at hnew hdims ⊢
  rw [← hdims] at hidx
  have hlt := rank_lt hidx
  have hzero : fill nmat.size (fun _ => 0) nmat.data (rank nmat.dims idx) = 0 := by
    rw [fill, hnew.size_eq, if_pos (by exact_mod_cast hlt)]
  have hscatter := access_scatter hnew h (keepWhere kept 0) (fun idx hidx => hdims ▸ hidx.keepWhere kept 0) f
    (fill nmat.size (fun _ => 0) nmat.data) hidx
  rwa [hzero] at hscatter

theorem foldl_long (l : List ℤ) (z : ℤ) : l.foldl (fun x y => long (x + y)) (long z) = long (z + l.sum) := by
  induction l generalizing z with
  | nil => rw [List.foldl_nil, List.sum_nil, add_zero]
  | cons x l ih =>
    have hlong : long (long z + x) = long (z + x) := Int.bmod_add_bmod
    rw [List.foldl_cons, hlong, ih, List.sum_cons, add_assoc]

theorem long_eq {z : ℤ} (h : InMachineRange z) : long z = z := Int.bmod_eq_of_le (by unfold InMachineRange at h; omega)
  (by unfold InMachineRange at h; omega)

theorem correct_sumOut (logAdd : ℤ → ℤ → ℤ) (heap : ℕ → ℤ) (h : Proper mat) {prdim : ℕ} (hk : prdim < mat.dims.length) :
    Op.Correct logAdd heap mat (.sumOut prdim) := by
  have herase := keepWhere_ne 0 prdim mat.dims
  rw [Nat.zero_add] at herase
  rw [Op.Correct, IntMatrix.sumOut, dims_take hk]
  refine ⟨(proper_eraseIdx h heap prdim).shaped _, fun idx hidx hrange => ?_⟩
  rw [← herase] at hidx ⊢
  rw [access_sumOutLoop h heap _ _ hidx]
  have hfold := foldl_long (slice mat (· ≠ prdim) idx) 0
  rw [zero_add, long_eq hrange] at hfold
  exact hfold

/-- Logarithms are added to the greatest number, or zero. -/
theorem foldl_logAdd {logAdd : ℤ → ℤ → ℤ} (hlog : LogAdd logAdd) {l : List ℤ} (hl : ∀ y ∈ l, y ≤ 709) {x : ℤ} (hx : 0 ≤ x)
    (hx' : x ≤ 709) : l.foldl logAdd x = l.foldl max x := by
  induction l generalizing x with
  | nil => rfl
  | cons y l ih =>
    obtain ⟨hy, hl⟩ := List.forall_mem_cons.mp hl
    rw [List.foldl_cons, List.foldl_cons, hlog x y hx hx' hy]
    exact ih hl (hx.trans (le_max_left x y)) (max_le hx' hy)

theorem correct_sumOutSeveral {logAdd : ℤ → ℤ → ℤ} (hlog : LogAdd logAdd) (heap : ℕ → ℤ) (h : Proper mat) {conv : List ℕ}
    (hlen : conv.length = mat.dims.length) (hsmall : Op.Small mat (.sumOutSeveral conv)) :
    Op.Correct logAdd heap mat (.sumOutSeveral conv) ↔ Op.Holds mat (.sumOutSeveral conv) := by
  have hnew := proper_newIntMatrix heap
    (fun d hd => h.pos d ((keepWhere_sublist (conv.getD · 0 = 0) 0 mat.dims).subset hd))
    ((prod_keepWhere_le h.pos (conv.getD · 0 = 0) 0).trans_lt h.lt)
  have haccess : ∀ idx, Valid (keepWhere (conv.getD · 0 = 0) 0 mat.dims) idx →
      access (sumOutLoop heap mat (keepWhere (conv.getD · 0 = 0) 0 mat.dims) (conv.getD · 0 = 0) logAdd) idx =
        (slice mat (conv.getD · 0 = 0) idx).foldl max 0 := by
    intro idx hidx
    rw [access_sumOutLoop h heap _ _ hidx]
    refine foldl_logAdd hlog (fun y hy => ?_) le_rfl (by norm_num)
    rw [access_slice h] at hy
    obtain ⟨off, hoff, rfl⟩ := List.mem_map.mp hy
    exact hsmall off (List.mem_range.mp (List.mem_filter.mp hoff).1)
  rw [Op.Correct, Op.Holds, IntMatrix.sumOutSeveral, if_neg (by omega)]
  constructor
  · rintro ⟨r, hr, -, hsum⟩ idx hidx hrange
    obtain rfl := Option.some.inj hr
    rw [← haccess idx hidx]
    exact hsum idx hidx hrange
  · intro hholds
    exact ⟨_, rfl, hnew.shaped _, fun idx hidx hrange => (haccess idx hidx).trans (hholds idx hidx hrange)⟩

-- ---------------------------------------------------------------------------
-- The operations
-- ---------------------------------------------------------------------------

/-- The operations do what they are for, where an expanded matrix has a size that an `int` holds and the greatest
element of what is summed over several dimensions, or zero, is the sum. -/
theorem correct_iff (logAdd : ℤ → ℤ → ℤ) (hlog : LogAdd logAdd) (heap : ℕ → ℤ) (mat : Mat) (h : Proper mat) (op : Op)
    (hop : op.Admissible mat) (hsmall : op.Small mat) : op.Correct logAdd heap mat ↔ op.Holds mat := by
  cases op with
  | index => exact iff_of_true (correct_index logAdd heap h) trivial
  | transpose conv => exact iff_of_true (correct_transpose logAdd heap h hop) trivial
  | select prdim leftarg => exact iff_of_true (correct_select logAdd heap h hop.1) trivial
  | column conv => exact iff_of_true (correct_column logAdd heap h hop.1 hop.2) trivial
  | expand conv => exact correct_expand logAdd heap h hop
  | sumOut prdim => exact iff_of_true (correct_sumOut logAdd heap h hop) trivial
  | sumOutSeveral conv => exact correct_sumOutSeveral hlog heap h hop hsmall

/-- The matrix of 1 and 2 over 3 and 4. -/
def square : Mat := ⟨0, [2, 2], 4, fun off => off + 1⟩

theorem proper_square : Proper square := ⟨rfl, by decide, rfl, by decide⟩

theorem correct_iff_square : (Op.sumOutSeveral [1, 1]).Correct max (fun _ => 0) square ↔
    (Op.sumOutSeveral [1, 1]).Holds square :=
  correct_iff max (fun _ _ _ _ _ => rfl) (fun _ => 0) square proper_square (.sumOutSeveral [1, 1]) rfl
    (by decide : ∀ off < 4, ((off : ℕ) : ℤ) + 1 ≤ 709)

/-- The sum over both dimensions is the greatest element, 4. -/
theorem not_correct_square : ¬ ∀ logAdd, LogAdd logAdd → ∀ heap mat, Proper mat → ∀ op : Op, op.Admissible mat →
    op.Correct logAdd heap mat := by
  intro hall
  obtain ⟨r, hr, -, hsum⟩ := hall max (fun _ _ _ _ _ => rfl) (fun _ => 0) square proper_square (.sumOutSeveral [1, 1]) rfl
  obtain rfl := Option.some.inj hr
  have hvalid : Valid (keepWhere ([1, 1].getD · 0 = 0) 0 square.dims) [] := valid_nil
  have hten : (slice square ([1, 1].getD · 0 = 0) []).sum = 10 := by decide +kernel
  have hten' := hsum [] hvalid (by rw [hten]; exact ⟨by norm_num, by norm_num⟩)
  rw [hten] at hten'
  have hfour : access (sumOutLoop (fun _ => 0) square (keepWhere ([1, 1].getD · 0 = 0) 0 square.dims)
      ([1, 1].getD · 0 = 0) max) [] = 4 := by decide +kernel
  rw [hfour] at hten'
  norm_num at hten'

end IntMatrix

end Yap
