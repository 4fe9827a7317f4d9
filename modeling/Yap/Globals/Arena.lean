-- SUMMARY: Arenas of global variables: the size in their header, creation, growth and requests for cells, and when the sizes stay right.
import Yap.Terms.Tags

/-!
# Arenas

An arena is a stretch of the global stack that looks like a big integer. The
functions follow `globals.c`. Addresses are counted in cells from `H0`, so a move of
the whole stack is not seen, and cells are what they are after the pointers into
moved cells have been adjusted. What `Yap_InsertInGlobal` grants is a parameter.
-/

namespace Yap

namespace Arenas

-- ---------------------------------------------------------------------------
-- The global stack
-- ---------------------------------------------------------------------------

/-- `HR`, `ASP`, the `cp_h` of the choice points, the newest first, and the cells. -/
structure GlobalStack where
  hr : ℕ
  asp : ℕ
  cpH : List ℕ
  mem : ℕ → Word

/-- What `Yap_InsertInGlobal` grants: a number of bytes, the place of `ASP` after it,
    and what the new cells hold. -/
structure Insertion where
  granted : ℕ
  asp : ℕ
  hole : ℕ → Word

/-- The number of new cells. -/
def Insertion.cells (s : Insertion) : ℕ := s.granted / 8

/-- `Yap_InsertInGlobal`: the cells from `pt` on move up. -/
def insertInGlobal (s : Insertion) (pt : ℕ) (g : GlobalStack) : GlobalStack where
  hr := g.hr + s.cells
  asp := s.asp
  cpH := g.cpH.map fun h => if pt ≤ h then h + s.cells else h
  mem a := if a < pt then g.mem a else if a < pt + s.cells then s.hole a else g.mem (a - s.cells)

/-- The request is met: whole cells, as many as asked for, below `ASP`. -/
structure Insertion.Serves (s : Insertion) (howmuch : ℕ) (g : GlobalStack) : Prop where
  whole : 8 ∣ s.granted
  enough : howmuch ≤ s.granted
  room : g.hr + s.cells ≤ s.asp

-- ---------------------------------------------------------------------------
-- Arenas
-- ---------------------------------------------------------------------------

def minArenaSize : ℕ := 1048

def functorBigInt : Word := 5 * 8

def emptyArena : Word := 0x10

/-- `arena2big_sz`: without the functor, the `MP_INT` and two cells. -/
def arena2bigSz (sz : Word) : Word := sz - (16 + 8 + 2 * 8) / 8

namespace GlobalStack

/-- `big2arena_sz`. The field `_mp_alloc` is an `int`, the lower half of its cell. -/
def big2arenaSz (g : GlobalStack) (base : ℕ) : Word :=
  (((g.mem (base + 2)).setWidth 32).signExtend 64 * 8 + 16 + 8 + 2 * 8) / 8

/-- `ArenaSz`. -/
def arenaSz (g : GlobalStack) (arena : ℕ) : ℕ := (g.big2arenaSz arena).toNat

/-- `ArenaLimit`. -/
def arenaLimit (g : GlobalStack) (arena : ℕ) : ℕ := arena + g.arenaSz arena

/-- `CreateNewArena`. The fields `_mp_alloc` and `_mp_size` share a cell. -/
def createNewArena (g : GlobalStack) (ptr size : ℕ) : GlobalStack :=
  let mpAlloc := (arena2bigSz (BitVec.ofNat 64 size)).setWidth 32
  let mem₁ := Function.update g.mem ptr functorBigInt
  let mem₂ := Function.update mem₁ (ptr + 1) emptyArena
  let mem₃ := Function.update mem₂ (ptr + 2) (mpAlloc.setWidth 64)
  { g with mem := Function.update mem₃ (ptr + size - 1) Tags.endSpecials }

end GlobalStack

/-- The number of cells that `GrowArena` adds or asks for. -/
def growSize (oldSize size : ℕ) : ℕ :=
  let size := if size ≠ 0 then size else if oldSize < 128 * 1024 then oldSize else oldSize + 128 * 1024
  if size < 4 * minArenaSize then 4 * minArenaSize else size

/-- The loop over the choice points in `GrowArena`. -/
def raiseTops (hr size : ℕ) : List ℕ → List ℕ
  | [] => []
  | h :: cpH => if h = hr then (h + size) :: raiseTops hr size cpH else h :: cpH

namespace GlobalStack

/-- `GrowArena`. -/
def growArena (g : GlobalStack) (arena size : ℕ) (s : Insertion) : Option GlobalStack :=
  let oldSize := g.arenaSz arena
  let size := growSize oldSize size
  let pt := g.arenaLimit arena
  if pt = g.hr then
    some ({ g with
      hr := g.hr + size
      cpH := raiseTops g.hr size g.cpH }.createNewArena arena (size + oldSize))
  else if s.granted / 8 = 0 then none
  else some ((insertInGlobal s pt g).createNewArena arena (s.granted / 8 + oldSize))

/-- `Yap_GetFromArena`: the address of the cells. What `Yap_InsertInGlobal` returns is
    added to the size, and differences of sizes have 64 bits. -/
def getFromArena (g : GlobalStack) (arena cells : ℕ) (s : Insertion) : Option (ℕ × GlobalStack) :=
  let max := g.arenaLimit arena
  let oldSz := g.arenaSz arena
  if arena + cells + minArenaSize > max then
    if s.granted = 0 then none
    else
      let newSize := BitVec.ofNat 64 (oldSz + s.granted) - BitVec.ofNat 64 cells
      some (arena, (insertInGlobal s max g).createNewArena (arena + cells) newSize.toNat)
  else
    let newSize := BitVec.ofNat 64 oldSz - BitVec.ofNat 64 cells
    some (arena, g.createNewArena (arena + cells) newSize.toNat)

end GlobalStack

-- ---------------------------------------------------------------------------
-- Right sizes
-- ---------------------------------------------------------------------------

/-- There are `n` cells for the arena, which has room for its header, and this is the
    size in it. No memory has `2 ^ 60` cells. -/
structure IsArena (g : GlobalStack) (arena n : ℕ) : Prop where
  recorded : g.arenaSz arena = n
  least : 4 ≤ n
  most : n < 2 ^ 60
  within : arena + n ≤ g.hr
  room : g.hr ≤ g.asp

/-- `k` new cells came in behind the `n` cells of the arena, and all other cells of the
    stack are as they were. -/
structure Keeps (g g' : GlobalStack) (arena n k : ℕ) : Prop where
  hr : g'.hr = g.hr + k
  below : ∀ a < arena, g'.mem a = g.mem a
  above : ∀ a, arena + n ≤ a → a < g.hr → g'.mem (a + k) = g.mem a

/-- A new arena has its size, and is written to in its own cells only. -/
def CreatedRight (g : GlobalStack) (ptr size : ℕ) : Prop :=
  IsArena (g.createNewArena ptr size) ptr size ∧ Keeps g (g.createNewArena ptr size) ptr size 0

/-- An arena of `n` cells that grows by `k` cells, at least those that were asked for, has
    `n + k` cells. -/
def GrownRight (g : GlobalStack) (arena n size : ℕ) (s : Insertion) : Prop :=
  ∃ g' k, g.growArena arena size s = some g' ∧ growSize n size ≤ k ∧ IsArena g' arena (n + k) ∧ Keeps g g' arena n k

/-- A request gets the first cells of the arena, and the others, with those that are
    new, make the arena that is left. -/
def GotRight (g : GlobalStack) (arena n cells : ℕ) (s : Insertion) : Prop :=
  ∃ g' k, g.getFromArena arena cells s = some (arena, g') ∧ cells ≤ n + k ∧
    IsArena g' (arena + cells) (n + k - cells) ∧ Keeps g g' arena n k

/-- The first size whose number of limbs is no `int`. -/
def arenaBound : ℕ := 2147483653

/-- An arena at the top of the stack grows up to `ASP`, and its size fits its header. -/
def GrowFits (g : GlobalStack) (arena n size : ℕ) (s : Insertion) : Prop :=
  if arena + n = g.hr then g.hr + growSize n size ≤ g.asp ∧ n + growSize n size < arenaBound
  else n + s.cells < arenaBound

instance (g : GlobalStack) (arena n size : ℕ) (s : Insertion) : Decidable (GrowFits g arena n size s) :=
  inferInstanceAs (Decidable (ite _ _ _))

-- ---------------------------------------------------------------------------
-- The header
-- ---------------------------------------------------------------------------

/-- The size that a number of limbs stands for. -/
theorem toNat_header (alloc : BitVec 32) :
    ((alloc.signExtend 64 * 8 + 16 + 8 + 2 * 8) / 8 : Word).toNat = ((alloc.toInt + 5) % 2305843009213693952).toNat := by
  have hsign : (alloc.signExtend 64).toNat = (alloc.toInt % 18446744073709551616).toNat := by
    rw [BitVec.signExtend, BitVec.toNat_ofInt]
    norm_num
  have hsum : (alloc.signExtend 64 * 8 + 16 + 8 + 2 * 8 : Word) = alloc.signExtend 64 * 8 + 40#64 := by
    rw [BitVec.add_assoc, BitVec.add_assoc]
    rfl
  have h8 : (8 : Word).toNat = 8 := rfl
  have h40 : (40#64).toNat = 40 := rfl
  rw [hsum, BitVec.toNat_udiv, BitVec.toNat_add, BitVec.toNat_mul, hsign, h8, h40]
  omega

/-- The number of limbs of a size, as an `int`. -/
theorem toInt_limbs (size : ℕ) :
    ∃ j : ℤ, ((arena2bigSz (BitVec.ofNat 64 size)).setWidth 32).toInt = size - 5 + 4294967296 * j := by
  have h5 : ((16 + 8 + 2 * 8) / 8 : Word).toNat = 5 := by decide
  have hsub : (arena2bigSz (BitVec.ofNat 64 size)).toNat =
      (18446744073709551616 - 5 + size % 18446744073709551616) % 18446744073709551616 := by
    rw [arena2bigSz, BitVec.toNat_sub, h5, BitVec.toNat_ofNat]
  have hmod : ((2 ^ 32 : ℕ) : ℤ) = 4294967296 := by norm_num
  have hj : ∀ v : ℤ, (v - (size - 5)) % 4294967296 = 0 → ∃ j : ℤ, v = size - 5 + 4294967296 * j := by
    intro v hv
    exact ⟨(v - (size - 5)) / 4294967296, by omega⟩
  rw [BitVec.toInt_setWidth, hsub, Int.bmod_def, hmod]
  apply hj
  split <;> omega

section

variable {g g' : GlobalStack} {arena ptr n size cells : ℕ} {s : Insertion}

/-- The size in the header of a new arena: it is right up to multiples of `2 ^ 32`. -/
theorem arenaSz_createNewArena (g : GlobalStack) (ptr : ℕ) (h : 4 ≤ size) :
    ∃ j : ℤ, -2147483643 ≤ size + 4294967296 * j ∧ size + 4294967296 * j < 2147483653 ∧
      (g.createNewArena ptr size).arenaSz ptr = ((size + 4294967296 * j) % 2305843009213693952).toNat := by
  obtain ⟨j, hj⟩ := toInt_limbs size
  have hlow := BitVec.le_toInt ((arena2bigSz (BitVec.ofNat 64 size)).setWidth 32)
  have hhigh := BitVec.toInt_lt (x := (arena2bigSz (BitVec.ofNat 64 size)).setWidth 32)
  have hcell : ((g.createNewArena ptr size).mem (ptr + 2)).setWidth 32 =
      (arena2bigSz (BitVec.ofNat 64 size)).setWidth 32 := by
    simp only [GlobalStack.createNewArena]
    rw [Function.update_of_ne (by omega), Function.update_self, BitVec.setWidth_setWidth_of_le _ (by decide),
      BitVec.setWidth_eq]
  rw [hj] at hlow hhigh
  norm_num at hlow hhigh
  refine ⟨j, by omega, by omega, ?_⟩
  rw [GlobalStack.arenaSz, GlobalStack.big2arenaSz, hcell, toNat_header, hj]
  congr 2
  ring

/-- The header holds the size when the number of limbs is an `int`. -/
theorem arenaSz_createNewArena_iff (h : 4 ≤ size) (hlt : size < 2 ^ 60) :
    (g.createNewArena ptr size).arenaSz ptr = size ↔ size < arenaBound := by
  obtain ⟨j, hlow, hhigh, hsz⟩ := arenaSz_createNewArena g ptr h
  rw [hsz, arenaBound]
  norm_num at hlt
  omega

theorem createNewArena_hr : (g.createNewArena ptr size).hr = g.hr := rfl

theorem insertInGlobal_hr {pt : ℕ} : (insertInGlobal s pt g).hr = g.hr + s.cells := rfl

theorem createNewArena_mem {a : ℕ} (h : 4 ≤ size) (ha : a < ptr ∨ ptr + size ≤ a) :
    (g.createNewArena ptr size).mem a = g.mem a := by
  simp only [GlobalStack.createNewArena]
  rw [Function.update_of_ne (by omega), Function.update_of_ne (by omega), Function.update_of_ne (by omega),
    Function.update_of_ne (by omega)]

/-- An arena within the stack is right when its size fits the header. -/
theorem isArena_createNewArena (h : 4 ≤ size) (hlt : size < arenaBound) (hwithin : ptr + size ≤ g.hr)
    (hroom : g.hr ≤ g.asp) : IsArena (g.createNewArena ptr size) ptr size := by
  have hmost : size < 2 ^ 60 := hlt.trans (by decide)
  exact ⟨(arenaSz_createNewArena_iff h hmost).mpr hlt, h, hmost, hwithin, hroom⟩

theorem IsArena.lt_arenaBound (h : IsArena (g.createNewArena ptr size) ptr size) : size < arenaBound :=
  (arenaSz_createNewArena_iff h.least h.most).mp h.recorded

theorem createdRight_iff (hwithin : ptr + size ≤ g.hr) (hroom : g.hr ≤ g.asp) :
    CreatedRight g ptr size ↔ 4 ≤ size ∧ size < arenaBound := by
  constructor
  · rintro ⟨harena, -⟩
    exact ⟨harena.least, harena.lt_arenaBound⟩
  · rintro ⟨h, hlt⟩
    refine ⟨isArena_createNewArena h hlt hwithin hroom, rfl, fun a ha => ?_, fun a ha _ => ?_⟩
    · exact createNewArena_mem h (.inl ha)
    · exact createNewArena_mem h (.inr ha)

-- ---------------------------------------------------------------------------
-- Growth
-- ---------------------------------------------------------------------------

theorem le_growSize (n size : ℕ) : 4 * minArenaSize ≤ growSize n size := by
  unfold growSize
  dsimp only
  generalize ite (size ≠ 0) _ _ = m
  split <;> omega

theorem insertInGlobal_below {pt a : ℕ} (ha : a < pt) : (insertInGlobal s pt g).mem a = g.mem a := if_pos ha

theorem insertInGlobal_above {pt a : ℕ} (ha : pt ≤ a) : (insertInGlobal s pt g).mem (a + s.cells) = g.mem a := by
  rw [insertInGlobal]
  dsimp only
  rw [if_neg (by omega), if_neg (by omega), Nat.add_sub_cancel]

theorem growArena_top (size : ℕ) (s : Insertion) (h : IsArena g arena n) (htop : arena + n = g.hr) :
    g.growArena arena size s = some ({ g with
      hr := g.hr + growSize n size
      cpH := raiseTops g.hr (growSize n size) g.cpH }.createNewArena arena (n + growSize n size)) := by
  simp only [GlobalStack.growArena, GlobalStack.arenaLimit, h.recorded]
  rw [if_pos htop, Nat.add_comm n]

theorem growArena_middle (size : ℕ) (h : IsArena g arena n) (hmiddle : arena + n ≠ g.hr) (hs : s.cells ≠ 0) :
    g.growArena arena size s = some ((insertInGlobal s (arena + n) g).createNewArena arena (n + s.cells)) := by
  simp only [GlobalStack.growArena, GlobalStack.arenaLimit, h.recorded]
  have hgranted : s.granted / 8 ≠ 0 := hs
  rw [if_neg hmiddle, if_neg hgranted, Nat.add_comm n]
  rfl

/-- New cells behind an arena, when they become part of it. -/
theorem keeps_insertInGlobal (hsize : 4 ≤ size) (hptr : arena ≤ ptr) (hend : ptr + size ≤ arena + n + s.cells) :
    Keeps g ((insertInGlobal s (arena + n) g).createNewArena ptr size) arena n s.cells := by
  refine ⟨rfl, fun a ha => ?_, fun a ha _ => ?_⟩
  · rw [createNewArena_mem hsize (.inl (by omega)), insertInGlobal_below (by omega)]
  · rw [createNewArena_mem hsize (.inr (by omega)), insertInGlobal_above ha]

theorem grownRight_iff (h : IsArena g arena n) (hs : s.Serves (8 * growSize n size) g) :
    GrownRight g arena n size s ↔ GrowFits g arena n size s := by
  have hmin := le_growSize n size
  have hleast := h.least
  unfold minArenaSize at hmin
  unfold GrowFits
  split
  case isTrue htop =>
    have hgrow := growArena_top size s h htop
    constructor
    · rintro ⟨g', k, hsome, -, harena, hkeeps⟩
      obtain rfl := Option.some.inj (hgrow.symm.trans hsome)
      obtain rfl : growSize n size = k := Nat.add_left_cancel hkeeps.hr
      exact ⟨harena.room, harena.lt_arenaBound⟩
    · rintro ⟨hroom, hlt⟩
      refine ⟨_, growSize n size, hgrow, le_rfl, ?_, rfl, fun a ha => ?_, fun a ha ha' => ?_⟩
      · exact isArena_createNewArena (by omega) hlt (by show arena + _ ≤ g.hr + _; omega) hroom
      · exact createNewArena_mem (by omega) (.inl ha)
      · omega
  case isFalse hmiddle =>
    have hcells : growSize n size ≤ s.cells := by
      unfold Insertion.cells
      have := hs.enough
      omega
    have hgrow := growArena_middle size h hmiddle (s := s) (by omega)
    constructor
    · rintro ⟨g', k, hsome, -, harena, hkeeps⟩
      obtain rfl := Option.some.inj (hgrow.symm.trans hsome)
      obtain rfl : s.cells = k := Nat.add_left_cancel hkeeps.hr
      exact harena.lt_arenaBound
    · intro hlt
      have hwithin := h.within
      refine ⟨_, s.cells, hgrow, hcells, ?_, keeps_insertInGlobal (by omega) le_rfl (by omega)⟩
      exact isArena_createNewArena (by omega) hlt (by show arena + _ ≤ g.hr + _; omega) hs.room

-- ---------------------------------------------------------------------------
-- Requests
-- ---------------------------------------------------------------------------

/-- The number of bytes that a request asks for when the arena is too small. -/
def requested : ℕ := minArenaSize * 8 * 2 * 8

theorem toNat_sub_ofNat {a b : ℕ} (hba : b ≤ a) (ha : a < 2 ^ 64) :
    (BitVec.ofNat 64 a - BitVec.ofNat 64 b : Word).toNat = a - b := by
  rw [BitVec.toNat_sub, BitVec.toNat_ofNat, BitVec.toNat_ofNat]
  norm_num at ha ⊢
  omega

theorem IsArena.size_lt (h : IsArena g arena n) : n < arenaBound := by
  have hmost := h.most
  have hlow := BitVec.le_toInt ((g.mem (arena + 2)).setWidth 32)
  have hhigh := BitVec.toInt_lt (x := (g.mem (arena + 2)).setWidth 32)
  have hpow : (2 : ℤ) ^ (32 - 1) = 2147483648 := by norm_num
  have hrecorded := h.recorded
  rw [GlobalStack.arenaSz, GlobalStack.big2arenaSz, toNat_header] at hrecorded
  rw [hpow] at hlow hhigh
  unfold arenaBound
  norm_num at hmost
  omega

/-- A request that leaves enough of the arena takes its first cells. -/
theorem gotRight_of_fits (h : IsArena g arena n) (hfits : cells + minArenaSize ≤ n) : GotRight g arena n cells s := by
  have hmost := h.most
  have hwithin := h.within
  have hbound := h.size_lt
  unfold minArenaSize at hfits
  have hnew : (BitVec.ofNat 64 n - BitVec.ofNat 64 cells : Word).toNat = n - cells :=
    toNat_sub_ofNat (by omega) (hmost.trans (by decide))
  have hget : g.getFromArena arena cells s = some (arena, g.createNewArena (arena + cells) (n - cells)) := by
    simp only [GlobalStack.getFromArena, GlobalStack.arenaLimit, h.recorded, hnew]
    exact if_neg (by unfold minArenaSize; omega)
  refine ⟨_, 0, hget, by omega, ?_, rfl, fun a ha => ?_, fun a ha _ => ?_⟩
  · exact isArena_createNewArena (by omega) (by omega) (by omega) h.room
  · exact createNewArena_mem (by omega) (.inl (by omega))
  · exact createNewArena_mem (by omega) (.inr (by omega))

theorem Insertion.Serves.granted_eq {howmuch : ℕ} (hs : s.Serves howmuch g) : s.granted = 8 * s.cells := by
  have hwhole := hs.whole
  unfold Insertion.cells
  omega

theorem getFromArena_slow (h : IsArena g arena n) (hslow : n < cells + minArenaSize) (hs : s.granted ≠ 0) :
    g.getFromArena arena cells s = some (arena, (insertInGlobal s (arena + n) g).createNewArena (arena + cells)
      (BitVec.ofNat 64 (n + s.granted) - BitVec.ofNat 64 cells).toNat) := by
  have hmax : arena + cells + minArenaSize > arena + n := by omega
  simp only [GlobalStack.getFromArena, GlobalStack.arenaLimit, h.recorded]
  rw [if_pos hmax, if_neg hs]

/-- No size that counts eight bytes for each of `k` new cells is right in the header. -/
theorem size_ne_of_bytes {r k : ℕ} {j : ℤ} (hr : r < 1152921508901814272) (hk : 0 < k) (hk' : k < 4294967296)
    (hlow : -2147483643 ≤ (r + 7 * k : ℕ) + 4294967296 * j) (hhigh : (r + 7 * k : ℕ) + 4294967296 * j < 2147483653) :
    r ≠ (((r + 7 * k : ℕ) + 4294967296 * j) % 2305843009213693952).toNat := by
  intro heq
  generalize hv : ((r + 7 * k : ℕ) : ℤ) + 4294967296 * j = v at *
  rcases lt_or_ge v 0 with hneg | hpos
  · have hlarge : (1152921508901814272 : ℤ) ≤ v + 2305843009213693952 := by linarith
    rw [← Int.add_emod_right, Int.emod_eq_of_lt (by linarith) (by linarith)] at heq
    have htoNat := Int.toNat_of_nonneg (show (0 : ℤ) ≤ v + 2305843009213693952 by linarith)
    rw [← heq] at htoNat
    exact absurd (Int.ofNat_le.mp (htoNat ▸ hlarge)) (not_le.mpr hr)
  · rw [Int.emod_eq_of_lt hpos (by omega)] at heq
    have hdvd : (4294967296 : ℤ) ∣ 7 * k := ⟨-j, by push_cast at hv; omega⟩
    have hdvd' : 4294967296 ∣ k := by
      have hcop : Nat.Coprime 4294967296 7 := by norm_num
      exact hcop.dvd_of_dvd_mul_left (by exact_mod_cast hdvd)
    exact absurd (Nat.le_of_dvd hk hdvd') (not_le.mpr hk')

/-- Any other request leaves an arena whose size counts new bytes as cells. -/
theorem not_gotRight (h : IsArena g arena n) (hslow : n < cells + minArenaSize) (hs : s.Serves requested g)
    (hmodest : s.cells < 4294967296) : ¬ GotRight g arena n cells s := by
  rintro ⟨g', k, hsome, hle, harena, hkeeps⟩
  have hmost := h.most
  have hcells := hs.granted_eq
  have henough : 134144 ≤ s.granted := hs.enough
  norm_num at hmost
  rw [getFromArena_slow h hslow (by omega)] at hsome
  have hg' := (Prod.mk.inj (Option.some.inj hsome)).2
  have hk : s.cells = k := by
    have hhr := hkeeps.hr
    rw [← hg', createNewArena_hr, insertInGlobal_hr] at hhr
    omega
  have hleast := harena.least
  have hrecorded := harena.recorded
  have hsize : n + s.granted - cells = n + k - cells + 7 * k := by omega
  rw [← hg', toNat_sub_ofNat (by omega) (by norm_num; omega), hsize] at hrecorded
  have hnew : 4 ≤ n + k - cells + 7 * k := by omega
  have hr : n + k - cells < 1152921508901814272 := by omega
  have hkpos : 0 < k := by omega
  obtain ⟨j, hlow, hhigh, hsz⟩ := arenaSz_createNewArena (insertInGlobal s (arena + n) g) (arena + cells) hnew
  exact size_ne_of_bytes hr hkpos (hk ▸ hmodest) hlow hhigh (hrecorded.symm.trans hsz)

theorem gotRight_iff (h : IsArena g arena n) :
    (∀ s : Insertion, s.Serves requested g → GotRight g arena n cells s) ↔ cells + minArenaSize ≤ n := by
  constructor
  · intro hall
    by_contra hslow
    have hserves : (⟨requested, g.hr + requested / 8, fun _ => 0⟩ : Insertion).Serves requested g :=
      ⟨by show 8 ∣ requested; decide, le_rfl, le_rfl⟩
    exact not_gotRight h (by omega) hserves (by show requested / 8 < _; decide) (hall _ hserves)
  · exact fun hfits s _ => gotRight_of_fits h hfits

end

-- ---------------------------------------------------------------------------
-- When the sizes stay right
-- ---------------------------------------------------------------------------

/-- A stack with an arena of 1049 cells at its bottom. -/
def smallArena : GlobalStack :=
  GlobalStack.createNewArena ⟨1049, 1000000, [], fun _ => 0⟩ 0 1049

theorem isArena_smallArena : IsArena smallArena 0 1049 :=
  isArena_createNewArena (by decide) (by decide) le_rfl (by decide)

end Arenas

end Yap
