-- SUMMARY: The beam of global variables: its two linked heaps in one block of cells, its operations and runs, and when it keeps the best elements.
import Yap.Globals.NbHeap

/-!
# The beam

The operations follow `nb_beam` and its relatives in `globals.c`. The cells of a
beam hold a heap of keys with the places of their entries in a second heap, and
behind it the second heap, of keys with their places in the first one and their
values. Keys and values are the copies that `CopyTermToArena` makes; the arena that
holds them is not modelled.

An addition finds the second heap from the cell `HEAP_SIZE`, tag and all, in place
of the number in `HEAP_MAX`.
-/

open BinaryHeap

namespace Yap

-- ---------------------------------------------------------------------------
-- Cells
-- ---------------------------------------------------------------------------

/-- `Global_MkIntegerTerm`, of a place in a heap. -/
def mkPlace (n : ℕ) : Term := mkIntTerm (BitVec.ofNat 64 n)

section

variable (junk : Term → ℕ)

/-- `IntegerOfTerm`, where `junk` says what it makes of terms that are no integers. -/
def placeOfTerm : Term → ℕ
  | .int n => (intOfTerm n).toNat
  | .blob _ (.longInt n) => n.val.toNat
  | t => junk t

/-- The largest number of type `size_t`. -/
def sizeMax : ℕ := 18446744073709551615

/-- `n - 1` for a number of type `size_t`. -/
def predSize (n : ℕ) : ℕ := if n = 0 then sizeMax else n - 1

/-- `n + 1` for a number of type `size_t`. -/
def succSize (n : ℕ) : ℕ := if n = sizeMax then 0 else n + 1

-- ---------------------------------------------------------------------------
-- Moving up
-- ---------------------------------------------------------------------------

/-- The first loop of `PushBeam`, and the last of `DelBeamMax`: the place where a key
    goes in the heap of smallest keys. The second heap is `b` cells from the first. -/
def upMin (b : ℕ) (key : Term) (off : ℕ) (m : ℕ → Term) : ℕ × (ℕ → Term) :=
  if _h : off = 0 then (off, m)
  else
    let noff := parent off
    if compareTerms key (m (2 * noff)) < 0 then
      let i2 := placeOfTerm junk (m (2 * noff + 1))
      let m₁ := Function.update m (2 * off) (m (2 * noff))
      let m₂ := Function.update m₁ (2 * off + 1) (m (2 * noff + 1))
      upMin b key noff (Function.update m₂ (b + 3 * i2 + 1) (mkPlace off))
    else (off, m)
termination_by off
decreasing_by exact parent_lt (Nat.pos_of_ne_zero _h)

/-- The second loop of `PushBeam`, and the last of `DelBeamMin`: the place where a key
    goes in the heap of largest keys. -/
def upMax (b : ℕ) (key : Term) (off2 : ℕ) (m : ℕ → Term) : ℕ × (ℕ → Term) :=
  if _h : off2 = 0 then (off2, m)
  else
    let noff := parent off2
    if compareTerms key (m (b + 3 * noff)) > 0 then
      let i1 := placeOfTerm junk (m (b + 3 * noff + 1))
      let m₁ := Function.update m (b + 3 * off2) (m (b + 3 * noff))
      let m₂ := Function.update m₁ (b + 3 * off2 + 1) (m (b + 3 * noff + 1))
      let m₃ := Function.update m₂ (b + 3 * off2 + 2) (m (b + 3 * noff + 2))
      upMax b key noff (Function.update m₃ (2 * i1 + 1) (mkPlace off2))
    else (off2, m)
termination_by off2
decreasing_by exact parent_lt (Nat.pos_of_ne_zero _h)

/-- `PushBeam`, with the second heap at `b`. -/
def pushBeam (m : ℕ → Term) (b hsize : ℕ) (key value : Term) : ℕ → Term :=
  let (off, m₁) := upMin junk b key hsize m
  let (off2, m₂) := upMax junk b key hsize m₁
  let m₃ := Function.update m₂ (2 * off) key
  let m₄ := Function.update m₃ (b + 3 * off2) key
  let m₅ := Function.update m₄ (2 * off + 1) (mkPlace off2)
  let m₆ := Function.update m₅ (b + 3 * off2 + 1) (mkPlace off)
  Function.update m₆ (b + 3 * off2 + 2) value

-- ---------------------------------------------------------------------------
-- Moving down
-- ---------------------------------------------------------------------------

/-- Moves an entry of the heap of smallest keys and tells its partner. -/
def moveMin (b i j : ℕ) (m : ℕ → Term) : ℕ → Term :=
  let off2 := placeOfTerm junk (m (2 * j + 1))
  let m₁ := Function.update m (2 * i) (m (2 * j))
  let m₂ := Function.update m₁ (2 * i + 1) (m (2 * j + 1))
  Function.update m₂ (b + 3 * off2 + 1) (mkPlace i)

/-- The first loop of `DelBeamMin`. -/
def downMin (b sz : ℕ) (tk : Term) (indx : ℕ) (m : ℕ → Term) : ℕ × (ℕ → Term) :=
  if sz < 2 * indx + 3 ∨ compareTerms (m (4 * indx + 2)) (m (4 * indx + 4)) < 0 then
    if sz < 2 * indx + 2 ∨ compareTerms tk (m (4 * indx + 2)) < 0 then (indx, m)
    else downMin b sz tk (2 * indx + 1) (moveMin junk b indx (2 * indx + 1) m)
  else if compareTerms tk (m (4 * indx + 4)) < 0 then (indx, m)
  else downMin b sz tk (2 * indx + 2) (moveMin junk b indx (2 * indx + 2) m)
termination_by sz - indx
decreasing_by all_goals omega

/-- Moves an entry of the heap of largest keys and tells its partner. -/
def moveMax (b i j : ℕ) (m : ℕ → Term) : ℕ → Term :=
  let off := placeOfTerm junk (m (b + 3 * j + 1))
  let m₁ := Function.update m (b + 3 * i) (m (b + 3 * j))
  let m₂ := Function.update m₁ (b + 3 * i + 1) (m (b + 3 * j + 1))
  let m₃ := Function.update m₂ (b + 3 * i + 2) (m (b + 3 * j + 2))
  Function.update m₃ (2 * off + 1) (mkPlace i)

/-- The first loop of `DelBeamMax`. -/
def downMax (b sz : ℕ) (tk : Term) (indx : ℕ) (m : ℕ → Term) : ℕ × (ℕ → Term) :=
  if sz < 2 * indx + 3 ∨ compareTerms (m (b + 6 * indx + 3)) (m (b + 6 * indx + 6)) > 0 then
    if sz < 2 * indx + 2 ∨ compareTerms tk (m (b + 6 * indx + 3)) > 0 then (indx, m)
    else downMax b sz tk (2 * indx + 1) (moveMax junk b indx (2 * indx + 1) m)
  else if compareTerms tk (m (b + 6 * indx + 6)) > 0 then (indx, m)
  else downMax b sz tk (2 * indx + 2) (moveMax junk b indx (2 * indx + 2) m)
termination_by sz - indx
decreasing_by all_goals omega

/-- `DelBeamMax`. -/
def delBeamMax (m : ℕ → Term) (b size : ℕ) : ℕ → Term :=
  let off := placeOfTerm junk (m (b + 1))
  let sz := predSize size
  let tk := m (b + 3 * sz)
  let ti := m (b + 3 * sz + 1)
  let tv := m (b + 3 * sz + 2)
  let (indx, m₁) := downMax junk b sz tk 0 m
  let m₂ := Function.update m₁ (2 * placeOfTerm junk ti + 1) (mkPlace indx)
  let m₃ := Function.update m₂ (b + 3 * indx) tk
  let m₄ := Function.update m₃ (b + 3 * indx + 1) ti
  let m₅ := Function.update m₄ (b + 3 * indx + 2) tv
  if off = sz then m₅
  else
    let key := m₅ (2 * sz)
    let toff2 := m₅ (2 * sz + 1)
    let off2 := placeOfTerm junk toff2
    let (off', m₆) := upMin junk b key off m₅
    let m₇ := Function.update m₆ (2 * off') key
    let m₈ := Function.update m₇ (b + 3 * off2 + 1) (mkPlace off')
    Function.update m₈ (2 * off' + 1) toff2

/-- `DelBeamMin`: the value of the entry with the smallest key, and the cells. -/
def delBeamMin (m : ℕ → Term) (b size : ℕ) : Term × (ℕ → Term) :=
  let off2 := placeOfTerm junk (m 1)
  let ov := m (b + 3 * off2 + 2)
  let sz := predSize size
  let tk := m (2 * sz)
  let tv := m (2 * sz + 1)
  let (indx, m₁) := downMin junk b sz tk 0 m
  let m₂ := Function.update m₁ (2 * indx) tk
  let m₃ := Function.update m₂ (2 * indx + 1) tv
  let m₄ := Function.update m₃ (b + 3 * placeOfTerm junk tv + 1) (mkPlace indx)
  if off2 = sz then (ov, m₄)
  else
    let key := m₄ (b + 3 * sz)
    let toff := m₄ (b + 3 * sz + 1)
    let value := m₄ (b + 3 * sz + 2)
    let off := placeOfTerm junk toff
    let (off2', m₅) := upMax junk b key off2 m₄
    let m₆ := Function.update m₅ (b + 3 * off2') key
    let m₇ := Function.update m₆ (2 * off + 1) (mkPlace off2')
    let m₈ := Function.update m₇ (b + 3 * off2' + 1) toff
    (ov, Function.update m₈ (b + 3 * off2' + 2) value)

end

-- ---------------------------------------------------------------------------
-- The beam
-- ---------------------------------------------------------------------------

/-- The numbers in `HEAP_SIZE` and `HEAP_MAX`, and the cells from `HEAP_START` on,
    those of the beam and what is behind them. -/
structure NbBeam where
  heapSize : ℕ
  heapMax : ℕ
  pt : ℕ → Term

/-- `nb_beam`, with other cells behind the beam. -/
def nbBeam (hsize : ℕ) (behind : ℕ → Term) : NbBeam :=
  ⟨0, hsize, fun i => if i < 5 * hsize + 1 then mkPlace 0 else behind i⟩

namespace NbBeam

/-- The first cell of the second heap. -/
def secondHeap (q : NbBeam) : ℕ := 2 * q.heapMax

/-- `pt + 2 * hmsize` in an addition, where `hmsize` is the cell `HEAP_SIZE`: the
    number of cells, from a number of bytes. -/
def pushedHeap (q : NbBeam) : ℕ := (8 * (2 * Tags.mkIntTerm (BitVec.ofNat 64 q.heapSize))).toNat / 8

variable (junk : Term → ℕ)

/-- `new_beam_entry`: the number of entries before the new one, and the cells. -/
def newBeamEntry (key : Term) (q : NbBeam) : ℕ × (ℕ → Term) :=
  if q.heapSize = q.heapMax ∧ compareTerms (q.pt (2 * q.heapMax)) key > 0 then
    (predSize q.heapSize, delBeamMax junk q.pt q.secondHeap q.heapMax)
  else (q.heapSize, q.pt)

/-- `p_nb_beam_add_to_beam`. -/
def add (key value : Term) (q : NbBeam) : NbBeam :=
  let (hsize, m) := q.newBeamEntry junk key
  { q with heapSize := succSize hsize, pt := pushBeam junk m q.pushedHeap hsize key value }

/-- `p_nb_beam_del`: the key and the value, and the beam without them. -/
def del (q : NbBeam) : Option (HeapEntry × NbBeam) :=
  if q.heapSize = 0 then none
  else
    let (tv, m) := delBeamMin junk q.pt q.secondHeap q.heapSize
    some ((q.pt 0, tv), { q with heapSize := q.heapSize - 1, pt := m })

/-- `p_nb_beam_peek`. -/
def peek (q : NbBeam) : Option HeapEntry :=
  if q.heapSize = 0 then none else some (q.pt 0, q.pt (q.secondHeap + 2))

/-- `p_nb_beam_check`. -/
def check (q : NbBeam) : Bool :=
  (List.range q.heapSize).all fun i =>
    i = 0 ||
      (compareTerms (q.pt (2 * parent i)) (q.pt (2 * i)) ≤ 0 &&
        placeOfTerm junk (q.pt (q.secondHeap + 3 * placeOfTerm junk (q.pt (2 * i + 1)) + 1)) = i &&
        compareTerms (q.pt (q.secondHeap + 3 * parent i)) (q.pt (q.secondHeap + 3 * i)) ≥ 0)

end NbBeam

-- ---------------------------------------------------------------------------
-- Runs
-- ---------------------------------------------------------------------------

/-- An entry with a greatest key in the standard order among some entries. -/
def Greatest (e : HeapEntry) (es : Multiset HeapEntry) : Prop :=
  e ∈ es ∧ ∀ e' ∈ es, (e'.1.standardOrder e.1).isLE

/-- The entries that a beam of `N` entries may hold after a run, the latest event
    first: an addition to a full beam drops an entry with a greatest key, and a
    removal takes an entry with a least key. -/
inductive KeepsBest (N : ℕ) : List HeapEvent → Multiset HeapEntry → Prop where
  | empty : KeepsBest N [] 0
  | added {run : List HeapEvent} {held : Multiset HeapEntry} (e : HeapEntry) :
      KeepsBest N run held → held.card < N → KeepsBest N (.added e :: run) (e ::ₘ held)
  | dropped {run : List HeapEvent} {held held' : Multiset HeapEntry} {e d : HeapEntry} :
      KeepsBest N run held → held.card = N → e ::ₘ held = d ::ₘ held' → Greatest d (e ::ₘ held) →
      KeepsBest N (.added e :: run) held'
  | removed {run : List HeapEvent} {held : Multiset HeapEntry} {e : HeapEntry} :
      KeepsBest N run (e ::ₘ held) → Least e (e ::ₘ held) → KeepsBest N (.removed e :: run) held

/-- The runs from a new beam whose additions meet a condition on the beam. The latest
    event is the first of the list. -/
inductive BeamRun (junk : Term → ℕ) (ok : NbBeam → Prop) (N : ℕ) : List HeapEvent → NbBeam → Prop where
  | create (behind : ℕ → Term) : BeamRun junk ok N [] (nbBeam N behind)
  | add {run : List HeapEvent} {q : NbBeam} (key value : Term) :
      BeamRun junk ok N run q → ok q → BeamRun junk ok N (.added (key, value) :: run) (q.add junk key value)
  | del {run : List HeapEvent} {q q' : NbBeam} {e : HeapEntry} :
      BeamRun junk ok N run q → q.del junk = some (e, q') → BeamRun junk ok N (.removed e :: run) q'

namespace NbBeam

variable (junk : Term → ℕ) (q : NbBeam)

/-- The entries of the first heap, with the values of their partners. -/
def minEntry (i : ℕ) : HeapEntry :=
  (q.pt (2 * i), q.pt (q.secondHeap + 3 * placeOfTerm junk (q.pt (2 * i + 1)) + 2))

/-- The entries of the second heap. -/
def maxEntry (j : ℕ) : HeapEntry := (q.pt (q.secondHeap + 3 * j), q.pt (q.secondHeap + 3 * j + 2))

/-- The places of the partners. -/
def minLink (i : ℕ) : ℕ := placeOfTerm junk (q.pt (2 * i + 1))
def maxLink (j : ℕ) : ℕ := placeOfTerm junk (q.pt (q.secondHeap + 3 * j + 1))

end NbBeam

/-- The two heaps of a beam hold the same entries, at most `N`, in the orders of
    heaps and with links that are inverse to each other, and a look shows what the
    next removal takes, an entry with a least key. -/
structure IsBeam (junk : Term → ℕ) (N : ℕ) (held : Multiset HeapEntry) (q : NbBeam) : Prop where
  bounded : held.card ≤ N
  minEntries : elements (q.minEntry junk) q.heapSize = held
  maxEntries : elements q.maxEntry q.heapSize = held
  minOrdered : Ordered KeyLe (q.minEntry junk) q.heapSize
  maxOrdered : Ordered (fun e e' => KeyLe e' e) q.maxEntry q.heapSize
  minLinks : ∀ i < q.heapSize, q.minLink junk i < q.heapSize ∧ q.maxLink junk (q.minLink junk i) = i
  maxLinks : ∀ j < q.heapSize, q.maxLink junk j < q.heapSize ∧ q.minLink junk (q.maxLink junk j) = j
  check : q.check junk
  peek : q.peek = (q.del junk).map Prod.fst
  least : ∀ e, q.peek = some e → Least e held

/-- Twice the word of the number of entries, tag and all, is the offset of the second
    heap. A new beam meets this only when it has room for one entry. -/
def NbBeam.Placed (q : NbBeam) : Prop := q.heapMax = 8 * q.heapSize + 1

instance (q : NbBeam) : Decidable q.Placed := inferInstanceAs (Decidable (_ = _))

-- ---------------------------------------------------------------------------
-- Beams with one entry
-- ---------------------------------------------------------------------------

variable {junk : Term → ℕ}

@[simp] theorem upMin_root (b : ℕ) (key : Term) (m : ℕ → Term) : upMin junk b key 0 m = (0, m) := by
  rw [upMin, dif_pos rfl]

@[simp] theorem upMax_root (b : ℕ) (key : Term) (m : ℕ → Term) : upMax junk b key 0 m = (0, m) := by
  rw [upMax, dif_pos rfl]

@[simp] theorem placeOfTerm_mkPlace_zero : placeOfTerm junk (mkPlace 0) = 0 := rfl

/-- A beam of one entry that holds it. -/
structure HoldsOne (e : HeapEntry) (q : NbBeam) : Prop where
  size : q.heapSize = 1
  max : q.heapMax = 1
  minKey : q.pt 0 = e.1
  minPlace : q.pt 1 = mkPlace 0
  maxKey : q.pt 2 = e.1
  maxPlace : q.pt 3 = mkPlace 0
  value : q.pt 4 = e.2

/-- The word of the number 0 is the offset for a beam of one entry. -/
theorem pushedHeap_of_empty {q : NbBeam} (hq : q.heapSize = 0) : q.pushedHeap = 2 := by
  rw [NbBeam.pushedHeap, hq]
  decide

variable (junk) in
theorem holdsOne_add {q : NbBeam} (h : q.Placed) (hq : q.heapSize = 0) (key value : Term) :
    HoldsOne (key, value) (q.add junk key value) := by
  have hmax : q.heapMax = 1 := by rw [NbBeam.Placed, hq] at h; exact h
  have hentry : q.newBeamEntry junk key = (0, q.pt) := by
    rw [NbBeam.newBeamEntry, if_neg (by omega), hq]
  have hadd : q.add junk key value = { q with heapSize := 1, pt := pushBeam junk q.pt 2 0 key value } := by
    rw [NbBeam.add, hentry, pushedHeap_of_empty hq]
    rfl
  rw [hadd]
  refine ⟨rfl, hmax, ?_, ?_, ?_, ?_, ?_⟩ <;> simp [pushBeam]

namespace HoldsOne

variable {q : NbBeam} {e : HeapEntry} (h : HoldsOne e q)
include h

theorem peek : q.peek = some e := by
  rw [NbBeam.peek, h.size, if_neg Nat.one_ne_zero, NbBeam.secondHeap, h.max, h.minKey, h.value]

variable (junk)

/-- The only entry is removed. -/
theorem del : ∃ m, q.del junk = some (e, ⟨0, 1, m⟩) := by
  have hdown : ∀ m tk, downMin junk 2 0 tk 0 m = (0, m) := by
    intro m tk
    rw [downMin, if_pos (.inl (by decide)), if_pos (.inl (by decide))]
  have hpred : predSize 1 = 0 := rfl
  have hvalue : (delBeamMin junk q.pt 2 1).1 = e.2 := by
    rw [delBeamMin]
    simp only [hpred, hdown, h.minPlace, placeOfTerm_mkPlace_zero, if_true]
    exact h.value
  have hdel : delBeamMin junk q.pt 2 1 = (e.2, (delBeamMin junk q.pt 2 1).2) := by
    rw [← hvalue]
  refine ⟨(delBeamMin junk q.pt 2 1).2, ?_⟩
  rw [NbBeam.del, h.size, if_neg Nat.one_ne_zero, NbBeam.secondHeap, h.max, hdel, h.minKey]

theorem isBeam : IsBeam junk 1 {e} q := by
  obtain ⟨m, hdel⟩ := h.del junk
  have hsecond : q.secondHeap = 2 := by rw [NbBeam.secondHeap, h.max]
  have hmin : q.minEntry junk 0 = e := by
    simp [NbBeam.minEntry, hsecond, h.minKey, h.minPlace, h.value]
  have hmax : q.maxEntry 0 = e := by simp [NbBeam.maxEntry, hsecond, h.maxKey, h.value]
  refine ⟨by simp, ?_, ?_, ?_, ?_, ?_, ?_, ?_, ?_, ?_⟩
  · rw [h.size, elements_succ, hmin]
    rfl
  · rw [h.size, elements_succ, hmax]
    rfl
  · intro i hi hi'
    rw [h.size] at hi'
    omega
  · intro i hi hi'
    rw [h.size] at hi'
    omega
  · intro i hi
    obtain rfl : i = 0 := by rw [h.size] at hi; omega
    simp [NbBeam.minLink, NbBeam.maxLink, hsecond, h.minPlace, h.maxPlace, h.size]
  · intro i hi
    obtain rfl : i = 0 := by rw [h.size] at hi; omega
    simp [NbBeam.minLink, NbBeam.maxLink, hsecond, h.minPlace, h.maxPlace, h.size]
  · simp [NbBeam.check, h.size]
  · rw [h.peek, hdel]
    rfl
  · rintro e' he'
    obtain rfl : e = e' := Option.some_inj.mp (h.peek.symm.trans he')
    refine ⟨Multiset.mem_singleton_self e, fun e' he' => ?_⟩
    rw [Multiset.mem_singleton.mp he']
    exact refl (r := KeyLe) e

end HoldsOne

/-- An empty beam. -/
theorem isBeam_empty {N : ℕ} {q : NbBeam} (hq : q.heapSize = 0) : IsBeam junk N 0 q where
  bounded := Nat.zero_le N
  minEntries := by rw [hq, elements_zero]
  maxEntries := by rw [hq, elements_zero]
  minOrdered := by rw [hq]; exact fun i _ hi => absurd hi (Nat.not_lt_zero i)
  maxOrdered := by rw [hq]; exact fun i _ hi => absurd hi (Nat.not_lt_zero i)
  minLinks := by rw [hq]; exact fun i hi => absurd hi (Nat.not_lt_zero i)
  maxLinks := by rw [hq]; exact fun i hi => absurd hi (Nat.not_lt_zero i)
  check := by rw [NbBeam.check, hq]; rfl
  peek := by rw [NbBeam.peek, NbBeam.del, if_pos hq, if_pos hq]; rfl
  least := by
    intro e he
    rw [NbBeam.peek, if_pos hq] at he
    cases he

/-- A run whose additions find the second heap: the beam is empty, or has room for
    one entry and holds it. -/
theorem BeamRun.cases {N : ℕ} {run : List HeapEvent} {q : NbBeam} (h : BeamRun junk NbBeam.Placed N run q) :
    q.heapMax = N ∧ (q.heapSize = 0 ∧ KeepsBest N run 0 ∨ N = 1 ∧ ∃ e, HoldsOne e q ∧ KeepsBest N run {e}) := by
  induction h with
  | create behind => exact ⟨rfl, .inl ⟨rfl, .empty⟩⟩
  | @add run q key value _ hplaced ih =>
      obtain ⟨hmax, ⟨hsize, hkeeps⟩ | ⟨-, e, hone, -⟩⟩ := ih
      · have hN : N = 1 := by rw [NbBeam.Placed, hsize, hmax] at hplaced; exact hplaced
        have hone := holdsOne_add junk hplaced hsize key value
        exact ⟨hone.max.trans hN.symm, .inr ⟨hN, _, hone, .added (key, value) hkeeps (by simp [hN])⟩⟩
      · rw [NbBeam.Placed, hone.size, hone.max] at hplaced
        omega
  | @del run q q' e _ hdel ih =>
      obtain ⟨hmax, ⟨hsize, -⟩ | ⟨hN, e', hone, hkeeps⟩⟩ := ih
      · rw [NbBeam.del, if_pos hsize] at hdel
        cases hdel
      · obtain ⟨m, hdel'⟩ := hone.del junk
        obtain ⟨rfl, rfl⟩ := Prod.mk.inj (Option.some_inj.mp (hdel'.symm.trans hdel))
        have hleast := (hone.isBeam junk).least e' hone.peek
        exact ⟨hN.symm, .inl ⟨rfl, .removed hkeeps hleast⟩⟩

/-- A beam of which every addition finds the second heap keeps the best elements. -/
theorem isBeam_of_placed {N : ℕ} {run : List HeapEvent} {q : NbBeam}
    (h : BeamRun junk NbBeam.Placed N run q) : ∃ held, KeepsBest N run held ∧ IsBeam junk N held q := by
  obtain ⟨-, ⟨hsize, hkeeps⟩ | ⟨rfl, e, hone, hkeeps⟩⟩ := h.cases
  · exact ⟨0, hkeeps, isBeam_empty hsize⟩
  · exact ⟨{e}, hkeeps, hone.isBeam junk⟩

/-- A beam of one entry takes an entry, gives it back, and takes another one. -/
theorem isBeam_of_placed_one : ∃ q held,
    BeamRun (fun _ => 0) NbBeam.Placed 1 [.added (.int 4, .int 40), .removed (.int 5, .int 50), .added (.int 5, .int 50)]
      q ∧ q.peek = some (.int 4, .int 40) ∧
    KeepsBest 1 [.added (.int 4, .int 40), .removed (.int 5, .int 50), .added (.int 5, .int 50)] held ∧
    IsBeam (fun _ => 0) 1 held q := by
  have hnew : NbBeam.Placed (nbBeam 1 fun _ => mkPlace 0) := by decide
  have hone := holdsOne_add (fun _ => 0) hnew rfl (.int 5) (.int 50)
  obtain ⟨m, hdel⟩ := hone.del fun _ => 0
  have hempty : NbBeam.Placed ⟨0, 1, m⟩ := by unfold NbBeam.Placed; rfl
  have hrun := (((BeamRun.create _).add (.int 5) (.int 50) hnew).del hdel).add (.int 4) (.int 40) hempty
  obtain ⟨held, hkeeps, hbeam⟩ := isBeam_of_placed hrun
  exact ⟨_, held, hrun, (holdsOne_add _ hempty rfl _ _).peek, hkeeps, hbeam⟩

/-- A beam with room for two entries loses the value of the first. -/
theorem not_isBeam : ¬ ∀ (junk : Term → ℕ) (N : ℕ) (run : List HeapEvent) (q : NbBeam),
    BeamRun junk (fun _ => True) N run q → ∃ held, KeepsBest N run held ∧ IsBeam junk N held q := by
  intro hall
  obtain ⟨held, hkeeps, hbeam⟩ := hall (fun _ => 0) 2 _ _
    (.add (.int 5) (.int 7) (.create fun _ => mkPlace 0) trivial)
  have hplace : (nbBeam 2 fun _ => mkPlace 0).pushedHeap = 2 := by decide
  have hpeek : ((nbBeam 2 fun _ => mkPlace 0).add (fun _ => 0) (.int 5) (.int 7)).peek =
      some (.int 5, mkPlace 0) := by
    rw [NbBeam.add, NbBeam.newBeamEntry, if_neg (by decide), hplace]
    simp [NbBeam.peek, NbBeam.secondHeap, pushBeam, nbBeam, succSize, sizeMax]
  have hmem := (hbeam.least _ hpeek).1
  cases hkeeps with
  | added _ hempty _ =>
      cases hempty
      exact absurd (Multiset.mem_singleton.mp hmem) (by decide)
  | dropped hempty hcard =>
      cases hempty
      cases hcard

end Yap
