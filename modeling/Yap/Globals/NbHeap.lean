-- SUMMARY: The non-backtrackable heap of global variables: its operations, the runs of additions and removals, and when removals take a least key.
import Yap.Base.BinaryHeap
import Yap.Compare.Standard
import Yap.Parse.Tokens

/-!
# The non-backtrackable heap

The operations follow `nb_heap` and its relatives in `globals.c`. Keys and values
are the copies that `CopyTermToArena` makes; the arena that holds them is not
modelled. `PushHeap`, which would move a new entry up to its place, is commented
out in the source: an addition leaves the new entry behind the others.
-/

open BinaryHeap

namespace Yap

-- ---------------------------------------------------------------------------
-- The heap
-- ---------------------------------------------------------------------------

/-- A key and a value, two neighbouring cells. -/
abbrev HeapEntry : Type := Term × Term

/-- The cells of a heap term: `HEAP_SIZE`, `HEAP_MAX`, and the entries from
    `HEAP_START` on. There is room for `HEAP_MAX` entries. -/
structure NbHeap where
  qd : Addr
  heapSize : ℕ
  heapMax : ℕ
  pt : ℕ → HeapEntry

def heapStart : ℕ := 3

/-- `nb_heap`, for a heap that gets its cells at `qd`. -/
def nbHeap (qd : Addr) (hsize : ℕ) : NbHeap := ⟨qd, 0, hsize, fun _ => (.int 0, .int 0)⟩

/-- The test of `DelHeapRoot` on two keys. -/
def keyLt (e e' : HeapEntry) : Bool := compareTerms e.1 e'.1 < 0

/-- `DelHeapRoot`: the last entry goes to the root and is sifted down. -/
def delHeapRoot (pt : ℕ → HeapEntry) (sz : ℕ) : ℕ → HeapEntry :=
  let last := sz - 1
  siftDown keyLt last (pt last) (Function.update pt last (termNil, termNil)) 0

namespace NbHeap

/-- The number of entries that `new_heap_entry` asks room for. -/
def extraSize (hmsize : ℕ) : ℕ := if hmsize ≤ 64 * 1024 then 64 * 1024 else hmsize

/-- `new_heap_entry`, where `Yap_InsertInGlobal` makes room for `granted` entries.
    The difference `hmsize - 1` is one of `size_t`, and no size when `hmsize` is 0. -/
def newHeapEntry (granted : ℕ) (q : NbHeap) : NbHeap :=
  if q.heapSize + 1 = q.heapMax then
    { q with
      heapMax := q.heapMax + granted
      pt := fun i =>
        if q.heapMax ≤ i ∧ i < q.heapMax + granted then
          (.var (q.qd + heapStart + 2 * i), .var (q.qd + heapStart + 2 * i + 1))
        else q.pt i }
  else q

/-- Writes an entry behind the others and counts it. -/
def put (q : NbHeap) (e : HeapEntry) : NbHeap where
  qd := q.qd
  heapSize := q.heapSize + 1
  heapMax := q.heapMax
  pt := Function.update q.pt q.heapSize e

/-- `p_nb_heap_add_to_heap`, unless it writes behind the cells of the heap. -/
def add (granted : ℕ) (key value : Term) (q : NbHeap) : Option NbHeap :=
  let q' := q.newHeapEntry granted
  if q'.heapSize < q'.heapMax then some (q'.put (key, value)) else none

/-- `p_nb_heap_del`: the entry at the root and the heap without it. -/
def del (q : NbHeap) : Option (HeapEntry × NbHeap) :=
  if q.heapSize = 0 then none
  else some (q.pt 0, { q with heapSize := q.heapSize - 1, pt := delHeapRoot q.pt q.heapSize })

/-- `p_nb_heap_peek`. -/
def peek (q : NbHeap) : Option HeapEntry := if q.heapSize = 0 then none else some (q.pt 0)

/-- The entries in the heap. -/
def held (q : NbHeap) : Multiset HeapEntry := elements q.pt q.heapSize

end NbHeap

-- ---------------------------------------------------------------------------
-- Runs
-- ---------------------------------------------------------------------------

/-- What an operation did. -/
inductive HeapEvent where
  | added (e : HeapEntry)
  | removed (e : HeapEntry)

def HeapEvent.added? : HeapEvent → Option HeapEntry
  | .added e => some e
  | .removed _ => none

def HeapEvent.removed? : HeapEvent → Option HeapEntry
  | .added _ => none
  | .removed e => some e

/-- The entries added in a run. -/
def addedIn (run : List HeapEvent) : Multiset HeapEntry := run.filterMap HeapEvent.added?

/-- The entries removed in a run. -/
def removedIn (run : List HeapEvent) : Multiset HeapEntry := run.filterMap HeapEvent.removed?

/-- The runs from an empty heap whose additions meet a condition on the heap and
    the key. The latest event is the first of the list. -/
inductive HeapRun (ok : NbHeap → Term → Prop) (hsize : ℕ) : List HeapEvent → NbHeap → Prop where
  | create (qd : Addr) : HeapRun ok hsize [] (nbHeap qd hsize)
  | add {run : List HeapEvent} {q q' : NbHeap} {granted : ℕ} {key value : Term} :
      HeapRun ok hsize run q → NbHeap.extraSize q.heapMax ≤ granted → ok q key →
      q.add granted key value = some q' → HeapRun ok hsize (.added (key, value) :: run) q'
  | del {run : List HeapEvent} {q q' : NbHeap} {e : HeapEntry} :
      HeapRun ok hsize run q → q.del = some (e, q') → HeapRun ok hsize (.removed e :: run) q'

/-- An entry with a least key in the standard order among some entries. -/
def Least (e : HeapEntry) (es : Multiset HeapEntry) : Prop :=
  e ∈ es ∧ ∀ e' ∈ es, (e.1.standardOrder e'.1).isLE

/-- The heap that a run leads to is a priority queue of what was added and not yet
    removed: additions succeed, a removal or a look takes an entry with a least key,
    and they fail only when nothing is left. -/
structure IsPriorityQueue (run : List HeapEvent) (q : NbHeap) : Prop where
  removed_le : removedIn run ≤ addedIn run
  add : ∀ granted key value, NbHeap.extraSize q.heapMax ≤ granted → (q.add granted key value).isSome
  del : ∀ e q', q.del = some (e, q') → Least e (addedIn run - removedIn run)
  peek : ∀ e, q.peek = some e → Least e (addedIn run - removedIn run)
  fails : (q.del = none ↔ addedIn run - removedIn run = 0) ∧ (q.peek = none ↔ q.del = none)

-- ---------------------------------------------------------------------------
-- The order of the keys
-- ---------------------------------------------------------------------------

/-- The comparison gives two keys their standard order. -/
def ComparedRight (k k' : Term) : Prop := signOf (compareTerms k k') = k.standardOrder k'

instance (k k' : Term) : Decidable (ComparedRight k k') := inferInstanceAs (Decidable (_ = _))

theorem comparedRight_self (k : Term) : ComparedRight k k := by
  have hzero : compareTerms k k = 0 := by
    rw [compareTerms, Term.compare, compareTop, if_pos rfl]
  rw [ComparedRight, hzero, signOf.zero]
  exact (Term.standardOrder_eq_iff.mpr rfl).symm

/-- The key of the one entry is not after the key of the other. -/
def KeyLe (e e' : HeapEntry) : Prop := (e.1.standardOrder e'.1).isLE = true

instance : Std.Refl KeyLe where
  refl e := by
    have heq : e.1.standardOrder e.1 = .eq := Term.standardOrder_eq_iff.mpr rfl
    rw [KeyLe, heq]
    rfl

instance : IsTrans HeapEntry KeyLe where
  trans _ _ _ h h' := Term.standardOrder_trans h h'

/-- On keys that are compared right the test decides the order. -/
theorem decides_keyLt {S : Set HeapEntry} (h : ∀ e ∈ S, ∀ e' ∈ S, ComparedRight e.1 e'.1) :
    Decides keyLt KeyLe S := by
  refine ⟨fun e he e' he' hlt => ?_, fun e he e' he' hlt => ?_⟩
  · have hsign : signOf (compareTerms e.1 e'.1) = .lt := signOf.eq_lt.mpr (of_decide_eq_true hlt)
    rw [KeyLe, ← h e he e' he', hsign]
    rfl
  · have hsign : signOf (compareTerms e.1 e'.1) ≠ .lt := fun heq =>
      of_decide_eq_false hlt (signOf.eq_lt.mp heq)
    rw [h e he e' he', Term.standardOrder_swap] at hsign
    rw [KeyLe, Ordering.isLE_iff_ne_gt]
    intro hgt
    exact hsign (by rw [hgt]; rfl)

-- ---------------------------------------------------------------------------
-- The invariant
-- ---------------------------------------------------------------------------

/-- The new key belongs behind the others: it is not before the key that
    `PushHeap` would compare it with, and it is compared right with every key. -/
structure BelongsLast (q : NbHeap) (key : Term) : Prop where
  behind : 0 < q.heapSize → ¬ compareTerms key (q.pt (parent q.heapSize)).1 < 0
  compared : ∀ e ∈ q.held, ComparedRight key e.1 ∧ ComparedRight e.1 key

/-- The entries are in the order of a heap, their keys are compared right, and
    there is room for one more. -/
structure HeapInv (q : NbHeap) : Prop where
  room : q.heapSize < q.heapMax
  ordered : Ordered KeyLe q.pt q.heapSize
  compared : ∀ e ∈ q.held, ∀ e' ∈ q.held, ComparedRight e.1 e'.1

namespace NbHeap

variable {q q' : NbHeap}

theorem newHeapEntry_heapSize (granted : ℕ) : (q.newHeapEntry granted).heapSize = q.heapSize := by
  unfold newHeapEntry
  split <;> rfl

theorem newHeapEntry_pt {granted i : ℕ} (hi : i < q.heapMax) : (q.newHeapEntry granted).pt i = q.pt i := by
  unfold newHeapEntry
  split
  · exact if_neg (by omega)
  · rfl

/-- After `new_heap_entry` there is room for the new entry and one more. -/
theorem newHeapEntry_room {granted : ℕ} (hroom : q.heapSize < q.heapMax)
    (hgranted : extraSize q.heapMax ≤ granted) : q.heapSize + 1 < (q.newHeapEntry granted).heapMax := by
  unfold newHeapEntry
  unfold extraSize at hgranted
  split
  · show _ < q.heapMax + granted
    split at hgranted <;> omega
  · omega

theorem held_put (q : NbHeap) (e : HeapEntry) : (q.put e).held = e ::ₘ q.held := by
  have hsucc := elements_succ (Function.update q.pt q.heapSize e) q.heapSize
  rwa [Function.update_self, elements_update _ le_rfl] at hsucc

theorem add_eq {granted : ℕ} {key value : Term} (hroom : q.heapSize < q.heapMax)
    (hgranted : extraSize q.heapMax ≤ granted) :
    q.add granted key value = some ((q.newHeapEntry granted).put (key, value)) := by
  have hmax := newHeapEntry_room hroom hgranted
  rw [add, newHeapEntry_heapSize, if_pos (by omega)]

theorem held_add {granted : ℕ} {key value : Term} (hroom : q.heapSize < q.heapMax)
    (hgranted : extraSize q.heapMax ≤ granted) (h : q.add granted key value = some q') :
    q'.held = (key, value) ::ₘ q.held := by
  rw [add_eq hroom hgranted] at h
  obtain rfl := Option.some.inj h
  rw [held_put, held, newHeapEntry_heapSize]
  exact congrArg _ (elements_congr fun i hi => newHeapEntry_pt (hi.trans hroom))

theorem del_eq {e : HeapEntry} (h : q.del = some (e, q')) :
    0 < q.heapSize ∧ e = q.pt 0 ∧
      q' = { q with heapSize := q.heapSize - 1, pt := delHeapRoot q.pt q.heapSize } := by
  unfold del at h
  split at h
  · cases h
  · obtain ⟨rfl, rfl⟩ := Prod.mk.inj (Option.some.inj h)
    exact ⟨by omega, rfl, rfl⟩

end NbHeap

/-- `DelHeapRoot` takes out the root. -/
theorem elements_delHeapRoot (pt : ℕ → HeapEntry) (n : ℕ) :
    elements pt (n + 1) = pt 0 ::ₘ elements (delHeapRoot pt (n + 1)) n := by
  rcases Nat.eq_zero_or_pos n with rfl | hn
  · rw [elements_succ]
    rfl
  · rw [elements_root pt hn, delHeapRoot, Nat.add_sub_cancel, elements_siftDown _ hn]
    refine congrArg _ (elements_congr fun i hi => ?_)
    by_cases hi0 : i = 0
    · rw [hi0, Function.update_self, Function.update_self]
    · rw [Function.update_of_ne hi0, Function.update_of_ne hi0, Function.update_of_ne hi.ne]

/-- `DelHeapRoot` keeps the order of a heap. -/
theorem ordered_delHeapRoot {pt : ℕ → HeapEntry} {n : ℕ} (h : Ordered KeyLe pt (n + 1))
    (hcmp : ∀ e ∈ elements pt (n + 1), ∀ e' ∈ elements pt (n + 1), ComparedRight e.1 e'.1) :
    Ordered KeyLe (delHeapRoot pt (n + 1)) n := by
  rcases Nat.eq_zero_or_pos n with rfl | hn
  · exact fun i hi hi0 => absurd hi0 (Nat.not_lt_zero i)
  · have hsame : ∀ i < n, Function.update pt n (termNil, termNil) i = pt i :=
      fun i hi => Function.update_of_ne hi.ne ..
    refine ordered_siftDown (decides_keyLt hcmp) ?_ hn (fun i hi => ?_) (.root (fun i hi hin => ?_) _)
    · exact mem_elements.mpr ⟨n, n.lt_succ_self, rfl⟩
    · rw [Nat.add_sub_cancel, hsame i hi]
      exact mem_elements.mpr ⟨i, by omega, rfl⟩
    · have hp := parent_lt hi
      rw [Nat.add_sub_cancel, hsame i hin, hsame _ (by omega)]
      exact h i hi (by omega)

namespace HeapInv

variable {q q' : NbHeap}

theorem nbHeap (qd : Addr) {hsize : ℕ} (h : 0 < hsize) : HeapInv (nbHeap qd hsize) :=
  ⟨h, fun _ _ hi => absurd hi (Nat.not_lt_zero _), fun _ he => absurd he (Multiset.notMem_zero _)⟩

/-- An addition of a key that belongs last keeps the invariant. -/
theorem add (h : HeapInv q) {granted : ℕ} {key value : Term}
    (hgranted : NbHeap.extraSize q.heapMax ≤ granted) (hlast : BelongsLast q key)
    (hadd : q.add granted key value = some q') : HeapInv q' := by
  have hheld := NbHeap.held_add h.room hgranted hadd
  have hmax := NbHeap.newHeapEntry_room h.room hgranted
  rw [NbHeap.add_eq h.room hgranted] at hadd
  have hsame : ∀ i < q.heapSize, (q.newHeapEntry granted).pt i = q.pt i := by
    intro i hi
    exact NbHeap.newHeapEntry_pt (hi.trans h.room)
  refine ⟨?_, ?_, ?_⟩
  · obtain rfl := Option.some.inj hadd
    rwa [NbHeap.put, NbHeap.newHeapEntry_heapSize]
  · obtain rfl := Option.some.inj hadd
    rw [NbHeap.put, NbHeap.newHeapEntry_heapSize]
    refine Ordered.push (fun i hi hin => ?_) fun hpos => ?_
    · have hp := parent_lt hi
      rw [hsame i hin, hsame _ (hp.trans hin)]
      exact h.ordered i hi hin
    · have hp := parent_lt hpos
      have hmem : q.pt (parent q.heapSize) ∈ q.held := mem_elements.mpr ⟨_, hp, rfl⟩
      have hright := (hlast.compared _ hmem).1
      rw [hsame _ hp, KeyLe, Ordering.isLE_iff_ne_gt, Term.standardOrder_swap, ← hright]
      intro hgt
      apply hlast.behind hpos
      exact signOf.eq_lt.mp (Ordering.swap_eq_gt.mp hgt)
  · intro e he e' he'
    rw [hheld, Multiset.mem_cons] at he he'
    rcases he with rfl | he <;> rcases he' with rfl | he'
    · exact comparedRight_self key
    · exact (hlast.compared e' he').1
    · exact (hlast.compared e he).2
    · exact h.compared e he e' he'

/-- A removal takes the root out. -/
theorem held_del {e : HeapEntry} (hdel : q.del = some (e, q')) : q.held = e ::ₘ q'.held := by
  obtain ⟨hpos, rfl, rfl⟩ := NbHeap.del_eq hdel
  obtain ⟨n, hn⟩ : ∃ n, q.heapSize = n + 1 := ⟨q.heapSize - 1, by omega⟩
  rw [NbHeap.held, NbHeap.held, hn]
  exact elements_delHeapRoot q.pt n

/-- A removal keeps the invariant. -/
theorem del (h : HeapInv q) {e : HeapEntry} (hdel : q.del = some (e, q')) : HeapInv q' := by
  have hheld := held_del hdel
  obtain ⟨hpos, rfl, rfl⟩ := NbHeap.del_eq hdel
  obtain ⟨n, hn⟩ : ∃ n, q.heapSize = n + 1 := ⟨q.heapSize - 1, by omega⟩
  have hcmp := h.compared
  have hord := h.ordered
  have hroom := h.room
  refine ⟨?_, ?_, fun e' he' e'' he'' => ?_⟩
  · show q.heapSize - 1 < q.heapMax
    omega
  · rw [NbHeap.held, hn] at hcmp
    rw [hn] at hord
    show Ordered KeyLe (delHeapRoot q.pt q.heapSize) (q.heapSize - 1)
    rw [hn]
    exact ordered_delHeapRoot hord hcmp
  · refine h.compared e' ?_ e'' ?_ <;> rw [hheld]
    · exact Multiset.mem_cons_of_mem he'
    · exact Multiset.mem_cons_of_mem he''

/-- The root has a least key. -/
theorem least_root (h : HeapInv q) (hpos : 0 < q.heapSize) : Least (q.pt 0) q.held := by
  refine ⟨mem_elements.mpr ⟨0, hpos, rfl⟩, fun e he => ?_⟩
  obtain ⟨i, hi, rfl⟩ := mem_elements.mp he
  exact h.ordered.root hi

end HeapInv

-- ---------------------------------------------------------------------------
-- Whole runs
-- ---------------------------------------------------------------------------

/-- What a run of orderly additions keeps: the invariant, and the heap holds what was
    added and not yet removed. -/
theorem HeapRun.inv {hsize : ℕ} (hsize_pos : 0 < hsize) {run : List HeapEvent} {q : NbHeap}
    (h : HeapRun BelongsLast hsize run q) : HeapInv q ∧ addedIn run = removedIn run + q.held := by
  induction h with
  | create qd => exact ⟨.nbHeap qd hsize_pos, rfl⟩
  | @add run q q' granted key value _ hgranted hlast hadd ih =>
      obtain ⟨hinv, hheld⟩ := ih
      refine ⟨hinv.add hgranted hlast hadd, ?_⟩
      have hadded : addedIn (.added (key, value) :: run) = (key, value) ::ₘ addedIn run := rfl
      have hremoved : removedIn (.added (key, value) :: run) = removedIn run := rfl
      rw [hadded, hremoved, hheld, NbHeap.held_add hinv.room hgranted hadd, Multiset.add_cons]
  | @del run q q' e _ hdel ih =>
      obtain ⟨hinv, hheld⟩ := ih
      refine ⟨hinv.del hdel, ?_⟩
      have hadded : addedIn (.removed e :: run) = addedIn run := rfl
      have hremoved : removedIn (.removed e :: run) = e ::ₘ removedIn run := rfl
      rw [hadded, hremoved, hheld, HeapInv.held_del hdel, Multiset.add_cons, Multiset.cons_add]

/-- A heap with room for an entry, to which keys are added that belong last, is a
    priority queue after every run. -/
theorem isPriorityQueue_of_belongsLast {hsize : ℕ} (hsize_pos : 0 < hsize) {run : List HeapEvent}
    {q : NbHeap} (h : HeapRun BelongsLast hsize run q) : IsPriorityQueue run q := by
  obtain ⟨hinv, hheld⟩ := h.inv hsize_pos
  have hleft : addedIn run - removedIn run = q.held := by rw [hheld, add_tsub_cancel_left]
  refine ⟨?_, fun granted key value hgranted => ?_, fun e q' hdel => ?_, fun e hpeek => ?_, ?_, ?_⟩
  · rw [hheld]
    exact Multiset.le_add_right _ _
  · rw [NbHeap.add_eq hinv.room hgranted]
    rfl
  · obtain ⟨hpos, rfl, -⟩ := NbHeap.del_eq hdel
    rw [hleft]
    exact hinv.least_root hpos
  · unfold NbHeap.peek at hpeek
    split at hpeek
    case isTrue => cases hpeek
    case isFalse hne =>
      obtain rfl := Option.some.inj hpeek
      rw [hleft]
      exact hinv.least_root (by omega)
  · have hcard : q.held = 0 ↔ q.heapSize = 0 := by
      rw [← Multiset.card_eq_zero, NbHeap.held, elements, Multiset.card_map, Multiset.card_range]
    rw [hleft, hcard, NbHeap.del]
    split <;> simp_all
  · rw [NbHeap.peek, NbHeap.del]
    split <;> simp

/-- A heap takes key 1 and then key 2, and gives key 1 back. -/
theorem isPriorityQueue_of_belongsLast_one_two :
    ∃ q q', HeapRun BelongsLast 8 [.added (.int 2, .int 20), .added (.int 1, .int 10)] q ∧
      q.del = some ((.int 1, .int 10), q') ∧
      IsPriorityQueue [.removed (.int 1, .int 10), .added (.int 2, .int 20), .added (.int 1, .int 10)] q' := by
  have hempty : HeapRun BelongsLast 8 [] (nbHeap 100 8) := .create 100
  have hone : HeapRun BelongsLast 8 [.added (.int 1, .int 10)] ((nbHeap 100 8).put (.int 1, .int 10)) :=
    .add hempty le_rfl ⟨fun h => absurd h (lt_irrefl 0), fun e he => absurd he (Multiset.notMem_zero e)⟩ rfl
  have htwo : HeapRun BelongsLast 8 [.added (.int 2, .int 20), .added (.int 1, .int 10)]
      (((nbHeap 100 8).put (.int 1, .int 10)).put (.int 2, .int 20)) := by
    refine .add hone le_rfl ⟨fun _ => by decide, fun e he => ?_⟩ rfl
    rw [NbHeap.held_put, Multiset.mem_cons] at he
    rcases he with rfl | he
    · exact ⟨by decide, by decide⟩
    · exact absurd he (Multiset.notMem_zero e)
  exact ⟨_, _, htwo, rfl, isPriorityQueue_of_belongsLast (by decide) (htwo.del rfl)⟩

/-- A heap that takes key 2 and then key 1 shows key 2. -/
theorem not_isPriorityQueue :
    ¬ ∀ (hsize : ℕ) (run : List HeapEvent) (q : NbHeap), 0 < hsize →
      HeapRun (fun _ _ => True) hsize run q → IsPriorityQueue run q := by
  intro hall
  have hrun : HeapRun (fun _ _ => True) 8 [.added (.int 1, .int 10), .added (.int 2, .int 20)]
      (((nbHeap 100 8).put (.int 2, .int 20)).put (.int 1, .int 10)) :=
    .add (.add (.create 100) le_rfl trivial rfl) le_rfl trivial rfl
  obtain ⟨-, hleast⟩ := (hall 8 _ _ (by decide) hrun).peek (.int 2, .int 20) rfl
  have hmem : ((.int 1, .int 10) : HeapEntry) ∈
      addedIn [.added (.int 1, .int 10), .added (.int 2, .int 20)] -
        removedIn [.added (.int 1, .int 10), .added (.int 2, .int 20)] := by
    rw [show removedIn [.added (.int 1, .int 10), .added (.int 2, .int 20)] = 0 from rfl, tsub_zero]
    exact Multiset.mem_cons_self _ ({(.int 2, .int 20)} : Multiset HeapEntry)
  exact absurd (hleast _ hmem) (by decide)

end Yap
