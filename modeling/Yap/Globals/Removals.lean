-- SUMMARY: What is left of a queue, a heap and a beam when the arguments of a removal do not unify with what it removed.
import Yap.Globals.NbBeam
import Yap.Globals.NbQueue

/-!
# Removals that fail

A removal first takes the entry out, then unifies it with the arguments of the
call. The structures are not trailed: what a removal has taken out stays out when
the unification fails. The modes of these predicates are those of a caller that
passes unbound variables.
-/

open BinaryHeap

namespace Yap

-- ---------------------------------------------------------------------------
-- The predicates
-- ---------------------------------------------------------------------------

section

variable {M : Type} (unify : Term → Term → M → Option M)

/-- `Yap_unify(tk, ARG2) && Yap_unify(tv, ARG3)`: the memory after it. -/
def unifyEntry (e : HeapEntry) (arg2 arg3 : Term) (m : M) : Option M :=
  (unify e.1 arg2 m).bind fun m' => unify e.2 arg3 m'

/-- `p_nb_queue_dequeue`: the memory, if it succeeds, and the queue that is left. -/
def nbQueueDequeue (arg2 : Term) (q : NbQueue) (m : M) : Option M × NbQueue :=
  match q.dequeue with
  | none => (none, q)
  | some (out, q') => (unify out arg2 m, q')

/-- `p_nb_heap_del`. -/
def nbHeapDel (arg2 arg3 : Term) (q : NbHeap) (m : M) : Option M × NbHeap :=
  match q.del with
  | none => (none, q)
  | some (e, q') => (unifyEntry unify e arg2 arg3 m, q')

/-- `p_nb_beam_del`. -/
def nbBeamDel (junk : Term → ℕ) (arg2 arg3 : Term) (q : NbBeam) (m : M) : Option M × NbBeam :=
  match q.del junk with
  | none => (none, q)
  | some (e, q') => (unifyEntry unify e arg2 arg3 m, q')

/-- A removal that fails because the arguments do not unify leaves the elements, their
    order and the size as they were. -/
structure FailingRemovalsChangeNothing : Prop where
  queue : ∀ arg2 q m, q.queueSize ≠ 0 → (nbQueueDequeue unify arg2 q m).1 = none →
    (nbQueueDequeue unify arg2 q m).2.items = q.items ∧ (nbQueueDequeue unify arg2 q m).2.queueSize = q.queueSize
  heap : ∀ arg2 arg3 q m, q.heapSize ≠ 0 → (nbHeapDel unify arg2 arg3 q m).1 = none →
    (nbHeapDel unify arg2 arg3 q m).2.heapSize = q.heapSize ∧
      ∀ i < q.heapSize, (nbHeapDel unify arg2 arg3 q m).2.pt i = q.pt i
  beam : ∀ junk arg2 arg3 q m, q.heapSize ≠ 0 → (nbBeamDel unify junk arg2 arg3 q m).1 = none →
    (nbBeamDel unify junk arg2 arg3 q m).2.heapSize = q.heapSize ∧
      ∀ i < 5 * q.heapMax, (nbBeamDel unify junk arg2 arg3 q m).2.pt i = q.pt i

end

-- ---------------------------------------------------------------------------
-- The keys of a beam
-- ---------------------------------------------------------------------------

/-- The keys in the cells of a heap of smallest keys. -/
def keyCells (m : ℕ → Term) (i : ℕ) : Term := m (2 * i)

/-- The keys in a beam. -/
def NbBeam.keys (q : NbBeam) : Multiset Term := elements (keyCells q.pt) q.heapSize

section

variable {junk : Term → ℕ} {m : ℕ → Term} {b k : ℕ}

theorem keyCells_update (i : ℕ) (t : Term) : keyCells (Function.update m (2 * i) t) = Function.update (keyCells m) i t := by
  funext k
  by_cases hk : k = i
  · rw [hk, Function.update_self, keyCells, Function.update_self]
  · rw [Function.update_of_ne hk, keyCells, Function.update_of_ne (by omega)]
    rfl

/-- No key is in an odd cell or in the second heap. -/
theorem keyCells_update_of_ne {c : ℕ} {t : Term} (h : 2 * k ≠ c) : keyCells (Function.update m c t) k = keyCells m k :=
  Function.update_of_ne h ..

theorem keyCells_moveMin (i j : ℕ) (hk : 2 * k < b) :
    keyCells (moveMin junk b i j m) k = Function.update (keyCells m) i (keyCells m j) k := by
  unfold moveMin
  rw [keyCells_update_of_ne (by omega), keyCells_update_of_ne (by omega), keyCells_update]
  rfl

theorem keyCells_upMax (key : Term) (off2 : ℕ) (hk : 2 * k < b) :
    keyCells (upMax junk b key off2 m).2 k = keyCells m k := by
  induction off2, m using upMax.induct junk b key with
  | case1 m => rw [upMax_root]
  | case2 off2 m h0 noff hcmp i1 m₁ m₂ m₃ ih =>
    rw [upMax, dif_neg h0, if_pos hcmp, ih]
    rw [keyCells_update_of_ne (by omega), keyCells_update_of_ne (by omega), keyCells_update_of_ne (by omega),
      keyCells_update_of_ne (by omega)]
  | case3 off2 m h0 noff hcmp => rw [upMax, dif_neg h0, if_neg hcmp]

/-- Moving a child up moves the hole down to where the child was. -/
theorem elements_moveMin {sz i j : ℕ} (hb : 2 * sz ≤ b) (hij : i < j) (hj : j < sz) (tk : Term) :
    elements (Function.update (keyCells (moveMin junk b i j m)) j tk) sz =
      elements (Function.update (keyCells m) i tk) sz := by
  rw [← elements_move tk hij.ne (hij.trans hj) hj]
  refine elements_congr fun k hk => ?_
  by_cases hkj : k = j
  · rw [hkj, Function.update_self, Function.update_self]
  · rw [Function.update_of_ne hkj, Function.update_of_ne hkj, keyCells_moveMin i j (by omega)]

/-- The first loop of `DelBeamMin` moves the hole. -/
theorem elements_downMin {sz : ℕ} (hb : 2 * sz ≤ b) (tk : Term) (indx : ℕ) :
    elements (Function.update (keyCells (downMin junk b sz tk indx m).2) (downMin junk b sz tk indx m).1 tk) sz =
      elements (Function.update (keyCells m) indx tk) sz := by
  induction indx, m using downMin.induct junk b sz tk with
  | case1 indx m hleft hstop => rw [downMin, if_pos hleft, if_pos hstop]
  | case2 indx m hleft hgo ih =>
    rw [downMin, if_pos hleft, if_neg hgo, ih]
    exact elements_moveMin hb (by omega) (by omega) tk
  | case3 indx m hright hstop => rw [downMin, if_neg hright, if_pos hstop]
  | case4 indx m hright hgo ih =>
    rw [downMin, if_neg hright, if_neg hgo, ih]
    exact elements_moveMin hb (by omega) (by omega) tk

/-- `DelBeamMin` takes the key at the root out of the heap of smallest keys. -/
theorem elements_delBeamMin {n : ℕ} (hb : 2 * n ≤ b) :
    elements (keyCells m) (n + 1) = m 0 ::ₘ elements (keyCells (delBeamMin junk m b (n + 1)).2) n := by
  have hfill : ∀ indx (m₁ : ℕ → Term) tv t,
      ∀ k < n, keyCells (Function.update (Function.update (Function.update m₁ (2 * indx) (m (2 * n)))
        (2 * indx + 1) tv) (b + 3 * placeOfTerm junk tv + 1) t) k =
          Function.update (keyCells m₁) indx (m (2 * n)) k := by
    intro indx m₁ tv t k hk
    rw [keyCells_update_of_ne (by omega), keyCells_update_of_ne (by omega), keyCells_update]
  have hdel : ∀ k < n, keyCells (delBeamMin junk m b (n + 1)).2 k =
      Function.update (keyCells (downMin junk b n (m (2 * n)) 0 m).2) (downMin junk b n (m (2 * n)) 0 m).1
        (m (2 * n)) k := by
    intro k hk
    have hpred : predSize (n + 1) = n := rfl
    rw [delBeamMin]
    simp only [hpred]
    split
    · exact hfill _ _ _ _ k hk
    · simp only
      rw [keyCells_update_of_ne (by omega), keyCells_update_of_ne (by omega), keyCells_update_of_ne (by omega),
        keyCells_update_of_ne (by omega), keyCells_upMax _ _ (by omega)]
      exact hfill _ _ _ _ k hk
  rw [elements_congr hdel, elements_downMin hb]
  rcases Nat.eq_zero_or_pos n with rfl | hn
  · rfl
  · exact elements_root _ hn

end

/-- A removal from a beam within its room takes one key out. -/
theorem NbBeam.keys_del {junk : Term → ℕ} {q q' : NbBeam} {e : HeapEntry} (h : q.del junk = some (e, q'))
    (hroom : q.heapSize ≤ q.heapMax) : q.keys = e.1 ::ₘ q'.keys := by
  unfold NbBeam.del at h
  split at h
  case isTrue => cases h
  case isFalse hpos =>
    obtain ⟨rfl, rfl⟩ := Prod.mk.inj (Option.some.inj h)
    obtain ⟨n, hn⟩ : ∃ n, q.heapSize = n + 1 := ⟨q.heapSize - 1, by omega⟩
    rw [NbBeam.keys, NbBeam.keys, hn]
    exact elements_delBeamMin (by unfold NbBeam.secondHeap; omega)

-- ---------------------------------------------------------------------------
-- What is left
-- ---------------------------------------------------------------------------

/-- What a removal that fails leaves is what it leaves when it succeeds: the size is
    one less, the queue has lost its first element, the heap the entry at its root,
    and the beam, if it is within its room, the key at its root. -/
structure FailingRemovalsRemove {M : Type} (unify : Term → Term → M → Option M) : Prop where
  queue : ∀ arg2 q m, q.queueSize ≠ 0 → (nbQueueDequeue unify arg2 q m).1 = none →
    ∃ out, q.dequeue = some (out, (nbQueueDequeue unify arg2 q m).2) ∧
      q.items = out :: (nbQueueDequeue unify arg2 q m).2.items ∧
      q.queueSize = (nbQueueDequeue unify arg2 q m).2.queueSize + 1
  heap : ∀ arg2 arg3 q m, q.heapSize ≠ 0 → (nbHeapDel unify arg2 arg3 q m).1 = none →
    q.del = some (q.pt 0, (nbHeapDel unify arg2 arg3 q m).2) ∧
      q.held = q.pt 0 ::ₘ (nbHeapDel unify arg2 arg3 q m).2.held ∧
      q.heapSize = (nbHeapDel unify arg2 arg3 q m).2.heapSize + 1
  beam : ∀ junk arg2 arg3 q m, q.heapSize ≠ 0 → (nbBeamDel unify junk arg2 arg3 q m).1 = none →
    (∃ value, q.del junk = some ((q.pt 0, value), (nbBeamDel unify junk arg2 arg3 q m).2)) ∧
      (q.heapSize ≤ q.heapMax → q.keys = q.pt 0 ::ₘ (nbBeamDel unify junk arg2 arg3 q m).2.keys) ∧
      q.heapSize = (nbBeamDel unify junk arg2 arg3 q m).2.heapSize + 1

theorem failingRemovals_remove {M : Type} (unify : Term → Term → M → Option M) : FailingRemovalsRemove unify := by
  refine ⟨fun arg2 q m hpos _ => ?_, fun arg2 arg3 q m hpos _ => ?_, fun junk arg2 arg3 q m hpos _ => ?_⟩
  · obtain ⟨out, q', hdeq⟩ : ∃ out q', q.dequeue = some (out, q') := ⟨_, _, if_neg hpos⟩
    have hleft : (nbQueueDequeue unify arg2 q m).2 = q' := by rw [nbQueueDequeue, hdeq]
    have hitems := NbQueue.items_dequeue hdeq
    rw [hleft]
    refine ⟨out, hdeq, hitems, ?_⟩
    rw [← NbQueue.length_items, ← NbQueue.length_items, hitems, List.length_cons]
  · obtain ⟨q', hdel⟩ : ∃ q', q.del = some (q.pt 0, q') := ⟨_, if_neg hpos⟩
    have hleft : (nbHeapDel unify arg2 arg3 q m).2 = q' := by rw [nbHeapDel, hdel]
    have hheld := HeapInv.held_del hdel
    rw [hleft]
    refine ⟨hdel, hheld, ?_⟩
    obtain ⟨hpos', -, rfl⟩ := NbHeap.del_eq hdel
    show q.heapSize = q.heapSize - 1 + 1
    omega
  · obtain ⟨value, q', hdel, hsize⟩ : ∃ value q', q.del junk = some ((q.pt 0, value), q') ∧
        q.heapSize = q'.heapSize + 1 := by
      refine ⟨_, _, if_neg hpos, ?_⟩
      show q.heapSize = q.heapSize - 1 + 1
      omega
    have hleft : (nbBeamDel unify junk arg2 arg3 q m).2 = q' := by rw [nbBeamDel, hdel]
    rw [hleft]
    exact ⟨⟨value, hdel⟩, fun hroom => NbBeam.keys_del hdel hroom, hsize⟩

/-- What `Yap_unify` does with two small integers. -/
def unifyInts (t t' : Term) (m : Unit) : Option Unit := if t = t' then some m else none

/-- A removal of 1 with the argument 2 fails and leaves the queue empty. -/
theorem not_failingRemovalsChangeNothing : ¬ FailingRemovalsChangeNothing unifyInts := by
  intro hall
  have hsame := hall.queue (.int 2) ((nbQueue fun _ => (.int 0, 0)).enqueue 16 (.int 1)) () (by decide) (by decide)
  exact absurd hsame.2 (by decide)

end Yap
