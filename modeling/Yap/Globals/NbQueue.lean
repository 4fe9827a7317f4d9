-- SUMMARY: The non-backtrackable queue of global variables: its chain of pairs, its operations, and that runs of them are first in, first out.
import Yap.Terms.Term

/-!
# The non-backtrackable queue

The operations follow `nb_queue` and its relatives in `globals.c`. The elements are
the copies that `CopyTermToArena` makes; the arena that holds them and the pairs is
not modelled, an addition gets the place of its pair.
-/

namespace Yap

-- ---------------------------------------------------------------------------
-- The queue
-- ---------------------------------------------------------------------------

/-- The cells `QUEUE_HEAD`, `QUEUE_TAIL` and `QUEUE_SIZE` of a queue term, and the
    pairs of the arena: an element, and the place of the pair that its tail is bound
    to. A tail that is unbound refers to itself, which is the place of its pair. -/
structure NbQueue where
  queueHead : Addr
  queueTail : Addr
  queueSize : ℕ
  pairs : Addr → Term × Addr

/-- `nb_queue`, with cells that were not yet used for pairs. -/
def nbQueue (pairs : Addr → Term × Addr) : NbQueue := ⟨0, 0, 0, pairs⟩

namespace NbQueue

/-- `p_nb_queue_enqueue`, with a new pair at `cell`. -/
def enqueue (cell : Addr) (elem : Term) (q : NbQueue) : NbQueue :=
  let pairs := Function.update q.pairs cell (elem, cell)
  if q.queueSize = 0 then ⟨cell, cell, 1, pairs⟩
  else
    { queueHead := q.queueHead
      queueTail := cell
      queueSize := q.queueSize + 1
      pairs := Function.update pairs q.queueTail ((pairs q.queueTail).1, cell) }

/-- `p_nb_queue_dequeue`: the element at the front and the queue without it. -/
def dequeue (q : NbQueue) : Option (Term × NbQueue) :=
  if q.queueSize = 0 then none
  else
    let (out, tail) := q.pairs q.queueHead
    some (out, { q with queueHead := tail, queueSize := q.queueSize - 1 })

/-- `p_nb_queue_peek`. -/
def peek (q : NbQueue) : Option Term :=
  if q.queueSize = 0 then none else some (q.pairs q.queueHead).1

/-- The places of the first pairs from a place on. -/
def places (pairs : Addr → Term × Addr) : ℕ → Addr → List Addr
  | 0, _ => []
  | n + 1, p => p :: places pairs n (pairs p).2

/-- The elements of the queue, from the front. -/
def items (q : NbQueue) : List Term :=
  (places q.pairs q.queueSize q.queueHead).map fun p => (q.pairs p).1

end NbQueue

-- ---------------------------------------------------------------------------
-- One operation
-- ---------------------------------------------------------------------------

/-- The pairs are apart from each other, and the last one is that of `QUEUE_TAIL`. -/
structure QueueInv (q : NbQueue) : Prop where
  nodup : (NbQueue.places q.pairs q.queueSize q.queueHead).Nodup
  last : (NbQueue.places q.pairs q.queueSize q.queueHead).getLast? = if q.queueSize = 0 then none else some q.queueTail

namespace NbQueue

variable {q q' : NbQueue}

theorem length_places (pairs : Addr → Term × Addr) (n : ℕ) (p : Addr) : (places pairs n p).length = n := by
  induction n generalizing p with
  | zero => rfl
  | succ n ih => exact congrArg (· + 1) (ih _)

theorem length_items (q : NbQueue) : q.items.length = q.queueSize := by
  rw [items, List.length_map, length_places]

/-- Only the tails of the pairs on the way matter for where it leads. -/
theorem places_congr {pairs pairs' : Addr → Term × Addr} {n : ℕ} {p : Addr}
    (h : ∀ k ∈ places pairs n p, (pairs' k).2 = (pairs k).2) : places pairs' n p = places pairs n p := by
  induction n generalizing p with
  | zero => rfl
  | succ n ih =>
    have hhead := h p List.mem_cons_self
    have htail := ih fun k hk => h k (List.mem_cons_of_mem p hk)
    rw [places, places, hhead, htail]

/-- A chain whose last tail is bound to a new pair is longer by this pair. -/
theorem places_bind {pairs : Addr → Term × Addr} {n : ℕ} {p tail : Addr} (t : Term) (cell : Addr)
    (hnodup : (places pairs n p).Nodup) (hlast : (places pairs n p).getLast? = some tail) :
    places (Function.update pairs tail (t, cell)) (n + 1) p = places pairs n p ++ [cell] := by
  induction n generalizing p with
  | zero => cases hlast
  | succ n ih =>
    rw [places, List.nodup_cons] at hnodup
    cases n with
    | zero =>
      have hp : p = tail := Option.some.inj hlast
      simp only [places, hp, Function.update_self, List.cons_append, List.nil_append]
    | succ n =>
      have hlast' : (places pairs (n + 1) (pairs p).2).getLast? = some tail := hlast
      have hne : p ≠ tail := by
        rintro rfl
        exact hnodup.1 (List.mem_of_getLast? hlast')
      rw [places, Function.update_of_ne hne, ih hnodup.2 hlast']
      rfl

theorem dequeue_eq {x : Term} (h : q.dequeue = some (x, q')) :
    0 < q.queueSize ∧ x = (q.pairs q.queueHead).1 ∧
      q' = { q with queueHead := (q.pairs q.queueHead).2, queueSize := q.queueSize - 1 } := by
  unfold dequeue at h
  split at h
  case isTrue => cases h
  case isFalse hpos =>
    obtain ⟨rfl, rfl⟩ := Prod.mk.inj (Option.some.inj h)
    exact ⟨Nat.pos_of_ne_zero hpos, rfl, rfl⟩

theorem dequeue_eq_none : q.dequeue = none ↔ q.items = [] := by
  rw [← List.length_eq_zero_iff, length_items, dequeue]
  split
  case isTrue h => exact iff_of_true rfl h
  case isFalse h => exact iff_of_false (fun hnone => by cases hnone) h

/-- A removal takes the first element. -/
theorem items_dequeue {x : Term} (h : q.dequeue = some (x, q')) : q.items = x :: q'.items := by
  obtain ⟨hpos, rfl, rfl⟩ := dequeue_eq h
  obtain ⟨n, hn⟩ : ∃ n, q.queueSize = n + 1 := ⟨q.queueSize - 1, by omega⟩
  rw [items, items, hn]
  rfl

/-- An addition puts its element behind the others. -/
theorem items_enqueue (hq : QueueInv q) {cell : Addr} (hcell : cell ∉ places q.pairs q.queueSize q.queueHead)
    (elem : Term) :
    places (q.enqueue cell elem).pairs (q.enqueue cell elem).queueSize (q.enqueue cell elem).queueHead =
      places q.pairs q.queueSize q.queueHead ++ [cell] ∧ (q.enqueue cell elem).items = q.items ++ [elem] := by
  have hlast := hq.last
  unfold enqueue items
  split
  case isTrue hzero =>
    rw [hzero]
    simp [places]
  case isFalse hpos =>
    rw [if_neg hpos] at hlast
    have hsame : ∀ k ∈ places q.pairs q.queueSize q.queueHead,
        Function.update q.pairs cell (elem, cell) k = q.pairs k := by
      intro k hk
      have hne : k ≠ cell := by
        rintro rfl
        exact hcell hk
      exact Function.update_of_ne hne ..
    have hplaces := places_congr fun k hk => congrArg Prod.snd (hsame k hk)
    have htail := List.mem_of_getLast? hlast
    have hbind : places _ (q.queueSize + 1) q.queueHead = _ :=
      places_bind (q.pairs q.queueTail).1 cell (hplaces ▸ hq.nodup) (hplaces ▸ hlast)
    simp only [hsame _ htail]
    rw [hbind, hplaces]
    refine ⟨rfl, ?_⟩
    rw [List.map_append]
    congr 1
    · refine List.map_congr_left fun k hk => ?_
      by_cases hk' : k = q.queueTail
      · rw [hk', Function.update_self]
      · rw [Function.update_of_ne hk', hsame k hk]
    · have hne : cell ≠ q.queueTail := fun h => hcell (h ▸ htail)
      rw [List.map_singleton, Function.update_of_ne hne, Function.update_self]

end NbQueue

namespace QueueInv

variable {q q' : NbQueue}

theorem nbQueue (pairs : Addr → Term × Addr) : QueueInv (nbQueue pairs) := ⟨List.nodup_nil, rfl⟩

theorem enqueue (h : QueueInv q) {cell : Addr} (hcell : cell ∉ NbQueue.places q.pairs q.queueSize q.queueHead)
    (elem : Term) : QueueInv (q.enqueue cell elem) := by
  have hplaces := (NbQueue.items_enqueue h hcell elem).1
  refine ⟨?_, ?_⟩
  · rw [hplaces]
    exact h.nodup.append (List.nodup_singleton cell) (List.disjoint_singleton.mpr hcell)
  · rw [hplaces, List.getLast?_append, NbQueue.enqueue]
    split <;> simp

theorem dequeue (h : QueueInv q) {x : Term} (hdeq : q.dequeue = some (x, q')) : QueueInv q' := by
  obtain ⟨hpos, rfl, rfl⟩ := NbQueue.dequeue_eq hdeq
  obtain ⟨n, hn⟩ : ∃ n, q.queueSize = n + 1 := ⟨q.queueSize - 1, by omega⟩
  have hnodup := h.nodup
  have hlast := h.last
  rw [hn, NbQueue.places] at hnodup hlast
  refine ⟨?_, ?_⟩
  · show (NbQueue.places q.pairs (q.queueSize - 1) (q.pairs q.queueHead).2).Nodup
    rw [hn]
    exact (List.nodup_cons.mp hnodup).2
  · show (NbQueue.places q.pairs (q.queueSize - 1) (q.pairs q.queueHead).2).getLast? =
      if q.queueSize - 1 = 0 then none else some q.queueTail
    rw [hn, Nat.add_sub_cancel]
    cases n with
    | zero => rfl
    | succ n => exact hlast

end QueueInv

-- ---------------------------------------------------------------------------
-- Whole runs
-- ---------------------------------------------------------------------------

/-- The runs from an empty queue, where each new pair is apart from those in the
    queue: what was added, what was removed, each in its order, and the queue. -/
inductive QueueRun : List Term → List Term → NbQueue → Prop where
  | create (pairs : Addr → Term × Addr) : QueueRun [] [] (nbQueue pairs)
  | enqueue {added removed : List Term} {q : NbQueue} (cell : Addr) (elem : Term) :
      QueueRun added removed q → cell ∉ NbQueue.places q.pairs q.queueSize q.queueHead →
      QueueRun (added ++ [elem]) removed (q.enqueue cell elem)
  | dequeue {added removed : List Term} {q q' : NbQueue} {x : Term} :
      QueueRun added removed q → q.dequeue = some (x, q') → QueueRun added (removed ++ [x]) q'

/-- What was added first is removed first: the queue holds the rest of what was added
    behind what was removed. -/
theorem QueueRun.fifo {added removed : List Term} {q : NbQueue} (h : QueueRun added removed q) :
    QueueInv q ∧ added = removed ++ q.items := by
  induction h with
  | create pairs => exact ⟨.nbQueue pairs, rfl⟩
  | enqueue cell elem _ hcell ih =>
    obtain ⟨hinv, hadded⟩ := ih
    refine ⟨hinv.enqueue hcell elem, ?_⟩
    rw [(NbQueue.items_enqueue hinv hcell elem).2, hadded, List.append_assoc]
  | dequeue _ hdeq ih =>
    obtain ⟨hinv, hadded⟩ := ih
    refine ⟨hinv.dequeue hdeq, ?_⟩
    rw [hadded, NbQueue.items_dequeue hdeq, List.append_assoc]
    rfl

end Yap
