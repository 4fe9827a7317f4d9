-- SUMMARY: Which exits of the loop of `term_hash` leave the memory as it was.
import Yap.TermHash.Code

/-!
# What hashing restores

The frames keep what was in the marked cells. Three exits write it back, or have no
frames; the exit at an unbound variable does not look at the frames.
-/

namespace Yap

open Relation

namespace HashState

variable {cx : HashContext} {st st' : HashState} {e : HashExit} {m m' : Addr → MarkedCell}

-- ---------------------------------------------------------------------------
-- The memory behind the marks
-- ---------------------------------------------------------------------------

theorem unwind_nil (h : st.toVisit = []) : st.unwind = st.memory := by
  rw [unwind, h]
  rfl

theorem unwind_descend (st : HashState) (l : Addr) (n : ℕ) : (st.descend l n).unwind = st.unwind :=
  Trail.rewind_update ..

theorem unwind_ret {fr : Visited} {rest : List Visited} (h : st.toVisit = fr :: rest) :
    (st.ret fr rest).unwind = st.unwind := by
  rw [unwind, unwind, h]
  rfl

/-- A word that is no mark has been read from a cell without a mark. -/
def Fetched (st : HashState) : Prop := ∀ a c, st.d0 = some (a, .cell c) → st.memory st.pt0 ≠ .foundVar

theorem fetched_none (h : st.d0 = none) : st.Fetched := by
  intro a c hd0
  rw [h] at hd0
  cases hd0

/-- What a turn can do: go on with the same frames, mark a cell, return to a marked
    one, or leave. -/
inductive Step (cx : HashContext) (st : HashState) : Turn HashState (HashExit × (Addr → MarkedCell)) → Prop where
  | stay {st' : HashState} : st'.memory = st.memory → st'.toVisit = st.toVisit → (st.Fetched → st'.Fetched) →
      Step cx st (.go st')
  | descend {st₁ : HashState} (l : Addr) (n : ℕ) : st₁.memory = st.memory → st₁.toVisit = st.toVisit →
      (st.Fetched → st.memory st₁.pt0 ≠ .foundVar) → Step cx st (.go (st₁.descend l n))
  | ret {fr : Visited} {rest : List Visited} : st.toVisit = fr :: rest → Step cx st (.go (st.ret fr rest))
  | unwind (e : HashExit) : Step cx st (.exit (e, st.unwind))
  | unbound (a : Addr) : cx.variant = false → st.d0 = some (a, .cell (.ref a)) →
      Step cx st (.exit (.unbound, st.memory))

theorem step_next {st₁ : HashState} (hm : st₁.memory = st.memory) (hv : st₁.toVisit = st.toVisit) :
    Step cx st (.go st₁.next) :=
  .stay hm hv fun _ => fetched_none rfl

theorem step_visit {st₁ : HashState} (hm : st₁.memory = st.memory) (hv : st₁.toVisit = st.toVisit)
    (hpt0 : st₁.pt0 = st.pt0) (hfetched : st.Fetched → st.memory st.pt0 ≠ .foundVar) (margin : ℕ) (l : Addr) (n : ℕ) :
    Step cx st (st₁.visit cx margin l n) := by
  have hunwind : st₁.unwind = st.unwind := by rw [HashState.unwind, HashState.unwind, hm, hv]
  unfold visit
  split
  · exact step_next hm hv
  · split
    · exact hunwind ▸ .unwind _
    · exact .descend l n hm hv (hpt0 ▸ hfetched)

theorem step_box (cx : HashContext) (st : HashState) (p : Addr) (b : Blob) : Step cx st (st.box cx p b) := by
  cases b with
  | bigInt b =>
    rw [box]
    split
    · exact .unwind _
    · exact step_next rfl rfl
  | dbRef => exact step_next rfl rfl
  | double x => exact step_next rfl rfl
  | longInt n => exact step_next rfl rfl
  | string s => exact step_next rfl rfl

theorem step_word {ptd0 : Addr} {d : Nonvar} (hd0 : st.d0 = some (ptd0, .cell (.nonvar d))) :
    Step cx st (st.word cx d) := by
  have hfetched : st.Fetched → st.memory st.pt0 ≠ .foundVar := fun h => h ptd0 _ hd0
  cases d with
  | int n => exact step_next rfl rfl
  | atom a => exact step_next rfl rfl
  | pair p =>
    rw [word]
    refine step_visit ?_ ?_ ?_ hfetched _ _ _ <;> rfl
  | appl p =>
    rw [word]
    split
    case h_1 f _ => refine step_visit ?_ ?_ ?_ hfetched _ _ _ <;> rfl
    case h_2 b _ => exact step_box cx st p b

theorem step_turn (cx : HashContext) (st : HashState) : Step cx st (st.turn cx) := by
  unfold turn
  split
  case h_1 =>
    split
    case isTrue =>
      refine .stay rfl rfl fun _ a c hd0 hmem => ?_
      obtain ⟨-, hcell⟩ := Prod.mk.inj (Option.some.inj hd0)
      cases hmem.symm.trans hcell
    case isFalse =>
      split
      case h_1 hv => exact unwind_nil hv ▸ .unwind _
      case h_2 fr rest hv => exact .ret hv
  case h_2 ptd0 a hd0 =>
    split
    case isTrue heq =>
      cases hvariant : cx.variant with
      | true => exact step_next rfl rfl
      | false => exact .unbound ptd0 hvariant (heq ▸ hd0)
    case isFalse => exact .stay rfl rfl fun h _ _ _ => h ptd0 _ hd0
  case h_3 ptd0 d hd0 =>
    split
    case isTrue => exact .unwind _
    case isFalse => exact step_word hd0
  case h_4 =>
    split
    · exact .unwind _
    · exact step_next rfl rfl

-- ---------------------------------------------------------------------------
-- Marked cells
-- ---------------------------------------------------------------------------

/-- The frames lead back to the memory, and the marked cells are different, hold the
    mark, and held something else. -/
structure Marking (m : Addr → MarkedCell) (st : HashState) : Prop where
  unwind : st.unwind = m
  nodup : (st.toVisit.map Visited.start).Nodup
  marked : ∀ a ∈ st.toVisit.map Visited.start, st.memory a = .foundVar ∧ m a ≠ .foundVar
  fetched : st.Fetched

/-- Writing back changes the cells of the frames only. -/
theorem unwind_of_notMem {a : Addr} (h : a ∉ st.toVisit.map Visited.start) : st.unwind a = st.memory a := by
  refine Trail.rewind_of_notMem ?_
  rwa [List.map_map]

theorem Marking.descend (h : Marking m st) {st₁ : HashState} (hm : st₁.memory = st.memory)
    (hv : st₁.toVisit = st.toVisit) (hpt0 : st.memory st₁.pt0 ≠ .foundVar) (l : Addr) (n : ℕ) :
    Marking m (st₁.descend l n) := by
  have hnotMem : st₁.pt0 ∉ st₁.toVisit.map Visited.start := fun hmem => hpt0 (h.marked _ (hv ▸ hmem)).1
  have hunwind : st₁.unwind = m := by
    rw [← h.unwind, HashState.unwind, HashState.unwind, hm, hv]
  refine ⟨(unwind_descend ..).trans hunwind, List.nodup_cons.mpr ⟨hnotMem, hv ▸ h.nodup⟩, fun a ha => ?_, fetched_none rfl⟩
  by_cases heq : a = st₁.pt0
  · subst heq
    refine ⟨Function.update_self .., ?_⟩
    rwa [← hunwind, unwind_of_notMem hnotMem, hm]
  · have hmem : a ∈ st₁.toVisit.map Visited.start := (List.mem_cons.mp ha).resolve_left heq
    refine ⟨(Function.update_of_ne heq ..).trans ?_, (h.marked a (hv ▸ hmem)).2⟩
    exact hm ▸ (h.marked a (hv ▸ hmem)).1

theorem Marking.ret (h : Marking m st) {fr : Visited} {rest : List Visited} (hv : st.toVisit = fr :: rest) :
    Marking m (st.ret fr rest) := by
  have hnodup := h.nodup
  rw [hv, List.map_cons, List.nodup_cons] at hnodup
  refine ⟨(unwind_ret hv).trans h.unwind, hnodup.2, fun a ha => ?_, fetched_none rfl⟩
  have hne : a ≠ fr.start := fun heq => hnodup.1 (heq ▸ ha)
  have hmem : a ∈ st.toVisit.map Visited.start := by
    rw [hv]
    exact List.mem_cons_of_mem _ ha
  exact ⟨(Function.update_of_ne hne ..).trans (h.marked a hmem).1, (h.marked a hmem).2⟩

theorem Marking.go (h : Marking m st) (hgo : st.turn cx = .go st') : Marking m st' := by
  have hstep := step_turn cx st
  rw [hgo] at hstep
  cases hstep with
  | stay hm hv hfetched =>
    refine ⟨?_, hv ▸ h.nodup, hm ▸ hv ▸ h.marked, hfetched h.fetched⟩
    rw [← h.unwind, HashState.unwind, HashState.unwind, hm, hv]
  | descend l n hm hv hpt0 => exact h.descend hm hv (hpt0 h.fetched) l n
  | ret hv => exact h.ret hv

theorem marking_init (m : Addr → MarkedCell) (l : Addr) (n : ℕ) (depth : ℤ) (scratch : ℕ → Word) :
    Marking m (.init m l n depth scratch) :=
  ⟨rfl, List.nodup_nil, fun _ h => absurd h List.not_mem_nil, fetched_none rfl⟩

/-- Marked cells show that the memory is another one. -/
theorem Marking.memory_ne (h : Marking m st) (hv : st.toVisit ≠ []) : st.memory ≠ m := by
  obtain ⟨fr, rest, hcons⟩ := List.exists_cons_of_ne_nil hv
  have hmem : fr.start ∈ st.toVisit.map Visited.start := by
    rw [hcons]
    exact List.mem_cons_self ..
  obtain ⟨hmark, hold⟩ := h.marked _ hmem
  exact fun heq => hold (heq ▸ hmark)

-- ---------------------------------------------------------------------------
-- Exits
-- ---------------------------------------------------------------------------

/-- The loop is at an unbound variable that it does not pass over, below a marked cell. -/
def LeavesMarks (cx : HashContext) (st : HashState) : Prop :=
  cx.variant = false ∧ st.toVisit ≠ [] ∧ ∃ a, st.d0 = some (a, .cell (.ref a))

theorem turn_of_leavesMarks (h : st.LeavesMarks cx) : st.turn cx = .exit (.unbound, st.memory) := by
  obtain ⟨hvariant, -, a, hd0⟩ := h
  rw [turn, hd0]
  simp only [if_true, hvariant, Bool.false_eq_true, if_false]

/-- The other exits leave the memory behind the marks. -/
theorem Marking.exit (h : Marking m st) (hexit : st.turn cx = .exit (e, m')) (hleaves : ¬ st.LeavesMarks cx) :
    m' = m := by
  have hstep := step_turn cx st
  rw [hexit] at hstep
  cases hstep with
  | unwind => exact h.unwind
  | unbound a hvariant hd0 =>
    have hnil : st.toVisit = [] := by_contra fun hv => hleaves ⟨hvariant, hv, a, hd0⟩
    exact (unwind_nil hnil).symm.trans h.unwind

end HashState

-- ---------------------------------------------------------------------------
-- What is restored
-- ---------------------------------------------------------------------------

/-- However the loop is left, the memory is as it was. -/
def HashRestores (cx : HashContext) (m : Addr → MarkedCell) (l : Addr) (n : ℕ) (depth : ℤ) (scratch : ℕ → Word) : Prop :=
  ∀ e m', hashComplexTerm cx m l n depth scratch (e, m') → m' = m

/-- `f(X)`: a word at the address 0, its functor at 1, its argument at 2. -/
def openCompound : Addr → MarkedCell
  | 0 => .cell (.nonvar (.appl 1))
  | a => .cell (.ref a)

/-- A heap of functors `f/1`. -/
def unaryHeap : Heap := ⟨fun _ => .functor ⟨⟨⟨[102], nul_free_f⟩⟩, 1, Nat.one_pos, by decide⟩, 3⟩

end Yap
