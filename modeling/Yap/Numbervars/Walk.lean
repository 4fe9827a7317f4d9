-- SUMMARY: The walk of `numbervars/3` makes the passes of its visits, and starts again when its stack is too small.
import Yap.Numbervars.Stages
import Yap.TermVisit.Steps

/-!
# The walk that numbers variables

Each visit is a few turns of the walk. A variable that is bound is entered as the
compound that it is bound to.
-/

namespace Yap

open Relation

/-- The walk comes from one state to another. -/
abbrev NumbersTo (hb hStart root : Addr) : WalkState NumberData → WalkState NumberData → Prop :=
  ReflTransGen (Machine.Goes (WalkState.numberTurn · hb hStart root))

-- ---------------------------------------------------------------------------
-- States
-- ---------------------------------------------------------------------------

theorem cellWords_set (hp : Heap) (s : Store) (a : Addr) (c : Cell) (hc : s.Writable a c) :
    cellWords hp (s.set a c hc) = Function.update (cellWords hp s) (.arg a) (.cell c) := by
  funext pl
  cases pl with
  | functor p => rfl
  | arg b =>
    by_cases hb : b = a
    · subst hb
      rw [Function.update_self]
      exact congrArg _ (Function.update_self ..)
    · rw [Function.update_of_ne fun heq => hb (Place.arg.inj heq)]
      exact congrArg _ (Function.update_of_ne hb ..)

theorem cellWords_functor (hp : Heap) (s : Store) (p hr : Addr) (f : FunctorCell) :
    cellWords ⟨Function.update hp.functorAt p f, hr⟩ s = Function.update (cellWords hp s) (.functor p) (.functor f) := by
  funext pl
  cases pl with
  | arg a => rfl
  | functor q =>
    by_cases hq : q = p
    · subst hq
      rw [Function.update_self]
      exact congrArg _ (Function.update_self ..)
    · rw [Function.update_of_ne fun heq => hq (Place.functor.inj heq)]
      exact congrArg _ (Function.update_of_ne hq ..)

namespace WalkState

variable {st : WalkState NumberData} {q : Addr} {w : WalkWord} (h : Hooks NumberData NumberData) (root : Addr)

theorem unboundVar_nonvar {d : Nonvar} (h0 : st.d0 = some (q, w)) (hw : st.visitUnmark w = .cell (.nonvar d)) :
    st.unboundVar = none := by
  rw [unboundVar, h0]
  simp only [hw]

theorem unboundVar_ref {b : Addr} (h0 : st.d0 = some (q, w)) (hw : st.visitUnmark w = .cell (.ref b)) :
    st.unboundVar = if st.visitUnmark (st.memory (.arg b)) = .cell (.ref b) then some b else none := by
  rw [unboundVar, h0]
  simp only [hw]

theorem turn_ref {b : Addr} (h0 : st.d0 = some (q, w)) (hw : st.visitUnmark w = .cell (.ref b))
    (hb : st.visitUnmark (st.memory (.arg b)) ≠ .cell (.ref b)) :
    st.turn h root = .go { st with d0 := some (b, st.memory (.arg b)) } := by
  rw [turn, h0]
  simp only [hw, if_neg hb]

theorem turn_pair {p : Addr} (h0 : st.d0 = some (q, w)) (hw : st.visitUnmark w = .cell (.nonvar (.pair p))) :
    st.turn h root = st.visitPair h root q p := by
  rw [turn, h0]
  simp only [hw]

theorem turn_appl {p : Addr} (h0 : st.d0 = some (q, w)) (hw : st.visitUnmark w = .cell (.nonvar (.appl p))) :
    st.turn h root = st.visitAppl h root q p := by
  rw [turn, h0]
  simp only [hw]

theorem turn_int {n : BitVec 58} (hStart : Addr) (h0 : st.d0 = some (q, w)) (hw : st.visitUnmark w = .cell (.nonvar (.int n))) :
    st.turn (numberHooks hStart) root = .go st.next := by
  rw [turn, h0]
  simp only [hw]
  rfl

theorem turn_atom {a : Atom} (hStart : Addr) (h0 : st.d0 = some (q, w)) (hw : st.visitUnmark w = .cell (.nonvar (.atom a))) :
    st.turn (numberHooks hStart) root = .go st.next := by
  rw [turn, h0]
  simp only [hw]
  rfl

variable {root} {hb hStart : Addr}

theorem numberVar_eq {v : Addr} {m : Bool} (h : st.isVisitMarker (st.memory (.arg v)) = m) (hvno : 0 ≤ st.data.vno) :
    st.numberVar hb v =
      { st with
        memory := Function.update (Function.update
          (if m = true then st.memory else Function.update st.memory (.arg v) (.cell (.nonvar (.appl st.data.hr))))
          (.functor st.data.hr) (.functor (.functor functorDollarVar))) (.arg (st.data.hr + 1))
          (.cell (mkIntCell st.data.vno))
        trail := if m = false ∧ v < hb then v :: st.trail else st.trail
        d0 := none
        data := ⟨st.data.vno + 1, st.data.hr + 2⟩ } := by
  subst h
  simp only [numberVar, NumberData.number, NumberData.next, if_pos hvno]

theorem visitPair_open {p : Addr} (q : Addr) (h : st.isVisitMarker (st.memory (.arg p)) = true) :
    st.visitPair (numberHooks hStart) root q p = .go st.next := if_pos h

theorem visitPair_closed (hStart q : Addr) {p : Addr} {d1 : WalkWord} (h : st.isVisitMarker (st.memory (.arg p)) = false)
    (hd1 : st.visitUnmark (st.memory (.arg p)) = d1) :
    st.visitPair (numberHooks hStart) root q p =
      .go ((st.push (.arg p) d1 (p + 1) (p + 2) (some (q, d1))).ifRoom (numberHooks hStart) root) := by
  subst hd1
  exact if_neg (Bool.eq_false_iff.mp h)

theorem visitAppl_blob (q : Addr) {p : Addr} {b : Blob} (hd1 : st.visitUnmark (st.memory (.functor p)) = .functor (.blob b)) :
    st.visitAppl (numberHooks hStart) root q p = .go st.next := by
  rw [visitAppl, hd1]

theorem visitAppl_full {p : Addr} {f : Functor} (q : Addr)
    (hd1 : st.visitUnmark (st.memory (.functor p)) = .functor (.functor f)) (hmax : st.max ≤ st.frames.length + 32) :
    st.visitAppl (numberHooks hStart) root q p = .go (st.auxOverflow (numberHooks hStart) root) := by
  rw [visitAppl, hd1]
  exact if_pos hmax

theorem visitAppl_open {p : Addr} {f : Functor} (q : Addr)
    (hd1 : st.visitUnmark (st.memory (.functor p)) = .functor (.functor f)) (hmax : ¬ st.max ≤ st.frames.length + 32)
    (h : st.isVisitMarker (st.memory (.functor p)) = true) :
    st.visitAppl (numberHooks hStart) root q p = .go st.next := by
  rw [visitAppl, hd1]
  exact (if_neg hmax).trans (if_pos h)

theorem visitAppl_closed {p : Addr} {f : Functor} (q : Addr)
    (hd1 : st.visitUnmark (st.memory (.functor p)) = .functor (.functor f)) (hmax : ¬ st.max ≤ st.frames.length + 32)
    (h : st.isVisitMarker (st.memory (.functor p)) = false) :
    st.visitAppl (numberHooks hStart) root q p =
      .go (st.push (.functor p) (.functor (.functor f)) (p + 1) (p + 1 + f.arityOfFE) none) := by
  rw [visitAppl, hd1]
  exact (if_neg hmax).trans (if_neg (Bool.eq_false_iff.mp h))

theorem numberTurn_var {v : Addr} (h : st.unboundVar = some v) : st.numberTurn hb hStart root = .go (st.numberVar hb v) := by
  rw [numberTurn, h]

theorem numberTurn_go {st' : WalkState NumberData} (h : st.unboundVar = none)
    (hturn : st.turn (numberHooks hStart) root = .go st') : st.numberTurn hb hStart root = .go st' := by
  rw [numberTurn, h]
  simp only [hturn]

end WalkState

namespace Stage

variable (g : Stage) (fs : List (Place × Addr × Addr)) (max : ℕ) (pt0 pt0End : Addr)

/-- The memory with marks in the open places. -/
def memory (path : List Place) (pl : Place) : WalkWord := (markIndex path pl).elim (cellWords g.heap g.store pl) .mark

/-- The walk with open places, each with the cells to return to. -/
def state (d0 : Option (Addr × WalkWord)) : WalkState NumberData where
  memory := g.memory (fs.map Prod.fst)
  trail := g.trail
  frames := fs.map fun f => ⟨f.1, cellWords g.heap g.store f.1, f.2.1, f.2.2⟩
  max := max
  pt0 := pt0
  pt0End := pt0End
  d0 := d0
  data := ⟨g.vno, g.heap.hr⟩

/-- A walk over the store of the stage. -/
def untrailed (d0 : Option (Addr × WalkWord)) : WalkState NumberData :=
  (WalkData.start ⟨g.vno, g.heap.hr⟩).state g.heap g.store fs max pt0 pt0End d0

/-- The walk when it starts again. -/
def restarted (hStart root : Addr) : WalkState NumberData where
  memory := WalkState.cleanTr g.trail (cellWords g.heap g.store)
  trail := []
  frames := []
  max := 2 * max
  pt0 := root
  pt0End := root + 1
  d0 := none
  data := ⟨g.vno, hStart⟩

/-- The walk at the contents of a cell. -/
def AtWord (a : Addr) (st : WalkState NumberData) : Prop :=
  ∃ q w, st = g.state fs max pt0 pt0End (some (q, w)) ∧ st.visitUnmark w = .cell (g.store.cell a)

variable {g fs max pt0 pt0End} {d0 : Option (Addr × WalkWord)} {pl : Place} {path : List Place}

-- ---------------------------------------------------------------------------
-- Marks
-- ---------------------------------------------------------------------------

theorem memory_eq {σ : Type} (data : σ) : g.memory path = (WalkData.start data).memory g.heap g.store path := by
  funext pl
  rw [memory, WalkData.memory, WalkData.start_beneath]

theorem state_eq : g.state fs max pt0 pt0End d0 = { g.untrailed fs max pt0 pt0End d0 with trail := g.trail } := by
  simp only [state, untrailed, WalkData.state, memory_eq (⟨g.vno, g.heap.hr⟩ : NumberData), WalkData.start_beneath]
  rfl

theorem memory_of_notMem (h : pl ∉ path) : g.memory path pl = cellWords g.heap g.store pl := by
  rw [memory, markIndex_of_notMem h]
  rfl

theorem isVisitMarker_memory (pl : Place) :
    (g.state fs max pt0 pt0End d0).isVisitMarker (g.memory (fs.map Prod.fst) pl) = decide (pl ∈ fs.map Prod.fst) := by
  have hmark : (g.untrailed fs max pt0 pt0End d0).isVisitMarker ((WalkData.start (⟨g.vno, g.heap.hr⟩ : NumberData)).memory
      g.heap g.store (fs.map Prod.fst) pl) = decide (pl ∈ fs.map Prod.fst) :=
    (WalkData.start_sound _).isVisitMarker_memory pl
  rw [state_eq, memory_eq (⟨g.vno, g.heap.hr⟩ : NumberData)]
  exact hmark

/-- A place is read through its mark. -/
theorem visitUnmark_memory (pl : Place) :
    (g.state fs max pt0 pt0End d0).visitUnmark (g.memory (fs.map Prod.fst) pl) = cellWords g.heap g.store pl := by
  have hread : (g.untrailed fs max pt0 pt0End d0).visitUnmark ((WalkData.start (⟨g.vno, g.heap.hr⟩ : NumberData)).memory
      g.heap g.store (fs.map Prod.fst) pl) = (WalkData.start _).beneath g.heap g.store pl :=
    (WalkData.start_sound _).visitUnmark_memory pl
  rw [WalkData.start_beneath] at hread
  rw [state_eq, memory_eq (⟨g.vno, g.heap.hr⟩ : NumberData)]
  exact hread

/-- A turn that reads a cell, perhaps through its mark. -/
theorem atWord_memory (q a : Addr) :
    g.AtWord fs max pt0 pt0End a (g.state fs max pt0 pt0End (some (q, g.memory (fs.map Prod.fst) (.arg a)))) :=
  ⟨q, _, rfl, visitUnmark_memory _⟩

/-- Writing to a place that is not marked. -/
theorem update_memory {g' : Stage} {w : WalkWord} (hpl : pl ∉ path)
    (h : cellWords g'.heap g'.store = Function.update (cellWords g.heap g.store) pl w) :
    Function.update (g.memory path) pl w = g'.memory path := by
  funext pl'
  by_cases hne : pl' = pl
  · subst hne
    rw [Function.update_self, memory_of_notMem hpl, h, Function.update_self]
  · rw [Function.update_of_ne hne, memory, memory, h, Function.update_of_ne hne]

theorem state_push (pl : Place) (a b : Addr) (d : Option (Addr × WalkWord)) :
    (g.state fs max pt0 pt0End d0).push pl (cellWords g.heap g.store pl) a b d =
      g.state ((pl, pt0, pt0End) :: fs) max a b d := by
  have hpush : (g.untrailed fs max pt0 pt0End d0).push pl ((WalkData.start _).beneath g.heap g.store pl) a b d =
      g.untrailed ((pl, pt0, pt0End) :: fs) max a b d := WalkData.state_push ..
  rw [WalkData.start_beneath] at hpush
  rw [state_eq, state_eq, ← hpush]
  rfl

theorem state_pop {a b : Addr} (h : pl ∉ fs.map Prod.fst) :
    (g.state ((pl, a, b) :: fs) max pt0 pt0End d0).pop ⟨pl, cellWords g.heap g.store pl, a, b⟩
        (g.state fs max a b none).frames = g.state fs max a b none := by
  have hpop : (g.untrailed ((pl, a, b) :: fs) max pt0 pt0End d0).pop ⟨pl, (WalkData.start _).beneath g.heap g.store pl, a, b⟩
      (g.untrailed fs max a b none).frames = g.untrailed fs max a b none := WalkData.state_pop h
  rw [WalkData.start_beneath] at hpop
  rw [state_eq, state_eq, ← hpop]
  rfl

theorem unwind_state (h : (fs.map Prod.fst).Nodup) :
    (g.state fs max pt0 pt0End d0).unwind = cellWords g.heap g.store := by
  have hunwind : (g.untrailed fs max pt0 pt0End d0).unwind = (WalkData.start _).beneath g.heap g.store :=
    WalkData.unwind_state h
  rw [WalkData.start_beneath] at hunwind
  rw [state_eq]
  exact hunwind

theorem auxOverflow_state (hStart root : Addr) (h : (fs.map Prod.fst).Nodup) :
    (g.state fs max pt0 pt0End d0).auxOverflow (numberHooks hStart) root = g.restarted max hStart root := by
  rw [WalkState.auxOverflow, unwind_state h]
  rfl

-- ---------------------------------------------------------------------------
-- References
-- ---------------------------------------------------------------------------

variable {hb hStart root a : Addr} {st : WalkState NumberData}

theorem AtWord.unboundVar_nonvar {d : Nonvar} (hst : g.AtWord fs max pt0 pt0End a st) (hcell : g.store.cell a = .nonvar d) :
    st.unboundVar = none := by
  obtain ⟨q, w, rfl, hw⟩ := hst
  exact WalkState.unboundVar_nonvar rfl (hw.trans (congrArg _ hcell))

theorem AtWord.unboundVar_ref {b : Addr} (hst : g.AtWord fs max pt0 pt0End a st) (hcell : g.store.cell a = .ref b) :
    st.unboundVar = if g.store.cell b = .ref b then some b else none := by
  obtain ⟨q, w, rfl, hw⟩ := hst
  have hmemory : (g.state fs max pt0 pt0End (some (q, w))).visitUnmark
      ((g.state fs max pt0 pt0End (some (q, w))).memory (.arg b)) = .cell (g.store.cell b) := visitUnmark_memory _
  rw [WalkState.unboundVar_ref rfl (hw.trans (congrArg _ hcell)), hmemory]
  simp only [WalkWord.cell.injEq]

/-- References are followed to a word or to an unbound variable. -/
theorem AtWord.walks_deref (hb hStart root : Addr) (hst : g.AtWord fs max pt0 pt0End a st) :
    ∃ b st', g.AtWord fs max pt0 pt0End b st' ∧ NumbersTo hb hStart root st st' ∧
      match g.store.deref (.ref a) with
      | .ref v => g.store.cell b = .ref v ∧ g.store.cell v = .ref v
      | .nonvar d => g.store.cell b = .nonvar d := by
  induction a using Store.deref_induction (s := g.store) generalizing st with
  | unbound a hcell =>
    refine ⟨a, st, hst, .refl, ?_⟩
    rw [Store.deref_of_unbound hcell]
    exact ⟨hcell, hcell⟩
  | ref a b hcell hb ih =>
    rw [Store.deref_of_cell hcell fun heq => hb (Cell.ref.inj heq)]
    by_cases hunbound : g.store.cell b = .ref b
    · refine ⟨a, st, hst, .refl, ?_⟩
      rw [Store.deref_of_unbound hunbound]
      exact ⟨hcell, hunbound⟩
    · have hnone := hst.unboundVar_ref hcell
      rw [if_neg hunbound] at hnone
      obtain ⟨q, w, rfl, hw⟩ := hst
      have hmemory : (g.state fs max pt0 pt0End (some (q, w))).visitUnmark
          ((g.state fs max pt0 pt0End (some (q, w))).memory (.arg b)) = .cell (g.store.cell b) := visitUnmark_memory _
      have hne : (g.state fs max pt0 pt0End (some (q, w))).visitUnmark
          ((g.state fs max pt0 pt0End (some (q, w))).memory (.arg b)) ≠ .cell (.ref b) := by
        rw [hmemory]
        exact fun heq => hunbound (WalkWord.cell.inj heq)
      have hgo := WalkState.turn_ref (numberHooks hStart) root rfl (hw.trans (congrArg _ hcell)) hne
      obtain ⟨c, st', hst', hwalks, hword⟩ := ih (atWord_memory b b)
      exact ⟨c, st', hst', .head (WalkState.numberTurn_go hnone hgo) hwalks, hword⟩
  | nonvar a d hcell =>
    refine ⟨a, st, hst, .refl, ?_⟩
    rw [deref_word hcell]
    exact hcell

-- ---------------------------------------------------------------------------
-- Visits
-- ---------------------------------------------------------------------------

/-- The writes for a variable. -/
theorem memory_number (hb v : Addr) (hfunctor : .functor g.heap.hr ∉ path) (harg : .arg (g.heap.hr + 1) ∉ path) :
    Function.update (Function.update
      (if decide (.arg v ∈ path) = true then g.memory path
        else Function.update (g.memory path) (.arg v) (.cell (.nonvar (.appl g.heap.hr))))
      (.functor g.heap.hr) (.functor (.functor functorDollarVar))) (.arg (g.heap.hr + 1)) (.cell (mkIntCell g.vno)) =
      (g.number hb v (decide (.arg v ∈ path))).memory path := by
  let g₁ : Stage := { g with store := g.bindStore v (decide (.arg v ∈ path)) }
  let g₂ : Stage := { g₁ with heap := (g.number hb v (decide (.arg v ∈ path))).heap }
  have hbind : (if decide (.arg v ∈ path) = true then g.memory path
      else Function.update (g.memory path) (.arg v) (.cell (.nonvar (.appl g.heap.hr)))) = g₁.memory path := by
    by_cases hv : .arg v ∈ path
    · rw [decide_eq_true hv, if_pos rfl]
      simp only [g₁, decide_eq_true hv]
      rfl
    · rw [decide_eq_false hv, if_neg Bool.false_ne_true]
      simp only [g₁, decide_eq_false hv]
      exact update_memory hv (cellWords_set _ _ _ _ (g.store.writable_nonvar _ _))
  have hwrite : Function.update (g₁.memory path) (.functor g.heap.hr) (.functor (.functor functorDollarVar)) =
      g₂.memory path := update_memory hfunctor (cellWords_functor ..)
  rw [hbind, hwrite]
  exact update_memory harg (cellWords_set _ _ _ _ (Store.writable_nonvar _ _ _))

/-- The writes are not to marked places. -/
theorem cellWords_number {v : Addr} (hfunctor : .functor g.heap.hr ∉ path) (harg : .arg (g.heap.hr + 1) ∉ path)
    (hpl : pl ∈ path) : cellWords (g.number hb v (decide (.arg v ∈ path))).heap
      (g.number hb v (decide (.arg v ∈ path))).store pl = cellWords g.heap g.store pl := by
  cases pl with
  | functor p => exact congrArg _ (number_functorAt fun heq => hfunctor (heq ▸ hpl))
  | arg a =>
    refine congrArg _ (number_cell (fun heq => harg (heq ▸ hpl)) fun hmark heq => ?_)
    exact of_decide_eq_false hmark (heq ▸ hpl)

/-- A variable that is not bound gets a number. -/
theorem AtWord.walks_number {v : Addr} (hst : g.AtWord fs max pt0 pt0End a st) (hcell : g.store.cell a = .ref v)
    (hv : g.store.cell v = .ref v) (hfunctor : .functor g.heap.hr ∉ fs.map Prod.fst)
    (harg : .arg (g.heap.hr + 1) ∉ fs.map Prod.fst) :
    NumbersTo hb hStart root st ((g.number hb v (decide (.arg v ∈ fs.map Prod.fst))).state fs max pt0 pt0End none) := by
  have hvar := hst.unboundVar_ref hcell
  rw [if_pos hv] at hvar
  refine .single ((WalkState.numberTurn_var hvar).trans (congrArg _ ?_))
  obtain ⟨q, w, rfl, -⟩ := hst
  have hmark : (g.state fs max pt0 pt0End (some (q, w))).isVisitMarker (g.memory (fs.map Prod.fst) (.arg v)) =
      decide (.arg v ∈ fs.map Prod.fst) := isVisitMarker_memory _
  have hmemory := memory_number hb v hfunctor harg
  have hframes : (g.state fs max pt0 pt0End (some (q, w))).frames =
      ((g.number hb v (decide (.arg v ∈ fs.map Prod.fst))).state fs max pt0 pt0End none).frames :=
    List.map_congr_left fun f hf => by rw [cellWords_number hfunctor harg (List.mem_map_of_mem hf)]
  rw [WalkState.numberVar_eq hmark (Int.natCast_nonneg _)]
  simp only [state] at hframes ⊢
  rw [hmemory, hframes]
  rfl

/-- A word without arguments. -/
theorem AtWord.walks_leaf {d : Nonvar} (hst : g.AtWord fs max pt0 pt0End a st) (hcell : g.store.cell a = .nonvar d)
    (hd : d.cells g.heap = []) : NumbersTo hb hStart root st (g.state fs max pt0 pt0End none) := by
  refine .single (WalkState.numberTurn_go (hst.unboundVar_nonvar hcell) ?_)
  obtain ⟨q, w, rfl, hw⟩ := hst
  rw [hcell] at hw
  cases d with
  | int n => exact WalkState.turn_int root hStart rfl hw
  | atom a => exact WalkState.turn_atom root hStart rfl hw
  | pair p => cases hd
  | appl p =>
    cases hf : g.heap.functorAt p with
    | functor f =>
      rw [Nonvar.cells, Nonvar.block, hf] at hd
      exact absurd (List.range'_eq_nil_iff.mp hd) (Nat.pos_iff_ne_zero.mp f.arity_pos)
    | blob b =>
      have hd1 : (g.state fs max pt0 pt0End (some (q, w))).visitUnmark
          ((g.state fs max pt0 pt0End (some (q, w))).memory (.functor p)) = .functor (.blob b) :=
        (visitUnmark_memory _).trans (congrArg WalkWord.functor hf)
      exact (WalkState.turn_appl _ root rfl hw).trans (WalkState.visitAppl_blob q hd1)

/-- A list that is open. -/
theorem AtWord.walks_openList {p : Addr} (hst : g.AtWord fs max pt0 pt0End a st) (hcell : g.store.cell a = .nonvar (.pair p))
    (hpath : .arg p ∈ fs.map Prod.fst) : NumbersTo hb hStart root st (g.state fs max pt0 pt0End none) := by
  refine .single (WalkState.numberTurn_go (hst.unboundVar_nonvar hcell) ?_)
  obtain ⟨q, w, rfl, hw⟩ := hst
  rw [hcell] at hw
  refine (WalkState.turn_pair _ root rfl hw).trans (WalkState.visitPair_open q ?_)
  exact (isVisitMarker_memory _).trans (decide_eq_true hpath)

/-- A list that is not open is marked, if there is room. -/
theorem AtWord.walks_list (hb hStart root : Addr) {p : Addr} (hst : g.AtWord fs max pt0 pt0End a st) (hcell : g.store.cell a = .nonvar (.pair p))
    (hpath : .arg p ∉ fs.map Prod.fst) (hnodup : (fs.map Prod.fst).Nodup) :
    if max ≤ fs.length + 33 then NumbersTo hb hStart root st (g.restarted max hStart root)
    else ∃ st', g.AtWord ((.arg p, pt0, pt0End) :: fs) max (p + 1) (p + 2) p st' ∧ NumbersTo hb hStart root st st' := by
  have hnone := hst.unboundVar_nonvar hcell
  obtain ⟨q, w, rfl, hw⟩ := hst
  rw [hcell] at hw
  have hturn := (WalkState.turn_pair (numberHooks hStart) root rfl hw).trans
    (WalkState.visitPair_closed hStart q ((isVisitMarker_memory _).trans (decide_eq_false hpath)) (visitUnmark_memory _))
  rw [state_push, WalkState.ifRoom] at hturn
  have hlength : (g.state ((.arg p, pt0, pt0End) :: fs) max (p + 1) (p + 2)
      (some (q, cellWords g.heap g.store (.arg p)))).frames.length = fs.length + 1 := by
    rw [state, List.length_map, List.length_cons]
  by_cases hmax : max ≤ fs.length + 33
  · have hnodup' : (((Place.arg p, pt0, pt0End) :: fs).map Prod.fst).Nodup := List.nodup_cons.mpr ⟨hpath, hnodup⟩
    rw [if_pos (by rw [hlength]; exact hmax), auxOverflow_state hStart root hnodup'] at hturn
    rw [if_pos hmax]
    exact .single (WalkState.numberTurn_go hnone hturn)
  · rw [if_neg hmax]
    rw [if_neg (by rw [hlength]; exact hmax)] at hturn
    exact ⟨_, ⟨q, _, rfl, WalkData.visitUnmark_of_ne_mark fun k h => by cases h⟩, .single (WalkState.numberTurn_go hnone hturn)⟩

/-- A compound: it is open, or it is marked, if there is room. -/
theorem AtWord.walks_compound (hb hStart root : Addr) {p : Addr} {f : Functor} (hst : g.AtWord fs max pt0 pt0End a st)
    (hcell : g.store.cell a = .nonvar (.appl p)) (hf : g.heap.functorAt p = .functor f) (hnodup : (fs.map Prod.fst).Nodup) :
    if max ≤ fs.length + 32 then NumbersTo hb hStart root st (g.restarted max hStart root)
    else if .functor p ∈ fs.map Prod.fst then NumbersTo hb hStart root st (g.state fs max pt0 pt0End none)
    else NumbersTo hb hStart root st
      (g.state ((.functor p, pt0, pt0End) :: fs) max (p + 1) (p + 1 + f.arityOfFE) none) := by
  have hnone := hst.unboundVar_nonvar hcell
  obtain ⟨q, w, rfl, hw⟩ := hst
  rw [hcell] at hw
  have hturn := WalkState.turn_appl (numberHooks hStart) root rfl hw
  have hd1 : (g.state fs max pt0 pt0End (some (q, w))).visitUnmark
      ((g.state fs max pt0 pt0End (some (q, w))).memory (.functor p)) = .functor (.functor f) :=
    (visitUnmark_memory _).trans (congrArg WalkWord.functor hf)
  have hmark : (g.state fs max pt0 pt0End (some (q, w))).isVisitMarker
      ((g.state fs max pt0 pt0End (some (q, w))).memory (.functor p)) = decide (.functor p ∈ fs.map Prod.fst) :=
    isVisitMarker_memory _
  have hlength : (g.state fs max pt0 pt0End (some (q, w))).frames.length = fs.length := List.length_map _
  by_cases hmax : max ≤ fs.length + 32
  · rw [WalkState.visitAppl_full q hd1 (hlength.symm ▸ hmax), auxOverflow_state hStart root hnodup] at hturn
    rw [if_pos hmax]
    exact .single (WalkState.numberTurn_go hnone hturn)
  · rw [if_neg hmax]
    by_cases hpath : .functor p ∈ fs.map Prod.fst
    · rw [if_pos hpath]
      rw [WalkState.visitAppl_open q hd1 (hlength.symm ▸ hmax) (hmark.trans (decide_eq_true hpath))] at hturn
      exact .single (WalkState.numberTurn_go hnone hturn)
    · rw [if_neg hpath]
      have hfunctor : cellWords g.heap g.store (.functor p) = .functor (.functor f) := congrArg WalkWord.functor hf
      rw [WalkState.visitAppl_closed q hd1 (hlength.symm ▸ hmax) (hmark.trans (decide_eq_false hpath)), ← hfunctor,
        state_push] at hturn
      exact .single (WalkState.numberTurn_go hnone hturn)

-- ---------------------------------------------------------------------------
-- Blocks
-- ---------------------------------------------------------------------------

/-- The next cell is read. -/
theorem walks_read (h : pt0 < pt0End) : ∃ st', g.AtWord fs max (pt0 + 1) pt0End pt0 st' ∧
    NumbersTo hb hStart root (g.state fs max pt0 pt0End none) st' := by
  have hturn : (g.state fs max pt0 pt0End none).turn (numberHooks hStart) root =
      .go (g.state fs max (pt0 + 1) pt0End (some (pt0, g.memory (fs.map Prod.fst) (.arg pt0)))) := if_pos h
  exact ⟨_, atWord_memory pt0 pt0, .single (WalkState.numberTurn_go rfl hturn)⟩

/-- At the end of a block the walk returns to the block above. -/
theorem walks_pop {a b : Addr} (h : ¬ pt0 < pt0End) (hpl : pl ∉ fs.map Prod.fst) :
    NumbersTo hb hStart root (g.state ((pl, a, b) :: fs) max pt0 pt0End none) (g.state fs max a b none) := by
  refine .single (WalkState.numberTurn_go rfl ?_)
  rw [← state_pop hpl]
  exact if_neg h

variable (g fs max pt0End) in
/-- The walk has these cells to visit, in a block that ends here. -/
def AtItems (as : List Addr) (st : WalkState NumberData) : Prop :=
  ∃ pt0, (st = g.state fs max pt0 pt0End none ∧ as = remaining pt0 pt0End) ∨
    ∃ a, g.AtWord fs max pt0 pt0End a st ∧ as = a :: remaining pt0 pt0End

variable {as : List Addr}

/-- The next word is read. -/
theorem AtItems.exists_atWord (hb hStart root : Addr) (hst : g.AtItems fs max pt0End (a :: as) st) :
    ∃ pt0 st', g.AtWord fs max pt0 pt0End a st' ∧ as = remaining pt0 pt0End ∧ NumbersTo hb hStart root st st' := by
  obtain ⟨pt0, ⟨rfl, hitems⟩ | ⟨b, hword, hitems⟩⟩ := hst
  · obtain ⟨hlt, rfl, rfl⟩ := remaining_eq_cons hitems.symm
    obtain ⟨st', hst', hwalks⟩ := walks_read hlt
    exact ⟨_, st', hst', rfl, hwalks⟩
  · obtain ⟨rfl, rfl⟩ := List.cons.inj hitems
    exact ⟨pt0, st, hword, rfl, .refl⟩

/-- References from the next cell are followed to a word. -/
theorem AtItems.exists_word (hb hStart root : Addr) {d : Nonvar} (hst : g.AtItems fs max pt0End (a :: as) st)
    (hd : g.store.deref (.ref a) = .nonvar d) :
    ∃ pt0 b st', g.AtWord fs max pt0 pt0End b st' ∧ g.store.cell b = .nonvar d ∧ as = remaining pt0 pt0End ∧
      NumbersTo hb hStart root st st' := by
  obtain ⟨pt0, st₁, hword, hcells, hwalks⟩ := hst.exists_atWord hb hStart root
  obtain ⟨b, st₂, hword₂, hwalks₂, hend⟩ := hword.walks_deref hb hStart root
  rw [hd] at hend
  exact ⟨pt0, b, st₂, hword₂, hend, hcells, hwalks.trans hwalks₂⟩

/-- References from the next cell are followed to an unbound variable. -/
theorem AtItems.exists_var (hb hStart root : Addr) {v : Addr} (hst : g.AtItems fs max pt0End (a :: as) st)
    (hd : g.store.deref (.ref a) = .ref v) :
    ∃ pt0 b st', g.AtWord fs max pt0 pt0End b st' ∧ g.store.cell b = .ref v ∧ g.store.cell v = .ref v ∧
      as = remaining pt0 pt0End ∧ NumbersTo hb hStart root st st' := by
  obtain ⟨pt0, st₁, hword, hcells, hwalks⟩ := hst.exists_atWord hb hStart root
  obtain ⟨b, st₂, hword₂, hwalks₂, hend⟩ := hword.walks_deref hb hStart root
  rw [hd] at hend
  exact ⟨pt0, b, st₂, hword₂, hend.1, hend.2, hcells, hwalks.trans hwalks₂⟩

theorem AtItems.eq_state (hst : g.AtItems fs max pt0End [] st) :
    ∃ pt0, st = g.state fs max pt0 pt0End none ∧ ¬ pt0 < pt0End := by
  obtain ⟨pt0, ⟨rfl, hitems⟩ | ⟨b, -, hitems⟩⟩ := hst
  · refine ⟨pt0, rfl, fun hlt => ?_⟩
    rw [remaining_of_lt hlt] at hitems
    cases hitems
  · cases hitems

/-- A variable that is bound is entered as a compound. -/
theorem AtWord.walks_isNumber (hb hStart root : Addr) {base p : ℕ} (hst : g.AtWord fs max pt0 pt0End a st)
    (hcell : g.store.cell a = .nonvar (.appl p)) (hp : IsNumber base g p) (hnodup : (fs.map Prod.fst).Nodup)
    (hpath : .functor p ∉ fs.map Prod.fst) :
    if max ≤ fs.length + 32 then NumbersTo hb hStart root st (g.restarted max hStart root)
    else NumbersTo hb hStart root st (g.state fs max pt0 pt0End none) := by
  have hcompound := hst.walks_compound hb hStart root hcell hp.functor hnodup
  rw [if_neg hpath] at hcompound
  by_cases hmax : max ≤ fs.length + 32
  · rw [if_pos hmax] at hcompound ⊢
    exact hcompound
  · rw [if_neg hmax] at hcompound ⊢
    obtain ⟨n, harg⟩ := hp.arg
    obtain ⟨st', hst', hread⟩ := walks_read (g := g) (Nat.lt_succ_self (p + 1))
    exact hcompound.trans (hread.trans ((hst'.walks_leaf harg rfl).trans (walks_pop (lt_irrefl _) hpath)))

end Stage

-- ---------------------------------------------------------------------------
-- Passes
-- ---------------------------------------------------------------------------

/-- The address of a place. -/
def Place.addr : Place → Addr
  | .arg a => a
  | .functor p => p

/-- The walk comes to a state of a kind, or it starts again, as a pass does. -/
def WalksPass (hp : Heap) (s : Store) (hb root : Addr) (max : ℕ) (st : WalkState NumberData) (r : Except Stage Stage)
    (E : Stage → WalkState NumberData → Prop) : Prop :=
  match r with
  | .ok g => g.Grows hp s ∧ ∃ st', E g st' ∧ NumbersTo hb hp.hr root st st'
  | .error g => NumbersTo hb hp.hr root st (g.restarted max hp.hr root)

theorem Stage.pass_append (hb : Addr) (max : ℕ) (g : Stage) (vis vis' : List Visit) :
    g.pass hb max (vis ++ vis') = (g.pass hb max vis).bind fun g' => g'.pass hb max vis' := by
  induction vis generalizing g with
  | nil => rfl
  | cons x vis ih =>
    rw [List.cons_append]
    cases x with
    | test n =>
      rw [pass, pass]
      split
      case isTrue => rfl
      case isFalse => exact ih g
    | var v m d =>
      rw [pass, pass]
      split
      case isTrue =>
        split
        case isTrue => rfl
        case isFalse => exact ih g
      case isFalse => exact ih _

namespace WalksPass

variable {hp : Heap} {s : Store} {hb root : Addr} {max : ℕ} {st st' : WalkState NumberData} {r : Except Stage Stage}
  {E E' : Stage → WalkState NumberData → Prop}

theorem of_walks (h : WalksPass hp s hb root max st' r E) (hwalks : NumbersTo hb hp.hr root st st') :
    WalksPass hp s hb root max st r E := by
  cases r with
  | ok g =>
    obtain ⟨hg, st'', hst'', hreach⟩ := h
    exact ⟨hg, st'', hst'', hwalks.trans hreach⟩
  | error g => exact hwalks.trans h

theorem bind {f : Stage → Except Stage Stage} (h : WalksPass hp s hb root max st r E)
    (hrest : ∀ g st', g.Grows hp s → E g st' → WalksPass hp s hb root max st' (f g) E') :
    WalksPass hp s hb root max st (r.bind f) E' := by
  cases r with
  | ok g =>
    obtain ⟨hg, st', hst', hreach⟩ := h
    exact (hrest g st' hg hst').of_walks hreach
  | error g => exact h

end WalksPass

/-- The walk makes the pass of its visits. -/
theorem HasVisits.walks {hp : Heap} {s : Store} {R : Finset Addr} {path : List Place} {as : List Addr} {vis : List Visit}
    (hR : BelowHr hp s R) (hv : HasVisits hp s path as vis) (hb root : Addr) (max : ℕ) (g : Stage)
    (fs : List (Place × Addr × Addr)) (pt0End : Addr) (st : WalkState NumberData) (hg : g.Grows hp s)
    (hpath : path = fs.map Prod.fst) (hnodup : path.Nodup) (hold : ∀ pl ∈ path, pl.addr < hp.hr) (has : ∀ a ∈ as, a ∈ R)
    (hst : g.AtItems fs max pt0End as st) :
    WalksPass hp s hb root max st (g.pass hb max vis) fun g' => g'.AtItems fs max pt0End [] := by
  have hnew : ∀ {path : List Place} {pl : Place}, (∀ pl ∈ path, pl.addr < hp.hr) → hp.hr ≤ pl.addr → pl ∉ path :=
    fun hold hpl hmem => absurd (hold _ hmem) (not_lt.mpr hpl)
  induction hv generalizing g fs pt0End st with
  | nil => exact ⟨hg, st, hst, .refl⟩
  | @var path a v as vis hderef _ ih =>
    obtain ⟨ha, hrest⟩ := List.forall_mem_cons.mp has
    subst hpath
    rw [Stage.pass]
    rcases hR.grows_var hg ha hderef with ⟨hunbound, hd⟩ | ⟨hbound, p, hd, hnumber⟩
    · obtain ⟨hv, hcell⟩ := hR.var_mem ha hderef
      obtain ⟨pt0, b, st₁, hword, hb, hv', hcells, hwalks⟩ := hst.exists_var _ _ _ hd
      refine WalksPass.of_walks ?_ (hwalks.trans (hword.walks_number hb hv' (hnew hold hg.hr_le)
        (hnew hold (hg.hr_le.trans (Nat.le_succ _)))))
      rw [if_neg hunbound]
      exact ih _ fs pt0End _ (hg.number (hR.cell v hv) hcell) rfl hnodup hold hrest ⟨pt0, .inl ⟨rfl, hcells⟩⟩
    · obtain ⟨pt0, b, st₁, hword, hb', hcells, hwalks⟩ := hst.exists_word _ _ _ hd
      refine WalksPass.of_walks ?_ hwalks
      have hwalks₂ := hword.walks_isNumber hb hp.hr root hb' hnumber hnodup (hnew hold hnumber.base_le)
      rw [List.length_map, if_pos hbound]
      by_cases hmax : max ≤ fs.length + 32
      · rw [if_pos hmax] at hwalks₂ ⊢
        exact hwalks₂
      · rw [if_neg hmax] at hwalks₂ ⊢
        exact (ih g fs pt0End _ hg rfl hnodup hold hrest ⟨pt0, .inl ⟨rfl, hcells⟩⟩).of_walks hwalks₂
  | leaf hderef hd _ ih =>
    obtain ⟨ha, hrest⟩ := List.forall_mem_cons.mp has
    obtain ⟨pt0, b, st₁, hword, hb', hcells, hwalks⟩ := hst.exists_word _ _ _ (hR.grows_word hg ha hderef)
    refine WalksPass.of_walks ?_ (hwalks.trans (hword.walks_leaf hb' (hR.grows_leaf hg ha hderef hd)))
    exact ih g fs pt0End _ hg hpath hnodup hold hrest ⟨pt0, .inl ⟨rfl, hcells⟩⟩
  | openList hderef hopen _ ih =>
    obtain ⟨ha, hrest⟩ := List.forall_mem_cons.mp has
    obtain ⟨pt0, b, st₁, hword, hb', hcells, hwalks⟩ := hst.exists_word _ _ _ (hR.grows_word hg ha hderef)
    refine WalksPass.of_walks ?_ (hwalks.trans (hword.walks_openList hb' (hpath ▸ hopen)))
    exact ih g fs pt0End _ hg hpath hnodup hold hrest ⟨pt0, .inl ⟨rfl, hcells⟩⟩
  | @list path a p as vis vis' hderef hopen _ _ ihargs ih =>
    obtain ⟨ha, hrest⟩ := List.forall_mem_cons.mp has
    subst hpath
    obtain ⟨pt0, b, st₁, hword, hb', hcells, hwalks⟩ := hst.exists_word _ _ _ (hR.grows_word hg ha hderef)
    have hargs : ∀ b ∈ [p, p + 1], b ∈ R := by simpa using hR.args ha hderef
    have hnodup' : (((Place.arg p, pt0, pt0End) :: fs).map Prod.fst).Nodup := List.nodup_cons.mpr ⟨hopen, hnodup⟩
    have hold' : ∀ pl ∈ Place.arg p :: fs.map Prod.fst, pl.addr < hp.hr :=
      List.forall_mem_cons.mpr ⟨hR.cell p (hargs p (List.mem_cons_self ..)), hold⟩
    have hlist := hword.walks_list hb hp.hr root hb' hopen hnodup
    refine WalksPass.of_walks ?_ hwalks
    rw [List.cons_append, Stage.pass, List.length_map]
    by_cases hmax : max ≤ fs.length + 33
    · rw [if_pos hmax] at hlist ⊢
      exact hlist
    · rw [if_neg hmax] at hlist ⊢
      obtain ⟨st₂, hst₂, hwalks₂⟩ := hlist
      have hitems : g.AtItems ((.arg p, pt0, pt0End) :: fs) max (p + 2) [p, p + 1] st₂ :=
        ⟨p + 1, .inr ⟨p, hst₂, by rw [remaining_one]⟩⟩
      rw [Stage.pass_append]
      refine ((ihargs g _ _ st₂ hg rfl hnodup' hold' hargs hitems).of_walks hwalks₂).bind fun g' st₃ hg' hst₃ => ?_
      obtain ⟨pt0', rfl, hend⟩ := hst₃.eq_state
      exact (ih g' fs pt0End _ hg' rfl hnodup hold hrest ⟨pt0, .inl ⟨rfl, hcells⟩⟩).of_walks (Stage.walks_pop hend hopen)
  | @openCompound path a p f as vis hderef hf hopen _ ih =>
    obtain ⟨ha, hrest⟩ := List.forall_mem_cons.mp has
    subst hpath
    obtain ⟨pt0, b, st₁, hword, hb', hcells, hwalks⟩ := hst.exists_word _ _ _ (hR.grows_word hg ha hderef)
    have hf' := (hg.functors p (hR.appl_lt ha hderef)).trans hf
    have hcompound := hword.walks_compound hb hp.hr root hb' hf' hnodup
    refine WalksPass.of_walks ?_ hwalks
    rw [Stage.pass, List.length_map]
    by_cases hmax : max ≤ fs.length + 32
    · rw [if_pos hmax] at hcompound ⊢
      exact hcompound
    · rw [if_neg hmax, if_pos hopen] at hcompound
      rw [if_neg hmax]
      exact (ih g fs pt0End _ hg rfl hnodup hold hrest ⟨pt0, .inl ⟨rfl, hcells⟩⟩).of_walks hcompound
  | @compound path a p f as vis vis' hderef hf hopen _ _ ihargs ih =>
    obtain ⟨ha, hrest⟩ := List.forall_mem_cons.mp has
    subst hpath
    obtain ⟨pt0, b, st₁, hword, hb', hcells, hwalks⟩ := hst.exists_word _ _ _ (hR.grows_word hg ha hderef)
    have hlt := hR.appl_lt ha hderef
    have hargs : ∀ b ∈ List.range' (p + 1) f.arityOfFE, b ∈ R := by
      have hmem := hR.args ha hderef
      rwa [Nonvar.cells, Nonvar.block, hf] at hmem
    have hnodup' : (((Place.functor p, pt0, pt0End) :: fs).map Prod.fst).Nodup := List.nodup_cons.mpr ⟨hopen, hnodup⟩
    have hold' : ∀ pl ∈ Place.functor p :: fs.map Prod.fst, pl.addr < hp.hr := List.forall_mem_cons.mpr ⟨hlt, hold⟩
    have hcompound := hword.walks_compound hb hp.hr root hb' ((hg.functors p hlt).trans hf) hnodup
    refine WalksPass.of_walks ?_ hwalks
    rw [List.cons_append, Stage.pass, List.length_map]
    by_cases hmax : max ≤ fs.length + 32
    · rw [if_pos hmax] at hcompound ⊢
      exact hcompound
    · rw [if_neg hmax, if_neg hopen] at hcompound
      have hblock : List.range' (p + 1) f.arityOfFE = remaining (p + 1) (p + 1 + f.arityOfFE) := by
        rw [remaining, Nat.add_sub_cancel_left]
      rw [if_neg hmax, Stage.pass_append]
      refine ((ihargs g _ _ _ hg rfl hnodup' hold' hargs ⟨p + 1, .inl ⟨rfl, hblock⟩⟩).of_walks hcompound).bind
        fun g' st₃ hg' hst₃ => ?_
      obtain ⟨pt0', rfl, hend⟩ := hst₃.eq_state
      exact (ih g' fs pt0End _ hg' rfl hnodup hold hrest ⟨pt0, .inl ⟨rfl, hcells⟩⟩).of_walks (Stage.walks_pop hend hopen)

end Yap
