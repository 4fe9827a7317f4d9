-- SUMMARY: The search for a cycle with its marks written to memory: what it restores when it is left, and that it finds exactly the words below themselves.
import Yap.Base.Machine
import Yap.Base.Trail
import Yap.OccursCheck.Tree

/-!
# Marks in memory

`Yap_rational_tree_loop` writes `TermFoundVar` to the argument cells that it is
below, and keeps what was in them on its stack. The search without memory is the
one of `TreeState`, where the marks are a list.
-/

namespace Yap

open Relation

-- ---------------------------------------------------------------------------
-- The loop
-- ---------------------------------------------------------------------------

/-- The contents of a cell while terms are marked. -/
inductive MarkedCell where
  | cell (c : Cell)
  | foundVar
deriving DecidableEq

/-- The memory, the block of cells, the blocks to return to with the marked cell they
    were left at and what was in it, and the word that is dereferenced with the cell
    it has been read from. -/
structure TreeLoop where
  memory : Addr → MarkedCell
  pt0 : Addr
  pt0End : Addr
  toVisit : List (Addr × Addr × MarkedCell)
  d0 : Option (Addr × MarkedCell)

namespace TreeLoop

def next (st : TreeLoop) : TreeLoop := { st with pt0 := st.pt0 + 1, d0 := none }

/-- Marks the cell and goes to the arguments of its word. -/
def descend (st : TreeLoop) (l : Addr) (n : ℕ) : TreeLoop where
  memory := Function.update st.memory st.pt0 .foundVar
  pt0 := l
  pt0End := l + n
  toVisit := (st.pt0, st.pt0End, st.memory st.pt0) :: st.toVisit
  d0 := none

/-- Writes back what the stack keeps. -/
def unwind (st : TreeLoop) : Addr → MarkedCell :=
  Trail.rewind (st.toVisit.map fun fr => (fr.1, fr.2.2)) st.memory

variable (hp : Heap)

/-- One turn of `Yap_rational_tree_loop`; following a reference is a turn. -/
def turn (st : TreeLoop) : Turn TreeLoop (Bool × (Addr → MarkedCell)) :=
  match st.d0 with
  | none =>
    if st.pt0 < st.pt0End then .go { st with d0 := some (st.pt0, st.memory st.pt0) }
    else
      match st.toVisit with
      | [] => .exit (false, st.memory)
      | (pt0, pt0End, old) :: toVisit => .go ⟨Function.update st.memory pt0 old, pt0 + 1, pt0End, toVisit, none⟩
  | some (ptd0, .cell (.ref a)) => if a = ptd0 then .go st.next else .go { st with d0 := some (a, st.memory a) }
  | some (_, .cell (.nonvar (.pair p))) => .go (st.descend p 2)
  | some (_, .cell (.nonvar (.appl p))) =>
    match hp.functorAt p with
    | .functor f => .go (st.descend (p + 1) f.arityOfFE)
    | .blob _ => .go st.next
  | some (_, .cell (.nonvar _)) => .go st.next
  | some (_, .foundVar) => .exit (true, st.unwind)

end TreeLoop

/-- The words of a store, with no marks. -/
def Store.unmarked (s : Store) (a : Addr) : MarkedCell := .cell (s.cell a)

/-- `Yap_rational_tree_loop` on the `n` cells from `l`: its answer and the memory it leaves. -/
def rationalTreeLoop (hp : Heap) (s : Store) (l : Addr) (n : ℕ) : Bool × (Addr → MarkedCell) → Prop :=
  Machine.Returns (TreeLoop.turn hp) ⟨s.unmarked, l, l + n, [], none⟩

variable {hp : Heap} {s : Store} {R : Finset Addr}

-- ---------------------------------------------------------------------------
-- What is restored
-- ---------------------------------------------------------------------------

/-- A turn does not change the memory behind the marks. -/
theorem TreeLoop.unwind_go {st st' : TreeLoop} (h : st.turn hp = .go st') : st'.unwind = st.unwind := by
  unfold turn at h
  split at h
  case h_1 =>
    split at h
    case isTrue => exact Turn.go.inj h ▸ rfl
    case isFalse =>
      split at h
      case h_1 => cases h
      case h_2 pt0 pt0End old toVisit hv =>
        obtain rfl := Turn.go.inj h
        rw [unwind, unwind, hv]
        rfl
  case h_2 ptd0 a _ => split at h <;> exact Turn.go.inj h ▸ rfl
  case h_3 =>
    obtain rfl := Turn.go.inj h
    exact Trail.rewind_update ..
  case h_4 =>
    split at h
    case h_1 =>
      obtain rfl := Turn.go.inj h
      exact Trail.rewind_update ..
    case h_2 => exact Turn.go.inj h ▸ rfl
  case h_5 => exact Turn.go.inj h ▸ rfl
  case h_6 => cases h

/-- Both exits leave the memory behind the marks. -/
theorem TreeLoop.exit_memory {st : TreeLoop} {found : Bool} {m : Addr → MarkedCell}
    (h : st.turn hp = .exit (found, m)) : m = st.unwind := by
  unfold turn at h
  split at h
  case h_1 =>
    split at h
    case isTrue => cases h
    case isFalse =>
      split at h
      case h_1 hv =>
        obtain ⟨-, rfl⟩ := Prod.mk.inj (Turn.exit.inj h)
        rw [unwind, hv]
        rfl
      case h_2 => cases h
  case h_2 => split at h <;> cases h
  case h_3 => cases h
  case h_4 => split at h <;> cases h
  case h_5 => cases h
  case h_6 => exact (Prod.mk.inj (Turn.exit.inj h)).2.symm

theorem rationalTreeLoop_memory {l : Addr} {n : ℕ} {found : Bool} {m : Addr → MarkedCell}
    (h : rationalTreeLoop hp s l n (found, m)) : m = s.unmarked := by
  obtain ⟨st, hreach, hexit⟩ := h.exists_exit
  have hunwind := Machine.invariant (P := fun st => st.unwind = s.unmarked)
    (fun st st' hst hgo => (TreeLoop.unwind_go hgo).trans hst) hreach rfl
  exact (TreeLoop.exit_memory hexit).trans hunwind

-- ---------------------------------------------------------------------------
-- Words below themselves
-- ---------------------------------------------------------------------------

variable (hp s) in
/-- A word that an argument of another one is, through references. -/
def Nonvar.Argument (e d : Nonvar) : Prop := ∃ a ∈ d.cells hp, s.deref (.ref a) = .nonvar e

variable (hp s) in
/-- A word that the cells lead to. -/
def LeadTo (as : List Addr) (d : Nonvar) : Prop :=
  ∃ a ∈ as, ∃ e, s.deref (.ref a) = .nonvar e ∧ ReflTransGen (fun x y => Nonvar.Argument hp s y x) e d

variable (hp s) in
/-- The cells lead to a compound that is reached from itself through arguments. -/
def HasLoop (as : List Addr) : Prop := ∃ d, LeadTo hp s as d ∧ TransGen (Nonvar.Argument hp s) d d

theorem LeadTo.argument {as : List Addr} {d e : Nonvar} (h : LeadTo hp s as d) (he : e.Argument hp s d) :
    LeadTo hp s as e := by
  obtain ⟨a, ha, c, hc, hreach⟩ := h
  exact ⟨a, ha, c, hc, hreach.tail he⟩

/-- In a valuation arguments have smaller values. -/
theorem Models.size_argument {σ : Addr → Term} (hσ : Models hp R s.cell σ) (hR : Closed hp R s.cell)
    {d e : Nonvar} (hd : (Cell.nonvar d).Within hp R) (he : e.Argument hp s d) :
    (Cell.nonvar e).Within hp R ∧ (e.value hp σ).size < (d.value hp σ).size := by
  obtain ⟨a, ha, hderef⟩ := he
  have hwithin := Store.deref_within hR (Cell.within_ref.mpr (hd a ha))
  have hvalue := hσ.deref hR (Cell.within_ref.mpr (hd a ha))
  rw [hderef] at hwithin hvalue
  have hvalue' : e.value hp σ = σ a := hvalue
  exact ⟨hwithin, hvalue' ▸ Nonvar.size_lt ha⟩

theorem Models.size_transGen {σ : Addr → Term} (hσ : Models hp R s.cell σ) (hR : Closed hp R s.cell)
    {d e : Nonvar} (hd : (Cell.nonvar d).Within hp R) (he : TransGen (Nonvar.Argument hp s) e d) :
    (Cell.nonvar e).Within hp R ∧ (e.value hp σ).size < (d.value hp σ).size := by
  induction he using TransGen.head_induction_on with
  | single hstep => exact hσ.size_argument hR hd hstep
  | head hstep _ ih =>
    obtain ⟨hwithin, hlt⟩ := hσ.size_argument hR ih.1 hstep
    exact ⟨hwithin, hlt.trans ih.2⟩

theorem LeadTo.within (hR : Closed hp R s.cell) {as : List Addr} (has : ∀ a ∈ as, a ∈ R) {d : Nonvar}
    (h : LeadTo hp s as d) : (Cell.nonvar d).Within hp R := by
  obtain ⟨a, ha, e, he, hreach⟩ := h
  induction hreach with
  | refl => exact he ▸ Store.deref_within hR (Cell.within_ref.mpr (has a ha))
  | tail _ hstep ih =>
    obtain ⟨b, hb, hderef⟩ := hstep
    exact hderef ▸ Store.deref_within hR (Cell.within_ref.mpr (ih b hb))

/-- Without a loop the words that the cells lead to unfold. -/
theorem unfolds_of_not_hasLoop (hR : Closed hp R s.cell) {as : List Addr} (has : ∀ a ∈ as, a ∈ R)
    (h : ¬ HasLoop hp s as) {d : Nonvar} (hd : LeadTo hp s as d) : ∃ u, Unfolds hp s.cell (.nonvar d) u := by
  let W := {d // LeadTo hp s as d}
  have hfinite : Finite W := by
    refine Set.Finite.subset (s := {d | ∃ a ∈ R, s.deref (.ref a) = .nonvar d}) ?_ ?_
    · refine Set.Finite.of_finite_image (f := Cell.nonvar) ?_ fun _ _ _ _ heq => Cell.nonvar.inj heq
      refine (R.finite_toSet.image fun a => s.deref (.ref a)).subset ?_
      rintro _ ⟨d, ⟨a, ha, hd⟩, rfl⟩
      exact ⟨a, ha, hd⟩
    · rintro d hd
      obtain ⟨a, ha, e, he, hreach⟩ := hd
      cases hreach with
      | refl => exact ⟨a, has a ha, he⟩
      | tail hreach hstep =>
        obtain ⟨b, hb, hderef⟩ := hstep
        exact ⟨b, LeadTo.within hR has ⟨a, ha, e, he, hreach⟩ b hb, hderef⟩
  let below : W → W → Prop := fun e d => TransGen (Nonvar.Argument hp s) e.1 d.1
  have htrans : IsTrans W below := ⟨fun _ _ _ h₁ h₂ => h₁.trans h₂⟩
  have hirrefl : Std.Irrefl below := ⟨fun d hloop => h ⟨d.1, d.2, hloop⟩⟩
  have hwf : WellFounded below := Finite.wellFounded_of_trans_of_irrefl below
  suffices ∀ w : W, ∃ u, Unfolds hp s.cell (.nonvar w.1) u from this ⟨d, hd⟩
  intro w
  induction w using hwf.induction with
  | h w ih =>
    refine unfolds_of_cells fun a ha => ?_
    simp only [← unfolds_deref (s := s) (c := .ref a)]
    cases hderef : s.deref (.ref a) with
    | ref v => exact ⟨_, .unbound (Store.unbound_of_deref hderef)⟩
    | nonvar e =>
      have he : e.Argument hp s w.1 := ⟨a, ha, hderef⟩
      exact ih ⟨e, w.2.argument he⟩ (.single he)

/-- Cells of a finite term graph unfold exactly if they lead to no loop. -/
theorem unfolds_iff_not_hasLoop (hR : Closed hp R s.cell) {as : List Addr} (has : ∀ a ∈ as, a ∈ R) :
    (∀ a ∈ as, ∃ u, Unfolds hp s.cell (.ref a) u) ↔ ¬ HasLoop hp s as := by
  constructor
  · rintro hunfolds ⟨d, hd, hloop⟩
    obtain ⟨R', has', hR'⟩ := exists_region hunfolds
    have hσ := models_solution hR' .var
    exact lt_irrefl _ (hσ.size_transGen hR'.closed (LeadTo.within hR'.closed has' hd) hloop).2
  · intro h a ha
    simp only [← unfolds_deref (s := s) (c := .ref a)]
    cases hderef : s.deref (.ref a) with
    | ref v => exact ⟨_, .unbound (Store.unbound_of_deref hderef)⟩
    | nonvar d => exact unfolds_of_not_hasLoop hR has h ⟨a, ha, d, hderef, .refl⟩

-- ---------------------------------------------------------------------------
-- The search without memory
-- ---------------------------------------------------------------------------

/-- The memory that holds marks in these cells. -/
def Store.marked (s : Store) (marks : List Addr) (a : Addr) : MarkedCell :=
  if a ∈ marks then .foundVar else .cell (s.cell a)

theorem Store.marked_of_notMem {marks : List Addr} {a : Addr} (h : a ∉ marks) : s.marked marks a = .cell (s.cell a) :=
  if_neg h

/-- Marking a cell. -/
theorem Store.update_marked (s : Store) (marks : List Addr) (p : Addr) :
    Function.update (s.marked marks) p .foundVar = s.marked (p :: marks) := by
  funext a
  by_cases ha : a = p
  · rw [ha, Function.update_self]
    exact (if_pos (List.mem_cons_self ..)).symm
  · have hiff : a ∈ p :: marks ↔ a ∈ marks := List.mem_cons.trans (or_iff_right ha)
    rw [Function.update_of_ne ha]
    exact (if_congr hiff rfl rfl).symm

/-- Writing a marked cell back. -/
theorem Store.update_marked_cons {marks : List Addr} {p : Addr} (h : p ∉ marks) :
    Function.update (s.marked (p :: marks)) p (.cell (s.cell p)) = s.marked marks := by
  rw [← s.update_marked, Function.update_idem, ← Store.marked_of_notMem h, Function.update_eq_self]

/-- Following a reference, from a word with the cell it has been read from. -/
inductive Follows (m : Addr → MarkedCell) : Addr × MarkedCell → Addr × MarkedCell → Prop
  | ref {p a : Addr} : a ≠ p → Follows m (p, .cell (.ref a)) (a, m a)

/-- Following references ends at a mark or at the word that they lead to. -/
theorem exists_follows (s : Store) (marks : List Addr) (a : Addr) :
    ∃ b, ReflTransGen (Follows (s.marked marks)) (a, s.marked marks a) (b, s.marked marks b) ∧
      match s.derefMarked marks a with
      | none => s.marked marks b = .foundVar
      | some (.ref v) => s.marked marks b = .cell (.ref v) ∧ v = b
      | some (.nonvar d) => s.marked marks b = .cell (.nonvar d) := by
  by_cases hmark : a ∈ marks
  · refine ⟨a, .refl, ?_⟩
    rw [Store.derefMarked, if_pos hmark]
    exact if_pos hmark
  · have hmarked : s.marked marks a = .cell (s.cell a) := if_neg hmark
    induction a using Store.deref_induction (s := s) with
    | unbound a ha =>
      refine ⟨a, .refl, ?_⟩
      rw [Store.derefMarked_unbound hmark ha]
      exact ⟨hmarked.trans (congrArg _ ha), rfl⟩
    | ref a b ha hb ih =>
      have hfollows : Follows (s.marked marks) (a, s.marked marks a) (b, s.marked marks b) := by
        rw [hmarked, ha]
        exact .ref hb
      rw [Store.derefMarked_ref hmark ha hb]
      by_cases hmark' : b ∈ marks
      · refine ⟨b, .single hfollows, ?_⟩
        rw [Store.derefMarked, if_pos hmark']
        exact if_pos hmark'
      · obtain ⟨c, hreach, hc⟩ := ih hmark' (if_neg hmark')
        exact ⟨c, .head hfollows hreach, hc⟩
    | nonvar a d ha =>
      refine ⟨a, .refl, ?_⟩
      rw [Store.derefMarked_nonvar hmark ha]
      exact hmarked.trans (congrArg _ ha)

namespace TreeLoop

variable (s) in
/-- The loop is at a cell of this search. -/
def ofState (ts : TreeState) (d0 : Option (Addr × MarkedCell)) : TreeLoop where
  memory := s.marked ts.marks
  pt0 := ts.pt0
  pt0End := ts.pt0End
  toVisit := ts.toVisit.map fun fr => (fr.1, fr.2, .cell (s.cell fr.1))
  d0 := d0

/-- The loop follows references. -/
theorem reaches_follows (ts : TreeState) {w w' : Addr × MarkedCell}
    (h : ReflTransGen (Follows (s.marked ts.marks)) w w') :
    ReflTransGen (Machine.Goes (turn hp)) (ofState s ts (some w)) (ofState s ts (some w')) := by
  refine h.lift (fun w => ofState s ts (some w)) fun _ _ hstep => ?_
  cases hstep with
  | ref hne => exact if_neg hne

theorem ofState_descend {ts : TreeState} (h : ts.pt0 ∉ ts.marks) (d0 : Option (Addr × MarkedCell)) (l : Addr)
    (n : ℕ) : (ofState s ts d0).descend l n = ofState s (ts.descend l n) none := by
  have hmemory : Function.update (s.marked ts.marks) ts.pt0 .foundVar = s.marked (ts.descend l n).marks :=
    s.update_marked ts.marks ts.pt0
  have hold : s.marked ts.marks ts.pt0 = .cell (s.cell ts.pt0) := Store.marked_of_notMem h
  simp only [descend, ofState, hmemory, hold]
  rfl

/-- A cell is not marked twice. -/
theorem nodup_go {ts ts' : TreeState} (h : ts.marks.Nodup) (hgo : ts.turn hp s = .go ts') : ts'.marks.Nodup := by
  have hstep := treeStep_turn hp s ts
  rw [hgo] at hstep
  cases hstep with
  | next => exact h
  | descend _ hderef => exact List.nodup_cons.mpr ⟨Store.notMem_of_derefMarked hderef, h⟩
  | ret _ hv =>
    rw [TreeState.marks, hv] at h
    exact (List.nodup_cons.mp h).2

variable (hp s) in
/-- The loop reads the next cell and follows its references. -/
theorem reaches_word {ts : TreeState} (hlt : ts.pt0 < ts.pt0End) :
    ∃ b, ReflTransGen (Machine.Goes (turn hp)) (ofState s ts none) (ofState s ts (some (b, s.marked ts.marks b))) ∧
      match s.derefMarked ts.marks ts.pt0 with
      | none => s.marked ts.marks b = .foundVar
      | some (.ref v) => s.marked ts.marks b = .cell (.ref v) ∧ v = b
      | some (.nonvar d) => s.marked ts.marks b = .cell (.nonvar d) := by
  obtain ⟨b, hfollows, hb⟩ := exists_follows s ts.marks ts.pt0
  have hread : Machine.Goes (turn hp) (ofState s ts none) (ofState s ts (some (ts.pt0, s.marked ts.marks ts.pt0))) :=
    if_pos hlt
  exact ⟨b, .head hread (reaches_follows ts hfollows), hb⟩

/-- The loop follows the search. -/
theorem reaches_go {ts ts' : TreeState} (h : ts.marks.Nodup) (hgo : ts.turn hp s = .go ts') :
    ReflTransGen (Machine.Goes (turn hp)) (ofState s ts none) (ofState s ts' none) := by
  by_cases hlt : ts.pt0 < ts.pt0End
  · obtain ⟨b, hreach, hb⟩ := reaches_word hp s hlt
    refine hreach.tail ?_
    unfold TreeState.turn at hgo
    rw [if_pos hlt] at hgo
    rw [Machine.Goes, turn]
    split at hgo
    case h_1 => cases hgo
    case h_2 p hderef =>
      rw [hderef] at hb
      simp only [ofState, hb]
      exact congrArg _ ((ofState_descend (Store.notMem_of_derefMarked hderef) _ _ _).trans
        (congrArg (ofState s · none) (TreeTurn.go.inj hgo)))
    case h_3 p hderef =>
      rw [hderef] at hb
      simp only [ofState, hb]
      cases hf : hp.functorAt p with
      | functor f =>
        rw [hf] at hgo
        exact congrArg _ ((ofState_descend (Store.notMem_of_derefMarked hderef) _ _ _).trans
          (congrArg (ofState s · none) (TreeTurn.go.inj hgo)))
      | blob b =>
        rw [hf] at hgo
        exact congrArg _ (congrArg (ofState s · none) (TreeTurn.go.inj hgo))
    case h_4 c hpair happl hderef =>
      rw [hderef] at hb
      obtain rfl := TreeTurn.go.inj hgo
      cases c with
      | ref v =>
        obtain ⟨hword, rfl⟩ := hb
        simp only [ofState, hword, if_pos]
        rfl
      | nonvar d =>
        cases d with
        | pair p => exact absurd rfl (hpair p)
        | appl p => exact absurd rfl (happl p)
        | int n =>
          simp only [ofState, hb]
          rfl
        | atom a =>
          simp only [ofState, hb]
          rfl
  · unfold TreeState.turn at hgo
    rw [if_neg hlt] at hgo
    split at hgo
    case h_1 => cases hgo
    case h_2 p e rest hv =>
      obtain rfl := TreeTurn.go.inj hgo
      have hnotmem : p ∉ rest.map Prod.fst := by
        rw [TreeState.marks, hv] at h
        exact (List.nodup_cons.mp h).1
      refine .single ?_
      rw [Machine.Goes, turn]
      simp only [ofState, if_neg hlt, hv, TreeState.marks]
      rw [← Store.update_marked_cons hnotmem]
      rfl

/-- The loop is left with the answer of the search. -/
theorem reaches_exit {ts : TreeState} {found : Bool} (hexit : ts.turn hp s = .exit found) :
    ∃ st m, ReflTransGen (Machine.Goes (turn hp)) (ofState s ts none) st ∧ st.turn hp = .exit (found, m) := by
  unfold TreeState.turn at hexit
  split at hexit
  case isTrue hlt =>
    obtain ⟨b, hreach, hb⟩ := reaches_word hp s hlt
    split at hexit
    case h_1 hderef =>
      rw [hderef] at hb
      obtain rfl := TreeTurn.exit.inj hexit
      refine ⟨_, (ofState s ts none).unwind, hreach, ?_⟩
      rw [turn]
      simp only [ofState, hb]
      rfl
    case h_2 => cases hexit
    case h_3 => split at hexit <;> cases hexit
    case h_4 => cases hexit
  case isFalse hlt =>
    split at hexit
    case h_1 hv =>
      obtain rfl := TreeTurn.exit.inj hexit
      refine ⟨_, s.marked ts.marks, .refl, ?_⟩
      rw [turn]
      simp only [ofState, if_neg hlt, hv, List.map_nil]
    case h_2 => cases hexit

theorem exists_returns {turns : ℕ} {ts : TreeState} {found : Bool} (h : ts.marks.Nodup)
    (hrun : ts.run hp s turns = some found) : ∃ m, Machine.Returns (turn hp) (ofState s ts none) (found, m) := by
  induction turns generalizing ts with
  | zero => cases hrun
  | succ turns ih =>
    rw [TreeState.run] at hrun
    cases hturn : ts.turn hp s with
    | exit found' =>
      rw [hturn] at hrun
      obtain ⟨st, m, hreach, hexit⟩ := reaches_exit hturn
      exact ⟨m, (Machine.returns_reaches hreach).2 (Machine.returns_of_exit (Option.some.inj hrun ▸ hexit))⟩
    | go ts' =>
      rw [hturn] at hrun
      obtain ⟨m, hret⟩ := ih (nodup_go h hturn) hrun
      exact ⟨m, (Machine.returns_reaches (reaches_go h hturn)).2 hret⟩

end TreeLoop

-- ---------------------------------------------------------------------------
-- The specification
-- ---------------------------------------------------------------------------

variable (hp s) in
/-- The loop ends, finds a loop exactly if there is one, and leaves the memory as it was. -/
def LoopDecided (l : Addr) (n : ℕ) : Prop :=
  ∃ found, rationalTreeLoop hp s l n (found, s.unmarked) ∧ (found = true ↔ HasLoop hp s (remaining l (l + n)))

/-- The loop ends on finite term graphs, and finds nothing exactly if its cells unfold. -/
theorem exists_rationalTreeLoop {l : Addr} {n : ℕ} (hR : Closed hp R s.cell)
    (hcells : ∀ a ∈ remaining l (l + n), a ∈ R) :
    ∃ found, rationalTreeLoop hp s l n (found, s.unmarked) ∧
      (found = false ↔ ∀ a ∈ remaining l (l + n), ∃ u, Unfolds hp s.cell (.ref a) u) := by
  obtain ⟨turns, found, hrun, hfound⟩ := exists_search hR hcells
  have hnodup : TreeState.marks ⟨l, l + n, []⟩ |>.Nodup := List.nodup_nil
  obtain ⟨m, hret⟩ := TreeLoop.exists_returns hnodup (hrun turns le_rfl)
  obtain rfl := rationalTreeLoop_memory hret
  exact ⟨found, hret, hfound⟩

/-- The cells of `X` where `X = [1|X]`, at the address 0. -/
def onesForever : Addr → Option Nonvar
  | 0 => some (.int 1)
  | 1 => some (.pair 0)
  | _ => none

/-- A heap of strings. -/
def stringHeap : Heap := ⟨fun _ => .blob (.string ⟨[], List.not_mem_nil⟩), 2⟩

theorem closed_onesForever : Closed stringHeap {0, 1} (Store.ofWords onesForever).cell := by
  intro a ha b hb
  rcases Finset.mem_insert.1 ha with rfl | ha
  · cases hb
  · obtain rfl := Finset.mem_singleton.1 ha
    rw [Finset.mem_insert, Finset.mem_singleton]
    simpa [Store.ofWords, onesForever, Cell.cells] using hb

end Yap
