-- SUMMARY: The turns of the unification loop: the pairs of cells that remain, moves and bindings, the memory behind the links, and every run as a run without bindings on the memory it has reached.
import Yap.Unify.Moves

/-!
# Turns

A turn either binds a variable or moves: it returns to a block, goes to the next
pair of cells, or descends. Moves do not change the memory behind the links. A run
that binds is repeated, move by move, on the memory in which its bindings have
been made before.
-/

namespace Yap

open Relation

variable {hp : Heap}

-- ---------------------------------------------------------------------------
-- Remaining pairs
-- ---------------------------------------------------------------------------

/-- The pairs of cells of a block that remain. -/
def Frame.pairs (fr : Frame) : List (Addr × Addr) :=
  (List.range' fr.pt0 (fr.pt0End - fr.pt0)).zip (List.range' fr.pt1 (fr.pt0End - fr.pt0))

theorem Frame.pairs_of_lt {fr : Frame} (h : fr.pt0 < fr.pt0End) :
    fr.pairs = (fr.pt0, fr.pt1) :: fr.advance.pairs := by
  have hlen : fr.pt0End - fr.pt0 = fr.pt0End - (fr.pt0 + 1) + 1 :=
    (Nat.succ_pred_eq_of_pos (Nat.sub_pos_of_lt h)).symm
  rw [pairs, hlen, List.range'_succ, List.range'_succ, List.zip_cons_cons]
  rfl

theorem Frame.pairs_of_not_lt {fr : Frame} (h : ¬ fr.pt0 < fr.pt0End) : fr.pairs = [] := by
  rw [pairs, Nat.sub_eq_zero_of_le (not_lt.mp h)]
  rfl

theorem Frame.pairs_block (l r : Addr) (n : ℕ) :
    Frame.pairs ⟨l, l + n, r⟩ = (List.range' l n).zip (List.range' r n) := by
  rw [pairs, Nat.add_sub_cancel_left]

namespace UnifyState

/-- The pairs of cells that remain. -/
def pairs (st : UnifyState) : List (Addr × Addr) := st.frame.pairs ++ st.toVisit.flatMap Frame.pairs

theorem pairs_init (s : Store) (frame : Frame) : (init s frame).pairs = frame.pairs := by
  simp [pairs, init]

theorem pairs_return {st : UnifyState} {frame : Frame} {toVisit : List Frame}
    (h : ¬ st.frame.pt0 < st.frame.pt0End) (hv : st.toVisit = frame :: toVisit) :
    st.pairs = ({ st with frame, toVisit } : UnifyState).pairs := by
  simp [pairs, Frame.pairs_of_not_lt h, hv]

theorem pairs_next {st : UnifyState} (h : st.frame.pt0 < st.frame.pt0End) :
    st.pairs = (st.frame.pt0, st.frame.pt1) ::
      ({ st with frame := st.frame.advance } : UnifyState).pairs := by
  simp [pairs, Frame.pairs_of_lt h]

theorem pairs_descend (st : UnifyState) (l r : Addr) (n : ℕ) (d1 : Nonvar) :
    (st.descend l r n d1).pairs = (List.range' l n).zip (List.range' r n) ++
      ({ st with frame := st.frame.advance } : UnifyState).pairs := by
  simp [pairs, descend, Frame.pairs_block]

theorem pairs_nil {st : UnifyState} (h : ¬ st.frame.pt0 < st.frame.pt0End) (hv : st.toVisit = []) :
    st.pairs = [] := by
  simp [pairs, Frame.pairs_of_not_lt h, hv]

end UnifyState

-- ---------------------------------------------------------------------------
-- Moves and bindings
-- ---------------------------------------------------------------------------

/-- A turn that binds no variable. -/
inductive Move (hp : Heap) (st : UnifyState) : UnifyState → Prop where
  | ret {frame : Frame} {toVisit : List Frame} : ¬ st.frame.pt0 < st.frame.pt0End →
      st.toVisit = frame :: toVisit → Move hp st { st with frame, toVisit }
  | next : st.frame.pt0 < st.frame.pt0End →
      unifyArgs hp st.store st.frame.pt0 st.frame.pt1 = .next →
      Move hp st { st with frame := st.frame.advance }
  | visit {l r : Addr} {n : ℕ} {d1 : Nonvar} : st.frame.pt0 < st.frame.pt0End →
      unifyArgs hp st.store st.frame.pt0 st.frame.pt1 = .visit l r n d1 →
      Move hp st (st.descend l r n d1)

/-- A turn that binds the variable `a` to `c`. -/
structure Binds (hp : Heap) (st : UnifyState) (a : Addr) (c : Cell) : Prop where
  lt : st.frame.pt0 < st.frame.pt0End
  step : unifyArgs hp st.store st.frame.pt0 st.frame.pt1 = .bind a c

theorem Binds.unbound {st : UnifyState} {a : Addr} {c : Cell} (h : Binds hp st a c) :
    st.store.cell a = .ref a :=
  (unifyWords_writable bindsVars_unifyGlobalCells h.step).1

theorem Binds.writable {st : UnifyState} {a : Addr} {c : Cell} (h : Binds hp st a c) :
    st.store.Writable a c :=
  (unifyWords_writable bindsVars_unifyGlobalCells h.step).2

namespace UnifyState

/-- A turn that does not leave the loop moves or binds. -/
theorem turn_go {st st' : UnifyState} (h : st.turn hp = .go st') :
    Move hp st st' ∨ ∃ a c, ∃ hb : Binds hp st a c, st' = st.bind hp hb.step := by
  unfold turn at h
  split at h
  case isTrue hlt =>
    split at h
    case h_1 => cases h
    case h_2 hstep => exact UnifyTurn.go.inj h ▸ .inl (.next hlt hstep)
    case h_3 a c hstep => exact .inr ⟨a, c, ⟨hlt, hstep⟩, (UnifyTurn.go.inj h).symm⟩
    case h_4 l r n d1 hstep => exact UnifyTurn.go.inj h ▸ .inl (.visit hlt hstep)
  case isFalse hlt =>
    split at h
    case h_1 => cases h
    case h_2 frame toVisit hv => exact UnifyTurn.go.inj h ▸ .inl (.ret hlt hv)

/-- The loop is left when no pair remains or when a pair fails. -/
theorem turn_exit {st : UnifyState} {out : Bool} (h : st.turn hp = .exit out) :
    (out = true ∧ st.pairs = []) ∨
      (out = false ∧ ∃ x y rest, st.pairs = (x, y) :: rest ∧ unifyArgs hp st.store x y = .fail) := by
  unfold turn at h
  split at h
  case isTrue hlt =>
    split at h
    case h_1 hstep => exact .inr ⟨(UnifyTurn.exit.inj h).symm, _, _, _, pairs_next hlt, hstep⟩
    case h_2 => cases h
    case h_3 => cases h
    case h_4 => cases h
  case isFalse hlt =>
    split at h
    case h_1 hv => exact .inl ⟨(UnifyTurn.exit.inj h).symm, pairs_nil hlt hv⟩
    case h_2 => cases h

end UnifyState

-- ---------------------------------------------------------------------------
-- The memory behind the links
-- ---------------------------------------------------------------------------

theorem restore_of_notMem {unif : List (Addr × Cell)} {a : Addr} (h : ∀ pr ∈ unif, pr.1 ≠ a)
    (m : Addr → Cell) : restore unif m a = m a := by
  induction unif generalizing m with
  | nil => rfl
  | cons pr unif ih =>
      obtain ⟨ptr, old⟩ := pr
      have hne : a ≠ ptr := (h _ (List.mem_cons_self ..)).symm
      rw [restore, ih fun pr hpr => h pr (List.mem_cons_of_mem _ hpr), Function.update_of_ne hne]

theorem restore_update {unif : List (Addr × Cell)} {a : Addr} (h : ∀ pr ∈ unif, pr.1 ≠ a)
    (m : Addr → Cell) (c : Cell) :
    restore unif (Function.update m a c) = Function.update (restore unif m) a c := by
  induction unif generalizing m with
  | nil => rfl
  | cons pr unif ih =>
      obtain ⟨ptr, old⟩ := pr
      have hne : a ≠ ptr := (h _ (List.mem_cons_self ..)).symm
      rw [restore, restore, Function.update_comm hne,
        ih fun pr hpr => h pr (List.mem_cons_of_mem _ hpr)]

namespace UnifyState

/-- The overwritten cells hold words, so they are not bound. -/
def Linked (st : UnifyState) : Prop := ∀ pr ∈ st.unif, ∃ d, st.store.cell pr.1 = .nonvar d

theorem linked_init (s : Store) (frame : Frame) : (init s frame).Linked := nofun

theorem memory_descend (st : UnifyState) (l r : Addr) (n : ℕ) (d1 : Nonvar) :
    (st.descend l r n d1).memory = st.memory := by
  simp [memory, descend, restore, Store.set]

theorem Linked.notMem {st : UnifyState} (h : st.Linked) {a : Addr} (ha : st.store.cell a = .ref a) :
    ∀ pr ∈ st.unif, pr.1 ≠ a := by
  rintro pr hpr rfl
  obtain ⟨d, hd⟩ := h pr hpr
  cases hd.symm.trans ha

theorem memory_unbound {st : UnifyState} (h : st.Linked) {a : Addr} (ha : st.store.cell a = .ref a) :
    st.memory a = .ref a := by
  rw [memory, restore_of_notMem (h.notMem ha), ha]

end UnifyState

theorem Move.memory {st st' : UnifyState} (h : Move hp st st') : st'.memory = st.memory := by
  cases h with
  | ret | next => rfl
  | visit => exact st.memory_descend _ _ _ _

theorem Move.linked {st st' : UnifyState} (h : Move hp st st') (hl : st.Linked) : st'.Linked := by
  cases h with
  | ret | next => exact hl
  | @visit l r n d1 hlt hstep =>
      intro pr hpr
      by_cases hptr : pr.1 = st.frame.pt0
      · exact ⟨d1, by simp [UnifyState.descend, Store.set, hptr]⟩
      · rcases List.mem_cons.mp hpr with rfl | hpr
        · exact absurd rfl hptr
        · obtain ⟨d, hd⟩ := hl pr hpr
          exact ⟨d, by simp [UnifyState.descend, Store.set, Function.update_of_ne hptr, hd]⟩

theorem Binds.memory {st : UnifyState} {a : Addr} {c : Cell} (h : Binds hp st a c) (hl : st.Linked) :
    (st.bind hp h.step).memory = Function.update st.memory a c :=
  restore_update (hl.notMem h.unbound) _ c

theorem Binds.linked {st : UnifyState} {a : Addr} {c : Cell} (h : Binds hp st a c) (hl : st.Linked) :
    (st.bind hp h.step).Linked := by
  intro pr hpr
  obtain ⟨d, hd⟩ := hl pr hpr
  exact ⟨d, by simp [UnifyState.bind, Store.set, Function.update_of_ne (hl.notMem h.unbound pr hpr), hd]⟩

-- ---------------------------------------------------------------------------
-- Runs
-- ---------------------------------------------------------------------------

/-- The same state with the variable `a` bound to `c` already. -/
structure Prebound (a : Addr) (c : Cell) (st st₁ : UnifyState) : Prop where
  frame : st₁.frame = st.frame
  toVisit : st₁.toVisit = st.toVisit
  unif : st₁.unif = st.unif
  cell : st₁.store.cell = Function.update st.store.cell a c
  unbound : st.store.cell a = .ref a
  writable : st.store.Writable a c

theorem Prebound.deref {a : Addr} {c : Cell} {st st₁ : UnifyState} (h : Prebound a c st st₁)
    (d : Cell) : st₁.store.deref d = if st.store.deref d = .ref a then c else st.store.deref d :=
  Store.deref_set h.cell h.unbound h.writable d

/-- A step that binds nothing is the same when a variable is bound before. -/
theorem Prebound.unifyArgs_eq {a : Addr} {c : Cell} {st st₁ : UnifyState} (h : Prebound a c st st₁)
    {x y : Addr} (hstep : ∀ b d, unifyArgs hp st.store x y ≠ .bind b d) :
    unifyArgs hp st₁.store x y = unifyArgs hp st.store x y := by
  unfold unifyArgs at hstep ⊢
  rw [h.deref, h.deref]
  by_cases h0 : st.store.deref (.ref x) = .ref a <;> by_cases h1 : st.store.deref (.ref y) = .ref a
  · rw [if_pos h0, if_pos h1, h0, h1, unifyWords_self bindsVars_unifyGlobalCells,
      unifyWords_self bindsVars_unifyGlobalCells]
  · rw [h0] at hstep
    obtain ⟨⟨b, d, hbind⟩, -⟩ := unifyWords_ref bindsVars_unifyGlobalCells h1
    exact absurd hbind (hstep b d)
  · rw [h1] at hstep
    obtain ⟨-, ⟨b, d, hbind⟩⟩ := unifyWords_ref bindsVars_unifyGlobalCells h0
    exact absurd hbind (hstep b d)
  · rw [if_neg h0, if_neg h1]

/-- The step that binds the variable goes on when it is bound before. -/
theorem Prebound.unifyArgs_bind {a : Addr} {c : Cell} {st st₁ : UnifyState} (h : Prebound a c st st₁)
    {x y : Addr} (hstep : unifyArgs hp st.store x y = .bind a c) :
    unifyArgs hp st₁.store x y = .next := by
  unfold unifyArgs at hstep ⊢
  obtain ⟨hne, ⟨h0, h1⟩ | ⟨h0, h1⟩⟩ := unifyWords_bind bindsVars_unifyGlobalCells hstep
  · rw [h.deref, h.deref, if_pos h0, if_neg (fun heq => hne (h0.trans heq.symm)), h1]
    exact unifyWords_self bindsVars_unifyGlobalCells c
  · rw [h.deref, h.deref, if_neg (fun heq => hne (heq.trans h1.symm)), if_pos h1, h0]
    exact unifyWords_self bindsVars_unifyGlobalCells c

/-- A cell with arguments to compare is not a variable. -/
theorem cell_ne_of_visit {s : Store} {x y l r a : Addr} {n : ℕ} {d1 : Nonvar}
    (hstep : unifyArgs hp s x y = .visit l r n d1) (ha : s.cell a = .ref a) : a ≠ x := by
  rintro rfl
  have hspec := unifyArgs_spec hp s a y
  rw [hstep] at hspec
  cases hspec with
  | visit h0 =>
      rw [Store.deref, Store.derefCell_unbound ha] at h0
      cases h0

/-- A move is repeated when a variable is bound before. -/
theorem Prebound.move {a : Addr} {c : Cell} {st st' st₁ : UnifyState} (h : Prebound a c st st₁)
    (hmove : Move hp st st') : ∃ st₁', Move hp st₁ st₁' ∧ Prebound a c st' st₁' := by
  cases hmove with
  | @ret frame toVisit hlt hv =>
      refine ⟨_, .ret (by rw [h.frame]; exact hlt) (h.toVisit.trans hv), ?_⟩
      exact ⟨rfl, rfl, h.unif, h.cell, h.unbound, h.writable⟩
  | next hlt hstep =>
      have hnobind : ∀ b d, unifyArgs hp st.store st.frame.pt0 st.frame.pt1 ≠ .bind b d := by
        rw [hstep]
        rintro _ _ ⟨⟩
      have hstep₁ := h.unifyArgs_eq hnobind
      refine ⟨_, .next (by rw [h.frame]; exact hlt) (by rw [h.frame, hstep₁, hstep]), ?_⟩
      exact ⟨by rw [h.frame], h.toVisit, h.unif, h.cell, h.unbound, h.writable⟩
  | @visit l r n d1 hlt hstep =>
      have hnobind : ∀ b d, unifyArgs hp st.store st.frame.pt0 st.frame.pt1 ≠ .bind b d := by
        rw [hstep]
        rintro _ _ ⟨⟩
      have hstep₁ := h.unifyArgs_eq hnobind
      have hax : a ≠ st.frame.pt0 := cell_ne_of_visit hstep h.unbound
      refine ⟨_, .visit (by rw [h.frame]; exact hlt) (by rw [h.frame, hstep₁, hstep]), ?_⟩
      refine ⟨rfl, ?_, ?_, ?_, ?_, fun b hb => ?_⟩
      · simp [UnifyState.descend, h.frame, h.toVisit]
      · simp [UnifyState.descend, h.frame, h.unif, h.cell, Function.update_of_ne hax.symm]
      · simp only [UnifyState.descend, Store.set, h.frame, h.cell]
        exact Function.update_comm hax _ _ _
      · simp [UnifyState.descend, Store.set, Function.update_of_ne hax, h.unbound]
      · obtain ⟨hba, hunbound⟩ := h.writable b hb
        have hbx : b ≠ st.frame.pt0 := cell_ne_of_visit hstep hunbound
        exact ⟨hba, by simp [UnifyState.descend, Store.set, Function.update_of_ne hbx, hunbound]⟩

theorem Prebound.moves {a : Addr} {c : Cell} {st st' st₁ : UnifyState} (h : Prebound a c st st₁)
    (hmoves : ReflTransGen (Move hp) st st') :
    ∃ st₁', ReflTransGen (Move hp) st₁ st₁' ∧ Prebound a c st' st₁' := by
  induction hmoves with
  | refl => exact ⟨st₁, .refl, h⟩
  | tail _ hmove ih =>
      obtain ⟨st₂, hmoves₂, hst₂⟩ := ih
      obtain ⟨st₃, hmove₃, hst₃⟩ := hst₂.move hmove
      exact ⟨st₃, hmoves₂.tail hmove₃, hst₃⟩

/-- The turn that binds the variable is a move when it is bound before. -/
theorem Prebound.binds {a : Addr} {c : Cell} {st st₁ : UnifyState} (h : Prebound a c st st₁)
    (hb : Binds hp st a c) : Move hp st₁ (st.bind hp hb.step) := by
  have hmove : Move hp st₁ { st₁ with frame := st₁.frame.advance } :=
    .next (by rw [h.frame]; exact hb.lt) (by rw [h.frame]; exact h.unifyArgs_bind hb.step)
  have hstate : ({ st₁ with frame := st₁.frame.advance } : UnifyState) = st.bind hp hb.step := by
    have hstore : st₁.store = st.store.set a c hb.writable := Store.ext h.cell
    simp only [UnifyState.bind, h.frame, h.toVisit, h.unif, hstore]
  exact hstate ▸ hmove

/-- The loop makes a turn. -/
def Goes (hp : Heap) (st st' : UnifyState) : Prop := st.turn hp = .go st'

theorem Move.goes {st st' : UnifyState} (h : Move hp st st') : Goes hp st st' := by
  cases h with
  | ret hlt hv =>
      rw [Goes, UnifyState.turn, if_neg hlt]
      simp only [hv]
  | next hlt hstep =>
      rw [Goes, UnifyState.turn, if_pos hlt]
      split
      case h_2 => rfl
      all_goals
        rename_i heq
        cases hstep.symm.trans heq
  | visit hlt hstep =>
      rw [Goes, UnifyState.turn, if_pos hlt]
      split
      case h_4 heq =>
        cases hstep.symm.trans heq
        rfl
      all_goals
        rename_i heq
        cases hstep.symm.trans heq

theorem Binds.goes {st : UnifyState} {a : Addr} {c : Cell} (h : Binds hp st a c) :
    Goes hp st (st.bind hp h.step) := by
  rw [Goes, UnifyState.turn, if_pos h.lt]
  split
  case h_3 heq =>
    cases h.step.symm.trans heq
    rfl
  all_goals
    rename_i heq
    cases h.step.symm.trans heq

theorem exit_of_fail {st : UnifyState} (hlt : st.frame.pt0 < st.frame.pt0End)
    (hstep : unifyArgs hp st.store st.frame.pt0 st.frame.pt1 = .fail) : st.turn hp = .exit false := by
  rw [UnifyState.turn, if_pos hlt]
  split
  case h_1 => rfl
  all_goals
    rename_i heq
    cases hstep.symm.trans heq

/-- What a run has reached: the memory behind the links, which differs from the
    first store in cells that were unbound, and a run without bindings from there. -/
structure Reached (hp : Heap) (s : Store) (frame : Frame) (st : UnifyState) (real : Store) : Prop where
  linked : st.Linked
  memory : real.cell = st.memory
  frame_cells : ∀ a, s.cell a ≠ .ref a → real.cell a = s.cell a
  moves : ReflTransGen (Move hp) (.init real frame) st

/-- A run without turns. -/
theorem reached_init (s : Store) (frame : Frame) : Reached hp s frame (.init s frame) s :=
  ⟨UnifyState.linked_init s frame, rfl, fun _ _ => rfl, .refl⟩

theorem Reached.move {s real : Store} {frame : Frame} {st st' : UnifyState}
    (h : Reached hp s frame st real) (hmove : Move hp st st') : Reached hp s frame st' real :=
  ⟨hmove.linked h.linked, by rw [h.memory, hmove.memory], h.frame_cells, h.moves.tail hmove⟩

/-- A binding is made in the memory behind the links. -/
theorem Reached.binds {s real : Store} {frame : Frame} {st : UnifyState}
    (h : Reached hp s frame st real) {a : Addr} {c : Cell} (hb : Binds hp st a c) :
    real.cell a = .ref a ∧ ∃ real', real'.cell = Function.update real.cell a c ∧
      Reached hp s frame (st.bind hp hb.step) real' := by
  have hunbound : ∀ b, st.store.cell b = .ref b → real.cell b = .ref b := fun b hb =>
    h.memory ▸ UnifyState.memory_unbound h.linked hb
  have hwritable : real.Writable a c := fun b hbc =>
    ⟨(hb.writable b hbc).1, hunbound b (hb.writable b hbc).2⟩
  have hreal := hunbound a hb.unbound
  have hpre : Prebound a c (.init real frame) (.init (real.set a c hwritable) frame) :=
    ⟨rfl, rfl, rfl, rfl, hreal, hwritable⟩
  obtain ⟨st₁, hmoves, hst₁⟩ := hpre.moves h.moves
  refine ⟨hreal, real.set a c hwritable, rfl, hb.linked h.linked, ?_, fun x hx => ?_,
    hmoves.tail (hst₁.binds hb)⟩
  · rw [hb.memory h.linked, ← h.memory]
    rfl
  · have hxa : x ≠ a := by
      rintro rfl
      exact hx ((h.frame_cells x hx).symm.trans hreal)
    rw [← h.frame_cells x hx]
    exact Function.update_of_ne hxa _ _

/-- Every run is a run without bindings on the memory it has reached. -/
theorem exists_reached {s : Store} {frame : Frame} {st : UnifyState}
    (h : ReflTransGen (Goes hp) (.init s frame) st) : ∃ real, Reached hp s frame st real := by
  induction h with
  | refl => exact ⟨s, reached_init s frame⟩
  | tail _ hgo ih =>
      obtain ⟨real, hreal⟩ := ih
      rcases UnifyState.turn_go hgo with hmove | ⟨a, c, hb, rfl⟩
      · exact ⟨real, hreal.move hmove⟩
      · obtain ⟨-, real', -, hreal'⟩ := hreal.binds hb
        exact ⟨real', hreal'⟩

end Yap
