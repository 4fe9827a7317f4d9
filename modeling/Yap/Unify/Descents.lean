-- SUMMARY: The unification loop as a recursion over blocks of argument cells, which ends on rational terms exactly if no block is entered again from inside itself with the same memory.
import Yap.Base.Recursion
import Yap.Unify.Walk

/-!
# Descents

The stack of the loop is that of a procedure that goes through a block of pairs of
cells and calls itself for the blocks below. On rational terms there are finitely
many blocks and memories, so that only a block inside itself keeps the loop from
ending.
-/

namespace Yap

open Relation

variable {hp : Heap}

-- ---------------------------------------------------------------------------
-- Blocks
-- ---------------------------------------------------------------------------

/-- The loop from a pair of cells to the end of its block, with the memory it finds.
It returns the memory that it leaves, or fails. -/
def blockBody (hp : Heap) : Frame × Store → Body (Frame × Store) (Option Store)
  | (fr, s) =>
    if fr.pt0 < fr.pt0End then
      match h : unifyArgs hp s fr.pt0 fr.pt1 with
      | .fail => .ret none
      | .next => .call (fr.advance, s) .ret
      | .bind a c =>
        .call (fr.advance, s.set a c (unifyWords_writable bindsVars_unifyGlobalCells h).2) .ret
      | .visit l r n d1 =>
        .call (⟨l, l + n, r⟩, s.set fr.pt0 (.nonvar d1) fun _ h => (by cases h)) fun w =>
          w.elim (.ret none) fun s' => .call (fr.advance, s') .ret
    else .ret (some s)

/-- What the body of a block is. -/
inductive BlockSpec (hp : Heap) (fr : Frame) (s : Store) : Body (Frame × Store) (Option Store) → Prop
  | done : ¬ fr.pt0 < fr.pt0End → BlockSpec hp fr s (.ret (some s))
  | fail : fr.pt0 < fr.pt0End → unifyArgs hp s fr.pt0 fr.pt1 = .fail → BlockSpec hp fr s (.ret none)
  | next : fr.pt0 < fr.pt0End → unifyArgs hp s fr.pt0 fr.pt1 = .next →
      BlockSpec hp fr s (.call (fr.advance, s) .ret)
  | bind {a : Addr} {c : Cell} (hc : s.Writable a c) : fr.pt0 < fr.pt0End →
      unifyArgs hp s fr.pt0 fr.pt1 = .bind a c → BlockSpec hp fr s (.call (fr.advance, s.set a c hc) .ret)
  | visit {l r : Addr} {n : ℕ} {d1 : Nonvar} (hc : s.Writable fr.pt0 (.nonvar d1)) :
      fr.pt0 < fr.pt0End → unifyArgs hp s fr.pt0 fr.pt1 = .visit l r n d1 →
      BlockSpec hp fr s (.call (⟨l, l + n, r⟩, s.set fr.pt0 (.nonvar d1) hc) fun w =>
        w.elim (.ret none) fun s' => .call (fr.advance, s') .ret)

theorem blockBody_spec (hp : Heap) (fr : Frame) (s : Store) :
    BlockSpec hp fr s (blockBody hp (fr, s)) := by
  rw [blockBody]
  split
  case isTrue hlt =>
    split
    case h_1 hstep => exact .fail hlt hstep
    case h_2 hstep => exact .next hlt hstep
    case h_3 a c hstep => exact .bind _ hlt hstep
    case h_4 l r n d1 hstep => exact .visit _ hlt hstep
  case isFalse hlt => exact .done hlt

-- ---------------------------------------------------------------------------
-- The loop runs through a block
-- ---------------------------------------------------------------------------

/-- How the loop leaves a block that it is in. -/
def LeavesBlock (hp : Heap) (st : UnifyState) : Option Store → Prop
  | some s' => ∃ fr' unif', ReflTransGen (Goes hp) st ⟨fr', st.toVisit, unif', s'⟩ ∧
      ¬ fr'.pt0 < fr'.pt0End
  | none => ∃ st', ReflTransGen (Goes hp) st st' ∧ st'.turn hp = .exit false

theorem LeavesBlock.head {st st' : UnifyState} {w : Option Store} (hgo : Goes hp st st')
    (hv : st'.toVisit = st.toVisit) (h : LeavesBlock hp st' w) : LeavesBlock hp st w := by
  cases w with
  | some s' =>
    obtain ⟨fr', unif', hrun, hend⟩ := h
    exact ⟨fr', unif', .head hgo (hv ▸ hrun), hend⟩
  | none =>
    obtain ⟨st', hrun, hexit⟩ := h
    exact ⟨st', .head hgo hrun, hexit⟩

/-- When the recursion returns, the loop leaves the block. -/
theorem leavesBlock_of_run {n : ℕ} {st : UnifyState} {w : Option Store}
    (h : Body.run (blockBody hp) n (st.frame, st.store) = some w) : LeavesBlock hp st w := by
  induction n generalizing st w with
  | zero => cases h
  | succ n ih =>
    rw [Body.run] at h
    have hspec := blockBody_spec hp st.frame st.store
    generalize blockBody hp (st.frame, st.store) = b at h hspec
    cases hspec with
    | done hlt =>
      obtain rfl := Option.some.inj h
      exact ⟨st.frame, st.unif, .refl, hlt⟩
    | fail hlt hstep =>
      obtain rfl := Option.some.inj h
      exact ⟨st, .refl, exit_of_fail hlt hstep⟩
    | next hlt hstep =>
      obtain ⟨w', hw', hk⟩ := Body.exec_call.1 h
      obtain rfl := Option.some.inj hk
      exact .head (Move.next hlt hstep).goes rfl (ih hw')
    | bind hc hlt hstep =>
      obtain ⟨w', hw', hk⟩ := Body.exec_call.1 h
      obtain rfl := Option.some.inj hk
      have hb : Binds hp st _ _ := ⟨hlt, hstep⟩
      have hrest : LeavesBlock hp (st.bind hp hstep) w' := ih hw'
      exact hrest.head hb.goes rfl
    | @visit l r m d1 hc hlt hstep =>
      obtain ⟨w', hw', hk⟩ := Body.exec_call.1 h
      have hgo : Goes hp st (st.descend l r m d1) := (Move.visit hlt hstep).goes
      have hblock : LeavesBlock hp (st.descend l r m d1) w' := ih hw'
      cases w' with
      | none =>
        obtain rfl := Option.some.inj hk
        obtain ⟨st', hrun, hexit⟩ := hblock
        exact ⟨st', .head hgo hrun, hexit⟩
      | some s' =>
        obtain ⟨fr', unif', hrun, hend⟩ := hblock
        obtain ⟨w'', hw'', hk⟩ := Body.exec_call.1 hk
        obtain rfl := Option.some.inj hk
        have hret : Goes hp ⟨fr', st.frame.advance :: st.toVisit, unif', s'⟩
            ⟨st.frame.advance, st.toVisit, unif', s'⟩ := (Move.ret hend rfl).goes
        have hrest : LeavesBlock hp ⟨st.frame.advance, st.toVisit, unif', s'⟩ w'' := ih hw''
        cases w'' with
        | none =>
          obtain ⟨st', hrun', hexit⟩ := hrest
          exact ⟨st', .head hgo (hrun.trans (.head hret hrun')), hexit⟩
        | some s'' =>
          obtain ⟨fr'', unif'', hrun', hend'⟩ := hrest
          exact ⟨fr'', unif'', .head hgo (hrun.trans (.head hret hrun')), hend'⟩

/-- The block returns, and with it the rest of a run that ends. -/
def BlockReturns (hp : Heap) (st : UnifyState) (turns : ℕ) (res : Bool × (Addr → Cell)) : Prop :=
  Body.Returns (blockBody hp) (st.frame, st.store) none ∨
    ∃ s' fr' unif' turns', Body.Returns (blockBody hp) (st.frame, st.store) (some s') ∧
      turns' ≤ turns ∧ ¬ fr'.pt0 < fr'.pt0End ∧
      UnifyState.run hp turns' ⟨fr', st.toVisit, unif', s'⟩ = some res

theorem UnifyState.run_of_goes {st st' : UnifyState} (hgo : Goes hp st st') (turns : ℕ) :
    st.run hp (turns + 1) = st'.run hp turns := by
  have hturn : st.turn hp = .go st' := hgo
  rw [run, hturn]

/-- A call whose result is the result of the body. -/
theorem returns_tail {c c' : Frame × Store} (hbody : blockBody hp c = .call c' .ret) {w : Option Store}
    (h : Body.Returns (blockBody hp) c' w) : Body.Returns (blockBody hp) c w :=
  Body.returns_of_yields (hbody ▸ Body.yields_call h (Body.yields_ret w))

theorem BlockReturns.tail {st st' : UnifyState} {turns : ℕ} {res : Bool × (Addr → Cell)}
    (h : BlockReturns hp st' turns res) (hv : st'.toVisit = st.toVisit)
    (hbody : blockBody hp (st.frame, st.store) = .call (st'.frame, st'.store) .ret) :
    BlockReturns hp st (turns + 1) res := by
  rcases h with hnone | ⟨s', fr', unif', turns', hret, hle, hend, hrun⟩
  · exact .inl (returns_tail hbody hnone)
  · exact .inr ⟨s', fr', unif', turns', returns_tail hbody hret, Nat.le_succ_of_le hle, hend, hv ▸ hrun⟩

theorem blockReturns_of_run {turns : ℕ} {st : UnifyState} {res : Bool × (Addr → Cell)}
    (h : st.run hp turns = some res) : BlockReturns hp st turns res := by
  induction turns using Nat.strongRecOn generalizing st with
  | ind turns ih =>
    cases turns with
    | zero => cases h
    | succ turns =>
      have hspec := blockBody_spec hp st.frame st.store
      generalize hbody : blockBody hp (st.frame, st.store) = b at hspec
      cases hspec with
      | done hlt =>
        have hret : Body.Returns (blockBody hp) (st.frame, st.store) (some st.store) :=
          Body.returns_of_yields (hbody ▸ Body.yields_ret _)
        exact .inr ⟨st.store, st.frame, st.unif, turns + 1, hret, le_rfl, hlt, h⟩
      | fail hlt hstep => exact .inl (Body.returns_of_yields (hbody ▸ Body.yields_ret _))
      | next hlt hstep =>
        rw [UnifyState.run_of_goes (Move.next hlt hstep).goes] at h
        exact (ih turns (Nat.lt_succ_self _) h).tail rfl hbody
      | bind hc hlt hstep =>
        have hb : Binds hp st _ _ := ⟨hlt, hstep⟩
        rw [UnifyState.run_of_goes hb.goes] at h
        exact (ih turns (Nat.lt_succ_self _) h).tail rfl hbody
      | @visit l r m d1 hc hlt hstep =>
        rw [UnifyState.run_of_goes (Move.visit hlt hstep).goes] at h
        rcases ih turns (Nat.lt_succ_self _) h with hnone | ⟨s', fr', unif', turns', hret, hle, hend, hrun⟩
        · exact .inl (Body.returns_of_yields (hbody ▸ Body.yields_call hnone (Body.yields_ret _)))
        · cases turns' with
          | zero => cases hrun
          | succ turns' =>
            have hpop : Goes hp ⟨fr', st.frame.advance :: st.toVisit, unif', s'⟩
                ⟨st.frame.advance, st.toVisit, unif', s'⟩ := (Move.ret hend rfl).goes
            have hrest := (UnifyState.run_of_goes hpop turns').symm.trans hrun
            rcases ih turns' (by omega) hrest with
              hnone | ⟨s'', fr'', unif'', turns'', hret', hle', hend', hrun'⟩
            · exact .inl (Body.returns_of_yields (hbody ▸ Body.yields_call hret
                (Body.yields_call hnone (Body.yields_ret _))))
            · refine .inr ⟨s'', fr'', unif'', turns'', ?_, by omega, hend', hrun'⟩
              exact Body.returns_of_yields (hbody ▸ Body.yields_call hret
                (Body.yields_call hret' (Body.yields_ret _)))

theorem exists_run_of_exit {st st' : UnifyState} {out : Bool} (hrun : ReflTransGen (Goes hp) st st')
    (hexit : st'.turn hp = .exit out) : ∃ turns, st.run hp turns = some (out, st'.memory) := by
  induction hrun using ReflTransGen.head_induction_on with
  | refl => exact ⟨1, by rw [UnifyState.run, hexit]⟩
  | head hgo _ ih =>
    obtain ⟨turns, hturns⟩ := ih
    exact ⟨turns + 1, (UnifyState.run_of_goes hgo turns).trans hturns⟩

/-- The loop is left exactly if the recursion returns. -/
theorem exists_run_iff (hp : Heap) (s : Store) (frame : Frame) :
    (∃ turns res, (UnifyState.init s frame).run hp turns = some res) ↔
      ∃ w, Body.Returns (blockBody hp) (frame, s) w := by
  constructor
  · rintro ⟨turns, res, h⟩
    rcases blockReturns_of_run h with hnone | ⟨s', -, -, -, hret, -⟩
    · exact ⟨none, hnone⟩
    · exact ⟨some s', hret⟩
  · rintro ⟨w, n, hn⟩
    have hleaves : LeavesBlock hp (.init s frame) w := leavesBlock_of_run hn
    cases w with
    | none =>
      obtain ⟨st', hrun, hexit⟩ := hleaves
      obtain ⟨turns, hturns⟩ := exists_run_of_exit hrun hexit
      exact ⟨turns, _, hturns⟩
    | some s' =>
      obtain ⟨fr', unif', hrun, hend⟩ := hleaves
      have hexit : UnifyState.turn hp ⟨fr', [], unif', s'⟩ = .exit true := by
        unfold UnifyState.turn
        rw [if_neg hend]
      obtain ⟨turns, hturns⟩ := exists_run_of_exit hrun hexit
      exact ⟨turns, _, hturns⟩

-- ---------------------------------------------------------------------------
-- Finitely many blocks and memories
-- ---------------------------------------------------------------------------

/-- The words that the cells of a region can come to hold. -/
def wordsOf (s : Store) (R : Finset Addr) : Set Cell := s.cell '' R ∪ Cell.ref '' R

/-- The store has been written in the region only, with the words of the region. -/
structure StoreIn (R : Finset Addr) (s0 s : Store) : Prop where
  words : ∀ a ∈ R, s.cell a ∈ wordsOf s0 R
  outside : ∀ a ∉ R, s.cell a = s0.cell a

variable {R : Finset Addr} {s0 s : Store}

theorem within_of_mem_wordsOf (hR : Closed hp R s0.cell) {c : Cell} (hc : c ∈ wordsOf s0 R) :
    c.Within hp R := by
  rcases hc with ⟨a, ha, rfl⟩ | ⟨a, ha, rfl⟩
  · exact hR a ha
  · exact Cell.within_ref.2 ha

theorem StoreIn.closed (h : StoreIn R s0 s) (hR : Closed hp R s0.cell) : Closed hp R s.cell :=
  fun a ha => within_of_mem_wordsOf hR (h.words a ha)

theorem StoreIn.deref_mem (h : StoreIn R s0 s) (hR : Closed hp R s0.cell) {a : Addr} (ha : a ∈ R) :
    s.deref (.ref a) ∈ wordsOf s0 R := by
  induction a using Store.deref_induction (s := s) with
  | unbound a hcell =>
    rw [Store.deref_of_unbound hcell]
    exact .inr ⟨a, ha, rfl⟩
  | ref a b hcell hb ih =>
    rw [Store.deref_of_cell hcell fun heq => hb (Cell.ref.inj heq)]
    have hwithin := h.closed hR a ha
    rw [hcell] at hwithin
    exact ih (Cell.within_ref.1 hwithin)
  | nonvar a d hcell =>
    rw [Store.deref_of_cell hcell fun heq => by cases heq]
    have hword := h.words a ha
    rwa [hcell] at hword

theorem StoreIn.set (h : StoreIn R s0 s) {a : Addr} (ha : a ∈ R) {c : Cell} (hc : c ∈ wordsOf s0 R)
    (hw : s.Writable a c) : StoreIn R s0 (s.set a c hw) := by
  constructor
  · intro b hb
    by_cases hba : b = a
    · subst hba
      simpa [Store.set] using hc
    · simpa [Store.set, hba] using h.words b hb
  · intro b hb
    have hba : b ≠ a := fun hba => hb (hba ▸ ha)
    exact (Function.update_of_ne hba c s.cell).trans (h.outside b hb)

theorem finite_storeIn (R : Finset Addr) (s0 : Store) : {s | StoreIn R s0 s}.Finite := by
  have hW : (wordsOf s0 R).Finite := (R.finite_toSet.image _).union (R.finite_toSet.image _)
  have hfun : {f : {a // a ∈ R} → Cell | ∀ a, f a ∈ wordsOf s0 R}.Finite := Set.Finite.pi' fun _ => hW
  refine Set.Finite.of_injOn (f := fun (s : Store) (a : {a // a ∈ R}) => s.cell a.1) ?_ ?_ hfun
  · intro s hs a
    exact hs.words a.1 a.2
  · intro s hs s' hs' heq
    refine Store.ext (funext fun a => ?_)
    by_cases ha : a ∈ R
    · exact congrFun heq ⟨a, ha⟩
    · exact (hs.outside a ha).trans (hs'.outside a ha).symm

/-- The blocks of the words of a region, and one pair of blocks more. -/
structure BlocksIn (hp : Heap) (R : Finset Addr) (s0 : Store) (B : Set (Addr × ℕ)) : Prop where
  finite : B.Finite
  words : ∀ d, Cell.nonvar d ∈ wordsOf s0 R → d.block hp ∈ B
  cells : ∀ b ∈ B, ∀ a ∈ List.range' b.1 b.2, a ∈ R

/-- The call is in a pair of blocks of the region, on a store of the region. -/
structure BlockIn (B : Set (Addr × ℕ)) (R : Finset Addr) (s0 : Store) (c : Frame × Store) : Prop where
  frame : ∃ l r n i, (l, n) ∈ B ∧ (r, n) ∈ B ∧ i ≤ n ∧ c.1 = ⟨l + i, l + n, r + i⟩
  store : StoreIn R s0 c.2

variable {B : Set (Addr × ℕ)} {fr : Frame}

theorem finite_blockIn (hB : B.Finite) (R : Finset Addr) (s0 : Store) : {c | BlockIn B R s0 c}.Finite := by
  have hframes : {fr : Frame | ∃ l r n i, (l, n) ∈ B ∧ (r, n) ∈ B ∧ i ≤ n ∧
      fr = ⟨l + i, l + n, r + i⟩}.Finite := by
    have hfin : (⋃ b ∈ B ×ˢ B, (fun i => (⟨b.1.1 + i, b.1.1 + b.1.2, b.2.1 + i⟩ : Frame)) ''
        Set.Iic b.1.2).Finite :=
      (hB.prod hB).biUnion fun b _ => (Set.finite_Iic _).image _
    refine hfin.subset ?_
    rintro fr ⟨l, r, n, i, hl, hr, hi, rfl⟩
    exact Set.mem_biUnion (show ((l, n), (r, n)) ∈ B ×ˢ B from ⟨hl, hr⟩) ⟨i, hi, rfl⟩
  exact (hframes.prod (finite_storeIn R s0)).subset fun c hc => ⟨hc.frame, hc.store⟩

/-- The cells of the next pair are in the region. -/
theorem BlockIn.mem (hB : BlocksIn hp R s0 B) (h : BlockIn B R s0 (fr, s)) (hlt : fr.pt0 < fr.pt0End) :
    fr.pt0 ∈ R ∧ fr.pt1 ∈ R := by
  obtain ⟨l, r, n, i, hl, hr, -, hfr⟩ := h.frame
  obtain rfl : fr = ⟨l + i, l + n, r + i⟩ := hfr
  have hi : i < n := Nat.lt_of_add_lt_add_left hlt
  exact ⟨hB.cells _ hl _ (List.mem_range'_1.2 ⟨by simp, by simpa using hi⟩),
    hB.cells _ hr _ (List.mem_range'_1.2 ⟨by simp, by simpa using hi⟩)⟩

theorem BlockIn.advance (h : BlockIn B R s0 (fr, s)) (hlt : fr.pt0 < fr.pt0End) {s' : Store}
    (hs : StoreIn R s0 s') : BlockIn B R s0 (fr.advance, s') := by
  obtain ⟨l, r, n, i, hl, hr, -, hfr⟩ := h.frame
  obtain rfl : fr = ⟨l + i, l + n, r + i⟩ := hfr
  exact ⟨⟨l, r, n, i + 1, hl, hr, Nat.lt_of_add_lt_add_left hlt, rfl⟩, hs⟩

/-- A binding and a descent stay in the region. -/
theorem BlockIn.bind (hB : BlocksIn hp R s0 B) (hR : Closed hp R s0.cell) (h : BlockIn B R s0 (fr, s))
    (hlt : fr.pt0 < fr.pt0End) {a : Addr} {c : Cell} (hc : s.Writable a c)
    (hstep : unifyArgs hp s fr.pt0 fr.pt1 = .bind a c) : StoreIn R s0 (s.set a c hc) := by
  obtain ⟨h0, h1⟩ := h.mem hB hlt
  have hw0 := h.store.deref_mem hR h0
  have hw1 := h.store.deref_mem hR h1
  obtain ⟨-, ⟨hd0, hd1⟩ | ⟨hd0, hd1⟩⟩ := unifyWords_bind bindsVars_unifyGlobalCells hstep
  · rw [hd0] at hw0
    exact h.store.set (Cell.within_ref.1 (within_of_mem_wordsOf hR hw0)) (hd1 ▸ hw1) hc
  · rw [hd1] at hw1
    exact h.store.set (Cell.within_ref.1 (within_of_mem_wordsOf hR hw1)) (hd0 ▸ hw0) hc

theorem BlockIn.visit (hB : BlocksIn hp R s0 B) (hR : Closed hp R s0.cell) (h : BlockIn B R s0 (fr, s))
    (hlt : fr.pt0 < fr.pt0End) {l r : Addr} {n : ℕ} {d1 : Nonvar} (hc : s.Writable fr.pt0 (.nonvar d1))
    (hstep : unifyArgs hp s fr.pt0 fr.pt1 = .visit l r n d1) :
    BlockIn B R s0 (⟨l, l + n, r⟩, s.set fr.pt0 (.nonvar d1) hc) := by
  obtain ⟨h0, h1⟩ := h.mem hB hlt
  have hw0 := h.store.deref_mem hR h0
  have hw1 := h.store.deref_mem hR h1
  have hspec := unifyArgs_spec hp s fr.pt0 fr.pt1
  rw [hstep] at hspec
  cases hspec with
  | visit hd0 hd1 hl hr _ =>
    rw [hd0] at hw0
    rw [hd1] at hw1
    exact ⟨⟨l, r, n, 0, hl ▸ hB.words _ hw0, hr ▸ hB.words _ hw1, Nat.zero_le n, rfl⟩,
      h.store.set h0 hw1 hc⟩

/-- What a call in the region returns is a store of the region. -/
def BlockContract (B : Set (Addr × ℕ)) (R : Finset Addr) (s0 : Store) (c : Frame × Store)
    (w : Option Store) : Prop :=
  BlockIn B R s0 c → ∀ s', w = some s' → StoreIn R s0 s'

theorem keeps_blockBody (hB : BlocksIn hp R s0 B) (hR : Closed hp R s0.cell) (c : Frame × Store) :
    Body.Keeps (BlockContract B R s0) (BlockContract B R s0 c) (blockBody hp c) := by
  obtain ⟨fr, s⟩ := c
  have hspec := blockBody_spec hp fr s
  generalize blockBody hp (fr, s) = b at hspec
  cases hspec with
  | done hlt =>
    intro hc s' hs'
    obtain rfl := Option.some.inj hs'
    exact hc.store
  | fail hlt hstep =>
    intro hc s' hs'
    cases hs'
  | next hlt hstep => exact fun w hw hc => hw (hc.advance hlt hc.store)
  | bind hset hlt hstep => exact fun w hw hc => hw (hc.advance hlt (hc.bind hB hR hlt hset hstep))
  | visit hset hlt hstep =>
    intro w hw
    cases w with
    | none =>
      intro hc s' hs'
      cases hs'
    | some s1 =>
      intro w' hw' hc
      exact hw' (hc.advance hlt (hw (hc.visit hB hR hlt hset hstep) s1 rfl))

theorem visits_blockBody (hB : BlocksIn hp R s0 B) (hR : Closed hp R s0.cell) (c : Frame × Store)
    (hc : BlockIn B R s0 c) : Body.Visits (BlockContract B R s0) (BlockIn B R s0) (blockBody hp c) := by
  obtain ⟨fr, s⟩ := c
  have hspec := blockBody_spec hp fr s
  generalize blockBody hp (fr, s) = b at hspec
  cases hspec with
  | done hlt => trivial
  | fail hlt hstep => trivial
  | next hlt hstep => exact ⟨hc.advance hlt hc.store, fun _ _ => trivial⟩
  | bind hset hlt hstep =>
    exact ⟨hc.advance hlt (hc.bind hB hR hlt hset hstep), fun _ _ => trivial⟩
  | visit hset hlt hstep =>
    have hvisit := hc.visit hB hR hlt hset hstep
    refine ⟨hvisit, fun w hw => ?_⟩
    cases w with
    | none => trivial
    | some s1 => exact ⟨hc.advance hlt (hw hvisit s1 rfl), fun _ _ => trivial⟩

variable (hp s0) in
/-- No block is entered again from inside itself, at the same pair and with the same
memory. -/
def NoBlockAgain (frame : Frame) : Prop :=
  ∀ c, ReflTransGen (Body.Calls (blockBody hp)) c (frame, s0) →
    ¬ TransGen (Body.Calls (blockBody hp)) c c

/-- On rational terms the loop is left exactly if no block is entered again from
inside itself. -/
theorem exists_run_iff_noBlockAgain (hR : Closed hp R s0.cell) {l r : Addr} {n : ℕ}
    (hl : ∀ a ∈ List.range' l n, a ∈ R) (hr : ∀ a ∈ List.range' r n, a ∈ R) :
    (∃ turns res, (UnifyState.init s0 ⟨l, l + n, r⟩).run hp turns = some res) ↔
      NoBlockAgain hp s0 ⟨l, l + n, r⟩ := by
  let B : Set (Addr × ℕ) :=
    insert (l, n) (insert (r, n) (Nonvar.block hp '' {d | Cell.nonvar d ∈ wordsOf s0 R}))
  have hB : BlocksIn hp R s0 B := by
    refine ⟨?_, fun d hd => .inr (.inr ⟨d, hd, rfl⟩), ?_⟩
    · have hW : (wordsOf s0 R).Finite := (R.finite_toSet.image _).union (R.finite_toSet.image _)
      have hd : {d | Cell.nonvar d ∈ wordsOf s0 R}.Finite :=
        hW.preimage fun d _ d' _ h => Cell.nonvar.inj h
      exact ((hd.image _).insert _).insert _
    · rintro b (rfl | rfl | ⟨d, hd, rfl⟩)
      · exact hl
      · exact hr
      · exact within_of_mem_wordsOf hR hd
  have hstart : BlockIn B R s0 (⟨l, l + n, r⟩, s0) :=
    ⟨⟨l, r, n, 0, .inl rfl, .inr (.inl rfl), Nat.zero_le n, rfl⟩,
      ⟨fun a ha => .inl ⟨a, ha, rfl⟩, fun _ _ => rfl⟩⟩
  have hfin : {c | ReflTransGen (Body.Calls (blockBody hp)) c (⟨l, l + n, r⟩, s0)}.Finite := by
    refine (finite_blockIn hB.finite R s0).subset fun c hc => ?_
    exact Body.invariant (fun _ _ => Body.Returns.contract (keeps_blockBody hB hR))
      (visits_blockBody hB hR) hstart hc
  rw [exists_run_iff, Body.exists_returns_iff, Body.acc_iff_acyclic hfin]
  rfl

end Yap
