-- SUMMARY: Unification with occurs check always ends, succeeds exactly on unifiable terms, leaves an idempotent most general unifier and no cycle, and its trail undoes a failure, unless the top level compares two boxes wrongly.
import Yap.OccursCheck.Run
import Yap.Unify.Correct

/-!
# Correctness of unification with occurs check

Nothing is assumed about the terms but that they are finite. Local variables are
not referred to by terms, which is why the top level binds them without a search.
-/

namespace Yap

open Relation

variable {hp : Heap} {regs : Registers} {s real : Store} {d0 d1 : Cell} {t u : Term} {R : Finset Addr}

-- ---------------------------------------------------------------------------
-- Local variables
-- ---------------------------------------------------------------------------

/-- A word refers to global cells only. -/
def Cell.Global (hp : Heap) (c : Cell) : Prop := ∀ a ∈ c.cells hp, a < hp.hr

/-- Local variables are not referred to by global cells, nor by words with arguments. -/
structure LocalsOutside (hp : Heap) (s : Store) (d0 d1 : Cell) : Prop where
  refs : ∀ a, a < hp.hr → (s.cell a).Global hp
  args : ∀ a d, s.cell a = .nonvar d → (Cell.nonvar d).Global hp
  left : ∀ d, d0 = .nonvar d → (Cell.nonvar d).Global hp
  right : ∀ d, d1 = .nonvar d → (Cell.nonvar d).Global hp

theorem global_of_deref {c : Cell} (hargs : ∀ a d, s.cell a = .nonvar d → (Cell.nonvar d).Global hp)
    (hc : ∀ d, c = .nonvar d → (Cell.nonvar d).Global hp) {d : Nonvar} (hd : s.deref c = .nonvar d) :
    (Cell.nonvar d).Global hp := by
  cases c with
  | nonvar e => exact hc d hd
  | ref a =>
      rw [Store.deref] at hd
      induction a using Store.deref_induction (s := s) with
      | unbound a ha => rw [Store.derefCell_unbound ha] at hd; cases hd
      | ref a b hcell hb ih =>
          rw [Store.derefCell_ne (by simp [hcell, hb]), hcell] at hd
          exact ih (by rintro e ⟨⟩) hd
      | nonvar a e hcell =>
          rw [Store.derefCell_ne (by simp [hcell]), hcell] at hd
          obtain rfl := Cell.nonvar.inj hd
          exact hargs a _ hcell

/-- The global cells of a region. -/
def globalCells (hp : Heap) (R : Finset Addr) : Finset Addr := R.filter (· < hp.hr)

theorem mem_globalCells {a : Addr} : a ∈ globalCells hp R ↔ a ∈ R ∧ a < hp.hr := Finset.mem_filter

theorem LocalsOutside.closed (h : LocalsOutside hp s d0 d1) (hR : Closed hp R s.cell) :
    Closed hp (globalCells hp R) s.cell := by
  intro a ha b hb
  obtain ⟨haR, hlt⟩ := mem_globalCells.mp ha
  exact mem_globalCells.mpr ⟨hR a haR b hb, h.refs a hlt b hb⟩

-- ---------------------------------------------------------------------------
-- The claim about unification with occurs check
-- ---------------------------------------------------------------------------

variable (hp regs) in
/-- The call answers `out`, leaves the memory `m` and has trailed `trail`. -/
def OCAnswers (s : Store) (d0 d1 : Cell) (out : Bool) (m : Addr → Cell) (trail : List Addr) : Prop :=
  ∃ turns, ocUnify hp regs turns s d0 d1 = some (out, m, trail)

variable (hp regs) in
/-- The call ends and succeeds exactly on unifiable terms. When it succeeds it leaves
    an idempotent most general unifier, and all finite terms stay finite. When it
    fails, resetting the trail gives back every cell older than the choice point. -/
structure OccursUnifies (s : Store) (d0 d1 : Cell) (t u : Term) : Prop where
  verdict : ∃ out m trail, OCAnswers hp regs s d0 d1 out m trail ∧ (out = true ↔ Unifiable t u)
  unifier : ∀ m trail, OCAnswers hp regs s d0 d1 true m trail → MostGeneral hp s.cell m t u
  idempotent : ∀ m trail, OCAnswers hp regs s d0 d1 true m trail → ∀ v w, t.Occurs v ∨ u.Occurs v →
    Unfolds hp m (.ref v) w → ∀ x, w.Occurs x → m x = .ref x
  acyclic : ∀ m trail, OCAnswers hp regs s d0 d1 true m trail → ∀ c w, Unfolds hp s.cell c w →
    ∃ w', Unfolds hp m c w'
  undone : ∀ m trail, OCAnswers hp regs s d0 d1 false m trail →
    ∀ a, regs.Older a → resetTrail trail m a = s.cell a

variable (hp) in
/-- The memory extends the store to finite terms that are equal. -/
structure Solved (s : Store) (d0 d1 : Cell) (R : Finset Addr) (real : Store) : Prop
    extends Extension hp s d0 d1 R real where
  left : ∃ w, Unfolds hp real.cell d0 w
  right : ∃ w, Unfolds hp real.cell d1 w
  equal : ∀ σ, Models hp R real.cell σ → (d0.value hp σ).Identical (d1.value hp σ)

theorem Problem.unifiable_of_solved (h : Problem hp s d0 d1 t u R) (hreal : Solved hp s d0 d1 R real) :
    Unifiable t u := by
  obtain ⟨θ, -, hθ, -⟩ :=
    (h.mostGeneral hreal.toExtension hreal.left hreal.right hreal.equal).unifier
  exact ⟨θ, hθ⟩

/-- Finite terms stay finite. -/
theorem Problem.acyclic_of_solved (h : Problem hp s d0 d1 t u R) (hreal : Solved hp s d0 d1 R real)
    {c : Cell} {w : Term} (hw : Unfolds hp s.cell c w) : ∃ w', Unfolds hp real.cell c w' := by
  refine hw.extend hreal.extend fun v hv => ?_
  by_cases hvR : v ∈ R
  · exact h.finite_cells hreal.extend hreal.left hreal.right v hvR
  · obtain ⟨R₁, hc, hR₁⟩ := hw.region (V := Set.univ) fun _ _ => trivial
    exact ⟨_, .unbound ((hreal.outside v hvR).trans (hw.occurs hR₁.closed hc hv).2)⟩

-- ---------------------------------------------------------------------------
-- The loop
-- ---------------------------------------------------------------------------

section Loop

variable {l r : Addr} {n : ℕ} {e0 e1 : Nonvar}

/-- The region holds finite terms. -/
theorem Problem.finite_region (h : Problem hp s d0 d1 t u R) : ∀ x ∈ R, ∃ w, Unfolds hp s.cell (.ref x) w :=
  fun x hx => (h.region.finite x hx).imp fun _ hw => hw.1

theorem Problem.loop_succeeds (h : Problem hp s d0 d1 t u R) (hv : Visits hp s d0 d1 l r n e0 e1)
    {turns : ℕ} {m : Addr → Cell} {trail : List Addr}
    (hrun : (UnifyState.init s ⟨l, l + n, r⟩).ocRun hp regs turns [] = some (true, m, trail)) :
    ∃ real, real.cell = m ∧ Solved hp s d0 d1 R real := by
  obtain ⟨st, trail₁, st₂, new, hreach, hstep, rfl, -⟩ := exists_ocExit (h.inRegion hv) .refl hrun
  cases hstep with
  | done hexit =>
      obtain ⟨real, hreal⟩ := exists_reached hreach.run
      have hext := h.extension_reached hv hreach.run hreal
      have hfinite : ∀ x ∈ R, ∃ w, Unfolds hp real.cell (.ref x) w := by
        rw [hreal.memory]
        exact hreach.finite (h.inRegion hv) h.finite_region
      refine ⟨real, hreal.memory, hext, h.left.extend hext.extend fun v hx => ?_,
        h.right.extend hext.extend fun v hx => ?_, fun σ hσ => ?_⟩
      · exact hfinite v (h.occurs (.inl hx)).1
      · exact hfinite v (h.occurs (.inr hx)).1
      · rcases UnifyState.turn_exit hexit with ⟨-, hend⟩ | ⟨hfalse, -⟩
        · exact h.identical_of_end hv hreach.run hreal hend hσ
        · cases hfalse

theorem Problem.loop_fails (h : Problem hp s d0 d1 t u R) (hv : Visits hp s d0 d1 l r n e0 e1)
    {turns : ℕ} {m : Addr → Cell} {trail : List Addr}
    (hrun : (UnifyState.init s ⟨l, l + n, r⟩).ocRun hp regs turns [] = some (false, m, trail)) :
    ¬ Unifiable t u := by
  rintro ⟨τ, hτ⟩
  obtain ⟨st, trail₁, st₂, new, hreach, hstep, -, -⟩ := exists_ocExit (h.inRegion hv) .refl hrun
  have hsat := (h.satisfies hv (h.models τ) (h.unifies_iff.mp hτ)).run hreach.run
  cases hstep with
  | fail hexit => exact hsat.not_fails hexit
  | cyclic hmove hlt hcycle => exact hcycle (hsat.models.unfolds hsat.closed (hsat.pt0_mem hlt))
  | cyclicBind hb hcycle =>
      have hbound := hsat.binds hb
      exact hcycle (hbound.models.unfolds hbound.closed (hb.within hsat.toInRegion).1)

theorem Problem.loop_trailed (h : Problem hp s d0 d1 t u R) (hv : Visits hp s d0 d1 l r n e0 e1)
    (hlocals : LocalsOutside hp s d0 d1) (hb : hp.hr ≤ regs.b) {turns : ℕ} {out : Bool} {m : Addr → Cell}
    {trail : List Addr}
    (hrun : (UnifyState.init s ⟨l, l + n, r⟩).ocRun hp regs turns [] = some (out, m, trail)) :
    Trailed s regs.Older m trail := by
  have hin := h.inRegion hv
  have hglobal : InRegion hp (globalCells hp R) (.init s ⟨l, l + n, r⟩) := by
    refine ⟨hlocals.closed h.region.closed, fun pr hpr => ?_, by rintro _ ⟨⟩⟩
    obtain ⟨hl, hr⟩ := hin.pairs pr hpr
    rw [Visits.pairs] at hpr
    obtain ⟨hpl, hpr⟩ := List.of_mem_zip hpr
    refine ⟨mem_globalCells.mpr ⟨hl, ?_⟩, mem_globalCells.mpr ⟨hr, ?_⟩⟩
    · refine global_of_deref hlocals.args hlocals.left hv.left _ ?_
      rwa [Cell.cells, Nonvar.cells_of_block hv.left_block]
    · refine global_of_deref hlocals.args hlocals.right hv.right _ ?_
      rwa [Cell.cells, Nonvar.cells_of_block hv.right_block]
  obtain ⟨st, trail₁, st₂, new, hreach, hstep, rfl, rfl⟩ := exists_ocExit hglobal .refl hrun
  exact hreach.trailed_exit hglobal (fun a ha => ((mem_globalCells.mp ha).2.trans_le hb).le) hstep

end Loop

-- ---------------------------------------------------------------------------
-- Bindings of the top level
-- ---------------------------------------------------------------------------

/-- The search in the arguments of a word finds no cycle exactly when they unfold. -/
theorem rationalTree_eq_some (hR : Closed hp R s.cell) {d : Nonvar} (hd : (Cell.nonvar d).Within hp R)
    {turns : ℕ} {found : Bool} (h : rationalTree hp turns s d = some found) :
    found = false ↔ ∀ a ∈ d.cells hp, ∃ w, Unfolds hp s.cell (.ref a) w := by
  have hcells : remaining (d.block hp).1 ((d.block hp).1 + (d.block hp).2) = d.cells hp := remaining_block rfl
  obtain ⟨turns', found', hrun, hfound⟩ := exists_search (l := (d.block hp).1) (n := (d.block hp).2) hR
    fun a ha => by
      rw [hcells] at ha
      exact hd a ha
  have hmax := TreeState.run_le (Nat.le_max_left turns turns') h
  obtain rfl : found = found' := Option.some.inj (hmax.symm.trans (hrun _ (Nat.le_max_right ..)))
  rw [hfound, hcells]

theorem exists_rationalTree (hR : Closed hp R s.cell) {d : Nonvar} (hd : (Cell.nonvar d).Within hp R) :
    ∃ turns found, rationalTree hp turns s d = some found := by
  have hcells : remaining (d.block hp).1 ((d.block hp).1 + (d.block hp).2) = d.cells hp := remaining_block rfl
  obtain ⟨turns, found, hrun, -⟩ := exists_search (l := (d.block hp).1) (n := (d.block hp).2) hR
    fun a ha => by
      rw [hcells] at ha
      exact hd a ha
  exact ⟨turns, found, hrun turns le_rfl⟩

section Bind

variable {a : Addr} {c : Cell}

/-- A binding of the top level is to a word that unfolds. -/
theorem Problem.bind_unfolds (h : Problem hp s d0 d1 t u R) (hstep : unifyTop hp s d0 d1 = .bind a c) :
    a ∈ R ∧ c.Within hp R ∧ ∃ w, Unfolds hp s.cell c w := by
  have hw0 := Store.deref_within h.region.closed h.left_within
  have hw1 := Store.deref_within h.region.closed h.right_within
  obtain ⟨-, ⟨h0, h1⟩ | ⟨h0, h1⟩⟩ := unifyWords_bind (bindsVars_unifyCells hp.hr) hstep
  · exact ⟨Cell.within_ref.mp (h0 ▸ hw0), h1 ▸ hw1, u, h1 ▸ unfolds_deref.mpr h.right⟩
  · exact ⟨Cell.within_ref.mp (h1 ▸ hw1), h0 ▸ hw0, t, h0 ▸ unfolds_deref.mpr h.left⟩

/-- A binding that leaves the variable a finite term solves the problem. -/
theorem Problem.bind_solved (h : Problem hp s d0 d1 t u R) (hstep : unifyTop hp s d0 d1 = .bind a c)
    (hcell : real.cell = Function.update s.cell a c) (ha : ∃ w, Unfolds hp real.cell (.ref a) w) :
    Solved hp s d0 d1 R real := by
  obtain ⟨real', hcell', hext⟩ := h.extension_bind hstep
  obtain rfl : real = real' := Store.ext (hcell.trans hcell'.symm)
  have hvars : ∀ v, t.Occurs v ∨ u.Occurs v → ∃ w, Unfolds hp real.cell (.ref v) w := by
    intro v hv
    by_cases hva : v = a
    · exact hva ▸ ha
    · exact ⟨_, .unbound (by rw [hcell, Function.update_of_ne hva, (h.occurs hv).2])⟩
  refine ⟨hext, h.left.extend hext.extend fun v hv => hvars v (.inl hv),
    h.right.extend hext.extend fun v hv => hvars v (.inr hv), fun σ hσ => ?_⟩
  rw [hcell] at hσ
  exact h.identical_of_bind hstep hσ

/-- A binding to a term without the variable solves the problem. -/
theorem Problem.bind_solved_of_not_occurs (h : Problem hp s d0 d1 t u R)
    (hstep : unifyTop hp s d0 d1 = .bind a c) (hcell : real.cell = Function.update s.cell a c)
    {w : Term} (hw : Unfolds hp s.cell c w) (hocc : ¬ w.Occurs a) : Solved hp s d0 d1 R real := by
  obtain ⟨ha, hwritable⟩ := unifyWords_writable (bindsVars_unifyCells hp.hr) hstep
  obtain ⟨-, hwithin, -⟩ := h.bind_unfolds hstep
  have hne : c ≠ .ref a := by
    rintro rfl
    exact (hwritable a rfl).1 rfl
  refine h.bind_solved hstep hcell ?_
  rw [hcell]
  refine unfolds_update ha hne hw hocc (.unbound ha) (fun x hx => ?_) fun x hx =>
    (hw.occurs h.region.closed hwithin hx).2
  rwa [Term.var.inj (List.mem_singleton.mp hx)]

/-- The search after a binding finds no cycle exactly when the variable does not occur. -/
theorem Problem.bind_search (h : Problem hp s d0 d1 t u R) {d : Nonvar}
    (hstep : unifyTop hp s d0 d1 = .bind a (.nonvar d))
    (hcell : real.cell = Function.update s.cell a (.nonvar d)) {turns : ℕ} {found : Bool}
    (hfound : rationalTree hp turns real d = some found) :
    (found = false → Solved hp s d0 d1 R real) ∧ (found = true → ¬ Unifiable t u) := by
  obtain ⟨real', hcell', hext⟩ := h.extension_bind hstep
  obtain rfl : real = real' := Store.ext (hcell.trans hcell'.symm)
  obtain ⟨-, hwithin, -⟩ := h.bind_unfolds hstep
  have hiff := rationalTree_eq_some hext.closed hwithin hfound
  constructor
  · intro hno
    obtain ⟨w, hw⟩ := unfolds_of_cells (hiff.mp hno)
    have hacell : real.cell a = .nonvar d := by rw [hcell, Function.update_self]
    exact h.bind_solved hstep hcell ⟨w, .ref (by simp [hacell]) (hacell ▸ hw)⟩
  · rintro hyes ⟨τ, hτ⟩
    have hσ := hext.forward _ (h.models τ) (h.unifies_iff.mp hτ)
    have hno := hiff.mpr fun x hx => hσ.unfolds hext.closed (hwithin x hx)
    rw [hyes] at hno
    cases hno

/-- A local variable is not in the term that it is bound to. -/
theorem Problem.bind_local (h : Problem hp s d0 d1 t u R) (hlocals : LocalsOutside hp s d0 d1) {d : Nonvar}
    (hstep : unifyTop hp s d0 d1 = .bind a (.nonvar d)) (ha : hp.hr < a)
    (hcell : real.cell = Function.update s.cell a (.nonvar d)) : Solved hp s d0 d1 R real := by
  obtain ⟨-, hwithin, w, hw⟩ := h.bind_unfolds hstep
  have hglobal : (Cell.nonvar d).Within hp (globalCells hp R) := by
    intro x hx
    refine mem_globalCells.mpr ⟨hwithin x hx, ?_⟩
    obtain ⟨-, ⟨-, h1⟩ | ⟨h0, -⟩⟩ := unifyWords_bind (bindsVars_unifyCells hp.hr) hstep
    · exact global_of_deref hlocals.args hlocals.right h1 x hx
    · exact global_of_deref hlocals.args hlocals.left h0 x hx
  refine h.bind_solved_of_not_occurs hstep hcell hw fun hocc => ?_
  have hmem := (hw.occurs (hlocals.closed h.region.closed) hglobal hocc).1
  exact absurd (mem_globalCells.mp hmem).2 ha.not_gt

end Bind

-- ---------------------------------------------------------------------------
-- Answers
-- ---------------------------------------------------------------------------

variable (hp) in
/-- What an answer leaves: finite terms that are equal, or no solution. -/
structure AnswerSpec (s : Store) (d0 d1 : Cell) (t u : Term) (R : Finset Addr) (out : Bool)
    (m : Addr → Cell) : Prop where
  solved : out = true → ∃ real : Store, real.cell = m ∧ Solved hp s d0 d1 R real
  failed : out = false → ¬ Unifiable t u

theorem AnswerSpec.success {m : Addr → Cell} (hcell : real.cell = m) (hreal : Solved hp s d0 d1 R real) :
    AnswerSpec hp s d0 d1 t u R true m := ⟨fun _ => ⟨real, hcell, hreal⟩, by rintro ⟨⟩⟩

theorem AnswerSpec.failure {m : Addr → Cell} (h : ¬ Unifiable t u) :
    AnswerSpec hp s d0 d1 t u R false m := ⟨by rintro ⟨⟩, fun _ => h⟩

theorem Problem.not_unifiable_of_fail (h : Problem hp s d0 d1 t u R) (hsound : BoxesSound hp s d0 d1)
    (hstep : unifyTop hp s d0 d1 = .fail) : ¬ Unifiable t u := by
  rintro ⟨τ, hτ⟩
  obtain ⟨h0, h1⟩ := h.derefs (h.models τ)
  have hspec := hsound.spec
  rw [hstep] at hspec
  cases hspec with
  | fail hkey => exact hkey _ _ (by rw [h0, h1, h.unifies_iff.mp hτ])

theorem Problem.solved_of_next (h : Problem hp s d0 d1 t u R) (hsound : BoxesSound hp s d0 d1)
    (hstep : unifyTop hp s d0 d1 = .next) : Solved hp s d0 d1 R s :=
  ⟨h.extension_start, ⟨t, h.left⟩, ⟨u, h.right⟩, fun _ hσ => h.identical_of_next hsound hstep hσ⟩

/-- The search in one word finds nothing: it unfolds. -/
theorem Problem.search_left (h : Problem hp s d0 d1 t u R) {e : Nonvar} (he : s.deref d0 = .nonvar e)
    {turns : ℕ} {found : Bool} (hfound : rationalTree hp turns s e = some found) : found = false := by
  have hwithin := Store.deref_within h.region.closed h.left_within
  rw [he] at hwithin
  exact (rationalTree_eq_some h.region.closed hwithin hfound).mpr fun a ha => h.finite_region a (hwithin a ha)

theorem Problem.answerSpec (h : Problem hp s d0 d1 t u R) (hsound : BoxesSound hp s d0 d1)
    (hlocals : LocalsOutside hp s d0 d1) {out : Bool} {m : Addr → Cell} {trail : List Addr}
    (hanswer : OCAnswers hp regs s d0 d1 out m trail) : AnswerSpec hp s d0 d1 t u R out m := by
  obtain ⟨turns, hturns⟩ := hanswer
  unfold ocUnify at hturns
  split at hturns
  case h_1 hstep =>
    cases hturns
    exact .failure (h.not_unifiable_of_fail hsound hstep)
  case h_2 hstep =>
    have hsolved := h.solved_of_next hsound hstep
    split at hturns
    case h_1 e0 e1 h0 h1 =>
      split at hturns
      case isTrue =>
        obtain ⟨found, hfound, heq⟩ := Option.map_eq_some_iff.mp hturns
        obtain rfl := h.search_left h0 hfound
        cases heq
        exact .success rfl hsolved
      case isFalse =>
        cases hturns
        exact .success rfl hsolved
    case h_2 =>
      cases hturns
      exact .success rfl hsolved
  case h_3 a b hstep =>
    cases hturns
    obtain ⟨-, hwritable⟩ := unifyWords_writable (bindsVars_unifyCells hp.hr) hstep
    obtain ⟨real, hcell, -⟩ := h.extension_bind hstep
    refine .success hcell (h.bind_solved_of_not_occurs hstep hcell (.unbound (hwritable b rfl).2) fun hocc => ?_)
    exact (hwritable b rfl).1 (Term.var.inj (List.mem_singleton.mp hocc)).symm
  case h_4 a d hstep =>
    split at hturns
    case isTrue hlocal =>
      cases hturns
      obtain ⟨real, hcell, -⟩ := h.extension_bind hstep
      exact .success hcell (h.bind_local hlocals hstep hlocal.1 hcell)
    case isFalse =>
      obtain ⟨found, hfound, heq⟩ := Option.map_eq_some_iff.mp hturns
      cases heq
      obtain ⟨hno, hyes⟩ := h.bind_search hstep rfl hfound
      cases found with
      | false => exact .success rfl (hno rfl)
      | true => exact .failure (hyes rfl)
  case h_5 l r n d hstep =>
    obtain ⟨e0, hv⟩ := hsound.visits hstep
    cases out with
    | false => exact .failure (h.loop_fails hv hturns)
    | true =>
        obtain ⟨real, hcell, hreal⟩ := h.loop_succeeds hv hturns
        exact .success hcell hreal

/-- The call ends. -/
theorem Problem.exists_ocAnswer (h : Problem hp s d0 d1 t u R) (hsound : BoxesSound hp s d0 d1) :
    ∃ out m trail, OCAnswers hp regs s d0 d1 out m trail := by
  suffices hmain : ∃ turns r, ocUnify hp regs turns s d0 d1 = some r by
    obtain ⟨turns, ⟨out, m, trail⟩, hr⟩ := hmain
    exact ⟨out, m, trail, turns, hr⟩
  unfold ocUnify
  split
  case h_1 => exact ⟨0, _, rfl⟩
  case h_2 hstep =>
    split
    case h_1 e0 e1 h0 h1 =>
      split
      case isTrue =>
        have hwithin := Store.deref_within h.region.closed h.left_within
        rw [h0] at hwithin
        obtain ⟨turns, found, hfound⟩ := exists_rationalTree h.region.closed hwithin
        exact ⟨turns, _, by rw [hfound]; rfl⟩
      case isFalse => exact ⟨0, _, rfl⟩
    case h_2 => exact ⟨0, _, rfl⟩
  case h_3 => exact ⟨0, _, rfl⟩
  case h_4 a d hstep =>
    split
    case isTrue => exact ⟨0, _, rfl⟩
    case isFalse =>
      obtain ⟨-, hwithin, -⟩ := h.bind_unfolds hstep
      obtain ⟨turns, found, hfound⟩ :=
        exists_rationalTree (s := s.set a (.nonvar d) _) (h.region.closed.update hwithin a) hwithin
      exact ⟨turns, _, by rw [hfound]; rfl⟩
  case h_5 l r n d hstep =>
    obtain ⟨e0, hv⟩ := hsound.visits hstep
    exact exists_ocRun (h.inRegion hv) h.finite_region

-- ---------------------------------------------------------------------------
-- The trail
-- ---------------------------------------------------------------------------

/-- The top of the global stack is between the two limits of what is trailed. -/
def Registers.Around (regs : Registers) (hr : Addr) : Prop := regs.hb ≤ hr ∧ hr ≤ regs.b

theorem eq_of_mem_trailBind {a x : Addr} (h : x ∈ trailBind hp regs a) : x = a := by
  unfold trailBind trailGlobal trailLocal at h
  split at h <;> split at h <;> simp_all

/-- An older variable is trailed. -/
theorem mem_trailBind (hregs : regs.Around hp.hr) {a : Addr} (ha : regs.Older a) : a ∈ trailBind hp regs a := by
  unfold trailBind
  split
  case isTrue hlt =>
    have hb : a < regs.hb := ha.resolve_right (hlt.trans_le hregs.2).le.not_gt
    exact mem_trailGlobal.mpr ⟨rfl, hb⟩
  case isFalse hge =>
    have hb : regs.b < a := ha.resolve_left fun hlt => hge (hlt.trans_le hregs.1)
    rw [trailLocal, if_pos hb]
    exact List.mem_singleton.mpr rfl

theorem Problem.ocTrailed (h : Problem hp s d0 d1 t u R) (hsound : BoxesSound hp s d0 d1)
    (hlocals : LocalsOutside hp s d0 d1) (hregs : regs.Around hp.hr) {out : Bool} {m : Addr → Cell}
    {trail : List Addr} (hanswer : OCAnswers hp regs s d0 d1 out m trail) :
    Trailed s regs.Older m trail := by
  have hbind : ∀ {a : Addr} {c : Cell}, unifyTop hp s d0 d1 = .bind a c →
      Trailed s regs.Older (Function.update s.cell a c) (trailBind hp regs a) := by
    intro a c hstep
    obtain ⟨ha, -⟩ := unifyWords_writable (bindsVars_unifyCells hp.hr) hstep
    rw [← List.append_nil (trailBind hp regs a)]
    exact (trailed_start _).bind c ha (fun x hx => eq_of_mem_trailBind hx) (mem_trailBind hregs)
  obtain ⟨turns, hturns⟩ := hanswer
  unfold ocUnify at hturns
  split at hturns
  case h_1 =>
    cases hturns
    exact trailed_start _
  case h_2 =>
    split at hturns
    case h_1 =>
      split at hturns
      case isTrue =>
        obtain ⟨found, -, heq⟩ := Option.map_eq_some_iff.mp hturns
        cases heq
        exact trailed_start _
      case isFalse =>
        cases hturns
        exact trailed_start _
    case h_2 =>
      cases hturns
      exact trailed_start _
  case h_3 hstep =>
    cases hturns
    exact hbind hstep
  case h_4 hstep =>
    split at hturns
    case isTrue =>
      cases hturns
      exact hbind hstep
    case isFalse =>
      obtain ⟨found, -, heq⟩ := Option.map_eq_some_iff.mp hturns
      cases heq
      exact hbind hstep
  case h_5 hstep =>
    obtain ⟨e0, hv⟩ := hsound.visits hstep
    exact h.loop_trailed hv hlocals hregs.2 hturns

-- ---------------------------------------------------------------------------
-- The claim's equivalence
-- ---------------------------------------------------------------------------

theorem Problem.occursUnifies (h : Problem hp s d0 d1 t u R) (hsound : BoxesSound hp s d0 d1)
    (hlocals : LocalsOutside hp s d0 d1) (hregs : regs.Around hp.hr) :
    OccursUnifies hp regs s d0 d1 t u := by
  have hsolved : ∀ {m : Addr → Cell} {trail : List Addr}, OCAnswers hp regs s d0 d1 true m trail →
      ∃ real : Store, real.cell = m ∧ Solved hp s d0 d1 R real :=
    fun hanswer => (h.answerSpec hsound hlocals hanswer).solved rfl
  constructor
  case verdict =>
    obtain ⟨out, m, trail, hanswer⟩ := h.exists_ocAnswer hsound
    have hspec := h.answerSpec hsound hlocals hanswer
    refine ⟨out, m, trail, hanswer, ?_⟩
    cases out with
    | false => exact iff_of_false (by rintro ⟨⟩) (hspec.failed rfl)
    | true =>
        obtain ⟨real, -, hreal⟩ := hspec.solved rfl
        exact iff_of_true rfl (h.unifiable_of_solved hreal)
  case unifier =>
    intro m trail hanswer
    obtain ⟨real, rfl, hreal⟩ := hsolved hanswer
    exact h.mostGeneral hreal.toExtension hreal.left hreal.right hreal.equal
  case idempotent =>
    intro m trail hanswer v w hv hw x hx
    obtain ⟨real, rfl, hreal⟩ := hsolved hanswer
    exact (hw.occurs hreal.closed (Cell.within_ref.mpr (h.occurs hv).1) hx).2
  case acyclic =>
    intro m trail hanswer c w hw
    obtain ⟨real, rfl, hreal⟩ := hsolved hanswer
    exact h.acyclic_of_solved hreal hw
  case undone =>
    intro m trail hanswer a ha
    exact (h.ocTrailed hsound hlocals hregs hanswer).reset ha

/-- A store of unbound variables keeps its local variables apart. -/
theorem localsOutside_unbound {d0 d1 : Cell} (h0 : ∀ d, d0 = .nonvar d → (Cell.nonvar d).Global hp)
    (h1 : ∀ d, d1 = .nonvar d → (Cell.nonvar d).Global hp) : LocalsOutside hp .unbound d0 d1 := by
  refine ⟨fun a ha b hb => ?_, by rintro a d ⟨⟩, h0, h1⟩
  rw [List.mem_singleton.mp hb]
  exact ha

end Yap
