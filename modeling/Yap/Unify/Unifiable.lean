-- SUMMARY: The predicate unifiable and its library function: bindings that are really made and then undone from the trail, the equations read off the trail, and when both entry points answer and leave the variables as they were.
import Yap.Unify.Correct
import Yap.Unify.Descents
import Yap.Unify.Trees

/-!
# Unifiability

`unifiable_complex`, `unifiable`, `p_unifiable` and `Yap_Unifiable` of `unify.c`. The
loop is that of `IUnify_complex`; it also pushes each variable that it binds on the
trail. Terms may be cyclic, and unify if some assignment of finite or infinite trees
to their variables makes them equal.
-/

namespace Yap

open Relation

-- ---------------------------------------------------------------------------
-- The code
-- ---------------------------------------------------------------------------

/-- `UnifyAndTrailCells`. `UnifyAndTrailGlobalCells` writes as `UnifyGlobalCells`. -/
def unifyAndTrailCells (hr a b : Addr) : UnifyStep :=
  if b < a then
    if a < hr then .bind a (.ref b) else if b ≤ hr then .bind a (.ref b) else .bind b (.ref a)
  else if a < b then
    if b ≤ hr then .bind b (.ref a) else if a ≤ hr then .bind b (.ref a) else .bind a (.ref b)
  else .next

/-- `unifiable` up to its calls of `unifiable_complex`. -/
def unifiableTop (hp : Heap) (s : Store) (d0 d1 : Cell) : UnifyStep :=
  unifyWords hp (unifyAndTrailCells hp.hr) unifyBlob (s.deref d0) (s.deref d1)

/-- `DO_TRAIL` in one turn of the loop. -/
def UnifyState.trailed (hp : Heap) (st : UnifyState) : List Addr :=
  if st.frame.pt0 < st.frame.pt0End then
    match unifyArgs hp st.store st.frame.pt0 st.frame.pt1 with
    | .bind a _ => [a]
    | _ => []
  else []

/-- The loop of `unifiable_complex`, and the entries of the trail since the call, the
last one first. -/
def unifiableComplex (hp : Heap) :
    ℕ → UnifyState → List Addr → Option (Bool × (Addr → Cell) × List Addr)
  | 0, _, _ => none
  | turns + 1, st, trail =>
    match st.turn hp with
    | .go st' => unifiableComplex hp turns st' (st.trailed hp ++ trail)
    | .exit out => some (out, st.memory, trail)

/-- `unifiable`: its answer, the memory and the new entries of the trail. -/
def unifiable (hp : Heap) (turns : ℕ) (s : Store) (d0 d1 : Cell) :
    Option (Bool × (Addr → Cell) × List Addr) :=
  match unifiableTop hp s d0 d1 with
  | .fail => some (false, s.cell, [])
  | .next => some (true, s.cell, [])
  | .bind a c => some (true, Function.update s.cell a c, [a])
  | .visit l r n _ => unifiableComplex hp turns (.init s ⟨l, l + n, r⟩) []

/-- The loop of `p_unifiable`: an equation for each entry of the trail, whose variable
is then reset. -/
def equations : List Addr → (Addr → Cell) → List (Addr × Cell) → List (Addr × Cell) × (Addr → Cell)
  | [], m, tf => (tf, m)
  | a :: trail, m, tf => equations trail (Function.update m a (.ref a)) ((a, m a) :: tf)

/-- The loop of `Yap_Unifiable`, and the trail on backtracking. -/
def resetVariables : List Addr → (Addr → Cell) → Addr → Cell
  | [], m => m
  | a :: trail, m => resetVariables trail (Function.update m a (.ref a))

/-- A call of `p_unifiable`: the list that is unified with the third argument, if it
does not answer `FALSE`. Then the engine backtracks and resets what is on the trail. -/
def pUnifiable (hp : Heap) (turns : ℕ) (s : Store) (d0 d1 : Cell) :
    Option (Option (List (Addr × Cell)) × (Addr → Cell)) :=
  (unifiable hp turns s d0 d1).map fun
    | (true, m, trail) => ((equations trail m []).map some id)
    | (false, m, trail) => (none, resetVariables trail m)

/-- `Yap_Unifiable`. It returns to its caller, and does not reset anything when it
answers `FALSE`. -/
def yapUnifiable (hp : Heap) (turns : ℕ) (s : Store) (d0 d1 : Cell) : Option (Bool × (Addr → Cell)) :=
  (unifiable hp turns s d0 d1).map fun
    | (true, m, trail) => (true, resetVariables trail m)
    | (false, m, _) => (false, m)

theorem bindsVars_unifyAndTrailCells (hr : Addr) : BindsVars (unifyAndTrailCells hr) := by
  refine ⟨fun a => by simp [unifyAndTrailCells], fun a b hab => ?_⟩
  unfold unifyAndTrailCells
  rcases lt_or_gt_of_ne hab with hlt | hgt
  · rw [if_neg hlt.not_gt, if_pos hlt]
    split
    · exact .inr rfl
    · split
      · exact .inr rfl
      · exact .inl rfl
  · rw [if_pos hgt]
    split
    · exact .inl rfl
    · split
      · exact .inl rfl
      · exact .inr rfl

-- ---------------------------------------------------------------------------
-- The trail
-- ---------------------------------------------------------------------------

/-- The memory differs from a store in the variables on the trail, which are bound. -/
structure TrailOf (s m : Addr → Cell) (trail : List Addr) : Prop where
  nodup : trail.Nodup
  kept : ∀ a, a ∉ trail → m a = s a
  unbound : ∀ a ∈ trail, s a = .ref a
  bound : ∀ a ∈ trail, m a ≠ .ref a

variable {hp : Heap} {s : Store} {d0 d1 : Cell} {m : Addr → Cell} {trail : List Addr}

theorem trailOf_nil (m : Addr → Cell) : TrailOf m m [] := by
  constructor <;> simp

theorem TrailOf.bind {s : Addr → Cell} (h : TrailOf s m trail) {a : Addr} {c : Cell} (ha : m a = .ref a)
    (hc : c ≠ .ref a) : TrailOf s (Function.update m a c) (a :: trail) := by
  have hnot : a ∉ trail := fun hmem => h.bound a hmem ha
  refine ⟨List.nodup_cons.2 ⟨hnot, h.nodup⟩, fun b hb => ?_, fun b hb => ?_, fun b hb => ?_⟩
  · rw [List.mem_cons, not_or] at hb
    rw [Function.update_of_ne hb.1]
    exact h.kept b hb.2
  · rcases List.mem_cons.1 hb with rfl | hb
    · exact (h.kept b hnot).symm.trans ha
    · exact h.unbound b hb
  · by_cases hba : b = a
    · subst hba
      rw [Function.update_self]
      exact hc
    · rw [Function.update_of_ne hba]
      exact h.bound b ((List.mem_cons.1 hb).resolve_left hba)

theorem TrailOf.extends {s : Addr → Cell} (h : TrailOf s m trail) : Extends s m :=
  fun a ha => h.kept a fun hmem => ha (h.unbound a hmem)

theorem resetVariables_of_notMem {a : Addr} (h : a ∉ trail) (m : Addr → Cell) :
    resetVariables trail m a = m a := by
  induction trail generalizing m with
  | nil => rfl
  | cons b trail ih =>
    rw [List.mem_cons, not_or] at h
    rw [resetVariables, ih h.2, Function.update_of_ne h.1]

theorem resetVariables_of_mem {a : Addr} (h : a ∈ trail) (m : Addr → Cell) :
    resetVariables trail m a = .ref a := by
  induction trail generalizing m with
  | nil => cases h
  | cons b trail ih =>
    rw [resetVariables]
    by_cases ha : a ∈ trail
    · exact ih ha _
    · obtain rfl := (List.mem_cons.1 h).resolve_right ha
      rw [resetVariables_of_notMem ha, Function.update_self]

/-- Resetting the entries of the trail gives the store back. -/
theorem TrailOf.reset {s : Addr → Cell} (h : TrailOf s m trail) : resetVariables trail m = s := by
  funext a
  by_cases ha : a ∈ trail
  · rw [resetVariables_of_mem ha, h.unbound a ha]
  · rw [resetVariables_of_notMem ha, h.kept a ha]

/-- The equations of the entries of the trail, the first one first. -/
def bindings (m : Addr → Cell) (trail : List Addr) : List (Addr × Cell) :=
  (trail.map fun a => (a, m a)).reverse

theorem equations_eq (h : trail.Nodup) (m : Addr → Cell) (tf : List (Addr × Cell)) :
    equations trail m tf = (bindings m trail ++ tf, resetVariables trail m) := by
  induction trail generalizing m tf with
  | nil => rfl
  | cons a trail ih =>
    obtain ⟨ha, hnodup⟩ := List.nodup_cons.1 h
    have hmap : trail.map (fun b => (b, Function.update m a (.ref a) b)) = trail.map fun b => (b, m b) := by
      refine List.map_congr_left fun b hb => ?_
      have hba : b ≠ a := fun hba => ha (hba ▸ hb)
      rw [Function.update_of_ne hba]
    rw [equations, ih hnodup, resetVariables, bindings, bindings, hmap]
    simp

theorem mem_bindings {a : Addr} {c : Cell} : (a, c) ∈ bindings m trail ↔ a ∈ trail ∧ c = m a := by
  simp [bindings, eq_comm]

-- ---------------------------------------------------------------------------
-- Runs
-- ---------------------------------------------------------------------------

theorem trailed_of_move {st st' : UnifyState} (h : Move hp st st') : st.trailed hp = [] := by
  cases h with
  | ret hlt hv => rw [UnifyState.trailed, if_neg hlt]
  | next hlt hstep | visit hlt hstep => rw [UnifyState.trailed, if_pos hlt, hstep]

theorem trailed_of_binds {st : UnifyState} {a : Addr} {c : Cell} (h : Binds hp st a c) :
    st.trailed hp = [a] := by
  rw [UnifyState.trailed, if_pos h.lt, h.step]

/-- A turn keeps the trail. -/
theorem TrailOf.goes {s : Addr → Cell} {st st' : UnifyState} (h : TrailOf s st.memory trail)
    (hl : st.Linked) (hgo : Goes hp st st') :
    TrailOf s st'.memory (st.trailed hp ++ trail) ∧ st'.Linked := by
  rcases UnifyState.turn_go hgo with hmove | ⟨a, c, hb, rfl⟩
  · rw [trailed_of_move hmove, hmove.memory]
    exact ⟨h, hmove.linked hl⟩
  · rw [trailed_of_binds hb, hb.memory hl]
    exact ⟨h.bind (UnifyState.memory_unbound hl hb.unbound) hb.ne_self, hb.linked hl⟩

/-- The loop with a trail ends as the loop does. -/
theorem unifiableComplex_spec {turns : ℕ} {st : UnifyState} {out : Bool} {m' : Addr → Cell}
    (h : st.run hp turns = some (out, m')) {s : Addr → Cell} (htrail : TrailOf s st.memory trail)
    (hl : st.Linked) :
    ∃ trail', unifiableComplex hp turns st trail = some (out, m', trail') ∧ TrailOf s m' trail' := by
  induction turns generalizing st trail with
  | zero => cases h
  | succ turns ih =>
    rw [UnifyState.run] at h
    rw [unifiableComplex]
    cases hturn : st.turn hp with
    | go st' =>
      rw [hturn] at h
      obtain ⟨htrail', hl'⟩ := htrail.goes hl hturn
      exact ih h htrail' hl'
    | exit out' =>
      rw [hturn] at h
      obtain ⟨rfl, rfl⟩ := Prod.mk.inj (Option.some.inj h)
      exact ⟨trail, rfl, htrail⟩

theorem run_of_unifiableComplex {turns : ℕ} {st : UnifyState} {out : Bool} {trail' : List Addr}
    (h : unifiableComplex hp turns st trail = some (out, m, trail')) : st.run hp turns = some (out, m) := by
  induction turns generalizing st trail with
  | zero => cases h
  | succ turns ih =>
    rw [unifiableComplex] at h
    rw [UnifyState.run]
    cases hturn : st.turn hp with
    | go st' =>
      rw [hturn] at h
      exact ih h
    | exit out' =>
      rw [hturn] at h
      obtain ⟨rfl, hm⟩ := Prod.mk.inj (Option.some.inj h)
      obtain ⟨rfl, -⟩ := Prod.mk.inj hm
      rfl

-- ---------------------------------------------------------------------------
-- Answers
-- ---------------------------------------------------------------------------

variable (hp) in
/-- The words unify: some valuation gives them one tree. -/
def TreesUnify (s : Store) (d0 d1 : Cell) : Prop :=
  ∃ σ, TreeModels hp s.cell σ ∧ d0.tree hp σ = d1.tree hp σ

variable (hp) in
/-- What the function leaves when it answers `TRUE`: a memory whose valuations are
those that make the words equal. -/
structure LeavesUnifier (s : Store) (d0 d1 : Cell) (m : Addr → Cell) (trail : List Addr) : Prop where
  real : ∃ real : Store, real.cell = m
  trailOf : TrailOf s.cell m trail
  within : ∀ R, Closed hp R s.cell → d0.Within hp R → d1.Within hp R → ∀ a ∈ trail, a ∈ R
  models : ∀ σ, TreeModels hp s.cell σ → (TreeModels hp m σ ↔ d0.tree hp σ = d1.tree hp σ)

theorem BoxesSound.unifiableTop_spec (h : BoxesSound hp s d0 d1) :
    WordsSpec hp (s.deref d0) (s.deref d1) (unifiableTop hp s d0 d1) := by
  refine unifyWords_spec (bindsVars_unifyAndTrailCells hp.hr) ?_
  rintro e0 e1 he0 he1 p q b c rfl rfl hpq hb hc
  exact (unifyBlob_iff hpq b c).2 (h p q b c he0 he1 hpq hb hc)

/-- The words have the trees of what they lead to. -/
theorem tree_eq_iff_deref {σ : Addr → InfTree Key} (hσ : TreeModels hp s.cell σ) :
    d0.tree hp σ = d1.tree hp σ ↔ (s.deref d0).tree hp σ = (s.deref d1).tree hp σ := by
  rw [hσ.deref, hσ.deref]

theorem leavesUnifier_of_next (h : BoxesSound hp s d0 d1) (hstep : unifiableTop hp s d0 d1 = .next) :
    LeavesUnifier hp s d0 d1 s.cell [] := by
  have hspec := h.unifiableTop_spec
  rw [hstep] at hspec
  refine ⟨⟨s, rfl⟩, trailOf_nil _, fun R _ _ _ a ha => absurd ha List.not_mem_nil, fun σ hσ => ?_⟩
  exact iff_of_true hσ ((tree_eq_iff_deref hσ).2 hspec.tree_eq)

theorem leavesUnifier_of_bind {a : Addr} {c : Cell} (hstep : unifiableTop hp s d0 d1 = .bind a c) :
    LeavesUnifier hp s d0 d1 (Function.update s.cell a c) [a] := by
  obtain ⟨hunbound, hwritable⟩ := unifyWords_writable (bindsVars_unifyAndTrailCells hp.hr) hstep
  obtain ⟨hne, hwords⟩ := unifyWords_bind (bindsVars_unifyAndTrailCells hp.hr) hstep
  have hc : c ≠ .ref a := fun hc => (hwritable a hc).1 rfl
  refine ⟨⟨s.set a c hwritable, rfl⟩, (trailOf_nil s.cell).bind hunbound hc, fun R hR h0 h1 x hx => ?_,
    fun σ hσ => ?_⟩
  · obtain rfl := List.mem_singleton.1 hx
    rcases hwords with ⟨hd, -⟩ | ⟨-, hd⟩
    · exact Cell.within_ref.1 (hd ▸ Store.deref_within hR h0)
    · exact Cell.within_ref.1 (hd ▸ Store.deref_within hR h1)
  · have hmodels : TreeModels hp (Function.update s.cell a c) σ ↔ σ a = c.tree hp σ := by
      refine ⟨fun h => ?_, hσ.update⟩
      have ha := h a
      rwa [Function.update_self] at ha
    rw [hmodels, tree_eq_iff_deref hσ]
    rcases hwords with ⟨hd0, hd1⟩ | ⟨hd0, hd1⟩
    · rw [hd0, hd1]
      rfl
    · rw [hd0, hd1]
      exact eq_comm

/-- The words have one tree if the pairs of the first block have. -/
theorem tree_eq_iff_of_visit (h : BoxesSound hp s d0 d1) {l r : Addr} {n : ℕ} {d : Nonvar}
    (hstep : unifiableTop hp s d0 d1 = .visit l r n d) {σ : Addr → InfTree Key}
    (hσ : TreeModels hp s.cell σ) :
    d0.tree hp σ = d1.tree hp σ ↔ ∀ pr ∈ Frame.pairs ⟨l, l + n, r⟩, σ pr.1 = σ pr.2 := by
  have hspec := h.unifiableTop_spec
  rw [hstep] at hspec
  cases hspec with
  | visit h0 h1 hl hr hkey =>
    rw [tree_eq_iff_deref hσ, h0, h1, tree_eq_iff_of_block hl hr (hkey .var), Frame.pairs_block]

/-- The first block is in the region of the words. -/
theorem block_within (h : BoxesSound hp s d0 d1) {l r : Addr} {n : ℕ} {d : Nonvar}
    (hstep : unifiableTop hp s d0 d1 = .visit l r n d) {R : Finset Addr} (hR : Closed hp R s.cell)
    (h0 : d0.Within hp R) (h1 : d1.Within hp R) :
    (∀ a ∈ List.range' l n, a ∈ R) ∧ ∀ a ∈ List.range' r n, a ∈ R := by
  have hspec := h.unifiableTop_spec
  rw [hstep] at hspec
  cases hspec with
  | visit hd0 hd1 hl hr hkey =>
    have hw0 := Store.deref_within hR h0
    have hw1 := Store.deref_within hR h1
    rw [hd0, Cell.Within, Cell.cells, Nonvar.cells_of_block hl] at hw0
    rw [hd1, Cell.Within, Cell.cells, Nonvar.cells_of_block hr] at hw1
    exact ⟨hw0, hw1⟩

theorem inRegion_init {l r : Addr} {n : ℕ} {R : Finset Addr} (hR : Closed hp R s.cell)
    (hl : ∀ a ∈ List.range' l n, a ∈ R) (hr : ∀ a ∈ List.range' r n, a ∈ R) :
    InRegion hp R (.init s ⟨l, l + n, r⟩) := by
  refine ⟨hR, fun pr hpr => ?_, fun _ hpr => absurd hpr List.not_mem_nil⟩
  rw [UnifyState.pairs_init, Frame.pairs_block] at hpr
  exact ⟨hl _ (List.of_mem_zip hpr).1, hr _ (List.of_mem_zip hpr).2⟩

theorem leavesUnifier_of_exit (h : BoxesSound hp s d0 d1) {l r : Addr} {n : ℕ} {d : Nonvar}
    (hstep : unifiableTop hp s d0 d1 = .visit l r n d) {st : UnifyState}
    (hrun : ReflTransGen (Goes hp) (.init s ⟨l, l + n, r⟩) st) (hexit : st.turn hp = .exit true)
    (htrail : TrailOf s.cell st.memory trail) : LeavesUnifier hp s d0 d1 st.memory trail := by
  refine ⟨?_, htrail, fun R hR h0 h1 a ha => ?_, fun σ hσ => ?_⟩
  · obtain ⟨real, hreached⟩ := exists_reached hrun
    exact ⟨real, hreached.memory⟩
  · obtain ⟨hl, hr⟩ := block_within h hstep hR h0 h1
    obtain ⟨-, -, hout⟩ := (inRegion_init hR hl hr).run (UnifyState.linked_init _ _) hrun
    by_contra hnot
    exact htrail.bound a ha ((hout a hnot).trans (htrail.unbound a ha))
  · rw [treeModels_memory_iff hrun hexit hσ, tree_eq_iff_of_visit h hstep hσ]

theorem not_treesUnify_of_exit (h : BoxesSound hp s d0 d1) {l r : Addr} {n : ℕ} {d : Nonvar}
    (hstep : unifiableTop hp s d0 d1 = .visit l r n d) {st : UnifyState}
    (hrun : ReflTransGen (Goes hp) (.init s ⟨l, l + n, r⟩) st) (hexit : st.turn hp = .exit false) :
    ¬ TreesUnify hp s d0 d1 := by
  rintro ⟨σ, hσ, heq⟩
  exact not_equal_of_exit_false hrun hexit hσ ((tree_eq_iff_of_visit h hstep hσ).1 heq)

/-- What an answer of the function says. -/
def UnifiableSpec (hp : Heap) (s : Store) (d0 d1 : Cell) (m : Addr → Cell) (trail : List Addr) :
    Bool → Prop
  | true => LeavesUnifier hp s d0 d1 m trail
  | false => ¬ TreesUnify hp s d0 d1

theorem unifiable_spec (h : BoxesSound hp s d0 d1) {turns : ℕ} {out : Bool}
    (hrun : unifiable hp turns s d0 d1 = some (out, m, trail)) :
    TrailOf s.cell m trail ∧ UnifiableSpec hp s d0 d1 m trail out := by
  rw [unifiable] at hrun
  cases hstep : unifiableTop hp s d0 d1 with
  | fail =>
    rw [hstep] at hrun
    cases hrun
    refine ⟨trailOf_nil _, ?_⟩
    rintro ⟨σ, hσ, heq⟩
    have hspec := h.unifiableTop_spec
    rw [hstep] at hspec
    exact hspec.tree_ne σ ((tree_eq_iff_deref hσ).1 heq)
  | next =>
    rw [hstep] at hrun
    cases hrun
    exact ⟨trailOf_nil _, leavesUnifier_of_next h hstep⟩
  | bind a c =>
    rw [hstep] at hrun
    cases hrun
    have hleaves := leavesUnifier_of_bind hstep
    exact ⟨hleaves.trailOf, hleaves⟩
  | visit l r n d =>
    rw [hstep] at hrun
    have hloop := run_of_unifiableComplex hrun
    obtain ⟨trail', hrun', htrail⟩ :=
      unifiableComplex_spec hloop (trailOf_nil s.cell) (UnifyState.linked_init _ _)
    obtain rfl : trail' = trail := (Prod.mk.inj (Prod.mk.inj (Option.some.inj (hrun'.symm.trans hrun))).2).2
    obtain ⟨st, hgoes, hexit, rfl⟩ := exists_exit hloop
    refine ⟨htrail, ?_⟩
    cases out with
    | true => exact leavesUnifier_of_exit h hstep hgoes hexit htrail
    | false => exact not_treesUnify_of_exit h hstep hgoes hexit

-- ---------------------------------------------------------------------------
-- Most general unifiers
-- ---------------------------------------------------------------------------

variable (hp) in
/-- The equations are a most general unifier: each of their variables is an unbound
variable of the two words and has one equation; their solutions are the valuations
that make the words equal; and they have a solution for all values of the variables
that they leave free. -/
structure MostGeneralEquations (s : Store) (d0 d1 : Cell) (us : List (Addr × Cell)) : Prop where
  nodup : (us.map Prod.fst).Nodup
  unbound : ∀ v ∈ us.map Prod.fst, s.cell v = .ref v
  occurs : ∀ v ∈ us.map Prod.fst, ∀ R, Closed hp R s.cell → d0.Within hp R → d1.Within hp R → v ∈ R
  solutions : ∀ σ, TreeModels hp s.cell σ →
    ((∀ e ∈ us, σ e.1 = e.2.tree hp σ) ↔ d0.tree hp σ = d1.tree hp σ)
  free : ∀ ρ : Addr → InfTree Key, ∃ σ, TreeModels hp s.cell σ ∧ (∀ e ∈ us, σ e.1 = e.2.tree hp σ) ∧
    ∀ v, s.cell v = .ref v → v ∉ us.map Prod.fst → σ v = ρ v

theorem map_fst_bindings (m : Addr → Cell) (trail : List Addr) :
    (bindings m trail).map Prod.fst = trail.reverse := by
  simp [bindings, Function.comp_def]

/-- The valuations of the memory are the solutions of the equations in the store. -/
theorem TrailOf.models_iff (h : TrailOf s.cell m trail) {σ : Addr → InfTree Key} :
    TreeModels hp m σ ↔
      TreeModels hp s.cell σ ∧ ∀ e ∈ bindings m trail, σ e.1 = e.2.tree hp σ := by
  constructor
  · intro hσ
    refine ⟨hσ.of_extends h.extends, ?_⟩
    rintro ⟨a, c⟩ he
    obtain ⟨-, rfl⟩ := mem_bindings.1 he
    exact hσ a
  · rintro ⟨hσ, hequations⟩ a
    by_cases ha : a ∈ trail
    · exact hequations (a, m a) (mem_bindings.2 ⟨ha, rfl⟩)
    · rw [h.kept a ha]
      exact hσ a

theorem LeavesUnifier.mostGeneral (h : LeavesUnifier hp s d0 d1 m trail) :
    MostGeneralEquations hp s d0 d1 (bindings m trail) := by
  have hmem : ∀ {v}, v ∈ (bindings m trail).map Prod.fst ↔ v ∈ trail := by
    intro v
    rw [map_fst_bindings, List.mem_reverse]
  refine ⟨?_, fun v hv => h.trailOf.unbound v (hmem.1 hv), fun v hv R hR h0 h1 => ?_, fun σ hσ => ?_,
    fun ρ => ?_⟩
  · rw [map_fst_bindings]
    exact List.nodup_reverse.2 h.trailOf.nodup
  · exact h.within R hR h0 h1 v (hmem.1 hv)
  · rw [← h.models σ hσ, h.trailOf.models_iff, and_iff_right hσ]
  · obtain ⟨real, rfl⟩ := h.real
    obtain ⟨σ, hσ, hfree⟩ := exists_treeModels hp real ρ
    obtain ⟨hmodels, hequations⟩ := h.trailOf.models_iff.1 hσ
    refine ⟨σ, hmodels, hequations, fun v hv hnot => hfree v ?_⟩
    exact (h.trailOf.kept v fun hmem' => hnot (hmem.2 hmem')).trans hv

theorem LeavesUnifier.treesUnify (h : LeavesUnifier hp s d0 d1 m trail) : TreesUnify hp s d0 d1 := by
  obtain ⟨σ, hσ, hequations, -⟩ := h.mostGeneral.free fun _ => InfTree.node ⟨0, 0, []⟩ []
  exact ⟨σ, hσ, (h.mostGeneral.solutions σ hσ).1 hequations⟩

-- ---------------------------------------------------------------------------
-- The two entry points
-- ---------------------------------------------------------------------------

variable (hp) in
/-- Both entry points answer whether the words unify and leave the memory as it was;
the list of the predicate is a most general unifier. -/
structure UnifiableCorrect (s : Store) (d0 d1 : Cell) : Prop where
  predicate : ∃ turns us m, pUnifiable hp turns s d0 d1 = some (us, m) ∧
    (us.isSome ↔ TreesUnify hp s d0 d1) ∧
    (∀ eqs, us = some eqs → MostGeneralEquations hp s d0 d1 eqs) ∧ m = s.cell
  function : ∃ turns out m, yapUnifiable hp turns s d0 d1 = some (out, m) ∧
    (out = true ↔ TreesUnify hp s d0 d1) ∧ m = s.cell

variable (hp) in
/-- A loop that fails has bound no variable before. -/
def FailsUnbound (st : UnifyState) : Prop :=
  ∀ st', ReflTransGen (Goes hp) st st' → st'.turn hp = .exit false → ReflTransGen (Move hp) st st'

variable (hp) in
/-- The top level does not compare two boxes wrongly; no block is entered again from
inside itself; and no variable is bound before a failure. -/
structure UnifiableSound (s : Store) (d0 d1 : Cell) : Prop where
  boxes : BoxesSound hp s d0 d1
  blocks : ∀ l r n d, unifiableTop hp s d0 d1 = .visit l r n d → NoBlockAgain hp s ⟨l, l + n, r⟩
  failure : ∀ l r n d, unifiableTop hp s d0 d1 = .visit l r n d → FailsUnbound hp (.init s ⟨l, l + n, r⟩)

theorem UnifyState.run_le {turns turns' : ℕ} (hle : turns ≤ turns') {st : UnifyState}
    {res : Bool × (Addr → Cell)} (h : st.run hp turns = some res) : st.run hp turns' = some res := by
  induction hle with
  | refl => exact h
  | step _ ih => exact run_succ ih

theorem UnifyState.run_unique {turns turns' : ℕ} {st : UnifyState} {res res' : Bool × (Addr → Cell)}
    (h : st.run hp turns = some res) (h' : st.run hp turns' = some res') : res = res' :=
  Option.some.inj ((run_le (Nat.le_max_left turns turns') h).symm.trans
    (run_le (Nat.le_max_right turns turns') h'))

/-- The function returns when its loop does. -/
theorem exists_unifiable (hblocks : ∀ l r n d, unifiableTop hp s d0 d1 = .visit l r n d →
      ∃ turns res, (UnifyState.init s ⟨l, l + n, r⟩).run hp turns = some res) :
    ∃ turns out m trail, unifiable hp turns s d0 d1 = some (out, m, trail) := by
  cases hstep : unifiableTop hp s d0 d1 with
  | fail => exact ⟨0, false, s.cell, [], by rw [unifiable, hstep]⟩
  | next => exact ⟨0, true, s.cell, [], by rw [unifiable, hstep]⟩
  | bind a c => exact ⟨0, true, Function.update s.cell a c, [a], by rw [unifiable, hstep]⟩
  | visit l r n d =>
    obtain ⟨turns, ⟨out, m⟩, hrun⟩ := hblocks l r n d hstep
    obtain ⟨trail, htrail, -⟩ :=
      unifiableComplex_spec hrun (trailOf_nil s.cell) (UnifyState.linked_init _ _)
    exact ⟨turns, out, m, trail, by rw [unifiable, hstep]; exact htrail⟩

theorem memory_of_moves {st st' : UnifyState} (h : ReflTransGen (Move hp) st st') :
    st'.memory = st.memory := by
  induction h with
  | refl => rfl
  | tail _ hmove ih => exact hmove.memory.trans ih

/-- A loop that has left the memory as it was has bound no variable. -/
theorem moves_of_memory_eq {frame : Frame} {st : UnifyState} (hrun : ReflTransGen (Goes hp) (.init s frame) st)
    (hmemory : st.memory = s.cell) : ReflTransGen (Move hp) (.init s frame) st := by
  have hall : ReflTransGen (Move hp) (.init s frame) st ∨
      ∃ a, s.cell a = .ref a ∧ st.memory a ≠ .ref a := by
    clear hmemory
    induction hrun with
    | refl => exact .inl .refl
    | @tail st st' hrun hgo ih =>
      obtain ⟨real, hreached⟩ := exists_reached hrun
      rcases UnifyState.turn_go hgo with hmove | ⟨a, c, hb, rfl⟩
      · rw [hmove.memory]
        exact ih.imp_left fun hmoves => hmoves.tail hmove
      · right
        refine ⟨a, ?_, ?_⟩
        · have hunbound := UnifyState.memory_unbound hreached.linked hb.unbound
          by_contra hne
          exact hne ((hreached.frame_cells a hne).symm.trans (hreached.memory ▸ hunbound))
        · rw [hb.memory hreached.linked, Function.update_self]
          exact hb.ne_self
  rcases hall with hmoves | ⟨a, ha, hne⟩
  · exact hmoves
  · exact absurd (hmemory ▸ ha) hne

/-- A failure without bindings leaves the memory as it was. -/
theorem memory_of_false
    (hfailure : ∀ l r n d, unifiableTop hp s d0 d1 = .visit l r n d →
      FailsUnbound hp (.init s ⟨l, l + n, r⟩))
    {turns : ℕ} (hrun : unifiable hp turns s d0 d1 = some (false, m, trail)) : m = s.cell := by
  rw [unifiable] at hrun
  cases hstep : unifiableTop hp s d0 d1 with
  | fail =>
    rw [hstep] at hrun
    cases hrun
    rfl
  | next | bind =>
    rw [hstep] at hrun
    cases hrun
  | visit l r n d =>
    rw [hstep] at hrun
    obtain ⟨st, hgoes, hexit, rfl⟩ := exists_exit (run_of_unifiableComplex hrun)
    exact memory_of_moves (hfailure l r n d hstep st hgoes hexit)

theorem UnifiableSound.correct (h : UnifiableSound hp s d0 d1) {R : Finset Addr} (hR : Closed hp R s.cell)
    (h0 : d0.Within hp R) (h1 : d1.Within hp R) : UnifiableCorrect hp s d0 d1 := by
  have hblocks : ∀ l r n d, unifiableTop hp s d0 d1 = .visit l r n d →
      ∃ turns res, (UnifyState.init s ⟨l, l + n, r⟩).run hp turns = some res := by
    intro l r n d hstep
    obtain ⟨hl, hr⟩ := block_within h.boxes hstep hR h0 h1
    exact (exists_run_iff_noBlockAgain hR hl hr).2 (h.blocks l r n d hstep)
  obtain ⟨turns, out, m, trail, hrun⟩ := exists_unifiable hblocks
  obtain ⟨htrail, hspec⟩ := unifiable_spec h.boxes hrun
  cases out with
  | true =>
    have hleaves : LeavesUnifier hp s d0 d1 m trail := hspec
    refine ⟨⟨turns, some (bindings m trail), s.cell, ?_, ?_, fun eqs heqs => ?_, rfl⟩,
      ⟨turns, true, s.cell, ?_, iff_of_true rfl hleaves.treesUnify, rfl⟩⟩
    · simp [pUnifiable, hrun, equations_eq htrail.nodup, htrail.reset]
    · exact iff_of_true rfl hleaves.treesUnify
    · obtain rfl := Option.some.inj heqs
      exact hleaves.mostGeneral
    · simp [yapUnifiable, hrun, htrail.reset]
  | false =>
    have hnot : ¬ TreesUnify hp s d0 d1 := hspec
    have hm := memory_of_false h.failure hrun
    refine ⟨⟨turns, none, s.cell, ?_, ?_, fun eqs heqs => ?_, rfl⟩, ⟨turns, false, s.cell, ?_, ?_, rfl⟩⟩
    · simp [pUnifiable, hrun, htrail.reset]
    · exact iff_of_false (by simp) hnot
    · cases heqs
    · simp [yapUnifiable, hrun, hm]
    · exact iff_of_false (by simp) hnot

/-- Boxes have one tree if they hold one value. -/
theorem treesUnify_blob_iff {p q : Addr} {b c : Blob} (h0 : s.deref d0 = .nonvar (.appl p))
    (h1 : s.deref d1 = .nonvar (.appl q)) (hpq : p ≠ q) (hb : hp.functorAt p = .blob b)
    (hc : hp.functorAt q = .blob c) :
    TreesUnify hp s d0 d1 ↔ (Term.blob p b).Identical (.blob q c) := by
  constructor
  · rintro ⟨σ, hσ, heq⟩
    rw [tree_eq_iff_deref hσ, h0, h1] at heq
    have hkey := InfTree.label_eq_of_node_eq heq
    rcases Nonvar.of_key_eq hkey with heq | ⟨p', q', b', c', hp', hq', hb', hc', hid⟩ | ⟨p', q', hp', -⟩ |
      ⟨p', q', f, hp', hq', hf, -⟩
    · exact absurd (Nonvar.appl.inj heq) hpq
    · cases hp'
      cases hq'
      obtain rfl := FunctorCell.blob.inj (hb.symm.trans hb')
      obtain rfl := FunctorCell.blob.inj (hc.symm.trans hc')
      exact hid
    · cases hp'
    · cases hp'
      cases hb.symm.trans hf
  · intro hid
    obtain ⟨σ, hσ, -⟩ := exists_treeModels hp s fun _ => InfTree.node ⟨0, 0, []⟩ []
    refine ⟨σ, hσ, (tree_eq_iff_deref hσ).2 ?_⟩
    rw [h0, h1]
    refine SameShape.tree_eq (sameShape_of_value_eq ?_)
    rw [Nonvar.value_blob hb, Nonvar.value_blob hc]
    exact hid

theorem UnifiableCorrect.boxesSound (h : UnifiableCorrect hp s d0 d1) : BoxesSound hp s d0 d1 := by
  intro p q b c h0 h1 hpq hb hc
  obtain ⟨turns, out, m, hrun, hout, -⟩ := h.function
  rw [treesUnify_blob_iff h0 h1 hpq hb hc] at hout
  have hne : Nonvar.appl p ≠ .appl q := by simpa using hpq
  obtain rfl : unifyBlob p q b c = out := by
    cases hbox : unifyBlob p q b c <;>
      simpa [yapUnifiable, unifiable, unifiableTop, h0, h1, unifyWords, unifyNonvar, hne, hb, hc, hbox,
        resetVariables] using congrArg (Option.map Prod.fst) hrun
  exact (unifyBlob_iff hpq b c).1 hout

/-- The loop of a correct call returns, and where it fails it leaves the memory as it
was. -/
theorem UnifiableCorrect.run (h : UnifiableCorrect hp s d0 d1) {l r : Addr} {n : ℕ} {d : Nonvar}
    (hstep : unifiableTop hp s d0 d1 = .visit l r n d) :
    ∃ turns out m, (UnifyState.init s ⟨l, l + n, r⟩).run hp turns = some (out, m) ∧
      (out = false → m = s.cell) := by
  obtain ⟨turns, out, m, hrun, -, hm⟩ := h.function
  rw [yapUnifiable, Option.map_eq_some_iff] at hrun
  obtain ⟨⟨out', m', trail⟩, hunifiable, hres⟩ := hrun
  rw [unifiable, hstep] at hunifiable
  refine ⟨turns, out', m', run_of_unifiableComplex hunifiable, ?_⟩
  rintro rfl
  exact (Prod.mk.inj hres).2.trans hm

theorem UnifiableCorrect.sound (h : UnifiableCorrect hp s d0 d1) {R : Finset Addr} (hR : Closed hp R s.cell)
    (h0 : d0.Within hp R) (h1 : d1.Within hp R) : UnifiableSound hp s d0 d1 := by
  refine ⟨h.boxesSound, fun l r n d hstep => ?_, fun l r n d hstep st hgoes hexit => ?_⟩
  · obtain ⟨turns, out, m, hrun, -⟩ := h.run hstep
    obtain ⟨hl, hr⟩ := block_within h.boxesSound hstep hR h0 h1
    exact (exists_run_iff_noBlockAgain hR hl hr).1 ⟨turns, _, hrun⟩
  · obtain ⟨turns, out, m, hrun, hm⟩ := h.run hstep
    obtain ⟨turns', hrun'⟩ := exists_run_of_exit hgoes hexit
    obtain ⟨rfl, rfl⟩ := Prod.mk.inj (UnifyState.run_unique hrun hrun')
    exact moves_of_memory_eq hgoes (hm rfl)

/-- The cells of `f(X, a)` at 0 and of `f(1, b)` at 3. -/
def clashCells : Addr → Option Nonvar
  | 2 => some (.atom ⟨[97], by decide⟩)
  | 4 => some (.int 1)
  | 5 => some (.atom ⟨[98], by decide⟩)
  | _ => none

def clashHeap : Heap := ⟨fun _ => .functor ⟨⟨[102], nul_free_f⟩, 2, Nat.two_pos, by decide⟩, 6⟩

end Yap
