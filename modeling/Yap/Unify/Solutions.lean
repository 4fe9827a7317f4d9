-- SUMMARY: Unification keeps every solution of the equations it starts with: what a run has reached is satisfied by every valuation that makes the two words equal, and no such run fails.
import Yap.Unify.Turns

/-!
# Solutions

The loop stays in the region of the two words. A valuation that satisfies the
store and gives the two cells of every remaining pair one value still does after
a turn, links and bindings included.
-/

namespace Yap

open Relation

variable {hp : Heap} {R : Finset Addr} {σ : Addr → Term}

-- ---------------------------------------------------------------------------
-- The region
-- ---------------------------------------------------------------------------

variable (hp R) in
/-- The state refers to cells of the region only. -/
structure InRegion (st : UnifyState) : Prop where
  closed : Closed hp R st.store.cell
  pairs : ∀ pr ∈ st.pairs, pr.1 ∈ R ∧ pr.2 ∈ R
  saved : ∀ pr ∈ st.unif, pr.1 ∈ R ∧ pr.2.Within hp R

theorem Store.deref_within {s : Store} (hR : Closed hp R s.cell) {c : Cell} (hc : c.Within hp R) :
    (s.deref c).Within hp R :=
  (deref_chain hR (fun _ => trivial) (fun _ _ _ _ _ => trivial) (r := fun _ _ => True)
    (fun _ _ => trivial) hc).2

theorem Closed.update {m : Addr → Cell} (h : Closed hp R m) {c : Cell} (hc : c.Within hp R) (a : Addr) :
    Closed hp R (Function.update m a c) := by
  intro x hx
  by_cases hxa : x = a
  · rw [hxa, Function.update_self]
    exact hc
  · rw [Function.update_of_ne hxa]
    exact h x hx

theorem Nonvar.cells_of_block {d : Nonvar} {l : Addr} {n : ℕ} (h : d.block hp = (l, n)) :
    d.cells hp = List.range' l n := by
  rw [cells, h]

/-- The words at a remaining pair of cells are in the region. -/
theorem InRegion.derefs {st : UnifyState} (h : InRegion hp R st) {x y : Addr} (hpr : (x, y) ∈ st.pairs) :
    (st.store.deref (.ref x)).Within hp R ∧ (st.store.deref (.ref y)).Within hp R :=
  ⟨Store.deref_within h.closed (Cell.within_ref.mpr (h.pairs _ hpr).1),
    Store.deref_within h.closed (Cell.within_ref.mpr (h.pairs _ hpr).2)⟩

theorem InRegion.move {st st' : UnifyState} (h : InRegion hp R st) (hmove : Move hp st st') :
    InRegion hp R st' := by
  cases hmove with
  | ret hlt hv => exact ⟨h.closed, fun pr hpr => h.pairs pr (UnifyState.pairs_return hlt hv ▸ hpr), h.saved⟩
  | next hlt _ =>
      refine ⟨h.closed, fun pr hpr => h.pairs pr ?_, h.saved⟩
      rw [UnifyState.pairs_next hlt]
      exact List.mem_cons_of_mem _ hpr
  | @visit l r n d1 hlt hstep =>
      have hmem : (st.frame.pt0, st.frame.pt1) ∈ st.pairs := by
        rw [UnifyState.pairs_next hlt]
        exact List.mem_cons_self ..
      obtain ⟨h0, h1⟩ := h.derefs hmem
      have hspec := unifyArgs_spec hp st.store st.frame.pt0 st.frame.pt1
      rw [hstep] at hspec
      cases hspec with
      | visit hd0 hd1 hl hr _ =>
          rw [hd0] at h0
          rw [hd1] at h1
          refine ⟨h.closed.update h1 _, fun pr hpr => ?_, fun pr hpr => ?_⟩
          · rw [UnifyState.pairs_descend] at hpr
            rcases List.mem_append.mp hpr with hpr | hpr
            · obtain ⟨hpl, hpr⟩ := List.of_mem_zip hpr
              refine ⟨h0 _ ?_, h1 _ ?_⟩
              · rwa [Cell.cells, Nonvar.cells_of_block hl]
              · rwa [Cell.cells, Nonvar.cells_of_block hr]
            · refine h.pairs pr ?_
              rw [UnifyState.pairs_next hlt]
              exact List.mem_cons_of_mem _ hpr
          · rcases List.mem_cons.mp hpr with rfl | hpr
            · exact ⟨(h.pairs _ hmem).1, h.closed _ (h.pairs _ hmem).1⟩
            · exact h.saved pr hpr

/-- A binding writes a cell of the region, with a word of the region. -/
theorem Binds.within {st : UnifyState} (h : InRegion hp R st) {a : Addr} {c : Cell}
    (hb : Binds hp st a c) : a ∈ R ∧ c.Within hp R := by
  have hmem : (st.frame.pt0, st.frame.pt1) ∈ st.pairs := by
    rw [UnifyState.pairs_next hb.lt]
    exact List.mem_cons_self ..
  obtain ⟨h0, h1⟩ := h.derefs hmem
  obtain ⟨-, ⟨hd0, hd1⟩ | ⟨hd0, hd1⟩⟩ := unifyWords_bind bindsVars_unifyGlobalCells hb.step
  · exact ⟨Cell.within_ref.mp (hd0 ▸ h0), hd1 ▸ h1⟩
  · exact ⟨Cell.within_ref.mp (hd1 ▸ h1), hd0 ▸ h0⟩

theorem InRegion.binds {st : UnifyState} (h : InRegion hp R st) {a : Addr} {c : Cell}
    (hb : Binds hp st a c) : InRegion hp R (st.bind hp hb.step) := by
  refine ⟨h.closed.update (hb.within h).2 a, fun pr hpr => h.pairs pr ?_, h.saved⟩
  rw [UnifyState.pairs_next hb.lt]
  exact List.mem_cons_of_mem _ hpr

theorem InRegion.goes {st st' : UnifyState} (h : InRegion hp R st) (hgo : Goes hp st st') :
    InRegion hp R st' := by
  rcases UnifyState.turn_go hgo with hmove | ⟨a, c, hb, rfl⟩
  · exact h.move hmove
  · exact h.binds hb

-- ---------------------------------------------------------------------------
-- Valuations
-- ---------------------------------------------------------------------------

theorem Models.deref {s : Store} (hσ : Models hp R s.cell σ) (hR : Closed hp R s.cell) {c : Cell}
    (hc : c.Within hp R) : (s.deref c).value hp σ = c.value hp σ :=
  (Store.deref_chain hR (r := fun c d => d.value hp σ = c.value hp σ) (fun _ => rfl)
    (fun _ _ _ h h' => h'.trans h) (fun a ha => (hσ a ha).symm) hc).1

theorem Models.update {m : Addr → Cell} (h : Models hp R m σ) {a : Addr} {c : Cell}
    (hc : σ a = c.value hp σ) : Models hp R (Function.update m a c) σ := by
  intro x hx
  by_cases hxa : x = a
  · rw [hxa, Function.update_self, hc]
  · rw [Function.update_of_ne hxa]
    exact h x hx

variable (hp R σ) in
/-- The valuation satisfies the store, the links and the remaining pairs. -/
structure Satisfies (st : UnifyState) : Prop extends InRegion hp R st where
  models : Models hp R st.store.cell σ
  equal : ∀ pr ∈ st.pairs, σ pr.1 = σ pr.2
  links : ∀ pr ∈ st.unif, σ pr.1 = pr.2.value hp σ

theorem Satisfies.derefs {st : UnifyState} (h : Satisfies hp R σ st) {x y : Addr}
    (hpr : (x, y) ∈ st.pairs) :
    (st.store.deref (.ref x)).value hp σ = σ x ∧ (st.store.deref (.ref y)).value hp σ = σ x := by
  obtain ⟨hx, hy⟩ := h.pairs _ hpr
  refine ⟨h.models.deref h.closed (Cell.within_ref.mpr hx), ?_⟩
  rw [h.models.deref h.closed (Cell.within_ref.mpr hy), h.equal _ hpr]
  rfl

theorem equal_of_map_eq {α β : Type*} {f : α → β} {l r : List α} (h : l.map f = r.map f) :
    ∀ pr ∈ l.zip r, f pr.1 = f pr.2 := by
  induction l generalizing r with
  | nil => rintro _ ⟨⟩
  | cons a l ih =>
      cases r with
      | nil => rintro _ ⟨⟩
      | cons b r =>
          obtain ⟨hhead, htail⟩ := List.cons.inj h
          intro pr hpr
          rcases List.mem_cons.mp hpr with rfl | hpr
          · exact hhead
          · exact ih htail pr hpr

/-- Words with one value have argument cells with the same values. -/
theorem map_range'_eq_of_value {d0 d1 : Nonvar} {l r : Addr} {n : ℕ} (hl : d0.block hp = (l, n))
    (hr : d1.block hp = (r, n)) (h : d0.value hp σ = d1.value hp σ) :
    (List.range' l n).map σ = (List.range' r n).map σ := by
  have hargs := congrArg Term.args h
  rwa [Nonvar.args_value, Nonvar.args_value, Nonvar.cells_of_block hl, Nonvar.cells_of_block hr] at hargs

theorem Satisfies.move {st st' : UnifyState} (h : Satisfies hp R σ st) (hmove : Move hp st st') :
    Satisfies hp R σ st' := by
  have hregion := h.toInRegion.move hmove
  cases hmove with
  | ret hlt hv =>
      exact ⟨hregion, h.models, fun pr hpr => h.equal pr (UnifyState.pairs_return hlt hv ▸ hpr), h.links⟩
  | next hlt _ =>
      refine ⟨hregion, h.models, fun pr hpr => h.equal pr ?_, h.links⟩
      rw [UnifyState.pairs_next hlt]
      exact List.mem_cons_of_mem _ hpr
  | @visit l r n d1 hlt hstep =>
      have hmem : (st.frame.pt0, st.frame.pt1) ∈ st.pairs := by
        rw [UnifyState.pairs_next hlt]
        exact List.mem_cons_self ..
      obtain ⟨h0, h1⟩ := h.derefs hmem
      have hspec := unifyArgs_spec hp st.store st.frame.pt0 st.frame.pt1
      rw [hstep] at hspec
      cases hspec with
      | visit hd0 hd1 hl hr _ =>
          rw [hd0] at h0
          rw [hd1] at h1
          have hargs := map_range'_eq_of_value hl hr (h0.trans h1.symm)
          refine ⟨hregion, h.models.update h1.symm, fun pr hpr => ?_, fun pr hpr => ?_⟩
          · rw [UnifyState.pairs_descend] at hpr
            rcases List.mem_append.mp hpr with hpr | hpr
            · exact equal_of_map_eq hargs pr hpr
            · refine h.equal pr ?_
              rw [UnifyState.pairs_next hlt]
              exact List.mem_cons_of_mem _ hpr
          · rcases List.mem_cons.mp hpr with rfl | hpr
            · exact h.models _ (h.pairs _ hmem).1
            · exact h.links pr hpr

theorem Satisfies.binds {st : UnifyState} (h : Satisfies hp R σ st) {a : Addr} {c : Cell}
    (hb : Binds hp st a c) : Satisfies hp R σ (st.bind hp hb.step) := by
  have hpairs := UnifyState.pairs_next hb.lt
  have hmem : (st.frame.pt0, st.frame.pt1) ∈ st.pairs := by
    rw [hpairs]
    exact List.mem_cons_self ..
  obtain ⟨h0, h1⟩ := h.derefs hmem
  have hvalue : σ a = c.value hp σ := by
    obtain ⟨-, ⟨hd0, hd1⟩ | ⟨hd0, hd1⟩⟩ := unifyWords_bind bindsVars_unifyGlobalCells hb.step
    · rw [hd0] at h0
      rw [hd1] at h1
      exact h0.trans h1.symm
    · rw [hd0] at h0
      rw [hd1] at h1
      exact h1.trans h0.symm
  refine ⟨h.toInRegion.binds hb, h.models.update hvalue, fun pr hpr => h.equal pr ?_, h.links⟩
  rw [hpairs]
  exact List.mem_cons_of_mem _ hpr

/-- A turn keeps the valuation. -/
theorem Satisfies.goes {st st' : UnifyState} (h : Satisfies hp R σ st) (hgo : Goes hp st st') :
    Satisfies hp R σ st' := by
  rcases UnifyState.turn_go hgo with hmove | ⟨a, c, hb, rfl⟩
  · exact h.move hmove
  · exact h.binds hb

theorem Satisfies.run {st st' : UnifyState} (h : Satisfies hp R σ st)
    (hrun : ReflTransGen (Goes hp) st st') : Satisfies hp R σ st' := by
  induction hrun with
  | refl => exact h
  | tail _ hgo ih => exact ih.goes hgo

/-- A pair of cells with one value does not fail. -/
theorem Satisfies.not_fails {st : UnifyState} (h : Satisfies hp R σ st) :
    st.turn hp ≠ .exit false := by
  intro hexit
  rcases UnifyState.turn_exit hexit with ⟨hout, -⟩ | ⟨-, x, y, rest, hpairs, hstep⟩
  · cases hout
  · have hmem : (x, y) ∈ st.pairs := by
      rw [hpairs]
      exact List.mem_cons_self ..
    obtain ⟨h0, h1⟩ := h.derefs hmem
    have hspec := unifyArgs_spec hp st.store x y
    rw [hstep] at hspec
    cases hspec with
    | fail hkey => exact hkey σ σ (by rw [h0, h1])

theorem restore_cases (unif : List (Addr × Cell)) (m : Addr → Cell) (a : Addr) :
    restore unif m a = m a ∨ (a, restore unif m a) ∈ unif := by
  induction unif generalizing m with
  | nil => exact .inl rfl
  | cons pr unif ih =>
      obtain ⟨ptr, old⟩ := pr
      rw [restore]
      rcases ih (Function.update m ptr old) with heq | hmem
      · by_cases ha : a = ptr
        · subst ha
          rw [Function.update_self] at heq
          exact .inr (by rw [heq]; exact List.mem_cons_self ..)
        · rw [Function.update_of_ne ha] at heq
          exact .inl heq
      · exact .inr (List.mem_cons_of_mem _ hmem)

/-- The valuation satisfies the memory behind the links. -/
theorem Satisfies.memory {st : UnifyState} (h : Satisfies hp R σ st) : Models hp R st.memory σ := by
  intro a ha
  rcases restore_cases st.unif st.store.cell a with heq | hmem
  · rw [UnifyState.memory, heq]
    exact h.models a ha
  · exact h.links _ hmem

theorem InRegion.memory {st : UnifyState} (h : InRegion hp R st) : Closed hp R st.memory := by
  intro a ha
  rcases restore_cases st.unif st.store.cell a with heq | hmem
  · rw [UnifyState.memory, heq]
    exact h.closed a ha
  · exact (h.saved _ hmem).2

end Yap
