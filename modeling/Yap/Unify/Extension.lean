-- SUMMARY: The memories that a unification passes through extend the store by bindings that every solution of the equation of the two words satisfies.
import Yap.Unify.Walk

/-!
# Extensions of a store

A problem is two words of a store that unfold to finite terms. Its solutions are
the unifiers of the terms. Whatever a call has bound so far, every solution of the
problem satisfies the store that it has reached.
-/

namespace Yap

open Relation

variable {hp : Heap}

-- ---------------------------------------------------------------------------
-- Unifiers
-- ---------------------------------------------------------------------------

def Unifies (τ : Addr → Term) (t u : Term) : Prop := (t.subst τ).Identical (u.subst τ)

/-- The terms have a common instance. -/
def Unifiable (t u : Term) : Prop := ∃ τ, Unifies τ t u

@[simp] theorem Term.subst_var (t : Term) : t.subst .var = t := by
  induction t with
  | pair p hd tl ihh iht => rw [subst, ihh, iht]
  | appl p f as ih => rw [subst, funext ih]
  | _ => rfl

@[simp] theorem Term.erase_erase (t : Term) : t.erase.erase = t.erase := by
  induction t with
  | pair p hd tl ihh iht => rw [erase, erase, ihh, iht]
  | appl p f as ih => rw [erase, erase, funext ih]
  | blob p b => exact erase_erase_blob p b
  | _ => rfl

/-- Terms without variables are their own instances. -/
theorem Term.subst_ground {τ : Addr → Term} {t : Term} (h : ∀ v, ¬ t.Occurs v) :
    (t.subst τ).Identical t := by
  have hcongr : (t.subst τ).erase = (t.subst .var).erase :=
    erase_subst_congr fun v hv => absurd hv (h v)
  rw [Identical, hcongr, subst_var]

theorem unifiable_ground {t u : Term} (ht : ∀ v, ¬ t.Occurs v) (hu : ∀ v, ¬ u.Occurs v) :
    Unifiable t u ↔ t.Identical u := by
  constructor
  · rintro ⟨τ, hτ⟩
    exact (Term.subst_ground ht).symm.trans (hτ.trans (Term.subst_ground hu))
  · intro h
    exact ⟨.var, by rwa [Unifies, Term.subst_var, Term.subst_var]⟩

-- ---------------------------------------------------------------------------
-- Problems
-- ---------------------------------------------------------------------------

variable (hp) in
/-- Two words of a store that unfold to finite terms, and a region that holds them. -/
structure Problem (s : Store) (d0 d1 : Cell) (t u : Term) (R : Finset Addr) : Prop where
  left : Unfolds hp s.cell d0 t
  right : Unfolds hp s.cell d1 u
  region : Region hp s.cell {v | t.Occurs v ∨ u.Occurs v} R
  left_within : d0.Within hp R
  right_within : d1.Within hp R

theorem exists_problem {s : Store} {d0 d1 : Cell} {t u : Term} (h0 : Unfolds hp s.cell d0 t)
    (h1 : Unfolds hp s.cell d1 u) : ∃ R, Problem hp s d0 d1 t u R := by
  obtain ⟨R0, hwithin0, hR0⟩ := h0.region (V := {v | t.Occurs v ∨ u.Occurs v}) fun v hv => .inl hv
  obtain ⟨R1, hwithin1, hR1⟩ := h1.region (V := {v | t.Occurs v ∨ u.Occurs v}) fun v hv => .inr hv
  exact ⟨R0 ∪ R1, h0, h1, hR0.union hR1, fun a ha => Finset.mem_union_left _ (hwithin0 a ha),
    fun a ha => Finset.mem_union_right _ (hwithin1 a ha)⟩

section Problem

variable {s : Store} {d0 d1 : Cell} {t u : Term} {R : Finset Addr}

/-- The unifiers of the terms are the solutions of the equation of the words. -/
theorem Problem.unifies_iff (h : Problem hp s d0 d1 t u R) {τ : Addr → Term} :
    Unifies τ t u ↔ d0.value hp (solution hp s.cell τ) = d1.value hp (solution hp s.cell τ) := by
  rw [value_solution h.left, value_solution h.right]
  rfl

theorem Problem.models (h : Problem hp s d0 d1 t u R) (τ : Addr → Term) :
    Models hp R s.cell (solution hp s.cell τ) := models_solution h.region τ

theorem Problem.occurs (h : Problem hp s d0 d1 t u R) {v : Addr} (hv : t.Occurs v ∨ u.Occurs v) :
    v ∈ R ∧ s.cell v = .ref v := by
  rcases hv with hv | hv
  · exact h.left.occurs h.region.closed h.left_within hv
  · exact h.right.occurs h.region.closed h.right_within hv

/-- The unbound cells of the region are the variables of the two terms. -/
theorem Problem.occurs_of_unbound (h : Problem hp s d0 d1 t u R) {a : Addr} (ha : a ∈ R)
    (hunbound : s.cell a = .ref a) : t.Occurs a ∨ u.Occurs a := by
  obtain ⟨w, hw, hV⟩ := h.region.finite a ha
  obtain rfl := hw.unique (.unbound hunbound)
  exact hV a (List.mem_singleton.mpr rfl)

/-- The words of a solution lead to words with one value. -/
theorem Problem.derefs (h : Problem hp s d0 d1 t u R) {σ : Addr → Term} (hσ : Models hp R s.cell σ) :
    (s.deref d0).value hp σ = d0.value hp σ ∧ (s.deref d1).value hp σ = d1.value hp σ :=
  ⟨hσ.deref h.region.closed h.left_within, hσ.deref h.region.closed h.right_within⟩

end Problem

-- ---------------------------------------------------------------------------
-- Extensions
-- ---------------------------------------------------------------------------

variable (hp) in
/-- The store has been extended by bindings that every solution of the equation of
    the two words satisfies. -/
structure Extension (s : Store) (d0 d1 : Cell) (R : Finset Addr) (real : Store) : Prop where
  extend : Extends s.cell real.cell
  outside : ∀ a, a ∉ R → real.cell a = s.cell a
  closed : Closed hp R real.cell
  forward : ∀ σ, Models hp R s.cell σ → d0.value hp σ = d1.value hp σ → Models hp R real.cell σ

/-- The two words have been taken to blocks of argument cells. -/
structure Visits (hp : Heap) (s : Store) (d0 d1 : Cell) (l r : Addr) (n : ℕ) (e0 e1 : Nonvar) : Prop where
  left : s.deref d0 = .nonvar e0
  right : s.deref d1 = .nonvar e1
  left_block : e0.block hp = (l, n)
  right_block : e1.block hp = (r, n)
  key : ∀ σ, (e0.value hp σ).key = (e1.value hp σ).key

section Extension

variable {s real : Store} {d0 d1 : Cell} {t u : Term} {R : Finset Addr}

theorem Problem.extension_start (h : Problem hp s d0 d1 t u R) : Extension hp s d0 d1 R s :=
  ⟨fun _ _ => rfl, fun _ _ => rfl, h.region.closed, fun _ hσ _ => hσ⟩

theorem Problem.extension_bind (h : Problem hp s d0 d1 t u R) {a : Addr} {c : Cell}
    (hstep : unifyTop hp s d0 d1 = .bind a c) :
    ∃ real : Store, real.cell = Function.update s.cell a c ∧ Extension hp s d0 d1 R real := by
  obtain ⟨ha, hwritable⟩ := unifyWords_writable (bindsVars_unifyCells hp.hr) hstep
  obtain ⟨-, hwords⟩ := unifyWords_bind (bindsVars_unifyCells hp.hr) hstep
  have hw0 := Store.deref_within h.region.closed h.left_within
  have hw1 := Store.deref_within h.region.closed h.right_within
  have hwithin : a ∈ R ∧ c.Within hp R := by
    rcases hwords with ⟨hd0, hd1⟩ | ⟨hd0, hd1⟩
    · exact ⟨Cell.within_ref.mp (hd0 ▸ hw0), hd1 ▸ hw1⟩
    · exact ⟨Cell.within_ref.mp (hd1 ▸ hw1), hd0 ▸ hw0⟩
  have hframe : ∀ x, x ≠ a → Function.update s.cell a c x = s.cell x :=
    fun x hx => Function.update_of_ne hx _ _
  refine ⟨s.set a c hwritable, rfl, fun x hx => hframe x ?_, fun x hx => hframe x ?_,
    h.region.closed.update hwithin.2 a, fun σ hσ heq => hσ.update ?_⟩
  · rintro rfl
    exact hx ha
  · rintro rfl
    exact hx hwithin.1
  · obtain ⟨hv0, hv1⟩ := h.derefs hσ
    rcases hwords with ⟨hd0, hd1⟩ | ⟨hd0, hd1⟩
    · rw [hd0] at hv0
      rw [hd1] at hv1
      exact hv0.trans (heq.trans hv1.symm)
    · rw [hd0] at hv0
      rw [hd1] at hv1
      exact hv1.trans (heq.symm.trans hv0.symm)

theorem Visits.pairs {l r : Addr} {n : ℕ} :
    (UnifyState.init s ⟨l, l + n, r⟩).pairs = (List.range' l n).zip (List.range' r n) := by
  rw [UnifyState.pairs_init, Frame.pairs_block]

/-- The loop starts in the region. -/
theorem Problem.inRegion (h : Problem hp s d0 d1 t u R) {l r : Addr} {n : ℕ} {e0 e1 : Nonvar}
    (hv : Visits hp s d0 d1 l r n e0 e1) : InRegion hp R (.init s ⟨l, l + n, r⟩) := by
  have hw0 := Store.deref_within h.region.closed h.left_within
  have hw1 := Store.deref_within h.region.closed h.right_within
  rw [hv.left] at hw0
  rw [hv.right] at hw1
  refine ⟨h.region.closed, fun pr hpr => ?_, by rintro _ ⟨⟩⟩
  rw [Visits.pairs] at hpr
  obtain ⟨hl, hr⟩ := List.of_mem_zip hpr
  refine ⟨hw0 _ ?_, hw1 _ ?_⟩
  · rwa [Cell.cells, Nonvar.cells_of_block hv.left_block]
  · rwa [Cell.cells, Nonvar.cells_of_block hv.right_block]

/-- A solution of the equation of the two words solves the pairs of argument cells. -/
theorem Problem.satisfies (h : Problem hp s d0 d1 t u R) {l r : Addr} {n : ℕ} {e0 e1 : Nonvar}
    (hv : Visits hp s d0 d1 l r n e0 e1) {σ : Addr → Term} (hσ : Models hp R s.cell σ)
    (heq : d0.value hp σ = d1.value hp σ) : Satisfies hp R σ (.init s ⟨l, l + n, r⟩) := by
  obtain ⟨hv0, hv1⟩ := h.derefs hσ
  rw [hv.left] at hv0
  rw [hv.right] at hv1
  have hargs := map_range'_eq_of_value hv.left_block hv.right_block (hv0.trans (heq.trans hv1.symm))
  refine ⟨h.inRegion hv, hσ, fun pr hpr => ?_, by rintro _ ⟨⟩⟩
  rw [Visits.pairs] at hpr
  exact equal_of_map_eq hargs pr hpr

/-- A turn changes the memory behind the links in the region only. -/
theorem InRegion.goes_outside {st st' : UnifyState} (h : InRegion hp R st) (hl : st.Linked)
    (hgo : Goes hp st st') : st'.Linked ∧ ∀ a, a ∉ R → st'.memory a = st.memory a := by
  rcases UnifyState.turn_go hgo with hmove | ⟨a, c, hb, rfl⟩
  · exact ⟨hmove.linked hl, fun a _ => by rw [hmove.memory]⟩
  · refine ⟨hb.linked hl, fun x hx => ?_⟩
    rw [hb.memory hl]
    refine Function.update_of_ne ?_ _ _
    rintro rfl
    exact hx (hb.within h).1

theorem InRegion.run {st st' : UnifyState} (h : InRegion hp R st) (hl : st.Linked)
    (hrun : ReflTransGen (Goes hp) st st') :
    InRegion hp R st' ∧ st'.Linked ∧ ∀ a, a ∉ R → st'.memory a = st.memory a := by
  induction hrun with
  | refl => exact ⟨h, hl, fun _ _ => rfl⟩
  | tail _ hgo ih =>
      obtain ⟨hin, hlinked, hout⟩ := ih
      obtain ⟨hlinked', hout'⟩ := hin.goes_outside hlinked hgo
      exact ⟨hin.goes hgo, hlinked', fun a ha => (hout' a ha).trans (hout a ha)⟩

/-- The memory behind the links extends the store. -/
theorem Problem.extension_reached (h : Problem hp s d0 d1 t u R) {l r : Addr} {n : ℕ} {e0 e1 : Nonvar}
    (hv : Visits hp s d0 d1 l r n e0 e1) {st : UnifyState}
    (hrun : ReflTransGen (Goes hp) (.init s ⟨l, l + n, r⟩) st)
    (hreached : Reached hp s ⟨l, l + n, r⟩ st real) : Extension hp s d0 d1 R real := by
  obtain ⟨hin, -, hout⟩ := (h.inRegion hv).run (UnifyState.linked_init _ _) hrun
  refine ⟨hreached.frame_cells, fun a ha => ?_, ?_, fun σ hσ heq => ?_⟩
  · rw [hreached.memory]
    exact hout a ha
  · rw [hreached.memory]
    exact hin.memory
  · rw [hreached.memory]
    exact ((h.satisfies hv hσ heq).run hrun).memory

-- ---------------------------------------------------------------------------
-- Finite terms
-- ---------------------------------------------------------------------------

/-- A valuation of an extension is one of the store. -/
theorem Models.of_extends {m m' : Addr → Cell} {σ : Addr → Term} (h : Models hp R m' σ)
    (hext : Extends m m') : Models hp R m σ := by
  intro a ha
  by_cases hunbound : m a = .ref a
  · rw [hunbound]
    rfl
  · rw [← hext a hunbound]
    exact h a ha

/-- The terms of a unifier stay finite. -/
theorem Problem.finite_of_unifiable (h : Problem hp s d0 d1 t u R) (hreal : Extension hp s d0 d1 R real)
    (hunif : Unifiable t u) :
    (∃ w, Unfolds hp real.cell d0 w) ∧ ∃ w, Unfolds hp real.cell d1 w := by
  obtain ⟨τ, hτ⟩ := hunif
  have hσ := hreal.forward _ (h.models τ) (h.unifies_iff.mp hτ)
  have hvars : ∀ v, t.Occurs v ∨ u.Occurs v → ∃ w, Unfolds hp real.cell (.ref v) w :=
    fun v hv => hσ.unfolds hreal.closed (h.occurs hv).1
  exact ⟨h.left.extend hreal.extend fun v hv => hvars v (.inl hv),
    h.right.extend hreal.extend fun v hv => hvars v (.inr hv)⟩

/-- When the two words unfold, so do all cells of the region. -/
theorem Problem.finite_cells (h : Problem hp s d0 d1 t u R) {m : Addr → Cell} (hext : Extends s.cell m)
    (h0 : ∃ w, Unfolds hp m d0 w) (h1 : ∃ w, Unfolds hp m d1 w) :
    ∀ a ∈ R, ∃ w, Unfolds hp m (.ref a) w := by
  intro a ha
  obtain ⟨w0, hw0⟩ := h0
  obtain ⟨w1, hw1⟩ := h1
  obtain ⟨w, hw, hV⟩ := h.region.finite a ha
  refine hw.extend hext fun v hv => ?_
  rcases hV v hv with hv | hv
  · exact h.left.of_extend hext hw0 hv
  · exact h.right.of_extend hext hw1 hv

theorem Problem.extended_region (h : Problem hp s d0 d1 t u R) (hreal : Extension hp s d0 d1 R real)
    (h0 : ∃ w, Unfolds hp real.cell d0 w) (h1 : ∃ w, Unfolds hp real.cell d1 w) :
    Region hp real.cell Set.univ R := by
  refine ⟨hreal.closed, fun a ha => ?_⟩
  obtain ⟨w, hw⟩ := h.finite_cells hreal.extend h0 h1 a ha
  exact ⟨w, hw, fun _ _ => trivial⟩

-- ---------------------------------------------------------------------------
-- Success
-- ---------------------------------------------------------------------------

/-- A run that ends has made the two words equal in every valuation of its memory. -/
theorem Problem.identical_of_end (h : Problem hp s d0 d1 t u R) {l r : Addr} {n : ℕ} {e0 e1 : Nonvar}
    (hv : Visits hp s d0 d1 l r n e0 e1) {st : UnifyState}
    (hrun : ReflTransGen (Goes hp) (.init s ⟨l, l + n, r⟩) st)
    (hreached : Reached hp s ⟨l, l + n, r⟩ st real) (hend : st.pairs = []) {σ : Addr → Term}
    (hσ : Models hp R real.cell σ) : (d0.value hp σ).Identical (d1.value hp σ) := by
  obtain ⟨hin, -, -⟩ := (h.inRegion hv).run (UnifyState.linked_init _ _) hrun
  have hsides := sideKeys_eq_of_moves (hreached.inRegion (h.inRegion hv) hin) hσ hreached.moves hend
  rw [Frame.pairs_block, sideKeys_fst_zip, sideKeys_snd_zip] at hsides
  obtain ⟨hv0, hv1⟩ := h.derefs (hσ.of_extends hreached.frame_cells)
  rw [hv.left] at hv0
  rw [hv.right] at hv1
  rw [← hv0, ← hv1, ← Term.keys_eq_iff, Cell.value, Cell.value, keys_value_of_block hv.left_block,
    keys_value_of_block hv.right_block, hv.key, hsides]

variable (hp) in
/-- Only variables of the two terms are bound, and their values are a most general
    unifier: every unifier is an instance of it. -/
structure MostGeneral (s m : Addr → Cell) (t u : Term) : Prop where
  frame : ∀ a, m a ≠ s a → s a = .ref a ∧ (t.Occurs a ∨ u.Occurs a)
  unifier : ∃ θ : Addr → Term, (∀ v, t.Occurs v ∨ u.Occurs v → Unfolds hp m (.ref v) (θ v)) ∧
    Unifies θ t u ∧ ∀ τ, Unifies τ t u → ∀ v, t.Occurs v ∨ u.Occurs v →
      (τ v).Identical ((θ v).subst τ)

/-- An extension that makes the two words equal is a most general unifier. -/
theorem Problem.mostGeneral (h : Problem hp s d0 d1 t u R) (hreal : Extension hp s d0 d1 R real)
    (h0 : ∃ w, Unfolds hp real.cell d0 w) (h1 : ∃ w, Unfolds hp real.cell d1 w)
    (hequal : ∀ σ, Models hp R real.cell σ → (d0.value hp σ).Identical (d1.value hp σ)) :
    MostGeneral hp s.cell real.cell t u := by
  have hregion := h.extended_region hreal h0 h1
  refine ⟨fun a ha => ?_, ?_⟩
  · have hR : a ∈ R := not_imp_comm.mp (hreal.outside a) ha
    have hunbound : s.cell a = .ref a := not_imp_comm.mp (hreal.extend a) ha
    exact ⟨hunbound, h.occurs_of_unbound hR hunbound⟩
  have hcells : ∀ a, ∃ w, a ∈ R → Unfolds hp real.cell (.ref a) w := by
    intro a
    by_cases ha : a ∈ R
    · obtain ⟨w, hw, -⟩ := hregion.finite a ha
      exact ⟨w, fun _ => hw⟩
    · exact ⟨.int 0, fun hR => absurd hR ha⟩
  choose θ hθ using hcells
  refine ⟨θ, fun v hv => hθ v (h.occurs hv).1, ?_, fun τ hτ v hv => ?_⟩
  · -- The terms are equal in the valuation that leaves unbound variables alone.
    have hσ := models_solution hregion .var
    have hstore := hσ.of_extends hreal.extend
    have hvalue : ∀ v, t.Occurs v ∨ u.Occurs v → (solution hp real.cell .var v).erase = (θ v).erase :=
      fun v hv => by rw [solution_eq (hθ v (h.occurs hv).1), Term.subst_var, Term.erase_erase]
    have ht := hstore.value_eq h.region.closed h.left h.left_within
    have hu := hstore.value_eq h.region.closed h.right h.right_within
    rw [Term.erase_subst_congr fun v hv => hvalue v (.inl hv)] at ht
    rw [Term.erase_subst_congr fun v hv => hvalue v (.inr hv)] at hu
    exact ht.symm.trans ((hequal _ hσ).trans hu)
  · -- Every unifier satisfies the memory, so it gives a variable the instance of its term.
    obtain ⟨hR, hunbound⟩ := h.occurs hv
    have hσ := hreal.forward _ (h.models τ) (h.unifies_iff.mp hτ)
    have hv' := hσ.value_eq hreal.closed (hθ v hR) (Cell.within_ref.mpr hR)
    rw [Cell.value, solution_eq (.unbound hunbound), Term.erase_erase] at hv'
    refine Eq.trans hv' (Term.erase_subst_congr fun w hw => ?_)
    obtain ⟨-, hw'⟩ := (hθ v hR).occurs hreal.closed (Cell.within_ref.mpr hR) hw
    have hunbound' : s.cell w = .ref w := by
      by_contra hne
      exact hne ((hreal.extend w hne).symm.trans hw')
    rw [solution_eq (.unbound hunbound'), Term.erase_erase]
    rfl

end Extension

end Yap
