-- SUMMARY: The search after a binding sees every cycle that the binding makes in the memory behind the links: when it finds none, the memory still holds finite terms.
import Yap.OccursCheck.Links
import Yap.Unify.Extension

/-!
# The occurs check

The search reads links in place of the cells that they overwrite. A link whose block
has been walked through holds the same term. From a link that the walk is below the
search comes to the right cell of the binding, and so back to where it started.
-/

namespace Yap

open Relation

variable {hp : Heap} {R R' : Finset Addr} {σ ρ : Addr → Term} {a b : Key} {s : Store}

-- ---------------------------------------------------------------------------
-- Variables and keys
-- ---------------------------------------------------------------------------

theorem Term.occurs_iff {v : Addr} {t : Term} : t.Occurs v ↔ (Term.var v).key ∈ t.keys := by
  constructor
  · exact fun h => List.mem_map_of_mem h
  · intro h
    obtain ⟨u, hu, hkey⟩ := List.mem_map.mp h
    have hvar : u = .var v := by
      cases sameHead_of_key_eq hkey with
      | leaf _ _ herase =>
          cases u with
          | var w => exact herase
          | blob p c => cases c <;> cases herase
          | _ => cases herase
    rwa [hvar] at hu

theorem Term.occurs_congr {v : Addr} {t u : Term} (h : t.keys = u.keys) : t.Occurs v ↔ u.Occurs v := by
  rw [occurs_iff, occurs_iff, h]

/-- A variable of a word is a variable of an argument cell. -/
theorem Nonvar.occurs_cases {v : Addr} {d : Nonvar} (h : (d.value hp σ).Occurs v) :
    ∃ x ∈ d.cells hp, (σ x).Occurs v := by
  rcases h.cases with heq | ⟨u, hu, hv⟩
  · cases d with
    | appl p =>
        cases hf : hp.functorAt p with
        | functor f => rw [value_functor hf] at heq; cases heq
        | blob c => rw [value_blob hf] at heq; cases c <;> cases heq
    | _ => cases heq
  · rw [args_value] at hu
    obtain ⟨x, hx, rfl⟩ := List.mem_map.mp hu
    exact ⟨x, hx, hv⟩

-- ---------------------------------------------------------------------------
-- Links that the walk is below
-- ---------------------------------------------------------------------------

/-- The word that a link holds leads to the right cell of the walk, so its value in
    the linked memory is greater. -/
theorem Nested.leads_down {r : Store} {n cost N C : ℕ} {xs ys above : List Addr} {frames : List Frame}
    (h : Nested hp σ s n xs ys above cost N frames)
    (hderef : ∀ y d, s.deref (.ref y) = .nonvar d → r.deref (.ref y) = .nonvar d)
    (hR' : Closed hp R' r.cell) (hρ : Models hp R' r.cell ρ) (hy : ∃ y ∈ ys, y ∈ R' → C ≤ (ρ y).size)
    (habove : ∀ x ∈ above, ∃ d, s.cell x = .nonvar d ∧
      ((Cell.nonvar d).Within hp R' → C < (d.value hp ρ).size)) :
    ∀ fr ∈ frames, ∃ d, s.cell fr.left = .nonvar d ∧
      ((Cell.nonvar d).Within hp R' → C < (d.value hp ρ).size) := by
  induction h with
  | nil => rintro fr ⟨⟩
  | @cons xs ys above cost N N₁ fr rest hlt hpend _ ih =>
      obtain ⟨d, hd⟩ := hpend.linked
      have hfr : (Cell.nonvar d).Within hp R' → C < (d.value hp ρ).size := by
        intro hwithin
        obtain ⟨y, hy, hle⟩ := hy
        have hcell := hpend.rights y hy
        rw [hd] at hcell
        exact (hle (hwithin y hcell)).trans_lt (Nonvar.size_lt hcell)
      have habove' : ∀ x ∈ fr.left :: above, ∃ d, s.cell x = .nonvar d ∧
          ((Cell.nonvar d).Within hp R' → C < (d.value hp ρ).size) := by
        intro x hx
        rcases List.mem_cons.mp hx with rfl | hx
        · exact ⟨d, hd, hfr⟩
        · exact habove x hx
      have hright : fr.right ∈ R' → C ≤ (ρ fr.right).size := by
        intro hmem
        obtain ⟨x, hx, hleads⟩ : ∃ x ∈ fr.left :: above, s.deref (.ref fr.right) = s.cell x := by
          rcases hpend.leads with hleads | ⟨x, hx, -, hleads⟩
          · exact ⟨_, List.mem_cons_self .., hleads⟩
          · exact ⟨x, List.mem_cons_of_mem _ hx, hleads⟩
        obtain ⟨e, he, hbound⟩ := habove' x hx
        have hto := hderef _ e (hleads.trans he)
        have hvalue := hρ.deref hR' (Cell.within_ref.mpr hmem)
        have hwithin := Store.deref_within hR' (Cell.within_ref.mpr hmem)
        rw [hto] at hvalue hwithin
        rw [← show e.value hp ρ = ρ fr.right from hvalue]
        exact (hbound hwithin).le
      intro fr' hfr'
      rcases List.mem_cons.mp hfr' with rfl | hfr'
      · exact ⟨d, hd, hfr⟩
      · exact ih ⟨_, List.mem_cons_self .., hright⟩ habove' fr' hfr'

-- ---------------------------------------------------------------------------
-- The binding
-- ---------------------------------------------------------------------------

section Binding

variable {st : UnifyState} {n : ℕ} {v : Addr} {c : Cell}

/-- What a cell leads to after the binding. -/
theorem Binds.deref (hb : Binds hp st v c) (d : Cell) :
    (st.bind hp hb.step).store.deref d = if st.store.deref d = .ref v then c else st.store.deref d :=
  Store.deref_set rfl hb.unbound hb.writable d

/-- The right cell leads to what the variable has been bound to. -/
theorem Binds.deref_right (hb : Binds hp st v c) :
    (st.bind hp hb.step).store.deref (.ref st.frame.pt1) = c := by
  rw [hb.deref]
  obtain ⟨-, ⟨-, h1⟩ | ⟨-, h1⟩⟩ := unifyWords_bind bindsVars_unifyGlobalCells hb.step
  · rw [h1]
    split
    · rfl
    · rfl
  · rw [if_pos h1]

/-- In the linked memory a cell whose term contains the variable is as great as what
    the variable has been bound to. -/
theorem Tracks.size_le (h : Tracks hp R σ a b st n) (hσ : ∀ x ∈ R, st.store.cell x = .ref x → σ x = .var x)
    (hb : Binds hp st v c) (hR' : Closed hp R' (st.bind hp hb.step).store.cell)
    (hρ : Models hp R' (st.bind hp hb.step).store.cell ρ) {x : Addr} (hx : x ∈ R) (hx' : x ∈ R')
    (hocc : (σ x).Occurs v) : (c.value hp ρ).size ≤ (ρ x).size := by
  have hcell : (st.bind hp hb.step).store.cell = Function.update st.store.cell v c := rfl
  have hlinks := h.nested.leads_down (r := (st.bind hp hb.step).store) (C := (c.value hp ρ).size)
    (fun y d hd => by rw [hb.deref, hd]; exact if_neg (by rintro ⟨⟩)) hR' hρ
    ⟨st.frame.pt1, by rw [(Frame.sides_of_lt hb.lt).2]; exact List.mem_cons_self .., fun hy => by
      have hvalue := hρ.deref hR' (Cell.within_ref.mpr hy)
      rw [hb.deref_right] at hvalue
      rw [hvalue]
      rfl⟩ (by rintro x ⟨⟩)
  -- By induction on the term at the cell, and along its references.
  induction hsize : (σ x).size using Nat.strongRecOn generalizing x with
  | ind k ih =>
      induction x using Store.deref_induction (s := st.store) with
      | unbound x hunbound =>
          rw [hσ x hx hunbound] at hocc
          obtain rfl : v = x := Term.var.inj (List.mem_singleton.mp hocc)
          rw [hρ v hx', hcell, Function.update_self]
      | ref x y hy hyx ihy =>
          have hxv : x ≠ v := by
            rintro rfl
            exact hyx (Cell.ref.inj (hy.symm.trans hb.unbound))
          have hkeys := h.refsExact x hx y hy
          have hcell' : (st.bind hp hb.step).store.cell x = .ref y := by
            rw [hcell, Function.update_of_ne hxv, hy]
          have hyR : y ∈ R := h.closed x hx y (by simp [hy, Cell.cells])
          have hyR' : y ∈ R' := hR' x hx' y (by simp [hcell', Cell.cells])
          rw [hρ x hx', hcell']
          exact ihy hyR hyR' ((Term.occurs_congr hkeys).mp hocc) (by rw [← Term.size_congr hkeys, hsize])
      | nonvar x d hd =>
          have hxv : x ≠ v := by
            rintro rfl
            cases hd.symm.trans hb.unbound
          have hcell' : (st.bind hp hb.step).store.cell x = .nonvar d := by
            rw [hcell, Function.update_of_ne hxv, hd]
          have hwithin := hR' x hx'
          rw [hcell'] at hwithin
          rw [hρ x hx', hcell', Cell.value]
          rcases h.done x hx with hkeys | ⟨fr, hfr, rfl⟩
          · rw [hd] at hkeys
            obtain ⟨y, hy, hocc'⟩ := Nonvar.occurs_cases ((Term.occurs_congr hkeys).mp hocc)
            have hyR : y ∈ R := h.closed x hx y (by rw [hd]; exact hy)
            have hlt : (σ y).size < k := by
              rw [← hsize, Term.size_congr hkeys]
              exact Nonvar.size_lt hy
            exact (ih _ hlt hyR (hwithin y hy) hocc' rfl).trans (Nonvar.size_lt hy).le
          · obtain ⟨e, he, hbound⟩ := hlinks fr hfr
            obtain rfl := Cell.nonvar.inj (hd.symm.trans he)
            exact (hbound hwithin).le

/-- When the search from the bound variable finds no cycle, the variable does not
    occur in the term that it has been bound to. -/
theorem Tracks.not_occurs (h : Tracks hp R σ a b st n)
    (hσ : ∀ x ∈ R, st.store.cell x = .ref x → σ x = .var x) {d : Nonvar}
    (hb : Binds hp st v (.nonvar d))
    (hfinite : ∃ u, Unfolds hp (st.bind hp hb.step).store.cell (.ref v) u) :
    ¬ (d.value hp σ).Occurs v := by
  intro hocc
  obtain ⟨u, hu⟩ := hfinite
  obtain ⟨R', hv, hR'⟩ := hu.region (V := Set.univ) fun _ _ => trivial
  have hρ := models_solution hR' .var
  have hv' : v ∈ R' := Cell.within_ref.mp hv
  have hcell : (st.bind hp hb.step).store.cell v = .nonvar d := Function.update_self ..
  have hwithin := hR'.closed v hv'
  rw [hcell] at hwithin
  obtain ⟨x, hx, hxocc⟩ := Nonvar.occurs_cases hocc
  have hxR : x ∈ R := (hb.within h.toInRegion).2 x hx
  have hle := h.size_le hσ hb hR'.closed hρ hxR (hwithin x hx) hxocc
  exact absurd hle (Nonvar.size_lt hx).not_ge

end Binding

-- ---------------------------------------------------------------------------
-- The memory behind the links
-- ---------------------------------------------------------------------------

/-- A binding to a term without the variable keeps the memory finite. -/
theorem unfolds_update {m : Addr → Cell} {v : Addr} {c : Cell} {w : Term} (hv : m v = .ref v)
    (hc : c ≠ .ref v) (hw : Unfolds hp m c w) (hocc : ¬ w.Occurs v) {d : Cell} {u : Term}
    (hu : Unfolds hp m d u) (hvars : ∀ x, u.Occurs x → m x = .ref x)
    (hwvars : ∀ x, w.Occurs x → m x = .ref x) :
    ∃ u', Unfolds hp (Function.update m v c) d u' := by
  have hext : Extends m (Function.update m v c) := by
    intro x hx
    refine Function.update_of_ne ?_ _ _
    rintro rfl
    exact hx hv
  have hother : ∀ x, x ≠ v → m x = .ref x → ∃ u', Unfolds hp (Function.update m v c) (.ref x) u' :=
    fun x hx hunbound => ⟨_, .unbound (by rw [Function.update_of_ne hx, hunbound])⟩
  have hvalue : ∃ u', Unfolds hp (Function.update m v c) (.ref v) u' := by
    obtain ⟨w', hw'⟩ := hw.extend hext fun x hx => hother x (by rintro rfl; exact hocc hx) (hwvars x hx)
    refine ⟨w', .ref ?_ ?_⟩
    · rwa [Function.update_self]
    · rwa [Function.update_self]
  refine hu.extend hext fun x hx => ?_
  by_cases hxv : x = v
  · exact hxv ▸ hvalue
  · exact hother x hxv (hvars x hx)

/-- The memory behind the links holds finite terms after a binding whose check finds
    no cycle, if it does before. -/
theorem Reached.finite_bind {s real : Store} {frame : Frame} {st : UnifyState}
    (hreached : Reached hp s frame st real) (hinit : InRegion hp R (.init s frame)) (hin : InRegion hp R st)
    (hreal : ∀ x ∈ R, ∃ u, Unfolds hp real.cell (.ref x) u) {v : Addr} {c : Cell}
    (hb : Binds hp st v c)
    (hcheck : ∀ d, c = .nonvar d → ∃ u, Unfolds hp (st.bind hp hb.step).store.cell (.ref v) u) :
    ∀ x ∈ R, ∃ u, Unfolds hp (Function.update real.cell v c) (.ref x) u := by
  have hstart := hreached.inRegion hinit hin
  have hregion : Region hp real.cell Set.univ R :=
    ⟨hstart.closed, fun x hx => by
      obtain ⟨u, hu⟩ := hreal x hx
      exact ⟨u, hu, fun _ _ => trivial⟩⟩
  have hσ := models_solution hregion .var
  obtain ⟨a, b, n, htracks⟩ := exists_tracks hstart hσ hreached.moves
  obtain ⟨hvR, hcR⟩ := hb.within hin
  have hunbound : ∀ x, st.store.cell x = .ref x → real.cell x = .ref x := fun x hx => by
    rw [hreached.memory]
    exact UnifyState.memory_unbound hreached.linked hx
  have hvars : ∀ x ∈ R, st.store.cell x = .ref x → solution hp real.cell .var x = .var x :=
    fun x _ hx => solution_eq (.unbound (hunbound x hx))
  obtain ⟨w, hw, hocc⟩ : ∃ w, Unfolds hp real.cell c w ∧ ¬ w.Occurs v := by
    cases c with
    | ref y =>
        obtain ⟨hyv, hy⟩ := hb.writable y rfl
        refine ⟨.var y, .unbound (hunbound y hy), fun h => ?_⟩
        exact hyv (Term.var.inj (List.mem_singleton.mp h)).symm
    | nonvar d =>
        obtain ⟨w, hw⟩ := unfolds_of_cells fun x hx => hreal x (hcR x hx)
        refine ⟨w, hw, ?_⟩
        have hnot := htracks.not_occurs hvars hb (hcheck d rfl)
        have hvalue := value_solution (τ := .var) hw
        rw [Term.subst_var, Cell.value] at hvalue
        rwa [hvalue, Term.occurs_congr (Term.keys_erase w)] at hnot
  intro x hx
  obtain ⟨u, hu⟩ := hreal x hx
  refine unfolds_update (hunbound v hb.unbound) hb.ne_self hw hocc hu (fun y hy => ?_) fun y hy => ?_
  · exact (hu.occurs hstart.closed (Cell.within_ref.mpr hx) hy).2
  · exact (hw.occurs hstart.closed hcR hy).2

end Yap
