-- SUMMARY: The terms that words unfold to, valuations of the cells as solutions of the equations that a store states, and how the two determine each other.
import Yap.Heap.Store
import Yap.Compare.Order

/-!
# Unfolding

A store states one equation for each cell: the cell has the value of what it
holds. A valuation that satisfies the equations of a region gives every word of
the region a finite term, and the terms that words unfold to are such a valuation.
-/

namespace Yap

-- ---------------------------------------------------------------------------
-- Values
-- ---------------------------------------------------------------------------

/-- Replaces variables by terms. -/
def Term.subst (τ : Addr → Term) : Term → Term
  | .var v => τ v
  | .pair p h t => .pair p (h.subst τ) (t.subst τ)
  | .appl p f as => .appl p f fun i => (as i).subst τ
  | t => t

variable (hp : Heap)

/-- The value of a word when the cells have the values `σ`. -/
def Nonvar.value (σ : Addr → Term) : Nonvar → Term
  | .int n => .int n
  | .atom a => .atom a
  | .pair p => .pair 0 (σ p) (σ (p + 1))
  | .appl p =>
    match hp.functorAt p with
    | .functor f => .appl 0 f fun i => σ (p + 1 + i)
    | .blob b => (Term.blob p b).erase

def Cell.value (σ : Addr → Term) : Cell → Term
  | .ref a => σ a
  | .nonvar d => d.value hp σ

/-- The cells of a region have the values of what they hold. -/
def Models (R : Finset Addr) (m : Addr → Cell) (σ : Addr → Term) : Prop :=
  ∀ a ∈ R, σ a = (m a).value hp σ

variable {hp}

theorem Nonvar.value_functor {p : Addr} {f : Functor} (hf : hp.functorAt p = .functor f)
    (σ : Addr → Term) :
    (Nonvar.appl p).value hp σ = .appl 0 f fun i => σ (p + 1 + i) := by
  rw [value, hf]

theorem Nonvar.value_blob {p : Addr} {b : Blob} (hb : hp.functorAt p = .blob b) (σ : Addr → Term) :
    (Nonvar.appl p).value hp σ = (Term.blob p b).erase := by
  rw [value, hb]

/-- The arguments of a value are the values of the argument cells. -/
theorem Nonvar.args_value (d : Nonvar) (σ : Addr → Term) :
    (d.value hp σ).args = (d.cells hp).map σ := by
  cases d with
  | pair p => rfl
  | appl p =>
      rw [value, cells, block]
      cases hp.functorAt p with
      | functor f =>
          simp only [Term.args]
          refine List.ext_getElem (by simp) fun i h1 h2 => ?_
          simp
      | blob b => cases b <;> rfl
  | _ => rfl

-- ---------------------------------------------------------------------------
-- Unfolding
-- ---------------------------------------------------------------------------

variable (hp) in
/-- A word unfolds to a finite term. -/
inductive Unfolds (m : Addr → Cell) : Cell → Term → Prop where
  | unbound {v : Addr} : m v = .ref v → Unfolds m (.ref v) (.var v)
  | ref {a : Addr} {t : Term} : m a ≠ .ref a → Unfolds m (m a) t → Unfolds m (.ref a) t
  | int {n : BitVec 58} : Unfolds m (.nonvar (.int n)) (.int n)
  | atom {a : Atom} : Unfolds m (.nonvar (.atom a)) (.atom a)
  | pair {p : Addr} {h t : Term} : Unfolds m (.ref p) h → Unfolds m (.ref (p + 1)) t →
      Unfolds m (.nonvar (.pair p)) (.pair p h t)
  | appl {p : Addr} {f : Functor} {as : Fin f.arityOfFE → Term} : hp.functorAt p = .functor f →
      (∀ i : Fin f.arityOfFE, Unfolds m (.ref (p + 1 + i)) (as i)) →
      Unfolds m (.nonvar (.appl p)) (.appl p f as)
  | blob {p : Addr} {b : Blob} : hp.functorAt p = .blob b →
      Unfolds m (.nonvar (.appl p)) (.blob p b)

variable {m : Addr → Cell}

theorem Unfolds.unique {c : Cell} {t u : Term} (ht : Unfolds hp m c t) (hu : Unfolds hp m c u) :
    t = u := by
  induction ht generalizing u with
  | unbound hv =>
      cases hu with
      | unbound => rfl
      | ref hne => exact absurd hv hne
  | ref hne _ ih =>
      cases hu with
      | unbound hv => exact absurd hv hne
      | ref _ hu => exact ih hu
  | int => cases hu; rfl
  | atom => cases hu; rfl
  | pair _ _ ihh iht =>
      cases hu with
      | pair hh ht => rw [ihh hh, iht ht]
  | appl hf _ ih =>
      cases hu with
      | appl hf' has =>
          obtain rfl := FunctorCell.functor.inj (hf.symm.trans hf')
          rw [funext fun i => ih i (has i)]
      | blob hf' => cases hf.symm.trans hf'
  | blob hb =>
      cases hu with
      | appl hf' => cases hb.symm.trans hf'
      | blob hb' => rw [FunctorCell.blob.inj (hb.symm.trans hb')]

/-- The variable occurs in the term. -/
def Term.Occurs (v : Addr) (t : Term) : Prop := .var v ∈ t.cells

theorem Term.Occurs.of_arg {v : Addr} {t u : Term} (hu : u ∈ t.args) (h : u.Occurs v) : t.Occurs v := by
  rw [Occurs, cells_eq]
  exact List.mem_cons_of_mem _ (List.mem_flatMap.mpr ⟨u, hu, h⟩)

variable (hp) in
/-- The region is closed, and its cells unfold to terms with variables in `V`. -/
structure Region (m : Addr → Cell) (V : Set Addr) (R : Finset Addr) : Prop where
  closed : Closed hp R m
  finite : ∀ a ∈ R, ∃ u, Unfolds hp m (.ref a) u ∧ ∀ v, u.Occurs v → v ∈ V

namespace Region

variable {V : Set Addr} {R R' : Finset Addr}

theorem empty : Region hp m V ∅ := ⟨nofun, nofun⟩

theorem union (h : Region hp m V R) (h' : Region hp m V R') : Region hp m V (R ∪ R') := by
  refine ⟨fun a ha b hb => ?_, fun a ha => ?_⟩
  · rcases Finset.mem_union.mp ha with ha | ha
    · exact Finset.mem_union_left _ (h.closed a ha b hb)
    · exact Finset.mem_union_right _ (h'.closed a ha b hb)
  · rcases Finset.mem_union.mp ha with ha | ha
    · exact h.finite a ha
    · exact h'.finite a ha

theorem biUnion {ι : Type} {I : Finset ι} {F : ι → Finset Addr} (h : ∀ i ∈ I, Region hp m V (F i)) :
    Region hp m V (I.biUnion F) := by
  refine ⟨fun a ha b hb => ?_, fun a ha => ?_⟩ <;> obtain ⟨i, hi, ha⟩ := Finset.mem_biUnion.mp ha
  · exact Finset.mem_biUnion.mpr ⟨i, hi, (h i hi).closed a ha b hb⟩
  · exact (h i hi).finite a ha

/-- A cell joins a region that holds what it refers to. -/
theorem insert {a : Addr} {u : Term} (h : Region hp m V R) (ha : ∀ b ∈ (m a).cells hp, b = a ∨ b ∈ R)
    (hu : Unfolds hp m (.ref a) u) (hV : ∀ v, u.Occurs v → v ∈ V) : Region hp m V (Insert.insert a R) := by
  refine ⟨fun x hx b hb => ?_, fun x hx => ?_⟩
  · rw [Finset.mem_insert]
    rcases Finset.mem_insert.mp hx with rfl | hx
    · exact ha b hb
    · exact .inr (h.closed x hx b hb)
  · rcases Finset.mem_insert.mp hx with rfl | hx
    · exact ⟨u, hu, hV⟩
    · exact h.finite x hx

end Region

/-- A word that unfolds reaches a finite region. -/
theorem Unfolds.region {c : Cell} {t : Term} {V : Set Addr} (h : Unfolds hp m c t)
    (hV : ∀ v, t.Occurs v → v ∈ V) : ∃ R, c.Within hp R ∧ Region hp m V R := by
  induction h with
  | @unbound v hv =>
      refine ⟨Insert.insert v ∅, by simp, ?_⟩
      exact Region.empty.insert (by simp [hv, Cell.cells]) (.unbound hv) hV
  | @ref a t hne ht ih =>
      obtain ⟨R, hwithin, hR⟩ := ih hV
      refine ⟨Insert.insert a R, by simp, ?_⟩
      exact hR.insert (fun b hb => .inr (hwithin b hb)) (.ref hne ht) hV
  | int | atom => exact ⟨∅, by rintro _ ⟨⟩, .empty⟩
  | @pair p hd tl _ _ ihh iht =>
      obtain ⟨R, hwithin, hR⟩ := ihh fun v hv => hV v (.of_arg (by simp [Term.args]) hv)
      obtain ⟨R', hwithin', hR'⟩ := iht fun v hv => hV v (.of_arg (by simp [Term.args]) hv)
      refine ⟨R ∪ R', ?_, hR.union hR'⟩
      simp_all [Cell.Within, Cell.cells]
  | @appl p f as hf _ ih =>
      have hargs : ∀ i : Fin f.arityOfFE, ∃ R, (Cell.ref (p + 1 + i)).Within hp R ∧ Region hp m V R :=
        fun i => ih i fun v hv => hV v (.of_arg (by simp [Term.args, List.mem_ofFn]) hv)
      choose F hwithin hF using hargs
      refine ⟨Finset.univ.biUnion F, fun a ha => ?_, .biUnion fun i _ => hF i⟩
      obtain ⟨i, rfl⟩ := (Nonvar.mem_cells_appl hf).mp ha
      exact Finset.mem_biUnion.mpr ⟨i, Finset.mem_univ _, Cell.within_ref.mp (hwithin i)⟩
  | blob hb => exact ⟨∅, by simp [Cell.Within, Cell.cells, Nonvar.cells_blob hb], .empty⟩

-- ---------------------------------------------------------------------------
-- Solutions
-- ---------------------------------------------------------------------------

/-- A valuation of a closed region gives a word the value of its term. -/
theorem Models.value_eq {R : Finset Addr} {σ : Addr → Term} (hσ : Models hp R m σ)
    (hR : Closed hp R m) {c : Cell} {t : Term} (ht : Unfolds hp m c t) (hc : c.Within hp R) :
    (c.value hp σ).erase = (t.subst σ).erase := by
  induction ht with
  | unbound => rfl
  | @ref a t hne _ ih =>
      have ha : a ∈ R := hc a (by simp [Cell.cells])
      rw [Cell.value, hσ a ha]
      exact ih (hR a ha)
  | int | atom => rfl
  | @pair p hd tl _ _ ihh iht =>
      have hhead := ihh (Cell.within_ref.mpr (hc p (by simp [Cell.cells])))
      have htail := iht (Cell.within_ref.mpr (hc (p + 1) (by simp [Cell.cells])))
      simp only [Cell.value] at hhead htail
      simp only [Cell.value, Nonvar.value, Term.subst, Term.erase, hhead, htail]
  | @appl p f as hf _ ih =>
      have hargs : ∀ i : Fin f.arityOfFE, (σ (p + 1 + i)).erase = ((as i).subst σ).erase :=
        fun i => ih i (Cell.within_ref.mpr (hc _ ((Nonvar.mem_cells_appl hf).mpr ⟨i, rfl⟩)))
      simp only [Cell.value, Nonvar.value, hf, Term.subst, Term.erase, hargs]
  | @blob p b hb =>
      simp only [Cell.value, Nonvar.value, hb, Term.subst]
      cases b <;> rfl

open Classical in
/-- The values of the terms that cells unfold to. -/
noncomputable def solution (hp : Heap) (m : Addr → Cell) (τ : Addr → Term) (a : Addr) : Term :=
  if h : ∃ u, Unfolds hp m (.ref a) u then (h.choose.subst τ).erase else .int 0

theorem solution_eq {τ : Addr → Term} {a : Addr} {u : Term} (h : Unfolds hp m (.ref a) u) :
    solution hp m τ a = (u.subst τ).erase := by
  have hex : ∃ u, Unfolds hp m (.ref a) u := ⟨u, h⟩
  rw [solution, dif_pos hex, hex.choose_spec.unique h]

theorem value_solution {τ : Addr → Term} {c : Cell} {u : Term} (h : Unfolds hp m c u) :
    c.value hp (solution hp m τ) = (u.subst τ).erase := by
  cases h with
  | unbound hv => exact solution_eq (.unbound hv)
  | ref hne ht => exact solution_eq (.ref hne ht)
  | int | atom => rfl
  | pair hh ht => rw [Cell.value, Nonvar.value, solution_eq hh, solution_eq ht]; rfl
  | appl hf has =>
      simp only [Cell.value, Nonvar.value, hf, Term.subst, Term.erase]
      rw [funext fun i => solution_eq (has i)]
  | @blob p b hb =>
      simp only [Cell.value, Nonvar.value, hb, Term.subst]

/-- The terms that the cells of a region unfold to satisfy its equations. -/
theorem models_solution {V : Set Addr} {R : Finset Addr} (hR : Region hp m V R) (τ : Addr → Term) :
    Models hp R m (solution hp m τ) := by
  intro a ha
  obtain ⟨u, hu, -⟩ := hR.finite a ha
  cases hu with
  | unbound hv => rw [hv]; rfl
  | ref hne hu => rw [solution_eq (.ref hne hu), value_solution hu]

/-- The words of a region with a valuation unfold. -/
theorem Models.unfolds {s : Store} {R : Finset Addr} {σ : Addr → Term} (hσ : Models hp R s.cell σ)
    (hR : Closed hp R s.cell) {a : Addr} (ha : a ∈ R) : ∃ u, Unfolds hp s.cell (.ref a) u := by
  induction hn : (σ a).cells.length using Nat.strongRecOn generalizing a with
  | ind n ih =>
      induction a using Store.deref_induction (s := s) with
      | unbound a hunbound => exact ⟨_, .unbound hunbound⟩
      | ref a b hcell hb ihb =>
          have hb' : b ∈ R := hR a ha b (by simp [hcell, Cell.cells])
          have hval : σ a = σ b := by rw [hσ a ha, hcell]; rfl
          obtain ⟨u, hu⟩ := ihb hb' (by rw [← hval, hn])
          exact ⟨u, .ref (by simp [hcell, hb]) (hcell ▸ hu)⟩
      | nonvar a d hcell =>
          have hval : σ a = d.value hp σ := by rw [hσ a ha, hcell]; rfl
          have hargs : ∀ b ∈ d.cells hp, ∃ u, Unfolds hp s.cell (.ref b) u := by
            intro b hb
            refine ih _ ?_ (hR a ha b (by rw [hcell]; exact hb)) rfl
            have hmem : σ b ∈ (σ a).args := by
              rw [hval, Nonvar.args_value]
              exact List.mem_map_of_mem hb
            rw [← hn, Term.cells_eq (σ a), List.length_cons, Nat.lt_succ_iff]
            exact (List.sublist_flatten_of_mem (List.mem_map_of_mem hmem)).length_le
          suffices hd : ∃ u, Unfolds hp s.cell (.nonvar d) u by
            obtain ⟨u, hu⟩ := hd
            exact ⟨u, .ref (by simp [hcell]) (hcell ▸ hu)⟩
          cases d with
          | int | atom => exact ⟨_, by constructor⟩
          | pair p =>
              obtain ⟨hd, hhd⟩ := hargs p (by simp)
              obtain ⟨tl, htl⟩ := hargs (p + 1) (by simp)
              exact ⟨_, .pair hhd htl⟩
          | appl p =>
              cases hf : hp.functorAt p with
              | functor f =>
                  have has : ∀ i : Fin f.arityOfFE, ∃ u, Unfolds hp s.cell (.ref (p + 1 + i)) u :=
                    fun i => hargs _ ((Nonvar.mem_cells_appl hf).mpr ⟨i, rfl⟩)
                  choose as has using has
                  exact ⟨_, .appl hf has⟩
              | blob b => exact ⟨_, .blob hf⟩

-- ---------------------------------------------------------------------------
-- Bindings
-- ---------------------------------------------------------------------------

/-- Substitutions that agree on the variables of a term give identical terms. -/
theorem Term.erase_subst_congr {τ τ' : Addr → Term} {t : Term}
    (h : ∀ v, t.Occurs v → (τ v).erase = (τ' v).erase) : (t.subst τ).erase = (t.subst τ').erase := by
  induction t with
  | var v => exact h v (List.mem_singleton.mpr rfl)
  | int | atom | blob => rfl
  | pair p hd tl ihh iht =>
      simp only [subst, erase, ihh fun v hv => h v (.of_arg (by simp [args]) hv),
        iht fun v hv => h v (.of_arg (by simp [args]) hv)]
  | appl p f as ih =>
      simp only [subst, erase, fun i => ih i fun v hv => h v (.of_arg (by simp [args, List.mem_ofFn]) hv)]

/-- A variable that occurs in a term is a variable of an argument. -/
theorem Term.Occurs.cases {v : Addr} {t : Term} (h : t.Occurs v) : t = .var v ∨ ∃ u ∈ t.args, u.Occurs v := by
  rw [Occurs, cells_eq] at h
  rcases List.mem_cons.mp h with heq | hmem
  · exact .inl heq.symm
  · exact .inr (List.mem_flatMap.mp hmem)

/-- The memory differs from a store in cells that were unbound variables. -/
def Extends (s m : Addr → Cell) : Prop := ∀ a, s a ≠ .ref a → m a = s a

/-- A variable of a finite term is an unbound cell of its region. -/
theorem Unfolds.occurs {c : Cell} {t : Term} {R : Finset Addr} (h : Unfolds hp m c t)
    (hR : Closed hp R m) (hc : c.Within hp R) {v : Addr} (hv : t.Occurs v) : v ∈ R ∧ m v = .ref v := by
  induction h with
  | unbound hw =>
      obtain rfl := Term.var.inj (List.mem_singleton.mp hv)
      exact ⟨Cell.within_ref.mp hc, hw⟩
  | @ref a t hne _ ih => exact ih (hR a (Cell.within_ref.mp hc)) hv
  | int | atom => cases List.mem_singleton.mp hv
  | @pair p hd tl _ _ ihh iht =>
      rcases hv.cases with heq | ⟨u, hu, huv⟩
      · cases heq
      · rcases List.mem_pair.mp hu with rfl | rfl
        · exact ihh (Cell.within_ref.mpr (hc p (by simp [Cell.cells]))) huv
        · exact iht (Cell.within_ref.mpr (hc (p + 1) (by simp [Cell.cells]))) huv
  | @appl p f as hf _ ih =>
      rcases hv.cases with heq | ⟨u, hu, huv⟩
      · cases heq
      · obtain ⟨i, rfl⟩ := List.mem_ofFn.mp hu
        exact ih i (Cell.within_ref.mpr (hc _ ((Nonvar.mem_cells_appl hf).mpr ⟨i, rfl⟩))) huv
  | @blob p b _ =>
      rcases hv.cases with heq | ⟨u, hu, -⟩
      · cases heq
      · cases hu

/-- A term whose variables are bound to finite terms unfolds to a finite term. -/
theorem Unfolds.extend {m' : Addr → Cell} {c : Cell} {t : Term} (h : Unfolds hp m c t)
    (hext : Extends m m') (hvars : ∀ v, t.Occurs v → ∃ u, Unfolds hp m' (.ref v) u) :
    ∃ u, Unfolds hp m' c u := by
  induction h with
  | @unbound v _ => exact hvars v (List.mem_singleton.mpr rfl)
  | @ref a t hne _ ih =>
      obtain ⟨u, hu⟩ := ih hvars
      have hcell := hext a hne
      exact ⟨u, .ref (by rwa [hcell]) (by rwa [hcell])⟩
  | int => exact ⟨_, .int⟩
  | atom => exact ⟨_, .atom⟩
  | @pair p hd tl _ _ ihh iht =>
      obtain ⟨hd', hh⟩ := ihh fun v hv => hvars v (.of_arg (by simp [Term.args]) hv)
      obtain ⟨tl', ht⟩ := iht fun v hv => hvars v (.of_arg (by simp [Term.args]) hv)
      exact ⟨_, .pair hh ht⟩
  | @appl p f as hf _ ih =>
      have hargs := fun i => ih i fun v hv =>
        hvars v (.of_arg (by simp [Term.args, List.mem_ofFn]) hv)
      choose us hus using hargs
      exact ⟨_, .appl hf hus⟩
  | blob hb => exact ⟨_, .blob hb⟩

/-- The variables of a term that has become another finite term are bound to finite terms. -/
theorem Unfolds.of_extend {m' : Addr → Cell} {c : Cell} {t u : Term} (h : Unfolds hp m c t)
    (hext : Extends m m') (hu : Unfolds hp m' c u) {v : Addr} (hv : t.Occurs v) :
    ∃ u, Unfolds hp m' (.ref v) u := by
  induction h generalizing u with
  | unbound =>
      obtain rfl := Term.var.inj (List.mem_singleton.mp hv)
      exact ⟨u, hu⟩
  | @ref a t hne _ ih =>
      have hcell := hext a hne
      cases hu with
      | unbound ha => exact absurd (hcell.symm.trans ha) hne
      | ref _ hu => exact ih (hcell ▸ hu) hv
  | int | atom => cases List.mem_singleton.mp hv
  | @pair p hd tl _ _ ihh iht =>
      cases hu with
      | pair hhd htl =>
          rcases hv.cases with heq | ⟨w, hw, hwv⟩
          · cases heq
          · rcases List.mem_pair.mp hw with rfl | rfl
            · exact ihh hhd hwv
            · exact iht htl hwv
  | @appl p f as hf _ ih =>
      cases hu with
      | blob hb => cases hf.symm.trans hb
      | appl hf' has =>
          obtain rfl := FunctorCell.functor.inj (hf.symm.trans hf')
          rcases hv.cases with heq | ⟨w, hw, hwv⟩
          · cases heq
          · obtain ⟨i, rfl⟩ := List.mem_ofFn.mp hw
            exact ih i (has i) hwv
  | @blob p b _ =>
      rcases hv.cases with heq | ⟨w, hw, -⟩
      · cases heq
      · cases hw

/-- Chains of references do not change the term. -/
theorem unfolds_deref {s : Store} {c : Cell} {t : Term} :
    Unfolds hp s.cell (s.deref c) t ↔ Unfolds hp s.cell c t := by
  cases c with
  | nonvar d => rfl
  | ref a =>
      rw [Store.deref]
      induction a using Store.deref_induction (s := s) with
      | unbound a ha => rw [Store.derefCell_unbound ha]
      | ref a b hcell hb ih =>
          have hne : s.cell a ≠ .ref a := by simp [hcell, hb]
          rw [Store.derefCell_ne hne, hcell, Store.deref, ih]
          constructor
          · exact fun h => .ref hne (hcell ▸ h)
          · intro h
            cases h with
            | unbound ha => exact absurd ha hne
            | ref _ h => exact hcell ▸ h
      | nonvar a d hcell =>
          have hne : s.cell a ≠ .ref a := by simp [hcell]
          rw [Store.derefCell_ne hne, hcell, Store.deref]
          constructor
          · exact fun h => .ref hne (hcell ▸ h)
          · intro h
            cases h with
            | unbound ha => exact absurd ha hne
            | ref _ h => exact hcell ▸ h

end Yap
