-- SUMMARY: Variants of a term in another memory; the copy without numbers of a term that has been numbered is one.
import Yap.Numbervars.Copies
import Yap.Numbervars.Passes

/-!
# Variants

Terms may be cyclic, so that a variant is given by a relation between cells that relates
the arguments of related words. When the variables of a term have been numbered, its
cells and the new structures are a region without variables.
-/

namespace Yap

open Relation

-- ---------------------------------------------------------------------------
-- Variants
-- ---------------------------------------------------------------------------

/-- What a word leads to in a memory. -/
inductive Resolves (m : Addr → Cell) : Cell → Cell → Prop
  | unbound {v : Addr} : m v = .ref v → Resolves m (.ref v) (.ref v)
  | ref {a : Addr} {c : Cell} : m a ≠ .ref a → Resolves m (m a) c → Resolves m (.ref a) c
  | word (d : Nonvar) : Resolves m (.nonvar d) (.nonvar d)

/-- Two words show the same and their arguments are related. -/
inductive SameNode (hp hp' : Heap) (r : Addr → Addr → Prop) : Nonvar → Nonvar → Prop
  | int (n : BitVec 58) : SameNode hp hp' r (.int n) (.int n)
  | atom (a : Atom) : SameNode hp hp' r (.atom a) (.atom a)
  | box {p : Addr} {b : Blob} : hp.functorAt p = .blob b → hp'.functorAt p = .blob b →
      SameNode hp hp' r (.appl p) (.appl p)
  | list {p q : Addr} : r p q → r (p + 1) (q + 1) → SameNode hp hp' r (.pair p) (.pair q)
  | compound {p q : Addr} {f : Functor} : hp.functorAt p = .functor f → hp'.functorAt q = .functor f →
      (∀ i < f.arityOfFE, r (p + 1 + i) (q + 1 + i)) → SameNode hp hp' r (.appl p) (.appl q)

/-- A word of the store and a word of the memory lead to a variable and to what it is
    renamed to, or to words that show the same. -/
def Corresponds (hp : Heap) (s : Store) (hp' : Heap) (m : Addr → Cell) (ρ : Addr → Addr) (r : Addr → Addr → Prop)
    (c c' : Cell) : Prop :=
  match s.deref c with
  | .ref v => Resolves m c' (.ref (ρ v))
  | .nonvar d => ∃ e, Resolves m c' (.nonvar e) ∧ SameNode hp hp' r d e

theorem Resolves.of_cell {m : Addr → Cell} {b : Addr} {c : Cell} (h : Resolves m (m b) c) : Resolves m (.ref b) c := by
  by_cases hne : m b = .ref b
  · rwa [hne] at h
  · exact .ref hne h

theorem Corresponds.of_cell {hp hp' : Heap} {s : Store} {m : Addr → Cell} {ρ : Addr → Addr} {r : Addr → Addr → Prop}
    {c : Cell} {b : Addr} (h : Corresponds hp s hp' m ρ r c (m b)) : Corresponds hp s hp' m ρ r c (.ref b) := by
  rw [Corresponds] at h ⊢
  cases hd : s.deref c with
  | ref v =>
    rw [hd] at h
    exact Resolves.of_cell h
  | nonvar d =>
    rw [hd] at h
    obtain ⟨e, he, hnode⟩ := h
    exact ⟨e, he.of_cell, hnode⟩

/-- The word is a variant of the term at `root`. -/
def IsVariant (hp : Heap) (s : Store) (root : Addr) (hp' : Heap) (m : Addr → Cell) (c : Cell) : Prop :=
  ∃ (ρ : Addr → Addr) (r : Addr → Addr → Prop), Set.InjOn ρ {v | HasVar hp s root v} ∧
    Corresponds hp s hp' m ρ r (.ref root) c ∧ ∀ a b, r a b → Corresponds hp s hp' m ρ r (.ref a) (.ref b)

-- ---------------------------------------------------------------------------
-- The cells of a term
-- ---------------------------------------------------------------------------

variable {hp : Heap} {s : Store} {R : Finset Addr} {root : Addr}

/-- The cells that are reached from a cell. -/
def CellOf (hp : Heap) (s : Store) (root : Addr) : Addr → Prop := ReflTransGen (fun a b => b ∈ (s.cell a).cells hp) root

theorem TermCell.leadTo {a : Addr} (h : TermCell hp s root a) {d : Nonvar} (hd : s.deref (.ref a) = .nonvar d) :
    LeadTo hp s [root] d := by
  rcases h with rfl | ⟨e, he, ha⟩
  · exact ⟨a, List.mem_singleton_self _, d, hd, .refl⟩
  · exact he.argument ⟨a, ha, hd⟩

theorem CellOf.termCell {a : Addr} (h : CellOf hp s root a) :
    ∃ b, TermCell hp s root b ∧ s.deref (.ref b) = s.deref (.ref a) := by
  induction h with
  | refl => exact ⟨root, .inl rfl, rfl⟩
  | @tail a b _ hstep ih =>
    obtain ⟨a', ha', hderef⟩ := ih
    cases hcell : s.cell a with
    | ref c =>
      rw [hcell, Cell.cells, List.mem_singleton] at hstep
      subst hstep
      by_cases heq : b = a
      · exact heq ▸ ⟨a', ha', hderef⟩
      · exact ⟨a', ha', hderef.trans (Store.deref_of_cell hcell fun h => heq (Cell.ref.inj h))⟩
    | nonvar d =>
      rw [hcell] at hstep
      exact ⟨b, .inr ⟨d, ha'.leadTo (hderef.trans (deref_word hcell)), hstep⟩, rfl⟩

theorem CellOf.leadTo {a : Addr} (h : CellOf hp s root a) {d : Nonvar} (hcell : s.cell a = .nonvar d) :
    LeadTo hp s [root] d := by
  obtain ⟨b, hb, hderef⟩ := h.termCell
  exact hb.leadTo (hderef.trans (deref_word hcell))

theorem CellOf.hasVar {v : Addr} (h : CellOf hp s root v) (hcell : s.cell v = .ref v) : HasVar hp s root v := by
  obtain ⟨b, hb, hderef⟩ := h.termCell
  exact ⟨b, hb, hderef.trans (Store.deref_of_unbound hcell)⟩

/-- The cells of a term are a region. -/
theorem BelowHr.exists_cellOf (hR : BelowHr hp s R) (hroot : root ∈ R) :
    ∃ R₀, BelowHr hp s R₀ ∧ root ∈ R₀ ∧ ∀ a ∈ R₀, CellOf hp s root a := by
  classical
  refine ⟨R.filter (CellOf hp s root), ⟨fun a ha b hb => ?_, fun a ha => ?_, fun a ha => ?_⟩, ?_, fun a ha => ?_⟩
  · obtain ⟨hmem, hcellOf⟩ := Finset.mem_filter.mp ha
    exact Finset.mem_filter.mpr ⟨hR.closed a hmem b hb, hcellOf.tail hb⟩
  · exact hR.cell a (Finset.mem_filter.mp ha).1
  · exact hR.functor a (Finset.mem_filter.mp ha).1
  · exact Finset.mem_filter.mpr ⟨hroot, .refl⟩
  · exact (Finset.mem_filter.mp ha).2

-- ---------------------------------------------------------------------------
-- Numbered terms
-- ---------------------------------------------------------------------------

section

variable {g : Stage} {vars : List Addr}

theorem toInt_mkInt {k : ℕ} (hk : k < 2 ^ 57) : (BitVec.ofInt 58 k).toInt = k := by
  rw [BitVec.toInt_ofInt]
  exact Int.bmod_eq_of_le (by omega) (by omega)

/-- A stage in which the variables have been numbered, with the cells of the term. -/
structure NumberedTerm (hp : Heap) (s : Store) (R : Finset Addr) (g : Stage) (vars : List Addr) : Prop where
  below : BelowHr hp s R
  numbers : g.Numbers hp s (vars.map some)
  unbound : ∀ v ∈ vars, s.cell v = .ref v
  mem_vars : ∀ v ∈ R, s.cell v = .ref v → v ∈ vars
  nodup : vars.Nodup
  small : vars.length ≤ 2 ^ 57

theorem exists_getElem?_eq {v : Addr} (hv : v ∈ vars) : ∃ k < vars.length, vars[k]? = some v := by
  obtain ⟨k, hk⟩ := List.mem_iff_getElem?.mp hv
  exact ⟨k, (List.getElem?_eq_some_iff.mp hk).1, hk⟩

namespace NumberedTerm

variable (h : NumberedTerm hp s R g vars)
include h

theorem cell_var {k : ℕ} {v : Addr} (hk : vars[k]? = some v) : g.store.cell v = .nonvar (.appl (2 * k + hp.hr)) :=
  h.numbers.bound k v (by rw [List.getElem?_map, hk]; rfl)

theorem cell_other {a : Addr} (ha : a ∈ R) (hne : s.cell a ≠ .ref a) : g.store.cell a = s.cell a := by
  refine h.numbers.other a (h.below.cell a ha) fun hmem => ?_
  obtain ⟨v, hv, heq⟩ := List.mem_map.mp hmem
  exact hne (Option.some.inj heq ▸ h.unbound v hv)

theorem functorAt_number {k : ℕ} (hk : k < vars.length) : g.heap.functorAt (2 * k + hp.hr) = .functor functorDollarVar :=
  h.numbers.functor k (by rwa [List.length_map])

theorem cell_number {k : ℕ} (hk : k < vars.length) : g.store.cell (2 * k + hp.hr + 1) = mkIntCell k :=
  h.numbers.arg k (by rwa [List.length_map])

theorem hr_eq : 2 * vars.length + hp.hr = g.heap.hr := by
  rw [← h.numbers.hr_eq, List.length_map]

theorem cells_number {k : ℕ} (hk : k < vars.length) : (Nonvar.appl (2 * k + hp.hr)).cells g.heap = [2 * k + hp.hr + 1] := by
  rw [Nonvar.cells, Nonvar.block, h.functorAt_number hk]
  rfl

theorem isNumbered {k : ℕ} (hk : k < vars.length) : IsNumbered g.heap g.store (.appl (2 * k + hp.hr)) k :=
  ⟨_, _, rfl, h.functorAt_number hk, h.cell_number hk, toInt_mkInt (hk.trans_le h.small)⟩

theorem grows : g.Grows hp s where
  hr_le := h.hr_eq ▸ Nat.le_add_left ..
  functors := h.numbers.functors
  cells a ha hne := by
    refine h.numbers.other a ha fun hmem => ?_
    obtain ⟨v, hv, heq⟩ := List.mem_map.mp hmem
    exact hne (Option.some.inj heq ▸ h.unbound v hv)
  vars v hv hcell := by
    by_cases hmem : v ∈ vars
    · obtain ⟨k, hk, hkv⟩ := exists_getElem?_eq hmem
      have hhr := h.hr_eq
      refine .inr ⟨_, h.cell_var hkv, Nat.le_add_left .., ?_, h.functorAt_number hk, _, h.cell_number hk⟩
      omega
    · refine .inl ((h.numbers.other v hv fun hmem' => ?_).trans hcell)
      obtain ⟨w, hw, heq⟩ := List.mem_map.mp hmem'
      exact hmem (Option.some.inj heq ▸ hw)

/-- What a cell of the term leads to when its variables have been numbered. -/
theorem deref_eq {a : Addr} (ha : a ∈ R) :
    (∃ k v, k < vars.length ∧ vars[k]? = some v ∧ s.deref (.ref a) = .ref v ∧
      g.store.deref (.ref a) = .nonvar (.appl (2 * k + hp.hr))) ∨
      ∃ d, s.deref (.ref a) = .nonvar d ∧ g.store.deref (.ref a) = .nonvar d := by
  have hderef := h.below.grows_deref h.grows ha
  cases hd : s.deref (.ref a) with
  | ref v =>
    obtain ⟨hv, hcell⟩ := h.below.var_mem ha hd
    obtain ⟨k, hk, hkv⟩ := exists_getElem?_eq (h.mem_vars v hv hcell)
    rw [hd] at hderef
    exact .inl ⟨k, v, hk, hkv, rfl, hderef.trans (deref_word (h.cell_var hkv))⟩
  | nonvar d =>
    rw [hd] at hderef
    exact .inr ⟨d, rfl, hderef⟩

/-- The cells of a word of the term. -/
theorem cells_eq {d : Nonvar} (hd : ∀ p, d = .appl p → p < hp.hr) : d.cells g.heap = d.cells hp := by
  cases d with
  | appl p => rw [Nonvar.cells, Nonvar.cells, Nonvar.block, Nonvar.block, h.numbers.functors p (hd p rfl)]
  | _ => rfl

/-- The cells of the term and of the new structures. -/
def cells (hp : Heap) (R : Finset Addr) (vars : List Addr) : Finset Addr :=
  R ∪ (Finset.range vars.length).image fun k => 2 * k + hp.hr + 1

omit h in
theorem mem_cells {a : Addr} : a ∈ cells hp R vars ↔ a ∈ R ∨ ∃ k < vars.length, 2 * k + hp.hr + 1 = a := by
  rw [cells, Finset.mem_union, Finset.mem_image]
  simp only [Finset.mem_range]

/-- What the cells hold. -/
theorem cell_cases {a : Addr} (ha : a ∈ cells hp R vars) :
    (∃ k < vars.length, g.store.cell a = .nonvar (.appl (2 * k + hp.hr))) ∨
      (a ∈ R ∧ s.cell a ≠ .ref a ∧ g.store.cell a = s.cell a) ∨
        ∃ k < vars.length, 2 * k + hp.hr + 1 = a ∧ g.store.cell a = mkIntCell k := by
  rcases mem_cells.mp ha with ha | ⟨k, hk, rfl⟩
  · by_cases hne : s.cell a = .ref a
    · obtain ⟨k, hk, hkv⟩ := exists_getElem?_eq (h.mem_vars a ha hne)
      exact .inl ⟨k, hk, h.cell_var hkv⟩
    · exact .inr (.inl ⟨ha, hne, h.cell_other ha hne⟩)
  · exact .inr (.inr ⟨k, hk, rfl, h.cell_number hk⟩)

theorem number_lt {k : ℕ} (hk : k < vars.length) : 2 * k + hp.hr + 1 < g.heap.hr := by
  have hhr := h.hr_eq
  omega

theorem below_cells : BelowHr g.heap g.store (cells hp R vars) := by
  refine ⟨fun a ha => ?_, fun a ha => ?_, fun a ha p hcell => ?_⟩
  · rcases h.cell_cases ha with ⟨k, hk, hcell⟩ | ⟨hmem, -, hcell⟩ | ⟨k, -, -, hcell⟩
    · rw [hcell, Cell.Within, Cell.cells, h.cells_number hk, List.forall_mem_singleton]
      exact mem_cells.mpr (.inr ⟨k, hk, rfl⟩)
    · have hwithin := h.below.closed a hmem
      rw [hcell]
      refine fun b hb => mem_cells.mpr (.inl (hwithin b ?_))
      cases hc : s.cell a with
      | ref c =>
        rw [hc] at hb
        exact hb
      | nonvar d =>
        rw [hc, Cell.cells] at hb
        rwa [Cell.cells, ← h.cells_eq fun p hp => h.below.functor a hmem p (hp ▸ hc)]
    · rw [hcell]
      exact fun b hb => by cases hb
  · rcases mem_cells.mp ha with ha | ⟨k, hk, rfl⟩
    · exact (h.below.cell a ha).trans_le h.grows.hr_le
    · exact h.number_lt hk
  · rcases h.cell_cases ha with ⟨k, hk, hcell'⟩ | ⟨hmem, -, hcell'⟩ | ⟨k, -, -, hcell'⟩
    · obtain rfl := Nonvar.appl.inj (Cell.nonvar.inj (hcell.symm.trans hcell'))
      exact (Nat.lt_succ_self _).trans (h.number_lt hk)
    · exact (h.below.functor a hmem p (hcell'.symm.trans hcell)).trans_le h.grows.hr_le
    · cases hcell.symm.trans hcell'

theorem bound_cells : ∀ a ∈ cells hp R vars, g.store.cell a ≠ .ref a := by
  intro a ha heq
  rcases h.cell_cases ha with ⟨k, hk, hcell⟩ | ⟨hmem, hne, hcell⟩ | ⟨k, -, -, hcell⟩
  · cases heq.symm.trans hcell
  · exact hne (hcell.symm.trans heq)
  · cases heq.symm.trans hcell

/-- A term whose variables have been numbered has no variables. -/
theorem not_hasVar (hroot : root ∈ R) (v : Addr) : ¬ HasVar g.heap g.store root v := by
  rintro ⟨a, ha, hderef⟩
  have hmem : a ∈ cells hp R vars := by
    have hroot' : root ∈ cells hp R vars := mem_cells.mpr (.inl hroot)
    rcases ha with rfl | ⟨d, hd, ha⟩
    · exact hroot'
    · exact hd.within h.below_cells.closed (List.forall_mem_singleton.mpr hroot') a ha
  obtain ⟨hv, hcell⟩ := h.below_cells.var_mem hmem hderef
  exact h.bound_cells v hv hcell

variable (hnumber : ∀ a ∈ R, ∀ p, s.cell a = .nonvar (.appl p) → hp.functorAt p ≠ .functor functorDollarVar)
include hnumber

theorem source : Source g.heap g.store (cells hp R vars) := by
  refine ⟨h.below_cells, h.bound_cells, fun a ha p hcell hf => ?_⟩
  rcases h.cell_cases ha with ⟨k, hk, hcell'⟩ | ⟨hmem, -, hcell'⟩ | ⟨k, -, -, hcell'⟩
  · obtain rfl := Nonvar.appl.inj (Cell.nonvar.inj (hcell.symm.trans hcell'))
    refine ⟨_, h.cell_number hk, ?_⟩
    rw [toInt_mkInt (hk.trans_le h.small)]
    exact Int.natCast_nonneg k
  · have hcell'' := hcell'.symm.trans hcell
    refine absurd ?_ (hnumber a hmem p hcell'')
    rw [← h.numbers.functors p (h.below.functor a hmem p hcell''), hf]
  · cases hcell.symm.trans hcell'

omit h hnumber in
/-- What a variable is renamed to: the variable of its number. -/
def renamed (asp : ℤ → Option Cell) (max : ℤ) (top : Addr) (vars : List Addr) (v : Addr) : Addr :=
  if (vars.idxOf v : ℤ) ≤ max then
    match asp (vars.idxOf v) with
    | some (.ref b) => b
    | _ => top + vars.idxOf v
  else top + vars.idxOf v

variable {org : Addr → Option Addr} {asp : ℤ → Option Cell} {max : ℤ} {d : Nonvar} {r : Unnumbered}
  (hr : Unnumbers g.heap g.store (cells hp R vars) org asp max d r)
include hr

omit h hnumber in
theorem renamed_cases (v : Addr) :
    (∃ a b e, renamed asp max r.heap.hr vars v = b ∧ b < r.heap.hr ∧ org b = some a ∧ g.store.deref (.ref a) = .nonvar e ∧
      IsNumbered g.heap g.store e (vars.idxOf v)) ∨ renamed asp max r.heap.hr vars v = r.heap.hr + vars.idxOf v := by
  by_cases hle : (vars.idxOf v : ℤ) ≤ max
  · rw [renamed, if_pos hle]
    cases hasp : asp (vars.idxOf v) with
    | none => exact .inr rfl
    | some c =>
      obtain ⟨a, b, e, rfl, -, hb, he, hnum⟩ := hr.table _ (Int.natCast_nonneg _) hle c hasp
      exact .inl ⟨a, b, e, rfl, (hr.origin a b hb).2, hb, he, hnum⟩
  · exact .inr (if_neg hle)

omit h hnumber in
/-- Two variables are not renamed to one. -/
theorem renamed_injOn : Set.InjOn (renamed asp max r.heap.hr vars) {v | v ∈ vars} := by
  intro v hv w hw heq
  refine (List.idxOf_inj hv).mp ?_
  rcases renamed_cases hr v with ⟨a, b, e, hb, hlt, horg, he, hnum⟩ | hfresh
  · rcases renamed_cases hr w with ⟨a', b', e', hb', -, horg', he', hnum'⟩ | hfresh'
    · obtain rfl := hb.symm.trans (heq.trans hb')
      obtain rfl := Option.some.inj (horg.symm.trans horg')
      obtain rfl := Cell.nonvar.inj (he.symm.trans he')
      exact_mod_cast hnum.unique hnum'
    · rw [heq.symm.trans hb |>.symm.trans hfresh'] at hlt
      exact absurd hlt (not_lt.mpr (Nat.le_add_right ..))
  · rcases renamed_cases hr w with ⟨a', b', e', hb', hlt', -⟩ | hfresh'
    · rw [← hb', ← heq, hfresh] at hlt'
      exact absurd hlt' (not_lt.mpr (Nat.le_add_right ..))
    · exact Nat.add_left_cancel (hfresh.symm.trans (heq.trans hfresh'))

/-- A cell of the term corresponds to its copy. -/
theorem corresponds {a : Addr} (ha : a ∈ R) {e : Nonvar} {c : Cell} (he : g.store.deref (.ref a) = .nonvar e)
    (hc : Copied g.heap g.store org r.heap asp max e c) :
    Corresponds hp s r.heap r.cell (renamed asp max r.heap.hr vars) (fun a b => org b = some a ∧ a ∈ R) (.ref a) c := by
  rw [Corresponds]
  rcases h.deref_eq ha with ⟨k, v, hk, hkv, hderef, hderef'⟩ | ⟨d, hderef, hderef'⟩
  · obtain rfl := Cell.nonvar.inj (he.symm.trans hderef')
    rw [hderef]
    cases hc with
    | @number i b hnum hi hle hasp =>
      obtain rfl := hnum.unique (h.isNumbered hk)
      obtain ⟨a', b', e', heq, hcell, -⟩ := hr.table _ hi hle _ hasp
      obtain rfl := Cell.ref.inj heq
      have hidx : vars.idxOf v = k := by
        obtain ⟨hlt, rfl⟩ := List.getElem?_eq_some_iff.mp hkv
        exact h.nodup.idxOf_getElem k hlt
      have hrenamed : renamed asp max r.heap.hr vars v = b := by
        rw [renamed, hidx, if_pos hle, hasp]
      change Resolves r.cell (.ref b) (.ref (renamed asp max r.heap.hr vars v))
      rw [hrenamed]
      exact .unbound hcell
    | leaf hnil =>
      rw [h.cells_number hk] at hnil
      cases hnil
    | word hcopy =>
      cases hcopy with
      | compound _ _ hf hne =>
        rw [h.functorAt_number hk] at hf
        exact absurd (FunctorCell.functor.inj hf).symm hne
  · obtain rfl := Cell.nonvar.inj (he.symm.trans hderef')
    have hargs := h.below.args ha hderef
    have hbelow : ∀ p, e = .appl p → p < hp.hr := fun p hp => h.below.appl_lt ha (hp ▸ hderef)
    have hfunctors : ∀ p, e = .appl p → g.heap.functorAt p = hp.functorAt p ∧ r.heap.functorAt p = hp.functorAt p := by
      intro p hp
      have hlt := hbelow p hp
      have hf := h.numbers.functors p hlt
      exact ⟨hf, (hr.functors p (hlt.trans_le h.grows.hr_le)).trans hf⟩
    rw [hderef]
    cases hc with
    | @number i b hnum hi hle hasp =>
      obtain ⟨p, n, rfl, hf, -⟩ := hnum
      rcases h.below.deref ha with ⟨v, -, hv, -⟩ | ⟨b', hb', d', hd', hcell⟩
      · cases hderef.symm.trans hv
      · obtain rfl := Cell.nonvar.inj (hderef.symm.trans hd')
        exact absurd ((hfunctors p rfl).1.symm.trans hf) (hnumber b' hb' p hcell)
    | leaf hnil =>
      refine ⟨e, .word e, ?_⟩
      rw [h.cells_eq hbelow] at hnil
      cases e with
      | int n => exact .int n
      | atom b => exact .atom b
      | pair p => cases hnil
      | appl p =>
        cases hf : hp.functorAt p with
        | blob b => exact .box hf ((hfunctors p rfl).2.trans hf)
        | functor f => exact absurd hnil (Nonvar.cells_ne_nil hf)
    | word hcopy =>
      refine ⟨_, .word _, ?_⟩
      cases hcopy with
      | list _ _ horg horg' => exact .list ⟨horg, hargs _ (by simp)⟩ ⟨horg', hargs _ (by simp)⟩
      | compound _ _ hf _ hf' horg =>
        have hfp := (hfunctors _ rfl).1.symm.trans hf
        exact .compound hfp hf' fun i hi => ⟨horg i hi, hargs _ ((Nonvar.mem_cells_appl hfp).mpr ⟨⟨i, hi⟩, rfl⟩)⟩

/-- The copy without numbers is a variant of the term. -/
theorem isVariant (hroot : root ∈ R) (hd : g.store.deref (.ref root) = .nonvar d) (hvars : ∀ v, HasVar hp s root v → v ∈ vars) :
    IsVariant hp s root r.heap r.cell r.term := by
  refine ⟨_, _, (renamed_injOn hr).mono hvars, h.corresponds hnumber hr hroot hd hr.term, fun a b hab => ?_⟩
  obtain ⟨hb, ha⟩ := hab
  obtain ⟨e, he, hc⟩ := hr.copied a b hb
  exact (h.corresponds hnumber hr ha he hc).of_cell

end NumberedTerm

end

end Yap
