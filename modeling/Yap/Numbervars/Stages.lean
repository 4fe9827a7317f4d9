-- SUMMARY: The stores that a walk goes through when it binds variables to structures, and the pass of a walk over its visits.
import Yap.Numbervars.Visits

/-!
# Stages of a numbering

Between two variables the walk is one of a store that does not change. When it comes to
an unbound variable it writes a structure and binds the variable, unless the cell is
marked. The pass stops at a visit for which its stack is too small.
-/

namespace Yap

-- ---------------------------------------------------------------------------
-- Stages
-- ---------------------------------------------------------------------------

/-- The store with `HR`, the next number, and the variables that are on the trail. -/
structure Stage where
  heap : Heap
  store : Store
  vno : ℕ
  trail : List Addr

theorem Store.writable_nonvar (s : Store) (a : Addr) (d : Nonvar) : s.Writable a (.nonvar d) :=
  fun _ h => by cases h

namespace Stage

variable (hb : Addr) (g : Stage)

/-- The variable is bound. -/
def Bound (v : Addr) : Prop := g.store.cell v ≠ .ref v

instance : DecidablePred g.Bound := fun v => inferInstanceAs (Decidable (g.store.cell v ≠ .ref v))

/-- The store when the variable is bound to the next structure, if its cell is not marked. -/
def bindStore (v : Addr) (marked : Bool) : Store :=
  if marked then g.store else g.store.set v (.nonvar (.appl g.heap.hr)) (g.store.writable_nonvar v _)

/-- The walk gives the next number to the variable. -/
def number (v : Addr) (marked : Bool) : Stage where
  heap := ⟨Function.update g.heap.functorAt g.heap.hr (.functor functorDollarVar), g.heap.hr + 2⟩
  store := (g.bindStore v marked).set (g.heap.hr + 1) (mkIntCell g.vno) (Store.writable_nonvar _ _ _)
  vno := g.vno + 1
  trail := if marked = false ∧ v < hb then v :: g.trail else g.trail

/-- What a walk makes of its visits, until its stack is too small. -/
def pass (max : ℕ) : Stage → List Visit → Except Stage Stage
  | g, [] => .ok g
  | g, .test n :: vis => if max ≤ n then .error g else pass max g vis
  | g, .var v m d :: vis =>
    if g.Bound v then if max ≤ d + 32 then .error g else pass max g vis
    else pass max (g.number hb v m) vis

/-- What a walk makes of its visits when its stack is large enough. -/
def numberAll : Stage → List (Addr × Bool) → Stage
  | g, [] => g
  | g, (v, m) :: occs => if g.Bound v then numberAll g occs else numberAll (g.number hb v m) occs

variable {hb g}

-- ---------------------------------------------------------------------------
-- Cells
-- ---------------------------------------------------------------------------

variable {v : Addr} {marked : Bool}

theorem number_cell_arg : (g.number hb v marked).store.cell (g.heap.hr + 1) = mkIntCell g.vno := Function.update_self ..

theorem number_cell_var (hv : v < g.heap.hr) : (g.number hb v false).store.cell v = .nonvar (.appl g.heap.hr) := by
  have hne : v ≠ g.heap.hr + 1 := (Nat.lt_succ_of_lt hv).ne
  exact (Function.update_of_ne hne ..).trans (Function.update_self ..)

theorem number_cell {a : Addr} (ha : a ≠ g.heap.hr + 1) (hv : marked = false → a ≠ v) :
    (g.number hb v marked).store.cell a = g.store.cell a := by
  refine (Function.update_of_ne ha ..).trans ?_
  cases marked with
  | true => rfl
  | false => exact Function.update_of_ne (hv rfl) ..

theorem number_functorAt_hr :
    (g.number hb v marked).heap.functorAt g.heap.hr = .functor functorDollarVar := Function.update_self ..

theorem number_functorAt {p : Addr} (hp : p ≠ g.heap.hr) :
    (g.number hb v marked).heap.functorAt p = g.heap.functorAt p := Function.update_of_ne hp ..

-- ---------------------------------------------------------------------------
-- Growing
-- ---------------------------------------------------------------------------

/-- A structure that has been written for a variable. -/
structure IsNumber (base : ℕ) (g : Stage) (p : ℕ) : Prop where
  base_le : base ≤ p
  lt_hr : p + 2 ≤ g.heap.hr
  functor : g.heap.functorAt p = .functor functorDollarVar
  arg : ∃ n, g.store.cell (p + 1) = .nonvar (.int n)

/-- The stage has the cells of a store below its `HR`, but for variables that are bound
    to structures. -/
structure Grows (hp : Heap) (s : Store) (g : Stage) : Prop where
  hr_le : hp.hr ≤ g.heap.hr
  functors : ∀ p < hp.hr, g.heap.functorAt p = hp.functorAt p
  cells : ∀ a < hp.hr, s.cell a ≠ .ref a → g.store.cell a = s.cell a
  vars : ∀ v < hp.hr, s.cell v = .ref v →
    g.store.cell v = .ref v ∨ ∃ p, g.store.cell v = .nonvar (.appl p) ∧ IsNumber hp.hr g p

variable {hp : Heap} {s : Store}

theorem IsNumber.number {base p v : ℕ} (h : IsNumber base g p) (hv : v < base) : IsNumber base (g.number hb v marked) p := by
  obtain ⟨hbase, hlt, hf, n, harg⟩ := h
  have hne : p ≠ g.heap.hr := by omega
  have hne' : p + 1 ≠ g.heap.hr + 1 := by omega
  have hv' : p + 1 ≠ v := by omega
  refine ⟨hbase, hlt.trans (Nat.le_add_right ..), ?_, n, ?_⟩
  · rw [number_functorAt hne, hf]
  · rw [number_cell hne' fun _ => hv', harg]

/-- The structure that is written. -/
theorem isNumber_hr {base : ℕ} (h : base ≤ g.heap.hr) : IsNumber base (g.number hb v marked) g.heap.hr :=
  ⟨h, le_rfl, number_functorAt_hr, _, number_cell_arg⟩

theorem Grows.number (h : g.Grows hp s) (hlt : v < hp.hr) (hunbound : s.cell v = .ref v) : (g.number hb v marked).Grows hp s := by
  have hhr := h.hr_le
  have hold : ∀ a < hp.hr, a ≠ g.heap.hr ∧ a ≠ g.heap.hr + 1 := fun a ha =>
    ⟨(ha.trans_le hhr).ne, (Nat.lt_succ_of_lt (ha.trans_le hhr)).ne⟩
  refine ⟨hhr.trans (Nat.le_add_right ..), fun p hp => ?_, fun a ha hne => ?_, fun w hw hw' => ?_⟩
  · rw [number_functorAt (hold p hp).1, h.functors p hp]
  · rw [number_cell (hold a ha).2, h.cells a ha hne]
    rintro - rfl
    exact hne hunbound
  · by_cases heq : marked = false ∧ w = v
    · obtain ⟨rfl, rfl⟩ := heq
      exact .inr ⟨_, number_cell_var (hlt.trans_le hhr), isNumber_hr hhr⟩
    · rw [number_cell (hold w hw).2 fun hm hwv => heq ⟨hm, hwv⟩]
      rcases h.vars w hw hw' with hcell | ⟨p, hcell, hp⟩
      · exact .inl hcell
      · exact .inr ⟨p, hcell, hp.number hlt⟩

/-- The start. -/
theorem grows_start (hp : Heap) (s : Store) (n : ℕ) (trail : List Addr) : Grows hp s ⟨hp, s, n, trail⟩ where
  hr_le := le_rfl
  functors _ _ := rfl
  cells _ _ _ := rfl
  vars _ _ hv := .inl hv

end Stage

-- ---------------------------------------------------------------------------
-- Words
-- ---------------------------------------------------------------------------

/-- A region of a store whose cells and functor cells are below `HR`. -/
structure BelowHr (hp : Heap) (s : Store) (R : Finset Addr) : Prop where
  closed : Closed hp R s.cell
  cell : ∀ a ∈ R, a < hp.hr
  functor : ∀ a ∈ R, ∀ p, s.cell a = .nonvar (.appl p) → p < hp.hr

namespace BelowHr

variable {hp : Heap} {s : Store} {R : Finset Addr} (hR : BelowHr hp s R)
include hR

theorem deref {a : Addr} (ha : a ∈ R) :
    (∃ v ∈ R, s.deref (.ref a) = .ref v ∧ s.cell v = .ref v) ∨
      ∃ b ∈ R, ∃ d, s.deref (.ref a) = .nonvar d ∧ s.cell b = .nonvar d := by
  induction a using Store.deref_induction (s := s) with
  | unbound a hcell => exact .inl ⟨a, ha, Store.deref_of_unbound hcell, hcell⟩
  | ref a b hcell hb ih =>
    rw [Store.deref_of_cell hcell fun heq => hb (Cell.ref.inj heq)]
    exact ih (hR.closed a ha b (by simp [hcell, Cell.cells]))
  | nonvar a d hcell => exact .inr ⟨a, ha, d, deref_word hcell, hcell⟩

/-- The arguments of a word in the region. -/
theorem args {a : Addr} (ha : a ∈ R) {d : Nonvar} (hd : s.deref (.ref a) = .nonvar d) : ∀ b ∈ d.cells hp, b ∈ R := by
  rcases hR.deref ha with ⟨v, -, hv, -⟩ | ⟨b, hb, d', hd', hcell⟩
  · cases hv.symm.trans hd
  · obtain rfl := Cell.nonvar.inj (hd.symm.trans hd')
    have hwithin := hR.closed b hb
    rwa [hcell] at hwithin

theorem appl_lt {a : Addr} (ha : a ∈ R) {p : Addr} (hd : s.deref (.ref a) = .nonvar (.appl p)) : p < hp.hr := by
  rcases hR.deref ha with ⟨v, -, hv, -⟩ | ⟨b, hb, d', hd', hcell⟩
  · cases hv.symm.trans hd
  · rw [← Cell.nonvar.inj (hd.symm.trans hd')] at hcell
    exact hR.functor b hb p hcell

theorem var_mem {a : Addr} (ha : a ∈ R) {v : Addr} (hd : s.deref (.ref a) = .ref v) : v ∈ R ∧ s.cell v = .ref v := by
  rcases hR.deref ha with ⟨w, hw, hw', hcell⟩ | ⟨b, -, d, hd', -⟩
  · obtain rfl := Cell.ref.inj (hd.symm.trans hw')
    exact ⟨hw, hcell⟩
  · cases hd'.symm.trans hd

variable {g : Stage} (hg : g.Grows hp s)
include hg

/-- What the cells lead to when variables have been bound. -/
theorem grows_deref {a : Addr} (ha : a ∈ R) :
    g.store.deref (.ref a) = match s.deref (.ref a) with
      | .ref v => g.store.deref (.ref v)
      | .nonvar d => .nonvar d := by
  induction a using Store.deref_induction (s := s) with
  | unbound a hcell => rw [Store.deref_of_unbound hcell]
  | ref a b hcell hb ih =>
    have hne : s.cell a ≠ .ref a := by
      rw [hcell]
      exact fun heq => hb (Cell.ref.inj heq)
    have hcell' := (hg.cells a (hR.cell a ha) hne).trans hcell
    rw [Store.deref_of_cell hcell fun heq => hb (Cell.ref.inj heq),
      Store.deref_of_cell hcell' fun heq => hb (Cell.ref.inj heq)]
    exact ih (hR.closed a ha b (by simp [hcell, Cell.cells]))
  | nonvar a d hcell =>
    have hcell' := (hg.cells a (hR.cell a ha) (by rw [hcell]; exact fun heq => by cases heq)).trans hcell
    rw [deref_word hcell, deref_word hcell']

theorem grows_word {a : Addr} (ha : a ∈ R) {d : Nonvar} (hd : s.deref (.ref a) = .nonvar d) :
    g.store.deref (.ref a) = .nonvar d := by
  rw [hR.grows_deref hg ha, hd]

theorem grows_leaf {a : Addr} (ha : a ∈ R) {d : Nonvar} (hd : s.deref (.ref a) = .nonvar d) (hleaf : d.cells hp = []) :
    d.cells g.heap = [] := by
  cases d with
  | int n => rfl
  | atom b => rfl
  | pair p => cases hleaf
  | appl p =>
    have hf := hg.functors p (hR.appl_lt ha hd)
    rw [Nonvar.cells, Nonvar.block] at hleaf ⊢
    rwa [hf]

/-- An occurrence of a variable that is not bound, or that is bound to a structure. -/
theorem grows_var {a : Addr} (ha : a ∈ R) {v : Addr} (hd : s.deref (.ref a) = .ref v) :
    (¬ g.Bound v ∧ g.store.deref (.ref a) = .ref v) ∨
      g.Bound v ∧ ∃ p, g.store.deref (.ref a) = .nonvar (.appl p) ∧ Stage.IsNumber hp.hr g p := by
  obtain ⟨hv, hunbound⟩ := hR.var_mem ha hd
  have hderef := hR.grows_deref hg ha
  rw [hd] at hderef
  rw [hderef]
  rcases hg.vars v (hR.cell v hv) hunbound with hcell | ⟨p, hcell, hp⟩
  · exact .inl ⟨fun h => h hcell, Store.deref_of_unbound hcell⟩
  · refine .inr ⟨?_, p, deref_word hcell, hp⟩
    rw [Stage.Bound, hcell]
    exact fun heq => by cases heq

end BelowHr

end Yap
