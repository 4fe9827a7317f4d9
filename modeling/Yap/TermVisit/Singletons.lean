-- SUMMARY: `non_singletons_in_term` finds no variable in any compound: exactly when that is right.
import Yap.TermVisit.Cyclic

/-!
# Variables that are not singletons

The hook that is to see a variable again is put where compounds are visited, and a
variable that has been found is an atom then. So nothing is collected.
-/

namespace Yap

open Relation

variable {hp : Heap} {s : Store} {root : Addr} {R : Finset Addr}

-- ---------------------------------------------------------------------------
-- Kinds of terms
-- ---------------------------------------------------------------------------

def Term.rootKind : Term → RootKind
  | .var v => .var v
  | .pair .. | .appl .. => .compound
  | _ => .primitive

/-- The kind of a word is the one of its term. -/
theorem Unfolds.rootKind {t : Term} (h : Unfolds hp s.cell (.ref root) t) : Yap.rootKind hp s root = t.rootKind := by
  rw [← unfolds_deref] at h
  rw [Yap.rootKind]
  cases hderef : s.deref (.ref root) with
  | ref v =>
    rw [hderef] at h
    cases h with
    | unbound => rfl
    | ref hne => exact absurd (Store.unbound_of_deref hderef) hne
  | nonvar d =>
    rw [hderef] at h
    cases h with
    | int => rfl
    | atom => rfl
    | pair => rfl
    | appl hf => simp only [hf, Term.rootKind]
    | blob hb => simp only [hb, Term.rootKind]

theorem Term.cells_of_primitive {t : Term} (h : t.rootKind = .primitive) : t.cells = [t] := by
  cases t with
  | int n => rfl
  | atom a => rfl
  | blob p b => rfl
  | _ => cases h

-- ---------------------------------------------------------------------------
-- The walk
-- ---------------------------------------------------------------------------

theorem nonSingletonsHooks_silent : nonSingletonsHooks.Silent where
  list _ _ _ _ _ h := Except.ok.inj h ▸ rfl
  compound _ _ _ _ _ h := Except.ok.inj h ▸ rfl
  atomic _ _ _ _ := rfl
  constant _ _ _ _ _ _ h := by cases h
  unmarked _ _ _ _ := rfl

/-- Nothing is collected at an event. -/
theorem nonSingletonsHooks_event (x : WalkData OutArea) (e : WalkEvent) :
    ∃ x', nonSingletonsHooks.event x e = .done x' ∧ x'.data = x.data := by
  cases e with
  | list ptd0 p marked => exact ⟨_, rfl, rfl⟩
  | compound ptd0 p marked => exact ⟨_, rfl, rfl⟩
  | occurrence ptd0 v marked =>
    rw [Hooks.event]
    cases hheld : x.held v with
    | none => cases marked <;> exact ⟨_, rfl, rfl⟩
    | some w => exact ⟨_, rfl, rfl⟩

theorem nonSingletonsHooks_run (x : WalkData OutArea) (es : List WalkEvent) :
    ∃ x', nonSingletonsHooks.run x es = .done x' ∧ x'.data = x.data := by
  induction es generalizing x with
  | nil => exact ⟨x, rfl, rfl⟩
  | cons e es ih =>
    obtain ⟨x₁, hevent, hdata⟩ := nonSingletonsHooks_event x e
    obtain ⟨x', hrun, hdata'⟩ := ih x₁
    refine ⟨x', ?_, hdata'.trans hdata⟩
    rw [Hooks.run, hevent]
    exact hrun

/-- The walk of any compound gives the empty list and leaves the store. -/
theorem termVisit_nonSingletons (hR : Closed hp R s.cell) (hroot : root ∈ R) (area : OutArea) :
    ∃ area', termVisit nonSingletonsHooks root (cellWords hp s) [] area.restart ((.nil, area'), cellWords hp s) := by
  obtain ⟨es, hv⟩ := exists_visits hR [] [(root, root)] (List.forall_mem_singleton.mpr hroot)
  obtain ⟨x₀, hreach, -, hres⟩ :=
    hv.termVisit hR hroot nonSingletonsHooks_silent (WalkData.start_sound area.restart)
  have hhr : x₀.data.hr = 0 := by
    induction hreach with
    | refl => rfl
    | tail _ hstep _ =>
      obtain ⟨_, _, _, _, rfl⟩ := hstep
      rfl
  obtain ⟨x', hrun, hdata⟩ := nonSingletonsHooks_run x₀ es
  have hclose : nonSingletonsHooks.nomore x'.data = (.nil, x'.data) := if_pos (hdata ▸ hhr)
  rw [hrun, WalkData.start_beneath] at hres
  exact ⟨x'.data, hclose ▸ hres⟩

-- ---------------------------------------------------------------------------
-- The specification
-- ---------------------------------------------------------------------------

/-- The variables of the result, when `ARG2` has the variables `l0`. -/
def NonSingletons.Denotes (l0 : List Addr) : NonSingletons → List Addr → Prop
  | .arg2, vs => vs = l0
  | .list t area, vs => area.IsList t vs

variable (hp s root) in
/-- The predicate ends with the variables that occur twice in `t`, or in `l0` and `t`,
    each once, before `l0`, and the term is as before. -/
def NonSingletonsRight (t : Term) (l0 : List Addr) (area : OutArea) : Prop :=
  ∃ out vs, nonSingletonsInTerm hp s root area (out, cellWords hp s) ∧ out.Denotes l0 (vs ++ l0) ∧ vs.Nodup ∧
    ∀ v, v ∈ vs ↔ 2 ≤ t.cells.count (.var v) ∨ v ∈ l0 ∧ t.Occurs v

/-- There is nothing to collect, and `l0` is empty if it is not returned. -/
def Term.NothingTwice (l0 : List Addr) : Term → Prop
  | .var v => v ∉ l0
  | .pair p h t => l0 = [] ∧ ∀ v, (Term.pair p h t).cells.count (.var v) < 2
  | .appl p f as => l0 = [] ∧ ∀ v, (Term.appl p f as).cells.count (.var v) < 2
  | _ => True

theorem nonSingletonsInTerm_unique {area : OutArea} {r r' : NonSingletons × (Place → WalkWord)}
    (h : nonSingletonsInTerm hp s root area r) (h' : nonSingletonsInTerm hp s root area r') : r = r' := by
  refine answers_unique ?_ h h'
  rintro ⟨u, a, hr, hwalk⟩ ⟨u', a', hr', hwalk'⟩
  obtain ⟨hout, hmemory⟩ := Prod.mk.inj (hwalk.unique hwalk')
  obtain ⟨rfl, rfl⟩ := Prod.mk.inj hout
  exact Prod.ext (hr.trans hr'.symm) hmemory

/-- `ARG2` is right if nothing is to be collected. -/
theorem denotes_arg2_iff {t : Term} {l0 : List Addr} {area : OutArea}
    (hout : nonSingletonsInTerm hp s root area (.arg2, cellWords hp s)) :
    NonSingletonsRight hp s root t l0 area ↔ ∀ v, ¬ (2 ≤ t.cells.count (.var v) ∨ v ∈ l0 ∧ t.Occurs v) := by
  constructor
  · rintro ⟨out, vs, hout', hdenotes, -, hvs⟩ v hv
    obtain ⟨rfl, -⟩ := Prod.mk.inj (nonSingletonsInTerm_unique hout hout')
    have hnil : vs = [] := List.append_left_eq_self.mp hdenotes
    have hmem := (hvs v).mpr hv
    rw [hnil] at hmem
    cases hmem
  · intro hnone
    exact ⟨.arg2, [], hout, rfl, List.nodup_nil, fun v => iff_of_false List.not_mem_nil (hnone v)⟩

/-- The empty list is right if nothing is to be collected and `ARG2` is empty. -/
theorem denotes_nil_iff {t : Term} {l0 : List Addr} {area area' : OutArea}
    (hout : nonSingletonsInTerm hp s root area (.list .nil area', cellWords hp s)) :
    NonSingletonsRight hp s root t l0 area ↔ l0 = [] ∧ ∀ v, t.cells.count (.var v) < 2 := by
  constructor
  · rintro ⟨out, vs, hout', hdenotes, -, hvs⟩
    obtain ⟨rfl, -⟩ := Prod.mk.inj (nonSingletonsInTerm_unique hout hout')
    have hlist : OutArea.IsList area' .nil (vs ++ l0) := hdenotes
    generalize hall : vs ++ l0 = all at hlist
    cases hlist
    obtain ⟨rfl, rfl⟩ := List.append_eq_nil_iff.mp hall
    exact ⟨rfl, fun v => not_le.mp fun hle => by cases (hvs v).mpr (.inl hle)⟩
  · rintro ⟨rfl, hcount⟩
    refine ⟨_, [], hout, OutArea.IsList.nil, List.nodup_nil, fun v => iff_of_false List.not_mem_nil ?_⟩
    rintro (hle | ⟨hmem, -⟩)
    · exact absurd hle (not_le.mpr (hcount v))
    · cases hmem

/-- On finite terms the predicate is right exactly if there is nothing to collect. -/
theorem non_singletons_in_term_right_iff {t : Term} (ht : Unfolds hp s.cell (.ref root) t) (l0 : List Addr)
    (area : OutArea) :
    NonSingletonsRight hp s root t l0 area ↔ t.NothingTwice l0 := by
  obtain ⟨R, hwithin, hR⟩ := ht.region (V := {v | t.Occurs v}) fun v hv => hv
  have hcompound : t.rootKind = .compound →
      (NonSingletonsRight hp s root t l0 area ↔ l0 = [] ∧ ∀ v, t.cells.count (.var v) < 2) := by
    intro hkind
    obtain ⟨area', hwalk⟩ := termVisit_nonSingletons hR.closed (Cell.within_ref.mp hwithin) area
    have hout : nonSingletonsInTerm hp s root area (.list .nil area', cellWords hp s) := by
      rw [nonSingletonsInTerm, answers, ht.rootKind, hkind]
      exact ⟨_, _, rfl, hwalk⟩
    exact denotes_nil_iff hout
  have hprimitive : t.rootKind = .primitive → NonSingletonsRight hp s root t l0 area := by
    intro hkind
    refine (denotes_arg2_iff ?_).mpr fun v hv => ?_
    · rw [nonSingletonsInTerm, answers, ht.rootKind, hkind]
    · rw [Term.Occurs, Term.cells_of_primitive hkind] at hv
      rcases hv with hcount | ⟨-, hmem⟩
      · exact absurd (hcount.trans List.count_le_length) (Nat.not_succ_le_self 1)
      · rw [← List.mem_singleton.mp hmem] at hkind
        cases hkind
  cases t with
  | var v =>
    refine (denotes_arg2_iff (by rw [nonSingletonsInTerm, answers, ht.rootKind]; rfl)).trans ?_
    constructor
    · exact fun hnone hmem => hnone v (.inr ⟨hmem, List.mem_singleton_self _⟩)
    · rintro hnot w (hcount | ⟨hmem, hoccurs⟩)
      · exact absurd (hcount.trans List.count_le_length) (Nat.not_succ_le_self 1)
      · rw [Term.var.inj (List.mem_singleton.mp hoccurs)] at hmem
        exact hnot hmem
  | int n => exact iff_of_true (hprimitive rfl) trivial
  | atom a => exact iff_of_true (hprimitive rfl) trivial
  | blob p b => exact iff_of_true (hprimitive rfl) trivial
  | pair p h t => exact hcompound rfl
  | appl p f as => exact hcompound rfl

/-- `[X|X]`: the word is in the cell 0, the variable is the head cell 1. -/
def twiceCells : Addr → Cell
  | 0 => .nonvar (.pair 1)
  | 2 => .ref 1
  | a => .ref a

def twiceStore : Store where
  cell := twiceCells
  refs_end := by
    have hlt : ∀ b a, twiceCells a = .ref b ∧ b ≠ a → b < a := by
      rintro b a ⟨hcell, hne⟩
      unfold twiceCells at hcell
      split at hcell
      · cases hcell
      · rw [← Cell.ref.inj hcell]
        exact Nat.one_lt_two
      · exact absurd (Cell.ref.inj hcell).symm hne
    exact Subrelation.wf (hlt _ _) Nat.lt_wfRel.wf

/-- The area above the cells of `[X|X]`. -/
def emptyArea : OutArea := ⟨fun _ => 3, fun _ => .nil, 0⟩

theorem unfolds_twice : Unfolds stringHeap twiceStore.cell (.ref 0) (.pair 1 (.var 1) (.var 1)) :=
  .ref (by decide) (.pair (.unbound rfl) (.ref (by decide) (.unbound rfl)))

theorem non_singletons_in_term_right_iff_twice :
    NonSingletonsRight stringHeap twiceStore 0 (.pair 1 (.var 1) (.var 1)) [] emptyArea ↔
      (Term.pair 1 (.var 1) (.var 1)).NothingTwice [] :=
  non_singletons_in_term_right_iff unfolds_twice [] emptyArea

/-- `X` is not found in `[X|X]`. -/
theorem not_non_singletons_in_term_right :
    ¬ ∀ (hp : Heap) (s : Store) (root : Addr) (t : Term) (l0 : List Addr) (area : OutArea),
      Unfolds hp s.cell (.ref root) t → NonSingletonsRight hp s root t l0 area := by
  intro h
  obtain ⟨R, hwithin, hR⟩ := unfolds_twice.region (V := Set.univ) fun v _ => Set.mem_univ v
  obtain ⟨area', hwalk⟩ := termVisit_nonSingletons hR.closed (Cell.within_ref.mp hwithin) emptyArea
  have hout : nonSingletonsInTerm stringHeap twiceStore 0 emptyArea (.list .nil area', cellWords stringHeap twiceStore) := by
    rw [nonSingletonsInTerm, answers, unfolds_twice.rootKind]
    exact ⟨_, _, rfl, hwalk⟩
  have hcount := ((denotes_nil_iff hout).mp (h _ _ _ _ [] emptyArea unfolds_twice)).2 1
  exact absurd hcount (by decide)

end Yap
