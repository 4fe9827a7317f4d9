-- SUMMARY: The occurrences of variables in a term, what the walks for `ground`, `variable_in_term`, `term_variables`, `new_variables_in_term` and `variables_within_term` collect of them, and a condition under which the predicates agree.
import Yap.TermVisit.Paths
import Yap.TermVisit.Cyclic

/-!
# Variables of terms

The traversal goes through arguments from left to right, shared ones each time, but
not below what it is below. It says of an occurrence whether the variable is the head
cell of a list that the occurrence is below.

`ground` and `variable_in_term` are right on every finite term graph, and
`term_variables` is empty when it has to be. The predicates with a list of variables
bind these before the walk; the walk loses the bindings when it starts again, and does
not bind a variable below the list whose head cell the variable is.
-/

namespace Yap

section

variable {hp : Heap} {s : Store} {root : Addr} {path : List Place} {es : List WalkEvent}

/-- The occurrences of variables in the terms of cells, below open places. -/
inductive Occurrences (hp : Heap) (s : Store) : List Place → List Addr → List (Addr × Bool) → Prop
  | nil {path : List Place} : Occurrences hp s path [] []
  | var {path : List Place} {a v : Addr} {as : List Addr} {occs : List (Addr × Bool)} :
      s.deref (.ref a) = .ref v → Occurrences hp s path as occs →
      Occurrences hp s path (a :: as) ((v, decide (.arg v ∈ path)) :: occs)
  | leaf {path : List Place} {a : Addr} {d : Nonvar} {as : List Addr} {occs : List (Addr × Bool)} :
      s.deref (.ref a) = .nonvar d → d.cells hp = [] → Occurrences hp s path as occs → Occurrences hp s path (a :: as) occs
  | again {path : List Place} {a : Addr} {d : Nonvar} {pl : Place} {as : List Addr} {occs : List (Addr × Bool)} :
      s.deref (.ref a) = .nonvar d → d.door = some pl → pl ∈ path → Occurrences hp s path as occs →
      Occurrences hp s path (a :: as) occs
  | down {path : List Place} {a : Addr} {d : Nonvar} {pl : Place} {as : List Addr} {occs occs' : List (Addr × Bool)} :
      s.deref (.ref a) = .nonvar d → d.door = some pl → pl ∉ path → Occurrences hp s (pl :: path) (d.cells hp) occs →
      Occurrences hp s path as occs' → Occurrences hp s path (a :: as) (occs ++ occs')

/-- The occurrence that an event is. -/
def WalkEvent.occurs : WalkEvent → Option (Addr × Bool)
  | .occurrence _ v marked => some (v, marked)
  | _ => none

/-- The events of a walk have the occurrences of a traversal. -/
theorem HasEvents.occurrences {items : List (Addr × Addr)} (hv : HasEvents hp s path items es) :
    Occurrences hp s path (items.map Prod.snd) (es.filterMap WalkEvent.occurs) := by
  induction hv with
  | nil => exact .nil
  | var hleads hcell hv _ ih => exact .var (hleads.deref.trans (deref_var hcell hv)) ih
  | leaf hleads hcell hd _ ih => exact .leaf (hleads.deref.trans (deref_word hcell)) hd ih
  | openList hleads hcell hopen _ ih => exact .again (hleads.deref.trans (deref_word hcell)) rfl hopen ih
  | list hleads hcell hopen _ _ ihargs ih =>
    rw [List.filterMap_append, List.filterMap_cons_none rfl]
    exact .down (hleads.deref.trans (deref_word hcell)) rfl hopen ihargs ih
  | openCompound hleads hcell hf hopen _ ih =>
    rw [List.filterMap_cons_none rfl]
    exact .again (hleads.deref.trans (deref_word hcell)) rfl hopen ih
  | @compound path rest es es' q src q' src' p f hleads hcell hf hopen _ _ ihargs ih =>
    rw [List.filterMap_append, List.filterMap_cons_none rfl]
    refine .down (hleads.deref.trans (deref_word hcell)) rfl hopen ?_ ih
    rw [Nonvar.cells, Nonvar.block, hf]
    rwa [ownCells, List.map_map, show Prod.snd ∘ (fun a : Addr => (a, a)) = id from rfl, List.map_id] at ihargs

/-- A traversal has one list of occurrences. -/
theorem Occurrences.unique {as : List Addr} {occs occs' : List (Addr × Bool)} (h : Occurrences hp s path as occs)
    (h' : Occurrences hp s path as occs') : occs = occs' := by
  -- blocks without cells have no occurrences, so it does not matter that such a word may also be entered
  have hempty : ∀ {path occs}, Occurrences hp s path [] occs → occs = [] := by
    intro path occs h
    cases h
    rfl
  induction h generalizing occs' with
  | nil => exact (hempty h').symm
  | var hderef _ ih =>
    cases h' with
    | var hderef' hrest =>
      obtain rfl := Cell.ref.inj (hderef.symm.trans hderef')
      rw [ih hrest]
    | leaf hderef' _ _ => cases hderef.symm.trans hderef'
    | again hderef' _ _ _ => cases hderef.symm.trans hderef'
    | down hderef' _ _ _ _ => cases hderef.symm.trans hderef'
  | leaf hderef hd _ ih =>
    cases h' with
    | var hderef' _ => cases hderef.symm.trans hderef'
    | leaf _ _ hrest => exact ih hrest
    | again _ _ _ hrest => exact ih hrest
    | down hderef' _ _ hargs hrest =>
      obtain rfl := Cell.nonvar.inj (hderef.symm.trans hderef')
      rw [hd] at hargs
      rw [hempty hargs, List.nil_append]
      exact ih hrest
  | again hderef hdoor hpl _ ih =>
    cases h' with
    | var hderef' _ => cases hderef.symm.trans hderef'
    | leaf _ _ hrest => exact ih hrest
    | again _ _ _ hrest => exact ih hrest
    | down hderef' hdoor' hpl' _ _ =>
      obtain rfl := Cell.nonvar.inj (hderef.symm.trans hderef')
      obtain rfl := Option.some.inj (hdoor.symm.trans hdoor')
      exact absurd hpl hpl'
  | down hderef hdoor hpl hargs _ ihargs ih =>
    cases h' with
    | var hderef' _ => cases hderef.symm.trans hderef'
    | leaf hderef' hd hrest =>
      obtain rfl := Cell.nonvar.inj (hderef.symm.trans hderef')
      rw [hd] at hargs
      rw [hempty hargs, List.nil_append]
      exact ih hrest
    | again hderef' hdoor' hpl' _ =>
      obtain rfl := Cell.nonvar.inj (hderef.symm.trans hderef')
      obtain rfl := Option.some.inj (hdoor.symm.trans hdoor')
      exact absurd hpl' hpl
    | down hderef' hdoor' _ hargs' hrest =>
      obtain rfl := Cell.nonvar.inj (hderef.symm.trans hderef')
      obtain rfl := Option.some.inj (hdoor.symm.trans hdoor')
      rw [ihargs hargs', ih hrest]

/-- The variables of a term are those that occur. -/
theorem HasEvents.hasVar_iff_occurs (hv : HasEvents hp s [] [(root, root)] es) {v : Addr} :
    HasVar hp s root v ↔ ∃ m, (v, m) ∈ es.filterMap WalkEvent.occurs := by
  rw [hv.hasVar_iff]
  constructor
  · rintro ⟨q, m, hmem⟩
    exact ⟨m, List.mem_filterMap.mpr ⟨_, hmem, rfl⟩⟩
  · rintro ⟨m, hmem⟩
    obtain ⟨e, he, hoccurs⟩ := List.mem_filterMap.mp hmem
    cases e with
    | list => cases hoccurs
    | compound => cases hoccurs
    | occurrence q v' m' =>
      obtain ⟨rfl, rfl⟩ := Prod.mk.inj (Option.some.inj hoccurs)
      exact ⟨q, m', he⟩

/-- An occurrence that is not below the list whose head cell the variable is, is at the variable. -/
theorem Below.ptd0_eq {q src : Addr} (h : Below hp s root path q src) : q = src ∨ .arg src ∈ path := by
  cases h with
  | root => exact .inl rfl
  | ref => exact .inl rfl
  | head => exact .inr (List.mem_cons_self ..)
  | tail => exact .inl rfl
  | argument => exact .inl rfl

theorem HasEvents.ptd0_eq (hv : HasEvents hp s [] [(root, root)] es) {q v : Addr} (h : .occurrence q v false ∈ es) :
    q = v := by
  obtain ⟨path, q', src, hbelow, -, -, rfl, hmark⟩ := hv.mem_iff.mp h
  by_cases hsrc : src = v
  · subst hsrc
    rw [if_pos rfl]
    exact hbelow.ptd0_eq.resolve_right (of_decide_eq_false hmark.symm)
  · exact if_neg hsrc

end

open Relation

variable {hp : Heap} {s : Store} {root : Addr} {R : Finset Addr} {es : List WalkEvent}

-- ---------------------------------------------------------------------------
-- Kinds of words
-- ---------------------------------------------------------------------------

theorem rootKind_var {v : Addr} : rootKind hp s root = .var v ↔ s.deref (.ref root) = .ref v := by
  rw [rootKind]
  cases hderef : s.deref (.ref root) with
  | ref w =>
    constructor
    · rintro ⟨⟩
      rfl
    · rintro ⟨⟩
      rfl
  | nonvar d =>
    refine iff_of_false ?_ fun h => by cases h
    cases d with
    | appl p =>
      dsimp only
      cases hp.functorAt p with
      | functor f => exact fun h => by cases h
      | blob b => exact fun h => by cases h
    | _ => exact fun h => by cases h

theorem cells_of_primitive {d : Nonvar} (h : rootKind hp s root = .primitive) (hd : s.deref (.ref root) = .nonvar d) :
    d.cells hp = [] := by
  rw [rootKind, hd] at h
  cases d with
  | int n => rfl
  | atom a => rfl
  | pair p => cases h
  | appl p =>
    cases hf : hp.functorAt p with
    | functor f =>
      simp only [hf] at h
      cases h
    | blob b => exact Nonvar.cells_blob hf

/-- Only variables and compounds have variables. -/
theorem HasVar.rootKind {v : Addr} (h : HasVar hp s root v) :
    Yap.rootKind hp s root = .var v ∨ Yap.rootKind hp s root = .compound := by
  obtain ⟨a, ha, hderef⟩ := h
  rcases ha with rfl | ⟨d, ⟨b, hb, e, he, hreach⟩, hmem⟩
  · exact .inl (rootKind_var.mpr hderef)
  · obtain rfl := List.mem_singleton.mp hb
    cases hkind : Yap.rootKind hp s b with
    | var w => cases he.symm.trans (rootKind_var.mp hkind)
    | compound => exact .inr rfl
    | primitive =>
      have hnil := cells_of_primitive hkind he
      rcases ReflTransGen.cases_head hreach with rfl | ⟨c, ⟨x, hx, -⟩, -⟩
      · rw [hnil] at hmem
        cases hmem
      · rw [hnil] at hx
        cases hx

-- ---------------------------------------------------------------------------
-- ground and variable_in_term
-- ---------------------------------------------------------------------------

theorem groundHooks_silent : groundHooks.Silent where
  list _ _ _ _ _ h := Except.ok.inj h ▸ rfl
  compound _ _ _ _ _ h := Except.ok.inj h ▸ rfl
  atomic _ _ _ _ := rfl
  constant _ _ _ _ _ _ h := by cases h
  unmarked _ _ _ _ := rfl

theorem groundHooks_tests : groundHooks.Tests (fun e => e.occurs.isSome) false := by
  intro e
  cases e <;> rfl

/-- `ground` says whether there is no variable. -/
theorem exists_isGroundTerm (hR : Closed hp R s.cell) (hroot : root ∈ R) :
    ∃ g, isGroundTerm hp s root (g, cellWords hp s) ∧ (g = true ↔ ∀ v, ¬ HasVar hp s root v) := by
  unfold isGroundTerm answers
  cases hkind : rootKind hp s root with
  | var v => exact ⟨false, rfl, iff_of_false Bool.false_ne_true fun h => h v ⟨root, .inl rfl, rootKind_var.mp hkind⟩⟩
  | primitive =>
    refine ⟨true, rfl, iff_of_true rfl fun v hv => ?_⟩
    rcases hv.rootKind with h | h
    · cases hkind.symm.trans h
    · cases hkind.symm.trans h
  | compound =>
    obtain ⟨es, hv⟩ := exists_visits hR [] [(root, root)] (List.forall_mem_singleton.mpr hroot)
    refine ⟨_, hv.answer hR hroot groundHooks_silent groundHooks_tests, ?_⟩
    have hany : es.any (fun e => e.occurs.isSome) = true ↔ ∃ v, HasVar hp s root v := by
      rw [List.any_eq_true]
      constructor
      · rintro ⟨e, he, hsome⟩
        obtain ⟨occ, hocc⟩ := Option.isSome_iff_exists.mp hsome
        exact ⟨occ.1, hv.hasVar_iff_occurs.mpr ⟨occ.2, List.mem_filterMap.mpr ⟨e, he, hocc⟩⟩⟩
      · rintro ⟨v, hvar⟩
        obtain ⟨m, hm⟩ := hv.hasVar_iff_occurs.mp hvar
        obtain ⟨e, he, hocc⟩ := List.mem_filterMap.mp hm
        exact ⟨e, he, hocc ▸ rfl⟩
    rw [← not_exists, ← hany]
    cases es.any fun e => e.occurs.isSome with
    | true => exact iff_of_false Bool.false_ne_true fun h => h rfl
    | false => exact iff_of_true rfl Bool.false_ne_true

theorem varInHooks_silent (v : Addr) : (varInHooks v).Silent where
  list _ _ _ _ _ h := Except.ok.inj h ▸ rfl
  compound _ _ _ _ _ h := Except.ok.inj h ▸ rfl
  atomic _ _ _ _ := rfl
  constant _ _ _ _ _ _ h := by cases h
  unmarked _ _ _ _ := rfl

theorem varInHooks_tests (v : Addr) :
    (varInHooks v).Tests (fun e => decide (e.occurs.map Prod.fst = some v)) true := by
  intro e
  cases e with
  | list ptd0 p marked => rfl
  | compound ptd0 p marked => rfl
  | occurrence ptd0 w marked =>
    by_cases hw : w = v
    · subst hw
      simp [Hooks.event, WalkData.start, varInHooks, WalkEvent.occurs]
    · simp [Hooks.event, WalkData.start, varInHooks, WalkEvent.occurs, WalkData.withData, hw]

/-- `variable_in_term` says whether the variable is one of the term. -/
theorem exists_varInTerm (hR : Closed hp R s.cell) (hroot : root ∈ R) (v : Addr) :
    ∃ b, varInTerm hp s root v (b, cellWords hp s) ∧ (b = true ↔ HasVar hp s root v) := by
  unfold varInTerm answers
  cases hkind : rootKind hp s root with
  | var w =>
    refine ⟨decide (v = w), rfl, ?_⟩
    rw [decide_eq_true_iff]
    constructor
    · rintro rfl
      exact ⟨root, .inl rfl, rootKind_var.mp hkind⟩
    · intro hvar
      rcases hvar.rootKind with h | h
      · cases hkind.symm.trans h
        rfl
      · cases hkind.symm.trans h
  | primitive =>
    refine ⟨false, rfl, iff_of_false Bool.false_ne_true fun hvar => ?_⟩
    rcases hvar.rootKind with h | h
    · cases hkind.symm.trans h
    · cases hkind.symm.trans h
  | compound =>
    obtain ⟨es, hv⟩ := exists_visits hR [] [(root, root)] (List.forall_mem_singleton.mpr hroot)
    refine ⟨_, hv.answer hR hroot (varInHooks_silent v) (varInHooks_tests v), ?_⟩
    have hany : es.any (fun e => decide (e.occurs.map Prod.fst = some v)) = true ↔ HasVar hp s root v := by
      rw [List.any_eq_true, hv.hasVar_iff_occurs]
      constructor
      · rintro ⟨e, he, hsome⟩
        obtain ⟨occ, hocc, rfl⟩ := Option.map_eq_some_iff.mp (of_decide_eq_true hsome)
        exact ⟨occ.2, List.mem_filterMap.mpr ⟨e, he, hocc⟩⟩
      · rintro ⟨m, hm⟩
        obtain ⟨e, he, hocc⟩ := List.mem_filterMap.mp hm
        exact ⟨e, he, decide_eq_true (by rw [hocc]; rfl)⟩
    rw [← hany]
    cases es.any fun e => decide (e.occurs.map Prod.fst = some v) with
    | true => rfl
    | false => rfl

-- ---------------------------------------------------------------------------
-- term_variables
-- ---------------------------------------------------------------------------

theorem varsHooks_silent : varsHooks.Silent where
  list _ _ _ _ _ h := Except.ok.inj h ▸ rfl
  compound _ _ _ _ _ h := Except.ok.inj h ▸ rfl
  atomic _ _ _ _ := rfl
  constant _ _ _ _ _ _ h := by cases h
  unmarked _ _ _ _ := rfl

/-- The list has a first pair once there is a last one or a variable is bound. -/
structure VarsBegun (x : WalkData VarsData) : Prop where
  last : x.data.first = .nil → x.data.last = none
  held : x.data.first = .nil → ∀ v, x.held v = none

theorem VarsBegun.event {x : WalkData VarsData} (hx : VarsBegun x) (e : WalkEvent) :
    ∃ x', varsHooks.event x e = .done x' ∧ VarsBegun x' ∧
      (x'.data.first = .nil ↔ x.data.first = .nil ∧ e.occurs = none) := by
  cases e with
  | list ptd0 p marked => exact ⟨_, rfl, ⟨hx.last, hx.held⟩, (and_iff_left rfl).symm⟩
  | compound ptd0 p marked => exact ⟨_, rfl, ⟨hx.last, hx.held⟩, (and_iff_left rfl).symm⟩
  | occurrence ptd0 v marked =>
    rw [Hooks.event]
    cases hheld : x.held v with
    | some w =>
      refine ⟨_, rfl, ⟨hx.last, hx.held⟩, iff_of_false (fun hnil => ?_) fun h => (by cases h.2)⟩
      rw [hx.held hnil v] at hheld
      cases hheld
    | none =>
      have hfirst : (x.data.last.elim (OutTail.pair x.data.area.hr) fun _ => x.data.first) ≠ .nil := by
        cases hlast : x.data.last with
        | none => exact fun h => by cases h
        | some k =>
          intro hnil
          rw [hx.last hnil] at hlast
          cases hlast
      cases marked with
      | true =>
        exact ⟨_, rfl, ⟨fun h => absurd h hfirst, fun h => absurd h hfirst⟩,
          iff_of_false hfirst fun h => (by cases h.2)⟩
      | false =>
        exact ⟨_, rfl, ⟨fun h => absurd h hfirst, fun h => absurd h hfirst⟩,
          iff_of_false hfirst fun h => (by cases h.2)⟩

theorem VarsBegun.run {x : WalkData VarsData} (hx : VarsBegun x) (es : List WalkEvent) :
    ∃ x', varsHooks.run x es = .done x' ∧ VarsBegun x' ∧
      (x'.data.first = .nil ↔ x.data.first = .nil ∧ ∀ e ∈ es, e.occurs = none) := by
  induction es generalizing x with
  | nil => exact ⟨x, rfl, hx, (and_iff_left fun e he => (by cases he)).symm⟩
  | cons e es ih =>
    obtain ⟨x₁, hevent, hx₁, hfirst₁⟩ := hx.event e
    obtain ⟨x', hrun, hx', hfirst'⟩ := ih hx₁
    refine ⟨x', ?_, hx', ?_⟩
    · rw [Hooks.run, hevent]
      exact hrun
    · rw [hfirst', hfirst₁, List.forall_mem_cons, and_assoc]

/-- `term_variables` gives the empty list exactly if there is no variable. -/
theorem exists_termVariables (hR : Closed hp R s.cell) (hroot : root ∈ R) (area : OutArea) :
    ∃ t area', termVariables hp s root area ((t, area'), cellWords hp s) ∧ (t = .nil ↔ ∀ v, ¬ HasVar hp s root v) := by
  obtain ⟨es, hv⟩ := exists_visits hR [] [(root, root)] (List.forall_mem_singleton.mpr hroot)
  have hnone : (∀ e ∈ es, e.occurs = none) ↔ ∀ v, ¬ HasVar hp s root v := by
    rw [← List.filterMap_eq_nil_iff, List.eq_nil_iff_forall_not_mem]
    constructor
    · intro h v hvar
      obtain ⟨m, hm⟩ := hv.hasVar_iff_occurs.mp hvar
      exact h _ hm
    · rintro h ⟨v, m⟩ hmem
      exact h v (hv.hasVar_iff_occurs.mpr ⟨m, hmem⟩)
  obtain ⟨x₀, hreach, -, hres⟩ :=
    hv.termVisit hR hroot varsHooks_silent (WalkData.start_sound (⟨area.restart, .nil, none⟩ : VarsData))
  -- the first pair is kept when the walk starts again
  have hx₀ : VarsBegun x₀ ∧ ((∀ e ∈ es, e.occurs = none) → x₀.data.first = .nil) := by
    clear hres
    induction hreach with
    | refl => exact ⟨⟨fun _ => rfl, fun _ _ => rfl⟩, fun _ => rfl⟩
    | tail _ hstep ih =>
      obtain ⟨es₁, x₁, hpre, hrun, rfl⟩ := hstep
      obtain ⟨x', hrun', hx', hfirst⟩ := ih.1.run es₁
      obtain rfl := WalkOutcome.done.inj (hrun'.symm.trans hrun)
      refine ⟨⟨hx'.last, fun _ _ => rfl⟩, fun hes => hfirst.mpr ⟨ih.2 hes, fun e he => hes e ?_⟩⟩
      exact hpre.subset he
  obtain ⟨x', hrun, -, hfirst⟩ := hx₀.1.run es
  rw [hrun, WalkData.start_beneath] at hres
  refine ⟨x'.data.first, x'.data.area, hres, ?_⟩
  rw [hfirst, hnone]
  exact and_iff_right_of_imp fun h => hx₀.2 (hnone.mpr h)

-- ---------------------------------------------------------------------------
-- Binding the variables of a list
-- ---------------------------------------------------------------------------

/-- The variables that the elements of a list are. -/
def oldVars (s : Store) (old : List Cell) : List Addr :=
  old.filterMap fun c =>
    match s.deref c with
    | .ref v => some v
    | .nonvar _ => none

/-- The list is one of different variables. -/
structure DistinctVars (s : Store) (old : List Cell) : Prop where
  vars : ∀ c ∈ old, ∃ v, s.deref c = .ref v
  nodup : (oldVars s old).Nodup

theorem oldVars_cons {c : Cell} {v : Addr} (h : s.deref c = .ref v) (old : List Cell) :
    oldVars s (c :: old) = v :: oldVars s old := by
  rw [oldVars, List.filterMap_cons, h]
  rfl

theorem unbound_of_mem_oldVars {old : List Cell} {v : Addr} (h : v ∈ oldVars s old) : s.cell v = .ref v := by
  obtain ⟨c, -, hc⟩ := List.mem_filterMap.mp h
  cases hderef : s.deref c with
  | ref w =>
    rw [hderef] at hc
    obtain rfl := Option.some.inj hc
    exact Store.unbound_of_deref hderef
  | nonvar d =>
    rw [hderef] at hc
    cases hc

/-- Bound variables are not on the way to another variable. -/
theorem headVar_of_notMem {bound : List Addr} (hbound : ∀ a ∈ bound, s.cell a = .ref a) {c : Cell} {v : Addr}
    (hc : s.deref c = .ref v) (hv : v ∉ bound) : BindState.headVar s bound c = some v := by
  cases c with
  | nonvar d => cases hc
  | ref a =>
    have hmarked : s.derefMarked bound a = some (.ref v) := by
      induction a using Store.deref_induction (s := s) with
      | unbound a ha =>
        obtain rfl := Cell.ref.inj ((Store.deref_of_unbound ha).symm.trans hc)
        exact Store.derefMarked_unbound hv ha
      | ref a b ha hb ih =>
        have hnot : a ∉ bound := fun hmem => hb (Cell.ref.inj (ha.symm.trans (hbound a hmem)))
        rw [Store.derefMarked_ref hnot ha hb]
        exact ih ((Store.deref_of_cell ha fun heq => hb (Cell.ref.inj heq)).symm.trans hc)
      | nonvar a d ha => cases (deref_word ha).symm.trans hc
    rw [BindState.headVar, hmarked]

/-- Both loops bind different variables, each once. -/
theorem BindState.returns (turn : BindState → Turn BindState (List Addr)) (hnil : ∀ bound, turn ⟨[], bound⟩ = .exit bound)
    (hcons : ∀ t inp bound v, headVar s bound t = some v → turn ⟨t :: inp, bound⟩ = .go ⟨inp, v :: bound⟩)
    {old : List Cell} (hold : DistinctVars s old) (bound : List Addr) (hbound : ∀ a ∈ bound, s.cell a = .ref a)
    (hdisjoint : ∀ v ∈ oldVars s old, v ∉ bound) :
    Machine.Returns turn ⟨old, bound⟩ ((oldVars s old).reverse ++ bound) := by
  induction old generalizing bound with
  | nil => exact Machine.returns_of_exit (hnil bound)
  | cons c old ih =>
    obtain ⟨⟨v, hv⟩, hvars⟩ := List.forall_mem_cons.mp hold.vars
    have hcell := oldVars_cons hv old
    have hnodup := hold.nodup
    rw [hcell] at hdisjoint hnodup
    obtain ⟨hnot, hnodup⟩ := List.nodup_cons.mp hnodup
    obtain ⟨hfree, hdisjoint⟩ := List.forall_mem_cons.mp hdisjoint
    refine (Machine.returns_go (hcons c old bound v (headVar_of_notMem hbound hv hfree))).mpr ?_
    rw [hcell, List.reverse_cons, List.append_assoc, List.singleton_append]
    refine ih ⟨hvars, hnodup⟩ (v :: bound) (List.forall_mem_cons.mpr ⟨Store.unbound_of_deref hv, hbound⟩) fun w hw hmem => ?_
    rcases List.mem_cons.mp hmem with rfl | hmem
    · exact hnot hw
    · exact hdisjoint w hw hmem

theorem returns_turnNew {old : List Cell} (hold : DistinctVars s old) :
    Machine.Returns (BindState.turnNew s) ⟨old, []⟩ (oldVars s old).reverse := by
  have hcons : ∀ t inp bound v, BindState.headVar s bound t = some v →
      BindState.turnNew s ⟨t :: inp, bound⟩ = .go ⟨inp, v :: bound⟩ := by
    intro t inp bound v hv
    simp only [BindState.turnNew, hv]
  have h := BindState.returns (BindState.turnNew s) (fun _ => rfl) hcons hold [] (fun a ha => by cases ha)
    fun v _ hmem => by cases hmem
  rwa [List.append_nil] at h

theorem returns_turnWithin {old : List Cell} (hold : DistinctVars s old) :
    Machine.Returns (BindState.turnWithin s) ⟨old, []⟩ (oldVars s old).reverse := by
  have hcons : ∀ t inp bound v, BindState.headVar s bound t = some v →
      BindState.turnWithin s ⟨t :: inp, bound⟩ = .go ⟨inp, v :: bound⟩ := by
    intro t inp bound v hv
    simp only [BindState.turnWithin, hv]
  have h := BindState.returns (BindState.turnWithin s) (fun _ => rfl) hcons hold [] (fun a ha => by cases ha)
    fun v _ hmem => by cases hmem
  rwa [List.append_nil] at h

/-- Before a walk these variables are bound. -/
def WalkData.ofBound {σ : Type} (data : σ) (bound : List Addr) : WalkData σ :=
  ⟨data, fun a => if a ∈ bound then some .foundVar else none, bound⟩

theorem WalkData.ofBound_held {σ : Type} (data : σ) (bound : List Addr) (v : Addr) :
    (WalkData.ofBound data bound).held v = if v ∈ bound then some .foundVar else none := rfl

theorem WalkData.ofBound_beneath {σ : Type} (data : σ) (bound : List Addr) :
    (WalkData.ofBound data bound).beneath hp s = boundWords hp s bound := by
  funext pl
  cases pl with
  | functor p => rfl
  | arg a =>
    by_cases ha : a ∈ bound
    · simp only [beneath, ofBound, boundWords, if_pos ha, Option.getD_some]
    · simp only [beneath, ofBound, boundWords, if_neg ha, Option.getD_none]

theorem WalkData.ofBound_sound {σ : Type} (data : σ) {bound : List Addr} (h : ∀ a ∈ bound, s.cell a = .ref a) :
    (WalkData.ofBound data bound).Sound s := by
  refine ⟨fun a w ha => ?_, h⟩
  rw [ofBound] at ha
  dsimp only at ha
  split at ha
  case isTrue hmem => exact ⟨hmem, Option.some.inj ha ▸ trivial⟩
  case isFalse => cases ha

-- ---------------------------------------------------------------------------
-- new_variables_in_term
-- ---------------------------------------------------------------------------

theorem newVarsHooks_silent : newVarsHooks.Silent where
  list _ _ _ _ _ h := Except.ok.inj h ▸ rfl
  compound _ _ _ _ _ h := Except.ok.inj h ▸ rfl
  atomic _ _ _ _ := rfl
  constant _ _ _ _ _ _ h := by cases h
  unmarked _ _ _ _ := rfl

theorem filterMap_occurs_cons (q v : Addr) (m : Bool) (es : List WalkEvent) :
    (WalkEvent.occurrence q v m :: es).filterMap WalkEvent.occurs = (v, m) :: es.filterMap WalkEvent.occurs := rfl

/-- The variables that are found when some are bound: a variable is bound unless it is
    found below the list whose head cell it is. -/
def collect : List Addr → List (Addr × Bool) → List Addr
  | _, [] => []
  | bound, (v, m) :: occs => if v ∈ bound then collect bound occs else v :: collect (if m then bound else v :: bound) occs

def NewVarsData.add (data : NewVarsData) (v : Addr) : NewVarsData := ⟨data.area.add v data.output, .pair data.area.hr⟩

theorem newVarsHooks_run {x : WalkData NewVarsData} {bound : List Addr} (hbound : ∀ v, v ∈ bound ↔ x.held v ≠ none)
    (es : List WalkEvent) :
    ∃ x', newVarsHooks.run x es = .done x' ∧
      x'.data = (collect bound (es.filterMap WalkEvent.occurs)).foldl NewVarsData.add x.data := by
  induction es generalizing x bound with
  | nil => exact ⟨x, rfl, rfl⟩
  | cons e es ih =>
    rw [Hooks.run]
    cases e with
    | list ptd0 p marked => exact ih hbound
    | compound ptd0 p marked => exact ih hbound
    | occurrence ptd0 v marked =>
      rw [filterMap_occurs_cons, collect, Hooks.event]
      cases hheld : x.held v with
      | some w =>
        rw [if_pos ((hbound v).mpr (by rw [hheld]; exact fun h => by cases h))]
        exact ih hbound
      | none =>
        rw [if_neg fun hmem => (hbound v).mp hmem hheld]
        cases marked with
        | true => exact ih hbound
        | false =>
          refine ih (x := (x.withData (x.data.add v)).bind v) fun w => ?_
          rw [WalkData.bind, WalkData.withData]
          by_cases hw : w = v
          · subst hw
            simp
          · simpa [Function.update_of_ne hw, hw] using hbound w

/-- At most one variable is new, and if it occurs again it has been bound. -/
def NewOnce (old : List Addr) (occs : List (Addr × Bool)) : Prop :=
  match occs.filter fun o => o.1 ∉ old with
  | [] => True
  | (v, m) :: rest => rest = [] ∨ m = false ∧ ∀ o ∈ rest, o.1 = v

/-- The variables that are not in a list, in the order of their first occurrences. -/
def newInOrder (old : List Addr) (occs : List (Addr × Bool)) : List Addr :=
  ((occs.map Prod.fst).filter (· ∉ old)).eraseDups

theorem collect_eq_nil {bound : List Addr} {occs : List (Addr × Bool)} (h : ∀ o ∈ occs, o.1 ∈ bound) :
    collect bound occs = [] := by
  induction occs with
  | nil => rfl
  | cons o occs ih =>
    obtain ⟨ho, hoccs⟩ := List.forall_mem_cons.mp h
    exact (if_pos ho).trans (ih hoccs)

theorem eraseDups_of_forall_eq {v : Addr} {vs : List Addr} (h : ∀ w ∈ vs, w = v) : (v :: vs).eraseDups = [v] := by
  have hnil : (vs.filter fun w => !w == v) = [] := by
    rw [List.filter_eq_nil_iff]
    intro w hw
    rw [h w hw]
    simp
  rw [List.eraseDups_cons, hnil, List.eraseDups_nil]

theorem collect_eq {old bound : List Addr} (hbound : ∀ v, v ∈ bound ↔ v ∈ old) {occs : List (Addr × Bool)}
    (h : NewOnce old occs) : collect bound occs = newInOrder old occs ∧ (newInOrder old occs).length ≤ 1 := by
  rw [newInOrder, List.filter_map]
  unfold NewOnce at h
  induction occs with
  | nil => exact ⟨rfl, Nat.zero_le 1⟩
  | cons o occs ih =>
    obtain ⟨v, m⟩ := o
    by_cases hv : v ∈ old
    · have hskip : (((v, m) :: occs).filter fun o => o.1 ∉ old) = occs.filter fun o => o.1 ∉ old :=
        List.filter_cons_of_neg (by simpa using hv)
      rw [hskip] at h
      have hskip' : ((v, m) :: occs).filter ((fun v => decide (v ∉ old)) ∘ Prod.fst) =
          occs.filter ((fun v => decide (v ∉ old)) ∘ Prod.fst) := hskip
      rw [hskip', collect, if_pos ((hbound v).mpr hv)]
      exact ih h
    · have hkeep : (((v, m) :: occs).filter fun o => o.1 ∉ old) = (v, m) :: occs.filter fun o => o.1 ∉ old :=
        List.filter_cons_of_pos (by simpa using hv)
      rw [hkeep] at h
      have hkeep' : ((v, m) :: occs).filter ((fun v => decide (v ∉ old)) ∘ Prod.fst) =
          (v, m) :: occs.filter ((fun v => decide (v ∉ old)) ∘ Prod.fst) := hkeep
      have hrest : ∀ o ∈ occs, o.1 ∉ old → o ∈ occs.filter fun o => o.1 ∉ old := fun o ho hnot =>
        List.mem_filter.mpr ⟨ho, decide_eq_true hnot⟩
      have hcollect : collect (if m then bound else v :: bound) occs = [] := by
        refine collect_eq_nil fun o ho => ?_
        by_cases hold : o.1 ∈ old
        · have hmem := (hbound o.1).mpr hold
          cases m
          · exact List.mem_cons_of_mem _ hmem
          · exact hmem
        · rcases h with hnil | ⟨rfl, hall⟩
          · have hmem := hrest o ho hold
            rw [hnil] at hmem
            cases hmem
          · rw [hall o (hrest o ho hold)]
            exact List.mem_cons_self ..
      have hone : (((v, m) :: occs.filter ((fun v => decide (v ∉ old)) ∘ Prod.fst)).map Prod.fst).eraseDups = [v] := by
        refine eraseDups_of_forall_eq fun w hw => ?_
        obtain ⟨o, ho, rfl⟩ := List.mem_map.mp hw
        rcases h with hnil | ⟨-, hall⟩
        · have hmem : o ∈ occs.filter fun o => o.1 ∉ old := ho
          rw [hnil] at hmem
          cases hmem
        · exact hall o ho
      rw [hkeep', hone, collect, if_neg fun hmem => hv ((hbound v).mp hmem), hcollect]
      exact ⟨rfl, le_rfl⟩

theorem OutArea.add_head (area : OutArea) (a : Addr) (t : OutTail) : (area.add a t).head area.hr = a :=
  Function.update_self ..

theorem OutArea.add_tail (area : OutArea) (a : Addr) (t : OutTail) : (area.add a t).tail area.hr = t :=
  Function.update_self ..

/-- One variable makes a list. -/
theorem isList_foldl_add {data : NewVarsData} (hnil : data.output = .nil) {vs : List Addr} (hvs : vs.length ≤ 1) :
    (vs.foldl NewVarsData.add data).area.IsList (vs.foldl NewVarsData.add data).output vs := by
  cases vs with
  | nil =>
    rw [List.foldl_nil, hnil]
    exact .nil
  | cons v vs =>
    obtain rfl := List.eq_nil_of_length_eq_zero (Nat.le_zero.mp (Nat.le_of_succ_le_succ hvs))
    have hlist : OutArea.IsList (data.add v).area (.pair data.area.hr)
        ((data.area.add v data.output).head data.area.hr :: []) := by
      refine .pair ?_
      have htail : (data.add v).area.tail data.area.hr = .nil := (data.area.add_tail v data.output).trans hnil
      rw [htail]
      exact .nil
    rwa [OutArea.add_head] at hlist

end Yap
