-- SUMMARY: When the predicates on the variables of a term agree: which variables `variables_within_term` collects, and inputs where the lists are wrong.
import Yap.TermVisit.Singletons
import Yap.TermVisit.Variables

/-!
# Agreement of the predicates

`variables_within_term` finds a bound variable as an atom and writes `[]` to `ptd0`,
which is the cell of the variable unless the variable is the head cell of a list that
is being entered.
-/

namespace Yap

open Relation

variable {hp : Heap} {s : Store} {root : Addr} {R : Finset Addr} {es : List WalkEvent}

-- ---------------------------------------------------------------------------
-- variables_within_term
-- ---------------------------------------------------------------------------

theorem varsWithinHooks_silent : varsWithinHooks.Silent where
  list _ _ _ _ _ h := Except.ok.inj h ▸ rfl
  compound _ _ _ _ _ h := Except.ok.inj h ▸ rfl
  atomic _ _ _ _ := rfl
  constant data ptd0 w marked data' w' h := by
    change foundVarHook data ptd0 w marked = _ at h
    rw [foundVarHook] at h
    split at h
    · rw [← Option.some.inj (Prod.mk.inj (Except.ok.inj h)).2]
      trivial
    · cases (Prod.mk.inj (Except.ok.inj h)).2
  unmarked _ _ _ _ := rfl

/-- A variable is added to the open list. -/
def OutArea.append (area : OutArea) (v : Addr) : OutArea := area.add v (.pair (area.hr + 1))

/-- The variables that are in a list, in the order of their first occurrences. -/
def withinInOrder (old : List Addr) (occs : List (Addr × Bool)) : List Addr :=
  ((occs.map Prod.fst).filter (· ∈ old)).eraseDups

/-- The first occurrence of each of these variables is not below the list whose head cell it is. -/
def FirstOutside (old : List Addr) (occs : List (Addr × Bool)) : Prop :=
  ∀ v ∈ old, ∀ o, occs.find? (fun o => o.1 = v) = some o → o.2 = false

theorem FirstOutside.tail {old old' : List Addr} {o : Addr × Bool} {occs : List (Addr × Bool)}
    (h : FirstOutside old (o :: occs)) (hsub : ∀ v ∈ old', v ∈ old ∧ o.1 ≠ v) : FirstOutside old' occs := by
  intro v hv o' ho'
  refine h v (hsub v hv).1 o' ?_
  rw [List.find?_cons_of_neg (by simpa using (hsub v hv).2)]
  exact ho'

/-- The first occurrence of a variable makes the next one in the order. -/
theorem withinInOrder_cons_mem {old : List Addr} {v : Addr} (hv : v ∈ old) (m : Bool) (occs : List (Addr × Bool)) :
    withinInOrder old ((v, m) :: occs) = v :: withinInOrder (old.filter (· ≠ v)) occs := by
  rw [withinInOrder, List.map_cons, List.filter_cons_of_pos (by simpa using hv), List.eraseDups_cons, List.filter_filter]
  refine congrArg (fun l => v :: List.eraseDups l) (List.filter_congr fun w _ => ?_)
  by_cases hw : w = v
  · simp [hw]
  · simp [hw]

theorem withinInOrder_cons_notMem {old : List Addr} {v : Addr} (hv : v ∉ old) (m : Bool) (occs : List (Addr × Bool)) :
    withinInOrder old ((v, m) :: occs) = withinInOrder old occs := by
  rw [withinInOrder, List.map_cons, List.filter_cons_of_neg (by simpa using hv)]
  rfl

/-- The variables that wait hold `TermFoundVar`, and those that have been found `[]`. -/
structure Waiting (x : WalkData OutArea) (old : List Addr) : Prop where
  held : ∀ v, v ∈ old ↔ x.held v = some .foundVar
  found : ∀ v w, x.held v = some w → w = .foundVar ∨ w = .termNil

theorem varsWithinHooks_found {x : WalkData OutArea} {v : Addr} (h : x.held v = some .foundVar) :
    varsWithinHooks.event x (.occurrence v v false) = .done ((x.withData (x.data.append v)).write v .termNil) := by
  rw [Hooks.event, h]
  exact if_pos ⟨rfl, rfl⟩

theorem varsWithinHooks_run {x : WalkData OutArea} {old : List Addr} (hx : Waiting x old)
    (hplain : ∀ q v, .occurrence q v false ∈ es → q = v) (hfirst : FirstOutside old (es.filterMap WalkEvent.occurs)) :
    ∃ x', varsWithinHooks.run x es = .done x' ∧
      x'.data = (withinInOrder old (es.filterMap WalkEvent.occurs)).foldl OutArea.append x.data := by
  induction es generalizing x old with
  | nil => exact ⟨x, rfl, rfl⟩
  | cons e es ih =>
    have hplain' : ∀ q v, .occurrence q v false ∈ es → q = v := fun q v h => hplain q v (List.mem_cons_of_mem _ h)
    rw [Hooks.run]
    cases e with
    | list ptd0 p marked => exact ih hx hplain' hfirst
    | compound ptd0 p marked => exact ih hx hplain' hfirst
    | occurrence ptd0 v marked =>
      rw [filterMap_occurs_cons] at hfirst ⊢
      have hskip : v ∉ old → FirstOutside old (es.filterMap WalkEvent.occurs) := fun hv =>
        hfirst.tail fun w hw => ⟨hw, fun heq => hv ((show v = w from heq) ▸ hw)⟩
      cases hheld : x.held v with
      | none =>
        have hv : v ∉ old := fun hmem => by cases hheld.symm.trans ((hx.held v).mp hmem)
        rw [withinInOrder_cons_notMem hv, Hooks.event, hheld]
        cases marked <;> exact ih hx hplain' (hskip hv)
      | some w =>
        rcases hx.found v w hheld with rfl | rfl
        · have hv : v ∈ old := (hx.held v).mpr hheld
          have hmarked : marked = false := by
            refine hfirst v hv (v, marked) ?_
            rw [List.find?_cons_of_pos (by simp)]
          subst hmarked
          obtain rfl := hplain ptd0 v (List.mem_cons_self ..)
          rw [withinInOrder_cons_mem hv, List.foldl_cons, varsWithinHooks_found hheld]
          refine ih (x := (x.withData (x.data.append ptd0)).write ptd0 .termNil) ⟨fun w => ?_, fun w w' hw' => ?_⟩ hplain'
            (hfirst.tail fun w hw => ?_)
          · rw [WalkData.write, WalkData.withData]
            by_cases hw : w = ptd0
            · subst hw
              simp [WalkWord.termNil]
            · simpa [Function.update_of_ne hw, hw] using hx.held w
          · rw [WalkData.write, WalkData.withData] at hw'
            by_cases hw : w = ptd0
            · subst hw
              exact .inr (by simpa using hw'.symm)
            · exact hx.found w w' (by simpa [Function.update_of_ne hw] using hw')
          · obtain ⟨hmem, hne⟩ := List.mem_filter.mp hw
            exact ⟨hmem, fun heq => of_decide_eq_true hne heq.symm⟩
        · have hv : v ∉ old := fun hmem => by cases hheld.symm.trans ((hx.held v).mp hmem)
          rw [withinInOrder_cons_notMem hv, Hooks.event, hheld]
          exact ih hx hplain' (hskip hv)

/-- Appending keeps the pairs before. -/
theorem OutArea.foldl_append (vs : List Addr) (area : OutArea) :
    (vs.foldl append area).hr = area.hr + vs.length ∧
      ∀ k < area.hr, (vs.foldl append area).head k = area.head k ∧ (vs.foldl append area).tail k = area.tail k := by
  induction vs generalizing area with
  | nil => exact ⟨rfl, fun k _ => ⟨rfl, rfl⟩⟩
  | cons v vs ih =>
    obtain ⟨hhr, hkeep⟩ := ih (area.append v)
    refine ⟨?_, fun k hk => ?_⟩
    · have hone : (area.append v).hr = area.hr + 1 := rfl
      rw [List.foldl_cons, hhr, hone, List.length_cons]
      omega
    · obtain ⟨hhead, htail⟩ := hkeep k (Nat.lt_succ_of_lt hk)
      rw [List.foldl_cons, hhead, htail]
      exact ⟨Function.update_of_ne (Nat.ne_of_lt hk) _ _, Function.update_of_ne (Nat.ne_of_lt hk) _ _⟩

/-- The list after its last tail has been set. -/
def OutArea.closed (area : OutArea) : OutArea := area.setTail (area.hr - 1) .nil

/-- The list that is closed has what has been appended. -/
theorem OutArea.isList_foldl_append {vs : List Addr} (hvs : vs ≠ []) (area : OutArea) :
    (vs.foldl append area).closed.IsList (.pair area.hr) vs := by
  induction vs generalizing area with
  | nil => exact absurd rfl hvs
  | cons v vs ih =>
    rw [List.foldl_cons]
    obtain ⟨hhr, hkeep⟩ := foldl_append vs (area.append v)
    obtain ⟨hhead, htail⟩ := hkeep area.hr (Nat.lt_succ_self _)
    have hhr' : (area.append v).hr = area.hr + 1 := rfl
    have hv : (vs.foldl append (area.append v)).closed.head area.hr = v := hhead.trans (area.add_head v _)
    have hlist : (vs.foldl append (area.append v)).closed.IsList (.pair area.hr)
        ((vs.foldl append (area.append v)).closed.head area.hr :: vs) := by
      refine .pair ?_
      by_cases hnil : vs = []
      · subst hnil
        have hlast : (area.append v).closed.tail area.hr = .nil := Function.update_self ..
        rw [List.foldl_nil, hlast]
        exact .nil
      · have hpos := List.length_pos_iff.mpr hnil
        have hnext : (vs.foldl append (area.append v)).closed.tail area.hr = .pair (area.append v).hr := by
          refine (Function.update_of_ne ?_ _ _).trans (htail.trans (area.add_tail v _))
          rw [hhr, hhr']
          omega
        rw [hnext]
        exact ih hnil (area.append v)
    rwa [hv] at hlist

theorem isList_closeList {area : OutArea} (hhr : area.hr = 0) (vs : List Addr) :
    (closeList (vs.foldl OutArea.append area) .nil).2.IsList (closeList (vs.foldl OutArea.append area) .nil).1 vs := by
  have hlen := (OutArea.foldl_append vs area).1
  rw [hhr, Nat.zero_add] at hlen
  rw [closeList, hlen]
  by_cases hnil : vs = []
  · rw [if_pos (by rw [hnil]; rfl), hnil]
    exact .nil
  · rw [if_neg fun h => hnil (List.eq_nil_of_length_eq_zero h)]
    have hlist := OutArea.isList_foldl_append hnil area
    rwa [OutArea.closed, hhr, hlen] at hlist

-- ---------------------------------------------------------------------------
-- The specification
-- ---------------------------------------------------------------------------

variable (hp s root) in
/-- The predicates end and leave the term as it was. `ground` holds when `term_variables`
    is empty, `variable_in_term` holds for the variables of the term, and the two lists
    have the variables that are not in `old`, and those that are, in the order of their
    first occurrences. -/
structure WalkersAgree (v : Addr) (old : List Cell) (area : OutArea) : Prop where
  ground : ∃ g t area', isGroundTerm hp s root (g, cellWords hp s) ∧
    termVariables hp s root area ((t, area'), cellWords hp s) ∧ (g = true ↔ t = .nil)
  varIn : ∃ b, varInTerm hp s root v (b, cellWords hp s) ∧ (b = true ↔ HasVar hp s root v)
  lists : ∃ occs, Occurrences hp s [] [root] occs ∧
    (∃ t area', newVariablesInTerm hp s root old area ((t, area'), cellWords hp s) ∧
      area'.IsList t (newInOrder (oldVars s old) occs)) ∧
    ∃ t area', variablesWithinTerm hp s root old area ((t, area'), cellWords hp s) ∧
      area'.IsList t (withinInOrder (oldVars s old) occs)

variable (hp s root) in
/-- The term is atomic; or the elements of the list are different variables and the term
    has no variables; or they are, the walk does not start again, at most one variable is
    new, and it is bound before it occurs again, and no variable of the list occurs first
    below the list whose head cell it is. -/
def ListsInOrder (old : List Cell) : Prop :=
  rootKind hp s root = .primitive ∨ DistinctVars s old ∧
    ((∀ v, ¬ HasVar hp s root v) ∨ Fits hp s root 1024 ∧ ∃ occs, Occurrences hp s [] [root] occs ∧
      NewOnce (oldVars s old) occs ∧ FirstOutside (oldVars s old) occs)

/-- Without occurrences such hooks do nothing. -/
theorem Hooks.run_quiet {σ ω : Type} {h : Hooks σ ω} (hlist : h.list = .empty) (hcompound : h.compound = .empty)
    (hes : es.filterMap WalkEvent.occurs = []) (x : WalkData σ) : h.run x es = .done x := by
  induction es with
  | nil => rfl
  | cons e es ih =>
    cases e with
    | list ptd0 p marked =>
      rw [run, event, hlist]
      exact ih hes
    | compound ptd0 p marked =>
      rw [run, event, hcompound]
      exact ih hes
    | occurrence ptd0 v marked => cases hes

/-- What the walk starts with the last time, without occurrences. -/
theorem Hooks.restarts_quiet {σ ω : Type} {h : Hooks σ ω} (hlist : h.list = .empty) (hcompound : h.compound = .empty)
    (hes : es.filterMap WalkEvent.occurs = []) (P : σ → Prop) (hreset : ∀ data, P data → P (h.reset data))
    {x x₀ : WalkData σ} (hreach : ReflTransGen (h.Restarts es) x x₀) (hx : P x.data) : P x₀.data := by
  induction hreach with
  | refl => exact hx
  | tail _ hstep ih =>
    obtain ⟨es₁, x₁, hpre, hrun, rfl⟩ := hstep
    have hes₁ : es₁.filterMap WalkEvent.occurs = [] := by
      rw [List.filterMap_eq_nil_iff] at hes ⊢
      exact fun e he => hes e (hpre.subset he)
    obtain rfl := WalkOutcome.done.inj ((Hooks.run_quiet hlist hcompound hes₁ _).symm.trans hrun)
    exact hreset _ ih

theorem HasEvents.occurs_eq_nil (hv : HasEvents hp s [] [(root, root)] es) (hnone : ∀ v, ¬ HasVar hp s root v) :
    es.filterMap WalkEvent.occurs = [] := by
  rw [List.eq_nil_iff_forall_not_mem]
  rintro ⟨v, m⟩ hmem
  exact hnone v (hv.hasVar_iff_occurs.mpr ⟨m, hmem⟩)

theorem unbound_reverse (s : Store) (old : List Cell) : ∀ a ∈ (oldVars s old).reverse, s.cell a = .ref a := fun _ ha =>
  unbound_of_mem_oldVars (List.mem_reverse.mp ha)

variable {old : List Cell}

theorem HasEvents.newVariablesInTerm (hv : HasEvents hp s [] [(root, root)] es) (hR : Closed hp R s.cell) (hroot : root ∈ R)
    (hkind : rootKind hp s root ≠ .primitive) (hold : DistinctVars s old) (area : OutArea)
    (hright : (∀ v, ¬ HasVar hp s root v) ∨
      Fits hp s root 1024 ∧ NewOnce (oldVars s old) (es.filterMap WalkEvent.occurs)) :
    ∃ t area', Yap.newVariablesInTerm hp s root old area ((t, area'), cellWords hp s) ∧
      area'.IsList t (newInOrder (oldVars s old) (es.filterMap WalkEvent.occurs)) := by
  obtain ⟨x₀, hreach, hfits, hres⟩ := hv.termVisit hR hroot newVarsHooks_silent
    (WalkData.ofBound_sound (⟨area.restart, .nil⟩ : NewVarsData) (unbound_reverse s old))
  have hfound : ∃ x', newVarsHooks.run x₀ es = .done x' ∧
      x'.data.area.IsList x'.data.output (newInOrder (oldVars s old) (es.filterMap WalkEvent.occurs)) := by
    rcases hright with hnone | ⟨hfit, honce⟩
    · have hnil := hv.occurs_eq_nil hnone
      have houtput : x₀.data.output = .nil := 
        Hooks.restarts_quiet rfl rfl hnil (fun data => data.output = .nil) (fun _ h => h) hreach rfl
      refine ⟨x₀, Hooks.run_quiet rfl rfl hnil x₀, ?_⟩
      rw [hnil, houtput]
      exact .nil
    · obtain rfl := hfits hfit
      have hheld : ∀ v, v ∈ (oldVars s old).reverse ↔
          (WalkData.ofBound (⟨area.restart, .nil⟩ : NewVarsData) (oldVars s old).reverse).held v ≠ none := by
        intro v
        rw [WalkData.ofBound_held]
        split
        case isTrue hmem => exact iff_of_true hmem fun h => by cases h
        case isFalse hmem => exact iff_of_false hmem fun hne => hne rfl
      obtain ⟨x', hrun, hdata⟩ := newVarsHooks_run hheld es
      obtain ⟨hcollect, hlen⟩ := collect_eq (fun v => List.mem_reverse) honce
      refine ⟨x', hrun, ?_⟩
      rw [hdata, hcollect]
      exact isList_foldl_add rfl hlen
  obtain ⟨x', hrun, hlist⟩ := hfound
  rw [hrun, WalkData.ofBound_beneath] at hres
  refine ⟨x'.data.output, x'.data.area, ?_, hlist⟩
  unfold Yap.newVariablesInTerm
  split
  case h_1 heq => exact absurd heq hkind
  case h_2 => exact ⟨_, returns_turnNew hold, hres⟩

theorem HasEvents.variablesWithinTerm (hv : HasEvents hp s [] [(root, root)] es) (hR : Closed hp R s.cell) (hroot : root ∈ R)
    (hkind : rootKind hp s root ≠ .primitive) (hold : DistinctVars s old) (area : OutArea)
    (hright : (∀ v, ¬ HasVar hp s root v) ∨
      Fits hp s root 1024 ∧ FirstOutside (oldVars s old) (es.filterMap WalkEvent.occurs)) :
    ∃ t area', Yap.variablesWithinTerm hp s root old area ((t, area'), cellWords hp s) ∧
      area'.IsList t (withinInOrder (oldVars s old) (es.filterMap WalkEvent.occurs)) := by
  obtain ⟨x₀, hreach, hfits, hres⟩ := hv.termVisit hR hroot varsWithinHooks_silent
    (WalkData.ofBound_sound area.restart (unbound_reverse s old))
  have hfound : ∃ x', varsWithinHooks.run x₀ es = .done x' ∧
      (closeList x'.data .nil).2.IsList (closeList x'.data .nil).1
        (withinInOrder (oldVars s old) (es.filterMap WalkEvent.occurs)) := by
    rcases hright with hnone | ⟨hfit, hfirst⟩
    · have hnil := hv.occurs_eq_nil hnone
      have hhr : x₀.data.hr = 0 := 
        Hooks.restarts_quiet rfl rfl hnil (fun data => data.hr = 0) (fun _ _ => rfl) hreach rfl
      refine ⟨x₀, Hooks.run_quiet rfl rfl hnil x₀, ?_⟩
      rw [hnil]
      exact isList_closeList hhr []
    · obtain rfl := hfits hfit
      have hwaiting : Waiting (WalkData.ofBound area.restart (oldVars s old).reverse) (oldVars s old) := by
        refine ⟨fun v => ?_, fun v w hw => ?_⟩
        · rw [← List.mem_reverse, WalkData.ofBound_held]
          split
          case isTrue hmem => exact iff_of_true hmem rfl
          case isFalse hmem => exact iff_of_false hmem fun h => by cases h
        · rw [WalkData.ofBound_held] at hw
          split at hw
          case isTrue => exact .inl (Option.some.inj hw).symm
          case isFalse => cases hw
      obtain ⟨x', hrun, hdata⟩ := varsWithinHooks_run hwaiting (fun q v h => hv.ptd0_eq h) hfirst
      refine ⟨x', hrun, ?_⟩
      rw [hdata]
      exact isList_closeList rfl _
  obtain ⟨x', hrun, hlist⟩ := hfound
  rw [hrun, WalkData.ofBound_beneath] at hres
  refine ⟨_, _, ?_, hlist⟩
  unfold Yap.variablesWithinTerm
  split
  case h_1 heq => exact absurd heq hkind
  case h_2 => exact ⟨_, returns_turnWithin hold, hres⟩

/-- On finite term graphs the predicates agree if the lists are in order. -/
theorem walkers_agree (hR : Closed hp R s.cell) (hroot : root ∈ R) (v : Addr) (area : OutArea)
    (h : ListsInOrder hp s root old) : WalkersAgree hp s root v old area := by
  obtain ⟨g, hg, hground⟩ := exists_isGroundTerm hR hroot
  obtain ⟨t, area', ht, hvars⟩ := exists_termVariables hR hroot area
  obtain ⟨es, hv⟩ := exists_visits hR [] [(root, root)] (List.forall_mem_singleton.mpr hroot)
  refine ⟨⟨g, t, area', hg, ht, hground.trans hvars.symm⟩, exists_varInTerm hR hroot v, _, hv.occurrences, ?_⟩
  by_cases hkind : rootKind hp s root = .primitive
  · have hnil : es.filterMap WalkEvent.occurs = [] := by
      refine hv.occurs_eq_nil fun v hvar => ?_
      rcases hvar.rootKind with h | h
      · cases hkind.symm.trans h
      · cases hkind.symm.trans h
    rw [hnil]
    refine ⟨⟨.nil, area, ?_, .nil⟩, .nil, area, ?_, .nil⟩
    · simp only [newVariablesInTerm, hkind]
    · simp only [variablesWithinTerm, hkind]
  · obtain ⟨hold, hright⟩ := h.resolve_left hkind
    have hright' : (∀ v, ¬ HasVar hp s root v) ∨ Fits hp s root 1024 ∧
        NewOnce (oldVars s old) (es.filterMap WalkEvent.occurs) ∧
        FirstOutside (oldVars s old) (es.filterMap WalkEvent.occurs) := by
      rcases hright with hnone | ⟨hfits, occs, hoccs, honce, hfirst⟩
      · exact .inl hnone
      · obtain rfl := hoccs.unique hv.occurrences
        exact .inr ⟨hfits, honce, hfirst⟩
    refine ⟨hv.newVariablesInTerm hR hroot hkind hold area ?_, hv.variablesWithinTerm hR hroot hkind hold area ?_⟩
    · rcases hright' with hnone | ⟨hfits, honce, -⟩
      · exact .inl hnone
      · exact .inr ⟨hfits, honce⟩
    · rcases hright' with hnone | ⟨hfits, -, hfirst⟩
      · exact .inl hnone
      · exact .inr ⟨hfits, hfirst⟩

/-- `[X|Y]`: the word is in the cell 0, the variables are the cells 1 and 2. -/
def twoVars : Addr → Option Nonvar
  | 0 => some (.pair 1)
  | _ => none

theorem closed_twoVars : Closed stringHeap {0, 1, 2} (Store.ofWords twoVars).cell := by
  intro a ha b hb
  obtain rfl | rfl | rfl : a = 0 ∨ a = 1 ∨ a = 2 := by simpa using ha
  · obtain rfl | rfl : b = 1 ∨ b = 2 := by simpa [Store.ofWords, twoVars, Cell.cells] using hb
    · decide
    · decide
  · obtain rfl : b = 1 := by simpa [Store.ofWords, twoVars, Cell.cells] using hb
    decide
  · obtain rfl : b = 2 := by simpa [Store.ofWords, twoVars, Cell.cells] using hb
    decide

theorem occurrences_twoVars : Occurrences stringHeap (.ofWords twoVars) [] [0] [(1, true), (2, false)] := by
  have hderef : (Store.ofWords twoVars).deref (.ref 0) = .nonvar (.pair 1) := deref_word rfl
  have hnot : Place.arg 1 ∉ ([] : List Place) := List.not_mem_nil
  have hvars : Occurrences stringHeap (.ofWords twoVars) [.arg 1] [1, 2] [(1, true), (2, false)] :=
    .var (Store.deref_of_unbound rfl) (.var (Store.deref_of_unbound rfl) .nil)
  exact .down hderef rfl hnot hvars .nil

theorem oldVars_twoVars : oldVars (.ofWords twoVars) [.ref 2] = [2] :=
  oldVars_cons (Store.deref_of_unbound rfl) []

/-- `new_variables_in_term([Y], [X|Y], L)` and `variables_within_term([Y], [X|Y], L)`. -/
theorem walkers_agree_twoVars : WalkersAgree stringHeap (.ofWords twoVars) 0 1 [.ref 2] emptyArea := by
  refine walkers_agree closed_twoVars (by decide) 1 emptyArea (.inr ⟨⟨?_, ?_⟩, .inr ⟨?_, _, occurrences_twoVars, ?_, ?_⟩⟩)
  · exact List.forall_mem_singleton.mpr ⟨2, Store.deref_of_unbound rfl⟩
  · rw [oldVars_twoVars]
    exact List.nodup_singleton 2
  · exact fits_of_card closed_twoVars (by decide) (by decide)
  · rw [oldVars_twoVars]
    exact .inl rfl
  · rw [oldVars_twoVars]
    intro v hv o ho
    obtain rfl := List.mem_singleton.mp hv
    exact Option.some.inj ho ▸ rfl

/-- `new_variables_in_term([], [X|Y], L)` gives `[Y,X]`. -/
theorem not_walkers_agree :
    ¬ ∀ (hp : Heap) (s : Store) (root v : Addr) (old : List Cell) (area : OutArea) (R : Finset Addr),
      Closed hp R s.cell → root ∈ R → WalkersAgree hp s root v old area := by
  intro h
  obtain ⟨occs, hoccs, ⟨t, area', hout, hlist⟩, -⟩ :=
    (h stringHeap (.ofWords twoVars) 0 1 [] emptyArea {0, 1, 2} closed_twoVars (by decide)).lists
  obtain rfl := hoccs.unique occurrences_twoVars
  obtain ⟨bound, hbind, hwalk⟩ : ∃ bound, Machine.Returns (BindState.turnNew (.ofWords twoVars)) ⟨[], []⟩ bound ∧
      termVisit newVarsHooks 0 (boundWords stringHeap (.ofWords twoVars) bound) bound ⟨emptyArea.restart, .nil⟩
        ((t, area'), cellWords stringHeap (.ofWords twoVars)) := by
    have hkind : rootKind stringHeap (.ofWords twoVars) 0 = .compound := rootKind_of_pair (deref_word rfl)
    simpa only [newVariablesInTerm, hkind] using hout
  obtain rfl := hbind.unique (Machine.returns_of_exit rfl)
  have hrun : (Machine.run (WalkState.turn · newVarsHooks 0)  12
      (.init 0 (boundWords stringHeap (.ofWords twoVars) []) [] ⟨emptyArea.restart, .nil⟩)).map
        (fun r => (r.1.1, r.1.2.head 1)) = some (.pair 1, 2) := by decide
  obtain ⟨r, hr, hvalue⟩ := Option.map_eq_some_iff.mp hrun
  obtain rfl := hwalk.unique ⟨12, hr⟩
  obtain ⟨rfl, hhead⟩ := Prod.mk.inj hvalue
  generalize hvs : newInOrder (oldVars (.ofWords twoVars) []) [(1, true), (2, false)] = vs at hlist
  cases hlist with
  | pair _ =>
    have hfirst : area'.head 1 = 1 := (List.cons.inj hvs).1.symm
    cases hfirst.symm.trans hhead

end Yap
