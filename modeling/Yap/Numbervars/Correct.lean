-- SUMMARY: When `numbervars/3` numbers the variables of a term as it should and `unnumbervars/2` undoes it.
import Yap.Numbervars.Variants

/-!
# Numbers and back

The number that the caller passes is not used, a variable whose cell is the head cell of
an open list loses its number, and numbers are given again when the walk starts again
with a larger stack. `unnumbervars` does not undo the binding of a term that is a
variable.
-/

namespace Yap

open Relation

-- ---------------------------------------------------------------------------
-- What is claimed of the predicates
-- ---------------------------------------------------------------------------

/-- The store after the variables have been bound to the structures of the numbers from `n1` on. -/
structure Numbered (hp : Heap) (s : Store) (root : Addr) (n1 : ℕ) (vars : List Addr) (hp' : Heap) (s' : Store) : Prop where
  bound : ∀ (k : ℕ) (v : Addr), vars[k]? = some v → ∃ p n, s'.cell v = .nonvar (.appl p) ∧ hp.hr ≤ p ∧ p + 2 ≤ hp'.hr ∧
    hp'.functorAt p = .functor functorDollarVar ∧ s'.cell (p + 1) = .nonvar (.int n) ∧ n.toInt = n1 + k
  apart : ∀ v ∈ vars, ∀ w ∈ vars, v ≠ w → ∀ p q, s'.cell v = .nonvar (.appl p) → s'.cell w = .nonvar (.appl q) →
    p + 2 ≤ q ∨ q + 2 ≤ p
  other : ∀ a < hp.hr, a ∉ vars → s'.cell a = s.cell a
  functors : ∀ p < hp.hr, hp'.functorAt p = hp.functorAt p
  ground : ∀ v, ¬ HasVar hp' s' root v

/-- `numbervars` numbers the variables in their order, and if there is no `'$VAR'/1` in
    the term, `unnumbervars` returns a variant of it. -/
def NumbersAndBack (hb : Addr) (hp : Heap) (s : Store) (root : Addr) (n1 : ℕ) : Prop :=
  ∃ occs hp' s', Occurrences hp s [] [root] occs ∧
    numberVars hb hp s root n1 (n1 + (varOrder occs).length, hp'.hr, cellWords hp' s') ∧
    Numbered hp s root n1 (varOrder occs) hp' s' ∧
    ((∀ p, LeadTo hp s [root] (.appl p) → hp.functorAt p ≠ .functor functorDollarVar) →
      ∀ noInteger asp, ∃ r, unnumberVars hp' s' root noInteger asp r ∧ IsVariant hp s root r.heap r.cell r.term)

/-- The walk does not start again after the first variable, no variable is first come upon
    in a marked cell, and the numbers fit into words. -/
def Undisturbed (hp : Heap) (s : Store) (root : Addr) : Prop :=
  ∃ vis, HasVisits hp s [] [root] vis ∧ FirstOutside ((visitedVars vis).map Prod.fst) (visitedVars vis) ∧ StackEnough vis ∧
    (varOrder (visitedVars vis)).length ≤ 2 ^ 57

variable {hp : Heap} {s : Store} {R : Finset Addr} {root : Addr} {occs : List (Addr × Bool)}

theorem rootKind_eq_var_or (hp : Heap) (s : Store) (root : Addr) :
    (∃ v, rootKind hp s root = .var v ∧ s.deref (.ref root) = .ref v) ∨
    ∃ d, s.deref (.ref root) = .nonvar d ∧ (rootKind hp s root = .primitive ∨ rootKind hp s root = .compound) := by
  cases hd : s.deref (.ref root) with
  | ref v => exact .inl ⟨v, rootKind_var.mpr hd, rfl⟩
  | nonvar d =>
    refine .inr ⟨d, rfl, ?_⟩
    cases hkind : rootKind hp s root with
    | var v => cases hd.symm.trans (rootKind_var.mp hkind)
    | primitive => exact .inl rfl
    | compound => exact .inr rfl

-- ---------------------------------------------------------------------------
-- Terms
-- ---------------------------------------------------------------------------

section

variable (hR : BelowHr hp s R) (hroot : root ∈ R)
include hR hroot

theorem BelowHr.exists_visits : ∃ vis, HasVisits hp s [] [root] vis := by
  obtain ⟨es, hes⟩ := Yap.exists_visits hR.closed [] [(root, root)] (List.forall_mem_singleton.mpr hroot)
  exact hes.exists_visits

theorem Occurrences.hasVar_iff (hoccs : Occurrences hp s [] [root] occs) {v : Addr} :
    HasVar hp s root v ↔ v ∈ varOrder occs := by
  obtain ⟨es, hes⟩ := exists_visits hR.closed [] [(root, root)] (List.forall_mem_singleton.mpr hroot)
  rw [hes.hasVar_iff_occurs, hoccs.unique hes.occurrences, mem_varOrder, List.mem_map]
  constructor
  · rintro ⟨m, hm⟩
    exact ⟨_, hm, rfl⟩
  · rintro ⟨⟨w, m⟩, hm, rfl⟩
    exact ⟨m, hm⟩

/-- The cells of a term whose variables have been numbered in their order. -/
theorem Occurrences.exists_numberedTerm (hoccs : Occurrences hp s [] [root] occs) {g : Stage}
    (hnumbers : g.Numbers hp s ((varOrder occs).map some)) (hsmall : (varOrder occs).length ≤ 2 ^ 57) :
    ∃ R₀, NumberedTerm hp s R₀ g (varOrder occs) ∧ root ∈ R₀ ∧ ∀ a ∈ R₀, CellOf hp s root a := by
  obtain ⟨R₀, hR₀, hroot₀, hcells⟩ := hR.exists_cellOf hroot
  refine ⟨R₀, ⟨hR₀, hnumbers, fun v hv => ?_, fun v hv hcell => ?_, nodup_varOrder _, hsmall⟩, hroot₀, hcells⟩
  · exact (hoccs.var_mem hR (List.forall_mem_singleton.mpr hroot) v (mem_varOrder.mp hv)).2
  · exact (hoccs.hasVar_iff hR hroot).mp ((hcells v hv).hasVar hcell)

end

/-- The store when the variables have been numbered from 0 on. -/
theorem NumberedTerm.numbered {g : Stage} {vars : List Addr} (h : NumberedTerm hp s R g vars) (hroot : root ∈ R) {n1 : ℕ}
    (hn1 : n1 = 0 ∨ vars = []) : Numbered hp s root n1 vars g.heap g.store where
  bound k v hk := by
    have hlt := (List.getElem?_eq_some_iff.mp hk).1
    have hhr := h.number_lt hlt
    refine ⟨_, _, h.cell_var hk, Nat.le_add_left .., hhr, h.functorAt_number hlt, h.cell_number hlt, ?_⟩
    rw [toInt_mkInt (hlt.trans_le h.small)]
    rcases hn1 with rfl | rfl
    · rw [Nat.cast_zero, zero_add]
    · cases hlt
  apart v hv w hw hne p q hp hq := by
    obtain ⟨k, hk, hkv⟩ := exists_getElem?_eq hv
    obtain ⟨l, hl, hlw⟩ := exists_getElem?_eq hw
    have hkl : k ≠ l := by
      rintro rfl
      exact hne (Option.some.inj (hkv.symm.trans hlw))
    obtain rfl := Nonvar.appl.inj (Cell.nonvar.inj (hp.symm.trans (h.cell_var hkv)))
    obtain rfl := Nonvar.appl.inj (Cell.nonvar.inj (hq.symm.trans (h.cell_var hlw)))
    have hlt : 2 * k + 2 ≤ 2 * l ∨ 2 * l + 2 ≤ 2 * k := by omega
    rcases hlt with hlt | hlt
    · exact .inl ((Nat.add_right_comm ..).le.trans (Nat.add_le_add_right hlt _))
    · exact .inr ((Nat.add_right_comm ..).le.trans (Nat.add_le_add_right hlt _))
  other a ha hmem := by
    refine h.numbers.other a ha fun hmem' => ?_
    obtain ⟨v, hv, heq⟩ := List.mem_map.mp hmem'
    exact hmem (Option.some.inj heq ▸ hv)
  functors := h.numbers.functors
  ground := h.not_hasVar hroot

-- ---------------------------------------------------------------------------
-- The condition is enough
-- ---------------------------------------------------------------------------

section

variable {hb : Addr} {n1 : ℕ} (hR : BelowHr hp s R) (hroot : root ∈ R)
include hR hroot

/-- If the variables get the numbers in their order, all is as it should be. -/
theorem numbersAndBack_of_numbers {g : Stage} {d : Nonvar} (hoccs : Occurrences hp s [] [root] occs)
    (hnumbers : g.Numbers hp s ((varOrder occs).map some)) (hsmall : (varOrder occs).length ≤ 2 ^ 57)
    (hn1 : n1 = 0 ∨ varOrder occs = []) (hd : s.deref (.ref root) = .nonvar d)
    (hreturns : numberVars hb hp s root n1 (n1 + (varOrder occs).length, g.heap.hr, cellWords g.heap g.store)) :
    NumbersAndBack hb hp s root n1 := by
  obtain ⟨R₀, hterm, hroot₀, hcells⟩ := hoccs.exists_numberedTerm hR hroot hnumbers hsmall
  refine ⟨occs, g.heap, g.store, hoccs, hreturns, hterm.numbered hroot₀ hn1, fun hno noInteger asp => ?_⟩
  have hnumber : ∀ a ∈ R₀, ∀ p, s.cell a = .nonvar (.appl p) → hp.functorAt p ≠ .functor functorDollarVar :=
    fun a ha p hcell => hno p ((hcells a ha).leadTo hcell)
  have hd' : g.store.deref (.ref root) = .nonvar d := by
    rcases hterm.deref_eq hroot₀ with ⟨_, v, _, _, hv, _⟩ | ⟨e, he, he'⟩
    · cases hd.symm.trans hv
    · exact he'.trans (he.symm.trans hd)
  have hne : ∀ p, d = .appl p → g.heap.functorAt p ≠ .functor functorDollarVar := by
    rintro p rfl
    rw [hterm.numbers.functors p (hR.appl_lt hroot hd)]
    exact hno p ⟨root, List.mem_singleton_self _, _, hd, .refl⟩
  have hroot' : root ∈ NumberedTerm.cells hp R₀ (varOrder occs) := NumberedTerm.mem_cells.mpr (.inl hroot₀)
  obtain ⟨org, asp', max, r, hr, hunnumbers⟩ := (hterm.source hnumber).exists_unnumbers hroot' hd' hne noInteger asp
  exact ⟨r, hr, hterm.isVariant hnumber hunnumbers hroot₀ hd' fun v hv => (hoccs.hasVar_iff hR hroot).mp hv⟩

/-- An atomic term. -/
theorem numbersAndBack_of_primitive (h : rootKind hp s root = .primitive) : NumbersAndBack hb hp s root n1 := by
  obtain ⟨v, hv, -⟩ | ⟨d, hd, -⟩ := rootKind_eq_var_or hp s root
  · cases h.symm.trans hv
  have hnil := cells_of_primitive h hd
  have hoccs : Occurrences hp s [] [root] [] := .leaf hd hnil .nil
  refine numbersAndBack_of_numbers hR hroot hoccs (Stage.numbers_start hp s []) (Nat.zero_le _) (.inr rfl) hd ?_
  rw [numberVars, h]
  change ((n1 : ℤ) + (0 : ℕ), hp.hr, cellWords hp s) = _
  rw [Nat.cast_zero, add_zero]

theorem HasVisits.returns_init {vis : List Visit} (hv : HasVisits hp s [] [root] vis) (hb : Addr) (hstack : StackEnough vis) :
    Machine.Returns (WalkState.numberTurn · hb hp.hr root) (.init root (cellWords hp s) [] ⟨0, hp.hr⟩)
      (⟨(Stage.final hp s hb vis).vno, (Stage.final hp s hb vis).heap.hr⟩,
        cellWords (Stage.final hp s hb vis).heap (Stage.final hp s hb vis).store) :=
  hv.returns_final hR hroot hb hstack

/-- A compound with nothing that disturbs the numbers. -/
theorem numbersAndBack_of_undisturbed (h : rootKind hp s root = .compound) (hn1 : n1 = 0)
    (hundisturbed : Undisturbed hp s root) : NumbersAndBack hb hp s root n1 := by
  obtain ⟨vis, hv, hfirst, hstack, hsmall⟩ := hundisturbed
  obtain ⟨v, hkind, -⟩ | ⟨d, hd, -⟩ := rootKind_eq_var_or hp s root
  · cases h.symm.trans hkind
  have hnumbers := hv.final_numbers hR hroot hb
  rw [hfirst.given_eq] at hnumbers
  refine numbersAndBack_of_numbers hR hroot hv.occurrences hnumbers hsmall (.inl hn1) hd ?_
  rw [numberVars, h]
  refine ⟨_, _, ?_, hv.returns_init hR hroot hb hstack⟩
  have hvno := hnumbers.vno_eq
  rw [List.length_map] at hvno
  rw [hn1, Nat.cast_zero, zero_add, hvno]

end

-- ---------------------------------------------------------------------------
-- The condition is needed
-- ---------------------------------------------------------------------------

theorem disjoint_of_apart {p q : ℕ} (h : p + 2 ≤ q ∨ q + 2 ≤ p) : Disjoint ({p, p + 1} : Finset ℕ) {q, q + 1} := by
  rw [Finset.disjoint_left]
  intro a ha ha'
  rw [Finset.mem_insert, Finset.mem_singleton] at ha ha'
  omega

/-- Structures that do not overlap take two cells each. -/
theorem Numbered.two_mul_le {n1 : ℕ} {vars : List Addr} {hp' : Heap} {s' : Store} (h : Numbered hp s root n1 vars hp' s')
    (hnodup : vars.Nodup) (hle : hp.hr ≤ hp'.hr) : hp.hr + 2 * vars.length ≤ hp'.hr := by
  let block : Addr → Finset ℕ := fun v => {(s'.cell v).rep, (s'.cell v).rep + 1}
  have hblock : ∀ v ∈ vars, ∃ p : ℕ, s'.cell v = .nonvar (.appl p) ∧ block v = {p, p + 1} ∧ hp.hr ≤ p ∧ p + 2 ≤ hp'.hr := by
    intro v hv
    obtain ⟨k, -, hk⟩ := exists_getElem?_eq hv
    obtain ⟨p, n, hcell, hbase, hlt, -⟩ := h.bound k v hk
    exact ⟨p, hcell, by simp only [block, hcell, Cell.rep], hbase, hlt⟩
  have hdisjoint : ∀ v ∈ vars.toFinset, ∀ w ∈ vars.toFinset, v ≠ w → Disjoint (block v) (block w) := by
    intro v hv w hw hne
    obtain ⟨p, hp, hblockv, -⟩ := hblock v (List.mem_toFinset.mp hv)
    obtain ⟨q, hq, hblockw, -⟩ := hblock w (List.mem_toFinset.mp hw)
    rw [hblockv, hblockw]
    exact disjoint_of_apart (h.apart v (List.mem_toFinset.mp hv) w (List.mem_toFinset.mp hw) hne p q hp hq)
  have hsub : vars.toFinset.biUnion block ⊆ Finset.Ico hp.hr hp'.hr := by
    intro a ha
    obtain ⟨v, hv, hmem⟩ := Finset.mem_biUnion.mp ha
    obtain ⟨p, -, hblockv, hbase, hlt⟩ := hblock v (List.mem_toFinset.mp hv)
    rw [hblockv, Finset.mem_insert, Finset.mem_singleton] at hmem
    rw [Finset.mem_Ico]
    rcases hmem with rfl | rfl
    · exact ⟨hbase, (Nat.lt_add_of_pos_right two_pos).trans_le hlt⟩
    · exact ⟨hbase.trans (Nat.le_succ _), hlt⟩
  have hcard : (vars.toFinset.biUnion block).card = 2 * vars.length := by
    rw [Finset.card_biUnion hdisjoint, Finset.sum_congr rfl fun v hv => ?_, Finset.sum_const, List.toFinset_card_of_nodup hnodup,
      smul_eq_mul, mul_comm]
    exact Finset.card_pair (Nat.lt_succ_self _).ne
  have hcount := Finset.card_le_card hsub
  rw [hcard, Nat.card_Ico] at hcount
  calc hp.hr + 2 * vars.length ≤ hp.hr + (hp'.hr - hp.hr) := Nat.add_le_add_left hcount _
    _ = hp'.hr := Nat.add_sub_cancel' hle

/-- The copy of a word is no variable. -/
theorem exists_term_of_unnumberVars {noInteger : Cell → ℤ} {asp : ℤ → Option Cell} {r : Unnumbered} {d : Nonvar}
    (hd : s.deref (.ref root) = .nonvar d) (h : unnumberVars hp s root noInteger asp r) : ∃ e, r.term = .nonvar e := by
  have hcopies : ∀ {t tf : Nonvar} {mutable : Bool} {heap : Heap} {pt0 pt0End ptf : Addr},
      UnnumberTerm.copies hp s false noInteger asp (.nonvar t) (.nonvar tf) mutable heap pt0 pt0End ptf r →
        ∃ e, r.term = .nonvar e := by
    rintro t tf mutable heap pt0 pt0End ptf ⟨res, st, -, rfl⟩
    by_cases hground : res.ground ∧ mutable = false
    · exact ⟨t, by rw [if_pos hground]⟩
    · exact ⟨tf, by rw [if_neg hground]⟩
  rw [unnumberVars, unnumberTerm, hd] at h
  cases d with
  | int n => exact ⟨_, congrArg Unnumbered.term h⟩
  | atom a => exact ⟨_, congrArg Unnumbered.term h⟩
  | pair p => exact hcopies h
  | appl p =>
    cases hf : hp.functorAt p with
    | blob b =>
      simp only [hf] at h
      exact ⟨_, congrArg Unnumbered.term h⟩
    | functor f =>
      simp only [hf] at h
      exact hcopies h

section

variable {hb : Addr} {n1 : ℕ} (hR : BelowHr hp s R) (hroot : root ∈ R)
include hR hroot

omit hR hroot in
/-- A variable is not a number again. -/
theorem not_numbersAndBack_of_var {v : Addr} (hd : s.deref (.ref root) = .ref v) : ¬ NumbersAndBack hb hp s root n1 := by
  rintro ⟨occs, hp', s', -, -, hnumbered, hback⟩
  have hno : ∀ p, LeadTo hp s [root] (.appl p) → hp.functorAt p ≠ .functor functorDollarVar := by
    rintro p ⟨a, ha, e, he, -⟩
    obtain rfl := List.mem_singleton.mp ha
    cases hd.symm.trans he
  obtain ⟨r, hr, ρ, rel, -, hcorresponds, -⟩ := hback hno (fun _ => 0) fun _ => none
  rw [Corresponds, hd] at hcorresponds
  cases hd' : s'.deref (.ref root) with
  | ref w => exact hnumbered.ground w ⟨root, .inl rfl, hd'⟩
  | nonvar d =>
    obtain ⟨e, he⟩ := exists_term_of_unnumberVars hd' hr
    have hresolves : Resolves r.cell r.term (.ref (ρ v)) := hcorresponds
    rw [he] at hresolves
    cases hresolves

omit hR hroot in
theorem returns_of_numberVars (h : rootKind hp s root = .compound) {vno : ℤ} {hr : Addr} {m : Place → WalkWord}
    (hreturns : numberVars hb hp s root n1 (vno, hr, m)) :
    Machine.Returns (WalkState.numberTurn · hb hp.hr root) (.init root (cellWords hp s) [] ⟨0, hp.hr⟩) (⟨vno, hr⟩, m) := by
  rw [numberVars, h] at hreturns
  obtain ⟨data, m', heq, hreturns⟩ := hreturns
  obtain ⟨rfl, rfl, rfl⟩ : vno = data.vno ∧ hr = data.hr ∧ m = m' := by simpa using heq
  exact hreturns

/-- The number and the memory that are returned when the stack is large enough. -/
theorem final_of_numbersAndBack (h : rootKind hp s root = .compound) {vis : List Visit} (hv : HasVisits hp s [] [root] vis)
    (hstack : StackEnough vis) {vno : ℤ} {hp' : Heap} {s' : Store}
    (hreturns : numberVars hb hp s root n1 (vno, hp'.hr, cellWords hp' s')) :
    vno = (given [] (visitedVars vis)).length ∧ s'.cell = (Stage.final hp s hb vis).store.cell := by
  obtain ⟨hdata, hm⟩ := Prod.mk.inj
    ((returns_of_numberVars h hreturns).unique (hv.returns_init hR hroot hb hstack))
  refine ⟨?_, funext fun a => ?_⟩
  · rw [← (hv.final_numbers hR hroot hb).vno_eq]
    exact congrArg NumberData.vno hdata
  · exact WalkWord.cell.inj (congrFun hm (.arg a))

/-- What has been numbered from 0 on has not been disturbed. -/
theorem undisturbed_of_numbersAndBack (h : rootKind hp s root = .compound) (hback : NumbersAndBack hb hp s root 0) :
    Undisturbed hp s root := by
  obtain ⟨occs, hp', s', hoccs, hreturns, hnumbered, -⟩ := hback
  obtain ⟨vis, hv⟩ := hR.exists_visits hroot
  obtain rfl := hoccs.unique hv.occurrences
  rw [Nat.cast_zero, zero_add] at hreturns
  have hnodup := nodup_varOrder (visitedVars vis)
  rcases hv.stackEnough_or hR hroot hb with hstack | ⟨max, g, hpos, hreach⟩
  · obtain ⟨hlen, hcell⟩ := final_of_numbersAndBack hR hroot h hv hstack hreturns
    have hnumbers := hv.final_numbers hR hroot hb
    have hvars := hv.var_below hR hroot
    refine ⟨vis, hv, firstOutside_of_given (by exact_mod_cast hlen.ge) fun v hmem => ?_, hstack, ?_⟩
    · obtain ⟨hlt, hunbound⟩ := hvars v (mem_varOrder.mp hmem)
      obtain ⟨k, -, hk⟩ := exists_getElem?_eq hmem
      obtain ⟨p, n, hbound, -⟩ := hnumbered.bound k v hk
      refine (hnumbers.bound_iff hlt hunbound).mp fun hcell' => ?_
      rw [← hcell, hbound] at hcell'
      cases hcell'
    · by_contra hlarge
      have hlast : 2 ^ 57 < (varOrder (visitedVars vis)).length := not_le.mp hlarge
      obtain ⟨p, n, -, -, -, -, -, hn⟩ := hnumbered.bound (2 ^ 57) _ (List.getElem?_eq_getElem hlast)
      have hlt := BitVec.toInt_lt (x := n)
      rw [hn] at hlt
      norm_num at hlt
  · have hreturns' := (Machine.returns_reaches hreach).mp (returns_of_numberVars h hreturns)
    have hshort : FallsShort hp.hr (Stage.restarted g max hp.hr root).data := by
      refine ⟨Int.natCast_nonneg _, le_rfl, ?_⟩
      change (hp.hr : ℤ) < hp.hr + 2 * (g.vno : ℤ)
      omega
    obtain ⟨-, hle, hlt⟩ := WalkState.fallsShort_returns hshort hreturns'
    have htwo := hnumbered.two_mul_le hnodup (by exact_mod_cast hle)
    have hlt' : (hp'.hr : ℤ) < hp.hr + 2 * ((varOrder (visitedVars vis)).length : ℤ) := hlt
    exact absurd hlt' (not_lt.mpr (by exact_mod_cast htwo))

/-- Without a disturbance the numbers begin with 0. -/
theorem eq_zero_of_undisturbed (h : rootKind hp s root = .compound) (hundisturbed : Undisturbed hp s root)
    (hback : NumbersAndBack hb hp s root n1) : n1 = 0 := by
  obtain ⟨vis, hv, hfirst, hstack, -⟩ := hundisturbed
  obtain ⟨occs, hp', s', hoccs, hreturns, -⟩ := hback
  obtain rfl := hoccs.unique hv.occurrences
  obtain ⟨hlen, -⟩ := final_of_numbersAndBack hR hroot h hv hstack hreturns
  rw [hfirst.given_eq, List.length_map] at hlen
  omega

end

-- ---------------------------------------------------------------------------
-- A list whose tail is a variable
-- ---------------------------------------------------------------------------

/-- `[[]|X]`, at 0. -/
def partialListStore : Store :=
  .ofWords fun a => if a = 0 then some (.pair 1) else if a = 1 then some (.atom atomNil) else none

def partialListHeap : Heap := ⟨fun _ => .functor functorDollarVar, 3⟩

theorem partialList_below : BelowHr partialListHeap partialListStore {0, 1, 2} where
  closed := by
    intro a ha b hb
    fin_cases ha
    · exact (show ∀ b ∈ ([1, 2] : List Addr), b ∈ ({0, 1, 2} : Finset Addr) by decide) b hb
    · cases hb
    · exact (show ∀ b ∈ ([2] : List Addr), b ∈ ({0, 1, 2} : Finset Addr) by decide) b hb
  cell a ha := by
    fin_cases ha <;> decide
  functor a ha p hcell := by
    fin_cases ha <;> cases hcell

theorem partialList_undisturbed : Undisturbed partialListHeap partialListStore 0 := by
  have hroot : partialListStore.deref (.ref 0) = .nonvar (.pair 1) := Store.deref_ofWords ..
  have hhead : partialListStore.deref (.ref 1) = .nonvar (.atom atomNil) := Store.deref_ofWords ..
  have htail : partialListStore.deref (.ref 2) = .ref 2 := Store.deref_ofWords ..
  refine ⟨_, .list hroot List.not_mem_nil (.leaf hhead rfl (.var htail .nil)) .nil, ?_, ⟨0, ?_, ?_⟩, ?_⟩
  · intro v hv o ho
    obtain rfl := List.mem_singleton.mp hv
    obtain rfl := Option.some.inj ho
    rfl
  · intro i hi
    cases hi
  · decide
  · decide

theorem partialList_rootKind : rootKind partialListHeap partialListStore 0 = .compound := by
  have hroot : partialListStore.deref (.ref 0) = .nonvar (.pair 1) := Store.deref_ofWords ..
  exact rootKind_of_pair hroot

end Yap
