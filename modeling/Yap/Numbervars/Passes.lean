-- SUMMARY: The runs of `numbervars/3`: the numbers that a pass gives, when the walk starts again, and what `HR` and the next number tell of it.
import Yap.Numbervars.Walk

/-!
# Runs of the numbering

A pass writes its structures one after the other and counts them. When the walk starts
again `HR` is set back but the next number is not.
-/

namespace Yap

open Relation

namespace Stage

variable {hp : Heap} {s : Store} {hb : Addr} {g : Stage} {pre : List (Option Addr)} {seen : List Addr}
  {occs : List (Addr × Bool)} {vis : List Visit} {max : ℕ}

-- ---------------------------------------------------------------------------
-- Numbers
-- ---------------------------------------------------------------------------

/-- What has become of the numbers up to the stage: each has a structure, and a variable
    that has been given one is bound to it. -/
structure Numbers (hp : Heap) (s : Store) (g : Stage) (given : List (Option Addr)) : Prop where
  hr_eq : 2 * given.length + hp.hr = g.heap.hr
  vno_eq : g.vno = given.length
  old : ∀ v, some v ∈ given → v < hp.hr
  bound : ∀ (k : ℕ) (v : Addr), given[k]? = some (some v) → g.store.cell v = .nonvar (.appl (2 * k + hp.hr))
  functor : ∀ k < given.length, g.heap.functorAt (2 * k + hp.hr) = .functor functorDollarVar
  arg : ∀ k < given.length, g.store.cell (2 * k + hp.hr + 1) = mkIntCell k
  other : ∀ a < hp.hr, some a ∉ given → g.store.cell a = s.cell a
  functors : ∀ p < hp.hr, g.heap.functorAt p = hp.functorAt p

theorem Numbers.bound_iff (h : g.Numbers hp s pre) {v : Addr} (hlt : v < hp.hr) (hv : s.cell v = .ref v) :
    g.Bound v ↔ some v ∈ pre := by
  constructor
  · intro hbound
    by_contra hmem
    exact hbound ((h.other v hlt hmem).trans hv)
  · intro hmem hcell
    obtain ⟨k, hk⟩ := List.mem_iff_getElem?.mp hmem
    cases hcell.symm.trans (h.bound k v hk)

theorem numbers_start (hp : Heap) (s : Store) (trail : List Addr) : Numbers hp s ⟨hp, s, 0, trail⟩ [] where
  hr_eq := Nat.zero_add _
  vno_eq := rfl
  old _ hv := by cases hv
  bound _ _ hk := by cases hk
  functor _ hk := by cases hk
  arg _ hk := by cases hk
  other _ _ _ := rfl
  functors _ _ := rfl

/-- One number more. -/
theorem Numbers.number (hb : Addr) (h : g.Numbers hp s pre) {v : ℕ} (hlt : v < hp.hr) (hv : some v ∉ pre) (m : Bool) :
    (g.number hb v m).Numbers hp s (pre ++ [if m then none else some v]) := by
  have hhr := h.hr_eq
  have hlength : (pre ++ [if m then none else some v]).length = pre.length + 1 := by
    rw [List.length_append, List.length_singleton]
  have hcases : ∀ k < pre.length + 1, k < pre.length ∨ k = pre.length := fun k hk => Nat.lt_succ_iff_lt_or_eq.mp hk
  have hold : ∀ k < pre.length, 2 * k + hp.hr ≠ g.heap.hr ∧ 2 * k + hp.hr + 1 ≠ g.heap.hr + 1 ∧ 2 * k + hp.hr + 1 ≠ v := by
    intro k hk
    omega
  have hbelow : ∀ a < hp.hr, a ≠ g.heap.hr ∧ a ≠ g.heap.hr + 1 := fun a ha => by
    have hle : hp.hr ≤ g.heap.hr := hhr ▸ Nat.le_add_left ..
    exact ⟨(ha.trans_le hle).ne, (Nat.lt_succ_of_lt (ha.trans_le hle)).ne⟩
  refine ⟨?_, ?_, fun w hw => ?_, fun k w hk => ?_, fun k hk => ?_, fun k hk => ?_, fun a ha hmem => ?_, fun p hp' => ?_⟩
  · rw [hlength]
    change 2 * (pre.length + 1) + hp.hr = g.heap.hr + 2
    omega
  · rw [hlength]
    exact congrArg (· + 1) h.vno_eq
  · rcases List.mem_append.mp hw with hw | hw
    · exact h.old w hw
    · cases m with
      | true => cases List.mem_singleton.mp hw
      | false =>
        obtain rfl := Option.some.inj (List.mem_singleton.mp hw)
        exact hlt
  · by_cases hlast : k < pre.length
    · rw [List.getElem?_append_left hlast] at hk
      have hmem := List.mem_of_getElem? hk
      rw [number_cell (hbelow w (h.old w hmem)).2 fun _ (heq : w = v) => hv (heq ▸ hmem), h.bound k w hk]
    · rw [List.getElem?_append_right (not_lt.mp hlast), List.getElem?_singleton] at hk
      obtain ⟨hk', hw⟩ := Option.ite_none_right_eq_some.mp hk
      cases m with
      | true => cases hw
      | false =>
        obtain rfl := Option.some.inj (Option.some.inj hw)
        obtain rfl : k = pre.length := by omega
        rw [hhr]
        exact number_cell_var (hlt.trans_le (hhr ▸ Nat.le_add_left ..))
  · rw [hlength] at hk
    rcases hcases k hk with hk | rfl
    · rw [number_functorAt (hold k hk).1, h.functor k hk]
    · rw [hhr]
      exact number_functorAt_hr
  · rw [hlength] at hk
    rcases hcases k hk with hk | rfl
    · rw [number_cell (hold k hk).2.1 fun _ => (hold k hk).2.2, h.arg k hk]
    · rw [hhr, ← h.vno_eq]
      exact number_cell_arg
  · obtain ⟨hmem, hlast⟩ := not_or.mp (List.mem_append.not.mp hmem)
    rw [number_cell (hbelow a ha).2, h.other a ha hmem]
    rintro rfl rfl
    exact hlast (List.mem_singleton_self _)
  · rw [number_functorAt (hbelow p hp').1, h.functors p hp']

/-- The numbers of all occurrences. -/
theorem Numbers.numberAll (h : g.Numbers hp s pre) (hseen : ∀ v, v ∈ seen ↔ some v ∈ pre)
    (hvars : ∀ v ∈ occs.map Prod.fst, v < hp.hr ∧ s.cell v = .ref v) :
    (g.numberAll hb occs).Numbers hp s (pre ++ given seen occs) := by
  induction occs generalizing g pre seen with
  | nil =>
    rw [given, List.append_nil]
    exact h
  | cons o occs ih =>
    obtain ⟨v, m⟩ := o
    obtain ⟨⟨hlt, hv⟩, hrest⟩ := List.forall_mem_cons.mp hvars
    rw [Stage.numberAll]
    by_cases hmem : v ∈ seen
    · rw [if_pos ((h.bound_iff hlt hv).mpr ((hseen v).mp hmem)), given_seen hmem]
      exact ih h hseen hrest
    · have hpre : some v ∉ pre := fun hpre => hmem ((hseen v).mpr hpre)
      have hstep := h.number hb hlt hpre m
      rw [if_neg fun hb => hpre ((h.bound_iff hlt hv).mp hb)]
      cases m with
      | true =>
        rw [given_lost hmem, List.append_cons]
        refine ih hstep (fun w => ?_) hrest
        simp [hseen w]
      | false =>
        rw [given_bound hmem, List.append_cons]
        refine ih hstep (fun w => ?_) hrest
        simp [hseen w, or_comm]

-- ---------------------------------------------------------------------------
-- Passes
-- ---------------------------------------------------------------------------

/-- A pass with a stack that is large enough. -/
theorem Numbers.pass_ok (h : g.Numbers hp s pre) (hseen : ∀ v, v ∈ seen ↔ some v ∈ pre)
    (hvars : ∀ v ∈ (visitedVars vis).map Prod.fst, v < hp.hr ∧ s.cell v = .ref v) (hmax : ∀ n ∈ needs seen vis, n < max) :
    g.pass hb max vis = .ok (g.numberAll hb (visitedVars vis)) := by
  induction vis generalizing g pre seen with
  | nil => rfl
  | cons x vis ih =>
    cases x with
    | test n =>
      rw [needs, List.forall_mem_cons] at hmax
      rw [pass, if_neg (not_le.mpr hmax.1)]
      exact ih h hseen hvars hmax.2
    | var v m d =>
      obtain ⟨⟨hlt, hv⟩, hrest⟩ := List.forall_mem_cons.mp hvars
      rw [pass, visitedVars_var, Stage.numberAll]
      by_cases hmem : v ∈ seen
      · have hbound := (h.bound_iff hlt hv).mpr ((hseen v).mp hmem)
        rw [needs, if_pos hmem, List.forall_mem_cons] at hmax
        rw [if_pos hbound, if_pos hbound, if_neg (not_le.mpr hmax.1)]
        exact ih h hseen hrest hmax.2
      · have hpre : some v ∉ pre := fun hpre => hmem ((hseen v).mpr hpre)
        have hbound : ¬ g.Bound v := fun hb => hpre ((h.bound_iff hlt hv).mp hb)
        have hstep := h.number hb hlt hpre m
        rw [needs, if_neg hmem] at hmax
        rw [if_neg hbound, if_neg hbound]
        cases m with
        | true => exact ih hstep (fun w => by simp [hseen w]) hrest hmax
        | false => exact ih hstep (fun w => by simp [hseen w, or_comm]) hrest hmax

/-- A pass that stops has a stack that is too small. -/
theorem Numbers.pass_error (hb : Addr) (h : g.Numbers hp s pre) (hseen : ∀ v, v ∈ seen ↔ some v ∈ pre)
    (hvars : ∀ v ∈ (visitedVars vis).map Prod.fst, v < hp.hr ∧ s.cell v = .ref v) (hmax : ∃ n ∈ needs seen vis, max ≤ n) :
    ∃ g', g.pass hb max vis = .error g' ∧ g.vno ≤ g'.vno := by
  induction vis generalizing g pre seen with
  | nil =>
    obtain ⟨n, hn, -⟩ := hmax
    cases hn
  | cons x vis ih =>
    cases x with
    | test n =>
      rw [needs, List.exists_mem_cons_iff] at hmax
      rw [pass]
      by_cases hn : max ≤ n
      · exact ⟨g, if_pos hn, le_rfl⟩
      · rw [if_neg hn]
        exact ih h hseen hvars (hmax.resolve_left hn)
    | var v m d =>
      obtain ⟨⟨hlt, hv⟩, hrest⟩ := List.forall_mem_cons.mp hvars
      rw [pass]
      by_cases hmem : v ∈ seen
      · rw [needs, if_pos hmem, List.exists_mem_cons_iff] at hmax
        rw [if_pos ((h.bound_iff hlt hv).mpr ((hseen v).mp hmem))]
        by_cases hn : max ≤ d + 32
        · exact ⟨g, if_pos hn, le_rfl⟩
        · rw [if_neg hn]
          exact ih h hseen hrest (hmax.resolve_left hn)
      · have hpre : some v ∉ pre := fun hpre => hmem ((hseen v).mpr hpre)
        have hbound : ¬ g.Bound v := fun hb => hpre ((h.bound_iff hlt hv).mp hb)
        have hstep := h.number hb hlt hpre m
        rw [needs, if_neg hmem] at hmax
        rw [if_neg hbound]
        cases m with
        | true =>
          obtain ⟨g', hpass, hle⟩ := ih hstep (fun w => by simp [hseen w]) hrest hmax
          exact ⟨g', hpass, (Nat.le_succ _).trans hle⟩
        | false =>
          obtain ⟨g', hpass, hle⟩ := ih hstep (fun w => by simp [hseen w, or_comm]) hrest hmax
          exact ⟨g', hpass, (Nat.le_succ _).trans hle⟩

/-- Before the first variable a pass does not change the store. -/
theorem pass_beforeVars (hb : Addr) (max : ℕ) (g : Stage) (vis : List Visit) :
    g.pass hb max (beforeVars vis) = if ∀ n ∈ needs [] (beforeVars vis), n < max then .ok g else .error g := by
  induction vis with
  | nil => rfl
  | cons x vis ih =>
    cases x with
    | test n =>
      rw [beforeVars, pass, needs, ih]
      simp only [List.forall_mem_cons]
      by_cases hn : max ≤ n
      · rw [if_pos hn, if_neg fun h => absurd h.1 (not_lt.mpr hn)]
      · rw [if_neg hn]
        simp only [not_le.mp hn, true_and]
    | var v m d => rfl

/-- A pass that stops after the first variable has given a number. -/
theorem exists_pass_error (hb : Addr) (trail : List Addr)
    (hvars : ∀ v ∈ (visitedVars vis).map Prod.fst, v < hp.hr ∧ s.cell v = .ref v)
    (hbefore : ∀ n ∈ needs [] (beforeVars vis), n < max) (hmax : ∃ n ∈ needs [] vis, max ≤ n) :
    ∃ g', Stage.pass hb max ⟨hp, s, 0, trail⟩ vis = .error g' ∧ 0 < g'.vno := by
  induction vis with
  | nil =>
    obtain ⟨n, hn, -⟩ := hmax
    cases hn
  | cons x vis ih =>
    cases x with
    | test n =>
      rw [beforeVars, needs, List.forall_mem_cons] at hbefore
      rw [needs, List.exists_mem_cons_iff] at hmax
      rw [pass, if_neg (not_le.mpr hbefore.1)]
      exact ih hvars hbefore.2 (hmax.resolve_left (not_le.mpr hbefore.1))
    | var v m d =>
      obtain ⟨⟨hlt, hv⟩, hrest⟩ := List.forall_mem_cons.mp hvars
      have hstep := (numbers_start hp s trail).number hb hlt List.not_mem_nil m
      rw [needs, if_neg List.not_mem_nil] at hmax
      rw [pass, if_neg fun h => h hv]
      cases m with
      | true =>
        obtain ⟨g', hpass, hle⟩ := hstep.pass_error hb (fun w => by simp) hrest hmax
        exact ⟨g', hpass, hle⟩
      | false =>
        obtain ⟨g', hpass, hle⟩ := hstep.pass_error hb (fun w => by simp) hrest hmax
        exact ⟨g', hpass, hle⟩

end Stage

-- ---------------------------------------------------------------------------
-- Runs
-- ---------------------------------------------------------------------------

section

variable {hp : Heap} {s : Store} {hb root : Addr} {R : Finset Addr} {vis : List Visit}

/-- The walk begins, with a stack of some size. -/
def Stage.begin (hp : Heap) (s : Store) (root : Addr) (max : ℕ) : WalkState NumberData :=
  Stage.state ⟨hp, s, 0, []⟩ [] max root (root + 1) none

/-- The walk makes a pass. -/
theorem HasVisits.walks_begin (hv : HasVisits hp s [] [root] vis) (hR : BelowHr hp s R) (hroot : root ∈ R) (hb : Addr) (max : ℕ) :
    WalksPass hp s hb root max (Stage.begin hp s root max) (Stage.pass hb max ⟨hp, s, 0, []⟩ vis)
      fun g => g.AtItems [] max (root + 1) [] := by
  refine hv.walks hR hb root max _ [] (root + 1) _ (Stage.grows_start hp s 0 []) rfl List.nodup_nil
    (fun pl h => by cases h) (List.forall_mem_singleton.mpr hroot) ⟨root, .inl ⟨rfl, (remaining_one root).symm⟩⟩

/-- A pass that ends gives the result. -/
theorem Stage.AtItems.returns {g : Stage} {max : ℕ} {pt0End hStart : Addr} {st : WalkState NumberData}
    (hst : g.AtItems [] max pt0End [] st) :
    Machine.Returns (WalkState.numberTurn · hb hStart root) st (⟨g.vno, g.heap.hr⟩, cellWords g.heap g.store) := by
  obtain ⟨pt0, rfl, hend⟩ := hst.eq_state
  refine Machine.returns_of_exit ?_
  have hturn : (g.state [] max pt0 pt0End none).turn (numberHooks hStart) root =
      .exit (⟨g.vno, g.heap.hr⟩, WalkState.cleanTr g.trail (g.state [] max pt0 pt0End none).memory) := if_neg hend
  rw [WalkState.numberTurn]
  simp only [hturn]
  rfl

/-- The walk starts again until its stack is large enough for what comes before the first variable. -/
theorem HasVisits.numbersTo_begin (hv : HasVisits hp s [] [root] vis) (hR : BelowHr hp s R) (hroot : root ∈ R) (i : ℕ)
    (hsmall : ∀ i' < i, ∃ n ∈ needs [] (beforeVars vis), 1024 * 2 ^ i' ≤ n) :
    NumbersTo hb hp.hr root (Stage.begin hp s root 1024) (Stage.begin hp s root (1024 * 2 ^ i)) := by
  induction i with
  | zero => exact .refl
  | succ i ih =>
    have hwalks := hv.walks_begin hR hroot hb (1024 * 2 ^ i)
    obtain ⟨n, hn, hle⟩ := hsmall i (Nat.lt_succ_self i)
    rw [← beforeVars_append_fromVars vis, Stage.pass_append, Stage.pass_beforeVars,
      if_neg fun h => absurd (h n hn) (not_lt.mpr hle)] at hwalks
    have hrestart : NumbersTo hb hp.hr root (Stage.begin hp s root (1024 * 2 ^ i))
        (Stage.begin hp s root (2 * (1024 * 2 ^ i))) := hwalks
    rw [pow_succ', mul_left_comm]
    exact (ih fun i' hi' => hsmall i' (Nat.lt_succ_of_lt hi')).trans hrestart

/-- Variables that occur are unbound cells of the region. -/
theorem Occurrences.var_mem {path : List Place} {as : List Addr} {occs : List (Addr × Bool)} (hR : BelowHr hp s R)
    (h : Occurrences hp s path as occs) (has : ∀ a ∈ as, a ∈ R) :
    ∀ v ∈ occs.map Prod.fst, v ∈ R ∧ s.cell v = .ref v := by
  induction h with
  | nil => exact fun v hv => by cases hv
  | var hderef _ ih =>
    obtain ⟨ha, hrest⟩ := List.forall_mem_cons.mp has
    exact List.forall_mem_cons.mpr ⟨hR.var_mem ha hderef, ih hrest⟩
  | leaf _ _ _ ih => exact ih (List.forall_mem_cons.mp has).2
  | again _ _ _ _ ih => exact ih (List.forall_mem_cons.mp has).2
  | down hderef _ _ _ _ ihargs ih =>
    obtain ⟨ha, hrest⟩ := List.forall_mem_cons.mp has
    rw [List.map_append]
    exact List.forall_mem_append.mpr ⟨ihargs (hR.args ha hderef), ih hrest⟩

theorem HasVisits.var_below (hv : HasVisits hp s [] [root] vis) (hR : BelowHr hp s R) (hroot : root ∈ R) :
    ∀ v ∈ (visitedVars vis).map Prod.fst, v < hp.hr ∧ s.cell v = .ref v := fun v hmem =>
  (hv.occurrences.var_mem hR (List.forall_mem_singleton.mpr hroot) v hmem).imp_left (hR.cell v)

/-- The stage that the walk ends in when no number is given before it starts again. -/
def Stage.final (hp : Heap) (s : Store) (hb : Addr) (vis : List Visit) : Stage :=
  Stage.numberAll hb ⟨hp, s, 0, []⟩ (visitedVars vis)

theorem HasVisits.final_numbers (hv : HasVisits hp s [] [root] vis) (hR : BelowHr hp s R) (hroot : root ∈ R) (hb : Addr) :
    (Stage.final hp s hb vis).Numbers hp s (given [] (visitedVars vis)) :=
  (Stage.numbers_start hp s []).numberAll (fun v => by simp) (hv.var_below hR hroot)

/-- The result, if the stack that suffices before the first variable suffices. -/
theorem HasVisits.returns_final (hv : HasVisits hp s [] [root] vis) (hR : BelowHr hp s R) (hroot : root ∈ R) (hb : Addr)
    (hstack : StackEnough vis) :
    Machine.Returns (WalkState.numberTurn · hb hp.hr root) (Stage.begin hp s root 1024)
      (⟨(Stage.final hp s hb vis).vno, (Stage.final hp s hb vis).heap.hr⟩,
        cellWords (Stage.final hp s hb vis).heap (Stage.final hp s hb vis).store) := by
  obtain ⟨j, hsmall, hall⟩ := hstack
  have hwalks := hv.walks_begin hR hroot hb (1024 * 2 ^ j)
  have hpass : Stage.pass hb (1024 * 2 ^ j) ⟨hp, s, 0, []⟩ vis = .ok (Stage.final hp s hb vis) :=
    (Stage.numbers_start hp s []).pass_ok (fun v => by simp) (hv.var_below hR hroot) hall
  rw [hpass] at hwalks
  obtain ⟨-, st, hst, hreach⟩ := hwalks
  exact (Machine.returns_reaches ((hv.numbersTo_begin hR hroot j hsmall).trans hreach)).mpr hst.returns

/-- Else the walk starts again after it has given a number. -/
theorem HasVisits.stackEnough_or (hv : HasVisits hp s [] [root] vis) (hR : BelowHr hp s R) (hroot : root ∈ R) (hb : Addr) :
    StackEnough vis ∨ ∃ max g, 0 < g.vno ∧
      NumbersTo hb hp.hr root (Stage.begin hp s root 1024) (Stage.restarted g max hp.hr root) := by
  have hlarge : ∃ i, ∀ n ∈ needs [] (beforeVars vis), n < 1024 * 2 ^ i := by
    refine ⟨(needs [] (beforeVars vis)).sum, fun n hn => ?_⟩
    calc n ≤ (needs [] (beforeVars vis)).sum := List.single_le_sum (fun _ _ => Nat.zero_le _) _ hn
      _ < 2 ^ (needs [] (beforeVars vis)).sum := Nat.lt_two_pow_self
      _ ≤ 1024 * 2 ^ (needs [] (beforeVars vis)).sum := Nat.le_mul_of_pos_left _ (by norm_num)
  classical
  obtain ⟨hbefore, hmin⟩ := And.intro (Nat.find_spec hlarge) fun i => Nat.find_min (m := i) hlarge
  generalize Nat.find hlarge = j at hbefore hmin
  have hsmall : ∀ i < j, ∃ n ∈ needs [] (beforeVars vis), 1024 * 2 ^ i ≤ n := by
    intro i hi
    by_contra hnone
    refine hmin i hi fun n hn => not_le.mp fun hle => hnone ⟨n, hn, hle⟩
  by_cases hall : ∀ n ∈ needs [] vis, n < 1024 * 2 ^ j
  · exact .inl ⟨j, hsmall, hall⟩
  · have hmax : ∃ n ∈ needs [] vis, 1024 * 2 ^ j ≤ n := by
      by_contra hnone
      exact hall fun n hn => not_le.mp fun hle => hnone ⟨n, hn, hle⟩
    obtain ⟨g, hpass, hpos⟩ := Stage.exists_pass_error hb [] (hv.var_below hR hroot) hbefore hmax
    have hwalks := hv.walks_begin hR hroot hb (1024 * 2 ^ j)
    rw [hpass] at hwalks
    exact .inr ⟨_, g, hpos, (hv.numbersTo_begin hR hroot j hsmall).trans hwalks⟩

-- ---------------------------------------------------------------------------
-- After numbers have been given twice
-- ---------------------------------------------------------------------------

/-- `HR` is not as far as the numbers that have been given. -/
structure FallsShort (hStart : ℕ) (data : NumberData) : Prop where
  vno_nonneg : 0 ≤ data.vno
  le_hr : (hStart : ℤ) ≤ data.hr
  hr_lt : (data.hr : ℤ) < hStart + 2 * data.vno

theorem FallsShort.next {hStart : ℕ} {data : NumberData} (h : FallsShort hStart data) : FallsShort hStart data.next := by
  obtain ⟨hvno, hle, hlt⟩ := h
  have hhr : (data.next.hr : ℤ) = data.hr + 2 := rfl
  have hnext : data.next.vno = data.vno + 1 := if_pos hvno
  refine ⟨?_, ?_, ?_⟩
  · omega
  · omega
  · omega

theorem FallsShort.reset {hStart : ℕ} {data : NumberData} (h : FallsShort hStart data) :
    FallsShort hStart ⟨data.vno, hStart⟩ := by
  obtain ⟨hvno, hle, hlt⟩ := h
  refine ⟨hvno, le_rfl, ?_⟩
  change (hStart : ℤ) < hStart + 2 * data.vno
  omega

namespace WalkState

variable {st : WalkState NumberData} {hStart : Addr}

/-- The data after a turn, or in its result. -/
def KeepsData (hStart : Addr) (st : WalkState NumberData) :
    Turn (WalkState NumberData) (NumberData × (Place → WalkWord)) → Prop
  | .go st' => st'.data = st.data ∨ st'.data = ⟨st.data.vno, hStart⟩
  | .exit w => w.1 = st.data

/-- A turn of the walk does not change the data, but for `HR = HStart`. -/
theorem keepsData_turn (hStart root : Addr) (st : WalkState NumberData) :
    KeepsData hStart st (st.turn (numberHooks hStart) root) := by
  have hnext : KeepsData hStart st (.go st.next) := .inl rfl
  cases h0 : st.d0 with
  | none =>
    rw [turn, h0]
    dsimp only
    split
    case isTrue => exact .inl rfl
    case isFalse =>
      cases hfr : st.frames with
      | nil => exact rfl
      | cons fr frames => exact .inl rfl
  | some d0 =>
    obtain ⟨q, w⟩ := d0
    cases hw : st.visitUnmark w with
    | cell c =>
      cases c with
      | ref b =>
        by_cases hb : st.visitUnmark (st.memory (.arg b)) = .cell (.ref b)
        · rw [turn, h0]
          simp only [hw, if_pos hb]
          exact rfl
        · rw [turn_ref _ root h0 hw hb]
          exact .inl rfl
      | nonvar d =>
        cases d with
        | int n =>
          rw [turn_int root hStart h0 hw]
          exact hnext
        | atom a =>
          rw [turn_atom root hStart h0 hw]
          exact hnext
        | pair p =>
          rw [turn_pair _ root h0 hw]
          cases hmark : st.isVisitMarker (st.memory (.arg p)) with
          | true =>
            rw [visitPair_open q hmark]
            exact hnext
          | false =>
            rw [visitPair_closed hStart q hmark rfl, ifRoom]
            split
            case isTrue => exact .inr rfl
            case isFalse => exact .inl rfl
        | appl p =>
          rw [turn_appl _ root h0 hw]
          cases hd1 : st.visitUnmark (st.memory (.functor p)) with
          | functor fc =>
            cases fc with
            | blob b =>
              rw [visitAppl_blob q hd1]
              exact hnext
            | functor f =>
              by_cases hmax : st.max ≤ st.frames.length + 32
              · rw [visitAppl_full q hd1 hmax]
                exact .inr rfl
              · cases hmark : st.isVisitMarker (st.memory (.functor p)) with
                | true =>
                  rw [visitAppl_open q hd1 hmax hmark]
                  exact hnext
                | false =>
                  rw [visitAppl_closed q hd1 hmax hmark]
                  exact .inl rfl
          | _ =>
            rw [visitAppl, hd1]
            exact hnext
    | _ =>
      rw [turn, h0]
      simp only [hw]
      exact hnext

variable {hb root : Addr} {base : ℕ}

theorem fallsShort_go {st' : WalkState NumberData} (h : FallsShort base st.data)
    (hgo : st.numberTurn hb base root = .go st') : FallsShort base st'.data := by
  rw [numberTurn] at hgo
  cases hvar : st.unboundVar with
  | some v =>
    rw [hvar] at hgo
    obtain rfl := Turn.go.inj hgo
    exact h.next
  | none =>
    rw [hvar] at hgo
    have hkeeps := keepsData_turn base root st
    cases hturn : st.turn (numberHooks base) root with
    | exit w =>
      simp only [hturn] at hgo
      cases hgo
    | go st₁ =>
      simp only [hturn] at hgo
      obtain rfl := Turn.go.inj hgo
      rw [hturn] at hkeeps
      rcases hkeeps with heq | heq
      · exact heq ▸ h
      · exact heq ▸ h.reset

theorem fallsShort_exit {w : NumberData × (Place → WalkWord)} (h : FallsShort base st.data)
    (hexit : st.numberTurn hb base root = .exit w) : FallsShort base w.1 := by
  rw [numberTurn] at hexit
  cases hvar : st.unboundVar with
  | some v =>
    rw [hvar] at hexit
    cases hexit
  | none =>
    rw [hvar] at hexit
    have hkeeps := keepsData_turn base root st
    cases hturn : st.turn (numberHooks base) root with
    | go st₁ =>
      simp only [hturn] at hexit
      cases hexit
    | exit w =>
      simp only [hturn] at hexit
      rw [hturn] at hkeeps
      rw [← Turn.exit.inj hexit]
      exact (show w.1 = st.data from hkeeps) ▸ h

/-- A walk that has started again after it has given a number does not make up for it. -/
theorem fallsShort_returns {w : NumberData × (Place → WalkWord)} (h : FallsShort base st.data)
    (hret : Machine.Returns (numberTurn · hb base root) st w) : FallsShort base w.1 := by
  obtain ⟨st', hreach, hexit⟩ := hret.exists_exit
  have hinv : FallsShort base st'.data :=
    Machine.invariant (P := fun st => FallsShort base st.data) (fun _ _ hst hgo => fallsShort_go hst hgo) hreach h
  exact fallsShort_exit hinv hexit

end WalkState

end

end Yap
