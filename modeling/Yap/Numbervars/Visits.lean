-- SUMMARY: What a walk comes upon with the stack that it needs there, which variables a walk gives its numbers to, and when each variable gets one number.
import Yap.Numbervars.Code
import Yap.TermVisit.Agreement

/-!
# Visits

The walk needs a stack of some size at every list and compound, and at a variable that
is bound, which it enters as a compound. It gives a number to a variable that is not
bound. If the cell of the variable is marked the number is lost.
-/

namespace Yap

variable {hp : Heap} {s : Store} {path : List Place} {as : List Addr}

/-- The walk must have a stack with more than `need` frames, or it comes upon an unbound
    variable, below `depth` frames. -/
inductive Visit where
  | test (need : ℕ)
  | var (v : Addr) (marked : Bool) (depth : ℕ)

/-- What the walk comes upon in the terms of cells, below open places. -/
inductive HasVisits (hp : Heap) (s : Store) : List Place → List Addr → List Visit → Prop
  | nil {path : List Place} : HasVisits hp s path [] []
  | var {path : List Place} {a v : Addr} {as : List Addr} {vis : List Visit} :
      s.deref (.ref a) = .ref v → HasVisits hp s path as vis →
      HasVisits hp s path (a :: as) (.var v (decide (.arg v ∈ path)) path.length :: vis)
  | leaf {path : List Place} {a : Addr} {d : Nonvar} {as : List Addr} {vis : List Visit} :
      s.deref (.ref a) = .nonvar d → d.cells hp = [] → HasVisits hp s path as vis → HasVisits hp s path (a :: as) vis
  | openList {path : List Place} {a p : Addr} {as : List Addr} {vis : List Visit} :
      s.deref (.ref a) = .nonvar (.pair p) → .arg p ∈ path → HasVisits hp s path as vis → HasVisits hp s path (a :: as) vis
  | list {path : List Place} {a p : Addr} {as : List Addr} {vis vis' : List Visit} :
      s.deref (.ref a) = .nonvar (.pair p) → .arg p ∉ path → HasVisits hp s (.arg p :: path) [p, p + 1] vis →
      HasVisits hp s path as vis' → HasVisits hp s path (a :: as) (.test (path.length + 33) :: vis ++ vis')
  | openCompound {path : List Place} {a p : Addr} {f : Functor} {as : List Addr} {vis : List Visit} :
      s.deref (.ref a) = .nonvar (.appl p) → hp.functorAt p = .functor f → .functor p ∈ path →
      HasVisits hp s path as vis → HasVisits hp s path (a :: as) (.test (path.length + 32) :: vis)
  | compound {path : List Place} {a p : Addr} {f : Functor} {as : List Addr} {vis vis' : List Visit} :
      s.deref (.ref a) = .nonvar (.appl p) → hp.functorAt p = .functor f → .functor p ∉ path →
      HasVisits hp s (.functor p :: path) (List.range' (p + 1) f.arityOfFE) vis → HasVisits hp s path as vis' →
      HasVisits hp s path (a :: as) (.test (path.length + 32) :: vis ++ vis')

theorem map_snd_ownCells (as : List Addr) : (ownCells as).map Prod.snd = as := by
  rw [ownCells, List.map_map]
  exact List.map_id as

/-- A walk that has events has visits. -/
theorem HasEvents.exists_visits {items : List (Addr × Addr)} {es : List WalkEvent} (hv : HasEvents hp s path items es) :
    ∃ vis, HasVisits hp s path (items.map Prod.snd) vis := by
  induction hv with
  | nil => exact ⟨[], .nil⟩
  | var hleads hcell hv _ ih =>
    obtain ⟨vis, hvis⟩ := ih
    exact ⟨_, .var (hleads.deref.trans (deref_var hcell hv)) hvis⟩
  | leaf hleads hcell hd _ ih =>
    obtain ⟨vis, hvis⟩ := ih
    exact ⟨_, .leaf (hleads.deref.trans (deref_word hcell)) hd hvis⟩
  | openList hleads hcell hopen _ ih =>
    obtain ⟨vis, hvis⟩ := ih
    exact ⟨_, .openList (hleads.deref.trans (deref_word hcell)) hopen hvis⟩
  | list hleads hcell hopen _ _ ihargs ih =>
    obtain ⟨vis, hargs⟩ := ihargs
    obtain ⟨vis', hvis⟩ := ih
    exact ⟨_, .list (hleads.deref.trans (deref_word hcell)) hopen hargs hvis⟩
  | openCompound hleads hcell hf hopen _ ih =>
    obtain ⟨vis, hvis⟩ := ih
    exact ⟨_, .openCompound (hleads.deref.trans (deref_word hcell)) hf hopen hvis⟩
  | compound hleads hcell hf hopen _ _ ihargs ih =>
    obtain ⟨vis, hargs⟩ := ihargs
    obtain ⟨vis', hvis⟩ := ih
    rw [map_snd_ownCells] at hargs
    exact ⟨_, .compound (hleads.deref.trans (deref_word hcell)) hf hopen hargs hvis⟩

-- ---------------------------------------------------------------------------
-- Occurrences
-- ---------------------------------------------------------------------------

/-- The occurrence that a visit is. -/
def Visit.occurs : Visit → Option (Addr × Bool)
  | .var v marked _ => some (v, marked)
  | .test _ => none

/-- The occurrences of variables, in the order of the visits. -/
def visitedVars (vis : List Visit) : List (Addr × Bool) := vis.filterMap Visit.occurs

@[simp] theorem visitedVars_test (n : ℕ) (vis : List Visit) : visitedVars (.test n :: vis) = visitedVars vis := rfl

@[simp] theorem visitedVars_var (v : Addr) (m : Bool) (d : ℕ) (vis : List Visit) :
    visitedVars (.var v m d :: vis) = (v, m) :: visitedVars vis := rfl

theorem visitedVars_append (vis vis' : List Visit) : visitedVars (vis ++ vis') = visitedVars vis ++ visitedVars vis' :=
  List.filterMap_append

/-- The visits have the occurrences of a traversal. -/
theorem HasVisits.occurrences {vis : List Visit} (hv : HasVisits hp s path as vis) :
    Occurrences hp s path as (visitedVars vis) := by
  induction hv with
  | nil => exact .nil
  | var hderef _ ih => exact .var hderef ih
  | leaf hderef hd _ ih => exact .leaf hderef hd ih
  | openList hderef hopen _ ih => exact .again hderef rfl hopen ih
  | list hderef hopen _ _ ihargs ih =>
    rw [visitedVars_append, visitedVars_test]
    exact .down hderef rfl hopen ihargs ih
  | openCompound hderef hf hopen _ ih => exact .again hderef rfl hopen ih
  | compound hderef hf hopen _ _ ihargs ih =>
    rw [visitedVars_append, visitedVars_test]
    refine .down hderef rfl hopen ?_ ih
    rwa [Nonvar.cells, Nonvar.block, hf]

-- ---------------------------------------------------------------------------
-- Stacks
-- ---------------------------------------------------------------------------

/-- What the stack must have more frames than, when the variables in `seen` are bound. -/
def needs : List Addr → List Visit → List ℕ
  | _, [] => []
  | seen, .test n :: vis => n :: needs seen vis
  | seen, .var v m d :: vis =>
    if v ∈ seen then (d + 32) :: needs seen vis
    else if m then needs seen vis
    else needs (v :: seen) vis

/-- The visits before the first variable. -/
def beforeVars : List Visit → List Visit
  | .test n :: vis => .test n :: beforeVars vis
  | _ => []

/-- The visits from the first variable on. -/
def fromVars : List Visit → List Visit
  | .test _ :: vis => fromVars vis
  | vis => vis

theorem beforeVars_append_fromVars (vis : List Visit) : beforeVars vis ++ fromVars vis = vis := by
  induction vis with
  | nil => rfl
  | cons x vis ih =>
    cases x with
    | test n => exact congrArg _ ih
    | var v m d => rfl

/-- The stack that the walk has when it comes to the first variable, which starts with
    1024 frames and doubles, is large enough for the whole walk. -/
def StackEnough (vis : List Visit) : Prop :=
  ∃ j, (∀ i < j, ∃ n ∈ needs [] (beforeVars vis), 1024 * 2 ^ i ≤ n) ∧ ∀ n ∈ needs [] vis, n < 1024 * 2 ^ j

-- ---------------------------------------------------------------------------
-- Numbers
-- ---------------------------------------------------------------------------

/-- What becomes of the numbers of a walk, when the variables in `seen` are bound: a
    number is lost, or a variable is bound to it. -/
def given : List Addr → List (Addr × Bool) → List (Option Addr)
  | _, [] => []
  | seen, (v, marked) :: occs =>
    if v ∈ seen then given seen occs
    else if marked then none :: given seen occs
    else some v :: given (v :: seen) occs

variable {seen : List Addr} {v : Addr} {marked : Bool} {occs : List (Addr × Bool)}

theorem given_seen (h : v ∈ seen) : given seen ((v, marked) :: occs) = given seen occs := if_pos h

theorem given_lost (h : v ∉ seen) : given seen ((v, true) :: occs) = none :: given seen occs :=
  (if_neg h).trans (if_pos rfl)

theorem given_bound (h : v ∉ seen) : given seen ((v, false) :: occs) = some v :: given (v :: seen) occs :=
  (if_neg h).trans (if_neg Bool.false_ne_true)

/-- A variable that is bound to a number occurs and has not been seen. -/
theorem mem_of_given (h : some v ∈ given seen occs) : v ∉ seen ∧ v ∈ occs.map Prod.fst := by
  induction occs generalizing seen with
  | nil => cases h
  | cons o occs ih =>
    obtain ⟨w, m⟩ := o
    rw [List.map_cons, List.mem_cons]
    by_cases hw : w ∈ seen
    · rw [given_seen hw] at h
      exact ⟨(ih h).1, .inr (ih h).2⟩
    · cases m with
      | true =>
        rw [given_lost hw] at h
        have hmem := (List.mem_cons.mp h).resolve_left fun heq => by cases heq
        exact ⟨(ih hmem).1, .inr (ih hmem).2⟩
      | false =>
        rw [given_bound hw] at h
        rcases List.mem_cons.mp h with heq | hmem
        · obtain rfl := Option.some.inj heq
          exact ⟨hw, .inl rfl⟩
        · exact ⟨fun hv => (ih hmem).1 (List.mem_cons_of_mem _ hv), .inr (ih hmem).2⟩

/-- The variables in the order of their first occurrences. -/
def varOrder (occs : List (Addr × Bool)) : List Addr := (occs.map Prod.fst).eraseDups

theorem mem_varOrder : v ∈ varOrder occs ↔ v ∈ occs.map Prod.fst := List.mem_eraseDups

theorem nodup_varOrder (occs : List (Addr × Bool)) : (varOrder occs).Nodup := by
  have hnodup : ∀ n, ∀ l : List Addr, l.length = n → l.eraseDups.Nodup := by
    intro n
    induction n using Nat.strong_induction_on with
    | h n ih =>
      intro l hl
      cases l with
      | nil => exact List.nodup_nil
      | cons a l =>
        rw [List.eraseDups_cons, List.nodup_cons, List.mem_eraseDups]
        refine ⟨by simp, ih _ ?_ _ rfl⟩
        rw [← hl, List.length_cons]
        exact Nat.lt_succ_of_le (List.length_filter_le _ _)
  exact hnodup _ _ rfl

theorem filter_notMem_cons (v : Addr) (seen l : List Addr) :
    (l.filter (· ∉ v :: seen)) = (l.filter (· ∉ seen)).filter (· ≠ v) := by
  rw [List.filter_filter]
  refine List.filter_congr fun w _ => ?_
  by_cases hw : w = v
  · simp [hw]
  · simp [hw]

/-- If first occurrences are not marked, the variables get the numbers in their order. -/
theorem given_eq_map_some (h : ∀ v, v ∉ seen → ∀ o, occs.find? (fun o => o.1 = v) = some o → o.2 = false) :
    given seen occs = ((occs.map Prod.fst).filter (· ∉ seen)).eraseDups.map some := by
  induction occs generalizing seen with
  | nil => rfl
  | cons o occs ih =>
    obtain ⟨v, m⟩ := o
    have hother : ∀ w, w ≠ v → w ∉ seen → ∀ o, occs.find? (fun o => o.1 = w) = some o → o.2 = false := by
      intro w hw hseen o ho
      refine h w hseen o ?_
      rwa [List.find?_cons_of_neg (by simpa using fun heq => hw heq.symm)]
    rw [List.map_cons]
    by_cases hv : v ∈ seen
    · rw [given_seen hv, List.filter_cons_of_neg (by simpa using hv)]
      exact ih fun w hw => hother w (fun heq => hw (heq ▸ hv)) hw
    · obtain rfl : m = false := by
        refine h v hv (v, m) ?_
        rw [List.find?_cons_of_pos (by simp)]
      rw [given_bound hv, List.filter_cons_of_pos (by simpa using hv), List.eraseDups_cons, List.map_cons]
      rw [ih fun w hw => hother w (fun heq => hw (heq ▸ List.mem_cons_self ..)) fun hs => hw (List.mem_cons_of_mem _ hs)]
      rw [filter_notMem_cons]
      refine congrArg (fun l => some v :: (List.eraseDups l).map some) (List.filter_congr fun w _ => ?_)
      by_cases hw : w = v
      · simp [hw]
      · simp [hw]

theorem FirstOutside.given_eq (h : FirstOutside (occs.map Prod.fst) occs) :
    given [] occs = (varOrder occs).map some := by
  have hfirst : ∀ v, v ∉ [] → ∀ o, occs.find? (fun o => o.1 = v) = some o → o.2 = false := by
    intro v _ o ho
    have hmem := List.mem_of_find?_eq_some ho
    have hv : o.1 = v := by simpa using List.find?_some ho
    exact h v (hv ▸ List.mem_map_of_mem hmem) o ho
  rw [given_eq_map_some hfirst, varOrder]
  refine congrArg (fun l => (List.eraseDups l).map some) ?_
  rw [List.filter_eq_self]
  exact fun v _ => decide_eq_true List.not_mem_nil

/-- If no number is lost, first occurrences are not marked. -/
theorem find_of_given (h : none ∉ given seen occs) (hv : v ∉ seen) {o : Addr × Bool}
    (ho : occs.find? (fun o => o.1 = v) = some o) : o.2 = false := by
  induction occs generalizing seen with
  | nil => cases ho
  | cons o' occs ih =>
    obtain ⟨w, m⟩ := o'
    by_cases hw : w = v
    · subst hw
      rw [List.find?_cons_of_pos (by simp)] at ho
      obtain rfl := Option.some.inj ho
      cases m with
      | false => rfl
      | true =>
        rw [given_lost hv] at h
        exact absurd (List.mem_cons_self ..) h
    · rw [List.find?_cons_of_neg (by simpa using hw)] at ho
      by_cases hseen : w ∈ seen
      · rw [given_seen hseen] at h
        exact ih h hv ho
      · cases m with
        | true =>
          rw [given_lost hseen] at h
          exact absurd (List.mem_cons_self ..) h
        | false =>
          rw [given_bound hseen] at h
          refine ih (fun hmem => h (List.mem_cons_of_mem _ hmem)) ?_ ho
          exact fun hmem => (List.mem_cons.mp hmem).elim (fun heq => hw heq.symm) hv

/-- If the numbers suffice only when none is lost, first occurrences are not marked. -/
theorem firstOutside_of_given (hlen : (given [] occs).length ≤ (varOrder occs).length)
    (hall : ∀ v ∈ varOrder occs, some v ∈ given [] occs) : FirstOutside (occs.map Prod.fst) occs := by
  have hsub : varOrder occs ⊆ (given [] occs).reduceOption := fun v hv =>
    List.reduceOption_mem_iff.mpr (hall v hv)
  have hle : (given [] occs).length ≤ (given [] occs).reduceOption.length :=
    hlen.trans (List.Nodup.subperm (nodup_varOrder _) hsub).length_le
  have hsome : ∀ x ∈ given [] occs, x.isSome := by
    have heq := le_antisymm (List.reduceOption_length_le _) hle
    exact (List.reduceOption_length_eq_iff.mp heq)
  intro v _ o ho
  exact find_of_given (fun hmem => by cases hsome _ hmem) List.not_mem_nil ho

end Yap
