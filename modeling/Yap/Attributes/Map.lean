-- SUMMARY: Attributes as a map from modules to values with saved maps for the choice points, the runs of the attribute predicates, and when these behave like the map.
import Yap.Attributes.Chain

/-!
# Attributes as a map

A run puts and deletes attributes of one variable, builds other terms, and makes,
retries and removes choice points. It is compared with a map from modules to values
and the maps that the choice points saved.
-/

namespace Yap

-- ---------------------------------------------------------------------------
-- Maps
-- ---------------------------------------------------------------------------

/-- The values of modules, in the order in which they were put. -/
abbrev Attributes : Type := List (Atom × AttCell)

namespace Attributes

def del (mod : Atom) (A : Attributes) : Attributes := A.filter (·.1 ≠ mod)

def put (mod : Atom) (value : AttCell) (A : Attributes) : Attributes := A.del mod ++ [(mod, value)]

theorem lookup_cons (mod k : Atom) (value : AttCell) (A : Attributes) :
    List.lookup mod ((k, value) :: A) = if mod = k then some value else A.lookup mod := by
  by_cases hk : mod = k
  · rw [hk, List.lookup_cons_self, if_pos rfl]
  · rw [List.lookup_cons, beq_false_of_ne hk, if_neg hk]

theorem lookup_eq_find? (mod : Atom) (A : Attributes) :
    A.lookup mod = (A.find? (·.1 = mod)).map Prod.snd := by
  induction A with
  | nil => rfl
  | cons e A ih =>
      obtain ⟨k, x⟩ := e
      rw [lookup_cons, ih]
      by_cases hk : mod = k
      · rw [if_pos hk, List.find?_cons_of_pos (by simpa using hk.symm)]
        rfl
      · rw [if_neg hk, List.find?_cons_of_neg (by simpa using fun h : k = mod => hk h.symm)]

theorem lookup_del (mod mod' : Atom) (A : Attributes) :
    (A.del mod).lookup mod' = if mod' = mod then none else A.lookup mod' := by
  induction A with
  | nil => simp [del]
  | cons e A ih =>
      obtain ⟨k, x⟩ := e
      by_cases hk : k = mod
      · have hdel : del mod ((k, x) :: A) = del mod A := List.filter_cons_of_neg (by simpa using hk)
        rw [hdel, ih, lookup_cons, hk]
        by_cases hmod : mod' = mod
        · rw [if_pos hmod, if_pos hmod]
        · rw [if_neg hmod, if_neg hmod, if_neg hmod]
      · have hdel : del mod ((k, x) :: A) = (k, x) :: del mod A := List.filter_cons_of_pos (by simpa using hk)
        rw [hdel, lookup_cons, lookup_cons, ih]
        by_cases hmod : mod' = k
        · rw [if_pos hmod, if_pos hmod, if_neg (by rw [hmod]; exact hk)]
        · rw [if_neg hmod, if_neg hmod]

theorem lookup_put (mod mod' : Atom) (value : AttCell) (A : Attributes) :
    (A.put mod value).lookup mod' = if mod' = mod then some value else A.lookup mod' := by
  rw [put, List.lookup_append, lookup_del, lookup_cons]
  by_cases hmod : mod' = mod
  · rw [if_pos hmod, if_pos hmod, if_pos hmod]
    rfl
  · rw [if_neg hmod, if_neg hmod, if_neg hmod, List.lookup_nil, Option.or_none]

/-- Only one entry is deleted when a module has one. -/
theorem eraseP_eq_del {mod : Atom} {A : Attributes} (hA : (A.map Prod.fst).Nodup) :
    A.eraseP (·.1 = mod) = A.del mod := by
  induction A with
  | nil => rfl
  | cons e A ih =>
      obtain ⟨hnotMem, hA⟩ := List.nodup_cons.mp hA
      by_cases hmod : e.1 = mod
      · have hrest : A.filter (·.1 ≠ mod) = A := by
          refine List.filter_eq_self.mpr fun e' he' => ?_
          simp only [decide_not, Bool.not_eq_eq_eq_not, Bool.not_true, decide_eq_false_iff_not]
          rintro rfl
          exact hnotMem (hmod ▸ List.mem_map_of_mem he')
        rw [List.eraseP_cons_of_pos (by simpa using hmod), del, List.filter_cons_of_neg (by simpa using hmod),
          hrest]
      · rw [List.eraseP_cons_of_neg (by simpa using hmod), ih hA, del, del,
          List.filter_cons_of_pos (by simpa using hmod)]

theorem del_eq_self {mod : Atom} {A : Attributes} (hmod : A.lookup mod = none) : A.del mod = A := by
  refine List.filter_eq_self.mpr fun e he => ?_
  simp only [decide_not, Bool.not_eq_eq_eq_not, Bool.not_true, decide_eq_false_iff_not]
  rintro rfl
  rw [lookup_eq_find?, Option.map_eq_none_iff, List.find?_eq_none] at hmod
  exact hmod e he (by simp)

end Attributes

-- ---------------------------------------------------------------------------
-- Runs
-- ---------------------------------------------------------------------------

/-- The map of a variable, `none` for a variable without attributes, and the maps
    that the choice points saved, the latest first. -/
structure AttSpec where
  current : Option Attributes
  saved : List (Option Attributes)

/-- A call of a predicate, the building of other terms, or what the machine does
    with choice points. -/
inductive AttEvent where
  | put (mod : Atom) (value : AttCell)
  | del (mod : Atom)
  | build (cells : List AttCell)
  | choice (b : ℕ)
  | retry
  | cut

namespace AttSpec

/-- The value of a module. -/
def lookup (A : AttSpec) (mod : Atom) : Option AttCell := (A.current.getD []).lookup mod

/-- What an event does to the map. -/
def step (A : AttSpec) : AttEvent → AttSpec
  | .put mod value => { A with current := some (Attributes.put mod value (A.current.getD [])) }
  | .del mod => { A with current := A.current.map (Attributes.del mod) }
  | .build _ => A
  | .choice _ => { A with saved := A.current :: A.saved }
  | .retry => { A with current := A.saved.headD A.current }
  | .cut => { A with saved := A.saved.tail }

/-- A module is put first, or is put behind other modules and has no value yet. The
    name of the functor of an entry can only be put first. -/
def Appends (A : AttSpec) : AttEvent → Prop
  | .put mod _ => A.current = none ∨ A.current ≠ some [] ∧ A.lookup mod = none ∧ mod ≠ atomAtt1
  | _ => True

/-- The name of the functor of an entry can only be asked for when it was put first. -/
def Readable (A : AttSpec) (mod : Atom) : Prop :=
  mod = atomAtt1 → ∀ e ∈ (A.current.getD []).head?, e.1 = atomAtt1

end AttSpec

namespace Machine

/-- What an event does to the machine. -/
def step (v : ℕ) (s : Machine) : AttEvent → Option Machine
  | .put mod value => s.putAttr v mod value
  | .del mod => (s.delAttr v mod).map Prod.snd
  | .build cells => some (s.pushCells cells)
  | .choice b => some (s.choicePoint b)
  | .retry => s.retry
  | .cut => some s.cutChoice

/-- The global stack is below `lcl`, and the choice points are above it, the later
    ones below the earlier ones. A variable on the local stack is above them. -/
structure Layout (lcl v : ℕ) (s : Machine) : Prop where
  hr_le : s.hr ≤ lcl
  b_ge : ∀ c ∈ s.choices, lcl ≤ c.1.b ∧ (lcl ≤ v → c.1.b < v)
  nested : s.choices.Pairwise fun c d => c.1.b ≤ d.1.b

/-- An unbound variable without attributes, before any choice point. -/
structure Unbound (lcl v : ℕ) (s : Machine) : Prop where
  place : v < s.hr ∨ lcl ≤ v
  unbound : s.mem v = .ref v
  plain : ¬ s.isAttVar v
  choices : s.choices = []

/-- The predicates behave like the map: for the modules that are read, and for the
    events that may come next. -/
structure IsMap (v : ℕ) (s : Machine) (A : AttSpec) (reads : Atom → Prop) (next : AttEvent → Prop) :
    Prop where
  get : ∀ mod, reads mod → s.getAttr v mod = some ((A.lookup mod).map s.deref)
  del : ∀ mod, (s.delAttr v mod).map Prod.fst = some ((A.lookup mod).map s.deref)
  put : ∀ mod value, next (.put mod value) → (s.putAttr v mod value).isSome

end Machine

/-- The runs on a variable whose events meet a condition on the map. -/
inductive AttRun (ok : AttSpec → AttEvent → Prop) (lcl v : ℕ) : Machine → AttSpec → Prop where
  | start {s : Machine} : s.Unbound lcl v → s.Layout lcl v → AttRun ok lcl v s ⟨none, []⟩
  | step {s s' : Machine} {A : AttSpec} {e : AttEvent} :
      AttRun ok lcl v s A → ok A e → s.step v e = some s' → s'.Layout lcl v →
      AttRun ok lcl v s' (A.step e)

-- ---------------------------------------------------------------------------
-- Maps in memory
-- ---------------------------------------------------------------------------

/-- An attributed variable whose record is at `attv`, with its entries. -/
structure Attributed (m : ℕ → AttCell) (hi lcl v attv : ℕ) (es : List AttEntry) : Prop where
  place : v < attv ∨ lcl ≤ v
  bound : m v = .ref (attv + 1)
  functor : m attv = .functorAttVar
  done : m (attv + 1) = .ref (attv + 1)
  links : ∃ vars t, (∀ u ∈ vars, attv + 4 ≤ u ∧ u < hi) ∧ Links m vars hi (Machine.atts attv) es t ∧
    m (Machine.atts attv) = firstOf t es

/-- The module and the value of an entry. -/
def AttEntry.attribute (e : AttEntry) : Atom × AttCell := (e.mod, e.value)

/-- The cells below `hi` and the variable represent a map. -/
def Represents (m : ℕ → AttCell) (hi lcl v : ℕ) : Option Attributes → Prop
  | none => (v < hi ∨ lcl ≤ v) ∧ m v = .ref v ∧ ¬ (m (v - 1) = .functorAttVar ∧ v < hi)
  | some A => ∃ attv es, Attributed m hi lcl v attv es ∧ es.map AttEntry.attribute = A ∧
    (A.map Prod.fst).Nodup

theorem Attributed.lt {m : ℕ → AttCell} {hi lcl v attv : ℕ} {es : List AttEntry}
    (h : Attributed m hi lcl v attv es) : attv + 3 + 4 * es.length < hi := by
  obtain ⟨_, _, -, hlinks, -⟩ := h.links
  exact hlinks.length_lt

/-- A representation depends on the cells below `hi` and on the variable. -/
theorem Represents.congr {m m' : ℕ → AttCell} {hi hi' lcl v : ℕ} {A : Option Attributes}
    (h : Represents m hi lcl v A) (hhi : hi ≤ hi') (hlcl : hi' ≤ lcl) (hm : ∀ x < hi, m x = m' x)
    (hv : m v = m' v) : Represents m' hi' lcl v A := by
  cases A with
  | none =>
      obtain ⟨hplace, hunbound, hplain⟩ := h
      refine ⟨hplace.imp_left fun h => h.trans_le hhi, hv ▸ hunbound, fun ⟨hfunctor, hlt⟩ => ?_⟩
      obtain hlt' | hle := hplace
      · exact hplain ⟨hm (v - 1) (by omega) ▸ hfunctor, hlt'⟩
      · omega
  | some A =>
      obtain ⟨attv, es, hatt, hes, hnodup⟩ := h
      have hlt := hatt.lt
      obtain ⟨hplace, hbound, hfunctor, hdone, vars, t, hvars, hlinks, hfirst⟩ := hatt
      refine ⟨attv, es, ⟨hplace, hv ▸ hbound, ?_, ?_, vars, t, ?_, ?_, ?_⟩, hes, hnodup⟩
      · rw [← hm attv (by omega), hfunctor]
      · rw [← hm (attv + 1) (by omega), hdone]
      · exact fun u hu => ⟨(hvars u hu).1, (hvars u hu).2.trans_le hhi⟩
      · have hlinks' := hlinks.congr (fun x _ hx => hm x hx) fun u hu => hm u (hvars u hu).2
        exact hlinks'.mono (Set.Subset.refl _) (fun u hu hu' => absurd hu hu') hhi
      · rw [← hm _ (by rw [Machine.atts]; omega), hfirst]

end Yap
