-- SUMMARY: What the attribute predicates do with a represented map, the invariant of the runs, and the runs that behave like the map.
import Yap.Attributes.Map

/-!
# Runs of the attribute predicates

A replaced value goes to the entry before the one that is found, and a value put
after the last attribute was deleted is never found: the condition on the events
leaves these out. In the other runs the predicates behave like the map.
-/

namespace Yap

variable {lcl v : ℕ} {s : Machine}

-- ---------------------------------------------------------------------------
-- Finding the variable
-- ---------------------------------------------------------------------------

namespace Machine

theorem deref_of_unbound (h : s.mem v = .ref v) : s.deref (.ref v) = .ref v := by
  rw [deref]
  cases s.hr with
  | zero => rfl
  | succ n => rw [derefCells, if_pos h]

theorem attsFromTerm_of_plain (h : Represents s.mem s.hr lcl v none) : s.attsFromTerm v = none := by
  obtain ⟨-, hunbound, hplain⟩ := h
  rw [attsFromTerm, deref_of_unbound hunbound]
  simp only
  rw [if_neg (by simpa [isAttVar] using hplain)]

variable {attv : ℕ} {es : List AttEntry}

theorem deref_of_attributed (hlcl : s.hr ≤ lcl) (h : Attributed s.mem s.hr lcl v attv es) :
    s.deref (.ref v) = .ref (attv + 1) ∧ s.isAttVar (attv + 1) := by
  have hlt := h.lt
  have hne : AttCell.ref (attv + 1) ≠ .ref v := by
    rintro ⟨⟩
    have hplace := h.place
    omega
  refine ⟨?_, ?_⟩
  · obtain ⟨n, hn⟩ : ∃ n, s.hr = n + 2 := ⟨s.hr - 2, by omega⟩
    rw [deref, hn, derefCells, h.bound, if_neg hne, derefCells, if_pos h.done]
  · rw [isAttVar, Nat.add_sub_cancel, h.functor, decide_eq_true rfl, Bool.true_and, decide_eq_true_iff]
    omega

theorem attsFromTerm_of_attributed (hlcl : s.hr ≤ lcl) (h : Attributed s.mem s.hr lcl v attv es) :
    s.attsFromTerm v = some attv := by
  obtain ⟨hderef, hatt⟩ := deref_of_attributed hlcl h
  rw [attsFromTerm, hderef]
  simp only
  rw [if_pos hatt, Nat.add_sub_cancel]

-- ---------------------------------------------------------------------------
-- Getting
-- ---------------------------------------------------------------------------

/-- The search from the cell of the attributes. -/
theorem fst_searchAtts {vars : Set ℕ} {t : ℕ} (hlinks : Links s.mem vars s.hr (atts attv) es t)
    (hfirst : s.mem (atts attv) = firstOf t es) (mname : Atom) :
    (s.searchAtts attv mname).map Prod.fst =
      some (((es.find? (·.matches mname)).map fun e => .nonvar (.appl e.p)).getD (.ref t)) := by
  have hlen := hlinks.length_lt
  rw [searchAtts, hfirst]
  exact fst_search (by omega) hlinks mname (by omega) none

theorem stored_of_mem {vars : Set ℕ} {hi a t : ℕ} {m : ℕ → AttCell} (h : Links m vars hi a es t)
    {e : AttEntry} (he : e ∈ es) : e.StoredIn m := by
  induction es generalizing a with
  | nil => cases he
  | cons e' es ih =>
      obtain ⟨-, -, -, -, hstored, htail⟩ := h
      obtain rfl | he := List.mem_cons.mp he
      · exact hstored
      · exact ih htail he

theorem getAttr_of_attributed (hlcl : s.hr ≤ lcl) (h : Attributed s.mem s.hr lcl v attv es) (mod : Atom) :
    s.getAttr v mod = some ((es.find? (·.matches mod)).map fun e => s.deref e.value) := by
  obtain ⟨vars, t, -, hlinks, hfirst⟩ := h.links
  have hsearch := fst_searchAtts hlinks hfirst mod
  rw [getAttr, attsFromTerm_of_attributed hlcl h]
  simp only
  obtain ⟨⟨found, q⟩, hfound, hfst⟩ := Option.map_eq_some_iff.mp hsearch
  simp only at hfst
  rw [hfound]
  cases hmatch : es.find? (·.matches mod) with
  | none =>
      rw [hmatch] at hfst
      rw [hfst]
      rfl
  | some e =>
      rw [hmatch] at hfst
      rw [hfst]
      have hstored := stored_of_mem hlinks (List.mem_of_find?_eq_some hmatch)
      exact congrArg (fun c => some (some c)) hstored.argOfTerm_two

end Machine

/-- The search finds what the map has, unless it takes another entry for the name
    of its functor. -/
theorem find?_matches {es : List AttEntry} {mod : Atom}
    (hmod : mod = atomAtt1 → ∀ e ∈ es.head?, e.mod = atomAtt1) :
    (es.find? (·.matches mod)).map AttEntry.value =
      (es.map AttEntry.attribute).lookup mod := by
  rw [Attributes.lookup_eq_find?, List.find?_map, Option.map_map]
  have hvalue : Prod.snd ∘ AttEntry.attribute = AttEntry.value := rfl
  rw [hvalue]
  by_cases hatt : mod = atomAtt1
  · cases es with
    | nil => rfl
    | cons e es =>
        have hmatch : e.mod = mod := (hmod hatt e rfl).trans hatt.symm
        rw [List.find?_cons_of_pos (by simp [AttEntry.matches, hmatch]),
          List.find?_cons_of_pos (by simp [AttEntry.attribute, hmatch])]
  · have hpred : (fun e : AttEntry => e.matches mod) = fun e => decide (e.mod = mod) := by
      funext e
      simp [AttEntry.matches, Ne.symm hatt]
    rw [hpred]
    rfl

theorem find?_matches_eq_none {es : List AttEntry} {mod : Atom}
    (hlookup : (es.map AttEntry.attribute).lookup mod = none) (hmod : mod ≠ atomAtt1) :
    es.find? (·.matches mod) = none := by
  have hfind : (es.find? (·.matches mod)).map AttEntry.value = _ := find?_matches fun h => absurd h hmod
  rwa [hlookup, Option.map_eq_none_iff] at hfind

theorem Machine.getAttr_eq (hlcl : s.hr ≤ lcl) {A : AttSpec} (h : Represents s.mem s.hr lcl v A.current)
    {mod : Atom} (hmod : A.Readable mod) :
    s.getAttr v mod = some ((A.lookup mod).map s.deref) := by
  obtain ⟨current, saved⟩ := A
  cases current with
  | none =>
      rw [getAttr, attsFromTerm_of_plain h]
      rfl
  | some A =>
      obtain ⟨attv, es, hatt, rfl, -⟩ := h
      rw [getAttr_of_attributed hlcl hatt, AttSpec.lookup, Option.getD_some, ← find?_matches, Option.map_map]
      · rfl
      · intro hmod' e he
        refine hmod hmod' e.attribute ?_
        simpa [AttSpec.Readable] using ⟨e, he, rfl⟩

-- ---------------------------------------------------------------------------
-- What choice points keep
-- ---------------------------------------------------------------------------

/-- A choice point keeps the cells of a map, and the variable. -/
def Held (lcl v : ℕ) (k : ChoicePoint) (m : ℕ → AttCell) (A : Option Attributes) : Prop :=
  Represents m k.hb lcl v A ∧ k.hb ≤ lcl ∧ lcl ≤ k.b ∧ (lcl ≤ v → k.b < v)

theorem Represents.place {m : ℕ → AttCell} {hi : ℕ} {A : Option Attributes}
    (h : Represents m hi lcl v A) : v < hi ∨ lcl ≤ v := by
  cases A with
  | none => exact h.1
  | some A =>
      obtain ⟨attv, es, hatt, -, -⟩ := h
      have hlt := hatt.lt
      exact hatt.place.imp_left fun h => by omega

theorem held_local (lcl v : ℕ) : Trail.State.Local ChoicePoint.keeps (Held lcl v) := by
  intro k m m' A hm ⟨hrep, hhb, hb, hv⟩
  refine ⟨hrep.congr le_rfl hhb (fun x hx => hm x ?_) (hm v ?_), hhb, hb, hv⟩
  · simp [ChoicePoint.keeps, outside, hx]
  · rw [ChoicePoint.keeps, outside, Bool.or_eq_true, decide_eq_true_iff, decide_eq_true_iff]
    exact hrep.place.imp_right hv

namespace Machine

/-- The choice points were made below `top`, and restore what was represented. -/
structure Guarded (lcl v top : ℕ) (s : Machine) (As : List (Option Attributes)) : Prop where
  bounds : ∀ c ∈ s.choices, c.1.hb ≤ top ∧ lcl ≤ c.1.b
  restores : s.toState.Restores ChoicePoint.keeps (Held lcl v) As

section

variable {top : ℕ} {As : List (Option Attributes)} (h : s.Guarded lcl v top As)
include h

theorem Guarded.pushCells {cells : List AttCell} (htop : top ≤ s.hr)
    (hlcl : s.hr + cells.length ≤ lcl) : (s.pushCells cells).Guarded lcl v top As where
  bounds := h.bounds
  restores := by
    refine h.restores.of_agree (held_local lcl v) fun c hc a ha => ?_
    obtain ⟨hhb, hb⟩ := h.bounds c hc
    rw [ChoicePoint.keeps, outside, Bool.or_eq_true, decide_eq_true_iff, decide_eq_true_iff] at ha
    by_cases hle : s.hr ≤ a
    · have hnone : cells[a - s.hr]? = none := List.getElem?_eq_none (by omega)
      rw [if_pos hle, hnone, Option.getD_none]
    · rw [if_neg hle]

theorem Guarded.set {a : ℕ} (htop : top ≤ a) (hlcl : a ≤ lcl) (c : AttCell) :
    (s.set a c).Guarded lcl v top As where
  bounds := h.bounds
  restores := by
    refine h.restores.write (held_local lcl v) (fun d hd hkeeps => ?_) c
    obtain ⟨hhb, hb⟩ := h.bounds d (List.mem_of_mem_head? hd)
    rw [ChoicePoint.keeps, outside, Bool.or_eq_true, decide_eq_true_iff, decide_eq_true_iff] at hkeeps
    omega

theorem Guarded.maBind (a : ℕ) (c : AttCell) : (s.maBind a c).Guarded lcl v top As where
  bounds := h.bounds
  restores := by
    refine h.restores.write (held_local lcl v) (fun d hd hkeeps => ?_) c
    rw [Option.mem_def] at hd
    rw [trails, hd]
    exact hkeeps

theorem Guarded.bindGlobal {a : ℕ} (ha : a ≤ lcl) (c : AttCell) : (s.bindGlobal a c).Guarded lcl v top As where
  bounds := h.bounds
  restores := by
    refine h.restores.write (held_local lcl v) (fun d hd hkeeps => ?_) c
    obtain ⟨-, hb⟩ := h.bounds d (List.mem_of_mem_head? hd)
    rw [ChoicePoint.keeps, outside, Bool.or_eq_true, decide_eq_true_iff, decide_eq_true_iff] at hkeeps
    rw [Option.mem_def] at hd
    rw [trailsGlobal, hd, Option.any_some, decide_eq_true_iff]
    omega

end

-- ---------------------------------------------------------------------------
-- Deleting
-- ---------------------------------------------------------------------------

/-- A deletion gives what the map has, and leaves the map without it. -/
theorem delAttr_eq (hlcl : s.hr ≤ lcl) {A : Option Attributes} (h : Represents s.mem s.hr lcl v A)
    (mod : Atom) :
    ∃ s', s.delAttr v mod = some (((A.getD []).lookup mod).map s.deref, s') ∧
      (s' = s ∨ ∃ pt c, s' = s.maBind pt c) ∧
      Represents s'.mem s'.hr lcl v (A.map (Attributes.del mod)) := by
  cases A with
  | none =>
      refine ⟨s, ?_, .inl rfl, h⟩
      rw [delAttr, attsFromTerm_of_plain h]
      rfl
  | some A =>
      obtain ⟨attv, es, hatt, rfl, hnodup⟩ := h
      have hlt := hatt.lt
      have hfind : List.lookup mod (es.map AttEntry.attribute) =
          (es.find? (·.mod = mod)).map AttEntry.value := by
        rw [Attributes.lookup_eq_find?, List.find?_map, Option.map_map]
        rfl
      obtain ⟨hplace, hbound, hfunctor, hdone, vars, t, hvars, hlinks, hfirst⟩ := hatt
      rw [delAttr, attsFromTerm_of_attributed hlcl ⟨hplace, hbound, hfunctor, hdone, vars, t, hvars, hlinks, hfirst⟩]
      simp only [Option.getD_some, Option.map_some]
      rw [hfind, hfirst]
      cases hfound : es.find? (·.mod = mod) with
      | none =>
          have hmod : ∀ e ∈ es, e.mod ≠ mod := by simpa using hfound
          have hself : Attributes.del mod (es.map AttEntry.attribute) = es.map AttEntry.attribute :=
            Attributes.del_eq_self (by rw [hfind, hfound]; rfl)
          refine ⟨s, delAtts_of_forall (by omega) hlinks hmod (by omega) _, .inl rfl, ?_⟩
          rw [hself]
          exact ⟨attv, es, ⟨hplace, hbound, hfunctor, hdone, vars, t, hvars, hlinks, hfirst⟩, rfl, hnodup⟩
      | some e =>
          obtain ⟨pt, c, hpt, hdel, hlinked, hfirst'⟩ :=
            delAtts_of_mem (by omega) hlinks hfound (n := s.hr) (by omega)
          obtain ⟨hle, hpthi, -⟩ := hlinks.linkCell_le hpt
          rw [atts] at hle
          refine ⟨s.maBind pt c, hdel, .inr ⟨pt, c, rfl⟩, attv, es.eraseP (·.mod = mod), ⟨hplace, ?_, ?_, ?_,
            vars, t, hvars, hlinked, hfirst' hfirst⟩, ?_, ?_⟩
          · exact (Function.update_of_ne (by omega) _ _).trans hbound
          · exact (Function.update_of_ne (by omega) _ _).trans hfunctor
          · exact (Function.update_of_ne (by omega) _ _).trans hdone
          · rw [← Attributes.eraseP_eq_del hnodup, List.eraseP_map]
            rfl
          · exact hnodup.sublist (List.filter_sublist.map _)

-- ---------------------------------------------------------------------------
-- Putting
-- ---------------------------------------------------------------------------

theorem mem_pushCells_of_lt {cells : List AttCell} {a : ℕ} (ha : a < s.hr) :
    (s.pushCells cells).mem a = s.mem a :=
  if_neg (by omega)

theorem mem_pushCells_of_le {cells : List AttCell} {a : ℕ} (ha : s.hr + cells.length ≤ a) :
    (s.pushCells cells).mem a = s.mem a := by
  have hnone : cells[a - s.hr]? = none := List.getElem?_eq_none (by omega)
  simp only [pushCells, hnone, Option.getD_none, ite_self]

theorem mem_pushCells_add {cells : List AttCell} {i : ℕ} {c : AttCell} (hc : cells[i]? = some c) :
    (s.pushCells cells).mem (s.hr + i) = c := by
  simp only [pushCells, Nat.le_add_right, if_true, Nat.add_sub_cancel_left, hc, Option.getD_some]

/-- The machine after the first attribute was put. -/
def putNew (v : ℕ) (mod : Atom) (value : AttCell) (s : Machine) : Machine :=
  ((s.buildNewAttVar.bindNonAtt v (.ref (s.hr + 1))).mkAtt mod value).set (atts s.hr) (.nonvar (.appl (s.hr + 5)))

theorem putAttr_of_plain (h : Represents s.mem s.hr lcl v none) (mod : Atom) (value : AttCell) :
    s.putAttr v mod value = some (s.putNew v mod value) := by
  obtain ⟨hplace, hunbound, hplain⟩ := h
  have hatts : ∃ t, (s.buildNewAttVar.bindNonAtt v (.ref (s.hr + 1))).mem (atts s.hr) = .ref t := by
    by_cases hv : atts s.hr = v
    · exact ⟨s.hr + 1, hv ▸ Function.update_self ..⟩
    · refine ⟨s.hr + 3, (Function.update_of_ne hv _ _).trans ?_⟩
      exact mem_pushCells_add (i := 3) rfl
  obtain ⟨t, hatts⟩ := hatts
  rw [putAttr, deref_of_unbound hunbound]
  simp only
  rw [if_neg (by simpa [isAttVar] using hplain), putAtts, searchAtts, hatts]
  rfl

/-- The first attribute is the only entry of a new list. -/
theorem represents_putNew (h : Represents s.mem s.hr lcl v none) (hlcl : s.hr + 9 ≤ lcl) (mod : Atom)
    (value : AttCell) :
    Represents (s.putNew v mod value).mem (s.hr + 9) lcl v (some [(mod, value)]) := by
  obtain ⟨hplace, -, -⟩ := h
  have hrecord : ∀ i < 3, (s.putNew v mod value).mem (s.hr + i) = s.buildNewAttVar.mem (s.hr + i) := by
    intro i hi
    have hmk : (s.putNew v mod value).mem (s.hr + i) =
        (s.buildNewAttVar.bindNonAtt v (.ref (s.hr + 1))).mem (s.hr + i) :=
      (Function.update_of_ne (by rw [atts]; omega) _ _).trans
        (mem_pushCells_of_lt (by change s.hr + i < s.hr + 4; omega))
    rw [hmk]
    exact Function.update_of_ne (by omega) _ _
  have hentry : ∀ i < 5, (s.putNew v mod value).mem (s.hr + 4 + i) =
      ((s.buildNewAttVar.bindNonAtt v (.ref (s.hr + 1))).mkAtt mod value).mem (s.hr + 4 + i) :=
    fun i hi => Function.update_of_ne (by rw [atts]; omega) _ _
  have hvar : (s.putNew v mod value).mem v = .ref (s.hr + 1) := by
    have hmk : (s.putNew v mod value).mem v =
        ((s.buildNewAttVar.bindNonAtt v (.ref (s.hr + 1))).mkAtt mod value).mem v :=
      Function.update_of_ne (by rw [atts]; omega) _ _
    rw [hmk, mkAtt]
    obtain hlt | hle := hplace
    · exact (mem_pushCells_of_lt (by change v < s.hr + 4; omega)).trans (Function.update_self ..)
    · exact (mem_pushCells_of_le (by change s.hr + 4 + 5 ≤ v; omega)).trans (Function.update_self ..)
  have hlast : (s.putNew v mod value).mem (s.hr + 4) = .ref (s.hr + 4) :=
    (hentry 0 (by omega)).trans (mem_pushCells_add (i := 0) rfl)
  have hatts : (s.putNew v mod value).mem (atts s.hr) = .nonvar (.appl (s.hr + 5)) :=
    Function.update_self ..
  refine ⟨s.hr, [⟨s.hr + 5, mod, value⟩], ⟨hplace, hvar, ?_, ?_, {s.hr + 4}, s.hr + 4, ?_, ?_, hatts⟩, rfl, by simp⟩
  · exact (hrecord 0 (by omega)).trans (mem_pushCells_add (i := 0) rfl)
  · exact (hrecord 1 (by omega)).trans (mem_pushCells_add (i := 1) rfl)
  · rintro u rfl
    omega
  · refine ⟨by rw [atts, Set.mem_singleton_iff]; omega, by rw [atts]; simp only; omega, ?_, .inl hatts,
      ⟨?_, ?_, ?_⟩, ?_⟩
    · intro i hi
      rw [Set.mem_singleton_iff]
      simp only
      omega
    · exact (hentry 1 (by omega)).trans (mem_pushCells_add (i := 1) rfl)
    · exact (hentry 2 (by omega)).trans (mem_pushCells_add (i := 2) rfl)
    · exact (hentry 3 (by omega)).trans (mem_pushCells_add (i := 3) rfl)
    · refine ⟨by rw [Set.mem_singleton_iff]; simp only; omega, by simp only; omega, rfl, ?_, hlast⟩
      exact (hentry 4 (by omega)).trans (mem_pushCells_add (i := 4) rfl)

theorem Guarded.putNew {As : List (Option Attributes)} (h : s.Guarded lcl v s.hr As)
    (hlcl : s.hr + 9 ≤ lcl) (mod : Atom) (value : AttCell) :
    (s.putNew v mod value).Guarded lcl v s.hr As := by
  have hbuild : s.buildNewAttVar.Guarded lcl v s.hr As :=
    h.pushCells le_rfl (by simp only [List.length_cons, List.length_nil]; omega)
  have hmk : ((s.buildNewAttVar.bindNonAtt v (.ref (s.hr + 1))).mkAtt mod value).Guarded lcl v s.hr As := by
    refine (hbuild.maBind v (.ref (s.hr + 1))).pushCells ?_ ?_
    · change s.hr ≤ s.hr + 4
      omega
    · change s.hr + 4 + 5 ≤ lcl
      omega
  exact hmk.set (by rw [atts]; omega) (by rw [atts]; omega) _

/-- The machine after another attribute was put. -/
def putLast (t : ℕ) (mod : Atom) (value : AttCell) (s : Machine) : Machine :=
  (s.mkAtt mod value).bindGlobal t (.nonvar (.appl (s.hr + 1)))

/-- An attribute that is not found goes to the end of the list. -/
theorem putAttr_of_attributed (hlcl : s.hr ≤ lcl) (h : Attributed s.mem s.hr lcl v attv es)
    {vars : Set ℕ} {t : ℕ} (hvars : ∀ u ∈ vars, u < s.hr)
    (hlinks : Links s.mem vars s.hr (atts attv) es t) (hfirst : s.mem (atts attv) = firstOf t es)
    {mod : Atom} (hmod : es.find? (·.matches mod) = none) (value : AttCell) :
    s.putAttr v mod value = some (s.putLast t mod value) := by
  obtain ⟨hderef, hatt⟩ := deref_of_attributed hlcl h
  have hsearch := fst_searchAtts hlinks hfirst mod
  rw [hmod] at hsearch
  obtain ⟨⟨found, q⟩, hfound, hfst⟩ := Option.map_eq_some_iff.mp hsearch
  obtain rfl : found = .ref t := hfst
  have htail : (s.mkAtt mod value).mem t = .ref t :=
    (mem_pushCells_of_lt (hvars t hlinks.tail_mem)).trans hlinks.tail_unbound
  rw [putAttr, hderef]
  simp only
  rw [if_pos hatt, Nat.add_sub_cancel, putAtts, hfound]
  simp only [Bool.false_eq_true, if_false]
  rw [unifyTail, deref_of_unbound htail]
  rfl

/-- The new entry is the last one of the list. -/
theorem represents_putLast (hlcl : s.hr + 5 ≤ lcl) (h : Attributed s.mem s.hr lcl v attv es)
    {vars : Set ℕ} {t : ℕ} (hvars : ∀ u ∈ vars, attv + 4 ≤ u ∧ u < s.hr)
    (hlinks : Links s.mem vars s.hr (atts attv) es t) (hfirst : s.mem (atts attv) = firstOf t es)
    (hes : es ≠ []) {mod : Atom} (hmod : (es.map AttEntry.attribute).lookup mod = none)
    (hnodup : ((es.map AttEntry.attribute).map Prod.fst).Nodup) (value : AttCell) :
    Represents (s.putLast t mod value).mem (s.hr + 5) lcl v
      (some (es.map AttEntry.attribute ++ [(mod, value)])) := by
  have hlt := h.lt
  have ht := hvars t hlinks.tail_mem
  have hold : ∀ x, x < s.hr ∨ s.hr + 5 ≤ x → x ≠ t → s.mem x = (s.putLast t mod value).mem x := by
    intro x hx hxt
    have hmk : (s.putLast t mod value).mem x = (s.mkAtt mod value).mem x := Function.update_of_ne hxt _ _
    rw [hmk]
    obtain hx | hx := hx
    · exact (mem_pushCells_of_lt hx).symm
    · exact (mem_pushCells_of_le hx).symm
  have hnew : ∀ i < 5, (s.putLast t mod value).mem (s.hr + i) = (s.mkAtt mod value).mem (s.hr + i) :=
    fun i hi => Function.update_of_ne (by omega) _ _
  have hplace := h.place
  refine ⟨attv, es ++ [⟨s.hr + 1, mod, value⟩], ⟨hplace, ?_, ?_, ?_, insert s.hr vars, s.hr, ?_, ?_, ?_⟩,
    by simp [AttEntry.attribute], ?_⟩
  · rw [← hold v (by omega) (by omega), h.bound]
  · rw [← hold attv (by omega) (by omega), h.functor]
  · rw [← hold (attv + 1) (by omega) (by omega), h.done]
  · rintro u (rfl | hu)
    · omega
    · have hu := hvars u hu
      omega
  · refine hlinks.append (fun u hu => (hvars u hu).2) (Function.update_self ..) (fun x hx => hold x (.inl hx))
      ⟨?_, ?_, ?_⟩ ?_ ?_
    · exact (hnew 1 (by omega)).trans (mem_pushCells_add (i := 1) rfl)
    · exact (hnew 2 (by omega)).trans (mem_pushCells_add (i := 2) rfl)
    · exact (hnew 3 (by omega)).trans (mem_pushCells_add (i := 3) rfl)
    · exact (hnew 0 (by omega)).trans (mem_pushCells_add (i := 0) rfl)
    · exact (hnew 4 (by omega)).trans (mem_pushCells_add (i := 4) rfl)
  · rw [← hold _ (by rw [atts]; omega) (by rw [atts]; omega), hfirst]
    cases es with
    | nil => exact absurd rfl hes
    | cons e es => rfl
  · rw [List.map_append, List.nodup_append]
    refine ⟨hnodup, by simp, fun k hk k' hk' => ?_⟩
    obtain rfl : k' = mod := by simpa using hk'
    rintro rfl
    rw [Attributes.lookup_eq_find?, Option.map_eq_none_iff, List.find?_eq_none] at hmod
    obtain ⟨e, he, rfl⟩ := List.mem_map.mp hk
    exact hmod e he (by simp)

theorem Guarded.putLast {As : List (Option Attributes)} (h : s.Guarded lcl v s.hr As)
    (hlcl : s.hr + 5 ≤ lcl) {t : ℕ} (ht : t < s.hr) (mod : Atom) (value : AttCell) :
    (s.putLast t mod value).Guarded lcl v s.hr As := by
  have hmk : (s.mkAtt mod value).Guarded lcl v s.hr As := h.pushCells le_rfl hlcl
  exact hmk.bindGlobal (by omega) _

-- ---------------------------------------------------------------------------
-- The invariant
-- ---------------------------------------------------------------------------

/-- The cells represent the map, and the choice points the saved maps. -/
structure Tracks (lcl v : ℕ) (s : Machine) (A : AttSpec) : Prop where
  layout : s.Layout lcl v
  nested : s.choices.Pairwise fun c d => d.1.hb ≤ c.1.hb
  current : Represents s.mem s.hr lcl v A.current
  guarded : s.Guarded lcl v s.hr A.saved

theorem Guarded.mono {top top' : ℕ} {As : List (Option Attributes)} (h : s.Guarded lcl v top As)
    (htop : top ≤ top') : s.Guarded lcl v top' As :=
  ⟨fun c hc => ⟨(h.bounds c hc).1.trans htop, (h.bounds c hc).2⟩, h.restores⟩

variable {s' : Machine} {A : AttSpec}

/-- A put that the condition allows. -/
theorem Tracks.exists_put (h : s.Tracks lcl v A) {mod : Atom} {value : AttCell}
    (hok : A.Appends (.put mod value)) :
    ∃ s', s.putAttr v mod value = some s' ∧
      (s'.Layout lcl v → s'.Tracks lcl v (A.step (.put mod value))) := by
  obtain ⟨hlayout, hnested, hcurrent, hguarded⟩ := h
  obtain ⟨current, saved⟩ := A
  cases current with
  | none =>
      refine ⟨_, putAttr_of_plain hcurrent mod value, fun hlayout' => ?_⟩
      have hroom : s.hr + 9 ≤ lcl := hlayout'.hr_le
      have hle : s.hr ≤ s.hr + 9 := Nat.le_add_right ..
      exact ⟨hlayout', hnested, represents_putNew hcurrent hroom mod value,
        (hguarded.putNew hroom mod value).mono hle⟩
  | some A =>
      obtain ⟨attv, es, hatt, rfl, hnodup⟩ := hcurrent
      obtain hnone | ⟨hne, hlookup, hmod⟩ := hok
      · cases hnone
      · have hfind := find?_matches_eq_none hlookup hmod
        obtain ⟨vars, t, hvars, hlinks, hfirst⟩ := hatt.links
        refine ⟨_, putAttr_of_attributed hlayout.hr_le hatt (fun u hu => (hvars u hu).2) hlinks hfirst hfind value,
          fun hlayout' => ?_⟩
        have hroom : s.hr + 5 ≤ lcl := hlayout'.hr_le
        have hes : es ≠ [] := by
          rintro rfl
          exact hne rfl
        refine ⟨hlayout', hnested, ?_,
          (hguarded.putLast hroom (hvars t hlinks.tail_mem).2 mod value).mono (Nat.le_add_right ..)⟩
        have hself : Attributes.del mod (es.map AttEntry.attribute) = es.map AttEntry.attribute :=
          Attributes.del_eq_self hlookup
        simp only [AttSpec.step, Option.getD_some, Attributes.put, hself]
        exact represents_putLast hroom hatt hvars hlinks hfirst hes hlookup hnodup value

theorem Tracks.del (h : s.Tracks lcl v A) {mod : Atom} (hstep : s.step v (.del mod) = some s') :
    s'.Tracks lcl v (A.step (.del mod)) := by
  obtain ⟨hlayout, hnested, hcurrent, hguarded⟩ := h
  obtain ⟨s₁, hdel, hs₁, hrep⟩ := delAttr_eq hlayout.hr_le hcurrent mod
  rw [step, hdel, Option.map_some, Option.some_inj] at hstep
  obtain rfl := hstep
  obtain rfl | ⟨pt, c, rfl⟩ := hs₁
  · exact ⟨hlayout, hnested, hrep, hguarded⟩
  · exact ⟨⟨hlayout.hr_le, hlayout.b_ge, hlayout.nested⟩, hnested, hrep, hguarded.maBind pt c⟩

theorem Tracks.build (h : s.Tracks lcl v A) {cells : List AttCell}
    (hlayout' : (s.pushCells cells).Layout lcl v) : (s.pushCells cells).Tracks lcl v A := by
  obtain ⟨hlayout, hnested, hcurrent, hguarded⟩ := h
  have hroom : s.hr + cells.length ≤ lcl := hlayout'.hr_le
  refine ⟨hlayout', hnested, ?_, (hguarded.pushCells le_rfl hroom).mono (Nat.le_add_right ..)⟩
  refine hcurrent.congr (Nat.le_add_right ..) hroom (fun x hx => (mem_pushCells_of_lt hx).symm) ?_
  obtain hlt | hle := hcurrent.place
  · exact (mem_pushCells_of_lt hlt).symm
  · exact (mem_pushCells_of_le (hroom.trans hle)).symm

theorem Tracks.choicePoint (h : s.Tracks lcl v A) {b : ℕ} (hlayout' : (s.choicePoint b).Layout lcl v) :
    (s.choicePoint b).Tracks lcl v (A.step (.choice b)) := by
  obtain ⟨hlayout, hnested, hcurrent, hguarded⟩ := h
  obtain ⟨hb, hbv⟩ := hlayout'.b_ge _ (List.mem_cons_self ..)
  refine ⟨hlayout', ?_, hcurrent, fun c hc => ?_, ?_⟩
  · exact List.pairwise_cons.mpr ⟨fun c hc => (hguarded.bounds c hc).1, hnested⟩
  · obtain rfl | hc := List.mem_cons.mp hc
    · exact ⟨le_rfl, hb⟩
    · exact hguarded.bounds c hc
  · refine hguarded.restores.choice (fun c hc a ha => ?_) ⟨hcurrent, hlayout.hr_le, hb, hbv⟩
    have hc := List.mem_of_mem_head? hc
    have hhb := (hguarded.bounds c hc).1
    have hbc : b ≤ c.1.b := List.rel_of_pairwise_cons hlayout'.nested hc
    rw [ChoicePoint.keeps, outside, Bool.or_eq_true, decide_eq_true_iff, decide_eq_true_iff] at ha ⊢
    simp only
    omega

theorem Tracks.retry (h : s.Tracks lcl v A) (hstep : s.retry = some s') (hlayout' : s'.Layout lcl v) :
    s'.Tracks lcl v (A.step .retry) := by
  obtain ⟨hlayout, hnested, hcurrent, hbounds, hrestores⟩ := h
  obtain ⟨current, saved⟩ := A
  cases hs : s.choices with
  | nil =>
      rw [Machine.retry, hs] at hstep
      cases hstep
  | cons c cs =>
      rw [Machine.retry, hs] at hstep
      obtain rfl := Option.some_inj.mp hstep
      cases saved with
      | nil =>
          have hlen := hrestores.describes.length_eq
          rw [hs] at hlen
          cases hlen
      | cons A₀ saved =>
          obtain ⟨hrestores', hheld⟩ := hrestores.undo (c := c) (by rw [hs]; rfl)
          refine ⟨hlayout', hnested, hheld.1, fun d hd => ⟨?_, (hbounds d hd).2⟩, hrestores'⟩
          have hd' : d ∈ c :: cs := hs ▸ hd
          rw [hs] at hnested
          obtain rfl | hd' := List.mem_cons.mp hd'
          · exact le_rfl
          · exact List.rel_of_pairwise_cons hnested hd'

theorem Tracks.cut (h : s.Tracks lcl v A) (hlayout' : s.cutChoice.Layout lcl v) :
    s.cutChoice.Tracks lcl v (A.step .cut) := by
  obtain ⟨hlayout, hnested, hcurrent, hbounds, hrestores⟩ := h
  exact ⟨hlayout', hnested.sublist (List.tail_sublist _), hcurrent,
    fun c hc => hbounds c (List.mem_of_mem_tail hc), hrestores.cut⟩

/-- One event keeps the invariant. -/
theorem Tracks.step {e : AttEvent} (h : s.Tracks lcl v A) (hok : A.Appends e) (hstep : s.step v e = some s')
    (hlayout' : s'.Layout lcl v) : s'.Tracks lcl v (A.step e) := by
  cases e with
  | put mod value =>
      obtain ⟨s₁, hput, htracks⟩ := h.exists_put hok
      obtain rfl : s₁ = s' := Option.some_inj.mp (hput.symm.trans hstep)
      exact htracks hlayout'
  | del mod =>
      exact h.del hstep
  | build cells =>
      obtain rfl := Option.some_inj.mp hstep
      exact h.build hlayout'
  | choice b =>
      obtain rfl := Option.some_inj.mp hstep
      exact h.choicePoint hlayout'
  | retry =>
      exact h.retry hstep hlayout'
  | cut =>
      obtain rfl := Option.some_inj.mp hstep
      exact h.cut hlayout'

/-- Under the invariant the predicates behave like the map. -/
theorem Tracks.isMap (h : s.Tracks lcl v A) : s.IsMap v A A.Readable A.Appends where
  get := fun _ hmod => getAttr_eq h.layout.hr_le h.current hmod
  del := by
    intro mod
    obtain ⟨s₁, hdel, -⟩ := delAttr_eq h.layout.hr_le h.current mod
    rw [hdel, Option.map_some]
    rfl
  put := by
    intro mod value hok
    obtain ⟨s₁, hput, -⟩ := h.exists_put hok
    rw [hput]
    rfl

end Machine

-- ---------------------------------------------------------------------------
-- Runs
-- ---------------------------------------------------------------------------

theorem AttRun.tracks {A : AttSpec} (h : AttRun AttSpec.Appends lcl v s A) : s.Tracks lcl v A := by
  induction h with
  | start hunbound hlayout =>
      obtain ⟨hplace, hself, hplain, hchoices⟩ := hunbound
      refine ⟨hlayout, ?_, ⟨hplace, hself, by simpa [Machine.isAttVar] using hplain⟩, ⟨?_, ?_, ?_⟩⟩ <;> rw [hchoices]
      · exact .nil
      · exact fun c hc => absurd hc List.not_mem_nil
      · exact .nil
      · exact .nil
  | step _ hok hstep hlayout ih => exact ih.step hok hstep hlayout

/-- Where modules are put first, or behind others and without a value yet, the
    attributes of a variable behave like a map that backtracking restores. -/
theorem isMap_of_appends {A : AttSpec} (h : AttRun AttSpec.Appends lcl v s A) :
    s.IsMap v A A.Readable A.Appends :=
  h.tracks.isMap

/-- An unbound variable in an empty part of the global stack. -/
def exampleMachine : Machine := ⟨⟨AttCell.ref, [], []⟩, 1⟩

theorem layout_of_no_choices (h : s.choices = []) (hhr : s.hr ≤ lcl) : s.Layout lcl v :=
  ⟨hhr, fun c hc => by simp [h] at hc, by rw [h]; exact .nil⟩

theorem AttRun.example_start (ok : AttSpec → AttEvent → Prop) : AttRun ok 100 0 exampleMachine ⟨none, []⟩ :=
  .start ⟨.inl Nat.one_pos, rfl, by decide, rfl⟩ (layout_of_no_choices rfl (by decide))

theorem layout_of_choice {c : ChoicePoint × ℕ} (h : s.choices = [c]) (hhr : s.hr ≤ lcl)
    (hb : lcl ≤ c.1.b) (hv : lcl ≤ v → c.1.b < v) : s.Layout lcl v where
  hr_le := hhr
  b_ge := by
    intro d hd
    obtain rfl : d = c := by simpa [h] using hd
    exact ⟨hb, hv⟩
  nested := by
    rw [h]
    exact List.pairwise_singleton _ _

theorem isMap_of_appends_retry : ∃ s A, AttRun AttSpec.Appends 100 0 s A ∧
    A.lookup atomInf = some (.nonvar (.int 1)) ∧ A.lookup atomNan = none ∧
    s.IsMap 0 A A.Readable A.Appends := by
  have hrun₁ := AttRun.step (e := .put atomInf (.nonvar (.int 1))) (.example_start AttSpec.Appends) (.inl rfl) rfl
    (layout_of_no_choices rfl (by decide))
  have hrun₂ := hrun₁.step (e := .choice 200) trivial rfl
    (layout_of_choice rfl (by decide) (by decide) (by decide))
  have hrun₃ := hrun₂.step (e := .put atomNan (.nonvar (.int 2))) (.inr ⟨by decide, by decide, by decide⟩) rfl
    (layout_of_choice rfl (by decide) (by decide) (by decide))
  have hrun₄ := hrun₃.step (e := .retry) trivial rfl
    (layout_of_choice rfl (by decide) (by decide) (by decide))
  exact ⟨_, _, hrun₄, by decide, by decide, isMap_of_appends hrun₄⟩

/-- A value that replaces another one goes to the module before. -/
theorem not_isMap : ¬ ∀ (lcl v : ℕ) (s : Machine) (A : AttSpec), AttRun (fun _ _ => True) lcl v s A →
    s.IsMap v A (fun _ => True) (fun _ => True) := by
  intro hall
  have hrun₁ := AttRun.step (e := .put atomInf (.nonvar (.int 1))) (.example_start fun _ _ => True) trivial rfl
    (layout_of_no_choices rfl (by decide))
  have hrun₂ := hrun₁.step (e := .put atomNan (.nonvar (.int 2))) trivial rfl
    (layout_of_no_choices rfl (by decide))
  have hrun₃ := hrun₂.step (e := .put atomNan (.nonvar (.int 3))) trivial rfl
    (layout_of_no_choices rfl (by decide))
  have hget := (hall 100 0 _ _ hrun₃).get atomInf trivial
  cases hget

end Yap
