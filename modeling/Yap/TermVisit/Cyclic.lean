-- SUMMARY: Walks whose hooks only test, and that `cyclic_term` reports the compounds that are read through the head cell of a list around them, which is not what a loop is.
import Yap.TermVisit.Paths
import Yap.TermVisit.Steps

/-!
# Cyclic terms

`cyclic_term` is the walk with a hook that looks for a mark in the cell that a list or
a compound has been read from. The mark is in the head cell or the functor cell of
what is open, so a loop is only seen through a reference to a head cell.
`acyclic_term` is the search of `rational_tree`.
-/

namespace Yap

open Relation

variable {hp : Heap} {s : Store} {root : Addr} {R : Finset Addr}

-- ---------------------------------------------------------------------------
-- Hooks that test
-- ---------------------------------------------------------------------------

section

variable {ω : Type} {h : Hooks Unit ω} {test : WalkEvent → Bool} {w : ω}

variable (h test w) in
/-- The hooks end the walk with a result at the events of a kind. -/
def Hooks.Tests : Prop :=
  ∀ e, h.event (.start ()) e = if test e then .quit w (.start ()) else .done (.start ())

theorem Hooks.Tests.run (ht : h.Tests test w) (es : List WalkEvent) :
    h.run (.start ()) es = if es.any test then .quit w (.start ()) else .done (.start ()) := by
  induction es with
  | nil => rfl
  | cons e es ih =>
    rw [Hooks.run, ht e, List.any_cons]
    cases test e with
    | true => rfl
    | false => exact ih

/-- Such a walk says whether there is an event of the kind, and leaves the store. -/
theorem HasEvents.answer {es : List WalkEvent} (hv : HasEvents hp s [] [(root, root)] es) (hR : Closed hp R s.cell)
    (hroot : root ∈ R) (hs : h.Silent) (ht : h.Tests test w) :
    Yap.termVisit h root (cellWords hp s) [] () (if es.any test then w else h.nomore (), cellWords hp s) := by
  obtain ⟨x₀, hreach, -, hres⟩ := hv.termVisit hR hroot hs (WalkData.start_sound ())
  obtain rfl : x₀ = .start () := by
    induction hreach with
    | refl => rfl
    | tail _ hstep _ =>
      obtain ⟨_, _, _, _, rfl⟩ := hstep
      rfl
  rw [ht.run, WalkData.start_beneath] at hres
  cases hany : es.any test with
  | true =>
    rw [hany] at hres
    exact hres
  | false =>
    rw [hany] at hres
    exact hres

end

-- ---------------------------------------------------------------------------
-- What is reported
-- ---------------------------------------------------------------------------

theorem cyclicHooks_silent : cyclicHooks.Silent where
  list data ptd0 p marked x h := by
    cases marked with
    | true => cases h
    | false => exact Except.ok.inj h ▸ rfl
  compound data ptd0 p marked x h := by
    cases marked with
    | true => cases h
    | false => exact Except.ok.inj h ▸ rfl
  atomic _ _ _ _ := rfl
  constant _ _ _ _ _ _ h := by cases h
  unmarked _ _ _ _ := rfl

/-- A list or a compound that is read from a marked cell. -/
def WalkEvent.fromMarked : WalkEvent → Bool
  | .list _ _ marked | .compound _ _ marked => marked
  | .occurrence .. => false

theorem cyclicHooks_tests : cyclicHooks.Tests WalkEvent.fromMarked true := by
  intro e
  cases e with
  | list ptd0 p marked => cases marked <;> rfl
  | compound ptd0 p marked => cases marked <;> rfl
  | occurrence ptd0 v marked => rfl

variable (hp s root) in
/-- A path of the walk reads a compound, or a list that is not open, from the head cell of
    a list that is open. -/
def HeadRead : Prop :=
  ∃ path q src, Below hp s root path q src ∧ .arg q ∈ path ∧
    ((∃ p, s.cell src = .nonvar (.pair p) ∧ .arg p ∉ path) ∨
      ∃ p f, s.cell src = .nonvar (.appl p) ∧ hp.functorAt p = .functor f)

theorem HasEvents.any_fromMarked {es : List WalkEvent} (hv : HasEvents hp s [] [(root, root)] es) :
    es.any WalkEvent.fromMarked = true ↔ HeadRead hp s root := by
  rw [List.any_eq_true]
  constructor
  · rintro ⟨e, he, hmarked⟩
    have hmet := hv.mem_iff.mp he
    cases e with
    | list q p marked =>
      obtain ⟨path, src, hbelow, hcell, hpath, hq⟩ := hmet
      exact ⟨path, q, src, hbelow, of_decide_eq_true (hq.symm.trans hmarked), .inl ⟨p, hcell, hpath⟩⟩
    | compound q p marked =>
      obtain ⟨path, src, f, hbelow, hcell, hf, hq⟩ := hmet
      exact ⟨path, q, src, hbelow, of_decide_eq_true (hq.symm.trans hmarked), .inr ⟨p, f, hcell, hf⟩⟩
    | occurrence q v marked => cases hmarked
  · rintro ⟨path, q, src, hbelow, hq, ⟨p, hcell, hpath⟩ | ⟨p, f, hcell, hf⟩⟩
    · exact ⟨.list q p true, hv.mem_iff.mpr ⟨path, src, hbelow, hcell, hpath, (decide_eq_true hq).symm⟩, rfl⟩
    · exact ⟨.compound q p true, hv.mem_iff.mpr ⟨path, src, f, hbelow, hcell, hf, (decide_eq_true hq).symm⟩, rfl⟩

/-- Only compounds have arguments. -/
theorem rootKind_of_pair {p : Addr} (h : s.deref (.ref root) = .nonvar (.pair p)) : rootKind hp s root = .compound := by
  rw [rootKind, h]

theorem rootKind_of_appl {p : Addr} {f : Functor} (h : s.deref (.ref root) = .nonvar (.appl p))
    (hf : hp.functorAt p = .functor f) : rootKind hp s root = .compound := by
  simp only [rootKind, h, hf]

theorem Below.rootKind {path : List Place} {q src : Addr} (h : Below hp s root path q src) :
    (path = [] → s.deref (.ref src) = s.deref (.ref root)) ∧ (path ≠ [] → rootKind hp s root = .compound) := by
  induction h with
  | root => exact ⟨fun _ => rfl, fun hne => absurd rfl hne⟩
  | @ref path q src a _ hcell hne ih =>
    exact ⟨fun hnil => (Leads.ref (q := q) hcell hne (.refl a a)).deref.symm.trans (ih.1 hnil), ih.2⟩
  | @head path q src p _ hcell _ ih =>
    refine ⟨fun hnil => (by cases hnil), fun _ => ?_⟩
    by_cases hnil : path = []
    · exact rootKind_of_pair ((ih.1 hnil).symm.trans (deref_word hcell))
    · exact ih.2 hnil
  | @tail path q src p _ hcell _ ih =>
    refine ⟨fun hnil => (by cases hnil), fun _ => ?_⟩
    by_cases hnil : path = []
    · exact rootKind_of_pair ((ih.1 hnil).symm.trans (deref_word hcell))
    · exact ih.2 hnil
  | @argument path q src p a f _ hcell hf _ _ ih =>
    refine ⟨fun hnil => (by cases hnil), fun _ => ?_⟩
    by_cases hnil : path = []
    · exact rootKind_of_appl ((ih.1 hnil).symm.trans (deref_word hcell)) hf
    · exact ih.2 hnil

theorem HeadRead.rootKind (h : HeadRead hp s root) : rootKind hp s root = .compound := by
  obtain ⟨path, q, src, hbelow, hq, -⟩ := h
  exact hbelow.rootKind.2 (List.ne_nil_of_mem hq)

/-- What `cyclic_term` answers. -/
theorem exists_isCyclicTerm (hR : Closed hp R s.cell) (hroot : root ∈ R) :
    ∃ cyclic, isCyclicTerm hp s root (cyclic, cellWords hp s) ∧ (cyclic = true ↔ HeadRead hp s root) := by
  have hnot : rootKind hp s root ≠ .compound → ¬ HeadRead hp s root := fun hne h => hne h.rootKind
  unfold isCyclicTerm answers
  cases hkind : rootKind hp s root with
  | var v => exact ⟨false, rfl, iff_of_false Bool.false_ne_true (hnot (by rw [hkind]; exact fun h => by cases h))⟩
  | primitive => exact ⟨false, rfl, iff_of_false Bool.false_ne_true (hnot (by rw [hkind]; exact fun h => by cases h))⟩
  | compound =>
    obtain ⟨es, hv⟩ := exists_visits hR [] [(root, root)] (List.forall_mem_singleton.mpr hroot)
    refine ⟨_, hv.answer hR hroot cyclicHooks_silent cyclicHooks_tests, ?_⟩
    rw [← hv.any_fromMarked]
    cases es.any WalkEvent.fromMarked with
    | true => rfl
    | false => rfl

-- ---------------------------------------------------------------------------
-- Acyclic terms
-- ---------------------------------------------------------------------------

variable (hp s) in
/-- `rational_tree`, with the memory it leaves. -/
def rationalTreeOf (d0 : Nonvar) (r : Bool × (Addr → MarkedCell)) : Prop :=
  match d0 with
  | .pair p => rationalTreeLoop hp s p 2 r
  | .appl p =>
    match hp.functorAt p with
    | .functor f => rationalTreeLoop hp s (p + 1) f.arityOfFE r
    | .blob _ => r = (false, s.unmarked)
  | _ => r = (false, s.unmarked)

variable (hp s root) in
/-- `p_acyclic`. -/
def acyclicTerm (r : Bool × (Addr → MarkedCell)) : Prop :=
  match s.deref (.ref root) with
  | .ref _ => r = (true, s.unmarked)
  | .nonvar d0 => rationalTreeOf hp s d0 (!r.1, r.2)

/-- A loop below a word is one below its arguments. -/
theorem hasLoop_cells {d : Nonvar} (hd : s.deref (.ref root) = .nonvar d) :
    HasLoop hp s [root] ↔ HasLoop hp s (d.cells hp) := by
  have hroot : ∀ e, LeadTo hp s [root] e ↔ e = d ∨ LeadTo hp s (d.cells hp) e := by
    intro e
    constructor
    · rintro ⟨a, ha, d', hd', hreach⟩
      obtain rfl := List.mem_singleton.mp ha
      obtain rfl := Cell.nonvar.inj (hd.symm.trans hd')
      rcases ReflTransGen.cases_head hreach with rfl | ⟨c, ⟨b, hb, hderef⟩, hrest⟩
      · exact .inl rfl
      · exact .inr ⟨b, hb, c, hderef, hrest⟩
    · rintro (rfl | ⟨a, ha, c, hc, hreach⟩)
      · exact ⟨root, List.mem_singleton_self _, e, hd, .refl⟩
      · exact ⟨root, List.mem_singleton_self _, d, hd, .head ⟨a, ha, hc⟩ hreach⟩
  constructor
  · rintro ⟨e, he, hloop⟩
    rcases (hroot e).mp he with rfl | he
    · obtain ⟨b, hb, hstep⟩ := TransGen.tail'_iff.mp hloop
      obtain ⟨a, ha, hderef⟩ := hstep
      exact ⟨e, ⟨a, ha, b, hderef, hb.swap⟩, hloop⟩
    · exact ⟨e, he, hloop⟩
  · rintro ⟨e, he, hloop⟩
    exact ⟨e, (hroot e).mpr (.inr he), hloop⟩

/-- `rational_tree` says whether there is a loop below the arguments. -/
theorem exists_rationalTreeOf (hR : Closed hp R s.cell) {d : Nonvar} (hd : (Cell.nonvar d).Within hp R) :
    ∃ found, rationalTreeOf hp s d (found, s.unmarked) ∧ (found = true ↔ HasLoop hp s (d.cells hp)) := by
  have hblock : ∀ l n, d.block hp = (l, n) →
      ∃ found, rationalTreeLoop hp s l n (found, s.unmarked) ∧ (found = true ↔ HasLoop hp s (d.cells hp)) := by
    intro l n hb
    have hcells : ∀ a ∈ remaining l (l + n), a ∈ R := by
      rw [remaining_block hb]
      exact hd
    obtain ⟨found, hret, hfound⟩ := exists_rationalTreeLoop hR hcells
    refine ⟨found, hret, ?_⟩
    rw [unfolds_iff_not_hasLoop hR hcells, remaining_block hb] at hfound
    rw [← not_iff_not, ← hfound, Bool.not_eq_true]
  have hleaf : d.cells hp = [] → ((false : Bool) = true ↔ HasLoop hp s (d.cells hp)) := by
    intro hnil
    rw [hnil]
    refine iff_of_false Bool.false_ne_true ?_
    rintro ⟨_, ⟨a, ha, -⟩, -⟩
    cases ha
  cases d with
  | int n => exact ⟨false, rfl, hleaf rfl⟩
  | atom a => exact ⟨false, rfl, hleaf rfl⟩
  | pair p => exact hblock p 2 rfl
  | appl p =>
    cases hf : hp.functorAt p with
    | blob b =>
      simp only [rationalTreeOf, hf]
      exact ⟨false, rfl, hleaf (Nonvar.cells_blob hf)⟩
    | functor f =>
      simp only [rationalTreeOf, hf]
      exact hblock (p + 1) f.arityOfFE (by rw [Nonvar.block, hf])

/-- `acyclic_term` says whether there is no loop. -/
theorem exists_acyclicTerm (hR : Closed hp R s.cell) (hroot : root ∈ R) :
    ∃ acyclic, acyclicTerm hp s root (acyclic, s.unmarked) ∧ (acyclic = false ↔ HasLoop hp s [root]) := by
  unfold acyclicTerm
  cases hderef : s.deref (.ref root) with
  | ref v =>
    refine ⟨true, rfl, iff_of_false (fun h => by cases h) ?_⟩
    rintro ⟨_, ⟨a, ha, e, he, _⟩, _⟩
    rw [List.mem_singleton.mp ha, hderef] at he
    cases he
  | nonvar d =>
    have hwithin := Store.deref_within hR (Cell.within_ref.mpr hroot)
    rw [hderef] at hwithin
    obtain ⟨found, hret, hfound⟩ := exists_rationalTreeOf hR hwithin
    refine ⟨!found, by rwa [Bool.not_not], ?_⟩
    rw [hasLoop_cells hderef, ← hfound]
    cases found <;> decide

-- ---------------------------------------------------------------------------
-- The specification
-- ---------------------------------------------------------------------------

variable (hp s root) in
/-- `cyclic_term` and `acyclic_term` end and say whether the term has a loop, the one
    the opposite of the other, and the term is as before. -/
def CyclicDecided : Prop :=
  ∃ cyclic acyclic, isCyclicTerm hp s root (cyclic, cellWords hp s) ∧ acyclicTerm hp s root (acyclic, s.unmarked) ∧
    (cyclic = true ↔ HasLoop hp s [root]) ∧ acyclic = !cyclic

theorem answers_unique {ω : Type} {var : Addr → ω} {primitive : ω} {walk : ω × (Place → WalkWord) → Prop}
    {r r' : ω × (Place → WalkWord)} (hwalk : walk r → walk r' → r = r') (h : answers hp s root var primitive walk r)
    (h' : answers hp s root var primitive walk r') : r = r' := by
  unfold answers at h h'
  cases hkind : rootKind hp s root with
  | var v =>
    rw [hkind] at h h'
    exact h.trans h'.symm
  | primitive =>
    rw [hkind] at h h'
    exact h.trans h'.symm
  | compound =>
    rw [hkind] at h h'
    exact hwalk h h'

theorem isCyclicTerm_unique {r r' : Bool × (Place → WalkWord)} (h : isCyclicTerm hp s root r)
    (h' : isCyclicTerm hp s root r') : r = r' :=
  answers_unique Machine.Returns.unique h h'

/-- The paths of `X = [1|X]`. -/
theorem below_onesForever {path : List Place} {q src : Addr} (h : Below stringHeap (.ofWords onesForever) 1 path q src) :
    q = 1 ∧ src ≤ 1 ∧ ∀ pl ∈ path, pl = .arg 0 := by
  induction h with
  | root => exact ⟨rfl, le_rfl, fun pl hpl => by cases hpl⟩
  | @ref path q src a _ hcell hne ih =>
    obtain rfl | rfl : src = 0 ∨ src = 1 := Nat.le_one_iff_eq_zero_or_eq_one.mp ih.2.1
    · cases hcell
    · cases hcell
  | @head path q src p _ hcell _ ih =>
    obtain rfl | rfl : src = 0 ∨ src = 1 := Nat.le_one_iff_eq_zero_or_eq_one.mp ih.2.1
    · cases hcell
    · cases hcell
      exact ⟨ih.1, Nat.zero_le 1, List.forall_mem_cons.mpr ⟨rfl, ih.2.2⟩⟩
  | @tail path q src p _ hcell _ ih =>
    obtain rfl | rfl : src = 0 ∨ src = 1 := Nat.le_one_iff_eq_zero_or_eq_one.mp ih.2.1
    · cases hcell
    · cases hcell
      exact ⟨rfl, le_rfl, List.forall_mem_cons.mpr ⟨rfl, ih.2.2⟩⟩
  | @argument path q src p a f _ hcell _ _ _ ih =>
    obtain rfl | rfl : src = 0 ∨ src = 1 := Nat.le_one_iff_eq_zero_or_eq_one.mp ih.2.1
    · cases hcell
    · cases hcell

end Yap
