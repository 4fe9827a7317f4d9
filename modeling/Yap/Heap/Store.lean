-- SUMMARY: The heap: words, cells, functor cells, stores whose reference chains end, dereferencing, writing, and the finite terms that words unfold to.
import Yap.Terms.Term

/-!
# The heap

The cells of arguments and variables can be written; the functor cells and the
contents of boxes are not written by the code modelled here, and are kept apart.
Variables with attributes are not modelled.
-/

namespace Yap

-- ---------------------------------------------------------------------------
-- Cells
-- ---------------------------------------------------------------------------

/-- A word that is not a reference. -/
inductive Nonvar where
  | int (n : BitVec 58)
  | atom (a : Atom)
  | pair (p : Addr)
  | appl (p : Addr)
deriving DecidableEq

/-- The contents of a cell. -/
inductive Cell where
  | ref (a : Addr)
  | nonvar (d : Nonvar)
deriving DecidableEq

/-- What an `Appl` word points to: a functor followed by arguments, or the functor
    of a box followed by its contents. -/
inductive FunctorCell where
  | functor (f : Functor)
  | blob (b : Blob)
deriving DecidableEq

/-- The functor cells, and `HR`, the top of the global stack. -/
structure Heap where
  functorAt : Addr → FunctorCell
  hr : Addr

variable (hp : Heap)

/-- The first argument cell of a compound word and the number of its arguments. -/
def Nonvar.block : Nonvar → Addr × ℕ
  | .pair p => (p, 2)
  | .appl p =>
    match hp.functorAt p with
    | .functor f => (p + 1, f.arityOfFE)
    | .blob _ => (p + 1, 0)
  | _ => (0, 0)

/-- The argument cells of a word. -/
def Nonvar.cells (d : Nonvar) : List Addr := List.range' (d.block hp).1 (d.block hp).2

/-- The cells that a cell refers to. -/
def Cell.cells : Cell → List Addr
  | .ref a => [a]
  | .nonvar d => d.cells hp

/-- The cells that a cell refers to are in a region. -/
def Cell.Within (R : Finset Addr) (c : Cell) : Prop := ∀ a ∈ c.cells hp, a ∈ R

/-- The region holds the cells that its cells refer to. -/
def Closed (R : Finset Addr) (m : Addr → Cell) : Prop := ∀ a ∈ R, (m a).Within hp R

section

variable {hp}

@[simp] theorem Cell.within_ref {R : Finset Addr} {a : Addr} : (Cell.ref a).Within hp R ↔ a ∈ R := by
  simp [Within, cells]

@[simp] theorem Nonvar.cells_pair (p : Addr) : (Nonvar.pair p).cells hp = [p, p + 1] := rfl

theorem Nonvar.mem_cells_appl {p a : Addr} {f : Functor} (hf : hp.functorAt p = .functor f) :
    a ∈ (Nonvar.appl p).cells hp ↔ ∃ i : Fin f.arityOfFE, p + 1 + i = a := by
  have hblock : (Nonvar.appl p).block hp = (p + 1, f.arityOfFE) := by rw [block, hf]
  rw [cells, hblock, List.mem_range'_1]
  constructor
  · intro ha
    exact ⟨⟨a - (p + 1), by omega⟩, Nat.add_sub_cancel' ha.1⟩
  · rintro ⟨i, rfl⟩
    simp only
    omega

theorem Nonvar.cells_blob {p : Addr} {b : Blob} (hb : hp.functorAt p = .blob b) :
    (Nonvar.appl p).cells hp = [] := by
  rw [cells, block, hb]
  rfl

end

-- ---------------------------------------------------------------------------
-- Stores
-- ---------------------------------------------------------------------------

/-- The cells that can be written. A chain of references ends in a word or in an
    unbound variable, a cell that refers to itself. -/
@[ext]
structure Store where
  cell : Addr → Cell
  refs_end : WellFounded fun b a => cell a = .ref b ∧ b ≠ a

namespace Store

/-- The addresses of a store, ordered by its references. -/
def At (_ : Store) : Type := Addr

instance (s : Store) : WellFoundedRelation s.At := ⟨_, s.refs_end⟩

/-- `deref_head` and `deref_body`, from the contents of the cell `a`. -/
def derefCell (s : Store) (a : Addr) : Cell :=
  match _h : s.cell a with
  | .ref b => if _hb : b = a then .ref a else s.derefCell b
  | .nonvar d => .nonvar d
termination_by (show s.At from a)
decreasing_by exact ⟨_h, _hb⟩

/-- The word or the unbound variable that a word leads to. -/
def deref (s : Store) : Cell → Cell
  | .ref a => s.derefCell a
  | .nonvar d => .nonvar d

theorem derefCell_unbound {s : Store} {a : Addr} (h : s.cell a = .ref a) :
    s.derefCell a = .ref a := by
  rw [derefCell]
  split <;> simp_all

theorem derefCell_ne {s : Store} {a : Addr} (h : s.cell a ≠ .ref a) :
    s.derefCell a = s.deref (s.cell a) := by
  rw [derefCell]
  split <;> simp_all [deref]

theorem deref_of_unbound {s : Store} {a : Addr} (h : s.cell a = .ref a) : s.deref (.ref a) = .ref a :=
  derefCell_unbound h

theorem deref_of_cell {s : Store} {a : Addr} {c : Cell} (h : s.cell a = c) (hc : c ≠ .ref a) :
    s.deref (.ref a) = s.deref c := by
  subst h
  exact derefCell_ne hc

/-- A store of words and unbound variables. -/
def ofWords (m : Addr → Option Nonvar) : Store where
  cell a := (m a).elim (.ref a) .nonvar
  refs_end := by
    refine ⟨fun a => ⟨_, fun b hb => absurd hb.1 ?_⟩⟩
    cases m a with
    | none => exact fun h => hb.2 (Cell.ref.inj h).symm
    | some d => exact fun h => by cases h

theorem deref_ofWords (m : Addr → Option Nonvar) (a : Addr) :
    (ofWords m).deref (.ref a) = (m a).elim (.ref a) .nonvar := by
  have hcell : (ofWords m).cell a = (m a).elim (.ref a) .nonvar := rfl
  cases hm : m a with
  | none =>
    rw [hm] at hcell
    exact deref_of_unbound hcell
  | some d =>
    rw [hm] at hcell
    exact deref_of_cell hcell fun h => by cases h

/-- Induction along the references of a store. -/
theorem deref_induction {s : Store} {motive : Addr → Prop}
    (unbound : ∀ a, s.cell a = .ref a → motive a)
    (ref : ∀ a b, s.cell a = .ref b → b ≠ a → motive b → motive a)
    (nonvar : ∀ a d, s.cell a = .nonvar d → motive a) (a : Addr) : motive a := by
  induction a using s.refs_end.induction with
  | h a ih =>
      cases hc : s.cell a with
      | nonvar d => exact nonvar a d hc
      | ref b =>
          by_cases hb : b = a
          · exact unbound a (hb ▸ hc)
          · exact ref a b hc hb (ih b ⟨hc, hb⟩)

/-- A reference that a chain ends in is an unbound variable. -/
theorem unbound_of_derefCell {s : Store} {a v : Addr} (h : s.derefCell a = .ref v) :
    s.cell v = .ref v := by
  induction a using deref_induction (s := s) with
  | unbound a ha =>
      rw [derefCell_unbound ha] at h
      obtain rfl := Cell.ref.inj h
      exact ha
  | ref a b hc hb ih =>
      rw [derefCell_ne (by simp [hc, hb]), hc] at h
      exact ih h
  | nonvar a d hc =>
      rw [derefCell_ne (by simp [hc]), hc] at h
      cases h

theorem unbound_of_deref {s : Store} {c : Cell} {v : Addr} (h : s.deref c = .ref v) :
    s.cell v = .ref v := by
  cases c with
  | ref a => exact unbound_of_derefCell h
  | nonvar d => cases h

variable {hp} in
/-- A transitive relation between a cell and what it holds relates a word to what
    it leads to. -/
theorem deref_chain {s : Store} {R : Finset Addr} (hR : Closed hp R s.cell) {r : Cell → Cell → Prop}
    (refl : ∀ c, r c c) (trans : ∀ c d e, r c d → r d e → r c e)
    (step : ∀ a ∈ R, r (.ref a) (s.cell a)) {c : Cell} (hc : c.Within hp R) :
    r c (s.deref c) ∧ (s.deref c).Within hp R := by
  cases c with
  | nonvar d => exact ⟨refl _, hc⟩
  | ref a =>
      have ha : a ∈ R := hc a (List.mem_singleton.mpr rfl)
      clear hc
      induction a using deref_induction (s := s) with
      | unbound a hunbound =>
          rw [deref, derefCell_unbound hunbound]
          exact ⟨refl _, Cell.within_ref.mpr ha⟩
      | ref a b hcell hb ih =>
          have hstep := step a ha
          have hmem := hR a ha
          rw [hcell] at hstep hmem
          rw [deref, derefCell_ne (by simp [hcell, hb]), hcell]
          obtain ⟨hr, hwithin⟩ := ih (hmem b (List.mem_singleton.mpr rfl))
          exact ⟨trans _ _ _ hstep hr, hwithin⟩
      | nonvar a d hcell =>
          have hstep := step a ha
          have hmem := hR a ha
          rw [hcell] at hstep hmem
          rw [deref, derefCell_ne (by simp [hcell]), hcell]
          exact ⟨hstep, hmem⟩

-- ---------------------------------------------------------------------------
-- Writing
-- ---------------------------------------------------------------------------

/-- A word may be written to a cell, and so may another unbound variable. -/
def Writable (s : Store) (a : Addr) (c : Cell) : Prop :=
  ∀ b, c = .ref b → b ≠ a ∧ s.cell b = .ref b

/-- Chains of references still end when an unbound variable or a word is written. -/
theorem refs_end_update {s : Store} {a : Addr} {c : Cell} (hc : s.Writable a c) :
    WellFounded fun b x => Function.update s.cell a c x = .ref b ∧ b ≠ x := by
  refine ⟨fun x => ?_⟩
  have hleaf : ∀ {x : Addr}, (∀ b, Function.update s.cell a c x = .ref b → b = x) →
      Acc (fun b x => Function.update s.cell a c x = .ref b ∧ b ≠ x) x :=
    fun hx => ⟨_, fun b hb => absurd (hx b hb.1) hb.2⟩
  have ha : Acc (fun b x => Function.update s.cell a c x = .ref b ∧ b ≠ x) a := by
    refine ⟨_, fun b hb => hleaf fun b' hb' => ?_⟩
    rw [Function.update_self] at hb
    obtain ⟨hne, hunbound⟩ := hc b hb.1
    rw [Function.update_of_ne hne, hunbound] at hb'
    exact (Cell.ref.inj hb').symm
  induction x using deref_induction (s := s) with
  | unbound x hx =>
      by_cases hxa : x = a
      · exact hxa ▸ ha
      · refine hleaf fun b hb => ?_
        rw [Function.update_of_ne hxa, hx] at hb
        exact (Cell.ref.inj hb).symm
  | ref x y hx hy ih =>
      by_cases hxa : x = a
      · exact hxa ▸ ha
      · refine ⟨_, fun b hb => ?_⟩
        rw [Function.update_of_ne hxa, hx] at hb
        exact Cell.ref.inj hb.1 ▸ ih
  | nonvar x d hx =>
      by_cases hxa : x = a
      · exact hxa ▸ ha
      · refine hleaf fun b hb => ?_
        rw [Function.update_of_ne hxa, hx] at hb
        cases hb

/-- `*a = c`. -/
def set (s : Store) (a : Addr) (c : Cell) (hc : s.Writable a c) : Store where
  cell := Function.update s.cell a c
  refs_end := refs_end_update hc

/-- After a binding, what led to the variable leads to its value. -/
theorem deref_set {s s₁ : Store} {a : Addr} {c : Cell} (hcell : s₁.cell = Function.update s.cell a c)
    (ha : s.cell a = .ref a) (hc : s.Writable a c) (d : Cell) :
    s₁.deref d = if s.deref d = .ref a then c else s.deref d := by
  have hval : s₁.derefCell a = c := by
    have hcell_a : s₁.cell a = c := by rw [hcell, Function.update_self]
    cases c with
    | nonvar d => rw [derefCell_ne (by simp [hcell_a]), hcell_a]; rfl
    | ref b =>
        obtain ⟨hba, hb⟩ := hc b rfl
        have hcell_b : s₁.cell b = .ref b := by rw [hcell, Function.update_of_ne hba, hb]
        rw [derefCell_ne (by simp [hcell_a, hba]), hcell_a]
        exact derefCell_unbound hcell_b
  cases d with
  | nonvar d => rw [deref, deref, if_neg (by rintro ⟨⟩)]
  | ref x =>
      rw [deref, deref]
      induction x using deref_induction (s := s) with
      | unbound x hx =>
          rw [derefCell_unbound hx]
          by_cases hxa : x = a
          · rw [hxa, hval, if_pos rfl]
          · rw [if_neg (by simpa using hxa)]
            exact derefCell_unbound (by rw [hcell, Function.update_of_ne hxa, hx])
      | ref x y hx hy ih =>
          have hxa : x ≠ a := by
            rintro rfl
            exact hy (Cell.ref.inj (hx.symm.trans ha))
          have hx' : s₁.cell x = .ref y := by rw [hcell, Function.update_of_ne hxa, hx]
          rw [derefCell_ne (by simp [hx', hy]), hx', derefCell_ne (by simp [hx, hy]), hx]
          exact ih
      | nonvar x d hx =>
          have hxa : x ≠ a := by
            rintro rfl
            cases hx.symm.trans ha
          have hx' : s₁.cell x = .nonvar d := by rw [hcell, Function.update_of_ne hxa, hx]
          rw [derefCell_ne (by simp [hx']), hx', derefCell_ne (by simp [hx]), hx, deref, deref,
            if_neg (by rintro ⟨⟩)]

end Store

end Yap
