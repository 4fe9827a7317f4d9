-- SUMMARY: Memories with a trail of old values and choice points, and rules for what returning to a choice point restores.
import Mathlib

/-!
# Trails

A write may record the value that it replaces. Returning to a choice point writes
the values recorded since then back, the latest first. A choice point keeps some
cells: a write to one of these must be recorded, and what depends on these cells
alone is then restored.
-/

namespace Trail

variable {α β κ γ : Type*} [DecidableEq α]

-- ---------------------------------------------------------------------------
-- Recorded values
-- ---------------------------------------------------------------------------

/-- Writes recorded values back, the first of the list first. -/
def rewind : List (α × β) → (α → β) → α → β
  | [], m => m
  | (a, b) :: es, m => rewind es (Function.update m a b)

theorem rewind_append (es es' : List (α × β)) (m : α → β) :
    rewind (es ++ es') m = rewind es' (rewind es m) := by
  induction es generalizing m with
  | nil => rfl
  | cons e es ih =>
      obtain ⟨a, b⟩ := e
      exact ih _

/-- A write is undone by its old value. -/
theorem rewind_update (es : List (α × β)) (m : α → β) (a : α) (b : β) :
    rewind ((a, m a) :: es) (Function.update m a b) = rewind es m := by
  rw [rewind, Function.update_idem, Function.update_eq_self]

/-- Other cells are not written. -/
theorem rewind_of_notMem {es : List (α × β)} {m : α → β} {a : α} (h : a ∉ es.map Prod.fst) : rewind es m a = m a := by
  induction es generalizing m with
  | nil => rfl
  | cons e es ih =>
      obtain ⟨a', b⟩ := e
      obtain ⟨hne, hnotMem⟩ := not_or.mp (List.mem_cons.not.mp h)
      exact (ih hnotMem).trans (Function.update_of_ne hne ..)

/-- What is written back to a cell, or else is in it, depends on this cell only. -/
theorem rewind_congr {es : List (α × β)} {m m' : α → β} {a : α} (h : m a = m' a) :
    rewind es m a = rewind es m' a := by
  induction es generalizing m m' with
  | nil => exact h
  | cons e es ih =>
      obtain ⟨a', b⟩ := e
      apply ih
      by_cases ha : a = a'
      · rw [ha, Function.update_self, Function.update_self]
      · rw [Function.update_of_ne ha, Function.update_of_ne ha, h]

/-- What is written back to a cell does not depend on what is in it. -/
theorem rewind_of_mem {es : List (α × β)} {m m' : α → β} {a : α} (ha : a ∈ es.map Prod.fst) :
    rewind es m a = rewind es m' a := by
  induction es generalizing m m' with
  | nil => cases ha
  | cons e es ih =>
      obtain ⟨a', b⟩ := e
      obtain rfl | ha := List.mem_cons.mp ha
      · rw [rewind, rewind]
        apply rewind_congr
        rw [Function.update_self, Function.update_self]
      · exact ih ha

-- ---------------------------------------------------------------------------
-- States
-- ---------------------------------------------------------------------------

/-- A memory, the recorded values with the latest first, and the choice points with
    the latest first, each with the length of the trail when it was made. -/
structure State (α β κ : Type*) where
  mem : α → β
  trail : List (α × β)
  choices : List (κ × ℕ)

namespace State

/-- The values recorded since the trail had a length. -/
def since (s : State α β κ) (n : ℕ) : List (α × β) := s.trail.take (s.trail.length - n)

/-- Writes to a cell and may record the old value. -/
def write (recorded : Bool) (a : α) (b : β) (s : State α β κ) : State α β κ where
  mem := Function.update s.mem a b
  trail := if recorded then (a, s.mem a) :: s.trail else s.trail
  choices := s.choices

/-- Makes a choice point. -/
def choice (k : κ) (s : State α β κ) : State α β κ where
  mem := s.mem
  trail := s.trail
  choices := (k, s.trail.length) :: s.choices

/-- Returns to a choice point that was made with a length of the trail. -/
def undo (n : ℕ) (s : State α β κ) : State α β κ where
  mem := rewind (s.since n) s.mem
  trail := s.trail.drop (s.trail.length - n)
  choices := s.choices

/-- Removes the latest choice point. -/
def cut (s : State α β κ) : State α β κ where
  mem := s.mem
  trail := s.trail
  choices := s.choices.tail

theorem length_undo {s : State α β κ} {n : ℕ} (hn : n ≤ s.trail.length) :
    (s.undo n).trail.length = n := by
  simp only [undo, List.length_drop]
  omega

theorem since_write (s : State α β κ) {n : ℕ} (hn : n ≤ s.trail.length) (a : α) (b : β) :
    (s.write true a b).since n = (a, s.mem a) :: s.since n := by
  have hlen : s.trail.length + 1 - n = (s.trail.length - n) + 1 := by omega
  simp only [since, write, if_true, List.length_cons, hlen, List.take_succ_cons]

/-- An earlier choice point is reached from a later one. -/
theorem rewind_undo (s : State α β κ) {m n : ℕ} (hm : m ≤ n) (hn : n ≤ s.trail.length) :
    rewind ((s.undo n).since m) (s.undo n).mem = rewind (s.since m) s.mem := by
  have hsplit : s.since m = s.since n ++ (s.undo n).since m := by
    rw [since, since, since, length_undo hn]
    have hlen : s.trail.length - m = (s.trail.length - n) + (n - m) := by omega
    rw [hlen, List.take_add]
    rfl
  rw [hsplit, rewind_append]
  rfl

-- ---------------------------------------------------------------------------
-- What choice points restore
-- ---------------------------------------------------------------------------

variable (keeps : κ → α → Prop) (holds : κ → (α → β) → γ → Prop)

/-- Later choice points keep more, and have longer trails. -/
def Nested (c d : κ × ℕ) : Prop := d.2 ≤ c.2 ∧ ∀ a, keeps d.1 a → keeps c.1 a

/-- The memory that a choice point restores is described by a value. -/
def Describes (s : State α β κ) (c : κ × ℕ) (g : γ) : Prop :=
  c.2 ≤ s.trail.length ∧ holds c.1 (rewind (s.since c.2) s.mem) g

/-- The choice points are nested, and values describe what they restore. -/
structure Restores (s : State α β κ) (gs : List γ) : Prop where
  nested : s.choices.Pairwise (Nested keeps)
  describes : List.Forall₂ (s.Describes holds) s.choices gs

/-- A description depends on the cells that are kept. -/
def Local : Prop :=
  ∀ k m m' g, (∀ a, keeps k a → m a = m' a) → holds k m g → holds k m' g

variable {keeps holds} {s : State α β κ} {gs : List γ}

/-- A cell that some choice point keeps is kept by the latest. -/
theorem Restores.kept_by_latest (h : s.Restores keeps holds gs) {c : κ × ℕ} (hc : c ∈ s.choices)
    {a : α} (ha : keeps c.1 a) : ∃ d ∈ s.choices.head?, keeps d.1 a := by
  have hnested := h.nested
  cases hs : s.choices with
  | nil => simp [hs] at hc
  | cons d ds =>
      rw [hs] at hc hnested
      refine ⟨d, rfl, ?_⟩
      obtain rfl | hc := List.mem_cons.mp hc
      · exact ha
      · exact (List.rel_of_pairwise_cons hnested hc).2 a ha

/-- Cells that no choice point keeps can change. -/
theorem Restores.of_agree (h : s.Restores keeps holds gs) (hlocal : Local keeps holds) {m : α → β}
    (hm : ∀ c ∈ s.choices, ∀ a, keeps c.1 a → s.mem a = m a) :
    Restores keeps holds { s with mem := m } gs where
  nested := h.nested
  describes := by
    refine List.forall₂_iff_get.mpr ⟨h.describes.length_eq, fun i hi hi' => ?_⟩
    obtain ⟨hlen, hholds⟩ := (List.forall₂_iff_get.mp h.describes).2 i hi hi'
    refine ⟨hlen, hlocal _ _ _ _ (fun a ha => ?_) hholds⟩
    exact rewind_congr (hm _ (List.get_mem _ _) a ha)

/-- A write is recorded when the latest choice point keeps the cell. -/
theorem Restores.write (h : s.Restores keeps holds gs) (hlocal : Local keeps holds) {recorded : Bool}
    {a : α} (ha : ∀ c ∈ s.choices.head?, keeps c.1 a → recorded = true) (b : β) :
    (s.write recorded a b).Restores keeps holds gs := by
  cases recorded with
  | false =>
      refine h.of_agree hlocal fun c hc a' ha' => ?_
      have hne : a' ≠ a := by
        rintro rfl
        obtain ⟨d, hd, hkeeps⟩ := h.kept_by_latest hc ha'
        cases ha d hd hkeeps
      exact (Function.update_of_ne hne _ _).symm
  | true =>
      refine ⟨h.nested, h.describes.imp fun c g hc => ?_⟩
      obtain ⟨hlen, hholds⟩ := hc
      refine ⟨by simp only [State.write, if_true, List.length_cons]; omega, ?_⟩
      rw [since_write s hlen, rewind]
      simpa only [State.write, Function.update_idem, Function.update_eq_self] using hholds

theorem Restores.choice (h : s.Restores keeps holds gs) {k : κ} {g : γ}
    (hk : ∀ c ∈ s.choices.head?, ∀ a, keeps c.1 a → keeps k a) (hg : holds k s.mem g) :
    (s.choice k).Restores keeps holds (g :: gs) where
  nested := by
    refine List.pairwise_cons.mpr ⟨fun c hc => ⟨?_, fun a ha => ?_⟩, h.nested⟩
    · obtain ⟨i, hi, rfl⟩ := List.getElem_of_mem hc
      have hi' : i < gs.length := h.describes.length_eq ▸ hi
      exact ((List.forall₂_iff_get.mp h.describes).2 i hi hi').1
    · obtain ⟨d, hd, hkeeps⟩ := h.kept_by_latest hc ha
      exact hk d hd a hkeeps
  describes := by
    refine List.Forall₂.cons ⟨le_rfl, ?_⟩ (h.describes.imp fun _ _ hc => hc)
    simpa only [since, State.choice, Nat.sub_self, List.take_zero, rewind] using hg

theorem Restores.cut (h : s.Restores keeps holds gs) : s.cut.Restores keeps holds gs.tail where
  nested := h.nested.sublist (List.tail_sublist _)
  describes := by
    have hdescribes := h.describes
    rw [State.cut]
    cases hs : s.choices with
    | nil =>
        rw [hs, List.forall₂_nil_left_iff] at hdescribes
        rw [hdescribes]
        exact .nil
    | cons c cs =>
        rw [hs, List.forall₂_cons_left_iff] at hdescribes
        obtain ⟨g, gs, -, hcs, rfl⟩ := hdescribes
        exact hcs.imp fun _ _ hc => hc

/-- The latest choice point gives back what was described when it was made. -/
theorem Restores.undo {g : γ} (h : s.Restores keeps holds (g :: gs)) {c : κ × ℕ}
    (hc : c ∈ s.choices.head?) :
    (s.undo c.2).Restores keeps holds (g :: gs) ∧ holds c.1 (s.undo c.2).mem g := by
  obtain ⟨hnested, hdescribes⟩ := h
  cases hs : s.choices with
  | nil => simp [hs] at hc
  | cons d ds =>
      obtain rfl : d = c := by simpa [hs] using hc
      rw [hs] at hnested hdescribes
      obtain ⟨⟨hlen, hholds⟩, -⟩ := List.forall₂_cons.mp hdescribes
      refine ⟨⟨by simpa only [State.undo, hs] using hnested, ?_⟩, hholds⟩
      simp only [State.undo, hs]
      refine List.forall₂_iff_get.mpr ⟨hdescribes.length_eq, fun i hi hi' => ?_⟩
      obtain ⟨-, hi_holds⟩ := (List.forall₂_iff_get.mp hdescribes).2 i hi hi'
      have hle : ((d :: ds).get ⟨i, hi⟩).2 ≤ d.2 := by
        obtain he | he := List.mem_cons.mp (List.get_mem (d :: ds) ⟨i, hi⟩)
        · rw [he]
        · exact (List.rel_of_pairwise_cons hnested he).1
      refine ⟨(length_undo hlen).symm ▸ hle, ?_⟩
      rw [← rewind_undo s hle hlen] at hi_holds
      exact hi_holds

end State

end Trail
