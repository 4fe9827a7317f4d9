-- SUMMARY: Finite and infinite trees as the labels at the ends of their paths: nodes, equality by a relation between the trees, and the trees that a system of equations describes.
import Mathlib.Data.List.Forall2
import Mathlib.Data.Nat.Basic

/-!
# Infinite trees

A tree has a label at the end of each of its paths. Two trees are equal if they are
related and related trees are equal or have one label and related children.
-/

namespace Yap

/-- Trees with labels in `κ`. A list of numbers that is no path has no label. -/
def InfTree (κ : Type*) : Type _ := List ℕ → Option κ

namespace InfTree

variable {κ : Type*}

/-- A label and children. -/
def node (k : κ) (ts : List (InfTree κ)) : InfTree κ
  | [] => some k
  | i :: path => (ts[i]?).bind fun t => t path

theorem label_eq_of_node_eq {k l : κ} {ts us : List (InfTree κ)} (h : node k ts = node l us) : k = l :=
  Option.some.inj (congrFun h [])

/-- Nodes with equally many children are equal if their labels and children are. -/
theorem node_inj {k l : κ} {ts us : List (InfTree κ)} (hlen : ts.length = us.length) :
    node k ts = node l us ↔ k = l ∧ ts = us := by
  constructor
  · intro h
    refine ⟨label_eq_of_node_eq h, List.ext_getElem hlen fun i hi hi' => ?_⟩
    funext path
    have hpath := congrFun h (i :: path)
    simpa [node, hi, hi'] using hpath
  · rintro ⟨rfl, rfl⟩
    rfl

-- ---------------------------------------------------------------------------
-- Equality
-- ---------------------------------------------------------------------------

/-- Two trees agree: they are equal, or they have one label and related children. -/
inductive Agree (r : InfTree κ → InfTree κ → Prop) : InfTree κ → InfTree κ → Prop
  | eq (t : InfTree κ) : Agree r t t
  | node (k : κ) {ts us : List (InfTree κ)} : List.Forall₂ r ts us → Agree r (node k ts) (node k us)

theorem eq_of_agree {r : InfTree κ → InfTree κ → Prop} (h : ∀ t u, r t u → Agree r t u) {t u : InfTree κ}
    (htu : r t u) : t = u := by
  funext path
  induction path generalizing t u with
  | nil => cases h t u htu <;> rfl
  | cons i path ih =>
    cases h t u htu with
    | eq => rfl
    | @node k ts us hargs =>
      rw [node, node]
      by_cases hi : i < ts.length
      · have hi' : i < us.length := hargs.length_eq ▸ hi
        rw [List.getElem?_eq_getElem hi, List.getElem?_eq_getElem hi']
        exact ih (List.forall₂_iff_get.1 hargs |>.2 i hi hi')
      · rw [List.getElem?_eq_none (Nat.not_lt.1 hi),
          List.getElem?_eq_none (hargs.length_eq ▸ Nat.not_lt.1 hi)]

-- ---------------------------------------------------------------------------
-- Systems of equations
-- ---------------------------------------------------------------------------

variable {ι : Type*}

/-- The right side of an equation: a tree that is given, or a label and unknowns. -/
abbrev Rhs (ι κ : Type*) : Type _ := InfTree κ ⊕ κ × List ι

/-- The label of an unknown at the end of a path. -/
def labelAt (eqs : ι → Rhs ι κ) : List ℕ → ι → Option κ
  | [], x =>
    match eqs x with
    | .inl t => t []
    | .inr (k, _) => some k
  | i :: path, x =>
    match eqs x with
    | .inl t => t (i :: path)
    | .inr (_, xs) => (xs[i]?).bind (labelAt eqs path)

/-- The solution of a system of equations. -/
def solution (eqs : ι → Rhs ι κ) (x : ι) : InfTree κ := fun path => labelAt eqs path x

variable {eqs : ι → Rhs ι κ} {x : ι}

theorem solution_inl {t : InfTree κ} (h : eqs x = .inl t) : solution eqs x = t := by
  funext path
  cases path <;> simp only [solution, labelAt, h]

theorem solution_inr {k : κ} {xs : List ι} (h : eqs x = .inr (k, xs)) :
    solution eqs x = node k (xs.map (solution eqs)) := by
  funext path
  cases path with
  | nil => simp only [solution, labelAt, h, node]
  | cons i path =>
    simp only [solution, labelAt, h, node, List.getElem?_map, Option.bind_map]
    rfl

end InfTree

end Yap
