-- SUMMARY: Lexicographic comparison of sequences by a three-way comparator: shared prefixes, and when two comparators give the same answer.
import Mathlib

/-!
# Lexicographic comparison

Facts about `List.compareLex` over an arbitrary comparator, which need not be
lawful. Two comparators are told apart only by the first position at which the
sequences differ.
-/

namespace Lex

variable {α β : Type*} {cmp cmp' : α → α → Ordering}

section Laws

variable (cmp)

theorem compareLex_swap [Std.TransCmp cmp] (xs ys : List α) :
    List.compareLex cmp xs ys = (List.compareLex cmp ys xs).swap :=
  Std.OrientedCmp.eq_swap

theorem compareLex_trans [Std.TransCmp cmp] {xs ys zs : List α}
    (hxy : (List.compareLex cmp xs ys).isLE) (hyz : (List.compareLex cmp ys zs).isLE) :
    (List.compareLex cmp xs zs).isLE :=
  Std.TransCmp.isLE_trans hxy hyz

theorem compareLex_eq_iff [Std.TransCmp cmp] [Std.LawfulEqCmp cmp] {xs ys : List α} :
    List.compareLex cmp xs ys = .eq ↔ xs = ys :=
  Std.LawfulEqCmp.compare_eq_iff_eq

end Laws

/-- Elements that compare equal do not decide. -/
theorem compareLex_append_left {l : List α} (h : ∀ x ∈ l, cmp x x = .eq) (xs ys : List α) :
    List.compareLex cmp (l ++ xs) (l ++ ys) = List.compareLex cmp xs ys := by
  induction l with
  | nil => rfl
  | cons x l ih =>
      simp only [List.cons_append, List.compareLex_cons_cons, h x (List.mem_cons_self ..)]
      exact ih fun y hy => h y (List.mem_cons_of_mem _ hy)

theorem compareLex_self {l : List α} (h : ∀ x ∈ l, cmp x x = .eq) : List.compareLex cmp l l = .eq := by
  have happ := compareLex_append_left h [] []
  simp only [List.append_nil] at happ
  exact happ

/-- Comparing the images of sequences is comparing the sequences by the images
    of their elements. -/
theorem compareLex_map (cmp : β → β → Ordering) (f : α → β) (xs ys : List α) :
    List.compareLex cmp (xs.map f) (ys.map f) =
      List.compareLex (fun x y => cmp (f x) (f y)) xs ys := by
  induction xs generalizing ys with
  | nil => cases ys <;> rfl
  | cons x xs ih =>
      cases ys with
      | nil => rfl
      | cons y ys => simp only [List.map_cons, List.compareLex_cons_cons, ih]

/-- No pair of elements at one position, up to and including the first pair that
    `cmp` tells apart, is related by `bad`. -/
def Avoids (cmp : α → α → Ordering) (bad : α → α → Prop) : List α → List α → Prop
  | x :: xs, y :: ys => ¬ bad x y ∧ (cmp x y = .eq → Avoids cmp bad xs ys)
  | _, _ => True

instance (bad : α → α → Prop) [∀ x y, Decidable (bad x y)] :
    ∀ xs ys, Decidable (Avoids cmp bad xs ys)
  | [], _ => isTrue trivial
  | _ :: _, [] => isTrue trivial
  | x :: xs, y :: ys =>
    have := instDecidableAvoids bad xs ys
    inferInstanceAs (Decidable (¬ bad x y ∧ (cmp x y = .eq → Avoids cmp bad xs ys)))

/-- Comparators that agree off `bad` give one answer on sequences that avoid it. -/
theorem compareLex_congr {bad : α → α → Prop} (hagree : ∀ x y, ¬ bad x y → cmp' x y = cmp x y)
    {xs ys : List α} (h : Avoids cmp bad xs ys) :
    List.compareLex cmp' xs ys = List.compareLex cmp xs ys := by
  induction xs generalizing ys with
  | nil => cases ys <;> rfl
  | cons x xs ih =>
      cases ys with
      | nil => rfl
      | cons y ys =>
          obtain ⟨hbad, hrest⟩ := h
          rw [List.compareLex_cons_cons, List.compareLex_cons_cons, hagree x y hbad]
          cases hxy : cmp x y with
          | eq => simpa using ih (hrest hxy)
          | lt | gt => rfl

end Lex
