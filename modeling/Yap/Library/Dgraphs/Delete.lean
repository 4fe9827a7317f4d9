-- SUMMARY: dgraph_del_edge/4 and dgraph_del_vertex/3 of library(dgraphs), and when the updates of a graph are set operations.
import Yap.Library.Dgraphs.Update

/-!
# Deletion of single edges and vertices

`rb_apply/4` and `rb_map/3` call `delete_edge(V)` with the old children and
the new ones, so `delete_edge/3` gets the vertex where it expects the list, and
the list where it expects the vertex. What happens depends on vertices that
are lists; a vertex is therefore a term here, with the list cells visible.
-/

namespace Yap

namespace Dgraphs

open Ordsets Rbtrees

-- ---------------------------------------------------------------------------
-- Terms
-- ---------------------------------------------------------------------------

/-- A term: `[]`, a list cell, or any other term. -/
inductive Term (κ : Type*) where
  | other (k : κ)
  | nil
  | cons (head tail : Term κ)

variable {κ : Type*}

/-- The terms of a list in front of another term. -/
def append : List (Term κ) → Term κ → Term κ
  | [], t => t
  | x :: l, t => .cons x (append l t)

/-- The term of a list. -/
def ofList (l : List (Term κ)) : Term κ := append l .nil

def Term.size : Term κ → ℕ
  | .other _ => 1
  | .nil => 1
  | .cons head tail => head.size + tail.size + 1

theorem append_append (l l' : List (Term κ)) (t : Term κ) : append (l ++ l') t = append l (append l' t) := by
  induction l with
  | nil => rfl
  | cons x l ih => exact congrArg (Term.cons x) ih

/-- A list with an element after some others. -/
theorem ofList_cons (p : List (Term κ)) (c : Term κ) (s : List (Term κ)) :
    ofList (p ++ c :: s) = append p (.cons c (ofList s)) := append_append p (c :: s) .nil

theorem size_lt_append {l : List (Term κ)} {x : Term κ} (h : x ∈ l) (t : Term κ) :
    x.size < (append l t).size := by
  induction l with
  | nil => cases h
  | cons y l ih =>
    simp only [append, Term.size]
    cases List.mem_cons.mp h with
    | inl heq =>
      rw [heq]
      omega
    | inr h =>
      have := ih h
      omega

/-- A list is not one of its elements. -/
theorem ofList_notMem (l : List (Term κ)) : ofList l ∉ l := fun h => lt_irrefl _ (size_lt_append h .nil)

/-- What is left of a list after a part of it is a list. -/
theorem append_eq_ofList {p d : List (Term κ)} {t : Term κ} (h : append p t = ofList d) :
    ∃ s, t = ofList s ∧ d = p ++ s := by
  induction p generalizing d with
  | nil => exact ⟨d, h, rfl⟩
  | cons x p ih =>
    cases d with
    | nil => cases h
    | cons y d =>
      obtain ⟨hxy, ht⟩ := Term.cons.inj h
      obtain ⟨s, hs, hd⟩ := ih ht
      exact ⟨s, hs, by rw [hxy, hd]; rfl⟩

-- ---------------------------------------------------------------------------
-- Code
-- ---------------------------------------------------------------------------

variable [LinearOrder (Term κ)]

/-- `ord_del_element/3` of `library(ordsets)` on any terms. -/
def ordDelElement : Term κ → Term κ → Option (Term κ)
  | .nil, _ => some .nil
  | .cons head1 tail1, head2 =>
    match compare head1 head2 with
    | .eq => some tail1
    | .lt => (ordDelElement tail1 head2).map fun difference => .cons head1 difference
    | .gt => some (.cons head1 tail1)
  | .other _, _ => none

def deleteEdge (edges0 v : Term κ) : Option (Term κ) := ordDelElement edges0 v

/-- The graph with its rows as terms. -/
def asTerms (g : DGraph (Term κ)) : Tree (Term κ) (Term κ) := g.mapValues ofList

/-- The call `delete_edge(V2, Children0, Children)` of the higher-order predicates. -/
def dgraphDelEdge (vs0 : DGraph (Term κ)) (v1 v2 : Term κ) : Option (Tree (Term κ) (Term κ)) :=
  rbApply (asTerms vs0) v1 (deleteEdge v2)

def dgraphDelVertex (vs0 : DGraph (Term κ)) (v : Term κ) : Option (Tree (Term κ) (Term κ)) :=
  (rbDelete vs0 v).bind fun p => rbMap (asTerms p.2) (deleteEdge v)

-- ---------------------------------------------------------------------------
-- The exchanged arguments
-- ---------------------------------------------------------------------------

/-- The vertex is itself a list: that of the other children, or that of the children with their
own list put in behind smaller ones. -/
def Coincides (v : Term κ) (children : List (Term κ)) : Prop :=
  v = ofList (children.filter (· ≠ v)) ∨
    ∃ p s, children = p ++ s ∧ (∀ x ∈ p, x < ofList children) ∧ v = ofList (p ++ ofList children :: s)

/-- A vertex that is not a list is deleted from no list of children. -/
theorem not_coincides_other (k : κ) (children : List (Term κ)) : ¬ Coincides (.other k) children := by
  rintro (h | ⟨p, s, -, -, h⟩)
  · generalize children.filter (· ≠ .other k) = l at h
    cases l <;> cases h
  · cases p <;> cases h

theorem ordDelElement_absent {l : List (Term κ)} {c : Term κ} (h : c ∉ l) :
    ordDelElement (ofList l) c = some (ofList l) := by
  induction l with
  | nil => rfl
  | cons x l ih =>
    obtain ⟨hx, hl⟩ := not_or.mp (mt List.mem_cons.mpr h)
    unfold ofList at ih ⊢
    rw [append, ordDelElement]
    split
    case h_1 heq => exact absurd (compare_eq_iff_eq.mp heq).symm hx
    case h_2 => rw [ih hl]; rfl
    case h_3 => rfl

theorem ordDelElement_append {p : List (Term κ)} {c : Term κ} (hp : ∀ x ∈ p, x < c) (s : Term κ) :
    ordDelElement (append p (.cons c s)) c = some (append p s) := by
  induction p with
  | nil => simp [append, ordDelElement]
  | cons x p ih =>
    obtain ⟨hx, hp'⟩ := List.forall_mem_cons.mp hp
    rw [append, ordDelElement, compare_lt_iff_lt.mpr hx]
    simp [ih hp', append]

/-- The first term stays, or loses an element behind smaller ones. -/
theorem ordDelElement_cases {v c r : Term κ} (h : ordDelElement v c = some r) :
    r = v ∨ ∃ p s, (∀ x ∈ p, x < c) ∧ v = append p (.cons c s) ∧ r = append p s := by
  induction v generalizing r with
  | other k => cases h
  | nil =>
    cases h
    exact .inl rfl
  | cons head tail _ ih =>
    rw [ordDelElement] at h
    split at h
    case h_1 heq =>
      cases h
      obtain rfl := compare_eq_iff_eq.mp heq
      exact .inr ⟨[], tail, by simp, rfl, rfl⟩
    case h_2 hlt =>
      obtain ⟨r', hr', rfl⟩ := Option.map_eq_some_iff.mp h
      cases ih hr' with
      | inl heq => exact .inl (heq ▸ rfl)
      | inr hex =>
        obtain ⟨p, s, hp, rfl, rfl⟩ := hex
        refine .inr ⟨head :: p, s, List.forall_mem_cons.mpr ⟨compare_lt_iff_lt.mp hlt, hp⟩, rfl, rfl⟩
    case h_3 =>
      cases h
      exact .inl rfl

/-- The call gives the children without the vertex only by coincidence. -/
theorem deleteEdge_iff (v : Term κ) (children : List (Term κ)) :
    deleteEdge v (ofList children) = some (ofList (children.filter (· ≠ v))) ↔ Coincides v children := by
  -- a list that contains the list of the children is not one of the children
  have hfilter : ∀ p s, v = append p (.cons (ofList children) s) → children.filter (· ≠ v) = children := by
    intro p s hv
    have hlt : (ofList children).size < v.size := by
      have happend : v = append (p ++ [ofList children]) s := hv.trans (append_append p [_] s).symm
      rw [happend]
      exact size_lt_append (by simp) s
    refine List.filter_eq_self.mpr fun x hx => ?_
    have := size_lt_append hx .nil
    rw [decide_eq_true_eq]
    rintro rfl
    exact absurd (this.trans hlt) (lt_irrefl _)
  constructor
  · intro h
    cases ordDelElement_cases h with
    | inl heq => exact .inl heq.symm
    | inr hex =>
      obtain ⟨p, s, hp, hv, hr⟩ := hex
      rw [hfilter p s hv] at hr
      obtain ⟨s', rfl, hchildren⟩ := append_eq_ofList hr.symm
      exact .inr ⟨p, s', hchildren, hp, hv.trans (ofList_cons ..).symm⟩
  · rintro (hv | ⟨p, s, hchildren, hp, hv⟩)
    · have habsent : ofList children ∉ children.filter (· ≠ v) := fun hmem =>
        ofList_notMem children (List.mem_filter.mp hmem).1
      calc deleteEdge v (ofList children)
          = deleteEdge (ofList (children.filter (· ≠ v))) (ofList children) := by rw [← hv]
        _ = some (ofList (children.filter (· ≠ v))) := ordDelElement_absent habsent
    · have hv' : v = append p (.cons (ofList children) (ofList s)) := hv.trans (ofList_cons ..)
      have hfull : append p (ofList s) = ofList children := by
        rw [ofList, ← append_append, ← hchildren, ofList]
      calc deleteEdge v (ofList children)
          = ordDelElement (append p (.cons (ofList children) (ofList s))) (ofList children) := by rw [← hv']; rfl
        _ = some (append p (ofList s)) := ordDelElement_append hp _
        _ = some (ofList (children.filter (· ≠ v))) := by rw [hfilter p _ hv', hfull]

end Dgraphs

end Yap
