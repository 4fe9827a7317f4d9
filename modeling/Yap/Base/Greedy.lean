-- SUMMARY: Closures with the exchange property: independent lists, the greedy choice from a sorted list as the cheapest independent list that spans it, and forests.
import Mathlib

/-!
# Greedy choice

What a list spans is a closure with the exchange property of matroids. A choice
goes through a list and takes what is not spanned by what it took before. When the
list is sorted by weight, no independent list that spans the same costs less. For edges, that
span what they link, the independent lists are the forests.
-/

/-- What the elements of a list span. -/
structure Pregeometry (α : Type*) where
  Spans : List α → α → Prop
  mem : ∀ {A x}, x ∈ A → Spans A x
  trans : ∀ {A B y}, (∀ x ∈ A, Spans B x) → Spans A y → Spans B y
  exchange : ∀ {A x y}, Spans (x :: A) y → ¬ Spans A y → Spans (y :: A) x

namespace Pregeometry

variable {α W : Type*} (G : Pregeometry α)

/-- No element is spanned by `A` and the elements before it. -/
def Indep (A : List α) : List α → Prop
  | [] => True
  | x :: S => ¬ G.Spans A x ∧ Indep (x :: A) S

/-- The choice from a list, where `A` was taken before. -/
inductive Choice : List α → List α → List α → Prop
  | nil (A : List α) : Choice A [] []
  | skip {A es T : List α} {e : α} : G.Spans A e → Choice A es T → Choice A (e :: es) T
  | take {A es T : List α} {e : α} : ¬ G.Spans A e → Choice (e :: A) es T → Choice A (e :: es) (e :: T)

variable {G} {A B S T es : List α} {e f x y : α}

private theorem exists_perm_cons (h : e ∈ S) : ∃ S', S.Perm (e :: S') := by
  obtain ⟨l₁, l₂, rfl⟩ := List.append_of_mem h
  exact ⟨l₁ ++ l₂, List.perm_middle⟩

private theorem subperm_of_cons (h : S.Subperm (e :: es)) (he : e ∉ S) : S.Subperm es := by
  obtain ⟨l, hl, hsub⟩ := h
  cases hsub with
  | cons _ hsub => exact ⟨l, hl, hsub⟩
  | cons_cons _ hsub => exact absurd (hl.subset List.mem_cons_self) he

-- ---------------------------------------------------------------------------
-- What is spanned
-- ---------------------------------------------------------------------------

theorem Spans.mono (h : G.Spans A y) (hAB : A ⊆ B) : G.Spans B y := G.trans (fun _ hx => G.mem (hAB hx)) h

theorem Spans.of_cons (h : G.Spans (e :: A) y) (he : G.Spans A e) : G.Spans A y :=
  G.trans (fun _ hx => (List.mem_cons.mp hx).elim (fun hxe => hxe ▸ he) G.mem) h

/-- An element may be replaced by one that it is exchanged with. -/
theorem Spans.replace (h : G.Spans (f :: A) y) (hf : G.Spans (e :: A) f) : G.Spans (e :: A) y :=
  G.trans (fun _ hx => (List.mem_cons.mp hx).elim (fun hxf => hxf ▸ hf) fun hx => G.mem (List.mem_cons_of_mem e hx)) h

-- ---------------------------------------------------------------------------
-- Independent lists
-- ---------------------------------------------------------------------------

theorem Indep.congr (hAB : ∀ y, G.Spans A y ↔ G.Spans B y) (h : G.Indep A S) : G.Indep B S := by
  induction S generalizing A B with
  | nil => trivial
  | cons x S ih =>
    refine ⟨fun hx => h.1 ((hAB x).mpr hx), ih (fun y => ?_) h.2⟩
    constructor
    · exact G.trans fun z hz => (List.mem_cons.mp hz).elim (fun hzx => hzx ▸ G.mem List.mem_cons_self) fun hz =>
        ((hAB z).mp (G.mem hz)).mono (List.subset_cons_self x B)
    · exact G.trans fun z hz => (List.mem_cons.mp hz).elim (fun hzx => hzx ▸ G.mem List.mem_cons_self) fun hz =>
        ((hAB z).mpr (G.mem hz)).mono (List.subset_cons_self x A)

theorem Indep.perm_left (h : G.Indep A S) (hAB : A.Perm B) : G.Indep B S :=
  h.congr fun _ => ⟨fun hy => hy.mono hAB.subset, fun hy => hy.mono hAB.symm.subset⟩

theorem Indep.perm (h : G.Indep A S) (hST : S.Perm T) : G.Indep A T := by
  induction hST generalizing A with
  | nil => exact h
  | cons x _ ih => exact ⟨h.1, ih h.2⟩
  | swap x y l =>
    obtain ⟨hy, hx, hl⟩ := h
    refine ⟨fun hx' => hx (hx'.mono (List.subset_cons_self y A)), fun hy' => hx ?_, hl.perm_left (List.Perm.swap y x A)⟩
    exact G.exchange hy' hy
  | trans _ _ ih₁ ih₂ => exact ih₂ (ih₁ h)

theorem Indep.not_spans (h : G.Indep A S) (hy : y ∈ S) : ¬ G.Spans A y := by
  induction S generalizing A with
  | nil => cases hy
  | cons x S ih =>
    cases List.mem_cons.mp hy with
    | inl heq => exact heq ▸ h.1
    | inr hmem => exact fun hspan => ih h.2 hmem (hspan.mono (List.subset_cons_self x A))

theorem Indep.nodup (h : G.Indep A S) : S.Nodup := by
  induction S generalizing A with
  | nil => exact List.nodup_nil
  | cons x S ih => exact List.nodup_cons.mpr ⟨fun hx => h.2.not_spans hx (G.mem List.mem_cons_self), ih h.2⟩

/-- Where `e` is spanned with the help of an independent list, one element of the list can make room for it. -/
theorem Indep.exchange (h : G.Indep A S) (hspan : G.Spans (S ++ A) e) (he : ¬ G.Spans A e) :
    ∃ f S', S.Perm (f :: S') ∧ G.Indep (e :: A) S' ∧ G.Spans (e :: (S' ++ A)) f := by
  induction S generalizing A with
  | nil => exact absurd hspan he
  | cons x S ih =>
    by_cases hx : G.Spans (x :: A) e
    · refine ⟨x, S, List.Perm.refl _, ?_, ?_⟩
      · refine h.2.congr fun y => ⟨fun hy => hy.replace (G.exchange hx he), fun hy => hy.replace hx⟩
      · exact (G.exchange hx he).mono (List.cons_subset_cons e (List.subset_append_right S A))
    · have hspan' : G.Spans (S ++ x :: A) e := hspan.mono List.perm_middle.symm.subset
      obtain ⟨f, S', hperm, hi, hf⟩ := ih h.2 hspan' hx
      refine ⟨f, x :: S', (hperm.cons x).trans (List.Perm.swap f x S'), ⟨fun hx' => ?_, ?_⟩, ?_⟩
      · exact hx (G.exchange hx' h.1)
      · exact hi.perm_left (List.Perm.swap x e A)
      · exact hf.mono (List.cons_subset_cons e List.perm_middle.subset)

-- ---------------------------------------------------------------------------
-- The choice
-- ---------------------------------------------------------------------------

theorem Choice.sublist (h : G.Choice A es T) : T.Sublist es := by
  induction h with
  | nil => exact .slnil
  | skip _ _ ih => exact ih.cons _
  | take _ _ ih => exact ih.cons_cons _

theorem Choice.indep (h : G.Choice A es T) : G.Indep A T := by
  induction h with
  | nil => trivial
  | skip _ _ ih => exact ih
  | take he _ ih => exact ⟨he, ih⟩

theorem Choice.spans (h : G.Choice A es T) : ∀ x ∈ es, G.Spans (T ++ A) x := by
  induction h with
  | nil => simp
  | skip he _ ih => exact List.forall_mem_cons.mpr ⟨he.mono (List.subset_append_right _ _), ih⟩
  | take _ _ ih =>
    exact List.forall_mem_cons.mpr ⟨G.mem (by simp), fun x hx => (ih x hx).mono List.perm_middle.subset⟩

variable [AddCommMonoid W] [LinearOrder W] [IsOrderedAddMonoid W]

/-- From a list in increasing order of the weights, no independent list that spans it costs less. -/
theorem Choice.le_of_indep {w : α → W} (h : G.Choice A es T) (hsorted : es.Pairwise fun a b => w a ≤ w b)
    (hS : S.Subperm es) (hi : G.Indep A S) (hspan : ∀ x ∈ es, G.Spans (S ++ A) x) :
    (T.map w).sum ≤ (S.map w).sum := by
  induction h generalizing S with
  | nil => exact le_of_eq (by rw [List.subperm_nil.mp hS])
  | @skip A es T e he _ ih =>
    obtain ⟨hle, hsorted⟩ := List.pairwise_cons.mp hsorted
    have hnot : e ∉ S := by
      intro hmem
      obtain ⟨S', hperm⟩ := exists_perm_cons hmem
      exact (hi.perm hperm).1 he
    exact ih hsorted (subperm_of_cons hS hnot) hi fun x hx => hspan x (List.mem_cons_of_mem e hx)
  | @take A es T e he _ ih =>
    obtain ⟨hle, hsorted⟩ := List.pairwise_cons.mp hsorted
    rw [List.map_cons, List.sum_cons]
    by_cases hmem : e ∈ S
    · obtain ⟨S', hperm⟩ := exists_perm_cons hmem
      have hle' := ih hsorted ((List.subperm_cons e).mp (hperm.symm.subperm.trans hS)) (hi.perm hperm).2
        fun x hx => (hspan x (List.mem_cons_of_mem e hx)).mono
          (((hperm.append_right A).trans List.perm_middle.symm).subset)
      rw [(hperm.map w).sum_eq, List.map_cons, List.sum_cons]
      exact add_le_add_right hle' (w e)
    · obtain ⟨f, S', hperm, hi', hf⟩ := hi.exchange (hspan e List.mem_cons_self) he
      have hf_mem : f ∈ es := (List.mem_cons.mp (hS.subset (hperm.symm.subset List.mem_cons_self))).resolve_left
        fun hfe => hmem (hfe ▸ hperm.symm.subset List.mem_cons_self)
      have hS' : S'.Subperm es :=
        ((List.sublist_cons_self f S').subperm.trans hperm.symm.subperm).trans (subperm_of_cons hS hmem)
      have hle' := ih hsorted hS' hi' fun x hx => by
        have hx' : G.Spans (f :: (S' ++ A)) x := (hspan x (List.mem_cons_of_mem e hx)).mono (hperm.append_right A).subset
        exact (hx'.replace hf).mono List.perm_middle.symm.subset
      rw [(hperm.map w).sum_eq, List.map_cons, List.sum_cons]
      exact add_le_add (hle f hf_mem) hle'

end Pregeometry

-- ---------------------------------------------------------------------------
-- Edges
-- ---------------------------------------------------------------------------

section Edges

variable {α κ : Type*} (ends : α → κ × κ)

/-- Joined by edges, in either direction. -/
def Linked (A : List α) : κ → κ → Prop := Relation.EqvGen fun u v => ∃ e ∈ A, ends e = (u, v)

variable {ends} {A B : List α} {e : α} {u v x : κ}

theorem Linked.refl (A : List α) (u : κ) : Linked ends A u u := Relation.EqvGen.refl u

theorem Linked.symm (h : Linked ends A u v) : Linked ends A v u := Relation.EqvGen.symm u v h

theorem Linked.trans (h : Linked ends A u v) (h' : Linked ends A v x) : Linked ends A u x :=
  Relation.EqvGen.trans u v x h h'

theorem linked_of_mem (he : e ∈ A) : Linked ends A (ends e).1 (ends e).2 := Relation.EqvGen.rel _ _ ⟨e, he, rfl⟩

/-- Edges link what the edges they link do. -/
theorem Linked.closure (hAB : ∀ e ∈ A, Linked ends B (ends e).1 (ends e).2) (h : Linked ends A u v) :
    Linked ends B u v := by
  induction h with
  | rel u v huv =>
    obtain ⟨e, he, hends⟩ := huv
    simpa only [hends] using hAB e he
  | refl u => exact .refl B u
  | symm u v _ ih => exact ih.symm
  | trans u v x _ _ ih₁ ih₂ => exact ih₁.trans ih₂

theorem Linked.mono (hAB : A ⊆ B) (h : Linked ends A u v) : Linked ends B u v :=
  h.closure fun _ he => linked_of_mem (hAB he)

theorem linked_nil : Linked ends [] u v ↔ u = v := by
  constructor
  · intro h
    induction h with
    | rel u v huv => exact huv.elim fun _ he => absurd he.1 List.not_mem_nil
    | refl u => rfl
    | symm u v _ ih => exact ih.symm
    | trans u v x _ _ ih₁ ih₂ => exact ih₁.trans ih₂
  · rintro rfl
    exact .refl [] u

/-- What is no end of an edge is linked to nothing else. -/
theorem Linked.alone (hA : ∀ e ∈ A, (ends e).1 ≠ x ∧ (ends e).2 ≠ x) (h : Linked ends A u v) : u = x ↔ v = x := by
  induction h with
  | rel u v huv =>
    obtain ⟨e, he, hends⟩ := huv
    have hne := hA e he
    rw [hends] at hne
    exact iff_of_false hne.1 hne.2
  | refl u => exact Iff.rfl
  | symm u v _ ih => exact ih.symm
  | trans u v y _ _ ih₁ ih₂ => exact ih₁.trans ih₂

/-- One more edge is used at most once. -/
theorem linked_cons : Linked ends (e :: A) u v ↔ Linked ends A u v ∨
    Linked ends A u (ends e).1 ∧ Linked ends A (ends e).2 v ∨ Linked ends A u (ends e).2 ∧ Linked ends A (ends e).1 v := by
  constructor
  · intro h
    induction h with
    | rel u v huv =>
      obtain ⟨f, hf, hends⟩ := huv
      cases List.mem_cons.mp hf with
      | inl hfe =>
        rw [← hfe, hends]
        exact .inr (.inl ⟨.refl A u, .refl A v⟩)
      | inr hf => exact .inl (by simpa only [hends] using @linked_of_mem _ _ ends _ _ hf)
    | refl u => exact .inl (.refl A u)
    | symm u v _ ih =>
      rcases ih with h | ⟨h₁, h₂⟩ | ⟨h₁, h₂⟩
      · exact .inl h.symm
      · exact .inr (.inr ⟨h₂.symm, h₁.symm⟩)
      · exact .inr (.inl ⟨h₂.symm, h₁.symm⟩)
    | trans u v x _ _ ih₁ ih₂ =>
      rcases ih₁ with h | ⟨h₁, h₂⟩ | ⟨h₁, h₂⟩
      · rcases ih₂ with h' | ⟨h₁', h₂'⟩ | ⟨h₁', h₂'⟩
        · exact .inl (h.trans h')
        · exact .inr (.inl ⟨h.trans h₁', h₂'⟩)
        · exact .inr (.inr ⟨h.trans h₁', h₂'⟩)
      · rcases ih₂ with h' | ⟨-, h₂'⟩ | ⟨-, h₂'⟩
        · exact .inr (.inl ⟨h₁, h₂.trans h'⟩)
        · exact .inr (.inl ⟨h₁, h₂'⟩)
        · exact .inl (h₁.trans h₂')
      · rcases ih₂ with h' | ⟨-, h₂'⟩ | ⟨-, h₂'⟩
        · exact .inr (.inr ⟨h₁, h₂.trans h'⟩)
        · exact .inl (h₁.trans h₂')
        · exact .inr (.inr ⟨h₁, h₂'⟩)
  · have hA : A ⊆ e :: A := List.subset_cons_self e A
    have he : Linked ends (e :: A) (ends e).1 (ends e).2 := linked_of_mem List.mem_cons_self
    rintro (h | ⟨h₁, h₂⟩ | ⟨h₁, h₂⟩)
    · exact h.mono hA
    · exact ((h₁.mono hA).trans he).trans (h₂.mono hA)
    · exact ((h₁.mono hA).trans he.symm).trans (h₂.mono hA)

/-- Edges span the edges whose ends they link. -/
def graphic (ends : α → κ × κ) : Pregeometry α where
  Spans A e := Linked ends A (ends e).1 (ends e).2
  mem := linked_of_mem
  trans hAB h := h.closure hAB
  exchange := by
    intro A x y h hnot
    refine linked_cons.mpr ?_
    rcases linked_cons.mp h with h | ⟨h₁, h₂⟩ | ⟨h₁, h₂⟩
    · exact absurd h hnot
    · exact .inr (.inl ⟨h₁.symm, h₂.symm⟩)
    · exact .inr (.inr ⟨h₂, h₁⟩)

/-- No edge of a forest links what the others do. -/
def Forest (ends : α → κ × κ) (A : List α) : Prop := (graphic ends).Indep [] A

end Edges
