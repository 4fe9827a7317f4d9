-- SUMMARY: Unification of rational terms: the infinite trees that words stand for, what a run of the loop says about their equality, and the store that a run reaches as a solved form.
import Yap.Base.InfTree
import Yap.Unify.Solutions

/-!
# Unification of rational terms

A valuation gives a tree to each cell and satisfies the store, whose terms may be
cyclic. The loop keeps the valuations that make the pairs of cells equal, and when
it succeeds the cells of its pairs are equal in every valuation of the memory that
it leaves.
-/

namespace Yap

open Relation

variable {hp : Heap} {σ : Addr → InfTree Key}

-- ---------------------------------------------------------------------------
-- The trees of words
-- ---------------------------------------------------------------------------

variable (hp)

/-- What a word shows of its term: a functor, or all of an atomic term. -/
def Nonvar.label (d : Nonvar) : Key := (d.value hp .var).key

/-- The tree of a word when the cells have the trees `σ`. -/
def Cell.tree (σ : Addr → InfTree Key) : Cell → InfTree Key
  | .ref a => σ a
  | .nonvar d => .node (d.label hp) ((d.cells hp).map σ)

/-- Every cell has the tree of what it holds. -/
def TreeModels (m : Addr → Cell) (σ : Addr → InfTree Key) : Prop := ∀ a, σ a = (m a).tree hp σ

variable {hp}

/-- Words have one tree in all valuations that satisfy a store if they show the same
and have the same argument cells. -/
structure SameShape (hp : Heap) (d0 d1 : Nonvar) : Prop where
  label : d0.label hp = d1.label hp
  cells : d0.cells hp = d1.cells hp

theorem SameShape.equivalence (hp : Heap) : Equivalence (SameShape hp) where
  refl _ := ⟨rfl, rfl⟩
  symm h := ⟨h.label.symm, h.cells.symm⟩
  trans h h' := ⟨h.label.trans h'.label, h.cells.trans h'.cells⟩

theorem SameShape.tree_eq {d0 d1 : Nonvar} (h : SameShape hp d0 d1) :
    (Cell.nonvar d0).tree hp σ = (Cell.nonvar d1).tree hp σ := by
  rw [Cell.tree, Cell.tree, h.label, h.cells]

theorem Nonvar.value_ne_var (d : Nonvar) (τ : Addr → Term) (v : Addr) : d.value hp τ ≠ .var v := by
  cases d with
  | appl p =>
    rw [value]
    cases hp.functorAt p with
    | functor f => exact fun h => by cases h
    | blob b => cases b <;> exact fun h => by cases h
  | _ => exact fun h => by cases h

/-- Words with one value have one shape. -/
theorem sameShape_of_value_eq {d0 d1 : Nonvar} (h : d0.value hp .var = d1.value hp .var) :
    SameShape hp d0 d1 := by
  refine ⟨congrArg Term.key h, ?_⟩
  have hargs := congrArg Term.args h
  rw [Nonvar.args_value, Nonvar.args_value] at hargs
  exact List.map_injective_iff.2 (fun a b hab => Term.var.inj hab) hargs

/-- Words that a step fails on show different things. -/
theorem WordsSpec.of_fail {c0 c1 : Cell} (h : WordsSpec hp c0 c1 .fail) :
    ∃ d0 d1, c0 = .nonvar d0 ∧ c1 = .nonvar d1 ∧ d0.label hp ≠ d1.label hp := by
  cases h with
  | fail hkey =>
    cases c0 with
    | ref a => exact absurd rfl (hkey (fun _ => c1.value hp .var) .var)
    | nonvar d0 =>
      cases c1 with
      | ref b => exact absurd rfl (hkey .var fun _ => d0.value hp .var)
      | nonvar d1 => exact ⟨d0, d1, rfl, rfl, hkey .var .var⟩

theorem WordsSpec.tree_ne {c0 c1 : Cell} (h : WordsSpec hp c0 c1 .fail) (σ : Addr → InfTree Key) :
    c0.tree hp σ ≠ c1.tree hp σ := by
  obtain ⟨d0, d1, rfl, rfl, hlabel⟩ := h.of_fail
  exact fun heq => hlabel (InfTree.label_eq_of_node_eq heq)

/-- Words that a step has nothing to do for are one variable or have one shape. -/
theorem WordsSpec.of_next {c0 c1 : Cell} (h : WordsSpec hp c0 c1 .next) :
    (∃ v, c0 = .ref v ∧ c1 = .ref v) ∨
      ∃ d0 d1, c0 = .nonvar d0 ∧ c1 = .nonvar d1 ∧ SameShape hp d0 d1 := by
  cases h with
  | next hvalue =>
    have hvar := hvalue .var
    cases c0 with
    | ref a =>
      cases c1 with
      | ref b =>
        obtain rfl := Term.var.inj hvar
        exact .inl ⟨a, rfl, rfl⟩
      | nonvar d1 => exact absurd hvar.symm (d1.value_ne_var _ a)
    | nonvar d0 =>
      cases c1 with
      | ref b => exact absurd hvar (d0.value_ne_var _ b)
      | nonvar d1 => exact .inr ⟨d0, d1, rfl, rfl, sameShape_of_value_eq hvar⟩

theorem WordsSpec.tree_eq {c0 c1 : Cell} (h : WordsSpec hp c0 c1 .next) :
    c0.tree hp σ = c1.tree hp σ := by
  rcases h.of_next with ⟨v, rfl, rfl⟩ | ⟨d0, d1, rfl, rfl, hshape⟩
  · rfl
  · exact hshape.tree_eq

theorem map_eq_of_equal {α β : Type*} {f : α → β} {l r : List α} (hlen : l.length = r.length)
    (h : ∀ pr ∈ l.zip r, f pr.1 = f pr.2) : l.map f = r.map f := by
  refine List.ext_getElem (by simpa using hlen) fun i hi hi' => ?_
  simp only [List.length_map] at hi hi'
  have hmem : (l[i], r[i]) ∈ l.zip r := List.mem_iff_getElem.2 ⟨i, by simp [hi, hi'], by simp⟩
  simpa using h _ hmem

/-- Words that show the same have one tree if their argument cells have. -/
theorem tree_eq_iff_of_block {d0 d1 : Nonvar} {l r : Addr} {n : ℕ} (hl : d0.block hp = (l, n))
    (hr : d1.block hp = (r, n)) (hkey : d0.label hp = d1.label hp) :
    (Cell.nonvar d0).tree hp σ = (Cell.nonvar d1).tree hp σ ↔
      ∀ pr ∈ (List.range' l n).zip (List.range' r n), σ pr.1 = σ pr.2 := by
  rw [Cell.tree, Cell.tree, Nonvar.cells_of_block hl, Nonvar.cells_of_block hr,
    InfTree.node_inj (by simp), and_iff_right hkey]
  exact ⟨equal_of_map_eq, map_eq_of_equal (by simp)⟩

-- ---------------------------------------------------------------------------
-- Valuations
-- ---------------------------------------------------------------------------

theorem TreeModels.deref {s : Store} (hσ : TreeModels hp s.cell σ) (c : Cell) :
    (s.deref c).tree hp σ = c.tree hp σ := by
  cases c with
  | nonvar d => rfl
  | ref a =>
    induction a using Store.deref_induction (s := s) with
    | unbound a ha => rw [Store.deref_of_unbound ha]
    | ref a b hcell hb ih =>
      rw [Store.deref_of_cell hcell fun heq => hb (Cell.ref.inj heq)]
      refine ih.trans ?_
      rw [Cell.tree, Cell.tree, hσ a, hcell]
      rfl
    | nonvar a d hcell =>
      rw [Store.deref_of_cell hcell fun heq => by cases heq]
      rw [Store.deref, Cell.tree, hσ a, hcell]

theorem TreeModels.update {m : Addr → Cell} (h : TreeModels hp m σ) {a : Addr} {c : Cell}
    (hc : σ a = c.tree hp σ) : TreeModels hp (Function.update m a c) σ := by
  intro x
  by_cases hxa : x = a
  · rw [hxa, Function.update_self, hc]
  · rw [Function.update_of_ne hxa]
    exact h x

/-- A valuation of an extension is one of the store. -/
theorem TreeModels.of_extends {m m' : Addr → Cell} (h : TreeModels hp m' σ) (hext : Extends m m') :
    TreeModels hp m σ := by
  intro a
  by_cases hunbound : m a = .ref a
  · rw [hunbound]
    rfl
  · rw [← hext a hunbound]
    exact h a

/-- What a cell says about its tree, with the trees `ρ` for the unbound variables. -/
def Store.equations (hp : Heap) (s : Store) (ρ : Addr → InfTree Key) (a : Addr) : InfTree.Rhs Addr Key :=
  match s.deref (.ref a) with
  | .ref v => .inl (ρ v)
  | .nonvar d => .inr (d.label hp, d.cells hp)

/-- Trees for the unbound variables extend to a valuation. -/
theorem exists_treeModels (hp : Heap) (s : Store) (ρ : Addr → InfTree Key) :
    ∃ σ, TreeModels hp s.cell σ ∧ ∀ v, s.cell v = .ref v → σ v = ρ v := by
  have hsolution : ∀ a, InfTree.solution (s.equations hp ρ) a =
      match s.deref (.ref a) with
      | .ref v => ρ v
      | .nonvar d => .node (d.label hp) ((d.cells hp).map (InfTree.solution (s.equations hp ρ))) := by
    intro a
    cases hd : s.deref (.ref a) with
    | ref v => exact InfTree.solution_inl (by rw [Store.equations, hd])
    | nonvar d => exact InfTree.solution_inr (by rw [Store.equations, hd])
  refine ⟨InfTree.solution (s.equations hp ρ), fun a => ?_, fun v hv => ?_⟩
  · by_cases hunbound : s.cell a = .ref a
    · rw [hunbound]
      rfl
    · rw [hsolution, Store.deref_of_cell rfl hunbound]
      cases hcell : s.cell a with
      | ref b => exact (hsolution b).symm
      | nonvar d => rfl
  · rw [hsolution, Store.deref_of_unbound hv]

-- ---------------------------------------------------------------------------
-- Solutions are kept
-- ---------------------------------------------------------------------------

variable (hp σ) in
/-- The valuation satisfies the store, the links and the remaining pairs. -/
structure Solves (st : UnifyState) : Prop where
  models : TreeModels hp st.store.cell σ
  equal : ∀ pr ∈ st.pairs, σ pr.1 = σ pr.2
  links : ∀ pr ∈ st.unif, σ pr.1 = pr.2.tree hp σ

theorem Solves.derefs {st : UnifyState} (h : Solves hp σ st) {x y : Addr} (hpr : (x, y) ∈ st.pairs) :
    (st.store.deref (.ref x)).tree hp σ = σ x ∧ (st.store.deref (.ref y)).tree hp σ = σ x :=
  ⟨h.models.deref _, (h.models.deref _).trans (h.equal _ hpr).symm⟩

theorem Solves.move {st st' : UnifyState} (h : Solves hp σ st) (hmove : Move hp st st') :
    Solves hp σ st' := by
  cases hmove with
  | ret hlt hv =>
    exact ⟨h.models, fun pr hpr => h.equal pr (UnifyState.pairs_return hlt hv ▸ hpr), h.links⟩
  | next hlt _ =>
    refine ⟨h.models, fun pr hpr => h.equal pr ?_, h.links⟩
    rw [UnifyState.pairs_next hlt]
    exact List.mem_cons_of_mem _ hpr
  | @visit l r n d1 hlt hstep =>
    have hpairs := UnifyState.pairs_next hlt
    obtain ⟨h0, h1⟩ := h.derefs (hpairs ▸ List.mem_cons_self ..)
    have hspec := unifyArgs_spec hp st.store st.frame.pt0 st.frame.pt1
    rw [hstep] at hspec
    cases hspec with
    | visit hd0 hd1 hl hr hkey =>
      rw [hd0] at h0
      rw [hd1] at h1
      have hargs := (tree_eq_iff_of_block hl hr (hkey .var)).1 (h0.trans h1.symm)
      refine ⟨h.models.update h1.symm, fun pr hpr => ?_, fun pr hpr => ?_⟩
      · rw [UnifyState.pairs_descend] at hpr
        rcases List.mem_append.1 hpr with hpr | hpr
        · exact hargs pr hpr
        · exact h.equal pr (hpairs ▸ List.mem_cons_of_mem _ hpr)
      · rcases List.mem_cons.1 hpr with rfl | hpr
        · exact h.models _
        · exact h.links pr hpr

theorem Solves.binds {st : UnifyState} (h : Solves hp σ st) {a : Addr} {c : Cell}
    (hb : Binds hp st a c) : Solves hp σ (st.bind hp hb.step) := by
  have hpairs := UnifyState.pairs_next hb.lt
  obtain ⟨h0, h1⟩ := h.derefs (hpairs ▸ List.mem_cons_self ..)
  have hvalue : σ a = c.tree hp σ := by
    obtain ⟨-, ⟨hd0, hd1⟩ | ⟨hd0, hd1⟩⟩ := unifyWords_bind bindsVars_unifyGlobalCells hb.step
    · rw [hd0] at h0
      rw [hd1] at h1
      exact h0.trans h1.symm
    · rw [hd0] at h0
      rw [hd1] at h1
      exact h1.trans h0.symm
  exact ⟨h.models.update hvalue, fun pr hpr => h.equal pr (hpairs ▸ List.mem_cons_of_mem _ hpr), h.links⟩

theorem Solves.run {st st' : UnifyState} (h : Solves hp σ st) (hrun : ReflTransGen (Goes hp) st st') :
    Solves hp σ st' := by
  induction hrun with
  | refl => exact h
  | tail _ hgo ih =>
    rcases UnifyState.turn_go hgo with hmove | ⟨a, c, hb, rfl⟩
    · exact ih.move hmove
    · exact ih.binds hb

/-- A pair of cells with one tree does not fail. -/
theorem Solves.not_fails {st : UnifyState} (h : Solves hp σ st) : st.turn hp ≠ .exit false := by
  intro hexit
  rcases UnifyState.turn_exit hexit with ⟨hout, -⟩ | ⟨-, x, y, rest, hpairs, hstep⟩
  · cases hout
  · obtain ⟨h0, h1⟩ := h.derefs (hpairs ▸ List.mem_cons_self ..)
    have hspec := unifyArgs_spec hp st.store x y
    rw [hstep] at hspec
    exact hspec.tree_ne σ (h0.trans h1.symm)

/-- The valuation satisfies the memory behind the links. -/
theorem Solves.memory {st : UnifyState} (h : Solves hp σ st) : TreeModels hp st.memory σ := by
  intro a
  rcases restore_cases st.unif st.store.cell a with heq | hmem
  · rw [UnifyState.memory, heq]
    exact h.models a
  · exact h.links _ hmem

theorem solves_init {s : Store} {frame : Frame} (hσ : TreeModels hp s.cell σ)
    (h : ∀ pr ∈ frame.pairs, σ pr.1 = σ pr.2) : Solves hp σ (.init s frame) :=
  ⟨hσ, UnifyState.pairs_init s frame ▸ h, fun _ hpr => absurd hpr List.not_mem_nil⟩

-- ---------------------------------------------------------------------------
-- Cells that a run has joined
-- ---------------------------------------------------------------------------

/-- Two words are one variable, or related. -/
inductive SameWord (r : Nonvar → Nonvar → Prop) : Cell → Cell → Prop
  | ref (v : Addr) : SameWord r (.ref v) (.ref v)
  | nonvar {d0 d1 : Nonvar} : r d0 d1 → SameWord r (.nonvar d0) (.nonvar d1)

theorem SameWord.equivalence {r : Nonvar → Nonvar → Prop} (h : Equivalence r) :
    Equivalence (SameWord r) where
  refl c := by
    cases c with
    | ref v => exact .ref v
    | nonvar d => exact .nonvar (h.refl d)
  symm hc := by
    cases hc with
    | ref v => exact .ref v
    | nonvar hd => exact .nonvar (h.symm hd)
  trans hc hc' := by
    cases hc with
    | ref v => exact hc'
    | nonvar hd =>
      cases hc' with
      | nonvar hd' => exact .nonvar (h.trans hd hd')

theorem SameWord.mono {r r' : Nonvar → Nonvar → Prop} (h : ∀ d d', r d d' → r' d d') {c c' : Cell}
    (hc : SameWord r c c') : SameWord r' c c' := by
  cases hc with
  | ref v => exact .ref v
  | nonvar hd => exact .nonvar (h _ _ hd)

/-- Two cells lead to related words, or are a pair that remains. -/
def Coupled (r : Nonvar → Nonvar → Prop) (st : UnifyState) (c c' : Cell) : Prop :=
  SameWord r (st.store.deref c) (st.store.deref c') ∨ ∃ pr ∈ st.pairs, c = .ref pr.1 ∧ c' = .ref pr.2

/-- The cells that are joined when the remaining pairs are. -/
def Joined (r : Nonvar → Nonvar → Prop) (st : UnifyState) : Cell → Cell → Prop := EqvGen (Coupled r st)

/-- A run without bindings from `real` has come upon words that `r` relates: the
links lead to words related to those in their place, and the argument cells of
related words are joined. -/
structure Joins (hp : Heap) (real : Store) (frame : Frame) (r : Nonvar → Nonvar → Prop)
    (st : UnifyState) : Prop where
  equivalence : Equivalence r
  shape : ∀ d0 d1, SameShape hp d0 d1 → r d0 d1
  unbound : ∀ v, real.cell v = .ref v → st.store.cell v = .ref v
  cells : ∀ a, SameWord r (st.store.deref (.ref a)) (st.store.deref (real.cell a))
  args : ∀ d0 d1, r d0 d1 → d0.label hp = d1.label hp ∧
    List.Forall₂ (Joined r st) ((d0.cells hp).map .ref) ((d1.cells hp).map .ref)
  pairs : ∀ pr ∈ frame.pairs, Joined r st (.ref pr.1) (.ref pr.2)

theorem forall₂_equivalence {α : Type*} {r : α → α → Prop} (h : Equivalence r) :
    Equivalence (List.Forall₂ r) where
  refl _ := List.forall₂_same.2 fun a _ => h.refl a
  symm hl := (hl.imp fun _ _ => h.symm).flip
  trans := by
    intro l l' l'' hl hl'
    induction hl generalizing l'' with
    | nil => exact hl'
    | cons hab _ ih =>
      obtain ⟨c, u, hbc, hu, rfl⟩ := List.forall₂_cons_left_iff.1 hl'
      exact .cons (h.trans hab hbc) (ih hu)

theorem joined_equivalence (r : Nonvar → Nonvar → Prop) (st : UnifyState) : Equivalence (Joined r st) :=
  EqvGen.is_equivalence _

theorem joined_le {r r' : Nonvar → Nonvar → Prop} {st st' : UnifyState}
    (h : ∀ c c', Coupled r st c c' → Joined r' st' c c') {c c' : Cell} (hc : Joined r st c c') :
    Joined r' st' c c' := by
  have : IsEquiv _ (Joined r' st') := (joined_equivalence r' st').isEquiv
  exact EqvGen.eqvGen_le h _ _ hc

variable {real : Store} {frame : Frame} {r : Nonvar → Nonvar → Prop} {st st' : UnifyState}

theorem joins_init (hp : Heap) (real : Store) (frame : Frame) :
    Joins hp real frame (SameShape hp) (.init real frame) where
  equivalence := SameShape.equivalence hp
  shape _ _ h := h
  unbound _ h := h
  cells a := by
    have hrefl := (SameWord.equivalence (SameShape.equivalence hp)).refl
    by_cases hunbound : real.cell a = .ref a
    · rw [hunbound]
      exact hrefl _
    · rw [UnifyState.init, Store.deref_of_cell rfl hunbound]
      exact hrefl _
  args d0 d1 h := ⟨h.label, h.cells ▸ (forall₂_equivalence (joined_equivalence _ _)).refl _⟩
  pairs pr hpr := .rel _ _ (.inr ⟨pr, UnifyState.pairs_init real frame ▸ hpr, rfl, rfl⟩)

/-- A turn that keeps the words of the store. -/
theorem Joins.of_coupled (h : Joins hp real frame r st) (hstore : st'.store = st.store)
    (hcoupled : ∀ pr ∈ st.pairs, Coupled r st' (.ref pr.1) (.ref pr.2)) : Joins hp real frame r st' := by
  have hle : ∀ {c c'}, Joined r st c c' → Joined r st' c c' := by
    refine joined_le fun c c' hc => .rel _ _ ?_
    rcases hc with hword | ⟨pr, hpr, rfl, rfl⟩
    · exact .inl (hstore ▸ hword)
    · exact hcoupled pr hpr
  exact ⟨h.equivalence, h.shape, hstore ▸ h.unbound, hstore ▸ h.cells,
    fun d0 d1 hd => ⟨(h.args d0 d1 hd).1, (h.args d0 d1 hd).2.imp fun _ _ => hle⟩,
    fun pr hpr => hle (h.pairs pr hpr)⟩

/-- A cell that leads to `d0` is linked to `d1`. -/
theorem Store.deref_link {s s' : Store} {x : Addr} {d0 d1 : Nonvar}
    (hcell : s'.cell = Function.update s.cell x (.nonvar d1)) (hx : s.deref (.ref x) = .nonvar d0) (c : Cell) :
    s'.deref c = s.deref c ∨ s.deref c = .nonvar d0 ∧ s'.deref c = .nonvar d1 := by
  have hlinked : s'.deref (.ref x) = .nonvar d1 :=
    deref_of_cell (by rw [hcell, Function.update_self]) fun h => by cases h
  have hkept : ∀ {a : Addr}, a ≠ x → s'.cell a = s.cell a :=
    fun hax => by rw [hcell, Function.update_of_ne hax]
  cases c with
  | nonvar d => exact .inl rfl
  | ref a =>
    induction a using deref_induction (s := s) with
    | unbound a ha =>
      by_cases hax : a = x
      · exact .inr ⟨hax ▸ hx, hax ▸ hlinked⟩
      · rw [deref_of_unbound ha, deref_of_unbound ((hkept hax).trans ha)]
        exact .inl rfl
    | ref a b ha hb ih =>
      by_cases hax : a = x
      · exact .inr ⟨hax ▸ hx, hax ▸ hlinked⟩
      · have hne : Cell.ref b ≠ .ref a := fun h => hb (Cell.ref.inj h)
        rw [deref_of_cell ha hne, deref_of_cell ((hkept hax).trans ha) hne]
        exact ih
    | nonvar a d ha =>
      by_cases hax : a = x
      · exact .inr ⟨hax ▸ hx, hax ▸ hlinked⟩
      · have hne : Cell.nonvar d ≠ .ref a := fun h => by cases h
        rw [deref_of_cell ha hne, deref_of_cell ((hkept hax).trans ha) hne]
        exact .inl rfl

/-- The relation that also relates two words. -/
def relate (r : Nonvar → Nonvar → Prop) (d0 d1 : Nonvar) : Nonvar → Nonvar → Prop :=
  EqvGen fun d d' => r d d' ∨ d = d0 ∧ d' = d1

theorem relate_of_rel {d0 d1 d d' : Nonvar} (h : r d d') : relate r d0 d1 d d' := .rel _ _ (.inl h)

theorem relate_pair (r : Nonvar → Nonvar → Prop) (d0 d1 : Nonvar) : relate r d0 d1 d0 d1 :=
  .rel _ _ (.inr ⟨rfl, rfl⟩)

/-- A descent relates the two words and joins their argument cells. -/
theorem Joins.descend (h : Joins hp real frame r st) (hlt : st.frame.pt0 < st.frame.pt0End)
    {l n : ℕ} {x : Addr} {d0 d1 : Nonvar} (hd0 : st.store.deref (.ref st.frame.pt0) = .nonvar d0)
    (hd1 : st.store.deref (.ref st.frame.pt1) = .nonvar d1) (hl : d0.block hp = (l, n))
    (hr : d1.block hp = (x, n)) (hkey : d0.label hp = d1.label hp) :
    Joins hp real frame (relate r d0 d1) (st.descend l x n d1) := by
  have hequiv : Equivalence (relate r d0 d1) := EqvGen.is_equivalence _
  have hwords := SameWord.equivalence hequiv
  have hjoined := joined_equivalence (relate r d0 d1) (st.descend l x n d1)
  -- What leads to `d0` may lead to `d1` now.
  have hderef : ∀ c, SameWord (relate r d0 d1) (st.store.deref c)
      ((st.descend l x n d1).store.deref c) := by
    intro c
    have hcell : (st.descend l x n d1).store.cell =
        Function.update st.store.cell st.frame.pt0 (.nonvar d1) := rfl
    rcases Store.deref_link hcell hd0 c with heq | ⟨h0, h1⟩
    · rw [heq]
      exact hwords.refl _
    · rw [h0, h1]
      exact .nonvar (relate_pair r d0 d1)
  have hlift : ∀ {c c'}, SameWord r (st.store.deref c) (st.store.deref c') →
      SameWord (relate r d0 d1) ((st.descend l x n d1).store.deref c)
        ((st.descend l x n d1).store.deref c') := by
    intro c c' hc
    exact hwords.trans (hwords.symm (hderef c))
      (hwords.trans (hc.mono fun _ _ => relate_of_rel) (hderef c'))
  have hpair : Joined (relate r d0 d1) (st.descend l x n d1) (.ref st.frame.pt0) (.ref st.frame.pt1) := by
    refine .rel _ _ (.inl ?_)
    have h0 := hderef (.ref st.frame.pt0)
    have h1 := hderef (.ref st.frame.pt1)
    rw [hd0] at h0
    rw [hd1] at h1
    exact hwords.trans (hwords.symm h0) (hwords.trans (.nonvar (relate_pair r d0 d1)) h1)
  have hle : ∀ {c c'}, Joined r st c c' → Joined (relate r d0 d1) (st.descend l x n d1) c c' := by
    refine joined_le fun c c' hc => ?_
    rcases hc with hword | ⟨pr, hpr, rfl, rfl⟩
    · exact .rel _ _ (.inl (hlift hword))
    · rw [UnifyState.pairs_next hlt] at hpr
      rcases List.mem_cons.1 hpr with rfl | hpr
      · exact hpair
      · refine .rel _ _ (.inr ⟨pr, ?_, rfl, rfl⟩)
        rw [UnifyState.pairs_descend]
        exact List.mem_append_right _ hpr
  have hargs : List.Forall₂ (Joined (relate r d0 d1) (st.descend l x n d1))
      ((d0.cells hp).map .ref) ((d1.cells hp).map .ref) := by
    rw [Nonvar.cells_of_block hl, Nonvar.cells_of_block hr, List.forall₂_map_left_iff,
      List.forall₂_map_right_iff, List.forall₂_iff_zip]
    refine ⟨by simp, fun {y z} hyz => .rel _ _ (.inr ⟨(y, z), ?_, rfl, rfl⟩)⟩
    rw [UnifyState.pairs_descend]
    exact List.mem_append_left _ hyz
  have hlists := forall₂_equivalence hjoined
  refine ⟨hequiv, fun d d' hd => relate_of_rel (h.shape d d' hd), fun v hv => ?_,
    fun a => hlift (h.cells a), fun d d' hd => ?_, fun pr hpr => hle (h.pairs pr hpr)⟩
  · -- A variable does not lead to `d0`.
    have hunbound := h.unbound v hv
    have hne : v ≠ st.frame.pt0 := by
      rintro rfl
      rw [Store.deref_of_unbound hunbound] at hd0
      cases hd0
    exact (Function.update_of_ne hne _ _).trans hunbound
  · induction hd with
    | rel d d' hd =>
      rcases hd with hd | ⟨rfl, rfl⟩
      · exact ⟨(h.args d d' hd).1, (h.args d d' hd).2.imp fun _ _ => hle⟩
      · exact ⟨hkey, hargs⟩
    | refl d => exact ⟨rfl, hlists.refl _⟩
    | symm d d' _ ih => exact ⟨ih.1.symm, hlists.symm ih.2⟩
    | trans d d' d'' _ _ ih ih' => exact ⟨ih.1.trans ih'.1, hlists.trans ih.2 ih'.2⟩

theorem Joins.move (h : Joins hp real frame r st) (hmove : Move hp st st') :
    ∃ r', Joins hp real frame r' st' := by
  cases hmove with
  | @ret frame' toVisit hlt hv =>
    refine ⟨r, h.of_coupled rfl fun pr hpr => .inr ⟨pr, ?_, rfl, rfl⟩⟩
    exact UnifyState.pairs_return hlt hv ▸ hpr
  | next hlt hstep =>
    refine ⟨r, h.of_coupled rfl fun pr hpr => ?_⟩
    rw [UnifyState.pairs_next hlt] at hpr
    rcases List.mem_cons.1 hpr with rfl | hpr
    · have hspec := unifyArgs_spec hp st.store st.frame.pt0 st.frame.pt1
      rw [hstep] at hspec
      refine .inl (?_ : SameWord r (st.store.deref _) (st.store.deref _))
      rcases hspec.of_next with ⟨v, h0, h1⟩ | ⟨d0, d1, h0, h1, hshape⟩
      · rw [h0, h1]
        exact .ref v
      · rw [h0, h1]
        exact .nonvar (h.shape d0 d1 hshape)
    · exact .inr ⟨pr, hpr, rfl, rfl⟩
  | @visit l x n d1 hlt hstep =>
    have hspec := unifyArgs_spec hp st.store st.frame.pt0 st.frame.pt1
    rw [hstep] at hspec
    cases hspec with
    | visit hd0 hd1 hl hr hkey => exact ⟨_, h.descend hlt hd0 hd1 hl hr (hkey .var)⟩

theorem exists_joins (hmoves : ReflTransGen (Move hp) (.init real frame) st) :
    ∃ r, Joins hp real frame r st := by
  induction hmoves with
  | refl => exact ⟨_, joins_init hp real frame⟩
  | tail _ hmove ih =>
    obtain ⟨r, hr⟩ := ih
    exact hr.move hmove

/-- What a word leads to in the store of the run is related to what it leads to in
the memory behind the links. -/
theorem Joins.deref (h : Joins hp real frame r st) (c : Cell) :
    SameWord r (st.store.deref c) (real.deref c) := by
  have hwords := SameWord.equivalence h.equivalence
  cases c with
  | nonvar d => exact hwords.refl _
  | ref a =>
    induction a using Store.deref_induction (s := real) with
    | unbound a ha =>
      rw [Store.deref_of_unbound ha, Store.deref_of_unbound (h.unbound a ha)]
      exact .ref a
    | ref a b ha hb ih =>
      rw [Store.deref_of_cell ha fun heq => hb (Cell.ref.inj heq)]
      have hcell := h.cells a
      rw [ha] at hcell
      exact hwords.trans hcell ih
    | nonvar a d ha =>
      rw [Store.deref_of_cell ha fun heq => by cases heq]
      have hcell := h.cells a
      rwa [ha] at hcell

/-- When no pair remains, joined cells have one tree. -/
theorem Joins.tree_eq (h : Joins hp real frame r st) (hend : st.pairs = [])
    (hσ : TreeModels hp real.cell σ) {c c' : Cell} (hc : Joined r st c c') : c.tree hp σ = c'.tree hp σ := by
  have hwords := SameWord.equivalence h.equivalence
  -- Nothing is pending, so joined cells lead to related words.
  have hlead : ∀ {c c'}, Joined r st c c' → SameWord r (real.deref c) (real.deref c') := by
    intro c c' hc
    induction hc with
    | rel c c' hc =>
      rcases hc with hc | ⟨pr, hpr, -⟩
      · exact hwords.trans (hwords.symm (h.deref c)) (hwords.trans hc (h.deref c'))
      · rw [hend] at hpr
        cases hpr
    | refl c => exact hwords.refl _
    | symm c c' _ ih => exact hwords.symm ih
    | trans c c' c'' _ _ ih ih' => exact hwords.trans ih ih'
  refine InfTree.eq_of_agree
    (r := fun t u => ∃ c c', Joined r st c c' ∧ t = c.tree hp σ ∧ u = c'.tree hp σ)
    ?_ ⟨c, c', hc, rfl, rfl⟩
  rintro t u ⟨c, c', hc, rfl, rfl⟩
  rw [← hσ.deref c, ← hσ.deref c']
  have hword := hlead hc
  generalize real.deref c = e at hword
  generalize real.deref c' = e' at hword
  cases hword with
  | ref v => exact .eq _
  | @nonvar d0 d1 hd =>
    obtain ⟨hlabel, hargs⟩ := h.args d0 d1 hd
    rw [Cell.tree, Cell.tree, hlabel]
    refine .node _ ?_
    rw [List.forall₂_map_left_iff, List.forall₂_map_right_iff] at hargs ⊢
    exact hargs.imp fun a b hab => ⟨.ref a, .ref b, hab, rfl, rfl⟩

-- ---------------------------------------------------------------------------
-- The loop
-- ---------------------------------------------------------------------------

/-- A loop that fails has no solution. -/
theorem not_equal_of_exit_false {s : Store} (hrun : ReflTransGen (Goes hp) (.init s frame) st)
    (hexit : st.turn hp = .exit false) (hσ : TreeModels hp s.cell σ) :
    ¬ ∀ pr ∈ frame.pairs, σ pr.1 = σ pr.2 :=
  fun hequal => ((solves_init hσ hequal).run hrun).not_fails hexit

/-- A loop that succeeds leaves a memory whose valuations are the solutions. -/
theorem treeModels_memory_iff {s : Store} (hrun : ReflTransGen (Goes hp) (.init s frame) st)
    (hexit : st.turn hp = .exit true) (hσ : TreeModels hp s.cell σ) :
    TreeModels hp st.memory σ ↔ ∀ pr ∈ frame.pairs, σ pr.1 = σ pr.2 := by
  constructor
  · intro hmemory
    obtain ⟨real, hreached⟩ := exists_reached hrun
    obtain ⟨r, hr⟩ := exists_joins hreached.moves
    rcases UnifyState.turn_exit hexit with ⟨-, hend⟩ | ⟨hfalse, -⟩
    · exact fun pr hpr => hr.tree_eq hend (hreached.memory ▸ hmemory) (hr.pairs pr hpr)
    · cases hfalse
  · exact fun hequal => ((solves_init hσ hequal).run hrun).memory

end Yap
