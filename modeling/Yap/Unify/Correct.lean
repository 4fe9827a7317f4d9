-- SUMMARY: Unification answers whether two finite terms have a common instance and leaves a most general unifier, exactly when the top level does not compare two boxes wrongly.
import Yap.Compare.Levels
import Yap.Unify.Extension

/-!
# Correctness of unification

There is no occurs check: the statements are about calls that keep the two words
finite terms, and every call on unifiable terms does.
-/

namespace Yap

open Relation

variable {hp : Heap} {s : Store} {d0 d1 : Cell} {t u : Term} {R : Finset Addr}

-- ---------------------------------------------------------------------------
-- Calls
-- ---------------------------------------------------------------------------

variable (hp) in
/-- The call answers `out` and leaves the memory `m`. -/
def Answers (s : Store) (d0 d1 : Cell) (out : Bool) (m : Addr → Cell) : Prop :=
  ∃ turns, iUnify hp turns s d0 d1 = some (out, m)

variable (hp) in
/-- The memories that a call passes through, behind the links of its loop. -/
inductive Passes (s : Store) (d0 d1 : Cell) : (Addr → Cell) → Prop where
  | start : Passes s d0 d1 s.cell
  | bind {a : Addr} {c : Cell} : unifyTop hp s d0 d1 = .bind a c →
      Passes s d0 d1 (Function.update s.cell a c)
  | loop {l r : Addr} {n : ℕ} {d : Nonvar} {st : UnifyState} :
      unifyTop hp s d0 d1 = .visit l r n d →
      ReflTransGen (Goes hp) (.init s ⟨l, l + n, r⟩) st → Passes s d0 d1 st.memory

variable (hp) in
/-- No occurs check would fail: the two words stay finite terms. -/
def StaysFinite (s : Store) (d0 d1 : Cell) : Prop :=
  ∀ m, Passes hp s d0 d1 m → (∃ w, Unfolds hp m d0 w) ∧ ∃ w, Unfolds hp m d1 w

/-- The loop is left at some state. -/
theorem exists_exit {st : UnifyState} {turns : ℕ} {out : Bool} {m : Addr → Cell}
    (h : st.run hp turns = some (out, m)) :
    ∃ st', ReflTransGen (Goes hp) st st' ∧ st'.turn hp = .exit out ∧ m = st'.memory := by
  induction turns generalizing st with
  | zero => cases h
  | succ turns ih =>
      rw [UnifyState.run] at h
      cases hturn : st.turn hp with
      | go st₁ =>
          rw [hturn] at h
          obtain ⟨st', hrun, hexit⟩ := ih h
          exact ⟨st', .head hturn hrun, hexit⟩
      | exit out' =>
          rw [hturn] at h
          cases h
          exact ⟨st, .refl, hturn, rfl⟩

/-- A loop that ends is left after some number of turns. -/
theorem Ends.exists_run {st : UnifyState} (h : Ends (Goes hp) st) : ∃ turns r, st.run hp turns = some r := by
  induction h with
  | intro st _ ih =>
      cases hturn : st.turn hp with
      | exit out => exact ⟨1, (out, st.memory), by rw [UnifyState.run, hturn]⟩
      | go st' =>
          obtain ⟨turns, r, hrun⟩ := ih st' hturn
          exact ⟨turns + 1, r, by rw [UnifyState.run, hturn]; exact hrun⟩

theorem run_succ {st : UnifyState} {turns : ℕ} {r : Bool × (Addr → Cell)}
    (h : st.run hp turns = some r) : st.run hp (turns + 1) = some r := by
  induction turns generalizing st with
  | zero => cases h
  | succ turns ih =>
      rw [UnifyState.run] at h ⊢
      cases hturn : st.turn hp with
      | go st₁ =>
          rw [hturn] at h
          exact ih h
      | exit out =>
          rw [hturn] at h
          exact h

theorem iUnify_le {turns turns' : ℕ} (hle : turns ≤ turns') {r : Bool × (Addr → Cell)}
    (h : iUnify hp turns s d0 d1 = some r) : iUnify hp turns' s d0 d1 = some r := by
  unfold iUnify at h ⊢
  split
  case h_4 l r' n d hstep =>
    simp only [hstep] at h
    induction hle with
    | refl => exact h
    | step _ ih => exact run_succ ih
  all_goals
    rename_i hstep
    simp only [hstep] at h
    exact h

/-- A call has one answer. -/
theorem Answers.unique {out out' : Bool} {m m' : Addr → Cell} (h : Answers hp s d0 d1 out m)
    (h' : Answers hp s d0 d1 out' m') : out = out' ∧ m = m' := by
  obtain ⟨turns, hturns⟩ := h
  obtain ⟨turns', hturns'⟩ := h'
  have heq := (iUnify_le (Nat.le_max_left turns turns') hturns).symm.trans
    (iUnify_le (Nat.le_max_right turns turns') hturns')
  exact Prod.mk.inj (Option.some.inj heq)

-- ---------------------------------------------------------------------------
-- Boxes at the top level
-- ---------------------------------------------------------------------------

/-- The top level compares two big numbers, or two doubles, wrongly. -/
def boxDefect : Blob → Blob → Bool
  | .bigInt x, .bigInt y => x != y
  | .double x, .double y => x.eq y != decide (x = y)
  | _, _ => false

variable (hp) in
/-- The two words do not lead to boxes that the top level compares wrongly. -/
def BoxesSound (s : Store) (d0 d1 : Cell) : Prop :=
  ∀ p q b c, s.deref d0 = .nonvar (.appl p) → s.deref d1 = .nonvar (.appl q) → p ≠ q →
    hp.functorAt p = .blob b → hp.functorAt q = .blob c → boxDefect b c = false

theorem unifyBlob_iff {p q : Addr} (hpq : p ≠ q) (b c : Blob) :
    (unifyBlob p q b c = true ↔ (Term.blob p b).Identical (.blob q c)) ↔ boxDefect b c = false := by
  cases b <;> cases c <;>
    simp [unifyBlob, boxDefect, Term.Identical, Term.erase, strcmp_eq_zero, gmpTcmpBigBig_eq_zero, hpq]
  case double.double x y =>
    exact ⟨fun h => Bool.eq_iff_iff.mpr (h.trans decide_eq_true_iff.symm), fun h => by simp [h]⟩

theorem BoxesSound.spec (h : BoxesSound hp s d0 d1) :
    WordsSpec hp (s.deref d0) (s.deref d1) (unifyTop hp s d0 d1) := by
  refine unifyWords_spec (bindsVars_unifyCells hp.hr) ?_
  rintro e0 e1 he0 he1 p q b c rfl rfl hpq hb hc
  exact (unifyBlob_iff hpq b c).mpr (h p q b c he0 he1 hpq hb hc)

-- ---------------------------------------------------------------------------
-- Calls on finite terms
-- ---------------------------------------------------------------------------

theorem BoxesSound.visits (h : BoxesSound hp s d0 d1) {l r : Addr} {n : ℕ} {d : Nonvar}
    (hstep : unifyTop hp s d0 d1 = .visit l r n d) : ∃ e0, Visits hp s d0 d1 l r n e0 d := by
  have hspec := h.spec
  rw [hstep] at hspec
  cases hspec with
  | @visit e0 _ _ _ _ h0 h1 hl hr hkey => exact ⟨e0, h0, h1, hl, hr, hkey⟩

/-- The memories of a call are extensions of the store. -/
theorem Problem.extension (h : Problem hp s d0 d1 t u R) (hsound : BoxesSound hp s d0 d1)
    {m : Addr → Cell} (hm : Passes hp s d0 d1 m) :
    ∃ real : Store, real.cell = m ∧ Extension hp s d0 d1 R real := by
  cases hm with
  | start => exact ⟨s, rfl, h.extension_start⟩
  | bind hstep => exact h.extension_bind hstep
  | loop hstep hrun =>
      obtain ⟨e0, hv⟩ := hsound.visits hstep
      obtain ⟨real, hreached⟩ := exists_reached hrun
      exact ⟨real, hreached.memory, h.extension_reached hv hrun hreached⟩

theorem Problem.staysFinite (h : Problem hp s d0 d1 t u R) (hsound : BoxesSound hp s d0 d1)
    (hunif : Unifiable t u) : StaysFinite hp s d0 d1 := by
  intro m hm
  obtain ⟨real, rfl, hreal⟩ := h.extension hsound hm
  exact h.finite_of_unifiable hreal hunif

/-- The call ends when its memories hold finite terms. -/
theorem Problem.answers (h : Problem hp s d0 d1 t u R) (hsound : BoxesSound hp s d0 d1)
    (hfinite : StaysFinite hp s d0 d1) : ∃ out m, Answers hp s d0 d1 out m := by
  cases hstep : unifyTop hp s d0 d1 with
  | fail => exact ⟨false, s.cell, 0, by rw [iUnify, hstep]⟩
  | next => exact ⟨true, s.cell, 0, by rw [iUnify, hstep]⟩
  | bind a c => exact ⟨true, _, 0, by rw [iUnify, hstep]⟩
  | visit l r n d =>
      obtain ⟨e0, hv⟩ := hsound.visits hstep
      have hends : Ends (Goes hp) _ := ends_of_finite (fun _ _ h => h) (h.inRegion hv) fun st hst => by
        have hpass : Passes hp s d0 d1 st.memory := .loop hstep hst
        obtain ⟨h0, h1⟩ := hfinite _ hpass
        obtain ⟨real, hcell, hreal⟩ := h.extension hsound hpass
        exact h.finite_cells (hcell ▸ hreal.extend) h0 h1
      obtain ⟨turns, ⟨out, m⟩, hrun⟩ := hends.exists_run
      exact ⟨out, m, turns, by simp only [iUnify, hstep]; exact hrun⟩

/-- A call that fails has met words that no substitution makes equal. -/
theorem Problem.not_unifiable (h : Problem hp s d0 d1 t u R) (hsound : BoxesSound hp s d0 d1)
    {m : Addr → Cell} (hm : Answers hp s d0 d1 false m) : ¬ Unifiable t u := by
  rintro ⟨τ, hτ⟩
  have hσ := h.models τ
  have heq := h.unifies_iff.mp hτ
  obtain ⟨turns, hturns⟩ := hm
  cases hstep : unifyTop hp s d0 d1 with
  | fail =>
      have hspec := hsound.spec
      rw [hstep] at hspec
      obtain ⟨h0, h1⟩ := h.derefs hσ
      cases hspec with
      | fail hkey => exact hkey _ _ (by rw [h0, h1, heq])
  | next => simp [iUnify, hstep] at hturns
  | bind a c => simp [iUnify, hstep] at hturns
  | visit l r n d =>
      obtain ⟨e0, hv⟩ := hsound.visits hstep
      simp only [iUnify, hstep] at hturns
      obtain ⟨st, hrun, hexit, -⟩ := exists_exit hturns
      exact ((h.satisfies hv hσ heq).run hrun).not_fails hexit

theorem Problem.identical_of_next (h : Problem hp s d0 d1 t u R) (hsound : BoxesSound hp s d0 d1)
    (hstep : unifyTop hp s d0 d1 = .next) {σ : Addr → Term} (hσ : Models hp R s.cell σ) :
    (d0.value hp σ).Identical (d1.value hp σ) := by
  have hspec := hsound.spec
  rw [hstep] at hspec
  obtain ⟨h0, h1⟩ := h.derefs hσ
  cases hspec with
  | next hvalue =>
      rw [← h0, ← h1, hvalue]
      rfl

theorem Problem.identical_of_bind (h : Problem hp s d0 d1 t u R) {a : Addr} {c : Cell}
    (hstep : unifyTop hp s d0 d1 = .bind a c) {σ : Addr → Term}
    (hσ : Models hp R (Function.update s.cell a c) σ) : (d0.value hp σ).Identical (d1.value hp σ) := by
  obtain ⟨hunbound, hwritable⟩ := unifyWords_writable (bindsVars_unifyCells hp.hr) hstep
  obtain ⟨real, hcell, hreal⟩ := h.extension_bind hstep
  obtain ⟨h0, h1⟩ := h.derefs ((hcell ▸ hσ : Models hp R real.cell σ).of_extends hreal.extend)
  have haR : a ∈ R := by
    by_contra hnot
    have hout := hreal.outside a hnot
    rw [hcell, Function.update_self] at hout
    exact (hwritable a (hout.trans hunbound)).1 rfl
  have hvalue := hσ a haR
  rw [Function.update_self] at hvalue
  obtain ⟨-, ⟨hd0, hd1⟩ | ⟨hd0, hd1⟩⟩ := unifyWords_bind (bindsVars_unifyCells hp.hr) hstep
  · rw [← h0, ← h1, hd0, hd1, ← hvalue]
    rfl
  · rw [← h0, ← h1, hd0, hd1, ← hvalue]
    rfl

/-- A call that succeeds has made the two words equal. -/
theorem Problem.succeeds (h : Problem hp s d0 d1 t u R) (hsound : BoxesSound hp s d0 d1)
    {m : Addr → Cell} (hm : Answers hp s d0 d1 true m) :
    Passes hp s d0 d1 m ∧
      ∀ σ, Models hp R m σ → (d0.value hp σ).Identical (d1.value hp σ) := by
  obtain ⟨turns, hturns⟩ := hm
  cases hstep : unifyTop hp s d0 d1 with
  | fail => simp [iUnify, hstep] at hturns
  | next =>
      obtain rfl : s.cell = m := by simpa [iUnify, hstep] using hturns
      exact ⟨.start, fun σ hσ => h.identical_of_next hsound hstep hσ⟩
  | bind a c =>
      obtain rfl : Function.update s.cell a c = m := by simpa [iUnify, hstep] using hturns
      exact ⟨.bind hstep, fun σ hσ => h.identical_of_bind hstep hσ⟩
  | visit l r n d =>
      obtain ⟨e0, hv⟩ := hsound.visits hstep
      simp only [iUnify, hstep] at hturns
      obtain ⟨st, hrun, hexit, rfl⟩ := exists_exit hturns
      refine ⟨.loop hstep hrun, fun σ hσ => ?_⟩
      obtain ⟨real, hreached⟩ := exists_reached hrun
      rcases UnifyState.turn_exit hexit with ⟨-, hend⟩ | ⟨hfalse, -⟩
      · exact h.identical_of_end hv hrun hreached hend (hreached.memory ▸ hσ)
      · cases hfalse

-- ---------------------------------------------------------------------------
-- The claim about unification
-- ---------------------------------------------------------------------------

variable (hp) in
/-- The call unifies: it keeps unifiable terms finite; on terms that stay finite it
    ends, succeeds on unifiable ones only and leaves a most general unifier; on terms
    without variables it tests identity; and it answers for the arguments of a unary
    compound as it does for the terms. -/
structure UnifiesCorrectly (s : Store) (d0 d1 : Cell) (t u : Term) : Prop where
  stays_finite : Unifiable t u → StaysFinite hp s d0 d1
  verdict : StaysFinite hp s d0 d1 → ∃ out m, Answers hp s d0 d1 out m ∧ (out = true ↔ Unifiable t u)
  fails : ∀ m, Answers hp s d0 d1 false m → ¬ Unifiable t u
  unifier : StaysFinite hp s d0 d1 → ∀ m, Answers hp s d0 d1 true m → MostGeneral hp s.cell m t u
  ground : (∀ v, ¬ t.Occurs v) → (∀ v, ¬ u.Occurs v) →
    ∃ out m, Answers hp s d0 d1 out m ∧ (out = true ↔ t.Identical u)
  levels : ∀ p q name, hp.functorAt p = .functor (unaryFunctor name) →
    hp.functorAt q = .functor (unaryFunctor name) → s.cell (p + 1) = d0 → s.cell (q + 1) = d1 →
    StaysFinite hp s d0 d1 → StaysFinite hp s (.nonvar (.appl p)) (.nonvar (.appl q)) →
    ∃ out m m', Answers hp s d0 d1 out m ∧
      Answers hp s (.nonvar (.appl p)) (.nonvar (.appl q)) out m'

theorem Problem.verdict (h : Problem hp s d0 d1 t u R) (hsound : BoxesSound hp s d0 d1)
    (hfinite : StaysFinite hp s d0 d1) :
    ∃ out m, Answers hp s d0 d1 out m ∧ (out = true ↔ Unifiable t u) := by
  obtain ⟨out, m, hm⟩ := h.answers hsound hfinite
  refine ⟨out, m, hm, ?_⟩
  cases out with
  | false => exact iff_of_false (by rintro ⟨⟩) (h.not_unifiable hsound hm)
  | true =>
      refine iff_of_true rfl ?_
      obtain ⟨hpass, hequal⟩ := h.succeeds hsound hm
      obtain ⟨real, rfl, hreal⟩ := h.extension hsound hpass
      obtain ⟨h0, h1⟩ := hfinite _ hpass
      obtain ⟨θ, -, hθ, -⟩ := (h.mostGeneral hreal h0 h1 hequal).unifier
      exact ⟨θ, hθ⟩

/-- The value of a word with one argument. -/
theorem unfolds_unary {p : Addr} {name : Atom} {m : Addr → Cell} {d : Cell} {w : Term}
    (hp' : hp.functorAt p = .functor (unaryFunctor name)) (hd : m (p + 1) = d)
    (hw : Unfolds hp m d w) : Unfolds hp m (.nonvar (.appl p)) (unaryTerm p name w) := by
  refine .appl hp' fun i => ?_
  have hi : (i : ℕ) = 0 := Nat.lt_one_iff.mp i.isLt
  rw [hi, Nat.add_zero]
  by_cases hself : m (p + 1) = .ref (p + 1)
  · rw [← hd, hself] at hw
    exact hw
  · exact .ref hself (hd ▸ hw)

theorem unifies_unary {p q : Addr} {name : Atom} {τ : Addr → Term} :
    Unifies τ (unaryTerm p name t) (unaryTerm q name u) ↔ Unifies τ t u := by
  have hargs : Nonempty (Fin (unaryFunctor name).arityOfFE) := ⟨⟨0, Nat.one_pos⟩⟩
  simp [Unifies, unaryTerm, Term.subst, Term.Identical, Term.erase, funext_iff]

/-- Words of compounds are not boxes. -/
theorem boxesSound_functor {p q : Addr} {f : Functor} (hf : hp.functorAt p = .functor f) :
    BoxesSound hp s (.nonvar (.appl p)) (.nonvar (.appl q)) := by
  rintro p' q' b c h0 - - hb -
  cases h0
  cases hf.symm.trans hb

theorem Problem.unifiesCorrectly (h : Problem hp s d0 d1 t u R) (hsound : BoxesSound hp s d0 d1) :
    UnifiesCorrectly hp s d0 d1 t u := by
  refine ⟨h.staysFinite hsound, h.verdict hsound, fun m => h.not_unifiable hsound,
    fun hfinite m hm => ?_, fun ht hu => ?_, fun p q name hf hg h0 h1 hfinite hfinite' => ?_⟩
  · obtain ⟨hpass, hequal⟩ := h.succeeds hsound hm
    obtain ⟨real, rfl, hreal⟩ := h.extension hsound hpass
    obtain ⟨hw0, hw1⟩ := hfinite _ hpass
    exact h.mostGeneral hreal hw0 hw1 hequal
  · -- Terms without variables stay as they are.
    have hfinite : StaysFinite hp s d0 d1 := by
      intro m hm
      obtain ⟨real, rfl, hreal⟩ := h.extension hsound hm
      exact ⟨h.left.extend hreal.extend fun v hv => absurd hv (ht v),
        h.right.extend hreal.extend fun v hv => absurd hv (hu v)⟩
    obtain ⟨out, m, hm, hout⟩ := h.verdict hsound hfinite
    exact ⟨out, m, hm, hout.trans (unifiable_ground ht hu)⟩
  · obtain ⟨out, m, hm, hout⟩ := h.verdict hsound hfinite
    obtain ⟨R', h'⟩ := exists_problem (unfolds_unary hf h0 h.left) (unfolds_unary hg h1 h.right)
    obtain ⟨out', m', hm', hout'⟩ := h'.verdict (boxesSound_functor hf) hfinite'
    have hiff : out' = true ↔ out = true := by
      rw [hout, hout']
      exact exists_congr fun τ => unifies_unary
    obtain rfl : out' = out := Bool.eq_iff_iff.mpr hiff
    exact ⟨out', m, m', hm, hm'⟩

/-- A box is a term without variables. -/
theorem Term.not_occurs_blob (p v : Addr) (b : Blob) : ¬ (Term.blob p b).Occurs v := by
  intro h
  cases List.mem_singleton.mp h

/-- A store of unbound variables. -/
def Store.unbound : Store where
  cell a := .ref a
  refs_end := ⟨fun _ => ⟨_, fun _ h => absurd (Cell.ref.inj h.1).symm h.2⟩⟩

end Yap
