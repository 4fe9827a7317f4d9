-- SUMMARY: The tidying of translated grammar rules: where it keeps the answers, and what it does with variables for goals.
import Yap.Grammar.Meaning

/-!
# Tidied goals

The clauses that take a conjunction apart unify its parts with conjunctions and with
`true`. So a variable for a goal is bound in front of another goal over and over,
and behind one to `true`. A conditional that is alone after tidying is taken for the
condition of the disjunction around it.
-/

namespace Yap

namespace Grammar

variable {α S R : Type*}

-- ---------------------------------------------------------------------------
-- Goals without variables in conjunctions
-- ---------------------------------------------------------------------------

/-- The tidied goal, where no part of a conjunction is a variable. -/
def tidied : ℕ → Goal α → Goal α
  | 0, p => p
  | n + 1, .disj p1 p2 => .disj (tidied n p1) (tidied n p2)
  | n + 1, .arrow p1 p2 => .arrow (tidied n p1) (tidied n p2)
  | n + 1, .conj (.conj p1 p2) p3 => tidied n (.conj p1 (.conj p2 p3))
  | n + 1, .conj .true p1 => tidied n p1
  | n + 1, .conj p1 .true => tidied n p1
  | n + 1, .conj p1 p2 => .conj (tidied n p1) (tidied n p2)
  | _ + 1, p => p

/-- A bound on the depth of the calls. -/
def weight : Goal α → ℕ
  | .conj g h => 2 * weight g + weight h + 1
  | .disj g h | .arrow g h => weight g + weight h + 1
  | _ => 1

def isVar : Goal α → Bool
  | .var _ => true
  | _ => false

/-- No part of a conjunction is a variable. -/
def Tidyable : Goal α → Prop
  | .conj g h => (isVar g = false ∧ isVar h = false) ∧ Tidyable g ∧ Tidyable h
  | .disj g h | .arrow g h => Tidyable g ∧ Tidyable h
  | _ => True

/-- No disjunct becomes a conditional. -/
def KeepsDisjuncts : Goal α → Prop
  | .disj g h => KeepsDisjuncts g ∧ KeepsDisjuncts h ∧ (tidied (weight g) g).isArrow = g.isArrow
  | .conj g h | .arrow g h => KeepsDisjuncts g ∧ KeepsDisjuncts h
  | _ => True

instance decidableTidyable : (g : Goal α) → Decidable (Tidyable g)
  | .conj g h =>
    have := decidableTidyable g
    have := decidableTidyable h
    inferInstanceAs (Decidable ((isVar g = false ∧ isVar h = false) ∧ Tidyable g ∧ Tidyable h))
  | .disj g h | .arrow g h =>
    have := decidableTidyable g
    have := decidableTidyable h
    inferInstanceAs (Decidable (Tidyable g ∧ Tidyable h))
  | .var _ | .true | .fail | .cut | .atom _ => isTrue trivial

instance decidableKeepsDisjuncts : (g : Goal α) → Decidable (KeepsDisjuncts g)
  | .disj g h =>
    have := decidableKeepsDisjuncts g
    have := decidableKeepsDisjuncts h
    inferInstanceAs (Decidable (KeepsDisjuncts g ∧ KeepsDisjuncts h ∧ (tidied (weight g) g).isArrow = g.isArrow))
  | .conj g h | .arrow g h =>
    have := decidableKeepsDisjuncts g
    have := decidableKeepsDisjuncts h
    inferInstanceAs (Decidable (KeepsDisjuncts g ∧ KeepsDisjuncts h))
  | .var _ | .true | .fail | .cut | .atom _ => isTrue trivial

/-- A goal that the clauses for conjunctions do not take apart. -/
def isItem : Goal α → Bool
  | .conj _ _ | .var _ | .true => false
  | _ => true

theorem weight_pos (g : Goal α) : 0 < weight g := by
  cases g <;> simp [weight]

section Equations

variable {g h h' k : Goal α} (n : ℕ)

theorem tidied_assoc : tidied (n + 1) (.conj (.conj g h) k) = tidied n (.conj g (.conj h k)) := rfl

theorem tidied_true : tidied (n + 1) (.conj .true g) = tidied n g := by
  cases g <;> rfl

theorem tidied_conj_true (hg : isItem g = true) : tidied (n + 1) (.conj g .true) = tidied n g := by
  cases g <;> first | rfl | exact absurd hg Bool.false_ne_true

theorem tidied_conj (hg : isItem g = true) (hh : h ≠ .true) :
    tidied (n + 1) (.conj g h) = .conj (tidied n g) (tidied n h) := by
  cases g <;> cases h <;> first | rfl | exact absurd rfl hh | exact absurd hg Bool.false_ne_true

/-- How a conjunction is taken apart. -/
theorem conj_cases (h : Tidyable (.conj g k)) :
    (∃ g1 g2, g = .conj g1 g2) ∨ g = .true ∨ isItem g = true ∧ k = .true ∨ isItem g = true ∧ k ≠ .true := by
  by_cases hk : k = .true
  · cases g with
    | conj g1 g2 => exact .inl ⟨g1, g2, rfl⟩
    | true => exact .inr (.inl rfl)
    | var x => cases h.1.1
    | _ => exact .inr (.inr (.inl ⟨rfl, hk⟩))
  · cases g with
    | conj g1 g2 => exact .inl ⟨g1, g2, rfl⟩
    | true => exact .inr (.inl rfl)
    | var x => cases h.1.1
    | _ => exact .inr (.inr (.inr ⟨rfl, hk⟩))

theorem tidyable_assoc (h : Tidyable (.conj (.conj g k) h')) : Tidyable (.conj g (.conj k h')) :=
  ⟨⟨h.2.1.1.1, rfl⟩, h.2.1.2.1, ⟨h.2.1.1.2, h.1.2⟩, h.2.1.2.2, h.2.2⟩

end Equations

/-- More depth changes nothing. -/
theorem tidied_eq {n m : ℕ} {g : Goal α} (h : Tidyable g) (hn : weight g ≤ n) (hm : weight g ≤ m) :
    tidied n g = tidied m g := by
  induction n generalizing m g with
  | zero => exact absurd hn (Nat.not_le.mpr (weight_pos g))
  | succ n ih =>
    obtain ⟨m, rfl⟩ := Nat.exists_eq_succ_of_ne_zero ((weight_pos g).trans_le hm).ne'
    cases g with
    | conj g k =>
      have hg := weight_pos g
      have hk := weight_pos k
      rcases conj_cases h with ⟨g1, g2, rfl⟩ | rfl | ⟨hitem, rfl⟩ | ⟨hitem, hne⟩
      · simp only [weight] at hn hm
        exact ih (tidyable_assoc h) (by simp only [weight]; omega) (by simp only [weight]; omega)
      · simp only [weight] at hn hm
        rw [tidied_true, tidied_true]
        exact ih h.2.2 (by omega) (by omega)
      · simp only [weight] at hn hm
        rw [tidied_conj_true n hitem, tidied_conj_true m hitem]
        exact ih h.2.1 (by omega) (by omega)
      · simp only [weight] at hn hm
        rw [tidied_conj n hitem hne, tidied_conj m hitem hne]
        exact congrArg₂ Goal.conj (ih h.2.1 (by omega) (by omega)) (ih h.2.2 (by omega) (by omega))
    | disj g k =>
      simp only [weight] at hn hm
      exact congrArg₂ Goal.disj (ih h.1 (by omega) (by omega)) (ih h.2 (by omega) (by omega))
    | arrow g k =>
      simp only [weight] at hn hm
      exact congrArg₂ Goal.arrow (ih h.1 (by omega) (by omega)) (ih h.2 (by omega) (by omega))
    | _ => rfl

section Calls

variable {b : Bindings α} {g k : Goal α} (n : ℕ)

theorem tTidy_conj_true (hg : isItem g = true) : tTidy (n + 1) b (.conj g .true) = tTidy n b g := by
  cases g <;> first | rfl | exact absurd hg Bool.false_ne_true

theorem tTidy_conj (hg : isItem g = true) (hk : k ≠ .true) (hvar : isVar k = false) :
    tTidy (n + 1) b (.conj g k) =
      (tTidy n b g).bind fun q1 => (tTidy n q1.2 k).map fun q2 => (.conj q1.1 q2.1, q2.2) := by
  cases g <;> cases k <;> first | rfl | exact absurd rfl hk | exact absurd hg Bool.false_ne_true | exact absurd hvar.symm Bool.false_ne_true

end Calls

/-- Without variables in conjunctions nothing is bound. -/
theorem tTidy_eq {n : ℕ} {b : Bindings α} (hb : ∀ x, b.bind x = none) {g : Goal α} (h : Tidyable g)
    (hn : weight g ≤ n) : tTidy n b g = some (tidied n g, b) := by
  induction n generalizing g with
  | zero => exact absurd hn (Nat.not_le.mpr (weight_pos g))
  | succ n ih =>
    cases g with
    | conj g k =>
      have hg := weight_pos g
      have hk := weight_pos k
      rcases conj_cases h with ⟨g1, g2, rfl⟩ | rfl | ⟨hitem, rfl⟩ | ⟨hitem, hne⟩
      · simp only [weight] at hn
        exact ih (tidyable_assoc h) (by simp only [weight]; omega)
      · simp only [weight] at hn
        rw [tidied_true]
        exact ih h.2.2 (by omega)
      · simp only [weight] at hn
        rw [tTidy_conj_true n hitem, tidied_conj_true n hitem]
        exact ih h.2.1 (by omega)
      · simp only [weight] at hn
        rw [tTidy_conj n hitem hne h.1.2, tidied_conj n hitem hne, ih h.2.1 (by omega), Option.bind_some,
          ih h.2.2 (by omega)]
        rfl
    | disj g k =>
      simp only [weight] at hn
      change ((tTidy n b g).bind fun q1 => (tTidy n q1.2 k).map fun q2 => (Goal.disj q1.1 q2.1, q2.2)) = _
      rw [ih h.1 (by omega), Option.bind_some, ih h.2 (by omega)]
      rfl
    | arrow g k =>
      simp only [weight] at hn
      change ((tTidy n b g).bind fun q1 => (tTidy n q1.2 k).map fun q2 => (Goal.arrow q1.1 q2.1, q2.2)) = _
      rw [ih h.1 (by omega), Option.bind_some, ih h.2 (by omega)]
      rfl
    | var x => simp only [tTidy, Bindings.deref, hb, Option.getD_none, tidied]
    | _ => rfl

/-- Tidying keeps the runs. -/
theorem run_tidied (M : Runner α S R) {n : ℕ} {g : Goal α} (h : Tidyable g) (hkeeps : KeepsDisjuncts g)
    (hn : weight g ≤ n) : (tidied n g).run M = g.run M := by
  induction n using Nat.strong_induction_on generalizing g with
  | _ n ih =>
    obtain ⟨n, rfl⟩ := Nat.exists_eq_succ_of_ne_zero ((weight_pos g).trans_le hn).ne'
    cases g with
    | conj g k =>
      have hg := weight_pos g
      have hk := weight_pos k
      rcases conj_cases h with ⟨g1, g2, rfl⟩ | rfl | ⟨hitem, rfl⟩ | ⟨hitem, hne⟩
      · simp only [weight] at hn
        rw [Goal.run_conj_assoc]
        exact ih n n.lt_succ_self (tidyable_assoc h) ⟨hkeeps.1.1, hkeeps.1.2, hkeeps.2⟩ (by simp only [weight]; omega)
      · simp only [weight] at hn
        rw [tidied_true, Goal.run_true_conj]
        exact ih n n.lt_succ_self h.2.2 hkeeps.2 (by omega)
      · simp only [weight] at hn
        rw [tidied_conj_true n hitem, Goal.run_conj_true]
        exact ih n n.lt_succ_self h.2.1 hkeeps.1 (by omega)
      · simp only [weight] at hn
        rw [tidied_conj n hitem hne]
        exact Goal.run_conj_congr (ih n n.lt_succ_self h.2.1 hkeeps.1 (by omega))
          (ih n n.lt_succ_self h.2.2 hkeeps.2 (by omega))
    | disj g k =>
      simp only [weight] at hn
      have hrun := ih n n.lt_succ_self h.1 hkeeps.1 (by omega)
      have hrun' := ih n n.lt_succ_self h.2 hkeeps.2.1 (by omega)
      have harrow : (tidied n g).isArrow = g.isArrow :=
        (congrArg Goal.isArrow (tidied_eq h.1 (by omega) le_rfl)).trans hkeeps.2.2
      cases hcase : g.isArrow with
      | false =>
        change (Goal.disj (tidied n g) (tidied n k)).run M = _
        exact Goal.run_disj_congr hrun hrun' (harrow.trans hcase) hcase
      | true =>
        cases g with
        | arrow c t =>
          have hc := weight_pos c
          have ht := weight_pos t
          simp only [weight] at hn
          obtain ⟨m, rfl⟩ := Nat.exists_eq_succ_of_ne_zero (show n ≠ 0 by omega)
          have hlt : m < m.succ.succ := Nat.lt_succ_of_lt m.lt_succ_self
          change (Goal.disj (.arrow (tidied m c) (tidied m t)) _).run M = _
          exact Goal.run_ite_congr (ih m hlt h.1.1 hkeeps.1.1 (by omega)) (ih m hlt h.1.2 hkeeps.1.2 (by omega)) hrun'
        | _ => cases hcase
    | arrow g k =>
      simp only [weight] at hn
      change (Goal.arrow (tidied n g) (tidied n k)).run M = _
      exact Goal.run_arrow_congr (ih n n.lt_succ_self h.1 hkeeps.1 (by omega)) (ih n n.lt_succ_self h.2 hkeeps.2 (by omega))
    | _ => rfl

-- ---------------------------------------------------------------------------
-- Translated rules
-- ---------------------------------------------------------------------------

/-- The goal for the body has no variable in a conjunction, and no disjunct that becomes a conditional. -/
def Tame {τ : Type*} (rp : Body τ) : Prop :=
  ∃ b1, tBody rp none true 0 1 ⟨2, id⟩ = some b1 ∧ Tidyable b1.1 ∧ KeepsDisjuncts b1.1

theorem tBody_head {τ : Type*} (rp : Body τ) : tBody rp none true 0 1 ⟨2, id⟩ =
    some (raw rp none true 0 1 2, fillAfter rp none true, ⟨2 + positions rp, bodyAliases rp⟩) :=
  tBody_eq (by decide) rp true 0 1 ⟨2, id⟩

/-- `s --> ["x"], (s, ["y"], ! ; \\+ t), {g}` over characters and names. -/
def sampleBody : Body String :=
  .conj (.cons "x" .nil) (.conj (.disj (.conj (.nonterminal "s") (.conj (.cons "y" .nil) .cut))
    (.neg (.nonterminal "t"))) (.braces (.atom "g")))

theorem tame_sampleBody : Tame sampleBody := ⟨_, rfl, by decide, by decide⟩

theorem deref_conj (b : Bindings α) (g h : Goal α) : b.deref (.conj g h) = .conj g h := rfl

/-- In front of another goal an unbound variable is taken apart for ever. -/
theorem tTidy_var_conj {n : ℕ} {b : Bindings α} {x : ℕ} (hfree : ∀ y, b.next ≤ y → b.bind y = none)
    (hx : x < b.next) (hunbound : b.bind x = none) (h : Goal α) : tTidy n b (.conj (.var x) h) = none := by
  induction n generalizing b x h with
  | zero => rfl
  | succ n ih =>
    have hderef : b.deref (.var x) = .var x := by rw [Bindings.deref, hunbound, Option.getD_none]
    have hstep : tTidy (n + 1) b (.conj (.var x) h) =
        tTidy n (b.setConj x) (.conj (.var b.next) (.conj (.var (b.next + 1)) h)) := by
      simp only [tTidy, deref_conj, hderef]
    have hother : ∀ y, y ≠ x → (b.setConj x).bind y = b.bind y := fun y hy => Function.update_of_ne hy ..
    rw [hstep]
    refine ih (fun y hy => ?_) ?_ ?_ _
    · have hy : b.next + 2 ≤ y := hy
      rw [hother y (by omega)]
      exact hfree y (by omega)
    · exact Nat.lt_add_of_pos_right two_pos
    · rw [hother _ hx.ne']
      exact hfree _ le_rfl

/-- Behind an item it is taken for `true`. -/
theorem tTidy_conj_var {n : ℕ} {b : Bindings α} {x : ℕ} (hunbound : b.bind x = none) {g : Goal α}
    (hg : isItem g = true) : tTidy (n + 1) b (.conj g (.var x)) = tTidy n (b.set x .true) g := by
  have hderef : b.deref (.var x) = .var x := by rw [Bindings.deref, hunbound, Option.getD_none]
  cases g with
  | conj _ _ | var _ | true => exact absurd hg Bool.false_ne_true
  | _ =>
    simp only [tTidy, deref_conj, hderef]
    rfl

/-- A variable in braces in front of other parts of a rule, and one behind a part that consumes: the
translation does not end, or leaves the goal out and binds the variable to `true`. -/
theorem translateRule_variable {τ : Type*} {b : Bindings (Step τ)} (hb : ∀ y, b.bind y = none) {x : ℕ}
    (hx : x < b.next) (lp : τ) (n : ℕ) :
    (∀ r, translateRule n b lp (.conj (.braces (.var x)) r) = none) ∧
      ∀ t g pos, tBody t none false 0 2 ⟨3, id⟩ = some (g, some .filledIn, pos) → isItem g = true →
        translateRule (n + 1) b lp (.conj t (.braces (.var x))) =
          (tTidy n (b.set x .true) g).map fun q => (.nonterminal lp 0 1, q.1, pos.unify 2 1, q.2) := by
  constructor
  · intro r
    rw [translateRule, tBody_head, Option.bind_some]
    change (tTidy n b (.conj (.var x) _)).map _ = none
    rw [tTidy_var_conj (fun y _ => hb y) hx (hb x)]
    rfl
  · intro t g pos ht hg
    have hbody : tBody (.conj t (.braces (.var x))) none true 0 1 ⟨2, id⟩ =
        some (.conj g (.var x), some .filledIn, pos.unify 2 1) := by
      rw [tBody]
      change (tBody t none false 0 2 ⟨3, id⟩).bind _ = _
      rw [ht]
      rfl
    rw [translateRule, hbody, Option.bind_some, tTidy_conj_var (hb x) hg]

theorem translateRule_variable_call :
    (∀ r, translateRule 5 ⟨fun _ => none, 1⟩ "s" (.conj (.braces (.var 0)) r) = none) ∧
      ∀ t g pos, tBody t none false 0 2 ⟨3, id⟩ = some (g, some .filledIn, pos) → isItem g = true →
        translateRule 6 ⟨fun _ => none, 1⟩ "s" (.conj t (.braces (.var 0))) =
          (tTidy 5 ((⟨fun _ => none, 1⟩ : Bindings (Step String)).set 0 .true) g).map fun q =>
            (.nonterminal "s" 0 1, q.1, pos.unify 2 1, q.2) :=
  translateRule_variable (fun _ => rfl) Nat.zero_lt_one "s" 5

end Grammar

end Yap
