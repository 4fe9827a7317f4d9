-- SUMMARY: Goals with cuts over any atoms and any states: runs by continuations, their laws, and simulations of one goal by another.
import Mathlib

/-!
# Goals with cuts

A run of a goal has continuations for a success, for a failure and for a failure
after a cut. The results are of any type, so two goals with the same runs have the
same answers in the same order, and the same side effects.
-/

/-- Goals over atoms; a variable as a goal is called. -/
inductive Goal (α : Type*) where
  | var (x : ℕ)
  | true
  | fail
  | cut
  | conj (g h : Goal α)
  | disj (g h : Goal α)
  | arrow (g h : Goal α)
  | atom (a : α)
deriving DecidableEq

/-- What atoms and variables do: a state, what to do with an answer, and what to do without one. -/
structure Runner (α S R : Type*) where
  call : ℕ → S → (S → R → R) → R → R
  exec : α → S → (S → R → R) → R → R

namespace Goal

variable {α β S T R : Type*}

def map (f : α → β) : Goal α → Goal β
  | var x => var x
  | true => true
  | fail => fail
  | cut => cut
  | conj g h => conj (g.map f) (h.map f)
  | disj g h => disj (g.map f) (h.map f)
  | arrow g h => arrow (g.map f) (h.map f)
  | atom a => atom (f a)

/-- A goal that a disjunction takes for a condition and a branch. -/
def isArrow : Goal α → Bool
  | arrow _ _ => Bool.true
  | _ => Bool.false

/-- The run from a state, with continuations for answers, for failure and for failure after a cut. -/
def run (M : Runner α S R) : Goal α → S → (S → R → R) → R → R → R
  | var x, s, sk, fk, _ => M.call x s sk fk
  | true, s, sk, fk, _ => sk s fk
  | fail, _, _, fk, _ => fk
  | cut, s, sk, _, ck => sk s ck
  | conj g h, s, sk, fk, ck => g.run M s (fun s' f => h.run M s' sk f ck) fk ck
  | disj (arrow c t) e, s, sk, fk, ck =>
    c.run M s (fun s' _ => t.run M s' sk fk ck) (e.run M s sk fk ck) (e.run M s sk fk ck)
  | disj g h, s, sk, fk, ck => g.run M s sk (h.run M s sk fk ck) ck
  | arrow c t, s, sk, fk, ck => c.run M s (fun s' _ => t.run M s' sk fk ck) fk fk
  | atom a, s, sk, fk, _ => M.exec a s sk fk

/-- The cases of a run: a disjunction with a condition is one of its own. -/
@[elab_as_elim]
theorem run_induction {P : Goal α → Prop} (var : ∀ x, P (var x)) (true : P true) (fail : P fail) (cut : P cut)
    (conj : ∀ g h, P g → P h → P (conj g h)) (ite : ∀ c t e, P c → P t → P e → P (disj (arrow c t) e))
    (disj : ∀ g h, g.isArrow = Bool.false → P g → P h → P (disj g h))
    (arrow : ∀ g h, P g → P h → P (arrow g h)) (atom : ∀ a, P (atom a)) (g : Goal α) : P g := by
  have hboth : P g ∧ ∀ c t, g = Goal.arrow c t → P c ∧ P t := by
    induction g with
    | var x => exact ⟨var x, by rintro _ _ ⟨⟩⟩
    | true => exact ⟨true, by rintro _ _ ⟨⟩⟩
    | fail => exact ⟨fail, by rintro _ _ ⟨⟩⟩
    | cut => exact ⟨cut, by rintro _ _ ⟨⟩⟩
    | conj g h ihg ihh => exact ⟨conj g h ihg.1 ihh.1, by rintro _ _ ⟨⟩⟩
    | disj g h ihg ihh =>
      refine ⟨?_, by rintro _ _ ⟨⟩⟩
      cases harrow : g.isArrow with
      | false => exact disj g h harrow ihg.1 ihh.1
      | true =>
        cases g with
        | arrow c t => exact ite c t h (ihg.2 c t rfl).1 (ihg.2 c t rfl).2 ihh.1
        | _ => cases harrow
    | arrow g h ihg ihh =>
      refine ⟨arrow g h ihg.1 ihh.1, fun c t heq => ?_⟩
      cases heq
      exact ⟨ihg.1, ihh.1⟩
    | atom a => exact ⟨atom a, by rintro _ _ ⟨⟩⟩
  exact hboth.1

variable {M : Runner α S R} {N : Runner β T R} {g h g' h' k : Goal α}

-- ---------------------------------------------------------------------------
-- Runs
-- ---------------------------------------------------------------------------

@[simp] theorem run_true : (true : Goal α).run M = fun s sk fk _ => sk s fk := rfl

@[simp] theorem run_cut : (cut : Goal α).run M = fun s sk _ ck => sk s ck := rfl

@[simp] theorem run_conj :
    (conj g h).run M = fun s sk fk ck => g.run M s (fun s' f => h.run M s' sk f ck) fk ck := rfl

@[simp] theorem run_arrow :
    (arrow g h).run M = fun s sk fk ck => g.run M s (fun s' _ => h.run M s' sk fk ck) fk fk := rfl

@[simp] theorem run_ite : (disj (arrow g h) k).run M = fun s sk fk ck =>
    g.run M s (fun s' _ => h.run M s' sk fk ck) (k.run M s sk fk ck) (k.run M s sk fk ck) := rfl

theorem run_disj (hg : g.isArrow = Bool.false) :
    (disj g h).run M = fun s sk fk ck => g.run M s sk (h.run M s sk fk ck) ck := by
  cases g with
  | arrow c t => cases hg
  | _ => rfl

-- ---------------------------------------------------------------------------
-- Laws
-- ---------------------------------------------------------------------------

theorem run_conj_congr (hg : g.run M = g'.run M) (hh : h.run M = h'.run M) :
    (conj g h).run M = (conj g' h').run M := by
  rw [run_conj, run_conj, hg, hh]

theorem run_conj_assoc : (conj (conj g h) k).run M = (conj g (conj h k)).run M := by
  simp only [run_conj]

theorem run_true_conj : (conj true g).run M = g.run M := by
  simp only [run_conj, run_true]

theorem run_conj_true : (conj g true).run M = g.run M := by
  simp only [run_conj, run_true]

theorem run_arrow_congr (hg : g.run M = g'.run M) (hh : h.run M = h'.run M) :
    (arrow g h).run M = (arrow g' h').run M := by
  rw [run_arrow, run_arrow, hg, hh]

theorem run_ite_congr (hg : g.run M = g'.run M) (hh : h.run M = h'.run M) {k' : Goal α}
    (hk : k.run M = k'.run M) : (disj (arrow g h) k).run M = (disj (arrow g' h') k').run M := by
  rw [run_ite, run_ite, hg, hh, hk]

theorem run_disj_congr (hg : g.run M = g'.run M) (hh : h.run M = h'.run M) (harrow : g.isArrow = Bool.false)
    (harrow' : g'.isArrow = Bool.false) : (disj g h).run M = (disj g' h').run M := by
  rw [run_disj harrow, run_disj harrow', hg, hh]

-- ---------------------------------------------------------------------------
-- Simulations
-- ---------------------------------------------------------------------------

/-- Goals of one structure, with related atoms. -/
inductive Rel (ra : α → β → Prop) : Goal α → Goal β → Prop
  | var (x : ℕ) : Rel ra (var x) (var x)
  | true : Rel ra true true
  | fail : Rel ra fail fail
  | cut : Rel ra cut cut
  | conj {g h : Goal α} {g' h' : Goal β} : Rel ra g g' → Rel ra h h' → Rel ra (conj g h) (conj g' h')
  | disj {g h : Goal α} {g' h' : Goal β} : Rel ra g g' → Rel ra h h' → Rel ra (disj g h) (disj g' h')
  | arrow {g h : Goal α} {g' h' : Goal β} : Rel ra g g' → Rel ra h h' → Rel ra (arrow g h) (arrow g' h')
  | atom {a : α} {b : β} : ra a b → Rel ra (atom a) (atom b)

theorem Rel.isArrow_eq {ra : α → β → Prop} {g : Goal α} {g' : Goal β} (h : Rel ra g g') : g.isArrow = g'.isArrow := by
  cases h <;> rfl

theorem rel_map (f : α → β) (g : Goal α) : Rel (fun a b => b = f a) g (g.map f) := by
  induction g with
  | var x => exact .var x
  | true => exact .true
  | fail => exact .fail
  | cut => exact .cut
  | conj g h ihg ihh => exact .conj ihg ihh
  | disj g h ihg ihh => exact .disj ihg ihh
  | arrow g h ihg ihh => exact .arrow ihg ihh
  | atom a => exact .atom rfl

theorem rel_of_map_eq {γ : Type*} {f : α → γ} {f' : β → γ} {g : Goal α} {g' : Goal β} (h : g.map f = g'.map f') :
    Rel (fun a b => f a = f' b) g g' := by
  induction g generalizing g' with
  | var x =>
    cases g' <;> cases h
    exact .var x
  | true =>
    cases g' <;> cases h
    exact .true
  | fail =>
    cases g' <;> cases h
    exact .fail
  | cut =>
    cases g' <;> cases h
    exact .cut
  | conj g k ihg ihk =>
    cases g' with
    | conj g' k' => exact .conj (ihg (Goal.conj.inj h).1) (ihk (Goal.conj.inj h).2)
    | _ => cases h
  | disj g k ihg ihk =>
    cases g' with
    | disj g' k' => exact .disj (ihg (Goal.disj.inj h).1) (ihk (Goal.disj.inj h).2)
    | _ => cases h
  | arrow g k ihg ihk =>
    cases g' with
    | arrow g' k' => exact .arrow (ihg (Goal.arrow.inj h).1) (ihk (Goal.arrow.inj h).2)
    | _ => cases h
  | atom a =>
    cases g' with
    | atom b => exact .atom (Goal.atom.inj h)
    | _ => cases h

/-- Continuations that agree on related states. -/
def Agree (rs : S → T → Prop) (sk : S → R → R) (sk' : T → R → R) : Prop := ∀ s t r, rs s t → sk s r = sk' t r

/-- Related atoms do the same in related states. -/
structure Simulates (M : Runner α S R) (N : Runner β T R) (ra : α → β → Prop) (rs : S → T → Prop) : Prop where
  call : ∀ ⦃x s t sk sk'⦄ fk, rs s t → Agree rs sk sk' → M.call x s sk fk = N.call x t sk' fk
  exec : ∀ ⦃a b s t sk sk'⦄ fk, ra a b → rs s t → Agree rs sk sk' → M.exec a s sk fk = N.exec b t sk' fk

/-- Then related goals do. -/
theorem Simulates.run {ra : α → β → Prop} {rs : S → T → Prop} (hsim : Simulates M N ra rs) {g : Goal α}
    {g' : Goal β} (hg : Rel ra g g') {s : S} {t : T} {sk : S → R → R} {sk' : T → R → R} (hs : rs s t)
    (hk : Agree rs sk sk') (fk ck : R) : g.run M s sk fk ck = g'.run N t sk' fk ck := by
  induction g using run_induction generalizing g' s t sk sk' fk ck with
  | var x =>
    cases hg
    exact hsim.call fk hs hk
  | true =>
    cases hg
    exact hk s t fk hs
  | fail =>
    cases hg
    rfl
  | cut =>
    cases hg
    exact hk s t ck hs
  | conj g h ihg ihh =>
    cases hg with
    | conj hg hh => exact ihg hg hs (fun s t r hs => ihh hh hs hk r ck) fk ck
  | ite c a e ihc iha ihe =>
    cases hg with
    | disj hca he =>
      cases hca with
      | arrow hc ha =>
        rw [run_ite, run_ite]
        dsimp only
        rw [ihe he hs hk fk ck]
        exact ihc hc hs (fun s t _ hs => iha ha hs hk fk ck) _ _
  | disj g h harrow ihg ihh =>
    cases hg with
    | disj hg hh =>
      rw [run_disj harrow, run_disj (hg.isArrow_eq ▸ harrow)]
      dsimp only
      rw [ihh hh hs hk fk ck]
      exact ihg hg hs hk _ ck
  | arrow g h ihg ihh =>
    cases hg with
    | arrow hg hh => exact ihg hg hs (fun s t _ hs => ihh hh hs hk fk ck) fk fk
  | atom a =>
    cases hg with
    | atom hab => exact hsim.exec fk hab hs hk

-- ---------------------------------------------------------------------------
-- Goals over a part of the state
-- ---------------------------------------------------------------------------

/-- Atoms that act on a part of the state. -/
structure Part (M : Runner α S R) (N : Runner β T R) (f : α → β) (get : T → S) (put : T → S → T) : Prop where
  get_put : ∀ t s, get (put t s) = s
  put_put : ∀ t s s', put (put t s) s' = put t s'
  put_get : ∀ t, put t (get t) = t
  call : ∀ x t sk fk, N.call x t sk fk = M.call x (get t) (fun s r => sk (put t s) r) fk
  exec : ∀ a t sk fk, N.exec (f a) t sk fk = M.exec a (get t) (fun s r => sk (put t s) r) fk

/-- They make goals that act on it. -/
theorem Part.run_map {f : α → β} {get : T → S} {put : T → S → T} (h : Part M N f get put) (g : Goal α) (t : T)
    (sk : T → R → R) (fk ck : R) :
    (g.map f).run N t sk fk ck = g.run M (get t) (fun s r => sk (put t s) r) fk ck := by
  have hsim : Simulates M N (fun a b => b = f a) fun s t' => t' = put t s := by
    constructor
    · rintro x s _ sk sk' fk rfl hk
      rw [h.call, h.get_put]
      refine congrArg₂ (M.call x s) (funext fun s' => funext fun r => ?_) rfl
      rw [h.put_put]
      exact hk s' _ r rfl
    · rintro a _ s _ sk sk' fk rfl rfl hk
      rw [h.exec, h.get_put]
      refine congrArg₂ (M.exec a s) (funext fun s' => funext fun r => ?_) rfl
      rw [h.put_put]
      exact hk s' _ r rfl
  refine (hsim.run (rel_map f g) (h.put_get t).symm (fun s t' r ht => ?_) fk ck).symm
  rw [ht]

end Goal
