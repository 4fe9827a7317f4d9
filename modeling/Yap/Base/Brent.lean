-- SUMMARY: Brent's search for cycles with a comparison of keys: it ends, and it counts the steps of a walk that comes to an end.
import Yap.Base.Machine

/-!
# Brent's algorithm

A walk goes on as long as there is a next place, and stops when it comes to a place
with the key of a place it remembers. Places with one key have one next place. The
place that is remembered is renewed after a power of two steps each time.
-/

namespace Yap

namespace Brent

open Machine Relation

variable {α κ : Type*}

structure State (α : Type*) where
  slow : α
  power : ℕ
  lam : ℕ
  length : ℕ
  fast : α

/-- Remembers the place of the walk when a power of two steps are done. -/
def State.reset (st : State α) : State α :=
  if st.power = st.lam then { st with slow := st.fast, power := st.power * 2, lam := 0 } else st

/-- One step, to the place `y`. -/
def State.advance (st : State α) (y : α) : State α where
  slow := st.reset.slow
  power := st.reset.power
  lam := st.reset.lam + 1
  length := st.reset.length + 1
  fast := y

section

variable (next : α → Option α)

/-- The result is the number of steps and the place where the walk stops. -/
def turn [DecidableEq κ] (key : α → κ) (st : State α) : Turn (State α) (ℕ × α) :=
  match next st.fast with
  | none => .exit (st.length, st.fast)
  | some y =>
    if key y ≠ key st.reset.slow ∧ (next y).isSome then .go (st.advance y) else .exit (st.reset.length + 1, y)

def start (a : α) : State α := ⟨a, 1, 0, 0, a⟩

/-- The place after some steps. -/
def walk : ℕ → α → Option α
  | 0, a => some a
  | n + 1, a => (next a).bind (walk n)

/-- The walk ends after so many steps at this place. -/
def Ends (a : α) (n : ℕ) (t : α) : Prop := walk next n a = some t ∧ next t = none

end

variable {next : α → Option α} {key : α → κ} {a b t t' : α} {n n' : ℕ} {st : State α}

theorem State.reset_length (st : State α) : st.reset.length = st.length := by
  unfold reset
  split <;> rfl

-- ---------------------------------------------------------------------------
-- Walks that end
-- ---------------------------------------------------------------------------

theorem ends_zero : Ends next a 0 t ↔ a = t ∧ next t = none := by
  rw [Ends, walk, Option.some.injEq]

theorem ends_succ : Ends next a (n + 1) t ↔ ∃ b, next a = some b ∧ Ends next b n t := by
  rw [Ends, walk, Option.bind_eq_some_iff]
  constructor
  · rintro ⟨⟨b, hb, hwalk⟩, ht⟩
    exact ⟨b, hb, hwalk, ht⟩
  · rintro ⟨b, hb, hwalk, ht⟩
    exact ⟨⟨b, hb, hwalk⟩, ht⟩

/-- Places with one next place have walks of one length. -/
theorem Ends.length_unique (h : Ends next a n t) (h' : Ends next b n' t') (hnext : next a = next b) : n = n' := by
  induction n generalizing a b n' with
  | zero =>
    obtain ⟨rfl, hnone⟩ := ends_zero.mp h
    cases n' with
    | zero => rfl
    | succ n' =>
      obtain ⟨y, hy, -⟩ := ends_succ.mp h'
      rw [← hnext, hnone] at hy
      cases hy
  | succ n ih =>
    obtain ⟨y, hy, hends⟩ := ends_succ.mp h
    cases n' with
    | zero =>
      obtain ⟨rfl, hnone⟩ := ends_zero.mp h'
      rw [hnext, hnone] at hy
      cases hy
    | succ n' =>
      obtain ⟨y', hy', hends'⟩ := ends_succ.mp h'
      obtain rfl : y = y' := Option.some.inj (hy.symm.trans (hnext.trans hy'))
      rw [ih hends hends' rfl]

theorem State.reset_of_ne (h : st.power ≠ st.lam) : st.reset = st := if_neg h

theorem State.reset_of_eq (h : st.power = st.lam) :
    st.reset = { st with slow := st.fast, power := st.power * 2, lam := 0 } := if_pos h

theorem State.advance_length (st : State α) (y : α) : (st.advance y).length = st.length + 1 :=
  congrArg (· + 1) st.reset_length

variable [DecidableEq κ]

theorem turn_of_none (h : next st.fast = none) : turn next key st = .exit (st.length, st.fast) := by
  rw [turn, h]

variable (key) in
/-- A step stops the walk, or its place has another key than the one remembered. -/
theorem turn_of_some {y : α} (h : next st.fast = some y) :
    turn next key st = .exit (st.length + 1, y) ∧ (key y = key st.reset.slow ∨ next y = none) ∨
    key y ≠ key st.reset.slow ∧ turn next key st = .go (st.advance y) := by
  have hturn : turn next key st = if key y ≠ key st.reset.slow ∧ (next y).isSome then .go (st.advance y)
      else .exit (st.reset.length + 1, y) := by
    rw [turn, h]
  rw [hturn]
  split
  case isTrue hgo => exact .inr ⟨hgo.1, rfl⟩
  case isFalse hstop =>
    refine .inl ⟨by rw [State.reset_length], ?_⟩
    rw [not_and_or, not_not, Bool.not_eq_true, Option.isSome_eq_false_iff, Option.isNone_iff_eq_none] at hstop
    exact hstop

/-- The steps of a walk that ends are counted: no place on it has the key of an
    earlier one, for the walk from there would be as long. -/
theorem returns_of_ends (hkey : ∀ a b, key a = key b → next a = next b) (i : ℕ) (h : Ends next st.fast n t)
    (hslow : Ends next st.slow (i + n) t) : Returns (turn next key) st (st.length + n, t) := by
  induction n generalizing st i with
  | zero =>
    obtain ⟨rfl, hnone⟩ := ends_zero.mp h
    exact returns_of_exit (turn_of_none hnone)
  | succ n ih =>
    obtain ⟨y, hy, hends⟩ := ends_succ.mp h
    obtain ⟨j, hreset⟩ : ∃ j, Ends next st.reset.slow (j + (n + 1)) t := by
      unfold State.reset
      split
      · exact ⟨0, by rwa [Nat.zero_add]⟩
      · exact ⟨i, hslow⟩
    have hne : key y ≠ key st.reset.slow := by
      intro heq
      have hlen := hends.length_unique hreset (hkey _ _ heq)
      omega
    have hcount : st.length + (n + 1) = (st.advance y).length + n := by
      rw [State.advance_length]
      omega
    rcases turn_of_some key hy with ⟨hexit, heq | hnone⟩ | ⟨-, hgo⟩
    · exact absurd heq hne
    · cases n with
      | zero =>
        obtain ⟨rfl, -⟩ := ends_zero.mp hends
        exact returns_of_exit hexit
      | succ n =>
        obtain ⟨z, hz, -⟩ := ends_succ.mp hends
        rw [hnone] at hz
        cases hz
    · rw [returns_go hgo, hcount]
      have hslow' : Ends next (st.advance y).slow (j + 1 + n) t := by
        rwa [Nat.add_right_comm j 1 n]
      exact ih (j + 1) hends hslow'

/-- A step at the end of a walk. -/
theorem walk_succ_last (n : ℕ) (a : α) : walk next (n + 1) a = (walk next n a).bind next := by
  induction n generalizing a with
  | zero =>
    rw [walk, walk, Option.bind_some]
    cases next a <;> rfl
  | succ n ih =>
    rw [walk, walk, Option.bind_assoc]
    exact Option.bind_congr fun b _ => ih b

/-- The search stops at a place of the walk. -/
theorem walk_of_returns (h : Returns (turn next key) (start a) (n, t)) : ∃ k, walk next k a = some t := by
  obtain ⟨st, hreach, hexit⟩ := h.exists_exit
  have hstep : ∀ (st : State α) y, (∃ k, walk next k a = some st.fast) → next st.fast = some y →
      ∃ k, walk next k a = some y := by
    rintro st y ⟨k, hk⟩ hy
    exact ⟨k + 1, by rw [walk_succ_last, hk, Option.bind_some, hy]⟩
  have hwalk : ∃ k, walk next k a = some st.fast := by
    refine invariant (P := fun st => ∃ k, walk next k a = some st.fast) (fun st st' hst hgo => ?_) hreach ⟨0, rfl⟩
    cases hy : next st.fast with
    | none =>
      rw [turn_of_none hy] at hgo
      cases hgo
    | some y =>
      rcases turn_of_some key hy with ⟨hexit', -⟩ | ⟨-, hgo'⟩
      · rw [hexit'] at hgo
        cases hgo
      · obtain rfl := Turn.go.inj (hgo'.symm.trans hgo)
        exact hstep st y hst hy
  cases hy : next st.fast with
  | none =>
    rw [turn_of_none hy] at hexit
    obtain ⟨-, rfl⟩ := Prod.mk.inj (Turn.exit.inj hexit)
    exact hwalk
  | some y =>
    rcases turn_of_some key hy with ⟨hexit', -⟩ | ⟨-, hgo'⟩
    · obtain ⟨-, rfl⟩ := Prod.mk.inj (Turn.exit.inj (hexit'.symm.trans hexit))
      exact hstep st y hwalk hy
    · rw [hgo'] at hexit
      cases hexit

-- ---------------------------------------------------------------------------
-- Walks that do not end
-- ---------------------------------------------------------------------------

section

variable {l : ℕ → α}

/-- A walk in a finite set comes back to where it was. -/
theorem exists_period {S : Finset α} (hl : ∀ n, next (l n) = some (l (n + 1))) (hS : ∀ n, l n ∈ S) :
    ∃ i d, 0 < d ∧ ∀ T ≥ i, l (T + d) = l T := by
  obtain ⟨i, j, hne, heq⟩ := Finite.exists_ne_map_eq_of_infinite fun n => (⟨l n, hS n⟩ : S)
  have hagain : ∀ i j, l i = l j → ∀ k, l (i + k) = l (j + k) := by
    intro i j heq k
    induction k with
    | zero => exact heq
    | succ k ih =>
      have hnext := hl (i + k)
      rw [ih, hl (j + k)] at hnext
      exact (Option.some.inj hnext).symm
  have hperiod : ∀ i j, i < j → l i = l j → ∃ i d, 0 < d ∧ ∀ T ≥ i, l (T + d) = l T := by
    intro i j hij heq
    refine ⟨i, j - i, by omega, fun T hT => ?_⟩
    have hT' := hagain i j heq (T - i)
    have hsum : T + (j - i) = j + (T - i) := by omega
    rw [Nat.add_sub_cancel' hT] at hT'
    rw [hT', hsum]
  have heq' : l i = l j := congrArg Subtype.val heq
  rcases lt_or_gt_of_ne hne with hij | hji
  · exact hperiod i j hij heq'
  · exact hperiod j i hji heq'.symm

variable (key) (hl : ∀ n, next (l n) = some (l (n + 1)))
include hl

/-- The walk stops, or does all steps until the next place is remembered. -/
theorem phase (m : ℕ) {T : ℕ} (hfast : st.fast = l T) (hlam : st.lam + m = st.power) :
    (∃ w, Returns (turn next key) st w) ∨ ∃ st', ReflTransGen (Goes (turn next key)) st st' ∧
      st'.fast = l (T + m) ∧ st'.lam = st'.power ∧ st'.power = st.power := by
  induction m generalizing st T with
  | zero => exact .inr ⟨st, .refl, hfast, hlam, rfl⟩
  | succ m ih =>
    have hreset : st.reset = st := State.reset_of_ne (by omega)
    rcases turn_of_some key (hfast ▸ hl T) with ⟨hexit, -⟩ | ⟨-, hgo⟩
    · exact .inl ⟨_, returns_of_exit hexit⟩
    · have hlam' : (st.advance (l (T + 1))).lam + m = (st.advance (l (T + 1))).power := by
        show st.reset.lam + 1 + m = st.reset.power
        rw [hreset]
        omega
      have hfast' : (st.advance (l (T + 1))).fast = l (T + 1) := rfl
      rcases ih hfast' hlam' with ⟨w, hw⟩ | ⟨st', hreach, hend, hfull, hpower⟩
      · exact .inl ⟨w, (returns_go hgo).mpr hw⟩
      · have hsame : (st.advance (l (T + 1))).power = st.power := by
          show st.reset.power = st.power
          rw [hreset]
        refine .inr ⟨st', .head hgo hreach, ?_, hfull, hpower.trans hsame⟩
        rw [hend, Nat.add_right_comm, Nat.add_assoc]

/-- The place that is remembered is renewed again and again. -/
theorem renewed (M : ℕ) :
    (∃ w, Returns (turn next key) (start (l 0)) w) ∨ ∃ T st, ReflTransGen (Goes (turn next key)) (start (l 0)) st ∧
      st.fast = l T ∧ st.lam = st.power ∧ M ≤ T ∧ M < st.power := by
  induction M with
  | zero =>
    have hfast : (start (l 0)).fast = l 0 := rfl
    rcases phase key hl 1 hfast rfl with hreturns | ⟨st, hreach, hend, hfull, hpower⟩
    · exact .inl hreturns
    · exact .inr ⟨_, st, hreach, hend, hfull, Nat.zero_le _, hpower ▸ Nat.one_pos⟩
  | succ M ih =>
    rcases ih with hreturns | ⟨T, st, hreach, hfast, hlam, hT, hpower⟩
    · exact .inl hreturns
    · have hreset := State.reset_of_eq hlam.symm
      rcases turn_of_some key (hfast ▸ hl T) with ⟨hexit, -⟩ | ⟨-, hgo⟩
      · exact .inl ⟨_, (returns_reaches hreach).mpr (returns_of_exit hexit)⟩
      · have hreach' := hreach.tail hgo
        have hpower' : (st.advance (l (T + 1))).power = st.power * 2 := congrArg State.power hreset
        have hlam' : (st.advance (l (T + 1))).lam + (st.power * 2 - 1) = (st.advance (l (T + 1))).power := by
          rw [hpower']
          show st.reset.lam + 1 + _ = _
          rw [hreset]
          show 0 + 1 + (st.power * 2 - 1) = st.power * 2
          omega
        have hfast' : (st.advance (l (T + 1))).fast = l (T + 1) := rfl
        rcases phase key hl _ hfast' hlam' with ⟨w, hw⟩ | ⟨st', hrest, hend, hfull, hsame⟩
        · exact .inl ⟨w, (returns_reaches hreach').mpr hw⟩
        · exact .inr ⟨_, st', hreach'.trans hrest, hend, hfull, by omega, by rw [hsame, hpower']; omega⟩

/-- A walk that remembers a place on a cycle comes back to it. -/
theorem caught {T e d m : ℕ} (hd : l (T + d) = l T) (hm : e + 1 + m = d) (hfast : st.fast = l (T + e))
    (hslow : st.reset.slow = l T) (hlam : st.reset.lam = e) (hpower : d ≤ st.reset.power) :
    ∃ w, Returns (turn next key) st w := by
  induction m generalizing st e with
  | zero =>
    rcases turn_of_some key (hfast ▸ hl (T + e)) with ⟨hexit, -⟩ | ⟨hne, -⟩
    · exact ⟨_, returns_of_exit hexit⟩
    · have hback : l (T + e + 1) = l T := by rw [Nat.add_assoc, ← hd, ← hm]
      exact absurd (congrArg key (hback.trans hslow.symm)) hne
  | succ m ih =>
    rcases turn_of_some key (hfast ▸ hl (T + e)) with ⟨hexit, -⟩ | ⟨-, hgo⟩
    · exact ⟨_, returns_of_exit hexit⟩
    · have hne : (st.advance (l (T + e + 1))).power ≠ (st.advance (l (T + e + 1))).lam := by
        show st.reset.power ≠ st.reset.lam + 1
        omega
      have hreset := State.reset_of_ne hne
      have hlam' : (st.advance (l (T + e + 1))).lam = e + 1 := congrArg (· + 1) hlam
      obtain ⟨w, hw⟩ := ih (by omega) rfl (hreset.symm ▸ hslow) (hreset.symm ▸ hlam') (hreset.symm ▸ hpower)
      exact ⟨w, (returns_go hgo).mpr hw⟩

/-- A walk in a finite set that does not end is stopped. -/
theorem exists_returns_of_infinite {S : Finset α} (hS : ∀ n, l n ∈ S) :
    ∃ w, Returns (turn next key) (start (l 0)) w := by
  obtain ⟨i, d, hd, hperiod⟩ := exists_period hl hS
  rcases renewed key hl (max i d) with hreturns | ⟨T, st, hreach, hfast, hlam, hT, hpower⟩
  · exact hreturns
  · have hreset := State.reset_of_eq hlam.symm
    obtain ⟨m, hm⟩ : ∃ m, 0 + 1 + m = d := ⟨d - 1, by omega⟩
    obtain ⟨w, hw⟩ := caught key hl (hperiod T (le_of_max_le_left hT)) hm hfast
      (by rw [hreset]; exact hfast) (by rw [hreset]) (by rw [hreset]; show d ≤ st.power * 2; omega)
    exact ⟨w, (returns_reaches hreach).mpr hw⟩

end

/-- The search ends from every place of a finite set that the walk does not leave. -/
theorem exists_returns (hkey : ∀ a b, key a = key b → next a = next b) {S : Finset α}
    (hS : ∀ x ∈ S, ∀ y, next x = some y → y ∈ S) (ha : a ∈ S) : ∃ w, Returns (turn next key) (start a) w := by
  by_cases hend : ∃ n t, Ends next a n t
  · obtain ⟨n, t, hends⟩ := hend
    have hslow : Ends next a (0 + n) t := by rwa [Nat.zero_add]
    exact ⟨_, returns_of_ends hkey 0 hends hslow⟩
  · have hgoes : ∀ x, (∀ n t, ¬ Ends next x n t) → ∃ y, next x = some y ∧ ∀ n t, ¬ Ends next y n t := by
      intro x hx
      cases hy : next x with
      | none => exact absurd (ends_zero.mpr ⟨rfl, hy⟩) (hx 0 x)
      | some y => exact ⟨y, rfl, fun n t hends => hx (n + 1) t (ends_succ.mpr ⟨y, hy, hends⟩)⟩
    have hend' : ∀ n t, ¬ Ends next a n t := fun n t hends => hend ⟨n, t, hends⟩
    choose! f hf using hgoes
    have hl : ∀ n, (∀ k t, ¬ Ends next (f^[n] a) k t) ∧ f^[n] a ∈ S := by
      intro n
      induction n with
      | zero => exact ⟨hend', ha⟩
      | succ n ih =>
        obtain ⟨hnext, hnever⟩ := hf _ ih.1
        rw [Function.iterate_succ_apply']
        exact ⟨hnever, hS _ ih.2 _ hnext⟩
    refine exists_returns_of_infinite (l := fun n => f^[n] a) key (fun n => ?_) fun n => (hl n).2
    rw [Function.iterate_succ_apply']
    exact (hf _ (hl n).1).1

end Brent

end Yap
