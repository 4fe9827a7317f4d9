-- SUMMARY: The positions of translated grammar bodies: which are unified, and the same goals with one position for those that are.
import Yap.Grammar.Code

/-!
# Threads of positions

A cut, an empty list and a goal in braces consume nothing, and their positions are
unified by the translation where another item closes the chain. A body with all its
items such is transparent. What comes between two parts of a body is the position
before it if the first part is transparent, the one after it if the second is, and
else a position of its own.
-/

namespace Yap

namespace Grammar

variable {τ : Type*}

-- ---------------------------------------------------------------------------
-- What a translation does
-- ---------------------------------------------------------------------------

/-- `ToFill` after the translation of a body. -/
def fillAfter : Body τ → ToFill → Bool → ToFill
  | .cut, toFill, last | .nil, toFill, last | .braces _, toFill, last =>
    if closes toFill last then some .toFill else toFill
  | .conj t r, toFill, last | .arrow t r, toFill, last => fillAfter r (fillAfter t toFill false) last
  | .neg t, toFill, _ => fillAfter t toFill false
  | .disj _ _, toFill, _ => toFill
  | .cons _ .nil, _, _ => some .filledIn
  | .cons _ r, _, last => fillAfter r (some .filledIn) last
  | .var _, _, _ | .nonterminal _, _, _ => some .filledIn

/-- The positions before and after the body are unified. -/
def transparent : Body τ → ToFill → Bool → Bool
  | .cut, toFill, last | .nil, toFill, last | .braces _, toFill, last => !closes toFill last
  | .conj t r, toFill, last | .arrow t r, toFill, last =>
    transparent t toFill false && transparent r (fillAfter t toFill false) last
  | _, _, _ => false

/-- The number of new positions. -/
def positions : Body τ → ℕ
  | .conj t r | .arrow t r => positions t + positions r + 1
  | .neg t => positions t + 1
  | .disj t r => positions t + positions r
  | .cons _ .nil => 0
  | .cons _ r => positions r + 1
  | _ => 0

/-- The goal for a body, with the positions from `n` on. -/
def raw : Body τ → ToFill → Bool → ℕ → ℕ → ℕ → Goal (Step τ)
  | .var x, _, _, s, s1, _ => .atom (.phrase x s s1)
  | .cut, toFill, last, s, s1, _ => if closes toFill last then .conj .cut (.atom (.unify s1 s)) else .cut
  | .nil, toFill, last, s, s1, _ => if closes toFill last then .atom (.unify s1 s) else .true
  | .braces t, toFill, last, s, s1, _ =>
    if closes toFill last then .conj (t.map .call) (.atom (.unify s1 s)) else t.map .call
  | .cons x .nil, _, _, s, sr, _ => .atom (.terminal s x sr)
  | .cons x r, _, last, s, sr, n => .conj (.atom (.terminal s x n)) (raw r (some .filledIn) last n sr (n + 1))
  | .conj t r, toFill, last, s, sr, n =>
    .conj (raw t toFill false s n (n + 1)) (raw r (fillAfter t toFill false) last n sr (n + 1 + positions t))
  | .arrow t r, toFill, last, s, sr, n =>
    .arrow (raw t toFill false s n (n + 1)) (raw r (fillAfter t toFill false) last n sr (n + 1 + positions t))
  | .neg t, toFill, _, s, sr, n => .disj (.arrow (raw t toFill false s n (n + 1)) .fail) (.atom (.unify s sr))
  | .disj t r, _, _, s, sr, n => .disj (raw t none true s sr n) (raw r none true s sr (n + positions t))
  | .nonterminal t, _, _, s, sr, _ => .atom (.nonterminal t s sr)

/-- The positions that are unified. -/
def pairs : Body τ → ToFill → Bool → ℕ → ℕ → ℕ → List (ℕ × ℕ)
  | .cut, toFill, last, s, s1, _ | .nil, toFill, last, s, s1, _ | .braces _, toFill, last, s, s1, _ =>
    if closes toFill last then [] else [(s, s1)]
  | .conj t r, toFill, last, s, sr, n | .arrow t r, toFill, last, s, sr, n =>
    pairs t toFill false s n (n + 1) ++ pairs r (fillAfter t toFill false) last n sr (n + 1 + positions t)
  | .neg t, toFill, _, s, _, n => pairs t toFill false s n (n + 1)
  | .disj t r, _, _, s, sr, n => pairs t none true s sr n ++ pairs r none true s sr (n + positions t)
  | .cons _ .nil, _, _, _, _, _ => []
  | .cons _ r, _, last, _, sr, n => pairs r (some .filledIn) last n sr (n + 1)
  | .var _, _, _, _, _, _ | .nonterminal _, _, _, _, _, _ => []

section Cons

variable {x : τ} {r : Body τ} (hr : r ≠ .nil) (toFill : ToFill) (last : Bool) (s sr n : ℕ)

include hr

theorem tBody_cons (p : Positions) : tBody (.cons x r) toFill last s sr p = toFill.fillIn.bind fun toFill =>
    (tBody r toFill last p.next sr p.fresh).map fun rb => (.conj (.atom (.terminal s x p.next)) rb.1, rb.2) := by
  cases r with
  | nil => exact absurd rfl hr
  | _ => rfl

theorem fillAfter_cons : fillAfter (.cons x r) toFill last = fillAfter r (some .filledIn) last := by
  cases r with
  | nil => exact absurd rfl hr
  | _ => rfl

theorem positions_cons : positions (.cons x r) = positions r + 1 := by
  cases r with
  | nil => exact absurd rfl hr
  | _ => rfl

theorem raw_cons : raw (.cons x r) toFill last s sr n =
    .conj (.atom (.terminal s x n)) (raw r (some .filledIn) last n sr (n + 1)) := by
  cases r with
  | nil => exact absurd rfl hr
  | _ => rfl

theorem pairs_cons : pairs (.cons x r) toFill last s sr n = pairs r (some .filledIn) last n sr (n + 1) := by
  cases r with
  | nil => exact absurd rfl hr
  | _ => rfl

end Cons

theorem ToFill.fillIn_eq {toFill : ToFill} (h : toFill ≠ some .toFill) : toFill.fillIn = some (some .filledIn) := by
  rcases toFill with _ | _ | _
  · rfl
  · exact absurd rfl h
  · rfl

theorem fillAfter_ne {toFill : ToFill} (h : toFill ≠ some .toFill) (b : Body τ) :
    fillAfter b toFill false ≠ some .toFill := by
  have hfilled : (some .filledIn : ToFill) ≠ some .toFill := by decide
  induction b generalizing toFill with
  | cut | nil | braces _ => exact h
  | var _ | nonterminal _ => exact hfilled
  | cons x r ih =>
    by_cases hr : r = .nil
    · subst hr
      exact hfilled
    · rw [fillAfter_cons hr]
      exact ih hfilled
  | conj t r iht ihr | arrow t r iht ihr => exact ihr (iht h)
  | neg t ih => exact ih h
  | disj t r _ _ => exact h

/-- Where `ToFill` is not `to_fill` before, the translation is made. -/
theorem tBody_eq {toFill : ToFill} (h : toFill ≠ some .toFill) (b : Body τ) (last : Bool) (s sr : ℕ) (p : Positions) :
    tBody b toFill last s sr p = some (raw b toFill last s sr p.next, fillAfter b toFill last,
      ⟨p.next + positions b, p.aliases.unifyAll (pairs b toFill last s sr p.next)⟩) := by
  induction b generalizing toFill last s sr p with
  | cut | nil | braces _ =>
    rw [tBody, raw, fillAfter, pairs]
    split_ifs <;> rfl
  | var _ | nonterminal _ =>
    rw [tBody, ToFill.fillIn_eq h]
    rfl
  | cons x r ih =>
    by_cases hr : r = .nil
    · subst hr
      rw [tBody, ToFill.fillIn_eq h]
      rfl
    · rw [tBody_cons hr, ToFill.fillIn_eq h, Option.bind_some, ih (by decide), raw_cons hr, fillAfter_cons hr,
        pairs_cons hr, positions_cons hr, Nat.add_comm (positions r) 1, ← Nat.add_assoc]
      rfl
  | conj t r iht ihr | arrow t r iht ihr =>
    rw [tBody, iht h, Option.bind_some]
    dsimp only
    rw [ihr (fillAfter_ne h t)]
    simp only [Positions.fresh, Option.map_some, raw, fillAfter, pairs, positions, Aliases.unifyAll_append]
    rw [show p.next + (positions t + positions r + 1) = p.next + 1 + positions t + positions r by omega]
  | neg t ih =>
    rw [tBody, ih h]
    simp only [Positions.fresh, Option.map_some, raw, fillAfter, pairs, positions, Nat.add_assoc,
      Nat.add_comm 1 (positions t)]
  | disj t r iht ihr =>
    rw [tBody, iht (by decide), Option.bind_some, ihr (by decide)]
    simp only [Option.map_some, raw, fillAfter, pairs, positions, Aliases.unifyAll_append, Nat.add_assoc]

-- ---------------------------------------------------------------------------
-- Threads
-- ---------------------------------------------------------------------------

/-- The position between two parts of a body. -/
def middle (first second : Bool) (s sr n : ℕ) : ℕ := if first then s else if second then sr else n

/-- The goal for a body where positions that are unified are one. -/
def thread : Body τ → ToFill → Bool → ℕ → ℕ → ℕ → Goal (Step τ)
  | .var x, _, _, s, s1, _ => .atom (.phrase x s s1)
  | .cut, toFill, last, s, s1, _ => if closes toFill last then .conj .cut (.atom (.unify s1 s)) else .cut
  | .nil, toFill, last, s, s1, _ => if closes toFill last then .atom (.unify s1 s) else .true
  | .braces t, toFill, last, s, s1, _ =>
    if closes toFill last then .conj (t.map .call) (.atom (.unify s1 s)) else t.map .call
  | .cons x .nil, _, _, s, sr, _ => .atom (.terminal s x sr)
  | .cons x r, _, last, s, sr, n =>
    let m := middle false (transparent r (some .filledIn) last) s sr n
    .conj (.atom (.terminal s x m)) (thread r (some .filledIn) last m sr (n + 1))
  | .conj t r, toFill, last, s, sr, n =>
    let m := middle (transparent t toFill false) (transparent r (fillAfter t toFill false) last) s sr n
    .conj (thread t toFill false s m (n + 1)) (thread r (fillAfter t toFill false) last m sr (n + 1 + positions t))
  | .arrow t r, toFill, last, s, sr, n =>
    let m := middle (transparent t toFill false) (transparent r (fillAfter t toFill false) last) s sr n
    .arrow (thread t toFill false s m (n + 1)) (thread r (fillAfter t toFill false) last m sr (n + 1 + positions t))
  | .neg t, toFill, _, s, sr, n =>
    .disj (.arrow (thread t toFill false s (middle (transparent t toFill false) false s n n) (n + 1)) .fail)
      (.atom (.unify s sr))
  | .disj t r, _, _, s, sr, n => .disj (thread t none true s sr n) (thread r none true s sr (n + positions t))
  | .nonterminal t, _, _, s, sr, _ => .atom (.nonterminal t s sr)

/-- The position of a thread for each new one. -/
def colour : Body τ → ToFill → Bool → ℕ → ℕ → ℕ → ℕ → ℕ
  | .conj t r, toFill, last, s, sr, n, v | .arrow t r, toFill, last, s, sr, n, v =>
    let m := middle (transparent t toFill false) (transparent r (fillAfter t toFill false) last) s sr n
    if v = n then m
    else if v < n + 1 + positions t then colour t toFill false s m (n + 1) v
    else colour r (fillAfter t toFill false) last m sr (n + 1 + positions t) v
  | .cons _ .nil, _, _, _, _, _, v => v
  | .cons _ r, _, last, s, sr, n, v =>
    let m := middle false (transparent r (some .filledIn) last) s sr n
    if v = n then m else colour r (some .filledIn) last m sr (n + 1) v
  | .neg t, toFill, _, s, _, n, v =>
    let m := middle (transparent t toFill false) false s n n
    if v = n then m else colour t toFill false s m (n + 1) v
  | .disj t r, _, _, s, sr, n, v =>
    if v < n + positions t then colour t none true s sr n v else colour r none true s sr (n + positions t) v
  | _, _, _, _, _, _, v => v

def Step.rename (a : ℕ → ℕ) : Step τ → Step τ
  | .call g => .call g
  | .phrase x s sr => .phrase x (a s) (a sr)
  | .terminal s x sr => .terminal (a s) x (a sr)
  | .nonterminal t s sr => .nonterminal t (a s) (a sr)
  | .unify s1 s => .unify (a s1) (a s)

/-- Unified positions have the same value. -/
def Respects (a : ℕ → ℕ) (l : List (ℕ × ℕ)) : Prop := ∀ e ∈ l, a e.1 = a e.2

/-- A terminal in front of a list is one of a conjunction. -/
theorem cons_eq_conj {x : τ} {r : Body τ} (hr : r ≠ .nil) (toFill : ToFill) (last : Bool) (s sr n : ℕ) :
    raw (.cons x r) toFill last s sr n = raw (.conj (.cons x .nil) r) toFill last s sr n ∧
      pairs (.cons x r) toFill last s sr n = pairs (.conj (.cons x .nil) r) toFill last s sr n ∧
      positions (.cons x r) = positions (.conj (.cons x .nil) r) ∧
      thread (.cons x r) toFill last s sr n = thread (.conj (.cons x .nil) r) toFill last s sr n ∧
      ∀ v, n ≤ v → colour (.cons x r) toFill last s sr n v = colour (.conj (.cons x .nil) r) toFill last s sr n v := by
  refine ⟨raw_cons hr .., pairs_cons hr .., ?_, ?_, ?_⟩
  · rw [positions_cons hr, positions, positions, Nat.zero_add]
  · cases r with
    | nil => exact absurd rfl hr
    | _ => rfl
  · intro v hv
    have hfirst : colour (.conj (.cons x .nil) r) toFill last s sr n v =
        if v = n then middle false (transparent r (some .filledIn) last) s sr n
        else if v < n + 1 then v
        else colour r (some .filledIn) last (middle false (transparent r (some .filledIn) last) s sr n) sr (n + 1) v :=
      rfl
    have hcons : colour (.cons x r) toFill last s sr n v =
        if v = n then middle false (transparent r (some .filledIn) last) s sr n
        else colour r (some .filledIn) last (middle false (transparent r (some .filledIn) last) s sr n) sr (n + 1) v := by
      cases r with
      | nil => exact absurd rfl hr
      | _ => rfl
    rw [hfirst, hcons]
    split_ifs with heq hlt
    · rfl
    · exact absurd (Nat.le_antisymm (Nat.lt_succ_iff.mp hlt) hv) heq
    · rfl

variable {a : ℕ → ℕ}

theorem Respects.left {l l' : List (ℕ × ℕ)} (h : Respects a (l ++ l')) : Respects a l :=
  fun e he => h e (List.mem_append_left l' he)

theorem Respects.right {l l' : List (ℕ × ℕ)} (h : Respects a (l ++ l')) : Respects a l' :=
  fun e he => h e (List.mem_append_right l he)

/-- The ends of a transparent body are unified. -/
theorem transparent_same {b : Body τ} {toFill : ToFill} {last : Bool} {s sr n : ℕ}
    (h : Respects a (pairs b toFill last s sr n)) (ht : transparent b toFill last = true) : a s = a sr := by
  induction b generalizing toFill last s sr n with
  | cut | nil | braces _ =>
    have hopen : closes toFill last = false := by simpa [transparent] using ht
    rw [pairs, hopen] at h
    exact h (s, sr) List.mem_cons_self
  | conj t r iht ihr | arrow t r iht ihr =>
    obtain ⟨htt, htr⟩ := Bool.and_eq_true_iff.mp ht
    exact (iht h.left htt).trans (ihr h.right htr)
  | var _ | cons _ _ _ | neg _ _ | disj _ _ _ _ | nonterminal _ => cases ht

/-- The middle of a body is the new position between its parts, up to unification. -/
theorem middle_same {t r : Body τ} {toFill : ToFill} {last : Bool} {s sr s' sr' n : ℕ}
    (h : Respects a (pairs (.conj t r) toFill last s sr n)) (hs : a s = a s') (hsr : a sr = a sr') :
    a n = a (middle (transparent t toFill false) (transparent r (fillAfter t toFill false) last) s' sr' n) := by
  unfold middle
  split_ifs with ht hr
  · exact (transparent_same h.left ht).symm.trans hs
  · exact (transparent_same h.right hr).trans hsr
  · rfl

/-- The threaded goal is the same up to unification. -/
def Threaded (a : ℕ → ℕ) (b : Body τ) : Prop :=
  ∀ ⦃toFill last s sr s' sr' n⦄, Respects a (pairs b toFill last s sr n) → a s = a s' → a sr = a sr' →
    (raw b toFill last s sr n).map (Step.rename a) = (thread b toFill last s' sr' n).map (Step.rename a)

theorem Threaded.conj {t r : Body τ} (ht : Threaded a t) (hr : Threaded a r) : Threaded a (.conj t r) := by
  intro toFill last s sr s' sr' n h hs hsr
  have hm := middle_same h hs hsr
  exact congrArg₂ Goal.conj (ht h.left hs hm) (hr h.right hm hsr)

theorem threaded (b : Body τ) : Threaded a b := by
  induction b with
  | cut | nil | braces _ =>
    intro toFill last s sr s' sr' n _ hs hsr
    rw [raw, thread]
    split_ifs <;> simp only [Goal.map, Step.rename, hs, hsr]
  | var _ | nonterminal _ =>
    intro toFill last s sr s' sr' n _ hs hsr
    simp only [raw, thread, Goal.map, Step.rename, hs, hsr]
  | cons x r ih =>
    have hx : Threaded a (.cons x .nil : Body τ) := by
      intro toFill last s sr s' sr' n _ hs hsr
      simp only [raw, thread, Goal.map, Step.rename, hs, hsr]
    by_cases hr : r = .nil
    · exact hr ▸ hx
    · intro toFill last s sr s' sr' n h hs hsr
      obtain ⟨hraw, hpairs, -, -, -⟩ := cons_eq_conj (x := x) hr toFill last s sr n
      obtain ⟨-, -, -, hthread, -⟩ := cons_eq_conj (x := x) hr toFill last s' sr' n
      rw [hraw, hthread]
      exact (hx.conj ih) (hpairs ▸ h) hs hsr
  | conj t r iht ihr => exact iht.conj ihr
  | arrow t r iht ihr =>
    intro toFill last s sr s' sr' n h hs hsr
    have hm := middle_same h hs hsr
    exact congrArg₂ Goal.arrow (iht h.left hs hm) (ihr h.right hm hsr)
  | neg t ih =>
    intro toFill last s sr s' sr' n h hs hsr
    have hm : a n = a (middle (transparent t toFill false) false s' n n) := by
      have h' : Respects a (pairs t toFill false s n (n + 1)) := h
      unfold middle
      split_ifs with ht
      · exact (transparent_same h' ht).symm.trans hs
      · rfl
      · rfl
    exact congrArg₂ Goal.disj (congrArg (Goal.arrow · .fail) (ih h hs hm)) (by simp only [Goal.map, Step.rename, hs, hsr])
  | disj t r iht ihr =>
    intro toFill last s sr s' sr' n h hs hsr
    exact congrArg₂ Goal.disj (iht h.left hs hsr) (ihr h.right hs hsr)

-- ---------------------------------------------------------------------------
-- Colours
-- ---------------------------------------------------------------------------

/-- New positions have the colours of a body. -/
def Coloured (c : ℕ → ℕ) (b : Body τ) (toFill : ToFill) (last : Bool) (s sr n : ℕ) : Prop :=
  ∀ v, n ≤ v → v < n + positions b → c v = colour b toFill last s sr n v

section Parts

variable {c : ℕ → ℕ} {t r : Body τ} {toFill : ToFill} {last : Bool} {s sr n : ℕ}

/-- The colours of a conjunction. -/
theorem coloured_conj (h : Coloured c (.conj t r) toFill last s sr n) :
    let m := middle (transparent t toFill false) (transparent r (fillAfter t toFill false) last) s sr n
    c n = m ∧ Coloured c t toFill false s m (n + 1) ∧
      Coloured c r (fillAfter t toFill false) last m sr (n + 1 + positions t) := by
  have hpos : positions (.conj t r) = positions t + positions r + 1 := rfl
  refine ⟨(h n le_rfl (by omega)).trans (if_pos rfl), fun v hv hlt => ?_, fun v hv hlt => ?_⟩
  · exact (h v (by omega) (by omega)).trans ((if_neg (by omega)).trans (if_pos hlt))
  · exact (h v (by omega) (by omega)).trans ((if_neg (by omega)).trans (if_neg (by omega)))

theorem coloured_neg (h : Coloured c (.neg t) toFill last s sr n) :
    let m := middle (transparent t toFill false) false s n n
    c n = m ∧ Coloured c t toFill false s m (n + 1) := by
  have hpos : positions (.neg t) = positions t + 1 := rfl
  refine ⟨(h n le_rfl (by omega)).trans (if_pos rfl), fun v hv hlt => ?_⟩
  exact (h v (by omega) (by omega)).trans (if_neg (by omega))

theorem coloured_disj (h : Coloured c (.disj t r) toFill last s sr n) :
    Coloured c t none true s sr n ∧ Coloured c r none true s sr (n + positions t) := by
  have hpos : positions (.disj t r) = positions t + positions r := rfl
  refine ⟨fun v hv hlt => ?_, fun v hv hlt => ?_⟩
  · exact (h v hv (by omega)).trans (if_pos hlt)
  · exact (h v (by omega) (by omega)).trans (if_neg (by omega))

/-- A terminal in front of a list has the colours of a conjunction. -/
theorem coloured_cons {x : τ} (hr : r ≠ .nil) (h : Coloured c (.cons x r) toFill last s sr n) :
    Coloured c (.conj (.cons x .nil) r) toFill last s sr n := by
  obtain ⟨-, -, hpos, -, hcolour⟩ := cons_eq_conj (x := x) hr toFill last s sr n
  exact fun v hv hlt => (h v hv (hpos ▸ hlt)).trans (hcolour v hv)

end Parts

/-- A chain that starts unbound is not transparent to its end. -/
theorem not_transparent {b : Body τ} {toFill : ToFill} (h : toFill ≠ some .filledIn) : transparent b toFill true = false := by
  have hkeep : ∀ {b : Body τ} {toFill : ToFill}, transparent b toFill false = true → fillAfter b toFill false = toFill := by
    intro b
    induction b with
    | cut | nil | braces _ => exact fun _ => rfl
    | conj t r iht ihr | arrow t r iht ihr =>
      intro toFill ht
      obtain ⟨htt, htr⟩ := Bool.and_eq_true_iff.mp ht
      exact (ihr htr).trans (iht htt)
    | var _ | cons _ _ _ | neg _ _ | disj _ _ _ _ | nonterminal _ =>
      intro toFill ht
      cases ht
  induction b generalizing toFill with
  | cut | nil | braces _ => simp [transparent, closes, h]
  | conj t r _ ihr | arrow t r _ ihr =>
    rw [transparent]
    cases ht : transparent t toFill false with
    | false => rfl
    | true =>
      rw [Bool.true_and, hkeep ht]
      exact ihr h
  | var _ | cons _ _ _ | neg _ _ | disj _ _ _ _ | nonterminal _ => rfl

variable {c : ℕ → ℕ}

/-- The colours respect the unifications. -/
def ColouringRespects (c : ℕ → ℕ) (b : Body τ) : Prop :=
  ∀ ⦃toFill last s sr s' sr' n⦄, Coloured c b toFill last s' sr' n → c s = s' → c sr = sr' →
    (transparent b toFill last = true → s' = sr') → Respects c (pairs b toFill last s sr n)

theorem ColouringRespects.conj {t r : Body τ} (ht : ColouringRespects c t) (hr : ColouringRespects c r) :
    ColouringRespects c (.conj t r) := by
  intro toFill last s sr s' sr' n h hs hsr hsame
  obtain ⟨hm, hct, hcr⟩ := coloured_conj h
  have hfirst : transparent t toFill false = true →
      s' = middle (transparent t toFill false) (transparent r (fillAfter t toFill false) last) s' sr' n :=
    fun ht => (if_pos ht).symm
  have hsecond : transparent r (fillAfter t toFill false) last = true →
      middle (transparent t toFill false) (transparent r (fillAfter t toFill false) last) s' sr' n = sr' := by
    intro hr
    unfold middle
    split_ifs with ht
    · exact hsame (Bool.and_eq_true_iff.mpr ⟨ht, hr⟩)
    · rfl
  intro e he
  cases List.mem_append.mp he with
  | inl he => exact ht hct hs hm hfirst e he
  | inr he => exact hr hcr hm hsr hsecond e he

theorem colouringRespects (b : Body τ) : ColouringRespects c b := by
  induction b with
  | cut | nil | braces _ =>
    intro toFill last s sr s' sr' n _ hs hsr hsame e he
    rw [pairs] at he
    split_ifs at he with hcl
    · cases he
    · cases List.mem_singleton.mp he
      exact hs.trans ((hsame (by simpa [transparent] using hcl)).trans hsr.symm)
  | var _ | nonterminal _ =>
    intro toFill last s sr s' sr' n _ _ _ _ e he
    cases he
  | cons x r ih =>
    have hx : ColouringRespects c (.cons x .nil : Body τ) := by
      intro toFill last s sr s' sr' n _ _ _ _ e he
      cases he
    by_cases hr : r = .nil
    · exact hr ▸ hx
    · intro toFill last s sr s' sr' n h hs hsr _
      rw [(cons_eq_conj hr toFill last s sr n).2.1]
      exact hx.conj ih (coloured_cons hr h) hs hsr fun hfalse => by cases hfalse
  | conj t r iht ihr => exact iht.conj ihr
  | arrow t r iht ihr => exact iht.conj ihr
  | neg t ih =>
    intro toFill last s sr s' sr' n h hs _ _
    obtain ⟨hm, hc⟩ := coloured_neg h
    exact ih hc hs hm fun ht => (if_pos ht).symm
  | disj t r iht ihr =>
    intro toFill last s sr s' sr' n h hs hsr _ e he
    obtain ⟨hct, hcr⟩ := coloured_disj h
    have hnone : ∀ b : Body τ, transparent b none true = true → s' = sr' := fun b hb => by
      rw [not_transparent (by decide)] at hb
      cases hb
    cases List.mem_append.mp he with
    | inl he => exact iht hct hs hsr (hnone t) e he
    | inr he => exact ihr hcr hs hsr (hnone r) e he

end Grammar

end Yap
