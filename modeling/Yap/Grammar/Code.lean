-- SUMMARY: Grammar rules: the translation of their bodies into goals over positions, and the tidying of these goals.
import Yap.Base.Control
import Yap.Base.Variables

/-!
# The translation of grammar rules

The predicates follow `grammar.yap`. The positions between the items of a body are
logic variables, which are numbered, and which the translation may unify. `ToFill`
and the goals in braces are logic variables too, or may be.

Not modelled: pushback lists of heads, and module qualification. A string is the list
of its codes.
-/

namespace Yap

namespace Grammar

/-- The bodies of grammar rules; goals in braces have atoms in `τ`. -/
inductive Body (τ : Type*) where
  | var (x : ℕ)
  | cut
  | nil
  | cons (x : τ) (r : Body τ)
  | braces (g : Goal τ)
  | conj (t r : Body τ)
  | arrow (t r : Body τ)
  | neg (t : Body τ)
  | disj (t r : Body τ)
  | nonterminal (t : τ)

/-- Goals over positions: `phrase(X,S,SR)`, `'C'(S,X,SR)`, a nonterminal with two more arguments, `S1=S`. -/
inductive Step (τ : Type*) where
  | call (g : τ)
  | phrase (x s sr : ℕ)
  | terminal (s : ℕ) (x : τ) (sr : ℕ)
  | nonterminal (t : τ) (s sr : ℕ)
  | unify (s1 s : ℕ)

-- ---------------------------------------------------------------------------
-- Bodies
-- ---------------------------------------------------------------------------

inductive Fill where
  | toFill
  | filledIn
deriving DecidableEq

/-- `ToFill`, which may be unbound. -/
abbrev ToFill := Option Fill

/-- `ToFill` is unified with `filled_in`. -/
def ToFill.fillIn : ToFill → Option ToFill
  | some .toFill => none
  | _ => some (some .filledIn)

/-- `ToFill` and `Last` are unified with `to_fill` and `last`. -/
def closes (toFill : ToFill) (last : Bool) : Bool := last && decide (toFill ≠ some .filledIn)

/-- The next new position, and the positions that are the same. -/
structure Positions where
  next : ℕ
  aliases : Aliases ℕ

def Positions.fresh (p : Positions) : Positions := { p with next := p.next + 1 }

def Positions.unify (s s1 : ℕ) (p : Positions) : Positions := { p with aliases := p.aliases.unify s s1 }

variable {τ : Type*}

/-- The goal for a body from `s` to `sr`, with `ToFill` and the positions after it. -/
def tBody : Body τ → ToFill → Bool → ℕ → ℕ → Positions → Option (Goal (Step τ) × ToFill × Positions)
  | .var x, toFill, _, s, s1, p => toFill.fillIn.map fun toFill => (.atom (.phrase x s s1), toFill, p)
  | .cut, toFill, last, s, s1, p =>
    if closes toFill last then some (.conj .cut (.atom (.unify s1 s)), some .toFill, p)
    else some (.cut, toFill, p.unify s s1)
  | .nil, toFill, last, s, s1, p =>
    if closes toFill last then some (.atom (.unify s1 s), some .toFill, p) else some (.true, toFill, p.unify s s1)
  | .cons x .nil, toFill, _, s, sr, p => toFill.fillIn.map fun toFill => (.atom (.terminal s x sr), toFill, p)
  | .cons x r, toFill, last, s, sr, p =>
    toFill.fillIn.bind fun toFill =>
      (tBody r toFill last p.next sr p.fresh).map fun rb => (.conj (.atom (.terminal s x p.next)) rb.1, rb.2)
  | .braces t, toFill, last, s, s1, p =>
    if closes toFill last then some (.conj (t.map .call) (.atom (.unify s1 s)), some .toFill, p)
    else some (t.map .call, toFill, p.unify s s1)
  | .conj t r, toFill, last, s, sr, p =>
    (tBody t toFill false s p.next p.fresh).bind fun tt =>
      (tBody r tt.2.1 last p.next sr tt.2.2).map fun rt => (.conj tt.1 rt.1, rt.2)
  | .arrow t r, toFill, last, s, sr, p =>
    (tBody t toFill false s p.next p.fresh).bind fun tt =>
      (tBody r tt.2.1 last p.next sr tt.2.2).map fun rt => (.arrow tt.1 rt.1, rt.2)
  | .neg t, toFill, _, s, sr, p =>
    (tBody t toFill false s p.next p.fresh).map fun tt => (.disj (.arrow tt.1 .fail) (.atom (.unify s sr)), tt.2)
  | .disj t r, toFill, _, s, sr, p =>
    (tBody t none true s sr p).bind fun tt =>
      (tBody r none true s sr tt.2.2).map fun rt => (.disj tt.1 rt.1, toFill, rt.2.2)
  | .nonterminal t, toFill, _, s, sr, p => toFill.fillIn.map fun toFill => (.atom (.nonterminal t s sr), toFill, p)

-- ---------------------------------------------------------------------------
-- Tidying
-- ---------------------------------------------------------------------------

variable {α : Type*}

/-- What variables for goals are bound to, and the next new one. -/
structure Bindings (α : Type*) where
  bind : ℕ → Option (Goal α)
  next : ℕ

def Bindings.deref (b : Bindings α) : Goal α → Goal α
  | .var x => (b.bind x).getD (.var x)
  | g => g

def Bindings.set (b : Bindings α) (x : ℕ) (g : Goal α) : Bindings α :=
  { b with bind := Function.update b.bind x (some g) }

/-- The variable is bound to a conjunction of two new ones. -/
def Bindings.setConj (b : Bindings α) (x : ℕ) : Bindings α :=
  { b.set x (.conj (.var b.next) (.var (b.next + 1))) with next := b.next + 2 }

/-- The arguments of a clause of `t_tidy/2` are unified with its head, and so may be bound;
the first argument bounds the depth of the calls. -/
def tTidy : ℕ → Bindings α → Goal α → Option (Goal α × Bindings α)
  | 0, _, _ => none
  | n + 1, b, p =>
    match b.deref p with
    | .disj p1 p2 =>
      (tTidy n b p1).bind fun q1 => (tTidy n q1.2 p2).map fun q2 => (.disj q1.1 q2.1, q2.2)
    | .arrow p1 p2 =>
      (tTidy n b p1).bind fun q1 => (tTidy n q1.2 p2).map fun q2 => (.arrow q1.1 q2.1, q2.2)
    | .conj p12 p3 =>
      match b.deref p12 with
      | .conj p1 p2 => tTidy n b (.conj p1 (.conj p2 p3))
      | .var x => tTidy n (b.setConj x) (.conj (.var b.next) (.conj (.var (b.next + 1)) p3))
      | .true => tTidy n b p3
      | p1 =>
        match b.deref p3 with
        | .true => tTidy n b p1
        | .var x => tTidy n (b.set x .true) p1
        | p2 => (tTidy n b p1).bind fun q1 => (tTidy n q1.2 p2).map fun q2 => (.conj q1.1 q2.1, q2.2)
    | a => some (a, b)

/-- `$translate_rule/2` for a head without a pushback list: the positions of the head are 0 and 1. -/
def translateRule (n : ℕ) (b : Bindings (Step τ)) (lp : τ) (rp : Body τ) :
    Option (Step τ × Goal (Step τ) × Positions × Bindings (Step τ)) :=
  (tBody rp none true 0 1 ⟨2, id⟩).bind fun b1 =>
    (tTidy n b b1.1).map fun q => (.nonterminal lp 0 1, q.1, b1.2.2, q.2)

end Grammar

end Yap
