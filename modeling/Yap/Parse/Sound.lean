-- SUMMARY: The parser ends, and the term that it returns is derived by the tokens that it has consumed.
import Yap.Parse.Code

/-!
# Soundness of the parser

A derivation of the operator-precedence grammar gives a list of tokens a term and its
priority. The rules that `special` turns on go beyond those of operators, brackets and
arguments: signs of numerals, constants with a sign, database references, and postfix
operators that are brackets with arguments.

One statement for each function says what it has consumed, what that derives, and that
the arguments below it on the stack are kept. All are proved by one induction on the
fuel, which is measured against the number of tokens.
-/

namespace Yap

-- ---------------------------------------------------------------------------
-- The grammar
-- ---------------------------------------------------------------------------

/-- The term of a name and its arguments. -/
def compoundTerm (special : Bool) (a : Atom) (args : List ReadTerm) : ReadTerm :=
  if special ∧ a = atomDBref ∧ args.length = 2 then .dbRef (args.headD (.atom atomNil)) else .appl a args

/-- The names that a sign before them makes constants. -/
inductive SignedConstant : Atom → Atom → Binary64 → Prop where
  | plusInf : SignedConstant atomPlus atomInf (infinity false)
  | minusInf : SignedConstant atomMinus atomInf (infinity true)
  | plusNan : SignedConstant atomPlus atomNan Binary64.nan
  | minusNan : SignedConstant atomMinus atomNan Binary64.nan

variable (special : Bool) (env : ParseEnv)

mutual

/-- The tokens derive the term, with its priority. -/
inductive Derives : List Token → ℕ → ReadTerm → Prop where
  | name {a : Atom} : Derives [.name a] 0 (.atom a)
  | number {k : Numeral} : Derives [.number k] 0 (.number k)
  | string {t : ReadTerm} : Derives [.string t] 0 t
  | var {v : ℕ} : Derives [.var v] 0 (.var v)
  | compound {a : Atom} {toks : List Token} {args : List ReadTerm} : DerivesArgs toks args →
      Derives (.name a :: .ponctuation .l :: (toks ++ [.ponctuation .endBracket])) 0 (compoundTerm special a args)
  | bracket {c : Ponctuation} {toks : List Token} {q : ℕ} {t : ReadTerm} : c = .beginBracket ∨ c = .l → q ≤ 1200 →
      Derives toks q t → Derives (.ponctuation c :: (toks ++ [.ponctuation .endBracket])) 0 t
  | nil : Derives [.ponctuation .beginSquareBracket, .ponctuation .endSquareBracket] 0 (.atom atomNil)
  | list {toks : List Token} {t : ReadTerm} : DerivesList toks t →
      Derives (.ponctuation .beginSquareBracket :: (toks ++ [.ponctuation .endSquareBracket])) 0 t
  | braces : Derives [.ponctuation .beginCurlyBracket, .ponctuation .endCurlyBracket] 0 (.atom atomBraces)
  | curly {toks : List Token} {q : ℕ} {t : ReadTerm} : q ≤ 1200 → Derives toks q t →
      Derives (.ponctuation .beginCurlyBracket :: (toks ++ [.ponctuation .endCurlyBracket])) 0 (.appl atomBraces [t])
  | prefixOp {a : Atom} {toks : List Token} {p rp q : ℕ} {t : ReadTerm} : env.isPrefixOp a = some (p, rp) → q ≤ rp →
      Derives toks q t → Derives (.name a :: toks) p (.appl a [t])
  | infixOp {a : Atom} {ls rs : List Token} {p lp rp ql qr : ℕ} {l r : ReadTerm} :
      env.isInfixOp a = some (p, lp, rp) → ql ≤ lp → qr ≤ rp → Derives ls ql l → Derives rs qr r →
      Derives (ls ++ .name a :: rs) p (.appl a [l, r])
  | posfixOp {a : Atom} {toks : List Token} {p lp q : ℕ} {t : ReadTerm} : env.isPosfixOp a = some (p, lp) → q ≤ lp →
      Derives toks q t → Derives (toks ++ [.name a]) p (.appl a [t])
  | comma {ls rs : List Token} {ql qr : ℕ} {l r : ReadTerm} : ql ≤ 999 → qr ≤ 1000 → Derives ls ql l →
      Derives rs qr r → Derives (ls ++ .ponctuation .comma :: rs) 1000 (.appl atomComma [l, r])
  | vBar {ls rs : List Token} {p lp rp ql qr : ℕ} {l r : ReadTerm} : env.isInfixOp atomVBar = some (p, lp, rp) →
      ql ≤ lp → qr ≤ rp → Derives ls ql l → Derives rs qr r →
      Derives (ls ++ .ponctuation .vBar :: rs) p (.appl atomVBar [l, r])
  | minusNumber {k : Numeral} : special → Derives [.name atomMinus, .number k] 0 (.number k.negate)
  | signedConstant {a b : Atom} {x : Binary64} {p rp : ℕ} : special → env.isPrefixOp a = some (p, rp) →
      SignedConstant a b x → Derives [.name a, .name b] 0 (.number (.float x))
  | blockArgs {ls toks : List Token} {p lp q : ℕ} {t : ReadTerm} {args : List ReadTerm} : special →
      env.isPosfixOp atomEmptyBrackets = some (p, lp) → q ≤ lp → Derives ls q t → DerivesArgs toks args →
      Derives (ls ++ .ponctuation .beginBracket :: (toks ++ [.ponctuation .endBracket])) p
        (.appl atomEmptyBrackets (t :: args))
  | blockSquare {ls toks : List Token} {p lp q : ℕ} {t : ReadTerm} {args : List ReadTerm} : special →
      env.isPosfixOp atomNil = some (p, lp) → q ≤ lp → Derives ls q t → DerivesArgs toks args →
      Derives (ls ++ .ponctuation .beginSquareBracket :: (toks ++ [.ponctuation .endSquareBracket])) p
        (.appl atomNil [.list args, t])

/-- Arguments, with commas between them. -/
inductive DerivesArgs : List Token → List ReadTerm → Prop where
  | one {toks : List Token} {q : ℕ} {t : ReadTerm} : q ≤ 999 → Derives toks q t → DerivesArgs toks [t]
  | cons {toks rest : List Token} {q : ℕ} {t : ReadTerm} {args : List ReadTerm} : q ≤ 999 → Derives toks q t →
      DerivesArgs rest args → DerivesArgs (toks ++ .ponctuation .comma :: rest) (t :: args)

/-- The elements of a list, and what follows a bar. -/
inductive DerivesList : List Token → ReadTerm → Prop where
  | one {toks : List Token} {q : ℕ} {t : ReadTerm} : q ≤ 999 → Derives toks q t →
      DerivesList toks (.pair t (.atom atomNil))
  | cons {toks rest : List Token} {q : ℕ} {t tail : ReadTerm} : q ≤ 999 → Derives toks q t →
      DerivesList rest tail → DerivesList (toks ++ .ponctuation .comma :: rest) (.pair t tail)
  | tail {toks rest : List Token} {q r : ℕ} {t tail : ReadTerm} : q ≤ 999 → r ≤ 999 → Derives toks q t →
      Derives rest r tail → DerivesList (toks ++ .ponctuation .vBar :: rest) (.pair t tail)

end

open Backtrack

variable {env : ParseEnv}

-- ---------------------------------------------------------------------------
-- States
-- ---------------------------------------------------------------------------

/-- The stack of arguments is as before, up to `p`. -/
structure KeptBelow (p : ℕ) (st st' : ParserState) : Prop where
  le : p ≤ st'.auxSp
  slot : ∀ i < p, st'.auxBase i = st.auxBase i

/-- The arguments on the stack are kept. -/
abbrev Kept (st st' : ParserState) : Prop := KeptBelow st.auxSp st st'

theorem Kept.refl (st : ParserState) : Kept st st := ⟨le_rfl, fun _ _ => rfl⟩

theorem KeptBelow.trans {p p' : ℕ} {s s' s'' : ParserState} (h : KeptBelow p s s') (h' : KeptBelow p' s' s'')
    (hp : p ≤ p') : KeptBelow p s s'' :=
  ⟨hp.trans h'.le, fun i hi => (h'.slot i (hi.trans_le hp)).trans (h.slot i hi)⟩

theorem Kept.trans {s s' s'' : ParserState} (h : Kept s s') (h' : Kept s' s'') : Kept s s'' :=
  KeptBelow.trans h h' h.le

-- ---------------------------------------------------------------------------
-- Tokens
-- ---------------------------------------------------------------------------

/-- Curly brackets are no postfix operator, and no bracket of the other kinds that can
    be one is closed at once. -/
structure Regular (env : ParseEnv) (toks : List Token) : Prop where
  braces : env.isPosfixOp atomBraces = none
  brackets : env.isPosfixOp atomEmptyBrackets ≠ none →
    ¬ [Token.ponctuation .beginBracket, .ponctuation .endBracket] <:+: toks
  squareBrackets : env.isPosfixOp atomNil ≠ none →
    ¬ [Token.ponctuation .beginSquareBracket, .ponctuation .endSquareBracket] <:+: toks

theorem Regular.of_suffix {toks rest : List Token} (h : Regular env toks) (hs : rest <:+ toks) : Regular env rest :=
  ⟨h.braces, fun hop hin => h.brackets hop (hin.trans hs.isInfix),
    fun hop hin => h.squareBrackets hop (hin.trans hs.isInfix)⟩

/-- The brackets that may follow a term, and the operators they are. -/
def blockOp : Ponctuation → Option Atom
  | .beginBracket => some atomEmptyBrackets
  | .beginSquareBracket => some atomNil
  | .beginCurlyBracket => some atomBraces
  | _ => none

variable (env) in
/-- The next token does not go on with a term of priority `q`. An infix operator that
    would has no right argument that can be parsed. -/
def Stopped (prio q : ℕ) : List Token → Prop
  | .name a :: rest => env.hasOp a ∧ env.posfixFits a prio q = none ∧
    ∀ p rp, env.infixFits a prio q = some (p, rp) →
      ∃ n st e st', st.tokptr = rest ∧ parseTerm env n rp st = some (.fail e st')
  | .ponctuation c :: _ => (c = .comma → ¬ (1000 ≤ prio ∧ q ≤ 999)) ∧
    (c = .vBar → env.infixFits atomVBar prio q = none) ∧
    ∀ a, blockOp c = some a → env.posfixFits a prio q = none
  | .number _ :: _ => False
  | .var _ :: _ => False
  | .string _ :: _ => False
  | _ => True

theorem isPonctuation_iff {c : Ponctuation} {toks : List Token} :
    isPonctuation c toks.head? ↔ ∃ rest, toks = .ponctuation c :: rest := by
  cases toks with
  | nil => simp [isPonctuation]
  | cons tok rest => cases tok <;> simp [isPonctuation, eq_comm]

-- ---------------------------------------------------------------------------
-- What the functions do
-- ---------------------------------------------------------------------------

variable (env)

/-- `parseTerm`. -/
def TermPost (prio : ℕ) (st : ParserState) (t : ReadTerm) (st' : ParserState) : Prop :=
  Kept st st' ∧ ∃ used, used ≠ [] ∧ st.tokptr = used ++ st'.tokptr ∧
    (Regular env st.tokptr → ∃ q ≤ prio, Derives true env used q t ∧ Stopped env prio q st'.tokptr)

/-- `parsePrimary`. -/
def PrimaryPost (prio : ℕ) (st : ParserState) (r : ReadTerm × ℕ) (st' : ParserState) : Prop :=
  Kept st st' ∧ ∃ used, used ≠ [] ∧ st.tokptr = used ++ st'.tokptr ∧
    (Regular env st.tokptr → r.2 ≤ prio ∧ Derives true env used r.2 r.1)

/-- `parseName`. -/
def NamePost (prio : ℕ) (a : Atom) (st : ParserState) (r : ReadTerm × ℕ) (st' : ParserState) : Prop :=
  Kept st st' ∧ ∃ used, st.tokptr = used ++ st'.tokptr ∧
    (Regular env st.tokptr → r.2 ≤ prio ∧ Derives true env (.name a :: used) r.2 r.1)

/-- `parseOps`. -/
def OpsPost (prio curprio : ℕ) (t : ReadTerm) (st : ParserState) (t' : ReadTerm) (st' : ParserState) : Prop :=
  Kept st st' ∧ ∃ used, st.tokptr = used ++ st'.tokptr ∧
    (Regular env st.tokptr → curprio ≤ prio → ∀ ls, Derives true env ls curprio t →
      ∃ q ≤ prio, Derives true env (ls ++ used) q t' ∧ Stopped env prio q st'.tokptr)

/-- `parseArgs`, from its opening bracket. -/
def ArgsPost (a : Atom) (close : Ponctuation) (arg1 : Option ReadTerm) (st : ParserState) (t : ReadTerm)
    (st' : ParserState) : Prop :=
  Kept st st' ∧ ∃ args, st.tokptr.tail = args ++ .ponctuation close :: st'.tokptr ∧
    (Regular env st.tokptr → arg1 ≠ none → args ≠ [] →
      ∃ ts, DerivesArgs true env args ts ∧ t = applArgs a (arg1.toList ++ ts)) ∧
    (Regular env st.tokptr → arg1 = none → ∃ ts, DerivesArgs true env args ts ∧ t = applArgs a ts)

/-- `parseArgLoop`. -/
def ArgLoopPost (a : Atom) (close : Ponctuation) (p nargs : ℕ) (st : ParserState) (t : ReadTerm) (st' : ParserState) :
    Prop :=
  KeptBelow p st st' ∧ ∃ args, args ≠ [] ∧ st.tokptr = args ++ .ponctuation close :: st'.tokptr ∧
    (Regular env st.tokptr → ∃ ts, DerivesArgs true env args ts ∧
      t = applArgs a ((List.range' p nargs).map st.auxBase ++ ts))

/-- `parseList`. -/
def ListPost (st : ParserState) (t : ReadTerm) (st' : ParserState) : Prop :=
  Kept st st' ∧ ∃ used, used ≠ [] ∧ st.tokptr = used ++ st'.tokptr ∧
    (Regular env st.tokptr → DerivesList true env used t)

/-- With enough fuel all functions end, and as their postconditions say. -/
structure Specs (n : ℕ) : Prop where
  term : ∀ prio st, 4 * st.tokptr.length + 2 ≤ n → (parseTerm env n prio).Ends st (TermPost env prio st) (Kept st)
  primary : ∀ prio st, 4 * st.tokptr.length + 1 ≤ n →
    (parsePrimary env n prio).Ends st (PrimaryPost env prio st) (Kept st)
  name : ∀ prio a st, 4 * st.tokptr.length + 4 ≤ n →
    (parseName env n prio a).Ends st (NamePost env prio a st) (Kept st)
  ops : ∀ prio curprio t st, 4 * st.tokptr.length + 1 ≤ n →
    (parseOps env n prio curprio t).Ends st (OpsPost env prio curprio t st) (Kept st)
  args : ∀ a close arg1 st, st.tokptr ≠ [] → 4 * st.tokptr.length ≤ n →
    (parseArgs env n a close arg1).Ends st (ArgsPost env a close arg1 st) (Kept st)
  argLoop : ∀ a close p nargs st, p + nargs = st.auxSp → 4 * st.tokptr.length + 3 ≤ n →
    (parseArgLoop env n a close p nargs).Ends st (ArgLoopPost env a close p nargs st) (KeptBelow p st)
  list : ∀ st, 4 * st.tokptr.length + 3 ≤ n → (parseList env n).Ends st (ListPost env st) (Kept st)

-- ---------------------------------------------------------------------------
-- Rules
-- ---------------------------------------------------------------------------

section

variable {α : Type} {st : ParserState} {post : α → ParserState → Prop} {fails : ParserState → Prop}

theorem ends_nextToken {f : Unit → Parser α} (h : (f ()).Ends st.advance post fails) :
    (nextToken.next f).Ends st post fails := h

theorem ends_setAuxSp {f : Unit → Parser α} {p : ℕ} (h : (f ()).Ends { st with auxSp := p } post fails) :
    ((setAuxSp p).next f).Ends st post fails := h

theorem ends_push {f : Unit → Parser α} {p : ℕ} {t : ReadTerm} (h : (f ()).Ends (st.push p t) post fails) :
    ((modify (ParserState.push p t)).next f).Ends st post fails := h

theorem ends_syntaxMsg {text : String} (h : fails st) : (syntaxMsg text : Parser α).Ends st post fails := ⟨_, rfl, h⟩

theorem ends_checkfor {c : Ponctuation} {f : Unit → Parser α}
    (hok : ∀ rest, st.tokptr = .ponctuation c :: rest → (f ()).Ends { st with tokptr := rest } post fails)
    (hfail : fails st) : ((checkfor c).next f).Ends st post fails := by
  by_cases hc : isPonctuation c st.tokptr.head?
  · obtain ⟨rest, hrest⟩ := isPonctuation_iff.mp hc
    have hcheck : checkfor c st = some (.ok () st.advance) := by
      rw [checkfor, look_apply, if_pos hc]
      rfl
    have hadvance : st.advance = { st with tokptr := rest } := by rw [ParserState.advance, hrest, List.tail_cons]
    have heq : (checkfor c).next f st = f () { st with tokptr := rest } := by rw [Backtrack.next, hcheck, ← hadvance]
    obtain ⟨r, hr, hends⟩ := hok rest hrest
    exact ⟨r, heq.trans hr, hends⟩
  · have hcheck : ∃ e, checkfor c st = some (.fail e st) := by
      rw [checkfor, look_apply, if_neg hc]
      exact ⟨_, rfl⟩
    obtain ⟨e, hcheck⟩ := hcheck
    exact ⟨.fail e st, by rw [Backtrack.next, hcheck], hfail⟩

end

theorem ParserState.length_advance (st : ParserState) : st.advance.tokptr.length = st.tokptr.length - 1 :=
  List.length_tail

theorem Kept.advance {st st' : ParserState} (h : Kept st.advance st') : Kept st st' := ⟨h.le, h.slot⟩

theorem KeptBelow.tokptr {p : ℕ} {st st' : ParserState} (h : KeptBelow p st st') (toks : List Token) :
    KeptBelow p st { st' with tokptr := toks } := ⟨h.le, h.slot⟩

theorem Regular.advance {st : ParserState} (h : Regular env st.tokptr) : Regular env st.advance.tokptr :=
  h.of_suffix (List.tail_suffix _)

variable {env}

-- ---------------------------------------------------------------------------
-- Terms
-- ---------------------------------------------------------------------------

theorem specs_term {n : ℕ} (ih : Specs env n) (prio : ℕ) (st : ParserState) (hn : 4 * st.tokptr.length + 2 ≤ n + 1) :
    (parseTerm env (n + 1) prio).Ends st (TermPost env prio st) (Kept st) := by
  rw [parseTerm]
  refine (ih.primary prio st (by omega)).next fun r st₁ hprim => ?_
  obtain ⟨hkept, used, hne, hused, hderives⟩ := hprim
  have hlen := congrArg List.length hused
  have hpos := List.length_pos_iff.mpr hne
  rw [List.length_append] at hlen
  refine (ih.ops prio r.2 r.1 st₁ (by omega)).mono ?_ fun st₂ hkept' => hkept.trans hkept'
  rintro t st₂ ⟨hkept', used', hused', hops⟩
  refine ⟨hkept.trans hkept', used ++ used', by simp [hne], by rw [hused, hused', List.append_assoc], fun hreg => ?_⟩
  obtain ⟨hle, hprim⟩ := hderives hreg
  exact hops (hreg.of_suffix ⟨used, hused.symm⟩) hle used hprim

theorem specs_primary {n : ℕ} (ih : Specs env n) (prio : ℕ) (st : ParserState)
    (hn : 4 * st.tokptr.length + 1 ≤ n + 1) :
    (parsePrimary env (n + 1) prio).Ends st (PrimaryPost env prio st) (Kept st) := by
  rw [parsePrimary]
  refine Ends.look ?_
  cases hst : st.tokptr with
  | nil => exact ends_syntaxMsg (Kept.refl st)
  | cons tok toks =>
      have hadvance : st.advance.tokptr = toks := by rw [ParserState.advance, hst, List.tail_cons]
      rw [hst, List.length_cons] at hn
      -- one token that is a term
      have hone : ∀ t, Derives true env [tok] 0 t →
          (nextToken.next fun _ => done (t, 0) : Parser _).Ends st (PrimaryPost env prio st) (Kept st) := by
        intro t ht
        refine ends_nextToken (Ends.done ⟨(Kept.refl _).advance, [tok], by simp, by rw [hst, hadvance]; rfl, ?_⟩)
        exact fun _ => ⟨Nat.zero_le _, ht⟩
      cases tok with
      | name a =>
          refine ends_nextToken ((ih.name prio a st.advance (by rw [hadvance]; omega)).mono ?_ fun _ => Kept.advance)
          rintro r st' ⟨hkept, used, hused, hderives⟩
          refine ⟨hkept.advance, .name a :: used, by simp, by rw [hst, ← hadvance, hused]; rfl, fun hreg => ?_⟩
          exact hderives hreg.advance
      | number k => exact hone _ .number
      | var v => exact hone _ .var
      | string t => exact hone _ .string
      | bqString => exact ends_syntaxMsg (Kept.refl st)
      | error => exact ends_syntaxMsg (Kept.refl st)
      | quasiQuotes => exact ends_syntaxMsg (Kept.refl st)
      | ponctuation c =>
          simp only
          split_ifs with hbracket hsquare hcurly
          · refine ends_nextToken ?_
            refine Ends.next ((ih.term maxPriority st.advance (by rw [hadvance]; omega)).mono (fun _ _ => id)
              fun _ => Kept.advance) ?_
            rintro t st' ⟨hkept, used, hne, hused, hderives⟩
            refine ends_checkfor (fun rest hrest => Ends.done ⟨hkept.advance.tokptr rest, ?_⟩) hkept.advance
            refine ⟨.ponctuation c :: (used ++ [.ponctuation .endBracket]), by simp, ?_, fun hreg => ?_⟩
            · rw [hst, ← hadvance, hused, hrest]
              simp
            · obtain ⟨q, hle, ht, -⟩ := hderives hreg.advance
              exact ⟨Nat.zero_le _, .bracket hbracket hle ht⟩
          · refine ends_nextToken (Ends.look ?_)
            subst hsquare
            split_ifs with hclose
            · obtain ⟨rest, hrest⟩ := isPonctuation_iff.mp hclose
              have hadvance₂ : st.advance.advance.tokptr = rest := by
                rw [ParserState.advance, hrest, List.tail_cons]
              refine ends_nextToken (Ends.done ⟨(Kept.refl _).advance.advance, ?_⟩)
              refine ⟨[.ponctuation .beginSquareBracket, .ponctuation .endSquareBracket], by simp, ?_, fun _ => ?_⟩
              · rw [hst, ← hadvance, hrest, hadvance₂]
                rfl
              · exact ⟨Nat.zero_le _, .nil⟩
            · refine Ends.next ((ih.list st.advance (by rw [hadvance]; omega)).mono (fun _ _ => id)
                fun _ => Kept.advance) ?_
              rintro t st' ⟨hkept, used, hne, hused, hderives⟩
              refine ends_checkfor (fun rest hrest => Ends.done ⟨hkept.advance.tokptr rest, ?_⟩) hkept.advance
              refine ⟨.ponctuation .beginSquareBracket :: (used ++ [.ponctuation .endSquareBracket]), by simp, ?_,
                fun hreg => ⟨Nat.zero_le _, .list (hderives hreg.advance)⟩⟩
              rw [hst, ← hadvance, hused, hrest]
              simp
          · refine ends_nextToken (Ends.look ?_)
            subst hcurly
            split_ifs with hclose
            · obtain ⟨rest, hrest⟩ := isPonctuation_iff.mp hclose.1
              have hadvance₂ : st.advance.advance.tokptr = rest := by
                rw [ParserState.advance, hrest, List.tail_cons]
              refine ends_nextToken (Ends.done ⟨(Kept.refl _).advance.advance, ?_⟩)
              refine ⟨[.ponctuation .beginCurlyBracket, .ponctuation .endCurlyBracket], by simp, ?_, fun _ => ?_⟩
              · rw [hst, ← hadvance, hrest, hadvance₂]
                rfl
              · exact ⟨Nat.zero_le _, .braces⟩
            · refine Ends.next ((ih.term maxPriority st.advance (by rw [hadvance]; omega)).mono (fun _ _ => id)
                fun _ => Kept.advance) ?_
              rintro t st' ⟨hkept, used, hne, hused, hderives⟩
              refine ends_checkfor (fun rest hrest => Ends.done ⟨hkept.advance.tokptr rest, ?_⟩) hkept.advance
              refine ⟨.ponctuation .beginCurlyBracket :: (used ++ [.ponctuation .endCurlyBracket]), by simp, ?_,
                fun hreg => ?_⟩
              · rw [hst, ← hadvance, hused, hrest]
                simp
              · obtain ⟨q, hle, ht, -⟩ := hderives hreg.advance
                exact ⟨Nat.zero_le _, .curly hle ht⟩
          · exact ends_syntaxMsg (Kept.refl st)

theorem minusNumber_eq {a : Atom} {tok : Option Token} {k : Numeral} (h : minusNumber a tok = some k) :
    a = atomMinus ∧ ∃ k', tok = some (.number k') ∧ k = k'.negate := by
  unfold minusNumber at h
  split at h
  case h_1 k' =>
    split at h
    case isTrue ha =>
      cases h
      exact ⟨ha, k', rfl, rfl⟩
    case isFalse => cases h
  case h_2 => cases h

theorem signedConstant_eq {a : Atom} {tok : Option Token} {x : Binary64} (h : signedConstant a tok = some x) :
    ∃ b, tok = some (.name b) ∧ SignedConstant a b x := by
  unfold signedConstant at h
  split at h
  case h_1 b =>
    refine ⟨b, rfl, ?_⟩
    split_ifs at h with hplus hinf hnan hminus hinf hnan <;> cases h
    · rw [hplus, hinf]
      exact .plusInf
    · rw [hplus, hnan]
      exact .plusNan
    · rw [hminus, hinf]
      exact .minusInf
    · rw [hminus, hnan]
      exact .minusNan
  case h_2 => cases h

theorem DerivesArgs.ne_nil {toks : List Token} {args : List ReadTerm} (h : DerivesArgs true env toks args) :
    args ≠ [] := by
  cases h <;> simp

/-- With arguments, the parser builds the term of the grammar. -/
theorem applArgs_eq {a : Atom} {args : List ReadTerm} (h : args ≠ []) : applArgs a args = compoundTerm true a args := by
  unfold applArgs compoundTerm ReadTerm.mkApplTerm
  simp [h]

theorem specs_name {n : ℕ} (ih : Specs env n) (prio : ℕ) (a : Atom) (st : ParserState)
    (hn : 4 * st.tokptr.length + 4 ≤ n + 1) :
    (parseName env (n + 1) prio a).Ends st (NamePost env prio a st) (Kept st) := by
  -- the name alone
  have hatom : ∀ st', Kept st st' → st'.tokptr = st.tokptr →
      (done (.atom a, 0) : Parser _).Ends st' (NamePost env prio a st) (Kept st) :=
    fun st' hkept htok => Ends.done ⟨hkept, [], by rw [htok]; rfl, fun _ => ⟨Nat.zero_le _, .name⟩⟩
  rw [parseName]
  refine Ends.look ?_
  split
  case h_1 k hminus =>
    obtain ⟨rfl, k', hhead, rfl⟩ := minusNumber_eq hminus
    refine ends_nextToken (Ends.done ⟨(Kept.refl _).advance, [.number k'], ?_, fun _ => ?_⟩)
    · rw [ParserState.advance]
      exact (List.cons_head?_tail hhead).symm
    · exact ⟨Nat.zero_le _, .minusNumber rfl⟩
  case h_2 =>
    split_ifs with hl
    · obtain ⟨rest, hrest⟩ := isPonctuation_iff.mp hl
      refine Ends.next (ih.args a .endBracket none st (by simp [hrest]) (by omega)) ?_
      rintro t st' ⟨hkept, args, hargs, -, hderives⟩
      rw [hrest, List.tail_cons] at hargs
      refine Ends.done ⟨hkept, .ponctuation .l :: (args ++ [.ponctuation .endBracket]), ?_, fun hreg => ?_⟩
      · rw [hrest, hargs]
        simp
      · obtain ⟨ts, hts, rfl⟩ := hderives hreg rfl
        refine ⟨Nat.zero_le _, ?_⟩
        rw [applArgs_eq hts.ne_nil]
        exact .compound hts
    · split
      case h_1 => exact hatom st (Kept.refl st) rfl
      case h_2 opprio oprprio hop =>
        split
        case h_1 x hconst =>
          obtain ⟨b, hhead, hx⟩ := signedConstant_eq hconst
          refine ends_nextToken (Ends.done ⟨(Kept.refl _).advance, [.name b], ?_, fun _ => ?_⟩)
          · rw [ParserState.advance]
            exact (List.cons_head?_tail hhead).symm
          · exact ⟨Nat.zero_le _, .signedConstant rfl hop hx⟩
        case h_2 =>
          split_ifs with hprio
          · refine Ends.attempt (ih.term oprprio st (by omega)) ?_ fun st' hkept => ?_
            · rintro t st' ⟨hkept, used, -, hused, hderives⟩
              refine Ends.done ⟨hkept, used, hused, fun hreg => ?_⟩
              obtain ⟨q, hq, ht, -⟩ := hderives hreg
              exact ⟨hprio, .prefixOp hop hq ht⟩
            · exact hatom _ (hkept.tokptr _) rfl
          · exact hatom st (Kept.refl st) rfl

-- ---------------------------------------------------------------------------
-- Arguments
-- ---------------------------------------------------------------------------

theorem specs_args {n : ℕ} (ih : Specs env n) (a : Atom) (close : Ponctuation) (arg1 : Option ReadTerm)
    (st : ParserState) (hne : st.tokptr ≠ []) (hn : 4 * st.tokptr.length ≤ n + 1) :
    (parseArgs env (n + 1) a close arg1).Ends st (ArgsPost env a close arg1 st) (Kept st) := by
  have hlen := st.length_advance
  have hpos := List.length_pos_iff.mpr hne
  rw [parseArgs]
  refine ends_nextToken (Ends.look ?_)
  cases arg1 with
  | none =>
      refine (ih.argLoop a close _ 0 st.advance rfl (by omega)).mono ?_ fun _ => Kept.advance
      rintro t st' ⟨hkept, args, -, hargs, hderives⟩
      refine ⟨Kept.advance hkept, args, hargs, fun _ hsome => absurd rfl hsome, fun hreg _ => ?_⟩
      obtain ⟨ts, hts, ht⟩ := hderives hreg.advance
      exact ⟨ts, hts, by simpa using ht⟩
  | some t₁ =>
      refine ends_push (Ends.look ?_)
      have hpush : Kept st (st.advance.push st.advance.auxSp t₁) :=
        ⟨Nat.le_succ _, fun i hi => Function.update_of_ne hi.ne _ _⟩
      split_ifs with hclose
      · obtain ⟨rest, hrest⟩ := isPonctuation_iff.mp hclose
        refine ends_nextToken (ends_setAuxSp (Ends.done ⟨⟨le_rfl, hpush.slot⟩, [], ?_, ?_, ?_⟩))
        · show st.advance.tokptr = _
          have htoks : st.advance.tokptr = .ponctuation close :: rest := hrest
          rw [htoks]
          show _ = .ponctuation close :: st.advance.tokptr.tail
          rw [htoks]
          rfl
        · exact fun _ _ h => absurd rfl h
        · rintro - ⟨⟩
      · refine (ih.argLoop a close _ 1 _ rfl (by
          show 4 * st.advance.tokptr.length + 3 ≤ n
          omega)).mono ?_ fun st' h => KeptBelow.trans hpush h le_rfl
        rintro t st' ⟨hkept, args, -, hargs, hderives⟩
        refine ⟨KeptBelow.trans hpush hkept le_rfl, args, hargs, fun hreg _ _ => ?_, by rintro - ⟨⟩⟩
        obtain ⟨ts, hts, ht⟩ := hderives hreg.advance
        refine ⟨ts, hts, ?_⟩
        rw [ht]
        simp [ParserState.push]

theorem specs_argLoop {n : ℕ} (ih : Specs env n) (a : Atom) (close : Ponctuation) (p nargs : ℕ) (st : ParserState)
    (hsp : p + nargs = st.auxSp) (hn : 4 * st.tokptr.length + 3 ≤ n + 1) :
    (parseArgLoop env (n + 1) a close p nargs).Ends st (ArgLoopPost env a close p nargs st) (KeptBelow p st) := by
  have hp : p ≤ st.auxSp := by omega
  rw [parseArgLoop]
  refine Ends.look (Ends.next ((ih.term 999 st (by omega)).mono (fun _ _ => id)
    fun st' hkept => ⟨hp.trans hkept.le, fun i hi => hkept.slot i (by omega)⟩) ?_)
  rintro t st₁ ⟨hkept, used, hne, hused, hderives⟩
  have hlen := congrArg List.length hused
  have hpos := List.length_pos_iff.mpr hne
  rw [List.length_append] at hlen
  -- the argument is put after those on the stack
  have hpush : KeptBelow (p + nargs) st (st₁.push st.auxSp t) := by
    refine ⟨hsp.le.trans (Nat.le_succ _), fun i hi => ?_⟩
    rw [hsp] at hi
    exact (Function.update_of_ne hi.ne _ _).trans (hkept.slot i hi)
  have hslots : (List.range' p (nargs + 1)).map (st₁.push st.auxSp t).auxBase =
      (List.range' p nargs).map st.auxBase ++ [t] := by
    rw [List.range'_concat, List.map_append]
    congr 1
    · refine List.map_congr_left fun i hi => hpush.slot i ?_
      rw [List.mem_range'_1] at hi
      omega
    · simp [ParserState.push, hsp]
  have hbelow : ∀ {st'}, KeptBelow p (st₁.push st.auxSp t) st' → KeptBelow p st st' :=
    fun h => ⟨h.le, fun i hi => (h.slot i hi).trans (hpush.slot i (by omega))⟩
  refine ends_push (Ends.look ?_)
  split_ifs with hcomma
  · obtain ⟨rest, hrest⟩ := isPonctuation_iff.mp hcomma
    have hst₁ : st₁.tokptr = .ponctuation .comma :: rest := hrest
    have hadvance : (st₁.push st.auxSp t).advance.tokptr = rest := by
      rw [ParserState.advance, hrest, List.tail_cons]
    rw [hst₁, List.length_cons] at hlen
    refine ends_nextToken ((ih.argLoop a close p (nargs + 1) _ (by
      show p + (nargs + 1) = st.auxSp + 1
      omega) (by rw [hadvance]; omega)).mono ?_ fun st' h => hbelow ⟨h.le, h.slot⟩)
    rintro t' st' ⟨hkept', args, hne', hargs, hderives'⟩
    rw [hadvance] at hargs hderives'
    refine ⟨hbelow ⟨hkept'.le, hkept'.slot⟩, used ++ .ponctuation .comma :: args, by simp, ?_, fun hreg => ?_⟩
    · rw [hused, hst₁, hargs]
      simp
    · obtain ⟨q, hq, ht, -⟩ := hderives hreg
      have hsuffix : rest <:+ st.tokptr := by
        rw [hused, hst₁]
        exact ⟨used ++ [.ponctuation .comma], by simp⟩
      obtain ⟨ts, hts, rfl⟩ := hderives' (hreg.of_suffix hsuffix)
      refine ⟨t :: ts, .cons hq ht hts, ?_⟩
      rw [show (st₁.push st.auxSp t).advance.auxBase = (st₁.push st.auxSp t).auxBase from rfl, hslots,
        List.append_assoc]
      rfl
  · refine ends_setAuxSp (ends_checkfor (fun rest hrest => Ends.done ?_) ?_)
    · refine ⟨⟨le_rfl, fun i hi => hpush.slot i (by omega)⟩, used, hne, ?_, fun hreg => ?_⟩
      · rw [hused]
        exact congrArg _ hrest
      · obtain ⟨q, hq, ht, -⟩ := hderives hreg
        exact ⟨[t], .one hq ht, by rw [hslots]⟩
    · exact ⟨le_rfl, fun i hi => hpush.slot i (by omega)⟩

theorem specs_list {n : ℕ} (ih : Specs env n) (st : ParserState) (hn : 4 * st.tokptr.length + 3 ≤ n + 1) :
    (parseList env (n + 1)).Ends st (ListPost env st) (Kept st) := by
  rw [parseList]
  refine Ends.next (ih.term 999 st (by omega)) ?_
  rintro t st₁ ⟨hkept, used, hne, hused, hderives⟩
  have hlen := congrArg List.length hused
  have hpos := List.length_pos_iff.mpr hne
  rw [List.length_append] at hlen
  refine Ends.look ?_
  split
  case h_1 c rest hrest =>
    have hadvance : st₁.advance.tokptr = rest := by rw [ParserState.advance, hrest, List.tail_cons]
    have hsuffix : rest <:+ st.tokptr := by
      rw [hused, hrest]
      exact ⟨used ++ [.ponctuation c], by simp⟩
    rw [hrest, List.length_cons] at hlen
    split_ifs with hcomma hbar
    · subst hcomma
      refine ends_nextToken (Ends.next ((ih.list st₁.advance (by rw [hadvance]; omega)).mono (fun _ _ => id)
        fun _ h => hkept.trans h.advance) ?_)
      rintro tail st₂ ⟨hkept', used', -, hused', hderives'⟩
      rw [hadvance] at hused' hderives'
      refine Ends.done ⟨hkept.trans hkept'.advance, used ++ .ponctuation .comma :: used', by simp, ?_, fun hreg => ?_⟩
      · rw [hused, hrest, hused']
        simp
      · obtain ⟨q, hq, ht, -⟩ := hderives hreg
        exact .cons hq ht (hderives' (hreg.of_suffix hsuffix))
    · subst hbar
      refine ends_nextToken (Ends.next ((ih.term 999 st₁.advance (by rw [hadvance]; omega)).mono (fun _ _ => id)
        fun _ h => hkept.trans h.advance) ?_)
      rintro tail st₂ ⟨hkept', used', -, hused', hderives'⟩
      rw [hadvance] at hused' hderives'
      refine Ends.done ⟨hkept.trans hkept'.advance, used ++ .ponctuation .vBar :: used', by simp, ?_, fun hreg => ?_⟩
      · rw [hused, hrest, hused']
        simp
      · obtain ⟨q, hq, ht, -⟩ := hderives hreg
        obtain ⟨r, hr, htail, -⟩ := hderives' (hreg.of_suffix hsuffix)
        exact .tail hq hr ht htail
    · refine Ends.done ⟨hkept, used, hne, hused, fun hreg => ?_⟩
      obtain ⟨q, hq, ht, -⟩ := hderives hreg
      exact .one hq ht
  case h_2 => exact ends_syntaxMsg hkept

-- ---------------------------------------------------------------------------
-- Operators
-- ---------------------------------------------------------------------------

theorem ParseEnv.infixFits_eq {op : Atom} {prio curprio opprio oprprio : ℕ}
    (h : env.infixFits op prio curprio = some (opprio, oprprio)) :
    ∃ oplprio, env.isInfixOp op = some (opprio, oplprio, oprprio) ∧ opprio ≤ prio ∧ curprio ≤ oplprio := by
  unfold infixFits at h
  split at h
  case h_1 p lp rp hop =>
    split at h
    case isTrue hfits =>
      cases h
      exact ⟨lp, hop, hfits⟩
    case isFalse => cases h
  case h_2 => cases h

theorem ParseEnv.posfixFits_eq {op : Atom} {prio curprio opprio : ℕ} (h : env.posfixFits op prio curprio = some opprio) :
    ∃ oplprio, env.isPosfixOp op = some (opprio, oplprio) ∧ opprio ≤ prio ∧ curprio ≤ oplprio := by
  unfold posfixFits at h
  split at h
  case h_1 p lp hop =>
    split at h
    case isTrue hfits =>
      cases h
      exact ⟨lp, hop, hfits⟩
    case isFalse => cases h
  case h_2 => cases h

/-- The loop ends where the next token does not go on with the term. -/
theorem ends_stop {prio curprio : ℕ} {t : ReadTerm} {st st' : ParserState} (hkept : Kept st st')
    (htok : st'.tokptr = st.tokptr) (hstop : Stopped env prio curprio st.tokptr) :
    (done t : Parser _).Ends st' (OpsPost env prio curprio t st) (Kept st) := by
  refine Ends.done ⟨hkept, [], by rw [htok]; rfl, fun _ hle ls hls => ⟨curprio, hle, ?_, htok ▸ hstop⟩⟩
  rwa [List.append_nil]

/-- The loop goes on with a longer term. -/
theorem ends_go {n prio curprio p : ℕ} {t t₂ : ReadTerm} {st st₁ : ParserState} {used₁ : List Token}
    (ih : Specs env n) (hn : 4 * st.tokptr.length + 1 ≤ n + 1) (hkept : Kept st st₁) (hne : used₁ ≠ [])
    (hused : st.tokptr = used₁ ++ st₁.tokptr)
    (hgo : Regular env st.tokptr → p ≤ prio ∧ ∀ ls, Derives true env ls curprio t → Derives true env (ls ++ used₁) p t₂) :
    (parseOps env n prio p t₂).Ends st₁ (OpsPost env prio curprio t st) (Kept st) := by
  have hlen := congrArg List.length hused
  have hpos := List.length_pos_iff.mpr hne
  rw [List.length_append] at hlen
  refine (ih.ops prio p t₂ st₁ (by omega)).mono ?_ fun _ => hkept.trans
  rintro t' st₂ ⟨hkept', used', hused', hderives⟩
  refine ⟨hkept.trans hkept', used₁ ++ used', by rw [hused, hused', List.append_assoc], fun hreg _ ls hls => ?_⟩
  obtain ⟨hp, hext⟩ := hgo hreg
  have hend := hderives (hreg.of_suffix ⟨used₁, hused.symm⟩) hp _ (hext ls hls)
  rwa [List.append_assoc] at hend

/-- The loop at a name. -/
theorem specs_ops_name {n : ℕ} (ih : Specs env n) {prio curprio : ℕ} {t : ReadTerm} {st : ParserState}
    {a : Atom} {toks : List Token} (hst : st.tokptr = .name a :: toks) (hn : 4 * st.tokptr.length + 1 ≤ n + 1) :
    (parseOps env (n + 1) prio curprio t).Ends st (OpsPost env prio curprio t st) (Kept st) := by
  have hadvance : ∀ {st' : ParserState}, st'.tokptr = st.tokptr → st'.advance.tokptr = toks := by
    intro st' htok
    rw [ParserState.advance, htok, hst, List.tail_cons]
  have hlen : st.tokptr.length = toks.length + 1 := by rw [hst, List.length_cons]
  have hname : [Token.name a] ≠ [] := List.cons_ne_nil _ _
  rw [parseOps]
  refine Ends.look ?_
  rw [hst]
  simp only
  split_ifs with hop
  · -- as a postfix operator, once it is no infix operator
    have hposfix : ∀ st', Kept st st' → st'.tokptr = st.tokptr →
        (∀ p rp, env.infixFits a prio curprio = some (p, rp) →
          ∃ n st e st', st.tokptr = toks ∧ parseTerm env n rp st = some (.fail e st')) →
        ((env.posfixFits a prio curprio).elim (done t) fun opprio =>
          nextToken.next fun _ => parseOps env n prio opprio (.appl a [t])).Ends st'
          (OpsPost env prio curprio t st) (Kept st) := by
      intro st' hkept htok hinfix
      cases hfits : env.posfixFits a prio curprio with
      | none =>
          refine ends_stop hkept htok ?_
          rw [hst]
          exact ⟨hop, hfits, hinfix⟩
      | some p =>
          obtain ⟨lp, hisop, hp, hlp⟩ := ParseEnv.posfixFits_eq hfits
          have hkept' : Kept st st'.advance := ⟨hkept.le, hkept.slot⟩
          rw [Option.elim_some]
          refine ends_nextToken ?_
          refine ends_go ih hn hkept' hname ?_ fun _ => ?_
          · rw [hst, hadvance htok]
            rfl
          · exact ⟨hp, fun ls hls => .posfixOp hisop hlp hls⟩
    cases hfits : env.infixFits a prio curprio with
    | none => exact hposfix st (Kept.refl st) rfl (by rw [hfits]; rintro p rp ⟨⟩)
    | some op =>
        obtain ⟨p, rp⟩ := op
        obtain ⟨lp, hisop, hp, hlp⟩ := ParseEnv.infixFits_eq hfits
        have hright := (ih.term rp st.advance (by rw [hadvance rfl]; omega)).record
        rw [Option.elim_some]
        refine Ends.attempt (ends_nextToken hright) ?_ ?_
        · rintro t' st₁ ⟨hkept, used, hne, hused, hderives⟩
          rw [hadvance rfl] at hused
          refine ends_go ih hn hkept.advance (List.cons_ne_nil (.name a) used) ?_ fun hreg => ⟨hp, fun ls hls => ?_⟩
          · rw [hst, hused]
            rfl
          · obtain ⟨q, hq, ht', -⟩ := hderives hreg.advance
            exact .infixOp hisop hlp hq hls ht'
        · rintro st₁ ⟨hkept, e, hfail⟩
          refine hposfix _ (hkept.advance.tokptr _) rfl fun p' rp' h => ?_
          rw [hfits] at h
          cases h
          exact ⟨n, st.advance, e, st₁, hadvance rfl, hfail⟩
  · exact ends_syntaxMsg (Kept.refl st)

/-- A bracket as a postfix operator. -/
theorem ends_block {n : ℕ} (ih : Specs env n) {prio curprio opprio : ℕ} {t : ReadTerm} {st : ParserState}
    {c close : Ponctuation} {toks : List Token} {a : Atom} {f : ReadTerm → ReadTerm}
    (hst : st.tokptr = .ponctuation c :: toks) (hn : 4 * st.tokptr.length + 1 ≤ n + 1) (hp : opprio ≤ prio)
    (hgo : Regular env st.tokptr → [Token.ponctuation c, .ponctuation close] <:+: st.tokptr → False)
    (hderives : ∀ args ts, Regular env st.tokptr → DerivesArgs true env args ts → ∀ ls, Derives true env ls curprio t →
      Derives true env (ls ++ .ponctuation c :: (args ++ [.ponctuation close])) opprio (f (applArgs a (t :: ts)))) :
    ((parseArgs env n a close (some t)).next fun t => parseOps env n prio opprio (f t)).Ends st
      (OpsPost env prio curprio t st) (Kept st) := by
  refine Ends.next (ih.args a close (some t) st (by simp [hst]) (by omega)) ?_
  rintro t₁ st₁ ⟨hkept, args, hargs, hblock, -⟩
  rw [hst, List.tail_cons] at hargs
  have hused : st.tokptr = (.ponctuation c :: (args ++ [.ponctuation close])) ++ st₁.tokptr := by
    rw [hst, hargs]
    simp
  refine ends_go ih hn hkept (List.cons_ne_nil _ _) hused fun hreg => ⟨hp, fun ls hls => ?_⟩
  have hne : args ≠ [] := by
    rintro rfl
    exact hgo hreg ⟨[], st₁.tokptr, by rw [hused]; rfl⟩
  obtain ⟨ts, hts, rfl⟩ := hblock hreg (by simp) hne
  exact hderives args ts hreg hts ls hls

theorem specs_ops {n : ℕ} (ih : Specs env n) (prio curprio : ℕ) (t : ReadTerm) (st : ParserState)
    (hn : 4 * st.tokptr.length + 1 ≤ n + 1) :
    (parseOps env (n + 1) prio curprio t).Ends st (OpsPost env prio curprio t st) (Kept st) := by
  cases hst : st.tokptr with
  | nil =>
      rw [parseOps]
      refine Ends.look ?_
      rw [hst]
      exact ends_stop (Kept.refl st) rfl (by rw [hst]; trivial)
  | cons tok toks =>
      cases tok with
      | name a => exact specs_ops_name ih hst hn
      | ponctuation c =>
          have hadvance : st.advance.tokptr = toks := by rw [ParserState.advance, hst, List.tail_cons]
          have hlen : st.tokptr.length = toks.length + 1 := by rw [hst, List.length_cons]
          -- a term and the right argument of an infix operator
          have hinfix : ∀ {p rp : ℕ} {a : Atom}, p ≤ prio →
              (∀ {ls rs q t'}, q ≤ rp → Derives true env ls curprio t → Derives true env rs q t' →
                Derives true env (ls ++ .ponctuation c :: rs) p (.appl a [t, t'])) →
              (nextToken.next fun _ => (parseTerm env n rp).next fun t' => parseOps env n prio p (.appl a [t, t'])).Ends
                st (OpsPost env prio curprio t st) (Kept st) := by
            intro p rp a hp hderives
            refine ends_nextToken (Ends.next ((ih.term rp st.advance (by rw [hadvance]; omega)).mono (fun _ _ => id)
              fun _ => Kept.advance) ?_)
            rintro t' st₁ ⟨hkept, used, -, hused, hright⟩
            rw [hadvance] at hused
            refine ends_go ih hn hkept.advance (List.cons_ne_nil (.ponctuation c) used) ?_
              fun hreg => ⟨hp, fun ls hls => ?_⟩
            · rw [hst, hused]
              rfl
            · obtain ⟨q, hq, ht', -⟩ := hright hreg.advance
              exact hderives hq hls ht'
          -- a bracket that is a postfix operator, or not
          have hstop : (c ≠ .comma ∧ c ≠ .vBar) → (∀ a, blockOp c = some a → env.posfixFits a prio curprio = none) →
              (done t : Parser _).Ends st (OpsPost env prio curprio t st) (Kept st) := by
            intro hc hblock
            refine ends_stop (Kept.refl st) rfl ?_
            rw [hst]
            exact ⟨fun h => absurd h hc.1, fun h => absurd h hc.2, hblock⟩
          rw [parseOps]
          refine Ends.look ?_
          rw [hst]
          simp only
          split_ifs with hcomma hfits hbar hbracket hsquare hcurly
          · subst hcomma
            exact hinfix hfits.1 fun hq hls ht' => .comma hfits.2 hq hls ht'
          · subst hcomma
            refine ends_stop (Kept.refl st) rfl ?_
            rw [hst]
            exact ⟨fun _ => hfits, by rintro ⟨⟩, by rintro a ⟨⟩⟩
          · subst hbar
            cases hfits : env.infixFits atomVBar prio curprio with
            | none =>
                refine ends_stop (Kept.refl st) rfl ?_
                rw [hst]
                exact ⟨by rintro ⟨⟩, fun _ => hfits, by rintro a ⟨⟩⟩
            | some op =>
                obtain ⟨p, rp⟩ := op
                obtain ⟨lp, hisop, hp, hlp⟩ := ParseEnv.infixFits_eq hfits
                exact hinfix hp fun hq hls ht' => .vBar hisop hlp hq hls ht'
          · subst hbracket
            cases hfits : env.posfixFits atomEmptyBrackets prio curprio with
            | none =>
                refine hstop (by decide) ?_
                rintro a ⟨⟩
                exact hfits
            | some p =>
                obtain ⟨lp, hisop, hp, hlp⟩ := ParseEnv.posfixFits_eq hfits
                refine ends_block ih hst hn hp (fun hreg => hreg.brackets (by simp [hisop])) ?_
                intro args ts _ hts ls hls
                rw [applArgs_eq (by simp), compoundTerm, if_neg fun h => absurd h.2.1 (by decide)]
                exact .blockArgs rfl hisop hlp hls hts
          · subst hsquare
            cases hfits : env.posfixFits atomNil prio curprio with
            | none =>
                refine hstop (by decide) ?_
                rintro a ⟨⟩
                exact hfits
            | some p =>
                obtain ⟨lp, hisop, hp, hlp⟩ := ParseEnv.posfixFits_eq hfits
                refine ends_block ih hst hn hp (fun hreg => hreg.squareBrackets (by simp [hisop])) ?_
                intro args ts _ hts ls hls
                rw [applArgs_eq (by simp), compoundTerm, if_neg fun h => absurd h.2.1 (by decide)]
                exact .blockSquare rfl hisop hlp hls hts
          · subst hcurly
            cases hfits : env.posfixFits atomBraces prio curprio with
            | none =>
                refine hstop (by decide) ?_
                rintro a ⟨⟩
                exact hfits
            | some p =>
                obtain ⟨lp, hisop, hp, hlp⟩ := ParseEnv.posfixFits_eq hfits
                have hno : ∀ {P : Prop}, Regular env st.tokptr → P := by
                  intro P hreg
                  rw [hreg.braces] at hisop
                  cases hisop
                exact ends_block ih hst hn hp (fun hreg _ => hno hreg) fun _ _ hreg _ _ _ => hno hreg
          · refine hstop ⟨hcomma, hbar⟩ fun a ha => ?_
            cases c <;> contradiction
      | number k =>
          rw [parseOps]
          refine Ends.look ?_
          rw [hst]
          exact ends_syntaxMsg (Kept.refl st)
      | var v =>
          rw [parseOps]
          refine Ends.look ?_
          rw [hst]
          exact ends_syntaxMsg (Kept.refl st)
      | string t' =>
          rw [parseOps]
          refine Ends.look ?_
          rw [hst]
          exact ends_syntaxMsg (Kept.refl st)
      | _ =>
          rw [parseOps]
          refine Ends.look ?_
          rw [hst]
          exact ends_stop (Kept.refl st) rfl (by rw [hst]; trivial)

-- ---------------------------------------------------------------------------
-- All functions
-- ---------------------------------------------------------------------------

theorem specs (n : ℕ) : Specs env n := by
  induction n with
  | zero =>
      have hfalse : ∀ {P : Prop} {st : ParserState} {k : ℕ}, 4 * st.tokptr.length + (k + 1) ≤ 0 → P := by
        intro P st k h
        omega
      refine ⟨?_, ?_, ?_, ?_, ?_, ?_, ?_⟩
      · exact fun prio st hn => hfalse hn
      · exact fun prio st hn => hfalse hn
      · exact fun prio a st hn => hfalse hn
      · exact fun prio curprio t st hn => hfalse hn
      · intro a close arg1 st hne hn
        have hpos := List.length_pos_iff.mpr hne
        omega
      · exact fun a close p nargs st hsp hn => hfalse hn
      · exact fun st hn => hfalse hn
  | succ n ih =>
      exact ⟨specs_term ih, specs_primary ih, specs_name ih, specs_ops ih, specs_args ih, specs_argLoop ih, specs_list ih⟩

/-- The parser ends, and as its postcondition says. -/
theorem ends_parse (env : ParseEnv) (prio : ℕ) (st : ParserState) :
    (parse env prio).Ends st (TermPost env prio st) (Kept st) :=
  Ends.look ((specs _).term prio st le_rfl)

/-- What an alternative that has failed leaves for the next one: the tokens, and the
    arguments on the stack. -/
structure Restored (st st' : ParserState) : Prop where
  tokptr : st'.tokptr = st.tokptr
  slot : ∀ i < st.auxSp, st'.auxBase i = st.auxBase i

theorem Kept.restored {st st' : ParserState} (h : Kept st st') : Restored st (st.restore st') := ⟨rfl, h.slot⟩

/-- After a prefix operator that has no argument, its name is an atom. -/
theorem parseName_restored {n prio opprio oprprio : ℕ} {a : Atom} {st st₁ : ParserState} {e : SyntaxMsg}
    (hop : env.isPrefixOp a = some (opprio, oprprio)) (hprio : opprio ≤ prio)
    (hminus : minusNumber a st.tokptr.head? = none) (hconst : signedConstant a st.tokptr.head? = none)
    (hl : ¬ isPonctuation .l st.tokptr.head?) (hn : 4 * st.tokptr.length + 2 ≤ n)
    (hfail : parseTerm env n oprprio st = some (.fail e st₁)) :
    ∃ st₂, Restored st st₂ ∧ parseName env (n + 1) prio a st = some (.ok (.atom a, 0) st₂) := by
  have hkept : Kept st st₁ := ((specs n).term oprprio st hn).meets hfail
  refine ⟨st.restore st₁, hkept.restored, ?_⟩
  rw [parseName, look_apply]
  simp only [hminus, hconst, hop, if_neg hl, if_pos hprio, attempt, hfail]
  rfl

/-- After an infix operator that has no right argument, the loop goes on with the same
    left argument. -/
theorem parseOps_restored {n prio curprio opprio oprprio : ℕ} {t : ReadTerm} {a : Atom} {toks : List Token}
    {st st₁ : ParserState} {e : SyntaxMsg} (hst : st.tokptr = .name a :: toks) (hop : env.hasOp a)
    (hfits : env.infixFits a prio curprio = some (opprio, oprprio)) (hn : 4 * st.tokptr.length + 2 ≤ n)
    (hfail : parseTerm env n oprprio st.advance = some (.fail e st₁)) :
    ∃ st₂, Restored st st₂ ∧ parseOps env (n + 1) prio curprio t st =
      ((env.posfixFits a prio curprio).elim (done t) fun opprio =>
        nextToken.next fun _ => parseOps env n prio opprio (.appl a [t])) st₂ := by
  have hlen := st.length_advance
  have hkept : Kept st.advance st₁ := ((specs n).term oprprio st.advance (by omega)).meets hfail
  have hright : (nextToken.next fun _ => parseTerm env n oprprio : Parser _) st = some (.fail e st₁) := hfail
  refine ⟨st.restore st₁, hkept.advance.restored, ?_⟩
  rw [parseOps, look_apply, hst]
  simp only [hop, if_true, hfits, Option.elim_some, attempt, hright]

-- ---------------------------------------------------------------------------
-- The claim about the parser
-- ---------------------------------------------------------------------------

/-- A sign and a name are read as a constant, which operators do not derive. -/
def signEnv : ParseEnv where
  ops a := if a = atomMinus then [⟨none, 200, 0, 0, by decide⟩] else []
  cmod := none
  endCurlyFits := true

def signState : ParserState := ⟨[.name atomMinus, .name atomInf], fun _ => .atom atomNil, 0⟩

theorem Derives.head_of_float {toks : List Token} {q : ℕ} {x : Binary64}
    (h : Derives false env toks q (.number (.float x))) : ∃ tok rest, toks = tok :: rest ∧ ∀ a, tok ≠ .name a := by
  generalize ht : ReadTerm.number (.float x) = t at h
  cases h with
  | number => exact ⟨_, _, rfl, by rintro a ⟨⟩⟩
  | string => exact ⟨_, _, rfl, by rintro a ⟨⟩⟩
  | bracket => exact ⟨_, _, rfl, by rintro a ⟨⟩⟩
  | list => exact ⟨_, _, rfl, by rintro a ⟨⟩⟩
  | compound h =>
      rw [compoundTerm, if_neg (by simp)] at ht
      cases ht
  | minusNumber h => cases h
  | signedConstant h => cases h
  | blockArgs h => cases h
  | blockSquare h => cases h
  | _ => cases ht

end Yap
