-- SUMMARY: The tokens, the terms that the parser builds from them, and the tables of operators.
import Yap.Terms.Term

/-!
# Tokens and operators

The end of a list of tokens is the token that ends the text. A term that is read has
no addresses, and a pair is a term with the functor `./2`. The operators follow
`Yap_GetOpProp` and `Yap_HasOp` of `adtdefs.c` and `IsPrefixOp`, `IsInfixOp` and
`IsPosfixOp` of `parser.c`.
-/

namespace Yap

-- ---------------------------------------------------------------------------
-- Terms
-- ---------------------------------------------------------------------------

/-- A numeral; the sizes of integers are not told apart. -/
inductive Numeral where
  | int (z : ℤ)
  | float (x : Binary64)

/-- The rules for the sign of a numeral. -/
def Numeral.negate : Numeral → Numeral
  | int z => int (-z)
  | float x => float x.negate

theorem infMag_lt : Binary64.infMag < 2 ^ 63 := by decide

/-- `INFINITY`, with a sign. -/
def infinity (neg : Bool) : Binary64 := ⟨neg, Binary64.infMag, infMag_lt⟩

/-- A term that has been read. -/
inductive ReadTerm where
  | var (v : ℕ)
  | number (k : Numeral)
  | atom (a : Atom)
  | appl (f : Atom) (args : List ReadTerm)
  | dbRef (address : ReadTerm)

theorem nul_free_nil : (0 : UInt8) ∉ [91, 93] := by decide

def atomNil : Atom := ⟨[91, 93], nul_free_nil⟩

def termNil : Term := .atom atomNil

def atomBraces : Atom := ⟨[123, 125], by decide⟩

def atomEmptyBrackets : Atom := ⟨[40, 41], by decide⟩

theorem nul_free_comma : (0 : UInt8) ∉ [44] := by decide

def atomComma : Atom := ⟨[44], nul_free_comma⟩

def atomVBar : Atom := ⟨[124], by decide⟩

def atomMinus : Atom := ⟨[45], by decide⟩

theorem nul_free_plus : (0 : UInt8) ∉ [43] := by decide

def atomPlus : Atom := ⟨[43], nul_free_plus⟩

def atomInf : Atom := ⟨[105, 110, 102], by decide⟩

def atomNan : Atom := ⟨[110, 97, 110], by decide⟩

/-- `$dbref`. -/
def atomDBref : Atom := ⟨[36, 100, 98, 114, 101, 102], by decide⟩

namespace ReadTerm

/-- `MkPairTerm`. -/
def pair (head tail : ReadTerm) : ReadTerm := appl atomDot [head, tail]

def list (ts : List ReadTerm) : ReadTerm := ts.foldr pair (atom atomNil)

/-- `Yap_MkApplTerm`: the functor says how many of the arguments count. -/
def mkApplTerm (f : Atom) (arity : ℕ) (args : List ReadTerm) : ReadTerm :=
  if args = [] then atom f else appl f (args.take arity)

end ReadTerm

-- ---------------------------------------------------------------------------
-- Tokens
-- ---------------------------------------------------------------------------

/-- The information of a `Ponctuation_tok`; `l` is a bracket right after a name. -/
inductive Ponctuation where
  | beginBracket | l | endBracket | beginSquareBracket | endSquareBracket
  | beginCurlyBracket | endCurlyBracket | comma | vBar
deriving DecidableEq

/-- `TokEntry`, up to its position. -/
inductive Token where
  | name (a : Atom)
  | number (k : Numeral)
  | var (v : ℕ)
  | string (t : ReadTerm)
  | bqString
  | ponctuation (c : Ponctuation)
  | error
  | quasiQuotes

/-- The token is this punctuation. -/
def isPonctuation (c : Ponctuation) : Option Token → Bool
  | some (.ponctuation d) => d = c
  | _ => false

-- ---------------------------------------------------------------------------
-- Operators
-- ---------------------------------------------------------------------------

/-- A module; `none` is `PROLOG_MODULE`. -/
abbrev Module := Option Atom

def maskPrio : ℕ := 0x0fff

/-- The priority of a definition. -/
def prioOf (p : ℕ) : ℕ := p % (maskPrio + 1)

/-- The priority that `DcrlpFlag` leaves for the left argument. -/
def leftPrioOf (p : ℕ) : ℕ := if p / 0x1000 % 2 = 1 then prioOf p - 1 else prioOf p

/-- The priority that `DcrrpFlag` leaves for the right argument. -/
def rightPrioOf (p : ℕ) : ℕ := if p / 0x2000 % 2 = 1 then prioOf p - 1 else prioOf p

/-- `OpEntry`: one word for each kind of operator, 0 where there is none. `OpDec` sets
    the flags of a word with a priority only. -/
structure OpEntry where
  opModule : Module
  prefixOp : ℕ
  infixOp : ℕ
  posfixOp : ℕ
  prio_pos : ∀ p ∈ [prefixOp, infixOp, posfixOp], p ≠ 0 → 0 < prioOf p

/-- `Yap_GetOpProp`, on the operators of an atom. -/
def getOpProp (type : OpEntry → ℕ) (cmod : Module) (oinfo : Option OpEntry) : List OpEntry → Option OpEntry
  | [] => oinfo
  | info :: pp =>
    if info.opModule ≠ cmod ∧ info.opModule ≠ none then getOpProp type cmod oinfo pp
    else if type info = 0 then getOpProp type cmod oinfo pp
    else if info.opModule = none then getOpProp type cmod (some info) pp
    else some info

/-- What the parser is called with: the operators of each atom, the module, and
    whether the word of a closing curly bracket fits in an `int`. -/
structure ParseEnv where
  ops : Atom → List OpEntry
  cmod : Module
  endCurlyFits : Bool

namespace ParseEnv

variable (env : ParseEnv)

/-- The word of an operator that is visible in the module. -/
def getOp (type : OpEntry → ℕ) (op : Atom) : Option ℕ :=
  match getOpProp type env.cmod none (env.ops op) with
  | none => none
  | some opp =>
    if opp.opModule ≠ none ∧ opp.opModule ≠ env.cmod then none
    else if type opp ≠ 0 then some (type opp)
    else none

/-- `IsPrefixOp`: the priorities of the operator and of its argument. -/
def isPrefixOp (op : Atom) : Option (ℕ × ℕ) :=
  (env.getOp OpEntry.prefixOp op).map fun p => (prioOf p, rightPrioOf p)

/-- `IsInfixOp`: the priorities of the operator and of its arguments. -/
def isInfixOp (op : Atom) : Option (ℕ × ℕ × ℕ) :=
  (env.getOp OpEntry.infixOp op).map fun p => (prioOf p, leftPrioOf p, rightPrioOf p)

/-- `IsPosfixOp`: the priorities of the operator and of its argument. -/
def isPosfixOp (op : Atom) : Option (ℕ × ℕ) :=
  (env.getOp OpEntry.posfixOp op).map fun p => (prioOf p, leftPrioOf p)

/-- `Yap_HasOp`. -/
def hasOp (op : Atom) : Bool := !(env.ops op).isEmpty

/-- The priorities of an infix operator and of its right argument, after a term of a
    priority and in a context. -/
def infixFits (op : Atom) (prio curprio : ℕ) : Option (ℕ × ℕ) :=
  match env.isInfixOp op with
  | some (opprio, oplprio, oprprio) =>
    if opprio ≤ prio ∧ curprio ≤ oplprio then some (opprio, oprprio) else none
  | none => none

/-- The priority of a postfix operator, after a term of a priority and in a context. -/
def posfixFits (op : Atom) (prio curprio : ℕ) : Option ℕ :=
  match env.isPosfixOp op with
  | some (opprio, oplprio) => if opprio ≤ prio ∧ curprio ≤ oplprio then some opprio else none
  | none => none

end ParseEnv

end Yap
