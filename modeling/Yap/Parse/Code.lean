-- SUMMARY: The recursive descent parser with its loop over operators, its stack of arguments and its alternatives.
import Yap.Base.Backtrack
import Yap.Parse.Tokens

/-!
# The parser

The functions follow `ParseTerm`, `ParseArgs`, `ParseList`, `MakeAccessor` and
`checkfor` of `parser.c`. The recursion is on fuel. The stacks are as large as needed.
-/

namespace Yap

-- ---------------------------------------------------------------------------
-- States
-- ---------------------------------------------------------------------------

/-- The tokens left, and the stack of arguments with its top. -/
structure ParserState where
  tokptr : List Token
  auxBase : ℕ → ReadTerm
  auxSp : ℕ

/-- What `syntax_msg` is called with: the text, and the token it speaks of. -/
structure SyntaxMsg where
  text : String
  token : Option Token

abbrev Parser := Backtrack ParserState SyntaxMsg

open Backtrack

namespace ParserState

/-- Where an alternative has failed: `TRY` and `TRY3` put the token pointer back. -/
def restore (saved st : ParserState) : ParserState := { st with tokptr := saved.tokptr }

def advance (st : ParserState) : ParserState := { st with tokptr := st.tokptr.tail }

def push (i : ℕ) (t : ReadTerm) (st : ParserState) : ParserState :=
  { st with auxBase := Function.update st.auxBase i t, auxSp := i + 1 }

end ParserState

/-- `NextToken`. -/
def nextToken : Parser Unit := modify ParserState.advance

/-- `LOCAL_ParserAuxSp = LOCAL_ParserAuxBase + p`. -/
def setAuxSp (p : ℕ) : Parser Unit := modify fun st => { st with auxSp := p }

/-- `syntax_msg` and `FAIL`. -/
def syntaxMsg {α : Type} (text : String) : Parser α := look fun st => failWith ⟨text, st.tokptr.head?⟩

def checkfor (c : Ponctuation) : Parser Unit := look fun st =>
  if isPonctuation c st.tokptr.head? then nextToken
  else syntaxMsg "line %d: expected to find '%c....................................', found %s"

def maxPriority : ℕ := 1200

-- ---------------------------------------------------------------------------
-- Terms
-- ---------------------------------------------------------------------------

/-- The number that a minus sign before it makes negative. -/
def minusNumber (a : Atom) : Option Token → Option Numeral
  | some (.number k) => if a = atomMinus then some k.negate else none
  | _ => none

/-- The constants that a sign and a name stand for. -/
def signedConstant (a : Atom) : Option Token → Option Binary64
  | some (.name b) =>
    if a = atomPlus then
      if b = atomInf then some (infinity false)
      else if b = atomNan then some Binary64.nan
      else none
    else if a = atomMinus then
      if b = atomInf then some (infinity true)
      else if b = atomNan then some Binary64.nan
      else none
    else none
  | _ => none

/-- The term that `ParseArgs` builds. -/
def applArgs (a : Atom) (args : List ReadTerm) : ReadTerm :=
  if a = atomDBref ∧ args.length = 2 then .dbRef (args.headD (.atom atomNil))
  else .mkApplTerm a args.length args

/-- `MakeAccessor`, with the arity of its functor. -/
def makeAccessor (t : ReadTerm) (f : Atom) (arity : ℕ) : ReadTerm :=
  match t with
  | .appl _ (arg :: args) => .mkApplTerm f arity [.list args, arg]
  | t => t

variable (env : ParseEnv)

mutual

/-- `ParseTerm`. -/
def parseTerm : ℕ → ℕ → Parser ReadTerm
  | 0, _ => outOfFuel
  | n + 1, prio => (parsePrimary n prio).next fun r => parseOps n prio r.2 r.1

/-- The switch on the first token: a term and its priority. -/
def parsePrimary : ℕ → ℕ → Parser (ReadTerm × ℕ)
  | 0, _ => outOfFuel
  | n + 1, prio => look fun st =>
    match st.tokptr with
    | .name a :: _ => nextToken.next fun _ => parseName n prio a
    | .number k :: _ => nextToken.next fun _ => done (.number k, 0)
    | .string t :: _ => nextToken.next fun _ => done (t, 0)
    | .var v :: _ => nextToken.next fun _ => done (.var v, 0)
    | .error :: _ => syntaxMsg "line %d: found ill-formed \"%s\""
    | .ponctuation c :: _ =>
      if c = .beginBracket ∨ c = .l then
        nextToken.next fun _ => (parseTerm n maxPriority).next fun t =>
          (checkfor .endBracket).next fun _ => done (t, 0)
      else if c = .beginSquareBracket then
        nextToken.next fun _ => look fun st =>
          if isPonctuation .endSquareBracket st.tokptr.head? then
            nextToken.next fun _ => done (.atom atomNil, 0)
          else
            (parseList n).next fun t => (checkfor .endSquareBracket).next fun _ => done (t, 0)
      else if c = .beginCurlyBracket then
        nextToken.next fun _ => look fun st =>
          if isPonctuation .endCurlyBracket st.tokptr.head? ∧ env.endCurlyFits then
            nextToken.next fun _ => done (.atom atomBraces, 0)
          else
            (parseTerm n maxPriority).next fun t =>
              (checkfor .endCurlyBracket).next fun _ => done (.appl atomBraces [t], 0)
      else syntaxMsg "line %d: unexpected ponctuation signal %s"
    | _ => syntaxMsg "line %d: expected operator, got '%s'"

/-- The case of a name, after it. -/
def parseName : ℕ → ℕ → Atom → Parser (ReadTerm × ℕ)
  | 0, _, _ => outOfFuel
  | n + 1, prio, a => look fun st =>
    match minusNumber a st.tokptr.head? with
    | some k => nextToken.next fun _ => done (.number k, 0)
    | none =>
      if isPonctuation .l st.tokptr.head? then
        (parseArgs n a .endBracket none).next fun t => done (t, 0)
      else
        match env.isPrefixOp a with
        | none => done (.atom a, 0)
        | some (opprio, oprprio) =>
          match signedConstant a st.tokptr.head? with
          | some x => nextToken.next fun _ => done (.number (.float x), 0)
          | none =>
            if opprio ≤ prio then
              attempt ParserState.restore (parseTerm n oprprio) (fun t => done (.appl a [t], opprio))
                (done (.atom a, 0))
            else done (.atom a, 0)

/-- The loop over infix and postfix operators. -/
def parseOps : ℕ → ℕ → ℕ → ReadTerm → Parser ReadTerm
  | 0, _, _, _ => outOfFuel
  | n + 1, prio, curprio, t => look fun st =>
    match st.tokptr with
    | .name a :: _ =>
      if env.hasOp a then
        let posfix : Parser ReadTerm := (env.posfixFits a prio curprio).elim (done t) fun opprio =>
          nextToken.next fun _ => parseOps n prio opprio (.appl a [t])
        (env.infixFits a prio curprio).elim posfix fun op =>
          attempt ParserState.restore (nextToken.next fun _ => parseTerm n op.2)
            (fun t' => parseOps n prio op.1 (.appl a [t, t'])) posfix
      else syntaxMsg "line %d: expected operator, got '%s'"
    | .ponctuation c :: _ =>
      if c = .comma then
        if 1000 ≤ prio ∧ curprio ≤ 999 then
          nextToken.next fun _ => (parseTerm n 1000).next fun t' => parseOps n prio 1000 (.appl atomComma [t, t'])
        else done t
      else if c = .vBar then
        (env.infixFits atomVBar prio curprio).elim (done t) fun op =>
          nextToken.next fun _ => (parseTerm n op.2).next fun t' => parseOps n prio op.1 (.appl atomVBar [t, t'])
      else if c = .beginBracket then
        (env.posfixFits atomEmptyBrackets prio curprio).elim (done t) fun opprio =>
          (parseArgs n atomEmptyBrackets .endBracket (some t)).next fun t => parseOps n prio opprio t
      else if c = .beginSquareBracket then
        (env.posfixFits atomNil prio curprio).elim (done t) fun opprio =>
          (parseArgs n atomNil .endSquareBracket (some t)).next fun t =>
            parseOps n prio opprio (makeAccessor t atomNil 2)
      else if c = .beginCurlyBracket then
        (env.posfixFits atomBraces prio curprio).elim (done t) fun opprio =>
          (parseArgs n atomBraces .endCurlyBracket (some t)).next fun t =>
            -- `FunctorBraces` has one argument
            parseOps n prio opprio (makeAccessor t atomBraces 1)
      else done t
    | .number _ :: _ => syntaxMsg "line %d: expected operator, got '%s'"
    | .var _ :: _ => syntaxMsg "line %d: expected operator, got '%s'"
    | .string _ :: _ => syntaxMsg "line %d: expected operator, got '%s'"
    | _ => done t

/-- `ParseArgs`. -/
def parseArgs : ℕ → Atom → Ponctuation → Option ReadTerm → Parser ReadTerm
  | 0, _, _, _ => outOfFuel
  | n + 1, a, close, arg1 => nextToken.next fun _ => look fun st =>
    match arg1 with
    | none => parseArgLoop n a close st.auxSp 0
    | some t₁ =>
      (modify (ParserState.push st.auxSp t₁)).next fun _ => look fun st' =>
        if isPonctuation close st'.tokptr.head? then
          -- the argument is looked for above the new top of the stack
          nextToken.next fun _ => (setAuxSp st.auxSp).next fun _ =>
            done (.mkApplTerm a 1 [st'.auxBase (st'.auxSp + st.auxSp)])
        else parseArgLoop n a close st.auxSp 1

/-- The loop of `ParseArgs`, with `nargs` arguments above `p` on the stack. -/
def parseArgLoop : ℕ → Atom → Ponctuation → ℕ → ℕ → Parser ReadTerm
  | 0, _, _, _, _ => outOfFuel
  | n + 1, a, close, p, nargs => look fun st =>
    (parseTerm n 999).next fun t => (modify (ParserState.push st.auxSp t)).next fun _ => look fun st =>
      if isPonctuation .comma st.tokptr.head? then
        nextToken.next fun _ => parseArgLoop n a close p (nargs + 1)
      else
        (setAuxSp p).next fun _ => (checkfor close).next fun _ =>
          done (applArgs a ((List.range' p (nargs + 1)).map st.auxBase))

/-- `ParseList`. -/
def parseList : ℕ → Parser ReadTerm
  | 0 => outOfFuel
  | n + 1 => (parseTerm n 999).next fun head => look fun st =>
    match st.tokptr with
    | .ponctuation c :: _ =>
      if c = .comma then
        nextToken.next fun _ => (parseList n).next fun tail => done (.pair head tail)
      else if c = .vBar then
        nextToken.next fun _ => (parseTerm n 999).next fun tail => done (.pair head tail)
      else done (.pair head (.atom atomNil))
    | _ => syntaxMsg "line %d: looking for symbol ',','|' got symbol '%s'"

end

/-- `ParseTerm` with fuel for all of its calls. -/
def parse (prio : ℕ) : Parser ReadTerm := look fun st => parseTerm env (4 * st.tokptr.length + 2) prio

end Yap
