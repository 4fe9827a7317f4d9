-- SUMMARY: The evaluator of arithmetic expressions on cyclic term graphs: the marks it leaves in functor cells, its exits, and what holds of the functor cells after each of them.
import Yap.Base.Recursion
import Yap.Arith.Gmp
import Yap.Heap.Store
import Yap.Parse.Tokens

/-!
# Evaluation

`Eval` and `get_matrix_element` of `eval.c`. Every compound on the path of the
recursion has its functor cell overwritten by a mark, and an error restores the
cells of the path before it is thrown. The operators are parameters: they take
numbers, or the null term, and return a number, the null term or an error.
-/

namespace Yap

-- ---------------------------------------------------------------------------
-- The state
-- ---------------------------------------------------------------------------

/-- A functor cell, or the mark `AtomFoundVar` in its place. -/
inductive HeadCell where
  | cell (f : FunctorCell)
  | foundVar

/-- The functor cells, and `LOCAL_ctx`: the overwritten cells with what they
held, the last one first. -/
@[ext]
structure EvalState where
  head : Addr → HeadCell
  ctx : List (Addr × Functor)

inductive Culprit where
  | word (c : Cell)
  | indicator (name : Atom) (arity : ℕ)
  | term (t : Term)
  | nil

structure EvalError where
  id : ErrorId
  culprit : Culprit
  text : String

/-- How an evaluation ends. A value may be the null term of `RERROR`. The code has
no defined behaviour where it reads a cell that is not part of the term. -/
inductive EvalResult where
  | value (t : Option Term)
  | thrown (e : EvalError)
  | undefined

namespace EvalState

/-- The state between two evaluations. -/
def start (hp : Heap) : EvalState := ⟨fun p => .cell (hp.functorAt p), []⟩

/-- `*RepAppl(t) = AtomFoundVar` and the new context. -/
def mark (st : EvalState) (p : Addr) (f : Functor) : EvalState where
  head := Function.update st.head p .foundVar
  ctx := (p, f) :: st.ctx

/-- `*RepAppl(t) = fun` and the context before. -/
def unmark (st : EvalState) (p : Addr) (f : Functor) (ctx : List (Addr × Functor)) : EvalState where
  head := Function.update st.head p (.cell (.functor f))
  ctx := ctx

/-- The loop of `Yap_ArithError` over the contexts. -/
def restoreHeads : List (Addr × Functor) → (Addr → HeadCell) → Addr → HeadCell
  | [], head => head
  | (fp, f) :: ctx, head => restoreHeads ctx (Function.update head fp (.cell (.functor f)))

def restore (st : EvalState) : EvalState := ⟨restoreHeads st.ctx st.head, []⟩

/-- `Yap_ArithError`. -/
def arithError (st : EvalState) (id : ErrorId) (culprit : Culprit) (text : String) :
    EvalState × EvalResult :=
  (st.restore, .thrown ⟨id, culprit, text⟩)

/-- The end of an operator. -/
def finish (st : EvalState) : Except EvalError (Option Term) → EvalState × EvalResult
  | .ok t => (st, .value t)
  | .error e => (st.restore, .thrown e)

end EvalState

-- ---------------------------------------------------------------------------
-- The evaluator
-- ---------------------------------------------------------------------------

/-- The expression properties of atoms with the operators that they name. -/
structure Evaluables where
  eval0 : Atom → Option (Except EvalError (Option Term))
  eval1 : Atom → Option (Option Term → Except EvalError (Option Term))
  eval2 : Atom → Option (Option Term → Option Term → Except EvalError (Option Term))

/-- `Eval`, the loop of `get_matrix_element`, and the subscript with an index in
the loop. -/
inductive EvalCall where
  | eval (t : Cell)
  | element (t1 t2 : Cell)
  | subscript (t1 : Cell) (indx : Word) (t2 : Cell)

/-- The only atom with the operator `op_power`. -/
def atomHat : Atom := ⟨[94], by decide⟩

/-- A body of the evaluator. -/
abbrev EvalBody : Type := Body (EvalCall × EvalState) (EvalState × EvalResult)

/-- `IntegerOfTerm`, of an integer term. The null term is none. -/
def integerOfValue (t : Option Term) : Option Word :=
  match t.map eTypeOfTerm with
  | some (.longInt i) => some i
  | _ => none

variable (ev : Evaluables) (s : Store) (foundVarArity : ℕ)

/-- `ArgOfTerm`, and `HeadOfTerm` and `TailOfTerm`. -/
def argOfTerm (p : Addr) (i : ℕ) : Cell := s.deref (.ref (p + i))

/-- Boxes: a number is its own value, a string of one character has its code, and
the functor of a database reference has no entry to read. -/
def evalBlob (st : EvalState) (p : Addr) (b : Blob) : EvalState × EvalResult :=
  match b with
  | .double _ | .longInt _ | .bigInt _ => (st, .value (some (.blob p b)))
  | .string str =>
    match str.bytes with
    | [] => (st, .value (some (mkIntTerm 0)))
    | [c] => (st, .value (some (mkIntTerm (c.toBitVec.signExtend 64))))
    | _ =>
      st.arithError .typeErrorEvaluable (.word (.nonvar (.appl p))) "string in arithmetic expression"
  | .dbRef => (st, .undefined)

/-- The part of `Eval` that goes on with a value, and hands on the other ends. -/
def onValue (k : EvalState → Option Term → EvalBody) : EvalState × EvalResult → EvalBody
  | (st, .value t) => k st t
  | (st, .thrown e) => .ret (st, .thrown e)
  | (st, .undefined) => .ret (st, .undefined)

/-- A compound with one argument. -/
def evalUnary (op : Option Term → Except EvalError (Option Term)) (st : EvalState) (p : Addr)
    (f : Functor) : EvalBody :=
  .call (.eval (argOfTerm s p 1), st.mark p f) (onValue fun st1 t1 =>
    .ret ((st1.unmark p f st.ctx).finish (op t1)))

/-- A compound with two arguments. -/
def evalBinary (op : Option Term → Option Term → Except EvalError (Option Term)) (st : EvalState)
    (p : Addr) (f : Functor) : EvalBody :=
  .call (.eval (argOfTerm s p 1), st.mark p f) (onValue fun st1 t1 =>
    .call (.eval (argOfTerm s p 2), st1) (onValue fun st2 t2 =>
      .ret ((st2.unmark p f st.ctx).finish (op t1 t2))))

/-- A compound with two arguments, or the access `Matrix ^ [I1, ..., In]`, which is
not marked. -/
def evalAccess (op : Option Term → Option Term → Except EvalError (Option Term)) (st : EvalState)
    (p : Addr) (f : Functor) : EvalBody :=
  match argOfTerm s p 2 with
  | .nonvar (.pair q) =>
    if f.nameOfFE = atomHat then .call (.element (argOfTerm s p 1) (.nonvar (.pair q)), st) .ret
    else evalBinary s op st p f
  | _ => evalBinary s op st p f

/-- A compound that is not marked. -/
def evalCompound (st : EvalState) (p : Addr) (f : Functor) : EvalBody :=
  let unknown : EvalBody :=
    .ret (st.arithError .typeErrorEvaluable (.indicator f.nameOfFE f.arityOfFE)
      "functor %s/%d for arithmetic expression")
  if f.arityOfFE = 1 then (ev.eval1 f.nameOfFE).elim unknown fun op => evalUnary s op st p f
  else if f.arityOfFE = 2 then
    (ev.eval2 f.nameOfFE).elim unknown fun op => evalAccess s op st p f
  else unknown

/-- The arity that the code reads from a functor cell. A mark is an atom, which has
its text there. -/
def EvalState.arityRead (st : EvalState) (p : Addr) : Option ℕ :=
  match st.head p with
  | .cell (.functor f) => some f.arityOfFE
  | .cell (.blob _) => none
  | .foundVar => some foundVarArity

/-- The number of argument cells. -/
def EvalState.argCells (st : EvalState) (p : Addr) : ℕ :=
  match st.head p with
  | .cell (.functor f) => f.arityOfFE
  | .cell (.blob _) => 0
  | .foundVar => ((st.ctx.lookup p).map Functor.arityOfFE).getD 0

/-- `Eval` of a dereferenced word. -/
def evalWord (st : EvalState) (t : Cell) : EvalBody :=
  match t with
  | .ref _ => .ret (st.arithError .instantiationError (.word t) "in arithmetic")
  | .nonvar (.int n) => .ret (st, .value (some (.int n)))
  | .nonvar (.atom a) =>
    (ev.eval0 a).elim
      (.ret (st.arithError .typeErrorEvaluable (.indicator a 0) "atom %s in arithmetic expression"))
      fun r => .ret (st.finish r)
  | .nonvar (.appl p) =>
    match st.head p with
    | .foundVar =>
      .ret (st.arithError .typeErrorEvaluable .nil "cyclic term in arithmetic expression")
    | .cell (.blob b) => .ret (evalBlob st p b)
    | .cell (.functor f) => evalCompound ev s st p f
  | .nonvar (.pair p) =>
    if argOfTerm s p 1 = .nonvar (.atom atomNil) then .call (.eval (argOfTerm s p 0), st) .ret
    else .ret (st.arithError .typeErrorEvaluable (.word t)
      "string must contain a single character to be evaluated as an arithmetic expression")

/-- `get_matrix_element` before an index. It is only called with a list. -/
def matrixElement (st : EvalState) (t1 t2 : Cell) : EvalBody :=
  match t2 with
  | .nonvar (.pair q) =>
    .call (.eval (argOfTerm s q 0), st) (onValue fun st' indxt =>
      match integerOfValue indxt with
      | some indx => .call (.subscript t1 indx (argOfTerm s q 1), st') .ret
      | none => .ret (st'.arithError .typeErrorEvaluable (.word t2) "X is Y^[A]"))
  | _ =>
    if t2 = .nonvar (.atom atomNil) then .call (.eval t1, st) .ret
    else .ret (st.arithError .typeErrorEvaluable (.word t2) "X is Y^[A]")

/-- `get_matrix_element` with an index. The comparison with the arity is unsigned. -/
def matrixSubscript (st : EvalState) (t1 : Cell) (indx : Word) (t2 : Cell) : EvalBody :=
  match t1 with
  | .nonvar (.appl p) =>
    match st.arityRead foundVarArity p with
    | none => .ret (st, .undefined)
    | some arity =>
      if arity < indx.toNat then .ret (st.arithError .typeErrorEvaluable (.word t1) "X is Y^[A]")
      else if 0 < indx.toNat ∧ indx.toNat ≤ st.argCells p then
        .call (.element (argOfTerm s p indx.toNat) t2, st) .ret
      else .ret (st, .undefined)
  | _ => .ret (st.arithError .typeErrorEvaluable (.word t1) "X is Y^[A]")

def evalBody : EvalCall × EvalState → EvalBody
  | (.eval t, st) => evalWord ev s st t
  | (.element t1 t2, st) => matrixElement s st t1 t2
  | (.subscript t1 indx t2, st) => matrixSubscript s foundVarArity st t1 indx t2

-- ---------------------------------------------------------------------------
-- The functor cells after an evaluation
-- ---------------------------------------------------------------------------

/-- A value leaves the state as it was, and an error leaves the state that the
contexts restore. -/
def EvalState.Restored (st : EvalState) : EvalState × EvalResult → Prop
  | (st', .value _) => st' = st
  | (st', .thrown _) => st' = st.restore
  | (_, .undefined) => True

namespace EvalState

variable {st : EvalState} {p : Addr} {f : Functor}

theorem update_head (h : st.head p = .cell (.functor f)) :
    Function.update (Function.update st.head p .foundVar) p (.cell (.functor f)) = st.head := by
  rw [Function.update_idem, ← h, Function.update_eq_self]

/-- The cell of a compound holds its functor again. -/
theorem unmark_mark (h : st.head p = .cell (.functor f)) :
    (st.mark p f).unmark p f st.ctx = st := by
  ext1
  · exact update_head h
  · rfl

theorem restore_mark (h : st.head p = .cell (.functor f)) : (st.mark p f).restore = st.restore := by
  unfold restore
  rw [mark, restoreHeads, update_head h]

theorem restored_arithError (id : ErrorId) (c : Culprit) (text : String) :
    st.Restored (st.arithError id c text) := rfl

theorem restored_finish (r : Except EvalError (Option Term)) : st.Restored (st.finish r) := by
  cases r <;> rfl

theorem restored_evalBlob (b : Blob) : st.Restored (evalBlob st p b) := by
  cases b with
  | string str =>
    simp only [evalBlob]
    split
    · rfl
    · rfl
    · exact restored_arithError _ _ _
  | dbRef => trivial
  | _ => rfl

end EvalState

/-- The contract of the calls of the evaluator. -/
def EvalContract (c : EvalCall × EvalState) : EvalState × EvalResult → Prop := c.2.Restored

variable {ev s foundVarArity} {st : EvalState}

/-- A call that is made from the state `st1` and whose ends are handed on, apart
from values. -/
theorem keeps_onValue {post : EvalState × EvalResult → Prop} {st1 : EvalState} {c : EvalCall}
    {k : EvalState → Option Term → EvalBody}
    (hvalue : ∀ t, Body.Keeps EvalContract post (k st1 t))
    (hthrown : ∀ e, post (st1.restore, .thrown e)) (hundef : ∀ st', post (st', .undefined)) :
    Body.Keeps EvalContract post (.call (c, st1) (onValue k)) := by
  rintro ⟨st', r⟩ hr
  cases r with
  | value t =>
    obtain rfl : st' = st1 := hr
    exact hvalue t
  | thrown e =>
    obtain rfl : st' = st1.restore := hr
    exact hthrown e
  | undefined => exact hundef st'

theorem keeps_evalUnary (op : Option Term → Except EvalError (Option Term)) {p : Addr} {f : Functor}
    (h : st.head p = .cell (.functor f)) :
    Body.Keeps EvalContract st.Restored (evalUnary s op st p f) := by
  refine keeps_onValue (fun t => ?_) (fun e => ?_) fun st' => trivial
  · change st.Restored _
    rw [EvalState.unmark_mark h]
    exact EvalState.restored_finish _
  · exact EvalState.restore_mark h

theorem keeps_evalBinary (op : Option Term → Option Term → Except EvalError (Option Term)) {p : Addr}
    {f : Functor} (h : st.head p = .cell (.functor f)) :
    Body.Keeps EvalContract st.Restored (evalBinary s op st p f) := by
  refine keeps_onValue (fun t1 => ?_) (fun e => ?_) fun st' => trivial
  · refine keeps_onValue (fun t2 => ?_) (fun e => ?_) fun st' => trivial
    · change st.Restored _
      rw [EvalState.unmark_mark h]
      exact EvalState.restored_finish _
    · exact EvalState.restore_mark h
  · exact EvalState.restore_mark h

/-- A call whose end is the end of the body. -/
theorem keeps_tail (c : EvalCall) : Body.Keeps EvalContract st.Restored (.call (c, st) .ret) :=
  fun _ hw => hw

theorem keeps_evalAccess (op : Option Term → Option Term → Except EvalError (Option Term)) {p : Addr}
    {f : Functor} (h : st.head p = .cell (.functor f)) :
    Body.Keeps EvalContract st.Restored (evalAccess s op st p f) := by
  unfold evalAccess
  split
  · split
    · exact keeps_tail _
    · exact keeps_evalBinary op h
  · exact keeps_evalBinary op h

theorem keeps_evalCompound {p : Addr} {f : Functor} (h : st.head p = .cell (.functor f)) :
    Body.Keeps EvalContract st.Restored (evalCompound ev s st p f) := by
  unfold evalCompound
  split
  · cases ev.eval1 f.nameOfFE with
    | none => exact EvalState.restored_arithError _ _ _
    | some op => exact keeps_evalUnary op h
  · split
    · cases ev.eval2 f.nameOfFE with
      | none => exact EvalState.restored_arithError _ _ _
      | some op => exact keeps_evalAccess op h
    · exact EvalState.restored_arithError _ _ _

theorem keeps_evalWord (t : Cell) : Body.Keeps EvalContract st.Restored (evalWord ev s st t) := by
  unfold evalWord
  split
  · exact EvalState.restored_arithError _ _ _
  · rfl
  · rename_i a
    cases ev.eval0 a with
    | none => exact EvalState.restored_arithError _ _ _
    | some r => exact EvalState.restored_finish r
  · split
    · exact EvalState.restored_arithError _ _ _
    · exact EvalState.restored_evalBlob _
    · rename_i f hf
      exact keeps_evalCompound hf
  · split
    · exact keeps_tail _
    · exact EvalState.restored_arithError _ _ _

theorem keeps_matrixElement (t1 t2 : Cell) :
    Body.Keeps EvalContract st.Restored (matrixElement s st t1 t2) := by
  unfold matrixElement
  split
  · refine keeps_onValue (fun indxt => ?_) (fun e => rfl) fun st' => trivial
    split
    · exact keeps_tail _
    · exact EvalState.restored_arithError _ _ _
  · split
    · exact keeps_tail _
    · exact EvalState.restored_arithError _ _ _

theorem keeps_matrixSubscript (t1 : Cell) (indx : Word) (t2 : Cell) :
    Body.Keeps EvalContract st.Restored (matrixSubscript s foundVarArity st t1 indx t2) := by
  unfold matrixSubscript
  split
  · split
    · trivial
    · split
      · exact EvalState.restored_arithError _ _ _
      · split
        · exact keeps_tail _
        · trivial
  · exact EvalState.restored_arithError _ _ _

/-- Every body keeps the contract. -/
theorem keeps_evalBody (c : EvalCall × EvalState) :
    Body.Keeps EvalContract (EvalContract c) (evalBody ev s foundVarArity c) := by
  rcases c with ⟨t | ⟨t1, t2⟩ | ⟨t1, indx, t2⟩, st⟩
  · exact keeps_evalWord t
  · exact keeps_matrixElement t1 t2
  · exact keeps_matrixSubscript t1 indx t2

/-- When an evaluation that starts between two others gives a value or raises an
error, every functor cell holds what it held before. -/
theorem eval_restores_heads (ev : Evaluables) (s : Store) (foundVarArity : ℕ) (hp : Heap) (t : Cell)
    {n : ℕ} {st : EvalState} {r : EvalResult}
    (h : Body.run (evalBody ev s foundVarArity) n (.eval t, .start hp) = some (st, r))
    (hr : r ≠ .undefined) : st = .start hp := by
  have hcontract := Body.Returns.contract keeps_evalBody ⟨n, h⟩
  cases r with
  | value t => exact hcontract
  | thrown e => exact hcontract
  | undefined => exact absurd rfl hr

/-- `- X` where `X = - X`, at the address 0. -/
def cyclicMinus : Addr → Option Nonvar
  | 1 => some (.appl 0)
  | _ => none

def minusHeap : Heap := ⟨fun _ => .functor ⟨atomMinus, 1, by decide, by decide⟩, 2⟩

/-- The cycle is found under the mark of the compound, which the error takes away. -/
theorem eval_restores_heads_cyclicMinus :
    Body.run (evalBody ⟨fun _ => none, fun _ => some .ok, fun _ => none⟩ (.ofWords cyclicMinus) 0) 3
      (.eval (.nonvar (.appl 0)), .start minusHeap) = some (.start minusHeap,
        .thrown ⟨.typeErrorEvaluable, .nil, "cyclic term in arithmetic expression"⟩) := by
  have harg : argOfTerm (.ofWords cyclicMinus) 0 1 = .nonvar (.appl 0) := Store.deref_ofWords _ 1
  obtain ⟨st, h⟩ : ∃ st, Body.run
      (evalBody ⟨fun _ => none, fun _ => some .ok, fun _ => none⟩ (.ofWords cyclicMinus) 0) 3
      (.eval (.nonvar (.appl 0)), .start minusHeap) =
        some (st, .thrown ⟨.typeErrorEvaluable, .nil, "cyclic term in arithmetic expression"⟩) := by
    refine ⟨((EvalState.start minusHeap).mark 0 ⟨atomMinus, 1, by decide, by decide⟩).restore, ?_⟩
    simp only [Body.run, evalBody, evalWord, EvalState.start, minusHeap, evalCompound, evalUnary, harg]
    rfl
  obtain rfl := eval_restores_heads _ _ 0 minusHeap _ h (fun h => by cases h)
  exact h

end Yap
