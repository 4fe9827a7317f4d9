-- SUMMARY: sub_atom/5 and sub_string/5: the deterministic modes, the modes that backtrack, and their enumerations.
import Yap.Text.Concat

/-!
# Parts of a text

The functions follow `sub_atomic`, `cont_sub_atomic`, `build_new_atomic` and
`check_sub_string_at` of `atomic.c` and `cmpn_utf8` of `YapUTF8.h`. The text and a given
part are bytes, as in `Concat`; positions and lengths are values of `size_t`.
-/

namespace Yap

-- ---------------------------------------------------------------------------
-- Sizes
-- ---------------------------------------------------------------------------

/-- The difference of two values of `size_t`. -/
def sizeSub (a b : ℕ) : ℕ := (a + 0x10000000000000000 - b) % 0x10000000000000000

/-- The sum of two values of `size_t`. -/
def sizeAdd (a b : ℕ) : ℕ := (a + b) % 0x10000000000000000

/-- A `size_t` as an `Int`. -/
def sizeToInt (a : ℕ) : ℤ := Int.bmod a 0x10000000000000000

/-- A `size_t` as an `int`. -/
def sizeToCInt (a : ℕ) : ℤ := Int.bmod a 0x100000000

/-- The integers that `IsIntegerTerm` accepts. -/
def IsWord (z : ℤ) : Prop := -0x8000000000000000 ≤ z ∧ z < 0x8000000000000000

instance (z : ℤ) : Decidable (IsWord z) := inferInstanceAs (Decidable (_ ∧ _))

-- ---------------------------------------------------------------------------
-- Comparing
-- ---------------------------------------------------------------------------

/-- `cmpn_utf8` gives 0. Of a character of three or four bytes it compares the first and
    the last byte only. The texts end in NUL; on a byte that starts no character the
    pointers leave them. -/
def cmpnUtf8 (pt1 pt2 : List ℕ) : ℕ → Bool
  | 0 => true
  | n + 1 =>
    if pt1.getD 0 0 ≠ pt2.getD 0 0 then false
    else
      match iterate pt1 with
      | none => false
      | some (_, l) =>
        if l ≠ 1 ∧ pt1.getD (l - 1) 0 ≠ pt2.getD (l - 1) 0 then false
        else cmpnUtf8 (pt1.drop l) (pt2.drop l) n

/-- `check_sub_string_at`. -/
def checkSubStringAt (minv : ℕ) (p1 p2 : List ℕ) (len : ℕ) : Bool :=
  cmpnUtf8 (skipUtf8 p1 (sizeToCInt minv).toNat) p2 len

/-- `check_sub_string_bef`. -/
def checkSubStringBef (max : ℕ) (p1 p2 : List ℕ) : Bool :=
  let minv := Int.bmod (sizeToCInt max - strlenUtf8 p2) 0x100000000
  if minv < 0 then false else memcmpEq (skipUtf8 p1 minv.toNat) p2

/-- `build_new_atomic`. -/
def buildNewAtomic (p : List ℕ) (minv len : ℕ) : Spliced :=
  if minv ≠ 0 then
    match spliceText [minv, sizeAdd minv len, 0] p with
    | .parts [_, nat] => .parts [nat]
    | .fail => .fail
    | _ => .undefined
  else spliceText [sizeAdd minv len, 0] p

-- ---------------------------------------------------------------------------
-- Calls
-- ---------------------------------------------------------------------------

/-- The arguments after the text; those that are unbound have no value. -/
structure SubArgs where
  before : Option ℤ
  size : Option ℤ
  after : Option ℤ
  out : Option (List ℕ)

/-- The arguments of a call that succeeds. -/
structure SubAnswer where
  before : Option ℤ
  size : Option ℤ
  after : Option ℤ
  out : List ℕ
deriving DecidableEq

/-- The modes of `cont_sub_atomic`. -/
inductive ContMode where
  | val (p5 : List ℕ)
  | size
  | min
  | after
  | all

/-- What `cont_sub_atomic` keeps across backtracking. -/
structure ContState where
  minv : ℕ
  len : ℕ
  after : ℕ

/-- The errors of `sub_atomic`. -/
inductive SubError where
  | typeErrorInteger
  | domainErrorNotLessThanZero
deriving DecidableEq

/-- What `sub_atomic` does: it answers at once, or goes on with `cont_sub_atomic`. -/
inductive SubCall where
  | done (as : List SubAnswer)
  | backtrack (mode : ContMode) (st : ContState)
  | error (e : SubError) (culprit : ℤ)
  | undefined

-- ---------------------------------------------------------------------------
-- Backtracking
-- ---------------------------------------------------------------------------

/-- One turn of `cont_sub_atomic`: it fails, gives its last answer, or gives an answer
    and keeps its state; `Yap_ThrowExistingError` is called where there is no error. -/
inductive ContStep where
  | fail
  | last (a : SubAnswer)
  | next (a : SubAnswer) (st : ContState)
  | thrown
  | undefined

/-- The search for the next place of a given part; `minv` is not behind `sz - len`. -/
def findVal (p p5 : List ℕ) (len sz minv after : ℕ) : Option (ℕ × ℕ) :=
  if cmpnUtf8 (skipUtf8 p minv) p5 len then some (minv, after)
  else if minv < sz - len then findVal p p5 len sz (minv + 1) (sizeSub after 1)
  else none
termination_by sz - len - minv

/-- The loop behind a place: the next place of the part, or the end. -/
def advanceVal (p p5 : List ℕ) (len sz minv after : ℕ) : ℕ × ℕ :=
  if minv ≤ sz - len then
    let p' := p.drop (getUtf8 p).2
    if cmpnUtf8 p' p5 len then (minv + 1, sizeSub after 1)
    else advanceVal p' p5 len sz (minv + 1) (sizeSub after 1)
  else (minv, after)
termination_by sz - len + 1 - minv

/-- The answer with a part that has just been built, and what comes next. -/
def ContStep.build (p : List ℕ) (minv len after : ℕ) (next : Option ContState) : ContStep :=
  match buildNewAtomic p minv len with
  | .parts [nat] =>
    let a := ⟨some (sizeToInt minv), some (sizeToInt len), some (sizeToInt after), nat⟩
    next.elim (last a) (ContStep.next a)
  | .fail => thrown
  | _ => undefined

/-- `cont_sub_atomic`. -/
def contSubAtomic (p : List ℕ) (sz : ℕ) (mode : ContMode) (st : ContState) : ContStep :=
  let minv := st.minv
  let len := st.len
  match mode with
  | .val p5 =>
    match findVal p p5 len sz minv st.after with
    | none => .fail
    | some (minv, after) =>
      let a := ⟨some (sizeToInt minv), some (sizeToInt len), some (sizeToInt after), p5⟩
      let (minv', after') := advanceVal (skipUtf8 p minv) p5 len sz minv after
      if minv' > sz - len then .last a else .next a ⟨minv', len, after'⟩
  | .size =>
    let after := st.after
    .build p minv len after (if after = 0 then none else some ⟨minv + 1, len, after - 1⟩)
  | .min =>
    let after := sizeSub sz (sizeAdd minv len)
    .build p minv len after (if after = 0 then none else some ⟨minv, len + 1, after - 1⟩)
  | .after =>
    let after := st.after
    let len := sizeSub sz (sizeAdd minv after)
    .build p minv len after (if len = 0 then none else some ⟨minv + 1, len - 1, after⟩)
  | .all =>
    let after := st.after
    .build p minv len after
      (if after = 0 then
        if minv = sz then none else some ⟨minv + 1, 0, sizeSub sz (minv + 1)⟩
      else some ⟨minv, len + 1, after - 1⟩)

/-- The answers of `cont_sub_atomic` from a state on, until it fails or cuts. -/
inductive ContRuns (p : List ℕ) (sz : ℕ) (mode : ContMode) : ContState → List SubAnswer → Prop where
  | fail {st : ContState} : contSubAtomic p sz mode st = .fail → ContRuns p sz mode st []
  | last {st : ContState} {a : SubAnswer} : contSubAtomic p sz mode st = .last a → ContRuns p sz mode st [a]
  | next {st st' : ContState} {a : SubAnswer} {as : List SubAnswer} :
      contSubAtomic p sz mode st = .next a st' → ContRuns p sz mode st' as → ContRuns p sz mode st (a :: as)

-- ---------------------------------------------------------------------------
-- The predicates
-- ---------------------------------------------------------------------------

/-- The checks of `sub_atomic` on the arguments that are integers, in their order. -/
def checkSizes (args : List (Option ℤ)) : Option (SubError × ℤ) :=
  args.findSome? fun arg =>
    arg.bind fun z =>
      if ¬ IsWord z then some (.typeErrorInteger, z)
      else if z < 0 then some (.domainErrorNotLessThanZero, z)
      else none

/-- An integer that is bound or equal. -/
def unifyInt (arg : Option ℤ) (n : ℕ) : Bool := arg.elim true (· = sizeToInt n)

/-- The one answer of a deterministic call, where a check succeeds. -/
def SubCall.check (ok : Bool) (minv len after : ℕ) (out : List ℕ) : SubCall :=
  done (if ok then [⟨some (sizeToInt minv), some (sizeToInt len), some (sizeToInt after), out⟩] else [])

/-- The one answer of a deterministic call that builds the part. -/
def SubCall.build (p : List ℕ) (ok : Bool) (minv len after : ℕ) : SubCall :=
  match buildNewAtomic p minv len with
  | .parts [nat] => check ok minv len after nat
  | .fail => done []
  | _ => undefined

/-- `sub_atomic`, where a part is given. -/
def subAtomicVal (kind : TextKind) (p : List ℕ) (args : SubArgs) (out : List ℕ) : SubCall :=
  let sz := strlenUtf8 p
  let len := strlenUtf8 out
  if ¬ unifyInt args.size len then .done []
  else
    match args.before.map Int.toNat, args.after.map Int.toNat with
    | some minv, some after =>
      if sz ≠ sizeAdd (sizeAdd minv len) after then .done []
      else .check (checkSubStringAt minv p out len) minv len after out
    | some minv, none =>
      .check (checkSubStringAt minv p out len) minv len (sizeSub (sizeSub sz minv) len) out
    | none, some after =>
      .check (checkSubStringBef (sizeSub sz after) p out) (sizeSub (sizeSub sz after) len) len after out
    | none, none =>
      match kind with
      | .string => .done [⟨none, some (sizeToInt len), none, out⟩]
      | .atom =>
        if out.length ≠ len then .done []
        else if len = sz then
          .done (if p = out then [⟨some 0, some (sizeToInt len), some 0, out⟩] else [])
        else if len > sz then .done []
        else .backtrack (.val out) ⟨0, len, sizeSub sz len⟩

/-- `sub_atomic`, where no part is given. -/
def subAtomicVar (p : List ℕ) (args : SubArgs) : SubCall :=
  let sz := strlenUtf8 p
  match args.before.map Int.toNat, args.size.map Int.toNat, args.after.map Int.toNat with
  | some minv, some len, arg =>
    if sizeAdd (sizeAdd minv len) (arg.getD 0) > sz then .done []
    else
      let after := sizeSub sz (sizeAdd minv len)
      if sizeToInt after < 0 then .done [] else .build p (unifyInt args.after after) minv len after
  | some minv, none, some after =>
    if sz < sizeAdd minv after then .done []
    else .build p true minv (sizeSub sz (sizeAdd minv after)) after
  | none, some len, some after =>
    if sizeAdd len after > sz then .done []
    else .build p true (sizeSub sz (sizeAdd len after)) len after
  | none, some len, none => .backtrack .size ⟨0, len, sizeSub sz len⟩
  | some minv, none, none => .backtrack .min ⟨minv, 0, sizeSub sz minv⟩
  | none, none, some after => .backtrack .after ⟨0, 0, after⟩
  | none, none, none => .backtrack .all ⟨0, 0, sz⟩

/-- `sub_atomic`. -/
def subAtomic (kind : TextKind) (p : List ℕ) (args : SubArgs) : SubCall :=
  match checkSizes [args.before, args.size, args.after] with
  | some (e, culprit) => .error e culprit
  | none =>
    match args.out with
    | some out => subAtomicVal kind p args out
    | none => subAtomicVar p args

/-- A call gives these answers, one after the other, and then fails. -/
def SubCall.Gives (p : List ℕ) : SubCall → List SubAnswer → Prop
  | done as, as' => as = as'
  | backtrack mode st, as => ContRuns p (strlenUtf8 p) mode st as
  | _, _ => False

-- ---------------------------------------------------------------------------
-- Decompositions
-- ---------------------------------------------------------------------------

/-- The arguments with the bytes of the given part. -/
def SubArgs.encode (args : SubArgs) : SubArgs := { args with out := args.out.map Yap.encode }

/-- An argument is unbound or has this value. -/
def Agrees {α : Type} (arg : Option α) (x : α) : Prop := ∀ y ∈ arg, y = x

/-- The answers that a text and the arguments allow. -/
def IsDecomposition (a : List ℕ) (args : SubArgs) (x : SubAnswer) : Prop :=
  ∃ bef sub aft, a = bef ++ sub ++ aft ∧ x = ⟨some bef.length, some sub.length, some aft.length, encode sub⟩ ∧
    Agrees args.before bef.length ∧ Agrees args.size sub.length ∧ Agrees args.after aft.length ∧
    Agrees args.out sub

/-- The order of the enumeration. -/
def AnswerLt (x y : SubAnswer) : Prop :=
  ∃ i j k l : ℤ, x.before = some i ∧ x.size = some j ∧ y.before = some k ∧ y.size = some l ∧
    (i < k ∨ i = k ∧ j < l)

/-- A call enumerates the decompositions of the text, in order and each once. -/
def Enumerates (kind : TextKind) (a : List ℕ) (args : SubArgs) : Prop :=
  ∃ as, (subAtomic kind (encode a) args.encode).Gives (encode a) as ∧ as.Pairwise AnswerLt ∧
    ∀ x, x ∈ as ↔ IsDecomposition a args x

end Yap
