-- SUMMARY: When the evaluation of an arithmetic expression on a rational term ends: no call is nested in itself and no cell outside of the term is read.
import Yap.Arith.Eval
import Yap.Unify.Solutions

/-!
# Termination of evaluation

Marks stop the recursion on compounds. Lists and accesses to matrices are not
marked, so that a cycle through them alone is followed for ever. On a rational
term there are finitely many calls, and only such a cycle keeps the evaluator
from ending.
-/

namespace Yap

-- ---------------------------------------------------------------------------
-- The calls on a rational term
-- ---------------------------------------------------------------------------

/-- The words of a call. -/
def EvalCall.words : EvalCall → List Cell
  | .eval t => [t]
  | .element t1 t2 => [t1, t2]
  | .subscript t1 _ t2 => [t1, t2]

/-- The state with the marks of a context. -/
def EvalState.marked (hp : Heap) (ctx : List (Addr × Functor)) : EvalState where
  head p := if p ∈ ctx.map Prod.fst then .foundVar else .cell (hp.functorAt p)
  ctx := ctx

theorem EvalState.marked_head (hp : Heap) (ctx : List (Addr × Functor)) (p : Addr) :
    (EvalState.marked hp ctx).head p =
      if p ∈ ctx.map Prod.fst then .foundVar else .cell (hp.functorAt p) := rfl

/-- The marks are those of compounds in `W`, each of them once. -/
structure CtxIn (hp : Heap) (W : Set Cell) (ctx : List (Addr × Functor)) : Prop where
  nodup : (ctx.map Prod.fst).Nodup
  mem : ∀ pr ∈ ctx, Cell.nonvar (.appl pr.1) ∈ W ∧ hp.functorAt pr.1 = .functor pr.2

/-- The words of a call are in `W`, and its state has the marks of compounds in `W`. -/
structure CallIn (hp : Heap) (W : Set Cell) (c : EvalCall × EvalState) : Prop where
  words : ∀ t ∈ c.1.words, t ∈ W
  state : c.2 = .marked hp c.2.ctx
  ctx : CtxIn hp W c.2.ctx

/-- The arguments of the words in `W` are in `W`. -/
structure ArgsIn (hp : Heap) (s : Store) (W : Set Cell) : Prop where
  appl : ∀ p f i, Cell.nonvar (.appl p) ∈ W → hp.functorAt p = .functor f → 0 < i →
    i ≤ f.arityOfFE → argOfTerm s p i ∈ W
  pair : ∀ p i, Cell.nonvar (.pair p) ∈ W → i < 2 → argOfTerm s p i ∈ W

variable {hp : Heap} {s : Store} {W : Set Cell}

/-- The words that the cells of a region hold, and one word more. -/
theorem argsIn_of_closed {R : Finset Addr} (hR : Closed hp R s.cell) {t : Cell} (ht : t.Within hp R) :
    ArgsIn hp s (insert t ((fun a => s.deref (.ref a)) '' R)) := by
  have hwithin : ∀ w ∈ insert t ((fun a => s.deref (.ref a)) '' (R : Set Addr)), w.Within hp R := by
    rintro w (rfl | ⟨a, ha, rfl⟩)
    · exact ht
    · exact Store.deref_within hR (Cell.within_ref.2 ha)
  constructor
  · intro p f i hp hf h0 hi
    refine Or.inr ⟨p + i, hwithin _ hp _ ?_, rfl⟩
    refine (Nonvar.mem_cells_appl hf).2 ⟨⟨i - 1, by omega⟩, ?_⟩
    exact (Nat.add_assoc p 1 (i - 1)).trans (congrArg (p + ·) (Nat.add_sub_of_le h0))
  · intro p i hp hi
    refine Or.inr ⟨p + i, hwithin _ hp _ ?_, rfl⟩
    rw [Cell.cells, Nonvar.cells_pair]
    rcases (show i = 0 ∨ i = 1 by omega) with rfl | rfl <;> simp

namespace CallIn

variable {c : EvalCall} {st : EvalState} {p : Addr} {f : Functor}

theorem functorAt (h : CallIn hp W (c, st)) {b : FunctorCell} (hf : st.head p = .cell b) :
    p ∉ st.ctx.map Prod.fst ∧ hp.functorAt p = b := by
  have hst : st.head p = (EvalState.marked hp st.ctx).head p := congrArg (EvalState.head · p) h.state
  rw [hf, EvalState.marked_head] at hst
  by_cases hmem : p ∈ st.ctx.map Prod.fst
  · rw [if_pos hmem] at hst
    cases hst
  · rw [if_neg hmem] at hst
    exact ⟨hmem, (HeadCell.cell.inj hst).symm⟩

/-- One compound more is marked. -/
theorem mark (h : CallIn hp W (c, st)) (hp' : Cell.nonvar (.appl p) ∈ W)
    (hf : st.head p = .cell (.functor f)) {c' : EvalCall} (hc' : ∀ t ∈ c'.words, t ∈ W) :
    CallIn hp W (c', st.mark p f) := by
  obtain ⟨hmem, hfunctor⟩ := h.functorAt hf
  refine ⟨hc', ?_, ?_, ?_⟩
  · ext1
    · funext q
      have hq : st.head q = (EvalState.marked hp st.ctx).head q :=
        congrArg (EvalState.head · q) h.state
      simp only [EvalState.mark, EvalState.marked_head, List.map_cons, List.mem_cons]
      by_cases hqp : q = p
      · subst hqp
        rw [Function.update_self, if_pos (.inl rfl)]
      · rw [Function.update_of_ne hqp, hq, EvalState.marked_head]
        simp only [hqp, false_or]
    · rfl
  · exact List.nodup_cons.2 ⟨hmem, h.ctx.nodup⟩
  · rintro pr hpr
    rcases List.mem_cons.1 hpr with rfl | hpr
    · exact ⟨hp', hfunctor⟩
    · exact h.ctx.mem pr hpr

theorem of_words (h : CallIn hp W (c, st)) {c' : EvalCall} (hc' : ∀ t ∈ c'.words, t ∈ W) :
    CallIn hp W (c', st) := ⟨hc', h.state, h.ctx⟩

end CallIn

/-- The contexts are finitely many. -/
theorem finite_ctxIn (hp : Heap) (hW : W.Finite) : {ctx | CtxIn hp W ctx}.Finite := by
  let F : Set (Addr × Functor) :=
    {pr | Cell.nonvar (.appl pr.1) ∈ W ∧ hp.functorAt pr.1 = .functor pr.2}
  have hF : F.Finite := by
    refine Set.Finite.of_injOn (f := fun pr => Cell.nonvar (.appl pr.1)) (fun pr hpr => hpr.1) ?_ hW
    rintro ⟨p, f⟩ ⟨-, hf⟩ ⟨q, g⟩ ⟨-, hg⟩ heq
    obtain rfl : p = q := Nonvar.appl.inj (Cell.nonvar.inj heq)
    obtain rfl : f = g := FunctorCell.functor.inj (hf.symm.trans hg)
    rfl
  have : Finite F := hF
  have : Fintype F := Fintype.ofFinite F
  refine (Set.finite_range fun l : {l : List F // l.Nodup} => l.1.map Subtype.val).subset ?_
  intro ctx hctx
  lift ctx to List F using hctx.mem
  exact ⟨⟨ctx, (hctx.nodup.of_map _).of_map _⟩, rfl⟩

/-- The calls are finitely many. -/
theorem finite_callIn (hW : W.Finite) : {c | CallIn hp W c}.Finite := by
  have hwords : {c : EvalCall | ∀ t ∈ c.words, t ∈ W}.Finite := by
    refine ((hW.image EvalCall.eval).union ((hW.image2 EvalCall.element hW).union
      ((hW.prod (Set.finite_univ.prod hW)).image fun x => EvalCall.subscript x.1 x.2.1 x.2.2))).subset ?_
    rintro (t | ⟨t1, t2⟩ | ⟨t1, indx, t2⟩) hc
    · exact .inl ⟨t, hc t (by simp [EvalCall.words]), rfl⟩
    · exact .inr (.inl ⟨t1, hc t1 (by simp [EvalCall.words]), t2, hc t2 (by simp [EvalCall.words]), rfl⟩)
    · exact .inr (.inr ⟨(t1, indx, t2), ⟨hc t1 (by simp [EvalCall.words]), trivial,
        hc t2 (by simp [EvalCall.words])⟩, rfl⟩)
  refine ((hwords.prod (finite_ctxIn hp hW)).image fun x => (x.1, EvalState.marked hp x.2)).subset ?_
  rintro ⟨c, st⟩ hc
  exact ⟨(c, st.ctx), ⟨hc.words, hc.ctx⟩, Prod.ext rfl hc.state.symm⟩

-- ---------------------------------------------------------------------------
-- The calls of the evaluator
-- ---------------------------------------------------------------------------

variable {ev : Evaluables} {foundVarArity : ℕ} {st : EvalState} {I : EvalCall × EvalState → Prop}

/-- A call whose ends are handed on, apart from values. -/
theorem visits_onValue {c : EvalCall} {k : EvalState → Option Term → EvalBody} (hc : I (c, st))
    (hk : ∀ t, Body.Visits EvalContract I (k st t)) :
    Body.Visits EvalContract I (.call (c, st) (onValue k)) := by
  refine ⟨hc, ?_⟩
  rintro ⟨st', r⟩ hr
  cases r with
  | value t =>
    obtain rfl : st' = st := hr
    exact hk t
  | thrown e => trivial
  | undefined => trivial

theorem visits_tail {c : EvalCall} (hc : I (c, st)) :
    Body.Visits EvalContract I (.call (c, st) .ret) := ⟨hc, fun _ _ => trivial⟩

/-- What a call calls: the arguments of a compound, which is marked, the element of
a list of one element, and the steps of an access to a matrix. -/
inductive EvalStep (s : Store) (st : EvalState) : EvalCall → EvalCall × EvalState → Prop
  | arg {p : Addr} {f : Functor} (i : ℕ) : st.head p = .cell (.functor f) → 0 < i →
      i ≤ f.arityOfFE → EvalStep s st (.eval (.nonvar (.appl p))) (.eval (argOfTerm s p i), st.mark p f)
  | single {p : Addr} : argOfTerm s p 1 = .nonvar (.atom atomNil) →
      EvalStep s st (.eval (.nonvar (.pair p))) (.eval (argOfTerm s p 0), st)
  | access {p q : Addr} {f : Functor} : st.head p = .cell (.functor f) → f.arityOfFE = 2 →
      f.nameOfFE = atomHat → argOfTerm s p 2 = .nonvar (.pair q) →
      EvalStep s st (.eval (.nonvar (.appl p))) (.element (argOfTerm s p 1) (.nonvar (.pair q)), st)
  | index {t1 : Cell} {q : Addr} :
      EvalStep s st (.element t1 (.nonvar (.pair q))) (.eval (argOfTerm s q 0), st)
  | value {t1 : Cell} {q : Addr} (indx : Word) :
      EvalStep s st (.element t1 (.nonvar (.pair q))) (.subscript t1 indx (argOfTerm s q 1), st)
  | matrix {t1 : Cell} : EvalStep s st (.element t1 (.nonvar (.atom atomNil))) (.eval t1, st)
  | subscript {p : Addr} {indx : Word} {t2 : Cell} : 0 < indx.toNat → indx.toNat ≤ st.argCells p →
      EvalStep s st (.subscript (.nonvar (.appl p)) indx t2)
        (.element (argOfTerm s p indx.toNat) t2, st)

theorem visits_evalBinary (op : Option Term → Option Term → Except EvalError (Option Term)) {p : Addr}
    {f : Functor} (h1 : I (.eval (argOfTerm s p 1), st.mark p f))
    (h2 : I (.eval (argOfTerm s p 2), st.mark p f)) :
    Body.Visits EvalContract I (evalBinary s op st p f) :=
  visits_onValue h1 fun _ => visits_onValue h2 fun _ => trivial

theorem visits_evalCompound {p : Addr} {f : Functor} (hf : st.head p = .cell (.functor f)) :
    Body.Visits EvalContract (EvalStep s st (.eval (.nonvar (.appl p)))) (evalCompound ev s st p f) := by
  unfold evalCompound
  split
  · rename_i h1
    cases ev.eval1 f.nameOfFE with
    | none => trivial
    | some op => exact visits_onValue (.arg 1 hf Nat.one_pos h1.ge) fun _ => trivial
  · split
    · rename_i h2
      cases ev.eval2 f.nameOfFE with
      | none => trivial
      | some op =>
        have hbinary := visits_evalBinary (s := s) (I := EvalStep s st (.eval (.nonvar (.appl p)))) op
          (.arg 1 hf Nat.one_pos (by omega)) (.arg 2 hf Nat.two_pos h2.ge)
        simp only [Option.elim, evalAccess]
        split
        · rename_i q hq
          split
          · rename_i hname
            exact visits_tail (.access hf h2 hname hq)
          · exact hbinary
        · exact hbinary
    · trivial

theorem visits_evalWord (t : Cell) :
    Body.Visits EvalContract (EvalStep s st (.eval t)) (evalWord ev s st t) := by
  unfold evalWord
  split
  · trivial
  · trivial
  · rename_i a
    cases ev.eval0 a <;> trivial
  · split
    · trivial
    · trivial
    · rename_i f hf
      exact visits_evalCompound hf
  · split
    · rename_i hnil
      exact visits_tail (.single hnil)
    · trivial

theorem visits_matrixElement (t1 t2 : Cell) :
    Body.Visits EvalContract (EvalStep s st (.element t1 t2)) (matrixElement s st t1 t2) := by
  unfold matrixElement
  split
  · refine visits_onValue .index fun indxt => ?_
    split
    · exact visits_tail (.value _)
    · trivial
  · split
    · rename_i hnil
      subst hnil
      exact visits_tail .matrix
    · trivial

theorem visits_matrixSubscript (t1 : Cell) (indx : Word) (t2 : Cell) :
    Body.Visits EvalContract (EvalStep s st (.subscript t1 indx t2))
      (matrixSubscript s foundVarArity st t1 indx t2) := by
  unfold matrixSubscript
  split
  · split
    · trivial
    · split
      · trivial
      · split
        · rename_i hcells
          exact visits_tail (.subscript hcells.1 hcells.2)
        · trivial
  · trivial

/-- A body makes the calls of its steps. -/
theorem visits_evalBody (c : EvalCall × EvalState) :
    Body.Visits EvalContract (EvalStep s c.2 c.1) (evalBody ev s foundVarArity c) := by
  rcases c with ⟨t | ⟨t1, t2⟩ | ⟨t1, indx, t2⟩, st⟩
  · exact visits_evalWord t
  · exact visits_matrixElement t1 t2
  · exact visits_matrixSubscript t1 indx t2

theorem evalStep_of_calls {c c' : EvalCall × EvalState}
    (h : Body.Calls (evalBody ev s foundVarArity) c' c) : EvalStep s c.2 c.1 c' :=
  Body.Makes.visits (fun _ _ => Body.Returns.contract keeps_evalBody) h (visits_evalBody c)

theorem CallIn.mem_eval {t : Cell} (hc : CallIn hp W (.eval t, st)) : t ∈ W :=
  hc.words t (by simp [EvalCall.words])

/-- A compound has the argument cells of its functor, also where it is marked. -/
theorem CallIn.argCells {c : EvalCall} {p : Addr} {i : ℕ} (hc : CallIn hp W (c, st)) (h0 : 0 < i)
    (hi : i ≤ st.argCells p) : ∃ f, hp.functorAt p = .functor f ∧ i ≤ f.arityOfFE := by
  unfold EvalState.argCells at hi
  split at hi
  · rename_i f hf
    exact ⟨f, (hc.functorAt hf).2, hi⟩
  · omega
  · cases hlookup : st.ctx.lookup p with
    | none =>
      rw [hlookup] at hi
      exact absurd hi (Nat.not_le.2 h0)
    | some f =>
      rw [hlookup] at hi
      obtain ⟨l1, l2, hctx, -⟩ := List.lookup_eq_some_iff.1 hlookup
      have hmem : (p, f) ∈ st.ctx := by simp [hctx]
      exact ⟨f, (hc.ctx.mem _ hmem).2, hi⟩

/-- The calls that are made on words in `W` are on words in `W`. -/
theorem CallIn.step (hW : ArgsIn hp s W) {c : EvalCall} {c' : EvalCall × EvalState}
    (hc : CallIn hp W (c, st)) (h : EvalStep s st c c') : CallIn hp W c' := by
  cases h with
  | @arg p f i hf h0 hi =>
    have ht := hc.mem_eval
    exact hc.mark ht hf (by simpa [EvalCall.words] using hW.appl p f i ht (hc.functorAt hf).2 h0 hi)
  | @single p =>
    have ht := hc.mem_eval
    exact hc.of_words (by simpa [EvalCall.words] using hW.pair p 0 ht (by decide))
  | @access p q f hf h2 _ hq =>
    have ht := hc.mem_eval
    have harg1 := hW.appl p f 1 ht (hc.functorAt hf).2 Nat.one_pos (by omega)
    have harg2 := hW.appl p f 2 ht (hc.functorAt hf).2 Nat.two_pos h2.ge
    rw [hq] at harg2
    exact hc.of_words (by simp [EvalCall.words, harg1, harg2])
  | @index t1 q =>
    have ht2 := hc.words (.nonvar (.pair q)) (by simp [EvalCall.words])
    exact hc.of_words (by simpa [EvalCall.words] using hW.pair q 0 ht2 (by decide))
  | @value t1 q indx =>
    have ht1 := hc.words t1 (by simp [EvalCall.words])
    have ht2 := hc.words (.nonvar (.pair q)) (by simp [EvalCall.words])
    exact hc.of_words (by simp [EvalCall.words, ht1, hW.pair q 1 ht2 (by decide)])
  | @matrix t1 =>
    have ht1 := hc.words t1 (by simp [EvalCall.words])
    exact hc.of_words (by simpa [EvalCall.words] using ht1)
  | @subscript p indx t2 h0 hi =>
    have ht1 := hc.words (.nonvar (.appl p)) (by simp [EvalCall.words])
    have ht2 := hc.words t2 (by simp [EvalCall.words])
    obtain ⟨f, hf, hi⟩ := hc.argCells h0 hi
    exact hc.of_words (by simp [EvalCall.words, ht2, hW.appl p f _ ht1 hf h0 hi])

/-- The calls leave the marks as they are or add one. -/
theorem EvalStep.marks {c : EvalCall} {c' : EvalCall × EvalState} (h : EvalStep s st c c') :
    c'.2 = st ∨ st.ctx.length < c'.2.ctx.length := by
  cases h with
  | arg => exact .inr (Nat.lt_succ_self _)
  | _ => exact .inl rfl

theorem callIn_start {t : Cell} (ht : t ∈ W) : CallIn hp W (.eval t, .start hp) := by
  refine ⟨by simpa [EvalCall.words] using ht, ?_, ?_⟩
  · ext1
    · funext p
      rw [EvalState.marked_head]
      simp [EvalState.start]
    · rfl
  · exact ⟨by simp [EvalState.start], by simp [EvalState.start]⟩

-- ---------------------------------------------------------------------------
-- Reads outside of the term
-- ---------------------------------------------------------------------------

variable (foundVarArity) in
/-- The call evaluates a database reference, or it subscripts a box, by zero, or by
an index beyond the arguments of a compound that is marked. -/
def ReadsOutside : EvalCall × EvalState → Prop
  | (.eval (.nonvar (.appl p)), st) => st.head p = .cell (.blob .dbRef)
  | (.subscript (.nonvar (.appl p)) indx _, st) =>
    ∀ arity, st.arityRead foundVarArity p = some arity →
      indx.toNat ≤ arity ∧ ¬ (0 < indx.toNat ∧ indx.toNat ≤ st.argCells p)
  | _ => False

/-- An end without defined behaviour. -/
def IsUndefined (r : EvalState × EvalResult) : Prop := r.2 = .undefined

theorem passes_onValue {c : EvalCall × EvalState} {k : EvalState → Option Term → EvalBody}
    (hk : ∀ st t, Body.Passes IsUndefined (k st t)) :
    Body.Passes IsUndefined (.call c (onValue k)) := by
  rintro ⟨st', r⟩
  cases r with
  | value t => exact ⟨fun h => (by cases h), fun _ => hk st' t⟩
  | thrown e => exact ⟨fun h => (by cases h), fun _ h => (by cases h)⟩
  | undefined => exact ⟨fun _ => rfl, fun h => absurd rfl h⟩

theorem passes_tail (c : EvalCall × EvalState) : Body.Passes IsUndefined (.call c .ret : EvalBody) :=
  fun _ => ⟨fun _ => rfl, fun h => h⟩

theorem passes_arithError (id : ErrorId) (c : Culprit) (text : String) :
    Body.Passes IsUndefined (.ret (st.arithError id c text) : EvalBody) := fun h => by cases h

theorem passes_finish (r : Except EvalError (Option Term)) :
    Body.Passes IsUndefined (.ret (st.finish r) : EvalBody) := by
  cases r <;> exact fun h => by cases h

theorem passes_evalBinary (op : Option Term → Option Term → Except EvalError (Option Term)) (p : Addr)
    (f : Functor) : Body.Passes IsUndefined (evalBinary s op st p f) :=
  passes_onValue fun _ _ => passes_onValue fun _ _ => passes_finish _

theorem passes_evalCompound (p : Addr) (f : Functor) :
    Body.Passes IsUndefined (evalCompound ev s st p f) := by
  unfold evalCompound
  split
  · cases ev.eval1 f.nameOfFE with
    | none => exact passes_arithError _ _ _
    | some op => exact passes_onValue fun _ _ => passes_finish _
  · split
    · cases ev.eval2 f.nameOfFE with
      | none => exact passes_arithError _ _ _
      | some op =>
        simp only [Option.elim, evalAccess]
        split
        · split
          · exact passes_tail _
          · exact passes_evalBinary op p f
        · exact passes_evalBinary op p f
    · exact passes_arithError _ _ _

theorem passes_matrixElement (t1 t2 : Cell) :
    Body.Passes IsUndefined (matrixElement s st t1 t2) := by
  unfold matrixElement
  split
  · refine passes_onValue fun st' indxt => ?_
    split
    · exact passes_tail _
    · exact passes_arithError _ _ _
  · split
    · exact passes_tail _
    · exact passes_arithError _ _ _

theorem passes_or_dbRef (st : EvalState) (p : Addr) (b : Blob) :
    Body.Passes IsUndefined (.ret (evalBlob st p b) : EvalBody) ∨ b = .dbRef := by
  cases b with
  | dbRef => exact .inr rfl
  | string str =>
    refine .inl ?_
    simp only [evalBlob]
    split
    · exact fun h => by cases h
    · exact fun h => by cases h
    · exact passes_arithError _ _ _
  | double _ => exact .inl fun h => by cases h
  | longInt _ => exact .inl fun h => by cases h
  | bigInt _ => exact .inl fun h => by cases h

/-- A word that is not evaluated to a read outside of the term is evaluated by
calls alone. -/
theorem passes_evalWord {t : Cell} (h : ¬ ReadsOutside foundVarArity (.eval t, st)) :
    Body.Passes IsUndefined (evalWord ev s st t) := by
  unfold evalWord
  split
  · exact passes_arithError _ _ _
  · exact fun h => by cases h
  · rename_i a
    cases ev.eval0 a with
    | none => exact passes_arithError _ _ _
    | some r => exact passes_finish r
  · split
    · exact passes_arithError _ _ _
    · rename_i p _ b hb
      rcases passes_or_dbRef st p b with hpass | rfl
      · exact hpass
      · exact absurd hb h
    · exact passes_evalCompound _ _
  · split
    · exact passes_tail _
    · exact passes_arithError _ _ _

theorem passes_matrixSubscript {t1 t2 : Cell} {indx : Word}
    (h : ¬ ReadsOutside foundVarArity (.subscript t1 indx t2, st)) :
    Body.Passes IsUndefined (matrixSubscript s foundVarArity st t1 indx t2) := by
  unfold matrixSubscript
  split
  · rename_i p
    split
    · rename_i hnone
      exact absurd (fun arity harity => by rw [hnone] at harity; cases harity) h
    · rename_i arity harity
      split
      · exact passes_arithError _ _ _
      · rename_i hle
        split
        · exact passes_tail _
        · rename_i hcells
          refine absurd (fun arity' harity' => ?_) h
          obtain rfl := Option.some.inj (harity.symm.trans harity')
          exact ⟨Nat.not_lt.1 hle, hcells⟩
  · exact passes_arithError _ _ _

/-- A call either hands the ends of its calls on or reads outside of the term. -/
theorem passes_evalBody {c : EvalCall × EvalState} (h : ¬ ReadsOutside foundVarArity c) :
    Body.Passes IsUndefined (evalBody ev s foundVarArity c) := by
  rcases c with ⟨t | ⟨t1, t2⟩ | ⟨t1, indx, t2⟩, st⟩
  · exact passes_evalWord h
  · exact passes_matrixElement t1 t2
  · exact passes_matrixSubscript h

theorem aborts_of_readsOutside {c : EvalCall × EvalState} (h : ReadsOutside foundVarArity c) :
    Body.Aborts (evalBody ev s foundVarArity) IsUndefined c := by
  rcases c with ⟨t | ⟨t1, t2⟩ | ⟨t1, indx, t2⟩, st⟩
  · rcases t with a | (n | a | p | p)
    case nonvar.appl =>
      have hhead : st.head p = .cell (.blob .dbRef) := h
      refine ⟨(st, .undefined), ?_, rfl⟩
      simp only [evalBody, evalWord, hhead, evalBlob]
    all_goals exact h.elim
  · exact h.elim
  · rcases t1 with a | (n | a | p | p)
    case nonvar.appl =>
      refine ⟨(st, .undefined), ?_, rfl⟩
      simp only [evalBody, matrixSubscript]
      cases harity : st.arityRead foundVarArity p with
      | none => rfl
      | some arity =>
        obtain ⟨hle, hcells⟩ := h arity harity
        simp only [if_neg (Nat.not_lt.2 hle), if_neg hcells]
    all_goals exact h.elim

theorem aborts_iff {c : EvalCall × EvalState} :
    Body.Aborts (evalBody ev s foundVarArity) IsUndefined c ↔ ReadsOutside foundVarArity c := by
  refine ⟨?_, aborts_of_readsOutside⟩
  rintro ⟨w, hw, hundef⟩
  by_contra hreads
  have hpass : Body.Passes IsUndefined (evalBody ev s foundVarArity c) := passes_evalBody hreads
  rw [hw] at hpass
  exact hpass hundef

-- ---------------------------------------------------------------------------
-- Termination
-- ---------------------------------------------------------------------------

/-- The evaluation of the word reaches a value or an error. -/
def EvalEnds (ev : Evaluables) (s : Store) (foundVarArity : ℕ) (hp : Heap) (t : Cell) : Prop :=
  ∃ w, Body.Returns (evalBody ev s foundVarArity) (.eval t, .start hp) w ∧ ¬ IsUndefined w

/-- Only finitely many calls are below the evaluation of a word of a region. -/
theorem finite_calls (ev : Evaluables) (foundVarArity : ℕ) {R : Finset Addr}
    (hR : Closed hp R s.cell) {t : Cell} (ht : t.Within hp R) :
    {c | Relation.ReflTransGen (Body.Calls (evalBody ev s foundVarArity)) c
      (.eval t, .start hp)}.Finite := by
  have hW := argsIn_of_closed hR ht
  have hfin : {c | CallIn hp _ c}.Finite :=
    finite_callIn (((Finset.finite_toSet R).image fun a => s.deref (.ref a)).insert t)
  refine hfin.subset fun c hc => ?_
  have hvisits : ∀ c, CallIn hp _ c →
      Body.Visits EvalContract (CallIn hp _) (evalBody ev s foundVarArity c) :=
    fun c hc => (visits_evalBody c).mono fun _ h => CallIn.step hW hc h
  exact Body.invariant (fun _ _ => Body.Returns.contract keeps_evalBody) hvisits
    (callIn_start (Set.mem_insert t _)) hc

/-- The call is made by the second one and no compound is marked for it. By
`EvalStep` it is for the element of a list, or a step of an access to a matrix. -/
def CallsUnmarked (ev : Evaluables) (s : Store) (foundVarArity : ℕ) (c' c : EvalCall × EvalState) :
    Prop :=
  Body.Calls (evalBody ev s foundVarArity) c' c ∧ c'.2 = c.2

/-- Where no mark is added, no call adds one. -/
theorem unmarked_of_calls {c c' : EvalCall × EvalState}
    (h : Relation.TransGen (Body.Calls (evalBody ev s foundVarArity)) c' c) :
    c.2.ctx.length < c'.2.ctx.length ∨
      c'.2 = c.2 ∧ Relation.TransGen (CallsUnmarked ev s foundVarArity) c' c := by
  induction h with
  | @single c h =>
    rcases (evalStep_of_calls h).marks with heq | hlt
    · exact .inr ⟨heq, .single ⟨h, heq⟩⟩
    · exact .inl hlt
  | @tail b c _ h ih =>
    rcases (evalStep_of_calls h).marks with heq | hlt
    · rcases ih with hlt | ⟨heq', hunmarked⟩
      · exact .inl (heq ▸ hlt)
      · exact .inr ⟨heq'.trans heq, hunmarked.tail ⟨h, heq⟩⟩
    · rcases ih with hlt' | ⟨heq', -⟩
      · exact .inl (hlt.trans hlt')
      · exact .inl (heq' ▸ hlt)

/-- A cycle of calls has no call that marks a compound. -/
theorem cycle_iff_unmarked (c : EvalCall × EvalState) :
    Relation.TransGen (Body.Calls (evalBody ev s foundVarArity)) c c ↔
      Relation.TransGen (CallsUnmarked ev s foundVarArity) c c := by
  constructor
  · intro h
    rcases unmarked_of_calls h with hlt | ⟨-, hunmarked⟩
    · exact absurd hlt (Nat.lt_irrefl _)
    · exact hunmarked
  · exact Relation.TransGen.mono (fun _ _ h => And.left h) c c

theorem passes_or_aborts (c : EvalCall × EvalState) :
    Body.Passes IsUndefined (evalBody ev s foundVarArity c) ∨
      Body.Aborts (evalBody ev s foundVarArity) IsUndefined c := by
  by_cases h : ReadsOutside foundVarArity c
  · exact .inr (aborts_of_readsOutside h)
  · exact .inl (passes_evalBody h)

/-- Words without lists and without database references: no call is made unmarked and
none reads outside of the term. -/
structure NoLists (hp : Heap) (W : Set Cell) : Prop where
  pair : ∀ q, Cell.nonvar (.pair q) ∉ W
  dbRef : ∀ p, Cell.nonvar (.appl p) ∈ W → hp.functorAt p ≠ .blob .dbRef

/-- The calls on such words evaluate words. -/
theorem NoLists.step (h : NoLists hp W) (hW : ArgsIn hp s W) {t : Cell} {c' : EvalCall × EvalState}
    (hc : CallIn hp W (.eval t, st)) (hstep : EvalStep s st (.eval t) c') :
    c'.2 ≠ st ∧ ∃ t', c'.1 = .eval t' := by
  cases hstep with
  | arg i hf h0 hi =>
    refine ⟨fun heq => ?_, _, rfl⟩
    exact absurd (congrArg EvalState.ctx heq) (by simp [EvalState.mark])
  | single => exact absurd hc.mem_eval (h.pair _)
  | access hf h2 _ hq =>
    have harg2 := hW.appl _ _ 2 hc.mem_eval (hc.functorAt hf).2 Nat.two_pos h2.ge
    rw [hq] at harg2
    exact absurd harg2 (h.pair _)

theorem NoLists.calls (h : NoLists hp W) (hW : ArgsIn hp s W) {t : Cell} (ht : t ∈ W)
    (c : EvalCall × EvalState)
    (hc : Relation.ReflTransGen (Body.Calls (evalBody ev s foundVarArity)) c (.eval t, .start hp)) :
    ¬ Relation.TransGen (CallsUnmarked ev s foundVarArity) c c ∧ ¬ ReadsOutside foundVarArity c := by
  have hall : CallIn hp W c ∧ ∃ t', c.1 = .eval t' := by
    induction hc using Relation.ReflTransGen.head_induction_on with
    | refl => exact ⟨callIn_start ht, t, rfl⟩
    | @head c' c hcall _ ih =>
      obtain ⟨hin, t', ht'⟩ := ih
      obtain ⟨e, st⟩ := c
      obtain rfl : e = .eval t' := ht'
      have hstep := evalStep_of_calls hcall
      exact ⟨hin.step hW hstep, (h.step hW hin hstep).2⟩
  obtain ⟨hin, t', ht'⟩ := hall
  obtain ⟨e, st⟩ := c
  obtain rfl : e = .eval t' := ht'
  constructor
  · intro hcycle
    obtain ⟨b, -, hcall, heq⟩ := Relation.TransGen.tail'_iff.1 hcycle
    exact (h.step hW hin (evalStep_of_calls hcall)).1 heq
  · rcases t' with a | (n | a | p | p)
    case nonvar.appl => exact fun hread => h.dbRef p hin.mem_eval (hin.functorAt hread).2
    all_goals exact id

/-- Without lists and database references the evaluation of a rational term reaches
a value or an error, also where compounds are cyclic. -/
theorem eval_ends_of_noLists (ev : Evaluables) (foundVarArity : ℕ) {s : Store} {hp : Heap}
    {R : Finset Addr} (hR : Closed hp R s.cell) {t : Cell} (ht : t.Within hp R)
    (hlists : NoLists hp (insert t ((fun a => s.deref (.ref a)) '' R))) :
    EvalEnds ev s foundVarArity hp t := by
  refine (Body.returns_without_iff passes_or_aborts (finite_calls ev foundVarArity hR ht)).2 fun c hc => ?_
  rw [aborts_iff, cycle_iff_unmarked]
  exact hlists.calls (argsIn_of_closed hR ht) (Set.mem_insert t _) c hc

-- ---------------------------------------------------------------------------
-- Cyclic terms
-- ---------------------------------------------------------------------------

theorem closed_cyclicMinus : Closed minusHeap {1} (Store.ofWords cyclicMinus).cell := by
  intro a ha
  obtain rfl := Finset.mem_singleton.1 ha
  intro b hb
  simpa [Store.ofWords, cyclicMinus, Cell.cells, Nonvar.cells, Nonvar.block, minusHeap] using hb

/-- `X` where `X = [X]`, at the address 0. -/
def cyclicList : Addr → Option Nonvar
  | 0 => some (.pair 0)
  | 1 => some (.atom atomNil)
  | _ => none

end Yap
