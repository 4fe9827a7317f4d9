-- SUMMARY: Unification as the code computes it: two words at the top level, two argument cells in the loop, and the loop with its stack and its record of overwritten cells.
import Yap.Arith.Gmp
import Yap.Heap.Store

/-!
# Unification

The functions follow `Yap_IUnify` of `unify.c`, `IUnify_complex` of `absmi.h` and
`unify_extension` of `TermExt.h`. A binding is a write; the trail, which undoes
bindings on backtracking, and the growth of the two work stacks are not modelled.
-/

namespace Yap

/-- What the comparison of two words does: it fails, it goes on, it binds a
    variable, or it goes to `n` pairs of argument cells and has the cell that held
    the left word linked to the right word. -/
inductive UnifyStep where
  | fail
  | next
  | bind (a : Addr) (c : Cell)
  | visit (l r : Addr) (n : ℕ) (d1 : Nonvar)

-- ---------------------------------------------------------------------------
-- Variables and boxes
-- ---------------------------------------------------------------------------

/-- `UnifyGlobalCells`. -/
def unifyGlobalCells (a b : Addr) : UnifyStep :=
  if a < b then .bind b (.ref a) else if b < a then .bind a (.ref b) else .next

/-- `UnifyCells`. -/
def unifyCells (hr a b : Addr) : UnifyStep :=
  if a < hr then
    if hr < b then .bind b (.ref a) else unifyGlobalCells a b
  else if a < b then .bind a (.ref b)
  else if b < a then
    if b < hr then .bind a (.ref b) else .bind b (.ref a)
  else .next

/-- `unify_extension`, on the boxes at `p` and `q`. Boxes with different functors
    do not get here. -/
def unifyExtension (p q : Addr) : Blob → Blob → Bool
  | .dbRef, .dbRef => p = q
  | .longInt m, .longInt n => m = n
  | .string s, .string t => strcmp s t = 0
  | .bigInt b, .bigInt c => gmpTcmpBigBig b c = 0
  | .double x, .double y => x = y
  | _, _ => false

/-- The switch of `Yap_IUnify` on the functor of two boxes. The branch of a big
    number passes the left box for both. -/
def unifyBlob (pt0 pt1 : Addr) : Blob → Blob → Bool
  | .dbRef, .dbRef => pt0 = pt1
  | .longInt m, .longInt n => m = n
  | .string s, .string t => strcmp s t = 0
  | .double x, .double y => x.eq y
  | .bigInt b, .bigInt _ => gmpTcmpBigBig b b = 0
  | _, _ => false

-- ---------------------------------------------------------------------------
-- Two words
-- ---------------------------------------------------------------------------

section Words

variable (hp : Heap) (vars : Addr → Addr → UnifyStep) (boxes : Addr → Addr → Blob → Blob → Bool)

/-- Two words that are not variables. -/
def unifyNonvar (d0 d1 : Nonvar) : UnifyStep :=
  if d0 = d1 then .next
  else
    match d0, d1 with
    | .pair p, .pair q => .visit p q 2 d1
    | .appl p, .appl q =>
      match hp.functorAt p, hp.functorAt q with
      | .functor f, .functor g =>
        if f ≠ g then .fail else .visit (p + 1) (q + 1) f.arityOfFE d1
      | .blob b, .blob c => if boxes p q b c then .next else .fail
      | _, _ => .fail
    | _, _ => .fail

/-- Two dereferenced words. -/
def unifyWords : Cell → Cell → UnifyStep
  | .ref a, .ref b => vars a b
  | .ref a, .nonvar d1 => .bind a (.nonvar d1)
  | .nonvar d0, .ref b => .bind b (.nonvar d0)
  | .nonvar d0, .nonvar d1 => unifyNonvar hp boxes d0 d1

/-- One turn of the loop of `IUnify_complex`, on the cells at `x` and `y`. -/
def unifyArgs (s : Store) (x y : Addr) : UnifyStep :=
  unifyWords hp unifyGlobalCells unifyExtension (s.deref (.ref x)) (s.deref (.ref y))

/-- `Yap_IUnify` up to its calls of `IUnify_complex`. -/
def unifyTop (s : Store) (d0 d1 : Cell) : UnifyStep :=
  unifyWords hp (unifyCells hp.hr) unifyBlob (s.deref d0) (s.deref d1)

end Words

/-- Two variables are bound one to the other, unless they are one variable. -/
structure BindsVars (vars : Addr → Addr → UnifyStep) : Prop where
  self : ∀ a, vars a a = .next
  bind : ∀ a b, a ≠ b → vars a b = .bind a (.ref b) ∨ vars a b = .bind b (.ref a)

theorem bindsVars_unifyGlobalCells : BindsVars unifyGlobalCells := by
  refine ⟨fun a => by simp [unifyGlobalCells], fun a b hab => ?_⟩
  unfold unifyGlobalCells
  rcases lt_or_gt_of_ne hab with hlt | hgt
  · exact .inr (by rw [if_pos hlt])
  · exact .inl (by rw [if_neg hgt.not_gt, if_pos hgt])

theorem bindsVars_unifyCells (hr : Addr) : BindsVars (unifyCells hr) := by
  refine ⟨fun a => ?_, fun a b hab => ?_⟩
  · simp only [unifyCells, bindsVars_unifyGlobalCells.self, lt_irrefl, if_false]
    split
    case isTrue hlt => rw [if_neg hlt.not_gt]
    case isFalse => rfl
  · unfold unifyCells
    split
    · split
      · exact .inr rfl
      · exact bindsVars_unifyGlobalCells.bind a b hab
    · split
      · exact .inl rfl
      case isFalse hba =>
        rw [if_pos (lt_of_le_of_ne (not_lt.mp hba) hab.symm)]
        split
        · exact .inl rfl
        · exact .inr rfl

section Words

variable {hp : Heap} {vars : Addr → Addr → UnifyStep} {boxes : Addr → Addr → Blob → Blob → Bool}

theorem unifyNonvar_ne_bind {d0 d1 : Nonvar} {a : Addr} {c : Cell} :
    unifyNonvar hp boxes d0 d1 ≠ .bind a c := by
  unfold unifyNonvar
  repeat' split
  all_goals rintro ⟨⟩

/-- Only an unbound variable is bound, to the other word. -/
theorem unifyWords_bind (hvars : BindsVars vars) {c0 c1 c : Cell} {a : Addr}
    (h : unifyWords hp vars boxes c0 c1 = .bind a c) :
    c0 ≠ c1 ∧ ((c0 = .ref a ∧ c1 = c) ∨ (c0 = c ∧ c1 = .ref a)) := by
  cases c0 with
  | ref x =>
      cases c1 with
      | ref y =>
          have hxy : x ≠ y := by
            rintro rfl
            rw [unifyWords, hvars.self] at h
            cases h
          refine ⟨by simpa using hxy, ?_⟩
          rcases hvars.bind x y hxy with hv | hv <;> rw [unifyWords, hv] at h <;>
            obtain ⟨rfl, rfl⟩ := UnifyStep.bind.inj h
          · exact .inl ⟨rfl, rfl⟩
          · exact .inr ⟨rfl, rfl⟩
      | nonvar d1 =>
          obtain ⟨rfl, rfl⟩ := UnifyStep.bind.inj h
          exact ⟨nofun, .inl ⟨rfl, rfl⟩⟩
  | nonvar d0 =>
      cases c1 with
      | ref y =>
          obtain ⟨rfl, rfl⟩ := UnifyStep.bind.inj h
          exact ⟨nofun, .inr ⟨rfl, rfl⟩⟩
      | nonvar d1 => exact absurd h unifyNonvar_ne_bind

/-- A binding writes an unbound variable and keeps the chains of references. -/
theorem unifyWords_writable (hvars : BindsVars vars) {s : Store} {c0 c1 c : Cell} {a : Addr}
    (h : unifyWords hp vars boxes (s.deref c0) (s.deref c1) = .bind a c) :
    s.cell a = .ref a ∧ s.Writable a c := by
  obtain ⟨hne, ⟨h0, h1⟩ | ⟨h0, h1⟩⟩ := unifyWords_bind hvars h
  · refine ⟨Store.unbound_of_deref h0, fun b hb => ?_⟩
    subst hb
    refine ⟨fun hba => hne (by rw [h0, h1, hba]), Store.unbound_of_deref h1⟩
  · refine ⟨Store.unbound_of_deref h1, fun b hb => ?_⟩
    subst hb
    refine ⟨fun hba => hne (by rw [h0, h1, hba]), Store.unbound_of_deref h0⟩

end Words

-- ---------------------------------------------------------------------------
-- The loop
-- ---------------------------------------------------------------------------

/-- `v_record`: the next cell of the left block, its end, and the next cell of the
    right block. The pointers of the code are one cell before. -/
structure Frame where
  pt0 : Addr
  pt0End : Addr
  pt1 : Addr

/-- The cells after the next one. -/
def Frame.advance (fr : Frame) : Frame := { fr with pt0 := fr.pt0 + 1, pt1 := fr.pt1 + 1 }

/-- The loop of `IUnify_complex`: the block it is in, the blocks it will return to,
    the overwritten cells with what they held, the last one first, and the store. -/
structure UnifyState where
  frame : Frame
  toVisit : List Frame
  unif : List (Addr × Cell)
  store : Store

/-- One turn of the loop leads to another, or the loop is left. -/
inductive UnifyTurn where
  | go (st : UnifyState)
  | exit (out : Bool)

/-- Puts back what the overwritten cells held. -/
def restore : List (Addr × Cell) → (Addr → Cell) → Addr → Cell
  | [], m => m
  | (ptr, old) :: unif, m => restore unif (Function.update m ptr old)

namespace UnifyState

/-- The loop before its first turn. -/
def init (s : Store) (frame : Frame) : UnifyState := ⟨frame, [], [], s⟩

/-- The memory that the caller sees when the loop is left. -/
def memory (st : UnifyState) : Addr → Cell := restore st.unif st.store.cell

variable (hp : Heap)

/-- The binding of a turn. -/
def bind (st : UnifyState) {a : Addr} {c : Cell}
    (h : unifyArgs hp st.store st.frame.pt0 st.frame.pt1 = .bind a c) : UnifyState :=
  { st with
    frame := st.frame.advance
    store := st.store.set a c (unifyWords_writable bindsVars_unifyGlobalCells h).2 }

/-- The descent of a turn: the left cell is linked to the right word. -/
def descend (st : UnifyState) (l r : Addr) (n : ℕ) (d1 : Nonvar) : UnifyState where
  frame := ⟨l, l + n, r⟩
  toVisit := st.frame.advance :: st.toVisit
  unif := (st.frame.pt0, st.store.cell st.frame.pt0) :: st.unif
  store := st.store.set st.frame.pt0 (.nonvar d1) nofun

def turn (st : UnifyState) : UnifyTurn :=
  if st.frame.pt0 < st.frame.pt0End then
    match h : unifyArgs hp st.store st.frame.pt0 st.frame.pt1 with
    | .fail => .exit false
    | .next => .go { st with frame := st.frame.advance }
    | .bind _ _ => .go (st.bind hp h)
    | .visit l r n d1 => .go (st.descend l r n d1)
  else
    match st.toVisit with
    | [] => .exit true
    | frame :: toVisit => .go { st with frame, toVisit }

/-- The loop, for a number of turns. -/
def run : ℕ → UnifyState → Option (Bool × (Addr → Cell))
  | 0, _ => none
  | turns + 1, st =>
    match st.turn hp with
    | .go st' => run turns st'
    | .exit out => some (out, st.memory)

end UnifyState

/-- `Yap_IUnify`: its answer and the memory it leaves, if its loop makes no more
    than this many turns. -/
def iUnify (hp : Heap) (turns : ℕ) (s : Store) (d0 d1 : Cell) : Option (Bool × (Addr → Cell)) :=
  match unifyTop hp s d0 d1 with
  | .fail => some (false, s.cell)
  | .next => some (true, s.cell)
  | .bind a c => some (true, Function.update s.cell a c)
  | .visit l r n _ => (UnifyState.init s ⟨l, l + n, r⟩).run hp turns

end Yap
