-- SUMMARY: Unification with occurs check as the code computes it: the search for a cycle, the loop that searches after each binding, and the trail.
import Yap.Unify.Code

/-!
# Unification with occurs check

The functions follow `Yap_rational_tree_loop`, `OCUnify_complex` and `OCUnify` of
`unify.c`, and the binding macros of `amiops.h`. The comparison of two words is the
one of `Yap_IUnify` and `IUnify_complex`.
-/

namespace Yap

-- ---------------------------------------------------------------------------
-- The search for a cycle
-- ---------------------------------------------------------------------------

/-- Dereferences a cell in a memory in which `TermFoundVar` has been written to the
    marked cells; `none` when it is met. -/
def Store.derefMarked (s : Store) (marks : List Addr) (a : Addr) : Option Cell :=
  if a ∈ marks then none
  else
    match _h : s.cell a with
    | .ref b => if _hb : b = a then some (.ref a) else s.derefMarked marks b
    | .nonvar d => some (.nonvar d)
termination_by (show s.At from a)
decreasing_by exact ⟨_h, _hb⟩

/-- The block of cells the search is in, and the blocks it will return to, each with
    the marked cell it was left at. -/
structure TreeState where
  pt0 : Addr
  pt0End : Addr
  toVisit : List (Addr × Addr)

inductive TreeTurn where
  | go (ts : TreeState)
  | exit (found : Bool)

namespace TreeState

def marks (ts : TreeState) : List Addr := ts.toVisit.map Prod.fst

def next (ts : TreeState) : TreeState := { ts with pt0 := ts.pt0 + 1 }

/-- Marks the cell and goes to the arguments of its word. -/
def descend (ts : TreeState) (l : Addr) (n : ℕ) : TreeState := ⟨l, l + n, (ts.pt0, ts.pt0End) :: ts.toVisit⟩

variable (hp : Heap) (s : Store)

/-- One turn of `Yap_rational_tree_loop`. -/
def turn (ts : TreeState) : TreeTurn :=
  if ts.pt0 < ts.pt0End then
    match s.derefMarked ts.marks ts.pt0 with
    | none => .exit true
    | some (.nonvar (.pair p)) => .go (ts.descend p 2)
    | some (.nonvar (.appl p)) =>
      match hp.functorAt p with
      | .functor f => .go (ts.descend (p + 1) f.arityOfFE)
      | .blob _ => .go ts.next
    | some _ => .go ts.next
  else
    match ts.toVisit with
    | [] => .exit false
    | (pt0, pt0End) :: toVisit => .go ⟨pt0 + 1, pt0End, toVisit⟩

/-- The search, for a number of turns. -/
def run : ℕ → TreeState → Option Bool
  | 0, _ => none
  | turns + 1, ts =>
    match ts.turn hp s with
    | .go ts' => run turns ts'
    | .exit found => some found

end TreeState

section

variable (hp : Heap)

/-- `Yap_rational_tree_loop` on one cell. -/
def rationalTreeCell (turns : ℕ) (s : Store) (a : Addr) : Option Bool :=
  TreeState.run hp s turns ⟨a, a + 1, []⟩

/-- `rational_tree`. -/
def rationalTree (turns : ℕ) (s : Store) (d0 : Nonvar) : Option Bool :=
  TreeState.run hp s turns ⟨(d0.block hp).1, (d0.block hp).1 + (d0.block hp).2, []⟩

end

-- ---------------------------------------------------------------------------
-- The trail
-- ---------------------------------------------------------------------------

/-- The registers that decide what is trailed, and the top of the local stack. -/
structure Registers where
  hb : Addr
  b : Addr
  lcl0 : Addr

/-- `TRAIL_GLOBAL`. -/
def trailGlobal (regs : Registers) (a : Addr) : List Addr := if a < regs.hb then [a] else []

/-- `TRAIL_LOCAL`. -/
def trailLocal (regs : Registers) (a : Addr) : List Addr := if regs.b < a then [a] else []

/-- The trailing of `YapBind` and of `UnifyCells`. -/
def trailBind (hp : Heap) (regs : Registers) (a : Addr) : List Addr :=
  if a < hp.hr then trailGlobal regs a else trailLocal regs a

/-- `reset_trail`: the trailed variables become unbound. -/
def resetTrail : List Addr → (Addr → Cell) → Addr → Cell
  | [], m => m
  | a :: trail, m => resetTrail trail (Function.update m a (.ref a))

-- ---------------------------------------------------------------------------
-- The loop
-- ---------------------------------------------------------------------------

/-- One turn of the loop of `OCUnify_complex` leads to another, or the loop is left;
    with what has been trailed. -/
inductive OCTurn where
  | go (st : UnifyState) (trail : List Addr)
  | exit (out : Bool) (st : UnifyState) (trail : List Addr)

/-- Goes on unless a cycle has been found. -/
def OCTurn.unless (st : UnifyState) (trail : List Addr) : Bool → OCTurn
  | true => .exit false st trail
  | false => .go st trail

namespace UnifyState

variable (hp : Heap) (regs : Registers)

/-- Both cells lead to one word. -/
def sameWord (st : UnifyState) : Bool :=
  match st.store.deref (.ref st.frame.pt0), st.store.deref (.ref st.frame.pt1) with
  | .nonvar d0, .nonvar d1 => d0 = d1
  | _, _ => false

/-- One turn of the loop; the searches make no more than this many turns. -/
def ocTurn (turns : ℕ) (st : UnifyState) : Option OCTurn :=
  if st.frame.pt0 < st.frame.pt0End then
    match h : unifyArgs hp st.store st.frame.pt0 st.frame.pt1 with
    | .fail => some (.exit false st [])
    | .next =>
      if st.sameWord then
        (rationalTreeCell hp turns st.store st.frame.pt0).map
          (OCTurn.unless { st with frame := st.frame.advance } [])
      else some (.go { st with frame := st.frame.advance } [])
    | .bind a (.ref _) => some (.go (st.bind hp h) (trailGlobal regs a))
    | .bind a (.nonvar _) =>
      (rationalTreeCell hp turns (st.bind hp h).store a).map
        (OCTurn.unless (st.bind hp h) (trailGlobal regs a))
    | .visit l r n d1 => some (.go (st.descend l r n d1) [])
  else
    match st.toVisit with
    | [] => some (.exit true st [])
    | frame :: toVisit => some (.go { st with frame, toVisit } [])

/-- The loop, for a number of turns: its answer, the memory it leaves and the trail,
    the last variable first. -/
def ocRun : ℕ → UnifyState → List Addr → Option (Bool × (Addr → Cell) × List Addr)
  | 0, _, _ => none
  | turns + 1, st, trail =>
    match st.ocTurn hp regs turns with
    | none => none
    | some (.go st' new) => ocRun turns st' (new ++ trail)
    | some (.exit out st' new) => some (out, st'.memory, new ++ trail)

end UnifyState

/-- `OCUnify`: its answer, the memory it leaves and what it has trailed, if its loops
    make no more than this many turns. -/
def ocUnify (hp : Heap) (regs : Registers) (turns : ℕ) (s : Store) (d0 d1 : Cell) :
    Option (Bool × (Addr → Cell) × List Addr) :=
  match h : unifyTop hp s d0 d1 with
  | .fail => some (false, s.cell, [])
  | .next =>
    match s.deref d0, s.deref d1 with
    | .nonvar e0, .nonvar e1 =>
      if e0 = e1 then (rationalTree hp turns s e0).map fun found => (!found, s.cell, [])
      else some (true, s.cell, [])
    | _, _ => some (true, s.cell, [])
  | .bind a (.ref b) => some (true, Function.update s.cell a (.ref b), trailBind hp regs a)
  | .bind a (.nonvar d) =>
    -- local variables cannot be in a term
    if hp.hr < a ∧ a < regs.lcl0 then some (true, Function.update s.cell a (.nonvar d), trailBind hp regs a)
    else
      (rationalTree hp turns
        (s.set a (.nonvar d) (unifyWords_writable (bindsVars_unifyCells hp.hr) h).2) d).map
        fun found => (!found, Function.update s.cell a (.nonvar d), trailBind hp regs a)
  | .visit l r n _ => (UnifyState.init s ⟨l, l + n, r⟩).ocRun hp regs turns []

end Yap
