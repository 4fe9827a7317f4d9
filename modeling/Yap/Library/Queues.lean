-- SUMMARY: Queues of library(queues) as difference lists with an unbound tail, and when runs of the operations are those of a sequence.
import Yap.Base.Fueled

/-!
# Queues

A queue is a pair of partial lists: its front, and the variable at the end of
it. Joining binds this variable, so the store of bindings is part of the state.
Elements are opaque values; a variable that is opened as a cell gets a new
variable as its head.
-/

namespace Yap

namespace Queues

inductive Elem (α : Type*) where
  | val (a : α)
  | var (n : ℕ)
  deriving DecidableEq

/-- A partial list. -/
inductive PList (α : Type*) where
  | var (n : ℕ)
  | nil
  | cons (head : Elem α) (tail : PList α)

/-- Bindings of variables: lists are bound to cells, heads to values. -/
structure Store (α : Type*) where
  tails : ℕ → Option (Elem α × PList α)
  heads : ℕ → Option α
  next : ℕ
  fresh : ∀ n, next ≤ n → tails n = none ∧ heads n = none

variable {α : Type*}

-- ---------------------------------------------------------------------------
-- Variables
-- ---------------------------------------------------------------------------

def Store.deref (s : Store α) : PList α → PList α
  | .var n =>
    match s.tails n with
    | some (head, tail) => .cons head tail
    | none => .var n
  | t => t

def Store.derefElem (s : Store α) : Elem α → Elem α
  | .var n =>
    match s.heads n with
    | some a => .val a
    | none => .var n
  | e => e

/-- The store after the variable `next` was made. -/
def Store.newVar (s : Store α) : Store α where
  tails := s.tails
  heads := s.heads
  next := s.next + 1
  fresh n hn := s.fresh n (Nat.le_of_succ_le hn)

def Store.bindTail (s : Store α) (n : ℕ) (cell : Elem α × PList α) : Store α where
  tails := Function.update s.tails n (some cell)
  heads := s.heads
  next := max s.next (n + 1)
  fresh k hk := by
    rw [Function.update_of_ne (by omega)]
    exact s.fresh k (le_of_max_le_left hk)

def Store.bindHead (s : Store α) (n : ℕ) (a : α) : Store α where
  tails := s.tails
  heads := Function.update s.heads n (some a)
  next := max s.next (n + 1)
  fresh k hk := by
    rw [Function.update_of_ne (by omega)]
    exact s.fresh k (le_of_max_le_left hk)

/-- Unification with `[Head|Tail]` for new variables. -/
def openCell (s : Store α) (t : PList α) : Fueled (Store α × Elem α × PList α) :=
  match s.deref t with
  | .var n =>
    .ok (s.newVar.newVar.bindTail n (.var s.next, .var (s.next + 1)), .var s.next, .var (s.next + 1))
  | .nil => .fail
  | .cons head tail => .ok (s, head, tail)

section Comparison

variable [DecidableEq α]

/-- Unification with `[Element|Back]` for a new variable `Back`. -/
def unifyCell (s : Store α) (element : α) (t : PList α) : Fueled (Store α × PList α) :=
  match s.deref t with
  | .var n => .ok (s.newVar.bindTail n (.val element, .var s.next), .var s.next)
  | .nil => .fail
  | .cons head tail =>
    match s.derefElem head with
    | .val a => if a = element then .ok (s, tail) else .fail
    | .var n => .ok (s.bindHead n element, tail)

/-- `==/2` on partial lists, with a bound on the cells. -/
def same (s : Store α) : ℕ → PList α → PList α → Fueled Bool
  | 0, _, _ => .more
  | n + 1, t, t' =>
    match s.deref t, s.deref t' with
    | .var m, .var m' => .ok (m = m')
    | .nil, .nil => .ok true
    | .cons head tail, .cons head' tail' =>
      if s.derefElem head = s.derefElem head' then same s n tail tail' else .ok false
    | _, _ => .ok false

end Comparison

-- ---------------------------------------------------------------------------
-- Code
-- ---------------------------------------------------------------------------

/-- A store and a queue `Front-Back`. -/
structure State (α : Type*) where
  store : Store α
  front : PList α
  back : PList α

def makeQueue (s : Store α) : State α := ⟨s.newVar, .var s.next, .var s.next⟩

/-- `append/3` of `library(lists)` for a list and a partial list. -/
def append : List α → PList α → PList α
  | [], t => t
  | a :: l, t => .cons (.val a) (append l t)

def listJoinQueue (list : List α) (s : State α) : State α := ⟨s.store, s.front, append list s.back⟩

def jumpQueue (element : α) (s : State α) : State α := ⟨s.store, .cons (.val element) s.front, s.back⟩

def listJumpQueue (list : List α) (s : State α) : State α := ⟨s.store, append list s.front, s.back⟩

section Code

variable [DecidableEq α]

def joinQueue (element : α) (s : State α) : Fueled (State α) :=
  (unifyCell s.store element s.back).bind fun p => .ok ⟨p.1, s.front, p.2⟩

def headQueue (n : ℕ) (s : State α) : Fueled (Store α × Elem α) :=
  (same s.store n s.front s.back).bind fun b =>
    if b then .fail else (openCell s.store s.front).bind fun p => .ok (p.1, p.2.1)

def serveQueue (n : ℕ) (s : State α) : Fueled (Elem α × State α) :=
  (same s.store n s.front s.back).bind fun b =>
    if b then .fail else (openCell s.store s.front).bind fun p => .ok (p.2.1, ⟨p.1, p.2.2, s.back⟩)

/-- `length_queue/4`. -/
def lengthQueue4 : ℕ → Store α → PList α → PList α → ℕ → Fueled (Store α × ℕ)
  | 0, _, _, _, _ => .more
  | n + 1, s, front, back, k =>
    (same s (n + 1) front back).bind fun b =>
      if b then .ok (s, k) else (openCell s front).bind fun p => lengthQueue4 n p.1 p.2.2 back (k + 1)

def lengthQueue (n : ℕ) (s : State α) : Fueled (Store α × ℕ) := lengthQueue4 n s.store s.front s.back 0

/-- `queue_to_list/3`. -/
def queueToList3 : ℕ → Store α → PList α → PList α → Fueled (Store α × List (Elem α))
  | 0, _, _, _ => .more
  | n + 1, s, front, back =>
    (same s (n + 1) front back).bind fun b =>
      if b then .ok (s, [])
      else (openCell s front).bind fun p =>
        (queueToList3 n p.1 p.2.2 back).bind fun q => .ok (q.1, p.2.1 :: q.2)

def queueToList (n : ℕ) (s : State α) : Fueled (Store α × List (Elem α)) :=
  queueToList3 n s.store s.front s.back

end Code

-- ---------------------------------------------------------------------------
-- Runs
-- ---------------------------------------------------------------------------

inductive Op (α : Type*) where
  | make
  | join (element : α)
  | listJoin (list : List α)
  | jump (element : α)
  | listJump (list : List α)
  | serve

section Runs

variable [DecidableEq α]

def step (n : ℕ) : Op α → State α → Fueled (State α)
  | .make, s => .ok (makeQueue s.store)
  | .join element, s => joinQueue element s
  | .listJoin list, s => .ok (listJoinQueue list s)
  | .jump element, s => .ok (jumpQueue element s)
  | .listJump list, s => .ok (listJumpQueue list s)
  | .serve, s => (serveQueue n s).bind fun p => .ok p.2

/-- The operations one after the other, each on the latest queue. -/
def run (n : ℕ) : List (Op α) → State α → Fueled (State α)
  | [], s => .ok s
  | op :: ops, s => (step n op s).bind (run n ops)

end Runs

-- ---------------------------------------------------------------------------
-- Sequences
-- ---------------------------------------------------------------------------

/-- The operations on sequences; nothing is served from the empty one. -/
def modelStep : Op α → List α → Option (List α)
  | .make, _ => some []
  | .join element, l => some (l ++ [element])
  | .listJoin list, l => some (l ++ list)
  | .jump element, l => some (element :: l)
  | .listJump list, l => some (list ++ l)
  | .serve, [] => none
  | .serve, _ :: l => some l

def modelRun : List (Op α) → List α → Option (List α)
  | [], l => some l
  | op :: ops, l => (modelStep op l).bind (modelRun ops)

theorem modelRun_append (ops : List (Op α)) (op : Op α) (l : List α) :
    modelRun (ops ++ [op]) l = (modelRun ops l).bind (modelStep op) := by
  induction ops generalizing l with
  | nil =>
    simp only [List.nil_append, modelRun, Option.bind_some]
    cases modelStep op l <;> rfl
  | cons op' ops ih =>
    simp only [List.cons_append, modelRun]
    cases modelStep op' l with
    | none => rfl
    | some l' => exact ih l'

/-- No list but the empty one is joined in the part of the run before a failure. -/
def EmptyJoins (ops : List (Op α)) : Prop :=
  ∀ p list, p ++ [.listJoin list] <+: ops → modelRun p [] ≠ none → list = []

-- ---------------------------------------------------------------------------
-- Segments
-- ---------------------------------------------------------------------------

/-- A partial list of values that ends in an unbound variable. -/
inductive Segment (s : Store α) : PList α → List α → ℕ → Prop
  | nil {m : ℕ} : s.tails m = none → Segment s (.var m) [] m
  | bound {k : ℕ} {a : α} {t : PList α} {l : List α} {m : ℕ} :
      s.tails k = some (.val a, t) → Segment s t l m → Segment s (.var k) (a :: l) m
  | cons {a : α} {t : PList α} {l : List α} {m : ℕ} : Segment s t l m → Segment s (.cons (.val a) t) (a :: l) m

/-- The representation of a sequence. -/
structure Good (s : State α) (l : List α) : Prop where
  segment : ∃ m, s.back = .var m ∧ m < s.store.next ∧ Segment s.store s.front l m

theorem Segment.unbound {s : Store α} {t : PList α} {l : List α} {m : ℕ} (h : Segment s t l m) :
    s.tails m = none := by
  induction h with
  | nil hm => exact hm
  | bound _ _ ih => exact ih
  | cons _ ih => exact ih

theorem Segment.deref_nil {s : Store α} {t : PList α} {m : ℕ} (h : Segment s t [] m) : s.deref t = .var m := by
  cases h with
  | nil hm => simp [Store.deref, hm]

theorem Segment.deref_cons {s : Store α} {t : PList α} {a : α} {l : List α} {m : ℕ}
    (h : Segment s t (a :: l) m) : ∃ r, s.deref t = .cons (.val a) r ∧ Segment s r l m := by
  cases h with
  | bound hk ht => exact ⟨_, by simp [Store.deref, hk], ht⟩
  | cons ht => exact ⟨_, rfl, ht⟩

/-- Binding the end of a segment to a cell adds its head. -/
theorem Segment.extend {s s' : Store α} {t : PList α} {l : List α} {m k : ℕ} {a : α} (h : Segment s t l m)
    (hbound : s'.tails m = some (.val a, .var k)) (hframe : ∀ j, j ≠ m → s'.tails j = s.tails j)
    (hk : s'.tails k = none) : Segment s' t (l ++ [a]) k := by
  induction h with
  | nil _ => exact .bound hbound (.nil hk)
  | @bound j b r l m hj hr ih =>
    have hne : j ≠ m := by
      rintro rfl
      rw [hr.unbound] at hj
      cases hj
    exact .bound ((hframe j hne).trans hj) (ih hbound hframe)
  | cons _ ih => exact .cons (ih hbound hframe)

theorem Segment.append {s : Store α} {t : PList α} {l : List α} {m : ℕ} (h : Segment s t l m) (list : List α) :
    Segment s (append list t) (list ++ l) m := by
  induction list with
  | nil => exact h
  | cons a list ih => exact .cons ih

theorem openCell_cons {s : Store α} {t : PList α} {m : ℕ} {a : α} {l : List α} (h : Segment s t (a :: l) m) :
    ∃ r, openCell s t = .ok (s, .val a, r) ∧ Segment s r l m := by
  obtain ⟨r, hr, hseg⟩ := h.deref_cons
  exact ⟨r, by simp [openCell, hr], hseg⟩

theorem good_makeQueue (s : Store α) : Good (makeQueue s) [] :=
  ⟨s.next, rfl, Nat.lt_succ_self _, .nil (s.fresh s.next le_rfl).1⟩

-- ---------------------------------------------------------------------------
-- Operations on segments
-- ---------------------------------------------------------------------------

variable [DecidableEq α]

section Operations

variable {s : Store α} {t : PList α} {m : ℕ}

theorem same_nil (h : Segment s t [] m) (n : ℕ) : same s (n + 1) t (.var m) = .ok true := by
  have hback : s.deref (.var m) = .var m := by simp [Store.deref, h.unbound]
  simp [same, h.deref_nil, hback]

theorem same_cons {a : α} {l : List α} (h : Segment s t (a :: l) m) (n : ℕ) :
    same s (n + 1) t (.var m) = .ok false := by
  have hback : s.deref (.var m) = .var m := by simp [Store.deref, h.unbound]
  obtain ⟨r, hr, -⟩ := h.deref_cons
  simp [same, hr, hback]

theorem queueToList3_eq {l : List α} (h : Segment s t l m) {n : ℕ} (hn : l.length < n) :
    queueToList3 n s t (.var m) = .ok (s, l.map .val) := by
  induction n generalizing t l with
  | zero => exact absurd hn (Nat.not_lt_zero _)
  | succ n ih =>
    cases l with
    | nil => simp [queueToList3, same_nil h]
    | cons a l =>
      obtain ⟨r, heq, hseg⟩ := openCell_cons h
      simp [queueToList3, same_cons h, heq, ih hseg (Nat.lt_of_succ_lt_succ hn)]

theorem lengthQueue4_eq {l : List α} (h : Segment s t l m) {n : ℕ} (hn : l.length < n) (k : ℕ) :
    lengthQueue4 n s t (.var m) k = .ok (s, k + l.length) := by
  induction n generalizing t l k with
  | zero => exact absurd hn (Nat.not_lt_zero _)
  | succ n ih =>
    cases l with
    | nil => simp [lengthQueue4, same_nil h]
    | cons a l =>
      obtain ⟨r, heq, hseg⟩ := openCell_cons h
      have hcount : k + 1 + l.length = k + (a :: l).length := by
        rw [List.length_cons]
        omega
      simp [lengthQueue4, same_cons h, heq, ih hseg (Nat.lt_of_succ_lt_succ hn), hcount]

end Operations

-- ---------------------------------------------------------------------------
-- Steps and runs
-- ---------------------------------------------------------------------------

/-- The queue answers as the sequence: its elements, their number, the first of them, failure when
there is none; and its tail is an unbound variable. -/
structure Agree (s : State α) (l : List α) : Prop where
  toList : ∀ n, l.length < n → queueToList n s = .ok (s.store, l.map .val)
  length : ∀ n, l.length < n → lengthQueue n s = .ok (s.store, l.length)
  empty : l = [] → ∀ n, headQueue (n + 1) s = .fail ∧ serveQueue (n + 1) s = .fail
  first : ∀ a l', l = a :: l' → ∃ s', ∀ n, headQueue (n + 1) s = .ok (s.store, .val a) ∧
    serveQueue (n + 1) s = .ok (.val a, s')
  tail : ∃ m, s.store.deref s.back = .var m

/-- The run fails when the run on the sequence does, and else ends in a queue that agrees with it. -/
structure Refines (start : Store α) (ops : List (Op α)) : Prop where
  fails : modelRun ops [] = none → ∀ n, run (n + 1) ops (makeQueue start) = .fail
  agrees : ∀ l, modelRun ops [] = some l →
    ∃ s, (∀ n, run (n + 1) ops (makeQueue start) = .ok s) ∧ Agree s l

theorem Good.serve {s : State α} {a : α} {l : List α} (h : Good s (a :: l)) :
    ∃ s', (∀ n, headQueue (n + 1) s = .ok (s.store, .val a)) ∧
      (∀ n, serveQueue (n + 1) s = .ok (.val a, s')) ∧ Good s' l := by
  obtain ⟨m, hback, hm, hseg⟩ := h.segment
  obtain ⟨r, heq, hr⟩ := openCell_cons hseg
  refine ⟨⟨s.store, r, s.back⟩, fun n => ?_, fun n => ?_, ⟨m, hback, hm, hr⟩⟩
  · simp [headQueue, hback, same_cons hseg, heq]
  · simp [serveQueue, hback, same_cons hseg, heq]

theorem Good.empty {s : State α} (h : Good s []) (n : ℕ) :
    headQueue (n + 1) s = .fail ∧ serveQueue (n + 1) s = .fail := by
  obtain ⟨m, hback, -, hseg⟩ := h.segment
  simp [headQueue, serveQueue, hback, same_nil hseg]

theorem Good.agree {s : State α} {l : List α} (h : Good s l) : Agree s l := by
  obtain ⟨m, hback, hm, hseg⟩ := h.segment
  refine ⟨fun n hn => ?_, fun n hn => ?_, ?_, ?_, m, ?_⟩
  · rw [queueToList, hback]
    exact queueToList3_eq hseg hn
  · rw [lengthQueue, hback, lengthQueue4_eq hseg hn, Nat.zero_add]
  · rintro rfl
    exact h.empty
  · rintro a l' rfl
    obtain ⟨s', hhead, hserve, -⟩ := h.serve
    exact ⟨s', fun n => ⟨hhead n, hserve n⟩⟩
  · simp [hback, Store.deref, hseg.unbound]

/-- The old tail is bound to the element in front of a new variable. -/
theorem Good.join {s : State α} {l : List α} (h : Good s l) (element : α) :
    ∃ s', joinQueue element s = .ok s' ∧ Good s' (l ++ [element]) := by
  obtain ⟨m, hback, hm, hseg⟩ := h.segment
  have hderef : s.store.deref s.back = .var m := by simp [hback, Store.deref, hseg.unbound]
  have hnew : (s.store.newVar.bindTail m (.val element, .var s.store.next)).tails s.store.next = none := by
    simp only [Store.bindTail, Store.newVar]
    rw [Function.update_of_ne hm.ne']
    exact (s.store.fresh _ le_rfl).1
  refine ⟨⟨s.store.newVar.bindTail m (.val element, .var s.store.next), s.front, .var s.store.next⟩, ?_,
    ⟨s.store.next, rfl, ?_, hseg.extend ?_ (fun j hj => ?_) hnew⟩⟩
  · simp [joinQueue, unifyCell, hderef]
  · exact lt_of_lt_of_le (Nat.lt_succ_self _) (le_max_left _ _)
  · simp [Store.bindTail]
  · simp [Store.bindTail, Store.newVar, hj]

theorem step_of_some {s : State α} {l l' : List α} {op : Op α} (hmodel : modelStep op l = some l')
    (h : ∃ s', (∀ n, step (n + 1) op s = .ok s') ∧ Good s' l') :
    (modelStep op l = none → ∀ n, step (n + 1) op s = .fail) ∧
      ∀ l', modelStep op l = some l' → ∃ s', (∀ n, step (n + 1) op s = .ok s') ∧ Good s' l' := by
  rw [hmodel]
  refine ⟨fun hnone => absurd hnone (Option.some_ne_none l'), fun k hk => ?_⟩
  cases hk
  exact h

/-- Every operation keeps the representation; a list is joined only when it is empty. -/
theorem Good.step {s : State α} {l : List α} (h : Good s l) {op : Op α}
    (hop : ∀ list, op = .listJoin list → list = []) :
    (modelStep op l = none → ∀ n, step (n + 1) op s = .fail) ∧
      ∀ l', modelStep op l = some l' → ∃ s', (∀ n, step (n + 1) op s = .ok s') ∧ Good s' l' := by
  obtain ⟨m, hback, hm, hseg⟩ := h.segment
  cases op with
  | make => exact step_of_some rfl ⟨_, fun _ => rfl, good_makeQueue s.store⟩
  | join element =>
    obtain ⟨s', heq, hgood⟩ := h.join element
    exact step_of_some rfl ⟨s', fun _ => heq, hgood⟩
  | listJoin list =>
    obtain rfl := hop list rfl
    exact step_of_some (congrArg some (List.append_nil l)) ⟨_, fun _ => rfl, h⟩
  | jump element => exact step_of_some rfl ⟨_, fun _ => rfl, ⟨m, hback, hm, .cons hseg⟩⟩
  | listJump list => exact step_of_some rfl ⟨_, fun _ => rfl, ⟨m, hback, hm, hseg.append list⟩⟩
  | serve =>
    cases l with
    | nil =>
      refine ⟨fun _ n => ?_, fun l' hl' => absurd hl' (Option.some_ne_none l').symm⟩
      simp [Queues.step, (h.empty n).2]
    | cons a l =>
      obtain ⟨s', -, hserve, hgood⟩ := h.serve
      exact step_of_some rfl ⟨s', fun n => by simp [Queues.step, hserve n], hgood⟩

theorem run_append (n : ℕ) (ops : List (Op α)) (op : Op α) (s : State α) :
    run n (ops ++ [op]) s = (run n ops s).bind (step n op) := by
  induction ops generalizing s with
  | nil =>
    simp only [List.nil_append, run, Fueled.bind_ok]
    cases step n op s <;> rfl
  | cons op' ops ih =>
    simp only [List.cons_append, run]
    cases step n op' s with
    | more => rfl
    | fail => rfl
    | ok s' => exact ih s'

theorem run_good (start : Store α) (ops : List (Op α)) (h : EmptyJoins ops) :
    (modelRun ops [] = none → ∀ n, run (n + 1) ops (makeQueue start) = .fail) ∧
      ∀ l, modelRun ops [] = some l → ∃ s, (∀ n, run (n + 1) ops (makeQueue start) = .ok s) ∧ Good s l := by
  induction ops using List.reverseRecOn with
  | nil =>
    refine ⟨fun hnone => absurd hnone (Option.some_ne_none _), fun l hl => ?_⟩
    cases hl
    exact ⟨_, fun _ => rfl, good_makeQueue start⟩
  | append_singleton ops op ih =>
    obtain ⟨hfail, hok⟩ := ih fun p list hp => h p list (hp.trans (List.prefix_append _ _))
    rw [modelRun_append]
    simp only [run_append]
    cases hmodel : modelRun ops [] with
    | none =>
      exact ⟨fun _ n => by rw [hfail hmodel n]; rfl, fun l hl => absurd hl (Option.some_ne_none l).symm⟩
    | some k =>
      obtain ⟨s, hrun, hgood⟩ := hok k hmodel
      have hop : ∀ list, op = .listJoin list → list = [] := by
        rintro list rfl
        exact h ops list (List.prefix_refl _) (by simp [hmodel])
      obtain ⟨hstepfail, hstepok⟩ := hgood.step hop
      simp only [hrun, Fueled.bind_ok, Option.bind_some]
      exact ⟨hstepfail, hstepok⟩

/-- **Refinement.** All parts of a run from its start refine the run on the sequence exactly when
only empty lists are joined as lists. -/
theorem refines_iff (start : Store α) (ops : List (Op α)) :
    (∀ p, p <+: ops → Refines start p) ↔ EmptyJoins ops := by
  constructor
  · intro h p list hp hreached
    obtain ⟨k, hk⟩ := Option.ne_none_iff_exists'.mp hreached
    obtain ⟨s, hrun, -⟩ := (h p ((List.prefix_append _ _).trans hp)).agrees k hk
    obtain ⟨s', hrun', hagree⟩ := (h _ hp).agrees (k ++ list) (by rw [modelRun_append, hk]; rfl)
    have hs' : s' = listJoinQueue list s := by
      have heq := hrun' 0
      rw [run_append, hrun 0] at heq
      cases heq
      rfl
    obtain ⟨m, hm⟩ := hagree.tail
    rw [hs'] at hm
    cases list with
    | nil => rfl
    | cons a list => cases hm
  · intro h p hp
    obtain ⟨hfail, hok⟩ := run_good start p fun q list hq => h q list (hq.trans hp)
    refine ⟨hfail, fun l hl => ?_⟩
    obtain ⟨s, hrun, hgood⟩ := hok l hl
    exact ⟨s, hrun, hgood.agree⟩

/-- After the list `[1]` was joined the tail is no variable. -/
theorem not_refines : ¬ ∀ (start : Store ℕ) (ops : List (Op ℕ)), Refines start ops := by
  intro h
  have hrefines := h ⟨fun _ => none, fun _ => none, 0, fun _ _ => ⟨rfl, rfl⟩⟩ [.listJoin [1]]
  obtain ⟨s, hrun, hagree⟩ := hrefines.agrees [1] rfl
  obtain ⟨m, hm⟩ := hagree.tail
  cases hrun 0
  cases hm

end Queues

end Yap
