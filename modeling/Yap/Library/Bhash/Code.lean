-- SUMMARY: Backtrackable hash tables of library(bhash): lookup, update and insertion with linear probing, and growth.
import Yap.Base.Fueled
import Yap.Base.Strides

/-!
# Backtrackable hash tables

A table has an array of keys and one of mutable terms with the values; an array
element without a key is an unbound variable. The number of keys is a mutable
term too. An insertion that fills more than a third of the table goes on with
the larger table, written into the old term when the caller gave this term as
the new one; either way later calls see the same arrays.

`b_hash_new/1` calls `array_default_size/1`, a clause inside of a comment, so
tables are made with the predicates that are given a size.
-/

namespace Yap

namespace Bhash

open Probing

/-- A hash function with results in range, and a comparison that it respects. -/
structure Functions (κ : Type*) where
  hashF : κ → (size : ℕ) → 0 < size → Fin size
  cmpF : κ → κ → Bool
  equivalence : Equivalence fun a b => cmpF a b = true
  respects : ∀ a b, cmpF a b = true → ∀ size pos, hashF a size pos = hashF b size pos

/-- The comparison by `==/2` goes with every hash function. -/
def Functions.identical {κ : Type*} [DecidableEq κ] (hashF : κ → (size : ℕ) → 0 < size → Fin size) :
    Functions κ where
  hashF := hashF
  cmpF a b := a = b
  equivalence := ⟨fun _ => by simp, fun h => by simpa using (of_decide_eq_true h).symm,
    fun h h' => by simpa using (of_decide_eq_true h).trans (of_decide_eq_true h')⟩
  respects a b h size pos := by rw [of_decide_eq_true h]

/-- The arrays of a table; values are references to mutable terms. -/
structure Table (κ : Type*) (size : ℕ) where
  keys : Fin size → Option κ
  vals : Fin size → Option ℕ

/-- A table with its size and the number of its keys, and the contents of the mutable terms. -/
structure State (κ ν : Type*) where
  size : ℕ
  pos : 0 < size
  table : Table κ size
  n : ℕ
  mutables : List ν

variable {κ ν : Type*} {size : ℕ}

-- ---------------------------------------------------------------------------
-- Arrays and mutable terms
-- ---------------------------------------------------------------------------

/-- Unification of the elements at an index, both unbound, with a key and a value. -/
def Table.put (t : Table κ size) (index : Fin size) (key : κ) (val : Option ℕ) : Table κ size where
  keys := Function.update t.keys index (some key)
  vals := Function.update t.vals index val

/-- The mutable term of an index; a key without one is an error. -/
def mutableOf (s : State κ ν) (index : Fin s.size) : Fueled ℕ :=
  match s.table.vals index with
  | some mutable => .ok mutable
  | none => .fail

def getMutable (s : State κ ν) (mutable : ℕ) : Fueled ν :=
  match s.mutables[mutable]? with
  | some val => .ok val
  | none => .fail

def updateMutable (s : State κ ν) (newVal : ν) (mutable : ℕ) : State κ ν :=
  { s with mutables := s.mutables.set mutable newVal }

-- ---------------------------------------------------------------------------
-- Code
-- ---------------------------------------------------------------------------

def emptyTable (size : ℕ) : Table κ size := ⟨fun _ => none, fun _ => none⟩

/-- `b_hash_new/2` and `b_hash_new/4`. -/
def bHashNew (size : ℕ) (pos : 0 < size) : State κ ν := ⟨size, pos, emptyTable size, 0, []⟩

def fetchKey (f : Functions κ) (t : Table κ size) (key : κ) : ℕ → Fin size → Fueled (Fin size)
  | 0, _ => .more
  | n + 1, index =>
    match t.keys index with
    | none => .fail
    | some el => if f.cmpF el key then .ok index else fetchKey f t key n (next index)

def bHashLookup (f : Functions κ) (n : ℕ) (key : κ) (s : State κ ν) : Fueled ν :=
  (fetchKey f s.table key n (f.hashF key s.size s.pos)).bind fun actualIndex =>
    (mutableOf s actualIndex).bind fun mutable => getMutable s mutable

/-- `b_hash_update/3`. -/
def bHashUpdate (f : Functions κ) (n : ℕ) (s : State κ ν) (key : κ) (newVal : ν) : Fueled (State κ ν) :=
  (fetchKey f s.table key n (f.hashF key s.size s.pos)).bind fun actualIndex =>
    (mutableOf s actualIndex).bind fun mutable => .ok (updateMutable s newVal mutable)

/-- `b_hash_update/4`: also the old value. -/
def bHashUpdate4 (f : Functions κ) (n : ℕ) (s : State κ ν) (key : κ) (newVal : ν) : Fueled (ν × State κ ν) :=
  (fetchKey f s.table key n (f.hashF key s.size s.pos)).bind fun actualIndex =>
    (mutableOf s actualIndex).bind fun mutable =>
      (getMutable s mutable).bind fun oldVal => .ok (oldVal, updateMutable s newVal mutable)

def newSize (size : ℕ) : ℕ := if 1048576 < size then size + 1048576 else size * 2

theorem lt_newSize {size : ℕ} (pos : 0 < size) : size < newSize size := by
  unfold newSize
  split_ifs <;> omega

def findFree (t : Table κ size) : ℕ → Fin size → Fueled (Fin size)
  | 0, _ => .more
  | n + 1, index =>
    match t.keys index with
    | none => .ok index
    | some _ => findFree t n (next index)

def insertEl (f : Functions κ) (n : ℕ) (key : κ) (val : Option ℕ) (pos : 0 < size) (new : Table κ size) :
    Fueled (Table κ size) :=
  (findFree new n (f.hashF key size pos)).bind fun trueIndex => .ok (new.put trueIndex key val)

def copyHashTable (f : Functions κ) (n : ℕ) (t : Table κ size) {newSize : ℕ} (pos : 0 < newSize) :
    (i1 : ℕ) → i1 ≤ size → Table κ newSize → Fueled (Table κ newSize)
  | 0, _, new => .ok new
  | i + 1, h, new =>
    match t.keys ⟨i, h⟩ with
    | some key =>
      (insertEl f n key (t.vals ⟨i, h⟩) pos new).bind fun new => copyHashTable f n t pos i (Nat.le_of_succ_le h) new
    | none => copyHashTable f n t pos i (Nat.le_of_succ_le h) new

def expandArray (f : Functions κ) (n : ℕ) (pos : 0 < size) (t : Table κ size) : Fueled (Table κ (newSize size)) :=
  copyHashTable f n t (pos.trans (lt_newSize pos)) size le_rfl (emptyTable (newSize size))

/-- `NN > Size/3` compares with the exact quotient. -/
def addElement (f : Functions κ) (n : ℕ) (s : State κ ν) (index : Fin s.size) (key : κ) (newVal : ν) :
    Fueled (State κ ν) :=
  if s.size < 3 * (s.n + 1) then
    (expandArray f n s.pos (s.table.put index key (some s.mutables.length))).bind fun t =>
      .ok ⟨newSize s.size, s.pos.trans (lt_newSize s.pos), t, s.n + 1, s.mutables ++ [newVal]⟩
  else .ok ⟨s.size, s.pos, s.table.put index key (some s.mutables.length), s.n + 1, s.mutables ++ [newVal]⟩

/-- The first number bounds the growth, the second one the search. -/
def findOrInsert (f : Functions κ) (m : ℕ) (s : State κ ν) (key : κ) (newVal : ν) :
    ℕ → Fin s.size → Fueled (State κ ν)
  | 0, _ => .more
  | n + 1, index =>
    match s.table.keys index with
    | none => addElement f m s index key newVal
    | some el =>
      if f.cmpF el key then (mutableOf s index).bind fun mutable => .ok (updateMutable s newVal mutable)
      else findOrInsert f m s key newVal n (next index)

def bHashInsert (f : Functions κ) (n : ℕ) (s : State κ ν) (key : κ) (newVal : ν) : Fueled (State κ ν) :=
  findOrInsert f n s key newVal n (f.hashF key s.size s.pos)

def findOrInsertNew (f : Functions κ) (m : ℕ) (s : State κ ν) (key : κ) (newVal : ν) :
    ℕ → Fin s.size → Fueled (State κ ν)
  | 0, _ => .more
  | n + 1, index =>
    match s.table.keys index with
    | none => addElement f m s index key newVal
    | some el => if f.cmpF el key then .fail else findOrInsertNew f m s key newVal n (next index)

def bHashInsertNew (f : Functions κ) (n : ℕ) (s : State κ ν) (key : κ) (newVal : ν) : Fueled (State κ ν) :=
  findOrInsertNew f n s key newVal n (f.hashF key s.size s.pos)

-- ---------------------------------------------------------------------------
-- Runs
-- ---------------------------------------------------------------------------

inductive Op (κ ν : Type*) where
  | insert (key : κ) (newVal : ν)
  | insertNew (key : κ) (newVal : ν)
  | update (key : κ) (newVal : ν)
  | update4 (key : κ) (newVal : ν)
  | lookup (key : κ)

/-- An operation, with the value it returns. -/
def step (f : Functions κ) (n : ℕ) (op : Op κ ν) (s : State κ ν) : Fueled (Option ν × State κ ν) :=
  match op with
  | .insert key newVal => (bHashInsert f n s key newVal).bind fun s' => .ok (none, s')
  | .insertNew key newVal => (bHashInsertNew f n s key newVal).bind fun s' => .ok (none, s')
  | .update key newVal => (bHashUpdate f n s key newVal).bind fun s' => .ok (none, s')
  | .update4 key newVal => (bHashUpdate4 f n s key newVal).bind fun p => .ok (some p.1, p.2)
  | .lookup key => (bHashLookup f n key s).bind fun val => .ok (some val, s)

/-- The answers of the operations, `none` for a failure; a failing operation is undone. -/
def run (f : Functions κ) (n : ℕ) : List (Op κ ν) → State κ ν → Fueled (List (Option (Option ν)) × State κ ν)
  | [], s => .ok ([], s)
  | op :: ops, s =>
    match step f n op s with
    | .more => .more
    | .fail => (run f n ops s).bind fun p => .ok (none :: p.1, p.2)
    | .ok q => (run f n ops q.2).bind fun p => .ok (some q.1 :: p.1, p.2)

end Bhash

end Yap
