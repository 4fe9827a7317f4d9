-- SUMMARY: Splay trees: where no double step goes left and then right, no failed access ends two steps below a node and no left tree that is joined is empty, the operations are those of the map.
import Mathlib

/-!
# Splay trees

The predicates follow `splay.yap`. An empty tree is a variable, and so is a key or
a value that is not known. The difference trees to the left and to the right of
what is searched are functions of the tree that takes their hole. An operation
destroys the tree it is given, which is not used again.
-/

namespace Yap

namespace Splay

-- ---------------------------------------------------------------------------
-- Trees
-- ---------------------------------------------------------------------------

inductive Tree (K V : Type*) where
  | var
  | n (item : Option K) (val : Option V) (left right : Tree K V)
deriving DecidableEq

variable {K V : Type*}

open Splay.Tree

/-- Keys and values from left to right. -/
def Tree.toList : Tree K V → List (Option K × Option V)
  | var => []
  | n x vx l r => l.toList ++ (x, vx) :: r.toList

@[simp] theorem toList_var : (var : Tree K V).toList = [] := rfl

@[simp] theorem toList_n (x : Option K) (vx : Option V) (l r : Tree K V) :
    (n x vx l r).toList = l.toList ++ (x, vx) :: r.toList := rfl

def Tree.size : Tree K V → ℕ
  | var => 0
  | n _ _ l r => l.size + r.size + 1

def lift (l : List (K × V)) : List (Option K × Option V) := l.map fun e => (some e.1, some e.2)

@[simp] theorem lift_nil : lift ([] : List (K × V)) = [] := rfl

@[simp] theorem lift_cons (e : K × V) (l : List (K × V)) : lift (e :: l) = (some e.1, some e.2) :: lift l := rfl

@[simp] theorem lift_append (l l' : List (K × V)) : lift (l ++ l') = lift l ++ lift l' := List.map_append

-- ---------------------------------------------------------------------------
-- Trees as maps
-- ---------------------------------------------------------------------------

variable [LinearOrder K]

/-- The value of a key, where it has one. -/
def Tree.value (tree : Tree K V) (k : K) : Option V := (tree.toList.find? fun e => e.1 = some k).bind Prod.snd

/-- The tree has these entries, whose keys are strictly increasing. -/
structure Entries (tree : Tree K V) (l : List (K × V)) : Prop where
  toList_eq : tree.toList = lift l
  sorted : l.Pairwise fun a b => a.1 < b.1

/-- The keys are strictly increasing from left to right, and each has a value. -/
def Increasing (tree : Tree K V) : Prop := ∃ l, Entries tree l

theorem Entries.value_eq_some {tree : Tree K V} {l : List (K × V)} (h : Entries tree l) (k : K) (v : V) :
    tree.value k = some v ↔ (k, v) ∈ l := by
  rw [Tree.value, h.toList_eq]
  have hl := h.sorted
  clear h
  induction l with
  | nil => simp
  | cons e l ih =>
    obtain ⟨he, hl⟩ := List.pairwise_cons.mp hl
    rw [lift_cons, List.find?_cons, List.mem_cons]
    by_cases hk : e.1 = k
    · have hnot : (k, v) ∉ l := fun hm => absurd (he _ hm) (by simp [hk])
      obtain ⟨k', v'⟩ := e
      simp only at hk
      subst hk
      simp [hnot, eq_comm]
    · have hne : (k, v) ≠ e := fun h => hk (by rw [← h])
      simp [hk, hne, ih hl]

theorem Entries.value_eq_none {tree : Tree K V} {l : List (K × V)} (h : Entries tree l) (k : K) :
    tree.value k = none ↔ ∀ v, (k, v) ∉ l := by
  rw [Option.eq_none_iff_forall_ne_some]
  exact forall_congr' fun v => not_congr (h.value_eq_some k v)

theorem Entries.eq_nil {l : List (K × V)} (h : Entries var l) : l = [] := by
  have heq := h.toList_eq
  rw [toList_var, lift, eq_comm, List.map_eq_nil_iff] at heq
  exact heq

/-- The entries below and above the root of a tree. -/
theorem Entries.node {x : Option K} {vx : Option V} {l r : Tree K V} {es : List (K × V)} (h : Entries (n x vx l r) es) :
    ∃ lo k v hi, es = lo ++ (k, v) :: hi ∧ x = some k ∧ vx = some v ∧ Entries l lo ∧ Entries r hi ∧
      (∀ e ∈ lo, e.1 < k) ∧ (∀ e ∈ hi, k < e.1) := by
  obtain ⟨heq, hs⟩ := h
  rw [toList_n, lift, eq_comm, List.map_eq_append_iff] at heq
  obtain ⟨lo, rest, rfl, hlo, hrest⟩ := heq
  obtain ⟨e, hi, rfl, he, hhi⟩ := List.map_eq_cons_iff.mp hrest
  obtain ⟨hslo, hsrest, hlt⟩ := List.pairwise_append.mp hs
  obtain ⟨hgt, hshi⟩ := List.pairwise_cons.mp hsrest
  have hx : some e.1 = x := congrArg Prod.fst he
  have hv : some e.2 = vx := congrArg Prod.snd he
  exact ⟨lo, e.1, e.2, hi, rfl, hx.symm, hv.symm, ⟨hlo.symm, hslo⟩, ⟨hhi.symm, hshi⟩,
    fun a ha => hlt a ha e List.mem_cons_self, hgt⟩

-- ---------------------------------------------------------------------------
-- The predicates
-- ---------------------------------------------------------------------------

inductive Op where
  | access
  /-- `access(true)`, with a new tree that has the item at its root. -/
  | accessTrue
  | insert
deriving DecidableEq

/-- What is returned for the item: `true` or `null`, its value and the new tree. -/
structure Answer (K V : Type*) where
  found : Bool
  val : Option V
  new : Tree K V

section Predicates

variable [DecidableEq V]

/-- `Item @< X`, where variables come first. -/
def before (item : K) : Option K → Bool
  | none => false
  | some x => item < x

/-- `X @< Item`. -/
def after (item : K) : Option K → Bool
  | none => true
  | some x => x < item

def unify : Option V → Option V → Option (Option V)
  | none, v => some v
  | some v, none => some (some v)
  | some v, some v' => if v = v' then some (some v) else none

/-- `n(Item, Val, A1, A2)` is unified with a son: the value and the sons. -/
def unifySon (item : K) (val : Option V) : Tree K V → Option (Option V × Tree K V × Tree K V)
  | var => some (val, var, var)
  | n y vy a1 a2 => if y = none ∨ y = some item then (unify val vy).map fun v => (v, a1, a2) else none

/-- The base clauses for a tree that has the item at its root. -/
def atRoot (op : Op) (item : K) (val vx : Option V) (left right : Tree K V) : Option (Answer K V) :=
  if op = .insert then some ⟨true, val, n (some item) val left right⟩
  else (unify val vx).map fun v => ⟨true, v, n (some item) v left right⟩

/-- `bst/7`. -/
def bst (op : Op) (item : K) (val : Option V) (left right : Tree K V → Tree K V) : Tree K V → Option (Answer K V)
  | var =>
    if op = .access then some ⟨false, val, var⟩
    else if op = .accessTrue then none
    else some ⟨true, val, n (some item) val (left var) (right var)⟩
  | n x vx l r =>
    if x = some item then atRoot op item val vx (left l) (right r)
    else if before item x then
      -- zig
      if op = .access ∧ l = var then some ⟨false, val, n x vx (left var) (right r)⟩
      else
        match unifySon item val l with
        | some s => atRoot op item s.1 s.1 (left s.2.1) (right (n x vx s.2.2 r))
        | none =>
          match l with
          | n y vy z b =>
            if before item y then bst op item val left (fun h => right (n y vy h (n x vx b r))) z
            -- the value of the node is a variable that occurs once
            else if after item y then bst op item val (fun h => left (n y vy z h)) (fun h => right (n x none h r)) b
            else none
          | var => none
    else
      -- zag
      if op = .access ∧ r = var then some ⟨false, val, n x vx (left l) (right var)⟩
      else
        match unifySon item val r with
        | some s => atRoot op item s.1 s.1 (left (n x vx l s.2.1)) (right s.2.2)
        | none =>
          match r with
          | n y vy b z =>
            if after item y then bst op item val (fun h => left (n y vy (n x vx l b) h)) right z
            else if before item y then bst op item val (fun h => left (n x vx l h)) (fun h => right (n y vy h z)) b
            else none
          | var => none

/-- `join/4`. An empty left tree is unified with a node whose key and value are variables. -/
def join (left : Tree K V → Tree K V) : Tree K V → Tree K V → Tree K V
  | var, right => n none none (left var) right
  | n x vx a var, right => n x vx (left a) right
  | n x vx a (n y vy b var), right => n y vy (left (n x vx a b)) right
  | n x vx c (n y vy b (n z vz a1 a2)), right => join (fun h => left (n y vy (n x vx c b) h)) (n z vz a1 a2) right

def splayInit : Tree K V := var

def splayAccess (item : K) (tree : Tree K V) : Option (Answer K V) := bst .access item none id id tree

def splayInsert (item : K) (val : V) (tree : Tree K V) : Option (Tree K V) :=
  (bst .insert item (some val) id id tree).map Answer.new

def splayJoin (left right : Tree K V) : Tree K V := join id left right

/-- The value and the two trees. -/
def splaySplit (item : K) (tree : Tree K V) : Option (Option V × Tree K V × Tree K V) :=
  (bst .accessTrue item none id id tree).bind fun answer =>
    match answer.new with
    | n _ val left right => some (val, left, right)
    | var => none

def splayDel (item : K) (tree : Tree K V) : Option (Tree K V) :=
  (splaySplit item tree).map fun s => splayJoin s.2.1 s.2.2

end Predicates

-- ---------------------------------------------------------------------------
-- The path of a search
-- ---------------------------------------------------------------------------

/-- No double step goes to the left and then to the right. -/
def noZigZag (item : K) : Tree K V → Bool
  | var => true
  | n x _ l r =>
    if x = some item then true
    else if before item x then
      match l with
      | var => true
      | n y _ z _ => if before item y then noZigZag item z else !after item y
    else
      match r with
      | var => true
      | n y _ b z => if after item y then noZigZag item z else if before item y then noZigZag item b else true

/-- The double steps end on an empty tree. -/
def endsOnVar (item : K) : Tree K V → Bool
  | var => true
  | n x _ l r =>
    if x = some item then false
    else if before item x then
      match l with
      | var => false
      | n y _ z b => if before item y then endsOnVar item z else if after item y then endsOnVar item b else false
    else
      match r with
      | var => false
      | n y _ b z => if after item y then endsOnVar item z else if before item y then endsOnVar item b else false

omit [LinearOrder K] in
theorem some_ne {item k : K} (h : k ≠ item) : some k ≠ some item := fun he => h (Option.some.inj he)

@[simp] theorem before_some (item k : K) : before item (some k) = true ↔ item < k := decide_eq_true_iff

@[simp] theorem after_some (item k : K) : after item (some k) = true ↔ k < item := decide_eq_true_iff

theorem endsOnVar_zig_zig {item k k' : K} (h : item < k) (h' : item < k') (vx vy : Option V) (z b r : Tree K V) :
    endsOnVar item (n (some k) vx (n (some k') vy z b) r) = endsOnVar item z := by
  rw [endsOnVar.eq_def]
  simp [h, h.ne', h']

theorem endsOnVar_zag {item k : K} (h : k < item) (k' : K) (vx vy : Option V) (l b z : Tree K V) :
    endsOnVar item (n (some k) vx l (n (some k') vy b z)) =
      if k' < item then endsOnVar item z else if item < k' then endsOnVar item b else false := by
  rw [endsOnVar.eq_def]
  simp [h.ne, h.not_gt]

theorem noZigZag_zig {item k : K} (h : item < k) (k' : K) (vx vy : Option V) (z b r : Tree K V) :
    noZigZag item (n (some k) vx (n (some k') vy z b) r) =
      if item < k' then noZigZag item z else !after item (some k') := by
  rw [noZigZag.eq_def]
  simp [h, h.ne']

theorem noZigZag_zag {item k : K} (h : k < item) (k' : K) (vx vy : Option V) (l b z : Tree K V) :
    noZigZag item (n (some k) vx l (n (some k') vy b z)) =
      if k' < item then noZigZag item z else if item < k' then noZigZag item b else true := by
  rw [noZigZag.eq_def]
  simp [h.ne, h.not_gt]

/-- What the two difference trees have around their holes. -/
structure Around (left right : Tree K V → Tree K V) (L R : List (Option K × Option V)) : Prop where
  left_eq : ∀ h, (left h).toList = L ++ h.toList
  right_eq : ∀ h, (right h).toList = h.toList ++ R

omit [LinearOrder K] in
theorem Around.id : Around (id : Tree K V → Tree K V) id [] [] := ⟨fun _ => rfl, fun h => by simp⟩

/-- The entries below the item, its own value and those above it. -/
structure Cut (item : K) (l lo : List (K × V)) (mid : Option V) (hi : List (K × V)) : Prop where
  eq : l = lo ++ mid.toList.map (fun v => (item, v)) ++ hi
  below : ∀ e ∈ lo, e.1 < item
  above : ∀ e ∈ hi, item < e.1

theorem Cut.mem_iff {item : K} {l lo hi : List (K × V)} {mid : Option V} (h : Cut item l lo mid hi) (v : V) :
    (item, v) ∈ l ↔ mid = some v := by
  have hlo : (item, v) ∉ lo := fun hm => lt_irrefl _ (h.below _ hm)
  have hhi : (item, v) ∉ hi := fun hm => lt_irrefl _ (h.above _ hm)
  rw [h.eq]
  simp [hlo, hhi]

/-- A cut inside entries that have the others below and above. -/
theorem Cut.around {item : K} {l lo hi : List (K × V)} {mid : Option V} (h : Cut item l lo mid hi) {a b : List (K × V)}
    (ha : ∀ e ∈ a, e.1 < item) (hb : ∀ e ∈ b, item < e.1) : Cut item (a ++ l ++ b) (a ++ lo) mid (hi ++ b) where
  eq := by simp [h.eq]
  below e he := (List.mem_append.mp he).elim (ha e) (h.below e)
  above e he := (List.mem_append.mp he).elim (h.above e) (hb e)

/-- What a search in a tree with the entries `l` returns between two difference trees. -/
inductive Outcome (op : Op) (item : K) (val : Option V) (ends : Prop) (l : List (K × V)) (L R : List (Option K × Option V)) :
    Option (Answer K V) → Prop
  | lost (answer : Option (Answer K V)) (hop : op ≠ .insert) (hends : ends) (habsent : ∀ v, (item, v) ∉ l)
      (hanswer : op = .accessTrue → answer = none) :
      Outcome op item val ends l L R answer
  | refused (hop : op = .insert) (v : V) (hv : (item, v) ∈ l) : Outcome op item val ends l L R none
  | missed (new : Tree K V) (hop : op = .access) (habsent : ∀ v, (item, v) ∉ l) (hnew : new.toList = L ++ lift l ++ R) :
      Outcome op item val ends l L R (some ⟨false, val, new⟩)
  | root (lo : List (K × V)) (mid : Option V) (hi : List (K × V)) (hcut : Cut item l lo mid hi) (left right : Tree K V)
      (hleft : left.toList = L ++ lift lo) (hright : right.toList = lift hi ++ R) (w : Option V)
      (hmid : op = .access → mid ≠ none) (hw : w = if op = .insert then val else mid) :
      Outcome op item val ends l L R (some ⟨true, w, n (some item) w left right⟩)

/-- A search that goes on in a part of the tree. -/
theorem Outcome.around {op : Op} {item : K} {val : Option V} {ends ends' : Prop} {l a b : List (K × V)}
    {L R : List (Option K × Option V)} {answer : Option (Answer K V)}
    (h : Outcome op item val ends l (L ++ lift a) (lift b ++ R) answer) (hends : ends → ends')
    (ha : ∀ e ∈ a, e.1 < item) (hb : ∀ e ∈ b, item < e.1) : Outcome op item val ends' (a ++ l ++ b) L R answer := by
  have habs : (∀ v, (item, v) ∉ l) → ∀ v, (item, v) ∉ a ++ l ++ b := by
    intro habs v hv
    rcases List.mem_append.mp hv with hv | hv
    · rcases List.mem_append.mp hv with hv | hv
      · exact lt_irrefl _ (ha _ hv)
      · exact habs v hv
    · exact lt_irrefl _ (hb _ hv)
  cases h with
  | lost _ hop he habsent hanswer => exact .lost answer hop (hends he) (habs habsent) hanswer
  | refused hop v hv => exact .refused hop v (List.mem_append_left _ (List.mem_append_right _ hv))
  | missed new hop habsent hnew => exact .missed new hop (habs habsent) (by simp [hnew])
  | root lo mid hi hcut left right hleft hright w hmid hw =>
    exact .root (a ++ lo) mid (hi ++ b) (hcut.around ha hb) left right (by simp [hleft]) (by simp [hright]) w hmid hw

section Searches

variable [DecidableEq V]

theorem atRoot_outcome {op : Op} {item : K} {val : Option V} (hval : op ≠ .insert → val = none) {vx mid : Option V}
    (hvx : op ≠ .insert → vx = mid) (hmid : op = .access → mid ≠ none) {ends : Prop}
    {l lo hi : List (K × V)} (hcut : Cut item l lo mid hi)
    {L R : List (Option K × Option V)} {left right : Tree K V} (hleft : left.toList = L ++ lift lo)
    (hright : right.toList = lift hi ++ R) : Outcome op item val ends l L R (atRoot op item val vx left right) := by
  by_cases hop : op = .insert
  · rw [atRoot, if_pos hop]
    exact .root lo mid hi hcut left right hleft hright val hmid (by rw [if_pos hop])
  · rw [atRoot, if_neg hop, hval hop, hvx hop]
    exact .root lo mid hi hcut left right hleft hright mid hmid (by rw [if_neg hop])

/-- The item in a son: an insertion is refused where its value is another one. -/
theorem son_outcome {op : Op} {item : K} {val : Option V} (hval : val = none ↔ op ≠ .insert) {ends : Prop}
    {l lo hi : List (K × V)} {v : V} (hcut : Cut item l lo (some v) hi) {L R : List (Option K × Option V)}
    {left right : Tree K V} (hleft : left.toList = L ++ lift lo) (hright : right.toList = lift hi ++ R) :
    Outcome op item val ends l L R ((unify val (some v)).bind fun w => atRoot op item w w left right) := by
  by_cases hop : op = .insert
  · obtain ⟨c, rfl⟩ := Option.ne_none_iff_exists'.mp fun h => hval.mp h hop
    by_cases hc : c = v
    · subst hc
      simp only [unify, if_true, Option.bind_some]
      exact atRoot_outcome (fun h => absurd hop h) (fun h => absurd hop h) (fun _ => by simp) hcut hleft hright
    · simp only [unify, if_neg hc, Option.bind_none]
      exact .refused hop v ((hcut.mem_iff v).mpr rfl)
  · rw [hval.mpr hop]
    simp only [unify, Option.bind_some, atRoot, if_neg hop, if_true, Option.map_some]
    exact .root lo (some v) hi hcut left right hleft hright (some v) (fun _ => by simp) (by rw [if_neg hop])

theorem unifySon_self (item : K) (val : Option V) (v : V) (a1 a2 : Tree K V) :
    unifySon item val (n (some item) (some v) a1 a2) = (unify val (some v)).map fun w => (w, a1, a2) := by
  rw [unifySon, if_pos (Or.inr rfl)]

theorem unifySon_ne {item y : K} (h : y ≠ item) (val vy : Option V) (a1 a2 : Tree K V) :
    unifySon item val (n (some y) vy a1 a2) = none := by
  rw [unifySon, if_neg (by simp [h])]

theorem bst_root (op : Op) (item : K) (val vx : Option V) (left right : Tree K V → Tree K V) (l r : Tree K V) :
    bst op item val left right (n (some item) vx l r) = atRoot op item val vx (left l) (right r) := by
  rw [bst.eq_def]
  simp only [if_true]

/-- The clauses for an item to the left of the root. -/
theorem bst_zig {item k : K} (h : item < k) (op : Op) (val vx : Option V) (left right : Tree K V → Tree K V)
    (l r : Tree K V) :
    bst op item val left right (n (some k) vx l r) =
      if op = .access ∧ l = var then some ⟨false, val, n (some k) vx (left var) (right r)⟩
      else
        match unifySon item val l with
        | some s => atRoot op item s.1 s.1 (left s.2.1) (right (n (some k) vx s.2.2 r))
        | none =>
          match l with
          | n y vy z b =>
            if before item y then bst op item val left (fun h => right (n y vy h (n (some k) vx b r))) z
            else if after item y then
              bst op item val (fun h => left (n y vy z h)) (fun h => right (n (some k) none h r)) b
            else none
          | var => none := by
  rw [bst.eq_def]
  simp only [some_ne h.ne', (before_some item k).mpr h, if_true, if_false]

/-- The clauses for an item to the right of the root. -/
theorem bst_zag {item k : K} (h : k < item) (op : Op) (val vx : Option V) (left right : Tree K V → Tree K V)
    (l r : Tree K V) :
    bst op item val left right (n (some k) vx l r) =
      if op = .access ∧ r = var then some ⟨false, val, n (some k) vx (left l) (right var)⟩
      else
        match unifySon item val r with
        | some s => atRoot op item s.1 s.1 (left (n (some k) vx l s.2.1)) (right s.2.2)
        | none =>
          match r with
          | n y vy b z =>
            if after item y then bst op item val (fun h => left (n y vy (n (some k) vx l b) h)) right z
            else if before item y then
              bst op item val (fun h => left (n (some k) vx l h)) (fun h => right (n y vy h z)) b
            else none
          | var => none := by
  rw [bst.eq_def]
  simp only [some_ne h.ne, mt (before_some item k).mp h.not_gt, Bool.false_eq_true, if_false]

theorem bst_zig_var {item k : K} (h : item < k) (op : Op) (val vx : Option V) (left right : Tree K V → Tree K V)
    (r : Tree K V) :
    bst op item val left right (n (some k) vx var r) =
      if op = .access then some ⟨false, val, n (some k) vx (left var) (right r)⟩
      else atRoot op item val val (left var) (right (n (some k) vx var r)) := by
  rw [bst_zig h]
  simp [unifySon]

theorem bst_zig_son {item k : K} (h : item < k) (op : Op) (val vx : Option V) (v : V) (left right : Tree K V → Tree K V)
    (a1 a2 r : Tree K V) :
    bst op item val left right (n (some k) vx (n (some item) (some v) a1 a2) r) =
      (unify val (some v)).bind fun w => atRoot op item w w (left a1) (right (n (some k) vx a2 r)) := by
  rw [bst_zig h]
  simp only [unifySon_self]
  cases unify val (some v) <;> simp

theorem bst_zig_zig {item k k' : K} (h : item < k) (h' : item < k') (op : Op) (val vx vy : Option V)
    (left right : Tree K V → Tree K V) (z b r : Tree K V) :
    bst op item val left right (n (some k) vx (n (some k') vy z b) r) =
      bst op item val left (fun t => right (n (some k') vy t (n (some k) vx b r))) z := by
  rw [bst_zig h]
  simp [h', unifySon_ne h'.ne']

theorem bst_zag_var {item k : K} (h : k < item) (op : Op) (val vx : Option V) (left right : Tree K V → Tree K V)
    (l : Tree K V) :
    bst op item val left right (n (some k) vx l var) =
      if op = .access then some ⟨false, val, n (some k) vx (left l) (right var)⟩
      else atRoot op item val val (left (n (some k) vx l var)) (right var) := by
  rw [bst_zag h]
  simp [unifySon]

theorem bst_zag_son {item k : K} (h : k < item) (op : Op) (val vx : Option V) (v : V) (left right : Tree K V → Tree K V)
    (a1 a2 l : Tree K V) :
    bst op item val left right (n (some k) vx l (n (some item) (some v) a1 a2)) =
      (unify val (some v)).bind fun w => atRoot op item w w (left (n (some k) vx l a1)) (right a2) := by
  rw [bst_zag h]
  simp only [unifySon_self]
  cases unify val (some v) <;> simp

theorem bst_zag_zag {item k k' : K} (h : k < item) (h' : k' < item) (op : Op) (val vx vy : Option V)
    (left right : Tree K V → Tree K V) (l b z : Tree K V) :
    bst op item val left right (n (some k) vx l (n (some k') vy b z)) =
      bst op item val (fun t => left (n (some k') vy (n (some k) vx l b) t)) right z := by
  rw [bst_zag h]
  simp [h', unifySon_ne h'.ne]

theorem bst_zag_zig {item k k' : K} (h : k < item) (h' : item < k') (op : Op) (val vx vy : Option V)
    (left right : Tree K V → Tree K V) (l b z : Tree K V) :
    bst op item val left right (n (some k) vx l (n (some k') vy b z)) =
      bst op item val (fun t => left (n (some k) vx l t)) (fun t => right (n (some k') vy t z)) b := by
  rw [bst_zag h]
  simp [h', h'.not_gt, unifySon_ne h'.ne']

/-- Between any difference trees, a search that takes no left and then right step has one of the outcomes. -/
def Searched (op : Op) (item : K) (val : Option V) (tree : Tree K V) : Prop :=
  ∀ (left right : Tree K V → Tree K V) (L R : List (Option K × Option V)) (l : List (K × V)), Around left right L R →
    Entries tree l → noZigZag item tree = true →
    Outcome op item val (endsOnVar item tree = true) l L R (bst op item val left right tree)

theorem searched_var {op : Op} (item : K) (val : Option V) : Searched op item val var := by
  intro left right L R l ha hl _
  obtain rfl := hl.eq_nil
  by_cases hop : op = .insert
  · subst hop
    exact .root [] none [] ⟨rfl, by simp, by simp⟩ (left var) (right var) (by simp [ha.left_eq]) (by simp [ha.right_eq])
      val (fun h => absurd h (by decide)) (by rw [if_pos rfl])
  · exact .lost _ hop rfl (by simp) fun h => by rw [h]; rfl

/-- The item is below the root. -/
theorem searched_zig {op : Op} {item : K} {val : Option V} (hval : val = none ↔ op ≠ .insert) {k : K} (hk : item < k)
    {v : V} {tl tr : Tree K V} (ih : ∀ z : Tree K V, z.size < tl.size → Searched op item val z) :
    Searched op item val (n (some k) (some v) tl tr) := by
  intro left right L R l ha hl hz
  obtain ⟨lo, _, _, hi, rfl, ⟨⟩, ⟨⟩, hlo, hhi, hltk, hgtk⟩ := hl.node
  have habove : ∀ e ∈ (k, v) :: hi, item < e.1 := List.forall_mem_cons.mpr ⟨hk, fun e he => hk.trans (hgtk e he)⟩
  cases tl with
  | var =>
    obtain rfl := hlo.eq_nil
    have hcut : Cut item ([] ++ (k, v) :: hi) [] none ((k, v) :: hi) := ⟨rfl, by simp, habove⟩
    rw [bst_zig_var hk]
    by_cases hop : op = .access
    · rw [if_pos hop]
      exact .missed _ hop (fun w hw => by simpa using (hcut.mem_iff w).mp hw)
        (by simp [ha.left_eq, ha.right_eq, hhi.toList_eq])
    · rw [if_neg hop]
      exact atRoot_outcome hval.mpr hval.mpr (fun h => absurd h hop) hcut (by simp [ha.left_eq])
        (by simp [ha.right_eq, hhi.toList_eq])
  | n y vy z b =>
    obtain ⟨loz, k', v', hib, rfl, rfl, rfl, hloz, hhib, hltk', hgtk'⟩ := hlo.node
    rcases lt_trichotomy item k' with hlt | rfl | hgt
    · have hrest : ∀ e ∈ (k', v') :: hib ++ (k, v) :: hi, item < e.1 :=
        List.forall_mem_append.mpr ⟨List.forall_mem_cons.mpr ⟨hlt, fun e he => hlt.trans (hgtk' e he)⟩, habove⟩
      rw [noZigZag_zig hk, if_pos hlt] at hz
      rw [bst_zig_zig hk hlt, endsOnVar_zig_zig hk hlt]
      have hd := ih z (by simp only [Tree.size]; omega) left
        (fun t => right (n (some k') (some v') t (n (some k) (some v) b tr)))
        (L ++ lift []) (lift ((k', v') :: hib ++ (k, v) :: hi) ++ R) loz
        ⟨fun t => by simp [ha.left_eq], fun t => by simp [ha.right_eq, hhib.toList_eq, hhi.toList_eq]⟩ hloz hz
      simpa using hd.around id (by simp) hrest
    · have hcut : Cut item (loz ++ (item, v') :: hib ++ (k, v) :: hi) loz (some v') (hib ++ (k, v) :: hi) :=
        ⟨by simp, hltk', List.forall_mem_append.mpr ⟨hgtk', habove⟩⟩
      rw [bst_zig_son hk]
      exact son_outcome hval hcut (by simp [ha.left_eq, hloz.toList_eq])
        (by simp [ha.right_eq, hhib.toList_eq, hhi.toList_eq])
    · rw [noZigZag_zig hk, if_neg hgt.not_gt, (after_some item k').mpr hgt] at hz
      exact absurd hz (by decide)

/-- The item is above the root. -/
theorem searched_zag {op : Op} {item : K} {val : Option V} (hval : val = none ↔ op ≠ .insert) {k : K} (hk : k < item)
    {v : V} {tl tr : Tree K V} (ih : ∀ z : Tree K V, z.size < tr.size → Searched op item val z) :
    Searched op item val (n (some k) (some v) tl tr) := by
  intro left right L R l ha hl hz
  obtain ⟨lo, _, _, hi, rfl, ⟨⟩, ⟨⟩, hlo, hhi, hltk, hgtk⟩ := hl.node
  have hbelow : ∀ e ∈ lo ++ [(k, v)], e.1 < item :=
    List.forall_mem_append.mpr ⟨fun e he => (hltk e he).trans hk, List.forall_mem_singleton.mpr hk⟩
  cases tr with
  | var =>
    obtain rfl := hhi.eq_nil
    have hcut : Cut item (lo ++ [(k, v)]) (lo ++ [(k, v)]) none [] := ⟨by simp, hbelow, by simp⟩
    rw [bst_zag_var hk]
    by_cases hop : op = .access
    · rw [if_pos hop]
      exact .missed _ hop (fun w hw => by simpa using (hcut.mem_iff w).mp hw)
        (by simp [ha.left_eq, ha.right_eq, hlo.toList_eq])
    · rw [if_neg hop]
      exact atRoot_outcome hval.mpr hval.mpr (fun h => absurd h hop) hcut (by simp [ha.left_eq, hlo.toList_eq])
        (by simp [ha.right_eq])
  | n y vy b z =>
    obtain ⟨lob, k', v', hiz, rfl, rfl, rfl, hlob, hhiz, hltk', hgtk'⟩ := hhi.node
    rcases lt_trichotomy item k' with hlt | rfl | hgt
    · rw [noZigZag_zag hk, if_neg hlt.not_gt, if_pos hlt] at hz
      rw [bst_zag_zig hk hlt, endsOnVar_zag hk, if_neg hlt.not_gt, if_pos hlt]
      have hd := ih b (by simp only [Tree.size]; omega) (fun t => left (n (some k) (some v) tl t))
        (fun t => right (n (some k') (some v') t z)) (L ++ lift (lo ++ [(k, v)])) (lift ((k', v') :: hiz) ++ R) lob
        ⟨fun t => by simp [ha.left_eq, hlo.toList_eq], fun t => by simp [ha.right_eq, hhiz.toList_eq]⟩ hlob hz
      simpa using hd.around id hbelow (List.forall_mem_cons.mpr ⟨hlt, fun e he => hlt.trans (hgtk' e he)⟩)
    · have hcut : Cut item (lo ++ (k, v) :: (lob ++ (item, v') :: hiz)) (lo ++ [(k, v)] ++ lob) (some v') hiz :=
        ⟨by simp, List.forall_mem_append.mpr ⟨hbelow, hltk'⟩, hgtk'⟩
      rw [bst_zag_son hk]
      exact son_outcome hval hcut (by simp [ha.left_eq, hlo.toList_eq, hlob.toList_eq])
        (by simp [ha.right_eq, hhiz.toList_eq])
    · have hrest : ∀ e ∈ lo ++ [(k, v)] ++ (lob ++ [(k', v')]), e.1 < item :=
        List.forall_mem_append.mpr ⟨hbelow, List.forall_mem_append.mpr
          ⟨fun e he => (hltk' e he).trans hgt, List.forall_mem_singleton.mpr hgt⟩⟩
      rw [noZigZag_zag hk, if_pos hgt] at hz
      rw [bst_zag_zag hk hgt, endsOnVar_zag hk, if_pos hgt]
      have hd := ih z (by simp only [Tree.size]; omega)
        (fun t => left (n (some k') (some v') (n (some k) (some v) tl b) t)) right
        (L ++ lift (lo ++ [(k, v)] ++ (lob ++ [(k', v')]))) (lift [] ++ R) hiz
        ⟨fun t => by simp [ha.left_eq, hlo.toList_eq, hlob.toList_eq], fun t => by simp [ha.right_eq]⟩ hhiz hz
      simpa using hd.around id hrest (by simp)

/-- Each of the recursive clauses leaves entries around the tree in which the search goes on. -/
theorem searched {op : Op} {item : K} {val : Option V} (hval : val = none ↔ op ≠ .insert) (tree : Tree K V) :
    Searched op item val tree := by
  induction hsize : tree.size using Nat.strong_induction_on generalizing tree with
  | _ size ih =>
    subst hsize
    cases tree with
    | var => exact searched_var item val
    | n x vx tl tr =>
      intro left right L R l ha hl hz
      obtain ⟨lo, k, v, hi, rfl, rfl, rfl, hlo, hhi, hltk, hgtk⟩ := hl.node
      rcases lt_trichotomy item k with hk | rfl | hk
      · exact searched_zig hval hk (fun z hsz => ih z.size (by simp only [Tree.size]; omega) z rfl) left right L R _ ha hl hz
      · have hcut : Cut item (lo ++ (item, v) :: hi) lo (some v) hi := ⟨by simp, hltk, hgtk⟩
        rw [bst_root]
        exact atRoot_outcome hval.mpr (fun _ => rfl) (fun _ => by simp) hcut (by simp [ha.left_eq, hlo.toList_eq])
          (by simp [ha.right_eq, hhi.toList_eq])
      · exact searched_zag hval hk (fun z hsz => ih z.size (by simp only [Tree.size]; omega) z rfl) left right L R _ ha hl hz

end Searches

-- ---------------------------------------------------------------------------
-- The operations as those of the map
-- ---------------------------------------------------------------------------

theorem Entries.value_eq {tree : Tree K V} {l : List (K × V)} (h : Entries tree l) {f : K → Option V}
    (hf : ∀ k v, (k, v) ∈ l ↔ f k = some v) : tree.value = f :=
  funext fun k => Option.ext fun v => (h.value_eq_some k v).trans (hf k v)

theorem Cut.mem_below_iff {item : K} {l lo hi : List (K × V)} {mid : Option V} (h : Cut item l lo mid hi) (k : K) (v : V) :
    (k, v) ∈ lo ↔ k < item ∧ (k, v) ∈ l := by
  rw [h.eq]
  constructor
  · exact fun hm => ⟨h.below _ hm, by simp [hm]⟩
  rintro ⟨hlt, hm⟩
  rcases List.mem_append.mp hm with hm | hm
  · rcases List.mem_append.mp hm with hm | hm
    · exact hm
    · obtain ⟨w, -, hw⟩ := List.mem_map.mp hm
      exact absurd (congrArg Prod.fst hw) hlt.ne'
  · exact absurd (h.above _ hm) hlt.not_gt

theorem Cut.mem_above_iff {item : K} {l lo hi : List (K × V)} {mid : Option V} (h : Cut item l lo mid hi) (k : K) (v : V) :
    (k, v) ∈ hi ↔ item < k ∧ (k, v) ∈ l := by
  rw [h.eq]
  constructor
  · exact fun hm => ⟨h.above _ hm, by simp [hm]⟩
  rintro ⟨hlt, hm⟩
  rcases List.mem_append.mp hm with hm | hm
  · rcases List.mem_append.mp hm with hm | hm
    · exact absurd (h.below _ hm) hlt.not_gt
    · obtain ⟨w, -, hw⟩ := List.mem_map.mp hm
      exact absurd (congrArg Prod.fst hw) hlt.ne
  · exact hm

theorem Cut.entries_left {item : K} {tree left : Tree K V} {l lo hi : List (K × V)} {mid : Option V}
    (h : Cut item l lo mid hi) (hl : Entries tree l) (hleft : left.toList = lift lo) : Entries left lo :=
  ⟨hleft, hl.sorted.sublist (by rw [h.eq, List.append_assoc]; exact List.sublist_append_left _ _)⟩

theorem Cut.entries_right {item : K} {tree right : Tree K V} {l lo hi : List (K × V)} {mid : Option V}
    (h : Cut item l lo mid hi) (hl : Entries tree l) (hright : right.toList = lift hi) : Entries right hi :=
  ⟨hright, hl.sorted.sublist (by rw [h.eq]; exact List.sublist_append_right _ _)⟩

/-- Two trees with the item between them. -/
theorem Entries.n {left right : Tree K V} {lo hi : List (K × V)} (hleft : Entries left lo) (hright : Entries right hi)
    {item : K} (hlo : ∀ e ∈ lo, e.1 < item) (hhi : ∀ e ∈ hi, item < e.1) (v : V) :
    Entries (n (some item) (some v) left right) (lo ++ (item, v) :: hi) where
  toList_eq := by simp [hleft.toList_eq, hright.toList_eq]
  sorted := List.pairwise_append.mpr ⟨hleft.sorted, List.pairwise_cons.mpr ⟨hhi, hright.sorted⟩,
    fun a ha => List.forall_mem_cons.mpr ⟨hlo a ha, fun b hb => (hlo a ha).trans (hhi b hb)⟩⟩

theorem Entries.append {left right tree : Tree K V} {l l' : List (K × V)} (hleft : Entries left l)
    (hright : Entries right l') (htree : tree.toList = left.toList ++ right.toList)
    (hlt : ∀ a ∈ l, ∀ b ∈ l', a.1 < b.1) : Entries tree (l ++ l') where
  toList_eq := by rw [htree, hleft.toList_eq, hright.toList_eq, lift_append]
  sorted := List.pairwise_append.mpr ⟨hleft.sorted, hright.sorted, hlt⟩

omit [LinearOrder K] in
/-- Where the left tree is not empty. -/
theorem join_toList (left : Tree K V → Tree K V) (tree right : Tree K V) (hne : tree ≠ var)
    {L : List (Option K × Option V)} (hleft : ∀ h, (left h).toList = L ++ h.toList) :
    (join left tree right).toList = L ++ tree.toList ++ right.toList := by
  induction left, tree, right using join.induct generalizing L with
  | case1 left right => exact absurd rfl hne
  | case2 left x vx a right => simp [join, hleft]
  | case3 left x vx a y vy b right => simp [join, hleft]
  | case4 left x vx c y vy b z vz a1 a2 right ih =>
    rw [join, ih (by simp) (L := L ++ ((n x vx c b).toList ++ [(y, vy)])) (fun h => by simp [hleft])]
    simp

theorem Cut.value_left {item : K} {tree left : Tree K V} {l lo hi : List (K × V)} {mid : Option V}
    (h : Cut item l lo mid hi) (hl : Entries tree l) (hleft : Entries left lo) :
    left.value = fun k => if k < item then tree.value k else none := by
  refine hleft.value_eq fun k v => ?_
  rw [h.mem_below_iff]
  by_cases hk : k < item
  · rw [if_pos hk, hl.value_eq_some]
    exact and_iff_right hk
  · rw [if_neg hk]
    exact iff_of_false (fun hm => hk hm.1) (by simp)

theorem Cut.value_right {item : K} {tree right : Tree K V} {l lo hi : List (K × V)} {mid : Option V}
    (h : Cut item l lo mid hi) (hl : Entries tree l) (hright : Entries right hi) :
    right.value = fun k => if item < k then tree.value k else none := by
  refine hright.value_eq fun k v => ?_
  rw [h.mem_above_iff]
  by_cases hk : item < k
  · rw [if_pos hk, hl.value_eq_some]
    exact and_iff_right hk
  · rw [if_neg hk]
    exact iff_of_false (fun hm => hk hm.1) (by simp)

/-- The entries beside the item are those of the map without it. -/
theorem Cut.value_erase {item : K} {tree new : Tree K V} {l lo hi : List (K × V)} {mid : Option V}
    (h : Cut item l lo mid hi) (hl : Entries tree l) (hnew : Entries new (lo ++ hi)) :
    new.value = Function.update tree.value item none := by
  refine hnew.value_eq fun k v => ?_
  rw [List.mem_append, h.mem_below_iff, h.mem_above_iff, ← or_and_right, lt_or_lt_iff_ne]
  by_cases hk : k = item
  · subst hk
    simp
  · rw [Function.update_of_ne hk, hl.value_eq_some]
    exact and_iff_right hk

/-- A new value for the item between the entries below and above. -/
theorem Cut.value_update {item : K} {tree new : Tree K V} {l lo hi : List (K × V)} {mid : Option V}
    (h : Cut item l lo mid hi) (hl : Entries tree l) {w : V} (hnew : Entries new (lo ++ (item, w) :: hi)) :
    new.value = Function.update tree.value item (some w) := by
  refine hnew.value_eq fun k v => ?_
  rw [List.mem_append, List.mem_cons, h.mem_below_iff, h.mem_above_iff]
  by_cases hk : k = item
  · subst hk
    simp [eq_comm]
  · rw [Function.update_of_ne hk, hl.value_eq_some]
    have hne : (k, v) ≠ (item, w) := fun he => hk (congrArg Prod.fst he)
    rcases lt_or_gt_of_ne hk with hlt | hgt
    · simp [hne, hlt, hlt.not_gt]
    · simp [hne, hgt, hgt.not_gt]

section Operations

variable [DecidableEq V]

theorem splayInsert_spec {tree new : Tree K V} {l : List (K × V)} (hl : Entries tree l) {item : K}
    (hz : noZigZag item tree = true) {val : V} (h : splayInsert item val tree = some new) :
    Increasing new ∧ new.value = Function.update tree.value item (some val) := by
  obtain ⟨answer, hb, rfl⟩ := Option.map_eq_some_iff.mp h
  have hout := searched (by simp : some val = none ↔ Op.insert ≠ .insert) tree id id [] [] l Around.id hl hz
  rw [hb] at hout
  cases hout with
  | lost _ hop => exact absurd rfl hop
  | missed new hop => exact absurd hop (by decide)
  | root lo mid hi hcut left right hleft hright w hmid hw =>
    obtain rfl : w = some val := hw.trans (if_pos rfl)
    have hnew := (hcut.entries_left hl hleft).n (hcut.entries_right hl (by simpa using hright)) hcut.below hcut.above val
    exact ⟨⟨_, hnew⟩, hcut.value_update hl hnew⟩

theorem splayInsert_absent {tree : Tree K V} {l : List (K × V)} (hl : Entries tree l) {item : K}
    (hz : noZigZag item tree = true) (habsent : tree.value item = none) (val : V) :
    ∃ new, splayInsert item val tree = some new := by
  have hout := searched (by simp : some val = none ↔ Op.insert ≠ .insert) tree id id [] [] l Around.id hl hz
  rw [splayInsert]
  generalize bst .insert item (some val) id id tree = answer at hout ⊢
  cases hout with
  | lost _ hop => exact absurd rfl hop
  | refused _ v hv => exact absurd hv ((hl.value_eq_none item).mp habsent v)
  | missed new hop => exact absurd hop (by decide)
  | root lo mid hi hcut left right hleft hright w hmid hw => exact ⟨_, rfl⟩

/-- Where the search does not end on an empty tree below the root. -/
theorem splayAccess_spec {tree : Tree K V} {l : List (K × V)} (hl : Entries tree l) {item : K}
    (hz : noZigZag item tree = true) (hends : tree = var ∨ endsOnVar item tree = false) :
    ∃ answer, splayAccess item tree = some answer ∧ Entries answer.new l ∧ answer.val = tree.value item ∧
      (answer.found = true ↔ tree.value item ≠ none) := by
  rcases hends with rfl | hends
  · exact ⟨⟨false, none, var⟩, rfl, hl, rfl, by simp [Tree.value]⟩
  have hout := searched (by simp : (none : Option V) = none ↔ Op.access ≠ .insert) tree id id [] [] l Around.id hl hz
  rw [splayAccess]
  generalize bst .access item none id id tree = answer at hout ⊢
  cases hout with
  | lost _ _ he => exact absurd he (by rw [hends]; decide)
  | refused hop => exact absurd hop (by decide)
  | missed new _ habsent hnew =>
    have hnone := (hl.value_eq_none item).mpr habsent
    exact ⟨_, rfl, ⟨by simpa using hnew, hl.sorted⟩, hnone.symm, by simp [hnone]⟩
  | root lo mid hi hcut left right hleft hright w hmid hw =>
    obtain ⟨v, rfl⟩ := Option.ne_none_iff_exists'.mp (hmid rfl)
    obtain rfl : w = some v := hw.trans (if_neg (by decide))
    have hv : tree.value item = some v := (hl.value_eq_some item v).mpr ((hcut.mem_iff v).mpr rfl)
    have hnew := (hcut.entries_left hl hleft).n (hcut.entries_right hl (by simpa using hright)) hcut.below hcut.above v
    refine ⟨_, rfl, ?_, hv.symm, by simp [hv]⟩
    rw [hcut.eq]
    simpa using hnew

theorem splaySplit_spec {tree left right : Tree K V} {l : List (K × V)} (hl : Entries tree l) {item : K}
    (hz : noZigZag item tree = true) {v : Option V} (h : splaySplit item tree = some (v, left, right)) :
    ∃ lo hi, Cut item l lo v hi ∧ Entries left lo ∧ Entries right hi := by
  obtain ⟨answer, hb, hs⟩ := Option.bind_eq_some_iff.mp h
  have hout := searched (by simp : (none : Option V) = none ↔ Op.accessTrue ≠ .insert) tree id id [] [] l Around.id hl hz
  rw [hb] at hout
  cases hout with
  | lost _ _ _ _ hanswer => exact absurd (hanswer rfl) (by simp)
  | missed new hop => exact absurd hop (by decide)
  | root lo mid hi hcut left right hleft hright w hmid hw =>
    obtain rfl : w = mid := hw.trans (if_neg (by decide))
    cases hs
    exact ⟨lo, hi, hcut, hcut.entries_left hl hleft, hcut.entries_right hl (by simpa using hright)⟩

theorem splaySplit_present {tree : Tree K V} {l : List (K × V)} (hl : Entries tree l) {item : K}
    (hz : noZigZag item tree = true) (hpresent : tree.value item ≠ none) : ∃ s, splaySplit item tree = some s := by
  obtain ⟨v, hv⟩ := Option.ne_none_iff_exists'.mp hpresent
  have hmem := (hl.value_eq_some item v).mp hv
  have hout := searched (by simp : (none : Option V) = none ↔ Op.accessTrue ≠ .insert) tree id id [] [] l Around.id hl hz
  rw [splaySplit]
  generalize bst .accessTrue item none id id tree = answer at hout ⊢
  cases hout with
  | lost _ _ _ habsent => exact absurd hmem (habsent v)
  | refused hop => exact absurd hop (by decide)
  | missed new hop => exact absurd hop (by decide)
  | root lo mid hi hcut left right hleft hright w hmid hw => exact ⟨_, rfl⟩

omit [DecidableEq V] in
theorem splayJoin_spec {left right : Tree K V} {l l' : List (K × V)} (hleft : Entries left l) (hright : Entries right l')
    (hne : left ≠ var) (hlt : ∀ a ∈ l, ∀ b ∈ l', a.1 < b.1) : Entries (splayJoin left right) (l ++ l') :=
  hleft.append hright (by rw [splayJoin, join_toList id left right hne (L := []) (fun _ => rfl), List.nil_append]) hlt

omit [DecidableEq V] in
/-- The union of two maps, the keys of one below those of the other. -/
theorem splayJoin_value {left right : Tree K V} (hleft : Increasing left) (hright : Increasing right) (hne : left ≠ var)
    (hlt : ∀ k k', left.value k ≠ none → right.value k' ≠ none → k < k') :
    Increasing (splayJoin left right) ∧ (splayJoin left right).value = fun k => (left.value k).or (right.value k) := by
  obtain ⟨l, hl⟩ := hleft
  obtain ⟨l', hl'⟩ := hright
  have hlt' : ∀ a ∈ l, ∀ b ∈ l', a.1 < b.1 := fun a ha b hb =>
    hlt a.1 b.1 (by simp [(hl.value_eq_some a.1 a.2).mpr ha]) (by simp [(hl'.value_eq_some b.1 b.2).mpr hb])
  have hj := splayJoin_spec hl hl' hne hlt'
  refine ⟨⟨_, hj⟩, hj.value_eq fun k v => ?_⟩
  rw [List.mem_append, ← hl.value_eq_some, ← hl'.value_eq_some]
  cases hv : left.value k with
  | none => simp
  | some w =>
    have hnone : right.value k ≠ some v := fun h => lt_irrefl k (hlt k k (by simp [hv]) (by simp [h]))
    simp [hnone]

/-- The sons of a split tree, joined. -/
theorem splayJoin_split {tree left right : Tree K V} {l : List (K × V)} (hl : Entries tree l) {item : K}
    (hz : noZigZag item tree = true) {v : Option V} (h : splaySplit item tree = some (v, left, right)) (hne : left ≠ var) :
    Increasing (splayJoin left right) ∧ (splayJoin left right).value = Function.update tree.value item none := by
  obtain ⟨lo, hi, hcut, hlo, hhi⟩ := splaySplit_spec hl hz h
  have hj := splayJoin_spec hlo hhi hne fun a ha b hb => (hcut.below a ha).trans (hcut.above b hb)
  exact ⟨⟨_, hj⟩, hcut.value_erase hl hj⟩

theorem splaySplit_value {tree left right : Tree K V} {l : List (K × V)} (hl : Entries tree l) {item : K}
    (hz : noZigZag item tree = true) {v : Option V} (h : splaySplit item tree = some (v, left, right)) :
    v = tree.value item ∧ (Increasing left ∧ left.value = fun k => if k < item then tree.value k else none) ∧
      Increasing right ∧ right.value = fun k => if item < k then tree.value k else none := by
  obtain ⟨lo, hi, hcut, hlo, hhi⟩ := splaySplit_spec hl hz h
  refine ⟨Option.ext fun w => ?_, ⟨⟨lo, hlo⟩, hcut.value_left hl hlo⟩, ⟨hi, hhi⟩, hcut.value_right hl hhi⟩
  rw [hl.value_eq_some, hcut.mem_iff]

theorem splayDel_spec {tree new : Tree K V} {l : List (K × V)} (hl : Entries tree l) {item : K}
    (hz : noZigZag item tree = true) (hsmaller : ∃ k < item, tree.value k ≠ none) (h : splayDel item tree = some new) :
    Increasing new ∧ new.value = Function.update tree.value item none := by
  obtain ⟨⟨v, left, right⟩, hs, rfl⟩ := Option.map_eq_some_iff.mp h
  obtain ⟨k, hk, hv⟩ := hsmaller
  obtain ⟨-, ⟨-, hleft⟩, -⟩ := splaySplit_value hl hz hs
  refine splayJoin_split hl hz hs fun (hvar : left = var) => hv ?_
  have hkv := congrFun hleft k
  rw [hvar, if_pos hk] at hkv
  exact hkv.symm

-- ---------------------------------------------------------------------------
-- Trees that the operations build
-- ---------------------------------------------------------------------------

/--
Trees built from `splay_init`, where no search takes a double step to the left and
then to the right, no failed access ends on an empty tree two steps below a node,
and the left tree that is joined, here and in a deletion, is not empty.
-/
inductive Built : Tree K V → Prop
  | init : Built splayInit
  | insert (tree : Tree K V) (item : K) (val : V) (new : Tree K V) : Built tree → noZigZag item tree = true →
      splayInsert item val tree = some new → Built new
  | access (tree : Tree K V) (item : K) (answer : Answer K V) : Built tree → noZigZag item tree = true →
      (tree = var ∨ endsOnVar item tree = false) → splayAccess item tree = some answer → Built answer.new
  | left (tree : Tree K V) (item : K) (v : Option V) (left right : Tree K V) : Built tree → noZigZag item tree = true →
      splaySplit item tree = some (v, left, right) → Built left
  | right (tree : Tree K V) (item : K) (v : Option V) (left right : Tree K V) : Built tree → noZigZag item tree = true →
      splaySplit item tree = some (v, left, right) → Built right
  | join (left right : Tree K V) : Built left → Built right → left ≠ var →
      (∀ k k', left.value k ≠ none → right.value k' ≠ none → k < k') → Built (splayJoin left right)
  | del (tree : Tree K V) (item : K) (new : Tree K V) : Built tree → noZigZag item tree = true →
      (∃ k < item, tree.value k ≠ none) → splayDel item tree = some new → Built new

theorem Built.increasing {tree : Tree K V} (h : Built tree) : Increasing tree := by
  induction h with
  | init => exact ⟨[], rfl, List.Pairwise.nil⟩
  | insert tree item val new _ hz h ih =>
    obtain ⟨l, hl⟩ := ih
    exact (splayInsert_spec hl hz h).1
  | access tree item answer _ hz hends h ih =>
    obtain ⟨l, hl⟩ := ih
    obtain ⟨answer', h', hnew, -⟩ := splayAccess_spec hl hz hends
    obtain rfl := Option.some.inj (h.symm.trans h')
    exact ⟨l, hnew⟩
  | left tree item v left right _ hz h ih =>
    obtain ⟨l, hl⟩ := ih
    exact (splaySplit_value hl hz h).2.1.1
  | right tree item v left right _ hz h ih =>
    obtain ⟨l, hl⟩ := ih
    exact (splaySplit_value hl hz h).2.2.1
  | join left right _ _ hne hlt ihl ihr => exact (splayJoin_value ihl ihr hne hlt).1
  | del tree item new _ hz hsmaller h ih =>
    obtain ⟨l, hl⟩ := ih
    exact (splayDel_spec hl hz hsmaller h).1

/-- The operations on a built tree, which is not used again, as operations on its map. -/
theorem built_operations {tree : Tree K V} (h : Built tree) :
    Increasing tree ∧
    (∀ item, noZigZag item tree = true →
      (∀ val new, splayInsert item val tree = some new → new.value = Function.update tree.value item (some val)) ∧
      (tree.value item = none → ∀ val, ∃ new, splayInsert item val tree = some new) ∧
      (tree = var ∨ endsOnVar item tree = false → ∃ answer, splayAccess item tree = some answer ∧
        answer.new.value = tree.value ∧ answer.val = tree.value item ∧ (answer.found = true ↔ tree.value item ≠ none)) ∧
      (∀ new, (∃ k < item, tree.value k ≠ none) → splayDel item tree = some new →
        new.value = Function.update tree.value item none) ∧
      (tree.value item ≠ none → (∃ s, splaySplit item tree = some s) ∧ ∃ new, splayDel item tree = some new) ∧
      (∀ v left right, splaySplit item tree = some (v, left, right) →
        v = tree.value item ∧ (left.value = fun k => if k < item then tree.value k else none) ∧
        (right.value = fun k => if item < k then tree.value k else none) ∧
        (left ≠ var → (splayJoin left right).value = Function.update tree.value item none))) ∧
    ∀ right : Tree K V, Built right → tree ≠ var →
      (∀ k k', tree.value k ≠ none → right.value k' ≠ none → k < k') →
      (splayJoin tree right).value = fun k => (tree.value k).or (right.value k) := by
  obtain ⟨l, hl⟩ := h.increasing
  refine ⟨⟨l, hl⟩, fun item hz => ⟨?_, splayInsert_absent hl hz, ?_, ?_, ?_, ?_⟩, ?_⟩
  · exact fun val new hnew => (splayInsert_spec hl hz hnew).2
  · intro hends
    obtain ⟨answer, ha, hnew, hval, hfound⟩ := splayAccess_spec hl hz hends
    exact ⟨answer, ha, hnew.value_eq fun k v => (hl.value_eq_some k v).symm, hval, hfound⟩
  · exact fun new hsmaller hnew => (splayDel_spec hl hz hsmaller hnew).2
  · intro hpresent
    obtain ⟨s, hs⟩ := splaySplit_present hl hz hpresent
    exact ⟨⟨s, hs⟩, splayJoin s.2.1 s.2.2, by rw [splayDel, hs]; rfl⟩
  · intro v left right hs
    obtain ⟨hv, ⟨-, hleft⟩, -, hright⟩ := splaySplit_value hl hz hs
    exact ⟨hv, hleft, hright, fun hne => (splayJoin_split hl hz hs hne).2⟩
  · exact fun right hright hne hlt => (splayJoin_value ⟨l, hl⟩ hright.increasing hne hlt).2

theorem built_operations_two :
    Increasing (n (some 2) (some 20) (n (some 1) (some 10) var var) var) ∧
      ∀ new, splayDel 2 (n (some 2) (some 20) (n (some 1) (some 10) var var) var) = some new →
        new.value = Function.update (n (some 2) (some 20) (n (some 1) (some 10) var var) var).value 2 none := by
  have h := built_operations (.insert _ 2 20 _ (.insert _ 1 10 _ .init rfl rfl) rfl rfl :
    Built (n (some 2) (some 20) (n (some 1) (some 10) var var) var))
  exact ⟨h.1, fun new hnew => (h.2.1 2 rfl).2.2.2.1 new ⟨1, by decide, by decide⟩ hnew⟩

/-- A split leaves out the entry of its item. -/
theorem not_split_join :
    ¬ ∀ (tree : Tree ℕ ℕ) (item : ℕ) (v : Option ℕ) (left right : Tree ℕ ℕ), Built tree →
      splaySplit item tree = some (v, left, right) → (splayJoin left right).value = tree.value := by
  intro h
  have hj := h (n (some 2) (some 20) (n (some 1) (some 10) var var) var) 2 (some 20) (n (some 1) (some 10) var var) var
    (.insert _ 2 20 _ (.insert _ 1 10 _ .init rfl rfl) rfl rfl) rfl
  exact absurd (congrFun hj 2) (by decide)

end Operations

end Splay

end Yap
