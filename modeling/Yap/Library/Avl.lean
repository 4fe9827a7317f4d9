-- SUMMARY: library(avl): insertion with its balancing tables, lookup, and the shape and the pairs of every tree built by insertions.
import Mathlib

/-!
# AVL trees

The predicates of `library(avl)`. Keys are compared by the standard order of
terms, which is a linear order of a type `α` here. A tree is built from `[]`
by `avl_insert/4`; a key may be inserted several times.
-/

namespace Yap

namespace Avl

-- ---------------------------------------------------------------------------
-- Code
-- ---------------------------------------------------------------------------

/-- The marks `<`, `-` and `>`: the left subtree is deeper, none is, the right one is. -/
inductive Mark where
  | lt | bal | gt
deriving DecidableEq, Repr

inductive Answer where
  | yes | no
deriving DecidableEq, Repr

inductive Side where
  | left | right
deriving DecidableEq, Repr

/-- `[]` and `avl(L,Key,Val,Bl,R)`. -/
inductive Tree (α β : Type*) where
  | nil
  | avl (l : Tree α β) (key : α) (val : β) (bl : Mark) (r : Tree α β)
deriving DecidableEq, Repr

variable {α β : Type*}

/-- The mark after an insertion below, whether the tree got deeper, and whether it has to be rebalanced. -/
def table : Mark → Side → Mark × Answer × Answer
  | .bal, .left => (.lt, .yes, .no)
  | .bal, .right => (.gt, .yes, .no)
  | .lt, .left => (.bal, .no, .yes)
  | .lt, .right => (.bal, .no, .no)
  | .gt, .left => (.bal, .no, .no)
  | .gt, .right => (.bal, .no, .yes)

def table2 : Mark → Mark × Mark
  | .lt => (.bal, .gt)
  | .gt => (.lt, .bal)
  | .bal => (.bal, .bal)

/-- The four rotations; it fails on any other tree. -/
def avlGeq : Tree α β → Option (Tree α β)
  | .avl al a va .gt (.avl be b vb .gt ga) => some (.avl (.avl al a va .bal be) b vb .bal ga)
  | .avl (.avl al a va .lt be) b vb .lt ga => some (.avl al a va .bal (.avl be b vb .bal ga))
  | .avl al a va .gt (.avl (.avl be x vx bl1 ga) b vb .lt de) =>
    some (.avl (.avl al a va (table2 bl1).1 be) x vx .bal (.avl ga b vb (table2 bl1).2 de))
  | .avl (.avl al a va .gt (.avl be x vx bl1 ga)) b vb .lt de =>
    some (.avl (.avl al a va (table2 bl1).1 be) x vx .bal (.avl ga b vb (table2 bl1).2 de))
  | _ => none

/-- `rebalance(avl(L,Root,RVal,Bl,R), Bl1, ToBeRebalanced, NewTree)`. -/
def rebalance (l : Tree α β) (root : α) (rval : β) (bl : Mark) (r : Tree α β) (bl1 : Mark) :
    Answer → Option (Tree α β)
  | .no => some (.avl l root rval bl1 r)
  | .yes => avlGeq (.avl l root rval bl r)

/-- `adjust(avl(L,Root,RVal,Bl,R), HasChanged, LoR, NewTree, WhatHasChanged)`. -/
def adjust (l : Tree α β) (root : α) (rval : β) (bl : Mark) (r : Tree α β) :
    Answer → Side → Option (Tree α β × Answer)
  | .no, _ => some (.avl l root rval bl r, .no)
  | .yes, lor =>
    (rebalance l root rval bl r (table bl lor).1 (table bl lor).2.2).map fun newTree =>
      (newTree, (table bl lor).2.1)

section Ordered

variable [LinearOrder α]

def insert : Tree α β → α → β → Option (Tree α β × Answer)
  | .nil, key, value => some (.avl .nil key value .bal .nil, .yes)
  | .avl l root rval bl r, e, value =>
    if e < root then
      match insert l e value with
      | some (newL, leftHasChanged) => adjust newL root rval bl r leftHasChanged .left
      | none => none
    else
      match insert r e value with
      | some (newR, rightHasChanged) => adjust l root rval bl newR rightHasChanged .right
      | none => none

def avlInsert (key : α) (value : β) (t0 : Tree α β) : Option (Tree α β) :=
  (insert t0 key value).map Prod.fst

/-- The value that `avl_lookup(Key, Value, T)` unifies with `Value`. -/
def avlLookup (key : α) : Tree α β → Option β
  | .nil => none
  | .avl l key0 kval _ r =>
    if key = key0 then some kval else if key < key0 then avlLookup key l else avlLookup key r

/-- The pairs inserted one after the other into the empty tree. -/
def build (pairs : List (α × β)) : Option (Tree α β) :=
  pairs.foldlM (fun t p => avlInsert p.1 p.2 t) .nil

end Ordered

-- ---------------------------------------------------------------------------
-- Shape
-- ---------------------------------------------------------------------------

def Tree.height : Tree α β → ℕ
  | .nil => 0
  | .avl l _ _ _ r => max l.height r.height + 1

/-- What a mark says about the heights of the two subtrees. -/
def Mark.Exact (l r : ℕ) : Mark → Prop
  | .lt => l = r + 1
  | .bal => l = r
  | .gt => r = l + 1

/-- Every mark of the tree is exact; so the heights of two subtrees differ by at most one. -/
def Tree.Balanced : Tree α β → Prop
  | .nil => True
  | .avl l _ _ bl r => bl.Exact l.height r.height ∧ l.Balanced ∧ r.Balanced

/-- The entries from left to right. -/
def Tree.toList : Tree α β → List (α × β)
  | .nil => []
  | .avl l key val _ r => l.toList ++ (key, val) :: r.toList

inductive Subtree : Tree α β → Tree α β → Prop
  | refl (t) : Subtree t t
  | left {s l key val bl r} : Subtree s l → Subtree s (.avl l key val bl r)
  | right {s l key val bl r} : Subtree s r → Subtree s (.avl l key val bl r)

theorem Subtree.balanced {s t : Tree α β} (h : Subtree s t) (ht : t.Balanced) : s.Balanced := by
  induction h with
  | refl => exact ht
  | left _ ih => exact ih ht.2.1
  | right _ ih => exact ih ht.2.2

-- ---------------------------------------------------------------------------
-- Rotations
-- ---------------------------------------------------------------------------

/-- One of the two subtrees is deeper. -/
def Tree.Tilted : Tree α β → Prop
  | .nil => False
  | .avl _ _ _ bl _ => bl ≠ .bal

/-- A rotation changes no entry. -/
theorem toList_avlGeq {t t' : Tree α β} (h : avlGeq t = some t') : t'.toList = t.toList := by
  unfold avlGeq at h
  split at h
  all_goals first
    | (cases h
       simp [Tree.toList])
    | exact absurd h (by simp)

/-- The two marks of a double rotation are right for the subtrees of the inner node. -/
theorem table2_exact {bl1 : Mark} {n be ga : ℕ} (h : bl1.Exact be ga) (hmax : max be ga = n) :
    (table2 bl1).1.Exact n be ∧ (table2 bl1).2.Exact ga n ∧ be ≤ n ∧ ga ≤ n := by
  cases bl1 <;> simp only [table2, Mark.Exact] at h ⊢ <;> omega

/-- The rotations of a tree whose left subtree is too deep by one. -/
theorem avlGeq_left {l r : Tree α β} (root : α) (rval : β) (hl : l.Balanced) (hr : r.Balanced)
    (htilted : l.Tilted) (hheight : l.height = r.height + 2) :
    ∃ t', avlGeq (.avl l root rval .lt r) = some t' ∧ t'.Balanced ∧ t'.height = r.height + 2 := by
  cases l with
  | nil => exact htilted.elim
  | avl ll k v bl lr =>
    obtain ⟨hmark, hll, hlr⟩ := hl
    simp only [Tree.height] at hheight
    cases bl with
    | bal => exact absurd rfl htilted
    | lt =>
      simp only [Mark.Exact] at hmark
      refine ⟨_, rfl, ?_⟩
      simp only [Tree.Balanced, Tree.height, Mark.Exact]
      exact ⟨⟨by omega, hll, by omega, hlr, hr⟩, by omega⟩
    | gt =>
      simp only [Mark.Exact] at hmark
      cases lr with
      | nil => simp [Tree.height] at hmark
      | avl be x vx bl1 ga =>
        obtain ⟨hmark1, hbe, hga⟩ := hlr
        simp only [Tree.height] at hmark hheight
        obtain ⟨h1, h2, h3, h4⟩ := table2_exact hmark1 (n := r.height) (by omega)
        refine ⟨_, rfl, ?_⟩
        have hll' : ll.height = r.height := by omega
        simp only [Tree.Balanced, Tree.height, hll']
        refine ⟨⟨?_, ⟨h1, hll, hbe⟩, h2, hga, hr⟩, by omega⟩
        simp only [Mark.Exact]
        omega

/-- The rotations of a tree whose right subtree is too deep by one. -/
theorem avlGeq_right {l r : Tree α β} (root : α) (rval : β) (hl : l.Balanced) (hr : r.Balanced)
    (htilted : r.Tilted) (hheight : r.height = l.height + 2) :
    ∃ t', avlGeq (.avl l root rval .gt r) = some t' ∧ t'.Balanced ∧ t'.height = l.height + 2 := by
  cases r with
  | nil => exact htilted.elim
  | avl rl k v bl rr =>
    obtain ⟨hmark, hrl, hrr⟩ := hr
    simp only [Tree.height] at hheight
    cases bl with
    | bal => exact absurd rfl htilted
    | gt =>
      simp only [Mark.Exact] at hmark
      refine ⟨_, rfl, ?_⟩
      simp only [Tree.Balanced, Tree.height, Mark.Exact]
      exact ⟨⟨by omega, ⟨by omega, hl, hrl⟩, hrr⟩, by omega⟩
    | lt =>
      simp only [Mark.Exact] at hmark
      cases rl with
      | nil => simp [Tree.height] at hmark
      | avl be x vx bl1 ga =>
        obtain ⟨hmark1, hbe, hga⟩ := hrl
        simp only [Tree.height] at hmark hheight
        obtain ⟨h1, h2, h3, h4⟩ := table2_exact hmark1 (n := l.height) (by omega)
        refine ⟨_, rfl, ?_⟩
        have hrr' : rr.height = l.height := by omega
        simp only [Tree.Balanced, Tree.height, hrr']
        refine ⟨⟨?_, ⟨h1, hl, hbe⟩, h2, hga, hrr⟩, by omega⟩
        simp only [Mark.Exact]
        omega

-- ---------------------------------------------------------------------------
-- Adjusting
-- ---------------------------------------------------------------------------

/-- The levels that an answer stands for. -/
def Answer.levels : Answer → ℕ
  | .yes => 1
  | .no => 0

/-- What an insertion into `old` returns: the flag is the growth of the tree, and a tree
that grew, other than a new leaf, is tilted. -/
structure Grown (old new : Tree α β) (changed : Answer) : Prop where
  balanced : new.Balanced
  height : new.height = old.height + changed.levels
  tilted : changed = .yes → old.height ≠ 0 → new.Tilted

theorem toList_adjust {l r t' : Tree α β} {root : α} {rval : β} {bl : Mark} {changed w : Answer}
    {lor : Side} (h : adjust l root rval bl r changed lor = some (t', w)) :
    t'.toList = l.toList ++ (root, rval) :: r.toList := by
  cases changed with
  | no =>
    cases h
    rfl
  | yes =>
    simp only [adjust, Option.map_eq_some_iff] at h
    obtain ⟨t₁, ht₁, heq⟩ := h
    cases heq
    cases hreb : (table bl lor).2.2 with
    | no =>
      rw [hreb] at ht₁
      cases ht₁
      rfl
    | yes =>
      rw [hreb] at ht₁
      exact toList_avlGeq ht₁

/-- Adjusting after an insertion on the left. -/
theorem adjust_left {l newL r : Tree α β} {root : α} {rval : β} {bl : Mark} {changed : Answer}
    (ht : (Tree.avl l root rval bl r).Balanced) (hgrown : Grown l newL changed) :
    ∃ t' w, adjust newL root rval bl r changed .left = some (t', w) ∧
      Grown (.avl l root rval bl r) t' w := by
  obtain ⟨hmark, hl, hr⟩ := ht
  have hheight := hgrown.height
  cases changed with
  | no =>
    simp only [Answer.levels, Nat.add_zero] at hheight
    refine ⟨.avl newL root rval bl r, .no, rfl, ⟨by rwa [hheight], hgrown.balanced, hr⟩, ?_, fun h => by cases h⟩
    simp [Tree.height, Answer.levels, hheight]
  | yes =>
    simp only [Answer.levels] at hheight
    cases bl with
    | bal =>
      refine ⟨.avl newL root rval .lt r, .yes, rfl, ⟨?_, hgrown.balanced, hr⟩, ?_, fun _ _ => by simp [Tree.Tilted]⟩
      · simp only [Mark.Exact] at hmark ⊢
        omega
      · simp only [Mark.Exact, Tree.height, Answer.levels] at hmark ⊢
        omega
    | gt =>
      refine ⟨.avl newL root rval .bal r, .no, rfl, ⟨?_, hgrown.balanced, hr⟩, ?_, fun h => by cases h⟩
      · simp only [Mark.Exact] at hmark ⊢
        omega
      · simp only [Mark.Exact, Tree.height, Answer.levels] at hmark ⊢
        omega
    | lt =>
      simp only [Mark.Exact] at hmark
      obtain ⟨t', heq, hbal, ht'⟩ := avlGeq_left root rval hgrown.balanced hr
        (hgrown.tilted rfl (by omega)) (by omega)
      refine ⟨t', .no, by simp [adjust, table, rebalance, heq], hbal, ?_, fun h => by cases h⟩
      simp only [Tree.height, Answer.levels]
      omega

/-- Adjusting after an insertion on the right. -/
theorem adjust_right {l newR r : Tree α β} {root : α} {rval : β} {bl : Mark} {changed : Answer}
    (ht : (Tree.avl l root rval bl r).Balanced) (hgrown : Grown r newR changed) :
    ∃ t' w, adjust l root rval bl newR changed .right = some (t', w) ∧
      Grown (.avl l root rval bl r) t' w := by
  obtain ⟨hmark, hl, hr⟩ := ht
  have hheight := hgrown.height
  cases changed with
  | no =>
    simp only [Answer.levels, Nat.add_zero] at hheight
    refine ⟨.avl l root rval bl newR, .no, rfl, ⟨by rwa [hheight], hl, hgrown.balanced⟩, ?_, fun h => by cases h⟩
    simp [Tree.height, Answer.levels, hheight]
  | yes =>
    simp only [Answer.levels] at hheight
    cases bl with
    | bal =>
      refine ⟨.avl l root rval .gt newR, .yes, rfl, ⟨?_, hl, hgrown.balanced⟩, ?_, fun _ _ => by simp [Tree.Tilted]⟩
      · simp only [Mark.Exact] at hmark ⊢
        omega
      · simp only [Mark.Exact, Tree.height, Answer.levels] at hmark ⊢
        omega
    | lt =>
      refine ⟨.avl l root rval .bal newR, .no, rfl, ⟨?_, hl, hgrown.balanced⟩, ?_, fun h => by cases h⟩
      · simp only [Mark.Exact] at hmark ⊢
        omega
      · simp only [Mark.Exact, Tree.height, Answer.levels] at hmark ⊢
        omega
    | gt =>
      simp only [Mark.Exact] at hmark
      obtain ⟨t', heq, hbal, ht'⟩ := avlGeq_right root rval hl hgrown.balanced
        (hgrown.tilted rfl (by omega)) (by omega)
      refine ⟨t', .no, by simp [adjust, table, rebalance, heq], hbal, ?_, fun h => by cases h⟩
      simp only [Tree.height, Answer.levels]
      omega

-- ---------------------------------------------------------------------------
-- Insertion
-- ---------------------------------------------------------------------------

section Ordered

variable [LinearOrder α]

/-- The keys of a list of entries are in order; equal ones may follow each other. -/
def Sorted (l : List (α × β)) : Prop := l.Pairwise fun a b => a.1 ≤ b.1

theorem sorted_node {l r : List (α × β)} {e : α × β} :
    Sorted (l ++ e :: r) ↔ Sorted l ∧ Sorted r ∧ (∀ a ∈ l, a.1 ≤ e.1) ∧ ∀ b ∈ r, e.1 ≤ b.1 := by
  unfold Sorted
  simp only [List.pairwise_append, List.pairwise_cons, List.mem_cons, forall_eq_or_imp]
  constructor
  · rintro ⟨hl, ⟨hr, hrs⟩, hlr⟩
    exact ⟨hl, hrs, fun a ha => (hlr a ha).1, hr⟩
  · rintro ⟨hl, hrs, hle, hr⟩
    exact ⟨hl, ⟨hr, hrs⟩, fun a ha => ⟨hle a ha, fun b hb => (hle a ha).trans (hr b hb)⟩⟩

/-- Insertion never fails; its flag is the growth of the tree. -/
theorem insert_grown (t : Tree α β) (k : α) (v : β) (ht : t.Balanced) :
    ∃ t' w, insert t k v = some (t', w) ∧ Grown t t' w := by
  induction t with
  | nil =>
    refine ⟨_, _, rfl, ?_, rfl, fun _ h => absurd rfl h⟩
    simp [Tree.Balanced, Mark.Exact]
  | avl l root rval bl r ihl ihr =>
    rw [insert]
    split
    · obtain ⟨newL, changed, heq, hgrown⟩ := ihl ht.2.1
      rw [heq]
      exact adjust_left ht hgrown
    · obtain ⟨newR, changed, heq, hgrown⟩ := ihr ht.2.2
      rw [heq]
      exact adjust_right ht hgrown

/-- Insertion adds the pair and no other entry. -/
theorem insert_perm {t t' : Tree α β} {k : α} {v : β} {w : Answer} (h : insert t k v = some (t', w)) :
    t'.toList.Perm ((k, v) :: t.toList) := by
  induction t generalizing t' w with
  | nil =>
    cases h
    rfl
  | avl l root rval bl r ihl ihr =>
    rw [insert] at h
    split at h
    · cases hl : insert l k v with
      | none => simp [hl] at h
      | some p =>
        rw [hl] at h
        rw [toList_adjust h]
        exact (ihl hl).append_right _
    · cases hr : insert r k v with
      | none => simp [hr] at h
      | some p =>
        rw [hr] at h
        rw [toList_adjust h]
        exact (((ihr hr).cons _).append_left _).trans
          (((List.Perm.swap ..).append_left _).trans List.perm_middle)

/-- Insertion keeps the entries in order. -/
theorem insert_sorted {t t' : Tree α β} {k : α} {v : β} {w : Answer} (h : insert t k v = some (t', w))
    (ht : Sorted t.toList) : Sorted t'.toList := by
  induction t generalizing t' w with
  | nil =>
    cases h
    simp [Tree.toList, Sorted]
  | avl l root rval bl r ihl ihr =>
    obtain ⟨hl, hr, hle, hge⟩ := sorted_node.mp ht
    rw [insert] at h
    split at h
    case isTrue hlt =>
      cases hins : insert l k v with
      | none => simp [hins] at h
      | some p =>
        rw [hins] at h
        rw [toList_adjust h]
        refine sorted_node.mpr ⟨ihl hins hl, hr, fun a ha => ?_, hge⟩
        cases List.mem_cons.mp ((insert_perm hins).mem_iff.mp ha) with
        | inl heq => exact heq ▸ hlt.le
        | inr hmem => exact hle a hmem
    case isFalse hlt =>
      cases hins : insert r k v with
      | none => simp [hins] at h
      | some p =>
        rw [hins] at h
        rw [toList_adjust h]
        refine sorted_node.mpr ⟨hl, ihr hins hr, hle, fun a ha => ?_⟩
        cases List.mem_cons.mp ((insert_perm hins).mem_iff.mp ha) with
        | inl heq => exact heq ▸ not_lt.mp hlt
        | inr hmem => exact hge a hmem

-- ---------------------------------------------------------------------------
-- Lookup
-- ---------------------------------------------------------------------------

theorem avlLookup_mem {t : Tree α β} {k : α} {v : β} (h : avlLookup k t = some v) :
    (k, v) ∈ t.toList := by
  induction t with
  | nil => cases h
  | avl l root rval bl r ihl ihr =>
    rw [avlLookup] at h
    simp only [Tree.toList, List.mem_append, List.mem_cons]
    split at h
    case isTrue heq =>
      cases h
      exact .inr (.inl (heq ▸ rfl))
    case isFalse hne =>
      split at h
      · exact .inl (ihl h)
      · exact .inr (.inr (ihr h))

/-- A lookup in an ordered tree fails for no key that is there. -/
theorem avlLookup_ne_none {t : Tree α β} {k : α} {v : β} (ht : Sorted t.toList)
    (hmem : (k, v) ∈ t.toList) : avlLookup k t ≠ none := by
  induction t with
  | nil => cases hmem
  | avl l root rval bl r ihl ihr =>
    obtain ⟨hl, hr, hle, hge⟩ := sorted_node.mp ht
    simp only [Tree.toList, List.mem_append, List.mem_cons] at hmem
    rw [avlLookup]
    split
    · simp
    case isFalse hne =>
      split
      case isTrue hlt =>
        apply ihl hl
        cases hmem with
        | inl h => exact h
        | inr h =>
          cases h with
          | inl h => exact absurd (congrArg Prod.fst h) hne
          | inr h => exact absurd (hge _ h) (not_le.mpr hlt)
      case isFalse hlt =>
        apply ihr hr
        cases hmem with
        | inl h => exact absurd (lt_of_le_of_ne (hle _ h) hne) hlt
        | inr h =>
          cases h with
          | inl h => exact absurd (congrArg Prod.fst h) hne
          | inr h => exact h

-- ---------------------------------------------------------------------------
-- Trees built by insertions
-- ---------------------------------------------------------------------------

/-- What holds of the tree that a sequence of insertions builds. -/
structure Built (pairs : List (α × β)) (t : Tree α β) : Prop where
  balanced : t.Balanced
  sorted : Sorted t.toList
  entries : t.toList.Perm pairs

theorem Built.insert {pairs : List (α × β)} {t t' : Tree α β} {k : α} {v : β} (h : Built pairs t)
    (heq : avlInsert k v t = some t') : Built (pairs ++ [(k, v)]) t' := by
  obtain ⟨t₁, w, hins, hgrown⟩ := insert_grown t k v h.balanced
  rw [avlInsert, hins] at heq
  cases heq
  refine ⟨hgrown.balanced, insert_sorted hins h.sorted, ?_⟩
  exact (insert_perm hins).trans ((h.entries.cons _).trans (List.perm_append_singleton _ _).symm)

/-- Every sequence of insertions builds a tree. -/
theorem build_built (pairs : List (α × β)) : ∃ t, build pairs = some t ∧ Built pairs t := by
  induction pairs using List.reverseRecOn with
  | nil => exact ⟨.nil, rfl, trivial, List.Pairwise.nil, .nil⟩
  | append_singleton pairs p ih =>
    obtain ⟨t, heq, hbuilt⟩ := ih
    obtain ⟨t', w, hins, -⟩ := insert_grown t p.1 p.2 hbuilt.balanced
    have hstep : avlInsert p.1 p.2 t = some t' := by rw [avlInsert, hins]; rfl
    refine ⟨t', ?_, hbuilt.insert hstep⟩
    rw [build] at heq ⊢
    rw [List.foldlM_append, heq]
    simpa using hstep

/-- **AVL trees.** The tree that any sequence of insertions builds has its keys in order, exact
marks, and the pairs inserted; an insertion into any subtree of it tells its growth; a lookup
gives a value inserted with the key, and fails for the keys that were never inserted only. -/
theorem avl_of_inserts (pairs : List (α × β)) :
    ∃ t, build pairs = some t ∧ Sorted t.toList ∧ t.Balanced ∧ t.toList.Perm pairs ∧
      (∀ s, Subtree s t → ∀ k v, ∃ s' w, insert s k v = some (s', w) ∧
        (w = .yes ↔ s'.height = s.height + 1) ∧ (w = .no ↔ s'.height = s.height)) ∧
      ∀ k, (∀ v, avlLookup k t = some v → (k, v) ∈ pairs) ∧
        (avlLookup k t = none ↔ ∀ v, (k, v) ∉ pairs) := by
  obtain ⟨t, heq, hbuilt⟩ := build_built pairs
  refine ⟨t, heq, hbuilt.sorted, hbuilt.balanced, hbuilt.entries, ?_, ?_⟩
  · intro s hs k v
    obtain ⟨s', w, hins, hgrown⟩ := insert_grown s k v (hs.balanced hbuilt.balanced)
    refine ⟨s', w, hins, ?_⟩
    have hheight := hgrown.height
    cases w <;> simp [Answer.levels] at hheight ⊢ <;> omega
  · intro k
    have hmem : ∀ v, avlLookup k t = some v → (k, v) ∈ pairs := fun v hv =>
      hbuilt.entries.mem_iff.mp (avlLookup_mem hv)
    refine ⟨hmem, fun hnone v hv => ?_, fun hall => ?_⟩
    · exact avlLookup_ne_none hbuilt.sorted (hbuilt.entries.mem_iff.mpr hv) hnone
    · cases hlook : avlLookup k t with
      | none => rfl
      | some v => exact absurd (hmem v hlook) (hall v)

/-- With a key inserted twice the lookup finds one of its two pairs. -/
theorem not_all_pairs_found : ¬ ∀ (pairs : List (ℕ × Char)) (t : Tree ℕ Char), build pairs = some t →
    ∀ k v, (avlLookup k t = some v ↔ (k, v) ∈ pairs) := by
  intro h
  have hbuild : build [((1 : ℕ), 'a'), (1, 'b')] =
      some (.avl .nil 1 'a' .gt (.avl .nil 1 'b' .bal .nil)) := by decide
  have hfound := (h _ _ hbuild 1 'b').mpr (by simp)
  exact absurd hfound (by decide)

end Ordered

end Avl

end Yap
