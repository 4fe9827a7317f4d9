-- SUMMARY: Red-black trees of library(rbtrees): their entries, the validity of a tree, lookup, and the check is_rbtree/1.
import Yap.Base.Assoc

/-!
# Red-black trees

A tree is `t(Nil,Tree)`, where `Nil` is the term `black('',_,_,'')` that stands
for every empty subtree; it is the constructor `nil` here, and a pattern
`black(_,_,_,_)` of the source matches it too. Keys are compared by the
standard order of terms, a linear order of the type `α`.
-/

namespace Yap

namespace Rbtrees

inductive Tree (α β : Type*) where
  | nil
  | red (l : Tree α β) (key : α) (val : β) (r : Tree α β)
  | black (l : Tree α β) (key : α) (val : β) (r : Tree α β)
deriving DecidableEq, Repr

inductive Color where
  | red | black
deriving DecidableEq, Repr

/-- The flag of an update: whether the tree is repaired. -/
inductive Flag where
  | done | notDone
deriving DecidableEq, Repr

variable {α β : Type*}

/-- The entries from left to right. -/
def Tree.toList : Tree α β → List (α × β)
  | .nil => []
  | .red l k v r => l.toList ++ (k, v) :: r.toList
  | .black l k v r => l.toList ++ (k, v) :: r.toList

@[simp] theorem toList_nil : (Tree.nil : Tree α β).toList = [] := rfl

@[simp] theorem toList_red (l : Tree α β) (k : α) (v : β) (r : Tree α β) :
    (Tree.red l k v r).toList = l.toList ++ (k, v) :: r.toList := rfl

@[simp] theorem toList_black (l : Tree α β) (k : α) (v : β) (r : Tree α β) :
    (Tree.black l k v r).toList = l.toList ++ (k, v) :: r.toList := rfl

-- ---------------------------------------------------------------------------
-- Validity
-- ---------------------------------------------------------------------------

/-- A tree with a root of the color, no red node with a red child, and the same number of black
nodes on every path to a `Nil`. -/
inductive Balanced : Tree α β → Color → ℕ → Prop
  | nil : Balanced .nil .black 0
  | red {l k v r n} : Balanced l .black n → Balanced r .black n → Balanced (.red l k v r) .red n
  | black {l k v r n c₁ c₂} : Balanced l c₁ n → Balanced r c₂ n →
      Balanced (.black l k v r) .black (n + 1)

/-- A valid tree: keys strictly increasing in order, balanced, with a black root. -/
structure Valid [LinearOrder α] (t : Tree α β) : Prop where
  sorted : Assoc.Sorted t.toList
  balanced : ∃ n, Balanced t .black n

theorem valid_nil [LinearOrder α] : Valid (.nil : Tree α β) :=
  ⟨Assoc.sorted_nil, 0, .nil⟩

/-- A tree with keys on both sides of its root. -/
def threeTree : Tree ℕ Char := .black (.red .nil 1 'a' .nil) 2 'b' (.red .nil 3 'c' .nil)

theorem valid_threeTree : Valid threeTree :=
  ⟨by decide, 1, .black (.red .nil .nil) (.red .nil .nil)⟩

theorem Balanced.eq_nil {t : Tree α β} (h : Balanced t .black 0) : t = .nil := by
  cases h
  rfl

-- ---------------------------------------------------------------------------
-- Lookup
-- ---------------------------------------------------------------------------

section Lookup

variable [LinearOrder α]

def lookup (key : α) : Tree α β → Option β
  | .nil => none
  | .red l ka va r | .black l ka va r =>
    if key < ka then lookup key l else if ka < key then lookup key r else some va

def rbLookup (key : α) (t : Tree α β) : Option β := lookup key t

/-- A lookup in an ordered tree finds the value of the key in its list of entries. -/
theorem lookup_eq_value {t : Tree α β} (h : Assoc.Sorted t.toList) (key : α) :
    lookup key t = Assoc.value key t.toList := by
  induction t with
  | nil => rfl
  | red l ka va r ihl ihr | black l ka va r ihl ihr =>
    obtain ⟨hl, hr, -, -⟩ := Assoc.sorted_split.mp h
    rw [lookup]
    split_ifs with hlt hgt
    · exact (ihl hl).trans (Assoc.value_left h hlt).symm
    · exact (ihr hr).trans (Assoc.value_right h hgt).symm
    · obtain rfl : key = ka := le_antisymm (not_lt.mp hgt) (not_lt.mp hlt)
      exact (Assoc.value_here h).symm

end Lookup

-- ---------------------------------------------------------------------------
-- The check of a tree
-- ---------------------------------------------------------------------------

def findPathBlacks : Tree α β → ℤ → ℤ
  | .nil, bls => bls
  | .black l _ _ _, bls0 => findPathBlacks l (bls0 + 1)
  | .red l _ _ _, bls => findPathBlacks l bls

theorem findPathBlacks_eq {t : Tree α β} {c : Color} {n : ℕ} (h : Balanced t c n) (bls : ℤ) :
    findPathBlacks t bls = bls + n := by
  induction h generalizing bls with
  | nil => simp [findPathBlacks]
  | red _ _ ihl _ => rw [findPathBlacks, ihl]
  | black _ _ ihl _ =>
    rw [findPathBlacks, ihl]
    push_cast
    ring

def checkRedChild : Tree α β → Bool
  | .red .. => false
  | _ => true

theorem checkRedChild_black {t : Tree α β} {n : ℕ} (h : Balanced t .black n) :
    checkRedChild t = true := by
  cases h <;> rfl

section Check

variable [LinearOrder α]

/-- The terms `-inf` and `+inf` that bound the keys of the whole tree. -/
structure Infs (α : Type*) where
  minus : α
  plus : α

/-- `false` where the source throws. -/
def checkVal (inf : Infs α) (k min max : α) : Bool :=
  (min < k || min = inf.minus) && (k < max || max = inf.plus)

def checkRbtree (inf : Infs α) : Tree α β → α → α → ℤ → Bool
  | .nil, _, _, bls => bls = 0
  | .red l k _ r, min, max, bls =>
    checkVal inf k min max && checkRedChild l && checkRedChild r &&
      checkRbtree inf l min k bls && checkRbtree inf r k max bls
  | .black l k _ r, min, max, bls0 =>
    checkVal inf k min max && checkRbtree inf l min k (bls0 - 1) && checkRbtree inf r k max (bls0 - 1)

def isRbtree (inf : Infs α) : Tree α β → Bool
  | .nil => true
  | .black l k _ r =>
    checkRbtree inf l inf.minus k (findPathBlacks l 0) && checkRbtree inf r k inf.plus (findPathBlacks l 0)
  | .red .. => false

/-- A lower bound that passes the check for every key of the list. -/
def Below (inf : Infs α) (min : α) (l : List (α × β)) : Prop := (∀ e ∈ l, min < e.1) ∨ min = inf.minus

def Above (inf : Infs α) (max : α) (l : List (α × β)) : Prop := (∀ e ∈ l, e.1 < max) ∨ max = inf.plus

theorem Below.left {inf : Infs α} {l r : List (α × β)} {min : α} (h : Below inf min (l ++ r)) :
    Below inf min l :=
  h.imp_left fun hlt e he => hlt e (List.mem_append_left _ he)

theorem Above.right {inf : Infs α} {l r : List (α × β)} {e : α × β} {max : α}
    (h : Above inf max (l ++ e :: r)) : Above inf max r :=
  h.imp_left fun hlt b hb => hlt b (List.mem_append_right _ (List.mem_cons_of_mem _ hb))

theorem checkVal_of_bounds {inf : Infs α} {l r : List (α × β)} {k min max : α} {v : β}
    (hmin : Below inf min (l ++ (k, v) :: r)) (hmax : Above inf max (l ++ (k, v) :: r)) :
    checkVal inf k min max = true := by
  have hlow : min < k ∨ min = inf.minus := hmin.imp_left fun h => h (k, v) (by simp)
  have hhigh : k < max ∨ max = inf.plus := hmax.imp_left fun h => h (k, v) (by simp)
  simp [checkVal, hlow, hhigh]

theorem checkRbtree_of_balanced {inf : Infs α} {t : Tree α β} {c : Color} {n : ℕ} {min max : α}
    (h : Balanced t c n) (hs : Assoc.Sorted t.toList) (hmin : Below inf min t.toList)
    (hmax : Above inf max t.toList) : checkRbtree inf t min max n = true := by
  induction h generalizing min max with
  | nil => rfl
  | red hbl hbr ihl ihr =>
    obtain ⟨hl, hr, hle, hge⟩ := Assoc.sorted_split.mp hs
    have hval := checkVal_of_bounds hmin hmax
    have hleft := ihl hl hmin.left (.inl hle)
    have hright := ihr hr (.inl hge) hmax.right
    simp [checkRbtree, hval, hleft, hright, checkRedChild_black hbl, checkRedChild_black hbr]
  | black hbl hbr ihl ihr =>
    obtain ⟨hl, hr, hle, hge⟩ := Assoc.sorted_split.mp hs
    have hval := checkVal_of_bounds hmin hmax
    have hleft := ihl hl hmin.left (.inl hle)
    have hright := ihr hr (.inl hge) hmax.right
    simp [checkRbtree, hval, hleft, hright]

/-- Every valid tree passes the check. -/
theorem Valid.isRbtree {t : Tree α β} (h : Valid t) (inf : Infs α) : isRbtree inf t = true := by
  obtain ⟨n, hb⟩ := h.balanced
  cases hb with
  | nil => rfl
  | black hbl hbr =>
    obtain ⟨hl, hr, hle, hge⟩ := Assoc.sorted_split.mp h.sorted
    have hblacks := findPathBlacks_eq hbl 0
    rw [zero_add] at hblacks
    rw [Rbtrees.isRbtree, hblacks, checkRbtree_of_balanced hbl hl (.inr rfl) (.inl hle),
      checkRbtree_of_balanced hbr hr (.inl hge) (.inr rfl)]
    rfl

end Check

end Rbtrees

end Yap
