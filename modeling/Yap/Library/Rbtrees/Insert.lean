-- SUMMARY: rb_insert/4 and rb_insert_new/4 of library(rbtrees): the repairs after an insertion, balance, entries, and the map of the result.
import Yap.Library.Rbtrees.Tree

/-!
# Insertion into red-black trees

`insert2/6` returns a tree and a flag: `not_done` says that the tree has a red
root where a black one was, or a red root with a red child. The next black
node above repairs it with the tables of `fix_left/3` and `fix_right/3`.
-/

namespace Yap

namespace Rbtrees

variable {α β : Type*}

-- ---------------------------------------------------------------------------
-- Code
-- ---------------------------------------------------------------------------

/-- `fix_left/3`. -/
def fixLeft3 : Tree α β → Tree α β × Flag
  | .black (.red al ak av (.red be bk bv ga)) kc vc (.red de kd vd ep) =>
    (.red (.black al ak av (.red be bk bv ga)) kc vc (.black de kd vd ep), .notDone)
  | .black (.red (.red al ka va be) kb vb ga) kc vc (.red de kd vd ep) =>
    (.red (.black (.red al ka va be) kb vb ga) kc vc (.black de kd vd ep), .notDone)
  | .black (.red al ka va (.red be kb vb ga)) kc vc de =>
    (.black (.red al ka va be) kb vb (.red ga kc vc de), .done)
  | .black (.red (.red al ka va be) kb vb ga) kc vc de =>
    (.black (.red al ka va be) kb vb (.red ga kc vc de), .done)
  | t => (t, .done)

/-- `fix_left/4`. -/
def fixLeft (flag : Flag) (t : Tree α β) : Tree α β × Flag :=
  if flag = .done then (t, .done) else fixLeft3 t

/-- `fix_right/3`. -/
def fixRight3 : Tree α β → Tree α β × Flag
  | .black (.red ep kd vd de) kc vc (.red (.red ga kb vb be) ka va al) =>
    (.red (.black ep kd vd de) kc vc (.black (.red ga kb vb be) ka va al), .notDone)
  | .black (.red ep kd vd de) kc vc (.red ga ka va (.red be kb vb al)) =>
    (.red (.black ep kd vd de) kc vc (.black ga ka va (.red be kb vb al)), .notDone)
  | .black de kc vc (.red (.red ga kb vb be) ka va al) =>
    (.black (.red de kc vc ga) kb vb (.red be ka va al), .done)
  | .black de kc vc (.red ga kb vb (.red be ka va al)) =>
    (.black (.red de kc vc ga) kb vb (.red be ka va al), .done)
  | t => (t, .done)

/-- `fix_right/4`. -/
def fixRight (flag : Flag) (t : Tree α β) : Tree α β × Flag :=
  if flag = .done then (t, .done) else fixRight3 t

def fixRoot : Tree α β → Tree α β
  | .nil => .nil
  | .black l k v r => .black l k v r
  | .red l k v r => .black l k v r

section Ordered

variable [LinearOrder α]

def insert2 : Tree α β → α → β → Tree α β × Flag
  | .nil, k, v => (.red .nil k v .nil, .notDone)
  | .red l k0 v0 r, k, v =>
    if k < k0 then (.red (insert2 l k v).1 k0 v0 r, (insert2 l k v).2)
    else if k = k0 then (.red l k0 v r, .done)
    else (.red l k0 v0 (insert2 r k v).1, (insert2 r k v).2)
  | .black l k0 v0 r, k, v =>
    if k < k0 then fixLeft (insert2 l k v).2 (.black (insert2 l k v).1 k0 v0 r)
    else if k = k0 then (.black l k0 v r, .done)
    else fixRight (insert2 r k v).2 (.black l k0 v0 (insert2 r k v).1)

def rbInsert (tree0 : Tree α β) (key : α) (val : β) : Tree α β := fixRoot (insert2 tree0 key val).1

/-- `insert2` with a failure where the key is found. -/
def insertNew2 : Tree α β → α → β → Option (Tree α β × Flag)
  | .nil, k, v => some (.red .nil k v .nil, .notDone)
  | .red l k0 v0 r, k, v =>
    if k < k0 then (insertNew2 l k v).map fun (nl, flag) => (.red nl k0 v0 r, flag)
    else if k = k0 then none
    else (insertNew2 r k v).map fun (nr, flag) => (.red l k0 v0 nr, flag)
  | .black l k0 v0 r, k, v =>
    if k < k0 then (insertNew2 l k v).map fun (il, flag0) => fixLeft flag0 (.black il k0 v0 r)
    else if k = k0 then none
    else (insertNew2 r k v).map fun (ir, flag0) => fixRight flag0 (.black l k0 v0 ir)

def rbInsertNew (tree0 : Tree α β) (key : α) (val : β) : Option (Tree α β) :=
  (insertNew2 tree0 key val).map fun (tree, _) => fixRoot tree

end Ordered

-- ---------------------------------------------------------------------------
-- Repairs
-- ---------------------------------------------------------------------------

/-- No repair changes an entry. -/
theorem toList_fixLeft (flag : Flag) (t : Tree α β) : (fixLeft flag t).1.toList = t.toList := by
  unfold fixLeft
  split
  · rfl
  · unfold fixLeft3
    split <;> simp

theorem toList_fixRight (flag : Flag) (t : Tree α β) : (fixRight flag t).1.toList = t.toList := by
  unfold fixRight
  split
  · rfl
  · unfold fixRight3
    split <;> simp

theorem toList_fixRoot (t : Tree α β) : (fixRoot t).toList = t.toList := by
  cases t <;> rfl

/-- A red root with one red child: all that an insertion can break. -/
inductive Broken : Tree α β → ℕ → Prop
  | left {l k v r n} : Balanced l .red n → Balanced r .black n → Broken (.red l k v r) n
  | right {l k v r n} : Balanced l .black n → Balanced r .red n → Broken (.red l k v r) n

/-- What an insertion into a tree of the color and the number of black nodes returns. -/
inductive Inserted : Color → ℕ → Tree α β × Flag → Prop
  | done {t c n} : Balanced t c n → Inserted c n (t, .done)
  | red {t n} : Balanced t .red n → Inserted .black n (t, .notDone)
  | broken {t n} : Broken t n → Inserted .red n (t, .notDone)

/-- A balanced left subtree needs no repair. -/
theorem fixLeft_balanced {c : Color} {n : ℕ} {l : Tree α β} (h : Balanced l c n) (flag : Flag) (k : α) (v : β)
    (r : Tree α β) : fixLeft flag (.black l k v r) = (.black l k v r, .done) := by
  cases flag with
  | done => rfl
  | notDone =>
    cases h with
    | nil | black => rfl
    | red hl hr => cases hl <;> cases hr <;> rfl

theorem fixRight_balanced {c : Color} {n : ℕ} {r : Tree α β} (h : Balanced r c n) (flag : Flag) (l : Tree α β)
    (k : α) (v : β) : fixRight flag (.black l k v r) = (.black l k v r, .done) := by
  cases flag with
  | done => rfl
  | notDone =>
    cases h with
    | nil | black => cases l <;> rfl
    | red hl hr => cases l <;> cases hl <;> cases hr <;> rfl

/-- The left side is repaired in every way in which an insertion there can have broken it. -/
theorem fixLeft_inserted {c c₂ : Color} {n : ℕ} {l : Tree α β × Flag} {k : α} {v : β} {r : Tree α β}
    (hl : Inserted c n l) (hr : Balanced r c₂ n) :
    Inserted .black (n + 1) (fixLeft l.2 (.black l.1 k v r)) := by
  cases hl with
  | done h =>
    rw [fixLeft_balanced h]
    exact .done (.black h hr)
  | red h =>
    rw [fixLeft_balanced h]
    exact .done (.black h hr)
  | broken h =>
    cases h with
    | left hll hlr =>
      have hga := hlr
      have hde := hr
      cases hll with
      | red hal hbe =>
        cases hr with
        | red hd he => cases hlr <;> exact .red (.red (.black (.red hal hbe) hga) (.black hd he))
        | nil | black =>
          cases hlr
          exact .done (.black (.red hal hbe) (.red hga hde))
    | right hll hlr =>
      have hal := hll
      have hde := hr
      cases hlr with
      | red hbe hga =>
        cases hr with
        | red hd he => cases hll <;> exact .red (.red (.black hal (.red hbe hga)) (.black hd he))
        | nil | black =>
          cases hll
          exact .done (.black (.red hal hbe) (.red hga hde))

theorem fixRight_inserted {c c₂ : Color} {n : ℕ} {l : Tree α β} {k : α} {v : β} {r : Tree α β × Flag}
    (hr : Inserted c n r) (hl : Balanced l c₂ n) :
    Inserted .black (n + 1) (fixRight r.2 (.black l k v r.1)) := by
  cases hr with
  | done h =>
    rw [fixRight_balanced h]
    exact .done (.black hl h)
  | red h =>
    rw [fixRight_balanced h]
    exact .done (.black hl h)
  | broken h =>
    cases h with
    | left hrl hrr =>
      have hal := hrr
      have hde := hl
      cases hrl with
      | red hga hbe =>
        cases hl with
        | red he hd => cases hrr <;> exact .red (.red (.black he hd) (.black (.red hga hbe) hal))
        | nil | black =>
          cases hrr
          exact .done (.black (.red hde hga) (.red hbe hal))
    | right hrl hrr =>
      have hga := hrl
      have hde := hl
      cases hrr with
      | red hbe hal =>
        cases hl with
        | red he hd => cases hrl <;> exact .red (.red (.black he hd) (.black hga (.red hbe hal)))
        | nil | black =>
          cases hrl
          exact .done (.black (.red hde hga) (.red hbe hal))

theorem fixRoot_balanced {n : ℕ} {p : Tree α β × Flag} (h : Inserted .black n p) :
    ∃ m, Balanced (fixRoot p.1) .black m := by
  cases h with
  | done h =>
    refine ⟨n, ?_⟩
    cases h with
    | nil => exact .nil
    | black hl hr => exact .black hl hr
  | red h =>
    cases h with
    | red hl hr => exact ⟨n + 1, .black hl hr⟩

-- ---------------------------------------------------------------------------
-- Insertion
-- ---------------------------------------------------------------------------

section Ordered

variable [LinearOrder α]

theorem insert2_inserted {t : Tree α β} {c : Color} {n : ℕ} (h : Balanced t c n) (k : α) (v : β) :
    Inserted c n (insert2 t k v) := by
  induction h with
  | nil => exact .red (.red .nil .nil)
  | red hl hr ihl ihr =>
    rw [insert2]
    split_ifs with hlt heq
    · cases hins : insert2 _ k v with
      | mk nl flag =>
        rw [hins] at ihl
        cases ihl with
        | done h => exact .done (.red h hr)
        | red h => exact .broken (.left h hr)
    · exact .done (.red hl hr)
    · cases hins : insert2 _ k v with
      | mk nr flag =>
        rw [hins] at ihr
        cases ihr with
        | done h => exact .done (.red hl h)
        | red h => exact .broken (.right hl h)
  | black hl hr ihl ihr =>
    rw [insert2]
    split_ifs with hlt heq
    · exact fixLeft_inserted ihl hr
    · exact .done (.black hl hr)
    · exact fixRight_inserted ihr hl

/-- Insertion puts the entry into the list of entries. -/
theorem toList_insert2 {t : Tree α β} (h : Assoc.Sorted t.toList) (k : α) (v : β) :
    (insert2 t k v).1.toList = Assoc.put k v t.toList := by
  induction t with
  | nil => rfl
  | red l k0 v0 r ihl ihr | black l k0 v0 r ihl ihr =>
    obtain ⟨hl, hr, -, -⟩ := Assoc.sorted_split.mp h
    rw [insert2]
    split_ifs with hlt heq
    · simp only [toList_fixLeft, toList_red, toList_black, ihl hl]
      exact (Assoc.put_left h v hlt).symm
    · subst heq
      exact (Assoc.put_here h v).symm
    · have hgt : k0 < k := lt_of_le_of_ne (not_lt.mp hlt) (Ne.symm heq)
      simp only [toList_fixRight, toList_red, toList_black, ihr hr]
      exact (Assoc.put_right h v hgt).symm

theorem toList_rbInsert {t : Tree α β} (h : Assoc.Sorted t.toList) (k : α) (v : β) :
    (rbInsert t k v).toList = Assoc.put k v t.toList :=
  (toList_fixRoot _).trans (toList_insert2 h k v)

theorem Valid.rbInsert {t : Tree α β} (h : Valid t) (k : α) (v : β) : Valid (rbInsert t k v) := by
  refine ⟨?_, ?_⟩
  · rw [toList_rbInsert h.sorted]
    exact Assoc.sorted_put h.sorted k v
  · obtain ⟨n, hb⟩ := h.balanced
    exact fixRoot_balanced (insert2_inserted hb k v)

theorem Valid.lookup_eq {t : Tree α β} (h : Valid t) (k : α) :
    rbLookup k t = Assoc.value k t.toList := lookup_eq_value h.sorted k

theorem rbLookup_rbInsert {t : Tree α β} (h : Valid t) (k : α) (v : β) (k' : α) :
    rbLookup k' (rbInsert t k v) = if k' = k then some v else rbLookup k' t := by
  rw [(h.rbInsert k v).lookup_eq, toList_rbInsert h.sorted, Assoc.value_put h.sorted, h.lookup_eq]

/-- `insert_new_2` follows the path of a lookup and does what `insert2` does. -/
theorem insertNew2_eq (t : Tree α β) (k : α) (v : β) :
    insertNew2 t k v = if lookup k t = none then some (insert2 t k v) else none := by
  induction t with
  | nil => rfl
  | red l k0 v0 r ihl ihr | black l k0 v0 r ihl ihr =>
    rw [insertNew2, insert2, lookup]
    rcases lt_trichotomy k k0 with hlt | rfl | hgt
    · simp only [hlt, if_true, ihl]
      split_ifs <;> rfl
    · simp
    · simp only [hgt, hgt.asymm, hgt.ne', if_true, if_false, ihr]
      split_ifs <;> rfl

theorem rbInsertNew_eq (t : Tree α β) (k : α) (v : β) :
    rbInsertNew t k v = if rbLookup k t = none then some (rbInsert t k v) else none := by
  rw [rbInsertNew, insertNew2_eq, rbLookup]
  split_ifs <;> rfl

/-- **Insertion.** On a valid tree `rb_insert/4` gives a valid tree whose map is the old one with
the key mapped to the value; `rb_insert_new/4` gives the same tree, and fails iff the key is there. -/
theorem rb_insert_correct {t : Tree α β} (h : Valid t) (k : α) (v : β) :
    Valid (rbInsert t k v) ∧ (∀ inf, isRbtree inf (rbInsert t k v) = true) ∧
      (∀ e, e ∈ (rbInsert t k v).toList ↔ e = (k, v) ∨ e ∈ t.toList ∧ e.1 ≠ k) ∧
      (∀ k' w, rbLookup k' (rbInsert t k v) = some w ↔ (k', w) ∈ (rbInsert t k v).toList) ∧
      (∀ k', rbLookup k' (rbInsert t k v) = if k' = k then some v else rbLookup k' t) ∧
      (rbInsertNew t k v = none ↔ ∃ w, (k, w) ∈ t.toList) ∧
      ∀ t', rbInsertNew t k v = some t' → t' = rbInsert t k v := by
  have hvalid := h.rbInsert k v
  refine ⟨hvalid, hvalid.isRbtree, fun e => ?_, fun k' w => ?_, rbLookup_rbInsert h k v, ?_, fun t' ht => ?_⟩
  · rw [toList_rbInsert h.sorted, Assoc.mem_put]
  · rw [hvalid.lookup_eq, Assoc.value_eq_some hvalid.sorted]
  · rw [rbInsertNew_eq, h.lookup_eq]
    cases hvalue : Assoc.value k t.toList with
    | none =>
      simp only [if_true, reduceCtorEq, false_iff, not_exists]
      exact fun w hw => Assoc.value_eq_none.mp hvalue _ hw rfl
    | some w =>
      simp only [reduceCtorEq, if_false, true_iff]
      exact ⟨w, Assoc.mem_of_value hvalue⟩
  · rw [rbInsertNew_eq] at ht
    split_ifs at ht
    exact (Option.some.inj ht).symm

/-- Insertion into the tree of the keys 1 and 3. -/
theorem rb_insert_correct_two :
    Valid (rbInsert (.black .nil (1 : ℕ) 'a' (.red .nil 3 'c' .nil)) 2 'b') :=
  (rb_insert_correct ⟨by decide, 1, .black .nil (.red .nil .nil)⟩ 2 'b').1

end Ordered

end Rbtrees

end Yap
