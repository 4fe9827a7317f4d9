-- SUMMARY: rb_delete/4, rb_del_min/4 and rb_del_max/4 of library(rbtrees): the repairs of a missing black level, balance, entries, and the map of the result.
import Yap.Library.Rbtrees.Tree

/-!
# Deletion from red-black trees

A deletion returns a tree and a flag: `not_done` says that one level of black
nodes is missing. The node above repairs it with the tables of `fixup2/3` (on
its left) and `fixup3/3` (on its right), which fail on any other tree.
-/

namespace Yap

namespace Rbtrees

variable {α β : Type*}

-- ---------------------------------------------------------------------------
-- Code
-- ---------------------------------------------------------------------------

/-- The pattern `black(_,_,_,_)`, which `Nil` matches too. -/
def Tree.isBlack : Tree α β → Bool
  | .red .. => false
  | _ => true

/-- `fixup2/3` on `red(X,KB,VB,S)`. -/
def fixup2Red (x : Tree α β) (kb : α) (vb : β) (s : Tree α β) : Option (Tree α β × Flag) :=
  if x.isBlack then
    match s with
    -- case 4
    | .black c kd vd (.red ep ke ve fi) => some (.red (.black x kb vb c) kd vd (.black ep ke ve fi), .done)
    -- case 3
    | .black (.red ga kc vc de) kd vd ep => some (.red (.black x kb vb ga) kc vc (.black de kd vd ep), .done)
    -- case 2
    | .black ga kd vd ep => some (.black x kb vb (.red ga kd vd ep), .done)
    | _ => none
  else none

/-- `fixup2/3` on `black(X,KB,VB,S)`. -/
def fixup2Black (x : Tree α β) (kb : α) (vb : β) (s : Tree α β) : Option (Tree α β × Flag) :=
  if x.isBlack then
    match s with
    -- case 1
    | .red ga kd vd ep =>
      if ga.isBlack && ep.isBlack then
        (fixup2Red x kb vb ga).map fun (t1, _) => (.black t1 kd vd ep, .done)
      else none
    -- case 4
    | .black c kd vd (.red ep ke ve fi) => some (.black (.black x kb vb c) kd vd (.black ep ke ve fi), .done)
    -- case 3
    | .black (.red ga kc vc de) kd vd ep => some (.black (.black x kb vb ga) kc vc (.black de kd vd ep), .done)
    -- case 2
    | .black ga kd vd ep => some (.black x kb vb (.red ga kd vd ep), .notDone)
    | .nil => none
  else none

def fixup2 : Tree α β → Option (Tree α β × Flag)
  | .red x kb vb s => fixup2Red x kb vb s
  | .black x kb vb s => fixup2Black x kb vb s
  | .nil => none

def fixupLeft (flag : Flag) (t : Tree α β) : Option (Tree α β × Flag) :=
  if flag = .done then some (t, .done) else fixup2 t

/-- `fixup3/3` on `red(S,KB,VB,X)`. -/
def fixup3Red (s : Tree α β) (kb : α) (vb : β) (x : Tree α β) : Option (Tree α β × Flag) :=
  if x.isBlack then
    match s with
    -- case 4
    | .black (.red fi ke ve ep) kd vd c => some (.red (.black fi ke ve ep) kd vd (.black c kb vb x), .done)
    -- case 3
    | .black ep kd vd (.red de kc vc ga) => some (.red (.black ep kd vd de) kc vc (.black ga kb vb x), .done)
    -- case 2
    | .black ep kd vd de => some (.black (.red ep kd vd de) kb vb x, .done)
    | _ => none
  else none

/-- `fixup3/3` on `black(S,KB,VB,X)`. -/
def fixup3Black (s : Tree α β) (kb : α) (vb : β) (x : Tree α β) : Option (Tree α β × Flag) :=
  if x.isBlack then
    match s with
    -- case 1
    | .red ep kd vd de =>
      if ep.isBlack && de.isBlack then
        (fixup3Red de kb vb x).map fun (t1, _) => (.black ep kd vd t1, .done)
      else none
    -- case 4
    | .black (.red fi ke ve ep) kd vd c => some (.black (.black fi ke ve ep) kd vd (.black c kb vb x), .done)
    -- case 3
    | .black ep kd vd (.red de kc vc ga) => some (.black (.black ep kd vd de) kc vc (.black ga kb vb x), .done)
    -- case 2
    | .black ep kd vd de => some (.black (.red ep kd vd de) kb vb x, .notDone)
    | .nil => none
  else none

def fixup3 : Tree α β → Option (Tree α β × Flag)
  | .red s kb vb x => fixup3Red s kb vb x
  | .black s kb vb x => fixup3Black s kb vb x
  | .nil => none

def fixupRight (flag : Flag) (t : Tree α β) : Option (Tree α β × Flag) :=
  if flag = .done then some (t, .done) else fixup3 t

/-- The least entry of a tree, and the tree without it. -/
def deleteNext : Tree α β → Option ((α × β) × Tree α β × Flag)
  | .red .nil k v r => some ((k, v), r, .done)
  | .black .nil k v (.red l1 k1 v1 r1) => some ((k, v), .black l1 k1 v1 r1, .done)
  | .black .nil k v r => some ((k, v), r, .notDone)
  | .red l k v r => do
    let (next, nl, done0) ← deleteNext l
    let out ← fixupLeft done0 (.red nl k v r)
    return (next, out)
  | .black l k v r => do
    let (next, nl, done0) ← deleteNext l
    let out ← fixupLeft done0 (.black nl k v r)
    return (next, out)
  | .nil => none

section Delete

variable [DecidableEq α] [DecidableEq β]

def deleteRedNode (l r : Tree α β) : Option (Tree α β × Flag) :=
  if l = r then some (l, .done)
  else if l = .nil then some (r, .done)
  else if r = .nil then some (l, .done)
  else do
    let ((nk, nv), nr, done0) ← deleteNext r
    fixupRight done0 (.red l nk nv nr)

/-- The black node takes the color of its only child. -/
def blackened : Tree α β → Tree α β × Flag
  | .red l k v r => (.black l k v r, .done)
  | t => (t, .notDone)

def deleteBlackNode (l r : Tree α β) : Option (Tree α β × Flag) :=
  if l = r then some (l, .notDone)
  else if l = .nil then some (blackened r)
  else if r = .nil then some (blackened l)
  else do
    let ((nk, nv), nr, done0) ← deleteNext r
    fixupRight done0 (.black l nk nv nr)

def delMin : Tree α β → Option ((α × β) × Tree α β × Flag)
  | .red .nil k v r => (deleteRedNode .nil r).map fun out => ((k, v), out)
  | .red l k0 v0 r => do
    let (least, nl, flag0) ← delMin l
    let out ← fixupLeft flag0 (.red nl k0 v0 r)
    return (least, out)
  | .black .nil k v r => (deleteBlackNode .nil r).map fun out => ((k, v), out)
  | .black l k0 v0 r => do
    let (least, nl, flag0) ← delMin l
    let out ← fixupLeft flag0 (.black nl k0 v0 r)
    return (least, out)
  | .nil => none

def rbDelMin (t : Tree α β) : Option ((α × β) × Tree α β) :=
  (delMin t).map fun (least, nt, _) => (least, nt)

def delMax : Tree α β → Option ((α × β) × Tree α β × Flag)
  | .red l k v .nil => (deleteRedNode l .nil).map fun out => ((k, v), out)
  | .red l k0 v0 r => do
    let (greatest, nr, flag0) ← delMax r
    let out ← fixupRight flag0 (.red l k0 v0 nr)
    return (greatest, out)
  | .black l k v .nil => (deleteBlackNode l .nil).map fun out => ((k, v), out)
  | .black l k0 v0 r => do
    let (greatest, nr, flag0) ← delMax r
    let out ← fixupRight flag0 (.black l k0 v0 nr)
    return (greatest, out)
  | .nil => none

def rbDelMax (t : Tree α β) : Option ((α × β) × Tree α β) :=
  (delMax t).map fun (greatest, nt, _) => (greatest, nt)

end Delete

section Ordered

variable [LinearOrder α] [DecidableEq β]

def delete (k : α) : Tree α β → Option (β × Tree α β × Flag)
  | .red l k0 v0 r =>
    if k < k0 then do
      let (v, nl, flag0) ← delete k l
      let out ← fixupLeft flag0 (.red nl k0 v0 r)
      return (v, out)
    else if k0 < k then do
      let (v, nr, flag0) ← delete k r
      let out ← fixupRight flag0 (.red l k0 v0 nr)
      return (v, out)
    else (deleteRedNode l r).map fun out => (v0, out)
  | .black l k0 v0 r =>
    if k < k0 then do
      let (v, nl, flag0) ← delete k l
      let out ← fixupLeft flag0 (.black nl k0 v0 r)
      return (v, out)
    else if k0 < k then do
      let (v, nr, flag0) ← delete k r
      let out ← fixupRight flag0 (.black l k0 v0 nr)
      return (v, out)
    else (deleteBlackNode l r).map fun out => (v0, out)
  | .nil => none

/-- The value of the key and the tree without it. -/
def rbDelete (t : Tree α β) (k : α) : Option (β × Tree α β) :=
  (delete k t).map fun (v0, nt, _) => (v0, nt)

end Ordered

-- ---------------------------------------------------------------------------
-- Repairs
-- ---------------------------------------------------------------------------

/-- What a deletion from a tree of the color and the number of black nodes returns. -/
inductive Shrunk : Color → ℕ → Tree α β × Flag → Prop
  | red {t c n} : Balanced t c n → Shrunk .red n (t, .done)
  | done {t n} : Balanced t .black n → Shrunk .black n (t, .done)
  | notDone {t n} : Balanced t .black n → Shrunk .black (n + 1) (t, .notDone)

theorem Balanced.isBlack {t : Tree α β} {n : ℕ} (h : Balanced t .black n) : t.isBlack = true := by
  cases h <;> rfl

/-- Below a red node the missing level is always repaired. -/
theorem fixup2Red_balanced {x s : Tree α β} {n : ℕ} (kb : α) (vb : β) (hx : Balanced x .black n)
    (hs : Balanced s .black (n + 1)) :
    ∃ t c, fixup2Red x kb vb s = some (t, .done) ∧ Balanced t c (n + 1) := by
  unfold fixup2Red
  rw [if_pos hx.isBlack]
  cases hs with
  | black hga hep =>
    have hga' := hga
    have hep' := hep
    cases hep with
    | red h1 h2 => exact ⟨_, _, rfl, .red (.black hx hga) (.black h1 h2)⟩
    | nil =>
      cases hga with
      | red h1 h2 => exact ⟨_, _, rfl, .red (.black hx h1) (.black h2 hep')⟩
      | nil => exact ⟨_, _, rfl, .black hx (.red hga' hep')⟩
    | black =>
      cases hga with
      | red h1 h2 => exact ⟨_, _, rfl, .red (.black hx h1) (.black h2 hep')⟩
      | black => exact ⟨_, _, rfl, .black hx (.red hga' hep')⟩

theorem fixup2Black_shrunk {x s : Tree α β} {c : Color} {n : ℕ} (kb : α) (vb : β) (hx : Balanced x .black n)
    (hs : Balanced s c (n + 1)) :
    ∃ out, fixup2Black x kb vb s = some out ∧ Shrunk .black (n + 2) out := by
  unfold fixup2Black
  rw [if_pos hx.isBlack]
  cases hs with
  | red hga hep =>
    obtain ⟨t, c, heq, ht⟩ := fixup2Red_balanced kb vb hx hga
    simp only [hga.isBlack, hep.isBlack, heq]
    exact ⟨_, rfl, .done (.black ht hep)⟩
  | black hga hep =>
    have hga' := hga
    have hep' := hep
    cases hep with
    | red h1 h2 => exact ⟨_, rfl, .done (.black (.black hx hga) (.black h1 h2))⟩
    | nil =>
      cases hga with
      | red h1 h2 => exact ⟨_, rfl, .done (.black (.black hx h1) (.black h2 hep'))⟩
      | nil => exact ⟨_, rfl, .notDone (.black hx (.red hga' hep'))⟩
    | black =>
      cases hga with
      | red h1 h2 => exact ⟨_, rfl, .done (.black (.black hx h1) (.black h2 hep'))⟩
      | black => exact ⟨_, rfl, .notDone (.black hx (.red hga' hep'))⟩

theorem fixup3Red_balanced {s x : Tree α β} {n : ℕ} (kb : α) (vb : β) (hx : Balanced x .black n)
    (hs : Balanced s .black (n + 1)) :
    ∃ t c, fixup3Red s kb vb x = some (t, .done) ∧ Balanced t c (n + 1) := by
  unfold fixup3Red
  rw [if_pos hx.isBlack]
  cases hs with
  | black hep hga =>
    have hep' := hep
    have hga' := hga
    cases hep with
    | red h1 h2 => exact ⟨_, _, rfl, .red (.black h1 h2) (.black hga hx)⟩
    | nil =>
      cases hga with
      | red h1 h2 => exact ⟨_, _, rfl, .red (.black hep' h1) (.black h2 hx)⟩
      | nil => exact ⟨_, _, rfl, .black (.red hep' hga') hx⟩
    | black =>
      cases hga with
      | red h1 h2 => exact ⟨_, _, rfl, .red (.black hep' h1) (.black h2 hx)⟩
      | black => exact ⟨_, _, rfl, .black (.red hep' hga') hx⟩

theorem fixup3Black_shrunk {s x : Tree α β} {c : Color} {n : ℕ} (kb : α) (vb : β) (hx : Balanced x .black n)
    (hs : Balanced s c (n + 1)) :
    ∃ out, fixup3Black s kb vb x = some out ∧ Shrunk .black (n + 2) out := by
  unfold fixup3Black
  rw [if_pos hx.isBlack]
  cases hs with
  | red hep hde =>
    obtain ⟨t, c, heq, ht⟩ := fixup3Red_balanced kb vb hx hde
    simp only [hep.isBlack, hde.isBlack, heq]
    exact ⟨_, rfl, .done (.black hep ht)⟩
  | black hep hga =>
    have hep' := hep
    have hga' := hga
    cases hep with
    | red h1 h2 => exact ⟨_, rfl, .done (.black (.black h1 h2) (.black hga hx))⟩
    | nil =>
      cases hga with
      | red h1 h2 => exact ⟨_, rfl, .done (.black (.black hep' h1) (.black h2 hx))⟩
      | nil => exact ⟨_, rfl, .notDone (.black (.red hep' hga') hx)⟩
    | black =>
      cases hga with
      | red h1 h2 => exact ⟨_, rfl, .done (.black (.black hep' h1) (.black h2 hx))⟩
      | black => exact ⟨_, rfl, .notDone (.black (.red hep' hga') hx)⟩

/-- A deletion on the left of a red node is repaired. -/
theorem fixupLeft_red {l : Tree α β × Flag} {k : α} {v : β} {r : Tree α β} {n : ℕ}
    (hl : Shrunk .black n l) (hr : Balanced r .black n) :
    ∃ out, fixupLeft l.2 (.red l.1 k v r) = some out ∧ Shrunk .red n out := by
  cases hl with
  | done h => exact ⟨_, rfl, .red (.red h hr)⟩
  | notDone h =>
    obtain ⟨t, c, heq, ht⟩ := fixup2Red_balanced k v h hr
    exact ⟨_, heq, .red ht⟩

/-- Below a black node it is repaired, or one level is missing from the whole. -/
theorem fixupLeft_black {l : Tree α β × Flag} {k : α} {v : β} {r : Tree α β} {c₁ c₂ : Color} {n : ℕ}
    (hl : Shrunk c₁ n l) (hr : Balanced r c₂ n) :
    ∃ out, fixupLeft l.2 (.black l.1 k v r) = some out ∧ Shrunk .black (n + 1) out := by
  cases hl with
  | red h => exact ⟨_, rfl, .done (.black h hr)⟩
  | done h => exact ⟨_, rfl, .done (.black h hr)⟩
  | notDone h => exact fixup2Black_shrunk k v h hr

theorem fixupRight_red {l : Tree α β} {k : α} {v : β} {r : Tree α β × Flag} {n : ℕ}
    (hl : Balanced l .black n) (hr : Shrunk .black n r) :
    ∃ out, fixupRight r.2 (.red l k v r.1) = some out ∧ Shrunk .red n out := by
  cases hr with
  | done h => exact ⟨_, rfl, .red (.red hl h)⟩
  | notDone h =>
    obtain ⟨t, c, heq, ht⟩ := fixup3Red_balanced k v h hl
    exact ⟨_, heq, .red ht⟩

theorem fixupRight_black {l : Tree α β} {k : α} {v : β} {r : Tree α β × Flag} {c₁ c₂ : Color} {n : ℕ}
    (hl : Balanced l c₁ n) (hr : Shrunk c₂ n r) :
    ∃ out, fixupRight r.2 (.black l k v r.1) = some out ∧ Shrunk .black (n + 1) out := by
  cases hr with
  | red h => exact ⟨_, rfl, .done (.black hl h)⟩
  | done h => exact ⟨_, rfl, .done (.black hl h)⟩
  | notDone h => exact fixup3Black_shrunk k v h hl

-- ---------------------------------------------------------------------------
-- Entries
-- ---------------------------------------------------------------------------

theorem toList_fixup2Red {x s : Tree α β} {k : α} {v : β} {out : Tree α β × Flag}
    (h : fixup2Red x k v s = some out) : out.1.toList = x.toList ++ (k, v) :: s.toList := by
  unfold fixup2Red at h
  split at h
  · split at h
    all_goals cases h
    all_goals simp
  · cases h

theorem toList_fixup3Red {s x : Tree α β} {k : α} {v : β} {out : Tree α β × Flag}
    (h : fixup3Red s k v x = some out) : out.1.toList = s.toList ++ (k, v) :: x.toList := by
  unfold fixup3Red at h
  split at h
  · split at h
    all_goals cases h
    all_goals simp
  · cases h

theorem toList_fixup2Black {x s : Tree α β} {k : α} {v : β} {out : Tree α β × Flag}
    (h : fixup2Black x k v s = some out) : out.1.toList = x.toList ++ (k, v) :: s.toList := by
  unfold fixup2Black at h
  split at h
  · split at h
    case h_1 ga kd vd ep =>
      split at h
      · obtain ⟨t1, ht1, rfl⟩ := Option.map_eq_some_iff.mp h
        simp [toList_fixup2Red ht1]
      · cases h
    all_goals cases h
    all_goals simp
  · cases h

theorem toList_fixup3Black {s x : Tree α β} {k : α} {v : β} {out : Tree α β × Flag}
    (h : fixup3Black s k v x = some out) : out.1.toList = s.toList ++ (k, v) :: x.toList := by
  unfold fixup3Black at h
  split at h
  · split at h
    case h_1 ep kd vd de =>
      split at h
      · obtain ⟨t1, ht1, rfl⟩ := Option.map_eq_some_iff.mp h
        simp [toList_fixup3Red ht1]
      · cases h
    all_goals cases h
    all_goals simp
  · cases h

/-- No repair changes an entry. -/
theorem toList_fixupLeft {flag : Flag} {t : Tree α β} {out : Tree α β × Flag}
    (h : fixupLeft flag t = some out) : out.1.toList = t.toList := by
  unfold fixupLeft at h
  split at h
  · cases h
    rfl
  · cases t with
    | nil => cases h
    | red => exact toList_fixup2Red h
    | black => exact toList_fixup2Black h

theorem toList_fixupRight {flag : Flag} {t : Tree α β} {out : Tree α β × Flag}
    (h : fixupRight flag t = some out) : out.1.toList = t.toList := by
  unfold fixupRight at h
  split at h
  · cases h
    rfl
  · cases t with
    | nil => cases h
    | red => exact toList_fixup3Red h
    | black => exact toList_fixup3Black h

theorem Shrunk.valid [LinearOrder α] {out : Tree α β × Flag} {n : ℕ} (h : Shrunk .black n out)
    (hs : Assoc.Sorted out.1.toList) : Valid out.1 := by
  cases h with
  | done h => exact ⟨hs, _, h⟩
  | notDone h => exact ⟨hs, _, h⟩

-- ---------------------------------------------------------------------------
-- The least entry
-- ---------------------------------------------------------------------------

theorem deleteNext_red {l : Tree α β} (hl : l ≠ .nil) (k : α) (v : β) (r : Tree α β) :
    deleteNext (.red l k v r) = (do
      let (next, nl, done0) ← deleteNext l
      let out ← fixupLeft done0 (.red nl k v r)
      return (next, out)) := by
  cases l with
  | nil => exact absurd rfl hl
  | red | black => rfl

theorem deleteNext_black {l : Tree α β} (hl : l ≠ .nil) (k : α) (v : β) (r : Tree α β) :
    deleteNext (.black l k v r) = (do
      let (next, nl, done0) ← deleteNext l
      let out ← fixupLeft done0 (.black nl k v r)
      return (next, out)) := by
  cases l with
  | nil => exact absurd rfl hl
  | red | black => rfl

/-- `delete_next/5` takes the first entry out of every tree that is not empty. -/
theorem deleteNext_shrunk {t : Tree α β} {c : Color} {n : ℕ} (h : Balanced t c n) (ht : t ≠ .nil) :
    ∃ e out, deleteNext t = some (e, out) ∧ Shrunk c n out ∧ t.toList = e :: out.1.toList := by
  induction h with
  | nil => exact absurd rfl ht
  | @red l k v r n hl hr ihl _ =>
    by_cases hnil : l = .nil
    · subst hnil
      exact ⟨(k, v), (r, .done), rfl, .red hr, rfl⟩
    · obtain ⟨e, out, heq, hshrunk, hlist⟩ := ihl hnil
      obtain ⟨out', hfix, hshrunk'⟩ := fixupLeft_red (k := k) (v := v) hshrunk hr
      refine ⟨e, out', by simp [deleteNext_red hnil, heq, hfix], hshrunk', ?_⟩
      simp [toList_fixupLeft hfix, hlist]
  | @black l k v r n c₁ c₂ hl hr ihl _ =>
    by_cases hnil : l = .nil
    · subst hnil
      cases hl
      cases hr with
      | nil => exact ⟨(k, v), (.nil, .notDone), rfl, .notDone .nil, rfl⟩
      | @red l1 k1 v1 r1 _ h1 h2 => exact ⟨(k, v), (.black l1 k1 v1 r1, .done), rfl, .done (.black h1 h2), rfl⟩
    · obtain ⟨e, out, heq, hshrunk, hlist⟩ := ihl hnil
      obtain ⟨out', hfix, hshrunk'⟩ := fixupLeft_black (k := k) (v := v) hshrunk hr
      refine ⟨e, out', by simp [deleteNext_black hnil, heq, hfix], hshrunk', ?_⟩
      simp [toList_fixupLeft hfix, hlist]

-- ---------------------------------------------------------------------------
-- Deleting a node
-- ---------------------------------------------------------------------------

/-- The only child of a black node is red or empty. -/
theorem blackened_shrunk {t : Tree α β} {c : Color} (h : Balanced t c 0) :
    Shrunk .black 1 (blackened t) ∧ (blackened t).1.toList = t.toList := by
  cases h with
  | nil => exact ⟨.notDone .nil, rfl⟩
  | red hl hr => exact ⟨.done (.black hl hr), rfl⟩

section Ordered

variable [LinearOrder α]

/-- The two subtrees of an ordered tree are the same only when both are empty. -/
theorem eq_nil_of_same {t : Tree α β} {e : α × β} (h : Assoc.Sorted (t.toList ++ e :: t.toList)) :
    t = .nil := by
  obtain ⟨-, -, hle, hge⟩ := Assoc.sorted_split.mp h
  have hempty : ∀ a, a ∉ t.toList := fun a ha => (hle a ha).asymm (hge a ha)
  cases t with
  | nil => rfl
  | red l k v r | black l k v r => exact absurd (by simp) (hempty (k, v))

variable [DecidableEq β]

theorem deleteRedNode_shrunk {l r : Tree α β} {e : α × β} {n : ℕ}
    (hs : Assoc.Sorted (l.toList ++ e :: r.toList)) (hl : Balanced l .black n) (hr : Balanced r .black n) :
    ∃ out, deleteRedNode l r = some out ∧ Shrunk .red n out ∧ out.1.toList = l.toList ++ r.toList := by
  unfold deleteRedNode
  split_ifs with hsame hlnil hrnil
  · subst hsame
    exact ⟨_, rfl, .red hl, by simp [eq_nil_of_same hs]⟩
  · exact ⟨_, rfl, .red hr, by simp [hlnil]⟩
  · exact ⟨_, rfl, .red hl, by simp [hrnil]⟩
  · obtain ⟨next, out, heq, hshrunk, hlist⟩ := deleteNext_shrunk hr hrnil
    obtain ⟨out', hfix, hshrunk'⟩ := fixupRight_red (k := next.1) (v := next.2) hl hshrunk
    refine ⟨out', by simp [heq, hfix], hshrunk', ?_⟩
    simp [toList_fixupRight hfix, hlist]

theorem deleteBlackNode_shrunk {l r : Tree α β} {e : α × β} {c₁ c₂ : Color} {n : ℕ}
    (hs : Assoc.Sorted (l.toList ++ e :: r.toList)) (hl : Balanced l c₁ n) (hr : Balanced r c₂ n) :
    ∃ out, deleteBlackNode l r = some out ∧ Shrunk .black (n + 1) out ∧
      out.1.toList = l.toList ++ r.toList := by
  unfold deleteBlackNode
  split_ifs with hsame hlnil hrnil
  · subst hsame
    obtain rfl := eq_nil_of_same hs
    cases hl
    exact ⟨_, rfl, .notDone .nil, rfl⟩
  · subst hlnil
    cases hl
    exact ⟨_, rfl, blackened_shrunk hr⟩
  · subst hrnil
    cases hr
    obtain ⟨hshrunk, hlist⟩ := blackened_shrunk hl
    exact ⟨_, rfl, hshrunk, by simp [hlist]⟩
  · obtain ⟨next, out, heq, hshrunk, hlist⟩ := deleteNext_shrunk hr hrnil
    obtain ⟨out', hfix, hshrunk'⟩ := fixupRight_black (k := next.1) (v := next.2) hl hshrunk
    refine ⟨out', by simp [heq, hfix], hshrunk', ?_⟩
    simp [toList_fixupRight hfix, hlist]

-- ---------------------------------------------------------------------------
-- Deleting a key
-- ---------------------------------------------------------------------------

theorem delete_shrunk {t : Tree α β} {c : Color} {n : ℕ} {k : α} {v : β} (h : Balanced t c n)
    (hs : Assoc.Sorted t.toList) (hv : Assoc.value k t.toList = some v) :
    ∃ out, delete k t = some (v, out) ∧ Shrunk c n out ∧ out.1.toList = Assoc.del k t.toList := by
  induction h with
  | nil => cases hv
  | @red l k0 v0 r n hl hr ihl ihr =>
    obtain ⟨hsl, hsr, -, -⟩ := Assoc.sorted_split.mp hs
    rw [delete]
    rcases lt_trichotomy k k0 with hlt | rfl | hgt
    · obtain ⟨out, heq, hshrunk, hlist⟩ := ihl hsl ((Assoc.value_left hs hlt).symm.trans hv)
      obtain ⟨out', hfix, hshrunk'⟩ := fixupLeft_red (k := k0) (v := v0) hshrunk hr
      refine ⟨out', by simp [hlt, heq, hfix], hshrunk', ?_⟩
      rw [toList_fixupLeft hfix, toList_red, hlist]
      exact (Assoc.del_left hs hlt).symm
    · obtain ⟨out, heq, hshrunk, hlist⟩ := deleteRedNode_shrunk hs hl hr
      have hv0 : v0 = v := Option.some.inj ((Assoc.value_here hs).symm.trans hv)
      exact ⟨out, by simp [heq, hv0], hshrunk, hlist.trans (Assoc.del_here hs).symm⟩
    · obtain ⟨out, heq, hshrunk, hlist⟩ := ihr hsr ((Assoc.value_right hs hgt).symm.trans hv)
      obtain ⟨out', hfix, hshrunk'⟩ := fixupRight_red (k := k0) (v := v0) hl hshrunk
      refine ⟨out', by simp [hgt, hgt.asymm, heq, hfix], hshrunk', ?_⟩
      rw [toList_fixupRight hfix, toList_red, hlist]
      exact (Assoc.del_right hs hgt).symm
  | @black l k0 v0 r n c₁ c₂ hl hr ihl ihr =>
    obtain ⟨hsl, hsr, -, -⟩ := Assoc.sorted_split.mp hs
    rw [delete]
    rcases lt_trichotomy k k0 with hlt | rfl | hgt
    · obtain ⟨out, heq, hshrunk, hlist⟩ := ihl hsl ((Assoc.value_left hs hlt).symm.trans hv)
      obtain ⟨out', hfix, hshrunk'⟩ := fixupLeft_black (k := k0) (v := v0) hshrunk hr
      refine ⟨out', by simp [hlt, heq, hfix], hshrunk', ?_⟩
      rw [toList_fixupLeft hfix, toList_black, hlist]
      exact (Assoc.del_left hs hlt).symm
    · obtain ⟨out, heq, hshrunk, hlist⟩ := deleteBlackNode_shrunk hs hl hr
      have hv0 : v0 = v := Option.some.inj ((Assoc.value_here hs).symm.trans hv)
      exact ⟨out, by simp [heq, hv0], hshrunk, hlist.trans (Assoc.del_here hs).symm⟩
    · obtain ⟨out, heq, hshrunk, hlist⟩ := ihr hsr ((Assoc.value_right hs hgt).symm.trans hv)
      obtain ⟨out', hfix, hshrunk'⟩ := fixupRight_black (k := k0) (v := v0) hl hshrunk
      refine ⟨out', by simp [hgt, hgt.asymm, heq, hfix], hshrunk', ?_⟩
      rw [toList_fixupRight hfix, toList_black, hlist]
      exact (Assoc.del_right hs hgt).symm

/-- Without the key the search ends in an empty subtree and fails. -/
theorem delete_none {t : Tree α β} {k : α} (hs : Assoc.Sorted t.toList)
    (hv : Assoc.value k t.toList = none) : delete k t = none := by
  induction t with
  | nil => rfl
  | red l k0 v0 r ihl ihr | black l k0 v0 r ihl ihr =>
    obtain ⟨hsl, hsr, -, -⟩ := Assoc.sorted_split.mp hs
    rw [delete]
    rcases lt_trichotomy k k0 with hlt | rfl | hgt
    · simp [hlt, ihl hsl ((Assoc.value_left hs hlt).symm.trans hv)]
    · exact absurd ((Assoc.value_here hs).symm.trans hv) (by simp)
    · simp [hgt, hgt.asymm, ihr hsr ((Assoc.value_right hs hgt).symm.trans hv)]

theorem rbDelete_some {t : Tree α β} (h : Valid t) {k : α} {v : β}
    (hv : Assoc.value k t.toList = some v) :
    ∃ t', rbDelete t k = some (v, t') ∧ Valid t' ∧ t'.toList = Assoc.del k t.toList := by
  obtain ⟨n, hb⟩ := h.balanced
  obtain ⟨out, heq, hshrunk, hlist⟩ := delete_shrunk hb h.sorted hv
  refine ⟨out.1, by simp [rbDelete, heq], hshrunk.valid ?_, hlist⟩
  rw [hlist]
  exact Assoc.sorted_del h.sorted k

theorem rbDelete_none {t : Tree α β} (h : Valid t) {k : α} (hv : Assoc.value k t.toList = none) :
    rbDelete t k = none := by
  rw [rbDelete, delete_none h.sorted hv]
  rfl

-- ---------------------------------------------------------------------------
-- Deleting the least and the greatest key
-- ---------------------------------------------------------------------------

theorem delMin_red {l : Tree α β} (hl : l ≠ .nil) (k : α) (v : β) (r : Tree α β) :
    delMin (.red l k v r) = (do
      let (least, nl, flag0) ← delMin l
      let out ← fixupLeft flag0 (.red nl k v r)
      return (least, out)) := by
  cases l with
  | nil => exact absurd rfl hl
  | red | black => rfl

theorem delMin_black {l : Tree α β} (hl : l ≠ .nil) (k : α) (v : β) (r : Tree α β) :
    delMin (.black l k v r) = (do
      let (least, nl, flag0) ← delMin l
      let out ← fixupLeft flag0 (.black nl k v r)
      return (least, out)) := by
  cases l with
  | nil => exact absurd rfl hl
  | red | black => rfl

theorem delMax_red {r : Tree α β} (hr : r ≠ .nil) (l : Tree α β) (k : α) (v : β) :
    delMax (.red l k v r) = (do
      let (greatest, nr, flag0) ← delMax r
      let out ← fixupRight flag0 (.red l k v nr)
      return (greatest, out)) := by
  cases r with
  | nil => exact absurd rfl hr
  | red | black => rfl

theorem delMax_black {r : Tree α β} (hr : r ≠ .nil) (l : Tree α β) (k : α) (v : β) :
    delMax (.black l k v r) = (do
      let (greatest, nr, flag0) ← delMax r
      let out ← fixupRight flag0 (.black l k v nr)
      return (greatest, out)) := by
  cases r with
  | nil => exact absurd rfl hr
  | red | black => rfl

theorem delMin_shrunk {t : Tree α β} {c : Color} {n : ℕ} (h : Balanced t c n) (hs : Assoc.Sorted t.toList)
    (ht : t ≠ .nil) :
    ∃ e out, delMin t = some (e, out) ∧ Shrunk c n out ∧ t.toList = e :: out.1.toList := by
  induction h with
  | nil => exact absurd rfl ht
  | @red l k v r n hl hr ihl _ =>
    by_cases hnil : l = .nil
    · subst hnil
      obtain ⟨out, heq, hshrunk, hlist⟩ := deleteRedNode_shrunk hs hl hr
      exact ⟨(k, v), out, by simp [delMin, heq], hshrunk, by simp [hlist]⟩
    · obtain ⟨e, out, heq, hshrunk, hlist⟩ := ihl (Assoc.sorted_split.mp hs).1 hnil
      obtain ⟨out', hfix, hshrunk'⟩ := fixupLeft_red (k := k) (v := v) hshrunk hr
      refine ⟨e, out', by simp [delMin_red hnil, heq, hfix], hshrunk', ?_⟩
      simp [toList_fixupLeft hfix, hlist]
  | @black l k v r n c₁ c₂ hl hr ihl _ =>
    by_cases hnil : l = .nil
    · subst hnil
      obtain ⟨out, heq, hshrunk, hlist⟩ := deleteBlackNode_shrunk hs hl hr
      exact ⟨(k, v), out, by simp [delMin, heq], hshrunk, by simp [hlist]⟩
    · obtain ⟨e, out, heq, hshrunk, hlist⟩ := ihl (Assoc.sorted_split.mp hs).1 hnil
      obtain ⟨out', hfix, hshrunk'⟩ := fixupLeft_black (k := k) (v := v) hshrunk hr
      refine ⟨e, out', by simp [delMin_black hnil, heq, hfix], hshrunk', ?_⟩
      simp [toList_fixupLeft hfix, hlist]

theorem delMax_shrunk {t : Tree α β} {c : Color} {n : ℕ} (h : Balanced t c n) (hs : Assoc.Sorted t.toList)
    (ht : t ≠ .nil) :
    ∃ e out, delMax t = some (e, out) ∧ Shrunk c n out ∧ t.toList = out.1.toList ++ [e] := by
  induction h with
  | nil => exact absurd rfl ht
  | @red l k v r n hl hr _ ihr =>
    by_cases hnil : r = .nil
    · subst hnil
      obtain ⟨out, heq, hshrunk, hlist⟩ := deleteRedNode_shrunk hs hl hr
      exact ⟨(k, v), out, by simp [delMax, heq], hshrunk, by simp [hlist]⟩
    · obtain ⟨e, out, heq, hshrunk, hlist⟩ := ihr (Assoc.sorted_split.mp hs).2.1 hnil
      obtain ⟨out', hfix, hshrunk'⟩ := fixupRight_red (k := k) (v := v) hl hshrunk
      refine ⟨e, out', by simp [delMax_red hnil, heq, hfix], hshrunk', ?_⟩
      simp [toList_fixupRight hfix, hlist]
  | @black l k v r n c₁ c₂ hl hr _ ihr =>
    by_cases hnil : r = .nil
    · subst hnil
      obtain ⟨out, heq, hshrunk, hlist⟩ := deleteBlackNode_shrunk hs hl hr
      exact ⟨(k, v), out, by simp [delMax, heq], hshrunk, by simp [hlist]⟩
    · obtain ⟨e, out, heq, hshrunk, hlist⟩ := ihr (Assoc.sorted_split.mp hs).2.1 hnil
      obtain ⟨out', hfix, hshrunk'⟩ := fixupRight_black (k := k) (v := v) hl hshrunk
      refine ⟨e, out', by simp [delMax_black hnil, heq, hfix], hshrunk', ?_⟩
      simp [toList_fixupRight hfix, hlist]

theorem rbDelMin_some {t : Tree α β} (h : Valid t) (ht : t ≠ .nil) :
    ∃ e t', rbDelMin t = some (e, t') ∧ Valid t' ∧ (∀ a ∈ t'.toList, e.1 < a.1) ∧
      t.toList = e :: t'.toList := by
  obtain ⟨n, hb⟩ := h.balanced
  obtain ⟨e, out, heq, hshrunk, hlist⟩ := delMin_shrunk hb h.sorted ht
  have hs := h.sorted
  rw [hlist] at hs
  obtain ⟨hlt, hout⟩ := List.pairwise_cons.mp hs
  exact ⟨e, out.1, by simp [rbDelMin, heq], hshrunk.valid hout, hlt, hlist⟩

theorem rbDelMax_some {t : Tree α β} (h : Valid t) (ht : t ≠ .nil) :
    ∃ e t', rbDelMax t = some (e, t') ∧ Valid t' ∧ (∀ a ∈ t'.toList, a.1 < e.1) ∧
      t.toList = t'.toList ++ [e] := by
  obtain ⟨n, hb⟩ := h.balanced
  obtain ⟨e, out, heq, hshrunk, hlist⟩ := delMax_shrunk hb h.sorted ht
  have hs := h.sorted
  rw [hlist] at hs
  obtain ⟨hout, -, hlt, -⟩ := Assoc.sorted_split.mp hs
  exact ⟨e, out.1, by simp [rbDelMax, heq], hshrunk.valid hout, hlt, hlist⟩

/-- **Deletion.** On a valid tree `rb_delete/4` gives the value of the key and a valid tree without
it, and fails iff the key is absent; `rb_del_min/4` and `rb_del_max/4` take the least and the
greatest entry out of every valid tree that is not empty. -/
theorem rb_delete_correct {t : Tree α β} (h : Valid t) :
    (∀ k, rbDelete t k = none ↔ ∀ v, (k, v) ∉ t.toList) ∧
      (∀ k v t', rbDelete t k = some (v, t') → (k, v) ∈ t.toList ∧ Valid t' ∧
        (∀ e, e ∈ t'.toList ↔ e ∈ t.toList ∧ e.1 ≠ k) ∧
        ∀ k', rbLookup k' t' = if k' = k then none else rbLookup k' t) ∧
      (t ≠ .nil → ∃ e t', rbDelMin t = some (e, t') ∧ Valid t' ∧ (∀ a ∈ t'.toList, e.1 < a.1) ∧
        t.toList = e :: t'.toList) ∧
      (t ≠ .nil → ∃ e t', rbDelMax t = some (e, t') ∧ Valid t' ∧ (∀ a ∈ t'.toList, a.1 < e.1) ∧
        t.toList = t'.toList ++ [e]) := by
  refine ⟨fun k => ?_, fun k v t' heq => ?_, rbDelMin_some h, rbDelMax_some h⟩
  · cases hv : Assoc.value k t.toList with
    | none =>
      refine ⟨fun _ v hmem => ?_, fun _ => rbDelete_none h hv⟩
      exact Assoc.value_eq_none.mp hv _ hmem rfl
    | some v =>
      obtain ⟨t', heq, -⟩ := rbDelete_some h hv
      simp only [heq, reduceCtorEq, false_iff, not_forall, not_not]
      exact ⟨v, Assoc.mem_of_value hv⟩
  · cases hv : Assoc.value k t.toList with
    | none => simp [rbDelete_none h hv] at heq
    | some w =>
      obtain ⟨t₁, heq₁, hvalid, hlist⟩ := rbDelete_some h hv
      rw [heq₁] at heq
      cases heq
      refine ⟨Assoc.mem_of_value hv, hvalid, fun e => ?_, fun k' => ?_⟩
      · rw [hlist, Assoc.mem_del]
      · rw [rbLookup, rbLookup, lookup_eq_value hvalid.sorted, hlist, Assoc.value_del h.sorted,
          lookup_eq_value h.sorted]

/-- Deletion of an inner node of a tree of three keys. -/
theorem rb_delete_correct_three :
    ∃ e t', rbDelMin (.black (.red .nil (1 : ℕ) 'a' .nil) 2 'b' (.red .nil 3 'c' .nil)) = some (e, t') ∧
      Valid t' := by
  obtain ⟨e, t', heq, hvalid, -⟩ := (rb_delete_correct (t := .black (.red .nil (1 : ℕ) 'a' .nil) 2 'b'
    (.red .nil 3 'c' .nil)) ⟨by decide, 1, .black (.red .nil .nil) (.red .nil .nil)⟩).2.2.1 (by decide)
  exact ⟨e, t', heq, hvalid⟩

end Ordered

end Rbtrees

end Yap
