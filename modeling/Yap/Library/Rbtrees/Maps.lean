-- SUMMARY: rb_apply/4, rb_map/3, rb_visit/2, rb_keys/2 and ord_list_to_rbtree/2 of library(rbtrees): entries and validity of the results.
import Yap.Library.Rbtrees.Tree

/-!
# Updates of values, visits, and trees of ordered lists

A goal that is called on a value is a function that may fail. The operations
keep the shape of the tree; `ord_list_to_rbtree/2` colors the deepest level red.
-/

namespace Yap

namespace Rbtrees

variable {α β γ : Type*}

-- ---------------------------------------------------------------------------
-- Visits
-- ---------------------------------------------------------------------------

def visit : Tree α β → List (α × β) → List (α × β)
  | .nil, l => l
  | .red l k v r, l0 => visit l ((k, v) :: visit r l0)
  | .black l k v r, l0 => visit l ((k, v) :: visit r l0)

def rbVisit (t : Tree α β) : List (α × β) := visit t []

def keys : Tree α β → List α → List α
  | .nil, l => l
  | .red l k _ r, l0 => keys l (k :: keys r l0)
  | .black l k _ r, l0 => keys l (k :: keys r l0)

def rbKeys (t : Tree α β) : List α := keys t []

theorem visit_eq (t : Tree α β) (l : List (α × β)) : visit t l = t.toList ++ l := by
  induction t generalizing l with
  | nil => rfl
  | red l k v r ihl ihr | black l k v r ihl ihr => simp [visit, ihl, ihr]

@[simp] theorem rbVisit_eq (t : Tree α β) : rbVisit t = t.toList := by
  rw [rbVisit, visit_eq, List.append_nil]

theorem keys_eq (t : Tree α β) (l : List α) : keys t l = t.toList.map Prod.fst ++ l := by
  induction t generalizing l with
  | nil => rfl
  | red l k v r ihl ihr | black l k v r ihl ihr => simp [keys, ihl, ihr]

@[simp] theorem rbKeys_eq (t : Tree α β) : rbKeys t = t.toList.map Prod.fst := by
  rw [rbKeys, keys_eq, List.append_nil]

-- ---------------------------------------------------------------------------
-- Maps over the values
-- ---------------------------------------------------------------------------

def Tree.mapValues (f : β → γ) : Tree α β → Tree α γ
  | .nil => .nil
  | .red l k v r => .red (l.mapValues f) k (f v) (r.mapValues f)
  | .black l k v r => .black (l.mapValues f) k (f v) (r.mapValues f)

theorem toList_mapValues (f : β → γ) (t : Tree α β) :
    (t.mapValues f).toList = t.toList.map fun e => (e.1, f e.2) := by
  induction t with
  | nil => rfl
  | red l k v r ihl ihr | black l k v r ihl ihr => simp [Tree.mapValues, ihl, ihr]

theorem mapValues_mapValues {δ : Type*} (f : β → γ) (f' : γ → δ) (t : Tree α β) :
    (t.mapValues f).mapValues f' = t.mapValues (f' ∘ f) := by
  induction t with
  | nil => rfl
  | red l k v r ihl ihr | black l k v r ihl ihr => simp [Tree.mapValues, ihl, ihr]

theorem value_mapValues [LinearOrder α] (f : β → γ) (t : Tree α β) (key : α) :
    Assoc.value key (t.mapValues f).toList = (Assoc.value key t.toList).map f := by
  rw [toList_mapValues, Assoc.value, List.find?_map, Option.map_map, Assoc.value, Option.map_map]
  rfl

theorem Balanced.mapValues {t : Tree α β} {c : Color} {n : ℕ} (h : Balanced t c n) (f : β → γ) :
    Balanced (t.mapValues f) c n := by
  induction h with
  | nil => exact .nil
  | red _ _ ihl ihr => exact .red ihl ihr
  | black _ _ ihl ihr => exact .black ihl ihr

theorem Valid.mapValues [LinearOrder α] {t : Tree α β} (h : Valid t) (f : β → γ) : Valid (t.mapValues f) := by
  obtain ⟨n, hb⟩ := h.balanced
  refine ⟨?_, n, hb.mapValues f⟩
  rw [toList_mapValues]
  exact List.pairwise_map.mpr h.sorted

def map (goal : β → Option γ) : Tree α β → Option (Tree α γ)
  | .nil => some .nil
  | .red l k v r =>
    (goal v).bind fun nv => (map goal l).bind fun nl => (map goal r).map fun nr => .red nl k nv nr
  | .black l k v r =>
    (goal v).bind fun nv => (map goal l).bind fun nl => (map goal r).map fun nr => .black nl k nv nr

def rbMap (t : Tree α β) (goal : β → Option γ) : Option (Tree α γ) := map goal t

/-- When the goal succeeds on every value, each value is replaced. -/
theorem rbMap_some {t : Tree α β} {goal : β → Option γ} {f : β → γ}
    (h : ∀ e ∈ t.toList, goal e.2 = some (f e.2)) : rbMap t goal = some (t.mapValues f) := by
  unfold rbMap
  induction t with
  | nil => rfl
  | red l k v r ihl ihr | black l k v r ihl ihr =>
    have hv : goal v = some (f v) := h (k, v) (by simp)
    have hl := ihl fun e he => h e (by simp [he])
    have hr := ihr fun e he => h e (by simp [he])
    simp [map, hv, hl, hr, Tree.mapValues]

theorem rbMap_mapValues {δ : Type*} (f : β → γ) (t : Tree α β) (goal : γ → Option δ) :
    rbMap (t.mapValues f) goal = rbMap t (goal ∘ f) := by
  unfold rbMap
  induction t with
  | nil => rfl
  | red l k v r ihl ihr | black l k v r ihl ihr => simp [Tree.mapValues, map, ihl, ihr]

/-- When the map succeeds, the goal did on every value. -/
theorem rbMap_goal {t : Tree α β} {t' : Tree α γ} {goal : β → Option γ} (h : rbMap t goal = some t') :
    ∀ e ∈ t.toList, ∃ w, (e.1, w) ∈ t'.toList ∧ goal e.2 = some w := by
  unfold rbMap at h
  induction t generalizing t' with
  | nil =>
    intro e he
    cases he
  | red l k v r ihl ihr | black l k v r ihl ihr =>
    simp only [map, Option.bind_eq_some_iff, Option.map_eq_some_iff] at h
    obtain ⟨nv, hv, nl, hl, nr, hr, rfl⟩ := h
    intro e he
    simp only [toList_red, toList_black, List.mem_append, List.mem_cons] at he ⊢
    obtain hel | rfl | her := he
    · obtain ⟨w, hw, hgoal⟩ := ihl hl e hel
      exact ⟨w, .inl hw, hgoal⟩
    · exact ⟨nv, .inr (.inl rfl), hv⟩
    · obtain ⟨w, hw, hgoal⟩ := ihr hr e her
      exact ⟨w, .inr (.inr hw), hgoal⟩

-- ---------------------------------------------------------------------------
-- Clones
-- ---------------------------------------------------------------------------

/-- The value in a list of entries that starts with the key, and the rest of the list. -/
def cloneValue [DecidableEq α] (k : α) : List (α × γ) → Option (γ × List (α × γ))
  | [] => none
  | (k', nv) :: ns => if k' = k then some (nv, ns) else none

/-- `clone/7`, whose first list is that of `visit/3` and whose second holds the unbound values of the new
tree. Here this list is bound to a list of entries; the result has the entries that are left. -/
def clone [DecidableEq α] : Tree α β → List (α × γ) → Option (Tree α γ × List (α × γ))
  | .nil, ns => some (.nil, ns)
  | .red l k _ r, ns =>
    (clone l ns).bind fun (nl, ns) => (cloneValue k ns).bind fun (nv, ns1) =>
      (clone r ns1).map fun (nr, ns0) => (.red nl k nv nr, ns0)
  | .black l k _ r, ns =>
    (clone l ns).bind fun (nl, ns) => (cloneValue k ns).bind fun (nv, ns1) =>
      (clone r ns1).map fun (nr, ns0) => (.black nl k nv nr, ns0)

/-- `rb_clone/4` of a tree, when its list of new entries is bound to the list. -/
def rbClone [DecidableEq α] (t : Tree α β) (ns : List (α × γ)) : Option (Tree α γ) :=
  (clone t ns).bind fun (nt, ns0) => if ns0.isEmpty then some nt else none

theorem clone_mapValues [DecidableEq α] (f : β → γ) (t : Tree α β) (ns : List (α × γ)) :
    clone t ((t.toList.map fun e => (e.1, f e.2)) ++ ns) = some (t.mapValues f, ns) := by
  induction t generalizing ns with
  | nil => rfl
  | red l k v r ihl ihr | black l k v r ihl ihr =>
    simp [clone, cloneValue, ihl, ihr, Tree.mapValues]

/-- A clone whose values are bound to those of a function is the map of this function. -/
theorem rbClone_mapValues [DecidableEq α] (f : β → γ) (t : Tree α β) :
    rbClone t (t.toList.map fun e => (e.1, f e.2)) = some (t.mapValues f) := by
  have h := clone_mapValues f t []
  rw [List.append_nil] at h
  rw [rbClone, h]
  rfl

-- ---------------------------------------------------------------------------
-- The value of one key
-- ---------------------------------------------------------------------------

section Apply

variable [LinearOrder α]

def apply (key : α) (goal : β → Option β) : Tree α β → Option (Tree α β)
  | .nil => none
  | .red l k0 v0 r =>
    match compare k0 key with
    | .eq => (goal v0).map fun v => .red l k0 v r
    | .gt => (apply key goal l).map fun nl => .red nl k0 v0 r
    | .lt => (apply key goal r).map fun nr => .red l k0 v0 nr
  | .black l k0 v0 r =>
    match compare k0 key with
    | .eq => (goal v0).map fun v => .black l k0 v r
    | .gt => (apply key goal l).map fun nl => .black nl k0 v0 r
    | .lt => (apply key goal r).map fun nr => .black l k0 v0 nr

def rbApply (t : Tree α β) (key : α) (goal : β → Option β) : Option (Tree α β) := apply key goal t

theorem apply_none {t : Tree α β} {key : α} (hs : Assoc.Sorted t.toList) (goal : β → Option β)
    (h : Assoc.value key t.toList = none) : rbApply t key goal = none := by
  unfold rbApply
  induction t with
  | nil => rfl
  | red l k0 v0 r ihl ihr | black l k0 v0 r ihl ihr =>
    obtain ⟨hsl, hsr, -, -⟩ := Assoc.sorted_split.mp hs
    rw [apply]
    split
    case h_1 heq =>
      obtain rfl := compare_eq_iff_eq.mp heq
      exact absurd ((Assoc.value_here hs).symm.trans h) (by simp)
    case h_2 hgt =>
      rw [ihl hsl ((Assoc.value_left hs (compare_gt_iff_gt.mp hgt)).symm.trans h)]
      rfl
    case h_3 hlt =>
      rw [ihr hsr ((Assoc.value_right hs (compare_lt_iff_lt.mp hlt)).symm.trans h)]
      rfl

/-- The call decides whether the key that is there gets a new value. -/
theorem apply_some {t : Tree α β} {key : α} {v : β} (hs : Assoc.Sorted t.toList) (goal : β → Option β)
    (h : Assoc.value key t.toList = some v) :
    (goal v = none → rbApply t key goal = none) ∧
      ∀ w, goal v = some w → ∃ t', rbApply t key goal = some t' ∧ t'.toList = Assoc.put key w t.toList := by
  unfold rbApply
  induction t with
  | nil => cases h
  | red l k0 v0 r ihl ihr | black l k0 v0 r ihl ihr =>
    obtain ⟨hsl, hsr, -, -⟩ := Assoc.sorted_split.mp hs
    rw [apply]
    split
    case h_1 heq =>
      obtain rfl := compare_eq_iff_eq.mp heq
      obtain rfl : v0 = v := Option.some.inj ((Assoc.value_here hs).symm.trans h)
      refine ⟨fun hg => by rw [hg]; rfl, fun w hg => ⟨_, by rw [hg]; rfl, ?_⟩⟩
      exact (Assoc.put_here hs w).symm
    case h_2 hgt =>
      have hlt := compare_gt_iff_gt.mp hgt
      obtain ⟨hnone, hsome⟩ := ihl hsl ((Assoc.value_left hs hlt).symm.trans h)
      refine ⟨fun hg => by rw [hnone hg]; rfl, fun w hg => ?_⟩
      obtain ⟨l', heq, hlist⟩ := hsome w hg
      refine ⟨_, by rw [heq]; rfl, ?_⟩
      simp only [toList_red, toList_black, hlist]
      exact (Assoc.put_left hs w hlt).symm
    case h_3 hlt' =>
      have hlt := compare_lt_iff_lt.mp hlt'
      obtain ⟨hnone, hsome⟩ := ihr hsr ((Assoc.value_right hs hlt).symm.trans h)
      refine ⟨fun hg => by rw [hnone hg]; rfl, fun w hg => ?_⟩
      obtain ⟨r', heq, hlist⟩ := hsome w hg
      refine ⟨_, by rw [heq]; rfl, ?_⟩
      simp only [toList_red, toList_black, hlist]
      exact (Assoc.put_right hs w hlt).symm

theorem apply_balanced {t t' : Tree α β} {c : Color} {n : ℕ} {key : α} {goal : β → Option β}
    (hb : Balanced t c n) (h : rbApply t key goal = some t') : Balanced t' c n := by
  unfold rbApply at h
  induction hb generalizing t' with
  | nil => cases h
  | red hl hr ihl ihr =>
    rw [apply] at h
    split at h
    all_goals obtain ⟨x, hx, rfl⟩ := Option.map_eq_some_iff.mp h
    · exact .red hl hr
    · exact .red (ihl hx) hr
    · exact .red hl (ihr hx)
  | black hl hr ihl ihr =>
    rw [apply] at h
    split at h
    all_goals obtain ⟨x, hx, rfl⟩ := Option.map_eq_some_iff.mp h
    · exact .black hl hr
    · exact .black (ihl hx) hr
    · exact .black hl (ihr hx)

/-- A call on the tree with other values, when the goals agree on the value of the key. -/
theorem apply_mapValues {f : β → γ} {t : Tree α β} {key : α} (goal : β → Option β) {goal' : γ → Option γ}
    (h : ∀ v, (key, v) ∈ t.toList → goal' (f v) = (goal v).map f) :
    rbApply (t.mapValues f) key goal' = (rbApply t key goal).map (Tree.mapValues f) := by
  unfold rbApply
  induction t with
  | nil => rfl
  | red l k0 v0 r ihl ihr | black l k0 v0 r ihl ihr =>
    rw [Tree.mapValues, apply, apply]
    split
    case h_1 heq =>
      obtain rfl := compare_eq_iff_eq.mp heq
      rw [h v0 (by simp), Option.map_map, Option.map_map]
      rfl
    case h_2 =>
      rw [ihl fun v hv => h v (by simp [hv]), Option.map_map, Option.map_map]
      rfl
    case h_3 =>
      rw [ihr fun v hv => h v (by simp [hv]), Option.map_map, Option.map_map]
      rfl

/-- A goal that succeeds puts its result into the tree. -/
theorem Valid.rbApply_some {t : Tree α β} (h : Valid t) {key : α} {v w : β} (goal : β → Option β)
    (hv : Assoc.value key t.toList = some v) (hw : goal v = some w) :
    ∃ t', rbApply t key goal = some t' ∧ Valid t' ∧ t'.toList = Assoc.put key w t.toList := by
  obtain ⟨t', heq, hlist⟩ := (apply_some h.sorted goal hv).2 w hw
  obtain ⟨n, hb⟩ := h.balanced
  refine ⟨t', heq, ⟨?_, n, apply_balanced hb heq⟩, hlist⟩
  rw [hlist]
  exact Assoc.sorted_put h.sorted key w

end Apply

-- ---------------------------------------------------------------------------
-- Trees of ordered lists
-- ---------------------------------------------------------------------------

def buildNode (depth : ℤ) (left : Tree α β) (k : α) (val : β) (right : Tree α β) : Tree α β :=
  if depth = 0 then .red left k val right else .black left k val right

/-- `construct_rbtree/6`; `ar` is the compound with the entries as arguments, counted from 1. -/
def constructRbtree (ar : List (α × β)) (i0 max : ℕ) (depth : ℤ) : Option (Tree α β) :=
  if max < i0 then some .nil
  else if i0 = max then (ar[i0 - 1]?).map fun e => buildNode depth .nil e.1 e.2 .nil
  else do
    let e ← ar[(i0 + max) / 2 - 1]?
    let left ← constructRbtree ar i0 ((i0 + max) / 2 - 1) (depth - 1)
    let right ← constructRbtree ar ((i0 + max) / 2 + 1) max (depth - 1)
    return buildNode depth left e.1 e.2 right
termination_by max + 1 - i0

/-- The height `truncate(log(L)/log(2))` is the integer part of the logarithm; the computation with
floats gives it for every length below `2 ^ 48`. -/
def ordListToRbtree (list : List (α × β)) : Option (Tree α β) :=
  if list = [] then some .nil
  else if list.length = 1 then (list[0]?).map fun e => .black .nil e.1 e.2 .nil
  else constructRbtree list 1 list.length (Nat.log 2 list.length)

theorem buildNode_black (h : ℕ) (left : Tree α β) (k : α) (val : β) (right : Tree α β) :
    buildNode ((h + 1 : ℕ) : ℤ) left k val right = .black left k val right := if_neg (by omega)

/-- The entries of an interval before, at and after a position. -/
theorem slice_split {l : List (α × β)} {a i b : ℕ} (ha : a ≤ i) (hb : i < b) (h : i < l.length) :
    (l.drop a).take (b - a) = (l.drop a).take (i - a) ++ l[i] :: (l.drop (i + 1)).take (b - (i + 1)) := by
  have hsum : b - a = i - a + (b - (i + 1) + 1) := by omega
  rw [hsum, List.take_add, List.drop_drop, Nat.add_sub_cancel' ha, List.drop_eq_getElem_cons h,
    List.take_succ_cons]

/-- Between `2 ^ h - 1` and `2 ^ (h + 1) - 1` entries fill `h` levels of black nodes and a part of
a red level. -/
theorem constructRbtree_spec (ar : List (α × β)) {h : ℕ} (i0 max : ℕ) (hi : 1 ≤ i0) (hmax : max ≤ ar.length)
    (hlo : 2 ^ h ≤ max + 1 - i0 + 1) (hhi : max + 1 - i0 < 2 ^ (h + 1)) :
    ∃ t c, constructRbtree ar i0 max h = some t ∧ Balanced t c h ∧ (h ≠ 0 → c = .black) ∧
      t.toList = (ar.drop (i0 - 1)).take (max - (i0 - 1)) := by
  induction h generalizing i0 max with
  | zero =>
    rw [constructRbtree]
    split_ifs with hlt heq
    · exact ⟨.nil, .black, rfl, .nil, fun h => absurd rfl h, by simp [show max - (i0 - 1) = 0 by omega]⟩
    · subst heq
      have hin : i0 - 1 < ar.length := by omega
      refine ⟨_, _, by rw [List.getElem?_eq_getElem hin]; rfl, .red .nil .nil, fun h => absurd rfl h, ?_⟩
      rw [slice_split le_rfl (by omega) hin]
      simp [show i0 - (i0 - 1 + 1) = 0 by omega]
    · simp at hhi
      omega
  | succ h ih =>
    have hpos : 0 < 2 ^ h := Nat.two_pow_pos h
    rw [Nat.pow_succ] at hlo
    rw [Nat.pow_succ, Nat.pow_succ] at hhi
    have hcast : ((h + 1 : ℕ) : ℤ) - 1 = h := by push_cast; ring
    rw [constructRbtree, hcast]
    split_ifs with hlt heq
    · omega
    · subst heq
      have hin : i0 - 1 < ar.length := by omega
      have hzero : h = 0 := by
        by_contra hh
        have : 2 ^ 1 ≤ 2 ^ h := Nat.pow_le_pow_right two_pos (Nat.one_le_iff_ne_zero.mpr hh)
        omega
      subst hzero
      refine ⟨.black .nil ar[i0 - 1].1 ar[i0 - 1].2 .nil, .black, ?_, .black .nil .nil, fun _ => rfl, ?_⟩
      · rw [List.getElem?_eq_getElem hin, Option.map_some, buildNode_black]
      · rw [slice_split le_rfl (by omega) hin]
        simp [show i0 - (i0 - 1 + 1) = 0 by omega]
    · generalize hm : (i0 + max) / 2 = m
      have hin : m - 1 < ar.length := by omega
      obtain ⟨left, c1, heql, hbl, -, hlistl⟩ := ih i0 (m - 1) hi (by omega) (by omega)
        (by rw [Nat.pow_succ]; omega)
      obtain ⟨right, c2, heqr, hbr, -, hlistr⟩ := ih (m + 1) max (by omega) hmax (by omega)
        (by rw [Nat.pow_succ]; omega)
      refine ⟨.black left ar[m - 1].1 ar[m - 1].2 right, .black, ?_, .black hbl hbr, fun _ => rfl, ?_⟩
      · rw [List.getElem?_eq_getElem hin, heql, heqr]
        exact congrArg some (buildNode_black ..)
      · rw [slice_split (show i0 - 1 ≤ m - 1 by omega) (by omega) hin, toList_black, hlistl, hlistr]
        rw [show m - 1 + 1 = m by omega, Nat.add_sub_cancel]

/-- The tree of an ordered list is valid and has the entries of the list. -/
theorem ordListToRbtree_spec [LinearOrder α] {l : List (α × β)} (h : Assoc.Sorted l) :
    ∃ t, ordListToRbtree l = some t ∧ Valid t ∧ t.toList = l := by
  unfold ordListToRbtree
  split_ifs with hnil hone
  · exact ⟨.nil, rfl, valid_nil, by rw [hnil]; rfl⟩
  · obtain ⟨e, rfl⟩ := List.length_eq_one_iff.mp hone
    exact ⟨.black .nil e.1 e.2 .nil, rfl, ⟨h, 1, .black .nil .nil⟩, rfl⟩
  · have hlen : 2 ≤ l.length := by
      have := List.length_pos_iff.mpr hnil
      omega
    have hlow : 2 ^ Nat.log 2 l.length ≤ l.length := Nat.pow_log_le_self 2 (by omega)
    have hhigh : l.length < 2 ^ (Nat.log 2 l.length + 1) := Nat.lt_pow_succ_log_self one_lt_two l.length
    obtain ⟨t, c, heq, hb, hc, hlist⟩ := constructRbtree_spec l (h := Nat.log 2 l.length) 1 l.length
      le_rfl le_rfl (by omega) (by omega)
    have hroot : c = .black := hc (Nat.pos_iff_ne_zero.mp (Nat.log_pos one_lt_two hlen))
    subst hroot
    have htoList : t.toList = l := by simpa using hlist
    exact ⟨t, heq, ⟨htoList ▸ h, _, hb⟩, htoList⟩

end Rbtrees

end Yap
