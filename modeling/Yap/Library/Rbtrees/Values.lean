-- SUMMARY: rb_lookupall/3, rb_update/4, rb_update/5 and rb_apply/4 of library(rbtrees): what is found, and what changes.
import Yap.Library.Rbtrees.Maps

/-!
# The values of a key

A predicate with several answers is the list of them, in order. `OldVal` of
`rb_update/5` may be bound before the call: then it is `some` of its value.
-/

namespace Yap

namespace Rbtrees

variable {α β γ : Type*}

-- ---------------------------------------------------------------------------
-- Values by their keys
-- ---------------------------------------------------------------------------

/-- The tree with the value of each key given by a function of the entry. -/
def Tree.mapEntries (f : α → β → γ) : Tree α β → Tree α γ
  | .nil => .nil
  | .red l k v r => .red (l.mapEntries f) k (f k v) (r.mapEntries f)
  | .black l k v r => .black (l.mapEntries f) k (f k v) (r.mapEntries f)

/-- The nodes, colors and keys of a tree. -/
def Tree.shape (t : Tree α β) : Tree α Unit := t.mapEntries fun _ _ => ()

theorem toList_mapEntries (f : α → β → γ) (t : Tree α β) :
    (t.mapEntries f).toList = t.toList.map fun e => (e.1, f e.1 e.2) := by
  induction t with
  | nil => rfl
  | red l k v r ihl ihr | black l k v r ihl ihr => simp [Tree.mapEntries, ihl, ihr]

theorem shape_mapEntries (f : α → β → γ) (t : Tree α β) : (t.mapEntries f).shape = t.shape := by
  unfold Tree.shape
  induction t with
  | nil => rfl
  | red l k v r ihl ihr | black l k v r ihl ihr => simp [Tree.mapEntries, ihl, ihr]

theorem mapEntries_id {f : α → β → β} {t : Tree α β} (h : ∀ e ∈ t.toList, f e.1 e.2 = e.2) :
    t.mapEntries f = t := by
  induction t with
  | nil => rfl
  | red l k v r ihl ihr | black l k v r ihl ihr =>
    have hv := h (k, v) (by simp)
    have hl := ihl fun e he => h e (by simp [he])
    have hr := ihr fun e he => h e (by simp [he])
    simp only [Tree.mapEntries, hv, hl, hr]

theorem Balanced.mapEntries {t : Tree α β} {c : Color} {n : ℕ} (h : Balanced t c n) (f : α → β → γ) :
    Balanced (t.mapEntries f) c n := by
  induction h with
  | nil => exact .nil
  | red _ _ ihl ihr => exact .red ihl ihr
  | black _ _ ihl ihr => exact .black ihl ihr

/-- A clone whose values are bound to those of a function of the entry. -/
theorem clone_mapEntries [DecidableEq α] (f : α → β → γ) (t : Tree α β) (ns : List (α × γ)) :
    clone t ((t.toList.map fun e => (e.1, f e.1 e.2)) ++ ns) = some (t.mapEntries f, ns) := by
  induction t generalizing ns with
  | nil => rfl
  | red l k v r ihl ihr | black l k v r ihl ihr =>
    simp [clone, cloneValue, ihl, ihr, Tree.mapEntries]

theorem rbClone_mapEntries [DecidableEq α] (f : α → β → γ) (t : Tree α β) :
    rbClone t (t.toList.map fun e => (e.1, f e.1 e.2)) = some (t.mapEntries f) := by
  have h := clone_mapEntries f t []
  rw [List.append_nil] at h
  rw [rbClone, h]
  rfl

theorem value_mapEntries [LinearOrder α] (f : α → β → γ) (t : Tree α β) (key : α) :
    Assoc.value key (t.mapEntries f).toList = (Assoc.value key t.toList).map (f key) := by
  rw [toList_mapEntries, Assoc.value, Assoc.value]
  generalize t.toList = l
  induction l with
  | nil => rfl
  | cons e l ih =>
    by_cases heq : e.1 = key
    · simp [heq]
    · simpa [heq] using ih

section Descents

variable [LinearOrder α]

theorem Valid.mapEntries {t : Tree α β} (h : Valid t) (f : α → β → γ) : Valid (t.mapEntries f) := by
  obtain ⟨n, hb⟩ := h.balanced
  refine ⟨?_, n, hb.mapEntries f⟩
  rw [toList_mapEntries]
  exact List.pairwise_map.mpr h.sorted

def Tree.set (key : α) (w : β) (t : Tree α β) : Tree α β := t.mapEntries fun k v => if k = key then w else v

/-- In an ordered tree, the value of one key is set on one side of every other key. -/
theorem set_cases {l r : Tree α β} {k0 : α} (key : α) {v0 : β}
    (hs : Assoc.Sorted (l.toList ++ (k0, v0) :: r.toList)) (w : β) :
    (key ≤ k0 → r.set key w = r) ∧ (k0 ≤ key → l.set key w = l) := by
  obtain ⟨-, -, hle, hge⟩ := Assoc.sorted_split.mp hs
  refine ⟨fun h => mapEntries_id fun e he => ?_, fun h => mapEntries_id fun e he => ?_⟩
  · exact if_neg (h.trans_lt (hge e he)).ne'
  · exact if_neg ((hle e he).trans_le h).ne

-- ---------------------------------------------------------------------------
-- The predicates
-- ---------------------------------------------------------------------------

/-- `lookupall/3` and `lookupall/4`. -/
def lookupall (key : α) : Tree α β → List β
  | .nil => []
  | .red l ka va _ | .black l ka va _ =>
    match compare ka key with
    -- `rb_lookupall/3` is called with the node, and has no clause for a term other than `t(_,_)`
    | .gt => []
    | .eq => va :: lookupall key l
    | .lt => lookupall key l

def rbLookupall (key : α) (t : Tree α β) : List β := lookupall key t

/-- `OldVal = Val0`. -/
def unifiesOld [DecidableEq β] (oldVal : Option β) (val0 : β) : Bool := oldVal.all (· = val0)

/-- `update/5`: the value of `OldVal` after the call, and the new tree. -/
def update [DecidableEq β] (key : α) (oldVal : Option β) (val : β) : Tree α β → Option (β × Tree α β)
  | .nil => none
  | .black l key0 val0 r =>
    match compare key0 key with
    | .eq => if unifiesOld oldVal val0 then some (val0, .black l key0 val r) else none
    | .gt => (update key oldVal val l).map fun p => (p.1, .black p.2 key0 val0 r)
    | .lt => (update key oldVal val r).map fun p => (p.1, .black l key0 val0 p.2)
  | .red l key0 val0 r =>
    match compare key0 key with
    | .eq => if unifiesOld oldVal val0 then some (val0, .red l key0 val r) else none
    | .gt => (update key oldVal val l).map fun p => (p.1, .red p.2 key0 val0 r)
    | .lt => (update key oldVal val r).map fun p => (p.1, .red l key0 val0 p.2)

/-- `rb_update/5`. -/
def rbUpdateOld [DecidableEq β] (t : Tree α β) (key : α) (oldVal : Option β) (val : β) : Option (β × Tree α β) :=
  update key oldVal val t

/-- `rb_update/4`. -/
def rbUpdate [DecidableEq β] (t : Tree α β) (key : α) (val : β) : Option (Tree α β) :=
  (update key none val t).map Prod.snd

/-- `apply/4` for a goal with several answers. -/
def applyAll (key : α) (goal : β → List β) : Tree α β → List (Tree α β)
  | .nil => []
  | .black l key0 val0 r =>
    match compare key0 key with
    | .eq => (goal val0).map fun val => .black l key0 val r
    | .gt => (applyAll key goal l).map fun nl => .black nl key0 val0 r
    | .lt => (applyAll key goal r).map fun nr => .black l key0 val0 nr
  | .red l key0 val0 r =>
    match compare key0 key with
    | .eq => (goal val0).map fun val => .red l key0 val r
    | .gt => (applyAll key goal l).map fun nl => .red nl key0 val0 r
    | .lt => (applyAll key goal r).map fun nr => .red l key0 val0 nr

def rbApplyAll (t : Tree α β) (key : α) (goal : β → List β) : List (Tree α β) := applyAll key goal t

/-- A goal with one answer at most. -/
theorem rbApplyAll_toList (t : Tree α β) (key : α) (goal : β → Option β) :
    rbApplyAll t key (fun v => (goal v).toList) = (rbApply t key goal).toList := by
  unfold rbApplyAll rbApply
  induction t with
  | nil => rfl
  | red l k v r ihl ihr | black l k v r ihl ihr =>
    rw [applyAll, apply]
    cases compare k key with
    | eq => cases goal v <;> rfl
    | gt =>
      simp only [ihl]
      cases apply key goal l <;> rfl
    | lt =>
      simp only [ihr]
      cases apply key goal r <;> rfl

-- ---------------------------------------------------------------------------
-- Each descent by the value of the key
-- ---------------------------------------------------------------------------

@[simp] theorem set_red (key : α) (w : β) (l : Tree α β) (k : α) (v : β) (r : Tree α β) :
    (Tree.red l k v r).set key w = .red (l.set key w) k (if k = key then w else v) (r.set key w) := rfl

@[simp] theorem set_black (key : α) (w : β) (l : Tree α β) (k : α) (v : β) (r : Tree α β) :
    (Tree.black l k v r).set key w = .black (l.set key w) k (if k = key then w else v) (r.set key w) := rfl

variable {t : Tree α β} {key : α}

theorem update_eq [DecidableEq β] (hs : Assoc.Sorted t.toList) (oldVal : Option β) (val : β) :
    update key oldVal val t =
      (Assoc.value key t.toList).bind fun v => if unifiesOld oldVal v then some (v, t.set key val) else none := by
  induction t with
  | nil => rfl
  | red l k0 v0 r ihl ihr | black l k0 v0 r ihl ihr =>
    obtain ⟨hsl, hsr, -, -⟩ := Assoc.sorted_split.mp hs
    obtain ⟨hright, hleft⟩ := set_cases key hs val
    simp only [toList_red, toList_black] at hs ⊢
    rw [update]
    split
    case h_1 heq =>
      obtain rfl := compare_eq_iff_eq.mp heq
      have hvalue := Assoc.value_here hs
      simp [hvalue, hright le_rfl, hleft le_rfl]
    case h_2 hgt =>
      have hlt := compare_gt_iff_gt.mp hgt
      rw [ihl hsl, Assoc.value_left hs hlt]
      cases Assoc.value key l.toList <;> simp [hright hlt.le, hlt.ne', apply_ite]
    case h_3 hlt' =>
      have hlt := compare_lt_iff_lt.mp hlt'
      rw [ihr hsr, Assoc.value_right hs hlt]
      cases Assoc.value key r.toList <;> simp [hleft hlt.le, hlt.ne, apply_ite]

theorem applyAll_eq (hs : Assoc.Sorted t.toList) (goal : β → List β) :
    applyAll key goal t =
      (Assoc.value key t.toList).elim [] fun v => (goal v).map fun w => t.set key w := by
  induction t with
  | nil => rfl
  | red l k0 v0 r ihl ihr | black l k0 v0 r ihl ihr =>
    obtain ⟨hsl, hsr, -, -⟩ := Assoc.sorted_split.mp hs
    have hset := fun w => set_cases key hs w
    simp only [toList_red, toList_black] at hs ⊢
    rw [applyAll]
    split
    case h_1 heq =>
      obtain rfl := compare_eq_iff_eq.mp heq
      have hvalue := Assoc.value_here hs
      simp [hvalue, (hset _).1 le_rfl, (hset _).2 le_rfl]
    case h_2 hgt =>
      have hlt := compare_gt_iff_gt.mp hgt
      rw [ihl hsl, Assoc.value_left hs hlt]
      cases Assoc.value key l.toList <;> simp [(hset _).1 hlt.le, hlt.ne', Function.comp_def]
    case h_3 hlt' =>
      have hlt := compare_lt_iff_lt.mp hlt'
      rw [ihr hsr, Assoc.value_right hs hlt]
      cases Assoc.value key r.toList <;> simp [(hset _).2 hlt.le, hlt.ne, Function.comp_def]

def Tree.rootKey : Tree α β → Option α
  | .nil => none
  | .red _ k _ _ | .black _ k _ _ => some k

/-- Below a key that is less, the descent goes left until it fails. -/
theorem lookupall_of_lt (h : ∀ e ∈ t.toList, e.1 < key) : lookupall key t = [] := by
  induction t with
  | nil => rfl
  | red l ka va r ihl _ | black l ka va r ihl _ =>
    have hka : ka < key := h (ka, va) (by simp)
    rw [lookupall, compare_lt_iff_lt.mpr hka]
    exact ihl fun e he => h e (by simp [he])

/-- Only the key of the root is found. -/
theorem lookupall_eq (hs : Assoc.Sorted t.toList) :
    lookupall key t = if t.rootKey = some key then (Assoc.value key t.toList).toList else [] := by
  cases t with
  | nil => rfl
  | red l ka va r | black l ka va r =>
    obtain ⟨-, -, hle, -⟩ := Assoc.sorted_split.mp hs
    simp only [toList_red, toList_black] at hs ⊢
    rw [lookupall]
    split
    case h_1 hgt =>
      have hlt := compare_gt_iff_gt.mp hgt
      exact (if_neg fun heq => hlt.ne' (Option.some.inj heq)).symm
    case h_2 heq =>
      obtain rfl := compare_eq_iff_eq.mp heq
      have hvalue := Assoc.value_here hs
      rw [lookupall_of_lt hle, hvalue]
      exact (if_pos rfl).symm
    case h_3 hlt' =>
      have hlt := compare_lt_iff_lt.mp hlt'
      rw [lookupall_of_lt fun e he => (hle e he).trans hlt]
      exact (if_neg fun heq => hlt.ne (Option.some.inj heq)).symm

-- ---------------------------------------------------------------------------
-- Lookups and updates in valid trees
-- ---------------------------------------------------------------------------

/-- The answers are the values stored under the key, and those of `rb_lookup/3`. -/
def LooksUpAll (t : Tree α β) (key : α) : Prop :=
  rbLookupall key t = (t.toList.filter fun e => e.1 = key).map Prod.snd ∧
    rbLookupall key t = (rbLookup key t).toList

/-- The tree differs in the value of the key only. -/
structure ChangedAt (t t' : Tree α β) (key : α) (w : β) : Prop where
  shape : t'.shape = t.shape
  entries : t'.toList = t.toList.map fun e => (e.1, if e.1 = key then w else e.2)
  valid : Valid t'

theorem changedAt_set (h : Valid t) (key : α) (w : β) : ChangedAt t (t.set key w) key w :=
  ⟨shape_mapEntries _ t, toList_mapEntries _ t, h.mapEntries _⟩

/-- `rb_update/4`, `rb_update/5` and `rb_apply/4` fail without the key, and change its value only;
the goal has its own answers, and `OldVal` unifies with the value before. -/
def UpdatesOnly [DecidableEq β] (t : Tree α β) (key : α) : Prop :=
  match rbLookup key t with
  | none => ∀ w oldVal goal,
      rbUpdate t key w = none ∧ rbUpdateOld t key oldVal w = none ∧ rbApplyAll t key goal = []
  | some v => ∀ w oldVal goal,
      ChangedAt t (t.set key w) key w ∧ rbUpdate t key w = some (t.set key w) ∧
        rbUpdateOld t key oldVal w = (if unifiesOld oldVal v then some (v, t.set key w) else none) ∧
        rbApplyAll t key goal = (goal v).map fun w => t.set key w

theorem Valid.updatesOnly [DecidableEq β] (h : Valid t) (key : α) : UpdatesOnly t key := by
  unfold UpdatesOnly rbLookup rbUpdate rbUpdateOld rbApplyAll
  rw [lookup_eq_value h.sorted]
  cases hv : Assoc.value key t.toList with
  | none =>
    intro w oldVal goal
    simp only [update_eq h.sorted, applyAll_eq h.sorted, hv]
    exact ⟨rfl, rfl, rfl⟩
  | some v =>
    intro w oldVal goal
    simp only [update_eq h.sorted, applyAll_eq h.sorted, hv]
    exact ⟨changedAt_set h key w, rfl, rfl, rfl⟩

/-- The values of a key are those of the entries with it: one at most. -/
theorem values_eq (hs : Assoc.Sorted t.toList) (key : α) :
    (t.toList.filter fun e => e.1 = key).map Prod.snd = (Assoc.value key t.toList).toList := by
  generalize t.toList = l at hs
  induction l with
  | nil => rfl
  | cons e l ih =>
    obtain ⟨hlt, hl⟩ := List.pairwise_cons.mp hs
    have hvalue := Assoc.value_here (l := []) hs
    by_cases heq : e.1 = key
    · subst heq
      have hnone : l.filter (fun a => a.1 = e.1) = [] :=
        List.filter_eq_nil_iff.mpr fun a ha => by simpa using (hlt a ha).ne'
      rw [List.filter_cons_of_pos (by simp), hnone]
      exact (congrArg Option.toList hvalue).symm
    · rw [List.filter_cons_of_neg (by simpa using heq), ih hl, Assoc.value, Assoc.value,
        List.find?_cons_of_neg (by simpa using heq)]

/-- `rb_lookupall/3` finds what is stored if and only if the key is that of the root, or absent;
`rb_update/4`, `rb_update/5` and `rb_apply/4` change the value of the key only, in every valid tree. -/
theorem rb_lookupall_update_iff [DecidableEq β] (h : Valid t) (key : α) :
    LooksUpAll t key ∧ UpdatesOnly t key ↔ (∀ e ∈ t.toList, e.1 ≠ key) ∨ t.rootKey = some key := by
  have hfound : LooksUpAll t key ↔ rbLookupall key t = (Assoc.value key t.toList).toList := by
    rw [LooksUpAll, values_eq h.sorted, rbLookup, lookup_eq_value h.sorted, and_self_iff]
  rw [hfound, rbLookupall, lookupall_eq h.sorted, ← Assoc.value_eq_none, and_iff_left (h.updatesOnly key)]
  by_cases hroot : t.rootKey = some key
  · simp [hroot]
  · cases Assoc.value key t.toList <;> simp [hroot]

theorem rb_lookupall_update_iff_root :
    LooksUpAll threeTree 2 ∧ UpdatesOnly threeTree 2 ↔
      (∀ e ∈ threeTree.toList, e.1 ≠ 2) ∨ threeTree.rootKey = some 2 :=
  rb_lookupall_update_iff valid_threeTree 2

/-- A key below the root is not found. -/
theorem not_looksUpAll_one : ¬ LooksUpAll threeTree 1 := by
  rintro ⟨-, hlookup⟩
  revert hlookup
  decide

end Descents

end Rbtrees

end Yap
