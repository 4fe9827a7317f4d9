-- SUMMARY: sort/2, msort/2 and keysort/2 on lists: stable sorts, sets of distinct elements, and which arguments keysort/2 accepts.
import Yap.Sorting.MergeSort

/-!
# Sorted lists

The predicates read the list into the vector, sort it there, and turn the vector
into the list that they return.
-/

namespace Yap

namespace Sorting

open Lanes StableSort

-- ---------------------------------------------------------------------------
-- Reading the list
-- ---------------------------------------------------------------------------

theorem exists_partialList (t : Term) : ∃ hds tail, PartialList t hds tail ∧ isPairTerm tail = false := by
  induction t with
  | pair p h t _ ih =>
    obtain ⟨hds, tail, hlist, htail⟩ := ih
    exact ⟨h :: hds, tail, .cons p h hlist, htail⟩
  | _ => exact ⟨[], _, .tail _, rfl⟩

/-- No tail of a list is the list itself, so the loop ends at the tail. -/
theorem skipLoop_spec {t tail : Term} {hds : List Term} (h : PartialList t hds tail) (htail : isPairTerm tail = false)
    {s : Term} {power lam length : ℕ} (hs : sizeOf t ≤ sizeOf s) :
    skipLoop s power lam length t = (length + hds.length, tail) := by
  induction h generalizing s power lam length with
  | tail t => cases t <;> first | rfl | cases htail
  | @cons p hd tl hds tail htl ih =>
    have hsize : sizeOf tl < sizeOf (Term.pair p hd tl) := by
      simp only [Term.pair.sizeOf_spec]
      omega
    have hne : tl ≠ if power = lam then .pair p hd tl else s := by
      intro heq
      have hle : sizeOf tl = sizeOf (if power = lam then Term.pair p hd tl else s) := congrArg sizeOf heq
      split at hle <;> omega
    rw [skipLoop]
    cases hpair : isPairTerm tl with
    | true =>
      simp only [ne_eq, hne, not_false_eq_true, and_self, if_true]
      rw [ih htail (by split <;> omega), List.length_cons]
      congr 1
      omega
    | false =>
      simp only [Bool.false_eq_true, and_false, if_false]
      cases htl with
      | tail => rfl
      | cons => cases hpair

theorem skipList_spec {t tail : Term} {hds : List Term} (h : PartialList t hds tail) (htail : isPairTerm tail = false) :
    skipList t = (hds.length, tail) := by
  rw [skipList, skipLoop_spec h htail le_rfl, Nat.zero_add]

theorem buildLoop_of_not_pair {t : Term} (h : isPairTerm t = false) (pt : ℕ) (out : ℤ) (m : ℕ → Term) :
    buildLoop pt out m t = (-1, m) := by
  cases t <;> first | rfl | cases h

/-- What the loop returns for a list with the elements and the tail. -/
structure Built (m : ℕ → Term) (pt : ℕ) (out : ℤ) (hds : List Term) (tail : Term) (r : ℤ × (ℕ → Term)) : Prop where
  proper : tail = termNil → r.1 = out + hds.length
  improper : tail ≠ termNil → r.1 = -1
  cells : lane r.2 pt hds.length = hds
  below : ∀ x < pt, r.2 x = m x

theorem buildLoop_spec {t tail : Term} {hds : List Term} (h : PartialList t hds tail) (htail : isPairTerm tail = false)
    (hne : hds ≠ []) {pt : ℕ} {out : ℤ} {m : ℕ → Term} : Built m pt out hds tail (buildLoop pt out m t) := by
  induction h generalizing pt out m with
  | tail => exact absurd rfl hne
  | @cons p hd tl hds tail htl ih =>
    have hbelow : ∀ x < pt, store m pt hd x = m x := fun x hx => store_of_ne hx.ne
    cases htl with
    | tail =>
      have hcells : lane (store m pt hd) pt 1 = [hd] := by simp [lane]
      rw [buildLoop, buildLoop_of_not_pair htail]
      by_cases hnil : tl = termNil
      · subst hnil
        exact ⟨fun _ => rfl, fun h => absurd rfl h, hcells, hbelow⟩
      · rw [if_neg hnil, ite_self]
        exact ⟨fun h => absurd h hnil, fun _ => rfl, hcells, hbelow⟩
    | @cons q hd' tl' hds' _ htl' =>
      obtain ⟨hproper, himproper, hcells, hrest⟩ := @ih htail (List.cons_ne_nil _ _) (pt + 2) (out + 1) (store m pt hd)
      have hrun : buildLoop pt out m (.pair p hd (.pair q hd' tl')) =
          buildLoop (pt + 2) (out + 1) (store m pt hd) (.pair q hd' tl') := rfl
      rw [hrun]
      refine ⟨fun h => ?_, himproper, ?_, fun x hx => (hrest x (by omega)).trans (hbelow x hx)⟩
      · rw [hproper h]
        simp only [List.length_cons]
        push_cast
        omega
      · rw [List.length_cons, lane, hcells, hrest pt (by omega), store_self]

theorem buildNewList_spec {t tail : Term} {hds : List Term} (h : PartialList t hds tail)
    (htail : isPairTerm tail = false) (hne : hds ≠ []) {pt : ℕ} {m : ℕ → Term} :
    Built m pt 0 hds tail (buildNewList pt t m) := by
  have hspec := @buildLoop_spec _ _ _ h htail hne pt 0 m
  cases h with
  | tail => exact absurd rfl hne
  | cons => exact hspec

/-- The vector of a proper list holds its elements. -/
theorem buildNewList_proper {t : Term} {hds : List Term} (h : PartialList t hds termNil) (pt : ℕ) (m : ℕ → Term) :
    (buildNewList pt t m).1 = hds.length ∧ lane (buildNewList pt t m).2 pt hds.length = hds := by
  cases h with
  | tail => exact ⟨rfl, rfl⟩
  | cons p hd htl =>
    have hspec := @buildNewList_spec _ _ _ (.cons p hd htl) rfl (List.cons_ne_nil _ _) pt m
    exact ⟨(hspec.proper rfl).trans (zero_add _), hspec.cells⟩

-- ---------------------------------------------------------------------------
-- Writing the list
-- ---------------------------------------------------------------------------

theorem adjustLoop_below {ptf pt x : ℕ} {m : ℕ → Cell} (hx : x < pt) : adjustLoop ptf m pt x = m x := by
  induction m, pt using adjustLoop.induct ptf with
  | case1 m pt h ih => rw [adjustLoop, if_pos h, ih (by omega), store_of_ne hx.ne]
  | case2 m pt h => rw [adjustLoop, if_neg h, store_of_ne hx.ne]

/-- The odd cells become the tails of the list in the even ones. -/
theorem adjustLoop_spec {pt : ℕ} {m : ℕ → Cell} {v : Term} {out : List Term}
    (h : lane m pt (out.length + 1) = (v :: out).map .term) :
    Unfolds (adjustLoop (pt + 2 * out.length) m (pt + 1)) (.absPair pt) (listAt pt (v :: out) termNil) := by
  induction out generalizing pt m v with
  | nil =>
    obtain ⟨hfirst, -⟩ := List.cons_eq_cons.mp h
    rw [adjustLoop, if_neg (by simp)]
    refine .absPair ?_ ?_
    · rw [store_of_ne (by omega), hfirst]
      exact .term v
    · rw [store_self]
      exact .term termNil
  | cons w out ih =>
    obtain ⟨hfirst, hrest⟩ := List.cons_eq_cons.mp h
    have hlane : lane (store m (pt + 1) (.absPair (pt + 2))) (pt + 2) (out.length + 1) = (w :: out).map .term := by
      rw [lane_store fun i _ => by omega]
      exact hrest
    have htail := ih hlane
    have hstop : pt + 2 * (w :: out).length = pt + 2 + 2 * out.length := by
      rw [List.length_cons]
      omega
    rw [adjustLoop, if_pos (by rw [hstop]; omega), hstop]
    refine .absPair ?_ ?_
    · rw [adjustLoop_below (by omega), store_of_ne (by omega), hfirst]
      exact .term v
    · rw [adjustLoop_below (by omega), store_self]
      exact htail

theorem lane_term (m : ℕ → Term) (p n : ℕ) : lane (fun x => Cell.term (m x)) p n = (lane m p n).map .term := by
  induction n generalizing p with
  | zero => rfl
  | succ n ih => rw [lane, lane, ih, List.map_cons]

theorem adjustVector_spec {pt size : ℕ} {m : ℕ → Term} (hsize : 1 ≤ size) :
    Unfolds (adjustVector pt size m) (.absPair pt) (listAt pt (lane m pt size) termNil) := by
  obtain ⟨size, rfl⟩ := Nat.exists_eq_add_one_of_ne_zero (Nat.ne_of_gt hsize)
  have hspec := @adjustLoop_spec pt (fun x => .term (m x)) (m pt) (lane m (pt + 2) size)
    (by rw [length_lane, lane_term]; rfl)
  rw [length_lane] at hspec
  exact hspec

-- ---------------------------------------------------------------------------
-- Stable sorts
-- ---------------------------------------------------------------------------

/-- The answer unfolds to the proper list of the elements. -/
def Lists (a : Answer) (out : List Term) : Prop := ∃ t, Unfolds a.2 a.1 t ∧ PartialList t out termNil

/-- Elements are compared by their keys. -/
def compareKeys (compareTerms : Term → Term → ℤ) (a b : Term) : ℤ :=
  compareTerms ((keyOf a).getD a) ((keyOf b).getD b)

variable {compareTerms : Term → Term → ℤ}

theorem keyOrder_of_keys {a b : Term} (ha : keyOf a ≠ none) (hb : keyOf b ≠ none) :
    keyOrder compareTerms a b = some (compareKeys compareTerms a b) := by
  obtain ⟨k, hk⟩ := Option.ne_none_iff_exists'.mp ha
  obtain ⟨k', hk'⟩ := Option.ne_none_iff_exists'.mp hb
  simp [keyOrder, compareKeys, hk, hk']

theorem keyOrder_none {a b : Term} (h : ¬ (keyOf a ≠ none ∧ keyOf b ≠ none)) : keyOrder compareTerms a b = none := by
  cases ha : keyOf a with
  | none => simp [keyOrder, ha]
  | some k =>
    cases hb : keyOf b with
    | none => simp [keyOrder, ha, hb]
    | some k' => exact absurd ⟨by simp [ha], by simp [hb]⟩ h

theorem totalPreorder_keys (h : TotalPreorder compareTerms) : TotalPreorder (compareKeys compareTerms) where
  swap _ _ := h.swap _ _
  trans _ _ _ := h.trans _ _ _

theorem rearranges_self {cmp : Term → Term → ℤ} {hds : List Term} (h : hds.length < 2) : Rearranges cmp hds hds := by
  refine ⟨.refl _, fun _ => ?_⟩
  cases hds with
  | nil => exact sorts_nil
  | cons e hds =>
    obtain rfl : hds = [] := List.length_eq_zero_iff.mp (by simpa using h)
    exact sorts_singleton e

/-- Lists of less than two elements are returned as they are. -/
theorem sortWith_short (sorter : ℕ → ℕ → ℕ → (ℕ → Term) → Option (ℕ → Term)) (hr : Addr) (m : Addr → Term) {l : Term}
    {hds : List Term} (hl : PartialList l hds termNil) (hshort : hds.length < 2) :
    ∃ a, sortWith sorter hr m l = some a ∧ Lists a hds := by
  have hbuilt := (buildNewList_proper hl hr m).1
  refine ⟨(.term l, fun p => .term ((buildNewList hr l m).2 p)), ?_, l, .term l, hl⟩
  unfold sortWith
  simp only [hbuilt]
  rw [if_neg (by omega), if_pos (by omega)]

/-- A longer list is sorted in the vector. -/
theorem sortWith_long (sorter : ℕ → ℕ → ℕ → (ℕ → Term) → Option (ℕ → Term)) (hr : Addr) (m : Addr → Term) {l : Term}
    {hds : List Term} (hl : PartialList l hds termNil) (hlong : 2 ≤ hds.length) :
    ∃ m1, lane m1 hr hds.length = hds ∧
      sortWith sorter hr m l =
        (sorter hr hds.length 0 m1).map fun sorted => (.absPair hr, adjustVector hr hds.length sorted) := by
  obtain ⟨hcount, hcells⟩ := buildNewList_proper hl hr m
  refine ⟨(buildNewList hr l m).2, hcells, ?_⟩
  unfold sortWith
  simp only [hcount, Int.toNat_natCast]
  rw [if_neg (by omega), if_neg (by omega)]

/-- A sort of the vector that succeeds on the elements gives their list. -/
theorem sortWith_spec {order : Term → Term → Option ℤ} {cmp : Term → Term → ℤ} {good : Term → Prop}
    (horder : ∀ a b, good a → good b → order a b = some (cmp a b)) (hr : Addr) (m : Addr → Term) {l : Term}
    {hds : List Term} (hl : PartialList l hds termNil) (hgood : hds.length < 2 ∨ ∀ e ∈ hds, good e) :
    ∃ a out, sortWith (mergesort order) hr m l = some a ∧ Lists a out ∧ Rearranges cmp hds out := by
  by_cases hshort : hds.length < 2
  · obtain ⟨a, ha, hlists⟩ := sortWith_short (mergesort order) hr m hl hshort
    exact ⟨a, hds, ha, hlists, rearranges_self hshort⟩
  · obtain ⟨m1, hcells, hrun⟩ := sortWith_long (mergesort order) hr m hl (not_lt.mp hshort)
    obtain ⟨m2, hm2, hsorts, -⟩ := @mergesort_spec _ cmp order good horder hr hds.length 0 m1 (by omega)
      (Nat.zero_le 1) (by rw [hcells]; exact hgood.resolve_left hshort)
    rw [hcells] at hsorts
    have hlists : Lists (.absPair hr, adjustVector hr hds.length m2) (lane m2 hr hds.length) :=
      ⟨_, adjustVector_spec (by omega), partialList_listAt _ _ _⟩
    exact ⟨_, _, by rw [hrun, hm2]; rfl, hlists, hsorts⟩

theorem checkList_some {goal : Term → Option Answer} {l : Term} {hds : List Term} (hl : PartialList l hds termNil)
    {a : Answer} (h : goal l = some a) : checkList goal l = .succeeds a := by
  have hskip : (skipList l).2 = termNil := by rw [skipList_spec hl rfl]
  rw [checkList, if_pos hskip, h]

theorem checkList_none {goal : Term → Option Answer} {l : Term} {hds : List Term} (hl : PartialList l hds termNil)
    (h : goal l = none) : checkList goal l = .fails := by
  have hskip : (skipList l).2 = termNil := by rw [skipList_spec hl rfl]
  rw [checkList, if_pos hskip, h]

/-- The predicates return stable sorts of proper lists, and every call of their merge sorts leaves one in the lane
it is asked for and nothing outside its cells changes. -/
theorem msort_keysort_stable (hcmp : TotalPreorder compareTerms) (hr : Addr) (m : Addr → Term) {l : Term}
    {hds : List Term} (hl : PartialList l hds termNil) :
    (∃ a out, msort compareTerms hr m l = .succeeds a ∧ Lists a out ∧ Sorts compareTerms hds out) ∧
      ((∀ e ∈ hds, keyOf e ≠ none) →
        ∃ a out, keysort compareTerms hr m l = .succeeds a ∧ Lists a out ∧ Sorts (compareKeys compareTerms) hds out) ∧
      ∀ pt size myP m, 1 ≤ size → myP ≤ 1 →
        (∃ m', simpleMergesort compareTerms pt size myP m = some m' ∧
          Sorts compareTerms (lane m pt size) (lane m' (pt + myP) size) ∧ Keeps m m' pt (pt + 2 * size)) ∧
        ((∀ e ∈ lane m pt size, keyOf e ≠ none) → ∃ m', keyMergesort compareTerms pt size myP m = some m' ∧
          Sorts (compareKeys compareTerms) (lane m pt size) (lane m' (pt + myP) size) ∧
          Keeps m m' pt (pt + 2 * size)) := by
  refine ⟨?_, fun hkeys => ?_, fun pt size myP m hsize hp => ⟨?_, fun hkeys => ?_⟩⟩
  · obtain ⟨a, out, ha, hlists, hsorts⟩ := @sortWith_spec _ compareTerms (fun _ => True)
      (fun a b _ _ => rfl) hr m l hds hl (.inr fun _ _ => trivial)
    refine ⟨a, out, ?_, hlists, hsorts.sorts hcmp⟩
    have hrun : pMsort compareTerms hr m l = some a := ha
    rw [msort, hrun]
  · obtain ⟨a, out, ha, hlists, hsorts⟩ := sortWith_spec (fun a b => keyOrder_of_keys) hr m hl
      (.inr hkeys)
    refine ⟨a, out, ?_, hlists, hsorts.sorts (totalPreorder_keys hcmp)⟩
    exact checkList_some hl ha
  · obtain ⟨m', hm', hsorts, hkeeps⟩ := @mergesort_spec _ compareTerms _ (fun _ => True) (fun a b _ _ => rfl)
      pt size myP m hsize hp fun v _ => trivial
    exact ⟨m', hm', hsorts.sorts hcmp, hkeeps⟩
  · obtain ⟨m', hm', hsorts, hkeeps⟩ := mergesort_spec (fun a b => keyOrder_of_keys) hsize hp hkeys
    exact ⟨m', hm', hsorts.sorts (totalPreorder_keys hcmp), hkeeps⟩

/-- Tagged integers by their values, and all other terms before positive ones. -/
def rankOf : Term → ℤ
  | .int n => n.toInt
  | _ => 0

theorem msort_keysort_stable_two :
    ∃ a out, msort (fun a b => rankOf a - rankOf b) 8 (fun _ => termNil)
        (.pair 0 (.int 2) (.pair 2 (.int 1) termNil)) = .succeeds a ∧
      Lists a out ∧ Sorts (fun a b => rankOf a - rankOf b) [.int 2, .int 1] out :=
  (msort_keysort_stable (totalPreorder_sub rankOf) 8 (fun _ => termNil) (.cons 0 _ (.cons 2 _ (.tail _)))).1

-- ---------------------------------------------------------------------------
-- Distinct elements
-- ---------------------------------------------------------------------------

theorem distinct_short (hcmp : TotalPreorder compareTerms) {hds : List Term} (h : hds.length < 2) :
    Distinct compareTerms hds hds := by
  cases hds with
  | nil => exact distinct_nil
  | cons e hds =>
    obtain rfl : hds = [] := List.length_eq_zero_iff.mp (by simpa using h)
    exact distinct_singleton hcmp e

/-- A proper list is sorted without duplicates, and every call of the merge sort returns the number of cells that
hold its run. -/
theorem sort_distinct (hcmp : TotalPreorder compareTerms) (hr : Addr) (m : Addr → Term) {l : Term} {hds : List Term}
    (hl : PartialList l hds termNil) :
    (∃ a out, sort compareTerms hr m l = .succeeds a ∧ Lists a out ∧ Distinct compareTerms hds out ∧
      ((∀ b c, compareTerms b c = 0 → b = c) → ∀ e, e ∈ out ↔ e ∈ hds)) ∧
      ∀ pt size myP m, 1 ≤ size → myP ≤ 1 →
        ∃ out, Compact compareTerms m pt size myP out (compactMergesort compareTerms pt size myP m) := by
  refine ⟨?_, fun pt size myP m hsize hp => compactMergesort_spec hcmp hsize hp⟩
  suffices hsort : ∃ a out, pSort compareTerms hr m l = some a ∧ Lists a out ∧ Distinct compareTerms hds out by
    obtain ⟨a, out, ha, hlists, hdistinct⟩ := hsort
    refine ⟨a, out, checkList_some hl ha, hlists, hdistinct, fun heq e => ⟨hdistinct.from_list e, fun he => ?_⟩⟩
    obtain ⟨b, hb, hzero⟩ := hdistinct.complete e he
    exact heq e b hzero ▸ hb
  obtain ⟨hcount, hcells⟩ := buildNewList_proper hl hr m
  by_cases hshort : hds.length < 2
  · refine ⟨(.term l, fun p => .term ((buildNewList hr l m).2 p)), hds, ?_, ⟨l, .term l, hl⟩, distinct_short hcmp hshort⟩
    unfold pSort
    simp only [hcount]
    rw [if_neg (by omega), if_pos (by omega)]
  · obtain ⟨out, hdistinct, hsize, hout, -⟩ := @compactMergesort_spec _ _ hcmp hr hds.length 0
      (buildNewList hr l m).2 (by omega) (Nat.zero_le 1)
    rw [hcells] at hdistinct
    have hpos : 1 ≤ out.length := by
      obtain ⟨e, he⟩ := List.exists_mem_of_length_pos (by omega : 0 < hds.length)
      obtain ⟨b, hb, -⟩ := hdistinct.complete e he
      exact List.length_pos_of_mem hb
    have hlists := @adjustVector_spec hr _ (compactMergesort compareTerms hr hds.length 0 (buildNewList hr l m).2).2 hpos
    have hout' : lane (compactMergesort compareTerms hr hds.length 0 (buildNewList hr l m).2).2 hr out.length = out := hout
    rw [hout'] at hlists
    refine ⟨(.absPair hr, adjustVector hr out.length _), out, ?_, ⟨_, hlists, partialList_listAt _ _ _⟩, hdistinct⟩
    unfold pSort
    simp only [hcount, Int.toNat_natCast, hsize]
    rw [if_neg (by omega), if_neg (by omega)]

theorem sort_distinct_two :
    ∃ a out, sort (fun a b => rankOf a - rankOf b) 8 (fun _ => termNil)
        (.pair 0 (.int 2) (.pair 2 (.int 2) termNil)) = .succeeds a ∧
      Lists a out ∧ Distinct (fun a b => rankOf a - rankOf b) [.int 2, .int 2] out ∧
      ((∀ b c, rankOf b - rankOf c = 0 → b = c) → ∀ e, e ∈ out ↔ e ∈ [Term.int 2, .int 2]) :=
  (sort_distinct (totalPreorder_sub rankOf) 8 (fun _ => termNil) (.cons 0 _ (.cons 2 _ (.tail _)))).1

-- ---------------------------------------------------------------------------
-- The arguments of keysort/2
-- ---------------------------------------------------------------------------

/-- The call succeeds on the proper lists of pairs with keys, and what it returns is a rearrangement of the list. -/
def KeysortRight (compareTerms : Term → Term → ℤ) (hr : Addr) (m : Addr → Term) (l : Term) : Prop :=
  ((∃ a, keysort compareTerms hr m l = .succeeds a) ↔ ∃ hds, PartialList l hds termNil ∧ ∀ e ∈ hds, keyOf e ≠ none) ∧
    ∀ a, keysort compareTerms hr m l = .succeeds a →
      ∃ hds out, PartialList l hds termNil ∧ Lists a out ∧ Rearranges (compareKeys compareTerms) hds out

theorem partialList_unique {t tail tail' : Term} {hds hds' : List Term} (h : PartialList t hds tail)
    (h' : PartialList t hds' tail') (htail : isPairTerm tail = false) (htail' : isPairTerm tail' = false) :
    hds = hds' ∧ tail = tail' := by
  induction h generalizing hds' with
  | tail t =>
    cases h' with
    | tail => exact ⟨rfl, rfl⟩
    | cons => cases htail
  | cons p hd htl ih =>
    cases h' with
    | tail => cases htail'
    | cons _ _ htl' =>
      obtain ⟨rfl, rfl⟩ := ih htl' htail
      exact ⟨rfl, rfl⟩

theorem checkList_improper (goal : Term → Option Answer) {l tail : Term} {hds : List Term} (hl : PartialList l hds tail)
    (htail : isPairTerm tail = false) (hne : tail ≠ termNil) (a : Answer) : checkList goal l ≠ .succeeds a := by
  have hskip : (skipList l).2 = tail := by rw [skipList_spec hl htail]
  rw [checkList, if_neg (hskip ▸ hne)]
  split <;> exact fun h => by cases h

/-- A list of two or more elements is refused when one of them has no key. -/
theorem keysort_long {hr : Addr} {m : Addr → Term} {l : Term} {hds : List Term} (hl : PartialList l hds termNil)
    (hlong : 2 ≤ hds.length) (hbad : ∃ e ∈ hds, ¬ keyOf e ≠ none) : keysort compareTerms hr m l = .fails := by
  obtain ⟨m1, hcells, hrun⟩ := sortWith_long (keyMergesort compareTerms) hr m hl hlong
  have hnone : keyMergesort compareTerms hr hds.length 0 m1 = none :=
    mergesort_none (fun a b => keyOrder_of_keys) (fun a b => keyOrder_none) hlong (Nat.zero_le 1) (by rwa [hcells])
  refine checkList_none hl ?_
  rw [pKsort, hrun, hnone, Option.map_none]

/-- The call does what it should on all arguments but lists of one element without a key, which it returns. -/
theorem keysort_right_iff (compareTerms : Term → Term → ℤ) (hr : Addr) (m : Addr → Term) (l : Term) :
    KeysortRight compareTerms hr m l ↔ ¬ ∃ e, PartialList l [e] termNil ∧ keyOf e = none := by
  obtain ⟨hds, tail, hl, htail⟩ := exists_partialList l
  by_cases hnil : tail = termNil
  · subst hnil
    have helements : ∀ hds', PartialList l hds' termNil → hds' = hds := fun hds' h' =>
      (partialList_unique h' hl rfl rfl).1
    by_cases hkeys : ∀ e ∈ hds, keyOf e ≠ none
    · have hkeyed : ∀ a b, keyOf a ≠ none → keyOf b ≠ none →
          keyOrder compareTerms a b = some (compareKeys compareTerms a b) := fun a b => keyOrder_of_keys
      obtain ⟨a, out, ha, hlists, hsorts⟩ := sortWith_spec hkeyed hr m hl (.inr hkeys)
      have hrun : keysort compareTerms hr m l = .succeeds a := checkList_some hl ha
      refine iff_of_true ⟨iff_of_true ⟨a, hrun⟩ ⟨hds, hl, hkeys⟩, fun a' ha' => ?_⟩ ?_
      · obtain rfl : a = a' := by simpa using hrun.symm.trans ha'
        exact ⟨hds, out, hl, hlists, hsorts⟩
      · rintro ⟨e, he, hnone⟩
        obtain rfl := helements [e] he
        exact hkeys e List.mem_cons_self hnone
    · push Not at hkeys
      obtain ⟨e, he, hnone⟩ := hkeys
      have hnot : ¬ ∃ hds', PartialList l hds' termNil ∧ ∀ e ∈ hds', keyOf e ≠ none := by
        rintro ⟨hds', h', hkeys⟩
        obtain rfl := helements hds' h'
        exact hkeys e he hnone
      by_cases hshort : hds.length < 2
      · -- one element: it is returned without a look at its functor
        have hone : hds = [e] := by
          cases hds with
          | nil => cases he
          | cons e' hds =>
            obtain rfl : hds = [] := List.length_eq_zero_iff.mp (by simpa using hshort)
            rw [List.mem_singleton.mp he]
        obtain ⟨a, ha, -⟩ := sortWith_short (keyMergesort compareTerms) hr m hl hshort
        refine iff_of_false (fun h => hnot (h.1.mp ⟨a, checkList_some hl ha⟩)) fun h => h ⟨e, hone ▸ hl, hnone⟩
      · have hfails : keysort compareTerms hr m l = .fails :=
          keysort_long hl (not_lt.mp hshort) ⟨e, he, fun h => h hnone⟩
        refine iff_of_true ⟨iff_of_false ?_ hnot, fun a ha => ?_⟩ ?_
        · rintro ⟨a, ha⟩
          cases hfails.symm.trans ha
        · cases hfails.symm.trans ha
        · rintro ⟨e', he', -⟩
          obtain rfl := helements [e'] he'
          exact hshort (by simp)
  · have hnever := checkList_improper (pKsort compareTerms hr m) hl htail hnil
    have hnot : ∀ hds', ¬ PartialList l hds' termNil := fun hds' h' =>
      hnil (partialList_unique h' hl rfl htail).2.symm
    refine iff_of_true ⟨iff_of_false ?_ ?_, fun a ha => absurd ha (hnever a)⟩ fun h => ?_
    · rintro ⟨a, ha⟩
      exact hnever a ha
    · rintro ⟨hds', h', -⟩
      exact hnot hds' h'
    · obtain ⟨e, he, -⟩ := h
      exact hnot [e] he

/-- A list with one atom is returned. -/
theorem not_keysort_right : ¬ ∀ (compareTerms : Term → Term → ℤ) (hr : Addr) (m : Addr → Term) (l : Term),
    KeysortRight compareTerms hr m l := by
  intro h
  have hlist : PartialList (.pair 0 (.atom atomMinus) termNil) [.atom atomMinus] termNil := .cons 0 _ (.tail _)
  have hcall : keysort (fun _ _ => 0) 8 (fun _ => termNil) (.pair 0 (.atom atomMinus) termNil) =
      .succeeds (.term (.pair 0 (.atom atomMinus) termNil), fun p =>
        .term (store (fun _ => termNil) 8 (.atom atomMinus) p)) := by
    refine checkList_some hlist ?_
    rfl
  obtain ⟨hds, hl, hkeys⟩ := (h (fun _ _ => 0) 8 (fun _ => termNil) _).1.mp ⟨_, hcall⟩
  obtain rfl := (partialList_unique hl hlist rfl rfl).1
  exact hkeys _ List.mem_cons_self rfl

end Sorting

end Yap
