-- SUMMARY: The merge sorts in the vector: each leaves a stable sort, or the distinct elements, in the lane its caller asks for and nothing outside its cells changes.
import Yap.Base.StableSort
import Yap.Sorting.Code

/-!
# The merge sorts

A call sorts the even cells from `pt` on into the lane `my_p`. The left half is
sorted into the other lane and the right half into the same one, where the merge
overwrites only cells whose elements it has read.
-/

namespace Yap

namespace Sorting

open Lanes StableSort

variable {γ : Type*} {cmp : γ → γ → ℤ}

theorem xor_one {myP : ℕ} (h : myP ≤ 1) : myP ^^^ 1 = 1 - myP := by
  interval_cases myP <;> rfl

-- ---------------------------------------------------------------------------
-- Merges
-- ---------------------------------------------------------------------------

section Stable

variable {order : γ → γ → Option ℤ} {good : γ → Prop}

/-- The memory when the loop has ended and the rest of the left half is copied. -/
def merged (endLeft : ℕ) (s : (ℕ → γ) × ℕ × ℕ × ℕ) : ℕ → γ := (copyLoop endLeft s.1 s.2.1 s.2.2.1).1

theorem mergeLoop_spec (horder : ∀ a b, good a → good b → order a b = some (cmp a b))
    {endLeft endRight pt l r nl nr : ℕ} {m : ℕ → γ}
    (hl : endLeft ≤ l + 2 * nl) (hl' : l + 2 * nl ≤ endLeft + 1) (hr : endRight ≤ r + 2 * nr)
    (hr' : r + 2 * nr ≤ endRight + 1) (hlanes : (pt + l) % 2 = 1) (hpt : pt + 2 * nl = r)
    (hgl : ∀ v ∈ lane m l nl, good v) (hgr : ∀ v ∈ lane m r nr, good v) :
    ∃ s, mergeLoop order endLeft endRight m pt l r = some s ∧
      lane (merged endLeft s) pt (nl + nr) = List.merge (lane m l nl) (lane m r nr) (before cmp) ∧
      Keeps m (merged endLeft s) pt (pt + 2 * (nl + nr) - 1) := by
  induction hn : nl + nr generalizing m pt l r nl nr with
  | zero =>
    obtain ⟨rfl, rfl⟩ : nl = 0 ∧ nr = 0 := by omega
    rw [mergeLoop, if_neg (by omega)]
    refine ⟨_, rfl, (List.nil_merge _).symm, ?_⟩
    exact (copyLoop_spec (n := 0) (by omega) (by omega) (.inl hlanes)).2.2
  | succ n ih =>
    cases nl with
    | zero =>
      -- only the right half is left, and it is in its place
      obtain rfl : nr = n + 1 := by omega
      rw [mergeLoop, if_neg (by omega)]
      obtain ⟨-, -, hkeeps⟩ := copyLoop_spec (m := m) (n := 0) (by omega) (by omega) (.inl hlanes)
      refine ⟨_, rfl, ?_, hkeeps.mono le_rfl (by omega)⟩
      obtain rfl : pt = r := by omega
      rw [merged, lane, List.nil_merge]
      exact hkeeps.lane (.inr (by omega))
    | succ nl =>
      cases nr with
      | zero =>
        rw [mergeLoop, if_neg (by omega)]
        obtain ⟨hlane, -, hkeeps⟩ := copyLoop_spec (m := m) (n := nl + 1) (by omega) (by omega) (.inl hlanes)
        obtain rfl : n = nl := by omega
        exact ⟨_, rfl, by rw [merged, hlane, lane, lane, List.merge_right], hkeeps⟩
      | succ nr =>
        rw [lane] at hgl hgr
        obtain ⟨hgl0, hgl⟩ := List.forall_mem_cons.mp hgl
        obtain ⟨hgr0, hgr⟩ := List.forall_mem_cons.mp hgr
        rw [mergeLoop, if_pos (by omega), horder _ _ hgl0 hgr0, Option.bind_some]
        by_cases hle : cmp (m l) (m r) ≤ 0
        · have hleft : lane (store m pt (m l)) (l + 2) nl = lane m (l + 2) nl := lane_store fun i _ => by omega
          have hright : lane (store m pt (m l)) r (nr + 1) = lane m r (nr + 1) := lane_store fun i _ => by omega
          obtain ⟨s, hs, hlane, hkeeps⟩ := @ih (pt + 2) (l + 2) r nl (nr + 1) (store m pt (m l))
            (by omega) (by omega) (by omega) (by omega) (by omega) (by omega)
            (hleft ▸ hgl) (by rw [hright, lane]; exact List.forall_mem_cons.mpr ⟨hgr0, hgr⟩) (by omega)
          refine ⟨s, by rw [if_pos hle]; exact hs, ?_, ?_⟩
          · have hfirst := hkeeps pt (by omega)
            rw [store_self] at hfirst
            rw [lane, lane, lane, List.cons_merge_cons_pos _ _ _ (before_iff.mpr hle), hfirst, hlane, hleft, hright, lane]
          · exact (keeps_store le_rfl (Nat.lt_succ_self pt)).trans hkeeps le_rfl (by omega) (by omega) (by omega)
        · have hleft : lane (store m pt (m r)) l (nl + 1) = lane m l (nl + 1) := lane_store fun i _ => by omega
          have hright : lane (store m pt (m r)) (r + 2) nr = lane m (r + 2) nr := lane_store fun i _ => by omega
          obtain ⟨s, hs, hlane, hkeeps⟩ := @ih (pt + 2) l (r + 2) (nl + 1) nr (store m pt (m r))
            (by omega) (by omega) (by omega) (by omega) (by omega) (by omega)
            (by rw [hleft, lane]; exact List.forall_mem_cons.mpr ⟨hgl0, hgl⟩) (hright ▸ hgr) (by omega)
          refine ⟨s, by rw [if_neg hle]; exact hs, ?_, ?_⟩
          · have hfirst := hkeeps pt (by omega)
            rw [store_self] at hfirst
            rw [lane, lane, lane, List.cons_merge_cons_neg _ _ _ (mt before_iff.mp hle), hfirst, hlane, hleft, hright, lane]
          · exact (keeps_store le_rfl (Nat.lt_succ_self pt)).trans hkeeps le_rfl (by omega) (by omega) (by omega)

-- ---------------------------------------------------------------------------
-- Sorts
-- ---------------------------------------------------------------------------

theorem mergesort_large {pt size myP : ℕ} {m : ℕ → γ} (h : 2 < size) :
    mergesort order pt size myP m =
      (mergesort order pt (size / 2) (myP ^^^ 1) m).bind fun m1 =>
        (mergesort order (pt + 2 * (size / 2)) (size - size / 2) myP m1).bind fun m2 =>
          (mergeLoop order (pt + 2 * (size / 2)) (pt + 2 * size) m2 (pt + myP) (pt + (myP ^^^ 1))
            (pt + 2 * (size / 2) + myP)).map (merged (pt + 2 * (size / 2))) := by
  rw [mergesort, if_pos h]
  simp only [ne_eq, not_true_eq_false, if_false, Nat.mul_comm (size / 2) 2]
  rfl

theorem mergesort_one (order : γ → γ → Option ℤ) (pt : ℕ) (m : ℕ → γ) {myP : ℕ} (hp : myP ≤ 1) :
    ∃ m', mergesort order pt 1 myP m = some m' ∧ lane m' (pt + myP) 1 = lane m pt 1 ∧ Keeps m m' pt (pt + 2) := by
  refine ⟨_, by rw [mergesort, if_neg (by omega), if_neg (by omega)], ?_⟩
  cases Nat.le_one_iff_eq_zero_or_eq_one.mp hp with
  | inl h => exact ⟨by simp [h], by simpa [h] using Keeps.refl m _ _⟩
  | inr h => exact ⟨by simp [h, lane], by simpa [h] using keeps_store (Nat.le_succ pt) (Nat.lt_succ_self _)⟩

/-- A rearrangement, and a stable sort when the comparison is a total preorder. -/
structure Rearranges (cmp : γ → γ → ℤ) (l out : List γ) : Prop where
  perm : out.Perm l
  sorts : TotalPreorder cmp → Sorts cmp l out

theorem mergesort_two {pt myP : ℕ} {m : ℕ → γ} (hp : myP ≤ 1)
    (horder : order (m pt) (m (pt + 2)) = some (cmp (m pt) (m (pt + 2)))) :
    ∃ m', mergesort order pt 2 myP m = some m' ∧ Rearranges cmp (lane m pt 2) (lane m' (pt + myP) 2) ∧
      Keeps m m' pt (pt + 4) := by
  have hrun : mergesort order pt 2 myP m = some (if 0 < cmp (m pt) (m (pt + 2)) then
      store (store m (pt + 2 + myP) (m pt)) (pt + myP) (m (pt + 2))
      else if myP ≠ 0 then store (store m (pt + 1) (m pt)) (pt + 3) (m (pt + 2)) else m) := by
    rw [mergesort, if_neg (by omega), if_pos (by omega), horder]
    rfl
  refine ⟨_, hrun, ?_⟩
  by_cases hlt : 0 < cmp (m pt) (m (pt + 2))
  · rw [if_pos hlt]
    refine ⟨?_, (keeps_store (by omega) (by omega)).trans (keeps_store (p := pt) (q := pt + 4) (by omega) (by omega))
      le_rfl le_rfl le_rfl le_rfl⟩
    have hsecond : pt + myP + 2 ≠ pt + myP := by omega
    have hcomm : pt + myP + 2 = pt + 2 + myP := by omega
    simp only [lane, store_self, store_of_ne hsecond]
    rw [hcomm, store_self]
    exact ⟨.swap _ _ [], fun hcmp => sorts_swap hcmp hlt⟩
  · rw [if_neg hlt]
    have hsorts : Rearranges cmp [m pt, m (pt + 2)] [m pt, m (pt + 2)] :=
      ⟨.refl _, fun _ => sorts_pair (not_lt.mp hlt)⟩
    cases Nat.le_one_iff_eq_zero_or_eq_one.mp hp with
    | inl h => exact ⟨by simpa [h, lane] using hsorts, by simpa [h] using Keeps.refl m _ _⟩
    | inr h =>
      subst h
      rw [if_pos one_ne_zero]
      refine ⟨?_, (keeps_store (by omega) (by omega)).trans (keeps_store (p := pt) (q := pt + 4) (by omega) (by omega))
        le_rfl le_rfl le_rfl le_rfl⟩
      simp only [lane, store_self, store_of_ne (show pt + 1 ≠ pt + 3 by omega)]
      exact hsorts

theorem mergesort_spec (horder : ∀ a b, good a → good b → order a b = some (cmp a b))
    {pt size myP : ℕ} {m : ℕ → γ} (hsize : 1 ≤ size) (hp : myP ≤ 1) (hgood : ∀ v ∈ lane m pt size, good v) :
    ∃ m', mergesort order pt size myP m = some m' ∧ Rearranges cmp (lane m pt size) (lane m' (pt + myP) size) ∧
      Keeps m m' pt (pt + 2 * size) := by
  induction size using Nat.strong_induction_on generalizing pt myP m with
  | _ size ih =>
    obtain rfl | rfl | hlarge : size = 1 ∨ size = 2 ∨ 2 < size := by omega
    · obtain ⟨m', hm', hlane, hkeeps⟩ := mergesort_one order pt m hp
      exact ⟨m', hm', hlane ▸ ⟨.refl _, fun _ => sorts_singleton _⟩, hkeeps⟩
    · refine mergesort_two hp (horder _ _ (hgood _ ?_) (hgood _ ?_)) <;> simp [lane]
    · have hhalf : size = size / 2 + (size - size / 2) := by omega
      have hsplit := lane_append m pt (size / 2) (size - size / 2)
      rw [← hhalf] at hsplit
      rw [hsplit] at hgood
      obtain ⟨hgoodl, hgoodr⟩ := List.forall_mem_append.mp hgood
      obtain ⟨m1, hm1, hsorts1, hkeeps1⟩ := @ih (size / 2) (by omega) pt (myP ^^^ 1) m (by omega)
        (by rw [xor_one hp]; omega) hgoodl
      have hright : lane m1 (pt + 2 * (size / 2)) (size - size / 2) = lane m (pt + 2 * (size / 2)) (size - size / 2) :=
        hkeeps1.lane (.inr le_rfl)
      obtain ⟨m2, hm2, hsorts2, hkeeps2⟩ := @ih (size - size / 2) (by omega) (pt + 2 * (size / 2)) myP m1
        (by omega) hp (hright ▸ hgoodr)
      have hleft : lane m2 (pt + (myP ^^^ 1)) (size / 2) = lane m1 (pt + (myP ^^^ 1)) (size / 2) :=
        hkeeps2.lane (.inl (by rw [xor_one hp]; omega))
      rw [← hleft] at hsorts1
      rw [hright] at hsorts2
      obtain ⟨s, hs, hlane, hkeeps⟩ := @mergeLoop_spec _ cmp order good horder (pt + 2 * (size / 2)) (pt + 2 * size)
        (pt + myP) (pt + (myP ^^^ 1)) (pt + 2 * (size / 2) + myP) (size / 2) (size - size / 2) m2
        (by omega) (by rw [xor_one hp]; omega) (by omega) (by omega) (by rw [xor_one hp]; omega) (by omega)
        (fun v hv => hgoodl v (hsorts1.perm.mem_iff.mp hv)) (fun v hv => hgoodr v (hsorts2.perm.mem_iff.mp hv))
      rw [← hhalf] at hlane hkeeps
      refine ⟨merged (pt + 2 * (size / 2)) s, ?_, ?_, ?_⟩
      · rw [mergesort_large hlarge, hm1, Option.bind_some, hm2, Option.bind_some, hs, Option.map_some]
      · rw [hsplit, hlane]
        exact ⟨(List.merge_perm_append (before cmp)).trans (hsorts1.perm.append hsorts2.perm),
          fun hcmp => (hsorts1.sorts hcmp).merge hcmp (hsorts2.sorts hcmp)⟩
      · have hkeeps12 := hkeeps1.trans hkeeps2 (a := pt) (b := pt + 2 * size) le_rfl (by omega) (by omega) (by omega)
        exact hkeeps12.trans hkeeps le_rfl le_rfl (by omega) (by omega)

/-- Of two or more elements each is compared, so the sort fails on one that cannot be. -/
theorem mergesort_none (horder : ∀ a b, good a → good b → order a b = some (cmp a b))
    (hfail : ∀ a b, ¬ (good a ∧ good b) → order a b = none) {pt size myP : ℕ} {m : ℕ → γ} (hsize : 2 ≤ size)
    (hp : myP ≤ 1) (hbad : ∃ v ∈ lane m pt size, ¬ good v) : mergesort order pt size myP m = none := by
  induction size using Nat.strong_induction_on generalizing pt myP m with
  | _ size ih =>
    have hxor : myP ^^^ 1 ≤ 1 := by rw [xor_one hp]; omega
    obtain rfl | hlarge : size = 2 ∨ 2 < size := by omega
    · have hnone : order (m pt) (m (pt + 2)) = none := by
        refine hfail _ _ fun hgood => ?_
        obtain ⟨v, hv, hnot⟩ := hbad
        simp only [lane, List.mem_cons, List.not_mem_nil, or_false] at hv
        obtain rfl | rfl := hv
        · exact hnot hgood.1
        · exact hnot hgood.2
      rw [mergesort, if_neg (by omega), if_pos (by omega), hnone, Option.map_none]
    · have hhalf : size = size / 2 + (size - size / 2) := by omega
      have hsplit := lane_append m pt (size / 2) (size - size / 2)
      rw [← hhalf] at hsplit
      rw [mergesort_large hlarge]
      -- whatever sorts the left half leaves the right one to the second call
      have hright : ∀ m1, Keeps m m1 pt (pt + 2 * (size / 2)) →
          (∃ v ∈ lane m (pt + 2 * (size / 2)) (size - size / 2), ¬ good v) →
          mergesort order (pt + 2 * (size / 2)) (size - size / 2) myP m1 = none := by
        intro m1 hkeeps hbad
        refine @ih _ (by omega) _ myP m1 (by omega) hp ?_
        rwa [hkeeps.lane (.inr le_rfl)]
      by_cases hl : ∀ v ∈ lane m pt (size / 2), good v
      · obtain ⟨m1, hm1, -, hkeeps1⟩ := mergesort_spec (m := m) horder (by omega) hxor hl
        have hbadr : ∃ v ∈ lane m (pt + 2 * (size / 2)) (size - size / 2), ¬ good v := by
          obtain ⟨v, hv, hnot⟩ := hbad
          rw [hsplit] at hv
          exact ⟨v, (List.mem_append.mp hv).resolve_left fun hv => hnot (hl v hv), hnot⟩
        rw [hm1, Option.bind_some, hright m1 hkeeps1 hbadr, Option.bind_none]
      · push Not at hl
        obtain hone | htwo : size / 2 = 1 ∨ 2 ≤ size / 2 := by omega
        · rw [hone] at hl hright ⊢
          obtain ⟨m1, hm1, hlane1, hkeeps1⟩ := mergesort_one order pt m hxor
          rw [hm1, Option.bind_some]
          by_cases hr : ∀ v ∈ lane m (pt + 2 * 1) (size - 1), good v
          · -- the only element of the left half is compared when the halves are merged
            have hlane := hkeeps1.lane (a := pt + 2 * 1) (n := size - 1) (.inr le_rfl)
            obtain ⟨m2, hm2, -, hkeeps2⟩ := mergesort_spec (m := m1) horder (by omega) hp (hlane ▸ hr)
            obtain ⟨v, hv, hnot⟩ := hl
            have hhead : m2 (pt + (myP ^^^ 1)) = v := by
              rw [hkeeps2 _ (by omega)]
              rw [← hlane1] at hv
              have hv' : v = m1 (pt + (myP ^^^ 1)) := by simpa [lane] using hv
              exact hv'.symm
            rw [hm2, Option.bind_some, mergeLoop, if_pos (by omega), hhead, hfail _ _ fun hgood => hnot hgood.1]
            rfl
          · push Not at hr
            rw [hright m1 hkeeps1 hr, Option.bind_none]
        · rw [@ih (size / 2) (by omega) pt (myP ^^^ 1) m htwo hxor hl, Option.bind_none]

end Stable

-- ---------------------------------------------------------------------------
-- The sort without duplicates
-- ---------------------------------------------------------------------------

/-- The size and the memory when the loop has ended and the rests of both halves are copied. -/
def compacted (endLeft endRight : ℕ) (s : ℕ × (ℕ → γ) × ℕ × ℕ × ℕ) : ℕ × (ℕ → γ) :=
  let left := copyLoop endLeft s.2.1 s.2.2.1 s.2.2.2.1
  let right := copyLoop endRight left.1 (s.2.2.1 + 2 * left.2) s.2.2.2.2
  (s.1 + left.2 + right.2, right.1)

/-- A result of the sort: the cells from the position on hold a list, whose length is the size. -/
structure Holds (m : ℕ → γ) (pt : ℕ) (out : List γ) (size : ℕ) (r : ℕ × (ℕ → γ)) : Prop where
  size : r.1 = size + out.length
  cells : lane r.2 pt out.length = out
  keeps : Keeps m r.2 pt (pt + 2 * out.length - 1)

theorem Holds.cons {m : ℕ → γ} {pt size : ℕ} {v : γ} {out : List γ} {r : ℕ × (ℕ → γ)}
    (h : Holds (store m pt v) (pt + 2) out (size + 1) r) : Holds m pt (v :: out) size r where
  size := by rw [h.size, List.length_cons]; omega
  cells := by
    have hfirst := h.keeps pt (by omega)
    rw [store_self] at hfirst
    rw [List.length_cons, lane, hfirst, h.cells]
  keeps := by
    rw [List.length_cons]
    exact (keeps_store le_rfl (Nat.lt_succ_self pt)).trans h.keeps le_rfl (by omega) (by omega) (by omega)

/-- The rests of both halves, one after the other. -/
theorem holds_compacted {endLeft endRight pt l r nl nr : ℕ} (size : ℕ) (m : ℕ → γ) (hl : endLeft ≤ l + 2 * nl)
    (hl' : l + 2 * nl ≤ endLeft + 1) (hr : endRight = r + 2 * nr) (hlanes : (pt + l) % 2 = 1)
    (hpt : pt + 2 * nl ≤ r) :
    Holds m pt (lane m l nl ++ lane m r nr) size (compacted endLeft endRight (size, m, pt, l, r)) := by
  obtain ⟨hlane, hcount, hkeeps⟩ := copyLoop_spec (m := m) hl hl' (.inl hlanes)
  obtain ⟨hlane', hcount', hkeeps'⟩ := copyLoop_spec (m := (copyLoop endLeft m pt l).1) (n := nr) hr.le (by omega) (.inr hpt)
  have hlength : (lane m l nl ++ lane m r nr).length = nl + nr := by simp
  unfold compacted
  simp only [hcount]
  refine ⟨by simp only [hcount', hlength]; omega, ?_, ?_⟩
  · rw [hlength, lane_append, hlane', hkeeps.lane (.inr (by omega)), hkeeps'.lane (.inl (by omega)), hlane]
  · rw [hlength]
    exact hkeeps.trans hkeeps' le_rfl (by omega) (by omega) (by omega)

theorem compactLoop_spec {endLeft endRight size pt l r nl nr : ℕ} {m : ℕ → γ} (hl : endLeft ≤ l + 2 * nl)
    (hl' : l + 2 * nl ≤ endLeft + 1) (hr : endRight = r + 2 * nr) (hlanes : (pt + l) % 2 = 1) (hpar : (pt + r) % 2 = 0)
    (hpt : pt + 2 * nl ≤ r) :
    Holds m pt (mergeDistinct cmp (lane m l nl) (lane m r nr)) size
      (compacted endLeft endRight (compactLoop cmp endLeft endRight m size pt l r)) := by
  induction hn : nl + nr generalizing m size pt l r nl nr with
  | zero =>
    obtain ⟨rfl, rfl⟩ : nl = 0 ∧ nr = 0 := by omega
    rw [compactLoop, if_neg (by omega), lane, mergeDistinct_nil]
    exact holds_compacted size m hl hl' hr hlanes hpt
  | succ n ih =>
    cases nl with
    | zero =>
      rw [compactLoop, if_neg (by omega), lane, mergeDistinct_nil]
      exact holds_compacted size m hl hl' hr hlanes hpt
    | succ nl =>
      cases nr with
      | zero =>
        have hrest := holds_compacted size m hl hl' hr hlanes hpt
        rw [compactLoop, if_neg (by omega), lane, lane, mergeDistinct]
        · simpa [lane] using hrest
        · exact List.cons_ne_nil _ _
      | succ nr =>
        rw [compactLoop, if_pos (by omega), lane, lane, mergeDistinct]
        by_cases hlt : cmp (m l) (m r) < 0
        · have hleft : lane (store m pt (m l)) (l + 2) nl = lane m (l + 2) nl := lane_store fun i _ => by omega
          have hright : lane (store m pt (m l)) r (nr + 1) = lane m r (nr + 1) := lane_store fun i _ => by omega
          have hrest := @ih (size + 1) (pt + 2) (l + 2) r nl (nr + 1) (store m pt (m l)) (by omega)
            (by omega) (by omega) (by omega) (by omega) (by omega) (by omega)
          rw [hleft, hright, lane] at hrest
          rw [if_pos hlt, if_pos hlt]
          exact hrest.cons
        · rw [if_neg hlt, if_neg hlt]
          by_cases heq : cmp (m l) (m r) = 0
          · rw [if_pos heq, if_pos heq]
            exact @ih size pt (l + 2) r nl (nr + 1) m (by omega) (by omega) (by omega) (by omega) (by omega) (by omega)
              (by omega)
          · have hleft : lane (store m pt (m r)) l (nl + 1) = lane m l (nl + 1) := lane_store fun i _ => by omega
            have hright : lane (store m pt (m r)) (r + 2) nr = lane m (r + 2) nr := lane_store fun i _ => by omega
            have hrest := @ih (size + 1) (pt + 2) l (r + 2) (nl + 1) nr (store m pt (m r)) (by omega)
              (by omega) (by omega) (by omega) (by omega) (by omega) (by omega)
            rw [hleft, hright, lane] at hrest
            rw [if_neg heq, if_neg heq]
            exact hrest.cons

theorem compactMergesort_large {pt size myP : ℕ} {m : ℕ → γ} (h : 2 < size) {l r : ℕ × (ℕ → γ)}
    (hl : compactMergesort cmp pt (size / 2) (myP ^^^ 1) m = l)
    (hr : compactMergesort cmp (pt + 2 * (size / 2)) (size - size / 2) myP l.2 = r) :
    compactMergesort cmp pt size myP m =
      compacted (pt + 2 * l.1) (pt + 2 * (size / 2) + myP + 2 * r.1)
        (compactLoop cmp (pt + 2 * l.1) (pt + 2 * (size / 2) + myP + 2 * r.1) r.2 0 (pt + myP) (pt + (myP ^^^ 1))
          (pt + 2 * (size / 2) + myP)) := by
  subst hl
  rw [compactMergesort, if_pos h]
  simp only [Nat.mul_comm (size / 2) 2, hr]
  rfl

/-- What a call returns: the size and the lane of the list of its distinct elements. -/
structure Compact (cmp : γ → γ → ℤ) (m : ℕ → γ) (pt size myP : ℕ) (out : List γ) (r : ℕ × (ℕ → γ)) : Prop where
  distinct : Distinct cmp (lane m pt size) out
  count : r.1 = out.length
  cells : lane r.2 (pt + myP) out.length = out
  keeps : Keeps m r.2 pt (pt + 2 * size)

theorem compactMergesort_one (hcmp : TotalPreorder cmp) {pt myP : ℕ} {m : ℕ → γ} (hp : myP ≤ 1) :
    ∃ out, Compact cmp m pt 1 myP out (compactMergesort cmp pt 1 myP m) := by
  rw [compactMergesort, if_neg (by omega), if_neg (by omega)]
  have hdistinct := distinct_singleton hcmp (m pt)
  cases Nat.le_one_iff_eq_zero_or_eq_one.mp hp with
  | inl h => exact ⟨_, hdistinct, rfl, by simp [h, lane], by simpa [h] using Keeps.refl m _ _⟩
  | inr h => exact ⟨_, hdistinct, rfl, by simp [h, lane], by simpa [h] using keeps_store (Nat.le_succ pt) (by omega)⟩

/-- Two elements, of which equal ones count once. -/
theorem compactMergesort_two (hcmp : TotalPreorder cmp) {pt myP : ℕ} {m : ℕ → γ} (hp : myP ≤ 1) :
    ∃ out, Compact cmp m pt 2 myP out (compactMergesort cmp pt 2 myP m) := by
  rw [compactMergesort, if_neg (by omega), if_pos rfl]
  by_cases hlt : 0 < cmp (m pt) (m (pt + 2))
  · rw [if_pos hlt]
    refine ⟨[m (pt + 2), m pt], distinct_swap hcmp hlt, rfl, ?_, (keeps_store (by omega) (by omega)).trans
      (keeps_store (p := pt) (q := pt + 4) (by omega) (by omega)) le_rfl le_rfl le_rfl le_rfl⟩
    have hsecond : pt + myP + 2 ≠ pt + myP := by omega
    have hcomm : pt + myP + 2 = pt + 2 + myP := by omega
    simp only [List.length_cons, List.length_nil, lane, store_self, store_of_ne hsecond]
    rw [hcomm, store_self]
  · rw [if_neg hlt]
    by_cases heq : cmp (m pt) (m (pt + 2)) = 0
    · rw [if_pos heq]
      have hdistinct := distinct_equal hcmp heq
      cases Nat.le_one_iff_eq_zero_or_eq_one.mp hp with
      | inl h => exact ⟨_, hdistinct, rfl, by simp [h, lane], by simpa [h] using Keeps.refl m _ _⟩
      | inr h => exact ⟨_, hdistinct, rfl, by simp [h, lane], by simpa [h] using keeps_store (Nat.le_succ pt) (by omega)⟩
    · rw [if_neg heq]
      have hdistinct := distinct_pair hcmp (lt_of_le_of_ne (not_lt.mp hlt) heq)
      cases Nat.le_one_iff_eq_zero_or_eq_one.mp hp with
      | inl h => exact ⟨_, hdistinct, rfl, by simp [h, lane], by simpa [h] using Keeps.refl m _ _⟩
      | inr h =>
        subst h
        refine ⟨_, hdistinct, rfl, ?_, (keeps_store (by omega) (by omega)).trans
          (keeps_store (p := pt) (q := pt + 4) (by omega) (by omega)) le_rfl le_rfl le_rfl le_rfl⟩
        simp [lane, store_of_ne (show pt + 1 ≠ pt + 3 by omega)]

/-- Every call leaves the distinct elements of its cells, in increasing order, in the lane it is asked for, and
returns their number. -/
theorem compactMergesort_spec (hcmp : TotalPreorder cmp) {pt size myP : ℕ} {m : ℕ → γ} (hsize : 1 ≤ size)
    (hp : myP ≤ 1) : ∃ out, Compact cmp m pt size myP out (compactMergesort cmp pt size myP m) := by
  induction size using Nat.strong_induction_on generalizing pt myP m with
  | _ size ih =>
    obtain rfl | rfl | hlarge : size = 1 ∨ size = 2 ∨ 2 < size := by omega
    · exact compactMergesort_one hcmp hp
    · exact compactMergesort_two hcmp hp
    · have hxor : myP ^^^ 1 ≤ 1 := by rw [xor_one hp]; omega
      have hhalf : size = size / 2 + (size - size / 2) := by omega
      have hsplit := lane_append m pt (size / 2) (size - size / 2)
      rw [← hhalf] at hsplit
      obtain ⟨outl, hl⟩ := @ih (size / 2) (by omega) pt (myP ^^^ 1) m (by omega) hxor
      generalize hrunl : compactMergesort cmp pt (size / 2) (myP ^^^ 1) m = l at hl
      obtain ⟨outr, hr⟩ := @ih (size - size / 2) (by omega) (pt + 2 * (size / 2)) myP l.2 (by omega) hp
      generalize hrunr : compactMergesort cmp (pt + 2 * (size / 2)) (size - size / 2) myP l.2 = r at hr
      -- the runs are no longer than their halves, so the merge stays behind what it reads
      have hlengthl : outl.length ≤ size / 2 := by simpa using hl.distinct.length_le hcmp
      have hlengthr : outr.length ≤ size - size / 2 := by simpa using hr.distinct.length_le hcmp
      have hcells : lane r.2 (pt + (myP ^^^ 1)) outl.length = outl := by
        rw [hr.keeps.lane (.inl (by rw [xor_one hp]; omega)), hl.cells]
      have hdistr : Distinct cmp (lane m (pt + 2 * (size / 2)) (size - size / 2)) outr := by
        rw [← hl.keeps.lane (a := pt + 2 * (size / 2)) (.inr le_rfl)]
        exact hr.distinct
      have hmerge := @compactLoop_spec _ cmp (pt + 2 * l.1) (pt + 2 * (size / 2) + myP + 2 * r.1) 0 (pt + myP)
        (pt + (myP ^^^ 1)) (pt + 2 * (size / 2) + myP) outl.length outr.length r.2 (by rw [hl.count]; omega)
        (by rw [hl.count, xor_one hp]; omega) (by rw [hr.count]) (by rw [xor_one hp]; omega) (by omega) (by omega)
      rw [hcells, hr.cells] at hmerge
      rw [compactMergesort_large hlarge hrunl hrunr]
      have hdistinct : Distinct cmp (lane m pt size) (mergeDistinct cmp outl outr) :=
        hsplit ▸ hl.distinct.merge hcmp hdistr
      have hlength : (mergeDistinct cmp outl outr).length ≤ size := by simpa using hdistinct.length_le hcmp
      refine ⟨_, hdistinct, by rw [hmerge.size, Nat.zero_add], hmerge.cells, ?_⟩
      have hkeeps := hl.keeps.trans hr.keeps (a := pt) (b := pt + 2 * size) le_rfl (by omega) (by omega) (by omega)
      exact hkeeps.trans hmerge.keeps le_rfl le_rfl (by omega) (by omega)

end Sorting

end Yap
