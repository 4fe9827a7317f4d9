-- SUMMARY: Numbers with a radix for each place: the digits of a number and the number of the digits, and choices and rearrangements of places.
import Mathlib

/-!
# Mixed radices

The first place counts the most. The digits below their radices and the numbers
below the product of the radices are in bijection.
-/

namespace MixedRadix

/-- The number of the digits. -/
def rank : List ℕ → List ℕ → ℕ
  | _ :: ds, i :: is => i * ds.prod + rank ds is
  | _, _ => 0

def digits : List ℕ → ℕ → List ℕ
  | [], _ => []
  | _ :: ds, n => n / ds.prod :: digits ds (n % ds.prod)

/-- One digit for each place, below its radix. -/
def Valid (dims idx : List ℕ) : Prop := List.Forall₂ (· < ·) idx dims

variable {d i n : ℕ} {dims idx : List ℕ}

theorem rank_cons (d i : ℕ) (ds is : List ℕ) : rank (d :: ds) (i :: is) = i * ds.prod + rank ds is := rfl

theorem digits_cons (d n : ℕ) (ds : List ℕ) : digits (d :: ds) n = n / ds.prod :: digits ds (n % ds.prod) := rfl

theorem valid_nil : Valid [] [] := .nil

theorem valid_cons {ds is : List ℕ} : Valid (d :: ds) (i :: is) ↔ i < d ∧ Valid ds is := List.forall₂_cons

theorem Valid.length_eq (h : Valid dims idx) : idx.length = dims.length := List.Forall₂.length_eq h

theorem Valid.pos (h : Valid dims idx) : ∀ d ∈ dims, 0 < d := by
  induction h with
  | nil => simp
  | cons hlt _ ih => exact List.forall_mem_cons.mpr ⟨Nat.zero_lt_of_lt hlt, ih⟩

theorem rank_singleton (d i : ℕ) : rank [d] [i] = i := Nat.mul_one i

theorem rank_lt (h : Valid dims idx) : rank dims idx < dims.prod := by
  induction h with
  | nil => exact Nat.one_pos
  | @cons i d is ds hlt _ ih =>
    rw [rank_cons, List.prod_cons]
    calc i * ds.prod + rank ds is < i * ds.prod + ds.prod := Nat.add_lt_add_left ih _
      _ = (i + 1) * ds.prod := by ring
      _ ≤ d * ds.prod := Nat.mul_le_mul_right _ hlt

theorem digits_valid (hpos : ∀ d ∈ dims, 0 < d) (hn : n < dims.prod) : Valid dims (digits dims n) := by
  induction dims generalizing n with
  | nil => exact valid_nil
  | cons d ds ih =>
    obtain ⟨hd, hds⟩ := List.forall_mem_cons.mp hpos
    have hprod : 0 < ds.prod := List.prod_pos hds
    rw [List.prod_cons] at hn
    exact valid_cons.mpr ⟨Nat.div_lt_of_lt_mul (by rwa [Nat.mul_comm]), ih hds (Nat.mod_lt n hprod)⟩

theorem digits_rank (h : Valid dims idx) : digits dims (rank dims idx) = idx := by
  induction h with
  | nil => rfl
  | @cons i d is ds hlt hds ih =>
    have hrank := rank_lt hds
    have hprod : 0 < ds.prod := Nat.zero_lt_of_lt hrank
    rw [digits_cons, rank_cons, Nat.add_comm, Nat.add_mul_div_right _ _ hprod, Nat.add_mul_mod_self_right,
      Nat.div_eq_of_lt hrank, Nat.mod_eq_of_lt hrank, Nat.zero_add, ih]

theorem rank_digits (hpos : ∀ d ∈ dims, 0 < d) (hn : n < dims.prod) : rank dims (digits dims n) = n := by
  induction dims generalizing n with
  | nil => exact (Nat.lt_one_iff.mp hn).symm
  | cons d ds ih =>
    obtain ⟨-, hds⟩ := List.forall_mem_cons.mp hpos
    rw [digits_cons, rank_cons, ih hds (Nat.mod_lt n (List.prod_pos hds)), Nat.mul_comm, Nat.div_add_mod]

theorem rank_inj {idx' : List ℕ} (h : Valid dims idx) (h' : Valid dims idx') (heq : rank dims idx = rank dims idx') :
    idx = idx' := by
  rw [← digits_rank h, heq, digits_rank h']

theorem valid_getD (h : Valid dims idx) {j : ℕ} (hj : j < dims.length) : idx.getD j 0 < dims.getD j 0 := by
  have hj' : j < idx.length := h.length_eq ▸ hj
  rw [List.getD_eq_getElem _ _ hj', List.getD_eq_getElem _ _ hj]
  exact (List.forall₂_iff_get.mp h).2 j hj' hj

-- ---------------------------------------------------------------------------
-- Places
-- ---------------------------------------------------------------------------

/-- The digits at the places that are kept, where the first one is `j`. -/
def keepWhere (p : ℕ → Bool) (j : ℕ) : List ℕ → List ℕ
  | [] => []
  | x :: xs => if p j then x :: keepWhere p (j + 1) xs else keepWhere p (j + 1) xs

theorem keepWhere_cons (p : ℕ → Bool) (j x : ℕ) (xs : List ℕ) :
    keepWhere p j (x :: xs) = if p j then x :: keepWhere p (j + 1) xs else keepWhere p (j + 1) xs := rfl

theorem Valid.keepWhere (h : Valid dims idx) (p : ℕ → Bool) (j : ℕ) :
    Valid (MixedRadix.keepWhere p j dims) (MixedRadix.keepWhere p j idx) := by
  induction h generalizing j with
  | nil => exact valid_nil
  | cons hlt _ ih =>
    rw [keepWhere_cons, keepWhere_cons]
    split_ifs
    · exact valid_cons.mpr ⟨hlt, ih (j + 1)⟩
    · exact ih (j + 1)

theorem keepWhere_sublist (p : ℕ → Bool) (j : ℕ) (l : List ℕ) : (keepWhere p j l).Sublist l := by
  induction l generalizing j with
  | nil => exact .slnil
  | cons x xs ih =>
    rw [keepWhere_cons]
    split_ifs
    · exact (ih (j + 1)).cons_cons x
    · exact (ih (j + 1)).cons x

theorem prod_keepWhere_le (hpos : ∀ d ∈ dims, 0 < d) (p : ℕ → Bool) (j : ℕ) : (keepWhere p j dims).prod ≤ dims.prod := by
  induction dims generalizing j with
  | nil => exact le_rfl
  | cons d ds ih =>
    obtain ⟨hd, hds⟩ := List.forall_mem_cons.mp hpos
    rw [keepWhere_cons, List.prod_cons]
    split_ifs
    · exact Nat.mul_le_mul_left d (ih hds (j + 1))
    · exact (ih hds (j + 1)).trans (Nat.le_mul_of_pos_left _ hd)

theorem keepWhere_all (p : ℕ → Bool) (j : ℕ) (l : List ℕ) (h : ∀ i, j ≤ i → p i = true) : keepWhere p j l = l := by
  induction l generalizing j with
  | nil => rfl
  | cons x xs ih => rw [keepWhere_cons, if_pos (h j le_rfl), ih (j + 1) fun i hi => h i (Nat.le_of_succ_le hi)]

/-- All places but one. -/
theorem keepWhere_ne (j k : ℕ) (l : List ℕ) : keepWhere (fun i => decide (i ≠ j + k)) j l = l.eraseIdx k := by
  induction l generalizing j k with
  | nil => rfl
  | cons x xs ih =>
    cases k with
    | zero =>
      rw [keepWhere_cons, if_neg (by simp), List.eraseIdx_cons_zero]
      exact keepWhere_all _ _ _ fun i hi => by simpa using Nat.ne_of_gt hi
    | succ k =>
      rw [keepWhere_cons, if_pos (by simp), List.eraseIdx_cons_succ, ← ih (j + 1) k]
      rw [Nat.add_right_comm, Nat.add_assoc]

theorem Valid.insertIdx {k v : ℕ} (h : Valid (dims.eraseIdx k) idx) (hk : k < dims.length) (hv : v < dims.getD k 0) :
    Valid dims (idx.insertIdx k v) := by
  induction dims generalizing k idx with
  | nil => exact absurd hk (Nat.not_lt_zero k)
  | cons d ds ih =>
    cases k with
    | zero => exact valid_cons.mpr ⟨hv, h⟩
    | succ k =>
      cases h with
      | cons hlt h => exact valid_cons.mpr ⟨hlt, ih h (Nat.lt_of_succ_lt_succ hk) hv⟩

/-- The digits in the order that the list says. -/
def gather (conv l : List ℕ) : List ℕ := conv.map fun j => l.getD j 0

theorem Valid.gather {conv : List ℕ} (h : Valid dims idx) (hconv : ∀ j ∈ conv, j < dims.length) :
    Valid (MixedRadix.gather conv dims) (MixedRadix.gather conv idx) := by
  induction conv with
  | nil => exact valid_nil
  | cons j conv ih =>
    obtain ⟨hj, hconv⟩ := List.forall_mem_cons.mp hconv
    exact valid_cons.mpr ⟨valid_getD h hj, ih hconv⟩

theorem gather_perm {conv l : List ℕ} (h : conv.Perm (List.range l.length)) : (gather conv l).Perm l := by
  have hall : (List.range l.length).map (fun j => l.getD j 0) = l := by
    refine List.ext_getElem (by simp) fun j _ hj => ?_
    rw [List.getElem_map, List.getElem_range, List.getD_eq_getElem _ _ hj]
  exact (h.map _).trans (List.Perm.of_eq hall)

/-- The digits are known from those in another order. -/
theorem gather_inj {conv l l' : List ℕ} (h : conv.Perm (List.range l.length)) (hlen : l'.length = l.length)
    (heq : gather conv l = gather conv l') : l = l' := by
  refine List.ext_getElem hlen.symm fun j hj hj' => ?_
  have hmem : j ∈ conv := h.mem_iff.mpr (List.mem_range.mpr hj)
  have hget := List.map_inj_left.mp heq j hmem
  rwa [List.getD_eq_getElem _ _ hj, List.getD_eq_getElem _ _ hj'] at hget

-- ---------------------------------------------------------------------------
-- Scattered writes
-- ---------------------------------------------------------------------------

/-- Each place ends with what is folded over the numbers that are written to it. -/
theorem foldl_update {β γ : Type*} (target : ℕ → ℕ) (f : γ → β → γ) (data : ℕ → β) (l : List ℕ) (m : ℕ → γ) (t : ℕ) :
    l.foldl (fun m o => Function.update m (target o) (f (m (target o)) (data o))) m t =
      ((l.filter fun o => target o = t).map data).foldl f (m t) := by
  induction l generalizing m with
  | nil => rfl
  | cons o l ih =>
    rw [List.foldl_cons, ih]
    by_cases heq : target o = t
    · rw [List.filter_cons_of_pos (by simpa using heq), List.map_cons, List.foldl_cons, heq, Function.update_self]
    · rw [List.filter_cons_of_neg (by simpa using heq), Function.update_of_ne (Ne.symm heq)]

end MixedRadix
