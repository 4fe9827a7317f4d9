-- SUMMARY: Trees read in preorder: sequences of labels, agreement of two trees on a number of labels, and the first position at which two sequences differ.
import Mathlib

/-!
# Preorder walks

A walk through two trees in lockstep decides at the first position at which their
labels differ. A walk that reads some other tree in place of the one that is there
decides alike, as long as the two trees agree up to and including that position.
-/

namespace Preorder

-- ---------------------------------------------------------------------------
-- Sequences
-- ---------------------------------------------------------------------------

section Sequences

variable {H : Type*} {n : ℕ} {a b : H} {xs xs' ys ys' : List H}

theorem take_append_congr (h : xs.take n = xs'.take n) (r : List H) :
    (xs ++ r).take n = (xs' ++ r).take n := by
  have hlen : n - xs.length = n - xs'.length := by
    have hmin := congrArg List.length h
    simp only [List.length_take] at hmin
    omega
  rw [List.take_append, List.take_append, h, hlen]

theorem take_le_congr {m : ℕ} (hmn : m ≤ n) (h : xs.take n = xs'.take n) :
    xs.take m = xs'.take m := by
  have htake := congrArg (List.take m) h
  rwa [List.take_take, List.take_take, Nat.min_eq_left hmn] at htake

/-- The sequences differ first at position `n`, in `a` and `b`. -/
structure FirstDiff (n : ℕ) (xs ys : List H) (a b : H) : Prop where
  ne : a ≠ b
  take : xs.take n = ys.take n
  left : xs[n]? = some a
  right : ys[n]? = some b

namespace FirstDiff

theorem symm (h : FirstDiff n xs ys a b) : FirstDiff n ys xs b a :=
  ⟨h.ne.symm, h.take.symm, h.right, h.left⟩

/-- What comes after the first difference does not matter. -/
theorem congr_left (h : FirstDiff n xs ys a b) (hx : xs.take (n + 1) = xs'.take (n + 1)) :
    FirstDiff n xs' ys a b := by
  refine ⟨h.ne, ?_, ?_, h.right⟩
  · rw [← h.take, take_le_congr n.le_succ hx]
  · have hget := congrArg (fun l => l[n]?) hx
    simp only [List.getElem?_take, Nat.lt_succ_self, if_true] at hget
    rw [← hget, h.left]

theorem congr_right (h : FirstDiff n xs ys a b) (hy : ys.take (n + 1) = ys'.take (n + 1)) :
    FirstDiff n xs ys' a b :=
  (h.symm.congr_left hy).symm

theorem cons (h : FirstDiff n xs ys a b) (c : H) : FirstDiff (n + 1) (c :: xs) (c :: ys) a b :=
  ⟨h.ne, by rw [List.take_succ_cons, List.take_succ_cons, h.take], h.left, h.right⟩

/-- Behind a shared head the difference is one position nearer. -/
theorem of_cons {c : H} (h : FirstDiff n (c :: xs) (c :: ys) a b) :
    ∃ m, n = m + 1 ∧ FirstDiff m xs ys a b := by
  cases n with
  | zero =>
      have ha : c = a := Option.some.inj h.left
      have hb : c = b := Option.some.inj h.right
      exact absurd (ha.symm.trans hb) h.ne
  | succ m =>
      refine ⟨m, rfl, h.ne, ?_, h.left, h.right⟩
      have htake := h.take
      rw [List.take_succ_cons, List.take_succ_cons] at htake
      exact (List.cons.inj htake).2

/-- Behind a shared prefix the difference is nearer by its length. -/
theorem of_append {zs : List H} (h : FirstDiff n (zs ++ xs) (zs ++ ys) a b) :
    ∃ m, n = zs.length + m ∧ FirstDiff m xs ys a b := by
  induction zs generalizing n with
  | nil => exact ⟨n, by simp, h⟩
  | cons z zs ih =>
      obtain ⟨m, rfl, hm⟩ := of_cons h
      obtain ⟨k, rfl, hk⟩ := ih hm
      exact ⟨k, by rw [List.length_cons]; omega, hk⟩

/-- Different heads are the first difference. -/
theorem of_head_ne {c d : H} (hcd : c ≠ d) (h : FirstDiff n (c :: xs) (d :: ys) a b) :
    n = 0 ∧ a = c ∧ b = d := by
  cases n with
  | zero => exact ⟨rfl, (Option.some.inj h.left).symm, (Option.some.inj h.right).symm⟩
  | succ m =>
      have htake := h.take
      rw [List.take_succ_cons, List.take_succ_cons] at htake
      exact absurd (List.cons.inj htake).1 hcd

end FirstDiff

variable {e e' : H}

/-- Sequences with marks of their own at their ends differ somewhere. -/
theorem exists_firstDiff (hne : e ≠ e') (hx : e' ∉ xs) (hy : e ∉ ys) :
    ∃ n a b, FirstDiff n (xs ++ [e]) (ys ++ [e']) a b := by
  induction xs generalizing ys with
  | nil =>
      cases ys with
      | nil => exact ⟨0, e, e', hne, rfl, rfl, rfl⟩
      | cons y ys => exact ⟨0, e, y, List.ne_of_not_mem_cons hy, rfl, rfl, rfl⟩
  | cons x xs ih =>
      cases ys with
      | nil => exact ⟨0, x, e', (List.ne_of_not_mem_cons hx).symm, rfl, rfl, rfl⟩
      | cons y ys =>
          by_cases hxy : x = y
          · subst hxy
            obtain ⟨n, a, b, h⟩ := ih (List.not_mem_of_not_mem_cons hx) (List.not_mem_of_not_mem_cons hy)
            exact ⟨n + 1, a, b, h.cons x⟩
          · exact ⟨0, x, y, hxy, rfl, rfl, rfl⟩

/-- A difference at the marks is no difference of the sequences. -/
theorem FirstDiff.eq_of_marks (h : FirstDiff n (xs ++ [e]) (ys ++ [e']) e e') (hx : e ∉ xs)
    (hy : e' ∉ ys) : xs = ys := by
  have hpos : ∀ {zs : List H} {c : H}, c ∉ zs → (zs ++ [c])[n]? = some c → n = zs.length := by
    intro zs c hc hget
    rcases Nat.lt_trichotomy n zs.length with hlt | heq | hgt
    · rw [List.getElem?_append_left hlt] at hget
      exact absurd (List.mem_of_getElem? hget) hc
    · exact heq
    · rw [List.getElem?_eq_none (by simp; omega)] at hget
      cases hget
  have hxn := hpos hx h.left
  have hyn := hpos hy h.right
  have htake := h.take
  rwa [hxn, List.take_left, ← hxn, hyn, List.take_left] at htake

end Sequences

-- ---------------------------------------------------------------------------
-- Trees
-- ---------------------------------------------------------------------------

/-- Trees with labels in preorder, where a label fixes the number of arguments. -/
structure Labelling (T H : Type*) where
  label : T → H
  args : T → List T
  heads : T → List H
  heads_eq : ∀ t, heads t = label t :: (args t).flatMap heads
  arity : ∀ {t u}, label t = label u → (args t).length = (args u).length

namespace Labelling

variable {T H : Type*} (w : Labelling T H)

/-- The labels of a block of trees. -/
def blockHeads (ts : List T) : List H := ts.flatMap w.heads

@[simp] theorem blockHeads_nil : w.blockHeads [] = [] := rfl

@[simp] theorem blockHeads_cons (t : T) (ts : List T) :
    w.blockHeads (t :: ts) = w.heads t ++ w.blockHeads ts := rfl

@[simp] theorem blockHeads_append (ts us : List T) :
    w.blockHeads (ts ++ us) = w.blockHeads ts ++ w.blockHeads us := List.flatMap_append

theorem heads_append (t : T) (r : List H) :
    w.heads t ++ r = w.label t :: (w.blockHeads (w.args t) ++ r) := by
  rw [w.heads_eq, List.cons_append]
  rfl

variable {w}

/-- The trees are told from what follows them. -/
def Splits (w : Labelling T H) (t : T) : Prop :=
  ∀ (u : T) (r r' : List H), w.heads t ++ r = w.heads u ++ r' → w.heads t = w.heads u ∧ r = r'

theorem splits_block {ts : List T} (h : ∀ t ∈ ts, w.Splits t) {us : List T} {r r' : List H}
    (hlen : ts.length = us.length) (heq : w.blockHeads ts ++ r = w.blockHeads us ++ r') :
    w.blockHeads ts = w.blockHeads us ∧ r = r' := by
  induction ts generalizing us with
  | nil =>
      obtain rfl := List.length_eq_zero_iff.mp hlen.symm
      exact ⟨rfl, heq⟩
  | cons t ts ih =>
      obtain ⟨u, us, rfl⟩ := List.exists_cons_of_length_eq_add_one hlen.symm
      rw [blockHeads_cons, blockHeads_cons, List.append_assoc, List.append_assoc] at heq
      obtain ⟨hhead, hrest⟩ := h t (List.mem_cons_self ..) u _ _ heq
      obtain ⟨htail, hr⟩ := ih (fun v hv => h v (List.mem_cons_of_mem _ hv)) (by simpa using hlen) hrest
      exact ⟨by rw [blockHeads_cons, blockHeads_cons, hhead, htail], hr⟩

theorem length_heads_lt {t u : T} (h : u ∈ w.args t) : (w.heads u).length < (w.heads t).length := by
  have hsub := List.sublist_flatten_of_mem (List.mem_map_of_mem (f := w.heads) h)
  rw [w.heads_eq t, List.length_cons, Nat.lt_succ_iff]
  exact hsub.length_le

/-- No sequence of labels of a tree is a proper prefix of another. -/
theorem splits (t : T) : w.Splits t := by
  induction hn : (w.heads t).length using Nat.strongRecOn generalizing t with
  | ind n ih =>
      intro u r r' heq
      rw [w.heads_append, w.heads_append, List.cons.injEq] at heq
      have hargs : ∀ v ∈ w.args t, w.Splits v := fun v hv => ih _ (hn ▸ length_heads_lt hv) v rfl
      obtain ⟨hblock, hr⟩ := splits_block hargs (w.arity heq.1) heq.2
      refine ⟨?_, hr⟩
      rw [w.heads_eq t, w.heads_eq u, heq.1]
      exact congrArg _ hblock

/-- The trees have the same first `n` labels. -/
def Agree (w : Labelling T H) (n : ℕ) (t u : T) : Prop := (w.heads t).take n = (w.heads u).take n

theorem Agree.refl (n : ℕ) (t : T) : w.Agree n t t := rfl

theorem Agree.symm {n : ℕ} {t u : T} (h : w.Agree n t u) : w.Agree n u t := Eq.symm h

theorem Agree.trans {n : ℕ} {t u v : T} (h : w.Agree n t u) (h' : w.Agree n u v) : w.Agree n t v :=
  Eq.trans h h'

theorem Agree.mono {m n : ℕ} {t u : T} (hmn : m ≤ n) (h : w.Agree n t u) : w.Agree m t u :=
  take_le_congr hmn h

/-- A tree whose labels are read in full is the tree that is there. -/
theorem heads_eq_of_take {n : ℕ} {t u : T} {r r' : List H} (hle : (w.heads t).length ≤ n)
    (h : (w.heads t ++ r).take n = (w.heads u ++ r').take n) : w.heads t = w.heads u := by
  have hpre : w.heads t <+: w.heads u ++ r' := by
    refine List.IsPrefix.trans ?_ (List.take_prefix n _)
    rw [← h, List.take_append, List.take_of_length_le hle]
    exact List.prefix_append _ _
  obtain ⟨s, hs⟩ := hpre
  exact (splits t u s r' hs).1

theorem Agree.heads_eq {n : ℕ} {t u : T} (h : w.Agree n t u) (hle : (w.heads t).length ≤ n) :
    w.heads t = w.heads u := by
  refine heads_eq_of_take hle (?_ : (w.heads t ++ []).take n = (w.heads u ++ []).take n)
  rw [List.append_nil, List.append_nil]
  exact h

/-- Trees that start sequences with one difference agree up to it. -/
theorem agree_of_take {n : ℕ} {t u : T} {r r' : List H}
    (h : (w.heads t ++ r).take n = (w.heads u ++ r').take n) : w.Agree n t u := by
  by_cases ht : (w.heads t).length ≤ n
  · rw [Agree, heads_eq_of_take ht h]
  · by_cases hu : (w.heads u).length ≤ n
    · rw [Agree, heads_eq_of_take hu h.symm]
    · rwa [List.take_append_of_le_length (by omega), List.take_append_of_le_length (by omega)] at h

end Labelling

end Preorder
