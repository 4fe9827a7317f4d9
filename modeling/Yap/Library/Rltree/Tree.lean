-- SUMMARY: Range lists as trees of quadrants: the numbers they hold, what setting a number does, and how many nodes it adds.
import Yap.Library.Rltree.Code

/-!
# Trees of quadrants

The tree that the array of a range list stands for. A quadrant of level `k` has
`16 * 4 ^ k` numbers; numbers are told by their offset from its first one.
-/

namespace Yap

namespace Rltree

/-- What a quadrant holds: no number, nothing below the maximum, all numbers, or a subtree. -/
inductive Subtree where
  | out
  | skip
  | all
  | leaf (bits : RlNode)
  | inode (quadrants : Fin 4 → Subtree)

/-- The numbers of a quadrant of this level. -/
def width (k : ℕ) : ℕ := 16 * 4 ^ k

theorem width_pos (k : ℕ) : 0 < width k := by
  unfold width
  positivity

theorem width_succ (k : ℕ) : width (k + 1) = width k * 4 := by
  rw [width, width, pow_succ, mul_assoc]

/-- The quadrant of level `k` that an offset falls in. -/
def quadOf (k off : ℕ) : Fin 4 := ⟨off / width k % 4, Nat.mod_lt _ (by norm_num)⟩

theorem quadOf_val {k off : ℕ} (h : off < width (k + 1)) : (quadOf k off).val = off / width k := by
  apply Nat.mod_eq_of_lt
  rw [Nat.div_lt_iff_lt_mul (width_pos k), mul_comm, ← width_succ]
  exact h

theorem offset_split {k off : ℕ} (h : off < width (k + 1)) :
    width k * (quadOf k off).val + off % width k = off := by
  rw [quadOf_val h]
  exact Nat.div_add_mod off (width k)

namespace Subtree

-- ---------------------------------------------------------------------------
-- Members
-- ---------------------------------------------------------------------------

def status : Subtree → QuadrantStatus
  | out => .notIn
  | skip => .ignore
  | all => .totally
  | leaf _ => .partially
  | inode _ => .partially

def mem : ℕ → Subtree → ℕ → Bool
  | _, out, _ => false
  | _, skip, _ => false
  | _, all, _ => true
  | _, leaf bits, off => bits.getLsbD off
  | k, inode q, off => mem (k - 1) (q (quadOf (k - 1) off)) (off % width (k - 1))

/-- A quadrant of this level and first number, where the quadrants beyond the maximum are skipped. -/
def Wf (max : ℕ) : Subtree → ℕ → ℕ → Prop
  | out, _, b => b ≤ max
  | skip, _, b => max < b
  | all, _, b => b ≤ max
  | leaf _, k, b => k = 0 ∧ b ≤ max
  | inode q, k, b => (∃ j, k = j + 1) ∧ b ≤ max ∧ ∀ i, Wf max (q i) (k - 1) (b + width (k - 1) * i.val)

-- ---------------------------------------------------------------------------
-- Setting a number
-- ---------------------------------------------------------------------------

/-- All numbers have the status that is the other one. -/
def blank : Status → Subtree
  | .isIn => out
  | .isOut => all

/-- The subtree with which a quadrant is split. -/
def fresh (max : ℕ) (st : Status) : ℕ → ℕ → Subtree
  | 0, b => leaf (match st with
    | .isIn => 0
    | .isOut => onBits (min 16 (max - b + 1)))
  | k + 1, b => inode fun i => if max < b + width k * i.val then skip else blank st

def opened (max : ℕ) (st : Status) (k b : ℕ) : Subtree → Subtree
  | out => if st = .isIn then fresh max st k b else out
  | all => if st = .isOut then fresh max st k b else all
  | s => s

def setSub (max : ℕ) (st : Status) : ℕ → ℕ → Subtree → ℕ → Subtree
  | 0, b, s, off =>
    match opened max st 0 b s with
    | leaf bits => leaf (setNumBit off bits st)
    | s => s
  | k + 1, b, s, off =>
    match opened max st (k + 1) b s with
    | inode q =>
      inode (Function.update q (quadOf k off)
        (setSub max st k (b + width k * (quadOf k off).val) (q (quadOf k off)) (off % width k)))
    | s => s

-- ---------------------------------------------------------------------------
-- Nodes
-- ---------------------------------------------------------------------------

/-- The nodes of a subtree. -/
def count : Subtree → ℕ
  | out => 0
  | skip => 0
  | all => 0
  | leaf _ => 1
  | inode q => 1 + ∑ i, count (q i)

/-- The nodes in front of a quadrant's subtree. -/
def before (q : Fin 4 → Subtree) (i : Fin 4) : ℕ := ∑ j, if j < i then count (q j) else 0

/-- The nodes behind it. -/
def after (q : Fin 4 → Subtree) (i : Fin 4) : ℕ := ∑ j, if i < j then count (q j) else 0

/-- The quadrant that setting a number splits, by the nodes of the subtree behind it and its level. -/
def behind (st : Status) : ℕ → Subtree → ℕ → Option (ℕ × ℕ)
  | k, out, _ => if st = .isIn then some (0, k) else none
  | k, all, _ => if st = .isOut then some (0, k) else none
  | _, skip, _ => none
  | _, leaf _, _ => none
  | k, inode q, off =>
    (behind st (k - 1) (q (quadOf (k - 1) off)) (off % width (k - 1))).map
      fun a => (a.1 + after q (quadOf (k - 1) off), a.2)

theorem count_inode (q : Fin 4 → Subtree) (i : Fin 4) :
    count (inode q) = 1 + before q i + count (q i) + after q i := by
  rw [count, before, after]
  fin_cases i <;> simp [Fin.sum_univ_four] <;> omega

/-- What is in front of a quadrant only changes with the quadrants there. -/
theorem before_update (q : Fin 4 → Subtree) (i j : Fin 4) (s : Subtree) :
    before (Function.update q i s) j + (if i < j then count (q i) else 0) =
      before q j + (if i < j then count s else 0) := by
  fin_cases i <;> fin_cases j <;> simp [before, Fin.sum_univ_four, Function.update_apply] <;> omega

-- ---------------------------------------------------------------------------
-- Subtrees that split a quadrant
-- ---------------------------------------------------------------------------

/-- All numbers have the status. -/
def full : Status → Subtree
  | .isIn => all
  | .isOut => out

variable {max : ℕ} {st : Status} {k b off : ℕ} {s : Subtree} {q : Fin 4 → Subtree}

theorem status_eq_splits : s.status = st.splits ↔ s = blank st := by
  cases st <;> cases s <;> simp [status, Status.splits, blank]

theorem status_eq_full : s.status = st.full ↔ s = full st := by
  cases st <;> cases s <;> simp [status, Status.full, full]

theorem setSub_blank : setSub max st k b (blank st) off = setSub max st k b (fresh max st k b) off := by
  cases st <;> cases k <;> rfl

theorem setSub_full : setSub max st k b (full st) off = full st := by
  cases st <;> cases k <;> rfl

theorem behind_blank : behind st k (blank st) off = some (0, k) := by
  cases st <;> rfl

theorem behind_full : behind st k (full st) off = none := by
  cases st <;> rfl

theorem mem_blank : mem k (blank st) off = decide (st = .isOut) := by
  cases st <;> rfl

theorem mem_full : mem k (full st) off = decide (st = .isIn) := by
  cases st <;> rfl

theorem count_blank : count (blank st) = 0 := by
  cases st <;> rfl

theorem count_full : count (full st) = 0 := by
  cases st <;> rfl

theorem mem_inode (q : Fin 4 → Subtree) (k off : ℕ) :
    mem (k + 1) (inode q) off = mem k (q (quadOf k off)) (off % width k) := rfl

theorem behind_inode (q : Fin 4 → Subtree) (k off : ℕ) :
    behind st (k + 1) (inode q) off =
      (behind st k (q (quadOf k off)) (off % width k)).map fun a => (a.1 + after q (quadOf k off), a.2) := rfl

theorem setSub_leaf (bits : RlNode) : setSub max st 0 b (leaf bits) off = leaf (setNumBit off bits st) := rfl

theorem setSub_inode (q : Fin 4 → Subtree) : setSub max st (k + 1) b (inode q) off =
    inode (Function.update q (quadOf k off)
      (setSub max st k (b + width k * (quadOf k off).val) (q (quadOf k off)) (off % width k))) := rfl

theorem onBits_spec : ∀ n < 16, ∀ i < 16, (onBits (n + 1)).getLsbD i = decide (i < n + 1) := by decide

theorem getLsbD_setNumBit (bits : RlNode) {i : ℕ} (hi : i < 16) :
    (setNumBit off bits st).getLsbD i = if i = off then decide (st = .isIn) else bits.getLsbD i := by
  cases st with
  | isIn =>
    by_cases hoff : i = off
    · subst hoff
      simp [setNumBit, hi]
    · by_cases hlt : i < off
      · simp [setNumBit, hoff, hlt]
      · have hne : i - off ≠ 0 := by omega
        simp [setNumBit, hoff, hne]
  | isOut =>
    by_cases hoff : i = off
    · subst hoff
      simp [setNumBit, hi]
    · by_cases hlt : i < off
      · simp [setNumBit, hoff, hlt, hi]
      · have hne : i - off ≠ 0 := by omega
        simp [setNumBit, hoff, hne, hi]

theorem Wf.le (h : Wf max s k b) (hs : s ≠ skip) : b ≤ max := by
  cases s with
  | out => exact h
  | skip => exact absurd rfl hs
  | all => exact h
  | leaf bits => exact h.2
  | inode q => exact h.2.1

theorem wf_fresh (h : b ≤ max) : Wf max (fresh max st k b) k b := by
  cases k with
  | zero => exact ⟨rfl, h⟩
  | succ k =>
    refine ⟨⟨k, rfl⟩, h, fun i => ?_⟩
    simp only [Nat.add_sub_cancel]
    split_ifs with hlt
    · exact hlt
    · cases st <;> exact not_lt.mp hlt

theorem mem_fresh (h : b + off ≤ max) (hoff : off < width k) :
    mem k (fresh max st k b) off = decide (st = .isOut) := by
  cases k with
  | zero =>
    have hlt : off < 16 := hoff
    cases st with
    | isIn => simp [fresh, mem]
    | isOut =>
      obtain ⟨n, hn⟩ : ∃ n, min 16 (max - b + 1) = n + 1 := ⟨min 15 (max - b), by omega⟩
      simp only [fresh, mem, hn]
      rw [onBits_spec n (by omega) off hlt]
      simp
      omega
  | succ k =>
    have hquad := offset_split hoff
    simp only [fresh, mem_inode]
    rw [if_neg (by omega), mem_blank]

theorem quad_lt_width (k off : ℕ) : off % width k < width k := Nat.mod_lt _ (width_pos k)

-- ---------------------------------------------------------------------------
-- Setting a number
-- ---------------------------------------------------------------------------

/-- A quadrant with numbers up to the maximum is split, or has them all, or has a subtree. -/
theorem quadrant_cases (st : Status) (hs : s ≠ skip) :
    s = blank st ∨ s = full st ∨ (∃ bits, s = leaf bits) ∨ ∃ q, s = inode q := by
  cases s with
  | out => cases st <;> simp [blank, full]
  | skip => exact absurd rfl hs
  | all => cases st <;> simp [blank, full]
  | leaf bits => exact .inr (.inr (.inl ⟨bits, rfl⟩))
  | inode q => exact .inr (.inr (.inr ⟨q, rfl⟩))

/-- The quadrant of a number up to the maximum is not skipped. -/
theorem Wf.ne_skip (h : Wf max s k b) (hb : b ≤ max) : s ≠ skip := by
  rintro rfl
  exact absurd h (not_lt.mpr hb)

/-- What holds after the number is set: the other numbers are as before. -/
structure Set (max : ℕ) (st : Status) (k b : ℕ) (s : Subtree) (off : ℕ) (s' : Subtree) : Prop where
  wf : Wf max s' k b
  mem : ∀ i < width k, b + i ≤ max → Subtree.mem k s' i = if i = off then decide (st = .isIn) else Subtree.mem k s i

theorem count_update (q : Fin 4 → Subtree) (i : Fin 4) (s' : Subtree) :
    count (inode (Function.update q i s')) + count (q i) = count (inode q) + count s' := by
  simp only [count, Fin.sum_univ_four, Function.update_apply]
  fin_cases i <;> simp <;> omega

/-- A subtree takes the change of the quadrant that the number is in. -/
theorem Set.inode {s' : Subtree} (hwf : Wf max (inode q) (k + 1) b) (hoff : off < width (k + 1))
    (h : Set max st k (b + width k * (quadOf k off).val) (q (quadOf k off)) (off % width k) s') :
    Set max st (k + 1) b (inode q) off (inode (Function.update q (quadOf k off) s')) where
  wf := by
    refine ⟨⟨k, rfl⟩, hwf.2.1, fun i => ?_⟩
    by_cases hi : i = quadOf k off
    · subst hi
      rw [Function.update_self]
      exact h.wf
    · rw [Function.update_of_ne hi]
      exact hwf.2.2 i
  mem i hi hle := by
    have hquad := offset_split hi
    have hquad' := offset_split hoff
    rw [mem_inode, mem_inode]
    by_cases heq : quadOf k i = quadOf k off
    · have hsame : i % width k = off % width k ↔ i = off := by
        rw [heq] at hquad
        omega
      rw [heq, Function.update_self, h.mem _ (quad_lt_width k i) (by rw [heq] at hquad; omega)]
      simp only [hsame]
    · have hne : i ≠ off := fun h => heq (h ▸ rfl)
      rw [Function.update_of_ne heq, if_neg hne]

theorem count_quadrant {c : ℕ} : count (if max < c then skip else blank st) = 0 := by
  split_ifs
  · rfl
  · exact count_blank

theorem fresh_succ : fresh max st (k + 1) b = inode fun i => if max < b + width k * i.val then skip else blank st := rfl

theorem count_fresh : count (fresh max st k b) = 1 := by
  cases k with
  | zero => rfl
  | succ k => simp [fresh_succ, count, count_quadrant]

/-- The quadrant of a number in a new node is split as well, down to the leaf. -/
theorem behind_fresh (h : b + off ≤ max) (hoff : off < width k) {a l : ℕ}
    (ha : behind st k (fresh max st k b) off = some (a, l)) : a = 0 ∧ l + 1 = k := by
  cases k with
  | zero => cases ha
  | succ k =>
    have hquad := offset_split hoff
    have hafter : after (fun i : Fin 4 => if max < b + width k * i.val then skip else blank st) (quadOf k off) = 0 := by
      simp [after, count_quadrant]
    rw [fresh_succ, behind_inode, if_neg (by omega), behind_blank] at ha
    cases ha
    exact ⟨by rw [hafter], rfl⟩

theorem Set.blank {s' : Subtree} (h : Set max st k b (fresh max st k b) off s') : Set max st k b (blank st) off s' where
  wf := h.wf
  mem i hi hle := by
    rw [mem_blank, ← mem_fresh hle hi]
    exact h.mem i hi hle

theorem Set.full (hwf : Wf max (full st) k b) : Set max st k b (full st) off (full st) where
  wf := hwf
  mem i _ _ := by
    rw [mem_full, ite_self]

/-- Setting a number of the quadrant. -/
theorem set_setSub (st : Status) (hwf : Wf max s k b) (hle : b + off ≤ max) (hoff : off < width k) :
    Set max st k b s off (setSub max st k b s off) := by
  induction k generalizing b s off with
  | zero =>
    have hleaf : ∀ bits, Wf max (leaf bits) 0 b → Set max st 0 b (leaf bits) off (leaf (setNumBit off bits st)) :=
      fun bits hwf =>
        { wf := hwf
          mem := fun i hi _ => getLsbD_setNumBit bits hi }
    rcases quadrant_cases st (hwf.ne_skip (by omega)) with rfl | rfl | ⟨bits, rfl⟩ | ⟨q, rfl⟩
    · have hfresh : Wf max (fresh max st 0 b) 0 b := wf_fresh (by omega)
      rw [setSub_blank]
      exact (hleaf _ hfresh).blank
    · rw [setSub_full]
      exact .full hwf
    · exact hleaf bits hwf
    · obtain ⟨j, hj⟩ := hwf.1
      cases hj
  | succ k ih =>
    have hquad := offset_split hoff
    have hinode : ∀ q, Wf max (inode q) (k + 1) b →
        Set max st (k + 1) b (inode q) off (setSub max st (k + 1) b (inode q) off) := by
      intro q hwf
      rw [setSub_inode]
      exact .inode hwf hoff (ih (hwf.2.2 _) (by omega) (quad_lt_width k off))
    rcases quadrant_cases st (hwf.ne_skip (by omega)) with rfl | rfl | ⟨bits, rfl⟩ | ⟨q, rfl⟩
    · have hfresh : Wf max (fresh max st (k + 1) b) (k + 1) b := wf_fresh (by omega)
      rw [setSub_blank]
      exact (hinode _ hfresh).blank
    · rw [setSub_full]
      exact .full hwf
    · cases hwf.1
    · exact hinode q hwf

end Subtree

end Rltree

end Yap
