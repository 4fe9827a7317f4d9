-- SUMMARY: The search of range lists for the next number: it finds the least of the range above a number, and so visits the range in order.
import Yap.Library.Rltree.Runs

/-!
# The next number of a range list

The search goes through the quadrants in order, and into those with a subtree,
with a lower bound that stays the same. What it returns is the least number of
the range from the bound on. The lookup of numbers takes those beyond the range
as well, which the search does not.
-/

namespace Yap

namespace Rltree

open Subtree

-- ---------------------------------------------------------------------------
-- The functions
-- ---------------------------------------------------------------------------

/-- The loop of `next_in_leaf`. -/
def leafFrom (node : RlNode) (nodeNum max number : ℕ) : ℕ :=
  if number ≤ max then if isNumBit (number - nodeNum) node then number else leafFrom node nodeNum max (number + 1)
  else 0
termination_by max + 1 - number

def nextInLeaf (tree : RlTree) (node nodeNum max min : ℕ) : ℕ :=
  leafFrom (tree.root node) nodeNum max (if nodeNum < min then min else nodeNum)

def nextMin (tree : RlTree) (node nodeNum interval max min : ℕ) : ℕ :=
  if tree.rangeMax < min then 0
  else if _ : interval ≤ leafSize then nextInLeaf tree node nodeNum (Nat.min max tree.rangeMax) min
  else
    let interval2 := nextInterval interval
    (([1, 2, 3, 4] : List ℤ).findSome? fun quadrant =>
      let nodeNum2 := num (nodeNum + (quadrant - 1) * interval2)
      let quadrantMax := Nat.min (num (nodeNum + interval2 * quadrant - 1)) max
      match quadrantStatus (tree.root node) quadrant with
      | .partially =>
        let found := nextMin tree (getQuadrantNode tree node quadrant interval) nodeNum2 interval2 quadrantMax min
        if 0 < found then some found else none
      | .totally =>
        if min ≤ quadrantMax ∧ nodeNum2 ≤ min then some min
        else if min < nodeNum2 then some nodeNum2
        else none
      | _ => none).getD 0
termination_by interval
decreasing_by exact nextInterval_lt ‹_›

def rlNextInBigger (tree : RlTree) (min : ℕ) : ℕ :=
  nextMin tree 0 1 tree.rootInterval tree.rangeMax (num (min + 1))

/-- The solutions of `rl_b_in`, from the last one on, with a bound on their number. -/
def solutionsAfter (tree : RlTree) : ℕ → ℕ → Option (List ℕ)
  | 0, _ => none
  | n + 1, last =>
    let val := rlNextInBigger tree last
    if 0 < val then (solutionsAfter tree n val).map (val :: ·) else some []

-- ---------------------------------------------------------------------------
-- The least number of an interval
-- ---------------------------------------------------------------------------

/-- The least number from `lo` to `hi` with the property, or zero. -/
def LeastFrom (P : ℕ → Bool) (lo hi r : ℕ) : Prop :=
  (r = 0 ∧ ∀ x, lo ≤ x → x ≤ hi → P x = false) ∨ (lo ≤ r ∧ r ≤ hi ∧ P r = true ∧ ∀ x, lo ≤ x → x < r → P x = false)

/-- What the search in the part from `a` to before `z` finds of the numbers from `lo` to `hi`. -/
structure Segment (P : ℕ → Bool) (a z lo hi : ℕ) (o : Option ℕ) : Prop where
  none : o = none → ∀ x, a ≤ x → x < z → lo ≤ x → x ≤ hi → P x = false
  some : ∀ r, o = some r → a ≤ r ∧ r < z ∧ lo ≤ r ∧ r ≤ hi ∧ P r = true ∧
    ∀ x, a ≤ x → lo ≤ x → x < r → P x = false

variable {P : ℕ → Bool} {a z lo hi r : ℕ}

theorem Segment.congr {P' : ℕ → Bool} {o : Option ℕ} (h : Segment P a z lo hi o)
    (heq : ∀ x, a ≤ x → x < z → P' x = P x) : Segment P' a z lo hi o where
  none ho x ha hz hlo hhi := (heq x ha hz).trans (h.none ho x ha hz hlo hhi)
  some r hr := by
    obtain ⟨ha, hz, hlo, hhi, hP, hnone⟩ := h.some r hr
    exact ⟨ha, hz, hlo, hhi, (heq r ha hz).trans hP,
      fun x hx hx' hlt => (heq x hx (hlt.trans hz)).trans (hnone x hx hx' hlt)⟩

theorem segment_none (h : ∀ x, a ≤ x → x < z → lo ≤ x → x ≤ hi → P x = false) : Segment P a z lo hi none :=
  ⟨fun _ => h, fun _ hr => by cases hr⟩

theorem segment_some
    (h : a ≤ r ∧ r < z ∧ lo ≤ r ∧ r ≤ hi ∧ P r = true ∧ ∀ x, a ≤ x → lo ≤ x → x < r → P x = false) :
    Segment P a z lo hi (some r) :=
  ⟨fun ho => (by cases ho), fun _ hr => Option.some.inj hr ▸ h⟩

/-- The search in a part is one between the greater of the lower bounds and the smaller of the upper ones. -/
theorem LeastFrom.segment (h : LeastFrom P (max a lo) (min (z - 1) hi) r) (hlo : 1 ≤ a) :
    Segment P a z lo hi (if 0 < r then some r else none) := by
  rcases h with ⟨rfl, hnone⟩ | ⟨hle, hhi, hP, hnone⟩
  · exact segment_none fun x ha hz hx hx' => hnone x (by omega) (by omega)
  · rw [if_pos (by omega)]
    exact segment_some ⟨by omega, by omega, by omega, by omega, hP, fun x ha hx hlt => hnone x (by omega) hlt⟩

/-- A part with all its numbers has the bound, or begins above it, or ends below it. -/
theorem segment_all {b least top : ℕ} (h : ∀ x, P x = true) (hb : b ≤ a) (hz : a < z) (ha : a ≤ hi) (htop : top = min (z - 1) hi) :
    Segment P a z (max b least) hi
      (if least ≤ top ∧ a ≤ least then some least else if least < a then some a else none) := by
  by_cases hin : least ≤ top ∧ a ≤ least
  · rw [if_pos hin]
    exact segment_some ⟨hin.2, by omega, by omega, by omega, h _, fun x hx hlo hlt => by omega⟩
  · rw [if_neg hin]
    by_cases hlt : least < a
    · rw [if_pos hlt]
      exact segment_some ⟨le_rfl, hz, by omega, ha, h _, fun x hx hlo hlt => by omega⟩
    · rw [if_neg hlt]
      exact segment_none fun x hx hxz hlo hhi => by omega

/-- The parts are searched in order, up to the first in which something is found. -/
theorem leastFrom_segments {f : ℕ → Option ℕ} {c : ℕ → ℕ} {j n : ℕ}
    (hbefore : ∀ x, lo ≤ x → x ≤ hi → x < c j → P x = false)
    (h : ∀ i, j ≤ i → i < j + n → Segment P (c i) (c (i + 1)) lo hi (f i)) (hend : hi < c (j + n)) :
    LeastFrom P lo hi (((List.range' j n).findSome? f).getD 0) := by
  induction n generalizing j with
  | zero => exact .inl ⟨rfl, fun x hlo hhi => hbefore x hlo hhi (lt_of_le_of_lt hhi hend)⟩
  | succ n ih =>
    have hj := h j le_rfl (by omega)
    rw [List.range'_succ, List.findSome?_cons]
    generalize f j = o at hj
    cases o with
    | none =>
      refine ih (fun x hlo hhi hx => ?_) (fun i hi hi' => h i (by omega) (by omega)) (by rwa [Nat.add_assoc, Nat.add_comm 1])
      by_cases hcj : x < c j
      · exact hbefore x hlo hhi hcj
      · exact hj.none rfl x (not_lt.mp hcj) hx hlo hhi
    | some r =>
      obtain ⟨hcr, -, hlo, hhi, hP, hnone⟩ := hj.some r rfl
      refine .inr ⟨hlo, hhi, hP, fun x hx hxr => ?_⟩
      by_cases hcj : x < c j
      · exact hbefore x hx (by omega) hcj
      · exact hnone x (not_lt.mp hcj) hx hxr

theorem leafFrom_spec (bits : RlNode) (b : ℕ) (h : 1 ≤ lo) :
    LeastFrom (fun x => bits.getLsbD (x - b)) lo hi (leafFrom bits b hi lo) := by
  induction hn : hi + 1 - lo generalizing lo with
  | zero =>
    rw [leafFrom, if_neg (by omega)]
    exact .inl ⟨rfl, fun x hlo hhi => by omega⟩
  | succ n ih =>
    rw [leafFrom, if_pos (by omega)]
    by_cases hbit : isNumBit (lo - b) bits = true
    · rw [if_pos hbit]
      exact .inr ⟨le_rfl, by omega, hbit, fun x hlo hlt => by omega⟩
    · rw [if_neg hbit]
      have hlo : ∀ x, lo ≤ x → lo + 1 ≤ x ∨ bits.getLsbD (x - b) = false := fun x hx => by
        rcases Nat.eq_or_lt_of_le hx with rfl | hlt
        · exact .inr (Bool.eq_false_iff.mpr hbit)
        · exact .inl hlt
      rcases @ih (lo + 1) (by omega) (by omega) with ⟨hr, hnone⟩ | ⟨hle, hhi, hP, hnone⟩
      · exact .inl ⟨hr, fun x hx hx' => (hlo x hx).elim (fun hx => hnone x hx hx') id⟩
      · exact .inr ⟨by omega, hhi, hP, fun x hx hx' => (hlo x hx).elim (fun hx => hnone x hx hx') id⟩

-- ---------------------------------------------------------------------------
-- The search
-- ---------------------------------------------------------------------------

variable {tree : RlTree} {max levels k b idx least : ℕ} {s : Subtree} {q : Fin 4 → Subtree}

theorem findSome_quadrants (f : ℤ → Option ℕ) :
    ([1, 2, 3, 4] : List ℤ).findSome? f = (List.range' 0 4).findSome? fun (i : ℕ) => f ((i : ℤ) + 1) := rfl

/-- A number of a quadrant is looked up there. -/
theorem mem_quadrant (q : Fin 4 → Subtree) (k : ℕ) (i : Fin 4) {x : ℕ} (hlo : b + width k * i.val ≤ x)
    (hhi : x < b + width k * (i.val + 1)) : mem (k + 1) (inode q) (x - b) = mem k (q i) (x - (b + width k * i.val)) := by
  obtain ⟨y, rfl⟩ := Nat.exists_eq_add_of_le hlo
  have hy : y < width k := by
    rw [Nat.mul_add, Nat.mul_one] at hhi
    omega
  have hsub : b + width k * i.val + y - b = y + width k * i.val := by omega
  have hquad : quadOf k (y + width k * i.val) = i := by
    refine Fin.ext ?_
    show (y + width k * i.val) / width k % 4 = i.val
    rw [Nat.add_mul_div_left _ _ (width_pos k), Nat.div_eq_of_lt hy, Nat.zero_add, Nat.mod_eq_of_lt i.isLt]
  rw [mem_inode, hsub, hquad, Nat.add_mul_mod_self_left, Nat.mod_eq_of_lt hy, Nat.add_sub_cancel_left]

theorem nextMin_spec (h : InRange tree max levels) (hk : k ≤ levels + 1) (hcore : Core tree.root s idx)
    (hp : s.status = .partially) (hwf : Wf max s k b) (hb : 1 ≤ b) (hleast : least ≤ max)
    (hsmall : count s < 2 ^ 31) (hidx : idx + count s < 2 ^ 64) :
    LeastFrom (fun x => mem k s (x - b)) (b ⊔ least) ((b + width k - 1) ⊓ max)
      (nextMin tree idx b (width k) ((b + width k - 1) ⊓ max) least) := by
  have hmax := h.max_eq
  induction k generalizing s idx b with
  | zero =>
    have hlo : (if b < least then least else b) = b ⊔ least := by
      split_ifs <;> omega
    have hhi : Nat.min ((b + width 0 - 1) ⊓ max) tree.rangeMax = (b + width 0 - 1) ⊓ max := by
      rw [hmax]
      exact inf_of_le_left inf_le_right
    rw [nextMin, if_neg (by omega), dif_pos ((width_le_leafSize 0).mpr rfl), nextInLeaf, hlo, hhi]
    cases s with
    | leaf bits =>
      rw [show tree.root idx = bits from hcore]
      exact leafFrom_spec bits b (by omega)
    | inode q =>
      obtain ⟨⟨j, hj⟩, -⟩ := hwf
      cases hj
    | _ => cases hp
  | succ k ih =>
    cases s with
    | leaf bits => cases hwf.1
    | inode q =>
      have hbmax := hwf.2.1
      have hwidth := h.width_le (show k ≤ levels by omega)
      have hreach := le_trans h.le h.bound
      rw [nextMin, if_neg (by omega), dif_neg (by rw [width_le_leafSize]; omega), nextInterval_width]
      simp only
      rw [findSome_quadrants]
      refine leastFrom_segments (c := fun i => b + width k * i) (fun x hx _ hlt => ?_) (fun i _ hi => ?_) ?_
      · rw [Nat.mul_zero, Nat.add_zero] at hlt
        omega
      · obtain ⟨i, rfl⟩ : ∃ i' : Fin 4, i'.val = i := ⟨⟨i, by omega⟩, rfl⟩
        have hsucc : width k * (i.val + 1) = width k * i.val + width k := by ring
        have hprod : width k * (i.val + 1) ≤ width k * 4 := Nat.mul_le_mul_left _ (by omega)
        have hnum : num ((b : ℤ) + ((i.val : ℤ) + 1 - 1) * width k) = b + width k * i.val := by
          have hcast : (b : ℤ) + ((i.val : ℤ) + 1 - 1) * width k = ((b + width k * i.val : ℕ) : ℤ) := by
            push_cast
            ring
          rw [hcast, num_natCast (by omega)]
        have hmaxq : num ((b : ℤ) + width k * ((i.val : ℤ) + 1) - 1) = b + width k * i.val + width k - 1 := by
          have hcast : (b : ℤ) + width k * ((i.val : ℤ) + 1) - 1 = ((b + width k * i.val + width k - 1 : ℕ) : ℤ) := by
            rw [Nat.cast_sub (by omega)]
            push_cast
            ring
          rw [hcast, num_natCast (by omega)]
        have hhi : Nat.min (b + width k * i.val + width k - 1) ((b + width (k + 1) - 1) ⊓ max) =
            (b + width k * i.val + width k - 1) ⊓ max := by
          change min _ (min _ _) = min _ _
          rw [width_succ]
          omega
        refine Segment.congr (P := fun x => mem k (q i) (x - (b + width k * i.val))) ?_
          fun x hlo hlt => mem_quadrant q k i hlo hlt
        rw [hnum, hmaxq, hhi, show quadrantStatus (tree.root idx) ((i.val : ℤ) + 1) = (q i).status from hcore.1 i]
        have hchild := hwf.2.2 i
        rw [Nat.add_sub_cancel] at hchild
        have hlast := count_lt q i
        have hplace := getQuadrantNode_spec hcore hwf (h.interval (by omega)) hsmall hidx i
        rw [quadrantNum] at hplace
        rw [hplace]
        have hfound : (q i).status = .partially → Segment (fun x => mem k (q i) (x - (b + width k * i.val)))
            (b + width k * i.val) (b + width k * (i.val + 1)) (b ⊔ least) ((b + width (k + 1) - 1) ⊓ max)
            (if 0 < nextMin tree (idx + 1 + before q i) (b + width k * i.val) (width k)
                ((b + width k * i.val + width k - 1) ⊓ max) least then
              some (nextMin tree (idx + 1 + before q i) (b + width k * i.val) (width k)
                ((b + width k * i.val + width k - 1) ⊓ max) least) else none) := by
          intro hpart
          have hfirst : (b + width k * i.val) ⊔ least = Max.max (b + width k * i.val) (b ⊔ least) := by omega
          have hlast : (b + width k * i.val + width k - 1) ⊓ max =
              min (b + width k * (i.val + 1) - 1) ((b + width (k + 1) - 1) ⊓ max) := by
            rw [width_succ]
            omega
          refine LeastFrom.segment ?_ (by omega)
          rw [← hlast, ← hfirst]
          exact ih (by omega) (hcore.2 i).core hpart hchild (by omega) (by omega) (by omega)
        cases hq : q i with
        | out => exact segment_none fun x _ _ _ _ => rfl
        | skip =>
          rw [hq] at hchild
          exact segment_none fun x hx _ _ hhi => absurd (lt_of_lt_of_le hchild hx) (not_lt.mpr (hhi.trans inf_le_right))
        | all =>
          rw [hq] at hchild
          have hpos := width_pos k
          refine segment_all (fun _ => rfl) (Nat.le_add_right b _) (by omega) ?_ ?_
          · rw [width_succ]
            exact le_inf (by omega) hchild
          · rw [width_succ]
            omega
        | leaf bits =>
          rw [hq] at hfound
          exact hfound rfl
        | inode q' =>
          rw [hq] at hfound
          exact hfound rfl
      · show (b + width (k + 1) - 1) ⊓ max < b + width k * (0 + 4)
        rw [width_succ]
        omega
    | _ => cases hp

-- ---------------------------------------------------------------------------
-- Searches of range lists
-- ---------------------------------------------------------------------------

/-- The result is the least number above `n` that is in, of those that a `NUM` can be, or zero. -/
def IsNext (tree : RlTree) (n r : ℕ) : Prop :=
  (r = 0 ∧ ∀ m < 2 ^ 64, n < m → inRl tree m = false) ∨
    (n < r ∧ inRl tree r = true ∧ ∀ m, n < m → m < r → inRl tree m = false)

/-- A number of the range above `n` is in, or no number beyond the range is said to be; above the last `NUM` there is
no number, and none of the range may be in. -/
def FindsNext (tree : RlTree) (n : ℕ) : Prop :=
  (n + 1 < 2 ^ 64 ∧ ((∃ m, n < m ∧ m ≤ tree.rangeMax ∧ inRl tree m = true) ∨
    ∀ m < 2 ^ 64, tree.rangeMax < m → n < m → inRl tree m = false)) ∨
  (n + 1 = 2 ^ 64 ∧ ∀ m ≤ tree.rangeMax, inRl tree m = false)

theorem Rep.inRl_eq (h : Rep tree max levels q) {n : ℕ} (hlo : 1 ≤ n) (hle : n ≤ max) :
    Rltree.inRl tree n = Holds levels q n := by
  rw [Bool.eq_iff_iff, h.inRl hle]
  exact ⟨fun hin => hin.2, fun hin => ⟨hlo, hin⟩⟩

/-- The search finds the least number of the range from its bound on. -/
theorem Rep.nextMin (h : Rep tree max levels q) (least : ℕ) :
    LeastFrom (Rltree.inRl tree) (1 ⊔ least) max (Rltree.nextMin tree 0 1 tree.rootInterval tree.rangeMax least) := by
  have hmax := h.range.max_eq
  have hreach := h.range.le
  have hsize := h.size
  have hsmall := h.small
  rw [h.range.rootInterval, hmax]
  by_cases hleast : least ≤ max
  · have hhi : (1 + width (levels + 1) - 1) ⊓ max = max := by omega
    have hspec := nextMin_spec h.range le_rfl h.core rfl h.wf le_rfl hleast (by omega) (by omega)
    rw [hhi] at hspec
    have heq : ∀ x, 1 ⊔ least ≤ x → x ≤ max → Rltree.inRl tree x = mem (levels + 1) (inode q) (x - 1) :=
      fun x hlo hle => h.inRl_eq (by omega) hle
    rcases hspec with ⟨hr, hnone⟩ | ⟨hlo, hle, hP, hnone⟩
    · exact .inl ⟨hr, fun x hlo hle => (heq x hlo hle).trans (hnone x hlo hle)⟩
    · exact .inr ⟨hlo, hle, (heq _ hlo hle).trans hP,
        fun x hlo' hlt => (heq x hlo' (by omega)).trans (hnone x hlo' hlt)⟩
  · rw [Rltree.nextMin, if_pos (by omega)]
    exact .inl ⟨rfl, fun x hlo hle => by omega⟩

theorem num_succ {n : ℕ} (hn : n + 1 < 2 ^ 64) : num ((n : ℤ) + 1) = n + 1 := by
  rw [← Nat.cast_succ, num_natCast hn]

/-- Below the last `NUM` the search finds the least number of the range above it. -/
theorem Rep.rlNextInBigger (h : Rep tree max levels q) {n : ℕ} (hn : n + 1 < 2 ^ 64) :
    LeastFrom (Rltree.inRl tree) (n + 1) max (Rltree.rlNextInBigger tree n) := by
  have hspec := h.nextMin (n + 1)
  rw [sup_of_le_right (Nat.le_add_left 1 n)] at hspec
  rwa [Rltree.rlNextInBigger, num_succ hn]

theorem Rep.isNext_iff (h : Rep tree max levels q) {n : ℕ} (hn : n < 2 ^ 64) :
    IsNext tree n (Rltree.rlNextInBigger tree n) ↔ FindsNext tree n := by
  have hmax := h.range.max_eq
  have hbound := le_trans h.range.le h.range.bound
  unfold FindsNext IsNext
  rw [hmax]
  by_cases hlast : n + 1 = 2 ^ 64
  · -- the bound wraps around, and the search begins at the first number
    have hzero : num ((n : ℤ) + 1) = 0 := by
      unfold num
      omega
    have hspec := h.nextMin 0
    unfold Rltree.rlNextInBigger
    rw [hzero]
    have hin0 : Rltree.inRl tree 0 = false := by
      rw [Bool.eq_false_iff]
      exact fun hin => absurd ((h.inRl (Nat.zero_le max)).mp hin).1 (lt_irrefl 0)
    rcases hspec with ⟨hr, hnone⟩ | ⟨hlo, hle, hin, -⟩
    · refine iff_of_true (.inl ⟨hr, fun m hm hlt => by omega⟩) (.inr ⟨hlast, fun m hle => ?_⟩)
      obtain rfl | hpos := Nat.eq_zero_or_pos m
      · exact hin0
      · exact hnone m hpos hle
    · refine iff_of_false (fun hnext => ?_) fun hfinds => ?_
      · rcases hnext with ⟨hr, -⟩ | ⟨hlt, -⟩ <;> omega
      · rcases hfinds with ⟨hlt, -⟩ | ⟨-, hnone⟩
        · omega
        · exact Bool.eq_false_iff.mp (hnone _ hle) hin
  · have hlt : n + 1 < 2 ^ 64 := by omega
    rcases h.rlNextInBigger hlt with ⟨hr, hnone⟩ | ⟨hlo, hle, hin, hnone⟩
    · constructor
      · rintro (⟨-, hall⟩ | ⟨hpos, -⟩)
        · exact .inl ⟨hlt, .inr fun m hm _ hnm => hall m hm hnm⟩
        · omega
      · rintro (⟨-, hfinds⟩ | ⟨heq, -⟩)
        · refine .inl ⟨hr, fun m hm hnm => ?_⟩
          by_cases hmle : m ≤ max
          · exact hnone m hnm hmle
          · rcases hfinds with ⟨m', hnm', hle', hin⟩ | hall
            · exact absurd hin (Bool.eq_false_iff.mp (hnone m' hnm' hle'))
            · exact hall m hm (not_le.mp hmle) hnm
        · exact absurd heq hlast
    · exact iff_of_true (.inr ⟨hlo, hin, fun m hnm hmr => hnone m hnm hmr⟩) (.inl ⟨hlt, .inl ⟨_, hlo, hle, hin⟩⟩)

/-- The solutions after a number are the members of the range above it, in increasing order. -/
theorem Rep.solutionsAfter (h : Rep tree max levels q) {n turns : ℕ} (hn : n ≤ max) (hturns : max - n < turns) :
    Rltree.solutionsAfter tree turns n = some ((List.range' (n + 1) (max - n)).filter (Rltree.inRl tree)) := by
  have hbound := le_trans h.range.le h.range.bound
  induction turns generalizing n with
  | zero => omega
  | succ turns ih =>
    have hnext := h.rlNextInBigger (n := n) (by omega)
    rw [Rltree.solutionsAfter]
    generalize Rltree.rlNextInBigger tree n = r at hnext ⊢
    rcases hnext with ⟨rfl, hnone⟩ | ⟨hlo, hle, hin, hnone⟩
    · have hempty : (List.range' (n + 1) (max - n)).filter (Rltree.inRl tree) = [] := by
        refine List.filter_eq_nil_iff.mpr fun x hx => ?_
        obtain ⟨hlo, hhi⟩ := List.mem_range'_1.mp hx
        exact Bool.eq_false_iff.mp (hnone x hlo (by omega))
      rw [hempty]
      rfl
    · have hsplit : List.range' (n + 1) (max - n) =
          List.range' (n + 1) (r - (n + 1)) ++ r :: List.range' (r + 1) (max - r) := by
        rw [← List.range'_succ, show max - n = r - (n + 1) + (max - r + 1) by omega, ← List.range'_append_1,
          show n + 1 + (r - (n + 1)) = r by omega]
      have hbelow : (List.range' (n + 1) (r - (n + 1))).filter (Rltree.inRl tree) = [] := by
        refine List.filter_eq_nil_iff.mpr fun x hx => ?_
        obtain ⟨hlo, hhi⟩ := List.mem_range'_1.mp hx
        exact Bool.eq_false_iff.mp (hnone x hlo (by omega))
      rw [if_pos (by omega), ih hle (by omega), hsplit, List.filter_append, hbelow, List.nil_append,
        List.filter_cons_of_pos hin]
      rfl

end Rltree

end Yap
