-- SUMMARY: Setting a number in a range list sets it in the tree of quadrants, where no node is lost.
import Yap.Library.Rltree.Update

/-!
# Setting a number

The quadrants on the way to the number are split, from the first that has no
subtree down to the leaf.
-/

namespace Yap

namespace Rltree

open Subtree

variable {tree tree' : RlTree} {max levels k b off idx c : ℕ} {st : Status} {s s' : Subtree} {q q' : Fin 4 → Subtree}
  {i : Fin 4}

/-- What one call of `set_in` does to the subtree at a place. -/
structure SetIn (tree : RlTree) (idx : ℕ) (s s' : Subtree) (tree' : RlTree) : Prop where
  after : ∃ c, After tree idx s c s' tree'
  stored : Stored tree.root s idx → Stored tree'.root s' idx
  small : tree'.size < 2 ^ 31

/-- The number of nodes of the subtree is kept below the root, with the interval of a quadrant for the node's. -/
theorem updateSubnodes_spec (h : After tree idx (inode q) c (inode q') tree')
    (hheader : numSubnodes (tree'.root idx) = numSubnodes (tree.root idx)) (hwf : Wf max (inode q') (k + 1) b)
    (hidx : idx + count (inode q) ≤ tree.size) (hsmall : tree'.size < 2 ^ 31) :
    SetIn tree idx (inode q) (inode q') (updateSubnodes tree' idx (width k) c) where
  after := ⟨c, h.setNode _⟩
  small := hsmall
  stored hs := by
    have hsize := h.size
    have hcount := h.count
    have hnum : numSubnodes (tree'.root idx) = min 255 (count (inode q)) := hheader.trans hs.1
    refine ⟨?_, (h.setNode _).core⟩
    have hexact : (if numSubnodes (tree'.root idx) = 255 then treeSize tree' idx (width k)
        else c + numSubnodes (tree'.root idx)) = count (inode q') := by
      split_ifs with h255
      · -- a subtree of so many nodes has four levels
        have hbound := count_bound hwf
        have hlevel : 2 ≤ k := by
          by_contra hlt
          have hpow : 4 ^ (k + 1 + 1) ≤ 4 ^ 3 := Nat.pow_le_pow_right (by norm_num) (by omega)
          omega
        exact treeSize_spec ⟨by omega, h.core⟩ hwf rfl (by omega) (.inr ⟨rfl, hlevel⟩)
      · omega
    unfold updateSubnodes
    rw [hexact, RlTree.setNode_self, numSubnodes_setNumSubnodes _ (by split_ifs <;> omega)]
    split_ifs <;> omega

theorem setIn_leaf (number nodeNum : ℕ) : setIn number idx nodeNum (width 0) tree st =
    (tree.setNode idx (setNumBit (number - nodeNum) (tree.root idx) st), 0) := by
  rw [setIn, dif_pos ((width_le_leafSize 0).mpr rfl)]

theorem setIn_full (hr : InRange tree max levels) (hk : k ≤ levels) (hb : 1 ≤ b) (hoff : off < width (k + 1))
    (hle : b + off ≤ max) (hcore : Core tree.root (inode q) idx) (hfull : q (quadOf k off) = full st) :
    (setIn (b + off) idx b (width (k + 1)) tree st).1 = tree := by
  have hstatus : quadrantStatus (tree.root idx) (quadrantNum (quadOf k off)) = st.full := by
    rw [hcore.1]
    exact status_eq_full.mpr hfull
  rw [setIn, dif_neg (by rw [width_le_leafSize]; omega), numberQuadrant_spec hr hk hb hoff hle]
  simp only
  rw [if_pos hstatus]

/-- The number is set in a quadrant, after that is split where it has no subtree. -/
theorem setIn_inode (hr : InRange tree max levels) (hk : k ≤ levels) (hb : 1 ≤ b) (hoff : off < width (k + 1))
    (hle : b + off ≤ max) (hcore : Core tree.root (inode q) idx) (hwf : Wf max (inode q) (k + 1) b)
    (hidx : idx + count (inode q) ≤ tree.size) (hsmall : tree.size < 2 ^ 31)
    (hfull : q (quadOf k off) ≠ full st) {tree1 tree2 : RlTree}
    (hsplit : splitQuadrant tree idx (width (k + 1)) (quadrantNum (quadOf k off), b + width k * (quadOf k off).val,
      b + width k * ((quadOf k off).val + 1) - 1) st = tree1)
    (hset : (setIn (b + off) (idx + 1 + before q (quadOf k off)) (b + width k * (quadOf k off).val) (width k) tree1
      st).1 = tree2) :
    (setIn (b + off) idx b (width (k + 1)) tree st).1 = updateSubnodes tree2 idx (width k) (tree2.size - tree.size) := by
  have hstatus : quadrantStatus (tree.root idx) (quadrantNum (quadOf k off)) ≠ st.full := by
    rw [hcore.1]
    exact fun h => hfull (status_eq_full.mp h)
  subst hsplit hset
  rw [setIn, dif_neg (by rw [width_le_leafSize]; omega), numberQuadrant_spec hr hk hb hoff hle]
  simp only
  rw [if_neg hstatus, hr.interval hk, getQuadrantNode_spec hcore hwf (hr.interval hk) (by omega) (by omega)]

/-- What setting a number may do to the subtree at a place: no node is lost, and the places stay in their range. -/
def Keeps (tree : RlTree) (st : Status) (k : ℕ) (s : Subtree) (off idx : ℕ) : Prop :=
  ∀ a l, behind st k s off = some (a, l) → a + (tree.size - (idx + count s)) ≠ 1 ∧ tree.size + l + 1 < 2 ^ 31

/-- A quadrant that the number is to be set in has a subtree after it is split. -/
structure Split (tree : RlTree) (max : ℕ) (st : Status) (k b idx : ℕ) (q : Fin 4 → Subtree) (off : ℕ) (i : Fin 4)
    (s : Subtree) (tree1 : RlTree) : Prop where
  after : ∃ c, After tree idx (inode q) c (inode (Function.update q i s)) tree1
  header : numSubnodes (tree1.root idx) = numSubnodes (tree.root idx)
  status : s.status = .partially
  wf : Wf max s k b
  setSub : setSub max st k b s off = Subtree.setSub max st k b (q i) off
  small : tree1.size < 2 ^ 31
  keeps : Keeps tree1 st k s off (idx + 1 + before q i)

theorem splitQuadrant_spec (quadMax : ℕ) (hr : InRange tree max levels) (hk : k ≤ levels) (halloc : tree.memAlloc ≠ 0)
    (hcore : Core tree.root (inode q) idx) (hwf : Wf max (inode q) (k + 1) b)
    (hquad : b + width k * (quadOf k off).val + width k ≤ quadMax + 1) (hoff : off < width (k + 1))
    (hle : b + off ≤ max) (hidx : idx + count (inode q) ≤ tree.size) (hsmall : tree.size < 2 ^ 31)
    (hkeeps : Keeps tree st (k + 1) (inode q) off idx) (hfull : q (quadOf k off) ≠ full st) :
    ∃ s, Split tree max st k (b + width k * (quadOf k off).val) idx q (off % width k) (quadOf k off) s
      (splitQuadrant tree idx (width (k + 1))
        (quadrantNum (quadOf k off), b + width k * (quadOf k off).val, quadMax) st) := by
  have hoffset := offset_split hoff
  have hlt := quad_lt_width k off
  have hsum := count_inode q (quadOf k off)
  have hsplits : quadrantStatus (tree.root idx) (quadrantNum (quadOf k off)) = st.splits ↔
      q (quadOf k off) = blank st := by
    rw [hcore.1]
    exact status_eq_splits
  unfold splitQuadrant
  by_cases hblank : q (quadOf k off) = blank st
  · rw [if_pos (hsplits.mpr hblank)]
    simp only
    -- the new node is in front of those behind the quadrant
    have hzero : count (q (quadOf k off)) = 0 := by rw [hblank, count_blank]
    have hbehind : behind st (k + 1) (inode q) off = some (0 + after q (quadOf k off), k) := by
      rw [behind_inode, hblank, behind_blank]
      rfl
    have hkeep := hkeeps _ _ hbehind
    obtain ⟨hafter, hheader⟩ := newNode_spec quadMax hr hk halloc hcore hwf hblank hquad (by omega) hidx
      hsmall (by omega)
    have hsize := hafter.size
    refine ⟨fresh max st k (b + width k * (quadOf k off).val), ⟨1, hafter⟩, hheader, fresh_status,
      wf_fresh (by omega), by rw [hblank, setSub_blank], by omega, fun a l hal => ?_⟩
    obtain ⟨rfl, hlevel⟩ := behind_fresh (by omega) hlt hal
    rw [count_fresh]
    omega
  · rw [if_neg fun h => hblank (hsplits.mp h)]
    refine ⟨q (quadOf k off), ⟨0, by rw [Function.update_eq_self]; exact .refl halloc hcore⟩, rfl, ?_, hwf.2.2 _, rfl,
      hsmall, fun a l hal => ?_⟩
    · rcases quadrant_cases st ((hwf.2.2 (quadOf k off)).ne_skip (by simp only [Nat.add_sub_cancel]; omega)) with
        h | h | ⟨bits, h⟩ | ⟨q', h⟩
      · exact absurd h hblank
      · exact absurd h hfull
      · rw [h]
        rfl
      · rw [h]
        rfl
    · have hkeep := hkeeps (a + after q (quadOf k off)) l (by rw [behind_inode, hal]; rfl)
      omega

theorem before_update_self (q : Fin 4 → Subtree) (i : Fin 4) (s : Subtree) :
    before (Function.update q i s) i = before q i := by
  have h := before_update q i i s
  rwa [if_neg (lt_irrefl i), if_neg (lt_irrefl i)] at h

theorem setSub_status (hwf : Wf max s k b) (hp : s.status = .partially) :
    (setSub max st k b s off).status = .partially := by
  cases s with
  | leaf bits =>
    obtain ⟨rfl, -⟩ := hwf
    rfl
  | inode q =>
    obtain ⟨⟨j, rfl⟩, -⟩ := hwf
    rfl
  | _ => cases hp

theorem SetIn.leaf (halloc : tree.memAlloc ≠ 0) (hsmall : tree.size < 2 ^ 31) (node : RlNode) :
    SetIn tree idx (leaf (tree.root idx)) (leaf node) (tree.setNode idx node) where
  after := ⟨0, rfl, halloc, rfl, rfl, rfl, RlTree.setNode_self .., fun x hx => RlTree.setNode_of_ne _ _ (by omega),
    fun x hx _ => RlTree.setNode_of_ne _ _ (by rw [count] at hx; omega)⟩
  stored _ := RlTree.setNode_self ..
  small := hsmall

/-- A node takes what is done to the subtree of a quadrant, after the quadrant is split. -/
theorem Split.step {tree1 tree2 : RlTree} (h : Split tree max st k b idx q off i s tree1)
    (hidx : idx + count (inode q) ≤ tree.size) (hset : SetIn tree1 (idx + 1 + before q i) s s' tree2)
    (hstatus : s'.status = s.status) :
    ∃ c, After tree idx (inode q) c (inode (Function.update q i s')) tree2 ∧
      numSubnodes (tree2.root idx) = numSubnodes (tree.root idx) := by
  obtain ⟨c1, hafter⟩ := h.after
  obtain ⟨c2, hchild⟩ := hset.after
  have hplace := before_update_self q i s
  have hsize := hafter.size
  have hcount := hafter.count
  have hstored : Stored tree1.root s (idx + 1 + before q i) := by
    have hchildren := hafter.core.2 i
    rwa [Function.update_self, hplace] at hchildren
  have hnode : After tree1 idx (inode (Function.update q i s)) c2 (inode (Function.update q i s')) tree2 := by
    rw [← Function.update_idem s s' q]
    refine After.inode (by rwa [hplace, Function.update_self]) hafter.core (by omega)
      (by rwa [Function.update_self]) ?_
    rw [hplace]
    exact hset.stored hstored
  exact ⟨c1 + c2, hafter.trans hnode, by rw [hchild.front idx (by omega), h.header]⟩

/-- Setting a number below a node sets it in its subtree, where no node is lost. -/
theorem setIn_spec (hr : InRange tree max levels) (hk : k ≤ levels + 1) (halloc : tree.memAlloc ≠ 0)
    (hcore : Core tree.root s idx) (hp : s.status = .partially) (hwf : Wf max s k b) (hb : 1 ≤ b) (hoff : off < width k)
    (hle : b + off ≤ max) (hidx : idx + count s ≤ tree.size) (hsmall : tree.size < 2 ^ 31)
    (hkeeps : Keeps tree st k s off idx) :
    SetIn tree idx s (setSub max st k b s off) (setIn (b + off) idx b (width k) tree st).1 := by
  induction k generalizing tree s idx b off with
  | zero =>
    cases s with
    | leaf bits =>
      obtain rfl : tree.root idx = bits := hcore
      rw [setIn_leaf, Nat.add_sub_cancel_left, setSub_leaf]
      exact .leaf halloc hsmall _
    | inode q =>
      obtain ⟨⟨j, hj⟩, -⟩ := hwf
      cases hj
    | _ => cases hp
  | succ k ih =>
    cases s with
    | leaf bits => cases hwf.1
    | inode q =>
      have hoffset := offset_split hoff
      have hpos := width_pos k
      rw [setSub_inode]
      by_cases hfull : q (quadOf k off) = full st
      · rw [hfull, setSub_full, ← hfull, Function.update_eq_self, setIn_full hr (by omega) hb hoff hle hcore hfull]
        exact ⟨⟨0, .refl halloc hcore⟩, id, hsmall⟩
      · obtain ⟨s, hsplit⟩ := splitQuadrant_spec
          (b + width k * ((quadOf k off).val + 1) - 1) hr (by omega) halloc hcore hwf
          (by rw [Nat.mul_succ]; omega) hoff hle hidx hsmall hkeeps hfull
        rw [setIn_inode hr (by omega) hb hoff hle hcore hwf hidx hsmall hfull rfl rfl, ← hsplit.setSub]
        generalize splitQuadrant tree idx (width (k + 1)) _ st = tree1 at hsplit
        obtain ⟨c, hafter⟩ := hsplit.after
        have hsize := hafter.size
        have hcount := hafter.count
        have hlast := count_lt (Function.update q (quadOf k off) s) (quadOf k off)
        rw [Function.update_self, before_update_self] at hlast
        have hstored := hafter.core.2 (quadOf k off)
        rw [Function.update_self, before_update_self] at hstored
        have hnum : b + off = b + width k * (quadOf k off).val + off % width k := by omega
        have hset := ih (hr.of_eq hafter.rangeMax hafter.rootI) (by omega) hafter.alloc hstored.core hsplit.status
          hsplit.wf (b := b + width k * (quadOf k off).val) (by omega) (quad_lt_width k off) (by omega) (by omega)
          hsplit.small hsplit.keeps
        rw [← hnum] at hset
        obtain ⟨c', hafter', hheader⟩ := hsplit.step hidx hset (by rw [setSub_status hsplit.wf hsplit.status, hsplit.status])
        rw [hafter'.size, Nat.add_sub_cancel_left]
        have hwf' := (set_setSub st hwf hle hoff).wf
        rw [setSub_inode, ← hsplit.setSub] at hwf'
        exact updateSubnodes_spec hafter' hheader hwf' hidx hset.small
    | _ => cases hp

end Rltree

end Yap
