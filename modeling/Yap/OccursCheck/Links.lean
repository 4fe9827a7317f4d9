-- SUMMARY: What the links of a walk stand for: a link whose block has been walked through holds the term that was there, and one that the walk is below leads to where the walk is.
import Yap.OccursCheck.Tree
import Yap.Unify.Walk

/-!
# Links

The walk keeps one frame for each link that it is below. The value of a cell is the
one of its term, not the one of the link. Once the block of a link has been walked
through, both are the same; until then the right word of the link leads down to the
right cell that the walk has come to.
-/

namespace Yap

open Relation Preorder

variable {hp : Heap} {R : Finset Addr} {σ : Addr → Term} {a b : Key} {s : Store}

-- ---------------------------------------------------------------------------
-- References
-- ---------------------------------------------------------------------------

theorem Term.length_keys (t : Term) : t.keys.length = t.size := List.length_map ..

theorem Term.size_congr {t u : Term} (h : t.keys = u.keys) : t.size = u.size := by
  rw [← length_keys, ← length_keys, h]

variable (hp R σ) in
/-- A reference has the value of the cell that it refers to. -/
def RefsExact (s : Store) : Prop := ∀ x ∈ R, ∀ y, s.cell x = .ref y → (σ x).keys = (σ y).keys

/-- A chain of references ends in a cell with the same value. -/
theorem RefsExact.deref (h : RefsExact R σ s) (hR : Closed hp R s.cell) {y : Addr} (hy : y ∈ R) :
    ∃ w ∈ R, (σ y).keys = (σ w).keys ∧ s.deref (.ref y) = s.cell w ∧
      (s.cell w = .ref w ∨ ∃ d, s.cell w = .nonvar d) := by
  induction y using Store.deref_induction (s := s) with
  | unbound y hunbound =>
      exact ⟨y, hy, rfl, by rw [Store.deref, Store.derefCell_unbound hunbound, hunbound], .inl hunbound⟩
  | ref y z hcell hz ih =>
      obtain ⟨w, hw, hkeys, hderef, hend⟩ := ih (hR y hy z (by simp [hcell, Cell.cells]))
      refine ⟨w, hw, (h y hy z hcell).trans hkeys, ?_, hend⟩
      rw [← hderef, Store.deref, Store.derefCell_ne (by simp [hcell, hz]), hcell]
  | nonvar y d hcell =>
      refine ⟨y, hy, rfl, ?_, .inr ⟨d, hcell⟩⟩
      rw [Store.deref, Store.derefCell_ne (by simp [hcell]), hcell]
      rfl

/-- A link changes where the cells lead that led to it or through it. -/
theorem RefsExact.deref_link {s' : Store} (h : RefsExact R σ s) (hR : Closed hp R s.cell) {x : Addr}
    {d : Nonvar} (hcell : s'.cell = Function.update s.cell x (.nonvar d)) {y : Addr} (hy : y ∈ R) :
    s'.deref (.ref y) = s.deref (.ref y) ∨
      (s'.deref (.ref y) = .nonvar d ∧ (σ y).keys = (σ x).keys) := by
  have hlink : s'.derefCell x = .nonvar d := by
    have hx : s'.cell x = .nonvar d := by rw [hcell, Function.update_self]
    rw [Store.derefCell_ne (by simp [hx]), hx]
    rfl
  rw [Store.deref, Store.deref]
  induction y using Store.deref_induction (s := s) with
  | unbound y hunbound =>
      by_cases hyx : y = x
      · exact .inr ⟨hyx ▸ hlink, by rw [hyx]⟩
      · have hy' : s'.cell y = .ref y := by rw [hcell, Function.update_of_ne hyx, hunbound]
        exact .inl (by rw [Store.derefCell_unbound hunbound, Store.derefCell_unbound hy'])
  | ref y z hz hzy ih =>
      by_cases hyx : y = x
      · exact .inr ⟨hyx ▸ hlink, by rw [hyx]⟩
      · have hy' : s'.cell y = .ref z := by rw [hcell, Function.update_of_ne hyx, hz]
        rw [Store.derefCell_ne (by simp [hy', hzy]), hy', Store.derefCell_ne (by simp [hz, hzy]), hz]
        rcases ih (hR y hy z (by simp [hz, Cell.cells])) with hsame | ⟨hto, hkeys⟩
        · exact .inl hsame
        · exact .inr ⟨hto, (h y hy z hz).trans hkeys⟩
  | nonvar y e he =>
      by_cases hyx : y = x
      · exact .inr ⟨hyx ▸ hlink, by rw [hyx]⟩
      · have hy' : s'.cell y = .nonvar e := by rw [hcell, Function.update_of_ne hyx, he]
        refine .inl ?_
        rw [Store.derefCell_ne (by simp [hy']), hy', Store.derefCell_ne (by simp [he]), he]
        rfl

-- ---------------------------------------------------------------------------
-- Frames
-- ---------------------------------------------------------------------------

namespace Frame

/-- The left cell that the block was left at. -/
def left (fr : Frame) : Addr := fr.pt0 - 1

def right (fr : Frame) : Addr := fr.pt1 - 1

/-- The left cells that remain. -/
def lefts (fr : Frame) : List Addr := List.range' fr.pt0 (fr.pt0End - fr.pt0)

def rights (fr : Frame) : List Addr := List.range' fr.pt1 (fr.pt0End - fr.pt0)

@[simp] theorem left_advance (fr : Frame) : fr.advance.left = fr.pt0 := Nat.add_sub_cancel ..

@[simp] theorem right_advance (fr : Frame) : fr.advance.right = fr.pt1 := Nat.add_sub_cancel ..

theorem sides_of_lt {fr : Frame} (h : fr.pt0 < fr.pt0End) :
    fr.lefts = fr.pt0 :: fr.advance.lefts ∧ fr.rights = fr.pt1 :: fr.advance.rights := by
  have hlen : fr.pt0End - fr.pt0 = fr.pt0End - (fr.pt0 + 1) + 1 :=
    (Nat.succ_pred_eq_of_pos (Nat.sub_pos_of_lt h)).symm
  rw [lefts, rights, hlen, List.range'_succ, List.range'_succ]
  exact ⟨rfl, rfl⟩

theorem sides_of_not_lt {fr : Frame} (h : ¬ fr.pt0 < fr.pt0End) : fr.lefts = [] ∧ fr.rights = [] := by
  rw [lefts, rights, Nat.sub_eq_zero_of_le (not_lt.mp h)]
  exact ⟨rfl, rfl⟩

theorem sides_block (l r : Addr) (n : ℕ) :
    Frame.lefts ⟨l, l + n, r⟩ = List.range' l n ∧ Frame.rights ⟨l, l + n, r⟩ = List.range' r n := by
  rw [lefts, rights, Nat.add_sub_cancel_left]
  exact ⟨rfl, rfl⟩

end Frame

/-- The number of keys on the right sides of pairs of cells. -/
def rightCost (σ : Addr → Term) (prs : List (Addr × Addr)) : ℕ := (sideKeys σ Prod.snd prs).length

theorem rightCost_cons (pr : Addr × Addr) (prs : List (Addr × Addr)) :
    rightCost σ (pr :: prs) = (σ pr.2).size + rightCost σ prs := by
  rw [rightCost, sideKeys_cons, List.length_append, Term.length_keys]
  rfl

variable (hp σ) in
/-- A link that the walk is below. The cells `xs` are below its left cell, `ys` are
    arguments of its right word, `above` are links further down, `cost` keys remain
    of its block before the first difference after `n` keys, and its own block began
    `N` keys before the difference. -/
structure Pending (s : Store) (n : ℕ) (xs ys above : List Addr) (cost N : ℕ) (fr : Frame) : Prop where
  linked : ∃ d, s.cell fr.left = .nonvar d
  rights : ∀ y ∈ ys, y ∈ (s.cell fr.left).cells hp
  closes : cost ≤ n → (σ fr.left).keys = ((s.cell fr.left).value hp σ).keys ∧ (σ fr.left).size ≤ N
  longer : min (N + 1) ((s.cell fr.left).value hp σ).size ≤ (σ fr.right).size
  smaller : ∀ x ∈ xs, (σ x).size < (σ fr.left).size
  leads : s.deref (.ref fr.right) = s.cell fr.left ∨
    ∃ x ∈ above, (σ fr.right).keys = (σ x).keys ∧ s.deref (.ref fr.right) = s.cell x

variable (hp σ) in
/-- The links that the walk is below, the last one first. -/
inductive Nested (s : Store) (n : ℕ) : List Addr → List Addr → List Addr → ℕ → ℕ → List Frame → Prop where
  | nil {xs ys above : List Addr} {cost N : ℕ} : Nested s n xs ys above cost N []
  | cons {xs ys above : List Addr} {cost N M : ℕ} {fr : Frame} {rest : List Frame} : N < M →
      Pending hp σ s n xs ys above cost M fr →
      Nested s n (fr.left :: (fr.lefts ++ xs)) (fr.right :: fr.rights) (fr.left :: above)
        (cost + rightCost σ fr.pairs) M rest →
      Nested s n xs ys above cost N (fr :: rest)

/-- The walk may go on. -/
theorem Nested.mono {n n' cost cost' N N' : ℕ} {xs xs' ys ys' above : List Addr} {frames : List Frame}
    (h : Nested hp σ s n xs ys above cost N frames) (hxs : ∀ x ∈ xs', x ∈ xs) (hys : ∀ y ∈ ys', y ∈ ys)
    (hN : N' ≤ N) (hcost : ∀ k, cost' + k ≤ n' → cost + k ≤ n) :
    Nested hp σ s n' xs' ys' above cost' N' frames := by
  induction h generalizing xs' ys' cost' N' with
  | nil => exact .nil
  | @cons xs ys above cost N N₁ fr rest hlt hpend _ ih =>
      refine .cons (hN.trans_lt hlt) ⟨hpend.linked, fun y hy => hpend.rights y (hys y hy),
        fun hle => hpend.closes (hcost 0 hle), hpend.longer, fun x hx => hpend.smaller x (hxs x hx),
        hpend.leads⟩ (ih ?_ (fun _ h => h) le_rfl fun k hk => ?_)
      · intro x hx
        rcases List.mem_cons.mp hx with rfl | hx
        · exact List.mem_cons_self ..
        · refine List.mem_cons_of_mem _ ?_
          rcases List.mem_append.mp hx with hx | hx
          · exact List.mem_append_left _ hx
          · exact List.mem_append_right _ (hxs x hx)
      · have hsum := hcost (rightCost σ fr.pairs + k) (by omega)
        omega

/-- Behind a link whose block has been walked through, no right cell leads to it. -/
theorem Nested.drop {n cost N : ℕ} {xs ys above above' : List Addr} {frames : List Frame} {v : Addr}
    (h : Nested hp σ s n xs ys above cost N frames) (habove : ∀ x ∈ above, x = v ∨ x ∈ above')
    (hN : (σ v).size ≤ N) (hy : ∃ y ∈ ys, (σ v).size ≤ (σ y).size) :
    Nested hp σ s n xs ys above' cost N frames := by
  induction h generalizing above' with
  | nil => exact .nil
  | @cons xs ys above cost N N₁ fr rest hlt hpend _ ih =>
      obtain ⟨y, hymem, hysize⟩ := hy
      obtain ⟨d, hd⟩ := hpend.linked
      have hvalue : (σ y).size < ((s.cell fr.left).value hp σ).size := by
        have hcells := hpend.rights y hymem
        rw [hd] at hcells ⊢
        exact Nonvar.size_lt hcells
      have hright : (σ v).size < (σ fr.right).size := by
        have hlonger := hpend.longer
        omega
      refine .cons hlt ⟨hpend.linked, hpend.rights, hpend.closes, hpend.longer, hpend.smaller, ?_⟩
        (ih (fun x hx => ?_) (by omega) ⟨fr.right, List.mem_cons_self .., hright.le⟩)
      · rcases hpend.leads with hleads | ⟨x, hx, hkeys, hleads⟩
        · exact .inl hleads
        · rcases habove x hx with rfl | hx
          · exact absurd (Term.size_congr hkeys) hright.ne'
          · exact .inr ⟨x, hx, hkeys, hleads⟩
      · rcases List.mem_cons.mp hx with rfl | hx
        · exact .inr (List.mem_cons_self ..)
        · exact (habove x hx).imp_right (List.mem_cons_of_mem _)

/-- The cells of links are not below themselves. -/
theorem Nested.left_ne {n cost N : ℕ} {xs ys above : List Addr} {frames : List Frame} {x : Addr}
    (h : Nested hp σ s n xs ys above cost N frames) {w : Addr} (hw : w ∈ xs)
    (hkeys : (σ x).keys = (σ w).keys) : ∀ fr ∈ frames, fr.left ≠ x := by
  induction h with
  | nil => rintro fr ⟨⟩
  | @cons xs ys above cost N N₁ fr rest hlt hpend _ ih =>
      intro fr' hfr'
      rcases List.mem_cons.mp hfr' with rfl | hfr'
      · rintro rfl
        exact absurd (Term.size_congr hkeys) (hpend.smaller w hw).ne'
      · exact ih (List.mem_cons_of_mem _ (List.mem_append_right _ hw)) fr' hfr'

/-- A new link below the others. -/
theorem Nested.link {s' : Store} {n m cost cost' N N' : ℕ} {xs xs' ys ys' above above' : List Addr}
    {frames : List Frame} {x : Addr} {d : Nonvar} (h : Nested hp σ s n xs ys above cost N frames)
    (hcell : s'.cell = Function.update s.cell x (.nonvar d)) (hrefs : RefsExact R σ s)
    (hR : Closed hp R s.cell) (hframes : ∀ fr ∈ frames, fr.right ∈ R) (hx : x ∈ xs)
    (habove : ∀ w ∈ above, w ≠ x ∧ w ∈ above') (hxabove : x ∈ above') (hys : ∀ y ∈ ys', y ∈ ys)
    (hxs : ∀ w ∈ xs', (σ w).size ≤ (σ x).size ∨ w ∈ xs) (hN : N' ≤ N)
    (hcost : ∀ k, cost' + k ≤ m → cost + k ≤ n) :
    Nested hp σ s' m xs' ys' above' cost' N' frames := by
  induction h generalizing xs' ys' above' cost' N' with
  | nil => exact .nil
  | @cons xs ys above cost N N₁ fr rest hlt hpend _ ih =>
      have hsmall := hpend.smaller x hx
      have hleft : fr.left ≠ x := by
        rintro rfl
        exact lt_irrefl _ hsmall
      have hsame : ∀ w, w ≠ x → s'.cell w = s.cell w := fun w hw => by
        rw [hcell, Function.update_of_ne hw]
      have hlink : s'.cell x = .nonvar d := by rw [hcell, Function.update_self]
      refine .cons (hN.trans_lt hlt) ⟨?_, fun y hy => ?_, fun hle => ?_, ?_, fun w hw => ?_, ?_⟩
        (ih (fun fr' hfr' => hframes fr' (List.mem_cons_of_mem _ hfr')) ?_ ?_ ?_ (fun _ h => h) ?_ le_rfl
          fun k hk => ?_)
      · rw [hsame _ hleft]
        exact hpend.linked
      · rw [hsame _ hleft]
        exact hpend.rights y (hys y hy)
      · rw [hsame _ hleft]
        exact hpend.closes (hcost 0 hle)
      · rw [hsame _ hleft]
        exact hpend.longer
      · rcases hxs w hw with hle | hmem
        · exact hle.trans_lt hsmall
        · exact hpend.smaller w hmem
      · have hfr := hframes fr (List.mem_cons_self ..)
        rcases hrefs.deref_link hR hcell hfr with hderef | ⟨hderef, hkeys⟩
        · rw [hderef, hsame _ hleft]
          refine hpend.leads.imp_right ?_
          rintro ⟨w, hw, hkeys, hleads⟩
          obtain ⟨hwx, hw'⟩ := habove w hw
          exact ⟨w, hw', hkeys, by rw [hleads, hsame _ hwx]⟩
        · exact .inr ⟨x, hxabove, hkeys, by rw [hderef, hlink]⟩
      · exact List.mem_cons_of_mem _ (List.mem_append_right _ hx)
      · intro w hw
        rcases List.mem_cons.mp hw with rfl | hw
        · exact ⟨hleft, List.mem_cons_self ..⟩
        · exact ⟨(habove w hw).1, List.mem_cons_of_mem _ (habove w hw).2⟩
      · exact List.mem_cons_of_mem _ hxabove
      · intro w hw
        rcases List.mem_cons.mp hw with rfl | hw
        · exact .inr (List.mem_cons_self ..)
        · rcases List.mem_append.mp hw with hw | hw
          · exact .inr (List.mem_cons_of_mem _ (List.mem_append_left _ hw))
          · exact (hxs w hw).imp_right fun hw => List.mem_cons_of_mem _ (List.mem_append_right _ hw)
      · have hsum := hcost (rightCost σ fr.pairs + k) (by omega)
        omega

theorem Nested.linked {n cost N : ℕ} {xs ys above : List Addr} {frames : List Frame}
    (h : Nested hp σ s n xs ys above cost N frames) : ∀ fr ∈ frames, ∃ d, s.cell fr.left = .nonvar d := by
  induction h with
  | nil => rintro fr ⟨⟩
  | cons _ hpend _ ih =>
      intro fr hfr
      rcases List.mem_cons.mp hfr with rfl | hfr
      · exact hpend.linked
      · exact ih fr hfr

-- ---------------------------------------------------------------------------
-- The walk with its links
-- ---------------------------------------------------------------------------

variable (hp R σ a b) in
/-- A walk, and what its links stand for. -/
structure Tracks (st : UnifyState) (n : ℕ) : Prop extends Walks hp R σ a b st n where
  sides : ∀ fr ∈ st.toVisit, fr.left ∈ R ∧ fr.right ∈ R
  done : ∀ x ∈ R, (σ x).keys = ((st.store.cell x).value hp σ).keys ∨ ∃ fr ∈ st.toVisit, fr.left = x
  nested : Nested hp σ st.store n st.frame.lefts st.frame.rights [] (rightCost σ st.frame.pairs) n st.toVisit

theorem Tracks.refsExact {st : UnifyState} {n : ℕ} (h : Tracks hp R σ a b st n) :
    RefsExact R σ st.store := by
  intro x hx y hcell
  rcases h.done x hx with hkeys | ⟨fr, hfr, rfl⟩
  · rwa [hcell] at hkeys
  · obtain ⟨d, hd⟩ := h.nested.linked fr hfr
    cases hd.symm.trans hcell

/-- The next cells of the two sides. -/
theorem Tracks.next_mem {st : UnifyState} {n : ℕ} (h : Tracks hp R σ a b st n)
    (hlt : st.frame.pt0 < st.frame.pt0End) : st.frame.pt0 ∈ R ∧ st.frame.pt1 ∈ R := by
  refine h.pairs (st.frame.pt0, st.frame.pt1) ?_
  rw [UnifyState.pairs_next hlt]
  exact List.mem_cons_self ..

/-- A right cell that is read in full has the value of its word. -/
theorem Tracks.right_exact {st : UnifyState} {n : ℕ} (h : Tracks hp R σ a b st n)
    (hlt : st.frame.pt0 < st.frame.pt0End)
    (hle : ((st.store.deref (.ref st.frame.pt1)).value hp σ).size ≤ n + 1) :
    (σ st.frame.pt1).keys = ((st.store.deref (.ref st.frame.pt1)).value hp σ).keys :=
  ((h.deref (h.next_mem hlt).2).symm.heads_eq ((Term.length_keys _).trans_le hle)).symm

/-- A left cell has the value of its word: no link above it is read. -/
theorem Tracks.left_exact {st : UnifyState} {n : ℕ} (h : Tracks hp R σ a b st n)
    (hlt : st.frame.pt0 < st.frame.pt0End) {d : Nonvar}
    (hd : st.store.deref (.ref st.frame.pt0) = .nonvar d) :
    (σ st.frame.pt0).keys = (d.value hp σ).keys := by
  obtain ⟨w, hw, hkeys, hderef, -⟩ := h.refsExact.deref h.closed (h.next_mem hlt).1
  rw [hd] at hderef
  rcases h.done w hw with hdone | ⟨fr, hfr, rfl⟩
  · rw [hkeys, hdone, ← hderef]
    rfl
  · have hmem : st.frame.pt0 ∈ st.frame.lefts := by
      rw [(Frame.sides_of_lt hlt).1]
      exact List.mem_cons_self ..
    exact absurd rfl (h.nested.left_ne hmem hkeys.symm fr hfr)

theorem Tracks.ret {st : UnifyState} {n : ℕ} (h : Tracks hp R σ a b st n) {frame : Frame}
    {toVisit : List Frame} (hlt : ¬ st.frame.pt0 < st.frame.pt0End) (hv : st.toVisit = frame :: toVisit) :
    Tracks hp R σ a b { st with frame, toVisit } n := by
  have hnested := h.nested
  obtain ⟨hlefts, hrights⟩ := Frame.sides_of_not_lt hlt
  rw [hv, hlefts, hrights, Frame.pairs_of_not_lt hlt] at hnested
  cases hnested with
  | @cons _ _ _ _ _ N _ _ hN hpend hrest =>
      obtain ⟨hclosed, hsize⟩ := hpend.closes (Nat.zero_le n)
      refine ⟨h.toWalks.ret hlt hv, fun fr hfr => h.sides fr (hv ▸ List.mem_cons_of_mem _ hfr),
        fun x hx => ?_, ?_⟩
      · rcases h.done x hx with hdone | ⟨fr, hfr, rfl⟩
        · exact .inl hdone
        · rcases List.mem_cons.mp (hv ▸ hfr) with rfl | hfr
          · exact .inl hclosed
          · exact .inr ⟨fr, hfr, rfl⟩
      · have hright : (σ frame.left).size ≤ (σ frame.right).size := by
          have hlonger := hpend.longer
          rw [← Term.size_congr hclosed] at hlonger
          omega
        have habove : ∀ x ∈ [frame.left], x = frame.left ∨ x ∈ [] := fun x hx => .inl (List.mem_singleton.mp hx)
        have hdrop := hrest.drop habove hsize ⟨_, List.mem_cons_self .., hright⟩
        refine hdrop.mono (fun x hx => List.mem_cons_of_mem _ (List.mem_append_left _ hx))
          (fun y hy => List.mem_cons_of_mem _ hy) hN.le fun k hk => ?_
        simpa [rightCost, sideKeys] using hk

theorem Tracks.next {st : UnifyState} {n : ℕ} (h : Tracks hp R σ a b st n)
    (hlt : st.frame.pt0 < st.frame.pt0End)
    (hstep : unifyArgs hp st.store st.frame.pt0 st.frame.pt1 = .next) :
    ∃ m, Tracks hp R σ a b { st with frame := st.frame.advance } m := by
  obtain ⟨m, hn, -, hm⟩ := h.toWalks.next hlt hstep
  rw [Term.length_keys] at hn
  have hsize := Term.size_congr (h.right_exact hlt (by omega))
  obtain ⟨hlefts, hrights⟩ := Frame.sides_of_lt hlt
  refine ⟨m, hm, h.sides, h.done, h.nested.mono (fun x hx => ?_) (fun y hy => ?_) (by omega) fun k hk => ?_⟩
  · rw [hlefts]
    exact List.mem_cons_of_mem _ hx
  · rw [hrights]
    exact List.mem_cons_of_mem _ hy
  · rw [Frame.pairs_of_lt hlt, rightCost_cons]
    simp only at hk ⊢
    omega

theorem Tracks.visit {st : UnifyState} {n : ℕ} (h : Tracks hp R σ a b st n)
    (hlt : st.frame.pt0 < st.frame.pt0End) {l r : Addr} {k : ℕ} {d1 : Nonvar}
    (hstep : unifyArgs hp st.store st.frame.pt0 st.frame.pt1 = .visit l r k d1) :
    ∃ m, Tracks hp R σ a b (st.descend l r k d1) m := by
  obtain ⟨m, hn, hagree, hm⟩ := h.toWalks.visit hlt hstep
  obtain ⟨hx, hy⟩ := h.next_mem hlt
  obtain ⟨hlefts, hrights⟩ := Frame.sides_of_lt hlt
  obtain ⟨hblockl, hblockr⟩ := Frame.sides_block l r k
  have hspec := unifyArgs_spec hp st.store st.frame.pt0 st.frame.pt1
  rw [hstep] at hspec
  cases hspec with
  | @visit d0 _ _ _ _ hd0 hd1 hl hr hkey =>
      have hexact := h.left_exact hlt hd0
      have hcost : rightCost σ (Frame.pairs ⟨l, l + k, r⟩) + 1 = (d1.value hp σ).size := by
        rw [rightCost, Frame.pairs_block, sideKeys_snd_zip, ← Term.length_keys, keys_value_of_block hr]
        rfl
      have hyexact : (d1.value hp σ).size ≤ n → (σ st.frame.pt1).size = (d1.value hp σ).size := by
        intro hle
        have hright := h.right_exact hlt
        rw [hd1] at hright
        exact Term.size_congr (hright (hle.trans n.le_succ))
      have hsmall : ∀ w ∈ List.range' l k, (σ w).size < (σ st.frame.pt0).size := by
        intro w hw
        rw [Term.size_congr hexact]
        exact Nonvar.size_lt (by rwa [Nonvar.cells_of_block hl])
      have hcell : (st.descend l r k d1).store.cell =
          Function.update st.store.cell st.frame.pt0 (.nonvar d1) := rfl
      have hlink : (st.descend l r k d1).store.cell st.frame.pt0 = .nonvar d1 := by
        rw [hcell, Function.update_self]
      refine ⟨m, hm, fun fr hfr => ?_, fun x hxR => ?_, ?_⟩
      · rcases List.mem_cons.mp hfr with rfl | hfr
        · rw [Frame.left_advance, Frame.right_advance]
          exact ⟨hx, hy⟩
        · exact h.sides fr hfr
      · by_cases hxx : x = st.frame.pt0
        · exact .inr ⟨st.frame.advance, List.mem_cons_self .., by rw [Frame.left_advance, hxx]⟩
        · rw [hcell, Function.update_of_ne hxx]
          rcases h.done x hxR with hdone | ⟨fr, hfr, hleft⟩
          · exact .inl hdone
          · exact .inr ⟨fr, List.mem_cons_of_mem _ hfr, hleft⟩
      · refine .cons (M := n) (by omega) ⟨?_, ?_, ?_, ?_, ?_, ?_⟩ ?_
        · exact ⟨d1, by rw [Frame.left_advance, hlink]⟩
        · intro y hyr
          rw [Frame.left_advance, hlink, Cell.cells, Nonvar.cells_of_block hr, ← hblockr]
          exact hyr
        · intro hle
          rw [Frame.left_advance, hlink, Cell.value]
          simp only [UnifyState.descend] at hle
          have hread : (d1.value hp σ).size ≤ n := by omega
          have hkeys : (σ st.frame.pt0).keys = (d1.value hp σ).keys :=
            (hagree.symm.heads_eq ((Term.length_keys _).trans_le hread)).symm
          exact ⟨hkeys, (Term.size_congr hkeys).trans_le hread⟩
        · rw [Frame.left_advance, Frame.right_advance, hlink, Cell.value]
          have htake := congrArg List.length (h.deref hy)
          rw [hd1, List.length_take, List.length_take] at htake
          change min (n + 1) (Term.keys _).length = min (n + 1) (Term.keys _).length at htake
          rw [Term.length_keys, Term.length_keys, Cell.value] at htake
          omega
        · intro w hw
          rw [Frame.left_advance]
          exact hsmall w (hblockl ▸ hw)
        · rw [Frame.left_advance, Frame.right_advance, hlink]
          rcases h.refsExact.deref_link h.closed hcell hy with hsame | ⟨hto, -⟩
          · exact .inl (hsame.trans hd1)
          · exact .inl hto
        · refine h.nested.link (x := st.frame.pt0) hcell h.refsExact h.closed (fun fr hfr => (h.sides fr hfr).2)
            ?_ (by rintro w ⟨⟩) ?_ ?_ ?_ le_rfl ?_
          · rw [hlefts]
            exact List.mem_cons_self ..
          · rw [Frame.left_advance]
            exact List.mem_cons_self ..
          · rw [Frame.right_advance, hrights]
            exact fun _ h => h
          · intro w hw
            rw [Frame.left_advance] at hw
            rcases List.mem_cons.mp hw with rfl | hw
            · exact .inl le_rfl
            · rcases List.mem_append.mp hw with hw | hw
              · rw [hlefts]
                exact .inr (List.mem_cons_of_mem _ hw)
              · exact .inl (hsmall w (hblockl ▸ hw)).le
          · intro j hj
            rw [Frame.pairs_of_lt hlt, rightCost_cons]
            simp only [UnifyState.descend] at hj ⊢
            have hyeq := hyexact (by omega)
            omega

/-- A move keeps what the links stand for. -/
theorem Tracks.move {st st' : UnifyState} {n : ℕ} (h : Tracks hp R σ a b st n) (hmove : Move hp st st') :
    ∃ m, Tracks hp R σ a b st' m := by
  cases hmove with
  | ret hlt hv => exact ⟨n, h.ret hlt hv⟩
  | next hlt hstep => exact h.next hlt hstep
  | visit hlt hstep => exact h.visit hlt hstep

theorem tracks_init {s : Store} {frame : Frame} (hregion : InRegion hp R (.init s frame))
    (hσ : Models hp R s.cell σ) : ∃ a b n, Tracks hp R σ a b (.init s frame) n := by
  obtain ⟨a, b, n, hwalk⟩ := walks_init hregion hσ
  exact ⟨a, b, n, hwalk, by rintro fr ⟨⟩, fun x hx => .inl (by rw [hσ x hx]; rfl), .nil⟩

/-- What the links of a run without bindings stand for. -/
theorem exists_tracks {s : Store} {frame : Frame} {st : UnifyState}
    (hregion : InRegion hp R (.init s frame)) (hσ : Models hp R s.cell σ)
    (hmoves : ReflTransGen (Move hp) (.init s frame) st) : ∃ a b n, Tracks hp R σ a b st n := by
  obtain ⟨a, b, n, htracks⟩ := tracks_init hregion hσ
  induction hmoves with
  | refl => exact ⟨a, b, n, htracks⟩
  | tail _ hmove ih =>
      obtain ⟨a, b, m, hm⟩ := ih
      obtain ⟨m', hm'⟩ := hm.move hmove
      exact ⟨a, b, m', hm'⟩

end Yap
