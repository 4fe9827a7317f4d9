-- SUMMARY: The search for a cycle ends, and it finds one exactly when a cell that it starts from does not unfold to a finite term.
import Yap.OccursCheck.Code
import Yap.Unify.Solutions

/-!
# The search for a cycle

The marked cells are the ones that the search is below. In a valuation the cells
below a cell have smaller values, so a valuation excludes that a mark is met.
-/

namespace Yap

variable {hp : Heap} {s : Store} {R : Finset Addr} {σ : Addr → Term}

-- ---------------------------------------------------------------------------
-- Marked cells
-- ---------------------------------------------------------------------------

theorem Store.derefMarked_marked {marks : List Addr} {a : Addr} (h : a ∈ marks) : s.derefMarked marks a = none := by
  rw [derefMarked, if_pos h]

theorem Store.derefMarked_unbound {marks : List Addr} {a : Addr} (h : a ∉ marks) (ha : s.cell a = .ref a) :
    s.derefMarked marks a = some (.ref a) := by
  rw [derefMarked, if_neg h]
  split
  case h_1 b hb =>
    obtain rfl := Cell.ref.inj (hb.symm.trans ha)
    exact if_pos rfl
  case h_2 d hd => cases hd.symm.trans ha

theorem Store.derefMarked_ref {marks : List Addr} {a b : Addr} (h : a ∉ marks) (ha : s.cell a = .ref b) (hb : b ≠ a) :
    s.derefMarked marks a = s.derefMarked marks b := by
  rw [derefMarked, if_neg h]
  split
  case h_1 c hc =>
    obtain rfl := Cell.ref.inj (hc.symm.trans ha)
    exact if_neg hb
  case h_2 d hd => cases hd.symm.trans ha

theorem Store.derefMarked_nonvar {marks : List Addr} {a : Addr} {d : Nonvar} (h : a ∉ marks)
    (ha : s.cell a = .nonvar d) : s.derefMarked marks a = some (.nonvar d) := by
  rw [derefMarked, if_neg h]
  split
  case h_1 b hb => cases hb.symm.trans ha
  case h_2 e he => rw [Cell.nonvar.inj (he.symm.trans ha)]

/-- A cell that is dereferenced is not marked. -/
theorem Store.notMem_of_derefMarked {marks : List Addr} {a : Addr} {c : Cell}
    (h : s.derefMarked marks a = some c) : a ∉ marks := by
  intro hmem
  rw [derefMarked_marked hmem] at h
  cases h

/-- A chain of references that meets no mark leads where it does without marks. -/
theorem Store.deref_of_derefMarked {marks : List Addr} {a : Addr} {c : Cell}
    (h : s.derefMarked marks a = some c) : s.deref (.ref a) = c := by
  have hmark := notMem_of_derefMarked h
  induction a using Store.deref_induction (s := s) with
  | unbound a ha =>
      rw [derefMarked_unbound hmark ha] at h
      rw [deref_of_unbound ha, Option.some.inj h]
  | ref a b ha hb ih =>
      rw [derefMarked_ref hmark ha hb] at h
      rw [deref_of_cell ha fun heq => hb (Cell.ref.inj heq)]
      exact ih h (notMem_of_derefMarked h)
  | nonvar a d ha =>
      rw [derefMarked_nonvar hmark ha] at h
      rw [deref_of_cell ha fun heq => (by cases heq), ← Option.some.inj h]
      rfl

/-- A mark that is met has the value of the cell. -/
theorem Models.marked (hσ : Models hp R s.cell σ) (hR : Closed hp R s.cell) {marks : List Addr}
    {a : Addr} (ha : a ∈ R) (h : s.derefMarked marks a = none) : ∃ p ∈ marks, σ a = σ p := by
  by_cases hmark : a ∈ marks
  · exact ⟨a, hmark, rfl⟩
  · induction a using Store.deref_induction (s := s) with
    | unbound a hcell =>
        rw [Store.derefMarked_unbound hmark hcell] at h
        cases h
    | ref a b hcell hb ih =>
        rw [Store.derefMarked_ref hmark hcell hb] at h
        have hbR : b ∈ R := hR a ha b (by simp [hcell, Cell.cells])
        have heq : σ a = σ b := by
          rw [hσ a ha, hcell]
          rfl
        by_cases hmark' : b ∈ marks
        · exact ⟨b, hmark', heq⟩
        · obtain ⟨p, hp', heq'⟩ := ih hbR h hmark'
          exact ⟨p, hp', heq.trans heq'⟩
    | nonvar a d hcell =>
        rw [Store.derefMarked_nonvar hmark hcell] at h
        cases h

-- ---------------------------------------------------------------------------
-- Turns
-- ---------------------------------------------------------------------------

/-- The word at a cell of the search, if it has arguments. -/
def Nonvar.compound (hp : Heap) (d : Nonvar) : Prop := 0 < (d.block hp).2

/-- What a turn of the search does. -/
inductive TreeStep (hp : Heap) (s : Store) (ts : TreeState) : TreeTurn → Prop where
  | found : ts.pt0 < ts.pt0End → s.derefMarked ts.marks ts.pt0 = none → TreeStep hp s ts (.exit true)
  | next {c : Cell} : ts.pt0 < ts.pt0End → s.derefMarked ts.marks ts.pt0 = some c →
      (∀ d, c = .nonvar d → d.cells hp = []) → TreeStep hp s ts (.go ts.next)
  | descend {d : Nonvar} {l : Addr} {n : ℕ} : ts.pt0 < ts.pt0End →
      s.derefMarked ts.marks ts.pt0 = some (.nonvar d) → d.block hp = (l, n) →
      TreeStep hp s ts (.go (ts.descend l n))
  | done : ¬ ts.pt0 < ts.pt0End → ts.toVisit = [] → TreeStep hp s ts (.exit false)
  | ret {p e : Addr} {rest : List (Addr × Addr)} : ¬ ts.pt0 < ts.pt0End → ts.toVisit = (p, e) :: rest →
      TreeStep hp s ts (.go ⟨p + 1, e, rest⟩)

theorem treeStep_turn (hp : Heap) (s : Store) (ts : TreeState) : TreeStep hp s ts (ts.turn hp s) := by
  unfold TreeState.turn
  split
  case isTrue hlt =>
    split
    case h_1 hnone => exact .found hlt hnone
    case h_2 p hpair => exact .descend hlt hpair rfl
    case h_3 p happl =>
      split
      case h_1 f hf => exact .descend hlt happl (by rw [Nonvar.block, hf])
      case h_2 b hb =>
        refine .next hlt happl ?_
        rintro d ⟨⟩
        exact Nonvar.cells_blob hb
    case h_4 c hpair happl hsome =>
      refine .next hlt hsome ?_
      rintro d rfl
      cases d with
      | pair p => exact absurd rfl (hpair p)
      | appl p => exact absurd rfl (happl p)
      | _ => rfl
  case isFalse hlt =>
    split
    case h_1 hv => exact .done hlt hv
    case h_2 p e rest hv => exact .ret hlt hv

/-- The cells of a block that remain. -/
def remaining (pt0 pt0End : Addr) : List Addr := List.range' pt0 (pt0End - pt0)

theorem remaining_of_lt {pt0 pt0End : Addr} (h : pt0 < pt0End) :
    remaining pt0 pt0End = pt0 :: remaining (pt0 + 1) pt0End := by
  have hlen : pt0End - pt0 = pt0End - (pt0 + 1) + 1 := (Nat.succ_pred_eq_of_pos (Nat.sub_pos_of_lt h)).symm
  rw [remaining, hlen, List.range'_succ]
  rfl

theorem remaining_of_not_lt {pt0 pt0End : Addr} (h : ¬ pt0 < pt0End) : remaining pt0 pt0End = [] := by
  rw [remaining, Nat.sub_eq_zero_of_le (not_lt.mp h)]
  rfl

theorem remaining_eq_cons {pt0 pt0End a : Addr} {as : List Addr} (h : remaining pt0 pt0End = a :: as) :
    pt0 < pt0End ∧ a = pt0 ∧ as = remaining (pt0 + 1) pt0End := by
  have hlt : pt0 < pt0End := by
    by_contra hlt
    rw [remaining_of_not_lt hlt] at h
    cases h
  rw [remaining_of_lt hlt] at h
  obtain ⟨rfl, rfl⟩ := List.cons.inj h
  exact ⟨hlt, rfl, rfl⟩

theorem remaining_one (a : Addr) : remaining a (a + 1) = [a] := by
  rw [remaining, Nat.add_sub_cancel_left]
  rfl

theorem remaining_block {d : Nonvar} {l : Addr} {n : ℕ} (h : d.block hp = (l, n)) :
    remaining l (l + n) = d.cells hp := by
  rw [remaining, Nat.add_sub_cancel_left, Nonvar.cells_of_block h]

/-- The cells that remain in the block and in the blocks to return to. -/
def TreeState.cells (ts : TreeState) : List Addr :=
  remaining ts.pt0 ts.pt0End ++ ts.toVisit.flatMap fun fr => remaining (fr.1 + 1) fr.2

-- ---------------------------------------------------------------------------
-- Soundness
-- ---------------------------------------------------------------------------

/-- A word whose argument cells unfold does. -/
theorem unfolds_of_cells {m : Addr → Cell} {d : Nonvar}
    (h : ∀ a ∈ d.cells hp, ∃ u, Unfolds hp m (.ref a) u) : ∃ u, Unfolds hp m (.nonvar d) u := by
  cases d with
  | int n => exact ⟨_, .int⟩
  | atom a => exact ⟨_, .atom⟩
  | pair p =>
      obtain ⟨hd, hhd⟩ := h p (by simp)
      obtain ⟨tl, htl⟩ := h (p + 1) (by simp)
      exact ⟨_, .pair hhd htl⟩
  | appl p =>
      cases hf : hp.functorAt p with
      | functor f =>
          have has : ∀ i : Fin f.arityOfFE, ∃ u, Unfolds hp m (.ref (p + 1 + i)) u :=
            fun i => h _ ((Nonvar.mem_cells_appl hf).mpr ⟨i, rfl⟩)
          choose as has using has
          exact ⟨_, .appl hf has⟩
      | blob b => exact ⟨_, .blob hf⟩

/-- When no cycle is found, the cells unfold to finite terms. -/
theorem TreeState.unfolds_of_run {turns : ℕ} {ts : TreeState} (h : ts.run hp s turns = some false) :
    ∀ a ∈ ts.cells, ∃ u, Unfolds hp s.cell (.ref a) u := by
  induction turns generalizing ts with
  | zero => cases h
  | succ turns ih =>
      have hstep := treeStep_turn hp s ts
      rw [run] at h
      cases hturn : ts.turn hp s with
      | exit found =>
          rw [hturn] at h hstep
          cases hstep with
          | found => cases h
          | done hlt hv => simp [cells, remaining_of_not_lt hlt, hv]
      | go ts' =>
          rw [hturn] at h hstep
          have hrest := ih h
          cases hstep with
          | @next c hlt hderef hleaf =>
              intro a ha
              rw [cells, remaining_of_lt hlt] at ha
              rcases List.mem_cons.mp ha with rfl | ha
              · simp only [← unfolds_deref (s := s) (c := .ref _), Store.deref_of_derefMarked hderef]
                cases c with
                | ref v =>
                    exact ⟨_, .unbound (Store.unbound_of_deref (Store.deref_of_derefMarked hderef))⟩
                | nonvar d => exact unfolds_of_cells (by simp [hleaf d rfl])
              · exact hrest a ha
          | @descend d l n hlt hderef hblock =>
              have hcells : ∀ a ∈ d.cells hp, ∃ u, Unfolds hp s.cell (.ref a) u := by
                intro a ha
                refine hrest a (List.mem_append_left _ ?_)
                rwa [TreeState.descend, remaining_block hblock]
              intro a ha
              rw [cells, remaining_of_lt hlt] at ha
              rcases List.mem_cons.mp ha with rfl | ha
              · simp only [← unfolds_deref (s := s) (c := .ref _), Store.deref_of_derefMarked hderef]
                exact unfolds_of_cells hcells
              · exact hrest a (List.mem_append_right _ ha)
          | @ret p e rest hlt hv =>
              intro a ha
              refine hrest a ?_
              rw [cells, remaining_of_not_lt hlt, hv] at ha
              exact ha

-- ---------------------------------------------------------------------------
-- Completeness
-- ---------------------------------------------------------------------------

/-- The number of subterms. -/
def Term.size (t : Term) : ℕ := t.cells.length

theorem Term.size_lt_of_mem_args {t u : Term} (h : u ∈ t.args) : u.size < t.size := by
  rw [size, size, cells_eq t, List.length_cons, Nat.lt_succ_iff]
  exact (List.sublist_flatten_of_mem (List.mem_map_of_mem h)).length_le

theorem Nonvar.size_lt {d : Nonvar} {a : Addr} (h : a ∈ d.cells hp) : (σ a).size < (d.value hp σ).size := by
  refine Term.size_lt_of_mem_args ?_
  rw [args_value]
  exact List.mem_map_of_mem h

variable (hp s R σ) in
/-- The cells that remain are in the region, and have smaller values than the marked
    cells they are below. -/
structure BelowMarks (ts : TreeState) : Prop where
  region : ∀ a ∈ ts.cells, a ∈ R
  marks : ∀ p ∈ ts.marks, p ∈ R
  smaller : ∀ p ∈ ts.marks, ∀ a ∈ remaining ts.pt0 ts.pt0End, (σ a).size < (σ p).size
  nested : ts.toVisit.Pairwise fun fr fr' =>
    ∀ a ∈ fr.1 :: remaining (fr.1 + 1) fr.2, (σ a).size < (σ fr'.1).size

theorem BelowMarks.go (hσ : Models hp R s.cell σ) (hR : Closed hp R s.cell) {ts ts' : TreeState}
    (h : BelowMarks R σ ts) (hstep : TreeStep hp s ts (.go ts')) : BelowMarks R σ ts' := by
  cases hstep with
  | next hlt _ _ =>
      have hcells := remaining_of_lt hlt
      refine ⟨fun a ha => h.region a ?_, h.marks, fun p hp' a ha => h.smaller p hp' a ?_, h.nested⟩
      · rw [TreeState.cells, hcells]
        exact List.mem_cons_of_mem _ ha
      · rw [hcells]
        exact List.mem_cons_of_mem _ ha
  | @descend d l n hlt hderef hblock =>
      have hcells := remaining_of_lt hlt
      have hmem : ts.pt0 ∈ ts.cells := by
        rw [TreeState.cells, hcells]
        exact List.mem_cons_self ..
      have hpt0 := h.region _ hmem
      have hderef' := Store.deref_of_derefMarked hderef
      have hwithin := Store.deref_within hR (Cell.within_ref.mpr hpt0)
      have hvalue := hσ.deref hR (Cell.within_ref.mpr hpt0)
      rw [hderef'] at hwithin hvalue
      have hsize : ∀ a ∈ d.cells hp, (σ a).size < (σ ts.pt0).size := by
        intro a ha
        have hlt := Nonvar.size_lt (σ := σ) ha
        rwa [show d.value hp σ = σ ts.pt0 from hvalue] at hlt
      have hblock' := remaining_block hblock
      refine ⟨fun a ha => ?_, fun p hp' => ?_, fun p hp' a ha => ?_, ?_⟩
      · rw [TreeState.cells, TreeState.descend, hblock'] at ha
        rcases List.mem_append.mp ha with ha | ha
        · exact hwithin a ha
        · refine h.region a ?_
          rw [TreeState.cells, hcells]
          exact List.mem_cons_of_mem _ ha
      · rcases List.mem_cons.mp hp' with rfl | hp'
        · exact hpt0
        · exact h.marks p hp'
      · rw [TreeState.descend, hblock'] at ha
        have hlt' := hsize a ha
        rcases List.mem_cons.mp hp' with rfl | hp'
        · exact hlt'
        · refine hlt'.trans (h.smaller p hp' _ ?_)
          rw [hcells]
          exact List.mem_cons_self ..
      · refine List.pairwise_cons.mpr ⟨fun fr hfr a ha => ?_, h.nested⟩
        refine h.smaller fr.1 (List.mem_map_of_mem hfr) a ?_
        rw [hcells]
        exact ha
  | @ret p e rest hlt hv =>
      obtain ⟨htop, hnested⟩ := List.pairwise_cons.mp (hv ▸ h.nested)
      have hsub : ∀ q ∈ rest.map Prod.fst, q ∈ ts.marks := by
        intro q hq
        rw [TreeState.marks, hv]
        exact List.mem_cons_of_mem _ hq
      refine ⟨fun a ha => h.region a ?_, fun q hq => h.marks q (hsub q hq), fun q hq a ha => ?_, hnested⟩
      · rw [TreeState.cells, hv]
        exact List.mem_append_right _ ha
      · obtain ⟨fr, hfr, rfl⟩ := List.mem_map.mp hq
        exact htop fr hfr a (List.mem_cons_of_mem _ ha)

/-- In a valuation no cycle is found. -/
theorem BelowMarks.run_ne_true (hσ : Models hp R s.cell σ) (hR : Closed hp R s.cell) {turns : ℕ}
    {ts : TreeState} (h : BelowMarks R σ ts) : ts.run hp s turns ≠ some true := by
  induction turns generalizing ts with
  | zero => rintro ⟨⟩
  | succ turns ih =>
      have hstep := treeStep_turn hp s ts
      rw [TreeState.run]
      cases hturn : ts.turn hp s with
      | exit found =>
          rw [hturn] at hstep
          cases hstep with
          | found hlt hnone =>
              have hmem : ts.pt0 ∈ remaining ts.pt0 ts.pt0End := by
                rw [remaining_of_lt hlt]
                exact List.mem_cons_self ..
              have hpt0 := h.region _ (List.mem_append_left _ hmem)
              obtain ⟨p, hmark, heq⟩ := hσ.marked hR hpt0 hnone
              have hlt' := h.smaller p hmark _ hmem
              rw [heq] at hlt'
              exact absurd hlt' (lt_irrefl _)
          | done => rintro ⟨⟩
      | go ts' =>
          rw [hturn] at hstep
          exact ih (h.go hσ hR hstep)

-- ---------------------------------------------------------------------------
-- Termination
-- ---------------------------------------------------------------------------

theorem TreeState.run_le {turns turns' : ℕ} (hle : turns ≤ turns') {ts : TreeState} {found : Bool}
    (h : ts.run hp s turns = some found) : ts.run hp s turns' = some found := by
  induction turns generalizing ts turns' with
  | zero => cases h
  | succ turns ih =>
      obtain ⟨turns', rfl⟩ := Nat.exists_eq_add_one_of_ne_zero (Nat.ne_zero_of_lt hle)
      rw [run] at h ⊢
      cases hturn : ts.turn hp s with
      | go ts' =>
          rw [hturn] at h
          exact ih (Nat.le_of_succ_le_succ hle) h
      | exit found' =>
          rw [hturn] at h
          exact h

/-- The search ends. -/
def TreeState.Halts (hp : Heap) (s : Store) (ts : TreeState) : Prop := ∃ turns found, ts.run hp s turns = some found

theorem TreeState.halts_go {ts ts' : TreeState} (h : ts.turn hp s = .go ts') (hh : Halts hp s ts') :
    Halts hp s ts := by
  obtain ⟨turns, found, hrun⟩ := hh
  exact ⟨turns + 1, found, by rw [run, h]; exact hrun⟩

theorem TreeState.halts_exit {ts : TreeState} {found : Bool} (h : ts.turn hp s = .exit found) :
    Halts hp s ts := ⟨1, found, by rw [run, h]⟩

/-- The search of a block ends when it does after the block: the cells below have
    fewer unmarked cells to go to. -/
theorem TreeState.halts_block (hR : Closed hp R s.cell) {ts : TreeState}
    (hcells : ∀ a ∈ remaining ts.pt0 ts.pt0End, a ∈ R)
    (hend : ∀ pt0, ¬ pt0 < ts.pt0End → Halts hp s ⟨pt0, ts.pt0End, ts.toVisit⟩) : Halts hp s ts := by
  induction hk : (R.filter fun a => a ∉ ts.marks).card using Nat.strongRecOn generalizing ts with
  | ind k ih =>
      induction hlen : ts.pt0End - ts.pt0 generalizing ts with
      | zero => exact hend ts.pt0 (Nat.not_lt.mpr (Nat.sub_eq_zero_iff_le.mp hlen))
      | succ len ihlen =>
          have hlt : ts.pt0 < ts.pt0End := Nat.sub_pos_iff_lt.mp (hlen ▸ Nat.succ_pos len)
          have hlen' : ts.pt0End - (ts.pt0 + 1) = len := by rw [Nat.sub_add_eq, hlen]; rfl
          have hrem := remaining_of_lt hlt
          have hrest : ∀ a ∈ remaining (ts.pt0 + 1) ts.pt0End, a ∈ R := fun a ha =>
            hcells a (hrem ▸ List.mem_cons_of_mem _ ha)
          have hpt0 : ts.pt0 ∈ R := hcells _ (hrem ▸ List.mem_cons_self ..)
          have hstep := treeStep_turn hp s ts
          cases hturn : ts.turn hp s with
          | exit found => exact halts_exit hturn
          | go ts' =>
              refine halts_go hturn ?_
              rw [hturn] at hstep
              cases hstep with
              | next => exact @ihlen ts.next hrest hend hk hlen'
              | ret hlt' => exact absurd hlt hlt'
              | @descend d l n _ hderef hblock =>
                  have hwithin := Store.deref_within hR (Cell.within_ref.mpr hpt0)
                  rw [Store.deref_of_derefMarked hderef] at hwithin
                  have hunmarked := Store.notMem_of_derefMarked hderef
                  refine @ih _ ?_ (ts.descend l n) ?_ (fun pt0 hpt0End => ?_) rfl
                  · rw [← hk]
                    refine Finset.card_lt_card ⟨fun a ha => ?_, fun hsub => ?_⟩
                    · obtain ⟨haR, ha⟩ := Finset.mem_filter.mp ha
                      exact Finset.mem_filter.mpr ⟨haR, fun hmem => ha (List.mem_cons_of_mem _ hmem)⟩
                    · have hmem := hsub (Finset.mem_filter.mpr ⟨hpt0, hunmarked⟩)
                      exact (Finset.mem_filter.mp hmem).2 (List.mem_cons_self ..)
                  · intro a ha
                    rw [TreeState.descend, remaining_block hblock] at ha
                    exact hwithin a ha
                  · have hret : turn hp s ⟨pt0, (ts.descend l n).pt0End, (ts.descend l n).toVisit⟩ =
                        .go ts.next := by
                      rw [turn, if_neg hpt0End]
                      rfl
                    exact halts_go hret (@ihlen ts.next hrest hend hk hlen')

-- ---------------------------------------------------------------------------
-- The specification
-- ---------------------------------------------------------------------------

/-- Cells that unfold are in a region whose cells do. -/
theorem exists_region {as : List Addr} (h : ∀ a ∈ as, ∃ u, Unfolds hp s.cell (.ref a) u) :
    ∃ R', (∀ a ∈ as, a ∈ R') ∧ Region hp s.cell Set.univ R' := by
  induction as with
  | nil => exact ⟨∅, by rintro a ⟨⟩, .empty⟩
  | cons a as ih =>
      obtain ⟨u, hu⟩ := h a (List.mem_cons_self ..)
      obtain ⟨R₁, ha, hR₁⟩ := hu.region (V := Set.univ) fun _ _ => trivial
      obtain ⟨R₂, has, hR₂⟩ := ih fun b hb => h b (List.mem_cons_of_mem _ hb)
      refine ⟨R₁ ∪ R₂, fun b hb => ?_, hR₁.union hR₂⟩
      rcases List.mem_cons.mp hb with rfl | hb
      · exact Finset.mem_union_left _ (Cell.within_ref.mp ha)
      · exact Finset.mem_union_right _ (has b hb)

/-- The search of a block in a closed region ends, and finds no cycle exactly when
    its cells unfold to finite terms. -/
theorem exists_search (hR : Closed hp R s.cell) {l : Addr} {n : ℕ}
    (hcells : ∀ a ∈ remaining l (l + n), a ∈ R) :
    ∃ turns found, (∀ turns', turns ≤ turns' → TreeState.run hp s turns' ⟨l, l + n, []⟩ = some found) ∧
      (found = false ↔ ∀ a ∈ remaining l (l + n), ∃ u, Unfolds hp s.cell (.ref a) u) := by
  have hhalts : TreeState.Halts hp s ⟨l, l + n, []⟩ :=
    TreeState.halts_block hR hcells fun pt0 hpt0 =>
      ⟨1, false, by simp only [TreeState.run, TreeState.turn, if_neg hpt0]⟩
  obtain ⟨turns, found, hrun⟩ := hhalts
  refine ⟨turns, found, fun turns' hle => TreeState.run_le hle hrun, ?_⟩
  constructor
  · rintro rfl a ha
    exact TreeState.unfolds_of_run hrun a (List.mem_append_left _ ha)
  · intro hunfolds
    obtain ⟨R', hcells', hR'⟩ := exists_region hunfolds
    have hbelow : BelowMarks R' (solution hp s.cell .var) ⟨l, l + n, []⟩ := by
      refine ⟨fun a ha => ?_, by rintro p ⟨⟩, by rintro p ⟨⟩, .nil⟩
      simp only [TreeState.cells, List.flatMap_nil, List.append_nil] at ha
      exact hcells' a ha
    have hne : TreeState.run hp s turns ⟨l, l + n, []⟩ ≠ some true :=
      hbelow.run_ne_true (models_solution hR' .var) hR'.closed
    cases found with
    | false => rfl
    | true => exact absurd hrun hne

end Yap
