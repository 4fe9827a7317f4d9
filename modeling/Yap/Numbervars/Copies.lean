-- SUMMARY: What `unnumbervars/2` has copied after each turn, for a term whose variables have been numbered, and that the copy ends.
import Yap.Numbervars.Stages

/-!
# Copies without numbers

The copy gives a cell to every cell that it visits. It holds a word that shows the same,
with the copies of the arguments, or the variable of a number. A cell that is being
copied is marked with its copy.
-/

namespace Yap

open Relation

-- ---------------------------------------------------------------------------
-- Words and their copies
-- ---------------------------------------------------------------------------

/-- The word is a structure `'$VAR'(i)`. -/
def IsNumbered (hp : Heap) (s : Store) (d : Nonvar) (i : ℤ) : Prop :=
  ∃ p n, d = .appl p ∧ hp.functorAt p = .functor functorDollarVar ∧ s.cell (p + 1) = .nonvar (.int n) ∧ n.toInt = i

theorem IsNumbered.unique {hp : Heap} {s : Store} {d : Nonvar} {i j : ℤ} (h : IsNumbered hp s d i)
    (h' : IsNumbered hp s d j) : i = j := by
  obtain ⟨p, n, rfl, -, hn, rfl⟩ := h
  obtain ⟨p', n', heq, -, hn', rfl⟩ := h'
  obtain rfl := Nonvar.appl.inj heq
  rw [Nonvar.int.inj (Cell.nonvar.inj (hn.symm.trans hn'))]

/-- A region without unbound variables, in which the numbers are not negative. -/
structure Source (hp : Heap) (s : Store) (R : Finset Addr) : Prop where
  below : BelowHr hp s R
  bound : ∀ a ∈ R, s.cell a ≠ .ref a
  number : ∀ a ∈ R, ∀ p, s.cell a = .nonvar (.appl p) → hp.functorAt p = .functor functorDollarVar →
    ∃ n : BitVec 58, s.cell (p + 1) = .nonvar (.int n) ∧ 0 ≤ n.toInt

/-- Cells with the cells that they are copied to. -/
def blockTasks (pt0 pt0End ptf : Addr) : List (Addr × Addr) :=
  (List.range' pt0 (pt0End - pt0)).zip (List.range' ptf (pt0End - pt0))

section

variable {pt0 pt0End ptf : ℕ}

theorem blockTasks_cons (h : pt0 < pt0End) :
    blockTasks pt0 pt0End ptf = (pt0, ptf) :: blockTasks (pt0 + 1) pt0End (ptf + 1) := by
  obtain ⟨n, hn⟩ := Nat.exists_eq_add_of_lt h
  have hlen : pt0End - pt0 = n + 1 := by omega
  have hlen' : pt0End - (pt0 + 1) = n := by omega
  rw [blockTasks, blockTasks, hlen, hlen']
  rfl

theorem blockTasks_nil (h : ¬ pt0 < pt0End) : blockTasks pt0 pt0End ptf = [] := by
  rw [blockTasks, Nat.sub_eq_zero_of_le (not_lt.mp h)]
  rfl

theorem mem_blockTasks {x : Addr × Addr} (h : x ∈ blockTasks pt0 pt0End ptf) :
    ∃ i < pt0End - pt0, x = (pt0 + i, ptf + i) := by
  obtain ⟨i, hi, rfl⟩ := List.getElem_of_mem h
  have hlt : i < pt0End - pt0 := by simpa [blockTasks] using hi
  refine ⟨i, hlt, ?_⟩
  simp [blockTasks]

theorem map_snd_blockTasks : (blockTasks pt0 pt0End ptf).map Prod.snd = List.range' ptf (pt0End - pt0) := by
  rw [blockTasks, List.map_snd_zip (by simp)]

end

namespace UnnumberState

/-- The cells that are still to be copied. -/
def tasks (st : UnnumberState) : List (Addr × Addr) :=
  blockTasks st.pt0 st.pt0End st.ptf ++ st.frames.flatMap fun fr => blockTasks (fr.pt0 + 1) fr.pt0End fr.ptf

/-- The cells that are to be written. -/
def targets (st : UnnumberState) : List Addr := st.tasks.map Prod.snd

end UnnumberState

-- ---------------------------------------------------------------------------
-- The invariant
-- ---------------------------------------------------------------------------

section

variable (hp : Heap) (s : Store) (org : Addr → Option Addr)

/-- A list or a compound above the source is the copy of a word. -/
inductive CopyOf (heap : Heap) : Nonvar → Nonvar → Prop
  | list {p q : Addr} : hp.hr ≤ q → q < heap.hr → org q = some p → org (q + 1) = some (p + 1) → CopyOf heap (.pair p) (.pair q)
  | compound {p q : Addr} {f : Functor} : hp.hr ≤ q → q < heap.hr → hp.functorAt p = .functor f → f ≠ functorDollarVar →
      heap.functorAt q = .functor f → (∀ i < f.arityOfFE, org (q + 1 + i) = some (p + 1 + i)) →
      CopyOf heap (.appl p) (.appl q)

/-- What a cell holds when a word has been copied to it. -/
inductive Copied (heap : Heap) (asp : ℤ → Option Cell) (max : ℤ) : Nonvar → Cell → Prop
  | number {d : Nonvar} {i : ℤ} {v : Addr} : IsNumbered hp s d i → 0 ≤ i → i ≤ max → asp i = some (.ref v) →
      Copied heap asp max d (.ref v)
  | leaf {d : Nonvar} : d.cells hp = [] → (∀ p, d = .appl p → p < hp.hr) → Copied heap asp max d (.nonvar d)
  | word {d w : Nonvar} : CopyOf hp org heap d w → Copied heap asp max d (.nonvar w)

/-- What the copy comes upon for a cell: what a cell that is not marked holds, or a copy. -/
inductive Stands (R : Finset Addr) (heap : Heap) (marks : List Addr) (a : Addr) : Cell → Prop
  | source {b : Addr} : b ∈ R → s.deref (.ref b) = s.deref (.ref a) → a ∉ marks → Stands R heap marks a (s.cell b)
  | copy {d w : Nonvar} : s.deref (.ref a) = .nonvar d → CopyOf hp org heap d w → Stands R heap marks a (.nonvar w)

/-- The copy between two turns. -/
structure Copying (R : Finset Addr) (d w : Nonvar) (st : UnnumberState) : Prop where
  hr_le : hp.hr ≤ st.heap.hr
  functors : ∀ p < hp.hr, st.heap.functorAt p = hp.functorAt p
  notGround : st.ground = false
  framesNotGround : ∀ fr ∈ st.frames, fr.ground = false
  unmarked : ∀ a < hp.hr, a ∉ st.frames.map CpFrame.pt0 → st.cell a = s.cell a
  marked : ∀ fr ∈ st.frames, fr.pt0 ∈ R ∧ fr.oldv = s.cell fr.pt0 ∧
    ∃ e w, s.deref (.ref fr.pt0) = .nonvar e ∧ st.cell fr.pt0 = .nonvar w ∧ CopyOf hp org st.heap e w
  nodup : (st.frames.map CpFrame.pt0).Nodup
  tasks : ∀ x ∈ st.tasks, org x.2 = some x.1
  fresh : st.targets.Nodup
  origin : ∀ a b, org b = some a → a ∈ R ∧ hp.hr ≤ b ∧ b < st.heap.hr
  copied : ∀ a b, org b = some a → b ∉ st.targets →
    ∃ e, s.deref (.ref a) = .nonvar e ∧ Copied hp s org st.heap st.asp st.max e (st.cell b)
  table : ∀ i, 0 ≤ i → i ≤ st.max → ∀ c, st.asp i = some c → ∃ a b e, c = .ref b ∧ st.cell b = .ref b ∧
    b ∉ st.targets ∧ org b = some a ∧ s.deref (.ref a) = .nonvar e ∧ IsNumbered hp s e i
  visiting : ∀ c, st.d0 = some c → st.pt0 < st.pt0End ∧ Stands hp s org R st.heap (st.frames.map CpFrame.pt0) st.pt0 c
  root : CopyOf hp org st.heap d w

end

variable {hp : Heap} {s : Store} {R : Finset Addr} {org org' : Addr → Option Addr} {heap heap' : Heap}

theorem CopyOf.mono {d w : Nonvar} (h : CopyOf hp org heap d w) (horg : ∀ a b, org b = some a → org' b = some a)
    (hhr : heap.hr ≤ heap'.hr) (hf : ∀ q < heap.hr, heap'.functorAt q = heap.functorAt q) : CopyOf hp org' heap' d w := by
  cases h with
  | list hle hlt hp hp' => exact .list hle (hlt.trans_le hhr) (horg _ _ hp) (horg _ _ hp')
  | compound hle hlt hfp hne hfq hargs =>
    exact .compound hle (hlt.trans_le hhr) hfp hne ((hf _ hlt).trans hfq) fun i hi => horg _ _ (hargs i hi)

theorem Copied.mono {asp asp' : ℤ → Option Cell} {max max' : ℤ} {d : Nonvar} {c : Cell}
    (h : Copied hp s org heap asp max d c) (horg : ∀ a b, org b = some a → org' b = some a)
    (hhr : heap.hr ≤ heap'.hr) (hf : ∀ q < heap.hr, heap'.functorAt q = heap.functorAt q)
    (hasp : ∀ i c, 0 ≤ i → i ≤ max → asp i = some c → i ≤ max' ∧ asp' i = some c) : Copied hp s org' heap' asp' max' d c := by
  cases h with
  | number hd hi hle hv =>
    obtain ⟨hle', hv'⟩ := hasp _ _ hi hle hv
    exact .number hd hi hle' hv'
  | leaf hd hlt => exact .leaf hd hlt
  | word hw => exact .word (hw.mono horg hhr hf)

theorem Nonvar.cells_ne_nil {p : Addr} {f : Functor} (hf : hp.functorAt p = .functor f) : (Nonvar.appl p).cells hp ≠ [] := by
  intro hnil
  have harity := congrArg List.length hnil
  rw [cells, block, hf, List.length_range', List.length_nil] at harity
  exact f.arity_pos.ne' harity

/-- The cells of a word that a copy can be of. -/
theorem CopyOf.cells_ne_nil {d w : Nonvar} (h : CopyOf hp org heap d w) : d.cells hp ≠ [] := by
  cases h with
  | list => exact List.cons_ne_nil _ _
  | compound _ _ hf => exact Nonvar.cells_ne_nil hf

/-- The cells of a new block are copies too. -/
def extendOrg (org : Addr → Option Addr) (pt0 ptf : Addr) (k : ℕ) (b : Addr) : Option Addr :=
  if ptf ≤ b ∧ b < ptf + k then some (pt0 + (b - ptf)) else org b

namespace Copying

variable {d w : Nonvar} {st : UnnumberState} (hR : Source hp s R) (h : Copying hp s org R d w st)
include hR h

/-- What a source cell holds stands for it, marked or not. -/
theorem stands {a : Addr} (ha : a ∈ R) :
    Stands hp s org R st.heap (st.frames.map CpFrame.pt0) a (st.cell a) := by
  by_cases hmem : a ∈ st.frames.map CpFrame.pt0
  · obtain ⟨fr, hfr, rfl⟩ := List.mem_map.mp hmem
    obtain ⟨-, -, e, w, he, hw, hcopy⟩ := h.marked fr hfr
    rw [hw]
    exact .copy he hcopy
  · rw [h.unmarked a (hR.below.cell a ha) hmem]
    exact .source ha rfl hmem

/-- The word of a copied cell is written. -/
theorem put {e : Nonvar} {c : Cell} {t : ℤ → Option Cell} {max : ℤ} (hlt : st.pt0 < st.pt0End)
    (he : s.deref (.ref st.pt0) = .nonvar e) (hc : Copied hp s org st.heap t max e c)
    (hasp : ∀ i c, 0 ≤ i → i ≤ st.max → st.asp i = some c → i ≤ max ∧ t i = some c)
    (htable : ∀ i, 0 ≤ i → i ≤ max → ∀ c', t i = some c' →
      (i ≤ st.max ∧ st.asp i = some c') ∨ c' = .ref st.ptf ∧ c = .ref st.ptf ∧ IsNumbered hp s e i) :
    Copying hp s org R d w { st.put c with asp := t, max := max, ground := false } := by
  have htasks : st.tasks = (st.pt0, st.ptf) :: { st.put c with asp := t, max := max, ground := false }.tasks := by
    rw [UnnumberState.tasks, blockTasks_cons hlt]
    rfl
  generalize hst : { st.put c with asp := t, max := max, ground := false } = st' at htasks ⊢
  have htargets : st.targets = st.ptf :: st'.targets := by
    rw [UnnumberState.targets, htasks]
    rfl
  have hfresh := h.fresh
  rw [htargets, List.nodup_cons] at hfresh
  have horg : org st.ptf = some st.pt0 := h.tasks (st.pt0, st.ptf) (htasks ▸ List.mem_cons_self ..)
  obtain ⟨-, hle, -⟩ := h.origin _ _ horg
  subst hst
  have hself : Function.update st.cell st.ptf c st.ptf = c := Function.update_self ..
  have hkept : ∀ a, a ≠ st.ptf → Function.update st.cell st.ptf c a = st.cell a := fun a ha => Function.update_of_ne ha ..
  have hkept' : ∀ a < hp.hr, Function.update st.cell st.ptf c a = st.cell a := fun a ha => hkept a (ha.trans_le hle).ne
  exact {
    hr_le := h.hr_le
    functors := h.functors
    notGround := rfl
    framesNotGround := h.framesNotGround
    unmarked := fun a ha hmem => (hkept' a ha).trans (h.unmarked a ha hmem)
    marked := fun fr hfr => by
      obtain ⟨hmem, hold, e, w, he, hw, hcopy⟩ := h.marked fr hfr
      exact ⟨hmem, hold, e, w, he, (hkept' _ (hR.below.cell _ hmem)).trans hw, hcopy⟩
    nodup := h.nodup
    tasks := fun x hx => h.tasks x (htasks ▸ List.mem_cons_of_mem _ hx)
    fresh := hfresh.2
    origin := h.origin
    copied := fun a b hb hmem => by
      change ∃ e, _ ∧ Copied hp s org st.heap t max e (Function.update st.cell st.ptf c b)
      by_cases heq : b = st.ptf
      · subst heq
        obtain rfl := Option.some.inj (hb.symm.trans horg)
        rw [hself]
        exact ⟨e, he, hc⟩
      · obtain ⟨e', he', hcopied⟩ := h.copied a b hb (by rw [htargets, List.mem_cons, not_or]; exact ⟨heq, hmem⟩)
        rw [hkept b heq]
        exact ⟨e', he', hcopied.mono (fun _ _ hb => hb) le_rfl (fun _ _ => rfl) hasp⟩
    table := fun i hi hle c' hc' => by
      rcases htable i hi hle c' hc' with ⟨hle', hc'⟩ | ⟨rfl, rfl, hnum⟩
      · obtain ⟨a, b, e', rfl, hcell, hmem, hb, he', hnum⟩ := h.table i hi hle' c' hc'
        rw [htargets, List.mem_cons, not_or] at hmem
        exact ⟨a, b, e', rfl, (hkept b hmem.1).trans hcell, hmem.2, hb, he', hnum⟩
      · exact ⟨_, _, e, rfl, hself, hfresh.1, horg, he, hnum⟩
    visiting := fun c hc => by cases hc
    root := h.root }

/-- The word of a block that is being copied is written, and the cell is marked. -/
theorem push {e w' : Nonvar} {pt0 ptf k : ℕ} (hlt : st.pt0 < st.pt0End) (hunmarked : st.pt0 ∉ st.frames.map CpFrame.pt0)
    (he : s.deref (.ref st.pt0) = .nonvar e) (hhr : heap'.hr = ptf + k) (hle : st.heap.hr ≤ ptf)
    (hf : ∀ q < st.heap.hr, heap'.functorAt q = st.heap.functorAt q) (hargs : ∀ i < k, pt0 + i ∈ R)
    (hcopy : CopyOf hp (extendOrg org pt0 ptf k) heap' e w') :
    Copying hp s (extendOrg org pt0 ptf k) R d w (st.push (.nonvar w') heap' pt0 (pt0 + k) ptf false) := by
  have htasks : st.tasks = (st.pt0, st.ptf) :: (blockTasks (st.pt0 + 1) st.pt0End (st.ptf + 1) ++
      st.frames.flatMap fun fr => blockTasks (fr.pt0 + 1) fr.pt0End fr.ptf) := by
    rw [UnnumberState.tasks, blockTasks_cons hlt]
    rfl
  have htasks' : (st.push (.nonvar w') heap' pt0 (pt0 + k) ptf false).tasks =
      blockTasks pt0 (pt0 + k) ptf ++ st.tasks.tail := by
    rw [htasks]
    rfl
  generalize hst : st.push (.nonvar w') heap' pt0 (pt0 + k) ptf false = st' at htasks' ⊢
  have htargets : st.targets = st.ptf :: st.tasks.tail.map Prod.snd := by
    rw [UnnumberState.targets, htasks]
    rfl
  have htargets' : st'.targets = List.range' ptf k ++ st.tasks.tail.map Prod.snd := by
    rw [UnnumberState.targets, htasks', List.map_append, map_snd_blockTasks, Nat.add_sub_cancel_left]
  have hfresh := h.fresh
  rw [htargets, List.nodup_cons] at hfresh
  have horg : org st.ptf = some st.pt0 := h.tasks (st.pt0, st.ptf) (htasks ▸ List.mem_cons_self ..)
  obtain ⟨hmem, hbase, hptf⟩ := h.origin _ _ horg
  have hext : ∀ a b, org b = some a → extendOrg org pt0 ptf k b = some a := by
    intro a b hb
    have hlt := (h.origin a b hb).2.2
    rw [extendOrg, if_neg fun hmem => absurd (hle.trans hmem.1) (not_le.mpr hlt), hb]
  have hhr' : st.heap.hr ≤ heap'.hr := hhr ▸ hle.trans (Nat.le_add_right ..)
  have hpt0 : st.pt0 < hp.hr := hR.below.cell _ hmem
  have hne : st.pt0 ≠ st.ptf := (hpt0.trans_le hbase).ne
  subst hst
  have hcell : ∀ a, (st.push (.nonvar w') heap' pt0 (pt0 + k) ptf false).cell a =
      if a = st.pt0 ∨ a = st.ptf then .nonvar w' else st.cell a := by
    intro a
    change Function.update (Function.update st.cell st.ptf (.nonvar w')) st.pt0 (.nonvar w') a = _
    rw [Function.update_apply, Function.update_apply, ite_or]
  have hkept : ∀ a, a ≠ st.pt0 → a ≠ st.ptf → (st.push (.nonvar w') heap' pt0 (pt0 + k) ptf false).cell a = st.cell a :=
    fun a hpt hptf => (hcell a).trans (if_neg (not_or.mpr ⟨hpt, hptf⟩))
  have hbelow : ∀ a < hp.hr, a ≠ st.ptf := fun a ha => (ha.trans_le hbase).ne
  exact {
    hr_le := h.hr_le.trans hhr'
    functors := fun p hlt => (hf p (hlt.trans_le h.hr_le)).trans (h.functors p hlt)
    notGround := rfl
    framesNotGround := List.forall_mem_cons.mpr ⟨h.notGround, h.framesNotGround⟩
    unmarked := fun a ha hmarks => by
      obtain ⟨hpt, hmarks⟩ := not_or.mp (List.mem_cons.not.mp hmarks)
      exact (hkept a hpt (hbelow a ha)).trans (h.unmarked a ha hmarks)
    marked := by
      refine List.forall_mem_cons.mpr ⟨⟨hmem, ?_, e, w', he, (hcell _).trans (if_pos (.inl rfl)), hcopy⟩, fun fr hfr => ?_⟩
      · exact (Function.update_of_ne hne ..).trans (h.unmarked _ hpt0 hunmarked)
      · obtain ⟨hmem', hold, e', w', he', hw, hcopy'⟩ := h.marked fr hfr
        have hpt : fr.pt0 ≠ st.pt0 := fun heq => hunmarked (heq ▸ List.mem_map_of_mem hfr)
        refine ⟨hmem', hold, e', w', he', ?_, hcopy'.mono hext hhr' hf⟩
        rw [hkept _ hpt (hbelow _ (hR.below.cell _ hmem')), hw]
    nodup := List.nodup_cons.mpr ⟨hunmarked, h.nodup⟩
    tasks := fun x hx => by
      rw [htasks'] at hx
      rcases List.mem_append.mp hx with hx | hx
      · obtain ⟨i, hi, rfl⟩ := mem_blockTasks hx
        rw [Nat.add_sub_cancel_left] at hi
        rw [extendOrg, if_pos ⟨Nat.le_add_right .., Nat.add_lt_add_left hi _⟩, Nat.add_sub_cancel_left]
      · exact hext _ _ (h.tasks x (List.mem_of_mem_tail hx))
    fresh := by
      rw [htargets', List.nodup_append]
      refine ⟨List.nodup_range', hfresh.2, fun b hb b' hb' heq => ?_⟩
      obtain ⟨x, hx, rfl⟩ := List.mem_map.mp hb'
      have hlt := (h.origin _ _ (h.tasks x (List.mem_of_mem_tail hx))).2.2
      rw [List.mem_range'_1, heq] at hb
      exact absurd (hle.trans hb.1) (not_le.mpr hlt)
    origin := fun a b hb => by
      by_cases hnew : ptf ≤ b ∧ b < ptf + k
      · rw [extendOrg, if_pos hnew] at hb
        obtain rfl := Option.some.inj hb
        have hi : b - ptf < k := Nat.sub_lt_left_of_lt_add hnew.1 hnew.2
        exact ⟨hargs _ hi, (h.hr_le.trans hle).trans hnew.1, hnew.2.trans_eq hhr.symm⟩
      · rw [extendOrg, if_neg hnew] at hb
        obtain ⟨hmem, hle, hlt⟩ := h.origin a b hb
        exact ⟨hmem, hle, hlt.trans_le hhr'⟩
    copied := fun a b hb hnot => by
      rw [htargets', List.mem_append, not_or, List.mem_range'_1] at hnot
      rw [extendOrg, if_neg hnot.1] at hb
      obtain ⟨-, hle, -⟩ := h.origin a b hb
      rw [hcell]
      by_cases heq : b = st.ptf
      · subst heq
        obtain rfl := Option.some.inj (hb.symm.trans horg)
        rw [if_pos (.inr rfl)]
        exact ⟨e, he, .word hcopy⟩
      · rw [if_neg (not_or.mpr ⟨(hpt0.trans_le hle).ne', heq⟩)]
        obtain ⟨e', he', hcopied⟩ := h.copied a b hb (by
          rw [htargets, List.mem_cons, not_or]
          exact ⟨heq, hnot.2⟩)
        exact ⟨e', he', hcopied.mono hext hhr' hf fun _ _ _ hi hc => ⟨hi, hc⟩⟩
    table := fun i hi hmax c' hc' => by
      obtain ⟨a, b, e', rfl, hcell', hnot, hb, he', hnum⟩ := h.table i hi hmax c' hc'
      rw [htargets, List.mem_cons, not_or] at hnot
      obtain ⟨-, hle', hlt'⟩ := h.origin a b hb
      refine ⟨a, b, e', rfl, (hkept b (hpt0.trans_le hle').ne' hnot.1).trans hcell', ?_, hext _ _ hb, he', hnum⟩
      rw [htargets', List.mem_append, not_or, List.mem_range'_1]
      exact ⟨fun hmem => absurd (hle.trans hmem.1) (not_le.mpr hlt'), hnot.2⟩
    visiting := fun c hc => by cases hc
    root := h.root.mono hext hhr' hf }

/-- A mark is taken away when the block has been copied. -/
theorem pop {fr : CpFrame} {frames : List CpFrame} (hend : ¬ st.pt0 < st.pt0End) (hframes : st.frames = fr :: frames) :
    Copying hp s org R d w (st.pop fr frames) := by
  have hpop : st.pop fr frames = { st with
      cell := Function.update st.cell fr.pt0 fr.oldv
      frames := frames
      pt0 := fr.pt0 + 1
      pt0End := fr.pt0End
      ptf := fr.ptf
      d0 := none
      ground := false } := by
    rw [UnnumberState.pop, h.notGround]
    rfl
  have htasks : (st.pop fr frames).tasks = st.tasks := by
    rw [hpop, UnnumberState.tasks, UnnumberState.tasks, blockTasks_nil hend, hframes]
    rfl
  have htargets : (st.pop fr frames).targets = st.targets := congrArg (List.map Prod.snd) htasks
  obtain ⟨hmem, hold, -⟩ := h.marked fr (hframes ▸ List.mem_cons_self ..)
  have hlt := hR.below.cell _ hmem
  have hnodup := h.nodup
  rw [hframes, List.map_cons, List.nodup_cons] at hnodup
  have hcell : ∀ a, a ≠ fr.pt0 → (st.pop fr frames).cell a = st.cell a := by
    intro a ha
    rw [hpop]
    exact Function.update_of_ne ha ..
  have hcopies : ∀ b, hp.hr ≤ b → (st.pop fr frames).cell b = st.cell b := fun b hle => hcell b (hlt.trans_le hle).ne'
  generalize hst : st.pop fr frames = st' at hpop htasks htargets hcell hcopies ⊢
  subst hpop
  exact {
    hr_le := h.hr_le
    functors := h.functors
    notGround := rfl
    framesNotGround := fun fr' hfr' => h.framesNotGround fr' (hframes ▸ List.mem_cons_of_mem _ hfr')
    unmarked := fun a ha hmarks => by
      by_cases heq : a = fr.pt0
      · rw [heq]
        exact (Function.update_self ..).trans hold
      · rw [hcell a heq]
        refine h.unmarked a ha ?_
        rw [hframes, List.map_cons, List.mem_cons, not_or]
        exact ⟨heq, hmarks⟩
    marked := fun fr' hfr' => by
      obtain ⟨hmem', hold', e, w', he, hw, hcopy⟩ := h.marked fr' (hframes ▸ List.mem_cons_of_mem _ hfr')
      have hne : fr'.pt0 ≠ fr.pt0 := fun heq => hnodup.1 (heq ▸ List.mem_map_of_mem hfr')
      exact ⟨hmem', hold', e, w', he, (hcell _ hne).trans hw, hcopy⟩
    nodup := hnodup.2
    tasks := fun x hx => h.tasks x (htasks ▸ hx)
    fresh := htargets ▸ h.fresh
    origin := h.origin
    copied := fun a b hb hnot => by
      obtain ⟨e, he, hcopied⟩ := h.copied a b hb (htargets ▸ hnot)
      exact ⟨e, he, (hcopies b (h.origin a b hb).2.1).symm ▸ hcopied⟩
    table := fun i hi hle c hc => by
      obtain ⟨a, b, e, rfl, hcell', hnot, hb, he, hnum⟩ := h.table i hi hle c hc
      exact ⟨a, b, e, rfl, (hcopies b (h.origin a b hb).2.1).trans hcell', htargets ▸ hnot, hb, he, hnum⟩
    visiting := fun c hc => by cases hc
    root := h.root }

end Copying

-- ---------------------------------------------------------------------------
-- Turns
-- ---------------------------------------------------------------------------

theorem Stands.eq_or {marks : List Addr} {a : Addr} {c : Cell} (h : Stands hp s org R heap marks a c) :
    (∃ b ∈ R, s.cell b = c ∧ s.deref (.ref b) = s.deref (.ref a) ∧ a ∉ marks) ∨
      ∃ e v, c = .nonvar v ∧ s.deref (.ref a) = .nonvar e ∧ CopyOf hp org heap e v := by
  cases h with
  | source hb hderef hmarks => exact .inl ⟨_, hb, rfl, hderef, hmarks⟩
  | copy he hcopy => exact .inr ⟨_, _, rfl, he, hcopy⟩

theorem UnnumberState.put_eq {st : UnnumberState} (hground : st.ground = false) (c : Cell) :
    st.put c = { st.put c with asp := st.asp, max := st.max, ground := false } := by
  rw [put, hground]

/-- After a word the copy goes on with the next cell, or with the arguments. -/
def UnnumberState.Follows (st st' : UnnumberState) : Prop :=
  st'.d0 = none ∧ ((st'.frames = st.frames ∧ st'.pt0 = st.pt0 + 1 ∧ st'.pt0End = st.pt0End) ∨
    ∃ fr, st'.frames = fr :: st.frames ∧ fr.pt0 = st.pt0 ∧ fr.pt0End = st.pt0End)

namespace Copying

variable {d w : Nonvar} {st : UnnumberState} (noInteger : Cell → ℤ)

/-- The turn at a word that has been copied. -/
theorem turn_copy {e v : Nonvar} (hd0 : st.d0 = some (.nonvar v)) (hcopy : CopyOf hp org st.heap e v) :
    st.turn ⟨false, hp.hr, noInteger⟩ = .go (st.put (.nonvar v)) := by
  cases hcopy with
  | list hle hlt =>
    rw [UnnumberState.turn, hd0]
    exact if_pos ⟨hle, hlt⟩
  | compound hle hlt =>
    rw [UnnumberState.turn, hd0]
    exact if_pos ⟨hle, hlt.le⟩

/-- The turn at a word that is no list and no compound. -/
theorem turn_leaf {v : Nonvar} (hd0 : st.d0 = some (.nonvar v)) (hleaf : v.cells hp = [])
    (hbelow : ∀ p, v = .appl p → p < hp.hr ∧ st.heap.functorAt p = hp.functorAt p) :
    st.turn ⟨false, hp.hr, noInteger⟩ = .go (st.put (.nonvar v)) := by
  rw [UnnumberState.turn, hd0]
  cases v with
  | int n => rfl
  | atom a => rfl
  | pair p => cases hleaf
  | appl p =>
    obtain ⟨hlt, hf⟩ := hbelow p rfl
    have hnew : ¬ (hp.hr ≤ p ∧ p ≤ st.heap.hr) := fun hmem => absurd hmem.1 (not_le.mpr hlt)
    refine (if_neg hnew).trans ?_
    rw [hf]
    cases hcell : hp.functorAt p with
    | blob b => rfl
    | functor f => exact absurd hleaf (Nonvar.cells_ne_nil hcell)

variable (hR : Source hp s R) (h : Copying hp s org R d w st)
include hR h

/-- A word that needs no table is written. -/
theorem put_word {e : Nonvar} {c : Cell} (hlt : st.pt0 < st.pt0End) (he : s.deref (.ref st.pt0) = .nonvar e)
    (hc : Copied hp s org st.heap st.asp st.max e c) : Copying hp s org R d w (st.put c) := by
  rw [UnnumberState.put_eq h.notGround]
  exact h.put hR hlt he hc (fun _ _ _ hi hc => ⟨hi, hc⟩) fun _ _ hi _ hc => .inl ⟨hi, hc⟩

/-- The turn at a number. -/
theorem turn_number {p : Addr} (hlt : st.pt0 < st.pt0End) (hbelow : p < hp.hr) (hd0 : st.d0 = some (.nonvar (.appl p)))
    (he : s.deref (.ref st.pt0) = .nonvar (.appl p)) (hf : hp.functorAt p = .functor functorDollarVar)
    {n : BitVec 58} (hmem : p + 1 ∈ R) (hn : s.cell (p + 1) = .nonvar (.int n)) (hpos : 0 ≤ n.toInt) :
    ∃ st', st.turn ⟨false, hp.hr, noInteger⟩ = .go st' ∧ Copying hp s org R d w st' ∧ st.Follows st' := by
  have hcell : st.cell (p + 1) = .nonvar (.int n) := by
    refine (h.unmarked _ (hR.below.cell _ hmem) fun hmark => ?_).trans hn
    obtain ⟨fr, hfr, heq⟩ := List.mem_map.mp hmark
    obtain ⟨-, -, e, v, he, -, hcopy⟩ := h.marked fr hfr
    rw [heq, deref_word hn] at he
    obtain rfl := Cell.nonvar.inj he
    exact hcopy.cells_ne_nil rfl
  have hturn : st.turn ⟨false, hp.hr, noInteger⟩ = st.visitNumber n.toInt := by
    have hnew : ¬ (hp.hr ≤ p ∧ p ≤ st.heap.hr) := fun hmem => absurd hmem.1 (not_le.mpr hbelow)
    rw [UnnumberState.turn, hd0]
    refine (if_neg hnew).trans ?_
    rw [h.functors p hbelow, hf]
    refine (if_pos rfl).trans ?_
    rw [hcell]
    rfl
  have hnum : IsNumbered hp s (.appl p) n.toInt := ⟨p, n, rfl, hf, hn, rfl⟩
  rw [hturn, UnnumberState.visitNumber, if_neg (by omega)]
  by_cases hmax : n.toInt ≤ st.max
  · rw [if_pos hmax]
    cases hasp : st.asp n.toInt with
    | some c =>
      obtain ⟨-, b, -, rfl, -⟩ := h.table _ hpos hmax c hasp
      refine ⟨_, rfl, ?_, rfl, .inl ⟨rfl, rfl, rfl⟩⟩
      exact h.put hR hlt he (.number hnum hpos hmax hasp) (fun _ _ _ hi hc => ⟨hi, hc⟩) fun _ _ hi _ hc => .inl ⟨hi, hc⟩
    | none =>
      refine ⟨_, rfl, ?_, rfl, .inl ⟨rfl, rfl, rfl⟩⟩
      refine h.put hR hlt he (t := Function.update st.asp n.toInt (some (.ref st.ptf))) (.number hnum hpos hmax ?_) ?_ ?_
      · exact Function.update_self ..
      · intro i c _ hi hc
        refine ⟨hi, ?_⟩
        rw [Function.update_of_ne fun heq => ?_, hc]
        rw [heq, hasp] at hc
        cases hc
      · intro i _ hi c hc
        by_cases heq : i = n.toInt
        · subst heq
          rw [Function.update_self] at hc
          exact .inr ⟨(Option.some.inj hc).symm, rfl, hnum⟩
        · rw [Function.update_of_ne heq] at hc
          exact .inl ⟨hi, hc⟩
  · rw [if_neg hmax]
    refine ⟨_, rfl, ?_, rfl, .inl ⟨rfl, rfl, rfl⟩⟩
    refine h.put hR hlt he (t := Function.update (fun i => if st.max < i ∧ i ≤ n.toInt then none else st.asp i)
      n.toInt (some (.ref st.ptf))) (.number hnum hpos le_rfl ?_) ?_ ?_
    · exact Function.update_self ..
    · intro i c _ hi hc
      have hne : i ≠ n.toInt := fun heq => hmax (heq ▸ hi)
      rw [Function.update_of_ne hne, if_neg fun hmem => absurd hi (not_le.mpr hmem.1)]
      exact ⟨hi.trans (not_le.mp hmax).le, hc⟩
    · intro i _ hi c hc
      by_cases heq : i = n.toInt
      · subst heq
        rw [Function.update_self] at hc
        exact .inr ⟨(Option.some.inj hc).symm, rfl, hnum⟩
      · rw [Function.update_of_ne heq] at hc
        by_cases hold : st.max < i ∧ i ≤ n.toInt
        · rw [if_pos hold] at hc
          cases hc
        · rw [if_neg hold] at hc
          exact .inl ⟨not_lt.mp fun hgt => hold ⟨hgt, hi⟩, hc⟩

/-- The turn at a list or a compound that has not been copied. -/
theorem turn_word {v : Nonvar} (hd0 : st.d0 = some (.nonvar v)) :
    ∃ org' st', st.turn ⟨false, hp.hr, noInteger⟩ = .go st' ∧ Copying hp s org' R d w st' ∧ st.Follows st' := by
  obtain ⟨hlt, hstands⟩ := h.visiting _ hd0
  rcases hstands.eq_or with ⟨b, hb, hcell, hderef, hmarks⟩ | ⟨e, v, heq, he, hcopy⟩
  · have he : s.deref (.ref st.pt0) = .nonvar v := hderef.symm.trans (deref_word hcell)
    have hcells : ∀ a ∈ v.cells hp, a ∈ R := by
      have hwithin := hR.below.closed b hb
      rwa [hcell] at hwithin
    have hbelow : ∀ p, v = .appl p → p < hp.hr ∧ st.heap.functorAt p = hp.functorAt p := by
      rintro p rfl
      have hlt := hR.below.functor b hb p hcell
      exact ⟨hlt, h.functors p hlt⟩
    have hleaf : v.cells hp = [] →
        ∃ org' st', st.turn ⟨false, hp.hr, noInteger⟩ = .go st' ∧ Copying hp s org' R d w st' ∧ st.Follows st' := by
      intro hnil
      refine ⟨org, _, turn_leaf noInteger hd0 hnil hbelow, ?_, rfl, .inl ⟨rfl, rfl, rfl⟩⟩
      exact h.put_word hR hlt he (.leaf hnil fun p hp => (hbelow p hp).1)
    cases v with
    | int n => exact hleaf rfl
    | atom a => exact hleaf rfl
    | pair p =>
      have hp : p < hp.hr := hR.below.cell p (hcells p (by simp))
      have hnew : ¬ (_ ≤ p ∧ p < st.heap.hr) := fun hmem => absurd hmem.1 (not_le.mpr hp)
      refine ⟨extendOrg org p st.heap.hr 2, st.push (.nonvar (.pair st.heap.hr)) { st.heap with hr := st.heap.hr + 2 } p (p + 2)
        st.heap.hr false, ?_, ?_, rfl, .inr ⟨_, rfl, rfl, rfl⟩⟩
      · rw [UnnumberState.turn, hd0]
        exact if_neg hnew
      · refine h.push hR hlt hmarks he rfl le_rfl (fun _ _ => rfl) (fun i hi => hcells _ ?_) (.list h.hr_le ?_ ?_ ?_)
        · rw [Nonvar.cells, List.mem_range'_1]
          exact ⟨Nat.le_add_right .., Nat.add_lt_add_left hi _⟩
        · exact Nat.lt_add_of_pos_right two_pos
        · rw [extendOrg, if_pos ⟨le_rfl, Nat.lt_add_of_pos_right two_pos⟩, Nat.sub_self]
          rfl
        · rw [extendOrg, if_pos ⟨Nat.le_add_right .., Nat.lt_succ_self _⟩, Nat.add_sub_cancel_left]
    | appl p =>
      obtain ⟨hplt, hf⟩ := hbelow p rfl
      cases hcell' : hp.functorAt p with
      | blob bl => exact hleaf (Nonvar.cells_blob hcell')
      | functor f =>
        have hargs : ∀ i < f.arityOfFE, p + 1 + i ∈ R := fun i hi =>
          hcells _ ((Nonvar.mem_cells_appl hcell').mpr ⟨⟨i, hi⟩, rfl⟩)
        by_cases hvar : f = functorDollarVar
        · subst hvar
          obtain ⟨n, hn, hpos⟩ := hR.number b hb p hcell hcell'
          obtain ⟨st', hturn, hst', hfollows⟩ := h.turn_number noInteger hR hlt hplt hd0 he hcell' (hargs 0 Nat.one_pos) hn hpos
          exact ⟨org, st', hturn, hst', hfollows⟩
        · have hnew : ¬ (hp.hr ≤ p ∧ p ≤ st.heap.hr) := fun hmem => absurd hmem.1 (not_le.mpr hplt)
          refine ⟨extendOrg org (p + 1) (st.heap.hr + 1) f.arityOfFE, st.push (.nonvar (.appl st.heap.hr))
            ⟨Function.update st.heap.functorAt st.heap.hr (.functor f), st.heap.hr + 1 + f.arityOfFE⟩ (p + 1)
            (p + 1 + f.arityOfFE) (st.heap.hr + 1) false, ?_, ?_, rfl, .inr ⟨_, rfl, rfl, rfl⟩⟩
          · rw [UnnumberState.turn, hd0]
            refine (if_neg hnew).trans ?_
            rw [hf, hcell']
            refine (if_neg hvar).trans ?_
            rw [Bool.and_false]
          · refine h.push hR hlt hmarks he rfl (Nat.le_succ _) (fun q hq => Function.update_of_ne hq.ne ..) hargs
              (.compound h.hr_le ?_ hcell' hvar (Function.update_self ..) fun i hi => ?_)
            · exact Nat.lt_add_right _ (Nat.lt_succ_self _)
            · rw [extendOrg, if_pos ⟨Nat.le_add_right .., Nat.add_lt_add_left hi _⟩, Nat.add_sub_cancel_left]
  · obtain rfl := Cell.nonvar.inj heq
    refine ⟨org, _, turn_copy noInteger hd0 hcopy, ?_, rfl, .inl ⟨rfl, rfl, rfl⟩⟩
    exact h.put_word hR hlt he (.word hcopy)

/-- The turn at a cell that is to be copied. -/
theorem turn_start (hd0 : st.d0 = none) (hlt : st.pt0 < st.pt0End) :
    st.turn ⟨false, hp.hr, noInteger⟩ = .go { st with d0 := some (st.cell st.pt0) } ∧
      Copying hp s org R d w { st with d0 := some (st.cell st.pt0) } := by
  have horg : org st.ptf = some st.pt0 := h.tasks (st.pt0, st.ptf) (by
    rw [UnnumberState.tasks, blockTasks_cons hlt]
    exact List.mem_cons_self ..)
  refine ⟨?_, { h with visiting := fun c hc => ?_ }⟩
  · rw [UnnumberState.turn, hd0]
    exact if_pos hlt
  · obtain rfl := Option.some.inj hc
    exact ⟨hlt, h.stands hR (h.origin _ _ horg).1⟩

/-- The turn at a reference. -/
theorem turn_ref {a : Addr} (hd0 : st.d0 = some (.ref a)) :
    a ∈ R ∧ st.turn ⟨false, hp.hr, noInteger⟩ = .go { st with d0 := some (st.cell a) } ∧
      Copying hp s org R d w { st with d0 := some (st.cell a) } := by
  obtain ⟨hlt, hstands⟩ := h.visiting _ hd0
  rcases hstands.eq_or with ⟨b, hb, hcell, hderef, hmarks⟩ | ⟨_, _, heq, _⟩
  · have ha : a ∈ R := hR.below.closed b hb a (by simp [hcell, Cell.cells])
    have hstands' := h.stands hR ha
    have hne : st.cell a ≠ .ref a := by
      intro heq
      rcases hstands'.eq_or with ⟨b', hb', hcell', hderef', hmarks'⟩ | ⟨_, _, heq', _⟩
      · have hunmarked := h.unmarked a (hR.below.cell a ha) hmarks'
        exact hR.bound a ha (hunmarked.symm.trans heq)
      · cases heq.symm.trans heq'
    have hleads : s.deref (.ref a) = s.deref (.ref st.pt0) := by
      rw [← hderef, ← hcell]
      by_cases hab : a = b
      · exact absurd (hab ▸ hcell) (hR.bound b hb)
      · rw [Store.deref_of_cell hcell fun heq => hab (Cell.ref.inj heq), hcell]
    refine ⟨ha, ?_, { h with visiting := fun c hc => ?_ }⟩
    · rw [UnnumberState.turn, hd0]
      exact if_neg hne
    · obtain rfl := Option.some.inj hc
      refine ⟨hlt, ?_⟩
      rcases hstands'.eq_or with ⟨b', hb', hcell', hderef', -⟩ | ⟨e, v, heq, he, hcopy⟩
      · change Stands hp s org R st.heap _ st.pt0 (st.cell a)
        rw [← hcell']
        exact .source hb' (hderef'.trans hleads) hmarks
      · change Stands hp s org R st.heap _ st.pt0 (st.cell a)
        rw [heq]
        exact .copy (hleads.symm.trans he) hcopy
  · cases heq

theorem cell_eq_or {a : Addr} (ha : a ∈ R) : st.cell a = s.cell a ∨ ∃ v, st.cell a = .nonvar v := by
  by_cases hmem : a ∈ st.frames.map CpFrame.pt0
  · obtain ⟨fr, hfr, rfl⟩ := List.mem_map.mp hmem
    obtain ⟨-, -, e, v, -, hv, -⟩ := h.marked fr hfr
    exact .inr ⟨v, hv⟩
  · exact .inl (h.unmarked a (hR.below.cell a ha) hmem)

omit hR in
theorem length_frames_le : st.frames.length ≤ R.card := by
  have hsub : (st.frames.map CpFrame.pt0).toFinset ⊆ R := by
    intro a ha
    obtain ⟨fr, hfr, rfl⟩ := List.mem_map.mp (List.mem_toFinset.mp ha)
    exact (h.marked fr hfr).1
  have hle := Finset.card_le_card hsub
  rwa [List.toFinset_card_of_nodup h.nodup, List.length_map] at hle

end Copying

-- ---------------------------------------------------------------------------
-- Runs
-- ---------------------------------------------------------------------------

section

variable {d w : Nonvar} {st : UnnumberState} (noInteger : Cell → ℤ) (hR : Source hp s R)
include hR

/-- References are followed to a word. -/
theorem Copying.reaches_word (a : Addr) (h : Copying hp s org R d w { st with d0 := some (.ref a) }) :
    ∃ v, ReflTransGen (Machine.Goes (UnnumberState.turn ⟨false, hp.hr, noInteger⟩)) { st with d0 := some (.ref a) }
      { st with d0 := some (.nonvar v) } ∧ Copying hp s org R d w { st with d0 := some (.nonvar v) } := by
  induction a using Store.deref_induction (s := s) with
  | unbound a hcell => exact absurd hcell (hR.bound a (h.turn_ref noInteger hR rfl).1)
  | ref a b hcell hne ih =>
    obtain ⟨ha, hturn, hnext⟩ := h.turn_ref noInteger hR rfl
    rcases h.cell_eq_or hR ha with hsame | ⟨v, hv⟩
    · rw [hsame, hcell] at hturn hnext
      obtain ⟨v, hreach, hword⟩ := ih hnext
      exact ⟨v, .head hturn hreach, hword⟩
    · rw [hv] at hturn hnext
      exact ⟨v, .single hturn, hnext⟩
  | nonvar a e hcell =>
    obtain ⟨ha, hturn, hnext⟩ := h.turn_ref noInteger hR rfl
    rcases h.cell_eq_or hR ha with hsame | ⟨v, hv⟩
    · rw [hsame, hcell] at hturn hnext
      exact ⟨e, .single hturn, hnext⟩
    · rw [hv] at hturn hnext
      exact ⟨v, .single hturn, hnext⟩

/-- The next cell is copied or entered. -/
theorem Copying.reaches_follows (h : Copying hp s org R d w st) (hd0 : st.d0 = none) (hlt : st.pt0 < st.pt0End) :
    ∃ org' st', ReflTransGen (Machine.Goes (UnnumberState.turn ⟨false, hp.hr, noInteger⟩)) st st' ∧
      Copying hp s org' R d w st' ∧ st.Follows st' := by
  obtain ⟨hturn, hnext⟩ := h.turn_start noInteger hR hd0 hlt
  cases hcell : st.cell st.pt0 with
  | nonvar v =>
    rw [hcell] at hturn hnext
    obtain ⟨org', st', hturn', hst', hfollows⟩ := hnext.turn_word noInteger hR rfl
    exact ⟨org', st', .head hturn (.single hturn'), hst', hfollows⟩
  | ref a =>
    rw [hcell] at hturn hnext
    obtain ⟨v, hreach, hword⟩ := hnext.reaches_word noInteger hR a
    obtain ⟨org', st', hturn', hst', hfollows⟩ := hword.turn_word noInteger hR rfl
    exact ⟨org', st', .head hturn (hreach.tail hturn'), hst', hfollows⟩

/-- A block is copied, when `n` cells more may be marked. -/
theorem Copying.reaches_end (n : ℕ) (h : Copying hp s org R d w st) (hd0 : st.d0 = none)
    (hn : R.card ≤ st.frames.length + n) :
    ∃ org' st', ReflTransGen (Machine.Goes (UnnumberState.turn ⟨false, hp.hr, noInteger⟩)) st st' ∧
      Copying hp s org' R d w st' ∧ st'.d0 = none ∧ st'.frames = st.frames ∧ ¬ st'.pt0 < st'.pt0End := by
  induction n using Nat.strong_induction_on generalizing org st with
  | h n ih =>
    induction hk : st.pt0End - st.pt0 generalizing org st with
    | zero => exact ⟨org, st, .refl, h, hd0, rfl, not_lt.mpr (Nat.le_of_sub_eq_zero hk)⟩
    | succ k ihk =>
      have hlt : st.pt0 < st.pt0End := Nat.lt_of_sub_eq_succ hk
      have hk' : st.pt0End - (st.pt0 + 1) = k := by
        rw [← Nat.sub_sub, hk]
        rfl
      obtain ⟨org', st', hreach, hst', hd0', hfollows⟩ := h.reaches_follows noInteger hR hd0 hlt
      rcases hfollows with ⟨hframes, hpt0, hpt0End⟩ | ⟨fr, hframes, hpt0, hpt0End⟩
      · obtain ⟨org'', st'', hreach', hst'', hd0'', hframes', hend⟩ :=
          ihk hst' hd0' (hframes ▸ hn) (by rw [hpt0, hpt0End, hk'])
        exact ⟨org'', st'', hreach.trans hreach', hst'', hd0'', hframes'.trans hframes, hend⟩
      · -- One more cell is marked, while the arguments are copied.
        have hle := hst'.length_frames_le
        rw [hframes, List.length_cons] at hle
        have hpos : n - 1 < n := by omega
        obtain ⟨org₁, st₁, hreach₁, hst₁, hd0₁, hframes₁, hend₁⟩ := ih (n - 1) hpos hst' hd0' (by
          rw [hframes, List.length_cons]
          omega)
        rw [hframes] at hframes₁
        have hturn : st₁.turn ⟨false, hp.hr, noInteger⟩ = .go (st₁.pop fr st.frames) := by
          rw [UnnumberState.turn, hd0₁]
          refine (if_neg hend₁).trans ?_
          rw [hframes₁]
        obtain ⟨org₂, st₂, hreach₂, hst₂, hd0₂, hframes₂, hend₂⟩ :=
          ihk (hst₁.pop hR hend₁ hframes₁) rfl hn (by
            change fr.pt0End - (fr.pt0 + 1) = k
            rw [hpt0, hpt0End, hk'])
        exact ⟨org₂, st₂, ((hreach.trans hreach₁).tail hturn).trans hreach₂, hst₂, hd0₂, hframes₂, hend₂⟩

/-- A copy returns. -/
theorem Copying.returns (h : Copying hp s org R d w st) (hd0 : st.d0 = none) (hframes : st.frames = []) :
    ∃ org' st', Machine.Returns (UnnumberState.turn ⟨false, hp.hr, noInteger⟩) st (⟨none, false⟩, st') ∧
      Copying hp s org' R d w st' ∧ st'.targets = [] := by
  obtain ⟨org', st', hreach, hst', hd0', hframes', hend⟩ := h.reaches_end noInteger hR R.card hd0 (Nat.le_add_left ..)
  rw [hframes] at hframes'
  refine ⟨org', st', (Machine.returns_reaches hreach).mpr (Machine.returns_of_exit ?_), hst', ?_⟩
  · rw [UnnumberState.turn, hd0']
    refine (if_neg hend).trans ?_
    rw [hframes', hst'.notGround]
  · rw [UnnumberState.targets, UnnumberState.tasks, blockTasks_nil hend, hframes']
    rfl

omit hR in
/-- A copy begins. -/
theorem copying_init {pt0 ptf k : ℕ} (asp : ℤ → Option Cell) (hhr : heap.hr = ptf + k) (hle : hp.hr ≤ ptf)
    (hf : ∀ q < hp.hr, heap.functorAt q = hp.functorAt q) (hargs : ∀ i < k, pt0 + i ∈ R)
    (hcopy : CopyOf hp (extendOrg (fun _ => none) pt0 ptf k) heap d w) :
    Copying hp s (extendOrg (fun _ => none) pt0 ptf k) R d w
      (.init ⟨false, hp.hr, noInteger⟩ heap s.cell asp pt0 (pt0 + k) ptf) := by
  have htasks : (UnnumberState.init ⟨false, hp.hr, noInteger⟩ heap s.cell asp pt0 (pt0 + k) ptf).tasks =
      blockTasks pt0 (pt0 + k) ptf := List.append_nil _
  have htargets : (UnnumberState.init ⟨false, hp.hr, noInteger⟩ heap s.cell asp pt0 (pt0 + k) ptf).targets =
      List.range' ptf k := by
    rw [UnnumberState.targets, htasks, map_snd_blockTasks, Nat.add_sub_cancel_left]
  have horg : ∀ a b, extendOrg (fun _ => none) pt0 ptf k b = some a → (ptf ≤ b ∧ b < ptf + k) ∧ pt0 + (b - ptf) = a := by
    intro a b hb
    by_cases hmem : ptf ≤ b ∧ b < ptf + k
    · rw [extendOrg, if_pos hmem] at hb
      exact ⟨hmem, Option.some.inj hb⟩
    · rw [extendOrg, if_neg hmem] at hb
      cases hb
  exact {
    hr_le := hle.trans (hhr ▸ Nat.le_add_right ..)
    functors := hf
    notGround := rfl
    framesNotGround := fun _ hfr => by cases hfr
    unmarked := fun _ _ _ => rfl
    marked := fun _ hfr => by cases hfr
    nodup := List.nodup_nil
    tasks := fun x hx => by
      rw [htasks] at hx
      obtain ⟨i, hi, rfl⟩ := mem_blockTasks hx
      rw [Nat.add_sub_cancel_left] at hi
      rw [extendOrg, if_pos ⟨Nat.le_add_right .., Nat.add_lt_add_left hi _⟩, Nat.add_sub_cancel_left]
    fresh := htargets ▸ List.nodup_range'
    origin := fun a b hb => by
      obtain ⟨hmem, rfl⟩ := horg a b hb
      exact ⟨hargs _ (Nat.sub_lt_left_of_lt_add hmem.1 hmem.2), hle.trans hmem.1, hmem.2.trans_eq hhr.symm⟩
    copied := fun a b hb hnot => by
      rw [htargets, List.mem_range'_1] at hnot
      exact absurd (horg a b hb).1 hnot
    table := fun i hi hle => absurd (hi.trans hle) (show ¬ (0 : ℤ) ≤ -1 by decide)
    visiting := fun _ hc => by cases hc
    root := hcopy }

end

-- ---------------------------------------------------------------------------
-- Results
-- ---------------------------------------------------------------------------

/-- What `unnumbervars` returns: a copy of the word, in which the numbers have variables. -/
structure Unnumbers (hp : Heap) (s : Store) (R : Finset Addr) (org : Addr → Option Addr) (asp : ℤ → Option Cell) (max : ℤ)
    (d : Nonvar) (r : Unnumbered) : Prop where
  functors : ∀ p < hp.hr, r.heap.functorAt p = hp.functorAt p
  term : Copied hp s org r.heap asp max d r.term
  origin : ∀ a b, org b = some a → a ∈ R ∧ b < r.heap.hr
  copied : ∀ a b, org b = some a → ∃ e, s.deref (.ref a) = .nonvar e ∧ Copied hp s org r.heap asp max e (r.cell b)
  table : ∀ i, 0 ≤ i → i ≤ max → ∀ c, asp i = some c → ∃ a b e, c = .ref b ∧ r.cell b = .ref b ∧ org b = some a ∧
    s.deref (.ref a) = .nonvar e ∧ IsNumbered hp s e i

theorem Copying.unnumbers {d w : Nonvar} {st : UnnumberState} (h : Copying hp s org R d w st) (htargets : st.targets = []) :
    Unnumbers hp s R org st.asp st.max d ⟨.nonvar w, st.heap, st.cell, none⟩ where
  functors := h.functors
  term := .word h.root
  origin a b hb := (h.origin a b hb).imp_right And.right
  copied a b hb := h.copied a b hb (by simp [htargets])
  table i hi hle c hc := by
    obtain ⟨a, b, e, hc, hcell, -, hb, he, hnum⟩ := h.table i hi hle c hc
    exact ⟨a, b, e, hc, hcell, hb, he, hnum⟩

/-- `unnumbervars` returns for a term without variables that is no number. -/
theorem Source.exists_unnumbers (hR : Source hp s R) {root : Addr} (hroot : root ∈ R) {d : Nonvar}
    (hd : s.deref (.ref root) = .nonvar d) (hnum : ∀ p, d = .appl p → hp.functorAt p ≠ .functor functorDollarVar)
    (noInteger : Cell → ℤ) (asp : ℤ → Option Cell) :
    ∃ org asp' max r, unnumberVars hp s root noInteger asp r ∧ Unnumbers hp s R org asp' max d r := by
  have hcells := hR.below.args hroot hd
  have hleaf : d.cells hp = [] → (∀ p, d = .appl p → p < hp.hr) →
      Unnumbers hp s R (fun _ => none) (fun _ => none) 0 d ⟨.nonvar d, hp, s.cell, none⟩ := fun hnil hlt =>
    { functors := fun _ _ => rfl
      term := .leaf hnil hlt
      origin := fun _ _ hb => by cases hb
      copied := fun _ _ hb => by cases hb
      table := fun _ _ _ _ hc => by cases hc }
  cases d with
  | int n =>
    refine ⟨_, _, _, _, ?_, hleaf rfl fun p hp => by cases hp⟩
    rw [unnumberVars, unnumberTerm, hd]
  | atom a =>
    refine ⟨_, _, _, _, ?_, hleaf rfl fun p hp => by cases hp⟩
    rw [unnumberVars, unnumberTerm, hd]
  | pair p =>
    have hargs : ∀ i < 2, p + i ∈ R := fun i hi => hcells _ (by
      rw [Nonvar.cells, List.mem_range'_1]
      exact ⟨Nat.le_add_right .., Nat.add_lt_add_left hi _⟩)
    have hcopy : CopyOf hp (extendOrg (fun _ => none) p hp.hr 2) { hp with hr := hp.hr + 2 } (.pair p) (.pair hp.hr) := by
      refine .list le_rfl (Nat.lt_add_of_pos_right two_pos) ?_ ?_
      · rw [extendOrg, if_pos ⟨le_rfl, Nat.lt_add_of_pos_right two_pos⟩, Nat.sub_self]
        rfl
      · rw [extendOrg, if_pos ⟨Nat.le_add_right .., Nat.lt_succ_self _⟩, Nat.add_sub_cancel_left]
    have hhr : ({ hp with hr := hp.hr + 2 } : Heap).hr = hp.hr + 2 := rfl
    have hbegin := copying_init (s := s) noInteger asp hhr le_rfl (fun _ _ => rfl) hargs hcopy
    obtain ⟨org, st, hreturns, hst, htargets⟩ := hbegin.returns noInteger hR rfl rfl
    refine ⟨org, _, _, _, ?_, hst.unnumbers htargets⟩
    rw [unnumberVars, unnumberTerm, hd]
    exact ⟨_, st, hreturns, rfl⟩
  | appl p =>
    have hlt := hR.below.appl_lt hroot hd
    cases hf : hp.functorAt p with
    | blob b =>
      refine ⟨_, _, _, _, ?_, hleaf (Nonvar.cells_blob hf) fun q hq => Nonvar.appl.inj hq ▸ hlt⟩
      rw [unnumberVars, unnumberTerm, hd]
      simp only [hf]
    | functor f =>
      have hne : f ≠ functorDollarVar := fun heq => hnum p rfl (heq ▸ hf)
      have hargs : ∀ i < f.arityOfFE, p + 1 + i ∈ R := fun i hi =>
        hcells _ ((Nonvar.mem_cells_appl hf).mpr ⟨⟨i, hi⟩, rfl⟩)
      have hcopy : CopyOf hp (extendOrg (fun _ => none) (p + 1) (hp.hr + 1) f.arityOfFE)
          ⟨Function.update hp.functorAt hp.hr (.functor f), hp.hr + 1 + f.arityOfFE⟩ (.appl p) (.appl hp.hr) := by
        refine .compound le_rfl ?_ hf hne (Function.update_self ..) fun i hi => ?_
        · exact Nat.lt_add_right _ (Nat.lt_succ_self _)
        · rw [extendOrg, if_pos ⟨Nat.le_add_right .., Nat.add_lt_add_left hi _⟩, Nat.add_sub_cancel_left]
      have hbegin := copying_init (s := s) noInteger asp rfl (Nat.le_succ _) (fun q hq => Function.update_of_ne hq.ne ..) hargs hcopy
      obtain ⟨org, st, hreturns, hst, htargets⟩ := hbegin.returns noInteger hR rfl rfl
      refine ⟨org, _, _, _, ?_, hst.unnumbers htargets⟩
      rw [unnumberVars, unnumberTerm, hd]
      simp only [hf]
      exact ⟨_, st, hreturns, rfl⟩

end Yap
