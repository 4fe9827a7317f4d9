-- SUMMARY: The tables for the constants and for the functors of a group send every key to the label of its clauses, and other keys to the default, when their number is one of an int.
import Yap.Index.Dispatch

/-!
# The tables of a group

A sorted group has its constants first, and behind them lists and terms with
functors. `do_consts` makes a table for the constants, `do_funcs` one for the
functors.
-/

namespace Yap.Indexing

open Tags

-- ---------------------------------------------------------------------------
-- One table
-- ---------------------------------------------------------------------------

section

variable {is : Word → Bool} {key : Word → Word} {label : List ClauseDef → Word} {cls : List ClauseDef}
  {ps : List (Word × Word)} {casesBits : ℕ} (failCode : Word) (space : Cells)

theorem emitSwitch_linear (casesBits : ℕ) {n : ℕ} (hn : ¬ minHashEntries < n) :
    ∃ l, emitSwitch casesBits n failCode space = some ⟨.if_, n, l⟩ ∧ l (2 * n) = 0 ∧ l (2 * n + 1) = failCode := by
  refine ⟨_, (if_neg hn).trans rfl, if_pos rfl, ?_⟩
  rw [if_neg (by omega), if_pos (by omega)]

theorem emitSwitch_hash {n b : ℕ} (hn : minHashEntries < n) (hcases : hashCases 64 casesBits n = some (2 ^ b)) :
    ∃ l, emitSwitch casesBits n failCode space = some ⟨.switch, 2 ^ b, l⟩ ∧ Holds b failCode l [] := by
  refine ⟨_, (if_pos hn).trans (by rw [hcases, Option.map_some]), ?_⟩
  refine OpenAddressing.Represents.empty (fun e he => ?_) fun e he => ?_
  · simp only
    rw [if_pos (by omega), if_pos (by omega)]
  · simp only
    rw [if_pos (by omega), if_neg (by omega)]

/-- The table with the pairs of a group. -/
theorem table_exact (hcases : 32 ≤ casesBits) (hps : PairsOf is key label cls ps) (hzero : ∀ p ∈ ps, p.1 ≠ 0)
    (hfits : TableFits ps.length) :
    ∃ sw cells, emitSwitch casesBits ps.length failCode space = some sw ∧
      fillEntries ps.length 0 ps sw.l = some cells ∧
      Exact { sw with l := cells } (target is key label failCode cls) := by
  by_cases hn : minHashEntries < ps.length
  · obtain ⟨b, hb, hlt, hsize⟩ := hashCases_of_fits (hfits.resolve_left (by rw [minHashEntries] at hn; omega))
    obtain ⟨l, hemit, hempty⟩ := emitSwitch_hash failCode space hn
      (hsize 64 casesBits (by omega) hcases)
    obtain ⟨cells, hfill, hholds⟩ := fillEntries_hash hn (hsize 32 32 (le_refl _) (le_refl _)) hb hlt hempty
      (Nat.le_of_eq (Nat.zero_add _)) hps.nodup hzero (fun _ _ _ h => absurd h List.not_mem_nil) 0
    rw [List.append_nil] at hholds
    refine ⟨_, cells, hemit, hfill, fun k => ?_, fun _ k j => emulatorProbe_eq k hb j⟩
    obtain ⟨v, hjump, hdisp⟩ := switchOn_dispatches hholds hb hlt k
    rw [← hps.target_eq hdisp]
    exact hjump
  · obtain ⟨l, hemit, hend⟩ := emitSwitch_linear failCode space casesBits hn
    obtain ⟨cells, hfill, hlisted, -⟩ := fillEntries_linear hn l 0 ps (by rw [Nat.zero_add]; exact hend)
    refine ⟨_, cells, hemit, hfill, fun k => ?_, fun hop => SwitchOp.noConfusion hop⟩
    obtain ⟨v, hjump, hdisp⟩ := if_dispatches hlisted hzero k
    rw [← hps.target_eq hdisp]
    exact hjump

/-- A number of entries that is no `int`. -/
theorem fillEntries_eq_none (hfits : ¬ TableFits ps.length) (cells : Cells) : fillEntries ps.length 0 ps cells = none := by
  obtain ⟨hn, hbig⟩ := not_or.mp hfits
  have hcases := hashCases_of_not_fits 32 (Nat.lt_of_not_le hbig)
  cases hps : ps with
  | nil => exact absurd (by simp [hps]) hn
  | cons p ps' =>
    rw [hps] at hcases hn
    have hlt : minHashEntries < (p :: ps').length := Nat.lt_of_not_le hn
    rw [fillEntries, fetchEntry, if_pos hlt, hcases]
    rfl

end

-- ---------------------------------------------------------------------------
-- Groups
-- ---------------------------------------------------------------------------

section

variable (label : List ClauseDef → Word) (failCode nxtlbl : Word) (space : Cells) {foundVar : Word}
  {cls : List ClauseDef}

/-- The first clause of a sorted group has the least low bits. -/
theorem lowTagOf_first {c : ClauseDef} (hsorted : Sorted cls) (hc : c ∈ cls.head?) {c' : ClauseDef}
    (hc' : c' ∈ cls) : lowTagOf c.Tag ≤ lowTagOf c'.Tag := by
  cases cls with
  | nil => cases hc
  | cons min cls =>
    obtain rfl : min = c := Option.some.inj hc
    rcases List.mem_cons.mp hc' with rfl | hc'
    · exact BitVec.le_refl _
    · exact lowTagOf_le ((List.pairwise_cons.mp hsorted).1 c' hc')

/-- Constants come first. -/
theorem ConstGroup.firsts (h : ConstGroup foundVar cls) :
    cls.Pairwise fun c c' => isConst c'.Tag = true → isConst c.Tag = true := by
  obtain ⟨first, hfirst, hconst⟩ := h.first
  refine List.pairwise_iff_forall_sublist.mpr fun {c c'} hsub hc' => ?_
  have hmem : c ∈ cls := hsub.subset List.mem_cons_self
  have hle := lowTagOf_le (List.pairwise_iff_forall_sublist.mp h.sorted hsub)
  have hge := lowTagOf_first h.sorted hfirst hmem
  rw [lowTagOf_isConst hc'] at hle
  rw [lowTagOf_isConst hconst] at hge
  exact h.terms c hmem (BitVec.le_antisymm hle hge)

theorem injective_repAppl : Function.Injective repAppl := fun t t' h => by
  have hadd : repAppl t + applBits = repAppl t' + applBits := congrArg (· + applBits) h
  rwa [repAppl, repAppl, BitVec.sub_add_cancel, BitVec.sub_add_cancel] at hadd

theorem FuncGroup.isApplTerm (h : FuncGroup cls) {c : ClauseDef} (hc : c ∈ cls) : isApplTerm c.Tag = true := by
  obtain ⟨first, hfirst, happl⟩ := h.first
  exact isApplTerm_iff.mpr (BitVec.le_trans (isApplTerm_iff.mp happl) (lowTagOf_first h.sorted hfirst hc))

theorem isConst_ne_zero {t : Word} (h : isConst t = true) : t ≠ 0 := by
  rintro rfl
  exact absurd h (by decide)

theorem doConsts_eq (hfirst : ∃ c ∈ cls.head?, isConst c.Tag = true) :
    doConsts label foundVar failCode nxtlbl space cls =
      (emitCswitch (countConsts foundVar cls) failCode space).bind fun sw =>
        (doSwitchLoop label id (countConsts foundVar cls) (countConsts foundVar cls) 0 sw.l cls).map
          fun out => (.code { sw with l := out.1 }, out.2) := by
  obtain ⟨c, hc, hconst⟩ := hfirst
  cases cls with
  | nil => cases hc
  | cons min cls =>
    obtain rfl : min = c := Option.some.inj hc
    have hskip : (!isAtomTerm min.Tag && !isIntTerm min.Tag) = false := by
      rw [isConst] at hconst
      rw [← Bool.not_or, hconst]
      rfl
    rw [doConsts, hskip]
    rfl

theorem doFuncs_eq (hne : cls ≠ []) (hcount : countFuncs foundVar cls ≠ 0) :
    doFuncs label foundVar failCode nxtlbl space cls =
      (emitFswitch (countFuncs foundVar cls) failCode space).bind fun sw =>
        (doSwitchLoop label repAppl (countFuncs foundVar cls) (countFuncs foundVar cls) 0 sw.l cls).map
          fun out => (.code { sw with l := out.1 }, out.2) := by
  cases cls with
  | nil => exact absurd rfl hne
  | cons min cls =>
    rw [doFuncs]
    exact if_neg hcount

/-- A table and the loop that fills it. -/
theorem fillTable_spec {is : Word → Bool} {key : Word → Word} (hkey : key.Injective) {casesBits : ℕ}
    (hcases : 32 ≤ casesBits) (hsorted : Sorted cls)
    (hfirsts : cls.Pairwise fun c c' => is c'.Tag = true → is c.Tag = true) (hfresh : ∀ c ∈ cls, c.Tag ≠ foundVar)
    (hzero : ∀ c ∈ cls, is c.Tag = true → key c.Tag ≠ 0) {n : ℕ} (hn : countTags is foundVar cls = n) :
    n = keyCount is cls ∧
      (TableFits n → ∃ sw, ((emitSwitch casesBits n failCode space).bind fun sw =>
          (doSwitchLoop label key n n 0 sw.l cls).map fun out => (SwitchEntry.code { sw with l := out.1 }, out.2)) =
            some (.code sw, cls.filter fun c => !is c.Tag) ∧ Exact sw (target is key label failCode cls)) ∧
      (¬ TableFits n → ((emitSwitch casesBits n failCode space).bind fun sw =>
          (doSwitchLoop label key n n 0 sw.l cls).map fun out => (SwitchEntry.code { sw with l := out.1 }, out.2)) =
            none) := by
  obtain ⟨ps, hlen, hps, hloop⟩ := doSwitchLoop_eq label hkey n hsorted hfirsts hfresh hn
  have hzero' : ∀ p ∈ ps, p.1 ≠ 0 := by
    intro p hp
    obtain ⟨c, hc, his, hk⟩ := hps.exists_clause hp
    exact hk ▸ hzero c hc his
  subst hlen
  refine ⟨hps.length_eq hkey, fun hfits => ?_, fun hfits => ?_⟩
  · obtain ⟨sw, cells, hemit, hfill, hexact⟩ := table_exact failCode space hcases hps hzero' hfits
    refine ⟨{ sw with l := cells }, ?_, hexact⟩
    rw [hemit, Option.bind_some, hloop, hfill]
    rfl
  · cases hemit : emitSwitch casesBits ps.length failCode space with
    | none => rfl
    | some sw =>
      rw [Option.bind_some, hloop, fillEntries_eq_none hfits]
      rfl

/-- The table for the constants of a group. -/
theorem doConsts_spec (h : ConstGroup foundVar cls) :
    (TableFits (keyCount isConst cls) → ∃ sw, doConsts label foundVar failCode nxtlbl space cls =
        some (.code sw, cls.filter fun c => !isConst c.Tag) ∧ Exact sw (target isConst id label failCode cls)) ∧
      (¬ TableFits (keyCount isConst cls) → doConsts label foundVar failCode nxtlbl space cls = none) := by
  obtain ⟨hcount, hfits, hnot⟩ := fillTable_spec (n := countConsts foundVar cls) label failCode space Function.injective_id
    (by decide : 32 ≤ 64) h.sorted h.firsts h.fresh (fun _ _ hconst => isConst_ne_zero hconst) rfl
  rw [← hcount, doConsts_eq label failCode nxtlbl space h.first]
  exact ⟨hfits, hnot⟩

/-- The table for the functors of a group. -/
theorem doFuncs_spec (hfound : isAtomTerm foundVar = true) (h : FuncGroup cls) :
    (TableFits (keyCount isApplTerm cls) → ∃ sw, doFuncs label foundVar failCode nxtlbl space cls =
        some (.code sw, cls.filter fun c => !isApplTerm c.Tag) ∧
          Exact sw (target isApplTerm repAppl label failCode cls)) ∧
      (¬ TableFits (keyCount isApplTerm cls) → doFuncs label foundVar failCode nxtlbl space cls = none) := by
  have hfresh : ∀ c ∈ cls, c.Tag ≠ foundVar := by
    intro c hc heq
    have happl := isApplTerm_iff.mp (h.isApplTerm hc)
    rw [heq, lowTagOf_isConst (Bool.or_eq_true_iff.mpr (.inl hfound))] at happl
    exact absurd happl (by decide)
  obtain ⟨hcount, hfits, hnot⟩ := fillTable_spec (n := countFuncs foundVar cls) label failCode space injective_repAppl
    (le_refl 32) h.sorted (List.pairwise_iff_forall_sublist.mpr fun hsub _ =>
      h.isApplTerm (hsub.subset List.mem_cons_self)) hfresh (fun c hc _ => h.functor c hc) rfl
  have hne : cls ≠ [] := by
    rintro rfl
    obtain ⟨c, hc, -⟩ := h.first
    cases hc
  have hpos : countFuncs foundVar cls ≠ 0 := by
    rw [hcount, keyCount, Ne, Finset.card_eq_zero, List.toFinset_eq_empty_iff, List.map_eq_nil_iff,
      List.filter_eq_nil_iff]
    intro hnone
    obtain ⟨c, hc⟩ := List.exists_mem_of_ne_nil cls hne
    exact hnone c hc (h.isApplTerm hc)
  rw [← hcount, doFuncs_eq label failCode nxtlbl space hne hpos]
  exact ⟨hfits, hnot⟩

end

-- ---------------------------------------------------------------------------
-- Exactness
-- ---------------------------------------------------------------------------

/-- A table is made, and it is exact. -/
def MakesExact (made : Option (SwitchEntry × List ClauseDef)) (dispatch : Word → Word) : Prop :=
  ∃ sw rest, made = some (.code sw, rest) ∧ Exact sw dispatch

theorem makesExact_iff {made : Option (SwitchEntry × List ClauseDef)} {dispatch : Word → Word} {fits : Prop}
    {rest : List ClauseDef} (h : (fits → ∃ sw, made = some (.code sw, rest) ∧ Exact sw dispatch) ∧ (¬ fits → made = none)) :
    MakesExact made dispatch ↔ fits := by
  refine ⟨fun hexact => ?_, fun hfits => ?_⟩
  · by_contra hnot
    obtain ⟨sw, rest', hmade, -⟩ := hexact
    rw [h.2 hnot] at hmade
    cases hmade
  · obtain ⟨sw, hmade, hexact⟩ := h.1 hfits
    exact ⟨sw, rest, hmade, hexact⟩

/-- The tables of `do_consts` and of `do_funcs` are exact if and only if the number of their
    entries is an `int`, or the number of keys one for a linear table. -/
theorem switch_tables_exact_iff (label : List ClauseDef → Word) (failCode nxtlbl : Word) (space : Cells)
    {foundVar : Word} (hfound : isAtomTerm foundVar = true) {consts funcs : List ClauseDef}
    (hconsts : ConstGroup foundVar consts) (hfuncs : FuncGroup funcs) :
    (MakesExact (doConsts label foundVar failCode nxtlbl space consts) (target isConst id label failCode consts) ↔
        TableFits (keyCount isConst consts)) ∧
      (MakesExact (doFuncs label foundVar failCode nxtlbl space funcs) (target isApplTerm repAppl label failCode funcs) ↔
        TableFits (keyCount isApplTerm funcs)) :=
  ⟨makesExact_iff (doConsts_spec label failCode nxtlbl space hconsts),
    makesExact_iff (doFuncs_spec label failCode nxtlbl space hfound hfuncs)⟩

/-- A clause for a tag. -/
def clauseFor (tag : Word) : ClauseDef := ⟨tag, 0, 0, 0⟩

/-- Two small integers, and a functor: the tables are exact. -/
theorem switch_tables_exact_iff_small :
    MakesExact (doConsts (fun _ => 7) 9 3 5 (fun _ => 0) [clauseFor (mkIntTerm 1), clauseFor (mkIntTerm 2)])
        (target isConst id (fun _ => 7) 3 [clauseFor (mkIntTerm 1), clauseFor (mkIntTerm 2)]) ∧
      MakesExact (doFuncs (fun _ => 7) 9 3 5 (fun _ => 0) [clauseFor (absAppl 800)])
        (target isApplTerm repAppl (fun _ => 7) 3 [clauseFor (absAppl 800)]) := by
  have hconsts : ConstGroup 9 [clauseFor (mkIntTerm 1), clauseFor (mkIntTerm 2)] :=
    { sorted := by unfold Sorted; decide
      first := ⟨_, rfl, by decide⟩
      terms := by decide
      fresh := by decide }
  have hfuncs : FuncGroup [clauseFor (absAppl 800)] :=
    { sorted := List.pairwise_singleton _ _
      first := ⟨_, rfl, by decide⟩
      functor := by decide }
  have hfound : isAtomTerm 9 = true := by decide
  have h := switch_tables_exact_iff (fun _ => 7) 3 5 (fun _ => 0) hfound hconsts hfuncs
  exact ⟨h.1.mpr (by unfold TableFits; decide), h.2.mpr (by unfold TableFits; decide)⟩

-- ---------------------------------------------------------------------------
-- Many constants
-- ---------------------------------------------------------------------------

/-- One clause for each of the first integers. -/
def intGroup (n : ℕ) : List ClauseDef := (List.range n).map fun i => clauseFor (mkIntTerm (BitVec.ofNat 64 i))

theorem toNat_mkIntTerm {i : ℕ} (hi : i < 2 ^ 58) : (mkIntTerm (BitVec.ofNat 64 i)).toNat = 2 ^ 61 + 1 + 8 * i := by
  have hfield : ((BitVec.ofNat 64 i).setWidth 58).toNat = i := by
    rw [BitVec.toNat_setWidth, BitVec.toNat_ofNat]
    omega
  have hbits : ∀ j : ℕ, j < 64 → numberTag.getLsbD j = (decide (j = 0) || decide (j = 61)) := by decide
  rw [mkIntTerm_eq, taggedWord]
  generalize (BitVec.ofNat 64 i).setWidth 58 = f at hfield
  have hdisj : numberTag &&& (f.setWidth 64 <<< 3) = 0 := by
    apply BitVec.eq_of_getLsbD_eq
    intro j hj
    rw [BitVec.getLsbD_and, hbits j hj, BitVec.getLsbD_shiftLeft, BitVec.getLsbD_setWidth]
    by_cases hlow : j < 3
    · simp [hlow]
    · by_cases htop : j = 61
      · simp [htop]
      · have hzero : j ≠ 0 := by omega
        simp [htop, hzero]
  have hshift : (f.setWidth 64 <<< 3).toNat = 8 * i := by
    rw [BitVec.toNat_shiftLeft, BitVec.toNat_setWidth, hfield, Nat.shiftLeft_eq]
    omega
  have htag : numberTag.toNat = 2 ^ 61 + 1 := by decide
  rw [← BitVec.add_eq_or_of_and_eq_zero _ _ hdisj, BitVec.toNat_add, hshift, htag]
  omega

theorem isIntTerm_mkIntTerm (w : Word) : isIntTerm (mkIntTerm w) = true := by
  rw [mkIntTerm_eq]
  exact isIntTerm_taggedWord _

theorem isConst_mkIntTerm (w : Word) : isConst (mkIntTerm w) = true := by
  rw [isConst, isIntTerm_mkIntTerm, Bool.or_true]

theorem constGroup_intGroup {n : ℕ} (hpos : 0 < n) (hn : n ≤ 2 ^ 58) : ConstGroup 9 (intGroup n) := by
  have hmem : ∀ c ∈ intGroup n, ∃ i < n, c.Tag = mkIntTerm (BitVec.ofNat 64 i) := by
    intro c hc
    obtain ⟨i, hi, rfl⟩ := List.mem_map.mp hc
    exact ⟨i, List.mem_range.mp hi, rfl⟩
  refine ⟨?_, ⟨clauseFor (mkIntTerm 0), ?_, isConst_mkIntTerm 0⟩, fun c hc _ => ?_, fun c hc => ?_⟩
  · refine List.pairwise_map.mpr (List.pairwise_lt_range.imp_of_mem fun {i j} hi hj hlt => ?_)
    rw [List.mem_range] at hi hj
    have hlow : ∀ w : Word, lowTagOf (mkIntTerm w) = 1 := fun w => lowTagOf_isConst (isConst_mkIntTerm w)
    refine smallerOrEq_iff.mpr (.inr ⟨(hlow _).trans (hlow _).symm, ?_⟩)
    change mkIntTerm (BitVec.ofNat 64 i) ≤ mkIntTerm (BitVec.ofNat 64 j)
    rw [BitVec.le_def, toNat_mkIntTerm (by omega), toNat_mkIntTerm (by omega)]
    omega
  · obtain ⟨n, rfl⟩ := Nat.exists_eq_add_one_of_ne_zero hpos.ne'
    rw [intGroup, List.range_succ_eq_map]
    rfl
  · obtain ⟨i, -, heq⟩ := hmem c hc
    exact heq ▸ isConst_mkIntTerm _
  · obtain ⟨i, -, heq⟩ := hmem c hc
    intro h9
    have hint := isIntTerm_mkIntTerm (BitVec.ofNat 64 i)
    rw [← heq, h9] at hint
    exact absurd hint (by decide)

theorem keyCount_intGroup {n : ℕ} (hn : n ≤ 2 ^ 58) : keyCount isConst (intGroup n) = n := by
  have hall : (intGroup n).filter (isConst ·.Tag) = intGroup n := by
    refine List.filter_eq_self.mpr fun c hc => ?_
    obtain ⟨i, -, rfl⟩ := List.mem_map.mp hc
    exact isConst_mkIntTerm _
  have hnodup : ((intGroup n).map (·.Tag)).Nodup := by
    rw [intGroup, List.map_map]
    refine List.Nodup.map_on (fun i hi j hj heq => ?_) List.nodup_range
    have hnat := congrArg BitVec.toNat heq
    rw [List.mem_range] at hi hj
    change (mkIntTerm (BitVec.ofNat 64 i)).toNat = (mkIntTerm (BitVec.ofNat 64 j)).toNat at hnat
    rw [toNat_mkIntTerm (by omega), toNat_mkIntTerm (by omega)] at hnat
    omega
  rw [keyCount, hall, List.toFinset_card_of_nodup hnodup, List.length_map, intGroup, List.length_map, List.length_range]

/-- The table of so many integers has no size that is an `int`. -/
theorem not_makesExact_many :
    ConstGroup 9 (intGroup 858993460) ∧
      ¬ MakesExact (doConsts (fun _ => 7) 9 3 5 (fun _ => 0) (intGroup 858993460))
        (target isConst id (fun _ => 7) 3 (intGroup 858993460)) := by
  have hgroup : ConstGroup 9 (intGroup 858993460) := constGroup_intGroup (by norm_num) (by norm_num)
  refine ⟨hgroup, fun hexact => ?_⟩
  have hfits := (makesExact_iff (doConsts_spec (fun _ => 7) 3 5 (fun _ => 0) hgroup)).mp hexact
  rw [keyCount_intGroup (by norm_num), TableFits] at hfits
  norm_num at hfits

end Yap.Indexing
