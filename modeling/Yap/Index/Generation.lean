-- SUMMARY: Groups of clauses and the generation of an index for them: marked clauses are removed unless two come one after the other, and the loop over the type switch then assigns every clause once.
import Yap.Index.Switches

/-!
# Groups and the generation of their index

The functions follow `index.c`. Clauses that start with a test that the argument is
unbound carry a mark. The functions that remove them look at one place of the array
after the other, and move the clauses behind a marked one to the front; so they leave
the second one of two that are neighbours. When none is left, every turn of the loop
over the type switch takes all clauses of one kind; a marked clause that is left comes
first in the sorted group, and the loop makes the same turn for ever.
-/

namespace Yap.Indexing

open Tags Machine

-- ---------------------------------------------------------------------------
-- Forming groups
-- ---------------------------------------------------------------------------

/-- The clauses from `FirstClause` to `LastClause`, and how many there are of each kind. -/
structure GroupDef where
  clauses : List ClauseDef
  VarClauses : Word := 0
  AtomClauses : Word := 0
  PairClauses : Word := 0
  StructClauses : Word := 0
  TestClauses : Word := 0
deriving DecidableEq

/-- The count of a clause that is in a group. -/
def GroupDef.count (grp : GroupDef) (t : Word) : GroupDef :=
  if isAtomTerm t || isIntTerm t then { grp with AtomClauses := grp.AtomClauses + 1 }
  else if isPairTerm t then { grp with PairClauses := grp.PairClauses + 1 }
  else if isApplTerm t then { grp with StructClauses := grp.StructClauses + 1 }
  else { grp with TestClauses := grp.TestClauses + 1 }

def GroupDef.add (grp : GroupDef) (cl : ClauseDef) : GroupDef := { grp with clauses := grp.clauses ++ [cl] }

/-- The clauses of a group that starts with an unbound argument, and those that follow it. -/
def varGroup (grp : GroupDef) : List ClauseDef → GroupDef × List ClauseDef
  | [] => (grp, [])
  | cl :: cls =>
    if !isVarTerm cl.Tag then (grp, cl :: cls)
    else if cl.Tag ≠ varTest then varGroup { grp.add cl with VarClauses := grp.VarClauses + 1 } cls
    else varGroup (grp.add cl) cls

/-- The other groups: `restart_loop` is the second part. After a mark that is not the last
    clause but one the loop goes on without a look at the tag. -/
def nonvarGroup (grp : GroupDef) : List ClauseDef → GroupDef × List ClauseDef
  | [] => (grp, [])
  | [min] => ((grp.count min.Tag).add min, [])
  | min :: cl :: cls =>
    let grp := (grp.count min.Tag).add min
    if !isVarTerm cl.Tag then nonvarGroup grp (cl :: cls)
    else if cl.Tag = varTest then if 1 < cls.length then nonvarGroup (grp.add cl) cls else (grp.add cl, cls)
    else (grp, cl :: cls)

/-- `groups_in`, for a number of clauses. -/
def groupsIn : ℕ → List ClauseDef → List GroupDef
  | 0, _ => []
  | _, [] => []
  | n + 1, min :: cls =>
    if min.Tag = varTest then groupsIn n cls
    else
      let (grp, rest) :=
        if isVarTerm min.Tag then varGroup { clauses := [min], VarClauses := 1 } cls
        else nonvarGroup { clauses := [] } (min :: cls)
      grp :: groupsIn n rest

-- ---------------------------------------------------------------------------
-- Removing marked clauses
-- ---------------------------------------------------------------------------

/-- The loop of `purge_pvar` and `cls_move`. The clause that moves to the place of a marked one
    is not looked at. -/
def skipMarks (move : ClauseDef → ClauseDef) : List ClauseDef → List ClauseDef
  | [] => []
  | [cl] => if cl.Tag = varTest then [] else [move cl]
  | cl :: next :: cls =>
    if cl.Tag = varTest then next :: skipMarks move cls else move cl :: skipMarks move (next :: cls)

def purgePvar (group : GroupDef) : GroupDef :=
  let cls := skipMarks id group.clauses
  { group with
    clauses := cls
    VarClauses := group.VarClauses - BitVec.ofNat 64 (group.clauses.length - cls.length) }

section

variable (moveNext skipToArg : ClauseDef → Word)

/-- `move_next` and `skip_to_arg` change the pointer to the current code. -/
def clsMove (compoundTerm : Bool) (cls : List ClauseDef) : List ClauseDef :=
  if compoundTerm then cls.map fun cl => { cl with CurrentCode := skipToArg cl }
  else skipMarks (fun cl => { cl with CurrentCode := moveNext cl }) cls

end

-- ---------------------------------------------------------------------------
-- Type switches
-- ---------------------------------------------------------------------------

/-- An entry with the clauses that it was made for. -/
structure TypeEntry where
  entry : SwitchEntry
  clauses : List ClauseDef

/-- The `VarEntry` is set before the loop. -/
structure TypeSwitch where
  PairEntry : TypeEntry
  ConstEntry : TypeEntry
  FuncEntry : TypeEntry

/-- The state of the loop: what is left of the group, and the entries. -/
abbrev SwitchState : Type := List ClauseDef × TypeSwitch

section

variable (label : List ClauseDef → Word) (foundVar failCode nxtlbl : Word) (space : Cells)

/-- The entry for the lists at the beginning of a group, which may be none. -/
def doPair (cls : List ClauseDef) : SwitchEntry × List ClauseDef :=
  (.label (label (cls.takeWhile (isPairTerm ·.Tag))), cls.dropWhile (isPairTerm ·.Tag))

/-- An entry for the clauses in front of `rest`. -/
def entryFor (entry : SwitchEntry) (cls rest : List ClauseDef) : TypeEntry :=
  ⟨entry, cls.take (cls.length - rest.length)⟩

/-- One turn of the loop of `do_nonvar_group`. There is no result when a table has none. -/
def typeSwitchTurn (st : SwitchState) : Turn SwitchState (Option TypeSwitch) :=
  match st.1 with
  | [] => .exit (some st.2)
  | first :: _ =>
    if isAtomOrIntTerm first.Tag then
      match doConsts label foundVar failCode nxtlbl space st.1 with
      | some (entry, rest) => .go (rest, { st.2 with ConstEntry := entryFor entry st.1 rest })
      | none => .exit none
    else if isApplTerm first.Tag then
      match doFuncs label foundVar failCode nxtlbl space st.1 with
      | some (entry, rest) => .go (rest, { st.2 with FuncEntry := entryFor entry st.1 rest })
      | none => .exit none
    else
      let (entry, rest) := doPair label st.1
      .go (rest, { st.2 with PairEntry := entryFor entry st.1 rest })

/-- All entries lead to the code behind the group before the loop. -/
def typeSwitchStart (cls : List ClauseDef) : SwitchState :=
  (cls, ⟨⟨.label nxtlbl, []⟩, ⟨.label nxtlbl, []⟩, ⟨.label nxtlbl, []⟩⟩)

end

/-- What `do_nonvar_group` does with a group before its loop. -/
inductive NonvarGroup where
  | varGroup
  | onlyTests
  | loop (cls : List ClauseDef)

/-- The group of the loop is moved and sorted. -/
def doNonvarGroup (moveNext skipToArg : ClauseDef → Word) (sortGroup : List ClauseDef → List ClauseDef)
    (compoundTerm : Bool) (grp : GroupDef) : NonvarGroup :=
  if grp.AtomClauses + grp.PairClauses + grp.StructClauses > 1 then
    if grp.clauses = [] then .onlyTests
    else .loop (sortGroup (clsMove moveNext skipToArg compoundTerm grp.clauses))
  else .varGroup

open Relation

-- ---------------------------------------------------------------------------
-- Marks
-- ---------------------------------------------------------------------------

/-- No two marked clauses are neighbours. -/
def MarksApart (cls : List ClauseDef) : Prop := cls.IsChain fun c c' => ¬ (c.Tag = varTest ∧ c'.Tag = varTest)

def unmarked (cls : List ClauseDef) : List ClauseDef := cls.filter (·.Tag ≠ varTest)

theorem unmarked_cons_of_ne {c : ClauseDef} (h : c.Tag ≠ varTest) (cls : List ClauseDef) :
    unmarked (c :: cls) = c :: unmarked cls := List.filter_cons_of_pos (by simpa using h)

theorem unmarked_cons_of_eq {c : ClauseDef} (h : c.Tag = varTest) (cls : List ClauseDef) :
    unmarked (c :: cls) = unmarked cls := List.filter_cons_of_neg (by simpa using h)

theorem marksApart_cons_of_ne {c : ClauseDef} (h : c.Tag ≠ varTest) {cls : List ClauseDef} :
    MarksApart (c :: cls) ↔ MarksApart cls := by
  cases cls with
  | nil => simp [MarksApart]
  | cons c' cls => simp [MarksApart, List.isChain_cons_cons, h]

/-- What is seen of the clauses, their tags at least, is that of the unmarked ones if and only if
    no two marked ones are neighbours. -/
theorem skipMarks_eq_iff {β : Type*} (view : ClauseDef → β) (tag : β → Word) (htag : ∀ c, tag (view c) = c.Tag)
    (move : ClauseDef → ClauseDef) (hmove : ∀ c, view (move c) = view c) (cls : List ClauseDef) :
    (skipMarks move cls).map view = (unmarked cls).map view ↔ MarksApart cls := by
  induction cls using skipMarks.induct with
  | case1 => simp [skipMarks, unmarked, MarksApart]
  | case2 cl h =>
    rw [skipMarks, if_pos h, unmarked_cons_of_eq h]
    simp [unmarked, MarksApart]
  | case3 cl h =>
    rw [skipMarks, if_neg h, unmarked_cons_of_ne h]
    simp [unmarked, MarksApart, hmove]
  | case4 cl next cls h ih =>
    rw [skipMarks, if_pos h, unmarked_cons_of_eq h]
    by_cases hnext : next.Tag = varTest
    · -- The second mark stays.
      rw [unmarked_cons_of_eq hnext]
      refine iff_of_false (fun heq => ?_) fun hchain => ?_
      · have hmem : view next ∈ (unmarked cls).map view := heq ▸ List.mem_cons_self
        obtain ⟨c, hc, hview⟩ := List.mem_map.mp hmem
        have hne := (List.mem_filter.mp hc).2
        rw [decide_eq_true_iff, ← htag c, hview, htag next] at hne
        exact hne hnext
      · exact (List.isChain_cons_cons.mp hchain).1 ⟨h, hnext⟩
    · rw [unmarked_cons_of_ne hnext, List.map_cons, List.map_cons, List.cons.injEq, ih, ← marksApart_cons_of_ne hnext,
        MarksApart, MarksApart, List.isChain_cons_cons]
      simp [hnext]
  | case5 cl next cls h ih =>
    rw [skipMarks, if_neg h, unmarked_cons_of_ne h, List.map_cons, List.map_cons, List.cons.injEq, hmove, ih,
      marksApart_cons_of_ne h]
    simp

/-- `purge_pvar` removes the marked clauses, and nothing else. -/
def Purges (cls : List ClauseDef) : Prop := (purgePvar { clauses := cls }).clauses = unmarked cls

theorem purges_iff (cls : List ClauseDef) : Purges cls ↔ MarksApart cls := by
  have h := skipMarks_eq_iff id ClauseDef.Tag (fun _ => rfl) id (fun _ => rfl) cls
  rwa [List.map_id, List.map_id] at h

/-- What is not the pointer to the current code. -/
def ClauseDef.identity (c : ClauseDef) : Word × Word × Word := (c.Tag, c.Code, c.workPC)

section

variable (moveNext skipToArg : ClauseDef → Word)

/-- `cls_move` removes the marked clauses, and changes nothing but pointers to the current code
    in the others. -/
def Moves (compoundTerm : Bool) (cls : List ClauseDef) : Prop :=
  (clsMove moveNext skipToArg compoundTerm cls).map ClauseDef.identity = (unmarked cls).map ClauseDef.identity

theorem moves_iff_of_argument (cls : List ClauseDef) : Moves moveNext skipToArg false cls ↔ MarksApart cls :=
  skipMarks_eq_iff ClauseDef.identity Prod.fst (fun _ => rfl) (fun cl => { cl with CurrentCode := moveNext cl })
    (fun _ => rfl) cls

/-- Inside of compound terms no clause is removed. -/
theorem moves_iff_of_compound (cls : List ClauseDef) :
    Moves moveNext skipToArg true cls ↔ ∀ c ∈ cls, c.Tag ≠ varTest := by
  have hmap : (clsMove moveNext skipToArg true cls).map ClauseDef.identity = cls.map ClauseDef.identity :=
    (List.map_map ..).trans rfl
  rw [Moves, hmap]
  refine ⟨fun heq => ?_, fun hnone => ?_⟩
  · have hlen := congrArg List.length heq
    rw [List.length_map, List.length_map] at hlen
    have hfilter := List.length_filter_eq_length_iff.mp hlen.symm
    exact fun c hc => by simpa using hfilter c hc
  · have hfilter : unmarked cls = cls := List.filter_eq_self.mpr fun c hc => by simpa using hnone c hc
    rw [hfilter]

end

-- ---------------------------------------------------------------------------
-- Kinds of clauses
-- ---------------------------------------------------------------------------

/-- `AbsPair(NULL)`. -/
def pairTag : Word := 2

/-- A clause for a constant, for lists or for a functor. -/
def IsIndexed (foundVar : Word) (c : ClauseDef) : Prop :=
  (isConst c.Tag = true ∧ c.Tag ≠ foundVar) ∨ c.Tag = pairTag ∨ (lowTagOf c.Tag = 4 ∧ repAppl c.Tag ≠ 0)

/-- A group after the marked clauses are removed and the others sorted. -/
structure Clean (foundVar : Word) (cls : List ClauseDef) : Prop where
  sorted : Sorted cls
  indexed : ∀ c ∈ cls, IsIndexed foundVar c

theorem isAtomOrIntTerm_eq (t : Word) : isAtomOrIntTerm t = (lowTagOf t == 1) := rfl

theorem isPairTerm_eq (t : Word) : isPairTerm t = (lowTagOf t &&& 2 != 0) := by
  have hbits : lowTagBits &&& 2 = (2 : Word) := by decide
  rw [isPairTerm, lowTagOf, BitVec.and_assoc, hbits]

theorem isConst_eq_false {t : Word} (h : lowTagOf t ≠ 1) : isConst t = false :=
  Bool.eq_false_of_not_eq_true fun hconst => h (lowTagOf_isConst hconst)

theorem isApplTerm_eq_false {t : Word} (h : ¬ 4 ≤ lowTagOf t) : isApplTerm t = false :=
  Bool.eq_false_of_not_eq_true fun happl => h (isApplTerm_iff.mp happl)

section

variable {foundVar : Word} {c : ClauseDef} {cls : List ClauseDef}

/-- A clause is for exactly one kind of arguments. -/
theorem IsIndexed.kinds (h : IsIndexed foundVar c) :
    (lowTagOf c.Tag = 1 ∧ isConst c.Tag = true ∧ isPairTerm c.Tag = false ∧ isApplTerm c.Tag = false) ∨
      (lowTagOf c.Tag = 2 ∧ isConst c.Tag = false ∧ isPairTerm c.Tag = true ∧ isApplTerm c.Tag = false) ∨
      (lowTagOf c.Tag = 4 ∧ isConst c.Tag = false ∧ isPairTerm c.Tag = false ∧ isApplTerm c.Tag = true) := by
  rcases h with ⟨hconst, -⟩ | hpair | ⟨happl, -⟩
  · have hlow := lowTagOf_isConst hconst
    refine .inl ⟨hlow, hconst, ?_, isApplTerm_eq_false ?_⟩
    · rw [isPairTerm_eq, hlow]
      decide
    · rw [hlow]
      decide
  · refine .inr (.inl ?_)
    rw [hpair]
    decide
  · refine .inr (.inr ⟨happl, isConst_eq_false ?_, ?_, isApplTerm_iff.mpr ?_⟩)
    · rw [happl]
      decide
    · rw [isPairTerm_eq, happl]
      decide
    · rw [happl]
      decide

theorem Clean.sublist (h : Clean foundVar cls) {cls' : List ClauseDef} (hsub : cls'.Sublist cls) : Clean foundVar cls' :=
  ⟨h.sorted.sublist hsub, fun c hc => h.indexed c (hsub.subset hc)⟩

theorem Clean.tail_le (h : Clean foundVar (c :: cls)) {c' : ClauseDef} (hc' : c' ∈ c :: cls) :
    lowTagOf c.Tag ≤ lowTagOf c'.Tag := lowTagOf_first h.sorted rfl hc'

theorem Clean.constGroup (h : Clean foundVar (c :: cls)) (hfound : isAtomTerm foundVar = true)
    (hc : isConst c.Tag = true) : ConstGroup foundVar (c :: cls) where
  sorted := h.sorted
  first := ⟨c, rfl, hc⟩
  terms c' hc' hlow := by
    rcases (h.indexed c' hc').kinds with hkind | hkind | hkind
    · exact hkind.2.1
    · exact absurd (hlow.symm.trans hkind.1) (by decide)
    · exact absurd (hlow.symm.trans hkind.1) (by decide)
  fresh c' hc' heq := by
    have hlow : lowTagOf c'.Tag = 1 := by
      rw [heq]
      exact lowTagOf_isConst (Bool.or_eq_true_iff.mpr (.inl hfound))
    rcases h.indexed c' hc' with ⟨-, hne⟩ | hpair | ⟨happl, -⟩
    · exact hne heq
    · rw [hpair] at hlow
      exact absurd hlow (by decide)
    · exact absurd (hlow.symm.trans happl) (by decide)

theorem Clean.funcGroup (h : Clean foundVar (c :: cls)) (hc : isApplTerm c.Tag = true) : FuncGroup (c :: cls) where
  sorted := h.sorted
  first := ⟨c, rfl, hc⟩
  functor c' hc' := by
    have hle := BitVec.le_trans (isApplTerm_iff.mp hc) (h.tail_le hc')
    rcases h.indexed c' hc' with ⟨hconst, -⟩ | hpair | ⟨-, hne⟩
    · rw [lowTagOf_isConst hconst] at hle
      exact absurd hle (by decide)
    · rw [hpair] at hle
      exact absurd hle (by decide)
    · exact hne

/-- Lists come before terms with functors. -/
theorem Clean.pairs_first (h : Clean foundVar (c :: cls)) (hc : isConst c.Tag = false) :
    (c :: cls).Pairwise fun a b => isPairTerm b.Tag = true → isPairTerm a.Tag = true := by
  refine List.pairwise_iff_forall_sublist.mpr fun {a b} hsub hb => ?_
  have ha : a ∈ c :: cls := hsub.subset List.mem_cons_self
  have hle := lowTagOf_le (List.pairwise_iff_forall_sublist.mp h.sorted hsub)
  rcases (h.indexed b (hsub.subset (by simp))).kinds with hkind | hkind | hkind
  · rw [hkind.2.2.1] at hb
    cases hb
  · rcases (h.indexed a ha).kinds with hkind' | hkind' | hkind'
    · have hge := h.tail_le ha
      rcases (h.indexed c List.mem_cons_self).kinds with hfirst | hfirst | hfirst
      · rw [hfirst.2.1] at hc
        cases hc
      · rw [hfirst.1, hkind'.1] at hge
        exact absurd hge (by decide)
      · rw [hfirst.1, hkind'.1] at hge
        exact absurd hge (by decide)
    · exact hkind'.2.2.1
    · rw [hkind'.1, hkind.1] at hle
      exact absurd hle (by decide)
  · rw [hkind.2.2.1] at hb
    cases hb

end

-- ---------------------------------------------------------------------------
-- Turns
-- ---------------------------------------------------------------------------

section

variable (label : List ClauseDef → Word) {foundVar : Word} (failCode nxtlbl : Word) (space : Cells)
  {c : ClauseDef} {cls : List ClauseDef} (ts : TypeSwitch)

/-- The clauses in front of the others. -/
theorem entryFor_filter (is : ClauseDef → Bool) (entry : SwitchEntry)
    (h : cls.Pairwise fun a b => is b = true → is a = true) :
    entryFor entry cls (cls.filter fun c => !is c) = ⟨entry, cls.filter is⟩ := by
  obtain ⟨htake, hdrop⟩ := takeWhile_eq_filter h
  have hsplit : cls = cls.filter is ++ cls.filter fun c => !is c := by
    rw [← htake, ← hdrop, List.takeWhile_append_dropWhile]
  have hlen : cls.length - (cls.filter fun c => !is c).length = (cls.filter is).length := by
    have hsum := congrArg List.length hsplit
    rw [List.length_append] at hsum
    omega
  have hfront : (cls.filter is ++ cls.filter fun c => !is c).take (cls.filter is).length = cls.filter is :=
    List.take_left
  rw [← hsplit] at hfront
  rw [entryFor, hlen, hfront]

/-- A turn at a constant makes the table for all of them. -/
theorem turn_const (h : Clean foundVar (c :: cls)) (hfound : isAtomTerm foundVar = true) (hc : isConst c.Tag = true) :
    (TableFits (keyCount isConst (c :: cls)) → ∃ entry,
        typeSwitchTurn label foundVar failCode nxtlbl space (c :: cls, ts) =
          .go ((c :: cls).filter fun c => !isConst c.Tag,
            { ts with ConstEntry := ⟨entry, (c :: cls).filter (isConst ·.Tag)⟩ })) ∧
      (¬ TableFits (keyCount isConst (c :: cls)) →
        typeSwitchTurn label foundVar failCode nxtlbl space (c :: cls, ts) = .exit none) := by
  have hgroup := h.constGroup hfound hc
  have hatomic : isAtomOrIntTerm c.Tag = true := by
    rw [isAtomOrIntTerm_eq, lowTagOf_isConst hc]
    rfl
  obtain ⟨hfits, hnot⟩ := doConsts_spec label failCode nxtlbl space hgroup
  refine ⟨fun hf => ?_, fun hf => ?_⟩
  · obtain ⟨sw, hmade, -⟩ := hfits hf
    refine ⟨.code sw, ?_⟩
    rw [← entryFor_filter (fun c => isConst c.Tag) (.code sw) hgroup.firsts, typeSwitchTurn]
    simp only [hatomic, if_true, hmade]
  · rw [typeSwitchTurn]
    simp only [hatomic, if_true, hnot hf]

theorem turn_func (h : Clean foundVar (c :: cls)) (hfound : isAtomTerm foundVar = true)
    (hc : isApplTerm c.Tag = true) :
    (TableFits (keyCount isApplTerm (c :: cls)) → ∃ entry,
        typeSwitchTurn label foundVar failCode nxtlbl space (c :: cls, ts) =
          .go ((c :: cls).filter fun c => !isApplTerm c.Tag,
            { ts with FuncEntry := ⟨entry, (c :: cls).filter (isApplTerm ·.Tag)⟩ })) ∧
      (¬ TableFits (keyCount isApplTerm (c :: cls)) →
        typeSwitchTurn label foundVar failCode nxtlbl space (c :: cls, ts) = .exit none) := by
  have hgroup := h.funcGroup hc
  have hatomic : isAtomOrIntTerm c.Tag = false := by
    rw [isAtomOrIntTerm_eq, beq_eq_false_iff_ne]
    intro hlow
    have hle := isApplTerm_iff.mp hc
    rw [hlow] at hle
    exact absurd hle (by decide)
  have hfirsts : (c :: cls).Pairwise fun a b => isApplTerm b.Tag = true → isApplTerm a.Tag = true :=
    List.pairwise_iff_forall_sublist.mpr fun hsub _ => hgroup.isApplTerm (hsub.subset List.mem_cons_self)
  obtain ⟨hfits, hnot⟩ := doFuncs_spec label failCode nxtlbl space hfound hgroup
  refine ⟨fun hf => ?_, fun hf => ?_⟩
  · obtain ⟨sw, hmade, -⟩ := hfits hf
    refine ⟨.code sw, ?_⟩
    rw [← entryFor_filter (fun c => isApplTerm c.Tag) (.code sw) hfirsts, typeSwitchTurn]
    simp only [hatomic, hc, if_true, Bool.false_eq_true, if_false, hmade]
  · rw [typeSwitchTurn]
    simp only [hatomic, hc, if_true, Bool.false_eq_true, if_false, hnot hf]

theorem turn_pair (h : Clean foundVar (c :: cls)) (hc : isPairTerm c.Tag = true) :
    ∃ entry, typeSwitchTurn label foundVar failCode nxtlbl space (c :: cls, ts) =
      .go ((c :: cls).filter fun c => !isPairTerm c.Tag,
        { ts with PairEntry := ⟨entry, (c :: cls).filter (isPairTerm ·.Tag)⟩ }) := by
  have hother : isConst c.Tag = false ∧ isApplTerm c.Tag = false ∧ isAtomOrIntTerm c.Tag = false := by
    rcases (h.indexed c List.mem_cons_self).kinds with hkind | hkind | hkind
    · rw [hkind.2.2.1] at hc
      cases hc
    · refine ⟨hkind.2.1, hkind.2.2.2, ?_⟩
      rw [isAtomOrIntTerm_eq, hkind.1]
      rfl
    · rw [hkind.2.2.1] at hc
      cases hc
  have hfirsts := h.pairs_first hother.1
  obtain ⟨-, hdrop⟩ := takeWhile_eq_filter hfirsts
  refine ⟨.label (label ((c :: cls).takeWhile (isPairTerm ·.Tag))), ?_⟩
  rw [← entryFor_filter (fun c => isPairTerm c.Tag) _ hfirsts, ← hdrop, typeSwitchTurn]
  simp only [hother.2.1, hother.2.2, Bool.false_eq_true, if_false]
  rfl

/-- A turn takes clauses, or finds no table. -/
theorem turn_cases (h : Clean foundVar (c :: cls)) (hfound : isAtomTerm foundVar = true) :
    typeSwitchTurn label foundVar failCode nxtlbl space (c :: cls, ts) = .exit none ∨
      ∃ rest ts', typeSwitchTurn label foundVar failCode nxtlbl space (c :: cls, ts) = .go (rest, ts') ∧
        rest.length < (c :: cls).length ∧ rest.Sublist (c :: cls) := by
  have hshorter : ∀ is : ClauseDef → Bool, is c = true →
      ((c :: cls).filter fun c => !is c).length < (c :: cls).length := by
    intro is hc
    rw [List.filter_cons_of_neg (by simp [hc]), List.length_cons]
    exact Nat.lt_succ_of_le (List.length_filter_le _ _)
  rcases (h.indexed c List.mem_cons_self).kinds with hkind | hkind | hkind
  · obtain ⟨hfits, hnot⟩ := turn_const label failCode nxtlbl space ts h hfound hkind.2.1
    by_cases hf : TableFits (keyCount isConst (c :: cls))
    · obtain ⟨entry, hturn⟩ := hfits hf
      exact .inr ⟨_, _, hturn, hshorter (isConst ·.Tag) hkind.2.1, List.filter_sublist⟩
    · exact .inl (hnot hf)
  · obtain ⟨entry, hturn⟩ := turn_pair label failCode nxtlbl space ts h hkind.2.2.1
    exact .inr ⟨_, _, hturn, hshorter (isPairTerm ·.Tag) hkind.2.2.1, List.filter_sublist⟩
  · obtain ⟨hfits, hnot⟩ := turn_func label failCode nxtlbl space ts h hfound hkind.2.2.2
    by_cases hf : TableFits (keyCount isApplTerm (c :: cls))
    · obtain ⟨entry, hturn⟩ := hfits hf
      exact .inr ⟨_, _, hturn, hshorter (isApplTerm ·.Tag) hkind.2.2.2, List.filter_sublist⟩
    · exact .inl (hnot hf)

/-- A marked clause in front stays there: the loop has no end. -/
theorem not_returns_of_mark (hc : c.Tag = varTest) (w : Option TypeSwitch) :
    ¬ Returns (typeSwitchTurn label foundVar failCode nxtlbl space) (c :: cls, ts) w := by
  have hturn : ∀ st, st.1 = c :: cls → ∃ ts',
      typeSwitchTurn label foundVar failCode nxtlbl space st = .go (c :: cls, ts') := by
    rintro ⟨_, ts⟩ rfl
    have hatomic : isAtomOrIntTerm c.Tag = false := by rw [hc]; decide
    have happl : isApplTerm c.Tag = false := by rw [hc]; decide
    have hpair : isPairTerm c.Tag = false := by rw [hc]; decide
    have hdrop : (c :: cls).dropWhile (isPairTerm ·.Tag) = c :: cls := List.dropWhile_cons_of_neg (by simp [hpair])
    refine ⟨{ ts with PairEntry := entryFor (doPair label (c :: cls)).1 (c :: cls) (c :: cls) }, ?_⟩
    rw [typeSwitchTurn]
    simp only [hatomic, happl, Bool.false_eq_true, if_false, doPair, hdrop]
  intro hreturns
  obtain ⟨st', hreach, hexit⟩ := hreturns.exists_exit
  have hcls : st'.1 = c :: cls := by
    refine invariant (P := fun st => st.1 = c :: cls) (fun st st' hst hgo => ?_) hreach rfl
    obtain ⟨ts', hgo'⟩ := hturn st hst
    rw [hgo'] at hgo
    exact (congrArg Prod.fst (Turn.go.inj hgo)).symm
  obtain ⟨ts', hgo⟩ := hturn st' hcls
  rw [hgo] at hexit
  cases hexit

/-- Every clause is in one entry, once. -/
def Assigned (cls : List ClauseDef) (ts : TypeSwitch) : Prop :=
  (ts.ConstEntry.clauses ++ (ts.PairEntry.clauses ++ ts.FuncEntry.clauses)).Perm cls

/-- The loop ends, every turn takes a clause at least, and all of them are assigned. -/
structure AssignsAll (foundVar : Word) (cls : List ClauseDef) : Prop where
  progress : ∀ st st', ReflTransGen (Goes (typeSwitchTurn label foundVar failCode nxtlbl space))
    (typeSwitchStart nxtlbl cls) st → Goes (typeSwitchTurn label foundVar failCode nxtlbl space) st st' →
      st'.1.length < st.1.length
  ends : ∃ ts, Returns (typeSwitchTurn label foundVar failCode nxtlbl space) (typeSwitchStart nxtlbl cls) (some ts) ∧
    Assigned cls ts

theorem progress_of_clean (h : Clean foundVar cls) (hfound : isAtomTerm foundVar = true) {st st' : SwitchState}
    (hreach : ReflTransGen (Goes (typeSwitchTurn label foundVar failCode nxtlbl space))
      (typeSwitchStart nxtlbl cls) st)
    (hgo : Goes (typeSwitchTurn label foundVar failCode nxtlbl space) st st') : st'.1.length < st.1.length := by
  have hstep : ∀ st st' : SwitchState, Clean foundVar st.1 →
      typeSwitchTurn label foundVar failCode nxtlbl space st = .go st' →
        Clean foundVar st'.1 ∧ st'.1.length < st.1.length := by
    rintro ⟨cls, ts⟩ st' hclean hturn
    cases cls with
    | nil => cases hturn
    | cons c cls =>
      rcases turn_cases label failCode nxtlbl space ts hclean hfound with hexit | ⟨rest, ts', hgo', hlt, hsub⟩
      · rw [hexit] at hturn
        cases hturn
      · rw [hgo'] at hturn
        obtain rfl := Turn.go.inj hturn
        exact ⟨hclean.sublist hsub, hlt⟩
  have hclean : Clean foundVar st.1 :=
    invariant (P := fun st => Clean foundVar st.1) (fun st st' hst hturn => (hstep st st' hst hturn).1) hreach h
  exact (hstep st st' hclean hgo).2

/-- Clauses of a kind at the beginning of a group are assigned in one turn. -/
theorem reaches_rest (foundVar : Word) (cls : List ClauseDef) (is : Word → Bool) (assign : TypeSwitch → SwitchEntry → List ClauseDef → TypeSwitch)
    (hfirst : ∀ c ∈ cls, is c.Tag = true → ∃ c ∈ cls.head?, is c.Tag = true)
    (hturn : ∀ c ∈ cls.head?, is c.Tag = true → ∃ entry,
      typeSwitchTurn label foundVar failCode nxtlbl space (cls, ts) =
        .go (cls.filter fun c => !is c.Tag, assign ts entry (cls.filter (is ·.Tag)))) :
    ∃ ts', ReflTransGen (Goes (typeSwitchTurn label foundVar failCode nxtlbl space)) (cls, ts)
        (cls.filter fun c => !is c.Tag, ts') ∧
      ((ts' = ts ∧ cls.filter (is ·.Tag) = []) ∨ ∃ entry, ts' = assign ts entry (cls.filter (is ·.Tag))) := by
  by_cases hex : ∃ c ∈ cls, is c.Tag = true
  · obtain ⟨c, hc, his⟩ := hex
    obtain ⟨first, hhead, his'⟩ := hfirst c hc his
    obtain ⟨entry, hgo⟩ := hturn first hhead his'
    exact ⟨_, .single hgo, .inr ⟨entry, rfl⟩⟩
  · push Not at hex
    have hall : (cls.filter fun c => !is c.Tag) = cls := List.filter_eq_self.mpr fun c hc => by simpa using hex c hc
    exact ⟨ts, by rw [hall], .inl ⟨rfl, List.filter_eq_nil_iff.mpr fun c hc => hex c hc⟩⟩

theorem head?_eq_some_cons (hc : c ∈ cls.head?) : ∃ cls', cls = c :: cls' := by
  cases cls with
  | nil => cases hc
  | cons c' cls' => exact ⟨cls', by rw [Option.some.inj hc]⟩

/-- The constants, and then the lists, are assigned. -/
theorem reaches_funcs (h : Clean foundVar cls) (hfound : isAtomTerm foundVar = true)
    (hfits : TableFits (keyCount isConst cls)) :
    ∃ ts, ReflTransGen (Goes (typeSwitchTurn label foundVar failCode nxtlbl space)) (typeSwitchStart nxtlbl cls)
        (cls.filter (isApplTerm ·.Tag), ts) ∧
      ts.ConstEntry.clauses = cls.filter (isConst ·.Tag) ∧ ts.PairEntry.clauses = cls.filter (isPairTerm ·.Tag) ∧
        ts.FuncEntry.clauses = [] := by
  obtain ⟨ts₁, hreach₁, hts₁⟩ := reaches_rest label failCode nxtlbl space (typeSwitchStart nxtlbl cls).2 foundVar cls
    isConst (fun ts entry cls => { ts with ConstEntry := ⟨entry, cls⟩ })
    (fun c hc his => by
      cases cls with
      | nil => exact absurd hc List.not_mem_nil
      | cons first cls =>
        refine ⟨first, rfl, ?_⟩
        have hle := h.tail_le hc
        rw [lowTagOf_isConst his] at hle
        rcases (h.indexed first List.mem_cons_self).kinds with hkind | hkind | hkind
        · exact hkind.2.1
        · rw [hkind.1] at hle
          exact absurd hle (by decide)
        · rw [hkind.1] at hle
          exact absurd hle (by decide))
    (fun c hc his => by
      obtain ⟨cls', heq⟩ := head?_eq_some_cons hc
      rw [heq] at h hfits ⊢
      exact (turn_const label failCode nxtlbl space _ h hfound his).1 hfits)
  have hrest := h.sublist (List.filter_sublist (p := fun c => !isConst c.Tag))
  have hnot : ∀ c ∈ cls.filter fun c => !isConst c.Tag, isConst c.Tag = false := fun c hc => by
    simpa using (List.mem_filter.mp hc).2
  obtain ⟨ts₂, hreach₂, hts₂⟩ := reaches_rest label failCode nxtlbl space ts₁ foundVar
    (cls.filter fun c => !isConst c.Tag) isPairTerm (fun ts entry cls => { ts with PairEntry := ⟨entry, cls⟩ })
    (fun c hc his => by
      generalize (cls.filter fun c => !isConst c.Tag) = rest at *
      cases rest with
      | nil => exact absurd hc List.not_mem_nil
      | cons first rest =>
        refine ⟨first, rfl, ?_⟩
        have hle := hrest.tail_le hc
        have hlow : lowTagOf c.Tag = 2 := by
          rcases (hrest.indexed c hc).kinds with hkind | hkind | hkind
          · rw [hkind.2.2.1] at his
            cases his
          · exact hkind.1
          · rw [hkind.2.2.1] at his
            cases his
        rw [hlow] at hle
        rcases (hrest.indexed first List.mem_cons_self).kinds with hkind | hkind | hkind
        · rw [hnot first List.mem_cons_self] at hkind
          cases hkind.2.1
        · exact hkind.2.2.1
        · rw [hkind.1] at hle
          exact absurd hle (by decide))
    (fun c hc his => by
      obtain ⟨cls', heq⟩ := head?_eq_some_cons hc
      rw [heq] at hrest ⊢
      exact turn_pair label failCode nxtlbl space _ hrest his)
  have hfuncs : ((cls.filter fun c => !isConst c.Tag).filter fun c => !isPairTerm c.Tag) =
      cls.filter (isApplTerm ·.Tag) := by
    rw [List.filter_filter]
    refine List.filter_congr fun c hc => ?_
    rcases (h.indexed c hc).kinds with hkind | hkind | hkind
    · simp [hkind.2.1, hkind.2.2.2]
    · simp [hkind.2.2.1, hkind.2.2.2]
    · simp [hkind.2.1, hkind.2.2.1, hkind.2.2.2]
  have hpairs : (cls.filter fun c => !isConst c.Tag).filter (isPairTerm ·.Tag) = cls.filter (isPairTerm ·.Tag) := by
    rw [List.filter_filter]
    refine List.filter_congr fun c hc => ?_
    rcases (h.indexed c hc).kinds with hkind | hkind | hkind
    · simp [hkind.2.2.1]
    · simp [hkind.2.1]
    · simp [hkind.2.2.1]
  have hentries₁ : ts₁.ConstEntry.clauses = cls.filter (isConst ·.Tag) ∧ ts₁.PairEntry.clauses = [] ∧
      ts₁.FuncEntry.clauses = [] := by
    rcases hts₁ with ⟨rfl, hnil⟩ | ⟨entry, rfl⟩
    · exact ⟨hnil.symm, rfl, rfl⟩
    · exact ⟨rfl, rfl, rfl⟩
  rw [hfuncs] at hreach₂
  refine ⟨ts₂, hreach₁.trans hreach₂, ?_⟩
  rw [← hpairs]
  rcases hts₂ with ⟨rfl, hnil⟩ | ⟨entry, rfl⟩
  · exact ⟨hentries₁.1, hentries₁.2.1.trans hnil.symm, hentries₁.2.2⟩
  · exact ⟨hentries₁.1, rfl, hentries₁.2.2⟩

theorem assignsAll_of_fits (h : Clean foundVar cls) (hfound : isAtomTerm foundVar = true)
    (hconsts : TableFits (keyCount isConst cls)) (hfuncs : TableFits (keyCount isApplTerm cls)) :
    AssignsAll label failCode nxtlbl space foundVar cls := by
  refine ⟨fun st st' hreach hgo => progress_of_clean label failCode nxtlbl space h hfound hreach hgo, ?_⟩
  obtain ⟨ts, hreach, hconst, hpair, hfunc⟩ := reaches_funcs label failCode nxtlbl space h hfound hconsts
  have hrest := h.sublist (List.filter_sublist (p := fun c => isApplTerm c.Tag))
  have hall : ∀ c ∈ cls.filter (isApplTerm ·.Tag), isApplTerm c.Tag = true := fun c hc => (List.mem_filter.mp hc).2
  have hself : (cls.filter (isApplTerm ·.Tag)).filter (isApplTerm ·.Tag) = cls.filter (isApplTerm ·.Tag) :=
    List.filter_eq_self.mpr hall
  have hnone : ((cls.filter (isApplTerm ·.Tag)).filter fun c => !isApplTerm c.Tag) = [] :=
    List.filter_eq_nil_iff.mpr fun c hc => by simp [hall c hc]
  obtain ⟨ts', hreach', hts'⟩ := reaches_rest label failCode nxtlbl space ts foundVar
    (cls.filter (isApplTerm ·.Tag)) isApplTerm (fun ts entry cls => { ts with FuncEntry := ⟨entry, cls⟩ })
    (fun c hc his => by
      generalize cls.filter (isApplTerm ·.Tag) = rest at *
      cases rest with
      | nil => exact absurd hc List.not_mem_nil
      | cons first rest => exact ⟨first, rfl, hall first List.mem_cons_self⟩)
    (fun c hc his => by
      have hcount : TableFits (keyCount isApplTerm (cls.filter (isApplTerm ·.Tag))) := by
        rw [keyCount, hself]
        exact hfuncs
      obtain ⟨cls', heq⟩ := head?_eq_some_cons hc
      rw [heq] at hrest hcount ⊢
      exact (turn_func label failCode nxtlbl space _ hrest hfound his).1 hcount)
  rw [hnone] at hreach'
  refine ⟨ts', (returns_reaches (hreach.trans hreach')).mpr (returns_of_exit rfl), ?_⟩
  have hentries : ts'.ConstEntry.clauses = cls.filter (isConst ·.Tag) ∧
      ts'.PairEntry.clauses = cls.filter (isPairTerm ·.Tag) ∧
        ts'.FuncEntry.clauses = cls.filter (isApplTerm ·.Tag) := by
    rcases hts' with ⟨rfl, hnil⟩ | ⟨entry, rfl⟩
    · rw [hself] at hnil
      exact ⟨hconst, hpair, hfunc.trans hnil.symm⟩
    · exact ⟨hconst, hpair, hself⟩
  have hothers : (cls.filter (isPairTerm ·.Tag) ++ cls.filter (isApplTerm ·.Tag)).Perm
      (cls.filter fun c => !isConst c.Tag) := by
    have hsplit := List.filter_append_perm (fun c => isPairTerm c.Tag) (cls.filter fun c => !isConst c.Tag)
    rw [List.filter_filter, List.filter_filter] at hsplit
    refine (List.Perm.of_eq ?_).trans hsplit
    congr 1
    · refine List.filter_congr fun c hc => ?_
      rcases (h.indexed c hc).kinds with hkind | hkind | hkind
      · simp [hkind.2.2.1]
      · simp [hkind.2.1]
      · simp [hkind.2.2.1]
    · refine List.filter_congr fun c hc => ?_
      rcases (h.indexed c hc).kinds with hkind | hkind | hkind
      · simp [hkind.2.1, hkind.2.2.2]
      · simp [hkind.2.2.1, hkind.2.2.2]
      · simp [hkind.2.1, hkind.2.2.1, hkind.2.2.2]
  rw [Assigned, hentries.1, hentries.2.1, hentries.2.2]
  exact (hothers.append_left _).trans (List.filter_append_perm (fun c => isConst c.Tag) cls)

/-- A group with a kind of keys has a clause of this kind. -/
theorem exists_of_not_fits {is : Word → Bool} (h : ¬ TableFits (keyCount is cls)) : ∃ c ∈ cls, is c.Tag = true := by
  by_contra hnone
  push Not at hnone
  refine h (.inl ?_)
  have hnil : cls.filter (is ·.Tag) = [] := List.filter_eq_nil_iff.mpr fun c hc => hnone c hc
  rw [keyCount, hnil]
  decide

theorem fits_of_assignsAll (h : Clean foundVar cls) (hfound : isAtomTerm foundVar = true)
    (hassigns : AssignsAll label failCode nxtlbl space foundVar cls) :
    TableFits (keyCount isConst cls) ∧ TableFits (keyCount isApplTerm cls) := by
  obtain ⟨ts, hreturns, -⟩ := hassigns.ends
  have hconsts : TableFits (keyCount isConst cls) := by
    by_contra hnot
    obtain ⟨c, hc, hconst⟩ := exists_of_not_fits hnot
    cases cls with
    | nil => exact absurd hc List.not_mem_nil
    | cons first cls =>
      have hfirst : isConst first.Tag = true := by
        have hle := h.tail_le hc
        rw [lowTagOf_isConst hconst] at hle
        rcases (h.indexed first List.mem_cons_self).kinds with hkind | hkind | hkind
        · exact hkind.2.1
        · rw [hkind.1] at hle
          exact absurd hle (by decide)
        · rw [hkind.1] at hle
          exact absurd hle (by decide)
      have hexit := (turn_const label failCode nxtlbl space (typeSwitchStart nxtlbl (first :: cls)).2 h hfound
        hfirst).2 hnot
      cases hreturns.unique (returns_of_exit hexit)
  refine ⟨hconsts, ?_⟩
  by_contra hnot
  obtain ⟨ts', hreach, -⟩ := reaches_funcs label failCode nxtlbl space h hfound hconsts
  have hrest := h.sublist (List.filter_sublist (p := fun c => isApplTerm c.Tag))
  have hself : (cls.filter (isApplTerm ·.Tag)).filter (isApplTerm ·.Tag) = cls.filter (isApplTerm ·.Tag) :=
    List.filter_eq_self.mpr fun c hc => (List.mem_filter.mp hc).2
  have hnot' : ¬ TableFits (keyCount isApplTerm (cls.filter (isApplTerm ·.Tag))) := by
    rw [keyCount, hself]
    exact hnot
  obtain ⟨c, hc, happl⟩ := exists_of_not_fits hnot'
  have hall : ∀ c ∈ cls.filter (isApplTerm ·.Tag), isApplTerm c.Tag = true := fun c hc => (List.mem_filter.mp hc).2
  have hreturns' := (returns_reaches hreach).mp hreturns
  generalize cls.filter (isApplTerm ·.Tag) = rest at *
  cases rest with
  | nil => exact absurd hc List.not_mem_nil
  | cons first rest =>
    have hexit := (turn_func label failCode nxtlbl space ts' hrest hfound
      (hall first List.mem_cons_self)).2 hnot'
    cases hreturns'.unique (returns_of_exit hexit)

end

-- ---------------------------------------------------------------------------
-- The whole generation
-- ---------------------------------------------------------------------------

theorem smallerOrEq_trans {t1 t2 t3 : Word} (h : smallerOrEq t1 t2 = true) (h' : smallerOrEq t2 t3 = true) :
    smallerOrEq t1 t3 = true := by
  rw [smallerOrEq_iff] at h h' ⊢
  rcases h with hlt | ⟨heq, hle⟩
  · rcases h' with hlt' | ⟨heq', -⟩
    · exact .inl (BitVec.lt_trans hlt hlt')
    · exact .inl (heq' ▸ hlt)
  · rcases h' with hlt' | ⟨heq', hle'⟩
    · exact .inl (heq.symm ▸ hlt')
    · exact .inr ⟨heq.trans heq', BitVec.le_trans hle hle'⟩

theorem smallerOrEq_total (t1 t2 : Word) : (smallerOrEq t1 t2 || smallerOrEq t2 t1) = true := by
  rw [Bool.or_eq_true, smallerOrEq_iff, smallerOrEq_iff]
  simp only [BitVec.lt_def, BitVec.le_def, ← BitVec.toNat_inj]
  omega

/-- Every list of clauses can be sorted. -/
theorem exists_sorted (cls : List ClauseDef) : ∃ sorted, sorted.Perm cls ∧ Sorted sorted := by
  have hsorted := @List.pairwise_mergeSort ClauseDef (fun c c' => smallerOrEq c.Tag c'.Tag)
    (fun _ _ _ => smallerOrEq_trans) (fun c c' => smallerOrEq_total c.Tag c'.Tag) cls
  exact ⟨_, List.mergeSort_perm _ _, hsorted⟩

/-- The clauses of a group for constants, lists and functors, and marked ones. -/
def MarkedGroup (foundVar : Word) (cls : List ClauseDef) : Prop :=
  ∀ c ∈ cls, IsIndexed foundVar c ∨ c.Tag = varTest

section

variable (label : List ClauseDef → Word) (failCode nxtlbl : Word) (space : Cells) (moveNext skipToArg : ClauseDef → Word)

/-- The marked clauses are removed and the others kept, and whatever order `sort_group` makes of
    them, the loop of `do_nonvar_group` assigns them all. -/
structure Generates (foundVar : Word) (compoundTerm : Bool) (cls : List ClauseDef) : Prop where
  purges : Purges cls
  moves : Moves moveNext skipToArg compoundTerm cls
  assigns : ∀ sorted, sorted.Perm (clsMove moveNext skipToArg compoundTerm cls) → Sorted sorted →
    AssignsAll label failCode nxtlbl space foundVar sorted

variable {foundVar : Word} {compoundTerm : Bool} {cls sorted : List ClauseDef}

/-- What `cls_move` leaves has the tags of the unmarked clauses. -/
theorem Moves.mem_tags_iff (h : Moves moveNext skipToArg compoundTerm cls)
    (hperm : sorted.Perm (clsMove moveNext skipToArg compoundTerm cls)) {t : Word} (ht : t ≠ varTest) :
    t ∈ sorted.map (·.Tag) ↔ t ∈ cls.map (·.Tag) := by
  have htags : (clsMove moveNext skipToArg compoundTerm cls).map (·.Tag) = (unmarked cls).map (·.Tag) := by
    have hfst := congrArg (List.map Prod.fst) h
    rwa [List.map_map, List.map_map] at hfst
  rw [(hperm.map _).mem_iff, htags]
  simp only [List.mem_map, unmarked, List.mem_filter]
  constructor
  · rintro ⟨c, ⟨hc, -⟩, rfl⟩
    exact ⟨c, hc, rfl⟩
  · rintro ⟨c, hc, rfl⟩
    exact ⟨c, ⟨hc, by simpa using ht⟩, rfl⟩

theorem Moves.clean (h : Moves moveNext skipToArg compoundTerm cls) (hgroup : MarkedGroup foundVar cls)
    (hperm : sorted.Perm (clsMove moveNext skipToArg compoundTerm cls)) (hsorted : Sorted sorted) :
    Clean foundVar sorted := by
  refine ⟨hsorted, fun c hc => ?_⟩
  have hid : c.identity ∈ (unmarked cls).map ClauseDef.identity :=
    h ▸ List.mem_map_of_mem (hperm.mem_iff.mp hc)
  obtain ⟨c', hc', heq⟩ := List.mem_map.mp hid
  obtain ⟨hmem, hne⟩ := List.mem_filter.mp hc'
  have htag : c'.Tag = c.Tag := congrArg Prod.fst heq
  have hindexed := (hgroup c' hmem).resolve_right (by simpa using hne)
  rw [IsIndexed] at hindexed ⊢
  rwa [← htag]

theorem Moves.keyCount_eq (h : Moves moveNext skipToArg compoundTerm cls)
    (hperm : sorted.Perm (clsMove moveNext skipToArg compoundTerm cls)) {is : Word → Bool} (his : is varTest = false) :
    keyCount is sorted = keyCount is cls := by
  have hmem : ∀ (l : List ClauseDef) t, t ∈ ((l.filter (is ·.Tag)).map (·.Tag)).toFinset ↔
      is t = true ∧ t ∈ l.map (·.Tag) := by
    intro l t
    simp only [List.mem_toFinset, List.mem_map, List.mem_filter]
    constructor
    · rintro ⟨c, ⟨hc, hct⟩, rfl⟩
      exact ⟨hct, c, hc, rfl⟩
    · rintro ⟨hct, c, hc, rfl⟩
      exact ⟨c, ⟨hc, hct⟩, rfl⟩
  rw [keyCount, keyCount]
  congr 1
  ext t
  rw [hmem, hmem]
  refine and_congr_right fun ht => h.mem_tags_iff moveNext skipToArg hperm ?_
  rintro rfl
  rw [his] at ht
  cases ht

/-- A mark that `cls_move` leaves makes the loop endless. -/
theorem endless_of_marked (hgroup : MarkedGroup foundVar (clsMove moveNext skipToArg compoundTerm cls))
    (hmark : ∃ c ∈ clsMove moveNext skipToArg compoundTerm cls, c.Tag = varTest)
    (hperm : sorted.Perm (clsMove moveNext skipToArg compoundTerm cls)) (hsorted : Sorted sorted)
    (w : Option TypeSwitch) :
    ¬ Returns (typeSwitchTurn label foundVar failCode nxtlbl space) (typeSwitchStart nxtlbl sorted) w := by
  obtain ⟨c, hc, hmark⟩ := hmark
  have hc' := hperm.mem_iff.mpr hc
  cases sorted with
  | nil => exact absurd hc' List.not_mem_nil
  | cons first sorted =>
    refine not_returns_of_mark label failCode nxtlbl space _ ?_ w
    have hle := lowTagOf_first hsorted rfl hc'
    rw [hmark] at hle
    rcases hgroup first (hperm.mem_iff.mp List.mem_cons_self) with hindexed | heq
    · rcases hindexed.kinds with hkind | hkind | hkind
      · rw [hkind.1] at hle
        exact absurd hle (by decide)
      · rw [hkind.1] at hle
        exact absurd hle (by decide)
      · rw [hkind.1] at hle
        exact absurd hle (by decide)
    · exact heq

end

/-- Four marked clauses between two constants. -/
def fourMarks : List ClauseDef :=
  [clauseFor (mkIntTerm 1), clauseFor varTest, clauseFor varTest, clauseFor varTest, clauseFor varTest,
    clauseFor (mkIntTerm 2)]

end Yap.Indexing
