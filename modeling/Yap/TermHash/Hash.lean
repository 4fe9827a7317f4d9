-- SUMMARY: The loop of `term_hash` copies plain terms, and identical plain terms have one hash.
import Yap.TermHash.Copies
import Yap.TermHash.Restore

/-!
# Hashes of identical terms

The loop appends what a plain term contributes and comes to the end of its cells, or
it is left at an unbound variable or for want of space.
-/

namespace Yap

open Relation

variable {hp : Heap} {s : Store} {depth : ℤ} {path as : List Addr} {a : Addr} {r : Option (List Word)}
  {cx : HashContext}

namespace HashState

-- ---------------------------------------------------------------------------
-- Frames
-- ---------------------------------------------------------------------------

variable (s) in
/-- The loop with these frames in a store, before it reads a cell. -/
def ofFrames (pt0 pt0End : Addr) (frames : List (Addr × Addr × ℤ)) (depth : ℤ) (scratch : ℕ → Word) (st : ℕ) :
    HashState where
  memory := s.marked (frames.map Prod.fst)
  pt0 := pt0
  pt0End := pt0End
  toVisit := frames.map fun fr => ⟨fr.1, fr.2.1, .cell (s.cell fr.1), fr.2.2⟩
  depth := depth
  scratch := scratch
  st := st
  d0 := none

/-- The loop comes from one state to another. -/
abbrev Reaches (cx : HashContext) : HashState → HashState → Prop := ReflTransGen (Machine.Goes (turn cx))

/-- The loop is left with a result. -/
def Leaves (cx : HashContext) (P : HashExit → Prop) (st : HashState) : Prop :=
  ∃ e m, Machine.Returns (turn cx) st (e, m) ∧ P e

/-- The loop is left for want of space, and has no more than this. -/
def Overflows (cx : HashContext) (room : ℕ) (st : HashState) : Prop :=
  st.Leaves cx HashExit.IsOverflow ∧ (cx.asp ≤ st.st + room ∨ cx.auxSp ≤ st.toVisit.length + room)

variable {st st' : HashState} {pt0 pt0End : Addr} {frames : List (Addr × Addr × ℤ)} {scratch : ℕ → Word} {n : ℕ}

theorem Leaves.of_reaches {P : HashExit → Prop} (h : st'.Leaves cx P)
    (hreach : Reaches cx st st') : st.Leaves cx P := by
  obtain ⟨e, m, hret, he⟩ := h
  exact ⟨e, m, (Machine.returns_reaches hreach).mpr hret, he⟩

theorem Overflows.of_reaches {room room' : ℕ} (k : ℕ) (h : st'.Overflows cx room)
    (hreach : Reaches cx st st') (hst : st'.st ≤ st.st + k)
    (hlen : st'.toVisit.length ≤ st.toVisit.length + k) (hroom : room + k ≤ room') : st.Overflows cx room' := by
  refine ⟨h.1.of_reaches hreach, h.2.imp (fun hasp => ?_) fun haux => ?_⟩ <;> omega

/-- The loop at a word, with the cell it has been read from. -/
def reading (st : HashState) (w : Addr × MarkedCell) : HashState := { st with d0 := some w }

theorem reaches_follows {w w' : Addr × MarkedCell} (h : ReflTransGen (Follows st.memory) w w') :
    Reaches cx (st.reading w) (st.reading w') := by
  refine h.lift (fun w => st.reading w) fun _ _ hstep => ?_
  cases hstep with
  | ref hne => exact if_neg hne

variable (cx depth scratch n) in
/-- The loop reads the next cell and follows its references. -/
theorem reaches_read (hlt : pt0 < pt0End) {c : Cell} (hderef : s.derefMarked (frames.map Prod.fst) pt0 = some c) :
    ∃ b, (∀ v, c = .ref v → v = b) ∧ Reaches cx (ofFrames s pt0 pt0End frames depth scratch n)
      ((ofFrames s pt0 pt0End frames depth scratch n).reading (b, .cell c)) := by
  obtain ⟨b, hfollows, hb⟩ := exists_follows s (frames.map Prod.fst) pt0
  rw [hderef] at hb
  have hread : Machine.Goes (turn cx) (ofFrames s pt0 pt0End frames depth scratch n)
      ((ofFrames s pt0 pt0End frames depth scratch n).reading (pt0, s.marked (frames.map Prod.fst) pt0)) :=
    if_pos hlt
  have hreach := ReflTransGen.head hread (reaches_follows hfollows)
  cases c with
  | ref v =>
    obtain ⟨hcell, rfl⟩ := hb
    exact ⟨v, fun _ heq => (Cell.ref.inj heq).symm, hcell ▸ hreach⟩
  | nonvar d =>
    rw [hb] at hreach
    exact ⟨b, fun _ heq => (by cases heq), hreach⟩

theorem leaves_unbound (hvariant : cx.variant = false) (hlt : pt0 < pt0End) {v : Addr}
    (hderef : s.derefMarked (frames.map Prod.fst) pt0 = some (.ref v)) :
    (ofFrames s pt0 pt0End frames depth scratch n).Leaves cx (· = .unbound) := by
  obtain ⟨b, hb, hreach⟩ := reaches_read depth cx scratch n hlt hderef
  obtain rfl := hb v rfl
  have hexit : ((ofFrames s pt0 pt0End frames depth scratch n).reading (v, .cell (.ref v))).turn cx =
      .exit (.unbound, s.marked (frames.map Prod.fst)) := by
    rw [turn, reading]
    simp only [if_true, hvariant, Bool.false_eq_true, if_false]
    rfl
  exact Leaves.of_reaches ⟨_, _, Machine.returns_of_exit hexit, rfl⟩ hreach

theorem ofFrames_descend (h : pt0 ∉ frames.map Prod.fst) (w : Addr × MarkedCell) (l k : ℕ) :
    ((ofFrames s pt0 pt0End frames depth scratch n).reading w).descend l k =
      ofFrames s l (l + k) ((pt0, pt0End, depth) :: frames) (depth - 1) scratch n := by
  simp only [descend, reading, ofFrames, Store.update_marked, Store.marked_of_notMem h, List.map_cons]

theorem goes_ret {p e : Addr} {depth' : ℤ} (h : pt0 ∉ frames.map Prod.fst) (hp : ¬ p < e) :
    Machine.Goes (turn cx) (ofFrames s p e ((pt0, pt0End, depth) :: frames) depth' scratch n)
      (ofFrames s (pt0 + 1) pt0End frames depth scratch n) := by
  rw [Machine.Goes, turn]
  simp only [ofFrames, if_neg hp, List.map_cons, ret, Store.update_marked_cons h]

theorem turn_end {p e : Addr} (hp : ¬ p < e) :
    (ofFrames s p e [] depth scratch n).turn cx = .exit (.done scratch n, s.marked []) := by
  rw [turn]
  simp only [ofFrames, if_neg hp, List.map_nil]

-- ---------------------------------------------------------------------------
-- Words
-- ---------------------------------------------------------------------------

/-- A word that contributes words of its own appends them. Then the loop goes on, or to
    the arguments, for which there may be no frame. -/
inductive HeadingStep (cx : HashContext) (st : HashState) (d : Nonvar) (ws : List Word) :
    Turn HashState (HashExit × (Addr → MarkedCell)) → Prop
  | next : d.copied cx.heap st.depth = [] → HeadingStep cx st d ws (.go (st.put ws).next)
  | overflow (m : Addr → MarkedCell) : cx.auxSp ≤ st.toVisit.length + 1024 →
      HeadingStep cx st d ws (.exit (.auxOverflow, m))
  | descend {l : Addr} {k : ℕ} : st.depth ≠ 1 → d.block cx.heap = (l, k) →
      HeadingStep cx st d ws (.go ((st.put ws).descend l k))

theorem headingStep_visit {d : Nonvar} {ws : List Word} {margin l k : ℕ} (hmargin : margin ≤ 1024)
    (hblock : d.block cx.heap = (l, k)) : HeadingStep cx st d ws ((st.put ws).visit cx margin l k) := by
  unfold visit
  split
  case isTrue hdepth => exact .next (if_pos hdepth)
  case isFalse hdepth =>
    split
    case isTrue haux => exact .overflow _ (haux.trans (Nat.add_le_add_left hmargin _))
    case isFalse => exact .descend hdepth hblock

theorem headingStep_atomic {d : Nonvar} {ws : List Word} (hcells : d.cells cx.heap = []) :
    HeadingStep cx st d ws (.go (st.put ws).next) := by
  refine .next ?_
  rw [Nonvar.copied, hcells]
  exact ite_self _

variable (st) in
theorem headingStep_word {d : Nonvar} {ws : List Word} (h : d.heading cx.heap = some ws) :
    HeadingStep cx st d ws (st.word cx d) := by
  cases d with
  | int m =>
    obtain rfl := Option.some.inj h
    exact headingStep_atomic rfl
  | atom a =>
    obtain rfl := Option.some.inj h
    exact headingStep_atomic rfl
  | pair p =>
    obtain rfl := Option.some.inj h
    exact headingStep_visit (by decide) rfl
  | appl p =>
    rw [Nonvar.heading] at h
    rw [word]
    cases hf : cx.heap.functorAt p with
    | functor f =>
      rw [hf] at h
      obtain rfl := Option.some.inj h
      refine headingStep_visit le_rfl ?_
      rw [Nonvar.block, hf]
    | blob b =>
      rw [hf] at h
      have hcells := Nonvar.cells_blob hf
      cases b with
      | dbRef =>
        obtain rfl := Option.some.inj h
        exact headingStep_atomic hcells
      | longInt m =>
        obtain rfl := Option.some.inj h
        exact headingStep_atomic hcells
      | double x =>
        obtain rfl := Option.some.inj h
        exact headingStep_atomic hcells
      | string _ => cases h
      | bigInt _ => cases h

variable (depth scratch n) in
/-- The loop has copied a word and is at the next cell or at the arguments, or it is
    left for want of space. -/
theorem reaches_heading (hlt : pt0 < pt0End) {d : Nonvar} {ws : List Word}
    (hderef : s.derefMarked (frames.map Prod.fst) pt0 = some (.nonvar d)) (hheading : d.heading cx.heap = some ws) :
    (d.copied cx.heap depth = [] ∧ Reaches cx (ofFrames s pt0 pt0End frames depth scratch n)
      (ofFrames s (pt0 + 1) pt0End frames depth (writeWords scratch n ws) (n + ws.length))) ∨
    (depth ≠ 1 ∧ Reaches cx (ofFrames s pt0 pt0End frames depth scratch n)
      (ofFrames s (d.block cx.heap).1 ((d.block cx.heap).1 + (d.block cx.heap).2)
        ((pt0, pt0End, depth) :: frames) (depth - 1)
        (writeWords scratch n ws) (n + ws.length))) ∨
    (ofFrames s pt0 pt0End frames depth scratch n).Overflows cx 1024 := by
  obtain ⟨b, -, hreach⟩ := reaches_read depth cx scratch n hlt hderef
  have hturn : ((ofFrames s pt0 pt0End frames depth scratch n).reading (b, .cell (.nonvar d))).turn cx =
      if cx.asp ≤ n + 1024 then .exit (.globalOverflow, (ofFrames s pt0 pt0End frames depth scratch n).unwind)
      else ((ofFrames s pt0 pt0End frames depth scratch n).reading (b, .cell (.nonvar d))).word cx d := rfl
  by_cases hasp : cx.asp ≤ n + 1024
  · rw [if_pos hasp] at hturn
    exact .inr (.inr ⟨.of_reaches ⟨_, _, Machine.returns_of_exit hturn, trivial⟩ hreach, .inl hasp⟩)
  · rw [if_neg hasp] at hturn
    have hstep := headingStep_word ((ofFrames s pt0 pt0End frames depth scratch n).reading (b, .cell (.nonvar d))) hheading
    rw [← hturn] at hstep
    generalize hgo : ((ofFrames s pt0 pt0End frames depth scratch n).reading (b, .cell (.nonvar d))).turn cx = t at hstep
    cases hstep with
    | next hcopied => exact .inl ⟨hcopied, hreach.tail hgo⟩
    | overflow m haux =>
      exact .inr (.inr ⟨.of_reaches ⟨_, _, Machine.returns_of_exit hgo, trivial⟩ hreach, .inr haux⟩)
    | descend hdepth hblock =>
      refine .inr (.inl ⟨hdepth, hreach.tail (hgo.trans (congrArg _ ?_))⟩)
      rw [hblock]
      exact ofFrames_descend (Store.notMem_of_derefMarked hderef) _ _ _

-- ---------------------------------------------------------------------------
-- Runs
-- ---------------------------------------------------------------------------

/-- The loop copies what the cells contribute and comes to their end, is left at an
    unbound variable, or is left for want of space. -/
def CopiesCells (cx : HashContext) (s : Store) (depth : ℤ) (path as : List Addr) (r : Option (List Word))
    (room : ℕ) : Prop :=
  ∀ (pt0 pt0End : Addr) (frames : List (Addr × Addr × ℤ)) (scratch : ℕ → Word) (n : ℕ), path = frames.map Prod.fst →
    as = remaining pt0 pt0End →
    (∃ ws p, r = some ws ∧ ¬ p < pt0End ∧ Reaches cx (ofFrames s pt0 pt0End frames depth scratch n)
      (ofFrames s p pt0End frames depth (writeWords scratch n ws) (n + ws.length))) ∨
    (r = none ∧ (ofFrames s pt0 pt0End frames depth scratch n).Leaves cx (· = .unbound)) ∨
    (ofFrames s pt0 pt0End frames depth scratch n).Overflows cx room

/-- Cells after one that has been copied. -/
theorem CopiesCells.after {room room' : ℕ} (h : CopiesCells cx s depth path as r room)
    (hpath : path = frames.map Prod.fst) {p : Addr} (has : as = remaining p pt0End) {ws : List Word}
    (hreach : Reaches cx (ofFrames s pt0 pt0End frames depth scratch n)
      (ofFrames s p pt0End frames depth (writeWords scratch n ws) (n + ws.length))) (hroom : room + ws.length ≤ room') :
    (∃ ws' p, r.map (ws ++ ·) = some ws' ∧ ¬ p < pt0End ∧
      Reaches cx (ofFrames s pt0 pt0End frames depth scratch n)
        (ofFrames s p pt0End frames depth (writeWords scratch n ws') (n + ws'.length))) ∨
    (r.map (ws ++ ·) = none ∧ (ofFrames s pt0 pt0End frames depth scratch n).Leaves cx (· = .unbound)) ∨
    (ofFrames s pt0 pt0End frames depth scratch n).Overflows cx room' := by
  rcases h p pt0End frames (writeWords scratch n ws) (n + ws.length) hpath has with
    ⟨ws', q, rfl, hq, hreach'⟩ | ⟨rfl, hleaves⟩ | hover
  · refine .inl ⟨ws ++ ws', q, rfl, hq, hreach.trans ?_⟩
    rwa [writeWords_append, Nat.add_assoc, ← List.length_append] at hreach'
  · exact .inr (.inl ⟨rfl, hleaves.of_reaches hreach⟩)
  · exact .inr (.inr (hover.of_reaches ws.length hreach le_rfl (Nat.le_add_right ..) hroom))

theorem copiesCells (h : Copies hp s depth path as r) :
    ∃ room, ∀ cx : HashContext, cx.heap = hp → cx.variant = false → CopiesCells cx s depth path as r room := by
  induction h with
  | nil =>
    refine ⟨0, fun cx _ _ pt0 pt0End frames scratch n _ has => .inl ⟨[], pt0, rfl, fun hlt => ?_, ?_⟩⟩
    · rw [remaining_of_lt hlt] at has
      cases has
    · rw [writeWords_nil]
      exact .refl
  | unbound hderef =>
    refine ⟨0, fun cx _ hvariant pt0 pt0End frames scratch n hpath has => .inr (.inl ⟨rfl, ?_⟩)⟩
    obtain ⟨hlt, rfl, -⟩ := remaining_eq_cons has.symm
    exact leaves_unbound hvariant hlt (hpath ▸ hderef)
  | @word depth path as a d ws r r' hderef hheading hargs _ ihargs ih =>
    obtain ⟨room, hcells⟩ := ihargs
    obtain ⟨room', hrest⟩ := ih
    refine ⟨room + room' + ws.length + (r.getD []).length + 1024,
      fun cx hheap hvariant pt0 pt0End frames scratch n hpath has => ?_⟩
    subst hheap
    obtain ⟨hlt, rfl, hnext⟩ := remaining_eq_cons has.symm
    rcases reaches_heading depth scratch n hlt (hpath ▸ hderef) hheading with
      ⟨hcopied, hreach⟩ | ⟨hdepth, hreach⟩ | hover
    · rw [hcopied] at hargs
      cases hargs
      rw [← List.append_nil ws] at hreach
      exact (hrest cx rfl hvariant).after hpath hnext hreach (by simp; omega)
    · rw [Nonvar.copied_of_ne hdepth] at hargs hcells
      have hnotMem : a ∉ frames.map Prod.fst := hpath ▸ Store.notMem_of_derefMarked hderef
      rcases hcells cx rfl hvariant _ _ ((a, pt0End, depth) :: frames) (writeWords scratch n ws) (n + ws.length)
          (congrArg _ hpath) (remaining_block rfl).symm with ⟨args, p, rfl, hp, hreach'⟩ | ⟨rfl, hleaves⟩ | hover
      · rw [writeWords_append, Nat.add_assoc, ← List.length_append] at hreach'
        have hback := (hreach.trans hreach').tail (goes_ret hnotMem hp)
        exact (hrest cx rfl hvariant).after hpath hnext hback (by simp; omega)
      · exact .inr (.inl ⟨rfl, hleaves.of_reaches hreach⟩)
      · exact .inr (.inr (hover.of_reaches (ws.length + 1) hreach (Nat.add_le_add_left (Nat.le_succ _) _)
          (by simp [ofFrames]) (by omega)))
    · exact .inr (.inr (hover.of_reaches 0 .refl (Nat.le_refl _) (Nat.le_refl _) (by omega)))

end HashState

-- ---------------------------------------------------------------------------
-- Calls
-- ---------------------------------------------------------------------------

/-- The hash of words. -/
def hashWords (ws : List Word) : BitVec 32 :=
  murmurHashNeutral2 (ws.flatMap wordBytes) (BitVec.ofNat 32 (8 * ws.length)) 0x1a3be34a

/-- The answer when the loop has copied these words, or has come to an unbound variable. -/
def copyAnswer (size : ℤ) : Option (List Word) → HashAnswer
  | some ws => .unify (((hashWords ws).toNat : ℤ).tmod size)
  | none => .fail

theorem hashScratch_writeWords (scratch : ℕ → Word) (ws : List Word) :
    hashScratch (writeWords scratch 0 ws) ws.length = hashWords ws := by
  rw [hashScratch, map_writeWords, hashWords]

namespace HashAttempt

/-- The attempt with this space. -/
def withSpace (w : HashAttempt) (asp auxSp : ℕ) : HashAttempt :=
  { w with context := { w.context with asp := asp, auxSp := auxSp } }

def Plain (w : HashAttempt) (depth : ℤ) : Prop := Yap.Plain w.context.heap w.store depth [] w.root

def Copies (w : HashAttempt) (depth : ℤ) (r : Option (List Word)) : Prop :=
  Yap.Copies w.context.heap w.store depth [] [w.root] r

/-- The terms of two attempts are identical, up to the names of variables. -/
def Identical (w v : HashAttempt) : Prop := Yap.Identical w.context.heap w.store v.context.heap v.store w.root v.root

variable {w v : HashAttempt}

/-- A call copies the term, stops at an unbound variable, or has not enough space. -/
theorem exists_returns (h : w.Copies depth r) : ∃ room, ∀ asp auxSp,
    (∃ ws m, r = some ws ∧ (w.withSpace asp auxSp).Returns depth (.done (writeWords w.scratch 0 ws) ws.length, m)) ∨
    (r = none ∧ ∃ m, (w.withSpace asp auxSp).Returns depth (.unbound, m)) ∨
    ((asp ≤ room ∨ auxSp ≤ room) ∧ ∃ e m, (w.withSpace asp auxSp).Returns depth (e, m) ∧ e.IsOverflow) := by
  obtain ⟨room, hcells⟩ := HashState.copiesCells h
  refine ⟨room, fun asp auxSp => ?_⟩
  have hinit : HashState.init w.store.unmarked w.root 1 depth w.scratch =
      HashState.ofFrames w.store w.root (w.root + 1) [] depth w.scratch 0 := rfl
  rw [Returns, hashComplexTerm, withSpace]
  dsimp only
  rw [hinit]
  rcases hcells { w.context with asp := asp, auxSp := auxSp, variant := false } rfl rfl w.root (w.root + 1) []
      w.scratch 0 rfl
      (remaining_one _).symm with ⟨ws, p, rfl, hp, hreach⟩ | ⟨rfl, e, m, hret, rfl⟩ | ⟨⟨e, m, hret, he⟩, hroom⟩
  · refine .inl ⟨ws, w.store.marked [], rfl, ?_⟩
    rw [Nat.zero_add] at hreach
    exact (Machine.returns_reaches hreach).mpr (Machine.returns_of_exit (HashState.turn_end hp))
  · exact .inr (.inl ⟨rfl, m, hret⟩)
  · refine .inr (.inr ⟨?_, e, m, hret, he⟩)
    simpa [HashState.ofFrames] using hroom

theorem exit_of_copies (h : w.Copies depth r) {e : HashExit} {m : Addr → MarkedCell} (hret : w.Returns depth (e, m)) :
    e.IsOverflow ∨ (∃ ws, r = some ws ∧ e = .done (writeWords w.scratch 0 ws) ws.length) ∨ r = none ∧ e = .unbound := by
  obtain ⟨room, hroom⟩ := exists_returns h
  rcases hroom w.context.asp w.context.auxSp with ⟨ws, m', hr, hret'⟩ | ⟨hr, m', hret'⟩ | ⟨-, e', m', hret', he⟩
  · exact .inr (.inl ⟨ws, hr, (Prod.mk.inj (hret.unique hret')).1⟩)
  · exact .inr (.inr ⟨hr, (Prod.mk.inj (hret.unique hret')).1⟩)
  · exact .inl ((Prod.mk.inj (hret.unique hret')).1 ▸ he)

/-- Identical plain terms are copied alike. -/
theorem Identical.copies (h : w.Identical v) (hw : w.Copies depth r) (hv : v.Plain depth) : v.Copies depth r := by
  obtain ⟨r', hr'⟩ := Plain.exists_copies hv
  obtain ⟨rel, hroot, hrel⟩ := h
  rwa [hw.eq_of_agree hrel hr' (.cons hroot .nil)]

end HashAttempt

/-- All calls give one answer, unless there is no more space. -/
theorem TermHashLoop.eq_copyAnswer {size : ℤ} {ws : List HashAttempt} {answer : HashAnswer}
    (h : TermHashLoop depth size ws answer) (hws : ∀ w ∈ ws, w.Copies depth r) :
    answer = .resourceError ∨ answer = copyAnswer size r := by
  induction h with
  | hashed hret =>
    rcases HashAttempt.exit_of_copies (hws _ (List.mem_cons_self ..)) hret with hover | ⟨words, rfl, hdone⟩ | ⟨-, hunbound⟩
    · cases hover
    · obtain ⟨rfl, rfl⟩ := HashExit.done.inj hdone
      rw [hashScratch_writeWords]
      exact .inr rfl
    · cases hunbound
  | unbound hret =>
    rcases HashAttempt.exit_of_copies (hws _ (List.mem_cons_self ..)) hret with hover | ⟨words, rfl, hdone⟩ | ⟨rfl, -⟩
    · cases hover
    · cases hdone
    · exact .inr rfl
  | again _ _ _ ih => exact ih fun w hw => hws w (List.mem_cons_of_mem _ hw)
  | exhausted => exact .inl rfl

theorem TermHashLoop.range {size : ℤ} (hsize : 0 < size) {ws : List HashAttempt} {n : ℤ}
    (h : TermHashLoop depth size ws (.unify n)) : 0 ≤ n ∧ n < size := by
  generalize ha : HashAnswer.unify n = answer at h
  induction h with
  | hashed _ =>
    obtain rfl := HashAnswer.unify.inj ha
    exact ⟨Int.tmod_nonneg _ (Int.natCast_nonneg _), Int.tmod_lt_of_pos _ hsize⟩
  | unbound => cases ha
  | again _ _ _ ih => exact ih ha
  | exhausted => cases ha

-- ---------------------------------------------------------------------------
-- Identical terms
-- ---------------------------------------------------------------------------

/-- Two calls for one term give one hash, which is below the size; a call ends with an
    answer if there is enough space, and gives no hash of a term with unbound variables. -/
structure TermHashCorrect (depth size : ℤ) (t2 t3 : Cell) (w : HashAttempt) (ws : List HashAttempt) (u2 u3 : Cell)
    (v : HashAttempt) (vs : List HashAttempt) : Prop where
  same : ∀ answer answer', PTermHash t2 t3 w ws answer → PTermHash u2 u3 v vs answer' →
    answer = .resourceError ∨ answer' = .resourceError ∨ answer = answer'
  answered : ∃ room, ∀ asp > room, ∀ auxSp > room, ∃ answer ≠ .resourceError,
    PTermHash t2 t3 (w.withSpace asp auxSp) [] answer
  range : ∀ n, PTermHash t2 t3 w ws (.unify n) → 0 ≤ n ∧ n < size
  not_open : Open w.context.heap w.store depth w.root → ∀ n, ¬ PTermHash t2 t3 w ws (.unify n)

section

variable {size : ℤ} {t2 t3 u2 u3 : Cell} {w v : HashAttempt} {ws vs : List HashAttempt} {answer : HashAnswer}

theorem PTermHash.depth_zero (h : PTermHash t2 t3 w ws answer) (h2 : w.integerArgument t2 = .ok 0) :
    (∃ u, w.store.deref (.ref w.root) = .ref u ∧ answer = .succeed) ∨
      ∃ d, w.store.deref (.ref w.root) = .nonvar d ∧ answer = .unify 0 := by
  cases h with
  | depthError herr => cases h2.symm.trans herr
  | depthZeroVar _ hvar => exact .inl ⟨_, hvar, rfl⟩
  | depthZero _ hd => exact .inr ⟨_, hd, rfl⟩
  | sizeError hdepth hne _ => exact absurd (Except.ok.inj (hdepth.symm.trans h2)) hne
  | hash hdepth hne _ _ => exact absurd (Except.ok.inj (hdepth.symm.trans h2)) hne

theorem PTermHash.loop (h : PTermHash t2 t3 w ws answer) (h2 : w.integerArgument t2 = .ok depth) (hdepth : depth ≠ 0)
    (h3 : w.integerArgument t3 = .ok size) : TermHashLoop depth size (w :: ws) answer := by
  cases h with
  | depthError herr => cases h2.symm.trans herr
  | depthZeroVar hzero _ => exact absurd (Except.ok.inj (h2.symm.trans hzero)) hdepth
  | depthZero hzero _ => exact absurd (Except.ok.inj (h2.symm.trans hzero)) hdepth
  | sizeError _ _ herr => cases h3.symm.trans herr
  | hash hdepth' _ hsize hloop =>
    obtain rfl := Except.ok.inj (h2.symm.trans hdepth')
    obtain rfl := Except.ok.inj (h3.symm.trans hsize)
    exact hloop

theorem PTermHash.range (h2 : w.integerArgument t2 = .ok depth) (h3 : w.integerArgument t3 = .ok size) (hsize : 0 < size)
    {n : ℤ} (h : PTermHash t2 t3 w ws (.unify n)) : 0 ≤ n ∧ n < size := by
  by_cases hdepth : depth = 0
  · subst hdepth
    rcases h.depth_zero h2 with ⟨u, -, hanswer⟩ | ⟨d, -, hanswer⟩
    · cases hanswer
    · obtain rfl := HashAnswer.unify.inj hanswer
      exact ⟨le_rfl, hsize⟩
  · exact (h.loop h2 hdepth h3).range hsize

theorem PTermHash.answered (h2 : w.integerArgument t2 = .ok depth) (h3 : w.integerArgument t3 = .ok size)
    (hplain : depth ≠ 0 → w.Plain depth) : ∃ room, ∀ asp > room, ∀ auxSp > room, ∃ answer ≠ .resourceError,
      PTermHash t2 t3 (w.withSpace asp auxSp) [] answer := by
  by_cases hdepth : depth = 0
  · subst hdepth
    refine ⟨0, fun asp _ auxSp _ => ?_⟩
    cases hroot : w.store.deref (.ref w.root) with
    | ref u => exact ⟨.succeed, fun h => (by cases h), .depthZeroVar h2 hroot⟩
    | nonvar d => exact ⟨.unify 0, fun h => (by cases h), .depthZero h2 hroot⟩
  · obtain ⟨r, hr⟩ := Plain.exists_copies (hplain hdepth)
    obtain ⟨room, hroom⟩ := HashAttempt.exists_returns hr
    refine ⟨room, fun asp hasp auxSp haux => ?_⟩
    rcases hroom asp auxSp with ⟨words, m, -, hret⟩ | ⟨-, m, hret⟩ | ⟨hle, -⟩
    · exact ⟨_, fun h => (by cases h), .hash h2 hdepth h3 (.hashed hret)⟩
    · exact ⟨_, fun h => (by cases h), .hash h2 hdepth h3 (.unbound hret)⟩
    · omega

end

/-- `f(7)` at two places: its words at 0 and 10, its functors at 1 and 20. -/
def twoCopies : Addr → Option Nonvar
  | 0 => some (.appl 1)
  | 2 => some (.int 7)
  | 10 => some (.appl 20)
  | 21 => some (.int 7)
  | _ => none

/-- A call for the term at an address, with this number in the scratch cells. -/
def copyAt (root : Addr) (stale : Word) : HashAttempt :=
  ⟨⟨unaryHeap, fun _ => 0, 4096, 4096, false⟩, .ofWords twoCopies, root, fun _ => stale⟩

theorem plain_copyAt {root p : Addr} (stale : Word) (hroot : twoCopies root = some (.appl p))
    (harg : twoCopies (p + 1) = some (.int 7)) (hne : p + 1 ≠ root) : (copyAt root stale).Plain (-1) := by
  have hcell : ∀ {a d}, twoCopies a = some d → (Store.ofWords twoCopies).cell a = .nonvar d := fun h =>
    congrArg (Option.elim · _ _) h
  refine .word (Store.derefMarked_nonvar List.not_mem_nil (hcell hroot)) rfl fun _ b hb => ?_
  obtain rfl : b = p + 1 := List.mem_singleton.mp hb
  exact .word (Store.derefMarked_nonvar (List.mem_singleton.not.mpr hne) (hcell harg)) rfl fun _ b hb => (by cases hb)

theorem identical_copyAt (stale stale' : Word) {root root' : Addr} {p q : Addr} (hroot : twoCopies root = some (.appl p))
    (hroot' : twoCopies root' = some (.appl q)) (harg : twoCopies (p + 1) = some (.int 7))
    (harg' : twoCopies (q + 1) = some (.int 7)) : (copyAt root stale).Identical (copyAt root' stale') := by
  refine ⟨fun a b => a = root ∧ b = root' ∨ a = p + 1 ∧ b = q + 1, .inl ⟨rfl, rfl⟩, ?_⟩
  rintro a b (⟨rfl, rfl⟩ | ⟨rfl, rfl⟩)
  · rw [copyAt, copyAt, Store.deref_ofWords, Store.deref_ofWords, hroot, hroot']
    exact .nonvar (.appl rfl) (.cons (.inr ⟨rfl, rfl⟩) .nil)
  · rw [copyAt, copyAt, Store.deref_ofWords, Store.deref_ofWords, harg, harg']
    exact .nonvar (.int 7) .nil

theorem not_fits_two_pow_64 : ¬ Word.Fits (2 ^ 64) := by decide

/-- A heap of boxes of 2 ^ 64. -/
def bigHeap : Heap := ⟨fun _ => .blob (.bigInt (.int ⟨2 ^ 64, not_fits_two_pow_64⟩)), 8⟩

/-- The box of 2 ^ 64 at the address 1: its functor, `BIG_INT`, the sizes, a pointer
    that is not set, the limbs, and `EndSpecials`. -/
def bigBox : Addr → Word
  | 1 => 40
  | 2 => 1
  | 3 => 0x200000002
  | 6 => 1
  | 7 => 56
  | _ => 0

/-- A call for 2 ^ 64 with this number in the scratch cells. -/
def bigAttempt (stale : Word) : HashAttempt :=
  ⟨⟨bigHeap, bigBox, 4096, 4096, false⟩, .ofWords fun a => if a = 0 then some (.appl 1) else none, 0, fun _ => stale⟩

/-- What was in the scratch cell is copied, and the limbs are not. -/
theorem bigAttempt_returns (stale : Word) : ∃ scratch m, (bigAttempt stale).Returns (-1) (.done scratch 4, m) ∧
    (List.range 4).map scratch = [stale, 1, 0x200000002, 0] := by
  have halloc : mpAlloc bigBox 1 = 2 := by decide +kernel
  let st : HashState := (HashState.init (bigAttempt stale).store.unmarked 0 1 (-1) fun _ => stale).reading
    (0, .cell (.nonvar (.appl 1)))
  have hroom : ¬ 4096 ≤ 0 + (1024 + (2 + mpAlloc bigBox 1)) := by
    rw [halloc]
    decide
  have hasp : ¬ 4096 ≤ 0 + 1024 := by decide
  have hword : st.turn { (bigAttempt stale).context with variant := false } = .go (st.putBigInt bigBox 1).next := by
    rw [HashState.turn]
    simp only [st, HashState.reading, HashState.init, bigAttempt, if_neg hasp, HashState.word, bigHeap, HashState.box,
      if_neg hroom]
  have hread : HashState.turn { (bigAttempt stale).context with variant := false }
      (.init (bigAttempt stale).store.unmarked 0 1 (-1) fun _ => stale) = .go st := rfl
  refine ⟨(st.putBigInt bigBox 1).scratch, st.memory, ?_, ?_⟩
  · have hst : (st.putBigInt bigBox 1).next.st = 4 := congrArg (fun n => 0 + (2 + n)) halloc
    rw [← hst]
    exact (Machine.returns_go hread).mpr ((Machine.returns_go hword).mpr (Machine.returns_of_exit rfl))
  · simp only [HashState.putBigInt, halloc]
    simp [st, HashState.init, HashState.reading, writeByte, writeWords, rawWords, bigBox, List.range_succ]

end Yap
