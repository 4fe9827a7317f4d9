-- SUMMARY: The building of an exo index and the lookups in it: when all their probe loops end.
import Yap.Exo.Code
import Yap.Terms.Tags

/-!
# Building an index

The probes of a key go round the hashes of 32 bits in strides of one length. They
come to the slots of the hashes that are congruent to the first one modulo the
greatest common divisor of this length and the number of hashes, which need not be
all slots: the number of slots is twice that of the clauses, so it is even.

A build goes through tables that are filled one clause after the other, each one
smaller than the one before. It comes to its end when the probes for every clause
find a slot in the table as it is at that time.
-/

namespace Yap

namespace Exo

open Machine

-- ---------------------------------------------------------------------------
-- One loop
-- ---------------------------------------------------------------------------

/-- What `NEXT` adds to a hash. -/
def stride (cl : Tuple) (bnds : List Bool) : Bits32 :=
  hashMurmur332 cl bnds + ((boundCells cl bnds).headD 0).setWidth 32

theorem toNat_next (cl : Tuple) (bnds : List Bool) (hash : Bits32) :
    (next cl bnds hash).toNat = (hash.toNat + (stride cl bnds).toNat) % 2 ^ 32 := by
  have hnext : next cl bnds hash = hash + stride cl bnds := by
    rw [next, BitVec.setWidth_add _ _ (by decide), BitVec.setWidth_setWidth_of_le _ (by decide), BitVec.setWidth_eq,
      stride, BitVec.add_assoc]
  rw [hnext, BitVec.toNat_add]

section

variable (cls : List Tuple) (bnds : List Bool)

namespace Index

/-- A probe for these cells ends at this slot: it is empty, or its tuple matches. -/
def Stops (it : Index) (cl : Tuple) (slot : ℕ) : Prop :=
  it.key slot = 0 ∨ match' (exoOffsetToTuple cls (it.key slot)) cl bnds = true

/-- There are slots, and a probe for these cells ends at one of those that belong to
    the hashes congruent to the first one. -/
def FindsSlot (it : Index) (cl : Tuple) : Prop :=
  0 < it.hsize ∧
    ∃ x < 2 ^ 32, x ≡ (hashFvn1a cl bnds).toNat [MOD (stride cl bnds).toNat.gcd (2 ^ 32)] ∧
      it.Stops cls bnds cl (x % it.hsize)

variable {cls bnds} {it it' : Index} {cl : Tuple} {n : ℕ}

theorem isSome_run_iff {σ ω : Type*} {turn : σ → Turn σ ω} {st : σ} :
    (∃ turns, (run turn turns st).isSome) ↔ ∃ w, Returns turn st w := by
  simp only [Option.isSome_iff_exists, Returns]
  exact exists_comm

theorem insertTurn_stops {hash : Bits32} (h : it.Stops cls bnds (cls.getD n []) (it.slot hash)) :
    ∃ w, insertTurn cls bnds n (hash, it) = .exit w := by
  rw [insertTurn]
  by_cases hfree : it.key (it.slot hash) = 0
  · exact ⟨_, if_pos hfree⟩
  · exact ⟨_, (if_neg hfree).trans (if_pos (h.resolve_left hfree))⟩

theorem insertTurn_go {hash : Bits32} (h : ¬ it.Stops cls bnds (cls.getD n []) (it.slot hash)) :
    insertTurn cls bnds n (hash, it) =
      .go (next (cls.getD n []) bnds hash, { it with ncollisions := it.ncollisions + 1 }) := by
  rw [Stops, not_or] at h
  rw [insertTurn, if_neg h.1, if_neg h.2]

theorem lookupTurn_stops {hash : Bits32} (h : it.Stops cls bnds cl (it.slot hash)) :
    ∃ w, lookupTurn cls bnds it cl hash = .exit w := by
  rw [lookupTurn]
  by_cases hfree : it.key (it.slot hash) = 0
  · exact ⟨_, if_pos hfree⟩
  · rw [if_neg hfree, if_pos (h.resolve_left hfree)]
    split
    · exact ⟨_, rfl⟩
    · exact ⟨_, rfl⟩

theorem lookupTurn_go {hash : Bits32} (h : ¬ it.Stops cls bnds cl (it.slot hash)) :
    lookupTurn cls bnds it cl hash = .go (next cl bnds hash) := by
  rw [Stops, not_or] at h
  rw [lookupTurn, if_neg h.1, if_neg h.2]

/-- `INSERT` ends when it finds a slot. -/
theorem insert_ends_iff :
    (∃ turns, (insert cls bnds turns it n).isSome) ↔ it.FindsSlot cls bnds (cls.getD n []) := by
  rcases Nat.eq_zero_or_pos it.hsize with hzero | hpos
  · simp [insert, FindsSlot, hzero]
  · have hrun : ∀ turns, insert cls bnds turns it n =
        run (insertTurn cls bnds n) turns (hashFvn1a (cls.getD n []) bnds, it) := fun turns => if_neg hpos.ne'
    simp only [hrun, isSome_run_iff, FindsSlot, hpos, true_and]
    -- Collisions are counted, the slots stay as they are.
    refine returns_iff_of_stride (fun st : Bits32 × Index => ∃ c, st.2 = { it with ncollisions := c })
      (fun st => st.1.toNat) ?_ ?_ ⟨it.ncollisions, rfl⟩ (BitVec.isLt _)
    · rintro ⟨hash, _⟩ ⟨c, rfl⟩ hstop
      exact insertTurn_stops hstop
    · rintro ⟨hash, _⟩ ⟨c, rfl⟩ hstop
      exact ⟨_, insertTurn_go hstop, ⟨c + 1, rfl⟩, toNat_next _ _ _⟩

/-- `LOOKUP` ends when it finds a slot. -/
theorem lookup_ends_iff : (∃ turns, (lookup cls bnds turns it cl).isSome) ↔ it.FindsSlot cls bnds cl := by
  rcases Nat.eq_zero_or_pos it.hsize with hzero | hpos
  · simp [lookup, FindsSlot, hzero]
  · have hrun : ∀ turns, lookup cls bnds turns it cl =
        run (lookupTurn cls bnds it cl) turns (hashFvn1a cl bnds) := fun turns => if_neg hpos.ne'
    simp only [hrun, isSome_run_iff, FindsSlot, hpos, true_and]
    refine returns_iff_of_stride (fun _ : Bits32 => True) (fun hash => hash.toNat) ?_ ?_ trivial (BitVec.isLt _)
    · exact fun hash _ hstop => lookupTurn_stops hstop
    · exact fun hash _ hstop => ⟨_, lookupTurn_go hstop, trivial, toNat_next _ _ _⟩

/-- An odd stride comes to all hashes: it finds a slot when one of them is empty. -/
theorem findsSlot_of_odd (hodd : (stride cl bnds).toNat % 2 = 1) {i : ℕ} (hi : i < it.hsize) (hi' : i < 2 ^ 32)
    (hfree : it.key i = 0) : it.FindsSlot cls bnds cl := by
  have hgcd : (stride cl bnds).toNat.gcd (2 ^ 32) = 1 :=
    Nat.Coprime.pow_right 32 (Nat.coprime_two_right.mpr (Nat.odd_iff.mpr hodd))
  refine ⟨Nat.zero_lt_of_lt hi, i, hi', ?_, ?_⟩
  · rw [hgcd]
    exact Nat.modEq_one
  · rw [Nat.mod_eq_of_lt hi]
    exact .inl hfree

end Index

end

namespace Index

section

variable (cls : List Tuple) (bnds : List Bool)

/-- The tables of a build, with the number of clauses that are in them. -/
inductive Filling : Index → ℕ → Prop where
  | start : Filling (start cls) 0
  | insert {it it' : Index} {n turns : ℕ} :
      Filling it n → n < cls.length → insert cls bnds turns it n = some it' → Filling it' (n + 1)
  | smaller {it : Index} : Filling it cls.length → it.TooLarge → Filling it.smaller 0

/-- The building of an index ends, and so does every lookup in it. -/
structure ProbingEnds : Prop where
  build : ∃ turns sizes, (addIndex cls bnds turns sizes).isSome
  lookup : ∀ turns sizes it, addIndex cls bnds turns sizes = some it →
    ∀ xregs : Tuple, xregs.length = bnds.length → ∃ turns', (lookup cls bnds turns' it xregs).isSome

/-- A full table of the size that is kept, as `add_index` leaves it. -/
def finish (it : Index) : Index :=
  let it := (List.range it.hsize).foldl openChain it
  { it with isKey := it.isKey || it.ntrys == 0 }

/-- What `add_index` does after the clauses are in the table. -/
def conclude (turns sizes : ℕ) (it : Index) : Option Index :=
  if it.TooLarge then addIndexLoop cls bnds turns sizes it.smaller else some it.finish

end

variable {cls : List Tuple} {bnds : List Bool} {it it' fin : Index} {n turns turns' sizes sizes' : ℕ}

-- ---------------------------------------------------------------------------
-- The chains
-- ---------------------------------------------------------------------------

/-- Opening a chain changes links only. -/
theorem openChain_eq (it : Index) (i : ℕ) : ∃ links, it.openChain i = { it with links := links } := by
  unfold openChain
  dsimp only
  split
  · exact ⟨it.links, rfl⟩
  · exact ⟨_, rfl⟩

theorem openChains_eq (slots : List ℕ) (it : Index) :
    ∃ links, slots.foldl openChain it = { it with links := links } := by
  induction slots generalizing it with
  | nil => exact ⟨it.links, rfl⟩
  | cons i slots ih =>
    obtain ⟨links, hopen⟩ := openChain_eq it i
    obtain ⟨links', hfold⟩ := ih { it with links := links }
    exact ⟨links', by rw [List.foldl_cons, hopen, hfold]⟩

theorem finish_eq (it : Index) : ∃ links isKey, it.finish = { it with links := links, isKey := isKey } := by
  obtain ⟨links, hfold⟩ := openChains_eq (List.range it.hsize) it
  exact ⟨links, _, by rw [finish, hfold]⟩

/-- The slots of a finished table are those of the full one. -/
theorem findsSlot_finish {cl : Tuple} : it.finish.FindsSlot cls bnds cl ↔ it.FindsSlot cls bnds cl := by
  obtain ⟨links, isKey, heq⟩ := finish_eq it
  rw [heq]
  rfl

theorem addIndexLoop_succ :
    addIndexLoop cls bnds turns (sizes + 1) it =
      (insertFrom cls bnds turns it 0).bind (conclude cls bnds turns sizes) := by
  rw [addIndexLoop, fillHash]
  cases insertFrom cls bnds turns it 0 with
  | none => rfl
  | some it' =>
    obtain ⟨links, hfold⟩ := openChains_eq (List.range it'.hsize) it'
    simp only [Option.map_some, Option.bind_some, conclude, finish, hfold]
    rfl

-- ---------------------------------------------------------------------------
-- Bounds
-- ---------------------------------------------------------------------------

theorem insert_le (hle : turns ≤ turns') (h : insert cls bnds turns it n = some it') :
    insert cls bnds turns' it n = some it' := by
  unfold insert at h ⊢
  split at h
  · cases h
  · rw [if_neg ‹_›]
    exact run_le hle h

theorem insertFrom_of_lt (hn : n < cls.length) :
    insertFrom cls bnds turns it n =
      (insert cls bnds turns it n).bind fun it' => insertFrom cls bnds turns it' (n + 1) := by
  obtain ⟨k, hk⟩ : ∃ k, cls.length - n = k + 1 := ⟨cls.length - n - 1, by omega⟩
  have hk' : cls.length - (n + 1) = k := by omega
  rw [insertFrom, hk, List.range'_succ, List.foldlM_cons]
  simp only [insertFrom, hk']
  rfl

theorem insertFrom_length : insertFrom cls bnds turns it cls.length = some it := by
  rw [insertFrom, Nat.sub_self]
  rfl

/-- What holds from one clause on, by induction on the clauses that are left. -/
theorem clauses_induction {P : Index → ℕ → Prop} (hfull : ∀ it, P it cls.length)
    (hstep : ∀ it n, n < cls.length → (∀ it', P it' (n + 1)) → P it n) (it : Index) (hn : n ≤ cls.length) :
    P it n := by
  obtain ⟨k, hk⟩ : ∃ k, n + k = cls.length := ⟨cls.length - n, by omega⟩
  induction k generalizing n it with
  | zero =>
    obtain rfl : n = cls.length := hk
    exact hfull it
  | succ k ih => exact hstep it n (by omega) fun it' => ih it' (by omega) (by omega)

theorem insertFrom_le (hle : turns ≤ turns') (hn : n ≤ cls.length)
    (h : insertFrom cls bnds turns it n = some it') : insertFrom cls bnds turns' it n = some it' := by
  revert h
  refine clauses_induction (P := fun it n => insertFrom cls bnds turns it n = some it' →
    insertFrom cls bnds turns' it n = some it') (fun it h => ?_) (fun it n hlt ih h => ?_) it hn
  · rwa [insertFrom_length] at h ⊢
  · rw [insertFrom_of_lt hlt] at h ⊢
    obtain ⟨it₁, hins, hrest⟩ := Option.bind_eq_some_iff.mp h
    exact Option.bind_eq_some_iff.mpr ⟨it₁, insert_le hle hins, ih it₁ hrest⟩

theorem conclude_le
    (ih : ∀ it, addIndexLoop cls bnds turns sizes it = some fin → addIndexLoop cls bnds turns' sizes' it = some fin)
    (h : conclude cls bnds turns sizes it = some fin) : conclude cls bnds turns' sizes' it = some fin := by
  unfold conclude at h ⊢
  split at h
  · rw [if_pos ‹_›]
    exact ih _ h
  · rwa [if_neg ‹_›]

/-- Greater bounds do not change the result. -/
theorem addIndexLoop_le (hle : turns ≤ turns') (hle' : sizes ≤ sizes')
    (h : addIndexLoop cls bnds turns sizes it = some fin) : addIndexLoop cls bnds turns' sizes' it = some fin := by
  induction sizes generalizing sizes' it with
  | zero => cases h
  | succ sizes ih =>
    obtain ⟨sizes', rfl⟩ := Nat.exists_eq_add_one_of_ne_zero (Nat.ne_zero_of_lt hle')
    rw [addIndexLoop_succ] at h ⊢
    obtain ⟨it₁, hfill, hrest⟩ := Option.bind_eq_some_iff.mp h
    refine Option.bind_eq_some_iff.mpr ⟨it₁, insertFrom_le hle (Nat.zero_le _) hfill, ?_⟩
    exact conclude_le (fun it => ih (Nat.le_of_succ_le_succ hle')) hrest

-- ---------------------------------------------------------------------------
-- What a build goes through
-- ---------------------------------------------------------------------------

/-- From this table, with so many clauses in it, the build comes to its result. -/
def Yields (cls : List Tuple) (bnds : List Bool) (it : Index) (n : ℕ) (fin : Index) : Prop :=
  ∃ turns sizes, (insertFrom cls bnds turns it n).bind (conclude cls bnds turns sizes) = some fin

theorem yields_start : Yields cls bnds (start cls) 0 fin ↔ ∃ turns sizes, addIndex cls bnds turns sizes = some fin := by
  constructor
  · rintro ⟨turns, sizes, h⟩
    exact ⟨turns, sizes + 1, addIndexLoop_succ.trans h⟩
  · rintro ⟨turns, sizes, h⟩
    cases sizes with
    | zero => cases h
    | succ sizes => exact ⟨turns, sizes, addIndexLoop_succ.symm.trans h⟩

/-- The next clause is inserted, and the build goes on from there. -/
theorem Yields.insert (h : Yields cls bnds it n fin) (hn : n < cls.length) :
    (∃ turns, (insert cls bnds turns it n).isSome) ∧
      ∀ turns it', insert cls bnds turns it n = some it' → Yields cls bnds it' (n + 1) fin := by
  obtain ⟨turns, sizes, h⟩ := h
  rw [insertFrom_of_lt hn, Option.bind_assoc] at h
  obtain ⟨it₁, hins, hrest⟩ := Option.bind_eq_some_iff.mp h
  refine ⟨⟨turns, Option.isSome_iff_exists.mpr ⟨it₁, hins⟩⟩, fun turns' it' hins' => ?_⟩
  have hmax := insert_le (le_max_left turns turns') hins
  obtain rfl : it₁ = it' := Option.some.inj (hmax.symm.trans (insert_le (le_max_right turns turns') hins'))
  exact ⟨turns, sizes, hrest⟩

/-- A full table is kept, or a smaller one is filled. -/
theorem Yields.full (h : Yields cls bnds it cls.length fin) :
    if it.TooLarge then Yields cls bnds it.smaller 0 fin else fin = it.finish := by
  obtain ⟨turns, sizes, h⟩ := h
  rw [insertFrom_length, Option.bind_some, conclude] at h
  split at h
  case isTrue hlarge =>
    rw [if_pos hlarge]
    cases sizes with
    | zero => cases h
    | succ sizes => exact ⟨turns, sizes, addIndexLoop_succ.symm.trans h⟩
  case isFalse hkept =>
    rw [if_neg hkept]
    exact (Option.some.inj h).symm

theorem Filling.yields (h : Filling cls bnds it n) (hstart : Yields cls bnds (Index.start cls) 0 fin) :
    Yields cls bnds it n fin := by
  induction h with
  | start => exact hstart
  | insert _ hn hins ih => exact (ih.insert hn).2 _ _ hins
  | smaller _ hlarge ih =>
    have hfull := ih.full
    rwa [if_pos hlarge] at hfull

/-- In a build that ends, the probes for every clause find a slot. -/
theorem Filling.findsSlot (h : Filling cls bnds it n) (hn : n < cls.length)
    (hend : ∃ turns sizes, (addIndex cls bnds turns sizes).isSome) : it.FindsSlot cls bnds (cls.getD n []) := by
  obtain ⟨turns, sizes, hsome⟩ := hend
  obtain ⟨fin, hfin⟩ := Option.isSome_iff_exists.mp hsome
  have hyields := h.yields (yields_start.mpr ⟨turns, sizes, hfin⟩)
  exact insert_ends_iff.mp (hyields.insert hn).1

/-- The clauses that are left are inserted when the probes for every clause find a slot. -/
theorem Filling.exists_full (hfinds : ∀ it n, Filling cls bnds it n → n < cls.length →
      it.FindsSlot cls bnds (cls.getD n [])) (h : Filling cls bnds it n) (hn : n ≤ cls.length) :
    ∃ turns it', insertFrom cls bnds turns it n = some it' := by
  revert h
  refine clauses_induction (P := fun it n => Filling cls bnds it n →
    ∃ turns it', insertFrom cls bnds turns it n = some it') (fun it _ => ?_) (fun it n hlt ih h => ?_) it hn
  · exact ⟨0, it, insertFrom_length⟩
  · obtain ⟨turns, hsome⟩ := insert_ends_iff.mpr (hfinds it n h hlt)
    obtain ⟨it₁, hins⟩ := Option.isSome_iff_exists.mp hsome
    obtain ⟨turns', it', hrest⟩ := ih it₁ (.insert h hlt hins)
    refine ⟨max turns turns', it', ?_⟩
    rw [insertFrom_of_lt hlt, insert_le (le_max_left _ _) hins, Option.bind_some]
    exact insertFrom_le (le_max_right _ _) hlt hrest

/-- What the insertions of a fill lead to. -/
theorem Filling.full (h : Filling cls bnds it n) (hn : n ≤ cls.length)
    (hfill : insertFrom cls bnds turns it n = some it') : Filling cls bnds it' cls.length := by
  revert h hfill
  refine clauses_induction (P := fun it n => Filling cls bnds it n →
    insertFrom cls bnds turns it n = some it' → Filling cls bnds it' cls.length)
    (fun it h hfill => ?_) (fun it n hlt ih h hfill => ?_) it hn
  · rw [insertFrom_length] at hfill
    exact Option.some.inj hfill ▸ h
  · rw [insertFrom_of_lt hlt] at hfill
    obtain ⟨it₁, hins, hrest⟩ := Option.bind_eq_some_iff.mp hfill
    exact ih it₁ (.insert h hlt hins) hrest

/-- An insertion keeps the number of slots. -/
theorem hsize_insert (h : insert cls bnds turns it n = some it') : it'.hsize = it.hsize := by
  unfold insert at h
  split at h
  · cases h
  · obtain ⟨st, hreach, hexit⟩ := Returns.exists_exit ⟨turns, h⟩
    have hst : st.2.hsize = it.hsize := by
      refine invariant (P := fun st => st.2.hsize = it.hsize) (fun st st' hst hgo => ?_) hreach rfl
      obtain ⟨hash, it₁⟩ := st
      unfold insertTurn at hgo
      dsimp only at hgo
      split at hgo
      · cases hgo
      · split at hgo
        · cases hgo
        · obtain rfl := Turn.go.inj hgo
          exact hst
    obtain ⟨hash, it₁⟩ := st
    unfold insertTurn at hexit
    dsimp only at hexit
    split at hexit
    · obtain rfl := Turn.exit.inj hexit
      exact hst
    · split at hexit
      · obtain rfl := Turn.exit.inj hexit
        exact hst
      · cases hexit

theorem hsize_insertFrom (hn : n ≤ cls.length) (h : insertFrom cls bnds turns it n = some it') :
    it'.hsize = it.hsize := by
  revert h
  refine clauses_induction (P := fun it n => insertFrom cls bnds turns it n = some it' → it'.hsize = it.hsize)
    (fun it h => ?_) (fun it n hlt ih h => ?_) it hn
  · rw [insertFrom_length] at h
    rw [Option.some.inj h]
  · rw [insertFrom_of_lt hlt] at h
    obtain ⟨it₁, hins, hrest⟩ := Option.bind_eq_some_iff.mp h
    exact (ih it₁ hrest).trans (hsize_insert hins)

/-- The sizes get smaller, so the build ends when all insertions do. -/
theorem Filling.exists_yields (hfinds : ∀ it n, Filling cls bnds it n → n < cls.length →
      it.FindsSlot cls bnds (cls.getD n [])) (h : Filling cls bnds it 0) : ∃ fin, Yields cls bnds it 0 fin := by
  induction hsize : it.hsize using Nat.strongRecOn generalizing it with
  | ind size ih =>
    obtain ⟨turns, it', hfill⟩ := Filling.exists_full hfinds h (Nat.zero_le _)
    have hfull := h.full (Nat.zero_le _) hfill
    by_cases hlarge : it'.TooLarge
    · have hless : it'.smaller.hsize < size := by
        rw [← hsize, ← hsize_insertFrom (Nat.zero_le _) hfill]
        exact hlarge
      obtain ⟨fin, turns', sizes, hrest⟩ := ih _ hless (.smaller hfull hlarge) rfl
      refine ⟨fin, max turns turns', sizes + 1, ?_⟩
      rw [insertFrom_le (le_max_left _ _) (Nat.zero_le _) hfill, Option.bind_some, conclude, if_pos hlarge]
      exact addIndexLoop_le (le_max_right _ _) le_rfl (addIndexLoop_succ.trans hrest)
    · refine ⟨it'.finish, turns, 0, ?_⟩
      rw [hfill, Option.bind_some, conclude, if_neg hlarge]

/-- The result of a build is a full table that is kept. -/
theorem Filling.exists_finish (h : Filling cls bnds it 0) (hfin : addIndexLoop cls bnds turns sizes it = some fin) :
    ∃ it', Filling cls bnds it' cls.length ∧ ¬ it'.TooLarge ∧ fin = it'.finish := by
  induction sizes generalizing it with
  | zero => cases hfin
  | succ sizes ih =>
    rw [addIndexLoop_succ] at hfin
    obtain ⟨it', hfill, hrest⟩ := Option.bind_eq_some_iff.mp hfin
    have hfull := h.full (Nat.zero_le _) hfill
    unfold conclude at hrest
    split at hrest
    case isTrue hlarge => exact ih (.smaller hfull hlarge) hrest
    case isFalse hkept => exact ⟨it', hfull, hkept, (Option.some.inj hrest).symm⟩

/-- Probing ends when the probes for every clause find a slot in the tables of the
    build, and those for every key in the full table that is kept. -/
theorem probingEnds_iff (cls : List Tuple) (bnds : List Bool) :
    ProbingEnds cls bnds ↔
      (∀ it n, Filling cls bnds it n → n < cls.length → it.FindsSlot cls bnds (cls.getD n [])) ∧
        ∀ it, Filling cls bnds it cls.length → ¬ it.TooLarge →
          ∀ xregs : Tuple, xregs.length = bnds.length → it.FindsSlot cls bnds xregs := by
  constructor
  · intro h
    refine ⟨fun it n hfilling hn => hfilling.findsSlot hn h.build, fun it hfilling hkept xregs hlen => ?_⟩
    obtain ⟨turns, sizes, hsome⟩ := h.build
    obtain ⟨fin, hfin⟩ := Option.isSome_iff_exists.mp hsome
    have hfull := (hfilling.yields (yields_start.mpr ⟨turns, sizes, hfin⟩)).full
    rw [if_neg hkept] at hfull
    have hends := lookup_ends_iff.mp (h.lookup turns sizes fin hfin xregs hlen)
    rw [hfull] at hends
    exact findsSlot_finish.mp hends
  · rintro ⟨hfinds, hkeys⟩
    obtain ⟨fin, hyields⟩ := Filling.exists_yields hfinds .start
    obtain ⟨turns, sizes, hfin⟩ := yields_start.mp hyields
    refine ⟨⟨turns, sizes, Option.isSome_iff_exists.mpr ⟨fin, hfin⟩⟩, fun turns sizes it hit xregs hlen => ?_⟩
    obtain ⟨it', hfull, hkept, rfl⟩ := Filling.exists_finish .start hit
    exact lookup_ends_iff.mpr (findsSlot_finish.mpr (hkeys it' hfull hkept xregs hlen))

-- ---------------------------------------------------------------------------
-- A build that does not end
-- ---------------------------------------------------------------------------

/-- The clauses of `p(1)` and `p(5)`. -/
def oneAndFive : List Tuple := [[Tags.mkIntTerm 1], [Tags.mkIntTerm 5]]

/-- The tuple of 5 comes back to the slot of 1 with every probe. -/
theorem oneAndFive_slots :
    (hashFvn1a [Tags.mkIntTerm 1] [true]).toNat % 4 = 0 ∧ (hashFvn1a [Tags.mkIntTerm 5] [true]).toNat % 4 = 0 ∧
      (stride [Tags.mkIntTerm 5] [true]).toNat % 4 = 0 := by
  decide +kernel

/-- Two facts are enough for an index that is never built. -/
theorem not_probingEnds : ¬ ∀ cls bnds, ProbingEnds cls bnds := by
  intro hall
  obtain ⟨hfirst, hhash, hstride⟩ := oneAndFive_slots
  have hins : insert oneAndFive [true] 1 (start oneAndFive) 0 = some { start oneAndFive with
      nentries := 1
      key := Function.update (fun _ => 0) ((hashFvn1a [Tags.mkIntTerm 1] [true]).toNat % 4) 1 } := rfl
  have hfinds := (Filling.start.insert (by decide) hins).findsSlot (by decide) (hall oneAndFive [true]).build
  obtain ⟨-, x, -, hmod, hstop⟩ := hfinds
  have hdvd : 4 ∣ (stride [Tags.mkIntTerm 5] [true]).toNat.gcd (2 ^ 32) :=
    Nat.dvd_gcd (Nat.dvd_of_mod_eq_zero hstride) (by decide)
  have hx : x % 4 = (hashFvn1a [Tags.mkIntTerm 5] [true]).toNat % 4 := hmod.of_dvd hdvd
  have hfree : ∀ slot, slot = 0 → ¬ Stops oneAndFive [true] { start oneAndFive with
      nentries := 1
      key := Function.update (fun _ => 0) ((hashFvn1a [Tags.mkIntTerm 1] [true]).toNat % 4) 1 }
        [Tags.mkIntTerm 5] slot := by
    rintro slot rfl
    rw [Stops, hfirst]
    decide
  exact hfree (x % 4) (hx.trans hhash) hstop

end Index

end Exo

end Yap
