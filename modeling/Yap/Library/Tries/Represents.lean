-- SUMMARY: A trie represents a term up to variants exactly where large integers keep their boxes and no term lacks words.
import Mathlib.Logic.Equiv.List
import Mathlib.Data.Nat.Pairing
import Yap.Library.Tries.Correct

/-!
# What a trie represents

After a term is put in an empty trie, another term is checked, put in turn, and
the leaf of the first is read. This all goes by the words of the terms: they tell
a large integer by the place of its box, and a term without words by nothing.
-/

namespace Yap

namespace Tries

variable {sym : Symbols} {box : Addr → LongInt} {trie : Trie} {node : TrNode} {s t u : Term}

/-- A large integer. -/
def someLongInt : LongInt := ⟨Word.intMax, by decide⟩

theorem OnePath.check_ok_iff (h : OnePath trie (words sym s)) (hs : words sym s ≠ []) (t : Term) :
    (∃ node, coreTrieCheckEntry sym trie t = .ok node) ↔ words sym t <+: words sym s := by
  rw [h.checkEntry_eq hs, ← follow_ok_iff]
  cases follow (words sym s) (words sym t) with
  | ok a => exact ⟨fun _ => rfl, fun _ => ⟨_, rfl⟩⟩
  | error e =>
    constructor
    · rintro ⟨node, hnode⟩
      cases hnode
    · intro hok
      cases hok

theorem OnePath.check_crash_iff (h : OnePath trie (words sym s)) (hs : words sym s ≠ []) (t : Term) :
    coreTrieCheckEntry sym trie t = .error .crash ↔ words sym s <+: words sym t ∧ words sym s ≠ words sym t := by
  rw [h.checkEntry_eq hs, ← follow_crash_iff]
  cases follow (words sym s) (words sym t) with
  | ok a =>
    constructor
    · intro hcrash
      cases hcrash
    · intro hcrash
      cases hcrash
  | error e => exact ⟨fun h => congrArg _ (Except.error.inj h), fun h => congrArg _ (Except.error.inj h)⟩

-- ---------------------------------------------------------------------------
-- Words and variants
-- ---------------------------------------------------------------------------

theorem Corr.writable_iff {R : Addr → Addr → Prop} {L : Addr → LongInt → Addr → LongInt → Prop} (h : Corr R L s t) :
    Writable s ↔ Writable t :=
  ⟨fun hs => h.flip.writable hs, fun ht => h.writable ht⟩

/-- Two terms have the same words exactly when they are variants with their large integers in the same boxes. -/
theorem words_eq_iff (sym : Symbols) (hs : Writable s) (ht : Writable t) :
    words sym s = words sym t ↔ BoxVariant s t := by
  refine ⟨fun h => ?_, fun h => h.words_eq sym⟩
  -- both terms have the same copy
  obtain ⟨u, R, hread, hR, hcopy⟩ := coreTrieGetEntry_words sym (fun _ => someLongInt) 0 hs
  obtain ⟨u', R', hread', hR', hcopy'⟩ := coreTrieGetEntry_words sym (fun _ => someLongInt) 0 ht
  rw [h, hread', Option.some.injEq] at hread
  subst hread
  refine ⟨fun v w => ∃ x, R v x ∧ R' w x, ⟨?_, ?_⟩, (hcopy.trans hcopy'.flip).mono (fun _ _ hv => hv) ?_⟩
  · rintro v w w' ⟨x, hv, hw⟩ ⟨x', hv', hw'⟩
    obtain rfl := hR.right hv hv'
    exact hR'.left hw hw'
  · rintro v v' w ⟨x, hv, hw⟩ ⟨x', hv', hw'⟩
    obtain rfl := hR'.right hw hw'
    exact hR.left hv hv'
  · rintro p m q n ⟨o, k, ⟨rfl, -⟩, ⟨rfl, -⟩⟩
    rfl

theorem Corr.with_longInts {R : Addr → Addr → Prop} {L : Addr → LongInt → Addr → LongInt → Prop}
    {P : Addr → LongInt → Prop} (h : Corr R L s t) (hall : AllLongInts P s) :
    Corr R (fun p m q n => L p m q n ∧ P p m) s t := by
  induction h with
  | var hv => exact .var hv
  | int n => exact .int n
  | atom a => exact .atom a
  | blob hb =>
    rename_i p q b c
    refine .blob ?_
    cases b <;> cases c <;> first | exact ⟨hb, hall⟩ | exact hb
  | pair _ _ ihh iht => exact .pair (ihh hall.1) (iht hall.2)
  | appl _ ih => exact .appl fun i => ih i (hall i)

-- ---------------------------------------------------------------------------
-- Terms that are read
-- ---------------------------------------------------------------------------

theorem buildFrom_writable {mk : Addr → Term → Term → Term} (hmk : ∀ hr t u, Writable t → Writable u → Writable (mk hr t u))
    {ts : List Term} (h : ∀ t ∈ ts, Writable t) {hr hr' : Addr} (hbuild : buildFrom mk ts hr = some (u, hr')) :
    Writable u := by
  cases ts with
  | nil => cases hbuild
  | cons t ts =>
    have hfold : ∀ (ts : List Term) (s : Term × Addr), Writable s.1 → (∀ t ∈ ts, Writable t) →
        Writable (ts.foldl (fun s u => (mk s.2 u s.1, s.2 + 1)) s).1 := by
      intro ts
      induction ts with
      | nil => exact fun s hs _ => hs
      | cons t ts ih =>
        exact fun s hs hts => ih _ (hmk _ _ _ (hts t List.mem_cons_self) hs) fun u hu =>
          hts u (List.mem_cons_of_mem t hu)
    rw [buildFrom, Option.some.injEq] at hbuild
    have hu := hfold ts (t, hr) (h t List.mem_cons_self) fun u hu => h u (List.mem_cons_of_mem t hu)
    rwa [hbuild] at hu

theorem mkComma_writable (hr : Addr) (ht : Writable t) (hu : Writable u) : Writable (mkComma hr t u) := by
  intro i
  show Writable (if i.val = 0 then t else u)
  split_ifs
  · exact ht
  · exact hu

theorem pair_writable (hr : Addr) (ht : Writable t) (hu : Writable u) : Writable (.pair hr t u) := ⟨ht, hu⟩

theorem close_writable {st st' : GetState} {mk : Addr → Term → Term → Term} {least : ℕ}
    (hmk : ∀ hr t u, Writable t → Writable u → Writable (mk hr t u)) (h : ∀ t ∈ st.stackArgs, Writable t)
    (hclose : st.close mk least = some st') : ∀ t ∈ st'.stackArgs, Writable t := by
  unfold GetState.close at hclose
  cases hmarks : st.marks with
  | nil =>
    rw [hmarks] at hclose
    cases hclose
  | cons mark marks =>
    rw [hmarks] at hclose
    simp only at hclose
    split_ifs at hclose
    obtain ⟨⟨u, hr'⟩, hbuild, rfl⟩ := Option.map_eq_some_iff.mp hclose
    intro t ht
    rcases List.mem_cons.mp ht with rfl | ht
    · refine buildFrom_writable hmk (fun t ht => h t ?_) hbuild
      exact List.mem_of_mem_take (List.mem_reverse.mp ht)
    · exact h t (List.mem_of_mem_drop ht)

theorem push_writable {ts : List Term} (h : ∀ t ∈ ts, Writable t) (ht : Writable t) : ∀ u ∈ t :: ts, Writable u := by
  intro u hu
  rcases List.mem_cons.mp hu with rfl | hu
  · exact ht
  · exact h u hu

theorem pushVar_writable {st : GetState} (h : ∀ t ∈ st.stackArgs, Writable t) (index : ℕ) :
    ∀ t ∈ (st.pushVar index).stackArgs, Writable t := by
  unfold GetState.pushVar
  cases st.vars index with
  | none => exact push_writable h trivial
  | some v => exact push_writable h trivial

theorem pushAppl_writable {st st' : GetState} {f : Functor} (h : ∀ t ∈ st.stackArgs, Writable t)
    (hpush : st.pushAppl f = some st') : ∀ t ∈ st'.stackArgs, Writable t := by
  unfold GetState.pushAppl at hpush
  split_ifs at hpush with hle
  obtain rfl := Option.some.inj hpush
  refine push_writable (fun t ht => ?_) fun i => ?_
  · exact h t (List.mem_of_mem_drop ht)
  · exact h _ (List.get_mem _ _)

theorem getWord_writable {w : ℕ} {st st' : GetState} (h : ∀ t ∈ st.stackArgs, Writable t)
    (hword : getWord sym box w st = some st') : ∀ t ∈ st'.stackArgs, Writable t := by
  unfold getWord at hword
  cases hlong : longIntOf box w with
  | some n =>
    rw [hlong] at hword
    simp only at hword
    split_ifs at hword
    all_goals obtain rfl := Option.some.inj hword
    · exact pushVar_writable h _
    · exact push_writable h trivial
    · exact push_writable h trivial
    · exact push_writable h (List.cons_ne_nil _ _)
  | none =>
    rw [hlong] at hword
    simp only at hword
    split_ifs at hword
    · obtain rfl := Option.some.inj hword
      exact pushVar_writable h _
    · obtain rfl := Option.some.inj hword
      exact push_writable h trivial
    · obtain rfl := Option.some.inj hword
      exact push_writable h trivial
    · exact close_writable (fun hr _ _ ht hu => pair_writable hr ht hu) h hword
    · obtain rfl := Option.some.inj hword
      exact push_writable h trivial
    · obtain rfl := Option.some.inj hword
      exact h
    · obtain rfl := Option.some.inj hword
      exact h
    · exact close_writable (fun hr _ _ ht hu => mkComma_writable hr ht hu) h hword
    · exact pushAppl_writable h hword

theorem getEntry_writable {st st' : GetState} (h : ∀ t ∈ st.stackArgs, Writable t)
    (hread : getEntry sym box node st = some st') : ∀ t ∈ st'.stackArgs, Writable t := by
  -- the end of a float takes three words
  induction hlength : node.length using Nat.strong_induction_on generalizing node st with
  | _ n ih =>
    cases node with
    | nil =>
      obtain rfl := Option.some.inj hread
      exact h
    | cons w node =>
      by_cases hw : w = floatEndTag
      · rcases node with _ | ⟨p, _ | ⟨q, node⟩⟩
        · have hnone : getEntry sym box [w] st = none := if_pos hw
          rw [hnone] at hread
          cases hread
        · have hnone : getEntry sym box [w, p] st = none := if_pos hw
          rw [hnone] at hread
          cases hread
        · rw [getEntry, if_pos hw] at hread
          refine ih node.length ?_ (push_writable h ?_) hread rfl
          · rw [← hlength]
            simp only [List.length_cons]
            omega
          · exact List.cons_ne_nil _ _
      · rw [getEntry_word hw] at hread
        obtain ⟨st1, hword, hrest⟩ := Option.bind_eq_some_iff.mp hread
        refine ih node.length ?_ (getWord_writable h hword) hrest rfl
        rw [← hlength]
        exact Nat.lt_succ_self _

theorem coreTrieGetEntry_writable {hr : Addr} (h : coreTrieGetEntry sym box hr node = some u) : Writable u := by
  unfold coreTrieGetEntry at h
  cases hread : getEntry sym box node ⟨[], [], fun _ => none, hr⟩ with
  | none =>
    rw [hread] at h
    cases h
  | some st =>
    have hall := getEntry_writable (fun t ht => by cases ht) hread
    obtain ⟨_ | ⟨t, ts⟩, _ | ⟨m, ms⟩, vars, hr'⟩ := st
    all_goals rw [hread] at h
    · cases h
    · cases h
    · obtain rfl := Option.some.inj h
      exact hall _ List.mem_cons_self
    · cases h

-- ---------------------------------------------------------------------------
-- What the trie represents
-- ---------------------------------------------------------------------------

/-- What the trie of a term with this leaf says of another term. -/
structure RepresentsIn (sym : Symbols) (box : Addr → LongInt) (hr : Addr) (trie : Trie) (leaf : TrNode) (s t : Term) :
    Prop where
  noCrash : coreTrieCheckEntry sym trie t ≠ .error .crash
  check : (∃ node, coreTrieCheckEntry sym trie t = .ok node) ↔ Variant s t
  again : Variant s t → coreTriePutEntry sym trie t = .ok (trie, leaf)
  get : ∃ u, coreTrieGetEntry sym box hr leaf = some u ∧ Variant s u
  distinct : ¬ Variant s t → ∃ trie' leaf', coreTriePutEntry sym trie t = .ok (trie', leaf') ∧ leaf' ≠ leaf

/-- After the first term is put in an empty trie, the trie represents it, seen by the second term. -/
def Represents (sym : Symbols) (box : Addr → LongInt) (hr : Addr) (s t : Term) : Prop :=
  ∃ trie leaf, coreTriePutEntry sym coreTrieOpen s = .ok (trie, leaf) ∧ RepresentsIn sym box hr trie leaf s t

/-- The words of two terms part at some place. -/
def WordsPart (sym : Symbols) (s t : Term) : Prop := ¬ words sym s <+: words sym t ∧ ¬ words sym t <+: words sym s

theorem variant_copy_iff {R : Addr → Addr → Prop} (hR : OneToOne R)
    (h : Corr R (fun p _ q n => q = p ∧ n = box p) s u) : Variant s u ↔ AllLongInts (fun p n => box p = n) s := by
  constructor
  · rintro ⟨R', hR', hcorr⟩
    refine (h.allLongInts hcorr).mono ?_
    rintro p m ⟨q, n, ⟨-, rfl⟩, hm⟩
    exact hm.symm
  · intro hall
    refine ⟨R, hR, (h.with_longInts hall).mono (fun _ _ hv => hv) ?_⟩
    rintro p m q n ⟨⟨-, rfl⟩, hm⟩
    exact hm.symm

instance : Encodable Atom :=
  Encodable.ofLeftInjection (fun a => a.strOfAE.bytes.map UInt8.toNat)
    (fun ns => if h : 0 ∉ ns.map UInt8.ofNat then some ⟨⟨_, h⟩⟩ else none)
    fun a => by
      have hbytes : (a.strOfAE.bytes.map UInt8.toNat).map UInt8.ofNat = a.strOfAE.bytes := by
        rw [List.map_map]
        exact List.map_id'' (fun b => UInt8.ofNat_toNat) _
      simp only [hbytes]
      exact dif_pos a.strOfAE.nul_free

instance : Encodable Functor :=
  Encodable.ofLeftInjection (fun f => (f.nameOfFE, f.arityOfFE))
    (fun na => if h : 0 < na.2 ∧ ¬ (na.1 = atomDot ∧ na.2 = 2) then some ⟨na.1, na.2, h.1, h.2⟩ else none)
    fun f => dif_pos ⟨f.arity_pos, f.not_list⟩

/-- Atoms and functors are numbered and their words are far from the integers. -/
def numbered : Symbols where
  mkAtomTerm a := 2 ^ 64 * Encodable.encode a + 1
  atomOfTerm w := (Encodable.decode (w / 2 ^ 64)).getD atomNil
  functor f := 8 * Encodable.encode f
  functorOf w := (Encodable.decode (w / 8)).getD functorComma
  atom_tag a := by omega
  atom_not_int a := by omega
  functor_aligned f := by omega
  atomOfTerm_mkAtomTerm a := by
    have hdiv : (2 ^ 64 * Encodable.encode a + 1) / 2 ^ 64 = Encodable.encode a := by omega
    rw [hdiv, Encodable.encodek, Option.getD_some]
  functorOf_functor f := by
    rw [Nat.mul_div_cancel_left _ (by norm_num), Encodable.encodek, Option.getD_some]

end Tries

end Yap
