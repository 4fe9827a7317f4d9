-- SUMMARY: Switch tables are filled and searched exactly: a jump leads to the label of its key or to the default, when the size of the table is an int.
import Yap.Index.Probes

/-!
# Switch tables are exact

The loops that fill a table put one pair of a key and a label after the other into
it. A hash table then represents the pairs, as the one of an open addressing; a
linear table lists them. Both leave a default behind every other key.
-/

namespace Yap.Indexing

open Tags Machine OpenAddressing

-- ---------------------------------------------------------------------------
-- Pairs
-- ---------------------------------------------------------------------------

/-- Pairs of keys and labels that are put into a table one after the other. -/
def fillEntries (n : ℕ) : ℕ → List (Word × Word) → Cells → Option Cells
  | _, [], cells => some cells
  | i, (k, v) :: ps, cells => (fetchEntry cells k i n).bind fun e => fillEntries n (i + 1) ps (cells.setEntry e k v)

/-- What a key leads to. -/
def Dispatches (ps : List (Word × Word)) (failCode k v : Word) : Prop :=
  (k, v) ∈ ps ∨ ((∀ v', (k, v') ∉ ps) ∧ v = failCode)

theorem setEntry_tag (cells : Cells) (e : ℕ) (k v : Word) :
    (fun e' => cells.setEntry e k v (2 * e')) = Function.update (fun e' => cells (2 * e')) e k := by
  funext e'
  rw [Cells.setEntry, Function.update_of_ne (by omega)]
  by_cases he : e' = e
  · rw [he, Function.update_self, Function.update_self]
  · rw [Function.update_of_ne (by omega), Function.update_of_ne he]

theorem setEntry_label (cells : Cells) (e : ℕ) (k v : Word) :
    (fun e' => cells.setEntry e k v (2 * e' + 1)) = Function.update (fun e' => cells (2 * e' + 1)) e v := by
  funext e'
  rw [Cells.setEntry]
  by_cases he : e' = e
  · rw [he, Function.update_self, Function.update_self]
  · rw [Function.update_of_ne (by omega), Function.update_of_ne (by omega), Function.update_of_ne he]

-- ---------------------------------------------------------------------------
-- Hash tables
-- ---------------------------------------------------------------------------

section

variable {b : ℕ} {cells : Cells} {failCode k : Word} {j : ℕ}

theorem lookupHash_eq (h : FindsAt 0 (fun e => cells (2 * e)) (compilerProbe (2 ^ b) k) k j) (hj : j < 2 ^ b) :
    lookupHash k cells (2 ^ b) = some (compilerProbe (2 ^ b) k j) := by
  refine run_iterate (hashNext k (2 ^ b)) (fun i hi => ?_) ?_ hj
  · obtain ⟨hkey, hfree⟩ := not_or.mp (h.before i hi)
    exact ((if_neg hkey).trans (if_neg hfree)).trans (by rw [Function.iterate_succ_apply'])
  · rw [lookupTurn]
    by_cases hkey : cells (2 * compilerProbe (2 ^ b) k j) = k
    · exact if_pos hkey
    · exact (if_neg hkey).trans (if_pos (h.stops.resolve_left hkey))

theorem switchOn_eq (hb : b ≤ 30) (h : FindsAt 0 (fun e => cells (2 * e)) (compilerProbe (2 ^ b) k) k j)
    (hj : j < 2 ^ b) : switchOn (2 ^ b) cells k = some (cells (2 * compilerProbe (2 ^ b) k j + 1)) := by
  refine run_iterate (switchNext (2 ^ b) k) (fun i hi => ?_) ?_ hj
  · have hstops := h.before i hi
    rw [Stops, ← emulatorProbe_eq k hb] at hstops
    exact (if_neg hstops).trans (by rw [Function.iterate_succ_apply'])
  · have hstops := h.stops
    rw [Stops, ← emulatorProbe_eq k hb] at hstops
    rw [← emulatorProbe_eq k hb]
    exact if_pos hstops

/-- The pairs are in the hash table with these cells. -/
def Holds (b : ℕ) (failCode : Word) (cells : Cells) (m : List (Word × Word)) : Prop :=
  Represents 0 failCode (2 ^ b) (compilerProbe (2 ^ b)) (fun e => cells (2 * e)) (fun e => cells (2 * e + 1)) m

/-- Every search ends while there are more entries than pairs. -/
theorem Holds.exists_findsAt {m : List (Word × Word)} (h : Holds b failCode cells m) (hb : b ≤ 30)
    (hlt : m.length < 2 ^ b) (k : Word) :
    ∃ j < 2 ^ b, FindsAt 0 (fun e => cells (2 * e)) (compilerProbe (2 ^ b) k) k j := by
  obtain ⟨s, hs, hfree⟩ := Represents.exists_free h hlt
  exact OpenAddressing.exists_findsAt (covers_compilerProbe k hb) hs hfree k

theorem fillEntries_hash {n : ℕ} (hn : minHashEntries < n) (hcases : hashCases 32 32 n = some (2 ^ b)) (hb : b ≤ 30)
    (hlt : n < 2 ^ b) {ps m : List (Word × Word)} (h : Holds b failCode cells m) (hlen : m.length + ps.length ≤ n)
    (hnodup : (ps.map Prod.fst).Nodup) (hzero : ∀ p ∈ ps, p.1 ≠ 0) (hnew : ∀ p ∈ ps, ∀ v, (p.1, v) ∉ m) (i : ℕ) :
    ∃ cells', fillEntries n i ps cells = some cells' ∧ Holds b failCode cells' (ps.reverse ++ m) := by
  induction ps generalizing cells m i with
  | nil => exact ⟨cells, rfl, h⟩
  | cons p ps ih =>
    obtain ⟨k, v⟩ := p
    rw [List.map_cons, List.nodup_cons] at hnodup
    rw [List.length_cons] at hlen
    obtain ⟨j, hj, hfinds⟩ := h.exists_findsAt hb (by omega) k
    have hfetch : fetchEntry cells k i n = some (compilerProbe (2 ^ b) k j) := by
      rw [fetchEntry, if_pos hn, hcases, Option.bind_some, lookupHash_eq hfinds hj]
    have hins : Holds b failCode (cells.setEntry (compilerProbe (2 ^ b) k j) k v) ((k, v) :: m) := by
      rw [Holds, setEntry_tag, setEntry_label]
      exact Represents.insert h (covers_compilerProbe · hb) (hzero _ List.mem_cons_self)
        (hnew _ List.mem_cons_self) hfinds
    obtain ⟨cells', hfill, hholds⟩ := ih hins (by rw [List.length_cons]; omega) hnodup.2
      (fun p hp => hzero p (List.mem_cons_of_mem _ hp)) (fun p hp v' hmem => by
        rcases List.mem_cons.mp hmem with heq | hmem
        · exact hnodup.1 (List.mem_map.mpr ⟨p, hp, (Prod.mk.inj heq).1⟩)
        · exact hnew p (List.mem_cons_of_mem _ hp) v' hmem) (i + 1)
    refine ⟨cells', ?_, by rw [List.reverse_cons, List.append_assoc]; exact hholds⟩
    rw [fillEntries, hfetch, Option.bind_some]
    exact hfill

/-- A jump through a hash table. -/
theorem switchOn_dispatches {ps : List (Word × Word)} (h : Holds b failCode cells ps.reverse) (hb : b ≤ 30)
    (hlt : ps.length < 2 ^ b) (k : Word) : ∃ v, switchOn (2 ^ b) cells k = some v ∧ Dispatches ps failCode k v := by
  obtain ⟨j, hj, hfinds⟩ := h.exists_findsAt hb (by rwa [List.length_reverse]) k
  refine ⟨_, switchOn_eq hb hfinds hj, ?_⟩
  rcases Represents.value h (covers_compilerProbe · hb) hfinds with hmem | ⟨hnone, hval⟩
  · exact .inl (List.mem_reverse.mp hmem)
  · exact .inr ⟨fun v hv => hnone v (List.mem_reverse.mpr hv), hval⟩

end

-- ---------------------------------------------------------------------------
-- Linear tables
-- ---------------------------------------------------------------------------

section

variable {cells : Cells} {failCode : Word}

/-- The pairs are in the entries from the `i`-th on, and an entry with the default ends the table. -/
def Listed (failCode : Word) (cells : Cells) : ℕ → List (Word × Word) → Prop
  | i, [] => cells (2 * i) = 0 ∧ cells (2 * i + 1) = failCode
  | i, (k, v) :: ps => cells (2 * i) = k ∧ cells (2 * i + 1) = v ∧ Listed failCode cells (i + 1) ps

theorem fillEntries_linear {n : ℕ} (hn : ¬ minHashEntries < n) (cells : Cells) (i : ℕ) (ps : List (Word × Word))
    (hend : cells (2 * (i + ps.length)) = 0 ∧ cells (2 * (i + ps.length) + 1) = failCode) :
    ∃ cells', fillEntries n i ps cells = some cells' ∧ Listed failCode cells' i ps ∧
      ∀ c < 2 * i, cells' c = cells c := by
  induction ps generalizing cells i with
  | nil => exact ⟨cells, rfl, hend, fun _ _ => rfl⟩
  | cons p ps ih =>
    obtain ⟨k, v⟩ := p
    rw [List.length_cons] at hend
    have hset : ∀ c, c ≠ 2 * i → c ≠ 2 * i + 1 → cells.setEntry i k v c = cells c := fun c h₀ h₁ => by
      rw [Cells.setEntry, Function.update_of_ne h₁, Function.update_of_ne h₀]
    have hlen : i + 1 + ps.length = i + (ps.length + 1) := by omega
    obtain ⟨cells', hfill, hlisted, hbefore⟩ := ih (cells.setEntry i k v) (i + 1) (by
      rw [hlen, hset _ (by omega) (by omega), hset _ (by omega) (by omega)]
      exact hend)
    refine ⟨cells', ?_, ⟨?_, ?_, hlisted⟩, fun c hc => ?_⟩
    · rw [fillEntries, fetchEntry, if_neg hn, Option.bind_some]
      exact hfill
    · rw [hbefore _ (by omega), Cells.setEntry, Function.update_of_ne (by omega), Function.update_self]
    · rw [hbefore _ (by omega), Cells.setEntry, Function.update_self]
    · rw [hbefore c (by omega), hset c (by omega) (by omega)]

theorem ifTurn_dispatches {i : ℕ} {ps : List (Word × Word)} (h : Listed failCode cells i ps)
    (hzero : ∀ p ∈ ps, p.1 ≠ 0) (k : Word) :
    ∃ v, run (ifTurn cells k) (ps.length + 1) (2 * i) = some v ∧ Dispatches ps failCode k v := by
  induction ps generalizing i with
  | nil =>
    refine ⟨failCode, ?_, .inr ⟨fun v hv => absurd hv List.not_mem_nil, rfl⟩⟩
    rw [run_of_exit (w := failCode)]
    rw [ifTurn, if_neg (fun hne => hne.2 h.1), h.2]
  | cons p ps ih =>
    obtain ⟨k', v'⟩ := p
    obtain ⟨htag, hlabel, hrest⟩ := h
    by_cases hkey : k' = k
    · refine ⟨v', ?_, .inl (hkey ▸ List.mem_cons_self)⟩
      rw [run_of_exit (w := v')]
      rw [ifTurn, if_neg (fun hne => hne.1 (htag.trans hkey)), hlabel]
    · have hturn : ifTurn cells k (2 * i) = .go (2 * (i + 1)) := by
        rw [ifTurn, htag, if_pos ⟨hkey, hzero _ List.mem_cons_self⟩]
        rfl
      obtain ⟨v, hrun, hdisp⟩ := ih hrest fun p hp => hzero p (List.mem_cons_of_mem _ hp)
      refine ⟨v, (run_of_goes hturn _).trans hrun, ?_⟩
      rcases hdisp with hmem | ⟨hnone, hv⟩
      · exact .inl (List.mem_cons_of_mem _ hmem)
      · refine .inr ⟨fun v'' hmem => ?_, hv⟩
        rcases List.mem_cons.mp hmem with heq | hmem
        · exact hkey (Prod.mk.inj heq).1.symm
        · exact hnone v'' hmem

/-- A jump through a linear table, or through one with a single key. -/
theorem if_dispatches {ps : List (Word × Word)} (h : Listed failCode cells 0 ps) (hzero : ∀ p ∈ ps, p.1 ≠ 0)
    (k : Word) : ∃ v, (Switch.mk .if_ ps.length cells).jump k = some v ∧ Dispatches ps failCode k v := by
  obtain ⟨v, hrun, hdisp⟩ := ifTurn_dispatches h hzero k
  have hjump : (Switch.mk .if_ ps.length cells).jump k =
      if ps.length = 1 then some (goOn cells k) else ifOn ps.length cells k := rfl
  refine ⟨v, ?_, hdisp⟩
  by_cases hone : ps.length = 1
  · rw [hjump, if_pos hone]
    obtain ⟨⟨k', v'⟩, rfl⟩ := List.length_eq_one_iff.mp hone
    have htag : cells 0 = k' := h.1
    have hlabel : cells 1 = v' := h.2.1
    have hfail : cells 3 = failCode := h.2.2.2
    refine congrArg some ?_
    rw [goOn, htag, hlabel, hfail]
    rcases hdisp with hmem | ⟨hnone, hv⟩
    · obtain ⟨rfl, rfl⟩ := Prod.mk.inj (List.mem_singleton.mp hmem)
      exact if_pos rfl
    · rw [hv]
      refine if_neg fun heq => hnone v' ?_
      rw [heq]
      exact List.mem_singleton_self _
  · rw [hjump, if_neg hone]
    exact hrun

end

-- ---------------------------------------------------------------------------
-- Runs of clauses
-- ---------------------------------------------------------------------------

section

variable {is : Word → Bool} {key : Word → Word}

theorem clausesOf_eq_nil_iff {cls : List ClauseDef} {k : Word} :
    clausesOf is key cls k = [] ↔ ∀ c ∈ cls, is c.Tag = true → key c.Tag ≠ k := by
  simp [clausesOf, List.filter_eq_nil_iff]

/-- The pairs that the loop of `do_consts` and `do_funcs` puts into the table. -/
structure PairsOf (is : Word → Bool) (key : Word → Word) (label : List ClauseDef → Word) (cls : List ClauseDef)
    (ps : List (Word × Word)) : Prop where
  nodup : (ps.map Prod.fst).Nodup
  mem : ∀ k v, (k, v) ∈ ps ↔ clausesOf is key cls k ≠ [] ∧ v = label (clausesOf is key cls k)

/-- The loop takes all clauses of the kind, run by run. -/
theorem doSwitchLoop_eq (label : List ClauseDef → Word) (hkey : key.Injective) (n : ℕ) {cls : List ClauseDef}
    (hsorted : Sorted cls) (hfirsts : cls.Pairwise fun c c' => is c'.Tag = true → is c.Tag = true) {current : Word}
    (hcurrent : ∀ c ∈ cls, c.Tag ≠ current) {left : ℕ} (hleft : countTags is current cls = left) :
    ∃ ps, ps.length = left ∧ PairsOf is key label cls ps ∧ ∀ i cells,
      doSwitchLoop label key n left i cells cls =
        (fillEntries n i ps cells).map (·, cls.filter fun c => !is c.Tag) := by
  induction left generalizing cls current with
  | zero =>
    have hnone : ∀ c ∈ cls, is c.Tag = false := by
      cases cls with
      | nil => exact fun c hc => absurd hc List.not_mem_nil
      | cons min cls =>
        rw [countTags] at hleft
        have hmin : is min.Tag = false := by
          by_contra hne
          rw [if_pos (Bool.eq_true_of_not_eq_false hne), if_pos (hcurrent min List.mem_cons_self).symm] at hleft
          cases hleft
        intro c hc
        rcases List.mem_cons.mp hc with rfl | hc
        · exact hmin
        · by_contra hne
          have himp := (List.pairwise_cons.mp hfirsts).1 c hc (Bool.eq_true_of_not_eq_false hne)
          rw [hmin] at himp
          cases himp
    refine ⟨[], rfl, ⟨List.nodup_nil, fun k v => ?_⟩, fun i cells => ?_⟩
    · refine ⟨fun h => absurd h List.not_mem_nil, fun h => absurd (clausesOf_eq_nil_iff.mpr fun c hc his => ?_) h.1⟩
      rw [hnone c hc] at his
      cases his
    · have hfilter : (cls.filter fun c => !is c.Tag) = cls :=
        List.filter_eq_self.mpr fun c hc => by rw [hnone c hc]; rfl
      rw [hfilter]
      rfl
  | succ left ih =>
    cases cls with
    | nil => cases hleft
    | cons min cls =>
      have hmin : is min.Tag = true := by
        by_contra hne
        rw [countTags, if_neg hne] at hleft
        cases hleft
      obtain ⟨htake, hdrop⟩ := takeWhile_eq_filter hsorted.run
      -- The clauses after the run.
      have hrest : countTags is min.Tag (cls.dropWhile (·.Tag == min.Tag)) = left := by
        rw [← countTags_dropWhile min.Tag hmin]
        rw [countTags, if_pos hmin, if_pos (hcurrent min List.mem_cons_self).symm] at hleft
        exact Nat.succ.inj hleft
      have hsub : (cls.dropWhile (·.Tag == min.Tag)).Sublist (min :: cls) :=
        (List.dropWhile_sublist _).trans (List.sublist_cons_self _ _)
      obtain ⟨ps, hlen, hpairs, hloop⟩ := ih (hsorted.sublist hsub) (hfirsts.sublist hsub)
        (fun c hc => by
          rw [hdrop] at hc
          simpa using (List.mem_filter.mp hc).2) hrest
      -- The clauses with the key of the run, and those with another one.
      have hrun : clausesOf is key (min :: cls) (key min.Tag) = min :: cls.takeWhile (·.Tag == min.Tag) := by
        rw [clausesOf, List.filter_cons_of_pos (by simp [hmin]), htake]
        congr 1
        refine List.filter_congr fun c _ => Bool.eq_iff_iff.mpr ?_
        simp only [Bool.and_eq_true, beq_iff_eq]
        exact ⟨fun h => hkey h.2, fun h => ⟨h ▸ hmin, congrArg key h⟩⟩
      have hother : ∀ k, k ≠ key min.Tag →
          clausesOf is key (min :: cls) k = clausesOf is key (cls.dropWhile (·.Tag == min.Tag)) k := by
        intro k hk
        rw [clausesOf, List.filter_cons_of_neg (by simp [hmin, Ne.symm hk]), clausesOf, hdrop, List.filter_filter]
        refine List.filter_congr fun c _ => Bool.eq_iff_iff.mpr ?_
        simp only [Bool.and_eq_true, beq_iff_eq, Bool.not_eq_true', beq_eq_false_iff_ne]
        exact ⟨fun h => ⟨⟨h.1, h.2⟩, fun heq => hk (h.2 ▸ congrArg key heq)⟩, fun h => h.1⟩
      have hgone : clausesOf is key (cls.dropWhile (·.Tag == min.Tag)) (key min.Tag) = [] := by
        rw [clausesOf_eq_nil_iff, hdrop]
        intro c hc _ heq
        have hne := (List.mem_filter.mp hc).2
        rw [hkey heq] at hne
        simp at hne
      refine ⟨(key min.Tag, label (min :: cls.takeWhile (·.Tag == min.Tag))) :: ps, by rw [List.length_cons, hlen],
        ⟨?_, fun k v => ?_⟩, fun i cells => ?_⟩
      · rw [List.map_cons, List.nodup_cons]
        refine ⟨fun hmem => ?_, hpairs.nodup⟩
        obtain ⟨⟨k, v⟩, hp, hk⟩ := List.mem_map.mp hmem
        have hk' : k = key min.Tag := hk
        exact ((hpairs.mem k v).mp hp).1 (hk' ▸ hgone)
      · by_cases hk : k = key min.Tag
        · rw [hk, hrun, List.mem_cons]
          constructor
          · rintro (heq | hmem)
            · exact ⟨List.cons_ne_nil _ _, (Prod.mk.inj heq).2⟩
            · exact absurd hgone ((hpairs.mem _ v).mp hmem).1
          · rintro ⟨-, rfl⟩
            exact .inl rfl
        · rw [hother k hk, ← hpairs.mem k v, List.mem_cons]
          exact ⟨fun h => h.resolve_left fun heq => hk (Prod.mk.inj heq).1, .inr⟩
      · have hfilter : ((min :: cls).filter fun c => !is c.Tag) =
            (cls.dropWhile (·.Tag == min.Tag)).filter fun c => !is c.Tag := by
          rw [List.filter_cons_of_neg (by simp [hmin]), hdrop, List.filter_filter]
          refine List.filter_congr fun c _ => Bool.eq_iff_iff.mpr ?_
          simp only [Bool.and_eq_true, Bool.not_eq_true', beq_eq_false_iff_ne]
          exact ⟨fun h => ⟨h, fun heq => by rw [heq, hmin] at h; cases h⟩, fun h => h.1⟩
        rw [doSwitchLoop, fillEntries, hfilter]
        cases hfetch : fetchEntry cells (key min.Tag) i n with
        | none => rfl
        | some e => exact hloop (i + 1) _

variable {label : List ClauseDef → Word} {cls : List ClauseDef} {ps : List (Word × Word)}

theorem PairsOf.exists_clause (h : PairsOf is key label cls ps) {p : Word × Word} (hp : p ∈ ps) :
    ∃ c ∈ cls, is c.Tag = true ∧ key c.Tag = p.1 := by
  have hne := ((h.mem p.1 p.2).mp hp).1
  rw [Ne, clausesOf_eq_nil_iff] at hne
  push Not at hne
  exact hne

/-- There is one pair for each key. -/
theorem PairsOf.length_eq (h : PairsOf is key label cls ps) (hkey : key.Injective) : ps.length = keyCount is cls := by
  have himage : (ps.map Prod.fst).toFinset =
      (((cls.filter (is ·.Tag)).map (·.Tag)).toFinset).image key := by
    ext k
    simp only [List.mem_toFinset, List.mem_map, Finset.mem_image, List.mem_filter]
    constructor
    · rintro ⟨p, hp, rfl⟩
      obtain ⟨c, hc, his, hk⟩ := h.exists_clause hp
      exact ⟨c.Tag, ⟨c, ⟨hc, his⟩, rfl⟩, hk⟩
    · rintro ⟨_, ⟨c, ⟨hc, his⟩, rfl⟩, rfl⟩
      refine ⟨(key c.Tag, _), (h.mem _ _).mpr ⟨fun hnil => ?_, rfl⟩, rfl⟩
      exact clausesOf_eq_nil_iff.mp hnil c hc his rfl
  rw [keyCount, ← Finset.card_image_of_injective _ hkey, ← himage, List.toFinset_card_of_nodup h.nodup,
    List.length_map]

theorem PairsOf.target_eq (h : PairsOf is key label cls ps) {failCode k v : Word}
    (hdisp : Dispatches ps failCode k v) : v = target is key label failCode cls k := by
  rw [target]
  rcases hdisp with hmem | ⟨hnone, rfl⟩
  · obtain ⟨hne, hv⟩ := (h.mem k v).mp hmem
    rw [if_neg hne, hv]
  · refine (if_pos ?_).symm
    by_contra hne
    exact hnone _ ((h.mem k _).mpr ⟨hne, rfl⟩)

end

end Yap.Indexing
