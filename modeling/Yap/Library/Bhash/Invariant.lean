-- SUMMARY: Well-formed hash tables: every key is reached by probing from its hash, and what searches, a new key and growth do to them.
import Yap.Library.Bhash.Code

/-!
# Well-formed tables

Every key stands at a position that probing from its hash reaches over keys
only, and no two positions have equal keys. A search then ends at the key or at
the free position where the key belongs. Growth puts the keys one by one into
an empty table and keeps their mutable terms.
-/

namespace Yap

namespace Bhash

open Probing

variable {κ : Type*} {size : ℕ} {f : Functions κ} {pos : 0 < size}

structure Wf (f : Functions κ) (pos : 0 < size) (t : Table κ size) : Prop where
  reach : ∀ i k, t.keys i = some k → ∃ d, rot (f.hashF k size pos) d = i ∧
    ∀ d' < d, t.keys (rot (f.hashF k size pos) d') ≠ none
  single : ∀ i j k k', t.keys i = some k → t.keys j = some k' → f.cmpF k k' = true → i = j
  valued : ∀ i, t.keys i = none ↔ t.vals i = none
  owner : ∀ i j m, t.vals i = some m → t.vals j = some m → i = j

/-- A key of the table and its mutable term. -/
def Entry (t : Table κ size) (k : κ) (m : ℕ) : Prop := ∃ i, t.keys i = some k ∧ t.vals i = some m

def occupied (t : Table κ size) : Finset (Fin size) := Finset.univ.filter fun i => (t.keys i).isSome

theorem mem_occupied {t : Table κ size} {i : Fin size} : i ∈ occupied t ↔ t.keys i ≠ none := by
  simp [occupied, Option.isSome_iff_ne_none]

theorem exists_free {t : Table κ size} (h : (occupied t).card < size) : ∃ i, t.keys i = none := by
  by_contra hall
  push Not at hall
  have huniv : occupied t = Finset.univ := Finset.eq_univ_of_forall fun i => mem_occupied.mpr (hall i)
  rw [huniv, Finset.card_univ, Fintype.card_fin] at h
  exact lt_irrefl _ h

theorem Wf.entry {t : Table κ size} (h : Wf f pos t) {i : Fin size} {k : κ} (hi : t.keys i = some k) :
    ∃ m, t.vals i = some m := by
  refine Option.ne_none_iff_exists'.mp fun hnone => ?_
  rw [(h.valued i).mpr hnone] at hi
  cases hi

theorem Wf.key {t : Table κ size} (h : Wf f pos t) {i : Fin size} {m : ℕ} (hi : t.vals i = some m) :
    ∃ k, t.keys i = some k := by
  refine Option.ne_none_iff_exists'.mp fun hnone => ?_
  rw [(h.valued i).mp hnone] at hi
  cases hi

theorem wf_emptyTable (f : Functions κ) (size : ℕ) (pos : 0 < size) : Wf f pos (emptyTable size) where
  reach i k hk := by cases hk
  single i j k k' hk := by cases hk
  valued _ := iff_of_true rfl rfl
  owner i j m hm := by cases hm

theorem not_entry_emptyTable (size : ℕ) (k : κ) (m : ℕ) : ¬ Entry (emptyTable size) k m := by
  rintro ⟨i, hk, -⟩
  cases hk

-- ---------------------------------------------------------------------------
-- Searches
-- ---------------------------------------------------------------------------

/-- Where the search for a key ends. -/
def stopKey (f : Functions κ) (t : Table κ size) (key : κ) (i : Fin size) : Bool :=
  match t.keys i with
  | none => true
  | some el => f.cmpF el key

/-- Where the search for a free position ends. -/
def stopFree (t : Table κ size) (i : Fin size) : Bool := (t.keys i).isNone

/-- The search ends at an equal key, or at the free position that belongs to the key. -/
theorem Wf.search {t : Table κ size} (h : Wf f pos t) (hfree : ∃ i, t.keys i = none) (key : κ) :
    ∃ d < size, First (stopKey f t key) (f.hashF key size pos) d ∧
      ((∃ k, t.keys (rot (f.hashF key size pos) d) = some k ∧ f.cmpF k key = true) ∨
        t.keys (rot (f.hashF key size pos) d) = none ∧
          (∀ d' < d, t.keys (rot (f.hashF key size pos) d') ≠ none) ∧
          ∀ i k, t.keys i = some k → f.cmpF k key = false) := by
  obtain ⟨j, hj⟩ := hfree
  obtain ⟨d, hd, hfirst⟩ := exists_first (stopKey f t key) (j := j) (by simp [stopKey, hj])
    (f.hashF key size pos)
  refine ⟨d, hd, hfirst, ?_⟩
  have hstops := hfirst.stops
  unfold stopKey at hstops
  split at hstops
  case h_2 k hk => exact .inl ⟨k, hk, hstops⟩
  case h_1 hnone =>
    have hpath : ∀ d' < d, t.keys (rot (f.hashF key size pos) d') ≠ none := fun d' hd' hn => by
      have hgo := hfirst.before d' hd'
      simp [stopKey, hn] at hgo
    refine .inr ⟨hnone, hpath, fun i k hk => Bool.eq_false_of_not_eq_true fun heq => ?_⟩
    -- the path to an equal key starts at the same position
    obtain ⟨d₁, hd₁, hpath₁⟩ := h.reach i k hk
    rw [f.respects k key heq] at hd₁ hpath₁
    rcases lt_trichotomy d₁ d with hlt | rfl | hgt
    · have hgo := hfirst.before d₁ hlt
      simp [stopKey, hd₁, hk, heq] at hgo
    · rw [hd₁, hk] at hnone
      cases hnone
    · exact hpath₁ d hgt hnone

/-- What a search for a key does where it ends. -/
theorem searchKey_first {β : Type*} {t : Table κ size} {key : κ} (search : ℕ → Fin size → β)
    (free found : Fin size → β) (hfree : ∀ n i, t.keys i = none → search (n + 1) i = free i)
    (hfound : ∀ n i el, t.keys i = some el → f.cmpF el key = true → search (n + 1) i = found i)
    (hgo : ∀ n i el, t.keys i = some el → f.cmpF el key = false → search (n + 1) i = search n (next i))
    {i : Fin size} {d n : ℕ} (h : First (stopKey f t key) i d) (hn : d < n) :
    search n i = match t.keys (rot i d) with
      | none => free (rot i d)
      | some _ => found (rot i d) := by
  refine search_first search (fun j => match t.keys j with
    | none => free j
    | some _ => found j) (fun n j hj => ?_) (fun n j hj => ?_) h hn
  · unfold stopKey at hj
    cases hk : t.keys j with
    | none => exact hfree n j hk
    | some el =>
      rw [hk] at hj
      exact hfound n j el hk hj
  · unfold stopKey at hj
    cases hk : t.keys j with
    | none =>
      rw [hk] at hj
      cases hj
    | some el =>
      rw [hk] at hj
      exact hgo n j el hk hj

theorem fetchKey_first {t : Table κ size} {key : κ} {i : Fin size} {d n : ℕ} (h : First (stopKey f t key) i d)
    (hn : d < n) :
    fetchKey f t key n i = match t.keys (rot i d) with
      | none => .fail
      | some _ => .ok (rot i d) :=
  searchKey_first (fetchKey f t key) (fun _ => .fail) .ok (fun n j hk => by simp [fetchKey, hk])
    (fun n j el hk hcmp => by simp [fetchKey, hk, hcmp]) (fun n j el hk hcmp => by simp [fetchKey, hk, hcmp]) h hn

theorem findFree_first {t : Table κ size} {i : Fin size} {d n : ℕ} (h : First (stopFree t) i d) (hn : d < n) :
    findFree t n i = .ok (rot i d) := by
  refine search_first (findFree t) .ok (fun n j hj => ?_) (fun n j hj => ?_) h hn
  · rw [findFree, Option.isNone_iff_eq_none.mp hj]
  · obtain ⟨k, hk⟩ := Option.isSome_iff_exists.mp (Option.isNone_eq_false_iff.mp hj)
    rw [findFree, hk]

-- ---------------------------------------------------------------------------
-- New keys
-- ---------------------------------------------------------------------------

section Put

variable {t : Table κ size} {r : Fin size} (hr : t.keys r = none)

include hr

theorem entry_put (key : κ) (m : ℕ) (k : κ) (m' : ℕ) (hval : t.vals r = none) :
    Entry (t.put r key (some m)) k m' ↔ k = key ∧ m' = m ∨ Entry t k m' := by
  constructor
  · rintro ⟨i, hk, hm⟩
    simp only [Table.put, Function.update_apply] at hk hm
    split_ifs at hk hm with heq
    · cases hk
      cases hm
      exact .inl ⟨rfl, rfl⟩
    · exact .inr ⟨i, hk, hm⟩
  · rintro (⟨rfl, rfl⟩ | ⟨i, hk, hm⟩)
    · exact ⟨r, by simp [Table.put], by simp [Table.put]⟩
    · have hne : i ≠ r := by
        rintro rfl
        rw [hr] at hk
        cases hk
      exact ⟨i, by simp [Table.put, hne, hk], by simp [Table.put, hne, hm]⟩

theorem card_occupied_put (key : κ) (val : Option ℕ) :
    (occupied (t.put r key val)).card = (occupied t).card + 1 := by
  have hinsert : occupied (t.put r key val) = insert r (occupied t) := by
    ext i
    rw [Finset.mem_insert, mem_occupied, mem_occupied]
    by_cases heq : i = r
    · simp [Table.put, heq]
    · simp [Table.put, heq]
  rw [hinsert, Finset.card_insert_of_notMem fun hmem => mem_occupied.mp hmem hr]

/-- A key that is not in the table goes to the free position that its search ends at. -/
theorem Wf.put (h : Wf f pos t) {key : κ} {m d : ℕ} (hd : rot (f.hashF key size pos) d = r)
    (hpath : ∀ d' < d, t.keys (rot (f.hashF key size pos) d') ≠ none)
    (hnew : ∀ i k, t.keys i = some k → f.cmpF k key = false) (hm : ∀ i, t.vals i ≠ some m) :
    Wf f pos (t.put r key (some m)) := by
  have hkeys : ∀ i k, (t.put r key (some m)).keys i = some k → i = r ∧ k = key ∨ i ≠ r ∧ t.keys i = some k := by
    intro i k hk
    by_cases heq : i = r
    · subst heq
      exact .inl ⟨rfl, by simpa [Table.put, eq_comm] using hk⟩
    · exact .inr ⟨heq, by simpa [Table.put, heq] using hk⟩
  have hvals : ∀ i m', (t.put r key (some m)).vals i = some m' → i = r ∧ m' = m ∨ i ≠ r ∧ t.vals i = some m' := by
    intro i m' hi
    by_cases heq : i = r
    · subst heq
      exact .inl ⟨rfl, by simpa [Table.put, eq_comm] using hi⟩
    · exact .inr ⟨heq, by simpa [Table.put, heq] using hi⟩
  have hkept : ∀ i, t.keys i ≠ none → (t.put r key (some m)).keys i ≠ none := by
    intro i hi
    by_cases heq : i = r
    · simp [Table.put, heq]
    · simpa [Table.put, heq] using hi
  refine ⟨fun i k hk => ?_, fun i j k k' hk hk' hcmp => ?_, fun i => ?_, fun i j m' hi hj => ?_⟩
  · obtain ⟨rfl, rfl⟩ | ⟨-, hold⟩ := hkeys i k hk
    · exact ⟨d, hd, fun d' hd' => hkept _ (hpath d' hd')⟩
    · obtain ⟨d₁, hd₁, hpath₁⟩ := h.reach i k hold
      exact ⟨d₁, hd₁, fun d' hd' => hkept _ (hpath₁ d' hd')⟩
  · obtain ⟨rfl, rfl⟩ | ⟨-, hold⟩ := hkeys i k hk
    · obtain ⟨rfl, -⟩ | ⟨-, hold'⟩ := hkeys j k' hk'
      · rfl
      · exact absurd (f.equivalence.symm hcmp) (by simp [hnew j k' hold'])
    · obtain ⟨rfl, rfl⟩ | ⟨-, hold'⟩ := hkeys j k' hk'
      · exact absurd hcmp (by simp [hnew i k hold])
      · exact h.single i j k k' hold hold' hcmp
  · by_cases heq : i = r
    · simp [Table.put, heq]
    · simpa [Table.put, heq] using h.valued i
  · obtain ⟨rfl, rfl⟩ | ⟨-, hold⟩ := hvals i m' hi
    · obtain ⟨rfl, -⟩ | ⟨-, hold'⟩ := hvals j m' hj
      · rfl
      · exact absurd hold' (hm j)
    · obtain ⟨rfl, rfl⟩ | ⟨-, hold'⟩ := hvals j m' hj
      · exact absurd hold (hm i)
      · exact h.owner i j m' hold hold'

end Put

-- ---------------------------------------------------------------------------
-- Growth
-- ---------------------------------------------------------------------------

/-- The entries of a table stand at as many positions of another table that has them too. -/
theorem card_occupied_le {size' : ℕ} {pos' : 0 < size'} {t : Table κ size} {t' : Table κ size'}
    (h : Wf f pos t) (h' : Wf f pos' t') (hsub : ∀ k m, Entry t k m → Entry t' k m) :
    (occupied t).card ≤ (occupied t').card := by
  refine Finset.card_le_card_of_forall_subsingleton (fun i j => t.vals i = t'.vals j) (fun i hi => ?_) ?_
  · obtain ⟨k, hk⟩ := Option.ne_none_iff_exists'.mp (mem_occupied.mp hi)
    obtain ⟨m, hm⟩ := h.entry hk
    obtain ⟨j, hkj, hmj⟩ := hsub k m ⟨i, hk, hm⟩
    exact ⟨j, mem_occupied.mpr (by simp [hkj]), hm.trans hmj.symm⟩
  · rintro j hj i₁ ⟨-, hi₁⟩ i₂ ⟨-, hi₂⟩
    obtain ⟨k, hk⟩ := Option.ne_none_iff_exists'.mp (mem_occupied.mp hj)
    obtain ⟨m, hm⟩ := h'.entry hk
    exact h.owner i₁ i₂ m (hi₁.trans hm) (hi₂.trans hm)

/-- The keys below a position are added to those of the new table. -/
theorem copyHashTable_spec {newSize : ℕ} {t : Table κ size} (h : Wf f pos t) (hpos : 0 < newSize)
    (hlt : size < newSize) (i : ℕ) (hi : i ≤ size) {new : Table κ newSize}
    (hnew : Wf f hpos new)
    (hsource : ∀ k m, Entry new k m → ∃ j : Fin size, i ≤ j ∧ t.keys j = some k ∧ t.vals j = some m) :
    ∃ t', (∀ n ≥ newSize, copyHashTable f n t hpos i hi new = .ok t') ∧ Wf f hpos t' ∧
      ∀ k m, Entry t' k m ↔ (∃ j : Fin size, j.1 < i ∧ t.keys j = some k ∧ t.vals j = some m) ∨ Entry new k m := by
  induction i generalizing new with
  | zero => exact ⟨new, fun _ _ => rfl, hnew, fun k m => by simp⟩
  | succ i ih =>
    simp only [copyHashTable]
    cases hkey : t.keys ⟨i, hi⟩ with
    | none =>
      obtain ⟨t', heq, hwf, hentry⟩ := ih (Nat.le_of_succ_le hi) hnew fun k m he => by
        obtain ⟨j, hj, hrest⟩ := hsource k m he
        exact ⟨j, Nat.le_of_succ_le hj, hrest⟩
      refine ⟨t', heq, hwf, fun k m => (hentry k m).trans (or_congr_left ?_)⟩
      constructor
      · rintro ⟨j, hj, hrest⟩
        exact ⟨j, Nat.lt_succ_of_lt hj, hrest⟩
      · rintro ⟨j, hj, hk, hm⟩
        refine ⟨j, lt_of_le_of_ne (Nat.le_of_lt_succ hj) fun hji => ?_, hk, hm⟩
        obtain rfl : j = ⟨i, hi⟩ := Fin.ext hji
        rw [hkey] at hk
        cases hk
    | some key =>
      obtain ⟨m, hval⟩ := h.entry hkey
      have hroom : ∃ j, new.keys j = none := exists_free <| lt_of_le_of_lt
        (card_occupied_le hnew h fun k m he => by
          obtain ⟨j, -, hrest⟩ := hsource k m he
          exact ⟨j, hrest⟩)
        (lt_of_le_of_lt ((Finset.card_le_univ _).trans (Fintype.card_fin size).le) hlt)
      obtain ⟨j, hj⟩ := hroom
      obtain ⟨d, hd, hfirst⟩ := exists_first (stopFree new) (j := j) (by simp [stopFree, hj])
        (f.hashF key newSize hpos)
      have hfree : new.keys (rot (f.hashF key newSize hpos) d) = none :=
        Option.isNone_iff_eq_none.mp hfirst.stops
      have hpath : ∀ d' < d, new.keys (rot (f.hashF key newSize hpos) d') ≠ none := fun d' hd' hnone => by
        have hgo := hfirst.before d' hd'
        simp [stopFree, hnone] at hgo
      -- keys and mutable terms of the new table come from other positions
      have hcmp : ∀ j k, new.keys j = some k → f.cmpF k key = false := by
        intro j k hk
        obtain ⟨m', hm'⟩ := hnew.entry hk
        obtain ⟨j', hj', hk', -⟩ := hsource k m' ⟨j, hk, hm'⟩
        refine Bool.eq_false_of_not_eq_true fun heq => ?_
        have hsame := h.single j' ⟨i, hi⟩ k key hk' hkey heq
        rw [hsame] at hj'
        exact absurd hj' (Nat.not_succ_le_self i)
      have howner : ∀ j, new.vals j ≠ some m := by
        intro j hm
        obtain ⟨k, hk⟩ := hnew.key hm
        obtain ⟨j', hj', -, hm'⟩ := hsource k m ⟨j, hk, hm⟩
        have hsame := h.owner j' ⟨i, hi⟩ m hm' hval
        rw [hsame] at hj'
        exact absurd hj' (Nat.not_succ_le_self i)
      have hwf := hnew.put hfree rfl hpath hcmp howner
      have hput := fun k m' => entry_put hfree key m k m' ((hnew.valued _).mp hfree)
      obtain ⟨t', heq, hwf', hentry⟩ := ih (Nat.le_of_succ_le hi) hwf fun k m' he => by
        obtain ⟨rfl, rfl⟩ | he := (hput k m').mp he
        · exact ⟨⟨i, hi⟩, le_rfl, hkey, hval⟩
        · obtain ⟨j, hj, hrest⟩ := hsource k m' he
          exact ⟨j, Nat.le_of_succ_le hj, hrest⟩
      refine ⟨t', fun n hn => ?_, hwf', fun k m' => ?_⟩
      · simp only [insertEl, findFree_first hfirst (hd.trans_le hn), Fueled.bind_ok, hval]
        exact heq n hn
      · rw [hentry, hput, ← or_assoc]
        refine or_congr_left ⟨?_, ?_⟩
        · rintro (⟨j, hj, hrest⟩ | ⟨rfl, rfl⟩)
          · exact ⟨j, Nat.lt_succ_of_lt hj, hrest⟩
          · exact ⟨⟨i, hi⟩, Nat.lt_succ_self i, hkey, hval⟩
        · rintro ⟨j, hj, hk, hm⟩
          cases Nat.lt_succ_iff_lt_or_eq.mp hj with
          | inl hj => exact .inl ⟨j, hj, hk, hm⟩
          | inr hji =>
            obtain rfl : j = ⟨i, hi⟩ := Fin.ext hji
            exact .inr ⟨Option.some.inj (hk.symm.trans hkey), Option.some.inj (hm.symm.trans hval)⟩

/-- Growth keeps the entries. -/
theorem expandArray_spec {t : Table κ size} (h : Wf f pos t) :
    ∃ t', (∀ n ≥ newSize size, expandArray f n pos t = .ok t') ∧ Wf f (pos.trans (lt_newSize pos)) t' ∧
      ∀ k m, Entry t' k m ↔ Entry t k m := by
  obtain ⟨t', heq, hwf, hentry⟩ := copyHashTable_spec h (pos.trans (lt_newSize pos)) (lt_newSize pos) size
    le_rfl (wf_emptyTable f _ _) fun k m he => absurd he (not_entry_emptyTable _ k m)
  refine ⟨t', heq, hwf, fun k m => ?_⟩
  rw [hentry, or_iff_left (not_entry_emptyTable _ k m)]
  constructor
  · rintro ⟨j, -, hrest⟩
    exact ⟨j, hrest⟩
  · rintro ⟨j, hrest⟩
    exact ⟨j, j.isLt, hrest⟩

end Bhash

end Yap
