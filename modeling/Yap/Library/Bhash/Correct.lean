-- SUMMARY: Runs of the hash table operations answer as runs on a finite map, with every probe ending within the size of the table.
import Yap.Library.Bhash.Invariant

/-!
# Hash tables as finite maps

The map of a state gives each key the value of the equal key in the table. Every
operation acts on it as on a map, with any bound on the probes from the size of
the table on; a run is a run of the maps.
-/

namespace Yap

namespace Bhash

open Probing

variable {κ ν : Type*} {f : Functions κ}

-- ---------------------------------------------------------------------------
-- Maps
-- ---------------------------------------------------------------------------

def putMap (f : Functions κ) (key : κ) (val : ν) (map : κ → Option ν) (key' : κ) : Option ν :=
  if f.cmpF key key' then some val else map key'

/-- The operations on maps, with the value they return. -/
def modelStep (f : Functions κ) : Op κ ν → (κ → Option ν) → Option (Option ν × (κ → Option ν))
  | .insert key newVal, map => some (none, putMap f key newVal map)
  | .insertNew key newVal, map => if (map key).isSome then none else some (none, putMap f key newVal map)
  | .update key newVal, map => if (map key).isSome then some (none, putMap f key newVal map) else none
  | .update4 key newVal, map => (map key).map fun oldVal => (some oldVal, putMap f key newVal map)
  | .lookup key, map => (map key).map fun val => (some val, map)

def modelRun (f : Functions κ) : List (Op κ ν) → (κ → Option ν) → List (Option (Option ν)) × (κ → Option ν)
  | [], map => ([], map)
  | op :: ops, map =>
    match modelStep f op map with
    | none => (none :: (modelRun f ops map).1, (modelRun f ops map).2)
    | some q => (some q.1 :: (modelRun f ops q.2).1, (modelRun f ops q.2).2)

/-- The state after any number of insertions: a free position is left, and every value is stored. -/
structure Good (f : Functions κ) (s : State κ ν) : Prop where
  wf : Wf f s.pos s.table
  count : (occupied s.table).card = s.n
  room : s.n < s.size
  stored : ∀ i m, s.table.vals i = some m → m < s.mutables.length

def Represents (f : Functions κ) (s : State κ ν) (map : κ → Option ν) : Prop :=
  ∀ key val, map key = some val ↔ ∃ k m, Entry s.table k m ∧ f.cmpF k key = true ∧ s.mutables[m]? = some val

theorem good_bHashNew (f : Functions κ) (size : ℕ) (pos : 0 < size) :
    Good f (bHashNew size pos : State κ ν) where
  wf := wf_emptyTable f size pos
  count := by simp [bHashNew, occupied, emptyTable]
  room := pos
  stored i m hm := by cases hm

theorem represents_bHashNew (f : Functions κ) (size : ℕ) (pos : 0 < size) :
    Represents f (bHashNew size pos : State κ ν) fun _ => none := by
  intro key val
  refine iff_of_false (by simp) ?_
  rintro ⟨k, m, he, -⟩
  exact not_entry_emptyTable size k m he

-- ---------------------------------------------------------------------------
-- Searches
-- ---------------------------------------------------------------------------

section Search

variable {s : State κ ν} {map : κ → Option ν} (h : Good f s) (hrep : Represents f s map)

include h hrep

/-- The key is in the map, and its search ends at it; or it is not, and its search ends at the free
position where it belongs. -/
theorem Good.search (key : κ) :
    ∃ d < s.size, First (stopKey f s.table key) (f.hashF key s.size s.pos) d ∧
      ((∃ k m val, s.table.keys (rot (f.hashF key s.size s.pos) d) = some k ∧ f.cmpF k key = true ∧
          s.table.vals (rot (f.hashF key s.size s.pos) d) = some m ∧ s.mutables[m]? = some val ∧
          map key = some val) ∨
        s.table.keys (rot (f.hashF key s.size s.pos) d) = none ∧
          (∀ d' < d, s.table.keys (rot (f.hashF key s.size s.pos) d') ≠ none) ∧
          (∀ i k, s.table.keys i = some k → f.cmpF k key = false) ∧ map key = none) := by
  obtain ⟨d, hd, hfirst, hfound | ⟨hfree, hpath, hnew⟩⟩ := h.wf.search (exists_free (h.count ▸ h.room)) key
  · obtain ⟨k, hk, hcmp⟩ := hfound
    obtain ⟨m, hm⟩ := h.wf.entry hk
    have hval := List.getElem?_eq_getElem (h.stored _ m hm)
    exact ⟨d, hd, hfirst, .inl ⟨k, m, _, hk, hcmp, hm, hval, (hrep key _).mpr ⟨k, m, ⟨_, hk, hm⟩, hcmp, hval⟩⟩⟩
  · refine ⟨d, hd, hfirst, .inr ⟨hfree, hpath, hnew, ?_⟩⟩
    refine Option.eq_none_iff_forall_ne_some.mpr fun val hmap => ?_
    obtain ⟨k, m, ⟨i, hk, -⟩, hcmp, -⟩ := (hrep key val).mp hmap
    rw [hnew i k hk] at hcmp
    cases hcmp

/-- A fetched key has its value in a mutable term; a key that is not in the map is not fetched. -/
theorem Good.fetchKey (key : κ) :
    (∃ i k m val, (∀ n ≥ s.size, fetchKey f s.table key n (f.hashF key s.size s.pos) = .ok i) ∧
        s.table.keys i = some k ∧
        f.cmpF k key = true ∧ s.table.vals i = some m ∧ s.mutables[m]? = some val ∧ map key = some val) ∨
      (∀ n ≥ s.size, fetchKey f s.table key n (f.hashF key s.size s.pos) = .fail) ∧ map key = none := by
  obtain ⟨d, hd, hfirst, hfound | ⟨hfree, -, -, hmap⟩⟩ := h.search hrep key
  · obtain ⟨k, m, val, hk, hrest⟩ := hfound
    refine .inl ⟨_, k, m, val, fun n hn => ?_, hk, hrest⟩
    rw [fetchKey_first hfirst (hd.trans_le hn), hk]
  · refine .inr ⟨fun n hn => ?_, hmap⟩
    rw [fetchKey_first hfirst (hd.trans_le hn), hfree]

theorem Good.lookup {n : ℕ} (hn : s.size ≤ n) (key : κ) :
    bHashLookup f n key s = match map key with
      | some val => .ok val
      | none => .fail := by
  unfold bHashLookup
  obtain ⟨i, k, m, val, heq, -, -, hm, hval, hmap⟩ | ⟨heq, hmap⟩ := h.fetchKey hrep key
  · simp [heq n hn, hmap, mutableOf, hm, getMutable, hval]
  · simp [heq n hn, hmap]

end Search

-- ---------------------------------------------------------------------------
-- Changes of the state
-- ---------------------------------------------------------------------------

/-- A new value in the mutable term of a key. -/
theorem Good.updateMutable {s : State κ ν} {map : κ → Option ν} (h : Good f s) (hrep : Represents f s map)
    {i : Fin s.size} {k key : κ} {m : ℕ} (hk : s.table.keys i = some k) (hcmp : f.cmpF k key = true)
    (hm : s.table.vals i = some m) (newVal : ν) :
    Good f (updateMutable s newVal m) ∧ Represents f (updateMutable s newVal m) (putMap f key newVal map) := by
  refine ⟨⟨h.wf, h.count, h.room, fun j m' hj => ?_⟩, fun key' val => ?_⟩
  · simpa [Bhash.updateMutable] using h.stored j m' hj
  · have hlen : m < s.mutables.length := h.stored i m hm
    -- the entries of keys equal to this one are the entry of its mutable term
    have hsame : ∀ k' m', Entry s.table k' m' → f.cmpF k' key' = true → (f.cmpF key key' = true ↔ m' = m) := by
      rintro k' m' ⟨j, hk', hm'⟩ hcmp'
      constructor
      · intro hkey
        have hkk : f.cmpF k' k = true :=
          f.equivalence.trans hcmp' (f.equivalence.symm (f.equivalence.trans hcmp hkey))
        obtain rfl := h.wf.single j i k' k hk' hk hkk
        exact Option.some.inj (hm'.symm.trans hm)
      · rintro rfl
        obtain rfl := h.wf.owner j i m' hm' hm
        obtain rfl := Option.some.inj (hk'.symm.trans hk)
        exact f.equivalence.trans (f.equivalence.symm hcmp) hcmp'
    simp only [putMap, Bhash.updateMutable, List.getElem?_set]
    by_cases hkey : f.cmpF key key' = true
    · rw [if_pos hkey]
      constructor
      · rintro ⟨⟩
        exact ⟨k, m, ⟨i, hk, hm⟩, f.equivalence.trans hcmp hkey, by simp [hlen]⟩
      · rintro ⟨k', m', he, hcmp', hval⟩
        obtain rfl := (hsame k' m' he hcmp').mp hkey
        simpa [hlen] using hval
    · rw [if_neg hkey, hrep]
      refine exists_congr fun k' => exists_congr fun m' => and_congr_right fun he => and_congr_right fun hcmp' => ?_
      rw [if_neg fun heq => hkey ((hsame k' m' he hcmp').mpr heq.symm)]

/-- A new key at the position where its search ended, in the table as it is or in the larger one. -/
theorem Good.addElement {s : State κ ν} {map : κ → Option ν} (h : Good f s) (hrep : Represents f s map)
    {key : κ} {d : ℕ}
    (hfree : s.table.keys (rot (f.hashF key s.size s.pos) d) = none)
    (hpath : ∀ d' < d, s.table.keys (rot (f.hashF key s.size s.pos) d') ≠ none)
    (hnew : ∀ i k, s.table.keys i = some k → f.cmpF k key = false) (newVal : ν) :
    ∃ s', (∀ n ≥ newSize s.size, addElement f n s (rot (f.hashF key s.size s.pos) d) key newVal = .ok s') ∧
      Good f s' ∧ Represents f s' (putMap f key newVal map) := by
  have howner : ∀ i, s.table.vals i ≠ some s.mutables.length := fun i hi => lt_irrefl _ (h.stored i _ hi)
  have hwf := h.wf.put hfree rfl hpath hnew howner
  have hput := fun k m => entry_put hfree key s.mutables.length k m ((h.wf.valued _).mp hfree)
  have hcard := card_occupied_put hfree key (some s.mutables.length)
  have hold : ∀ k m, Entry s.table k m → m < s.mutables.length := by
    rintro k m ⟨i, -, hm⟩
    exact h.stored i m hm
  -- what holds of every table with the entries of the old one and the new entry
  have hstored : ∀ {size' : ℕ} (t : Table κ size') (pos' : 0 < size'), Wf f pos' t →
      (∀ k m, Entry t k m ↔ k = key ∧ m = s.mutables.length ∨ Entry s.table k m) →
      ∀ i m, t.vals i = some m → m < (s.mutables ++ [newVal]).length := by
    intro size' t pos' ht hentry i m hm
    obtain ⟨k, hk⟩ := ht.key hm
    obtain ⟨-, rfl⟩ | he := (hentry k m).mp ⟨i, hk, hm⟩
    · simp
    · simpa using Nat.lt_succ_of_lt (hold k m he)
  have hmap : ∀ {size' : ℕ} (t : Table κ size') (pos' : 0 < size'),
      (∀ k m, Entry t k m ↔ k = key ∧ m = s.mutables.length ∨ Entry s.table k m) →
      Represents f ⟨size', pos', t, s.n + 1, s.mutables ++ [newVal]⟩ (putMap f key newVal map) := by
    intro size' t pos' hentry key' val
    unfold putMap
    by_cases hkey : f.cmpF key key' = true
    · rw [if_pos hkey]
      constructor
      · rintro ⟨⟩
        exact ⟨key, s.mutables.length, (hentry _ _).mpr (.inl ⟨rfl, rfl⟩), hkey, by simp⟩
      · rintro ⟨k, m, he, hcmp, hval⟩
        obtain ⟨rfl, rfl⟩ | ⟨i, hk, -⟩ := (hentry k m).mp he
        · simpa using hval
        · have heq := f.equivalence.trans hcmp (f.equivalence.symm hkey)
          exact absurd (hnew i k hk) (by simp [heq])
    · rw [if_neg hkey, hrep]
      constructor
      · rintro ⟨k, m, he, hcmp, hval⟩
        exact ⟨k, m, (hentry k m).mpr (.inr he), hcmp, by rw [List.getElem?_append_left (hold k m he), hval]⟩
      · rintro ⟨k, m, he, hcmp, hval⟩
        obtain ⟨rfl, rfl⟩ | he := (hentry k m).mp he
        · exact absurd hcmp hkey
        · exact ⟨k, m, he, hcmp, by rwa [List.getElem?_append_left (hold k m he)] at hval⟩
  unfold Bhash.addElement
  split_ifs with hgrow
  · obtain ⟨t, heq, ht, hentry⟩ := expandArray_spec hwf
    have hentry' : ∀ k m, Entry t k m ↔ k = key ∧ m = s.mutables.length ∨ Entry s.table k m := fun k m =>
      (hentry k m).trans (hput k m)
    have hcard' : (occupied t).card = s.n + 1 := by
      rw [← h.count, ← hcard]
      exact le_antisymm (card_occupied_le ht hwf fun k m => (hentry k m).mp)
        (card_occupied_le hwf ht fun k m => (hentry k m).mpr)
    refine ⟨_, fun n hn => by rw [heq n hn]; rfl, ⟨ht, hcard', ?_, hstored t _ ht hentry'⟩, hmap t _ hentry'⟩
    exact lt_of_le_of_lt h.room (lt_newSize s.pos)
  · refine ⟨_, fun _ _ => rfl, ⟨hwf, by rw [hcard, h.count], ?_, hstored _ _ hwf hput⟩, hmap _ _ hput⟩
    have := h.room
    change s.n + 1 < s.size
    omega

-- ---------------------------------------------------------------------------
-- Insertions
-- ---------------------------------------------------------------------------

section First

variable {s : State κ ν} {key : κ} {i : Fin s.size} {d n : ℕ} (h : First (stopKey f s.table key) i d)
  (hn : d < n) (m : ℕ) (newVal : ν)

include h hn

theorem findOrInsert_first :
    findOrInsert f m s key newVal n i = match s.table.keys (rot i d) with
      | none => addElement f m s (rot i d) key newVal
      | some _ => (mutableOf s (rot i d)).bind fun mutable => .ok (updateMutable s newVal mutable) :=
  searchKey_first (findOrInsert f m s key newVal) (fun j => addElement f m s j key newVal)
    (fun j => (mutableOf s j).bind fun mutable => .ok (updateMutable s newVal mutable))
    (fun n j hk => by simp [findOrInsert, hk])
    (fun n j el hk hcmp => by simp [findOrInsert, hk, hcmp])
    (fun n j el hk hcmp => by simp [findOrInsert, hk, hcmp]) h hn

theorem findOrInsertNew_first :
    findOrInsertNew f m s key newVal n i = match s.table.keys (rot i d) with
      | none => addElement f m s (rot i d) key newVal
      | some _ => .fail :=
  searchKey_first (findOrInsertNew f m s key newVal) (fun j => addElement f m s j key newVal) (fun _ => .fail)
    (fun n j hk => by simp [findOrInsertNew, hk])
    (fun n j el hk hcmp => by simp [findOrInsertNew, hk, hcmp])
    (fun n j el hk hcmp => by simp [findOrInsertNew, hk, hcmp]) h hn

end First

section Steps

variable {s : State κ ν} {map : κ → Option ν} (h : Good f s) (hrep : Represents f s map)

include h hrep

theorem Good.insert (key : κ) (newVal : ν) :
    ∃ s', (∀ n ≥ newSize s.size, bHashInsert f n s key newVal = .ok s') ∧ Good f s' ∧
      Represents f s' (putMap f key newVal map) := by
  have hlt : ∀ n ≥ newSize s.size, s.size < n := fun n hn => (lt_newSize s.pos).trans_le hn
  unfold bHashInsert
  obtain ⟨d, hd, hfirst, hfound | ⟨hfree, hpath, hnew, -⟩⟩ := h.search hrep key
  · obtain ⟨k, m, val, hk, hcmp, hm, -⟩ := hfound
    obtain ⟨hgood, hrep'⟩ := h.updateMutable hrep hk hcmp hm newVal
    refine ⟨_, fun n hn => ?_, hgood, hrep'⟩
    rw [findOrInsert_first hfirst (hd.trans (hlt n hn)), hk]
    simp [mutableOf, hm]
  · obtain ⟨s', heq, hgood⟩ := h.addElement hrep hfree hpath hnew newVal
    refine ⟨s', fun n hn => ?_, hgood⟩
    rw [findOrInsert_first hfirst (hd.trans (hlt n hn)), hfree]
    exact heq n hn

theorem Good.insertNew (key : κ) (newVal : ν) :
    (∃ val, map key = some val ∧ ∀ n ≥ newSize s.size, bHashInsertNew f n s key newVal = .fail) ∨
      map key = none ∧ ∃ s', (∀ n ≥ newSize s.size, bHashInsertNew f n s key newVal = .ok s') ∧ Good f s' ∧
        Represents f s' (putMap f key newVal map) := by
  have hlt : ∀ n ≥ newSize s.size, s.size < n := fun n hn => (lt_newSize s.pos).trans_le hn
  unfold bHashInsertNew
  obtain ⟨d, hd, hfirst, hfound | ⟨hfree, hpath, hnew, hmap⟩⟩ := h.search hrep key
  · obtain ⟨k, m, val, hk, -, -, -, hmap⟩ := hfound
    refine .inl ⟨val, hmap, fun n hn => ?_⟩
    rw [findOrInsertNew_first hfirst (hd.trans (hlt n hn)), hk]
  · obtain ⟨s', heq, hgood⟩ := h.addElement hrep hfree hpath hnew newVal
    refine .inr ⟨hmap, s', fun n hn => ?_, hgood⟩
    rw [findOrInsertNew_first hfirst (hd.trans (hlt n hn)), hfree]
    exact heq n hn

/-- Every operation does what it does to the map. -/
theorem Good.step (op : Op κ ν) :
    (modelStep f op map = none → ∀ n ≥ newSize s.size, step f n op s = .fail) ∧
      ∀ q, modelStep f op map = some q →
        ∃ s', (∀ n ≥ newSize s.size, step f n op s = .ok (q.1, s')) ∧ Good f s' ∧ Represents f s' q.2 := by
  have hle : ∀ n ≥ newSize s.size, s.size ≤ n := fun n hn => (lt_newSize s.pos).le.trans hn
  cases op with
  | insert key newVal =>
    refine ⟨fun hnone => absurd hnone (Option.some_ne_none _), fun q hq => ?_⟩
    cases hq
    obtain ⟨s', heq, hgood⟩ := h.insert hrep key newVal
    exact ⟨s', fun n hn => by simp [Bhash.step, heq n hn], hgood⟩
  | insertNew key newVal =>
    simp only [modelStep, Bhash.step]
    obtain ⟨val, hmap, heq⟩ | ⟨hmap, s', heq, hgood⟩ := h.insertNew hrep key newVal
    · rw [hmap]
      exact ⟨fun _ n hn => by rw [heq n hn]; rfl, fun q hq => absurd hq (Option.some_ne_none q).symm⟩
    · rw [hmap]
      refine ⟨fun hnone => absurd hnone (Option.some_ne_none _), fun q hq => ?_⟩
      cases hq
      exact ⟨s', fun n hn => by rw [heq n hn]; rfl, hgood⟩
  | update key newVal =>
    simp only [modelStep, Bhash.step, bHashUpdate]
    obtain ⟨i, k, m, val, heq, hk, hcmp, hm, hval, hmap⟩ | ⟨heq, hmap⟩ := h.fetchKey hrep key
    · rw [hmap]
      refine ⟨fun hnone => absurd hnone (Option.some_ne_none _), fun q hq => ?_⟩
      cases hq
      exact ⟨_, fun n hn => by simp [heq n (hle n hn), mutableOf, hm], h.updateMutable hrep hk hcmp hm newVal⟩
    · rw [hmap]
      exact ⟨fun _ n hn => by rw [heq n (hle n hn)]; rfl, fun q hq => absurd hq (Option.some_ne_none q).symm⟩
  | update4 key newVal =>
    simp only [modelStep, Bhash.step, bHashUpdate4]
    obtain ⟨i, k, m, val, heq, hk, hcmp, hm, hval, hmap⟩ | ⟨heq, hmap⟩ := h.fetchKey hrep key
    · rw [hmap]
      refine ⟨fun hnone => absurd hnone (Option.some_ne_none _), fun q hq => ?_⟩
      cases hq
      exact ⟨_, fun n hn => by simp [heq n (hle n hn), mutableOf, hm, getMutable, hval],
        h.updateMutable hrep hk hcmp hm newVal⟩
    · rw [hmap]
      exact ⟨fun _ n hn => by rw [heq n (hle n hn)]; rfl, fun q hq => absurd hq (Option.some_ne_none q).symm⟩
  | lookup key =>
    simp only [modelStep, Bhash.step]
    cases hmap : map key with
    | none =>
      refine ⟨fun _ n hn => ?_, fun q hq => absurd hq (Option.some_ne_none q).symm⟩
      rw [h.lookup hrep (hle n hn) key, hmap]
      rfl
    | some val =>
      refine ⟨fun hnone => absurd hnone (Option.some_ne_none _), fun q hq => ?_⟩
      cases hq
      refine ⟨s, fun n hn => ?_, h, hrep⟩
      rw [h.lookup hrep (hle n hn) key, hmap]
      rfl

end Steps

-- ---------------------------------------------------------------------------
-- Runs
-- ---------------------------------------------------------------------------

theorem run_refines {s : State κ ν} {map : κ → Option ν} (h : Good f s) (hrep : Represents f s map)
    (ops : List (Op κ ν)) :
    ∃ n₀ s', (∀ n ≥ n₀, run f n ops s = .ok ((modelRun f ops map).1, s')) ∧ Good f s' ∧
      Represents f s' (modelRun f ops map).2 := by
  induction ops generalizing s map with
  | nil => exact ⟨0, s, fun _ _ => rfl, h, hrep⟩
  | cons op ops ih =>
    obtain ⟨hfail, hok⟩ := h.step hrep op
    rw [modelRun]
    cases hmodel : modelStep f op map with
    | none =>
      obtain ⟨n₀, s', hrun, hend⟩ := ih h hrep
      refine ⟨max n₀ (newSize s.size), s', fun n hn => ?_, hend⟩
      rw [run, hfail hmodel n (le_of_max_le_right hn), hrun n (le_of_max_le_left hn)]
      rfl
    | some q =>
      obtain ⟨s₁, heq, hgood, hrep'⟩ := hok q hmodel
      obtain ⟨n₀, s', hrun, hend⟩ := ih hgood hrep'
      refine ⟨max n₀ (newSize s.size), s', fun n hn => ?_, hend⟩
      rw [run, heq n (le_of_max_le_right hn)]
      simp only [hrun n (le_of_max_le_left hn), Fueled.bind_ok]

/-- **Refinement.** Every run on a new table answers as the run on the empty map, for every large
enough bound on the probes, and so do lookups at its end. -/
theorem b_hash_refines_map (f : Functions κ) {size : ℕ} (pos : 0 < size) (ops : List (Op κ ν)) :
    ∃ n₀ s, ∀ n ≥ n₀, run f n ops (bHashNew size pos) = .ok ((modelRun f ops fun _ => none).1, s) ∧
      ∀ key, bHashLookup f n key s = match (modelRun f ops fun _ => none).2 key with
        | some val => .ok val
        | none => .fail := by
  obtain ⟨n₀, s, hrun, hgood, hrep⟩ := run_refines (good_bHashNew f size pos) (represents_bHashNew f size pos) ops
  refine ⟨max n₀ s.size, s, fun n hn => ⟨hrun n (le_of_max_le_left hn), fun key => ?_⟩⟩
  exact hgood.lookup hrep (le_of_max_le_right hn) key

/-- Three insertions into a table of one element, with every key at the first position. -/
theorem b_hash_refines_map_three :
    ∃ n₀ s, ∀ n ≥ n₀, run (Functions.identical (κ := ℕ) fun _ _ pos => ⟨0, pos⟩) n
        [.insert 1 10, .insert 2 20, .insert 1 30, .lookup 1] (bHashNew 1 Nat.one_pos) =
      .ok ([some none, some none, some none, some (some (30 : ℕ))], s) := by
  obtain ⟨n₀, s, h⟩ := b_hash_refines_map (Functions.identical (κ := ℕ) fun _ _ pos => ⟨0, pos⟩) Nat.one_pos
    [.insert 1 10, .insert 2 20, .insert 1 30, .lookup (ν := ℕ) 1]
  exact ⟨n₀, s, fun n hn => (h n hn).1⟩

end Bhash

end Yap
