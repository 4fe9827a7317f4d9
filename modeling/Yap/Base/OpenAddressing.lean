-- SUMMARY: Hash tables with open addressing: the slots along the probe sequence of a key, insertion at the first free one, and what a search finds.
import Mathlib

/-!
# Open addressing

Every key has a sequence of slots. A key is put into the first slot of its
sequence that is free, and a search goes along the sequence until it comes to the
key or to a free slot. No key is removed.
-/

namespace OpenAddressing

variable {κ β : Type*}

/-- A search for the key stops at this slot. -/
def Stops (free : κ) (tag : ℕ → κ) (k : κ) (s : ℕ) : Prop := tag s = k ∨ tag s = free

/-- The search along the probe sequence `p` stops after so many steps. -/
structure FindsAt (free : κ) (tag : ℕ → κ) (p : ℕ → ℕ) (k : κ) (j : ℕ) : Prop where
  stops : Stops free tag k (p j)
  before : ∀ i < j, ¬ Stops free tag k (p i)

/-- The first `size` probes come to all slots, and none leaves them. -/
structure Covers (size : ℕ) (p : ℕ → ℕ) : Prop where
  lt : ∀ j, p j < size
  exists_eq : ∀ s < size, ∃ j < size, p j = s

/-- The table holds these keys with these values, each in one slot and where a search finds
    it, and the default value in the free slots. -/
structure Represents (free : κ) (default : β) (size : ℕ) (p : κ → ℕ → ℕ) (tag : ℕ → κ) (val : ℕ → β)
    (m : List (κ × β)) : Prop where
  ne_free : ∀ k v, (k, v) ∈ m → k ≠ free
  found : ∀ k v, (k, v) ∈ m → ∃ j, FindsAt free tag (p k) k j ∧ tag (p k j) = k ∧ val (p k j) = v
  key : ∀ s < size, tag s ≠ free → ∃ v, (tag s, v) ∈ m
  default : ∀ s < size, tag s = free → val s = default
  once : ∀ s < size, ∀ s' < size, tag s ≠ free → tag s = tag s' → s = s'

variable {free : κ} {default : β} {size : ℕ} {p : κ → ℕ → ℕ} {tag : ℕ → κ} {val : ℕ → β} {m : List (κ × β)}

theorem FindsAt.unique {p : ℕ → ℕ} {k : κ} {j j' : ℕ} (h : FindsAt free tag p k j)
    (h' : FindsAt free tag p k j') : j = j' := by
  rcases lt_trichotomy j j' with hlt | heq | hgt
  · exact absurd h.stops (h'.before j hlt)
  · exact heq
  · exact absurd h'.stops (h.before j' hgt)

/-- A free slot ends every search within one round. -/
theorem exists_findsAt {p : ℕ → ℕ} (hp : Covers size p) {s : ℕ} (hs : s < size) (hfree : tag s = free) (k : κ) :
    ∃ j < size, FindsAt free tag p k j := by
  classical
  obtain ⟨j, hj, rfl⟩ := hp.exists_eq s hs
  have hex : ∃ j, Stops free tag k (p j) := ⟨j, .inr hfree⟩
  exact ⟨Nat.find hex, (Nat.find_min' hex (.inr hfree)).trans_lt hj, Nat.find_spec hex,
    fun i hi => Nat.find_min hex hi⟩

namespace Represents

/-- The table with free slots only. -/
theorem empty (htag : ∀ s < size, tag s = free) (hval : ∀ s < size, val s = default) :
    Represents free default size p tag val [] where
  ne_free _ _ h := absurd h List.not_mem_nil
  found _ _ h := absurd h List.not_mem_nil
  key s hs h := absurd (htag s hs) h
  default s hs _ := hval s hs
  once s hs _ _ h := absurd (htag s hs) h

/-- More slots than keys leave a slot free. -/
theorem exists_free (h : Represents free default size p tag val m) (hlt : m.length < size) :
    ∃ s < size, tag s = free := by
  classical
  by_contra hnone
  push Not at hnone
  have hmaps : ∀ s ∈ Finset.range size, tag s ∈ (m.map Prod.fst).toFinset := by
    intro s hs
    obtain ⟨v, hv⟩ := h.key s (Finset.mem_range.mp hs) (hnone s (Finset.mem_range.mp hs))
    exact List.mem_toFinset.mpr (List.mem_map.mpr ⟨_, hv, rfl⟩)
  have hinj : Set.InjOn tag (Finset.range size) := by
    intro s hs s' hs' heq
    rw [Finset.coe_range] at hs hs'
    exact h.once s hs s' hs' (hnone s hs) heq
  have hcard := Finset.card_le_card_of_injOn tag hmaps hinj
  rw [Finset.card_range] at hcard
  have hle := List.toFinset_card_le (m.map Prod.fst)
  rw [List.length_map] at hle
  omega

/-- What a search comes to: the slot of the key with its value, or a free one. -/
theorem value (h : Represents free default size p tag val m) (hp : ∀ k, Covers size (p k)) {k : κ} {j : ℕ}
    (hj : FindsAt free tag (p k) k j) :
    (k, val (p k j)) ∈ m ∨ ((∀ v, (k, v) ∉ m) ∧ val (p k j) = default) := by
  by_cases hmem : ∃ v, (k, v) ∈ m
  · obtain ⟨v, hv⟩ := hmem
    obtain ⟨j', hj', -, rfl⟩ := h.found k v hv
    rw [hj.unique hj']
    exact .inl hv
  · push Not at hmem
    refine .inr ⟨hmem, h.default _ ((hp k).lt j) ?_⟩
    rcases hj.stops with hkey | hfree
    · by_contra hne
      obtain ⟨v, hv⟩ := h.key _ ((hp k).lt j) hne
      exact hmem v (hkey ▸ hv)
    · exact hfree

/-- The search for a key that is not there comes to a free slot. -/
theorem free_of_findsAt (h : Represents free default size p tag val m) (hp : ∀ k, Covers size (p k)) {k : κ}
    {j : ℕ} (hk : ∀ v, (k, v) ∉ m) (hj : FindsAt free tag (p k) k j) : tag (p k j) = free := by
  by_contra hne
  obtain ⟨v, hv⟩ := h.key _ ((hp k).lt j) hne
  exact hk v (hj.stops.resolve_right hne ▸ hv)

/-- A new key is put where the search for it stops. -/
theorem insert (h : Represents free default size p tag val m) (hp : ∀ k, Covers size (p k)) {k : κ} {v : β}
    {j : ℕ} (hne : k ≠ free) (hk : ∀ v, (k, v) ∉ m) (hj : FindsAt free tag (p k) k j) :
    Represents free default size p (Function.update tag (p k j) k) (Function.update val (p k j) v) ((k, v) :: m) := by
  have hfree := h.free_of_findsAt hp hk hj
  -- Slots that are taken stay as they are.
  have hslot : ∀ s, tag s ≠ free → s ≠ p k j := by
    rintro s hs rfl
    exact hs hfree
  have htaken : ∀ s, tag s ≠ free → Function.update tag (p k j) k s = tag s := fun s hs =>
    Function.update_of_ne (hslot s hs) k tag
  constructor
  · rintro k' v' hmem
    rcases List.mem_cons.mp hmem with heq | hmem
    · exact (Prod.mk.inj heq).1 ▸ hne
    · exact h.ne_free k' v' hmem
  · rintro k' v' hmem
    rcases List.mem_cons.mp hmem with heq | hmem
    · obtain ⟨rfl, rfl⟩ := Prod.mk.inj heq
      refine ⟨j, ⟨.inl (Function.update_self ..), fun i hi => ?_⟩, Function.update_self .., Function.update_self ..⟩
      have hstops := hj.before i hi
      rw [Stops, htaken _ fun heq => hstops (.inr heq)]
      exact hstops
    · obtain ⟨j', hj', htag, hval⟩ := h.found k' v' hmem
      have hne' : tag (p k' j') ≠ free := by
        rw [htag]
        exact h.ne_free k' v' hmem
      refine ⟨j', ⟨.inl ((htaken _ hne').trans htag), fun i hi => ?_⟩, (htaken _ hne').trans htag, ?_⟩
      · have hstops := hj'.before i hi
        rw [Stops, htaken _ fun heq => hstops (.inr heq)]
        exact hstops
      · rw [Function.update_of_ne (hslot _ hne')]
        exact hval
  · intro s hs hfree'
    by_cases hs' : s = p k j
    · subst hs'
      rw [Function.update_self]
      exact ⟨v, List.mem_cons_self⟩
    · rw [Function.update_of_ne hs'] at hfree' ⊢
      obtain ⟨v', hv'⟩ := h.key s hs hfree'
      exact ⟨v', List.mem_cons_of_mem _ hv'⟩
  · intro s hs hfree'
    by_cases hs' : s = p k j
    · subst hs'
      exact absurd ((Function.update_self ..).symm.trans hfree') hne
    · rw [Function.update_of_ne hs'] at hfree' ⊢
      exact h.default s hs hfree'
  · -- The new key was in no slot.
    have hnew : ∀ s < size, tag s ≠ k := by
      rintro s hs rfl
      obtain ⟨v', hv'⟩ := h.key s hs hne
      exact hk v' hv'
    intro s hs s' hs' hfree' heq
    by_cases hs₀ : s = p k j <;> by_cases hs₁ : s' = p k j
    · exact hs₀.trans hs₁.symm
    · rw [hs₀, Function.update_self, Function.update_of_ne hs₁] at heq
      exact absurd heq.symm (hnew s' hs')
    · rw [hs₁, Function.update_self, Function.update_of_ne hs₀] at heq
      exact absurd heq (hnew s hs)
    · rw [Function.update_of_ne hs₀] at hfree' heq
      rw [Function.update_of_ne hs₁] at heq
      exact h.once s hs s' hs' hfree' heq

end Represents

end OpenAddressing
