-- SUMMARY: reachable/3 of library(ugraphs): the search through a work list, and that it agrees with the transitive closure.
import Yap.Library.Ugraphs.Relations
import Yap.Library.Ordsets.Operations
import Yap.Base.Fueled

/-!
# Reachable vertices

The search keeps the vertices it has found as an ordered set and the ones it
has not looked at as a list. Each call takes a vertex off the list and puts the
neighbours that are new to the set at its end.
-/

namespace Yap

namespace Ugraphs

open Ordsets Relation

variable {α : Type*} [LinearOrder α]

-- ---------------------------------------------------------------------------
-- Code
-- ---------------------------------------------------------------------------

def neighbours (v : α) : UGraph α → Option (List α)
  | [] => none
  | (v0, neig) :: g => if v = v0 then some neig else neighbours v g

/-- `reachable/4`. -/
def reachable4 (g : UGraph α) : ℕ → List α → List α → Fueled (List α)
  | 0, _, _ => .more
  | _ + 1, [], rs => .ok rs
  | calls + 1, n :: ns, rs0 =>
    match neighbours n g with
    | none => .fail
    | some nei =>
      let (rs1, d) := ordUnion4 rs0 nei
      reachable4 g calls (ns ++ d) rs1

def reachable (calls : ℕ) (n : α) (g : UGraph α) : Fueled (List α) := reachable4 g calls [n] [n]

-- ---------------------------------------------------------------------------
-- The search
-- ---------------------------------------------------------------------------

theorem neighbours_eq_value (v : α) (g : UGraph α) : neighbours v g = Assoc.value v g := by
  induction g with
  | nil => rfl
  | cons p g ih =>
    obtain ⟨v0, neig⟩ := p
    rw [neighbours]
    split_ifs with heq
    · simp [Assoc.value, heq]
    · rw [ih]
      simp [Assoc.value, Ne.symm heq]

/-- The neighbours of a vertex, as the targets of its edges. -/
theorem Wf.neighbours_eq {g : UGraph α} (h : Wf g) {v : α} (hv : v ∈ Ugraphs.vertices g) :
    ∃ nei, Ugraphs.neighbours v g = some nei ∧ OrdSet nei ∧ ∀ w, w ∈ nei ↔ Edge g v w := by
  obtain ⟨p, hp, rfl⟩ := List.mem_map.mp hv
  refine ⟨p.2, ?_, h.neighbours p hp, fun w => h.mem_row hp⟩
  rw [neighbours_eq_value]
  exact (Assoc.value_eq_some (sorted_iff.mpr h.vertices)).mpr hp

theorem neighbours_eq_none {g : UGraph α} {v : α} (hv : v ∉ vertices g) : neighbours v g = none := by
  rw [neighbours_eq_value, Assoc.value_eq_none]
  rintro e he rfl
  exact hv (List.mem_map_of_mem he)

/-- The search from a vertex: what it has found is reachable, and closed at the vertices it has
looked at. -/
structure Searching (g : UGraph α) (n : α) (work seen : List α) : Prop where
  ordSet : OrdSet seen
  start : n ∈ seen
  found : ∀ v ∈ work, v ∈ seen
  inside : ∀ v ∈ seen, v ∈ vertices g
  reached : ∀ v ∈ seen, ReflTransGen (Edge g) n v
  closed : ∀ v ∈ seen, v ∉ work → ∀ w, Edge g v w → w ∈ seen

variable {g : UGraph α} {n : α} {work seen : List α}

theorem Searching.step (hg : Wf g) {v : α} {nei : List α} (h : Searching g n (v :: work) seen)
    (hord : OrdSet nei) (hnei : ∀ w, w ∈ nei ↔ Edge g v w) :
    Searching g n (work ++ ordSubtract nei seen) (ordUnion seen nei) := by
  have hv := h.found v List.mem_cons_self
  have hnew : ∀ w, w ∈ ordSubtract nei seen ↔ w ∈ nei ∧ w ∉ seen := fun w =>
    mem_ordSubtract hord (h.ordSet.imp le_of_lt)
  refine ⟨ordSet_ordUnion h.ordSet hord, mem_ordUnion.mpr (.inl h.start), fun w hw => ?_, fun w hw => ?_,
    fun w hw => ?_, fun w hw hnot x hx => ?_⟩
  · cases List.mem_append.mp hw with
    | inl hw => exact mem_ordUnion.mpr (.inl (h.found w (List.mem_cons_of_mem _ hw)))
    | inr hw => exact mem_ordUnion.mpr (.inr ((hnew w).mp hw).1)
  · exact (mem_ordUnion.mp hw).elim (h.inside w) fun hw => hg.target ((hnei w).mp hw)
  · exact (mem_ordUnion.mp hw).elim (h.reached w) fun hw => (h.reached v hv).tail ((hnei w).mp hw)
  · rw [List.mem_append, not_or, hnew] at hnot
    have hseen : w ∈ seen := by
      by_contra hns
      exact hnot.2 ⟨(mem_ordUnion.mp hw).resolve_left hns, hns⟩
    by_cases heq : w = v
    · subst heq
      exact mem_ordUnion.mpr (.inr ((hnei x).mpr hx))
    · have hrest : w ∉ v :: work := fun hmem => hnot.1 ((List.mem_cons.mp hmem).resolve_left heq)
      exact mem_ordUnion.mpr (.inl (h.closed w hseen hrest x hx))

theorem Searching.length_le (h : Searching g n work seen) : seen.length ≤ (vertices g).length :=
  (h.ordSet.nodup.subperm h.inside).length_le

/-- Each call takes a vertex off the list, and what it adds to the list it adds to the set. -/
theorem reachable4_spec (hg : Wf g) {calls : ℕ} (h : Searching g n work seen)
    (hcalls : work.length + ((vertices g).length - seen.length) < calls) :
    ∃ rs, reachable4 g calls work seen = .ok rs ∧ Searching g n [] rs := by
  induction calls generalizing work seen with
  | zero => omega
  | succ calls ih =>
    cases work with
    | nil => exact ⟨seen, rfl, h⟩
    | cons v work =>
      obtain ⟨nei, heq, hord, hnei⟩ := hg.neighbours_eq (h.inside v (h.found v List.mem_cons_self))
      have hstep := h.step hg hord hnei
      have hlen := length_ordUnion h.ordSet hord
      have hle := hstep.length_le
      rw [reachable4, heq]
      dsimp only
      rw [ordUnion4_eq h.ordSet hord]
      refine ih hstep ?_
      rw [List.length_cons] at hcalls
      dsimp only
      rw [List.length_append]
      omega

theorem searching_start (hn : n ∈ vertices g) : Searching g n [n] [n] where
  ordSet := List.pairwise_singleton _ _
  start := List.mem_singleton_self n
  found _ hv := hv
  inside _ hv := List.mem_singleton.mp hv ▸ hn
  reached _ hv := List.mem_singleton.mp hv ▸ .refl
  closed _ hv hnot := absurd hv hnot

theorem Searching.mem_iff (h : Searching g n [] seen) (v : α) : v ∈ seen ↔ ReflTransGen (Edge g) n v :=
  Closure.mem_iff_reaches (s := {v | v ∈ seen}) h.start h.reached
    (fun v hv w he => h.closed v hv List.not_mem_nil w he) v

theorem reachable_spec (hg : Wf g) (hn : n ∈ vertices g) :
    ∃ rs, Fueled.Finally (fun calls => reachable calls n g) (.ok rs) ∧ OrdSet rs ∧
      ∀ v, v ∈ rs ↔ ReflTransGen (Edge g) n v := by
  have hrun : ∀ calls > (vertices g).length,
      ∃ rs, reachable calls n g = .ok rs ∧ Searching g n [] rs := by
    intro calls hcalls
    have hpos := List.length_pos_of_mem hn
    exact reachable4_spec hg (searching_start hn) (by rw [List.length_singleton]; omega)
  obtain ⟨rs, -, hrs⟩ := hrun _ (Nat.lt_succ_self _)
  refine ⟨rs, ⟨(vertices g).length + 1, fun calls hcalls => ?_⟩, hrs.ordSet, hrs.mem_iff⟩
  obtain ⟨rs', heq, hrs'⟩ := hrun calls hcalls
  have hsame : rs' = rs := hrs'.ordSet.ext hrs.ordSet fun v => (hrs'.mem_iff v).trans (hrs.mem_iff v).symm
  exact hsame ▸ heq

/-- The search from what is not a vertex fails at once. -/
theorem reachable_of_not_mem (hn : n ∉ vertices g) : Fueled.Finally (fun calls => reachable calls n g) .fail := by
  refine (Fueled.finally_const Fueled.fail).call fun calls => ?_
  rw [reachable, reachable4, neighbours_eq_none hn]

-- ---------------------------------------------------------------------------
-- The closure and the search
-- ---------------------------------------------------------------------------

/-- The closure is the relation of non-empty paths, the search finds what is at the end of a path,
and what it finds is the vertex with its row of the closure. -/
theorem closure_and_reachable (hg : Wf g) :
    ∃ c, transitiveClosure g = some c ∧ Represents c (· ∈ vertices g) (TransGen (Edge g)) ∧
      (∀ n ∈ vertices g, ∃ rs, Fueled.Finally (fun calls => reachable calls n g) (.ok rs) ∧ OrdSet rs ∧
        (∀ v, v ∈ rs ↔ ReflTransGen (Edge g) n v) ∧ ∀ v, v ∈ rs ↔ v = n ∨ Edge c n v) ∧
      ∀ n ∉ vertices g, Fueled.Finally (fun calls => reachable calls n g) .fail := by
  obtain ⟨c, hc, hrep⟩ := transitiveClosure_represents hg
  refine ⟨c, hc, hrep, fun n hn => ?_, fun n hn => reachable_of_not_mem hn⟩
  obtain ⟨rs, hrun, hord, hmem⟩ := reachable_spec hg hn
  refine ⟨rs, hrun, hord, hmem, fun v => ?_⟩
  rw [hmem, hrep.edges, reflTransGen_iff_eq_or_transGen]

/-- A cycle, a self-loop and an isolated vertex. -/
def loops : UGraph ℕ := [(1, [2]), (2, [1, 3]), (3, [3]), (4, [])]

theorem wf_loops : Wf loops := ⟨by decide, by decide, by decide⟩

theorem closure_and_reachable_loops :
    ∃ c, transitiveClosure loops = some c ∧ Represents c (· ∈ vertices loops) (TransGen (Edge loops)) ∧
      (∀ n ∈ vertices loops, ∃ rs, Fueled.Finally (fun calls => reachable calls n loops) (.ok rs) ∧ OrdSet rs ∧
        (∀ v, v ∈ rs ↔ ReflTransGen (Edge loops) n v) ∧ ∀ v, v ∈ rs ↔ v = n ∨ Edge c n v) ∧
      ∀ n ∉ vertices loops, Fueled.Finally (fun calls => reachable calls n loops) .fail :=
  closure_and_reachable wf_loops

end Ugraphs

end Yap
