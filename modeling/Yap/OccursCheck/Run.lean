-- SUMMARY: The turns of the loop with occurs check by cases, its runs, which keep the memory behind the links finite and so end, and what resetting their trail undoes.
import Yap.OccursCheck.Detect

/-!
# Runs with occurs check

A turn that goes on is a turn of the loop without the check. A run is left at once
when a search finds a cycle, so the memory behind the links holds finite terms in
every state that a run goes on from.
-/

namespace Yap

open Relation

variable {hp : Heap} {regs : Registers} {R : Finset Addr} {σ : Addr → Term} {s : Store}

-- ---------------------------------------------------------------------------
-- Searches from a cell
-- ---------------------------------------------------------------------------

/-- The search from a cell finds no cycle exactly when the cell unfolds. -/
theorem rationalTreeCell_eq_some (hR : Closed hp R s.cell) {a : Addr} (ha : a ∈ R) {turns : ℕ}
    {found : Bool} (h : rationalTreeCell hp turns s a = some found) :
    found = false ↔ ∃ u, Unfolds hp s.cell (.ref a) u := by
  obtain ⟨turns', found', hrun, hfound⟩ := exists_search (l := a) (n := 1) hR fun x hx => by
    rw [remaining_one] at hx
    exact List.mem_singleton.mp hx ▸ ha
  have hmax := TreeState.run_le (Nat.le_max_left turns turns') h
  obtain rfl : found = found' := Option.some.inj (hmax.symm.trans (hrun _ (Nat.le_max_right ..)))
  rw [hfound, remaining_one]
  simp

theorem exists_rationalTreeCell (hR : Closed hp R s.cell) {a : Addr} (ha : a ∈ R) :
    ∃ turns found, ∀ turns', turns ≤ turns' → rationalTreeCell hp turns' s a = some found := by
  obtain ⟨turns, found, hrun, -⟩ := exists_search (l := a) (n := 1) hR fun x hx => by
    rw [remaining_one] at hx
    exact List.mem_singleton.mp hx ▸ ha
  exact ⟨turns, found, hrun⟩

-- ---------------------------------------------------------------------------
-- Turns
-- ---------------------------------------------------------------------------

/-- What a turn of the loop with occurs check does. -/
inductive OCStep (hp : Heap) (regs : Registers) (st : UnifyState) : OCTurn → Prop where
  | move {st' : UnifyState} : Move hp st st' → OCStep hp regs st (.go st' [])
  | bind {a : Addr} {c : Cell} (hb : Binds hp st a c) :
      (∀ d, c = .nonvar d → ∃ u, Unfolds hp (st.bind hp hb.step).store.cell (.ref a) u) →
      OCStep hp regs st (.go (st.bind hp hb.step) (trailGlobal regs a))
  | fail : st.turn hp = .exit false → OCStep hp regs st (.exit false st [])
  | cyclic {st' : UnifyState} : Move hp st st' → st.frame.pt0 < st.frame.pt0End →
      (¬ ∃ u, Unfolds hp st.store.cell (.ref st.frame.pt0) u) → OCStep hp regs st (.exit false st' [])
  | cyclicBind {a : Addr} {c : Cell} (hb : Binds hp st a c) :
      (¬ ∃ u, Unfolds hp (st.bind hp hb.step).store.cell (.ref a) u) →
      OCStep hp regs st (.exit false (st.bind hp hb.step) (trailGlobal regs a))
  | done : st.turn hp = .exit true → OCStep hp regs st (.exit true st [])

theorem InRegion.pt0_mem {st : UnifyState} (h : InRegion hp R st) (hlt : st.frame.pt0 < st.frame.pt0End) :
    st.frame.pt0 ∈ R := by
  refine (h.pairs (st.frame.pt0, st.frame.pt1) ?_).1
  rw [UnifyState.pairs_next hlt]
  exact List.mem_cons_self ..

/-- Every turn is one of these. -/
theorem InRegion.ocStep {st : UnifyState} (h : InRegion hp R st) {turns : ℕ} {T : OCTurn}
    (hturn : st.ocTurn hp regs turns = some T) : OCStep hp regs st T := by
  unfold UnifyState.ocTurn at hturn
  split at hturn
  case isTrue hlt =>
    split at hturn
    case h_1 hstep =>
      obtain rfl := Option.some.inj hturn
      exact .fail (exit_of_fail hlt hstep)
    case h_2 hstep =>
      split at hturn
      case isTrue =>
        obtain ⟨found, hfound, rfl⟩ := Option.map_eq_some_iff.mp hturn
        have hiff := rationalTreeCell_eq_some h.closed (h.pt0_mem hlt) hfound
        cases found with
        | false => exact .move (.next hlt hstep)
        | true => exact .cyclic (.next hlt hstep) hlt fun hu => by simpa using hiff.mpr hu
      case isFalse =>
        obtain rfl := Option.some.inj hturn
        exact .move (.next hlt hstep)
    case h_3 a b hstep =>
      obtain rfl := Option.some.inj hturn
      exact .bind ⟨hlt, hstep⟩ (by rintro d ⟨⟩)
    case h_4 a d hstep =>
      have hb : Binds hp st a (.nonvar d) := ⟨hlt, hstep⟩
      obtain ⟨found, hfound, rfl⟩ := Option.map_eq_some_iff.mp hturn
      have hiff := rationalTreeCell_eq_some (h.binds hb).closed (hb.within h).1 hfound
      cases found with
      | false => exact .bind hb fun _ _ => hiff.mp rfl
      | true => exact .cyclicBind hb fun hu => by simpa using hiff.mpr hu
    case h_5 l r n d1 hstep =>
      obtain rfl := Option.some.inj hturn
      exact .move (.visit hlt hstep)
  case isFalse hlt =>
    split at hturn
    case h_1 hv =>
      obtain rfl := Option.some.inj hturn
      refine .done ?_
      rw [UnifyState.turn, if_neg hlt]
      simp only [hv]
    case h_2 frame toVisit hv =>
      obtain rfl := Option.some.inj hturn
      exact .move (.ret hlt hv)

/-- The searches of a turn end. -/
theorem InRegion.exists_ocTurn {st : UnifyState} (h : InRegion hp R st) :
    ∃ turns T, ∀ turns', turns ≤ turns' → st.ocTurn hp regs turns' = some T := by
  unfold UnifyState.ocTurn
  split
  case isTrue hlt =>
    split
    case h_1 => exact ⟨0, _, fun _ _ => rfl⟩
    case h_2 =>
      split
      case isTrue =>
        obtain ⟨turns, found, hrun⟩ := exists_rationalTreeCell h.closed (h.pt0_mem hlt)
        exact ⟨turns, _, fun turns' hle => by rw [hrun turns' hle]; rfl⟩
      case isFalse => exact ⟨0, _, fun _ _ => rfl⟩
    case h_3 => exact ⟨0, _, fun _ _ => rfl⟩
    case h_4 a d hstep =>
      have hb : Binds hp st a (.nonvar d) := ⟨hlt, hstep⟩
      obtain ⟨turns, found, hrun⟩ := exists_rationalTreeCell (h.binds hb).closed (hb.within h).1
      exact ⟨turns, _, fun turns' hle => by rw [hrun turns' hle]; rfl⟩
    case h_5 => exact ⟨0, _, fun _ _ => rfl⟩
  case isFalse hlt =>
    split
    case h_1 => exact ⟨0, _, fun _ _ => rfl⟩
    case h_2 => exact ⟨0, _, fun _ _ => rfl⟩

theorem OCStep.goes {st st' : UnifyState} {new : List Addr} (h : OCStep hp regs st (.go st' new)) :
    Goes hp st st' := by
  cases h with
  | move hmove => exact hmove.goes
  | bind hb _ => exact hb.goes

-- ---------------------------------------------------------------------------
-- Runs
-- ---------------------------------------------------------------------------

/-- The states that the loop comes to, with the trail. -/
inductive OCReach (hp : Heap) (regs : Registers) (st₀ : UnifyState) : UnifyState → List Addr → Prop where
  | refl : OCReach hp regs st₀ st₀ []
  | step {st st' : UnifyState} {trail new : List Addr} : OCReach hp regs st₀ st trail →
      OCStep hp regs st (.go st' new) → OCReach hp regs st₀ st' (new ++ trail)

theorem OCReach.run {st₀ st : UnifyState} {trail : List Addr} (h : OCReach hp regs st₀ st trail) :
    ReflTransGen (Goes hp) st₀ st := by
  induction h with
  | refl => exact .refl
  | step _ hstep ih => exact ih.tail hstep.goes

theorem InRegion.reach {st₀ st : UnifyState} {trail : List Addr} (h : InRegion hp R st₀)
    (hreach : OCReach hp regs st₀ st trail) : InRegion hp R st := by
  induction hreach with
  | refl => exact h
  | step _ hstep ih => exact ih.goes hstep.goes

/-- The loop is left by a turn of a state that it comes to. -/
theorem exists_ocExit {st₀ st : UnifyState} {trail : List Addr} (hin : InRegion hp R st₀)
    (hreach : OCReach hp regs st₀ st trail) {turns : ℕ} {out : Bool} {m : Addr → Cell} {trail' : List Addr}
    (h : st.ocRun hp regs turns trail = some (out, m, trail')) :
    ∃ st₁ trail₁ st₂ new, OCReach hp regs st₀ st₁ trail₁ ∧ OCStep hp regs st₁ (.exit out st₂ new) ∧
      m = st₂.memory ∧ trail' = new ++ trail₁ := by
  induction turns generalizing st trail with
  | zero => cases h
  | succ turns ih =>
      rw [UnifyState.ocRun] at h
      split at h
      case h_1 => cases h
      case h_2 st' new hturn => exact ih (.step hreach ((hin.reach hreach).ocStep hturn)) h
      case h_3 out' st' new hturn =>
        cases h
        exact ⟨st, trail, st', new, hreach, (hin.reach hreach).ocStep hturn, rfl, rfl⟩

/-- The memory behind the links holds finite terms in every state. -/
theorem OCReach.finite {frame : Frame} {st : UnifyState} {trail : List Addr}
    (h : OCReach hp regs (.init s frame) st trail) (hin : InRegion hp R (.init s frame))
    (hs : ∀ x ∈ R, ∃ u, Unfolds hp s.cell (.ref x) u) :
    ∀ x ∈ R, ∃ u, Unfolds hp st.memory (.ref x) u := by
  induction h with
  | refl => exact hs
  | @step st st' trail new hreach hstep ih =>
      obtain ⟨real, hreal⟩ := exists_reached hreach.run
      cases hstep with
      | move hmove =>
          rw [hmove.memory]
          exact ih
      | bind hb hcheck =>
          rw [hb.memory hreal.linked, ← hreal.memory]
          exact hreal.finite_bind hin (hin.reach hreach) (hreal.memory ▸ ih) hb hcheck

/-- The loop ends. -/
theorem exists_ocRun {frame : Frame} (hin : InRegion hp R (.init s frame))
    (hs : ∀ x ∈ R, ∃ u, Unfolds hp s.cell (.ref x) u) :
    ∃ turns r, (UnifyState.init s frame).ocRun hp regs turns [] = some r := by
  have hends : Ends (fun st st' => ∃ new, OCStep hp regs st (.go st' new)) (.init s frame) := by
    refine ends_of_finite (fun _ _ h => h.elim fun _ h => h.goes) hin fun st hst => ?_
    obtain ⟨trail, hreach⟩ : ∃ trail, OCReach hp regs (.init s frame) st trail := by
      induction hst with
      | refl => exact ⟨[], .refl⟩
      | tail _ hgo ih =>
          obtain ⟨trail, hreach⟩ := ih
          obtain ⟨new, hstep⟩ := hgo
          exact ⟨new ++ trail, hreach.step hstep⟩
    exact hreach.finite hin hs
  suffices hmain : ∀ st, Ends (fun st st' => ∃ new, OCStep hp regs st (.go st' new)) st →
      InRegion hp R st → ∃ turns, ∀ turns' trail, turns ≤ turns' →
        ∃ r, st.ocRun hp regs turns' trail = some r by
    obtain ⟨turns, hrun⟩ := hmain _ hends hin
    obtain ⟨r, hr⟩ := hrun turns [] le_rfl
    exact ⟨turns, r, hr⟩
  intro st hst
  induction hst with
  | intro st _ ih =>
      intro hst
      obtain ⟨turns₁, T, hturn⟩ : ∃ turns T, ∀ turns', turns ≤ turns' → st.ocTurn hp regs turns' = some T :=
        hst.exists_ocTurn
      have hstep := hst.ocStep (hturn turns₁ le_rfl)
      cases T with
      | exit out st₂ new =>
          refine ⟨turns₁ + 1, fun turns' trail hle => ?_⟩
          obtain ⟨k, rfl⟩ := Nat.exists_eq_add_one_of_ne_zero (Nat.ne_zero_of_lt hle)
          rw [UnifyState.ocRun, hturn k (Nat.le_of_succ_le_succ hle)]
          exact ⟨_, rfl⟩
      | go st' new =>
          obtain ⟨turns₂, hrun⟩ := ih st' ⟨new, hstep⟩ (hst.goes hstep.goes)
          refine ⟨max turns₁ turns₂ + 1, fun turns' trail hle => ?_⟩
          obtain ⟨k, rfl⟩ := Nat.exists_eq_add_one_of_ne_zero (Nat.ne_zero_of_lt hle)
          have hk := Nat.le_of_succ_le_succ hle
          rw [UnifyState.ocRun, hturn k ((Nat.le_max_left ..).trans hk)]
          exact hrun k (new ++ trail) ((Nat.le_max_right ..).trans hk)

-- ---------------------------------------------------------------------------
-- The trail
-- ---------------------------------------------------------------------------

theorem resetTrail_apply (trail : List Addr) (m : Addr → Cell) (a : Addr) :
    resetTrail trail m a = if a ∈ trail then .ref a else m a := by
  induction trail generalizing m with
  | nil => rfl
  | cons b trail ih =>
      rw [resetTrail, ih]
      by_cases hab : a = b
      · subst hab
        simp
      · simp [hab]

variable (s) in
/-- The memory differs from the store in variables that were unbound, and those older
    than the choice point are on the trail. -/
structure Trailed (older : Addr → Prop) (m : Addr → Cell) (trail : List Addr) : Prop where
  unbound : ∀ a ∈ trail, s.cell a = .ref a
  bound : ∀ a, m a ≠ s.cell a → s.cell a = .ref a ∧ (older a → a ∈ trail)

theorem trailed_start (older : Addr → Prop) : Trailed s older s.cell [] :=
  ⟨by rintro a ⟨⟩, fun _ ha => absurd rfl ha⟩

/-- Resetting the trail gives back the older cells. -/
theorem Trailed.reset {older : Addr → Prop} {m : Addr → Cell} {trail : List Addr}
    (h : Trailed s older m trail) {a : Addr} (ha : older a) : resetTrail trail m a = s.cell a := by
  rw [resetTrail_apply]
  split
  case isTrue hmem => exact (h.unbound a hmem).symm
  case isFalse hmem =>
    by_contra hne
    exact hmem ((h.bound a hne).2 ha)

theorem Trailed.bind {older : Addr → Prop} {m : Addr → Cell} {trail new : List Addr}
    (h : Trailed s older m trail) {v : Addr} (c : Cell) (hv : m v = .ref v) (hnew : ∀ a ∈ new, a = v)
    (hold : older v → v ∈ new) : Trailed s older (Function.update m v c) (new ++ trail) := by
  have hsv : s.cell v = .ref v := by
    by_cases hne : m v = s.cell v
    · rw [← hne, hv]
    · exact (h.bound v hne).1
  refine ⟨fun a ha => ?_, fun a ha => ?_⟩
  · rcases List.mem_append.mp ha with ha | ha
    · exact hnew a ha ▸ hsv
    · exact h.unbound a ha
  · by_cases hav : a = v
    · subst hav
      exact ⟨hsv, fun ho => List.mem_append_left _ (hold ho)⟩
    · rw [Function.update_of_ne hav] at ha
      obtain ⟨hunbound, htrail⟩ := h.bound a ha
      exact ⟨hunbound, fun ho => List.mem_append_right _ (htrail ho)⟩

theorem mem_trailGlobal {a v : Addr} : a ∈ trailGlobal regs v ↔ a = v ∧ v < regs.hb := by
  unfold trailGlobal
  split <;> simp_all

/-- The cells that exist when the call fails back to the choice point. -/
def Registers.Older (regs : Registers) (a : Addr) : Prop := a < regs.hb ∨ regs.b < a

/-- A binding of the loop is on the trail, if it is older and the region is global. -/
theorem Binds.trailed {st : UnifyState} {trail : List Addr} {a : Addr} {c : Cell} (hb : Binds hp st a c)
    (h : Trailed s regs.Older st.memory trail) (hl : st.Linked) (hin : InRegion hp R st)
    (hglobal : ∀ a ∈ R, a ≤ regs.b) :
    Trailed s regs.Older (st.bind hp hb.step).memory (trailGlobal regs a ++ trail) := by
  rw [hb.memory hl]
  refine h.bind _ (UnifyState.memory_unbound hl hb.unbound) (fun a ha => (mem_trailGlobal.mp ha).1)
    fun hold => mem_trailGlobal.mpr ⟨rfl, ?_⟩
  exact hold.resolve_right (hglobal _ (hb.within hin).1).not_gt

theorem OCReach.trailed {frame : Frame} {st : UnifyState} {trail : List Addr}
    (h : OCReach hp regs (.init s frame) st trail) (hin : InRegion hp R (.init s frame))
    (hglobal : ∀ a ∈ R, a ≤ regs.b) : Trailed s regs.Older st.memory trail := by
  induction h with
  | refl => exact trailed_start _
  | step hreach hstep ih =>
      obtain ⟨real, hreal⟩ := exists_reached hreach.run
      cases hstep with
      | move hmove =>
          rw [hmove.memory]
          exact ih
      | bind hb _ => exact hb.trailed ih hreal.linked (hin.reach hreach) hglobal

theorem OCReach.trailed_exit {frame : Frame} {st st' : UnifyState} {trail new : List Addr} {out : Bool}
    (h : OCReach hp regs (.init s frame) st trail) (hin : InRegion hp R (.init s frame))
    (hglobal : ∀ a ∈ R, a ≤ regs.b) (hstep : OCStep hp regs st (.exit out st' new)) :
    Trailed s regs.Older st'.memory (new ++ trail) := by
  have htrailed := h.trailed hin hglobal
  obtain ⟨real, hreal⟩ := exists_reached h.run
  cases hstep with
  | fail | done => exact htrailed
  | cyclic hmove =>
      rw [hmove.memory]
      exact htrailed
  | cyclicBind hb => exact hb.trailed htrailed hreal.linked (hin.reach h) hglobal

end Yap
