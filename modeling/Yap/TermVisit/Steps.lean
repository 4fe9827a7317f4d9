-- SUMMARY: The walk of a cell passes the events of the cell, whatever the hooks are, and has a result.
import Yap.TermVisit.Run

/-!
# Steps of the walk

Every case of the events is a few turns of the walk. With a stack that is large enough
the walk does not start again.
-/

namespace Yap

open Relation

variable {σ ω : Type} {hp : Heap} {s : Store} {h : Hooks σ ω} {root : Addr} {x : WalkData σ}
  {fs : List (Place × Addr × Addr)} {max : ℕ} {pt0 pt0End : Addr} {q src q' src' : Addr} {w : WalkWord}

namespace WalkData

-- ---------------------------------------------------------------------------
-- Words
-- ---------------------------------------------------------------------------

variable (hp s) in
/-- The walk at a word with `ptd0 = q`, which is the contents of `src`. -/
def AtWord (x : WalkData σ) (fs : List (Place × Addr × Addr)) (max : ℕ) (pt0 pt0End : Addr) (q src : Addr)
    (st : WalkState σ) : Prop :=
  ∃ w, st = x.state hp s fs max pt0 pt0End (some (q, w)) ∧ st.visitUnmark w = x.beneath hp s (.arg src)

/-- A turn that reads a cell, perhaps through its mark. -/
theorem atWord_memory (hx : x.Sound s) (q src : Addr) :
    x.AtWord hp s fs max pt0 pt0End q src
      (x.state hp s fs max pt0 pt0End (some (q, x.memory hp s (fs.map Prod.fst) (.arg src)))) :=
  ⟨_, rfl, hx.visitUnmark_memory _⟩

theorem atWord_beneath (hx : x.Sound s) (q src : Addr) :
    x.AtWord hp s fs max pt0 pt0End q src (x.state hp s fs max pt0 pt0End (some (q, x.beneath hp s (.arg src)))) :=
  ⟨_, rfl, hx.visitUnmark_beneath _ _⟩

/-- References are followed. -/
theorem walks_leads (hx : x.Sound s) (hleads : Leads s q src q' src') {st : WalkState σ}
    (hst : x.AtWord hp s fs max pt0 pt0End q src st) :
    ∃ st', x.AtWord hp s fs max pt0 pt0End q' src' st' ∧ WalksTo h root st st' := by
  induction hleads generalizing st with
  | refl => exact ⟨st, hst, .refl⟩
  | @ref q src a q' src' ha hne _ ih =>
    obtain ⟨w, rfl, hw⟩ := hst
    have hsrc : s.cell src ≠ .ref src := fun heq => hne (by rwa [← Cell.ref.inj (ha.symm.trans heq)] at heq)
    have hbeneath : x.beneath hp s (.arg a) ≠ .cell (.ref a) := by
      rw [hx.beneath_arg hne]
      exact fun heq => hne (WalkWord.cell.inj heq)
    rw [hx.beneath_arg hsrc, ha] at hw
    have hgo : (x.state hp s fs max pt0 pt0End (some (q, w))).turn h root =
        .go (x.state hp s fs max pt0 pt0End (some (a, x.memory hp s (fs.map Prod.fst) (.arg a)))) := by
      rw [WalkState.turn]
      have hunmark : (x.state hp s fs max pt0 pt0End (some (q, w))).visitUnmark
          (x.memory hp s (fs.map Prod.fst) (.arg a)) = x.beneath hp s (.arg a) := hx.visitUnmark_memory _
      simp only [state] at hw hunmark ⊢
      rw [hw]
      simp only [hunmark, if_neg hbeneath]
    obtain ⟨st', hst', hwalks⟩ := ih (atWord_memory hx a a)
    exact ⟨st', hst', .head hgo hwalks⟩

variable (hp s) in
/-- The walk before it reads the next cell. -/
def AtCells (fs : List (Place × Addr × Addr)) (max : ℕ) (pt0 pt0End : Addr) (x : WalkData σ) (st : WalkState σ) :
    Prop :=
  st = x.state hp s fs max pt0 pt0End none

variable {st : WalkState σ} (h root)

theorem turn_pair (hst : x.AtWord hp s fs max pt0 pt0End q src st) {p : Addr}
    (hword : x.beneath hp s (.arg src) = .cell (.nonvar (.pair p))) : st.turn h root = st.visitPair h root q p := by
  obtain ⟨w, rfl, hw⟩ := hst
  rw [hword] at hw
  rw [WalkState.turn]
  simp only [state] at hw ⊢
  rw [hw]

theorem turn_appl (hst : x.AtWord hp s fs max pt0 pt0End q src st) {p : Addr}
    (hword : x.beneath hp s (.arg src) = .cell (.nonvar (.appl p))) : st.turn h root = st.visitAppl h root q p := by
  obtain ⟨w, rfl, hw⟩ := hst
  rw [hword] at hw
  rw [WalkState.turn]
  simp only [state] at hw ⊢
  rw [hw]

theorem turn_var (hx : x.Sound s) (hst : x.AtWord hp s fs max pt0 pt0End q src st) {v : Addr}
    (hword : x.beneath hp s (.arg src) = .cell (.ref v)) (hv : x.beneath hp s (.arg v) = .cell (.ref v)) :
    st.turn h root = st.visitVar h v := by
  obtain ⟨w, rfl, hw⟩ := hst
  have hunmark : (x.state hp s fs max pt0 pt0End (some (q, w))).visitUnmark
      (x.memory hp s (fs.map Prod.fst) (.arg v)) = x.beneath hp s (.arg v) := hx.visitUnmark_memory _
  rw [hword] at hw
  rw [WalkState.turn]
  simp only [state] at hw hunmark ⊢
  rw [hw]
  simp only [hunmark, hv, if_true]

/-- A reference to a bound variable is followed. -/
theorem turn_bound (hx : x.Sound s) (hst : x.AtWord hp s fs max pt0 pt0End q src st) {v : Addr}
    (hword : x.beneath hp s (.arg src) = .cell (.ref v)) (hv : x.beneath hp s (.arg v) ≠ .cell (.ref v)) :
    ∃ st', x.AtWord hp s fs max pt0 pt0End v v st' ∧ st.turn h root = .go st' := by
  obtain ⟨w, rfl, hw⟩ := hst
  have hunmark : (x.state hp s fs max pt0 pt0End (some (q, w))).visitUnmark
      (x.memory hp s (fs.map Prod.fst) (.arg v)) = x.beneath hp s (.arg v) := hx.visitUnmark_memory _
  refine ⟨_, atWord_memory hx v v, ?_⟩
  rw [hword] at hw
  rw [WalkState.turn]
  simp only [state] at hw hunmark ⊢
  rw [hw]
  simp only [hunmark, if_neg hv]

/-- A word that is no reference and has no arguments. -/
theorem turn_constant (hst : x.AtWord hp s fs max pt0 pt0End q src st)
    (hword : (x.beneath hp s (.arg src)).IsConstant ∨ ∃ n, x.beneath hp s (.arg src) = .cell (.nonvar (.int n))) :
    st.turn h root =
      match h.atomic x.data q (x.beneath hp s (.arg src)) (st.isVisitMarker (st.memory (.arg q))) with
      | .error w => .exit (w, st.unwind)
      | .ok (data, write) => .go (st.afterHook q data write).next := by
  obtain ⟨w, rfl, hw⟩ := hst
  rw [WalkState.turn]
  simp only [state] at hw ⊢
  rw [hw]
  rcases hword with hconst | ⟨n, hint⟩
  · generalize x.beneath hp s (.arg src) = W at hconst
    cases W with
    | cell c =>
      cases c with
      | ref a => cases hconst
      | nonvar d =>
        cases d with
        | atom a => rfl
        | _ => cases hconst
    | functor f => cases hconst
    | mark k => cases hconst
    | foundVar => rfl
    | refoundVar => rfl
  · generalize x.beneath hp s (.arg src) = W at hint
    subst hint
    rfl

end WalkData

-- ---------------------------------------------------------------------------
-- Single events
-- ---------------------------------------------------------------------------

namespace PassesEvents

variable {st : WalkState σ}

/-- A hook that goes on, or ends the walk. -/
theorem of_turn {e : WalkEvent} {E : WalkData σ → WalkState σ → Prop}
    (hturn : match h.event x e with
      | .done x' => x'.Sound s ∧ ∃ st', st.turn h root = .go st' ∧ E x' st'
      | .quit w x' => st.turn h root = .exit (w, x'.beneath hp s)
      | .bad => True) : PassesEvents hp s h root x [e] st E max := by
  refine .inr ?_
  rw [Hooks.run]
  cases hevent : h.event x e with
  | done x' =>
    rw [hevent] at hturn
    obtain ⟨hx', st', hgo, hst'⟩ := hturn
    exact ⟨hx', st', hst', .single hgo⟩
  | quit w x' =>
    rw [hevent] at hturn
    exact Machine.returns_of_exit hturn
  | bad => trivial

/-- The hook for an unbound variable. -/
theorem var (hx : x.Sound s) {v : Addr} (hv : s.cell v = .ref v) (hnone : x.held v = none) (hnodup : (fs.map Prod.fst).Nodup)
    {d0 : Option (Addr × WalkWord)}
    (hturn : (x.state hp s fs max pt0 pt0End d0).turn h root = (x.state hp s fs max pt0 pt0End d0).visitVar h v) :
    PassesEvents hp s h root x [.occurrence q v (decide (.arg v ∈ fs.map Prod.fst))] (x.state hp s fs max pt0 pt0End d0)
      (WalkData.AtCells hp s fs max pt0 pt0End) max := by
  refine of_turn ?_
  have hdata : (x.state hp s fs max pt0 pt0End d0).data = x.data := rfl
  rw [hturn, WalkState.visitVar, Hooks.event, hnone, WalkData.unwind_state hnodup, hdata]
  cases hhook : h.var x.data v with
  | error w => rfl
  | ok r =>
    obtain ⟨data, bind⟩ := r
    have hstate : { x.state hp s fs max pt0 pt0End d0 with data := data } =
      (x.withData data).state hp s fs max pt0 pt0End d0 := rfl
    have hx' := hx.withData data
    cases bind with
    | false => exact ⟨hx', _, rfl, rfl⟩
    | true =>
      by_cases hpath : .arg v ∈ fs.map Prod.fst
      · simp only [hstate, hx'.mBindAndTrail_open hpath, decide_eq_true hpath, if_true]
        exact ⟨hx', _, rfl, rfl⟩
      · simp only [hstate, hx'.mBindAndTrail_closed hpath, decide_eq_false hpath, if_true]
        exact ⟨hx'.bind hv, _, rfl, rfl⟩

/-- The hook for a bound variable. -/
theorem bound (hs : h.Silent) (hx : x.Sound s) {v : Addr} {w : WalkWord} (hheld : x.held v = some w)
    (hnodup : (fs.map Prod.fst).Nodup) {st : WalkState σ} (hst : x.AtWord hp s fs max pt0 pt0End q v st) :
    PassesEvents hp s h root x [.occurrence q v (decide (.arg v ∈ fs.map Prod.fst))] st
      (WalkData.AtCells hp s fs max pt0 pt0End) max := by
  have hbeneath : x.beneath hp s (.arg v) = w := by
    rw [WalkData.beneath, hheld]
    rfl
  have hturn := WalkData.turn_constant h root hst (.inl (hbeneath ▸ (hx.held v w hheld).2))
  refine of_turn ?_
  obtain ⟨w', rfl, -⟩ := hst
  rw [hturn, Hooks.event, hheld, hbeneath, WalkData.unwind_state hnodup]
  dsimp only
  rw [hs.unmarked x.data q w (decide (Place.arg v ∈ fs.map Prod.fst)), hs.unmarked x.data q w (WalkState.isVisitMarker _ _)]
  cases hhook : h.atomic x.data q w false with
  | error w' => rfl
  | ok r =>
    obtain ⟨data, write⟩ := r
    cases write with
    | none => exact ⟨hx.withData data, _, rfl, rfl⟩
    | some w₁ =>
      by_cases hgood : q = v ∧ decide (Place.arg v ∈ fs.map Prod.fst) = false
      · obtain ⟨rfl, hpath⟩ := hgood
        simp only [hpath, and_self, if_true]
        refine ⟨(hx.withData data).write hheld (hs.constant _ _ _ _ _ _ hhook), _, rfl, ?_⟩
        rw [WalkData.afterHook_write data (of_decide_eq_false hpath)]
        rfl
      · simp only [if_neg hgood]

/-- Words without arguments have no events. -/
theorem leaf (hs : h.Silent) (hx : x.Sound s) {d : Nonvar} (hcell : s.cell src = .nonvar d) (hd : d.cells hp = [])
    {st : WalkState σ} (hst : x.AtWord hp s fs max pt0 pt0End q src st) :
    PassesEvents hp s h root x [] st (WalkData.AtCells hp s fs max pt0 pt0End) max := by
  have hbeneath : x.beneath hp s (.arg src) = .cell (.nonvar d) := by
    rw [hx.beneath_arg (by rw [hcell]; exact fun heq => by cases heq), hcell]
  have hgo : st.turn h root = .go (x.state hp s fs max pt0 pt0End none) := by
    cases d with
    | int n =>
      rw [WalkData.turn_constant h root hst (.inr ⟨n, hbeneath⟩), hbeneath, hs.atomic]
      obtain ⟨w', rfl, -⟩ := hst
      rfl
    | atom a =>
      rw [WalkData.turn_constant h root hst (.inl (hbeneath ▸ trivial)), hbeneath, hs.atomic]
      obtain ⟨w', rfl, -⟩ := hst
      rfl
    | pair p => cases hd
    | appl p =>
      rw [WalkData.turn_appl h root hst hbeneath]
      obtain ⟨w', rfl, -⟩ := hst
      cases hf : hp.functorAt p with
      | functor f =>
        rw [Nonvar.cells, Nonvar.block, hf] at hd
        exact absurd (List.range'_eq_nil_iff.mp hd) (Nat.pos_iff_ne_zero.mp f.arity_pos)
      | blob b =>
        have hunmark : (x.state hp s fs max pt0 pt0End (some (q, w'))).visitUnmark
            ((x.state hp s fs max pt0 pt0End (some (q, w'))).memory (.functor p)) = .functor (.blob b) := by
          rw [← hf]
          exact hx.visitUnmark_memory _
        rw [WalkState.visitAppl, hunmark]
        rfl
  refine of_walks ?_ (.single hgo)
  exact nil hx rfl

/-- A list that is open has no events. -/
theorem openList (hx : x.Sound s) {p : Addr} (hcell : s.cell src = .nonvar (.pair p)) (hpath : .arg p ∈ fs.map Prod.fst)
    {st : WalkState σ} (hst : x.AtWord hp s fs max pt0 pt0End q src st) :
    PassesEvents hp s h root x [] st (WalkData.AtCells hp s fs max pt0 pt0End) max := by
  have hbeneath : x.beneath hp s (.arg src) = .cell (.nonvar (.pair p)) := by
    rw [hx.beneath_arg (by rw [hcell]; exact fun heq => by cases heq), hcell]
  have hgo : st.turn h root = .go (x.state hp s fs max pt0 pt0End none) := by
    rw [WalkData.turn_pair h root hst hbeneath, WalkState.visitPair]
    obtain ⟨w', rfl, -⟩ := hst
    exact if_pos ((hx.isVisitMarker_memory _).trans (decide_eq_true hpath))
  refine of_walks ?_ (.single hgo)
  exact nil hx rfl

theorem auxOverflow_state (hx : x.Sound s) (hnodup : (fs.map Prod.fst).Nodup) (d0 : Option (Addr × WalkWord)) :
    (x.state hp s fs max pt0 pt0End d0).auxOverflow h root = (h.again x).state hp s [] (2 * max) root (root + 1) none := by
  have hmemory : WalkState.cleanTr x.trail (x.state hp s fs max pt0 pt0End d0).unwind = (h.again x).memory hp s [] := by
    rw [WalkData.unwind_state hnodup, hx.cleanTr]
    funext pl
    cases pl <;> rfl
  rw [WalkState.auxOverflow]
  simp only [WalkData.state, List.map_nil] at hmemory ⊢
  rw [hmemory]
  rfl

/-- A list that is not open is marked. -/
theorem list (hs : h.Silent) (hx : x.Sound s) {p : Addr} (hcell : s.cell src = .nonvar (.pair p))
    (hbelow : Below hp s root (fs.map Prod.fst) q src) (hpath : .arg p ∉ fs.map Prod.fst) (hnodup : (fs.map Prod.fst).Nodup)
    {st : WalkState σ}
    (hst : x.AtWord hp s fs max pt0 pt0End q src st) :
    PassesEvents hp s h root x [.list q p (decide (.arg q ∈ fs.map Prod.fst))] st
      (fun x' => x'.AtWord hp s ((.arg p, pt0, pt0End) :: fs) max (p + 1) (p + 2) q p) max := by
  have hbeneath : x.beneath hp s (.arg src) = .cell (.nonvar (.pair p)) := by
    rw [hx.beneath_arg (by rw [hcell]; exact fun heq => by cases heq), hcell]
  have hturn := WalkData.turn_pair h root hst hbeneath
  obtain ⟨w', rfl, -⟩ := hst
  have hmarkp : (x.state hp s fs max pt0 pt0End (some (q, w'))).isVisitMarker
      ((x.state hp s fs max pt0 pt0End (some (q, w'))).memory (.arg p)) = false :=
    (hx.isVisitMarker_memory _).trans (decide_eq_false hpath)
  have hmarkq : (x.state hp s fs max pt0 pt0End (some (q, w'))).isVisitMarker
      ((x.state hp s fs max pt0 pt0End (some (q, w'))).memory (.arg q)) = decide (.arg q ∈ fs.map Prod.fst) :=
    hx.isVisitMarker_memory _
  have hunmark : (x.state hp s fs max pt0 pt0End (some (q, w'))).visitUnmark
      ((x.state hp s fs max pt0 pt0End (some (q, w'))).memory (.arg p)) = x.beneath hp s (.arg p) :=
    hx.visitUnmark_memory _
  have hdata : (x.state hp s fs max pt0 pt0End (some (q, w'))).data = x.data := rfl
  rw [WalkState.visitPair, hmarkp, hmarkq, hunmark, hdata, if_neg Bool.false_ne_true] at hturn
  cases hhook : h.list x.data q (.cell (.nonvar (.pair p))) (decide (.arg q ∈ fs.map Prod.fst)) with
  | error w =>
    rw [hhook, WalkData.unwind_state hnodup] at hturn
    refine of_turn ?_
    rw [Hooks.event, hhook]
    exact hturn
  | ok r =>
    obtain ⟨data, write⟩ := r
    obtain rfl : write = none := hs.list _ _ _ _ _ hhook
    have hevent : h.event x (.list q p (decide (.arg q ∈ fs.map Prod.fst))) = .done (x.withData data) := by
      rw [Hooks.event, hhook]
      rfl
    have hpush : ((x.state hp s fs max pt0 pt0End (some (q, w'))).afterHook q data none).push (.arg p)
        (x.beneath hp s (.arg p)) (p + 1) (p + 2) (some (q, x.beneath hp s (.arg p))) =
        (x.withData data).state hp s ((.arg p, pt0, pt0End) :: fs) max (p + 1) (p + 2) (some (q, x.beneath hp s (.arg p))) :=
      WalkData.state_push (x := x.withData data) ..
    rw [hhook] at hturn
    simp only [hpush] at hturn
    rw [WalkState.ifRoom] at hturn
    split at hturn
    case isTrue hfull =>
      have hfull' : max ≤ fs.length + 1 + 32 := by simpa [WalkData.state] using hfull
      have hnodup' : (((Place.arg p, pt0, pt0End) :: fs).map Prod.fst).Nodup := List.nodup_cons.mpr ⟨hpath, hnodup⟩
      refine .inl ⟨[_], x.withData data, List.prefix_refl _, ?_, fun hfits => ?_, .single ?_⟩
      · rw [Hooks.run, hevent]
        rfl
      · have := hfits.list _ _ _ _ hbelow hcell hpath
        rw [List.length_map] at this
        omega
      · exact hturn.trans (congrArg _ (auxOverflow_state (hx.withData data) hnodup' _))
    case isFalse =>
      refine of_turn ?_
      rw [hevent]
      exact ⟨hx.withData data, _, hturn, WalkData.atWord_beneath (hx.withData data) q p⟩

/-- A compound, with the walk at its arguments or, if it is open, at the next cell. -/
theorem compound (hs : h.Silent) (hx : x.Sound s) {p : Addr} {f : Functor} (hcell : s.cell src = .nonvar (.appl p))
    (hbelow : Below hp s root (fs.map Prod.fst) q src) (hf : hp.functorAt p = .functor f) (hnodup : (fs.map Prod.fst).Nodup)
    {st : WalkState σ}
    (hst : x.AtWord hp s fs max pt0 pt0End q src st) :
    PassesEvents hp s h root x [.compound q p (decide (.arg q ∈ fs.map Prod.fst))] st
      (fun x' => if .functor p ∈ fs.map Prod.fst then x'.AtCells hp s fs max pt0 pt0End
        else x'.AtCells hp s ((.functor p, pt0, pt0End) :: fs) max (p + 1) (p + 1 + f.arityOfFE)) max := by
  have hbeneath : x.beneath hp s (.arg src) = .cell (.nonvar (.appl p)) := by
    rw [hx.beneath_arg (by rw [hcell]; exact fun heq => by cases heq), hcell]
  have hturn := WalkData.turn_appl h root hst hbeneath
  obtain ⟨w', rfl, -⟩ := hst
  have hmarkp : (x.state hp s fs max pt0 pt0End (some (q, w'))).isVisitMarker
      ((x.state hp s fs max pt0 pt0End (some (q, w'))).memory (.functor p)) = decide (.functor p ∈ fs.map Prod.fst) :=
    hx.isVisitMarker_memory _
  have hmarkq : (x.state hp s fs max pt0 pt0End (some (q, w'))).isVisitMarker
      ((x.state hp s fs max pt0 pt0End (some (q, w'))).memory (.arg q)) = decide (.arg q ∈ fs.map Prod.fst) :=
    hx.isVisitMarker_memory _
  have hunmark : (x.state hp s fs max pt0 pt0End (some (q, w'))).visitUnmark
      ((x.state hp s fs max pt0 pt0End (some (q, w'))).memory (.functor p)) = .functor (.functor f) := by
    rw [← hf]
    exact hx.visitUnmark_memory _
  have hdata : (x.state hp s fs max pt0 pt0End (some (q, w'))).data = x.data := rfl
  rw [WalkState.visitAppl, hmarkp, hmarkq, hunmark, hdata] at hturn
  dsimp only at hturn
  split at hturn
  case isTrue hfull =>
    have hfull' : max ≤ fs.length + 32 := by simpa [WalkData.state] using hfull
    refine .inl ⟨[], x, List.nil_prefix, rfl, fun hfits => ?_, .single ?_⟩
    · have := hfits.compound _ _ _ _ _ hbelow hcell hf
      rw [List.length_map] at this
      omega
    · exact hturn.trans (congrArg _ (auxOverflow_state hx hnodup _))
  case isFalse =>
    refine of_turn ?_
    rw [Hooks.event]
    cases hhook : h.compound x.data q (.cell (.nonvar (.appl p))) (decide (.arg q ∈ fs.map Prod.fst)) with
    | error w =>
      rw [hhook, WalkData.unwind_state hnodup] at hturn
      exact hturn
    | ok r =>
      obtain ⟨data, write⟩ := r
      obtain rfl : write = none := hs.compound _ _ _ _ _ hhook
      rw [hhook] at hturn
      have hpush : ((x.state hp s fs max pt0 pt0End (some (q, w'))).afterHook q data none).push (.functor p)
          (.functor (.functor f)) (p + 1) (p + 1 + f.arityOfFE) none =
          (x.withData data).state hp s ((.functor p, pt0, pt0End) :: fs) max (p + 1) (p + 1 + f.arityOfFE) none := by
        have hfunctor : (x.withData data).beneath hp s (.functor p) = .functor (.functor f) := congrArg _ hf
        rw [← hfunctor]
        exact WalkData.state_push (x := x.withData data) ..
      by_cases hpath : .functor p ∈ fs.map Prod.fst
      · simp only [decide_eq_true hpath, if_true] at hturn ⊢
        exact ⟨hx.withData data, _, hturn, by rw [if_pos hpath]; rfl⟩
      · simp only [decide_eq_false hpath, Bool.false_eq_true, if_false, hpush] at hturn ⊢
        exact ⟨hx.withData data, _, hturn, by rw [if_neg hpath]; rfl⟩

end PassesEvents

-- ---------------------------------------------------------------------------
-- All events
-- ---------------------------------------------------------------------------

namespace WalkData

variable (hp s) in
/-- The walk has the contents of these cells to visit, in a block that ends here. -/
def AtItems (fs : List (Place × Addr × Addr)) (max : ℕ) (pt0End : Addr) (items : List (Addr × Addr)) (x : WalkData σ)
    (st : WalkState σ) : Prop :=
  ∃ pt0, (x.AtCells hp s fs max pt0 pt0End st ∧ items = ownCells (remaining pt0 pt0End)) ∨
    ∃ q src, x.AtWord hp s fs max pt0 pt0End q src st ∧ items = (q, src) :: ownCells (remaining pt0 pt0End)

variable {items rest : List (Addr × Addr)} {st : WalkState σ}

theorem AtCells.atItems (hst : x.AtCells hp s fs max pt0 pt0End st) (hrest : rest = ownCells (remaining pt0 pt0End)) :
    x.AtItems hp s fs max pt0End rest st := ⟨pt0, .inl ⟨hst, hrest⟩⟩

/-- The next word is read. -/
theorem AtItems.exists_atWord (hx : x.Sound s) (hst : x.AtItems hp s fs max pt0End ((q, src) :: rest) st) :
    ∃ pt0 st', x.AtWord hp s fs max pt0 pt0End q src st' ∧ rest = ownCells (remaining pt0 pt0End) ∧
      WalksTo h root st st' := by
  obtain ⟨pt0, ⟨rfl, hitems⟩ | ⟨q', src', hword, hitems⟩⟩ := hst
  · rw [ownCells, eq_comm, List.map_eq_cons_iff] at hitems
    obtain ⟨a, as, hcells, heq, has⟩ := hitems
    obtain ⟨hlt, rfl, rfl⟩ := remaining_eq_cons hcells
    obtain ⟨rfl, rfl⟩ := Prod.mk.inj heq
    exact ⟨a + 1, _, atWord_memory hx a a, has.symm, .single (if_pos hlt)⟩
  · obtain ⟨heq, rfl⟩ := List.cons.inj hitems
    obtain ⟨rfl, rfl⟩ := Prod.mk.inj heq
    exact ⟨pt0, st, hword, rfl, .refl⟩

/-- At the end of a block the walk returns to the block above. -/
theorem AtItems.walks_pop {pl : Place} {a b e : Addr} (hpl : pl ∉ fs.map Prod.fst)
    (hst : x.AtItems hp s ((pl, a, b) :: fs) max e [] st) : WalksTo h root st (x.state hp s fs max a b none) := by
  obtain ⟨pt0, ⟨rfl, hitems⟩ | ⟨q', src', -, hitems⟩⟩ := hst
  · have hend : ¬ pt0 < e := by
      intro hlt
      rw [remaining_of_lt hlt] at hitems
      cases hitems
    refine .single ?_
    have hpop : (x.state hp s ((pl, a, b) :: fs) max pt0 e none).pop ⟨pl, x.beneath hp s pl, a, b⟩
        (x.state hp s fs max a b none).frames = x.state hp s fs max a b none := state_pop hpl
    rw [← hpop]
    exact if_neg hend
  · cases hitems

end WalkData

/-- An occurrence of a variable. -/
theorem PassesEvents.occurrence {st : WalkState σ} (hs : h.Silent) (hx : x.Sound s) (hnodup : (fs.map Prod.fst).Nodup)
    {v : Addr} (hcell : s.cell src = .ref v) (hv : s.cell v = .ref v) (hst : x.AtWord hp s fs max pt0 pt0End q src st) :
    PassesEvents hp s h root x [.occurrence (if src = v then q else v) v (decide (.arg v ∈ fs.map Prod.fst))] st
      (WalkData.AtCells hp s fs max pt0 pt0End) max := by
  cases hheld : x.held v with
  | none =>
    have hbeneath : x.beneath hp s (.arg v) = .cell (.ref v) := by
      rw [WalkData.beneath, hheld, hv]
      rfl
    have hword : x.beneath hp s (.arg src) = .cell (.ref v) := by
      by_cases hsrc : src = v
      · rw [hsrc, hbeneath]
      · rw [hx.beneath_arg (by rw [hcell]; exact fun heq => hsrc (Cell.ref.inj heq).symm), hcell]
    have hturn := WalkData.turn_var h root hx hst hword hbeneath
    obtain ⟨w, rfl, -⟩ := hst
    exact PassesEvents.var hx hv hheld hnodup hturn
  | some w =>
    by_cases hsrc : src = v
    · subst hsrc
      rw [if_pos rfl]
      exact PassesEvents.bound hs hx hheld hnodup hst
    · have hword : x.beneath hp s (.arg src) = .cell (.ref v) := by
        rw [hx.beneath_arg (by rw [hcell]; exact fun heq => hsrc (Cell.ref.inj heq).symm), hcell]
      have hconst : x.beneath hp s (.arg v) ≠ .cell (.ref v) := by
        rw [WalkData.beneath, hheld]
        intro heq
        exact (show (WalkWord.cell (.ref v)).IsConstant from heq ▸ (hx.held v w hheld).2)
      obtain ⟨st', hst', hgo⟩ := WalkData.turn_bound h root hx hst hword hconst
      rw [if_neg hsrc]
      exact (PassesEvents.bound hs hx hheld hnodup hst').of_walks (.single hgo)

/-- The walk passes the events of its cells. -/
theorem HasEvents.passes {path : List Place} {items : List (Addr × Addr)} {es : List WalkEvent} (hs : h.Silent)
    (hv : HasEvents hp s path items es) (hbelow : ∀ it ∈ items, Below hp s root path it.1 it.2) (x : WalkData σ)
    (fs : List (Place × Addr × Addr)) (pt0End : Addr) (st : WalkState σ) (hx : x.Sound s) (hpath : path = fs.map Prod.fst)
    (hnodup : (fs.map Prod.fst).Nodup) (hst : x.AtItems hp s fs max pt0End items st) :
    PassesEvents hp s h root x es st (WalkData.AtItems hp s fs max pt0End []) max := by
  induction hv generalizing x fs pt0End st with
  | nil => exact .nil hx hst
  | var hleads hcell hv _ ih =>
    obtain ⟨-, hrest⟩ := List.forall_mem_cons.mp hbelow
    obtain ⟨pt0, st₁, hword, hcells, hwalks⟩ := hst.exists_atWord hx
    obtain ⟨st₂, hword₂, hwalks₂⟩ := WalkData.walks_leads hx hleads hword
    subst hpath
    refine PassesEvents.of_walks ?_ (hwalks.trans hwalks₂)
    exact (PassesEvents.occurrence hs hx hnodup hcell hv hword₂).cons fun x' st' hx' hst' =>
      ih hrest x' fs pt0End st' hx' rfl hnodup (hst'.atItems hcells)
  | leaf hleads hcell hd _ ih =>
    obtain ⟨-, hrest⟩ := List.forall_mem_cons.mp hbelow
    obtain ⟨pt0, st₁, hword, hcells, hwalks⟩ := hst.exists_atWord hx
    obtain ⟨st₂, hword₂, hwalks₂⟩ := WalkData.walks_leads hx hleads hword
    refine PassesEvents.of_walks ?_ (hwalks.trans hwalks₂)
    exact (PassesEvents.leaf hs hx hcell hd hword₂).append fun x' st' hx' hst' =>
      ih hrest x' fs pt0End st' hx' hpath hnodup (hst'.atItems hcells)
  | openList hleads hcell hopen _ ih =>
    obtain ⟨-, hrest⟩ := List.forall_mem_cons.mp hbelow
    obtain ⟨pt0, st₁, hword, hcells, hwalks⟩ := hst.exists_atWord hx
    obtain ⟨st₂, hword₂, hwalks₂⟩ := WalkData.walks_leads hx hleads hword
    refine PassesEvents.of_walks ?_ (hwalks.trans hwalks₂)
    exact (PassesEvents.openList hx hcell (hpath ▸ hopen) hword₂).append fun x' st' hx' hst' =>
      ih hrest x' fs pt0End st' hx' hpath hnodup (hst'.atItems hcells)
  | @list path rest es es' q src q' src' p hleads hcell hopen _ _ ihargs ih =>
    obtain ⟨hfirst, hrest⟩ := List.forall_mem_cons.mp hbelow
    obtain ⟨pt0, st₁, hword, hcells, hwalks⟩ := hst.exists_atWord hx
    obtain ⟨st₂, hword₂, hwalks₂⟩ := WalkData.walks_leads hx hleads hword
    subst hpath
    have hhere := below_of_leads hleads hfirst
    have hargs : ∀ it ∈ [(q', p), (p + 1, p + 1)], Below hp s root (.arg p :: fs.map Prod.fst) it.1 it.2 := by
      rw [List.forall_mem_cons, List.forall_mem_singleton]
      exact ⟨hhere.head hcell hopen, hhere.tail hcell hopen⟩
    have hnodup' : (((Place.arg p, pt0, pt0End) :: fs).map Prod.fst).Nodup := List.nodup_cons.mpr ⟨hopen, hnodup⟩
    refine PassesEvents.of_walks ?_ (hwalks.trans hwalks₂)
    rw [List.cons_append]
    refine (PassesEvents.list hs hx hcell hhere hopen hnodup hword₂).cons fun x' st' hx' hst' => ?_
    have hitems : x'.AtItems hp s ((.arg p, pt0, pt0End) :: fs) max (p + 2) [(q', p), (p + 1, p + 1)] st' :=
      ⟨p + 1, .inr ⟨q', p, hst', by rw [remaining_one]; rfl⟩⟩
    refine (ihargs hargs x' _ (p + 2) st' hx' rfl hnodup' hitems).append fun x'' st'' hx'' hst'' => ?_
    refine PassesEvents.of_walks ?_ (hst''.walks_pop hopen)
    exact ih hrest x'' fs pt0End _ hx'' rfl hnodup ⟨pt0, .inl ⟨rfl, hcells⟩⟩
  | openCompound hleads hcell hf hopen _ ih =>
    obtain ⟨hfirst, hrest⟩ := List.forall_mem_cons.mp hbelow
    obtain ⟨pt0, st₁, hword, hcells, hwalks⟩ := hst.exists_atWord hx
    obtain ⟨st₂, hword₂, hwalks₂⟩ := WalkData.walks_leads hx hleads hword
    subst hpath
    refine PassesEvents.of_walks ?_ (hwalks.trans hwalks₂)
    have hhere := below_of_leads hleads hfirst
    refine (PassesEvents.compound hs hx hcell hhere hf hnodup hword₂).cons fun x' st' hx' hst' => ?_
    rw [if_pos hopen] at hst'
    exact ih hrest x' fs pt0End st' hx' rfl hnodup (hst'.atItems hcells)
  | @compound path rest es es' q src q' src' p f hleads hcell hf hopen _ _ ihargs ih =>
    obtain ⟨hfirst, hrest⟩ := List.forall_mem_cons.mp hbelow
    obtain ⟨pt0, st₁, hword, hcells, hwalks⟩ := hst.exists_atWord hx
    obtain ⟨st₂, hword₂, hwalks₂⟩ := WalkData.walks_leads hx hleads hword
    subst hpath
    have hhere := below_of_leads hleads hfirst
    have hargs : ∀ it ∈ ownCells (List.range' (p + 1) f.arityOfFE),
        Below hp s root (.functor p :: fs.map Prod.fst) it.1 it.2 := by
      intro it hit
      obtain ⟨a, ha, rfl⟩ := List.mem_map.mp hit
      exact hhere.argument hcell hf hopen ha
    have hnodup' : (((Place.functor p, pt0, pt0End) :: fs).map Prod.fst).Nodup := List.nodup_cons.mpr ⟨hopen, hnodup⟩
    refine PassesEvents.of_walks ?_ (hwalks.trans hwalks₂)
    rw [List.cons_append]
    refine (PassesEvents.compound hs hx hcell hhere hf hnodup hword₂).cons fun x' st' hx' hst' => ?_
    rw [if_neg hopen] at hst'
    have hblock : ownCells (List.range' (p + 1) f.arityOfFE) = ownCells (remaining (p + 1) (p + 1 + f.arityOfFE)) := by
      rw [remaining, Nat.add_sub_cancel_left]
    refine (ihargs hargs x' _ _ st' hx' rfl hnodup' (hst'.atItems hblock)).append fun x'' st'' hx'' hst'' => ?_
    refine PassesEvents.of_walks ?_ (hst''.walks_pop hopen)
    exact ih hrest x'' fs pt0End _ hx'' rfl hnodup ⟨pt0, .inl ⟨rfl, hcells⟩⟩

-- ---------------------------------------------------------------------------
-- The whole walk
-- ---------------------------------------------------------------------------

/-- The walk starts again after some of the events. -/
def Hooks.Restarts (h : Hooks σ ω) (es : List WalkEvent) (x x' : WalkData σ) : Prop :=
  ∃ es₁ x₁, es₁ <+: es ∧ h.run x es₁ = .done x₁ ∧ x' = h.again x₁

/-- A walk that has passed all events leaves the store. -/
theorem WalkData.AtItems.returns {st : WalkState σ} (hx : x.Sound s) (hst : x.AtItems hp s [] max pt0End [] st) :
    Machine.Returns (WalkState.turn · h root) st (h.nomore x.data, cellWords hp s) := by
  obtain ⟨pt0, ⟨rfl, hitems⟩ | ⟨q', src', -, hitems⟩⟩ := hst
  · have hend : ¬ pt0 < pt0End := by
      intro hlt
      rw [remaining_of_lt hlt] at hitems
      cases hitems
    refine Machine.returns_of_exit ?_
    have hclean : WalkState.cleanTr x.trail (x.beneath hp s) = cellWords hp s := hx.cleanTr
    rw [← hclean]
    exact if_neg hend
  · cases hitems

/-- The walk has the result of its hooks, after it has started again until its stack was
    large enough. -/
theorem HasEvents.termVisit {R : Finset Addr} {es : List WalkEvent} (hR : Closed hp R s.cell) (hroot : root ∈ R)
    (hv : HasEvents hp s [] [(root, root)] es) (hs : h.Silent) (hx : x.Sound s) :
    ∃ x₀, ReflTransGen (h.Restarts es) x x₀ ∧ (Fits hp s root 1024 → x₀ = x) ∧
      match h.run x₀ es with
      | .done x' => Yap.termVisit h root (x.beneath hp s) x.trail x.data (h.nomore x'.data, cellWords hp s)
      | .quit w x' => Yap.termVisit h root (x.beneath hp s) x.trail x.data (w, x'.beneath hp s)
      | .bad => True := by
  have hbelow : ∀ it ∈ [(root, root)], Below hp s root [] it.1 it.2 := by
    rw [List.forall_mem_singleton]
    exact .root
  -- the stack doubles, so the walk starts again only while the stack is smaller than the room
  have hmain : ∀ n max (x : WalkData σ), 0 < max → R.card + 34 - max = n → x.Sound s →
      ∃ x₀, ReflTransGen (h.Restarts es) x x₀ ∧ (Fits hp s root max → x₀ = x) ∧
        match h.run x₀ es with
        | .done x' => Machine.Returns (WalkState.turn · h root) (x.state hp s [] max root (root + 1) none)
            (h.nomore x'.data, cellWords hp s)
        | .quit w x' => Machine.Returns (WalkState.turn · h root) (x.state hp s [] max root (root + 1) none)
            (w, x'.beneath hp s)
        | .bad => True := by
    intro n
    induction n using Nat.strong_induction_on with
    | h n ih =>
      intro max x hmax hn hx
      have hstart : x.AtItems hp s [] max (root + 1) [(root, root)] (x.state hp s [] max root (root + 1) none) :=
        ⟨root, .inl ⟨rfl, by rw [remaining_one]; rfl⟩⟩
      rcases hv.passes hs hbelow x [] (root + 1) _ hx rfl List.nodup_nil hstart with
        ⟨es₁, x₁, hpre, hrun, hfits, hwalks⟩ | hres
      · have hlt : max < R.card + 34 := not_le.mp fun hle => hfits (fits_of_card hR hroot hle)
        obtain ⟨x₀, hreach, -, hres⟩ := ih _ (by omega) (2 * max) (h.again x₁) (by omega) rfl (WalkData.start_sound _)
        refine ⟨x₀, .head ⟨es₁, x₁, hpre, hrun, rfl⟩ hreach, fun hfits' => absurd hfits' hfits, ?_⟩
        cases hout : h.run x₀ es with
        | done x' =>
          rw [hout] at hres
          exact (Machine.returns_reaches hwalks).mpr hres
        | quit w x' =>
          rw [hout] at hres
          exact (Machine.returns_reaches hwalks).mpr hres
        | bad => trivial
      · refine ⟨x, .refl, fun _ => rfl, ?_⟩
        cases hout : h.run x es with
        | done x' =>
          rw [hout] at hres
          obtain ⟨hx', st', hst', hwalks⟩ := hres
          exact (Machine.returns_reaches hwalks).mpr (hst'.returns hx')
        | quit w x' =>
          rw [hout] at hres
          exact hres
        | bad => trivial
  exact hmain _ 1024 x (by norm_num) rfl hx

end Yap
