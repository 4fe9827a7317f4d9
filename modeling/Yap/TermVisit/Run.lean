-- SUMMARY: A run of the walk does what its hooks make of the events, and leaves the memory as it was but for the variables that it has bound.
import Yap.TermVisit.Events

/-!
# Runs of the walk

The memory of the walk is the one of the store with the marks of the open places and
what bound variables hold. The walk passes the events, or it is ended by a hook, or it
starts again.
-/

namespace Yap

open Relation

variable {σ ω : Type} {hp : Heap} {s : Store}

-- ---------------------------------------------------------------------------
-- Marks
-- ---------------------------------------------------------------------------

/-- The index of the frame of an open place. -/
def markIndex : List Place → Place → Option ℕ
  | [], _ => none
  | pl :: path, x => if pl = x then some path.length else markIndex path x

theorem markIndex_of_notMem {path : List Place} {pl : Place} (h : pl ∉ path) : markIndex path pl = none := by
  induction path with
  | nil => rfl
  | cons pl' path ih =>
    obtain ⟨hne, hnotMem⟩ := not_or.mp (List.mem_cons.not.mp h)
    exact (if_neg fun heq => hne heq.symm).trans (ih hnotMem)

/-- The index is the one of a frame for the place. -/
theorem exists_markIndex {α : Type} {fs : List (Place × α)} {pl : Place} (h : pl ∈ fs.map Prod.fst) :
    ∃ k b, markIndex (fs.map Prod.fst) pl = some k ∧ k < fs.length ∧ fs.reverse[k]? = some (pl, b) := by
  induction fs with
  | nil => cases h
  | cons f fs ih =>
    obtain ⟨pl', b⟩ := f
    by_cases heq : pl' = pl
    · subst heq
      refine ⟨fs.length, b, ?_, Nat.lt_succ_self _, ?_⟩
      · exact (if_pos rfl).trans (congrArg some (List.length_map _))
      · rw [List.reverse_cons, List.getElem?_append_right (by simp), List.length_reverse, Nat.sub_self]
        rfl
    · have hmem : pl ∈ fs.map Prod.fst := (List.mem_cons.mp h).resolve_left fun hpl => heq hpl.symm
      obtain ⟨k, b', hk, hlt, hget⟩ := ih hmem
      refine ⟨k, b', (if_neg heq).trans hk, Nat.lt_succ_of_lt hlt, ?_⟩
      rw [List.reverse_cons, List.getElem?_append_left (by simpa using hlt), hget]

namespace WalkData

variable (hp s) in
/-- What is in a place, or in the frame of the mark there. -/
def beneath (x : WalkData σ) : Place → WalkWord
  | .arg a => (x.held a).getD (.cell (s.cell a))
  | .functor p => .functor (hp.functorAt p)

variable (hp s) in
/-- The memory with marks in the open places. -/
def memory (x : WalkData σ) (path : List Place) (pl : Place) : WalkWord :=
  (markIndex path pl).elim (x.beneath hp s pl) .mark

variable (hp s) in
/-- The walk with open places, each with the cells to return to. -/
def state (x : WalkData σ) (fs : List (Place × Addr × Addr)) (max : ℕ) (pt0 pt0End : Addr)
    (d0 : Option (Addr × WalkWord)) : WalkState σ where
  memory := x.memory hp s (fs.map Prod.fst)
  trail := x.trail
  frames := fs.map fun f => ⟨f.1, x.beneath hp s f.1, f.2.1, f.2.2⟩
  max := max
  pt0 := pt0
  pt0End := pt0End
  d0 := d0
  data := x.data

variable (s) in
/-- Variables hold constants and are on the trail, which has unbound variables of the store. -/
structure Sound (x : WalkData σ) : Prop where
  held : ∀ a w, x.held a = some w → a ∈ x.trail ∧ w.IsConstant
  trail : ∀ a ∈ x.trail, s.cell a = .ref a

variable {x : WalkData σ} {path : List Place} {pl : Place} {fs : List (Place × Addr × Addr)} {max : ℕ}
  {pt0 pt0End : Addr} {d0 : Option (Addr × WalkWord)}

theorem Sound.beneath_ne_mark (hx : x.Sound s) (pl : Place) (k : ℕ) : x.beneath hp s pl ≠ .mark k := by
  cases pl with
  | functor p => exact fun h => by cases h
  | arg a =>
    rw [beneath]
    cases hheld : x.held a with
    | none => exact fun h => by cases h
    | some w =>
      have hconst := (hx.held a w hheld).2
      exact fun h => by cases (show (WalkWord.mark k).IsConstant from h ▸ hconst)

/-- A cell that is not an unbound variable holds what it has in the store. -/
theorem Sound.beneath_arg (hx : x.Sound s) {a : Addr} (h : s.cell a ≠ .ref a) :
    x.beneath hp s (.arg a) = .cell (s.cell a) := by
  rw [beneath]
  cases hheld : x.held a with
  | none => rfl
  | some w => exact absurd (hx.trail a (hx.held a w hheld).1) h

theorem memory_of_notMem (h : pl ∉ path) : x.memory hp s path pl = x.beneath hp s pl := by
  rw [memory, markIndex_of_notMem h]
  rfl

theorem Sound.isVisitMarker_memory (hx : x.Sound s) (pl : Place) :
    (x.state hp s fs max pt0 pt0End d0).isVisitMarker (x.memory hp s (fs.map Prod.fst) pl) =
      decide (pl ∈ fs.map Prod.fst) := by
  by_cases hpl : pl ∈ fs.map Prod.fst
  · obtain ⟨k, b, hk, hlt, -⟩ := exists_markIndex hpl
    rw [memory, hk, decide_eq_true hpl]
    exact decide_eq_true ((Nat.le_of_lt hlt).trans_eq (List.length_map _).symm)
  · rw [memory_of_notMem hpl, decide_eq_false hpl]
    unfold WalkState.isVisitMarker
    split
    case h_1 k hk => exact absurd hk (hx.beneath_ne_mark pl k)
    case h_2 => rfl

theorem visitUnmark_of_ne_mark {st : WalkState σ} {w : WalkWord} (h : ∀ k, w ≠ .mark k) : st.visitUnmark w = w := by
  unfold WalkState.visitUnmark
  split
  case h_1 k => exact absurd rfl (h k)
  case h_2 => rfl

theorem Sound.visitUnmark_beneath (hx : x.Sound s) (pl : Place) (st : WalkState σ) :
    st.visitUnmark (x.beneath hp s pl) = x.beneath hp s pl :=
  visitUnmark_of_ne_mark (hx.beneath_ne_mark pl)

/-- A place is read through its mark. -/
theorem Sound.visitUnmark_memory (hx : x.Sound s) (pl : Place) :
    (x.state hp s fs max pt0 pt0End d0).visitUnmark (x.memory hp s (fs.map Prod.fst) pl) = x.beneath hp s pl := by
  by_cases hpl : pl ∈ fs.map Prod.fst
  · obtain ⟨k, b, hk, -, hget⟩ := exists_markIndex hpl
    rw [memory, hk]
    simp only [Option.elim, WalkState.visitUnmark, state, ← List.map_reverse, List.getElem?_map, hget, Option.map_some]
  · rw [memory_of_notMem hpl]
    exact hx.visitUnmark_beneath pl _

-- ---------------------------------------------------------------------------
-- Marking and writing
-- ---------------------------------------------------------------------------

variable (hp s) in
theorem update_memory_mark (x : WalkData σ) (path : List Place) (pl : Place) :
    Function.update (x.memory hp s path) pl (.mark path.length) = x.memory hp s (pl :: path) := by
  funext pl'
  by_cases hpl : pl' = pl
  · subst hpl
    rw [Function.update_self, memory, markIndex, if_pos rfl]
    rfl
  · rw [Function.update_of_ne hpl, memory, memory, markIndex, if_neg fun heq => hpl heq.symm]

theorem update_memory_beneath (h : pl ∉ path) :
    Function.update (x.memory hp s (pl :: path)) pl (x.beneath hp s pl) = x.memory hp s path := by
  rw [← update_memory_mark, Function.update_idem, ← memory_of_notMem h, Function.update_eq_self]

theorem state_push (pl : Place) (a b : Addr) (d : Option (Addr × WalkWord)) :
    (x.state hp s fs max pt0 pt0End d0).push pl (x.beneath hp s pl) a b d =
      x.state hp s ((pl, pt0, pt0End) :: fs) max a b d := by
  have hmemory := update_memory_mark hp s x (fs.map Prod.fst) pl
  rw [List.length_map] at hmemory
  simp only [WalkState.push, state, List.length_map, hmemory, List.map_cons]

theorem state_pop {a b : Addr} (h : pl ∉ fs.map Prod.fst) :
    (x.state hp s ((pl, a, b) :: fs) max pt0 pt0End d0).pop ⟨pl, x.beneath hp s pl, a, b⟩
        (x.state hp s fs max a b none).frames = x.state hp s fs max a b none := by
  simp only [WalkState.pop, state, List.map_cons, update_memory_beneath h]

theorem unwind_state (h : (fs.map Prod.fst).Nodup) :
    (x.state hp s fs max pt0 pt0End d0).unwind = x.beneath hp s := by
  induction fs with
  | nil => rfl
  | cons f fs ih =>
    obtain ⟨hnotMem, hnodup⟩ := List.nodup_cons.mp h
    have hpop : Function.update (x.memory hp s (f.1 :: fs.map Prod.fst)) f.1 (x.beneath hp s f.1) =
        x.memory hp s (fs.map Prod.fst) := update_memory_beneath hnotMem
    rw [WalkState.unwind] at ih ⊢
    simp only [state, List.map_cons, Trail.rewind] at ih ⊢
    rw [hpop]
    exact ih hnodup

/-- Cleaning the trail leaves the store. -/
theorem Sound.cleanTr (hx : x.Sound s) : WalkState.cleanTr x.trail (x.beneath hp s) = cellWords hp s := by
  have hclean : ∀ (trail : List Addr) (m : Place → WalkWord), (∀ a ∈ trail, s.cell a = .ref a) →
      (∀ pl, m pl = cellWords hp s pl ∨ ∃ a ∈ trail, pl = .arg a) → WalkState.cleanTr trail m = cellWords hp s := by
    intro trail
    induction trail with
    | nil =>
      intro m _ hm
      funext pl
      rcases hm pl with h | ⟨b, hb, -⟩
      · exact h
      · cases hb
    | cons a trail ih =>
      intro m htrail hm
      refine ih (Function.update m (.arg a) (.cell (.ref a))) (fun b hb => htrail b (List.mem_cons_of_mem _ hb)) fun pl => ?_
      by_cases hpl : pl = .arg a
      · subst hpl
        rw [Function.update_self, cellWords, htrail a (List.mem_cons_self ..)]
        exact .inl rfl
      · rw [Function.update_of_ne hpl]
        rcases hm pl with h | ⟨b, hb, heq⟩
        · exact .inl h
        · refine .inr ⟨b, (List.mem_cons.mp hb).resolve_left fun hba => ?_, heq⟩
          exact hpl (heq.trans (congrArg _ hba))
  refine hclean _ _ hx.trail fun pl => ?_
  cases pl with
  | functor p => exact .inl rfl
  | arg a =>
    cases hheld : x.held a with
    | none =>
      refine .inl ?_
      rw [beneath, hheld]
      rfl
    | some w => exact .inr ⟨a, (hx.held a w hheld).1, rfl⟩

theorem mem_places {f : Place × Addr × Addr} (hf : f ∈ fs) (h : pl ∉ fs.map Prod.fst) : f.1 ≠ pl :=
  fun heq => h (heq ▸ List.mem_map_of_mem hf)

theorem Sound.withData (hx : x.Sound s) (data : σ) : (x.withData data).Sound s := ⟨hx.held, hx.trail⟩

theorem Sound.update (hx : x.Sound s) {x' : WalkData σ} {v : Addr} {w : WalkWord}
    (hheld : x'.held = Function.update x.held v (some w)) (hw : w.IsConstant) (hv : v ∈ x'.trail)
    (hsub : ∀ a ∈ x.trail, a ∈ x'.trail) (htrail : ∀ a ∈ x'.trail, s.cell a = .ref a) : x'.Sound s := by
  refine ⟨fun a w' ha => ?_, htrail⟩
  rw [hheld] at ha
  by_cases hav : a = v
  · subst hav
    rw [Function.update_self] at ha
    exact ⟨hv, Option.some.inj ha ▸ hw⟩
  · rw [Function.update_of_ne hav] at ha
    exact ⟨hsub a (hx.held a w' ha).1, (hx.held a w' ha).2⟩

theorem Sound.bind (hx : x.Sound s) {v : Addr} (hv : s.cell v = .ref v) : (x.bind v).Sound s := by
  refine hx.update rfl trivial (List.mem_cons_self ..) (fun a ha => List.mem_cons_of_mem _ ha) fun a ha => ?_
  rcases List.mem_cons.mp ha with rfl | ha
  · exact hv
  · exact hx.trail a ha

theorem Sound.write (hx : x.Sound s) {v : Addr} {w₀ w : WalkWord} (hv : x.held v = some w₀) (hw : w.IsConstant) :
    (x.write v w).Sound s :=
  hx.update rfl hw (hx.held v w₀ hv).1 (fun _ ha => ha) hx.trail

variable (hp s max pt0 pt0End d0 x) in
/-- Writing to a variable whose cell is not marked. -/
theorem memory_update (x' : WalkData σ) {v : Addr} {w : WalkWord} (hheld : x'.held = Function.update x.held v (some w))
    (h : .arg v ∉ fs.map Prod.fst) :
    Function.update (x.memory hp s (fs.map Prod.fst)) (.arg v) w = x'.memory hp s (fs.map Prod.fst) ∧
      (x.state hp s fs max pt0 pt0End d0).frames = (x'.state hp s fs max pt0 pt0End d0).frames := by
  have hbeneath : ∀ pl ≠ .arg v, x.beneath hp s pl = x'.beneath hp s pl := by
    intro pl hpl
    cases pl with
    | functor p => rfl
    | arg a =>
      rw [beneath, beneath, hheld, Function.update_of_ne fun heq => hpl (congrArg _ heq)]
  refine ⟨funext fun pl => ?_, List.map_congr_left fun f hf => by rw [hbeneath _ (mem_places hf h)]⟩
  by_cases hpl : pl = .arg v
  · subst hpl
    rw [Function.update_self, memory_of_notMem h, beneath, hheld, Function.update_self]
    rfl
  · rw [Function.update_of_ne hpl, memory, memory, hbeneath pl hpl]

/-- Binding a variable whose cell is marked changes nothing. -/
theorem Sound.mBindAndTrail_open (hx : x.Sound s) {v : Addr} (h : .arg v ∈ fs.map Prod.fst) :
    (x.state hp s fs max pt0 pt0End d0).mBindAndTrail v = x.state hp s fs max pt0 pt0End d0 :=
  if_pos ((hx.isVisitMarker_memory _).trans (decide_eq_true h))

theorem Sound.mBindAndTrail_closed (hx : x.Sound s) {v : Addr} (h : .arg v ∉ fs.map Prod.fst) :
    (x.state hp s fs max pt0 pt0End d0).mBindAndTrail v = (x.bind v).state hp s fs max pt0 pt0End d0 := by
  have hmark : (x.state hp s fs max pt0 pt0End d0).isVisitMarker (x.memory hp s (fs.map Prod.fst) (.arg v)) = false :=
    (hx.isVisitMarker_memory _).trans (decide_eq_false h)
  obtain ⟨hmemory, hframes⟩ := memory_update hp s x max pt0 pt0End d0 (x.bind v) rfl h
  refine (if_neg (Bool.eq_false_iff.mp hmark)).trans ?_
  simp only [state] at hmemory hframes ⊢
  rw [hmemory, hframes]
  rfl

/-- A hook that writes to a bound variable whose cell is not marked. -/
theorem afterHook_write {v : Addr} {w : WalkWord} (data : σ) (h : .arg v ∉ fs.map Prod.fst) :
    (x.state hp s fs max pt0 pt0End d0).afterHook v data (some w) =
      ((x.withData data).write v w).state hp s fs max pt0 pt0End d0 := by
  obtain ⟨hmemory, hframes⟩ := memory_update hp s x max pt0 pt0End d0 ((x.withData data).write v w) rfl h
  simp only [state, WalkState.afterHook, Option.elim] at hmemory hframes ⊢
  rw [hmemory, hframes]
  rfl

end WalkData

-- ---------------------------------------------------------------------------
-- Passing events
-- ---------------------------------------------------------------------------

/-- The walk comes from one state to another. -/
abbrev WalksTo (h : Hooks σ ω) (root : Addr) : WalkState σ → WalkState σ → Prop :=
  ReflTransGen (Machine.Goes (WalkState.turn · h root))

/-- No variable is bound. -/
def WalkData.start (data : σ) : WalkData σ := ⟨data, fun _ => none, []⟩

theorem WalkData.start_sound (data : σ) : (WalkData.start data).Sound s where
  held _ _ heq := by cases heq
  trail _ hmem := by cases hmem

theorem WalkData.start_beneath (data : σ) : (WalkData.start data).beneath hp s = cellWords hp s := by
  funext pl
  cases pl <;> rfl

/-- The data when the walk starts again. -/
def Hooks.again (h : Hooks σ ω) (x : WalkData σ) : WalkData σ := .start (h.reset x.data)

/-- From a state the walk does what the hooks make of the events and comes to a state of
    a kind, unless it starts again because its stack is too small. -/
def PassesEvents (hp : Heap) (s : Store) (h : Hooks σ ω) (root : Addr) (x : WalkData σ) (es : List WalkEvent)
    (st : WalkState σ) (E : WalkData σ → WalkState σ → Prop) (max : ℕ) : Prop :=
  (∃ es₁ x₁, es₁ <+: es ∧ h.run x es₁ = .done x₁ ∧ ¬ Fits hp s root max ∧
    WalksTo h root st ((h.again x₁).state hp s [] (2 * max) root (root + 1) none)) ∨
  match h.run x es with
  | .done x' => x'.Sound s ∧ ∃ st', E x' st' ∧ WalksTo h root st st'
  | .quit w x' => Machine.Returns (WalkState.turn · h root) st (w, x'.beneath hp s)
  | .bad => True

namespace PassesEvents

variable {h : Hooks σ ω} {root : Addr} {x : WalkData σ} {es es' : List WalkEvent} {st st' : WalkState σ}
  {E E' : WalkData σ → WalkState σ → Prop} {max : ℕ}

theorem nil (hx : x.Sound s) (hst : E x st) : PassesEvents hp s h root x [] st E max :=
  .inr ⟨hx, st, hst, .refl⟩

theorem of_walks (hp' : PassesEvents hp s h root x es st' E max) (hwalks : WalksTo h root st st') :
    PassesEvents hp s h root x es st E max := by
  rcases hp' with ⟨es₁, x₁, hpre, hrun, hmax, hreach⟩ | hres
  · exact .inl ⟨es₁, x₁, hpre, hrun, hmax, hwalks.trans hreach⟩
  · refine .inr ?_
    cases hrun : h.run x es with
    | done x' =>
      rw [hrun] at hres
      obtain ⟨hx', st'', hst'', hreach⟩ := hres
      exact ⟨hx', st'', hst'', hwalks.trans hreach⟩
    | quit w x' =>
      rw [hrun] at hres
      exact (Machine.returns_reaches hwalks).mpr hres
    | bad => trivial

theorem append (hfirst : PassesEvents hp s h root x es st E max)
    (hrest : ∀ x' st', x'.Sound s → E x' st' → PassesEvents hp s h root x' es' st' E' max) :
    PassesEvents hp s h root x (es ++ es') st E' max := by
  rcases hfirst with ⟨es₁, x₁, hpre, hrun, hmax, hreach⟩ | hres
  · exact .inl ⟨es₁, x₁, hpre.trans (List.prefix_append ..), hrun, hmax, hreach⟩
  · cases hrun : h.run x es with
    | done x' =>
      rw [hrun] at hres
      obtain ⟨hx', st', hst', hwalks⟩ := hres
      rcases (hrest x' st' hx' hst').of_walks hwalks with ⟨es₁, x₁, hpre, hrun₁, hmax, hreach⟩ | hres'
      · refine .inl ⟨es ++ es₁, x₁, (List.prefix_append_right_inj es).mpr hpre, ?_, hmax, hreach⟩
        rw [Hooks.run_append, hrun]
        exact hrun₁
      · refine .inr ?_
        rw [Hooks.run_append, hrun]
        exact hres'
    | quit w x' =>
      refine .inr ?_
      rw [hrun] at hres
      rw [Hooks.run_append, hrun]
      exact hres
    | bad =>
      refine .inr ?_
      rw [Hooks.run_append, hrun]
      trivial

/-- An event, and then others. -/
theorem cons {e : WalkEvent} (hfirst : PassesEvents hp s h root x [e] st E max)
    (hrest : ∀ x' st', x'.Sound s → E x' st' → PassesEvents hp s h root x' es' st' E' max) :
    PassesEvents hp s h root x (e :: es') st E' max :=
  hfirst.append hrest

end PassesEvents

end Yap
