-- SUMMARY: A run without bindings walks through the terms of its memory: it ends, and it succeeds only on identical terms, whatever the links it reads; a run on finite terms ends.
import Yap.Base.Preorder
import Yap.Unify.Solutions

/-!
# The walk

On a memory of finite terms the moves of the loop follow the first difference of
the two sides in preorder. A link is read in place of the term it overwrites, but
the two agree up to and including the first difference that remains.
-/

namespace Yap

open Relation Preorder

variable {hp : Heap} {R : Finset Addr} {σ : Addr → Term} {a b : Key}

-- ---------------------------------------------------------------------------
-- Terms in preorder
-- ---------------------------------------------------------------------------

/-- Terms labelled by the keys of their cells. -/
def keyLabelling : Labelling Term Key where
  label := Term.key
  args := Term.args
  heads := Term.keys
  heads_eq t := by
    rw [Term.keys_eq, Term.blockCells, List.map_flatMap]
    rfl
  arity h := (Term.sameHead_of_key_eq h).length_args

/-- The marks at the ends of the two sides. -/
def endLeft : Key := ⟨8, 0, []⟩

def endRight : Key := ⟨9, 0, []⟩

theorem rank_le_of_mem_keys {t : Term} {k : Key} (h : k ∈ t.keys) : k.rank ≤ 7 := by
  obtain ⟨u, -, rfl⟩ := List.mem_map.mp h
  have hrank := u.rank_cases
  simp only [Term.rank] at hrank
  omega

theorem notMem_blockHeads {ts : List Term} {k : Key} (hk : 7 < k.rank) :
    k ∉ keyLabelling.blockHeads ts := by
  intro h
  obtain ⟨t, -, hmem⟩ := List.mem_flatMap.mp h
  exact absurd (rank_le_of_mem_keys hmem) (by omega)

/-- The keys of the left or the right sides of pairs of cells. -/
def sideKeys (σ : Addr → Term) (side : Addr × Addr → Addr) (prs : List (Addr × Addr)) : List Key :=
  keyLabelling.blockHeads (prs.map (σ ∘ side))

theorem sideKeys_cons (side : Addr × Addr → Addr) (pr : Addr × Addr) (prs : List (Addr × Addr)) :
    sideKeys σ side (pr :: prs) = (σ (side pr)).keys ++ sideKeys σ side prs := rfl

theorem sideKeys_append (side : Addr × Addr → Addr) (prs prs' : List (Addr × Addr)) :
    sideKeys σ side (prs ++ prs') = sideKeys σ side prs ++ sideKeys σ side prs' := by
  simp [sideKeys]

theorem sideKeys_fst_zip (l r : Addr) (n : ℕ) :
    sideKeys σ Prod.fst ((List.range' l n).zip (List.range' r n)) =
      keyLabelling.blockHeads ((List.range' l n).map σ) := by
  have hfst : ((List.range' l n).zip (List.range' r n)).map Prod.fst = List.range' l n :=
    List.map_fst_zip (by simp)
  rw [sideKeys, ← List.map_map, hfst]

theorem sideKeys_snd_zip (l r : Addr) (n : ℕ) :
    sideKeys σ Prod.snd ((List.range' l n).zip (List.range' r n)) =
      keyLabelling.blockHeads ((List.range' r n).map σ) := by
  have hsnd : ((List.range' l n).zip (List.range' r n)).map Prod.snd = List.range' r n :=
    List.map_snd_zip (by simp)
  rw [sideKeys, ← List.map_map, hsnd]

/-- The keys of a word with argument cells. -/
theorem keys_value_of_block {d : Nonvar} {l : Addr} {n : ℕ} (h : d.block hp = (l, n)) :
    (d.value hp σ).keys =
      (d.value hp σ).key :: keyLabelling.blockHeads ((List.range' l n).map σ) := by
  have hheads := keyLabelling.heads_eq (d.value hp σ)
  have hargs : keyLabelling.args (d.value hp σ) = (List.range' l n).map σ := by
    rw [← Nonvar.cells_of_block h]
    exact d.args_value σ
  rw [hargs] at hheads
  exact hheads

-- ---------------------------------------------------------------------------
-- Moves
-- ---------------------------------------------------------------------------

variable (hp R σ a b) in
/-- The two sides differ first after `n` keys, in `a` and `b`, and a cell and what it
    is linked to agree on these keys and the next. -/
structure Walks (st : UnifyState) (n : ℕ) : Prop extends InRegion hp R st where
  diff : FirstDiff n (sideKeys σ Prod.fst st.pairs ++ [endLeft])
    (sideKeys σ Prod.snd st.pairs ++ [endRight]) a b
  links : ∀ c ∈ R, keyLabelling.Agree (n + 1) (σ c) ((st.store.cell c).value hp σ)

/-- Two words agree with the cells that led to them. -/
theorem Walks.deref {st : UnifyState} {n : ℕ} (h : Walks hp R σ a b st n) {x : Addr} (hx : x ∈ R) :
    keyLabelling.Agree (n + 1) (σ x) ((st.store.deref (.ref x)).value hp σ) :=
  (Store.deref_chain h.closed
    (r := fun c d => keyLabelling.Agree (n + 1) (c.value hp σ) (d.value hp σ))
    (fun _ => .refl _ _) (fun _ _ _ h h' => h.trans h') h.links (Cell.within_ref.mpr hx)).1

/-- The words of the next pair start sides with the same first difference. -/
theorem Walks.diff_next {st : UnifyState} {n : ℕ} (h : Walks hp R σ a b st n)
    (hlt : st.frame.pt0 < st.frame.pt0End) :
    FirstDiff n
      (((st.store.deref (.ref st.frame.pt0)).value hp σ).keys ++
        (sideKeys σ Prod.fst ({ st with frame := st.frame.advance } : UnifyState).pairs ++ [endLeft]))
      (((st.store.deref (.ref st.frame.pt1)).value hp σ).keys ++
        (sideKeys σ Prod.snd ({ st with frame := st.frame.advance } : UnifyState).pairs ++ [endRight]))
      a b := by
  have hpairs := UnifyState.pairs_next hlt
  have hmem : (st.frame.pt0, st.frame.pt1) ∈ st.pairs := by
    rw [hpairs]
    exact List.mem_cons_self ..
  obtain ⟨hx, hy⟩ := h.pairs _ hmem
  have hdiff := h.diff
  rw [hpairs, sideKeys_cons, sideKeys_cons, List.append_assoc, List.append_assoc] at hdiff
  exact (hdiff.congr_left (take_append_congr (h.deref hx) _)).congr_right
    (take_append_congr (h.deref hy) _)

theorem Walks.ret {st : UnifyState} {n : ℕ} (h : Walks hp R σ a b st n) {frame : Frame}
    {toVisit : List Frame} (hlt : ¬ st.frame.pt0 < st.frame.pt0End) (hv : st.toVisit = frame :: toVisit) :
    Walks hp R σ a b { st with frame, toVisit } n := by
  refine ⟨h.toInRegion.move (.ret hlt hv), ?_, h.links⟩
  rw [← UnifyState.pairs_return hlt hv]
  exact h.diff

/-- Behind two cells with one value the first difference is nearer by their keys. -/
theorem Walks.next {st : UnifyState} {n : ℕ} (h : Walks hp R σ a b st n)
    (hlt : st.frame.pt0 < st.frame.pt0End)
    (hstep : unifyArgs hp st.store st.frame.pt0 st.frame.pt1 = .next) :
    ∃ m, n = ((st.store.deref (.ref st.frame.pt1)).value hp σ).keys.length + m ∧
      (st.store.deref (.ref st.frame.pt0)).value hp σ = (st.store.deref (.ref st.frame.pt1)).value hp σ ∧
      Walks hp R σ a b { st with frame := st.frame.advance } m := by
  have hspec := unifyArgs_spec hp st.store st.frame.pt0 st.frame.pt1
  rw [hstep] at hspec
  cases hspec with
  | next hvalue =>
      have hdiff := h.diff_next hlt
      rw [hvalue] at hdiff
      obtain ⟨m, rfl, hm⟩ := hdiff.of_append
      exact ⟨m, rfl, hvalue σ, h.toInRegion.move (.next hlt hstep), hm,
        fun c hc => (h.links c hc).mono (by omega)⟩

/-- Below two cells with one label the first difference is nearer by one key. -/
theorem Walks.visit {st : UnifyState} {n : ℕ} (h : Walks hp R σ a b st n)
    (hlt : st.frame.pt0 < st.frame.pt0End) {l r : Addr} {k : ℕ} {d1 : Nonvar}
    (hstep : unifyArgs hp st.store st.frame.pt0 st.frame.pt1 = .visit l r k d1) :
    ∃ m, n = m + 1 ∧ keyLabelling.Agree n (σ st.frame.pt0) (d1.value hp σ) ∧
      Walks hp R σ a b (st.descend l r k d1) m := by
  have hspec := unifyArgs_spec hp st.store st.frame.pt0 st.frame.pt1
  rw [hstep] at hspec
  have hmem : (st.frame.pt0, st.frame.pt1) ∈ st.pairs := by
    rw [UnifyState.pairs_next hlt]
    exact List.mem_cons_self ..
  cases hspec with
  | @visit d0 _ _ _ _ hd0 hd1 hl hr hkey =>
      have hdiff := h.diff_next hlt
      rw [hd0, hd1] at hdiff
      have hx := (h.deref (h.pairs _ hmem).1).mono (Nat.le_succ n)
      rw [hd0] at hx
      have hagree := hx.trans (Labelling.agree_of_take hdiff.take)
      simp only [Cell.value, keys_value_of_block hl, keys_value_of_block hr, List.cons_append,
        hkey σ] at hdiff
      obtain ⟨m, rfl, hm⟩ := hdiff.of_cons
      refine ⟨m, rfl, hagree, h.toInRegion.move (.visit hlt hstep), ?_, fun c hc => ?_⟩
      · rw [UnifyState.pairs_descend, sideKeys_append, sideKeys_append, sideKeys_fst_zip,
          sideKeys_snd_zip, List.append_assoc, List.append_assoc]
        exact hm
      · by_cases hcx : c = st.frame.pt0
        · subst hcx
          simp only [UnifyState.descend, Store.set, Function.update_self]
          exact hagree
        · simp only [UnifyState.descend, Store.set, Function.update_of_ne hcx]
          exact (h.links c hc).mono (by omega)

/-- A move brings the first difference nearer, or returns to a block. -/
theorem Walks.move {st st' : UnifyState} {n : ℕ} (h : Walks hp R σ a b st n) (hmove : Move hp st st') :
    ∃ n', Walks hp R σ a b st' n' ∧ 2 * n' + st'.toVisit.length < 2 * n + st.toVisit.length := by
  cases hmove with
  | ret hlt hv => exact ⟨n, h.ret hlt hv, by simp [hv]⟩
  | next hlt hstep =>
      obtain ⟨m, rfl, -, hm⟩ := h.next hlt hstep
      have hpos : 0 < (Term.keys ((st.store.deref (.ref st.frame.pt1)).value hp σ)).length := by
        rw [Term.keys_eq, List.length_cons]
        exact Nat.succ_pos _
      exact ⟨m, hm, by simp only; omega⟩
  | visit hlt hstep =>
      obtain ⟨m, rfl, -, hm⟩ := h.visit hlt hstep
      exact ⟨m, hm, by simp only [UnifyState.descend, List.length_cons]; omega⟩

theorem Walks.moves {st st' : UnifyState} {n : ℕ} (h : Walks hp R σ a b st n)
    (hmoves : ReflTransGen (Move hp) st st') : ∃ n', Walks hp R σ a b st' n' := by
  induction hmoves with
  | refl => exact ⟨n, h⟩
  | tail _ hmove ih =>
      obtain ⟨m, hm⟩ := ih
      obtain ⟨m', hm', -⟩ := hm.move hmove
      exact ⟨m', hm'⟩

/-- Before the first move there are no links. -/
theorem walks_init {s : Store} {frame : Frame} (hregion : InRegion hp R (.init s frame))
    (hσ : Models hp R s.cell σ) : ∃ a b n, Walks hp R σ a b (.init s frame) n := by
  have hmarks : endLeft ≠ endRight := by decide
  have hleft : endRight ∉ sideKeys σ Prod.fst (UnifyState.init s frame).pairs :=
    notMem_blockHeads (by decide)
  have hright : endLeft ∉ sideKeys σ Prod.snd (UnifyState.init s frame).pairs :=
    notMem_blockHeads (by decide)
  obtain ⟨n, a, b, hdiff⟩ := exists_firstDiff hmarks hleft hright
  exact ⟨a, b, n, hregion, hdiff, fun c hc => by rw [hσ c hc]; exact .refl _ _⟩

/-- A walk that ends has met no difference. -/
theorem sideKeys_eq_of_moves {s : Store} {frame : Frame} {st : UnifyState}
    (hregion : InRegion hp R (.init s frame)) (hσ : Models hp R s.cell σ)
    (hmoves : ReflTransGen (Move hp) (.init s frame) st) (hend : st.pairs = []) :
    sideKeys σ Prod.fst frame.pairs = sideKeys σ Prod.snd frame.pairs := by
  obtain ⟨a, b, n, hwalk⟩ := walks_init hregion hσ
  obtain ⟨m, hm⟩ := hwalk.moves hmoves
  have hdiff := hm.diff
  rw [hend] at hdiff
  obtain ⟨-, rfl, rfl⟩ := hdiff.of_head_ne (by decide)
  have heq := hwalk.diff.eq_of_marks (notMem_blockHeads (by decide)) (notMem_blockHeads (by decide))
  rwa [UnifyState.pairs_init] at heq

-- ---------------------------------------------------------------------------
-- Termination
-- ---------------------------------------------------------------------------

/-- No sequence of these turns goes on for ever. -/
def Ends (go : UnifyState → UnifyState → Prop) (st : UnifyState) : Prop := Acc (fun st' st => go st st') st

/-- The unbound variables of the region. -/
def unboundCells (R : Finset Addr) (m : Addr → Cell) : Finset Addr := R.filter fun a => m a = .ref a

theorem card_unboundCells_update {m : Addr → Cell} {x : Addr} {c : Cell} (hx : x ∈ R)
    (hm : m x = .ref x) (hc : c ≠ .ref x) :
    (unboundCells R (Function.update m x c)).card < (unboundCells R m).card := by
  refine Finset.card_lt_card ⟨fun y hy => ?_, fun hsub => ?_⟩
  · obtain ⟨hyR, hyu⟩ := Finset.mem_filter.mp hy
    by_cases hyx : y = x
    · subst hyx
      rw [Function.update_self] at hyu
      exact absurd hyu hc
    · rw [Function.update_of_ne hyx] at hyu
      exact Finset.mem_filter.mpr ⟨hyR, hyu⟩
  · have hmem := hsub (Finset.mem_filter.mpr ⟨hx, hm⟩)
    have hupd := (Finset.mem_filter.mp hmem).2
    rw [Function.update_self] at hupd
    exact hc hupd

/-- Between two bindings the loop makes as many moves as the terms have cells. -/
theorem Walks.ends {go : UnifyState → UnifyState → Prop} (hgo : ∀ st st', go st st' → Goes hp st st')
    {st : UnifyState} {n : ℕ} (h : Walks hp R σ a b st n) {P : UnifyState → Prop} (hP : P st)
    (hmove : ∀ {st st'}, P st → go st st' → Move hp st st' → P st')
    (hbind : ∀ {st x c} (hb : Binds hp st x c), P st → go st (st.bind hp hb.step) →
      Ends go (st.bind hp hb.step)) : Ends go st := by
  induction hm : 2 * n + st.toVisit.length using Nat.strongRecOn generalizing st n with
  | ind m ih =>
      refine ⟨_, fun st' hst => ?_⟩
      rcases UnifyState.turn_go (hgo _ _ hst) with hmv | ⟨x, c, hb, rfl⟩
      · obtain ⟨n', hwalk, hlt⟩ := h.move hmv
        exact ih _ (hm ▸ hlt) hwalk (hmove hP hst hmv) rfl
      · exact hbind hb hP hst

theorem Binds.ne_self {st : UnifyState} {x : Addr} {c : Cell} (h : Binds hp st x c) : c ≠ .ref x := by
  obtain ⟨hne, ⟨h0, h1⟩ | ⟨h0, h1⟩⟩ := unifyWords_bind bindsVars_unifyGlobalCells h.step
  · rw [← h1, ← h0]
    exact hne.symm
  · rw [← h1, ← h0]
    exact hne

/-- The run on the memory that a run has reached starts in the region. -/
theorem Reached.inRegion {s real : Store} {frame : Frame} {st : UnifyState}
    (h : Reached hp s frame st real) (hinit : InRegion hp R (.init s frame))
    (hin : InRegion hp R st) : InRegion hp R (.init real frame) :=
  ⟨h.memory ▸ hin.memory, hinit.pairs, fun _ hpr => absurd hpr List.not_mem_nil⟩

/-- The loop ends when the memory behind the links holds finite terms all along. -/
theorem ends_of_finite {go : UnifyState → UnifyState → Prop} (hgo : ∀ st st', go st st' → Goes hp st st')
    {s : Store} {frame : Frame} (hinit : InRegion hp R (.init s frame))
    (hfinite : ∀ st, ReflTransGen go (.init s frame) st →
      ∀ x ∈ R, ∃ u, Unfolds hp st.memory (.ref x) u) : Ends go (.init s frame) := by
  -- By induction on the number of unbound variables; between two bindings the walk ends.
  suffices hmain : ∀ (k : ℕ) (st : UnifyState) (real : Store), Reached hp s frame st real →
      ReflTransGen go (.init s frame) st → InRegion hp R st →
      (unboundCells R real.cell).card = k → Ends go st from
    hmain _ _ _ (reached_init s frame) .refl hinit rfl
  intro k
  induction k using Nat.strongRecOn with
  | ind k ih =>
      intro st real hreached hrun hin hk
      have hregion := hreached.inRegion hinit hin
      have hreal : Region hp real.cell Set.univ R := by
        refine ⟨hregion.closed, fun x hx => ?_⟩
        obtain ⟨u, hu⟩ := hfinite st hrun x hx
        exact ⟨u, hreached.memory ▸ hu, fun _ _ => trivial⟩
      obtain ⟨a, b, n, hwalk⟩ := walks_init hregion (models_solution hreal .var)
      obtain ⟨m, hm⟩ := hwalk.moves hreached.moves
      refine hm.ends (P := fun st => Reached hp s frame st real ∧
        ReflTransGen go (.init s frame) st ∧ InRegion hp R st) hgo ⟨hreached, hrun, hin⟩ ?_ ?_
      · rintro st st' ⟨hr, hrun, hin⟩ hst hmv
        exact ⟨hr.move hmv, hrun.tail hst, hin.move hmv⟩
      · rintro st x c hb ⟨hr, hrun, hin⟩ hst
        obtain ⟨hx, real', hreal', hr'⟩ := hr.binds hb
        refine ih _ ?_ _ real' hr' (hrun.tail hst) (hin.binds hb) rfl
        rw [← hk, hreal']
        exact card_unboundCells_update (hb.within hin).1 hx hb.ne_self

end Yap
