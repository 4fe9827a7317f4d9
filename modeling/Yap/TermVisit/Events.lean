-- SUMMARY: What a walk over a term comes upon, as a list of events that does not depend on the hooks, and what hooks make of a list of events.
import Yap.TermVisit.Code

/-!
# Events of a walk

A walk enters lists and compounds that it is not below, in the order of the cells. The
hooks see the lists, the compounds, and the occurrences of variables.
-/

namespace Yap

open Relation

-- ---------------------------------------------------------------------------
-- References
-- ---------------------------------------------------------------------------

/-- Following references, from the contents of `src` with `ptd0 = q`, but not to an unbound variable. -/
inductive Leads (s : Store) : Addr → Addr → Addr → Addr → Prop
  | refl (q src : Addr) : Leads s q src q src
  | ref {q src a q' src' : Addr} : s.cell src = .ref a → s.cell a ≠ .ref a → Leads s a a q' src' →
      Leads s q src q' src'

/-- The contents of a cell, followed to its end: an unbound variable or a word. -/
inductive Content (s : Store) (src : Addr) : Prop
  | var {v : Addr} : s.cell src = .ref v → s.cell v = .ref v → Content s src
  | word {d : Nonvar} : s.cell src = .nonvar d → Content s src

variable {hp : Heap} {s : Store} {q src q' src' : Addr}

theorem exists_leads (s : Store) (q src : Addr) : ∃ q' src', Leads s q src q' src' ∧ Content s src' := by
  induction src using Store.deref_induction (s := s) generalizing q with
  | unbound a ha => exact ⟨q, a, .refl q a, .var ha ha⟩
  | ref a b ha hb ih =>
    by_cases hunbound : s.cell b = .ref b
    · exact ⟨q, a, .refl q a, .var ha hunbound⟩
    · obtain ⟨q', src', hleads, hcontent⟩ := ih b
      exact ⟨q', src', .ref ha hunbound hleads, hcontent⟩
  | nonvar a d ha => exact ⟨q, a, .refl q a, .word ha⟩

theorem Leads.deref (h : Leads s q src q' src') : s.deref (.ref src) = s.deref (.ref src') := by
  induction h with
  | refl => rfl
  | @ref q src a q' src' ha hne _ ih =>
    have hsrc : a ≠ src := by
      rintro rfl
      exact hne ha
    rw [Store.deref_of_cell ha fun heq => hsrc (Cell.ref.inj heq)]
    exact ih

theorem deref_var {v : Addr} (h : s.cell src = .ref v) (hv : s.cell v = .ref v) : s.deref (.ref src) = .ref v := by
  by_cases hsrc : v = src
  · rw [hsrc] at h ⊢
    exact Store.deref_of_unbound h
  · rw [Store.deref_of_cell h fun heq => hsrc (Cell.ref.inj heq)]
    exact Store.deref_of_unbound hv

theorem deref_word {d : Nonvar} (h : s.cell src = .nonvar d) : s.deref (.ref src) = .nonvar d := by
  rw [Store.deref_of_cell h fun heq => (by cases heq)]
  rfl

/-- A region holds what its cells lead to. -/
theorem Leads.mem {R : Finset Addr} (hR : Closed hp R s.cell) (h : Leads s q src q' src') (hsrc : src ∈ R) :
    src' ∈ R := by
  induction h with
  | refl => exact hsrc
  | @ref q src a q' src' ha _ _ ih =>
    refine ih (hR src hsrc a ?_)
    rw [ha]
    exact List.mem_singleton_self a

-- ---------------------------------------------------------------------------
-- Paths
-- ---------------------------------------------------------------------------

/-- Below these places the walk of the cell `root` comes to the contents of a cell, with `ptd0`. -/
inductive Below (hp : Heap) (s : Store) (root : Addr) : List Place → Addr → Addr → Prop
  | root : Below hp s root [] root root
  | ref {path : List Place} {q src a : Addr} : Below hp s root path q src → s.cell src = .ref a → s.cell a ≠ .ref a →
      Below hp s root path a a
  | head {path : List Place} {q src p : Addr} : Below hp s root path q src → s.cell src = .nonvar (.pair p) →
      .arg p ∉ path → Below hp s root (.arg p :: path) q p
  | tail {path : List Place} {q src p : Addr} : Below hp s root path q src → s.cell src = .nonvar (.pair p) →
      .arg p ∉ path → Below hp s root (.arg p :: path) (p + 1) (p + 1)
  | argument {path : List Place} {q src p a : Addr} {f : Functor} : Below hp s root path q src →
      s.cell src = .nonvar (.appl p) → hp.functorAt p = .functor f → .functor p ∉ path →
      a ∈ List.range' (p + 1) f.arityOfFE → Below hp s root (.functor p :: path) a a

theorem below_of_leads {root : Addr} {path : List Place} (h : Leads s q src q' src') (hbelow : Below hp s root path q src) :
    Below hp s root path q' src' := by
  induction h with
  | refl => exact hbelow
  | ref ha hne _ ih => exact ih (hbelow.ref ha hne)

/-- A stack of this size is large enough for the walk of the cell `root`. -/
structure Fits (hp : Heap) (s : Store) (root : Addr) (max : ℕ) : Prop where
  list : ∀ path q src p, Below hp s root path q src → s.cell src = .nonvar (.pair p) → .arg p ∉ path →
    path.length + 33 < max
  compound : ∀ path q src p f, Below hp s root path q src → s.cell src = .nonvar (.appl p) →
    hp.functorAt p = .functor f → path.length + 32 < max

-- ---------------------------------------------------------------------------
-- Events
-- ---------------------------------------------------------------------------

/-- A list at `p`, or a compound at `p`, with `ptd0` and whether the cell there is
    marked; an occurrence of an unbound variable, with `ptd0` if the variable is bound
    by the walk, and whether its cell is marked. -/
inductive WalkEvent where
  | list (ptd0 p : Addr) (marked : Bool)
  | compound (ptd0 p : Addr) (marked : Bool)
  | occurrence (ptd0 v : Addr) (marked : Bool)
deriving DecidableEq

/-- The cells of a block, each read from its own place. -/
def ownCells (as : List Addr) : List (Addr × Addr) := as.map fun a => (a, a)

/-- The events of a walk over the contents of cells, each with `ptd0`, below the marked places. -/
inductive HasEvents (hp : Heap) (s : Store) : List Place → List (Addr × Addr) → List WalkEvent → Prop
  | nil {path : List Place} : HasEvents hp s path [] []
  | var {path : List Place} {rest : List (Addr × Addr)} {es : List WalkEvent} {q src q' src' v : Addr} :
      Leads s q src q' src' → s.cell src' = .ref v → s.cell v = .ref v → HasEvents hp s path rest es →
      HasEvents hp s path ((q, src) :: rest) (.occurrence (if src' = v then q' else v) v (decide (.arg v ∈ path)) :: es)
  | leaf {path : List Place} {rest : List (Addr × Addr)} {es : List WalkEvent} {q src q' src' : Addr} {d : Nonvar} :
      Leads s q src q' src' → s.cell src' = .nonvar d → d.cells hp = [] → HasEvents hp s path rest es →
      HasEvents hp s path ((q, src) :: rest) es
  | openList {path : List Place} {rest : List (Addr × Addr)} {es : List WalkEvent} {q src q' src' p : Addr} :
      Leads s q src q' src' → s.cell src' = .nonvar (.pair p) → .arg p ∈ path → HasEvents hp s path rest es →
      HasEvents hp s path ((q, src) :: rest) es
  | list {path : List Place} {rest : List (Addr × Addr)} {es es' : List WalkEvent} {q src q' src' p : Addr} :
      Leads s q src q' src' → s.cell src' = .nonvar (.pair p) → .arg p ∉ path →
      HasEvents hp s (.arg p :: path) [(q', p), (p + 1, p + 1)] es → HasEvents hp s path rest es' →
      HasEvents hp s path ((q, src) :: rest) (.list q' p (decide (.arg q' ∈ path)) :: es ++ es')
  | openCompound {path : List Place} {rest : List (Addr × Addr)} {es : List WalkEvent} {q src q' src' p : Addr}
      {f : Functor} : Leads s q src q' src' → s.cell src' = .nonvar (.appl p) → hp.functorAt p = .functor f →
      .functor p ∈ path → HasEvents hp s path rest es →
      HasEvents hp s path ((q, src) :: rest) (.compound q' p (decide (.arg q' ∈ path)) :: es)
  | compound {path : List Place} {rest : List (Addr × Addr)} {es es' : List WalkEvent} {q src q' src' p : Addr}
      {f : Functor} : Leads s q src q' src' → s.cell src' = .nonvar (.appl p) → hp.functorAt p = .functor f →
      .functor p ∉ path → HasEvents hp s (.functor p :: path) (ownCells (List.range' (p + 1) f.arityOfFE)) es →
      HasEvents hp s path rest es' →
      HasEvents hp s path ((q, src) :: rest) (.compound q' p (decide (.arg q' ∈ path)) :: es ++ es')

/-- The places that a walk in a region can mark. -/
def doors (s : Store) (R : Finset Addr) : Finset Place :=
  R.image fun a =>
    match s.cell a with
    | .nonvar (.appl p) => .functor p
    | .nonvar (.pair p) => .arg p
    | _ => .arg a

theorem door_pair {R : Finset Addr} {a p : Addr} (ha : a ∈ R) (h : s.cell a = .nonvar (.pair p)) : .arg p ∈ doors s R :=
  Finset.mem_image.mpr ⟨a, ha, by rw [h]⟩

theorem door_appl {R : Finset Addr} {a p : Addr} (ha : a ∈ R) (h : s.cell a = .nonvar (.appl p)) :
    .functor p ∈ doors s R :=
  Finset.mem_image.mpr ⟨a, ha, by rw [h]⟩

theorem card_doors_lt {D : Finset Place} {path : List Place} {pl : Place} (hpl : pl ∈ D) (hpath : pl ∉ path) :
    (D \ (pl :: path).toFinset).card < (D \ path.toFinset).card := by
  refine Finset.card_lt_card ⟨fun x hx => ?_, fun hsub => ?_⟩
  · rw [Finset.mem_sdiff, List.mem_toFinset] at hx ⊢
    exact ⟨hx.1, fun h => hx.2 (List.mem_cons_of_mem _ h)⟩
  · have hmem := hsub (Finset.mem_sdiff.mpr ⟨hpl, fun h => hpath (List.mem_toFinset.mp h)⟩)
    rw [Finset.mem_sdiff, List.mem_toFinset] at hmem
    exact hmem.2 (List.mem_cons_self ..)

/-- The places on a path are different ones of the region. -/
theorem Below.within {R : Finset Addr} (hR : Closed hp R s.cell) {root : Addr} (hroot : root ∈ R) {path : List Place}
    (h : Below hp s root path q src) : src ∈ R ∧ path.Nodup ∧ ∀ pl ∈ path, pl ∈ doors s R := by
  induction h with
  | root => exact ⟨hroot, List.nodup_nil, fun pl hpl => by cases hpl⟩
  | @ref path q src a _ ha _ ih =>
    refine ⟨hR src ih.1 a ?_, ih.2⟩
    rw [ha]
    exact List.mem_singleton_self a
  | @head path q src p _ hcell hpath ih =>
    refine ⟨hR src ih.1 p (by simp [hcell, Cell.cells]), List.nodup_cons.mpr ⟨hpath, ih.2.1⟩, ?_⟩
    exact List.forall_mem_cons.mpr ⟨door_pair ih.1 hcell, ih.2.2⟩
  | @tail path q src p _ hcell hpath ih =>
    refine ⟨hR src ih.1 (p + 1) (by simp [hcell, Cell.cells]), List.nodup_cons.mpr ⟨hpath, ih.2.1⟩, ?_⟩
    exact List.forall_mem_cons.mpr ⟨door_pair ih.1 hcell, ih.2.2⟩
  | @argument path q src p a f _ hcell hf hpath ha ih =>
    refine ⟨hR src ih.1 a ?_, List.nodup_cons.mpr ⟨hpath, ih.2.1⟩, ?_⟩
    · rw [hcell, Cell.cells, Nonvar.cells, Nonvar.block, hf]
      exact ha
    · exact List.forall_mem_cons.mpr ⟨door_appl ih.1 hcell, ih.2.2⟩

/-- A finite region needs a finite stack. -/
theorem fits_of_card {R : Finset Addr} (hR : Closed hp R s.cell) {root : Addr} (hroot : root ∈ R) {max : ℕ}
    (hmax : R.card + 34 ≤ max) : Fits hp s root max := by
  have hlength : ∀ path q src, Below hp s root path q src → path.length ≤ R.card := by
    intro path q src h
    obtain ⟨-, hnodup, hmem⟩ := h.within hR hroot
    rw [← List.toFinset_card_of_nodup hnodup]
    have hsub : path.toFinset ⊆ doors s R := fun pl hpl => hmem pl (List.mem_toFinset.mp hpl)
    exact (Finset.card_le_card hsub).trans Finset.card_image_le
  refine ⟨fun path q src p h _ _ => ?_, fun path q src p f h _ _ => ?_⟩
  · have := hlength path q src h
    omega
  · have := hlength path q src h
    omega

/-- A walk in a finite region has events. -/
theorem exists_visits {R : Finset Addr} (hR : Closed hp R s.cell) (path : List Place) (items : List (Addr × Addr))
    (hitems : ∀ it ∈ items, it.2 ∈ R) : ∃ es, HasEvents hp s path items es := by
  induction hn : (doors s R \ path.toFinset).card using Nat.strong_induction_on generalizing path items with
  | h n ih =>
    induction items with
    | nil => exact ⟨[], .nil⟩
    | cons it rest ihrest =>
      obtain ⟨q, src⟩ := it
      obtain ⟨es', hrest⟩ := ihrest fun it hit => hitems it (List.mem_cons_of_mem _ hit)
      obtain ⟨q', src', hleads, hcontent⟩ := exists_leads s q src
      have hsrc := hleads.mem hR (hitems _ (List.mem_cons_self ..))
      cases hcontent with
      | var hcell hv => exact ⟨_, .var hleads hcell hv hrest⟩
      | @word d hcell =>
        have hwithin : ∀ a ∈ d.cells hp, a ∈ R := by
          have hsrc' := hR src' hsrc
          rwa [hcell] at hsrc'
        cases d with
        | int m => exact ⟨_, .leaf hleads hcell rfl hrest⟩
        | atom a => exact ⟨_, .leaf hleads hcell rfl hrest⟩
        | pair p =>
          by_cases hpath : .arg p ∈ path
          · exact ⟨_, .openList hleads hcell hpath hrest⟩
          · obtain ⟨es, hes⟩ := ih _ (hn ▸ card_doors_lt (door_pair hsrc hcell) hpath) (.arg p :: path)
              [(q', p), (p + 1, p + 1)] (by simpa using hwithin) rfl
            exact ⟨_, .list hleads hcell hpath hes hrest⟩
        | appl p =>
          cases hf : hp.functorAt p with
          | blob b => exact ⟨_, .leaf hleads hcell (Nonvar.cells_blob hf) hrest⟩
          | functor f =>
            by_cases hpath : .functor p ∈ path
            · exact ⟨_, .openCompound hleads hcell hf hpath hrest⟩
            · have hargs : ∀ it ∈ ownCells (List.range' (p + 1) f.arityOfFE), it.2 ∈ R := by
                intro it hit
                obtain ⟨a, ha, rfl⟩ := List.mem_map.mp hit
                refine hwithin a ?_
                rwa [Nonvar.cells, Nonvar.block, hf]
              obtain ⟨es, hes⟩ := ih _ (hn ▸ card_doors_lt (door_appl hsrc hcell) hpath) (.functor p :: path)
                _ hargs rfl
              exact ⟨_, .compound hleads hcell hf hpath hes hrest⟩

-- ---------------------------------------------------------------------------
-- What hooks make of events
-- ---------------------------------------------------------------------------

/-- A word that a variable is bound to. -/
def WalkWord.IsConstant : WalkWord → Prop
  | .foundVar | .refoundVar | .cell (.nonvar (.atom _)) => True
  | _ => False

/-- The data of the hooks, what bound variables hold, and the trail. -/
structure WalkData (σ : Type) where
  data : σ
  held : Addr → Option WalkWord
  trail : List Addr

namespace WalkData

variable {σ : Type}

def withData (x : WalkData σ) (data : σ) : WalkData σ := { x with data := data }

/-- Binds a variable. -/
def bind (x : WalkData σ) (v : Addr) : WalkData σ :=
  { x with held := Function.update x.held v (some .foundVar), trail := v :: x.trail }

/-- Writes to a bound variable. -/
def write (x : WalkData σ) (v : Addr) (w : WalkWord) : WalkData σ := { x with held := Function.update x.held v (some w) }

end WalkData

/-- The outcome of events: all have been passed, one has ended the walk, or a hook has
    written to a cell that is not the one of a bound variable. -/
inductive WalkOutcome (σ ω : Type) where
  | done (x : WalkData σ)
  | quit (w : ω) (x : WalkData σ)
  | bad

namespace Hooks

variable {σ ω : Type} (h : Hooks σ ω)

/-- A hook that does not write. -/
def quiet (x : WalkData σ) : Except ω (σ × Option WalkWord) → WalkOutcome σ ω
  | .error w => .quit w x
  | .ok (data, none) => .done (x.withData data)
  | .ok (_, some _) => .bad

/-- What the hooks do at an event. -/
def event (x : WalkData σ) : WalkEvent → WalkOutcome σ ω
  | .list ptd0 p marked => quiet x (h.list x.data ptd0 (.cell (.nonvar (.pair p))) marked)
  | .compound ptd0 p marked => quiet x (h.compound x.data ptd0 (.cell (.nonvar (.appl p))) marked)
  | .occurrence ptd0 v marked =>
    match x.held v with
    | none =>
      match h.var x.data v with
      | .error w => .quit w x
      | .ok (data, bind) => .done (if bind = true ∧ marked = false then (x.withData data).bind v else x.withData data)
    | some w =>
      match h.atomic x.data ptd0 w marked with
      | .error w => .quit w x
      | .ok (data, none) => .done (x.withData data)
      | .ok (data, some w') => if ptd0 = v ∧ marked = false then .done ((x.withData data).write v w') else .bad

/-- What the hooks do at a list of events. -/
def run : WalkData σ → List WalkEvent → WalkOutcome σ ω
  | x, [] => .done x
  | x, e :: es =>
    match h.event x e with
    | .done x' => run x' es
    | r => r

theorem run_append (x : WalkData σ) (es es' : List WalkEvent) :
    h.run x (es ++ es') = match h.run x es with
      | .done x' => h.run x' es'
      | r => r := by
  induction es generalizing x with
  | nil => rfl
  | cons e es ih =>
    rw [List.cons_append, run, run]
    cases h.event x e with
    | done x' => exact ih x'
    | quit w x' => rfl
    | bad => rfl

/-- The hooks at lists and compounds do not write; the one at atomic words does nothing
    but at bound variables, writes constants, and does not depend on marks. -/
structure Silent : Prop where
  list : ∀ data ptd0 p marked x, h.list data ptd0 (.cell (.nonvar (.pair p))) marked = .ok x → x.2 = none
  compound : ∀ data ptd0 p marked x, h.compound data ptd0 (.cell (.nonvar (.appl p))) marked = .ok x → x.2 = none
  atomic : ∀ data ptd0 c marked, h.atomic data ptd0 (.cell c) marked = .ok (data, none)
  constant : ∀ data ptd0 w marked data' w', h.atomic data ptd0 w marked = .ok (data', some w') → w'.IsConstant
  unmarked : ∀ data ptd0 w marked, h.atomic data ptd0 w marked = h.atomic data ptd0 w false

end Hooks

end Yap
