-- SUMMARY: The events of a walk are what its paths come to, and its paths come to every word and variable of the term.
import Yap.OccursCheck.Marks
import Yap.TermVisit.Events

/-!
# Paths of a walk

A path of the walk does not enter a list or a compound twice. What is reached through
arguments is also reached on a path.
-/

namespace Yap

open Relation

variable {hp : Heap} {s : Store} {root : Addr} {path : List Place} {q src q' src' : Addr} {es : List WalkEvent}

-- ---------------------------------------------------------------------------
-- Events of a cell
-- ---------------------------------------------------------------------------

/-- A word is not followed. -/
theorem Leads.eq_of_word {d : Nonvar} (h : Leads s q src q' src') (hcell : s.cell src = .nonvar d) :
    q' = q ∧ src' = src := by
  cases h with
  | refl => exact ⟨rfl, rfl⟩
  | ref ha => cases ha.symm.trans hcell

/-- A variable that is unbound is not followed. -/
theorem Leads.eq_of_var {v : Addr} (h : Leads s q src q' src') (hcell : s.cell src = .ref v) (hv : s.cell v = .ref v) :
    q' = q ∧ src' = src := by
  cases h with
  | refl => exact ⟨rfl, rfl⟩
  | ref ha hne =>
    rw [← Cell.ref.inj (hcell.symm.trans ha)] at hne
    exact absurd hv hne

/-- Any other reference is. -/
theorem Leads.tail {a : Addr} (h : Leads s q src q' src') (hcell : s.cell src = .ref a) (hne : s.cell a ≠ .ref a)
    (hend : ∀ v, s.cell src' = .ref v → s.cell v = .ref v) : Leads s a a q' src' := by
  cases h with
  | refl => exact absurd (hend a hcell) hne
  | ref ha _ hrest =>
    obtain rfl := Cell.ref.inj (hcell.symm.trans ha)
    exact hrest

namespace HasEvents

/-- One of the cells has its events among those of all. -/
theorem of_mem {items : List (Addr × Addr)} (hv : HasEvents hp s path items es) {it : Addr × Addr} (hit : it ∈ items) :
    ∃ es', HasEvents hp s path [it] es' ∧ es' ⊆ es := by
  induction hv with
  | nil => cases hit
  | var hleads hcell hv _ ih =>
    rcases List.mem_cons.mp hit with rfl | hit
    · exact ⟨_, .var hleads hcell hv .nil, List.cons_subset_cons _ (List.nil_subset _)⟩
    · obtain ⟨es', hes', hsub⟩ := ih hit
      exact ⟨es', hes', List.Subset.trans hsub (List.subset_cons_self ..)⟩
  | leaf hleads hcell hd _ ih =>
    rcases List.mem_cons.mp hit with rfl | hit
    · exact ⟨_, .leaf hleads hcell hd .nil, List.nil_subset _⟩
    · exact ih hit
  | openList hleads hcell hopen _ ih =>
    rcases List.mem_cons.mp hit with rfl | hit
    · exact ⟨_, .openList hleads hcell hopen .nil, List.nil_subset _⟩
    · exact ih hit
  | list hleads hcell hopen hargs _ _ ih =>
    rcases List.mem_cons.mp hit with rfl | hit
    · refine ⟨_, .list hleads hcell hopen hargs .nil, ?_⟩
      rw [List.append_nil]
      exact List.subset_append_left ..
    · obtain ⟨es', hes', hsub⟩ := ih hit
      exact ⟨es', hes', List.Subset.trans hsub (List.subset_append_right ..)⟩
  | openCompound hleads hcell hf hopen _ ih =>
    rcases List.mem_cons.mp hit with rfl | hit
    · exact ⟨_, .openCompound hleads hcell hf hopen .nil, List.cons_subset_cons _ (List.nil_subset _)⟩
    · obtain ⟨es', hes', hsub⟩ := ih hit
      exact ⟨es', hes', List.Subset.trans hsub (List.subset_cons_self ..)⟩
  | compound hleads hcell hf hopen hargs _ _ ih =>
    rcases List.mem_cons.mp hit with rfl | hit
    · refine ⟨_, .compound hleads hcell hf hopen hargs .nil, ?_⟩
      rw [List.append_nil]
      exact List.subset_append_left ..
    · obtain ⟨es', hes', hsub⟩ := ih hit
      exact ⟨es', hes', List.Subset.trans hsub (List.subset_append_right ..)⟩

theorem ref {a : Addr} (hv : HasEvents hp s path [(q, src)] es) (hcell : s.cell src = .ref a) (hne : s.cell a ≠ .ref a) :
    HasEvents hp s path [(a, a)] es := by
  cases hv with
  | var hleads hvar hv hrest =>
    refine .var (hleads.tail hcell hne fun v heq => ?_) hvar hv hrest
    rwa [← Cell.ref.inj (hvar.symm.trans heq)]
  | leaf hleads hword hd hrest =>
    exact .leaf (hleads.tail hcell hne fun v heq => by cases hword.symm.trans heq) hword hd hrest
  | openList hleads hword hopen hrest =>
    exact .openList (hleads.tail hcell hne fun v heq => by cases hword.symm.trans heq) hword hopen hrest
  | list hleads hword hopen hargs hrest =>
    exact .list (hleads.tail hcell hne fun v heq => by cases hword.symm.trans heq) hword hopen hargs hrest
  | openCompound hleads hword hf hopen hrest =>
    exact .openCompound (hleads.tail hcell hne fun v heq => by cases hword.symm.trans heq) hword hf hopen hrest
  | compound hleads hword hf hopen hargs hrest =>
    exact .compound (hleads.tail hcell hne fun v heq => by cases hword.symm.trans heq) hword hf hopen hargs hrest

/-- The events of a list that is not open. -/
theorem of_pair {p : Addr} (hv : HasEvents hp s path [(q, src)] es) (hcell : s.cell src = .nonvar (.pair p))
    (hpath : .arg p ∉ path) :
    ∃ es', HasEvents hp s (.arg p :: path) [(q, p), (p + 1, p + 1)] es' ∧
      es = .list q p (decide (.arg q ∈ path)) :: es' := by
  cases hv with
  | var hleads hvar _ _ =>
    obtain ⟨rfl, rfl⟩ := hleads.eq_of_word hcell
    cases hvar.symm.trans hcell
  | leaf hleads hword hd _ =>
    obtain ⟨rfl, rfl⟩ := hleads.eq_of_word hcell
    obtain rfl := Cell.nonvar.inj (hword.symm.trans hcell)
    cases hd
  | openList hleads hword hopen _ =>
    obtain ⟨rfl, rfl⟩ := hleads.eq_of_word hcell
    cases hword.symm.trans hcell
    exact absurd hopen hpath
  | list hleads hword hopen hargs hrest =>
    obtain ⟨rfl, rfl⟩ := hleads.eq_of_word hcell
    cases hword.symm.trans hcell
    cases hrest
    exact ⟨_, hargs, List.append_nil _⟩
  | openCompound hleads hword _ _ _ =>
    obtain ⟨rfl, rfl⟩ := hleads.eq_of_word hcell
    cases hword.symm.trans hcell
  | compound hleads hword _ _ _ _ =>
    obtain ⟨rfl, rfl⟩ := hleads.eq_of_word hcell
    cases hword.symm.trans hcell

/-- The events of a compound. -/
theorem of_appl {p : Addr} {f : Functor} (hv : HasEvents hp s path [(q, src)] es) (hcell : s.cell src = .nonvar (.appl p))
    (hf : hp.functorAt p = .functor f) :
    ∃ es', es = .compound q p (decide (.arg q ∈ path)) :: es' ∧
      (.functor p ∉ path → HasEvents hp s (.functor p :: path) (ownCells (List.range' (p + 1) f.arityOfFE)) es') := by
  cases hv with
  | var hleads hvar _ _ =>
    obtain ⟨rfl, rfl⟩ := hleads.eq_of_word hcell
    cases hvar.symm.trans hcell
  | leaf hleads hword hd _ =>
    obtain ⟨rfl, rfl⟩ := hleads.eq_of_word hcell
    obtain rfl := Cell.nonvar.inj (hword.symm.trans hcell)
    rw [Nonvar.cells, Nonvar.block, hf] at hd
    exact absurd (List.range'_eq_nil_iff.mp hd) (Nat.pos_iff_ne_zero.mp f.arity_pos)
  | openList hleads hword _ _ =>
    obtain ⟨rfl, rfl⟩ := hleads.eq_of_word hcell
    cases hword.symm.trans hcell
  | list hleads hword _ _ _ =>
    obtain ⟨rfl, rfl⟩ := hleads.eq_of_word hcell
    cases hword.symm.trans hcell
  | openCompound hleads hword hf' hopen hrest =>
    obtain ⟨rfl, rfl⟩ := hleads.eq_of_word hcell
    cases hword.symm.trans hcell
    exact ⟨_, rfl, fun hpath => absurd hopen hpath⟩
  | compound hleads hword hf' hopen hargs hrest =>
    obtain ⟨rfl, rfl⟩ := hleads.eq_of_word hcell
    cases hword.symm.trans hcell
    cases hf.symm.trans hf'
    cases hrest
    exact ⟨_, List.append_nil _, fun _ => hargs⟩

/-- The event of an unbound variable. -/
theorem of_var {v : Addr} (hv : HasEvents hp s path [(q, src)] es) (hcell : s.cell src = .ref v)
    (hunbound : s.cell v = .ref v) :
    es = [.occurrence (if src = v then q else v) v (decide (.arg v ∈ path))] := by
  cases hv with
  | var hleads hvar hv hrest =>
    obtain ⟨rfl, rfl⟩ := hleads.eq_of_var hcell hunbound
    obtain rfl := Cell.ref.inj (hvar.symm.trans hcell)
    cases hrest
    rfl
  | leaf hleads hword _ _ =>
    obtain ⟨rfl, rfl⟩ := hleads.eq_of_var hcell hunbound
    cases hword.symm.trans hcell
  | openList hleads hword _ _ =>
    obtain ⟨rfl, rfl⟩ := hleads.eq_of_var hcell hunbound
    cases hword.symm.trans hcell
  | list hleads hword _ _ _ =>
    obtain ⟨rfl, rfl⟩ := hleads.eq_of_var hcell hunbound
    cases hword.symm.trans hcell
  | openCompound hleads hword _ _ _ =>
    obtain ⟨rfl, rfl⟩ := hleads.eq_of_var hcell hunbound
    cases hword.symm.trans hcell
  | compound hleads hword _ _ _ _ =>
    obtain ⟨rfl, rfl⟩ := hleads.eq_of_var hcell hunbound
    cases hword.symm.trans hcell

end HasEvents

-- ---------------------------------------------------------------------------
-- Events on paths
-- ---------------------------------------------------------------------------

/-- What is on a path is visited. -/
theorem Below.visits (hv : HasEvents hp s [] [(root, root)] es) (h : Below hp s root path q src) :
    ∃ es', HasEvents hp s path [(q, src)] es' ∧ es' ⊆ es := by
  induction h with
  | root => exact ⟨es, hv, List.Subset.refl _⟩
  | ref _ ha hne ih =>
    obtain ⟨es', hes', hsub⟩ := ih
    exact ⟨es', hes'.ref ha hne, hsub⟩
  | head _ hcell hpath ih =>
    obtain ⟨_, hes', hsub⟩ := ih
    obtain ⟨es', hargs, rfl⟩ := hes'.of_pair hcell hpath
    obtain ⟨es'', hhead, hsub'⟩ := hargs.of_mem (List.mem_cons_self ..)
    exact ⟨es'', hhead, List.Subset.trans hsub' (List.Subset.trans (List.subset_cons_self ..) hsub)⟩
  | tail _ hcell hpath ih =>
    obtain ⟨_, hes', hsub⟩ := ih
    obtain ⟨es', hargs, rfl⟩ := hes'.of_pair hcell hpath
    obtain ⟨es'', htail, hsub'⟩ := hargs.of_mem (List.mem_cons_of_mem _ (List.mem_cons_self ..))
    exact ⟨es'', htail, List.Subset.trans hsub' (List.Subset.trans (List.subset_cons_self ..) hsub)⟩
  | argument _ hcell hf hpath ha ih =>
    obtain ⟨_, hes', hsub⟩ := ih
    obtain ⟨es', rfl, hargs⟩ := hes'.of_appl hcell hf
    obtain ⟨es'', harg, hsub'⟩ := (hargs hpath).of_mem (List.mem_map_of_mem ha)
    exact ⟨es'', harg, List.Subset.trans hsub' (List.Subset.trans (List.subset_cons_self ..) hsub)⟩

/-- The walk comes upon the event on one of its paths. -/
def WalkEvent.Met (hp : Heap) (s : Store) (root : Addr) : WalkEvent → Prop
  | .list ptd0 p marked => ∃ path src, Below hp s root path ptd0 src ∧ s.cell src = .nonvar (.pair p) ∧
      .arg p ∉ path ∧ marked = decide (.arg ptd0 ∈ path)
  | .compound ptd0 p marked => ∃ path src f, Below hp s root path ptd0 src ∧ s.cell src = .nonvar (.appl p) ∧
      hp.functorAt p = .functor f ∧ marked = decide (.arg ptd0 ∈ path)
  | .occurrence ptd0 v marked => ∃ path q src, Below hp s root path q src ∧ s.cell src = .ref v ∧ s.cell v = .ref v ∧
      ptd0 = (if src = v then q else v) ∧ marked = decide (.arg v ∈ path)

theorem HasEvents.met {items : List (Addr × Addr)} (hv : HasEvents hp s path items es)
    (hbelow : ∀ it ∈ items, Below hp s root path it.1 it.2) : ∀ e ∈ es, e.Met hp s root := by
  induction hv with
  | nil => exact fun e he => by cases he
  | var hleads hcell hv _ ih =>
    obtain ⟨hfirst, hrest⟩ := List.forall_mem_cons.mp hbelow
    exact List.forall_mem_cons.mpr ⟨⟨_, _, _, below_of_leads hleads hfirst, hcell, hv, rfl, rfl⟩, ih hrest⟩
  | leaf _ _ _ _ ih => exact ih (List.forall_mem_cons.mp hbelow).2
  | openList _ _ _ _ ih => exact ih (List.forall_mem_cons.mp hbelow).2
  | list hleads hcell hpath _ _ ihargs ih =>
    obtain ⟨hfirst, hrest⟩ := List.forall_mem_cons.mp hbelow
    have hhere := below_of_leads hleads hfirst
    have hargs := ihargs (List.forall_mem_cons.mpr
      ⟨hhere.head hcell hpath, List.forall_mem_singleton.mpr (hhere.tail hcell hpath)⟩)
    rw [List.cons_append]
    exact List.forall_mem_cons.mpr
      ⟨⟨_, _, hhere, hcell, hpath, rfl⟩, List.forall_mem_append.mpr ⟨hargs, ih hrest⟩⟩
  | openCompound hleads hcell hf _ _ ih =>
    obtain ⟨hfirst, hrest⟩ := List.forall_mem_cons.mp hbelow
    exact List.forall_mem_cons.mpr ⟨⟨_, _, _, below_of_leads hleads hfirst, hcell, hf, rfl⟩, ih hrest⟩
  | @compound path rest es es' q src q' src' p f hleads hcell hf hpath _ _ ihargs ih =>
    obtain ⟨hfirst, hrest⟩ := List.forall_mem_cons.mp hbelow
    have hhere := below_of_leads hleads hfirst
    have hargs : ∀ it ∈ ownCells (List.range' (p + 1) f.arityOfFE), Below hp s root (.functor p :: path) it.1 it.2 := by
      intro it hit
      obtain ⟨a, ha, rfl⟩ := List.mem_map.mp hit
      exact hhere.argument hcell hf hpath ha
    rw [List.cons_append]
    exact List.forall_mem_cons.mpr
      ⟨⟨_, _, _, hhere, hcell, hf, rfl⟩, List.forall_mem_append.mpr ⟨ihargs hargs, ih hrest⟩⟩

/-- The events of the walk are the ones on its paths. -/
theorem HasEvents.mem_iff (hv : HasEvents hp s [] [(root, root)] es) {e : WalkEvent} : e ∈ es ↔ e.Met hp s root := by
  constructor
  · exact hv.met (List.forall_mem_singleton.mpr .root) e
  · intro h
    cases e with
    | list q p m =>
      obtain ⟨path, src, hbelow, hcell, hpath, rfl⟩ := h
      obtain ⟨_, hes', hsub⟩ := hbelow.visits hv
      obtain ⟨es', -, rfl⟩ := hes'.of_pair hcell hpath
      exact hsub (List.mem_cons_self ..)
    | compound q p m =>
      obtain ⟨path, src, f, hbelow, hcell, hf, rfl⟩ := h
      obtain ⟨_, hes', hsub⟩ := hbelow.visits hv
      obtain ⟨es', rfl, -⟩ := hes'.of_appl hcell hf
      exact hsub (List.mem_cons_self ..)
    | occurrence q' v m =>
      obtain ⟨path, q, src, hbelow, hcell, hunbound, rfl, rfl⟩ := h
      obtain ⟨_, hes', hsub⟩ := hbelow.visits hv
      obtain rfl := hes'.of_var hcell hunbound
      exact hsub (List.mem_cons_self ..)

-- ---------------------------------------------------------------------------
-- Words on paths
-- ---------------------------------------------------------------------------

/-- Following references on a path. -/
theorem Below.content (h : Below hp s root path q src) :
    ∃ q' src', Below hp s root path q' src' ∧ Content s src' ∧ s.deref (.ref src) = s.deref (.ref src') := by
  obtain ⟨q', src', hleads, hcontent⟩ := exists_leads s q src
  exact ⟨q', src', below_of_leads hleads h, hcontent, hleads.deref⟩

theorem Below.word (h : Below hp s root path q src) {d : Nonvar} (hd : s.deref (.ref src) = .nonvar d) :
    ∃ q' src', Below hp s root path q' src' ∧ s.cell src' = .nonvar d := by
  obtain ⟨q', src', hbelow, hcontent, hderef⟩ := h.content
  refine ⟨q', src', hbelow, ?_⟩
  cases hcontent with
  | var hcell hv => cases (deref_var hcell hv).symm.trans (hderef.symm.trans hd)
  | word hcell => rw [hcell, ← (deref_word hcell).symm.trans (hderef.symm.trans hd)]

/-- The place that is marked when the arguments of a word are visited. -/
def Nonvar.door : Nonvar → Option Place
  | .pair p => some (.arg p)
  | .appl p => some (.functor p)
  | _ => none

theorem Nonvar.door_inj {d e : Nonvar} {pl : Place} (hd : d.door = some pl) (he : e.door = some pl) : d = e := by
  cases d with
  | pair p =>
    cases e with
    | pair p' => rw [Place.arg.inj (Option.some.inj (hd.trans he.symm))]
    | appl p' => cases hd.trans he.symm
    | _ => cases he
  | appl p =>
    cases e with
    | appl p' => rw [Place.functor.inj (Option.some.inj (hd.trans he.symm))]
    | pair p' => cases hd.trans he.symm
    | _ => cases he
  | _ => cases hd

/-- A word whose arguments a path goes on to. -/
def Entered (hp : Heap) (s : Store) (root : Addr) (d : Nonvar) : Prop :=
  ∃ path q src, Below hp s root path q src ∧ s.cell src = .nonvar d ∧ ∀ pl, d.door = some pl → pl ∉ path

/-- What is marked on a path has been entered. -/
theorem Below.entered (h : Below hp s root path q src) {pl : Place} (hpl : pl ∈ path) :
    ∃ d : Nonvar, d.door = some pl ∧ Entered hp s root d := by
  induction h with
  | root => cases hpl
  | ref _ _ _ ih => exact ih hpl
  | @head path q src p hbelow hcell hpath ih =>
    rcases List.mem_cons.mp hpl with rfl | hpl
    · exact ⟨.pair p, rfl, path, q, src, hbelow, hcell, fun pl heq => Option.some.inj heq ▸ hpath⟩
    · exact ih hpl
  | @tail path q src p hbelow hcell hpath ih =>
    rcases List.mem_cons.mp hpl with rfl | hpl
    · exact ⟨.pair p, rfl, path, q, src, hbelow, hcell, fun pl heq => Option.some.inj heq ▸ hpath⟩
    · exact ih hpl
  | @argument path q src p a f hbelow hcell hf hpath _ ih =>
    rcases List.mem_cons.mp hpl with rfl | hpl
    · exact ⟨.appl p, rfl, path, q, src, hbelow, hcell, fun pl heq => Option.some.inj heq ▸ hpath⟩
    · exact ih hpl

/-- A word on a path is entered there, or has been. -/
theorem Below.entered_word (h : Below hp s root path q src) {d : Nonvar} (hd : s.deref (.ref src) = .nonvar d) :
    Entered hp s root d := by
  obtain ⟨q', src', hbelow, hcell⟩ := h.word hd
  by_cases hopen : ∃ pl, d.door = some pl ∧ pl ∈ path
  · obtain ⟨pl, hdoor, hpl⟩ := hopen
    obtain ⟨e, he, hentered⟩ := hbelow.entered hpl
    exact Nonvar.door_inj he hdoor ▸ hentered
  · exact ⟨path, q', src', hbelow, hcell, fun pl hdoor hpl => hopen ⟨pl, hdoor, hpl⟩⟩

/-- The arguments of a word are on a path. -/
theorem Entered.below {d : Nonvar} (h : Entered hp s root d) {a : Addr} (ha : a ∈ d.cells hp) :
    ∃ path q, Below hp s root path q a := by
  obtain ⟨path, q, src, hbelow, hcell, hdoor⟩ := h
  cases d with
  | int n => cases ha
  | atom b => cases ha
  | pair p =>
    have hpath := hdoor _ rfl
    obtain rfl | rfl : a = p ∨ a = p + 1 := by simpa using ha
    · exact ⟨_, q, hbelow.head hcell hpath⟩
    · exact ⟨_, _, hbelow.tail hcell hpath⟩
  | appl p =>
    cases hf : hp.functorAt p with
    | blob b =>
      rw [Nonvar.cells_blob hf] at ha
      cases ha
    | functor f =>
      rw [Nonvar.cells, Nonvar.block, hf] at ha
      exact ⟨_, a, hbelow.argument hcell hf (hdoor _ rfl) ha⟩

/-- Paths come to every word that the cell leads to. -/
theorem LeadTo.entered {d : Nonvar} (h : LeadTo hp s [root] d) : Entered hp s root d := by
  obtain ⟨a, ha, e, he, hreach⟩ := h
  obtain rfl := List.mem_singleton.mp ha
  induction hreach with
  | refl => exact Below.root.entered_word he
  | tail _ hstep ih =>
    obtain ⟨b, hb, hderef⟩ := hstep
    obtain ⟨path, q, hbelow⟩ := ih.below hb
    exact hbelow.entered_word hderef

-- ---------------------------------------------------------------------------
-- Variables of a term
-- ---------------------------------------------------------------------------

variable (hp s) in
/-- A cell of the term: the one that holds it, or an argument of a word that it leads to. -/
def TermCell (root a : Addr) : Prop := a = root ∨ ∃ d, LeadTo hp s [root] d ∧ a ∈ d.cells hp

variable (hp s) in
/-- An unbound variable that is in the term. -/
def HasVar (root v : Addr) : Prop := ∃ a, TermCell hp s root a ∧ s.deref (.ref a) = .ref v

/-- What a path comes to is what a cell of the term leads to. -/
theorem Below.termCell (h : Below hp s root path q src) :
    ∃ a, TermCell hp s root a ∧ s.deref (.ref a) = s.deref (.ref src) := by
  have hlead : ∀ {a d}, TermCell hp s root a → s.deref (.ref a) = .nonvar d → LeadTo hp s [root] d := by
    intro a d ha hd
    rcases ha with rfl | ⟨e, he, hmem⟩
    · exact ⟨a, List.mem_singleton_self _, d, hd, .refl⟩
    · exact he.argument ⟨a, hmem, hd⟩
  induction h with
  | root => exact ⟨root, .inl rfl, rfl⟩
  | @ref path q src b _ hcell hne ih =>
    obtain ⟨a, ha, hderef⟩ := ih
    exact ⟨a, ha, hderef.trans (Leads.ref (q := q) hcell hne (.refl b b)).deref⟩
  | @head path q src p _ hcell _ ih =>
    obtain ⟨a, ha, hderef⟩ := ih
    exact ⟨p, .inr ⟨.pair p, hlead ha (hderef.trans (deref_word hcell)), by simp⟩, rfl⟩
  | @tail path q src p _ hcell _ ih =>
    obtain ⟨a, ha, hderef⟩ := ih
    exact ⟨p + 1, .inr ⟨.pair p, hlead ha (hderef.trans (deref_word hcell)), by simp⟩, rfl⟩
  | @argument path q src p b f _ hcell hf _ hb ih =>
    obtain ⟨a, ha, hderef⟩ := ih
    refine ⟨b, .inr ⟨.appl p, hlead ha (hderef.trans (deref_word hcell)), ?_⟩, rfl⟩
    rwa [Nonvar.cells, Nonvar.block, hf]

theorem TermCell.below {a : Addr} (h : TermCell hp s root a) : ∃ path q, Below hp s root path q a := by
  rcases h with rfl | ⟨d, hd, ha⟩
  · exact ⟨[], a, .root⟩
  · exact hd.entered.below ha

/-- The variables that a walk comes upon are the ones of the term. -/
theorem HasEvents.hasVar_iff (hv : HasEvents hp s [] [(root, root)] es) {v : Addr} :
    HasVar hp s root v ↔ ∃ q m, .occurrence q v m ∈ es := by
  constructor
  · rintro ⟨a, ha, hderef⟩
    obtain ⟨path, q, hbelow⟩ := ha.below
    obtain ⟨q', src', hbelow', hcontent, hderef'⟩ := hbelow.content
    cases hcontent with
    | var hcell hunbound =>
      obtain rfl := Cell.ref.inj ((deref_var hcell hunbound).symm.trans (hderef'.symm.trans hderef))
      exact ⟨_, _, hv.mem_iff.mpr ⟨path, q', src', hbelow', hcell, hunbound, rfl, rfl⟩⟩
    | word hcell => cases (deref_word hcell).symm.trans (hderef'.symm.trans hderef)
  · rintro ⟨q, m, hmem⟩
    obtain ⟨path, q', src, hbelow, hcell, hunbound, -, -⟩ := hv.mem_iff.mp hmem
    obtain ⟨a, ha, hderef⟩ := hbelow.termCell
    exact ⟨a, ha, hderef.trans (deref_var hcell hunbound)⟩

end Yap
