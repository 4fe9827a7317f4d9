-- SUMMARY: The queue of dgraph_top_sort/2: a chain is closed when all its links are, and the queue is a topological order.
import Yap.Library.Dgraphs.TopSort
import Yap.Library.Rbtrees.Values

/-!
# The queue of the topological sort

That an open link keeps the ends of its chain apart is shown by a colour of the
variables: what is before the link in one colour, what is after it in the other.
-/

namespace Yap

namespace Dgraphs

open Ordsets Rbtrees Ugraphs Relation

variable {α : Type*} [LinearOrder α]

-- ---------------------------------------------------------------------------
-- Chains
-- ---------------------------------------------------------------------------

attribute [local instance] Ordsets.lawfulBEq

/-- The colour of the variables of a vertex: on which side of the link from `x` they are, when the
sources after `x` are `after`. -/
def colour (w x : α) (after : List α) (v : LVar α) : Bool :=
  decide (v.1.target = w) &&
    match v.2 with
    | .s => false
    | .e => true
    | .a => decide (v.1.source ∈ after)
    | .b => decide (v.1.source = x) || decide (v.1.source ∈ after)

section Colours

variable {w x u : α} {after : List α}

@[simp] theorem colour_s : colour w x after (Link.var ⟨u, w⟩ .s) = false := by simp [colour, Link.var]

@[simp] theorem colour_e : colour w x after (Link.var ⟨u, w⟩ .e) = true := by simp [colour, Link.var]

@[simp] theorem colour_a : colour w x after (Link.var ⟨u, w⟩ .a) = decide (u ∈ after) := by
  simp only [colour, Link.var, decide_true, Bool.true_and]
  congr

@[simp] theorem colour_b : colour w x after (Link.var ⟨u, w⟩ .b) = (decide (u = x) || decide (u ∈ after)) := by
  simp only [colour, Link.var, decide_true, Bool.true_and]
  congr

theorem colour_other {v : LVar α} (h : v.1.target ≠ w) : colour w x after v = false := by simp [colour, h]

end Colours

/-- The pairs of a list keep a colour. -/
def Keeps {ν κ : Type*} (φ : ν → κ) (pairs : List (ν × ν)) : Prop := ∀ p ∈ pairs, φ p.1 = φ p.2

theorem keeps_cons {ν κ : Type*} {φ : ν → κ} {p : ν × ν} {pairs : List (ν × ν)} :
    Keeps φ (p :: pairs) ↔ φ p.1 = φ p.2 ∧ Keeps φ pairs := List.forall_mem_cons

/-- After the open link. -/
theorem keeps_linkPairs_after {w x : α} {after us : List α} {a s e : LVar α} (hus : ∀ u ∈ us, u ∈ after)
    (ha : colour w x after a = true) (hs : colour w x after s = false) (he : colour w x after e = true) :
    Keeps (colour w x after) (linkPairs w a s e us) := by
  induction us generalizing a with
  | nil =>
    rintro p hp
    rw [linkPairs, List.mem_singleton] at hp
    rw [hp, ha, he]
  | cons u us ih =>
    obtain ⟨hu, hus⟩ := List.forall_mem_cons.mp hus
    rw [linkPairs, keeps_cons, keeps_cons, keeps_cons]
    refine ⟨?_, ?_, ?_, ih hus ?_⟩
    · simp [hu, ha]
    · simp [hs]
    · simp [he]
    · simp [hu]

/-- Before the open link. -/
theorem keeps_linkPairs {w x : α} {before after : List α} {a s e : LVar α}
    (hnd : (before ++ x :: after).Nodup) (ha : colour w x after a = false) (hs : colour w x after s = false)
    (he : colour w x after e = true) :
    Keeps (colour w x after) (linkPairs w a s e (before ++ x :: after)) := by
  induction before generalizing a with
  | nil =>
    have hx : x ∉ after := (List.nodup_cons.mp hnd).1
    rw [List.nil_append, linkPairs, keeps_cons, keeps_cons, keeps_cons]
    refine ⟨?_, ?_, ?_, keeps_linkPairs_after (fun u hu => hu) ?_ hs he⟩
    · simp [hx, ha]
    · simp [hs]
    · simp [he]
    · simp
  | cons u before ih =>
    obtain ⟨hu, hnd⟩ := List.nodup_cons.mp hnd
    have hux : u ≠ x := fun heq => hu (by simp [heq])
    have hua : u ∉ after := fun hmem => hu (by simp [hmem])
    rw [List.cons_append, linkPairs, keeps_cons, keeps_cons, keeps_cons]
    refine ⟨?_, ?_, ?_, ih hnd ?_⟩
    · simp [hua, ha]
    · simp [hs]
    · simp [he]
    · simp [hua, hux]

theorem keeps_groupPairs {w x : α} {before after : List α} (hnd : (before ++ x :: after).Nodup) :
    Keeps (colour w x after) (groupPairs w (before ++ x :: after)) := by
  cases before with
  | nil =>
    have hx : x ∉ after := (List.nodup_cons.mp hnd).1
    rw [List.nil_append, groupPairs, keeps_cons]
    refine ⟨by simp [hx], keeps_linkPairs_after (fun u hu => hu) ?_ ?_ ?_⟩ <;>
      simp
  | cons u before =>
    obtain ⟨hu, hnd⟩ := List.nodup_cons.mp hnd
    have hux : u ≠ x := fun heq => hu (by simp [heq])
    have hua : u ∉ after := fun hmem => hu (by simp [hmem])
    rw [List.cons_append, groupPairs, keeps_cons]
    refine ⟨by simp [hua], keeps_linkPairs hnd ?_ ?_ ?_⟩ <;>
      simp [hua, hux]

omit [LinearOrder α] in
theorem target_linkPairs {w : α} {us : List α} {a s e : LVar α} (ha : a.1.target = w) (hs : s.1.target = w)
    (he : e.1.target = w) : ∀ p ∈ linkPairs w a s e us, p.1.1.target = w ∧ p.2.1.target = w := by
  induction us generalizing a with
  | nil =>
    rintro p hp
    rw [linkPairs, List.mem_singleton] at hp
    exact hp ▸ ⟨ha, he⟩
  | cons u us ih =>
    rw [linkPairs]
    simp only [List.forall_mem_cons]
    exact ⟨⟨rfl, ha⟩, ⟨rfl, hs⟩, ⟨rfl, he⟩, ih rfl⟩

omit [LinearOrder α] in
theorem target_groupPairs {w : α} {us : List α} : ∀ p ∈ groupPairs w us, p.1.1.target = w ∧ p.2.1.target = w := by
  cases us with
  | nil =>
    intro p hp
    cases hp
  | cons u us =>
    rw [groupPairs, List.forall_mem_cons]
    exact ⟨⟨rfl, rfl⟩, target_linkPairs rfl rfl rfl⟩

variable {σ : Aliases (LVar α)}

omit [LinearOrder α] in
/-- A chain of closed links joins its ends. -/
theorem linkPairs_joins {w : α} {us : List α} {a s e : LVar α}
    (hpairs : ∀ p ∈ linkPairs w a s e us, σ p.1 = σ p.2)
    (hclosed : ∀ u ∈ us, σ (Link.var ⟨u, w⟩ .a) = σ (Link.var ⟨u, w⟩ .b)) : σ a = σ e := by
  induction us generalizing a with
  | nil => exact hpairs (a, e) List.mem_cons_self
  | cons u us ih =>
    rw [linkPairs] at hpairs
    simp only [List.forall_mem_cons] at hpairs hclosed
    exact hpairs.1.symm.trans (hclosed.1.trans (ih hpairs.2.2.2 hclosed.2))

omit [LinearOrder α] in
theorem linkPairs_ends {w : α} {us : List α} {a s e : LVar α} {u : α} (hu : u ∈ us) :
    (Link.var ⟨u, w⟩ .s, s) ∈ linkPairs w a s e us ∧ (Link.var ⟨u, w⟩ .e, e) ∈ linkPairs w a s e us := by
  induction us generalizing a with
  | nil => cases hu
  | cons u' us ih =>
    rw [linkPairs]
    rcases List.mem_cons.mp hu with rfl | hu
    · exact ⟨by simp, by simp⟩
    · obtain ⟨hs, he⟩ := ih (a := Link.var ⟨u', w⟩ .b) hu
      exact ⟨by simp [hs], by simp [he]⟩

omit [LinearOrder α] in
/-- The ends of a chain are identical when every link of it is closed. -/
theorem groupPairs_joins {w : α} {us : List α} (hpairs : ∀ p ∈ groupPairs w us, σ p.1 = σ p.2)
    (hclosed : ∀ u ∈ us, σ (Link.var ⟨u, w⟩ .a) = σ (Link.var ⟨u, w⟩ .b)) {u : α} (hu : u ∈ us) :
    σ (Link.var ⟨u, w⟩ .s) = σ (Link.var ⟨u, w⟩ .e) := by
  cases us with
  | nil => cases hu
  | cons u₁ us =>
    rw [groupPairs, List.forall_mem_cons] at hpairs
    rw [List.forall_mem_cons] at hclosed
    have hfirst : σ (Link.var ⟨u₁, w⟩ .s) = σ (Link.var ⟨u₁, w⟩ .e) :=
      hpairs.1.symm.trans (hclosed.1.trans (linkPairs_joins hpairs.2 hclosed.2))
    rcases List.mem_cons.mp hu with rfl | hu
    · exact hfirst
    · obtain ⟨hs, he⟩ := linkPairs_ends (w := w) (a := Link.var ⟨u₁, w⟩ .b) (s := Link.var ⟨u₁, w⟩ .s)
        (e := Link.var ⟨u₁, w⟩ .e) hu
      exact (hpairs.2 _ hs).trans (hfirst.trans (hpairs.2 _ he).symm)

/-- All pairs that `start_queue/4` unifies. -/
def startPairs (vs : List α) (src : α → List α) : List (LVar α × LVar α) :=
  vs.flatMap fun w => groupPairs w (src w)

/-- The links of a set are closed. -/
def ClosedIn (vs : List α) (src : α → List α) (closed : α → α → Prop) (σ : Aliases (LVar α)) : Prop :=
  σ.Binds fun x y => (x, y) ∈ startPairs vs src ∨
    ∃ u w, closed u w ∧ x = Link.var ⟨u, w⟩ .a ∧ y = Link.var ⟨u, w⟩ .b

/-- The test of `close_links/3`: all the links of a vertex are closed. -/
theorem ClosedIn.ends_iff {vs : List α} {src : α → List α} {closed : α → α → Prop} (h : ClosedIn vs src closed σ)
    (hsrc : ∀ w, (src w).Nodup) {u w : α} (hw : w ∈ vs) (hu : u ∈ src w) :
    σ (Link.var ⟨u, w⟩ .s) = σ (Link.var ⟨u, w⟩ .e) ↔ ∀ u' ∈ src w, closed u' w := by
  constructor
  · intro heq x hx
    by_contra hopen
    obtain ⟨before, after, hsplit⟩ := List.append_of_mem hx
    have hnd : (before ++ x :: after).Nodup := hsplit ▸ hsrc w
    have hcolour := h.colour (φ := colour w x after) ?_ heq
    · simp at hcolour
    · rintro y z (hstart | ⟨u', w', hclosed, rfl, rfl⟩)
      · obtain ⟨w', -, hpair⟩ := List.mem_flatMap.mp hstart
        by_cases hww : w' = w
        · subst hww
          rw [hsplit] at hpair
          exact keeps_groupPairs hnd _ hpair
        · obtain ⟨h1, h2⟩ := target_groupPairs _ hpair
          simp only at h1 h2
          rw [colour_other (h1.trans_ne hww), colour_other (h2.trans_ne hww)]
      · by_cases hww : w' = w
        · subst hww
          have hne : u' ≠ x := by
            rintro rfl
            exact hopen hclosed
          simp [hne]
        · rw [colour_other hww, colour_other hww]
  · intro hall
    have hpairs : ∀ p ∈ groupPairs w (src w), σ p.1 = σ p.2 := fun p hp =>
      h.rel (.inl (List.mem_flatMap.mpr ⟨w, hw, hp⟩))
    refine groupPairs_joins hpairs ?_ hu
    intro u' hu'
    exact h.rel (.inr ⟨u', w, hall u' hu', rfl, rfl⟩)

-- ---------------------------------------------------------------------------
-- The queue
-- ---------------------------------------------------------------------------

/-- The queue holds the vertices whose links are all closed, each after its sources. -/
structure Progress (rows : List (α × List α)) (closed : α → α → Prop) (σ : Aliases (LVar α)) (q : List α) : Prop where
  closedIn : ClosedIn (vertices rows) (sources rows) closed σ
  mem : ∀ w, w ∈ q ↔ w ∈ vertices rows ∧ ∀ u ∈ sources rows w, closed u w
  nodup : q.Nodup
  ordered : ∀ l w r, q = l ++ w :: r → ∀ u ∈ sources rows w, u ∈ l
  queued : ∀ u w, closed u w → u ∈ q

variable {rows : List (α × List α)} {closed : α → α → Prop} {q : List α}

theorem Progress.congr {closed' : α → α → Prop} (h : Progress rows closed σ q)
    (heq : ∀ u w, closed u w ↔ closed' u w) : Progress rows closed' σ q := by
  have hclosed : closed = closed' := by
    funext u w
    exact propext (heq u w)
  exact hclosed ▸ h

theorem Progress.length_le (h : Progress rows closed σ q) : q.length ≤ rows.length := by
  have hsub : q ⊆ vertices rows := fun w hw => ((h.mem w).mp hw).1
  exact (h.nodup.subperm hsub).length_le.trans_eq (List.length_map _)

theorem Progress.push (h : Progress rows closed σ q) {w : α} (hw : w ∈ vertices rows) (hq : w ∉ q) :
    push rows.length w q = some (q ++ [w]) := by
  have hsub : w :: q ⊆ vertices rows := List.cons_subset.mpr ⟨hw, fun w hw => ((h.mem w).mp hw).1⟩
  have hlen := ((List.nodup_cons.mpr ⟨hq, h.nodup⟩).subperm hsub).length_le
  rw [List.length_cons, vertices, List.length_map] at hlen
  exact if_pos hlen

/-- One link is closed; its vertex enters the queue when it was the last one. -/
theorem Progress.close (hrows : OrdSet (vertices rows)) (h : Progress rows closed σ q) {v w : α} (hv : v ∈ q)
    (hopen : ¬ closed v w) (hedge : v ∈ sources rows w) (hw : w ∈ vertices rows) (links : List (Link α)) :
    ∃ q', closeLinks rows.length (⟨v, w⟩ :: links) σ q =
        closeLinks rows.length links (σ.unify (Link.var ⟨v, w⟩ .a) (Link.var ⟨v, w⟩ .b)) q' ∧
      Progress rows (fun u w' => closed u w' ∨ u = v ∧ w' = w)
        (σ.unify (Link.var ⟨v, w⟩ .a) (Link.var ⟨v, w⟩ .b)) q' ∧ q <+: q' := by
  have hclosedIn : ClosedIn (vertices rows) (sources rows) (fun u w' => closed u w' ∨ u = v ∧ w' = w)
      (σ.unify (Link.var ⟨v, w⟩ .a) (Link.var ⟨v, w⟩ .b)) := by
    refine (h.closedIn.unify _ _).congr fun x y => ?_
    constructor
    · rintro ((hstart | ⟨u, w', hc, rfl, rfl⟩) | ⟨rfl, rfl⟩)
      · exact .inl hstart
      · exact .inr ⟨u, w', .inl hc, rfl, rfl⟩
      · exact .inr ⟨v, w, .inr ⟨rfl, rfl⟩, rfl, rfl⟩
    · rintro (hstart | ⟨u, w', hc | ⟨rfl, rfl⟩, rfl, rfl⟩)
      · exact .inl (.inl hstart)
      · exact .inl (.inr ⟨u, w', hc, rfl, rfl⟩)
      · exact .inr ⟨rfl, rfl⟩
  have htest := hclosedIn.ends_iff (fun w' => (ordSet_sources hrows w').imp fun hlt => hlt.ne) hw hedge
  have hwq : w ∉ q := fun hmem => hopen (((h.mem w).mp hmem).2 v hedge)
  have hqueued : ∀ u w', closed u w' ∨ u = v ∧ w' = w → u ∈ q := by
    rintro u w' (hc | ⟨rfl, -⟩)
    · exact h.queued u w' hc
    · exact hv
  -- the other vertices have the links they had
  have hother : ∀ w', w' ≠ w → ((∀ u ∈ sources rows w', closed u w' ∨ u = v ∧ w' = w) ↔
      ∀ u ∈ sources rows w', closed u w') := by
    intro w' hne
    simp [hne]
  rw [closeLinks]
  by_cases hall : ∀ u ∈ sources rows w, closed u w ∨ u = v ∧ w = w
  · refine ⟨q ++ [w], ?_, ⟨hclosedIn, fun w' => ?_, ?_, ?_, fun u w' hc => ?_⟩, List.prefix_append q [w]⟩
    · rw [if_pos (htest.mpr hall), h.push hw hwq, Option.bind_some]
    · rw [List.mem_append, List.mem_singleton]
      by_cases heq : w' = w
      · subst heq
        exact ⟨fun _ => ⟨hw, hall⟩, fun _ => .inr rfl⟩
      · rw [hother w' heq, ← h.mem w', or_iff_left heq]
    · rw [List.nodup_append]
      exact ⟨h.nodup, List.nodup_singleton w, fun a ha b hb heq => hwq (List.mem_singleton.mp hb ▸ heq ▸ ha)⟩
    · intro l w' r heq u hu
      rcases List.eq_nil_or_concat r with rfl | ⟨r', z, rfl⟩
      · obtain ⟨hl, hlast⟩ := List.append_inj' heq rfl
        rw [List.cons.injEq] at hlast
        obtain ⟨rfl, -⟩ := hlast
        exact hl ▸ hqueued u w (hall u hu)
      · rw [List.concat_eq_append, ← List.cons_append, ← List.append_assoc] at heq
        exact h.ordered l w' r' (List.append_inj' heq rfl).1 u hu
    · exact List.mem_append_left _ (hqueued u w' hc)
  · refine ⟨q, ?_, ⟨hclosedIn, fun w' => ?_, h.nodup, h.ordered, hqueued⟩, List.prefix_rfl⟩
    · rw [if_neg fun heq => hall (htest.mp heq)]
    · by_cases heq : w' = w
      · subst heq
        exact iff_of_false hwq fun hmem => hall hmem.2
      · rw [hother w' heq, h.mem w']

theorem closeLinks_spec (hrows : OrdSet (vertices rows)) (ws : List α) (h : Progress rows closed σ q) {v : α}
    (hv : v ∈ q) (hws : ws.Nodup) (hopen : ∀ w ∈ ws, ¬ closed v w)
    (hedge : ∀ w ∈ ws, v ∈ sources rows w ∧ w ∈ vertices rows) :
    ∃ σ' q', closeLinks rows.length (ws.map (Link.mk v)) σ q = some (σ', q') ∧
      Progress rows (fun u w => closed u w ∨ u = v ∧ w ∈ ws) σ' q' ∧ q <+: q' := by
  induction ws generalizing closed σ q with
  | nil => exact ⟨σ, q, rfl, h.congr (by simp), List.prefix_rfl⟩
  | cons w ws ih =>
    obtain ⟨hw, hws⟩ := List.nodup_cons.mp hws
    rw [List.forall_mem_cons] at hopen hedge
    obtain ⟨q₁, heq, h₁, hpre⟩ := h.close hrows hv hopen.1 hedge.1.1 hedge.1.2 (ws.map (Link.mk v))
    have hopen₁ : ∀ w' ∈ ws, ¬ (closed v w' ∨ v = v ∧ w' = w) := by
      rintro w' hw' (hc | ⟨-, rfl⟩)
      · exact hopen.2 w' hw' hc
      · exact hw hw'
    obtain ⟨σ', q', heq', h', hpre'⟩ := ih h₁ (hpre.subset hv) hws hopen₁ hedge.2
    refine ⟨σ', q', heq.trans heq', h'.congr fun u w' => ?_, hpre.trans hpre'⟩
    rw [List.mem_cons, or_assoc, ← and_or_left]

end Dgraphs

end Yap
