-- SUMMARY: What failures give back, the invariant that ties clocks to the trail, and mutables that keep the values of the last updates in every run.
import Yap.Mutables.Code

/-!
# Runs of the mutables

A choice point is described by the stacks it was made from. The frames of the trail
that are above it write these back. A mutable below the choice point whose clock is
above it has its value among these frames, and an update may leave the trail alone.
-/

namespace Yap

open Trail

-- ---------------------------------------------------------------------------
-- What is observed
-- ---------------------------------------------------------------------------

/-- The values of the mutables, and those they had when each choice point was made. -/
structure Mutables where
  current : ℕ → Option AttCell
  saved : List (ℕ → Option AttCell)

namespace Mutables

/-- A mutable is created or updated. -/
def assign (inv : ℕ) (v : AttCell) (M : Mutables) : Mutables :=
  { M with current := Function.update M.current inv (some v) }

/-- A choice point is made. -/
def choice (M : Mutables) : Mutables := { M with saved := M.current :: M.saved }

/-- A cell of a mutable. -/
def Owns (M : Mutables) (a : ℕ) : Prop := ∃ m, M.current m ≠ none ∧ (a = m + 1 ∨ a = m + 2)

end Mutables

namespace Stacks

variable (fz : Frozen)

/-- The global stack is above its frozen part, and does not reach the choice point. -/
def Room (s : Stacks) : Prop := fz.hFz ≤ s.hr ∧ s.hr ≤ s.b.b

/-- Runs from stacks without mutables. In between, the program pushes cells on the
    global stack, and binds unbound variables that are not in a mutable. A value is
    taken after a variable of the local stack got its place on the global stack. -/
inductive Run : Stacks → Mutables → Prop where
  | start {s : Stacks} (hroom : s.Room fz) : Run s ⟨fun _ => none, []⟩
  | create {s : Stacks} {M : Mutables} (val : AttCell) (h : Run s M)
      (hroom : (s.newTimedVar fz val).2.Room fz) :
      Run (s.newTimedVar fz val).2 (M.assign (s.newTimedVar fz val).1 (s.globalize fz val).2)
  | update {s s' : Stacks} {M : Mutables} (m : ℕ) (new : AttCell) {t : AttCell} (h : Run s M)
      (hm : M.current m ≠ none) (hupdate : s.updateTimedVar fz m new = some (t, s')) (hroom : s'.Room fz) :
      Run s' (M.assign m (s.globalize fz new).2)
  | push {s : Stacks} {M : Mutables} (d : AttCell) (h : Run s M) (hroom : (s.push d).Room fz) :
      Run (s.push d) M
  | bind {s : Stacks} {M : Mutables} {a : ℕ} (d : AttCell) (h : Run s M) (hunbound : s.mem a = .ref a)
      (ha : ¬ M.Owns a) : Run (s.yapBind fz a d) M
  | choice {s : Stacks} {M : Mutables} {b : ℕ} (h : Run s M) (hb : s.hr ≤ b) : Run (s.choice b) M.choice
  | retry {s : Stacks} {cur old : ℕ → Option AttCell} {saved : List (ℕ → Option AttCell)}
      (h : Run s ⟨cur, old :: saved⟩) : Run (s.retry fz) ⟨old, old :: saved⟩
  | trust {s s' : Stacks} {cur old : ℕ → Option AttCell} {saved : List (ℕ → Option AttCell)}
      (h : Run s ⟨cur, old :: saved⟩) (htrust : s.trust fz = some s') : Run s' ⟨old, saved⟩

-- ---------------------------------------------------------------------------
-- The trail
-- ---------------------------------------------------------------------------

/-- The old values that frames record. -/
inductive Records : List TrailFrame → List (ℕ × AttCell) → Prop where
  | nil : Records [] []
  | var {fs : List TrailFrame} {es : List (ℕ × AttCell)} (a : ℕ) (d : AttCell) (h : Records fs es) :
      Records (⟨.var a, d⟩ :: fs) ((a, .ref a) :: es)
  | appl {fs : List TrailFrame} {es : List (ℕ × AttCell)} (a : ℕ) (d old : AttCell) (h : Records fs es) :
      Records (⟨.appl a, d⟩ :: ⟨.appl a, old⟩ :: fs) ((a, old) :: es)

theorem resetTrail_length (tr : List TrailFrame) (mem : ℕ → AttCell) :
    resetTrail tr.length tr mem = (tr, mem) := by
  fun_cases resetTrail tr.length tr mem with
  | case1 => rfl
  | case2 a d tr mem hne => exact absurd rfl hne
  | case3 => rfl
  | case4 a d old tr mem hne => exact absurd rfl hne
  | case5 => rfl

/-- The frames above a length are written back. -/
theorem resetTrail_append {fs : List TrailFrame} {es : List (ℕ × AttCell)} (h : Records fs es)
    (tr : List TrailFrame) (mem : ℕ → AttCell) :
    resetTrail tr.length (fs ++ tr) mem = (tr, rewind es mem) := by
  induction h generalizing mem with
  | nil => exact resetTrail_length tr mem
  | @var fs es a d h ih =>
      have hne : (fs ++ tr).length + 1 ≠ tr.length := by rw [List.length_append]; omega
      rw [List.cons_append, resetTrail, if_neg hne, ih, rewind]
  | @appl fs es a d old h ih =>
      have hne : (fs ++ tr).length + 2 ≠ tr.length := by rw [List.length_append]; omega
      rw [List.cons_append, List.cons_append, resetTrail, if_neg hne, ih, rewind]

/-- The stacks come from older ones, which the frames above the older trail give back. -/
structure Since (old s : Stacks) (es : List (ℕ × AttCell)) : Prop where
  trail : ∃ fs, Records fs es ∧ s.tr = fs ++ old.tr
  rewinds : ∀ a < old.hr, rewind es s.mem a = old.mem a
  le : old.hr ≤ s.hr

variable {fz} {old s : Stacks} {es : List (ℕ × AttCell)}

theorem since_nil (htr : s.tr = old.tr) (hmem : ∀ a < old.hr, s.mem a = old.mem a) (hle : old.hr ≤ s.hr) :
    Since old s [] := ⟨⟨[], .nil, htr⟩, hmem, hle⟩

theorem Since.set (h : Since old s es) {a : ℕ} (ha : a < old.hr → a ∈ es.map Prod.fst) (d : AttCell) :
    Since old (s.set a d) es := by
  refine ⟨h.trail, fun x hx => ?_, h.le⟩
  rw [← h.rewinds x hx]
  by_cases hxa : x = a
  · subst hxa
    exact rewind_of_mem (ha hx)
  · exact rewind_congr (Function.update_of_ne hxa _ _)

theorem Since.push (h : Since old s es) (d : AttCell) : Since old (s.push d) es := by
  have hle := h.le
  have hset : Since old (s.set s.hr d) es := h.set (fun hlt => absurd hle (Nat.not_le.mpr hlt)) d
  exact ⟨hset.trail, hset.rewinds, hle.trans (Nat.le_succ _)⟩

theorem Since.doTrail (h : Since old s es) {a : ℕ} (ha : a < old.hr → s.mem a = .ref a) (d : AttCell) :
    Since old (s.doTrail a d) ((a, .ref a) :: es) := by
  obtain ⟨⟨fs, hfs, htr⟩, hrewinds, hle⟩ := h
  refine ⟨⟨_, hfs.var a d, by rw [Stacks.doTrail, htr]; rfl⟩, fun x hx => ?_, hle⟩
  rw [← hrewinds x hx, rewind]
  apply rewind_congr
  by_cases hxa : x = a
  · subst hxa
    rw [Function.update_self]
    exact (ha hx).symm
  · exact Function.update_of_ne hxa _ _

theorem Since.doMaTrail (h : Since old s es) (a : ℕ) (d : AttCell) :
    Since old (s.doMaTrail a (s.mem a) d) ((a, s.mem a) :: es) := by
  obtain ⟨⟨fs, hfs, htr⟩, hrewinds, hle⟩ := h
  refine ⟨⟨_, hfs.appl a d (s.mem a), by rw [Stacks.doMaTrail, htr]; rfl⟩, fun x hx => ?_, hle⟩
  rw [← hrewinds x hx, rewind]
  exact congrArg (fun m => rewind es m x) (Function.update_eq_self a s.mem)

/-- A step keeps what older stacks are given back, and records more. -/
def Keeps (old s s' : Stacks) : Prop :=
  ∀ es, Since old s es → ∃ es', Since old s' es' ∧ es.map Prod.fst ⊆ es'.map Prod.fst

theorem Keeps.trans {s' s'' : Stacks} (h : Keeps old s s') (h' : Keeps old s' s'') : Keeps old s s'' := by
  intro es hes
  obtain ⟨es', hes', hsub⟩ := h es hes
  obtain ⟨es'', hes'', hsub'⟩ := h' es' hes'
  exact ⟨es'', hes'', List.Subset.trans hsub hsub'⟩

theorem keeps_push (old s : Stacks) (d : AttCell) : Keeps old s (s.push d) :=
  fun es hes => ⟨es, hes.push d, List.Subset.refl _⟩

theorem le_protectH (fz : Frozen) (cp : Choiceptr) : cp.cpH ≤ fz.protectH cp := by
  unfold Frozen.protectH
  split
  · exact le_rfl
  · omega

/-- `MaBind` records the cells below the choice point. -/
theorem Since.maBind (h : Since old s es) (hb : s.b.cpH = old.hr) (a : ℕ) (d : AttCell) :
    ∃ es', Since old (s.maBind fz a d) es' ∧ es.map Prod.fst ⊆ es'.map Prod.fst ∧
      (a < old.hr → a ∈ es'.map Prod.fst) := by
  have hprotect := le_protectH fz s.b
  unfold Stacks.maBind maTrail
  split
  · have hmem : a ∈ List.map Prod.fst ((a, s.mem a) :: es) := List.mem_cons_self
    exact ⟨_, (h.doMaTrail a d).set (fun _ => hmem) d, List.subset_cons_self _ _, fun _ => hmem⟩
  · next hout =>
    have hlt : ¬ a < old.hr := by
      intro hlt
      rw [outside, Bool.or_eq_true, decide_eq_true_iff, decide_eq_true_iff] at hout
      omega
    exact ⟨es, h.set (fun h => absurd h hlt) d, List.Subset.refl _, fun h => absurd h hlt⟩

theorem keeps_bindLocal {a : ℕ} (ha : old.hr ≤ a) (d : AttCell) : Keeps old s (s.bindLocal fz a d) := by
  intro es hes
  have hlt : ¬ a < old.hr := Nat.not_lt.mpr ha
  unfold bindLocal trailLocal
  split
  · exact ⟨_, (hes.doTrail (fun h => absurd h hlt) d).set (fun h => absurd h hlt) d, List.subset_cons_self _ _⟩
  · exact ⟨es, hes.set (fun h => absurd h hlt) d, List.Subset.refl _⟩

/-- A binding of an unbound variable. -/
theorem keeps_yapBind (hb : s.b.cpH = old.hr) {a : ℕ} (ha : s.mem a = .ref a) (d : AttCell) :
    Keeps old s (s.yapBind fz a d) := by
  intro es hes
  have hprotect := le_protectH fz s.b
  have hle := hes.le
  have htrailed : ∃ es', Since old ((s.set a d).doTrail a d) es' ∧ es.map Prod.fst ⊆ es'.map Prod.fst :=
    ⟨_, (hes.doTrail (fun _ => ha) d).set (fun _ => List.mem_cons_self) d, List.subset_cons_self _ _⟩
  have hset (h : ¬ a < old.hr) : ∃ es', Since old (s.set a d) es' ∧ es.map Prod.fst ⊆ es'.map Prod.fst :=
    ⟨es, hes.set (fun hlt => absurd hlt h) d, List.Subset.refl _⟩
  unfold yapBind trailGlobal trailLocal
  split
  · split
    · exact htrailed
    · next hglobal => exact hset fun hlt => hglobal (by change a < fz.protectH s.b; omega)
  · split
    · exact htrailed
    · exact hset (by omega)

-- ---------------------------------------------------------------------------
-- The invariant
-- ---------------------------------------------------------------------------

/-- The mutables are on the global stack, do not overlap, and have their values. -/
structure Stores (s : Stacks) (cur : ℕ → Option AttCell) : Prop where
  holds : ∀ m v, cur m = some v →
    m + 2 < s.hr ∧ s.readTimedVar m = v ∧ ∃ c < s.hr, s.mem (m + 2) = .ref c
  apart : ∀ m m', cur m ≠ none → cur m' ≠ none → m < m' → m + 2 < m'

/-- The value of a mutable below the older stacks is among the recorded ones when its
    clock is above them. -/
def Clocked (old s : Stacks) (cur : ℕ → Option AttCell) (es : List (ℕ × AttCell)) : Prop :=
  ∀ m v c, cur m = some v → m + 1 < old.hr → s.mem (m + 2) = .ref c → old.hr < c →
    m + 1 ∈ es.map Prod.fst

/-- Each choice point gives back the stacks that it was made from. -/
inductive Inv (fz : Frozen) : Stacks → Mutables → Prop where
  | bottom {s : Stacks} {cur : ℕ → Option AttCell} (hstores : s.Stores cur) (hroom : s.Room fz) :
      Inv fz s ⟨cur, []⟩
  | level {old s : Stacks} {cur gh : ℕ → Option AttCell} {saved : List (ℕ → Option AttCell)}
      {es : List (ℕ × AttCell)} {b : ℕ} (hstores : s.Stores cur) (hroom : s.Room fz)
      (hold : Inv fz old ⟨gh, saved⟩) (hb : s.b = ⟨b, old.hr, old.tr.length⟩)
      (hcpB : s.cpB = old.b :: old.cpB) (hsince : Since old s es) (hclocked : Clocked old s cur es) :
      Inv fz s ⟨cur, gh :: saved⟩

theorem Inv.stores {M : Mutables} (h : Inv fz s M) : s.Stores M.current := by
  cases h with
  | bottom hstores => exact hstores
  | level hstores => exact hstores

theorem Inv.room {M : Mutables} (h : Inv fz s M) : s.Room fz := by
  cases h with
  | bottom _ hroom => exact hroom
  | level _ hroom => exact hroom

/-- A step that makes and removes no choice point. -/
theorem Inv.step {s' : Stacks} {cur cur' : ℕ → Option AttCell} {saved : List (ℕ → Option AttCell)}
    (h : Inv fz s ⟨cur, saved⟩) (hstores : s'.Stores cur') (hroom : s'.Room fz) (hb : s'.b = s.b)
    (hcpB : s'.cpB = s.cpB)
    (hlevel : ∀ old es, fz.hFz ≤ old.hr → s.b.cpH = old.hr → Since old s es → Clocked old s cur es →
      ∃ es', Since old s' es' ∧ Clocked old s' cur' es') : Inv fz s' ⟨cur', saved⟩ := by
  cases h with
  | bottom => exact .bottom hstores hroom
  | @level old _ _ gh saved es b _ _ hold hsb hscpB hsince hclocked =>
      obtain ⟨es', hsince', hclocked'⟩ := hlevel old es hold.room.1 (by rw [hsb]) hsince hclocked
      exact .level hstores hroom hold (hb.trans hsb) (hcpB.trans hscpB) hsince' hclocked'

/-- The cells below the top are left as they are, and the choice points too. -/
structure Extends (s s' : Stacks) : Prop where
  mem : ∀ a < s.hr, s'.mem a = s.mem a
  le : s.hr ≤ s'.hr
  b : s'.b = s.b
  cpB : s'.cpB = s.cpB

theorem Stores.congr {s' : Stacks} {cur : ℕ → Option AttCell} (h : s.Stores cur) (hs : s.Extends s') :
    s'.Stores cur := by
  refine ⟨fun m v hm => ?_, h.apart⟩
  have hle := hs.le
  obtain ⟨hlt, hread, c, hc, hclock⟩ := h.holds m v hm
  refine ⟨hlt.trans_le hle, (hs.mem _ (by omega)).trans hread, c, hc.trans_le hle, ?_⟩
  exact (hs.mem _ hlt).trans hclock

theorem Clocked.congr {s' : Stacks} {cur : ℕ → Option AttCell} {es' : List (ℕ × AttCell)}
    (h : Clocked old s cur es) (hstores : s.Stores cur) (hs : s.Extends s')
    (hsub : es.map Prod.fst ⊆ es'.map Prod.fst) : Clocked old s' cur es' := by
  intro m v c hm hlt hclock hc
  rw [hs.mem _ (hstores.holds m v hm).1] at hclock
  exact hsub (h m v c hm hlt hclock hc)

/-- A step that leaves the cells below the top as they are. -/
theorem Inv.extend {s' : Stacks} {M : Mutables} (h : Inv fz s M) (hs : s.Extends s')
    (hkeeps : ∀ old, s.b.cpH = old.hr → Keeps old s s') (hroom : s'.Room fz) : Inv fz s' M := by
  obtain ⟨cur, saved⟩ := M
  refine h.step (h.stores.congr hs) hroom hs.b hs.cpB fun old es _ hcpH hsince hclocked => ?_
  obtain ⟨es', hsince', hsub⟩ := hkeeps old hcpH es hsince
  exact ⟨es', hsince', hclocked.congr h.stores hs hsub⟩

-- ---------------------------------------------------------------------------
-- Creating and updating
-- ---------------------------------------------------------------------------

theorem extends_push (s : Stacks) (d : AttCell) : s.Extends (s.push d) where
  mem := fun _ ha => Function.update_of_ne (Nat.ne_of_lt ha) _ _
  le := Nat.le_succ _
  b := rfl
  cpB := rfl

theorem Extends.trans {s' s'' : Stacks} (h : s.Extends s') (h' : s'.Extends s'') : s.Extends s'' where
  mem := fun a ha => (h'.mem a (ha.trans_le h.le)).trans (h.mem a ha)
  le := h.le.trans h'.le
  b := h'.b.trans h.b
  cpB := h'.cpB.trans h.cpB

theorem extends_bindLocal {a : ℕ} (ha : s.hr ≤ a) (d : AttCell) : s.Extends (s.bindLocal fz a d) := by
  have hset : s.Extends (s.set a d) :=
    ⟨fun x hx => Function.update_of_ne (by omega) _ _, le_rfl, rfl, rfl⟩
  unfold bindLocal trailLocal
  split
  · exact ⟨hset.mem, hset.le, hset.b, hset.cpB⟩
  · exact hset

theorem extends_globalize (val : AttCell) : s.Extends (s.globalize fz val).1 := by
  have hrefl : s.Extends s := ⟨fun _ _ => rfl, le_rfl, rfl, rfl⟩
  unfold globalize
  split
  · split
    · next a hlt => exact (extends_push s _).trans (extends_bindLocal (Nat.succ_le_of_lt hlt) _)
    · exact hrefl
  · exact hrefl

theorem keeps_globalize (old : Stacks) (val : AttCell) : Keeps old s (s.globalize fz val).1 := by
  intro es hes
  have hle := hes.le
  unfold globalize
  split
  · split
    · next a hlt => exact ((keeps_push old s _).trans (keeps_bindLocal (hle.trans hlt.le) _)) es hes
    · exact ⟨es, hes, List.Subset.refl _⟩
  · exact ⟨es, hes, List.Subset.refl _⟩

theorem Inv.globalize {M : Mutables} (h : Inv fz s M) {val : AttCell}
    (hroom : (s.globalize fz val).1.hr ≤ s.b.b) : Inv fz (s.globalize fz val).1 M := by
  have hext : s.Extends (s.globalize fz val).1 := extends_globalize val
  exact h.extend hext (fun old _ => keeps_globalize old val) ⟨h.room.1.trans hext.le, hext.b ▸ hroom⟩

theorem Inv.pushTimedVar {M : Mutables} (h : Inv fz s M) {val : AttCell} (hroom : s.hr + 3 ≤ s.b.b) :
    Inv fz (s.pushTimedVar val) (M.assign s.hr val) := by
  obtain ⟨cur, saved⟩ := M
  have hext : s.Extends (s.pushTimedVar val) :=
    ((extends_push s _).trans (extends_push _ _)).trans (extends_push _ _)
  have hstores := h.stores.congr hext
  have hclock : (s.pushTimedVar val).mem (s.hr + 2) = .ref (s.hr + 2) := Function.update_self ..
  have hvalue : (s.pushTimedVar val).mem (s.hr + 1) = val :=
    (Function.update_of_ne (by change s.hr + 1 ≠ s.hr + 2; omega) _ _).trans (Function.update_self ..)
  have hother {m : ℕ} (hm : m ≠ s.hr) : Function.update cur s.hr (some val) m = cur m :=
    Function.update_of_ne hm _ _
  have hhr : (s.pushTimedVar val).hr = s.hr + 3 := rfl
  have hbelow {m : ℕ} (hm : cur m ≠ none) : m + 2 < s.hr := by
    obtain ⟨v, hv⟩ := Option.ne_none_iff_exists'.mp hm
    exact (h.stores.holds m v hv).1
  refine h.step ⟨fun m v hm => ?_, fun m m' hm hm' hlt => ?_⟩ ⟨h.room.1.trans hext.le, hroom⟩ rfl rfl
    fun old es _ hcpH hsince hclocked => ?_
  · by_cases hself : m = s.hr
    · subst hself
      rw [Function.update_self, Option.some.injEq] at hm
      exact ⟨by omega, hvalue.trans hm, s.hr + 2, by omega, hclock⟩
    · exact hstores.holds m v ((hother hself).symm.trans hm)
  · by_cases hself : m = s.hr
    · have hm'' := hbelow ((hother (by omega)).symm.trans_ne hm')
      omega
    · have hm := (hother hself).symm.trans_ne hm
      by_cases hself' : m' = s.hr
      · have := hbelow hm
        omega
      · exact h.stores.apart m m' hm ((hother hself').symm.trans_ne hm') hlt
  · have hpushed := ((hsince.push (.functor functorMutable)).push val).push (.ref (s.hr + 2))
    refine ⟨es, hpushed, fun m v c hm hlt hc hlt' => ?_⟩
    have hne : m ≠ s.hr := by
      have hle := hsince.le
      omega
    exact hclocked.congr h.stores hext (List.Subset.refl _) m v c ((hother hne).symm.trans hm) hlt hc hlt'

/-- A step that gives a mutable a value and a clock, and records the value if the
    clock is not to be trusted. -/
theorem Inv.assign {s' : Stacks} {M : Mutables} (h : Inv fz s M) {m c : ℕ} {new : AttCell} (hm : M.current m ≠ none)
    (hroom : s'.Room fz) (hb : s'.b = s.b) (hcpB : s'.cpB = s.cpB) (hle : s.hr ≤ s'.hr)
    (hvalue : s'.mem (m + 1) = new) (hclock : s'.mem (m + 2) = .ref c) (hc : c < s'.hr)
    (hmem : ∀ a < s.hr, a ≠ m + 1 → a ≠ m + 2 → s'.mem a = s.mem a)
    (hlevel : ∀ old es, fz.hFz ≤ old.hr → s.b.cpH = old.hr → Since old s es → Clocked old s M.current es →
      ∃ es', Since old s' es' ∧ es.map Prod.fst ⊆ es'.map Prod.fst ∧
        (m + 1 < old.hr → old.hr < c → m + 1 ∈ es'.map Prod.fst)) : Inv fz s' (M.assign m new) := by
  obtain ⟨cur, saved⟩ := M
  have hother {m' : ℕ} (hne : m' ≠ m) : Function.update cur m (some new) m' = cur m' :=
    Function.update_of_ne hne _ _
  have hsome {m' : ℕ} (hm' : Function.update cur m (some new) m' ≠ none) : cur m' ≠ none := by
    by_cases hself : m' = m
    · exact hself ▸ hm
    · exact (hother hself).symm.trans_ne hm'
  -- the cells of another mutable are not among those of this one
  have hcells {m' a : ℕ} (hne : m' ≠ m) (hm' : cur m' ≠ none) (ha : a = m' + 1 ∨ a = m' + 2) : s'.mem a = s.mem a := by
    obtain ⟨v, hv⟩ := Option.ne_none_iff_exists'.mp hm'
    have hlt := (h.stores.holds m' v hv).1
    have hapart := h.stores.apart m m' hm hm'
    have hapart' := h.stores.apart m' m hm' hm
    exact hmem a (by omega) (by omega) (by omega)
  refine h.step ⟨fun m' v hm' => ?_, fun m₁ m₂ h₁ h₂ => h.stores.apart m₁ m₂ (hsome h₁) (hsome h₂)⟩ hroom hb hcpB
    fun old es hfz hcpH hsince hclocked => ?_
  · by_cases hself : m' = m
    · subst hself
      rw [Function.update_self, Option.some.injEq] at hm'
      obtain ⟨v', hv'⟩ := Option.ne_none_iff_exists'.mp hm
      exact ⟨(h.stores.holds m' v' hv').1.trans_le hle, hvalue.trans hm', c, hc, hclock⟩
    · rw [hother hself] at hm'
      have hne : cur m' ≠ none := by rw [hm']; exact Option.some_ne_none v
      obtain ⟨hlt, hread, c', hc', hclock'⟩ := h.stores.holds m' v hm'
      refine ⟨hlt.trans_le hle, (hcells hself hne (.inl rfl)).trans hread, c', hc'.trans_le hle, ?_⟩
      exact (hcells hself hne (.inr rfl)).trans hclock'
  · obtain ⟨es', hsince', hsub, hrecorded⟩ := hlevel old es hfz hcpH hsince hclocked
    refine ⟨es', hsince', fun m' v c' hm' hlt hc' hold => ?_⟩
    by_cases hself : m' = m
    · subst hself
      rw [hclock] at hc'
      obtain rfl : c = c' := by simpa using hc'
      exact hrecorded hlt hold
    · rw [hother hself] at hm'
      have hne : cur m' ≠ none := by rw [hm']; exact Option.some_ne_none v
      rw [hcells hself hne (.inr rfl)] at hc'
      exact hsub (hclocked m' v c' hm' hlt hc' hold)

@[simp] theorem maBind_mem (s : Stacks) (a : ℕ) (d : AttCell) : (s.maBind fz a d).mem = Function.update s.mem a d := by
  unfold Stacks.maBind maTrail
  split <;> rfl

@[simp] theorem maBind_hr (s : Stacks) (a : ℕ) (d : AttCell) : (s.maBind fz a d).hr = s.hr := by
  unfold Stacks.maBind maTrail
  split <;> rfl

@[simp] theorem maBind_b (s : Stacks) (a : ℕ) (d : AttCell) : (s.maBind fz a d).b = s.b := by
  unfold Stacks.maBind maTrail
  split <;> rfl

@[simp] theorem maBind_cpB (s : Stacks) (a : ℕ) (d : AttCell) : (s.maBind fz a d).cpB = s.cpB := by
  unfold Stacks.maBind maTrail
  split <;> rfl

theorem assignTimedVar_b (s : Stacks) (m timestmp : ℕ) (new : AttCell) :
    (s.assignTimedVar fz m timestmp new).b = s.b := by
  unfold Stacks.assignTimedVar
  split
  · rfl
  · simp only [Stacks.push, Stacks.set, maBind_b]

theorem le_hr_assignTimedVar (s : Stacks) (m timestmp : ℕ) (new : AttCell) :
    s.hr ≤ (s.assignTimedVar fz m timestmp new).hr := by
  unfold Stacks.assignTimedVar
  split
  · exact le_rfl
  · simp only [Stacks.push, Stacks.set, maBind_hr, Nat.le_succ]

/-- A clock above the choice point says that the value was recorded since. Otherwise
    `MaBind` records it. -/
theorem Inv.assignTimedVar {M : Mutables} (h : Inv fz s M) {m timestmp : ℕ} {new : AttCell} (hm : M.current m ≠ none)
    (hclock : s.mem (m + 2) = .ref timestmp) (hroom : (s.assignTimedVar fz m timestmp new).hr ≤ s.b.b) :
    Inv fz (s.assignTimedVar fz m timestmp new) (M.assign m new) := by
  obtain ⟨v, hv⟩ := Option.ne_none_iff_exists'.mp hm
  obtain ⟨hlt, -, c, hc, hclock'⟩ := h.stores.holds m v hv
  obtain rfl : timestmp = c := by simpa using hclock.symm.trans hclock'
  have hfz := h.room.1
  unfold Stacks.assignTimedVar at hroom ⊢
  split at hroom
  · next hrecent =>
    rw [if_pos hrecent]
    refine h.assign hm ⟨hfz, hroom⟩ rfl rfl le_rfl (Function.update_self ..)
      ((Function.update_of_ne (by omega) _ _).trans hclock) hc (fun a _ ha _ => Function.update_of_ne ha _ _) ?_
    intro old es _ hcpH hsince hclocked
    have hmem (hlt : m + 1 < old.hr) : m + 1 ∈ es.map Prod.fst :=
      hclocked m v timestmp hv hlt hclock (hcpH ▸ hrecent.1)
    exact ⟨es, hsince.set hmem new, List.Subset.refl _, fun hlt _ => hmem hlt⟩
  · next hrecent =>
    rw [if_neg hrecent]
    simp only [Stacks.push, Stacks.set, maBind_hr] at hroom
    have hlevel : ∀ old es, fz.hFz ≤ old.hr → s.b.cpH = old.hr → Since old s es → Clocked old s M.current es →
        ∃ es', Since old (((s.maBind fz (m + 1) new).push (.nonvar (.atom atomFoundVar))).maBind fz (m + 2)
          (.ref s.hr)) es' ∧ es.map Prod.fst ⊆ es'.map Prod.fst ∧
          (m + 1 < old.hr → old.hr < s.hr → m + 1 ∈ es'.map Prod.fst) := by
      intro old es _ hcpH hsince _
      obtain ⟨es₁, hsince₁, hsub₁, hmem₁⟩ : ∃ es', Since old (s.maBind fz (m + 1) new) es' ∧ _ ∧ _ :=
        hsince.maBind hcpH (m + 1) new
      have hcpH' : ((s.maBind fz (m + 1) new).push (.nonvar (.atom atomFoundVar))).b.cpH = old.hr :=
        (congrArg Choiceptr.cpH (maBind_b s (m + 1) new)).trans hcpH
      obtain ⟨es₂, hsince₂, hsub₂, -⟩ := (hsince₁.push (.nonvar (.atom atomFoundVar))).maBind hcpH' (m + 2) (.ref s.hr)
      exact ⟨es₂, hsince₂, List.Subset.trans hsub₁ hsub₂, fun hlt _ => hsub₂ (hmem₁ hlt)⟩
    refine h.assign (c := s.hr) hm ⟨?_, ?_⟩ ?_ ?_ ?_ ?_ ?_ ?_ ?_ hlevel
    all_goals simp only [Stacks.push, Stacks.set, maBind_mem, maBind_hr, maBind_b, maBind_cpB]
    · omega
    · exact hroom
    · omega
    · rw [Function.update_of_ne (by omega), Function.update_of_ne (by omega), Function.update_self]
    · rw [Function.update_self]
    · omega
    · intro a ha hne hne'
      rw [Function.update_of_ne hne', Function.update_of_ne (by omega), Function.update_of_ne hne]

-- ---------------------------------------------------------------------------
-- Choice points
-- ---------------------------------------------------------------------------

theorem Inv.choice {M : Mutables} (h : Inv fz s M) {b : ℕ} (hb : s.hr ≤ b) : Inv fz (s.choice b) M.choice := by
  obtain ⟨hholds, hapart⟩ := h.stores
  have hsince : Since s (s.choice b) [] := since_nil rfl (fun _ _ => rfl) le_rfl
  refine .level ⟨hholds, hapart⟩ ⟨h.room.1, hb⟩ h rfl rfl hsince fun m v c hm hlt hc hold => ?_
  obtain ⟨-, -, c', hc', hclock⟩ := hholds m v hm
  obtain rfl : c = c' := by simpa using hc.symm.trans hclock
  exact absurd hold hc'.not_gt

/-- The older stacks, with what is written back. -/
theorem Inv.restore {M : Mutables} (h : Inv fz old M) {mem : ℕ → AttCell} (hmem : ∀ a < old.hr, mem a = old.mem a) :
    Inv fz { old with mem := mem } M := by
  refine h.extend ⟨hmem, le_rfl, rfl, rfl⟩ (fun old' _ es hes => ?_) h.room
  refine ⟨es, ⟨hes.trail, fun a ha => ?_, hes.le⟩, List.Subset.refl _⟩
  exact (rewind_congr (hmem a (ha.trans_le hes.le))).trans (hes.rewinds a ha)

theorem Since.retry (h : Since old s es) {b : ℕ} (hb : s.b = ⟨b, old.hr, old.tr.length⟩) (hfz : fz.hFz ≤ old.hr) :
    s.retry fz = { old with mem := rewind es s.mem, b := s.b, cpB := s.cpB } := by
  obtain ⟨fs, hfs, htr⟩ := h.trail
  have hreset : resetTrail s.b.cpTr s.tr s.mem = (old.tr, rewind es s.mem) := by
    rw [hb, htr]
    exact resetTrail_append hfs old.tr s.mem
  have hprotect : fz.protectH s.b = old.hr := by
    unfold Frozen.protectH
    rw [hb]
    split
    · rfl
    · next hle => exact hfz.antisymm (Nat.not_lt.mp hle)
  rw [Stacks.retry, hreset, hprotect]

theorem Inv.retry {cur gh : ℕ → Option AttCell} {saved : List (ℕ → Option AttCell)}
    (h : Inv fz s ⟨cur, gh :: saved⟩) : Inv fz (s.retry fz) ⟨gh, gh :: saved⟩ := by
  cases h with
  | @level old _ _ _ _ es b _ hroom hold hb hcpB hsince _ =>
      have hrestore := hold.restore hsince.rewinds
      obtain ⟨hholds, hapart⟩ := hrestore.stores
      rw [hsince.retry hb hold.room.1]
      refine .level ⟨hholds, hapart⟩ ⟨hold.room.1, hsince.le.trans hroom.2⟩ hold hb hcpB
        (since_nil rfl hsince.rewinds le_rfl) fun m v c hm hlt hc hlt' => ?_
      obtain ⟨-, -, c', hc', hclock⟩ := hholds m v hm
      obtain rfl : c = c' := by simpa using hc.symm.trans hclock
      exact absurd hlt' hc'.not_gt

theorem Inv.trust {s' : Stacks} {cur gh : ℕ → Option AttCell} {saved : List (ℕ → Option AttCell)}
    (h : Inv fz s ⟨cur, gh :: saved⟩) (htrust : s.trust fz = some s') : Inv fz s' ⟨gh, saved⟩ := by
  cases h with
  | @level old _ _ _ _ es b _ _ hold hb hcpB hsince _ =>
      rw [Stacks.trust, hcpB, hsince.retry hb hold.room.1] at htrust
      obtain rfl := Option.some.inj htrust
      exact hold.restore hsince.rewinds

-- ---------------------------------------------------------------------------
-- Runs
-- ---------------------------------------------------------------------------

theorem yapBind_eq (fz : Frozen) (s : Stacks) (a : ℕ) (d : AttCell) :
    s.yapBind fz a d = { s.set a d with tr := (s.yapBind fz a d).tr } := by
  unfold yapBind trailGlobal trailLocal
  split <;> split <;> rfl

theorem Inv.yapBind {M : Mutables} (h : Inv fz s M) {a : ℕ} (hunbound : s.mem a = .ref a) (ha : ¬ M.Owns a)
    (d : AttCell) : Inv fz (s.yapBind fz a d) M := by
  obtain ⟨cur, saved⟩ := M
  have hs := yapBind_eq fz s a d
  have hcell {m x : ℕ} {v : AttCell} (hm : cur m = some v) (hx : x = m + 1 ∨ x = m + 2) :
      (s.yapBind fz a d).mem x = s.mem x := by
    rw [hs]
    refine Function.update_of_ne ?_ _ _
    rintro rfl
    exact ha ⟨m, Option.ne_none_iff_exists'.mpr ⟨v, hm⟩, hx⟩
  have hhr : (s.yapBind fz a d).hr = s.hr := by rw [hs]; rfl
  have hb : (s.yapBind fz a d).b = s.b := by rw [hs]; rfl
  refine h.step ⟨fun m v hm => ?_, h.stores.apart⟩ ?_ hb (by rw [hs]; rfl)
    fun old es _ hcpH hsince hclocked => ?_
  · obtain ⟨hlt, hread, c, hc, hclock⟩ := h.stores.holds m v hm
    rw [hhr]
    exact ⟨hlt, (hcell hm (.inl rfl)).trans hread, c, hc, (hcell hm (.inr rfl)).trans hclock⟩
  · rw [Room, hhr, hb]
    exact h.room
  · obtain ⟨es', hsince', hsub⟩ := keeps_yapBind hcpH hunbound d es hsince
    refine ⟨es', hsince', fun m v c hm hlt hc hold => ?_⟩
    rw [hcell hm (.inr rfl)] at hc
    exact hsub (hclocked m v c hm hlt hc hold)

theorem updateTimedVar_of_clock {m timestmp : ℕ} (h : s.mem (m + 2) = .ref timestmp) (new : AttCell) :
    s.updateTimedVar fz m new = some (s.readTimedVar m,
      (s.globalize fz new).1.assignTimedVar fz m timestmp (s.globalize fz new).2) := by
  rw [updateTimedVar, h]
  rfl

theorem inv_of_run {M : Mutables} (h : Run fz s M) : Inv fz s M := by
  induction h with
  | start hroom =>
      refine .bottom ⟨fun m v hm => ?_, fun m _ hm => absurd rfl hm⟩ hroom
      cases hm
  | @create s M val h hroom ih =>
      have hhr : (s.newTimedVar fz val).2.hr = (s.globalize fz val).1.hr + 3 := rfl
      have hb : (s.newTimedVar fz val).2.b = s.b := (extends_globalize val).b
      have hle := hroom.2
      rw [hhr, hb] at hle
      have hglobal : Inv fz (s.globalize fz val).1 M := ih.globalize (by omega)
      exact hglobal.pushTimedVar (by rw [(extends_globalize val).b]; exact hle)
  | @update s s' M m new t h hm hupdate hroom ih =>
      obtain ⟨v, hv⟩ := Option.ne_none_iff_exists'.mp hm
      obtain ⟨hlt, -, c, -, hclock⟩ := ih.stores.holds m v hv
      have hext : s.Extends (s.globalize fz new).1 := extends_globalize new
      rw [updateTimedVar_of_clock hclock, Option.some.injEq, Prod.mk.injEq] at hupdate
      obtain ⟨-, rfl⟩ := hupdate
      have hle := hroom.2
      rw [assignTimedVar_b, hext.b] at hle
      have hglobal : Inv fz (s.globalize fz new).1 M := ih.globalize ((le_hr_assignTimedVar ..).trans hle)
      exact hglobal.assignTimedVar hm ((hext.mem _ hlt).trans hclock) (by rw [hext.b]; exact hle)
  | push d h hroom ih => exact ih.extend (extends_push _ d) (fun old _ => keeps_push old _ d) hroom
  | bind d h hunbound ha ih => exact ih.yapBind hunbound ha d
  | choice h hb ih => exact ih.choice hb
  | retry h ih => exact ih.retry
  | trust h htrust ih => exact ih.trust htrust

/-- In every run a mutable has the value that it was last given, and can be updated.
    A failure gives back the values from when the choice point was made. -/
theorem timedMutables_right {M : Mutables} (h : Run fz s M) :
    (∀ m v, M.current m = some v → s.readTimedVar m = v ∧
      ∀ new, ∃ s', s.updateTimedVar fz m new = some (v, s')) ∧
    ∀ old ∈ M.saved.head?, ∀ m v, old m = some v → (s.retry fz).readTimedVar m = v ∧
      ∃ s', s.trust fz = some s' ∧ s'.readTimedVar m = v := by
  have hinv := inv_of_run h
  refine ⟨fun m v hm => ?_, fun old hold m v hm => ?_⟩
  · obtain ⟨-, hread, c, -, hclock⟩ := hinv.stores.holds m v hm
    exact ⟨hread, fun new => ⟨_, hread ▸ updateTimedVar_of_clock hclock new⟩⟩
  · obtain ⟨cur, saved⟩ := M
    cases hinv with
    | bottom => cases hold
    | @level old' _ _ gh _ es b _ _ _ _ hcpB =>
        obtain rfl : gh = old := by simpa using hold
        have hinv := inv_of_run h
        have htrust : s.trust fz = some { s.retry fz with b := old'.b, cpB := old'.cpB } := by
          rw [Stacks.trust, hcpB]
        exact ⟨(hinv.retry.stores.holds m v hm).2.1, _, htrust, ((hinv.trust htrust).stores.holds m v hm).2.1⟩

/-- Two updates after a nested choice point, where the second one is not recorded. -/
theorem timedMutables_right_nested :
    ∃ (fz : Frozen) (s : Stacks) (m : ℕ), s.readTimedVar m = .nonvar (.int 4) ∧
      (s.retry fz).readTimedVar m = .nonvar (.int 2) := by
  have hstart : Run ⟨0, 100⟩ ⟨.ref, 10, [], ⟨100, 10, 0⟩, []⟩ ⟨fun _ => none, []⟩ := .start ⟨by decide, by decide⟩
  have houter := (hstart.create (.nonvar (.int 1)) ⟨by decide, by decide⟩).choice (b := 90) (by decide)
  have hinner := (houter.update 10 (.nonvar (.int 2)) (by decide) rfl ⟨by decide, by decide⟩).choice
    (b := 80) (by decide)
  have hthree := (hinner.push (.nonvar (.int 0)) ⟨by decide, by decide⟩).update 10 (.nonvar (.int 3))
    (by decide) rfl ⟨by decide, by decide⟩
  have hfour := hthree.update 10 (.nonvar (.int 4)) (by decide) rfl ⟨by decide, by decide⟩
  obtain ⟨hcurrent, hsaved⟩ := timedMutables_right hfour
  exact ⟨_, _, 10, (hcurrent 10 _ rfl).1, (hsaved _ rfl 10 _ rfl).1⟩

end Stacks

end Yap
