-- SUMMARY: What the loop of `term_hash` copies of a term without strings, big numbers and cells below themselves, and that identical terms are copied alike.
import Yap.TermHash.Code

/-!
# Copies of terms

The words that a plain term contributes depend on the term alone. The loop appends
them, or comes to the first unbound variable, unless it runs out of space.
-/

namespace Yap

open Relation

-- ---------------------------------------------------------------------------
-- Plain terms
-- ---------------------------------------------------------------------------

/-- The words that a word contributes itself, if these depend on its value alone. -/
def Nonvar.heading (hp : Heap) : Nonvar → Option (List Word)
  | .int n => some [n.signExtend 64]
  | .atom a => some (addAtomToHash a)
  | .pair _ => some (addAtomToHash atomDot)
  | .appl p =>
    match hp.functorAt p with
    | .functor f => some (addAtomToHash f.nameOfFE)
    | .blob .dbRef => some [functorDBRef]
    | .blob (.longInt n) => some [n.val]
    | .blob (.double x) => some [doubleWord x]
    | .blob (.string _) => none
    | .blob (.bigInt _) => none

/-- To the depth there is no string and no big number at the cell or below it, and no
    cell of the path is met again. -/
inductive Plain (hp : Heap) (s : Store) : ℤ → List Addr → Addr → Prop
  | unbound {depth : ℤ} {path : List Addr} {a v : Addr} : s.derefMarked path a = some (.ref v) → Plain hp s depth path a
  | word {depth : ℤ} {path : List Addr} {a : Addr} {d : Nonvar} {ws : List Word} :
      s.derefMarked path a = some (.nonvar d) → d.heading hp = some ws →
      (depth ≠ 1 → ∀ b ∈ d.cells hp, Plain hp s (depth - 1) (a :: path) b) → Plain hp s depth path a

/-- To the depth there is an unbound variable at the cell or below it. -/
inductive Open (hp : Heap) (s : Store) : ℤ → Addr → Prop
  | unbound {depth : ℤ} {a v : Addr} : s.deref (.ref a) = .ref v → Open hp s depth a
  | argument {depth : ℤ} {a b : Addr} {d : Nonvar} : s.deref (.ref a) = .nonvar d → depth ≠ 0 → depth ≠ 1 →
      b ∈ d.cells hp → Open hp s (depth - 1) b → Open hp s depth a

/-- The arguments that are copied. -/
def Nonvar.copied (hp : Heap) (depth : ℤ) (d : Nonvar) : List Addr := if depth = 1 then [] else d.cells hp

theorem Nonvar.copied_of_ne {hp : Heap} {depth : ℤ} {d : Nonvar} (h : depth ≠ 1) : d.copied hp depth = d.cells hp :=
  if_neg h

/-- What some cells contribute to the copy, with the path above them: their words, or
    nothing if there is an unbound variable. -/
inductive Copies (hp : Heap) (s : Store) : ℤ → List Addr → List Addr → Option (List Word) → Prop
  | nil {depth : ℤ} {path : List Addr} : Copies hp s depth path [] (some [])
  | unbound {depth : ℤ} {path as : List Addr} {a v : Addr} : s.derefMarked path a = some (.ref v) →
      Copies hp s depth path (a :: as) none
  | word {depth : ℤ} {path as : List Addr} {a : Addr} {d : Nonvar} {ws : List Word} {r r' : Option (List Word)} :
      s.derefMarked path a = some (.nonvar d) → d.heading hp = some ws →
      Copies hp s (depth - 1) (a :: path) (d.copied hp depth) r → Copies hp s depth path as r' →
      Copies hp s depth path (a :: as) (r.bind fun args => r'.map (ws ++ args ++ ·))

variable {hp hp' : Heap} {s s' : Store} {depth : ℤ} {path path' as bs : List Addr} {a b : Addr}
  {r r' : Option (List Word)}

/-- Finite terms without strings and big numbers are plain to every depth. -/
theorem Models.plain {R : Finset Addr} {σ : Addr → Term} (hσ : Models hp R s.cell σ) (hR : Closed hp R s.cell)
    (hheading : ∀ b ∈ R, ∀ d, s.deref (.ref b) = .nonvar d → ∃ ws, d.heading hp = some ws) (ha : a ∈ R)
    (hpath : ∀ p ∈ path, (σ a).size < (σ p).size) : Plain hp s depth path a := by
  induction hn : (σ a).size using Nat.strong_induction_on generalizing depth path a with
  | h n ih =>
    cases hderef : s.derefMarked path a with
    | none =>
      obtain ⟨p, hp, heq⟩ := hσ.marked hR ha hderef
      exact absurd (hpath p hp) (heq ▸ lt_irrefl _)
    | some c =>
      cases c with
      | ref v => exact .unbound hderef
      | nonvar d =>
        have hd := Store.deref_of_derefMarked hderef
        obtain ⟨ws, hws⟩ := hheading a ha d hd
        refine .word hderef hws fun _ b hb => ?_
        have hwithin : (Cell.nonvar d).Within hp R := hd ▸ Store.deref_within hR (Cell.within_ref.mpr ha)
        have hvalue : d.value hp σ = σ a := by
          have hderef' := hσ.deref hR (Cell.within_ref.mpr ha)
          rw [hd] at hderef'
          exact hderef'
        have hlt : (σ b).size < (σ a).size := hvalue ▸ Nonvar.size_lt hb
        refine ih _ (hn ▸ hlt) (hwithin b hb) (fun p hp => ?_) rfl
        rcases List.mem_cons.mp hp with rfl | hp
        · exact hlt
        · exact hlt.trans (hpath p hp)

theorem exists_copies_of_cons
    (h : ∀ a ∈ as, ∀ (bs : List Addr) (r : Option (List Word)), Copies hp s depth path bs r →
      ∃ r', Copies hp s depth path (a :: bs) r') : ∃ r, Copies hp s depth path as r := by
  induction as with
  | nil => exact ⟨_, .nil⟩
  | cons a as ih =>
    obtain ⟨r, hr⟩ := ih fun b hb => h b (List.mem_cons_of_mem _ hb)
    exact h a (List.mem_cons_self ..) as r hr

/-- A plain term can be copied before other cells. -/
theorem Plain.copies_cons (h : Plain hp s depth path a) (hr : Copies hp s depth path as r) :
    ∃ r', Copies hp s depth path (a :: as) r' := by
  induction h generalizing as r with
  | unbound hderef => exact ⟨_, .unbound hderef⟩
  | @word depth path a d ws hderef hheading _ ih =>
    have hargs : ∃ r', Copies hp s (depth - 1) (a :: path) (d.copied hp depth) r' := by
      by_cases hdepth : depth = 1
      · rw [Nonvar.copied, if_pos hdepth]
        exact ⟨_, .nil⟩
      · rw [Nonvar.copied_of_ne hdepth]
        exact exists_copies_of_cons fun b hb _ _ => ih hdepth b hb
    obtain ⟨r', hr'⟩ := hargs
    exact ⟨_, .word hderef hheading hr' hr⟩

theorem Plain.exists_copies (h : Plain hp s depth path a) : ∃ r, Copies hp s depth path [a] r := h.copies_cons .nil

/-- Words are copied only if there is no unbound variable. -/
theorem Copies.not_open {ws : List Word} (h : Copies hp s depth path as (some ws)) (ha : a ∈ as) :
    ¬ Open hp s depth a := by
  generalize hr : some ws = r at h
  induction h generalizing ws a with
  | nil => cases ha
  | unbound => cases hr
  | @word depth path as b d ws₁ r r' hderef _ _ _ ihargs ih =>
    obtain ⟨args, rfl, hr'⟩ := Option.bind_eq_some_iff.mp hr.symm
    obtain ⟨rest, rfl, -⟩ := Option.map_eq_some_iff.mp hr'
    rcases List.mem_cons.mp ha with rfl | ha
    · rintro (hv | ⟨hd, -, hdepth, hb, hopen⟩)
      · cases (Store.deref_of_derefMarked hderef).symm.trans hv
      · obtain rfl := Cell.nonvar.inj ((Store.deref_of_derefMarked hderef).symm.trans hd)
        exact ihargs (Nonvar.copied_of_ne hdepth ▸ hb) rfl hopen
    · exact ih ha rfl

-- ---------------------------------------------------------------------------
-- Identical terms
-- ---------------------------------------------------------------------------

/-- Two words show the same: an atomic term up to its place, or a functor. -/
inductive Nonvar.ShowsSame (hp hp' : Heap) : Nonvar → Nonvar → Prop
  | int (n : BitVec 58) : ShowsSame hp hp' (.int n) (.int n)
  | atom (a : Atom) : ShowsSame hp hp' (.atom a) (.atom a)
  | pair (p q : Addr) : ShowsSame hp hp' (.pair p) (.pair q)
  | appl {p q : Addr} : hp.functorAt p = hp'.functorAt q → ShowsSame hp hp' (.appl p) (.appl q)

/-- Two words are variables, or show the same and have related arguments. -/
inductive AgreeBelow (hp hp' : Heap) (r : Addr → Addr → Prop) : Cell → Cell → Prop
  | ref (v v' : Addr) : AgreeBelow hp hp' r (.ref v) (.ref v')
  | nonvar {d d' : Nonvar} : d.ShowsSame hp hp' d' → List.Forall₂ r (d.cells hp) (d'.cells hp') →
      AgreeBelow hp hp' r (.nonvar d) (.nonvar d')

/-- The cells of two stores hold one finite or infinite term, up to the names of variables. -/
def Identical (hp : Heap) (s : Store) (hp' : Heap) (s' : Store) (a b : Addr) : Prop :=
  ∃ r : Addr → Addr → Prop, r a b ∧ ∀ a b, r a b → AgreeBelow hp hp' r (s.deref (.ref a)) (s'.deref (.ref b))

theorem Nonvar.ShowsSame.heading_eq {d d' : Nonvar} (h : d.ShowsSame hp hp' d') : d.heading hp = d'.heading hp' := by
  cases h with
  | appl hf => rw [Nonvar.heading, Nonvar.heading, hf]
  | _ => rfl

theorem forall₂_copied {rel : Addr → Addr → Prop} {d d' : Nonvar} (depth : ℤ)
    (h : List.Forall₂ rel (d.cells hp) (d'.cells hp')) : List.Forall₂ rel (d.copied hp depth) (d'.copied hp' depth) := by
  unfold Nonvar.copied
  split
  · exact .nil
  · exact h

/-- Identical terms contribute the same words. -/
theorem Copies.eq_of_agree {rel : Addr → Addr → Prop}
    (hrel : ∀ a b, rel a b → AgreeBelow hp hp' rel (s.deref (.ref a)) (s'.deref (.ref b)))
    (h : Copies hp s depth path as r) (h' : Copies hp' s' depth path' bs r') (hcells : List.Forall₂ rel as bs) :
    r = r' := by
  induction h generalizing path' bs r' with
  | nil =>
    cases hcells
    cases h'
    rfl
  | unbound hderef =>
    cases hcells with
    | cons hab _ =>
      have hagree := hrel _ _ hab
      rw [Store.deref_of_derefMarked hderef] at hagree
      cases h' with
      | unbound => rfl
      | word hderef' =>
        rw [Store.deref_of_derefMarked hderef'] at hagree
        cases hagree
  | word hderef hheading _ _ ihargs ih =>
    cases hcells with
    | cons hab hcells =>
      have hagree := hrel _ _ hab
      rw [Store.deref_of_derefMarked hderef] at hagree
      cases h' with
      | unbound hderef' =>
        rw [Store.deref_of_derefMarked hderef'] at hagree
        cases hagree
      | word hderef' hheading' hargs' h' =>
        rw [Store.deref_of_derefMarked hderef'] at hagree
        cases hagree with
        | nonvar hsame hbelow =>
          obtain rfl := Option.some.inj (hheading.symm.trans (hsame.heading_eq.trans hheading'))
          rw [ihargs hargs' (forall₂_copied _ hbelow), ih h' hcells]

-- ---------------------------------------------------------------------------
-- The loop
-- ---------------------------------------------------------------------------

theorem writeWords_nil (scratch : ℕ → Word) (st : ℕ) : writeWords scratch st [] = scratch := by
  funext i
  rw [writeWords]
  split <;> rfl

theorem writeWords_append (scratch : ℕ → Word) (st : ℕ) (ws ws' : List Word) :
    writeWords (writeWords scratch st ws) (st + ws.length) ws' = writeWords scratch st (ws ++ ws') := by
  funext i
  simp only [writeWords, List.getElem?_append]
  by_cases hi : st + ws.length ≤ i
  · have hst : st ≤ i := by omega
    have hlen : ¬ i - st < ws.length := by omega
    have hnone : ws[i - st]? = none := List.getElem?_eq_none (by omega)
    rw [if_pos hi, if_pos hst, if_pos hst, if_neg hlen, hnone, Nat.sub_add_eq]
    rfl
  · by_cases hst : st ≤ i
    · have hlen : i - st < ws.length := by omega
      rw [if_neg hi, if_pos hst, if_pos hst, if_pos hlen]
    · rw [if_neg hi, if_neg hst, if_neg hst]

/-- The scratch cells hold the words that have been written. -/
theorem map_writeWords (scratch : ℕ → Word) (ws : List Word) :
    (List.range ws.length).map (writeWords scratch 0 ws) = ws := by
  refine List.ext_getElem (by simp) fun i hi hi' => ?_
  simp [writeWords, hi']

end Yap
