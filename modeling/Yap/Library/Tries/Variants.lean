-- SUMMARY: Variants of terms: terms that correspond by a one-to-one relation of their variables, with large integers told by value or by box.
import Yap.Library.Tries.Words

/-!
# Variants

Two terms correspond when they differ in their variables, their large integers
and the places of their cells alone. They are variants when their large integers
have the same values and their variables are in a one-to-one relation.
-/

namespace Yap

namespace Tries

/-- How the boxes of two terms correspond. A database reference is its place. -/
def SameBlob (L : Addr → LongInt → Addr → LongInt → Prop) (p : Addr) (b : Blob) (q : Addr) (c : Blob) : Prop :=
  match b, c with
  | .longInt m, .longInt n => L p m q n
  | .dbRef, .dbRef => p = q
  | b, c => b = c ∧ b ≠ .dbRef ∧ ∀ n, b ≠ .longInt n

/-- Terms that differ in their variables and large integers alone, which correspond by these relations. -/
inductive Corr (R : Addr → Addr → Prop) (L : Addr → LongInt → Addr → LongInt → Prop) : Term → Term → Prop
  | var {v w : Addr} : R v w → Corr R L (.var v) (.var w)
  | int (n : BitVec 58) : Corr R L (.int n) (.int n)
  | atom (a : Atom) : Corr R L (.atom a) (.atom a)
  | blob {p q : Addr} {b c : Blob} : SameBlob L p b q c → Corr R L (.blob p b) (.blob q c)
  | pair {p q : Addr} {h h' t t' : Term} : Corr R L h h' → Corr R L t t' → Corr R L (.pair p h t) (.pair q h' t')
  | appl {p q : Addr} {f : Functor} {as bs : Fin f.arityOfFE → Term} :
    (∀ i, Corr R L (as i) (bs i)) → Corr R L (.appl p f as) (.appl q f bs)

structure OneToOne (R : Addr → Addr → Prop) : Prop where
  right : ∀ {v w w'}, R v w → R v w' → w = w'
  left : ∀ {v v' w}, R v w → R v' w → v = v'

def SameValue (_ : Addr) (m : LongInt) (_ : Addr) (n : LongInt) : Prop := m = n

def SameBox (p : Addr) (_ : LongInt) (q : Addr) (_ : LongInt) : Prop := p = q

/-- The terms are equal up to their variables and the places of their cells. -/
def Variant (s t : Term) : Prop := ∃ R, OneToOne R ∧ Corr R SameValue s t

/-- The same where a large integer is told by the place of its box. -/
def BoxVariant (s t : Term) : Prop := ∃ R, OneToOne R ∧ Corr R SameBox s t

variable {R R' : Addr → Addr → Prop} {L L' : Addr → LongInt → Addr → LongInt → Prop} {s t u : Term}

-- ---------------------------------------------------------------------------
-- Correspondence
-- ---------------------------------------------------------------------------

theorem Corr.mono (h : Corr R L s t) (hR : ∀ v w, R v w → R' v w) (hL : ∀ p m q n, L p m q n → L' p m q n) :
    Corr R' L' s t := by
  induction h with
  | var hv => exact .var (hR _ _ hv)
  | int n => exact .int n
  | atom a => exact .atom a
  | blob hb =>
    rename_i p q b c
    refine .blob ?_
    cases b <;> cases c <;> first | exact hL _ _ _ _ hb | exact hb
  | pair _ _ ihh iht => exact .pair ihh iht
  | appl _ ih => exact .appl ih

theorem Corr.flip (h : Corr R L s t) : Corr (fun v w => R w v) (fun p m q n => L q n p m) t s := by
  induction h with
  | var hv => exact .var hv
  | int n => exact .int n
  | atom a => exact .atom a
  | blob hb =>
    rename_i p q b c
    refine .blob ?_
    cases b <;> cases c <;> first | exact hb | exact hb.symm | exact ⟨hb.1.symm, hb.1 ▸ hb.2.1, hb.1 ▸ hb.2.2⟩
  | pair _ _ ihh iht => exact .pair ihh iht
  | appl _ ih => exact .appl ih

theorem SameBlob.trans {p q r : Addr} {b c d : Blob} (h : SameBlob L p b q c) (h' : SameBlob L' q c r d) :
    SameBlob (fun p m r n => ∃ q k, L p m q k ∧ L' q k r n) p b r d := by
  cases b with
  | longInt m =>
    cases c with
    | longInt k =>
      cases d with
      | longInt n => exact ⟨q, k, h, h'⟩
      | _ => exact absurd rfl (h'.2.2 k)
    | _ => exact absurd rfl (h.2.2 m)
  | dbRef =>
    cases c with
    | dbRef =>
      cases d with
      | dbRef => exact Eq.trans h h'
      | _ => exact absurd rfl h'.2.1
    | _ => exact absurd rfl h.2.1
  | double x =>
    obtain ⟨rfl, -⟩ := h
    obtain ⟨rfl, -⟩ := h'
    exact ⟨rfl, by simp, by simp⟩
  | bigInt z =>
    obtain ⟨rfl, -⟩ := h
    obtain ⟨rfl, -⟩ := h'
    exact ⟨rfl, by simp, by simp⟩
  | string a =>
    obtain ⟨rfl, -⟩ := h
    obtain ⟨rfl, -⟩ := h'
    exact ⟨rfl, by simp, by simp⟩

theorem Corr.trans (h : Corr R L s t) (h' : Corr R' L' t u) :
    Corr (fun v w => ∃ x, R v x ∧ R' x w) (fun p m q n => ∃ o k, L p m o k ∧ L' o k q n) s u := by
  induction h generalizing u with
  | var hv =>
    cases h' with
    | var hw => exact .var ⟨_, hv, hw⟩
  | int n =>
    cases h' with
    | int => exact .int n
  | atom a =>
    cases h' with
    | atom => exact .atom a
  | blob hb =>
    cases h' with
    | blob hc => exact .blob (hb.trans hc)
  | pair _ _ ihh iht =>
    cases h' with
    | pair hh ht => exact .pair (ihh hh) (iht ht)
  | appl _ ih =>
    cases h' with
    | appl hargs => exact .appl fun i => ih i (hargs i)

/-- Each large integer of the term, with the place of its box. -/
def AllLongInts (P : Addr → LongInt → Prop) : Term → Prop
  | .pair _ h t => AllLongInts P h ∧ AllLongInts P t
  | .appl _ _ args => ∀ i, AllLongInts P (args i)
  | .blob p (.longInt n) => P p n
  | _ => True

theorem AllLongInts.mono {P Q : Addr → LongInt → Prop} (h : AllLongInts P t) (hPQ : ∀ p n, P p n → Q p n) :
    AllLongInts Q t := by
  induction t with
  | pair p hd tl ihh iht => exact ⟨ihh h.1, iht h.2⟩
  | appl p f args ih => exact fun i => ih i (h i)
  | blob p b =>
    cases b with
    | longInt n => exact hPQ p n h
    | _ => trivial
  | _ => trivial

/-- Two correspondences of the same terms relate each large integer to the same one. -/
theorem Corr.allLongInts (h : Corr R L s t) (h' : Corr R' L' s t) :
    AllLongInts (fun p m => ∃ q n, L p m q n ∧ L' p m q n) s := by
  induction h with
  | var _ => trivial
  | int _ => trivial
  | atom _ => trivial
  | blob hb =>
    rename_i p q b c
    cases h' with
    | blob hc =>
      cases b with
      | longInt m =>
        cases c with
        | longInt n => exact ⟨q, n, hb, hc⟩
        | _ => exact absurd rfl (hb.2.2 m)
      | _ => trivial
  | pair _ _ ihh iht =>
    cases h' with
    | pair hh ht => exact ⟨ihh hh, iht ht⟩
  | appl _ ih =>
    cases h' with
    | appl hargs => exact fun i => ih i (hargs i)

theorem Corr.writable (h : Corr R L s t) (ht : Writable t) : Writable s := by
  induction h with
  | blob hb =>
    rename_i p q b c
    cases b with
    | longInt m => exact List.cons_ne_nil _ _
    | dbRef =>
      cases c with
      | dbRef => exact ht
      | _ => exact absurd rfl hb.2.1
    | _ =>
      obtain ⟨rfl, -⟩ := hb
      exact ht
  | pair _ _ ihh iht => exact ⟨ihh ht.1, iht ht.2⟩
  | appl _ ih => exact fun i => ih i (ht i)
  | _ => trivial

/-- Only the variables that are seen matter. -/
theorem Corr.restrict (h : Corr R L s t) (vars final : List Addr) (hseen : seen s vars <+: final) :
    Corr (fun v w => v ∈ final ∧ R v w) L s t := by
  induction h generalizing vars with
  | var hv =>
    refine .var ⟨hseen.subset ?_, hv⟩
    rw [Tries.seen]
    split_ifs with hmem
    · exact hmem
    · exact List.mem_append_right _ List.mem_cons_self
  | int n => exact .int n
  | atom a => exact .atom a
  | blob hb => exact .blob hb
  | pair _ _ ihh iht => exact .pair (ihh vars ((seen_starts _ _).trans hseen)) (iht _ hseen)
  | appl _ ih =>
    rename_i p q f as bs hargs
    refine .appl fun i => ?_
    obtain ⟨vars', hstarts⟩ :=
      foldl_starts_mem (fun i => seen_starts (as i)) (List.mem_finRange i) vars
    exact ih i vars' (hstarts.trans hseen)

-- ---------------------------------------------------------------------------
-- Words of variants
-- ---------------------------------------------------------------------------

/-- Corresponding variables are at the same places. -/
theorem mem_iff_of_forall₂ {vars vars' : List Addr} (hR : OneToOne R) (h : List.Forall₂ R vars vars') {v w : Addr}
    (hv : R v w) : v ∈ vars ↔ w ∈ vars' := by
  induction h with
  | nil => simp
  | cons hhead _ ih =>
    rw [List.mem_cons, List.mem_cons, ih]
    have hiff := Iff.intro (fun h : v = _ => hR.right (h ▸ hv) hhead) fun h : w = _ => hR.left (h ▸ hv) hhead
    rw [hiff]

theorem idxOf_eq_of_forall₂ {vars vars' : List Addr} (hR : OneToOne R) (h : List.Forall₂ R vars vars') {v w : Addr}
    (hv : R v w) : vars.idxOf v = vars'.idxOf w := by
  induction h with
  | nil => rfl
  | cons hhead _ ih =>
    rename_i x y vars vars' _
    rw [List.idxOf_cons, List.idxOf_cons, ih]
    by_cases hx : x = v
    · subst hx
      simp [hR.right hv hhead]
    · have hy : y ≠ w := by
        rintro rfl
        exact hx (hR.left hhead hv)
      rw [beq_eq_false_iff_ne.mpr hx, beq_eq_false_iff_ne.mpr hy]

theorem Corr.seen (h : Corr R L s t) (hR : OneToOne R) {vars vars' : List Addr} (hvars : List.Forall₂ R vars vars') :
    List.Forall₂ R (seen s vars) (seen t vars') := by
  induction h generalizing vars vars' with
  | var hv =>
    have hmem := mem_iff_of_forall₂ hR hvars hv
    rw [Tries.seen, Tries.seen]
    split_ifs with h1 h2 h2
    · exact hvars
    · exact absurd (hmem.mp h1) h2
    · exact absurd (hmem.mpr h2) h1
    · exact List.rel_append hvars (.cons hv .nil)
  | pair _ _ ihh iht => exact iht (ihh hvars)
  | appl _ ih =>
    rename_i p q f as bs hargs
    rw [Tries.seen, Tries.seen]
    generalize List.finRange f.arityOfFE = is
    induction is generalizing vars vars' with
    | nil => exact hvars
    | cons i is ihis => exact ihis (ih i hvars)
  | _ => exact hvars

theorem blobWords_eq {p q : Addr} {b c : Blob} (h : SameBlob SameBox p b q c) : blobWords p b = blobWords q c := by
  cases b with
  | longInt m =>
    cases c with
    | longInt n => exact congrArg (fun p => [boxWord p]) h
    | _ => exact absurd rfl (h.2.2 m)
  | dbRef =>
    cases c with
    | dbRef => rfl
    | _ => exact absurd rfl h.2.1
  | _ =>
    obtain ⟨rfl, -⟩ := h
    rfl

theorem Corr.wordsBy_eq (h : Corr R SameBox s t) {sym : Symbols} {idx idx' : Addr → ℕ}
    (hidx : ∀ v w, R v w → idx v = idx' w) (mode : Mode) : wordsBy sym idx mode s = wordsBy sym idx' mode t := by
  induction h generalizing mode with
  | var hv => rw [wordsBy, wordsBy, hidx _ _ hv]
  | int n => rfl
  | atom a => rfl
  | blob hb => rw [wordsBy, wordsBy, blobWords_eq hb]
  | pair _ _ ihh iht => rw [wordsBy, wordsBy, ihh, iht]
  | appl _ ih =>
    rw [wordsBy, wordsBy]
    split_ifs
    · rw [ih, ih]
    · rw [ih, ih]
    · rw [funext fun i => ih i .entry]

theorem BoxVariant.words_eq (h : BoxVariant s t) (sym : Symbols) : words sym s = words sym t := by
  obtain ⟨R, hR, hcorr⟩ := h
  have hseen := hcorr.seen hR .nil
  exact hcorr.wordsBy_eq (fun v w hv => idxOf_eq_of_forall₂ hR hseen hv) .entry

end Tries

end Yap
