-- SUMMARY: What one step of unification does to two words and one turn of the loop to its state: specifications by cases, the pairs of cells that remain, and the memory behind the links.
import Yap.Compare.Cells
import Yap.Heap.Unfold
import Yap.Unify.Code

/-!
# Steps and turns

A step on two words is described by what it says about their values. A turn either
binds a variable or moves: it returns to a block, goes to the next pair of cells,
or descends. Moves do not change the memory behind the links.
-/

namespace Yap

-- ---------------------------------------------------------------------------
-- Two words
-- ---------------------------------------------------------------------------

variable {hp : Heap} {vars : Addr → Addr → UnifyStep} {boxes : Addr → Addr → Blob → Blob → Bool}

/-- Boxes at different places are taken to be equal when they are identical. -/
def BoxesExact (hp : Heap) (boxes : Addr → Addr → Blob → Blob → Bool) (d0 d1 : Nonvar) : Prop :=
  ∀ p q b c, d0 = .appl p → d1 = .appl q → p ≠ q → hp.functorAt p = .blob b →
    hp.functorAt q = .blob c → (boxes p q b c = true ↔ (Term.blob p b).Identical (.blob q c))

/-- What a step says about the values of two words. -/
inductive WordsSpec (hp : Heap) (c0 c1 : Cell) : UnifyStep → Prop where
  | fail : (∀ σ σ', (c0.value hp σ).key ≠ (c1.value hp σ').key) → WordsSpec hp c0 c1 .fail
  | next : (∀ σ, c0.value hp σ = c1.value hp σ) → WordsSpec hp c0 c1 .next
  | bind {a : Addr} {c : Cell} : c0 ≠ c1 → (c0 = .ref a ∧ c1 = c) ∨ (c0 = c ∧ c1 = .ref a) →
      WordsSpec hp c0 c1 (.bind a c)
  | visit {d0 d1 : Nonvar} {l r : Addr} {n : ℕ} : c0 = .nonvar d0 → c1 = .nonvar d1 →
      d0.block hp = (l, n) → d1.block hp = (r, n) →
      (∀ σ, (d0.value hp σ).key = (d1.value hp σ).key) → WordsSpec hp c0 c1 (.visit l r n d1)

/-- The boxes at two words hold one value. -/
def SameBox (hp : Heap) (d0 d1 : Nonvar) : Prop :=
  ∃ p q b c, d0 = .appl p ∧ d1 = .appl q ∧ hp.functorAt p = .blob b ∧ hp.functorAt q = .blob c ∧
    (Term.blob p b).Identical (.blob q c)

theorem erase_erase_blob (p : Addr) (b : Blob) : (Term.blob p b).erase.erase = (Term.blob p b).erase := by
  cases b <;> rfl

theorem args_erase_blob (p : Addr) (b : Blob) : (Term.blob p b).erase.args = [] := by
  cases b <;> rfl

/-- Words with one label are equal, hold one box, or have argument cells to compare. -/
theorem Nonvar.of_key_eq {d0 d1 : Nonvar} {σ σ' : Addr → Term}
    (h : (d0.value hp σ).key = (d1.value hp σ').key) :
    d0 = d1 ∨ SameBox hp d0 d1 ∨ (∃ p q, d0 = .pair p ∧ d1 = .pair q) ∨
      ∃ p q f, d0 = .appl p ∧ d1 = .appl q ∧ hp.functorAt p = .functor f ∧
        hp.functorAt q = .functor f := by
  have hlen := (Term.sameHead_of_key_eq h).length_args
  have hleaf : (d0.value hp σ).args = [] → (d0.value hp σ).erase = (d1.value hp σ').erase := by
    intro hargs
    refine (Term.sameHead_of_key_eq h).erase_eq ?_
    rw [hargs, List.length_eq_zero_iff.mp (hlen.symm.trans (by rw [hargs]; rfl))]
  cases d0 with
  | int m =>
      have herase := hleaf rfl
      cases d1 with
      | int n => exact .inl (by rw [Term.int.inj herase])
      | atom | pair => cases herase
      | appl q =>
          cases hq : hp.functorAt q with
          | functor g => rw [value_functor hq] at herase; cases herase
          | blob c => rw [value_blob hq] at herase; cases c <;> cases herase
  | atom a =>
      have herase := hleaf rfl
      cases d1 with
      | atom b => exact .inl (by rw [Term.atom.inj herase])
      | int | pair => cases herase
      | appl q =>
          cases hq : hp.functorAt q with
          | functor g => rw [value_functor hq] at herase; cases herase
          | blob c => rw [value_blob hq] at herase; cases c <;> cases herase
  | pair p =>
      cases d1 with
      | pair q => exact .inr (.inr (.inl ⟨p, q, rfl, rfl⟩))
      | int | atom => cases hlen
      | appl q =>
          cases hq : hp.functorAt q with
          | functor g =>
              rw [value_functor hq] at h
              exact absurd (functorKey_inj.mp h.symm) g.not_list
          | blob c =>
              rw [value_blob hq, args_erase_blob] at hlen
              cases hlen
  | appl p =>
      cases hf : hp.functorAt p with
      | functor f =>
          rw [value_functor hf] at h hlen
          rw [Term.args, List.length_ofFn] at hlen
          have hpos := f.arity_pos
          cases d1 with
          | int | atom => exact absurd hlen hpos.ne'
          | pair q => exact absurd (functorKey_inj.mp h) f.not_list
          | appl q =>
              cases hq : hp.functorAt q with
              | functor g =>
                  rw [value_functor hq] at h
                  obtain ⟨hname, harity⟩ := functorKey_inj.mp h
                  obtain rfl : f = g := Functor.ext hname harity
                  exact .inr (.inr (.inr ⟨p, q, f, rfl, rfl, hf, hq⟩))
              | blob c =>
                  rw [value_blob hq, args_erase_blob] at hlen
                  exact absurd hlen hpos.ne'
      | blob b =>
          have herase := hleaf (by rw [value_blob hf, args_erase_blob])
          rw [value_blob hf, erase_erase_blob] at herase
          cases d1 with
          | int | atom | pair => cases b <;> cases herase
          | appl q =>
              cases hq : hp.functorAt q with
              | functor g => rw [value_functor hq] at herase; cases b <;> cases herase
              | blob c =>
                  rw [value_blob hq, erase_erase_blob] at herase
                  exact .inr (.inl ⟨p, q, b, c, rfl, rfl, hf, hq, herase⟩)

theorem unifyNonvar_spec {d0 d1 : Nonvar} (hbox : BoxesExact hp boxes d0 d1) :
    WordsSpec hp (.nonvar d0) (.nonvar d1) (unifyNonvar hp boxes d0 d1) := by
  unfold unifyNonvar
  split
  case isTrue heq => exact .next fun σ => by rw [heq]
  case isFalse hne =>
    have hfail : ¬ SameBox hp d0 d1 → (∀ p q, d0 = .pair p → d1 ≠ .pair q) →
        (∀ p q f, d0 = .appl p → d1 = .appl q → hp.functorAt p = .functor f →
          hp.functorAt q ≠ .functor f) → WordsSpec hp (.nonvar d0) (.nonvar d1) .fail := by
      refine fun hbox hpair happl => .fail fun σ σ' hkey => ?_
      rcases Nonvar.of_key_eq hkey with heq | hsame | ⟨p, q, h0, h1⟩ | ⟨p, q, f, h0, h1, hf, hq⟩
      · exact hne heq
      · exact hbox hsame
      · exact hpair p q h0 h1
      · exact happl p q f h0 h1 hf hq
    split
    case h_1 p q => exact .visit rfl rfl rfl rfl fun σ => rfl
    case h_2 p q =>
      split
      case h_1 f g hf hg =>
        split
        case isTrue hfg =>
          refine hfail ?_ (by rintro _ _ ⟨⟩) ?_
          · rintro ⟨p', q', b, c, h0, h1, hb, -⟩
            cases h0
            cases hf.symm.trans hb
          · intro p' q' f' h0 h1 hf' hq'
            cases h0; cases h1
            exact hfg (FunctorCell.functor.inj ((hf.symm.trans hf').trans (hq'.symm.trans hg)))
        case isFalse hfg =>
          obtain rfl := not_not.mp hfg
          refine .visit rfl rfl (by rw [Nonvar.block, hf]) (by rw [Nonvar.block, hg]) fun σ => ?_
          rw [Nonvar.value_functor hf, Nonvar.value_functor hg]
          rfl
      case h_2 b c hb hc =>
        have hsame := hbox p q b c rfl rfl (fun hpq => hne (by rw [hpq])) hb hc
        split
        case isTrue htrue =>
          refine .next fun σ => ?_
          rw [Cell.value, Cell.value, Nonvar.value_blob hb, Nonvar.value_blob hc]
          exact hsame.mp htrue
        case isFalse hfalse =>
          refine hfail ?_ (by rintro _ _ ⟨⟩) ?_
          · rintro ⟨p', q', b', c', h0, h1, hb', hc', hid⟩
            cases h0; cases h1
            obtain rfl := FunctorCell.blob.inj (hb.symm.trans hb')
            obtain rfl := FunctorCell.blob.inj (hc.symm.trans hc')
            exact hfalse (hsame.mpr hid)
          · intro p' q' f' h0 h1 hf' hq'
            cases h0
            cases hb.symm.trans hf'
      case h_3 hno1 hno2 =>
        refine hfail ?_ (by rintro _ _ ⟨⟩) ?_
        · rintro ⟨p', q', b', c', h0, h1, hb', hc', hid⟩
          cases h0; cases h1
          exact hno2 b' c' hb' hc'
        · intro p' q' f' h0 h1 hf' hq'
          cases h0; cases h1
          exact hno1 f' f' hf' hq'
    case h_3 hno1 hno2 =>
      refine hfail ?_ (fun p q h0 h1 => hno1 p q h0 h1) fun p q f h0 h1 _ _ => hno2 p q h0 h1
      rintro ⟨p', q', b', c', h0, h1, hb', hc', hid⟩
      exact hno2 p' q' h0 h1

theorem unifyWords_spec (hvars : BindsVars vars) {c0 c1 : Cell}
    (hbox : ∀ d0 d1, c0 = .nonvar d0 → c1 = .nonvar d1 → BoxesExact hp boxes d0 d1) :
    WordsSpec hp c0 c1 (unifyWords hp vars boxes c0 c1) := by
  cases c0 with
  | ref a =>
      cases c1 with
      | ref b =>
          by_cases hab : a = b
          · subst hab
            rw [unifyWords, hvars.self]
            exact .next fun _ => rfl
          · have hne : Cell.ref a ≠ .ref b := by simpa using hab
            rcases hvars.bind a b hab with hbind | hbind <;> rw [unifyWords, hbind]
            · exact .bind hne (.inl ⟨rfl, rfl⟩)
            · exact .bind hne (.inr ⟨rfl, rfl⟩)
      | nonvar d1 => exact .bind (by rintro ⟨⟩) (.inl ⟨rfl, rfl⟩)
  | nonvar d0 =>
      cases c1 with
      | ref b => exact .bind (by rintro ⟨⟩) (.inr ⟨rfl, rfl⟩)
      | nonvar d1 => exact unifyNonvar_spec (hbox d0 d1 rfl rfl)

theorem unifyWords_self (hvars : BindsVars vars) (c : Cell) : unifyWords hp vars boxes c c = .next := by
  cases c with
  | ref a => exact hvars.self a
  | nonvar d => simp [unifyWords, unifyNonvar]

/-- A variable beside another word is bound, or the other variable is. -/
theorem unifyWords_ref (hvars : BindsVars vars) {a : Addr} {c : Cell} (h : c ≠ .ref a) :
    (∃ b d, unifyWords hp vars boxes (.ref a) c = .bind b d) ∧
      ∃ b d, unifyWords hp vars boxes c (.ref a) = .bind b d := by
  cases c with
  | nonvar d => exact ⟨⟨_, _, rfl⟩, ⟨_, _, rfl⟩⟩
  | ref b =>
      have hab : a ≠ b := fun hab => h (by rw [hab])
      constructor
      · rcases hvars.bind a b hab with hbind | hbind <;> exact ⟨_, _, hbind⟩
      · rcases hvars.bind b a hab.symm with hbind | hbind <;> exact ⟨_, _, hbind⟩

theorem gmpTcmpBigBig_eq_zero {b c : BigNum} : gmpTcmpBigBig b c = 0 ↔ b = c := by
  rw [← signOf.eq_eq, signOf_gmpTcmpBigBig]
  constructor
  · intro h
    have hkey : b.key = c.key := Std.LawfulEqCmp.eq_of_compare h
    rcases b with ⟨b, hb⟩ | ⟨b, hb⟩ <;> rcases c with ⟨c, hc⟩ | ⟨c, hc⟩ <;>
      simp_all [BigNum.key]
  · rintro rfl
    exact Key.cmp_self _

/-- Among arguments the boxes of one kind are compared by their contents. -/
theorem boxesExact_unifyExtension (d0 d1 : Nonvar) : BoxesExact hp unifyExtension d0 d1 := by
  intro p q b c _ _ _ _ _
  cases b <;> cases c <;>
    simp [unifyExtension, Term.Identical, Term.erase, strcmp_eq_zero, gmpTcmpBigBig_eq_zero]

theorem unifyArgs_spec (hp : Heap) (s : Store) (x y : Addr) :
    WordsSpec hp (s.deref (.ref x)) (s.deref (.ref y)) (unifyArgs hp s x y) :=
  unifyWords_spec bindsVars_unifyGlobalCells fun d0 d1 _ _ => boxesExact_unifyExtension d0 d1

end Yap
