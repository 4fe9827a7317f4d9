-- SUMMARY: The entries of answers: they tell where an answer ends, so that no answer goes on where another one ends.
import Yap.Tabling.Insertions
import Yap.Tabling.Loop

/-!
# The entries of answers

The stack of the search is read as a list of needs: a term, or the rest of a list. The entries
that the search inserts satisfy them one after the other, and the entries alone decide how.
-/

namespace Yap.Tabling

-- ---------------------------------------------------------------------------
-- Needs
-- ---------------------------------------------------------------------------

inductive Need where
  | term
  | more

/-- The functors of boxes that tries know. -/
def IsExtension (f : Word) : Prop :=
  f = Boxes.functorDouble ∨ f = Tags.functorLongInt ∨ f = Boxes.functorBigInt ∨ f = Boxes.functorString

/-- The entries satisfy the needs. -/
inductive Reads (words : TrieWords) : List Need → List Word → Prop
  | done : Reads words [] []
  | atomic {w ns es} : w.toNat % 8 = 0 ∨ w.toNat % 8 = 1 → Reads words ns es → Reads words (.term :: ns) (w :: es)
  | extension {f contents ns es} : IsExtension f → Reads words ns es →
      Reads words (.term :: ns) (Tags.absAppl f :: contents :: Tags.absAppl f :: es)
  | appl {f w ns es} : words.functor f = some w → Reads words (List.replicate f.arityOfFE .term ++ ns) es →
      Reads words (.term :: ns) (Tags.absAppl w :: es)
  | single {ns es} : Reads words (.term :: ns) es →
      Reads words (.term :: ns) (compactPairInit :: compactPairEndList :: es)
  | pair {ns es} : Reads words (.term :: .more :: ns) es → Reads words (.term :: ns) (compactPairInit :: es)
  | next {ns es} : Reads words (.term :: .more :: ns) es → Reads words (.more :: ns) es
  | endList {ns es} : Reads words (.term :: ns) es → Reads words (.more :: ns) (compactPairEndList :: es)
  | endTerm {ns es} : Reads words (.term :: ns) es → Reads words (.more :: ns) (compactPairEndTerm :: es)

section

variable {words : TrieWords}

theorem absAppl_low {p : Word} (hp : p.toNat % 8 = 0) : (Tags.absAppl p).toNat % 8 = 4 := by
  have hfour : (4 : Word).toNat = 4 := rfl
  rw [Tags.absAppl, Tags.applBits, BitVec.toNat_add, hfour]
  omega

theorem absAppl_inj {p q : Word} (h : Tags.absAppl p = Tags.absAppl q) : p = q := add_right_cancel h

theorem IsExtension.low {f : Word} (h : IsExtension f) : f.toNat % 8 = 0 := by
  rcases h with rfl | rfl | rfl | rfl <;> decide

theorem IsExtension.ne_functor {f : Word} (h : IsExtension f) (g : Functor) : words.functor g ≠ some f := by
  have hle : f.toNat ≤ Boxes.functorString.toNat := by
    rcases h with rfl | rfl | rfl | rfl <;> decide
  intro he
  exact absurd (words.functor_special g f he) hle.not_gt

/-- The first entry of a term does not end a list. -/
theorem Reads.head {ns : List Need} {es : List Word} (h : Reads words (.term :: ns) es) :
    ∃ w rest, es = w :: rest ∧ w ≠ compactPairEndList ∧ w ≠ compactPairEndTerm := by
  have hlow : ∀ w : Word, w.toNat % 8 ≠ 2 → w ≠ compactPairEndList ∧ w ≠ compactPairEndTerm := fun w hw => by
    refine ⟨?_, ?_⟩
    · rintro rfl
      exact hw (by decide)
    · rintro rfl
      exact hw (by decide)
  cases h with
  | @atomic w _ es hw _ => exact ⟨w, es, rfl, hlow w (by omega)⟩
  | @extension f contents _ es hf _ => exact ⟨_, _, rfl, hlow _ (by rw [absAppl_low hf.low]; decide)⟩
  | appl hf _ => exact ⟨_, _, rfl, hlow _ (by rw [absAppl_low (words.functor_low _ _ hf)]; decide)⟩
  | single _ => exact ⟨_, _, rfl, by decide, by decide⟩
  | pair _ => exact ⟨_, _, rfl, by decide, by decide⟩

theorem Reads.not_endList {ns : List Need} {es : List Word} :
    ¬ Reads words (.term :: ns) (compactPairEndList :: es) := fun h => by
  obtain ⟨w, rest, heq, hne, _⟩ := h.head
  exact hne (List.cons.inj heq).1.symm

theorem Reads.not_endTerm {ns : List Need} {es : List Word} :
    ¬ Reads words (.term :: ns) (compactPairEndTerm :: es) := fun h => by
  obtain ⟨w, rest, heq, _, hne⟩ := h.head
  exact hne (List.cons.inj heq).1.symm

theorem compactPairInit_low : compactPairInit.toNat % 8 = 2 := by decide

theorem Reads.of_atomic {ns : List Need} {w : Word} {es : List Word} (hw : w.toNat % 8 = 0 ∨ w.toNat % 8 = 1)
    (h : Reads words (.term :: ns) (w :: es)) : Reads words ns es := by
  cases h with
  | atomic _ h => exact h
  | extension hf _ => rw [absAppl_low hf.low] at hw; omega
  | appl hf _ => rw [absAppl_low (words.functor_low _ _ hf)] at hw; omega
  | single _ => rw [compactPairInit_low] at hw; omega
  | pair _ => rw [compactPairInit_low] at hw; omega

theorem Reads.of_extension {ns : List Need} {f : Word} {es : List Word} (hf : IsExtension f)
    (h : Reads words (.term :: ns) (Tags.absAppl f :: es)) :
    ∃ contents es', es = contents :: Tags.absAppl f :: es' ∧ Reads words ns es' := by
  have hlow := absAppl_low hf.low
  generalize hw : Tags.absAppl f = w at h
  cases h with
  | atomic hw' _ => rw [← hw, hlow] at hw'; omega
  | extension _ h => exact ⟨_, _, rfl, h⟩
  | appl hg _ => exact absurd (absAppl_inj hw ▸ hg) (hf.ne_functor _)
  | single _ => rw [hw, compactPairInit_low] at hlow; omega
  | pair _ => rw [hw, compactPairInit_low] at hlow; omega

theorem Reads.of_functor {ns : List Need} {f : Functor} {p : Word} {es : List Word} (hf : words.functor f = some p)
    (h : Reads words (.term :: ns) (Tags.absAppl p :: es)) :
    Reads words (List.replicate f.arityOfFE .term ++ ns) es := by
  have hlow := absAppl_low (words.functor_low f p hf)
  generalize hw : Tags.absAppl p = w at h
  cases h with
  | atomic hw' _ => rw [← hw, hlow] at hw'; omega
  | extension hp _ => exact absurd ((absAppl_inj hw) ▸ hf) (hp.ne_functor f)
  | appl hg h => exact words.functor_inj _ _ _ (absAppl_inj hw ▸ hf) hg ▸ h
  | single _ => rw [hw, compactPairInit_low] at hlow; omega
  | pair _ => rw [hw, compactPairInit_low] at hlow; omega

theorem Reads.of_pair {ns : List Need} {es : List Word} (h : Reads words (.term :: ns) (compactPairInit :: es)) :
    (∃ es', es = compactPairEndList :: es' ∧ Reads words (.term :: ns) es') ∨
      Reads words (.term :: .more :: ns) es := by
  have hlow := compactPairInit_low
  generalize hw : compactPairInit = w at h
  cases h with
  | atomic hw' _ => rw [← hw, hlow] at hw'; omega
  | extension hf _ => rw [hw, absAppl_low hf.low] at hlow; omega
  | appl hf _ => rw [hw, absAppl_low (words.functor_low _ _ hf)] at hlow; omega
  | single h => exact .inl ⟨_, rfl, h⟩
  | pair h => exact .inr h

theorem Reads.of_more {ns : List Need} {es : List Word} (h : Reads words (.more :: ns) es) :
    Reads words (.term :: .more :: ns) es ∨
      (∃ es', es = compactPairEndList :: es' ∧ Reads words (.term :: ns) es') ∨
      ∃ es', es = compactPairEndTerm :: es' ∧ Reads words (.term :: ns) es' := by
  cases h with
  | next h => exact .inl h
  | endList h => exact .inr (.inl ⟨_, rfl, h⟩)
  | endTerm h => exact .inr (.inr ⟨_, rfl, h⟩)

/-- Entries that satisfy the needs are no part of longer ones that do. -/
theorem Reads.unique {ns : List Need} {es rest : List Word} (h : Reads words ns es) (h' : Reads words ns (es ++ rest)) :
    rest = [] := by
  induction h with
  | done =>
    cases h'
    rfl
  | atomic hw _ ih => exact ih (h'.of_atomic hw)
  | @extension f contents ns es hf _ ih =>
    obtain ⟨contents', es', heq, h'⟩ := h'.of_extension hf
    have hes : es ++ rest = es' := (List.cons.inj (List.cons.inj heq).2).2
    exact ih (hes ▸ h')
  | appl hf _ ih => exact ih (h'.of_functor hf)
  | @single ns es h ih =>
    rcases h'.of_pair with ⟨es', heq, h'⟩ | h'
    · have hes : es ++ rest = es' := (List.cons.inj heq).2
      exact ih (hes ▸ h')
    · exact absurd h' Reads.not_endList
  | @pair ns es h ih =>
    rcases h'.of_pair with ⟨es', heq, _⟩ | h'
    · obtain ⟨w, es'', rfl, hne, _⟩ := h.head
      exact absurd (List.cons.inj heq).1 hne
    · exact ih h'
  | @next ns es h ih =>
    obtain ⟨w, es'', rfl, hne, hne'⟩ := h.head
    rcases h'.of_more with h' | ⟨es', heq, _⟩ | ⟨es', heq, _⟩
    · exact ih h'
    · exact absurd (List.cons.inj heq).1 hne
    · exact absurd (List.cons.inj heq).1 hne'
  | @endList ns es h ih =>
    rcases h'.of_more with h' | ⟨es', heq, h'⟩ | ⟨es', heq, _⟩
    · exact absurd h' Reads.not_endList
    · have hes : es ++ rest = es' := (List.cons.inj heq).2
      exact ih (hes ▸ h')
    · exact absurd (List.cons.inj heq).1 (by decide)
  | @endTerm ns es h ih =>
    rcases h'.of_more with h' | ⟨es', heq, _⟩ | ⟨es', heq, h'⟩
    · exact absurd h' Reads.not_endTerm
    · exact absurd (List.cons.inj heq).1 (by decide)
    · have hes : es ++ rest = es' := (List.cons.inj heq).2
      exact ih (hes ▸ h')

end

-- ---------------------------------------------------------------------------
-- What the search inserts
-- ---------------------------------------------------------------------------

/-- The needs of a stack. A mark stands above the tail of its pair. -/
def needs : List Item → List Need
  | [] => []
  | [.pairMark] => [.more]
  | .pairMark :: _ :: items => .more :: needs items
  | .term _ :: items => .term :: needs items
  | .rational _ :: items => .term :: needs items

theorem needs_cons {item : Item} (h : item ≠ .pairMark) (items : List Item) :
    needs (item :: items) = .term :: needs items := by
  cases item with
  | term t => rw [needs]
  | pairMark => exact absurd rfl h
  | rational node => rw [needs]

theorem needs_append {items : List Item} (h : ∀ item ∈ items, item ≠ .pairMark) (items' : List Item) :
    needs (items ++ items') = List.replicate items.length .term ++ needs items' := by
  induction items with
  | nil => rfl
  | cons item items ih =>
    rw [List.cons_append, needs_cons (h item (List.mem_cons_self ..)), ih fun i hi => h i (List.mem_cons_of_mem _ hi)]
    rfl

theorem subterm_ne_pairMark (st : Search) (t : Term) (check : Bool) : st.subterm t check ≠ .pairMark := by
  rw [Search.subterm]
  split <;> exact Item.noConfusion

section

variable {words : TrieWords} {isRef : Addr → Bool} {trieDoVar : ℕ}

/-- The entries are inserted between two states of the search. -/
def Inserts (trieDoVar : ℕ) (st : Search) (entries : Entries) (st' : Search) : Prop :=
  insertEntries trieDoVar st.sgFr st.currentNode entries = some (st'.sgFr, st'.currentNode)

theorem insertEntries_append (sgFr : SgFrame) (a : ℕ) (entries entries' : Entries) :
    insertEntries trieDoVar sgFr a (entries ++ entries') =
      (insertEntries trieDoVar sgFr a entries).bind fun out => insertEntries trieDoVar out.1 out.2 entries' := by
  induction entries generalizing sgFr a with
  | nil => rfl
  | cons item entries ih =>
    rw [List.cons_append, insertEntries, insertEntries, Option.bind_assoc]
    exact congrArg _ (funext fun out => ih out.1 out.2)

theorem Inserts.trans {st st' st'' : Search} {entries entries' : Entries} (h : Inserts trieDoVar st entries st')
    (h' : Inserts trieDoVar st' entries' st'') : Inserts trieDoVar st (entries ++ entries') st'' := by
  rw [Inserts, insertEntries_append, h]
  exact h'

/-- What a part of the search does with entries and the stack: the new entries satisfy the needs
    of `items`, up to those of the new stack. -/
def Satisfies (words : TrieWords) (trieDoVar : ℕ) (st : Search) (needs₀ : List Need) (st' : Search) : Prop :=
  ∃ entries, Inserts trieDoVar st entries st' ∧ ∀ ns es, Reads words (needs st'.stackTerms ++ ns) es →
    Reads words (needs₀ ++ ns) (entries.map Prod.fst ++ es)

theorem checkInsertEntry_inserts {st st' : Search} {t : Word} {fam : Family}
    (h : st.checkInsertEntry trieDoVar t fam = some st') :
    Inserts trieDoVar st [(t, fam)] st' ∧ st' = { st with sgFr := st'.sgFr, currentNode := st'.currentNode } := by
  obtain ⟨out, hout, rfl⟩ := Option.map_eq_some_iff.mp h
  refine ⟨?_, rfl⟩
  rw [Inserts, insertEntries, hout]
  rfl

theorem makeTableVarTerm_low (index : ℕ) : (makeTableVarTerm index).toNat % 8 = 0 := by
  rw [makeTableVarTerm, BitVec.toNat_shiftLeft, Nat.shiftLeft_eq]
  omega

theorem taggedWord_low (n : BitVec 58) : (Tags.taggedWord n).toNat % 8 = 1 := by
  have hchk := Tags.isIntTerm_taggedWord n
  rw [Tags.isIntTerm, Tags.chkTag, beq_iff_eq] at hchk
  have hseven : (Tags.taggedWord n) &&& 7 = 1 := by
    have hbits : (7 : Word) = Tags.tagBits &&& 7 := by decide
    rw [hbits, ← BitVec.and_assoc, hchk]
    decide
  have hnat := congrArg BitVec.toNat hseven
  rw [BitVec.toNat_and] at hnat
  have hmod := Nat.and_two_pow_sub_one_eq_mod (Tags.taggedWord n).toNat 3
  exact hmod.symm.trans hnat

/-- One entry that stands for a term. -/
theorem satisfies_atomic {st st₁ st' : Search} {t : Word} {fam : Family} (hlow : t.toNat % 8 = 0 ∨ t.toNat % 8 = 1)
    (h : st.checkInsertEntry trieDoVar t fam = some st₁) (hsgFr : st'.sgFr = st₁.sgFr)
    (hnode : st'.currentNode = st₁.currentNode) (hstack : st'.stackTerms = st₁.stackTerms) :
    Satisfies words trieDoVar st (.term :: needs st.stackTerms) st' := by
  obtain ⟨hins, heq⟩ := checkInsertEntry_inserts h
  refine ⟨[(t, fam)], ?_, fun ns es hreads => .atomic hlow ?_⟩
  · rw [Inserts, hsgFr, hnode]
    exact hins
  · rw [hstack, heq] at hreads
    exact hreads

theorem searchAtomic_satisfies {st st' : Search} {t : Term} (h : searchAtomic words trieDoVar st t = some st') :
    Satisfies words trieDoVar st (.term :: needs st.stackTerms) st' := by
  cases t with
  | var v =>
    rw [searchAtomic] at h
    split at h
    · obtain ⟨st₁, h₁, rfl⟩ := Option.map_eq_some_iff.mp h
      exact satisfies_atomic (.inl (makeTableVarTerm_low _)) h₁ rfl rfl rfl
    · split at h
      · cases h
      · obtain ⟨st₁, h₁, rfl⟩ := Option.map_eq_some_iff.mp h
        exact satisfies_atomic (.inl (makeTableVarTerm_low _)) h₁ rfl rfl rfl
  | atom a =>
    obtain ⟨st₁, h₁, rfl⟩ := Option.map_eq_some_iff.mp h
    exact satisfies_atomic (.inr (words.atom_low a)) h₁ rfl rfl rfl
  | int n =>
    obtain ⟨st₁, h₁, rfl⟩ := Option.map_eq_some_iff.mp h
    exact satisfies_atomic (.inr (taggedWord_low n)) h₁ rfl rfl rfl
  | pair p head tail => cases h
  | appl p f args => cases h
  | blob p b => cases h

theorem searchExtension_satisfies {st st' : Search} {f contents : Word} {fam : Family} (hf : IsExtension f)
    (h : searchExtension trieDoVar st f contents fam = some st') :
    Satisfies words trieDoVar st (.term :: needs st.stackTerms) st' := by
  obtain ⟨st₁, h₁, h⟩ := Option.bind_eq_some_iff.mp h
  obtain ⟨st₂, h₂, h⟩ := Option.bind_eq_some_iff.mp h
  obtain ⟨st₃, h₃, rfl⟩ := Option.map_eq_some_iff.mp h
  obtain ⟨hins₁, heq₁⟩ := checkInsertEntry_inserts h₁
  obtain ⟨hins₂, heq₂⟩ := checkInsertEntry_inserts h₂
  obtain ⟨hins₃, heq₃⟩ := checkInsertEntry_inserts h₃
  refine ⟨_, (hins₁.trans hins₂).trans hins₃, fun ns es hreads => .extension hf ?_⟩
  have hstack : st₃.stackTerms = st.stackTerms := by rw [heq₃, heq₂, heq₁]
  exact hstack ▸ hreads

theorem searchBlob_satisfies {st st' : Search} {b : Blob} (h : searchBlob words trieDoVar st b = some st') :
    Satisfies words trieDoVar st (.term :: needs st.stackTerms) st' := by
  cases b with
  | dbRef => cases h
  | double x => exact searchExtension_satisfies (.inl rfl) h
  | longInt n => exact searchExtension_satisfies (.inr (.inl rfl)) h
  | bigInt b =>
    have hext := @searchExtension_satisfies words trieDoVar { st with opqs := st.opqs + 1 } st' Boxes.functorBigInt
      (words.heapStore st.opqs) .bigint
    exact hext (.inr (.inr (.inl rfl))) h
  | string s =>
    have hext := @searchExtension_satisfies words trieDoVar { st with opqs := st.opqs + 1 } st' Boxes.functorString
      (words.heapStore st.opqs) .bigint
    exact hext (.inr (.inr (.inr rfl))) h

/-- The cells of a pair: the end of a list, or the tail for later. -/
theorem searchPair_cases {st st' : Search} {p : Addr} {head tail : Term} {afterNil : Bool}
    (h : searchPair isRef trieDoVar st p head tail afterNil = some st') :
    (Inserts trieDoVar st [(compactPairEndList, .pair)] st' ∧
        needs st'.stackTerms = .term :: needs st.stackTerms) ∨
      (Inserts trieDoVar st [] st' ∧ needs st'.stackTerms = .term :: .more :: needs st.stackTerms) := by
  obtain ⟨st₁, h₁, rfl⟩ := Option.map_eq_some_iff.mp h
  have hhead := fun items => needs_cons (subterm_ne_pairMark st₁ head (isRef p || isPairTerm head)) items
  have hmore : ∀ (item : Item) (inPair : Bool), some { (st.push item).push .pairMark with inPair } = some st₁ →
      Inserts trieDoVar st [] (st₁.push (st₁.subterm head (isRef p || isPairTerm head))) ∧
        needs (st₁.push (st₁.subterm head (isRef p || isPairTerm head))).stackTerms =
          .term :: .more :: needs st.stackTerms := by
    intro item inPair he
    cases he
    exact ⟨rfl, hhead _⟩
  split at h₁
  next t hsub =>
    split at h₁
    · obtain ⟨st₂, h₂, rfl⟩ := Option.map_eq_some_iff.mp h₁
      obtain ⟨hins, heq⟩ := checkInsertEntry_inserts h₂
      refine .inl ⟨hins, (hhead _).trans ?_⟩
      rw [heq]
    · exact .inr (hmore _ _ h₁)
  next => exact .inr (hmore _ _ h₁)

/-- One round of the loop. -/
theorem searchStep_satisfies {st st' : Search} {item : Item}
    (h : searchStep words isRef trieDoVar st item = some st') :
    Satisfies words trieDoVar st (needs (item :: st.stackTerms)) st' := by
  have hendTerm : ∀ {item items}, item ≠ Item.pairMark → st.stackTerms = item :: items →
      st.checkInsertEntry trieDoVar compactPairEndTerm .null = some st' →
      Satisfies words trieDoVar st (.more :: needs items) st' := by
    intro item items hitem hstack h
    obtain ⟨hins, heq⟩ := checkInsertEntry_inserts h
    refine ⟨_, hins, fun ns es hreads => ?_⟩
    rw [heq, hstack, needs_cons hitem] at hreads
    exact .endTerm hreads
  cases item with
  | rational node => exact satisfies_atomic (.inl (words.node_low node)) h rfl rfl rfl
  | pairMark =>
    rw [searchStep] at h
    split at h
    next p head tail stack hstack =>
      rw [hstack]
      rcases searchPair_cases h with ⟨hins, hneeds⟩ | ⟨hins, hneeds⟩
      · refine ⟨_, hins, fun ns es hreads => ?_⟩
        rw [hneeds] at hreads
        exact .endList hreads
      · refine ⟨_, hins, fun ns es hreads => ?_⟩
        rw [hneeds] at hreads
        exact .next hreads
    next t stack hne hstack =>
      rw [hstack]
      exact hendTerm Item.noConfusion hstack h
    next node stack hstack =>
      rw [hstack]
      exact hendTerm Item.noConfusion hstack h
    next => cases h
  | term t =>
    cases t with
    | pair p head tail =>
      obtain ⟨st₁, h₁, h⟩ := Option.bind_eq_some_iff.mp h
      obtain ⟨hins₁, heq₁⟩ := checkInsertEntry_inserts h₁
      have hstack : st₁.stackTerms = st.stackTerms := by rw [heq₁]; rfl
      rw [← hstack]
      rcases searchPair_cases h with ⟨hins, hneeds⟩ | ⟨hins, hneeds⟩
      · refine ⟨_, hins₁.trans hins, fun ns es hreads => ?_⟩
        rw [hneeds] at hreads
        exact .single hreads
      · refine ⟨_, hins₁.trans hins, fun ns es hreads => ?_⟩
        rw [hneeds] at hreads
        exact .pair hreads
    | appl p f args =>
      obtain ⟨w, hw, h⟩ := Option.bind_eq_some_iff.mp h
      obtain ⟨st₁, h₁, rfl⟩ := Option.map_eq_some_iff.mp h
      obtain ⟨hins₁, heq₁⟩ := checkInsertEntry_inserts h₁
      have hstack : st₁.stackTerms = st.stackTerms := by rw [heq₁]; rfl
      refine ⟨_, hins₁, fun ns es hreads => .appl hw ?_⟩
      have hitems : ∀ item ∈ List.ofFn fun i => st₁.subterm (args i) (isRef (p + 1 + i) || isApplTerm (args i)),
          item ≠ .pairMark := by
        intro item hitem
        obtain ⟨i, rfl⟩ := List.mem_ofFn.mp hitem
        exact subterm_ne_pairMark _ _ _
      have hneeds := needs_append hitems st₁.stackTerms
      rw [List.length_ofFn, hstack] at hneeds
      simp only [hstack, hneeds, List.append_assoc] at hreads
      exact hreads
    | blob p b => exact searchBlob_satisfies h
    | var v =>
      rw [searchStep] at h
      exact searchAtomic_satisfies h
    | atom a =>
      rw [searchStep] at h
      exact searchAtomic_satisfies h
    | int n =>
      rw [searchStep] at h
      exact searchAtomic_satisfies h

theorem Satisfies.trans {st st' st'' : Search} {ns₀ : List Need} (h : Satisfies words trieDoVar st ns₀ st')
    (h' : Satisfies words trieDoVar st' (needs st'.stackTerms) st'') : Satisfies words trieDoVar st ns₀ st'' := by
  obtain ⟨entries, hins, hreads⟩ := h
  obtain ⟨entries', hins', hreads'⟩ := h'
  refine ⟨entries ++ entries', hins.trans hins', fun ns es hes => ?_⟩
  rw [List.map_append, List.append_assoc]
  exact hreads ns _ (hreads' ns es hes)

/-- The loop satisfies the needs of its stack and empties it. -/
theorem answerSearchLoop_satisfies {fuel : ℕ} {st st' : Search}
    (h : answerSearchLoop words isRef trieDoVar fuel st = some st') :
    Satisfies words trieDoVar st (needs st.stackTerms) st' ∧ st'.stackTerms = [] := by
  induction fuel generalizing st with
  | zero => cases h
  | succ fuel ih =>
    rw [answerSearchLoop] at h
    split at h
    next hstack =>
      cases h
      exact ⟨⟨[], rfl, fun ns es hreads => hreads⟩, hstack⟩
    next item stack hstack =>
      obtain ⟨st₁, h₁, h⟩ := Option.bind_eq_some_iff.mp h
      obtain ⟨hloop, hempty⟩ := ih h
      have hstep := searchStep_satisfies h₁
      rw [hstack]
      exact ⟨hstep.trans hloop, hempty⟩

theorem checkInsertEntry_stack {st st' : Search} {t : Word} {fam : Family}
    (h : st.checkInsertEntry trieDoVar t fam = some st') : st'.stackTerms = st.stackTerms := by
  obtain ⟨_, heq⟩ := checkInsertEntry_inserts h
  rw [heq]

theorem searchAtomic_stack {st st' : Search} {t : Term} (h : searchAtomic words trieDoVar st t = some st') :
    st'.stackTerms = st.stackTerms := by
  cases t with
  | var v =>
    rw [searchAtomic] at h
    split at h
    · obtain ⟨st₁, h₁, rfl⟩ := Option.map_eq_some_iff.mp h
      exact (checkInsertEntry_stack h₁ :)
    · split at h
      · cases h
      · obtain ⟨st₁, h₁, rfl⟩ := Option.map_eq_some_iff.mp h
        exact (checkInsertEntry_stack h₁ :)
  | atom a =>
    obtain ⟨st₁, h₁, rfl⟩ := Option.map_eq_some_iff.mp h
    exact (checkInsertEntry_stack h₁ :)
  | int n =>
    obtain ⟨st₁, h₁, rfl⟩ := Option.map_eq_some_iff.mp h
    exact (checkInsertEntry_stack h₁ :)
  | pair p head tail => cases h
  | appl p f args => cases h
  | blob p b => cases h

theorem answerSearchTermsLoop_satisfies {st st' : Search} {t : Term}
    (h : answerSearchTermsLoop words trieDoVar st t = some st') :
    Satisfies words trieDoVar st (.term :: needs st.stackTerms) st' ∧ st'.stackTerms = st.stackTerms := by
  rw [answerSearchTermsLoop] at h
  split at h
  · exact ⟨searchAtomic_satisfies h, searchAtomic_stack h⟩
  · have hsat := @satisfies_atomic words trieDoVar { st with vars := (words.globalTrie t st.vars).2 } st' st' _ .gterm
      (.inl (words.globalTrie_low t st.vars)) h rfl rfl rfl
    have hstack := @checkInsertEntry_stack trieDoVar { st with vars := (words.globalTrie t st.vars).2 } st' _ .gterm h
    exact ⟨hsat, hstack⟩

/-- The entries for one term of the substitution. -/
theorem searchSubs_reads {globalMode : Bool} {fuel : ℕ} {st st' : Search} {t : Term}
    (h : searchSubs words isRef trieDoVar globalMode fuel st t = some st') :
    ∃ entries, Inserts trieDoVar st entries st' ∧ ∀ ns es, Reads words ns es →
      Reads words (.term :: ns) (entries.map Prod.fst ++ es) := by
  have hdone : ∀ {st₀ : Search}, st₀.sgFr = st.sgFr → st₀.currentNode = st.currentNode →
      Satisfies words trieDoVar st₀ [.term] st' ∧ st'.stackTerms = [] →
      ∃ entries, Inserts trieDoVar st entries st' ∧ ∀ ns es, Reads words ns es →
        Reads words (.term :: ns) (entries.map Prod.fst ++ es) := by
    intro st₀ hsgFr hnode hsat
    obtain ⟨⟨entries, hins, hreads⟩, hempty⟩ := hsat
    rw [hempty] at hreads
    rw [Inserts, hsgFr, hnode] at hins
    exact ⟨entries, hins, hreads⟩
  rw [searchSubs] at h
  cases globalMode with
  | true => exact hdone rfl rfl (answerSearchTermsLoop_satisfies h)
  | false => exact hdone rfl rfl (answerSearchLoop_satisfies h)

/-- The entries of an answer satisfy the needs of as many terms. -/
theorem foldlM_searchSubs_reads {globalMode : Bool} {fuel : ℕ} {subs : List Term} {st st' : Search}
    (h : subs.foldlM (searchSubs words isRef trieDoVar globalMode fuel) st = some st') :
    ∃ entries, Inserts trieDoVar st entries st' ∧
      Reads words (List.replicate subs.length .term) (entries.map Prod.fst) := by
  induction subs generalizing st with
  | nil =>
    cases h
    exact ⟨[], rfl, .done⟩
  | cons t subs ih =>
    rw [List.foldlM_cons] at h
    obtain ⟨st₁, h₁, h⟩ := Option.bind_eq_some_iff.mp h
    obtain ⟨entries, hins, hreads⟩ := searchSubs_reads h₁
    obtain ⟨entries', hins', hreads'⟩ := ih h
    refine ⟨entries ++ entries', hins.trans hins', ?_⟩
    rw [List.map_append]
    exact hreads _ _ hreads'

-- ---------------------------------------------------------------------------
-- Sequences of answers
-- ---------------------------------------------------------------------------

variable {globalMode : Bool} {fuel subsArity : ℕ}

/-- One more answer: no branch goes on where another one ends. -/
theorem insertAnswer_trie {sgFr sgFr' : SgFrame × ℕ} {subs : Fin subsArity → Term} {A : Set (List Word)}
    (htrie : Trie trieDoVar sgFr.1 0 A) (hA : ∀ es ∈ A, Reads words (List.replicate subsArity .term) es)
    (h : insertAnswer words isRef trieDoVar globalMode fuel sgFr subs = some sgFr') :
    ∃ A', Trie trieDoVar sgFr'.1 0 A' ∧ ∀ es ∈ A', Reads words (List.replicate subsArity .term) es := by
  obtain ⟨st, hst, rfl⟩ := Option.map_eq_some_iff.mp h
  obtain ⟨entries, hins, hreads⟩ := foldlM_searchSubs_reads hst
  rw [List.length_ofFn] at hreads
  refine ⟨_, insertEntries_done htrie (fun rest hrest => hreads.unique (hA _ hrest)) hins, ?_⟩
  rintro es (rfl | hes)
  · exact hreads
  · exact hA es hes

/-- The trie of a sequence of answers. -/
theorem insertAnswers_trie {answers : List (Fin subsArity → Term)} {state : ℕ} {opqs : ℕ} {sgFr : SgFrame × ℕ}
    (h : insertAnswers words isRef trieDoVar globalMode fuel (SgFrame.new state, opqs) answers = some sgFr) :
    ∃ A, Trie trieDoVar sgFr.1 0 A := by
  have hrun : ∀ (answers : List (Fin subsArity → Term)) (sgFr₀ : SgFrame × ℕ) (A : Set (List Word)),
      Trie trieDoVar sgFr₀.1 0 A → (∀ es ∈ A, Reads words (List.replicate subsArity .term) es) →
      insertAnswers words isRef trieDoVar globalMode fuel sgFr₀ answers = some sgFr →
      ∃ A, Trie trieDoVar sgFr.1 0 A := by
    intro answers
    induction answers with
    | nil =>
      intro sgFr₀ A htrie _ h
      cases h
      exact ⟨A, htrie⟩
    | cons subs answers ih =>
      intro sgFr₀ A htrie hA h
      rw [insertAnswers, List.foldlM_cons] at h
      obtain ⟨sgFr₁, h₁, h⟩ := Option.bind_eq_some_iff.mp h
      obtain ⟨A', htrie', hA'⟩ := insertAnswer_trie htrie hA h₁
      exact ih sgFr₁ A' htrie' hA' h
  exact hrun answers _ ∅ (new_trie trieDoVar state) (fun es hes => absurd hes (Set.notMem_empty es)) h

end

end Yap.Tabling
