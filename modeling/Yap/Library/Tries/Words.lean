-- SUMMARY: The words of a term in a trie: walks follow them, and the words of no term go on after those of another one.
import Yap.Library.Tries.Code

/-!
# Words of a term

The words of a term depend on the numbers of its variables. A walk over the
words keeps what terms are still to come, so it tells where a term ends.
-/

namespace Yap

namespace Tries

-- ---------------------------------------------------------------------------
-- Words
-- ---------------------------------------------------------------------------

/-- The variables seen after a term, in the order in which they are numbered. -/
def seen : Term → List Addr → List Addr
  | .var v, vars => if v ∈ vars then vars else vars ++ [v]
  | .pair _ h t, vars => seen t (seen h vars)
  | .appl _ f args, vars => (List.finRange f.arityOfFE).foldl (fun vars i => seen (args i) vars) vars
  | _, vars => vars

def endTags : Mode → List ℕ
  | .entry => []
  | .tail => [pairEndTermTag]
  | .comma => [commaEndTag]

def blobWords (p : Addr) : Blob → List ℕ
  | .longInt _ => [boxWord p]
  | .double x => [floatInitTag, floatWord x, floatEndTag]
  | _ => []

theorem two_args_of_comma {f : Functor} (h : f = functorComma) : 1 < f.arityOfFE := by
  rw [h]
  decide

/-- The words of a term whose variables have these numbers. -/
def wordsBy (sym : Symbols) (idx : Addr → ℕ) : Mode → Term → List ℕ
  | mode, .var v => mkTrieVar (idx v) :: endTags mode
  | mode, .atom a => if mode = .tail ∧ a = atomNil then [pairEndEmptyTag] else sym.mkAtomTerm a :: endTags mode
  | mode, .int n => intWord n :: endTags mode
  | mode, .blob p b => blobWords p b ++ endTags mode
  | mode, .pair _ h t =>
    if mode = .tail then wordsBy sym idx .entry h ++ wordsBy sym idx .tail t
    else pairInitTag :: (wordsBy sym idx .entry h ++ wordsBy sym idx .tail t) ++ endTags mode
  | mode, .appl _ f args =>
    if h : f = functorComma then
      if mode = .comma then
        wordsBy sym idx .entry (args ⟨0, f.arity_pos⟩) ++ wordsBy sym idx .comma (args ⟨1, two_args_of_comma h⟩)
      else commaInitTag ::
        (wordsBy sym idx .entry (args ⟨0, f.arity_pos⟩) ++ wordsBy sym idx .comma (args ⟨1, two_args_of_comma h⟩)) ++
          endTags mode
    else (sym.functor f + applTag) :: ((List.finRange f.arityOfFE).flatMap fun i => wordsBy sym idx .entry (args i)) ++
      endTags mode

/-- The words that `put_entry` and `check_entry` follow. -/
def words (sym : Symbols) (t : Term) : List ℕ := wordsBy sym (fun v => (seen t []).idxOf v) .entry t

theorem foldl_starts {ι : Type*} {f : ι → List Addr → List Addr} (h : ∀ i vars, vars <+: f i vars) (is : List ι)
    (vars : List Addr) : vars <+: is.foldl (fun vars i => f i vars) vars := by
  induction is generalizing vars with
  | nil => exact List.prefix_rfl
  | cons i is ih => exact (h i vars).trans (ih _)

theorem foldl_starts_mem {ι : Type*} {f : ι → List Addr → List Addr} (h : ∀ i vars, vars <+: f i vars) {is : List ι}
    {i : ι} (hi : i ∈ is) (vars : List Addr) : ∃ vars', f i vars' <+: is.foldl (fun vars i => f i vars) vars := by
  induction is generalizing vars with
  | nil => cases hi
  | cons j is ih =>
    rcases List.mem_cons.mp hi with rfl | hi
    · exact ⟨vars, foldl_starts h is _⟩
    · exact ih hi _

theorem seen_starts (t : Term) (vars : List Addr) : vars <+: seen t vars := by
  induction t generalizing vars with
  | var v =>
    rw [seen]
    split_ifs
    · exact List.prefix_rfl
    · exact List.prefix_append ..
  | pair p h t ihh iht => exact (ihh vars).trans (iht _)
  | appl p f args ih => exact foldl_starts ih _ vars
  | _ => exact List.prefix_rfl

section
variable {α : Type*} {sym : Symbols} {step : α → ℕ → Except Stop α}

theorem endTag_eq (mode : Mode) (node : α) : endTag step mode node = (endTags mode).foldlM step node := by
  cases mode with
  | entry => rfl
  | tail => exact (bind_pure _).symm
  | comma => exact (bind_pure _).symm

theorem walk_word (mode : Mode) (node : α) (vars : List Addr) (w : ℕ) :
    (do
      let node ← step node w
      let node ← endTag step mode node
      return (node, vars)) =
      ((w :: endTags mode).foldlM step node >>= fun node => .ok (node, vars)) := by
  simp only [endTag_eq, List.foldlM_cons, bind_assoc]
  rfl

/-- The words of two terms one after the other, and then an end. -/
theorem walk_append {run : α → List Addr → Except Stop (α × List Addr)}
    {run' : α → List Addr → Except Stop (α × List Addr)} {ws ws' : List ℕ} {node : α} {vars vars' vars'' : List Addr}
    (h : run node vars = (ws.foldlM step node >>= fun node => .ok (node, vars')))
    (h' : ∀ node, run' node vars' = (ws'.foldlM step node >>= fun node => .ok (node, vars''))) :
    (do
      let (node, vars) ← run node vars
      run' node vars) = ((ws ++ ws').foldlM step node >>= fun node => .ok (node, vars'')) := by
  rw [h, bind_assoc, List.foldlM_append, bind_assoc]
  exact congrArg _ (funext h')

/-- The same between a tag and an end. -/
theorem walk_between {mode : Mode} {run : α → List Addr → Except Stop (α × List Addr)}
    {run' : α → List Addr → Except Stop (α × List Addr)} {w : ℕ} {ws ws' : List ℕ} {node : α}
    {vars vars' vars'' : List Addr}
    (h : ∀ node, run node vars = (ws.foldlM step node >>= fun node => .ok (node, vars')))
    (h' : ∀ node, run' node vars' = (ws'.foldlM step node >>= fun node => .ok (node, vars''))) :
    (do
      let node ← step node w
      let (node, vars) ← run node vars
      let (node, vars) ← run' node vars
      let node ← endTag step mode node
      return (node, vars)) =
      ((w :: (ws ++ ws') ++ endTags mode).foldlM step node >>= fun node => .ok (node, vars'')) := by
  rw [List.cons_append, List.foldlM_cons, bind_assoc]
  refine congrArg _ (funext fun node => ?_)
  rw [h, bind_assoc, List.append_assoc, List.foldlM_append, bind_assoc]
  refine congrArg _ (funext fun node => ?_)
  have hstep : ∀ node, (run' node vars' >>= fun s => do
      let node ← endTag step mode s.1
      return (node, s.2)) = ((ws' ++ endTags mode).foldlM step node >>= fun node => .ok (node, vars'')) := by
    intro node
    rw [h', bind_assoc, List.foldlM_append, bind_assoc]
    refine congrArg _ (funext fun node => ?_)
    simp only [endTag_eq]
    rfl
  exact hstep node

theorem walkBlob_eq (p : Addr) (b : Blob) (node : α) : walkBlob step p b node = (blobWords p b).foldlM step node := by
  cases b with
  | longInt n => exact (bind_pure _).symm
  | double x =>
    simp only [walkBlob, blobWords, List.foldlM_cons, List.foldlM_nil, bind_pure]
  | _ => rfl

/-- A walk follows the words of the term, with the numbers that its variables have in the end. -/
theorem walk_eq (t : Term) (mode : Mode) (node : α) (vars final : List Addr) (h : seen t vars <+: final) :
    walk sym step mode t node vars =
      ((wordsBy sym (fun v => final.idxOf v) mode t).foldlM step node >>= fun node => .ok (node, seen t vars)) := by
  induction t generalizing mode node vars with
  | var v =>
    rw [walk, wordsBy]
    rw [seen] at h ⊢
    split_ifs at h ⊢ with hv
    · rw [walk_word, List.IsPrefix.idxOf_eq_of_mem h hv]
    · have hidx : final.idxOf v = vars.length := by
        obtain ⟨more, rfl⟩ := h
        rw [List.append_assoc, List.idxOf_append_of_notMem hv]
        simp
      rw [walk_word, hidx]
  | int n => exact walk_word mode node vars _
  | atom a =>
    rw [walk, wordsBy]
    split_ifs
    · rw [List.foldlM_cons, bind_assoc]
      rfl
    · exact walk_word mode node vars _
  | blob p b =>
    rw [walk, wordsBy, walkBlob_eq, List.foldlM_append]
    simp only [endTag_eq, bind_assoc]
    rfl
  | pair p hd tl ihh iht =>
    have hhead := fun node => ihh .entry node vars ((seen_starts tl _).trans h)
    have htail := fun node => iht .tail node (seen hd vars) h
    rw [walk, wordsBy]
    split_ifs with hmode
    · exact walk_append (hhead node) htail
    · exact walk_between (fun node => hhead node) htail
  | appl p f args ih =>
    have hargs : ∀ (is : List (Fin f.arityOfFE)) node vars, is.foldl (fun vars i => seen (args i) vars) vars <+: final →
        is.foldlM (fun s i => walk sym step .entry (args i) s.1 s.2) (node, vars) =
          ((is.flatMap fun i => wordsBy sym (fun v => final.idxOf v) .entry (args i)).foldlM step node >>=
            fun node => .ok (node, is.foldl (fun vars i => seen (args i) vars) vars)) := by
      intro is
      induction is with
      | nil => exact fun node vars _ => rfl
      | cons i is ihis =>
        intro node vars hstarts
        have hfirst : seen (args i) vars <+: final := (foldl_starts (fun i => seen_starts (args i)) is _).trans hstarts
        rw [List.foldlM_cons, List.flatMap_cons, List.foldl_cons]
        rw [ih i .entry node vars hfirst, bind_assoc, List.foldlM_append, bind_assoc]
        exact congrArg _ (funext fun node => ihis node _ hstarts)
    rw [walk, wordsBy]
    split_ifs with hf hmode
    · subst hf
      exact walk_append (ih _ .entry node vars ((seen_starts _ _).trans h)) fun node => ih _ .comma node _ h
    · subst hf
      exact walk_between (fun node => ih _ .entry node vars ((seen_starts _ _).trans h)) fun node => ih _ .comma node _ h
    · rw [List.cons_append, List.foldlM_cons, bind_assoc]
      refine congrArg _ (funext fun node => ?_)
      rw [hargs _ node vars h, bind_assoc, List.foldlM_append, bind_assoc]
      refine congrArg _ (funext fun node => ?_)
      simp only [endTag_eq]
      rfl

end

-- ---------------------------------------------------------------------------
-- Tags of words
-- ---------------------------------------------------------------------------

theorem mkTrieVar_mod (index : ℕ) : mkTrieVar index % 8 = 0 := by
  unfold mkTrieVar
  omega

theorem intWord_eq (n : BitVec 58) : intWord n = 2 ^ 61 + n.toNat * 8 + 1 := by
  have hlt := n.isLt
  have hshift : (n.setWidth 64 <<< 3).toNat = n.toNat * 8 := by
    rw [BitVec.toNat_shiftLeft, BitVec.toNat_setWidth, Nat.shiftLeft_eq]
    omega
  have htag : Tags.numberTag.toNat = 2 ^ 61 + 1 := by decide
  have hdisjoint : Tags.numberTag &&& (n.setWidth 64 <<< 3) = 0#64 := by
    apply BitVec.eq_of_getLsbD_eq
    intro i hi
    have hbit : Tags.numberTag.getLsbD i = (decide (i = 0) || decide (i = 61)) := by
      revert i
      decide
    rw [BitVec.getLsbD_and, hbit, BitVec.getLsbD_shiftLeft, BitVec.getLsbD_setWidth]
    by_cases h0 : i = 0
    · subst h0
      simp
    · by_cases h61 : i = 61
      · subst h61
        simp
      · simp [h0, h61]
  unfold intWord Tags.taggedWord
  rw [← BitVec.add_eq_or_of_and_eq_zero _ _ hdisjoint, BitVec.toNat_add, hshift, htag]
  omega
theorem intWord_mod (n : BitVec 58) : intWord n % 8 = 1 := by
  rw [intWord_eq]
  omega

theorem boxWord_mod (p : Addr) : boxWord p % 8 = 4 := by
  unfold boxWord
  omega

theorem functor_mod (sym : Symbols) (f : Functor) : (sym.functor f + applTag) % 8 = 5 := by
  have h := sym.functor_aligned f
  unfold applTag
  omega

-- ---------------------------------------------------------------------------
-- Where a term ends
-- ---------------------------------------------------------------------------

/-- The term has no big integer, string or database reference, which have no word. -/
def Writable : Term → Prop
  | .pair _ h t => Writable h ∧ Writable t
  | .appl _ _ args => ∀ i, Writable (args i)
  | .blob p b => blobWords p b ≠ []
  | _ => True

/-- What is still to come: a term, the rest of a list or of a comma term, or the rest of a float. -/
inductive Frame where
  | term
  | list
  | comma
  | bits
  | floatEnd
deriving DecidableEq

/-- The first word of a term. -/
def start (sym : Symbols) (w : ℕ) (k : List Frame) : Option (List Frame) :=
  if w % 8 = 0 ∨ w % 8 = 1 ∨ w % 8 = 4 then some k
  else if w % 8 = 5 then some (List.replicate (sym.functorOf (w - applTag)).arityOfFE .term ++ k)
  else if w = pairInitTag then some (.list :: k)
  else if w = commaInitTag then some (.comma :: k)
  else if w = floatInitTag then some (.bits :: .floatEnd :: k)
  else none

def advance (sym : Symbols) : List Frame → ℕ → Option (List Frame)
  | [], _ => none
  | .term :: k, w => start sym w k
  | .list :: k, w => if w = pairEndEmptyTag ∨ w = pairEndTermTag then some k else start sym w (.list :: k)
  | .comma :: k, w => if w = commaEndTag then some k else start sym w (.comma :: k)
  | .bits :: k, _ => some k
  | .floatEnd :: k, w => if w = floatEndTag then some k else none

def Mode.frame : Mode → Frame
  | .entry => .term
  | .tail => .list
  | .comma => .comma

/-- The words are those of one term. -/
def OneTerm (sym : Symbols) (ws : List ℕ) : Prop :=
  ∃ w rest, ws = w :: rest ∧ w ≠ pairEndEmptyTag ∧ w ≠ pairEndTermTag ∧ w ≠ commaEndTag ∧
    ∀ k, start sym w k >>= rest.foldlM (advance sym) = some k

variable {sym : Symbols} {ws : List ℕ}

theorem OneTerm.term (h : OneTerm sym ws) (k : List Frame) : ws.foldlM (advance sym) (.term :: k) = some k := by
  obtain ⟨w, rest, rfl, -, -, -, hrest⟩ := h
  exact hrest k

theorem OneTerm.list (h : OneTerm sym ws) (k : List Frame) : ws.foldlM (advance sym) (.list :: k) = some (.list :: k) := by
  obtain ⟨w, rest, rfl, h1, h2, -, hrest⟩ := h
  rw [List.foldlM_cons, advance, if_neg (by simp [h1, h2])]
  exact hrest (.list :: k)

theorem OneTerm.comma (h : OneTerm sym ws) (k : List Frame) :
    ws.foldlM (advance sym) (.comma :: k) = some (.comma :: k) := by
  obtain ⟨w, rest, rfl, -, -, h3, hrest⟩ := h
  rw [List.foldlM_cons, advance, if_neg h3]
  exact hrest (.comma :: k)

/-- A word that is a term on its own. -/
theorem OneTerm.word {w : ℕ} (h : w % 8 = 0 ∨ w % 8 = 1 ∨ w % 8 = 4) : OneTerm sym [w] := by
  refine ⟨w, [], rfl, ?_, ?_, ?_, fun k => ?_⟩
  · rintro rfl
    revert h
    decide
  · rintro rfl
    revert h
    decide
  · rintro rfl
    revert h
    decide
  · rw [start, if_pos h]
    rfl

/-- The words of a term, and what follows them in a list or a comma term. -/
theorem OneTerm.endTags (h : OneTerm sym ws) (mode : Mode) (k : List Frame) :
    (ws ++ endTags mode).foldlM (advance sym) (mode.frame :: k) = some k := by
  cases mode with
  | entry =>
    rw [Tries.endTags, List.append_nil]
    exact h.term k
  | tail =>
    rw [List.foldlM_append, Mode.frame, h.list k]
    rfl
  | comma =>
    rw [List.foldlM_append, Mode.frame, h.comma k]
    rfl

/-- The words of a term between a tag and the rest of a list or comma term. -/
theorem OneTerm.between {ws' : List ℕ} {mode : Mode} {w : ℕ} (h : OneTerm sym ws)
    (hw : mode = .tail ∧ w = pairInitTag ∨ mode = .comma ∧ w = commaInitTag)
    (h' : ∀ k, ws'.foldlM (advance sym) (mode.frame :: k) = some k) : OneTerm sym (w :: (ws ++ ws')) := by
  rcases hw with ⟨rfl, rfl⟩ | ⟨rfl, rfl⟩
  · refine ⟨pairInitTag, ws ++ ws', rfl, by decide, by decide, by decide, fun k => ?_⟩
    have hstart : start sym pairInitTag k = some (.list :: k) := rfl
    rw [hstart, Option.bind_eq_bind, Option.bind_some, List.foldlM_append, h.list k]
    exact h' k
  · refine ⟨commaInitTag, ws ++ ws', rfl, by decide, by decide, by decide, fun k => ?_⟩
    have hstart : start sym commaInitTag k = some (.comma :: k) := rfl
    rw [hstart, Option.bind_eq_bind, Option.bind_some, List.foldlM_append, h.comma k]
    exact h' k

theorem oneTerm_blob {p : Addr} {b : Blob} (h : blobWords p b ≠ []) : OneTerm sym (blobWords p b) := by
  cases b with
  | longInt n => exact .word (.inr (.inr (boxWord_mod p)))
  | double x => exact ⟨_, _, rfl, by decide, by decide, by decide, fun k => rfl⟩
  | _ => exact absurd rfl h

/-- The arguments of a compound term one after the other. -/
theorem foldlM_terms {ι : Type*} {ws : ι → List ℕ} (is : List ι) (h : ∀ i ∈ is, OneTerm sym (ws i)) (k : List Frame) :
    (is.flatMap ws).foldlM (advance sym) (List.replicate is.length .term ++ k) = some k := by
  induction is with
  | nil => rfl
  | cons i is ih =>
    rw [List.flatMap_cons, List.foldlM_append, List.length_cons, List.replicate_succ, List.cons_append,
      (h i List.mem_cons_self).term]
    exact ih fun j hj => h j (List.mem_cons_of_mem i hj)

/-- The words of a term are those of one term, and in a loop they end the loop. -/
theorem oneTerm_wordsBy (sym : Symbols) {t : Term} (h : Writable t) (idx : Addr → ℕ) :
    OneTerm sym (wordsBy sym idx .entry t) ∧
      ∀ mode k, (wordsBy sym idx mode t).foldlM (advance sym) (mode.frame :: k) = some k := by
  induction t with
  | var v =>
    have hone : OneTerm sym [mkTrieVar (idx v)] := .word (.inl (mkTrieVar_mod _))
    exact ⟨hone, fun mode k => hone.endTags mode k⟩
  | int n =>
    have hone : OneTerm sym [intWord n] := .word (.inr (.inl (intWord_mod n)))
    exact ⟨hone, fun mode k => hone.endTags mode k⟩
  | atom a =>
    have hone : OneTerm sym [sym.mkAtomTerm a] := .word (.inr (.inl (sym.atom_tag a)))
    refine ⟨hone, fun mode k => ?_⟩
    rw [wordsBy]
    split_ifs with hnil
    · obtain ⟨rfl, -⟩ := hnil
      rfl
    · exact hone.endTags mode k
  | blob p b =>
    have hone : OneTerm sym (blobWords p b) := oneTerm_blob h
    refine ⟨?_, fun mode k => hone.endTags mode k⟩
    rw [wordsBy, endTags, List.append_nil]
    exact hone
  | pair p hd tl ihh iht =>
    obtain ⟨hhead, -⟩ := ihh h.1
    obtain ⟨-, htail⟩ := iht h.2
    have hone : OneTerm sym (pairInitTag :: (wordsBy sym idx .entry hd ++ wordsBy sym idx .tail tl)) :=
      hhead.between (.inl ⟨rfl, rfl⟩) (htail .tail)
    refine ⟨?_, fun mode k => ?_⟩
    · rw [wordsBy, if_neg (by decide), endTags, List.append_nil]
      exact hone
    · rw [wordsBy]
      split_ifs with hmode
      · subst hmode
        rw [List.foldlM_append, Mode.frame, hhead.list k]
        exact htail .tail k
      · exact hone.endTags mode k
  | appl p f args ih =>
    by_cases hf : f = functorComma
    · subst hf
      obtain ⟨hfirst, -⟩ := ih ⟨0, functorComma.arity_pos⟩ (h _)
      obtain ⟨-, hsecond⟩ := ih ⟨1, by decide⟩ (h _)
      have hone := hfirst.between (.inr ⟨rfl, rfl⟩) (hsecond .comma)
      refine ⟨?_, fun mode k => ?_⟩
      · rw [wordsBy, dif_pos rfl, if_neg (by decide), endTags, List.append_nil]
        exact hone
      · rw [wordsBy, dif_pos rfl]
        split_ifs with hmode
        · subst hmode
          rw [List.foldlM_append, Mode.frame, hfirst.comma k]
          exact hsecond .comma k
        · exact hone.endTags mode k
    · have hone : OneTerm sym ((sym.functor f + applTag) ::
          (List.finRange f.arityOfFE).flatMap fun i => wordsBy sym idx .entry (args i)) := by
        have hmod := functor_mod sym f
        have hne : ∀ tag, tag % 8 ≠ 5 → sym.functor f + applTag ≠ tag := by
          rintro tag htag rfl
          exact htag hmod
        refine ⟨_, _, rfl, ?_, ?_, ?_, fun k => ?_⟩
        · exact hne _ (by decide)
        · exact hne _ (by decide)
        · exact hne _ (by decide)
        · rw [start, if_neg (by omega), if_pos hmod, Nat.add_sub_cancel, sym.functorOf_functor]
          have hargs := foldlM_terms (List.finRange f.arityOfFE) (fun i _ => (ih i (h i)).1) k
          rwa [List.length_finRange] at hargs
      refine ⟨?_, fun mode k => ?_⟩
      · rw [wordsBy, dif_neg hf, endTags, List.append_nil]
        exact hone
      · rw [wordsBy, dif_neg hf]
        exact hone.endTags mode k

/-- The words of a term do not go on after those of another one. -/
theorem words_eq_of_starts {s t : Term} (hs : Writable s) (ht : Writable t) (h : words sym s <+: words sym t) :
    words sym s = words sym t := by
  obtain ⟨more, hmore⟩ := h
  have hend := (oneTerm_wordsBy sym hs fun v => (seen s []).idxOf v).1.term []
  have hend' := (oneTerm_wordsBy sym ht fun v => (seen t []).idxOf v).1.term []
  cases more with
  | nil => rwa [List.append_nil] at hmore
  | cons w more =>
    change (words sym s).foldlM (advance sym) [.term] = some [] at hend
    change (words sym t).foldlM (advance sym) [.term] = some [] at hend'
    rw [← hmore, List.foldlM_append, hend] at hend'
    cases hend'

end Tries

end Yap
