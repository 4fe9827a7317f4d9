-- SUMMARY: Reading a term back from a leaf of a trie: the path of a term reads as a copy of it.
import Yap.Library.Tries.Variants

/-!
# Reading a path

The way from a leaf to the root has the words of the term backwards. Each term
on it leaves its copy on the stack; the end of a list or of a comma term starts
a call, which the tag at its beginning ends.
-/

namespace Yap

namespace Tries

variable {sym : Symbols} {box : Addr → LongInt} {idx : Addr → ℕ} {node : TrNode} {st st' : GetState} {s t u : Term}

-- ---------------------------------------------------------------------------
-- Words
-- ---------------------------------------------------------------------------

theorem getEntry_word {w : ℕ} (h : w ≠ floatEndTag) :
    getEntry sym box (w :: node) st = (getWord sym box w st).bind (getEntry sym box node) := by
  rcases node with _ | ⟨p, _ | ⟨q, node⟩⟩ <;> exact if_neg h

theorem getEntry_eq {w : ℕ} (hmod : w % 8 ≠ 3) {st' : GetState} (h : getWord sym box w st = some st') :
    getEntry sym box (w :: node) st = getEntry sym box node st' := by
  rw [getEntry_word (by rintro rfl; exact hmod rfl), h]
  rfl

theorem getEntry_var (index : ℕ) :
    getEntry sym box (mkTrieVar index :: node) st = getEntry sym box node (st.pushVar index) := by
  have hmod := mkTrieVar_mod index
  have hvar : isVarTerm (mkTrieVar index) = true := by simp [isVarTerm, hmod]
  have hindex : trieVarIndex (mkTrieVar index) = index := Nat.mul_div_cancel index (by norm_num)
  refine getEntry_eq (by omega) ?_
  rw [getWord, if_pos hvar, hindex]

theorem getEntry_atom (a : Atom) :
    getEntry sym box (sym.mkAtomTerm a :: node) st = getEntry sym box node (st.push (.atom a)) := by
  have hmod := sym.atom_tag a
  have hhigh := sym.atom_not_int a
  have hvar : ¬ isVarTerm (sym.mkAtomTerm a) = true := by simp [isVarTerm, hmod]
  have hatom : isAtomTerm (sym.mkAtomTerm a) = true := decide_eq_true ⟨hmod, hhigh⟩
  refine getEntry_eq (by omega) ?_
  rw [getWord, if_neg hvar, if_pos hatom, sym.atomOfTerm_mkAtomTerm]

theorem getEntry_int (n : BitVec 58) :
    getEntry sym box (intWord n :: node) st = getEntry sym box node (st.push (.int n)) := by
  have hmod := intWord_mod n
  have hlt := n.isLt
  have hhigh : intWord n / 2 ^ 61 = 1 := by
    rw [intWord_eq]
    omega
  have hvar : ¬ isVarTerm (intWord n) = true := by simp [isVarTerm, hmod]
  have hatom : ¬ isAtomTerm (intWord n) = true := fun h => (of_decide_eq_true h).2 hhigh
  have hint : isIntTerm (intWord n) = true := decide_eq_true ⟨hmod, hhigh⟩
  have hval : BitVec.ofNat 58 (intWord n / 8) = n := by
    apply BitVec.eq_of_toNat_eq
    rw [BitVec.toNat_ofNat, intWord_eq]
    omega
  refine getEntry_eq (by omega) ?_
  rw [getWord, if_neg hvar, if_neg hatom, if_pos hint, hval]

theorem getEntry_box (p : Addr) :
    getEntry sym box (boxWord p :: node) st = getEntry sym box node (st.push (.blob p (.longInt (box p)))) := by
  have hmod := boxWord_mod p
  have hvar : ¬ isVarTerm (boxWord p) = true := by simp [isVarTerm, hmod]
  have hatom : ¬ isAtomTerm (boxWord p) = true := by simp [isAtomTerm, hmod]
  have hint : ¬ isIntTerm (boxWord p) = true := by simp [isIntTerm, hmod]
  have hplace : boxWord p / 8 = p := by
    unfold boxWord
    omega
  have hlong : longIntOf box (boxWord p) = some (box p) := by rw [longIntOf, if_pos hmod, hplace]
  refine getEntry_eq (by omega) ?_
  rw [getWord, if_neg hvar, if_neg hatom, if_neg hint, hlong, hplace]

theorem floatOfWord_floatWord (x : Binary64) : floatOfWord (floatWord x) = x := by
  obtain ⟨neg, mag, hmag⟩ := x
  cases neg with
  | false =>
    simp only [floatOfWord, floatWord]
    simpa using hmag
  | true =>
    simp only [floatOfWord, floatWord]
    simpa using hmag

theorem getEntry_float (x : Binary64) :
    getEntry sym box (floatEndTag :: floatWord x :: floatInitTag :: node) st = getEntry sym box node { st with
      stackArgs := .blob st.hr (.double x) :: st.stackArgs, hr := st.hr + 1 } := by
  rw [getEntry, if_pos rfl, floatOfWord_floatWord]

theorem getEntry_pairInit :
    getEntry sym box (pairInitTag :: node) st = (st.close .pair 1).bind (getEntry sym box node) :=
  getEntry_word (by decide)

theorem getEntry_commaInit :
    getEntry sym box (commaInitTag :: node) st = (st.close mkComma 2).bind (getEntry sym box node) :=
  getEntry_word (by decide)

theorem getEntry_pairEndEmpty : getEntry sym box (pairEndEmptyTag :: node) st =
    getEntry sym box node ((st.call st.stackArgs.length).push (.atom atomNil)) :=
  getEntry_word (by decide)

theorem getEntry_endTag {mode : Mode} (h : mode ≠ .entry) : getEntry sym box ((endTags mode).reverse ++ node) st =
    getEntry sym box node (st.call st.stackArgs.length) := by
  cases mode with
  | entry => exact absurd rfl h
  | tail => exact getEntry_word (by decide)
  | comma => exact getEntry_word (by decide)

theorem getEntry_functor (f : Functor) : getEntry sym box ((sym.functor f + applTag) :: node) st =
    (st.pushAppl f).bind (getEntry sym box node) := by
  have hmod := functor_mod sym f
  have hvar : ¬ isVarTerm (sym.functor f + applTag) = true := by simp [isVarTerm, hmod]
  have hatom : ¬ isAtomTerm (sym.functor f + applTag) = true := by simp [isAtomTerm, hmod]
  have hint : ¬ isIntTerm (sym.functor f + applTag) = true := by simp [isIntTerm, hmod]
  have hlong : longIntOf box (sym.functor f + applTag) = none := by rw [longIntOf, if_neg (by omega)]
  have hpair : ¬ isPairTerm (sym.functor f + applTag) = true := by
    simp only [isPairTerm, decide_eq_true_eq]
    omega
  have hend : sym.functor f + applTag ≠ floatEndTag := by
    intro h
    rw [h] at hmod
    exact absurd hmod (by decide)
  rw [getEntry_word hend, getWord, if_neg hvar, if_neg hatom, if_neg hint, hlong]
  simp only
  rw [if_neg hpair, if_pos (by exact hmod), Nat.add_sub_cancel, sym.functorOf_functor]

-- ---------------------------------------------------------------------------
-- Copies
-- ---------------------------------------------------------------------------

/-- The variables read so far are different ones, and older than the cells still to be taken. -/
structure Table (st : GetState) : Prop where
  injective : ∀ i j v, st.vars i = some v → st.vars j = some v → i = j
  below : ∀ i v, st.vars i = some v → v < st.hr

/-- Reading goes on and keeps the variables read so far. -/
structure Grows (st st' : GetState) : Prop where
  table : Table st'
  vars : ∀ i v, st.vars i = some v → st'.vars i = some v

/-- A copy with the variables of the table, where large integers are what their boxes hold now. -/
def Copy (box : Addr → LongInt) (idx : Addr → ℕ) (vars : ℕ → Option Addr) : Term → Term → Prop :=
  Corr (fun v w => vars (idx v) = some w) fun p _ q n => q = p ∧ n = box p

theorem Grows.refl (h : Table st) : Grows st st := ⟨h, fun _ _ hv => hv⟩

theorem Grows.trans {st'' : GetState} (h : Grows st st') (h' : Grows st' st'') : Grows st st'' :=
  ⟨h'.table, fun i v hv => h'.vars i v (h.vars i v hv)⟩

theorem Copy.mono (h : Copy box idx st.vars t u) (hgrows : Grows st st') : Copy box idx st'.vars t u :=
  Corr.mono h (fun _ _ hv => hgrows.vars _ _ hv) fun _ _ _ _ hl => hl

/-- More cells are taken. -/
theorem Table.of_le (h : Table st) (hvars : st'.vars = st.vars) (hle : st.hr ≤ st'.hr) : Grows st st' where
  table := by
    refine ⟨?_, fun i v hv => ?_⟩
    · rw [hvars]
      exact h.injective
    · rw [hvars] at hv
      exact lt_of_lt_of_le (h.below i v hv) hle
  vars := by
    rw [hvars]
    exact fun _ _ hv => hv

/-- A term is read: its copy is pushed. -/
structure Pushed (box : Addr → LongInt) (idx : Addr → ℕ) (t : Term) (st st' : GetState) (u : Term) : Prop where
  stack : st'.stackArgs = u :: st.stackArgs
  marks : st'.marks = st.marks
  grows : Grows st st'
  copy : Copy box idx st'.vars t u

theorem pushVar_pushed (h : Table st) (v : Addr) : ∃ u, Pushed box idx (.var v) st (st.pushVar (idx v)) u := by
  unfold GetState.pushVar
  cases hv : st.vars (idx v) with
  | some w => exact ⟨.var w, rfl, rfl, h.of_le rfl le_rfl, .var hv⟩
  | none =>
    refine ⟨.var st.hr, rfl, rfl, ⟨⟨fun i j w hi hj => ?_, fun i w hi => ?_⟩, fun i w hi => ?_⟩, .var ?_⟩
    · simp only [Function.update_apply] at hi hj
      split_ifs at hi hj with h1 h2 h2
      · rw [h1, h2]
      · rw [← Option.some.inj hi] at hj
        exact absurd (h.below j _ hj) (lt_irrefl _)
      · rw [← Option.some.inj hj] at hi
        exact absurd (h.below i _ hi) (lt_irrefl _)
      · exact h.injective i j w hi hj
    · simp only [Function.update_apply] at hi
      split_ifs at hi with h1
      · rw [← Option.some.inj hi]
        exact Nat.lt_succ_self _
      · exact Nat.lt_succ_of_lt (h.below i w hi)
    · have hne : i ≠ idx v := by
        rintro rfl
        rw [hv] at hi
        cases hi
      exact (Function.update_of_ne hne ..).trans hi
    · exact Function.update_self ..

theorem push_pushed (h : Table st) {t : Term} {u : Term} (hcopy : Copy box idx st.vars t u) :
    Pushed box idx t st (st.push u) u :=
  ⟨rfl, rfl, h.of_le rfl le_rfl, hcopy⟩

/-- The rest of a loop is read: a call is under way, and its terms build the copy. -/
structure Called (box : Addr → LongInt) (idx : Addr → ℕ) (mk : Addr → Term → Term → Term) (t : Term)
    (st st' : GetState) (us : List Term) : Prop where
  stack : st'.stackArgs = us ++ st.stackArgs
  marks : st'.marks = st.stackArgs.length :: st.marks
  grows : Grows st st'
  ne_nil : us ≠ []
  builds : ∀ hr, ∃ u hr', buildFrom mk us.reverse hr = some (u, hr') ∧ hr ≤ hr' ∧ Copy box idx st'.vars t u

def Mode.mk : Mode → Addr → Term → Term → Term
  | .comma => mkComma
  | _ => .pair

theorem Pushed.called {mk : Addr → Term → Term → Term} (h : Pushed box idx t (st.call st.stackArgs.length) st' u) :
    Called box idx mk t st st' [u] :=
  ⟨h.stack, h.marks, ⟨h.grows.table, h.grows.vars⟩, List.cons_ne_nil _ _,
    fun hr => ⟨u, hr, rfl, le_rfl, h.copy⟩⟩

theorem buildFrom_append {mk : Addr → Term → Term → Term} {ts : List Term} {hr hr' : Addr} (v : Term)
    (h : buildFrom mk ts hr = some (u, hr')) : buildFrom mk (ts ++ [v]) hr = some (mk hr' v u, hr' + 1) := by
  cases ts with
  | nil => cases h
  | cons t ts =>
    rw [buildFrom, Option.some.injEq] at h
    rw [List.cons_append, buildFrom, List.foldl_append, h]
    rfl

/-- One more term in front of the rest of a loop. -/
theorem Called.cons {mk : Addr → Term → Term → Term} {st'' : GetState} {us : List Term} {w : Term}
    (h : Called box idx mk t st st' us) (hpush : Pushed box idx s st' st'' u)
    (hmk : ∀ hr u', Copy box idx st''.vars t u' → Copy box idx st''.vars w (mk hr u u')) :
    Called box idx mk w st st'' (u :: us) where
  stack := by rw [hpush.stack, h.stack, List.cons_append]
  marks := hpush.marks.trans h.marks
  grows := h.grows.trans hpush.grows
  ne_nil := List.cons_ne_nil _ _
  builds hr := by
    obtain ⟨u', hr', hbuild, hle, hcopy⟩ := h.builds hr
    rw [List.reverse_cons]
    exact ⟨_, _, buildFrom_append u hbuild, le_trans hle (Nat.le_succ _), hmk hr' u' (hcopy.mono hpush.grows)⟩

/-- The tag at the beginning ends the call. -/
theorem Called.close {mk : Addr → Term → Term → Term} {us : List Term} {least : ℕ} {w : Term}
    (h : Called box idx mk w st st' us) (hleast : least ≤ us.length) :
    ∃ st'' u, st'.close mk least = some st'' ∧ Pushed box idx w st st'' u := by
  obtain ⟨u, hr', hbuild, hle, hcopy⟩ := h.builds st'.hr
  have hlength : st'.stackArgs.length = us.length + st.stackArgs.length := by rw [h.stack, List.length_append]
  have htake : st'.stackArgs.take (st'.stackArgs.length - st.stackArgs.length) = us := by
    rw [hlength, Nat.add_sub_cancel, h.stack, List.take_left]
  have hdrop : st'.stackArgs.drop (st'.stackArgs.length - st.stackArgs.length) = st.stackArgs := by
    rw [hlength, Nat.add_sub_cancel, h.stack, List.drop_left]
  refine ⟨⟨u :: st.stackArgs, st.marks, st'.vars, hr'⟩, u, ?_, rfl, rfl,
    h.grows.trans (h.grows.table.of_le rfl hle), hcopy⟩
  unfold GetState.close
  rw [h.marks]
  simp only
  rw [if_neg (by omega), htake, hdrop, hbuild]
  rfl

-- ---------------------------------------------------------------------------
-- Terms
-- ---------------------------------------------------------------------------

/-- The words are read as the copy of a term. -/
def ReadsTerm (sym : Symbols) (box : Addr → LongInt) (idx : Addr → ℕ) (ws : List ℕ) (t : Term) : Prop :=
  ∀ node st, Table st → ∃ st' u, getEntry sym box (ws.reverse ++ node) st = getEntry sym box node st' ∧
    Pushed box idx t st st' u

/-- The words are read as the rest of a loop. -/
def ReadsRest (sym : Symbols) (box : Addr → LongInt) (idx : Addr → ℕ) (mk : Addr → Term → Term → Term) (ws : List ℕ)
    (t : Term) : Prop :=
  ∀ node st, Table st → ∃ st' us, getEntry sym box (ws.reverse ++ node) st = getEntry sym box node st' ∧
    Called box idx mk t st st' us

/-- A term and what follows it in a loop. -/
theorem ReadsTerm.rest {ws : List ℕ} (h : ReadsTerm sym box idx ws t) {mode : Mode} (hmode : mode ≠ .entry) :
    ReadsRest sym box idx mode.mk (ws ++ endTags mode) t := by
  intro node st htable
  obtain ⟨st', u, hread, hpush⟩ := h node (st.call st.stackArgs.length) ⟨htable.injective, htable.below⟩
  refine ⟨st', [u], ?_, hpush.called⟩
  rw [List.reverse_append, List.append_assoc, getEntry_endTag hmode, hread]

/-- A term in front of the rest of a loop. -/
theorem ReadsRest.cons {ws ws' : List ℕ} {mk : Addr → Term → Term → Term} {w : Term}
    (h : ReadsTerm sym box idx ws s) (h' : ReadsRest sym box idx mk ws' t)
    (hmk : ∀ vars hr u u', Copy box idx vars s u → Copy box idx vars t u' → Copy box idx vars w (mk hr u u')) :
    ∀ node st, Table st → ∃ st' us, getEntry sym box ((ws ++ ws').reverse ++ node) st = getEntry sym box node st' ∧
      Called box idx mk w st st' us ∧ 2 ≤ us.length := by
  intro node st htable
  obtain ⟨st', us, hread, hcall⟩ := h' (ws.reverse ++ node) st htable
  obtain ⟨st'', u, hread', hpush⟩ := h node st' hcall.grows.table
  have hpos := List.length_pos_of_ne_nil hcall.ne_nil
  refine ⟨st'', u :: us, ?_, hcall.cons hpush fun hr u' hcopy => hmk _ hr u u' hpush.copy hcopy, ?_⟩
  · rw [List.reverse_append, List.append_assoc, hread, hread']
  · rw [List.length_cons]
    omega

theorem copy_pair {vars : ℕ → Option Addr} (p hr : Addr) {h h' : Term} (hh : Copy box idx vars s h)
    (ht : Copy box idx vars t h') : Copy box idx vars (.pair p s t) (.pair hr h h') :=
  .pair hh ht

theorem copy_comma {vars : ℕ → Option Addr} (p hr : Addr) {args : Fin functorComma.arityOfFE → Term} {u u' : Term}
    (h : Copy box idx vars (args ⟨0, functorComma.arity_pos⟩) u) (h' : Copy box idx vars (args ⟨1, by decide⟩) u') :
    Copy box idx vars (.appl p functorComma args) (mkComma hr u u') := by
  refine .appl fun i => ?_
  obtain ⟨_ | _ | n, hi⟩ := i
  · exact h
  · exact h'
  · exact absurd hi (by show ¬ n + 1 + 1 < 2; omega)

/-- The arguments of a compound term are read one after the other. -/
theorem readsArgs {n : ℕ} {args : Fin n → Term} {ws : Fin n → List ℕ}
    (h : ∀ i, ReadsTerm sym box idx (ws i) (args i)) (is : List (Fin n)) (node : TrNode) (st : GetState)
    (htable : Table st) :
    ∃ st' us, getEntry sym box ((is.flatMap ws).reverse ++ node) st = getEntry sym box node st' ∧
      st'.stackArgs = us ++ st.stackArgs ∧ st'.marks = st.marks ∧ Grows st st' ∧
      List.Forall₂ (fun i u => Copy box idx st'.vars (args i) u) is us := by
  induction is generalizing node with
  | nil => exact ⟨st, [], rfl, rfl, rfl, .refl htable, .nil⟩
  | cons i is ih =>
    obtain ⟨st', us, hread, hstack, hmarks, hgrows, hcopies⟩ := ih ((ws i).reverse ++ node)
    obtain ⟨st'', u, hread', hpush⟩ := h i node st' hgrows.table
    refine ⟨st'', u :: us, ?_, ?_, hpush.marks.trans hmarks, hgrows.trans hpush.grows, .cons hpush.copy ?_⟩
    · rw [List.flatMap_cons, List.reverse_append, List.append_assoc, hread, hread']
    · rw [hpush.stack, hstack, List.cons_append]
    · exact hcopies.imp fun i u hcopy => hcopy.mono hpush.grows

theorem readsAppl {p : Addr} {f : Functor} {args : Fin f.arityOfFE → Term} {ws : Fin f.arityOfFE → List ℕ}
    (h : ∀ i, ReadsTerm sym box idx (ws i) (args i)) :
    ReadsTerm sym box idx ((sym.functor f + applTag) :: (List.finRange f.arityOfFE).flatMap ws) (.appl p f args) := by
  intro node st htable
  obtain ⟨st', us, hread, hstack, hmarks, hgrows, hcopies⟩ :=
    readsArgs h (List.finRange f.arityOfFE) ((sym.functor f + applTag) :: node) st htable
  have hlength : us.length = f.arityOfFE := by
    rw [← hcopies.length_eq, List.length_finRange]
  have hle : f.arityOfFE ≤ st'.stackArgs.length := by
    rw [hstack, List.length_append]
    omega
  have hget : ∀ i (hi : i < us.length), st'.stackArgs[i]? = some us[i] := by
    intro i hi
    rw [hstack, List.getElem?_append_left hi, List.getElem?_eq_getElem hi]
  have hcopy : ∀ i : Fin f.arityOfFE, Copy box idx st'.vars (args i) (st'.stackArgs.get ⟨i, by omega⟩) := by
    intro i
    have hi : i.val < us.length := by omega
    have hcopy := hcopies.get (i := i.val) (by simp) hi
    have hplace := hget i hi
    rw [List.getElem?_eq_getElem (by omega), Option.some.injEq] at hplace
    rw [List.get_eq_getElem, List.get_eq_getElem, List.getElem_finRange] at hcopy
    rw [List.get_eq_getElem, hplace]
    exact hcopy
  have hdrop : st'.stackArgs.drop f.arityOfFE = st.stackArgs := by rw [hstack, ← hlength, List.drop_left]
  rw [List.reverse_cons, List.append_assoc, List.singleton_append, hread, getEntry_functor, GetState.pushAppl,
    dif_pos hle, hdrop]
  exact ⟨_, _, rfl, rfl, hmarks, hgrows.trans (hgrows.table.of_le rfl (Nat.le_succ _)), .appl hcopy⟩

/-- A word that is pushed as a term. -/
theorem readsWord {w : ℕ} {t u : Term}
    (hword : ∀ node st, getEntry sym box (w :: node) st = getEntry sym box node (st.push u))
    (hcopy : ∀ vars, Copy box idx vars t u) : ReadsTerm sym box idx [w] t :=
  fun _ _ htable => ⟨_, u, hword .., push_pushed htable (hcopy _)⟩

theorem readsBlob {p : Addr} {b : Blob} (h : blobWords p b ≠ []) :
    ReadsTerm sym box idx (blobWords p b) (.blob p b) := by
  cases b with
  | longInt n => exact readsWord (fun _ _ => getEntry_box p) fun _ => .blob ⟨rfl, rfl⟩
  | double x =>
    intro node st htable
    refine ⟨_, _, getEntry_float x, rfl, rfl, htable.of_le rfl (Nat.le_succ _), .blob ⟨rfl, ?_, ?_⟩⟩
    · simp
    · simp
  | _ => exact absurd rfl h

/-- The words of a term between the tags of a list or a comma term. -/
theorem ReadsRest.between {ws ws' : List ℕ} {mode : Mode} {w : Term} {tag least : ℕ}
    (h : ReadsTerm sym box idx ws s) (h' : ReadsRest sym box idx mode.mk ws' t)
    (hmk : ∀ vars hr u u', Copy box idx vars s u → Copy box idx vars t u' → Copy box idx vars w (mode.mk hr u u'))
    (htag : ∀ node st, getEntry sym box (tag :: node) st = (st.close mode.mk least).bind (getEntry sym box node))
    (hleast : least ≤ 2) : ReadsTerm sym box idx (tag :: (ws ++ ws')) w := by
  intro node st htable
  obtain ⟨st', us, hread, hcall, hlength⟩ := h'.cons h hmk (tag :: node) st htable
  obtain ⟨st'', u, hclose, hpush⟩ := hcall.close (le_trans hleast hlength)
  refine ⟨st'', u, ?_, hpush⟩
  rw [List.reverse_cons, List.append_assoc, List.singleton_append, hread, htag, hclose]
  rfl

/-- The words of a term are read as its copy, and in a loop as the rest of the loop. -/
theorem reads_wordsBy (sym : Symbols) (box : Addr → LongInt) (idx : Addr → ℕ) (h : Writable t) :
    ReadsTerm sym box idx (wordsBy sym idx .entry t) t ∧
      ∀ mode, mode ≠ .entry → ReadsRest sym box idx mode.mk (wordsBy sym idx mode t) t := by
  induction t with
  | var v =>
    have hread : ReadsTerm sym box idx [mkTrieVar (idx v)] (.var v) := by
      intro node st htable
      obtain ⟨u, hpush⟩ := pushVar_pushed htable v
      exact ⟨_, u, getEntry_var _, hpush⟩
    exact ⟨hread, fun mode hmode => hread.rest hmode⟩
  | int n =>
    have hread : ReadsTerm sym box idx [intWord n] (.int n) := readsWord (fun _ _ => getEntry_int n) fun _ => .int n
    exact ⟨hread, fun mode hmode => hread.rest hmode⟩
  | atom a =>
    have hread : ReadsTerm sym box idx [sym.mkAtomTerm a] (.atom a) :=
      readsWord (fun _ _ => getEntry_atom a) fun _ => .atom a
    refine ⟨hread, fun mode hmode => ?_⟩
    rw [wordsBy]
    split_ifs with hnil
    · obtain ⟨rfl, rfl⟩ := hnil
      intro node st htable
      have hcall : Table (st.call st.stackArgs.length) := ⟨htable.injective, htable.below⟩
      exact ⟨_, _, getEntry_pairEndEmpty, (push_pushed hcall (.atom atomNil)).called⟩
    · exact hread.rest hmode
  | blob p b =>
    have hread : ReadsTerm sym box idx (blobWords p b) (.blob p b) := readsBlob h
    refine ⟨?_, fun mode hmode => hread.rest hmode⟩
    rw [wordsBy, endTags, List.append_nil]
    exact hread
  | pair p hd tl ihh iht =>
    obtain ⟨hhead, -⟩ := ihh h.1
    obtain ⟨-, htail⟩ := iht h.2
    have hmk : ∀ vars hr u u', Copy box idx vars hd u → Copy box idx vars tl u' →
        Copy box idx vars (.pair p hd tl) (.pair hr u u') := fun _ hr _ _ => copy_pair p hr
    have hread : ReadsTerm sym box idx (pairInitTag :: (wordsBy sym idx .entry hd ++ wordsBy sym idx .tail tl))
        (.pair p hd tl) :=
      (htail .tail (by decide)).between hhead hmk (fun _ _ => getEntry_pairInit) (by norm_num)
    refine ⟨?_, fun mode hmode => ?_⟩
    · rw [wordsBy, if_neg (by decide), endTags, List.append_nil]
      exact hread
    · rw [wordsBy]
      split_ifs with htailMode
      · subst htailMode
        intro node st htable
        obtain ⟨st', us, hrest, hcall, -⟩ := (htail .tail hmode).cons hhead hmk node st htable
        exact ⟨st', us, hrest, hcall⟩
      · exact hread.rest hmode
  | appl p f args ih =>
    by_cases hf : f = functorComma
    · subst hf
      obtain ⟨hfirst, -⟩ := ih ⟨0, functorComma.arity_pos⟩ (h _)
      obtain ⟨-, hsecond⟩ := ih ⟨1, by decide⟩ (h _)
      have hmk : ∀ vars hr u u', Copy box idx vars (args ⟨0, functorComma.arity_pos⟩) u →
          Copy box idx vars (args ⟨1, by decide⟩) u' → Copy box idx vars (.appl p functorComma args) (mkComma hr u u') :=
        fun _ hr _ _ => copy_comma p hr
      have hread := (hsecond .comma (by decide)).between hfirst hmk (fun _ _ => getEntry_commaInit) le_rfl
      refine ⟨?_, fun mode hmode => ?_⟩
      · rw [wordsBy, dif_pos rfl, if_neg (by decide), endTags, List.append_nil]
        exact hread
      · rw [wordsBy, dif_pos rfl]
        split_ifs with hcomma
        · subst hcomma
          intro node st htable
          obtain ⟨st', us, hrest, hcall, -⟩ := (hsecond .comma hmode).cons hfirst hmk node st htable
          exact ⟨st', us, hrest, hcall⟩
        · exact hread.rest hmode
    · have hread : ReadsTerm sym box idx ((sym.functor f + applTag) ::
          (List.finRange f.arityOfFE).flatMap fun i => wordsBy sym idx .entry (args i)) (.appl p f args) :=
        readsAppl fun i => (ih i (h i)).1
      refine ⟨?_, fun mode hmode => ?_⟩
      · rw [wordsBy, dif_neg hf, endTags, List.append_nil]
        exact hread
      · rw [wordsBy, dif_neg hf]
        exact hread.rest hmode

/-- The path of a term reads as a copy of it, whose variables are different ones. -/
theorem coreTrieGetEntry_words (sym : Symbols) (box : Addr → LongInt) (hr : Addr) (h : Writable t) :
    ∃ u R, coreTrieGetEntry sym box hr (words sym t).reverse = some u ∧ OneToOne R ∧
      Corr R (fun p _ q n => q = p ∧ n = box p) t u := by
  have htable : Table ⟨[], [], fun _ => none, hr⟩ := by
    constructor
    · intro i j v hi
      cases hi
    · intro i v hi
      cases hi
  obtain ⟨st', u, hread, hpush⟩ :=
    (reads_wordsBy sym box (fun v => (seen t []).idxOf v) h).1 [] _ htable
  refine ⟨u, fun v w => v ∈ seen t [] ∧ st'.vars ((seen t []).idxOf v) = some w, ?_, ⟨?_, ?_⟩,
    Corr.restrict hpush.copy [] _ List.prefix_rfl⟩
  · rw [List.append_nil, getEntry] at hread
    have hstate : st' = ⟨[u], [], st'.vars, st'.hr⟩ := by
      obtain ⟨hstack, hmarks, -, -⟩ := hpush
      cases st'
      simp only at hstack hmarks
      rw [hstack, hmarks]
    unfold coreTrieGetEntry
    rw [words, hread, hstate]
  · rintro v w w' ⟨-, hv⟩ ⟨-, hv'⟩
    exact Option.some.inj (hv.symm.trans hv')
  · rintro v v' w ⟨hmem, hv⟩ ⟨hmem', hv'⟩
    exact (List.idxOf_inj hmem).mp (hpush.grows.table.injective _ _ w hv hv')

end Tries

end Yap
