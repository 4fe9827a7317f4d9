-- SUMMARY: The standard order of terms as its documentation describes it: keys of cells, the lexicographic order of their preorder sequences, and its laws.
import Yap.Base.Lex
import Yap.Arith.Value

/-!
# The standard order of terms

Variables come first, then database references, doubles, rationals, integers,
strings, atoms and compound terms; compound terms are ordered by arity, then by
name, then by their arguments from left to right. A pair is a compound term with
arity 2 and name `.`. This is the lexicographic order of the sequences of keys
that a walk through the terms meets.
-/

open Std

namespace Yap

-- ---------------------------------------------------------------------------
-- Keys
-- ---------------------------------------------------------------------------

/-- What the order looks at in one cell: the kind of term, a number, and a name. -/
structure Key where
  rank : ℕ
  value : ℚ
  text : List ℕ
deriving DecidableEq

namespace Key

def cmp : Key → Key → Ordering :=
  compareLex (compareOn Key.rank)
    (compareLex (compareOn Key.value) fun a b => List.compareLex compare a.text b.text)

private instance : TransCmp (fun a b : Key => List.compareLex compare a.text b.text) where
  eq_swap := Lex.compareLex_swap compare _ _
  isLE_trans := Lex.compareLex_trans compare

instance : TransCmp cmp :=
  inferInstanceAs (TransCmp (compareLex (compareOn Key.rank)
    (compareLex (compareOn Key.value) fun a b => List.compareLex compare a.text b.text)))

instance : LawfulEqCmp cmp where
  eq_of_compare {a b} h := by
    obtain ⟨hrank, hrest⟩ := compareLex_eq_eq.mp h
    obtain ⟨hvalue, htext⟩ := compareLex_eq_eq.mp hrest
    have hr : a.rank = b.rank := LawfulEqOrd.eq_of_compare hrank
    have hv : a.value = b.value := LawfulEqOrd.eq_of_compare hvalue
    have ht : a.text = b.text := (Lex.compareLex_eq_iff compare).mp htext
    cases a; cases b; simp_all

theorem cmp_swap (a b : Key) : cmp a b = (cmp b a).swap := OrientedCmp.eq_swap

@[simp] theorem cmp_self (a : Key) : cmp a a = .eq := ReflCmp.compare_self

/-- Different kinds of terms are told apart by their rank. -/
theorem cmp_of_rank_ne {a b : Key} (h : a.rank ≠ b.rank) : cmp a b = compare a.rank b.rank := by
  have hne : compareOn Key.rank a b ≠ .eq := fun heq => h (LawfulEqOrd.eq_of_compare heq)
  change (compareOn Key.rank a b).then _ = compareOn Key.rank a b
  cases hc : compareOn Key.rank a b with
  | eq => exact absurd hc hne
  | lt | gt => rfl

theorem cmp_of_rank_eq {a b : Key} (h : a.rank = b.rank) :
    cmp a b = (compare a.value b.value).then (List.compareLex compare a.text b.text) := by
  have heq : compareOn Key.rank a b = .eq := by simp [compareOn, h]
  unfold cmp compareLex
  rw [heq]
  rfl

@[simp] theorem cmp_value (rank : ℕ) (a b : ℚ) :
    cmp ⟨rank, a, []⟩ ⟨rank, b, []⟩ = compare a b := by
  simp only [cmp_of_rank_eq]
  cases compare a b <;> rfl

@[simp] theorem cmp_text (rank : ℕ) (value : ℚ) (s t : List ℕ) :
    cmp ⟨rank, value, s⟩ ⟨rank, value, t⟩ = List.compareLex compare s t := by
  simp [cmp_of_rank_eq]

end Key

-- ---------------------------------------------------------------------------
-- Keys of terms
-- ---------------------------------------------------------------------------

def CString.codes (s : CString) : List ℕ := s.bytes.map UInt8.toNat

def BigNum.key : BigNum → Key
  | .int z => ⟨4, z.val, []⟩
  | .rat q => ⟨3, q.val, []⟩

/-- The key of a functor. -/
def functorKey (name : Atom) (arity : ℕ) : Key := ⟨7, arity, name.strOfAE.codes⟩

/-- The key of a functor of a compound term. -/
def Functor.key (f : Functor) : Key := functorKey f.nameOfFE f.arityOfFE

/-- The key of a pair. -/
def dotKey : Key := functorKey atomDot 2

namespace Term

/-- The key of the first cell of a term. -/
def key : Term → Key
  | .var v => ⟨0, v, []⟩
  | .blob p .dbRef => ⟨1, -p, []⟩
  | .blob _ (.double x) => ⟨2, x.totalKey, []⟩
  | .blob _ (.bigInt b) => b.key
  | .blob _ (.longInt n) => ⟨4, n.val.toInt, []⟩
  | .int n => ⟨4, n.toInt, []⟩
  | .blob _ (.string s) => ⟨5, 0, s.codes⟩
  | .atom a => ⟨6, 0, a.strOfAE.codes⟩
  | .pair _ _ _ => dotKey
  | .appl _ f _ => f.key

/-- The keys of a term in preorder. -/
def keys (t : Term) : List Key := t.cells.map key

/-- The standard order. -/
def standardOrder (t u : Term) : Ordering := List.compareLex Key.cmp t.keys u.keys

theorem standardOrder_swap (t u : Term) : standardOrder t u = (standardOrder u t).swap :=
  Lex.compareLex_swap Key.cmp _ _

theorem standardOrder_trans {t u v : Term} (htu : (standardOrder t u).isLE)
    (huv : (standardOrder u v).isLE) : (standardOrder t v).isLE :=
  Lex.compareLex_trans Key.cmp htu huv

-- ---------------------------------------------------------------------------
-- Keys and structural identity
-- ---------------------------------------------------------------------------

/-- The first cells agree, whatever is below them. -/
inductive SameHead : Term → Term → Prop
  | leaf {t u : Term} : t.args = [] → u.args = [] → t.erase = u.erase → SameHead t u
  | pair {p q : Addr} {h t h' t' : Term} : SameHead (.pair p h t) (.pair q h' t')
  | appl {p q : Addr} {f : Functor} {as bs : Fin f.arityOfFE → Term} :
      SameHead (.appl p f as) (.appl q f bs)

theorem SameHead.length_args {t u : Term} (h : SameHead t u) : t.args.length = u.args.length := by
  cases h with
  | leaf ht hu => rw [ht, hu]
  | pair => rfl
  | appl => simp [args]

theorem SameHead.erase_eq {t u : Term} (h : SameHead t u)
    (hargs : t.args.map erase = u.args.map erase) : t.erase = u.erase := by
  cases h with
  | leaf _ _ herase => exact herase
  | pair => simp_all [args, erase]
  | appl =>
      simp only [args, List.map_ofFn] at hargs
      have hfun := List.ofFn_injective hargs
      simp only [erase, Term.appl.injEq, heq_eq_eq, true_and]
      exact hfun

end Term

theorem CString.codes_inj {s t : CString} : s.codes = t.codes ↔ s = t := by
  constructor
  · intro h
    have hbytes := List.map_injective_iff.mpr (fun _ _ => UInt8.toNat_inj.mp) h
    cases s; cases t; simp_all
  · rintro rfl
    rfl

theorem Atom.codes_inj {a b : Atom} : a.strOfAE.codes = b.strOfAE.codes ↔ a = b := by
  rw [CString.codes_inj]
  cases a; cases b; simp

theorem functorKey_inj {a b : Atom} {m n : ℕ} : functorKey a m = functorKey b n ↔ a = b ∧ m = n := by
  simp [functorKey, Atom.codes_inj, and_comm]

namespace Term

/-- The kind of a term. -/
def rank (t : Term) : ℕ := t.key.rank

/-- The keys of numbers other than doubles are their values. -/
theorem value?_eq_key {t : Term} (h : t.rank = 3 ∨ t.rank = 4) : t.value? = some t.key.value := by
  cases t with
  | int n => simp [value?, eTypeOfTerm, EType.value?, key]
  | blob p b =>
      cases b with
      | longInt n => rfl
      | bigInt b => cases b <;> rfl
      | _ => simp [rank, key] at h
  | _ => simp [rank, key, dotKey, Functor.key, functorKey] at h

theorem args_eq_nil {t : Term} (h : t.rank < 7) : t.args = [] := by
  cases t with
  | pair | appl => simp [rank, key, dotKey, Functor.key, functorKey] at h
  | _ => rfl

/-- The form of the terms of each kind. -/
structure RankForms (t : Term) : Prop where
  isVar : t.rank = 0 → ∃ v, t = .var v
  isDBRef : t.rank = 1 → ∃ p, t = .blob p .dbRef
  isDouble : t.rank = 2 → ∃ p x, t = .blob p (.double x)
  isRat : t.rank = 3 → ∃ p q, t = .blob p (.bigInt (.rat q))
  isInteger : t.rank = 4 → (∃ n, t = .int n) ∨ (∃ p n, t = .blob p (.longInt n)) ∨
    ∃ p z, t = .blob p (.bigInt (.int z))
  isString : t.rank = 5 → ∃ p s, t = .blob p (.string s)
  isAtom : t.rank = 6 → ∃ a, t = .atom a
  isCompound : t.rank = 7 → (∃ p h tl, t = .pair p h tl) ∨ ∃ p f as, t = .appl p f as

theorem rankForms (t : Term) : RankForms t := by
  cases t with
  | blob p b =>
      cases b with
      | bigInt b => cases b <;> constructor <;> simp [rank, key, BigNum.key]
      | _ => constructor <;> simp [rank, key]
  | appl p f as =>
      exact ⟨nofun, nofun, nofun, nofun, nofun, nofun, nofun, fun _ => .inr ⟨p, f, as, rfl⟩⟩
  | _ => constructor <;> simp [rank, key, dotKey, functorKey]

theorem rank_cases (t : Term) : t.rank = 0 ∨ t.rank = 1 ∨ t.rank = 2 ∨ (t.rank = 3 ∨ t.rank = 4) ∨
    t.rank = 5 ∨ t.rank = 6 ∨ t.rank = 7 := by
  cases t with
  | blob p b =>
      cases b with
      | bigInt b => cases b <;> simp [rank, key, BigNum.key]
      | _ => simp [rank, key]
  | _ => simp [rank, key, dotKey, Functor.key, functorKey]

/-- The key of a cell determines the cell. -/
theorem sameHead_of_key_eq {t u : Term} (h : t.key = u.key) : SameHead t u := by
  have hrank : u.rank = t.rank := (congrArg Key.rank h).symm
  rcases t.rank_cases with ht | ht | ht | ht | ht | ht | ht
  · obtain ⟨v, rfl⟩ := t.rankForms.isVar ht
    obtain ⟨w, rfl⟩ := u.rankForms.isVar (hrank.trans ht)
    obtain rfl : v = w := by simpa [key] using h
    exact .leaf rfl rfl rfl
  · obtain ⟨p, rfl⟩ := t.rankForms.isDBRef ht
    obtain ⟨q, rfl⟩ := u.rankForms.isDBRef (hrank.trans ht)
    obtain rfl : p = q := by simpa [key] using h
    exact .leaf rfl rfl rfl
  · obtain ⟨p, x, rfl⟩ := t.rankForms.isDouble ht
    obtain ⟨q, y, rfl⟩ := u.rankForms.isDouble (hrank.trans ht)
    obtain rfl : x = y := by simpa [key, Binary64.totalKey_inj] using h
    exact .leaf rfl rfl rfl
  · have hvalue := value?_eq_key (hrank.symm ▸ ht : u.rank = 3 ∨ u.rank = 4)
    rw [← h] at hvalue
    exact .leaf (args_eq_nil (by omega)) (args_eq_nil (by omega))
      (identical_of_value?_eq (value?_eq_key ht) hvalue)
  · obtain ⟨p, s, rfl⟩ := t.rankForms.isString ht
    obtain ⟨q, s', rfl⟩ := u.rankForms.isString (hrank.trans ht)
    obtain rfl : s = s' := by simpa [key, CString.codes_inj] using h
    exact .leaf rfl rfl rfl
  · obtain ⟨a, rfl⟩ := t.rankForms.isAtom ht
    obtain ⟨b, rfl⟩ := u.rankForms.isAtom (hrank.trans ht)
    obtain rfl : a = b := by simpa [key, Atom.codes_inj] using h
    exact .leaf rfl rfl rfl
  · rcases t.rankForms.isCompound ht with ⟨p, hd, tl, rfl⟩ | ⟨p, f, as, rfl⟩ <;>
      rcases u.rankForms.isCompound (hrank.trans ht) with ⟨q, hd', tl', rfl⟩ | ⟨q, g, bs, rfl⟩
    · exact .pair
    · exact absurd ((functorKey_inj.mp h.symm)) g.not_list
    · exact absurd ((functorKey_inj.mp h)) f.not_list
    · obtain ⟨hname, harity⟩ := functorKey_inj.mp h
      obtain rfl : f = g := by cases f; cases g; simp_all
      exact .appl

theorem keys_eq (t : Term) : t.keys = t.key :: (blockCells t.args).map key := by
  rw [keys, cells_eq, List.map_cons]

theorem keys_block_cons (t : Term) (ts : List Term) :
    (blockCells (t :: ts)).map key = t.keys ++ (blockCells ts).map key := by
  rw [blockCells_cons, List.map_append, keys]

/-- The keys of a term determine it, and where they end in a longer sequence. -/
def Decodable (t : Term) : Prop :=
  ∀ (u : Term) (r r' : List Key), t.keys ++ r = u.keys ++ r' → t.erase = u.erase ∧ r = r'

theorem decodable_block {ts : List Term} (h : ∀ t ∈ ts, t.Decodable) :
    ∀ (us : List Term) (r r' : List Key), ts.length = us.length →
      (blockCells ts).map key ++ r = (blockCells us).map key ++ r' →
      ts.map erase = us.map erase ∧ r = r' := by
  induction ts with
  | nil =>
      intro us r r' hlen heq
      obtain rfl := List.length_eq_zero_iff.mp hlen.symm
      exact ⟨rfl, heq⟩
  | cons t ts ih =>
      intro us r r' hlen heq
      obtain ⟨u, us, rfl⟩ := List.exists_cons_of_length_eq_add_one hlen.symm
      rw [keys_block_cons, keys_block_cons, List.append_assoc, List.append_assoc] at heq
      obtain ⟨hhead, hrest⟩ := h t (List.mem_cons_self ..) u _ _ heq
      obtain ⟨htail, hr⟩ := ih (fun v hv => h v (List.mem_cons_of_mem _ hv)) us r r'
        (by simpa using hlen) hrest
      exact ⟨by rw [List.map_cons, List.map_cons, hhead, htail], hr⟩

theorem decodable (t : Term) : t.Decodable := by
  induction t using args_induction with
  | h t ih =>
      intro u r r' heq
      rw [keys_eq, keys_eq, List.cons_append, List.cons_append, List.cons.injEq] at heq
      have hhead := sameHead_of_key_eq heq.1
      obtain ⟨hargs, hr⟩ := decodable_block ih u.args r r' hhead.length_args heq.2
      exact ⟨hhead.erase_eq hargs, hr⟩

theorem keys_erase (t : Term) : t.erase.keys = t.keys := by
  induction t with
  | pair p h t ihh iht =>
      simp only [keys] at ihh iht
      simp only [keys, erase, cells, List.map_cons, List.map_append, ihh, iht]
      rfl
  | appl p f as ih =>
      simp only [keys] at ih
      simp only [keys, erase, cells, List.map_cons, List.map_flatten, List.map_ofFn,
        Function.comp_def, ih]
      rfl
  | blob p b => cases b <;> rfl
  | _ => rfl

theorem keys_eq_iff {t u : Term} : t.keys = u.keys ↔ t.Identical u := by
  constructor
  · intro h
    exact (t.decodable u [] [] (by rw [h])).1
  · intro h
    rw [← keys_erase, h, keys_erase]

/-- Terms that the standard order does not tell apart are identical. -/
theorem standardOrder_eq_iff {t u : Term} : standardOrder t u = .eq ↔ t.Identical u := by
  rw [← keys_eq_iff]
  exact Lex.compareLex_eq_iff Key.cmp

end Term

end Yap
