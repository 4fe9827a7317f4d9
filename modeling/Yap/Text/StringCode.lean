-- SUMMARY: string_code/3 with and without an index and get_string_code/3, and the calls that give the right code points.
import Yap.Text.Compare

/-!
# Characters of a string

The functions follow `string_code3`, `cont_string_code3` and `get_string_code3` of
`atomic.c`, for a string and an index that is an integer or unbound. The code point is
what is unified with the third argument, here a variable.
-/

namespace Yap

-- ---------------------------------------------------------------------------
-- Calls
-- ---------------------------------------------------------------------------

/-- A call: the code it succeeds with, if it does, and whether it has set
    `DOMAIN_ERROR_NOT_LESS_THAN_ZERO`. -/
structure CodeResult where
  code : Option ℤ
  error : Bool

/-- The character under a pointer, unless it is NUL. -/
def codeAt (ns : List ℕ) : Option ℤ :=
  let chr := (getUtf8 ns).1
  if chr = 0 then none else some chr

/-- `string_code3` with an index. -/
def stringCode3 (s : List ℕ) (indx : ℤ) : CodeResult :=
  if indx ≤ 0 then ⟨none, indx < 0⟩ else ⟨codeAt (skipUtf8 s indx.toNat), false⟩

/-- `get_string_code3`: the error for a negative index does not end the call. -/
def getStringCode3 (s : List ℕ) (indx : ℤ) : CodeResult :=
  if indx < 0 then ⟨codeAt s, true⟩
  else if indx = 0 then ⟨none, false⟩
  else ⟨codeAt (skipUtf8 s (indx - 1).toNat), false⟩

/-- One turn of `cont_string_code3`: index and code, and the offsets for the next turn
    unless it is the last. It has no value where it looks behind the NUL. -/
def contStringCode3 (s0 : List ℕ) (i j : ℕ) : Option ((ℕ × ℤ) × Option (ℕ × ℕ)) :=
  let (chr, l) := getUtf8 (s0.drop i)
  match s0[i + l]? with
  | none => none
  | some 0 => some ((j, chr), none)
  | some _ => some ((j + 1, chr), some (i + l, j + 1))

/-- The answers of `string_code3` with an unbound index, from two offsets on. -/
inductive StringCodes (s0 : List ℕ) : ℕ → ℕ → List (ℕ × ℤ) → Prop
  | last {i j : ℕ} {a : ℕ × ℤ} : contStringCode3 s0 i j = some (a, none) → StringCodes s0 i j [a]
  | next {i j i' j' : ℕ} {a : ℕ × ℤ} {as : List (ℕ × ℤ)} :
      contStringCode3 s0 i j = some (a, some (i', j')) → StringCodes s0 i' j' as → StringCodes s0 i j (a :: as)

-- ---------------------------------------------------------------------------
-- What the calls should give
-- ---------------------------------------------------------------------------

/-- The code point at an index that counts from 1. -/
def nthCode (s : List ℕ) (i : ℤ) : Option ℤ :=
  if 1 ≤ i then (s[(i - 1).toNat]?).map Int.ofNat else none

/-- The code points with their indices, which go on from `j`. -/
def codesFrom (j : ℕ) : List ℕ → List (ℕ × ℤ)
  | [] => []
  | c :: s => (j + 1, (c : ℤ)) :: codesFrom (j + 1) s

/-- The ways to get at a character. -/
inductive Access where
  | stringCode (i : ℤ)
  | getStringCode (i : ℤ)
  | enumerate

namespace Access

/-- The call does what it is for. -/
def Right (s : List ℕ) : Access → Prop
  | stringCode i => (stringCode3 (nulTerminated s) i).code = nthCode s i
  | getStringCode i => (getStringCode3 (nulTerminated s) i).code = nthCode s i
  | enumerate => StringCodes (nulTerminated s) 0 0 (codesFrom 0 s)

/-- When it does: with an index `string_code` gives the next character, which may be the
    same; `get_string_code` takes a negative index for the first one; and without an
    index the last answer has the index of the one before. -/
def Holds (s : List ℕ) : Access → Prop
  | stringCode i => i ≤ 0 ∨ s[i.toNat]? = s[i.toNat - 1]?
  | getStringCode i => 0 ≤ i ∨ s = []
  | enumerate => False

end Access

-- ---------------------------------------------------------------------------
-- Reading
-- ---------------------------------------------------------------------------

section

variable {s : List ℕ}

theorem skipUtf8_nulTerminated (hs : ∀ c ∈ s, Scalar c) (n : ℕ) :
    skipUtf8 (nulTerminated s) n = nulTerminated (s.drop n) := by
  induction n generalizing s with
  | zero => rfl
  | succ n ih =>
    cases s with
    | nil => rfl
    | cons c s =>
      have hc := hs c (List.mem_cons_self ..)
      have hne : nulTerminated (c :: s) ≠ [] := by simp [nulTerminated]
      rw [skipUtf8, if_neg hne, nulTerminated_cons, iterate_encodeChar hc]
      simp only [if_neg hc.pos.ne', List.drop_left]
      exact ih fun d hd => hs d (List.mem_cons_of_mem _ hd)

/-- Behind `n` characters stands the next one, or the NUL. -/
theorem codeAt_skipUtf8 (hs : ∀ c ∈ s, Scalar c) (n : ℕ) :
    codeAt (skipUtf8 (nulTerminated s) n) = (s[n]?).map Int.ofNat := by
  rw [skipUtf8_nulTerminated hs]
  cases hdrop : s.drop n with
  | nil =>
    rw [List.getElem?_eq_none (List.drop_eq_nil_iff.mp hdrop)]
    rfl
  | cons c s' =>
    have hget : s[n]? = some c := by
      rw [← Nat.add_zero n, ← List.getElem?_drop, hdrop]
      rfl
    have hc := hs c (List.mem_of_getElem? hget)
    rw [codeAt, nulTerminated_cons, getUtf8_encodeChar hc, hget]
    have hpos := hc.pos
    simp only [Option.map_some, Int.ofNat_eq_natCast]
    rw [if_neg (by omega)]

theorem codeAt_nulTerminated (hs : ∀ c ∈ s, Scalar c) : codeAt (nulTerminated s) = (s[0]?).map Int.ofNat :=
  codeAt_skipUtf8 hs 0

theorem map_ofNat_inj (a b : Option ℕ) : a.map Int.ofNat = b.map Int.ofNat ↔ a = b :=
  (Option.map_injective fun _ _ h => Int.ofNat.inj h).eq_iff

theorem stringCode_right_iff (hs : ∀ c ∈ s, Scalar c) (i : ℤ) :
    (Access.stringCode i).Right s ↔ (Access.stringCode i).Holds s := by
  simp only [Access.Right, Access.Holds, stringCode3, nthCode]
  by_cases hi : i ≤ 0
  · rw [if_pos hi, if_neg (by omega)]
    exact iff_of_true rfl (.inl hi)
  · have hpred : (i - 1).toNat = i.toNat - 1 := by omega
    rw [if_neg hi, if_pos (by omega), codeAt_skipUtf8 hs, map_ofNat_inj, hpred]
    simp [hi]

theorem getStringCode_right_iff (hs : ∀ c ∈ s, Scalar c) (i : ℤ) :
    (Access.getStringCode i).Right s ↔ (Access.getStringCode i).Holds s := by
  simp only [Access.Right, Access.Holds, getStringCode3, nthCode]
  rcases lt_trichotomy i 0 with hi | rfl | hi
  · rw [if_pos hi, if_neg (by omega), codeAt_nulTerminated hs]
    cases s with
    | nil => simp
    | cons c s => simp [not_le.mpr hi]
  · simp
  · rw [if_neg (by omega), if_neg (by omega), if_pos (by omega), codeAt_skipUtf8 hs]
    exact iff_of_true rfl (.inl hi.le)

-- ---------------------------------------------------------------------------
-- Enumerating
-- ---------------------------------------------------------------------------

/-- The turn at a character: at the last one the index is not increased. -/
theorem contStringCode3_cons {c : ℕ} (hc : Scalar c) (a s : List ℕ) (hs : ∀ d ∈ s, Scalar d) :
    contStringCode3 (nulTerminated (a ++ c :: s)) (encode a).length a.length =
      if s = [] then some ((a.length, (c : ℤ)), none)
      else some ((a.length + 1, (c : ℤ)), some ((encode (a ++ [c])).length, a.length + 1)) := by
  have hsplit : nulTerminated (a ++ c :: s) = encode a ++ (encodeChar c ++ nulTerminated s) := by
    rw [nulTerminated, encode_append, encode_cons, List.append_assoc, List.append_assoc]
    rfl
  have hnext : (nulTerminated (a ++ c :: s))[(encode a).length + (encodeChar c).length]? = (nulTerminated s)[0]? := by
    rw [hsplit, List.getElem?_append_right (by omega), List.getElem?_append_right (by omega)]
    congr 1
    omega
  have hoffset : (encode a).length + (encodeChar c).length = (encode (a ++ [c])).length := by
    rw [encode_append, List.length_append, encode_cons]
    simp [encode]
  unfold contStringCode3
  rw [hsplit, List.drop_left, getUtf8_encodeChar hc, ← hsplit]
  simp only [hnext, ← hoffset]
  cases s with
  | nil => rfl
  | cons d s =>
    have hd := hs d (List.mem_cons_self ..)
    obtain ⟨b, bs, hb⟩ := List.exists_cons_of_ne_nil (encodeChar_ne_nil hd.lt)
    have hpos : b ≠ 0 := (encodeChar_mem hd (hb ▸ List.mem_cons_self ..)).1.ne'
    rw [nulTerminated_head hd.lt, hb]
    simp

/-- What is enumerated: every code point, the last one with the index of the one before. -/
theorem stringCodes (a : List ℕ) {c : ℕ} (hc : Scalar c) (hs : ∀ d ∈ s, Scalar d) :
    StringCodes (nulTerminated (a ++ s ++ [c])) (encode a).length a.length
      (codesFrom a.length s ++ [((a ++ s).length, (c : ℤ))]) := by
  induction s generalizing a with
  | nil =>
    have hstep := contStringCode3_cons hc a [] (List.forall_mem_nil _)
    rw [if_pos rfl] at hstep
    simpa [codesFrom] using StringCodes.last hstep
  | cons d s ih =>
    have hd := hs d (List.mem_cons_self ..)
    have hs' := fun e he => hs e (List.mem_cons_of_mem d he)
    have hrest : ∀ e ∈ s ++ [c], Scalar e := by
      intro e he
      rcases List.mem_append.mp he with he | he
      · exact hs' e he
      · exact List.mem_singleton.mp he ▸ hc
    have hstep := contStringCode3_cons hd a (s ++ [c]) hrest
    rw [if_neg (by simp)] at hstep
    have hih := ih (a ++ [d]) hs'
    simp only [List.append_assoc, List.cons_append, List.nil_append, List.length_append, List.length_cons,
      List.length_nil] at hih hstep ⊢
    exact .next hstep hih

/-- So the enumeration is never the one of the code points. -/
theorem not_stringCodes {t : List ℕ} {i j : ℕ} {as : List (ℕ × ℤ)} (h : StringCodes (nulTerminated t) i j as)
    {a : List ℕ} (hs : ∀ d ∈ s, Scalar d) (ht : t = a ++ s) (hi : i = (encode a).length) (hj : j = a.length) :
    as ≠ codesFrom j s := by
  induction h generalizing a s with
  | last hstep =>
    subst ht hi hj
    cases s with
    | nil => exact List.cons_ne_nil _ _
    | cons c s =>
      rw [contStringCode3_cons (hs c (List.mem_cons_self ..)) a s fun d hd => hs d (List.mem_cons_of_mem _ hd)] at hstep
      split at hstep
      case isTrue =>
        simp only [Option.some.injEq, Prod.mk.injEq, and_true] at hstep
        subst hstep
        simp [codesFrom]
      case isFalse => simp at hstep
  | @next i j i' j' x as hstep _ ih =>
    subst ht hi hj
    cases s with
    | nil => exact List.cons_ne_nil _ _
    | cons c s =>
      have hs' := fun d hd => hs d (List.mem_cons_of_mem c hd)
      rw [contStringCode3_cons (hs c (List.mem_cons_self ..)) a s hs'] at hstep
      split at hstep
      case isTrue => simp at hstep
      case isFalse =>
        simp only [Option.some.injEq, Prod.mk.injEq] at hstep
        obtain ⟨-, hi', hj'⟩ := hstep
        have hne := ih (a := a ++ [c]) hs' (by simp) hi'.symm (by simp [← hj'])
        intro heq
        rw [codesFrom, List.cons.injEq, hj'] at heq
        exact hne heq.2

theorem enumerate_not_right (hs : ∀ c ∈ s, Scalar c) : ¬ Access.enumerate.Right s := fun h =>
  not_stringCodes (a := []) h hs rfl rfl rfl rfl

end

-- ---------------------------------------------------------------------------
-- The calls together
-- ---------------------------------------------------------------------------

end Yap
