-- SUMMARY: The comparison of the first characters of two texts, and when it tells the texts apart.
import Yap.Text.SubAtom

/-!
# Comparing texts

`cmpn_utf8` compares a character of two bytes in full, and of a longer one the first and
the last byte. It does not stop at the end of texts that it has found equal. Here a text
is given with its NUL, and a place behind the NUL is not read.
-/

namespace Yap

-- ---------------------------------------------------------------------------
-- cmpn_utf8
-- ---------------------------------------------------------------------------

/-- `cmpn_utf8`, without a value where it reads behind a text or moves by an error. -/
def cmpn (pt1 pt2 : List ℕ) : ℕ → Option ℤ
  | 0 => some 0
  | n + 1 => do
    let a : ℕ ← pt1[0]?
    let b : ℕ ← pt2[0]?
    if a ≠ b then some ((a : ℤ) - b)
    else
      let (_, l) ← iterate pt1
      let c : ℕ ← pt1[l - 1]?
      let d : ℕ ← pt2[l - 1]?
      if l ≠ 1 ∧ c ≠ d then some ((c : ℤ) - d) else cmpn (pt1.drop l) (pt2.drop l) n

/-- Where it has a value, this is the comparison that `sub_atom/5` is modelled with. -/
theorem cmpnUtf8_eq_of_cmpn {pt1 pt2 : List ℕ} {n : ℕ} {d : ℤ} (h : cmpn pt1 pt2 n = some d) :
    cmpnUtf8 pt1 pt2 n = true ↔ d = 0 := by
  induction n generalizing pt1 pt2 with
  | zero =>
    obtain rfl := Option.some.inj h
    exact iff_of_true rfl rfl
  | succ n ih =>
    simp only [cmpn, Option.bind_eq_bind, Option.bind_eq_some_iff] at h
    obtain ⟨a, ha, b, hb, h⟩ := h
    have hab : pt1.getD 0 0 = a ∧ pt2.getD 0 0 = b := by simp [List.getD_eq_getElem?_getD, ha, hb]
    rw [cmpnUtf8, hab.1, hab.2]
    by_cases hne : a = b
    · subst hne
      simp only [ne_eq, not_true_eq_false, if_false, Option.bind_eq_some_iff] at h ⊢
      obtain ⟨⟨x, l⟩, hiter, c, hc, e, he, h⟩ := h
      have hce : pt1.getD (l - 1) 0 = c ∧ pt2.getD (l - 1) 0 = e := by simp [List.getD_eq_getElem?_getD, hc, he]
      simp only [hiter, hce.1, hce.2]
      by_cases hlast : l ≠ 1 ∧ c ≠ e
      · simp only [ne_eq] at h hlast
        rw [if_pos hlast] at h ⊢
        obtain rfl := Option.some.inj h
        refine iff_of_false Bool.false_ne_true ?_
        omega
      · simp only [ne_eq] at h hlast
        rw [if_neg hlast] at h ⊢
        exact ih h
    · simp only [ne_eq, hne, not_false_eq_true, if_true, Option.some.injEq] at h ⊢
      refine iff_of_false Bool.false_ne_true ?_
      omega

-- ---------------------------------------------------------------------------
-- Characters that look alike
-- ---------------------------------------------------------------------------

/-- The characters have the same first byte and the same last byte. -/
def Alike (c d : ℕ) : Prop :=
  (encodeChar c).head? = (encodeChar d).head? ∧ (encodeChar c).getLast? = (encodeChar d).getLast?

instance (c d : ℕ) : Decidable (Alike c d) := inferInstanceAs (Decidable (_ ∧ _))

theorem Alike.refl (c : ℕ) : Alike c c := ⟨rfl, rfl⟩

/-- The first byte gives the number of bytes. -/
theorem length_eq_of_head {c d : ℕ} (hc : c < 0x110000) (hd : d < 0x110000)
    (h : (encodeChar c).head? = (encodeChar d).head?) : (encodeChar c).length = (encodeChar d).length := by
  unfold encodeChar at h ⊢
  split_ifs at h ⊢ <;> simp at h ⊢ <;> omega

theorem getElem?_last {xs ys : List ℕ} (h : xs ≠ []) : (xs ++ ys)[xs.length - 1]? = xs.getLast? := by
  have hpos := List.length_pos_iff.mpr h
  rw [List.getElem?_append_left (by omega), List.getLast?_eq_getElem?]

/-- A text with its NUL. -/
def nulTerminated (s : List ℕ) : List ℕ := encode s ++ [0]

theorem nulTerminated_cons (c : ℕ) (s : List ℕ) : nulTerminated (c :: s) = encodeChar c ++ nulTerminated s := by
  rw [nulTerminated, encode_cons, List.append_assoc]
  rfl

theorem nulTerminated_head {c : ℕ} (h : c < 0x110000) (s : List ℕ) :
    (nulTerminated (c :: s))[0]? = (encodeChar c).head? := by
  have hpos := List.length_pos_iff.mpr (encodeChar_ne_nil h)
  rw [nulTerminated_cons, List.getElem?_append_left hpos, List.head?_eq_getElem?]

/-- One turn: characters that do not look alike are told apart. -/
theorem cmpn_cons {c d : ℕ} (hc : Scalar c) (hd : Scalar d) (s t : List ℕ) (n : ℕ) :
    (Alike c d → cmpn (nulTerminated (c :: s)) (nulTerminated (d :: t)) (n + 1) =
      cmpn (nulTerminated s) (nulTerminated t) n) ∧
    (¬ Alike c d → ∃ z ≠ 0, cmpn (nulTerminated (c :: s)) (nulTerminated (d :: t)) (n + 1) = some z) := by
  obtain ⟨a, as, ha⟩ := List.exists_cons_of_ne_nil (encodeChar_ne_nil hc.lt)
  obtain ⟨b, bs, hb⟩ := List.exists_cons_of_ne_nil (encodeChar_ne_nil hd.lt)
  obtain ⟨x, hx⟩ := Option.isSome_iff_exists.mp (List.getLast?_isSome.mpr (encodeChar_ne_nil hc.lt))
  obtain ⟨y, hy⟩ := Option.isSome_iff_exists.mp (List.getLast?_isSome.mpr (encodeChar_ne_nil hd.lt))
  have hheadc : (encodeChar c).head? = some a := by rw [ha]; rfl
  have hheadd : (encodeChar d).head? = some b := by rw [hb]; rfl
  have hiter : iterate (nulTerminated (c :: s)) = some (c, (encodeChar c).length) := by
    rw [nulTerminated_cons, iterate_encodeChar hc]
  rw [cmpn, nulTerminated_head hc.lt, nulTerminated_head hd.lt, hheadc, hheadd, hiter]
  simp only [Option.bind_eq_bind, Option.bind_some, Alike, hheadc, hheadd, hx, hy, Option.some.injEq]
  by_cases hab : a = b
  · subst hab
    have hlen := length_eq_of_head hc.lt hd.lt (hheadc.trans hheadd.symm)
    have hlastc : (nulTerminated (c :: s))[(encodeChar c).length - 1]? = some x := by
      rw [nulTerminated_cons, getElem?_last (encodeChar_ne_nil hc.lt), hx]
    have hlastd : (nulTerminated (d :: t))[(encodeChar c).length - 1]? = some y := by
      rw [hlen, nulTerminated_cons, getElem?_last (encodeChar_ne_nil hd.lt), hy]
    have hdropc : (nulTerminated (c :: s)).drop (encodeChar c).length = nulTerminated s := by
      rw [nulTerminated_cons, List.drop_left]
    have hdropd : (nulTerminated (d :: t)).drop (encodeChar c).length = nulTerminated t := by
      rw [hlen, nulTerminated_cons, List.drop_left]
    simp only [ne_eq, not_true_eq_false, if_false, hlastc, hlastd, Option.bind_some, hdropc, hdropd, true_and]
    constructor
    · rintro rfl
      rw [if_neg fun h => h.2 rfl]
    · intro hxy
      -- in one byte the first and the last are the same
      have hone : (encodeChar c).length ≠ 1 := by
        intro hone
        have hone' := hlen ▸ hone
        rw [ha, List.length_cons, Nat.succ_inj, List.length_eq_zero_iff] at hone
        rw [hb, List.length_cons, Nat.succ_inj, List.length_eq_zero_iff] at hone'
        rw [ha, hone] at hx
        rw [hb, hone'] at hy
        exact hxy ((Option.some.inj hx).symm.trans (Option.some.inj hy))
      refine ⟨(x : ℤ) - y, by omega, ?_⟩
      rw [if_pos ⟨hone, hxy⟩]
  · simp only [ne_eq, hab, not_false_eq_true, if_true, false_and, false_imp_iff, true_and]
    exact fun _ => ⟨(a : ℤ) - b, by omega, rfl⟩

-- ---------------------------------------------------------------------------
-- Texts
-- ---------------------------------------------------------------------------

/-- The comparison tells whether the first `n` characters are equal. -/
def CmpnRight (s t : List ℕ) (n : ℕ) : Prop :=
  ∃ d, cmpn (nulTerminated s) (nulTerminated t) n = some d ∧ (d = 0 ↔ s.take n = t.take n)

/-- The first `n` characters that look alike are equal, and the texts do not end before
    them, or only by the NUL. -/
def NotTakenFor (s t : List ℕ) (n : ℕ) : Prop :=
  List.Forall₂ Alike (s.take n) (t.take n) → s.take n = t.take n ∧ n ≤ s.length + 1

theorem forall₂_alike_refl (s : List ℕ) : List.Forall₂ Alike s s :=
  List.forall₂_same.mpr fun c _ => Alike.refl c

/-- What the comparison gives: nothing, 0 or a difference. -/
theorem cmpn_eq {s t : List ℕ} (hs : ∀ c ∈ s, Scalar c) (ht : ∀ c ∈ t, Scalar c) (n : ℕ) :
    (List.Forall₂ Alike (s.take n) (t.take n) →
      cmpn (nulTerminated s) (nulTerminated t) n = if n ≤ s.length + 1 then some 0 else none) ∧
    (¬ List.Forall₂ Alike (s.take n) (t.take n) →
      ∃ z ≠ 0, cmpn (nulTerminated s) (nulTerminated t) n = some z) := by
  induction n generalizing s t with
  | zero =>
    constructor
    · intro _
      rfl
    · intro h
      exact absurd List.Forall₂.nil h
  | succ n ih =>
    cases s with
    | nil =>
      cases t with
      | nil =>
        constructor
        · intro _
          cases n with
          | zero => rfl
          | succ n => rfl
        · intro h
          exact absurd List.Forall₂.nil h
      | cons d t =>
        have hd := ht d (List.mem_cons_self ..)
        obtain ⟨b, bs, hb⟩ := List.exists_cons_of_ne_nil (encodeChar_ne_nil hd.lt)
        have hpos : b ≠ 0 := (encodeChar_mem hd (hb ▸ List.mem_cons_self ..)).1.ne'
        refine ⟨fun h => (by cases h), fun _ => ⟨(0 : ℕ) - (b : ℤ), by omega, ?_⟩⟩
        rw [cmpn, nulTerminated_head hd.lt, hb]
        simp [nulTerminated, encode, hpos.symm]
    | cons c s =>
      have hc := hs c (List.mem_cons_self ..)
      cases t with
      | nil =>
        obtain ⟨a, as, ha⟩ := List.exists_cons_of_ne_nil (encodeChar_ne_nil hc.lt)
        have hpos : a ≠ 0 := (encodeChar_mem hc (ha ▸ List.mem_cons_self ..)).1.ne'
        refine ⟨fun h => (by cases h), fun _ => ⟨(a : ℤ) - (0 : ℕ), by omega, ?_⟩⟩
        rw [cmpn, nulTerminated_head hc.lt, ha]
        simp [nulTerminated, encode, hpos]
      | cons d t =>
        obtain ⟨halike, hdiff⟩ := cmpn_cons hc (ht d (List.mem_cons_self ..)) s t n
        obtain ⟨hall, hsome⟩ := ih (fun e he => hs e (List.mem_cons_of_mem _ he))
          (fun e he => ht e (List.mem_cons_of_mem _ he))
        rw [List.take_succ_cons, List.take_succ_cons, List.forall₂_cons]
        constructor
        · rintro ⟨hcd, hst⟩
          rw [halike hcd, hall hst, List.length_cons]
          simp only [Nat.add_le_add_iff_right]
        · intro hnot
          by_cases hcd : Alike c d
          · rw [halike hcd]
            exact hsome fun hst => hnot ⟨hcd, hst⟩
          · exact hdiff hcd

theorem cmpnRight_iff {s t : List ℕ} (hs : ∀ c ∈ s, Scalar c) (ht : ∀ c ∈ t, Scalar c) (n : ℕ) :
    CmpnRight s t n ↔ NotTakenFor s t n := by
  obtain ⟨hall, hsome⟩ := cmpn_eq hs ht n
  unfold CmpnRight NotTakenFor
  by_cases halike : List.Forall₂ Alike (s.take n) (t.take n)
  · rw [hall halike]
    simp only [halike, true_imp_iff]
    by_cases hn : n ≤ s.length + 1
    · simp [hn]
    · simp [hn]
  · obtain ⟨z, hz, hcmp⟩ := hsome halike
    have hne : s.take n ≠ t.take n := by
      intro heq
      rw [heq] at halike
      exact halike (forall₂_alike_refl _)
    simp [hcmp, halike, hz, hne]

-- ---------------------------------------------------------------------------
-- The functions together
-- ---------------------------------------------------------------------------

/-- `cmpn_utf8` tells whether the first `n` characters are equal, `skip_utf8` stops
    where character `n` begins, and `strlen_utf8` counts the characters. -/
structure Utf8Right (s t : List ℕ) (n : ℕ) : Prop where
  cmpn : CmpnRight s t n
  skip : skipUtf8 (encode s) n = encode (s.drop n)
  strlen : strlenUtf8 (encode s) = s.length

/-- The three functions are right about texts that the comparison does not take for one
    another. -/
theorem utf8Right_iff {s t : List ℕ} (hs : ∀ c ∈ s, Scalar c) (ht : ∀ c ∈ t, Scalar c) (n : ℕ) :
    Utf8Right s t n ↔ NotTakenFor s t n := by
  rw [← cmpnRight_iff hs ht]
  constructor
  · intro h
    exact h.cmpn
  · intro h
    exact ⟨h, skipUtf8_encode hs n, strlenUtf8_encode hs⟩

theorem scalar_of_decide {s : List ℕ} (h : ∀ c ∈ s, 0 < c ∧ c < 0x110000 ∧ ¬ Surrogate c) : ∀ c ∈ s, Scalar c :=
  fun c hc => ⟨(h c hc).1, (h c hc).2.1, (h c hc).2.2⟩

/-- Two texts that differ in a character of two bytes. -/
theorem utf8Right_iff_accents : Utf8Right [0xE9, 0x61] [0xE8, 0x61] 2 ↔ NotTakenFor [0xE9, 0x61] [0xE8, 0x61] 2 :=
  utf8Right_iff (scalar_of_decide (by decide)) (scalar_of_decide (by decide)) 2

/-- Two ideographs that differ in their middle byte are taken for one another. -/
theorem not_utf8Right : ¬ Utf8Right [0x4E00] [0x4E40] 1 := by
  rintro ⟨⟨d, hcmp, hiff⟩, -, -⟩
  obtain rfl : (0 : ℤ) = d := Option.some.inj hcmp
  exact absurd (hiff.mp rfl) (by decide)

end Yap
