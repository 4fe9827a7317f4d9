-- SUMMARY: sub_atom/5 and sub_string/5 with a given part: comparisons, the search for places, and the calls of every mode together.
import Yap.Text.Decompose

/-!
# Places of a part

A given part is looked for with `cmpn_utf8`, which may take a part for another one, and
the modes differ in what they check. Where the checks tell the truth, the calls
enumerate the decompositions with that part.
-/

namespace Yap

-- ---------------------------------------------------------------------------
-- Comparing texts
-- ---------------------------------------------------------------------------

section Compare

variable {s t : List ℕ}

theorem getD_append_left {α : Type} {xs ys : List α} {i : ℕ} (h : i < xs.length) (d : α) :
    (xs ++ ys).getD i d = xs.getD i d := by
  rw [List.getD_eq_getElem?_getD, List.getD_eq_getElem?_getD, List.getElem?_append_left h]

/-- A text agrees with itself, whatever follows. -/
theorem cmpnUtf8_append (hs : ∀ c ∈ s, Scalar c) (r r' : List ℕ) :
    cmpnUtf8 (encode s ++ r) (encode s ++ r') s.length = true := by
  induction s with
  | nil => rfl
  | cons c s ih =>
      have hc := hs c (List.mem_cons_self ..)
      have hpos := List.length_pos_iff.mpr (encodeChar_ne_nil hc.lt)
      have hbyte : ∀ i < (encodeChar c).length,
          (encodeChar c ++ (encode s ++ r)).getD i 0 = (encodeChar c ++ (encode s ++ r')).getD i 0 := by
        intro i hi
        rw [getD_append_left hi, getD_append_left hi]
      rw [List.length_cons, cmpnUtf8, encode_cons, List.append_assoc, List.append_assoc,
        if_neg (not_not.mpr (hbyte 0 hpos)), iterate_encodeChar hc]
      simp only [hbyte _ (Nat.sub_lt hpos Nat.one_pos), ne_eq, not_true_eq_false, and_false, if_false, List.drop_left]
      exact ih fun d hd => hs d (List.mem_cons_of_mem _ hd)

/-- A part of ASCII characters agrees with nothing but itself. -/
theorem cmpnUtf8_ascii (hs : ∀ c ∈ s, Scalar c) (hascii : ∀ c ∈ s, c < 0x80) (ht : ∀ c ∈ t, Scalar c) :
    cmpnUtf8 (encode t) (encode s) s.length = true ↔ s <+: t := by
  constructor
  · intro h
    induction s generalizing t with
    | nil => exact List.nil_prefix
    | cons c s ih =>
        have hc := hs c (List.mem_cons_self ..)
        have hlt := hascii c (List.mem_cons_self ..)
        have hchar : encodeChar c = [c] := by rw [encodeChar, if_pos hlt]
        rw [List.length_cons, cmpnUtf8, encode_cons, hchar] at h
        split_ifs at h with hbyte
        rw [not_not] at hbyte
        cases t with
        | nil => exact absurd hbyte.symm hc.pos.ne'
        | cons d t =>
            have hd := ht d (List.mem_cons_self ..)
            have hdlt := hd.lt
            have hdc : d = c := by
              rw [encode_cons] at hbyte
              unfold encodeChar at hbyte
              split_ifs at hbyte <;> simp at hbyte <;> omega
            subst hdc
            rw [encode_cons, hchar] at h
            have hiter : iterate ([d] ++ encode t) = some (d, 1) := by
              rw [← hchar, iterate_encodeChar hd, hchar]
              rfl
            rw [hiter] at h
            refine List.prefix_cons_inj d |>.mpr (ih (fun e he => hs e (List.mem_cons_of_mem _ he))
              (fun e he => hascii e (List.mem_cons_of_mem _ he)) (fun e he => ht e (List.mem_cons_of_mem _ he)) ?_)
            simpa using h
  · rintro ⟨r, rfl⟩
    have h := cmpnUtf8_append hs (encode r) []
    rwa [List.append_nil, ← encode_append] at h

end Compare

-- ---------------------------------------------------------------------------
-- Places
-- ---------------------------------------------------------------------------

/-- The part is in the text at a position. -/
def OccursAt (a s : List ℕ) (i : ℕ) : Prop := i + s.length ≤ a.length ∧ s <+: a.drop i

theorem OccursAt.take_eq {a s : List ℕ} {i : ℕ} (h : OccursAt a s i) : (a.drop i).take s.length = s :=
  (List.prefix_iff_eq_take.mp h.2).symm

section Places

variable {a s : List ℕ} (ha : ∀ c ∈ a, Scalar c) (hs : ∀ c ∈ s, Scalar c)

/-- With a given part the allowed pairs are its places. -/
theorem allows_given {before size after : Option ℤ} {t : ℕ × ℕ} :
    Allows a ⟨before, size, after, some s⟩ t ↔ t.2 = s.length ∧ OccursAt a s t.1 ∧ Agrees before t.1 ∧
      Agrees size t.2 ∧ Agrees after (a.length - t.1 - t.2 : ℕ) := by
  obtain ⟨i, j⟩ := t
  simp only [Allows, OccursAt, agrees_some]
  constructor
  · rintro ⟨hle, hb, hl, hx, rfl⟩
    have hlen : ((a.drop i).take j).length = j := by
      rw [List.length_take, List.length_drop]
      omega
    rw [hlen]
    exact ⟨rfl, ⟨hle, List.take_prefix j _⟩, hb, hl, hx⟩
  · rintro ⟨rfl, ⟨hle, hpre⟩, hb, hl, hx⟩
    exact ⟨hle, hb, hl, hx, List.prefix_iff_eq_take.mp hpre⟩

include ha hs

/-- A place passes the check. -/
theorem OccursAt.checkAt {i : ℕ} (hlt : a.length < 2 ^ 31) (h : OccursAt a s i) :
    checkSubStringAt i (encode a) (encode s) s.length = true := by
  obtain ⟨hle, r, hr⟩ := h
  have hcmp := cmpnUtf8_append hs (encode r) []
  rw [checkSubStringAt, sizeToCInt_of_lt (by omega), Int.toNat_natCast, skipUtf8_encode ha, ← hr, encode_append]
  rwa [List.append_nil] at hcmp

/-- The check in front of a given rest finds just the place. -/
theorem checkBef_iff {x : ℕ} (hlt : a.length < 2 ^ 31) (h : x + s.length ≤ a.length) :
    checkSubStringBef (a.length - x) (encode a) (encode s) = true ↔ OccursAt a s (a.length - x - s.length) := by
  have hdrop : ∀ c ∈ a.drop (a.length - x - s.length), Scalar c := fun c hc => ha c (List.mem_of_mem_drop hc)
  have hminv : Int.bmod (sizeToCInt (a.length - x) - strlenUtf8 (encode s)) 0x100000000 =
      (a.length - x - s.length : ℕ) := by
    have hdiff : ((a.length - x : ℕ) : ℤ) - (s.length : ℕ) = (a.length - x - s.length : ℕ) := by omega
    rw [sizeToCInt_of_lt (by omega), strlenUtf8_encode hs, hdiff]
    exact Int.bmod_eq_of_le_mul_two (by omega) (by omega)
  rw [checkSubStringBef, hminv]
  simp only [Int.toNat_natCast, skipUtf8_encode ha]
  rw [if_neg (by omega), memcmpEq_encode hs hdrop, OccursAt, and_iff_right (by omega)]

end Places

-- ---------------------------------------------------------------------------
-- The search
-- ---------------------------------------------------------------------------

section Search

variable {a s : List ℕ} (ha : ∀ c ∈ a, Scalar c) (hs : ∀ c ∈ s, Scalar c) (hascii : ∀ c ∈ s, c < 0x80)
  (hlen : s.length ≤ a.length) (hlt : a.length < 2 ^ 31)

include ha hs hascii

theorem cmpn_drop_iff (j : ℕ) : cmpnUtf8 (encode (a.drop j)) (encode s) s.length = true ↔ s <+: a.drop j :=
  cmpnUtf8_ascii hs hascii fun c hc => ha c (List.mem_of_mem_drop hc)

omit hs hascii in
/-- The pointer moves on by a character, and stays behind the text. -/
theorem drop_getUtf8 (j : ℕ) : (encode (a.drop j)).drop (getUtf8 (encode (a.drop j))).2 = encode (a.drop (j + 1)) := by
  rw [← List.drop_drop]
  cases hj : a.drop j with
  | nil => rfl
  | cons c r =>
      have hc : Scalar c := ha c (List.mem_of_mem_drop (hj ▸ List.mem_cons_self ..))
      rw [encode_cons, getUtf8_encodeChar hc]
      exact List.drop_left

include hlen hlt

/-- The search gives the first place from a position on. -/
theorem findVal_spec {i : ℕ} (hi : i ≤ a.length - s.length) :
    (findVal (encode a) (encode s) s.length a.length i (a.length - s.length - i) = none ∧
      ∀ j, i ≤ j → j ≤ a.length - s.length → ¬ OccursAt a s j) ∨
    ∃ k, findVal (encode a) (encode s) s.length a.length i (a.length - s.length - i) =
        some (k, a.length - s.length - k) ∧
      i ≤ k ∧ OccursAt a s k ∧ ∀ j, i ≤ j → j < k → ¬ OccursAt a s j := by
  induction hm : a.length - s.length - i generalizing i with
  | zero =>
      rw [findVal, skipUtf8_encode ha]
      by_cases hocc : s <+: a.drop i
      · rw [if_pos ((cmpn_drop_iff ha hs hascii i).mpr hocc)]
        refine .inr ⟨i, by rw [hm], le_rfl, ⟨by omega, hocc⟩, fun j h h' => absurd h' (by omega)⟩
      · rw [if_neg fun h => hocc ((cmpn_drop_iff ha hs hascii i).mp h), if_neg (by omega)]
        refine .inl ⟨rfl, fun j h h' hj => hocc ?_⟩
        obtain rfl : j = i := by omega
        exact hj.2
  | succ m ih =>
      rw [findVal, skipUtf8_encode ha]
      by_cases hocc : s <+: a.drop i
      · rw [if_pos ((cmpn_drop_iff ha hs hascii i).mpr hocc)]
        refine .inr ⟨i, by rw [hm], le_rfl, ⟨by omega, hocc⟩, fun j h h' => absurd h' (by omega)⟩
      · have hskip : ∀ j, i ≤ j → (i + 1 ≤ j → ¬ OccursAt a s j) → ¬ OccursAt a s j := by
          intro j hj h hj'
          rcases Nat.lt_or_ge i j with hlt' | hge
          · exact h hlt' hj'
          · obtain rfl : j = i := by omega
            exact hocc hj'.2
        rw [if_neg fun h => hocc ((cmpn_drop_iff ha hs hascii i).mp h), if_pos (by omega),
          sizeSub_of_le (by omega) (by omega), Nat.add_sub_cancel]
        rcases ih (i := i + 1) (by omega) (by omega) with ⟨hnone, hno⟩ | ⟨k, hsome, hk, hocck, hno⟩
        · exact .inl ⟨hnone, fun j h h' => hskip j h fun hj => hno j hj h'⟩
        · exact .inr ⟨k, hsome, by omega, hocck, fun j h h' => hskip j h fun hj => hno j hj h'⟩

/-- Behind a place the loop stops at the next place, or behind the last position. -/
theorem advanceVal_spec {k : ℕ} (hk : k ≤ a.length - s.length) :
    ∃ k' af, advanceVal (encode (a.drop k)) (encode s) s.length a.length k (a.length - s.length - k) = (k', af) ∧
      k < k' ∧ (∀ j, k < j → j < k' → ¬ OccursAt a s j) ∧
      (a.length - s.length < k' ∨ OccursAt a s k' ∧ af = a.length - s.length - k') := by
  induction hm : a.length - s.length - k generalizing k with
  | zero =>
      have hend : ∀ af, advanceVal (encode (a.drop (k + 1))) (encode s) s.length a.length (k + 1) af = (k + 1, af) := by
        intro af
        rw [advanceVal, if_neg (by omega)]
      rw [advanceVal, if_pos hk, drop_getUtf8 ha]
      simp only [hend, ite_self]
      exact ⟨_, _, rfl, k.lt_succ_self, fun j h h' => absurd h' (by omega), .inl (by omega)⟩
  | succ m ih =>
      rw [advanceVal, if_pos hk, drop_getUtf8 ha, sizeSub_of_le (by omega) (by omega), Nat.add_sub_cancel]
      by_cases hocc : s <+: a.drop (k + 1)
      · rw [if_pos ((cmpn_drop_iff ha hs hascii (k + 1)).mpr hocc)]
        exact ⟨_, _, rfl, k.lt_succ_self, fun j h h' => absurd h' (by omega), .inr ⟨⟨by omega, hocc⟩, by omega⟩⟩
      · rw [if_neg fun h => hocc ((cmpn_drop_iff ha hs hascii (k + 1)).mp h)]
        obtain ⟨k', af, heq, hlt', hno, hend⟩ := ih (k := k + 1) (by omega) (by omega)
        refine ⟨k', af, heq, by omega, fun j h h' hj => ?_, hend⟩
        rcases Nat.lt_or_ge (k + 1) j with hj' | hj'
        · exact hno j hj' h' hj
        · obtain rfl : j = k + 1 := by omega
          exact hocc hj.2

/-- The continuation gives the places from a position on. -/
theorem contRuns_val {i : ℕ} (hi : i ≤ a.length - s.length) :
    ∃ ks : List ℕ, ContRuns (encode a) a.length (.val (encode s)) ⟨i, s.length, a.length - s.length - i⟩
        ((ks.map fun k => (k, s.length)).map (answerAt a)) ∧
      ks.Pairwise (· < ·) ∧ ∀ j, j ∈ ks ↔ i ≤ j ∧ OccursAt a s j := by
  induction hm : a.length - s.length - i using Nat.strong_induction_on generalizing i with
  | _ m ih =>
    rw [← hm]
    rcases findVal_spec ha hs hascii hlen hlt hi with ⟨hnone, hno⟩ | ⟨k, hsome, hk, hocc, hno⟩
    · refine ⟨[], .fail ?_, List.Pairwise.nil, fun j => iff_of_false List.not_mem_nil ?_⟩
      · simp only [contSubAtomic, hnone]
      · rintro ⟨hj, hoccj⟩
        have hle := hoccj.1
        exact hno j hj (by omega) hoccj
    · have hle := hocc.1
      have hanswer : (⟨some (sizeToInt k), some (sizeToInt s.length), some (sizeToInt (a.length - s.length - k)),
          encode s⟩ : SubAnswer) = answerAt a (k, s.length) := by
        have hrest : a.length - s.length - k = a.length - k - s.length := by omega
        rw [answerAt, hocc.take_eq, sizeToInt_of_lt (by omega), sizeToInt_of_lt (by omega),
          sizeToInt_of_lt (by omega), hrest]
      obtain ⟨k', af, hadv, hkk', hno', hend⟩ := advanceVal_spec ha hs hascii hlen hlt (k := k) (by omega)
      have hstep : contSubAtomic (encode a) a.length (.val (encode s)) ⟨i, s.length, a.length - s.length - i⟩ =
          if k' > a.length - s.length then .last (answerAt a (k, s.length))
          else .next (answerAt a (k, s.length)) ⟨k', s.length, af⟩ := by
        simp only [contSubAtomic, hsome, skipUtf8_encode ha, hadv, hanswer]
      have hfirst : ∀ j, i ≤ j → OccursAt a s j → k ≤ j := by
        intro j hj hoccj
        by_contra hlt'
        exact hno j hj (not_le.mp hlt') hoccj
      rcases hend with hend | ⟨hocc', rfl⟩
      · rw [if_pos hend] at hstep
        refine ⟨[k], .last hstep, List.pairwise_singleton .., fun j => ?_⟩
        rw [List.mem_singleton]
        constructor
        · rintro rfl
          exact ⟨hk, hocc⟩
        · rintro ⟨hj, hoccj⟩
          have hkj := hfirst j hj hoccj
          have hle' := hoccj.1
          by_contra hne
          exact hno' j (by omega) (by omega) hoccj
      · have hle' := hocc'.1
        rw [if_neg (by omega)] at hstep
        obtain ⟨ks, hruns, hsorted, hmem⟩ := ih (a.length - s.length - k') (by omega) (by omega) rfl
        refine ⟨k :: ks, .next hstep hruns, List.pairwise_cons.mpr ⟨fun j hj => ?_, hsorted⟩, fun j => ?_⟩
        · exact hkk'.trans_le ((hmem j).mp hj).1
        · rw [List.mem_cons, hmem]
          constructor
          · rintro (rfl | ⟨hj, hoccj⟩)
            · exact ⟨hk, hocc⟩
            · exact ⟨by omega, hoccj⟩
          · rintro ⟨hj, hoccj⟩
            have hkj := hfirst j hj hoccj
            by_contra hne
            obtain ⟨hne, hlow⟩ := not_or.mp hne
            exact hno' j (by omega) (not_le.mp fun h => hlow ⟨h, hoccj⟩) hoccj

end Search

-- ---------------------------------------------------------------------------
-- Calls with a given part
-- ---------------------------------------------------------------------------

/-- No slip of the code touches a call with a given part: the checks accept places only,
    a sum does not wrap, and a part that is looked for is an atom of ASCII characters. -/
def FitsPart (kind : TextKind) (a s : List ℕ) : Option ℤ → Option ℤ → Prop
  | some b, some x =>
    b + s.length + x < 0x10000000000000000 ∧
      (checkSubStringAt b.toNat (encode a) (encode s) s.length = true → OccursAt a s b.toNat)
  | some b, none => checkSubStringAt b.toNat (encode a) (encode s) s.length = true → OccursAt a s b.toNat
  | none, some x =>
    checkSubStringBef (sizeSub a.length x.toNat) (encode a) (encode s) = true → x + s.length ≤ a.length
  | none, none => kind = .atom ∧ ∀ c ∈ s, c < 0x80

section Given

variable {kind : TextKind} {a s : List ℕ} {before size after : Option ℤ}

theorem unifyInt_iff {arg : Option ℤ} {n : ℕ} (h : n < 0x8000000000000000) :
    unifyInt arg n = true ↔ Agrees arg (n : ℤ) := by
  cases arg with
  | none => simp [unifyInt]
  | some z => simp [unifyInt, sizeToInt_of_lt h]

/-- A check that accepts exactly the one place that the arguments allow. -/
theorem enumerates_check {args : SubArgs} {i n : ℕ} {ok : Bool}
    (hcall : subAtomic kind (encode a) args.encode = .check ok i s.length n (encode s)) (hlt : a.length < 2 ^ 31)
    (hok : ok = true → OccursAt a s i ∧ i + s.length + n = a.length)
    (hallows : ∀ t, Allows a args t ↔ t = (i, s.length) ∧ ok = true) : Enumerates kind a args := by
  cases ok with
  | false => exact enumerates_nil hcall fun t ht => absurd ((hallows t).mp ht).2 (by simp)
  | true =>
      obtain ⟨hocc, hsum⟩ := hok rfl
      have hrest : a.length - i - s.length = n := by omega
      refine enumerates_single (s := (i, s.length)) ?_ fun t => (hallows t).trans (and_iff_left rfl)
      rw [hcall, SubCall.check, if_pos rfl, answerAt, hocc.take_eq, hrest, sizeToInt_of_lt (by omega),
        sizeToInt_of_lt (by omega), sizeToInt_of_lt (by omega)]

variable (ha : ∀ c ∈ a, Scalar c) (hs : ∀ c ∈ s, Scalar c) (hlt : a.length < 2 ^ 31) (hlts : s.length < 2 ^ 31)

variable (kind a) in
include hs hlts in
/-- A given length has to be the length of the part. -/
theorem subAtomic_given (hvalid : ValidSizes ⟨before, size, after, some s⟩) :
    (Agrees size (s.length : ℤ) → subAtomic kind (encode a) (SubArgs.encode ⟨before, size, after, some s⟩) =
        subAtomicVal kind (encode a) ⟨before, none, after, some (encode s)⟩ (encode s)) ∧
      (¬ Agrees size (s.length : ℤ) →
        subAtomic kind (encode a) (SubArgs.encode ⟨before, size, after, some s⟩) = .done []) := by
  have hsizes := (checkSizes_eq_none_iff _).mpr hvalid
  have hunify : unifyInt size s.length = true ↔ _ := unifyInt_iff (show s.length < 0x8000000000000000 by omega)
  have hcall : subAtomic kind (encode a) (SubArgs.encode ⟨before, size, after, some s⟩) =
      subAtomicVal kind (encode a) ⟨before, size, after, some (encode s)⟩ (encode s) := by
    rw [subAtomic]
    simp only [SubArgs.encode, Option.map_some] at hsizes ⊢
    rw [hsizes]
  rw [hcall, ← hunify]
  unfold subAtomicVal
  rw [strlenUtf8_encode hs]
  constructor
  · intro h
    have hnone : unifyInt none s.length = true := rfl
    exact (if_neg (not_not.mpr h)).trans (if_neg (not_not.mpr hnone)).symm
  · intro h
    exact if_pos h

include ha hs hlt hlts

/-- Position and part are given, and perhaps the rest. -/
theorem enumerates_at {b : ℕ} (hvalid : ValidSizes ⟨some b, size, after, some s⟩)
    (hagree : Agrees size (s.length : ℤ)) (hfits : FitsPart kind a s (some b) after) :
    Enumerates kind a ⟨some b, size, after, some s⟩ := by
  have hb := (hvalid (some b) (by simp) b rfl).1.2
  have hcall := (subAtomic_given kind a hs hlts hvalid).1 hagree
  unfold subAtomicVal at hcall
  simp only [unifyInt, Option.elim, not_true_eq_false, if_false, Option.map_some, Int.toNat_natCast,
    strlenUtf8_encode ha, strlenUtf8_encode hs] at hcall
  have hplace : ∀ t : ℕ × ℕ, t.2 = s.length ∧ OccursAt a s t.1 ∧ (b : ℤ) = t.1 →
      t = (b, s.length) ∧ checkSubStringAt b (encode a) (encode s) s.length = true := by
    rintro ⟨i, j⟩ ⟨hj, hocc, hi⟩
    obtain rfl := Nat.cast_inj.mp hi
    exact ⟨Prod.ext rfl hj, hocc.checkAt ha hs hlt⟩
  cases after with
  | none =>
      simp only [Option.map_none] at hcall
      by_cases hocc : OccursAt a s b
      · have hle := hocc.1
        have hsub : sizeSub a.length b = a.length - b := sizeSub_of_le (by omega) (by omega)
        rw [hsub, sizeSub_of_le (by omega) (by omega)] at hcall
        refine enumerates_check hcall hlt (fun _ => ⟨hocc, by omega⟩) fun t => ?_
        rw [allows_given, agrees_some]
        constructor
        · rintro ⟨hj, hocc', hi, -⟩
          exact hplace t ⟨hj, hocc', hi⟩
        · rintro ⟨rfl, -⟩
          exact ⟨rfl, hocc, rfl, hagree, (agrees_none _).mpr trivial⟩
      · have hno : checkSubStringAt b (encode a) (encode s) s.length = false :=
          Bool.eq_false_iff.mpr fun h => hocc (hfits h)
        rw [hno] at hcall
        refine enumerates_nil hcall fun t ht => ?_
        rw [allows_given, agrees_some] at ht
        exact absurd (hplace t ⟨ht.1, ht.2.1, ht.2.2.1⟩).2 (by simp [hno])
  | some x =>
      obtain ⟨hsum, hfits⟩ := hfits
      have hx := hvalid (some x) (by simp) x rfl
      lift x to ℕ using hx.2
      have hadd : sizeAdd b s.length = b + s.length := sizeAdd_of_lt (by omega)
      have hadd' : sizeAdd (b + s.length) x = b + s.length + x := sizeAdd_of_lt (by omega)
      simp only [Option.map_some, Int.toNat_natCast, hadd, hadd'] at hcall
      by_cases hlen : a.length = b + s.length + x
      · rw [if_neg (not_not.mpr hlen)] at hcall
        refine enumerates_check hcall hlt (fun h => ⟨hfits h, hlen.symm⟩) fun t => ?_
        rw [allows_given, agrees_some, agrees_some]
        constructor
        · rintro ⟨hj, hocc, hi, -⟩
          exact hplace t ⟨hj, hocc, hi⟩
        · rintro ⟨rfl, hok⟩
          exact ⟨rfl, hfits hok, rfl, hagree, by omega⟩
      · rw [if_pos hlen] at hcall
        refine enumerates_nil hcall fun t ht => ?_
        rw [allows_given, agrees_some, agrees_some] at ht
        obtain ⟨hj, hocc, hi, -, hrest⟩ := ht
        have hle := hocc.1
        omega

/-- Part and rest are given. -/
theorem enumerates_bef {x : ℕ} (hvalid : ValidSizes ⟨none, size, some x, some s⟩)
    (hagree : Agrees size (s.length : ℤ)) (hfits : FitsPart kind a s none (some x)) :
    Enumerates kind a ⟨none, size, some x, some s⟩ := by
  have hcall := (subAtomic_given kind a hs hlts hvalid).1 hagree
  unfold subAtomicVal at hcall
  simp only [unifyInt, Option.elim, not_true_eq_false, if_false, Option.map_some, Option.map_none,
    Int.toNat_natCast, strlenUtf8_encode ha, strlenUtf8_encode hs] at hcall
  by_cases hle : x + s.length ≤ a.length
  · have hsub : sizeSub a.length x = a.length - x := sizeSub_of_le (by omega) (by omega)
    rw [hsub, sizeSub_of_le (by omega) (by omega)] at hcall
    have hiff := checkBef_iff ha hs hlt hle
    refine enumerates_check hcall hlt (fun h => ⟨hiff.mp h, by omega⟩) fun t => ?_
    rw [allows_given, agrees_some, hiff]
    constructor
    · rintro ⟨hj, hocc, -, -, hrest⟩
      have hle' := hocc.1
      have hi : t.1 = a.length - x - s.length := by omega
      exact ⟨Prod.ext hi hj, hi ▸ hocc⟩
    · rintro ⟨rfl, hocc⟩
      exact ⟨rfl, hocc, (agrees_none _).mpr trivial, hagree, by omega⟩
  · have hno : checkSubStringBef (sizeSub a.length x) (encode a) (encode s) = false := by
      refine Bool.eq_false_iff.mpr fun h => hle ?_
      have hfit := hfits h
      omega
    rw [hno] at hcall
    refine enumerates_nil hcall fun t ht => ?_
    rw [allows_given, agrees_some] at ht
    obtain ⟨hj, hocc, -, -, hrest⟩ := ht
    have hle' := hocc.1
    omega

/-- Only the part is given, and perhaps its length. -/
theorem enumerates_val (hvalid : ValidSizes ⟨none, size, none, some s⟩) (hagree : Agrees size (s.length : ℤ))
    (hascii : ∀ c ∈ s, c < 0x80) : Enumerates .atom a ⟨none, size, none, some s⟩ := by
  have hbytes := (length_encode_le hs).2.mpr hascii
  have hcall := (subAtomic_given .atom a hs hlts hvalid).1 hagree
  unfold subAtomicVal at hcall
  simp only [unifyInt, Option.elim, not_true_eq_false, if_false, Option.map_none, strlenUtf8_encode ha,
    strlenUtf8_encode hs, hbytes, ne_eq] at hcall
  rcases lt_trichotomy s.length a.length with hlen | hlen | hlen
  · rw [if_neg hlen.ne, if_neg (by omega), sizeSub_of_le hlen.le (by omega)] at hcall
    obtain ⟨ks, hruns, hsorted, hmem⟩ := contRuns_val ha hs hascii hlen.le hlt (i := 0) (Nat.zero_le _)
    refine enumerates_backtrack ha (ks.map fun k => (k, s.length)) hcall hruns
      (List.pairwise_map.mpr (hsorted.imp fun h => .inl h)) fun t => ?_
    rw [allows_given, List.mem_map]
    constructor
    · rintro ⟨k, hk, rfl⟩
      exact ⟨rfl, ((hmem k).mp hk).2, (agrees_none _).mpr trivial, hagree, (agrees_none _).mpr trivial⟩
    · rintro ⟨hj, hocc, -⟩
      exact ⟨t.1, (hmem t.1).mpr ⟨Nat.zero_le _, hocc⟩, Prod.ext rfl hj.symm⟩
  · rw [if_pos hlen] at hcall
    have hanswer : (⟨some 0, some (sizeToInt s.length), some 0, encode s⟩ : SubAnswer) =
        ⟨some ((0 : ℕ) : ℤ), some (s.length : ℤ), some ((a.length - 0 - s.length : ℕ) : ℤ), encode s⟩ := by
      rw [sizeToInt_of_lt (by omega), hlen, Nat.sub_zero, Nat.sub_self]
      rfl
    by_cases heq : a = s
    · subst heq
      rw [if_pos rfl, hanswer] at hcall
      refine enumerates_single (s := (0, a.length)) ?_ fun t => ?_
      · rw [hcall, answerAt, List.drop_zero, List.take_length]
      · rw [allows_given]
        constructor
        · rintro ⟨hj, hocc, -⟩
          have hle := hocc.1
          exact Prod.ext (by omega) hj
        · rintro rfl
          exact ⟨rfl, ⟨by omega, List.prefix_rfl⟩, (agrees_none _).mpr trivial, hagree, (agrees_none _).mpr trivial⟩
    · rw [if_neg fun h => heq (encode_inj ha hs h)] at hcall
      refine enumerates_nil hcall fun t ht => heq ?_
      rw [allows_given] at ht
      obtain ⟨-, ⟨hle, hpre⟩, -⟩ := ht
      have ht0 : t.1 = 0 := by omega
      rw [ht0, List.drop_zero] at hpre
      exact (hpre.eq_of_length hlen).symm
  · rw [if_neg hlen.ne', if_pos hlen] at hcall
    refine enumerates_nil hcall fun t ht => ?_
    rw [allows_given] at ht
    have hle := ht.2.1.1
    omega

/-- With a given part, a call that no slip touches enumerates the decompositions. -/
theorem enumerates_given (hvalid : ValidSizes ⟨before, size, after, some s⟩)
    (hfits : FitsPart kind a s before after) : Enumerates kind a ⟨before, size, after, some s⟩ := by
  by_cases hagree : Agrees size (s.length : ℤ)
  · cases before with
    | some b =>
        lift b to ℕ using (hvalid (some b) (by simp) b rfl).2
        exact enumerates_at ha hs hlt hlts hvalid hagree hfits
    | none =>
        cases after with
        | some x =>
            lift x to ℕ using (hvalid (some x) (by simp) x rfl).2
            exact enumerates_bef ha hs hlt hlts hvalid hagree hfits
        | none =>
            obtain ⟨rfl, hascii⟩ := hfits
            exact enumerates_val ha hs hlt hlts hvalid hagree hascii
  · refine enumerates_nil ((subAtomic_given kind a hs hlts hvalid).2 hagree) fun t ht => hagree ?_
    rw [allows_given] at ht
    rw [← ht.1]
    exact ht.2.2.2.1

end Given

-- ---------------------------------------------------------------------------
-- All calls
-- ---------------------------------------------------------------------------

/-- No slip of the code touches the call, and its texts are shorter than `2 ^ 31`. -/
def NoSlip (kind : TextKind) (a : List ℕ) (args : SubArgs) : Prop :=
  a.length < 2 ^ 31 ∧
    match args.out with
    | none => FitsText a args
    | some s => s.length < 2 ^ 31 ∧ FitsPart kind a s args.before args.after

end Yap
