-- SUMMARY: atom_concat/3 and string_concat/3 in all modes, and when their answers are those of one relation.
import Yap.Text.Splice

/-!
# Concatenation

The predicates follow `atom_concat3` and `string_concat3` of `atomic.c` with their
continuations. An argument is a text or unbound, and the answers are collected until
the predicate fails or cuts its choice point. The parts of a text are read and written
as they are; that `Yap_Splice_Text` frees the text between two cuts is not modelled.
-/

namespace Yap

-- ---------------------------------------------------------------------------
-- The predicates
-- ---------------------------------------------------------------------------

/-- The two predicates. -/
inductive TextKind where
  | atom
  | string
deriving DecidableEq

/-- The arguments of a call that succeeds. -/
abbrev ConcatAnswer : Type := List ℕ × List ℕ × List ℕ

/-- What a call does until it fails. -/
inductive ConcatResult where
  | answers (as : List ConcatAnswer)
  | instantiationError
  | undefined
deriving DecidableEq

namespace ConcatResult

/-- An answer comes before the others. -/
def cons (a : ConcatAnswer) : ConcatResult → ConcatResult
  | answers as => answers (a :: as)
  | r => r

/-- The one answer of a text cut in two, or failure. -/
def ofSpliced (c : List ℕ) : Spliced → ConcatResult
  | .parts [p, q] => answers [(p, q, c)]
  | .fail => answers []
  | _ => undefined

end ConcatResult

/-- `cont_atom_concat3` and `cont_string_concat3`, from the cut at `i` on. -/
def contConcat3 (t3 : List ℕ) (max i : ℕ) : ConcatResult :=
  match spliceText [i, max] t3 with
  | .parts [p, q] =>
    if i < max then (contConcat3 t3 max (i + 1)).cons (p, q, t3) else .answers [(p, q, t3)]
  | .fail => .answers []
  | _ => .undefined
termination_by max - i

/-- `atom_concat3` and `string_concat3`. -/
def concat3 (kind : TextKind) : Option (List ℕ) → Option (List ℕ) → Option (List ℕ) → ConcatResult
  | some t1, some t2, ot =>
    let at' := concat [t1, t2]
    .answers (if ot = none ∨ ot = some at' then [(t1, t2, at')] else [])
  | some t1, none, some t3 => .ofSpliced t3 (spliceHead t3 t1)
  | none, some t2, some t3 => .ofSpliced t3 (spliceTail t3 t2)
  | none, none, some t3 =>
    let len := strlenUtf8 t3
    if kind = .string ∧ len = 0 then .answers [] else contConcat3 t3 len 0
  | _, _, none => .instantiationError

-- ---------------------------------------------------------------------------
-- The relation
-- ---------------------------------------------------------------------------

/-- The pairs of texts that make up a text, in the order of the length of the first. -/
def splits (c : List ℕ) : List ConcatAnswer :=
  (List.range (c.length + 1)).map fun i => (c.take i, c.drop i, c)

/-- The modes of a call, by the texts that are given. -/
inductive ConcatMode where
  | join (a b : List ℕ) (c : Option (List ℕ))
  | head (a c : List ℕ)
  | tail (b c : List ℕ)
  | split (c : List ℕ)

namespace ConcatMode

/-- The texts of a call. -/
def texts : ConcatMode → List (List ℕ)
  | join a b c => a :: b :: c.toList
  | head a c => [a, c]
  | tail b c => [b, c]
  | split c => [c]

/-- The call. -/
def call (kind : TextKind) : ConcatMode → ConcatResult
  | join a b c => concat3 kind (some (encode a)) (some (encode b)) (c.map encode)
  | head a c => concat3 kind (some (encode a)) none (some (encode c))
  | tail b c => concat3 kind none (some (encode b)) (some (encode c))
  | split c => concat3 kind none none (some (encode c))

/-- The pairs that the given texts allow. -/
def solutions : ConcatMode → List ConcatAnswer
  | join a b c => (splits (c.getD (a ++ b))).filter fun s => s.1 = a ∧ s.2.1 = b
  | head a c => (splits c).filter fun s => s.1 = a
  | tail b c => (splits c).filter fun s => s.2.1 = b
  | split c => splits c

/-- The answers are these pairs, in this order. -/
def Right (kind : TextKind) (m : ConcatMode) : Prop :=
  m.call kind = .answers (m.solutions.map fun s => (encode s.1, encode s.2.1, encode s.2.2))

instance (kind : TextKind) (m : ConcatMode) : Decidable (m.Right kind) := inferInstanceAs (Decidable (_ = _))

/-- The code finds the pairs: a text that is cut is not empty, characters before a given
    second part are ASCII unless that part is empty, and positions fit in an `int`. -/
def Cuttable : ConcatMode → Prop
  | join _ _ _ => True
  | head a c => c = [] → a ≠ []
  | tail b c => b <:+ c → c ≠ [] ∧ (b = [] ∨ ∀ d ∈ c.take (c.length - b.length), d < 0x80)
  | split c => c ≠ [] ∧ c.length < 2 ^ 31

end ConcatMode

-- ---------------------------------------------------------------------------
-- The pairs of a text
-- ---------------------------------------------------------------------------

section Splits

variable {c : List ℕ} {p : ConcatAnswer → Bool}

/-- A condition that one cut meets. -/
theorem filter_splits_single {k : ℕ} (hk : k ≤ c.length)
    (h : ∀ i ≤ c.length, p (c.take i, c.drop i, c) = true ↔ i = k) :
    (splits c).filter p = [(c.take k, c.drop k, c)] := by
  have hfilter : (List.range (c.length + 1)).filter (p ∘ fun i => (c.take i, c.drop i, c)) =
      (List.range (c.length + 1)).filter (· == k) := by
    refine List.filter_congr fun i hi => ?_
    rw [Bool.eq_iff_iff, beq_iff_eq]
    exact h i (Nat.le_of_lt_succ (List.mem_range.mp hi))
  have hmem : k ∈ List.range (c.length + 1) := List.mem_range.mpr (Nat.lt_succ_of_le hk)
  rw [splits, List.filter_map, hfilter, List.filter_beq, List.count_eq_one_of_mem List.nodup_range hmem]
  rfl

/-- A condition that no cut meets. -/
theorem filter_splits_nil (h : ∀ i ≤ c.length, ¬ p (c.take i, c.drop i, c) = true) : (splits c).filter p = [] := by
  refine List.filter_eq_nil_iff.mpr fun s hs => ?_
  obtain ⟨i, hi, rfl⟩ := List.mem_map.mp hs
  exact h i (Nat.le_of_lt_succ (List.mem_range.mp hi))

end Splits

namespace ConcatMode

theorem solutions_head (a c : List ℕ) :
    (head a c).solutions = if a <+: c then [(a, c.drop a.length, c)] else [] := by
  by_cases h : a <+: c
  · have htake := List.prefix_iff_eq_take.mp h
    have hsingle := filter_splits_single (p := fun s => decide (s.1 = a)) h.length_le fun i hi => by
      rw [decide_eq_true_iff]
      refine ⟨fun heq => ?_, fun heq => heq ▸ htake.symm⟩
      rw [← heq, List.length_take, min_eq_left hi]
    rw [solutions, hsingle, if_pos h, ← htake]
  · rw [if_neg h]
    refine filter_splits_nil fun i _ heq => h ?_
    rw [← of_decide_eq_true heq]
    exact List.take_prefix i c

theorem solutions_tail (b c : List ℕ) :
    (tail b c).solutions = if b <:+ c then [(c.take (c.length - b.length), b, c)] else [] := by
  by_cases h : b <:+ c
  · have hdrop := List.suffix_iff_eq_drop.mp h
    have hle := h.length_le
    have hsingle := filter_splits_single (p := fun s => decide (s.2.1 = b)) (Nat.sub_le c.length b.length)
        fun i hi => by
      rw [decide_eq_true_iff]
      refine ⟨fun heq => ?_, fun heq => heq ▸ hdrop.symm⟩
      have hlen := congrArg List.length heq
      rw [List.length_drop] at hlen
      omega
    rw [solutions, hsingle, if_pos h, ← hdrop]
  · rw [if_neg h]
    refine filter_splits_nil fun i _ heq => h ?_
    rw [← of_decide_eq_true heq]
    exact List.drop_suffix i c

theorem solutions_join (a b : List ℕ) (c : Option (List ℕ)) :
    (join a b c).solutions = if c.getD (a ++ b) = a ++ b then [(a, b, a ++ b)] else [] := by
  by_cases h : c.getD (a ++ b) = a ++ b
  · have hle : a.length ≤ (a ++ b).length := by simp
    have hsingle := filter_splits_single (p := fun s => decide (s.1 = a ∧ s.2.1 = b)) hle fun i hi => by
      rw [decide_eq_true_iff]
      refine ⟨fun ⟨ha, _⟩ => ?_, fun heq => heq ▸ ⟨List.take_left, List.drop_left⟩⟩
      rw [← congrArg List.length ha, List.length_take, min_eq_left hi]
    rw [solutions, h, hsingle, if_pos rfl, List.take_left, List.drop_left]
  · rw [if_neg h]
    refine filter_splits_nil fun i _ heq => h ?_
    obtain ⟨ha, hb⟩ := of_decide_eq_true heq
    exact (List.take_append_drop i _).symm.trans (congrArg₂ (· ++ ·) ha hb)

end ConcatMode

-- ---------------------------------------------------------------------------
-- The modes
-- ---------------------------------------------------------------------------

theorem concat_pair (s t : List ℕ) : concat [s, t] = s ++ t := by
  rcases eq_or_ne s [] with rfl | hs <;> rcases eq_or_ne t [] with rfl | ht <;> simp_all [concat]

section Modes

variable {kind : TextKind} {a b c : List ℕ}

/-- Two texts are put together in every case. -/
theorem right_join (ha : ∀ d ∈ a, Scalar d) (hb : ∀ d ∈ b, Scalar d) {c : Option (List ℕ)}
    (hc : ∀ s ∈ c, ∀ d ∈ s, Scalar d) : (ConcatMode.join a b c).Right kind := by
  have hab : ∀ d ∈ a ++ b, Scalar d := fun d hd => (List.mem_append.mp hd).elim (ha d) (hb d)
  have hiff : (c.map encode = none ∨ c.map encode = some (encode (a ++ b))) ↔ c.getD (a ++ b) = a ++ b := by
    cases c with
    | none => simp
    | some s =>
        simp only [Option.map_some, reduceCtorEq, false_or, Option.some.injEq, Option.getD_some]
        exact ⟨encode_inj (hc s rfl) hab, congrArg encode⟩
  rw [ConcatMode.Right, ConcatMode.solutions_join, ConcatMode.call, concat3, concat_pair, ← encode_append]
  simp only [hiff]
  split_ifs <;> rfl

theorem encode_length_eq_zero (hc : ∀ d ∈ c, Scalar d) : (encode c).length = 0 ↔ c = [] := by
  cases c with
  | nil => exact iff_of_true rfl rfl
  | cons d c => simp [encode_ne_nil (hc d (List.mem_cons_self ..))]

/-- The second text is found where the first begins a text that is not empty. -/
theorem spliceHead_encode (ha : ∀ d ∈ a, Scalar d) (hc : ∀ d ∈ c, Scalar d) :
    spliceHead (encode c) (encode a) =
      if c ≠ [] ∧ a <+: c then .parts [encode a, encode (c.drop a.length)] else .fail := by
  rw [spliceHead]
  by_cases hne : c = []
  · rw [if_pos ((encode_length_eq_zero hc).mpr hne), if_neg fun h => h.1 hne]
  · rw [if_neg fun h => hne ((encode_length_eq_zero hc).mp h)]
    by_cases hpre : a <+: c
    · have htake : (c.drop a.length).take (c.length - a.length) = c.drop a.length :=
        List.take_of_length_le (by rw [List.length_drop])
      rw [if_neg (not_not.mpr ((memcmpEq_encode ha hc).mpr hpre)), if_pos ⟨hne, hpre⟩, strlenUtf8_encode ha,
        strlenUtf8_encode hc, slice_encode hc hpre.length_le le_rfl, htake]
      rfl
    · rw [if_pos fun h => hpre ((memcmpEq_encode ha hc).mp h), if_neg fun h => hpre h.2]

theorem right_head_iff (ha : ∀ d ∈ a, Scalar d) (hc : ∀ d ∈ c, Scalar d) :
    (ConcatMode.head a c).Right kind ↔ (ConcatMode.head a c).Cuttable := by
  rw [ConcatMode.Right, ConcatMode.solutions_head, ConcatMode.call, concat3, spliceHead_encode ha hc,
    ConcatMode.Cuttable]
  by_cases hne : c = []
  · subst hne
    simp only [ne_eq, not_true_eq_false, false_and, if_false, List.prefix_nil, true_imp_iff]
    by_cases ha0 : a = []
    · simp [ha0, ConcatResult.ofSpliced]
    · simp [ha0, ConcatResult.ofSpliced]
  · by_cases hpre : a <+: c <;> simp [hne, hpre, ConcatResult.ofSpliced]

/-- Where the bytes before a second part are taken as characters, it is found only if
    they are characters of one byte, or it is empty. -/
theorem prefix_drop_iff (hb : ∀ d ∈ b, Scalar d) (hc : ∀ d ∈ c, Scalar d) :
    b <+: c.drop ((encode c).length - (encode b).length) ↔
      b <:+ c ∧ (b = [] ∨ ∀ d ∈ c.take (c.length - b.length), d < 0x80) := by
  constructor
  · intro h
    rcases eq_or_ne b [] with rfl | hne
    · exact ⟨List.nil_suffix, .inl rfl⟩
    · set k := (encode c).length - (encode b).length
      have hk : k < c.length := by
        by_contra hle
        rw [List.drop_eq_nil_of_le (not_lt.mp hle)] at h
        exact hne (List.prefix_nil.mp h)
      have hdrop : ∀ d ∈ c.drop k, Scalar d := fun d hd => hc d (List.mem_of_mem_drop hd)
      have htake : ∀ d ∈ c.take k, Scalar d := fun d hd => hc d (List.mem_of_mem_take hd)
      have hsplit : (encode c).length = (encode (c.take k)).length + (encode (c.drop k)).length := by
        rw [← List.length_append, ← encode_append, List.take_append_drop]
      obtain ⟨hle, hascii⟩ := length_encode_le htake
      have hpre := (encode_prefix_iff hb hdrop).mpr h
      have hlen := hpre.length_le
      rw [List.length_take, min_eq_left hk.le] at hle hascii
      have heq : b = c.drop k := encode_inj hb hdrop (hpre.eq_of_length (by omega))
      have hbk : c.length - b.length = k := by
        rw [heq, List.length_drop]
        omega
      refine ⟨heq ▸ List.drop_suffix k c, .inr ?_⟩
      rw [hbk]
      exact hascii.mp (by omega)
  · rintro ⟨⟨p, rfl⟩, hascii⟩
    rcases hascii with rfl | hascii
    · exact List.nil_prefix
    · have hp : ∀ d ∈ p, Scalar d := fun d hd => hc d (List.mem_append_left b hd)
      rw [List.length_append, Nat.add_sub_cancel, List.take_left] at hascii
      have hlen := (length_encode_le hp).2.mpr hascii
      rw [encode_append, List.length_append, Nat.add_sub_cancel, hlen, List.drop_left]

theorem spliceTail_encode (hb : ∀ d ∈ b, Scalar d) (hc : ∀ d ∈ c, Scalar d) :
    spliceTail (encode c) (encode b) =
      if c ≠ [] ∧ b <:+ c ∧ (b = [] ∨ ∀ d ∈ c.take (c.length - b.length), d < 0x80) then
        .parts [encode (c.take (c.length - b.length)), encode b]
      else .fail := by
  have hiff := prefix_drop_iff hb hc
  rw [spliceTail]
  by_cases hne : c = []
  · rw [if_pos ((encode_length_eq_zero hc).mpr hne), if_neg fun h => h.1 hne]
  · have hdrop : ∀ d ∈ c.drop ((encode c).length - (encode b).length), Scalar d :=
      fun d hd => hc d (List.mem_of_mem_drop hd)
    rw [if_neg fun h => hne ((encode_length_eq_zero hc).mp h)]
    simp only [skipUtf8_encode hc, memcmpEq_encode hb hdrop]
    by_cases hpre : b <+: c.drop ((encode c).length - (encode b).length)
    · rw [if_neg (not_not.mpr hpre), if_pos ⟨hne, hiff.mp hpre⟩, strlenUtf8_encode hb, strlenUtf8_encode hc,
        slice_encode hc (Nat.zero_le _) (Nat.sub_le _ _)]
      rfl
    · rw [if_pos hpre, if_neg fun h => hpre (hiff.mpr h.2)]

theorem right_tail_iff (hb : ∀ d ∈ b, Scalar d) (hc : ∀ d ∈ c, Scalar d) :
    (ConcatMode.tail b c).Right kind ↔ (ConcatMode.tail b c).Cuttable := by
  rw [ConcatMode.Right, ConcatMode.solutions_tail, ConcatMode.call, concat3, spliceTail_encode hb hc,
    ConcatMode.Cuttable]
  by_cases hsuf : b <:+ c
  · by_cases hcut : c ≠ [] ∧ (b = [] ∨ ∀ d ∈ c.take (c.length - b.length), d < 0x80)
    · rw [if_pos ⟨hcut.1, hsuf, hcut.2⟩, if_pos hsuf]
      exact iff_of_true rfl fun _ => hcut
    · rw [if_neg fun h => hcut ⟨h.1, h.2.2⟩, if_pos hsuf]
      refine iff_of_false (fun h => ?_) fun h => hcut (h hsuf)
      cases h
  · rw [if_neg fun h => hsuf h.2.1, if_neg hsuf]
    exact iff_of_true rfl fun h => absurd h hsuf

/-- From a cut on, the continuation gives one pair after the other. -/
theorem contConcat3_encode (hc : ∀ d ∈ c, Scalar d) (hne : c ≠ []) (hlt : c.length < 2 ^ 31) {i n : ℕ}
    (hi : i + n = c.length) :
    contConcat3 (encode c) c.length i =
      .answers ((List.range' i (n + 1)).map fun j => (encode (c.take j), encode (c.drop j), encode c)) := by
  induction n generalizing i with
  | zero =>
      rw [contConcat3, spliceText_encode hc hne (by omega) (by omega)]
      simp only
      rw [if_neg (by omega)]
      rfl
  | succ n ih =>
      rw [contConcat3, spliceText_encode hc hne (by omega) (by omega)]
      simp only
      rw [if_pos (by omega), ih (by omega)]
      rfl

theorem spliceText_undefined {buf : List ℕ} {i max : ℕ} (hbuf : buf.length ≠ 0) (hmax : max ≠ 0)
    (hi : cutAsInt i = none) : spliceText [i, max] buf = .undefined := by
  rw [spliceText, if_neg hbuf]
  simp only [spliceCuts, hmax, if_false, hi, Option.bind_eq_bind, Option.bind_none]
  cases slice 0 i buf <;> rfl

/-- The continuation goes astray at the first cut that is no `int`. -/
theorem contConcat3_undefined (hc : ∀ d ∈ c, Scalar d) (hle : 2 ^ 31 ≤ c.length) {i n : ℕ} (hi : i + n = 2 ^ 31) :
    contConcat3 (encode c) c.length i = .undefined := by
  have hne : c ≠ [] := by
    rintro rfl
    exact absurd hle (by simp)
  induction n generalizing i with
  | zero =>
      have hbuf : (encode c).length ≠ 0 := fun h => hne ((encode_length_eq_zero hc).mp h)
      have hcut : cutAsInt i = none := by
        rw [← Nat.add_zero i, hi]
        decide
      rw [contConcat3, spliceText_undefined hbuf (by omega) hcut]
  | succ n ih =>
      rw [contConcat3, spliceText_encode hc hne (by omega) (by omega)]
      simp only
      rw [if_pos (by omega), ih (by omega), ConcatResult.cons]
      rintro as ⟨⟩

theorem right_split_iff (hc : ∀ d ∈ c, Scalar d) :
    (ConcatMode.split c).Right kind ↔ (ConcatMode.split c).Cuttable := by
  rw [ConcatMode.Right, ConcatMode.call, concat3, strlenUtf8_encode hc, ConcatMode.Cuttable]
  by_cases hne : c = []
  · have hcont : contConcat3 [] 0 0 = .answers [] := by
      rw [contConcat3]
      rfl
    subst hne
    refine iff_of_false (fun h => ?_) fun h => h.1 rfl
    cases kind with
    | atom => cases hcont.symm.trans h
    | string => cases h
  · rw [if_neg fun h => hne (List.length_eq_zero_iff.mp h.2)]
    by_cases hlt : c.length < 2 ^ 31
    · rw [contConcat3_encode hc hne hlt (Nat.zero_add _), ConcatMode.solutions, splits, List.range_eq_range',
        List.map_map]
      exact iff_of_true rfl ⟨hne, hlt⟩
    · rw [contConcat3_undefined hc (not_lt.mp hlt) (Nat.zero_add _)]
      refine iff_of_false (fun h => ?_) fun h => hlt h.2
      cases h

end Modes

-- ---------------------------------------------------------------------------
-- One relation
-- ---------------------------------------------------------------------------

end Yap
