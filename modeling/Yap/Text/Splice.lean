-- SUMMARY: Characters of a text counted, skipped and copied, texts put together and cut apart, and what that does to encoded texts.
import Yap.Text.Lists

/-!
# Cutting texts

The functions follow `skip_utf8` and `strlen_utf8` of `YapUTF8.h` and `concat`,
`slice`, `Yap_Concat_Text` and `Yap_Splice_Text` of `text.c`. A text is modelled as
the bytes before its NUL, and the buffers that hold texts as values.
-/

namespace Yap

-- ---------------------------------------------------------------------------
-- Counting and skipping
-- ---------------------------------------------------------------------------

/-- `skip_utf8`. A byte that starts no character is never passed. -/
def skipUtf8 (pt : List ℕ) : ℕ → List ℕ
  | 0 => pt
  | n + 1 =>
    if pt = [] then pt
    else
      match iterate pt with
      | some (b, l) => if b = 0 then pt else skipUtf8 (pt.drop l) n
      | none => skipUtf8 pt n

theorem iterate_pos {pt : List ℕ} {b l : ℕ} (h : iterate pt = some (b, l)) : 0 < l := by
  have hpos := getUtf8_pos pt
  rwa [getUtf8, h] at hpos

/-- `strlen_utf8`. A byte that starts no character does not count. -/
def strlenUtf8 (pt : List ℕ) : ℕ :=
  if _hpt : pt = [] then 0
  else
    match _h : iterate pt with
    | some (b, l) => if b = 0 then 0 else strlenUtf8 (pt.drop l) + 1
    | none => strlenUtf8 (pt.drop 1)
termination_by pt.length
decreasing_by
  all_goals
    have hlen : 0 < pt.length := List.length_pos_iff.mpr ‹_›
    rw [List.length_drop]
  · have hpos := iterate_pos ‹_›
    omega
  · omega

-- ---------------------------------------------------------------------------
-- Cutting and putting together
-- ---------------------------------------------------------------------------

/-- `concat`. -/
def concat (sv : List (List ℕ)) : List ℕ := sv.foldl (fun buf s => if s = [] then buf else buf ++ s) []

/-- The loop of `slice`. It has no value where it reads behind the NUL, or copies a
    character that has no encoding. -/
def copyUtf8 (ptr : List ℕ) : ℕ → Option (List ℕ)
  | 0 => some []
  | n + 1 =>
    if ptr = [] then none
    else do
      let w ← (putUtf8 (int32 (getUtf8 ptr).1)).mapM id
      let rest ← copyUtf8 (ptr.drop (getUtf8 ptr).2) n
      return w ++ rest

/-- `slice`. The size of the new buffer wraps when `max` is before `min`. -/
def slice (min max : ℕ) (buf : List ℕ) : Option (List ℕ) :=
  if max < min then none else (copyUtf8 (skipUtf8 buf min) (max - min)).map (·.takeWhile (· ≠ 0))

/-- The test of `memcmp` with the bytes of `buf0`, which are none of them NUL. -/
def memcmpEq (buf buf0 : List ℕ) : Bool := buf.take buf0.length = buf0

/-- A cut as the `int` that `Yap_Splice_Text` keeps it in. A negative one is a position
    behind every text. -/
def cutAsInt (cut : ℕ) : Option ℕ :=
  let next := Int.bmod cut 0x100000000
  if next < 0 then none else some next.toNat

/-- The result of cutting a text, which is no value where the code reads or writes
    outside its buffers. -/
inductive Spliced where
  | fail
  | parts (bufs : List (List ℕ))
  | undefined
deriving DecidableEq

namespace Spliced

def ofOption : Option (List (List ℕ)) → Spliced
  | some bufs => parts bufs
  | none => undefined

end Spliced

/-- The loop of `Yap_Splice_Text`, after its first turn. -/
def spliceCuts (buf : List ℕ) (prev : ℕ) : List ℕ → Option (List (List ℕ))
  | [] => some []
  | cut :: cuts =>
    if cut = 0 then some []
    else do
      let next ← cutAsInt prev
      let bufi ← slice next cut buf
      let bufs ← spliceCuts buf cut cuts
      return bufi :: bufs

/-- `Yap_Splice_Text` with cuts. -/
def spliceText (cuts : List ℕ) (buf : List ℕ) : Spliced :=
  if buf.length = 0 then .fail
  else
    match cuts with
    | [] => .parts []
    | cut :: cuts => .ofOption do
      let buf0 ← slice 0 cut buf
      let bufs ← spliceCuts buf cut cuts
      return buf0 :: bufs

/-- `Yap_Splice_Text` without cuts, where the first of two parts is given. -/
def spliceHead (buf buf0 : List ℕ) : Spliced :=
  if buf.length = 0 then .fail
  else if ¬ memcmpEq buf buf0 then .fail
  else .ofOption do
    let buf1 ← slice (strlenUtf8 buf0) (strlenUtf8 buf) buf
    return [buf0, buf1]

/-- `Yap_Splice_Text` without cuts, where the second of two parts is given. The number
    of bytes before it is what `skip_utf8` takes as a number of characters. -/
def spliceTail (buf buf1 : List ℕ) : Spliced :=
  if buf.length = 0 then .fail
  else
    let b_l0 := buf.length - buf1.length
    if ¬ memcmpEq (skipUtf8 buf b_l0) buf1 then .fail
    else .ofOption do
      let buf0 ← slice 0 (strlenUtf8 buf - strlenUtf8 buf1) buf
      return [buf0, buf1]

-- ---------------------------------------------------------------------------
-- Encoded texts
-- ---------------------------------------------------------------------------

section Encoded

variable {s t : List ℕ}

theorem iterate_encode {c : ℕ} (h : Scalar c) (s : List ℕ) :
    iterate (encode (c :: s)) = some (c, (encodeChar c).length) := by
  rw [encode_cons, iterate_encodeChar h]

theorem skipUtf8_encode (hs : ∀ c ∈ s, Scalar c) (n : ℕ) : skipUtf8 (encode s) n = encode (s.drop n) := by
  induction n generalizing s with
  | zero => rfl
  | succ n ih =>
      cases s with
      | nil => rfl
      | cons c s =>
          have hc := hs c (List.mem_cons_self ..)
          have hdrop : (encode (c :: s)).drop (encodeChar c).length = encode s := List.drop_left
          rw [skipUtf8, if_neg (encode_ne_nil hc), iterate_encode hc]
          simp only [if_neg hc.pos.ne', hdrop]
          exact ih fun d hd => hs d (List.mem_cons_of_mem _ hd)

theorem strlenUtf8_encode (hs : ∀ c ∈ s, Scalar c) : strlenUtf8 (encode s) = s.length := by
  induction s with
  | nil =>
      rw [strlenUtf8.eq_def]
      rfl
  | cons c s ih =>
      have hc := hs c (List.mem_cons_self ..)
      have hdrop : (encode (c :: s)).drop (encodeChar c).length = encode s := List.drop_left
      rw [strlenUtf8.eq_def, dif_neg (encode_ne_nil hc)]
      split
      case h_1 b l hiter =>
        obtain ⟨rfl, rfl⟩ := Prod.mk.inj (Option.some.inj ((iterate_encode hc s).symm.trans hiter))
        rw [if_neg hc.pos.ne', hdrop, ih fun d hd => hs d (List.mem_cons_of_mem _ hd), List.length_cons]
      case h_2 hiter => exact absurd ((iterate_encode hc s).symm.trans hiter) (by simp)

theorem int32_natCast {c : ℕ} (h : c < 0x110000) : int32 (c : ℤ) = c := by
  unfold int32
  omega

theorem copyUtf8_encode (hs : ∀ c ∈ s, Scalar c) {n : ℕ} (hn : n ≤ s.length) :
    copyUtf8 (encode s) n = some (encode (s.take n)) := by
  induction n generalizing s with
  | zero => rfl
  | succ n ih =>
      cases s with
      | nil => exact absurd hn (by simp)
      | cons c s =>
          have hc := hs c (List.mem_cons_self ..)
          have hdrop : (encode (c :: s)).drop (encodeChar c).length = encode s := List.drop_left
          have hrest := ih (fun d hd => hs d (List.mem_cons_of_mem _ hd)) (Nat.le_of_succ_le_succ hn)
          have hget : getUtf8 (encode (c :: s)) = ((c : ℤ), (encodeChar c).length) := getUtf8_encodeChar hc _
          rw [copyUtf8, if_neg (encode_ne_nil hc), hget]
          simp only [int32_natCast hc.lt, putUtf8_of_lt hc.lt, mapM_id_some, hdrop, hrest]
          rfl

/-- No byte of an encoded text is NUL. -/
theorem encode_mem {b : ℕ} (hs : ∀ c ∈ s, Scalar c) (hb : b ∈ encode s) : b ≠ 0 := by
  obtain ⟨c, hc, hbc⟩ := List.mem_flatMap.mp hb
  exact (encodeChar_mem (hs c hc) hbc).1.ne'

/-- A slice of a text holds the characters between two positions. -/
theorem slice_encode (hs : ∀ c ∈ s, Scalar c) {min max : ℕ} (hle : min ≤ max) (hmax : max ≤ s.length) :
    slice min max (encode s) = some (encode ((s.drop min).take (max - min))) := by
  have hdrop : ∀ c ∈ s.drop min, Scalar c := fun c hc => hs c (List.mem_of_mem_drop hc)
  have hlen : max - min ≤ (s.drop min).length := by
    rw [List.length_drop]
    omega
  have htake : ∀ c ∈ (s.drop min).take (max - min), Scalar c := fun c hc => hdrop c (List.mem_of_mem_take hc)
  rw [slice, if_neg (by omega), skipUtf8_encode hs, copyUtf8_encode hdrop hlen, Option.map_some,
    List.takeWhile_eq_self_iff.mpr fun b hb => decide_eq_true (encode_mem htake hb)]

theorem cutAsInt_of_lt {cut : ℕ} (h : cut < 2 ^ 31) : cutAsInt cut = some cut := by
  have hmod : Int.bmod cut 0x100000000 = cut := by
    rw [Int.bmod_def]
    omega
  unfold cutAsInt
  rw [hmod]
  simp

/-- Cutting a text in two gives its two parts. -/
theorem spliceText_encode (hs : ∀ c ∈ s, Scalar c) (hne : s ≠ []) {i : ℕ} (hi : i ≤ s.length) (hlt : i < 2 ^ 31) :
    spliceText [i, s.length] (encode s) = .parts [encode (s.take i), encode (s.drop i)] := by
  have hlen : s.length ≠ 0 := List.length_pos_iff.mpr hne |>.ne'
  have hdrop : (s.drop i).take (s.length - i) = s.drop i := List.take_of_length_le (by rw [List.length_drop])
  obtain ⟨c, s', rfl⟩ := List.exists_cons_of_ne_nil hne
  have hbytes : (encode (c :: s')).length ≠ 0 :=
    (List.length_pos_iff.mpr (encode_ne_nil (hs c (List.mem_cons_self ..)))).ne'
  rw [spliceText, if_neg hbytes]
  simp only [spliceCuts, hlen, if_false, cutAsInt_of_lt hlt, Option.bind_eq_bind, Option.bind_some,
    slice_encode hs (Nat.zero_le i) hi, slice_encode hs hi le_rfl, hdrop, List.drop_zero, Nat.sub_zero]
  rfl

/-- One text begins with another where its bytes do. -/
theorem encode_prefix_iff (hs : ∀ c ∈ s, Scalar c) (ht : ∀ c ∈ t, Scalar c) :
    encode s <+: encode t ↔ s <+: t := by
  refine ⟨fun h => ?_, fun ⟨r, hr⟩ => ⟨encode r, by rw [← hr, encode_append]⟩⟩
  induction s generalizing t with
  | nil => exact List.nil_prefix
  | cons c s ih =>
      have hc := hs c (List.mem_cons_self ..)
      obtain ⟨r, hr⟩ := h
      cases t with
      | nil => exact absurd (List.append_eq_nil_iff.mp hr).1 (encode_ne_nil hc)
      | cons d t =>
          have hd := ht d (List.mem_cons_self ..)
          have hiter := iterate_encode hd t
          rw [← hr, encode_cons, List.append_assoc, iterate_encodeChar hc, Option.some.injEq, Prod.mk.injEq] at hiter
          obtain ⟨rfl, -⟩ := hiter
          rw [encode_cons, encode_cons, List.append_assoc] at hr
          refine List.prefix_cons_inj c |>.mpr (ih (fun e he => hs e (List.mem_cons_of_mem _ he))
            (fun e he => ht e (List.mem_cons_of_mem _ he)) ⟨r, List.append_cancel_left hr⟩)

theorem encode_inj (hs : ∀ c ∈ s, Scalar c) (ht : ∀ c ∈ t, Scalar c) (h : encode s = encode t) : s = t := by
  have hst := (encode_prefix_iff hs ht).mp (h ▸ List.prefix_rfl)
  have hts := (encode_prefix_iff ht hs).mp (h ▸ List.prefix_rfl)
  exact hst.eq_of_length (le_antisymm hst.length_le hts.length_le)

theorem memcmpEq_encode (hs : ∀ c ∈ s, Scalar c) (ht : ∀ c ∈ t, Scalar c) :
    memcmpEq (encode t) (encode s) = true ↔ s <+: t := by
  rw [memcmpEq, decide_eq_true_iff, eq_comm, ← List.prefix_iff_eq_take, encode_prefix_iff hs ht]

/-- A text takes at least a byte for each character, and no more where all are ASCII. -/
theorem length_encode_le (hs : ∀ c ∈ s, Scalar c) :
    s.length ≤ (encode s).length ∧ ((encode s).length = s.length ↔ ∀ c ∈ s, c < 0x80) := by
  induction s with
  | nil => simp [encode]
  | cons c s ih =>
      have hc := hs c (List.mem_cons_self ..)
      obtain ⟨hle, hiff⟩ := ih fun d hd => hs d (List.mem_cons_of_mem _ hd)
      have hpos := List.length_pos_iff.mpr (encodeChar_ne_nil hc.lt)
      have hone : (encodeChar c).length = 1 ↔ c < 0x80 := by
        have hlt := hc.lt
        unfold encodeChar
        split_ifs <;> simp <;> omega
      rw [encode_cons, List.length_append, List.length_cons]
      refine ⟨by omega, ?_⟩
      rw [List.forall_mem_cons, ← hone, ← hiff]
      omega

end Encoded

end Yap
