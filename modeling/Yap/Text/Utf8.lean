-- SUMMARY: UTF-8 as the code encodes and decodes it, on streams and in buffers, and that decoding undoes encoding.
import Mathlib

/-!
# UTF-8

Characters and bytes are natural numbers, and the bit operations of the code are
written as arithmetic. The functions follow `utf8proc_encode_char` and
`utf8proc_iterate` of `utf8proc.c`, `get_utf8` and `put_utf8` of `YapUTF8.h`,
`put_wchar` of `iopreds.c` and `get_wchar_UTF8` of `getw.h`. A stream that has ended
stays at its end.
-/

namespace Yap

-- ---------------------------------------------------------------------------
-- Characters
-- ---------------------------------------------------------------------------

/-- The code points that UTF-8 leaves out. -/
def Surrogate (c : ℕ) : Prop := 0xD800 ≤ c ∧ c < 0xE000

instance (c : ℕ) : Decidable (Surrogate c) := inferInstanceAs (Decidable (_ ∧ _))

/-- A code point that is neither NUL nor a surrogate. -/
structure Scalar (c : ℕ) : Prop where
  pos : 0 < c
  lt : c < 0x110000
  not_surrogate : ¬ Surrogate c

-- ---------------------------------------------------------------------------
-- Buffers
-- ---------------------------------------------------------------------------

/-- `utf8proc_encode_char`. -/
def encodeChar (uc : ℕ) : List ℕ :=
  if uc < 0x80 then [uc]
  else if uc < 0x800 then [0xC0 + uc / 64, 0x80 + uc % 64]
  else if uc < 0x10000 then [0xE0 + uc / 4096, 0x80 + uc / 64 % 64, 0x80 + uc % 64]
  else if uc < 0x110000 then
    [0xF0 + uc / 262144, 0x80 + uc / 4096 % 64, 0x80 + uc / 64 % 64, 0x80 + uc % 64]
  else []

/-- The bytes of a text. -/
def encode (s : List ℕ) : List ℕ := s.flatMap encodeChar

/-- `put_utf8`: what a character adds to a buffer. A character that has no encoding
    takes a byte that is not written. -/
def putUtf8 (val : ℕ) : List (Option ℕ) :=
  if val < 0x110000 then (encodeChar val).map some else [none]

/-- `utf_cont`. -/
def utfCont (b : ℕ) : Bool := b / 64 = 2

/-- `utf8proc_iterate` on the bytes of a text: a character and the number of its
    bytes, or an error. -/
def iterate : List ℕ → Option (ℕ × ℕ)
  | [] => none
  | uc :: str =>
    if uc < 0x80 then some (uc, 1)
    else if uc < 0xC2 ∨ 0xF4 < uc then none
    else if uc < 0xE0 then
      match str with
      | b :: _ => if utfCont b then some (uc % 32 * 64 + b % 64, 2) else none
      | [] => none
    else if uc < 0xF0 then
      match str with
      | b :: c :: _ =>
        if ¬ utfCont b ∨ ¬ utfCont c ∨ (uc = 0xED ∧ 0x9F < b) then none
        else if uc % 16 * 4096 + b % 64 * 64 + c % 64 < 0x800 then none
        else some (uc % 16 * 4096 + b % 64 * 64 + c % 64, 3)
      | _ => none
    else
      match str with
      | b :: c :: d :: _ =>
        if ¬ utfCont b ∨ ¬ utfCont c ∨ ¬ utfCont d ∨ (uc = 0xF0 ∧ b < 0x90) ∨ (uc = 0xF4 ∧ 0x8F < b) then none
        else some (uc % 8 * 262144 + b % 64 * 4096 + c % 64 * 64 + d % 64, 4)
      | _ => none

/-- `get_utf8`: a character and the number of bytes it takes; an error is the
    character -1 of one byte. -/
def getUtf8 (ptr : List ℕ) : ℤ × ℕ :=
  match iterate ptr with
  | some (val, n) => (val, n)
  | none => if ptr.take 2 = [0xC0, 0x80] then (0, 2) else (-1, 1)

/-- A character takes at least one byte, so loops over a text end. -/
theorem getUtf8_pos (ptr : List ℕ) : 0 < (getUtf8 ptr).2 := by
  unfold getUtf8
  split
  case h_1 val n h =>
    unfold iterate at h
    repeat' split at h
    all_goals cases h
    all_goals exact Nat.succ_pos _
  case h_2 => split <;> exact Nat.succ_pos _

theorem encodeChar_ne_nil {c : ℕ} (h : c < 0x110000) : encodeChar c ≠ [] := by
  unfold encodeChar
  split_ifs <;> simp

theorem putUtf8_of_lt {c : ℕ} (h : c < 0x110000) : putUtf8 c = (encodeChar c).map some := if_pos h

theorem length_putUtf8_pos (c : ℕ) : 0 < (putUtf8 c).length := by
  unfold putUtf8
  split
  case isTrue h => exact List.length_pos_iff.mpr (by simpa using encodeChar_ne_nil h)
  case isFalse => exact Nat.one_pos

theorem encode_cons (c : ℕ) (s : List ℕ) : encode (c :: s) = encodeChar c ++ encode s := rfl

theorem encode_append (s t : List ℕ) : encode (s ++ t) = encode s ++ encode t := List.flatMap_append ..

/-- A text is put in a buffer as its bytes. -/
theorem flatMap_putUtf8 {s : List ℕ} (h : ∀ c ∈ s, c < 0x110000) : s.flatMap putUtf8 = (encode s).map some := by
  induction s with
  | nil => rfl
  | cons c s ih =>
      rw [List.flatMap_cons, encode_cons, List.map_append, putUtf8_of_lt (h c (List.mem_cons_self ..)),
        ih fun d hd => h d (List.mem_cons_of_mem _ hd)]

/-- The bytes of a text begin with the character. -/
theorem iterate_encodeChar {c : ℕ} (h : Scalar c) (bs : List ℕ) :
    iterate (encodeChar c ++ bs) = some (c, (encodeChar c).length) := by
  obtain ⟨-, hlt, hsur⟩ := h
  simp only [Surrogate, not_and, not_lt] at hsur
  unfold encodeChar
  split_ifs with h1 h2 h3
  · simp [iterate, h1]
  · have hcont : utfCont (0x80 + c % 64) := by simp [utfCont]; omega
    have hrange : ¬ (0xC0 + c / 64 < 0x80) ∧ ¬ (0xC0 + c / 64 < 0xC2 ∨ 0xF4 < 0xC0 + c / 64) ∧
        0xC0 + c / 64 < 0xE0 := by omega
    simp only [iterate, List.cons_append, List.nil_append, hrange, if_false, if_true, hcont]
    simp only [List.length_cons, List.length_nil, Option.some.injEq, Prod.mk.injEq, and_true]
    omega
  · have hb : utfCont (0x80 + c / 64 % 64) := by simp [utfCont]; omega
    have hc : utfCont (0x80 + c % 64) := by simp [utfCont]; omega
    have hrange : ¬ (0xE0 + c / 4096 < 0x80) ∧ ¬ (0xE0 + c / 4096 < 0xC2 ∨ 0xF4 < 0xE0 + c / 4096) ∧
        ¬ (0xE0 + c / 4096 < 0xE0) ∧ 0xE0 + c / 4096 < 0xF0 := by omega
    have hok : ¬ (0xE0 + c / 4096 = 0xED ∧ 0x9F < 0x80 + c / 64 % 64) := by omega
    have hval : (0xE0 + c / 4096) % 16 * 4096 + (0x80 + c / 64 % 64) % 64 * 64 + (0x80 + c % 64) % 64 = c := by
      omega
    simp only [iterate, List.cons_append, List.nil_append, hrange, if_false, if_true, hb, hc, hok,
      not_true_eq_false, or_self, hval]
    simp only [List.length_cons, List.length_nil]
    rw [if_neg (by omega)]
  · have hb : utfCont (0x80 + c / 4096 % 64) := by simp [utfCont]; omega
    have hc : utfCont (0x80 + c / 64 % 64) := by simp [utfCont]; omega
    have hd : utfCont (0x80 + c % 64) := by simp [utfCont]; omega
    have hrange : ¬ (0xF0 + c / 262144 < 0x80) ∧ ¬ (0xF0 + c / 262144 < 0xC2 ∨ 0xF4 < 0xF0 + c / 262144) ∧
        ¬ (0xF0 + c / 262144 < 0xE0) ∧ ¬ (0xF0 + c / 262144 < 0xF0) := by omega
    have hok : ¬ (0xF0 + c / 262144 = 0xF0 ∧ 0x80 + c / 4096 % 64 < 0x90) ∧
        ¬ (0xF0 + c / 262144 = 0xF4 ∧ 0x8F < 0x80 + c / 4096 % 64) := by omega
    have hval : (0xF0 + c / 262144) % 8 * 262144 + (0x80 + c / 4096 % 64) % 64 * 4096 +
        (0x80 + c / 64 % 64) % 64 * 64 + (0x80 + c % 64) % 64 = c := by omega
    simp only [iterate, List.cons_append, List.nil_append, hrange, if_false, hb, hc, hd, hok,
      not_true_eq_false, or_self, hval, List.length_cons, List.length_nil]

theorem getUtf8_encodeChar {c : ℕ} (h : Scalar c) (bs : List ℕ) :
    getUtf8 (encodeChar c ++ bs) = ((c : ℤ), (encodeChar c).length) := by
  rw [getUtf8, iterate_encodeChar h]

theorem encodeChar_surrogate {c : ℕ} (h : Surrogate c) :
    encodeChar c = [0xED, 0x80 + c / 64 % 64, 0x80 + c % 64] ∧ 0x9F < 0x80 + c / 64 % 64 := by
  obtain ⟨hle, hlt⟩ := h
  unfold encodeChar
  rw [if_neg (by omega), if_neg (by omega), if_pos (by omega)]
  simp only [List.cons.injEq, and_true]
  omega

/-- No character of a text begins with a byte of continuation. -/
theorem getUtf8_cont {b : ℕ} (hle : 0x80 ≤ b) (hlt : b < 0xC0) (bs : List ℕ) : getUtf8 (b :: bs) = (-1, 1) := by
  have hiter : iterate (b :: bs) = none := by
    have hrange : ¬ b < 0x80 ∧ (b < 0xC2 ∨ 0xF4 < b) := by omega
    simp [iterate, hrange]
  have htake : ¬ (b :: bs).take 2 = [0xC0, 0x80] := by
    intro h
    have hb := (List.cons.inj h).1
    omega
  rw [getUtf8, hiter]
  simp only [if_neg htake]

theorem getUtf8_surrogate {c : ℕ} (h : Surrogate c) (bs : List ℕ) : getUtf8 (encodeChar c ++ bs) = (-1, 1) := by
  obtain ⟨hchar, hlt⟩ := encodeChar_surrogate h
  rw [hchar, getUtf8]
  simp [iterate, hlt]

-- ---------------------------------------------------------------------------
-- Streams
-- ---------------------------------------------------------------------------

/-- `put_wchar` on a UTF-8 stream. A negative character goes out as one byte. -/
def putWchar (ch : ℤ) : List ℕ :=
  if ch < 0x80 then [(ch % 256).toNat]
  else
    let c := ch.toNat
    if c < 0x800 then [0xC0 + c / 64, 0x80 + c % 64]
    else if c < 0x10000 then [0xE0 + c / 4096, 0x80 + c / 64 % 64, 0x80 + c % 64]
    else if c < 0x200000 then
      [0xF0 + c / 262144, 0x80 + c / 4096 % 64, 0x80 + c / 64 % 64, 0x80 + c % 64]
    else []

/-- `get_wchar_UTF8`: a character and the rest of the stream, or its end. An error in
    the encoding is read as the character 1. -/
def getWchar : List ℕ → Option (ℕ × List ℕ)
  | [] => none
  | ch :: st =>
    if ch < 0x80 then some (ch, st)
    else if ch < 0xE0 then
      match st with
      | [] => none
      | c1 :: st => some (if utfCont c1 then ch % 32 * 64 + c1 % 64 else 1, st)
    else if ch < 0xF0 then
      match st with
      | [] => none
      | c1 :: st =>
        if ch = 0xED ∧ 0x9F < c1 then some (1, st)
        else
          match st with
          | [] => none
          | c2 :: st =>
            if ch % 16 * 4096 + c1 % 64 * 64 + c2 % 64 < 0x800 then some (1, st)
            else some (ch % 16 * 4096 + c1 % 64 * 64 + c2 % 64, st)
    else
      match st with
      | c1 :: c2 :: c3 :: st =>
        if ch = 0xF0 ∧ c1 < 0x90 ∨ ch ≠ 0xF0 ∧ c1 = 0xF4 ∧ 0x8F < c2 then some (1, st)
        else some (ch % 8 * 262144 + c1 % 64 * 4096 + c2 % 64 * 64 + c3 % 64, st)
      | _ => none

theorem length_getWchar {st st' : List ℕ} {c : ℕ} (h : getWchar st = some (c, st')) :
    st'.length < st.length := by
  unfold getWchar at h
  repeat' split at h
  all_goals cases h
  all_goals
    simp only [List.length_cons]
    omega

/-- The characters of a stream. -/
def decode (st : List ℕ) : List ℕ :=
  match _h : getWchar st with
  | none => []
  | some (c, st') => c :: decode st'
termination_by st.length
decreasing_by exact length_getWchar _h

theorem decode_none {st : List ℕ} (h : getWchar st = none) : decode st = [] := by
  rw [decode]
  split <;> simp_all

theorem decode_some {st st' : List ℕ} {c : ℕ} (h : getWchar st = some (c, st')) :
    decode st = c :: decode st' := by
  rw [decode]
  split <;> simp_all

/-- A character goes out as its bytes. -/
theorem putWchar_natCast {c : ℕ} (h : c < 0x110000) : putWchar c = encodeChar c := by
  unfold putWchar encodeChar
  simp only [Int.toNat_natCast]
  split_ifs <;> first | rfl | omega | simp only [List.cons.injEq, and_true]; omega

theorem getWchar_encodeChar {c : ℕ} (h : Scalar c) (st : List ℕ) :
    getWchar (encodeChar c ++ st) = some (c, st) := by
  obtain ⟨-, hlt, hsur⟩ := h
  simp only [Surrogate, not_and, not_lt] at hsur
  unfold encodeChar
  split_ifs with h1 h2 h3
  · simp [getWchar, h1]
  · have hcont : utfCont (0x80 + c % 64) := by simp [utfCont]; omega
    have hrange : ¬ (0xC0 + c / 64 < 0x80) ∧ 0xC0 + c / 64 < 0xE0 := by omega
    have hval : (0xC0 + c / 64) % 32 * 64 + (0x80 + c % 64) % 64 = c := by omega
    simp only [getWchar, List.cons_append, List.nil_append, hrange, if_false, if_true, hcont, hval]
  · have hrange : ¬ (0xE0 + c / 4096 < 0x80) ∧ ¬ (0xE0 + c / 4096 < 0xE0) ∧ 0xE0 + c / 4096 < 0xF0 := by omega
    have hok : ¬ (0xE0 + c / 4096 = 0xED ∧ 0x9F < 0x80 + c / 64 % 64) := by omega
    have hval : (0xE0 + c / 4096) % 16 * 4096 + (0x80 + c / 64 % 64) % 64 * 64 + (0x80 + c % 64) % 64 = c := by
      omega
    simp only [getWchar, List.cons_append, List.nil_append, hrange, if_false, if_true, hok, hval]
    rw [if_neg (by omega)]
  · have hrange : ¬ (0xF0 + c / 262144 < 0x80) ∧ ¬ (0xF0 + c / 262144 < 0xE0) ∧
        ¬ (0xF0 + c / 262144 < 0xF0) := by omega
    have hok : ¬ (0xF0 + c / 262144 = 0xF0 ∧ 0x80 + c / 4096 % 64 < 0x90 ∨
        0xF0 + c / 262144 ≠ 0xF0 ∧ 0x80 + c / 4096 % 64 = 0xF4 ∧ 0x8F < 0x80 + c / 64 % 64) := by omega
    have hval : (0xF0 + c / 262144) % 8 * 262144 + (0x80 + c / 4096 % 64) % 64 * 4096 +
        (0x80 + c / 64 % 64) % 64 * 64 + (0x80 + c % 64) % 64 = c := by omega
    simp only [getWchar, List.cons_append, List.nil_append, hrange, if_false, hok, hval]

/-- Decoding undoes encoding. -/
theorem decode_encode {s : List ℕ} (h : ∀ c ∈ s, Scalar c) (st : List ℕ) :
    decode (encode s ++ st) = s ++ decode st := by
  induction s with
  | nil => rfl
  | cons c s ih =>
      rw [encode_cons, List.append_assoc, decode_some (getWchar_encodeChar (h c (List.mem_cons_self ..)) _),
        ih fun d hd => h d (List.mem_cons_of_mem _ hd)]
      rfl

-- ---------------------------------------------------------------------------
-- Lengths
-- ---------------------------------------------------------------------------

/-- The bytes that characters take in a buffer. -/
def bufferLength (cs : List ℕ) : ℕ := (cs.flatMap putUtf8).length

@[simp] theorem bufferLength_nil : bufferLength [] = 0 := rfl

@[simp] theorem bufferLength_cons (c : ℕ) (cs : List ℕ) :
    bufferLength (c :: cs) = (putUtf8 c).length + bufferLength cs := by
  rw [bufferLength, List.flatMap_cons, List.length_append]
  rfl

theorem bufferLength_append (cs ds : List ℕ) : bufferLength (cs ++ ds) = bufferLength cs + bufferLength ds := by
  rw [bufferLength, List.flatMap_append, List.length_append]
  rfl

theorem bufferLength_eq {s : List ℕ} (h : ∀ c ∈ s, c < 0x110000) : bufferLength s = (encode s).length := by
  rw [bufferLength, flatMap_putUtf8 h, List.length_map]

theorem length_putUtf8_le {c : ℕ} : (putUtf8 c).length ≤
    if c < 0x80 then 1 else if c < 0x800 then 2 else if c < 0x10000 then 3 else 4 := by
  unfold putUtf8 encodeChar
  split_ifs <;> simp

/-- A character takes no more bytes in a buffer than it took on the stream. -/
theorem length_putUtf8_getWchar {st st' : List ℕ} {c : ℕ} (h : getWchar st = some (c, st')) :
    (putUtf8 c).length + st'.length ≤ st.length := by
  refine (Nat.add_le_add_right length_putUtf8_le _).trans ?_
  unfold getWchar at h
  repeat' split at h
  all_goals cases h
  all_goals
    simp only [List.length_cons]
    split_ifs <;> omega

theorem bufferLength_decode (st : List ℕ) : bufferLength (decode st) ≤ st.length := by
  induction hn : st.length using Nat.strongRecOn generalizing st with
  | ind n ih =>
      cases hget : getWchar st with
      | none =>
          rw [decode_none hget]
          exact Nat.zero_le _
      | some r =>
          obtain ⟨c, st'⟩ := r
          have hlt := length_getWchar hget
          have hle := length_putUtf8_getWchar hget
          rw [decode_some hget, bufferLength_cons]
          have hrest := ih st'.length (hn ▸ hlt) st' rfl
          omega

/-- A surrogate is not read back, and loses a byte. -/
theorem bufferLength_decode_surrogate {s t : List ℕ} {c : ℕ} (hs : ∀ d ∈ s, Scalar d) (hc : Surrogate c) :
    bufferLength (decode (encode (s ++ c :: t))) < (encode (s ++ c :: t)).length := by
  obtain ⟨hsplit, hbad⟩ := encodeChar_surrogate hc
  have hget : ∀ st, getWchar (encodeChar c ++ st) = some (1, (0x80 + c % 64) :: st) := by
    intro st
    rw [hsplit]
    simp [getWchar, hbad]
  rw [encode_append, encode_cons, decode_encode hs, decode_some (hget _), bufferLength_append, bufferLength_cons,
    bufferLength_eq fun d hd => (hs d hd).lt]
  have hrest := bufferLength_decode ((0x80 + c % 64) :: encode t)
  have hone : (putUtf8 1).length = 1 := rfl
  simp only [List.length_append, hsplit, List.length_cons, List.length_nil] at hrest ⊢
  omega

end Yap
