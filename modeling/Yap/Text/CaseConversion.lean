-- SUMMARY: The filters that change the case of a text inside its buffer, and the texts on which they are right.
import Yap.Text.Splice

/-!
# Changing case

`upcase` and `downcase` of `text.c` and `Yap_OverwriteUTF8BufferToLowCase` of `YapText.h`
read and write through one pointer. `Yap_CVT_Text` gives them a copy of the text in a
block of its size. The tables behind `utf8proc_toupper` and `utf8proc_tolower` are a
parameter.
-/

namespace Yap

-- ---------------------------------------------------------------------------
-- The filters
-- ---------------------------------------------------------------------------

/-- `utf8proc_toupper` or `utf8proc_tolower`: the image of a code point is a code point,
    and only NUL has the image NUL. -/
structure CaseMap where
  map : ℕ → ℕ
  map_zero : map 0 = 0
  map_scalar : ∀ c, Scalar c → Scalar (map c)

/-- What `put_utf8` leaves in the cells it is given. -/
def overwrite (new : List (Option ℕ)) (buf : List ℕ) : List ℕ := List.zipWith (fun o b => o.getD b) new buf

/-- What is put for a character: the image, and nothing for the character -1. -/
def CaseMap.put (m : CaseMap) (chr : ℤ) : List (Option ℕ) := if chr < 0 then [none] else putUtf8 (m.map chr.toNat)

theorem CaseMap.length_put_pos (m : CaseMap) (chr : ℤ) : 0 < (m.put chr).length := by
  unfold put
  split
  · exact Nat.one_pos
  · exact length_putUtf8_pos _

/-- The loop that the filters share, from the place of the pointer on. It has no value
    where it leaves the block. -/
def changeCase (m : CaseMap) (s : List ℕ) : Option (List ℕ) :=
  match s with
  | [] => none
  | b :: bs =>
    if b = 0 then some (b :: bs)
    else
      let new := m.put (getUtf8 (b :: bs)).1
      if (b :: bs).length < new.length then none
      else (changeCase m ((b :: bs).drop new.length)).map (overwrite new (b :: bs) ++ ·)
termination_by s.length
decreasing_by
  have hpos := m.length_put_pos (getUtf8 (b :: bs)).1
  rw [List.length_drop, List.length_cons]
  omega

/-- `upcase`. -/
def upcase (toupper : CaseMap) : List ℕ → Option (List ℕ) := changeCase toupper

/-- `downcase`. -/
def downcase (tolower : CaseMap) : List ℕ → Option (List ℕ) := changeCase tolower

/-- `Yap_OverwriteUTF8BufferToLowCase`. -/
def overwriteUTF8BufferToLowCase (tolower : CaseMap) : List ℕ → Option (List ℕ) := changeCase tolower

-- ---------------------------------------------------------------------------
-- Texts in buffers
-- ---------------------------------------------------------------------------

/-- The bytes of a character in a buffer, where NUL takes two. -/
def bufferChar (c : ℕ) : List ℕ := if c = 0 then [0xC0, 0x80] else encodeChar c

def bufferText (s : List ℕ) : List ℕ := s.flatMap bufferChar

/-- A code point that is no surrogate. -/
def CodePoint (c : ℕ) : Prop := c = 0 ∨ Scalar c

theorem CaseMap.codePoints_map (m : CaseMap) {s : List ℕ} (hs : ∀ c ∈ s, CodePoint c) :
    ∀ c ∈ s.map m.map, CodePoint c := by
  intro c hc
  obtain ⟨d, hd, rfl⟩ := List.mem_map.mp hc
  rcases hs d hd with rfl | h
  · exact .inl m.map_zero
  · exact .inr (m.map_scalar d h)

/-- `Yap_CVT_Text` with a filter: the bytes that `write_Text` finds before the NUL. -/
def cvtText (filter : List ℕ → Option (List ℕ)) (s : List ℕ) : Option (List ℕ) :=
  let buf := bufferText s ++ [0]
  (if buf.head? = some 0 then some buf else filter buf).map (List.takeWhile (· ≠ 0))

/-- The filter returns the text of the images, and stays within the block. -/
def CaseRight (filter : List ℕ → Option (List ℕ)) (m : CaseMap) (s : List ℕ) : Prop :=
  cvtText filter s = some (bufferText (s.map m.map))

/-- The image takes as many bytes as the character, which is not NUL. -/
def KeepsLength (m : CaseMap) (c : ℕ) : Prop := c ≠ 0 ∧ (encodeChar (m.map c)).length = (encodeChar c).length

instance (m : CaseMap) (c : ℕ) : Decidable (KeepsLength m c) := inferInstanceAs (Decidable (_ ∧ _))

-- ---------------------------------------------------------------------------
-- Bytes
-- ---------------------------------------------------------------------------

/-- A byte that goes on with a character. -/
def IsCont (b : ℕ) : Prop := 0x80 ≤ b ∧ b < 0xC0

theorem bufferChar_ne_nil {c : ℕ} (h : CodePoint c) : bufferChar c ≠ [] := by
  unfold bufferChar
  rcases h with rfl | h
  · simp
  · rw [if_neg h.pos.ne']
    exact encodeChar_ne_nil h.lt

theorem bufferChar_of_scalar {c : ℕ} (h : Scalar c) : bufferChar c = encodeChar c := if_neg h.pos.ne'

/-- The first byte of a character begins it, and the others go on with it. -/
theorem bufferChar_bytes {c : ℕ} (h : CodePoint c) :
    (∀ b ∈ (bufferChar c).head?, b ≠ 0 ∧ ¬ IsCont b) ∧ ∀ b ∈ (bufferChar c).tail, IsCont b := by
  unfold bufferChar encodeChar IsCont
  rcases h with rfl | h
  · simp
  · have hpos := h.pos
    have hlt := h.lt
    split_ifs <;> simp <;> omega

theorem bufferText_cons (c : ℕ) (s : List ℕ) : bufferText (c :: s) = bufferChar c ++ bufferText s := rfl

theorem bufferText_eq_nil {s : List ℕ} (hs : ∀ c ∈ s, CodePoint c) : bufferText s = [] ↔ s = [] := by
  cases s with
  | nil => simp [bufferText]
  | cons c s => simp [bufferText_cons, bufferChar_ne_nil (hs c (List.mem_cons_self ..))]

/-- A text does not begin in the middle of a character. -/
theorem not_isCont_of_bufferText {s bs : List ℕ} {b : ℕ} (hs : ∀ c ∈ s, CodePoint c)
    (h : b :: bs = bufferText s) : ¬ IsCont b := by
  cases s with
  | nil => simp [bufferText] at h
  | cons c s =>
    have hc := hs c (List.mem_cons_self ..)
    obtain ⟨b', bs', hb'⟩ := List.exists_cons_of_ne_nil (bufferChar_ne_nil hc)
    rw [bufferText_cons, hb', List.cons_append] at h
    obtain rfl := (List.cons.inj h).1
    exact ((bufferChar_bytes hc).1 b (by rw [hb']; rfl)).2

/-- The first character of a text is determined by its bytes. -/
theorem bufferText_of_encodeChar {d : ℕ} {s bs : List ℕ} (hd : Scalar d) (hs : ∀ c ∈ s, CodePoint c)
    (h : encodeChar d ++ bs = bufferText s) : ∃ s', s = d :: s' ∧ bs = bufferText s' := by
  cases s with
  | nil => simp [bufferText, encodeChar_ne_nil hd.lt] at h
  | cons c s =>
    have hiter := iterate_encodeChar hd bs
    rw [h, bufferText_cons] at hiter
    rcases hs c (List.mem_cons_self ..) with rfl | hc
    · simp [bufferChar, iterate] at hiter
    · rw [bufferChar_of_scalar hc, iterate_encodeChar hc] at hiter
      obtain ⟨rfl, -⟩ := Prod.mk.inj (Option.some.inj hiter)
      rw [bufferText_cons, bufferChar_of_scalar hc] at h
      exact ⟨s, rfl, List.append_cancel_left h⟩

theorem takeWhile_encodeChar {d : ℕ} (hd : Scalar d) (bs : List ℕ) :
    (encodeChar d ++ bs).takeWhile (· ≠ 0) = encodeChar d ++ bs.takeWhile (· ≠ 0) := by
  rw [List.takeWhile_append_of_pos]
  intro b hb
  exact decide_eq_true (encodeChar_mem hd hb).1.ne'

-- ---------------------------------------------------------------------------
-- Turns of the loop
-- ---------------------------------------------------------------------------

variable {m : CaseMap}

/-- A byte from the middle of a character stays. -/
theorem changeCase_cont {b : ℕ} (h : IsCont b) (bs : List ℕ) :
    changeCase m (b :: bs) = (changeCase m bs).map (b :: ·) := by
  have hget := getUtf8_cont h.1 h.2 bs
  have hpos : b ≠ 0 := by
    have := h.1
    omega
  rw [changeCase]
  simp [hpos, hget, CaseMap.put, overwrite]

/-- A character is replaced by its image, over as many bytes as the image has. -/
theorem changeCase_char {c : ℕ} (h : Scalar c) (bs : List ℕ) :
    changeCase m (encodeChar c ++ bs) =
      if (encodeChar c ++ bs).length < (encodeChar (m.map c)).length then none
      else (changeCase m ((encodeChar c ++ bs).drop (encodeChar (m.map c)).length)).map (encodeChar (m.map c) ++ ·) := by
  obtain ⟨b, bs', hb⟩ := List.exists_cons_of_ne_nil (encodeChar_ne_nil h.lt)
  have hpos : b ≠ 0 := (encodeChar_mem h (hb ▸ List.mem_cons_self ..)).1.ne'
  have hget := getUtf8_encodeChar h bs
  have hput : m.put (c : ℤ) = (encodeChar (m.map c)).map some := by
    rw [CaseMap.put, if_neg (by omega), Int.toNat_natCast, putUtf8_of_lt (m.map_scalar c h).lt]
  rw [hb, List.cons_append, changeCase, if_neg hpos, ← List.cons_append, ← hb, hget]
  simp only [hput, List.length_map]
  split
  case isTrue => rfl
  case isFalse hle =>
    -- the image covers the bytes below it
    have hover : overwrite ((encodeChar (m.map c)).map some) (encodeChar c ++ bs) = encodeChar (m.map c) := by
      rw [overwrite, List.zipWith_map_left]
      refine List.ext_getElem (by simp only [List.length_zipWith]; omega) fun i h₁ h₂ => ?_
      simp
    rw [hover]

/-- NUL ends the text. -/
theorem changeCase_nul {bs out : List ℕ} (h : changeCase m (bufferChar 0 ++ bs) = some out) :
    out.takeWhile (· ≠ 0) = [] := by
  have hget : getUtf8 (0xC0 :: 0x80 :: bs) = (0, 2) := by simp [getUtf8, iterate]
  have hput : m.put 0 = [some 0] := by
    rw [CaseMap.put, if_neg (by omega), Int.toNat_zero, m.map_zero]
    rfl
  rw [bufferChar, if_pos rfl, List.cons_append, List.cons_append, List.nil_append, changeCase, if_neg (by omega),
    hget] at h
  simp only [hput, List.length_cons, List.length_nil, Nat.reduceAdd, overwrite] at h
  rw [if_neg (by omega), Option.map_eq_some_iff] at h
  obtain ⟨out', -, rfl⟩ := h
  rfl

/-- From the middle of a character on, the loop does not end in a text. -/
theorem changeCase_cont_ne {b : ℕ} (hb : IsCont b) {bs out s : List ℕ} (hs : ∀ c ∈ s, CodePoint c)
    (h : changeCase m (b :: bs) = some out) : out.takeWhile (· ≠ 0) ≠ bufferText s := by
  rw [changeCase_cont hb, Option.map_eq_some_iff] at h
  obtain ⟨out', -, rfl⟩ := h
  have hpos : b ≠ 0 := by
    have := hb.1
    omega
  intro heq
  rw [List.takeWhile_cons_of_pos (by simpa using hpos)] at heq
  exact not_isCont_of_bufferText hs heq hb

theorem changeCase_drop_char {c j : ℕ} (hc : CodePoint c) (hpos : 0 < j) (hj : j < (bufferChar c).length)
    {bs out s : List ℕ} (hs : ∀ c ∈ s, CodePoint c) (h : changeCase m ((bufferChar c ++ bs).drop j) = some out) :
    out.takeWhile (· ≠ 0) ≠ bufferText s := by
  rw [List.drop_append_of_le_length hj.le, List.drop_eq_getElem_cons hj, List.cons_append] at h
  refine changeCase_cont_ne ((bufferChar_bytes hc).2 _ ?_) hs h
  obtain ⟨i, rfl⟩ := Nat.exists_eq_add_of_lt hpos
  obtain ⟨b, bs', hb⟩ := List.exists_cons_of_ne_nil (bufferChar_ne_nil hc)
  simp only [hb, Nat.zero_add, List.getElem_cons_succ, List.tail_cons]
  exact List.getElem_mem _

/-- A right result begins with the image of the first character, which is not shorter;
    behind it the loop has gone on with the rest of the text. -/
theorem changeCase_head {c : ℕ} (hc : Scalar c) {s out t : List ℕ} (ht : ∀ c ∈ t, CodePoint c)
    (h : changeCase m (bufferText (c :: s) ++ [0]) = some out) (hout : out.takeWhile (· ≠ 0) = bufferText t) :
    ∃ t' out', t = m.map c :: t' ∧ (encodeChar c).length ≤ (encodeChar (m.map c)).length ∧
      changeCase m ((bufferText s ++ [0]).drop ((encodeChar (m.map c)).length - (encodeChar c).length)) = some out' ∧
      out'.takeWhile (· ≠ 0) = bufferText t' := by
  have hmap := m.map_scalar c hc
  rw [bufferText_cons, List.append_assoc, bufferChar_of_scalar hc, changeCase_char hc] at h
  split at h
  case isTrue => cases h
  case isFalse =>
    obtain ⟨out', hrest, rfl⟩ := Option.map_eq_some_iff.mp h
    rw [takeWhile_encodeChar hmap] at hout
    obtain ⟨t', rfl, hout'⟩ := bufferText_of_encodeChar hmap ht hout
    have ht' := fun d hd => ht d (List.mem_cons_of_mem _ hd)
    by_cases hlt : (encodeChar (m.map c)).length < (encodeChar c).length
    · -- a shorter image leaves the end of the character behind
      have hpos := List.length_pos_iff.mpr (encodeChar_ne_nil hmap.lt)
      rw [← bufferChar_of_scalar hc] at hrest hlt
      exact absurd hout' (changeCase_drop_char (.inr hc) hpos hlt ht' hrest)
    · rw [not_lt] at hlt
      rw [List.drop_append, List.drop_of_length_le hlt, List.nil_append] at hrest
      exact ⟨t', out', rfl, hlt, hrest, hout'⟩

/-- The loop never makes more characters than there were, and fewer if it has begun
    behind the first byte. -/
theorem length_le_of_changeCase {s : List ℕ} (hs : ∀ c ∈ s, CodePoint c) {j : ℕ} {out t : List ℕ}
    (ht : ∀ c ∈ t, CodePoint c) (h : changeCase m ((bufferText s ++ [0]).drop j) = some out)
    (hout : out.takeWhile (· ≠ 0) = bufferText t) : t.length ≤ s.length ∧ (0 < j → t.length < s.length) := by
  induction s generalizing j out t with
  | nil =>
    rcases Nat.eq_zero_or_pos j with rfl | hpos
    · have hz : changeCase m [0] = some [0] := by
        rw [changeCase]
        simp
      obtain rfl := Option.some.inj (hz.symm.trans h)
      obtain rfl := (bufferText_eq_nil ht).mp hout.symm
      exact ⟨le_rfl, fun h => absurd h (lt_irrefl 0)⟩
    · rw [bufferText, List.flatMap_nil, List.nil_append, List.drop_of_length_le hpos, changeCase] at h
      cases h
  | cons c s ih =>
    have hc := hs c (List.mem_cons_self ..)
    have hs' := fun d hd => hs d (List.mem_cons_of_mem _ hd)
    rcases Nat.eq_zero_or_pos j with rfl | hpos
    · refine ⟨?_, fun h => absurd h (lt_irrefl 0)⟩
      rw [List.drop_zero] at h
      rcases hc with rfl | hc
      · -- a text that begins with NUL is empty
        rw [bufferText_cons, List.append_assoc] at h
        obtain rfl := (bufferText_eq_nil ht).mp (hout.symm.trans (changeCase_nul h))
        exact Nat.zero_le _
      · obtain ⟨t', out', rfl, -, hrest, hout'⟩ := changeCase_head hc ht h hout
        have hle := (ih hs' (fun d hd => ht d (List.mem_cons_of_mem _ hd)) hrest hout').1
        simpa using hle
    · rw [bufferText_cons, List.append_assoc] at h
      by_cases hj : j < (bufferChar c).length
      · exact absurd hout (changeCase_drop_char hc hpos hj ht h)
      · rw [List.drop_append, List.drop_of_length_le (not_lt.mp hj), List.nil_append] at h
        have hle := (ih hs' ht h hout).1
        rw [List.length_cons]
        exact ⟨by omega, fun _ => by omega⟩

-- ---------------------------------------------------------------------------
-- When the filters are right
-- ---------------------------------------------------------------------------

/-- Where every image has the length of its character, the text is replaced in place. -/
theorem changeCase_of_keepsLength {s : List ℕ} (hs : ∀ c ∈ s, CodePoint c) (h : ∀ c ∈ s, KeepsLength m c) :
    changeCase m (bufferText s ++ [0]) = some (bufferText (s.map m.map) ++ [0]) := by
  induction s with
  | nil =>
    rw [bufferText, List.flatMap_nil, List.nil_append, changeCase]
    simp [bufferText]
  | cons c s ih =>
    obtain ⟨hne, hlen⟩ := h c (List.mem_cons_self ..)
    have hc : Scalar c := (hs c (List.mem_cons_self ..)).resolve_left hne
    have hrest := ih (fun d hd => hs d (List.mem_cons_of_mem _ hd)) fun d hd => h d (List.mem_cons_of_mem _ hd)
    rw [bufferText_cons, List.append_assoc, bufferChar_of_scalar hc, changeCase_char hc, hlen, List.drop_left, hrest,
      if_neg (by rw [List.length_append]; omega), Option.map_some, List.map_cons, bufferText_cons,
      bufferChar_of_scalar (m.map_scalar c hc), List.append_assoc]

theorem keepsLength_of_changeCase {s out : List ℕ} (hs : ∀ c ∈ s, CodePoint c)
    (h : changeCase m (bufferText s ++ [0]) = some out)
    (hout : out.takeWhile (· ≠ 0) = bufferText (s.map m.map)) : ∀ c ∈ s, KeepsLength m c := by
  induction s generalizing out with
  | nil => exact fun c hc => absurd hc List.not_mem_nil
  | cons c s ih =>
    have hs' := fun d hd => hs d (List.mem_cons_of_mem _ hd)
    have hmap := m.codePoints_map hs
    rcases hs c (List.mem_cons_self ..) with rfl | hc
    · rw [bufferText_cons, List.append_assoc] at h
      have hnil := (bufferText_eq_nil hmap).mp (hout.symm.trans (changeCase_nul h))
      cases hnil
    · obtain ⟨t, out', ht, hle, hrest, hout'⟩ := changeCase_head hc hmap h hout
      obtain rfl := (List.cons.inj ht).2
      have hmap' := fun d hd => hmap d (List.mem_cons_of_mem _ hd)
      -- a longer image would cost a character
      have hzero : (encodeChar (m.map c)).length - (encodeChar c).length = 0 := by
        by_contra hne
        have hlt := (length_le_of_changeCase hs' hmap' hrest hout').2 (Nat.pos_of_ne_zero hne)
        rw [List.length_map] at hlt
        exact absurd hlt (lt_irrefl _)
      rw [hzero, List.drop_zero] at hrest
      rw [List.forall_mem_cons]
      exact ⟨⟨hc.pos.ne', by omega⟩, ih hs' hrest hout'⟩

theorem takeWhile_bufferText {s : List ℕ} (hs : ∀ c ∈ s, CodePoint c) (bs : List ℕ) :
    (bufferText s ++ 0 :: bs).takeWhile (· ≠ 0) = bufferText s := by
  induction s with
  | nil => rfl
  | cons c s ih =>
    have hrest := ih fun d hd => hs d (List.mem_cons_of_mem _ hd)
    rw [bufferText_cons, List.append_assoc, List.takeWhile_append_of_pos, hrest]
    intro b hb
    rcases hs c (List.mem_cons_self ..) with rfl | hc
    · rw [bufferChar, if_pos rfl] at hb
      rcases List.mem_pair.mp hb with rfl | rfl
      · rfl
      · rfl
    · rw [bufferChar_of_scalar hc] at hb
      exact decide_eq_true (encodeChar_mem hc hb).1.ne'

theorem caseRight_iff {s : List ℕ} (hs : ∀ c ∈ s, CodePoint c) :
    CaseRight (changeCase m) m s ↔ ∀ c ∈ s, KeepsLength m c := by
  have hmap := m.codePoints_map hs
  unfold CaseRight cvtText
  by_cases hzero : (bufferText s ++ [0]).head? = some 0
  · -- only the empty text is not given to the filter
    have hnil : s = [] := by
      cases s with
      | nil => rfl
      | cons c s =>
        have hc := hs c (List.mem_cons_self ..)
        obtain ⟨b, bs, hb⟩ := List.exists_cons_of_ne_nil (bufferChar_ne_nil hc)
        have hne := ((bufferChar_bytes hc).1 b (by rw [hb]; rfl)).1
        rw [bufferText_cons, hb] at hzero
        exact absurd (Option.some.inj hzero) hne
    subst hnil
    simp [bufferText]
  · simp only [if_neg hzero, Option.map_eq_some_iff]
    constructor
    · rintro ⟨out, h, hout⟩
      exact keepsLength_of_changeCase hs h hout
    · intro h
      exact ⟨_, changeCase_of_keepsLength hs h, takeWhile_bufferText hmap []⟩

/-- Two letters with their other case, and the dotless i, whose capital is ASCII. -/
def sampleUpper : CaseMap where
  map c := if c = 0x61 then 0x41 else if c = 0xE9 then 0xC9 else if c = 0x131 then 0x49 else c
  map_zero := rfl
  map_scalar c h := by
    split_ifs
    · exact ⟨by omega, by omega, by decide⟩
    · exact ⟨by omega, by omega, by decide⟩
    · exact ⟨by omega, by omega, by decide⟩
    · exact h

/-- The way back, and the capital I with a dot, whose small letter is ASCII. -/
def sampleLower : CaseMap where
  map c := if c = 0x41 then 0x61 else if c = 0xC9 then 0xE9 else if c = 0x130 then 0x69 else c
  map_zero := rfl
  map_scalar c h := by
    split_ifs
    · exact ⟨by omega, by omega, by decide⟩
    · exact ⟨by omega, by omega, by decide⟩
    · exact ⟨by omega, by omega, by decide⟩
    · exact h

theorem codePoint_accents : ∀ c ∈ [0x61, 0xE9], CodePoint c := by
  intro c hc
  rcases List.mem_pair.mp hc with rfl | rfl
  · exact .inr ⟨by omega, by omega, by decide⟩
  · exact .inr ⟨by omega, by omega, by decide⟩

end Yap
