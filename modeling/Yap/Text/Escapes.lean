-- SUMMARY: What the escape sequences stand for, and on which sequences the scanner reads just this.
import Yap.Text.Scan

/-!
# Escape sequences

An octal escape has one to three digits, a hexadecimal one at most two, and both are
closed by a backslash; `\u` and `\U` have four and eight digits. The scanner takes
every character from `A` to `f` for a hexadecimal digit, the backslash among them,
and computes octal escapes in a byte.
-/

namespace Yap

variable {category : ℕ → Category}

-- ---------------------------------------------------------------------------
-- What escapes stand for
-- ---------------------------------------------------------------------------

def octalDigit (ch : ℕ) : Option ℕ := if isOctal ch then some (ch - 48) else none

/-- At most `max` digits and a backslash: the number that goes on from `n`, and what
    comes after it. -/
def closedNumber (digit : ℕ → Option ℕ) (base : ℕ) : ℕ → ℕ → List ℕ → Option (ℕ × List ℕ)
  | _, _, [] => none
  | max, n, ch :: st =>
    match digit ch, max with
    | some d, max + 1 => closedNumber digit base max (n * base + d) st
    | some _, 0 => none
    | none, _ => if ch = backslash then some (n, st) else none

/-- The number that hexadecimal digits denote. -/
def hexValue (ds : List ℕ) : ℕ := ds.foldl (fun n ch => n * 16 + (hexDigit ch).getD 0) 0

/-- Just `n` hexadecimal digits that denote a code point, and what comes after them. -/
def codePoint (n : ℕ) (st : List ℕ) : Option (ℕ × List ℕ) :=
  let ds := st.take n
  if ds.length = n ∧ (∀ ch ∈ ds, (hexDigit ch).isSome) ∧ hexValue ds < 0x110000 then
    some (hexValue ds, st.drop n)
  else none

variable (category)

/-- What a sequence after a backslash stands for, and what comes after it. The layout
    after `\c` is skipped; `\^` is as the scanner has it. -/
def escaped (st : List ℕ) : Option (ℕ × List ℕ) :=
  match st with
  | [] => none
  | ch :: st =>
    match letterEscapes.lookup ch with
    | some value => some (value, st)
    | none =>
      if ch = 'c'.toNat then
        match _h : st.dropWhile fun c => chtype category c = .bs with
        | [] => none
        | c :: st' => if c = backslash then escaped st' else some (c, st')
      else if ch = 'u'.toNat then codePoint 4 st
      else if ch = 'U'.toNat then codePoint 8 st
      else if ch = '^'.toNat then some ((readControl st).value, (readControl st).rest)
      else if isOctal ch then closedNumber octalDigit 8 3 0 (ch :: st)
      else if ch = 'x'.toNat then closedNumber hexDigit 16 2 0 st
      else none
termination_by st.length
decreasing_by
  have hle := (List.dropWhile_sublist (fun c => chtype category c = .bs) (l := st)).length_le
  rw [_h] at hle
  simp only [List.length_cons] at hle ⊢
  omega

/-- A result is what a sequence stands for: the character, or an error. -/
def QuotedChar.Reads (r : QuotedChar) : Option (ℕ × List ℕ) → Prop
  | some (value, rest) => r = .char value rest
  | none => r.error ≠ none

/-- The sequences that the scanner does not read as what they stand for. -/
inductive Slip : List ℕ → Prop
  /-- a number above 255 -/
  | octal {a b c : ℕ} {st : List ℕ} : isOctal a → isOctal b → isOctal c → '4'.toNat ≤ a →
      Slip (a :: b :: c :: backslash :: st)
  /-- no digit, or one -/
  | emptyHex {st : List ℕ} : Slip ('x'.toNat :: backslash :: st)
  | oneHex {d : ℕ} {st : List ℕ} : (hexDigit d).isSome → Slip ('x'.toNat :: d :: backslash :: st)
  /-- characters taken for digits -/
  | notHex {d e : ℕ} {st : List ℕ} : isXDigit category d → isXDigit category e →
      ¬ ((hexDigit d).isSome ∧ (hexDigit e).isSome) → Slip ('x'.toNat :: d :: e :: backslash :: st)
  /-- no code point -/
  | large {st : List ℕ} : (st.take 8).length = 8 → (∀ ch ∈ st.take 8, (hexDigit ch).isSome) →
      0x110000 ≤ hexValue (st.take 8) → Slip ('U'.toNat :: st)
  | layout {st st' : List ℕ} : (st.dropWhile fun c => chtype category c = .bs) = backslash :: st' → Slip st' →
      Slip ('c'.toNat :: st)
  /-- layout up to the end of the stream -/
  | layoutEnd {st : List ℕ} : (st.dropWhile fun c => chtype category c = .bs) = [] → Slip ('c'.toNat :: st)

variable {category}

-- ---------------------------------------------------------------------------
-- Octal escapes
-- ---------------------------------------------------------------------------

theorem slip_octal_iff {a : ℕ} (ha : isOctal a) {st : List ℕ} :
    Slip category (a :: st) ↔
      ∃ b c rest, st = b :: c :: backslash :: rest ∧ isOctal b ∧ isOctal c ∧ '4'.toNat ≤ a := by
  constructor
  · intro h
    cases h with
    | octal _ hb hc hle => exact ⟨_, _, _, rfl, hb, hc, hle⟩
    | emptyHex => exact absurd ha (by decide)
    | oneHex => exact absurd ha (by decide)
    | notHex => exact absurd ha (by decide)
    | large => exact absurd ha (by decide)
    | layout => exact absurd ha (by decide)
    | layoutEnd => exact absurd ha (by decide)
  · rintro ⟨b, c, rest, rfl, hb, hc, hle⟩
    exact .octal ha hb hc hle

theorem isOctal_iff {ch : ℕ} : isOctal ch = true ↔ 48 ≤ ch ∧ ch < 56 := decide_eq_true_iff

theorem octalDigit_of_octal {ch : ℕ} (h : isOctal ch = true) : octalDigit ch = some (ch - 48) := if_pos h

theorem octalDigit_of_not_octal {ch : ℕ} (h : ¬ isOctal ch = true) : octalDigit ch = none := if_neg h

theorem readOctal_reads_iff {a : ℕ} (ha : isOctal a) (st : List ℕ) :
    (readOctal (a - 48) st).Reads (closedNumber octalDigit 8 3 0 (a :: st)) ↔ ¬ Slip category (a :: st) := by
  rw [slip_octal_iff ha]
  cases st with
  | nil => simp [readOctal, closedNumber, octalDigit_of_octal ha, QuotedChar.Reads, QuotedChar.fail]
  | cons b st =>
    by_cases hb : isOctal b = true
    · cases st with
      | nil =>
        simp [readOctal, closedNumber, octalDigit_of_octal ha, octalDigit_of_octal hb, hb, QuotedChar.Reads,
          QuotedChar.fail]
      | cons c st =>
        by_cases hc : isOctal c = true
        · cases st with
          | nil =>
            simp [readOctal, closedNumber, octalDigit_of_octal ha, octalDigit_of_octal hb, octalDigit_of_octal hc,
              hb, hc, QuotedChar.Reads, QuotedChar.fail]
          | cons d st =>
            have hslip : (∃ b' c' rest, b :: c :: d :: st = b' :: c' :: backslash :: rest ∧ isOctal b' ∧ isOctal c' ∧
                '4'.toNat ≤ a) ↔ d = backslash ∧ 52 ≤ a := by
              constructor
              · rintro ⟨_, _, _, heq, -, -, hle⟩
                simp only [List.cons.injEq] at heq
                exact ⟨heq.2.2.1, hle⟩
              · rintro ⟨rfl, hle⟩
                exact ⟨b, c, st, rfl, hb, hc, hle⟩
            rw [hslip]
            have ha' := isOctal_iff.1 ha
            have hb' := isOctal_iff.1 hb
            have hc' := isOctal_iff.1 hc
            obtain rfl | hd := eq_or_ne d backslash
            · have hback : ¬ isOctal backslash = true := by decide
              simp [readOctal, closedNumber, octalDigit_of_octal ha, octalDigit_of_octal hb, octalDigit_of_octal hc,
                octalDigit_of_not_octal hback, hb, hc, QuotedChar.Reads, QuotedChar.char]
              omega
            · by_cases hd' : isOctal d = true
              · simp [readOctal, closedNumber, octalDigit_of_octal ha, octalDigit_of_octal hb, octalDigit_of_octal hc,
                  octalDigit_of_octal hd', hb, hc, hd, QuotedChar.Reads, QuotedChar.fail]
              · simp [readOctal, closedNumber, octalDigit_of_octal ha, octalDigit_of_octal hb, octalDigit_of_octal hc,
                  octalDigit_of_not_octal hd', hb, hc, hd, QuotedChar.Reads, QuotedChar.fail]
        · obtain rfl | hc' := eq_or_ne c backslash
          · simp [readOctal, closedNumber, octalDigit_of_octal ha, octalDigit_of_octal hb, octalDigit_of_not_octal hc,
              hb, hc, QuotedChar.Reads, QuotedChar.char]
          · simp [readOctal, closedNumber, octalDigit_of_octal ha, octalDigit_of_octal hb, octalDigit_of_not_octal hc,
              hb, hc, hc', QuotedChar.Reads, QuotedChar.fail]
    · obtain rfl | hb' := eq_or_ne b backslash
      · simp [readOctal, closedNumber, octalDigit_of_octal ha, octalDigit_of_not_octal hb,
          hb, QuotedChar.Reads, QuotedChar.char]
      · simp [readOctal, closedNumber, octalDigit_of_octal ha, octalDigit_of_not_octal hb,
          hb, hb', QuotedChar.Reads, QuotedChar.fail]

-- ---------------------------------------------------------------------------
-- Hexadecimal escapes
-- ---------------------------------------------------------------------------

theorem slip_hex_iff {st : List ℕ} :
    Slip category ('x'.toNat :: st) ↔
      (∃ rest, st = backslash :: rest) ∨ (∃ d rest, st = d :: backslash :: rest ∧ (hexDigit d).isSome) ∨
        ∃ d e rest, st = d :: e :: backslash :: rest ∧ isXDigit category d ∧ isXDigit category e ∧
          ¬ ((hexDigit d).isSome ∧ (hexDigit e).isSome) := by
  constructor
  · intro h
    cases h with
    | octal ha => exact absurd ha (by decide)
    | emptyHex => exact .inl ⟨_, rfl⟩
    | oneHex hd => exact .inr (.inl ⟨_, _, rfl, hd⟩)
    | notHex hd he hne => exact .inr (.inr ⟨_, _, _, rfl, hd, he, hne⟩)
  · rintro (⟨rest, rfl⟩ | ⟨d, rest, rfl, hd⟩ | ⟨d, e, rest, rfl, hd, he, hne⟩)
    · exact .emptyHex
    · exact .oneHex hd
    · exact .notHex hd he hne

variable (category) in
theorem isXDigit_backslash : isXDigit category backslash = true := by
  simp [isXDigit, backslash]

theorem hexDigit_backslash : hexDigit backslash = none := by decide

theorem hex_ne_backslash {ch v : ℕ} (h : hexDigit ch = some v) : ch ≠ backslash := by
  rintro rfl
  rw [hexDigit_backslash] at h
  cases h

/-- The range of a hexadecimal digit, with its value. -/
theorem hexDigit_cases {ch v : ℕ} (h : hexDigit ch = some v) :
    (48 ≤ ch ∧ ch ≤ 57 ∧ v = ch - 48) ∨ (97 ≤ ch ∧ ch ≤ 102 ∧ v = ch - 97 + 10) ∨
      (65 ≤ ch ∧ ch ≤ 70 ∧ v = ch - 65 + 10) := by
  unfold hexDigit at h
  split_ifs at h with h₁ h₂ h₃
  · exact .inl ⟨h₁.1, h₁.2, (Option.some.inj h).symm⟩
  · exact .inr (.inl ⟨h₂.1, h₂.2, (Option.some.inj h).symm⟩)
  · exact .inr (.inr ⟨h₃.1, h₃.2, (Option.some.inj h).symm⟩)

/-- Below 256 the digits are those of the class `NU`. -/
theorem byteKind_eq_nu {ch : ℕ} (h : ch < 256) : byteKind ch = .nu ↔ 48 ≤ ch ∧ ch ≤ 57 := by
  have htable : ∀ e ∈ chtypeTable.zipIdx, e.1 = .nu ↔ 48 ≤ e.2 ∧ e.2 ≤ 57 := by decide +kernel
  have hlength : chtypeTable.length = 256 := by decide +kernel
  have hlen : ch < chtypeTable.length := hlength ▸ h
  rw [byteKind, List.getD_eq_getElem _ _ hlen]
  exact htable (chtypeTable[ch], ch) (List.mk_mem_zipIdx_iff_getElem?.mpr (List.getElem?_eq_getElem hlen))

theorem chtype_eq_nu {ch : ℕ} (h : ch < 256) : chtype category ch = .nu ↔ 48 ≤ ch ∧ ch ≤ 57 := by
  rw [chtype_of_lt h, byteKind_eq_nu h]

variable (category) in
theorem isXDigit_of_hex {ch v : ℕ} (h : hexDigit ch = some v) : isXDigit category ch = true := by
  simp only [isXDigit, decide_eq_true_eq]
  obtain ⟨hlo, hhi, -⟩ | ⟨hlo, hhi, -⟩ | ⟨hlo, hhi, -⟩ := hexDigit_cases h
  · exact .inl ((chtype_eq_nu (by omega)).2 ⟨hlo, hhi⟩)
  · exact .inr (.inl ⟨show 65 ≤ ch by omega, hhi⟩)
  · exact .inr (.inl ⟨hlo, show ch ≤ 102 by omega⟩)

theorem addXDigit_of_hex {ch v n : ℕ} (h : hexDigit ch = some v) :
    addXDigit category n ch = (n * 16 + v) % 256 := by
  have hv : ((if chtype category ch = .nu then (ch : ℤ) - 48
      else if 'A'.toNat ≤ ch ∧ ch ≤ 'Z'.toNat then (ch : ℤ) - 65 + 10 else (ch : ℤ) - 97 + 10)) = v := by
    have hA : 'A'.toNat = 65 := rfl
    have hZ : 'Z'.toNat = 90 := rfl
    rw [hA, hZ]
    obtain ⟨hlo, hhi, rfl⟩ | ⟨hlo, hhi, rfl⟩ | ⟨hlo, hhi, rfl⟩ := hexDigit_cases h
    · rw [if_pos ((chtype_eq_nu (by omega)).2 ⟨hlo, hhi⟩)]
      omega
    · rw [if_neg fun hnu => (by have := (chtype_eq_nu (by omega)).1 hnu; omega), if_neg (by omega)]
      omega
    · rw [if_neg fun hnu => (by have := (chtype_eq_nu (by omega)).1 hnu; omega), if_pos (by omega)]
      omega
  rw [addXDigit, hv]
  omega

variable (category) in
/-- What the scanner takes for a hexadecimal escape: two characters and a backslash. -/
theorem readHex_spec (st : List ℕ) :
    (∃ d e rest, st = d :: e :: backslash :: rest ∧ isXDigit category d ∧ isXDigit category e ∧
        readHex category st = .char (addXDigit category (addXDigit category 0 d) e) rest) ∨
      (∀ d e rest, st = d :: e :: backslash :: rest → ¬ (isXDigit category d ∧ isXDigit category e)) ∧
        (readHex category st).error ≠ none := by
  have hxb := isXDigit_backslash category
  unfold readHex
  cases st with
  | nil => exact .inr ⟨by rintro d e rest ⟨⟩, by simp [QuotedChar.fail]⟩
  | cons d st =>
    by_cases hd : isXDigit category d = true
    · cases st with
      | nil => exact .inr ⟨by rintro d e rest ⟨⟩, by simp [hd, QuotedChar.fail]⟩
      | cons e st =>
        by_cases he : isXDigit category e = true
        · cases st with
          | nil => exact .inr ⟨by rintro d e rest ⟨⟩, by simp [hd, he, QuotedChar.fail]⟩
          | cons f st =>
            by_cases hf : f = backslash
            · subst hf
              exact .inl ⟨d, e, st, rfl, hd, he, by simp [hd, he]⟩
            · refine .inr ⟨?_, by simp [hd, he, hf, QuotedChar.fail]⟩
              rintro d e rest ⟨⟩
              exact absurd rfl hf
        · have heb : e ≠ backslash := fun heq => he (heq ▸ hxb)
          refine .inr ⟨?_, by simp [hd, he, heb, QuotedChar.fail]⟩
          rintro d e rest ⟨⟩
          exact fun h => he h.2
    · have hdb : d ≠ backslash := fun heq => hd (heq ▸ hxb)
      refine .inr ⟨?_, by simp [hd, hdb, QuotedChar.fail]⟩
      rintro d e rest ⟨⟩
      exact fun h => hd h.1

section

variable {digit : ℕ → Option ℕ} {base max n v ch : ℕ} {st : List ℕ}

theorem closedNumber_digit (h : digit ch = some v) :
    closedNumber digit base (max + 1) n (ch :: st) = closedNumber digit base max (n * base + v) st := by
  simp [closedNumber, h]

theorem closedNumber_full (h : digit ch = some v) : closedNumber digit base 0 n (ch :: st) = none := by
  simp [closedNumber, h]

theorem closedNumber_end (h : digit ch = none) :
    closedNumber digit base max n (ch :: st) = if ch = backslash then some (n, st) else none := by
  cases max <;> simp [closedNumber, h]

end

/-- A hexadecimal escape has no digit, or one, or two. -/
theorem closedNumber_hex_eq_some {st : List ℕ} {p : ℕ × List ℕ} :
    closedNumber hexDigit 16 2 0 st = some p ↔
      (st = backslash :: p.2 ∧ p.1 = 0) ∨ (∃ d, st = d :: backslash :: p.2 ∧ hexDigit d = some p.1) ∨
        ∃ d e v w, st = d :: e :: backslash :: p.2 ∧ hexDigit d = some v ∧ hexDigit e = some w ∧
          p.1 = v * 16 + w := by
  obtain ⟨n, rest⟩ := p
  constructor
  · intro h
    cases st with
    | nil => cases h
    | cons d st =>
      cases hd : hexDigit d with
      | none =>
        rw [closedNumber_end hd] at h
        split_ifs at h with hdb
        obtain ⟨rfl, rfl⟩ := Prod.mk.inj (Option.some.inj h)
        exact .inl ⟨by rw [hdb], rfl⟩
      | some v =>
        rw [closedNumber_digit hd] at h
        cases st with
        | nil => cases h
        | cons e st =>
          cases he : hexDigit e with
          | none =>
            rw [closedNumber_end he] at h
            split_ifs at h with heb
            obtain ⟨rfl, rfl⟩ := Prod.mk.inj (Option.some.inj h)
            exact .inr (.inl ⟨d, by rw [heb], by simpa using hd⟩)
          | some w =>
            rw [closedNumber_digit he] at h
            cases st with
            | nil => cases h
            | cons f st =>
              cases hf : hexDigit f with
              | none =>
                rw [closedNumber_end hf] at h
                split_ifs at h with hfb
                obtain ⟨rfl, rfl⟩ := Prod.mk.inj (Option.some.inj h)
                exact .inr (.inr ⟨d, e, v, w, by rw [hfb], hd, he, by simp⟩)
              | some x =>
                rw [closedNumber_full hf] at h
                cases h
  · simp only
    rintro (⟨rfl, rfl⟩ | ⟨d, rfl, hd⟩ | ⟨d, e, v, w, rfl, hd, he, rfl⟩)
    · rw [closedNumber_end hexDigit_backslash, if_pos rfl]
    · rw [closedNumber_digit hd, closedNumber_end hexDigit_backslash, if_pos rfl, zero_mul, zero_add]
    · rw [closedNumber_digit hd, closedNumber_digit he, closedNumber_end hexDigit_backslash, if_pos rfl, zero_mul,
        zero_add]

/-- The scanner reads a hexadecimal escape as it is only if it has two digits. -/
theorem readHex_reads_iff (st : List ℕ) :
    (readHex category st).Reads (closedNumber hexDigit 16 2 0 st) ↔ ¬ Slip category ('x'.toNat :: st) := by
  rw [slip_hex_iff]
  cases hexp : closedNumber hexDigit 16 2 0 st with
  | none =>
    have hsome : ∀ p, closedNumber hexDigit 16 2 0 st ≠ some p := fun p h => by rw [hexp] at h; cases h
    rcases readHex_spec category st with ⟨d, e, rest, rfl, hd, he, hread⟩ | ⟨hnot, herror⟩
    · refine iff_of_false (fun h => h (hread ▸ rfl)) (not_not.2 (.inr (.inr ⟨d, e, rest, rfl, hd, he, ?_⟩)))
      rintro ⟨hd', he'⟩
      obtain ⟨v, hv⟩ := Option.isSome_iff_exists.1 hd'
      obtain ⟨w, hw⟩ := Option.isSome_iff_exists.1 he'
      exact hsome (_, _) (closedNumber_hex_eq_some.2 (.inr (.inr ⟨d, e, v, w, rfl, hv, hw, rfl⟩)))
    · refine iff_of_true herror ?_
      rintro (⟨rest, rfl⟩ | ⟨d, rest, rfl, hd⟩ | ⟨d, e, rest, rfl, hd, he, -⟩)
      · exact hsome (_, _) (closedNumber_hex_eq_some.2 (.inl ⟨rfl, rfl⟩))
      · obtain ⟨v, hv⟩ := Option.isSome_iff_exists.1 hd
        exact hsome (_, _) (closedNumber_hex_eq_some.2 (.inr (.inl ⟨d, rfl, hv⟩)))
      · exact hnot d e rest rfl ⟨hd, he⟩
  | some p =>
    obtain ⟨n, rest⟩ := p
    have hform := closedNumber_hex_eq_some.1 hexp
    simp only at hform
    -- a closed escape of fewer than two digits is not read: the backslash is taken for a digit
    have hshort : (readHex category st).Reads (some (n, rest)) → ∃ d e, st = d :: e :: backslash :: rest := by
      intro h
      rcases readHex_spec category st with ⟨d, e, rest', rfl, -, -, hread⟩ | ⟨-, herror⟩
      · have heq := congrArg QuotedChar.rest (hread.symm.trans h)
        exact ⟨d, e, by rw [show rest' = rest from heq]⟩
      · exact absurd (congrArg QuotedChar.error h) herror
    rcases hform with ⟨rfl, -⟩ | ⟨d, rfl, hd⟩ | ⟨d, e, v, w, rfl, hd, he, rfl⟩
    · refine iff_of_false (fun h => ?_) (not_not.2 (.inl ⟨rest, rfl⟩))
      obtain ⟨d, e, heq⟩ := hshort h
      have hlen := congrArg List.length heq
      simp at hlen
    · refine iff_of_false (fun h => ?_) (not_not.2 (.inr (.inl ⟨d, rest, rfl, by rw [hd]; rfl⟩)))
      obtain ⟨d', e, heq⟩ := hshort h
      have hlen := congrArg List.length heq
      simp at hlen
    · have hxd := isXDigit_of_hex category hd
      have hxe := isXDigit_of_hex category he
      have hvalue : v < 16 ∧ w < 16 := by
        have := hexDigit_cases hd
        have := hexDigit_cases he
        omega
      refine iff_of_true ?_ ?_
      · rw [QuotedChar.Reads, readHex, if_pos hxd]
        simp only [if_pos hxe, if_true]
        rw [addXDigit_of_hex hd, addXDigit_of_hex he]
        congr 1
        omega
      · rintro (⟨rest', heq⟩ | ⟨d', rest', heq, -⟩ | ⟨d', e', rest', heq, -, -, hne⟩)
        · exact hex_ne_backslash hd (List.cons.inj heq).1
        · exact hex_ne_backslash he (List.cons.inj (List.cons.inj heq).2).1
        · obtain ⟨rfl, heq'⟩ := List.cons.inj heq
          obtain ⟨rfl, -⟩ := List.cons.inj heq'
          exact hne ⟨by rw [hd]; rfl, by rw [he]; rfl⟩

-- ---------------------------------------------------------------------------
-- Code points
-- ---------------------------------------------------------------------------

theorem hexDigit_lt {ch v : ℕ} (h : hexDigit ch = some v) : v < 16 := by
  have := hexDigit_cases h
  omega

theorem foldl_hexValue (ds : List ℕ) (n : ℕ) :
    ds.foldl (fun n ch => n * 16 + (hexDigit ch).getD 0) n = n * 16 ^ ds.length + hexValue ds := by
  induction ds generalizing n with
  | nil => simp [hexValue]
  | cons d ds ih =>
    rw [hexValue, List.foldl_cons, List.foldl_cons, ih, ih (0 * 16 + _), List.length_cons, pow_succ]
    ring

theorem hexValue_cons (d : ℕ) (ds : List ℕ) :
    hexValue (d :: ds) = (hexDigit d).getD 0 * 16 ^ ds.length + hexValue ds := by
  rw [hexValue, List.foldl_cons, foldl_hexValue, zero_mul, zero_add]

theorem hexValue_lt {ds : List ℕ} (h : ∀ ch ∈ ds, (hexDigit ch).isSome) : hexValue ds < 16 ^ ds.length := by
  induction ds with
  | nil => exact Nat.one_pos
  | cons d ds ih =>
    obtain ⟨v, hv⟩ := Option.isSome_iff_exists.1 (h d (List.mem_cons_self ..))
    have hlt := ih fun ch hch => h ch (List.mem_cons_of_mem _ hch)
    have hd := hexDigit_lt hv
    rw [hexValue_cons, hv, Option.getD_some, List.length_cons, pow_succ]
    nlinarith

/-- The digits are read if they are there. -/
theorem readHexDigits_of_digits {n wc : ℕ} {st : List ℕ} (hlen : (st.take n).length = n)
    (h : ∀ ch ∈ st.take n, (hexDigit ch).isSome) :
    readHexDigits n wc st = .char ((wc + hexValue (st.take n)) % 2 ^ 32) (st.drop n) := by
  induction n generalizing wc st with
  | zero => rfl
  | succ n ih =>
    cases st with
    | nil => cases hlen
    | cons d st =>
      rw [List.take_succ_cons] at hlen h
      have hlen' : (st.take n).length = n := Nat.succ.inj hlen
      obtain ⟨v, hv⟩ := Option.isSome_iff_exists.1 (h d (List.mem_cons_self ..))
      rw [readHexDigits, hv, List.take_succ_cons, hexValue_cons, hlen', hv, Option.getD_some, List.drop_succ_cons]
      exact (ih hlen' fun ch hch => h ch (List.mem_cons_of_mem _ hch)).trans (by rw [add_assoc])

theorem readHexDigits_error {n wc : ℕ} {st : List ℕ}
    (h : ¬ ((st.take n).length = n ∧ ∀ ch ∈ st.take n, (hexDigit ch).isSome)) :
    (readHexDigits n wc st).error ≠ none := by
  induction n generalizing wc st with
  | zero => exact absurd ⟨rfl, by simp⟩ h
  | succ n ih =>
    cases st with
    | nil => simp [readHexDigits, QuotedChar.fail]
    | cons d st =>
      rw [readHexDigits]
      cases hd : hexDigit d with
      | none => simp [QuotedChar.fail]
      | some v =>
        refine ih fun hst => h ⟨?_, ?_⟩
        · rw [List.take_succ_cons, List.length_cons, hst.1]
        · rw [List.take_succ_cons]
          exact List.forall_mem_cons.2 ⟨by rw [hd]; rfl, hst.2⟩

/-- Digits are read as they are if they denote a code point. -/
theorem readHexDigits_reads_iff {n : ℕ} (hn : n ≤ 8) (st : List ℕ) :
    (readHexDigits n 0 st).Reads (codePoint n st) ↔
      ¬ ((st.take n).length = n ∧ (∀ ch ∈ st.take n, (hexDigit ch).isSome) ∧ 0x110000 ≤ hexValue (st.take n)) := by
  by_cases hdigits : (st.take n).length = n ∧ ∀ ch ∈ st.take n, (hexDigit ch).isSome
  · have hlt : hexValue (st.take n) < 2 ^ 32 := by
      refine (hexValue_lt hdigits.2).trans_le ?_
      rw [hdigits.1, show (2 : ℕ) ^ 32 = 16 ^ 8 by norm_num]
      exact Nat.pow_le_pow_right (by norm_num) hn
    rw [readHexDigits_of_digits hdigits.1 hdigits.2, zero_add, Nat.mod_eq_of_lt hlt]
    by_cases hlarge : 0x110000 ≤ hexValue (st.take n)
    · have hexp : codePoint n st = none := if_neg fun h => absurd h.2.2 (not_lt.2 hlarge)
      rw [hexp]
      exact iff_of_false (fun h => h rfl) (not_not.2 ⟨hdigits.1, hdigits.2, hlarge⟩)
    · have hexp : codePoint n st = some (hexValue (st.take n), st.drop n) :=
        if_pos ⟨hdigits.1, hdigits.2, not_le.1 hlarge⟩
      rw [hexp]
      exact iff_of_true rfl fun h => hlarge h.2.2
  · have hexp : codePoint n st = none := if_neg fun h => hdigits ⟨h.1, h.2.1⟩
    rw [hexp]
    exact iff_of_true (readHexDigits_error hdigits) fun h => hdigits ⟨h.1, h.2.1⟩

-- ---------------------------------------------------------------------------
-- The specification
-- ---------------------------------------------------------------------------

/-- `read_quoted_char` reads a sequence as what it stands for. -/
def EscapeRight (category : ℕ → Category) (st : List ℕ) : Prop :=
  (readQuotedChar category st).Reads (escaped category st)

/-- Only octal escapes and the letters `x`, `U` and `c` can slip. -/
theorem not_slip_of_head {ch : ℕ} (hoctal : ¬ isOctal ch = true) (hx : ch ≠ 'x'.toNat) (hU : ch ≠ 'U'.toNat)
    (hc : ch ≠ 'c'.toNat) (st : List ℕ) : ¬ Slip category (ch :: st) := by
  intro h
  cases h with
  | octal ha => exact hoctal ha
  | emptyHex => exact hx rfl
  | oneHex => exact hx rfl
  | notHex => exact hx rfl
  | large => exact hU rfl
  | layout => exact hc rfl
  | layoutEnd => exact hc rfl

theorem lookup_letter_ne {ch v : ℕ} (h : letterEscapes.lookup ch = some v) {ch' : ℕ}
    (h' : letterEscapes.lookup ch' = none) : ch ≠ ch' := by
  rintro rfl
  rw [h] at h'
  cases h'

theorem lookup_of_octal {ch v : ℕ} (hoctal : isOctal ch = true) : letterEscapes.lookup ch ≠ some v := by
  have hlook : ∀ ch, 48 ≤ ch → ch < 56 → letterEscapes.lookup ch = none := by decide
  obtain ⟨hlo, hhi⟩ := isOctal_iff.1 hoctal
  rw [hlook ch hlo hhi]
  exact fun h => by cases h

theorem readControl_char (st : List ℕ) : readControl st = .char (readControl st).value (readControl st).rest := by
  unfold readControl
  repeat' split
  all_goals rfl

theorem slip_large_iff {st : List ℕ} :
    Slip category ('U'.toNat :: st) ↔
      (st.take 8).length = 8 ∧ (∀ ch ∈ st.take 8, (hexDigit ch).isSome) ∧ 0x110000 ≤ hexValue (st.take 8) := by
  constructor
  · intro h
    cases h with
    | octal ha => exact absurd ha (by decide)
    | large hlen hdigits hlarge => exact ⟨hlen, hdigits, hlarge⟩
  · rintro ⟨hlen, hdigits, hlarge⟩
    exact .large hlen hdigits hlarge

theorem slip_layout_iff {st : List ℕ} :
    Slip category ('c'.toNat :: st) ↔
      (st.dropWhile fun c => chtype category c = .bs) = [] ∨
        ∃ st', (st.dropWhile fun c => chtype category c = .bs) = backslash :: st' ∧ Slip category st' := by
  constructor
  · intro h
    cases h with
    | octal ha => exact absurd ha (by decide)
    | layout heq hslip => exact .inr ⟨_, heq, hslip⟩
    | layoutEnd heq => exact .inl heq
  · rintro (heq | ⟨st', heq, hslip⟩)
    · exact .layoutEnd heq
    · exact .layout heq hslip

/-- After `\c` the layout does not matter, unless it goes on to the end. -/
theorem escapeRight_layout_iff (st : List ℕ) :
    EscapeRight category ('c'.toNat :: st) ↔
      match st.dropWhile fun c => chtype category c = .bs with
      | [] => False
      | c :: st' => c = backslash → EscapeRight category st' := by
  have hletter : letterEscapes.lookup 'c'.toNat = none := by decide
  have hread : readQuotedChar category ('c'.toNat :: st) =
      match st.dropWhile fun c => chtype category c = .bs with
      | [] => .char (2 ^ 32 - 1) []
      | c :: st' => if c = backslash then readQuotedChar category st' else .char c st' := by
    rw [readQuotedChar.eq_def]
    simp only [hletter, if_true]
    split <;> rename_i heq <;> rw [heq]
  have hescaped : escaped category ('c'.toNat :: st) =
      match st.dropWhile fun c => chtype category c = .bs with
      | [] => none
      | c :: st' => if c = backslash then escaped category st' else some (c, st') := by
    rw [escaped.eq_def]
    simp only [hletter, if_true]
    split <;> rename_i heq <;> rw [heq]
  rw [EscapeRight, hread, hescaped]
  cases st.dropWhile fun c => chtype category c = .bs with
  | nil => exact iff_of_false (fun h => h rfl) id
  | cons c st' =>
    by_cases hc : c = backslash
    · simp only [hc, true_implies]
      rfl
    · simp only [hc, false_implies, iff_true]
      rfl

theorem escapeRight_hex_iff (st : List ℕ) : EscapeRight category ('x'.toNat :: st) ↔ ¬ Slip category ('x'.toNat :: st) := by
  have hletter : letterEscapes.lookup 'x'.toNat = none := by decide
  rw [EscapeRight, readQuotedChar.eq_def, escaped.eq_def]
  simp only [hletter]
  exact readHex_reads_iff st

end Yap
