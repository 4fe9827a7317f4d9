-- SUMMARY: What the loop of the scanner makes of a quoted text that the writer has written, character by character.
import Yap.Text.Write
import Yap.Text.Scan

/-!
# Quoted text

Every character is written as itself, as a blank, or as an escape that the scanner
reads as the character. The exception is a double quote in a string, which the
scanner takes for the end, or for one of two.
-/

namespace Yap

variable {category : ℕ → Category} {qt c : ℕ} {error : Option String} {img : Image}

/-- The quotes of atoms and of strings. -/
def IsQuote (qt : ℕ) : Prop := qt = singleQuote ∨ qt = doubleQuote

theorem IsQuote.cases_eq (h : IsQuote qt) : qt = 39 ∨ qt = 34 := h

/-- The character comes out of a quoted text as it went in. -/
def Clean (qt c : ℕ) : Prop := Scalar c ∧ c ≠ 160 ∧ ¬ (c = doubleQuote ∧ qt = doubleQuote)

-- ---------------------------------------------------------------------------
-- One character
-- ---------------------------------------------------------------------------

/-- What the scanner makes of a character of a text. -/
def readBack (c : ℕ) : ℕ := if c = 160 then 32 else c

/-- How a character that is not the closing quote is written. -/
inductive Escape (category : ℕ → Category) (qt c : ℕ) : List ℕ → Prop where
  | plain : readBack c ≠ 10 → readBack c ≠ qt → readBack c ≠ backslash → Escape category qt c [readBack c]
  | escaped {es : List ℕ} : c = readBack c → (∀ st, readQuotedChar category (es ++ st) = .char c st) →
      Escape category qt c (backslash :: es)

/-- The characters that `write_quoted` writes. -/
def escape (qt c : ℕ) : List ℕ := (writeQuoted c qt).map Int.toNat

theorem readQuotedChar_letter {ch value : ℕ} (h : letterEscapes.lookup ch = some value) (st : List ℕ) :
    readQuotedChar category (ch :: st) = .char value st := by
  unfold readQuotedChar
  simp only [h]

theorem lookup_octal {d : ℕ} (h : d < 4) : letterEscapes.lookup (48 + d) = none := by
  interval_cases d <;> rfl

theorem readQuotedChar_octal {c : ℕ} (h : c ≤ 0xff) (st : List ℕ) :
    readQuotedChar category ([48 + c / 64, 48 + c / 8 % 8, 48 + c % 8, backslash] ++ st) = .char c st := by
  have h1 : c / 64 < 4 := by omega
  have hd1 : isOctal (48 + c / 64) := by simp [isOctal]; omega
  have hd2 : isOctal (48 + c / 8 % 8) := by simp [isOctal]; omega
  have hd3 : isOctal (48 + c % 8) := by simp [isOctal]; omega
  have hval : ((c / 64 * 8 + c / 8 % 8) * 8 + c % 8) % 256 = c := by omega
  unfold readQuotedChar
  simp only [List.cons_append, List.nil_append, lookup_octal h1]
  rw [if_neg (by simp; omega), if_neg (by simp; omega), if_neg (by simp; omega), if_neg (by simp; omega),
    if_neg (by simp; omega), if_pos hd1]
  simp only [readOctal, hd2, hd3, if_true, Nat.add_sub_cancel_left, hval]

theorem readBack_of_ne (h : c ≠ 160) : readBack c = c := if_neg h

/-- The characters of the table, one by one. -/
theorem escape_table : ∀ qt ∈ [singleQuote, doubleQuote], ∀ c < 256, c ≠ 0 → ¬ (c = doubleQuote ∧ qt = doubleQuote) →
    (escape qt c = [readBack c] ∧ readBack c ≠ 10 ∧ readBack c ≠ qt ∧ readBack c ≠ backslash) ∨
    (escape qt c = [backslash, (escape qt c).getD 1 0] ∧
      letterEscapes.lookup ((escape qt c).getD 1 0) = some c ∧ c ≠ 160) ∨
    (escape qt c = backslash :: [48 + c / 64, 48 + c / 8 % 8, 48 + c % 8, backslash] ∧ c ≠ 160) := by
  decide +kernel

theorem escape_wide (h : 256 ≤ c) : escape qt c = [c] := by
  have hbs : ¬ (0 ≤ (c : ℤ) ∧ (c : ℤ) < 0xff ∧ byteKind (c : ℤ).toNat = .bs) := by omega
  have hchars : (c : ℤ) ≠ singleQuote ∧ (c : ℤ) ≠ backslash ∧ (c : ℤ) ≠ backQuote := by
    simp only [singleQuote, backslash, backQuote]
    omega
  rw [escape, writeQuoted, if_pos ⟨hbs, hchars⟩]
  rfl

/-- Every character but a double quote in a string is read back, the no-break space
    as a blank. -/
theorem escape_spec (hqt : IsQuote qt) (hc : Scalar c) (hraw : ¬ (c = doubleQuote ∧ qt = doubleQuote)) :
    Escape category qt c (escape qt c) := by
  by_cases hwide : 256 ≤ c
  · have hne : c ≠ 160 := by omega
    have hback := readBack_of_ne hne
    rw [escape_wide hwide]
    nth_rewrite 2 [← hback]
    refine .plain ?_ ?_ ?_ <;> rw [hback]
    · omega
    · rcases hqt.cases_eq with rfl | rfl <;> omega
    · simp only [backslash]
      omega
  · have hmem : qt ∈ [singleQuote, doubleQuote] := by
      rcases hqt with rfl | rfl <;> simp
    obtain ⟨hes, h10, hq, hb⟩ | ⟨hes, hlook, hne⟩ | ⟨hes, hne⟩ :=
      escape_table qt hmem c (not_le.mp hwide) hc.pos.ne' hraw
    · rw [hes]
      exact .plain h10 hq hb
    · rw [hes]
      exact .escaped (readBack_of_ne hne).symm fun st => readQuotedChar_letter hlook st
    · rw [hes]
      exact .escaped (readBack_of_ne hne).symm fun st => readQuotedChar_octal (by omega) st

/-- A double quote in a string is written as it is. -/
theorem escape_raw : escape doubleQuote doubleQuote = [doubleQuote] := by decide +kernel

-- ---------------------------------------------------------------------------
-- The loop
-- ---------------------------------------------------------------------------

theorem imgSize_pos : 0 < imgSize := Nat.succ_pos _

/-- The buffer takes the character. -/
theorem addChToBuff_eq (c : ℕ) : addChToBuff imgSize img c = none ∨
    (addChToBuff imgSize img c = some (img ++ putUtf8 c) ∧ img.length + (putUtf8 c).length ≤ imgSize) := by
  unfold addChToBuff
  split
  case isTrue h => exact .inr ⟨rfl, h⟩
  case isFalse => exact .inl rfl

theorem scanQuoted_full (h : imgSize - 1 < img.length) (st : List ℕ) :
    scanQuoted category qt error img st = some (img, error, st) := by
  rw [scanQuoted.eq_def, if_pos h]

/-- The loop reads one character of the text, unless the buffer is full. -/
theorem scanQuoted_escape {es : List ℕ} (hqt : IsQuote qt) (h : Escape category qt c es) (hc : Scalar c)
    (hfull : ¬ imgSize - 1 < img.length) (st : List ℕ) :
    scanQuoted category qt error img (es ++ st) =
      (addChToBuff imgSize img (readBack c)).bind fun img => scanQuoted category qt error img st := by
  rw [scanQuoted.eq_def, if_neg hfull]
  cases h with
  | plain h10 hq hb =>
      simp only [List.cons_append, List.nil_append, if_neg h10, if_neg hq, if_neg hb]
      cases addChToBuff imgSize img (readBack c) <;> rfl
  | @escaped es hback hread =>
      have hq : backslash ≠ qt := by rcases hqt.cases_eq with rfl | rfl <;> decide
      have h10 : backslash ≠ 10 := by decide
      simp only [List.cons_append, hread, QuotedChar.char, if_neg h10, if_neg hq, if_true, if_neg hc.pos.ne',
        Option.none_or, ← hback]
      cases addChToBuff imgSize img c <;> rfl

/-- The closing quote. -/
theorem scanQuoted_close (hqt : IsQuote qt) (hfull : ¬ imgSize - 1 < img.length) {st : List ℕ}
    (hst : st.head? ≠ some qt) : scanQuoted category qt error img (qt :: st) = some (img, error, st) := by
  have h10 : qt ≠ 10 := by rcases hqt.cases_eq with rfl | rfl <;> decide
  rw [scanQuoted.eq_def, if_neg hfull]
  simp only [if_neg h10, if_true]
  cases st with
  | nil => rfl
  | cons ch st =>
      have hch : ch ≠ qt := by simpa using hst
      simp only [if_neg hch]

/-- Two quotes are read as one. -/
theorem scanQuoted_double (hqt : IsQuote qt) (hfull : ¬ imgSize - 1 < img.length) (st : List ℕ) :
    scanQuoted category qt error img (qt :: qt :: st) =
      (addChToBuff imgSize img qt).bind fun img => scanQuoted category qt error img st := by
  have h10 : qt ≠ 10 := by rcases hqt.cases_eq with rfl | rfl <;> decide
  rw [scanQuoted.eq_def, if_neg hfull]
  simp only [if_neg h10, if_true]
  cases addChToBuff imgSize img qt <;> rfl

/-- What the buffer holds stays in it. -/
theorem prefix_of_scanQuoted {st rest : List ℕ} {img' : Image} {error' : Option String}
    (h : scanQuoted category qt error img st = some (img', error', rest)) : img <+: img' := by
  induction hn : st.length using Nat.strongRecOn generalizing st img error with
  | ind n ih =>
      have hadd : ∀ {ch : ℕ} {img₁ : Image}, addChToBuff imgSize img ch = some img₁ → img <+: img₁ := by
        intro ch img₁ hch
        unfold addChToBuff at hch
        split at hch <;> cases hch
        exact List.prefix_append ..
      rw [scanQuoted.eq_def] at h
      split at h
      case isTrue =>
        cases h
        exact List.prefix_refl _
      case isFalse =>
        split at h
        case h_1 =>
          cases h
          exact List.prefix_refl _
        case h_2 ch st =>
          simp only [List.length_cons] at hn
          have hesc := length_readQuotedChar category st
          split_ifs at h
          case pos =>
            cases h
            exact List.prefix_refl _
          case pos =>
            split at h
            case h_1 =>
              cases h
              exact List.prefix_refl _
            case h_2 ch' st' =>
              split at h
              case isTrue =>
                split at h
                case h_1 => cases h
                case h_2 img₁ hch => exact (hadd hch).trans (ih _ (by simp only [List.length_cons] at hn; omega) h rfl)
              case isFalse =>
                cases h
                exact List.prefix_refl _
          case pos => exact ih _ (by omega) h rfl
          case neg =>
            split at h
            case h_1 => cases h
            case h_2 img₁ hch => exact (hadd hch).trans (ih _ (by omega) h rfl)
          case neg =>
            split at h
            case h_1 => cases h
            case h_2 img₁ hch => exact (hadd hch).trans (ih _ (by omega) h rfl)

-- ---------------------------------------------------------------------------
-- Texts
-- ---------------------------------------------------------------------------

/-- The characters that are written for a text. -/
def written (qt : ℕ) (s : List ℕ) : List ℕ := s.flatMap (escape qt)

theorem written_cons (qt c : ℕ) (s : List ℕ) : written qt (c :: s) = escape qt c ++ written qt s := rfl

theorem written_append (qt : ℕ) (s t : List ℕ) : written qt (s ++ t) = written qt s ++ written qt t :=
  List.flatMap_append ..

theorem Clean.escape (hqt : IsQuote qt) (h : Clean qt c) : Escape category qt c (escape qt c) :=
  escape_spec hqt h.1 h.2.2

/-- A clean text that fits is read back. -/
theorem scanQuoted_written (hqt : IsQuote qt) {s : List ℕ} (hs : ∀ c ∈ s, Clean qt c)
    (hfit : img.length + (encode s).length < imgSize) (st : List ℕ) :
    scanQuoted category qt error img (written qt s ++ st) =
      scanQuoted category qt error (img ++ (encode s).map some) st := by
  induction s generalizing img with
  | nil => rw [show encode [] = [] from rfl, List.map_nil, List.append_nil]; rfl
  | cons c s ih =>
      have hc := hs c (List.mem_cons_self ..)
      rw [encode_cons, List.length_append] at hfit
      have hadd : addChToBuff imgSize img (readBack c) = some (img ++ (encodeChar c).map some) := by
        rw [readBack_of_ne hc.2.1, addChToBuff, putUtf8_of_lt hc.1.lt, List.length_map, if_pos (by omega)]
      rw [written_cons, List.append_assoc,
        scanQuoted_escape hqt (hc.escape hqt) hc.1 (by omega), hadd, Option.bind_some,
        ih (fun d hd => hs d (List.mem_cons_of_mem _ hd)) (by simp only [List.length_append, List.length_map]; omega),
        encode_cons, List.map_append, List.append_assoc]

theorem Escape.head_ne {es : List ℕ} (hqt : IsQuote qt) (h : Escape category qt c es) (st : List ℕ) :
    (es ++ st).head? ≠ some qt ∧ es ≠ [] := by
  cases h with
  | plain _ hq _ => exact ⟨by simpa using hq, by simp⟩
  | escaped =>
      have hq : backslash ≠ qt := by rcases hqt.cases_eq with rfl | rfl <;> decide
      exact ⟨by simpa using hq, by simp⟩

/-- A text in quotes comes back, after `n` bytes: it is clean and fits in the buffer.
    A double quote that fills the buffer comes back by accident, since the loop is
    left before the closing quote is taken for the second of two. -/
def Survives (qt n : ℕ) (s : List ℕ) : Prop :=
  ((∀ c ∈ s, Clean qt c) ∧ n + (encode s).length < imgSize) ∨
    (qt = doubleQuote ∧ ∃ u, s = u ++ [doubleQuote] ∧ (∀ c ∈ u, Clean qt c) ∧ n + (encode u).length + 1 = imgSize)

theorem Survives.cons {n : ℕ} {s : List ℕ} (hc : Clean qt c) (h : Survives qt (n + (encodeChar c).length) s) :
    Survives qt n (c :: s) := by
  rcases h with ⟨hs, hfit⟩ | ⟨hq, u, rfl, hu, hfit⟩
  · refine .inl ⟨List.forall_mem_cons.mpr ⟨hc, hs⟩, ?_⟩
    rw [encode_cons, List.length_append]
    omega
  · refine .inr ⟨hq, c :: u, rfl, List.forall_mem_cons.mpr ⟨hc, hu⟩, ?_⟩
    rw [encode_cons, List.length_append]
    omega

/-- A text that survives is read back. -/
theorem scanQuoted_survives (hqt : IsQuote qt) {s : List ℕ} (hs : Survives qt img.length s) {st : List ℕ}
    (hst : st.head? ≠ some qt) :
    scanQuoted category qt error img (written qt s ++ qt :: st) =
      some (img ++ (encode s).map some, error, st) := by
  rcases hs with ⟨hs, hfit⟩ | ⟨rfl, u, rfl, hu, hfit⟩
  · rw [scanQuoted_written hqt hs hfit, scanQuoted_close hqt _ hst]
    rw [List.length_append, List.length_map]
    omega
  · have hraw : written doubleQuote [doubleQuote] = [doubleQuote] := by
      rw [written_cons, escape_raw]
      rfl
    have hlen : (img ++ (encode u).map some).length + 1 = imgSize := by
      rw [List.length_append, List.length_map, hfit]
    have hadd : addChToBuff imgSize (img ++ (encode u).map some) doubleQuote =
        some (img ++ (encode u).map some ++ [some doubleQuote]) := by
      have hput : putUtf8 doubleQuote = [some doubleQuote] := rfl
      rw [addChToBuff, hput, List.length_singleton, if_pos hlen.le]
    rw [written_append, hraw, List.append_assoc, scanQuoted_written hqt hu (by omega), List.cons_append, List.nil_append,
      scanQuoted_double hqt (by omega), hadd, Option.bind_some, scanQuoted_full]
    · rw [encode_append, List.map_append, List.append_assoc]
      rfl
    · rw [List.length_append, List.length_singleton, hlen]
      exact Nat.sub_lt (Nat.succ_pos _) Nat.one_pos

/-- A blank that is read as part of the text leaves nothing of the stream. -/
theorem scanQuoted_unclosed (hfull : ¬ imgSize - 1 < img.length) {img' : Image} {error' : Option String}
    {rest : List ℕ} (hqt : IsQuote qt) (h : scanQuoted category qt error img [32] = some (img', error', rest)) :
    rest = [] := by
  have hesc : Escape category qt 32 [32] := .plain (by decide) (by rcases hqt.cases_eq with rfl | rfl <;> decide) (by decide)
  rw [show ([32] : List ℕ) = [32] ++ [] from rfl,
    scanQuoted_escape hqt hesc ⟨by decide, by decide, by decide⟩ hfull] at h
  obtain ⟨img₁, -, h⟩ := Option.bind_eq_some_iff.mp h
  rw [scanQuoted.eq_def] at h
  split at h <;> cases h <;> rfl

/-- A run that ends at the closing quote has read the text, or less. -/
theorem scanQuoted_closed (hqt : IsQuote qt) {s : List ℕ} (hs : ∀ c ∈ s, Scalar c) {img' : Image}
    {error' : Option String}
    (h : scanQuoted category qt error img (written qt s ++ qt :: [32]) = some (img', error', [32])) :
    img'.length ≤ img.length + (encode s).length ∧
      (Survives qt img.length s ∨ img'.length < img.length + (encode s).length) := by
  induction hn : s.length using Nat.strongRecOn generalizing s img error with
  | ind n ih =>
      have hfull : ¬ imgSize - 1 < img.length := by
        intro hfull
        rw [scanQuoted_full hfull] at h
        have hlen := congrArg List.length (Prod.mk.inj (Prod.mk.inj (Option.some.inj h)).2).2
        simp at hlen
      cases s with
      | nil =>
          have h32 : ([32] : List ℕ).head? ≠ some qt := by rcases hqt.cases_eq with rfl | rfl <;> decide
          rw [show written qt [] = [] from rfl, List.nil_append, scanQuoted_close hqt hfull h32] at h
          cases h
          refine ⟨Nat.le_add_right .., .inl (.inl ⟨by rintro c ⟨⟩, ?_⟩)⟩
          exact Nat.lt_of_le_pred imgSize_pos (not_lt.mp hfull)
      | cons c s =>
          obtain ⟨hc, hs'⟩ := List.forall_mem_cons.mp hs
          rw [List.length_cons] at hn
          rw [encode_cons, List.length_append]
          by_cases hraw : c = doubleQuote ∧ qt = doubleQuote
          · obtain ⟨rfl, rfl⟩ := hraw
            rw [written_cons, escape_raw] at h
            have henc : (encodeChar doubleQuote).length = 1 := rfl
            have hadd : ∀ {img₁ : Image}, addChToBuff imgSize img doubleQuote = some img₁ →
                img₁ = img ++ [some doubleQuote] := by
              intro img₁ hadd
              unfold addChToBuff at hadd
              split at hadd <;> cases hadd
              rfl
            cases s with
            | nil =>
                -- The closing quote is taken for the second of two.
                rw [show [doubleQuote] ++ written doubleQuote [] ++ [doubleQuote, 32] =
                  doubleQuote :: doubleQuote :: [32] from rfl, scanQuoted_double hqt hfull] at h
                obtain ⟨img₁, h₁, h⟩ := Option.bind_eq_some_iff.mp h
                obtain rfl := hadd h₁
                by_cases hfull₁ : imgSize - 1 < (img ++ [some doubleQuote]).length
                · rw [scanQuoted_full hfull₁] at h
                  cases h
                  rw [List.length_append, List.length_singleton] at hfull₁ ⊢
                  refine ⟨by omega, .inl (.inr ⟨rfl, [], rfl, by rintro c ⟨⟩, ?_⟩)⟩
                  have hpos := imgSize_pos
                  rw [show encode [] = [] from rfl, List.length_nil]
                  omega
                · cases scanQuoted_unclosed hfull₁ hqt h
            | cons d t =>
                obtain ⟨hd, ht⟩ := List.forall_mem_cons.mp hs'
                rw [written_cons] at h
                rw [encode_cons, List.length_append]
                rw [List.length_cons] at hn
                by_cases hraw : d = doubleQuote ∧ doubleQuote = doubleQuote
                · obtain ⟨rfl, -⟩ := hraw
                  rw [escape_raw] at h
                  simp only [List.cons_append, List.nil_append] at h
                  rw [scanQuoted_double hqt hfull] at h
                  obtain ⟨img₁, h₁, h⟩ := Option.bind_eq_some_iff.mp h
                  obtain rfl := hadd h₁
                  obtain ⟨hle, -⟩ := ih t.length (by omega) ht h rfl
                  rw [List.length_append, List.length_singleton] at hle
                  exact ⟨by omega, .inr (by omega)⟩
                · have hesc : Escape category doubleQuote d (escape doubleQuote d) := escape_spec hqt hd hraw
                  simp only [List.cons_append, List.nil_append, List.append_assoc] at h
                  rw [scanQuoted_close hqt hfull (hesc.head_ne hqt _).1] at h
                  have hlen := congrArg List.length (Prod.mk.inj (Prod.mk.inj (Option.some.inj h)).2).2
                  simp only [List.length_append, List.length_cons, List.length_nil] at hlen
                  omega
          · have hesc : Escape category qt c (escape qt c) := escape_spec hqt hc hraw
            rw [written_cons, List.append_assoc, scanQuoted_escape hqt hesc hc hfull] at h
            obtain ⟨img₁, hadd, h⟩ := Option.bind_eq_some_iff.mp h
            obtain hnone | ⟨hsome, -⟩ : addChToBuff imgSize img (readBack c) = none ∨ _ := addChToBuff_eq _
            · rw [hnone] at hadd
              cases hadd
            · rw [hsome] at hadd
              obtain rfl := Option.some.inj hadd
              obtain ⟨hle, hor⟩ := ih s.length (by omega) hs' h rfl
              rw [List.length_append] at hle hor
              by_cases h160 : c = 160
              · subst h160
                have hput : (putUtf8 (readBack 160)).length = 1 := rfl
                have henc : (encodeChar 160).length = 2 := rfl
                exact ⟨by omega, .inr (by omega)⟩
              · have hput : (putUtf8 (readBack c)).length = (encodeChar c).length := by
                  rw [readBack_of_ne h160, putUtf8_of_lt hc.lt, List.length_map]
                rw [hput] at hle hor
                refine ⟨by omega, hor.imp (fun hsurv => ?_) (fun hlt => by omega)⟩
                exact hsurv.cons ⟨hc, h160, hraw⟩

/-- A character without an encoding spoils the text, unless it comes after its end. -/
theorem scanQuoted_big (hqt : IsQuote qt) {s : List ℕ} (hs : ∀ c ∈ s, Scalar c) {big : ℕ} (hbig : 0x110000 ≤ big)
    {st rest : List ℕ} {img' : Image} {error' : Option String}
    (h : scanQuoted category qt error img (written qt s ++ big :: st) = some (img', error', rest)) :
    none ∈ img' ∨ big ∈ rest := by
  have hq : big ≠ qt := by rcases hqt.cases_eq with rfl | rfl <;> omega
  induction hn : s.length using Nat.strongRecOn generalizing s img error with
  | ind n ih =>
      have hmem : big ∈ written qt s ++ big :: st := List.mem_append_right _ (List.mem_cons_self ..)
      by_cases hfull : imgSize - 1 < img.length
      · rw [scanQuoted_full hfull] at h
        cases h
        exact .inr hmem
      cases s with
      | nil =>
          have h10 : big ≠ 10 := by omega
          have hb : big ≠ backslash := by
            simp only [backslash]
            omega
          have hput : putUtf8 big = [none] := if_neg (not_lt.mpr hbig)
          rw [show written qt [] ++ big :: st = big :: st from rfl, scanQuoted.eq_def, if_neg hfull] at h
          simp only [if_neg h10, if_neg hq, if_neg hb] at h
          split at h
          case h_1 => cases h
          case h_2 img₁ hadd =>
            unfold addChToBuff at hadd
            split at hadd <;> cases hadd
            refine .inl ((prefix_of_scanQuoted h).subset ?_)
            rw [hput]
            exact List.mem_append_right _ (List.mem_cons_self ..)
      | cons c s =>
          obtain ⟨hc, hs'⟩ := List.forall_mem_cons.mp hs
          rw [List.length_cons] at hn
          by_cases hraw : c = doubleQuote ∧ qt = doubleQuote
          · obtain ⟨rfl, rfl⟩ := hraw
            rw [written_cons, escape_raw] at h hmem
            simp only [List.cons_append, List.nil_append] at h hmem
            have hmem' : big ∈ written doubleQuote s ++ big :: st := (List.mem_cons.mp hmem).resolve_left hq
            -- The quote is the first of two, or it ends the text before the character.
            by_cases hhead : (written doubleQuote s ++ big :: st).head? = some doubleQuote
            · cases s with
              | nil => exact absurd (Option.some.inj hhead) hq
              | cons d t =>
                  obtain ⟨hd, ht⟩ := List.forall_mem_cons.mp hs'
                  rw [List.length_cons] at hn
                  by_cases hraw : d = doubleQuote ∧ doubleQuote = doubleQuote
                  · obtain ⟨rfl, -⟩ := hraw
                    rw [written_cons, escape_raw] at h
                    simp only [List.cons_append, List.nil_append] at h
                    rw [scanQuoted_double hqt hfull] at h
                    obtain ⟨img₁, -, h⟩ := Option.bind_eq_some_iff.mp h
                    exact ih t.length (by omega) ht h rfl
                  · have hesc : Escape category doubleQuote d (escape doubleQuote d) := escape_spec hqt hd hraw
                    rw [written_cons, List.append_assoc] at hhead
                    exact absurd hhead (hesc.head_ne hqt _).1
            · rw [scanQuoted_close hqt hfull hhead] at h
              cases h
              exact .inr hmem'
          · have hesc : Escape category qt c (escape qt c) := escape_spec hqt hc hraw
            rw [written_cons, List.append_assoc, scanQuoted_escape hqt hesc hc hfull] at h
            obtain ⟨img₁, -, h⟩ := Option.bind_eq_some_iff.mp h
            exact ih s.length (by omega) hs' h rfl

-- ---------------------------------------------------------------------------
-- What is written
-- ---------------------------------------------------------------------------

theorem escape_chars : ∀ qt ∈ [singleQuote, doubleQuote], ∀ c < (256 : ℕ), c ≠ 0 →
    writeQuoted (c : ℕ) qt = (escape qt c).map Nat.cast ∧ ∀ d ∈ escape qt c, 0 < d ∧ d < 256 := by
  decide +kernel

/-- The characters that are written are not negative, and are characters of UTF-8. -/
theorem writeQuoted_eq (hqt : IsQuote qt) (hc : Scalar c) :
    writeQuoted c qt = (escape qt c).map Nat.cast ∧ ∀ d ∈ escape qt c, Scalar d := by
  by_cases hwide : 256 ≤ c
  · have hbs : ¬ (0 ≤ (c : ℤ) ∧ (c : ℤ) < 0xff ∧ byteKind (c : ℤ).toNat = .bs) := by omega
    have hchars : (c : ℤ) ≠ singleQuote ∧ (c : ℤ) ≠ backslash ∧ (c : ℤ) ≠ backQuote := by
      simp only [singleQuote, backslash, backQuote]
      omega
    rw [escape_wide hwide, writeQuoted, if_pos ⟨hbs, hchars⟩]
    exact ⟨rfl, by simpa using hc⟩
  · have hmem : qt ∈ [singleQuote, doubleQuote] := by
      rcases hqt with rfl | rfl <;> simp
    obtain ⟨heq, hlt⟩ := escape_chars qt hmem c (not_le.mp hwide) hc.pos.ne'
    refine ⟨heq, fun d hd => ?_⟩
    obtain ⟨hpos, hd⟩ := hlt d hd
    exact ⟨hpos, by omega, fun hsur => by have := hsur.1; omega⟩

theorem written_scalar (hqt : IsQuote qt) {s : List ℕ} (hs : ∀ c ∈ s, Scalar c) : ∀ d ∈ written qt s, Scalar d := by
  intro d hd
  obtain ⟨c, hc, hd⟩ := List.mem_flatMap.mp hd
  exact (writeQuoted_eq hqt (hs c hc)).2 d hd

theorem emit_natCast {s : List ℕ} (hs : ∀ c ∈ s, Scalar c) : emit (s.map Nat.cast) = encode s := by
  induction s with
  | nil => rfl
  | cons c s ih =>
      obtain ⟨hc, hs⟩ := List.forall_mem_cons.mp hs
      rw [List.map_cons, emit, List.flatMap_cons, putWchar_natCast hc.lt, encode_cons, ← ih hs]
      rfl

variable {stops : Bool}

/-- The loops of the writer go through the text character by character. -/
theorem writeLoop_encodeChar (hc : Scalar c) (bs : List ℕ) :
    writeLoop stops qt (encodeChar c ++ bs) = writeQuoted c qt ++ writeLoop stops qt bs := by
  have hget := getUtf8_encodeChar hc bs
  have hne : ¬ (stops ∧ (c : ℤ) = 0) := fun h => hc.pos.ne' (by exact_mod_cast h.2)
  obtain ⟨b, bs', hb⟩ := List.exists_cons_of_ne_nil (encodeChar_ne_nil hc.lt)
  rw [hb, List.cons_append] at hget ⊢
  rw [writeLoop, hget, if_neg hne]
  simp

theorem writeLoop_encode (hqt : IsQuote qt) {s : List ℕ} (hs : ∀ c ∈ s, Scalar c) (bs : List ℕ) :
    writeLoop stops qt (encode s ++ bs) = (written qt s).map Nat.cast ++ writeLoop stops qt bs := by
  induction s with
  | nil => rfl
  | cons c s ih =>
      obtain ⟨hc, hs⟩ := List.forall_mem_cons.mp hs
      rw [encode_cons, List.append_assoc, writeLoop_encodeChar hc, ih hs, (writeQuoted_eq hqt hc).1, written_cons,
        List.map_append, List.append_assoc]

/-- A byte that is no character is written as the character -1. -/
theorem writeLoop_error {b : ℕ} {bs : List ℕ} (h : getUtf8 (b :: bs) = (-1, 1)) :
    writeLoop stops qt (b :: bs) = -1 :: writeLoop stops qt bs := by
  have hne : ¬ (stops ∧ (-1 : ℤ) = 0) := by simp
  have hwrite : writeQuoted (-1) qt = [-1] := by
    rw [writeQuoted, if_pos (by simp)]
  rw [writeLoop, h, if_neg hne, hwrite]
  rfl

theorem writeLoop_surrogate (hc : Surrogate c) (bs : List ℕ) :
    writeLoop stops qt (encodeChar c ++ bs) = -1 :: -1 :: -1 :: writeLoop stops qt bs := by
  have hget := getUtf8_surrogate hc bs
  rw [(encodeChar_surrogate hc).1] at hget ⊢
  simp only [List.cons_append, List.nil_append] at hget ⊢
  rw [writeLoop_error hget, writeLoop_error (getUtf8_cont (by omega) (by omega) _),
    writeLoop_error (getUtf8_cont (by omega) (by omega) _)]

end Yap
