-- SUMMARY: How the scanner reads names, quoted items and their escapes from the characters of a stream.
import Yap.Text.Write

/-!
# Scanning text

The functions follow `read_quoted_char` and the branches of `Yap_tokenizer` of
`scanner.c` that read a name or a quoted item, with character escapes on and the
other flags at their defaults. The end of a list is the end of the stream.
-/

namespace Yap

-- ---------------------------------------------------------------------------
-- Escapes
-- ---------------------------------------------------------------------------

/-- What an escape sequence stands for; the character 0 adds nothing. -/
structure QuotedChar where
  value : ℕ
  error : Option String
  rest : List ℕ

namespace QuotedChar

/-- `send_error_message`. -/
def fail (message : String) (st : List ℕ) : QuotedChar := ⟨0, some message, st⟩

def char (value : ℕ) (st : List ℕ) : QuotedChar := ⟨value, none, st⟩

end QuotedChar

def hexDigit (ch : ℕ) : Option ℕ :=
  if '0'.toNat ≤ ch ∧ ch ≤ '9'.toNat then some (ch - '0'.toNat)
  else if 'a'.toNat ≤ ch ∧ ch ≤ 'f'.toNat then some (ch - 'a'.toNat + 10)
  else if 'A'.toNat ≤ ch ∧ ch ≤ 'F'.toNat then some (ch - 'A'.toNat + 10)
  else none

/-- The digits of `\u` and `\U`. -/
def readHexDigits : ℕ → ℕ → List ℕ → QuotedChar
  | 0, wc, st => .char (wc % 2 ^ 32) st
  | _ + 1, _, [] => .fail "invalid escape sequence" []
  | n + 1, wc, ch :: st =>
    match hexDigit ch with
    | some d => readHexDigits n (wc + d * 16 ^ n) st
    | none => .fail "invalid escape sequence" st

def isOctal (ch : ℕ) : Bool := '0'.toNat ≤ ch ∧ ch < '8'.toNat

/-- The digits of an octal escape after the first. -/
def readOctal (first : ℕ) (st : List ℕ) : QuotedChar :=
  let message := "invalid octal escape sequence"
  match st with
  | [] => .fail message []
  | d :: st =>
    if isOctal d then
      match st with
      | [] => .fail message []
      | e :: st =>
        if isOctal e then
          match st with
          | [] => .fail message []
          | f :: st =>
            if f = backslash then .char (((first * 8 + (d - 48)) * 8 + (e - 48)) % 256) st else .fail message st
        else if e = backslash then .char (first * 8 + (d - 48)) st
        else .fail message st
    else if d = backslash then .char first st
    else .fail message st

section

variable (category : ℕ → Category)

/-- `my_isxdigit(ch, 'f', 'F')`. -/
def isXDigit (ch : ℕ) : Bool :=
  chtype category ch = .nu ∨ ('A'.toNat ≤ ch ∧ ch ≤ 'f'.toNat) ∨ ('a'.toNat ≤ ch ∧ ch ≤ 'F'.toNat)

/-- The value of an `unsigned char` after one more hexadecimal digit. -/
def addXDigit (soFar ch : ℕ) : ℕ :=
  let digit : ℤ :=
    if chtype category ch = .nu then ch - 48
    else if 'A'.toNat ≤ ch ∧ ch ≤ 'Z'.toNat then ch - 65 + 10
    else ch - 97 + 10
  ((soFar * 16 + digit) % 256).toNat

/-- A hexadecimal escape, which may be empty. -/
def readHex (st : List ℕ) : QuotedChar :=
  let message := "invalid hexadecimal escape sequence"
  match st with
  | [] => .fail message []
  | d :: st =>
    if isXDigit category d then
      match st with
      | [] => .fail message []
      | e :: st =>
        if isXDigit category e then
          match st with
          | [] => .fail message []
          | f :: st =>
            if f = backslash then .char (addXDigit category (addXDigit category 0 d) e) st else .fail message st
        else if e = backslash then .char (addXDigit category 0 d) st
        else .fail message st
    else if d = backslash then .char 0 st
    else .fail message st

/-- The escapes of one character. -/
def letterEscapes : List (ℕ × ℕ) := [
  (10, 0), (backslash, backslash), ('a'.toNat, 7), ('b'.toNat, 8), ('d'.toNat, 127), ('e'.toNat, 27),
  ('f'.toNat, 12), ('n'.toNat, 10), ('r'.toNat, 13), ('s'.toNat, 32), ('t'.toNat, 9), ('v'.toNat, 11),
  (singleQuote, singleQuote), (doubleQuote, doubleQuote), (backQuote, backQuote)]

/-- The escape `\^`. -/
def readControl (st : List ℕ) : QuotedChar :=
  match st with
  | [] => .char '^'.toNat []
  | ch :: st =>
    if ch = '?'.toNat then .char 127 st
    else if 'a'.toNat ≤ ch ∧ ch < 'z'.toNat then .char (ch - 'a'.toNat) st
    else if 'A'.toNat ≤ ch ∧ ch < 'Z'.toNat then .char (ch - 'A'.toNat) st
    else .char '^'.toNat st

/-- `read_quoted_char`, after the backslash. -/
def readQuotedChar (st : List ℕ) : QuotedChar :=
  match st with
  | [] => .fail "invalid escape sequence" []
  | ch :: st =>
    match letterEscapes.lookup ch with
    | some value => .char value st
    | none =>
      if ch = 'c'.toNat then
        match h : st.dropWhile fun c => chtype category c = .bs with
        | [] => .char (2 ^ 32 - 1) []
        | c :: st' => if c = backslash then readQuotedChar st' else .char c st'
      else if ch = 'u'.toNat then readHexDigits 4 0 st
      else if ch = 'U'.toNat then readHexDigits 8 0 st
      else if ch = 'z'.toNat then .fail "invalid escape sequence \\z" st
      else if ch = '^'.toNat then readControl st
      else if isOctal ch then readOctal (ch - 48) st
      else if ch = 'x'.toNat then readHex category st
      else .fail "invalid escape sequence" st
termination_by st.length
decreasing_by
  have hle := (List.dropWhile_sublist (fun c => chtype category c = .bs) (l := st)).length_le
  rw [h] at hle
  simp only [List.length_cons] at hle ⊢
  omega

/-- An escape sequence is taken off the stream. -/
theorem length_readHexDigits (n wc : ℕ) (st : List ℕ) : (readHexDigits n wc st).rest.length ≤ st.length := by
  induction n generalizing wc st with
  | zero => exact le_rfl
  | succ n ih =>
      cases st with
      | nil => exact le_rfl
      | cons ch st =>
          rw [readHexDigits]
          split
          · exact (ih ..).trans (Nat.le_succ _)
          · exact Nat.le_succ _

theorem length_readOctal (first : ℕ) (st : List ℕ) : (readOctal first st).rest.length ≤ st.length := by
  unfold readOctal
  repeat' split
  all_goals
    simp only [QuotedChar.char, QuotedChar.fail, List.length_cons]
    omega

theorem length_readHex (st : List ℕ) : (readHex category st).rest.length ≤ st.length := by
  unfold readHex
  repeat' split
  all_goals
    simp only [QuotedChar.char, QuotedChar.fail, List.length_cons]
    omega

theorem length_readControl (st : List ℕ) : (readControl st).rest.length ≤ st.length := by
  unfold readControl
  repeat' split
  all_goals
    simp only [QuotedChar.char, List.length_cons]
    omega

theorem length_readQuotedChar (st : List ℕ) : (readQuotedChar category st).rest.length ≤ st.length := by
  induction hn : st.length using Nat.strongRecOn generalizing st with
  | ind n ih =>
      cases st with
      | nil => simp [readQuotedChar, QuotedChar.fail]
      | cons ch st =>
          have hdrop := (List.dropWhile_sublist (fun c => chtype category c = .bs) (l := st)).length_le
          simp only [List.length_cons] at hn
          unfold readQuotedChar
          split
          case h_1 =>
            simp only [QuotedChar.char]
            omega
          case h_2 =>
            split_ifs
            case pos =>
              split
              case h_1 => exact Nat.zero_le _
              case h_2 c st' heq =>
                rw [heq] at hdrop
                simp only [List.length_cons] at hdrop
                split
                case isTrue =>
                  have := ih st'.length (by omega) st' rfl
                  omega
                case isFalse =>
                  simp only [QuotedChar.char]
                  omega
            all_goals
              first
                | refine (length_readHexDigits ..).trans ?_
                | refine (length_readOctal ..).trans ?_
                | refine (length_readHex ..).trans ?_
                | refine (length_readControl ..).trans ?_
                | simp only [QuotedChar.fail]
              omega

end

-- ---------------------------------------------------------------------------
-- The buffer
-- ---------------------------------------------------------------------------

/-- The size of `TokImage` at first. -/
def imgSize : ℕ := 1024

/-- What has been put in `TokImage`. -/
abbrev Image := List (Option ℕ)

/-- `add_ch_to_buff`; `none` when it writes past the end of the buffer. -/
def addChToBuff (imgsz : ℕ) (img : Image) (ch : ℕ) : Option Image :=
  if img.length + (putUtf8 ch).length ≤ imgsz then some (img ++ putUtf8 ch) else none

/-- The larger buffer. -/
def growImage (imgsz : ℕ) : ℕ := min (imgsz * 2) (imgsz + 1024 * 1024)

-- ---------------------------------------------------------------------------
-- Tokens
-- ---------------------------------------------------------------------------

/-- The tokens of text: a name, a string, and a string in back quotes. -/
inductive TextToken where
  | name (img : Image)
  | string (img : Image)
  | bqString (img : Image)

def TextToken.image : TextToken → Image
  | name img => img
  | string img => img
  | bqString img => img

/-- A token, the error that `Yap_tokenizer` reports after it, and the rest of the stream. -/
structure Scanned where
  token : TextToken
  error : Option String
  rest : List ℕ

section

variable (category : ℕ → Category)

/-- The loop of `quoted_string`. When the buffer is full it is enlarged and the loop
    is left. -/
def scanQuoted (quote : ℕ) (error : Option String) (img : Image) (st : List ℕ) :
    Option (Image × Option String × List ℕ) :=
  if imgSize - 1 < img.length then some (img, error, st)
  else
    match st with
    | [] => some (img, error, [])
    | ch :: st =>
      if ch = 10 then some (img, some "layout character \n inside quotes", ch :: st)
      else if ch = quote then
        match st with
        | [] => some (img, error, [])
        | ch' :: st' =>
          if ch' = quote then
            match addChToBuff imgSize img ch with
            | none => none
            | some img => scanQuoted quote error img st'
          else some (img, error, ch' :: st')
      else if ch = backslash then
        if (readQuotedChar category st).value = 0 then
          scanQuoted quote ((readQuotedChar category st).error.or error) img (readQuotedChar category st).rest
        else
          match addChToBuff imgSize img (readQuotedChar category st).value with
          | none => none
          | some img =>
            scanQuoted quote ((readQuotedChar category st).error.or error) img (readQuotedChar category st).rest
      else
        match addChToBuff imgSize img ch with
        | none => none
        | some img => scanQuoted quote error img st
termination_by st.length
decreasing_by
  all_goals simp only [List.length_cons]
  · omega
  · exact Nat.lt_succ_of_le (length_readQuotedChar ..)
  · exact Nat.lt_succ_of_le (length_readQuotedChar ..)
  · omega

def quotedToken (quote : ℕ) (img : Image) : TextToken :=
  if quote = doubleQuote then .string img else if quote = backQuote then .bqString img else .name img

/-- The branch of a quote. -/
def scanQuotedToken (quote : ℕ) (st : List ℕ) : Option Scanned :=
  (scanQuoted category quote none [] st).map fun r => ⟨quotedToken quote r.1, r.2.1, r.2.2⟩

/-- The loop of `scan_name`. The buffer grows when its last byte is reached exactly. -/
def scanName (imgsz : ℕ) (img : Image) : List ℕ → Option (Image × List ℕ)
  | [] => if img.length < imgsz then some (img, []) else none
  | ch :: st =>
    if (chtype category ch).inName then
      match addChToBuff (if img.length = imgsz - 1 then growImage imgsz else imgsz) img ch with
      | none => none
      | some img' => scanName (if img.length = imgsz - 1 then growImage imgsz else imgsz) img' st
    else if img.length < imgsz then some (img, ch :: st)
    else none

/-- `enter_symbol`. -/
def scanSymbol (och : ℕ) (st : List ℕ) : Scanned :=
  let isSymbol := fun ch => decide (chtype category ch = .sy)
  ⟨.name ((och :: st.takeWhile isSymbol).flatMap putUtf8), none, st.dropWhile isSymbol⟩

/-- The end of a clause, after its point. -/
def endsClause : List ℕ → Bool
  | [] => true
  | ch :: _ => chtype category ch = .bs ∨ ch = '%'.toNat

/-- The rest of a comment, from its last two characters. -/
def skipComment (och ch : ℕ) (st : List ℕ) : Option (List ℕ) :=
  if och = '*'.toNat ∧ ch = '/'.toNat then some st
  else
    match st with
    | [] => none
    | c :: st => skipComment ch c st

def skipBlanks (st : List ℕ) : List ℕ := st.dropWhile fun ch => chtype category ch = .bs

/-- The names that are two brackets. -/
def scanBracket (och : ℕ) (st : List ℕ) : Option Scanned :=
  let close := fun c st => match skipBlanks category st with
    | ch :: st => if ch = c then some ⟨.name [some och, some c], none, st⟩ else none
    | [] => none
  if och = '('.toNat then close ')'.toNat st
  else if och = '['.toNat then close ']'.toNat st
  else if och = '{'.toNat then if st.head? = some '|'.toNat then none else close '}'.toNat st
  else none

theorem skipComment_suffix {och ch : ℕ} {st st' : List ℕ} (h : skipComment och ch st = some st') : st' <:+ st := by
  induction st generalizing och ch with
  | nil =>
      unfold skipComment at h
      split at h <;> cases h
      exact List.suffix_refl _
  | cons c st ih =>
      unfold skipComment at h
      split at h
      · cases h
        exact List.suffix_refl _
      · exact (ih h).trans (List.suffix_cons ..)

/-- Skips blanks and comments. -/
def skipLayout (st : List ℕ) : List ℕ :=
  match _h : skipBlanks category st with
  | [] => []
  | ch :: st' =>
    if chtype category ch = .cc then skipLayout (st'.dropWhile fun c => c ≠ 10)
    else if ch = '/'.toNat ∧ st'.head? = some '*'.toNat then
      match _hc : skipComment '/'.toNat '*'.toNat st'.tail with
      | some st'' => skipLayout st''
      | none => []
    else ch :: st'
termination_by st.length
decreasing_by
  all_goals
    have hle := (List.dropWhile_sublist (fun c => chtype category c = .bs) (l := st)).length_le
    rw [← skipBlanks, _h, List.length_cons] at hle
  · have hline := (List.dropWhile_sublist (fun c => decide (c ≠ 10)) (l := st')).length_le
    omega
  · have hcomment := (skipComment_suffix _hc).length_le
    rw [List.length_tail] at hcomment
    omega

/-- The token that begins with a character. -/
def scanToken (ch : ℕ) (st : List ℕ) : Option Scanned :=
  match chtype category ch with
  | .lc => (scanName category imgSize (putUtf8 ch) st).map fun r => ⟨.name r.1, none, r.2⟩
  | .qt => scanQuotedToken category ch st
  | .dc => scanQuotedToken category ch st
  | .sy =>
    if ch = '.'.toNat ∧ endsClause category st then none
    else if ch = backQuote then scanQuotedToken category ch st
    else some (scanSymbol category ch st)
  -- the code keeps the low byte of the character
  | .sl => some ⟨.name (if ch % 256 = 0 then [] else [some (ch % 256)]), none, st⟩
  | .bk => scanBracket category ch st
  | _ => none

/-- The first token of `Yap_tokenizer`, when it is one of text. A token of another kind
    and the end of the text are `none`. -/
def scanText (st : List ℕ) : Option Scanned :=
  match skipLayout category st with
  | [] => none
  | ch :: st' => scanToken category ch st'

end

end Yap
