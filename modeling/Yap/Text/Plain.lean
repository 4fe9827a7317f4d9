-- SUMMARY: What the scanner makes of an unquoted text: no token is longer than what it was read from, and a name as long as the text is one of a few kinds.
import Yap.Text.Write
import Yap.Text.Scan

/-!
# Unquoted text

A token never takes more bytes than the characters it was read from, and fewer when
a quote, a blank or a comment has been dropped. So a stream that is read as a name
of its own length begins with that name.
-/

namespace Yap

variable {category : ℕ → Category} {img : Image}

-- ---------------------------------------------------------------------------
-- Lengths
-- ---------------------------------------------------------------------------

theorem bufferLength_sublist {cs ds : List ℕ} (h : cs.Sublist ds) : bufferLength cs ≤ bufferLength ds := by
  induction h with
  | slnil => exact le_rfl
  | cons c _ ih =>
      rw [bufferLength_cons]
      omega
  | cons_cons c _ ih =>
      rw [bufferLength_cons, bufferLength_cons]
      omega

/-- A part of the stream that is as long is all of it. -/
theorem eq_of_suffix {cs ds : List ℕ} (h : cs <:+ ds) (hlen : bufferLength ds ≤ bufferLength cs) : cs = ds := by
  obtain ⟨es, rfl⟩ := h
  rw [bufferLength_append] at hlen
  cases es with
  | nil => rfl
  | cons e es =>
      have hpos := length_putUtf8_pos e
      rw [bufferLength_cons] at hlen
      omega

theorem length_putUtf8_le_two {c : ℕ} (h : c < 0x800) : (putUtf8 c).length ≤ 2 := by
  refine length_putUtf8_le.trans ?_
  split_ifs <;> omega

theorem length_putUtf8_le_four (c : ℕ) : (putUtf8 c).length ≤ 4 := by
  refine length_putUtf8_le.trans ?_
  split_ifs <;> omega

/-- An escape takes no more bytes than its backslash and what follows. -/
def QuotedChar.Bounded (q : QuotedChar) (st : List ℕ) : Prop :=
  (putUtf8 q.value).length + bufferLength q.rest ≤ bufferLength st + 1

theorem QuotedChar.bounded_fail {message : String} {st rest : List ℕ} (h : bufferLength rest ≤ bufferLength st) :
    (QuotedChar.fail message rest).Bounded st := by
  have hzero : (putUtf8 0).length = 1 := rfl
  simp only [Bounded, fail, hzero]
  omega

theorem readHexDigits_bounded (n wc : ℕ) (st : List ℕ) :
    (putUtf8 (readHexDigits n wc st).value).length + bufferLength (readHexDigits n wc st).rest ≤
      bufferLength st + max 1 (4 - n) := by
  have hfail : ∀ {rest : List ℕ}, bufferLength rest ≤ bufferLength st →
      (putUtf8 (QuotedChar.fail "invalid escape sequence" rest).value).length +
        bufferLength (QuotedChar.fail "invalid escape sequence" rest).rest ≤ bufferLength st + max 1 (4 - n) :=
    fun h => (QuotedChar.bounded_fail h).trans (by omega)
  induction n generalizing wc st with
  | zero =>
      have h4 := length_putUtf8_le_four (wc % 2 ^ 32)
      simp only [readHexDigits, QuotedChar.char]
      omega
  | succ n ih =>
      cases st with
      | nil => exact hfail le_rfl
      | cons ch st =>
          have hpos := length_putUtf8_pos ch
          have hcons := bufferLength_cons ch st
          rw [readHexDigits]
          split
          · refine (ih _ st fun h => (QuotedChar.bounded_fail h).trans (by omega)).trans ?_
            omega
          · exact hfail (by omega)

/-- A character below 0x800 takes no more bytes than the backslash and one character. -/
theorem QuotedChar.bounded_char {value : ℕ} {st rest : List ℕ} (hvalue : value < 0x800)
    (h : bufferLength rest < bufferLength st) : (QuotedChar.char value rest).Bounded st := by
  have h2 := length_putUtf8_le_two hvalue
  simp only [Bounded, char]
  omega

theorem bufferLength_lt_cons (c : ℕ) (cs : List ℕ) : bufferLength cs < bufferLength (c :: cs) := by
  have hpos := length_putUtf8_pos c
  rw [bufferLength_cons]
  omega

theorem readOctal_bounded {first : ℕ} (h : first < 8) (st : List ℕ) : (readOctal first st).Bounded st := by
  unfold readOctal
  cases st with
  | nil => exact QuotedChar.bounded_fail le_rfl
  | cons d st =>
      have h1 := bufferLength_lt_cons d st
      simp only
      split_ifs with hd hd'
      · have hd8 : d < 56 := (of_decide_eq_true hd).2
        cases st with
        | nil => exact QuotedChar.bounded_fail h1.le
        | cons e st =>
            have h2 := bufferLength_lt_cons e st
            simp only
            split_ifs
            · cases st with
              | nil => exact QuotedChar.bounded_fail (by omega)
              | cons f st =>
                  have h3 := bufferLength_lt_cons f st
                  simp only
                  split_ifs
                  · exact QuotedChar.bounded_char (by omega) (by omega)
                  · exact QuotedChar.bounded_fail (by omega)
            · exact QuotedChar.bounded_char (by omega) (by omega)
            · exact QuotedChar.bounded_fail (by omega)
      · exact QuotedChar.bounded_char (by omega) h1
      · exact QuotedChar.bounded_fail h1.le

theorem addXDigit_lt (soFar ch : ℕ) : addXDigit category soFar ch < 256 := by
  unfold addXDigit
  simp only
  omega

theorem readHex_bounded (st : List ℕ) : (readHex category st).Bounded st := by
  unfold readHex
  cases st with
  | nil => exact QuotedChar.bounded_fail le_rfl
  | cons d st =>
      have h1 := bufferLength_lt_cons d st
      simp only
      split_ifs
      · have hd : addXDigit category 0 d < 256 := addXDigit_lt ..
        cases st with
        | nil => exact QuotedChar.bounded_fail h1.le
        | cons e st =>
            have h2 := bufferLength_lt_cons e st
            simp only
            split_ifs
            · have he : addXDigit category (addXDigit category 0 d) e < 256 := addXDigit_lt ..
              cases st with
              | nil => exact QuotedChar.bounded_fail (by omega)
              | cons f st =>
                  have h3 := bufferLength_lt_cons f st
                  simp only
                  split_ifs
                  · exact QuotedChar.bounded_char (by omega) (by omega)
                  · exact QuotedChar.bounded_fail (by omega)
            · exact QuotedChar.bounded_char (by omega) (by omega)
            · exact QuotedChar.bounded_fail (by omega)
      · exact QuotedChar.bounded_char (by decide) h1
      · exact QuotedChar.bounded_fail h1.le

theorem readControl_bounded (st : List ℕ) : (readControl st).Bounded st := by
  unfold readControl
  cases st with
  | nil => exact le_rfl
  | cons ch st =>
      have h1 := bufferLength_lt_cons ch st
      simp only
      split_ifs with hq hlower hupper
      · exact QuotedChar.bounded_char (by decide) h1
      · have hz : ch < 122 := hlower.2
        exact QuotedChar.bounded_char (by omega) h1
      · have hz : ch < 90 := hupper.2
        exact QuotedChar.bounded_char (by omega) h1
      · exact QuotedChar.bounded_char (by decide) h1

theorem letterEscapes_lt {ch value : ℕ} (h : letterEscapes.lookup ch = some value) : value < 0x80 := by
  have hall : ∀ pr ∈ letterEscapes, pr.2 < 0x80 := by decide
  obtain ⟨l₁, l₂, heq, -⟩ := List.lookup_eq_some_iff.mp h
  exact hall (ch, value) (heq ▸ by simp)

theorem readQuotedChar_bounded (st : List ℕ) : (readQuotedChar category st).Bounded st := by
  induction hn : st.length using Nat.strongRecOn generalizing st with
  | ind n ih =>
      cases st with
      | nil =>
          unfold readQuotedChar
          exact QuotedChar.bounded_fail le_rfl
      | cons ch st =>
          have h1 := bufferLength_lt_cons ch st
          have hweaken : ∀ {q : QuotedChar}, q.Bounded st → q.Bounded (ch :: st) := by
            intro q hq
            unfold QuotedChar.Bounded at hq ⊢
            omega
          unfold readQuotedChar
          split
          case h_1 value hlook => exact QuotedChar.bounded_char ((letterEscapes_lt hlook).trans (by decide)) h1
          case h_2 =>
            split_ifs with hc hu hU hz hcontrol hoctal hx
            · have hdrop := (List.dropWhile_suffix (fun c => decide (chtype category c = .bs)) (l := st)).sublist
              split
              case h_1 =>
                have hput : (putUtf8 (2 ^ 32 - 1)).length = 1 := rfl
                simp only [QuotedChar.Bounded, QuotedChar.char, hput, bufferLength_nil]
                omega
              case h_2 c st' heq =>
                rw [heq] at hdrop
                have hle := bufferLength_sublist hdrop
                rw [bufferLength_cons] at hle
                split
                case isTrue =>
                  have hlen := hdrop.length_le
                  simp only [List.length_cons] at hlen hn
                  have hrec := ih st'.length (by omega) st' rfl
                  unfold QuotedChar.Bounded at hrec ⊢
                  omega
                case isFalse =>
                  simp only [QuotedChar.Bounded, QuotedChar.char]
                  omega
            · exact hweaken ((readHexDigits_bounded 4 0 st).trans (by omega))
            · exact hweaken ((readHexDigits_bounded 8 0 st).trans (by omega))
            · exact QuotedChar.bounded_fail h1.le
            · exact hweaken (readControl_bounded st)
            · have hlt : ch < 56 := (of_decide_eq_true hoctal).2
              exact hweaken (readOctal_bounded (by omega) st)
            · exact hweaken (readHex_bounded st)
            · exact QuotedChar.bounded_fail h1.le

theorem length_addChToBuff {imgsz ch : ℕ} {img' : Image} (h : addChToBuff imgsz img ch = some img') :
    img'.length = img.length + (putUtf8 ch).length ∧ img' = img ++ putUtf8 ch := by
  unfold addChToBuff at h
  split at h <;> cases h
  exact ⟨List.length_append, rfl⟩

theorem length_scanQuoted {quote : ℕ} {error error' : Option String} {st rest : List ℕ} {img' : Image}
    (h : scanQuoted category quote error img st = some (img', error', rest)) :
    img'.length + bufferLength rest ≤ img.length + bufferLength st := by
  induction hn : st.length using Nat.strongRecOn generalizing st img error with
  | ind n ih =>
      rw [scanQuoted.eq_def] at h
      split at h
      case isTrue =>
        cases h
        exact le_rfl
      case isFalse =>
        split at h
        case h_1 =>
          cases h
          exact le_rfl
        case h_2 ch st =>
          have h1 := bufferLength_lt_cons ch st
          have hcons := bufferLength_cons ch st
          have hquoted : (readQuotedChar category st).Bounded st := readQuotedChar_bounded st
          have hlen := length_readQuotedChar category st
          unfold QuotedChar.Bounded at hquoted
          rw [List.length_cons] at hn
          split_ifs at h with h10 hq hb hzero
          · cases h
            exact le_rfl
          · split at h
            case h_1 =>
              cases h
              omega
            case h_2 ch' st' =>
              have h2 := bufferLength_cons ch' st'
              have hpos := length_putUtf8_pos ch'
              split at h
              case isTrue =>
                split at h
                case h_1 => cases h
                case h_2 img₁ hadd =>
                  have hrec := ih st'.length (by simp only [List.length_cons] at hn; omega) h rfl
                  rw [(length_addChToBuff hadd).1] at hrec
                  omega
              case isFalse =>
                cases h
                omega
          · have hrec := ih _ (by omega) h rfl
            have hpos := length_putUtf8_pos (readQuotedChar category st).value
            have hbs : (putUtf8 ch).length = 1 := by rw [hb]; rfl
            omega
          · split at h
            case h_1 => cases h
            case h_2 img₁ hadd =>
              have hrec := ih _ (by omega) h rfl
              have hbs : (putUtf8 ch).length = 1 := by rw [hb]; rfl
              rw [(length_addChToBuff hadd).1] at hrec
              omega
          · split at h
            case h_1 => cases h
            case h_2 img₁ hadd =>
              have hrec := ih _ (by omega) h rfl
              rw [(length_addChToBuff hadd).1] at hrec
              omega

-- ---------------------------------------------------------------------------
-- Names
-- ---------------------------------------------------------------------------

/-- The characters of a name fit in the buffer, which grows when its last byte is
    reached exactly. -/
def nameFits (imgsz used : ℕ) : List ℕ → Bool
  | [] => used < imgsz
  | ch :: cs =>
    let imgsz := if used = imgsz - 1 then growImage imgsz else imgsz
    used + (putUtf8 ch).length ≤ imgsz ∧ nameFits imgsz (used + (putUtf8 ch).length) cs

/-- The loop reads all characters of a name, if they fit. -/
theorem scanName_append {imgsz : ℕ} {cs st : List ℕ} (hcs : ∀ c ∈ cs, (chtype category c).inName)
    (hst : ∀ c ∈ st.head?, ¬ (chtype category c).inName) :
    scanName category imgsz img (cs ++ st) =
      if nameFits imgsz img.length cs then some (img ++ cs.flatMap putUtf8, st) else none := by
  induction cs generalizing imgsz img with
  | nil =>
      rw [List.nil_append, List.flatMap_nil, List.append_nil]
      cases st with
      | nil => simp [scanName, nameFits]
      | cons ch st =>
          have hch : ¬ (chtype category ch).inName := hst ch rfl
          simp [scanName, nameFits, hch]
  | cons c cs ih =>
      obtain ⟨hc, hcs⟩ := List.forall_mem_cons.mp hcs
      rw [List.cons_append, scanName, if_pos hc]
      generalize hgrow : (if img.length = imgsz - 1 then growImage imgsz else imgsz) = imgsz'
      have hfits : nameFits imgsz img.length (c :: cs) =
          (decide (img.length + (putUtf8 c).length ≤ imgsz') && nameFits imgsz' (img.length + (putUtf8 c).length) cs) := by
        rw [nameFits, hgrow, Bool.decide_and, Bool.decide_eq_true]
      by_cases hle : img.length + (putUtf8 c).length ≤ imgsz'
      · rw [show addChToBuff imgsz' img c = some (img ++ putUtf8 c) from if_pos hle]
        simp only [ih hcs, hfits, hle, decide_true, Bool.true_and, List.length_append, List.flatMap_cons,
          List.append_assoc]
      · rw [show addChToBuff imgsz' img c = none from if_neg hle]
        simp [hfits, hle]

/-- A name is what its characters add to the buffer. -/
theorem scanName_eq_some {imgsz : ℕ} {st rest : List ℕ} {img' : Image}
    (h : scanName category imgsz img st = some (img', rest)) :
    ∃ cs, st = cs ++ rest ∧ (∀ c ∈ cs, (chtype category c).inName) ∧ img' = img ++ cs.flatMap putUtf8 ∧
      nameFits imgsz img.length cs := by
  have hsplit := List.takeWhile_append_dropWhile (p := fun c => (chtype category c).inName) (l := st)
  have hin : ∀ c ∈ st.takeWhile fun c => (chtype category c).inName, (chtype category c).inName :=
    fun c hc => List.mem_takeWhile_imp (p := fun c => (chtype category c).inName) hc
  have hout : ∀ c ∈ (st.dropWhile fun c => (chtype category c).inName).head?, ¬ (chtype category c).inName := by
    intro c hc
    have hhead := List.head?_dropWhile_not (fun c => (chtype category c).inName) st
    rw [Option.mem_def.mp hc] at hhead
    simpa using hhead
  have happ : scanName category imgsz img _ = if nameFits imgsz img.length _ then _ else none := scanName_append hin hout
  rw [hsplit, h] at happ
  split at happ
  case isTrue hfits =>
    cases happ
    exact ⟨_, hsplit.symm, hin, rfl, hfits⟩
  case isFalse => cases happ

-- ---------------------------------------------------------------------------
-- Tokens
-- ---------------------------------------------------------------------------

theorem skipLayout_suffix (st : List ℕ) : skipLayout category st <:+ st := by
  induction hn : st.length using Nat.strongRecOn generalizing st with
  | ind n ih =>
      have hblanks : skipBlanks category st <:+ st := List.dropWhile_suffix _
      unfold skipLayout
      split
      case h_1 => exact List.nil_suffix
      case h_2 ch st' heq =>
        rw [heq] at hblanks
        have hst' : st' <:+ st := (List.suffix_cons ch st').trans hblanks
        have hlt := hblanks.length_le
        rw [List.length_cons] at hlt
        split
        case isTrue =>
          have hline := List.dropWhile_suffix (fun c => decide (c ≠ 10)) (l := st')
          have hlen := hline.length_le
          exact (ih _ (by omega) _ rfl).trans (hline.trans hst')
        case isFalse =>
          split
          case isTrue =>
            split
            case h_1 st'' hcomment =>
              have hsuffix : st'' <:+ st'.tail := skipComment_suffix hcomment
              have hlen := hsuffix.length_le
              rw [List.length_tail] at hlen
              exact (ih _ (by omega) _ rfl).trans (hsuffix.trans ((List.tail_suffix st').trans hst'))
            case h_2 => exact List.nil_suffix
          case isFalse => exact hblanks

/-- A quoted token is shorter than what it was read from. -/
theorem length_scanQuotedToken {quote : ℕ} {st : List ℕ} {r : Scanned}
    (h : scanQuotedToken category quote st = some r) :
    r.token.image.length + bufferLength r.rest < bufferLength (quote :: st) := by
  obtain ⟨⟨img', error', rest⟩, hscan, rfl⟩ := Option.map_eq_some_iff.mp h
  have hle := length_scanQuoted hscan
  have hlt := bufferLength_lt_cons quote st
  have himage : (quotedToken quote img').image = img' := by
    unfold quotedToken
    split_ifs <;> rfl
  simp only [himage]
  simp only [List.length_nil] at hle
  omega

/-- Two brackets. -/
theorem scanBracket_eq_some {och : ℕ} {st : List ℕ} {r : Scanned} (h : scanBracket category och st = some r) :
    ∃ close rest, skipBlanks category st = close :: rest ∧ r = ⟨.name [some och, some close], none, rest⟩ ∧
      (och, close) ∈ [(40, 41), (91, 93), (123, 125)] := by
  have hname : ∀ {ch c : ℕ} {st' : List ℕ}, (och, c) ∈ [(40, 41), (91, 93), (123, 125)] →
      skipBlanks category st = ch :: st' →
      (if ch = c then some (⟨.name [some och, some c], none, st'⟩ : Scanned) else none) = some r →
      ∃ close rest, skipBlanks category st = close :: rest ∧ r = ⟨.name [some och, some close], none, rest⟩ ∧
        (och, close) ∈ [(40, 41), (91, 93), (123, 125)] := by
    intro ch c st' hmem heq hr
    split at hr
    case isTrue hch =>
      cases hr
      exact ⟨c, st', hch ▸ heq, rfl, hmem⟩
    case isFalse => cases hr
  unfold scanBracket at h
  simp only at h
  split_ifs at h with h1 h2 h3 h4
  all_goals split at h
  case _ heq => exact hname (by rw [h1]; decide) heq h
  case _ => cases h
  case _ heq => exact hname (by rw [h2]; decide) heq h
  case _ => cases h
  case _ heq => exact hname (by rw [h3]; decide) heq h
  case _ => cases h

theorem byteKind_sl : ∀ b < 0x80, byteKind b = .sl → b = 33 ∨ b = 59 := by decide

theorem lt_of_length_putUtf8 {c : ℕ} (hc : c < 0x110000) (hlen : (putUtf8 c).length ≤ 1) : c < 0x80 := by
  rw [putUtf8_of_lt hc, List.length_map] at hlen
  unfold encodeChar at hlen
  by_contra hge
  split_ifs at hlen <;> simp at hlen

/-- The characters of an unquoted text are read as one name. -/
def PlainName (category : ℕ → Category) (s : List ℕ) : Prop :=
  s ∈ [[33], [59], [91, 93], [123, 125]] ∨
    (∃ ch cs, s = ch :: cs ∧ chtype category ch = .lc ∧ (∀ c ∈ cs, (chtype category c).inName) ∧
      nameFits imgSize (putUtf8 ch).length cs) ∨
    ∀ c ∈ s, chtype category c = .sy

/-- A token takes no more bytes than what it was read from, and as many only when it
    is a plain name. -/
theorem scanToken_spec {ch : ℕ} {st : List ℕ} {r : Scanned} (h : scanToken category ch st = some r) :
    r.token.image.length + bufferLength r.rest ≤ bufferLength (ch :: st) ∧
      (ch < 0x110000 → bufferLength (ch :: st) ≤ r.token.image.length →
        ch :: st = [40, 41] ∨ PlainName category (ch :: st)) := by
  have hlt := bufferLength_lt_cons ch st
  have hcons := bufferLength_cons ch st
  have hquoted : ∀ {r : Scanned}, scanQuotedToken category ch st = some r →
      r.token.image.length + bufferLength r.rest ≤ bufferLength (ch :: st) ∧
        (ch < 0x110000 → bufferLength (ch :: st) ≤ r.token.image.length →
          ch :: st = [40, 41] ∨ PlainName category (ch :: st)) := by
    intro r hr
    have hlen := length_scanQuotedToken hr
    exact ⟨hlen.le, fun _ hle => by omega⟩
  unfold scanToken at h
  split at h
  case h_1 hlc =>
    obtain ⟨⟨img', rest⟩, hname, rfl⟩ := Option.map_eq_some_iff.mp h
    obtain ⟨cs, rfl, hin, rfl, hfits⟩ := scanName_eq_some hname
    have himage : (putUtf8 ch ++ cs.flatMap putUtf8).length = bufferLength (ch :: cs) := by
      rw [List.length_append, bufferLength_cons]
      rfl
    simp only [TextToken.image, himage] at *
    rw [← List.cons_append, bufferLength_append]
    refine ⟨le_rfl, fun _ hle => .inr (.inr (.inl ⟨ch, cs, ?_, hlc, hin, hfits⟩))⟩
    have hrest : rest = [] := by
      cases rest with
      | nil => rfl
      | cons c rest =>
          have hpos := bufferLength_lt_cons c rest
          omega
    rw [hrest, List.append_nil]
  case h_2 => exact hquoted h
  case h_3 => exact hquoted h
  case h_4 hsy =>
    split_ifs at h with hpoint hback
    · exact hquoted h
    · cases h
      have hsplit := List.takeWhile_append_dropWhile (p := fun c => decide (chtype category c = .sy)) (l := st)
      simp only [scanSymbol, TextToken.image]
      have himage : ((ch :: st.takeWhile fun c => decide (chtype category c = .sy)).flatMap putUtf8).length =
          bufferLength (ch :: st.takeWhile fun c => decide (chtype category c = .sy)) := rfl
      have hlen := congrArg bufferLength hsplit
      rw [bufferLength_append] at hlen
      rw [himage, bufferLength_cons, bufferLength_cons]
      refine ⟨by omega, fun _ hle => .inr (.inr (.inr fun c hc => ?_))⟩
      have hnil : st.dropWhile (fun c => decide (chtype category c = .sy)) = [] := by
        cases hdrop : st.dropWhile fun c => decide (chtype category c = .sy) with
        | nil => rfl
        | cons d ds =>
            have hpos := bufferLength_lt_cons d ds
            rw [hdrop] at hlen
            omega
      rcases List.mem_cons.mp hc with rfl | hc
      · exact hsy
      · simpa using List.dropWhile_eq_nil_iff.mp hnil c hc
  case h_5 hsl =>
    cases h
    have himage : (if ch % 256 = 0 then [] else [some (ch % 256)] : Image).length ≤ 1 := by
      split_ifs <;> simp
    have hpos := length_putUtf8_pos ch
    simp only [TextToken.image]
    refine ⟨by omega, fun hch hle => .inr (.inl ?_)⟩
    have hst : st = [] := by
      cases st with
      | nil => rfl
      | cons c st =>
          have hpos := bufferLength_lt_cons c st
          omega
    subst hst
    rw [bufferLength_cons, bufferLength_nil] at hle
    have hlow := lt_of_length_putUtf8 hch (hle.trans himage)
    rw [chtype_of_lt (by omega)] at hsl
    rcases byteKind_sl ch hlow hsl with rfl | rfl <;> decide
  case h_6 =>
    obtain ⟨close, rest, hskip, rfl, hmem⟩ := scanBracket_eq_some h
    have hsuffix : close :: rest <:+ st := hskip ▸ List.dropWhile_suffix _
    have hle := bufferLength_sublist hsuffix.sublist
    have hpos := length_putUtf8_pos ch
    have hclose := length_putUtf8_pos close
    rw [bufferLength_cons] at hle
    simp only [TextToken.image, List.length_cons, List.length_nil]
    refine ⟨by omega, fun _ hlen => ?_⟩
    have hrest : rest = [] := by
      cases rest with
      | nil => rfl
      | cons c rest =>
          have hlt := bufferLength_lt_cons c rest
          omega
    have hst : close :: rest = st := eq_of_suffix hsuffix (by
      rw [bufferLength_cons]
      omega)
    rw [← hst, hrest]
    simp only [List.mem_cons, Prod.mk.injEq, List.not_mem_nil, or_false] at hmem
    rcases hmem with ⟨rfl, rfl⟩ | ⟨rfl, rfl⟩ | ⟨rfl, rfl⟩
    · exact .inl rfl
    · exact .inr (.inl (by simp))
    · exact .inr (.inl (by simp))
  case h_7 => cases h

theorem scanText_spec {st : List ℕ} {r : Scanned} (h : scanText category st = some r) :
    r.token.image.length + bufferLength r.rest ≤ bufferLength st ∧
      ((∀ c ∈ st, c < 0x110000) → bufferLength st ≤ r.token.image.length →
        st = [40, 41] ∨ PlainName category st) := by
  have hsuffix : skipLayout category st <:+ st := skipLayout_suffix st
  unfold scanText at h
  split at h
  case h_1 => cases h
  case h_2 ch st' heq =>
    rw [heq] at hsuffix
    obtain ⟨hlen, hplain⟩ := scanToken_spec h
    have hle := bufferLength_sublist hsuffix.sublist
    refine ⟨hlen.trans hle, fun hst hfull => ?_⟩
    obtain rfl := eq_of_suffix hsuffix (by omega)
    exact hplain (hst ch (List.mem_cons_self ..)) hfull

end Yap
