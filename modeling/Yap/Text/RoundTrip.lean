-- SUMMARY: Which texts come back when they are written as quoted atoms or as strings and scanned again.
import Yap.Text.Quoted
import Yap.Text.Plain

/-!
# Writing and reading text

What is written goes through a UTF-8 stream, and may be followed by a blank or by
the end of the stream.
-/

namespace Yap

variable {category : ℕ → Category} {qt : ℕ} {s : List ℕ}

-- ---------------------------------------------------------------------------
-- The claim about text
-- ---------------------------------------------------------------------------

/-- What may follow on the stream. -/
def LayoutStart (rest : List ℕ) : Prop := rest = [] ∨ ∃ tl, rest = 32 :: tl

variable (category) in
/-- What is written is scanned as this token alone, without an error. -/
def ScansAs (out : List ℤ) (token : TextToken) : Prop :=
  ∀ rest, LayoutStart rest → scanText category (decode (emit out ++ rest)) = some ⟨token, none, decode rest⟩

variable (category) in
/-- The atom is written, whatever has been written before, and scanned as the same atom. -/
def AtomRoundTrips (s : List ℕ) : Prop :=
  ∀ lastw, ScansAs category (putAtom true lastw (encode s)) (.name ((encode s).map some))

variable (category) in
/-- The string is written and scanned as the same string. -/
def StringRoundTrips (s : List ℕ) : Prop :=
  ScansAs category (writeString false (encode s)) (.string ((encode s).map some))

variable (category) in
/-- The atoms that come back. -/
def AtomSafe (s : List ℕ) : Prop :=
  if legalAtom (encode s) then (∀ c ∈ s, Scalar c) ∧ PlainName category s else Survives singleQuote 0 s

/-- The strings that come back. -/
def StringSafe (s : List ℕ) : Prop := Survives doubleQuote 0 s

-- ---------------------------------------------------------------------------
-- Layout
-- ---------------------------------------------------------------------------

theorem decode_ascii {b : ℕ} (h : b < 0x80) (st : List ℕ) : decode (b :: st) = b :: decode st :=
  decode_some (by rw [getWchar.eq_def]; simp [h])

theorem LayoutStart.head {rest : List ℕ} (h : LayoutStart rest) : ∀ c ∈ (decode rest).head?, c = 32 := by
  rcases h with rfl | ⟨tl, rfl⟩
  · rw [decode_none rfl]
    rintro c ⟨⟩
  · rw [decode_ascii (by decide)]
    rintro c ⟨⟩
    rfl

theorem decode_nil : decode [] = [] := decode_none rfl

theorem layoutStart_blank : LayoutStart [32] := .inr ⟨[], rfl⟩

theorem decode_blank : decode [32] = [32] := by
  rw [decode_ascii (by decide), decode_none rfl]

theorem skipLayout_nil {st : List ℕ} (h : skipBlanks category st = []) : skipLayout category st = [] := by
  unfold skipLayout
  split
  case h_1 => rfl
  case h_2 ch st' heq =>
    rw [h] at heq
    cases heq

/-- After the blanks, a comment or the start of a token. -/
theorem skipLayout_eq {st st' : List ℕ} {ch : ℕ} (h : skipBlanks category st = ch :: st') :
    skipLayout category st =
      if chtype category ch = .cc then skipLayout category (st'.dropWhile fun c => c ≠ 10)
      else if ch = '/'.toNat ∧ st'.head? = some '*'.toNat then
        (skipComment '/'.toNat '*'.toNat st'.tail).elim [] (skipLayout category)
      else ch :: st' := by
  rw [skipLayout.eq_def]
  split
  case h_1 heq =>
    rw [h] at heq
    cases heq
  case h_2 ch₁ st₁ heq =>
    rw [h] at heq
    cases heq
    congr 2
    split
    case h_1 st'' hcomment => rw [hcomment, Option.elim_some]
    case h_2 hcomment => rw [hcomment, Option.elim_none]

theorem skipLayout_cons {ch : ℕ} {st : List ℕ} (hbs : chtype category ch ≠ .bs) (hcc : chtype category ch ≠ .cc)
    (hcomment : ¬ (ch = '/'.toNat ∧ st.head? = some '*'.toNat)) : skipLayout category (ch :: st) = ch :: st := by
  have hskip : skipBlanks category (ch :: st) = ch :: st := by
    rw [skipBlanks, List.dropWhile_cons_of_neg]
    simpa using hbs
  rw [skipLayout_eq hskip, if_neg hcc, if_neg hcomment]

theorem scanText_cons {ch : ℕ} {st : List ℕ} (hbs : chtype category ch ≠ .bs) (hcc : chtype category ch ≠ .cc)
    (hcomment : ¬ (ch = '/'.toNat ∧ st.head? = some '*'.toNat)) :
    scanText category (ch :: st) = scanToken category ch st := by
  rw [scanText, skipLayout_cons hbs hcc hcomment]

theorem scanText_byte {ch : ℕ} (hch : ch < 256) (hkind : byteKind ch ≠ .bs ∧ byteKind ch ≠ .cc)
    (hslash : ch ≠ '/'.toNat) (st : List ℕ) : scanText category (ch :: st) = scanToken category ch st := by
  rw [← chtype_of_lt hch] at hkind
  exact scanText_cons hkind.1 hkind.2 fun h => hslash h.1

/-- A blank before the text does not count. -/
theorem scanText_blank (st : List ℕ) : scanText category (32 :: st) = scanText category st := by
  have hskip : skipBlanks category (32 :: st) = skipBlanks category st := by
    rw [skipBlanks, List.dropWhile_cons_of_pos]
    · rfl
    · exact decide_eq_true rfl
  have hlayout : skipLayout category (32 :: st) = skipLayout category st := by
    cases hst : skipBlanks category st with
    | nil => rw [skipLayout_nil hst, skipLayout_nil (hskip.trans hst)]
    | cons ch st' => rw [skipLayout_eq hst, skipLayout_eq (hskip.trans hst)]
  rw [scanText, scanText, hlayout]

-- ---------------------------------------------------------------------------
-- Quoted text
-- ---------------------------------------------------------------------------

/-- The code points are encoded, or some come before a first surrogate. -/
theorem scalar_or_surrogate (hs : ∀ c ∈ s, 0 < c ∧ c < 0x110000) :
    (∀ c ∈ s, Scalar c) ∨ ∃ u c w, s = u ++ c :: w ∧ (∀ d ∈ u, Scalar d) ∧ Surrogate c := by
  induction s with
  | nil => exact .inl (by rintro c ⟨⟩)
  | cons c s ih =>
      obtain ⟨⟨hpos, hlt⟩, hs⟩ := List.forall_mem_cons.mp hs
      by_cases hsur : Surrogate c
      · exact .inr ⟨[], c, s, rfl, by rintro d ⟨⟩, hsur⟩
      have hc : Scalar c := ⟨hpos, hlt, hsur⟩
      rcases ih hs with hall | ⟨u, d, w, rfl, hu, hd⟩
      · exact .inl (List.forall_mem_cons.mpr ⟨hc, hall⟩)
      · exact .inr ⟨c :: u, d, w, rfl, List.forall_mem_cons.mpr ⟨hc, hu⟩, hd⟩

/-- A text between quotes, as both writers of quoted text put it. -/
def quotedText (stops : Bool) (qt : ℕ) (s : List ℕ) : List ℤ :=
  [(qt : ℤ)] ++ writeLoop stops qt (encode s) ++ [(qt : ℤ)]

theorem IsQuote.scalar (hqt : IsQuote qt) : Scalar qt := by
  rcases hqt.cases_eq with rfl | rfl <;> exact ⟨by decide, by decide, by decide⟩

theorem IsQuote.lt (hqt : IsQuote qt) : qt < 0x80 := by
  rcases hqt.cases_eq with rfl | rfl <;> decide

theorem scanText_quote (hqt : IsQuote qt) (st : List ℕ) :
    scanText category (qt :: st) = scanQuotedToken category qt st := by
  rcases hqt.cases_eq with rfl | rfl <;> exact scanText_byte (by decide) (by decide) (by decide) st

theorem quotedToken_injective (hqt : IsQuote qt) {img img' : Image} (h : quotedToken qt img = quotedToken qt img') :
    img = img' := by
  rcases hqt.cases_eq with rfl | rfl <;> cases h <;> rfl

theorem emit_quote (hqt : IsQuote qt) : emit [(qt : ℤ)] = [qt] := by
  rcases hqt.cases_eq with rfl | rfl <;> rfl

variable {stops : Bool}

/-- The stream of a text without surrogates. -/
theorem decode_quotedText (hqt : IsQuote qt) (hs : ∀ c ∈ s, Scalar c) (rest : List ℕ) :
    decode (emit (quotedText stops qt s) ++ rest) = qt :: (written qt s ++ qt :: decode rest) := by
  have hloop : writeLoop stops qt (encode s) = (written qt s).map Nat.cast := by
    have h : writeLoop stops qt (encode s ++ []) = (written qt s).map Nat.cast ++ writeLoop stops qt [] :=
      writeLoop_encode hqt hs []
    simpa [writeLoop] using h
  have hemit : emit (quotedText stops qt s) = qt :: (encode (written qt s) ++ [qt]) := by
    rw [quotedText, emit_append, emit_append, emit_quote hqt, hloop, emit_natCast (written_scalar hqt hs)]
    rfl
  rw [hemit, List.cons_append, decode_ascii hqt.lt, List.append_assoc, decode_encode (written_scalar hqt hs),
    List.cons_append, List.nil_append, decode_ascii hqt.lt]

/-- A surrogate is written as bytes that are read as a character without an encoding. -/
theorem decode_quotedText_surrogate (hqt : IsQuote qt) {u w : List ℕ} (hu : ∀ d ∈ u, Scalar d) (hc : Surrogate c)
    (rest : List ℕ) : ∃ big st, 0x110000 ≤ big ∧
      decode (emit (quotedText stops qt (u ++ c :: w)) ++ rest) = qt :: (written qt u ++ big :: st) := by
  have hloop : writeLoop stops qt (encode (u ++ c :: w)) =
      (written qt u).map Nat.cast ++ -1 :: -1 :: -1 :: writeLoop stops qt (encode w) := by
    rw [encode_append, encode_cons, writeLoop_encode hqt hu, writeLoop_surrogate hc]
  have hbad : ∀ ws : List ℤ, emit (-1 :: -1 :: -1 :: ws) = 0xFF :: 0xFF :: 0xFF :: emit ws := fun ws => rfl
  have hemit : emit (quotedText stops qt (u ++ c :: w)) =
      qt :: (encode (written qt u) ++ 0xFF :: 0xFF :: 0xFF :: (emit (writeLoop stops qt (encode w)) ++ [qt])) := by
    rw [quotedText, emit_append, emit_append, emit_quote hqt, hloop, emit_append,
      emit_natCast (written_scalar hqt hu), hbad]
    simp only [List.cons_append, List.nil_append, List.append_assoc]
  obtain ⟨b, st, hst⟩ : ∃ b st, emit (writeLoop stops qt (encode w)) ++ [qt] ++ rest = b :: st :=
    List.exists_cons_of_ne_nil (by simp)
  have hget : getWchar (0xFF :: 0xFF :: 0xFF :: b :: st) = some (7 * 262144 + 63 * 4096 + 63 * 64 + b % 64, st) := by
    simp [getWchar]
  refine ⟨7 * 262144 + 63 * 4096 + 63 * 64 + b % 64, decode st, by omega, ?_⟩
  rw [hemit, List.cons_append, decode_ascii hqt.lt, List.append_assoc, decode_encode (written_scalar hqt hu),
    List.cons_append, List.cons_append, List.cons_append, hst, decode_some hget]

theorem Survives.scalar {n : ℕ} (h : Survives qt n s) : ∀ c ∈ s, Scalar c := by
  rcases h with ⟨hs, -⟩ | ⟨-, u, rfl, hu, -⟩
  · exact fun c hc => (hs c hc).1
  · intro c hc
    rcases List.mem_append.mp hc with hc | hc
    · exact (hu c hc).1
    · rw [List.mem_singleton.mp hc]
      exact ⟨by decide, by decide, by decide⟩

/-- Quoted text comes back exactly when it survives the loop of the scanner. -/
theorem scansAs_quotedText (hqt : IsQuote qt) (hs : ∀ c ∈ s, 0 < c ∧ c < 0x110000) :
    ScansAs category (quotedText stops qt s) (quotedToken qt ((encode s).map some)) ↔ Survives qt 0 s := by
  constructor
  · intro h
    have hscan := h [32] layoutStart_blank
    rw [decode_blank] at hscan
    rcases scalar_or_surrogate hs with hall | ⟨u, c, w, rfl, hu, hc⟩
    · rw [decode_quotedText hqt hall, decode_blank, scanText_quote hqt] at hscan
      obtain ⟨⟨img', error', rest'⟩, hloop, heq⟩ := Option.map_eq_some_iff.mp hscan
      simp only [Scanned.mk.injEq] at heq
      obtain ⟨htoken, rfl, rfl⟩ := heq
      obtain rfl := quotedToken_injective hqt htoken
      refine (scanQuoted_closed hqt hall hloop).2.resolve_right ?_
      simp
    · obtain ⟨big, st, hbig, hdecode⟩ : ∃ big st, 0x110000 ≤ big ∧
          decode (emit (quotedText stops qt (u ++ c :: w)) ++ [32]) = qt :: (written qt u ++ big :: st) :=
        decode_quotedText_surrogate hqt hu hc [32]
      rw [hdecode, scanText_quote hqt] at hscan
      obtain ⟨⟨img', error', rest'⟩, hloop, heq⟩ := Option.map_eq_some_iff.mp hscan
      simp only [Scanned.mk.injEq] at heq
      obtain ⟨htoken, rfl, rfl⟩ := heq
      obtain rfl := quotedToken_injective hqt htoken
      rcases scanQuoted_big hqt hu hbig hloop with hnone | hrest
      · simp at hnone
      · have h32 := List.mem_singleton.mp hrest
        omega
  · intro h rest hrest
    have hhead : (decode rest).head? ≠ some qt := by
      intro hqt'
      have h32 := hrest.head qt hqt'
      rcases hqt.cases_eq with rfl | rfl <;> cases h32
    have hsurv : Survives qt ([] : Image).length s := h
    have hloop : scanQuoted category qt none [] (written qt s ++ qt :: decode rest) =
        some ([] ++ (encode s).map some, none, decode rest) :=
      scanQuoted_survives hqt hsurv hhead
    rw [decode_quotedText hqt h.scalar, scanText_quote hqt, scanQuotedToken, hloop]
    rfl

-- ---------------------------------------------------------------------------
-- Unquoted text
-- ---------------------------------------------------------------------------

theorem encodeChar_lt {c : ℕ} (h : c < 0x110000) : ∀ b ∈ encodeChar c, b < 256 := by
  unfold encodeChar
  split_ifs <;> simp only [List.mem_cons, List.not_mem_nil, or_false, forall_eq_or_imp, forall_eq] <;> omega

theorem encode_lt (hs : ∀ c ∈ s, c < 0x110000) : ∀ b ∈ encode s, b < 256 := by
  intro b hb
  obtain ⟨c, hc, hb⟩ := List.mem_flatMap.mp hb
  exact encodeChar_lt (hs c hc) b hb

/-- The bytes of an unquoted atom go out as they are. -/
theorem emit_wrputs {bs : List ℕ} (h : ∀ b ∈ bs, b < 256) : emit (wrputs bs) = bs := by
  induction bs with
  | nil => rfl
  | cons b bs ih =>
      obtain ⟨hb, hbs⟩ := List.forall_mem_cons.mp h
      have hbyte : putWchar (if b < 0x80 then (b : ℤ) else b - 256) = [b] := by
        split
        case isTrue hlow =>
          rw [putWchar, if_pos (by exact_mod_cast hlow)]
          simp only [List.cons.injEq, and_true]
          omega
        case isFalse hhigh =>
          rw [putWchar, if_pos (by omega)]
          simp only [List.cons.injEq, and_true]
          omega
      have hrest := ih hbs
      rw [wrputs, List.map_cons, emit, List.flatMap_cons, hbyte]
      rw [wrputs, emit] at hrest
      rw [hrest]
      rfl

theorem not_inName_head {rest : List ℕ} (hrest : LayoutStart rest) :
    ∀ c ∈ (decode rest).head?, ¬ (chtype category c).inName := by
  intro c hc
  rw [hrest.head c hc, chtype_of_lt (by decide)]
  decide

/-- An atom of symbols, unless it is a point or begins a comment or a quoted item. -/
theorem scanText_symbols (hsy : ∀ c ∈ s, chtype category c = .sy) (hlegal : legalAtom (encode s)) (hs : ∀ c ∈ s, Scalar c)
    {rest : List ℕ} (hrest : LayoutStart rest) :
    scanText category (s ++ decode rest) = some ⟨.name ((encode s).map some), none, decode rest⟩ := by
  cases s with
  | nil => cases hlegal
  | cons ch cs =>
      obtain ⟨hch, hcs⟩ := List.forall_mem_cons.mp hsy
      have hbytes : ((encode (ch :: cs)).map some : Image) = (ch :: cs).flatMap putUtf8 :=
        (flatMap_putUtf8 fun c hc => (hs c hc).lt).symm
      have hblank : ∀ c ∈ (decode rest).head?, chtype category c = .bs := by
        intro c hc
        rw [hrest.head c hc]
        rfl
      have hcomment : ¬ (ch = '/'.toNat ∧ (cs ++ decode rest).head? = some '*'.toNat) := by
        rintro ⟨rfl, hstar⟩
        cases cs with
        | nil => exact absurd (hblank _ hstar) (by rw [chtype_of_lt (by decide)]; decide)
        | cons d cs =>
            obtain rfl := Option.some.inj hstar
            cases hlegal
      have hpoint : ¬ (ch = '.'.toNat ∧ endsClause category (cs ++ decode rest)) := by
        rintro ⟨rfl, hend⟩
        cases cs with
        | nil => cases hlegal
        | cons d cs =>
            have hd := hcs d (List.mem_cons_self ..)
            have hpercent : d ≠ '%'.toNat := by
              rintro rfl
              rw [chtype_of_lt (by decide)] at hd
              exact absurd hd (by decide)
            have hor : chtype category d = .bs ∨ d = '%'.toNat := by simpa [endsClause] using hend
            exact hor.elim (fun h => absurd (hd.symm.trans h) (by decide)) hpercent
      have hback : ch ≠ backQuote := by
        rintro rfl
        cases hlegal
      have hall : ∀ c ∈ cs, decide (chtype category c = .sy) = true := fun c hc => decide_eq_true (hcs c hc)
      have hstop : (decode rest).takeWhile (fun c => decide (chtype category c = .sy)) = [] ∧
          (decode rest).dropWhile (fun c => decide (chtype category c = .sy)) = decode rest := by
        cases hdec : decode rest with
        | nil => exact ⟨rfl, rfl⟩
        | cons d ds =>
            have hd := hblank d (by rw [hdec]; rfl)
            have hsy : ¬ decide (chtype category d = .sy) = true := by rw [hd]; decide
            exact ⟨List.takeWhile_cons_of_neg hsy, List.dropWhile_cons_of_neg hsy⟩
      have htake : (cs ++ decode rest).takeWhile (fun c => decide (chtype category c = .sy)) = cs := by
        rw [List.takeWhile_append_of_pos hall, hstop.1, List.append_nil]
      have hdrop : (cs ++ decode rest).dropWhile (fun c => decide (chtype category c = .sy)) = decode rest := by
        rw [List.dropWhile_append_of_pos hall, hstop.2]
      rw [List.cons_append, scanText_cons (by rw [hch]; decide) (by rw [hch]; decide) hcomment, scanToken, hch]
      simp only [if_neg hpoint, if_neg hback, scanSymbol, htake, hdrop, hbytes]

/-- A plain name that the writer does not quote is scanned to its end. -/
theorem scanText_plain (hplain : PlainName category s) (hlegal : legalAtom (encode s)) (hs : ∀ c ∈ s, Scalar c)
    {rest : List ℕ} (hrest : LayoutStart rest) :
    scanText category (s ++ decode rest) = some ⟨.name ((encode s).map some), none, decode rest⟩ := by
  rcases hplain with hmem | ⟨ch, cs, rfl, hlc, hin, hfits⟩ | hsy
  · simp only [List.mem_cons, List.not_mem_nil, or_false] at hmem
    have hclose : ∀ c : ℕ, c < 256 → byteKind c ≠ .bs → skipBlanks category (c :: decode rest) = c :: decode rest := by
      intro c hc hbs
      rw [skipBlanks, List.dropWhile_cons_of_neg]
      simpa [chtype_of_lt hc] using hbs
    rcases hmem with rfl | rfl | rfl | rfl
    · exact scanText_byte (by decide) (by decide) (by decide) _
    · exact scanText_byte (by decide) (by decide) (by decide) _
    · refine (scanText_byte (by decide) (by decide) (by decide) _).trans ?_
      show scanBracket category 91 (93 :: decode rest) = _
      simp [scanBracket, hclose 93 (by decide) (by decide)]
      rfl
    · refine (scanText_byte (by decide) (by decide) (by decide) _).trans ?_
      show scanBracket category 123 (125 :: decode rest) = _
      simp [scanBracket, hclose 125 (by decide) (by decide)]
      rfl
  · have hch : ch < 0x110000 := (hs ch (List.mem_cons_self ..)).lt
    have hbytes : ((encode (ch :: cs)).map some : Image) = putUtf8 ch ++ cs.flatMap putUtf8 := by
      rw [← flatMap_putUtf8 fun c hc => (hs c hc).lt, List.flatMap_cons]
    have hslash : ch ≠ '/'.toNat := by
      rintro rfl
      rw [chtype_of_lt (by decide)] at hlc
      exact absurd hlc (by decide)
    have hname : scanName category imgSize (putUtf8 ch) (cs ++ decode rest) =
        some (putUtf8 ch ++ cs.flatMap putUtf8, decode rest) := by
      rw [scanName_append hin (not_inName_head hrest), if_pos hfits]
    rw [List.cons_append, scanText_cons (by rw [hlc]; decide) (by rw [hlc]; decide) fun h => hslash h.1, scanToken, hlc,
      hbytes]
    simp only [hname]
    rfl
  · exact scanText_symbols hsy hlegal hs hrest

/-- An unquoted atom comes back exactly when its characters are those of a plain name. -/
theorem scansAs_wrputs (hs : ∀ c ∈ s, 0 < c ∧ c < 0x110000) (hlegal : legalAtom (encode s)) :
    ScansAs category (wrputs (encode s)) (.name ((encode s).map some)) ↔
      (∀ c ∈ s, Scalar c) ∧ PlainName category s := by
  have hlt : ∀ c ∈ s, c < 0x110000 := fun c hc => (hs c hc).2
  have hemit : emit (wrputs (encode s)) = encode s := emit_wrputs (encode_lt hlt)
  constructor
  · intro h
    have hscan := h [] (.inl rfl)
    rw [hemit, List.append_nil, decode_nil] at hscan
    obtain ⟨hle, hfull⟩ := scanText_spec hscan
    simp only [TextToken.image, List.length_map, bufferLength_nil, Nat.add_zero] at hle hfull
    rcases scalar_or_surrogate hs with hall | ⟨u, c, w, rfl, hu, hc⟩
    · have hdecode : decode (encode s) = s := by
        have h := decode_encode hall []
        simpa [decode_nil] using h
      rw [hdecode] at hfull
      have hplain := hfull hlt (bufferLength_eq hlt).le
      refine ⟨hall, hplain.resolve_left ?_⟩
      rintro rfl
      cases hlegal
    · have hlost := bufferLength_decode_surrogate (t := w) hu hc
      omega
  · rintro ⟨hall, hplain⟩ rest hrest
    rw [hemit, decode_encode hall]
    exact scanText_plain hplain hlegal hall hrest

-- ---------------------------------------------------------------------------
-- Atoms and strings
-- ---------------------------------------------------------------------------

theorem scansAs_blank {out : List ℤ} {token : TextToken} :
    ScansAs category ([32] ++ out) token ↔ ScansAs category out token := by
  have hemit : ∀ rest, decode (emit ([32] ++ out) ++ rest) = 32 :: decode (emit out ++ rest) :=
    fun rest => decode_ascii (by decide) _
  refine forall_congr' fun rest => imp_congr_right fun _ => ?_
  rw [hemit, scanText_blank]

/-- What has been written before does not count. -/
theorem forall_scansAs_putAtom {token : TextToken} {bs : List ℕ} (hne : bs ≠ []) :
    (∀ lastw, ScansAs category (putAtom true lastw bs) token) ↔
      ScansAs category (if true ∧ ¬ legalAtom bs then
          [(singleQuote : ℤ)] ++ writeLoop false singleQuote bs ++ [(singleQuote : ℤ)]
        else wrputs bs) token := by
  constructor
  · intro hall
    have hsep := hall .separator
    rw [putAtom, if_neg hne, if_neg fun h => h.2 h.1.symm, List.nil_append] at hsep
    exact hsep
  · intro hout lastw
    rw [putAtom, if_neg hne]
    split
    · exact scansAs_blank.mpr hout
    · exact hout

/-- Atoms come back as `AtomSafe` says. -/
theorem atomRoundTrips_iff (hne : s ≠ []) (hs : ∀ c ∈ s, 0 < c ∧ c < 0x110000) :
    AtomRoundTrips category s ↔ AtomSafe category s := by
  have hbytes : encode s ≠ [] := by
    obtain ⟨c, t, rfl⟩ := List.exists_cons_of_ne_nil hne
    intro hnil
    exact encodeChar_ne_nil (hs c (List.mem_cons_self ..)).2 (List.append_eq_nil_iff.mp hnil).1
  rw [AtomRoundTrips, forall_scansAs_putAtom hbytes, AtomSafe]
  by_cases hlegal : legalAtom (encode s)
  · rw [if_neg fun h => h.2 hlegal, if_pos hlegal]
    exact scansAs_wrputs hs hlegal
  · rw [if_pos ⟨rfl, hlegal⟩, if_neg hlegal]
    exact scansAs_quotedText (.inl rfl) hs

/-- Strings come back as `StringSafe` says. -/
theorem stringRoundTrips_iff (hs : ∀ c ∈ s, 0 < c ∧ c < 0x110000) :
    StringRoundTrips category s ↔ StringSafe s :=
  scansAs_quotedText (.inr rfl) hs

/-- The no-break space of an atom is written as a blank, and a double quote of a
    string is written as the end of the string. -/
theorem not_roundTrips_space :
    ¬ AtomRoundTrips (fun _ => .cn) [160] ∧ ¬ StringRoundTrips (fun _ => .cn) [97, 34, 98] := by
  constructor
  · rw [atomRoundTrips_iff (by simp) (by simp), AtomSafe, if_neg (by decide)]
    rintro (⟨hclean, -⟩ | ⟨hq, -⟩)
    · exact (hclean 160 (List.mem_cons_self ..)).2.1 rfl
    · cases hq
  · rw [stringRoundTrips_iff (by simp)]
    rintro (⟨hclean, -⟩ | ⟨-, u, hu, -⟩)
    · exact (hclean 34 (by simp)).2.2 ⟨rfl, rfl⟩
    · have hlast := congrArg List.getLast? hu
      simp at hlast

/-- Which atoms and which strings survive a round trip. -/
theorem roundTrips_iff (hne : s ≠ []) (hs : ∀ c ∈ s, 0 < c ∧ c < 0x110000) :
    (AtomRoundTrips category s ↔ AtomSafe category s) ∧ (StringRoundTrips category s ↔ StringSafe s) :=
  ⟨atomRoundTrips_iff hne hs, stringRoundTrips_iff hs⟩

theorem roundTrips_a : AtomRoundTrips (fun _ => .cn) [97] ∧ StringRoundTrips (fun _ => .cn) [97] := by
  have h : (AtomRoundTrips (fun _ => .cn) [97] ↔ AtomSafe (fun _ => .cn) [97]) ∧
      (StringRoundTrips (fun _ => .cn) [97] ↔ StringSafe [97]) :=
    roundTrips_iff (by simp) (by simp)
  have hscalar : Scalar 97 := ⟨by decide, by decide, by decide⟩
  refine ⟨h.1.mpr ?_, h.2.mpr (.inl ⟨?_, by decide⟩)⟩
  · rw [AtomSafe, if_pos (by decide)]
    exact ⟨by simpa using hscalar, .inr (.inl ⟨97, [], rfl, by decide, by simp, by decide⟩)⟩
  · simpa [Clean] using hscalar

end Yap
