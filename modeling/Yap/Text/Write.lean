-- SUMMARY: The classes of characters that the scanner and the writer share, and how atoms and strings are written: unquoted, quoted, and with escapes.
import Yap.Text.Utf8

/-!
# Characters and their writing

The table is `Yap_chtype0` of `scanner.c`. Above it the class depends on the Unicode
category, as in `Yap_wide_chtype` of `YapText.h`; the categories are a parameter.

The functions follow `legalAtom`, `AtomIsSymbols`, `write_quoted`, `write_string` and
`putAtom` of `write.c`, with character escapes on. An atom or a string is a sequence
of bytes; what is written is a sequence of wide characters, which may be negative.
-/

namespace Yap

/-- `char_kind_t`. -/
inductive CharKind where
  | bg | uc | ul | lc | nu | qt | dc | sy | sl | bk | bs | ef | cc
deriving DecidableEq

namespace CharKind

def toNat : CharKind → ℕ
  | bg => 0 | uc => 1 | ul => 2 | lc => 3 | nu => 4 | qt => 5 | dc => 6
  | sy => 7 | sl => 8 | bk => 9 | bs => 10 | ef => 11 | cc => 12

/-- The classes up to `NU` go on with a name. -/
def inName (k : CharKind) : Bool := k.toNat ≤ nu.toNat

end CharKind

/-- `utf8proc_category_t`. -/
inductive Category where
  | cn | lu | ll | lt | lm | lo | mn | mc | me | nd | nl | no | pc | pd | ps | pe | pi | pf | po
  | sm | sc | sk | so | zs | zl | zp | cc | cf | cs | co

/-- The switch of `Yap_wide_chtype`. -/
def Category.kind : Category → CharKind
  | cn => .bg
  | lu => .uc
  | ll => .lc
  | lt => .uc
  | lm => .lc
  | lo => .lc
  | mn => .bg
  | mc => .bk
  | me => .bk
  | nd => .nu
  | nl => .nu
  | no => .nu
  | pc => .sl
  | pd => .sy
  | ps => .bk
  | pe => .bk
  | pi => .qt
  | pf => .qt
  | po => .sl
  | sm => .sy
  | sc => .sy
  | sk => .lc
  | so => .sl
  | zs => .bs
  | zl => .bs
  | zp => .bs
  | cc => .bg
  | cf => .bg
  | cs => .bg
  | co => .bg

open CharKind in
/-- `Yap_chtype0`, without its entry for the end of the stream. -/
def chtypeTable : List CharKind := [
  bs, bs, bs, bs, bs, bs, bs, bs, bs, bs, bs, bs, bs, bs, bs, bs,
  bs, bs, bs, bs, bs, bs, bs, bs, bs, bs, bs, bs, bs, bs, bs, bs,
  -- sp   !   "   #   $   %   &   '   (   )   *   +   ,   -   .   /
  bs, sl, dc, sy, sy, cc, sy, qt, bk, bk, sy, sy, bk, sy, sy, sy,
  -- 0   1   2   3   4   5   6   7   8   9   :   ;   <   =   >   ?
  nu, nu, nu, nu, nu, nu, nu, nu, nu, nu, sy, sl, sy, sy, sy, sy,
  -- @   A   B   C   D   E   F   G   H   I   J   K   L   M   N   O
  sy, uc, uc, uc, uc, uc, uc, uc, uc, uc, uc, uc, uc, uc, uc, uc,
  -- P   Q   R   S   T   U   V   W   X   Y   Z   [   \   ]   ^   _
  uc, uc, uc, uc, uc, uc, uc, uc, uc, uc, uc, bk, sy, bk, sy, ul,
  -- `   a   b   c   d   e   f   g   h   i   j   k   l   m   n   o
  sy, lc, lc, lc, lc, lc, lc, lc, lc, lc, lc, lc, lc, lc, lc, lc,
  -- p   q   r   s   t   u   v   w   x   y   z   {   |   }   ~ del
  lc, lc, lc, lc, lc, lc, lc, lc, lc, lc, lc, bk, bk, bk, sy, bs,
  bs, bs, bs, bs, bs, bs, bs, bs, bs, bs, bs, bs, bs, bs, bs, bs,
  bs, bs, bs, bs, bs, bs, bs, bs, bs, bs, bs, bs, bs, bs, bs, bs,
  -- from the no-break space, 160
  bs, sy, sy, sy, sy, sy, sy, sy, sy, sy, lc, sy, sy, sy, sy, sy,
  sy, sy, lc, lc, sy, sy, sy, sy, sy, lc, lc, sy, sy, sy, sy, sy,
  uc, uc, uc, uc, uc, uc, uc, uc, uc, uc, uc, uc, uc, uc, uc, uc,
  uc, uc, uc, uc, uc, uc, uc, sy, uc, uc, uc, uc, uc, uc, uc, lc,
  lc, lc, lc, lc, lc, lc, lc, lc, lc, lc, lc, lc, lc, lc, lc, lc,
  lc, lc, lc, lc, lc, lc, lc, sy, lc, lc, lc, lc, lc, lc, lc, lc]

/-- `Yap_chtype`, on a byte or a character below 256. -/
def byteKind (b : ℕ) : CharKind := chtypeTable.getD b .ef

/-- `chtype`. -/
def chtype (category : ℕ → Category) (ch : ℕ) : CharKind :=
  if ch < 256 then byteKind ch else (category ch).kind

/-- The quotes and the backslash. -/
abbrev singleQuote : ℕ := 39

abbrev doubleQuote : ℕ := 34

abbrev backQuote : ℕ := 96

abbrev backslash : ℕ := 92

theorem chtype_of_lt {category : ℕ → Category} {ch : ℕ} (h : ch < 256) : chtype category ch = byteKind ch := if_pos h

/-- `legalAtom`: the atom is written without quotes. -/
def legalAtom (s : List ℕ) : Bool :=
  match s with
  | [] => false
  | ch :: rest =>
    if byteKind ch = .lc then rest.all fun b => (byteKind b).inName
    else if ch = '['.toNat then rest = [']'.toNat]
    else if ch = '{'.toNat then rest = ['}'.toNat]
    else if byteKind ch = .sl then rest = []
    else if ch = backQuote then false
    else if (ch = ','.toNat ∨ ch = '.'.toNat) ∧ rest = [] then false
    else if ch = '/'.toNat ∧ rest.head? = some '*'.toNat then false
    else s.all fun b => byteKind b = .sy

/-- `wtype`: what has been written last. -/
inductive WriteType where
  | separator
  | alphanum
  | symbol
deriving DecidableEq

/-- `AtomIsSymbols`. -/
def atomIsSymbols (s : List ℕ) : WriteType :=
  match s with
  | [] => .symbol
  | ch :: rest =>
    if byteKind ch = .sl ∧ rest = [] then .separator
    else if s.all fun b => byteKind b = .sy then .symbol
    else .alphanum

/-- `write_quoted`. -/
def writeQuoted (ch quote : ℤ) : List ℤ :=
  if ¬ (0 ≤ ch ∧ ch < 0xff ∧ byteKind ch.toNat = .bs) ∧ ch ≠ singleQuote ∧ ch ≠ backslash ∧ ch ≠ backQuote then
    [ch]
  else if ch = backslash then [backslash, backslash]
  else if ch = singleQuote then if ch = quote then [backslash, ch] else [ch]
  else if ch = doubleQuote then if ch = quote then [backslash, ch] else [ch]
  else if ch = backQuote then if ch = quote then [backQuote, ch] else [ch]
  else if ch = 7 then [backslash, 'a'.toNat]
  else if ch = 8 then [backslash, 'b'.toNat]
  else if ch = 9 then [backslash, 't'.toNat]
  else if ch = 32 ∨ ch = 160 then [32]
  else if ch = 10 then [backslash, 'n'.toNat]
  else if ch = 11 then [backslash, 'v'.toNat]
  else if ch = 13 then [backslash, 'r'.toNat]
  else if ch = 12 then [backslash, 'f'.toNat]
  -- three octal digits
  else if ch ≤ 0xff then [backslash, 48 + ch / 64, 48 + ch / 8 % 8, 48 + ch % 8, backslash]
  else []

/-- The loops of `putAtom` and of `write_string`. The second one stops at a NUL. -/
def writeLoop (stops : Bool) (qt : ℤ) : List ℕ → List ℤ
  | [] => []
  | b :: bs =>
    if stops ∧ (getUtf8 (b :: bs)).1 = 0 then []
    else writeQuoted (getUtf8 (b :: bs)).1 qt ++ writeLoop stops qt ((b :: bs).drop (getUtf8 (b :: bs)).2)
termination_by s => s.length
decreasing_by
  have := getUtf8_pos (b :: bs)
  simp only [List.length_drop, List.length_cons]
  omega

/-- `wrputs`: the bytes go out as signed characters. -/
def wrputs (s : List ℕ) : List ℤ := s.map fun (b : ℕ) => if b < 0x80 then (b : ℤ) else b - 256

/-- `putAtom`, with what has been written before. -/
def putAtom (quoteIllegal : Bool) (lastw : WriteType) (s : List ℕ) : List ℤ :=
  if s = [] then if quoteIllegal then [singleQuote, singleQuote] else []
  else
    (if lastw = atomIsSymbols s ∧ atomIsSymbols s ≠ .separator then [32] else []) ++
      if quoteIllegal ∧ ¬ legalAtom s then
        [(singleQuote : ℤ)] ++ writeLoop false singleQuote s ++ [(singleQuote : ℤ)]
      else wrputs s

/-- `write_string`. -/
def writeString (writeStrings : Bool) (s : List ℕ) : List ℤ :=
  let qt : ℤ := if writeStrings then backQuote else doubleQuote
  [qt] ++ writeLoop true qt s ++ [qt]

/-- The bytes that go out on the stream. -/
def emit (ws : List ℤ) : List ℕ := ws.flatMap putWchar

theorem emit_append (ws vs : List ℤ) : emit (ws ++ vs) = emit ws ++ emit vs := List.flatMap_append ..

end Yap
