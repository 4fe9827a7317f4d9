-- SUMMARY: Lists of codes and of one-character atoms: how they are read into a buffer and written back in front of a tail, and when the way back gives the same list.
import Yap.Parse.Tokens
import Yap.Text.Utf8

/-!
# Lists of codes and of characters

The functions follow `codes2buf`, `write_codes` and `write_atoms` of `text.c`. A
buffer is modelled as the bytes before its NUL; a byte that nothing was written to
has no value. The size of the stacks is not modelled, and `Globalize`, which moves a
variable off the local stack, is the identity.
-/

namespace Yap

-- ---------------------------------------------------------------------------
-- Errors
-- ---------------------------------------------------------------------------

/-- The errors of `codes2buf`. -/
inductive ListError where
  | instantiationError
  | typeErrorList
  | typeErrorInteger
  | typeErrorAtom
  | typeErrorCharacterCode
  | typeErrorCharacter
  | representationErrorCharacterCode

/-- What `Yap_ThrowError` is called with. -/
structure Thrown where
  error : ListError
  culprit : Term
  message : String

-- ---------------------------------------------------------------------------
-- Texts and lists
-- ---------------------------------------------------------------------------

/-- The bytes of a string as numbers. -/
def CString.toBuffer (s : CString) : List ℕ := s.bytes.map UInt8.toNat

/-- The string that a buffer holds. -/
def cString (bs : List ℕ) : CString where
  bytes := (bs.map UInt8.ofNat).takeWhile (· ≠ 0)
  nul_free h := by simpa using List.mem_takeWhile_imp h

/-- `Yap_ULookupAtom`. -/
def uLookupAtom (bs : List ℕ) : Atom := ⟨cString bs⟩

/-- The cells that a list takes from `hr` on. -/
def listAt (hr : Addr) : List Term → Term → Term
  | [], tail => tail
  | hd :: hds, tail => .pair hr hd (listAt (hr + 2) hds tail)

/-- A term that is a list of some elements followed by a tail. -/
inductive PartialList : Term → List Term → Term → Prop where
  | tail (t : Term) : PartialList t [] t
  | cons (p : Addr) (hd : Term) {tl : Term} {hds : List Term} {tail : Term} :
      PartialList tl hds tail → PartialList (.pair p hd tl) (hd :: hds) tail

-- ---------------------------------------------------------------------------
-- Reading a list
-- ---------------------------------------------------------------------------

/-- `IntegerOfTerm`, where `IsIntegerTerm` holds. -/
def integerOf : Term → Option ℤ
  | .int n => some (intOfTerm n).toInt
  | .blob _ (.longInt n) => some n.val.toInt
  | _ => none

/-- The argument of `put_utf8` has 32 bits. -/
def int32 (code : ℤ) : ℕ := (code % 2 ^ 32).toNat

/-- What a code adds to the buffer. -/
def putCode (code : ℤ) : List (Option ℕ) := if code = 0 then [some 0xC0, some 0x80] else putUtf8 (int32 code)

def codeBytes (hd : Term) : List (Option ℕ) := putCode ((integerOf hd).getD 0)

def atomBytes : Term → List (Option ℕ)
  | .atom a => a.strOfAE.toBuffer.map some
  | _ => []

/-- The checks of the loop over codes on an element. -/
def checkCode (hd : Term) : Except Thrown Unit :=
  if hd.isVarTerm then .error ⟨.instantiationError, hd, "scanning list of codes"⟩
  else
    match integerOf hd with
    | none => .error ⟨.typeErrorCharacterCode, hd, "scanning list of codes"⟩
    | some code =>
      if code < 0 then
        .error ⟨.representationErrorCharacterCode, hd, "scanning list of character codes, found %d"⟩
      else .ok ()

/-- The checks of the loop over atoms on an element. -/
def checkAtom (hd : Term) : Except Thrown Unit :=
  match hd with
  | .var _ => .error ⟨.instantiationError, hd, "scanning list of codes"⟩
  | .atom _ => .ok ()
  | _ => .error ⟨.typeErrorCharacter, hd, "scanning list of texts"⟩

/-- The checks of both loops on the rest of the list. -/
def checkTail (t : Term) : Except Thrown Unit :=
  match t with
  | .var _ => .error ⟨.instantiationError, t, "scanning list of codes"⟩
  | .pair _ _ _ => .ok ()
  | _ => if t = termNil then .ok () else .error ⟨.typeErrorList, t, "scanning list of codes"⟩

/-- The first loop: it checks the list and adds up the bytes. -/
def scanLength (check : Term → Except Thrown Unit) (bytes : Term → List (Option ℕ)) : Term → Except Thrown ℕ
  | .pair _ hd tl => do
    check hd
    checkTail tl
    let length ← scanLength check bytes tl
    return (bytes hd).length + length
  | _ => return 0

/-- The second loop: it writes the bytes. -/
def fill (bytes : Term → List (Option ℕ)) : Term → List (Option ℕ)
  | .pair _ hd tl => bytes hd ++ fill bytes tl
  | _ => []

/-- `codes2buf`: the size of the new buffer and the bytes that are written to it. -/
def codes2buf (t0 : Term) (getCodes fixed : Bool) : Except Thrown (ℕ × List (Option ℕ)) :=
  if t0 = termNil then .ok (4, [])
  else
    match t0 with
    | .pair _ hd _ =>
      let codes := hd.isIntegerTerm
      if getCodes ≠ codes ∧ fixed then
        if codes then .error ⟨.typeErrorInteger, hd, "scanning list of codes"⟩
        else .error ⟨.typeErrorAtom, hd, "scanning list of atoms"⟩
      else if codes then do
        let length ← scanLength checkCode codeBytes t0
        return (length + 1, fill codeBytes t0)
      else do
        let length ← scanLength checkAtom atomBytes t0
        return (length + 1, fill atomBytes t0)
    | _ => .error ⟨.typeErrorList, t0, "scanning list of codes"⟩

-- ---------------------------------------------------------------------------
-- Writing a list
-- ---------------------------------------------------------------------------

/-- What the caller asks of the output: `max` under `YAP_STRING_TRUNC`, and the tail
    under `YAP_STRING_DIFF`. -/
structure SeqTv where
  max : Option ℕ
  dif : Option Term

/-- The loop of `write_codes`. -/
def readCodes (cp : List ℕ) : List ℤ :=
  if _h : cp = [] then []
  else
    let chr := (getUtf8 cp).1
    if chr = 0 then [] else chr :: readCodes (cp.drop (getUtf8 cp).2)
termination_by cp.length
decreasing_by
  have hpos := getUtf8_pos cp
  have hlen : 0 < cp.length := List.length_pos_iff.mpr ‹_›
  rw [List.length_drop]
  omega

/-- `write_codes`, with its cells from `hr` on. A buffer that starts with a NUL in two
    bytes overwrites a cell that is none of the list. -/
def writeCodes (hr : Addr) (s0 : List ℕ) (out : SeqTv) : Option Term :=
  let sz := s0.length
  if sz = 0 then some (out.dif.getD termNil)
  else
    match readCodes s0 with
    | [] => none
    | chr :: chrs =>
      let last := if sz = 0 then out.dif.getD termNil else termNil
      some (listAt hr ((chr :: chrs).map fun chr => mkIntTerm (.ofInt 64 chr)) last)

/-- The loop of `write_atoms`, with room for some more atoms. The test of the loop is
    on its first character all along; what stops it is the NUL or the room. -/
def readAtoms : ℕ → List ℕ → Option (List Term)
  | 0, _ => some []
  | room + 1, s =>
    if s = [] then some []
    else
      let chr := (getUtf8 s).1
      if chr = 0 then some []
      else do
        let w ← (putUtf8 (int32 chr)).mapM id
        let hds ← readAtoms room (s.drop (getUtf8 s).2)
        return .atom (uLookupAtom w) :: hds

/-- `write_atoms`, with its cells from `hr` on. -/
def writeAtoms (hr : Addr) (s0 : List ℕ) (out : SeqTv) : Option Term :=
  if s0 = [] then some termNil
  else
    let max := out.max.elim s0.length (min s0.length)
    (readAtoms max s0).map fun hds => listAt hr hds (out.dif.getD termNil)

-- ---------------------------------------------------------------------------
-- There and back
-- ---------------------------------------------------------------------------

/-- The kinds of lists. -/
inductive ListKind where
  | codes
  | atoms
deriving DecidableEq

namespace ListKind

/-- The element for a character. -/
def element : ListKind → ℕ → Term
  | codes, c => mkIntTerm (.ofNat 64 c)
  | atoms, c => .atom (uLookupAtom (encodeChar c))

/-- What `get_codes` is for the kind. -/
def getCodes : ListKind → Bool
  | codes => true
  | atoms => false

def write : ListKind → Addr → List ℕ → SeqTv → Option Term
  | codes => writeCodes
  | atoms => writeAtoms

end ListKind

/-- A list of characters is read into a buffer that is large enough, and the buffer is
    written as the same list, followed by the tail that was asked for. -/
def RoundTrip (kind : ListKind) (s : List ℕ) (dif : Option Term) : Prop :=
  ∀ t, PartialList t (s.map kind.element) termNil → ∀ getCodes fixed : Bool,
    (fixed = true → getCodes = kind.getCodes) → ∀ hr,
      ∃ room bs r, codes2buf t getCodes fixed = .ok (room, bs.map some) ∧ bs.length < room ∧
        kind.write hr bs ⟨none, dif⟩ = some r ∧
        PartialList r (s.map kind.element) (dif.getD termNil)

-- ---------------------------------------------------------------------------
-- Elements
-- ---------------------------------------------------------------------------

/-- The bytes of a character fit in a string. -/
theorem encodeChar_mem {c b : ℕ} (h : Scalar c) (hb : b ∈ encodeChar c) : 0 < b ∧ b < 256 := by
  have hpos := h.pos
  unfold encodeChar at hb
  split_ifs at hb with h1 h2 h3 h4
  · obtain rfl := List.mem_singleton.mp hb
    omega
  all_goals simp only [List.mem_cons, List.not_mem_nil, or_false] at hb
  all_goals omega

/-- A string holds the bytes it was made of. -/
theorem toBuffer_cString {bs : List ℕ} (h : ∀ b ∈ bs, 0 < b ∧ b < 256) : (cString bs).toBuffer = bs := by
  have hbyte : ∀ b ∈ bs, (UInt8.ofNat b).toNat = b := fun b hb => Nat.mod_eq_of_lt (h b hb).2
  have hall : (bs.map UInt8.ofNat).takeWhile (· ≠ 0) = bs.map UInt8.ofNat := by
    refine List.takeWhile_eq_self_iff.mpr fun u hu => ?_
    obtain ⟨b, hb, rfl⟩ := List.mem_map.mp hu
    refine decide_eq_true fun h0 => ?_
    have hb0 := hbyte b hb
    rw [h0] at hb0
    exact absurd hb0 (h b hb).1.ne
  rw [CString.toBuffer, cString]
  simp only [hall, List.map_map]
  exact (List.map_congr_left hbyte).trans bs.map_id

theorem integerOf_element {c : ℕ} (h : c < 0x110000) : integerOf (mkIntTerm (.ofNat 64 c)) = some (c : ℤ) := by
  have hwidth : (BitVec.ofNat 64 c).setWidth 58 = BitVec.ofNat 58 c := by
    apply BitVec.eq_of_toNat_eq
    simp only [BitVec.toNat_setWidth, BitVec.toNat_ofNat]
    omega
  rw [mkIntTerm, hwidth, integerOf, intOfTerm, BitVec.toInt_signExtend_of_le (by decide), Option.some.injEq]
  rw [BitVec.toInt_eq_toNat_of_lt] <;> rw [BitVec.toNat_ofNat] <;> omega

theorem isIntegerTerm_element (kind : ListKind) (c : ℕ) : (kind.element c).isIntegerTerm = kind.getCodes := by
  cases kind <;> rfl

theorem codeBytes_element {c : ℕ} (h : Scalar c) :
    codeBytes (ListKind.codes.element c) = (encodeChar c).map some := by
  have hpos := h.pos
  have hlt := h.lt
  have hint : int32 c = c := by
    unfold int32
    omega
  rw [codeBytes, ListKind.element, integerOf_element hlt, Option.getD_some, putCode, if_neg (by omega), hint,
    putUtf8_of_lt hlt]

theorem atomBytes_element {c : ℕ} (h : Scalar c) :
    atomBytes (ListKind.atoms.element c) = (encodeChar c).map some := by
  rw [ListKind.element, atomBytes, uLookupAtom, toBuffer_cString fun b hb => encodeChar_mem h hb]

theorem checkCode_element {c : ℕ} (h : Scalar c) : checkCode (ListKind.codes.element c) = .ok () := by
  rw [checkCode, ListKind.element, integerOf_element h.lt]
  simp only [Nat.cast_nonneg, not_lt_of_ge, if_false]
  rfl

-- ---------------------------------------------------------------------------
-- Reading a list of characters
-- ---------------------------------------------------------------------------

theorem checkTail_partialList {t : Term} {hds : List Term} (h : PartialList t hds termNil) :
    checkTail t = .ok () := by
  cases h with
  | tail => rfl
  | cons p hd htl => rfl

section Read

variable {f : ℕ → Term} {check : Term → Except Thrown Unit} {bytes : Term → List (Option ℕ)} {s : List ℕ} {t : Term}

/-- The second loop writes the bytes of the characters. -/
theorem fill_eq (ht : PartialList t (s.map f) termNil)
    (hbytes : ∀ c ∈ s, bytes (f c) = (encodeChar c).map some) : fill bytes t = (encode s).map some := by
  induction s generalizing t with
  | nil =>
      cases ht with
      | tail => rfl
  | cons c s ih =>
      cases ht with
      | cons p hd htl =>
          rw [fill, hbytes c (List.mem_cons_self ..), ih htl fun d hd => hbytes d (List.mem_cons_of_mem _ hd),
            encode_cons, List.map_append]

/-- The first loop accepts the list and counts these bytes. -/
theorem scanLength_eq (ht : PartialList t (s.map f) termNil) (hcheck : ∀ c ∈ s, check (f c) = .ok ())
    (hbytes : ∀ c ∈ s, bytes (f c) = (encodeChar c).map some) :
    scanLength check bytes t = .ok (encode s).length := by
  induction s generalizing t with
  | nil =>
      cases ht with
      | tail => rfl
  | cons c s ih =>
      cases ht with
      | cons p hd htl =>
          have hrest := ih htl (fun d hd => hcheck d (List.mem_cons_of_mem _ hd))
            fun d hd => hbytes d (List.mem_cons_of_mem _ hd)
          rw [scanLength, hcheck c (List.mem_cons_self ..), checkTail_partialList htl, hrest,
            hbytes c (List.mem_cons_self ..), encode_cons, List.length_append, List.length_map]
          rfl

end Read

/-- A list of characters is read as the bytes of the text, into a buffer with room for
    its NUL. -/
theorem codes2buf_eq {kind : ListKind} {s : List ℕ} (hs : ∀ c ∈ s, Scalar c) {t : Term}
    (ht : PartialList t (s.map kind.element) termNil) {getCodes fixed : Bool}
    (hmode : fixed = true → getCodes = kind.getCodes) :
    ∃ room, codes2buf t getCodes fixed = .ok (room, (encode s).map some) ∧ (encode s).length < room := by
  cases s with
  | nil =>
      cases ht with
      | tail => exact ⟨4, if_pos rfl, Nat.succ_pos 3⟩
  | cons c s =>
      refine ⟨(encode (c :: s)).length + 1, ?_, Nat.lt_succ_self _⟩
      cases ht with
      | cons p hd htl =>
          have hkind : ¬ (getCodes ≠ kind.getCodes ∧ fixed = true) := fun hne => hne.1 (hmode hne.2)
          have hlist : PartialList (.pair p (kind.element c) _) ((c :: s).map kind.element) termNil := .cons p _ htl
          rw [codes2buf, if_neg (by rintro ⟨⟩)]
          simp only [isIntegerTerm_element, hkind, if_false]
          cases kind with
          | codes =>
              have hbytes := fun d hd => codeBytes_element (hs d hd)
              rw [fill_eq hlist hbytes, scanLength_eq hlist (fun d hd => checkCode_element (hs d hd)) hbytes]
              rfl
          | atoms =>
              have hbytes := fun d hd => atomBytes_element (hs d hd)
              rw [fill_eq hlist hbytes, scanLength_eq hlist (fun d _ => rfl) hbytes]
              rfl

-- ---------------------------------------------------------------------------
-- Writing a text
-- ---------------------------------------------------------------------------

theorem encode_ne_nil {c : ℕ} {s : List ℕ} (h : Scalar c) : encode (c :: s) ≠ [] := by
  rw [encode_cons]
  exact List.append_ne_nil_of_left_ne_nil (encodeChar_ne_nil h.lt) _

theorem readCodes_encode {s : List ℕ} (hs : ∀ c ∈ s, Scalar c) : readCodes (encode s) = s.map fun c : ℕ => (c : ℤ) := by
  induction s with
  | nil =>
      rw [readCodes.eq_def]
      rfl
  | cons c s ih =>
      have hc := hs c (List.mem_cons_self ..)
      have hpos := hc.pos
      rw [readCodes.eq_def, dif_neg (encode_ne_nil hc), encode_cons, getUtf8_encodeChar hc]
      simp only [List.drop_left, ih fun d hd => hs d (List.mem_cons_of_mem _ hd)]
      rw [if_neg (by omega), List.map_cons]

theorem mapM_id_some (bs : List ℕ) : (bs.map some).mapM id = some bs := by
  induction bs with
  | nil => rfl
  | cons b bs ih =>
      rw [List.map_cons, List.mapM_cons, ih]
      rfl

/-- As many atoms as there are bytes are room enough. -/
theorem readAtoms_encode {s : List ℕ} (hs : ∀ c ∈ s, Scalar c) {room : ℕ} (hroom : (encode s).length ≤ room) :
    readAtoms room (encode s) = some (s.map ListKind.atoms.element) := by
  induction s generalizing room with
  | nil => cases room <;> rfl
  | cons c s ih =>
      have hc := hs c (List.mem_cons_self ..)
      have hpos := hc.pos
      have hchar := List.length_pos_iff.mpr (encodeChar_ne_nil hc.lt)
      have hint : int32 (c : ℤ) = c := by
        have := hc.lt
        unfold int32
        omega
      rw [encode_cons, List.length_append] at hroom
      obtain ⟨m, rfl⟩ : ∃ m, room = m + 1 := ⟨room - 1, by omega⟩
      have hlen : (encode s).length ≤ m := by omega
      have hrest := ih (fun d hd => hs d (List.mem_cons_of_mem _ hd)) hlen
      rw [readAtoms, if_neg (encode_ne_nil hc), encode_cons, getUtf8_encodeChar hc]
      simp only [List.drop_left, hint, putUtf8_of_lt hc.lt, mapM_id_some, hrest]
      rw [if_neg (by omega)]
      rfl

theorem partialList_listAt (hr : Addr) (hds : List Term) (tail : Term) : PartialList (listAt hr hds tail) hds tail := by
  induction hds generalizing hr with
  | nil => exact .tail tail
  | cons hd hds ih => exact .cons hr hd (ih (hr + 2))

/-- A list has one tail. -/
theorem PartialList.tail_eq {hr : Addr} {hds : List Term} {tail tail' : Term}
    (h : PartialList (listAt hr hds tail) hds tail') : tail = tail' := by
  induction hds generalizing hr with
  | nil =>
      cases h with
      | tail => rfl
  | cons hd hds ih =>
      cases h with
      | cons p hd htl => exact ih htl

namespace ListKind

/-- The tail that a list of characters gets. -/
def tailOf (kind : ListKind) (s : List ℕ) (dif : Option Term) : Term :=
  if kind = .codes ↔ s = [] then dif.getD termNil else termNil

theorem write_eq {kind : ListKind} {s : List ℕ} (hs : ∀ c ∈ s, Scalar c) (hr : Addr) (dif : Option Term) :
    kind.write hr (encode s) ⟨none, dif⟩ = some (listAt hr (s.map kind.element) (kind.tailOf s dif)) := by
  cases s with
  | nil => cases kind <;> rfl
  | cons c s =>
      have hne := encode_ne_nil (s := s) (hs c (List.mem_cons_self ..))
      cases kind with
      | codes =>
          have hlen : (encode (c :: s)).length ≠ 0 := List.length_pos_iff.mpr hne |>.ne'
          have hcodes : ((c :: s).map fun c : ℕ => (c : ℤ)).map (fun chr => mkIntTerm (.ofInt 64 chr)) =
              (c :: s).map codes.element := by
            rw [List.map_map]
            exact List.map_congr_left fun d _ => congrArg mkIntTerm (BitVec.ofInt_natCast 64 d)
          rw [write, writeCodes, if_neg hlen, readCodes_encode hs, ← hcodes, if_neg hlen]
          rfl
      | atoms =>
          rw [write, writeAtoms, if_neg hne]
          simp only [Option.elim, readAtoms_encode hs le_rfl]
          rfl

end ListKind

/-- A way there and back gives the tail that was asked for. -/
theorem RoundTrip.tailOf_eq {kind : ListKind} {s : List ℕ} (hs : ∀ c ∈ s, Scalar c) {dif : Option Term}
    (h : RoundTrip kind s dif) : kind.tailOf s dif = dif.getD termNil := by
  have ht := partialList_listAt 0 (s.map kind.element) termNil
  have hmode : true = true → kind.getCodes = kind.getCodes := fun _ => rfl
  obtain ⟨room, bs, r, hread, -, hwrite, hr⟩ := h _ ht kind.getCodes true hmode 0
  obtain ⟨room', hread', -⟩ := codes2buf_eq hs ht hmode
  rw [hread, Except.ok.injEq, Prod.mk.injEq] at hread'
  obtain rfl := (Option.some_injective ℕ).list_map hread'.2
  rw [ListKind.write_eq hs, Option.some.injEq] at hwrite
  rw [← hwrite] at hr
  exact hr.tail_eq

theorem ListKind.tailOf_eq_iff (kind : ListKind) (s : List ℕ) (dif : Option Term) :
    kind.tailOf s dif = dif.getD termNil ↔ dif = none ∨ dif = some termNil ∨ (kind = .codes ↔ s = []) := by
  rw [ListKind.tailOf]
  cases dif with
  | none => simp
  | some d => by_cases h : kind = .codes ↔ s = [] <;> simp [h, eq_comm]

/-- The way there and back gives the same list with the tail that was asked for if and
    only if none was asked for, or the tail is `[]`, or codes are written and there are
    none, or atoms are written and there are some. -/
theorem roundTrip_iff {kind : ListKind} {s : List ℕ} (hs : ∀ c ∈ s, Scalar c) (dif : Option Term) :
    RoundTrip kind s dif ↔ dif = none ∨ dif = some termNil ∨ (kind = .codes ↔ s = []) := by
  rw [← ListKind.tailOf_eq_iff]
  constructor
  · intro h
    exact h.tailOf_eq hs
  · intro h t ht getCodes fixed hmode hr
    obtain ⟨room, hread, hroom⟩ := codes2buf_eq hs ht hmode
    refine ⟨room, encode s, _, hread, hroom, ListKind.write_eq hs hr dif, ?_⟩
    rw [h]
    exact partialList_listAt ..

theorem scalar_a : ∀ c ∈ [97], Scalar c := fun _ hc => List.mem_singleton.mp hc ▸ ⟨by decide, by decide, by decide⟩

/-- The list of the character `a` comes back when no tail is asked for. -/
theorem roundTrip_iff_a : RoundTrip .codes [97] none := (roundTrip_iff scalar_a none).mpr (.inl rfl)

/-- The code of `a` loses the tail that is asked for. -/
theorem not_roundTrip :
    ¬ ∀ (kind : ListKind) (s : List ℕ) (dif : Option Term), (∀ c ∈ s, Scalar c) → RoundTrip kind s dif := by
  intro hall
  have htail := (hall .codes [97] (some (.var 7)) scalar_a).tailOf_eq scalar_a
  exact absurd htail (by decide)

end Yap
