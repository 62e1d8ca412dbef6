import Mathlib.Data.Nat.Digits.Lemmas
import Mathlib.Tactic.IntervalCases

/-!
# Intel HEX

Lines of hexadecimal bytes: a colon, the number of data bytes, a 16-bit address, the kind of
the record, the data, and a checksum that makes the bytes of the line sum to a multiple of 256.

Main results:

- Theorem {lit}`read_text`: records that are well formed read back from their text.
- Theorem {lit}`wellFormed_of_read`: what is read is well formed.
- Theorems {lit}`hexText_byte` and {lit}`hexText_word`: a number printed to a fixed width is the
  text of its bytes, high byte first.
-/

namespace IntelHex

/-! ## Digits -/

def digits : List Char :=
  ['0', '1', '2', '3', '4', '5', '6', '7', '8', '9', 'A', 'B', 'C', 'D', 'E', 'F']

def hexDigit (d : ℕ) : Char := digits.getD d '0'

/-- The value of a digit of either case. -/
def hexValue (c : Char) : Option ℕ := digits.findIdx? (· == c.toUpper)

/-- A hexadecimal digit is read back. -/
theorem hexValue_hexDigit {d : ℕ} (h : d < 16) : hexValue (hexDigit d) = some d := by
  interval_cases d <;> rfl

/-- A digit does not end the line. -/
theorem hexDigit_ne_newline (d : ℕ) : hexDigit d ≠ '\n' := by
  have hmem : '\n' ∉ digits := by decide
  unfold hexDigit
  rw [List.getD_eq_getElem?_getD]
  cases hc : digits[d]? with
  | none => decide
  | some c =>
      rintro rfl
      exact hmem (List.mem_of_getElem? hc)

/-! ## Bytes -/

/-- The two digits of a byte. -/
def byteText (b : BitVec 8) : List Char := [hexDigit (b.toNat / 16), hexDigit (b.toNat % 16)]

/-- The bytes of a line of digits. -/
def readBytes : List Char → Option (List (BitVec 8))
  | [] => some []
  | [_] => none
  | high :: low :: rest =>
      match hexValue high, hexValue low, readBytes rest with
      | some h, some l, some bytes => some (BitVec.ofNat 8 (16 * h + l) :: bytes)
      | _, _, _ => none

/-- Bytes are read back from their text. -/
theorem readBytes_text (bytes : List (BitVec 8)) : readBytes (bytes.flatMap byteText) = some bytes := by
  induction bytes with
  | nil => rfl
  | cons b bytes ih =>
      have hb := b.isLt
      have hbyte : BitVec.ofNat 8 (16 * (b.toNat / 16) + b.toNat % 16) = b := by
        rw [Nat.div_add_mod, BitVec.ofNat_toNat, BitVec.setWidth_eq]
      simp only [List.flatMap_cons, byteText, List.cons_append, List.nil_append, readBytes,
        hexValue_hexDigit (show b.toNat / 16 < 16 by omega),
        hexValue_hexDigit (show b.toNat % 16 < 16 by omega), ih, hbyte]

/-- A number in at least {lit}`width` digits, with zeros in front. -/
def hexText (width x : ℕ) : List Char :=
  List.replicate (width - (Nat.digits 16 x).length) '0' ++ ((Nat.digits 16 x).map hexDigit).reverse

/-- The last digit of a number. -/
theorem hexText_succ (width x : ℕ) :
    hexText (width + 1) x = hexText width (x / 16) ++ [hexDigit (x % 16)] := by
  rcases Nat.eq_zero_or_pos x with rfl | hx
  · simp only [hexText, Nat.digits_zero, Nat.zero_div, List.length_nil, Nat.sub_zero, List.map_nil,
      List.reverse_nil, List.append_nil]
    rw [List.replicate_succ']
    rfl
  · have hdigits : Nat.digits 16 x = x % 16 :: Nat.digits 16 (x / 16) :=
      Nat.digits_def' (by decide) hx
    simp only [hexText, hdigits, List.length_cons, Nat.add_sub_add_right, List.map_cons,
      List.reverse_cons, List.append_assoc]

/-- No digits. -/
theorem hexText_zero_zero : hexText 0 0 = [] := by
  simp [hexText]

/-- A byte has two digits. -/
theorem hexText_byte (b : BitVec 8) : hexText 2 b.toNat = byteText b := by
  have hb := b.isLt
  rw [hexText_succ, hexText_succ, Nat.div_div_eq_div_mul, Nat.div_eq_of_lt (by omega),
    hexText_zero_zero, Nat.mod_eq_of_lt (show b.toNat / 16 < 16 by omega)]
  rfl

/-- High byte first. -/
theorem hexText_word (x : BitVec 16) :
    hexText 4 x.toNat = byteText (x.extractLsb' 8 8) ++ byteText (x.extractLsb' 0 8) := by
  have hx := x.isLt
  have hhigh : (x.extractLsb' 8 8).toNat = x.toNat / 256 := by
    rw [BitVec.extractLsb'_toNat, Nat.shiftRight_eq_div_pow]
    omega
  have hlow : (x.extractLsb' 0 8).toNat = x.toNat % 256 := by
    rw [BitVec.extractLsb'_toNat]
    rfl
  rw [hexText_succ, hexText_succ, hexText_succ, hexText_succ, byteText, byteText, hhigh, hlow]
  rw [show x.toNat / 16 / 16 / 16 / 16 = 0 by omega, hexText_zero_zero,
    show x.toNat / 16 / 16 / 16 % 16 = x.toNat / 256 / 16 by omega,
    show x.toNat / 16 / 16 % 16 = x.toNat / 256 % 16 by omega,
    show x.toNat / 16 % 16 = x.toNat % 256 / 16 by omega,
    show x.toNat % 16 = x.toNat % 256 % 16 by omega]
  rfl

/-! ## Records -/

structure Record where
  address : BitVec 16
  kind : BitVec 8
  data : List (BitVec 8)
  checksum : BitVec 8
deriving DecidableEq, Repr

/-- The end-of-file record. -/
def endRecord : Record := ⟨0#16, 1#8, [], 0xFF#8⟩

namespace Record

/-- The bytes of the line, from the count to the checksum. -/
def bytes (r : Record) : List (BitVec 8) :=
  BitVec.ofNat 8 r.data.length :: r.address.extractLsb' 8 8 :: r.address.extractLsb' 0 8 ::
    r.kind :: (r.data ++ [r.checksum])

/-- The count fits its byte, and the bytes sum to zero. -/
structure WellFormed (r : Record) : Prop where
  count : r.data.length < 256
  sum : (r.bytes.map BitVec.toNat).sum % 256 = 0

/-- The line. -/
def text (r : Record) : List Char := ':' :: (r.bytes.flatMap byteText ++ ['\n'])

/-- The record of the bytes of a line. -/
def ofBytes : List (BitVec 8) → Option Record
  | count :: high :: low :: kind :: rest =>
      if rest.length = count.toNat + 1 ∧
          ((count :: high :: low :: kind :: rest).map BitVec.toNat).sum % 256 = 0 then
        some ⟨high ++ low, kind, rest.dropLast, rest.getLastD 0⟩
      else none
  | _ => none

end Record

/-- The record of a line without its end. -/
def readLine : List Char → Option Record
  | ':' :: rest => (readBytes rest).bind Record.ofBytes
  | _ => none

/-- The lines of a text. -/
def lines : List Char → List (List Char)
  | [] => []
  | c :: rest =>
      if c = '\n' then [] :: lines rest
      else
        match lines rest with
        | [] => [[c]]
        | line :: more => (c :: line) :: more

/-- The records of a text, if every line is one. -/
def read (text : List Char) : Option (List Record) := (lines text).mapM readLine

/-- A line ends at its newline. -/
theorem lines_append {line : List Char} (h : '\n' ∉ line) (rest : List Char) :
    lines (line ++ '\n' :: rest) = line :: lines rest := by
  induction line with
  | nil => rfl
  | cons c line ih =>
      obtain ⟨hc, hline⟩ := not_or.mp (mt List.mem_cons.mpr h)
      rw [List.cons_append, lines, if_neg (Ne.symm hc), ih hline]

namespace Record

variable {r : Record}

/-- A well-formed record is read back from its bytes. -/
theorem WellFormed.ofBytes (h : r.WellFormed) : Record.ofBytes r.bytes = some r := by
  have hcount : (BitVec.ofNat 8 r.data.length).toNat = r.data.length := by
    rw [BitVec.toNat_ofNat]
    exact Nat.mod_eq_of_lt h.count
  have haddr : r.address.extractLsb' 8 8 ++ r.address.extractLsb' 0 8 = r.address := by
    ext i hi
    simp only [BitVec.getElem_append, BitVec.getElem_extractLsb']
    split <;> rename_i hlt
    · rw [Nat.zero_add, ← BitVec.getLsbD_eq_getElem]
    · rw [show 8 + (i - 8) = i by omega, ← BitVec.getLsbD_eq_getElem]
  have hsum := h.sum
  unfold bytes at hsum
  unfold bytes Record.ofBytes
  dsimp only
  rw [if_pos ⟨by simp [hcount], hsum⟩, haddr, List.dropLast_concat, List.getLastD_concat]

/-- Bytes that give a record are its own. -/
theorem bytes_of_ofBytes {bytes : List (BitVec 8)} (h : Record.ofBytes bytes = some r) :
    r.bytes = bytes ∧ r.WellFormed := by
  unfold Record.ofBytes at h
  split at h
  case h_2 => cases h
  case h_1 count high low kind rest =>
    split_ifs at h with hline
    obtain ⟨hlength, hsum⟩ := hline
    cases h
    have hne : rest ≠ [] := by
      rintro rfl
      cases hlength
    have hrest : rest.dropLast ++ [rest.getLastD 0] = rest := by
      rw [List.getLastD_eq_getLast?, List.getLast?_eq_some_getLast hne]
      exact List.dropLast_concat_getLast hne
    have hcount : rest.dropLast.length = count.toNat := by
      rw [List.length_dropLast, hlength, Nat.add_sub_cancel]
    have hhigh : (high ++ low).extractLsb' 8 8 = high := BitVec.extractLsb'_append_eq_left
    have hlow : (high ++ low).extractLsb' 0 8 = low := BitVec.extractLsb'_append_eq_right
    have hbytes : Record.bytes ⟨high ++ low, kind, rest.dropLast, rest.getLastD 0⟩ =
        count :: high :: low :: kind :: rest := by
      simp only [bytes, hrest, hcount, hhigh, hlow, BitVec.ofNat_toNat, BitVec.setWidth_eq]
    refine ⟨hbytes, ?_, ?_⟩
    · rw [hcount]
      exact count.isLt
    · rw [hbytes]
      exact hsum

/-- The text of bytes is one line. -/
theorem not_mem_newline (bytes : List (BitVec 8)) : '\n' ∉ bytes.flatMap byteText := by
  simp only [List.mem_flatMap, byteText, List.mem_cons, List.not_mem_nil, or_false, not_exists,
    not_and, not_or]
  exact fun b _ => ⟨(hexDigit_ne_newline _).symm, (hexDigit_ne_newline _).symm⟩

/-- A record reads back from its line. -/
theorem WellFormed.readLine (h : r.WellFormed) :
    IntelHex.readLine (':' :: r.bytes.flatMap byteText) = some r := by
  rw [IntelHex.readLine, readBytes_text]
  exact h.ofBytes

/-- A record is a line. -/
theorem lines_text (r : Record) (rest : List Char) :
    lines (r.text ++ rest) = (':' :: r.bytes.flatMap byteText) :: lines rest := by
  have hline : '\n' ∉ ':' :: r.bytes.flatMap byteText := by
    rw [List.mem_cons, not_or]
    exact ⟨by decide, not_mem_newline _⟩
  rw [text, ← lines_append hline, List.cons_append, List.append_assoc]
  rfl

end Record

/-- Records that are well formed read back from their text. -/
theorem read_text {records : List Record} (h : ∀ r ∈ records, r.WellFormed) :
    read (records.flatMap Record.text) = some records := by
  induction records with
  | nil => rfl
  | cons r records ih =>
      obtain ⟨hr, hrest⟩ := List.forall_mem_cons.mp h
      have hread := ih hrest
      unfold read at hread ⊢
      rw [List.flatMap_cons, Record.lines_text, List.mapM_cons, hr.readLine, hread]
      rfl

/-- What is read is well formed. -/
theorem wellFormed_of_readLine {line : List Char} {r : Record} (h : readLine line = some r) :
    r.WellFormed := by
  unfold readLine at h
  split at h
  · obtain ⟨bytes, -, hrecord⟩ := Option.bind_eq_some_iff.mp h
    exact (Record.bytes_of_ofBytes hrecord).2
  · cases h

/-- What is read is well formed. -/
theorem wellFormed_of_read {text : List Char} {records : List Record}
    (h : read text = some records) : ∀ r ∈ records, r.WellFormed := by
  unfold read at h
  generalize lines text = ls at h
  induction ls generalizing records with
  | nil =>
      cases h
      exact fun r hr => absurd hr List.not_mem_nil
  | cons line ls ih =>
      rw [List.mapM_cons] at h
      obtain ⟨r, hr, hmore⟩ := Option.bind_eq_some_iff.mp h
      obtain ⟨rs, hrs, hall⟩ := Option.bind_eq_some_iff.mp hmore
      cases hall
      exact List.forall_mem_cons.mpr ⟨wellFormed_of_readLine hr, ih hrs⟩

end IntelHex
