import Sumeru.Library.IntelHex

/-!
# Sumeru - Boot ROM image encoding

The tool {lit}`genbootcode.c`, which turns the boot image on its standard input into the Intel HEX
text that initialises the boot ROM: 1024 records of one 16-bit word, and the end record.  The
host is little-endian.

Main results:

- Theorem {lit}`Genbootcode.main_eq`: the text is that of the records of the words read.
- Theorem {lit}`genbootcode_roundTrip_iff`: the text decodes to the input and zeros exactly if the
  input has an even length or ends in a zero byte.
-/

namespace Sumeru

open IntelHex

namespace Genbootcode

/-- {lit}`fread(&data, sizeof(data), 1, stdin)`: an item if there is a whole one, and the input
after it.  The bytes of a part of an item are read too. -/
def fread : List (BitVec 8) → Option (BitVec 16) × List (BitVec 8)
  | low :: high :: rest => (some (high ++ low), rest)
  | _ => (none, [])

def checksum (addr data : BitVec 16) : BitVec 16 :=
  2#16 + (addr &&& 0xff#16) + ((addr &&& 0xff00#16) >>> 8) + (data &&& 0xff#16) +
    ((data &&& 0xff00#16) >>> 8)

def cb (addr data : BitVec 16) : BitVec 16 := (~~~(checksum addr data &&& 0xff#16) + 1#16) &&& 0xff#16

/-- The {lit}`printf` of a data record. -/
def line (addr data : BitVec 16) : List Char :=
  [':', '0', '2'] ++ hexText 4 addr.toNat ++ ['0', '0'] ++ hexText 4 data.toNat ++
    hexText 2 (cb addr data).toNat ++ ['\n']

/-- One pass of the loop, on the input that is left and the text printed so far. -/
def pass (s : List (BitVec 8) × List Char) (addr : ℕ) : List (BitVec 8) × List Char :=
  let data := (fread s.1).1.getD 0#16
  ((fread s.1).2, s.2 ++ line (BitVec.ofNat 16 addr) data)

/-- The text that {lit}`main` prints. -/
def main (stdin : List (BitVec 8)) : List Char :=
  ((List.range 1024).foldl pass (stdin, [])).2 ++
    [':', '0', '0', '0', '0', '0', '0', '0', '1', 'F', 'F', '\n']

/-! ## Records -/

/-- The record of a word. -/
def dataRecord (addr data : BitVec 16) : Record where
  address := addr
  kind := 0#8
  data := [data.extractLsb' 8 8, data.extractLsb' 0 8]
  checksum := (cb addr data).extractLsb' 0 8

/-- Word {lit}`k` of the input: a word that is not complete counts as zero. -/
def wordAt (stdin : List (BitVec 8)) (k : ℕ) : BitVec 16 :=
  if 2 * k + 1 < stdin.length then stdin.getD (2 * k + 1) 0#8 ++ stdin.getD (2 * k) 0#8 else 0#16

def records (stdin : List (BitVec 8)) (n : ℕ) : List Record :=
  (List.range n).map fun k => dataRecord (BitVec.ofNat 16 k) (wordAt stdin k)

/-- The low byte of a half-word. -/
theorem low_toNat (x : BitVec 16) : (x &&& 0xff#16).toNat = x.toNat % 256 := by
  rw [BitVec.toNat_and]
  exact Nat.and_two_pow_sub_one_eq_mod x.toNat 8

/-- The high byte of a half-word. -/
theorem high_toNat (x : BitVec 16) : ((x &&& 0xff00#16) >>> 8).toNat = x.toNat / 256 := by
  have hx := x.isLt
  rw [BitVec.toNat_ushiftRight, BitVec.toNat_and, Nat.shiftRight_and_distrib,
    Nat.shiftRight_eq_div_pow]
  change x.toNat / 256 &&& (2 ^ 8 - 1) = x.toNat / 256
  rw [Nat.and_two_pow_sub_one_eq_mod]
  omega

/-- The sum that a record is checked by. -/
theorem checksum_toNat (addr data : BitVec 16) : (checksum addr data).toNat =
    2 + addr.toNat % 256 + addr.toNat / 256 + data.toNat % 256 + data.toNat / 256 := by
  have haddr := addr.isLt
  have hdata := data.isLt
  unfold checksum
  simp only [BitVec.toNat_add, low_toNat, high_toNat, BitVec.toNat_ofNat]
  omega

/-- The checksum completes the sum of the other bytes. -/
theorem cb_toNat (addr data : BitVec 16) :
    (cb addr data).toNat = (256 - (checksum addr data).toNat % 256) % 256 := by
  unfold cb
  rw [low_toNat, BitVec.toNat_add, BitVec.toNat_not, low_toNat, BitVec.toNat_ofNat]
  omega

/-- A data record is well formed. -/
theorem dataRecord_wellFormed (addr data : BitVec 16) : (dataRecord addr data).WellFormed where
  count := by
    change 2 < 256
    decide
  sum := by
    have haddr := addr.isLt
    have hdata := data.isLt
    have hcb : ((cb addr data).extractLsb' 0 8).toNat = (cb addr data).toNat % 256 := by
      rw [BitVec.extractLsb'_toNat]
      rfl
    simp only [Record.bytes, dataRecord, List.map_cons, List.cons_append, List.nil_append,
      List.map_nil, List.sum_cons, List.sum_nil, List.length_cons, List.length_nil, hcb, cb_toNat,
      checksum_toNat, BitVec.extractLsb'_toNat, Nat.shiftRight_eq_div_pow, BitVec.toNat_ofNat]
    omega

/-- The end record is well formed. -/
theorem endRecord_wellFormed : endRecord.WellFormed :=
  ⟨by decide, by decide⟩

/-- A line is the text of its record. -/
theorem line_eq (addr data : BitVec 16) : line addr data = (dataRecord addr data).text := by
  have hcb : ((cb addr data).extractLsb' 0 8).toNat = (cb addr data).toNat := by
    have hlt := cb_toNat addr data
    rw [BitVec.extractLsb'_toNat]
    change (cb addr data).toNat % 256 = _
    omega
  have hbyte := hexText_byte ((cb addr data).extractLsb' 0 8)
  rw [hcb] at hbyte
  have hcount : byteText (BitVec.ofNat 8 2) = ['0', '2'] := by decide
  have hkind : byteText 0#8 = ['0', '0'] := by decide
  rw [line, hexText_word, hexText_word, hbyte]
  simp only [Record.text, Record.bytes, dataRecord, List.length_cons, List.length_nil, Nat.zero_add,
    Nat.reduceAdd, hcount, hkind, List.flatMap_cons, List.flatMap_nil, List.cons_append,
    List.nil_append, List.append_assoc, List.append_nil]

/-- What {lit}`fread` finds before word {lit}`k`. -/
theorem fread_drop (stdin : List (BitVec 8)) (k : ℕ) :
    (fread (stdin.drop (2 * k))).1.getD 0#16 = wordAt stdin k ∧
      (fread (stdin.drop (2 * k))).2 = stdin.drop (2 * (k + 1)) := by
  have hnext : stdin.drop (2 * (k + 1)) = (stdin.drop (2 * k)).drop 2 := by
    rw [List.drop_drop, Nat.mul_succ]
  have hget : ∀ j, stdin.getD (2 * k + j) 0#8 = (stdin.drop (2 * k)).getD j 0#8 := by
    intro j
    rw [List.getD_eq_getElem?_getD, List.getD_eq_getElem?_getD, List.getElem?_drop]
  have hlen : (stdin.drop (2 * k)).length = stdin.length - 2 * k := List.length_drop
  have hzero := hget 0
  rw [Nat.add_zero] at hzero
  unfold wordAt
  rw [hnext, hget 1, hzero]
  match hrest : stdin.drop (2 * k) with
  | [] =>
      rw [hrest, List.length_nil] at hlen
      rw [if_neg (by omega)]
      exact ⟨rfl, rfl⟩
  | [low] =>
      rw [hrest, List.length_singleton] at hlen
      rw [if_neg (by omega)]
      exact ⟨rfl, rfl⟩
  | low :: high :: rest =>
      rw [hrest, List.length_cons, List.length_cons] at hlen
      rw [if_pos (by omega)]
      exact ⟨rfl, rfl⟩

/-- The first {lit}`n` passes. -/
theorem foldl_pass (stdin : List (BitVec 8)) (n : ℕ) : (List.range n).foldl pass (stdin, []) =
    (stdin.drop (2 * n), (records stdin n).flatMap Record.text) := by
  induction n with
  | zero => rfl
  | succ n ih =>
      obtain ⟨hdata, hrest⟩ := fread_drop stdin n
      have hrecords : records stdin (n + 1) =
          records stdin n ++ [dataRecord (BitVec.ofNat 16 n) (wordAt stdin n)] := by
        rw [records, records, List.range_succ, List.map_append]
        rfl
      rw [List.range_succ, List.foldl_append, ih, List.foldl_cons, List.foldl_nil, pass, hdata,
        hrest, line_eq, hrecords, List.flatMap_append, List.flatMap_singleton]

/-- The text is that of the records of the words read, and the end record. -/
theorem main_eq (stdin : List (BitVec 8)) :
    main stdin = (records stdin 1024 ++ [endRecord]).flatMap Record.text := by
  have hend : endRecord.text = [':', '0', '0', '0', '0', '0', '0', '0', '1', 'F', 'F', '\n'] := by
    decide
  rw [main, foldl_pass, List.flatMap_append, List.flatMap_singleton, hend]

/-- All records of a file are well formed. -/
theorem records_wellFormed (stdin : List (BitVec 8)) :
    ∀ r ∈ records stdin 1024 ++ [endRecord], r.WellFormed := by
  intro r hr
  rcases List.mem_append.mp hr with hdata | hend
  · obtain ⟨k, -, rfl⟩ := List.mem_map.mp hdata
    exact dataRecord_wellFormed _ _
  · rw [List.mem_singleton.mp hend]
    exact endRecord_wellFormed

/-- The output reads back as its records. -/
theorem read_main (stdin : List (BitVec 8)) :
    read (main stdin) = some (records stdin 1024 ++ [endRecord]) := by
  rw [main_eq]
  exact read_text (records_wellFormed stdin)

/-! ## The image -/

/-- The image bytes of a record: the low byte of its word, which the data show last, has the even
offset. -/
def imageBytes (r : Record) : List (BitVec 8) :=
  match r.data with
  | [high, low] => [low, high]
  | _ => []

def image (records : List Record) : List (BitVec 8) := records.flatMap imageBytes

/-- A text of 1024 data records, numbered from zero, and the end record, whose words are the
bytes of {lit}`stdin` followed by zeros. -/
structure Encodes (stdin : List (BitVec 8)) (text : List Char) (records : List Record) : Prop where
  stream : read text = some (records ++ [endRecord])
  count : records.length = 1024
  numbered : ∀ k r, records[k]? = some r →
    r.address = BitVec.ofNat 16 k ∧ r.kind = 0#8 ∧ r.data.length = 2
  sum : ∀ r ∈ records ++ [endRecord], (r.bytes.map BitVec.toNat).sum % 256 = 0
  image : Genbootcode.image records = stdin ++ List.replicate (2048 - stdin.length) 0#8

/-- The image behind the records: two bytes for each half-word. -/
theorem image_records (stdin : List (BitVec 8)) (n : ℕ) : image (records stdin n) =
    (List.range n).flatMap fun k =>
      [(wordAt stdin k).extractLsb' 0 8, (wordAt stdin k).extractLsb' 8 8] := by
  rw [image, records, List.flatMap_map]
  rfl

/-- A list in pairs, with zeros behind its end. -/
theorem pad_eq_flatMap (n : ℕ) (bytes : List (BitVec 8)) (h : bytes.length ≤ 2 * n) :
    bytes ++ List.replicate (2 * n - bytes.length) 0#8 =
      (List.range n).flatMap fun k => [bytes.getD (2 * k) 0#8, bytes.getD (2 * k + 1) 0#8] := by
  induction n generalizing bytes with
  | zero =>
      obtain rfl : bytes = [] := List.eq_nil_of_length_eq_zero (by omega)
      rfl
  | succ n ih =>
      have hshift : ∀ l : List (BitVec 8), (∀ j, bytes.getD (j + 2) 0#8 = l.getD j 0#8) →
          (List.range n).flatMap (fun k => [bytes.getD (2 * (k + 1)) 0#8,
            bytes.getD (2 * (k + 1) + 1) 0#8]) =
          (List.range n).flatMap (fun k => [l.getD (2 * k) 0#8, l.getD (2 * k + 1) 0#8]) := by
        intro l hl
        refine congrArg (fun f => (List.range n).flatMap f) (funext fun k => ?_)
        rw [Nat.mul_succ, hl, show 2 * k + 2 + 1 = 2 * k + 1 + 2 by omega, hl]
      rw [List.range_succ_eq_map, List.flatMap_cons, List.flatMap_map]
      match bytes, h with
      | [], _ =>
          rw [hshift [] fun j => rfl, ← ih [] (Nat.zero_le _)]
          rfl
      | [b], _ =>
          rw [hshift [] fun j => rfl, ← ih [] (Nat.zero_le _)]
          rfl
      | low :: high :: rest, h =>
          rw [hshift rest fun j => rfl, ← ih rest (by simp at h; omega)]
          simp [Nat.mul_succ]

/-- Lists of pairs are equal exactly if their pairs are. -/
theorem flatMap_pair_eq_iff {α : Type*} (n : ℕ) {f₀ f₁ g₀ g₁ : ℕ → α} :
    (List.range n).flatMap (fun k => [f₀ k, f₁ k]) = (List.range n).flatMap (fun k => [g₀ k, g₁ k]) ↔
      ∀ k < n, f₀ k = g₀ k ∧ f₁ k = g₁ k := by
  induction n with
  | zero => exact iff_of_true rfl fun k hk => absurd hk (Nat.not_lt_zero k)
  | succ n ih =>
      rw [List.range_succ, List.flatMap_append, List.flatMap_append, List.flatMap_singleton,
        List.flatMap_singleton]
      constructor
      · intro h k hk
        obtain ⟨hfront, hlast⟩ := List.append_inj' h rfl
        rcases Nat.lt_succ_iff_lt_or_eq.mp hk with hlt | rfl
        · exact ih.mp hfront k hlt
        · simpa using hlast
      · intro h
        obtain ⟨h₀, h₁⟩ := h n (Nat.lt_succ_self n)
        rw [ih.mpr fun k hk => h k (by omega), h₀, h₁]

/-- A half-word with both bytes in the input. -/
theorem wordAt_bytes (stdin : List (BitVec 8)) (k : ℕ) (h : 2 * k + 1 < stdin.length) :
    (wordAt stdin k).extractLsb' 0 8 = stdin.getD (2 * k) 0#8 ∧
      (wordAt stdin k).extractLsb' 8 8 = stdin.getD (2 * k + 1) 0#8 := by
  rw [wordAt, if_pos h]
  exact ⟨BitVec.extractLsb'_append_eq_right, BitVec.extractLsb'_append_eq_left⟩

/-- The words are the input and zeros exactly if no byte but a zero is left over. -/
theorem image_eq_iff {stdin : List (BitVec 8)} {n : ℕ} (h : stdin.length ≤ 2 * n) :
    image (records stdin n) = stdin ++ List.replicate (2 * n - stdin.length) 0#8 ↔
      stdin.length % 2 = 0 ∨ stdin.getLast? = some 0#8 := by
  rw [image_records, pad_eq_flatMap n stdin h, flatMap_pair_eq_iff]
  have hbeyond : ∀ i, stdin.length ≤ i → stdin.getD i 0#8 = 0#8 := by
    intro i hi
    rw [List.getD_eq_getElem?_getD, List.getElem?_eq_none hi]
    rfl
  constructor
  · intro hall
    rcases Nat.mod_two_eq_zero_or_one stdin.length with heven | hodd
    · exact .inl heven
    · -- the word of the last byte counts as zero
      right
      have hword : wordAt stdin (stdin.length / 2) = 0#16 := by
        rw [wordAt, if_neg (by omega)]
      have hbyte := (hall (stdin.length / 2) (by omega)).1
      rw [hword, show 2 * (stdin.length / 2) = stdin.length - 1 by omega] at hbyte
      rw [List.getD_eq_getElem?_getD, List.getElem?_eq_getElem (by omega)] at hbyte
      rw [List.getLast?_eq_getElem?, List.getElem?_eq_getElem (by omega)]
      exact congrArg some hbyte.symm
  · intro hlast k hk
    by_cases hwhole : 2 * k + 1 < stdin.length
    · exact wordAt_bytes stdin k hwhole
    · have hword : wordAt stdin k = 0#16 := by
        rw [wordAt, if_neg hwhole]
      rw [hword, hbeyond (2 * k + 1) (by omega)]
      refine ⟨?_, rfl⟩
      rcases hlast with heven | hzero
      · rw [hbeyond (2 * k) (by omega)]
        rfl
      · by_cases hk' : stdin.length ≤ 2 * k
        · rw [hbeyond (2 * k) hk']
          rfl
        · rw [List.getLast?_eq_getElem?, show stdin.length - 1 = 2 * k by omega] at hzero
          rw [List.getD_eq_getElem?_getD, hzero]
          rfl

/-- The records that the text can have are those of the words read. -/
theorem Encodes.records_eq {stdin : List (BitVec 8)} {rs : List Record}
    (h : Encodes stdin (main stdin) rs) : rs = records stdin 1024 := by
  have hread := h.stream
  rw [read_main] at hread
  exact (List.append_cancel_right (Option.some.inj hread)).symm

/-- All but the image is as it should be for every input. -/
theorem encodes_records {stdin : List (BitVec 8)}
    (himage : image (records stdin 1024) = stdin ++ List.replicate (2048 - stdin.length) 0#8) :
    Encodes stdin (main stdin) (records stdin 1024) where
  stream := read_main stdin
  count := by rw [records, List.length_map, List.length_range]
  numbered := by
    intro k r hr
    rw [records, List.getElem?_map] at hr
    obtain ⟨j, hj, rfl⟩ := Option.map_eq_some_iff.mp hr
    obtain ⟨hlt, rfl⟩ := List.getElem?_eq_some_iff.mp hj
    rw [List.getElem_range]
    exact ⟨rfl, rfl, rfl⟩
  sum := fun r hr => (wellFormed_of_read (read_main stdin) r hr).sum
  image := himage

end Genbootcode

open Genbootcode

/-- The text decodes to the input and zeros exactly if the input has an even length or ends in
a zero byte. -/
theorem genbootcode_roundTrip_iff {stdin : List (BitVec 8)} (h : stdin.length ≤ 2048) :
    (∃ records, Encodes stdin (main stdin) records) ↔
      stdin.length % 2 = 0 ∨ stdin.getLast? = some 0#8 := by
  have himage := image_eq_iff (n := 1024) h
  constructor
  · rintro ⟨rs, hencodes⟩
    have hrs := hencodes.image
    rw [hencodes.records_eq] at hrs
    exact himage.mp hrs
  · intro hlast
    exact ⟨_, encodes_records (himage.mpr hlast)⟩

/-- Two bytes survive. -/
theorem genbootcode_roundTrip_two :
    ∃ records, Encodes [0x21#8, 0xA0#8] (main [0x21#8, 0xA0#8]) records :=
  (genbootcode_roundTrip_iff (by decide)).mpr (.inl rfl)

/-- The only byte of the input is lost. -/
theorem genbootcode_oneByte :
    ¬ ∃ records, Encodes [0x13#8] (main [0x13#8]) records := by
  rintro ⟨rs, h⟩
  have himage := h.image
  rw [h.records_eq] at himage
  have hlast := (image_eq_iff (n := 1024) (by decide)).mp himage
  revert hlast
  decide

end Sumeru
