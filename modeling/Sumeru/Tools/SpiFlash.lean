import Sumeru.Library.NorFlash

/-!
# Sumeru - Flash programming

The part of {lit}`spi-flash.scm` that writes the configuration flash: {lit}`spi-cmd-flash-write` cuts
the data into pieces of 256 bytes, counted from the start of the data, and sends each as one
page program.  The data are always a {lit}`u8vector`.

Main results:

- Theorem {lit}`SpiFlash.spiCmdFlashWritePage_eq`: one piece reaches the device as a page program.
- Theorem {lit}`SpiFlash.spiCmdFlashWrite_mem`: what is in memory after a write.
- Theorem {lit}`spi_flash_write_iff`: the write is right exactly if the bytes that a piece carries
  past the end of a page do not matter.
-/

namespace Sumeru

namespace SpiFlash

/-! ## Transfers -/

/-- {lit}`subu8vector`. -/
def subu8vector (v : List (BitVec 8)) (start stop : ℕ) : List (BitVec 8) := (v.take stop).drop start

def extractAddrByte (x pos : ℕ) : BitVec 8 := BitVec.ofNat 8 ((x >>> (pos * 8)) &&& 0xFF)

/-- {lit}`bcm2835w_vector_append`. -/
def vectorAppend (dest src : List (BitVec 8)) (destOffset len : ℕ) : List (BitVec 8) :=
  (List.range len).foldl (fun v count => v.set (destOffset + count) (src.getD count 0#8)) dest

variable (cell : NorCell)

/-- {lit}`spi-issue-cmd`: the vector is overwritten with what is received. -/
def spiIssueCmd (oplen : ℕ) (v : List (BitVec 8)) (d : NorFlash) : List (BitVec 8) × NorFlash :=
  let r := d.transfern cell v
  (if oplen = 0 then r.1 else subu8vector r.1 oplen v.length, r.2)

def spiCmdFlashWriteEnable (d : NorFlash) : List (BitVec 8) × NorFlash :=
  spiIssueCmd cell 1 [0x06#8] d

def spiCmdFlashReadStatus1 (d : NorFlash) : List (BitVec 8) × NorFlash :=
  spiIssueCmd cell 1 [0x05#8, 0#8] d

/-- Reading the status makes the device less busy. -/
theorem spiCmdFlashReadStatus1_eq (d : NorFlash) :
    spiCmdFlashReadStatus1 cell d = ([d.status], { d with busy := d.busy - 1 }) :=
  rfl

/-! ## Writing -/

/-- The vector of a page program.  The contents of a fresh vector do not matter, because all of
them are set. -/
def pageVector (addr : ℕ) (data : List (BitVec 8)) : List (BitVec 8) :=
  let v := List.replicate (data.length + 4) 0#8
  let v := v.set 0 0x02#8
  let v := v.set 1 (extractAddrByte addr 2)
  let v := v.set 2 (extractAddrByte addr 1)
  let v := v.set 3 (extractAddrByte addr 0)
  vectorAppend v data 4 data.length

/-- {lit}`spi-cmd-flash-write-page`. -/
def spiCmdFlashWritePage (addr : ℕ) (data : List (BitVec 8)) (d : NorFlash) :
    List (BitVec 8) × NorFlash :=
  spiIssueCmd cell 0 (pageVector addr data) (spiCmdFlashWriteEnable cell d).2

def flashPageLen : ℕ := 256

/-- {lit}`flash-write-wait`. -/
def flashWriteWait (d : NorFlash) : NorFlash :=
  let r := spiCmdFlashReadStatus1 cell d
  if r.1.getD 0 0#8 &&& 1#8 = 0#8 then r.2 else flashWriteWait r.2
termination_by d.busy
decreasing_by
  rename_i h
  exact Nat.sub_lt (Nat.pos_of_ne_zero (mt d.status_and_one.mpr h)) Nat.one_pos

/-- {lit}`spi-cmd-flash-write-internal`. -/
def spiCmdFlashWriteInternal (addr : ℕ) (data : List (BitVec 8)) (len offset : ℕ) (d : NorFlash) :
    Bool × NorFlash :=
  if len ≤ offset then (true, d)
  else
    let x := min flashPageLen (len - offset)
    let written :=
      (spiCmdFlashWritePage cell (addr + offset) (subu8vector data offset (offset + x)) d).2
    spiCmdFlashWriteInternal addr data len (offset + x) (flashWriteWait cell written)
termination_by len - offset
decreasing_by
  unfold flashPageLen
  omega

/-- {lit}`spi-cmd-flash-write`. -/
def spiCmdFlashWrite (addr : ℕ) (data : List (BitVec 8)) (d : NorFlash) : Bool × NorFlash :=
  spiCmdFlashWriteInternal cell addr data data.length 0 d

/-! ## One piece -/

/-- A byte of the address. -/
theorem extractAddrByte_toNat (x pos : ℕ) :
    (extractAddrByte x pos).toNat = x / 2 ^ (pos * 8) % 256 := by
  rw [extractAddrByte, BitVec.toNat_ofNat, Nat.shiftRight_eq_div_pow]
  change (x / 2 ^ (pos * 8) &&& (2 ^ 8 - 1)) % 2 ^ 8 = _
  rw [Nat.and_two_pow_sub_one_eq_mod, Nat.mod_mod]

/-- The device puts the address together again. -/
theorem addr_bytes {addr : ℕ} (h : addr < 2 ^ 24) :
    (extractAddrByte addr 2).toNat * 65536 + (extractAddrByte addr 1).toNat * 256 +
      (extractAddrByte addr 0).toNat = addr := by
  simp only [extractAddrByte_toNat]
  omega

/-- One more byte is appended. -/
theorem vectorAppend_succ (dest src : List (BitVec 8)) (destOffset n : ℕ) :
    vectorAppend dest src destOffset (n + 1) =
      (vectorAppend dest src destOffset n).set (destOffset + n) (src.getD n 0#8) := by
  rw [vectorAppend, List.range_succ, List.foldl_append]
  rfl

/-- The first {lit}`n` bytes of the source behind a front. -/
theorem vectorAppend_eq_take (front dest src : List (BitVec 8)) (h : dest.length = src.length)
    (n : ℕ) (hn : n ≤ src.length) :
    vectorAppend (front ++ dest) src front.length n = front ++ (src.take n ++ dest.drop n) := by
  induction n with
  | zero => rfl
  | succ n ih =>
      have hlt : n < src.length := hn
      have hlt' : n < dest.length := h ▸ hlt
      have hbyte : src.getD n 0#8 = src[n] := by
        rw [List.getD_eq_getElem?_getD, List.getElem?_eq_getElem hlt]
        rfl
      have hdrop : dest.drop n = dest[n] :: dest.drop (n + 1) := List.drop_eq_getElem_cons hlt'
      have htake : (src.take n).length = n := by
        rw [List.length_take, Nat.min_eq_left (Nat.le_of_lt hlt)]
      rw [vectorAppend_succ, ih (Nat.le_of_lt hlt), hbyte, hdrop, List.set_append_right _ _ (by omega),
        List.set_append_right _ _ (by omega), Nat.add_sub_cancel_left, htake, Nat.sub_self,
        List.set_cons_zero, List.take_succ_eq_append_getElem hlt, List.append_assoc]
      rfl

/-- The source behind a front. -/
theorem vectorAppend_eq (front dest src : List (BitVec 8)) (h : dest.length = src.length) :
    vectorAppend (front ++ dest) src front.length src.length = front ++ src := by
  rw [vectorAppend_eq_take front dest src h src.length le_rfl, List.take_length, ← h,
    List.drop_length, List.append_nil]

/-- The command of a page: its code, the address and the data. -/
theorem pageVector_eq (addr : ℕ) (data : List (BitVec 8)) : pageVector addr data =
    0x02#8 :: extractAddrByte addr 2 :: extractAddrByte addr 1 :: extractAddrByte addr 0 :: data :=
  vectorAppend_eq [0x02#8, extractAddrByte addr 2, extractAddrByte addr 1, extractAddrByte addr 0]
    (List.replicate data.length 0#8) data List.length_replicate

/-- One piece reaches the device as a page program. -/
theorem spiCmdFlashWritePage_eq {addr : ℕ} (haddr : addr < 2 ^ 24) (data : List (BitVec 8))
    {d : NorFlash} (hready : d.busy = 0) :
    (spiCmdFlashWritePage cell addr data d).2 =
      { mem := NorFlash.pageProgram cell data addr d.mem
        writeEnabled := false
        busy := d.delays 0
        delays := fun n => d.delays (n + 1) } := by
  have henable : (spiCmdFlashWriteEnable cell d).2 = { d with writeEnabled := true } :=
    NorFlash.transfern_writeEnable cell hready
  have hprogram := NorFlash.transfern_program cell (d := { d with writeEnabled := true }) hready rfl
    (extractAddrByte addr 2) (extractAddrByte addr 1) (extractAddrByte addr 0) data
  rw [addr_bytes haddr] at hprogram
  rw [spiCmdFlashWritePage, spiIssueCmd, henable, pageVector_eq]
  exact hprogram

/-- The wait ends when the program does. -/
theorem flashWriteWait_eq (d : NorFlash) : flashWriteWait cell d = { d with busy := 0 } := by
  obtain ⟨mem, writeEnabled, busy, delays⟩ := d
  induction busy with
  | zero =>
      rw [flashWriteWait, spiCmdFlashReadStatus1_eq]
      exact if_pos ((NorFlash.status_and_one _).mpr rfl)
  | succ n ih =>
      rw [flashWriteWait, spiCmdFlashReadStatus1_eq]
      dsimp only
      rw [if_neg, Nat.add_sub_cancel, ih]
      exact mt (NorFlash.status_and_one _).mp (Nat.succ_ne_zero n)

/-! ## All pieces -/

/-- The index of the byte that the pieces bring to address {lit}`a`: the start of a piece has the
position of {lit}`addr` in its page, so what lies before that position comes from the end of the
piece. -/
def sourceOf (addr a : ℕ) : ℕ := if addr % 256 ≤ a % 256 then a - addr else a + 256 - addr

/-- Memory when the first {lit}`n` bytes of the data are sent. -/
def sent (addr : ℕ) (data : List (BitVec 8)) (mem : ℕ → BitVec 8) (n a : ℕ) : BitVec 8 :=
  if addr / 256 ≤ a / 256 ∧ sourceOf addr a < n then
    cell.program (mem a) (data.getD (sourceOf addr a) 0#8)
  else mem a

/-- The length of a slice. -/
theorem subu8vector_length {data : List (BitVec 8)} {offset x : ℕ} (h : offset + x ≤ data.length) :
    (subu8vector data offset (offset + x)).length = x := by
  rw [subu8vector, List.length_drop, List.length_take]
  omega

/-- The bytes of a slice. -/
theorem subu8vector_getD {data : List (BitVec 8)} {offset x j : ℕ} (h : j < x) :
    (subu8vector data offset (offset + x)).getD j 0#8 = data.getD (offset + j) 0#8 := by
  rw [subu8vector, List.getD_eq_getElem?_getD, List.getElem?_drop, List.getElem?_take,
    if_pos (by omega), List.getD_eq_getElem?_getD]

/-- One more piece. -/
theorem pageProgram_sent {addr offset x : ℕ} {data : List (BitVec 8)} (mem : ℕ → BitVec 8)
    (hoffset : offset % 256 = 0) (hx : x ≤ 256) (hlen : offset + x ≤ data.length) :
    NorFlash.pageProgram cell (subu8vector data offset (offset + x)) (addr + offset)
      (sent cell addr data mem offset) = sent cell addr data mem (offset + x) := by
  funext a
  have hlength := subu8vector_length hlen
  rw [NorFlash.pageProgram_apply cell _ _ _ (by omega), hlength]
  by_cases hpage : a / 256 = (addr + offset) / 256
  · -- the piece goes to the page of `a`
    have hsource : sourceOf addr a = offset +
        Ring.ahead ((addr + offset) / 256 * 256) ((addr + offset) / 256 * 256 + 256)
          (addr + offset) a := by
      rw [Ring.ahead_eq (by omega) (by omega) (by omega)]
      unfold sourceOf
      split_ifs <;> omega
    generalize Ring.ahead ((addr + offset) / 256 * 256) ((addr + offset) / 256 * 256 + 256)
      (addr + offset) a = j at hsource
    have hbefore : sent cell addr data mem offset a = mem a := if_neg fun hc => by omega
    rw [hbefore, sent, hsource]
    by_cases hj : j < x
    · rw [if_pos ⟨hpage, hj⟩, if_pos ⟨by omega, by omega⟩, subu8vector_getD hj]
    · rw [if_neg fun hc => hj hc.2, if_neg fun hc => hj (by omega)]
  · rw [if_neg fun hc => hpage hc.1]
    -- no byte of the piece goes to another page
    have hsame : addr / 256 ≤ a / 256 ∧ sourceOf addr a < offset ↔
        addr / 256 ≤ a / 256 ∧ sourceOf addr a < offset + x := by
      unfold sourceOf
      split_ifs <;> omega
    exact if_congr hsame rfl rfl

/-- Nothing is sent at first. -/
theorem sent_zero (addr : ℕ) (data : List (BitVec 8)) (mem : ℕ → BitVec 8) :
    sent cell addr data mem 0 = mem := by
  funext a
  exact if_neg fun hc => Nat.not_lt_zero _ hc.2

/-- The pieces that are left. -/
theorem spiCmdFlashWriteInternal_mem {addr : ℕ} {data : List (BitVec 8)} (mem : ℕ → BitVec 8)
    (haddr : addr + data.length ≤ 2 ^ 24) {offset : ℕ} {d : NorFlash} (hready : d.busy = 0)
    (hoffset : offset % 256 = 0 ∨ offset = data.length) (hle : offset ≤ data.length)
    (hmem : d.mem = sent cell addr data mem offset) :
    (spiCmdFlashWriteInternal cell addr data data.length offset d).2.mem =
      sent cell addr data mem data.length := by
  induction hk : data.length - offset using Nat.strong_induction_on generalizing offset d with
  | _ k ih =>
      rw [spiCmdFlashWriteInternal]
      by_cases hend : data.length ≤ offset
      · obtain rfl : offset = data.length := Nat.le_antisymm hle hend
        rw [if_pos hend]
        exact hmem
      · rw [if_neg hend]
        dsimp only
        have haligned : offset % 256 = 0 := hoffset.resolve_right (by omega)
        have hx : min flashPageLen (data.length - offset) ≤ 256 := Nat.min_le_left _ _
        have hrest : min flashPageLen (data.length - offset) ≤ data.length - offset :=
          Nat.min_le_right _ _
        have hnext : min flashPageLen (data.length - offset) = 256 ∨
            min flashPageLen (data.length - offset) = data.length - offset := by
          unfold flashPageLen
          omega
        generalize min flashPageLen (data.length - offset) = x at hx hrest hnext
        rw [spiCmdFlashWritePage_eq cell (by omega) _ hready, flashWriteWait_eq]
        refine ih (data.length - (offset + x)) (by omega) rfl (by omega) (by omega) ?_ rfl
        dsimp only
        rw [hmem]
        exact pageProgram_sent cell mem haligned hx (by omega)

/-- What is in memory after a write. -/
theorem spiCmdFlashWrite_mem {addr : ℕ} {data : List (BitVec 8)}
    (haddr : addr + data.length ≤ 2 ^ 24) {d : NorFlash} (hready : d.busy = 0) :
    (spiCmdFlashWrite cell addr data d).2.mem = sent cell addr data d.mem data.length :=
  spiCmdFlashWriteInternal_mem cell d.mem haddr hready (.inl rfl) (Nat.zero_le _)
    (sent_zero cell addr data d.mem).symm

/-! ## The right memory -/

/-- The data are at {lit}`addr`, and nothing else has changed. -/
def Written (addr : ℕ) (data : List (BitVec 8)) (mem mem' : ℕ → BitVec 8) : Prop :=
  ∀ a, mem' a = if addr ≤ a ∧ a < addr + data.length then data.getD (a - addr) 0#8 else mem a

/-- Byte {lit}`i` lies past the end of the page to which its piece is sent. -/
def Strays (addr i : ℕ) : Prop := 256 ≤ i % 256 + addr % 256

section Strays

variable {addr : ℕ} {data : List (BitVec 8)} {mem : ℕ → BitVec 8}
  (herased : ∀ i < data.length, mem (addr + i) = 0xFF#8)

include herased in
/-- A byte that strays is not at its address, but the one a page further. -/
theorem sent_of_strays {i : ℕ} (hi : i < data.length) (hs : Strays addr i) :
    sent cell addr data mem data.length (addr + i) =
      if i + 256 < data.length then data.getD (i + 256) 0#8 else 0xFF#8 := by
  unfold Strays at hs
  have hsource : sourceOf addr (addr + i) = i + 256 := by
    unfold sourceOf
    rw [if_neg (by omega)]
    omega
  rw [sent, hsource, herased i hi, cell.erased]
  exact if_congr (and_iff_right (by omega)) rfl rfl

include herased in
/-- Data that is written although a byte strays has the value of erased memory there. -/
theorem erased_of_written (h : Written addr data mem (sent cell addr data mem data.length)) {i : ℕ}
    (hi : i < data.length) (hs : Strays addr i) : data.getD i 0#8 = 0xFF#8 := by
  induction hk : data.length - i using Nat.strong_induction_on generalizing i with
  | _ k ih =>
      have hbyte : sent cell addr data mem data.length (addr + i) = data.getD i 0#8 := by
        rw [h (addr + i), if_pos ⟨by omega, by omega⟩, Nat.add_sub_cancel_left]
      rw [← hbyte, sent_of_strays cell herased hi hs]
      split_ifs with hnext
      · refine ih (data.length - (i + 256)) (by omega) hnext ?_ rfl
        unfold Strays at hs ⊢
        omega
      · rfl

/-- The bytes of the first piece that stray go to the part of the page before {lit}`addr`. -/
theorem sent_before (mem : ℕ → BitVec 8) {i : ℕ} (hi : i < data.length) (hs : Strays addr i) (hfirst : i < 256) :
    sent cell addr data mem data.length (addr + i - 256) =
      cell.program (mem (addr + i - 256)) (data.getD i 0#8) := by
  unfold Strays at hs
  have hsource : sourceOf addr (addr + i - 256) = i := by
    unfold sourceOf
    rw [if_neg (by omega)]
    omega
  rw [sent, hsource, if_pos ⟨by omega, hi⟩]

/-- Memory is right if the bytes that stray are those of erased cells. -/
theorem written_of_erased (herased : ∀ i < data.length, mem (addr + i) = 0xFF#8)
    (h : ∀ i < data.length, Strays addr i → data.getD i 0#8 = 0xFF#8 ∧
      (i < 256 → cell.program (mem (addr + i - 256)) 0xFF#8 = mem (addr + i - 256))) :
    Written addr data mem (sent cell addr data mem data.length) := by
  intro a
  by_cases hpage : addr / 256 ≤ a / 256
  · by_cases hplace : addr % 256 ≤ a % 256
    · -- the byte of `a` is at its place
      have hsource : sourceOf addr a = a - addr := if_pos hplace
      rw [sent, hsource]
      by_cases hin : a - addr < data.length
      · have hcell := herased (a - addr) hin
        rw [Nat.add_sub_cancel' (by omega)] at hcell
        rw [if_pos ⟨hpage, hin⟩, if_pos ⟨by omega, by omega⟩, hcell, cell.erased]
      · rw [if_neg fun hc => hin hc.2, if_neg fun hc => hin (by omega)]
    · by_cases hfirst : a < addr
      · rw [if_neg fun hc => by omega]
        by_cases hin : a + 256 - addr < data.length
        · have hs : Strays addr (a + 256 - addr) := by
            unfold Strays
            omega
          obtain ⟨hbyte, hkeep⟩ := h _ hin hs
          have hsent := sent_before cell mem hin hs (by omega)
          rw [hbyte, hkeep (by omega), show addr + (a + 256 - addr) - 256 = a by omega] at hsent
          exact hsent
        · have hsource : sourceOf addr a = a + 256 - addr := if_neg hplace
          rw [sent, hsource, if_neg fun hc => hin hc.2]
      · obtain ⟨i, rfl⟩ : ∃ i, a = addr + i := ⟨a - addr, by omega⟩
        have hs : Strays addr i := by
          unfold Strays
          omega
        by_cases hin : i < data.length
        · have hshould : (if addr ≤ addr + i ∧ addr + i < addr + data.length then
              data.getD (addr + i - addr) 0#8 else mem (addr + i)) = 0xFF#8 := by
            rw [if_pos ⟨by omega, by omega⟩, Nat.add_sub_cancel_left, (h i hin hs).1]
          rw [sent_of_strays cell herased hin hs, hshould]
          split_ifs with hnext
          · refine (h (i + 256) hnext ?_).1
            unfold Strays at hs ⊢
            omega
          · rfl
        · have hsource : sourceOf addr (addr + i) = addr + i + 256 - addr := if_neg hplace
          rw [sent, hsource, if_neg fun hc => by omega, if_neg fun hc => by omega]
  · rw [sent, if_neg fun hc => hpage hc.1, if_neg fun hc => by omega]

end Strays

end SpiFlash

open SpiFlash

/-- A write leaves the data at their addresses, and nothing else changed, exactly if each byte
that its piece carries past the end of a page is that of an erased cell, and the cell of the same
page that gets it stays as it is. -/
theorem spi_flash_write_iff (cell : NorCell) {addr : ℕ} {data : List (BitVec 8)} {d : NorFlash}
    (haddr : addr + data.length ≤ 2 ^ 24) (hready : d.busy = 0)
    (herased : ∀ i < data.length, d.mem (addr + i) = 0xFF#8) :
    Written addr data d.mem (spiCmdFlashWrite cell addr data d).2.mem ↔
      ∀ i < data.length, Strays addr i → data.getD i 0#8 = 0xFF#8 ∧
        (i < 256 → cell.program (d.mem (addr + i - 256)) 0xFF#8 = d.mem (addr + i - 256)) := by
  rw [spiCmdFlashWrite_mem cell haddr hready]
  constructor
  · intro h i hi hs
    have hbyte := erased_of_written cell herased h hi hs
    refine ⟨hbyte, fun hfirst => ?_⟩
    have hsent := sent_before cell d.mem hi hs hfirst
    unfold Strays at hs
    rw [h, if_neg fun hc => by omega, hbyte] at hsent
    exact hsent.symm
  · exact written_of_erased cell herased

/-- A device whose cells are all erased. -/
def erasedFlash : NorFlash := ⟨fun _ => 0xFF#8, false, 0, fun n => n⟩

/-- Three bytes from the start of a page. -/
theorem spi_flash_write_three :
    Written 512 [1#8, 2#8, 3#8] erasedFlash.mem
      (spiCmdFlashWrite NorCell.clearing 512 [1#8, 2#8, 3#8] erasedFlash).2.mem := by
  refine (spi_flash_write_iff NorCell.clearing (by decide) rfl fun i _ => rfl).mpr ?_
  intro i hi hs
  unfold Strays at hs
  simp only [List.length_cons, List.length_nil] at hi
  omega

/-- The second of two bytes from the end of a page is not at its address. -/
theorem spi_flash_write_wraps :
    ¬ Written 255 [0#8, 0#8] erasedFlash.mem
      (spiCmdFlashWrite NorCell.clearing 255 [0#8, 0#8] erasedFlash).2.mem := by
  intro h
  have hcell := h 256
  rw [spiCmdFlashWrite_mem NorCell.clearing (by decide) rfl] at hcell
  revert hcell
  decide

end Sumeru
