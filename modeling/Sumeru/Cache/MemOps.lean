import Mathlib.Tactic.FinCases
import Sumeru.Cache.ReadWriteCache

/-!
# Sumeru - Loads and stores on a byte memory

The meaning of the load and store instructions on a memory of bytes, and how the
execute stage turns them into lanes of a word: byte enables, the replicated store
operand and the selected load result.

Main results:

- Theorem {lit}`MemOp.covers_iff`: the enabled lanes are the bytes of the access.
- Theorem {lit}`MemOp.byteOf_writeData`: each enabled lane carries its byte.
- Theorem {lit}`MemOp.loadResult_eq`: enabled lanes that agree with memory give the load
  value.
-/

namespace Sumeru

/-- A memory of bytes. -/
abbrev ByteMem := BitVec 25 → BitVec 8

/-- A load or store; a size of zero is the line flush. -/
structure MemOp where
  store : Bool
  addr : BitVec 25
  lsOp : BitVec 2
  signed : Bool
  data : BitVec 32

namespace MemOp

/-- The number of bytes for a size code. -/
def sizeOf (lsOp : BitVec 2) : ℕ :=
  if lsOp = 0b00#2 then 1 else if lsOp = 0b01#2 then 2 else if lsOp = 0b10#2 then 4 else 0

/-- The number of bytes of an access. -/
def size (op : MemOp) : ℕ := sizeOf op.lsOp

/-- The access touches byte {lit}`a`. -/
def covers (op : MemOp) (a : BitVec 25) : Bool := decide ((a - op.addr).toNat < op.size)

/-- Natural alignment; only a store can be a flush. -/
structure Aligned (op : MemOp) : Prop where
  half : op.lsOp = 0b01#2 → op.addr.toNat % 2 = 0
  word : op.lsOp = 0b10#2 → op.addr.toNat % 4 = 0
  flush : op.lsOp = 0b11#2 → op.store = true ∧ op.addr.toNat % 4 = 0

/-- The memory after the operation. -/
def apply (op : MemOp) (m : ByteMem) : ByteMem := fun a =>
  if op.store = true ∧ op.covers a = true then
    op.data.extractLsb' (8 * (a - op.addr).toNat) 8
  else m a

/-- Sign or zero extension of a load. -/
def extend (op : MemOp) {w : ℕ} (x : BitVec w) : BitVec 32 :=
  if op.signed then x.signExtend 32 else x.setWidth 32

/-- The value of a load. -/
def loadValue (op : MemOp) (m : ByteMem) : BitVec 32 :=
  if op.lsOp = 0b00#2 then op.extend (m op.addr)
  else if op.lsOp = 0b01#2 then op.extend (m (op.addr + 1#25) ++ m op.addr)
  else m (op.addr + 3#25) ++ m (op.addr + 2#25) ++ m (op.addr + 1#25) ++ m op.addr

/-- The byte enables of the access. -/
def byteena (op : MemOp) : BitVec 4 := dcacheByteena op.lsOp (op.addr.extractLsb' 0 2)

end MemOp

/-! ## Byte addresses -/

/-- Bits 1 downto 0 of an address. -/
def laneOf (a : BitVec 25) : Fin 4 := (a.extractLsb' 0 2).toFin

/-- The lane of a byte in terms of the address. -/
theorem laneOf_val (a : BitVec 25) : (laneOf a).val = a.toNat % 4 := by
  change (a.extractLsb' 0 2).toNat = _
  simp [BitVec.extractLsb'_toNat]

/-- The address of lane {lit}`b` of the word that holds {lit}`a`. -/
def laneAddr (a : BitVec 25) (b : Fin 4) : BitVec 25 :=
  a.extractLsb' 2 23 ++ BitVec.ofNat 2 b.val

/-- The address of a lane. -/
theorem laneAddr_toNat (a : BitVec 25) (b : Fin 4) :
    (laneAddr a b).toNat = a.toNat / 4 * 4 + b.val := by
  have := a.isLt
  have := b.isLt
  rw [laneAddr, toNat_append_eq, BitVec.extractLsb'_toNat, BitVec.toNat_ofNat,
    Nat.shiftRight_eq_div_pow]
  omega

@[simp] theorem laneOf_laneAddr (a : BitVec 25) (b : Fin 4) : laneOf (laneAddr a b) = b := by
  apply Fin.ext
  rw [laneOf_val, laneAddr_toNat]
  omega

/-- Two bytes of one word differ in their lane only. -/
theorem eq_laneAddr_iff (a x : BitVec 25) :
    a = laneAddr x (laneOf a) ↔ a.extractLsb' 2 23 = x.extractLsb' 2 23 := by
  have hval : ∀ y : BitVec 25, (y.extractLsb' 2 23).toNat = y.toNat / 4 := by
    intro y
    have := y.isLt
    rw [BitVec.extractLsb'_toNat, Nat.shiftRight_eq_div_pow]
    omega
  rw [← BitVec.toNat_inj, ← BitVec.toNat_inj, laneAddr_toNat, laneOf_val, hval, hval]
  omega

namespace MemOp

variable {op : MemOp}

/-- The two low bits of an address. -/
theorem low_toNat (op : MemOp) : (op.addr.extractLsb' 0 2).toNat = op.addr.toNat % 4 := by
  simp [BitVec.extractLsb'_toNat]

/-- An aligned half-word is at an even address. -/
theorem half_of_aligned (h : op.Aligned) (hop : op.lsOp = 0b01#2) :
    (op.addr.extractLsb' 0 2).toNat % 2 = 0 := by
  have := h.half hop
  rw [low_toNat]
  omega

/-- Alignment of the two low address bits for a size code. -/
def lowAligned (lsOp low : BitVec 2) : Bool :=
  (lsOp != 0b01#2 || low.toNat % 2 == 0) && (lsOp != 0b10#2 || low == 0#2) &&
    (lsOp != 0b11#2 || low == 0#2)

/-- Aligned operations use lanes that exist. -/
theorem Aligned.low (h : op.Aligned) : lowAligned op.lsOp (op.addr.extractLsb' 0 2) = true := by
  have hlow := op.low_toNat
  have hzero : op.addr.toNat % 4 = 0 → op.addr.extractLsb' 0 2 = 0#2 := by
    intro h0
    apply BitVec.eq_of_toNat_eq
    rw [hlow, h0]
    rfl
  simp only [lowAligned, Bool.and_eq_true, Bool.or_eq_true, bne_iff_ne, beq_iff_eq]
  refine ⟨⟨?_, ?_⟩, ?_⟩
  · by_cases hop : op.lsOp = 0b01#2
    · exact .inr (half_of_aligned h hop)
    · exact .inl hop
  · by_cases hop : op.lsOp = 0b10#2
    · exact .inr (hzero (h.word hop))
    · exact .inl hop
  · by_cases hop : op.lsOp = 0b11#2
    · exact .inr (hzero (h.flush hop).2)
    · exact .inl hop

/-- The table of byte enables: a run of lanes from the low address bits on. -/
theorem dcacheByteena_table : ∀ (lsOp low : BitVec 2) (b : Fin 4), lowAligned lsOp low = true →
    (dcacheByteena lsOp low).getLsbD b.val =
      decide (low.toNat ≤ b.val ∧ b.val < low.toNat + sizeOf lsOp) := by
  decide

/-- An aligned access stays inside its word. -/
theorem size_le_table : ∀ lsOp low : BitVec 2, lowAligned lsOp low = true →
    low.toNat + sizeOf lsOp ≤ 4 := by
  decide

/-- An aligned access enables the lanes from its low address bits on. -/
theorem byteena_iff (h : op.Aligned) (b : Fin 4) :
    op.byteena.getLsbD b.val = true ↔
      op.addr.toNat % 4 ≤ b.val ∧ b.val < op.addr.toNat % 4 + sizeOf op.lsOp := by
  rw [byteena, dcacheByteena_table _ _ _ h.low, decide_eq_true_eq, low_toNat]

/-- The enabled lanes are the bytes of the access. -/
theorem covers_iff (h : op.Aligned) (a : BitVec 25) :
    op.covers a = true ↔
      a.extractLsb' 2 23 = op.addr.extractLsb' 2 23 ∧ op.byteena.getLsbD (laneOf a).val = true := by
  have hlow := op.low_toNat
  have hsize := size_le_table _ _ h.low
  have hlane := laneOf_val a
  rw [← eq_laneAddr_iff, byteena_iff h, covers, decide_eq_true_eq, ← BitVec.toNat_inj,
    laneAddr_toNat, BitVec.toNat_sub, hlane]
  rw [hlow] at hsize
  change _ < sizeOf op.lsOp ↔ _
  have ha := a.isLt
  have hx := op.addr.isLt
  omega

/-- The bytes of a word put together from its lanes. -/
theorem byteOf_append (x : Fin 4 → BitVec 8) (b : Fin 4) :
    byteOf (x 3 ++ x 2 ++ x 1 ++ x 0) b = x b := by
  unfold byteOf
  fin_cases b
  · exact BitVec.extractLsb'_append_eq_right
  · exact (BitVec.extractLsb'_append_eq_of_le (by decide)).trans BitVec.extractLsb'_append_eq_right
  · exact (BitVec.extractLsb'_append_eq_of_le (by decide)).trans
      ((BitVec.extractLsb'_append_eq_of_le (by decide)).trans BitVec.extractLsb'_append_eq_right)
  · exact (BitVec.extractLsb'_append_eq_of_le (by decide)).trans
      ((BitVec.extractLsb'_append_eq_of_le (by decide)).trans BitVec.extractLsb'_append_eq_left)

/-- The bytes of a repeated half-word. -/
theorem byteOf_append_half (x : BitVec 16) (b : Fin 4) :
    byteOf (x ++ x) b = x.extractLsb' (8 * (b.val % 2)) 8 := by
  unfold byteOf
  fin_cases b
  · exact BitVec.extractLsb'_append_eq_of_add_le (by decide)
  · exact BitVec.extractLsb'_append_eq_of_add_le (by decide)
  · exact BitVec.extractLsb'_append_eq_of_le (by decide)
  · exact BitVec.extractLsb'_append_eq_of_le (by decide)

/-- The store operand is replicated over the lanes. -/
theorem byteOf_dcacheWriteData (lsOp : BitVec 2) (x : BitVec 32) (b : Fin 4) :
    byteOf (dcacheWriteData lsOp x) b =
      x.extractLsb' (8 * (if lsOp = 0b00#2 then 0 else if lsOp = 0b01#2 then b.val % 2 else b.val)) 8 := by
  by_cases h1 : lsOp = 0b01#2
  · subst h1
    refine (byteOf_append_half _ b).trans ?_
    ext i hi
    have : 8 * (b.val % 2) + i < 16 := by omega
    simp [BitVec.getElem_extractLsb', this]
  · by_cases h0 : lsOp = 0b00#2
    · subst h0
      exact byteOf_append (fun _ => x.extractLsb' 0 8) b
    · simp [dcacheWriteData, h0, h1, byteOf]

/-- Each enabled lane carries its byte of the operand. -/
theorem byteOf_writeData (h : op.Aligned) {a : BitVec 25} (ha : op.covers a = true) :
    byteOf (dcacheWriteData op.lsOp op.data) (laneOf a) =
      op.data.extractLsb' (8 * (a - op.addr).toNat) 8 := by
  obtain ⟨hword, hena⟩ := (covers_iff h a).mp ha
  have hlane := laneOf_val a
  rw [byteena_iff h, hlane] at hena
  have hsub : (a - op.addr).toNat = a.toNat % 4 - op.addr.toNat % 4 := by
    rw [← eq_laneAddr_iff, ← BitVec.toNat_inj, laneAddr_toNat, hlane] at hword
    rw [BitVec.toNat_sub]
    have h1 := a.isLt
    have h2 := op.addr.isLt
    omega
  rw [byteOf_dcacheWriteData, hsub, hlane]
  congr 2
  have hcases : op.lsOp = 0b00#2 ∨ op.lsOp = 0b01#2 ∨ op.lsOp = 0b10#2 ∨ op.lsOp = 0b11#2 := by
    bv_omega
  rcases hcases with hop | hop | hop | hop
  · simp [hop, sizeOf] at hena ⊢
    omega
  · have := h.half hop
    simp [hop, sizeOf] at hena ⊢
    omega
  · have := h.word hop
    simp [hop]
    omega
  · have := (h.flush hop).2
    simp [hop]
    omega

/-! ### Lanes

The execute stage enables lanes of one word.  For an aligned access these are its bytes;
any other access becomes one of the whole word. -/

/-- The lane of byte {lit}`a` is enabled. -/
def touches (op : MemOp) (a : BitVec 25) : Bool :=
  a.extractLsb' 2 23 == op.addr.extractLsb' 2 23 && op.byteena.getLsbD (laneOf a).val

/-- What a store puts on the lane of byte {lit}`a`. -/
def laneByte (op : MemOp) (a : BitVec 25) : BitVec 8 :=
  byteOf (dcacheWriteData op.lsOp op.data) (laneOf a)

/-- The memory after the operation on the enabled lanes. -/
def write (op : MemOp) (m : ByteMem) : ByteMem := fun a =>
  if op.store = true ∧ op.touches a = true then op.laneByte a else m a

/-- A load stores nothing. -/
theorem write_load (h : op.store = false) (m : ByteMem) : op.write m = m := by
  funext a
  simp [write, h]

/-- The bytes that the byte enables select. -/
theorem touches_iff (op : MemOp) (a : BitVec 25) :
    op.touches a = true ↔
      a.extractLsb' 2 23 = op.addr.extractLsb' 2 23 ∧ op.byteena.getLsbD (laneOf a).val = true := by
  rw [touches, Bool.and_eq_true, beq_iff_eq]

/-- An aligned operation touches the bytes that it covers. -/
theorem touches_eq_covers (h : op.Aligned) (a : BitVec 25) : op.touches a = op.covers a := by
  rw [Bool.eq_iff_iff, touches_iff, covers_iff h]

/-- The lane of a byte carries the byte of the operand. -/
theorem laneByte_eq (h : op.Aligned) {a : BitVec 25} (ha : op.covers a = true) :
    op.laneByte a = op.data.extractLsb' (8 * (a - op.addr).toNat) 8 :=
  byteOf_writeData h ha

/-- The lanes of an aligned store write its operand. -/
theorem write_eq_apply (h : op.Aligned) (m : ByteMem) : op.write m = op.apply m := by
  funext a
  rw [write, apply, touches_eq_covers h]
  split
  · rename_i hst
    exact laneByte_eq h hst.2
  · rfl

/-- The extension bit in front of a byte or half-word makes one sign extension serve both
kinds of load. -/
theorem signExtend_extension (op : MemOp) {w : ℕ} (x : BitVec w) :
    (BitVec.ofBool (op.signed && x.msb) ++ x).signExtend 32 = op.extend x := by
  apply BitVec.eq_of_getLsbD_eq
  intro i hi
  cases hs : op.signed with
  | false =>
      have hmsb : (BitVec.ofBool false ++ x).msb = false := by simp [BitVec.msb_append]
      rw [Bool.false_and, BitVec.signExtend_eq_setWidth_of_msb_false hmsb]
      simp [extend, hs, BitVec.getLsbD_append, hi]
      intro h
      exact BitVec.lt_of_getLsbD h
  | true =>
      have hmsb : (BitVec.ofBool x.msb ++ x).msb = x.msb := by simp [BitVec.msb_append]
      simp only [extend, hs, Bool.true_and, if_true, BitVec.getLsbD_signExtend, hmsb]
      by_cases h1 : i < w
      · simp [BitVec.getLsbD_append, h1, hi]
        omega
      · by_cases h2 : i < 1 + w
        · have : i - w = 0 := by omega
          simp [BitVec.getElem_append, h1, h2, hi, this]
        · simp [h1, h2, hi]

/-- The sign of a byte. -/
theorem msb_byteOf (word : BitVec 32) (b : Fin 4) :
    (byteOf word b).msb = word.getLsbD (8 * b.val + 7) := by
  rw [BitVec.msb_eq_getLsbD_last, byteOf, BitVec.getLsbD_extractLsb']
  simp

/-- The sign of a half-word. -/
theorem msb_half (word : BitVec 32) (k : ℕ) :
    (word.extractLsb' k 16).msb = word.getLsbD (k + 15) := by
  rw [BitVec.msb_eq_getLsbD_last, BitVec.getLsbD_extractLsb']
  simp

/-- The address of a lane counted from the operation. -/
theorem laneAddr_low (op : MemOp) {b : Fin 4} {k : ℕ} (hk : op.addr.toNat % 4 + k = b.val) :
    laneAddr op.addr b = op.addr + BitVec.ofNat 25 k := by
  apply BitVec.eq_of_toNat_eq
  have h1 := op.addr.isLt
  have h2 := b.isLt
  rw [laneAddr_toNat, BitVec.toNat_add, BitVec.toNat_ofNat]
  omega

/-- The half-word at lane {lit}`b` is its two bytes. -/
theorem half_eq (word : BitVec 32) {b c : Fin 4} (hc : c.val = b.val + 1) :
    word.extractLsb' (8 * b.val) 16 = byteOf word c ++ byteOf word b := by
  rw [byteOf, byteOf, BitVec.extractLsb'_append_extractLsb'_eq_extractLsb' (by omega)]

/-- A word is its four bytes. -/
theorem word_eq (word : BitVec 32) :
    word = byteOf word 3 ++ byteOf word 2 ++ byteOf word 1 ++ byteOf word 0 := by
  rw [byteOf, byteOf, byteOf, byteOf,
    BitVec.extractLsb'_append_extractLsb'_eq_extractLsb' (by rfl),
    BitVec.extractLsb'_append_extractLsb'_eq_extractLsb' (by rfl),
    BitVec.extractLsb'_append_extractLsb'_eq_extractLsb' (by rfl)]
  exact BitVec.extractLsb'_eq_self.symm

/-- The result of a byte load. -/
theorem loadResult_byte (signed : Bool) (word : BitVec 32) (b : Fin 4) :
    loadResult (1#4 <<< b.val) signed word =
      (BitVec.ofBool (signed && (byteOf word b).msb) ++ byteOf word b).signExtend 32 := by
  rw [msb_byteOf]
  fin_cases b <;> rfl

/-- The result of a half-word load. -/
theorem loadResult_half (signed : Bool) (word : BitVec 32) {b c : Fin 4} (hb : b = 0 ∨ b = 2)
    (hc : c.val = b.val + 1) :
    loadResult (3#4 <<< b.val) signed word =
      (BitVec.ofBool (signed && (byteOf word c ++ byteOf word b).msb) ++
        (byteOf word c ++ byteOf word b)).signExtend 32 := by
  rw [← half_eq word hc, msb_half]
  rcases hb with rfl | rfl <;> rfl

/-- Only the enabled lanes matter, if there are any. -/
theorem loadResult_congr (hne : op.byteena ≠ 0#4) {word word' : BitVec 32}
    (hword : ∀ b : Fin 4, op.byteena.getLsbD b.val = true → byteOf word b = byteOf word' b)
    (signed : Bool) : loadResult op.byteena signed word = loadResult op.byteena signed word' := by
  have htable : ∀ lsOp low : BitVec 2, dcacheByteena lsOp low = 0#4 ∨
      dcacheByteena lsOp low = 0b1111#4 ∨
      (∃ b : Fin 4, dcacheByteena lsOp low = 1#4 <<< b.val ∧
        (dcacheByteena lsOp low).getLsbD b.val = true) ∨
      (∃ b c : Fin 4, (b = 0 ∨ b = 2) ∧ c.val = b.val + 1 ∧
        dcacheByteena lsOp low = 3#4 <<< b.val ∧
        (dcacheByteena lsOp low).getLsbD b.val = true ∧
        (dcacheByteena lsOp low).getLsbD c.val = true) := by decide
  rcases htable op.lsOp (op.addr.extractLsb' 0 2) with h0 | hall | ⟨b, hb, hena⟩ |
    ⟨b, c, hb, hc, hbe, henab, henac⟩
  · exact absurd h0 hne
  · have hlane : ∀ b : Fin 4, byteOf word b = byteOf word' b := by
      intro b
      apply hword b
      rw [show op.byteena = _ from hall]
      revert b
      decide
    rw [word_eq word, hlane, hlane, hlane, hlane, ← word_eq word']
  · rw [show op.byteena = _ from hb, loadResult_byte, loadResult_byte, hword b hena]
  · rw [show op.byteena = _ from hbe, loadResult_half signed word hb hc,
      loadResult_half signed word' hb hc, hword b henab, hword c henac]

/-- The lanes of a word have numerals of their own. -/
local instance neZero_four : NeZero (4 : ℕ) :=
  ⟨Nat.succ_ne_zero 3⟩

/-- The result of a load on the lanes of its word. -/
def laneValue (op : MemOp) (m : ByteMem) : BitVec 32 :=
  loadResult op.byteena op.signed
    (m (laneAddr op.addr 3) ++ m (laneAddr op.addr 2) ++ m (laneAddr op.addr 1) ++
      m (laneAddr op.addr 0))

/-- Enabled lanes that agree with memory give the result. -/
theorem loadResult_eq_laneValue (hne : op.byteena ≠ 0#4) {m : ByteMem} {word : BitVec 32}
    (hword : ∀ b : Fin 4, op.byteena.getLsbD b.val = true →
      byteOf word b = m (laneAddr op.addr b)) :
    loadResult op.byteena op.signed word = op.laneValue m := by
  refine loadResult_congr hne (fun b hb => ?_) op.signed
  rw [hword b hb]
  exact (byteOf_append (fun b => m (laneAddr op.addr b)) b).symm

/-- The low bits of an address as a lane. -/
theorem low_eq_ofNat {b : Fin 4} (hb : b.val = op.addr.toNat % 4) :
    op.addr.extractLsb' 0 2 = BitVec.ofNat 2 b.val := by
  have hlt := b.isLt
  apply BitVec.eq_of_toNat_eq
  rw [low_toNat, ← hb, BitVec.toNat_ofNat]
  omega

section LoadResult

variable {m : ByteMem} {word : BitVec 32}

/-- A byte: one lane is enabled. -/
theorem loadResult_eq_byte (hop : op.lsOp = 0b00#2)
    (hword : ∀ b : Fin 4, op.byteena.getLsbD b.val = true →
      byteOf word b = m (laneAddr op.addr b)) :
    loadResult op.byteena op.signed word = op.loadValue m := by
  obtain ⟨b, hb⟩ : ∃ b : Fin 4, b.val = op.addr.toNat % 4 := ⟨⟨_, Nat.mod_lt _ (by decide)⟩, rfl⟩
  have hone : op.byteena = 1#4 <<< b.val := by
    rw [byteena, hop, low_eq_ofNat hb]
    clear hb
    revert b
    decide
  have hena : op.byteena.getLsbD b.val = true := by
    rw [hone]
    clear hone hb
    revert b
    decide
  rw [hone, loadResult_byte, op.signExtend_extension, hword b hena,
    laneAddr_low op (k := 0) (by omega)]
  simp [loadValue, hop]

/-- A half-word: two lanes. -/
theorem loadResult_eq_half (h : op.Aligned) (hop : op.lsOp = 0b01#2)
    (hword : ∀ b : Fin 4, op.byteena.getLsbD b.val = true →
      byteOf word b = m (laneAddr op.addr b)) :
    loadResult op.byteena op.signed word = op.loadValue m := by
  have heven := h.half hop
  obtain ⟨b, hb⟩ : ∃ b : Fin 4, b.val = op.addr.toNat % 4 := ⟨⟨_, Nat.mod_lt _ (by decide)⟩, rfl⟩
  obtain ⟨c, hc⟩ : ∃ c : Fin 4, c.val = b.val + 1 := ⟨⟨b.val + 1, by omega⟩, rfl⟩
  have hbe : b = 0 ∨ b = 2 := by omega
  have htwo : op.byteena = 3#4 <<< b.val := by
    rw [byteena, hop, low_eq_ofNat hb]
    rcases hbe with rfl | rfl <;> rfl
  have hena : ∀ d : Fin 4, d = b ∨ d = c → op.byteena.getLsbD d.val = true := by
    intro d hd
    rw [byteena_iff h, hop]
    have hsz : sizeOf 0b01#2 = 2 := rfl
    rcases hd with rfl | rfl <;> omega
  rw [htwo, loadResult_half op.signed word hbe hc, op.signExtend_extension,
    hword b (hena b (.inl rfl)), hword c (hena c (.inr rfl)),
    laneAddr_low op (b := b) (k := 0) (by omega), laneAddr_low op (b := c) (k := 1) (by omega)]
  simp [loadValue, hop]

/-- A word: all four. -/
theorem loadResult_eq_word (h : op.Aligned) (hop : op.lsOp = 0b10#2)
    (hword : ∀ b : Fin 4, op.byteena.getLsbD b.val = true →
      byteOf word b = m (laneAddr op.addr b)) :
    loadResult op.byteena op.signed word = op.loadValue m := by
  have hzero := h.word hop
  have hena : op.byteena = 0b1111#4 := by
    rw [byteena, hop, low_eq_ofNat (b := 0) hzero.symm]
    rfl
  have hlane : ∀ b : Fin 4, byteOf word b = m (op.addr + BitVec.ofNat 25 b.val) := by
    intro b
    rw [hword b, laneAddr_low op (k := b.val) (by omega)]
    rw [hena]
    revert b
    decide
  have hresult : loadResult op.byteena op.signed word = word := by
    rw [hena]
    rfl
  rw [hresult, word_eq word, hlane, hlane, hlane, hlane]
  simp [loadValue, hop]

/-- Enabled lanes that agree with memory give the load value. -/
theorem loadResult_eq (h : op.Aligned) (hload : op.store = false)
    (hword : ∀ b : Fin 4, op.byteena.getLsbD b.val = true →
      byteOf word b = m (laneAddr op.addr b)) :
    loadResult op.byteena op.signed word = op.loadValue m := by
  have hcases : op.lsOp = 0b00#2 ∨ op.lsOp = 0b01#2 ∨ op.lsOp = 0b10#2 ∨ op.lsOp = 0b11#2 := by
    bv_omega
  rcases hcases with hop | hop | hop | hop
  · exact loadResult_eq_byte hop hword
  · exact loadResult_eq_half h hop hword
  · exact loadResult_eq_word h hop hword
  · have := (h.flush hop).1
    rw [hload] at this
    cases this

end LoadResult

/-- An aligned load returns its value. -/
theorem laneValue_eq_loadValue (h : op.Aligned) (hload : op.store = false) (m : ByteMem) :
    op.laneValue m = op.loadValue m :=
  loadResult_eq h hload fun b _ => byteOf_append (fun b => m (laneAddr op.addr b)) b

/-- A load enables some byte. -/
theorem byteena_ne_zero (h : op.Aligned) (hload : op.store = false) : op.byteena ≠ 0#4 := by
  have htable : ∀ lsOp low : BitVec 2, lsOp ≠ 0b11#2 → dcacheByteena lsOp low ≠ 0#4 := by decide
  refine htable _ _ fun hop => ?_
  have := (h.flush hop).1
  rw [hload] at this
  cases this

end MemOp

end Sumeru
