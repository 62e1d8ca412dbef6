import Mathlib.Tactic.IntervalCases
import Sumeru.Cpu.Datapath

/-!
# Sumeru - The barrel shifter

The entity {lit}`cpu_shift` is written as four tables of half-words for the even
part of the shift amount and a last stage for bit 0.  Each table is a window on the
word, continued by a fill bit above its top or by zeros below its bottom; this file
reads the tables bit by bit and puts the two stages together.

Main results:

- Theorems {lit}`getLsbD_cpuShift_right` and {lit}`getLsbD_cpuShift_left`: every bit
  of the result.
- Theorems {lit}`cpuShift_sll`, {lit}`cpuShift_srl` and {lit}`cpuShift_sra`: the
  shifter computes the three shifts.
-/

namespace Sumeru

/-! ## Windows on a word -/

/-- Bit {lit}`n` of a word that is continued by {lit}`bit` above its top. -/
def fillBit (x : BitVec 32) (bit : Bool) (n : ℕ) : Bool :=
  if n < 32 then x.getLsbD n else bit

/-- The bits of a window. -/
theorem getLsbD_window (x : BitVec 32) (bit : Bool) {m j : ℕ} (hm : m ≤ 16) (hj : j < 16) :
    (x.extractLsb' m 16).getLsbD j = fillBit x bit (m + j) := by
  have hlt : m + j < 32 := by omega
  simp [fillBit, hlt, hj]

/-- The bits of a filled window. -/
theorem getLsbD_fill (x : BitVec 32) (bit : Bool) {m w j : ℕ} (hm : m + w = 32) (hj : j < 16) :
    ((BitVec.ofBool bit ++ x.extractLsb' m w).signExtend 16).getLsbD j = fillBit x bit (m + j) := by
  have hmsb : (BitVec.ofBool bit ++ x.extractLsb' m w).msb = bit := by
    simp [BitVec.msb_append]
  rw [BitVec.getLsbD_signExtend, hmsb, BitVec.getLsbD_append, BitVec.getLsbD_extractLsb']
  by_cases hw : j < w
  · have hlt : m + j < 32 := by omega
    simp [fillBit, hlt, hj, hw, Nat.lt_add_left]
  · have hge : ¬ m + j < 32 := by omega
    by_cases h1 : j < 1 + w
    · have h0 : j - w = 0 := by omega
      simp [fillBit, hge, hj, hw, h1, h0]
    · simp [fillBit, hge, hj, h1]

/-! ## The half-word tables -/

/-- The low half of a shift to the right by an even amount. -/
theorem getLsbD_stage1_right_a (x : BitVec 32) (sel : BitVec 4) (bit : Bool) {j : ℕ} (hj : j < 16) :
    (shiftrxStage1ResultA x sel bit).getLsbD j = fillBit x bit (2 * sel.toNat + j) := by
  have hsel := sel.isLt
  unfold shiftrxStage1ResultA
  generalize sel.toNat = k at hsel ⊢
  interval_cases k <;> simp only <;>
    first
      | rw [getLsbD_window x bit (by decide) hj]
      | rw [getLsbD_fill x bit (by decide) hj]

/-- The high half of a shift to the right by an even amount. -/
theorem getLsbD_stage1_right_b (x : BitVec 32) (sel : BitVec 4) (bit : Bool) {j : ℕ} (hj : j < 16) :
    (shiftrxStage1ResultB x sel bit).getLsbD j = fillBit x bit (16 + 2 * sel.toNat + j) := by
  have hsel := sel.isLt
  unfold shiftrxStage1ResultB
  generalize sel.toNat = k at hsel ⊢
  by_cases hk : k < 8
  · interval_cases k <;> simp only <;>
    first
      | rw [getLsbD_window x bit (by decide) hj]
      | rw [getLsbD_fill x bit (by decide) hj]
  · -- from a shift by sixteen on, the upper half is the fill bit
    have hge : ¬ 16 + 2 * k + j < 32 := by omega
    have hfill : ((BitVec.ofBool bit).signExtend 16).getLsbD j = bit := by
      rw [BitVec.getLsbD_signExtend]
      by_cases h0 : j < 1
      · have hz : j = 0 := by omega
        simp [hz]
      · simp [hj, h0, BitVec.msb_eq_getLsbD_last]
    rw [fillBit, if_neg hge]
    interval_cases k <;> exact hfill

/-- Bit {lit}`i` of a word shifted left by {lit}`n`. -/
def lowBit (x : BitVec 32) (n i : ℕ) : Bool :=
  if n ≤ i then x.getLsbD (i - n) else false

/-- The bits of a window of a shift to the left. -/
theorem getLsbD_window_left (x : BitVec 32) {m j : ℕ} (hm : m ≤ 16) (hj : j < 16) :
    (x.extractLsb' m 16).getLsbD j = lowBit x (16 - m) (16 + j) := by
  have hle : 16 - m ≤ 16 + j := by omega
  have hidx : 16 + j - (16 - m) = m + j := by omega
  simp [lowBit, hle, hj, hidx]

/-- The bits above zeros. -/
theorem getLsbD_zeros (x : BitVec 32) {w z j : ℕ} (hj : j < w + z) :
    (x.extractLsb' 0 w ++ 0#z).getLsbD j = lowBit x z j := by
  rw [BitVec.getLsbD_append, lowBit]
  by_cases hz : j < z
  · simp [hz]
  · have hle : z ≤ j := by omega
    have hlt : j - z < w := by omega
    simp [hz, hle, hlt]

/-- The low half of a shift to the left by an even amount. -/
theorem getLsbD_stage1_left_a (x : BitVec 32) (sel : BitVec 4) {j : ℕ} (hj : j < 16) :
    (shiftllStage1ResultA x sel).getLsbD j = lowBit x (2 * sel.toNat) j := by
  have hsel := sel.isLt
  unfold shiftllStage1ResultA
  generalize sel.toNat = k at hsel ⊢
  by_cases hk : k < 8
  · interval_cases k <;> simp only <;>
    first
      | rw [getLsbD_zeros x hj]
      | simp [lowBit, hj]
  · have hgt : ¬ 2 * k ≤ j := by omega
    rw [lowBit, if_neg hgt]
    interval_cases k <;> simp

/-- The high half of a shift to the left by an even amount. -/
theorem getLsbD_stage1_left_b (x : BitVec 32) (sel : BitVec 4) {j : ℕ} (hj : j < 16) :
    (shiftllStage1ResultB x sel).getLsbD j = lowBit x (2 * sel.toNat) (16 + j) := by
  have hsel := sel.isLt
  unfold shiftllStage1ResultB
  generalize sel.toNat = k at hsel ⊢
  interval_cases k <;> simp only <;>
    first
      | rw [getLsbD_window_left x (by decide) hj]
      | (rw [getLsbD_zeros x hj]; simp only [lowBit]; split <;> split <;> first | omega | rfl | (congr 1; omega))

/-! ## The last stage -/

/-- The amount is an even one and a bit. -/
theorem toNat_amt (amt : BitVec 5) :
    amt.toNat = 2 * (amt.extractLsb' 1 4).toNat + (amt.getLsbD 0).toNat := by
  have h0 : amt.getLsbD 0 = decide (amt.toNat % 2 = 1) := by
    simp [BitVec.getLsbD, Nat.testBit_zero]
  have := amt.isLt
  rw [BitVec.extractLsb'_toNat, h0, Nat.shiftRight_eq_div_pow]
  by_cases h : amt.toNat % 2 = 1 <;> simp [h] <;> omega

/-- A right shift continues the word with the fill bit. -/
theorem getLsbD_cpuShift_right (x : BitVec 32) (amt : BitVec 5) (bit : Bool) {i : ℕ} (hi : i < 32) :
    (cpuShift x amt bit true).getLsbD i =
      fillBit x (bit && x.getLsbD 31) (amt.toNat + i) := by
  have hamt := toNat_amt amt
  cases hodd : amt.getLsbD 0 with
  | false =>
      rw [hodd] at hamt
      simp only [cpuShift, hodd, Bool.true_eq_false, if_false, if_true]
      rw [BitVec.getLsbD_append]
      split
      · rename_i h16
        rw [getLsbD_stage1_right_a _ _ _ h16, hamt]
        rfl
      · rename_i h16
        rw [getLsbD_stage1_right_b _ _ _ (by omega), hamt, Bool.toNat_false]
        congr 1
        omega
  | true =>
      rw [hodd] at hamt
      simp only [cpuShift, hodd, Bool.true_eq_false, if_false]
      rw [BitVec.getLsbD_append, BitVec.getLsbD_append, hamt, Bool.toNat_true]
      split
      · rename_i h15
        rw [BitVec.getLsbD_extractLsb', getLsbD_stage1_right_a _ _ _ (by omega)]
        simp [h15, Nat.add_assoc]
      · rename_i h15
        split
        · rw [getLsbD_stage1_right_b _ _ _ (by omega)]
          congr 1
          omega
        · -- the last stage shifts the fill bit in at the top
          have hi31 : i = 31 := by omega
          simp [fillBit, hi31]

/-- A left shift continues the word with zeros. -/
theorem getLsbD_cpuShift_left (x : BitVec 32) (amt : BitVec 5) (bit : Bool) {i : ℕ} (hi : i < 32) :
    (cpuShift x amt bit false).getLsbD i = lowBit x amt.toNat i := by
  have hamt := toNat_amt amt
  cases hodd : amt.getLsbD 0 with
  | false =>
      rw [hodd] at hamt
      simp only [cpuShift, hodd, if_true]
      rw [BitVec.getLsbD_append, hamt]
      split
      · rename_i h16
        rw [getLsbD_stage1_left_a _ _ h16]
        rfl
      · rename_i h16
        rw [getLsbD_stage1_left_b _ _ (by omega)]
        congr 1
        omega
  | true =>
      rw [hodd] at hamt
      simp only [cpuShift, hodd, Bool.true_eq_false, if_false, if_true]
      rw [BitVec.getLsbD_append, BitVec.getLsbD_append, hamt, Bool.toNat_true]
      have hshift : ∀ n i, lowBit x n i = lowBit x (n + 1) (i + 1) := by
        intro n i
        simp only [lowBit, Nat.add_le_add_iff_right, Nat.add_sub_add_right]
      split
      · rename_i h1
        have hgt : ¬ 2 * (amt.extractLsb' 1 4).toNat + 1 ≤ i := by omega
        rw [lowBit, if_neg hgt]
        simp
      · rename_i h1
        obtain ⟨j, rfl⟩ : ∃ j, i = j + 1 := ⟨i - 1, by omega⟩
        rw [← hshift, Nat.add_sub_cancel]
        split
        · rw [getLsbD_stage1_left_a _ _ (by omega)]
        · rename_i h16
          rw [BitVec.getLsbD_extractLsb', getLsbD_stage1_left_b _ _ (by omega)]
          simp only [show j - 16 < 15 by omega, decide_true, Bool.true_and]
          congr 1
          omega

/-! ## The three shifts -/

/-- Shift left logical. -/
theorem cpuShift_sll (x : BitVec 32) (amt : BitVec 5) (bit : Bool) :
    cpuShift x amt bit false = x <<< amt.toNat := by
  apply BitVec.eq_of_getLsbD_eq
  intro i hi
  rw [getLsbD_cpuShift_left x amt bit hi, BitVec.getLsbD_shiftLeft, lowBit]
  by_cases h : amt.toNat ≤ i
  · simp [h, hi, Nat.not_lt.mpr h]
  · simp [h, Nat.not_le.mp h]

/-- Shift right logical. -/
theorem cpuShift_srl (x : BitVec 32) (amt : BitVec 5) :
    cpuShift x amt false true = x >>> amt.toNat := by
  apply BitVec.eq_of_getLsbD_eq
  intro i hi
  rw [getLsbD_cpuShift_right x amt false hi, BitVec.getLsbD_ushiftRight, fillBit]
  split
  · rfl
  · rename_i h
    exact (BitVec.getLsbD_of_ge _ _ (by omega)).symm

/-- Shift right arithmetic. -/
theorem cpuShift_sra (x : BitVec 32) (amt : BitVec 5) :
    cpuShift x amt true true = x.sshiftRight amt.toNat := by
  apply BitVec.eq_of_getLsbD_eq
  intro i hi
  rw [getLsbD_cpuShift_right x amt true hi, BitVec.getLsbD_sshiftRight, fillBit]
  simp [BitVec.msb_eq_getLsbD_last]
  omega

end Sumeru
