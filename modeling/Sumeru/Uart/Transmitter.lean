import Mathlib.Tactic.IntervalCases
import Sumeru.Cpu.Types

/-!
# Sumeru - UART transmitter

The transmit half of {lit}`csr_uart_rs232`: the divider {lit}`tx_clk_gen`, the bit engine
clocked by {lit}`tx_clk`, and the state machine that reads the bytes of a buffer through the
DMA channel and starts the bit engine for each of them.

Main results:

- Theorem {lit}`UartTx.Divider.step`: the divider counts out the two halves of a bit time.
- Theorem {lit}`UartTx.Sending.step`: the bit engine shows the bits of a byte one bit time each.
-/

namespace Sumeru

/-- The states of the transmitter. -/
inductive TxState where
  | idle | running | readmemWait | txdWait
deriving DecidableEq, Repr

/-- Registers of the transmit half of {lit}`csr_uart_rs232`. -/
structure UartTx where
  txBaud : BitVec 12
  txCtrl : BitVec 24
  txBufLen : BitVec 8
  txBufCurpos : BitVec 8
  txIntrToggle : Bool
  txClk : Bool
  txClkCtr : BitVec 12
  txdStart : Bool
  txdByte : BitVec 8
  txdBitnr : BitVec 4
  txdStartAck : Bool
  txState : TxState
  readR : Bool
  readAddr : BitVec 25
deriving DecidableEq

namespace UartTx

/-- Power-up contents. -/
def init : UartTx where
  txBaud := 0x146#12
  txCtrl := 0#24
  txBufLen := 0#8
  txBufCurpos := 0#8
  txIntrToggle := false
  txClk := false
  txClkCtr := 0#12
  txdStart := false
  txdByte := 0xFF#8
  txdBitnr := 0#4
  txdStartAck := false
  txState := .idle
  readR := false
  readAddr := 0#25

/-- The value of {lit}`csr_sel_result` for {lit}`CSR_REG_UART0_TX`. -/
def csrSelResult (s : UartTx) : BitVec 32 := s.txCtrl ++ s.txBufCurpos

/-- The line {lit}`uart_tx`. -/
def uartTx (s : UartTx) : Bool :=
  match s.txdBitnr.toNat with
  | 1 => s.txdByte.getLsbD 7
  | 2 => s.txdByte.getLsbD 6
  | 3 => s.txdByte.getLsbD 5
  | 4 => s.txdByte.getLsbD 4
  | 5 => s.txdByte.getLsbD 3
  | 6 => s.txdByte.getLsbD 2
  | 7 => s.txdByte.getLsbD 1
  | 8 => s.txdByte.getLsbD 0
  | 9 => false
  | _ => true

/-- The process of the state machine. -/
def fsm (s : UartTx) (csrIn : CsrChannelIn) (readAck : Bool) (readData : BitVec 8) : UartTx :=
  match s.txState with
  | .idle =>
      if csrIn.csrOpValid = true then
        if csrIn.csrOpReg = csrRegUart0Tx then
          if csrIn.csrOpData.getLsbD 31 = false then
            { s with
              txCtrl := csrIn.csrOpData.extractLsb' 8 24
              txBufLen := csrIn.csrOpData.extractLsb' 0 8
              txBufCurpos := 0#8
              txState := .running }
          else s
        else if csrIn.csrOpReg = csrRegUart0TxBaud then
          { s with txBaud := csrIn.csrOpData.extractLsb' 0 12 }
        else s
      else s
  | .running =>
      if s.txBufCurpos ≠ s.txBufLen then
        { s with
          readAddr := s.txCtrl.extractLsb' 0 17 ++ s.txBufCurpos
          readR := !s.readR
          txState := .readmemWait }
      else { s with txIntrToggle := !s.txIntrToggle, txState := .idle }
  | .readmemWait =>
      if s.readR = readAck then
        { s with txdStart := !s.txdStart, txdByte := readData, txState := .txdWait }
      else s
  | .txdWait =>
      if s.txdStart = s.txdStartAck then
        { s with txState := .running, txBufCurpos := s.txBufCurpos + 1#8 }
      else s

/-- The process {lit}`tx_clk_gen`. -/
def txClkGen (s s' : UartTx) : UartTx :=
  if s.txClkCtr = s.txBaud then { s' with txClk := !s.txClk, txClkCtr := 0#12 }
  else { s' with txClkCtr := s.txClkCtr + 1#12 }

/-- The process of the bit engine at a rising edge of {lit}`tx_clk`. -/
def bitEdge (s : UartTx) : UartTx :=
  if s.txdStart ≠ s.txdStartAck then
    if s.txdBitnr = 0b0000#4 then { s with txdBitnr := 0b1001#4 }
    else
      { s with
        txdStartAck := if s.txdBitnr = 0b0001#4 then !s.txdStartAck else s.txdStartAck
        txdBitnr := s.txdBitnr - 1#4 }
  else s

/-- An edge of {lit}`clk` that makes {lit}`tx_clk` rise. -/
def Rises (s : UartTx) : Prop := s.txClkCtr = s.txBaud ∧ s.txClk = false

instance (s : UartTx) : Decidable s.Rises := inferInstanceAs (Decidable (_ ∧ _))

/-- One rising edge of {lit}`clk`.  The bit engine follows in the same cycle: it is clocked by
{lit}`tx_clk` and sees the registers that the edge of {lit}`clk` has written. -/
def step (s : UartTx) (csrIn : CsrChannelIn) (readAck : Bool) (readData : BitVec 8) : UartTx :=
  let s' := s.txClkGen (s.fsm csrIn readAck readData)
  if s.Rises then s'.bitEdge else s'

/-- The byte for which the edge starts the bit engine. -/
def loadedByte (s : UartTx) (readAck : Bool) (readData : BitVec 8) : Option (BitVec 8) :=
  if s.txState = .readmemWait ∧ s.readR = readAck then some readData else none

/-! ## One edge -/

section Edges

variable {s : UartTx} {csrIn : CsrChannelIn} {readAck : Bool} {readData : BitVec 8}

/-- The state machine leaves the divider and the bit engine alone. -/
theorem fsm_bits (s : UartTx) (csrIn : CsrChannelIn) (readAck : Bool) (readData : BitVec 8) :
    (s.fsm csrIn readAck readData).txClk = s.txClk ∧
      (s.fsm csrIn readAck readData).txClkCtr = s.txClkCtr ∧
      (s.fsm csrIn readAck readData).txdStartAck = s.txdStartAck ∧
      (s.fsm csrIn readAck readData).txdBitnr = s.txdBitnr := by
  unfold fsm
  cases s.txState with
  | idle =>
      dsimp only
      split
      · split
        · split <;> exact ⟨rfl, rfl, rfl, rfl⟩
        · split <;> exact ⟨rfl, rfl, rfl, rfl⟩
      · exact ⟨rfl, rfl, rfl, rfl⟩
  | running => dsimp only; split <;> exact ⟨rfl, rfl, rfl, rfl⟩
  | readmemWait => dsimp only; split <;> exact ⟨rfl, rfl, rfl, rfl⟩
  | txdWait => dsimp only; split <;> exact ⟨rfl, rfl, rfl, rfl⟩

/-- The bit number after an edge. -/
def nextBitnr (s : UartTx) (start : Bool) : BitVec 4 :=
  if s.Rises ∧ start ≠ s.txdStartAck then
    if s.txdBitnr = 0b0000#4 then 0b1001#4 else s.txdBitnr - 1#4
  else s.txdBitnr

/-- The acknowledge of the bit engine after an edge. -/
def nextStartAck (s : UartTx) (start : Bool) : Bool :=
  if s.Rises ∧ start ≠ s.txdStartAck ∧ s.txdBitnr = 0b0001#4 then !s.txdStartAck
  else s.txdStartAck

/-- The registers after an edge. -/
theorem step_eq (s : UartTx) (csrIn : CsrChannelIn) (readAck : Bool) (readData : BitVec 8) :
    s.step csrIn readAck readData =
      { s.fsm csrIn readAck readData with
        txClk := if s.txClkCtr = s.txBaud then !s.txClk else s.txClk
        txClkCtr := if s.txClkCtr = s.txBaud then 0#12 else s.txClkCtr + 1#12
        txdBitnr := s.nextBitnr (s.fsm csrIn readAck readData).txdStart
        txdStartAck := s.nextStartAck (s.fsm csrIn readAck readData).txdStart } := by
  obtain ⟨h1, -, h3, h4⟩ := s.fsm_bits csrIn readAck readData
  unfold step
  generalize s.fsm csrIn readAck readData = f at h1 h3 h4
  obtain ⟨baud, ctrl, len, pos, intr, clk, ctr, start, byte, bitnr, ack, st, r, addr⟩ := f
  simp only at h1 h3 h4
  subst h1 h3 h4
  by_cases hc : s.txClkCtr = s.txBaud
  · by_cases hrise : s.Rises
    · by_cases hs : start = s.txdStartAck
      · simp [txClkGen, bitEdge, nextBitnr, nextStartAck, hc, hrise, hs]
      · by_cases h0 : s.txdBitnr = 0#4
        · simp [txClkGen, bitEdge, nextBitnr, nextStartAck, hc, hrise, hs, h0]
        · simp [txClkGen, bitEdge, nextBitnr, nextStartAck, hc, hrise, hs, h0]
    · simp [txClkGen, nextBitnr, nextStartAck, hc, hrise]
  · have hrise : ¬ s.Rises := fun h => hc h.1
    simp [txClkGen, nextBitnr, nextStartAck, hc, hrise]

section Registers

variable (s csrIn readAck readData)

@[simp] theorem step_txState :
    (s.step csrIn readAck readData).txState = (s.fsm csrIn readAck readData).txState := by
  rw [step_eq]

@[simp] theorem step_txIntrToggle :
    (s.step csrIn readAck readData).txIntrToggle = (s.fsm csrIn readAck readData).txIntrToggle := by
  rw [step_eq]

@[simp] theorem step_txCtrl :
    (s.step csrIn readAck readData).txCtrl = (s.fsm csrIn readAck readData).txCtrl := by
  rw [step_eq]

@[simp] theorem step_txBufLen :
    (s.step csrIn readAck readData).txBufLen = (s.fsm csrIn readAck readData).txBufLen := by
  rw [step_eq]

@[simp] theorem step_txBufCurpos :
    (s.step csrIn readAck readData).txBufCurpos = (s.fsm csrIn readAck readData).txBufCurpos := by
  rw [step_eq]

@[simp] theorem step_readR :
    (s.step csrIn readAck readData).readR = (s.fsm csrIn readAck readData).readR := by
  rw [step_eq]

@[simp] theorem step_readAddr :
    (s.step csrIn readAck readData).readAddr = (s.fsm csrIn readAck readData).readAddr := by
  rw [step_eq]

@[simp] theorem step_txdStart :
    (s.step csrIn readAck readData).txdStart = (s.fsm csrIn readAck readData).txdStart := by
  rw [step_eq]

@[simp] theorem step_txdByte :
    (s.step csrIn readAck readData).txdByte = (s.fsm csrIn readAck readData).txdByte := by
  rw [step_eq]

/-- The bit number after an edge. -/
theorem step_txdBitnr :
    (s.step csrIn readAck readData).txdBitnr =
      s.nextBitnr (s.fsm csrIn readAck readData).txdStart := by
  rw [step_eq]

/-- The acknowledge of the bit engine after an edge. -/
theorem step_txdStartAck :
    (s.step csrIn readAck readData).txdStartAck =
      s.nextStartAck (s.fsm csrIn readAck readData).txdStart := by
  rw [step_eq]

end Registers

/-- Only a CSR write changes the baud register. -/
theorem fsm_txBaud (h : csrIn.csrOpValid = true → csrIn.csrOpReg ≠ csrRegUart0TxBaud) :
    (s.fsm csrIn readAck readData).txBaud = s.txBaud := by
  unfold fsm
  cases s.txState with
  | idle =>
      dsimp only
      split
      · rename_i hv
        split
        · split <;> rfl
        · rw [if_neg (h hv)]
      · rfl
  | running => dsimp only; split <;> rfl
  | readmemWait => dsimp only; split <;> rfl
  | txdWait => dsimp only; split <;> rfl

/-- While the bit engine has not answered, the state machine waits for it. -/
theorem fsm_of_started (hst : s.txState = .txdWait) (h : s.txdStart ≠ s.txdStartAck) :
    s.fsm csrIn readAck readData = s := by
  rw [fsm, hst]
  exact if_neg h

end Edges

/-! ## Bit times -/

/-- The divider is {lit}`φ` cycles after a rising edge of {lit}`tx_clk`. -/
structure Divider (s : UartTx) (B φ : ℕ) : Prop where
  baud : s.txBaud.toNat = B
  ctr : s.txClkCtr.toNat ≤ B
  phase : s.txClkCtr.toNat + (if s.txClk = true then 0 else B + 1) = φ

/-- The level of the line {lit}`τ` cycles after the beginning of the start bit. -/
def frameLevel (B : ℕ) (byte : BitVec 8) (τ : ℕ) : Bool :=
  match τ / (2 * (B + 1)) with
  | 0 => false
  | k + 1 => if k < 8 then byte.getLsbD k else true

section Timing

variable {s : UartTx} {csrIn : CsrChannelIn} {readAck : Bool} {readData : BitVec 8} {B φ τ : ℕ}
  {byte : BitVec 8}

/-- The comparison of counter and baud register. -/
theorem ctr_eq_baud_iff (s : UartTx) : s.txClkCtr = s.txBaud ↔ s.txClkCtr.toNat = s.txBaud.toNat :=
  BitVec.toNat_inj.symm

/-- The divider rises at the end of its period. -/
theorem Divider.rises_iff (h : s.Divider B φ) : s.Rises ↔ φ + 1 = 2 * (B + 1) := by
  obtain ⟨h1, h2, h3⟩ := h
  rw [Rises, ctr_eq_baud_iff, h1]
  cases hc : s.txClk with
  | true =>
      rw [hc, if_pos rfl] at h3
      simp only [Bool.true_eq_false, and_false, false_iff]
      omega
  | false =>
      rw [hc, if_neg Bool.false_ne_true] at h3
      simp only [and_true]
      omega

/-- The divider goes on. -/
theorem Divider.step (h : s.Divider B φ)
    (hbaud : csrIn.csrOpValid = true → csrIn.csrOpReg ≠ csrRegUart0TxBaud) :
    (s.step csrIn readAck readData).Divider B (if φ + 1 = 2 * (B + 1) then 0 else φ + 1) := by
  obtain ⟨h1, h2, h3⟩ := h
  have hlt := s.txBaud.isLt
  rw [step_eq]
  by_cases hc : s.txClkCtr = s.txBaud
  · have hctr := (ctr_eq_baud_iff s).mp hc
    refine ⟨by rw [← h1]; exact congrArg _ (fsm_txBaud hbaud), ?_, ?_⟩
    · simp [hc]
    · cases hclk : s.txClk with
      | true =>
          rw [hclk, if_pos rfl] at h3
          have hne : φ + 1 ≠ 2 * (B + 1) := by omega
          rw [if_neg hne]
          simp [hc]
          omega
      | false =>
          rw [hclk, if_neg Bool.false_ne_true] at h3
          have heq : φ + 1 = 2 * (B + 1) := by omega
          rw [if_pos heq]
          simp [hc]
  · have hctr : s.txClkCtr.toNat ≠ s.txBaud.toNat := fun hx => hc ((ctr_eq_baud_iff s).mpr hx)
    have hsucc : (s.txClkCtr + 1#12).toNat = s.txClkCtr.toNat + 1 := by
      rw [BitVec.toNat_add]
      change (s.txClkCtr.toNat + 1) % 4096 = _
      omega
    refine ⟨by rw [← h1]; exact congrArg _ (fsm_txBaud hbaud), ?_, ?_⟩
    · simp only [hc, if_false, hsucc]
      omega
    · have hne : φ + 1 ≠ 2 * (B + 1) := by
        split at h3 <;> omega
      simp only [hc, if_false, hsucc, if_neg hne]
      omega

/-- A rising edge of {lit}`tx_clk` begins a bit time. -/
theorem divider_of_rises (h : s.Rises) (h1 : s.txBaud.toNat = B)
    (hbaud : csrIn.csrOpValid = true → csrIn.csrOpReg ≠ csrRegUart0TxBaud) :
    (s.step csrIn readAck readData).Divider B 0 := by
  rw [step_eq]
  refine ⟨by rw [← h1]; exact congrArg _ (fsm_txBaud hbaud), ?_, ?_⟩
  · simp [h.1]
  · simp [h.1, h.2]

/-- The bit engine is {lit}`τ` cycles into the frame of a byte, before its stop bit. -/
structure Sending (s : UartTx) (B τ : ℕ) (byte : BitVec 8) : Prop where
  divider : s.Divider B (τ % (2 * (B + 1)))
  bitnr : s.txdBitnr.toNat + τ / (2 * (B + 1)) = 9
  before : τ < 9 * (2 * (B + 1))
  started : s.txdStart ≠ s.txdStartAck
  state : s.txState = .txdWait
  byte : s.txdByte = byte

/-- The line shows the frame. -/
theorem Sending.uartTx_eq (h : s.Sending B τ byte) : s.uartTx = frameLevel B byte τ := by
  have hb := h.bitnr
  have hlt : τ / (2 * (B + 1)) < 9 := Nat.div_lt_of_lt_mul (by have := h.before; omega)
  unfold uartTx frameLevel
  rw [h.byte]
  generalize τ / (2 * (B + 1)) = k at hb hlt
  have hn : s.txdBitnr.toNat = 9 - k := by omega
  rw [hn]
  interval_cases k <;> rfl

/-- Within a bit. -/
theorem succ_div_mod_of_lt {T : ℕ} (h : τ % T + 1 ≠ T) (hT : 0 < T) :
    (τ + 1) / T = τ / T ∧ (τ + 1) % T = τ % T + 1 := by
  have hlt := Nat.mod_lt τ hT
  have hmod : (τ + 1) % T = τ % T + 1 := by
    rw [← Nat.mod_add_mod]
    exact Nat.mod_eq_of_lt (by omega)
  refine ⟨?_, hmod⟩
  have h1 := Nat.div_add_mod τ T
  have h2 := Nat.div_add_mod (τ + 1) T
  have h3 : T * ((τ + 1) / T) = T * (τ / T) := by omega
  exact Nat.eq_of_mul_eq_mul_left hT h3

/-- At the end of a bit. -/
theorem succ_div_mod_of_eq {T : ℕ} (h : τ % T + 1 = T) (hT : 0 < T) :
    (τ + 1) / T = τ / T + 1 ∧ (τ + 1) % T = 0 := by
  have h1 := Nat.div_add_mod τ T
  have h2 : τ + 1 = T * (τ / T + 1) := by
    rw [Nat.mul_add, Nat.mul_one]
    omega
  rw [h2, Nat.mul_div_cancel_left _ hT, Nat.mul_mod_right]
  exact ⟨rfl, rfl⟩

/-- The bit engine goes on to the next cycle of the frame. -/
theorem Sending.step (h : s.Sending B τ byte) (hτ : τ + 1 < 9 * (2 * (B + 1)))
    (hbaud : csrIn.csrOpValid = true → csrIn.csrOpReg ≠ csrRegUart0TxBaud) :
    (s.step csrIn readAck readData).Sending B (τ + 1) byte := by
  have hfsm : s.fsm csrIn readAck readData = s := fsm_of_started h.state h.started
  have hdiv : (s.step csrIn readAck readData).Divider B
      (if τ % (2 * (B + 1)) + 1 = 2 * (B + 1) then 0 else τ % (2 * (B + 1)) + 1) :=
    h.divider.step hbaud
  have hrise := h.divider.rises_iff
  have hb := h.bitnr
  by_cases hedge : τ % (2 * (B + 1)) + 1 = 2 * (B + 1)
  · obtain ⟨hd, hm⟩ := succ_div_mod_of_eq hedge (by omega)
    have hlt : (τ + 1) / (2 * (B + 1)) < 9 := Nat.div_lt_of_lt_mul (by omega)
    rw [if_pos hedge] at hdiv
    have h0 : s.txdBitnr ≠ 0#4 := by
      intro hx
      rw [hx] at hb
      simp at hb
      omega
    have h1 : s.txdBitnr ≠ 1#4 := by
      intro hx
      rw [hx] at hb
      simp at hb
      omega
    have hbit : s.nextBitnr s.txdStart = s.txdBitnr - 1#4 := by
      rw [nextBitnr, if_pos ⟨hrise.mpr hedge, h.started⟩, if_neg h0]
    have hack : s.nextStartAck s.txdStart = s.txdStartAck := by
      rw [nextStartAck, if_neg (fun hx => h1 hx.2.2)]
    refine ⟨by rw [hm]; exact hdiv, ?_, hτ, ?_, ?_, ?_⟩
    · rw [step_eq, hfsm, hbit, hd]
      change (s.txdBitnr - 1#4).toNat + _ = 9
      have : (s.txdBitnr - 1#4).toNat = s.txdBitnr.toNat - 1 := by bv_omega
      omega
    · rw [step_eq, hfsm, hack]
      exact h.started
    · rw [step_eq, hfsm]
      exact h.state
    · rw [step_eq, hfsm]
      exact h.byte
  · obtain ⟨hd, hm⟩ := succ_div_mod_of_lt hedge (by omega)
    rw [if_neg hedge] at hdiv
    have hno : ¬ s.Rises := fun hx => hedge (hrise.mp hx)
    have hbit : s.nextBitnr s.txdStart = s.txdBitnr := by
      rw [nextBitnr, if_neg (fun hx => hno hx.1)]
    have hack : s.nextStartAck s.txdStart = s.txdStartAck := by
      rw [nextStartAck, if_neg (fun hx => hno hx.1)]
    refine ⟨by rw [hm]; exact hdiv, ?_, hτ, ?_, ?_, ?_⟩
    · rw [step_eq, hfsm, hbit, hd]
      exact hb
    · rw [step_eq, hfsm, hack]
      exact h.started
    · rw [step_eq, hfsm]
      exact h.state
    · rw [step_eq, hfsm]
      exact h.byte

/-- The bit engine shows no frame; a byte may wait for it. -/
structure Resting (s : UartTx) : Prop where
  bitnr : s.txdBitnr = 0#4
  waits : s.txdStart ≠ s.txdStartAck → s.txState = .txdWait

/-- The line is high between frames. -/
theorem Resting.uartTx_eq (h : s.Resting) : s.uartTx = true := by
  rw [uartTx, h.bitnr]
  rfl

/-- The last data bit is followed by the stop bit. -/
theorem Sending.finish (h : s.Sending B τ byte) (hτ : τ + 1 = 9 * (2 * (B + 1)))
    (hbaud : csrIn.csrOpValid = true → csrIn.csrOpReg ≠ csrRegUart0TxBaud) :
    (s.step csrIn readAck readData).Resting ∧ (s.step csrIn readAck readData).Divider B 0 ∧
      (s.step csrIn readAck readData).txdStart = (s.step csrIn readAck readData).txdStartAck := by
  have hfsm : s.fsm csrIn readAck readData = s := fsm_of_started h.state h.started
  have hmod : τ % (2 * (B + 1)) + 1 = 2 * (B + 1) := by
    have hτ' : τ = (2 * (B + 1) - 1) + 2 * (B + 1) * 8 := by omega
    rw [hτ', Nat.add_mul_mod_self_left, Nat.mod_eq_of_lt (by omega)]
    omega
  obtain ⟨hd, -⟩ := succ_div_mod_of_eq hmod (by omega)
  have h9 : (τ + 1) / (2 * (B + 1)) = 9 := by
    rw [hτ, Nat.mul_div_cancel _ (by omega)]
  have hrise := h.divider.rises_iff.mpr hmod
  have hone : s.txdBitnr = 1#4 := by
    apply BitVec.eq_of_toNat_eq
    have := h.bitnr
    change _ = 1
    omega
  have hbit : s.nextBitnr s.txdStart = 0#4 := by
    rw [nextBitnr, if_pos ⟨hrise, h.started⟩, hone]
    rfl
  have hack : s.nextStartAck s.txdStart = !s.txdStartAck := by
    rw [nextStartAck, if_pos ⟨hrise, h.started, hone⟩]
  have heq : (s.step csrIn readAck readData).txdStart =
      (s.step csrIn readAck readData).txdStartAck := by
    rw [step_eq, hfsm, hack]
    exact Bool.eq_not_of_ne h.started
  refine ⟨⟨?_, fun hne => absurd heq hne⟩, divider_of_rises hrise h.divider.baud hbaud, heq⟩
  rw [step_eq, hfsm, hbit]

/-- The byte that waits for the bit engine. -/
def waitingByte (s : UartTx) : List (BitVec 8) :=
  if s.txdStart ≠ s.txdStartAck then [s.txdByte] else []

/-- Between frames the state machine may hand over a byte. -/
theorem Resting.fsm (h : s.Resting) (csrIn : CsrChannelIn) (readAck : Bool) (readData : BitVec 8) :
    (s.fsm csrIn readAck readData).Resting ∧
      (s.fsm csrIn readAck readData).waitingByte =
        s.waitingByte ++ (s.loadedByte readAck readData).toList := by
  obtain ⟨-, -, hack, hbit⟩ := s.fsm_bits csrIn readAck readData
  by_cases hstart : s.txdStart = s.txdStartAck
  · by_cases hload : s.txState = .readmemWait ∧ s.readR = readAck
    · have hf : s.fsm csrIn readAck readData =
          { s with txdStart := !s.txdStart, txdByte := readData, txState := .txdWait } := by
        rw [UartTx.fsm, hload.1]
        exact if_pos hload.2
      refine ⟨⟨hbit.trans h.bitnr, fun _ => by rw [hf]⟩, ?_⟩
      rw [hf]
      simp [waitingByte, loadedByte, hload, hstart]
    · have hkeep : (s.fsm csrIn readAck readData).txdStart = s.txdStart := by
        unfold UartTx.fsm
        cases hst : s.txState with
        | idle =>
            dsimp only
            split
            · split
              · split <;> rfl
              · split <;> rfl
            · rfl
        | running => dsimp only; split <;> rfl
        | readmemWait =>
            dsimp only
            rw [if_neg (fun hx => hload ⟨hst, hx⟩)]
        | txdWait => dsimp only; split <;> rfl
      have hsame : (s.fsm csrIn readAck readData).txdStart =
          (s.fsm csrIn readAck readData).txdStartAck := by
        rw [hkeep, hack, hstart]
      refine ⟨⟨hbit.trans h.bitnr, fun hne => absurd hsame hne⟩, ?_⟩
      simp [waitingByte, loadedByte, hload, hstart, hsame]
  · have hst := h.waits hstart
    rw [fsm_of_started hst hstart]
    refine ⟨h, ?_⟩
    rw [loadedByte, if_neg (by rw [hst]; simp)]
    simp

/-- Between frames the line stays high, or the frame of the waiting byte begins. -/
theorem Resting.step (h : s.Resting) (hB : s.txBaud.toNat = B)
    (hbaud : csrIn.csrOpValid = true → csrIn.csrOpReg ≠ csrRegUart0TxBaud) :
    ((s.step csrIn readAck readData).Resting ∧
      (s.step csrIn readAck readData).waitingByte =
        s.waitingByte ++ (s.loadedByte readAck readData).toList ∧
      (s.Rises → s.waitingByte ++ (s.loadedByte readAck readData).toList = [])) ∨
    (s.Rises ∧ ∃ byte, (s.step csrIn readAck readData).Sending B 0 byte ∧
      s.waitingByte ++ (s.loadedByte readAck readData).toList = [byte]) := by
  obtain ⟨hrest, hwait⟩ := h.fsm csrIn readAck readData
  obtain ⟨-, -, hack, -⟩ := s.fsm_bits csrIn readAck readData
  rw [← hwait]
  by_cases hgo : s.Rises ∧ (s.fsm csrIn readAck readData).txdStart ≠ s.txdStartAck
  · right
    have hstart : (s.fsm csrIn readAck readData).txdStart ≠
        (s.fsm csrIn readAck readData).txdStartAck := by
      rw [hack]
      exact hgo.2
    have hbit : s.nextBitnr (s.fsm csrIn readAck readData).txdStart = 0b1001#4 := by
      rw [nextBitnr, if_pos hgo, if_pos h.bitnr]
    have hkeep : s.nextStartAck (s.fsm csrIn readAck readData).txdStart = s.txdStartAck := by
      rw [nextStartAck, if_neg (by rw [h.bitnr]; simp)]
    refine ⟨hgo.1, (s.fsm csrIn readAck readData).txdByte, ⟨?_, ?_, by omega, ?_, ?_, ?_⟩, ?_⟩
    · rw [Nat.zero_mod]
      exact divider_of_rises hgo.1 hB hbaud
    · rw [step_eq, hbit, Nat.zero_div]
      rfl
    · rw [step_eq, hkeep]
      exact hgo.2
    · rw [step_eq]
      exact hrest.waits hstart
    · rw [step_eq]
    · rw [waitingByte, if_pos hstart]
  · left
    have hbit : s.nextBitnr (s.fsm csrIn readAck readData).txdStart = s.txdBitnr := by
      rw [nextBitnr, if_neg hgo]
    have hkeep : s.nextStartAck (s.fsm csrIn readAck readData).txdStart = s.txdStartAck := by
      rw [nextStartAck, if_neg (fun hx => hgo ⟨hx.1, hx.2.1⟩)]
    refine ⟨⟨?_, ?_⟩, ?_, ?_⟩
    · rw [step_eq, hbit]
      exact h.bitnr
    · rw [step_eq, hkeep]
      intro hne
      exact hrest.waits (by rw [hack]; exact hne)
    · rw [step_eq, hkeep, waitingByte, waitingByte, hack]
    · intro hrise
      rw [waitingByte, hack, if_neg (fun hx => hgo ⟨hrise, hx⟩)]

/-- The number of cycles before the edge at which {lit}`tx_clk` rises next. -/
def untilRise (s : UartTx) : ℕ :=
  (s.txBaud - s.txClkCtr).toNat + if s.txClk = true then s.txBaud.toNat + 1 else 0

/-- The next rising edge comes nearer. -/
theorem untilRise_step (h : ¬ s.Rises)
    (hbaud : csrIn.csrOpValid = true → csrIn.csrOpReg ≠ csrRegUart0TxBaud) :
    (s.step csrIn readAck readData).untilRise < s.untilRise := by
  have hkeep : (s.fsm csrIn readAck readData).txBaud = s.txBaud := fsm_txBaud hbaud
  rw [step_eq]
  simp only [untilRise, hkeep]
  by_cases hc : s.txClkCtr = s.txBaud
  · have hclk : s.txClk = true := by
      by_contra hx
      exact h ⟨hc, Bool.eq_false_iff.mpr hx⟩
    simp [hc, hclk]
  · simp only [if_neg hc]
    have hdec : (s.txBaud - (s.txClkCtr + 1#12)).toNat < (s.txBaud - s.txClkCtr).toNat := by
      have hne : s.txClkCtr.toNat ≠ s.txBaud.toNat := fun hx => hc ((ctr_eq_baud_iff s).mpr hx)
      bv_omega
    omega

end Timing

end UartTx

end Sumeru
