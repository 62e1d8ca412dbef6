import Sumeru.Cpu.CsrDevices
import Sumeru.Uart.Receiver
import Sumeru.Uart.Transmitter

/-!
# Sumeru - Pure CSR reads

A CSRRS or CSRRC with {lit}`x0`, or with a zero immediate, writes back what it has read.  The
execute stage raises {lit}`csr_op_valid` for it as for any other access, so that it is up to the
blocks on the CSR bus whether the write can be seen.  This file runs the GPIO block, the timer
and the UART next to the execute stage and compares them with the same blocks when the strobe
of one read is left out.

Main results:

- Theorem {lit}`CsrBlocks.step_eq_iff`: when the write strobe of one edge makes no difference.
- Theorem {lit}`pure_read_invisible_iff`: the addresses and states at which a pure read leaves
  no trace.
-/

namespace Sumeru

/-! ## The blocks on the CSR bus -/

/-- The GPIO block, the timer and the two halves of the UART. -/
structure CsrBlocks where
  gpio : CsrGpio
  timer : CsrTimer
  uartRx : UartRx
  uartTx : UartTx
deriving DecidableEq

/-- What the blocks see in one cycle: the CSR channel, the answers of the DMA channel and the
serial line. -/
structure CsrBlocksInput where
  csrIn : CsrChannelIn
  writeAck : Bool
  readAck : Bool
  readData : BitVec 8
  uartRx : Bool

namespace CsrBlocks

def init : CsrBlocks := ⟨CsrGpio.init, CsrTimer.init, UartRx.init, UartTx.init⟩

/-- What the blocks drive on {lit}`csr_sel_result`; the baud registers cannot be read. -/
def csrSelResult (b : CsrBlocks) (pins : BitVec 32) (csrSelReg : BitVec 12) : Option (BitVec 32) :=
  if csrSelReg = csrRegUart0Rx then some b.uartRx.csrSelResult
  else if csrSelReg = csrRegUart0Tx then some b.uartTx.csrSelResult
  else (b.gpio.csrSelResult pins csrSelReg).or (b.timer.csrSelResult csrSelReg)

/-- One rising edge of {lit}`clk`. -/
def step (b : CsrBlocks) (i : CsrBlocksInput) : CsrBlocks where
  gpio := b.gpio.step i.csrIn
  timer := b.timer.step i.csrIn
  uartRx := b.uartRx.step i.csrIn i.writeAck i.uartRx
  uartTx := b.uartTx.step i.csrIn i.readAck i.readData

end CsrBlocks

/-- The CSR channel with its write strobe left out. -/
def CsrChannelIn.withoutStrobe (c : CsrChannelIn) : CsrChannelIn := { c with csrOpValid := false }

/-- The same for the inputs of the blocks. -/
def CsrBlocksInput.withoutStrobe (i : CsrBlocksInput) : CsrBlocksInput :=
  { i with csrIn := i.csrIn.withoutStrobe }

/-! ## The strobe of one edge -/

section Strobe

variable {c : CsrChannelIn} (hvalid : c.csrOpValid = true)

include hvalid

/-- When a write to the GPIO block is invisible. -/
theorem CsrGpio.step_eq_iff (g : CsrGpio) : g.step c = g.step c.withoutStrobe ↔
    (c.csrOpReg = csrRegGpioDir → c.csrOpData = g.regDir) ∧
      (c.csrOpReg = csrRegGpioOutput → c.csrOpData = g.regOutput) := by
  have hoff : g.step c.withoutStrobe = g := rfl
  obtain ⟨out, dir⟩ := g
  rw [hoff, CsrGpio.step, if_pos hvalid]
  by_cases h1 : c.csrOpReg = csrRegGpioDir
  · have hne : csrRegGpioDir ≠ csrRegGpioOutput := by decide
    simp [h1, hne]
  · by_cases h2 : c.csrOpReg = csrRegGpioOutput
    · have hne : csrRegGpioOutput ≠ csrRegGpioDir := by decide
      simp [h2, hne]
    · simp [h1, h2]

/-- A write to the timer restarts it. -/
theorem CsrTimer.step_eq_iff (m : CsrTimer) : m.step c = m.step c.withoutStrobe ↔
    (c.csrOpReg = csrRegTimerCtrl → c.csrOpData = m.timerCtrl ∧
      m.timerValue = 0xFFFFFFFF#32 ∧ m.intrTriggerR = false) := by
  by_cases h : c.csrOpReg = csrRegTimerCtrl
  · have hoff : ¬ (c.withoutStrobe.csrOpValid = true ∧
        c.withoutStrobe.csrOpReg = csrRegTimerCtrl) := fun hx => Bool.false_ne_true hx.1
    rw [CsrTimer.step, if_pos ⟨hvalid, h⟩, CsrTimer.step, if_neg hoff]
    simp only [h, forall_const, CsrTimer.mk.injEq]
    constructor
    · rintro ⟨hctrl, hvalue, hintr⟩
      refine ⟨hctrl, by bv_omega, ?_⟩
      exact (Bool.or_eq_false_iff.mp hintr.symm).2
    · rintro ⟨hctrl, hvalue, hintr⟩
      refine ⟨hctrl, by rw [hvalue]; rfl, ?_⟩
      have hne : (m.timerValue == m.timerMaxCount ++ 0b0000#4) = false := by
        rw [beq_eq_false_iff_ne, hvalue]
        intro hx
        have hlow := congrArg (BitVec.extractLsb' 0 4) hx
        rw [BitVec.extractLsb'_append_eq_right] at hlow
        exact absurd hlow (by decide)
      rw [hne, hintr, Bool.and_false]
      rfl
  · have hno : ∀ c' : CsrChannelIn, c'.csrOpReg = c.csrOpReg →
        ¬ (c'.csrOpValid = true ∧ c'.csrOpReg = csrRegTimerCtrl) :=
      fun c' hc hx => h (hc.symm.trans hx.2)
    rw [CsrTimer.step, if_neg (hno c rfl), CsrTimer.step, if_neg (hno c.withoutStrobe rfl)]
    simp [h]

/-- The receiver starts its buffer again unless bit 31 is set. -/
theorem UartRx.rxRegUpdate_eq_iff (u : UartRx) :
    u.rxRegUpdate c = u.rxRegUpdate c.withoutStrobe ↔
      (c.csrOpReg = csrRegUart0Rx → c.csrOpData.getLsbD 31 = true) ∧
        (c.csrOpReg = csrRegUart0RxBaud → c.csrOpData = u.rxBaudB ++ u.rxBaudA) := by
  have hoff : u.rxRegUpdate c.withoutStrobe = u := rfl
  rw [hoff, UartRx.rxRegUpdate, if_pos hvalid]
  by_cases h1 : c.csrOpReg = csrRegUart0Rx
  · have h2 : c.csrOpReg ≠ csrRegUart0RxBaud := by
      rw [h1]
      decide
    rw [if_pos h1]
    simp only [h1, forall_const, show csrRegUart0Rx ≠ csrRegUart0RxBaud by decide,
      IsEmpty.forall_iff, and_true]
    cases hb : c.csrOpData.getLsbD 31 with
    | false =>
        simp only [if_true, Bool.false_eq_true, iff_false]
        intro hx
        have := congrArg UartRx.rxResetCurpos hx
        simp at this
    | true => simp
  · rw [if_neg h1]
    by_cases h2 : c.csrOpReg = csrRegUart0RxBaud
    · rw [if_pos h2]
      simp only [h2, show csrRegUart0RxBaud ≠ csrRegUart0Rx by decide, IsEmpty.forall_iff,
        forall_const, true_and]
      constructor
      · intro hx
        have ha : c.csrOpData.extractLsb' 0 16 = u.rxBaudA := congrArg UartRx.rxBaudA hx
        have hb : c.csrOpData.extractLsb' 16 16 = u.rxBaudB := congrArg UartRx.rxBaudB hx
        rw [← ha, ← hb, BitVec.extractLsb'_append_extractLsb'_eq_extractLsb' (by rfl)]
        exact BitVec.extractLsb'_eq_self.symm
      · intro hx
        rw [hx, BitVec.extractLsb'_append_eq_right, BitVec.extractLsb'_append_eq_left]
    · simp [h1, h2]

/-- When a write to the receiver is invisible. -/
theorem UartRx.step_eq_iff (u : UartRx) (writeAck uartRx : Bool) :
    u.step c writeAck uartRx = u.step c.withoutStrobe writeAck uartRx ↔
      (c.csrOpReg = csrRegUart0Rx → c.csrOpData.getLsbD 31 = true) ∧
        (c.csrOpReg = csrRegUart0RxBaud → c.csrOpData = u.rxBaudB ++ u.rxBaudA) := by
  rw [UartRx.step, UartRx.step, UartRx.rxRegUpdate_eq_iff hvalid]
  obtain ⟨ha, hb⟩ := u.fsm_baud writeAck
  simp only [UartRx.shift, ha, hb]

/-- The transmitter starts a transfer unless it is busy or bit 31 is set. -/
theorem UartTx.step_eq_iff (s : UartTx) (readAck : Bool) (readData : BitVec 8) :
    s.step c readAck readData = s.step c.withoutStrobe readAck readData ↔
      (c.csrOpReg = csrRegUart0Tx → s.txState = .idle → c.csrOpData.getLsbD 31 = true) ∧
        (c.csrOpReg = csrRegUart0TxBaud → s.txState = .idle →
          c.csrOpData.extractLsb' 0 12 = s.txBaud) := by
  by_cases hidle : s.txState = .idle
  · have hoff : s.fsm c.withoutStrobe readAck readData = s := by
      rw [UartTx.fsm, hidle]
      rfl
    have hbaud : (s.step c.withoutStrobe readAck readData).txBaud = s.txBaud := by
      rw [UartTx.step_eq, hoff]
    have hstate : (s.step c.withoutStrobe readAck readData).txState = .idle := by
      rw [UartTx.step_txState, hoff, hidle]
    by_cases h1 : c.csrOpReg = csrRegUart0Tx
    · have hne : csrRegUart0Tx ≠ csrRegUart0TxBaud := by decide
      simp only [h1, hne, hidle, forall_const, IsEmpty.forall_iff, and_true]
      cases hb : c.csrOpData.getLsbD 31 with
      | true =>
          have hon : s.fsm c readAck readData = s := by
            simp [UartTx.fsm, hidle, hvalid, h1, hb]
          rw [UartTx.step_eq, UartTx.step_eq, hon, hoff]
          simp
      | false =>
          simp only [Bool.false_eq_true, iff_false]
          intro hx
          have hon : (s.step c readAck readData).txState = .running := by
            rw [UartTx.step_txState]
            simp only [UartTx.fsm, hidle, hvalid, h1, hb, if_true]
          rw [hx, hstate] at hon
          cases hon
    · by_cases h2 : c.csrOpReg = csrRegUart0TxBaud
      · have hne : csrRegUart0TxBaud ≠ csrRegUart0Tx := by decide
        have hon : s.fsm c readAck readData =
            { s with txBaud := c.csrOpData.extractLsb' 0 12 } := by
          simp [UartTx.fsm, hidle, hvalid, h2, hne]
        simp only [h2, hne, hidle, forall_const, IsEmpty.forall_iff, true_and]
        constructor
        · intro hx
          have := congrArg UartTx.txBaud hx
          rw [hbaud, UartTx.step_eq, hon] at this
          exact this
        · intro hx
          rw [hx] at hon
          rw [UartTx.step_eq, UartTx.step_eq, hon, hoff]
      · have hon : s.fsm c readAck readData = s := by
          simp [UartTx.fsm, hidle, hvalid, h1, h2]
        rw [UartTx.step_eq, UartTx.step_eq, hon, hoff]
        simp [h1, h2]
  · have hsame : s.fsm c readAck readData = s.fsm c.withoutStrobe readAck readData := by
      cases hs : s.txState with
      | idle => exact absurd hs hidle
      | running | readmemWait | txdWait => simp only [UartTx.fsm, hs]
    rw [UartTx.step_eq, UartTx.step_eq, hsame]
    simp [hidle]

/-- When the write strobe of an edge makes no difference to the blocks. -/
theorem CsrBlocks.step_eq_iff (b : CsrBlocks) {i : CsrBlocksInput} (hi : i.csrIn = c) :
    b.step i = b.step i.withoutStrobe ↔
      b.gpio.step c = b.gpio.step c.withoutStrobe ∧
        b.timer.step c = b.timer.step c.withoutStrobe ∧
        b.uartRx.step c i.writeAck i.uartRx =
          b.uartRx.step c.withoutStrobe i.writeAck i.uartRx ∧
        b.uartTx.step c i.readAck i.readData =
          b.uartTx.step c.withoutStrobe i.readAck i.readData := by
  subst hi
  rw [CsrBlocks.step, CsrBlocks.step, CsrBlocks.mk.injEq]
  rfl

end Strobe

/-! ## The execute stage with the blocks -/

/-- The execute stage with the blocks on its CSR bus. -/
structure CsrSystem where
  iexec : Iexec
  blocks : CsrBlocks

/-- Inputs of the system in one cycle.  The field {lit}`undriven` is what the bus shows when none
of the blocks drives it. -/
structure CsrSystemInput where
  idecode : Idecode
  dcacheHit : Bool
  dcacheReadData : BitVec 32
  dcacheWriteStrobe : Bool
  intrOut : IntrChannelOut
  pins : BitVec 32
  undriven : BitVec 32
  writeAck : Bool
  readAck : Bool
  readData : BitVec 8
  uartRx : Bool

namespace CsrSystem

variable (V : Megafunctions)

def init : CsrSystem := ⟨Iexec.init, CsrBlocks.init⟩

/-- What the execute stage sees in one cycle. -/
def iexecInput (s : CsrSystem) (i : CsrSystemInput) : IexecInput where
  iexecIn := i.idecode.iexecIn
  dcacheHit := i.dcacheHit
  dcacheReadData := i.dcacheReadData
  dcacheWriteStrobe := i.dcacheWriteStrobe
  csrBus := (s.blocks.csrSelResult i.pins s.iexec.csrIn.csrSelReg).getD i.undriven
  intrOut := i.intrOut

/-- What the blocks see in one cycle. -/
def blocksInput (s : CsrSystem) (i : CsrSystemInput) : CsrBlocksInput where
  csrIn := s.iexec.csrIn
  writeAck := i.writeAck
  readAck := i.readAck
  readData := i.readData
  uartRx := i.uartRx

/-- One rising edge of {lit}`clk`. -/
def step (s : CsrSystem) (i : CsrSystemInput) : CsrSystem where
  iexec := s.iexec.step V (s.iexecInput i)
  blocks := s.blocks.step (s.blocksInput i)

/-- The system before its {lit}`t`-th edge. -/
def run (inp : ℕ → CsrSystemInput) (t : ℕ) : CsrSystem := Clocked.run (step V) init inp t

/-- The inputs of the execute stage along a run. -/
def iexecInputs (inp : ℕ → CsrSystemInput) (t : ℕ) : IexecInput :=
  (run V inp t).iexecInput (inp t)

/-- The inputs of the blocks along a run. -/
def blocksInputs (inp : ℕ → CsrSystemInput) (t : ℕ) : CsrBlocksInput :=
  (run V inp t).blocksInput (inp t)

/-- The blocks along the run when the write strobe of edge {lit}`n` is left out and all else on
their inputs stays. -/
def withoutStrobeAt (inp : ℕ → CsrSystemInput) (n k : ℕ) : CsrBlocks :=
  Clocked.run CsrBlocks.step CsrBlocks.init
    (fun m => if m = n then (blocksInputs V inp m).withoutStrobe else blocksInputs V inp m) k

variable {V} {inp : ℕ → CsrSystemInput} {t : ℕ}

/-- The stage runs as on its own. -/
theorem run_iexec (t : ℕ) : (run V inp t).iexec = Iexec.run V (iexecInputs V inp) t := by
  induction t with
  | zero => rfl
  | succ t ih =>
      change (run V inp t).iexec.step V _ = (Iexec.run V (iexecInputs V inp) t).step V _
      rw [ih]
      rfl

/-- The blocks run as on their own. -/
theorem run_blocks (t : ℕ) :
    (run V inp t).blocks = Clocked.run CsrBlocks.step CsrBlocks.init (blocksInputs V inp) t := by
  induction t with
  | zero => rfl
  | succ t ih =>
      change (run V inp t).blocks.step _ = _
      rw [ih]
      rfl

/-- The strobe makes no difference in any later cycle exactly if it makes none at its edge. -/
theorem eq_withoutStrobeAt_iff (n : ℕ) :
    (∀ k, n + 1 ≤ k → (run V inp k).blocks = withoutStrobeAt V inp n k) ↔
      (run V inp n).blocks.step (blocksInputs V inp n) =
        (run V inp n).blocks.step (blocksInputs V inp n).withoutStrobe := by
  have hbefore : (run V inp n).blocks = withoutStrobeAt V inp n n := by
    rw [run_blocks]
    exact Clocked.run_eq_of_agree (Nat.zero_le n) rfl fun k _ hk => (if_neg hk.ne).symm
  have hoff : withoutStrobeAt V inp n (n + 1) =
      (run V inp n).blocks.step (blocksInputs V inp n).withoutStrobe := by
    rw [hbefore]
    exact congrArg (CsrBlocks.step _) (if_pos rfl)
  have hon : (run V inp (n + 1)).blocks = (run V inp n).blocks.step (blocksInputs V inp n) := rfl
  constructor
  · intro h
    rw [← hon, ← hoff]
    exact h (n + 1) le_rfl
  · intro h k hk
    rw [run_blocks]
    refine Clocked.run_eq_of_agree hk ?_ fun m hm _ => (if_neg (by omega)).symm
    rw [← run_blocks, hon, h]
    exact hoff.symm

/-- Bit 31 of the UART registers is never set. -/
theorem bit31_clear (t : ℕ) : (run V inp t).blocks.uartRx.csrSelResult.getLsbD 31 = false ∧
    (run V inp t).blocks.uartTx.csrSelResult.getLsbD 31 = false := by
  have hrx : ∀ u : UartRx, u.csrSelResult.getLsbD 31 = u.rxCtrl.getLsbD 23 := by
    intro u
    rw [UartRx.csrSelResult, BitVec.getLsbD_append]
    rfl
  have htx : ∀ u : UartTx, u.csrSelResult.getLsbD 31 = u.txCtrl.getLsbD 23 := by
    intro u
    rw [UartTx.csrSelResult, BitVec.getLsbD_append]
    rfl
  have hdata : ∀ d : BitVec 32, (d.extractLsb' 8 24).getLsbD 23 = d.getLsbD 31 := by
    intro d
    simp
  rw [hrx, htx]
  induction t with
  | zero =>
      exact ⟨show UartRx.init.rxCtrl.getLsbD 23 = false by decide,
        show UartTx.init.txCtrl.getLsbD 23 = false by decide⟩
  | succ t ih =>
      obtain ⟨ihrx, ihtx⟩ := ih
      constructor
      · change ((run V inp t).blocks.uartRx.step _ _ _).rxCtrl.getLsbD 23 = false
        rw [UartRx.step, UartRx.rxRegUpdate]
        have hkeep := ((run V inp t).blocks.uartRx.fsm_regs (inp t).writeAck).1
        rw [← hkeep] at ihrx
        split
        · split
          · split
            · rename_i hbit
              exact (hdata _).trans hbit
            · exact ihrx
          · split <;> exact ihrx
        · exact ihrx
      · change ((run V inp t).blocks.uartTx.step _ _ _).txCtrl.getLsbD 23 = false
        rw [UartTx.step_txCtrl, UartTx.fsm]
        cases (run V inp t).blocks.uartTx.txState with
        | idle =>
            dsimp only
            split
            · split
              · split
                · rename_i hbit
                  exact (hdata _).trans hbit
                · exact ihtx
              · split <;> exact ihtx
            · exact ihtx
        | running | readmemWait | txdWait =>
            dsimp only
            split <;> exact ihtx

/-- A CSRRS, CSRRC, CSRRSI or CSRRCI with a zero source field is accepted at edge {lit}`t`. -/
structure PureRead (V : Megafunctions) (inp : ℕ → CsrSystemInput) (t : ℕ) : Prop where
  accepts : (run V inp t).iexec.accepts ((run V inp t).iexecInput (inp t)) = true
  opcode : instOpcode (inp t).idecode.instR = opTypeCsr
  update : (instFunct3 (inp t).idecode.instR).getLsbD 1 = true
  source : instRs1 (inp t).idecode.instR = 0#5
  notSwitch : (inp t).idecode.instR.extractLsb' 20 12 ≠ csrRegSwitch

/-- The address that the instruction of edge {lit}`t` names. -/
def address (inp : ℕ → CsrSystemInput) (t : ℕ) : BitVec 12 :=
  (inp t).idecode.instR.extractLsb' 20 12

/-- Setting or clearing no bit changes nothing. -/
theorem csrUpdate_zero {op : BitVec 2} (h : op.getLsbD 1 = true) (old : BitVec 32) :
    csrUpdate op 0#32 old = old := by
  have hop : op = 0b10#2 ∨ op = 0b11#2 := by
    revert op
    decide
  rcases hop with rfl | rfl
  · simp [csrUpdate]
  · change 0xFFFFFFFF#32 &&& old = old
    exact BitVec.allOnes_and

/-- A pure read is accepted. -/
theorem PureRead.accepted (h : PureRead V inp t) :
    Iexec.CsrAccepted V (iexecInputs V inp) t := by
  constructor
  · rw [← run_iexec]
    exact h.accepts
  · have hcmd : (iexecInputs V inp t).iexecIn.cmd = .csr := by
      change (decodeCommand (inp t).idecode.instR).cmd = _
      rw [decodeCommand_of_csr h.opcode]
    rw [isCsrAccess, hcmd, Bool.and_eq_true, bne_iff_ne]
    exact ⟨rfl, h.notSwitch⟩

/-- A pure read writes back what it finds. -/
theorem PureRead.csrWritten_eq (h : PureRead V inp t) :
    Iexec.csrWritten V (iexecInputs V inp) t = Iexec.csrFound V (iexecInputs V inp) t := by
  have hop : (iexecInputs V inp t).iexecIn.cmdOp.extractLsb' 0 2 = _ := cmdOp_of_csr h.opcode
  have hoperand : Iexec.csrOperand V (Iexec.run V (iexecInputs V inp) t) (iexecInputs V inp t) =
      0#32 := by
    rw [Iexec.csrOperand_eq V h.accepted]
    refine (secondOperand_of_csr h.opcode _).trans ?_
    rw [csrSource, h.source]
    split
    · rfl
    · exact archRegs_zero V _
  rw [Iexec.csrWritten, hop, hoperand]
  refine csrUpdate_zero ?_ _
  have := h.update
  simpa using this

/-- The CSR channel at the edge of the write. -/
theorem PureRead.csrIn (h : PureRead V inp t) :
    (run V inp (t + 4)).iexec.csrIn.csrOpValid = true ∧
      (run V inp (t + 4)).iexec.csrIn.csrOpReg = address inp t ∧
      (run V inp (t + 4)).iexec.csrIn.csrOpData = Iexec.csrFound V (iexecInputs V inp) t := by
  obtain ⟨hvalid, hreg, hdata⟩ := Iexec.csrOp_of_accepted V h.accepted
  rw [run_iexec]
  exact ⟨hvalid, hreg, hdata.trans h.csrWritten_eq⟩

/-- The value found is what the blocks drive, one edge before. -/
theorem PureRead.csrFound_eq (h : PureRead V inp t) (hne : address inp t ≠ csrRegCtxPcsave) :
    Iexec.csrFound V (iexecInputs V inp) t =
      ((run V inp (t + 3)).blocks.csrSelResult (inp (t + 3)).pins (address inp t)).getD
        (inp (t + 3)).undriven := by
  have hsel := (Iexec.csrTimeline V h.accepted).last.selReg
  change _ = address inp t at hsel
  have hbus : (iexecInputs V inp (t + 3)).csrBus = ((run V inp (t + 3)).blocks.csrSelResult
      (inp (t + 3)).pins (run V inp (t + 3)).iexec.csrIn.csrSelReg).getD (inp (t + 3)).undriven :=
    rfl
  rw [Iexec.csrFound, Iexec.csrSelResult, hsel, if_neg hne, hbus, run_iexec, hsel]

/-- No write falls between the read and the write of an access. -/
theorem PureRead.quiet (h : PureRead V inp t) :
    (run V inp (t + 3)).iexec.csrIn.csrOpValid = false := by
  rw [run_iexec, Bool.eq_false_iff]
  intro hvalid
  obtain ⟨u, hu, hacc⟩ := (Iexec.csrOpValid_iff V).mp hvalid
  have := Iexec.CsrAccepted.le V hacc (show u < t by omega) h.accepted.1
  omega

/-- The plain registers are written back unchanged. -/
theorem PureRead.plain (h : PureRead V inp t) :
    (address inp t = csrRegGpioDir →
        Iexec.csrFound V (iexecInputs V inp) t = (run V inp (t + 4)).blocks.gpio.regDir) ∧
      (address inp t = csrRegGpioOutput →
        Iexec.csrFound V (iexecInputs V inp) t = (run V inp (t + 4)).blocks.gpio.regOutput) ∧
      (address inp t = csrRegTimerCtrl →
        Iexec.csrFound V (iexecInputs V inp) t = (run V inp (t + 4)).blocks.timer.timerCtrl) := by
  have hgpio : (run V inp (t + 4)).blocks.gpio = (run V inp (t + 3)).blocks.gpio := by
    change (run V inp (t + 3)).blocks.gpio.step (run V inp (t + 3)).iexec.csrIn = _
    simp [CsrGpio.step, h.quiet]
  have htimer : (run V inp (t + 4)).blocks.timer.timerCtrl =
      (run V inp (t + 3)).blocks.timer.timerCtrl := by
    change ((run V inp (t + 3)).blocks.timer.step (run V inp (t + 3)).iexec.csrIn).timerCtrl = _
    simp [CsrTimer.step, h.quiet]
  rw [hgpio, htimer]
  refine ⟨fun ha => ?_, fun ha => ?_, fun ha => ?_⟩
  all_goals
    rw [h.csrFound_eq (by rw [ha]; decide), ha]
    rfl

end CsrSystem

open CsrSystem

/-- When the write half of a pure read at an address leaves the blocks alone: the timer is not
restarted, the transmitter is busy, the undriven bus shows the baud settings. -/
def readLeavesNoTrace (a : BitVec 12) (undriven : BitVec 32) (b : CsrBlocks) : Prop :=
  (a = csrRegTimerCtrl → b.timer.timerValue = 0xFFFFFFFF#32 ∧ b.timer.intrTriggerR = false) ∧
    a ≠ csrRegUart0Rx ∧
    (a = csrRegUart0Tx → b.uartTx.txState ≠ .idle) ∧
    (a = csrRegUart0RxBaud → undriven = b.uartRx.rxBaudB ++ b.uartRx.rxBaudA) ∧
    (a = csrRegUart0TxBaud → b.uartTx.txState = .idle →
      undriven.extractLsb' 0 12 = b.uartTx.txBaud)

/-- Pure CSR reads.  A read accepted at edge {lit}`t` leaves the GPIO block, the timer and the UART
in every later cycle as they would be without its write strobe, unless it is of
{lit}`TIMER_CTRL`, {lit}`UART0_RX`, {lit}`UART0_TX` or a baud register; there it does exactly in
the states of {lit}`readLeavesNoTrace`. -/
theorem pure_read_invisible_iff (V : Megafunctions) (inp : ℕ → CsrSystemInput) {t : ℕ}
    (h : PureRead V inp t) :
    (∀ k, t + 5 ≤ k → (run V inp k).blocks = withoutStrobeAt V inp (t + 4) k) ↔
      readLeavesNoTrace (address inp t) (inp (t + 3)).undriven (run V inp (t + 4)).blocks := by
  obtain ⟨hvalid, hreg, hdata⟩ := h.csrIn
  obtain ⟨hdir, hout, hctrl⟩ := h.plain
  rw [eq_withoutStrobeAt_iff, CsrBlocks.step_eq_iff hvalid _ rfl, CsrGpio.step_eq_iff hvalid,
    CsrTimer.step_eq_iff hvalid, UartRx.step_eq_iff hvalid, UartTx.step_eq_iff hvalid, hreg, hdata]
  have hrx : address inp t = csrRegUart0Rx →
      (Iexec.csrFound V (iexecInputs V inp) t).getLsbD 31 = false := by
    intro ha
    rw [h.csrFound_eq (by rw [ha]; decide), ha]
    exact (bit31_clear (t + 3)).1
  have htx : address inp t = csrRegUart0Tx →
      (Iexec.csrFound V (iexecInputs V inp) t).getLsbD 31 = false := by
    intro ha
    rw [h.csrFound_eq (by rw [ha]; decide), ha]
    exact (bit31_clear (t + 3)).2
  have hbaud : address inp t = csrRegUart0RxBaud ∨ address inp t = csrRegUart0TxBaud →
      Iexec.csrFound V (iexecInputs V inp) t = (inp (t + 3)).undriven := by
    rintro (ha | ha) <;> rw [h.csrFound_eq (by rw [ha]; decide), ha] <;> rfl
  constructor
  · rintro ⟨-, htimer, ⟨hr, hrb⟩, ht, htb⟩
    refine ⟨fun ha => (htimer ha).2, fun ha => ?_, fun ha hidle => ?_, fun ha => ?_,
      fun ha hidle => ?_⟩
    · have := hr ha
      rw [hrx ha] at this
      cases this
    · have := ht ha hidle
      rw [htx ha] at this
      cases this
    · rw [← hbaud (.inl ha)]
      exact hrb ha
    · rw [← hbaud (.inr ha)]
      exact htb ha hidle
  · rintro ⟨htimer, hr, ht, hrb, htb⟩
    refine ⟨⟨hdir, hout⟩, fun ha => ⟨hctrl ha, htimer ha⟩, ⟨fun ha => absurd ha hr, fun ha => ?_⟩,
      fun ha hidle => absurd hidle (ht ha), fun ha hidle => ?_⟩
    · rw [hbaud (.inl ha)]
      exact hrb ha
    · rw [hbaud (.inr ha)]
      exact htb ha hidle

/-- One instruction word in the decode stage, on an idle serial line. -/
def readInput (inst : BitVec 32) (t : ℕ) : CsrSystemInput where
  idecode := ⟨0#32, inst, t = 0, false⟩
  dcacheHit := false
  dcacheReadData := 0#32
  dcacheWriteStrobe := false
  intrOut := ⟨false, 0#4⟩
  pins := 0#32
  undriven := 0#32
  writeAck := false
  readAck := false
  readData := 0#8
  uartRx := true

/-- {lit}`csrrs x1, TIMER_CTRL, x0` restarts the timer. -/
theorem pure_read_restarts_timer :
    PureRead .documented (readInput 0x884020F3#32) 0 ∧
      (run .documented (readInput 0x884020F3#32) 5).blocks.timer.timerValue = 0#32 ∧
      (withoutStrobeAt .documented (readInput 0x884020F3#32) 4 5).timer.timerValue = 5#32 :=
  ⟨⟨by decide, by decide, by decide, by decide, by decide⟩, by decide, by decide⟩

/-- {lit}`csrrwi x0, GPIO_DIR, 5` in the decode stage, and eight cycles later
{lit}`csrrs x1, GPIO_DIR, x0`. -/
def writeReadInput (t : ℕ) : CsrSystemInput :=
  { readInput 0x881020F3#32 t with
    idecode := ⟨0#32, if t < 8 then 0x8812D073#32 else 0x881020F3#32, t = 0 || t = 8, false⟩ }

/-- The read of a direction register that has been written leaves no trace. -/
theorem pure_read_invisible_gpioDir :
    PureRead .documented writeReadInput 8 ∧
      (run .documented writeReadInput 13).blocks.gpio.regDir = 5#32 ∧
      ∀ k, 13 ≤ k → (run .documented writeReadInput k).blocks =
        withoutStrobeAt .documented writeReadInput 12 k := by
  have hread : PureRead .documented writeReadInput 8 :=
    ⟨by decide +kernel, by decide, by decide, by decide, by decide⟩
  refine ⟨hread, by decide +kernel, (pure_read_invisible_iff .documented writeReadInput hread).mpr ?_⟩
  have haddr : address writeReadInput 8 = csrRegGpioDir := by decide
  rw [haddr]
  refine ⟨fun ha => ?_, by decide, fun ha => ?_, fun ha => ?_, fun ha => ?_⟩
  all_goals exact absurd ha (by decide)

end Sumeru
