import Sumeru.Cpu.Types

/-!
# Sumeru - UART receiver

The receive half of {lit}`csr_uart_rs232`: the register {lit}`UART0_RX` with its toggle
{lit}`rx_reset_curpos`, the shift registers on the serial line and the state machine that
hands each received byte to the DMA channel.

Main results:

- Theorem {lit}`UartRx.fsm_effect`: the five ways in which a clock edge changes the position in
  the receive buffer and the DMA request.
-/

namespace Sumeru

/-- The states of the receiver. -/
inductive RxdState where
  | idle | running | checkStopbit | memWait | waitStopbit
deriving DecidableEq, Repr

/-- Registers of the receive half of {lit}`csr_uart_rs232`. -/
structure UartRx where
  rxCtrl : BitVec 24
  rxBufLen : BitVec 8
  rxResetCurpos : Bool
  rxBaudA : BitVec 16
  rxBaudB : BitVec 16
  rxShregData : BitVec 16
  rxDataregClk : Bool
  rxDataregData : BitVec 8
  rxdState : RxdState
  rxCounter : BitVec 16
  rxBitnr : BitVec 4
  rxBufCurpos : BitVec 8
  rxResetCurposAck : Bool
  rxIntrToggle : Bool
  writeR : Bool
  writeAddr : BitVec 25
  writeData : BitVec 8
deriving DecidableEq

namespace UartRx

/-- Power-up contents with the default baud settings; the reset sets the line's shift
register to ones. -/
def init : UartRx where
  rxCtrl := 0#24
  rxBufLen := 0#8
  rxResetCurpos := false
  rxBaudA := 0x03C2#16
  rxBaudB := 0x028C#16
  rxShregData := 0xFFFF#16
  rxDataregClk := false
  rxDataregData := 0#8
  rxdState := .idle
  rxCounter := 0#16
  rxBitnr := 0#4
  rxBufCurpos := 0#8
  rxResetCurposAck := false
  rxIntrToggle := false
  writeR := false
  writeAddr := 0#25
  writeData := 0#8

/-- The value of {lit}`csr_sel_result` for {lit}`CSR_REG_UART0_RX`. -/
def csrSelResult (u : UartRx) : BitVec 32 := u.rxCtrl ++ u.rxBufCurpos

/-- The process {lit}`rx_reg_update`.  A write with bit 31 set only reads. -/
def rxRegUpdate (u : UartRx) (csrIn : CsrChannelIn) : UartRx :=
  if csrIn.csrOpValid = true then
    if csrIn.csrOpReg = csrRegUart0Rx then
      if csrIn.csrOpData.getLsbD 31 = false then
        { u with
          rxCtrl := csrIn.csrOpData.extractLsb' 8 24
          rxBufLen := csrIn.csrOpData.extractLsb' 0 8
          rxResetCurpos := !u.rxResetCurpos }
      else u
    else if csrIn.csrOpReg = csrRegUart0RxBaud then
      { u with
        rxBaudA := csrIn.csrOpData.extractLsb' 0 16
        rxBaudB := csrIn.csrOpData.extractLsb' 16 16 }
    else u
  else u

/-- A byte with a good stop bit: it goes to the buffer position, or to the start of the
buffer when a new position has been asked for. -/
def storeByte (u : UartRx) : UartRx :=
  if u.rxResetCurpos ≠ u.rxResetCurposAck then
    if u.rxBufLen ≠ 0#8 then
      { u with
        writeData := u.rxDataregData
        rxResetCurposAck := !u.rxResetCurposAck
        writeAddr := u.rxCtrl.extractLsb' 0 17 ++ 0#8
        writeR := !u.writeR
        rxdState := .memWait
        rxBufCurpos := 1#8 }
    else
      { u with
        writeData := u.rxDataregData
        rxResetCurposAck := !u.rxResetCurposAck
        writeAddr := u.rxCtrl.extractLsb' 0 17 ++ 0#8
        rxBufCurpos := 0#8
        rxdState := .idle }
  else if u.rxBufCurpos ≠ u.rxBufLen then
    { u with
      writeData := u.rxDataregData
      writeAddr := u.rxCtrl.extractLsb' 0 17 ++ u.rxBufCurpos
      rxBufCurpos := u.rxBufCurpos + 1#8
      writeR := !u.writeR
      rxdState := .memWait }
  else
    { u with
      writeData := u.rxDataregData
      writeAddr := u.rxCtrl.extractLsb' 0 17 ++ u.rxBufCurpos
      rxdState := .idle }

/-- The state {lit}`RXD_IDLE`: a new buffer position is taken over, and a start bit is
looked for. -/
def idleEdge (u : UartRx) : UartRx :=
  let v :=
    if u.rxResetCurpos ≠ u.rxResetCurposAck then
      { u with rxResetCurposAck := !u.rxResetCurposAck, rxBufCurpos := 0#8 }
    else u
  if u.rxShregData = 0x0000#16 then
    { v with rxCounter := u.rxBaudA, rxdState := .running, rxBitnr := 0#4 }
  else v

/-- The states of the process, after its default assignment. -/
def stateEdge (u : UartRx) (writeAck : Bool) : UartRx :=
  match u.rxdState with
  | .idle => u.idleEdge
  | .running =>
      if u.rxCounter = 0#16 then
        { u with
          rxDataregClk := true
          rxCounter := u.rxBaudB
          rxBitnr := u.rxBitnr + 1#4
          rxdState := if u.rxBitnr = 0b0111#4 then .checkStopbit else .running }
      else { u with rxCounter := u.rxCounter - 1#16 }
  | .checkStopbit =>
      if u.rxCounter = 0#16 then
        if u.rxShregData = 0xFFFF#16 then u.storeByte else { u with rxdState := .waitStopbit }
      else { u with rxCounter := u.rxCounter - 1#16 }
  | .memWait =>
      if u.writeR = writeAck then
        { u with
          rxIntrToggle := if u.rxBufCurpos = u.rxBufLen then !u.rxIntrToggle else u.rxIntrToggle
          rxdState := .idle }
      else u
  | .waitStopbit => if u.rxShregData = 0xFFFF#16 then { u with rxdState := .idle } else u

/-- The process of the state machine. -/
def fsm (u : UartRx) (writeAck : Bool) : UartRx :=
  ({ u with rxDataregClk := false } : UartRx).stateEdge writeAck

/-- The shift registers on the serial line; the data register is clocked by
{lit}`rx_datareg_clk`. -/
def shift (u u' : UartRx) (uartRx : Bool) : UartRx :=
  { u' with
    rxShregData := BitVec.ofBool uartRx ++ u.rxShregData.extractLsb' 1 15
    rxDataregData :=
      if u.rxDataregClk = false ∧ u'.rxDataregClk = true then
        BitVec.ofBool uartRx ++ u.rxDataregData.extractLsb' 1 7
      else u.rxDataregData }

/-- One rising edge of {lit}`clk`. -/
def step (u : UartRx) (csrIn : CsrChannelIn) (writeAck uartRx : Bool) : UartRx :=
  (u.shift (u.fsm writeAck) uartRx).rxRegUpdate csrIn

/-- The asynchronous set of {lit}`rx_shreg`. -/
def aset (u : UartRx) (reset : Bool) : UartRx :=
  if reset then { u with rxShregData := 0xFFFF#16 } else u

/-- The byte that the edge hands to the DMA channel. -/
def storedByte (u : UartRx) (writeAck : Bool) : Option (BitVec 8) :=
  if (u.fsm writeAck).writeR ≠ u.writeR then some u.rxDataregData else none

/-! ## Effect of one edge -/

/-- What an edge of the state machine does to position, DMA request and interrupt. -/
inductive Effect (u v : UartRx) (writeAck : Bool) : Prop where
  | rest (hack : v.rxResetCurposAck = u.rxResetCurposAck) (hpos : v.rxBufCurpos = u.rxBufCurpos)
      (hreq : v.writeR = u.writeR) (hst : v.rxdState = .memWait ↔ u.rxdState = .memWait)
      (hintr : v.rxIntrToggle = u.rxIntrToggle)
      (hdata : u.rxdState = .memWait → v.writeAddr = u.writeAddr ∧ v.writeData = u.writeData)
  | restart (hopen : u.rxResetCurpos ≠ u.rxResetCurposAck) (hst : u.rxdState ≠ .memWait)
      (hack : v.rxResetCurposAck = u.rxResetCurpos) (hpos : v.rxBufCurpos = 0#8)
      (hreq : v.writeR = u.writeR) (hst' : v.rxdState ≠ .memWait)
      (hintr : v.rxIntrToggle = u.rxIntrToggle)
  | first (hopen : u.rxResetCurpos ≠ u.rxResetCurposAck) (hst : u.rxdState ≠ .memWait)
      (hlen : u.rxBufLen ≠ 0#8)
      (hack : v.rxResetCurposAck = u.rxResetCurpos) (hpos : v.rxBufCurpos = 1#8)
      (hreq : v.writeR = !u.writeR) (hst' : v.rxdState = .memWait)
      (hintr : v.rxIntrToggle = u.rxIntrToggle)
      (haddr : v.writeAddr = u.rxCtrl.extractLsb' 0 17 ++ 0#8)
      (hdata : v.writeData = u.rxDataregData)
  | next (hclosed : u.rxResetCurpos = u.rxResetCurposAck) (hst : u.rxdState ≠ .memWait)
      (hroom : u.rxBufCurpos ≠ u.rxBufLen)
      (hack : v.rxResetCurposAck = u.rxResetCurposAck) (hpos : v.rxBufCurpos = u.rxBufCurpos + 1#8)
      (hreq : v.writeR = !u.writeR) (hst' : v.rxdState = .memWait)
      (hintr : v.rxIntrToggle = u.rxIntrToggle)
      (haddr : v.writeAddr = u.rxCtrl.extractLsb' 0 17 ++ u.rxBufCurpos)
      (hdata : v.writeData = u.rxDataregData)
  | done (hst : u.rxdState = .memWait) (hwritten : u.writeR = writeAck)
      (hack : v.rxResetCurposAck = u.rxResetCurposAck) (hpos : v.rxBufCurpos = u.rxBufCurpos)
      (hreq : v.writeR = u.writeR) (hst' : v.rxdState ≠ .memWait)
      (hintr : v.rxIntrToggle =
        if u.rxBufCurpos = u.rxBufLen then !u.rxIntrToggle else u.rxIntrToggle)

/-- The registers of {lit}`rx_reg_update` are not touched by the state machine. -/
theorem stateEdge_regs (u : UartRx) (writeAck : Bool) :
    (u.stateEdge writeAck).rxCtrl = u.rxCtrl ∧ (u.stateEdge writeAck).rxBufLen = u.rxBufLen ∧
      (u.stateEdge writeAck).rxResetCurpos = u.rxResetCurpos := by
  cases hs : u.rxdState <;> simp only [stateEdge, hs]
  case idle =>
    unfold idleEdge
    split <;> split <;> exact ⟨rfl, rfl, rfl⟩
  case running => split <;> exact ⟨rfl, rfl, rfl⟩
  case checkStopbit =>
    split
    · split
      · unfold storeByte
        split <;> split <;> exact ⟨rfl, rfl, rfl⟩
      · exact ⟨rfl, rfl, rfl⟩
    · exact ⟨rfl, rfl, rfl⟩
  case memWait => split <;> exact ⟨rfl, rfl, rfl⟩
  case waitStopbit => split <;> exact ⟨rfl, rfl, rfl⟩

/-- The state machine leaves the registers alone. -/
theorem fsm_regs (u : UartRx) (writeAck : Bool) :
    (u.fsm writeAck).rxCtrl = u.rxCtrl ∧ (u.fsm writeAck).rxBufLen = u.rxBufLen ∧
      (u.fsm writeAck).rxResetCurpos = u.rxResetCurpos :=
  stateEdge_regs _ writeAck

/-- The state machine leaves the baud registers alone. -/
theorem fsm_baud (u : UartRx) (writeAck : Bool) :
    (u.fsm writeAck).rxBaudA = u.rxBaudA ∧ (u.fsm writeAck).rxBaudB = u.rxBaudB := by
  unfold fsm stateEdge
  cases hs : u.rxdState <;> dsimp only
  case idle =>
    unfold idleEdge
    dsimp only
    split <;> split <;> exact ⟨rfl, rfl⟩
  case running => split <;> exact ⟨rfl, rfl⟩
  case checkStopbit =>
    split
    · split
      · unfold storeByte
        split <;> split <;> exact ⟨rfl, rfl⟩
      · exact ⟨rfl, rfl⟩
    · exact ⟨rfl, rfl⟩
  case memWait => split <;> exact ⟨rfl, rfl⟩
  case waitStopbit => split <;> exact ⟨rfl, rfl⟩

/-- The effect of waiting. -/
theorem Effect.of_idleEdge (u : UartRx) (hs : u.rxdState = .idle) (writeAck : Bool) :
    Effect u u.idleEdge writeAck := by
  have hst : u.rxdState ≠ .memWait := by
    rw [hs]
    decide
  by_cases hopen : u.rxResetCurpos = u.rxResetCurposAck
  · by_cases hstart : u.rxShregData = 0#16
    · refine .rest ?_ ?_ ?_ ?_ ?_ (fun h => absurd h hst) <;> simp [idleEdge, hopen, hstart, hs]
    · refine .rest ?_ ?_ ?_ ?_ ?_ (fun h => absurd h hst) <;> simp [idleEdge, hopen, hstart]
  · have hflip : (!u.rxResetCurposAck) = u.rxResetCurpos := (Bool.eq_not_of_ne hopen).symm
    by_cases hstart : u.rxShregData = 0#16
    · refine .restart hopen hst ?_ ?_ ?_ ?_ ?_ <;> simp [idleEdge, hopen, hstart, hflip]
    · refine .restart hopen hst ?_ ?_ ?_ ?_ ?_ <;> simp [idleEdge, hopen, hstart, hflip, hs]

/-- The effect of a good stop bit. -/
theorem Effect.of_storeByte (u : UartRx) (hs : u.rxdState = .checkStopbit) (writeAck : Bool) :
    Effect u u.storeByte writeAck := by
  have hst : u.rxdState ≠ .memWait := by
    rw [hs]
    decide
  by_cases hopen : u.rxResetCurpos = u.rxResetCurposAck
  · by_cases hroom : u.rxBufCurpos = u.rxBufLen
    · refine .rest ?_ ?_ ?_ ?_ ?_ (fun h => absurd h hst) <;> simp [storeByte, hopen, hroom, hs]
    · refine .next hopen hst hroom ?_ ?_ ?_ ?_ ?_ ?_ ?_ <;> simp [storeByte, hopen, hroom]
  · have hflip : (!u.rxResetCurposAck) = u.rxResetCurpos := (Bool.eq_not_of_ne hopen).symm
    by_cases hlen : u.rxBufLen = 0#8
    · refine .restart hopen hst ?_ ?_ ?_ ?_ ?_ <;> simp [storeByte, hopen, hlen, hflip]
    · refine .first hopen hst hlen ?_ ?_ ?_ ?_ ?_ ?_ ?_ <;> simp [storeByte, hopen, hlen, hflip]

/-- Only the registers named in an effect matter. -/
theorem Effect.congr {u u' v v' : UartRx} {writeAck : Bool} (h : Effect u v writeAck)
    (hu : u' = { u with rxDataregClk := u'.rxDataregClk })
    (hv : v'.rxResetCurposAck = v.rxResetCurposAck ∧ v'.rxBufCurpos = v.rxBufCurpos ∧
      v'.writeR = v.writeR ∧ v'.rxdState = v.rxdState ∧ v'.rxIntrToggle = v.rxIntrToggle ∧
      v'.writeAddr = v.writeAddr ∧ v'.writeData = v.writeData) : Effect u' v' writeAck := by
  rw [hu]
  obtain ⟨h1, h2, h3, h4, h5, h6, h7⟩ := hv
  cases h with
  | rest g1 g2 g3 g4 g5 g6 =>
      refine .rest (h1.trans g1) (h2.trans g2) (h3.trans g3) ?_ (h5.trans g5) (fun hst => ?_)
      · rw [h4]
        exact g4
      · rw [h6, h7]
        exact g6 hst
  | restart g1 g2 g3 g4 g5 g6 g7 =>
      exact .restart g1 g2 (h1.trans g3) (h2.trans g4) (h3.trans g5) (by rw [h4]; exact g6) (h5.trans g7)
  | first g1 g2 g3 g4 g5 g6 g7 g8 g9 g10 =>
      exact .first g1 g2 g3 (h1.trans g4) (h2.trans g5) (h3.trans g6) (h4.trans g7) (h5.trans g8)
        (h6.trans g9) (h7.trans g10)
  | next g1 g2 g3 g4 g5 g6 g7 g8 g9 g10 =>
      exact .next g1 g2 g3 (h1.trans g4) (h2.trans g5) (h3.trans g6) (h4.trans g7) (h5.trans g8)
        (h6.trans g9) (h7.trans g10)
  | done g1 g2 g3 g4 g5 g6 g7 =>
      exact .done g1 g2 (h1.trans g3) (h2.trans g4) (h3.trans g5) (by rw [h4]; exact g6) (h5.trans g7)

/-- The effect of a state. -/
theorem stateEdge_effect (u : UartRx) (writeAck : Bool) :
    Effect u (u.stateEdge writeAck) writeAck := by
  cases hs : u.rxdState <;> simp only [stateEdge, hs]
  case idle => exact Effect.of_idleEdge u hs writeAck
  case running =>
    split
    · refine .rest rfl rfl rfl ?_ rfl (fun _ => ⟨rfl, rfl⟩)
      simp only [hs]
      split <;> simp
    · exact .rest rfl rfl rfl (by simp [hs]) rfl (fun _ => ⟨rfl, rfl⟩)
  case checkStopbit =>
    split
    · split
      · exact Effect.of_storeByte u hs writeAck
      · exact .rest rfl rfl rfl (by simp [hs]) rfl (fun _ => ⟨rfl, rfl⟩)
    · exact .rest rfl rfl rfl (by simp [hs]) rfl (fun _ => ⟨rfl, rfl⟩)
  case memWait =>
    split
    · rename_i hw
      exact .done hs hw rfl rfl rfl (fun h => by cases h) rfl
    · exact .rest rfl rfl rfl (by simp [hs]) rfl (fun _ => ⟨rfl, rfl⟩)
  case waitStopbit =>
    split
    · exact .rest rfl rfl rfl (by simp [hs]) rfl (fun _ => ⟨rfl, rfl⟩)
    · exact .rest rfl rfl rfl (by simp [hs]) rfl (fun _ => ⟨rfl, rfl⟩)

/-- The effect of an edge. -/
theorem fsm_effect (u : UartRx) (writeAck : Bool) : Effect u (u.fsm writeAck) writeAck := by
  have h := stateEdge_effect { u with rxDataregClk := false } writeAck
  exact h.congr rfl ⟨rfl, rfl, rfl, rfl, rfl, rfl, rfl⟩

/-- The register update leaves the state machine alone. -/
theorem step_effect (u : UartRx) (csrIn : CsrChannelIn) (writeAck uartRx : Bool) :
    Effect u (u.step csrIn writeAck uartRx) writeAck := by
  refine Effect.congr (u.fsm_effect writeAck) rfl ?_
  unfold step rxRegUpdate
  split
  · split
    · split <;> exact ⟨rfl, rfl, rfl, rfl, rfl, rfl, rfl⟩
    · split <;> exact ⟨rfl, rfl, rfl, rfl, rfl, rfl, rfl⟩
  · exact ⟨rfl, rfl, rfl, rfl, rfl, rfl, rfl⟩

/-- The byte handed over, by effect. -/
theorem storedByte_eq (u : UartRx) (csrIn : CsrChannelIn) (writeAck uartRx : Bool) :
    u.storedByte writeAck =
      if (u.step csrIn writeAck uartRx).writeR = u.writeR then none else some u.rxDataregData := by
  have hw : (u.step csrIn writeAck uartRx).writeR = (u.fsm writeAck).writeR := by
    unfold step rxRegUpdate
    split
    · split
      · split <;> rfl
      · split <;> rfl
    · rfl
  rw [hw, storedByte]
  by_cases h : (u.fsm writeAck).writeR = u.writeR <;> simp [h]

/-- Without a write to {lit}`UART0_RX`, or with one that has bit 31 set, its registers
rest. -/
theorem step_regs (u : UartRx) {csrIn : CsrChannelIn}
    (hcsr : csrIn.csrOpValid = true → csrIn.csrOpReg = csrRegUart0Rx →
      csrIn.csrOpData.getLsbD 31 = true) (writeAck uartRx : Bool) :
    (u.step csrIn writeAck uartRx).rxCtrl = u.rxCtrl ∧
      (u.step csrIn writeAck uartRx).rxBufLen = u.rxBufLen ∧
      (u.step csrIn writeAck uartRx).rxResetCurpos = u.rxResetCurpos := by
  obtain ⟨h1, h2, h3⟩ := u.fsm_regs writeAck
  unfold step rxRegUpdate
  split
  · rename_i hv
    split
    · rename_i hr
      rw [hcsr hv hr]
      exact ⟨h1, h2, h3⟩
    · split <;> exact ⟨h1, h2, h3⟩
  · exact ⟨h1, h2, h3⟩

/-- A write to {lit}`UART0_RX` with bit 31 clear asks for a new position. -/
theorem step_regs_of_write (u : UartRx) {csrIn : CsrChannelIn} (hv : csrIn.csrOpValid = true)
    (hreg : csrIn.csrOpReg = csrRegUart0Rx) (hbit : csrIn.csrOpData.getLsbD 31 = false)
    (writeAck uartRx : Bool) :
    (u.step csrIn writeAck uartRx).rxCtrl = csrIn.csrOpData.extractLsb' 8 24 ∧
      (u.step csrIn writeAck uartRx).rxBufLen = csrIn.csrOpData.extractLsb' 0 8 ∧
      (u.step csrIn writeAck uartRx).rxResetCurpos = !u.rxResetCurpos := by
  obtain ⟨-, -, h3⟩ := u.fsm_regs writeAck
  unfold step rxRegUpdate
  rw [if_pos hv, if_pos hreg, if_pos hbit]
  refine ⟨rfl, rfl, ?_⟩
  rw [← h3]
  rfl

end UartRx

end Sumeru
