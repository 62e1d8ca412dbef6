import Sumeru.Uart.UartDma

/-!
# Sumeru - Transmit engine

A write to {lit}`UART0_TX` starts a transfer of up to 255 bytes.  The state machine asks for a byte,
starts the bit engine with it and waits until the last data bit is over; the bit engine shows the
byte from the next rising edge of {lit}`tx_clk` on.  The stop bit is not waited for: it is the time
up to the rising edge after it, at which the next frame can begin at the earliest.

Main results:

- Theorem {lit}`UartUnit.frame_of_running`: one byte of a transfer.
- Theorem {lit}`uart_transmits`: the frames and the interrupt of a transfer.
-/

namespace Sumeru

namespace UartTx

variable {s : UartTx} {csrIn : CsrChannelIn} {readAck : Bool} {readData : BitVec 8} {B τ : ℕ}
  {byte : BitVec 8}

/-! ## CSR writes -/

/-- A new baud setting is taken. -/
def WritesBaud (s : UartTx) (csrIn : CsrChannelIn) : Prop :=
  s.txState = .idle ∧ csrIn.csrOpValid = true ∧ csrIn.csrOpReg = csrRegUart0TxBaud

/-- Outside {lit}`TX_IDLE` nobody looks at the CSR channel. -/
theorem step_of_busy (h : s.txState ≠ .idle) (csrIn csrIn' : CsrChannelIn) (readAck : Bool)
    (readData : BitVec 8) : s.step csrIn readAck readData = s.step csrIn' readAck readData := by
  have hfsm : s.fsm csrIn readAck readData = s.fsm csrIn' readAck readData := by
    unfold fsm
    cases hst : s.txState with
    | idle => exact absurd hst h
    | running => rfl
    | readmemWait => rfl
    | txdWait => rfl
  rw [step, step, hfsm]

/-- An edge that does not take a new baud setting is one without a write to it. -/
theorem exists_csrIn (h : ¬ s.WritesBaud csrIn) : ∃ c : CsrChannelIn,
    (c.csrOpValid = true → c.csrOpReg ≠ csrRegUart0TxBaud) ∧
      ∀ readAck readData, s.step csrIn readAck readData = s.step c readAck readData := by
  by_cases hst : s.txState = .idle
  · exact ⟨csrIn, fun hv hreg => h ⟨hst, hv, hreg⟩, fun _ _ => rfl⟩
  · exact ⟨⟨0#12, 0#2, false, 0#12, 0#32⟩, fun hv => Bool.noConfusion hv,
      fun _ _ => step_of_busy hst _ _ _ _⟩

/-- The baud rate is fixed during a transfer. -/
theorem not_writesBaud (h : s.txState ≠ .idle) : ¬ s.WritesBaud csrIn := fun hx => h hx.1

/-! ## The bit engine between transfers -/

/-- The bit engine works only while the state machine waits for it. -/
structure Tidy (s : UartTx) : Prop where
  started : s.txdStart ≠ s.txdStartAck → s.txState = .txdWait
  parked : s.txdStart = s.txdStartAck → s.txdBitnr = 0#4

/-- The engine is tidy at power-up. -/
theorem tidy_init : init.Tidy := ⟨fun h => absurd rfl h, fun _ => rfl⟩

/-- The engine stays tidy. -/
theorem Tidy.step (h : s.Tidy) (csrIn : CsrChannelIn) (readAck : Bool) (readData : BitVec 8) :
    (s.step csrIn readAck readData).Tidy := by
  by_cases hrest : s.txdStart = s.txdStartAck
  · have hbit := h.parked hrest
    have hresting : s.Resting := ⟨hbit, fun hne => absurd hrest hne⟩
    have hwaits := (hresting.fsm csrIn readAck readData).1.waits
    obtain ⟨-, -, hack, -⟩ := s.fsm_bits csrIn readAck readData
    have hkeep : (s.step csrIn readAck readData).txdStartAck = s.txdStartAck := by
      rw [step_txdStartAck, nextStartAck, hbit, if_neg fun hx => by simp at hx]
    constructor
    · rw [hkeep, step_txdStart, step_txState]
      intro hne
      exact hwaits (by rw [hack]; exact hne)
    · rw [hkeep, step_txdStart, step_txdBitnr]
      intro heq
      rw [nextBitnr, if_neg fun hx => hx.2 heq, hbit]
  · have hst := h.started hrest
    have hfsm : s.fsm csrIn readAck readData = s := fsm_of_started hst hrest
    constructor
    · intro _
      rw [step_txState, hfsm, hst]
    · rw [step_txdStart, step_txdStartAck, step_txdBitnr, hfsm]
      intro heq
      have hlast : s.Rises ∧ s.txdStart ≠ s.txdStartAck ∧ s.txdBitnr = 0b0001#4 := by
        by_contra hx
        rw [nextStartAck, if_neg hx] at heq
        exact hrest heq
      rw [nextBitnr, if_pos ⟨hlast.1, hlast.2.1⟩, hlast.2.2]
      rfl

/-- A tidy engine without a byte rests. -/
theorem Tidy.resting (h : s.Tidy) (hrest : s.txdStart = s.txdStartAck) : s.Resting :=
  ⟨h.parked hrest, fun hne => absurd hrest hne⟩

/-- The bit engine works in {lit}`TXD_WAIT` only. -/
theorem Tidy.rest (h : s.Tidy) (hst : s.txState ≠ .txdWait) : s.txdStart = s.txdStartAck := by
  by_contra hne
  exact hst (h.started hne)

/-! ## Registers of a transfer -/

/-- A transfer that has sent {lit}`pos` of {lit}`len` bytes. -/
structure Busy (s : UartTx) (ctrl : BitVec 24) (len pos : BitVec 8) (B : ℕ) (intr : Bool) :
    Prop where
  state : s.txState ≠ .idle
  ctrl : s.txCtrl = ctrl
  len : s.txBufLen = len
  pos : s.txBufCurpos = pos
  baud : s.txBaud.toNat = B
  intr : s.txIntrToggle = intr

/-- The baud register after an edge. -/
theorem step_txBaud (s : UartTx) (csrIn : CsrChannelIn) (readAck : Bool) (readData : BitVec 8) :
    (s.step csrIn readAck readData).txBaud = (s.fsm csrIn readAck readData).txBaud := by
  rw [step_eq]

section Transfer

variable {ctrl : BitVec 24} {len pos : BitVec 8} {intr : Bool}

/-- The registers of the state machine decide. -/
theorem Busy.of_fsm (h : (s.fsm csrIn readAck readData).Busy ctrl len pos B intr) :
    (s.step csrIn readAck readData).Busy ctrl len pos B intr where
  state := by rw [step_txState]; exact h.state
  ctrl := by rw [step_txCtrl]; exact h.ctrl
  len := by rw [step_txBufLen]; exact h.len
  pos := by rw [step_txBufCurpos]; exact h.pos
  baud := by rw [step_txBaud]; exact h.baud
  intr := by rw [step_txIntrToggle]; exact h.intr

/-- A CSR write starts the transfer. -/
theorem step_start (hst : s.txState = .idle) (hv : csrIn.csrOpValid = true)
    (hreg : csrIn.csrOpReg = csrRegUart0Tx) (h31 : csrIn.csrOpData.getLsbD 31 = false) :
    (s.step csrIn readAck readData).txState = .running ∧
      (s.step csrIn readAck readData).Busy (csrIn.csrOpData.extractLsb' 8 24)
        (csrIn.csrOpData.extractLsb' 0 8) 0#8 s.txBaud.toNat s.txIntrToggle := by
  have hfsm : s.fsm csrIn readAck readData =
      { s with
        txCtrl := csrIn.csrOpData.extractLsb' 8 24
        txBufLen := csrIn.csrOpData.extractLsb' 0 8
        txBufCurpos := 0#8
        txState := .running } := by
    rw [fsm, hst]
    simp only [hv, hreg, h31, if_true]
  refine ⟨by rw [step_txState, hfsm], Busy.of_fsm ?_⟩
  rw [hfsm]
  exact ⟨fun hx => TxState.noConfusion hx, rfl, rfl, rfl, rfl, rfl⟩

/-- The next byte is asked for. -/
theorem Busy.step_request (h : s.Busy ctrl len pos B intr) (hst : s.txState = .running)
    (hmore : pos ≠ len) (csrIn : CsrChannelIn) (readAck : Bool) (readData : BitVec 8) :
    (s.step csrIn readAck readData).Busy ctrl len pos B intr ∧
      (s.step csrIn readAck readData).txState = .readmemWait ∧
      (s.step csrIn readAck readData).readR = (!s.readR) ∧
      (s.step csrIn readAck readData).readAddr = ctrl.extractLsb' 0 17 ++ pos := by
  have hfsm : s.fsm csrIn readAck readData =
      { s with
        readAddr := s.txCtrl.extractLsb' 0 17 ++ s.txBufCurpos
        readR := !s.readR
        txState := .readmemWait } := by
    rw [fsm, hst]
    exact if_pos (by rw [h.pos, h.len]; exact hmore)
  refine ⟨Busy.of_fsm ?_, ?_, ?_, ?_⟩
  · rw [hfsm]
    exact ⟨fun hx => TxState.noConfusion hx, h.ctrl, h.len, h.pos, h.baud, h.intr⟩
  · rw [step_txState, hfsm]
  · rw [step_readR, hfsm]
  · rw [step_readAddr, hfsm, h.ctrl, h.pos]

/-- The state machine waits. -/
theorem Busy.step_wait (h : s.Busy ctrl len pos B intr)
    (hfsm : s.fsm csrIn readAck readData = s) :
    (s.step csrIn readAck readData).Busy ctrl len pos B intr :=
  Busy.of_fsm (by rw [hfsm]; exact h)

/-- The engine waits for its byte. -/
theorem fsm_of_asking (hst : s.txState = .readmemWait) (hopen : s.readR ≠ readAck) :
    s.fsm csrIn readAck readData = s := by
  rw [fsm, hst]
  exact if_neg hopen

/-- The byte is handed to the bit engine. -/
theorem Busy.step_load (h : s.Busy ctrl len pos B intr) (hst : s.txState = .readmemWait)
    (hack : s.readR = readAck) :
    (s.step csrIn readAck readData).Busy ctrl len pos B intr ∧
      (s.step csrIn readAck readData).txState = .txdWait := by
  have hfsm : s.fsm csrIn readAck readData =
      { s with txdStart := !s.txdStart, txdByte := readData, txState := .txdWait } := by
    rw [fsm, hst]
    exact if_pos hack
  refine ⟨Busy.of_fsm ?_, by rw [step_txState, hfsm]⟩
  rw [hfsm]
  exact ⟨fun hx => TxState.noConfusion hx, h.ctrl, h.len, h.pos, h.baud, h.intr⟩

/-- The byte is counted when the bit engine is done with it. -/
theorem Busy.step_count (h : s.Busy ctrl len pos B intr) (hst : s.txState = .txdWait)
    (hack : s.txdStart = s.txdStartAck) (csrIn : CsrChannelIn) (readAck : Bool)
    (readData : BitVec 8) :
    (s.step csrIn readAck readData).Busy ctrl len (pos + 1#8) B intr ∧
      (s.step csrIn readAck readData).txState = .running := by
  have hfsm : s.fsm csrIn readAck readData =
      { s with txState := .running, txBufCurpos := s.txBufCurpos + 1#8 } := by
    rw [fsm, hst]
    exact if_pos hack
  refine ⟨Busy.of_fsm ?_, by rw [step_txState, hfsm]⟩
  rw [hfsm]
  exact ⟨fun hx => TxState.noConfusion hx, h.ctrl, h.len, by rw [h.pos], h.baud, h.intr⟩

/-- The transfer ends with its interrupt. -/
theorem Busy.step_end (h : s.Busy ctrl len pos B intr) (hst : s.txState = .running)
    (hall : pos = len) (csrIn : CsrChannelIn) (readAck : Bool) (readData : BitVec 8) :
    (s.step csrIn readAck readData).txState = .idle ∧
      (s.step csrIn readAck readData).txIntrToggle = !intr := by
  have hfsm : s.fsm csrIn readAck readData =
      { s with txIntrToggle := !s.txIntrToggle, txState := .idle } := by
    rw [fsm, hst]
    exact if_neg (by rw [h.pos, h.len]; exact not_not.mpr hall)
  rw [step_txState, step_txIntrToggle, hfsm, h.intr]
  exact ⟨rfl, rfl⟩

end Transfer

end UartTx

/-! ## Runs -/

namespace UartUnit

section Run

variable (mem : BitVec 24 → BitVec 16) (inp : ℕ → UartUnitInput)

/-- The transmitter along a run. -/
def tx (t : ℕ) : UartTx := (run mem inp t).uartTx

/-- The line {lit}`uart_tx` along a run. -/
def line (t : ℕ) : Bool := (tx mem inp t).uartTx

/-- The memory at the {lit}`t`-th edge. -/
def cells (t : ℕ) : BitVec 24 → BitVec 16 := DmaSystem.cells mem (dmaInputs mem inp) t

/-- The acknowledgement and the byte that the engine shows. -/
def readAck (t : ℕ) : Bool := (run mem inp t).dma.dma.readAckR

@[inherit_doc readAck]
def readData (t : ℕ) : BitVec 8 := (run mem inp t).dma.dma.readData

/-- A new baud setting is taken at edge {lit}`t`. -/
def WritesBaud (t : ℕ) : Prop := (tx mem inp t).WritesBaud (inp t).csrIn

end Run

variable {mem : BitVec 24 → BitVec 16} {inp : ℕ → UartUnitInput} {t u v w : ℕ} {B : ℕ}
  {ctrl : BitVec 24} {len pos byte : BitVec 8} {intr : Bool}

/-- The transmitter after an edge. -/
theorem tx_succ (t : ℕ) : tx mem inp (t + 1) =
    (tx mem inp t).step (inp t).csrIn (readAck mem inp t) (readData mem inp t) := rfl

/-- The edge is one without a write to the baud register. -/
theorem tx_succ_quiet (h : ¬ WritesBaud mem inp t) : ∃ c : CsrChannelIn,
    (c.csrOpValid = true → c.csrOpReg ≠ csrRegUart0TxBaud) ∧
      tx mem inp (t + 1) = (tx mem inp t).step c (readAck mem inp t) (readData mem inp t) := by
  obtain ⟨c, hc, hstep⟩ := UartTx.exists_csrIn h
  exact ⟨c, hc, (tx_succ t).trans (hstep _ _)⟩

/-- The engine is tidy in every run. -/
theorem tidy_run (mem : BitVec 24 → BitVec 16) (inp : ℕ → UartUnitInput) (t : ℕ) :
    (tx mem inp t).Tidy := by
  induction t with
  | zero => exact UartTx.tidy_init
  | succ t ih => exact ih.step _ _ _

/-! ## The byte from memory -/

/-- The engine rests while the transmitter does not wait for it. -/
theorem readAck_of_rest (hst : (tx mem inp u).txState ≠ .readmemWait) :
    readAck mem inp (u + 1) = readAck mem inp u ∧ (tx mem inp u).readR = readAck mem inp u := by
  have hlink := (linked_run mem inp u).read
  have hrest := hlink.rest hst
  refine ⟨?_, hrest⟩
  have hacts : (run mem inp u).dma.dma.Acts (run mem inp u).pdmaIn (run mem inp (u + 1)).dma.dma :=
    PeriphDma.step_acts _ _ _ _
  cases hacts with
  | keep hsame => exact congrArg PeriphDma.readAckR hsame
  | startRead _ _ _ _ hacks => exact hacks.1
  | startWrite _ _ _ _ hacks => exact hacks.1
  | readDone hst hwren => exact absurd hrest (hlink.serve ⟨hst, hwren⟩)
  | writeDone _ _ _ hacks => exact hacks.1

/-- While the engine has not answered the request stands. -/
theorem asking_until (hbusy : (tx mem inp u).Busy ctrl len pos B intr)
    (hst : (tx mem inp u).txState = .readmemWait)
    (hopen : ∀ w, u ≤ w → w < v → readAck mem inp w ≠ (tx mem inp u).readR) (huv : u ≤ v) :
    (tx mem inp v).Busy ctrl len pos B intr ∧ (tx mem inp v).txState = .readmemWait ∧
      (tx mem inp v).readR = (tx mem inp u).readR ∧
      (tx mem inp v).readAddr = (tx mem inp u).readAddr := by
  induction v, huv using Nat.le_induction with
  | base => exact ⟨hbusy, hst, rfl, rfl⟩
  | succ v huv ih =>
      obtain ⟨hb, hs, hr, ha⟩ := ih fun w h1 h2 => hopen w h1 (by omega)
      have hfsm : (tx mem inp v).fsm (inp v).csrIn (readAck mem inp v) (readData mem inp v) =
          tx mem inp v := by
        refine UartTx.fsm_of_asking hs ?_
        rw [hr]
        exact (hopen v huv (by omega)).symm
      rw [tx_succ]
      refine ⟨hb.step_wait hfsm, ?_, ?_, ?_⟩
      · rw [UartTx.step_txState, hfsm, hs]
      · rw [UartTx.step_readR, hfsm, hr]
      · rw [UartTx.step_readAddr, hfsm, ha]

/-- The engine answers with the byte at the address of the request. -/
theorem eventually_readAck (ho : DmaSystem.OthersContract mem (dmaInputs mem inp))
    (hf : DmaSystem.Fair mem (dmaInputs mem inp))
    (hbusy : (tx mem inp u).Busy ctrl len pos B intr)
    (hst : (tx mem inp u).txState = .readmemWait)
    (hopen : readAck mem inp u ≠ (tx mem inp u).readR) :
    ∃ r, u ≤ r ∧ (∀ w, u ≤ w → w < r + 1 → readAck mem inp w ≠ (tx mem inp u).readR) ∧
      readAck mem inp (r + 1) = (tx mem inp u).readR ∧
      readData mem inp (r + 1) = byteAt (cells mem inp r) (tx mem inp u).readAddr := by
  classical
  have hu := uartContract mem inp
  have hack : ∀ w, readAck mem inp w = (DmaSystem.run mem (dmaInputs mem inp) w).dma.readAckR := by
    intro w
    rw [readAck, run_dma]
  have hex : ∃ w, u < w ∧ readAck mem inp w = (tx mem inp u).readR := by
    rw [hack] at hopen
    obtain ⟨w, huw, hw⟩ := hf.read hu hopen
    exact ⟨w, huw, (hack w).trans hw⟩
  obtain ⟨huv, hv⟩ := Nat.find_spec hex
  have hmin : ∀ w, u ≤ w → w < Nat.find hex → readAck mem inp w ≠ (tx mem inp u).readR := by
    intro w h1 h2 heq
    rcases Nat.eq_or_lt_of_le h1 with rfl | h1
    · exact hopen heq
    · exact Nat.find_min hex h2 ⟨h1, heq⟩
  obtain ⟨r, hr⟩ : ∃ r, Nat.find hex = r + 1 := ⟨Nat.find hex - 1, by omega⟩
  rw [hr] at hv hmin huv
  refine ⟨r, by omega, hmin, hv, ?_⟩
  have hchange : (DmaSystem.run mem (dmaInputs mem inp) (r + 1)).dma.readAckR ≠
      (DmaSystem.run mem (dmaInputs mem inp) r).dma.readAckR := by
    rw [← hack, ← hack, hv]
    exact (hmin r (by omega) (by omega)).symm
  obtain ⟨k, rfl, hans, hw⟩ := DmaSystem.answered_of_readAck hu hchange
  have hdata := (DmaSystem.readServed ho hu hans hw).data
  obtain ⟨-, -, -, haddr⟩ := asking_until hbusy hst (fun w h1 h2 => hmin w h1 (by omega))
    (show u ≤ k + 1 by omega)
  rw [readData, run_dma, ← haddr]
  exact hdata

/-! ## The byte on the line -/

/-- The byte waits for the next rising edge of {lit}`tx_clk`, or is about to. -/
structure Pending (mem : BitVec 24 → BitVec 16) (inp : ℕ → UartUnitInput) (ctrl : BitVec 24)
    (len pos : BitVec 8) (B : ℕ) (intr : Bool) (byte : BitVec 8) (w : ℕ) : Prop where
  busy : (tx mem inp w).Busy ctrl len pos B intr
  resting : (tx mem inp w).Resting
  byte : (tx mem inp w).waitingByte ++
    ((tx mem inp w).loadedByte (readAck mem inp w) (readData mem inp w)).toList = [byte]

/-- The bit engine sends the byte in a cycle of its frame. -/
structure SendingAt (mem : BitVec 24 → BitVec 16) (inp : ℕ → UartUnitInput) (ctrl : BitVec 24)
    (len pos : BitVec 8) (B : ℕ) (intr : Bool) (byte : BitVec 8) (w τ : ℕ) : Prop where
  busy : (tx mem inp w).Busy ctrl len pos B intr
  sending : (tx mem inp w).Sending B τ byte

/-- A transfer goes on. -/
theorem Pending.busy_succ (h : Pending mem inp ctrl len pos B intr byte w) :
    (tx mem inp (w + 1)).Busy ctrl len pos B intr := by
  rw [tx_succ]
  by_cases hstart : (tx mem inp w).txdStart = (tx mem inp w).txdStartAck
  · have hload : (tx mem inp w).txState = .readmemWait ∧ (tx mem inp w).readR = readAck mem inp w := by
      have hbyte := h.byte
      rw [UartTx.waitingByte, if_neg (not_not.mpr hstart), UartTx.loadedByte] at hbyte
      by_contra hno
      rw [if_neg hno] at hbyte
      cases hbyte
    exact (h.busy.step_load hload.1 hload.2).1
  · exact h.busy.step_wait (UartTx.fsm_of_started (h.resting.waits hstart) hstart)

/-- A pending byte goes on waiting, or its start bit begins. -/
theorem Pending.step (h : Pending mem inp ctrl len pos B intr byte w) :
    (Pending mem inp ctrl len pos B intr byte (w + 1) ∧
        (tx mem inp (w + 1)).untilRise < (tx mem inp w).untilRise) ∨
      SendingAt mem inp ctrl len pos B intr byte (w + 1) 0 := by
  have hbusy := h.busy_succ
  obtain ⟨c, hc, hstep⟩ := tx_succ_quiet (t := w) (UartTx.not_writesBaud h.busy.state)
  rcases @UartTx.Resting.step _ c (readAck mem inp w) (readData mem inp w) B h.resting
    h.busy.baud hc with ⟨hrest, hwait, hrise⟩ | ⟨-, byte', hsend, hbyte⟩
  · rw [← hstep] at hrest hwait
    rw [h.byte] at hwait hrise
    have hstate : (tx mem inp (w + 1)).txState = .txdWait := by
      refine hrest.waits fun heq => ?_
      rw [UartTx.waitingByte, if_neg (not_not.mpr heq)] at hwait
      cases hwait
    refine .inl ⟨⟨hbusy, hrest, ?_⟩, ?_⟩
    · rw [hwait, UartTx.loadedByte, if_neg fun hx => by rw [hstate] at hx; cases hx.1]
      rfl
    · rw [hstep]
      exact UartTx.untilRise_step (fun hx => List.cons_ne_nil _ _ (hrise hx)) hc
  · rw [h.byte] at hbyte
    obtain rfl : byte = byte' := by simpa using hbyte
    refine .inr ⟨hbusy, ?_⟩
    rw [hstep]
    exact hsend

/-- The start bit begins. -/
theorem Pending.eventually (h : Pending mem inp ctrl len pos B intr byte w) :
    ∃ s, w < s ∧ SendingAt mem inp ctrl len pos B intr byte s 0 ∧
      ∀ v, w ≤ v → v < s → Pending mem inp ctrl len pos B intr byte v := by
  induction hn : (tx mem inp w).untilRise using Nat.strong_induction_on generalizing w with
  | _ n ih =>
      rcases h.step with ⟨h', hlt⟩ | hsend
      · obtain ⟨s, hs, hsend, hpend⟩ := ih _ (by omega) h' rfl
        refine ⟨s, by omega, hsend, fun v h1 h2 => ?_⟩
        rcases Nat.eq_or_lt_of_le h1 with rfl | h1
        · exact h
        · exact hpend v h1 h2
      · refine ⟨w + 1, by omega, hsend, fun v h1 h2 => ?_⟩
        obtain rfl : v = w := by omega
        exact h

/-- The bit engine goes through the frame. -/
theorem SendingAt.run {s : ℕ} (h : SendingAt mem inp ctrl len pos B intr byte s 0) {τ : ℕ}
    (hτ : τ < 9 * (2 * (B + 1))) : SendingAt mem inp ctrl len pos B intr byte (s + τ) τ := by
  induction τ with
  | zero => exact h
  | succ τ ih =>
      obtain ⟨hbusy, hsend⟩ := ih (by omega)
      obtain ⟨c, hc, hstep⟩ := tx_succ_quiet (t := s + τ) (UartTx.not_writesBaud hbusy.state)
      refine ⟨?_, ?_⟩
      · rw [← Nat.add_assoc, tx_succ]
        exact hbusy.step_wait (UartTx.fsm_of_started hsend.state hsend.started)
      · rw [← Nat.add_assoc, hstep]
        exact hsend.step hτ hc

/-- Behind the last data bit the bit engine rests, with a bit time ahead of it. -/
theorem SendingAt.finish {s : ℕ} (h : SendingAt mem inp ctrl len pos B intr byte s 0) :
    (tx mem inp (s + 9 * (2 * (B + 1)))).Busy ctrl len pos B intr ∧
      (tx mem inp (s + 9 * (2 * (B + 1)))).txState = .txdWait ∧
      (tx mem inp (s + 9 * (2 * (B + 1)))).Resting ∧
      (tx mem inp (s + 9 * (2 * (B + 1)))).Divider B 0 ∧
      (tx mem inp (s + 9 * (2 * (B + 1)))).txdStart =
        (tx mem inp (s + 9 * (2 * (B + 1)))).txdStartAck := by
  obtain ⟨τ, hτ⟩ : ∃ τ, τ + 1 = 9 * (2 * (B + 1)) := ⟨9 * (2 * (B + 1)) - 1, by omega⟩
  obtain ⟨hbusy, hsend⟩ := h.run (show τ < 9 * (2 * (B + 1)) by omega)
  obtain ⟨c, hc, hstep⟩ := tx_succ_quiet (t := s + τ) (UartTx.not_writesBaud hbusy.state)
  have hfsm : (tx mem inp (s + τ)).fsm (inp (s + τ)).csrIn (readAck mem inp (s + τ))
      (readData mem inp (s + τ)) = tx mem inp (s + τ) :=
    UartTx.fsm_of_started hsend.state hsend.started
  have hfin := @UartTx.Sending.finish _ c (readAck mem inp (s + τ)) (readData mem inp (s + τ)) B τ
    byte hsend hτ hc
  rw [← hstep] at hfin
  rw [← hτ, ← Nat.add_assoc]
  refine ⟨?_, ?_, hfin⟩
  · rw [tx_succ]
    exact hbusy.step_wait hfsm
  · rw [tx_succ, UartTx.step_txState, hfsm, hsend.state]

/-- Until the next rising edge of {lit}`tx_clk` no frame begins. -/
theorem resting_until (hrest : (tx mem inp u).Resting) (hdiv : (tx mem inp u).Divider B 0) {k : ℕ}
    (hk : k < 2 * (B + 1)) (hbaud : ∀ v, u ≤ v → v < u + k → ¬ WritesBaud mem inp v) :
    (tx mem inp (u + k)).Resting ∧ (tx mem inp (u + k)).Divider B k := by
  induction k with
  | zero => exact ⟨hrest, hdiv⟩
  | succ k ih =>
      obtain ⟨hr, hd⟩ := ih (by omega) fun v h1 h2 => hbaud v h1 (by omega)
      obtain ⟨c, hc, hstep⟩ := tx_succ_quiet (hbaud (u + k) (by omega) (by omega))
      have hno : ¬ (tx mem inp (u + k)).Rises := by
        rw [hd.rises_iff]
        omega
      have hd' := @UartTx.Divider.step _ c (readAck mem inp (u + k)) (readData mem inp (u + k)) B k
        hd hc
      rw [if_neg (by omega), ← hstep] at hd'
      refine ⟨?_, hd'⟩
      rcases @UartTx.Resting.step _ c (readAck mem inp (u + k)) (readData mem inp (u + k)) B hr
        hd.baud hc with ⟨hrest', -⟩ | ⟨hrise, -⟩
      · rw [← hstep] at hrest'
        exact hrest'
      · exact absurd hrise hno

/-! ## One byte of a transfer -/

/-- The frame of the byte at {lit}`addr`, asked for at edge {lit}`u`, begins in cycle {lit}`s`: before
it the line is high, and behind its last data bit it is high for a bit time if the baud setting is
not changed meanwhile. -/
structure ByteSent (mem : BitVec 24 → BitVec 16) (inp : ℕ → UartUnitInput) (B : ℕ)
    (addr : BitVec 25) (u s : ℕ) : Prop where
  frame : ∃ r, u < r ∧ r < s ∧ ∀ τ, τ < 9 * (2 * (B + 1)) →
    line mem inp (s + τ) = UartTx.frameLevel B (byteAt (cells mem inp r) addr) τ
  before : ∀ w, u ≤ w → w < s → line mem inp w = true
  stop : ∀ w, s + 9 * (2 * (B + 1)) ≤ w → w < s + 10 * (2 * (B + 1)) →
    (∀ v, s + 9 * (2 * (B + 1)) ≤ v → v < w → ¬ WritesBaud mem inp v) → line mem inp w = true

/-- The transfer is on its way, with this many bytes counted or one more. -/
def Transferring (mem : BitVec 24 → BitVec 16) (inp : ℕ → UartUnitInput) (ctrl : BitVec 24)
    (len : BitVec 8) (B : ℕ) (intr : Bool) (w : ℕ) : Prop :=
  ∃ pos, (tx mem inp w).Busy ctrl len pos B intr

/-- A resting engine leaves the line high. -/
theorem line_of_resting (h : (tx mem inp w).Resting) : line mem inp w = true := h.uartTx_eq

/-- The byte that memory answers with is pending. -/
theorem pending_of_asking (ho : DmaSystem.OthersContract mem (dmaInputs mem inp))
    (hf : DmaSystem.Fair mem (dmaInputs mem inp))
    (hbusy : (tx mem inp u).Busy ctrl len pos B intr)
    (hst : (tx mem inp u).txState = .readmemWait)
    (hopen : readAck mem inp u ≠ (tx mem inp u).readR) :
    ∃ r, u ≤ r ∧
      Pending mem inp ctrl len pos B intr
        (byteAt (cells mem inp r) (tx mem inp u).readAddr) (r + 1) ∧
      ∀ w, u ≤ w → w ≤ r + 1 → (tx mem inp w).Busy ctrl len pos B intr ∧ (tx mem inp w).Resting := by
  obtain ⟨r, hur, hbefore, hack, hdata⟩ := eventually_readAck ho hf hbusy hst hopen
  have hkeep : ∀ w, u ≤ w → w ≤ r + 1 → (tx mem inp w).Busy ctrl len pos B intr ∧
      (tx mem inp w).txState = .readmemWait ∧ (tx mem inp w).readR = (tx mem inp u).readR := by
    intro w h1 h2
    obtain ⟨hb, hs, hr, -⟩ := asking_until hbusy hst (fun x h3 h4 => hbefore x h3 (by omega)) h1
    exact ⟨hb, hs, hr⟩
  have hrest : ∀ w, u ≤ w → w ≤ r + 1 →
      (tx mem inp w).txdStart = (tx mem inp w).txdStartAck := by
    intro w h1 h2
    refine (tidy_run mem inp w).rest ?_
    rw [(hkeep w h1 h2).2.1]
    decide
  refine ⟨r, hur, ?_, fun w h1 h2 => ⟨(hkeep w h1 h2).1, (tidy_run mem inp w).resting (hrest w h1 h2)⟩⟩
  obtain ⟨hb, hs, hr⟩ := hkeep (r + 1) (by omega) le_rfl
  have hclosed := hrest (r + 1) (by omega) le_rfl
  refine ⟨hb, (tidy_run mem inp (r + 1)).resting hclosed, ?_⟩
  rw [UartTx.waitingByte, if_neg (not_not.mpr hclosed), UartTx.loadedByte,
    if_pos ⟨hs, by rw [hr, hack]⟩, hdata]
  rfl

/-- A byte of a transfer: it is asked for, sent and counted. -/
theorem frame_of_running (ho : DmaSystem.OthersContract mem (dmaInputs mem inp))
    (hf : DmaSystem.Fair mem (dmaInputs mem inp))
    (hbusy : (tx mem inp u).Busy ctrl len pos B intr) (hst : (tx mem inp u).txState = .running)
    (hmore : pos ≠ len) :
    ∃ s, u < s ∧ ByteSent mem inp B (ctrl.extractLsb' 0 17 ++ pos) u s ∧
      (∀ w, u ≤ w → w ≤ s + 9 * (2 * (B + 1)) + 1 → Transferring mem inp ctrl len B intr w) ∧
      (tx mem inp (s + 9 * (2 * (B + 1)) + 1)).Busy ctrl len (pos + 1#8) B intr ∧
      (tx mem inp (s + 9 * (2 * (B + 1)) + 1)).txState = .running := by
  have hidle : (tx mem inp u).txdStart = (tx mem inp u).txdStartAck :=
    (tidy_run mem inp u).rest (by rw [hst]; decide)
  obtain ⟨hbusy1, hst1, hreq, haddr⟩ := hbusy.step_request hst hmore (inp u).csrIn
    (readAck mem inp u) (readData mem inp u)
  rw [← tx_succ] at hbusy1 hst1 hreq haddr
  have hopen : readAck mem inp (u + 1) ≠ (tx mem inp (u + 1)).readR := by
    have hclosed := @readAck_of_rest mem inp u (by rw [hst]; decide)
    rw [hclosed.1, ← hclosed.2, hreq]
    exact (Bool.not_ne_self _).symm
  obtain ⟨r, hur, hpend, hwait⟩ := pending_of_asking ho hf hbusy1 hst1 hopen
  rw [haddr] at hpend
  obtain ⟨s, hrs, hsend, hbefore⟩ := hpend.eventually
  obtain ⟨hbusy9, hst9, hrest9, hdiv9, hack9⟩ := hsend.finish
  obtain ⟨hbusy', hst'⟩ := hbusy9.step_count hst9 hack9 (inp (s + 9 * (2 * (B + 1)))).csrIn
    (readAck mem inp (s + 9 * (2 * (B + 1)))) (readData mem inp (s + 9 * (2 * (B + 1))))
  rw [← tx_succ] at hbusy' hst'
  -- before the start bit
  have hquiet : ∀ w, u ≤ w → w < s →
      (tx mem inp w).Busy ctrl len pos B intr ∧ (tx mem inp w).Resting := by
    intro w h1 h2
    rcases Nat.eq_or_lt_of_le h1 with rfl | h1
    · exact ⟨hbusy, (tidy_run mem inp u).resting hidle⟩
    · rcases Nat.lt_or_ge w (r + 1) with h3 | h3
      · exact hwait w h1 (by omega)
      · exact ⟨(hbefore w h3 h2).busy, (hbefore w h3 h2).resting⟩
  refine ⟨s, by omega, ⟨⟨r, by omega, by omega, fun τ hτ => ?_⟩, fun w h1 h2 => ?_, ?_⟩, ?_, hbusy', hst'⟩
  · exact (hsend.run hτ).sending.uartTx_eq
  · exact line_of_resting (hquiet w h1 h2).2
  · intro w h1 h2 hbaud
    obtain ⟨k, rfl⟩ := Nat.exists_eq_add_of_le h1
    exact line_of_resting (resting_until hrest9 hdiv9 (by omega) hbaud).1
  · intro w h1 h2
    rcases Nat.lt_or_ge w s with h3 | h3
    · exact ⟨pos, (hquiet w h1 h3).1⟩
    · obtain ⟨k, rfl⟩ := Nat.exists_eq_add_of_le h3
      rcases Nat.lt_trichotomy k (9 * (2 * (B + 1))) with hk | rfl | hk
      · exact ⟨pos, (hsend.run hk).busy⟩
      · exact ⟨pos, hbusy9⟩
      · obtain rfl : k = 9 * (2 * (B + 1)) + 1 := by omega
        exact ⟨pos + 1#8, hbusy'⟩

/-! ## A whole transfer -/

/-- The cycle in which the byte behind {lit}`i` frames is asked for. -/
def requested (B u : ℕ) (start : ℕ → ℕ) : ℕ → ℕ
  | 0 => u
  | i + 1 => start i + 9 * (2 * (B + 1)) + 1

/-- Requests depend on the frames before. -/
theorem requested_congr {start start' : ℕ → ℕ} {k : ℕ} (h : ∀ i, i < k → start' i = start i) :
    requested B u start' k = requested B u start k := by
  cases k with
  | zero => rfl
  | succ k => rw [requested, requested, h k (by omega)]

/-- The frames of a transfer, one after the other. -/
structure Frames (mem : BitVec 24 → BitVec 16) (inp : ℕ → UartUnitInput) (ctrl : BitVec 24)
    (len : BitVec 8) (B : ℕ) (intr : Bool) (u : ℕ) (start : ℕ → ℕ) (k : ℕ) : Prop where
  sent : ∀ i, i < k → requested B u start i < start i ∧
    ByteSent mem inp B (ctrl.extractLsb' 0 17 ++ BitVec.ofNat 8 i) (requested B u start i) (start i)
  busy : ∀ w, u ≤ w → w ≤ requested B u start k → Transferring mem inp ctrl len B intr w
  next : (tx mem inp (requested B u start k)).Busy ctrl len (BitVec.ofNat 8 k) B intr
  running : (tx mem inp (requested B u start k)).txState = .running

/-- A transfer sends its frames one by one. -/
theorem frames_run (ho : DmaSystem.OthersContract mem (dmaInputs mem inp))
    (hf : DmaSystem.Fair mem (dmaInputs mem inp))
    (hbusy : (tx mem inp u).Busy ctrl len 0#8 B intr) (hst : (tx mem inp u).txState = .running)
    {k : ℕ} (hk : k ≤ len.toNat) : ∃ start, Frames mem inp ctrl len B intr u start k := by
  induction k with
  | zero =>
      refine ⟨fun _ => 0, ⟨fun i hi => absurd hi (Nat.not_lt_zero i), fun w h1 h2 => ?_, hbusy, hst⟩⟩
      obtain rfl : w = u := Nat.le_antisymm h2 h1
      exact ⟨0#8, hbusy⟩
  | succ k ih =>
      obtain ⟨start, h⟩ := ih (by omega)
      have hmore : BitVec.ofNat 8 k ≠ len := by
        intro hx
        have hnat := congrArg BitVec.toNat hx
        rw [BitVec.toNat_ofNat] at hnat
        have := len.isLt
        omega
      obtain ⟨s, hs, hsent, hwait, hnext, hrun⟩ := frame_of_running ho hf h.next h.running hmore
      have hsame : ∀ i, i < k → Function.update start k s i = start i :=
        fun i hi => Function.update_of_ne (by omega) _ _
      have hlast : requested B u (Function.update start k s) (k + 1) =
          s + 9 * (2 * (B + 1)) + 1 := by
        rw [requested, Function.update_self]
      refine ⟨Function.update start k s, ⟨fun i hi => ?_, fun w h1 h2 => ?_, ?_, ?_⟩⟩
      · rw [requested_congr fun j hj => hsame j (by omega)]
        rcases Nat.lt_succ_iff_lt_or_eq.mp hi with hi | rfl
        · rw [hsame i hi]
          exact h.sent i hi
        · rw [Function.update_self]
          exact ⟨hs, hsent⟩
      · rw [hlast] at h2
        rcases Nat.lt_or_ge w (requested B u start k) with h3 | h3
        · exact h.busy w h1 (by omega)
        · exact hwait w h3 h2
      · rw [hlast]
        have hpos : BitVec.ofNat 8 k + 1#8 = BitVec.ofNat 8 (k + 1) := by
          rw [BitVec.ofNat_add]
        rw [← hpos]
        exact hnext
      · rw [hlast]
        exact hrun

section Frames

variable {start : ℕ → ℕ} {n : ℕ}

/-- Requests come in order. -/
theorem Frames.requested_le (h : Frames mem inp ctrl len B intr u start n) {i j : ℕ} (hij : i ≤ j)
    (hj : j ≤ n) : requested B u start i ≤ requested B u start j := by
  induction j, hij using Nat.le_induction with
  | base => exact le_rfl
  | succ j hij ih =>
      have hlt := (h.sent j (by omega)).1
      have := ih (by omega)
      rw [requested]
      omega

/-- No baud setting is taken before the transfer is over. -/
theorem Frames.not_writesBaud (h : Frames mem inp ctrl len B intr u start n) (hw : u ≤ w)
    (hw' : w ≤ requested B u start n) : ¬ WritesBaud mem inp w := by
  obtain ⟨pos, hbusy⟩ := h.busy w hw hw'
  exact UartTx.not_writesBaud hbusy.state

/-- The stop bit of a frame lasts a bit time, unless the baud setting is changed after the end of
the transfer. -/
theorem Frames.stop (h : Frames mem inp ctrl len B intr u start n) {i : ℕ} (hi : i < n)
    (hw : start i + 9 * (2 * (B + 1)) ≤ w) (hw' : w < start i + 10 * (2 * (B + 1)))
    (hbaud : ∀ v, requested B u start n < v → v < w → ¬ WritesBaud mem inp v) :
    line mem inp w = true := by
  obtain ⟨hreq, hsent⟩ := h.sent i hi
  refine hsent.stop w hw hw' fun v h1 h2 => ?_
  rcases Nat.lt_or_ge (requested B u start n) v with h3 | h3
  · exact hbaud v h3 h2
  · have hu := h.requested_le (Nat.zero_le i) hi.le
    rw [requested] at hu
    exact h.not_writesBaud (by omega) h3

/-- The line is high between the frames. -/
theorem Frames.line_high (h : Frames mem inp ctrl len B intr u start n)
    (hfirst : line mem inp u = true) {k : ℕ} (hk : k ≤ n) (hw : u ≤ w)
    (hw' : w ≤ requested B u start k)
    (hout : ∀ i, i < k → w < start i ∨ start i + 9 * (2 * (B + 1)) ≤ w) :
    line mem inp w = true := by
  induction k with
  | zero =>
      obtain rfl : w = u := Nat.le_antisymm hw' hw
      exact hfirst
  | succ k ih =>
      rcases Nat.lt_or_ge (requested B u start k) w with hlt | hge
      · rcases hout k (by omega) with hbefore | hafter
        · exact (h.sent k (by omega)).2.before w hlt.le hbefore
        · have hn := h.requested_le hk le_rfl
          rw [requested] at hw' hn
          exact h.stop hk hafter (by omega) fun v h1 h2 => by omega
      · exact ih (by omega) hge fun i hi => hout i (by omega)

/-- Two frames are at least ten bit times apart. -/
theorem Frames.gap (h : Frames mem inp ctrl len B intr u start n) {i : ℕ} (hi : i + 1 < n) :
    start i + 10 * (2 * (B + 1)) ≤ start (i + 1) := by
  by_contra hlt
  obtain ⟨hreq, hsent⟩ := h.sent (i + 1) hi
  have hn := h.requested_le (show i + 2 ≤ n from hi) le_rfl
  rw [requested] at hreq hn
  have hhigh : line mem inp (start (i + 1)) = true :=
    h.stop (i := i) (by omega) (by omega) (by omega) fun v h1 h2 => by omega
  -- the next frame would begin with a high level
  obtain ⟨r, -, -, hframe⟩ := hsent.frame
  have hlow := hframe 0 (by omega)
  rw [Nat.add_zero, hhigh, UartTx.frameLevel, Nat.zero_div] at hlow
  cases hlow

end Frames

/-- What the line shows of a transfer that a CSR write has started at edge {lit}`t` and that is over
in cycle {lit}`e`. -/
structure Transmitted (mem : BitVec 24 → BitVec 16) (inp : ℕ → UartUnitInput) (B : ℕ)
    (base : BitVec 17) (n t e : ℕ) (start : ℕ → ℕ) : Prop where
  frame : ∀ i, i < n → ∃ r, t < r ∧ r < start i ∧ ∀ τ, τ < 9 * (2 * (B + 1)) →
    line mem inp (start i + τ) =
      UartTx.frameLevel B (byteAt (cells mem inp r) (BitVec.ofNat 25 (base.toNat * 256 + i))) τ
  stop : ∀ i, i < n → ∀ w, start i + 9 * (2 * (B + 1)) ≤ w → w < start i + 10 * (2 * (B + 1)) →
    (∀ v, e ≤ v → v < w → ¬ WritesBaud mem inp v) → line mem inp w = true
  gap : ∀ i, i + 1 < n → start i + 10 * (2 * (B + 1)) ≤ start (i + 1)
  high : ∀ w, t < w → w ≤ e → (∀ i, i < n → w < start i ∨ start i + 9 * (2 * (B + 1)) ≤ w) →
    line mem inp w = true
  ends : e = if n = 0 then t + 2 else start (n - 1) + 9 * (2 * (B + 1)) + 2

/-- The address of a byte of the buffer. -/
theorem byteAddr_eq (base : BitVec 17) {i : ℕ} (hi : i < 256) :
    base ++ BitVec.ofNat 8 i = BitVec.ofNat 25 (base.toNat * 256 + i) := by
  apply BitVec.eq_of_toNat_eq
  have := base.isLt
  rw [toNat_append_eq, BitVec.toNat_ofNat, BitVec.toNat_ofNat]
  omega

/-- Frames make up a transmission. -/
theorem Frames.transmitted {n : ℕ} {start : ℕ → ℕ}
    (h : Frames mem inp ctrl len B intr (t + 1) start n) (hn : n < 256)
    (hfirst : line mem inp (t + 1) = true)
    (hlast : line mem inp (requested B (t + 1) start n + 1) = true) :
    Transmitted mem inp B (ctrl.extractLsb' 0 17) n t (requested B (t + 1) start n + 1) start where
  frame := by
    intro i hi
    obtain ⟨hreq, hsent⟩ := h.sent i hi
    obtain ⟨r, h1, h2, hframe⟩ := hsent.frame
    have hu := h.requested_le (Nat.zero_le i) hi.le
    rw [requested] at hu
    rw [byteAddr_eq _ (by omega)] at hframe
    exact ⟨r, by omega, h2, hframe⟩
  stop := fun i hi w h1 h2 hbaud => h.stop hi h1 h2 fun v h3 h4 => hbaud v h3 h4
  gap := fun i hi => h.gap hi
  high := by
    intro w h1 h2 hout
    rcases Nat.eq_or_lt_of_le h2 with rfl | h2
    · exact hlast
    · exact h.line_high hfirst le_rfl h1 (by omega) hout
  ends := by
    cases n with
    | zero => rfl
    | succ n => rw [if_neg (Nat.succ_ne_zero n), requested, Nat.succ_sub_one]

end UartUnit

open UartUnit in
/-- The transmit engine.  A write to {lit}`UART0_TX` that is accepted in {lit}`TX_IDLE` with bit 31
clear starts a transfer, whatever memory holds, however long the DMA engine takes and wherever the
divider stands.  The line shows one frame for each byte of the buffer, in order: a start bit, the
bits of the byte as the engine has read it from memory, the least significant first, and a stop bit
of at least one bit time, which after the end of the transfer only a new baud setting can cut
short.  The interrupt toggles once, when the state machine returns to {lit}`TX_IDLE` behind the last
data bit, and up to then the CSR channel has no influence. -/
theorem uart_transmits (mem : BitVec 24 → BitVec 16) (inp : ℕ → UartUnitInput)
    (ho : DmaSystem.OthersContract mem (dmaInputs mem inp))
    (hf : DmaSystem.Fair mem (dmaInputs mem inp)) (t : ℕ)
    (hidle : (tx mem inp t).txState = .idle) (hv : (inp t).csrIn.csrOpValid = true)
    (hreg : (inp t).csrIn.csrOpReg = csrRegUart0Tx)
    (h31 : (inp t).csrIn.csrOpData.getLsbD 31 = false) :
    ∃ start e, Transmitted mem inp (tx mem inp t).txBaud.toNat
        ((inp t).csrIn.csrOpData.extractLsb' 8 17)
        ((inp t).csrIn.csrOpData.extractLsb' 0 8).toNat t e start ∧
      (∀ w, t < w → w < e → (tx mem inp w).txState ≠ .idle ∧
        (tx mem inp w).txIntrToggle = (tx mem inp t).txIntrToggle ∧
        ∀ csrIn, (tx mem inp w).step csrIn (readAck mem inp w) (readData mem inp w) =
          tx mem inp (w + 1)) ∧
      (tx mem inp e).txState = .idle ∧
      (tx mem inp e).txIntrToggle = !(tx mem inp t).txIntrToggle := by
  obtain ⟨hrun, hbusy⟩ := @UartTx.step_start _ _ (readAck mem inp t) (readData mem inp t) hidle hv
    hreg h31
  rw [← tx_succ] at hrun hbusy
  obtain ⟨start, hframes⟩ := frames_run ho hf hbusy hrun le_rfl
  have hhigh : ∀ w, (tx mem inp w).txState ≠ .txdWait → line mem inp w = true :=
    fun w hw => line_of_resting ((tidy_run mem inp w).resting ((tidy_run mem inp w).rest hw))
  obtain ⟨hst, hintr⟩ := hframes.next.step_end hframes.running
    (BitVec.eq_of_toNat_eq (by rw [BitVec.toNat_ofNat]; omega)) (inp _).csrIn
    (readAck mem inp _) (readData mem inp _)
  rw [← tx_succ] at hst hintr
  have hbase : ((inp t).csrIn.csrOpData.extractLsb' 8 24).extractLsb' 0 17 =
      (inp t).csrIn.csrOpData.extractLsb' 8 17 := by
    ext i hi
    simp [BitVec.getElem_extractLsb', show i < 24 by omega]
  have htrans := hframes.transmitted (BitVec.isLt _) (hhigh _ (by rw [hrun]; decide))
    (hhigh _ (by rw [hst]; decide))
  rw [hbase] at htrans
  refine ⟨start, _, htrans, fun w h1 h2 => ?_, hst, hintr⟩
  obtain ⟨pos, hb⟩ := hframes.busy w h1 (by omega)
  exact ⟨hb.state, hb.intr, fun csrIn => UartTx.step_of_busy hb.state _ _ _ _⟩

/-- After power-up one byte is sent; nobody else uses the memory. -/
def transmitOne (t : ℕ) : UartUnitInput where
  csrIn := ⟨0#12, 0#2, t == 0, csrRegUart0Tx, 0x101#32⟩
  uartRx := true
  reset := false
  others := fun _ => ⟨0#24, false, false, false, 0#2, 0#16⟩
  float := 0#16

open UartUnit in
/-- Its frame is on the line, and the interrupt follows. -/
theorem uart_transmits_one : ∃ start e,
    Transmitted (fun _ => 0#16) transmitOne 0x146 1#17 1 0 e start ∧
      (tx (fun _ => 0#16) transmitOne e).txIntrToggle = true := by
  have ho : DmaSystem.OthersContract (fun _ => 0#16) (dmaInputs (fun _ => 0#16) transmitOne) :=
    { start := fun _ _ => rfl
      toggle := fun _ _ _ hne => absurd rfl hne
      hold := fun _ _ _ _ => ⟨rfl, rfl, rfl⟩ }
  have hf := DmaSystem.fair_of_silent ho (uartContract (fun _ => 0#16) transmitOne)
    fun _ _ _ => rfl
  obtain ⟨start, e, htrans, -, -, hintr⟩ := uart_transmits (fun _ => 0#16) transmitOne ho hf 0 rfl rfl
    rfl rfl
  exact ⟨start, e, htrans, hintr⟩

end Sumeru
