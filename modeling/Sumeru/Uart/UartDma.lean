import Sumeru.Memory.PeriphDma
import Sumeru.Uart.Receiver
import Sumeru.Uart.Transmitter

/-!
# Sumeru - UART on its DMA engine

The two halves of {lit}`csr_uart_rs232` on {lit}`periph_dma` and the memory behind it.  The
transmitter waits in {lit}`TX_READMEM_WAIT` and the receiver in {lit}`RXD_MEM_WAIT` for the
acknowledgement of their requests, so that they keep the rules that the engine relies on.

Main results:

- Theorem {lit}`UartUnit.linked_run`: requests and acknowledgements differ only while a half of
  the UART waits.
- Theorem {lit}`UartUnit.uartContract`: the UART keeps the rules of its DMA channel.
-/

namespace Sumeru

/-! ## One edge of the engine -/

namespace PeriphDma

/-- What an edge can do to the engine, as far as the requests of the UART are concerned. -/
inductive Acts (d : PeriphDma) (p : PeriphDmaChannelIn) (d' : PeriphDma) : Prop where
  | keep (h : d' = d)
  | startRead (hst : d.memState = .running) (hopen : p.read ≠ d.readAckR) (hst' : d'.memState = .wait)
      (hwren : d'.opWren = false) (hacks : d'.readAckR = d.readAckR ∧ d'.writeAckR = d.writeAckR)
  | startWrite (hst : d.memState = .running) (hopen : p.write ≠ d.writeAckR)
      (hst' : d'.memState = .wait) (hwren : d'.opWren = true)
      (hacks : d'.readAckR = d.readAckR ∧ d'.writeAckR = d.writeAckR)
  | readDone (hst : d.memState = .wait) (hwren : d.opWren = false) (hst' : d'.memState = .running)
      (hacks : d'.readAckR = !d.readAckR ∧ d'.writeAckR = d.writeAckR)
  | writeDone (hst : d.memState = .wait) (hwren : d.opWren = true) (hst' : d'.memState = .running)
      (hacks : d'.readAckR = d.readAckR ∧ d'.writeAckR = !d.writeAckR)

/-- Every edge takes one of the branches. -/
theorem step_acts (d : PeriphDma) (opStrobe : Bool) (sdcDataOut : BitVec 16)
    (p : PeriphDmaChannelIn) : d.Acts p (d.step opStrobe sdcDataOut p) := by
  unfold step
  cases hst : d.memState with
  | running =>
      dsimp only
      split
      · rename_i hopen
        exact .startRead hst hopen rfl rfl ⟨rfl, rfl⟩
      · split
        · rename_i hopen
          exact .startWrite hst hopen rfl rfl ⟨rfl, rfl⟩
        · exact .keep rfl
  | wait =>
      dsimp only
      split
      · cases hw : d.opWren with
        | false =>
            rw [finish, hw]
            exact .readDone hst hw rfl ⟨rfl, rfl⟩
        | true =>
            rw [finish, hw]
            exact .writeDone hst hw rfl ⟨rfl, rfl⟩
      · exact .keep rfl

end PeriphDma

/-! ## One edge of the transmitter -/

/-- The read requests of the transmitter. -/
theorem UartTx.step_read (s : UartTx) (csrIn : CsrChannelIn) (readAck : Bool)
    (readData : BitVec 8) :
    (s.txState = .running ∧ (s.step csrIn readAck readData).txState = .readmemWait ∧
        (s.step csrIn readAck readData).readR = !s.readR) ∨
      ((s.step csrIn readAck readData).readR = s.readR ∧
        (s.step csrIn readAck readData).readAddr = s.readAddr ∧
        (s.txState ≠ .readmemWait → (s.step csrIn readAck readData).txState ≠ .readmemWait) ∧
        ((s.step csrIn readAck readData).txState ≠ .readmemWait → s.txState = .readmemWait →
          s.readR = readAck)) := by
  rw [step_txState, step_readR, step_readAddr, fsm]
  cases hst : s.txState with
  | idle =>
      right
      dsimp only
      split
      · split
        · split <;> simp [hst]
        · split <;> simp [hst]
      · simp [hst]
  | running =>
      dsimp only
      split
      · exact .inl ⟨rfl, rfl, rfl⟩
      · right
        simp
  | readmemWait =>
      right
      dsimp only
      split
      · rename_i hack
        simp [hack]
      · simp [hst]
  | txdWait =>
      right
      dsimp only
      split <;> simp [hst]

/-! ## One edge of the receiver -/

/-- The write requests of the receiver. -/
theorem UartRx.step_write (u : UartRx) (csrIn : CsrChannelIn) (writeAck uartRx reset : Bool) :
    (((u.step csrIn writeAck uartRx).aset reset).writeR = (!u.writeR) ∧ u.rxdState ≠ .memWait ∧
        ((u.step csrIn writeAck uartRx).aset reset).rxdState = .memWait) ∨
      (((u.step csrIn writeAck uartRx).aset reset).writeR = u.writeR ∧
        (u.rxdState ≠ .memWait →
          ((u.step csrIn writeAck uartRx).aset reset).rxdState ≠ .memWait) ∧
        (((u.step csrIn writeAck uartRx).aset reset).rxdState ≠ .memWait → u.rxdState = .memWait →
          u.writeR = writeAck) ∧
        (u.rxdState = .memWait → u.writeR ≠ writeAck →
          ((u.step csrIn writeAck uartRx).aset reset).writeAddr = u.writeAddr ∧
            ((u.step csrIn writeAck uartRx).aset reset).writeData = u.writeData)) := by
  have heffect : Effect u ((u.step csrIn writeAck uartRx).aset reset) writeAck := by
    refine (u.step_effect csrIn writeAck uartRx).congr rfl ?_
    unfold aset
    split <;> exact ⟨rfl, rfl, rfl, rfl, rfl, rfl, rfl⟩
  cases heffect with
  | rest _ _ hreq hst _ hdata =>
      exact .inr ⟨hreq, mt hst.mp, fun hx hy => absurd (hst.mpr hy) hx, fun hx _ => hdata hx⟩
  | restart _ hst _ _ hreq hst' =>
      exact .inr ⟨hreq, fun _ => hst', fun _ hx => absurd hx hst, fun hx => absurd hx hst⟩
  | first _ hst _ _ _ hreq hst' => exact .inl ⟨hreq, hst, hst'⟩
  | next _ hst _ _ _ hreq hst' => exact .inl ⟨hreq, hst, hst'⟩
  | done hst hwritten _ _ hreq _ =>
      exact .inr ⟨hreq, fun hx => absurd hst hx, fun _ _ => hwritten, fun _ hx => absurd hwritten hx⟩

/-! ## The system -/

/-- The UART with its DMA engine and the memory. -/
structure UartUnit where
  uartRx : UartRx
  uartTx : UartTx
  dma : DmaSystem

/-- Inputs in one cycle: the CSR channel, the serial line, the reset, the other memory channels and
the level of the data pins when nobody drives them. -/
structure UartUnitInput where
  csrIn : CsrChannelIn
  uartRx : Bool
  reset : Bool
  others : Channel → MemChannelIn
  float : BitVec 16

namespace UartUnit

/-- Power-up contents. -/
def init (mem : BitVec 24 → BitVec 16) : UartUnit := ⟨UartRx.init, UartTx.init, DmaSystem.init mem⟩

/-- Signal {lit}`pdma_in`. -/
def pdmaIn (s : UartUnit) : PeriphDmaChannelIn where
  read := s.uartTx.readR
  readAddr := s.uartTx.readAddr
  write := s.uartRx.writeR
  writeAddr := s.uartRx.writeAddr
  writeData := s.uartRx.writeData

/-- What the engine and the memory see. -/
def dmaInput (s : UartUnit) (i : UartUnitInput) : DmaInput := ⟨s.pdmaIn, i.others, i.float⟩

/-- One clock cycle. -/
def step (s : UartUnit) (i : UartUnitInput) : UartUnit where
  uartRx := (s.uartRx.step i.csrIn s.dma.dma.writeAckR i.uartRx).aset i.reset
  uartTx := s.uartTx.step i.csrIn s.dma.dma.readAckR s.dma.dma.readData
  dma := s.dma.step (s.dmaInput i)

variable (mem : BitVec 24 → BitVec 16) (inp : ℕ → UartUnitInput)

/-- The system before its {lit}`t`-th edge. -/
def run (t : ℕ) : UartUnit := Clocked.run step (init mem) inp t

/-- What the engine and the memory see along a run. -/
def dmaInputs (t : ℕ) : DmaInput := (run mem inp t).dmaInput (inp t)

variable {mem inp} {t : ℕ}

/-- Engine and memory run as in {lit}`DmaSystem`. -/
theorem run_dma (t : ℕ) : (run mem inp t).dma = DmaSystem.run mem (dmaInputs mem inp) t := by
  induction t with
  | zero => rfl
  | succ t ih =>
      change (run mem inp t).dma.step (dmaInputs mem inp t) = _
      rw [ih]
      rfl

/-! ## Requests and acknowledgements -/

/-- Each half of the UART waits for the engine while its request is open. -/
structure Linked (s : UartUnit) : Prop where
  read : Toggle.Linked (s.uartTx.txState = .readmemWait) s.uartTx.readR s.dma.dma.readAckR
    (s.dma.dma.memState = .wait ∧ s.dma.dma.opWren = false)
  write : Toggle.Linked (s.uartRx.rxdState = .memWait) s.uartRx.writeR s.dma.dma.writeAckR
    (s.dma.dma.memState = .wait ∧ s.dma.dma.opWren = true)

/-- Nothing is asked for at power-up. -/
theorem linked_init (mem : BitVec 24 → BitVec 16) : (init mem).Linked where
  read := ⟨fun _ => rfl, fun h => MemState.noConfusion h.1⟩
  write := ⟨fun _ => rfl, fun h => MemState.noConfusion h.1⟩

/-- Requests and acknowledges stay linked. -/
theorem Linked.step {s : UartUnit} (h : s.Linked) (i : UartUnitInput) : (s.step i).Linked := by
  have hacts : s.dma.dma.Acts s.pdmaIn (s.step i).dma.dma := PeriphDma.step_acts _ _ _ _
  constructor
  · refine h.read.step ?_ ?_
    · rcases s.uartTx.step_read i.csrIn s.dma.dma.readAckR s.dma.dma.readData with
        ⟨hst, hst', hreq⟩ | ⟨hreq, -, hkeep, hseen⟩
      · exact .inl ⟨hreq, by rw [hst]; decide, hst'⟩
      · exact .inr ⟨hreq, hkeep, hseen⟩
    · cases hacts with
      | keep hsame => exact .inl (by rw [hsame]; exact ⟨rfl, .inl⟩)
      | startRead _ hopen _ _ hacks => exact .inl ⟨hacks.1, fun _ => .inr hopen⟩
      | startWrite _ _ _ hwren hacks =>
          refine .inl ⟨hacks.1, fun hx => ?_⟩
          rw [hwren] at hx
          cases hx.2
      | readDone hst hwren hst' hacks =>
          exact .inr ⟨hacks.1, ⟨hst, hwren⟩, fun hx => by rw [hst'] at hx; cases hx.1⟩
      | writeDone _ _ hst' hacks =>
          exact .inl ⟨hacks.1, fun hx => by rw [hst'] at hx; cases hx.1⟩
  · refine h.write.step ?_ ?_
    · rcases s.uartRx.step_write i.csrIn s.dma.dma.writeAckR i.uartRx i.reset with
        ⟨hreq, hst, hst'⟩ | ⟨hreq, hkeep, hseen, -⟩
      · exact .inl ⟨hreq, hst, hst'⟩
      · exact .inr ⟨hreq, hkeep, hseen⟩
    · cases hacts with
      | keep hsame => exact .inl (by rw [hsame]; exact ⟨rfl, .inl⟩)
      | startRead _ _ _ hwren hacks =>
          refine .inl ⟨hacks.2, fun hx => ?_⟩
          rw [hwren] at hx
          cases hx.2
      | startWrite _ hopen _ _ hacks => exact .inl ⟨hacks.2, fun _ => .inr hopen⟩
      | readDone _ _ hst' hacks =>
          exact .inl ⟨hacks.2, fun hx => by rw [hst'] at hx; cases hx.1⟩
      | writeDone hst hwren hst' hacks =>
          exact .inr ⟨hacks.2, ⟨hst, hwren⟩, fun hx => by rw [hst'] at hx; cases hx.1⟩

/-- Requests and acknowledges are linked in every run. -/
theorem linked_run (mem : BitVec 24 → BitVec 16) (inp : ℕ → UartUnitInput) (t : ℕ) :
    (run mem inp t).Linked :=
  Clocked.run_invariant (linked_init mem) (fun t h => h.step (inp t)) t

/-- The UART keeps the rules of its DMA channel. -/
theorem uartContract (mem : BitVec 24 → BitVec 16) (inp : ℕ → UartUnitInput) :
    DmaSystem.UartContract mem (dmaInputs mem inp) where
  start := ⟨rfl, rfl⟩
  readToggle := by
    intro t hne
    rw [← run_dma]
    rcases (run mem inp t).uartTx.step_read (inp t).csrIn (run mem inp t).dma.dma.readAckR
        (run mem inp t).dma.dma.readData with ⟨hst, -⟩ | ⟨hreq, -⟩
    · exact ((linked_run mem inp t).read.rest (by rw [hst]; decide)).symm
    · exact absurd hreq hne
  readHold := by
    intro t hopen
    rw [← run_dma] at hopen
    rcases (run mem inp t).uartTx.step_read (inp t).csrIn (run mem inp t).dma.dma.readAckR
        (run mem inp t).dma.dma.readData with ⟨hst, -⟩ | ⟨-, haddr, -⟩
    · exact absurd ((linked_run mem inp t).read.rest (by rw [hst]; decide)).symm hopen
    · exact haddr
  writeToggle := by
    intro t hne
    rw [← run_dma]
    rcases (run mem inp t).uartRx.step_write (inp t).csrIn (run mem inp t).dma.dma.writeAckR
        (inp t).uartRx (inp t).reset with ⟨-, hst, -⟩ | ⟨hreq, -⟩
    · exact ((linked_run mem inp t).write.rest hst).symm
    · exact absurd hreq hne
  writeHold := by
    intro t hopen
    rw [← run_dma] at hopen
    have hst : (run mem inp t).uartRx.rxdState = .memWait := by
      by_contra hx
      exact hopen ((linked_run mem inp t).write.rest hx).symm
    rcases (run mem inp t).uartRx.step_write (inp t).csrIn (run mem inp t).dma.dma.writeAckR
        (inp t).uartRx (inp t).reset with ⟨-, hx, -⟩ | ⟨-, -, -, hdata⟩
    · exact absurd hst hx
    · exact hdata hst (Ne.symm hopen)

end UartUnit

end Sumeru
