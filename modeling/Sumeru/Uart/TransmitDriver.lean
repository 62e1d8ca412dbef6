import Sumeru.Cache.Operations
import Sumeru.Drivers.Consprod
import Sumeru.Uart.Transmitter

/-!
# Sumeru - UART transmit driver

The function {lit}`process_tx_data` of the interrupt handler with the transmitter, the DMA
channel and the data cache beside it, and the application that fills the ring
{lit}`g_uart0_tx_cp` by {lit}`uart0_blocking_write`.  The application stands still while a handler
runs, and handlers do not nest; the software goes on in cycles that the environment
chooses, and so do the interrupts and the completion of DMA reads.  The engine is on.

The driver buffer is written through the data cache.  The ring is used by the program
only, which sees its own stores there, so its bytes are those of {lit}`RingSystem`.  All other
accesses to memory are inputs; they do not touch the driver buffer.

A frame is what a receiver clocked at the bit times of {lit}`tx_clk` makes of the line.
-/

namespace Sumeru

/-- {lit}`UART0_TX_DRVBUF_START`. -/
def uart0TxDrvbufStart : BitVec 32 := 0x100#32

/-- The address lines of byte {lit}`k` of the driver buffer. -/
def txDrvbufByte (k : ℕ) : BitVec 25 := busAddr (uart0TxDrvbufStart + BitVec.ofNat 32 k)

/-- {lit}`UART0_TX_STREAMBUF_START`. -/
def uart0TxStreambufStart : ℕ := 0x2000

/-- {lit}`UART0_TX_STREAMBUF_END`. -/
def uart0TxStreambufEnd : ℕ := 0x3000

/-! ## Frames on the line -/

/-- The bits of the frame that is on the line, and the frames before it. -/
structure LineDecoder where
  bits : Option (List Bool)
  frames : List (BitVec 8)

/-- Eight bits, least significant first. -/
def byteOfBits (bits : List Bool) : BitVec 8 :=
  bits.foldr (fun b x => x <<< 1 ||| (BitVec.ofBool b).setWidth 8) 0#8

/-- The level of the line in the next bit time: a low level begins a frame, and behind eight
bits a high one ends it. -/
def LineDecoder.tick (d : LineDecoder) (level : Bool) : LineDecoder :=
  match d.bits with
  | none => if level = true then d else { d with bits := some [] }
  | some bits =>
      if bits.length < 8 then { d with bits := some (bits ++ [level]) }
      else if level = true then ⟨none, d.frames ++ [byteOfBits bits]⟩
      else { d with bits := none }

/-! ## The system -/

/-- Where the handler stands: outside, at the head of {lit}`process_tx_data`, in
{lit}`consprod_consume`, in {lit}`memcpy` before byte {lit}`k`, in {lit}`flush_dcache_range` before line
{lit}`k`, before {lit}`uart0_set_tx`, or before {lit}`s_uart0_tx_active = 1`.  In the ring, byte
{lit}`start` of the history is the first that goes to {lit}`buf`. -/
inductive TxHandler where
  | idle
  | enter (uartIntr : Bool)
  | consume (start : ℕ)
  | copy (buf : List (BitVec 8)) (k : ℕ)
  | flush (x k : ℕ)
  | setTx (x : ℕ)
  | setActive
deriving DecidableEq, Repr

/-- An access to memory outside the driver buffer. -/
inductive OtherAccess where
  | perform (op : MemOp) (h : ∀ a, op.covers a = true → a.toNat / 256 ≠ 1)
  | dma (a : BitVec 25) (b : BitVec 8) (h : a.toNat / 256 ≠ 1)

/-- What the software does in a cycle: nothing, the application calls
{lit}`uart0_blocking_write` or goes on with it, an interrupt is taken, or the handler goes on. -/
inductive TxSoftware where
  | none
  | write (buf : List (BitVec 8))
  | application
  | timer
  | uart0Tx
  | go

/-- The inputs of one cycle. -/
structure TxInput where
  software : TxSoftware
  others : List OtherAccess
  dmaDone : Bool

/-- The ring, the transmitter with its DMA channel, memory, the interrupt controller's copy of
the transmit interrupt, the driver and the line. -/
structure TxSystem where
  ring : RingSystem
  tx : UartTx
  memory : CachedMemory
  readAck : Bool
  readData : BitVec 8
  txIntrAck : Bool
  handler : TxHandler
  active : Bool
  line : LineDecoder

namespace TxSystem

/-- One access of the others. -/
def other (m : CachedMemory) : OtherAccess → CachedMemory
  | .perform op _ => m.perform op
  | .dma a b _ => m.dma a b

/-- The handler takes its next step. -/
def goOn (s : TxSystem) : TxSystem :=
  match s.handler with
  | .idle => s
  | .enter uartIntr =>
      let active := if uartIntr = true then false else s.active
      if uartIntr = true ∨ active = false then
        { s with
          active := active
          ring := s.ring.step (.callConsume 255 false)
          handler := .consume s.ring.stored.length }
      else { s with active := active, handler := .idle }
  | .consume start =>
      match s.ring.consume with
      | .returned x =>
          if 0 < x then { s with handler := .copy ((s.ring.stored.drop start).take x) 0 }
          else { s with handler := .idle }
      | _ => { s with ring := s.ring.step .consumer }
  | .copy buf k =>
      { s with
        memory := s.memory.perform (storeOp (uart0TxDrvbufStart + BitVec.ofNat 32 k) (buf.getD k 0#8))
        handler := if k + 1 < buf.length then .copy buf (k + 1) else .flush buf.length 0 }
  | .flush x k =>
      { s with
        memory := s.memory.perform (flushOp (uart0TxDrvbufStart + BitVec.ofNat 32 (16 * k)))
        handler := if 16 * (k + 1) < x then .flush x (k + 1) else .setTx x }
  | .setTx _ => { s with handler := .setActive }
  | .setActive => { s with active := true, handler := .idle }

/-- The software in one cycle. -/
def software (s : TxSystem) : TxSoftware → TxSystem
  | .none => s
  | .write buf =>
      match s.handler with
      | .idle => { s with ring := s.ring.step (.callProduce buf true) }
      | _ => s
  | .application =>
      match s.handler with
      | .idle => { s with ring := s.ring.step .producer }
      | _ => s
  | .timer =>
      match s.handler with
      | .idle => { s with handler := .enter false }
      | _ => s
  | .uart0Tx =>
      match s.handler with
      | .idle =>
          if s.tx.txIntrToggle ≠ s.txIntrAck then
            { s with txIntrAck := s.tx.txIntrToggle, handler := .enter true }
          else s
      | _ => s
  | .go => s.goOn

/-- The CSR write of the cycle: {lit}`uart0_set_tx`. -/
def csrIn (s : TxSystem) (i : TxInput) : CsrChannelIn :=
  match i.software, s.handler with
  | .go, .setTx x =>
      ⟨0#12, 0#2, true, csrRegUart0Tx, uart0TxDrvbufStart ||| BitVec.ofNat 32 x⟩
  | _, _ => ⟨0#12, 0#2, false, 0#12, 0#32⟩

/-- The DMA channel answers the read of the transmitter. -/
def answers (s : TxSystem) (i : TxInput) : Prop := i.dmaDone = true ∧ s.tx.readR ≠ s.readAck

instance (s : TxSystem) (i : TxInput) : Decidable (s.answers i) := inferInstanceAs (Decidable (_ ∧ _))

/-- The accesses of the others in a cycle. -/
def disturb (s : TxSystem) (i : TxInput) : TxSystem :=
  { s with memory := i.others.foldl other s.memory }

/-- One clock cycle. -/
def step (s : TxSystem) (i : TxInput) : TxSystem :=
  let tx := s.tx.step (s.csrIn i) s.readAck s.readData
  { (s.disturb i).software i.software with
    tx := tx
    readAck := if s.answers i then s.tx.readR else s.readAck
    readData := if s.answers i then s.memory.mem s.tx.readAddr else s.readData
    line := if s.tx.Rises then s.line.tick tx.uartTx else s.line }

/-- The engine has just been started: the ring is empty, and the transmitter, its interrupt and
the line are at rest.  The memory may hold anything. -/
structure Started (s : TxSystem) : Prop where
  ring : ∃ mem, s.ring = RingSystem.init uart0TxStreambufStart uart0TxStreambufEnd mem
  idle : s.tx.txState = .idle
  bits : s.tx.txdStart = s.tx.txdStartAck ∧ s.tx.txdBitnr = 0#4
  dma : s.tx.readR = s.readAck
  intr : s.tx.txIntrToggle = s.txIntrAck
  handler : s.handler = .idle
  active : s.active = false
  line : s.line = ⟨none, []⟩

/-- The system after {lit}`t` cycles. -/
def run (s : TxSystem) (inp : ℕ → TxInput) (t : ℕ) : TxSystem := Clocked.run step s inp t

end TxSystem

end Sumeru
