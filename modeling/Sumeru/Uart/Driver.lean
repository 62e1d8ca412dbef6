import Sumeru.Uart.Receiver

/-!
# Sumeru - UART receive driver

The function {lit}`process_rx_data` of the interrupt handler with the receiver and the DMA
channel beside it.  Interrupt handlers do not nest, so the software is in at most one
call at a time; it goes on in cycles that the environment chooses, and so do the
interrupts, the serial line and the completion of DMA writes.

A call reads the driver buffer through the data cache: {lit}`flush_dcache_range` has removed the
lines of the range, so the first access to a line loads it from memory, and the cache may
load it again at any later access.
-/

namespace Sumeru

/-- {lit}`UART0_RX_DRVBUF_START`. -/
def uart0RxDrvbufStart : ℕ := 0x200

/-- The address of byte {lit}`k` of the driver buffer. -/
def drvbufAddr (k : ℕ) : BitVec 25 := BitVec.ofNat 25 (uart0RxDrvbufStart + k)

/-- Where the software stands: before {lit}`uart0_start_engine`, outside the handler, about to call
{lit}`uart0_get_rx`, in {lit}`consprod_produce` about to read byte {lit}`next` of the driver
buffer, or about to call {lit}`uart0_set_rx`. -/
inductive Handler where
  | off
  | idle
  | getRx (uartIntr : Bool)
  | produce (uartIntr : Bool) (pos next : ℕ) (line : Option (BitVec 25 → BitVec 8))
  | setRx

/-- What the software does in a cycle: nothing, start the engine, take an interrupt, or go on
with the call it is in; {lit}`refill` says that the cache loads the line of the byte again. -/
inductive SoftwareInput where
  | none
  | start
  | timer
  | uart0Rx
  | go (refill : Bool)

/-- The inputs of one cycle. -/
structure UartInput where
  uartRx : Bool
  dmaDone : Bool
  baud : Option (BitVec 32)
  software : SoftwareInput

/-- The receiver, memory with the DMA acknowledge, the interrupt controller's copy of the
receive interrupt and the variables of the driver.  The last two fields are histories: the
bytes handed to the DMA channel and those passed to {lit}`consprod_produce`. -/
structure UartSystem where
  rx : UartRx
  mem : BitVec 25 → BitVec 8
  writeAck : Bool
  rxIntrAck : Bool
  handler : Handler
  engineOn : Bool
  lastpos : ℕ
  stored : List (BitVec 8)
  delivered : List (BitVec 8)

namespace UartSystem

/-- Power-up contents. -/
def init (mem : BitVec 25 → BitVec 8) : UartSystem where
  rx := UartRx.init
  mem := mem
  writeAck := false
  rxIntrAck := false
  handler := .off
  engineOn := false
  lastpos := 0
  stored := []
  delivered := []

/-! ## The driver -/

/-- The end of {lit}`process_rx_data`: the receive interrupt arms the receiver again. -/
def finish (s : UartSystem) (uartIntr : Bool) : UartSystem :=
  if uartIntr = true then
    { s with lastpos := if s.engineOn = true then 0 else s.lastpos, handler := .setRx }
  else { s with handler := .idle }

/-- The value of {lit}`uart0_get_rx() & 0xff`. -/
def getRx (s : UartSystem) : ℕ := s.rx.csrSelResult.toNat % 256

/-- One byte of {lit}`consprod_produce`, on a ring that is not full. -/
def produceByte (s : UartSystem) (uartIntr : Bool) (pos next : ℕ)
    (line : BitVec 25 → BitVec 8) : UartSystem :=
  if next + 1 < pos then
    { s with
      delivered := s.delivered ++ [line (drvbufAddr next)]
      handler := .produce uartIntr pos (next + 1)
        (if (next + 1) % 16 = 0 then none else some line) }
  else
    ({ s with
      delivered := s.delivered ++ [line (drvbufAddr next)]
      lastpos := pos } : UartSystem).finish uartIntr

/-- The line of the next byte: loaded from memory unless the cache holds it. -/
def lineOfByte (s : UartSystem) (line : Option (BitVec 25 → BitVec 8)) (refill : Bool) :
    BitVec 25 → BitVec 8 :=
  if refill then s.mem else line.getD s.mem

/-- The software in one cycle. -/
def software (s : UartSystem) : SoftwareInput → UartSystem
  | .none => s
  | .start =>
      match s.handler with
      | .off => { s with engineOn := true, lastpos := 0, handler := .setRx }
      | _ => s
  | .timer =>
      match s.handler with
      | .idle => { s with handler := .getRx false }
      | _ => s
  | .uart0Rx =>
      match s.handler with
      | .idle =>
          if s.rx.rxIntrToggle ≠ s.rxIntrAck then
            { s with rxIntrAck := s.rx.rxIntrToggle, handler := .getRx true }
          else s
      | _ => s
  | .go refill =>
      match s.handler with
      | .getRx uartIntr =>
          if s.lastpos < s.getRx then
            { s with handler := .produce uartIntr s.getRx s.lastpos none }
          else s.finish uartIntr
      | .produce uartIntr pos next line =>
          s.produceByte uartIntr pos next (s.lineOfByte line refill)
      | .setRx => { s with handler := .idle }
      | _ => s

/-- A new baud setting, if there is one. -/
def baudWrite (i : UartInput) : CsrChannelIn :=
  match i.baud with
  | some x => ⟨0#12, 0#2, true, csrRegUart0RxBaud, x⟩
  | none => ⟨0#12, 0#2, false, 0#12, 0#32⟩

/-- The CSR write of the cycle: {lit}`uart0_set_rx`, the write of {lit}`uart0_get_rx` that has bit 31
set, or a new baud setting. -/
def csrIn (s : UartSystem) (i : UartInput) : CsrChannelIn :=
  match i.software with
  | .go _ =>
      match s.handler with
      | .setRx =>
          ⟨0#12, 0#2, true, csrRegUart0Rx,
            BitVec.ofNat 32 uart0RxDrvbufStart ||| (if s.engineOn = true then 255#32 else 0#32)⟩
      | .getRx _ => ⟨0#12, 0#2, true, csrRegUart0Rx, 0x80000000#32⟩
      | _ => baudWrite i
  | _ => baudWrite i

/-- One clock cycle. -/
def step (s : UartSystem) (i : UartInput) : UartSystem :=
  { s.software i.software with
    rx := s.rx.step (s.csrIn i) s.writeAck i.uartRx
    mem :=
      if i.dmaDone = true ∧ s.rx.writeR ≠ s.writeAck then
        Function.update s.mem s.rx.writeAddr s.rx.writeData
      else s.mem
    writeAck := if i.dmaDone = true ∧ s.rx.writeR ≠ s.writeAck then s.rx.writeR else s.writeAck
    stored := s.stored ++ (s.rx.storedByte s.writeAck).toList }

/-- The states reached from power-up by cycles that meet a condition. -/
inductive ReachedBy (cond : UartSystem → UartInput → Prop) : UartSystem → Prop where
  | init (mem : BitVec 25 → BitVec 8) : ReachedBy cond (init mem)
  | step {s : UartSystem} (h : ReachedBy cond s) (i : UartInput) (hi : cond s i) :
      ReachedBy cond (s.step i)

/-- Bytes are passed on in the order in which they are stored, each once, and all of them
when the receive interrupt is about to arm the receiver again. -/
structure DeliversOnce (s : UartSystem) : Prop where
  inOrder : s.delivered <+: s.stored
  complete : s.handler = .setRx → s.delivered = s.stored

/-- The condition on a cycle: the position is not read while a restart of the buffer is
unacknowledged, unless it is not beyond {lit}`lastpos`; and a line is not loaded while the
DMA write of one of the bytes to be read from it is outstanding. -/
structure Undisturbed (s : UartSystem) (i : UartInput) : Prop where
  sample : ∀ uartIntr refill, s.handler = .getRx uartIntr → i.software = .go refill →
    s.rx.rxResetCurpos = s.rx.rxResetCurposAck ∨ s.rx.rxBufCurpos.toNat ≤ s.lastpos
  line : ∀ uartIntr pos next line refill, s.handler = .produce uartIntr pos next line →
    i.software = .go refill → line = none ∨ refill = true →
      s.rx.writeR = s.writeAck ∨ ∀ k, next ≤ k → k < pos → k / 16 = next / 16 →
        s.rx.writeAddr ≠ drvbufAddr k

end UartSystem

end Sumeru
