import Sumeru.Cache.InstructionFetch
import Sumeru.Cache.ReadWriteCache
import Sumeru.Cpu.Idecode
import Sumeru.Memory.MemoryLoader
import Sumeru.Memory.PeriphDma
import Sumeru.Uart.Receiver
import Sumeru.Uart.Transmitter

/-!
# Sumeru - Power-up

The units of {lit}`cpu.vhd` that use the memory channels, from power-up on.  Only the fetch stage
and the line register of the UART see {lit}`reset_n`; the other units are held by what does not
reach them: without a fetched word nothing is executed, without a CSR write the UART does not
transmit, and without a start bit it does not receive.

Main results:

- Theorem {lit}`Processor.asleep_run`: while the reset is on the units are as at power-up.
- Theorem {lit}`boot_image_copied`: the copy of the boot ROM and the hand-over of channel 7.
-/

namespace Sumeru

/-! ## Units without work -/

/-- A fetch unit with an empty cache and nothing fetched. -/
structure FetchUnit.Asleep (s : FetchUnit) : Prop where
  state : s.icache.state = .idle
  start : s.icache.opStartR = false
  wren : s.icache.metaWren = false
  empty : ∀ l, s.icache.metaRam l = 0#16
  flush : s.ifetch.icacheFlush = s.icache.flushAckR
  valid : s.ifetch.idecodeIn.valid = false

/-- An empty cache has no hit. -/
theorem FetchUnit.Asleep.hit {s : FetchUnit} (h : s.Asleep) : s.settled.hit s.addr = false := by
  rw [← Bool.not_eq_true]
  intro hhit
  have hvalid := (ReadCache.valid_of_hit hhit).1
  have hram : s.settled.metaRam = s.icache.metaRam := by
    simp [settled, ReadCache.clkN, h.wren]
  rw [ReadCache.valid, hram, h.empty] at hvalid
  exact absurd hvalid (by simp)

/-- Without {lit}`enable` the cache does not ask for a line. -/
theorem FetchUnit.Asleep.step {s : FetchUnit} (h : s.Asleep) {i : FetchUnitInput}
    (hen : i.enable = false) : (s.step i).Asleep := by
  have hcache : (s.step i).icache = s.settled.edgeDefaults i.sdcDataOut := by
    have hst : s.settled.state = .idle := h.state
    have hflush : ¬ s.ifetch.icacheFlush ≠ s.settled.flushAckR := fun hne => hne h.flush
    simp only [FetchUnit.step, ReadCache.clk, hst, if_neg hflush, hen, Bool.false_and,
      Bool.false_eq_true, if_false]
  have hfetch : (s.step i).ifetch.icacheFlush = s.ifetch.icacheFlush ∧
      (s.step i).ifetch.idecodeIn.valid = false := by
    have hack : ¬ (s.ifetchIn i).icacheFlushAck ≠ s.ifetch.icacheFlush :=
      fun hne => hne h.flush.symm
    have hmiss : (s.ifetchIn i).icacheHit = false := h.hit
    simp only [FetchUnit.step, Ifetch.step, if_neg hack, hmiss, Bool.and_false,
      Bool.false_eq_true, if_false, h.valid, Bool.false_and, and_self]
  constructor
  · rw [hcache]
    exact h.state
  · rw [hcache]
    exact h.start
  · rw [hcache]
    rfl
  · intro l
    rw [hcache]
    simp [ReadCache.edgeDefaults, settled, ReadCache.clkN, h.wren, h.empty]
  · rw [hcache, hfetch.1]
    exact h.flush
  · exact hfetch.2

/-- An execute stage with nothing in it. -/
structure Iexec.Asleep (s : Iexec) : Prop where
  state : s.state = .running
  start : s.dcacheStart = false
  doWrite : s.csrDoWrite = false
  opValid : s.csrIn.csrOpValid = false

/-- Without an instruction the stage stays asleep. -/
theorem Iexec.Asleep.step (V : Megafunctions) {s : Iexec} (h : s.Asleep) {i : IexecInput}
    (hvalid : i.iexecIn.valid = false) : (s.step V i).Asleep := by
  have hmain : s.mainProcess V i = s.edgeDefaults := by
    rw [mainProcess, h.state]
    simp [accepts, hvalid]
  constructor
  · simp only [Iexec.step, hmain]
    exact h.state
  · simp only [Iexec.step, hmain]
    exact h.start
  · simp only [Iexec.step, hmain]
    rfl
  · simp only [Iexec.step]
    exact h.doWrite

/-- A data cache that has never been asked. -/
structure Dcache.Asleep (c : Dcache) : Prop where
  state : c.state = .idle
  save : c.startSave = false
  start : c.mcOpStart = false

/-- Without a request the cache stays asleep. -/
theorem Dcache.Asleep.step {c : Dcache} (h : c.Asleep) {i : DcacheInput} (hstart : i.start = false)
    (opStrobe : Bool) (sdcDataOut : BitVec 16) (addr : BitVec 25) :
    ((c.clk i opStrobe sdcDataOut).clkN addr).Asleep := by
  have hclk : c.clk i opStrobe sdcDataOut = c.edgeDefaults sdcDataOut := by
    simp [clk, h.state, hstart, h.save]
  rw [hclk]
  exact ⟨h.state, h.save, h.start⟩

/-- A DMA engine without requests. -/
structure PeriphDma.Asleep (d : PeriphDma) : Prop where
  state : d.memState = .running
  readAck : d.readAckR = false
  writeAck : d.writeAckR = false
  start : d.memOpStart = false

/-- Without a request the engine does nothing. -/
theorem PeriphDma.Asleep.step {d : PeriphDma} (h : d.Asleep) {p : PeriphDmaChannelIn}
    (hread : p.read = false) (hwrite : p.write = false) (opStrobe : Bool)
    (sdcDataOut : BitVec 16) : d.step opStrobe sdcDataOut p = d := by
  simp [PeriphDma.step, h.state, h.readAck, h.writeAck, hread, hwrite]

namespace UartRx

/-- A receiver that sees an idle line. -/
structure Asleep (u : UartRx) : Prop where
  state : u.rxdState = .idle
  line : u.rxShregData = 0xFFFF#16
  write : u.writeR = false

/-- On an idle line the receiver stays asleep. -/
theorem Asleep.step {u : UartRx} (h : u.Asleep) {csrIn : CsrChannelIn}
    (hvalid : csrIn.csrOpValid = false) (writeAck uartRx : Bool) :
    ((u.step csrIn writeAck uartRx).aset true).Asleep := by
  have hstep : u.step csrIn writeAck uartRx = u.shift (u.fsm writeAck) uartRx := by
    simp [UartRx.step, rxRegUpdate, hvalid]
  have hidle : (u.fsm writeAck).rxdState = .idle ∧ (u.fsm writeAck).writeR = u.writeR := by
    have hline : ¬ u.rxShregData = 0x0000#16 := by
      rw [h.line]
      decide
    simp only [fsm, stateEdge, h.state, idleEdge, if_neg hline]
    split <;> exact ⟨rfl, rfl⟩
  rw [hstep]
  exact ⟨hidle.1, rfl, hidle.2.trans h.write⟩

end UartRx

namespace UartTx

/-- A transmitter without work. -/
structure Asleep (u : UartTx) : Prop where
  state : u.txState = .idle
  read : u.readR = false

/-- Without a CSR write the transmitter stays asleep. -/
theorem Asleep.step {u : UartTx} (h : u.Asleep) {csrIn : CsrChannelIn}
    (hvalid : csrIn.csrOpValid = false) (readAck : Bool) (readData : BitVec 8) :
    (u.step csrIn readAck readData).Asleep := by
  have hfsm : u.fsm csrIn readAck readData = u := by
    simp [fsm, h.state, hvalid]
  rw [step_eq, hfsm]
  exact ⟨h.state, h.read⟩

end UartTx

/-! ## The processor -/

/-- The units on the memory channels, with the stages between them. -/
structure Processor where
  boot : BootSystem
  fetch : FetchUnit
  idecode : Idecode
  iexec : Iexec
  dcache : Dcache
  dma : PeriphDma
  uartRx : UartRx
  uartTx : UartTx

/-- Inputs in one cycle: the lock of the PLL, the serial line, the data pins of the memory when
nobody drives them, what the remaining units drive on {lit}`csr_sel_result` and {lit}`intr_out`,
and the undefined outputs of the RAMs. -/
structure ProcessorInput where
  pllLocked : Bool
  uartRx : Bool
  float : BitVec 16
  csrBus : BitVec 32
  intrOut : IntrChannelOut
  undefinedLanes : Fin 4 → Lanes

/-- Signals {lit}`mc3_in` to {lit}`mc6_in`, which keep their initial value. -/
def unusedMcIn : MemChannelIn := ⟨0#24, false, false, false, 0#2, 0#16⟩

namespace Processor

/-- Signal {lit}`reset_n`. -/
def resetN (s : Processor) : Bool := s.boot.loader.loadDone

/-- The memory channels other than the one of the loader. -/
def others (s : Processor) (c : Channel) : MemChannelIn :=
  if c = 0 then s.fetch.mcIn
  else if c = 1 then s.dcache.mcIn
  else if c = dmaChannel then s.dma.mcIn
  else unusedMcIn

/-- Signal {lit}`sdc_data_out` at the end of the cycle. -/
def sdcDataOut (s : Processor) (i : ProcessorInput) : BitVec 16 :=
  (s.boot.sdram.step (s.boot.mc s.others, i.float)).dataOut

/-- What the data cache sees of the execute stage. -/
def dcacheIn (s : Processor) (i : ProcessorInput) : DcacheInput where
  addr := s.iexec.dcacheAddr
  start := s.iexec.dcacheStart
  wren := s.iexec.dcacheWren
  byteena := s.iexec.byteena
  writeData := s.iexec.cacheData
  undefinedLanes := i.undefinedLanes

/-- What the execute stage sees. -/
def iexecInput (s : Processor) (i : ProcessorInput) : IexecInput where
  iexecIn := s.idecode.iexecIn
  dcacheHit := s.dcache.hit (s.dcacheIn i)
  dcacheReadData := s.dcache.readData (s.dcacheIn i)
  dcacheWriteStrobe := s.dcache.writeStrobeR
  csrBus := i.csrBus
  intrOut := i.intrOut

/-- Signal {lit}`pdma_in`. -/
def pdmaIn (s : Processor) : PeriphDmaChannelIn where
  read := s.uartTx.readR
  readAddr := s.uartTx.readAddr
  write := s.uartRx.writeR
  writeAddr := s.uartRx.writeAddr
  writeData := s.uartRx.writeData

/-- The part of the inputs that reaches the loader and the memory. -/
def bootInput (s : Processor) (i : ProcessorInput) : BootInput := ⟨i.pllLocked, s.others, i.float⟩

/-- What the fetch unit sees. -/
def fetchInput (s : Processor) (i : ProcessorInput) : FetchUnitInput where
  enable := s.resetN
  idecodeOut := s.iexec.out
  opStrobe := s.boot.sdram.sys.opStrobe 0
  sdcDataOut := s.sdcDataOut i

variable (V : Megafunctions) (rom : BitVec 10 → BitVec 16)

/-- One clock cycle; as in {lit}`DataUnit`, the data cache is seen in front of the edge of
{lit}`clk`. -/
def step (s : Processor) (i : ProcessorInput) : Processor where
  boot := s.boot.step rom (s.bootInput i)
  fetch := s.fetch.step (s.fetchInput i)
  idecode := s.idecode.step s.fetch.ifetch.idecodeIn s.iexec.out
  iexec := s.iexec.step V (s.iexecInput i)
  dcache := (s.dcache.clk (s.dcacheIn i) (s.boot.sdram.sys.opStrobe 1) (s.sdcDataOut i)).clkN
    (s.iexec.step V (s.iexecInput i)).dcacheAddr
  dma := s.dma.step (s.boot.sdram.sys.opStrobe dmaChannel) (s.sdcDataOut i) s.pdmaIn
  uartRx := (s.uartRx.step s.iexec.csrIn s.dma.writeAckR i.uartRx).aset (!s.resetN)
  uartTx := s.uartTx.step s.iexec.csrIn s.dma.readAckR s.dma.readData

variable (q : BitVec 16) (mem : BitVec 24 → BitVec 16) (inp : ℕ → ProcessorInput)

/-- Power-up contents. -/
def init : Processor where
  boot := BootSystem.init q mem
  fetch := FetchUnit.init
  idecode := Idecode.init
  iexec := Iexec.init
  dcache := Dcache.init
  dma := PeriphDma.init
  uartRx := UartRx.init
  uartTx := UartTx.init

/-- The processor before its {lit}`t`-th edge. -/
def run (t : ℕ) : Processor := Clocked.run (step V rom) (init q mem) inp t

/-- What the loader and the memory see along a run. -/
def bootInputs (t : ℕ) : BootInput := (run V rom q mem inp t).bootInput (inp t)

/-- The memory at the {lit}`t`-th edge. -/
def cells (t : ℕ) : BitVec 24 → BitVec 16 :=
  ((run V rom q mem inp t).step V rom (inp t)).boot.sdram.dev.mem

/-- The half-word that the device stores to in cycle {lit}`t`. -/
def storedAt (t : ℕ) : Option (BitVec 24) := (run V rom q mem inp t).boot.sdram.storedCell

/-- The arbiter forwards a request of channel {lit}`c` at edge {lit}`t`. -/
def forwardsAt (c : Channel) (t : ℕ) : Bool :=
  (run V rom q mem inp t).boot.sdram.sys.forwards
    ((run V rom q mem inp t).boot.mc (run V rom q mem inp t).others) c

variable {V rom q mem inp} {t T : ℕ}

/-- Loader and memory run as in {lit}`BootSystem`. -/
theorem run_boot (t : ℕ) : (run V rom q mem inp t).boot =
    BootSystem.run rom q mem (bootInputs V rom q mem inp) t := by
  induction t with
  | zero => rfl
  | succ t ih =>
      change (run V rom q mem inp t).boot.step rom (bootInputs V rom q mem inp t) = _
      rw [ih]
      rfl

/-- The memory is that of the loader. -/
theorem cells_eq (t : ℕ) : cells V rom q mem inp t =
    BootSystem.cells rom q mem (bootInputs V rom q mem inp) t := by
  change (run V rom q mem inp (t + 1)).boot.sdram.dev.mem = _
  rw [run_boot, BootSystem.run_sdram]
  rfl

/-- The stores are those of the loader. -/
theorem storedAt_eq : storedAt V rom q mem inp =
    BootSystem.storedAt rom q mem (bootInputs V rom q mem inp) := by
  funext t
  rw [storedAt, run_boot]
  rfl

/-- The arbiter is that of the loader. -/
theorem forwardsAt_eq (c : Channel) (t : ℕ) : forwardsAt V rom q mem inp c t =
    (BootSystem.run rom q mem (bootInputs V rom q mem inp) t).sdram.sys.forwards
      (BootSystem.channels rom q mem (bootInputs V rom q mem inp) t) c := by
  rw [forwardsAt, run_boot]
  rfl

/-! ## While the reset is on -/

/-- Nothing has begun yet. -/
structure Asleep (s : Processor) : Prop where
  fetch : s.fetch.Asleep
  idecode : s.idecode.execValid = false
  iexec : s.iexec.Asleep
  dcache : s.dcache.Asleep
  dma : s.dma.Asleep
  uartRx : s.uartRx.Asleep
  uartTx : s.uartTx.Asleep

/-- Everything is asleep at power-up. -/
theorem asleep_init (q : BitVec 16) (mem : BitVec 24 → BitVec 16) : (init q mem).Asleep where
  fetch := ⟨rfl, rfl, rfl, fun _ => rfl, rfl, rfl⟩
  idecode := rfl
  iexec := ⟨rfl, rfl, rfl, rfl⟩
  dcache := ⟨rfl, rfl, rfl⟩
  dma := ⟨rfl, rfl, rfl, rfl⟩
  uartRx := ⟨rfl, rfl, rfl⟩
  uartTx := ⟨rfl, rfl⟩

/-- Nothing wakes up while the reset is on. -/
theorem Asleep.step {s : Processor} (h : s.Asleep) (hreset : s.resetN = false)
    (i : ProcessorInput) : (s.step V rom i).Asleep where
  fetch := h.fetch.step hreset
  idecode := by
    change (s.idecode.step s.fetch.ifetch.idecodeIn s.iexec.out).execValid = false
    unfold Idecode.step
    rw [h.fetch.valid]
    split
    · rfl
    · split
      · rfl
      · exact h.idecode
  iexec := h.iexec.step V h.idecode
  dcache := h.dcache.step h.iexec.start _ _ _
  dma := by
    change (s.dma.step _ _ s.pdmaIn).Asleep
    rw [h.dma.step h.uartTx.read h.uartRx.write]
    exact h.dma
  uartRx := by
    change ((s.uartRx.step s.iexec.csrIn s.dma.writeAckR i.uartRx).aset (!s.resetN)).Asleep
    rw [hreset]
    exact h.uartRx.step h.iexec.opValid _ _
  uartTx := h.uartTx.step h.iexec.opValid _ _

/-- A processor that is asleep leaves the memory to the loader. -/
theorem Asleep.others {s : Processor} (h : s.Asleep) (c : Channel) :
    (s.others c).opStart = false := by
  unfold Processor.others
  split
  · exact h.fetch.start
  · split
    · exact h.dcache.start
    · split
      · exact h.dma.start
      · rfl

/-- Everything is asleep until the reset is released. -/
theorem asleep_run (hreset : ∀ u, u < T → (run V rom q mem inp u).resetN = false) (ht : t ≤ T) :
    (run V rom q mem inp t).Asleep := by
  induction t with
  | zero => exact asleep_init q mem
  | succ t ih => exact (ih (by omega)).step (hreset t (by omega)) (inp t)

/-- The loader is alone on the memory until it releases the reset. -/
theorem loading_of_reset (hreset : ∀ u, u < T → (run V rom q mem inp u).resetN = false) :
    BootSystem.Loading rom q mem (bootInputs V rom q mem inp) T where
  loading := by
    intro t ht
    rw [← run_boot]
    exact hreset t ht
  silent := fun t ht c _ => (asleep_run hreset ht).others c

/-! ## The release of the reset -/

/-- The reset is released if the PLL is locked again and again. -/
theorem eventually_resetN (V : Megafunctions) (rom : BitVec 10 → BitVec 16) (q : BitVec 16)
    (mem : BitVec 24 → BitVec 16) (hpll : ∀ t, ∃ u, t ≤ u ∧ (inp u).pllLocked = true) :
    ∃ T, (run V rom q mem inp T).resetN = true := by
  have hend : ∃ T,
      (BootSystem.run rom q mem (bootInputs V rom q mem inp) T).loader.loadDone = true := by
    refine BootSystem.eventually_loadDone hpll fun T hT => loading_of_reset fun u hu => ?_
    rw [resetN, run_boot]
    exact hT u hu
  obtain ⟨T, hT⟩ := hend
  refine ⟨T, ?_⟩
  rw [resetN, run_boot]
  exact hT

/-- When the reset is released the ROM has been copied. -/
theorem copied_of_resetN (hreset : ∀ u, u < T → (run V rom q mem inp u).resetN = false)
    (hdone : (run V rom q mem inp T).resetN = true) :
    cells V rom q mem inp T = BootSystem.copied rom mem 1024 ∧
      Clocked.log (storedAt V rom q mem inp) (T + 1) =
        (List.range 1024).map (BitVec.ofNat 24) := by
  have hload := loading_of_reset hreset
  rw [resetN, run_boot] at hdone
  rw [cells_eq, storedAt_eq, ← BootSystem.writtenAt_of_loadDone hload hdone]
  exact BootSystem.copied_run hload le_rfl

/-- After the release the reset stays released and the loader asks for nothing. -/
theorem released_of_le (ht : (run V rom q mem inp t).resetN = true) {u : ℕ} (htu : t ≤ u) :
    (run V rom q mem inp u).resetN = true ∧
      forwardsAt V rom q mem inp loaderChannel u = false := by
  rw [resetN, run_boot] at ht ⊢
  rw [forwardsAt_eq]
  exact BootSystem.not_forwards_of_loadDone ht htu

end Processor

/-! ## The boot image -/

open Processor in
/-- The boot image.  Whatever the ROM holds and however long the memory takes, {lit}`load_done` is
raised if the PLL is locked again and again, and it stays.  In the cycle in which it is raised the
first 1024 half-words of memory are those of the ROM and the others are as at power-up, the device
has stored to each of the first 1024 half-words exactly once and to no other, and from that cycle
on the arbiter forwards no request of channel 7. -/
theorem boot_image_copied (V : Megafunctions) (rom : BitVec 10 → BitVec 16) (q : BitVec 16)
    (mem : BitVec 24 → BitVec 16) (inp : ℕ → ProcessorInput) :
    ((∀ t, ∃ u, t ≤ u ∧ (inp u).pllLocked = true) →
      ∃ T, (run V rom q mem inp T).resetN = true) ∧
    ∀ T, (run V rom q mem inp T).resetN = true →
      (∀ t, t < T → (run V rom q mem inp t).resetN = false) →
        (∀ a : BitVec 24, cells V rom q mem inp T a =
          if a.toNat < 1024 then rom (a.extractLsb' 0 10) else mem a) ∧
        Clocked.log (storedAt V rom q mem inp) (T + 1) = (List.range 1024).map (BitVec.ofNat 24) ∧
        ∀ t, T ≤ t → (run V rom q mem inp t).resetN = true ∧
          forwardsAt V rom q mem inp loaderChannel t = false := by
  refine ⟨eventually_resetN V rom q mem, fun T hdone hreset => ?_⟩
  obtain ⟨hcells, hlog⟩ := copied_of_resetN hreset hdone
  refine ⟨fun a => ?_, hlog, fun t ht => released_of_le hdone ht⟩
  rw [hcells, BootSystem.copied]

/-- A cycle with the PLL locked and the serial line idle. -/
def lockedInput : ProcessorInput := ⟨true, true, 0#16, 0#32, ⟨false, 0#4⟩, fun _ _ => ⟨false, 0#8⟩⟩

open Processor in
/-- A ROM that counts, copied over a memory of zeros. -/
theorem boot_image_copied_locked :
    ∃ T, (run .documented (BitVec.setWidth 16) 0#16 (fun _ => 0#16) (fun _ => lockedInput) T).resetN =
        true ∧
      cells .documented (BitVec.setWidth 16) 0#16 (fun _ => 0#16) (fun _ => lockedInput) T 5#24 =
        5#16 ∧
      cells .documented (BitVec.setWidth 16) 0#16 (fun _ => 0#16) (fun _ => lockedInput) T 1029#24 =
        0#16 := by
  obtain ⟨hend, hcopy⟩ := boot_image_copied .documented (BitVec.setWidth 16) 0#16 (fun _ => 0#16)
    (fun _ => lockedInput)
  have hex := hend fun t => ⟨t, le_rfl, rfl⟩
  have hcells := (hcopy (Nat.find hex) (Nat.find_spec hex)
    fun t ht => Bool.not_eq_true _ ▸ Nat.find_min hex ht).1
  refine ⟨Nat.find hex, Nat.find_spec hex, ?_, ?_⟩
  · rw [hcells]
    decide
  · rw [hcells]
    decide

end Sumeru
