import Sumeru.Cache.Coherence

/-!
# Sumeru - Peripheral DMA

The entity {lit}`periph_dma`: one memory channel that serves the read and the write requests
of the UART, both signalled by toggles.  A single wait state serves both directions and
tells them apart by the write enable that it drives itself.

Main results:

- Theorem {lit}`DmaSystem.phase_run`: what the engine does, between the UART and the memory
  channel, in each of its states.
- Theorem {lit}`DmaSystem.channelContract`: the engine keeps the rules of its memory channel.
- Theorem {lit}`periph_dma_serves`: every request is served by one access of one byte.
-/

namespace Sumeru

/-! ## The engine -/

/-- Record {lit}`periph_dma_channel_in_t`. -/
structure PeriphDmaChannelIn where
  read : Bool
  readAddr : BitVec 25
  write : Bool
  writeAddr : BitVec 25
  writeData : BitVec 8
deriving DecidableEq, Repr

/-- The states of the engine. -/
inductive MemState where
  | running | wait
deriving DecidableEq, Repr

/-- Registers of {lit}`periph_dma`, with the registered parts of {lit}`mc_in` and
{lit}`pdma_out`. -/
structure PeriphDma where
  readAckR : Bool
  writeAckR : Bool
  memOpStart : Bool
  memOpStrobeSave : Bool
  memState : MemState
  opAddr : BitVec 24
  opWren : Bool
  opDqm : BitVec 2
  writeData : BitVec 16
  readData : BitVec 8

namespace PeriphDma

/-- Power-up contents; the registers without an initial value are written by the first request
before they are used. -/
def init : PeriphDma where
  readAckR := false
  writeAckR := false
  memOpStart := false
  memOpStrobeSave := false
  memState := .running
  opAddr := 0#24
  opWren := false
  opDqm := 0#2
  writeData := 0#16
  readData := 0#8

/-- The record {lit}`mc_in`. -/
def mcIn (d : PeriphDma) : MemChannelIn where
  opAddr := d.opAddr
  opStart := d.memOpStart
  opWren := d.opWren
  opBurst := false
  opDqm := d.opDqm
  writeData := d.writeData

/-- The mask that lets one byte of a half-word through. -/
def byteMask (addr : BitVec 25) : BitVec 2 :=
  BitVec.ofBool (!addr.getLsbD 0) ++ BitVec.ofBool (addr.getLsbD 0)

/-- A read request is passed on to the memory channel. -/
def startRead (d : PeriphDma) (opStrobe : Bool) (p : PeriphDmaChannelIn) : PeriphDma :=
  { d with
    opAddr := p.readAddr.extractLsb' 1 24
    memOpStart := !d.memOpStart
    opWren := false
    opDqm := 0b00#2
    memOpStrobeSave := opStrobe
    memState := .wait }

/-- A write request is passed on, with the byte on both lanes. -/
def startWrite (d : PeriphDma) (opStrobe : Bool) (p : PeriphDmaChannelIn) : PeriphDma :=
  { d with
    opAddr := p.writeAddr.extractLsb' 1 24
    memOpStart := !d.memOpStart
    opWren := true
    writeData := p.writeData ++ p.writeData
    opDqm := byteMask p.writeAddr
    memOpStrobeSave := opStrobe
    memState := .wait }

/-- The memory has answered: the request is acknowledged. -/
def finish (d : PeriphDma) (sdcDataOut : BitVec 16) (p : PeriphDmaChannelIn) : PeriphDma :=
  if d.opWren then { d with writeAckR := !d.writeAckR, memState := .running }
  else
    { d with
      readAckR := !d.readAckR
      readData :=
        if p.readAddr.getLsbD 0 = false then sdcDataOut.extractLsb' 0 8
        else sdcDataOut.extractLsb' 8 8
      memState := .running }

/-- One rising edge of {lit}`clk`. -/
def step (d : PeriphDma) (opStrobe : Bool) (sdcDataOut : BitVec 16) (p : PeriphDmaChannelIn) :
    PeriphDma :=
  match d.memState with
  | .running =>
      if p.read ≠ d.readAckR then d.startRead opStrobe p
      else if p.write ≠ d.writeAckR then d.startWrite opStrobe p
      else d
  | .wait => if opStrobe ≠ d.memOpStrobeSave then d.finish sdcDataOut p else d

/-! ## Bytes and lanes -/

/-- The lane of a byte in its half-word. -/
theorem byteAt_eq (cells : BitVec 24 → BitVec 16) (a : BitVec 25) :
    byteAt cells a =
      if a.getLsbD 0 = false then (cells (a.extractLsb' 1 24)).extractLsb' 0 8
      else (cells (a.extractLsb' 1 24)).extractLsb' 8 8 := by
  have hbit : a.getLsbD 0 = decide (a.toNat % 2 = 1) := by
    rw [BitVec.getLsbD, Nat.testBit_zero]
  rw [byteAt, hbit]
  rcases Nat.mod_two_eq_zero_or_one a.toNat with h | h
  · rw [h]
    rfl
  · rw [h]
    rfl

/-- The masked half-word with a byte on both lanes. -/
theorem blend_byteMask (a : BitVec 25) (old : BitVec 16) (x : BitVec 8) :
    blend (byteMask a) old (x ++ x) =
      if a.getLsbD 0 = false then old.extractLsb' 8 8 ++ x else x ++ old.extractLsb' 0 8 := by
  have hmask : (byteMask a).getLsbD 1 = !a.getLsbD 0 ∧ (byteMask a).getLsbD 0 = a.getLsbD 0 := by
    rw [byteMask]
    cases a.getLsbD 0 <;> decide
  have hlow : (x ++ x).extractLsb' 0 8 = x := BitVec.extractLsb'_append_eq_right
  have hhigh : (x ++ x).extractLsb' 8 8 = x := BitVec.extractLsb'_append_eq_left
  rw [blend, hmask.1, hmask.2, hlow, hhigh]
  cases a.getLsbD 0 <;> rfl

/-- A byte address is a cell and a lane. -/
theorem eq_of_cell_of_lane {a b : BitVec 25} (hcell : b.extractLsb' 1 24 = a.extractLsb' 1 24)
    (hlane : b.getLsbD 0 = a.getLsbD 0) : b = a := by
  have ha := a.isLt
  have hb := b.isLt
  have h1 := congrArg BitVec.toNat hcell
  rw [BitVec.extractLsb'_toNat, BitVec.extractLsb'_toNat, Nat.shiftRight_eq_div_pow,
    Nat.shiftRight_eq_div_pow] at h1
  rw [BitVec.getLsbD, BitVec.getLsbD, Nat.testBit_zero, Nat.testBit_zero, decide_eq_decide] at hlane
  apply BitVec.eq_of_toNat_eq
  omega

/-- A masked single write changes one byte. -/
theorem byteAt_update (cells : BitVec 24 → BitVec 16) (a b : BitVec 25) (x : BitVec 8) :
    byteAt (Function.update cells (a.extractLsb' 1 24)
        (blend (byteMask a) (cells (a.extractLsb' 1 24)) (x ++ x))) b =
      if b = a then x else byteAt cells b := by
  by_cases hcell : b.extractLsb' 1 24 = a.extractLsb' 1 24
  · have hne : b.getLsbD 0 ≠ a.getLsbD 0 → b ≠ a := fun hx hab => hx (by rw [hab])
    rw [byteAt_eq, byteAt_eq, hcell, Function.update_self, blend_byteMask]
    cases ha : a.getLsbD 0 <;> cases hb : b.getLsbD 0
    · rw [if_pos rfl, if_pos rfl, if_pos (eq_of_cell_of_lane hcell (hb.trans ha.symm))]
      exact BitVec.extractLsb'_append_eq_right
    · rw [if_neg (by decide), if_pos rfl, if_neg (hne (by rw [ha, hb]; decide)), if_neg (by decide)]
      exact BitVec.extractLsb'_append_eq_left
    · rw [if_pos rfl, if_neg (by decide), if_neg (hne (by rw [ha, hb]; decide)), if_pos rfl]
      exact BitVec.extractLsb'_append_eq_right
    · rw [if_neg (by decide), if_neg (by decide),
        if_pos (eq_of_cell_of_lane hcell (hb.trans ha.symm))]
      exact BitVec.extractLsb'_append_eq_left
  · have hne : b ≠ a := fun hab => hcell (by rw [hab])
    rw [byteAt, byteAt, Function.update_of_ne hcell, if_neg hne]

end PeriphDma

/-! ## The engine on its memory channel -/

/-- The memory channel of the engine. -/
def dmaChannel : Channel := 2

/-- The engine with the memory system behind its channel. -/
structure DmaSystem where
  dma : PeriphDma
  sdram : SdramSystem

/-- Inputs in one cycle: the requests of the UART, those of the other memory channels and the
level of the data pins when nobody drives them. -/
structure DmaInput where
  pdmaIn : PeriphDmaChannelIn
  others : Channel → MemChannelIn
  float : BitVec 16

namespace DmaSystem

def init (mem : BitVec 24 → BitVec 16) : DmaSystem := ⟨PeriphDma.init, SdramSystem.init mem⟩

/-- What the arbiter sees in one cycle. -/
def mc (s : DmaSystem) (others : Channel → MemChannelIn) (c : Channel) : MemChannelIn :=
  if c = dmaChannel then s.dma.mcIn else others c

/-- One clock cycle.  The engine samples {lit}`data_out` as the falling edge in the middle of the
cycle has left it. -/
def step (s : DmaSystem) (i : DmaInput) : DmaSystem where
  dma := s.dma.step (s.sdram.sys.opStrobe dmaChannel)
    (s.sdram.step (s.mc i.others, i.float)).dataOut i.pdmaIn
  sdram := s.sdram.step (s.mc i.others, i.float)

variable (mem : BitVec 24 → BitVec 16) (inp : ℕ → DmaInput)

/-- The system before its {lit}`t`-th edge. -/
def run (t : ℕ) : DmaSystem := Clocked.run step (init mem) inp t

/-- The requests of all channels along a run. -/
def channels (t : ℕ) : Channel → MemChannelIn := (run mem inp t).mc (inp t).others

/-- The memory at the {lit}`t`-th edge. -/
def cells (t : ℕ) : BitVec 24 → BitVec 16 :=
  cellsAt (channels mem inp) (fun u => (inp u).float) mem t

/-- The strobe that the engine sees. -/
def strobe (t : ℕ) : Bool := (MemorySystem.run (channels mem inp) t).opStrobe dmaChannel

variable {mem inp} {t : ℕ}

/-- Arbiter, controller and device run as in {lit}`SdramSystem`. -/
theorem run_sdram (t : ℕ) : (run mem inp t).sdram =
    SdramSystem.run (channels mem inp) (fun u => (inp u).float) mem t := by
  induction t with
  | zero => rfl
  | succ t ih =>
      change (run mem inp t).sdram.step _ = _
      rw [ih]
      rfl

/-- The channel of the DMA engine. -/
theorem channels_dma (t : ℕ) : channels mem inp t dmaChannel = (run mem inp t).dma.mcIn := by
  rw [channels, mc, if_pos rfl]

/-- The other channels. -/
theorem channels_of_ne {c : Channel} (h : c ≠ dmaChannel) (t : ℕ) :
    channels mem inp t c = (inp t).others c := by
  rw [channels, mc, if_neg h]

/-- The engine goes on with the strobe and the data of its channel. -/
theorem run_dma_succ (t : ℕ) : (run mem inp (t + 1)).dma =
    (run mem inp t).dma.step (strobe mem inp t)
      (dataOutAt (channels mem inp) (fun u => (inp u).float) mem t) (inp t).pdmaIn := by
  have hsys : (run mem inp t).sdram.sys = MemorySystem.run (channels mem inp) t := by
    rw [run_sdram, SdramSystem.sys_run]
  have hdata : ((run mem inp t).sdram.step (channels mem inp t, (inp t).float)).dataOut =
      dataOutAt (channels mem inp) (fun u => (inp u).float) mem t := by
    rw [run_sdram]
    rfl
  change (run mem inp t).dma.step ((run mem inp t).sdram.sys.opStrobe dmaChannel)
    ((run mem inp t).sdram.step (channels mem inp t, (inp t).float)).dataOut (inp t).pdmaIn = _
  rw [hsys, hdata]
  rfl

/-! ## What the other parties promise -/

/-- The rules of the other memory channels. -/
structure OthersContract (mem : BitVec 24 → BitVec 16) (inp : ℕ → DmaInput) : Prop where
  start : ∀ c, c ≠ dmaChannel → ((inp 0).others c).opStart = false
  toggle : ∀ t c, c ≠ dmaChannel →
    ((inp (t + 1)).others c).opStart ≠ ((inp t).others c).opStart →
      (MemorySystem.run (channels mem inp) t).opStrobe c = ((inp t).others c).opStart
  hold : ∀ t c, c ≠ dmaChannel →
    (MemorySystem.run (channels mem inp) t).opStrobe c ≠ ((inp t).others c).opStart →
      ((inp (t + 1)).others c).opAddr = ((inp t).others c).opAddr ∧
        ((inp (t + 1)).others c).opWren = ((inp t).others c).opWren ∧
        ((inp (t + 1)).others c).opBurst = ((inp t).others c).opBurst

/-- The rules of the UART: a request is toggled only when the last one is acknowledged, and
address and data are held until then. -/
structure UartContract (mem : BitVec 24 → BitVec 16) (inp : ℕ → DmaInput) : Prop where
  start : (inp 0).pdmaIn.read = false ∧ (inp 0).pdmaIn.write = false
  readToggle : ∀ t, (inp (t + 1)).pdmaIn.read ≠ (inp t).pdmaIn.read →
    (run mem inp t).dma.readAckR = (inp t).pdmaIn.read
  readHold : ∀ t, (run mem inp t).dma.readAckR ≠ (inp t).pdmaIn.read →
    (inp (t + 1)).pdmaIn.readAddr = (inp t).pdmaIn.readAddr
  writeToggle : ∀ t, (inp (t + 1)).pdmaIn.write ≠ (inp t).pdmaIn.write →
    (run mem inp t).dma.writeAckR = (inp t).pdmaIn.write
  writeHold : ∀ t, (run mem inp t).dma.writeAckR ≠ (inp t).pdmaIn.write →
    (inp (t + 1)).pdmaIn.writeAddr = (inp t).pdmaIn.writeAddr ∧
      (inp (t + 1)).pdmaIn.writeData = (inp t).pdmaIn.writeData

/-! ## Phases of the engine -/

/-- The engine between the UART and its memory channel: at rest, or serving the request that
the UART holds. -/
inductive Phase (d : PeriphDma) (p : PeriphDmaChannelIn) (strobe : Bool) : Prop where
  | rest (hst : d.memState = .running) (hstrobe : strobe = d.memOpStart)
  | reading (hst : d.memState = .wait) (hsave : d.memOpStrobeSave = !d.memOpStart)
      (hwren : d.opWren = false) (hopen : d.readAckR ≠ p.read)
      (haddr : d.opAddr = p.readAddr.extractLsb' 1 24) (hdqm : d.opDqm = 0#2)
  | writing (hst : d.memState = .wait) (hsave : d.memOpStrobeSave = !d.memOpStart)
      (hwren : d.opWren = true) (hopen : d.writeAckR ≠ p.write)
      (haddr : d.opAddr = p.writeAddr.extractLsb' 1 24)
      (hdqm : d.opDqm = PeriphDma.byteMask p.writeAddr)
      (hdata : d.writeData = p.writeData ++ p.writeData)

/-- A read request is held until it is acknowledged. -/
theorem UartContract.read_held (h : UartContract mem inp)
    (hopen : (run mem inp t).dma.readAckR ≠ (inp t).pdmaIn.read) :
    (inp (t + 1)).pdmaIn.read = (inp t).pdmaIn.read ∧
      (inp (t + 1)).pdmaIn.readAddr = (inp t).pdmaIn.readAddr :=
  ⟨not_not.mp (mt (h.readToggle t) hopen), h.readHold t hopen⟩

/-- A write request is held until it is acknowledged. -/
theorem UartContract.write_held (h : UartContract mem inp)
    (hopen : (run mem inp t).dma.writeAckR ≠ (inp t).pdmaIn.write) :
    (inp (t + 1)).pdmaIn.write = (inp t).pdmaIn.write ∧
      (inp (t + 1)).pdmaIn.writeAddr = (inp t).pdmaIn.writeAddr ∧
      (inp (t + 1)).pdmaIn.writeData = (inp t).pdmaIn.writeData :=
  ⟨not_not.mp (mt (h.writeToggle t) hopen), h.writeHold t hopen⟩

/-- The phase at the {lit}`t`-th edge of a run. -/
def PhaseAt (mem : BitVec 24 → BitVec 16) (inp : ℕ → DmaInput) (t : ℕ) : Prop :=
  Phase (run mem inp t).dma (inp t).pdmaIn (strobe mem inp t)

/-- A waiting engine does nothing until the strobe moves. -/
theorem dma_succ_of_wait (hst : (run mem inp t).dma.memState = .wait)
    (hs : strobe mem inp t = (run mem inp t).dma.memOpStrobeSave) :
    (run mem inp (t + 1)).dma = (run mem inp t).dma := by
  rw [run_dma_succ, PeriphDma.step, hst]
  simp [hs]

/-- It acknowledges when the strobe has moved. -/
theorem dma_succ_of_done (hst : (run mem inp t).dma.memState = .wait)
    (hs : strobe mem inp t ≠ (run mem inp t).dma.memOpStrobeSave) :
    (run mem inp (t + 1)).dma = (run mem inp t).dma.finish
      (dataOutAt (channels mem inp) (fun u => (inp u).float) mem t) (inp t).pdmaIn := by
  rw [run_dma_succ, PeriphDma.step, hst]
  simp [hs]

/-- The end of an access keeps the request. -/
theorem finish_memOpStart (d : PeriphDma) (x : BitVec 16) (p : PeriphDmaChannelIn) :
    (d.finish x p).memOpStart = d.memOpStart ∧ (d.finish x p).memState = .running := by
  unfold PeriphDma.finish
  split <;> exact ⟨rfl, rfl⟩

/-- The end of an access acknowledges it. -/
theorem finish_acks (d : PeriphDma) (x : BitVec 16) (p : PeriphDmaChannelIn) :
    (d.finish x p).readAckR = (if d.opWren then d.readAckR else !d.readAckR) ∧
      (d.finish x p).writeAckR = (if d.opWren then !d.writeAckR else d.writeAckR) := by
  unfold PeriphDma.finish
  split <;> exact ⟨rfl, rfl⟩

/-- The engine toggles its request line only when it is at rest. -/
theorem PhaseAt.toggle (h : PhaseAt mem inp t)
    (hne : (run mem inp (t + 1)).dma.memOpStart ≠ (run mem inp t).dma.memOpStart) :
    strobe mem inp t = (run mem inp t).dma.memOpStart := by
  have hwait : (run mem inp t).dma.memState = .wait →
      (run mem inp (t + 1)).dma.memOpStart = (run mem inp t).dma.memOpStart := by
    intro hst
    by_cases hs : strobe mem inp t = (run mem inp t).dma.memOpStrobeSave
    · rw [dma_succ_of_wait hst hs]
    · rw [dma_succ_of_done hst hs, (finish_memOpStart _ _ _).1]
  cases h with
  | rest _ hstrobe => exact hstrobe
  | reading hst => exact absurd (hwait hst) hne
  | writing hst => exact absurd (hwait hst) hne

/-- The strobe does not move while no request is open. -/
theorem strobe_succ_of_eq (h : Settled (channels mem inp) dmaChannel t)
    (heq : strobe mem inp t = (run mem inp t).dma.memOpStart) :
    strobe mem inp (t + 1) = strobe mem inp t := by
  refine h.opStrobe_eq ?_
  rw [channels_dma]
  exact heq

/-- From rest the engine takes the next request, reads first. -/
theorem PhaseAt.succ_of_rest (hu : UartContract mem inp)
    (hset : Settled (channels mem inp) dmaChannel t)
    (hst : (run mem inp t).dma.memState = .running)
    (hstrobe : strobe mem inp t = (run mem inp t).dma.memOpStart) : PhaseAt mem inp (t + 1) := by
  have hdma := @run_dma_succ mem inp t
  rw [PeriphDma.step, hst] at hdma
  rw [PhaseAt]
  by_cases hr : (inp t).pdmaIn.read = (run mem inp t).dma.readAckR
  · by_cases hw : (inp t).pdmaIn.write = (run mem inp t).dma.writeAckR
    · have hsame : (run mem inp (t + 1)).dma = (run mem inp t).dma := by
        rw [hdma]
        simp [hr, hw]
      refine .rest (by rw [hsame, hst]) ?_
      rw [strobe_succ_of_eq hset hstrobe, hsame, hstrobe]
    · have hstart : (run mem inp (t + 1)).dma =
          (run mem inp t).dma.startWrite (strobe mem inp t) (inp t).pdmaIn := by
        rw [hdma]
        simp [hr, hw]
      obtain ⟨h1, h2, h3⟩ := hu.write_held (Ne.symm hw)
      rw [hstart]
      refine .writing rfl ?_ rfl ?_ ?_ ?_ ?_
      · change strobe mem inp t = !!(run mem inp t).dma.memOpStart
        rw [Bool.not_not, hstrobe]
      · rw [h1]
        exact Ne.symm hw
      · rw [h2]
        rfl
      · rw [h2]
        rfl
      · rw [h3]
        rfl
  · have hstart : (run mem inp (t + 1)).dma =
        (run mem inp t).dma.startRead (strobe mem inp t) (inp t).pdmaIn := by
      rw [hdma]
      simp [hr]
    obtain ⟨h1, h2⟩ := hu.read_held (Ne.symm hr)
    rw [hstart]
    refine .reading rfl ?_ rfl ?_ ?_ rfl
    · change strobe mem inp t = !!(run mem inp t).dma.memOpStart
      rw [Bool.not_not, hstrobe]
    · rw [h1]
      exact Ne.symm hr
    · rw [h2]
      rfl

/-- A served request brings the engine back to rest. -/
theorem PhaseAt.succ_of_done (hset : Settled (channels mem inp) dmaChannel t)
    (hst : (run mem inp t).dma.memState = .wait)
    (hsave : (run mem inp t).dma.memOpStrobeSave = !(run mem inp t).dma.memOpStart)
    (hs : strobe mem inp t ≠ (run mem inp t).dma.memOpStrobeSave) : PhaseAt mem inp (t + 1) := by
  have hstrobe : strobe mem inp t = (run mem inp t).dma.memOpStart := by
    rw [hsave] at hs
    exact Bool.not_eq_not.mp hs
  obtain ⟨hstart, hrun⟩ := finish_memOpStart (run mem inp t).dma
    (dataOutAt (channels mem inp) (fun u => (inp u).float) mem t) (inp t).pdmaIn
  rw [PhaseAt, dma_succ_of_done hst hs]
  exact .rest hrun (by rw [strobe_succ_of_eq hset hstrobe, hstart, hstrobe])

/-- The engine goes on from edge to edge. -/
theorem PhaseAt.succ (hu : UartContract mem inp) (hset : Settled (channels mem inp) dmaChannel t)
    (h : PhaseAt mem inp t) : PhaseAt mem inp (t + 1) := by
  cases h with
  | rest hst hstrobe => exact .succ_of_rest hu hset hst hstrobe
  | reading hst hsave hwren hopen haddr hdqm =>
      by_cases hs : strobe mem inp t = (run mem inp t).dma.memOpStrobeSave
      · obtain ⟨h1, h2⟩ := hu.read_held hopen
        rw [PhaseAt, dma_succ_of_wait hst hs]
        exact .reading hst hsave hwren (by rw [h1]; exact hopen) (by rw [h2]; exact haddr) hdqm
      · exact .succ_of_done hset hst hsave hs
  | writing hst hsave hwren hopen haddr hdqm hdata =>
      by_cases hs : strobe mem inp t = (run mem inp t).dma.memOpStrobeSave
      · obtain ⟨h1, h2, h3⟩ := hu.write_held hopen
        rw [PhaseAt, dma_succ_of_wait hst hs]
        exact .writing hst hsave hwren (by rw [h1]; exact hopen) (by rw [h2]; exact haddr)
          (by rw [h2]; exact hdqm) (by rw [h3]; exact hdata)
      · exact .succ_of_done hset hst hsave hs

/-- The phases cover every reachable state, and the arbiter has taken no other request than the
one presented. -/
theorem phase_run (hu : UartContract mem inp) (t : ℕ) :
    PhaseAt mem inp t ∧ Settled (channels mem inp) dmaChannel t := by
  induction t with
  | zero => exact ⟨.rest rfl rfl, settled_zero _ _⟩
  | succ t ih =>
      refine ⟨.succ hu ih.2 ih.1, ih.2.succ fun hne => ?_⟩
      rw [channels_dma, channels_dma] at hne
      rw [channels_dma]
      exact ih.1.toggle hne

/-- While its request is open the engine waits and keeps it. -/
theorem PhaseAt.wait_of_open (h : PhaseAt mem inp t)
    (hopen : strobe mem inp t ≠ (run mem inp t).dma.memOpStart) :
    (run mem inp t).dma.memState = .wait ∧
      (run mem inp t).dma.memOpStrobeSave = !(run mem inp t).dma.memOpStart ∧
      (run mem inp (t + 1)).dma = (run mem inp t).dma := by
  have hwait : (run mem inp t).dma.memState = .wait ∧
      (run mem inp t).dma.memOpStrobeSave = !(run mem inp t).dma.memOpStart := by
    cases h with
    | rest _ hstrobe => exact absurd hstrobe hopen
    | reading hst hsave => exact ⟨hst, hsave⟩
    | writing hst hsave => exact ⟨hst, hsave⟩
  obtain ⟨hst, hsave⟩ := hwait
  refine ⟨hst, hsave, dma_succ_of_wait hst ?_⟩
  rw [hsave]
  exact Bool.eq_not_of_ne hopen

/-- The engine keeps the rules of its memory channel. -/
theorem channelContract (ho : OthersContract mem inp) (hu : UartContract mem inp) :
    ChannelContract (channels mem inp) where
  start := by
    intro c
    by_cases hc : c = dmaChannel
    · rw [hc, channels_dma]
      rfl
    · rw [channels_of_ne hc]
      exact ho.start c hc
  toggle := by
    intro t c hne
    by_cases hc : c = dmaChannel
    · subst hc
      rw [channels_dma, channels_dma] at hne
      rw [channels_dma]
      exact (phase_run hu t).1.toggle hne
    · rw [channels_of_ne hc, channels_of_ne hc] at hne
      rw [channels_of_ne hc]
      exact ho.toggle t c hc hne
  hold := by
    intro t c hopen
    by_cases hc : c = dmaChannel
    · subst hc
      rw [channels_dma] at hopen ⊢
      rw [channels_dma]
      rw [((phase_run hu t).1.wait_of_open hopen).2.2]
      exact ⟨rfl, rfl, rfl⟩
    · rw [channels_of_ne hc] at hopen ⊢
      rw [channels_of_ne hc]
      exact ho.hold t c hc hopen

/-! ## Services -/

/-- The answer of the memory finds the engine waiting and ends its access. -/
theorem finish_of_answered (hu : UartContract mem inp)
    (hans : Answered (channels mem inp) dmaChannel t) :
    (run mem inp (t + 1)).dma = (run mem inp t).dma ∧
      (run mem inp (t + 1)).dma.memState = .wait ∧
      (run mem inp (t + 2)).dma = (run mem inp (t + 1)).dma.finish
        (dataOutAt (channels mem inp) (fun u => (inp u).float) mem (t + 1)) (inp (t + 1)).pdmaIn := by
  obtain ⟨hopen, hdone⟩ := hans
  rw [channels_dma] at hopen hdone
  obtain ⟨hst, hsave, hsame⟩ := (phase_run hu t).1.wait_of_open hopen
  have hst' : (run mem inp (t + 1)).dma.memState = .wait := by
    rw [hsame, hst]
  refine ⟨hsame, hst', dma_succ_of_done hst' ?_⟩
  rw [hsame, hsave]
  rw [hsame] at hdone
  intro heq
  change strobe mem inp (t + 1) = _ at hdone
  rw [heq] at hdone
  exact Bool.not_ne_self _ hdone

/-- A waiting engine whose strobe has moved was answered in the cycle before. -/
theorem answered_of_done (hu : UartContract mem inp)
    (hst : (run mem inp t).dma.memState = .wait)
    (hs : strobe mem inp t ≠ (run mem inp t).dma.memOpStrobeSave) :
    ∃ u, t = u + 1 ∧ Answered (channels mem inp) dmaChannel u := by
  cases t with
  | zero => cases hst
  | succ u =>
      refine ⟨u, rfl, ?_⟩
      obtain ⟨hph, hset⟩ := phase_run hu u
      have hwaiting : (run mem inp u).dma.memState = .wait →
          (run mem inp u).dma.memOpStrobeSave = !(run mem inp u).dma.memOpStart →
          Answered (channels mem inp) dmaChannel u := by
        intro hst' hsave
        have hs' : strobe mem inp u = (run mem inp u).dma.memOpStrobeSave := by
          by_contra hne
          rw [dma_succ_of_done hst' hne, (finish_memOpStart _ _ _).2] at hst
          cases hst
        have hsame := dma_succ_of_wait hst' hs'
        rw [hsame, hsave] at hs
        rw [Answered, channels_dma, channels_dma, hsame]
        refine ⟨?_, Bool.not_eq_not.mp hs⟩
        change strobe mem inp u ≠ _
        rw [hs', hsave]
        exact Bool.not_ne_self _
      cases hph with
      | reading hst' hsave => exact hwaiting hst' hsave
      | writing hst' hsave => exact hwaiting hst' hsave
      | rest hst' hstrobe =>
          -- the engine has only just begun to wait, and the strobe has not moved
          have hsave : (run mem inp (u + 1)).dma.memOpStrobeSave = strobe mem inp u := by
            have hdma := @run_dma_succ mem inp u
            rw [PeriphDma.step, hst'] at hdma
            rw [hdma] at hst ⊢
            dsimp only at hst ⊢
            split
            · rfl
            · split
              · rfl
              · rename_i h1 h2
                rw [if_neg h1, if_neg h2, hst'] at hst
                cases hst
          rw [hsave, strobe_succ_of_eq hset hstrobe] at hs
          exact absurd rfl hs

/-- The access answered at edge {lit}`t + 1` serves the read request of the UART. -/
structure ReadServed (mem : BitVec 24 → BitVec 16) (inp : ℕ → DmaInput) (t : ℕ) : Prop where
  opened : (run mem inp (t + 1)).dma.readAckR ≠ (inp (t + 1)).pdmaIn.read
  single : (channels mem inp (t + 1) dmaChannel).opBurst = false
  cell : (channels mem inp (t + 1) dmaChannel).opAddr =
    (inp (t + 1)).pdmaIn.readAddr.extractLsb' 1 24
  ack : (run mem inp (t + 2)).dma.readAckR = !(run mem inp (t + 1)).dma.readAckR
  writeAck : (run mem inp (t + 2)).dma.writeAckR = (run mem inp (t + 1)).dma.writeAckR
  data : (run mem inp (t + 2)).dma.readData =
    byteAt (cells mem inp (t + 1)) (inp (t + 1)).pdmaIn.readAddr

/-- It serves the write request. -/
structure WriteServed (mem : BitVec 24 → BitVec 16) (inp : ℕ → DmaInput) (t : ℕ) : Prop where
  opened : (run mem inp (t + 1)).dma.writeAckR ≠ (inp (t + 1)).pdmaIn.write
  single : (channels mem inp (t + 1) dmaChannel).opBurst = false
  cell : (channels mem inp (t + 1) dmaChannel).opAddr =
    (inp (t + 1)).pdmaIn.writeAddr.extractLsb' 1 24
  ack : (run mem inp (t + 2)).dma.writeAckR = !(run mem inp (t + 1)).dma.writeAckR
  readAck : (run mem inp (t + 2)).dma.readAckR = (run mem inp (t + 1)).dma.readAckR
  data : ∀ a, byteAt (cells mem inp (t + 1)) a =
    if a = (inp (t + 1)).pdmaIn.writeAddr then (inp (t + 1)).pdmaIn.writeData
    else byteAt (cells mem inp t) a

/-- An answered read serves the read request. -/
theorem readServed (ho : OthersContract mem inp) (hu : UartContract mem inp)
    (hans : Answered (channels mem inp) dmaChannel t)
    (hw : (channels mem inp (t + 1) dmaChannel).opWren = false) : ReadServed mem inp t := by
  have hc := channelContract ho hu
  obtain ⟨hsame, hst, hnext⟩ := finish_of_answered hu hans
  have hw' : (run mem inp (t + 1)).dma.opWren = false := by
    rw [channels_dma] at hw
    exact hw
  rw [PeriphDma.finish, hw', if_neg (by decide)] at hnext
  cases (phase_run hu (t + 1)).1 with
  | rest h => rw [hst] at h; cases h
  | writing _ _ h => rw [hw'] at h; cases h
  | reading _ _ _ hopen haddr hdqm =>
      have hmask : (channels mem inp (t - 1) dmaChannel).opDqm = 0#2 := by
        -- the engine has been waiting for this answer since the access was issued
        have hbefore := waiting_of_read hc hans hw
        cases t with
        | zero =>
            rw [channels_dma]
            rfl
        | succ u =>
            change strobe mem inp u ≠ (channels mem inp u dmaChannel).opStart at hbefore
            rw [channels_dma] at hbefore
            have hkept := ((phase_run hu u).1.wait_of_open hbefore).2.2
            change (channels mem inp u dmaChannel).opDqm = 0#2
            rw [channels_dma]
            change (run mem inp u).dma.opDqm = 0#2
            rw [← hkept, ← hsame, hdqm]
      have hdata := dataOut_of_answered hc (fun u => (inp u).float) mem hans hw
        (show 0 < beats (channels mem inp (t + 1) dmaChannel).opBurst by
          rw [channels_dma]; exact Nat.one_pos) hmask
      have hcell : (channels mem inp (t + 1) dmaChannel).opAddr =
          (inp (t + 1)).pdmaIn.readAddr.extractLsb' 1 24 := by
        rw [channels_dma]
        exact haddr
      rw [beatAddr_zero, hcell, Nat.add_zero] at hdata
      refine ⟨hopen, by rw [channels_dma]; rfl, hcell, by rw [hnext], by rw [hnext], ?_⟩
      rw [hnext, PeriphDma.byteAt_eq, hdata]
      rfl

/-- An answered write serves the write request. -/
theorem writeServed (ho : OthersContract mem inp) (hu : UartContract mem inp)
    (hans : Answered (channels mem inp) dmaChannel t)
    (hw : (channels mem inp (t + 1) dmaChannel).opWren = true) : WriteServed mem inp t := by
  have hc := channelContract ho hu
  obtain ⟨-, hst, hnext⟩ := finish_of_answered hu hans
  have hw' : (run mem inp (t + 1)).dma.opWren = true := by
    rw [channels_dma] at hw
    exact hw
  rw [PeriphDma.finish, hw', if_pos rfl] at hnext
  cases (phase_run hu (t + 1)).1 with
  | rest h => rw [hst] at h; cases h
  | reading _ _ h => rw [hw'] at h; cases h
  | writing _ _ _ hopen haddr hdqm hdata =>
      have hcell : (channels mem inp (t + 1) dmaChannel).opAddr =
          (inp (t + 1)).pdmaIn.writeAddr.extractLsb' 1 24 := by
        rw [channels_dma]
        exact haddr
      have hcells := cells_of_answered hc (fun u => (inp u).float) mem hans hw
        (show 0 < beats (channels mem inp (t + 1) dmaChannel).opBurst by
          rw [channels_dma]; exact Nat.one_pos)
      have hlanes : (channels mem inp (t + 1) dmaChannel).opDqm =
            PeriphDma.byteMask (inp (t + 1)).pdmaIn.writeAddr ∧
          (channels mem inp (t + 1) dmaChannel).writeData =
            (inp (t + 1)).pdmaIn.writeData ++ (inp (t + 1)).pdmaIn.writeData := by
        rw [channels_dma]
        exact ⟨hdqm, hdata⟩
      rw [beatAddr_zero, hcell, Nat.add_zero, Nat.add_zero, hlanes.1, hlanes.2] at hcells
      refine ⟨hopen, by rw [channels_dma]; rfl, hcell, by rw [hnext], by rw [hnext], fun a => ?_⟩
      rw [cells, hcells]
      exact PeriphDma.byteAt_update _ _ _ _

/-! ## Acknowledgements -/

/-- What an edge does to the request line and the acknowledgements. -/
theorem dma_succ_cases (mem : BitVec 24 → BitVec 16) (inp : ℕ → DmaInput) (t : ℕ) :
    ((run mem inp (t + 1)).dma.readAckR = (run mem inp t).dma.readAckR ∧
        (run mem inp (t + 1)).dma.writeAckR = (run mem inp t).dma.writeAckR ∧
        ((run mem inp (t + 1)).dma = (run mem inp t).dma ∨
          (run mem inp t).dma.memState = .running ∧ (run mem inp (t + 1)).dma.memState = .wait ∧
            (run mem inp (t + 1)).dma.memOpStart = !(run mem inp t).dma.memOpStart)) ∨
      ((run mem inp t).dma.memState = .wait ∧
        strobe mem inp t ≠ (run mem inp t).dma.memOpStrobeSave ∧
        (run mem inp (t + 1)).dma = (run mem inp t).dma.finish
          (dataOutAt (channels mem inp) (fun u => (inp u).float) mem t) (inp t).pdmaIn) := by
  cases hst : (run mem inp t).dma.memState with
  | running =>
      have hdma := @run_dma_succ mem inp t
      rw [PeriphDma.step, hst] at hdma
      dsimp only at hdma
      rw [hdma]
      split
      · exact .inl ⟨rfl, rfl, .inr ⟨rfl, rfl, rfl⟩⟩
      · split
        · exact .inl ⟨rfl, rfl, .inr ⟨rfl, rfl, rfl⟩⟩
        · exact .inl ⟨rfl, rfl, .inl rfl⟩
  | wait =>
      by_cases hs : strobe mem inp t = (run mem inp t).dma.memOpStrobeSave
      · rw [dma_succ_of_wait hst hs]
        exact .inl ⟨rfl, rfl, .inl rfl⟩
      · exact .inr ⟨rfl, hs, dma_succ_of_done hst hs⟩

/-- An acknowledgement of a read follows the answer of a read access. -/
theorem answered_of_readAck (hu : UartContract mem inp)
    (hne : (run mem inp (t + 1)).dma.readAckR ≠ (run mem inp t).dma.readAckR) :
    ∃ u, t = u + 1 ∧ Answered (channels mem inp) dmaChannel u ∧
      (channels mem inp t dmaChannel).opWren = false := by
  rcases dma_succ_cases mem inp t with ⟨hr, -, -⟩ | ⟨hst, hs, hnext⟩
  · exact absurd hr hne
  · obtain ⟨u, hu', hans⟩ := answered_of_done hu hst hs
    refine ⟨u, hu', hans, ?_⟩
    rw [channels_dma]
    cases hw : (run mem inp t).dma.opWren with
    | false => exact hw
    | true =>
        rw [hnext, (finish_acks _ _ _).1, hw] at hne
        exact absurd rfl hne

/-- An acknowledgement of a write follows the answer of a write access. -/
theorem answered_of_writeAck (hu : UartContract mem inp)
    (hne : (run mem inp (t + 1)).dma.writeAckR ≠ (run mem inp t).dma.writeAckR) :
    ∃ u, t = u + 1 ∧ Answered (channels mem inp) dmaChannel u ∧
      (channels mem inp t dmaChannel).opWren = true := by
  rcases dma_succ_cases mem inp t with ⟨-, hw, -⟩ | ⟨hst, hs, hnext⟩
  · exact absurd hw hne
  · obtain ⟨u, hu', hans⟩ := answered_of_done hu hst hs
    refine ⟨u, hu', hans, ?_⟩
    rw [channels_dma]
    cases hw : (run mem inp t).dma.opWren with
    | true => exact hw
    | false =>
        rw [hnext, (finish_acks _ _ _).2, hw] at hne
        exact absurd rfl hne

/-- Read requests and their acknowledgements keep in step. -/
theorem readRequests_eq (hu : UartContract mem inp) (ho : OthersContract mem inp) (t : ℕ) :
    Toggle.changes (fun u => (inp u).pdmaIn.read) t =
      Toggle.changes (fun u => (run mem inp u).dma.readAckR) t +
        if (inp t).pdmaIn.read ≠ (run mem inp t).dma.readAckR then 1 else 0 := by
  refine Toggle.changes_eq_of_ack hu.start.1 hu.readToggle (fun t hne => ?_) t
  obtain ⟨u, rfl, hans, hw⟩ := answered_of_readAck hu hne
  exact (readServed ho hu hans hw).opened.symm

/-- Write requests are acknowledged one by one. -/
theorem writeRequests_eq (hu : UartContract mem inp) (ho : OthersContract mem inp) (t : ℕ) :
    Toggle.changes (fun u => (inp u).pdmaIn.write) t =
      Toggle.changes (fun u => (run mem inp u).dma.writeAckR) t +
        if (inp t).pdmaIn.write ≠ (run mem inp t).dma.writeAckR then 1 else 0 := by
  refine Toggle.changes_eq_of_ack hu.start.2 hu.writeToggle (fun t hne => ?_) t
  obtain ⟨u, rfl, hans, hw⟩ := answered_of_writeAck hu hne
  exact (writeServed ho hu hans hw).opened.symm

/-- The engine asks for one access for every acknowledgement, and for one more while it
waits. -/
theorem requestsMade_eq (mem : BitVec 24 → BitVec 16) (inp : ℕ → DmaInput) (t : ℕ) :
    requestsMade (channels mem inp) dmaChannel t =
      Toggle.changes (fun u => (run mem inp u).dma.readAckR) t +
        Toggle.changes (fun u => (run mem inp u).dma.writeAckR) t +
        if (run mem inp t).dma.memState = .wait then 1 else 0 := by
  have hline : requestsMade (channels mem inp) dmaChannel =
      Toggle.changes fun u => (run mem inp u).dma.memOpStart := by
    unfold requestsMade
    simp only [channels_dma]
    rfl
  rw [hline]
  induction t with
  | zero => rfl
  | succ t ih =>
      rw [Toggle.changes_succ, Toggle.changes_succ, Toggle.changes_succ, ih]
      rcases dma_succ_cases mem inp t with ⟨hr, hw, hsame | ⟨h1, h2, h3⟩⟩ | ⟨hst, -, hnext⟩
      · simp [hsame]
      · simp [hr, hw, h1, h2, h3]
      · obtain ⟨hstart, hrun⟩ := finish_memOpStart (run mem inp t).dma
          (dataOutAt (channels mem inp) (fun u => (inp u).float) mem t) (inp t).pdmaIn
        obtain ⟨hr, hw⟩ := finish_acks (run mem inp t).dma
          (dataOutAt (channels mem inp) (fun u => (inp u).float) mem t) (inp t).pdmaIn
        rw [hnext, hstart, hrun, hr, hw, hst]
        cases (run mem inp t).dma.opWren
        · simp
          omega
        · simp
          omega

/-- The memory changes by the writes of the engine and of the other channels only. -/
theorem answered_of_cells (ho : OthersContract mem inp) (hu : UartContract mem inp) {u : ℕ}
    (hne : cells mem inp (u + 1) ≠ cells mem inp u) :
    (Answered (channels mem inp) dmaChannel u ∧
        (channels mem inp (u + 1) dmaChannel).opWren = true) ∨
      ∃ t c k, c ≠ dmaChannel ∧ Answered (channels mem inp) c t ∧
        ((inp (t + 1)).others c).opWren = true ∧ k < beats ((inp (t + 1)).others c).opBurst ∧
        u = t + k := by
  obtain ⟨t, c, k, hans, hw, hk, rfl⟩ := answered_of_cells_ne (channelContract ho hu) hne
  by_cases hc : c = dmaChannel
  · subst hc
    have hburst : (channels mem inp (t + 1) dmaChannel).opBurst = false := by
      rw [channels_dma]
      rfl
    rw [hburst] at hk
    obtain rfl : k = 0 := Nat.lt_one_iff.mp hk
    exact .inl ⟨hans, hw⟩
  · rw [channels_of_ne hc] at hw hk
    exact .inr ⟨t, c, k, hc, hans, hw, hk, rfl⟩

/-! ## Progress -/

/-- Every request of the engine is answered in the end. -/
def Fair (mem : BitVec 24 → BitVec 16) (inp : ℕ → DmaInput) : Prop :=
  ∀ t, strobe mem inp t ≠ (run mem inp t).dma.memOpStart →
    ∃ u, t ≤ u ∧ Answered (channels mem inp) dmaChannel u

/-- The engine is served if nobody else uses the memory. -/
theorem fair_of_silent (ho : OthersContract mem inp) (hu : UartContract mem inp)
    (hsilent : ∀ t c, c ≠ dmaChannel → ((inp t).others c).opStart = false) : Fair mem inp := by
  intro t hopen
  refine exists_answered (channelContract ho hu) (by rw [channels_dma]; exact hopen) ?_
  intro u _ d hd
  have hquiet : ∀ v, v ≤ u → (channels mem inp v d).opStart = false := by
    intro v _
    rw [channels_of_ne (ne_of_lt hd)]
    exact hsilent v d (ne_of_lt hd)
  exact not_forwards_of_closed ((opStrobe_of_silent hquiet).2.trans (hquiet u le_rfl).symm)

/-- The engine waits as it is until the answer of the memory, and then finishes. -/
theorem finishes_of_answered (hu : UartContract mem inp) {n : ℕ}
    (hans : Answered (channels mem inp) dmaChannel (t + n))
    (hst : (run mem inp t).dma.memState = .wait) :
    ∃ u, t ≤ u ∧ (∀ v, t ≤ v → v ≤ u → (run mem inp v).dma = (run mem inp t).dma) ∧
      (run mem inp (u + 1)).dma = (run mem inp u).dma.finish
        (dataOutAt (channels mem inp) (fun u => (inp u).float) mem u) (inp u).pdmaIn := by
  induction n generalizing t with
  | zero =>
      obtain ⟨hsame, -, hnext⟩ := finish_of_answered hu hans
      refine ⟨t + 1, by omega, fun v h1 h2 => ?_, hnext⟩
      obtain rfl | rfl : v = t ∨ v = t + 1 := by omega
      · rfl
      · exact hsame
  | succ n ih =>
      by_cases hs : strobe mem inp t = (run mem inp t).dma.memOpStrobeSave
      · have hsame := dma_succ_of_wait hst hs
        rw [Nat.add_succ, ← Nat.succ_add] at hans
        obtain ⟨u, htu, hkeep, hnext⟩ := ih hans (by rw [hsame, hst])
        refine ⟨u, by omega, fun v h1 h2 => ?_, hnext⟩
        rcases Nat.eq_or_lt_of_le h1 with rfl | h1
        · rfl
        · exact (hkeep v h1 h2).trans hsame
      · refine ⟨t, le_rfl, fun v h1 h2 => ?_, dma_succ_of_done hst hs⟩
        rw [Nat.le_antisymm h2 h1]

/-- A waiting engine finishes its request. -/
theorem Fair.finishes (hf : Fair mem inp) (hu : UartContract mem inp)
    (hst : (run mem inp t).dma.memState = .wait) :
    ∃ u, t ≤ u ∧ (∀ v, t ≤ v → v ≤ u → (run mem inp v).dma = (run mem inp t).dma) ∧
      (run mem inp (u + 1)).dma = (run mem inp u).dma.finish
        (dataOutAt (channels mem inp) (fun u => (inp u).float) mem u) (inp u).pdmaIn := by
  by_cases hs : strobe mem inp t = (run mem inp t).dma.memOpStart
  · have hdone : strobe mem inp t ≠ (run mem inp t).dma.memOpStrobeSave := by
      cases (phase_run hu t).1 with
      | rest h => rw [hst] at h; cases h
      | reading _ hsave =>
          rw [hs, hsave]
          exact (Bool.not_ne_self _).symm
      | writing _ hsave =>
          rw [hs, hsave]
          exact (Bool.not_ne_self _).symm
    refine ⟨t, le_rfl, fun v h1 h2 => ?_, dma_succ_of_done hst hdone⟩
    rw [Nat.le_antisymm h2 h1]
  · obtain ⟨u, htu, hans⟩ := hf t hs
    obtain ⟨n, rfl⟩ := Nat.exists_eq_add_of_le htu
    exact finishes_of_answered hu hans hst

/-- An open read request is held while its acknowledgement rests. -/
theorem UartContract.read_eq (hu : UartContract mem inp) {u : ℕ} (htu : t ≤ u)
    (hopen : (run mem inp t).dma.readAckR ≠ (inp t).pdmaIn.read)
    (hack : ∀ v, t ≤ v → v ≤ u → (run mem inp v).dma.readAckR = (run mem inp t).dma.readAckR) :
    (inp (u + 1)).pdmaIn.read = (inp t).pdmaIn.read :=
  @Toggle.held_of_open (fun t => (inp t).pdmaIn.read) (fun t => (run mem inp t).dma.readAckR)
    (fun _ h => (hu.read_held h).1) t u htu hopen hack

/-- An unacknowledged write request does not change. -/
theorem UartContract.write_eq (hu : UartContract mem inp) {u : ℕ} (htu : t ≤ u)
    (hopen : (run mem inp t).dma.writeAckR ≠ (inp t).pdmaIn.write)
    (hack : ∀ v, t ≤ v → v ≤ u → (run mem inp v).dma.writeAckR = (run mem inp t).dma.writeAckR) :
    (inp (u + 1)).pdmaIn.write = (inp t).pdmaIn.write :=
  @Toggle.held_of_open (fun t => (inp t).pdmaIn.write) (fun t => (run mem inp t).dma.writeAckR)
    (fun _ h => (hu.write_held h).1) t u htu hopen hack

/-- A read request that the engine is serving is acknowledged. -/
theorem Fair.read_of_wait (hf : Fair mem inp) (hu : UartContract mem inp)
    (hst : (run mem inp t).dma.memState = .wait) (hw : (run mem inp t).dma.opWren = false)
    (hopen : (run mem inp t).dma.readAckR ≠ (inp t).pdmaIn.read) :
    ∃ u, t < u ∧ (run mem inp u).dma.readAckR = (inp t).pdmaIn.read := by
  obtain ⟨u, htu, hkeep, hnext⟩ := hf.finishes hu hst
  refine ⟨u + 1, by omega, ?_⟩
  rw [hnext, (finish_acks _ _ _).1, hkeep u htu le_rfl, hw]
  exact Bool.not_eq.mpr hopen

/-- From rest the engine takes a read request at once. -/
theorem startRead_of_rest (hst : (run mem inp t).dma.memState = .running)
    (hopen : (run mem inp t).dma.readAckR ≠ (inp t).pdmaIn.read) :
    (run mem inp (t + 1)).dma =
      (run mem inp t).dma.startRead (strobe mem inp t) (inp t).pdmaIn := by
  rw [run_dma_succ, PeriphDma.step, hst]
  exact if_pos hopen.symm

/-- Without a read request it takes a write request at once. -/
theorem startWrite_of_rest (hst : (run mem inp t).dma.memState = .running)
    (hread : (inp t).pdmaIn.read = (run mem inp t).dma.readAckR)
    (hopen : (run mem inp t).dma.writeAckR ≠ (inp t).pdmaIn.write) :
    (run mem inp (t + 1)).dma =
      (run mem inp t).dma.startWrite (strobe mem inp t) (inp t).pdmaIn := by
  rw [run_dma_succ, PeriphDma.step, hst]
  exact (if_neg (not_not.mpr hread)).trans (if_pos hopen.symm)

/-- A read request is acknowledged in the end. -/
theorem Fair.read_of_rest (hf : Fair mem inp) (hu : UartContract mem inp)
    (hst : (run mem inp t).dma.memState = .running)
    (hopen : (run mem inp t).dma.readAckR ≠ (inp t).pdmaIn.read) :
    ∃ u, t < u ∧ (run mem inp u).dma.readAckR = (inp t).pdmaIn.read := by
  have hnext := startRead_of_rest hst hopen
  have hsame := (hu.read_held hopen).1
  rw [← hsame] at hopen ⊢
  obtain ⟨u, htu, hack⟩ := hf.read_of_wait hu (t := t + 1) (by rw [hnext]; rfl) (by rw [hnext]; rfl)
    (by rw [hnext]; exact hopen)
  exact ⟨u, by omega, hack⟩

/-- Every read request is acknowledged. -/
theorem Fair.read (hf : Fair mem inp) (hu : UartContract mem inp)
    (hopen : (run mem inp t).dma.readAckR ≠ (inp t).pdmaIn.read) :
    ∃ u, t < u ∧ (run mem inp u).dma.readAckR = (inp t).pdmaIn.read := by
  cases (phase_run hu t).1 with
  | rest hst => exact hf.read_of_rest hu hst hopen
  | reading hst _ hw => exact hf.read_of_wait hu hst hw hopen
  | writing hst _ hw =>
      obtain ⟨u, htu, hkeep, hnext⟩ := hf.finishes hu hst
      have hread := hu.read_eq htu hopen fun v h1 h2 => by rw [hkeep v h1 h2]
      have hack : (run mem inp (u + 1)).dma.readAckR = (run mem inp t).dma.readAckR := by
        rw [hnext, (finish_acks _ _ _).1, hkeep u htu le_rfl, hw, if_pos rfl]
      rw [← hread, ← hack] at hopen
      obtain ⟨v, huv, hdone⟩ := hf.read_of_rest hu (t := u + 1)
        (by rw [hnext, (finish_memOpStart _ _ _).2]) hopen
      exact ⟨v, by omega, by rw [hdone, hread]⟩

/-- A write request that the engine is serving is acknowledged. -/
theorem Fair.write_of_wait (hf : Fair mem inp) (hu : UartContract mem inp)
    (hst : (run mem inp t).dma.memState = .wait) (hw : (run mem inp t).dma.opWren = true)
    (hopen : (run mem inp t).dma.writeAckR ≠ (inp t).pdmaIn.write) :
    ∃ u, t < u ∧ (run mem inp u).dma.writeAckR = (inp t).pdmaIn.write := by
  obtain ⟨u, htu, hkeep, hnext⟩ := hf.finishes hu hst
  refine ⟨u + 1, by omega, ?_⟩
  rw [hnext, (finish_acks _ _ _).2, hkeep u htu le_rfl, hw]
  exact Bool.not_eq.mpr hopen

/-- A write request is acknowledged in the end, if no read comes first. -/
theorem Fair.write_of_rest (hf : Fair mem inp) (hu : UartContract mem inp)
    (hst : (run mem inp t).dma.memState = .running)
    (hread : (inp t).pdmaIn.read = (run mem inp t).dma.readAckR)
    (hopen : (run mem inp t).dma.writeAckR ≠ (inp t).pdmaIn.write) :
    ∃ u, t < u ∧ (run mem inp u).dma.writeAckR = (inp t).pdmaIn.write := by
  have hnext := startWrite_of_rest hst hread hopen
  have hsame := (hu.write_held hopen).1
  rw [← hsame] at hopen ⊢
  obtain ⟨u, htu, hack⟩ := hf.write_of_wait hu (t := t + 1) (by rw [hnext]; rfl)
    (by rw [hnext]; rfl) (by rw [hnext]; exact hopen)
  exact ⟨u, by omega, hack⟩

/-- A write request that comes during a read is taken right after it: the UART cannot have
asked again. -/
theorem Fair.write_after_read (hf : Fair mem inp) (hu : UartContract mem inp)
    (hst : (run mem inp t).dma.memState = .wait) (hw : (run mem inp t).dma.opWren = false)
    (hread : (run mem inp t).dma.readAckR ≠ (inp t).pdmaIn.read)
    (hopen : (run mem inp t).dma.writeAckR ≠ (inp t).pdmaIn.write) :
    ∃ u, t < u ∧ (run mem inp u).dma.writeAckR = (inp t).pdmaIn.write := by
  obtain ⟨u, htu, hkeep, hnext⟩ := hf.finishes hu hst
  have hr := hu.read_eq htu hread fun v h1 h2 => by rw [hkeep v h1 h2]
  have hwr := hu.write_eq htu hopen fun v h1 h2 => by rw [hkeep v h1 h2]
  obtain ⟨hrack, hwack⟩ := finish_acks (run mem inp u).dma
    (dataOutAt (channels mem inp) (fun u => (inp u).float) mem u) (inp u).pdmaIn
  rw [← hnext, hkeep u htu le_rfl, hw] at hrack hwack
  have hclosed : (inp (u + 1)).pdmaIn.read = (run mem inp (u + 1)).dma.readAckR := by
    rw [hr, hrack]
    exact (Bool.not_eq.mpr hread).symm
  have hstill : (run mem inp (u + 1)).dma.writeAckR ≠ (inp (u + 1)).pdmaIn.write := by
    rw [hwr, hwack]
    exact hopen
  obtain ⟨v, huv, hdone⟩ := hf.write_of_rest hu
    (show (run mem inp (u + 1)).dma.memState = .running by rw [hnext, (finish_memOpStart _ _ _).2])
    hclosed hstill
  exact ⟨v, by omega, by rw [hdone, hwr]⟩

/-- Every write request is acknowledged. -/
theorem Fair.write (hf : Fair mem inp) (hu : UartContract mem inp)
    (hopen : (run mem inp t).dma.writeAckR ≠ (inp t).pdmaIn.write) :
    ∃ u, t < u ∧ (run mem inp u).dma.writeAckR = (inp t).pdmaIn.write := by
  cases (phase_run hu t).1 with
  | writing hst _ hw => exact hf.write_of_wait hu hst hw hopen
  | reading hst _ hw hread => exact hf.write_after_read hu hst hw hread hopen
  | rest hst =>
      by_cases hread : (inp t).pdmaIn.read = (run mem inp t).dma.readAckR
      · exact hf.write_of_rest hu hst hread hopen
      · have hnext := startRead_of_rest hst (Ne.symm hread)
        have hr := (hu.read_held (Ne.symm hread)).1
        have hwr := (hu.write_held hopen).1
        obtain ⟨u, htu, hack⟩ := hf.write_after_read hu (t := t + 1) (by rw [hnext]; rfl)
          (by rw [hnext]; rfl) (by rw [hnext, hr]; exact Ne.symm hread)
          (by rw [hnext, hwr]; exact hopen)
        exact ⟨u, by omega, by rw [hack, hwr]⟩

end DmaSystem

open DmaSystem

/-- Peripheral DMA.  Every access of the engine serves the open request of its direction and is
followed by its acknowledgement, which nothing else toggles; requests and acknowledgements
of each direction keep in step, and the engine asks for one access per acknowledgement.  A
read returns the byte of memory at the edge of the answer, a write changes one byte, and no
other change of memory is the engine's.  If the memory answers every request, every request of
the UART is acknowledged. -/
theorem periph_dma_serves (mem : BitVec 24 → BitVec 16) (inp : ℕ → DmaInput)
    (ho : OthersContract mem inp) (hu : UartContract mem inp) :
    (∀ t, Answered (channels mem inp) dmaChannel t →
      ((channels mem inp (t + 1) dmaChannel).opWren = false → ReadServed mem inp t) ∧
        ((channels mem inp (t + 1) dmaChannel).opWren = true → WriteServed mem inp t)) ∧
    (∀ t, (run mem inp (t + 1)).dma.readAckR ≠ (run mem inp t).dma.readAckR →
      ∃ u, t = u + 1 ∧ Answered (channels mem inp) dmaChannel u ∧
        (channels mem inp t dmaChannel).opWren = false) ∧
    (∀ t, (run mem inp (t + 1)).dma.writeAckR ≠ (run mem inp t).dma.writeAckR →
      ∃ u, t = u + 1 ∧ Answered (channels mem inp) dmaChannel u ∧
        (channels mem inp t dmaChannel).opWren = true) ∧
    (∀ t, Toggle.changes (fun u => (inp u).pdmaIn.read) t =
      Toggle.changes (fun u => (run mem inp u).dma.readAckR) t +
        if (inp t).pdmaIn.read ≠ (run mem inp t).dma.readAckR then 1 else 0) ∧
    (∀ t, Toggle.changes (fun u => (inp u).pdmaIn.write) t =
      Toggle.changes (fun u => (run mem inp u).dma.writeAckR) t +
        if (inp t).pdmaIn.write ≠ (run mem inp t).dma.writeAckR then 1 else 0) ∧
    (∀ t, requestsMade (channels mem inp) dmaChannel t =
      Toggle.changes (fun u => (run mem inp u).dma.readAckR) t +
        Toggle.changes (fun u => (run mem inp u).dma.writeAckR) t +
        if (run mem inp t).dma.memState = .wait then 1 else 0) ∧
    (∀ u, cells mem inp (u + 1) ≠ cells mem inp u →
      (Answered (channels mem inp) dmaChannel u ∧
          (channels mem inp (u + 1) dmaChannel).opWren = true) ∨
        ∃ t c k, c ≠ dmaChannel ∧ Answered (channels mem inp) c t ∧
          ((inp (t + 1)).others c).opWren = true ∧ k < beats ((inp (t + 1)).others c).opBurst ∧
          u = t + k) ∧
    (Fair mem inp →
      (∀ t, (run mem inp t).dma.readAckR ≠ (inp t).pdmaIn.read →
        ∃ u, t < u ∧ (run mem inp u).dma.readAckR = (inp t).pdmaIn.read) ∧
      ∀ t, (run mem inp t).dma.writeAckR ≠ (inp t).pdmaIn.write →
        ∃ u, t < u ∧ (run mem inp u).dma.writeAckR = (inp t).pdmaIn.write) :=
  ⟨fun _ h => ⟨readServed ho hu h, writeServed ho hu h⟩, fun _ => answered_of_readAck hu,
    fun _ => answered_of_writeAck hu, readRequests_eq hu ho, writeRequests_eq hu ho,
    requestsMade_eq mem inp, fun _ => answered_of_cells ho hu,
    fun hf => ⟨fun _ => hf.read hu, fun _ => hf.write hu⟩⟩

/-- The UART asks once to write a byte; the other channels are silent. -/
def writeOnce (t : ℕ) : DmaInput where
  pdmaIn := ⟨false, 0#25, decide (1 ≤ t), 5#25, 0xAB#8⟩
  others := fun _ => ⟨0#24, false, false, false, 0#2, 0#16⟩
  float := 0#16

/-- The engine is answered, and then the byte is in memory. -/
theorem periph_dma_serves_writeOnce : ∃ t,
    Answered (channels (fun _ => 0#16) writeOnce) dmaChannel t ∧
      (channels (fun _ => 0#16) writeOnce (t + 1) dmaChannel).opWren = true ∧
      byteAt (cells (fun _ => 0#16) writeOnce (t + 1)) 5#25 = 0xAB#8 ∧
      byteAt (cells (fun _ => 0#16) writeOnce (t + 1)) 4#25 =
        byteAt (cells (fun _ => 0#16) writeOnce t) 4#25 := by
  have hu : UartContract (fun _ => 0#16) writeOnce :=
    { start := ⟨rfl, rfl⟩
      readToggle := fun t hne => absurd rfl hne
      readHold := fun t _ => rfl
      writeToggle := by
        intro t hne
        cases t with
        | zero => rfl
        | succ t => exact absurd rfl hne
      writeHold := fun t _ => ⟨rfl, rfl⟩ }
  have ho : OthersContract (fun _ => 0#16) writeOnce :=
    { start := fun _ _ => rfl
      toggle := fun _ _ _ hne => absurd rfl hne
      hold := fun _ _ _ _ => ⟨rfl, rfl, rfl⟩ }
  obtain ⟨hserved, -, hack, -, -, -, -, hfair⟩ := periph_dma_serves (fun _ => 0#16) writeOnce ho hu
  obtain ⟨u, -, hdone⟩ := (hfair (fair_of_silent ho hu fun _ _ _ => rfl)).2 1 (by decide)
  -- the acknowledge has toggled somewhere before cycle `u`
  obtain ⟨v, hv⟩ : ∃ v, (run (fun _ => 0#16) writeOnce (v + 1)).dma.writeAckR ≠
      (run (fun _ => 0#16) writeOnce v).dma.writeAckR := by
    by_contra hnever
    have hkeep : ∀ n, (run (fun _ => 0#16) writeOnce n).dma.writeAckR = false := by
      intro n
      induction n with
      | zero => rfl
      | succ n ih => exact (not_not.mp fun hne => hnever ⟨n, hne⟩).trans ih
    rw [hkeep u] at hdone
    exact Bool.false_ne_true hdone
  obtain ⟨t, rfl, hans, hw⟩ := hack v hv
  have hdata := ((hserved t hans).2 hw).data
  exact ⟨t, hans, hw, (hdata 5#25).trans (if_pos rfl),
    (hdata 4#25).trans (if_neg (show ¬ 4#25 = 5#25 by decide))⟩

end Sumeru
