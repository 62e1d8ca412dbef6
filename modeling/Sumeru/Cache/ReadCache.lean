import Mathlib.Logic.Function.Basic
import Sumeru.Cpu.Ifetch
import Sumeru.Library.Clocked

/-!
# Sumeru - Instruction cache

The entity {lit}`read_cache_256x4x32` and the fetch stage around it.  The tag and
data RAMs are clocked by {lit}`clk_n` and show at once what they write, so a cycle
first moves the RAMs ({lit}`clkN`) and then, with the lookup result, the registers
({lit}`clk`).
-/

namespace Sumeru

/-- The states of the cache; {lit}`waitB k` is {lit}`WAIT_B1` to {lit}`WAIT_B8`. -/
inductive ReadCacheState where
  | idle
  | flushCache
  | waitB (k : Fin 8)
deriving DecidableEq, Repr

/-- RAM contents and registers of {lit}`read_cache_256x4x32`. -/
structure ReadCache where
  metaRam : BitVec 8 → BitVec 16
  dataRam : Fin 4 → BitVec 8 → BitVec 32
  metaWren : Bool
  dataWren : Fin 4 → Bool
  opStartR : Bool
  state : ReadCacheState
  metaDataLineValid : Bool
  writeData : BitVec 32
  flushEnable : Bool
  flushAckR : Bool
  flushAddr : BitVec 8

/-- Bits 11 downto 4 of an address. -/
def lineOf (addr : BitVec 25) : BitVec 8 := addr.extractLsb' 4 8

/-- Bits 24 downto 12 of an address. -/
def tagOf (addr : BitVec 25) : BitVec 13 := addr.extractLsb' 12 13

/-- Bits 3 downto 2 of an address. -/
def wordOf (addr : BitVec 25) : Fin 4 := (addr.extractLsb' 2 2).toFin

/-- The half-word address of the line of {lit}`addr`. -/
def lineBase (addr : BitVec 25) : BitVec 24 := addr.extractLsb' 4 21 ++ 0#3

namespace ReadCache

/-- Power-up contents: the RAMs are cleared by their init files. -/
def init : ReadCache where
  metaRam := fun _ => 0#16
  dataRam := fun _ _ => 0#32
  metaWren := false
  dataWren := fun _ => false
  opStartR := false
  state := .idle
  metaDataLineValid := false
  writeData := 0#32
  flushEnable := false
  flushAckR := false
  flushAddr := 0#8

/-- Signal {lit}`meta_addr`. -/
def metaAddr (c : ReadCache) (addr : BitVec 25) : BitVec 8 :=
  if c.flushEnable = false then lineOf addr else c.flushAddr

/-- Signal {lit}`meta_data`. -/
def metaData (c : ReadCache) (addr : BitVec 25) : BitVec 16 :=
  0b00#2 ++ tagOf addr ++ BitVec.ofBool c.metaDataLineValid

/-- One rising edge of {lit}`clk_n`: the RAMs take their writes. -/
def clkN (c : ReadCache) (addr : BitVec 25) : ReadCache :=
  { c with
    metaRam :=
      if c.metaWren then Function.update c.metaRam (c.metaAddr addr) (c.metaData addr)
      else c.metaRam
    dataRam := fun j =>
      if c.dataWren j then Function.update (c.dataRam j) (lineOf addr) c.writeData
      else c.dataRam j }

/-- Output {lit}`hit`, after the edge of {lit}`clk_n`. -/
def hit (c : ReadCache) (addr : BitVec 25) : Bool :=
  (c.metaRam (c.metaAddr addr)).extractLsb' 0 14 == tagOf addr ++ 1#1

/-- Output {lit}`data`, after the edge of {lit}`clk_n`. -/
def data (c : ReadCache) (addr : BitVec 25) : BitVec 32 :=
  c.dataRam (wordOf addr) (lineOf addr)

/-- Output {lit}`mc_in`; {lit}`write_data` is not driven. -/
def mcIn (c : ReadCache) (addr : BitVec 25) : MemChannelIn where
  opAddr := lineBase addr
  opStart := c.opStartR
  opWren := false
  opBurst := true
  opDqm := 0b00#2
  writeData := 0#16

/-- The default assignments at the head of the process. -/
def edgeDefaults (c : ReadCache) (sdcDataOut : BitVec 16) : ReadCache :=
  { c with
    dataWren := fun _ => false
    metaWren := false
    metaDataLineValid := true
    writeData := sdcDataOut ++ c.writeData.extractLsb' 16 16 }

/-- Begin a flush with line 255. -/
def startFlush (c : ReadCache) (sdcDataOut : BitVec 16) : ReadCache :=
  { c.edgeDefaults sdcDataOut with
    flushEnable := true
    flushAddr := 0xFF#8
    metaDataLineValid := false
    metaWren := true
    state := .flushCache }

/-- Request the line of a miss and invalidate it until it is fully loaded. -/
def request (c : ReadCache) (sdcDataOut : BitVec 16) : ReadCache :=
  { c.edgeDefaults sdcDataOut with
    opStartR := !c.opStartR
    state := .waitB 0
    metaDataLineValid := false
    metaWren := true }

/-- The flush has reached line 0. -/
def endFlush (c : ReadCache) (sdcDataOut : BitVec 16) : ReadCache :=
  { c.edgeDefaults sdcDataOut with
    metaDataLineValid := false
    metaWren := true
    flushEnable := false
    flushAckR := !c.flushAckR
    state := .idle }

/-- The flush goes on to the next lower line. -/
def nextFlush (c : ReadCache) (sdcDataOut : BitVec 16) : ReadCache :=
  { c.edgeDefaults sdcDataOut with
    metaDataLineValid := false
    metaWren := true
    flushAddr := c.flushAddr - 1#8 }

/-- A half-word after the first: every other one completes a word, the last one the
line. -/
def beat (c : ReadCache) (sdcDataOut : BitVec 16) (k : Fin 8) : ReadCache :=
  { c.edgeDefaults sdcDataOut with
    state := if k = 7 then .idle else .waitB (k + 1)
    dataWren := fun j => k.val == 2 * j.val + 1
    metaWren := k == 7 }

/-- One rising edge of {lit}`clk`. -/
def clk (c : ReadCache) (addr : BitVec 25) (enable flush opStrobe : Bool)
    (sdcDataOut : BitVec 16) : ReadCache :=
  match c.state with
  | .idle =>
      if flush ≠ c.flushAckR then c.startFlush sdcDataOut
      else if enable && !c.hit addr then c.request sdcDataOut
      else c.edgeDefaults sdcDataOut
  | .flushCache =>
      if c.flushAddr = 0x00#8 then c.endFlush sdcDataOut else c.nextFlush sdcDataOut
  | .waitB k =>
      if k = 0 then
        if opStrobe = c.opStartR then { c.edgeDefaults sdcDataOut with state := .waitB 1 }
        else c.edgeDefaults sdcDataOut
      else c.beat sdcDataOut k

end ReadCache

/-! ## Fetch stage and cache -/

/-- The fetch stage with its instruction cache. -/
structure FetchUnit where
  ifetch : Ifetch
  icache : ReadCache

/-- Inputs of the fetch unit in one cycle. -/
structure FetchUnitInput where
  enable : Bool
  idecodeOut : IexecChannelOut
  opStrobe : Bool
  sdcDataOut : BitVec 16

namespace FetchUnit

/-- Power-up contents. -/
def init : FetchUnit where
  ifetch := Ifetch.init
  icache := ReadCache.init

/-- The cache address, {lit}`pc(24 downto 0)`. -/
def addr (s : FetchUnit) : BitVec 25 := s.ifetch.pc.extractLsb' 0 25

/-- The cache after the edge of {lit}`clk_n`. -/
def settled (s : FetchUnit) : ReadCache := s.icache.clkN s.addr

/-- Output {lit}`icache_mc_in`. -/
def mcIn (s : FetchUnit) : MemChannelIn := s.icache.mcIn s.addr

/-- What the fetch stage sees at the edge of {lit}`clk`. -/
def ifetchIn (s : FetchUnit) (i : FetchUnitInput) : IfetchInput where
  icacheHit := s.settled.hit s.addr
  icacheFlushAck := s.settled.flushAckR
  inst := s.settled.data s.addr
  idecodeOut := i.idecodeOut

/-- One clock cycle. -/
def step (s : FetchUnit) (i : FetchUnitInput) : FetchUnit where
  ifetch := s.ifetch.step (s.ifetchIn i)
  icache := s.settled.clk s.addr i.enable s.ifetch.icacheFlush i.opStrobe i.sdcDataOut

/-- The fetch unit at the start of cycle {lit}`t`. -/
def run (inp : ℕ → FetchUnitInput) (t : ℕ) : FetchUnit :=
  Clocked.run step init inp t

/-- One more cycle. -/
theorem run_succ (inp : ℕ → FetchUnitInput) (t : ℕ) :
    run inp (t + 1) = (run inp t).step (inp t) :=
  rfl

end FetchUnit

end Sumeru
