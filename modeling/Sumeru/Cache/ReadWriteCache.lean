import Sumeru.Cache.ReadCache
import Sumeru.Cpu.Iexec
import Sumeru.Memory.Channel

/-!
# Sumeru - Data cache

The entity {lit}`readwritecache_256x4x32` between the execute stage and its memory
channel.  A 36-bit word of the data RAMs is four lanes of nine bits, a valid bit and
a byte; a 16-bit word of the tag RAM is a tag with a valid and a dirty bit.  The RAMs
are clocked by {lit}`clk_n`: a step of the unit is an edge of {lit}`clk` followed by the
edge of {lit}`clk_n` in the next cycle, so states are those in front of an edge of
{lit}`clk`.  While a RAM writes some of its lanes, what it shows on the others is not
defined and is an input here.
-/

namespace Sumeru

/-- One lane of a data RAM word. -/
structure Lane where
  ena : Bool
  byte : BitVec 8
deriving DecidableEq, Repr

/-- A word of a data RAM. -/
abbrev Lanes := Fin 4 → Lane

/-- A word of the tag RAM. -/
structure LineMeta where
  tag : BitVec 13
  valid : Bool
  dirty : Bool
deriving DecidableEq, Repr

/-- The states of the cache. -/
inductive DcacheState where
  | idle | storeLine | loadLine
deriving DecidableEq, Repr

/-- RAM contents and registers of {lit}`readwritecache_256x4x32`. -/
structure Dcache where
  metaRam : BitVec 8 → LineMeta
  dataRam : Fin 4 → BitVec 8 → Lanes
  startSave : Bool
  metaWren : Bool
  dataWren : Fin 4 → Bool
  mcOpStart : Bool
  state : DcacheState
  metaWriteLineValid : Bool
  metaWriteLineDirty : Bool
  cacheByteena : BitVec 4
  cacheWriteData : Lanes
  writeStrobeR : Bool
  counter : Fin 8
  opAddr : BitVec 24
  opWren : Bool
  opDqm : BitVec 2
  mcWriteData : BitVec 16

/-- The request of the execute stage, with what the RAMs show on lanes that are being
written around. -/
structure DcacheInput where
  addr : BitVec 25
  start : Bool
  wren : Bool
  byteena : BitVec 4
  writeData : BitVec 32
  undefinedLanes : Fin 4 → Lanes

/-- Byte {lit}`b` of a word. -/
def byteOf (word : BitVec 32) (b : Fin 4) : BitVec 8 := word.extractLsb' (8 * b.val) 8

namespace Dcache

/-- Power-up contents: the RAMs are cleared by their init files. -/
def init : Dcache where
  metaRam := fun _ => ⟨0#13, false, false⟩
  dataRam := fun _ _ _ => ⟨false, 0#8⟩
  startSave := false
  metaWren := false
  dataWren := fun _ => false
  mcOpStart := false
  state := .idle
  metaWriteLineValid := false
  metaWriteLineDirty := false
  cacheByteena := 0#4
  cacheWriteData := fun _ => ⟨false, 0#8⟩
  writeStrobeR := false
  counter := 0
  opAddr := 0#24
  opWren := false
  opDqm := 0#2
  mcWriteData := 0#16

/-- Output {lit}`mc_in`. -/
def mcIn (c : Dcache) : MemChannelIn where
  opAddr := c.opAddr
  opStart := c.mcOpStart
  opWren := c.opWren
  opBurst := true
  opDqm := c.opDqm
  writeData := c.mcWriteData

/-- One rising edge of {lit}`clk_n`: the RAMs take their writes. -/
def clkN (c : Dcache) (addr : BitVec 25) : Dcache :=
  { c with
    metaRam :=
      if c.metaWren then
        Function.update c.metaRam (lineOf addr)
          ⟨tagOf addr, c.metaWriteLineValid, c.metaWriteLineDirty⟩
      else c.metaRam
    dataRam := fun j =>
      if c.dataWren j then
        Function.update (c.dataRam j) (lineOf addr) fun b =>
          if c.cacheByteena.getLsbD b then c.cacheWriteData b else c.dataRam j (lineOf addr) b
      else c.dataRam j }

/-- Outputs of the data RAMs after the edge of {lit}`clk_n`. -/
def data (c : Dcache) (i : DcacheInput) (j : Fin 4) : Lanes := fun b =>
  if c.dataWren j && !c.cacheByteena.getLsbD b then i.undefinedLanes j b
  else c.dataRam j (lineOf i.addr) b

/-- Signal {lit}`meta`. -/
def lineMeta (c : Dcache) (i : DcacheInput) : LineMeta := c.metaRam (lineOf i.addr)

/-- Signal {lit}`line_hit`. -/
def lineHit (c : Dcache) (i : DcacheInput) : Bool :=
  (c.lineMeta i).tag == tagOf i.addr && (c.lineMeta i).valid

/-- Signal {lit}`cache_data`. -/
def cacheData (c : Dcache) (i : DcacheInput) : Lanes := c.data i (wordOf i.addr)

/-- Output {lit}`hit`. -/
def hit (c : Dcache) (i : DcacheInput) : Bool :=
  c.lineHit i && decide (∀ b : Fin 4, i.byteena.getLsbD b = true → (c.cacheData i b).ena = true)

/-- Output {lit}`read_data`. -/
def readData (c : Dcache) (i : DcacheInput) : BitVec 32 :=
  (c.cacheData i 3).byte ++ (c.cacheData i 2).byte ++ (c.cacheData i 1).byte ++
    (c.cacheData i 0).byte

/-- Mask and data of half-word {lit}`h` of a line of four words. -/
def halfWord (line : Fin 4 → Lanes) (h : Fin 8) : BitVec 2 × BitVec 16 :=
  let word := line ⟨h.val / 2, by omega⟩
  let low := word ⟨2 * (h.val % 2), by omega⟩
  let high := word ⟨2 * (h.val % 2) + 1, by omega⟩
  (BitVec.ofBool (!high.ena) ++ BitVec.ofBool (!low.ena), high.byte ++ low.byte)

/-! ## The clocked process -/

/-- The default assignments at the head of the process: the bytes of
{lit}`cache_write_data` move down by a half-word. -/
def edgeDefaults (c : Dcache) (sdcDataOut : BitVec 16) : Dcache :=
  { c with
    dataWren := fun _ => false
    metaWren := false
    metaWriteLineValid := true
    cacheWriteData := fun b =>
      { (c.cacheWriteData b) with
        byte :=
          if b = 0 then (c.cacheWriteData 2).byte
          else if b = 1 then (c.cacheWriteData 3).byte
          else if b = 2 then sdcDataOut.extractLsb' 0 8
          else sdcDataOut.extractLsb' 8 8 } }

/-- Write to a line that is present. -/
def write (c : Dcache) (i : DcacheInput) (sdcDataOut : BitVec 16) : Dcache :=
  { c.edgeDefaults sdcDataOut with
    startSave := !c.startSave
    writeStrobeR := !c.writeStrobeR
    cacheWriteData := fun b => ⟨true, byteOf i.writeData b⟩
    cacheByteena := i.byteena
    metaWriteLineDirty := (c.lineMeta i).dirty || i.byteena != 0#4
    metaWren := true
    dataWren := fun j => j == wordOf i.addr }

/-- Begin to write back the dirty line in the way. -/
def evict (c : Dcache) (i : DcacheInput) (sdcDataOut : BitVec 16) : Dcache :=
  { c.edgeDefaults sdcDataOut with
    mcOpStart := !c.mcOpStart
    opAddr := (c.lineMeta i).tag ++ lineOf i.addr ++ 0#3
    opWren := true
    opDqm := (halfWord (c.data i) 0).1
    mcWriteData := (halfWord (c.data i) 0).2
    metaWriteLineDirty := false
    state := .storeLine
    counter := 0 }

/-- Begin to load the line, which is invalid until it is fully loaded. -/
def load (c : Dcache) (i : DcacheInput) (sdcDataOut : BitVec 16) : Dcache :=
  { c.edgeDefaults sdcDataOut with
    startSave := !c.startSave
    mcOpStart := !c.mcOpStart
    opAddr := lineBase i.addr
    opWren := false
    opDqm := 0b00#2
    metaWriteLineDirty := false
    cacheWriteData := fun b => { (c.edgeDefaults sdcDataOut).cacheWriteData b with ena := true }
    cacheByteena := 0b1111#4
    state := .loadLine
    counter := 0
    metaWriteLineValid := false
    metaWren := true }

/-- Take over a clean line for a write, with no byte valid. -/
def initializeLine (c : Dcache) (sdcDataOut : BitVec 16) : Dcache :=
  { c.edgeDefaults sdcDataOut with
    metaWriteLineDirty := false
    cacheWriteData := fun b => { (c.edgeDefaults sdcDataOut).cacheWriteData b with ena := false }
    cacheByteena := 0b1111#4
    dataWren := fun _ => true
    metaWren := true }

/-- The state {lit}`IDLE` with a new request. -/
def serve (c : Dcache) (i : DcacheInput) (sdcDataOut : BitVec 16) : Dcache :=
  if i.wren = true ∧ c.lineHit i = true then c.write i sdcDataOut
  else if c.hit i = false then
    if (c.lineMeta i).dirty = true then c.evict i sdcDataOut
    else if i.wren = false then c.load i sdcDataOut
    else c.initializeLine sdcDataOut
  else { c.edgeDefaults sdcDataOut with startSave := !c.startSave }

/-- A half-word of {lit}`LOAD_LINE`: every other one completes a word, the last one the
line. -/
def loadBeat (c : Dcache) (sdcDataOut : BitVec 16) : Dcache :=
  { c.edgeDefaults sdcDataOut with
    counter := c.counter + 1
    dataWren := fun j => c.counter.val == 2 * j.val + 1
    metaWren := c.counter == 7
    state := if c.counter = 7 then .idle else .loadLine }

/-- A half-word of {lit}`STORE_LINE`: present the next one, and with the last one
invalidate the line. -/
def storeBeat (c : Dcache) (i : DcacheInput) (sdcDataOut : BitVec 16) : Dcache :=
  if c.counter = 7 then { c.edgeDefaults sdcDataOut with counter := c.counter + 1 }
  else
    { c.edgeDefaults sdcDataOut with
      counter := c.counter + 1
      opDqm := (halfWord (c.data i) (c.counter + 1)).1
      mcWriteData := (halfWord (c.data i) (c.counter + 1)).2
      metaWriteLineValid := c.counter != 6
      metaWren := c.counter == 6
      state := if c.counter = 6 then .idle else .storeLine }

/-- One rising edge of {lit}`clk`. -/
def clk (c : Dcache) (i : DcacheInput) (opStrobe : Bool) (sdcDataOut : BitVec 16) : Dcache :=
  match c.state with
  | .idle => if i.start ≠ c.startSave then c.serve i sdcDataOut else c.edgeDefaults sdcDataOut
  | .loadLine =>
      if opStrobe = c.mcOpStart then c.loadBeat sdcDataOut else c.edgeDefaults sdcDataOut
  | .storeLine =>
      if opStrobe = c.mcOpStart then c.storeBeat i sdcDataOut else c.edgeDefaults sdcDataOut

end Dcache

/-! ## Execute stage, cache and channel -/

/-- The execute stage with its data cache and the memory behind it. -/
structure DataUnit where
  iexec : Iexec
  dcache : Dcache
  chan : BurstChannel

/-- Inputs of the data unit in one cycle. -/
structure DataUnitInput where
  iexecIn : IexecChannelIn
  csrBus : BitVec 32
  intrOut : IntrChannelOut
  ready : Bool
  float : BitVec 16
  undefinedLanes : Fin 4 → Lanes

namespace DataUnit

variable (V : Megafunctions)

/-- Power-up contents. -/
def init (mem : BitVec 24 → BitVec 16) : DataUnit where
  iexec := Iexec.init
  dcache := Dcache.init
  chan := BurstChannel.init mem

/-- What the cache sees of the execute stage. -/
def dcacheIn (s : DataUnit) (i : DataUnitInput) : DcacheInput where
  addr := s.iexec.dcacheAddr
  start := s.iexec.dcacheStart
  wren := s.iexec.dcacheWren
  byteena := s.iexec.byteena
  writeData := s.iexec.cacheData
  undefinedLanes := i.undefinedLanes

/-- What the execute stage sees. -/
def iexecInput (s : DataUnit) (i : DataUnitInput) : IexecInput where
  iexecIn := i.iexecIn
  dcacheHit := s.dcache.hit (s.dcacheIn i)
  dcacheReadData := s.dcache.readData (s.dcacheIn i)
  dcacheWriteStrobe := s.dcache.writeStrobeR
  csrBus := i.csrBus
  intrOut := i.intrOut

/-- One rising edge of {lit}`clk`. -/
def clk (s : DataUnit) (i : DataUnitInput) : DataUnit where
  iexec := s.iexec.step V (s.iexecInput i)
  dcache := s.dcache.clk (s.dcacheIn i) s.chan.strobe (s.chan.dataOut i.float)
  chan := s.chan.advance s.dcache.mcIn i.ready

/-- One rising edge of {lit}`clk_n`. -/
def clkN (s : DataUnit) : DataUnit :=
  { s with
    dcache := s.dcache.clkN s.iexec.dcacheAddr
    chan := s.chan.transfer s.dcache.mcIn }

/-- From one edge of {lit}`clk` to the next. -/
def step (s : DataUnit) (i : DataUnitInput) : DataUnit := (s.clk V i).clkN

/-- The data unit in front of the {lit}`t`-th edge of {lit}`clk`. -/
def run (mem : BitVec 24 → BitVec 16) (inp : ℕ → DataUnitInput) (t : ℕ) : DataUnit :=
  Clocked.run (step V) (init mem) inp t

/-- One more cycle. -/
theorem run_succ (mem : BitVec 24 → BitVec 16) (inp : ℕ → DataUnitInput) (t : ℕ) :
    run V mem inp (t + 1) = (run V mem inp t).step V (inp t) :=
  rfl

end DataUnit

end Sumeru
