import Sumeru.Cpu.Types

/-!
# Sumeru - Instruction fetch stage

The clocked process of {lit}`cpu_stage_ifetch`.  The stage owns the program
counter, follows JAL speculatively, turns FENCE.I into a flush request to the
instruction cache and remembers a redirect that it cannot take yet in
{lit}`cxfer_pending`.
-/

namespace Sumeru

/-- Registers of {lit}`cpu_stage_ifetch`, with the output record
{lit}`idecode_in` that the stage drives. -/
structure Ifetch where
  pc : BitVec 32
  icacheFlush : Bool
  cxferPending : Bool
  clkCycleR : Bool
  idecodeIn : IdecodeChannelIn

/-- Inputs of the fetch stage in one cycle: the lookup result of the instruction
cache for the current {lit}`pc` and the signals coming back from decode. -/
structure IfetchInput where
  icacheHit : Bool
  icacheFlushAck : Bool
  inst : BitVec 32
  idecodeOut : IexecChannelOut

/-- Power-up contents of the fetch registers. -/
def Ifetch.init : Ifetch where
  pc := 0#32
  icacheFlush := false
  cxferPending := false
  clkCycleR := false
  idecodeIn := ⟨false, 0#32, 0#32⟩

/-- Signal {lit}`jmp_pc`: the target of a JAL word at {lit}`pc`. -/
def jmpPc (pc inst : BitVec 32) : BitVec 32 :=
  pc + (inst.extractLsb' 31 1 ++ inst.extractLsb' 12 8 ++ inst.extractLsb' 20 1 ++
    inst.extractLsb' 21 10 ++ 0#1).signExtend 32

/-- Signal {lit}`pc_p4`. -/
def pcP4 (pc : BitVec 32) : BitVec 32 :=
  pc + 4#32

/-- The pc the stage continues with after the word {lit}`inst` at {lit}`pc`. -/
def fetchNextPc (pc inst : BitVec 32) : BitVec 32 :=
  if instOpcode inst = opTypeJal then jmpPc pc inst else pcP4 pc

/-- The third branch of the process: a hit that nothing holds back. -/
def Ifetch.fetch (s : Ifetch) (inst : BitVec 32) : Ifetch :=
  { s with
    clkCycleR := !s.clkCycleR
    pc := fetchNextPc s.pc inst
    icacheFlush := if isFenceI inst then !s.icacheFlush else s.icacheFlush
    idecodeIn := ⟨!isFenceI inst, inst, s.pc⟩ }

/-- One rising edge of {lit}`clk`. -/
def Ifetch.step (s : Ifetch) (i : IfetchInput) : Ifetch :=
  if i.icacheFlushAck ≠ s.icacheFlush then
    { s with
      idecodeIn := { s.idecodeIn with valid := false }
      cxferPending := s.cxferPending || i.idecodeOut.cxfer }
  else if (i.idecodeOut.cxfer || s.cxferPending) && i.icacheHit then
    -- a redirect waits for a hit, so that the pc never moves under a line fill
    { s with
      cxferPending := false
      pc := i.idecodeOut.cxferPc
      idecodeIn := { s.idecodeIn with valid := false } }
  else if !i.idecodeOut.busy && i.icacheHit then
    s.fetch i.inst
  else
    { s with
      idecodeIn :=
        { s.idecodeIn with
          valid := s.idecodeIn.valid && !(!i.idecodeOut.busy || i.idecodeOut.cxfer) }
      cxferPending := s.cxferPending || i.idecodeOut.cxfer }

end Sumeru
