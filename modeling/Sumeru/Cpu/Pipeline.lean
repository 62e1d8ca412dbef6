import Sumeru.Cpu.Ifetch
import Sumeru.Cpu.Idecode
import Sumeru.Cpu.Iexec
import Sumeru.Library.Clocked

/-!
# Sumeru - The three-stage pipeline

Fetch, decode and execute connected as in {lit}`cpu.vhd`.  The caches, the CSR
blocks and the interrupt controller are inputs: the instruction cache answers
each lookup with a hit or a miss and eventually acknowledges a flush, the data
cache and the CSR bus answer the execute stage.  Instruction memory is a
parameter that gives the word for each pc.
-/

namespace Sumeru

/-- Registers of the three stages, together with the flush acknowledge register
of the instruction cache. -/
structure Core where
  ifetch : Ifetch
  idecode : Idecode
  iexec : Iexec
  icacheFlushAck : Bool

/-- Inputs of the pipeline in one cycle. -/
structure CoreInput where
  icacheHit : Bool
  /-- The instruction cache completes the flush it is working on. -/
  flushDone : Bool
  dcacheHit : Bool
  dcacheReadData : BitVec 32
  dcacheWriteStrobe : Bool
  csrBus : BitVec 32
  intrOut : IntrChannelOut

namespace Core

variable (V : Megafunctions) (imem : BitVec 32 → BitVec 32)

/-- Power-up contents of the pipeline registers. -/
def init : Core where
  ifetch := Ifetch.init
  idecode := Idecode.init
  iexec := Iexec.init
  icacheFlushAck := false

/-- What the execute stage sees in one cycle. -/
def iexecInput (s : Core) (i : CoreInput) : IexecInput where
  iexecIn := s.idecode.iexecIn
  dcacheHit := i.dcacheHit
  dcacheReadData := i.dcacheReadData
  dcacheWriteStrobe := i.dcacheWriteStrobe
  csrBus := i.csrBus
  intrOut := i.intrOut

/-- What the fetch stage sees in one cycle. -/
def ifetchInput (s : Core) (i : CoreInput) : IfetchInput where
  icacheHit := i.icacheHit
  icacheFlushAck := s.icacheFlushAck
  inst := imem s.ifetch.pc
  idecodeOut := s.iexec.out

/-- One rising edge of {lit}`clk`. -/
def step (s : Core) (i : CoreInput) : Core where
  ifetch := s.ifetch.step (s.ifetchInput imem i)
  idecode := s.idecode.step s.ifetch.idecodeIn s.iexec.out
  iexec := s.iexec.step V (s.iexecInput i)
  icacheFlushAck := if i.flushDone then s.ifetch.icacheFlush else s.icacheFlushAck

/-- The pipeline before its {lit}`t`-th clock edge. -/
def run (inp : ℕ → CoreInput) (t : ℕ) : Core :=
  Clocked.run (step V imem) init inp t

/-- One more cycle. -/
theorem run_succ (inp : ℕ → CoreInput) (t : ℕ) :
    run V imem inp (t + 1) = (run V imem inp t).step V imem (inp t) :=
  rfl

/-- The execute stage accepts the instruction in the decode registers. -/
def accepts (s : Core) (i : CoreInput) : Bool :=
  s.iexec.accepts (s.iexecInput i)

/-- When an instruction is accepted. -/
theorem accepts_iff {s : Core} {i : CoreInput} :
    s.accepts i = true ↔
      s.iexec.state = .running ∧ s.idecode.execValid = true ∧ s.iexec.out.cxfer = false :=
  Iexec.accepts_iff

end Core

/-! ## Accepted instructions -/

/-- An instruction accepted by the execute stage, with the redirect outputs of
the stage in the cycle that follows. -/
structure Accepted where
  pc : BitVec 32
  inst : BitVec 32
  cxfer : Bool
  cxferPc : BitVec 32

/-- The instruction accepted at the {lit}`t`-th edge of a run, if any. -/
def acceptedAt (V : Megafunctions) (imem : BitVec 32 → BitVec 32) (inp : ℕ → CoreInput)
    (t : ℕ) : Option Accepted :=
  if (Core.run V imem inp t).accepts (inp t) then
    some
      { pc := (Core.run V imem inp t).idecode.pcR
        inst := (Core.run V imem inp t).idecode.instR
        cxfer := (Core.run V imem inp (t + 1)).iexec.out.cxfer
        cxferPc := (Core.run V imem inp (t + 1)).iexec.out.cxferPc }
  else none

/-- The sequence of instructions accepted before the {lit}`t`-th edge. -/
def acceptedBefore (V : Megafunctions) (imem : BitVec 32 → BitVec 32)
    (inp : ℕ → CoreInput) (t : ℕ) : List Accepted :=
  Clocked.log (acceptedAt V imem inp) t

end Sumeru
