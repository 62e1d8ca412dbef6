import Sumeru.Cpu.Datapath
import Sumeru.Library.DelayLine

/-!
# Sumeru - Execute stage

The registers and processes of {lit}`cpu_stage_iexec`: operand fetch with its
single forwarding path, the five-state main process, the store-data process and
the two-stage CSR write-back.  The register file is written on {lit}`clk` and
read on {lit}`clk_n` half a cycle later, so in the cycle before an edge its read
ports show the contents left by the previous edge at the addresses
{lit}`iexec_in.rs1` and {lit}`iexec_in.rs2`; the two copies of the file receive
the same writes and are modelled by one array.

Main results:

- Theorems {lit}`Iexec.sameInstruction_step` and
  {lit}`Iexec.out_cxfer_step_of_not_accepts`: an edge that accepts no instruction
  keeps the operand registers and lowers {lit}`cxfer`.
- Theorem {lit}`Iexec.busyR_step`: the busy output is high exactly when the
  machine has left {lit}`RUNNING`.
-/

namespace Sumeru

/-- The states of the main process. -/
inductive ExecState where
  | running | ls1 | lsWait | divWait | csrReadWait
deriving DecidableEq, Repr

/-- Registers of {lit}`cpu_stage_iexec`, of its register file and of the pipeline
inside the divider. -/
structure Iexec where
  state : ExecState
  regfile : BitVec 5 → BitVec 32
  regfileWren : Bool
  regfileWraddr : BitVec 5
  cmdResultMux : Cmd
  cxferMux : Bool
  cxferPc : BitVec 32
  triggerCxfer : Bool
  brInst : Bool
  dcacheAddr : BitVec 25
  dcacheStart : Bool
  dcacheWren : Bool
  dcacheWriteStrobeSave : Bool
  busyR : Bool
  opA : BitVec 32
  opB : BitVec 32
  aluOp : BitVec 4
  shiftBit : Bool
  shiftDirLr : Bool
  lsOp : BitVec 2
  lsLoadSign : Bool
  storeData : BitVec 32
  intrNextpc : BitVec 32
  divCtr : BitVec 4
  divLine : Fin 8 → BitVec 33 × BitVec 33
  csrDoWrite : Bool
  csrWaitCtr : Bool
  csrIn : CsrChannelIn
  clkInstretR : Bool
  intrTriggerSave : Bool
  intrResetR : Bool
  ctxPcSaveR : BitVec 32
  ctxPcSwitchR : BitVec 32
  ivectorAddrR : BitVec 32

/-- Inputs of the execute stage in one cycle.  The field {lit}`csrBus` is the
value that the CSR blocks outside the stage drive on {lit}`csr_sel_result`. -/
structure IexecInput where
  iexecIn : IexecChannelIn
  dcacheHit : Bool
  dcacheReadData : BitVec 32
  dcacheWriteStrobe : Bool
  csrBus : BitVec 32
  intrOut : IntrChannelOut

/-- Power-up contents; registers without an initial value in the source are
zero here and are always written before they are read. -/
def Iexec.init : Iexec where
  state := .running
  regfile := fun _ => 0#32
  regfileWren := false
  regfileWraddr := 0#5
  cmdResultMux := .alu
  cxferMux := false
  cxferPc := 0#32
  triggerCxfer := false
  brInst := false
  dcacheAddr := 0#25
  dcacheStart := false
  dcacheWren := false
  dcacheWriteStrobeSave := false
  busyR := false
  opA := 0#32
  opB := 0#32
  aluOp := 0#4
  shiftBit := false
  shiftDirLr := false
  lsOp := 0#2
  lsLoadSign := false
  storeData := 0#32
  intrNextpc := 0#32
  divCtr := 0#4
  divLine := fun _ => (0#33, 0#33)
  csrDoWrite := false
  csrWaitCtr := false
  csrIn := ⟨0#12, 0#2, false, 0#12, 0#32⟩
  clkInstretR := false
  intrTriggerSave := false
  intrResetR := false
  ctxPcSaveR := 0#32
  ctxPcSwitchR := 0#32
  ivectorAddrR := 0#32

namespace Iexec

variable (V : Megafunctions)

/-! ## Combinational signals -/

/-- Signal {lit}`alu_result`. -/
def aluResult (s : Iexec) : BitVec 32 :=
  cpuAluResult s.opA s.opB s.aluOp

/-- Signal {lit}`br_result`. -/
def brResult (s : Iexec) : Bool :=
  cpuAluResultBr s.opA s.opB s.aluOp

/-- The record {lit}`iexec_out`. -/
def out (s : Iexec) : IexecChannelOut where
  busy := s.busyR
  cxfer := (s.brInst && s.brResult) || s.triggerCxfer
  cxferPc := if s.cxferMux = false then s.aluResult else s.cxferPc

/-- Signal {lit}`regfile_wren_nz`: register zero is never written. -/
def regfileWrenNz (s : Iexec) : Bool :=
  s.regfileWren && s.regfileWraddr != 0#5

/-- The byte enables the stage presents to the data cache. -/
def byteena (s : Iexec) : BitVec 4 :=
  dcacheByteena s.lsOp (s.aluResult.extractLsb' 0 2)

/-- The word the stage presents to the data cache. -/
def cacheData (s : Iexec) : BitVec 32 :=
  dcacheWriteData s.lsOp s.storeData

/-- Signal {lit}`csr_sel_result`: the stage itself answers for PCSAVE. -/
def csrSelResult (s : Iexec) (i : IexecInput) : BitVec 32 :=
  if s.csrIn.csrSelReg = csrRegCtxPcsave then s.ctxPcSaveR else i.csrBus

/-- Signal {lit}`rd_write_data`: the result selected by {lit}`cmd_result_mux`.  A
division leaves {lit}`CMD_STORE` in the multiplexer, which selects the divider. -/
def rdWriteData (s : Iexec) (i : IexecInput) : BitVec 32 :=
  match s.cmdResultMux with
  | .alu => s.aluResult
  | .shift => cpuShift s.opA (s.opB.extractLsb' 0 5) s.shiftBit s.shiftDirLr
  | .csr => s.csrSelResult i
  | .load => loadResult s.byteena s.lsLoadSign i.dcacheReadData
  | .jalr => s.intrNextpc
  | .muldiv => mulResult V s.opA s.opB s.aluOp
  | .store | .branch => divResult V (s.divLine 7) s.aluOp

/-- A source operand: the value about to be written when the register is the
pending destination, the register file otherwise. -/
def operand (s : Iexec) (i : IexecInput) (r : BitVec 5) : BitVec 32 :=
  if r = s.regfileWraddr ∧ s.regfileWrenNz = true then s.rdWriteData V i else s.regfile r

/-- The condition under which the main process accepts an instruction. -/
def accepts (s : Iexec) (i : IexecInput) : Bool :=
  s.state == .running && i.iexecIn.valid && !s.out.cxfer

/-- A CSR access to SWITCH. -/
def isSwitch (x : IexecChannelIn) : Bool :=
  x.cmd == .csr && x.csrReg == csrRegSwitch

/-- The branch of the acceptance code that takes an interrupt: not on a JALR, a
CSR access or a branch, whose successor is not {lit}`intr_nextpc`. -/
def takesIntr (s : Iexec) (i : IexecInput) : Bool :=
  !i.iexecIn.triggerCxfer && i.iexecIn.cmd != .csr && i.iexecIn.cmd != .branch &&
    i.intrOut.intrTrigger != s.intrTriggerSave

/-! ## The main process -/

/-- The default assignments at the head of the main process. -/
def edgeDefaults (s : Iexec) : Iexec :=
  { s with
    regfileWren := false
    brInst := false
    triggerCxfer := false
    busyR := false
    csrDoWrite := false
    intrResetR := false }

/-- The state an accepted instruction leads to. -/
def acceptState (x : IexecChannelIn) : ExecState :=
  match x.cmd with
  | .store | .load => .ls1
  | .muldiv => if x.cmdOp.getLsbD 2 then .divWait else .running
  | .csr => if x.csrReg = csrRegSwitch then .running else .csrReadWait
  | .alu | .shift | .branch | .jalr => .running

/-- Signal {lit}`cxfer_pc` at acceptance.  The assignment of the branch target
stands last in the source and wins over the others. -/
def acceptCxferPc (s : Iexec) (i : IexecInput) : BitVec 32 :=
  if i.iexecIn.cmd = .branch then i.iexecIn.imm
  else if i.iexecIn.triggerCxfer = false ∧ isSwitch i.iexecIn = true then s.ctxPcSwitchR
  else if s.takesIntr i then s.ivectorAddrR.extractLsb' 8 24 ++ i.intrOut.intrVec ++ 0#4
  else s.cxferPc

/-- The registers loaded when an instruction is accepted. -/
def accept (s : Iexec) (i : IexecInput) : Iexec :=
  let x := i.iexecIn
  { s.edgeDefaults with
    clkInstretR := !s.clkInstretR
    aluOp := x.cmdOp
    intrNextpc := x.intrNextpc
    opA := s.operand V i x.rs1
    opB := if x.cmdUseReg = false then x.imm else s.operand V i x.rs2
    cxferMux := !x.triggerCxfer
    triggerCxfer := x.triggerCxfer || isSwitch x || s.takesIntr i
    cxferPc := s.acceptCxferPc i
    intrResetR := !x.triggerCxfer && isSwitch x
    intrTriggerSave := if s.takesIntr i then !s.intrTriggerSave else s.intrTriggerSave
    ctxPcSaveR := if s.takesIntr i then x.intrNextpc else s.ctxPcSaveR
    shiftBit := x.cmdOp.getLsbD 1
    shiftDirLr := x.cmdOp.getLsbD 0
    cmdResultMux := if x.cmd = .muldiv ∧ x.cmdOp.getLsbD 2 = true then .store else x.cmd
    regfileWraddr := x.rd
    regfileWren := x.cmd = .muldiv ∨ x.cmd = .alu ∨ x.cmd = .shift ∨ x.cmd = .jalr
    brInst := x.cmd = .branch
    state := acceptState x
    busyR := acceptState x != .running
    lsOp :=
      if x.cmd = .store then x.rd.extractLsb' 0 2
      else if x.cmd = .load then x.rs2.extractLsb' 0 2 else s.lsOp
    lsLoadSign :=
      if x.cmd = .store ∨ x.cmd = .load then !x.rs2.getLsbD 2 else s.lsLoadSign
    divCtr := if x.cmd = .muldiv ∧ x.cmdOp.getLsbD 2 = true then 0b1001#4 else s.divCtr
    csrWaitCtr := if acceptState x = .csrReadWait then true else s.csrWaitCtr
    csrIn :=
      { s.csrIn with
        csrSelReg := if acceptState x = .csrReadWait then x.csrReg else s.csrIn.csrSelReg
        csrSelOp :=
          if acceptState x = .csrReadWait then x.cmdOp.extractLsb' 0 2 else s.csrIn.csrSelOp } }

/-- The main process at one rising edge of {lit}`clk`. -/
def mainProcess (s : Iexec) (i : IexecInput) : Iexec :=
  match s.state with
  | .divWait =>
      if s.divCtr = 0#4 then { s.edgeDefaults with state := .running }
      else
        { s.edgeDefaults with busyR := true, regfileWren := true, divCtr := s.divCtr - 1#4 }
  | .ls1 =>
      { s.edgeDefaults with
        busyR := true
        dcacheAddr := s.aluResult.extractLsb' 0 25
        dcacheWren := s.cmdResultMux.code.getLsbD 1
        dcacheStart := !s.dcacheStart
        state := .lsWait }
  | .lsWait =>
      if s.cmdResultMux = .load ∧ i.dcacheHit = true then
        { s.edgeDefaults with regfileWren := true, state := .running }
      else if s.cmdResultMux = .store ∧ i.dcacheWriteStrobe ≠ s.dcacheWriteStrobeSave then
        { s.edgeDefaults with
          dcacheWriteStrobeSave := !s.dcacheWriteStrobeSave
          state := .running }
      else { s.edgeDefaults with busyR := true }
  | .running => if s.accepts i then s.accept V i else s.edgeDefaults
  | .csrReadWait =>
      if s.csrWaitCtr then { s.edgeDefaults with busyR := true, csrWaitCtr := false }
      else { s.edgeDefaults with regfileWren := true, csrDoWrite := true, state := .running }

/-! ## The other processes -/

/-- The store-data process: {lit}`store_data` follows {lit}`rs2` whenever the stage
is not busy and an instruction is offered. -/
def nextStoreData (s : Iexec) (i : IexecInput) : BitVec 32 :=
  if s.busyR = false ∧ i.iexecIn.valid = true then s.operand V i i.iexecIn.rs2
  else s.storeData

/-- The data written back to a CSR, by the operation selected at acceptance. -/
def csrWriteData (s : Iexec) (i : IexecInput) : BitVec 32 :=
  if s.csrIn.csrSelOp = 0b10#2 then s.opB ||| s.csrSelResult i
  else if s.csrIn.csrSelOp = 0b11#2 then ~~~s.opB &&& s.csrSelResult i
  else s.opB

/-- The write port of the register file. -/
def nextRegfile (s : Iexec) (i : IexecInput) : BitVec 5 → BitVec 32 :=
  fun r => if s.regfileWrenNz = true ∧ r = s.regfileWraddr then s.rdWriteData V i
    else s.regfile r

/-- One rising edge of {lit}`clk` for all processes of the stage. -/
def step (s : Iexec) (i : IexecInput) : Iexec :=
  let m := s.mainProcess V i
  { m with
    storeData := s.nextStoreData V i
    regfile := s.nextRegfile V i
    divLine := DelayLine.push (divInputs s.opA s.opB s.aluOp) s.divLine
    csrIn :=
      { m.csrIn with
        csrOpValid := s.csrDoWrite
        csrOpReg := if s.csrDoWrite then s.csrIn.csrSelReg else s.csrIn.csrOpReg
        csrOpData := if s.csrDoWrite then s.csrWriteData i else s.csrIn.csrOpData }
    ivectorAddrR :=
      if s.csrIn.csrOpValid = true ∧ s.csrIn.csrOpReg = csrRegIvectorAddr then
        s.csrIn.csrOpData
      else s.ivectorAddrR
    ctxPcSwitchR :=
      if s.csrIn.csrOpValid = true ∧ s.csrIn.csrOpReg = csrRegCtxPcswitch then
        s.csrIn.csrOpData
      else s.ctxPcSwitchR }

/-! ## Effect of one edge -/

/-- Two states that hold the same instruction: the registers that acceptance
loads and that no other branch of the main process touches. -/
structure SameInstruction (s s' : Iexec) : Prop where
  opA : s'.opA = s.opA
  opB : s'.opB = s.opB
  aluOp : s'.aluOp = s.aluOp
  shiftBit : s'.shiftBit = s.shiftBit
  shiftDirLr : s'.shiftDirLr = s.shiftDirLr
  cmdResultMux : s'.cmdResultMux = s.cmdResultMux
  regfileWraddr : s'.regfileWraddr = s.regfileWraddr
  lsOp : s'.lsOp = s.lsOp
  lsLoadSign : s'.lsLoadSign = s.lsLoadSign
  intrNextpc : s'.intrNextpc = s.intrNextpc
  cxferMux : s'.cxferMux = s.cxferMux
  cxferPc : s'.cxferPc = s.cxferPc
  csrSelReg : s'.csrIn.csrSelReg = s.csrIn.csrSelReg
  csrSelOp : s'.csrIn.csrSelOp = s.csrIn.csrSelOp
  clkInstretR : s'.clkInstretR = s.clkInstretR
  intrTriggerSave : s'.intrTriggerSave = s.intrTriggerSave
  ctxPcSaveR : s'.ctxPcSaveR = s.ctxPcSaveR

/-- An edge that accepts nothing keeps the instruction in the stage. -/
theorem sameInstruction_step {s : Iexec} {i : IexecInput} (h : s.accepts i = false) :
    SameInstruction s (s.step V i) := by
  cases hst : s.state <;> simp only [step, mainProcess, hst, h]
  case running => constructor <;> rfl
  case ls1 => constructor <;> rfl
  case lsWait => split <;> [skip; split] <;> constructor <;> rfl
  case divWait => split <;> constructor <;> rfl
  case csrReadWait => split <;> constructor <;> rfl

/-- The transfer flags are lowered by every edge that accepts nothing. -/
theorem flags_step_of_not_accepts {s : Iexec} {i : IexecInput} (h : s.accepts i = false) :
    (s.step V i).brInst = false ∧ (s.step V i).triggerCxfer = false := by
  cases hst : s.state <;> simp only [step, mainProcess, hst, h]
  case running => exact ⟨rfl, rfl⟩
  case ls1 => exact ⟨rfl, rfl⟩
  case lsWait => split <;> [skip; split] <;> exact ⟨rfl, rfl⟩
  case divWait => split <;> exact ⟨rfl, rfl⟩
  case csrReadWait => split <;> exact ⟨rfl, rfl⟩

/-- States that hold the same instruction agree on the redirect target. -/
theorem SameInstruction.out_cxferPc {s s' : Iexec} (h : SameInstruction s s') :
    s'.out.cxferPc = s.out.cxferPc := by
  simp only [out, aluResult, h.opA, h.opB, h.aluOp, h.cxferMux, h.cxferPc]

/-- After an edge that accepts nothing no redirect is requested. -/
theorem out_cxfer_step_of_not_accepts {s : Iexec} {i : IexecInput}
    (h : s.accepts i = false) : (s.step V i).out.cxfer = false := by
  obtain ⟨hbr, htr⟩ := flags_step_of_not_accepts V h
  simp [out, hbr, htr]

/-- The stage is busy exactly outside {lit}`RUNNING`. -/
theorem busyR_step (s : Iexec) (i : IexecInput) :
    (s.step V i).busyR = ((s.step V i).state != .running) := by
  cases hst : s.state <;> simp only [step, mainProcess, hst]
  case running => split <;> simp [accept, edgeDefaults, hst]
  case ls1 => rfl
  case lsWait => split <;> [skip; split] <;> simp [edgeDefaults, hst]
  case divWait => split <;> simp [edgeDefaults, hst]
  case csrReadWait => split <;> simp [edgeDefaults, hst]

/-- An accepting edge starts from {lit}`RUNNING` with a valid instruction and no
redirect in progress. -/
theorem accepts_iff {s : Iexec} {i : IexecInput} :
    s.accepts i = true ↔
      s.state = .running ∧ i.iexecIn.valid = true ∧ s.out.cxfer = false := by
  simp [accepts, and_assoc]

/-- The main process on an accepting edge. -/
theorem mainProcess_of_accepts {s : Iexec} {i : IexecInput} (h : s.accepts i = true) :
    s.mainProcess V i = s.accept V i := by
  have hst := (accepts_iff.mp h).1
  simp [mainProcess, hst, h]

/-- The transfer flags raised by an accepted instruction. -/
theorem flags_step_of_accepts {s : Iexec} {i : IexecInput} (h : s.accepts i = true) :
    (s.step V i).brInst = decide (i.iexecIn.cmd = .branch) ∧
      (s.step V i).triggerCxfer =
        (i.iexecIn.triggerCxfer || isSwitch i.iexecIn || s.takesIntr i) := by
  simp only [step, mainProcess_of_accepts V h]
  exact ⟨rfl, rfl⟩

/-- The copy of the interrupt trigger follows the interrupts that are taken. -/
theorem intrTriggerSave_step (s : Iexec) (i : IexecInput) :
    (s.step V i).intrTriggerSave =
      if s.accepts i && s.takesIntr i then !s.intrTriggerSave else s.intrTriggerSave := by
  cases h : s.accepts i with
  | false => simpa using (sameInstruction_step V h).intrTriggerSave
  | true => simp [step, mainProcess_of_accepts V h, accept]

/-! ## Transitions of the waiting states -/

/-- Without an instruction the stage stays in {lit}`RUNNING`. -/
theorem state_step_of_not_accepts {s : Iexec} {i : IexecInput} (hst : s.state = .running)
    (h : s.accepts i = false) : (s.step V i).state = .running := by
  simp [step, mainProcess, edgeDefaults, hst, h]

/-- {lit}`LS_1` lasts one cycle. -/
theorem state_step_of_ls1 {s : Iexec} (hst : s.state = .ls1) (i : IexecInput) :
    (s.step V i).state = .lsWait := by
  simp [step, mainProcess, hst]

/-- {lit}`LS_WAIT` ends in {lit}`RUNNING`. -/
theorem state_step_of_lsWait {s : Iexec} (hst : s.state = .lsWait) (i : IexecInput) :
    (s.step V i).state = .running ∨ (s.step V i).state = .lsWait := by
  simp only [step, mainProcess, hst]
  split <;> [skip; split] <;> simp [edgeDefaults, hst]

/-- A division returns to {lit}`RUNNING` or counts down. -/
theorem state_step_of_divWait {s : Iexec} (hst : s.state = .divWait) (i : IexecInput) :
    (s.step V i).state = .running ∨
      ((s.step V i).state = .divWait ∧ (s.step V i).divCtr.toNat < s.divCtr.toNat) := by
  simp only [step, mainProcess, hst]
  split
  · simp
  · rename_i hne
    refine .inr ⟨hst, ?_⟩
    bv_omega

/-- A CSR access returns to {lit}`RUNNING` or uses up its wait cycle. -/
theorem state_step_of_csrReadWait {s : Iexec} (hst : s.state = .csrReadWait)
    (i : IexecInput) :
    (s.step V i).state = .running ∨
      ((s.step V i).state = .csrReadWait ∧
        (s.step V i).csrWaitCtr.toNat < s.csrWaitCtr.toNat) := by
  simp only [step, mainProcess, hst]
  split
  · rename_i hc
    exact .inr ⟨hst, by simp [hc]⟩
  · simp

end Iexec

end Sumeru
