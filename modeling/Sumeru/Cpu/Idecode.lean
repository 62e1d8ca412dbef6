import Sumeru.Cpu.Types

/-!
# Sumeru - Instruction decode stage

The registers and the combinational decoder of {lit}`cpu_stage_idecode`.  Only
the instruction word, its pc, the valid bit and the JALR flag are registered; all
other fields of {lit}`iexec_in` are functions of the registered word.
-/

namespace Sumeru

/-- Registers of {lit}`cpu_stage_idecode`. -/
structure Idecode where
  pcR : BitVec 32
  instR : BitVec 32
  execValid : Bool
  triggerCxfer : Bool

/-- Power-up contents; {lit}`pc_r` and {lit}`inst_r` have no initial value in the
source and are not read before {lit}`exec_valid` is set. -/
def Idecode.init : Idecode where
  pcR := 0#32
  instR := 0#32
  execValid := false
  triggerCxfer := false

/-! ## Combinational decoder -/

def instFunct3 (inst : BitVec 32) : BitVec 3 := inst.extractLsb' 12 3
def instRs1 (inst : BitVec 32) : BitVec 5 := inst.extractLsb' 15 5
def instRs2 (inst : BitVec 32) : BitVec 5 := inst.extractLsb' 20 5
def instRd (inst : BitVec 32) : BitVec 5 := inst.extractLsb' 7 5

/-- Signal {lit}`iexec_in.rd`: stores carry their size code in it. -/
def decodeRd (inst : BitVec 32) : BitVec 5 :=
  if instOpcode inst = opTypeS then 0b00#2 ++ instFunct3 inst else instRd inst

/-- Signal {lit}`iexec_in.rs2`: loads carry their size code in it, CSR
instructions their source register. -/
def decodeRs2 (inst : BitVec 32) : BitVec 5 :=
  if instOpcode inst = opTypeL then 0b00#2 ++ instFunct3 inst
  else if instOpcode inst = opTypeCsr then instRs1 inst
  else instRs2 inst

/-- Signal {lit}`iexec_in.rs1`. -/
def decodeRs1 (inst : BitVec 32) : BitVec 5 :=
  if instOpcode inst = opTypeJal ∨ instOpcode inst = opTypeULui ∨
      instOpcode inst = opTypeUAuipc then 0#5
  else instRs1 inst

/-- The fields {lit}`cmd`, {lit}`cmd_op` and {lit}`cmd_use_reg`. -/
structure Command where
  cmd : Cmd
  cmdOp : BitVec 4
  cmdUseReg : Bool
deriving DecidableEq, Repr

/-- The last branch of the command decoder, {lit}`OP_TYPE_R | OP_TYPE_I` and every
opcode class that no other branch names. -/
def decodeCommandArith (inst : BitVec 32) : Command :=
  let useReg := (instOpcode inst).getLsbD 3
  let op3 : BitVec 4 := 0b0#1 ++ instFunct3 inst
  if (instFunct3 inst).extractLsb' 0 2 = 0b01#2 ∧ inst.getLsbD 25 = false then
    ⟨.shift, 0b00#2 ++ inst.extractLsb' 30 1 ++ (instFunct3 inst).extractLsb' 2 1, useReg⟩
  else if useReg then
    match inst.getLsbD 30, inst.getLsbD 25 with
    | true, false => ⟨.alu, cmdAluOpSub, useReg⟩
    | false, true => ⟨.muldiv, op3, useReg⟩
    | _, _ => ⟨.alu, op3, useReg⟩
  else ⟨.alu, op3, useReg⟩

/-- The process that selects {lit}`cmd`, {lit}`cmd_op` and {lit}`cmd_use_reg`. -/
def decodeCommand (inst : BitVec 32) : Command :=
  let opcode := instOpcode inst
  if opcode = opTypeB then ⟨.branch, 0b0#1 ++ instFunct3 inst, true⟩
  else if opcode = opTypeJal ∨ opcode = opTypeULui ∨ opcode = opTypeUAuipc then
    ⟨.alu, cmdAluOpAdd, false⟩
  else if opcode = opTypeJalr then ⟨.jalr, cmdAluOpAdd, false⟩
  else if opcode = opTypeL then ⟨.load, cmdAluOpAdd, false⟩
  else if opcode = opTypeS then ⟨.store, cmdAluOpAdd, false⟩
  else if opcode = opTypeCsr then
    ⟨.csr, 0b0#1 ++ instFunct3 inst, !(instFunct3 inst).getLsbD 2⟩
  else decodeCommandArith inst

/-- Signal {lit}`iexec_in.imm`. -/
def decodeImm (pc inst : BitVec 32) : BitVec 32 :=
  let opcode := instOpcode inst
  if opcode = opTypeB then
    pc + (inst.extractLsb' 31 1 ++ inst.extractLsb' 7 1 ++ inst.extractLsb' 25 6 ++
      inst.extractLsb' 8 4 ++ 0#1).signExtend 32
  else if opcode = opTypeJal then pc + 4#32
  else if opcode = opTypeULui then inst.extractLsb' 12 20 ++ 0#12
  else if opcode = opTypeUAuipc then pc + (inst.extractLsb' 12 20 ++ 0#12)
  else if opcode = opTypeR ∨ opcode = opTypeI ∨ opcode = opTypeJalr ∨ opcode = opTypeL then
    (inst.extractLsb' 20 12).signExtend 32
  else if opcode = opTypeS then
    (inst.extractLsb' 25 7 ++ inst.extractLsb' 7 5).signExtend 32
  else (inst.extractLsb' 15 5).setWidth 32

/-- Signal {lit}`iexec_in.intr_nextpc`: the link value, and the pc at which an
interrupt taken on the instruction returns; a JAL is executed again. -/
def decodeIntrNextpc (pc inst : BitVec 32) : BitVec 32 :=
  if instOpcode inst = opTypeJal then pc else pc + 4#32

/-- The record {lit}`iexec_in` driven by the decode registers. -/
def Idecode.iexecIn (s : Idecode) : IexecChannelIn where
  valid := s.execValid
  cmd := (decodeCommand s.instR).cmd
  cmdOp := (decodeCommand s.instR).cmdOp
  cmdUseReg := (decodeCommand s.instR).cmdUseReg
  triggerCxfer := s.triggerCxfer
  imm := decodeImm s.pcR s.instR
  rs1 := decodeRs1 s.instR
  rs2 := decodeRs2 s.instR
  rd := decodeRd s.instR
  csrReg := s.instR.extractLsb' 20 12
  intrNextpc := decodeIntrNextpc s.pcR s.instR

/-! ## Clocked process -/

/-- One rising edge of {lit}`clk`. -/
def Idecode.step (s : Idecode) (idecodeIn : IdecodeChannelIn) (iexecOut : IexecChannelOut) :
    Idecode :=
  if iexecOut.cxfer then
    { s with execValid := false }
  else if !iexecOut.busy then
    if idecodeIn.valid then
      { pcR := idecodeIn.pc
        instR := idecodeIn.inst
        execValid := true
        triggerCxfer := instOpcode idecodeIn.inst == opTypeJalr }
    else { s with execValid := false }
  else s

/-! ## Opcode classes that transfer control -/

/-- The commands that stem from one opcode class each, with that class. -/
def commandClasses : List (Cmd × BitVec 5) :=
  [(.branch, opTypeB), (.jalr, opTypeJalr), (.load, opTypeL), (.store, opTypeS),
    (.csr, opTypeCsr)]

/-- A command with a class of its own is decoded exactly from that class. -/
theorem decodeCommand_cmd_eq_iff {inst : BitVec 32} {c : Cmd} {op : BitVec 5}
    (h : (c, op) ∈ commandClasses) :
    (decodeCommand inst).cmd = c ↔ instOpcode inst = op := by
  have harith : (decodeCommandArith inst).cmd ≠ c := by
    have hc : c ≠ .shift ∧ c ≠ .alu ∧ c ≠ .muldiv := by
      simp only [commandClasses, List.mem_cons, Prod.mk.injEq, List.not_mem_nil, or_false] at h
      rcases h with ⟨rfl, -⟩ | ⟨rfl, -⟩ | ⟨rfl, -⟩ | ⟨rfl, -⟩ | ⟨rfl, -⟩ <;> simp
    unfold decodeCommandArith
    dsimp only
    repeat' split
    all_goals simp [hc.1.symm, hc.2.1.symm, hc.2.2.symm]
  unfold decodeCommand
  generalize decodeCommandArith inst = arith at harith ⊢
  generalize instOpcode inst = opcode
  simp only [commandClasses, List.mem_cons, Prod.mk.injEq, List.not_mem_nil, or_false] at h
  rcases h with ⟨rfl, rfl⟩ | ⟨rfl, rfl⟩ | ⟨rfl, rfl⟩ | ⟨rfl, rfl⟩ | ⟨rfl, rfl⟩
  all_goals
    constructor
    · intro h
      by_contra hne
      revert h
      dsimp only
      repeat' split
      all_goals simp_all
    · rintro rfl
      simp [opTypeB, opTypeJal, opTypeULui, opTypeUAuipc, opTypeJalr, opTypeL, opTypeS, opTypeCsr]

end Sumeru
