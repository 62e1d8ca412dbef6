import Mathlib.Tactic.IntervalCases
import Sumeru.Cpu.Shifter
import Sumeru.Cpu.Rv32
import Sumeru.Cpu.Idecode
import Sumeru.Cpu.Forwarding
import Sumeru.Cache.Requests

/-!
# Sumeru - The RV32I datapath

The decoder and the datapath of the execute stage against the RV32I specification:
for every encoding, every pc and every pair of register values the stage computes the
value, the branch decision, the address and the lanes that the specification asks for.

Main results:

- Theorem {lit}`result_of_aluCommand`: the command issued for an operation computes it.
- Theorems {lit}`Rv32.LoadKind.loadResult_eq` and {lit}`Rv32.StoreKind.stored_eq`: the lanes of
  aligned loads and stores.
- Theorem {lit}`rv32i_datapath`: decode followed by the datapath, for the whole
  instruction set.
-/

namespace Sumeru
open Rv32

/-! ## Fields of an instruction word -/

/-- The decoder looks at five bits of the opcode. -/
theorem instOpcode_eq (w : BitVec 32) : instOpcode w = (Rv32.opcode w).extractLsb' 2 5 := by
  ext i hi
  simp [instOpcode, Rv32.opcode, BitVec.getElem_extractLsb']

/-- The five bits of a known opcode. -/
theorem instOpcode_of {w : BitVec 32} {c : BitVec 7} (h : Rv32.opcode w = c) :
    instOpcode w = c.extractLsb' 2 5 := by
  rw [instOpcode_eq, h]

/-- The bits of {lit}`funct7`. -/
theorem getLsbD_funct7 (w : BitVec 32) {n : ℕ} (hn : n < 7) :
    w.getLsbD (25 + n) = (Rv32.funct7 w).getLsbD n := by
  simp [Rv32.funct7, hn]

/-- A field of one bit. -/
theorem extractLsb'_one (w : BitVec 32) (n : ℕ) : w.extractLsb' n 1 = BitVec.ofBool (w.getLsbD n) := by
  ext i hi
  have h0 : i = 0 := by omega
  simp [h0, BitVec.getElem_extractLsb']

/-! ## Arithmetic, logic and shifts -/

/-- The command that the decoder issues for an operation. -/
def aluCommand (f : AluFn) (useReg : Bool) : Command :=
  match f with
  | .sll => ⟨.shift, 0b0000#4, useReg⟩
  | .srl => ⟨.shift, 0b0001#4, useReg⟩
  | .sra => ⟨.shift, 0b0011#4, useReg⟩
  | .sub => ⟨.alu, cmdAluOpSub, useReg⟩
  | f => ⟨.alu, 0#1 ++ f.funct3, useReg⟩

/-- The decoder's choice of the second operand. -/
theorem aluCommand_useReg (f : AluFn) (u : Bool) : (aluCommand f u).cmdUseReg = u := by
  cases f <;> rfl

/-- The command of a register instruction. -/
theorem decodeCommand_op {w : BitVec 32} {f : AluFn} (hop : Rv32.opcode w = 0b0110011#7)
    (h3 : Rv32.funct3 w = f.funct3) (h7 : Rv32.funct7 w = f.funct7) :
    decodeCommand w = aluCommand f true := by
  have h25 := getLsbD_funct7 w (show 0 < 7 by decide)
  have h30 := getLsbD_funct7 w (show 5 < 7 by decide)
  have hf3 : instFunct3 w = f.funct3 := h3
  rw [h7] at h25 h30
  simp only [decodeCommand, instOpcode_of hop, decodeCommandArith, hf3, extractLsb'_one, h25, h30]
  clear h25 h30 hf3 h3 h7
  cases f <;> rfl

/-- The command of an immediate instruction. -/
theorem decodeCommand_opImm {w : BitVec 32} {f : AluFn} (hop : Rv32.opcode w = 0b0010011#7)
    (h3 : Rv32.funct3 w = f.funct3) (hsub : f ≠ .sub)
    (h7 : f.isShift = true → Rv32.funct7 w = f.funct7) :
    decodeCommand w = aluCommand f false := by
  have h25 := getLsbD_funct7 w (show 0 < 7 by decide)
  have h30 := getLsbD_funct7 w (show 5 < 7 by decide)
  have hf3 : instFunct3 w = f.funct3 := h3
  cases hs : f.isShift with
  | true =>
      rw [h7 hs] at h25 h30
      simp only [decodeCommand, instOpcode_of hop, decodeCommandArith, hf3, extractLsb'_one, h25, h30]
      clear h25 h30 hf3 h3 h7
      cases f <;> first | rfl | cases hs
  | false =>
      simp only [decodeCommand, instOpcode_of hop, decodeCommandArith, hf3]
      clear h25 h30 hf3 h3 h7
      cases f <;> first | rfl | exact absurd rfl hsub | cases hs

/-- The comparisons of the ALU. -/
theorem resultLt_eq (a b : BitVec 32) : resultLt a b = AluFn.eval a b .slt := by
  simp [resultLt, AluFn.eval, BitVec.slt]

/-- The unsigned comparison. -/
theorem resultLtu_eq (a b : BitVec 32) : resultLtu a b = AluFn.eval a b .sltu := by
  simp [resultLtu, AluFn.eval, BitVec.ult]

/-- The command of an operation computes it. -/
theorem result_of_aluCommand (V : Megafunctions) (regs : Regs) (c : Completed) {f : AluFn} {u : Bool}
    (hcmd : c.inst.cmd = (aluCommand f u).cmd) (hop : c.inst.cmdOp = (aluCommand f u).cmdOp) :
    result V regs c = some (f.eval (regs c.inst.rs1) (secondOperand regs c.inst)) := by
  simp only [result, hcmd, hop]
  generalize regs c.inst.rs1 = a
  generalize secondOperand regs c.inst = b
  cases f
  case sll => simp [aluCommand, cpuShift_sll, AluFn.eval]
  case srl => simp [aluCommand, cpuShift_srl, AluFn.eval]
  case sra => simp [aluCommand, cpuShift_sra, AluFn.eval]
  case slt => exact congrArg some (resultLt_eq a b)
  case sltu => exact congrArg some (resultLtu_eq a b)
  all_goals rfl

/-! ## The accepted instruction -/

/-- Facts about the registers of the execute stage that every run keeps. -/
structure Iexec.WellFormed (s : Iexec) : Prop where
  zero : s.regfile 0#5 = 0#32
  busy : s.busyR = (s.state != .running)

/-- Register 0 holds zero in every run. -/
theorem Iexec.wellFormed_run (V : Megafunctions) (inp : ℕ → IexecInput) (t : ℕ) :
    (Iexec.run V inp t).WellFormed := by
  induction t with
  | zero => exact ⟨rfl, rfl⟩
  | succ t ih =>
      refine ⟨?_, Iexec.busyR_step V _ _⟩
      change Iexec.nextRegfile V (Iexec.run V inp t) (inp t) 0#5 = 0#32
      rw [Iexec.nextRegfile, if_neg, ih.zero]
      rintro ⟨hw, h0⟩
      rw [Iexec.regfileWrenNz, ← h0] at hw
      simp at hw

/-- The stage writes {lit}`v` to register {lit}`rd` at the next edge. -/
structure Iexec.Writes (V : Megafunctions) (s : Iexec) (rd : BitVec 5) (v : BitVec 32) : Prop where
  wren : s.regfileWren = true
  wraddr : s.regfileWraddr = rd
  data : ∀ i, s.rdWriteData V i = v

/-- The commands that write their result one cycle after acceptance. -/
def Cmd.immediate : Cmd → Bool
  | .alu | .shift | .jalr => true
  | _ => false

section Accepted

variable {V : Megafunctions} {s : Iexec} {i : IexecInput}

/-- An accepted instruction is in the stage with the operands that were forwarded to it. -/
theorem Iexec.inStage_step (hacc : s.accepts i = true) :
    Iexec.InStage (s.operand V i) i.iexecIn (s.step V i) :=
  Iexec.inStage_accept hacc (funext fun r => (Iexec.operand_eq_nextRegfile i r).symm)

/-- Register 0 reads as zero. -/
theorem Iexec.operand_zero (h : s.WellFormed) (i : IexecInput) : s.operand V i 0#5 = 0#32 := by
  rw [operand, if_neg, h.zero]
  rintro ⟨h0, hw⟩
  rw [regfileWrenNz, ← h0] at hw
  simp at hw

/-- A result that needs neither the data cache nor the divider is written at once. -/
theorem Iexec.writes_step (hacc : s.accepts i = true) (hcmd : i.iexecIn.cmd.immediate = true)
    {v : BitVec 32} (hv : ∀ c : Completed, c.inst = i.iexecIn → result V (s.operand V i) c = some v) :
    Writes V (s.step V i) i.iexecIn.rd v := by
  have hin := inStage_step (V := V) hacc
  refine ⟨?_, hin.regfileWraddr, fun i' => ?_⟩
  · simp only [step, mainProcess_of_accepts V hacc, accept]
    cases hc : i.iexecIn.cmd <;> simp [Cmd.immediate, hc] at hcmd ⊢
  · refine hin.rdWriteData_eq i' (fun hdiv => ?_) (hv _ rfl)
    cases hc : i.iexecIn.cmd <;> simp [Cmd.immediate, isDiv, hc] at hcmd hdiv

/-- The result of the ALU while the instruction stays. -/
theorem Iexec.SameInstruction.aluResult {s' : Iexec} (h : SameInstruction s s') :
    s'.aluResult = s.aluResult := by
  rw [Iexec.aluResult, h.opA, h.opB, h.aluOp, Iexec.aluResult]

/-- The store data is the second operand. -/
theorem Iexec.storeData_step (h : s.WellFormed) (hacc : s.accepts i = true) :
    (s.step V i).storeData = s.operand V i i.iexecIn.rs2 := by
  obtain ⟨hrun, hvalid, -⟩ := accepts_iff.mp hacc
  have hbusy : s.busyR = false := by simp [h.busy, hrun]
  change s.nextStoreData V i = _
  rw [nextStoreData, if_pos ⟨hbusy, hvalid⟩]

end Accepted

/-! ## Loads and stores -/

/-- An access of {lit}`size` bytes is naturally aligned. -/
def NaturallyAligned (addr : BitVec 32) (size : ℕ) : Prop := addr.toNat % size = 0

/-- The low bits of an address. -/
theorem low_eq (addr : BitVec 32) : (addr.extractLsb' 0 2).toNat = addr.toNat % 4 := by
  simp [BitVec.extractLsb'_toNat]

/-- The low bits of an address, case by case. -/
theorem low_cases (addr : BitVec 32) (n : ℕ) (hn : addr.toNat % 4 = n) :
    addr.extractLsb' 0 2 = BitVec.ofNat 2 n := by
  apply BitVec.eq_of_toNat_eq
  rw [low_eq, BitVec.toNat_ofNat, ← hn]
  omega

/-- One sign extension serves both kinds of load. -/
theorem extension_eq {n : ℕ} (sign : Bool) (x : BitVec n) :
    (BitVec.ofBool (sign && x.msb) ++ x).signExtend 32 =
      if sign then x.signExtend 32 else x.setWidth 32 :=
  MemOp.signExtend_extension ⟨false, 0#25, 0#2, sign, 0#32⟩ x

/-- The load result of a byte. -/
theorem loadResult_byte (sign : Bool) (w : BitVec 32) {n : ℕ} (hn : n < 4) :
    loadResult (dcacheByteena 0b00#2 (BitVec.ofNat 2 n)) sign w =
      if sign then (Rv32.byte w n).signExtend 32 else (Rv32.byte w n).setWidth 32 := by
  rw [← extension_eq, BitVec.msb_eq_getLsbD_last, Rv32.byte, BitVec.getLsbD_extractLsb']
  interval_cases n <;> rfl

/-- The half-word that a load selects. -/
theorem loadResult_half (sign : Bool) (w : BitVec 32) {n : ℕ} (hn : n < 4) (heven : n % 2 = 0) :
    loadResult (dcacheByteena 0b01#2 (BitVec.ofNat 2 n)) sign w =
      if sign then (Rv32.byte w (n + 1) ++ Rv32.byte w n).signExtend 32
      else (Rv32.byte w (n + 1) ++ Rv32.byte w n).setWidth 32 := by
  have hhalf : Rv32.byte w (n + 1) ++ Rv32.byte w n = w.extractLsb' (8 * n) 16 := by
    rw [Rv32.byte, Rv32.byte, BitVec.extractLsb'_append_extractLsb'_eq_extractLsb' (by omega)]
  rw [← extension_eq, hhalf, BitVec.msb_eq_getLsbD_last, BitVec.getLsbD_extractLsb']
  interval_cases n <;> first | rfl | cases heven

/-- The value that a load returns. -/
theorem Rv32.LoadKind.loadResult_eq (k : LoadKind) {addr w : BitVec 32} (hal : NaturallyAligned addr k.size) :
    loadResult (dcacheByteena (k.funct3.extractLsb' 0 2) (addr.extractLsb' 0 2))
      (!k.funct3.getLsbD 2) w = k.value addr w := by
  have hlt : addr.toNat % 4 < 4 := Nat.mod_lt _ (by decide)
  rw [low_cases addr _ rfl]
  cases k
  case lb => exact loadResult_byte true w hlt
  case lbu => exact loadResult_byte false w hlt
  case lh =>
    have h2 : addr.toNat % 2 = 0 := hal
    exact loadResult_half true w hlt (by omega)
  case lhu =>
    have h2 : addr.toNat % 2 = 0 := hal
    exact loadResult_half false w hlt (by omega)
  case lw =>
    have h0 : addr.toNat % 4 = 0 := hal
    rw [h0]
    rfl

/-- The size of a store. -/
theorem Rv32.StoreKind.sizeOf_eq (k : StoreKind) : MemOp.sizeOf (k.funct3.extractLsb' 0 2) = k.size := by
  cases k <;> rfl

/-- An aligned store uses lanes that exist. -/
theorem Rv32.StoreKind.lowAligned (k : StoreKind) {addr : BitVec 32} (hal : NaturallyAligned addr k.size) :
    MemOp.lowAligned (k.funct3.extractLsb' 0 2) (addr.extractLsb' 0 2) = true := by
  rw [low_cases addr _ rfl]
  cases k
  case sb => rfl
  case sh =>
    have h2 : addr.toNat % 2 = 0 := hal
    have h4 : addr.toNat % 4 = 0 ∨ addr.toNat % 4 = 2 := by omega
    rcases h4 with h4 | h4 <;> rw [h4] <;> rfl
  case sw =>
    have h4 : addr.toNat % 4 = 0 := hal
    rw [h4]
    rfl

/-- A store replaces exactly the bytes it addresses. -/
theorem Rv32.StoreKind.stored_eq (k : StoreKind) {addr data : BitVec 32}
    (hal : NaturallyAligned addr k.size) (w : BitVec 32) (n : Fin 4) :
    (if (dcacheByteena (k.funct3.extractLsb' 0 2) (addr.extractLsb' 0 2)).getLsbD n.val = true then
      byteOf (dcacheWriteData (k.funct3.extractLsb' 0 2) data) n else byteOf w n) =
      k.stored addr data w n.val := by
  have hena := MemOp.dcacheByteena_table _ _ n (k.lowAligned hal)
  rw [low_eq, k.sizeOf_eq] at hena
  rw [hena, StoreKind.stored]
  by_cases hin : addr.toNat % 4 ≤ n.val ∧ n.val < addr.toNat % 4 + k.size
  · rw [if_pos (decide_eq_true hin), if_pos hin, MemOp.byteOf_dcacheWriteData, Rv32.byte]
    congr 2
    have hn := n.isLt
    cases k
    case sb =>
      simp only [StoreKind.size] at hin
      simp [StoreKind.funct3]
      omega
    case sh =>
      have h2 : addr.toNat % 2 = 0 := hal
      simp only [StoreKind.size] at hin
      simp [StoreKind.funct3]
      omega
    case sw =>
      have h4 : addr.toNat % 4 = 0 := hal
      simp [StoreKind.funct3, h4]
  · rw [if_neg (by simpa using hin), if_neg hin]
    rfl

/-! ## The instruction set -/

/-- The first source register. -/
def Rv32.Instr.source1 : Instr → BitVec 5
  | .op _ _ r _ | .opImm _ _ r _ | .jalr _ r _ | .branch _ r _ _ | .load _ _ r _ | .store _ r _ _ => r
  | .lui _ _ | .auipc _ _ | .jal _ _ => 0#5

/-- The second source register. -/
def Rv32.Instr.source2 : Instr → BitVec 5
  | .op _ _ _ r | .branch _ _ r _ | .store _ _ r _ => r
  | .opImm _ _ _ _ | .jalr _ _ _ | .load _ _ _ _ | .lui _ _ | .auipc _ _ | .jal _ _ => 0#5

/-- What the specification asks of the datapath for an instruction at {lit}`pc` whose
source registers hold {lit}`a` and {lit}`b`: the value written to {lit}`rd`, the branch
decision, or the address and the lanes of a memory access, which stay the same while the
stage holds the instruction. -/
def Iexec.Executes (V : Megafunctions) (s : Iexec) (pc a b : BitVec 32) : Instr → Prop
  | .op f rd _ _ => s.Writes V rd (f.eval a b)
  | .opImm f rd _ imm => s.Writes V rd (f.eval a imm)
  | .lui rd imm => s.Writes V rd imm
  | .auipc rd imm => s.Writes V rd (pc + imm)
  | .jal rd _ | .jalr rd _ _ => s.Writes V rd (pc + 4#32)
  | .branch c _ _ _ => s.brInst = true ∧ s.brResult = c.holds a b
  | .load k rd _ imm =>
      s.state = .ls1 ∧ s.cmdResultMux = .load ∧ s.aluResult = a + imm ∧ s.regfileWraddr = rd ∧
        (NaturallyAligned (a + imm) k.size → ∀ s', SameInstruction s s' →
          ∀ i, s'.rdWriteData V i = k.value (a + imm) i.dcacheReadData)
  | .store k _ _ imm =>
      s.state = .ls1 ∧ s.cmdResultMux = .store ∧ s.aluResult = a + imm ∧
        (NaturallyAligned (a + imm) k.size → ∀ s', SameInstruction s s' →
          s'.storeData = s.storeData → ∀ (w : BitVec 32) (n : Fin 4),
          (if s'.byteena.getLsbD n.val = true then byteOf s'.cacheData n else byteOf w n) =
            k.stored (a + imm) b w n.val)

section Executes

variable {V : Megafunctions} {s : Iexec} {i : IexecInput} {d : Idecode}

/-- The destination and source fields of a word in a class that does not overload them. -/
theorem iexecIn_rd {c : BitVec 7} (hop : Rv32.opcode d.instR = c)
    (hc : c.extractLsb' 2 5 ≠ opTypeS) : d.iexecIn.rd = Rv32.rd d.instR := by
  change decodeRd _ = _
  rw [decodeRd, instOpcode_of hop, if_neg hc]
  rfl

/-- The first source register. -/
theorem iexecIn_rs1 {c : BitVec 7} (hop : Rv32.opcode d.instR = c)
    (hc : ¬ (c.extractLsb' 2 5 = opTypeJal ∨ c.extractLsb' 2 5 = opTypeULui ∨
      c.extractLsb' 2 5 = opTypeUAuipc)) : d.iexecIn.rs1 = Rv32.rs1 d.instR := by
  change decodeRs1 _ = _
  rw [decodeRs1, instOpcode_of hop, if_neg hc]
  rfl

/-- No first source register. -/
theorem iexecIn_rs1_zero {c : BitVec 7} (hop : Rv32.opcode d.instR = c)
    (hc : c.extractLsb' 2 5 = opTypeJal ∨ c.extractLsb' 2 5 = opTypeULui ∨
      c.extractLsb' 2 5 = opTypeUAuipc) : d.iexecIn.rs1 = 0#5 := by
  change decodeRs1 _ = _
  rw [decodeRs1, instOpcode_of hop, if_pos hc]

/-- The second source register. -/
theorem iexecIn_rs2 {c : BitVec 7} (hop : Rv32.opcode d.instR = c)
    (hl : c.extractLsb' 2 5 ≠ opTypeL) (hcsr : c.extractLsb' 2 5 ≠ opTypeCsr) :
    d.iexecIn.rs2 = Rv32.rs2 d.instR := by
  change decodeRs2 _ = _
  rw [decodeRs2, instOpcode_of hop, if_neg hl, if_neg hcsr]
  rfl

/-- The command and the immediate are those of the opcode class. -/
theorem iexecIn_command (d : Idecode) :
    d.iexecIn.cmd = (decodeCommand d.instR).cmd ∧ d.iexecIn.cmdOp = (decodeCommand d.instR).cmdOp ∧
      d.iexecIn.cmdUseReg = (decodeCommand d.instR).cmdUseReg ∧
      d.iexecIn.imm = decodeImm d.pcR d.instR :=
  ⟨rfl, rfl, rfl, rfl⟩

/-- Register and immediate instructions take one cycle. -/
theorem aluCommand_immediate (f : AluFn) (u : Bool) : (aluCommand f u).cmd.immediate = true := by
  cases f <;> rfl

/-- An accepted operation writes its value. -/
theorem writes_aluCommand {f : AluFn} {u : Bool} (hacc : s.accepts i = true)
    (hin : i.iexecIn = d.iexecIn) (hcmd : decodeCommand d.instR = aluCommand f u) :
    (s.step V i).Writes V d.iexecIn.rd
      (f.eval (s.operand V i d.iexecIn.rs1) (secondOperand (s.operand V i) d.iexecIn)) := by
  obtain ⟨h1, h2, -, -⟩ := iexecIn_command d
  rw [hcmd] at h1 h2
  have himm : i.iexecIn.cmd.immediate = true := by
    rw [hin, h1]
    exact aluCommand_immediate f u
  have hw := Iexec.writes_step (V := V) hacc himm
    (v := f.eval (s.operand V i d.iexecIn.rs1) (secondOperand (s.operand V i) d.iexecIn)) (by
      intro c hc
      rw [result_of_aluCommand V _ c (f := f) (u := u) (by rw [hc, hin, h1]) (by rw [hc, hin, h2]),
        hc, hin])
  rwa [hin] at hw

/-- Register instructions. -/
theorem executes_op {f : AluFn} {rd r1 r2 : BitVec 5} (henc : Encodes d.instR (.op f rd r1 r2))
    (hacc : s.accepts i = true) (hin : i.iexecIn = d.iexecIn) :
    (s.step V i).Writes V rd (f.eval (s.operand V i r1) (s.operand V i r2)) := by
  obtain ⟨hop, h3, h7, rfl, rfl, rfl⟩ := henc
  have hcmd := decodeCommand_op hop h3 h7
  have hw := writes_aluCommand (V := V) hacc hin hcmd
  have huse : d.iexecIn.cmdUseReg = true := by
    rw [(iexecIn_command d).2.2.1, hcmd, aluCommand_useReg]
  rwa [secondOperand, huse, if_neg (by decide), iexecIn_rd hop (by decide), iexecIn_rs1 hop (by decide),
    iexecIn_rs2 hop (by decide) (by decide)] at hw

/-- Immediate instructions. -/
theorem executes_opImm {f : AluFn} {rd r1 : BitVec 5} {imm : BitVec 32}
    (henc : Encodes d.instR (.opImm f rd r1 imm)) (hacc : s.accepts i = true)
    (hin : i.iexecIn = d.iexecIn) :
    (s.step V i).Writes V rd (f.eval (s.operand V i r1) imm) := by
  obtain ⟨hop, h3, hsub, h7, rfl, rfl, rfl⟩ := henc
  have hcmd := decodeCommand_opImm hop h3 hsub h7
  have hw := writes_aluCommand (V := V) hacc hin hcmd
  have huse : d.iexecIn.cmdUseReg = false := by
    rw [(iexecIn_command d).2.2.1, hcmd, aluCommand_useReg]
  have himm : d.iexecIn.imm = Rv32.immI d.instR := by
    rw [(iexecIn_command d).2.2.2, decodeImm, instOpcode_of hop]
    rfl
  rwa [secondOperand, if_pos huse, himm, iexecIn_rd hop (by decide), iexecIn_rs1 hop (by decide)] at hw

/-- LUI, AUIPC and JAL add their immediate to register zero. -/
theorem writes_addZero {c : BitVec 7} (hop : Rv32.opcode d.instR = c)
    (hc : c.extractLsb' 2 5 = opTypeJal ∨ c.extractLsb' 2 5 = opTypeULui ∨
      c.extractLsb' 2 5 = opTypeUAuipc)
    (hs : s.WellFormed) (hacc : s.accepts i = true) (hin : i.iexecIn = d.iexecIn) :
    (s.step V i).Writes V (Rv32.rd d.instR) (decodeImm d.pcR d.instR) := by
  have hb : c.extractLsb' 2 5 ≠ opTypeB := by
    rcases hc with h | h | h <;> rw [h] <;> decide
  have hst : c.extractLsb' 2 5 ≠ opTypeS := by
    rcases hc with h | h | h <;> rw [h] <;> decide
  have hcmd : decodeCommand d.instR = aluCommand .add false := by
    rw [decodeCommand, instOpcode_of hop]
    simp only [if_neg hb, if_pos hc]
    rfl
  have hw := writes_aluCommand (V := V) hacc hin hcmd
  have huse : d.iexecIn.cmdUseReg = false := by
    rw [(iexecIn_command d).2.2.1, hcmd, aluCommand_useReg]
  rw [secondOperand, if_pos huse, (iexecIn_command d).2.2.2, iexecIn_rd hop hst,
    iexecIn_rs1_zero hop hc, Iexec.operand_zero hs, AluFn.eval, BitVec.zero_add] at hw
  exact hw

/-- JALR writes the address behind it. -/
theorem executes_jalr {rd r1 : BitVec 5} {imm : BitVec 32} (henc : Encodes d.instR (.jalr rd r1 imm))
    (hacc : s.accepts i = true) (hin : i.iexecIn = d.iexecIn) :
    (s.step V i).Writes V rd (d.pcR + 4#32) := by
  obtain ⟨hop, -, rfl, -, -⟩ := henc
  have hcmd : d.iexecIn.cmd = .jalr := by
    rw [(iexecIn_command d).1, decodeCommand, instOpcode_of hop]
    rfl
  have hlink : d.iexecIn.intrNextpc = d.pcR + 4#32 := by
    change decodeIntrNextpc _ _ = _
    rw [decodeIntrNextpc, instOpcode_of hop]
    rfl
  have hw := Iexec.writes_step (V := V) hacc (v := d.pcR + 4#32) (by rw [hin, hcmd]; rfl) (by
    intro c hc
    simp only [result, hc, hin, hcmd, hlink])
  rwa [hin, iexecIn_rd hop (by decide)] at hw

/-- The signed comparison in bit 0. -/
theorem getLsbD_resultLt (a b : BitVec 32) :
    (resultLt a b).getLsbD 0 = decide (a.toInt < b.toInt) := by
  rw [resultLt_eq, AluFn.eval]
  split <;> simp [*]

/-- The unsigned comparison in bit 0. -/
theorem getLsbD_resultLtu (a b : BitVec 32) :
    (resultLtu a b).getLsbD 0 = decide (a.toNat < b.toNat) := by
  rw [resultLtu_eq, AluFn.eval]
  split <;> simp [*]

/-- The branch output of the ALU decides the six conditions. -/
theorem cpuAluResultBr_eq (c : BranchCond) (a b : BitVec 32) :
    cpuAluResultBr a b (0#1 ++ c.funct3) = c.holds a b := by
  have hlt : (!decide (a.toInt < b.toInt)) = decide (b.toInt ≤ a.toInt) := by
    rw [← decide_not]
    exact decide_eq_decide.mpr Int.not_lt
  have hne : (!(a == b)) = decide (a ≠ b) := by
    rw [beq_eq_decide, ← decide_not]
  have hltu : (!decide (a.toNat < b.toNat)) = decide (b.toNat ≤ a.toNat) := by
    rw [← decide_not]
    exact decide_eq_decide.mpr Nat.not_lt
  unfold cpuAluResultBr
  rw [getLsbD_resultLt, getLsbD_resultLtu]
  cases c
  case beq => exact (Bool.xor_false _).trans (beq_eq_decide a b)
  case bne => exact (Bool.xor_true _).trans hne
  case blt => exact Bool.xor_false _
  case bge => exact (Bool.xor_true _).trans hlt
  case bltu => exact Bool.xor_false _
  case bgeu => exact (Bool.xor_true _).trans hltu

/-- Branches. -/
theorem executes_branch {c : BranchCond} {r1 r2 : BitVec 5} {off : BitVec 32}
    (henc : Encodes d.instR (.branch c r1 r2 off)) (hacc : s.accepts i = true)
    (hin : i.iexecIn = d.iexecIn) :
    (s.step V i).brInst = true ∧
      (s.step V i).brResult = c.holds (s.operand V i r1) (s.operand V i r2) := by
  obtain ⟨hop, h3, rfl, rfl, -⟩ := henc
  have hcmd : decodeCommand d.instR = ⟨.branch, 0#1 ++ c.funct3, true⟩ := by
    rw [← h3, decodeCommand, instOpcode_of hop]
    rfl
  obtain ⟨h1, h2, huse, -⟩ := iexecIn_command d
  rw [hcmd] at h1 h2 huse
  have hst := Iexec.inStage_step (V := V) hacc
  rw [hin] at hst
  refine ⟨?_, ?_⟩
  · rw [(Iexec.flags_step_of_accepts V hacc).1, hin, h1]
    rfl
  · rw [Iexec.brResult, hst.opA, hst.opB, hst.aluOp, h2, cpuAluResultBr_eq, secondOperand, huse,
      if_neg (by simp), iexecIn_rs1 hop (by decide), iexecIn_rs2 hop (by decide) (by decide)]

/-- The address of a load or store: register plus immediate. -/
theorem aluResult_address {cmd : Cmd} (hacc : s.accepts i = true) (hin : i.iexecIn = d.iexecIn)
    (hcmd : decodeCommand d.instR = ⟨cmd, cmdAluOpAdd, false⟩) :
    (s.step V i).aluResult = s.operand V i d.iexecIn.rs1 + d.iexecIn.imm := by
  obtain ⟨-, h2, huse, -⟩ := iexecIn_command d
  rw [hcmd] at h2 huse
  have hst := Iexec.inStage_step (V := V) hacc
  rw [hin] at hst
  rw [Iexec.aluResult, hst.opA, hst.opB, hst.aluOp, h2, secondOperand, if_pos huse]
  rfl

/-- Loads. -/
theorem executes_load {k : LoadKind} {rd r1 : BitVec 5} {imm : BitVec 32}
    (henc : Encodes d.instR (.load k rd r1 imm)) (hacc : s.accepts i = true)
    (hin : i.iexecIn = d.iexecIn) (b : BitVec 32) :
    (s.step V i).Executes V d.pcR (s.operand V i r1) b (.load k rd r1 imm) := by
  obtain ⟨hop, h3, rfl, rfl, rfl⟩ := henc
  have hcmd : decodeCommand d.instR = ⟨.load, cmdAluOpAdd, false⟩ := by
    rw [decodeCommand, instOpcode_of hop]
    rfl
  have hsize : d.iexecIn.rs2 = 0b00#2 ++ k.funct3 := by
    change decodeRs2 _ = _
    rw [← h3, decodeRs2, instOpcode_of hop]
    rfl
  have himm : d.iexecIn.imm = Rv32.immI d.instR := by
    rw [(iexecIn_command d).2.2.2, decodeImm, instOpcode_of hop]
    rfl
  obtain ⟨h1, -⟩ := iexecIn_command d
  rw [hcmd] at h1
  have hst := Iexec.inStage_step (V := V) hacc
  rw [hin] at hst
  have hmux : (s.step V i).cmdResultMux = .load := by
    rw [hst.cmdResultMux, isDiv, h1]
    rfl
  have haddr : (s.step V i).aluResult = s.operand V i (Rv32.rs1 d.instR) + Rv32.immI d.instR := by
    rw [aluResult_address hacc hin hcmd, himm, iexecIn_rs1 hop (by decide)]
  have hls1 : (s.step V i).state = .ls1 := by
    rw [Iexec.state_step_ls1_iff]
    exact ⟨hacc, .inl (by rw [hin, h1])⟩
  refine ⟨hls1, hmux, haddr, hst.regfileWraddr.trans (iexecIn_rd hop (by decide)), fun hal s' hsame i' => ?_⟩
  have hlsOp : (0b00#2 ++ k.funct3).extractLsb' 0 2 = k.funct3.extractLsb' 0 2 := by
    cases k <;> rfl
  have hsign : (0b00#2 ++ k.funct3).getLsbD 2 = k.funct3.getLsbD 2 := by
    cases k <;> rfl
  rw [Iexec.rdWriteData, hsame.cmdResultMux, hmux, Iexec.byteena, hsame.aluResult, haddr, hsame.lsOp,
    hsame.lsLoadSign, hst.lsOp h1, hst.lsLoadSign h1, hsize, hlsOp, hsign]
  exact k.loadResult_eq hal

/-- Stores. -/
theorem executes_store {k : StoreKind} {r1 r2 : BitVec 5} {imm : BitVec 32}
    (henc : Encodes d.instR (.store k r1 r2 imm)) (hs : s.WellFormed) (hacc : s.accepts i = true)
    (hin : i.iexecIn = d.iexecIn) :
    (s.step V i).Executes V d.pcR (s.operand V i r1) (s.operand V i r2) (.store k r1 r2 imm) := by
  obtain ⟨hop, h3, rfl, rfl, rfl⟩ := henc
  have hcmd : decodeCommand d.instR = ⟨.store, cmdAluOpAdd, false⟩ := by
    rw [decodeCommand, instOpcode_of hop]
    rfl
  have hsize : d.iexecIn.rd = 0b00#2 ++ k.funct3 := by
    change decodeRd _ = _
    rw [← h3, decodeRd, instOpcode_of hop]
    rfl
  have himm : d.iexecIn.imm = Rv32.immS d.instR := by
    rw [(iexecIn_command d).2.2.2, decodeImm, instOpcode_of hop]
    rfl
  obtain ⟨h1, -⟩ := iexecIn_command d
  rw [hcmd] at h1
  have hst := Iexec.inStage_step (V := V) hacc
  rw [hin] at hst
  have hmux : (s.step V i).cmdResultMux = .store := by
    rw [hst.cmdResultMux, isDiv, h1]
    rfl
  have haddr : (s.step V i).aluResult = s.operand V i (Rv32.rs1 d.instR) + Rv32.immS d.instR := by
    rw [aluResult_address hacc hin hcmd, himm, iexecIn_rs1 hop (by decide)]
  have hls1 : (s.step V i).state = .ls1 := by
    rw [Iexec.state_step_ls1_iff]
    exact ⟨hacc, .inr (by rw [hin, h1])⟩
  have hlsOp : (s.step V i).lsOp = k.funct3.extractLsb' 0 2 := by
    simp only [Iexec.step, Iexec.mainProcess_of_accepts V hacc, Iexec.accept, hin, h1, hsize]
    cases k <;> rfl
  have hdata : (s.step V i).storeData = s.operand V i (Rv32.rs2 d.instR) := by
    rw [Iexec.storeData_step hs hacc, hin, iexecIn_rs2 hop (by decide) (by decide)]
  refine ⟨hls1, hmux, haddr, fun hal s' hsame hsd w n => ?_⟩
  rw [Iexec.byteena, Iexec.cacheData, hsame.aluResult, haddr, hsame.lsOp, hlsOp, hsd, hdata]
  exact k.stored_eq hal w n

end Executes

/-- The RV32I datapath.  Whenever a well-formed execute stage accepts a decoded word that
encodes an RV32I instruction, it computes from the values of its source registers what
the specification asks for. -/
theorem rv32i_datapath (V : Megafunctions) (s : Iexec) (i : IexecInput) (d : Idecode) (ins : Instr)
    (henc : Encodes d.instR ins) (hs : s.WellFormed) (hacc : s.accepts i = true)
    (hin : i.iexecIn = d.iexecIn) :
    (s.step V i).Executes V d.pcR (s.operand V i ins.source1) (s.operand V i ins.source2) ins := by
  cases ins with
  | op f rd r1 r2 => exact executes_op henc hacc hin
  | opImm f rd r1 imm => exact executes_opImm henc hacc hin
  | lui rd imm =>
      obtain ⟨hop, rfl, rfl⟩ := henc
      have hw := writes_addZero (V := V) hop (.inr (.inl rfl)) hs hacc hin
      rwa [decodeImm, instOpcode_of hop] at hw
  | auipc rd imm =>
      obtain ⟨hop, rfl, rfl⟩ := henc
      have hw := writes_addZero (V := V) hop (.inr (.inr rfl)) hs hacc hin
      rwa [decodeImm, instOpcode_of hop] at hw
  | jal rd off =>
      obtain ⟨hop, rfl, -⟩ := henc
      have hw := writes_addZero (V := V) hop (.inl rfl) hs hacc hin
      rwa [decodeImm, instOpcode_of hop] at hw
  | jalr rd r1 imm => exact executes_jalr henc hacc hin
  | branch c r1 r2 off => exact executes_branch henc hacc hin
  | load k rd r1 imm => exact executes_load henc hacc hin _
  | store k r1 r2 imm => exact executes_store henc hs hacc hin

/-- The decode registers with the word for {lit}`addi x1, x0, 5` at address 64. -/
def addiDecoded : Idecode where
  pcR := 64#32
  instR := 0x00500093#32
  execValid := true
  triggerCxfer := false

/-- From power-up the instruction {lit}`addi x1, x0, 5` writes 5 to register 1. -/
theorem rv32i_datapath_addi :
    (Iexec.init.step .documented { addiInput with iexecIn := addiDecoded.iexecIn }).Writes
      .documented 1#5 5#32 :=
  rv32i_datapath .documented Iexec.init { addiInput with iexecIn := addiDecoded.iexecIn }
    addiDecoded (.opImm .add 1#5 0#5 5#32)
    ⟨rfl, rfl, by decide, (fun h => by cases h), rfl, rfl, by decide⟩ ⟨rfl, rfl⟩ rfl rfl

end Sumeru
