import Sumeru.Cpu.SystemMachine
import Sumeru.Cpu.ProgramExecution

/-!
# Sumeru - Accepted CSR instructions and interrupts

One accepted instruction against the sequential machine with CSR instructions and
interrupts.  A CSR access is the only instruction whose result is not known when it is
written: it is what the CSR bus shows three edges after the instruction was accepted.

Main results:

- Theorem {lit}`Iexec.step_settle`: an edge carries out the pending write.
- Theorems {lit}`Core.acceptedNextPc_interrupted`, {lit}`Core.acceptedNextPc_access` and
  {lit}`Core.acceptedNextPc_switch`: where the program goes on.
- Theorem {lit}`DataUnit.Reading.done`: the end of a CSR access.
-/

namespace Sumeru
open Rv32

/-! ## The pending write -/

namespace Iexec

variable (V : Megafunctions)

/-- The stage with its pending write carried out. -/
def settle (s : Iexec) (i : IexecInput) : Iexec :=
  { s with regfile := s.nextRegfile V i, regfileWren := false }

variable {V} {s : Iexec} {i : IexecInput}

/-- Settling does not change the operands. -/
theorem operand_settle (r : BitVec 5) : (s.settle V i).operand V i r = s.operand V i r := by
  rw [operand_eq_nextRegfile, nextRegfile_of_not_wren rfl, operand_eq_nextRegfile]
  rfl

/-- Settling changes the register file only. -/
theorem mainProcess_settle :
    (s.settle V i).mainProcess V i = { s.mainProcess V i with regfile := s.nextRegfile V i } := by
  have haccept : (s.settle V i).accept V i = { s.accept V i with regfile := s.nextRegfile V i } := by
    simp only [accept, operand_settle]
    rfl
  have haccepts : (s.settle V i).accepts i = s.accepts i := rfl
  have hst' : (s.settle V i).state = s.state := rfl
  cases hst : s.state
  all_goals
    rw [hst] at hst'
    simp only [mainProcess, hst, hst']
  case running =>
    rw [haccepts]
    cases s.accepts i
    · rfl
    · exact haccept
  case ls1 => rfl
  case lsWait =>
    by_cases hl : s.cmdResultMux = .load ∧ i.dcacheHit = true
    · rw [if_pos hl]
      exact if_pos hl
    · by_cases hw : s.cmdResultMux = .store ∧ i.dcacheWriteStrobe ≠ s.dcacheWriteStrobeSave
      · rw [if_neg hl, if_pos hw]
        exact (if_neg hl).trans (if_pos hw)
      · rw [if_neg hl, if_neg hw]
        exact (if_neg hl).trans (if_neg hw)
  case divWait =>
    by_cases hd : s.divCtr = 0#4
    · rw [if_pos hd]
      exact if_pos hd
    · rw [if_neg hd]
      exact if_neg hd
  case csrReadWait =>
    cases hc : s.csrWaitCtr
    · exact if_neg (by rw [show (s.settle V i).csrWaitCtr = _ from hc]; decide)
    · exact if_pos hc

/-- The edge does the same with the write carried out before. -/
theorem step_settle : (s.settle V i).step V i = s.step V i := by
  have hstore : (s.settle V i).nextStoreData V i = s.nextStoreData V i := by
    unfold nextStoreData
    rw [operand_settle]
    rfl
  unfold step
  rw [mainProcess_settle, hstore, nextRegfile_of_not_wren (s := s.settle V i) rfl]
  rfl

/-- Settling keeps zero in register 0. -/
theorem WellFormed.settle (h : s.WellFormed) : (s.settle V i).WellFormed := by
  refine ⟨?_, h.busy⟩
  change s.nextRegfile V i 0#5 = 0#32
  rw [nextRegfile, if_neg, h.zero]
  rintro ⟨hw, hz⟩
  rw [regfileWrenNz, ← hz] at hw
  simp at hw

/-- The saved pc changes with the interrupts that are taken. -/
theorem ctxPcSaveR_step (s : Iexec) (i : IexecInput) :
    (s.step V i).ctxPcSaveR =
      if s.accepts i && s.takesIntr i then i.iexecIn.intrNextpc else s.ctxPcSaveR := by
  cases h : s.accepts i with
  | false => simpa using (sameInstruction_step V h).ctxPcSaveR
  | true => simp [step, mainProcess_of_accepts V h, accept]

end Iexec

/-! ## Where the program goes on -/

/-- The fields of a CSR instruction. -/
theorem iexecIn_csr {d : Idecode} (hop : Rv32.opcode d.instR = 0b1110011#7) :
    d.iexecIn.cmd = .csr ∧ d.iexecIn.cmdOp = 0b0#1 ++ Rv32.funct3 d.instR ∧
      d.iexecIn.cmdUseReg = !(Rv32.funct3 d.instR).getLsbD 2 ∧
      d.iexecIn.csrReg = csrNumber d.instR ∧ d.iexecIn.rs2 = Rv32.rs1 d.instR ∧
      d.iexecIn.imm = (Rv32.rs1 d.instR).setWidth 32 := by
  have hcmd : decodeCommand d.instR =
      ⟨.csr, 0b0#1 ++ Rv32.funct3 d.instR, !(Rv32.funct3 d.instR).getLsbD 2⟩ := by
    rw [decodeCommand, instOpcode_of hop]
    rfl
  obtain ⟨h1, h2, h3, h4⟩ := iexecIn_command d
  rw [hcmd] at h1 h2 h3
  refine ⟨h1, h2, h3, rfl, ?_, ?_⟩
  · change decodeRs2 _ = _
    rw [decodeRs2, instOpcode_of hop]
    rfl
  · rw [h4, decodeImm, instOpcode_of hop]
    rfl

/-- The operation of a CSR instruction. -/
theorem cmdOp_low (f3 : BitVec 3) : (0b0#1 ++ f3 : BitVec 4).extractLsb' 0 2 = f3.extractLsb' 0 2 := by
  revert f3
  decide

/-- The words of the RV32IM instructions are no CSR accesses. -/
theorem Rv32.Instruction.EncodedBy.cmd_ne_csr {d : Idecode} {ins : Instruction}
    (h : ins.EncodedBy d.instR) : d.iexecIn.cmd ≠ .csr := by
  have hne : ∀ {c : BitVec 7}, Rv32.opcode d.instR = c → c.extractLsb' 2 5 ≠ opTypeCsr →
      d.iexecIn.cmd ≠ .csr := by
    intro c hop hc hcmd
    refine hc ?_
    rw [← instOpcode_of hop]
    exact (decodeCommand_cmd_eq_iff (by simp [commandClasses])).mp hcmd
  cases ins with
  | base ins => cases ins <;> exact hne h.1 (by decide)
  | mul => exact hne h.1.1 (by decide)
  | div => exact hne h.1.1 (by decide)
  | fence => exact hne h.1 (by decide)

/-- The instructions that need a second edge have wait states. -/
theorem Rv32.Instruction.EncodedBy.waits {d : Idecode} {ins : Instruction}
    (h : ins.EncodedBy d.instR) (hedges : ins.edges = 2) :
    Iexec.acceptState d.iexecIn ≠ .running := by
  have hls : d.iexecIn.cmd = .load ∨ d.iexecIn.cmd = .store →
      Iexec.acceptState d.iexecIn ≠ .running := by
    rintro (hcmd | hcmd) <;> simp [Iexec.acceptState, hcmd]
  cases ins with
  | base ins =>
      cases ins with
      | load =>
          refine hls (.inl ?_)
          rw [(iexecIn_command d).1, decodeCommand, instOpcode_of h.1]
          rfl
      | store =>
          refine hls (.inr ?_)
          rw [(iexecIn_command d).1, decodeCommand, instOpcode_of h.1]
          rfl
      | _ => cases hedges
  | mul => cases hedges
  | div f =>
      obtain ⟨hm, hop, -⟩ := iexecIn_m h.1
      have hdiv : (0#1 ++ f.funct3 : BitVec 4).getLsbD 2 = true := by cases f <;> rfl
      simp [Iexec.acceptState, hm, hop, hdiv]
  | fence => cases hedges

/-- An instruction retires in at most two edges. -/
theorem Rv32.Instruction.edges_le (ins : Instruction) : ins.edges ≤ 2 := by
  unfold Instruction.edges
  split <;> omega

namespace Core

variable {V : Megafunctions} {imem : BitVec 32 → BitVec 32} {s : Core} {i : CoreInput}

/-- What the stage knows when it takes an interrupt. -/
theorem takesIntr_cmd (h : s.iexec.takesIntr (s.iexecInput i) = true) :
    s.idecode.iexecIn.triggerCxfer = false ∧ s.idecode.iexecIn.cmd ≠ .csr ∧
      s.idecode.iexecIn.cmd ≠ .branch := by
  simp only [Iexec.takesIntr, Bool.and_eq_true, Bool.not_eq_true', bne_iff_ne] at h
  exact ⟨h.1.1.1, h.1.1.2, h.1.2⟩

/-- An interrupt goes to its vector. -/
theorem acceptedNextPc_interrupted (hacc : s.accepts i = true)
    (hintr : s.iexec.takesIntr (s.iexecInput i) = true) :
    s.acceptedNextPc (s.step V imem i) = vectorAddr s.iexec.ivectorAddrR i.intrOut.intrVec := by
  obtain ⟨htr, hcsr, hbr⟩ := takesIntr_cmd hintr
  have hsw : Iexec.isSwitch s.idecode.iexecIn = false := by simp [Iexec.isSwitch, hcsr]
  have hx : (s.step V imem i).iexec.out.cxfer = true := by
    rw [out_cxfer_accept hacc, hintr]
    simp
  have htarget : s.iexec.acceptCxferPc (s.iexecInput i) =
      vectorAddr s.iexec.ivectorAddrR i.intrOut.intrVec := by
    have hno : ¬(s.idecode.iexecIn.triggerCxfer = false ∧
        Iexec.isSwitch s.idecode.iexecIn = true) := by simp [hsw]
    exact (if_neg hbr).trans ((if_neg hno).trans (if_pos hintr))
  rw [acceptedNextPc, hx, if_pos rfl, out_cxferPc_accept hacc, htr, if_neg Bool.false_ne_true,
    htarget]

section Csr

variable (hok : s.StagesOk) (hacc : s.accepts i = true)
  (hop : Rv32.opcode s.idecode.instR = 0b1110011#7)

include hok hacc hop

/-- A CSR instruction neither jumps nor takes an interrupt. -/
theorem csr_flags : s.idecode.iexecIn.triggerCxfer = false ∧
    s.iexec.takesIntr (s.iexecInput i) = false := by
  refine ⟨?_, ?_⟩
  · rw [triggerCxfer_eq hok hacc, instOpcode_of hop]
    rfl
  · by_contra h
    exact (takesIntr_cmd (by simpa using h)).2.1 (iexecIn_csr hop).1

/-- A CSR access goes on to the next word. -/
theorem acceptedNextPc_access (hreg : csrNumber s.idecode.instR ≠ csrRegSwitch) :
    s.acceptedNextPc (s.step V imem i) = s.idecode.pcR + 4#32 := by
  obtain ⟨htr, hintr⟩ := csr_flags hok hacc hop
  obtain ⟨hcmd, -, -, hcsr, -⟩ := iexecIn_csr hop
  have hx : (s.step V imem i).iexec.out.cxfer = false := by
    rw [out_cxfer_accept hacc, htr, hintr, Iexec.isSwitch, hcsr]
    simp [hcmd, hreg]
  have hnext : successorPc s.idecode.pcR s.idecode.instR = s.idecode.pcR + 4#32 := by
    rw [successorPc, instOpcode_of hop]
    rfl
  rw [acceptedNextPc, hx, hnext]
  rfl

/-- SWITCH goes to the register as it is. -/
theorem acceptedNextPc_switch (hreg : csrNumber s.idecode.instR = csrRegSwitch) :
    s.acceptedNextPc (s.step V imem i) = s.iexec.ctxPcSwitchR := by
  obtain ⟨htr, -⟩ := csr_flags hok hacc hop
  obtain ⟨hcmd, -, -, hcsr, -⟩ := iexecIn_csr hop
  have hsw : Iexec.isSwitch s.idecode.iexecIn = true := by
    rw [Iexec.isSwitch, hcmd, hcsr, hreg]
    rfl
  have hx : (s.step V imem i).iexec.out.cxfer = true := by
    rw [out_cxfer_accept hacc, hsw]
    simp
  have hbr : s.idecode.iexecIn.cmd ≠ .branch := by
    rw [hcmd]
    decide
  have htarget : s.iexec.acceptCxferPc (s.iexecInput i) = s.iexec.ctxPcSwitchR :=
    (if_neg hbr).trans (if_pos ⟨htr, hsw⟩)
  rw [acceptedNextPc, hx, if_pos rfl, out_cxferPc_accept hacc, htr, if_neg Bool.false_ne_true,
    htarget]

end Csr

/-- An instruction on which an interrupt is taken is interruptible, and the saved pc is its
return pc. -/
theorem interrupted_returnPc (hok : s.StagesOk) (hacc : s.accepts i = true)
    (hintr : s.iexec.takesIntr (s.iexecInput i) = true) {ins : Instruction}
    (henc : ins.EncodedBy s.idecode.instR) :
    ins.Interruptible ∧ s.idecode.iexecIn.intrNextpc = ins.returnPc s.idecode.pcR := by
  obtain ⟨htr, -, hbr⟩ := takesIntr_cmd hintr
  have hstraight : ∀ {c : BitVec 7}, Rv32.opcode s.idecode.instR = c →
      c.extractLsb' 2 5 ≠ opTypeJal →
      s.idecode.iexecIn.intrNextpc = s.idecode.pcR + 4#32 := by
    intro c hop hc
    change decodeIntrNextpc _ _ = _
    rw [decodeIntrNextpc, instOpcode_of hop, if_neg hc]
  cases ins with
  | base ins =>
      cases ins with
      | jal rd off =>
          refine ⟨trivial, ?_⟩
          change decodeIntrNextpc _ _ = _
          rw [decodeIntrNextpc, instOpcode_of henc.1]
          rfl
      | jalr rd r1 imm =>
          rw [triggerCxfer_eq hok hacc, instOpcode_of henc.1] at htr
          cases htr
      | branch c r1 r2 off =>
          refine absurd ?_ hbr
          rw [(iexecIn_command _).1, decodeCommand, instOpcode_of henc.1]
          rfl
      | op => exact ⟨trivial, hstraight henc.1 (by decide)⟩
      | opImm => exact ⟨trivial, hstraight henc.1 (by decide)⟩
      | lui => exact ⟨trivial, hstraight henc.1 (by decide)⟩
      | auipc => exact ⟨trivial, hstraight henc.1 (by decide)⟩
      | load => exact ⟨trivial, hstraight henc.1 (by decide)⟩
      | store => exact ⟨trivial, hstraight henc.1 (by decide)⟩
  | mul => exact ⟨trivial, hstraight henc.1.1 (by decide)⟩
  | div => exact ⟨trivial, hstraight henc.1.1 (by decide)⟩
  | fence => exact ⟨trivial, hstraight henc.1 (by decide)⟩

end Core

/-! ## CSR accesses in the execute stage -/

namespace DataUnit

variable {V : Megafunctions} {m m' : RvMachine} {s : DataUnit} {i i' : DataUnitInput}

/-- The data unit with the pending write carried out. -/
def settle (V : Megafunctions) (s : DataUnit) (i : DataUnitInput) : DataUnit :=
  { s with iexec := s.iexec.settle V (s.iexecInput i) }

/-- A settled stage makes the same step. -/
theorem step_settle : (s.settle V i).step V i = s.step V i := by
  have hiexec : (s.settle V i).iexec.step V ((s.settle V i).iexecInput i) =
      s.iexec.step V (s.iexecInput i) := Iexec.step_settle
  unfold step clk
  rw [hiexec]
  rfl

/-- Settling keeps the unit calm. -/
theorem Calm.settle {mem : ByteMem} (h : s.Calm mem) : (s.settle V i).Calm mem :=
  ⟨h.state, h.cmd, h.busy, h.idle, h.start, h.strobe, h.answered, h.left, h.coherent⟩

/-- A stage that shows the register file of the machine is in step with it. -/
theorem inStep_settle (hst : s.iexec.state = .running) (hsit : s.Situation m.mem)
    (hbusy : s.iexec.busyR = (s.iexec.state != .running))
    (hregs : s.iexec.nextRegfile V (s.iexecInput i) = m.regs) : (s.settle V i).InStep V m where
  owes := .settled hst fun i' => (Iexec.nextRegfile_of_not_wren rfl _).trans hregs
  memory := by
    have hcalm := hsit.calm_of_not_waiting (by rw [hst]; decide)
    refine ⟨m.mem, .calm hcalm.settle, ?_⟩
    rw [if_neg]
    change s.iexec.state ≠ _
    rw [hst]
    decide
  busy := hbusy

/-- In {lit}`RUNNING` the pending write may be carried out. -/
theorem InStep.settle (h : s.InStep V m) (hst : s.iexec.state = .running) (i : DataUnitInput) :
    (s.settle V i).InStep V m := by
  obtain ⟨mem, hsit, hmem⟩ := h.memory
  rw [if_neg (by rw [hst]; decide)] at hmem
  refine inStep_settle hst (hmem ▸ hsit) h.busy (funext fun r => ?_)
  rw [← Iexec.operand_eq_nextRegfile, h.operand hst]

/-- Registers and memory do not depend on the pc. -/
theorem InStep.withPc (h : s.InStep V m) (pc : BitVec 32) : s.InStep V { m with pc := pc } where
  owes := by
    cases h.owes with
    | settled hst hfile => exact .settled hst hfile
    | divides hst ht hres => exact .divides hst ht hres
    | accesses hst ht hal hregs => exact .accesses hst ht hal hregs
  memory := h.memory
  busy := h.busy

/-- The stage reads a CSR; {lit}`v` is what it is going to find. -/
structure Reading (V : Megafunctions) (x : IexecChannelIn) (v : BitVec 32) (m : RvMachine)
    (s : DataUnit) : Prop where
  state : s.iexec.state = .csrReadWait
  memory : s.Situation m.mem
  regs : ∃ regs : Regs, Iexec.Tracks V regs (some x) s.iexec ∧ m.regs = regs.write x.rd v
  busy : s.iexec.busyR = (s.iexec.state != .running)

/-- A CSR access is accepted. -/
theorem InStep.access (h : s.InStep V m) (hacc : s.iexec.accepts (s.iexecInput i) = true)
    (hcsr : isCsrAccess i.iexecIn = true) {v : BitVec 32}
    (hregs : m'.regs = m.regs.write i.iexecIn.rd v) (hmem : m'.mem = m.mem) :
    (s.step V i).Reading V i.iexecIn v m' where
  state := (state_accept hacc).trans ((Iexec.acceptState_csr_iff _).mpr hcsr)
  memory := hmem ▸ h.situation_accept hacc
  regs := ⟨m.regs, h.tracks_accept hacc, hregs⟩
  busy := Iexec.busyR_step V _ _

section Reading

variable {x : IexecChannelIn} {v : BitVec 32} (h : s.Reading V x v m)

include h

/-- A read is not in {lit}`RUNNING`. -/
theorem Reading.not_running : s.iexec.state ≠ .running := by
  rw [h.state]
  decide

/-- A read does not touch the memory. -/
theorem Reading.situation_step (i : DataUnitInput) : (s.step V i).Situation m.mem := by
  have hsit := h.memory.step V i
  rwa [if_neg (by rw [h.state]; decide)] at hsit

/-- The access goes on. -/
theorem Reading.step (hst : (s.step V i).iexec.state = .csrReadWait) :
    (s.step V i).Reading V x v m := by
  obtain ⟨regs, ht, hregs⟩ := h.regs
  exact ⟨hst, h.situation_step i, ⟨regs, tracks_step_waiting h.not_running ht i, hregs⟩,
    Iexec.busyR_step V _ _⟩

/-- The access ends with the value on the CSR bus. -/
theorem Reading.done (hst : (s.step V i).iexec.state = .running)
    (hv : (s.step V i).iexec.csrSelResult ((s.step V i).iexecInput i') = v) :
    ((s.step V i).settle V i').InStep V m := by
  obtain ⟨regs, ht, hregs⟩ := h.regs
  have hcmd : x.cmd = .csr ∧ x.csrReg ≠ csrRegSwitch := by
    have hstate := h.state
    cases ht with
    | csr _ _ hcmd => exact hcmd
    | running hrun => rw [hrun] at hstate; cases hstate
    | loadStore hls => rcases hls with hls | hls <;> rw [hls] at hstate <;> cases hstate
    | div hdiv => rw [hdiv] at hstate; cases hstate
  have ht' := tracks_step_waiting h.not_running ht i
  refine inStep_settle hst (h.situation_step i) (Iexec.busyR_step V _ _) ?_
  rw [ht'.nextRegfile_eq hst]
  change execute V regs _ = m.regs
  rw [execute_of_result (v := v), hregs]
  · rfl
  · simp only [result, Iexec.complete, hcmd.1, hcmd.2, hv, if_false]

end Reading

end DataUnit

end Sumeru
