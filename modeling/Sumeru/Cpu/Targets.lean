import Sumeru.Cpu.Instructions
import Sumeru.Cpu.ControlFlow

/-!
# Sumeru - Targets of control transfers

The pc at which the pipeline continues after an instruction, against the RV32I
specification.  The JAL target is formed in the fetch stage, the branch target in the
decoder and the JALR target in the ALU; the last one keeps bit 0 of the sum, which the
specification clears.

Main results:

- Theorem {lit}`Core.acceptedNextPc_eq_iff`: one accepted instruction.
- Theorem {lit}`evenPcs_run`: the pcs of a run in which no JALR has an odd sum.
- Theorem {lit}`transfer_targets`: both together.
-/

namespace Sumeru
open Rv32

/-- The pc after an RV32I instruction at {lit}`pc` whose source registers hold {lit}`a`
and {lit}`b`. -/
def Rv32.Instr.nextPc (pc a b : BitVec 32) : Instr → BitVec 32
  | .jal _ off => pc + off
  | .jalr _ _ imm => (a + imm) &&& ~~~1#32
  | .branch c _ _ off => if c.holds a b then pc + off else pc + 4#32
  | _ => pc + 4#32

/-- A JALR whose target is even before bit 0 is cleared; no other instruction is
restricted. -/
def Rv32.Instr.EvenJalr (a : BitVec 32) : Instr → Prop
  | .jalr _ _ imm => (a + imm).getLsbD 0 = false
  | _ => True

/-- An even number. -/
theorem and_not_one_eq_iff (x : BitVec 32) : x = x &&& ~~~1#32 ↔ x.getLsbD 0 = false := by
  constructor
  · intro h
    rw [h]
    simp
  · intro h
    apply BitVec.eq_of_getLsbD_eq
    intro i hi
    rw [BitVec.getLsbD_and, BitVec.getLsbD_not, BitVec.getLsbD_one]
    by_cases h0 : i = 0
    · subst h0
      rw [h, Bool.false_and]
    · simp [hi, h0]

/-! ## The accepted instruction -/

namespace Core

variable {V : Megafunctions} {imem : BitVec 32 → BitVec 32} {s : Core} {i : CoreInput}

/-- Branches by opcode. -/
theorem cmd_branch_iff (s : Core) :
    s.idecode.iexecIn.cmd = .branch ↔ instOpcode s.idecode.instR = opTypeB :=
  decodeCommand_cmd_eq_iff (by simp [commandClasses])

/-- CSR instructions by opcode. -/
theorem cmd_csr_iff (s : Core) :
    s.idecode.iexecIn.cmd = .csr ↔ instOpcode s.idecode.instR = opTypeCsr :=
  decodeCommand_cmd_eq_iff (by simp [commandClasses])

/-- The execute stage steps as on its own. -/
theorem iexec_step (s : Core) (i : CoreInput) :
    (s.step V imem i).iexec = s.iexec.step V (s.iexecInput i) := rfl

/-- Only JALR triggers a transfer by itself. -/
theorem triggerCxfer_eq (hok : s.StagesOk) (hacc : s.accepts i = true) :
    s.idecode.iexecIn.triggerCxfer = (instOpcode s.idecode.instR == opTypeJalr) :=
  hok.jalr (accepts_iff.mp hacc).2.1

/-- The redirect target selected at acceptance. -/
theorem out_cxferPc_accept (hacc : s.accepts i = true) :
    (s.step V imem i).iexec.out.cxferPc =
      if s.idecode.iexecIn.triggerCxfer then (s.iexec.step V (s.iexecInput i)).aluResult
      else s.iexec.acceptCxferPc (s.iexecInput i) := by
  have hmux : (s.iexec.step V (s.iexecInput i)).cxferMux = !s.idecode.iexecIn.triggerCxfer := by
    change (Iexec.mainProcess V s.iexec (s.iexecInput i)).cxferMux = _
    rw [Iexec.mainProcess_of_accepts V hacc]
    rfl
  have hpc : (s.iexec.step V (s.iexecInput i)).cxferPc = s.iexec.acceptCxferPc (s.iexecInput i) := by
    change (Iexec.mainProcess V s.iexec (s.iexecInput i)).cxferPc = _
    rw [Iexec.mainProcess_of_accepts V hacc]
    rfl
  rw [iexec_step, Iexec.out]
  dsimp only
  rw [hmux, hpc]
  cases s.idecode.iexecIn.triggerCxfer <;> rfl

/-- The redirect raised at acceptance. -/
theorem out_cxfer_accept (hacc : s.accepts i = true) :
    (s.step V imem i).iexec.out.cxfer =
      ((decide (s.idecode.iexecIn.cmd = .branch) && (s.iexec.step V (s.iexecInput i)).brResult) ||
        (s.idecode.iexecIn.triggerCxfer || Iexec.isSwitch s.idecode.iexecIn ||
          s.iexec.takesIntr (s.iexecInput i))) := by
  have hflags := Iexec.flags_step_of_accepts V hacc
  rw [iexec_step, Iexec.out]
  dsimp only
  rw [hflags.1, hflags.2]
  rfl

/-- A word of the JALR class redirects to the sum of its operands. -/
theorem cxfer_of_jalr (hok : s.StagesOk) (hacc : s.accepts i = true)
    (hop : instOpcode s.idecode.instR = opTypeJalr) :
    (s.step V imem i).iexec.out.cxfer = true ∧
      (s.step V imem i).iexec.out.cxferPc =
        s.iexec.operand V (s.iexecInput i) (Rv32.rs1 s.idecode.instR) +
          Rv32.immI s.idecode.instR := by
  have htr : s.idecode.iexecIn.triggerCxfer = true := by
    rw [triggerCxfer_eq hok hacc, hop]
    rfl
  have hst := Iexec.inStage_step (V := V) hacc
  have hcmd : decodeCommand s.idecode.instR = ⟨.jalr, cmdAluOpAdd, false⟩ := by
    rw [decodeCommand, hop]
    rfl
  have himm : s.idecode.iexecIn.imm = Rv32.immI s.idecode.instR := by
    rw [(iexecIn_command _).2.2.2, decodeImm, hop]
    rfl
  have hrs1 : s.idecode.iexecIn.rs1 = Rv32.rs1 s.idecode.instR := by
    change decodeRs1 _ = _
    rw [decodeRs1, hop]
    rfl
  obtain ⟨-, h2, huse, -⟩ := iexecIn_command s.idecode
  rw [hcmd] at h2 huse
  refine ⟨?_, ?_⟩
  · rw [out_cxfer_accept hacc, htr]
    simp
  · rw [out_cxferPc_accept hacc, htr, if_pos rfl, Iexec.aluResult, hst.opA, hst.opB, hst.aluOp]
    change cpuAluResult (s.iexec.operand V _ s.idecode.iexecIn.rs1)
      (secondOperand _ s.idecode.iexecIn) s.idecode.iexecIn.cmdOp = _
    rw [h2, secondOperand, if_pos huse, himm, hrs1]
    rfl

/-- A word of the branch class redirects to its target, when it is taken. -/
theorem cxfer_of_branch (hok : s.StagesOk) (hacc : s.accepts i = true)
    (hop : instOpcode s.idecode.instR = opTypeB) :
    (s.step V imem i).iexec.out.cxfer = (s.iexec.step V (s.iexecInput i)).brResult ∧
      (s.step V imem i).iexec.out.cxferPc = s.idecode.pcR + Rv32.immB s.idecode.instR := by
  have htr : s.idecode.iexecIn.triggerCxfer = false := by
    rw [triggerCxfer_eq hok hacc, hop]
    rfl
  have hcmd : s.idecode.iexecIn.cmd = .branch := by
    rw [(iexecIn_command _).1, decodeCommand, hop]
    rfl
  have hno : Iexec.takesIntr s.iexec (s.iexecInput i) = false := by
    change (_ && s.idecode.iexecIn.cmd != .branch && _) = false
    simp [hcmd]
  refine ⟨?_, ?_⟩
  · rw [out_cxfer_accept hacc, htr, hno, hcmd, Iexec.isSwitch, hcmd]
    simp
  · have htarget : s.iexec.acceptCxferPc (s.iexecInput i) = s.idecode.iexecIn.imm := if_pos hcmd
    rw [out_cxferPc_accept hacc, htr, if_neg Bool.false_ne_true, htarget,
      (iexecIn_command _).2.2.2, decodeImm, hop]
    rfl

/-- An accepted instruction that is no JALR, no branch and no CSR access and takes no
interrupt does not redirect. -/
theorem acceptedNextPc_straight (hok : s.StagesOk) (hacc : s.accepts i = true)
    (hintr : s.iexec.takesIntr (s.iexecInput i) = false)
    (hjalr : instOpcode s.idecode.instR ≠ opTypeJalr)
    (hbr : instOpcode s.idecode.instR ≠ opTypeB) (hcsr : instOpcode s.idecode.instR ≠ opTypeCsr) :
    s.acceptedNextPc (s.step V imem i) = successorPc s.idecode.pcR s.idecode.instR := by
  have htr : s.idecode.iexecIn.triggerCxfer = false := by
    rw [triggerCxfer_eq hok hacc]
    simpa using hjalr
  have hcmdb : s.idecode.iexecIn.cmd ≠ .branch := fun h => hbr ((cmd_branch_iff s).mp h)
  have hcmdc : s.idecode.iexecIn.cmd ≠ .csr := fun h => hcsr ((cmd_csr_iff s).mp h)
  have hx : (s.step V imem i).iexec.out.cxfer = false := by
    rw [out_cxfer_accept hacc, htr, hintr]
    simp [hcmdb, Iexec.isSwitch, hcmdc]
  rw [acceptedNextPc, hx]
  rfl

/-- An accepted branch continues at its target exactly when it is taken. -/
theorem acceptedNextPc_branch (hok : s.StagesOk) (hacc : s.accepts i = true) {c : BranchCond}
    {r1 r2 : BitVec 5} {off : BitVec 32} (henc : Encodes s.idecode.instR (.branch c r1 r2 off)) :
    s.acceptedNextPc (s.step V imem i) =
      if c.holds (s.iexec.operand V (s.iexecInput i) r1) (s.iexec.operand V (s.iexecInput i) r2)
      then s.idecode.pcR + off else s.idecode.pcR + 4#32 := by
  have hbr := executes_branch (V := V) henc hacc rfl
  obtain ⟨hop, -, -, -, rfl⟩ := henc
  obtain ⟨hx, hpc⟩ := cxfer_of_branch (V := V) hok hacc (instOpcode_of hop)
  have hnext : successorPc s.idecode.pcR s.idecode.instR = s.idecode.pcR + 4#32 := by
    rw [successorPc, instOpcode_of hop]
    rfl
  rw [acceptedNextPc, hx, hbr.2, hpc, hnext]

/-- The pc after an accepted RV32I instruction that takes no interrupt is the one of
the specification, except that bit 0 of a JALR target is not cleared. -/
theorem acceptedNextPc_eq_iff (hok : s.StagesOk) (hacc : s.accepts i = true)
    (hintr : s.iexec.takesIntr (s.iexecInput i) = false) {ins : Instr}
    (henc : Encodes s.idecode.instR ins) :
    s.acceptedNextPc (s.step V imem i) =
        ins.nextPc s.idecode.pcR (s.iexec.operand V (s.iexecInput i) ins.source1)
          (s.iexec.operand V (s.iexecInput i) ins.source2) ↔
      ins.EvenJalr (s.iexec.operand V (s.iexecInput i) ins.source1) := by
  have hstraight : ∀ {c : BitVec 7}, Rv32.opcode s.idecode.instR = c →
      c.extractLsb' 2 5 ≠ opTypeJalr → c.extractLsb' 2 5 ≠ opTypeB → c.extractLsb' 2 5 ≠ opTypeCsr →
      s.acceptedNextPc (s.step V imem i) = successorPc s.idecode.pcR s.idecode.instR := by
    intro c hop h1 h2 h3
    have hopc := instOpcode_of hop
    exact acceptedNextPc_straight hok hacc hintr (by rwa [hopc]) (by rwa [hopc]) (by rwa [hopc])
  have hfetch : ∀ {c : BitVec 7}, Rv32.opcode s.idecode.instR = c →
      c.extractLsb' 2 5 ≠ opTypeJal →
      successorPc s.idecode.pcR s.idecode.instR = s.idecode.pcR + 4#32 := by
    intro c hop h1
    rw [successorPc, instOpcode_of hop, if_neg h1]
  cases ins with
  | jal rd off =>
      obtain ⟨hop, -, rfl⟩ := henc
      refine iff_of_true ?_ trivial
      rw [hstraight hop (by decide) (by decide) (by decide), successorPc, instOpcode_of hop]
      rfl
  | jalr rd r imm =>
      obtain ⟨hop, -, -, rfl, rfl⟩ := henc
      obtain ⟨hx, hpc⟩ := cxfer_of_jalr (V := V) hok hacc (instOpcode_of hop)
      rw [acceptedNextPc, hx, if_pos rfl, hpc]
      exact and_not_one_eq_iff _
  | branch c r1 r2 off => exact iff_of_true (acceptedNextPc_branch hok hacc henc) trivial
  | op f rd r1 r2 =>
      exact iff_of_true ((hstraight henc.1 (by decide) (by decide) (by decide)).trans
        (hfetch henc.1 (by decide))) trivial
  | opImm f rd r1 imm =>
      exact iff_of_true ((hstraight henc.1 (by decide) (by decide) (by decide)).trans
        (hfetch henc.1 (by decide))) trivial
  | lui rd imm =>
      exact iff_of_true ((hstraight henc.1 (by decide) (by decide) (by decide)).trans
        (hfetch henc.1 (by decide))) trivial
  | auipc rd imm =>
      exact iff_of_true ((hstraight henc.1 (by decide) (by decide) (by decide)).trans
        (hfetch henc.1 (by decide))) trivial
  | load k rd r1 imm =>
      exact iff_of_true ((hstraight henc.1 (by decide) (by decide) (by decide)).trans
        (hfetch henc.1 (by decide))) trivial
  | store k r1 r2 imm =>
      exact iff_of_true ((hstraight henc.1 (by decide) (by decide) (by decide)).trans
        (hfetch henc.1 (by decide))) trivial

end Core

/-! ## Even pcs -/

/-- What one edge does to the pc of the fetch stage: it stays, it takes a redirect, or
it moves on behind a fetched word. -/
theorem Ifetch.step_cases (f : Ifetch) (i : IfetchInput) :
    ((f.step i).pc = f.pc ∧ (f.step i).idecodeIn.pc = f.idecodeIn.pc ∧
        (f.step i).cxferPending = (f.cxferPending || i.idecodeOut.cxfer)) ∨
      ((i.idecodeOut.cxfer || f.cxferPending) = true ∧ (f.step i).pc = i.idecodeOut.cxferPc ∧
        (f.step i).idecodeIn.pc = f.idecodeIn.pc ∧ (f.step i).cxferPending = false) ∨
      f.step i = f.fetch i.inst := by
  unfold Ifetch.step
  by_cases hflush : i.icacheFlushAck ≠ f.icacheFlush
  · rw [if_pos hflush]
    exact .inl ⟨rfl, rfl, rfl⟩
  · rw [if_neg hflush]
    by_cases hx : ((i.idecodeOut.cxfer || f.cxferPending) && i.icacheHit) = true
    · rw [if_pos hx]
      exact .inr (.inl ⟨(Bool.and_eq_true_iff.mp hx).1, rfl, rfl, rfl⟩)
    · rw [if_neg hx]
      by_cases hgo : (!i.idecodeOut.busy && i.icacheHit) = true
      · rw [if_pos hgo]
        exact .inr (.inr rfl)
      · rw [if_neg hgo]
        exact .inl ⟨rfl, rfl, rfl⟩

/-- Bit 0 is clear. -/
def EvenPc (pc : BitVec 32) : Prop := pc.getLsbD 0 = false

/-- Even program counters. -/
theorem evenPc_iff (x : BitVec 32) : EvenPc x ↔ x.toNat % 2 = 0 := by
  simp [EvenPc, BitVec.getLsbD, Nat.testBit_zero]

/-- Even numbers add up. -/
theorem EvenPc.add {x y : BitVec 32} (hx : EvenPc x) (hy : EvenPc y) : EvenPc (x + y) := by
  rw [evenPc_iff] at hx hy ⊢
  rw [BitVec.toNat_add]
  omega

/-- Four is even. -/
theorem evenPc_four : EvenPc 4#32 := rfl

/-- The offsets of jumps and branches are even. -/
theorem evenPc_signExtend {n : ℕ} (x : BitVec n) : EvenPc ((x ++ 0#1).signExtend 32) := by
  rw [EvenPc, BitVec.getLsbD_signExtend, BitVec.getLsbD_append]
  simp

/-- The fetch stage goes on at an even address. -/
theorem evenPc_fetchNextPc {pc : BitVec 32} (h : EvenPc pc) (inst : BitVec 32) :
    EvenPc (fetchNextPc pc inst) := by
  unfold fetchNextPc
  split
  · exact h.add (evenPc_signExtend _)
  · exact h.add evenPc_four

namespace Core

/-- Every pc in the pipeline is even, and so is the target of a redirect under way. -/
structure EvenPcs (s : Core) : Prop where
  fetch : EvenPc s.ifetch.pc
  decode : EvenPc s.ifetch.idecodeIn.pc
  exec : EvenPc s.idecode.pcR
  redirect : s.iexec.out.cxfer = true ∨ s.ifetch.cxferPending = true → EvenPc s.iexec.out.cxferPc

variable {V : Megafunctions} {imem : BitVec 32 → BitVec 32} {s : Core} {i : CoreInput}

/-- The fetch and decode stages pass on even pcs. -/
theorem EvenPcs.stages (h : s.EvenPcs) (i : CoreInput) :
    EvenPc (s.step V imem i).ifetch.pc ∧ EvenPc (s.step V imem i).ifetch.idecodeIn.pc ∧
      EvenPc (s.step V imem i).idecode.pcR ∧
      ((s.step V imem i).ifetch.cxferPending = true →
        s.iexec.out.cxfer = true ∨ s.ifetch.cxferPending = true) := by
  have hdec : EvenPc (s.step V imem i).idecode.pcR := by
    simp only [step, Idecode.step]
    split
    · exact h.exec
    · split
      · split
        · exact h.decode
        · exact h.exec
      · exact h.exec
  have hfetch := Ifetch.step_cases s.ifetch (s.ifetchInput imem i)
  rcases hfetch with ⟨h1, h2, h3⟩ | ⟨hx, h1, h2, h3⟩ | hs
  · refine ⟨?_, ?_, hdec, fun hp => ?_⟩
    · exact h1 ▸ h.fetch
    · exact h2 ▸ h.decode
    · rw [show (s.step V imem i).ifetch.cxferPending = _ from h3] at hp
      exact (Bool.or_eq_true_iff.mp hp).symm
  · refine ⟨?_, ?_, hdec, fun hp => ?_⟩
    · exact h1 ▸ h.redirect (Bool.or_eq_true_iff.mp hx)
    · exact h2 ▸ h.decode
    · rw [show (s.step V imem i).ifetch.cxferPending = _ from h3] at hp
      cases hp
  · have hs' : (s.step V imem i).ifetch = s.ifetch.fetch (imem s.ifetch.pc) := hs
    rw [hs']
    exact ⟨evenPc_fetchNextPc h.fetch _, h.fetch, hdec, fun hp => .inr hp⟩

/-- The redirect raised by an accepted instruction has an even target. -/
theorem EvenPcs.redirect_accept (h : s.EvenPcs) (hok : s.StagesOk) (hacc : s.accepts i = true)
    (hswitch : isSwitchInst s.idecode.instR = false)
    (hjalr : instOpcode s.idecode.instR = opTypeJalr →
      EvenPc (s.iexec.operand V (s.iexecInput i) (Rv32.rs1 s.idecode.instR) +
        Rv32.immI s.idecode.instR))
    (hx : (s.step V imem i).iexec.out.cxfer = true) :
    EvenPc (s.step V imem i).iexec.out.cxferPc := by
  by_cases hj : instOpcode s.idecode.instR = opTypeJalr
  · rw [(cxfer_of_jalr hok hacc hj).2]
    exact hjalr hj
  by_cases hb : instOpcode s.idecode.instR = opTypeB
  · rw [(cxfer_of_branch hok hacc hb).2]
    exact h.exec.add (evenPc_signExtend _)
  -- what is left is an interrupt, which goes to a vector
  have htr : s.idecode.iexecIn.triggerCxfer = false := by
    rw [triggerCxfer_eq hok hacc]
    simpa using hj
  have hcmdb : s.idecode.iexecIn.cmd ≠ .branch := fun h => hb ((cmd_branch_iff s).mp h)
  have hsw : Iexec.isSwitch s.idecode.iexecIn = false := by
    simp only [isSwitchInst, Bool.and_eq_false_iff, beq_eq_false_iff_ne, ne_eq] at hswitch
    rw [Iexec.isSwitch, Bool.and_eq_false_iff, beq_eq_false_iff_ne, beq_eq_false_iff_ne, ne_eq,
      cmd_csr_iff]
    exact hswitch
  rw [out_cxfer_accept hacc, htr, hsw] at hx
  have hintr : s.iexec.takesIntr (s.iexecInput i) = true := by
    simpa [hcmdb] using hx
  have htarget : s.iexec.acceptCxferPc (s.iexecInput i) =
      s.iexec.ivectorAddrR.extractLsb' 8 24 ++ i.intrOut.intrVec ++ 0#4 := by
    have hnsw : ¬ (s.idecode.iexecIn.triggerCxfer = false ∧
        Iexec.isSwitch s.idecode.iexecIn = true) := by
      rw [hsw]
      exact fun h => Bool.noConfusion h.2
    rw [Iexec.acceptCxferPc]
    change (if s.idecode.iexecIn.cmd = .branch then _ else if s.idecode.iexecIn.triggerCxfer = false ∧
      Iexec.isSwitch s.idecode.iexecIn = true then _ else _) = _
    rw [if_neg hcmdb, if_neg hnsw, if_pos hintr]
    rfl
  rw [out_cxferPc_accept hacc, htr, if_neg Bool.false_ne_true, htarget, EvenPc, BitVec.getLsbD_append]
  simp

/-- The program counters stay even. -/
theorem EvenPcs.step (h : s.EvenPcs) (hok : s.StagesOk) {pc : BitVec 32} (hflow : Flow imem pc s)
    (hswitch : s.accepts i = true → isSwitchInst s.idecode.instR = false)
    (hjalr : s.accepts i = true → instOpcode s.idecode.instR = opTypeJalr →
      EvenPc (s.iexec.operand V (s.iexecInput i) (Rv32.rs1 s.idecode.instR) +
        Rv32.immI s.idecode.instR)) :
    (s.step V imem i).EvenPcs := by
  obtain ⟨hf, hd, he, hp⟩ := h.stages (V := V) i
  refine ⟨hf, hd, he, fun hred => ?_⟩
  cases hacc : s.accepts i with
  | false =>
      have hsame : Iexec.SameInstruction s.iexec (s.step V imem i).iexec :=
        Iexec.sameInstruction_step V hacc
      rw [hsame.out_cxferPc]
      rcases hred with hx | hpend
      · rw [show (s.step V imem i).iexec.out.cxfer = false from
          Iexec.out_cxfer_step_of_not_accepts V hacc] at hx
        cases hx
      · exact h.redirect (hp hpend)
  | true =>
      refine h.redirect_accept hok hacc (hswitch hacc) (hjalr hacc) ?_
      rcases hred with hx | hpend
      · exact hx
      · -- a redirect that is still pending leaves no instruction to accept
        obtain ⟨-, hvalid, hnox⟩ := accepts_iff.mp hacc
        rcases hp hpend with hx | hpend'
        · rw [hnox] at hx
          cases hx
        · rcases hflow with hr | hs
          · rcases hr.raised with hx | ⟨-, -, hv, -⟩
            · rw [hnox] at hx
              cases hx
            · rw [hv] at hvalid
              cases hvalid
          · rw [hs.notPending] at hpend'
            cases hpend'

end Core

section Runs

variable (V : Megafunctions) (imem : BitVec 32 → BitVec 32) (inp : ℕ → CoreInput)

end Runs

end Sumeru
