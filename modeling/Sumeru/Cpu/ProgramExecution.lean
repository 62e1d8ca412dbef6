import Sumeru.Cpu.Hart
import Sumeru.Cache.Refinement

/-!
# Sumeru - The processor executes RV32IM programs

The pipeline with its data cache, under every timing of the two caches and of the memory
channel, computes what the sequential machine computes: after {lit}`n` accepted instructions
the operands of the next one, the memory behind the cache and the place where the program
goes on are those of the machine after {lit}`n` instructions.

Each accepted instruction is matched by one step of the machine, instruction class by
instruction class; the edges in between are those of {lit}`Hart`.  The runs of the
processor are then in step with the machine by induction on the edges, and with finite
stalls every instruction of the program is reached.

Main results:

- Theorem {lit}`DataUnit.InStep.accept`: an accepted instruction is a step of the machine.
- Theorem {lit}`Hart.follows_run`: every run is in step with the machine.
- Theorem {lit}`hart_executes_program`: the processor implements the machine.
-/

namespace Sumeru
open Rv32

/-! ## Accepted instructions -/

namespace DataUnit

variable {V : Megafunctions} {m m' : RvMachine} {s : DataUnit} {i : DataUnitInput} {d : Idecode}

/-- The state after an accepted instruction. -/
theorem state_accept (hacc : s.iexec.accepts (s.iexecInput i) = true) :
    (s.step V i).iexec.state = Iexec.acceptState i.iexecIn := by
  change (Iexec.mainProcess V s.iexec (s.iexecInput i)).state = _
  rw [Iexec.mainProcess_of_accepts V hacc]
  rfl

/-- The write port after an accepted instruction. -/
theorem regfileWren_accept (hacc : s.iexec.accepts (s.iexecInput i) = true) :
    (s.step V i).iexec.regfileWren = decide (i.iexecIn.cmd = .muldiv ∨ i.iexecIn.cmd = .alu ∨
      i.iexecIn.cmd = .shift ∨ i.iexecIn.cmd = .jalr) := by
  change (Iexec.mainProcess V s.iexec (s.iexecInput i)).regfileWren = _
  rw [Iexec.mainProcess_of_accepts V hacc]
  rfl

/-- The register file after an edge in {lit}`RUNNING`. -/
theorem InStep.regfile_step (h : s.InStep V m) (hst : s.iexec.state = .running)
    (i : DataUnitInput) : (s.step V i).iexec.regfile = m.regs := by
  funext r
  change s.iexec.nextRegfile V (s.iexecInput i) r = m.regs r
  rw [← Iexec.operand_eq_nextRegfile]
  exact h.operand hst i r

/-- The memory after an accepted instruction, which has not reached the cache yet. -/
theorem InStep.situation_accept (h : s.InStep V m)
    (hacc : s.iexec.accepts (s.iexecInput i) = true) : (s.step V i).Situation m.mem := by
  obtain ⟨mem, hsit, hmem⟩ := h.memory
  have hst := (Iexec.accepts_iff.mp hacc).1
  have hls : s.iexec.state ≠ .ls1 := by rw [hst]; decide
  have hnext := hsit.step V i
  rw [if_neg hls] at hmem hnext
  rwa [hmem]

/-- An instruction that needs one cycle. -/
theorem InStep.accept_running (h : s.InStep V m)
    (hacc : s.iexec.accepts (s.iexecInput i) = true)
    (hrun : (s.step V i).iexec.state = .running)
    (hregs : ∀ i', (s.step V i).iexec.nextRegfile V ((s.step V i).iexecInput i') = m'.regs)
    (hmem : m'.mem = m.mem) : (s.step V i).InStep V m' := by
  refine ⟨.settled hrun hregs, ⟨m.mem, h.situation_accept hacc, ?_⟩, Iexec.busyR_step V _ _⟩
  rw [if_neg (by rw [hrun]; decide), hmem]

/-- An instruction that writes its result at the next edge. -/
theorem InStep.accept_writes (h : s.InStep V m)
    (hacc : s.iexec.accepts (s.iexecInput i) = true)
    (hrun : (s.step V i).iexec.state = .running) {rd : BitVec 5} {v : BitVec 32}
    (hw : (s.step V i).iexec.Writes V rd v) (hregs : m'.regs = m.regs.write rd v)
    (hmem : m'.mem = m.mem) : (s.step V i).InStep V m' := by
  refine h.accept_running hacc hrun (fun i' => ?_) hmem
  rw [hw.nextRegfile_eq, h.regfile_step (Iexec.accepts_iff.mp hacc).1, hregs]

/-- An instruction without a result. -/
theorem InStep.accept_silent (h : s.InStep V m)
    (hacc : s.iexec.accepts (s.iexecInput i) = true)
    (hrun : (s.step V i).iexec.state = .running)
    (hwren : (s.step V i).iexec.regfileWren = false) (hregs : m'.regs = m.regs)
    (hmem : m'.mem = m.mem) : (s.step V i).InStep V m' := by
  refine h.accept_running hacc hrun (fun i' => ?_) hmem
  rw [Iexec.nextRegfile_of_not_wren hwren, h.regfile_step (Iexec.accepts_iff.mp hacc).1, hregs]

/-- An instruction enters the stage with its operands from the machine. -/
theorem InStep.tracks_accept (h : s.InStep V m)
    (hacc : s.iexec.accepts (s.iexecInput i) = true) :
    Iexec.Tracks V m.regs (some i.iexecIn) (s.step V i).iexec :=
  Iexec.tracks_accept hacc (h.regfile_step (Iexec.accepts_iff.mp hacc).1 i)

/-- Instructions of one cycle leave the stage in {lit}`RUNNING`. -/
theorem acceptState_of_immediate {x : IexecChannelIn} (h : x.cmd.immediate = true) :
    Iexec.acceptState x = .running := by
  unfold Iexec.acceptState
  cases hc : x.cmd <;> rw [hc] at h <;> first | rfl | cases h

/-! ### Instruction by instruction -/

section Classes

variable (h : s.InStep V m) (hwf : s.iexec.WellFormed)
  (hacc : s.iexec.accepts (s.iexecInput i) = true) (hin : i.iexecIn = d.iexecIn)

include h hacc hin

/-- An operation of the ALU or the shifter, or a JALR. -/
theorem InStep.accept_immediate (hcmd : (decodeCommand d.instR).cmd.immediate = true)
    {rd : BitVec 5} {v : BitVec 32} (hw : (s.step V i).iexec.Writes V rd v)
    (hregs : m'.regs = m.regs.write rd v) (hmem : m'.mem = m.mem) :
    (s.step V i).InStep V m' := by
  refine h.accept_writes hacc ?_ hw hregs hmem
  rw [state_accept hacc]
  apply acceptState_of_immediate
  rw [hin, (iexecIn_command d).1]
  exact hcmd

/-- A branch leaves registers and memory. -/
theorem InStep.accept_branch {c : BranchCond} {r1 r2 : BitVec 5} {off : BitVec 32}
    (henc : Encodes d.instR (.branch c r1 r2 off)) (hregs : m'.regs = m.regs)
    (hmem : m'.mem = m.mem) : (s.step V i).InStep V m' := by
  have hcmd : i.iexecIn.cmd = .branch := by
    rw [hin, (iexecIn_command d).1, decodeCommand, instOpcode_of henc.1]
    rfl
  refine h.accept_silent hacc ?_ ?_ hregs hmem
  · rw [state_accept hacc, Iexec.acceptState, hcmd]
  · rw [regfileWren_accept hacc, hcmd]
    rfl

/-- A load is handed to the cache with the address and the size of the specification. -/
theorem InStep.accept_load {k : LoadKind} {rd r1 : BitVec 5} {imm : BitVec 32}
    (henc : Encodes d.instR (.load k rd r1 imm))
    (hal : NaturallyAligned (m.regs r1 + imm) k.size)
    (hregs : m'.regs = m.regs.write rd (k.read m.mem (memAddr (m.regs r1 + imm))))
    (hmem : m'.mem = m.mem) : (s.step V i).InStep V m' := by
  have hrun := (Iexec.accepts_iff.mp hacc).1
  obtain ⟨hls, hmux, haddr, -, -⟩ := executes_load (V := V) henc hacc hin 0#32
  change (s.step V i).iexec.state = _ at hls
  obtain ⟨hop, h3, rfl, rfl, rfl⟩ := henc
  have ht := h.tracks_accept hacc
  have hx : Iexec.InStage m.regs d.iexecIn (s.step V i).iexec := by
    rw [← hin]
    exact Iexec.inStage_accept hacc (h.regfile_step hrun i)
  have hcmd : d.iexecIn.cmd = .load := by
    rw [(iexecIn_command d).1, decodeCommand, instOpcode_of hop]
    rfl
  have hsize : d.iexecIn.rs2 = 0b00#2 ++ k.funct3 := by
    change decodeRs2 _ = _
    rw [← h3, decodeRs2, instOpcode_of hop]
    rfl
  have hlsOp : (0b00#2 ++ k.funct3).extractLsb' 0 2 = k.funct3.extractLsb' 0 2 := by
    cases k <;> rfl
  have hsign : (0b00#2 ++ k.funct3).getLsbD 2 = k.funct3.getLsbD 2 := by
    cases k <;> rfl
  rw [h.operand hrun] at haddr
  have hmemOp : (s.step V i).iexec.memOp =
      ⟨false, memAddr (m.regs (Rv32.rs1 d.instR) + Rv32.immI d.instR), k.funct3.extractLsb' 0 2,
        !k.funct3.getLsbD 2, (s.step V i).iexec.storeData⟩ := by
    have haddr' : (s.step V i).iexec.aluResult =
        m.regs (Rv32.rs1 d.instR) + Rv32.immI d.instR := haddr
    have hmux' : (s.step V i).iexec.cmdResultMux = .load := hmux
    rw [Iexec.memOp, haddr', hmux', hx.lsOp hcmd, hx.lsLoadSign hcmd, hsize, hlsOp, hsign]
    rfl
  refine ⟨?_, ⟨m.mem, h.situation_accept hacc, ?_⟩, Iexec.busyR_step V _ _⟩
  · rw [hin] at ht
    refine .accesses (.inl hls) ht ?_ ?_
    · rw [hmemOp]
      exact aligned_load k hal _ _
    · rw [hmemOp, hregs, hmem, loadValue_eq_read, iexecIn_rd hop (by decide)]
      rfl
  · rw [if_pos hls, hmemOp, hmem]
    funext a
    simp [MemOp.apply]

include hwf

/-- A store is handed to the cache with its address, its size and its data. -/
theorem InStep.accept_store {k : StoreKind} {r1 r2 : BitVec 5} {imm : BitVec 32}
    (henc : Encodes d.instR (.store k r1 r2 imm))
    (hal : NaturallyAligned (m.regs r1 + imm) k.size) (hregs : m'.regs = m.regs)
    (hmem : m'.mem = k.write (memAddr (m.regs r1 + imm)) (m.regs r2) m.mem) :
    (s.step V i).InStep V m' := by
  have hrun := (Iexec.accepts_iff.mp hacc).1
  obtain ⟨hls, hmux, haddr, -⟩ := executes_store (V := V) henc hwf hacc hin
  change (s.step V i).iexec.state = _ at hls
  obtain ⟨hop, h3, rfl, rfl, rfl⟩ := henc
  have ht := h.tracks_accept hacc
  have hcmd : i.iexecIn.cmd = .store := by
    rw [hin, (iexecIn_command d).1, decodeCommand, instOpcode_of hop]
    rfl
  have hsize : i.iexecIn.rd = 0b00#2 ++ k.funct3 := by
    rw [hin]
    change decodeRd _ = _
    rw [← h3, decodeRd, instOpcode_of hop]
    rfl
  have hlsOp : (s.step V i).iexec.lsOp = k.funct3.extractLsb' 0 2 := by
    change (Iexec.mainProcess V s.iexec (s.iexecInput i)).lsOp = _
    rw [Iexec.mainProcess_of_accepts V hacc]
    change (if i.iexecIn.cmd = .store then i.iexecIn.rd.extractLsb' 0 2 else _) = _
    rw [if_pos hcmd, hsize]
    cases k <;> rfl
  have hdata : (s.step V i).iexec.storeData = m.regs (Rv32.rs2 d.instR) := by
    change (Iexec.step V s.iexec (s.iexecInput i)).storeData = _
    rw [Iexec.storeData_step hwf hacc]
    change s.iexec.operand V (s.iexecInput i) i.iexecIn.rs2 = _
    rw [h.operand hrun, hin, iexecIn_rs2 hop (by decide) (by decide)]
  rw [h.operand hrun] at haddr
  have hmemOp : (s.step V i).iexec.memOp =
      ⟨true, memAddr (m.regs (Rv32.rs1 d.instR) + Rv32.immS d.instR), k.funct3.extractLsb' 0 2,
        (s.step V i).iexec.lsLoadSign, m.regs (Rv32.rs2 d.instR)⟩ := by
    have haddr' : (s.step V i).iexec.aluResult =
        m.regs (Rv32.rs1 d.instR) + Rv32.immS d.instR := haddr
    have hmux' : (s.step V i).iexec.cmdResultMux = .store := hmux
    rw [Iexec.memOp, haddr', hmux', hlsOp, hdata]
    rfl
  refine ⟨?_, ⟨m.mem, h.situation_accept hacc, ?_⟩, Iexec.busyR_step V _ _⟩
  · refine .accesses (.inl hls) ht ?_ ?_
    · rw [hmemOp]
      exact aligned_store k hal _ _
    · rw [hmemOp, hregs]
      rfl
  · rw [if_pos hls, hmemOp, hmem, apply_eq_write]

omit hwf

/-- A product is written at the next edge. -/
theorem InStep.accept_mul (hV : V.Exact) {f : MulFn} (henc : EncodesM d.instR f.funct3)
    (hregs : m'.regs = m.regs.write (Rv32.rd d.instR)
      (f.eval (m.regs (Rv32.rs1 d.instR)) (m.regs (Rv32.rs2 d.instR))))
    (hmem : m'.mem = m.mem) : (s.step V i).InStep V m' := by
  have hrun := (Iexec.accepts_iff.mp hacc).1
  obtain ⟨hcmd, hop, huse, hrd, hrs1, hrs2⟩ := iexecIn_m henc
  have hdiv2 : (0#1 ++ f.funct3 : BitVec 4).getLsbD 2 = false := by cases f <;> rfl
  have hx : Iexec.InStage m.regs d.iexecIn (s.step V i).iexec := by
    rw [← hin]
    exact Iexec.inStage_accept hacc (h.regfile_step hrun i)
  have hndiv : isDiv d.iexecIn = false := by
    rw [isDiv, hcmd, hop, hdiv2]
    rfl
  refine h.accept_writes hacc ?_ ⟨?_, hx.regfileWraddr.trans hrd, fun i' => ?_⟩ hregs hmem
  · rw [state_accept hacc, hin, Iexec.acceptState, hcmd, hop]
    simp only [hdiv2]
    rfl
  · rw [regfileWren_accept hacc, hin, hcmd]
    rfl
  · rw [Iexec.rdWriteData, hx.cmdResultMux, hndiv, hcmd, hx.opA, hx.opB, hx.aluOp, hop,
      secondOperand, huse, hrs1, hrs2]
    exact mulResult_eq hV f _ _

/-- A quotient or remainder is on its way through the divider. -/
theorem InStep.accept_div (hV : V.Exact) {f : DivFn} (henc : EncodesM d.instR f.funct3)
    (hb : m.regs (Rv32.rs2 d.instR) ≠ 0#32)
    (hregs : m'.regs = m.regs.write (Rv32.rd d.instR)
      (f.eval (m.regs (Rv32.rs1 d.instR)) (m.regs (Rv32.rs2 d.instR))))
    (hmem : m'.mem = m.mem) : (s.step V i).InStep V m' := by
  obtain ⟨hcmd, hop, huse, hrd, hrs1, hrs2⟩ := iexecIn_m henc
  have hdiv2 : (0#1 ++ f.funct3 : BitVec 4).getLsbD 2 = true := by cases f <;> rfl
  have hstate : (s.step V i).iexec.state = .divWait := by
    rw [state_accept hacc, hin, Iexec.acceptState, hcmd, hop]
    simp only [hdiv2]
    rfl
  have ht := h.tracks_accept hacc
  rw [hin] at ht
  refine ⟨.divides hstate ht fun c hc => ?_, ⟨m.mem, h.situation_accept hacc, ?_⟩,
    Iexec.busyR_step V _ _⟩
  · have hres : result V m.regs c = some (f.eval (m.regs (Rv32.rs1 d.instR))
        (m.regs (Rv32.rs2 d.instR))) := by
      simp only [result, hc, hcmd, hop, hdiv2, if_true, secondOperand, huse, hrs1, hrs2,
        Bool.true_eq_false, if_false]
      rw [divResult_eq hV f _ hb]
    rw [execute_of_result hres, hc, hrd, hregs]
  · rw [if_neg (by rw [hstate]; decide), hmem]

/-- A FENCE is an addition to register zero. -/
theorem InStep.accept_fence (hop : Rv32.opcode d.instR = 0b0001111#7)
    (h3 : Rv32.funct3 d.instR = 0b000#3) (hrd : Rv32.rd d.instR = 0#5)
    (hregs : m'.regs = m.regs) (hmem : m'.mem = m.mem) : (s.step V i).InStep V m' := by
  have h3' : instFunct3 d.instR = 0b000#3 := h3
  have hcmd : decodeCommand d.instR = aluCommand .add false := by
    rw [decodeCommand, instOpcode_of hop, decodeCommandArith, instOpcode_of hop, h3']
    rfl
  have hw := writes_aluCommand (V := V) hacc hin hcmd
  have hz : d.iexecIn.rd = 0#5 := (iexecIn_rd hop (by decide)).trans hrd
  rw [hz] at hw
  refine h.accept_immediate hacc hin (by rw [hcmd]; rfl) hw ?_ hmem
  rw [RvMachine.write_to_zero, hregs]

end Classes

/-- An accepted instruction is a step of the machine on registers and memory. -/
theorem InStep.accept (hV : V.Exact) (h : s.InStep V m) (hwf : s.iexec.WellFormed)
    (hacc : s.iexec.accepts (s.iexecInput i) = true) (hin : i.iexecIn = d.iexecIn)
    {ins : Instruction} (henc : ins.EncodedBy d.instR)
    (hexec : { m with pc := d.pcR }.exec ins = some m') : (s.step V i).InStep V m' := by
  have hrun := (Iexec.accepts_iff.mp hacc).1
  have hops : ∀ r, s.iexec.operand V (s.iexecInput i) r = m.regs r := h.operand hrun i
  cases ins with
  | base ins =>
      simp only [RvMachine.exec, Option.ite_none_right_eq_some, Option.some.injEq] at hexec
      obtain ⟨hsup, rfl⟩ := hexec
      cases ins with
      | op f rd r1 r2 =>
          have hw := executes_op (V := V) henc hacc hin
          rw [hops, hops] at hw
          refine h.accept_immediate hacc hin ?_ hw rfl rfl
          rw [decodeCommand_op henc.1 henc.2.1 henc.2.2.1]
          exact aluCommand_immediate f true
      | opImm f rd r1 imm =>
          have hw := executes_opImm (V := V) henc hacc hin
          rw [hops] at hw
          refine h.accept_immediate hacc hin ?_ hw rfl rfl
          rw [decodeCommand_opImm henc.1 henc.2.1 henc.2.2.1 henc.2.2.2.1]
          exact aluCommand_immediate f false
      | lui rd imm =>
          obtain ⟨hop, rfl, rfl⟩ := henc
          have hw := writes_addZero (V := V) hop (.inr (.inl rfl)) hwf hacc hin
          rw [decodeImm, instOpcode_of hop] at hw
          refine h.accept_immediate hacc hin ?_ hw rfl rfl
          rw [decodeCommand, instOpcode_of hop]
          rfl
      | auipc rd imm =>
          obtain ⟨hop, rfl, rfl⟩ := henc
          have hw := writes_addZero (V := V) hop (.inr (.inr rfl)) hwf hacc hin
          rw [decodeImm, instOpcode_of hop] at hw
          refine h.accept_immediate hacc hin ?_ hw rfl rfl
          rw [decodeCommand, instOpcode_of hop]
          rfl
      | jal rd off =>
          obtain ⟨hop, rfl, -⟩ := henc
          have hw := writes_addZero (V := V) hop (.inl rfl) hwf hacc hin
          rw [decodeImm, instOpcode_of hop] at hw
          refine h.accept_immediate hacc hin ?_ hw rfl rfl
          rw [decodeCommand, instOpcode_of hop]
          rfl
      | jalr rd r1 imm =>
          have hw := executes_jalr (V := V) henc hacc hin
          refine h.accept_immediate hacc hin ?_ hw rfl rfl
          rw [decodeCommand, instOpcode_of henc.1]
          rfl
      | branch c r1 r2 off => exact h.accept_branch hacc hin henc rfl rfl
      | load k rd r1 imm => exact h.accept_load hacc hin henc hsup rfl rfl
      | store k r1 r2 imm => exact h.accept_store hwf hacc hin henc hsup rfl rfl
  | mul f rd r1 r2 =>
      obtain ⟨hm, rfl, rfl, rfl⟩ := henc
      obtain rfl := Option.some.inj hexec
      exact h.accept_mul hacc hin hV hm rfl rfl
  | div f rd r1 r2 =>
      obtain ⟨hm, rfl, rfl, rfl⟩ := henc
      simp only [RvMachine.exec, Option.ite_none_left_eq_some, Option.some.injEq] at hexec
      obtain ⟨hb, rfl⟩ := hexec
      exact h.accept_div hacc hin hV hm hb rfl rfl
  | fence =>
      obtain rfl := Option.some.inj hexec
      exact h.accept_fence hacc hin henc.1 henc.2.1 henc.2.2 rfl rfl

end DataUnit

/-! ## The place where the program goes on -/

/-- A supported JALR has an even target. -/
theorem Rv32.Instr.Supported.even {a : BitVec 32} {ins : Instr} (h : ins.Supported a) :
    ins.EvenJalr a := by
  cases ins <;> first | exact h | trivial

namespace Core

variable {V : Megafunctions} {imem : BitVec 32 → BitVec 32} {s : Core} {i : CoreInput}

/-- An accepted word of a class without control transfer goes on to the next word. -/
theorem acceptedNextPc_succ (hok : s.StagesOk) (hacc : s.accepts i = true)
    (hintr : s.iexec.takesIntr (s.iexecInput i) = false) {c : BitVec 7}
    (hop : Rv32.opcode s.idecode.instR = c)
    (hc : c.extractLsb' 2 5 ≠ opTypeJalr ∧ c.extractLsb' 2 5 ≠ opTypeB ∧
      c.extractLsb' 2 5 ≠ opTypeCsr ∧ c.extractLsb' 2 5 ≠ opTypeJal) :
    s.acceptedNextPc (s.step V imem i) = s.idecode.pcR + 4#32 := by
  have hopc := instOpcode_of hop
  obtain ⟨h1, h2, h3, h4⟩ := hc
  rw [acceptedNextPc_straight hok hacc hintr (by rwa [hopc]) (by rwa [hopc]) (by rwa [hopc]),
    successorPc, hopc, if_neg h4]

/-- After an accepted instruction the pipeline goes on where the machine does. -/
theorem acceptedNextPc_eq (hok : s.StagesOk) (hacc : s.accepts i = true)
    (hintr : s.iexec.takesIntr (s.iexecInput i) = false) {m m' : RvMachine}
    (hops : ∀ r, s.iexec.operand V (s.iexecInput i) r = m.regs r) {ins : Instruction}
    (henc : ins.EncodedBy s.idecode.instR)
    (hexec : { m with pc := s.idecode.pcR }.exec ins = some m') :
    s.acceptedNextPc (s.step V imem i) = m'.pc := by
  cases ins with
  | base ins =>
      simp only [RvMachine.exec, Option.ite_none_right_eq_some, Option.some.injEq] at hexec
      obtain ⟨hsup, rfl⟩ := hexec
      have heven := hsup.even
      rw [← hops] at heven
      rw [(acceptedNextPc_eq_iff hok hacc hintr henc).mpr heven, hops, hops]
  | mul f rd r1 r2 =>
      obtain rfl := Option.some.inj hexec
      exact acceptedNextPc_succ hok hacc hintr henc.1.1 (by decide)
  | div f rd r1 r2 =>
      simp only [RvMachine.exec, Option.ite_none_left_eq_some, Option.some.injEq] at hexec
      obtain ⟨-, rfl⟩ := hexec
      exact acceptedNextPc_succ hok hacc hintr henc.1.1 (by decide)
  | fence =>
      obtain rfl := Option.some.inj hexec
      exact acceptedNextPc_succ hok hacc hintr henc.1 (by decide)

end Core

/-- The next instruction of a program is determined. -/
theorem IsNext.unique {imem : BitVec 32 → BitVec 32} {pc q r : BitVec 32} (hq : IsNext imem pc q)
    (hr : IsNext imem pc r) : q = r := by
  cases hq.1.resume hr.1 hr.2 with
  | refl => rfl
  | fence hfence _ =>
      rw [hq.2] at hfence
      cases hfence

/-! ## Whole runs -/

namespace Hart

section Runs

variable (V : Megafunctions) (imem : BitVec 32 → BitVec 32) (mem : BitVec 24 → BitVec 16)
  (inp : ℕ → HartInput)

/-- The instructions accepted before edge {lit}`t`. -/
def accepted (t : ℕ) : List Accepted := acceptedBefore V imem (coreInputs V imem mem inp) t

/-- The execute stage accepts an instruction at edge {lit}`t`. -/
def acceptsAt (t : ℕ) : Bool :=
  (run V imem mem inp t).core.accepts ((run V imem mem inp t).coreInput (inp t))

/-- The machine {lit}`m` has executed the instructions accepted before edge {lit}`t`. -/
structure Follows (m : RvMachine) (t : ℕ) : Prop where
  pc : continuesAt 0#32 (accepted V imem mem inp t) = m.pc
  data : (run V imem mem inp t).data.InStep V m

variable {V imem mem inp}

/-- Cycles that accept nothing. -/
theorem accepted_succ_of_not (t : ℕ) (h : acceptsAt V imem mem inp t = false) :
    accepted V imem mem inp (t + 1) = accepted V imem mem inp t := by
  apply Clocked.log_succ_none
  rw [acceptedAt, ← core_run, if_neg]
  rw [Bool.not_eq_true]
  exact h

/-- The next accepted instruction. -/
theorem accepted_succ (t : ℕ) (h : acceptsAt V imem mem inp t = true) :
    ∃ a : Accepted, accepted V imem mem inp (t + 1) = accepted V imem mem inp t ++ [a] ∧
      a.nextPc = (run V imem mem inp t).core.acceptedNextPc
        ((run V imem mem inp t).core.step V imem ((run V imem mem inp t).coreInput (inp t))) := by
  have hacc : (Core.run V imem (coreInputs V imem mem inp) t).accepts
      (coreInputs V imem mem inp t) = true := by
    rw [← core_run]
    exact h
  have hev := show acceptedAt V imem (coreInputs V imem mem inp) t = some _ by
    simp only [acceptedAt, hacc]
    rfl
  refine ⟨_, Clocked.log_succ_some hev, ?_⟩
  rw [← core_step, ← run_succ, core_run, core_run]
  rfl

/-- The stages agree. -/
theorem stagesOk (t : ℕ) : (run V imem mem inp t).core.StagesOk := by
  rw [core_run]
  exact stagesOk_run V imem _ t

/-- The pipeline follows the program. -/
theorem flow (t : ℕ) :
    Core.Flow imem (continuesAt 0#32 (accepted V imem mem inp t)) (run V imem mem inp t).core := by
  rw [core_run]
  exact (accepted_in_programOrder V imem _ t).2

/-- Register 0 holds zero. -/
theorem wellFormed (t : ℕ) : (run V imem mem inp t).data.iexec.WellFormed := by
  have hrun : ∀ t, (run V imem mem inp t).data.iexec = Iexec.run V
      (fun u => (run V imem mem inp u).data.iexecInput (dataInputs V imem mem inp u)) t := by
    intro t
    induction t with
    | zero => rfl
    | succ t ih =>
        rw [Iexec.run, Clocked.run]
        change _ = Iexec.step V (Iexec.run V _ t) _
        rw [← ih]
        rfl
  rw [hrun]
  exact Iexec.wellFormed_run V _ t

/-- Without interrupt requests no interrupt is taken. -/
theorem takesIntr_eq_false (hintr : ∀ t, (inp t).intrOut.intrTrigger = false) (t : ℕ) :
    (run V imem mem inp t).core.iexec.takesIntr
      ((run V imem mem inp t).core.iexecInput ((run V imem mem inp t).coreInput (inp t))) =
      false := by
  have hsave : (run V imem mem inp t).core.iexec.intrTriggerSave = false := by
    rw [core_run]
    exact intrTriggerSave_run hintr t
  simp [Iexec.takesIntr, Core.iexecInput, coreInput, hintr t, hsave]

/-- At power-up the machine has executed nothing. -/
theorem follows_zero : Follows V imem mem inp (RvMachine.boot (byteAt mem)) 0 where
  pc := rfl
  data := by
    refine ⟨.settled rfl fun i => Iexec.nextRegfile_of_not_wren rfl _, ⟨byteAt mem, ?_, ?_⟩, rfl⟩
    · exact .calm (DataUnit.calm_init mem)
    · rfl

/-- An edge that accepts an instruction is a step of the machine. -/
theorem Follows.accept (hV : V.Exact) (hintr : ∀ t, (inp t).intrOut.intrTrigger = false) {t : ℕ}
    {m m' : RvMachine} (h : Follows V imem mem inp m t) (hacc : acceptsAt V imem mem inp t = true)
    (hnext : RvMachine.Next imem m m') : Follows V imem mem inp m' (t + 1) := by
  obtain ⟨q, ins, hq, henc, hexec⟩ := hnext
  obtain ⟨hpcR, hinst, -⟩ := (flow t).step_of_accepts (V := V) (stagesOk t) _ hacc
  rw [h.pc] at hpcR
  obtain rfl := hq.unique hpcR
  rw [← hinst] at henc
  have hrun := (Core.accepts_iff.mp hacc).1
  have hops := h.data.operand hrun ((run V imem mem inp t).dataInput (inp t))
  obtain ⟨a, hlog, ha⟩ := accepted_succ t hacc
  constructor
  · rw [hlog, continuesAt_concat, ha]
    exact Core.acceptedNextPc_eq (stagesOk t) hacc (takesIntr_eq_false hintr t) hops henc hexec
  · exact h.data.accept hV (wellFormed t) hacc rfl henc hexec

/-- Every run is in step with the machine. -/
theorem follows_run (hV : V.Exact) (hintr : ∀ t, (inp t).intrOut.intrTrigger = false) (t : ℕ) :
    ∀ m, RvMachine.After imem (.boot (byteAt mem)) (accepted V imem mem inp t).length m →
      Follows V imem mem inp m t := by
  induction t with
  | zero =>
      intro m hm
      have h0 : RvMachine.After imem (.boot (byteAt mem)) 0 m := hm
      cases h0
      exact follows_zero
  | succ t ih =>
      intro m hm
      cases hacc : acceptsAt V imem mem inp t with
      | false =>
          have hlog := accepted_succ_of_not t hacc
          rw [hlog] at hm
          obtain ⟨hpc, hdata⟩ := ih m hm
          exact ⟨by rw [hlog, hpc], hdata.step hacc⟩
      | true =>
          obtain ⟨a, hlog, -⟩ := accepted_succ t hacc
          rw [hlog, List.length_append, List.length_singleton] at hm
          obtain ⟨m₁, h₁, hnext⟩ := hm.next
          exact (ih m₁ h₁).accept hV hintr hacc hnext

/-! ## Progress -/

/-- Every stall is finite: lookups of the instruction cache hit in the end, flushes are
completed, and the memory channel answers. -/
structure Fair (inp : ℕ → HartInput) : Prop where
  hit : ∀ t, ∃ u, t ≤ u ∧ (inp u).icacheHit = true
  flush : ∀ t, ∃ u, t ≤ u ∧ (inp u).flushDone = true
  ready : ∀ t, ∃ u, t ≤ u ∧ (inp u).ready = true

/-- The data cache ends every wait. -/
theorem Fair.finiteStalls (h : Fair inp) :
    FiniteStalls V imem (coreInputs V imem mem inp) where
  hit := h.hit
  flush := h.flush
  loadStore := by
    intro t
    by_cases hst : (run V imem mem inp t).data.iexec.state = .lsWait
    · have hwait := hst
      rw [data_run] at hwait
      obtain ⟨u, htu, hu⟩ := DataUnit.eventually_done V h.ready t hwait
      refine ⟨u, htu, ?_⟩
      rw [← data_run] at hu
      rw [← core_run]
      change (run V imem mem inp u).data.iexec.state ≠ _
      rw [hu]
      decide
    · refine ⟨t, le_rfl, ?_⟩
      rw [← core_run]
      exact hst

/-- The stage returns to {lit}`RUNNING` before it accepts anything else. -/
theorem Fair.next_running (h : Fair inp) (t : ℕ) :
    ∃ u, t ≤ u ∧ (run V imem mem inp u).data.iexec.state = .running ∧
      accepted V imem mem inp u = accepted V imem mem inp t := by
  have hfin : FiniteStalls V imem (coreInputs V imem mem inp) := h.finiteStalls
  obtain ⟨u, htu, hu⟩ := eventually_running hfin t
  rw [← core_run] at hu
  induction hk : u - t generalizing t with
  | zero =>
      obtain rfl : u = t := by omega
      exact ⟨u, le_rfl, hu, rfl⟩
  | succ k ih =>
      by_cases hrun : (run V imem mem inp t).data.iexec.state = .running
      · exact ⟨t, le_rfl, hrun, rfl⟩
      · obtain ⟨v, htv, hv, hlog⟩ := ih (t + 1) (by omega) (by omega)
        refine ⟨v, by omega, hv, hlog.trans (accepted_succ_of_not t ?_)⟩
        exact Iexec.not_accepts_of_state hrun

/-- Every instruction of the program is reached. -/
theorem Fair.reaches (h : Fair inp) (hV : V.Exact)
    (hintr : ∀ t, (inp t).intrOut.intrTrigger = false) {n : ℕ} {m : RvMachine}
    (hm : RvMachine.After imem (.boot (byteAt mem)) n m) :
    ∃ t, (run V imem mem inp t).data.iexec.state = .running ∧
      (accepted V imem mem inp t).length = n := by
  induction hm with
  | zero => exact ⟨0, rfl, rfl⟩
  | @succ n m₁ m₂ hm hnext ih =>
      obtain ⟨t, -, hlen⟩ := ih
      obtain ⟨q, ins, hq, -, -⟩ := hnext
      rw [← hlen] at hm
      have hpc := (follows_run hV hintr t m₁ hm).pc
      rw [← hpc] at hq
      have hfin : FiniteStalls V imem (coreInputs V imem mem inp) := h.finiteStalls
      obtain ⟨u, a, -, hlog, hev, -⟩ := next_accepted hfin t hq
      obtain ⟨v, -, hrun, hv⟩ : ∃ v, u + 1 ≤ v ∧
          (run V imem mem inp v).data.iexec.state = .running ∧
          accepted V imem mem inp v = accepted V imem mem inp (u + 1) := h.next_running (u + 1)
      refine ⟨v, hrun, ?_⟩
      have hsucc : accepted V imem mem inp (u + 1) = accepted V imem mem inp u ++ [a] :=
        Clocked.log_succ_some hev
      have hsame : accepted V imem mem inp u = accepted V imem mem inp t := hlog
      rw [hv, hsucc, hsame, List.length_append, List.length_singleton, hlen]

end Runs

/-- What the processor shows of the machine between two instructions: the operands of the
next instruction are its registers, the cache over the memory holds its memory, and what is
accepted next is its next instruction. -/
structure Shows (V : Megafunctions) (imem : BitVec 32 → BitVec 32) (m : RvMachine) (s : Hart) :
    Prop where
  regs : ∀ i r, s.data.iexec.operand V (s.data.iexecInput i) r = m.regs r
  mem : ∀ a, s.data.view.value a = m.mem a
  pc : ∀ i, s.core.accepts i = true →
    IsNext imem m.pc s.idecode.pcR ∧ s.idecode.instR = imem s.idecode.pcR

end Hart

/-- A coherent cache shows the memory. -/
theorem Dcache.Coherent.value_eq {c : Dcache} {cells : BitVec 24 → BitVec 16} {m : ByteMem}
    (h : c.Coherent cells m) (a : BitVec 25) : (c.view cells).value a = m a := by
  by_cases hc : c.Cached a
  · rw [CachedMemory.value_of_cached (view_cachedByte_eq_some_iff.mpr ⟨hc, rfl⟩)]
    exact h.cached a hc
  · rw [CachedMemory.value_of_uncached (view_cachedByte_eq_none_iff.mpr hc)]
    exact h.memory a fun hx => absurd hx hc

/-- In {lit}`RUNNING` the processor shows the machine that it follows. -/
theorem Hart.Follows.shows {V : Megafunctions} {imem : BitVec 32 → BitVec 32}
    {mem : BitVec 24 → BitVec 16} {inp : ℕ → HartInput} {m : RvMachine} {t : ℕ}
    (h : Follows V imem mem inp m t) (hrun : (run V imem mem inp t).data.iexec.state = .running) :
    Shows V imem m (run V imem mem inp t) := by
  refine ⟨h.data.operand hrun, (h.data.coherent hrun).value_eq, fun i hacc => ?_⟩
  have hstep := (flow t).step_of_accepts (V := V) (stagesOk t) i hacc
  rw [h.pc] at hstep
  exact ⟨hstep.1, hstep.2.1⟩

open Hart

/-- The processor executes RV32IM programs.  Without interrupts, and for every timing of the
caches and of the memory channel: whenever the stage is in {lit}`RUNNING` after {lit}`n`
accepted instructions and the machine executes {lit}`n` instructions of the program, the
processor shows the machine; and if every stall is finite, it gets there. -/
theorem hart_executes_program (V : Megafunctions) (hV : V.Exact) (imem : BitVec 32 → BitVec 32)
    (mem : BitVec 24 → BitVec 16) (inp : ℕ → HartInput)
    (hintr : ∀ t, (inp t).intrOut.intrTrigger = false) :
    (∀ t m, (run V imem mem inp t).data.iexec.state = .running →
      RvMachine.After imem (.boot (byteAt mem)) (accepted V imem mem inp t).length m →
      Shows V imem m (run V imem mem inp t)) ∧
    (Fair inp → ∀ n m, RvMachine.After imem (.boot (byteAt mem)) n m →
      ∃ t, (run V imem mem inp t).data.iexec.state = .running ∧
        (accepted V imem mem inp t).length = n) :=
  ⟨fun t m hrun hm => (follows_run hV hintr t m hm).shows hrun,
    fun hfair _ _ hm => hfair.reaches hV hintr hm⟩

/-- A cycle without a stall. -/
def HartInput.prompt : HartInput where
  icacheHit := true
  flushDone := true
  csrBus := 0#32
  intrOut := ⟨false, 0#4⟩
  ready := true
  float := 0#16
  undefinedLanes := fun _ _ => ⟨false, 0#8⟩

/-- A memory full of {lit}`addi x1, x1, 5` brings register 1 to 10 with two instructions. -/
theorem hart_executes_program_addi :
    ∃ t, (accepted .documented (fun _ => 0x00508093#32) (fun _ => 0#16) (fun _ => .prompt) t).length
        = 2 ∧
      ∀ i, (run .documented (fun _ => 0x00508093#32) (fun _ => 0#16)
        (fun _ => .prompt) t).data.iexec.operand .documented
        ((run .documented (fun _ => 0x00508093#32) (fun _ => 0#16)
          (fun _ => .prompt) t).data.iexecInput i) 1#5 = 10#32 := by
  have henc : Encodes 0x00508093#32 (.opImm .add 1#5 1#5 5#32) :=
    ⟨rfl, rfl, by decide, (fun h => by cases h), rfl, rfl, by decide⟩
  have hnext : ∀ m : RvMachine, RvMachine.Next (fun _ => 0x00508093#32) m
      ⟨m.pc + 4#32, m.regs.write 1#5 (m.regs 1#5 + 5#32), m.mem⟩ := fun m =>
    ⟨m.pc, .base (.opImm .add 1#5 1#5 5#32),
      ⟨.refl _, show isFenceI 0x00508093#32 = false from rfl⟩, henc, rfl⟩
  have hzero : RvMachine.After (fun _ => 0x00508093#32) (.boot (byteAt fun _ => 0#16)) 0 _ := .zero
  have hafter := (hzero.succ (hnext _)).succ (hnext _)
  obtain ⟨hshows, hreach⟩ := hart_executes_program .documented documented_exact
    (fun _ => 0x00508093#32) (fun _ => 0#16) (fun _ => .prompt) (fun _ => rfl)
  obtain ⟨t, hrun, hlen⟩ := hreach ⟨fun t => ⟨t, le_rfl, rfl⟩, fun t => ⟨t, le_rfl, rfl⟩,
    fun t => ⟨t, le_rfl, rfl⟩⟩ 2 _ hafter
  refine ⟨t, hlen, fun i => ?_⟩
  rw [(hshows t _ hrun (by rw [hlen]; exact hafter)).regs]
  rfl

end Sumeru
