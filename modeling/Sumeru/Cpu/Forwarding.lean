import Sumeru.Cpu.Iexec
import Sumeru.Library.Clocked

/-!
# Sumeru - Operand forwarding and write-back

The execute stage overlaps the write-back of one instruction with the operand
fetch of the next and writes a quotient ten times before it is right.  This file
shows that none of it is visible: the operands latched at acceptance are the
register values of a machine that completes one instruction after the other.

The sequential machine is stated on its own: {lit}`execute` applies one
instruction to a register file, with the answers of the data cache and of the CSR
bus as arguments.  The instructions of a run complete in its {lit}`RUNNING`
cycles, each with the answers the stage sees in that cycle.

Main results:

- Theorem {lit}`Iexec.tracks_step`: one clock edge keeps the invariant that ties
  the stage to the sequential machine in each of its five states.
- Theorem {lit}`completed_eq_accepted`: when an instruction is accepted all
  earlier ones have completed, in order.
- Theorem {lit}`forwarded_operands`: the operands latched at acceptance are the
  architectural register values.
-/

namespace Sumeru

/-! ## The sequential machine -/

/-- The register file of the sequential machine. -/
abbrev Regs := BitVec 5 → BitVec 32

/-- A completed instruction with the word that the data cache shows and the value
on the CSR bus when it completes. -/
structure Completed where
  inst : IexecChannelIn
  readData : BitVec 32
  csrData : BitVec 32

/-- The second ALU operand of an instruction. -/
def secondOperand (regs : Regs) (x : IexecChannelIn) : BitVec 32 :=
  if x.cmdUseReg = false then x.imm else regs x.rs2

/-- A division or remainder. -/
def isDiv (x : IexecChannelIn) : Bool :=
  x.cmd == .muldiv && x.cmdOp.getLsbD 2

/-- The value an instruction gives to its destination register; branches, stores
and SWITCH have none. -/
def result (V : Megafunctions) (regs : Regs) (c : Completed) : Option (BitVec 32) :=
  let x := c.inst
  let a := regs x.rs1
  let b := secondOperand regs x
  match x.cmd with
  | .alu => some (cpuAluResult a b x.cmdOp)
  | .shift => some (cpuShift a (b.extractLsb' 0 5) (x.cmdOp.getLsbD 1) (x.cmdOp.getLsbD 0))
  | .jalr => some x.intrNextpc
  | .muldiv =>
      some (if x.cmdOp.getLsbD 2 then divResult V (divInputs a b x.cmdOp) x.cmdOp
        else mulResult V a b x.cmdOp)
  | .load =>
      some (loadResult
        (dcacheByteena (x.rs2.extractLsb' 0 2) ((cpuAluResult a b x.cmdOp).extractLsb' 0 2))
        (!x.rs2.getLsbD 2) c.readData)
  | .csr => if x.csrReg = csrRegSwitch then none else some c.csrData
  | .branch | .store => none

/-- One instruction of the sequential machine; register zero keeps its value. -/
def execute (V : Megafunctions) (regs : Regs) (c : Completed) : Regs :=
  fun r => if r = c.inst.rd ∧ r ≠ 0#5 then (result V regs c).getD (regs r) else regs r

/-- The instructions that have a result. -/
def writesRd (x : IexecChannelIn) : Bool :=
  match x.cmd with
  | .alu | .shift | .jalr | .muldiv | .load => true
  | .csr => x.csrReg != csrRegSwitch
  | .branch | .store => false

/-- Which instructions have a result. -/
theorem result_isSome (V : Megafunctions) (regs : Regs) (c : Completed) :
    (result V regs c).isSome = writesRd c.inst := by
  unfold result writesRd
  cases hcmd : c.inst.cmd <;> simp only [hcmd, Option.isSome_some, Option.isSome_none]
  by_cases hsw : c.inst.csrReg = csrRegSwitch <;> simp [hsw]

/-- A division does not depend on the data cache and the CSR bus. -/
theorem execute_of_isDiv (V : Megafunctions) (regs : Regs) {c c' : Completed}
    (hinst : c'.inst = c.inst) (hdiv : isDiv c.inst = true) :
    execute V regs c' = execute V regs c := by
  have hcmd : c.inst.cmd = .muldiv := by
    simp only [isDiv, Bool.and_eq_true, beq_iff_eq] at hdiv
    exact hdiv.1
  have hres : result V regs c' = result V regs c := by
    simp [result, hinst, hcmd]
  funext r
  rw [execute, execute, hinst, hres]

/-- Register 0 is never written. -/
theorem execute_zero (V : Megafunctions) (regs : Regs) (c : Completed) :
    execute V regs c 0#5 = regs 0#5 := by
  simp [execute]

/-- The sequential machine, started with a cleared register file. -/
def archRegs (V : Megafunctions) (l : List Completed) : Regs :=
  l.foldl (execute V) fun _ => 0#32

/-- One instruction more. -/
theorem archRegs_concat (V : Megafunctions) (l : List Completed) (c : Completed) :
    archRegs V (l ++ [c]) = execute V (archRegs V l) c := by
  simp [archRegs]

/-- Register zero reads as zero at every point of the sequential machine. -/
theorem archRegs_zero (V : Megafunctions) (l : List Completed) : archRegs V l 0#5 = 0#32 := by
  have hfold : ∀ regs : Regs, l.foldl (execute V) regs 0#5 = regs 0#5 := by
    induction l with
    | nil => exact fun _ => rfl
    | cons c l ih => exact fun regs => (ih _).trans (execute_zero V regs c)
  exact hfold _

/-! ## Completed instructions of a run -/

namespace Iexec

variable (V : Megafunctions)

/-- The execute stage before its {lit}`t`-th clock edge. -/
def run (inp : ℕ → IexecInput) (t : ℕ) : Iexec :=
  Clocked.run (step V) init inp t

/-- The instruction in the stage before the {lit}`t`-th edge: the last one
accepted, unless it has completed in a {lit}`RUNNING` cycle since. -/
def inFlight (inp : ℕ → IexecInput) : ℕ → Option IexecChannelIn
  | 0 => none
  | t + 1 =>
      if (run V inp t).accepts (inp t) then some (inp t).iexecIn
      else if (run V inp t).state = .running then none
      else inFlight inp t

/-- An instruction completed with the answers that the stage sees in one cycle. -/
def complete (s : Iexec) (i : IexecInput) (x : IexecChannelIn) : Completed where
  inst := x
  readData := i.dcacheReadData
  csrData := s.csrSelResult i

/-- What is completed is the instruction. -/
@[simp]
theorem complete_inst (s : Iexec) (i : IexecInput) (x : IexecChannelIn) :
    (s.complete i x).inst = x :=
  rfl

/-- The instruction that completes in the {lit}`t`-th cycle, if any. -/
def completedAt (inp : ℕ → IexecInput) (t : ℕ) : Option Completed :=
  if (run V inp t).state = .running then
    (inFlight V inp t).map ((run V inp t).complete (inp t))
  else none

/-- The instruction accepted at the {lit}`t`-th edge, if any. -/
def acceptedInst (inp : ℕ → IexecInput) (t : ℕ) : Option IexecChannelIn :=
  if (run V inp t).accepts (inp t) then some (inp t).iexecIn else none

/-! ## The invariant -/

/-- The registers that acceptance loads hold the instruction {lit}`x` with its
operands from {lit}`regs`. -/
structure InStage (regs : Regs) (x : IexecChannelIn) (s : Iexec) : Prop where
  opA : s.opA = regs x.rs1
  opB : s.opB = secondOperand regs x
  aluOp : s.aluOp = x.cmdOp
  shiftBit : s.shiftBit = x.cmdOp.getLsbD 1
  shiftDirLr : s.shiftDirLr = x.cmdOp.getLsbD 0
  cmdResultMux : s.cmdResultMux = if isDiv x then .store else x.cmd
  regfileWraddr : s.regfileWraddr = x.rd
  lsOp : x.cmd = .load → s.lsOp = x.rs2.extractLsb' 0 2
  lsLoadSign : x.cmd = .load → s.lsLoadSign = !x.rs2.getLsbD 2
  intrNextpc : s.intrNextpc = x.intrNextpc

variable {V} {regs : Regs} {x : IexecChannelIn} {s : Iexec}

/-- The instruction stays in the stage. -/
theorem InStage.of_same {s' : Iexec} (h : InStage regs x s) (hsame : SameInstruction s s') :
    InStage regs x s' where
  opA := hsame.opA.trans h.opA
  opB := hsame.opB.trans h.opB
  aluOp := hsame.aluOp.trans h.aluOp
  shiftBit := hsame.shiftBit.trans h.shiftBit
  shiftDirLr := hsame.shiftDirLr.trans h.shiftDirLr
  cmdResultMux := hsame.cmdResultMux.trans h.cmdResultMux
  regfileWraddr := hsame.regfileWraddr.trans h.regfileWraddr
  lsOp := fun hl => hsame.lsOp.trans (h.lsOp hl)
  lsLoadSign := fun hl => hsame.lsLoadSign.trans (h.lsLoadSign hl)
  intrNextpc := hsame.intrNextpc.trans h.intrNextpc

/-- The result multiplexer shows the architectural result, for a division once
the operands have travelled through the divider. -/
theorem InStage.rdWriteData_eq (h : InStage regs x s) (i : IexecInput)
    (hdiv : isDiv x = true → s.divLine 7 = divInputs s.opA s.opB s.aluOp) {v : BitVec 32}
    (hv : result V regs (s.complete i x) = some v) : s.rdWriteData V i = v := by
  have hmux := h.cmdResultMux
  change result V regs ⟨x, i.dcacheReadData, s.csrSelResult i⟩ = some v at hv
  simp only [result] at hv
  cases hcmd : x.cmd <;> simp only [hcmd] at hv
  case alu =>
    simp only [isDiv, hcmd] at hmux
    simpa [rdWriteData, hmux, aluResult, h.opA, h.opB, h.aluOp] using hv
  case shift =>
    simp only [isDiv, hcmd] at hmux
    simpa [rdWriteData, hmux, h.opA, h.opB, h.shiftBit, h.shiftDirLr] using hv
  case branch => cases hv
  case csr =>
    simp only [isDiv, hcmd] at hmux
    by_cases hsw : x.csrReg = csrRegSwitch
    · simp [hsw] at hv
    · simpa [rdWriteData, hmux, hsw] using hv
  case jalr =>
    simp only [isDiv, hcmd] at hmux
    simpa [rdWriteData, hmux, h.intrNextpc] using hv
  case load =>
    simp only [isDiv, hcmd] at hmux
    simpa [rdWriteData, hmux, byteena, aluResult, h.opA, h.opB, h.aluOp, h.lsOp hcmd,
      h.lsLoadSign hcmd] using hv
  case store => cases hv
  case muldiv =>
    cases hd : x.cmdOp.getLsbD 2 <;> rw [hd] at hv
    · have hisDiv : isDiv x = false := by rw [isDiv, hd, Bool.and_false]
      rw [hisDiv, hcmd] at hmux
      simpa [rdWriteData, hmux, h.opA, h.opB, h.aluOp] using hv
    · have hisDiv : isDiv x = true := by rw [isDiv, hd, hcmd]; rfl
      rw [hisDiv] at hmux
      have hline := hdiv hisDiv
      rw [h.opA, h.opB, h.aluOp] at hline
      simpa [rdWriteData, hmux, hline, h.aluOp] using hv

/-- A source operand is the register file as the pending write leaves it. -/
theorem operand_eq_nextRegfile (i : IexecInput) (r : BitVec 5) :
    s.operand V i r = s.nextRegfile V i r := by
  unfold operand nextRegfile
  simp only [and_comm]

/-- Without a write the register file stays. -/
theorem nextRegfile_of_not_wren (h : s.regfileWren = false) (i : IexecInput) :
    s.nextRegfile V i = s.regfile := by
  funext r
  simp [nextRegfile, regfileWrenNz, h]

/-- The pending write completes the instruction in the stage.  Only the
destination of a division may differ from the sequential machine before it. -/
theorem InStage.nextRegfile_eq (h : InStage regs x s) (i : IexecInput)
    (hdiv : isDiv x = true → s.divLine 7 = divInputs s.opA s.opB s.aluOp)
    (hwren : s.regfileWren = writesRd x)
    (hfile : ∀ r, r ≠ x.rd ∨ r = 0#5 ∨ s.regfileWren = false → s.regfile r = regs r) :
    s.nextRegfile V i = execute V regs (s.complete i x) := by
  funext r
  have hsome := result_isSome V regs (s.complete i x)
  change _ = writesRd x at hsome
  rw [← hwren] at hsome
  by_cases hr : r = x.rd ∧ r ≠ 0#5
  · obtain ⟨rfl, hnz⟩ := hr
    cases hw : s.regfileWren with
    | false =>
        rw [hw, Option.isSome_eq_false_iff, Option.isNone_iff_eq_none] at hsome
        rw [nextRegfile_of_not_wren hw, hfile _ (.inr (.inr hw))]
        simp [execute, hsome]
    | true =>
        rw [hw] at hsome
        obtain ⟨v, hv⟩ := Option.isSome_iff_exists.mp hsome
        have hdata := h.rdWriteData_eq i hdiv hv
        simp [nextRegfile, regfileWrenNz, execute, hw, h.regfileWraddr, hnz, hdata, hv]
  · have hkeep : execute V regs (s.complete i x) r = regs r := by
      rw [execute, complete_inst, if_neg hr]
    have hsame : s.nextRegfile V i r = s.regfile r := by
      simp only [nextRegfile, regfileWrenNz, h.regfileWraddr]
      split
      · rename_i hw
        refine absurd ⟨hw.2, ?_⟩ hr
        rw [hw.2]
        simpa using (Bool.and_eq_true_iff.mp hw.1).2
      · rfl
    rw [hkeep, hsame]
    refine hfile r ?_
    by_contra hcon
    simp only [not_or, ne_eq, not_not] at hcon
    exact hr ⟨hcon.1, hcon.2.1⟩

/-- The register file of the sequential machine once the instruction in the stage
has completed. -/
def settled (V : Megafunctions) (regs : Regs) (fl : Option IexecChannelIn) (s : Iexec)
    (i : IexecInput) : Regs :=
  match fl with
  | none => regs
  | some x => execute V regs (s.complete i x)

/-- The stage in each of its states against the sequential machine with register
file {lit}`regs` that has yet to complete the instruction {lit}`fl`. -/
inductive Tracks (V : Megafunctions) (regs : Regs) : Option IexecChannelIn → Iexec → Prop where
  | running {fl : Option IexecChannelIn} {s : Iexec} (hst : s.state = .running)
      (hfile : ∀ i, s.nextRegfile V i = settled V regs fl s i) : Tracks V regs fl s
  | loadStore {x : IexecChannelIn} {s : Iexec} (hst : s.state = .ls1 ∨ s.state = .lsWait)
      (hx : InStage regs x s) (hcmd : x.cmd = .load ∨ x.cmd = .store)
      (hwren : s.regfileWren = false) (hfile : s.regfile = regs) : Tracks V regs (some x) s
  | csr {x : IexecChannelIn} {s : Iexec} (hst : s.state = .csrReadWait)
      (hx : InStage regs x s) (hcmd : x.cmd = .csr ∧ x.csrReg ≠ csrRegSwitch)
      (hwren : s.regfileWren = false) (hfile : s.regfile = regs) : Tracks V regs (some x) s
  | div {x : IexecChannelIn} {s : Iexec} (hst : s.state = .divWait)
      (hx : InStage regs x s) (hdiv : isDiv x = true) (hwren : s.regfileWren = true)
      (hctr : s.divCtr.toNat ≤ 9)
      (hline : DelayLine.Holds s.divLine (9 - s.divCtr.toNat) (divInputs s.opA s.opB s.aluOp))
      (hfile : ∀ r, r ≠ x.rd ∨ r = 0#5 → s.regfile r = regs r) : Tracks V regs (some x) s

/-- In a {lit}`RUNNING` cycle the stage shows the settled register file. -/
theorem Tracks.nextRegfile_eq {fl : Option IexecChannelIn} (h : Tracks V regs fl s)
    (hst : s.state = .running) (i : IexecInput) :
    s.nextRegfile V i = settled V regs fl s i := by
  cases h with
  | running _ hfile => exact hfile i
  | loadStore hst' => rcases hst' with h | h <;> simp [hst] at h
  | csr hst' => simp [hst] at hst'
  | div hst' => simp [hst] at hst'

/-- The instruction in the stage after one edge. -/
def nextInFlight (fl : Option IexecChannelIn) (s : Iexec) (i : IexecInput) :
    Option IexecChannelIn :=
  if s.accepts i then some i.iexecIn else if s.state = .running then none else fl

/-- The sequential machine after one edge: the {lit}`RUNNING` cycle completes the
instruction in the stage. -/
def nextRegs (V : Megafunctions) (regs : Regs) (fl : Option IexecChannelIn) (s : Iexec)
    (i : IexecInput) : Regs :=
  if s.state = .running then settled V regs fl s i else regs

/-! ## One clock edge -/

/-- Nothing is accepted in the wait states. -/
theorem not_accepts_of_state {i : IexecInput} (h : s.state ≠ .running) :
    s.accepts i = false := by
  simp [accepts, h]

/-- An accepted instruction takes its operands from the settled register file. -/
theorem inStage_accept {i : IexecInput} (hacc : s.accepts i = true)
    (hfile : s.nextRegfile V i = regs) : InStage regs i.iexecIn (s.step V i) := by
  have hop : ∀ r, s.operand V i r = regs r := fun r => by
    rw [operand_eq_nextRegfile, hfile]
  constructor <;> simp only [step, mainProcess_of_accepts V hacc, accept, hop, secondOperand]
  case cmdResultMux => simp [isDiv]
  case lsOp => intro hl; simp [hl]
  case lsLoadSign => intro hl; simp [hl]

/-- Acceptance starts the next instruction on the settled register file. -/
theorem tracks_accept {i : IexecInput} (hacc : s.accepts i = true)
    (hfile : s.nextRegfile V i = regs) : Tracks V regs (some i.iexecIn) (s.step V i) := by
  have hx := inStage_accept hacc hfile
  have hstate : (s.step V i).state = acceptState i.iexecIn := by
    simp [step, mainProcess_of_accepts V hacc, accept]
  have hregfile : (s.step V i).regfile = regs := hfile
  have hwren : (s.step V i).regfileWren = decide (i.iexecIn.cmd = .muldiv ∨
      i.iexecIn.cmd = .alu ∨ i.iexecIn.cmd = .shift ∨ i.iexecIn.cmd = .jalr) := by
    simp [step, mainProcess_of_accepts V hacc, accept]
  have hnow : ∀ b, (s.step V i).state = .running → isDiv i.iexecIn = false →
      writesRd i.iexecIn = b → (s.step V i).regfileWren = b →
      Tracks V regs (some i.iexecIn) (s.step V i) := by
    intro b hrun hnd hwr hw
    refine .running hrun fun j => ?_
    exact hx.nextRegfile_eq j (fun hd => by rw [hnd] at hd; cases hd) (hw.trans hwr.symm)
      fun r _ => congrFun hregfile r
  cases hcmd : i.iexecIn.cmd <;> simp only [acceptState, hcmd] at hstate
  case alu => exact hnow true hstate (by simp [isDiv, hcmd]) (by simp [writesRd, hcmd]) (by simp [hwren, hcmd])
  case shift => exact hnow true hstate (by simp [isDiv, hcmd]) (by simp [writesRd, hcmd]) (by simp [hwren, hcmd])
  case jalr => exact hnow true hstate (by simp [isDiv, hcmd]) (by simp [writesRd, hcmd]) (by simp [hwren, hcmd])
  case branch => exact hnow false hstate (by simp [isDiv, hcmd]) (by simp [writesRd, hcmd]) (by simp [hwren, hcmd])
  case load => exact .loadStore (.inl hstate) hx (.inl hcmd) (by simp [hwren, hcmd]) hregfile
  case store => exact .loadStore (.inl hstate) hx (.inr hcmd) (by simp [hwren, hcmd]) hregfile
  case csr =>
    by_cases hsw : i.iexecIn.csrReg = csrRegSwitch
    · rw [if_pos hsw] at hstate
      exact hnow false hstate (by simp [isDiv, hcmd]) (by simp [writesRd, hcmd, hsw])
        (by simp [hwren, hcmd])
    · rw [if_neg hsw] at hstate
      exact .csr hstate hx ⟨hcmd, hsw⟩ (by simp [hwren, hcmd]) hregfile
  case muldiv =>
    cases hd : i.iexecIn.cmdOp.getLsbD 2 <;> simp only [hd] at hstate
    · exact hnow true (by simpa using hstate) (by rw [isDiv, hd, Bool.and_false])
        (by simp [writesRd, hcmd]) (by simp [hwren, hcmd])
    · have hctr : (s.step V i).divCtr = 9#4 := by
        simp only [step, mainProcess_of_accepts V hacc, accept, hcmd, hd]
        rfl
      refine .div (by simpa using hstate) hx (by rw [isDiv, hd, hcmd]; rfl)
        (by simp [hwren, hcmd]) (by simp [hctr]) ?_ fun r _ => congrFun hregfile r
      rw [hctr]
      exact DelayLine.holds_zero _ _

/-- A {lit}`RUNNING` cycle completes the instruction in the stage and may accept
the next one. -/
theorem tracks_step_running {fl : Option IexecChannelIn} (hst : s.state = .running)
    (hfile : ∀ i, s.nextRegfile V i = settled V regs fl s i) (i : IexecInput) :
    Tracks V (settled V regs fl s i) (if s.accepts i then some i.iexecIn else none)
      (s.step V i) := by
  cases hacc : s.accepts i with
  | true => exact tracks_accept hacc (hfile i)
  | false =>
      have hwren : (s.step V i).regfileWren = false := by
        simp [step, mainProcess, hst, hacc, edgeDefaults]
      refine .running (state_step_of_not_accepts V hst hacc) fun j => ?_
      rw [nextRegfile_of_not_wren hwren]
      exact hfile i

/-- A load or store in its wait states. -/
theorem tracks_step_loadStore (hst : s.state = .ls1 ∨ s.state = .lsWait)
    (hx : InStage regs x s) (hcmd : x.cmd = .load ∨ x.cmd = .store)
    (hwren : s.regfileWren = false) (hfile : s.regfile = regs) (i : IexecInput) :
    Tracks V regs (some x) (s.step V i) := by
  have hacc : s.accepts i = false :=
    not_accepts_of_state (by rcases hst with h | h <;> simp [h])
  have hx' := hx.of_same (sameInstruction_step V hacc)
  have hfile' : (s.step V i).regfile = regs := (nextRegfile_of_not_wren hwren i).trans hfile
  have hmux : s.cmdResultMux = x.cmd := by
    rw [hx.cmdResultMux]
    rcases hcmd with h | h <;> simp [isDiv, h]
  have hdone : (s.step V i).state = .running → (s.step V i).regfileWren = writesRd x →
      Tracks V regs (some x) (s.step V i) := by
    intro hrun hw
    refine .running hrun fun j => hx'.nextRegfile_eq j ?_ hw fun r _ => congrFun hfile' r
    intro hd
    rcases hcmd with h | h <;> simp [isDiv, h] at hd
  rcases hst with hst | hst
  · exact .loadStore (.inr (state_step_of_ls1 V hst i)) hx' hcmd
      (by simp [step, mainProcess, hst, edgeDefaults]) hfile'
  · by_cases hhit : s.cmdResultMux = .load ∧ i.dcacheHit = true
    · refine hdone ?_ ?_
      · simp [step, mainProcess, hst, hhit]
      · have hload : x.cmd = .load := hmux ▸ hhit.1
        simp [step, mainProcess, hst, hhit, writesRd, hload]
    · by_cases hstrobe : s.cmdResultMux = .store ∧ i.dcacheWriteStrobe ≠ s.dcacheWriteStrobeSave
      · refine hdone ?_ ?_
        · simp [step, mainProcess, hst, hstrobe]
        · have hstore : x.cmd = .store := hmux ▸ hstrobe.1
          simp [step, mainProcess, hst, hstrobe, edgeDefaults, writesRd, hstore]
      · refine .loadStore (.inr ?_) hx' hcmd ?_ hfile' <;>
          simp only [step, mainProcess, hst, if_neg hhit, if_neg hstrobe, edgeDefaults]

/-- A CSR access in its wait cycles. -/
theorem tracks_step_csr (hst : s.state = .csrReadWait) (hx : InStage regs x s)
    (hcmd : x.cmd = .csr ∧ x.csrReg ≠ csrRegSwitch) (hwren : s.regfileWren = false)
    (hfile : s.regfile = regs) (i : IexecInput) : Tracks V regs (some x) (s.step V i) := by
  have hacc : s.accepts i = false := not_accepts_of_state (by simp [hst])
  have hx' := hx.of_same (sameInstruction_step V hacc)
  have hfile' : (s.step V i).regfile = regs := (nextRegfile_of_not_wren hwren i).trans hfile
  cases hc : s.csrWaitCtr with
  | true =>
      refine .csr ?_ hx' hcmd ?_ hfile' <;> simp [step, mainProcess, hst, hc, edgeDefaults]
  | false =>
      refine .running ?_ fun j => hx'.nextRegfile_eq j ?_ ?_ fun r _ => congrFun hfile' r
      · simp [step, mainProcess, hst, hc]
      · simp [isDiv, hcmd.1]
      · simp [step, mainProcess, hst, hc, writesRd, hcmd]

/-- A division in {lit}`DIV_WAIT`: every edge writes the destination, the last one
with the quotient of the held operands. -/
theorem tracks_step_div (hst : s.state = .divWait) (hx : InStage regs x s)
    (hdiv : isDiv x = true) (hwren : s.regfileWren = true) (hctr : s.divCtr.toNat ≤ 9)
    (hline : DelayLine.Holds s.divLine (9 - s.divCtr.toNat) (divInputs s.opA s.opB s.aluOp))
    (hfile : ∀ r, r ≠ x.rd ∨ r = 0#5 → s.regfile r = regs r) (i : IexecInput) :
    Tracks V regs (some x) (s.step V i) := by
  have hacc : s.accepts i = false := not_accepts_of_state (by simp [hst])
  have hsame := sameInstruction_step V hacc
  have hx' := hx.of_same hsame
  have hwr : writesRd x = true := by
    simp only [isDiv, Bool.and_eq_true, beq_iff_eq] at hdiv
    simp [writesRd, hdiv.1]
  by_cases hz : s.divCtr = 0#4
  · have hlast : s.nextRegfile V i = execute V regs (s.complete i x) := by
      refine hx.nextRegfile_eq i (fun _ => hline 7 (by rw [hz]; decide)) (hwren.trans hwr.symm) ?_
      rintro r (hr | hr | hr)
      · exact hfile r (.inl hr)
      · exact hfile r (.inr hr)
      · rw [hwren] at hr
        cases hr
    have hwren' : (s.step V i).regfileWren = false := by
      simp [step, mainProcess, hst, hz, edgeDefaults]
    refine .running (by simp [step, mainProcess, hst, hz]) fun j => ?_
    rw [nextRegfile_of_not_wren hwren']
    exact hlast.trans (execute_of_isDiv V regs (by simp) hdiv)
  · have hctr' : (s.step V i).divCtr = s.divCtr - 1#4 := by
      simp [step, mainProcess, hst, hz]
    have hpos : 0 < s.divCtr.toNat := by
      rcases Nat.eq_zero_or_pos s.divCtr.toNat with h | h
      · exact absurd (BitVec.eq_of_toNat_eq h) hz
      · exact h
    have hlt : (s.step V i).divCtr.toNat = s.divCtr.toNat - 1 := by
      rw [hctr']
      bv_omega
    refine .div ?_ hx' hdiv ?_ (by omega) ?_ ?_
    · simp [step, mainProcess, hst, hz, edgeDefaults]
    · simp [step, mainProcess, hst, hz]
    · rw [hlt, hsame.opA, hsame.opB, hsame.aluOp,
        show 9 - (s.divCtr.toNat - 1) = 9 - s.divCtr.toNat + 1 by omega]
      exact hline.push
    · intro r hr
      change s.nextRegfile V i r = regs r
      rw [← hfile r hr, nextRegfile, hx.regfileWraddr, if_neg]
      rintro ⟨hnz, rfl⟩
      rcases hr with hr | hr
      · exact hr rfl
      · simp [regfileWrenNz, hx.regfileWraddr, hr] at hnz

/-- One clock edge keeps the stage in step with the sequential machine. -/
theorem tracks_step {fl : Option IexecChannelIn} (h : Tracks V regs fl s) (i : IexecInput) :
    Tracks V (nextRegs V regs fl s i) (nextInFlight fl s i) (s.step V i) := by
  unfold nextRegs nextInFlight
  cases h with
  | running hst hfile =>
      simp only [hst]
      exact tracks_step_running hst hfile i
  | loadStore hst hx hcmd hwren hfile =>
      have hne : s.state ≠ .running := by rcases hst with h | h <;> simp [h]
      simp only [not_accepts_of_state hne, hne]
      exact tracks_step_loadStore hst hx hcmd hwren hfile i
  | csr hst hx hcmd hwren hfile =>
      have hne : s.state ≠ .running := by simp [hst]
      simp only [not_accepts_of_state hne, hne]
      exact tracks_step_csr hst hx hcmd hwren hfile i
  | div hst hx hdiv hwren hctr hline hfile =>
      have hne : s.state ≠ .running := by simp [hst]
      simp only [not_accepts_of_state hne, hne]
      exact tracks_step_div hst hx hdiv hwren hctr hline hfile i

end Iexec

/-! ## Whole runs -/

section Runs

variable (V : Megafunctions) (inp : ℕ → IexecInput)

/-- The instructions completed before the {lit}`t`-th cycle, oldest first. -/
def completedBefore (t : ℕ) : List Completed :=
  Clocked.log (Iexec.completedAt V inp) t

/-- The sequential machine before the {lit}`t`-th cycle of a run. -/
def archRegsAt (t : ℕ) : Regs :=
  archRegs V (completedBefore V inp t)

/-- The registers after an edge. -/
theorem archRegsAt_succ (t : ℕ) :
    archRegsAt V inp (t + 1) = Iexec.nextRegs V (archRegsAt V inp t) (Iexec.inFlight V inp t)
      (Iexec.run V inp t) (inp t) := by
  unfold archRegsAt completedBefore Iexec.nextRegs Iexec.settled
  by_cases hst : (Iexec.run V inp t).state = .running
  · cases hfl : Iexec.inFlight V inp t with
    | none => rw [Clocked.log_succ_none (by simp [Iexec.completedAt, hst, hfl])]; simp [hst]
    | some x =>
        have hev : Iexec.completedAt V inp t =
            some ((Iexec.run V inp t).complete (inp t) x) := by
          simp [Iexec.completedAt, hst, hfl]
        rw [Clocked.log_succ_some hev, archRegs_concat]
        simp [hst]
  · rw [Clocked.log_succ_none (by simp [Iexec.completedAt, hst]), if_neg hst]

/-- The stage tracks the sequential machine throughout every run. -/
theorem tracks_run (t : ℕ) :
    Iexec.Tracks V (archRegsAt V inp t) (Iexec.inFlight V inp t) (Iexec.run V inp t) := by
  induction t with
  | zero =>
      refine .running rfl fun i => ?_
      exact Iexec.nextRegfile_of_not_wren rfl i
  | succ t ih =>
      rw [archRegsAt_succ]
      exact Iexec.tracks_step ih (inp t)

/-- In a {lit}`RUNNING` cycle all instructions accepted so far have completed, in the
order of their acceptance. -/
theorem completed_eq_accepted (t : ℕ) :
    (completedBefore V inp t).map Completed.inst ++ (Iexec.inFlight V inp t).toList =
      Clocked.log (Iexec.acceptedInst V inp) t := by
  induction t with
  | zero => rfl
  | succ t ih =>
      simp only [completedBefore, Clocked.log, Iexec.inFlight, Iexec.acceptedInst] at ih ⊢
      rw [← ih]
      by_cases hst : (Iexec.run V inp t).state = .running
      · cases hfl : Iexec.inFlight V inp t <;>
          cases hacc : (Iexec.run V inp t).accepts (inp t) <;>
          simp [Iexec.completedAt, hst, hfl]
      · have hacc := Iexec.not_accepts_of_state (i := inp t) hst
        simp [Iexec.completedAt, hst, hacc]

/-- The stage is busy outside of {lit}`RUNNING`. -/
theorem busyR_run (t : ℕ) :
    (Iexec.run V inp t).busyR = ((Iexec.run V inp t).state != .running) := by
  cases t with
  | zero => rfl
  | succ t => exact Iexec.busyR_step V _ _

end Runs

/-- Operand forwarding: whenever an instruction is accepted, all earlier accepted
ones have completed in order on the sequential machine, and the operands latched
at that edge are its register values, with register zero always zero. -/
theorem forwarded_operands (V : Megafunctions) (inp : ℕ → IexecInput) (t : ℕ)
    (hacc : (Iexec.run V inp t).accepts (inp t) = true) :
    (completedBefore V inp (t + 1)).map Completed.inst =
        Clocked.log (Iexec.acceptedInst V inp) t ∧
      archRegsAt V inp (t + 1) 0#5 = 0#32 ∧
      (Iexec.run V inp (t + 1)).opA = archRegsAt V inp (t + 1) (inp t).iexecIn.rs1 ∧
      ((inp t).iexecIn.cmdUseReg = true →
        (Iexec.run V inp (t + 1)).opB = archRegsAt V inp (t + 1) (inp t).iexecIn.rs2) ∧
      (Iexec.run V inp (t + 1)).storeData = archRegsAt V inp (t + 1) (inp t).iexecIn.rs2 := by
  obtain ⟨hrun, hvalid, -⟩ := Iexec.accepts_iff.mp hacc
  have hfile : (Iexec.run V inp t).nextRegfile V (inp t) = archRegsAt V inp (t + 1) := by
    rw [archRegsAt_succ, Iexec.nextRegs, if_pos hrun]
    exact (tracks_run V inp t).nextRegfile_eq hrun (inp t)
  have hx := Iexec.inStage_accept hacc hfile
  refine ⟨?_, archRegs_zero V _, hx.opA, ?_, ?_⟩
  · have hall := completed_eq_accepted V inp (t + 1)
    have hev : Iexec.acceptedInst V inp t = some (inp t).iexecIn := by
      simp [Iexec.acceptedInst, hacc]
    rw [Clocked.log_succ_some hev, Iexec.inFlight, if_pos hacc, Option.toList_some] at hall
    exact List.append_cancel_right hall
  · intro huse
    exact hx.opB.trans (by simp [secondOperand, huse])
  · have hbusy : (Iexec.run V inp t).busyR = false := by simp [busyR_run, hrun]
    change (Iexec.run V inp t).nextStoreData V (inp t) = _
    rw [Iexec.nextStoreData, if_pos ⟨hbusy, hvalid⟩, Iexec.operand_eq_nextRegfile, hfile]

/-- The instruction {lit}`addi x1, x1, 5`, offered in every cycle. -/
def addiInput : IexecInput where
  iexecIn := ⟨true, .alu, cmdAluOpAdd, false, false, 5#32, 1#5, 0#5, 1#5, 0#12, 4#32⟩
  dcacheHit := false
  dcacheReadData := 0#32
  dcacheWriteStrobe := false
  csrBus := 0#32
  intrOut := ⟨false, 0#4⟩

/-- The second of two dependent additions receives the forwarded sum. -/
theorem forwarded_operands_addi :
    (Iexec.run .documented (fun _ => addiInput) 2).opA = 5#32 ∧
      (Iexec.run .documented (fun _ => addiInput) 2).opA =
        archRegsAt .documented (fun _ => addiInput) 2 1#5 :=
  ⟨by decide, (forwarded_operands .documented (fun _ => addiInput) 1 (by decide)).2.2.1⟩

end Sumeru
