import Sumeru.Cpu.Rv32Machine
import Sumeru.Cache.LoadStore

/-!
# Sumeru - The processor with its data cache

The pipeline of {lit}`cpu.vhd` connected to the data cache and to the memory channel behind
it.  Both halves are runs of their own: the stages are a run of {lit}`Core` whose inputs the
cache computes, and the execute stage with its cache is a run of {lit}`DataUnit` whose
instructions the decoder offers.

This file ties the register file and the memory to a sequential machine, in every state of
the execute stage: the machine is ahead of the stage by the instruction that is under way.

Main results:

- Theorem {lit}`Hart.core_run` and {lit}`Hart.data_run`: the two halves of a run.
- Theorem {lit}`DataUnit.InStep.step`: an edge that accepts nothing keeps the register file and
  the memory in step with the machine.
-/

namespace Sumeru
open Rv32

/-! ## The two halves -/

/-- The stages of the pipeline, the data cache and the memory channel. -/
structure Hart where
  ifetch : Ifetch
  idecode : Idecode
  data : DataUnit
  icacheFlushAck : Bool

/-- Inputs in one cycle: the instruction cache, the CSR bus, the interrupt controller, the
memory channel and the undefined outputs of the RAMs. -/
structure HartInput where
  icacheHit : Bool
  flushDone : Bool
  csrBus : BitVec 32
  intrOut : IntrChannelOut
  ready : Bool
  float : BitVec 16
  undefinedLanes : Fin 4 → Lanes

namespace Hart

variable (V : Megafunctions) (imem : BitVec 32 → BitVec 32)

/-- Power-up contents in front of a memory. -/
def init (mem : BitVec 24 → BitVec 16) : Hart where
  ifetch := Ifetch.init
  idecode := Idecode.init
  data := DataUnit.init mem
  icacheFlushAck := false

/-- The stages without the data cache. -/
def core (s : Hart) : Core := ⟨s.ifetch, s.idecode, s.data.iexec, s.icacheFlushAck⟩

/-- What the execute stage and the data cache see from outside. -/
def dataInput (s : Hart) (i : HartInput) : DataUnitInput where
  iexecIn := s.idecode.iexecIn
  csrBus := i.csrBus
  intrOut := i.intrOut
  ready := i.ready
  float := i.float
  undefinedLanes := i.undefinedLanes

/-- What the stages see from outside: the data cache is part of it. -/
def coreInput (s : Hart) (i : HartInput) : CoreInput where
  icacheHit := i.icacheHit
  flushDone := i.flushDone
  dcacheHit := (s.data.iexecInput (s.dataInput i)).dcacheHit
  dcacheReadData := (s.data.iexecInput (s.dataInput i)).dcacheReadData
  dcacheWriteStrobe := (s.data.iexecInput (s.dataInput i)).dcacheWriteStrobe
  csrBus := i.csrBus
  intrOut := i.intrOut

/-- From one edge of {lit}`clk` to the next. -/
def step (s : Hart) (i : HartInput) : Hart where
  ifetch := s.ifetch.step (s.core.ifetchInput imem (s.coreInput i))
  idecode := s.idecode.step s.ifetch.idecodeIn s.data.iexec.out
  data := s.data.step V (s.dataInput i)
  icacheFlushAck := if i.flushDone then s.ifetch.icacheFlush else s.icacheFlushAck

/-- The processor in front of the {lit}`t`-th edge of {lit}`clk`. -/
def run (mem : BitVec 24 → BitVec 16) (inp : ℕ → HartInput) (t : ℕ) : Hart :=
  Clocked.run (step V imem) (init mem) inp t

variable {V imem} {mem : BitVec 24 → BitVec 16} {inp : ℕ → HartInput}

/-- One more cycle. -/
theorem run_succ (t : ℕ) :
    run V imem mem inp (t + 1) = (run V imem mem inp t).step V imem (inp t) :=
  rfl

/-- The stages step as on their own. -/
theorem core_step (s : Hart) (i : HartInput) :
    (s.step V imem i).core = s.core.step V imem (s.coreInput i) :=
  rfl

/-- The inputs of the stages in a run. -/
def coreInputs (V : Megafunctions) (imem : BitVec 32 → BitVec 32) (mem : BitVec 24 → BitVec 16)
    (inp : ℕ → HartInput) (t : ℕ) : CoreInput :=
  (run V imem mem inp t).coreInput (inp t)

/-- The inputs of the execute stage and the data cache in a run. -/
def dataInputs (V : Megafunctions) (imem : BitVec 32 → BitVec 32) (mem : BitVec 24 → BitVec 16)
    (inp : ℕ → HartInput) (t : ℕ) : DataUnitInput :=
  (run V imem mem inp t).dataInput (inp t)

/-- The stages run as the pipeline does. -/
theorem core_run (t : ℕ) :
    (run V imem mem inp t).core = Core.run V imem (coreInputs V imem mem inp) t := by
  induction t with
  | zero => rfl
  | succ t ih => rw [run_succ, core_step, ih, Core.run_succ, coreInputs]

/-- The execute stage and the data cache run as the data unit does. -/
theorem data_run (t : ℕ) :
    (run V imem mem inp t).data = DataUnit.run V mem (dataInputs V imem mem inp) t := by
  induction t with
  | zero => rfl
  | succ t ih =>
      rw [DataUnit.run_succ, ← ih]
      rfl

end Hart

/-! ## Results on the register file -/

section Results

variable {V : Megafunctions} {regs : Regs} {s : Iexec} {c : Completed} {rd : BitVec 5}
  {v : BitVec 32}

/-- The result goes to {lit}`rd`. -/
theorem execute_of_result (h : result V regs c = some v) :
    execute V regs c = regs.write c.inst.rd v := by
  funext r
  simp [execute, Regs.write, h]

/-- Without a result the registers stay. -/
theorem execute_of_none (h : result V regs c = none) : execute V regs c = regs := by
  funext r
  simp [execute, h]

/-- A pending write shows on the settled register file. -/
theorem Iexec.Writes.nextRegfile_eq (h : s.Writes V rd v) (i : IexecInput) :
    s.nextRegfile V i = Regs.write s.regfile rd v := by
  funext r
  by_cases hr : r = rd ∧ r ≠ 0#5
  · obtain ⟨rfl, hnz⟩ := hr
    simp [Iexec.nextRegfile, Iexec.regfileWrenNz, Regs.write, h.wren, h.wraddr, hnz, h.data i]
  · rw [Regs.write, if_neg hr, Iexec.nextRegfile, if_neg]
    rintro ⟨hw, rfl⟩
    rw [Iexec.regfileWrenNz, h.wren, h.wraddr, Bool.true_and, bne_iff_ne] at hw
    exact hr ⟨h.wraddr, by rw [h.wraddr]; exact hw⟩

end Results

/-! ## Loads and stores of the specification -/

/-- The byte address of an access. -/
theorem toNat_memAddr (addr : BitVec 32) : (memAddr addr).toNat = addr.toNat % 2 ^ 25 := by
  simp [memAddr, BitVec.extractLsb'_toNat]

/-- A load of the cache is one of the machine. -/
theorem loadValue_eq_read (k : LoadKind) (m : ByteMem) (a : BitVec 25) (data : BitVec 32) :
    MemOp.loadValue ⟨false, a, k.funct3.extractLsb' 0 2, !k.funct3.getLsbD 2, data⟩ m =
      k.read m a := by
  cases k <;> rfl

/-- A store of the cache is one of the machine. -/
theorem apply_eq_write (k : StoreKind) (m : ByteMem) (a : BitVec 25) (signed : Bool)
    (data : BitVec 32) :
    MemOp.apply ⟨true, a, k.funct3.extractLsb' 0 2, signed, data⟩ m = k.write a data m := by
  funext x
  simp only [MemOp.apply, MemOp.covers, MemOp.size, k.sizeOf_eq, decide_eq_true_eq, true_and]
  rfl

/-- Alignment as divisibility. -/
theorem MemOp.aligned_of_mod {op : MemOp} (hne : op.lsOp ≠ 0b11#2)
    (h : op.addr.toNat % op.size = 0) : op.Aligned where
  half hop := by simpa [MemOp.size, MemOp.sizeOf, hop] using h
  word hop := by simpa [MemOp.size, MemOp.sizeOf, hop] using h
  flush hop := absurd hop hne

/-- Aligned loads of the machine are aligned for the cache. -/
theorem aligned_load (k : LoadKind) {addr : BitVec 32} (h : NaturallyAligned addr k.size)
    (signed : Bool) (data : BitVec 32) :
    MemOp.Aligned ⟨false, memAddr addr, k.funct3.extractLsb' 0 2, signed, data⟩ := by
  apply MemOp.aligned_of_mod
  · dsimp only
    cases k <;> decide
  · have hmod := toNat_memAddr addr
    cases k <;> simp [NaturallyAligned, LoadKind.size, LoadKind.funct3, MemOp.size, MemOp.sizeOf]
      at h ⊢ <;> omega

/-- Aligned stores of the machine are aligned for the cache. -/
theorem aligned_store (k : StoreKind) {addr : BitVec 32} (h : NaturallyAligned addr k.size)
    (signed : Bool) (data : BitVec 32) :
    MemOp.Aligned ⟨true, memAddr addr, k.funct3.extractLsb' 0 2, signed, data⟩ := by
  apply MemOp.aligned_of_mod
  · dsimp only
    cases k <;> decide
  · have hmod := toNat_memAddr addr
    cases k <;> simp [NaturallyAligned, StoreKind.size, StoreKind.funct3, MemOp.size, MemOp.sizeOf]
      at h ⊢ <;> omega

/-! ## The execute stage behind the machine -/

namespace DataUnit

variable {V : Megafunctions} {m : RvMachine} {s : DataUnit} {i : DataUnitInput}

/-- The register file against a machine that has executed the instruction in the stage: in
{lit}`RUNNING` the pending write completes it, before that the result is still to come. -/
inductive Owes (V : Megafunctions) (m : RvMachine) (s : DataUnit) : Prop where
  | settled (hst : s.iexec.state = .running)
      (hfile : ∀ i, s.iexec.nextRegfile V (s.iexecInput i) = m.regs) : Owes V m s
  | divides {regs : Regs} {x : IexecChannelIn} (hst : s.iexec.state = .divWait)
      (ht : Iexec.Tracks V regs (some x) s.iexec)
      (hres : ∀ c : Completed, c.inst = x → execute V regs c = m.regs) : Owes V m s
  | accesses {regs : Regs} {x : IexecChannelIn}
      (hst : s.iexec.state = .ls1 ∨ s.iexec.state = .lsWait)
      (ht : Iexec.Tracks V regs (some x) s.iexec) (hal : s.iexec.memOp.Aligned)
      (hregs : m.regs = if s.iexec.memOp.store then regs
        else regs.write x.rd (s.iexec.memOp.loadValue m.mem)) : Owes V m s

/-- The register file and the memory are those of the machine, up to the instruction in
the stage: in {lit}`LS_1` its operation is not yet handed to the cache. -/
structure InStep (V : Megafunctions) (m : RvMachine) (s : DataUnit) : Prop where
  owes : s.Owes V m
  memory : ∃ mem : ByteMem, s.Situation mem ∧
    m.mem = if s.iexec.state = .ls1 then s.iexec.memOp.apply mem else mem
  busy : s.iexec.busyR = (s.iexec.state != .running)

/-- The instruction of an access is a load or a store. -/
theorem Owes.memOp_store {regs : Regs} {x : IexecChannelIn}
    (hst : s.iexec.state = .ls1 ∨ s.iexec.state = .lsWait)
    (ht : Iexec.Tracks V regs (some x) s.iexec) :
    Iexec.InStage regs x s.iexec ∧ (x.cmd = .load ∨ x.cmd = .store) ∧
      s.iexec.cmdResultMux = x.cmd := by
  cases ht with
  | running hrun => rcases hst with h | h <;> rw [hrun] at h <;> cases h
  | loadStore _ hx hcmd =>
      refine ⟨hx, hcmd, ?_⟩
      rw [hx.cmdResultMux]
      rcases hcmd with h | h <;> simp [isDiv, h]
  | csr hcsr => rcases hst with h | h <;> rw [hcsr] at h <;> cases h
  | div hdiv => rcases hst with h | h <;> rw [hdiv] at h <;> cases h

/-- An edge that leaves the instruction in the stage in its wait states. -/
theorem tracks_step_waiting {regs : Regs} {x : IexecChannelIn} (hst : s.iexec.state ≠ .running)
    (ht : Iexec.Tracks V regs (some x) s.iexec) (i : DataUnitInput) :
    Iexec.Tracks V regs (some x) (s.step V i).iexec := by
  have h := Iexec.tracks_step ht (s.iexecInput i)
  rwa [Iexec.nextRegs, if_neg hst, Iexec.nextInFlight, if_neg hst,
    Iexec.not_accepts_of_state hst] at h

/-- The wait of an access ends with the register file of the machine. -/
theorem Owes.access_done {mem : ByteMem} (hsit : s.Situation mem) (hst : s.iexec.state = .lsWait)
    (hmem : m.mem = mem) {regs : Regs} {x : IexecChannelIn}
    (ht : Iexec.Tracks V regs (some x) s.iexec) (hal : s.iexec.memOp.Aligned)
    (hregs : m.regs = if s.iexec.memOp.store then regs
      else regs.write x.rd (s.iexec.memOp.loadValue m.mem))
    (hrun : (s.step V i).iexec.state = .running) : (s.step V i).Owes V m := by
  obtain ⟨hx, hcmd, hmux⟩ := memOp_store (.inr hst) ht
  have ht' := tracks_step_waiting (by rw [hst]; decide) ht i
  have hx' : Iexec.InStage regs x (s.step V i).iexec :=
    hx.of_same (Iexec.sameInstruction_step V (Iexec.not_accepts_of_state (by rw [hst]; decide)))
  refine .settled hrun fun i' => ?_
  rw [ht'.nextRegfile_eq hrun]
  change execute V regs ((s.step V i).iexec.complete ((s.step V i).iexecInput i') x) = m.regs
  rcases hcmd with hload | hstore
  · have hop : s.iexec.memOp.store = false := by simp [Iexec.memOp, hmux, hload]
    obtain ⟨v, hv⟩ : ∃ v, result V regs
        ((s.step V i).iexec.complete ((s.step V i).iexecInput i') x) = some v := by
      apply Option.isSome_iff_exists.mp
      rw [result_isSome, Iexec.complete_inst, writesRd, hload]
    have hdata := hx'.rdWriteData_eq ((s.step V i).iexecInput i')
      (fun hd => by simp [isDiv, hload] at hd) hv
    rw [(hsit.load_value V hst hop (MemOp.byteena_ne_zero hal hop) hrun i').2,
      MemOp.laneValue_eq_loadValue hal hop] at hdata
    rw [execute_of_result hv, hregs, hop, ← hdata, hmem]
    rfl
  · have hop : s.iexec.memOp.store = true := by simp [Iexec.memOp, hmux, hstore]
    rw [execute_of_none, hregs, hop]
    · rfl
    · simp [result, Iexec.complete, hstore]

/-- What an edge that accepts nothing does to the register file. -/
theorem Owes.step (h : s.Owes V m) (hbusy : s.iexec.busyR = (s.iexec.state != .running))
    {mem : ByteMem} (hsit : s.Situation mem)
    (hmem : m.mem = if s.iexec.state = .ls1 then s.iexec.memOp.apply mem else mem)
    (hacc : s.iexec.accepts (s.iexecInput i) = false) : (s.step V i).Owes V m := by
  cases h with
  | settled hst hfile =>
      refine .settled (Iexec.state_step_of_not_accepts V hst hacc) fun i' => ?_
      have hwren : (s.step V i).iexec.regfileWren = false := by
        change (Iexec.step V s.iexec (s.iexecInput i)).regfileWren = false
        simp [Iexec.step, Iexec.mainProcess, hst, hacc, Iexec.edgeDefaults]
      rw [Iexec.nextRegfile_of_not_wren hwren]
      exact hfile i
  | divides hst ht hres =>
      have ht' := tracks_step_waiting (by rw [hst]; decide) ht i
      rcases Iexec.state_step_of_divWait V hst (s.iexecInput i) with hrun | ⟨hdiv, -⟩
      · refine .settled hrun fun i' => ?_
        rw [ht'.nextRegfile_eq hrun]
        exact hres _ rfl
      · exact .divides hdiv ht' hres
  | accesses hst ht hal hregs =>
      have hne : s.iexec.state ≠ .running := by rcases hst with h | h <;> rw [h] <;> decide
      have hop : (s.step V i).iexec.memOp = s.iexec.memOp := (request_step V hne hbusy).1
      have hgo : (s.step V i).iexec.state = .lsWait → (s.step V i).Owes V m := fun hwait =>
        .accesses (.inr hwait) (tracks_step_waiting hne ht i) (by rw [hop]; exact hal)
          (by rw [hop]; exact hregs)
      rcases hst with hst | hst
      · exact hgo (Iexec.state_step_of_ls1 V hst _)
      · rcases Iexec.state_step_of_lsWait V hst (s.iexecInput i) with hrun | hwait
        · rw [if_neg (by rw [hst]; decide)] at hmem
          exact access_done hsit hst hmem ht hal hregs hrun
        · exact hgo hwait

/-- An access in {lit}`LS_1` is aligned. -/
theorem Owes.aligned (h : s.Owes V m) (hst : s.iexec.state = .ls1) : s.iexec.memOp.Aligned := by
  cases h with
  | settled hrun => rw [hst] at hrun; cases hrun
  | divides hdiv => rw [hst] at hdiv; cases hdiv
  | accesses _ _ hal => exact hal

/-- An edge that accepts nothing keeps the register file and the memory in step with the
machine. -/
theorem InStep.step (h : s.InStep V m) (hacc : s.iexec.accepts (s.iexecInput i) = false) :
    (s.step V i).InStep V m := by
  obtain ⟨mem, hsit, hmem⟩ := h.memory
  refine ⟨h.owes.step h.busy hsit hmem hacc, ⟨_, hsit.step V i, ?_⟩, Iexec.busyR_step V _ _⟩
  have hno : (s.step V i).iexec.state ≠ .ls1 := by
    intro hx
    have := ((Iexec.state_step_ls1_iff V _).mp hx).1
    rw [hacc] at this
    cases this
  rw [if_neg hno, hmem]
  by_cases hst : s.iexec.state = .ls1
  · rw [if_pos hst, if_pos hst, MemOp.write_eq_apply (h.owes.aligned hst)]
  · rw [if_neg hst, if_neg hst]

/-- In {lit}`RUNNING` the operands of the next instruction are the registers of the machine. -/
theorem InStep.operand (h : s.InStep V m) (hst : s.iexec.state = .running) (i : DataUnitInput)
    (r : BitVec 5) : s.iexec.operand V (s.iexecInput i) r = m.regs r := by
  rw [Iexec.operand_eq_nextRegfile]
  cases h.owes with
  | settled _ hfile => rw [hfile]
  | divides hdiv => rw [hst] at hdiv; cases hdiv
  | accesses hls => rcases hls with h | h <;> rw [hst] at h <;> cases h

/-- In {lit}`RUNNING` the cache over its memory shows the memory of the machine. -/
theorem InStep.coherent (h : s.InStep V m) (hst : s.iexec.state = .running) :
    s.dcache.Coherent s.chan.cells m.mem := by
  obtain ⟨mem, hsit, hmem⟩ := h.memory
  rw [if_neg (by rw [hst]; decide)] at hmem
  rw [hmem]
  exact (hsit.calm_of_not_waiting (by rw [hst]; decide)).coherent

end DataUnit

end Sumeru
