import Sumeru.Cpu.SystemStep

/-!
# Sumeru - Precise interrupts

The processor with its CSR instructions and with interrupts, under every timing, computes
what the sequential machine computes.  The events of a run are read off the run: an
interrupt that is taken when an instruction is accepted, and the value that the CSR bus
shows three edges after a CSR access was accepted.

Main results:

- Theorem {lit}`Iexec.PostedAs.value`: a register behind the CSR bus holds the value of the
  machine when the machine has waited long enough.
- Theorem {lit}`Hart.Accepting.follows_next`: an accepted instruction is a step of the machine.
- Theorem {lit}`hart_precise_interrupts`: the processor implements the machine, also with
  interrupts.
-/

namespace Sumeru
open Rv32

/-! ## Registers behind the CSR bus -/

namespace Iexec

variable (V : Megafunctions)

/-- The register of the stage. -/
def postedReg (s : Iexec) : PostedCsr → BitVec 32
  | .pcSwitch => s.ctxPcSwitchR
  | .ivector => s.ivectorAddrR

/-- A CSR instruction that writes the register is accepted at edge {lit}`t`. -/
def Posts (inp : ℕ → IexecInput) (r : PostedCsr) (t : ℕ) : Prop :=
  CsrAccepted V inp t ∧ (inp t).iexecIn.csrReg = r.addr

/-- The register against the value {lit}`p` of the machine, before edge {lit}`t`. -/
inductive PostedAs (inp : ℕ → IexecInput) (r : PostedCsr) (p : Posted) (t : ℕ) : Prop where
  | never (hno : ∀ k < t, ¬Posts V inp r k) (hp : p.value = 0#32) : PostedAs inp r p t
  | last {u : ℕ} (hu : Posts V inp r u) (hut : u < t)
      (hno : ∀ k, u < k → k < t → ¬Posts V inp r k) (hp : csrWritten V inp u = p.value)
      (hage : ∀ v, t ≤ v → (run V inp v).accepts (inp v) = true → u + p.age ≤ v) :
      PostedAs inp r p t

variable {V} {inp : ℕ → IexecInput} {r : PostedCsr} {p : Posted} {t u : ℕ}

/-- The register changes at the edge that takes a write to it from the bus. -/
theorem postedReg_succ (inp : ℕ → IexecInput) (r : PostedCsr) (k : ℕ) :
    (run V inp (k + 1)).postedReg r =
      if (run V inp k).csrIn.csrOpValid = true ∧ (run V inp k).csrIn.csrOpReg = r.addr then
        (run V inp k).csrIn.csrOpData
      else (run V inp k).postedReg r := by
  cases r <;> rfl

/-- The bus writes the register four edges after the instruction is accepted. -/
theorem posts_of_csrOp {k : ℕ}
    (h : (run V inp k).csrIn.csrOpValid = true ∧ (run V inp k).csrIn.csrOpReg = r.addr) :
    ∃ u, k = u + 4 ∧ Posts V inp r u := by
  obtain ⟨u, rfl, hu⟩ := (csrOpValid_iff V).mp h.1
  exact ⟨u, rfl, hu, (csrOp_of_accepted V hu).2.1.symm.trans h.2⟩

/-- A register that was never posted holds its initial value. -/
theorem postedReg_never (hno : ∀ k < t, ¬Posts V inp r k) :
    (run V inp t).postedReg r = 0#32 := by
  induction t with
  | zero => cases r <;> rfl
  | succ t ih =>
      rw [postedReg_succ, if_neg, ih fun k hk => hno k (by omega)]
      intro h
      obtain ⟨u, rfl, hu⟩ := posts_of_csrOp h
      exact hno u (by omega) hu

/-- Five edges after its last write the register holds the value. -/
theorem postedReg_last (hu : Posts V inp r u) (hut : u + 5 ≤ t)
    (hno : ∀ k, u < k → k < t → ¬Posts V inp r k) :
    (run V inp t).postedReg r = csrWritten V inp u := by
  induction t, hut using Nat.le_induction with
  | base =>
      obtain ⟨hvalid, hreg, hdata⟩ := csrOp_of_accepted V hu.1
      rw [postedReg_succ, if_pos ⟨hvalid, hreg.trans hu.2⟩, hdata]
  | succ t ht ih =>
      rw [postedReg_succ, if_neg, ih fun k h1 h2 => hno k h1 (by omega)]
      intro h
      obtain ⟨k, rfl, hk⟩ := posts_of_csrOp h
      exact hno k (by omega) (by omega) hk

/-- When the machine has waited long enough the register holds its value. -/
theorem PostedAs.value (h : PostedAs V inp r p t) (hacc : (run V inp t).accepts (inp t) = true)
    (hset : p.Settled) : (run V inp t).postedReg r = p.value := by
  cases h with
  | never hno hp => rw [postedReg_never hno, hp]
  | last hu hut hno hp hage =>
      have hle := hage t le_rfl hacc
      have hset' : 5 ≤ p.age := hset
      rw [postedReg_last hu (by omega) hno, hp]

/-- An edge that accepts nothing. -/
theorem PostedAs.keep (h : PostedAs V inp r p t)
    (hacc : (run V inp t).accepts (inp t) = false) : PostedAs V inp r p (t + 1) := by
  have hnot : ¬Posts V inp r t := fun hp => by
    rw [hp.1.1] at hacc
    cases hacc
  cases h with
  | never hno hp =>
      refine .never (fun k hk => ?_) hp
      rcases Nat.lt_succ_iff_lt_or_eq.mp hk with hk | rfl
      · exact hno k hk
      · exact hnot
  | last hu hut hno hp hage =>
      refine .last hu (by omega) (fun k h1 h2 => ?_) hp fun v hv => hage v (by omega)
      rcases Nat.lt_succ_iff_lt_or_eq.mp h2 with hk | rfl
      · exact hno k h1 hk
      · exact hnot

/-- An instruction that writes another register, or none, and that takes {lit}`n` edges. -/
theorem PostedAs.wait (h : PostedAs V inp r p t) (hacc : (run V inp t).accepts (inp t) = true)
    (hnot : ¬Posts V inp r t) {n : ℕ}
    (hnext : ∀ v, t < v → (run V inp v).accepts (inp v) = true → t + n ≤ v) :
    PostedAs V inp r (p.wait n) (t + 1) := by
  cases h with
  | never hno hp =>
      refine .never (fun k hk => ?_) hp
      rcases Nat.lt_succ_iff_lt_or_eq.mp hk with hk | rfl
      · exact hno k hk
      · exact hnot
  | last hu hut hno hp hage =>
      refine .last hu (by omega) (fun k h1 h2 => ?_) hp fun v hv hv' => ?_
      · rcases Nat.lt_succ_iff_lt_or_eq.mp h2 with hk | rfl
        · exact hno k h1 hk
        · exact hnot
      · have hold := hage t le_rfl hacc
        have hnew := hnext v (by omega) hv'
        change _ + (p.age + n) ≤ v
        omega

/-- A write of the register. -/
theorem PostedAs.write (h : Posts V inp r t) : PostedAs V inp r ⟨csrWritten V inp t, 3⟩ (t + 1) :=
  .last h (Nat.lt_succ_self t) (fun k h1 h2 => by omega) rfl fun _ hv hv' =>
    h.1.le V (by omega) hv'

/-- An instruction with wait states holds up the next one. -/
theorem next_accepts {n : ℕ} (hn : n ≤ 2)
    (hst : n = 2 → (run V inp (t + 1)).state ≠ .running) :
    ∀ v, t < v → (run V inp v).accepts (inp v) = true → t + n ≤ v := by
  intro v hv hacc
  rcases Nat.lt_or_ge n 2 with hlt | hge
  · omega
  · obtain rfl : n = 2 := by omega
    have hne : v ≠ t + 1 := by
      rintro rfl
      exact hst rfl (accepts_iff.mp hacc).1
    omega

end Iexec

/-! ## Whole runs -/

/-- An RV32IM instruction is no CSR access for the decoder. -/
theorem Rv32.SysInstruction.EncodedBy.plain_not_access {s : Idecode} {ins : Instruction}
    (henc : SysInstruction.EncodedBy s.instR (.plain ins)) : isCsrAccess s.iexecIn = false := by
  simp [isCsrAccess, Instruction.EncodedBy.cmd_ne_csr henc]

/-- An access to SWITCH is no access for the bus. -/
theorem Rv32.SysInstruction.EncodedBy.switch_not_access {s : Idecode}
    (henc : SysInstruction.EncodedBy s.instR .switch) : isCsrAccess s.iexecIn = false := by
  rw [isCsrAccess, (iexecIn_csr henc.1).2.2.2.1, henc.2]
  simp

namespace Hart

section Runs

variable (V : Megafunctions) (imem : BitVec 32 → BitVec 32) (mem : BitVec 24 → BitVec 16)
  (inp : ℕ → HartInput)

/-- The inputs of the execute stage in a run. -/
def iexecInputs (t : ℕ) : IexecInput :=
  (run V imem mem inp t).data.iexecInput (dataInputs V imem mem inp t)

/-- The instruction accepted at edge {lit}`t` takes an interrupt. -/
def takesAt (t : ℕ) : Bool :=
  (run V imem mem inp t).data.iexec.takesIntr (iexecInputs V imem mem inp t)

/-- What the instruction accepted at edge {lit}`t` meets. -/
def eventAt (t : ℕ) : SysEvent :=
  if takesAt V imem mem inp t then .interrupted (inp t).intrOut.intrVec
  else if isCsrAccess (run V imem mem inp t).idecode.iexecIn then .read (inp (t + 3)).csrBus
  else .done

/-- The events of the instructions accepted before edge {lit}`t`. -/
def events (t : ℕ) : List SysEvent :=
  Clocked.log (fun t =>
    if acceptsAt V imem mem inp t then some (eventAt V imem mem inp t) else none) t

/-- The register file and the memory in step with the machine, also while a CSR is read. -/
inductive Engaged (m : RvMachine) (t : ℕ) : Prop where
  | plain (h : (run V imem mem inp t).data.InStep V m) : Engaged m t
  | settles
      (h : ((run V imem mem inp t).data.settle V (dataInputs V imem mem inp t)).InStep V m) :
      Engaged m t
  | reading {u : ℕ} {x : IexecChannelIn}
      (hu : Iexec.CsrAccepted V (iexecInputs V imem mem inp) u) (ht : t = u + 1 ∨ t = u + 2)
      (h : (run V imem mem inp t).data.Reading V x
        (Iexec.csrFound V (iexecInputs V imem mem inp) u) m) : Engaged m t

/-- The machine {lit}`m` has executed the instructions accepted before edge {lit}`t`. -/
structure SysFollows (m : SysMachine) (t : ℕ) : Prop where
  pc : continuesAt 0#32 (accepted V imem mem inp t) = m.rv.pc
  engaged : Engaged V imem mem inp m.rv t
  pcSave : (run V imem mem inp t).data.iexec.ctxPcSaveR = m.pcSave
  posted : ∀ r, Iexec.PostedAs V (iexecInputs V imem mem inp) r (m.posted r) t

variable {V imem mem inp} {t u : ℕ} {m : SysMachine} {rv : RvMachine}

/-- The execute stage runs as on its own. -/
theorem iexec_run (t : ℕ) :
    (run V imem mem inp t).data.iexec = Iexec.run V (iexecInputs V imem mem inp) t := by
  induction t with
  | zero => rfl
  | succ t ih =>
      rw [Iexec.run, Clocked.run]
      change _ = Iexec.step V (Iexec.run V _ t) _
      rw [← ih]
      rfl

/-- What is accepted. -/
theorem accepts_run :
    (Iexec.run V (iexecInputs V imem mem inp) t).accepts (iexecInputs V imem mem inp t) =
      acceptsAt V imem mem inp t := by
  rw [← iexec_run]
  rfl

/-- Without an instruction there is no event. -/
theorem events_succ_of_not (h : acceptsAt V imem mem inp t = false) :
    events V imem mem inp (t + 1) = events V imem mem inp t :=
  Clocked.log_succ_none (by simp [h])

/-- An accepted instruction is an event. -/
theorem events_succ (h : acceptsAt V imem mem inp t = true) :
    events V imem mem inp (t + 1) = events V imem mem inp t ++ [eventAt V imem mem inp t] :=
  Clocked.log_succ_some (by simp [h])

/-- Taking an interrupt saves the pc. -/
theorem ctxPcSaveR_succ (t : ℕ) : (run V imem mem inp (t + 1)).data.iexec.ctxPcSaveR =
    if acceptsAt V imem mem inp t && takesAt V imem mem inp t then
      (run V imem mem inp t).idecode.iexecIn.intrNextpc
    else (run V imem mem inp t).data.iexec.ctxPcSaveR :=
  Iexec.ctxPcSaveR_step _ _

/-! ### Edges that accept nothing -/

/-- The stage keeps working on its instruction. -/
theorem Engaged.step (h : Engaged V imem mem inp rv t)
    (hacc : acceptsAt V imem mem inp t = false) : Engaged V imem mem inp rv (t + 1) := by
  cases h with
  | plain h => exact .plain (h.step hacc)
  | settles h =>
      have hstep := h.step (i := dataInputs V imem mem inp t) hacc
      rw [DataUnit.step_settle] at hstep
      exact .plain hstep
  | @reading u x hu ht h =>
      have hline := Iexec.csrTimeline V hu
      rcases ht with rfl | rfl
      · refine .reading hu (.inr rfl) (h.step (i := dataInputs V imem mem inp (u + 1)) ?_)
        have hst := hline.waited.1
        rwa [← iexec_run] at hst
      · have hst := hline.done.1
        rw [← iexec_run] at hst
        refine .settles (h.done (i := dataInputs V imem mem inp (u + 2)) hst ?_)
        rw [Iexec.csrFound, ← iexec_run]
        rfl

/-- The machine waits while the stage works. -/
theorem SysFollows.step (h : SysFollows V imem mem inp m t)
    (hacc : acceptsAt V imem mem inp t = false) : SysFollows V imem mem inp m (t + 1) where
  pc := by rw [accepted_succ_of_not t hacc, h.pc]
  engaged := h.engaged.step hacc
  pcSave := by
    rw [ctxPcSaveR_succ, hacc]
    exact h.pcSave
  posted r := (h.posted r).keep (accepts_run.trans hacc)

/-! ### Accepted instructions -/

/-- In {lit}`RUNNING` the pending write is all that the stage owes. -/
theorem Engaged.settled (h : Engaged V imem mem inp rv t)
    (hst : (run V imem mem inp t).data.iexec.state = .running) :
    ((run V imem mem inp t).data.settle V (dataInputs V imem mem inp t)).InStep V rv := by
  cases h with
  | plain h => exact h.settle hst _
  | settles h => exact h
  | reading _ _ h => exact absurd hst h.not_running

/-- In {lit}`RUNNING` the operands are the registers of the machine. -/
theorem SysFollows.operand (h : SysFollows V imem mem inp m t)
    (hst : (run V imem mem inp t).data.iexec.state = .running) (r : BitVec 5) :
    (run V imem mem inp t).data.iexec.operand V (iexecInputs V imem mem inp t) r =
      m.rv.regs r := by
  rw [← (h.engaged.settled hst).operand hst (dataInputs V imem mem inp t) r]
  exact (Iexec.operand_settle r).symm

/-- The instruction accepted at edge {lit}`t`, seen by the machine. -/
structure Accepting (V : Megafunctions) (imem : BitVec 32 → BitVec 32)
    (mem : BitVec 24 → BitVec 16) (inp : ℕ → HartInput) (m : SysMachine) (t : ℕ) : Prop where
  follows : SysFollows V imem mem inp m t
  accepts : acceptsAt V imem mem inp t = true

namespace Accepting

variable (h : Accepting V imem mem inp m t)

include h

/-- An accepting stage is in {lit}`RUNNING`. -/
theorem running : (run V imem mem inp t).data.iexec.state = .running :=
  (Core.accepts_iff.mp h.accepts).1

/-- The settled stage is in step with the machine. -/
theorem inStep :
    ((run V imem mem inp t).data.settle V (dataInputs V imem mem inp t)).InStep V m.rv :=
  h.follows.engaged.settled h.running

/-- The operands are the registers of the machine. -/
theorem operand (r : BitVec 5) :
    (run V imem mem inp t).data.iexec.operand V (iexecInputs V imem mem inp t) r = m.rv.regs r :=
  h.follows.operand h.running r

/-- The instruction is the next one of the program. -/
theorem isNext : IsNext imem m.rv.pc (run V imem mem inp t).idecode.pcR ∧
    (run V imem mem inp t).idecode.instR = imem (run V imem mem inp t).idecode.pcR := by
  obtain ⟨hpc, hinst, -⟩ := (flow t).step_of_accepts (V := V) (stagesOk t) _ h.accepts
  rw [h.follows.pc] at hpc
  exact ⟨hpc, hinst⟩

/-- A settled register behind the CSR bus has the value of the machine. -/
theorem posted {r : PostedCsr} (hset : (m.posted r).Settled) :
    (run V imem mem inp t).data.iexec.postedReg r = (m.posted r).value := by
  rw [iexec_run]
  exact (h.follows.posted r).value (accepts_run.trans h.accepts) hset

/-- The program goes on where the stage says. -/
theorem continuesAt_succ : continuesAt 0#32 (accepted V imem mem inp (t + 1)) =
    (run V imem mem inp t).core.acceptedNextPc
      ((run V imem mem inp t).core.step V imem ((run V imem mem inp t).coreInput (inp t))) := by
  obtain ⟨a, hlog, ha⟩ := accepted_succ t h.accepts
  rw [hlog, continuesAt_concat, ha]

/-- The registers behind the CSR bus wait while another instruction is executed. -/
theorem posted_wait {n : ℕ} (hn : n ≤ 2)
    (hst : n = 2 → Iexec.acceptState (run V imem mem inp t).idecode.iexecIn ≠ .running)
    (hnot : ∀ r, ¬Iexec.Posts V (iexecInputs V imem mem inp) r t) (r : PostedCsr) :
    Iexec.PostedAs V (iexecInputs V imem mem inp) r ((m.posted r).wait n) (t + 1) := by
  refine (h.follows.posted r).wait (accepts_run.trans h.accepts) (hnot r)
    (Iexec.next_accepts hn fun htwo => ?_)
  have hstate : (run V imem mem inp (t + 1)).data.iexec.state =
      Iexec.acceptState (run V imem mem inp t).idecode.iexecIn :=
    DataUnit.state_accept (i := dataInputs V imem mem inp t) h.accepts
  rw [← iexec_run, hstate]
  exact hst htwo

/-- An RV32IM instruction on registers, memory and the registers behind the CSR bus. -/
theorem plain (hV : V.Exact) {ins : Instruction}
    (henc : ins.EncodedBy (run V imem mem inp t).idecode.instR)
    (hexec : { m.rv with pc := (run V imem mem inp t).idecode.pcR }.exec ins = some rv) :
    (∀ pc, Engaged V imem mem inp { rv with pc := pc } (t + 1)) ∧ ∀ r,
      Iexec.PostedAs V (iexecInputs V imem mem inp) r ((m.posted r).wait ins.edges) (t + 1) := by
  constructor
  · intro pc
    have hstep := h.inStep.accept (i := dataInputs V imem mem inp t) hV (wellFormed t).settle
      h.accepts rfl henc hexec
    rw [DataUnit.step_settle] at hstep
    exact .plain (hstep.withPc pc)
  · refine h.posted_wait ins.edges_le henc.waits fun r hr => henc.cmd_ne_csr ?_
    have hcsr := hr.1.2
    rw [isCsrAccess, Bool.and_eq_true, beq_iff_eq] at hcsr
    exact hcsr.1

/-- An RV32IM instruction without an interrupt. -/
theorem follows_plain (hV : V.Exact) (hintr : takesAt V imem mem inp t = false)
    {ins : Instruction} (henc : ins.EncodedBy (run V imem mem inp t).idecode.instR)
    (hexec : { m.rv with pc := (run V imem mem inp t).idecode.pcR }.exec ins = some rv) :
    SysFollows V imem mem inp (m.advance rv ins.edges) (t + 1) where
  pc := h.continuesAt_succ.trans
    (Core.acceptedNextPc_eq (stagesOk t) h.accepts hintr h.operand henc hexec)
  engaged := (h.plain hV henc hexec).1 _
  pcSave := by
    rw [ctxPcSaveR_succ, hintr, Bool.and_false]
    exact h.follows.pcSave
  posted := (h.plain hV henc hexec).2

/-- An RV32IM instruction with an interrupt. -/
theorem follows_interrupted (hV : V.Exact) (hintr : takesAt V imem mem inp t = true)
    {ins : Instruction} (henc : ins.EncodedBy (run V imem mem inp t).idecode.instR)
    (hexec : { m.rv with pc := (run V imem mem inp t).idecode.pcR }.exec ins = some rv)
    (hset : (m.posted .ivector).Settled) :
    SysFollows V imem mem inp (m.interrupt (run V imem mem inp t).idecode.pcR ins rv
      (inp t).intrOut.intrVec) (t + 1) where
  pc := by
    rw [h.continuesAt_succ, Core.acceptedNextPc_interrupted h.accepts hintr]
    exact congrArg (vectorAddr · _) (h.posted hset)
  engaged := (h.plain hV henc hexec).1 _
  pcSave := by
    rw [ctxPcSaveR_succ, h.accepts, hintr, Bool.and_self, if_pos rfl]
    exact (Core.interrupted_returnPc (stagesOk t) h.accepts hintr henc).2
  posted := (h.plain hV henc hexec).2

/-! ### CSR instructions -/

/-- A CSR instruction takes no interrupt. -/
theorem csr_takesAt (hop : Rv32.opcode (run V imem mem inp t).idecode.instR = 0b1110011#7) :
    takesAt V imem mem inp t = false :=
  (Core.csr_flags (stagesOk t) h.accepts hop).2

/-- A CSR instruction keeps the saved pc. -/
theorem csr_pcSave (hop : Rv32.opcode (run V imem mem inp t).idecode.instR = 0b1110011#7) :
    (run V imem mem inp (t + 1)).data.iexec.ctxPcSaveR = m.pcSave := by
  rw [ctxPcSaveR_succ, h.csr_takesAt hop, Bool.and_false]
  exact h.follows.pcSave

section Access

variable {op : CsrOp} {rd : BitVec 5} {src : CsrSource} {reg : BitVec 12}
  (henc : SysInstruction.EncodedBy (run V imem mem inp t).idecode.instR (.csr op rd src reg))

include henc

/-- A CSR access is accepted. -/
theorem csrAccepted : Iexec.CsrAccepted V (iexecInputs V imem mem inp) t := by
  obtain ⟨hop, -, -, -, rfl, hreg⟩ := henc
  obtain ⟨hcmd, -, -, hcsr, -⟩ := iexecIn_csr hop
  refine ⟨accepts_run.trans h.accepts, ?_⟩
  change isCsrAccess (run V imem mem inp t).idecode.iexecIn = true
  rw [isCsrAccess, hcmd, hcsr]
  simpa using hreg

/-- The access finds what the machine finds. -/
theorem csrFound_eq : Iexec.csrFound V (iexecInputs V imem mem inp) t =
    m.csrOld reg (inp (t + 3)).csrBus := by
  have hacc := h.csrAccepted henc
  have hline := Iexec.csrTimeline V hacc
  have hquiet : ∀ u, t < u → u < t + 3 → acceptsAt V imem mem inp u = false := by
    intro u htu hut
    by_contra hu
    rw [Bool.not_eq_false, ← accepts_run] at hu
    have := hacc.le V htu hu
    omega
  have hsave : (Iexec.run V (iexecInputs V imem mem inp) (t + 3)).ctxPcSaveR = m.pcSave := by
    rw [← iexec_run, ctxPcSaveR_succ, hquiet _ (by omega) (by omega), Bool.false_and,
      if_neg Bool.false_ne_true, ctxPcSaveR_succ, hquiet _ (by omega) (by omega), Bool.false_and,
      if_neg Bool.false_ne_true, h.csr_pcSave henc.1]
  have hreg : (Iexec.run V (iexecInputs V imem mem inp) (t + 3)).csrIn.csrSelReg = reg :=
    hline.last.selReg.trans ((iexecIn_csr henc.1).2.2.2.1.trans henc.2.2.2.2.1.symm)
  rw [Iexec.csrFound, Iexec.csrSelResult, hreg, hsave]
  rfl

/-- The access leaves what the machine leaves. -/
theorem csrWritten_eq : Iexec.csrWritten V (iexecInputs V imem mem inp) t =
    csrUpdate op.code (src.value m.rv.regs) (m.csrOld reg (inp (t + 3)).csrBus) := by
  have hfound := h.csrFound_eq henc
  obtain ⟨hop, hcode, -, hsrc, -, -⟩ := henc
  obtain ⟨-, hcmdOp, huse, -, hrs2, himm⟩ := iexecIn_csr hop
  have hsub : (iexecInputs V imem mem inp t).iexecIn.cmdOp.extractLsb' 0 2 = op.code :=
    (congrArg (BitVec.extractLsb' 0 2) hcmdOp).trans ((cmdOp_low _).trans hcode)
  have hoperand : Iexec.csrOperand V (Iexec.run V (iexecInputs V imem mem inp) t)
      (iexecInputs V imem mem inp t) = src.value m.rv.regs := by
    rw [← iexec_run]
    change (if (run V imem mem inp t).idecode.iexecIn.cmdUseReg = false then
      (run V imem mem inp t).idecode.iexecIn.imm
      else (run V imem mem inp t).data.iexec.operand V (iexecInputs V imem mem inp t)
        (run V imem mem inp t).idecode.iexecIn.rs2) = _
    rw [huse, h.operand, hrs2, himm]
    cases src with
    | reg r =>
        obtain ⟨rfl, hbit⟩ := hsrc
        rw [hbit]
        rfl
    | imm z =>
        obtain ⟨rfl, hbit⟩ := hsrc
        rw [hbit]
        rfl
  rw [Iexec.csrWritten, hsub, hoperand, hfound]

/-- A CSR access. -/
theorem follows_access : SysFollows V imem mem inp
    (m.access (run V imem mem inp t).idecode.pcR op rd src reg (inp (t + 3)).csrBus) (t + 1) where
  pc := by
    have hreg := henc.2.2.2.2
    rw [hreg.1] at hreg
    exact h.continuesAt_succ.trans
      (Core.acceptedNextPc_access (stagesOk t) h.accepts henc.1 hreg.2)
  engaged := by
    refine .reading (h.csrAccepted henc) (.inl rfl)
      (x := (run V imem mem inp t).idecode.iexecIn) ?_
    have hrd : (run V imem mem inp t).idecode.iexecIn.rd = rd :=
      (iexecIn_rd henc.1 (by decide)).trans henc.2.2.1.symm
    have hregs : (m.access (run V imem mem inp t).idecode.pcR op rd src reg
        (inp (t + 3)).csrBus).rv.regs = m.rv.regs.write (run V imem mem inp t).idecode.iexecIn.rd
          (m.csrOld reg (inp (t + 3)).csrBus) := congrArg (m.rv.regs.write · _) hrd.symm
    have hstep := h.inStep.access (i := dataInputs V imem mem inp t) h.accepts
      (h.csrAccepted henc).2 hregs rfl
    rw [DataUnit.step_settle] at hstep
    rw [h.csrFound_eq henc]
    exact hstep
  pcSave := h.csr_pcSave henc.1
  posted := by
    intro r
    have hcsr : (iexecInputs V imem mem inp t).iexecIn.csrReg = reg :=
      (iexecIn_csr henc.1).2.2.2.1.trans henc.2.2.2.2.1.symm
    have hacc := h.csrAccepted henc
    change Iexec.PostedAs V _ r (if reg = r.addr then _ else _) (t + 1)
    by_cases hr : reg = r.addr
    · rw [if_pos hr, ← h.csrWritten_eq henc]
      exact .write ⟨hacc, hcsr.trans hr⟩
    · rw [if_neg hr]
      exact (h.follows.posted r).wait hacc.1 (fun hp => hr (hcsr.symm.trans hp.2))
        fun v hv hv' => hacc.le V hv hv'

end Access

/-- An access to SWITCH. -/
theorem follows_switch (hop : Rv32.opcode (run V imem mem inp t).idecode.instR = 0b1110011#7)
    (hreg : csrNumber (run V imem mem inp t).idecode.instR = csrRegSwitch)
    (hset : (m.posted .pcSwitch).Settled) :
    SysFollows V imem mem inp
      (m.advance { m.rv with pc := (m.posted .pcSwitch).value } 1) (t + 1) := by
  obtain ⟨hcmd, -, -, hcsr, -⟩ := iexecIn_csr hop
  have hstate : Iexec.acceptState (run V imem mem inp t).idecode.iexecIn = .running := by
    rw [Iexec.acceptState, hcmd, hcsr, hreg]
    rfl
  constructor
  · rw [h.continuesAt_succ, Core.acceptedNextPc_switch (stagesOk t) h.accepts hop hreg]
    exact h.posted hset
  · have hwren : ((run V imem mem inp t).data.step V
        (dataInputs V imem mem inp t)).iexec.regfileWren = false := by
      have hcmd' : (dataInputs V imem mem inp t).iexecIn.cmd = .csr := hcmd
      rw [DataUnit.regfileWren_accept (i := dataInputs V imem mem inp t) h.accepts, hcmd']
      rfl
    have hrun : ((run V imem mem inp t).data.step V
        (dataInputs V imem mem inp t)).iexec.state = .running :=
      (DataUnit.state_accept (i := dataInputs V imem mem inp t) h.accepts).trans hstate
    rw [← DataUnit.step_settle] at hwren hrun
    have hstep := h.inStep.accept_silent (i := dataInputs V imem mem inp t) h.accepts hrun hwren
      (rfl : m.rv.regs = m.rv.regs) (rfl : m.rv.mem = m.rv.mem)
    rw [DataUnit.step_settle] at hstep
    exact .plain (hstep.withPc _)
  · exact h.csr_pcSave hop
  · refine h.posted_wait (by decide) (by omega) fun r hp => ?_
    have haccess := hp.1.2
    change isCsrAccess (run V imem mem inp t).idecode.iexecIn = true at haccess
    rw [isCsrAccess, hcsr, hreg] at haccess
    simp at haccess

/-! ### One instruction -/

omit h in
/-- The event of an interrupted instruction. -/
theorem eventAt_interrupted (hintr : takesAt V imem mem inp t = true) :
    eventAt V imem mem inp t = .interrupted (inp t).intrOut.intrVec := by
  rw [eventAt, if_pos hintr]

/-- The event of a CSR read. -/
theorem eventAt_read {op : CsrOp} {rd : BitVec 5} {src : CsrSource} {reg : BitVec 12}
    (henc : SysInstruction.EncodedBy (run V imem mem inp t).idecode.instR (.csr op rd src reg)) :
    eventAt V imem mem inp t = .read (inp (t + 3)).csrBus := by
  have hcsr : isCsrAccess (run V imem mem inp t).idecode.iexecIn = true := (h.csrAccepted henc).2
  rw [eventAt, h.csr_takesAt henc.1, if_neg Bool.false_ne_true, if_pos hcsr]

omit h in
/-- The event of other instructions. -/
theorem eventAt_done (hintr : takesAt V imem mem inp t = false)
    (hcsr : isCsrAccess (run V imem mem inp t).idecode.iexecIn = false) :
    eventAt V imem mem inp t = .done := by
  rw [eventAt, hintr, hcsr]
  rfl

/-- A step of the machine keeps it in step with the processor. -/
theorem follows_next (hV : V.Exact) {m' : SysMachine}
    (hnext : m.Next imem (eventAt V imem mem inp t) m') :
    SysFollows V imem mem inp m' (t + 1) := by
  obtain ⟨hpc, hinst⟩ := h.isNext
  obtain ⟨q, ins, hq, henc, hexec⟩ := hnext
  obtain rfl := hq.unique hpc
  rw [← hinst] at henc
  cases ins with
  | plain ins =>
      have hcsr := henc.plain_not_access
      cases hintr : takesAt V imem mem inp t with
      | false =>
          rw [eventAt_done hintr hcsr, SysMachine.exec, Option.map_eq_some_iff] at hexec
          obtain ⟨rv, hrv, rfl⟩ := hexec
          exact h.follows_plain hV hintr henc hrv
      | true =>
          rw [eventAt_interrupted hintr, SysMachine.exec] at hexec
          split at hexec
          case isTrue hset =>
            obtain ⟨rv, hrv, rfl⟩ := Option.map_eq_some_iff.mp hexec
            exact h.follows_interrupted hV hintr henc hrv hset.2
          case isFalse => cases hexec
  | csr op rd src reg =>
      rw [h.eventAt_read henc] at hexec
      obtain rfl := Option.some.inj hexec
      exact h.follows_access henc
  | switch =>
      have hcsr := henc.switch_not_access
      obtain ⟨hop, hreg⟩ := henc
      rw [eventAt_done (h.csr_takesAt hop) hcsr, SysMachine.exec] at hexec
      split at hexec
      case isTrue hset =>
        obtain rfl := Option.some.inj hexec
        exact h.follows_switch hop hreg hset
      case isFalse => cases hexec

/-- The machine executes what it can execute, with the event of the run. -/
theorem exists_next (hready : m.Ready imem (takesAt V imem mem inp t)) :
    ∃ m', m.Next imem (eventAt V imem mem inp t) m' := by
  obtain ⟨hpc, hinst⟩ := h.isNext
  obtain ⟨q, ins, hq, henc, hallow⟩ := hready
  obtain rfl := hq.unique hpc
  suffices hstep : ∃ m', m.exec (run V imem mem inp t).idecode.pcR ins
      (eventAt V imem mem inp t) = some m' by
    obtain ⟨m', hexec⟩ := hstep
    exact ⟨m', _, ins, hq, henc, hexec⟩
  rw [← hinst] at henc
  cases ins with
  | plain ins =>
      obtain ⟨rv, hexec⟩ := Option.isSome_iff_exists.mp hallow.1
      cases hintr : takesAt V imem mem inp t with
      | false =>
          rw [eventAt_done hintr henc.plain_not_access, SysMachine.exec, hexec]
          exact ⟨_, rfl⟩
      | true =>
          have hable := (Core.interrupted_returnPc (stagesOk t) h.accepts hintr henc).1
          rw [eventAt_interrupted hintr, SysMachine.exec, if_pos ⟨hable, hallow.2 hintr⟩, hexec]
          exact ⟨_, rfl⟩
  | csr op rd src reg =>
      rw [h.eventAt_read henc]
      exact ⟨_, rfl⟩
  | switch =>
      rw [eventAt_done (h.csr_takesAt henc.1) henc.switch_not_access]
      exact ⟨_, if_pos hallow⟩

end Accepting

/-- At power-up the machine has executed nothing. -/
theorem sysFollows_zero : SysFollows V imem mem inp (.boot (byteAt mem)) 0 where
  pc := rfl
  engaged := .plain (@follows_zero V imem mem inp).data
  pcSave := rfl
  posted _ := .never (fun k hk => absurd hk (Nat.not_lt_zero k)) rfl

/-- The machine stands in front of an instruction of the run that it cannot execute. -/
structure Stopped (V : Megafunctions) (imem : BitVec 32 → BitVec 32) (mem : BitVec 24 → BitVec 16)
    (inp : ℕ → HartInput) (t : ℕ) (m : SysMachine) : Prop where
  after : SysMachine.After imem (.boot (byteAt mem)) (events V imem mem inp t) m
  accepts : acceptsAt V imem mem inp t = true
  stops : ¬m.Ready imem (takesAt V imem mem inp t)

/-- Every run is in step with the machine. -/
theorem sysFollows_run (hV : V.Exact) (t : ℕ) :
    ∀ m, SysMachine.After imem (.boot (byteAt mem)) (events V imem mem inp t) m →
      SysFollows V imem mem inp m t := by
  induction t with
  | zero =>
      intro m hm
      have h0 : SysMachine.After imem (.boot (byteAt mem)) [] m := hm
      cases h0.eq_nil
      exact sysFollows_zero
  | succ t ih =>
      intro m hm
      cases hacc : acceptsAt V imem mem inp t with
      | false =>
          rw [events_succ_of_not hacc] at hm
          exact (ih m hm).step hacc
      | true =>
          rw [events_succ hacc] at hm
          obtain ⟨m₁, h₁, hnext⟩ := hm.last
          exact Accepting.follows_next ⟨ih m₁ h₁, hacc⟩ hV hnext

/-- The machine executes the run up to an instruction that it cannot execute. -/
theorem exists_after (hV : V.Exact) (t : ℕ) :
    (∃ m, SysMachine.After imem (.boot (byteAt mem)) (events V imem mem inp t) m) ∨
      ∃ u < t, ∃ m, Stopped V imem mem inp u m := by
  induction t with
  | zero => exact .inl ⟨_, .nil⟩
  | succ t ih =>
      rcases ih with ⟨m, hm⟩ | ⟨u, hu, hstop⟩
      · cases hacc : acceptsAt V imem mem inp t with
        | false =>
            rw [events_succ_of_not hacc]
            exact .inl ⟨m, hm⟩
        | true =>
            by_cases hready : m.Ready imem (takesAt V imem mem inp t)
            · obtain ⟨m', hnext⟩ := Accepting.exists_next ⟨sysFollows_run hV t m hm, hacc⟩ hready
              rw [events_succ hacc]
              exact .inl ⟨m', hm.snoc hnext⟩
            · exact .inr ⟨t, Nat.lt_succ_self t, m, hm, hacc, hready⟩
      · exact .inr ⟨u, by omega, hstop⟩

/-- Edges that accept nothing add no event. -/
theorem events_eq_of_quiet (htu : t ≤ u)
    (hquiet : ∀ v, t ≤ v → v < u → acceptsAt V imem mem inp v = false) :
    events V imem mem inp u = events V imem mem inp t := by
  induction u, htu using Nat.le_induction with
  | base => rfl
  | succ u htu ih =>
      rw [events_succ_of_not (hquiet u htu (Nat.lt_succ_self u)),
        ih fun v htv hvu => hquiet v htv (by omega)]

/-- The next instruction of the program is accepted in the end. -/
theorem Fair.eventually_accepts (h : Fair inp) {q : BitVec 32}
    (hq : IsNext imem (continuesAt 0#32 (accepted V imem mem inp t)) q) :
    ∃ u, t ≤ u ∧ acceptsAt V imem mem inp u = true ∧
      events V imem mem inp u = events V imem mem inp t := by
  classical
  have hfin : FiniteStalls V imem (coreInputs V imem mem inp) := h.finiteStalls
  have hex : ∃ u, t ≤ u ∧ acceptsAt V imem mem inp u = true := by
    obtain ⟨u, htu, hu⟩ := Sumeru.eventually_accepts hfin t hq
    refine ⟨u, htu, ?_⟩
    rw [acceptsAt, core_run]
    exact hu
  obtain ⟨htu, hacc⟩ := Nat.find_spec hex
  refine ⟨Nat.find hex, htu, hacc, events_eq_of_quiet htu fun v htv hvu => ?_⟩
  rw [← Bool.not_eq_true]
  exact fun hv => Nat.find_min hex hvu ⟨htv, hv⟩

variable (V imem mem inp) in
/-- What the processor shows of the machine between two instructions: with the operands and
the memory the saved program counter, the next instruction, and where interrupts and
switches go when it is accepted. -/
structure SysShows (m : SysMachine) (t : ℕ) : Prop where
  regs : ∀ r, (run V imem mem inp t).data.iexec.operand V (iexecInputs V imem mem inp t) r =
    m.rv.regs r
  bytes : ∀ a, (run V imem mem inp t).data.view.value a = m.rv.mem a
  pcSave : (run V imem mem inp t).data.iexec.ctxPcSaveR = m.pcSave
  pc : acceptsAt V imem mem inp t = true → IsNext imem m.rv.pc (run V imem mem inp t).idecode.pcR ∧
    (run V imem mem inp t).idecode.instR = imem (run V imem mem inp t).idecode.pcR
  posted : acceptsAt V imem mem inp t = true → ∀ r, (m.posted r).Settled →
    (run V imem mem inp t).data.iexec.postedReg r = (m.posted r).value

/-- In {lit}`RUNNING` the processor shows the machine that it is in step with. -/
theorem SysFollows.shows (h : SysFollows V imem mem inp m t)
    (hst : (run V imem mem inp t).data.iexec.state = .running) :
    SysShows V imem mem inp m t where
  regs := h.operand hst
  bytes := ((h.engaged.settled hst).coherent hst).value_eq
  pcSave := h.pcSave
  pc hacc := Accepting.isNext ⟨h, hacc⟩
  posted hacc _ hset := Accepting.posted ⟨h, hacc⟩ hset

end Runs

end Hart

open Hart

/-- Interrupts are precise.  For every timing of the caches, the memory channel, the CSR bus
and the interrupt requests: when the machine executes the instructions accepted so far, with
an interrupt at the instructions that took one, the processor in {lit}`RUNNING` shows it; the
machine executes them up to an instruction that it cannot execute; and if every stall is
finite, the next instruction is accepted. -/
theorem hart_precise_interrupts (V : Megafunctions) (hV : V.Exact)
    (imem : BitVec 32 → BitVec 32) (mem : BitVec 24 → BitVec 16) (inp : ℕ → HartInput) (t : ℕ) :
    (∀ m, SysMachine.After imem (.boot (byteAt mem)) (events V imem mem inp t) m →
      (run V imem mem inp t).data.iexec.state = .running → SysShows V imem mem inp m t) ∧
    ((∃ m, SysMachine.After imem (.boot (byteAt mem)) (events V imem mem inp t) m) ∨
      ∃ u < t, ∃ m, Stopped V imem mem inp u m) ∧
    (Fair inp → ∀ m q, SysMachine.After imem (.boot (byteAt mem)) (events V imem mem inp t) m →
      IsNext imem m.rv.pc q → ∃ u, t ≤ u ∧ acceptsAt V imem mem inp u = true ∧
        events V imem mem inp u = events V imem mem inp t) := by
  refine ⟨fun m hm hst => (sysFollows_run hV t m hm).shows hst, exists_after hV t, ?_⟩
  intro hfair m q hm hq
  rw [← (sysFollows_run hV t m hm).pc] at hq
  exact hfair.eventually_accepts hq

/-- A cycle without a stall that shows the trigger of an interrupt with vector 3. -/
def HartInput.requesting : HartInput := { HartInput.prompt with intrOut := ⟨true, 3#4⟩ }

/-- The instruction {lit}`addi x1, x1, 5`. -/
theorem encodedBy_addi : SysInstruction.EncodedBy 0x00508093#32
    (.plain (.base (.opImm .add 1#5 1#5 5#32))) :=
  ⟨rfl, rfl, by decide, (fun h => by cases h), rfl, rfl, by decide⟩

/-- The machine executes {lit}`addi x1, x1, 5`, interrupted or not. -/
theorem Rv32.SysMachine.next_addi {m : SysMachine} (hset : (m.posted .ivector).Settled) {e : SysEvent}
    (he : e = .done ∨ ∃ vec, e = .interrupted vec) :
    ∃ m', m.Next (fun _ => 0x00508093#32) e m' ∧ (m'.posted .ivector).Settled ∧
      m'.rv.regs 1#5 = m.rv.regs 1#5 + 5#32 := by
  have hq : IsNext (fun _ => 0x00508093#32) m.rv.pc m.rv.pc :=
    ⟨.refl _, show isFenceI 0x00508093#32 = false from rfl⟩
  have hset' : ((m.posted .ivector).wait 1).Settled := Nat.le_add_right_of_le hset
  rcases he with rfl | ⟨vec, rfl⟩
  · exact ⟨_, ⟨_, _, hq, encodedBy_addi, rfl⟩, hset', rfl⟩
  · exact ⟨_, ⟨_, _, hq, encodedBy_addi, if_pos ⟨trivial, hset⟩⟩, hset', rfl⟩

/-- In a memory full of {lit}`addi x1, x1, 5` one more instruction is accepted and executed. -/
theorem Hart.Fair.next_addi {V : Megafunctions} (hV : V.Exact) {mem : BitVec 24 → BitVec 16}
    {inp : ℕ → HartInput} (hfair : Fair inp) {t : ℕ} {m : SysMachine}
    (hm : SysMachine.After (fun _ => 0x00508093#32) (.boot (byteAt mem))
      (events V (fun _ => 0x00508093#32) mem inp t) m) (hset : (m.posted .ivector).Settled) :
    ∃ u m', SysMachine.After (fun _ => 0x00508093#32) (.boot (byteAt mem))
        (events V (fun _ => 0x00508093#32) mem inp u) m' ∧
      (events V (fun _ => 0x00508093#32) mem inp u).length =
        (events V (fun _ => 0x00508093#32) mem inp t).length + 1 ∧
      (m'.posted .ivector).Settled ∧ m'.rv.regs 1#5 = m.rv.regs 1#5 + 5#32 := by
  have hfollows := sysFollows_run hV t m hm
  have hq : IsNext (fun _ => 0x00508093#32) (continuesAt 0#32
      (accepted V (fun _ => 0x00508093#32) mem inp t)) m.rv.pc := by
    rw [hfollows.pc]
    exact ⟨.refl _, show isFenceI 0x00508093#32 = false from rfl⟩
  obtain ⟨u, -, hacc, hu⟩ := hfair.eventually_accepts hq
  rw [← hu] at hm
  have hevent : eventAt V (fun _ => 0x00508093#32) mem inp u = .done ∨
      ∃ vec, eventAt V (fun _ => 0x00508093#32) mem inp u = .interrupted vec := by
    cases hintr : takesAt V (fun _ => 0x00508093#32) mem inp u with
    | true => exact .inr ⟨_, Accepting.eventAt_interrupted hintr⟩
    | false =>
        have hinst := (Accepting.isNext ⟨sysFollows_run hV u m hm, hacc⟩).2.symm
        have henc := encodedBy_addi
        rw [hinst] at henc
        exact .inl (Accepting.eventAt_done hintr henc.plain_not_access)
  obtain ⟨m', hnext, hset', hregs⟩ := SysMachine.next_addi hset hevent
  refine ⟨u + 1, m', ?_, ?_, hset', hregs⟩
  · rw [events_succ hacc]
    exact hm.snoc hnext
  · rw [events_succ hacc, List.length_append, List.length_singleton, hu]

/-- In a memory full of {lit}`addi x1, x1, 5` two instructions bring register 1 to 10, with an
interrupt on the way. -/
theorem hart_precise_interrupts_addi :
    ∃ t, (events .documented (fun _ => 0x00508093#32) (fun _ => 0#16) (fun _ => .requesting)
        t).length = 2 ∧
      (run .documented (fun _ => 0x00508093#32) (fun _ => 0#16)
        (fun _ => .requesting) t).data.iexec.operand .documented
        (iexecInputs .documented (fun _ => 0x00508093#32) (fun _ => 0#16)
          (fun _ => .requesting) t) 1#5 = 10#32 := by
  have hfair : Fair fun _ => .requesting := ⟨fun t => ⟨t, le_rfl, rfl⟩, fun t => ⟨t, le_rfl, rfl⟩,
    fun t => ⟨t, le_rfl, rfl⟩⟩
  have h₀ : SysMachine.After (fun _ => 0x00508093#32) (.boot (byteAt fun _ => 0#16))
      (events .documented (fun _ => 0x00508093#32) (fun _ => 0#16) (fun _ => .requesting) 0)
      (.boot (byteAt fun _ => 0#16)) := .nil
  obtain ⟨t₁, m₁, h₁, hlen₁, hset₁, hregs₁⟩ := hfair.next_addi documented_exact h₀ le_rfl
  obtain ⟨t₂, m₂, h₂, hlen₂, hset₂, hregs₂⟩ := hfair.next_addi documented_exact h₁ hset₁
  obtain ⟨-, -, hprogress⟩ := hart_precise_interrupts .documented documented_exact
    (fun _ => 0x00508093#32) (fun _ => 0#16) (fun _ => .requesting) t₂
  obtain ⟨u, -, hacc, hu⟩ := hprogress hfair m₂ m₂.rv.pc h₂
    ⟨.refl _, show isFenceI 0x00508093#32 = false from rfl⟩
  rw [← hu] at h₂ hlen₂
  obtain ⟨hshows, -, -⟩ := hart_precise_interrupts .documented documented_exact
    (fun _ => 0x00508093#32) (fun _ => 0#16) (fun _ => .requesting) u
  refine ⟨u, ?_, ?_⟩
  · rw [hlen₂, hlen₁]
    rfl
  · rw [(hshows m₂ h₂ (Core.accepts_iff.mp hacc).1).regs, hregs₂, hregs₁]
    rfl

end Sumeru
