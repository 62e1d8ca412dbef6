import Mathlib.Logic.Function.Basic
import Sumeru.Cpu.CsrAccess

/-!
# Sumeru - GPIO, timer and the plain CSR registers

The blocks {lit}`csr_gpio` and {lit}`csr_timer` behind the CSR bus of the execute stage.
The registers {lit}`GPIO_DIR`, {lit}`GPIO_OUTPUT` and {lit}`TIMER_CTRL` are changed by CSR
instructions only.  An access writes its register two edges after it has read it, and the
next access is accepted in between.  The sequential machine of this file executes the
accesses one after the other on registers of its own; a run cannot be told apart from it.

Main results:

- Theorem {lit}`CsrUnit.inFlight_csr_cases`: an access completes three edges after its acceptance.
- Theorem {lit}`CsrUnit.archState_run`: the processor registers and the plain CSR registers of
  a run are those of the sequential machine.
- Theorem {lit}`csr_program_order`: every access reads, and updates, what the previous one left.
-/

namespace Sumeru

/-! ## The devices -/

/-- Registers of {lit}`csr_gpio`. -/
structure CsrGpio where
  regOutput : BitVec 32
  regDir : BitVec 32
deriving DecidableEq

namespace CsrGpio

def init : CsrGpio := ⟨0#32, 0#32⟩

/-- The net {lit}`gpio`: the block drives the lines whose direction bit is set, the pins show
on the others. -/
def gpio (g : CsrGpio) (pins : BitVec 32) : BitVec 32 :=
  (g.regDir &&& g.regOutput) ||| (~~~g.regDir &&& pins)

/-- What the block drives on {lit}`csr_sel_result`; {lit}`none` is high impedance. -/
def csrSelResult (g : CsrGpio) (pins : BitVec 32) (csrSelReg : BitVec 12) : Option (BitVec 32) :=
  if csrSelReg = csrRegGpioDir then some g.regDir
  else if csrSelReg = csrRegGpioOutput then some g.regOutput
  else if csrSelReg = csrRegGpioInput then some (g.gpio pins)
  else none

/-- One rising edge of {lit}`clk`. -/
def step (g : CsrGpio) (csrIn : CsrChannelIn) : CsrGpio :=
  if csrIn.csrOpValid then
    if csrIn.csrOpReg = csrRegGpioDir then { g with regDir := csrIn.csrOpData }
    else if csrIn.csrOpReg = csrRegGpioOutput then { g with regOutput := csrIn.csrOpData }
    else g
  else g

end CsrGpio

/-- Registers of {lit}`csr_timer`. -/
structure CsrTimer where
  timerCtrl : BitVec 32
  timerValue : BitVec 32
  intrTriggerR : Bool
deriving DecidableEq

namespace CsrTimer

def init : CsrTimer := ⟨0#32, 0#32, false⟩

def timerEnabled (c : CsrTimer) : Bool := c.timerCtrl.getLsbD 0

def timerMaxCount (c : CsrTimer) : BitVec 28 := c.timerCtrl.extractLsb' 4 28

/-- What the block drives on {lit}`csr_sel_result`. -/
def csrSelResult (c : CsrTimer) (csrSelReg : BitVec 12) : Option (BitVec 32) :=
  if csrSelReg = csrRegTimerCtrl then some c.timerCtrl
  else if csrSelReg = csrRegTimerValue then some c.timerValue
  else none

/-- One rising edge of {lit}`clk`. -/
def step (c : CsrTimer) (csrIn : CsrChannelIn) : CsrTimer :=
  if csrIn.csrOpValid = true ∧ csrIn.csrOpReg = csrRegTimerCtrl then
    { timerValue := 0#32, timerCtrl := csrIn.csrOpData, intrTriggerR := false }
  else
    { c with
      timerValue := c.timerValue + 1#32
      intrTriggerR :=
        (c.timerEnabled && c.timerValue == c.timerMaxCount ++ 0b0000#4) || c.intrTriggerR }

end CsrTimer

/-! ## The execute stage with the devices -/

/-- The execute stage, the GPIO block and the timer. -/
structure CsrUnit where
  iexec : Iexec
  gpio : CsrGpio
  timer : CsrTimer

/-- Inputs of the unit in one cycle: the registers of the decode stage, the answers of the data
cache, the interrupt line, the pins and what the other blocks leave on the CSR bus. -/
structure CsrUnitInput where
  idecode : Idecode
  dcacheHit : Bool
  dcacheReadData : BitVec 32
  dcacheWriteStrobe : Bool
  intrOut : IntrChannelOut
  pins : BitVec 32
  otherCsr : BitVec 32

/-- The CSR registers that only CSR instructions change. -/
inductive PlainCsr where
  | gpioDir | gpioOutput | timerCtrl
deriving DecidableEq

def PlainCsr.addr : PlainCsr → BitVec 12
  | .gpioDir => csrRegGpioDir
  | .gpioOutput => csrRegGpioOutput
  | .timerCtrl => csrRegTimerCtrl

/-- The plain register at an address. -/
def plainCsr (a : BitVec 12) : Option PlainCsr :=
  if a = csrRegGpioDir then some .gpioDir
  else if a = csrRegGpioOutput then some .gpioOutput
  else if a = csrRegTimerCtrl then some .timerCtrl
  else none

/-- The registers of the stage at their addresses. -/
theorem plainCsr_eq_some_iff {a : BitVec 12} {r : PlainCsr} : plainCsr a = some r ↔ a = r.addr := by
  unfold plainCsr
  constructor
  · intro h
    split at h
    · cases h; assumption
    · split at h
      · cases h; assumption
      · split at h
        · cases h; assumption
        · cases h
  · rintro rfl
    cases r <;> decide

/-- The plain register that an instruction accesses. -/
def plainAccess (x : IexecChannelIn) : Option PlainCsr :=
  if x.cmd = .csr then plainCsr x.csrReg else none

/-- An access to a register of the stage. -/
theorem plainAccess_eq_some_iff {x : IexecChannelIn} {r : PlainCsr} :
    plainAccess x = some r ↔ isCsrAccess x = true ∧ x.csrReg = r.addr := by
  rw [plainAccess, isCsrAccess, Bool.and_eq_true, beq_iff_eq, bne_iff_ne]
  by_cases hcmd : x.cmd = .csr
  · rw [if_pos hcmd, plainCsr_eq_some_iff]
    refine ⟨fun h => ⟨⟨hcmd, ?_⟩, h⟩, fun h => h.2⟩
    rw [h]
    cases r <;> decide
  · rw [if_neg hcmd]
    simp [hcmd]

namespace CsrUnit

variable (V : Megafunctions)

def init : CsrUnit := ⟨Iexec.init, CsrGpio.init, CsrTimer.init⟩

/-- The CSR bus: no two blocks drive it for the same address. -/
def csrBus (s : CsrUnit) (i : CsrUnitInput) : BitVec 32 :=
  (s.gpio.csrSelResult i.pins s.iexec.csrIn.csrSelReg).getD
    ((s.timer.csrSelResult s.iexec.csrIn.csrSelReg).getD i.otherCsr)

/-- What the execute stage sees in one cycle. -/
def iexecInput (s : CsrUnit) (i : CsrUnitInput) : IexecInput where
  iexecIn := i.idecode.iexecIn
  dcacheHit := i.dcacheHit
  dcacheReadData := i.dcacheReadData
  dcacheWriteStrobe := i.dcacheWriteStrobe
  csrBus := s.csrBus i
  intrOut := i.intrOut

/-- One rising edge of {lit}`clk`. -/
def step (s : CsrUnit) (i : CsrUnitInput) : CsrUnit where
  iexec := s.iexec.step V (s.iexecInput i)
  gpio := s.gpio.step s.iexec.csrIn
  timer := s.timer.step s.iexec.csrIn

/-- The unit before its {lit}`t`-th edge. -/
def run (inp : ℕ → CsrUnitInput) (t : ℕ) : CsrUnit := Clocked.run (step V) init inp t

/-- The inputs of the execute stage along a run. -/
def iexecInputs (inp : ℕ → CsrUnitInput) (t : ℕ) : IexecInput := (run V inp t).iexecInput (inp t)

/-- The stage runs as on its own. -/
theorem run_iexec (inp : ℕ → CsrUnitInput) (t : ℕ) :
    (run V inp t).iexec = Iexec.run V (iexecInputs V inp) t := by
  induction t with
  | zero => rfl
  | succ t ih =>
      change (run V inp t).iexec.step V _ = (Iexec.run V (iexecInputs V inp) t).step V _
      rw [ih]
      rfl

/-- The contents of the plain registers. -/
def plain (s : CsrUnit) : PlainCsr → BitVec 32
  | .gpioDir => s.gpio.regDir
  | .gpioOutput => s.gpio.regOutput
  | .timerCtrl => s.timer.timerCtrl

/-- The bus shows a plain register that is selected. -/
theorem csrBus_of_plain {s : CsrUnit} (i : CsrUnitInput) {r : PlainCsr}
    (h : s.iexec.csrIn.csrSelReg = r.addr) : s.csrBus i = s.plain r := by
  unfold csrBus
  rw [h]
  cases r <;> rfl

/-- An edge changes a plain register exactly by a write to its address. -/
theorem plain_step (s : CsrUnit) (i : CsrUnitInput) : (s.step V i).plain =
    match s.iexec.csrIn.csrOpValid, plainCsr s.iexec.csrIn.csrOpReg with
    | true, some r => Function.update s.plain r s.iexec.csrIn.csrOpData
    | _, _ => s.plain := by
  cases hvalid : s.iexec.csrIn.csrOpValid with
  | false =>
      funext r
      cases r <;> simp [plain, step, CsrGpio.step, CsrTimer.step, hvalid]
  | true =>
      cases hreg : plainCsr s.iexec.csrIn.csrOpReg with
      | none =>
          have hne : ∀ r : PlainCsr, s.iexec.csrIn.csrOpReg ≠ r.addr := by
            intro r h
            rw [plainCsr_eq_some_iff.mpr h] at hreg
            cases hreg
          have h1 : s.iexec.csrIn.csrOpReg ≠ csrRegGpioDir := hne .gpioDir
          have h2 : s.iexec.csrIn.csrOpReg ≠ csrRegGpioOutput := hne .gpioOutput
          have h3 : s.iexec.csrIn.csrOpReg ≠ csrRegTimerCtrl := hne .timerCtrl
          funext r
          cases r <;> simp [plain, step, CsrGpio.step, CsrTimer.step, hvalid, h1, h2, h3]
      | some r =>
          have haddr := plainCsr_eq_some_iff.mp hreg
          funext r'
          cases r <;> cases r' <;>
            simp [plain, step, CsrGpio.step, CsrTimer.step, hvalid, haddr, PlainCsr.addr,
              csrRegGpioDir, csrRegGpioOutput, csrRegTimerCtrl]

end CsrUnit

/-! ## The sequential machine -/

/-- The processor registers and the plain CSR registers. -/
structure ArchState where
  regs : Regs
  csrs : PlainCsr → BitVec 32

/-- One instruction of the sequential machine.  An access to a plain register gives the
register's value to {lit}`rd` and to the update. -/
def ArchState.execute (V : Megafunctions) (a : ArchState) (c : Completed) : ArchState :=
  match plainAccess c.inst with
  | some r =>
      { regs := Sumeru.execute V a.regs { c with csrData := a.csrs r }
        csrs := Function.update a.csrs r
          (csrUpdate (c.inst.cmdOp.extractLsb' 0 2) (secondOperand a.regs c.inst) (a.csrs r)) }
  | none => { a with regs := Sumeru.execute V a.regs c }

/-- The sequential machine from reset. -/
def archState (V : Megafunctions) (l : List Completed) : ArchState :=
  l.foldl (ArchState.execute V) ⟨fun _ => 0#32, fun _ => 0#32⟩

/-- The state after one instruction more. -/
theorem archState_concat (V : Megafunctions) (l : List Completed) (c : Completed) :
    archState V (l ++ [c]) = (archState V l).execute V c := by
  simp [archState]

/-! ## Completion of an access -/

namespace Iexec

variable (V : Megafunctions) {inp : ℕ → IexecInput} {t k : ℕ}

/-- The access is in the stage up to its completion, three edges after its acceptance. -/
theorem inFlight_of_accepted (h : CsrAccepted V inp t) :
    inFlight V inp (t + 2) = some (inp t).iexecIn ∧
      inFlight V inp (t + 3) = some (inp t).iexecIn := by
  have hline := csrTimeline V h
  have hwait : ∀ k, (run V inp k).state = .csrReadWait →
      inFlight V inp (k + 1) = inFlight V inp k := by
    intro k hk
    have hne : (run V inp k).state ≠ .running := by
      rw [hk]
      decide
    rw [inFlight, not_accepts_of_state hne, if_neg (by decide), if_neg hne]
  have h1 : inFlight V inp (t + 1) = some (inp t).iexecIn := by
    rw [inFlight, if_pos h.1]
  have h2 := (hwait (t + 1) hline.waits.1).trans h1
  exact ⟨h2, (hwait (t + 2) hline.waited.1).trans h2⟩

/-- An access that is about to complete was accepted three edges ago. -/
theorem inFlight_csr_cases {x : IexecChannelIn} (hx : isCsrAccess x = true)
    (hst : (run V inp k).state = .running) (hfl : inFlight V inp k = some x) :
    ∃ t, k = t + 3 ∧ CsrAccepted V inp t ∧ x = (inp t).iexecIn := by
  have hcmd : x.cmd = .csr := by
    rw [isCsrAccess, Bool.and_eq_true, beq_iff_eq] at hx
    exact hx.1
  cases k with
  | zero => cases hfl
  | succ k =>
      cases hacc : (run V inp k).accepts (inp k) with
      | true =>
          -- an accepted access starts to wait
          rw [inFlight, if_pos hacc, Option.some_inj] at hfl
          have hwait : (run V inp (k + 1)).state = acceptState (inp k).iexecIn := by
            change ((run V inp k).mainProcess V (inp k)).state = _
            rw [mainProcess_of_accepts V hacc]
            rfl
          rw [hfl, (acceptState_csr_iff x).mpr hx, hst] at hwait
          cases hwait
      | false =>
          rw [inFlight, hacc, if_neg (by decide)] at hfl
          split at hfl
          · cases hfl
          · rename_i hne
            have htracks := tracks_run V inp k
            rw [hfl] at htracks
            have hwait : (run V inp k).state = .csrReadWait := by
              cases htracks with
              | running h => exact absurd h hne
              | loadStore _ _ h => rcases h with h | h <;> rw [hcmd] at h <;> cases h
              | csr h => exact h
              | div _ _ h =>
                  rw [isDiv, hcmd] at h
                  cases h
            obtain ⟨t, ht, rfl | rfl⟩ := csrReadWait_cases V hwait
            · rw [(csrTimeline V ht).waited.1] at hst
              cases hst
            · rw [(inFlight_of_accepted V ht).1, Option.some_inj] at hfl
              exact ⟨t, rfl, ht, hfl.symm⟩

/-- An access completes in the cycle in which it reads the bus. -/
theorem completedAt_of_accepted (h : CsrAccepted V inp t) :
    completedAt V inp (t + 3) =
      some ⟨(inp t).iexecIn, (inp (t + 3)).dcacheReadData, csrFound V inp t⟩ := by
  rw [completedAt, if_pos (csrTimeline V h).done.1, (inFlight_of_accepted V h).2]
  rfl

/-- While an access waits no instruction completes. -/
theorem completedBefore_of_accepted (h : CsrAccepted V inp t) :
    completedBefore V inp (t + 3) = completedBefore V inp (t + 1) := by
  have hline := csrTimeline V h
  have hnone : ∀ k, (run V inp k).state = .csrReadWait →
      completedBefore V inp (k + 1) = completedBefore V inp k := by
    intro k hk
    refine Clocked.log_succ_none ?_
    rw [completedAt, hk, if_neg (by decide)]
  exact (hnone (t + 2) hline.waited.1).trans (hnone (t + 1) hline.waits.1)

/-- The operand of an access is that of the sequential machine. -/
theorem csrOperand_eq (h : CsrAccepted V inp t) : csrOperand V (run V inp t) (inp t) =
    secondOperand (archRegsAt V inp (t + 1)) (inp t).iexecIn := by
  have hrun := (accepts_iff.mp h.1).1
  have hfile : (run V inp t).nextRegfile V (inp t) = archRegsAt V inp (t + 1) := by
    rw [archRegsAt_succ, nextRegs, if_pos hrun]
    exact (tracks_run V inp t).nextRegfile_eq hrun (inp t)
  rw [csrOperand, operand_eq_nextRegfile, hfile]
  rfl

end Iexec

/-! ## Runs of the unit -/

namespace CsrUnit

open Iexec (CsrAccepted csrFound csrWritten csrOperand completedAt inFlight)

variable {V : Megafunctions} {inp : ℕ → CsrUnitInput} {t k : ℕ}

/-- The instructions completed before the {lit}`t`-th cycle of a run. -/
def completed (V : Megafunctions) (inp : ℕ → CsrUnitInput) (t : ℕ) : List Completed :=
  completedBefore V (iexecInputs V inp) t

/-- The CSR bus in a run. -/
theorem run_csrIn (t : ℕ) : (run V inp t).iexec.csrIn = (Iexec.run V (iexecInputs V inp) t).csrIn := by
  rw [run_iexec]

/-- The plain registers change at the edge that takes a write from the bus. -/
theorem plain_succ (h : ∀ u, CsrAccepted V (iexecInputs V inp) u → k = u + 4 →
    plainAccess (iexecInputs V inp u).iexecIn = none) :
    (run V inp (k + 1)).plain = (run V inp k).plain := by
  change ((run V inp k).step V (inp k)).plain = _
  rw [plain_step, run_csrIn]
  cases hvalid : (Iexec.run V (iexecInputs V inp) k).csrIn.csrOpValid with
  | false => rfl
  | true =>
      obtain ⟨u, rfl, hu⟩ := (Iexec.csrOpValid_iff V).mp hvalid
      have hreg := (Iexec.csrOp_of_accepted V hu).2.1
      have hnone := h u hu rfl
      rw [hreg]
      cases hr : plainCsr (iexecInputs V inp u).iexecIn.csrReg with
      | none => rfl
      | some r =>
          rw [plainAccess_eq_some_iff.mpr ⟨hu.2, plainCsr_eq_some_iff.mp hr⟩] at hnone
          cases hnone

/-- An access to a plain register updates it five edges after its acceptance. -/
theorem plain_of_accepted {r : PlainCsr} (h : CsrAccepted V (iexecInputs V inp) t)
    (hr : plainAccess (iexecInputs V inp t).iexecIn = some r) :
    (run V inp (t + 5)).plain = Function.update (run V inp (t + 4)).plain r
      (csrWritten V (iexecInputs V inp) t) := by
  obtain ⟨hvalid, hreg, hdata⟩ := Iexec.csrOp_of_accepted V h
  change ((run V inp (t + 4)).step V (inp (t + 4))).plain = _
  rw [plain_step, run_csrIn, hvalid, hreg, hdata,
    plainCsr_eq_some_iff.mpr (plainAccess_eq_some_iff.mp hr).2]

/-- It finds the register as it is one edge later still. -/
theorem csrFound_of_accepted {r : PlainCsr} (h : CsrAccepted V (iexecInputs V inp) t)
    (hr : plainAccess (iexecInputs V inp t).iexecIn = some r) :
    csrFound V (iexecInputs V inp) t = (run V inp (t + 4)).plain r := by
  have haddr := (plainAccess_eq_some_iff.mp hr).2
  have hsel : (run V inp (t + 3)).iexec.csrIn.csrSelReg = r.addr := by
    rw [run_csrIn, (Iexec.csrTimeline V h).last.selReg, haddr]
  have hsave : (Iexec.run V (iexecInputs V inp) (t + 3)).csrIn.csrSelReg ≠ csrRegCtxPcsave := by
    rw [← run_csrIn, hsel]
    cases r <;> decide
  have hkeep : (run V inp (t + 4)).plain = (run V inp (t + 3)).plain := by
    refine plain_succ fun u hu hk => ?_
    -- a write at that edge would stem from an access accepted one edge earlier
    have := Iexec.CsrAccepted.le V hu (show u < t by omega) h.1
    omega
  rw [csrFound, Iexec.csrSelResult, if_neg hsave, hkeep]
  exact csrBus_of_plain (inp (t + 3)) hsel

/-- A plain access that completes was accepted three edges before. -/
theorem accepted_of_completedAt {k : ℕ} {c : Completed} {r : PlainCsr}
    (hdone : completedAt V (iexecInputs V inp) k = some c) (hr : plainAccess c.inst = some r) :
    ∃ t, k = t + 3 ∧ CsrAccepted V (iexecInputs V inp) t := by
  rw [completedAt] at hdone
  split at hdone
  · rename_i hst
    obtain ⟨x, hx, rfl⟩ := Option.map_eq_some_iff.mp hdone
    obtain ⟨t, hk, ht, -⟩ := Iexec.inFlight_csr_cases V (plainAccess_eq_some_iff.mp hr).1 hst hx
    exact ⟨t, hk, ht⟩
  · cases hdone

/-- The run and the sequential machine agree: on the processor registers at every edge, on the
plain registers one edge later. -/
theorem archState_run (V : Megafunctions) (inp : ℕ → CsrUnitInput) (k : ℕ) :
    archState V (completed V inp k) =
      ⟨archRegsAt V (iexecInputs V inp) k, (run V inp (k + 1)).plain⟩ := by
  induction k with
  | zero =>
      have hplain : (run V inp 1).plain = (run V inp 0).plain :=
        plain_succ fun u _ hk => absurd hk (by omega)
      rw [hplain]
      refine congrArg (ArchState.mk _) ?_
      funext r
      cases r <;> rfl
  | succ k ih =>
      cases hdone : completedAt V (iexecInputs V inp) k with
      | none =>
          have hlog : completed V inp (k + 1) = completed V inp k := Clocked.log_succ_none hdone
          have hregs : archRegsAt V (iexecInputs V inp) (k + 1) =
              archRegsAt V (iexecInputs V inp) k := congrArg (archRegs V) hlog
          have hplain : (run V inp (k + 2)).plain = (run V inp (k + 1)).plain := by
            refine plain_succ fun u hu hk => ?_
            obtain rfl : k = u + 3 := by omega
            rw [Iexec.completedAt_of_accepted V hu] at hdone
            cases hdone
          rw [hlog, hregs, hplain, ih]
      | some c =>
          have hlog : completed V inp (k + 1) = completed V inp k ++ [c] :=
            Clocked.log_succ_some hdone
          have hregs : archRegsAt V (iexecInputs V inp) (k + 1) =
              execute V (archRegsAt V (iexecInputs V inp) k) c := by
            have := congrArg (archRegs V) hlog
            rw [archRegs_concat] at this
            exact this
          rw [hlog, archState_concat, ih, hregs, ArchState.execute]
          cases hr : plainAccess c.inst with
          | none =>
              refine congrArg (ArchState.mk _) ?_
              refine (plain_succ fun u hu hk => ?_).symm
              obtain rfl : k = u + 3 := by omega
              rw [Iexec.completedAt_of_accepted V hu, Option.some_inj] at hdone
              subst hdone
              exact hr
          | some r =>
              obtain ⟨t, rfl, ht⟩ := accepted_of_completedAt hdone hr
              rw [Iexec.completedAt_of_accepted V ht, Option.some_inj] at hdone
              subst hdone
              have hfound := csrFound_of_accepted ht hr
              have hold : archRegsAt V (iexecInputs V inp) (t + 3) =
                  archRegsAt V (iexecInputs V inp) (t + 1) :=
                congrArg (archRegs V) (Iexec.completedBefore_of_accepted V ht)
              dsimp only
              rw [plain_of_accepted ht hr, csrWritten, hfound, Iexec.csrOperand_eq V ht, hold]

/-! ## Program order -/

/-- The sequential machine when an instruction is accepted at edge {lit}`t`. -/
def programState (V : Megafunctions) (inp : ℕ → CsrUnitInput) (t : ℕ) : ArchState :=
  archState V (completed V inp (t + 1))

/-- A CSR instruction on the plain register {lit}`r` is accepted at edge {lit}`t`. -/
structure PlainAccepted (V : Megafunctions) (inp : ℕ → CsrUnitInput) (t : ℕ) (r : PlainCsr) :
    Prop where
  accepts : (run V inp t).iexec.accepts ((run V inp t).iexecInput (inp t)) = true
  opcode : instOpcode (inp t).idecode.instR = opTypeCsr
  addr : (inp t).idecode.instR.extractLsb' 20 12 = r.addr

end CsrUnit

/-- The source operand of a CSR instruction word: a register, or the zero-extended field in its
place. -/
def csrSource (regs : Regs) (inst : BitVec 32) : BitVec 32 :=
  if (instFunct3 inst).getLsbD 2 then (instRs1 inst).setWidth 32 else regs (instRs1 inst)

/-- The command of a CSR instruction. -/
theorem decodeCommand_of_csr {inst : BitVec 32} (h : instOpcode inst = opTypeCsr) :
    decodeCommand inst = ⟨.csr, 0b0#1 ++ instFunct3 inst, !(instFunct3 inst).getLsbD 2⟩ := by
  simp [decodeCommand, h, opTypeB, opTypeJal, opTypeULui, opTypeUAuipc, opTypeJalr, opTypeL,
    opTypeS, opTypeCsr]

/-- The decoder hands a CSR instruction with its operand to the execute stage. -/
theorem secondOperand_of_csr {d : Idecode} (h : instOpcode d.instR = opTypeCsr) (regs : Regs) :
    secondOperand regs d.iexecIn = csrSource regs d.instR := by
  have himm : decodeImm d.pcR d.instR = (instRs1 d.instR).setWidth 32 := by
    simp [decodeImm, instRs1, h, opTypeB, opTypeJal, opTypeULui, opTypeUAuipc, opTypeJalr, opTypeL,
      opTypeS, opTypeCsr, opTypeR, opTypeI]
  have hrs : decodeRs2 d.instR = instRs1 d.instR := by
    simp [decodeRs2, h, opTypeL, opTypeCsr]
  simp only [secondOperand, csrSource, Idecode.iexecIn, decodeCommand_of_csr h, himm, hrs]
  cases (instFunct3 d.instR).getLsbD 2 <;> rfl

/-- The operation bits of a CSR instruction. -/
theorem cmdOp_of_csr {d : Idecode} (h : instOpcode d.instR = opTypeCsr) :
    d.iexecIn.cmdOp.extractLsb' 0 2 = (instFunct3 d.instR).extractLsb' 0 2 := by
  change (decodeCommand d.instR).cmdOp.extractLsb' 0 2 = _
  rw [decodeCommand_of_csr h]
  exact BitVec.extractLsb'_append_eq_of_add_le (by decide)

open CsrUnit

/-- CSR read-modify-write in program order.  When a CSR instruction on a plain register is
accepted, the instructions accepted before it have completed on the sequential machine.  The
value that the machine has in the register goes to {lit}`rd` and into the update, and after the
write the plain registers are those of the machine with this one updated. -/
theorem csr_program_order (V : Megafunctions) (inp : ℕ → CsrUnitInput) {t : ℕ} {r : PlainCsr}
    (h : PlainAccepted V inp t r) :
    (completed V inp (t + 1)).map Completed.inst =
        Clocked.log (Iexec.acceptedInst V (iexecInputs V inp)) t ∧
      ((run V inp (t + 3)).iexec.regfileWren = true ∧
        (run V inp (t + 3)).iexec.regfileWraddr = instRd (inp t).idecode.instR ∧
        (run V inp (t + 3)).iexec.rdWriteData V (iexecInputs V inp (t + 3)) =
          (programState V inp t).csrs r) ∧
      archState V (completed V inp (t + 4)) =
        { regs := fun x =>
            if x = instRd (inp t).idecode.instR ∧ x ≠ 0#5 then (programState V inp t).csrs r
            else (programState V inp t).regs x
          csrs := Function.update (programState V inp t).csrs r
            (csrUpdate ((instFunct3 (inp t).idecode.instR).extractLsb' 0 2)
              (csrSource (programState V inp t).regs (inp t).idecode.instR)
              ((programState V inp t).csrs r)) } ∧
      (run V inp (t + 5)).plain = (archState V (completed V inp (t + 4))).csrs := by
  obtain ⟨hacc, hop, haddr⟩ := h
  have hcmd : (iexecInputs V inp t).iexecIn.cmd = .csr := by
    change (decodeCommand (inp t).idecode.instR).cmd = _
    rw [decodeCommand_of_csr hop]
  have hrd : (iexecInputs V inp t).iexecIn.rd = instRd (inp t).idecode.instR := by
    change decodeRd (inp t).idecode.instR = _
    rw [decodeRd, hop, if_neg (by decide)]
  have hr : plainAccess (iexecInputs V inp t).iexecIn = some r := by
    rw [plainAccess, if_pos hcmd]
    exact plainCsr_eq_some_iff.mpr haddr
  have ht : Iexec.CsrAccepted V (iexecInputs V inp) t := by
    refine ⟨?_, (plainAccess_eq_some_iff.mp hr).1⟩
    rw [← run_iexec]
    exact hacc
  have hstate : archState V (completed V inp (t + 3)) = programState V inp t :=
    congrArg (archState V) (Iexec.completedBefore_of_accepted V ht)
  have hfound : Iexec.csrFound V (iexecInputs V inp) t = (programState V inp t).csrs r := by
    rw [← hstate, archState_run]
    exact csrFound_of_accepted ht hr
  have hline := Iexec.csrTimeline V ht
  refine ⟨(forwarded_operands V _ t ht.1).1, ⟨?_, ?_, ?_⟩, ?_, ?_⟩
  · rw [run_iexec]
    exact hline.done.2.2
  · rw [run_iexec, hline.last.wraddr, hrd]
  · rw [run_iexec, Iexec.rdWriteData, hline.last.mux]
    exact hfound
  · have hlog : completed V inp (t + 4) = completed V inp (t + 3) ++ [_] :=
      Clocked.log_succ_some (Iexec.completedAt_of_accepted V ht)
    rw [hlog, archState_concat, hstate, ArchState.execute]
    have hsource := secondOperand_of_csr hop (programState V inp t).regs
    change secondOperand _ (iexecInputs V inp t).iexecIn = _ at hsource
    have hfunct : (iexecInputs V inp t).iexecIn.cmdOp.extractLsb' 0 2 = _ := cmdOp_of_csr hop
    simp only [hr, hsource, hfunct]
    refine congrArg (fun regs => ArchState.mk regs _) ?_
    funext x
    have hne : (iexecInputs V inp t).iexecIn.csrReg ≠ csrRegSwitch := by
      rw [(plainAccess_eq_some_iff.mp hr).2]
      cases r <;> decide
    simp only [execute, result, hcmd, hrd, if_neg hne, Option.getD_some]
  · rw [archState_run]

/-- {lit}`csrrwi x1, GPIO_DIR, 5` and then {lit}`csrrsi x2, GPIO_DIR, 2`, back to back. -/
def gpioDirInput (t : ℕ) : CsrUnitInput where
  idecode := ⟨0#32, if t = 0 then 0x8812D0F3#32 else 0x88116173#32, true, false⟩
  dcacheHit := false
  dcacheReadData := 0#32
  dcacheWriteStrobe := false
  intrOut := ⟨false, 0#4⟩
  pins := 0#32
  otherCsr := 0#32

/-- The second one returns what the first one wrote and sets a bit in it. -/
theorem csr_program_order_gpioDir :
    (programState .documented gpioDirInput 3).csrs .gpioDir = 5#32 ∧
      (run .documented gpioDirInput 6).iexec.rdWriteData .documented
        (iexecInputs .documented gpioDirInput 6) = 5#32 ∧
      (run .documented gpioDirInput 8).plain .gpioDir = 7#32 := by
  have hbefore : (programState .documented gpioDirInput 3).csrs .gpioDir = 5#32 := by decide
  have horder := csr_program_order .documented gpioDirInput (t := 3) (r := .gpioDir)
    ⟨by decide, by decide, by decide⟩
  refine ⟨hbefore, horder.2.1.2.2.trans hbefore, ?_⟩
  rw [horder.2.2.2, horder.2.2.1]
  decide

end Sumeru
