import Sumeru.Cpu.Forwarding
import Sumeru.Cpu.Idecode

/-!
# Sumeru - CSR accesses and SWITCH

A CSR access holds the execute stage for two cycles, reads the bus in the cycle after
and reaches its register two edges later, when the stage may have accepted the next
instructions.  The edges of an access are fixed from its acceptance on.  A SWITCH takes
the register {lit}`ctx_pc_switch_r` as it is when it is accepted.

Main results:

- Theorem {lit}`Iexec.csrTimeline`: the cycles of an access.
- Theorem {lit}`Iexec.csrDoWrite_iff`: every write comes from an access three edges earlier.
- Theorem {lit}`switch_target_iff`: a SWITCH goes to the value written before it exactly if it
  is late enough or the value was there already.
-/

namespace Sumeru

/-- The value that CSRRW, CSRRS and CSRRC leave, by the low bits of {lit}`funct3`. -/
def csrUpdate (op : BitVec 2) (operand old : BitVec 32) : BitVec 32 :=
  if op = 0b10#2 then operand ||| old
  else if op = 0b11#2 then ~~~operand &&& old
  else operand

/-- The instruction is a CSR access other than SWITCH. -/
def isCsrAccess (x : IexecChannelIn) : Bool := x.cmd == .csr && x.csrReg != csrRegSwitch

namespace Iexec

/-- The CSR instructions enter the wait of a read. -/
theorem acceptState_csr_iff (x : IexecChannelIn) :
    acceptState x = .csrReadWait ↔ isCsrAccess x = true := by
  rw [isCsrAccess, Bool.and_eq_true, beq_iff_eq, bne_iff_ne]
  unfold acceptState
  cases x.cmd with
  | muldiv =>
      dsimp only
      split <;> simp
  | csr =>
      dsimp only
      split <;> simp_all
  | _ => simp

variable (V : Megafunctions) {inp : ℕ → IexecInput} {t k : ℕ}

/-- The operand of a CSR instruction: a register or an immediate. -/
def csrOperand (s : Iexec) (i : IexecInput) : BitVec 32 :=
  if i.iexecIn.cmdUseReg = false then i.iexecIn.imm else s.operand V i i.iexecIn.rs2

/-- A CSR access is accepted at edge {lit}`t`. -/
def CsrAccepted (inp : ℕ → IexecInput) (t : ℕ) : Prop :=
  (run V inp t).accepts (inp t) = true ∧ isCsrAccess (inp t).iexecIn = true

/-- The value that the access accepted at edge {lit}`t` finds. -/
def csrFound (inp : ℕ → IexecInput) (t : ℕ) : BitVec 32 :=
  (run V inp (t + 3)).csrSelResult (inp (t + 3))

/-- The value that it leaves. -/
def csrWritten (inp : ℕ → IexecInput) (t : ℕ) : BitVec 32 :=
  csrUpdate ((inp t).iexecIn.cmdOp.extractLsb' 0 2) (csrOperand V (run V inp t) (inp t))
    (csrFound V inp t)

/-! ## The cycles of an access -/

/-- The stage holds the access {lit}`x`. -/
structure Accessing (x : IexecChannelIn) (operand : BitVec 32) (s : Iexec) : Prop where
  selReg : s.csrIn.csrSelReg = x.csrReg
  selOp : s.csrIn.csrSelOp = x.cmdOp.extractLsb' 0 2
  opB : s.opB = operand
  mux : s.cmdResultMux = .csr
  wraddr : s.regfileWraddr = x.rd

/-- An access goes on. -/
theorem Accessing.step {x : IexecChannelIn} {operand : BitVec 32} {s : Iexec} {i : IexecInput}
    (h : Accessing x operand s) (hacc : s.accepts i = false) : Accessing x operand (s.step V i) := by
  have hsame := sameInstruction_step V hacc
  exact ⟨hsame.csrSelReg.trans h.selReg, hsame.csrSelOp.trans h.selOp, hsame.opB.trans h.opB,
    hsame.cmdResultMux.trans h.mux, hsame.regfileWraddr.trans h.wraddr⟩

/-- An access accepted at edge {lit}`t`: two cycles of waiting, and the cycle in which its
result is read and its write is prepared. -/
structure CsrTimeline (inp : ℕ → IexecInput) (t : ℕ) : Prop where
  first : Accessing (inp t).iexecIn (csrOperand V (run V inp t) (inp t)) (run V inp (t + 1))
  waits : (run V inp (t + 1)).state = .csrReadWait ∧ (run V inp (t + 1)).csrWaitCtr = true ∧
    (run V inp (t + 1)).csrDoWrite = false
  waited : (run V inp (t + 2)).state = .csrReadWait ∧ (run V inp (t + 2)).csrWaitCtr = false ∧
    (run V inp (t + 2)).csrDoWrite = false
  last : Accessing (inp t).iexecIn (csrOperand V (run V inp t) (inp t)) (run V inp (t + 3))
  done : (run V inp (t + 3)).state = .running ∧ (run V inp (t + 3)).csrDoWrite = true ∧
    (run V inp (t + 3)).regfileWren = true

/-- An accepted access keeps the time line. -/
theorem csrTimeline (h : CsrAccepted V inp t) : CsrTimeline V inp t := by
  obtain ⟨hacc, hcsr⟩ := h
  have hstate := (acceptState_csr_iff _).mpr hcsr
  have hcmd : (inp t).iexecIn.cmd = .csr := by
    rw [isCsrAccess, Bool.and_eq_true, beq_iff_eq] at hcsr
    exact hcsr.1
  have hstep : run V inp (t + 1) = (run V inp t).step V (inp t) := rfl
  have h1 : Accessing (inp t).iexecIn (csrOperand V (run V inp t) (inp t)) (run V inp (t + 1)) := by
    rw [hstep]
    constructor <;> simp only [step, mainProcess_of_accepts V hacc, accept, hstate, if_true, hcmd]
    case opB => rfl
    case mux => rfl
  have hw1 : (run V inp (t + 1)).state = .csrReadWait ∧ (run V inp (t + 1)).csrWaitCtr = true ∧
      (run V inp (t + 1)).csrDoWrite = false := by
    rw [hstep]
    simp [step, mainProcess_of_accepts V hacc, accept, hstate, edgeDefaults]
  have hno : ∀ {s : Iexec} (i : IexecInput), s.state = .csrReadWait → s.accepts i = false := by
    intro s i hs
    exact not_accepts_of_state (by rw [hs]; decide)
  have h2 := h1.step V (hno (inp (t + 1)) hw1.1)
  have hw2 : (run V inp (t + 2)).state = .csrReadWait ∧ (run V inp (t + 2)).csrWaitCtr = false ∧
      (run V inp (t + 2)).csrDoWrite = false := by
    change ((run V inp (t + 1)).mainProcess V _).state = _ ∧
      ((run V inp (t + 1)).mainProcess V _).csrWaitCtr = _ ∧
      ((run V inp (t + 1)).mainProcess V _).csrDoWrite = _
    simp [mainProcess, hw1, edgeDefaults]
  have h3 := h2.step V (hno (inp (t + 2)) hw2.1)
  refine ⟨h1, hw1, hw2, h3, ?_⟩
  change ((run V inp (t + 2)).mainProcess V _).state = _ ∧
    ((run V inp (t + 2)).mainProcess V _).csrDoWrite = _ ∧
    ((run V inp (t + 2)).mainProcess V _).regfileWren = _
  simp [mainProcess, hw2]

/-- The stage waits for an access that was accepted one or two edges ago. -/
theorem csrReadWait_cases (hk : (run V inp k).state = .csrReadWait) :
    ∃ t, CsrAccepted V inp t ∧ (k = t + 1 ∨ k = t + 2) := by
  induction k with
  | zero => cases hk
  | succ k ih =>
      cases hst : (run V inp k).state with
      | running =>
          cases hacc : (run V inp k).accepts (inp k) with
          | true =>
              refine ⟨k, ⟨hacc, (acceptState_csr_iff _).mp ?_⟩, .inl rfl⟩
              change ((run V inp k).mainProcess V (inp k)).state = _ at hk
              rw [mainProcess_of_accepts V hacc] at hk
              exact hk
          | false =>
              have := state_step_of_not_accepts V hst hacc
              change (run V inp (k + 1)).state = _ at this
              rw [hk] at this
              cases this
      | csrReadWait =>
          obtain ⟨t, ht, rfl | rfl⟩ := ih hst
          · exact ⟨t, ht, .inr rfl⟩
          · have := (csrTimeline V ht).done.1
            rw [hk] at this
            cases this
      | ls1 =>
          have := state_step_of_ls1 V hst (inp k)
          change (run V inp (k + 1)).state = _ at this
          rw [hk] at this
          cases this
      | lsWait =>
          have := state_step_of_lsWait V hst (inp k)
          change (run V inp (k + 1)).state = _ ∨ (run V inp (k + 1)).state = _ at this
          rw [hk] at this
          rcases this with h | h <;> cases h
      | divWait =>
          have := state_step_of_divWait V hst (inp k)
          change (run V inp (k + 1)).state = _ ∨ ((run V inp (k + 1)).state = _ ∧ _) at this
          rw [hk] at this
          rcases this with h | h
          · cases h
          · cases h.1

/-- A write is prepared exactly by the accesses, three edges after their acceptance. -/
theorem csrDoWrite_iff :
    (run V inp k).csrDoWrite = true ↔ ∃ t, k = t + 3 ∧ CsrAccepted V inp t := by
  constructor
  · intro hk
    cases k with
    | zero => cases hk
    | succ k =>
        have hst : (run V inp k).state = .csrReadWait := by
          by_contra hne
          change ((run V inp k).mainProcess V (inp k)).csrDoWrite = true at hk
          unfold mainProcess at hk
          cases hst : (run V inp k).state <;> simp only [hst] at hk
          case running => split at hk <;> cases hk
          case ls1 => cases hk
          case lsWait => split at hk <;> [cases hk; split at hk <;> cases hk]
          case divWait => split at hk <;> cases hk
          case csrReadWait => exact hne hst
        obtain ⟨t, ht, rfl | rfl⟩ := csrReadWait_cases V hst
        · rw [(csrTimeline V ht).waited.2.2] at hk
          cases hk
        · exact ⟨t, rfl, ht⟩
  · rintro ⟨t, rfl, ht⟩
    exact (csrTimeline V ht).done.2.1

/-- The write reaches the CSR bus one edge later. -/
theorem csrOp_of_accepted (h : CsrAccepted V inp t) :
    (run V inp (t + 4)).csrIn.csrOpValid = true ∧
      (run V inp (t + 4)).csrIn.csrOpReg = (inp t).iexecIn.csrReg ∧
      (run V inp (t + 4)).csrIn.csrOpData = csrWritten V inp t := by
  have hline := csrTimeline V h
  have hdo := hline.done.2.1
  refine ⟨hdo, ?_, ?_⟩
  · change (if (run V inp (t + 3)).csrDoWrite = true then (run V inp (t + 3)).csrIn.csrSelReg
      else _) = _
    rw [if_pos hdo, hline.last.selReg]
  · change (if (run V inp (t + 3)).csrDoWrite = true then
      (run V inp (t + 3)).csrWriteData (inp (t + 3)) else _) = _
    rw [if_pos hdo, csrWriteData, hline.last.selOp, hline.last.opB]
    rfl

/-- A valid write on the bus comes from an access four edges earlier. -/
theorem csrOpValid_iff :
    (run V inp k).csrIn.csrOpValid = true ↔ ∃ t, k = t + 4 ∧ CsrAccepted V inp t := by
  constructor
  · intro hk
    cases k with
    | zero => cases hk
    | succ k =>
        obtain ⟨t, rfl, ht⟩ := (csrDoWrite_iff V).mp (show (run V inp k).csrDoWrite = true from hk)
        exact ⟨t, rfl, ht⟩
  · rintro ⟨t, rfl, ht⟩
    exact (csrOp_of_accepted V ht).1

/-- Two accesses are three edges or more apart. -/
theorem CsrAccepted.le (h : CsrAccepted V inp t) {v : ℕ} (htv : t < v)
    (hacc : (run V inp v).accepts (inp v) = true) : t + 3 ≤ v := by
  have hline := csrTimeline V h
  have hrun := (accepts_iff.mp hacc).1
  by_contra hlt
  obtain rfl | rfl : v = t + 1 ∨ v = t + 2 := by omega
  · rw [hline.waits.1] at hrun
    cases hrun
  · rw [hline.waited.1] at hrun
    cases hrun

/-! ## SWITCH -/

/-- A CSR instruction that writes {lit}`CTX_PCSWITCH` is accepted at edge {lit}`t`. -/
def PcswitchWritten (inp : ℕ → IexecInput) (t : ℕ) : Prop :=
  CsrAccepted V inp t ∧ (inp t).iexecIn.csrReg = csrRegCtxPcswitch

/-- A CSR access to SWITCH is accepted at edge {lit}`t`.  The decoder raises
{lit}`trigger_cxfer` for JALR only. -/
structure SwitchAccepted (inp : ℕ → IexecInput) (t : ℕ) : Prop where
  accepts : (run V inp t).accepts (inp t) = true
  switch : isSwitch (inp t).iexecIn = true
  notJalr : (inp t).iexecIn.triggerCxfer = false

/-- A SWITCH transfers to the register as it is at acceptance. -/
theorem SwitchAccepted.transfers (h : SwitchAccepted V inp t) :
    (run V inp (t + 1)).out.cxfer = true ∧
      (run V inp (t + 1)).out.cxferPc = (run V inp t).ctxPcSwitchR := by
  have hcmd : (inp t).iexecIn.cmd ≠ .branch := by
    have := h.switch
    rw [isSwitch, Bool.and_eq_true, beq_iff_eq] at this
    rw [this.1]
    decide
  have hstep : run V inp (t + 1) = (run V inp t).step V (inp t) := rfl
  constructor
  · rw [out, hstep, (flags_step_of_accepts V h.accepts).2, h.switch]
    simp
  · have hmux : (run V inp (t + 1)).cxferMux = true := by
      rw [hstep, step, mainProcess_of_accepts V h.accepts]
      change (!(inp t).iexecIn.triggerCxfer) = true
      rw [h.notJalr]
      rfl
    have hpc : (run V inp (t + 1)).cxferPc = (run V inp t).acceptCxferPc (inp t) := by
      rw [hstep, step, mainProcess_of_accepts V h.accepts]
      rfl
    have htarget : (run V inp t).acceptCxferPc (inp t) = (run V inp t).ctxPcSwitchR := by
      rw [acceptCxferPc, if_neg hcmd, if_pos ⟨h.notJalr, h.switch⟩]
    simp [out, hmux, hpc, htarget]

/-- The register changes at the edge that takes a write to it from the bus. -/
theorem ctxPcSwitchR_succ (inp : ℕ → IexecInput) (k : ℕ) :
    (run V inp (k + 1)).ctxPcSwitchR =
      if (run V inp k).csrIn.csrOpValid = true ∧
          (run V inp k).csrIn.csrOpReg = csrRegCtxPcswitch then
        (run V inp k).csrIn.csrOpData
      else (run V inp k).ctxPcSwitchR :=
  rfl

/-- Up to the write of an access the register keeps what it holds. -/
theorem ctxPcSwitchR_before (h : CsrAccepted V inp t) :
    (run V inp (t + 4)).ctxPcSwitchR = (run V inp (t + 3)).ctxPcSwitchR := by
  rw [ctxPcSwitchR_succ, if_neg]
  rintro ⟨hvalid, -⟩
  have : (run V inp (t + 2)).csrDoWrite = true := hvalid
  rw [(csrTimeline V h).waited.2.2] at this
  cases this

/-- From then on it keeps the value until the next write. -/
theorem ctxPcSwitchR_after {v : ℕ} (h : PcswitchWritten V inp t) (hv : t + 5 ≤ v)
    (hno : ∀ k, t < k → k < v → ¬ PcswitchWritten V inp k) :
    (run V inp v).ctxPcSwitchR = csrWritten V inp t := by
  induction v, hv using Nat.le_induction with
  | base =>
      obtain ⟨hvalid, hreg, hdata⟩ := csrOp_of_accepted V h.1
      rw [ctxPcSwitchR_succ, if_pos ⟨hvalid, by rw [hreg, h.2]⟩, hdata]
  | succ v hv ih =>
      rw [ctxPcSwitchR_succ, if_neg, ih fun k h1 h2 => hno k h1 (by omega)]
      rintro ⟨hvalid, hreg⟩
      obtain ⟨k, rfl, hk⟩ := (csrOpValid_iff V).mp hvalid
      rw [(csrOp_of_accepted V hk).2.1] at hreg
      exact hno k (by omega) (by omega) ⟨hk, hreg⟩

end Iexec

open Iexec

/-- SWITCH after a write of {lit}`CTX_PCSWITCH`.  A SWITCH accepted at edge {lit}`v` transfers
control; it goes to the value of the last write, accepted at edge {lit}`t`, exactly if five
edges have passed or the register held that value before. -/
theorem switch_target_iff (V : Megafunctions) (inp : ℕ → IexecInput) {t v : ℕ} (htv : t < v)
    (hwrite : PcswitchWritten V inp t) (hswitch : SwitchAccepted V inp v)
    (hno : ∀ k, t < k → k < v → ¬ PcswitchWritten V inp k) :
    (run V inp (v + 1)).out.cxfer = true ∧
      ((run V inp (v + 1)).out.cxferPc = csrWritten V inp t ↔
        t + 5 ≤ v ∨ (run V inp (t + 3)).ctxPcSwitchR = csrWritten V inp t) := by
  obtain ⟨hcxfer, hpc⟩ := hswitch.transfers
  refine ⟨hcxfer, ?_⟩
  rw [hpc]
  by_cases hlate : t + 5 ≤ v
  · exact iff_of_true (ctxPcSwitchR_after V hwrite hlate hno) (.inl hlate)
  · have hle := CsrAccepted.le V hwrite.1 htv hswitch.accepts
    have hold : (run V inp v).ctxPcSwitchR = (run V inp (t + 3)).ctxPcSwitchR := by
      obtain rfl | rfl : v = t + 3 ∨ v = t + 4 := by omega
      · rfl
      · exact ctxPcSwitchR_before V hwrite.1
    rw [hold]
    exact ⟨.inr, fun h => h.resolve_left hlate⟩

/-- {lit}`csrrwi x0, 0x880, 4` and then {lit}`csrrwi x0, 0x9C0, 0`, offered from edge {lit}`n` on. -/
def switchInput (n t : ℕ) : IexecInput where
  iexecIn := Idecode.iexecIn
    ⟨0#32, if t = 0 then 0x88025073#32 else 0x9C005073#32, t = 0 ∨ n ≤ t, false⟩
  dcacheHit := false
  dcacheReadData := 0#32
  dcacheWriteStrobe := false
  csrBus := 0#32
  intrOut := ⟨false, 0#4⟩

/-- Back to back, the SWITCH goes to the old value. -/
theorem switch_target_stale :
    PcswitchWritten .documented (switchInput 1) 0 ∧ SwitchAccepted .documented (switchInput 1) 3 ∧
      (∀ k, 0 < k → k < 3 → ¬ PcswitchWritten .documented (switchInput 1) k) ∧
      csrWritten .documented (switchInput 1) 0 = 4#32 ∧
      (run .documented (switchInput 1) 4).out.cxferPc = 0#32 := by
  refine ⟨⟨⟨by decide, by decide⟩, by decide⟩, ⟨by decide, by decide, by decide⟩, ?_, by decide,
    by decide⟩
  rintro k h1 h2 ⟨⟨hacc, -⟩, -⟩
  obtain rfl | rfl : k = 1 ∨ k = 2 := by omega
  · revert hacc
    decide
  · revert hacc
    decide

/-- Five edges later it goes to the new one. -/
theorem switch_target_iff_late :
    (run .documented (switchInput 5) 6).out.cxferPc = csrWritten .documented (switchInput 5) 0 := by
  refine (switch_target_iff .documented (switchInput 5) (t := 0) (v := 5) (by decide)
    ⟨⟨by decide, by decide⟩, by decide⟩ ⟨by decide, by decide, by decide⟩ ?_).2.mpr (.inl le_rfl)
  rintro k h1 h2 ⟨⟨hacc, -⟩, -⟩
  obtain rfl | rfl | rfl | rfl : k = 1 ∨ k = 2 ∨ k = 3 ∨ k = 4 := by omega
  all_goals
    revert hacc
    decide

end Sumeru
