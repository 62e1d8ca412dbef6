import Mathlib.Data.Nat.Count
import Sumeru.Cpu.CsrAccess

/-!
# Sumeru - Performance counters

The counters of {lit}`csr_counters`: time, cycles and retired instructions.  The last one is
clocked by {lit}`clk_instret`, a register of the execute stage that changes at every
acceptance.

Main results:

- Theorem {lit}`InstretUnit.ctrInstret_run`: the counter counts every other acceptance.
- Theorem {lit}`instret_counts_iff`: when it shows the number of accepted instructions.
-/

namespace Sumeru

def csrRegCtrCycle : BitVec 12 := 0xC00#12
def csrRegCtrCycleH : BitVec 12 := 0xC80#12
def csrRegCtrTime : BitVec 12 := 0xC01#12
def csrRegCtrTimeH : BitVec 12 := 0xC81#12
def csrRegCtrInstret : BitVec 12 := 0xC02#12
def csrRegCtrInstretH : BitVec 12 := 0xC82#12

/-- {lit}`lpm_counter` of 64 bits: cleared by {lit}`aclr`, else advanced by a rising edge of its
clock. -/
def lpmCounter (aclr rising : Bool) (q : BitVec 64) : BitVec 64 :=
  if aclr then 0#64 else if rising then q + 1#64 else q

/-- The registers of {lit}`csr_counters`. -/
structure CsrCounters where
  ctrCycle : BitVec 64
  ctrTime : BitVec 64
  ctrInstret : BitVec 64

namespace CsrCounters

def init : CsrCounters := ⟨0#64, 0#64, 0#64⟩

/-- What the block drives on {lit}`csr_sel_result`; {lit}`none` is high impedance. -/
def csrSelResult (c : CsrCounters) (csrSelReg : BitVec 12) : Option (BitVec 32) :=
  if csrSelReg = csrRegCtrCycle then some (c.ctrCycle.extractLsb' 0 32)
  else if csrSelReg = csrRegCtrCycleH then some (c.ctrCycle.extractLsb' 32 32)
  else if csrSelReg = csrRegCtrTime then some (c.ctrTime.extractLsb' 0 32)
  else if csrSelReg = csrRegCtrTimeH then some (c.ctrTime.extractLsb' 32 32)
  else if csrSelReg = csrRegCtrInstret then some (c.ctrInstret.extractLsb' 0 32)
  else if csrSelReg = csrRegCtrInstretH then some (c.ctrInstret.extractLsb' 32 32)
  else none

/-- One cycle, with the rising edges of {lit}`clk_cycle` and {lit}`clk_instret` in it. -/
def step (c : CsrCounters) (reset cycleRises instretRises : Bool) : CsrCounters where
  ctrCycle := lpmCounter reset cycleRises c.ctrCycle
  ctrTime := lpmCounter reset true c.ctrTime
  ctrInstret := lpmCounter reset instretRises c.ctrInstret

end CsrCounters

/-- The execute stage with the counters. -/
structure InstretUnit where
  iexec : Iexec
  counters : CsrCounters

/-- Inputs of the unit in one cycle. -/
structure InstretInput where
  iexec : IexecInput
  reset : Bool
  cycleRises : Bool

namespace InstretUnit

variable (V : Megafunctions)

def init : InstretUnit := ⟨Iexec.init, CsrCounters.init⟩

/-- One rising edge of {lit}`clk`. -/
def step (s : InstretUnit) (i : InstretInput) : InstretUnit :=
  let iexec := s.iexec.step V i.iexec
  { iexec := iexec
    counters := s.counters.step i.reset i.cycleRises (!s.iexec.clkInstretR && iexec.clkInstretR) }

/-- The unit in front of the {lit}`t`-th edge of {lit}`clk`. -/
def run (inp : ℕ → InstretInput) (t : ℕ) : InstretUnit := Clocked.run (step V) init inp t

/-- The stage accepts an instruction at edge {lit}`t`. -/
def Accepts (inp : ℕ → InstretInput) (t : ℕ) : Prop :=
  (run V inp t).iexec.accepts (inp t).iexec = true

instance (inp : ℕ → InstretInput) : DecidablePred (Accepts V inp) :=
  fun t => inferInstanceAs (Decidable ((run V inp t).iexec.accepts (inp t).iexec = true))

/-- The number of instructions accepted from edge {lit}`r` on, before edge {lit}`t`. -/
def accepted (inp : ℕ → InstretInput) (r t : ℕ) : ℕ :=
  Nat.count (fun k => Accepts V inp (r + k)) (t - r)

/-- The reset is released at edge {lit}`r`; before, the fetch stage is not enabled and no
instruction is valid. -/
structure ReleasedAt (inp : ℕ → InstretInput) (r : ℕ) : Prop where
  reset : ∀ t, (inp t).reset = decide (t < r)
  disabled : ∀ t, t < r → (inp t).iexec.iexecIn.valid = false

variable {V} {inp : ℕ → InstretInput} {r t : ℕ}

/-- The retire signal toggles with every accepted instruction. -/
theorem clkInstretR_succ (t : ℕ) : (run V inp (t + 1)).iexec.clkInstretR =
    if Accepts V inp t then !(run V inp t).iexec.clkInstretR
    else (run V inp t).iexec.clkInstretR := by
  by_cases hacc : Accepts V inp t
  · rw [if_pos hacc]
    change ((run V inp t).iexec.step V (inp t).iexec).clkInstretR = _
    rw [Iexec.step, Iexec.mainProcess_of_accepts V hacc]
    rfl
  · rw [if_neg hacc]
    exact (Iexec.sameInstruction_step V (Bool.not_eq_true _ ▸ hacc)).clkInstretR

/-- Accepted instructions are counted. -/
theorem accepted_succ (h : r ≤ t) : accepted V inp r (t + 1) =
    accepted V inp r t + if Accepts V inp t then 1 else 0 := by
  rw [accepted, Nat.succ_sub h, Nat.count_succ, Nat.add_sub_cancel' h]
  rfl

/-- In reset nothing is accepted and the counter is clear. -/
theorem run_in_reset (hr : ReleasedAt inp r) (ht : t ≤ r) :
    (run V inp t).iexec.clkInstretR = false ∧ (run V inp t).counters.ctrInstret = 0#64 := by
  induction t with
  | zero => exact ⟨rfl, rfl⟩
  | succ t ih =>
      have hno : ¬ Accepts V inp t := by
        intro hacc
        have := (Iexec.accepts_iff.mp hacc).2.1
        rw [hr.disabled t (by omega)] at this
        cases this
      refine ⟨by rw [clkInstretR_succ, if_neg hno, (ih (by omega)).1], ?_⟩
      change lpmCounter (inp t).reset _ _ = 0#64
      rw [hr.reset, decide_eq_true (by omega)]
      rfl

/-- The clock of the counter is high after an odd number of acceptances, and the counter
has seen one rising edge for every two of them. -/
theorem ctrInstret_run (hr : ReleasedAt inp r) (ht : r ≤ t) :
    (run V inp t).iexec.clkInstretR = decide (accepted V inp r t % 2 = 1) ∧
      (run V inp t).counters.ctrInstret = BitVec.ofNat 64 ((accepted V inp r t + 1) / 2) := by
  induction t, ht using Nat.le_induction with
  | base =>
      obtain ⟨hclk, hctr⟩ := run_in_reset (V := V) hr le_rfl
      rw [hclk, hctr, accepted, Nat.sub_self, Nat.count_zero]
      exact ⟨rfl, rfl⟩
  | succ t ht ih =>
      obtain ⟨hclk, hctr⟩ := ih
      have hstep : (run V inp (t + 1)).counters.ctrInstret = lpmCounter (inp t).reset
          (!(run V inp t).iexec.clkInstretR && (run V inp (t + 1)).iexec.clkInstretR)
          (run V inp t).counters.ctrInstret := rfl
      rw [hstep, clkInstretR_succ, hr.reset, decide_eq_false (Nat.not_lt.mpr ht),
        accepted_succ ht, hclk, hctr]
      by_cases hacc : Accepts V inp t
      · rw [if_pos hacc, if_pos hacc]
        by_cases hodd : accepted V inp r t % 2 = 1
        · have hhalf : (accepted V inp r t + 1 + 1) / 2 = (accepted V inp r t + 1) / 2 := by omega
          have heven : ¬ (accepted V inp r t + 1) % 2 = 1 := by omega
          rw [hhalf, decide_eq_true hodd, decide_eq_false heven]
          exact ⟨rfl, rfl⟩
        · have hhalf : (accepted V inp r t + 1 + 1) / 2 = (accepted V inp r t + 1) / 2 + 1 := by
            omega
          have hnext : (accepted V inp r t + 1) % 2 = 1 := by omega
          rw [hhalf, decide_eq_false hodd, decide_eq_true hnext, BitVec.ofNat_add]
          exact ⟨rfl, rfl⟩
      · rw [if_neg hacc, if_neg hacc, Nat.add_zero]
        cases hb : decide (accepted V inp r t % 2 = 1) <;> exact ⟨rfl, rfl⟩

end InstretUnit

open InstretUnit

/-- The 64-bit value that CSR INSTRET and INSTRETH show. -/
def CsrCounters.instret (c : CsrCounters) : BitVec 64 :=
  (c.csrSelResult csrRegCtrInstretH).getD 0#32 ++ (c.csrSelResult csrRegCtrInstret).getD 0#32

/-- The value that a read of the counter shows. -/
theorem CsrCounters.instret_eq (c : CsrCounters) : c.instret = c.ctrInstret := by
  have hlow : (c.csrSelResult csrRegCtrInstret).getD 0#32 = c.ctrInstret.extractLsb' 0 32 := by
    rw [CsrCounters.csrSelResult, if_neg (by decide), if_neg (by decide), if_neg (by decide),
      if_neg (by decide), if_pos rfl]
    rfl
  have hhigh : (c.csrSelResult csrRegCtrInstretH).getD 0#32 = c.ctrInstret.extractLsb' 32 32 := by
    rw [CsrCounters.csrSelResult, if_neg (by decide), if_neg (by decide), if_neg (by decide),
      if_neg (by decide), if_neg (by decide), if_pos rfl]
    rfl
  rw [CsrCounters.instret, hlow, hhigh,
    BitVec.extractLsb'_append_extractLsb'_eq_extractLsb' (by rfl)]
  exact BitVec.extractLsb'_eq_self

/-- The retired-instruction counter.  At every edge of every run from reset, with {lit}`n`
instructions accepted since the release, the counter shows {lit}`(n + 1) / 2`, which is
{lit}`n` modulo {lit}`2 ^ 64` exactly if {lit}`n / 2` is zero there. -/
theorem instret_counts_iff (V : Megafunctions) (inp : ℕ → InstretInput) {r t : ℕ}
    (hr : ReleasedAt inp r) (ht : r ≤ t) :
    (run V inp t).counters.instret = BitVec.ofNat 64 ((accepted V inp r t + 1) / 2) ∧
      ((run V inp t).counters.instret = BitVec.ofNat 64 (accepted V inp r t) ↔
        accepted V inp r t / 2 % 2 ^ 64 = 0) := by
  have hctr := (ctrInstret_run (V := V) hr ht).2
  rw [CsrCounters.instret_eq, hctr]
  refine ⟨rfl, ?_⟩
  rw [← BitVec.toNat_inj, BitVec.toNat_ofNat, BitVec.toNat_ofNat]
  omega

/-- Two additions accepted one after the other count as one instruction. -/
theorem instret_two_additions :
    accepted .documented (fun _ => ⟨addiInput, false, false⟩) 0 2 = 2 ∧
      (run .documented (fun _ => ⟨addiInput, false, false⟩) 2).counters.instret = 1#64 := by
  decide

/-- One addition counts as one. -/
theorem instret_counts_iff_addition :
    (run .documented (fun _ => ⟨addiInput, false, false⟩) 1).counters.instret = BitVec.ofNat 64
      (accepted .documented (fun _ => ⟨addiInput, false, false⟩) 0 1) :=
  (instret_counts_iff .documented (fun _ => ⟨addiInput, false, false⟩) (r := 0) (t := 1)
    ⟨fun _ => rfl, fun t ht => absurd ht (by omega)⟩ (by decide)).2.mpr (by decide)

end Sumeru
