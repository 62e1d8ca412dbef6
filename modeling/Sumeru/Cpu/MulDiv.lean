import Mathlib.Tactic.Zify
import Mathlib.Tactic.Positivity
import Sumeru.Cpu.Instructions

/-!
# Sumeru - Multiplication and division

The multiplier and the divider of {lit}`cpu_muldiv` against the RV32M specification.
Signedness is selected from bits of {lit}`funct3`, and one 33-bit signed divider
serves signed and unsigned division through an extension bit.  What is assumed of the
vendor megafunctions is stated in {lit}`Megafunctions.Exact`.

Main results:

- Theorems {lit}`mulResult_eq` and {lit}`divResult_eq`: the combinational results.
- Theorem {lit}`regfile_after_div`: the register file when the stage leaves
  {lit}`DIV_WAIT`.
- Theorem {lit}`rv32m_results`: both for the instructions in the execute stage.
-/

namespace Sumeru
open Rv32

/-! ## Halves of an integer in two's complement -/

/-- The low bits of an integer. -/
theorem extractLsb'_ofInt_low {n m : ℕ} (h : m ≤ n) (x : ℤ) :
    (BitVec.ofInt n x).extractLsb' 0 m = BitVec.ofInt m x := by
  have hdvd : (2 ^ m : ℤ) ∣ 2 ^ n := pow_dvd_pow 2 h
  apply BitVec.eq_of_toNat_eq
  rw [BitVec.extractLsb'_toNat, Nat.shiftRight_zero, BitVec.toNat_ofInt, BitVec.toNat_ofInt]
  zify
  rw [Int.toNat_of_nonneg (Int.emod_nonneg _ (by positivity)),
    Int.toNat_of_nonneg (Int.emod_nonneg _ (by positivity))]
  exact Int.emod_emod_of_dvd x hdvd

/-- The high bits of an integer. -/
theorem extractLsb'_ofInt_high (x : ℤ) :
    (BitVec.ofInt 64 x).extractLsb' 32 32 = BitVec.ofInt 32 (x / 2 ^ 32) := by
  apply BitVec.eq_of_toNat_eq
  rw [BitVec.extractLsb'_toNat, BitVec.toNat_ofInt, BitVec.toNat_ofInt, Nat.shiftRight_eq_div_pow]
  omega

/-! ## The vendor megafunctions -/

/-- The value of an operand with or without sign. -/
def signedOperand (sign : Bool) (a : BitVec 32) : ℤ := if sign then a.toInt else (a.toNat : ℤ)

/-- The megafunctions compute the exact product, and the quotient and remainder rounded
towards zero for every nonzero denominator. -/
structure Megafunctions.Exact (V : Megafunctions) : Prop where
  product : ∀ a b signA signB, V.altmultAdd a b signA signB =
    BitVec.ofInt 64 (signedOperand signA a * signedOperand signB b)
  quotient : ∀ numer denom, denom ≠ 0#33 →
    (V.lpmDivide numer denom).1 = BitVec.ofInt 33 (numer.toInt.tdiv denom.toInt)
  remain : ∀ numer denom, denom ≠ 0#33 →
    (V.lpmDivide numer denom).2 = BitVec.ofInt 33 (numer.toInt.tmod denom.toInt)

/-- An operand extended to 64 bits. -/
theorem ofInt_signedOperand (sign : Bool) (a : BitVec 32) :
    BitVec.ofInt 64 (signedOperand sign a) = if sign then a.signExtend 64 else a.setWidth 64 := by
  cases sign with
  | false =>
      apply BitVec.eq_of_toNat_eq
      have := a.isLt
      simp [signedOperand]
  | true =>
      rfl

/-- The documented functions are exact. -/
theorem documented_exact : Megafunctions.documented.Exact where
  product a b signA signB := by
    rw [BitVec.ofInt_mul, ofInt_signedOperand, ofInt_signedOperand]
    rfl
  quotient numer denom _ := by
    apply BitVec.eq_of_toInt_eq
    rw [BitVec.toInt_ofInt]
    exact BitVec.toInt_sdiv numer denom
  remain numer denom _ := by
    apply BitVec.eq_of_toInt_eq
    change (numer.srem denom).toInt = _
    rw [← BitVec.toInt_srem, BitVec.ofInt_toInt]

/-! ## Multiplication -/

/-- The product. -/
theorem mulResult_eq {V : Megafunctions} (hV : V.Exact) (f : MulFn) (a b : BitVec 32) :
    mulResult V a b (0#1 ++ f.funct3) = f.eval a b := by
  simp only [mulResult, hV.product]
  cases f
  case mul => exact extractLsb'_ofInt_low (by decide) _
  case mulh => exact extractLsb'_ofInt_high _
  case mulhsu => exact extractLsb'_ofInt_high _
  case mulhu => exact extractLsb'_ofInt_high _

/-! ## Division -/

/-- The extension bit gives the operands of the 33-bit divider the value of the
instruction's operands. -/
theorem toInt_divInputs (a b : BitVec 32) (op : BitVec 4) :
    (divInputs a b op).1.toInt = signedOperand (!op.getLsbD 0) a ∧
      (divInputs a b op).2.toInt = signedOperand (!op.getLsbD 0) b := by
  have hext : ∀ x : BitVec 32, (BitVec.ofBool (x.getLsbD 31) ++ x).toInt = x.toInt ∧
      (BitVec.ofBool false ++ x).toInt = x.toNat := by
    intro x
    have hx := x.isLt
    have hmsb : x.getLsbD 31 = decide (2 ^ 31 ≤ x.toNat) := by
      exact (BitVec.msb_eq_getLsbD_last x).symm.trans (BitVec.msb_eq_decide x)
    have happ : ∀ c : Bool, (BitVec.ofBool c ++ x).toNat = c.toNat * 2 ^ 32 + x.toNat := by
      intro c
      rw [toNat_append_eq]
      cases c <;> rfl
    constructor
    · rw [BitVec.toInt_eq_toNat_cond, BitVec.toInt_eq_toNat_cond, happ, hmsb]
      by_cases h : 2 ^ 31 ≤ x.toNat
      · rw [decide_eq_true h, Bool.toNat_true]
        split <;> split <;> omega
      · rw [decide_eq_false h, Bool.toNat_false]
        split <;> split <;> omega
    · rw [BitVec.toInt_eq_toNat_cond, happ, Bool.toNat_false]
      split <;> omega
  cases h : op.getLsbD 0 with
  | false =>
      simp only [divInputs, h, if_true]
      exact ⟨(hext a).1, (hext b).1⟩
  | true =>
      simp only [divInputs, h, Bool.true_eq_false, if_false]
      exact ⟨(hext a).2, (hext b).2⟩

/-- A divisor that is not zero. -/
theorem divInputs_ne_zero {b : BitVec 32} (hb : b ≠ 0#32) (a : BitVec 32) (op : BitVec 4) :
    (divInputs a b op).2 ≠ 0#33 := by
  intro h
  apply hb
  have hlow : ∀ c : Bool, (BitVec.ofBool c ++ b).extractLsb' 0 32 = b := by
    intro c
    exact BitVec.extractLsb'_append_eq_right
  rw [← hlow (if op.getLsbD 0 = false then b.getLsbD 31 else false)]
  change (divInputs a b op).2.extractLsb' 0 32 = _
  rw [h]
  rfl

/-- The quotient and the remainder. -/
theorem divResult_eq {V : Megafunctions} (hV : V.Exact) (f : DivFn) (a : BitVec 32) {b : BitVec 32}
    (hb : b ≠ 0#32) :
    divResult V (divInputs a b (0#1 ++ f.funct3)) (0#1 ++ f.funct3) = f.eval a b := by
  obtain ⟨h1, h2⟩ := toInt_divInputs a b (0#1 ++ f.funct3)
  have hne := divInputs_ne_zero hb a (0#1 ++ f.funct3)
  simp only [divResult, hV.quotient _ _ hne, hV.remain _ _ hne, h1, h2]
  cases f
  case div => exact extractLsb'_ofInt_low (by decide) _
  case divu =>
    refine (extractLsb'_ofInt_low (by decide) _).trans ?_
    change BitVec.ofInt 32 ((a.toNat : ℤ).tdiv (b.toNat : ℤ)) = _
    rw [Int.natCast_tdiv_eq_ediv, ← Int.natCast_ediv, BitVec.ofInt_natCast]
    rfl
  case rem => exact extractLsb'_ofInt_low (by decide) _
  case remu =>
    refine (extractLsb'_ofInt_low (by decide) _).trans ?_
    change BitVec.ofInt 32 ((a.toNat : ℤ).tmod (b.toNat : ℤ)) = _
    rw [Int.tmod_eq_emod_of_nonneg (Int.natCast_nonneg _), ← Int.natCast_emod, BitVec.ofInt_natCast]
    rfl

/-! ## The instructions in the execute stage -/

/-- The command of the M extension. -/
theorem decodeCommand_m {w : BitVec 32} {f3 : BitVec 3} (h : EncodesM w f3) :
    decodeCommand w = ⟨.muldiv, 0#1 ++ f3, true⟩ := by
  obtain ⟨hop, h7, rfl⟩ := h
  have h25 := getLsbD_funct7 w (show 0 < 7 by decide)
  have h30 := getLsbD_funct7 w (show 5 < 7 by decide)
  rw [h7] at h25 h30
  have hshift : ¬ ((instFunct3 w).extractLsb' 0 2 = 0b01#2 ∧
      (0b0000001#7 : BitVec 7).getLsbD 0 = false) := fun h => Bool.noConfusion h.2
  simp only [decodeCommand, instOpcode_of hop, decodeCommandArith, h25, h30, if_neg hshift]
  rfl

section Division

variable {V : Megafunctions} {s : Iexec} {inp : ℕ → IexecInput}

/-- A division counts down for ten cycles. -/
theorem divWait_run (hacc : s.accepts (inp 0) = true) (hdiv : isDiv (inp 0).iexecIn = true) {k : ℕ}
    (hk : k ≤ 9) :
    (Clocked.run (Iexec.step V) s inp (k + 1)).state = .divWait ∧
      (Clocked.run (Iexec.step V) s inp (k + 1)).divCtr.toNat = 9 - k ∧
      Iexec.Tracks V (s.operand V (inp 0)) (some (inp 0).iexecIn)
        (Clocked.run (Iexec.step V) s inp (k + 1)) := by
  induction k with
  | zero =>
      have hmul : (inp 0).iexecIn.cmd = .muldiv ∧ (inp 0).iexecIn.cmdOp.getLsbD 2 = true := by
        simpa [isDiv] using hdiv
      have hfile : s.nextRegfile V (inp 0) = s.operand V (inp 0) :=
        funext fun r => (Iexec.operand_eq_nextRegfile (inp 0) r).symm
      refine ⟨?_, ?_, Iexec.tracks_accept hacc hfile⟩
      · change (Iexec.mainProcess V s (inp 0)).state = _
        rw [Iexec.mainProcess_of_accepts V hacc]
        change Iexec.acceptState _ = _
        rw [Iexec.acceptState, hmul.1, hmul.2]
        rfl
      · change (Iexec.mainProcess V s (inp 0)).divCtr.toNat = _
        rw [Iexec.mainProcess_of_accepts V hacc]
        change (if _ then _ else _ : BitVec 4).toNat = _
        rw [if_pos hmul]
        rfl
  | succ k ih =>
      obtain ⟨hst, hctr, htr⟩ := ih (by omega)
      have hne : (Clocked.run (Iexec.step V) s inp (k + 1)).divCtr ≠ 0#4 := by
        intro h0
        rw [h0] at hctr
        change 0 = _ at hctr
        omega
      have htr' := Iexec.tracks_step htr (inp (k + 1))
      rw [Iexec.nextRegs, if_neg (by rw [hst]; decide), Iexec.nextInFlight,
        Iexec.not_accepts_of_state (by rw [hst]; decide), if_neg (by decide),
        if_neg (by rw [hst]; decide)] at htr'
      refine ⟨?_, ?_, htr'⟩
      · change (Iexec.mainProcess V (Clocked.run (Iexec.step V) s inp (k + 1)) _).state = _
        rw [Iexec.mainProcess, hst]
        simp [hne, Iexec.edgeDefaults, hst]
      · change (Iexec.mainProcess V (Clocked.run (Iexec.step V) s inp (k + 1)) _).divCtr.toNat = _
        rw [Iexec.mainProcess, hst]
        simp only [hne, if_false]
        bv_omega

/-- The edge that leaves {lit}`DIV_WAIT` has written the result of the division. -/
theorem regfile_after_div (hacc : s.accepts (inp 0) = true) (hdiv : isDiv (inp 0).iexecIn = true) :
    (Clocked.run (Iexec.step V) s inp 11).state = .running ∧
      ∃ c : Completed, c.inst = (inp 0).iexecIn ∧
        (Clocked.run (Iexec.step V) s inp 11).regfile = execute V (s.operand V (inp 0)) c := by
  obtain ⟨hst, hctr, htr⟩ := divWait_run (V := V) hacc hdiv (le_refl 9)
  have hz : (Clocked.run (Iexec.step V) s inp 10).divCtr = 0#4 := BitVec.eq_of_toNat_eq hctr
  have hmain : (Clocked.run (Iexec.step V) s inp 10).mainProcess V (inp 10) =
      { (Clocked.run (Iexec.step V) s inp 10).edgeDefaults with state := .running } := by
    rw [Iexec.mainProcess, hst]
    simp only [hz, if_true]
  have hrun : (Clocked.run (Iexec.step V) s inp 11).state = .running := by
    change (Iexec.mainProcess V (Clocked.run (Iexec.step V) s inp 10) _).state = _
    rw [hmain]
  have hwren : (Clocked.run (Iexec.step V) s inp 11).regfileWren = false := by
    change (Iexec.mainProcess V (Clocked.run (Iexec.step V) s inp 10) _).regfileWren = _
    rw [hmain]
    rfl
  have htr' := Iexec.tracks_step htr (inp 10)
  rw [Iexec.nextRegs, if_neg (by rw [hst]; decide), Iexec.nextInFlight,
    Iexec.not_accepts_of_state (by rw [hst]; decide), if_neg (by decide),
    if_neg (by rw [hst]; decide)] at htr'
  refine ⟨hrun, (Clocked.run (Iexec.step V) s inp 11).complete (inp 11) (inp 0).iexecIn, rfl, ?_⟩
  rw [← Iexec.nextRegfile_of_not_wren (V := V) hwren (inp 11)]
  exact htr'.nextRegfile_eq hrun (inp 11)

end Division

/-- The fields of a decoded RV32M word. -/
theorem iexecIn_m {d : Idecode} {f3 : BitVec 3} (h : EncodesM d.instR f3) :
    d.iexecIn.cmd = .muldiv ∧ d.iexecIn.cmdOp = 0#1 ++ f3 ∧ d.iexecIn.cmdUseReg = true ∧
      d.iexecIn.rd = Rv32.rd d.instR ∧ d.iexecIn.rs1 = Rv32.rs1 d.instR ∧
      d.iexecIn.rs2 = Rv32.rs2 d.instR := by
  obtain ⟨h1, h2, h3, -⟩ := iexecIn_command d
  rw [decodeCommand_m h] at h1 h2 h3
  exact ⟨h1, h2, h3, iexecIn_rd h.1 (by decide), iexecIn_rs1 h.1 (by decide),
    iexecIn_rs2 h.1 (by decide) (by decide)⟩

/-- RV32M results.  An accepted multiplication writes its product word at the next
edge.  An accepted division by a nonzero divisor spends ten cycles in {lit}`DIV_WAIT`, and
the value left in its destination when the stage leaves them is the quotient or the
remainder of the specification. -/
theorem rv32m_results (V : Megafunctions) (hV : V.Exact) (s : Iexec) (inp : ℕ → IexecInput)
    (d : Idecode) (hacc : s.accepts (inp 0) = true) (hin : (inp 0).iexecIn = d.iexecIn) :
    (∀ f : MulFn, EncodesM d.instR f.funct3 →
      (Clocked.run (Iexec.step V) s inp 1).Writes V (Rv32.rd d.instR)
        (f.eval (s.operand V (inp 0) (Rv32.rs1 d.instR)) (s.operand V (inp 0) (Rv32.rs2 d.instR)))) ∧
    (∀ f : DivFn, EncodesM d.instR f.funct3 → s.operand V (inp 0) (Rv32.rs2 d.instR) ≠ 0#32 →
      (∀ k, 1 ≤ k → k ≤ 10 → (Clocked.run (Iexec.step V) s inp k).state = .divWait) ∧
      (Clocked.run (Iexec.step V) s inp 11).state = .running ∧
      (Rv32.rd d.instR ≠ 0#5 →
        (Clocked.run (Iexec.step V) s inp 11).regfile (Rv32.rd d.instR) =
          f.eval (s.operand V (inp 0) (Rv32.rs1 d.instR))
            (s.operand V (inp 0) (Rv32.rs2 d.instR)))) := by
  refine ⟨fun f henc => ?_, fun f henc hb => ?_⟩
  · obtain ⟨hcmd, hop, huse, hrd, hrs1, hrs2⟩ := iexecIn_m henc
    have hst := Iexec.inStage_step (V := V) hacc
    rw [hin] at hst
    have hndiv : isDiv d.iexecIn = false := by
      rw [isDiv, hcmd, hop]
      cases f <;> rfl
    refine ⟨?_, hst.regfileWraddr.trans hrd, fun i' => ?_⟩
    · change (Iexec.mainProcess V s (inp 0)).regfileWren = _
      rw [Iexec.mainProcess_of_accepts V hacc]
      simp [Iexec.accept, hin, hcmd]
    · change (s.step V (inp 0)).rdWriteData V i' = _
      rw [Iexec.rdWriteData, hst.cmdResultMux, hndiv, hcmd, hst.opA, hst.opB, hst.aluOp, hop,
        secondOperand, huse, hrs1, hrs2]
      exact mulResult_eq hV f _ _
  · obtain ⟨hcmd, hop, huse, hrd, hrs1, hrs2⟩ := iexecIn_m henc
    have hdiv : isDiv (inp 0).iexecIn = true := by
      rw [hin, isDiv, hcmd, hop]
      cases f <;> rfl
    obtain ⟨hrun, c, hc, hfile⟩ := regfile_after_div (V := V) hacc hdiv
    refine ⟨fun k h1 h10 => ?_, hrun, fun hnz => ?_⟩
    · obtain ⟨j, rfl⟩ : ∃ j, k = j + 1 := ⟨k - 1, by omega⟩
      exact (divWait_run hacc hdiv (by omega)).1
    · have hb2 : (0#1 ++ f.funct3 : BitVec 4).getLsbD 2 = true := by
        cases f <;> rfl
      have hres : result V (s.operand V (inp 0)) c = some (f.eval
          (s.operand V (inp 0) (Rv32.rs1 d.instR)) (s.operand V (inp 0) (Rv32.rs2 d.instR))) := by
        simp only [result, hc, hin, hcmd, hop, hb2, if_true, secondOperand, huse, hrs1, hrs2,
          Bool.true_eq_false, if_false]
        rw [divResult_eq hV f _ hb]
      rw [hfile, execute, hc, hin, hrd, if_pos ⟨rfl, hnz⟩, hres]
      rfl

example : DivFn.eval (BitVec.intMin 32) (-1#32) .div = BitVec.intMin 32 := by decide

example : DivFn.eval (BitVec.intMin 32) (-1#32) .rem = 0#32 := by decide

/-- The decode registers with the word for {lit}`div x1, x2, x3`. -/
def divDecoded : Idecode where
  pcR := 0#32
  instR := 0x023140b3#32
  execValid := true
  triggerCxfer := false

/-- The execute stage with 7 in every register but register zero. -/
def sevens : Iexec := { Iexec.init with regfile := fun r => if r = 0#5 then 0#32 else 7#32 }

/-- Dividing 7 by 7 leaves 1 in the destination. -/
theorem rv32m_results_div :
    (Clocked.run (Iexec.step .documented) sevens
      (fun _ => { addiInput with iexecIn := divDecoded.iexecIn }) 11).regfile 1#5 = 1#32 :=
  ((rv32m_results .documented documented_exact sevens
    (fun _ => { addiInput with iexecIn := divDecoded.iexecIn }) divDecoded rfl rfl).2 .div
    ⟨rfl, rfl, rfl⟩ (by decide)).2.2 (by decide)

end Sumeru
