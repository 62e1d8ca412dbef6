import Sumeru.Cpu.Targets
import Sumeru.Cpu.MulDiv
import Sumeru.Cache.MemOps

/-!
# Sumeru - The sequential RV32IM machine

What a program means: a machine that executes one instruction after the other on a pc, a
register file and a memory of bytes.  The processor has 25 address bits, so the memory has
{lit}`2 ^ 25` bytes and the upper bits of an address do not count.  An instruction
outside the supported set stops the machine: a misaligned access, a division by zero, a
JALR to an odd address.  A FENCE.I only moves the pc, because the program is not modified.

Main results:

- Theorem {lit}`Rv32.RvMachine.After.next`: a program that has executed {lit}`n + 1`
  instructions has executed {lit}`n` of them before.
-/

namespace Sumeru

/-- The register file with {lit}`v` in register {lit}`rd`; register zero keeps its value. -/
def Regs.write (regs : Regs) (rd : BitVec 5) (v : BitVec 32) : Regs :=
  fun r => if r = rd ∧ r ≠ 0#5 then v else regs r

namespace Rv32

/-! ## Loads and stores -/

/-- The value of a load from byte {lit}`a` on. -/
def LoadKind.read (m : ByteMem) (a : BitVec 25) : LoadKind → BitVec 32
  | lb => (m a).signExtend 32
  | lbu => (m a).setWidth 32
  | lh => (m (a + 1#25) ++ m a).signExtend 32
  | lhu => (m (a + 1#25) ++ m a).setWidth 32
  | lw => m (a + 3#25) ++ m (a + 2#25) ++ m (a + 1#25) ++ m a

/-- The memory after a store of the low bytes of {lit}`data` from byte {lit}`a` on. -/
def StoreKind.write (k : StoreKind) (a : BitVec 25) (data : BitVec 32) (m : ByteMem) : ByteMem :=
  fun x =>
    if (x - a).toNat < k.size then data.extractLsb' (8 * (x - a).toNat) 8 else m x

/-- The part of an address that the memory sees. -/
def memAddr (addr : BitVec 32) : BitVec 25 := addr.extractLsb' 0 25

/-! ## Instructions -/

/-- What the machine asks of an RV32I instruction whose first source holds {lit}`a`. -/
def Instr.Supported (a : BitVec 32) : Instr → Prop
  | .jalr _ _ imm => (a + imm).getLsbD 0 = false
  | .load k _ _ imm => NaturallyAligned (a + imm) k.size
  | .store k _ _ imm => NaturallyAligned (a + imm) k.size
  | _ => True

instance (addr : BitVec 32) (size : ℕ) : Decidable (NaturallyAligned addr size) :=
  inferInstanceAs (Decidable (addr.toNat % size = 0))

instance (a : BitVec 32) : (ins : Instr) → Decidable (ins.Supported a)
  | .jalr _ _ imm => inferInstanceAs (Decidable ((a + imm).getLsbD 0 = false))
  | .load k _ _ imm => inferInstanceAs (Decidable (NaturallyAligned (a + imm) k.size))
  | .store k _ _ imm => inferInstanceAs (Decidable (NaturallyAligned (a + imm) k.size))
  | .op .. | .opImm .. | .lui .. | .auipc .. | .jal .. | .branch .. => .isTrue trivial

/-- The destination of an RV32I instruction at {lit}`pc` and the value written to it. -/
def Instr.result (pc a b : BitVec 32) (m : ByteMem) : Instr → Option (BitVec 5 × BitVec 32)
  | .op f rd _ _ => some (rd, f.eval a b)
  | .opImm f rd _ imm => some (rd, f.eval a imm)
  | .lui rd imm => some (rd, imm)
  | .auipc rd imm => some (rd, pc + imm)
  | .jal rd _ => some (rd, pc + 4#32)
  | .jalr rd _ _ => some (rd, pc + 4#32)
  | .load k rd _ imm => some (rd, k.read m (memAddr (a + imm)))
  | .branch _ _ _ _ => none
  | .store _ _ _ _ => none

/-- The memory after an RV32I instruction. -/
def Instr.memory (a b : BitVec 32) (m : ByteMem) : Instr → ByteMem
  | .store k _ _ imm => k.write (memAddr (a + imm)) b m
  | _ => m

/-- The instructions of RV32IM without the CSR instructions. -/
inductive Instruction where
  | base (ins : Instr)
  | mul (f : MulFn) (rd rs1 rs2 : BitVec 5)
  | div (f : DivFn) (rd rs1 rs2 : BitVec 5)
  | fence
deriving DecidableEq, Repr

/-- The word {lit}`w` encodes the instruction. -/
def Instruction.EncodedBy (w : BitVec 32) : Instruction → Prop
  | .base ins => Encodes w ins
  | .mul f d r1 r2 => EncodesM w f.funct3 ∧ d = rd w ∧ r1 = rs1 w ∧ r2 = rs2 w
  | .div f d r1 r2 => EncodesM w f.funct3 ∧ d = rd w ∧ r1 = rs1 w ∧ r2 = rs2 w
  | .fence => opcode w = 0b0001111#7 ∧ funct3 w = 0b000#3 ∧ rd w = 0#5

/-! ## The machine -/

/-- The state of the machine. -/
structure RvMachine where
  pc : BitVec 32
  regs : Regs
  mem : ByteMem

namespace RvMachine

/-- The machine after power-up, in front of a memory. -/
def boot (mem : ByteMem) : RvMachine := ⟨0#32, fun _ => 0#32, mem⟩

/-- A result written back. -/
def writeBack (regs : Regs) : Option (BitVec 5 × BitVec 32) → Regs
  | some (rd, v) => regs.write rd v
  | none => regs

/-- One instruction; {lit}`none` stops the machine. -/
def exec (m : RvMachine) : Instruction → Option RvMachine
  | .base ins =>
      let a := m.regs ins.source1
      let b := m.regs ins.source2
      if ins.Supported a then
        some
          { pc := ins.nextPc m.pc a b
            regs := writeBack m.regs (ins.result m.pc a b m.mem)
            mem := ins.memory a b m.mem }
      else none
  | .mul f rd r1 r2 =>
      some { m with pc := m.pc + 4#32, regs := m.regs.write rd (f.eval (m.regs r1) (m.regs r2)) }
  | .div f rd r1 r2 =>
      if m.regs r2 = 0#32 then none
      else
        some { m with pc := m.pc + 4#32, regs := m.regs.write rd (f.eval (m.regs r1) (m.regs r2)) }
  | .fence => some { m with pc := m.pc + 4#32 }

/-- The machine passes over FENCE.I words and executes the instruction behind them. -/
def Next (imem : BitVec 32 → BitVec 32) (m m' : RvMachine) : Prop :=
  ∃ q ins, IsNext imem m.pc q ∧ Instruction.EncodedBy (imem q) ins ∧
    { m with pc := q }.exec ins = some m'

/-- The machine after {lit}`n` instructions of a program. -/
inductive After (imem : BitVec 32 → BitVec 32) (m : RvMachine) : ℕ → RvMachine → Prop where
  | zero : After imem m 0 m
  | succ {n : ℕ} {m₁ m₂ : RvMachine} (h : After imem m n m₁) (hnext : Next imem m₁ m₂) :
      After imem m (n + 1) m₂

variable {imem : BitVec 32 → BitVec 32} {m m' : RvMachine} {n : ℕ}

/-- The last of {lit}`n + 1` instructions. -/
theorem After.next (h : After imem m (n + 1) m') : ∃ m₁, After imem m n m₁ ∧ Next imem m₁ m' := by
  cases h with
  | succ h hnext => exact ⟨_, h, hnext⟩

/-- An instruction other than a store leaves the memory. -/
theorem Next.mem_of_no_store (h : Next imem m m') (hno : ∀ pc, opcode (imem pc) ≠ 0b0100011#7) :
    m'.mem = m.mem := by
  obtain ⟨q, ins, -, henc, hexec⟩ := h
  cases ins with
  | base ins =>
      simp only [exec, Option.ite_none_right_eq_some, Option.some.injEq] at hexec
      obtain ⟨-, rfl⟩ := hexec
      cases ins with
      | store => exact absurd henc.1 (hno q)
      | _ => rfl
  | mul =>
      obtain rfl := Option.some.inj hexec
      rfl
  | div =>
      simp only [exec, Option.ite_none_left_eq_some, Option.some.injEq] at hexec
      obtain ⟨-, rfl⟩ := hexec
      rfl
  | fence =>
      obtain rfl := Option.some.inj hexec
      rfl

/-- A program without stores leaves the memory. -/
theorem After.mem_of_no_store (h : After imem m n m')
    (hno : ∀ pc, opcode (imem pc) ≠ 0b0100011#7) : m'.mem = m.mem := by
  induction h with
  | zero => rfl
  | succ _ hnext ih => exact (hnext.mem_of_no_store hno).trans ih

/-- A write to register zero changes nothing. -/
theorem write_to_zero (regs : Regs) (v : BitVec 32) : regs.write 0#5 v = regs := by
  funext r
  rw [Regs.write, if_neg]
  exact fun h => h.2 h.1

end RvMachine

end Rv32

end Sumeru
