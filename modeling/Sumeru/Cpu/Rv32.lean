import Mathlib.Tactic.Linarith

/-!
# Sumeru - The RV32IM instruction set

The part of the RISC-V specification that the processor is measured against: the
encoding of each instruction, and the value it computes from its operands.  Nothing
here is taken from the processor.

The formats give the position of the fields and of the scattered immediates; an
instruction is related to the words that encode it by {lit}`Encodes`, one line of the
instruction listing per constructor.
-/

namespace Sumeru

namespace Rv32

/-! ## Instruction formats -/

def opcode (w : BitVec 32) : BitVec 7 := w.extractLsb' 0 7
def rd (w : BitVec 32) : BitVec 5 := w.extractLsb' 7 5
def funct3 (w : BitVec 32) : BitVec 3 := w.extractLsb' 12 3
def rs1 (w : BitVec 32) : BitVec 5 := w.extractLsb' 15 5
def rs2 (w : BitVec 32) : BitVec 5 := w.extractLsb' 20 5
def funct7 (w : BitVec 32) : BitVec 7 := w.extractLsb' 25 7

def immI (w : BitVec 32) : BitVec 32 := (w.extractLsb' 20 12).signExtend 32

def immS (w : BitVec 32) : BitVec 32 := (w.extractLsb' 25 7 ++ w.extractLsb' 7 5).signExtend 32

/-- The 13-bit branch offset. -/
def immB (w : BitVec 32) : BitVec 32 :=
  (w.extractLsb' 31 1 ++ w.extractLsb' 7 1 ++ w.extractLsb' 25 6 ++ w.extractLsb' 8 4 ++
    0#1).signExtend 32

def immU (w : BitVec 32) : BitVec 32 := w.extractLsb' 12 20 ++ 0#12

/-- The 21-bit jump offset. -/
def immJ (w : BitVec 32) : BitVec 32 :=
  (w.extractLsb' 31 1 ++ w.extractLsb' 12 8 ++ w.extractLsb' 20 1 ++ w.extractLsb' 21 10 ++
    0#1).signExtend 32

/-! ## Computational instructions -/

/-- The operations of the OP and OP-IMM classes. -/
inductive AluFn where
  | add | sub | sll | slt | sltu | xor | srl | sra | or | and
deriving DecidableEq, Repr

namespace AluFn

def funct3 : AluFn → BitVec 3
  | add | sub => 0b000#3
  | sll => 0b001#3
  | slt => 0b010#3
  | sltu => 0b011#3
  | xor => 0b100#3
  | srl | sra => 0b101#3
  | or => 0b110#3
  | and => 0b111#3

def funct7 : AluFn → BitVec 7
  | sub | sra => 0b0100000#7
  | _ => 0b0000000#7

/-- The value of the operation; shifts use the low five bits of the second operand. -/
def eval (a b : BitVec 32) : AluFn → BitVec 32
  | add => a + b
  | sub => a - b
  | sll => a <<< (b.toNat % 32)
  | slt => if a.toInt < b.toInt then 1#32 else 0#32
  | sltu => if a.toNat < b.toNat then 1#32 else 0#32
  | xor => a ^^^ b
  | srl => a >>> (b.toNat % 32)
  | sra => a.sshiftRight (b.toNat % 32)
  | or => a ||| b
  | and => a &&& b

/-- The shifts, whose immediate form has {lit}`funct7` above the shift amount. -/
def isShift : AluFn → Bool
  | sll | srl | sra => true
  | _ => false

end AluFn

/-! ## Branches, loads and stores -/

inductive BranchCond where
  | beq | bne | blt | bge | bltu | bgeu
deriving DecidableEq, Repr

namespace BranchCond

def funct3 : BranchCond → BitVec 3
  | beq => 0b000#3
  | bne => 0b001#3
  | blt => 0b100#3
  | bge => 0b101#3
  | bltu => 0b110#3
  | bgeu => 0b111#3

/-- The branch is taken. -/
def holds (a b : BitVec 32) : BranchCond → Bool
  | beq => a = b
  | bne => a ≠ b
  | blt => a.toInt < b.toInt
  | bge => b.toInt ≤ a.toInt
  | bltu => a.toNat < b.toNat
  | bgeu => b.toNat ≤ a.toNat

end BranchCond

/-- Byte {lit}`n` of a little-endian word. -/
def byte (w : BitVec 32) (n : ℕ) : BitVec 8 := w.extractLsb' (8 * n) 8

inductive LoadKind where
  | lb | lh | lw | lbu | lhu
deriving DecidableEq, Repr

namespace LoadKind

def funct3 : LoadKind → BitVec 3
  | lb => 0b000#3
  | lh => 0b001#3
  | lw => 0b010#3
  | lbu => 0b100#3
  | lhu => 0b101#3

def size : LoadKind → ℕ
  | lb | lbu => 1
  | lh | lhu => 2
  | lw => 4

/-- The value of an aligned load at {lit}`addr` from the aligned word that holds its bytes. -/
def value (addr w : BitVec 32) : LoadKind → BitVec 32
  | lb => (byte w (addr.toNat % 4)).signExtend 32
  | lbu => (byte w (addr.toNat % 4)).setWidth 32
  | lh => (byte w (addr.toNat % 4 + 1) ++ byte w (addr.toNat % 4)).signExtend 32
  | lhu => (byte w (addr.toNat % 4 + 1) ++ byte w (addr.toNat % 4)).setWidth 32
  | lw => w

end LoadKind

inductive StoreKind where
  | sb | sh | sw
deriving DecidableEq, Repr

namespace StoreKind

def funct3 : StoreKind → BitVec 3
  | sb => 0b000#3
  | sh => 0b001#3
  | sw => 0b010#3

def size : StoreKind → ℕ
  | sb => 1
  | sh => 2
  | sw => 4

/-- Byte {lit}`n` of the aligned word after an aligned store of {lit}`data` at {lit}`addr`. -/
def stored (addr data w : BitVec 32) (k : StoreKind) (n : ℕ) : BitVec 8 :=
  if addr.toNat % 4 ≤ n ∧ n < addr.toNat % 4 + k.size then byte data (n - addr.toNat % 4)
  else byte w n

end StoreKind

/-! ## Multiplication and division -/

inductive MulFn where
  | mul | mulh | mulhsu | mulhu
deriving DecidableEq, Repr

namespace MulFn

def funct3 : MulFn → BitVec 3
  | mul => 0b000#3
  | mulh => 0b001#3
  | mulhsu => 0b010#3
  | mulhu => 0b011#3

/-- The product of the operands with the signedness of the instruction. -/
def product (a b : BitVec 32) : MulFn → ℤ
  | mul | mulh => a.toInt * b.toInt
  | mulhsu => a.toInt * (b.toNat : ℤ)
  | mulhu => (a.toNat : ℤ) * (b.toNat : ℤ)

/-- The low word of the product for MUL, the high word for the others. -/
def eval (a b : BitVec 32) (f : MulFn) : BitVec 32 :=
  match f with
  | mul => BitVec.ofInt 32 (f.product a b)
  | _ => BitVec.ofInt 32 (f.product a b / 2 ^ 32)

end MulFn

inductive DivFn where
  | div | divu | rem | remu
deriving DecidableEq, Repr

namespace DivFn

def funct3 : DivFn → BitVec 3
  | div => 0b100#3
  | divu => 0b101#3
  | rem => 0b110#3
  | remu => 0b111#3

/-- Quotient and remainder rounded towards zero, for a nonzero divisor.  The quotient
of the most negative number by minus one does not fit and wraps around. -/
def eval (a b : BitVec 32) : DivFn → BitVec 32
  | div => BitVec.ofInt 32 (a.toInt.tdiv b.toInt)
  | divu => BitVec.ofNat 32 (a.toNat / b.toNat)
  | rem => BitVec.ofInt 32 (a.toInt.tmod b.toInt)
  | remu => BitVec.ofNat 32 (a.toNat % b.toNat)

end DivFn

/-! ## Instructions and their encodings -/

inductive Instr where
  | op (f : AluFn) (rd rs1 rs2 : BitVec 5)
  | opImm (f : AluFn) (rd rs1 : BitVec 5) (imm : BitVec 32)
  | lui (rd : BitVec 5) (imm : BitVec 32)
  | auipc (rd : BitVec 5) (imm : BitVec 32)
  | jal (rd : BitVec 5) (offset : BitVec 32)
  | jalr (rd rs1 : BitVec 5) (imm : BitVec 32)
  | branch (c : BranchCond) (rs1 rs2 : BitVec 5) (offset : BitVec 32)
  | load (k : LoadKind) (rd rs1 : BitVec 5) (imm : BitVec 32)
  | store (k : StoreKind) (rs1 rs2 : BitVec 5) (imm : BitVec 32)
deriving DecidableEq, Repr

/-- The word {lit}`w` encodes the RV32I instruction. -/
def Encodes (w : BitVec 32) : Instr → Prop
  | .op f d r1 r2 =>
      opcode w = 0b0110011#7 ∧ funct3 w = f.funct3 ∧ funct7 w = f.funct7 ∧
        d = rd w ∧ r1 = rs1 w ∧ r2 = rs2 w
  | .opImm f d r1 imm =>
      opcode w = 0b0010011#7 ∧ funct3 w = f.funct3 ∧ f ≠ .sub ∧
        (f.isShift = true → funct7 w = f.funct7) ∧ d = rd w ∧ r1 = rs1 w ∧ imm = immI w
  | .lui d imm => opcode w = 0b0110111#7 ∧ d = rd w ∧ imm = immU w
  | .auipc d imm => opcode w = 0b0010111#7 ∧ d = rd w ∧ imm = immU w
  | .jal d off => opcode w = 0b1101111#7 ∧ d = rd w ∧ off = immJ w
  | .jalr d r1 imm =>
      opcode w = 0b1100111#7 ∧ funct3 w = 0b000#3 ∧ d = rd w ∧ r1 = rs1 w ∧ imm = immI w
  | .branch c r1 r2 off =>
      opcode w = 0b1100011#7 ∧ funct3 w = c.funct3 ∧ r1 = rs1 w ∧ r2 = rs2 w ∧ off = immB w
  | .load k d r1 imm =>
      opcode w = 0b0000011#7 ∧ funct3 w = k.funct3 ∧ d = rd w ∧ r1 = rs1 w ∧ imm = immI w
  | .store k r1 r2 imm =>
      opcode w = 0b0100011#7 ∧ funct3 w = k.funct3 ∧ r1 = rs1 w ∧ r2 = rs2 w ∧ imm = immS w

/-- The word {lit}`w` encodes an RV32M instruction with the given {lit}`funct3`. -/
def EncodesM (w : BitVec 32) (f3 : BitVec 3) : Prop :=
  opcode w = 0b0110011#7 ∧ funct7 w = 0b0000001#7 ∧ funct3 w = f3

end Rv32

end Sumeru
