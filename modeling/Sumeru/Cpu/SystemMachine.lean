import Sumeru.Cpu.Rv32Machine
import Sumeru.Cpu.CsrAccess

/-!
# Sumeru - The sequential machine with CSR instructions and interrupts

What a program means when interrupts come in: the RV32IM machine with the register
{lit}`PCSAVE` and the two registers of the execute stage that are written over the CSR bus.
What an instruction meets from outside is an event: the value on the CSR bus, or an
interrupt that is taken on it.

A write over the bus reaches its register five edges after the instruction is accepted.  The
machine counts the edges that the instructions behind the write need at least, and stops
when a register is used too early.

Main results:

- Definition {lit}`SysMachine.exec`: one instruction with what it meets from outside.
- Theorem {lit}`SysMachine.After.append`: runs are composed.
- Theorem {lit}`SysMachine.After.last`: the last instruction of a run.
-/

namespace Sumeru

namespace Rv32

/-! ## Registers behind the CSR bus -/

/-- The registers of the execute stage that CSR instructions write. -/
inductive PostedCsr where
  | pcSwitch | ivector
deriving DecidableEq, Repr

def PostedCsr.addr : PostedCsr → BitVec 12
  | .pcSwitch => csrRegCtxPcswitch
  | .ivector => csrRegIvectorAddr

/-- A value written over the CSR bus and a number of edges that have passed since then when
the next instruction is accepted. -/
structure Posted where
  value : BitVec 32
  age : ℕ
deriving DecidableEq, Repr

/-- The value has reached the register. -/
def Posted.Settled (p : Posted) : Prop := 5 ≤ p.age

instance (p : Posted) : Decidable p.Settled := inferInstanceAs (Decidable (5 ≤ p.age))

/-- More edges have passed. -/
def Posted.wait (p : Posted) (n : ℕ) : Posted := { p with age := p.age + n }

/-! ## Instructions -/

/-- The operations of the CSR instructions. -/
inductive CsrOp where
  | rw | rs | rc
deriving DecidableEq, Repr

/-- The low bits of {lit}`funct3`. -/
def CsrOp.code : CsrOp → BitVec 2
  | .rw => 0b01#2
  | .rs => 0b10#2
  | .rc => 0b11#2

/-- The operand of a CSR instruction. -/
inductive CsrSource where
  | reg (r : BitVec 5)
  | imm (z : BitVec 5)
deriving DecidableEq, Repr

/-- The word {lit}`w` has the operand in the field {lit}`rs1` and in bit 2 of {lit}`funct3`. -/
def CsrSource.EncodedBy (w : BitVec 32) : CsrSource → Prop
  | .reg r => r = rs1 w ∧ (funct3 w).getLsbD 2 = false
  | .imm z => z = rs1 w ∧ (funct3 w).getLsbD 2 = true

def CsrSource.value (regs : Regs) : CsrSource → BitVec 32
  | .reg r => regs r
  | .imm z => z.setWidth 32

/-- The number of the CSR. -/
def csrNumber (w : BitVec 32) : BitVec 12 := w.extractLsb' 20 12

/-- The instructions with the CSR accesses; an access to SWITCH is one of its own. -/
inductive SysInstruction where
  | plain (ins : Instruction)
  | csr (op : CsrOp) (rd : BitVec 5) (src : CsrSource) (reg : BitVec 12)
  | switch
deriving DecidableEq, Repr

/-- The word {lit}`w` encodes the instruction. -/
def SysInstruction.EncodedBy (w : BitVec 32) : SysInstruction → Prop
  | .plain ins => ins.EncodedBy w
  | .csr op d src reg =>
      opcode w = 0b1110011#7 ∧ (funct3 w).extractLsb' 0 2 = op.code ∧ d = rd w ∧
        src.EncodedBy w ∧ reg = csrNumber w ∧ reg ≠ csrRegSwitch
  | .switch => opcode w = 0b1110011#7 ∧ csrNumber w = csrRegSwitch

/-- An interrupt is not taken on a JALR, a branch or a CSR instruction. -/
def Instruction.Interruptible : Instruction → Prop
  | .base (.jalr ..) => False
  | .base (.branch ..) => False
  | _ => True

instance : (ins : Instruction) → Decidable ins.Interruptible
  | .base (.jalr ..) => .isFalse id
  | .base (.branch ..) => .isFalse id
  | .base (.op ..) | .base (.opImm ..) | .base (.lui ..) | .base (.auipc ..) | .base (.jal ..)
  | .base (.load ..) | .base (.store ..) | .mul .. | .div .. | .fence => .isTrue trivial

/-- The pc at which an interrupted program goes on: a JAL is executed again. -/
def Instruction.returnPc (pc : BitVec 32) : Instruction → BitVec 32
  | .base (.jal ..) => pc
  | _ => pc + 4#32

/-- A number of edges before the stage accepts the next instruction. -/
def Instruction.edges : Instruction → ℕ
  | .base (.load ..) => 2
  | .base (.store ..) => 2
  | .div .. => 2
  | _ => 1

/-! ## The machine -/

/-- What an instruction meets from outside. -/
inductive SysEvent where
  | done
  | interrupted (vec : BitVec 4)
  | read (v : BitVec 32)
deriving DecidableEq, Repr

/-- The entry of an interrupt vector. -/
def vectorAddr (ivector : BitVec 32) (vec : BitVec 4) : BitVec 32 :=
  ivector.extractLsb' 8 24 ++ vec ++ 0#4

/-- The state of the machine. -/
structure SysMachine where
  rv : RvMachine
  pcSave : BitVec 32
  posted : PostedCsr → Posted

namespace SysMachine

/-- The machine after power-up, in front of a memory. -/
def boot (mem : ByteMem) : SysMachine := ⟨.boot mem, 0#32, fun _ => ⟨0#32, 5⟩⟩

/-- The RV32IM part changes, and edges pass. -/
def advance (m : SysMachine) (rv : RvMachine) (n : ℕ) : SysMachine :=
  { m with rv := rv, posted := fun r => (m.posted r).wait n }

/-- The old value of a CSR: the machine itself answers for {lit}`PCSAVE`. -/
def csrOld (m : SysMachine) (reg : BitVec 12) (v : BitVec 32) : BitVec 32 :=
  if reg = csrRegCtxPcsave then m.pcSave else v

/-- An access to a CSR at {lit}`pc`. -/
def access (m : SysMachine) (pc : BitVec 32) (op : CsrOp) (rd : BitVec 5) (src : CsrSource)
    (reg : BitVec 12) (v : BitVec 32) : SysMachine :=
  { m with
    rv := ⟨pc + 4#32, m.rv.regs.write rd (m.csrOld reg v), m.rv.mem⟩
    posted := fun r =>
      if reg = r.addr then ⟨csrUpdate op.code (src.value m.rv.regs) (m.csrOld reg v), 3⟩
      else (m.posted r).wait 3 }

/-- An interrupt with vector {lit}`vec` on an instruction at {lit}`pc` that leaves {lit}`rv`. -/
def interrupt (m : SysMachine) (pc : BitVec 32) (ins : Instruction) (rv : RvMachine)
    (vec : BitVec 4) : SysMachine :=
  { m.advance { rv with pc := vectorAddr (m.posted .ivector).value vec } ins.edges with
    pcSave := ins.returnPc pc }

/-- One instruction at {lit}`pc` with its event; {lit}`none` stops the machine. -/
def exec (m : SysMachine) (pc : BitVec 32) : SysInstruction → SysEvent → Option SysMachine
  | .plain ins, .done => ({ m.rv with pc := pc }.exec ins).map fun rv => m.advance rv ins.edges
  | .plain ins, .interrupted vec =>
      if ins.Interruptible ∧ (m.posted .ivector).Settled then
        ({ m.rv with pc := pc }.exec ins).map fun rv => m.interrupt pc ins rv vec
      else none
  | .csr op rd src reg, .read v => some (m.access pc op rd src reg v)
  | .switch, .done =>
      if (m.posted .pcSwitch).Settled then
        some (m.advance { m.rv with pc := (m.posted .pcSwitch).value } 1)
      else none
  | _, _ => none

/-- The machine passes over FENCE.I words and executes the instruction behind them. -/
def Next (imem : BitVec 32 → BitVec 32) (m : SysMachine) (e : SysEvent) (m' : SysMachine) : Prop :=
  ∃ q ins, IsNext imem m.rv.pc q ∧ SysInstruction.EncodedBy (imem q) ins ∧
    m.exec q ins e = some m'

/-- The machine can execute the instruction at {lit}`pc`, also with an interrupt on it. -/
def Allows (m : SysMachine) (pc : BitVec 32) (interrupted : Bool) : SysInstruction → Prop
  | .plain ins =>
      ({ m.rv with pc := pc }.exec ins).isSome ∧
        (interrupted = true → (m.posted .ivector).Settled)
  | .csr .. => True
  | .switch => (m.posted .pcSwitch).Settled

/-- The next instruction of the program is one that the machine can execute. -/
def Ready (imem : BitVec 32 → BitVec 32) (m : SysMachine) (interrupted : Bool) : Prop :=
  ∃ q ins, IsNext imem m.rv.pc q ∧ SysInstruction.EncodedBy (imem q) ins ∧
    m.Allows q interrupted ins

/-- The machine after the instructions that met the events. -/
inductive After (imem : BitVec 32 → BitVec 32) (m : SysMachine) :
    List SysEvent → SysMachine → Prop where
  | nil : After imem m [] m
  | snoc {l : List SysEvent} {e : SysEvent} {m₁ m₂ : SysMachine} (h : After imem m l m₁)
      (hnext : Next imem m₁ e m₂) : After imem m (l ++ [e]) m₂

variable {imem : BitVec 32 → BitVec 32} {m m₁ m₂ : SysMachine} {l l' : List SysEvent}

/-- Without events nothing is executed. -/
theorem After.eq_nil (h : After imem m [] m₁) : m₁ = m := by
  generalize hl : ([] : List SysEvent) = l at h
  cases h with
  | nil => rfl
  | snoc => exact absurd hl.symm (List.append_ne_nil_of_right_ne_nil _ (List.cons_ne_nil _ []))

/-- Runs are composed. -/
theorem After.append (h : After imem m l m₁) (h' : After imem m₁ l' m₂) :
    After imem m (l ++ l') m₂ := by
  induction h' with
  | nil => rwa [List.append_nil]
  | snoc _ hnext ih =>
      rw [← List.append_assoc]
      exact ih.snoc hnext

/-- The last instruction of a run. -/
theorem After.last {e : SysEvent} (h : After imem m (l ++ [e]) m₂) :
    ∃ m₁, After imem m l m₁ ∧ Next imem m₁ e m₂ := by
  generalize hl : l ++ [e] = l' at h
  cases h with
  | nil => exact absurd hl (List.append_ne_nil_of_right_ne_nil l (List.cons_ne_nil e []))
  | snoc h hnext =>
      obtain ⟨rfl, he⟩ := List.append_inj' hl rfl
      obtain rfl := List.singleton_inj.mp he
      exact ⟨_, h, hnext⟩

end SysMachine

end Rv32

end Sumeru
