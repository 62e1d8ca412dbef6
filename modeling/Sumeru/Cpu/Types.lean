import Mathlib.Tactic.Linarith

/-!
# Sumeru - Signal types of the processor core

The packages {lit}`cpu_types`, {lit}`sumeru_constants` and
{lit}`memory_channel_types`: opcode classes, execute commands, CSR numbers and
the records that the pipeline stages, the caches and the memory arbiter exchange.
A {lit}`std_logic` is a {lean}`Bool`, a {lit}`std_logic_vector` a
{lit}`BitVec`; the three-bit command code, all of whose values are in use, is an
inductive type together with its encoding.
-/

namespace Sumeru

/-- The beats of a burst, the channels of the arbiter and the stages of the divider are
counted in {lit}`Fin 8`; one instance gives all of them their numerals. -/
instance neZero_eight : NeZero (8 : ℕ) :=
  ⟨Nat.succ_ne_zero 7⟩

/-! ## Opcode classes, bits 6 downto 2 of an instruction word -/

def opTypeR : BitVec 5 := 0b01100#5
def opTypeI : BitVec 5 := 0b00100#5
def opTypeL : BitVec 5 := 0b00000#5
def opTypeS : BitVec 5 := 0b01000#5
def opTypeUAuipc : BitVec 5 := 0b00101#5
def opTypeULui : BitVec 5 := 0b01101#5
def opTypeB : BitVec 5 := 0b11000#5
def opTypeJal : BitVec 5 := 0b11011#5
def opTypeJalr : BitVec 5 := 0b11001#5
def opTypeCsr : BitVec 5 := 0b11100#5
def opTypeMiscMem : BitVec 5 := 0b00011#5

/-- The opcode class of an instruction word. -/
def instOpcode (inst : BitVec 32) : BitVec 5 :=
  inst.extractLsb' 2 5

/-- The {lit}`MISC_MEM` class with bit 12 set: the word that the fetch stage treats as FENCE.I. -/
def isFenceI (inst : BitVec 32) : Bool :=
  instOpcode inst == opTypeMiscMem && inst.getLsbD 12

/-! ## Execute commands -/

/-- The commands {lit}`CMD_ALU` to {lit}`CMD_MULDIV` of the execute stage. -/
inductive Cmd where
  | alu | shift | branch | csr | jalr | load | store | muldiv
deriving DecidableEq, Repr

/-- The three-bit encoding of a command. -/
def Cmd.code : Cmd → BitVec 3
  | .alu => 0b000#3
  | .shift => 0b001#3
  | .branch => 0b010#3
  | .csr => 0b011#3
  | .jalr => 0b100#3
  | .load => 0b101#3
  | .store => 0b110#3
  | .muldiv => 0b111#3

def cmdAluOpAdd : BitVec 4 := 0b0000#4
def cmdAluOpSub : BitVec 4 := 0b1000#4

/-! ## CSR numbers and interrupt vectors -/

def csrRegGpioDir : BitVec 12 := 0x881#12
def csrRegGpioOutput : BitVec 12 := 0x882#12
def csrRegGpioInput : BitVec 12 := 0xCC1#12
def csrRegTimerCtrl : BitVec 12 := 0x884#12
def csrRegTimerValue : BitVec 12 := 0xCC2#12
def csrRegCtxPcsave : BitVec 12 := 0xCC0#12
def csrRegCtxPcswitch : BitVec 12 := 0x880#12
def csrRegSwitch : BitVec 12 := 0x9C0#12
def csrRegIvectorAddr : BitVec 12 := 0x9C1#12
def csrRegUart0Rx : BitVec 12 := 0x888#12
def csrRegUart0Tx : BitVec 12 := 0x889#12
def csrRegUart0RxBaud : BitVec 12 := 0x88A#12
def csrRegUart0TxBaud : BitVec 12 := 0x88B#12

def ivecTimer : BitVec 4 := 0b0001#4
def ivecUart0Tx : BitVec 4 := 0b0010#4
def ivecUart0Rx : BitVec 4 := 0b0011#4

/-! ## Records exchanged by the pipeline stages -/

/-- Record {lit}`idecode_channel_in_t`: an instruction handed from fetch to decode. -/
structure IdecodeChannelIn where
  valid : Bool
  inst : BitVec 32
  pc : BitVec 32
deriving DecidableEq, Repr

/-- Record {lit}`idecode_channel_out_t` and {lit}`iexec_channel_out_t`: back pressure
and redirects travelling from execute through decode to fetch. -/
structure IexecChannelOut where
  busy : Bool
  cxfer : Bool
  cxferPc : BitVec 32
deriving DecidableEq, Repr

/-- Record {lit}`iexec_channel_in_t`: a decoded instruction handed to execute. -/
structure IexecChannelIn where
  valid : Bool
  cmd : Cmd
  cmdOp : BitVec 4
  cmdUseReg : Bool
  triggerCxfer : Bool
  imm : BitVec 32
  rs1 : BitVec 5
  rs2 : BitVec 5
  rd : BitVec 5
  csrReg : BitVec 12
  intrNextpc : BitVec 32
deriving DecidableEq, Repr

/-- Record {lit}`csr_channel_in_t`: the select and write halves of the CSR bus. -/
structure CsrChannelIn where
  csrSelReg : BitVec 12
  csrSelOp : BitVec 2
  csrOpValid : Bool
  csrOpReg : BitVec 12
  csrOpData : BitVec 32
deriving DecidableEq, Repr

/-- Record {lit}`intr_channel_out_t`: the interrupt request line of the controller. -/
structure IntrChannelOut where
  intrTrigger : Bool
  intrVec : BitVec 4
deriving DecidableEq, Repr

/-! ## Memory channels -/

/-- Record {lit}`mem_channel_in_t`: a request as a channel presents it to the arbiter. -/
structure MemChannelIn where
  opAddr : BitVec 24
  opStart : Bool
  opWren : Bool
  opBurst : Bool
  opDqm : BitVec 2
  writeData : BitVec 16
deriving DecidableEq, Repr

end Sumeru
