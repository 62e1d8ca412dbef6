import Sumeru.Cpu.Types

/-!
# Sumeru - Combinational datapath

The entities {lit}`cpu_alu`, {lit}`cpu_shift` and {lit}`cpu_muldiv`, and the
load and store lane logic of {lit}`cpu_stage_iexec`.  The two vendor
megafunctions under {lit}`cpu_mult` and {lit}`cpu_div` are parameters: only
their arithmetic is outside the repository, the selection of signedness, result
half and operand extension around them is modelled here.
-/

namespace Sumeru

/-! ## Arithmetic and logic unit -/

/-- Signal {lit}`result_lt`: signed comparison as a 32-bit word. -/
def resultLt (a b : BitVec 32) : BitVec 32 :=
  if a.slt b then 1#32 else 0#32

/-- Signal {lit}`result_ltu`: unsigned comparison as a 32-bit word. -/
def resultLtu (a b : BitVec 32) : BitVec 32 :=
  if a.ult b then 1#32 else 0#32

/-- The {lit}`result` output of {lit}`cpu_alu`. -/
def cpuAluResult (a b : BitVec 32) (op : BitVec 4) : BitVec 32 :=
  if op = 0b0000#4 then a + b
  else if op = 0b0010#4 then resultLt a b
  else if op = 0b0011#4 then resultLtu a b
  else if op = 0b0100#4 then a ^^^ b
  else if op = 0b0110#4 then a ||| b
  else if op = 0b0111#4 then a &&& b
  else a - b

/-- The {lit}`result_br` output of {lit}`cpu_alu`. -/
def cpuAluResultBr (a b : BitVec 32) (op : BitVec 4) : Bool :=
  let resultBrMux :=
    if op.extractLsb' 1 2 = 0b00#2 then a == b
    else if op.extractLsb' 1 2 = 0b10#2 then (resultLt a b).getLsbD 0
    else (resultLtu a b).getLsbD 0
  resultBrMux ^^ op.getLsbD 0

/-! ## Shifter -/

/-- Signal {lit}`shiftrx_stage1_result_b`: high half of a right shift by an even amount. -/
def shiftrxStage1ResultB (x : BitVec 32) (sel : BitVec 4) (bit : Bool) : BitVec 16 :=
  match sel.toNat with
  | 0 => x.extractLsb' 16 16
  | 1 => (BitVec.ofBool bit ++ x.extractLsb' 18 14).signExtend 16
  | 2 => (BitVec.ofBool bit ++ x.extractLsb' 20 12).signExtend 16
  | 3 => (BitVec.ofBool bit ++ x.extractLsb' 22 10).signExtend 16
  | 4 => (BitVec.ofBool bit ++ x.extractLsb' 24 8).signExtend 16
  | 5 => (BitVec.ofBool bit ++ x.extractLsb' 26 6).signExtend 16
  | 6 => (BitVec.ofBool bit ++ x.extractLsb' 28 4).signExtend 16
  | 7 => (BitVec.ofBool bit ++ x.extractLsb' 30 2).signExtend 16
  | _ => (BitVec.ofBool bit).signExtend 16

/-- Signal {lit}`shiftrx_stage1_result_a`: low half of a right shift by an even amount. -/
def shiftrxStage1ResultA (x : BitVec 32) (sel : BitVec 4) (bit : Bool) : BitVec 16 :=
  match sel.toNat with
  | 0 => x.extractLsb' 0 16
  | 1 => x.extractLsb' 2 16
  | 2 => x.extractLsb' 4 16
  | 3 => x.extractLsb' 6 16
  | 4 => x.extractLsb' 8 16
  | 5 => x.extractLsb' 10 16
  | 6 => x.extractLsb' 12 16
  | 7 => x.extractLsb' 14 16
  | 8 => x.extractLsb' 16 16
  | 9 => (BitVec.ofBool bit ++ x.extractLsb' 18 14).signExtend 16
  | 10 => (BitVec.ofBool bit ++ x.extractLsb' 20 12).signExtend 16
  | 11 => (BitVec.ofBool bit ++ x.extractLsb' 22 10).signExtend 16
  | 12 => (BitVec.ofBool bit ++ x.extractLsb' 24 8).signExtend 16
  | 13 => (BitVec.ofBool bit ++ x.extractLsb' 26 6).signExtend 16
  | 14 => (BitVec.ofBool bit ++ x.extractLsb' 28 4).signExtend 16
  | _ => (BitVec.ofBool bit ++ x.extractLsb' 30 2).signExtend 16

/-- Signal {lit}`shiftll_stage1_result_b`: high half of a left shift by an even amount. -/
def shiftllStage1ResultB (x : BitVec 32) (sel : BitVec 4) : BitVec 16 :=
  match sel.toNat with
  | 0 => x.extractLsb' 16 16
  | 1 => x.extractLsb' 14 16
  | 2 => x.extractLsb' 12 16
  | 3 => x.extractLsb' 10 16
  | 4 => x.extractLsb' 8 16
  | 5 => x.extractLsb' 6 16
  | 6 => x.extractLsb' 4 16
  | 7 => x.extractLsb' 2 16
  | 8 => x.extractLsb' 0 16
  | 9 => x.extractLsb' 0 14 ++ 0#2
  | 10 => x.extractLsb' 0 12 ++ 0#4
  | 11 => x.extractLsb' 0 10 ++ 0#6
  | 12 => x.extractLsb' 0 8 ++ 0#8
  | 13 => x.extractLsb' 0 6 ++ 0#10
  | 14 => x.extractLsb' 0 4 ++ 0#12
  | _ => x.extractLsb' 0 2 ++ 0#14

/-- Signal {lit}`shiftll_stage1_result_a`: low half of a left shift by an even amount. -/
def shiftllStage1ResultA (x : BitVec 32) (sel : BitVec 4) : BitVec 16 :=
  match sel.toNat with
  | 0 => x.extractLsb' 0 16
  | 1 => x.extractLsb' 0 14 ++ 0#2
  | 2 => x.extractLsb' 0 12 ++ 0#4
  | 3 => x.extractLsb' 0 10 ++ 0#6
  | 4 => x.extractLsb' 0 8 ++ 0#8
  | 5 => x.extractLsb' 0 6 ++ 0#10
  | 6 => x.extractLsb' 0 4 ++ 0#12
  | 7 => x.extractLsb' 0 2 ++ 0#14
  | _ => 0#16

/-- Entity {lit}`cpu_shift`: the amount is applied in two stages, bits 4 downto 1 first
and bit 0 last. -/
def cpuShift (shiftData : BitVec 32) (shiftAmt : BitVec 5)
    (shiftBit shiftDirLr : Bool) : BitVec 32 :=
  let sel := shiftAmt.extractLsb' 1 4
  let shiftrxBit := shiftBit && shiftData.getLsbD 31
  let ra := shiftrxStage1ResultA shiftData sel shiftrxBit
  let rb := shiftrxStage1ResultB shiftData sel shiftrxBit
  let la := shiftllStage1ResultA shiftData sel
  let lb := shiftllStage1ResultB shiftData sel
  if shiftDirLr = false then
    if shiftAmt.getLsbD 0 = false then lb ++ la
    else lb.extractLsb' 0 15 ++ la ++ 0#1
  else
    if shiftAmt.getLsbD 0 = false then rb ++ ra
    else BitVec.ofBool shiftrxBit ++ rb ++ ra.extractLsb' 1 15

/-! ## Multiplier and divider -/

/-- The vendor megafunctions: {lit}`ALTMULT_ADD` with its two sign controls and
{lit}`LPM_DIVIDE` as a function from numerator and denominator to quotient and
remainder.  The pipeline around the divider belongs to the execute stage. -/
structure Megafunctions where
  altmultAdd : BitVec 32 → BitVec 32 → Bool → Bool → BitVec 64
  lpmDivide : BitVec 33 → BitVec 33 → BitVec 33 × BitVec 33

/-- The megafunctions as documented: a full product with each operand signed or
unsigned, and truncating signed division. -/
def Megafunctions.documented : Megafunctions where
  altmultAdd := fun a b signA signB =>
    (if signA then a.signExtend 64 else a.setWidth 64) *
      (if signB then b.signExtend 64 else b.setWidth 64)
  lpmDivide := fun numer denom => (numer.sdiv denom, numer.srem denom)

/-- Signal {lit}`mul_result` of {lit}`cpu_muldiv`. -/
def mulResult (V : Megafunctions) (a b : BitVec 32) (op : BitVec 4) : BitVec 32 :=
  let mulSignA := !(op.extractLsb' 0 2 == 0b11#2)
  let mulSignB := !(op.getLsbD 1)
  let multResult := V.altmultAdd a b mulSignA mulSignB
  if op = 0b0000#4 then multResult.extractLsb' 0 32 else multResult.extractLsb' 32 32

/-- Signal {lit}`div_numer` and {lit}`div_denom`: the operands with their extension bit. -/
def divInputs (a b : BitVec 32) (op : BitVec 4) : BitVec 33 × BitVec 33 :=
  let divNumerB32 := if op.getLsbD 0 = false then a.getLsbD 31 else false
  let divDenomB32 := if op.getLsbD 0 = false then b.getLsbD 31 else false
  (BitVec.ofBool divNumerB32 ++ a, BitVec.ofBool divDenomB32 ++ b)

/-- Signal {lit}`div_result` of {lit}`cpu_muldiv` for the pair of operands that has
reached the end of the divider pipeline. -/
def divResult (V : Megafunctions) (stage : BitVec 33 × BitVec 33) (op : BitVec 4) :
    BitVec 32 :=
  let r := V.lpmDivide stage.1 stage.2
  if op.getLsbD 1 = false then r.1.extractLsb' 0 32 else r.2.extractLsb' 0 32

/-! ## Load and store lanes of the execute stage -/

/-- Signal {lit}`dcache_byteena`: the byte lanes of an access, from the size code and the
two low address bits.  The size code {lit}`11` at an aligned address enables no
lane and is the line-flush operation. -/
def dcacheByteena (lsOp low : BitVec 2) : BitVec 4 :=
  let sel := lsOp ++ low
  if sel = 0b0000#4 then 0b0001#4
  else if sel = 0b0001#4 then 0b0010#4
  else if sel = 0b0010#4 then 0b0100#4
  else if sel = 0b0011#4 then 0b1000#4
  else if sel = 0b0100#4 then 0b0011#4
  else if sel = 0b0110#4 then 0b1100#4
  else if sel = 0b1100#4 then 0b0000#4
  else 0b1111#4

/-- Signal {lit}`dcache_write_data`: the store operand replicated over the lanes. -/
def dcacheWriteData (lsOp : BitVec 2) (storeData : BitVec 32) : BitVec 32 :=
  if lsOp = 0b01#2 then storeData.extractLsb' 0 16 ++ storeData.extractLsb' 0 16
  else if lsOp = 0b00#2 then
    storeData.extractLsb' 0 8 ++ storeData.extractLsb' 0 8 ++
      storeData.extractLsb' 0 8 ++ storeData.extractLsb' 0 8
  else storeData

/-- Signal {lit}`load_result`: the enabled lanes of the cache word, sign-extended when
{lit}`ls_load_sign` is set. -/
def loadResult (byteena : BitVec 4) (lsLoadSign : Bool) (word : BitVec 32) : BitVec 32 :=
  let ls0 := lsLoadSign && word.getLsbD 7
  let ls1 := lsLoadSign && word.getLsbD 15
  let ls2 := lsLoadSign && word.getLsbD 23
  let ls3 := lsLoadSign && word.getLsbD 31
  if byteena = 0b0011#4 then (BitVec.ofBool ls1 ++ word.extractLsb' 0 16).signExtend 32
  else if byteena = 0b1100#4 then (BitVec.ofBool ls3 ++ word.extractLsb' 16 16).signExtend 32
  else if byteena = 0b0001#4 then (BitVec.ofBool ls0 ++ word.extractLsb' 0 8).signExtend 32
  else if byteena = 0b0010#4 then (BitVec.ofBool ls1 ++ word.extractLsb' 8 8).signExtend 32
  else if byteena = 0b0100#4 then (BitVec.ofBool ls2 ++ word.extractLsb' 16 8).signExtend 32
  else if byteena = 0b1000#4 then (BitVec.ofBool ls3 ++ word.extractLsb' 24 8).signExtend 32
  else word

end Sumeru
