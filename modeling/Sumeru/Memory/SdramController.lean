import Sumeru.Cpu.Types

/-!
# Sumeru - SDRAM controller

The entity {lit}`sdram_controller` with its default generics.  Each rising edge of
{lit}`clk` first makes the default assignments (the cycle counter advances, the
strobe pipeline moves, the command is NOP) and then the assignments of one branch
of the state machine; the branches that issue a command are definitions of their
own.
-/

namespace Sumeru

/-! ## Generics and constants -/

def refreshCycles : ℕ := 578
def trfcCycles : BitVec 4 := 0b0110#4
def trpCycles : BitVec 4 := 0b0001#4
def trcdCycles : BitVec 4 := 0b0001#4
def lmrSetting : BitVec 13 := 0b0010000100011#13

/-- The command codes of the controller. -/
inductive SdramCommand where
  | inhibit | nop | precharge | lmr | refresh | active | write | read | burstTerminate
deriving DecidableEq, Repr

/-- The levels of {lit}`cs`, {lit}`ras`, {lit}`cas` and {lit}`we` for a command. -/
def SdramCommand.code : SdramCommand → BitVec 4
  | .inhibit => 0b1111#4
  | .nop => 0b0111#4
  | .precharge => 0b0010#4
  | .lmr => 0b0000#4
  | .refresh => 0b0001#4
  | .active => 0b0011#4
  | .write => 0b0100#4
  | .read => 0b0101#4
  | .burstTerminate => 0b0110#4

/-- The states of the controller. -/
inductive ControllerState where
  | startup | idle | terminateBurst
deriving DecidableEq, Repr

/-- The controller's record of one bank. -/
structure BankState where
  active : Bool
  row : BitVec 13
deriving DecidableEq, Repr

/-- The number of a bank. -/
abbrev Bank := BitVec 2

/-- Registers of {lit}`sdram_controller` clocked by {lit}`clk`. -/
structure SdramController where
  state : ControllerState
  command : SdramCommand
  cke : Bool
  addr : BitVec 13
  bank : Bank
  busyWaitCounter : BitVec 4
  dqmOnCounter : BitVec 4
  cycleCounter : BitVec 15
  refreshLock : Bool
  strobe : Bool
  strobeR1 : Bool
  strobeR2 : Bool
  bankStates : Bank → BankState

/-! ## Address fields of a request -/

def opAddrRow (opAddr : BitVec 24) : BitVec 13 := opAddr.extractLsb' 11 13
def opAddrBank (opAddr : BitVec 24) : Bank := opAddr.extractLsb' 9 2
def opAddrCol (opAddr : BitVec 24) : BitVec 9 := opAddr.extractLsb' 0 9

namespace SdramController

/-- Power-up contents. -/
def init : SdramController where
  state := .startup
  command := .inhibit
  cke := false
  addr := lmrSetting
  bank := 0#2
  busyWaitCounter := 0#4
  dqmOnCounter := 0#4
  cycleCounter := 0#15
  refreshLock := false
  strobe := false
  strobeR1 := false
  strobeR2 := false
  bankStates := fun _ => ⟨false, 0#13⟩

/-- Signal {lit}`busy_wait`, also the output {lit}`busy`. -/
def busyWait (s : SdramController) : Bool := s.busyWaitCounter != 0#4

/-- Signal {lit}`dqm_on`. -/
def dqmOn (s : SdramController) : Bool := s.dqmOnCounter != 0#4

/-- Output {lit}`sdram_dqm`. -/
def sdramDqm (s : SdramController) (mc : MemChannelIn) : BitVec 2 :=
  if s.dqmOn then mc.opDqm else 0b11#2

/-- The level the controller drives on {lit}`sdram_data`, if it drives it. -/
def sdramData (s : SdramController) (mc : MemChannelIn) : Option (BitVec 16) :=
  if s.dqmOn && mc.opWren then some mc.writeData else none

/-- Signal {lit}`busy_wait_period`. -/
def busyWaitPeriod (opWren opBurst : Bool) : BitVec 4 :=
  match opWren, opBurst with
  | false, false => 0b0010#4
  | false, true => 0b1001#4
  | true, true => 0b0111#4
  | true, false => 0b0000#4

/-- Signal {lit}`rw_next_state`. -/
def rwNextState (opBurst : Bool) : ControllerState :=
  if opBurst then .idle else .terminateBurst

/-- The bank that a request addresses. -/
def curBank (s : SdramController) (mc : MemChannelIn) : BankState :=
  s.bankStates (opAddrBank mc.opAddr)

/-- Some bank is open. -/
def anyActive (s : SdramController) : Bool :=
  (s.bankStates 0#2).active || (s.bankStates 1#2).active ||
    (s.bankStates 2#2).active || (s.bankStates 3#2).active

/-- An address with bit 10, the precharge-all flag, replaced. -/
def setA10 (addr : BitVec 13) (b : Bool) : BitVec 13 :=
  addr.extractLsb' 11 2 ++ BitVec.ofBool b ++ addr.extractLsb' 0 10

/-! ## The clocked process -/

/-- The default assignments at the head of the process. -/
def edgeDefaults (s : SdramController) : SdramController :=
  { s with
    cycleCounter := s.cycleCounter + 1#15
    strobe := s.strobeR1
    strobeR1 := s.strobeR2
    command := .nop
    dqmOnCounter := if s.dqmOn then s.dqmOnCounter - 1#4 else s.dqmOnCounter }

/-- State {lit}`STARTUP`. -/
def startup (s : SdramController) : SdramController :=
  if s.cycleCounter.getLsbD 14 then
    if s.cycleCounter.extractLsb' 0 3 = 0b001#3 then
      { s.edgeDefaults with cke := true, command := .precharge }
    else if s.cycleCounter.extractLsb' 0 3 = 0b101#3 then
      { s.edgeDefaults with cke := true, command := .lmr }
    else if s.cycleCounter.extractLsb' 0 3 = 0b111#3 then
      { s.edgeDefaults with cke := true, state := .idle }
    else { s.edgeDefaults with cke := true }
  else s.edgeDefaults

/-- Open the row of the request. -/
def activate (s : SdramController) (mc : MemChannelIn) : SdramController :=
  { s.edgeDefaults with
    command := .active
    bankStates := fun b =>
      if b = opAddrBank mc.opAddr then ⟨true, opAddrRow mc.opAddr⟩ else s.bankStates b
    addr := opAddrRow mc.opAddr
    bank := opAddrBank mc.opAddr
    busyWaitCounter := trcdCycles }

/-- Close the bank of the request, which has another row open. -/
def prechargeRow (s : SdramController) (mc : MemChannelIn) : SdramController :=
  { s.edgeDefaults with
    command := .precharge
    addr := setA10 s.addr false
    bank := opAddrBank mc.opAddr
    busyWaitCounter := trpCycles
    bankStates := fun b =>
      if b = opAddrBank mc.opAddr then { s.bankStates b with active := false }
      else s.bankStates b }

/-- Read or write the open row.  A write answers at once, a read through the strobe
pipeline. -/
def access (s : SdramController) (mc : MemChannelIn) : SdramController :=
  { s.edgeDefaults with
    addr := 0b0000#4 ++ opAddrCol mc.opAddr
    bank := opAddrBank mc.opAddr
    dqmOnCounter := BitVec.ofBool mc.opBurst ++ 0b00#2 ++ BitVec.ofBool (!mc.opBurst)
    state := rwNextState mc.opBurst
    strobeR2 := !s.strobeR2
    busyWaitCounter := busyWaitPeriod mc.opWren mc.opBurst
    command := if mc.opWren then .write else .read
    strobe := if mc.opWren then !s.strobeR2 else s.strobeR1
    strobeR1 := if mc.opWren then !s.strobeR2 else s.strobeR2 }

/-- Close all banks before a refresh. -/
def prechargeAll (s : SdramController) : SdramController :=
  { s.edgeDefaults with
    bankStates := fun b => { s.bankStates b with active := false }
    command := .precharge
    busyWaitCounter := trpCycles
    addr := setA10 s.addr true
    refreshLock := true }

/-- Refresh and take one period off the cycle counter. -/
def refresh (s : SdramController) : SdramController :=
  { s.edgeDefaults with
    command := .refresh
    busyWaitCounter := trfcCycles
    cycleCounter := s.cycleCounter - BitVec.ofNat 15 refreshCycles
    refreshLock := false }

/-- A transaction may be started: one is requested and no refresh has begun. -/
def transacts (s : SdramController) (mc : MemChannelIn) : Bool :=
  mc.opStart != s.strobe && !s.refreshLock

/-- The branch of {lit}`IDLE` that serves a request. -/
def serve (s : SdramController) (mc : MemChannelIn) : SdramController :=
  if (s.curBank mc).active = false then s.activate mc
  else if (s.curBank mc).row ≠ opAddrRow mc.opAddr then s.prechargeRow mc
  else s.access mc

/-- The branch of {lit}`IDLE` that looks after the refresh. -/
def maintain (s : SdramController) : SdramController :=
  if refreshCycles < s.cycleCounter.toNat then
    if s.anyActive then s.prechargeAll else s.refresh
  else s.edgeDefaults

/-- One rising edge of {lit}`clk`. -/
def step (s : SdramController) (mc : MemChannelIn) : SdramController :=
  match s.state with
  | .startup => s.startup
  | .idle =>
      if s.busyWait = false then
        if s.transacts mc then s.serve mc else s.maintain
      else { s.edgeDefaults with busyWaitCounter := s.busyWaitCounter - 1#4 }
  | .terminateBurst =>
      { s.edgeDefaults with command := .burstTerminate, state := .idle }

end SdramController

end Sumeru
