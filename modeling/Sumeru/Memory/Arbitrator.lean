import Mathlib.Data.Fin.Tuple.Basic
import Sumeru.Cpu.Types

/-!
# Sumeru - Memory arbiter

The entity {lit}`memory_arbitrator`.  Eight channels request a transaction by
making {lit}`op_start` differ from the strobe they last saw; the arbiter grants
the lowest-numbered request, copies its address and direction to the SDRAM
controller and routes the controller's strobe back through a per-channel
exclusive-or.  The eight copies of the channel logic are one definition over the
channel number.
-/

namespace Sumeru

/-- The states of the arbiter. -/
inductive ArbitState where
  | idle | waitStrobe | waitBusy
deriving DecidableEq, Repr

/-- The number of a memory channel. -/
abbrev Channel := Fin 8

/-- Registers of {lit}`memory_arbitrator`, with the registered half of the record
{lit}`sdc_in`. -/
structure Arbitrator where
  state : ArbitState
  chan : Channel
  opStart : Bool
  opAddr : BitVec 24
  opWren : Bool
  opBurst : Bool
  strobeMux : Channel → Bool
  strobe : Channel → Bool
  strobeReg : Channel → Bool

namespace Arbitrator

/-- Power-up contents; the address registers and {lit}`strobe_reg` have no initial
value in the source and are written by the first grant before they are used. -/
def init : Arbitrator where
  state := .idle
  chan := 0
  opStart := false
  opAddr := 0#24
  opWren := false
  opBurst := false
  strobeMux := fun _ => false
  strobe := fun _ => false
  strobeReg := fun _ => false

/-- The record {lit}`sdc_in`: address and direction as registered at the grant,
mask and data live from the granted channel. -/
def sdcIn (s : Arbitrator) (mc : Channel → MemChannelIn) : MemChannelIn where
  opAddr := s.opAddr
  opStart := s.opStart
  opWren := s.opWren
  opBurst := s.opBurst
  opDqm := (mc s.chan).opDqm
  writeData := (mc s.chan).writeData

/-- Output {lit}`op_strobe` of one channel, given the strobe of the controller. -/
def opStrobe (s : Arbitrator) (sdcStrobe : Bool) (c : Channel) : Bool :=
  if s.strobeMux c then sdcStrobe ^^ s.strobeReg c else s.strobe c

/-- A channel that asks for a transaction. -/
def requests (s : Arbitrator) (mc : Channel → MemChannelIn) (c : Channel) : Bool :=
  (mc c).opStart != s.strobe c

/-- The chain of conditions of the {lit}`IDLE` state: the first channel that
requests. -/
def grant? (s : Arbitrator) (mc : Channel → MemChannelIn) : Option Channel :=
  Fin.find? (s.requests mc)

/-- The assignments made when channel {lit}`c` is granted. -/
def grant (s : Arbitrator) (sdcStrobe : Bool) (mc : Channel → MemChannelIn) (c : Channel) :
    Arbitrator :=
  { s with
    opAddr := (mc c).opAddr
    opWren := (mc c).opWren
    opBurst := (mc c).opBurst
    chan := c
    opStart := !s.opStart
    state := .waitStrobe
    strobeMux := fun d => if d = c then true else s.strobeMux d
    strobeReg := fun d => if d = c then s.strobe c ^^ sdcStrobe else s.strobeReg d
    strobe := fun d => if d = c then !s.strobe c else s.strobe d }

/-- One rising edge of {lit}`clk`. -/
def step (s : Arbitrator) (sdcBusy sdcStrobe : Bool) (mc : Channel → MemChannelIn) :
    Arbitrator :=
  match s.state with
  | .idle =>
      match s.grant? mc with
      | some c => s.grant sdcStrobe mc c
      | none => s
  | .waitStrobe =>
      if sdcStrobe = s.opStart then
        { s with state := .waitBusy, strobeMux := fun _ => false }
      else s
  | .waitBusy => if sdcBusy = false then { s with state := .idle } else s

end Arbitrator

end Sumeru
