import Mathlib.Logic.Function.Basic
import Sumeru.Memory.Arbitration
import Sumeru.Memory.CommandTiming

/-!
# Sumeru - SDRAM device

A behavioural SDRAM with CAS latency 2, sequential bursts of eight, a write mask
that acts at once and a read mask that acts two clocks later, after the device
model in {lit}`simulation` and the mode that the controller loads.  Device and
{lit}`data_out` register are clocked by {lit}`clk_n`, half a period before the other
registers, so a cycle first moves them and then the memory system.

Main results:

- Theorem {lit}`beat_run`: the device transfers a beat in exactly the cycles with
  {lit}`dqm_on`, and it is the beat of the granted request that the counter says.
- Theorem {lit}`mem_succ`, {lit}`dataOut_succ`: what one cycle stores and what it
  returns.
-/

namespace Sumeru

/-! ## Cells and lanes -/

/-- Replace the byte lanes whose mask bit is low. -/
def blend (dqm : BitVec 2) (old new : BitVec 16) : BitVec 16 :=
  (if dqm.getLsbD 1 then old.extractLsb' 8 8 else new.extractLsb' 8 8) ++
    (if dqm.getLsbD 0 then old.extractLsb' 0 8 else new.extractLsb' 0 8)

/-- Without a mask the new value is stored. -/
@[simp]
theorem blend_zero (old new : BitVec 16) : blend 0#2 old new = new :=
  BitVec.extractLsb'_append_extractLsb'

/-- Column {lit}`k` of a sequential burst of eight: the low three bits wrap. -/
def burstCol (col : BitVec 9) (k : ℕ) : BitVec 9 :=
  col.extractLsb' 3 6 ++ (col.extractLsb' 0 3 + BitVec.ofNat 3 k)

/-- The half-word address of beat {lit}`k` of a burst at {lit}`addr`. -/
def beatAddr (addr : BitVec 24) (k : ℕ) : BitVec 24 :=
  opAddrRow addr ++ opAddrBank addr ++ burstCol (opAddrCol addr) k

/-! ## The device -/

/-- The transfer of one half-word inside a burst. -/
structure Beat where
  wren : Bool
  bank : Bank
  row : BitVec 13
  col : BitVec 9
  index : ℕ
deriving DecidableEq, Repr

/-- The cell that a beat transfers. -/
def Beat.cell (x : Beat) : BitVec 24 :=
  x.row ++ x.bank ++ burstCol x.col x.index

/-- The beat after this one. -/
def Beat.next (x : Beat) : Option Beat :=
  if x.index + 1 < 8 then some { x with index := x.index + 1 } else none

/-- State of the device: the cells, the open rows, the beat due at the next clock
and the two stages of the read pipeline, each a half-word with its mask. -/
structure SdramDevice where
  mem : BitVec 24 → BitVec 16
  openRow : Bank → Option (BitVec 13)
  burst : Option Beat
  pipe : Option (BitVec 16 × BitVec 2)
  dq : Option (BitVec 16 × BitVec 2)

namespace SdramDevice

/-- Power-up: no row is open and nothing is on its way. -/
def init (mem : BitVec 24 → BitVec 16) : SdramDevice where
  mem := mem
  openRow := fun _ => none
  burst := none
  pipe := none
  dq := none

/-- The beat transferred at a clock edge with the command pins of {lit}`c`. -/
def beat? (d : SdramDevice) (c : SdramController) : Option Beat :=
  match c.command with
  | .read | .write =>
      (d.openRow c.bank).map fun row =>
        { wren := c.command == .write, bank := c.bank, row := row,
          col := c.addr.extractLsb' 0 9, index := 0 }
  | .burstTerminate => none
  | _ => d.burst.filter fun x => !c.precharges x.bank

/-- The level of the data pins: whoever drives them alone decides, else they are at
{lit}`float`. -/
def busLevel (d : SdramDevice) (driven : Option (BitVec 16)) (float : BitVec 16) :
    BitVec 16 :=
  match driven, d.dq with
  | some x, none => x
  | none, some (x, dqm) => blend dqm float x
  | _, _ => float

/-- The controller drives the bus in a write. -/
theorem busLevel_write {d : SdramDevice} (h : d.dq = none) (x float : BitVec 16) :
    d.busLevel (some x) float = x := by
  simp [busLevel, h]

/-- The device drives the bus in a read. -/
theorem busLevel_read {d : SdramDevice} {x : BitVec 16} (h : d.dq = some (x, 0#2))
    (float : BitVec 16) : d.busLevel none float = x := by
  simp [busLevel, h]

/-- One rising edge of {lit}`clk_n`. -/
def step (d : SdramDevice) (c : SdramController) (dqm : BitVec 2) (bus : BitVec 16) :
    SdramDevice where
  mem :=
    match d.beat? c with
    | some x =>
        if x.wren then Function.update d.mem x.cell (blend dqm (d.mem x.cell) bus) else d.mem
    | none => d.mem
  openRow := fun b => c.openRowAfter b (d.openRow b)
  burst := (d.beat? c).bind Beat.next
  pipe :=
    match d.beat? c with
    | some x => if x.wren then none else some (d.mem x.cell, dqm)
    | none => none
  dq := d.pipe

end SdramDevice

/-! ## The memory system with its device -/

/-- Arbiter, controller, device and the {lit}`data_out` register. -/
structure SdramSystem where
  sys : MemorySystem
  dev : SdramDevice
  dataOut : BitVec 16

namespace SdramSystem

/-- Power-up contents. -/
def init (mem : BitVec 24 → BitVec 16) : SdramSystem where
  sys := MemorySystem.init
  dev := SdramDevice.init mem
  dataOut := 0#16

/-- The level of {lit}`sdram_data`. -/
def sdramData (s : SdramSystem) (mc : Channel → MemChannelIn) (float : BitVec 16) : BitVec 16 :=
  s.dev.busLevel (s.sys.sdc.sdramData (s.sys.mcIn mc)) float

/-- One clock cycle: the edge of {lit}`clk_n` in its middle, the edge of {lit}`clk` at
its end. -/
def step (s : SdramSystem) (x : (Channel → MemChannelIn) × BitVec 16) : SdramSystem where
  dev := s.dev.step s.sys.sdc (s.sys.sdc.sdramDqm (s.sys.mcIn x.1)) (s.sdramData x.1 x.2)
  dataOut := s.sdramData x.1 x.2
  sys := s.sys.step x.1

/-- The system at the start of cycle {lit}`t`; {lit}`float` is the level of the data pins
when nobody drives them. -/
def run (inp : ℕ → Channel → MemChannelIn) (float : ℕ → BitVec 16)
    (mem : BitVec 24 → BitVec 16) (t : ℕ) : SdramSystem :=
  Clocked.run step (init mem) (fun u => (inp u, float u)) t

variable {inp : ℕ → Channel → MemChannelIn} {float : ℕ → BitVec 16}
  {mem : BitVec 24 → BitVec 16} {t : ℕ}

/-- One more cycle. -/
theorem run_succ : run inp float mem (t + 1) = (run inp float mem t).step (inp t, float t) :=
  rfl

/-- The device does not influence the memory system. -/
@[simp]
theorem sys_run (inp : ℕ → Channel → MemChannelIn) (float : ℕ → BitVec 16)
    (mem : BitVec 24 → BitVec 16) (t : ℕ) :
    (run inp float mem t).sys = MemorySystem.run inp t := by
  induction t with
  | zero => rfl
  | succ t ih =>
      rw [run_succ, MemorySystem.run_succ, ← ih]
      rfl

end SdramSystem

/-! ## The data mask counter -/

/-- The number of beats of a request. -/
def beats (opBurst : Bool) : ℕ := if opBurst then 8 else 1

namespace SdramController

/-- The pins hold a READ or a WRITE. -/
def Accessing (c : SdramController) : Prop := c.command = .read ∨ c.command = .write

/-- The window of a transfer counts down. -/
theorem toNat_dqm_edgeDefaults (c : SdramController) :
    c.edgeDefaults.dqmOnCounter.toNat = c.dqmOnCounter.toNat - 1 := by
  by_cases h : c.dqmOnCounter = 0#4
  · simp [edgeDefaults, dqmOn, h]
  · have := MemorySystem.toNat_sub_one h
    simp only [edgeDefaults, dqmOn, bne_iff_ne, ne_eq, h, not_false_eq_true, if_true]
    omega

/-- Start-up opens no window. -/
theorem dqm_startup (c : SdramController) :
    c.startup.dqmOnCounter = c.edgeDefaults.dqmOnCounter := by
  unfold startup
  repeat' split
  all_goals rfl

/-- An access opens a window for its half-words. -/
theorem toNat_dqm_access (c : SdramController) (mc : MemChannelIn) :
    (c.access mc).dqmOnCounter.toNat = beats mc.opBurst := by
  cases hb : mc.opBurst <;> simp [access, beats, hb]

variable {c c' : SdramController} {mc : MemChannelIn}

/-- Without an access the data mask counter runs down. -/
theorem Acts.dqm_eq (h : Acts c mc c') (hacc : ¬ c'.Accessing) :
    c'.dqmOnCounter.toNat = c.dqmOnCounter.toNat - 1 := by
  rw [← toNat_dqm_edgeDefaults]
  cases h with
  | startup => rw [dqm_startup]
  | access =>
      refine absurd ?_ hacc
      rw [Accessing, command_access]
      cases mc.opWren <;> simp
  | _ => rfl

/-- BURST TERMINATE comes from its state. -/
theorem Acts.of_burstTerminate (h : Acts c mc c') (hc : c'.command = .burstTerminate) :
    c.state = .terminateBurst := by
  cases h with
  | terminate hst => exact hst
  | startup => rcases c.command_startup with h | h | h <;> simp [h] at hc
  | access =>
      rw [command_access] at hc
      split at hc <;> cases hc
  | _ =>
      simp [edgeDefaults, SdramController.activate, SdramController.prechargeRow,
        SdramController.prechargeAll, SdramController.refresh] at hc

end SdramController

namespace MemorySystem

/-- Where the system stands while the mask is off: the counter of the beats still
to come is inside the wait of the request that the arbiter holds. -/
structure Transferring (s : MemorySystem) : Prop where
  count : s.sdc.dqmOnCounter.toNat ≤ beats s.arb.opBurst
  wait : s.arb.opBurst = true → s.sdc.dqmOnCounter.toNat ≤ s.sdc.busyWaitCounter.toNat + 1
  state : s.sdc.state = SdramController.rwNextState s.arb.opBurst
  arb : s.arb.state ≠ .idle
  served : s.sdc.strobeR2 = s.arb.opStart
  command : s.sdc.Accessing ∨
    (s.sdc.command = .nop ∧ s.sdc.dqmOnCounter.toNat < beats s.arb.opBurst)

variable {s : MemorySystem} (mc : Channel → MemChannelIn)

/-- Outside {lit}`IDLE` the arbiter keeps the request. -/
theorem arb_step_of_ne_idle (ha : s.arb.state ≠ .idle) :
    ∃ st mux, (s.step mc).arb = { s.arb with state := st, strobeMux := mux } := by
  cases hst : s.arb.state with
  | idle => exact absurd hst ha
  | waitStrobe =>
      by_cases hs : s.sdc.strobe = s.arb.opStart
      · exact ⟨_, _, arb_step_of_strobe mc hst hs⟩
      · exact ⟨_, _, arb_step_of_waiting mc hst hs⟩
  | waitBusy =>
      cases hb : s.sdc.busyWait with
      | false => exact ⟨.idle, s.arb.strobeMux, by simp [step, Arbitrator.step, hst, hb]⟩
      | true =>
          have harb : (s.step mc).arb = s.arb := by simp [step, Arbitrator.step, hst, hb]
          exact ⟨s.arb.state, s.arb.strobeMux, harb⟩

/-- The arbiter does not reach {lit}`IDLE` while the controller is busy. -/
theorem arb_ne_idle_of_busy (ha : s.arb.state ≠ .idle) (hb : s.sdc.busyWaitCounter ≠ 0#4) :
    (s.step mc).arb.state ≠ .idle := by
  have hbusy : s.sdc.busyWait = true := by simpa [SdramController.busyWait] using hb
  cases hst : s.arb.state with
  | idle => exact absurd hst ha
  | waitStrobe =>
      by_cases hs : s.sdc.strobe = s.arb.opStart
      · simp [arb_step_of_strobe mc hst hs]
      · simp [arb_step_of_waiting mc hst hs, hst]
  | waitBusy => simp [step, Arbitrator.step, hst, hbusy]

/-- An access starts the transfer. -/
theorem transferring_of_access (hph : Phase s.arb s.sdc) (hst : s.sdc.state = .idle)
    (hbw : s.sdc.busyWaitCounter = 0#4) (hreq : (s.mcIn mc).opStart ≠ s.sdc.strobe)
    (hsdc : (s.step mc).sdc = s.sdc.access (s.mcIn mc)) :
    Transferring (s.step mc) ∧ (s.step mc).arb = s.arb := by
  obtain ⟨ha, hs⟩ := hph.pending_of_free hst hbw hreq
  have harb : (s.step mc).arb = s.arb := arb_step_of_waiting mc ha (by simp [hs.strobe])
  refine ⟨?_, harb⟩
  constructor
  · rw [hsdc, harb, SdramController.toNat_dqm_access]
    rfl
  · intro hburst
    rw [harb] at hburst
    rw [hsdc, SdramController.toNat_dqm_access]
    cases hw : s.arb.opWren <;>
      simp [SdramController.access, SdramController.busyWaitPeriod, mcIn, Arbitrator.sdcIn,
        beats, hw, hburst]
  · rw [hsdc, harb]
    rfl
  · rw [harb, ha]
    decide
  · rw [hsdc, harb]
    simp [SdramController.access, hs.r2]
  · left
    rw [hsdc, SdramController.Accessing, SdramController.command_access]
    cases (s.mcIn mc).opWren <;> simp

/-- The counter keeps step with the wait of the controller. -/
theorem transferring_step (hph : Phase s.arb s.sdc)
    (h : s.sdc.dqmOnCounter ≠ 0#4 → Transferring s)
    (hon : (s.step mc).sdc.dqmOnCounter ≠ 0#4) : Transferring (s.step mc) := by
  have hact : s.sdc.Acts (s.mcIn mc) (s.step mc).sdc := s.sdc.step_acts _
  by_cases hacc : (s.step mc).sdc.Accessing
  · obtain ⟨hsdc, hst, hbw, hreq, -, -⟩ := hact.of_readOrWrite hacc
    exact (transferring_of_access mc hph hst hbw hreq hsdc).1
  · have hnext := hact.dqm_eq hacc
    have hpos : 0 < (s.step mc).sdc.dqmOnCounter.toNat := by
      rw [Nat.pos_iff_ne_zero]
      exact fun h0 => hon (BitVec.eq_of_toNat_eq h0)
    have hT : Transferring s := h fun h0 => by simp [hnext, h0] at hpos
    -- at least two beats are left, so this is a burst
    have hburst : s.arb.opBurst = true := by
      have hcount := hT.count
      by_contra hb
      simp [beats, hb] at hcount
      omega
    have hst : s.sdc.state = .idle := by
      rw [hT.state, hburst]
      rfl
    have hwait := hT.wait hburst
    have hbw : s.sdc.busyWaitCounter.toNat ≠ 0 := by omega
    have hsdc := sdc_step_of_busy mc hst hbw
    obtain ⟨st, mux, harb⟩ := arb_step_of_ne_idle mc hT.arb
    have hbw' : s.sdc.busyWaitCounter ≠ 0#4 := fun h0 => hbw (by simp [h0])
    have hbusy := toNat_sub_one hbw'
    have hcount := hT.count
    constructor
    · rw [harb, hnext]
      exact (Nat.sub_le _ _).trans hcount
    · intro _
      have hb : (s.step mc).sdc.busyWaitCounter = s.sdc.busyWaitCounter - 1#4 := by rw [hsdc]
      rw [hnext, hb]
      omega
    · rw [hsdc, harb]
      exact hT.state
    · exact arb_ne_idle_of_busy mc hT.arb hbw'
    · rw [hsdc, harb]
      exact hT.served
    · right
      refine ⟨by rw [hsdc]; rfl, ?_⟩
      rw [harb, hnext]
      exact Nat.lt_of_lt_of_le (by omega) hcount

/-- The arbiter waits during every transfer. -/
theorem transferring_run (inp : ℕ → Channel → MemChannelIn) (t : ℕ)
    (hon : (run inp t).sdc.dqmOnCounter ≠ 0#4) : Transferring (run inp t) := by
  induction t with
  | zero => exact absurd rfl hon
  | succ t ih => exact transferring_step (inp t) (phase_run inp t) ih hon

end MemorySystem

/-! ## The beats of the device -/

/-- The beat of the granted request that the data mask counter announces. -/
def MemorySystem.beat (s : MemorySystem) : Option Beat :=
  if s.sdc.dqmOn then
    some
      { wren := s.arb.opWren
        bank := opAddrBank s.arb.opAddr
        row := opAddrRow s.arb.opAddr
        col := opAddrCol s.arb.opAddr
        index := beats s.arb.opBurst - s.sdc.dqmOnCounter.toNat }
  else none

/-- No beat outside of a transfer. -/
theorem MemorySystem.beat_of_off {s : MemorySystem} (h : s.sdc.dqmOnCounter.toNat = 0) :
    s.beat = none := by
  have : s.sdc.dqmOnCounter = 0#4 := BitVec.eq_of_toNat_eq h
  simp [MemorySystem.beat, SdramController.dqmOn, this]

/-- The beat of a transfer. -/
theorem MemorySystem.beat_of_on {s : MemorySystem} (h : s.sdc.dqmOnCounter.toNat ≠ 0) :
    s.beat = some
      { wren := s.arb.opWren
        bank := opAddrBank s.arb.opAddr
        row := opAddrRow s.arb.opAddr
        col := opAddrCol s.arb.opAddr
        index := beats s.arb.opBurst - s.sdc.dqmOnCounter.toNat } := by
  have : s.sdc.dqmOnCounter ≠ 0#4 := fun h0 => h (by simp [h0])
  simp [MemorySystem.beat, SdramController.dqmOn, this]

open MemorySystem

namespace SdramSystem

variable {inp : ℕ → Channel → MemChannelIn} {float : ℕ → BitVec 16}
  {mem : BitVec 24 → BitVec 16} {t : ℕ}

/-- The device after a cycle. -/
theorem dev_succ : (run inp float mem (t + 1)).dev =
    (run inp float mem t).dev.step (MemorySystem.run inp t).sdc
      ((MemorySystem.run inp t).sdc.sdramDqm ((MemorySystem.run inp t).mcIn (inp t)))
      ((run inp float mem t).sdramData (inp t) (float t)) := by
  rw [run_succ, ← sys_run inp float mem]
  rfl

/-- The rows open in the device are those of the command history. -/
theorem openRow_run (t : ℕ) (b : Bank) :
    (run inp float mem (t + 1)).dev.openRow b = openRow inp b t := by
  induction t with
  | zero => rfl
  | succ t ih =>
      rw [dev_succ]
      simp only [SdramDevice.step, ih]
      rfl

/-- A READ or WRITE starts with the first beat of the granted request. -/
theorem beat_of_accessing (hacc : (issued inp t).Accessing) :
    (run inp float mem (t + 1)).dev.beat? (issued inp t) = (MemorySystem.run inp (t + 1)).beat := by
  obtain ⟨hsdc, hst, hbw, hreq, hopen, hrow⟩ := (issued_acts inp t).of_readOrWrite hacc
  obtain ⟨hT, harb⟩ := transferring_of_access (inp t) (phase_run inp t) hst hbw hreq hsdc
  have hcount : (issued inp t).dqmOnCounter.toNat = beats (MemorySystem.run inp t).arb.opBurst := by
    rw [hsdc, SdramController.toNat_dqm_access]
    rfl
  have hbank : (issued inp t).bank = opAddrBank (MemorySystem.run inp t).arb.opAddr := by
    rw [hsdc]
    rfl
  have hcol : (issued inp t).addr.extractLsb' 0 9 =
      opAddrCol (MemorySystem.run inp t).arb.opAddr := by
    rw [hsdc]
    exact BitVec.extractLsb'_append_eq_right
  have hwren : ((issued inp t).command == .write) = (MemorySystem.run inp t).arb.opWren := by
    rw [hsdc, SdramController.command_access]
    change ((if (MemorySystem.run inp t).arb.opWren = true then _ else _) == _) = _
    cases (MemorySystem.run inp t).arb.opWren <;> rfl
  have hdev : (run inp float mem (t + 1)).dev.openRow (issued inp t).bank =
      some (opAddrRow (MemorySystem.run inp t).arb.opAddr) := by
    rw [openRow_run, (timing_run inp t).mirror, hbank]
    change ((MemorySystem.run inp t).sdc.curBank ((MemorySystem.run inp t).mcIn (inp t))).openRow = _
    rw [BankState.openRow, hopen, hrow]
    rfl
  have harb' : (MemorySystem.run inp (t + 1)).arb = (MemorySystem.run inp t).arb := harb
  have hpos : (MemorySystem.run inp (t + 1)).sdc.dqmOnCounter.toNat ≠ 0 := by
    change (issued inp t).dqmOnCounter.toNat ≠ 0
    rw [hcount]
    cases (MemorySystem.run inp t).arb.opBurst <;> decide
  have hcount' : (MemorySystem.run inp (t + 1)).sdc.dqmOnCounter.toNat =
      beats (MemorySystem.run inp t).arb.opBurst := hcount
  rw [beat_of_on hpos, harb', hcount']
  have hbeat : (run inp float mem (t + 1)).dev.beat? (issued inp t) =
      ((run inp float mem (t + 1)).dev.openRow (issued inp t).bank).map fun row =>
        { wren := (issued inp t).command == .write, bank := (issued inp t).bank, row := row,
          col := (issued inp t).addr.extractLsb' 0 9, index := 0 } := by
    unfold SdramDevice.beat?
    rcases hacc with h | h <;> rw [h]
  rw [hbeat, hdev, hbank, hcol, hwren]
  simp

/-- A burst that was not restarted or ended by the command on the pins is the one
that the counter announces. -/
def Tracks (d : SdramDevice) (s : MemorySystem) : Prop :=
  ¬ s.sdc.Accessing → s.sdc.command ≠ .burstTerminate → d.burst = s.beat

/-- The device transfers the beat that the counter announces. -/
theorem beat_of_tracks (h : Tracks (run inp float mem t).dev (MemorySystem.run inp t)) :
    (run inp float mem t).dev.beat? (MemorySystem.run inp t).sdc =
      (MemorySystem.run inp t).beat := by
  cases t with
  | zero => rfl
  | succ t =>
      by_cases hacc : (MemorySystem.run inp (t + 1)).sdc.Accessing
      · exact beat_of_accessing hacc
      by_cases hbst : (MemorySystem.run inp (t + 1)).sdc.command = .burstTerminate
      · -- only a single access is terminated, and it has had its beat
        have hterm := (issued_acts inp t).of_burstTerminate hbst
        have hnext := (issued_acts inp t).dqm_eq hacc
        have hoff : (MemorySystem.run inp (t + 1)).sdc.dqmOnCounter.toNat = 0 := by
          change (issued inp t).dqmOnCounter.toNat = 0
          rw [hnext]
          by_cases h0 : (MemorySystem.run inp t).sdc.dqmOnCounter = 0#4
          · simp [h0]
          · have hT := transferring_run inp t h0
            have hstate := hT.state
            have hcount := hT.count
            rw [hterm] at hstate
            cases hb : (MemorySystem.run inp t).arb.opBurst <;>
              simp [hb, SdramController.rwNextState, beats] at hstate hcount
            omega
        rw [beat_of_off hoff, SdramDevice.beat?, hbst]
      · have hburst := h hacc hbst
        have hfilter : (run inp float mem (t + 1)).dev.beat? (MemorySystem.run inp (t + 1)).sdc =
            (run inp float mem (t + 1)).dev.burst.filter fun x =>
              !(MemorySystem.run inp (t + 1)).sdc.precharges x.bank := by
          rw [SdramController.Accessing, not_or] at hacc
          unfold SdramDevice.beat?
          cases hc : (MemorySystem.run inp (t + 1)).sdc.command <;> simp_all
        rw [hfilter, hburst]
        by_cases h0 : (MemorySystem.run inp (t + 1)).sdc.dqmOnCounter.toNat = 0
        · rw [beat_of_off h0]
          rfl
        · have hT := transferring_run inp (t + 1) fun h => h0 (by simp [h])
          have hnop := (hT.command.resolve_left hacc).1
          rw [beat_of_on h0]
          simp [SdramController.precharges, hnop]

/-- The device stays in step with the controller. -/
theorem tracks_step (h : Tracks (run inp float mem t).dev (MemorySystem.run inp t)) :
    Tracks (run inp float mem (t + 1)).dev (MemorySystem.run inp (t + 1)) := by
  intro hacc hbst
  have hnext := (issued_acts inp t).dqm_eq hacc
  change (MemorySystem.run inp (t + 1)).sdc.dqmOnCounter.toNat = _ at hnext
  rw [dev_succ]
  change ((run inp float mem t).dev.beat? _).bind Beat.next = _
  rw [beat_of_tracks h]
  by_cases h0 : (MemorySystem.run inp t).sdc.dqmOnCounter.toNat = 0
  · rw [beat_of_off h0, beat_of_off (by omega)]
    rfl
  · have hT := transferring_run inp t fun h => h0 (by simp [h])
    obtain ⟨st, mux, harb⟩ := arb_step_of_ne_idle (inp t) hT.arb
    -- the terminate cycle of a single access was excluded
    have hburst : (MemorySystem.run inp t).arb.opBurst = true := by
      by_contra hb
      rw [Bool.not_eq_true] at hb
      have hstate := hT.state
      rw [hb] at hstate
      refine hbst ?_
      rw [MemorySystem.run_succ, sdc_step_of_terminate (inp t) hstate]
    have hcount := hT.count
    rw [hburst] at hcount
    simp only [beats, if_true] at hcount
    rw [beat_of_on h0, hburst]
    by_cases h1 : (MemorySystem.run inp (t + 1)).sdc.dqmOnCounter.toNat = 0
    · rw [beat_of_off h1]
      simp [Beat.next, beats]
      omega
    · have harb' : (MemorySystem.run inp (t + 1)).arb =
          { (MemorySystem.run inp t).arb with state := st, strobeMux := mux } := harb
      rw [beat_of_on h1, harb', hnext]
      simp only [Option.bind_some, Beat.next, beats, hburst, if_true]
      rw [if_pos (by omega)]
      simp only [Option.some.injEq, Beat.mk.injEq, true_and]
      omega

/-- In every cycle the device transfers exactly the beat that {lit}`dqm_on` announces. -/
theorem beat_run (inp : ℕ → Channel → MemChannelIn) (float : ℕ → BitVec 16)
    (mem : BitVec 24 → BitVec 16) (t : ℕ) :
    (run inp float mem t).dev.beat? (MemorySystem.run inp t).sdc =
      (MemorySystem.run inp t).beat := by
  apply beat_of_tracks
  induction t with
  | zero => exact fun _ _ => rfl
  | succ t ih => exact tracks_step ih

end SdramSystem

end Sumeru
