import Sumeru.Memory.Refresh

/-!
# Sumeru - Legality of the SDRAM command stream

The rules an SDRAM puts on its commands, stated on the history of the command pins
alone: which row is open, and how many clocks lie between an ACTIVE, a PRECHARGE,
a REFRESH and the command that depends on them.  All distances are kept by one
invariant against the horizon {lit}`t + busy_wait_counter`, the earliest edge at
which the controller can issue its next command, which never moves back.

Main results:

- Theorem {lit}`timing_step`: one clock edge keeps the invariant.
- Theorem {lit}`sdram_commands_legal`: every rule holds in every run after
  {lit}`STARTUP`, and {lit}`bank_states` mirrors the open rows of the device.
-/

namespace Sumeru

/-! ## Commands as the device sees them -/

namespace SdramController

/-- The pins hold an ACTIVE for bank {lit}`b`. -/
def activates (c : SdramController) (b : Bank) : Bool :=
  c.command == .active && c.bank == b

/-- The pins hold a PRECHARGE of bank {lit}`b` or of all banks. -/
def precharges (c : SdramController) (b : Bank) : Bool :=
  c.command == .precharge && (c.addr.getLsbD 10 || c.bank == b)

/-- The pins hold a READ or WRITE for bank {lit}`b`. -/
def readsOrWrites (c : SdramController) (b : Bank) : Bool :=
  (c.command == .read || c.command == .write) && c.bank == b

/-- The row open in bank {lit}`b` after the command on the pins. -/
def openRowAfter (c : SdramController) (b : Bank) (row : Option (BitVec 13)) :
    Option (BitVec 13) :=
  if c.activates b then some c.addr else if c.precharges b then none else row

end SdramController

/-- The row that the controller believes to be open in a bank. -/
def BankState.openRow (x : BankState) : Option (BitVec 13) :=
  if x.active then some x.row else none

/-- The controller outputs that the device sees after the {lit}`t`-th edge. -/
def issued (inp : ℕ → Channel → MemChannelIn) (t : ℕ) : SdramController :=
  (MemorySystem.run inp (t + 1)).sdc

/-- The row that the device has open in bank {lit}`b` before the {lit}`t`-th edge. -/
def openRow (inp : ℕ → Channel → MemChannelIn) (b : Bank) : ℕ → Option (BitVec 13)
  | 0 => none
  | t + 1 => (issued inp t).openRowAfter b (openRow inp b t)

/-! ## The invariant -/

/-- No bank is active. -/
theorem SdramController.anyActive_eq_false {c : SdramController} :
    c.anyActive = false ↔ ∀ b, (c.bankStates b).active = false := by
  constructor
  · intro h b
    simp only [anyActive, Bool.or_eq_false_iff] at h
    obtain rfl | rfl | rfl | rfl : b = 0#2 ∨ b = 1#2 ∨ b = 2#2 ∨ b = 3#2 := by bv_omega
    · exact h.1.1.1
    · exact h.1.1.2
    · exact h.1.2
    · exact h.2
  · intro h
    simp [anyActive, h]

namespace MemorySystem

/-- The request waiting for the controller is for the open row of bank {lit}`b`. -/
structure Wanted (b : Bank) (s : MemorySystem) : Prop where
  arb : s.arb.state = .waitStrobe
  unserved : s.sdc.strobeR2 ≠ s.arb.opStart
  bank : opAddrBank s.arb.opAddr = b
  active : (s.sdc.bankStates b).active = true
  row : (s.sdc.bankStates b).row = opAddrRow s.arb.opAddr

/-- The wait cycles before the next command, with the terminate cycle. -/
def delay (c : SdramController) : ℕ :=
  c.busyWaitCounter.toNat + if c.state = .terminateBurst then 1 else 0

variable {s : MemorySystem} (mc : Channel → MemChannelIn)

/-- Neither horizon moves back. -/
theorem horizon_step (hbw : s.sdc.state = .startup → s.sdc.busyWaitCounter = 0#4) :
    s.sdc.busyWaitCounter.toNat ≤ (s.step mc).sdc.busyWaitCounter.toNat + 1 ∧
      delay s.sdc ≤ delay (s.step mc).sdc + 1 := by
  have hact : s.sdc.Acts (s.mcIn mc) (s.step mc).sdc := s.sdc.step_acts _
  unfold delay
  generalize (s.step mc).sdc = c' at hact
  cases hact with
  | startup hst => simp [hbw hst, hst]
  | wait hst hne =>
      have hnext := toNat_sub_one hne
      simp [SdramController.edgeDefaults, hst]
      omega
  | terminate hst => simp [SdramController.edgeDefaults, hst]
  | activate hst hz => simp [hst, hz]
  | prechargeRow hst hz => simp [hst, hz]
  | access hst hz => simp [hst, hz]
  | prechargeAll hst hz => simp [hst, hz]
  | refresh hst hz => simp [hst, hz]
  | rest hst hz => simp [hst, hz]

/-- A wanted row belongs to a pending request. -/
theorem Wanted.pending {b : Bank} (h : Wanted b s) (hph : Phase s.arb s.sdc) :
    Strobes s.sdc !s.arb.opStart ∧ s.sdc.state ≠ .terminateBurst := by
  cases hph with
  | quiet ha => rcases ha with ha | ha <;> simp [h.arb] at ha
  | pending _ hc hs => exact ⟨hs, hc⟩
  | reading _ _ _ _ _ _ h2 => exact absurd h2 h.unserved
  | writing _ _ hs => exact absurd hs.r2 h.unserved

/-- While a row is wanted no refresh has begun, so the request goes first. -/
theorem Wanted.transacts {b : Bank} (h : Wanted b s) (hph : Phase s.arb s.sdc)
    (hlock : s.sdc.refreshLock = true → Locked s) :
    ¬ ((s.mcIn mc).opStart = s.sdc.strobe ∨ s.sdc.refreshLock = true) := by
  rintro (hreq | hl)
  · simp [mcIn, Arbitrator.sdcIn, (h.pending hph).1.strobe] at hreq
  · have hclosed := SdramController.anyActive_eq_false.mp (hlock hl).closed b
    rw [h.active] at hclosed
    cases hclosed

/-- The bank that the request wants. -/
theorem Wanted.curBank {b : Bank} (h : Wanted b s) :
    s.sdc.curBank (s.mcIn mc) = s.sdc.bankStates b := by
  simp [SdramController.curBank, mcIn, Arbitrator.sdcIn, h.bank]

/-- A wanted row is kept open until it is accessed, and the access itself takes
another two edges. -/
theorem wanted_step {b : Bank} (hph : Phase s.arb s.sdc)
    (hlock : s.sdc.refreshLock = true → Locked s)
    (hstart : s.sdc.state = .startup → (s.sdc.bankStates b).active = false)
    (h : Wanted b s) :
    Wanted b (s.step mc) ∨
      (s.sdc.busyWaitCounter = 0#4 ∧ 1 ≤ delay (s.step mc).sdc) := by
  have hs := h.pending hph
  have hcur := h.curBank mc
  have hno := h.transacts mc hph hlock
  have harb : (s.step mc).arb = s.arb := arb_step_of_waiting mc h.arb (by simp [hs.1.strobe])
  have hact : s.sdc.Acts (s.mcIn mc) (s.step mc).sdc := s.sdc.step_acts _
  have hkeep : (s.step mc).sdc.strobeR2 = s.sdc.strobeR2 →
      (s.step mc).sdc.bankStates = s.sdc.bankStates → Wanted b (s.step mc) := by
    intro h2 hbanks
    exact ⟨harb ▸ h.arb, by rw [h2, harb]; exact h.unserved, harb ▸ h.bank,
      by rw [hbanks]; exact h.active, by rw [hbanks, harb]; exact h.row⟩
  generalize hc' : (s.step mc).sdc = c' at hact
  cases hact with
  | startup hst =>
      have hactive := h.active
      rw [hstart hst] at hactive
      cases hactive
  | terminate hst => exact absurd hst hs.2
  | wait => exact .inl (hkeep (by rw [hc']; rfl) (by rw [hc']; rfl))
  | activate _ _ _ _ hclosed =>
      rw [hcur, h.active] at hclosed
      cases hclosed
  | prechargeRow _ _ _ _ _ hrow =>
      rw [hcur] at hrow
      exact absurd h.row hrow
  | access _ hz =>
      refine .inr ⟨hz, ?_⟩
      cases hw : s.arb.opWren <;> cases hb : s.arb.opBurst <;>
        simp [delay, SdramController.access, mcIn, Arbitrator.sdcIn,
          SdramController.busyWaitPeriod, SdramController.rwNextState, hw, hb]
  | prechargeAll _ _ h' => exact absurd h' hno
  | refresh _ _ h' => exact absurd h' hno
  | rest _ _ h' => exact absurd h' hno

end MemorySystem

open MemorySystem

/-- What the history of the commands before the {lit}`t`-th edge says about the
controller, and the distances that the next command can rely on. -/
structure Timing (inp : ℕ → Channel → MemChannelIn) (t : ℕ) : Prop where
  mirror : ∀ b, openRow inp b t = ((run inp t).sdc.bankStates b).openRow
  opened : ∀ b, ((run inp t).sdc.bankStates b).active = true →
    ∃ t', t' < t ∧ (issued inp t').activates b = true ∧
      (issued inp t').addr = ((run inp t).sdc.bankStates b).row ∧
      ∀ u, t' < u → u < t → (issued inp u).precharges b = false ∧ (issued inp u).activates b = false
  activated : ∀ b t', t' < t → (issued inp t').activates b = true →
    t' + 2 ≤ t + (run inp t).sdc.busyWaitCounter.toNat ∧
      (t' + 4 ≤ t + delay (run inp t).sdc ∨ Wanted b (run inp t))
  precharged : (run inp t).sdc.state ≠ .startup → ∀ b t', t' < t → (issued inp t').precharges b = true →
    t' + 2 ≤ t + (run inp t).sdc.busyWaitCounter.toNat
  refreshed : ∀ t', t' < t → (issued inp t').command = .refresh →
    t' + 7 ≤ t + (run inp t).sdc.busyWaitCounter.toNat ∧
      ((run inp t).sdc.state = .terminateBurst → t' + 7 ≤ t)
  starting : (run inp t).sdc.state = .startup →
    (run inp t).sdc.cycleCounter.toNat = t ∧ (∀ b, ((run inp t).sdc.bankStates b).active = false) ∧
      (∀ t' b, t' < t → (issued inp t').precharges b = true → t' = 16385)

variable {inp : ℕ → Channel → MemChannelIn} {t : ℕ}

/-- The timing at power-up. -/
theorem timing_zero (inp : ℕ → Channel → MemChannelIn) : Timing inp 0 where
  mirror := fun _ => rfl
  opened := fun _ h => by cases h
  activated := fun _ _ h => by omega
  precharged := fun _ _ _ h => by omega
  refreshed := fun _ h => by omega
  starting := fun _ => ⟨rfl, fun _ => rfl, fun _ _ h => by omega⟩

/-! ## One clock edge -/

/-- The edges of the controller along a run. -/
theorem issued_acts (inp : ℕ → Channel → MemChannelIn) (t : ℕ) :
    (run inp t).sdc.Acts ((run inp t).mcIn (inp t)) (issued inp t) :=
  (run inp t).sdc.step_acts _

/-- In {lit}`STARTUP` nothing waits and no refresh has begun. -/
theorem lock_wait_run (inp : ℕ → Channel → MemChannelIn) (t : ℕ) :
    ((run inp t).sdc.refreshLock = true → Locked (run inp t)) ∧
      ((run inp t).sdc.state = .startup → StartingUp (run inp t)) := by
  rcases startingUp_or_bounded inp t with h | ⟨hst, h⟩
  · exact ⟨fun hl => absurd hl (by simp [h.lock]), fun _ => h⟩
  · exact ⟨h.lock, fun hs => absurd hs hst⟩

/-- Bit 10 of an address that is set. -/
@[simp]
theorem SdramController.setA10_getElem (addr : BitVec 13) (b : Bool) :
    (SdramController.setA10 addr b)[10] = b := by
  rw [← BitVec.getLsbD_eq_getElem, SdramController.setA10, BitVec.getLsbD_append,
    BitVec.getLsbD_append]
  simp

/-- The commands of {lit}`STARTUP`. -/
theorem startup_issued {c : SdramController} (hst : c.state = .startup) :
    c.startup.bankStates = c.bankStates ∧
      c.startup.cycleCounter = c.cycleCounter + 1#15 ∧
      c.startup.command ≠ .active ∧ c.startup.command ≠ .refresh ∧
      (c.startup.command = .precharge → 16384 ≤ c.cycleCounter.toNat ∧
        c.cycleCounter.toNat % 8 = 1) ∧
      (c.startup.state = .startup ∨ (c.startup.state = .idle ∧ c.startup.command = .nop ∧
        16384 ≤ c.cycleCounter.toNat ∧ c.cycleCounter.toNat % 8 = 7)) := by
  unfold SdramController.startup
  split
  · rename_i hbit
    have hge := ge_of_getLsbD hbit
    have hlow : ∀ {n : BitVec 3}, c.cycleCounter.extractLsb' 0 3 = n →
        c.cycleCounter.toNat % 8 = n.toNat := by
      rintro n rfl
      simp [BitVec.extractLsb'_toNat]
    split
    · rename_i h
      simpa [SdramController.edgeDefaults, hst] using ⟨hge, hlow h⟩
    · split <;> [skip; split]
      · simp [SdramController.edgeDefaults, hst]
      · rename_i h
        simpa [SdramController.edgeDefaults, hst] using ⟨hge, hlow h⟩
      · simp [SdramController.edgeDefaults, hst]
  · simp [SdramController.edgeDefaults, hst]

/-- What one command means for one bank. -/
inductive BankEffect (inp : ℕ → Channel → MemChannelIn) (t : ℕ) (b : Bank) : Prop where
  | keep (hp : (issued inp t).precharges b = false) (ha : (issued inp t).activates b = false)
      (hb : (issued inp t).bankStates b = (run inp t).sdc.bankStates b)
  | opens (hc : (issued inp t).activates b = true)
      (hb : (issued inp t).bankStates b = ⟨true, (issued inp t).addr⟩)
  | closes (hp : (issued inp t).precharges b = true) (ha : (issued inp t).activates b = false)
      (hb : ((issued inp t).bankStates b).active = false)

/-- What an edge does to a bank. -/
theorem Timing.bankEffect (h : Timing inp t) (b : Bank) : BankEffect inp t b := by
  have hact := issued_acts inp t
  generalize hc : issued inp t = c' at hact
  cases hact with
  | startup hst =>
      obtain ⟨hb, -, hna, -, -, -⟩ := startup_issued hst
      have ha : (issued inp t).activates b = false := by simp [SdramController.activates, hc, hna]
      cases hp : (issued inp t).precharges b with
      | false => exact .keep hp ha (by rw [hc, hb])
      | true => exact .closes hp ha (by rw [hc, hb]; exact (h.starting hst).2.1 b)
  | activate =>
      by_cases hb : b = opAddrBank ((run inp t).mcIn (inp t)).opAddr
      · exact .opens (by simp [hc, SdramController.activates, SdramController.activate, hb])
          (by simp [hc, SdramController.activate, hb])
      · exact .keep (by simp [hc, SdramController.precharges, SdramController.activate])
          (by simp [hc, SdramController.activates, SdramController.activate, Ne.symm hb])
          (by simp [hc, SdramController.activate, hb])
  | prechargeRow =>
      by_cases hb : b = opAddrBank ((run inp t).mcIn (inp t)).opAddr
      · exact .closes (by simp [hc, SdramController.precharges, SdramController.prechargeRow, hb])
          (by simp [hc, SdramController.activates, SdramController.prechargeRow])
          (by simp [hc, SdramController.prechargeRow, hb])
      · exact .keep
          (by simp [hc, SdramController.precharges, SdramController.prechargeRow, Ne.symm hb])
          (by simp [hc, SdramController.activates, SdramController.prechargeRow])
          (by simp [hc, SdramController.prechargeRow, hb])
  | access =>
      cases hw : ((run inp t).mcIn (inp t)).opWren
      all_goals
        exact .keep (by simp [hc, SdramController.precharges, SdramController.access, hw])
          (by simp [hc, SdramController.activates, SdramController.access, hw])
          (by rw [hc]; rfl)
  | prechargeAll =>
      exact .closes (by simp [hc, SdramController.precharges, SdramController.prechargeAll])
        (by simp [hc, SdramController.activates, SdramController.prechargeAll])
        (by simp [hc, SdramController.prechargeAll])
  | refresh =>
      exact .keep (by simp [hc, SdramController.precharges, SdramController.refresh])
        (by simp [hc, SdramController.activates, SdramController.refresh]) (by rw [hc]; rfl)
  | _ =>
      exact .keep (by simp [hc, SdramController.precharges, SdramController.edgeDefaults])
        (by simp [hc, SdramController.activates, SdramController.edgeDefaults]) (by rw [hc]; rfl)

/-- The rows that the device has open after one more edge. -/
theorem Timing.mirror_step (h : Timing inp t) (b : Bank) :
    openRow inp b (t + 1) = ((issued inp t).bankStates b).openRow := by
  have hold := h.mirror b
  rw [openRow, SdramController.openRowAfter]
  cases h.bankEffect b with
  | keep hp ha hb => simp [hp, ha, hb, hold]
  | opens hc hb => simp [hc, hb, BankState.openRow]
  | closes hp ha hb => simp [hp, ha, hb, BankState.openRow]

/-- An open bank was opened by its last ACTIVE. -/
theorem Timing.opened_step (h : Timing inp t) (b : Bank)
    (hactive : ((issued inp t).bankStates b).active = true) :
    ∃ t', t' < t + 1 ∧ (issued inp t').activates b = true ∧
      (issued inp t').addr = ((issued inp t).bankStates b).row ∧
      ∀ u, t' < u → u < t + 1 →
        (issued inp u).precharges b = false ∧ (issued inp u).activates b = false := by
  cases h.bankEffect b with
  | keep hp ha hb =>
      rw [hb] at hactive ⊢
      obtain ⟨t', ht', hact', hrow, hsince⟩ := h.opened b hactive
      refine ⟨t', by omega, hact', hrow, fun u hu hut => ?_⟩
      rcases Nat.lt_succ_iff_lt_or_eq.mp hut with hlt | rfl
      · exact hsince u hu hlt
      · exact ⟨hp, ha⟩
  | opens hc hb => exact ⟨t, by omega, hc, by rw [hb], fun u hu hut => by omega⟩
  | closes _ _ hb =>
      rw [hb] at hactive
      cases hactive

/-- Only an idle controller with a pending request issues an ACTIVE, and the row it
opens is then the wanted one. -/
theorem wanted_of_activates {b : Bank} (hc : (issued inp t).activates b = true) :
    (issued inp t).busyWaitCounter.toNat = 1 ∧ Wanted b (run inp (t + 1)) := by
  obtain ⟨hcmd, hbank⟩ : (issued inp t).command = .active ∧ (issued inp t).bank = b := by
    simpa [SdramController.activates] using hc
  obtain ⟨hsdc, hst, hbw, hreq, -⟩ := (issued_acts inp t).of_active hcmd
  obtain ⟨ha, hs⟩ := (phase_run inp t).pending_of_free hst hbw hreq
  have hwait : (run inp t).sdc.strobe ≠ (run inp t).arb.opStart := by simp [hs.strobe]
  have harb : (run inp (t + 1)).arb = (run inp t).arb := arb_step_of_waiting (inp t) ha hwait
  have hsdc' : (run inp (t + 1)).sdc =
    (run inp t).sdc.activate ((run inp t).mcIn (inp t)) := hsdc
  rw [hsdc] at hbank
  have hbank' : opAddrBank (run inp t).arb.opAddr = b := hbank
  refine ⟨by rw [hsdc]; rfl, ⟨by rw [harb, ha], ?_, by rw [harb, hbank'], ?_, ?_⟩⟩
  · rw [hsdc', harb]
    simp [SdramController.activate, SdramController.edgeDefaults, hs.r2]
  · rw [hsdc']
    simp [SdramController.activate, mcIn, Arbitrator.sdcIn, hbank']
  · rw [hsdc', harb]
    simp [SdramController.activate, mcIn, Arbitrator.sdcIn, hbank']

/-- The distance from every ACTIVE. -/
theorem Timing.activated_step (h : Timing inp t) (b : Bank) (t' : ℕ) (ht' : t' < t + 1)
    (ha : (issued inp t').activates b = true) :
    t' + 2 ≤ t + 1 + (issued inp t).busyWaitCounter.toNat ∧
      (t' + 4 ≤ t + 1 + delay (issued inp t) ∨ Wanted b (run inp (t + 1))) := by
  obtain ⟨hlock, hstart⟩ := lock_wait_run inp t
  obtain ⟨hmono, hmono'⟩ := horizon_step (s := run inp t) (inp t) fun hs => (hstart hs).wait
  change _ ≤ (issued inp t).busyWaitCounter.toNat + 1 at hmono
  change _ ≤ delay (issued inp t) + 1 at hmono'
  rcases Nat.lt_succ_iff_lt_or_eq.mp ht' with hlt | rfl
  · obtain ⟨h2, h4⟩ := h.activated b t' hlt ha
    refine ⟨by omega, ?_⟩
    rcases h4 with h4 | hw
    · exact .inl (by omega)
    · rcases wanted_step (inp t) (phase_run inp t) hlock (fun hs => (h.starting hs).2.1 b) hw with
        hw' | ⟨hz, hd⟩
      · exact .inr hw'
      · change 1 ≤ delay (issued inp t) at hd
        rw [hz] at h2
        simp at h2
        exact .inl (by omega)
  · obtain ⟨hbw, hw⟩ := wanted_of_activates ha
    exact ⟨by omega, .inr hw⟩

/-- The distance from every PRECHARGE, once {lit}`STARTUP` is over. -/
theorem Timing.precharged_step (h : Timing inp t) (hst' : (issued inp t).state ≠ .startup)
    (b : Bank) (t' : ℕ) (ht' : t' < t + 1) (hp : (issued inp t').precharges b = true) :
    t' + 2 ≤ t + 1 + (issued inp t).busyWaitCounter.toNat := by
  obtain ⟨-, hstart⟩ := lock_wait_run inp t
  obtain ⟨hmono, -⟩ := horizon_step (s := run inp t) (inp t) fun hs => (hstart hs).wait
  change _ ≤ (issued inp t).busyWaitCounter.toNat + 1 at hmono
  by_cases hst : (run inp t).sdc.state = .startup
  · -- the precharge of `STARTUP` lies six edges back
    have hcc := (h.starting hst).1
    have hmax := (hstart hst).counter
    have hsdc : issued inp t = (run inp t).sdc.startup := by
      simp [issued, run_succ, step, SdramController.step, hst]
    obtain ⟨-, -, -, -, -, hend⟩ := startup_issued hst
    rw [← hsdc] at hend
    obtain ⟨-, hnop, hge, hmod⟩ := hend.resolve_left hst'
    rcases Nat.lt_succ_iff_lt_or_eq.mp ht' with hlt | rfl
    · have := (h.starting hst).2.2 t' b hlt hp
      omega
    · simp [SdramController.precharges, hnop] at hp
  · rcases Nat.lt_succ_iff_lt_or_eq.mp ht' with hlt | rfl
    · have := h.precharged hst b t' hlt hp
      omega
    · have hcmd : (issued inp t').command = .precharge := by
        simp only [SdramController.precharges, Bool.and_eq_true, beq_iff_eq] at hp
        exact hp.1
      have hbw : (issued inp t').busyWaitCounter = 1#4 := by
        rcases (issued_acts inp t').of_precharge hcmd with h | ⟨-, -, ⟨h, -⟩ | ⟨h, -⟩⟩
        · exact absurd h hst
        · rw [h]
          rfl
        · rw [h]
          rfl
      rw [hbw]
      simp

/-- The distance from every REFRESH. -/
theorem Timing.refreshed_step (h : Timing inp t) (t' : ℕ) (ht' : t' < t + 1)
    (hr : (issued inp t').command = .refresh) :
    t' + 7 ≤ t + 1 + (issued inp t).busyWaitCounter.toNat ∧
      ((issued inp t).state = .terminateBurst → t' + 7 ≤ t + 1) := by
  obtain ⟨-, hstart⟩ := lock_wait_run inp t
  obtain ⟨hmono, -⟩ := horizon_step (s := run inp t) (inp t) fun hs => (hstart hs).wait
  change _ ≤ (issued inp t).busyWaitCounter.toNat + 1 at hmono
  have hact := issued_acts inp t
  rcases Nat.lt_succ_iff_lt_or_eq.mp ht' with hlt | rfl
  · obtain ⟨h7, hterm⟩ := h.refreshed t' hlt hr
    refine ⟨by omega, fun hst' => ?_⟩
    generalize issued inp t = c' at hact hst'
    cases hact with
    | startup hst => rcases SdramController.state_startup hst with hs | hs <;> simp [hs] at hst'
    | access _ hbw =>
        simp [hbw] at h7
        omega
    | terminate => cases hst'
    | wait hst => simp [SdramController.edgeDefaults, hst] at hst'
    | activate hst =>
        simp [SdramController.activate, SdramController.edgeDefaults, hst] at hst'
    | prechargeRow hst =>
        simp [SdramController.prechargeRow, SdramController.edgeDefaults, hst] at hst'
    | prechargeAll hst =>
        simp [SdramController.prechargeAll, SdramController.edgeDefaults, hst] at hst'
    | refresh hst => simp [SdramController.refresh, SdramController.edgeDefaults, hst] at hst'
    | rest hst => simp [SdramController.edgeDefaults, hst] at hst'
  · obtain ⟨hsdc, hst, -, -⟩ := (issued_acts inp t').of_refresh hr
    rw [hsdc]
    refine ⟨le_rfl, fun hst' => ?_⟩
    simp [SdramController.refresh, SdramController.edgeDefaults, hst] at hst'

/-- The counter tells the time during {lit}`STARTUP`. -/
theorem Timing.starting_step (h : Timing inp t) (hst' : (issued inp t).state = .startup) :
    (issued inp t).cycleCounter.toNat = t + 1 ∧
      (∀ b, ((issued inp t).bankStates b).active = false) ∧
      ∀ t' b, t' < t + 1 → (issued inp t').precharges b = true → t' = 16385 := by
  have hst : (run inp t).sdc.state = .startup := by
    by_contra hne
    exact state_step_ne_startup (inp t) hne hst'
  have hmax := ((lock_wait_run inp t).2 hst).counter
  obtain ⟨hcc, hclosed, hpre⟩ := h.starting hst
  have hsdc : issued inp t = (run inp t).sdc.startup := by
    simp [issued, run_succ, step, SdramController.step, hst]
  obtain ⟨hbanks, hcc', -, -, hp, -⟩ := startup_issued hst
  rw [← hsdc] at hbanks hcc' hp
  refine ⟨?_, fun b => by rw [hbanks]; exact hclosed b, fun t' b ht' hpt => ?_⟩
  · rw [hcc', toNat_succ_of_lt (by omega), hcc]
  · rcases Nat.lt_succ_iff_lt_or_eq.mp ht' with hlt | rfl
    · exact hpre t' b hlt hpt
    · have hcmd : (issued inp t').command = .precharge := by
        simp only [SdramController.precharges, Bool.and_eq_true, beq_iff_eq] at hpt
        exact hpt.1
      have := hp hcmd
      omega

/-- One clock edge keeps the invariant. -/
theorem timing_step (h : Timing inp t) : Timing inp (t + 1) where
  mirror := h.mirror_step
  opened := h.opened_step
  activated := h.activated_step
  precharged := h.precharged_step
  refreshed := h.refreshed_step
  starting := h.starting_step

/-- The timing holds in every cycle. -/
theorem timing_run (inp : ℕ → Channel → MemChannelIn) (t : ℕ) : Timing inp t := by
  induction t with
  | zero => exact timing_zero inp
  | succ t ih => exact timing_step ih

/-! ## The rules -/

/-- {lit}`STARTUP` is over after 16392 edges. -/
theorem not_startup_of_le (inp : ℕ → Channel → MemChannelIn) {t : ℕ} (ht : 16392 ≤ t) :
    (run inp t).sdc.state ≠ .startup := by
  intro hst
  have hcc := ((timing_run inp t).starting hst).1
  have hmax := ((lock_wait_run inp t).2 hst).counter
  omega

/-- A READ or WRITE finds its row open for long enough. -/
theorem readsOrWrites_legal {b : Bank} (hc : (issued inp t).readsOrWrites b = true) :
    b = opAddrBank (run inp t).arb.opAddr ∧
      ∃ t', t' + (trcdCycles.toNat + 1) ≤ t ∧ (issued inp t').activates b = true ∧
        (issued inp t').addr = opAddrRow (run inp t).arb.opAddr ∧
        ∀ u, t' < u → u < t →
          (issued inp u).precharges b = false ∧ (issued inp u).activates b = false := by
  have hT := timing_run inp t
  obtain ⟨hcmd, hbank⟩ : ((issued inp t).command = .read ∨ (issued inp t).command = .write) ∧
      (issued inp t).bank = b := by
    simpa [SdramController.readsOrWrites] using hc
  obtain ⟨hsdc, -, hbw, -, hopen, hrow⟩ := (issued_acts inp t).of_readOrWrite hcmd
  rw [hsdc] at hbank
  have hb : opAddrBank (run inp t).arb.opAddr = b := hbank
  have hcur : (run inp t).sdc.curBank ((run inp t).mcIn (inp t)) =
      (run inp t).sdc.bankStates b := by
    rw [← hb]
    rfl
  rw [hcur] at hopen hrow
  obtain ⟨t', ht', hact, haddr, hsince⟩ := hT.opened b hopen
  refine ⟨hb.symm, t', ?_, hact, haddr.trans hrow, hsince⟩
  have hdist := (hT.activated b t' ht' hact).1
  rw [hbw] at hdist
  simpa [trcdCycles] using hdist

/-- The distance of a free controller from every PRECHARGE. -/
theorem precharge_distance (hst : (run inp t).sdc.state ≠ .startup)
    (hbw : (run inp t).sdc.busyWaitCounter = 0#4) (b : Bank) (t' : ℕ) (ht' : t' < t)
    (hp : (issued inp t').precharges b = true) : t' + (trpCycles.toNat + 1) ≤ t := by
  have hdist := (timing_run inp t).precharged hst b t' ht' hp
  rw [hbw] at hdist
  simpa [trpCycles] using hdist

/-- An ACTIVE finds its bank closed for long enough. -/
theorem activates_legal {b : Bank} (hc : (issued inp t).activates b = true) :
    openRow inp b t = none ∧ ∀ t', t' < t → (issued inp t').precharges b = true →
      t' + (trpCycles.toNat + 1) ≤ t := by
  obtain ⟨hcmd, hbank⟩ : (issued inp t).command = .active ∧ (issued inp t).bank = b := by
    simpa [SdramController.activates] using hc
  obtain ⟨hsdc, hst, hbw, -, hclosed⟩ := (issued_acts inp t).of_active hcmd
  rw [hsdc] at hbank
  have hb : opAddrBank ((run inp t).mcIn (inp t)).opAddr = b := hbank
  have hclosed' : ((run inp t).sdc.bankStates b).active = false := hb ▸ hclosed
  refine ⟨?_, precharge_distance (by simp [hst]) hbw b⟩
  rw [(timing_run inp t).mirror b]
  simp [BankState.openRow, hclosed']

/-- A bank is precharged no sooner than four clocks after its ACTIVE. -/
theorem precharges_legal (hst : (run inp t).sdc.state ≠ .startup) {b : Bank}
    (hc : (issued inp t).precharges b = true) (t' : ℕ) (ht' : t' < t)
    (ha : (issued inp t').activates b = true) : t' + 4 ≤ t := by
  have hcmd : (issued inp t).command = .precharge := by
    simp only [SdramController.precharges, Bool.and_eq_true, beq_iff_eq] at hc
    exact hc.1
  obtain ⟨hidle, hbw, hbranch⟩ :=
    ((issued_acts inp t).of_precharge hcmd).resolve_left hst
  rcases ((timing_run inp t).activated b t' ht' ha).2 with h4 | hw
  · have hdelay : delay (run inp t).sdc = 0 := by simp [delay, hbw, hidle]
    omega
  · -- a wanted row is not precharged
    exfalso
    rcases hbranch with ⟨-, -, hrow⟩ | ⟨-, -, hno⟩
    · rw [hw.curBank (inp t)] at hrow
      exact hrow hw.row
    · exact hw.transacts (inp t) (phase_run inp t) (lock_wait_run inp t).1 hno

/-- A REFRESH finds all banks closed for long enough. -/
theorem refresh_legal (hc : (issued inp t).command = .refresh) :
    (∀ b, openRow inp b t = none) ∧ ∀ t' b, t' < t → (issued inp t').precharges b = true →
      t' + (trpCycles.toNat + 1) ≤ t := by
  obtain ⟨-, hst, hbw, hany⟩ := (issued_acts inp t).of_refresh hc
  refine ⟨fun b => ?_, fun t' b => precharge_distance (by simp [hst]) hbw b t'⟩
  rw [(timing_run inp t).mirror b]
  simp [BankState.openRow, SdramController.anyActive_eq_false.mp hany b]

/-- Only NOP follows a REFRESH while it runs. -/
theorem nop_after_refresh (hc : (issued inp t).command = .refresh) (u : ℕ) (htu : t < u)
    (hu : u ≤ t + trfcCycles.toNat) : (issued inp u).command = .nop := by
  have hu' : u ≤ t + 6 := hu
  obtain ⟨h7, hterm⟩ := (timing_run inp u).refreshed t htu hc
  have hact := issued_acts inp u
  have hfree : ∀ {P : Prop}, (run inp u).sdc.busyWaitCounter = 0#4 → P := by
    intro P hbw
    rw [hbw] at h7
    simp at h7
    omega
  generalize issued inp u = c' at hact
  cases hact with
  | startup hst =>
      exact hfree ((lock_wait_run inp u).2 hst).wait
  | wait => rfl
  | terminate hst =>
      have := hterm hst
      omega
  | activate _ hbw => exact hfree hbw
  | prechargeRow _ hbw => exact hfree hbw
  | access _ hbw => exact hfree hbw
  | prechargeAll _ hbw => exact hfree hbw
  | refresh _ hbw => exact hfree hbw
  | rest _ hbw => exact hfree hbw

/-- The SDRAM command stream is legal: in every run, for every edge after
{lit}`STARTUP`, each command keeps the distances it needs, and {lit}`bank_states` mirrors
the rows that the device has open. -/
theorem sdram_commands_legal (inp : ℕ → Channel → MemChannelIn) (t : ℕ)
    (hst : (run inp t).sdc.state ≠ .startup) :
    (∀ b, (issued inp t).readsOrWrites b = true → b = opAddrBank (run inp t).arb.opAddr ∧
      ∃ t', t' + (trcdCycles.toNat + 1) ≤ t ∧ (issued inp t').activates b = true ∧
        (issued inp t').addr = opAddrRow (run inp t).arb.opAddr ∧
        ∀ u, t' < u → u < t →
          (issued inp u).precharges b = false ∧ (issued inp u).activates b = false) ∧
    (∀ b, (issued inp t).activates b = true → openRow inp b t = none ∧
      ∀ t', t' < t → (issued inp t').precharges b = true →
        t' + (trpCycles.toNat + 1) ≤ t) ∧
    (∀ b, (issued inp t).precharges b = true →
      ∀ t', t' < t → (issued inp t').activates b = true → t' + 4 ≤ t) ∧
    ((issued inp t).command = .refresh →
      (∀ b, openRow inp b t = none) ∧
      (∀ t' b, t' < t → (issued inp t').precharges b = true →
        t' + (trpCycles.toNat + 1) ≤ t) ∧
      ∀ u, t < u → u ≤ t + trfcCycles.toNat → (issued inp u).command = .nop) ∧
    ∀ b, openRow inp b t = ((run inp t).sdc.bankStates b).openRow :=
  ⟨fun _ => readsOrWrites_legal, fun _ => activates_legal, fun _ => precharges_legal hst,
    fun hc => ⟨(refresh_legal hc).1, (refresh_legal hc).2, nop_after_refresh hc⟩,
    (timing_run inp t).mirror⟩

/-- Channel 0 asks for a burst from row 3 of bank 1, and goes on asking. -/
def readRequest (c : Channel) : MemChannelIn := ⟨0x001A08#24, c == 0, false, true, 0#2, 0#16⟩

/-- Up to the first command the arbiter has granted the request, and the controller counts. -/
theorem run_readRequest {t : ℕ} (ht : t < 16384) : run (fun _ => readRequest) (t + 1) =
    ⟨Arbitrator.init.grant false readRequest 0,
      { SdramController.init with command := .nop, cycleCounter := BitVec.ofNat 15 (t + 1) }⟩ := by
  induction t with
  | zero => rfl
  | succ t ih =>
      have hbit : (BitVec.ofNat 15 (t + 1)).getLsbD 14 = false := by
        rw [BitVec.getLsbD_ofNat, Nat.testBit_lt_two_pow (by omega), Bool.and_false]
      rw [run_succ, ih (by omega), MemorySystem.step]
      congr 1
      simp only [SdramController.step, SdramController.init, SdramController.startup, hbit,
        Bool.false_eq_true, if_false]
      simp only [SdramController.edgeDefaults, ← BitVec.ofNat_add]
      rfl

/-- The row is opened, and read two edges later. -/
theorem sdram_commands_legal_readRequest :
    (issued (fun _ => readRequest) 16392).activates 1#2 = true ∧
    openRow (fun _ => readRequest) 1#2 16393 = some 3#13 ∧
    (issued (fun _ => readRequest) 16394).readsOrWrites 1#2 = true ∧
    ∃ t', t' + 2 ≤ 16394 ∧ (issued (fun _ => readRequest) t').activates 1#2 = true ∧
      (issued (fun _ => readRequest) t').addr = 3#13 := by
  have hrun : ∀ k, run (fun _ => readRequest) (16384 + k) =
      Clocked.run step ⟨Arbitrator.init.grant false readRequest 0,
        { SdramController.init with command := .nop, cycleCounter := 16384#15 }⟩
        (fun _ => readRequest) k := by
    intro k
    have hstart := run_readRequest (show 16383 < 16384 by decide)
    rw [run, Clocked.run_add]
    exact congrArg (Clocked.run step · _ k) hstart
  have hactive : (run (fun _ => readRequest) 16393).sdc.activates 1#2 = true := by
    rw [show 16393 = 16384 + 9 from rfl, hrun]
    decide +kernel
  have hrow : ((run (fun _ => readRequest) 16393).sdc.bankStates 1#2).openRow =
      some 3#13 := by
    rw [show 16393 = 16384 + 9 from rfl, hrun]
    decide +kernel
  have hread : (run (fun _ => readRequest) 16395).sdc.readsOrWrites 1#2 = true := by
    rw [show 16395 = 16384 + 11 from rfl, hrun]
    decide +kernel
  have haddr : opAddrRow (run (fun _ => readRequest) 16394).arb.opAddr = 3#13 := by
    rw [show 16394 = 16384 + 10 from rfl, hrun]
    decide +kernel
  have hlegal := fun t (ht : 16392 ≤ t) =>
    sdram_commands_legal (fun _ => readRequest) t (not_startup_of_le _ ht)
  obtain ⟨-, t', ht', hact, hrow', -⟩ := (hlegal 16394 (by decide)).1 1#2 hread
  exact ⟨hactive, ((hlegal 16393 (by decide)).2.2.2.2 1#2).trans hrow, hread, t', ht', hact,
    hrow'.trans haddr⟩

end Sumeru
