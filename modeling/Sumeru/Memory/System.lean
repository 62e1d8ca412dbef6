import Sumeru.Memory.Arbitrator
import Sumeru.Memory.SdramController
import Sumeru.Library.Clocked

/-!
# Sumeru - Arbiter and controller together

The memory arbiter connected to the SDRAM controller, driven by eight arbitrary
channels.  The two machines are kept in step by the toggle-encoded start and
strobe signals; {lit}`Phase` says how, in the four situations a transaction goes
through.  Every later result about the memory system rests on it.

Main results:

- Theorem {lit}`SdramController.step_acts`: the branches of the controller, each
  with its guard.
- Theorem {lit}`MemorySystem.phase_run`: the phases cover every reachable state.
-/

namespace Sumeru

/-! ## The branches of the controller -/

namespace SdramController

/-- What one edge can do to the controller: the guard and the result of every
branch of the process. -/
inductive Acts (s : SdramController) (mc : MemChannelIn) : SdramController → Prop where
  | startup (hst : s.state = .startup) : Acts s mc s.startup
  | wait (hst : s.state = .idle) (hbusy : s.busyWaitCounter ≠ 0#4) :
      Acts s mc { s.edgeDefaults with busyWaitCounter := s.busyWaitCounter - 1#4 }
  | activate (hst : s.state = .idle) (hbusy : s.busyWaitCounter = 0#4)
      (hreq : mc.opStart ≠ s.strobe) (hlock : s.refreshLock = false)
      (hclosed : (s.curBank mc).active = false) : Acts s mc (s.activate mc)
  | prechargeRow (hst : s.state = .idle) (hbusy : s.busyWaitCounter = 0#4)
      (hreq : mc.opStart ≠ s.strobe) (hlock : s.refreshLock = false)
      (hopen : (s.curBank mc).active = true)
      (hrow : (s.curBank mc).row ≠ opAddrRow mc.opAddr) : Acts s mc (s.prechargeRow mc)
  | access (hst : s.state = .idle) (hbusy : s.busyWaitCounter = 0#4)
      (hreq : mc.opStart ≠ s.strobe) (hlock : s.refreshLock = false)
      (hopen : (s.curBank mc).active = true)
      (hrow : (s.curBank mc).row = opAddrRow mc.opAddr) : Acts s mc (s.access mc)
  | prechargeAll (hst : s.state = .idle) (hbusy : s.busyWaitCounter = 0#4)
      (hno : mc.opStart = s.strobe ∨ s.refreshLock = true)
      (hdue : refreshCycles < s.cycleCounter.toNat) (hany : s.anyActive = true) :
      Acts s mc s.prechargeAll
  | refresh (hst : s.state = .idle) (hbusy : s.busyWaitCounter = 0#4)
      (hno : mc.opStart = s.strobe ∨ s.refreshLock = true)
      (hdue : refreshCycles < s.cycleCounter.toNat) (hany : s.anyActive = false) :
      Acts s mc s.refresh
  | rest (hst : s.state = .idle) (hbusy : s.busyWaitCounter = 0#4)
      (hno : mc.opStart = s.strobe ∨ s.refreshLock = true)
      (hdue : s.cycleCounter.toNat ≤ refreshCycles) : Acts s mc s.edgeDefaults
  | terminate (hst : s.state = .terminateBurst) :
      Acts s mc { s.edgeDefaults with command := .burstTerminate, state := .idle }

/-- The wait counter has run down. -/
theorem busyWait_eq_false {s : SdramController} :
    s.busyWait = false ↔ s.busyWaitCounter = 0#4 := by
  simp [busyWait]

/-- Every edge takes one of the branches. -/
theorem step_acts (s : SdramController) (mc : MemChannelIn) : Acts s mc (s.step mc) := by
  unfold step
  cases hst : s.state with
  | startup => exact .startup hst
  | terminateBurst => exact .terminate hst
  | idle =>
      simp only
      split
      · rename_i hb
        have hbusy := busyWait_eq_false.mp hb
        split
        · rename_i ht
          obtain ⟨hreq, hlock⟩ : mc.opStart ≠ s.strobe ∧ s.refreshLock = false := by
            simpa [transacts] using ht
          unfold serve
          split
          · rename_i hclosed
            exact .activate hst hbusy hreq hlock hclosed
          · rename_i hopen
            rw [Bool.not_eq_false] at hopen
            split
            · rename_i hrow
              exact .prechargeRow hst hbusy hreq hlock hopen hrow
            · rename_i hrow
              exact .access hst hbusy hreq hlock hopen (not_not.mp hrow)
        · rename_i ht
          have hno : mc.opStart = s.strobe ∨ s.refreshLock = true := by
            simpa [transacts, imp_iff_not_or] using ht
          unfold maintain
          split
          · rename_i hdue
            split
            · rename_i hany
              exact .prechargeAll hst hbusy hno hdue hany
            · rename_i hany
              exact .refresh hst hbusy hno hdue (by simpa using hany)
          · rename_i hdue
            exact .rest hst hbusy hno (by omega)
      · rename_i hb
        exact .wait hst fun h => hb (busyWait_eq_false.mpr h)

/-- Only an access touches the end of the strobe pipeline. -/
theorem strobes_startup (s : SdramController) :
    s.startup.strobe = s.strobeR1 ∧ s.startup.strobeR1 = s.strobeR2 ∧
      s.startup.strobeR2 = s.strobeR2 := by
  unfold startup
  repeat' split
  all_goals exact ⟨rfl, rfl, rfl⟩

/-- The controller starts up until it is idle. -/
theorem state_startup {s : SdramController} (h : s.state = .startup) :
    s.startup.state = .startup ∨ s.startup.state = .idle := by
  unfold startup
  repeat' split
  all_goals simp [edgeDefaults, h]

/-- {lit}`STARTUP` issues no other commands than NOP, PRECHARGE and LMR. -/
theorem command_startup (s : SdramController) :
    s.startup.command = .nop ∨ s.startup.command = .precharge ∨ s.startup.command = .lmr := by
  unfold startup
  repeat' split
  all_goals simp [edgeDefaults]

/-- An access is a READ or a WRITE. -/
theorem command_access (s : SdramController) (mc : MemChannelIn) :
    (s.access mc).command = if mc.opWren then .write else .read :=
  rfl

/-! ### The branch behind a command -/

variable {s c : SdramController} {mc : MemChannelIn}

/-- Only {lit}`activate` issues ACTIVE. -/
theorem Acts.of_active (h : Acts s mc c) (hc : c.command = .active) :
    c = s.activate mc ∧ s.state = .idle ∧ s.busyWaitCounter = 0#4 ∧ mc.opStart ≠ s.strobe ∧
      (s.curBank mc).active = false := by
  cases h with
  | activate hst hbw hreq _ hclosed => exact ⟨rfl, hst, hbw, hreq, hclosed⟩
  | startup => rcases s.command_startup with h | h | h <;> simp [h] at hc
  | access =>
      rw [command_access] at hc
      split at hc <;> cases hc
  | _ =>
      simp [edgeDefaults, SdramController.prechargeRow, SdramController.prechargeAll,
        SdramController.refresh] at hc

/-- The three branches that issue PRECHARGE. -/
theorem Acts.of_precharge (h : Acts s mc c) (hc : c.command = .precharge) :
    s.state = .startup ∨
      (s.state = .idle ∧ s.busyWaitCounter = 0#4 ∧
        ((c = s.prechargeRow mc ∧ mc.opStart ≠ s.strobe ∧
            (s.curBank mc).row ≠ opAddrRow mc.opAddr) ∨
          (c = s.prechargeAll ∧ s.anyActive = true ∧
            (mc.opStart = s.strobe ∨ s.refreshLock = true)))) := by
  cases h with
  | startup hst => exact .inl hst
  | prechargeRow hst hbw hreq _ _ hrow => exact .inr ⟨hst, hbw, .inl ⟨rfl, hreq, hrow⟩⟩
  | prechargeAll hst hbw hno _ hany => exact .inr ⟨hst, hbw, .inr ⟨rfl, hany, hno⟩⟩
  | access =>
      rw [command_access] at hc
      split at hc <;> cases hc
  | _ => simp [edgeDefaults, SdramController.activate, SdramController.refresh] at hc

/-- Only {lit}`refresh` issues REFRESH. -/
theorem Acts.of_refresh (h : Acts s mc c) (hc : c.command = .refresh) :
    c = s.refresh ∧ s.state = .idle ∧ s.busyWaitCounter = 0#4 ∧ s.anyActive = false := by
  cases h with
  | refresh hst hbw _ _ hany => exact ⟨rfl, hst, hbw, hany⟩
  | startup => rcases s.command_startup with h | h | h <;> simp [h] at hc
  | access =>
      rw [command_access] at hc
      split at hc <;> cases hc
  | _ =>
      simp [edgeDefaults, SdramController.activate, SdramController.prechargeRow,
        SdramController.prechargeAll] at hc

/-- Only {lit}`access` issues READ and WRITE. -/
theorem Acts.of_readOrWrite (h : Acts s mc c) (hc : c.command = .read ∨ c.command = .write) :
    c = s.access mc ∧ s.state = .idle ∧ s.busyWaitCounter = 0#4 ∧ mc.opStart ≠ s.strobe ∧
      (s.curBank mc).active = true ∧ (s.curBank mc).row = opAddrRow mc.opAddr := by
  cases h with
  | access hst hbw hreq _ hopen hrow => exact ⟨rfl, hst, hbw, hreq, hopen, hrow⟩
  | startup => rcases s.command_startup with h | h | h <;> simp [h] at hc
  | _ =>
      simp [edgeDefaults, SdramController.activate, SdramController.prechargeRow,
        SdramController.prechargeAll, SdramController.refresh] at hc

end SdramController

/-! ## The composed machine -/

/-- The arbiter and the controller. -/
structure MemorySystem where
  arb : Arbitrator
  sdc : SdramController

namespace MemorySystem

/-- Power-up contents. -/
def init : MemorySystem where
  arb := Arbitrator.init
  sdc := SdramController.init

/-- The request the controller sees. -/
def mcIn (s : MemorySystem) (mc : Channel → MemChannelIn) : MemChannelIn :=
  s.arb.sdcIn mc

/-- One rising edge of {lit}`clk`. -/
def step (s : MemorySystem) (mc : Channel → MemChannelIn) : MemorySystem where
  arb := s.arb.step s.sdc.busyWait s.sdc.strobe mc
  sdc := s.sdc.step (s.mcIn mc)

/-- The memory system before its {lit}`t`-th clock edge. -/
def run (inp : ℕ → Channel → MemChannelIn) (t : ℕ) : MemorySystem :=
  Clocked.run step init inp t

/-- One more cycle. -/
theorem run_succ (inp : ℕ → Channel → MemChannelIn) (t : ℕ) :
    run inp (t + 1) = (run inp t).step (inp t) :=
  rfl

/-! ## Phases of a transaction -/

/-- The three strobe registers of the controller are equal to {lit}`b`. -/
structure Strobes (c : SdramController) (b : Bool) : Prop where
  strobe : c.strobe = b
  r1 : c.strobeR1 = b
  r2 : c.strobeR2 = b

/-- How arbiter and controller stand to each other: no transaction is open, one
waits to be served, a read was issued {lit}`k` edges ago and its strobe is on the
way, or a write has just been issued. -/
inductive Phase (a : Arbitrator) (c : SdramController) : Prop where
  | quiet (ha : a.state = .idle ∨ a.state = .waitBusy) (hc : c.state ≠ .terminateBurst)
      (hs : Strobes c a.opStart)
  | pending (ha : a.state = .waitStrobe) (hc : c.state ≠ .terminateBurst)
      (hs : Strobes c !a.opStart)
  | reading (k : ℕ) (hk : k < 3) (ha : a.state = .waitStrobe) (hw : a.opWren = false)
      (hs : c.strobe = if 2 ≤ k then a.opStart else !a.opStart)
      (h1 : c.strobeR1 = if 1 ≤ k then a.opStart else !a.opStart)
      (h2 : c.strobeR2 = a.opStart)
      (hc : c.state = if a.opBurst = false ∧ k = 0 then .terminateBurst else .idle)
      (hbw : c.busyWaitCounter.toNat =
        if a.opBurst then 9 - k else if k = 0 then 2 else 3 - k)
  | writing (ha : a.state = .waitStrobe) (hw : a.opWren = true) (hs : Strobes c a.opStart)
      (hc : c.state = SdramController.rwNextState a.opBurst)
      (hbw : c.busyWaitCounter = SdramController.busyWaitPeriod true a.opBurst)

/-- The controller is inside the wait or the terminate cycle after an access. -/
def Occupied (c : SdramController) : Prop :=
  (c.state = .idle ∧ c.busyWaitCounter.toNat ≠ 0) ∨ c.state = .terminateBurst

/-- A transaction that has been issued but not answered keeps the controller
occupied. -/
theorem Phase.occupied {a : Arbitrator} {c : SdramController} (h : Phase a c)
    (ha : a.state = .waitStrobe) (hs : c.strobeR2 = a.opStart) : Occupied c := by
  cases h with
  | quiet ha' => rcases ha' with h | h <;> simp [ha] at h
  | pending _ _ hs' => simp [hs'.r2] at hs
  | reading k hk _ _ _ _ _ hc hbw =>
      by_cases hterm : a.opBurst = false ∧ k = 0
      · exact .inr (by rw [hc, if_pos hterm])
      · refine .inl ⟨by rw [hc, if_neg hterm], ?_⟩
        cases hb : a.opBurst <;> simp only [hb] at hbw hterm <;> simp at hbw hterm
        · simp only [hterm, if_false] at hbw
          omega
        · omega
  | writing _ _ _ hc hbw =>
      cases hb : a.opBurst <;> rw [hb] at hc hbw
      · exact .inr hc
      · exact .inl ⟨hc, by rw [hbw]; decide⟩

/-- A free controller with a request in front of it has not served it yet. -/
theorem Phase.pending_of_free {a : Arbitrator} {c : SdramController} (h : Phase a c)
    (hst : c.state = .idle) (hbw : c.busyWaitCounter = 0#4) (hreq : a.opStart ≠ c.strobe) :
    a.state = .waitStrobe ∧ Strobes c !a.opStart := by
  have hfree : ¬ Occupied c := by
    rintro (⟨-, h⟩ | h)
    · simp [hbw] at h
    · simp [hst] at h
  cases h with
  | quiet _ _ hs => exact absurd hs.strobe.symm hreq
  | pending ha _ hs => exact ⟨ha, hs⟩
  | reading k hk ha hw hs h1 h2 hc hb =>
      exact absurd (Phase.occupied (.reading k hk ha hw hs h1 h2 hc hb) ha h2) hfree
  | writing _ _ hs => exact absurd hs.strobe.symm hreq

variable {s : MemorySystem} (mc : Channel → MemChannelIn)

/-- At power-up no transaction is open. -/
theorem phase_init : Phase init.arb init.sdc :=
  .quiet (.inl rfl) (by decide) ⟨rfl, rfl, rfl⟩

/-- While the strobe is outstanding the arbiter does not move. -/
theorem arb_step_of_waiting (ha : s.arb.state = .waitStrobe)
    (hs : s.sdc.strobe ≠ s.arb.opStart) : (s.step mc).arb = s.arb := by
  simp [step, Arbitrator.step, ha, hs]

/-- The arriving strobe ends the wait. -/
theorem arb_step_of_strobe (ha : s.arb.state = .waitStrobe)
    (hs : s.sdc.strobe = s.arb.opStart) :
    (s.step mc).arb = { s.arb with state := .waitBusy, strobeMux := fun _ => false } := by
  simp [step, Arbitrator.step, ha, hs]

/-- A controller with steady strobes keeps them, unless it accesses the memory. -/
theorem strobes_acts {c c' : SdramController} {x : MemChannelIn} {b : Bool}
    (hs : Strobes c b) (hc : c.state ≠ .terminateBurst) (hact : c.Acts x c') :
    (c' = c.access x ∧ x.opStart ≠ c.strobe) ∨
      (Strobes c' b ∧ c'.state ≠ .terminateBurst) := by
  cases hact with
  | startup hst =>
      obtain ⟨h1, h2, h3⟩ := c.strobes_startup
      refine .inr ⟨⟨h1.trans hs.r1, h2.trans hs.r2, h3.trans hs.r2⟩, ?_⟩
      rcases SdramController.state_startup hst with h | h <;> simp [h]
  | access _ _ hreq => exact .inl ⟨rfl, hreq⟩
  | terminate hst => exact absurd hst hc
  | _ => exact .inr ⟨⟨hs.r1, hs.r2, hs.r2⟩, hc⟩

/-- No transaction is open: the controller has nothing to serve, and a grant opens
one. -/
theorem phase_step_quiet (ha : s.arb.state = .idle ∨ s.arb.state = .waitBusy)
    (hc : s.sdc.state ≠ .terminateBurst) (hs : Strobes s.sdc s.arb.opStart) :
    Phase (s.step mc).arb (s.step mc).sdc := by
  have hact : s.sdc.Acts (s.mcIn mc) (s.step mc).sdc := s.sdc.step_acts _
  have hreq : (s.mcIn mc).opStart = s.sdc.strobe := hs.strobe.symm
  have hkeep : Strobes (s.step mc).sdc s.arb.opStart ∧
      (s.step mc).sdc.state ≠ .terminateBurst := by
    rcases strobes_acts hs hc hact with ⟨-, hne⟩ | hkeep
    · exact absurd hreq hne
    · exact hkeep
  rcases ha with ha | ha
  · cases hg : s.arb.grant? mc with
    | none =>
        have harb : (s.step mc).arb = s.arb := by simp [step, Arbitrator.step, ha, hg]
        rw [harb]
        exact .quiet (.inl ha) hkeep.2 hkeep.1
    | some c =>
        have harb : (s.step mc).arb = s.arb.grant s.sdc.strobe mc c := by
          simp [step, Arbitrator.step, ha, hg]
        rw [harb]
        refine .pending rfl hkeep.2 ?_
        simpa [Arbitrator.grant] using hkeep.1
  · have harb : (s.step mc).arb.opStart = s.arb.opStart ∧
        ((s.step mc).arb.state = .idle ∨ (s.step mc).arb.state = .waitBusy) := by
      simp only [step, Arbitrator.step, ha]
      split
      · exact ⟨rfl, .inl rfl⟩
      · exact ⟨rfl, .inr ha⟩
    exact .quiet harb.2 hkeep.2 (harb.1 ▸ hkeep.1)

/-- A waiting transaction is served by an access or waits on. -/
theorem phase_step_pending (ha : s.arb.state = .waitStrobe)
    (hc : s.sdc.state ≠ .terminateBurst) (hs : Strobes s.sdc !s.arb.opStart) :
    Phase (s.step mc).arb (s.step mc).sdc := by
  have hact : s.sdc.Acts (s.mcIn mc) (s.step mc).sdc := s.sdc.step_acts _
  rw [arb_step_of_waiting mc ha (by simp [hs.strobe])]
  rcases strobes_acts hs hc hact with ⟨haccess, -⟩ | hkeep
  · rw [haccess]
    cases hw : s.arb.opWren with
    | false =>
        refine .reading 0 (by omega) ha hw ?_ ?_ ?_ ?_ ?_
        · simp [SdramController.access, mcIn, Arbitrator.sdcIn, hw, hs.r1]
        · simp [SdramController.access, mcIn, Arbitrator.sdcIn, hw, hs.r2]
        · simp [SdramController.access, hs.r2]
        · cases hb : s.arb.opBurst <;>
            simp [SdramController.access, mcIn, Arbitrator.sdcIn, SdramController.rwNextState, hb]
        · cases hb : s.arb.opBurst <;>
            simp [SdramController.access, mcIn, Arbitrator.sdcIn, SdramController.busyWaitPeriod,
              hw, hb]
    | true =>
        refine .writing ha hw ⟨?_, ?_, ?_⟩ rfl ?_
        · simp [SdramController.access, mcIn, Arbitrator.sdcIn, hw, hs.r2]
        · simp [SdramController.access, mcIn, Arbitrator.sdcIn, hw, hs.r2]
        · simp [SdramController.access, hs.r2]
        · simp [SdramController.access, mcIn, Arbitrator.sdcIn, hw]
  · exact .pending ha hkeep.2 hkeep.1

/-- A busy controller counts down. -/
theorem sdc_step_of_busy (hst : s.sdc.state = .idle) (hbw : s.sdc.busyWaitCounter.toNat ≠ 0) :
    (s.step mc).sdc = { s.sdc.edgeDefaults with
      busyWaitCounter := s.sdc.busyWaitCounter - 1#4 } := by
  have hb : s.sdc.busyWait = true := by
    rw [SdramController.busyWait, bne_iff_ne]
    rintro h
    simp [h] at hbw
  simp [step, SdramController.step, hst, hb]

/-- The cycle after a single access. -/
theorem sdc_step_of_terminate (hst : s.sdc.state = .terminateBurst) :
    (s.step mc).sdc = { s.sdc.edgeDefaults with
      command := .burstTerminate, state := .idle } := by
  simp [step, SdramController.step, hst]

/-- An occupied controller only moves its strobe pipeline. -/
theorem strobes_step_of_occupied (h : Occupied s.sdc) :
    (s.step mc).sdc.strobe = s.sdc.strobeR1 ∧ (s.step mc).sdc.strobeR1 = s.sdc.strobeR2 ∧
      (s.step mc).sdc.strobeR2 = s.sdc.strobeR2 := by
  rcases h with ⟨hst, hbw⟩ | hst
  · rw [sdc_step_of_busy mc hst hbw]
    exact ⟨rfl, rfl, rfl⟩
  · rw [sdc_step_of_terminate mc hst]
    exact ⟨rfl, rfl, rfl⟩

/-- The strobe of a read travels through the pipeline while the burst runs. -/
theorem phase_step_reading {k : ℕ} (hk : k < 3) (ha : s.arb.state = .waitStrobe)
    (hw : s.arb.opWren = false)
    (hs : s.sdc.strobe = if 2 ≤ k then s.arb.opStart else !s.arb.opStart)
    (h1 : s.sdc.strobeR1 = if 1 ≤ k then s.arb.opStart else !s.arb.opStart)
    (h2 : s.sdc.strobeR2 = s.arb.opStart)
    (hc : s.sdc.state = if s.arb.opBurst = false ∧ k = 0 then .terminateBurst else .idle)
    (hbw : s.sdc.busyWaitCounter.toNat =
      if s.arb.opBurst then 9 - k else if k = 0 then 2 else 3 - k) :
    Phase (s.step mc).arb (s.step mc).sdc := by
  -- the controller: the terminate cycle of a single read, otherwise one count down
  have hsdc : (s.step mc).sdc.strobe = s.sdc.strobeR1 ∧
      (s.step mc).sdc.strobeR1 = s.sdc.strobeR2 ∧ (s.step mc).sdc.strobeR2 = s.sdc.strobeR2 ∧
      (s.step mc).sdc.state = .idle ∧
      (s.step mc).sdc.busyWaitCounter.toNat = if s.arb.opBurst then 8 - k else 2 - k := by
    by_cases hterm : s.arb.opBurst = false ∧ k = 0
    · rw [if_pos hterm] at hc
      rw [sdc_step_of_terminate mc hc]
      exact ⟨rfl, rfl, rfl, rfl, by simpa [hterm, SdramController.edgeDefaults] using hbw⟩
    · rw [if_neg hterm] at hc
      have hnext : s.sdc.busyWaitCounter.toNat = (if s.arb.opBurst then 8 - k else 2 - k) + 1 := by
        cases hb : s.arb.opBurst <;> simp only [hb] at hbw hterm ⊢ <;> simp at hbw hterm ⊢
        · simp only [hterm] at hbw
          simp only [if_false] at hbw
          omega
        · omega
      rw [sdc_step_of_busy mc hc (by omega)]
      refine ⟨rfl, rfl, rfl, hc, ?_⟩
      have hlt := s.sdc.busyWaitCounter.isLt
      change (s.sdc.busyWaitCounter - 1#4).toNat = _
      bv_omega
  obtain ⟨hs', h1', h2', hst', hbw'⟩ := hsdc
  rw [h1] at hs'
  rw [h2] at h1' h2'
  by_cases hlast : k = 2
  · subst hlast
    rw [arb_step_of_strobe mc ha (by simpa using hs)]
    refine .quiet (.inr rfl) (by simp [hst']) ⟨?_, h1', h2'⟩
    simpa using hs'
  · rw [arb_step_of_waiting mc ha (by simp [hs, show ¬ 2 ≤ k by omega])]
    refine .reading (k + 1) (by omega) ha hw ?_ ?_ h2' ?_ ?_
    · rw [hs']
      simp
    · simpa using h1'
    · simpa using hst'
    · rw [hbw']
      simp

/-- A write has answered at once. -/
theorem phase_step_writing (ha : s.arb.state = .waitStrobe) (hs : Strobes s.sdc s.arb.opStart)
    (hc : s.sdc.state = SdramController.rwNextState s.arb.opBurst)
    (hbw : s.sdc.busyWaitCounter = SdramController.busyWaitPeriod true s.arb.opBurst) :
    Phase (s.step mc).arb (s.step mc).sdc := by
  rw [arb_step_of_strobe mc ha hs.strobe]
  cases hb : s.arb.opBurst with
  | false =>
      rw [hb] at hc
      rw [sdc_step_of_terminate mc hc]
      exact .quiet (.inr rfl) (by simp) ⟨hs.r1, hs.r2, hs.r2⟩
  | true =>
      rw [hb] at hc hbw
      rw [sdc_step_of_busy mc hc (by rw [hbw]; decide)]
      refine .quiet (.inr rfl) ?_ ⟨hs.r1, hs.r2, hs.r2⟩
      change s.sdc.state ≠ _
      rw [hc]
      decide

/-- One clock edge leads from phase to phase. -/
theorem phase_step (h : Phase s.arb s.sdc) : Phase (s.step mc).arb (s.step mc).sdc := by
  cases h with
  | quiet ha hc hs => exact phase_step_quiet mc ha hc hs
  | pending ha hc hs => exact phase_step_pending mc ha hc hs
  | reading k hk ha hw hs h1 h2 hc hbw => exact phase_step_reading mc hk ha hw hs h1 h2 hc hbw
  | writing ha _ hs hc hbw => exact phase_step_writing mc ha hs hc hbw

/-- The phases cover every reachable state, whatever the channels do. -/
theorem phase_run (inp : ℕ → Channel → MemChannelIn) (t : ℕ) :
    Phase (run inp t).arb (run inp t).sdc :=
  Clocked.run_invariant (P := fun s : MemorySystem => Phase s.arb s.sdc) phase_init
    (fun n h => phase_step (inp n) h) t

end MemorySystem

end Sumeru
