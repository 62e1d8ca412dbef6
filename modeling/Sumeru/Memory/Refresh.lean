import Sumeru.Memory.System

/-!
# Sumeru - Refresh is never starved

The controller prefers a pending transaction over a due refresh, so a bound on the
refresh delay has to come from the arbiter, which leaves a gap after every
transaction.  The argument is one rank: {lit}`toEvaluation` bounds the number of
edges until the controller next looks at the refresh condition, and falls by one
at every edge that does not.

Main results:

- Theorem {lit}`MemorySystem.toEvaluation_step`: the rank falls until the refresh
  condition is evaluated.
- Theorem {lit}`MemorySystem.bounded_step`: one invariant with a parameter for both
  bounds on the cycle counter.
- Theorem {lit}`refresh_not_starved`: an evaluation between any two transactions,
  no overflow after {lit}`STARTUP`, and the steady-state bound.
-/

namespace Sumeru

namespace MemorySystem

/-- The controller evaluates the refresh condition at this edge. -/
def evaluatesRefresh (s : MemorySystem) (mc : Channel → MemChannelIn) : Bool :=
  s.sdc.state == .idle && !s.sdc.busyWait && !s.sdc.transacts (s.mcIn mc)

/-- Edges from a pending request to its access and the wait after it, by the state
of the addressed bank. -/
def serveCost (s : MemorySystem) : ℕ :=
  if (s.sdc.bankStates (opAddrBank s.arb.opAddr)).active = false then 12
  else if (s.sdc.bankStates (opAddrBank s.arb.opAddr)).row ≠ opAddrRow s.arb.opAddr then 14
  else 10

/-- A bound on the number of edges before the refresh condition is evaluated. -/
def toEvaluation (s : MemorySystem) : ℕ :=
  let wait := s.sdc.busyWaitCounter.toNat
  if s.sdc.refreshLock then wait
  else
    match s.arb.state with
    | .idle => if wait = 0 then 0 else wait + 14
    | .waitBusy => wait
    | .waitStrobe =>
        if s.sdc.strobeR2 ≠ s.arb.opStart then wait + s.serveCost
        else if s.sdc.state = .terminateBurst then wait + 1 else wait

variable {s : MemorySystem} (mc : Channel → MemChannelIn)

/-- Serving a request takes at most 14 cycles. -/
theorem serveCost_le (s : MemorySystem) : s.serveCost ≤ 14 := by
  unfold serveCost
  split <;> [skip; split] <;> omega

/-- The condition for a refresh is evaluated in {lit}`IDLE` without a request to serve. -/
theorem evaluatesRefresh_iff :
    s.evaluatesRefresh mc = true ↔ s.sdc.state = .idle ∧ s.sdc.busyWaitCounter = 0#4 ∧
      (s.arb.opStart = s.sdc.strobe ∨ s.sdc.refreshLock = true) := by
  simp [evaluatesRefresh, SdramController.busyWait, SdramController.transacts, mcIn,
    Arbitrator.sdcIn, and_assoc]

/-- The wait counter counts down. -/
theorem toNat_sub_one {x : BitVec 4} (h : x ≠ 0#4) : (x - 1#4).toNat + 1 = x.toNat := by
  bv_omega

/-- A refresh in preparation waits only for its precharge. -/
theorem toEvaluation_step_locked (hst : s.sdc.state = .idle) (hlock : s.sdc.refreshLock = true) :
    s.evaluatesRefresh mc = true ∨ (s.step mc).toEvaluation + 1 ≤ s.toEvaluation := by
  by_cases hbw : s.sdc.busyWaitCounter = 0#4
  · exact .inl ((evaluatesRefresh_iff mc).mpr ⟨hst, hbw, .inr hlock⟩)
  · right
    have hsdc := sdc_step_of_busy (s := s) mc hst (by bv_omega)
    have hnext := toNat_sub_one hbw
    simp only [toEvaluation, hsdc, SdramController.edgeDefaults, hlock, if_true]
    omega

/-- Between transactions the controller evaluates as soon as it is not busy. -/
theorem toEvaluation_step_quiet (hst : s.sdc.state = .idle) (hlock : s.sdc.refreshLock = false)
    (ha : s.arb.state = .idle ∨ s.arb.state = .waitBusy) (hs : Strobes s.sdc s.arb.opStart) :
    s.evaluatesRefresh mc = true ∨ (s.step mc).toEvaluation + 1 ≤ s.toEvaluation := by
  by_cases hbw : s.sdc.busyWaitCounter = 0#4
  · exact .inl ((evaluatesRefresh_iff mc).mpr ⟨hst, hbw, .inl hs.strobe.symm⟩)
  · right
    have hne : s.sdc.busyWaitCounter.toNat ≠ 0 := by bv_omega
    have hsdc := sdc_step_of_busy (s := s) mc hst hne
    have hnext := toNat_sub_one hbw
    have hcost := (s.step mc).serveCost_le
    have hbusy : s.sdc.busyWait = true := by simpa [SdramController.busyWait] using hbw
    rcases ha with ha | ha
    · have hafter : (s.step mc).toEvaluation ≤ (s.sdc.busyWaitCounter - 1#4).toNat + 14 := by
        simp only [toEvaluation, hsdc, SdramController.edgeDefaults, hlock]
        repeat' split
        all_goals omega
      simp only [toEvaluation, hlock, ha] at hafter ⊢
      simp only [hne, if_false, Bool.false_eq_true] at hafter ⊢
      omega
    · have harb : (s.step mc).arb = s.arb := by simp [step, Arbitrator.step, ha, hbusy]
      simp only [toEvaluation, harb, hsdc, SdramController.edgeDefaults, hlock, ha]
      simp only [Bool.false_eq_true, if_false]
      omega

/-- A pending transaction is brought to its access. -/
theorem toEvaluation_step_pending (hst : s.sdc.state = .idle) (hlock : s.sdc.refreshLock = false)
    (ha : s.arb.state = .waitStrobe) (hs : Strobes s.sdc !s.arb.opStart) :
    (s.step mc).toEvaluation + 1 ≤ s.toEvaluation := by
  have hreq : (s.mcIn mc).opStart ≠ s.sdc.strobe := by
    simp [mcIn, Arbitrator.sdcIn, hs.strobe]
  have hno : ¬ ((s.mcIn mc).opStart = s.sdc.strobe ∨ s.sdc.refreshLock = true) := by
    simp [hreq, hlock]
  have harb : (s.step mc).arb = s.arb := arb_step_of_waiting mc ha (by simp [hs.strobe])
  have hbefore : s.toEvaluation = s.sdc.busyWaitCounter.toNat + s.serveCost := by
    simp [toEvaluation, hlock, ha, hs.r2]
  have hact : s.sdc.Acts (s.mcIn mc) (s.step mc).sdc := s.sdc.step_acts _
  rw [hbefore]
  unfold toEvaluation serveCost
  rw [harb]
  generalize (s.step mc).sdc = c' at hact
  cases hact with
  | startup h => rw [hst] at h; cases h
  | terminate h => rw [hst] at h; cases h
  | prechargeAll _ _ h => exact absurd h hno
  | refresh _ _ h => exact absurd h hno
  | rest _ _ h => exact absurd h hno
  | wait _ hbw =>
      have hnext := toNat_sub_one hbw
      simp only [SdramController.edgeDefaults, hlock, ha, hs.r2]
      simp
      omega
  | activate _ hbw _ _ hclosed =>
      have hcur : (s.sdc.bankStates (opAddrBank s.arb.opAddr)).active = false := hclosed
      simp [SdramController.activate, SdramController.edgeDefaults, hlock, ha, hs.r2, hcur,
        mcIn, Arbitrator.sdcIn, trcdCycles]
  | prechargeRow _ hbw _ _ hopen hrow =>
      have hcur : (s.sdc.bankStates (opAddrBank s.arb.opAddr)).active = true := hopen
      have hcur' : (s.sdc.bankStates (opAddrBank s.arb.opAddr)).row ≠
        opAddrRow s.arb.opAddr := hrow
      simp [SdramController.prechargeRow, SdramController.edgeDefaults, hlock, ha, hs.r2, hcur,
        hcur', mcIn, Arbitrator.sdcIn, trpCycles]
  | access _ hbw _ _ hopen hrow =>
      have hcur : (s.sdc.bankStates (opAddrBank s.arb.opAddr)).active = true := hopen
      have hcur' : (s.sdc.bankStates (opAddrBank s.arb.opAddr)).row =
        opAddrRow s.arb.opAddr := hrow
      simp only [SdramController.access, SdramController.edgeDefaults, hlock, ha, hs.r2, hcur,
        hcur', mcIn, Arbitrator.sdcIn]
      cases s.arb.opWren <;> cases s.arb.opBurst <;>
        simp [SdramController.busyWaitPeriod, SdramController.rwNextState]

/-- The bursts and terminate cycles of a transaction run down. -/
theorem toEvaluation_step_served (hlock : s.sdc.refreshLock = false)
    (ha : s.arb.state = .waitStrobe) (hs : s.sdc.strobeR2 = s.arb.opStart)
    (hbusy : Occupied s.sdc) :
    (s.step mc).toEvaluation + 1 ≤ s.toEvaluation := by
  have harb : (s.step mc).arb.state ≠ .idle ∧ (s.step mc).arb.opStart = s.arb.opStart := by
    simp only [step, Arbitrator.step, ha]
    split <;> simp [ha]
  rcases hbusy with ⟨hst, hbw⟩ | hst
  · have hsdc := sdc_step_of_busy (s := s) mc hst hbw
    have hnext := toNat_sub_one (x := s.sdc.busyWaitCounter) (by bv_omega)
    have hafter : (s.step mc).toEvaluation = (s.sdc.busyWaitCounter - 1#4).toNat := by
      simp only [toEvaluation, hsdc, SdramController.edgeDefaults, hlock, harb.2, hs, hst]
      cases hx : (s.step mc).arb.state <;> simp_all
    rw [hafter]
    simp [toEvaluation, hlock, ha, hs, hst]
    omega
  · have hsdc := sdc_step_of_terminate (s := s) mc hst
    have hafter : (s.step mc).toEvaluation = s.sdc.busyWaitCounter.toNat := by
      simp only [toEvaluation, hsdc, SdramController.edgeDefaults, hlock, harb.2, hs]
      cases hx : (s.step mc).arb.state <;> simp_all
    rw [hafter]
    simp [toEvaluation, hlock, ha, hs, hst]

/-- A refresh in preparation: all banks are closed and the refresh is due. -/
structure Locked (s : MemorySystem) : Prop where
  state : s.sdc.state = .idle
  closed : s.sdc.anyActive = false
  due : refreshCycles < s.sdc.cycleCounter.toNat

/-- Until the refresh condition is evaluated the rank falls at every edge. -/
theorem toEvaluation_step (hst : s.sdc.state ≠ .startup) (hph : Phase s.arb s.sdc)
    (hlock : s.sdc.refreshLock = true → Locked s) :
    s.evaluatesRefresh mc = true ∨ (s.step mc).toEvaluation + 1 ≤ s.toEvaluation := by
  have hidle : s.sdc.state ≠ .terminateBurst → s.sdc.state = .idle := by
    intro h
    cases hs : s.sdc.state <;> simp_all
  cases hl : s.sdc.refreshLock with
  | true => exact toEvaluation_step_locked mc (hlock hl).state hl
  | false =>
      cases hph with
      | quiet ha hc hs => exact toEvaluation_step_quiet mc (hidle hc) hl ha hs
      | pending ha hc hs => exact .inr (toEvaluation_step_pending mc (hidle hc) hl ha hs)
      | reading k hk ha hw hs h1 h2 hc hbw =>
          have hph : Phase s.arb s.sdc := .reading k hk ha hw hs h1 h2 hc hbw
          exact .inr (toEvaluation_step_served mc hl ha h2 (hph.occupied ha h2))
      | writing ha hw hs hc hbw =>
          have hph : Phase s.arb s.sdc := .writing ha hw hs hc hbw
          exact .inr (toEvaluation_step_served mc hl ha hs.r2 (hph.occupied ha hs.r2))

/-! ## The cycle counter -/

/-- The three outcomes of an evaluation. -/
theorem evaluation_acts (h : s.evaluatesRefresh mc = true) :
    ((s.step mc).sdc = s.sdc.prechargeAll ∧ refreshCycles < s.sdc.cycleCounter.toNat ∧
        s.sdc.anyActive = true) ∨
      ((s.step mc).sdc = s.sdc.refresh ∧ refreshCycles < s.sdc.cycleCounter.toNat) ∨
      ((s.step mc).sdc = s.sdc.edgeDefaults ∧ s.sdc.cycleCounter.toNat ≤ refreshCycles) := by
  obtain ⟨hst, hbw, hno⟩ := (evaluatesRefresh_iff mc).mp h
  have hnot : ∀ {P : Prop}, (s.mcIn mc).opStart ≠ s.sdc.strobe → s.sdc.refreshLock = false → P := by
    intro P hreq hlock
    rcases hno with h | h
    · exact absurd h hreq
    · rw [hlock] at h
      cases h
  have hact : s.sdc.Acts (s.mcIn mc) (s.step mc).sdc := s.sdc.step_acts _
  generalize (s.step mc).sdc = c' at hact
  cases hact with
  | startup h => rw [hst] at h; cases h
  | terminate h => rw [hst] at h; cases h
  | wait _ h => exact absurd hbw h
  | activate _ _ hreq hlock => exact hnot hreq hlock
  | prechargeRow _ _ hreq hlock => exact hnot hreq hlock
  | access _ _ hreq hlock => exact hnot hreq hlock
  | prechargeAll _ _ _ hdue hany => exact .inl ⟨rfl, hdue, hany⟩
  | refresh _ _ _ hdue => exact .inr (.inl ⟨rfl, hdue⟩)
  | rest _ _ _ hdue => exact .inr (.inr ⟨rfl, hdue⟩)

/-- Every other edge after {lit}`STARTUP` advances the counter and leaves the lock
alone; a locked controller only counts down. -/
theorem counter_step_of_not_evaluates (hst : s.sdc.state ≠ .startup)
    (h : s.evaluatesRefresh mc = false) :
    (s.step mc).sdc.cycleCounter = s.sdc.cycleCounter + 1#15 ∧
      (s.step mc).sdc.refreshLock = s.sdc.refreshLock ∧
      (s.sdc.refreshLock = true → s.sdc.state = .idle →
        (s.step mc).sdc.state = .idle ∧ (s.step mc).sdc.bankStates = s.sdc.bankStates) := by
  have hev : ∀ {P : Prop}, s.sdc.state = .idle → s.sdc.busyWaitCounter = 0#4 →
      ((s.mcIn mc).opStart = s.sdc.strobe ∨ s.sdc.refreshLock = true) → P := by
    intro P h1 h2 h3
    rw [(evaluatesRefresh_iff mc).mpr ⟨h1, h2, h3⟩] at h
    cases h
  have hact : s.sdc.Acts (s.mcIn mc) (s.step mc).sdc := s.sdc.step_acts _
  generalize (s.step mc).sdc = c' at hact
  cases hact with
  | startup h => exact absurd h hst
  | prechargeAll h1 h2 h3 => exact hev h1 h2 h3
  | refresh h1 h2 h3 => exact hev h1 h2 h3
  | rest h1 h2 h3 => exact hev h1 h2 h3
  | terminate h => exact ⟨rfl, rfl, fun _ hi => by rw [h] at hi; cases hi⟩
  | wait h => exact ⟨rfl, rfl, fun _ _ => ⟨h, rfl⟩⟩
  | activate _ _ _ hl => exact ⟨rfl, rfl, fun hl' => by rw [hl] at hl'; cases hl'⟩
  | prechargeRow _ _ _ hl => exact ⟨rfl, rfl, fun hl' => by rw [hl] at hl'; cases hl'⟩
  | access _ _ _ hl => exact ⟨rfl, rfl, fun hl' => by rw [hl] at hl'; cases hl'⟩

/-- The counter stays within twenty-two of {lit}`M`.  Before a refresh is locked in,
two edges are kept in reserve for the precharge. -/
structure Bounded (M : ℕ) (s : MemorySystem) : Prop where
  lock : s.sdc.refreshLock = true → Locked s
  rank : s.toEvaluation ≤ 20
  counter : s.sdc.cycleCounter.toNat + s.toEvaluation +
    (if s.sdc.refreshLock then 0 else 2) ≤ M + 22

/-- The rank after an evaluation. -/
theorem toEvaluation_le_of_wait {n : ℕ} (hbw : s.sdc.busyWaitCounter.toNat ≤ n)
    (hlock : s.sdc.refreshLock = false) : s.toEvaluation ≤ n + 14 := by
  have hcost := s.serveCost_le
  unfold toEvaluation
  simp only [hlock]
  repeat' split
  all_goals omega

/-- The cycle counter counts up. -/
theorem toNat_succ_of_lt {x : BitVec 15} (h : x.toNat + 1 < 2 ^ 15) :
    (x + 1#15).toNat = x.toNat + 1 := by
  rw [BitVec.toNat_add]
  simpa using Nat.mod_eq_of_lt h

/-- One clock edge after {lit}`STARTUP` keeps the bound. -/
theorem bounded_step {M : ℕ} (hM : refreshCycles ≤ M) (hM' : M + 23 < 2 ^ 15)
    (hst : s.sdc.state ≠ .startup) (hph : Phase s.arb s.sdc) (h : Bounded M s) :
    Bounded M (s.step mc) := by
  have hcounter := h.counter
  have hlt : s.sdc.cycleCounter.toNat + 1 < 2 ^ 15 := by omega
  have hsucc := toNat_succ_of_lt hlt
  rcases Bool.eq_false_or_eq_true (s.evaluatesRefresh mc) with hev | hev
  · obtain ⟨hidle, -, -⟩ := (evaluatesRefresh_iff mc).mp hev
    rcases evaluation_acts mc hev with ⟨hs', hdue, hany⟩ | ⟨hs', hdue⟩ | ⟨hs', hdue⟩
    · -- precharge: the lock is taken, one wait cycle is left
      have hlock : s.sdc.refreshLock = false := by
        by_contra hl
        rw [(h.lock (by simpa using hl)).closed] at hany
        cases hany
      have hrank : (s.step mc).toEvaluation = 1 := by
        simp [toEvaluation, hs', SdramController.prechargeAll, trpCycles]
      refine ⟨fun _ => ⟨?_, ?_, ?_⟩, by omega, ?_⟩
      · rw [hs']
        exact hidle
      · simp [hs', SdramController.prechargeAll, SdramController.anyActive]
      · rw [hs']
        change _ < (s.sdc.cycleCounter + 1#15).toNat
        omega
      · rw [hrank, hs']
        change (s.sdc.cycleCounter + 1#15).toNat + 1 + (if true then 0 else 2) ≤ M + 22
        rw [hlock] at hcounter
        simp only [Bool.false_eq_true, if_false, if_true] at hcounter ⊢
        omega
    · -- refresh: a whole period is taken off the counter
      have hlock' : (s.step mc).sdc.refreshLock = false := by rw [hs']; rfl
      have hrank : (s.step mc).toEvaluation ≤ 6 + 14 :=
        toEvaluation_le_of_wait (by rw [hs']; exact le_rfl) hlock'
      refine ⟨fun hl => absurd hl (by simp [hlock']), by omega, ?_⟩
      have hcc : (s.step mc).sdc.cycleCounter.toNat =
          s.sdc.cycleCounter.toNat - refreshCycles := by
        rw [hs']
        change (s.sdc.cycleCounter - BitVec.ofNat 15 refreshCycles).toNat = _
        simp only [refreshCycles] at hdue ⊢
        bv_omega
      rw [hcc, hlock']
      simp only [refreshCycles, Bool.false_eq_true, if_false] at hM hdue ⊢
      omega
    · -- not due: the counter is small
      have hlock' : (s.step mc).sdc.refreshLock = false := by
        rw [hs']
        change s.sdc.refreshLock = false
        by_contra hl
        have := (h.lock (by simpa using hl)).due
        omega
      have hbw : (s.step mc).sdc.busyWaitCounter.toNat ≤ 0 := by
        rw [hs']
        change s.sdc.busyWaitCounter.toNat ≤ 0
        simp [((evaluatesRefresh_iff mc).mp hev).2.1]
      have hrank : (s.step mc).toEvaluation ≤ 0 + 14 := toEvaluation_le_of_wait hbw hlock'
      refine ⟨fun hl => absurd hl (by simp [hlock']), by omega, ?_⟩
      rw [hlock', hs']
      change (s.sdc.cycleCounter + 1#15).toNat + _ + (if false then 0 else 2) ≤ M + 22
      simp only [Bool.false_eq_true, if_false]
      omega
  · obtain ⟨hcc, hlock', hkeep⟩ := counter_step_of_not_evaluates mc hst hev
    have hrank : (s.step mc).toEvaluation + 1 ≤ s.toEvaluation := by
      rcases toEvaluation_step mc hst hph h.lock with h' | h'
      · rw [hev] at h'
        cases h'
      · exact h'
    have hmax := h.rank
    refine ⟨fun hl => ?_, by omega, ?_⟩
    · rw [hlock'] at hl
      have hL := h.lock hl
      obtain ⟨hst', hbanks⟩ := hkeep hl hL.state
      refine ⟨hst', ?_, ?_⟩
      · simpa [SdramController.anyActive, hbanks] using hL.closed
      · rw [hcc, hsucc]
        exact Nat.lt_succ_of_lt hL.due
    · rw [hcc, hlock', hsucc]
      omega

/-! ## Startup -/

/-- Bit 14 is the limit. -/
theorem ge_of_getLsbD {x : BitVec 15} (h : x.getLsbD 14 = true) : 16384 ≤ x.toNat := by
  have := Nat.ge_two_pow_of_testBit (x := x.toNat) (i := 14) h
  omega

/-- The controller before it enters {lit}`IDLE` for the first time. -/
structure StartingUp (s : MemorySystem) : Prop where
  state : s.sdc.state = .startup
  counter : s.sdc.cycleCounter.toNat ≤ 16391
  wait : s.sdc.busyWaitCounter = 0#4
  lock : s.sdc.refreshLock = false

/-- The controller starts up. -/
theorem startingUp_init : StartingUp init :=
  ⟨rfl, by decide, rfl, rfl⟩

/-- {lit}`STARTUP` ends with the counter at 16392. -/
theorem startingUp_step (h : StartingUp s) :
    (StartingUp (s.step mc) ∧
        (s.step mc).sdc.cycleCounter.toNat = s.sdc.cycleCounter.toNat + 1) ∨
      ((s.step mc).sdc.state = .idle ∧ Bounded 16392 (s.step mc)) := by
  have hsucc := toNat_succ_of_lt (x := s.sdc.cycleCounter) (by have := h.counter; omega)
  have hsdc : (s.step mc).sdc = s.sdc.startup := by
    simp [step, SdramController.step, h.state]
  have hfields : (s.step mc).sdc.cycleCounter = s.sdc.cycleCounter + 1#15 ∧
      (s.step mc).sdc.busyWaitCounter = 0#4 ∧ (s.step mc).sdc.refreshLock = false := by
    rw [hsdc]
    unfold SdramController.startup
    repeat' split
    all_goals exact ⟨rfl, h.wait, h.lock⟩
  obtain ⟨hcc, hbw, hlock⟩ := hfields
  have hmax := h.counter
  by_cases hend : s.sdc.cycleCounter.toNat = 16391
  · right
    have hval : s.sdc.cycleCounter = 16391#15 := BitVec.eq_of_toNat_eq (by simpa using hend)
    refine ⟨?_, ⟨fun hl => absurd hl (by simp [hlock]), ?_, ?_⟩⟩
    · rw [hsdc, SdramController.startup, hval]
      rfl
    · have := toEvaluation_le_of_wait (s := s.step mc) (n := 0) (by simp [hbw]) hlock
      omega
    · have := toEvaluation_le_of_wait (s := s.step mc) (n := 0) (by simp [hbw]) hlock
      rw [hcc, hlock, hsucc]
      simp only [Bool.false_eq_true, if_false]
      omega
  · left
    refine ⟨⟨?_, by rw [hcc, hsucc]; omega, hbw, hlock⟩, by rw [hcc, hsucc]⟩
    rw [hsdc]
    unfold SdramController.startup
    split
    · rename_i hbit
      have hge := ge_of_getLsbD hbit
      split <;> [exact h.state; skip]
      split <;> [exact h.state; skip]
      split
      · rename_i hlow
        -- all ones in the low bits, for the first time since bit 14 was set
        have hmod := congrArg BitVec.toNat hlow
        simp only [BitVec.extractLsb'_toNat, Nat.shiftRight_zero] at hmod
        norm_num at hmod
        omega
      · exact h.state
    · exact h.state

/-- Start-up does not come back. -/
theorem state_step_ne_startup (h : s.sdc.state ≠ .startup) :
    (s.step mc).sdc.state ≠ .startup := by
  have hact : s.sdc.Acts (s.mcIn mc) (s.step mc).sdc := s.sdc.step_acts _
  generalize (s.step mc).sdc = c' at hact
  cases hact with
  | startup hst => exact absurd hst h
  | access =>
      change SdramController.rwNextState _ ≠ _
      unfold SdramController.rwNextState
      split <;> simp
  | terminate => simp
  | _ => exact h

/-- Every reachable state is starting up or has a bounded counter. -/
theorem startingUp_or_bounded (inp : ℕ → Channel → MemChannelIn) (t : ℕ) :
    StartingUp (run inp t) ∨
      ((run inp t).sdc.state ≠ .startup ∧ Bounded 16392 (run inp t)) := by
  induction t with
  | zero => exact .inl startingUp_init
  | succ t ih =>
      rw [run_succ]
      rcases ih with h | ⟨hst, h⟩
      · rcases startingUp_step (inp t) h with ⟨h', -⟩ | ⟨hst', h'⟩
        · exact .inl h'
        · exact .inr ⟨by rw [hst']; simp, h'⟩
      · exact .inr ⟨state_step_ne_startup (inp t) hst,
          bounded_step (inp t) (by decide) (by norm_num) hst (phase_run inp t) h⟩

/-! ## The gap after a transaction -/

/-- A READ or WRITE command is issued at this edge. -/
def accesses (s : MemorySystem) (mc : Channel → MemChannelIn) : Bool :=
  (s.step mc).sdc.command == .read || (s.step mc).sdc.command == .write

/-- Only the access branch issues READ and WRITE. -/
theorem acts_of_accesses (h : s.accesses mc = true) :
    (s.step mc).sdc = s.sdc.access (s.mcIn mc) ∧ s.sdc.state = .idle ∧
      s.sdc.busyWaitCounter = 0#4 ∧ s.arb.opStart ≠ s.sdc.strobe := by
  simp only [accesses, Bool.or_eq_true, beq_iff_eq] at h
  obtain ⟨hsdc, hst, hbw, hreq, -, -⟩ := (s.sdc.step_acts (s.mcIn mc)).of_readOrWrite h
  exact ⟨hsdc, hst, hbw, hreq⟩

/-- The transaction issued last has not been followed by an evaluation yet. -/
structure Served (s : MemorySystem) : Prop where
  state : s.sdc.state ≠ .startup
  arb : s.arb.state = .waitBusy ∨
    (s.arb.state = .waitStrobe ∧ s.sdc.strobeR2 = s.arb.opStart)

/-- A READ or WRITE opens the gap. -/
theorem served_of_accesses (hph : Phase s.arb s.sdc) (h : s.accesses mc = true) :
    Served (s.step mc) := by
  obtain ⟨hsdc, hst, hbw, hreq⟩ := acts_of_accesses mc h
  refine ⟨state_step_ne_startup mc (by simp [hst]), .inr ?_⟩
  obtain ⟨ha, hs⟩ := hph.pending_of_free hst hbw hreq
  rw [arb_step_of_waiting mc ha (by simp [hs.strobe]), hsdc]
  exact ⟨ha, by simp [SdramController.access, hs.r2]⟩

/-- No access happens before the gap is used for an evaluation. -/
theorem served_step (hph : Phase s.arb s.sdc) (h : Served s) :
    s.accesses mc = false ∧ (s.evaluatesRefresh mc = true ∨ Served (s.step mc)) := by
  have hstate := state_step_ne_startup mc h.state
  rcases h.arb with ha | ⟨ha, h2⟩
  · -- the strobe has arrived: an evaluation once the controller is not busy
    have hq : s.sdc.state ≠ .terminateBurst ∧ s.sdc.strobe = s.arb.opStart := by
      cases hph with
      | quiet _ hc hs => exact ⟨hc, hs.strobe⟩
      | pending ha' => simp [ha] at ha'
      | reading _ _ ha' => simp [ha] at ha'
      | writing ha' => simp [ha] at ha'
    have hidle : s.sdc.state = .idle := by
      have := h.state
      cases hs : s.sdc.state <;> simp_all
    constructor
    · rw [← Bool.not_eq_true]
      intro hacc
      exact (acts_of_accesses mc hacc).2.2.2 hq.2.symm
    · by_cases hbw : s.sdc.busyWaitCounter = 0#4
      · exact .inl ((evaluatesRefresh_iff mc).mpr ⟨hidle, hbw, .inl hq.2.symm⟩)
      · refine .inr ⟨hstate, .inl ?_⟩
        have hb : s.sdc.busyWait = true := by simpa [SdramController.busyWait] using hbw
        simp [step, Arbitrator.step, ha, hb]
  · -- the transaction is still running
    have hocc := hph.occupied ha h2
    have hr2 := (strobes_step_of_occupied mc hocc).2.2
    constructor
    · rw [← Bool.not_eq_true]
      intro hacc
      obtain ⟨-, hst, hbw, -⟩ := acts_of_accesses mc hacc
      rcases hocc with ⟨-, h⟩ | h
      · simp [hbw] at h
      · simp [hst] at h
    · refine .inr ⟨hstate, ?_⟩
      by_cases hstr : s.sdc.strobe = s.arb.opStart
      · rw [arb_step_of_strobe mc ha hstr]
        exact .inl rfl
      · rw [arb_step_of_waiting mc ha hstr]
        exact .inr ⟨ha, hr2.trans h2⟩

/-- Between an access and a later one lies an evaluation. -/
theorem evaluates_between (inp : ℕ → Channel → MemChannelIn) {t₁ t₂ : ℕ} (hlt : t₁ < t₂)
    (h₁ : (run inp t₁).accesses (inp t₁) = true) (h₂ : (run inp t₂).accesses (inp t₂) = true) :
    ∃ u, t₁ < u ∧ u < t₂ ∧ (run inp u).evaluatesRefresh (inp u) = true := by
  have hserved : ∀ t, t₁ < t → (∃ u, t₁ < u ∧ u < t ∧
      (run inp u).evaluatesRefresh (inp u) = true) ∨ Served (run inp t) := by
    intro t ht
    induction t, ht using Nat.le_induction with
    | base => exact .inr (served_of_accesses (inp t₁) (phase_run inp t₁) h₁)
    | succ t ht ih =>
        rcases ih with ⟨u, hu, hut, hev⟩ | hs
        · exact .inl ⟨u, hu, by omega, hev⟩
        · rcases (served_step (inp t) (phase_run inp t) hs).2 with hev | hs'
          · exact .inl ⟨t, ht, by omega, hev⟩
          · exact .inr hs'
  rcases hserved t₂ hlt with h | hs
  · exact h
  · rw [(served_step (inp t₂) (phase_run inp t₂) hs).1] at h₂
    cases h₂

/-- A counter that has come down to the refresh period stays near it. -/
theorem counter_le_of_le (inp : ℕ → Channel → MemChannelIn) {t u : ℕ} (htu : t ≤ u)
    (hst : (run inp t).sdc.state ≠ .startup)
    (hle : (run inp t).sdc.cycleCounter.toNat ≤ refreshCycles) :
    (run inp u).sdc.state ≠ .startup ∧ Bounded refreshCycles (run inp u) := by
  induction u, htu using Nat.le_induction with
  | base =>
      have hB : Bounded 16392 (run inp t) := by
        rcases startingUp_or_bounded inp t with h | h
        · exact absurd h.state hst
        · exact h.2
      refine ⟨hst, ⟨hB.lock, hB.rank, ?_⟩⟩
      have := hB.rank
      split <;> omega
  | succ u _ ih =>
      exact ⟨state_step_ne_startup (inp u) ih.1,
        bounded_step (inp u) le_rfl (by decide) ih.1 (phase_run inp u) ih.2⟩

end MemorySystem

/-- Refresh is never starved: between two transactions the refresh condition is
evaluated, the cycle counter does not overflow after {lit}`STARTUP`, and once it has
come down to the refresh period it never exceeds that period by more than 32. -/
theorem refresh_not_starved (inp : ℕ → Channel → MemChannelIn) :
    (∀ t₁ t₂, t₁ < t₂ → (MemorySystem.run inp t₁).accesses (inp t₁) = true →
      (MemorySystem.run inp t₂).accesses (inp t₂) = true →
      ∃ u, t₁ < u ∧ u < t₂ ∧ (MemorySystem.run inp u).evaluatesRefresh (inp u) = true) ∧
    (∀ t, (MemorySystem.run inp t).sdc.state ≠ .startup →
      (MemorySystem.run inp t).sdc.cycleCounter.toNat + 1 < 2 ^ 15) ∧
    (∀ t u, t ≤ u → (MemorySystem.run inp t).sdc.state ≠ .startup →
      (MemorySystem.run inp t).sdc.cycleCounter.toNat ≤ refreshCycles →
      (MemorySystem.run inp u).sdc.cycleCounter.toNat ≤ refreshCycles + 32) := by
  refine ⟨fun t₁ t₂ => MemorySystem.evaluates_between inp, ?_, ?_⟩
  · intro t hst
    rcases MemorySystem.startingUp_or_bounded inp t with h | ⟨-, h⟩
    · exact absurd h.state hst
    · have := h.counter
      omega
  · intro t u htu hst hle
    have := (MemorySystem.counter_le_of_le inp htu hst hle).2.counter
    omega

end Sumeru
