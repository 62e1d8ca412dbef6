import Sumeru.Cpu.IntrController
import Sumeru.Cpu.PreciseInterrupts

/-!
# Sumeru - Delivery of interrupts

The pipeline and the interrupt controller, connected as in {lit}`cpu`.  The controller
signals an interrupt by toggling its trigger and is frozen from then on; the execute stage
takes the interrupt at an instruction, and the handler ends with an access to SWITCH, which
thaws the controller.

For software that leaves a handler only once, the two go around in four phases; so handlers
are not nested and every interrupt that is raised is taken exactly once.

Main results:

- Theorem {lit}`IntrHart.Phase.step`: the phases follow each other.
- Theorem {lit}`IntrHart.Pending.step`: a raised interrupt is pending until it is taken.
- Theorem {lit}`interrupts_delivered`: no nested handlers, no lost and no repeated interrupt.
-/

namespace Sumeru
open Rv32

/-- The pipeline with its data cache, and the interrupt controller. -/
structure IntrHart where
  hart : Hart
  intr : IntrController

/-- Inputs in one cycle: the instruction cache, the memory channel, the CSR bus, and the
lines of the timer and of the UART. -/
structure IntrHartInput where
  icacheHit : Bool
  flushDone : Bool
  csrBus : BitVec 32
  ready : Bool
  float : BitVec 16
  undefinedLanes : Fin 4 → Lanes
  timerIntrTrigger : Bool
  uart0TxIntrToggle : Bool
  uart0RxIntrToggle : Bool

namespace Iexec

variable {V : Megafunctions}

/-- The stage accepts an instruction that takes an interrupt. -/
def takes (s : Iexec) (i : IexecInput) : Bool := s.accepts i && s.takesIntr i

/-- The stage accepts an access to SWITCH. -/
def switches (s : Iexec) (i : IexecInput) : Bool :=
  s.accepts i && (!i.iexecIn.triggerCxfer && isSwitch i.iexecIn)

/-- An interrupt can be taken at an instruction. -/
def interruptible (x : IexecChannelIn) : Bool :=
  !x.triggerCxfer && x.cmd != .csr && x.cmd != .branch

/-- The reset of the controller follows the accesses to SWITCH. -/
theorem intrResetR_step (s : Iexec) (i : IexecInput) :
    (s.step V i).intrResetR = s.switches i := by
  cases h : s.accepts i with
  | true => simp [step, mainProcess_of_accepts V h, accept, switches, h]
  | false =>
      rw [switches, h, Bool.false_and]
      cases hst : s.state <;> simp only [step, mainProcess, hst, h]
      case running => rfl
      case ls1 => rfl
      case lsWait => split <;> [skip; split] <;> rfl
      case divWait => split <;> rfl
      case csrReadWait => split <;> rfl

/-- An interrupt is taken when the trigger has been toggled. -/
theorem takes_iff {s : Iexec} {i : IexecInput} :
    s.takes i = true ↔ s.accepts i = true ∧ interruptible i.iexecIn = true ∧
      i.intrOut.intrTrigger ≠ s.intrTriggerSave := by
  simp [takes, takesIntr, interruptible, and_assoc]

end Iexec

namespace IntrHart

variable (V : Megafunctions) (imem : BitVec 32 → BitVec 32)

/-- Power-up contents in front of a memory. -/
def init (mem : BitVec 24 → BitVec 16) : IntrHart := ⟨.init mem, .init⟩

/-- What the pipeline sees. -/
def hartInput (s : IntrHart) (i : IntrHartInput) : HartInput where
  icacheHit := i.icacheHit
  flushDone := i.flushDone
  csrBus := i.csrBus
  intrOut := s.intr.intrOut
  ready := i.ready
  float := i.float
  undefinedLanes := i.undefinedLanes

/-- What the interrupt controller sees. -/
def intrInput (s : IntrHart) (i : IntrHartInput) : IntrInput where
  intrReset := s.hart.data.iexec.intrResetR
  timerIntrTrigger := i.timerIntrTrigger
  uart0TxIntrToggle := i.uart0TxIntrToggle
  uart0RxIntrToggle := i.uart0RxIntrToggle

/-- What the execute stage sees. -/
def iexecInput (s : IntrHart) (i : IntrHartInput) : IexecInput :=
  s.hart.data.iexecInput (s.hart.dataInput (s.hartInput i))

/-- From one edge of {lit}`clk` to the next. -/
def step (s : IntrHart) (i : IntrHartInput) : IntrHart where
  hart := s.hart.step V imem (s.hartInput i)
  intr := s.intr.step (s.intrInput i)

/-- The processor in front of the {lit}`t`-th edge of {lit}`clk`. -/
def run (mem : BitVec 24 → BitVec 16) (inp : ℕ → IntrHartInput) (t : ℕ) : IntrHart :=
  Clocked.run (step V imem) (init mem) inp t

/-- The inputs of the pipeline in a run. -/
def hartInputs (mem : BitVec 24 → BitVec 16) (inp : ℕ → IntrHartInput) (t : ℕ) : HartInput :=
  (run V imem mem inp t).hartInput (inp t)

/-! ## One edge -/

/-- The edge accepts an instruction that takes an interrupt. -/
def takes (s : IntrHart) (i : IntrHartInput) : Bool := s.hart.data.iexec.takes (s.iexecInput i)

/-- The edge accepts an access to SWITCH. -/
def switches (s : IntrHart) (i : IntrHartInput) : Bool :=
  s.hart.data.iexec.switches (s.iexecInput i)

/-- The edge raises an interrupt. -/
def raises (s : IntrHart) (i : IntrHartInput) : Bool :=
  !s.intr.intrFrozen && (s.intr.step (s.intrInput i)).intrFrozen

/-- An interrupt is raised and has not been taken. -/
structure Raised (s : IntrHart) : Prop where
  frozen : s.intr.intrFrozen = true
  trigger : s.intr.intrTriggerR ≠ s.hart.data.iexec.intrTriggerSave
  reset : s.hart.data.iexec.intrResetR = false

/-- The phases of an interrupt, inside and outside of the handler. -/
inductive Phase (s : IntrHart) : Bool → Prop where
  | idle (hfrozen : s.intr.intrFrozen = false)
      (htrigger : s.intr.intrTriggerR = s.hart.data.iexec.intrTriggerSave)
      (hreset : s.hart.data.iexec.intrResetR = false) : Phase s false
  | raised (h : s.Raised) : Phase s false
  | handling (hfrozen : s.intr.intrFrozen = true)
      (htrigger : s.intr.intrTriggerR = s.hart.data.iexec.intrTriggerSave)
      (hreset : s.hart.data.iexec.intrResetR = false) : Phase s true
  | leaving (hfrozen : s.intr.intrFrozen = true)
      (htrigger : s.intr.intrTriggerR = s.hart.data.iexec.intrTriggerSave)
      (hreset : s.hart.data.iexec.intrResetR = true) : Phase s false

variable {V imem} {s : IntrHart} {i : IntrHartInput} {b : Bool}

/-- Taking an interrupt toggles the trigger. -/
theorem intrTriggerSave_step : (s.step V imem i).hart.data.iexec.intrTriggerSave =
    if s.takes i then !s.hart.data.iexec.intrTriggerSave
    else s.hart.data.iexec.intrTriggerSave :=
  Iexec.intrTriggerSave_step V _ _

/-- PCSWITCH resets the controller. -/
theorem intrResetR_step : (s.step V imem i).hart.data.iexec.intrResetR = s.switches i :=
  Iexec.intrResetR_step _ _

/-- Without a new trigger no interrupt is taken. -/
theorem takes_of_trigger (h : s.intr.intrTriggerR = s.hart.data.iexec.intrTriggerSave) :
    s.takes i = false := by
  by_contra htakes
  rw [Bool.not_eq_false] at htakes
  exact (Iexec.takes_iff.mp htakes).2.2 h

/-- A frozen controller waits for its reset. -/
theorem intr_step_frozen (h : s.intr.intrFrozen = true) : (s.step V imem i).intr =
    if s.hart.data.iexec.intrResetR then { s.intr with intrFrozen := false } else s.intr :=
  if_pos h

/-- A frozen controller raises nothing. -/
theorem raises_of_frozen (h : s.intr.intrFrozen = true) : s.raises i = false := by
  rw [raises, h]
  rfl

/-- Without a new interrupt the trigger keeps its level. -/
theorem intr_step_not_raises (hfrozen : s.intr.intrFrozen = false) (h : s.raises i = false) :
    (s.step V imem i).intr = s.intr := by
  simp only [raises, hfrozen, Bool.not_false, Bool.true_and] at h
  change s.intr.step (s.intrInput i) = s.intr
  revert h
  rw [IntrController.step, if_neg (by simp [hfrozen])]
  split
  · exact fun h => absurd h (by simp [IntrController.raise])
  split
  · exact fun h => absurd h (by simp [IntrController.raise])
  split
  · exact fun h => absurd h (by simp [IntrController.raise])
  · exact fun _ => rfl

/-- A new interrupt toggles the trigger. -/
theorem intr_step_raises (h : s.raises i = true) :
    (s.step V imem i).intr.intrFrozen = true ∧
      (s.step V imem i).intr.intrTriggerR = !s.intr.intrTriggerR := by
  simp only [raises, Bool.and_eq_true, Bool.not_eq_true'] at h
  obtain ⟨hfrozen, h⟩ := h
  refine ⟨h, ?_⟩
  change (s.intr.step (s.intrInput i)).intrTriggerR = _
  revert h
  rw [IntrController.step, if_neg (by simp [hfrozen])]
  split
  · exact fun _ => rfl
  split
  · exact fun _ => rfl
  split
  · exact fun _ => rfl
  · exact fun h => absurd h (by simp [hfrozen])

/-- A new interrupt is raised. -/
theorem Raised.of_raises (htrigger : s.intr.intrTriggerR = s.hart.data.iexec.intrTriggerSave)
    (hswitch : s.switches i = false) (h : s.raises i = true) : (s.step V imem i).Raised where
  frozen := (intr_step_raises h).1
  trigger := by
    rw [(intr_step_raises h).2, intrTriggerSave_step, takes_of_trigger htrigger, htrigger]
    simp
  reset := by rw [intrResetR_step, hswitch]

/-- A raised interrupt stays until it is taken. -/
theorem Raised.keep (h : s.Raised) (hswitch : s.switches i = false) (htakes : s.takes i = false) :
    (s.step V imem i).Raised ∧ (s.step V imem i).intr = s.intr := by
  have hintr : (s.step V imem i).intr = s.intr := by
    rw [intr_step_frozen h.frozen, h.reset]
    rfl
  refine ⟨⟨?_, ?_, ?_⟩, hintr⟩
  · rw [hintr, h.frozen]
  · rw [hintr, intrTriggerSave_step, htakes]
    exact h.trigger
  · rw [intrResetR_step, hswitch]

/-- The phases follow each other; an access to SWITCH ends a handler. -/
theorem Phase.step (h : s.Phase b) (hswitch : s.switches i = true → b = true) :
    (s.step V imem i).Phase (s.takes i || (b && !s.switches i)) := by
  have hreset := @intrResetR_step V imem s i
  have hsave := @intrTriggerSave_step V imem s i
  cases h with
  | idle hf ht hr =>
      have hno : s.switches i = false := by simpa using hswitch
      have htakes : s.takes i = false := takes_of_trigger ht
      rw [htakes, Bool.false_and, Bool.or_false]
      cases hraise : s.raises i with
      | true => exact .raised (.of_raises ht hno hraise)
      | false =>
          have hintr := @intr_step_not_raises V imem s i hf hraise
          refine .idle (by rw [hintr, hf]) ?_ (by rw [hreset, hno])
          rw [hintr, hsave, htakes]
          exact ht
  | raised h =>
      have hno : s.switches i = false := by simpa using hswitch
      rw [Bool.false_and, Bool.or_false]
      cases htakes : s.takes i with
      | false => exact .raised (h.keep hno htakes).1
      | true =>
          have hintr : (s.step V imem i).intr = s.intr := by
            rw [intr_step_frozen h.frozen, h.reset]
            rfl
          refine .handling (by rw [hintr, h.frozen]) ?_ (by rw [hreset, hno])
          rw [hintr, hsave, if_pos htakes]
          exact Bool.eq_not_of_ne h.trigger
  | handling hf ht hr =>
      have htakes : s.takes i = false := takes_of_trigger ht
      have hintr : (s.step V imem i).intr = s.intr := by
        rw [intr_step_frozen hf, hr]
        rfl
      have hf' : (s.step V imem i).intr.intrFrozen = true := by rw [hintr, hf]
      have ht' : (s.step V imem i).intr.intrTriggerR =
          (s.step V imem i).hart.data.iexec.intrTriggerSave := by
        rw [hintr, hsave, htakes]
        exact ht
      rw [htakes, Bool.true_and, Bool.false_or]
      cases hno : s.switches i with
      | true => exact .leaving hf' ht' (by rw [hreset, hno])
      | false => exact .handling hf' ht' (by rw [hreset, hno])
  | leaving hf ht hr =>
      have hno : s.switches i = false := by simpa using hswitch
      have htakes : s.takes i = false := takes_of_trigger ht
      have hintr : (s.step V imem i).intr = { s.intr with intrFrozen := false } := by
        rw [intr_step_frozen hf, hr]
        rfl
      rw [htakes, Bool.false_and, Bool.or_false]
      refine .idle (by rw [hintr]) ?_ (by rw [hreset, hno])
      rw [hintr, hsave, htakes]
      exact ht

/-- An interrupt that is raised and was not raised by the last edge was raised before. -/
theorem Phase.raised_of_step (h : s.Phase b) (hraise : s.raises i = false)
    (hnext : (s.step V imem i).Raised) : s.Raised := by
  cases h with
  | idle hf =>
      have hf' := hnext.frozen
      rw [intr_step_not_raises hf hraise, hf] at hf'
      cases hf'
  | raised h => exact h
  | handling hf ht hr =>
      refine absurd ?_ hnext.trigger
      rw [intr_step_frozen hf, hr, intrTriggerSave_step, takes_of_trigger ht]
      exact ht
  | leaving hf ht hr =>
      have hf' := hnext.frozen
      rw [intr_step_frozen hf, hr] at hf'
      cases hf'

/-! ## Whole runs -/

section Runs

variable (V imem) (mem : BitVec 24 → BitVec 16) (inp : ℕ → IntrHartInput)

/-- Edge {lit}`t` accepts an instruction that takes an interrupt. -/
def takesAt (t : ℕ) : Bool := (run V imem mem inp t).takes (inp t)

/-- Edge {lit}`t` accepts an access to SWITCH. -/
def switchesAt (t : ℕ) : Bool := (run V imem mem inp t).switches (inp t)

/-- Edge {lit}`t` raises an interrupt. -/
def raisesAt (t : ℕ) : Bool := (run V imem mem inp t).raises (inp t)

/-- The program is in a handler before edge {lit}`t`: an interrupt has been taken, and no
access to SWITCH has been accepted since then. -/
def inHandler : ℕ → Bool
  | 0 => false
  | t + 1 => takesAt V imem mem inp t || (inHandler t && !switchesAt V imem mem inp t)

/-- The interrupt raised at edge {lit}`k` is the one taken at edge {lit}`u`, with its vector. -/
structure Delivered (k u : ℕ) : Prop where
  lt : k < u
  raises : raisesAt V imem mem inp k = true
  takes : takesAt V imem mem inp u = true
  event : Hart.eventAt V imem mem (hartInputs V imem mem inp) u =
    .interrupted (run V imem mem inp (k + 1)).intr.intrVec
  only : ∀ v, k < v → v < u →
    takesAt V imem mem inp v = false ∧ raisesAt V imem mem inp v = false

/-- The interrupt raised at edge {lit}`k` is pending before edge {lit}`t`. -/
structure Pending (k t : ℕ) : Prop where
  lt : k < t
  raises : raisesAt V imem mem inp k = true
  raised : (run V imem mem inp t).Raised
  vec : (run V imem mem inp t).intr.intrVec = (run V imem mem inp (k + 1)).intr.intrVec
  only : ∀ v, k < v → v < t →
    takesAt V imem mem inp v = false ∧ raisesAt V imem mem inp v = false

variable {V imem mem inp} {k t u : ℕ}

/-- The processor runs as without the controller. -/
theorem hart_run (t : ℕ) :
    (run V imem mem inp t).hart = Hart.run V imem mem (hartInputs V imem mem inp) t := by
  induction t with
  | zero => rfl
  | succ t ih =>
      rw [Hart.run_succ, ← ih]
      rfl

/-- The execute stage in a run. -/
theorem iexecInput_run (t : ℕ) : Hart.iexecInputs V imem mem (hartInputs V imem mem inp) t =
    (run V imem mem inp t).iexecInput (inp t) := by
  rw [iexecInput, hart_run]
  rfl

/-- An interrupt that is taken is the event of its instruction. -/
theorem eventAt_of_takes (h : takesAt V imem mem inp t = true) :
    Hart.eventAt V imem mem (hartInputs V imem mem inp) t =
      .interrupted (run V imem mem inp t).intr.intrVec := by
  refine Hart.Accepting.eventAt_interrupted ?_
  rw [Hart.takesAt, iexecInput_run, ← hart_run]
  exact (Bool.and_eq_true_iff.mp h).2

/-- Software that leaves a handler only when it is in one keeps to the phases. -/
theorem phase_run (hret : ∀ t, switchesAt V imem mem inp t = true → inHandler V imem mem inp t = true)
    (t : ℕ) : (run V imem mem inp t).Phase (inHandler V imem mem inp t) := by
  induction t with
  | zero => exact .idle rfl rfl rfl
  | succ t ih => exact ih.step (i := inp t) (hret t)

/-- A new interrupt is pending. -/
theorem Pending.start (hraise : raisesAt V imem mem inp k = true)
    (hraised : (run V imem mem inp (k + 1)).Raised) : Pending V imem mem inp k (k + 1) where
  lt := Nat.lt_succ_self k
  raises := hraise
  raised := hraised
  vec := rfl
  only v h1 h2 := by omega

/-- A pending interrupt stays pending until it is taken. -/
theorem Pending.step (h : Pending V imem mem inp k t)
    (hswitch : switchesAt V imem mem inp t = false) (htakes : takesAt V imem mem inp t = false) :
    Pending V imem mem inp k (t + 1) := by
  obtain ⟨hraised, hintr⟩ := @Raised.keep V imem _ _ h.raised hswitch htakes
  refine ⟨Nat.lt_succ_of_lt h.lt, h.raises, hraised, ?_, fun v h1 h2 => ?_⟩
  · exact (congrArg IntrController.intrVec hintr).trans h.vec
  · rcases Nat.lt_succ_iff_lt_or_eq.mp h2 with hv | rfl
    · exact h.only v h1 hv
    · exact ⟨htakes, raises_of_frozen h.raised.frozen⟩

/-- A pending interrupt that is taken is delivered. -/
theorem Pending.delivered (h : Pending V imem mem inp k t)
    (htakes : takesAt V imem mem inp t = true) : Delivered V imem mem inp k t where
  lt := h.lt
  raises := h.raises
  takes := htakes
  event := by rw [eventAt_of_takes htakes, h.vec]
  only := h.only

section Returning

variable (hret : ∀ t, switchesAt V imem mem inp t = true → inHandler V imem mem inp t = true)

include hret

/-- Outside of a handler no SWITCH is accepted. -/
theorem switchesAt_eq_false (h : inHandler V imem mem inp t = false) :
    switchesAt V imem mem inp t = false := by
  by_contra hswitch
  rw [Bool.not_eq_false] at hswitch
  rw [hret t hswitch] at h
  cases h

/-- A raised interrupt waits outside of the handlers. -/
theorem raised_not_inHandler (h : (run V imem mem inp t).Raised) :
    inHandler V imem mem inp t = false := by
  have hphase := phase_run hret t
  cases hin : inHandler V imem mem inp t with
  | false => rfl
  | true =>
      rw [hin] at hphase
      cases hphase with
      | handling _ ht => exact absurd ht h.trigger

/-- An interrupt is taken only when it is raised. -/
theorem raised_of_takes (h : takesAt V imem mem inp t = true) : (run V imem mem inp t).Raised := by
  have hne := (Iexec.takes_iff.mp h).2.2
  have hphase := phase_run hret t
  generalize inHandler V imem mem inp t = b at hphase
  cases hphase with
  | raised h => exact h
  | idle _ ht | handling _ ht | leaving _ ht => exact absurd ht hne

/-- The edge that raises an interrupt leaves it raised. -/
theorem raised_of_raises (h : raisesAt V imem mem inp t = true) :
    (run V imem mem inp (t + 1)).Raised := by
  have hf : (run V imem mem inp t).intr.intrFrozen = false := by
    simp only [raisesAt, raises, Bool.and_eq_true, Bool.not_eq_true'] at h
    exact h.1
  have hphase := phase_run hret t
  cases hin : inHandler V imem mem inp t with
  | true =>
      rw [hin] at hphase
      cases hphase with
      | handling hf' => rw [hf] at hf'; cases hf'
  | false =>
      have hno := switchesAt_eq_false hret hin
      rw [hin] at hphase
      cases hphase with
      | idle _ ht => exact .of_raises ht hno h
      | raised hr => exact absurd hr.frozen (by rw [hf]; decide)
      | leaving hf' => rw [hf] at hf'; cases hf'

/-- A raised interrupt is pending since some edge. -/
theorem exists_pending (h : (run V imem mem inp t).Raised) : ∃ k, Pending V imem mem inp k t := by
  induction t with
  | zero => cases h.frozen
  | succ t ih =>
      cases hraise : raisesAt V imem mem inp t with
      | true => exact ⟨t, .start hraise h⟩
      | false =>
          have hraised : (run V imem mem inp t).Raised :=
            (phase_run hret t).raised_of_step hraise h
          obtain ⟨k, hk⟩ := ih hraised
          have hswitch := switchesAt_eq_false hret (raised_not_inHandler hret hraised)
          have hin := raised_not_inHandler hret h
          rw [inHandler, Bool.or_eq_false_iff] at hin
          exact ⟨k, hk.step hswitch hin.1⟩

/-- Until it is taken a raised interrupt is pending. -/
theorem pending_until (hraise : raisesAt V imem mem inp k = true) (hkt : k < t)
    (hquiet : ∀ v, k < v → v < t → takesAt V imem mem inp v = false) :
    Pending V imem mem inp k t := by
  induction t, hkt using Nat.le_induction with
  | base => exact .start hraise (raised_of_raises hret hraise)
  | succ t hkt ih =>
      have hpending := ih fun v h1 h2 => hquiet v h1 (by omega)
      exact hpending.step (switchesAt_eq_false hret (raised_not_inHandler hret hpending.raised))
        (hquiet t hkt (Nat.lt_succ_self t))

/-- An interrupt that is taken was raised. -/
theorem exists_delivered_of_takes (h : takesAt V imem mem inp t = true) :
    ∃ k, Delivered V imem mem inp k t := by
  obtain ⟨k, hk⟩ := exists_pending hret (raised_of_takes hret h)
  exact ⟨k, hk.delivered h⟩

/-- A raised interrupt is taken at the latest with an instruction at which one can be taken. -/
theorem exists_delivered_of_raises (hraise : raisesAt V imem mem inp k = true) (hkt : k < t)
    (hacc : Hart.acceptsAt V imem mem (hartInputs V imem mem inp) t = true)
    (hable : Iexec.interruptible (run V imem mem inp t).hart.idecode.iexecIn = true) :
    ∃ u ≤ t, Delivered V imem mem inp k u := by
  have hex : ∃ u, k < u ∧ (u = t ∨ takesAt V imem mem inp u = true) := ⟨t, hkt, .inl rfl⟩
  classical
  -- the first edge that takes an interrupt, or edge t
  obtain ⟨hk, hfirst⟩ := Nat.find_spec hex
  have hpending : Pending V imem mem inp k (Nat.find hex) :=
    pending_until hret hraise hk fun v hv hvu => by
      rw [← Bool.not_eq_true]
      exact fun hv' => Nat.find_min hex hvu ⟨hv, .inr hv'⟩
  have hle : Nat.find hex ≤ t := Nat.find_min' hex ⟨hkt, .inl rfl⟩
  refine ⟨Nat.find hex, hle, hpending.delivered ?_⟩
  rcases hfirst with heq | htakes
  · rw [heq] at hpending ⊢
    rw [Hart.acceptsAt, ← hart_run] at hacc
    exact Iexec.takes_iff.mpr ⟨hacc, hable, hpending.raised.trigger⟩
  · exact htakes

/-- In a handler the saved program counter is that of its interrupt. -/
theorem pcSave_in_handler (htakes : takesAt V imem mem inp u = true) (hut : u < t)
    (hno : ∀ v, u < v → v < t → switchesAt V imem mem inp v = false) :
    inHandler V imem mem inp t = true ∧ (run V imem mem inp t).hart.data.iexec.ctxPcSaveR =
      (run V imem mem inp u).hart.idecode.iexecIn.intrNextpc := by
  have hsave : ∀ v, (run V imem mem inp (v + 1)).hart.data.iexec.ctxPcSaveR =
      if takesAt V imem mem inp v then (run V imem mem inp v).hart.idecode.iexecIn.intrNextpc
      else (run V imem mem inp v).hart.data.iexec.ctxPcSaveR := fun v =>
    Iexec.ctxPcSaveR_step _ _
  induction t, hut using Nat.le_induction with
  | base => exact ⟨by rw [inHandler, htakes, Bool.true_or], by rw [hsave, if_pos htakes]⟩
  | succ t hut ih =>
      obtain ⟨hin, hpc⟩ := ih fun v h1 h2 => hno v h1 (by omega)
      have hnot : takesAt V imem mem inp t = false := by
        by_contra htakes'
        rw [Bool.not_eq_false] at htakes'
        rw [raised_not_inHandler hret (raised_of_takes hret htakes')] at hin
        cases hin
      constructor
      · rw [inHandler, hin, hno t hut (Nat.lt_succ_self t)]
        simp
      · rw [hsave, hnot]
        exact hpc

end Returning

end Runs

end IntrHart

open IntrHart

/-- Delivery of interrupts.  For every timing of the caches, the memory channel and the
sources, when the software accesses SWITCH only in a handler: no interrupt is taken in a
handler; the handler keeps the saved program counter; an interrupt that is taken is one that
was raised, with its vector, and it is taken once; and a raised interrupt is taken at the
latest with the next instruction at which one can be taken. -/
theorem interrupts_delivered (V : Megafunctions) (imem : BitVec 32 → BitVec 32)
    (mem : BitVec 24 → BitVec 16) (inp : ℕ → IntrHartInput)
    (hret : ∀ t, switchesAt V imem mem inp t = true → inHandler V imem mem inp t = true) :
    (∀ t, takesAt V imem mem inp t = true → inHandler V imem mem inp t = false) ∧
    (∀ u t, takesAt V imem mem inp u = true → u < t →
      (∀ v, u < v → v < t → switchesAt V imem mem inp v = false) →
        (run V imem mem inp t).hart.data.iexec.ctxPcSaveR =
          (run V imem mem inp u).hart.idecode.iexecIn.intrNextpc) ∧
    (∀ u, takesAt V imem mem inp u = true → ∃ k, Delivered V imem mem inp k u) ∧
    (∀ k t, raisesAt V imem mem inp k = true → k < t →
      Hart.acceptsAt V imem mem (hartInputs V imem mem inp) t = true →
      Iexec.interruptible (run V imem mem inp t).hart.idecode.iexecIn = true →
        ∃ u ≤ t, Delivered V imem mem inp k u) :=
  ⟨fun _ h => raised_not_inHandler hret (raised_of_takes hret h),
    fun _ _ h hut hno => (pcSave_in_handler hret h hut hno).2,
    fun _ h => exists_delivered_of_takes hret h,
    fun _ _ hraise hkt hacc hable => exists_delivered_of_raises hret hraise hkt hacc hable⟩

/-- A cycle without a stall in which the timer requests an interrupt. -/
def IntrHartInput.timer : IntrHartInput where
  icacheHit := true
  flushDone := true
  csrBus := 0#32
  ready := true
  float := 0#16
  undefinedLanes := fun _ _ => ⟨false, 0#8⟩
  timerIntrTrigger := true
  uart0TxIntrToggle := false
  uart0RxIntrToggle := false

namespace IntrHart

section Addi

variable {V : Megafunctions} {mem : BitVec 24 → BitVec 16} {inp : ℕ → IntrHartInput} {t : ℕ}

/-- What the decoder makes of {lit}`addi x1, x1, 5`. -/
theorem iexecIn_addi (hacc : Hart.acceptsAt V (fun _ => 0x00508093#32) mem
      (hartInputs V (fun _ => 0x00508093#32) mem inp) t = true) :
    (run V (fun _ => 0x00508093#32) mem inp t).hart.idecode.iexecIn.triggerCxfer = false ∧
      (run V (fun _ => 0x00508093#32) mem inp t).hart.idecode.iexecIn.cmd = .alu := by
  obtain ⟨-, hinst, -⟩ := (Hart.flow t).step_of_accepts (V := V) (Hart.stagesOk t) _ hacc
  rw [hart_run]
  constructor
  · refine (Core.triggerCxfer_eq (Hart.stagesOk t) hacc).trans ?_
    rw [hinst]
    rfl
  · change (decodeCommand (Hart.run V _ mem _ t).core.idecode.instR).cmd = .alu
    rw [hinst]
    rfl

/-- An {lit}`addi` is no PCSWITCH. -/
theorem switchesAt_addi : switchesAt V (fun _ => 0x00508093#32) mem inp t = false := by
  by_contra h
  rw [Bool.not_eq_false, switchesAt, switches, Iexec.switches, Bool.and_eq_true] at h
  obtain ⟨hacc, hcsr⟩ := h
  rw [iexecInput, hart_run] at hacc
  rw [Bool.and_eq_true] at hcsr
  have hcmd := (iexecIn_addi hacc).2
  have hswitch : Iexec.isSwitch
      (run V (fun _ => 0x00508093#32) mem inp t).hart.idecode.iexecIn = true := hcsr.2
  rw [Iexec.isSwitch, hcmd] at hswitch
  cases hswitch

/-- With the timer on, an instruction is accepted behind every edge. -/
theorem eventually_accepts_addi (t : ℕ) :
    ∃ u, t ≤ u ∧ Hart.acceptsAt V (fun _ => 0x00508093#32) mem
      (hartInputs V (fun _ => 0x00508093#32) mem fun _ => .timer) u = true := by
  have hfair : Hart.Fair (hartInputs V (fun _ => 0x00508093#32) mem fun _ => .timer) :=
    ⟨fun t => ⟨t, le_rfl, rfl⟩, fun t => ⟨t, le_rfl, rfl⟩, fun t => ⟨t, le_rfl, rfl⟩⟩
  have hq : ∀ pc, IsNext (fun _ => 0x00508093#32) pc pc := fun pc =>
    ⟨.refl pc, show isFenceI 0x00508093#32 = false from rfl⟩
  obtain ⟨u, htu, hacc, -⟩ := hfair.eventually_accepts (hq _)
  exact ⟨u, htu, hacc⟩

/-- The timer raises an interrupt at once. -/
theorem raisesAt_timer :
    raisesAt V (fun _ => 0x00508093#32) mem (fun _ => .timer) 0 = true :=
  rfl

end Addi

end IntrHart

/-- In a memory full of {lit}`addi x1, x1, 5` there is no SWITCH, so the first timer interrupt
is taken and no other one. -/
theorem interrupts_delivered_timer :
    ∃ u, Delivered .documented (fun _ => 0x00508093#32) (fun _ => 0#16) (fun _ => .timer) 0 u ∧
      ∀ t, takesAt .documented (fun _ => 0x00508093#32) (fun _ => 0#16) (fun _ => .timer) t =
        true → t = u := by
  have hret : ∀ t, switchesAt .documented (fun _ => 0x00508093#32) (fun _ => 0#16)
      (fun _ => .timer) t = true → inHandler .documented (fun _ => 0x00508093#32)
        (fun _ => 0#16) (fun _ => .timer) t = true := by
    intro t h
    rw [switchesAt_addi] at h
    cases h
  obtain ⟨hnest, -, hraised, htaken⟩ := interrupts_delivered .documented
    (fun _ => 0x00508093#32) (fun _ => 0#16) (fun _ => .timer) hret
  obtain ⟨v, hv, hacc⟩ := eventually_accepts_addi (V := .documented) 1
  obtain ⟨htr, hcmd⟩ := iexecIn_addi hacc
  have hable : Iexec.interruptible (run .documented (fun _ => 0x00508093#32) (fun _ => 0#16)
      (fun _ => .timer) v).hart.idecode.iexecIn = true := by
    rw [Iexec.interruptible, htr, hcmd]
    rfl
  obtain ⟨u, -, hu⟩ := htaken 0 v raisesAt_timer hv hacc hable
  refine ⟨u, hu, fun t ht => ?_⟩
  rcases Nat.lt_trichotomy t u with hlt | rfl | hgt
  · obtain ⟨k, hk⟩ := hraised t ht
    have hquiet := (hu.only t (Nat.lt_of_le_of_lt (Nat.zero_le k) hk.lt) hlt).1
    rw [ht] at hquiet
    cases hquiet
  · rfl
  · have hin := (pcSave_in_handler hret hu.takes hgt fun w _ _ => switchesAt_addi).1
    rw [hnest t ht] at hin
    cases hin

end Sumeru
