import Mathlib.Tactic.IntervalCases
import Sumeru.Cpu.Types
import Sumeru.Library.Clocked
import Sumeru.Library.Toggle

/-!
# Sumeru - Interrupt controller

The clocked process of {lit}`intr_controller`.  The UART signals a completed transfer by
toggling a line; the controller compares the line with an acknowledge register of its
own, so what it remembers of a source is one parity.

Main results:

- Theorem {lit}`IntrController.ack_step`: a line is acknowledged with its vector.
- Theorem {lit}`completion_toggles`: a source is pending exactly if an odd number of its
  toggles has come since its last vector.
-/

namespace Sumeru

/-- Registers of {lit}`intr_controller`. -/
structure IntrController where
  intrFrozen : Bool
  intrTriggerR : Bool
  intrVec : BitVec 4
  uart0TxIntrToggleAck : Bool
  uart0RxIntrToggleAck : Bool
deriving DecidableEq, Repr

/-- Inputs of the controller in one cycle. -/
structure IntrInput where
  intrReset : Bool
  timerIntrTrigger : Bool
  uart0TxIntrToggle : Bool
  uart0RxIntrToggle : Bool

namespace IntrController

/-- Power-up contents; {lit}`intr_vec` has no initial value in the source and is not read
before the first trigger. -/
def init : IntrController where
  intrFrozen := false
  intrTriggerR := false
  intrVec := 0#4
  uart0TxIntrToggleAck := false
  uart0RxIntrToggleAck := false

/-- A new trigger with its vector. -/
def raise (s : IntrController) (vec : BitVec 4) : IntrController :=
  { s with intrFrozen := true, intrTriggerR := !s.intrTriggerR, intrVec := vec }

/-- One rising edge of {lit}`clk`. -/
def step (s : IntrController) (i : IntrInput) : IntrController :=
  if s.intrFrozen then
    if i.intrReset then { s with intrFrozen := false } else s
  else if i.timerIntrTrigger then s.raise ivecTimer
  else if s.uart0TxIntrToggleAck ≠ i.uart0TxIntrToggle then
    { s.raise ivecUart0Tx with uart0TxIntrToggleAck := i.uart0TxIntrToggle }
  else if s.uart0RxIntrToggleAck ≠ i.uart0RxIntrToggle then
    { s.raise ivecUart0Rx with uart0RxIntrToggleAck := i.uart0RxIntrToggle }
  else s

/-- The record {lit}`intr_out`. -/
def intrOut (s : IntrController) : IntrChannelOut := ⟨s.intrTriggerR, s.intrVec⟩

/-- The controller before its {lit}`t`-th clock edge. -/
def run (inp : ℕ → IntrInput) (t : ℕ) : IntrController := Clocked.run step init inp t

end IntrController

/-! ## The two UART sources -/

inductive UartSource where
  | tx | rx
deriving DecidableEq, Repr

/-- The completion line of a source. -/
def IntrInput.toggle (i : IntrInput) : UartSource → Bool
  | .tx => i.uart0TxIntrToggle
  | .rx => i.uart0RxIntrToggle

/-- The acknowledge register of a source. -/
def IntrController.ack (s : IntrController) : UartSource → Bool
  | .tx => s.uart0TxIntrToggleAck
  | .rx => s.uart0RxIntrToggleAck

/-- The vector of a source. -/
def UartSource.vec : UartSource → BitVec 4
  | .tx => ivecUart0Tx
  | .rx => ivecUart0Rx

/-- The edge issues the vector of the source: a new trigger with that vector. -/
def IntrController.issues (s : IntrController) (i : IntrInput) (src : UartSource) : Bool :=
  (s.step i).intrTriggerR != s.intrTriggerR && (s.step i).intrVec == src.vec

namespace IntrController

variable {s : IntrController} {i : IntrInput} {src : UartSource}

/-- An edge that issues the vector of a source acknowledges its line, and no other edge
changes the acknowledge register. -/
theorem ack_step (s : IntrController) (i : IntrInput) (src : UartSource) :
    (s.step i).ack src = if s.issues i src then i.toggle src else s.ack src := by
  unfold issues step
  by_cases hf : s.intrFrozen = true
  · by_cases hr : i.intrReset = true <;> cases src <;> simp [hf, hr, ack]
  by_cases ht : i.timerIntrTrigger = true
  · cases src <;> simp [hf, ht, ack, raise, UartSource.vec, ivecTimer, ivecUart0Tx, ivecUart0Rx]
  by_cases htx : s.uart0TxIntrToggleAck = i.uart0TxIntrToggle
  · by_cases hrx : s.uart0RxIntrToggleAck = i.uart0RxIntrToggle
    · cases src <;> simp [hf, ht, htx, hrx, ack]
    · cases src <;>
        simp [hf, ht, htx, hrx, ack, raise, UartSource.vec, IntrInput.toggle, ivecUart0Tx, ivecUart0Rx]
  · cases src <;>
      simp [hf, ht, htx, ack, raise, UartSource.vec, IntrInput.toggle, ivecUart0Tx, ivecUart0Rx]

end IntrController

/-! ## Runs -/

section Runs

variable (inp : ℕ → IntrInput) (src : UartSource)

/-- The completion line of a source before cycle {lit}`t`, low at power-up. -/
def toggleLine : ℕ → Bool
  | 0 => false
  | t + 1 => (inp t).toggle src

/-- The line toggles in cycle {lit}`t`. -/
def TogglesAt (t : ℕ) : Prop := toggleLine inp src (t + 1) ≠ toggleLine inp src t

/-- The controller issues the vector of the source at edge {lit}`t`. -/
def IssuesAt (t : ℕ) : Prop := (IntrController.run inp t).issues (inp t) src = true

/-- The acknowledge register differs from the line. -/
def PendingAt (t : ℕ) : Prop := (IntrController.run inp t).ack src ≠ toggleLine inp src t

/-- The stretch from {lit}`u` to {lit}`t` begins at power-up or behind a vector of the source
and holds no other one. -/
structure Unserved (u t : ℕ) : Prop where
  le : u ≤ t
  start : u = 0 ∨ ∃ v, u = v + 1 ∧ IssuesAt inp src v
  quiet : ∀ v, u ≤ v → v < t → ¬ IssuesAt inp src v

variable {inp src}

/-- Issuing an interrupt acknowledges its source. -/
theorem ack_succ_of_issues {t : ℕ} (h : IssuesAt inp src t) :
    (IntrController.run inp (t + 1)).ack src = (inp t).toggle src :=
  (IntrController.ack_step _ _ _).trans (if_pos h)

/-- Otherwise the acknowledge stays. -/
theorem ack_succ_of_not_issues {t : ℕ} (h : ¬ IssuesAt inp src t) :
    (IntrController.run inp (t + 1)).ack src = (IntrController.run inp t).ack src :=
  (IntrController.ack_step _ _ _).trans (if_neg h)

/-- Without a vector the acknowledge register rests. -/
theorem ack_eq_of_quiet {u t : ℕ} (hut : u ≤ t) (hq : ∀ v, u ≤ v → v < t → ¬ IssuesAt inp src v) :
    (IntrController.run inp t).ack src = (IntrController.run inp u).ack src := by
  induction t, hut using Nat.le_induction with
  | base => rfl
  | succ t hut ih =>
      rw [ack_succ_of_not_issues (hq t hut (Nat.lt_succ_self t))]
      exact ih fun v h1 h2 => hq v h1 (by omega)

/-- At the beginning of a stretch nothing is pending. -/
theorem Unserved.ack_start {u t : ℕ} (h : Unserved inp src u t) :
    (IntrController.run inp u).ack src = toggleLine inp src u := by
  rcases h.start with rfl | ⟨v, rfl, hv⟩
  · cases src <;> rfl
  · rw [ack_succ_of_issues hv]
    rfl

/-- What is pending at the end of a stretch is the parity of its toggles. -/
theorem Unserved.pending_iff {u t : ℕ} (h : Unserved inp src u t) :
    PendingAt inp src t ↔
      Odd (Toggle.changes (toggleLine inp src) t - Toggle.changes (toggleLine inp src) u) := by
  rw [PendingAt, ack_eq_of_quiet h.le h.quiet, h.ack_start, ← Nat.not_even_iff_odd,
    ← Toggle.level_eq_iff_even h.le]
  exact not_congr eq_comm

/-- A source that waits for its acknowledgement keeps its toggle pending. -/
theorem pending_of_no_repeat (hsrc : ∀ e, TogglesAt inp src e → ¬ PendingAt inp src e) {e t : ℕ}
    (het : e < t) (he : TogglesAt inp src e) (hq : ∀ v, e ≤ v → v < t → ¬ IssuesAt inp src v) :
    PendingAt inp src t := by
  induction t, het using Nat.le_induction with
  | base =>
      have hack : (IntrController.run inp e).ack src = toggleLine inp src e := by
        by_contra hne
        exact hsrc e he hne
      rw [PendingAt, ack_eq_of_quiet (Nat.le_succ e) hq, hack]
      exact he.symm
  | succ t het ih =>
      have hpend := ih fun v h1 h2 => hq v h1 (by omega)
      have hline : toggleLine inp src (t + 1) = toggleLine inp src t := by
        by_contra hne
        exact hsrc t hne hpend
      rw [PendingAt, ack_eq_of_quiet (Nat.le_succ t) fun v h1 h2 => hq v (by omega) h2, hline]
      exact hpend

end Runs

/-- UART completion toggles.  Since the last vector of a source, or since power-up, the
source is pending exactly if an odd number of toggles has come.  So every toggle of a
source that does not toggle while it is pending is followed by a vector of the source
issued after it, or is still pending. -/
theorem completion_toggles (inp : ℕ → IntrInput) (src : UartSource) :
    (∀ u t, Unserved inp src u t →
      (PendingAt inp src t ↔
        Odd (Toggle.changes (toggleLine inp src) t - Toggle.changes (toggleLine inp src) u))) ∧
    ((∀ e, TogglesAt inp src e → ¬ PendingAt inp src e) →
      ∀ e t, e < t → TogglesAt inp src e →
        (∃ u, e ≤ u ∧ u < t ∧ IssuesAt inp src u) ∨ PendingAt inp src t) := by
  refine ⟨fun u t h => h.pending_iff, fun hsrc e t het he => ?_⟩
  by_cases hq : ∃ u, e ≤ u ∧ u < t ∧ IssuesAt inp src u
  · exact .inl hq
  · refine .inr (pending_of_no_repeat hsrc het he fun v h1 h2 hv => hq ⟨v, h1, h2, hv⟩)

/-- A timer interrupt, then two completions of the transmitter before the handler ends. -/
def twoCompletions (t : ℕ) : IntrInput where
  intrReset := t == 3
  timerIntrTrigger := t == 0
  uart0TxIntrToggle := t == 1
  uart0RxIntrToggle := false

/-- Both completions are forgotten: no vector has been issued and nothing is pending. -/
theorem two_completions_forgotten :
    TogglesAt twoCompletions .tx 1 ∧ TogglesAt twoCompletions .tx 2 ∧
      (∀ u, 1 ≤ u → u < 5 → ¬ IssuesAt twoCompletions .tx u) ∧
      ¬ PendingAt twoCompletions .tx 5 := by
  refine ⟨by unfold TogglesAt; decide, by unfold TogglesAt; decide, ?_, by unfold PendingAt; decide⟩
  intro u h1 h5
  unfold IssuesAt
  interval_cases u <;> decide

/-- One completion during a timer handler, then silence. -/
def oneCompletion (t : ℕ) : IntrInput where
  intrReset := t == 3
  timerIntrTrigger := t == 0
  uart0TxIntrToggle := decide (1 ≤ t)
  uart0RxIntrToggle := false

/-- A single completion is pending when the handler ends. -/
theorem completion_toggles_single :
    (∃ u, 1 ≤ u ∧ u < 4 ∧ IssuesAt oneCompletion .tx u) ∨ PendingAt oneCompletion .tx 4 := by
  refine (completion_toggles oneCompletion .tx).2 ?_ 1 4 (by decide) (by unfold TogglesAt; decide)
  intro e he
  have h1 : e = 1 := by
    by_contra hne
    apply he
    cases e with
    | zero => rfl
    | succ e =>
        have h2 : 1 ≤ e := by omega
        simp [toggleLine, oneCompletion, IntrInput.toggle, h2]
  subst h1
  unfold PendingAt
  decide

end Sumeru
