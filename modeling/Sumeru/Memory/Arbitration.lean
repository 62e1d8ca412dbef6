import Sumeru.Library.Toggle
import Sumeru.Memory.Refresh

/-!
# Sumeru - Exactly-once arbitration

Start and strobe of a channel are toggles: a request is a change of
{lit}`op_start`, its answer a change of {lit}`op_strobe`.  Counting the changes turns
exactly-once delivery into three counters that stay within one of each other.  The
arbiter routes the strobe of the controller to one channel at a time, and the
parity bookkeeping behind it collapses into one equation for {lit}`op_strobe`.

Main results:

- Theorem {lit}`MemorySystem.opStrobe_eq`: the exclusive-or network computed away.
- Theorem {lit}`MemorySystem.opStrobe_step`: a strobe reaches the granted channel
  and no other.
- Theorem {lit}`eventually_idle`: the arbiter returns to {lit}`IDLE`.
- Theorem {lit}`arbitration_exactly_once`: the guarantees of the arbiter under the
  contract of its channels.
- Theorem {lit}`arbitration_starves`: a fixed priority can postpone a request for
  ever.
-/

namespace Sumeru

namespace MemorySystem

/-- Output {lit}`op_strobe` of a channel. -/
def opStrobe (s : MemorySystem) (c : Channel) : Bool :=
  s.arb.opStrobe s.sdc.strobe c

/-- The arbiter forwards the request of channel {lit}`c` at this edge. -/
def forwards (s : MemorySystem) (mc : Channel → MemChannelIn) (c : Channel) : Bool :=
  s.arb.state == .idle && s.arb.grant? mc == some c

variable {s : MemorySystem} (mc : Channel → MemChannelIn)

/-! ## The strobe network -/

/-- The multiplexers select the granted channel while its strobe is outstanding,
and the stored parity is that of the grant. -/
structure Routed (s : MemorySystem) : Prop where
  mux : ∀ d, s.arb.strobeMux d = decide (s.arb.state = .waitStrobe ∧ d = s.arb.chan)
  reg : s.arb.state = .waitStrobe →
    s.arb.strobeReg s.arb.chan = (s.arb.strobe s.arb.chan ^^ s.arb.opStart)

/-- At power-up no strobe is routed. -/
theorem routed_init : Routed init :=
  ⟨fun _ => rfl, fun h => by cases h⟩

/-- One edge of the arbiter: a grant, the end of one of its waits, or nothing. -/
theorem arb_step_cases (hph : Phase s.arb s.sdc) :
    (∃ c, s.forwards mc c = true ∧ s.sdc.strobe = s.arb.opStart ∧
        (s.step mc).arb = s.arb.grant s.sdc.strobe mc c) ∨
      ((∀ c, s.forwards mc c = false) ∧
        ((s.arb.state = .waitStrobe ∧ s.sdc.strobe = s.arb.opStart ∧
            (s.step mc).arb = { s.arb with state := .waitBusy, strobeMux := fun _ => false }) ∨
          (s.arb.state = .waitBusy ∧ s.sdc.busyWait = false ∧
            (s.step mc).arb = { s.arb with state := .idle }) ∨
          (s.step mc).arb = s.arb)) := by
  cases hst : s.arb.state with
  | idle =>
      have hs : s.sdc.strobe = s.arb.opStart := by
        cases hph with
        | quiet _ _ hs => exact hs.strobe
        | pending ha => simp [hst] at ha
        | reading _ _ ha => simp [hst] at ha
        | writing ha => simp [hst] at ha
      cases hg : s.arb.grant? mc with
      | some c =>
          refine .inl ⟨c, by simp [forwards, hst, hg], hs, ?_⟩
          simp [step, Arbitrator.step, hst, hg]
      | none =>
          refine .inr ⟨fun c => by simp [forwards, hg], .inr (.inr ?_)⟩
          simp [step, Arbitrator.step, hst, hg]
  | waitStrobe =>
      refine .inr ⟨fun c => by simp [forwards, hst], ?_⟩
      by_cases hs : s.sdc.strobe = s.arb.opStart
      · exact .inl ⟨rfl, hs, arb_step_of_strobe mc hst hs⟩
      · exact .inr (.inr (arb_step_of_waiting mc hst hs))
  | waitBusy =>
      refine .inr ⟨fun c => by simp [forwards, hst], .inr ?_⟩
      cases hb : s.sdc.busyWait with
      | false => exact .inl ⟨rfl, rfl, by simp [step, Arbitrator.step, hst, hb]⟩
      | true => exact .inr (by simp [step, Arbitrator.step, hst, hb])

/-- The routing of the strobe is kept. -/
theorem routed_step (hph : Phase s.arb s.sdc) (h : Routed s) : Routed (s.step mc) := by
  rcases arb_step_cases mc hph with ⟨c, hf, hs, harb⟩ | ⟨-, ⟨ha, -, harb⟩ | ⟨ha, -, harb⟩ | harb⟩
  · have hidle : s.arb.state = .idle := by
      simp only [forwards, Bool.and_eq_true, beq_iff_eq] at hf
      exact hf.1
    refine ⟨fun d => ?_, fun _ => ?_⟩
    · rw [harb]
      by_cases hd : d = c
      · simp [Arbitrator.grant, hd]
      · simp [Arbitrator.grant, hd, h.mux d, hidle]
    · rw [harb]
      simp [Arbitrator.grant, hs]
  · refine ⟨fun d => by rw [harb]; simp, fun hw => by rw [harb] at hw; cases hw⟩
  · refine ⟨fun d => ?_, fun hw => by rw [harb] at hw; cases hw⟩
    rw [harb]
    simp [h.mux d, ha]
  · exact ⟨fun d => by rw [harb]; exact h.mux d, fun hw => by rw [harb] at hw ⊢; exact h.reg hw⟩

/-- The strobe is routed in every cycle. -/
theorem routed_run (inp : ℕ → Channel → MemChannelIn) (t : ℕ) : Routed (run inp t) :=
  Clocked.run_invariant routed_init (fun n h => routed_step (inp n) (phase_run inp n) h) t

/-- A channel sees its stored strobe, except that the granted channel sees the old
value until the controller answers. -/
theorem opStrobe_eq (h : Routed s) (d : Channel) :
    s.opStrobe d =
      if s.arb.state = .waitStrobe ∧ d = s.arb.chan ∧ s.sdc.strobe ≠ s.arb.opStart then
        !s.arb.strobe d
      else s.arb.strobe d := by
  unfold opStrobe Arbitrator.opStrobe
  rw [h.mux d]
  by_cases hw : s.arb.state = .waitStrobe ∧ d = s.arb.chan
  · obtain ⟨hst, rfl⟩ := hw
    rw [h.reg hst]
    cases s.sdc.strobe <;> cases s.arb.strobe s.arb.chan <;> cases s.arb.opStart <;> simp [hst]
  · have hw' : ¬ (s.arb.state = .waitStrobe ∧ d = s.arb.chan ∧
        s.sdc.strobe ≠ s.arb.opStart) := fun h => hw ⟨h.1, h.2.1⟩
    simp [hw, hw']

/-- The controller answers only a request that is waiting for its strobe. -/
theorem waiting_of_strobe (hph : Phase s.arb s.sdc)
    (hne : (s.step mc).sdc.strobe ≠ s.sdc.strobe) :
    s.arb.state = .waitStrobe ∧ s.sdc.strobe ≠ s.arb.opStart := by
  cases hph with
  | quiet _ hc hs =>
      rcases strobes_acts hs hc (s.sdc.step_acts (s.mcIn mc)) with ⟨-, hreq⟩ | ⟨hkeep, -⟩
      · exact absurd hs.strobe.symm hreq
      · exact absurd (hkeep.strobe.trans hs.strobe.symm) hne
  | pending ha _ hs => exact ⟨ha, by simp [hs.strobe]⟩
  | reading k hk ha hw hs h1 h2 hc hb =>
      refine ⟨ha, fun heq => hne ?_⟩
      have hk2 : k = 2 := by
        by_contra hk2
        simp [show ¬ 2 ≤ k by omega, heq] at hs
      have hocc := Phase.occupied (.reading k hk ha hw hs h1 h2 hc hb) ha h2
      rw [(strobes_step_of_occupied mc hocc).1, h1, heq]
      simp [hk2]
  | writing ha hw hs hc hb =>
      have hocc := Phase.occupied (.writing ha hw hs hc hb) ha hs.r2
      refine absurd ?_ hne
      rw [(strobes_step_of_occupied mc hocc).1, hs.r1, hs.strobe]

/-- A strobe reaches the granted channel in the cycle of the controller's strobe,
and no other channel. -/
theorem opStrobe_step (hph : Phase s.arb s.sdc) (h : Routed s) (d : Channel) :
    (s.step mc).opStrobe d ≠ s.opStrobe d ↔
      (s.step mc).sdc.strobe ≠ s.sdc.strobe ∧ d = s.arb.chan := by
  rw [opStrobe_eq (routed_step mc hph h), opStrobe_eq h]
  by_cases hne : (s.step mc).sdc.strobe = s.sdc.strobe
  · -- no strobe: grants and the ends of waits are invisible
    simp only [hne, ne_eq, not_true_eq_false, false_and, iff_false, not_not]
    rcases arb_step_cases mc hph with
      ⟨c, hf, hs, harb⟩ | ⟨-, ⟨ha, hs, harb⟩ | ⟨ha, -, harb⟩ | harb⟩
    · have hidle : s.arb.state = .idle := by
        simp only [forwards, Bool.and_eq_true, beq_iff_eq] at hf
        exact hf.1
      rw [harb]
      by_cases hd : d = c
      · simp [Arbitrator.grant, hidle, hd, hs]
      · simp [Arbitrator.grant, hidle, hd]
    · simp [harb, hs]
    · simp [harb, ha]
    · rw [harb]
  · obtain ⟨ha, hs⟩ := waiting_of_strobe mc hph hne
    have harb := arb_step_of_waiting mc ha hs
    have hnew : (s.step mc).sdc.strobe = s.arb.opStart := by
      cases h1 : (s.step mc).sdc.strobe <;> cases h2 : s.sdc.strobe <;>
        cases h3 : s.arb.opStart <;> simp_all
    simp only [harb, ha, hnew]
    by_cases hd : d = s.arb.chan
    · simp [hd, hs, Ne.symm hs]
    · simp [hd]

/-! ## What a grant hands to the controller -/

/-- The request registers of the arbiter belong to channel {lit}`c`'s request
{lit}`x`. -/
structure Carries (c : Channel) (x : MemChannelIn) (s : MemorySystem) : Prop where
  chan : s.arb.chan = c
  addr : s.arb.opAddr = x.opAddr
  wren : s.arb.opWren = x.opWren
  burst : s.arb.opBurst = x.opBurst

/-- A forwarded request is carried by the arbiter. -/
theorem carries_of_forwards {c : Channel} (hph : Phase s.arb s.sdc)
    (hf : s.forwards mc c = true) : Carries c (mc c) (s.step mc) := by
  rcases arb_step_cases mc hph with ⟨c', hf', -, harb⟩ | ⟨hno, -⟩
  · obtain rfl : c' = c := by
      simp only [forwards, Bool.and_eq_true, beq_iff_eq] at hf hf'
      exact Option.some_injective _ (hf'.2.symm.trans hf.2)
    constructor <;> rw [harb] <;> rfl
  · rw [hno c] at hf
    cases hf

/-- The arbiter carries a request until the next one. -/
theorem carries_step {c : Channel} {x : MemChannelIn} (hph : Phase s.arb s.sdc)
    (hno : ∀ d, s.forwards mc d = false) (h : Carries c x s) : Carries c x (s.step mc) := by
  rcases arb_step_cases mc hph with ⟨c', hf', -, -⟩ | ⟨-, ⟨-, -, harb⟩ | ⟨-, -, harb⟩ | harb⟩
  · rw [hno c'] at hf'
    cases hf'
  all_goals constructor <;> rw [harb]
  all_goals first | exact h.chan | exact h.addr | exact h.wren | exact h.burst

end MemorySystem

open MemorySystem

variable {inp : ℕ → Channel → MemChannelIn} {t : ℕ}

/-- The request registers keep the last forwarded request. -/
theorem carries_run {c : Channel} (hf : (run inp t).forwards (inp t) c = true) {u : ℕ}
    (htu : t < u) (hno : ∀ v, t < v → v < u → ∀ d, (run inp v).forwards (inp v) d = false) :
    Carries c (inp t c) (run inp u) := by
  induction u, htu using Nat.le_induction with
  | base => exact carries_of_forwards (inp t) (phase_run inp t) hf
  | succ u htu ih =>
      exact carries_step (inp u) (phase_run inp u) (hno u htu (by omega))
        (ih fun v hv hvu => hno v hv (by omega))

/-- Before the next grant the strobe arrives and the controller is seen idle. -/
theorem busy_clear_between {t' : ℕ} (htt' : t < t') {c c' : Channel}
    (hf : (run inp t).forwards (inp t) c = true)
    (hf' : (run inp t').forwards (inp t') c' = true) :
    ∃ u, t < u ∧ u < t' ∧ (run inp u).sdc.busyWait = false ∧
      (run inp u).sdc.strobe = (run inp (t + 1)).arb.opStart := by
  have hwait : ∀ u, t < u → (∃ v, t < v ∧ v < u ∧ (run inp v).sdc.busyWait = false ∧
      (run inp v).sdc.strobe = (run inp (t + 1)).arb.opStart) ∨
      ((run inp u).arb.state ≠ .idle ∧
        (run inp u).arb.opStart = (run inp (t + 1)).arb.opStart) := by
    intro u htu
    induction u, htu using Nat.le_induction with
    | base =>
        right
        rcases arb_step_cases (inp t) (phase_run inp t) with ⟨d, -, -, harb⟩ | ⟨hno, -⟩
        · exact ⟨by rw [run_succ, harb]; simp [Arbitrator.grant], rfl⟩
        · rw [hno c] at hf
          cases hf
    | succ u htu ih =>
        rcases ih with ⟨v, htv, hvu, hv⟩ | ⟨hst, hop⟩
        · exact .inl ⟨v, htv, by omega, hv⟩
        · rcases arb_step_cases (inp u) (phase_run inp u) with
            ⟨d, hfd, -, -⟩ | ⟨-, ⟨-, -, harb⟩ | ⟨ha, hb, harb⟩ | harb⟩
          · simp only [forwards, Bool.and_eq_true, beq_iff_eq] at hfd
            exact absurd hfd.1 hst
          · exact .inr ⟨by rw [run_succ, harb]; simp, by rw [run_succ, harb]; exact hop⟩
          · refine .inl ⟨u, htu, by omega, hb, ?_⟩
            rw [← hop]
            cases phase_run inp u with
            | quiet _ _ hs => exact hs.strobe
            | pending ha' => simp [ha] at ha'
            | reading _ _ ha' => simp [ha] at ha'
            | writing ha' => simp [ha] at ha'
          · exact .inr ⟨by rw [run_succ, harb]; exact hst, by rw [run_succ, harb]; exact hop⟩
  rcases hwait t' htt' with h | ⟨hst, -⟩
  · exact h
  · simp only [forwards, Bool.and_eq_true, beq_iff_eq] at hf'
    exact absurd hf'.1 hst

/-! ## Exactly-once counting -/

/-- What the channels promise: {lit}`op_start` is low at power-up and toggles only
when the strobe has caught up with it; until then the request is held. -/
structure ChannelContract (inp : ℕ → Channel → MemChannelIn) : Prop where
  start : ∀ c, (inp 0 c).opStart = false
  toggle : ∀ t c, (inp (t + 1) c).opStart ≠ (inp t c).opStart →
    (run inp t).opStrobe c = (inp t c).opStart
  hold : ∀ t c, (run inp t).opStrobe c ≠ (inp t c).opStart →
    (inp (t + 1) c).opAddr = (inp t c).opAddr ∧ (inp (t + 1) c).opWren = (inp t c).opWren ∧
      (inp (t + 1) c).opBurst = (inp t c).opBurst

section Counters

variable (inp : ℕ → Channel → MemChannelIn) (c : Channel)

/-- Requests made by a channel before cycle {lit}`t`. -/
def requestsMade (t : ℕ) : ℕ :=
  Toggle.changes (fun u => (inp u c).opStart) t

/-- Requests of a channel forwarded before cycle {lit}`t`. -/
def requestsForwarded (t : ℕ) : ℕ :=
  Nat.count (fun u => (run inp u).forwards (inp u) c = true) t

/-- Requests of a channel answered by a strobe before cycle {lit}`t`. -/
def requestsAnswered (t : ℕ) : ℕ :=
  Toggle.changes (fun u => (run inp u).opStrobe c) t

end Counters

/-- The stored strobe of a channel toggles exactly when it is granted. -/
theorem strobe_succ (inp : ℕ → Channel → MemChannelIn) (t : ℕ) (c : Channel) :
    (run inp (t + 1)).arb.strobe c =
      if (run inp t).forwards (inp t) c then !(run inp t).arb.strobe c
      else (run inp t).arb.strobe c := by
  rcases arb_step_cases (inp t) (phase_run inp t) with
    ⟨d, hf, -, harb⟩ | ⟨hno, ⟨-, -, harb⟩ | ⟨-, -, harb⟩ | harb⟩
  · have hfc : (run inp t).forwards (inp t) c = (d == c) := by
      simp only [forwards, Bool.and_eq_true, beq_iff_eq] at hf
      simp [forwards, hf.1, hf.2]
    rw [run_succ, harb, hfc]
    by_cases hd : c = d
    · simp [Arbitrator.grant, hd]
    · simp [Arbitrator.grant, hd, Ne.symm hd]
  all_goals rw [run_succ, harb, hno c]; rfl

/-- A forwarded channel was asking and had seen all its answers. -/
theorem requesting_of_forwards {c : Channel} (hf : (run inp t).forwards (inp t) c = true) :
    (inp t c).opStart ≠ (run inp t).arb.strobe c ∧
      (run inp t).opStrobe c = (run inp t).arb.strobe c := by
  simp only [forwards, Bool.and_eq_true, beq_iff_eq] at hf
  constructor
  · have := Fin.eq_true_of_find?_eq_some hf.2
    simpa [Arbitrator.requests] using this
  · rw [opStrobe_eq (routed_run inp t), if_neg]
    simp [hf.1]

/-- Every request forwarded is a change of the stored strobe. -/
theorem requestsForwarded_eq (inp : ℕ → Channel → MemChannelIn) (c : Channel) (t : ℕ) :
    requestsForwarded inp c t = Toggle.changes (fun u => (run inp u).arb.strobe c) t := by
  unfold requestsForwarded Toggle.changes
  congr 1
  funext u
  simp only [strobe_succ inp u c]
  cases (run inp u).forwards (inp u) c <;> simp

/-- A strobe arrives only for a request that was forwarded. -/
theorem outstanding_of_answer {c : Channel}
    (h : (run inp (t + 1)).opStrobe c ≠ (run inp t).opStrobe c) :
    (run inp t).arb.strobe c ≠ (run inp t).opStrobe c := by
  obtain ⟨hne, hchan⟩ :=
    (opStrobe_step (inp t) (phase_run inp t) (routed_run inp t) c).mp h
  obtain ⟨ha, hs⟩ := waiting_of_strobe (inp t) (phase_run inp t) hne
  rw [opStrobe_eq (routed_run inp t), if_pos ⟨ha, hchan, hs⟩]
  simp

/-- Channel, arbiter and strobe follow the rules of a toggle handshake. -/
theorem handshake (hc : ChannelContract inp) (c : Channel) :
    Toggle.Handshake (fun u => (inp u c).opStart) (fun u => (run inp u).arb.strobe c)
      (fun u => (run inp u).opStrobe c) where
  start := ⟨hc.start c, rfl⟩
  req_change := fun t => hc.toggle t c
  grant_change := fun t hne => by
    have hf : (run inp t).forwards (inp t) c = true := by
      by_contra hf
      simp [strobe_succ inp t c, hf] at hne
    exact requesting_of_forwards hf
  ack_change := fun t => outstanding_of_answer

/-! ## Progress -/

namespace MemorySystem

variable {s : MemorySystem} (mc : Channel → MemChannelIn)

/-- A bound on the number of edges before the arbiter is idle again. -/
def toIdle (s : MemorySystem) : ℕ :=
  if s.sdc.state = .startup then 100 + (16392 - s.sdc.cycleCounter.toNat)
  else (if s.sdc.refreshLock then 30 else 0) + s.toEvaluation

/-- An evaluation outside a locked refresh finds the arbiter idle or about to be. -/
theorem idle_of_evaluates (hph : Phase s.arb s.sdc) (hev : s.evaluatesRefresh mc = true)
    (hlock : s.sdc.refreshLock = false) (ha : s.arb.state ≠ .idle) :
    (s.step mc).arb.state = .idle := by
  obtain ⟨hst, hbw, hno⟩ := (evaluatesRefresh_iff mc).mp hev
  have hs : s.arb.opStart = s.sdc.strobe := hno.resolve_right (by simp [hlock])
  have hfree : ¬ Occupied s.sdc := by
    rintro (⟨-, h⟩ | h)
    · simp [hbw] at h
    · simp [hst] at h
  have hwb : s.arb.state = .waitBusy := by
    cases hph with
    | quiet ha' => exact ha'.resolve_left ha
    | pending _ _ hs' => simp [hs'.strobe] at hs
    | reading k hk ha' hw hs' h1 h2 hc hb =>
        exact absurd (Phase.occupied (.reading k hk ha' hw hs' h1 h2 hc hb) ha' h2) hfree
    | writing ha' hw hs' hc hb =>
        exact absurd (Phase.occupied (.writing ha' hw hs' hc hb) ha' hs'.r2) hfree
  have hb : s.sdc.busyWait = false := SdramController.busyWait_eq_false.mpr hbw
  simp [step, Arbitrator.step, hwb, hb]

/-- The start-up comes nearer to its end. -/
theorem toIdle_step_startingUp (h : StartingUp s) : toIdle (s.step mc) < toIdle s := by
  have hmax := h.counter
  have hbefore : toIdle s = 100 + (16392 - s.sdc.cycleCounter.toNat) := by
    simp [toIdle, h.state]
  rw [hbefore]
  rcases startingUp_step mc h with ⟨h', hcc⟩ | ⟨hst', hB⟩
  · simp only [toIdle, h'.state, if_true]
    omega
  · have hrank := hB.rank
    simp only [toIdle, hst', reduceCtorEq, if_false]
    split <;> omega

/-- Outside {lit}`STARTUP` the rank falls until the arbiter is idle: the evaluation on
the way is the refresh that was locked in. -/
theorem toIdle_step (hst : s.sdc.state ≠ .startup) (hph : Phase s.arb s.sdc)
    (hB : Bounded 16392 s) (ha : s.arb.state ≠ .idle) :
    (s.step mc).arb.state = .idle ∨ toIdle (s.step mc) < toIdle s := by
  have hst' := state_step_ne_startup mc hst
  have hrank' := (bounded_step mc (by decide) (by norm_num) hst hph hB).rank
  simp only [toIdle, hst, hst', if_false]
  cases hev : s.evaluatesRefresh mc with
  | false =>
      right
      have hlt : (s.step mc).toEvaluation + 1 ≤ s.toEvaluation :=
        (toEvaluation_step mc hst hph hB.lock).resolve_left (by simp [hev])
      have hlock := (counter_step_of_not_evaluates mc hst hev).2.1
      simp only [hlock]
      omega
  | true =>
      cases hl : s.sdc.refreshLock with
      | false => exact .inl (idle_of_evaluates mc hph hev hl ha)
      | true =>
          right
          have hL := hB.lock hl
          rcases evaluation_acts mc hev with ⟨-, -, hany⟩ | ⟨hs, -⟩ | ⟨-, hle⟩
          · rw [hL.closed] at hany
            cases hany
          · have hl' : (s.step mc).sdc.refreshLock = false := by rw [hs]; rfl
            simp only [hl', if_true, Bool.false_eq_true, if_false]
            omega
          · have := hL.due
            omega

end MemorySystem

/-- The arbiter returns to {lit}`IDLE` again and again. -/
theorem eventually_idle (inp : ℕ → Channel → MemChannelIn) (t : ℕ) :
    ∃ u, t ≤ u ∧ (run inp u).arb.state = .idle := by
  by_cases ha : (run inp t).arb.state = .idle
  · exact ⟨t, le_rfl, ha⟩
  · refine Clocked.LeadsTo.of_rank (P := fun t => (run inp t).arb.state ≠ .idle)
      (fun t => toIdle (run inp t)) (fun t ha => ?_) t ha
    have hstep : (run inp (t + 1)).arb.state = .idle ∨
        toIdle (run inp (t + 1)) < toIdle (run inp t) := by
      rcases startingUp_or_bounded inp t with h | ⟨hst, hB⟩
      · exact .inr (toIdle_step_startingUp (inp t) h)
      · exact toIdle_step (inp t) hst (phase_run inp t) hB ha
    by_cases hgoal : (run inp (t + 1)).arb.state = .idle
    · exact .inl hgoal
    · exact .inr ⟨hgoal, hstep.resolve_left hgoal⟩

/-- A request is forwarded, unless the arbiter prefers a lower-numbered channel each
time it is idle. -/
theorem forwarded_or_preempted (hc : ChannelContract inp) {c : Channel}
    (hreq : (inp t c).opStart ≠ (run inp t).arb.strobe c) :
    (∃ u, t ≤ u ∧ (run inp u).forwards (inp u) c = true) ∨
      ∀ u, t ≤ u → (run inp u).arb.state = .idle →
        ∃ d, d < c ∧ (run inp u).forwards (inp u) d = true := by
  by_cases hf : ∃ u, t ≤ u ∧ (run inp u).forwards (inp u) c = true
  · exact .inl hf
  · right
    have hnever : ∀ u, t ≤ u → (run inp u).forwards (inp u) c = false := by
      intro u hu
      by_contra hcon
      exact hf ⟨u, hu, by simpa using hcon⟩
    -- a request that is not forwarded stays up
    have hpend : ∀ u, t ≤ u → (inp u c).opStart ≠ (run inp u).arb.strobe c := by
      intro u hu
      induction u, hu using Nat.le_induction with
      | base => exact hreq
      | succ u hu ih =>
          have hsame : (inp (u + 1) c).opStart = (inp u c).opStart := by
            by_contra hne
            have hack := hc.toggle u c hne
            have hlev := ((handshake hc c).levels u).2.2
            by_cases hout : (run inp u).arb.strobe c = (run inp u).opStrobe c
            · exact ih (hack.symm.trans hout.symm)
            · exact ih (hlev hout)
          rw [hsame, strobe_succ, hnever u hu]
          exact ih
    intro u hu hidle
    cases hg : (run inp u).arb.grant? (inp u) with
    | none =>
        have hno := Fin.eq_false_of_find?_eq_none hg c
        have := hpend u hu
        simp [Arbitrator.requests, this] at hno
    | some d =>
        have hfd : (run inp u).forwards (inp u) d = true := by simp [forwards, hidle, hg]
        refine ⟨d, ?_, hfd⟩
        by_contra hdc
        rcases lt_or_eq_of_le (not_lt.mp hdc) with hlt | rfl
        · have hno := Fin.eq_false_of_find?_eq_some_of_lt hg c hlt
          have := hpend u hu
          simp [Arbitrator.requests, this] at hno
        · rw [hnever u hu] at hfd
          cases hfd

/-- A grant is what the controller sees as a new request. -/
theorem opStart_changes_iff (inp : ℕ → Channel → MemChannelIn) (t : ℕ) :
    (run inp (t + 1)).arb.opStart ≠ (run inp t).arb.opStart ↔
      ∃ c, (run inp t).forwards (inp t) c = true := by
  rcases arb_step_cases (inp t) (phase_run inp t) with
    ⟨c, hf, -, harb⟩ | ⟨hno, ⟨-, -, harb⟩ | ⟨-, -, harb⟩ | harb⟩
  · rw [run_succ, harb]
    simpa [Arbitrator.grant] using ⟨c, hf⟩
  all_goals simp [run_succ, harb, hno]

/-- The controller sees the forwarded request with the live mask and data of its
channel until the next grant. -/
theorem mcIn_run {c : Channel} (hf : (run inp t).forwards (inp t) c = true) {u : ℕ}
    (htu : t < u) (hno : ∀ v, t < v → v < u → ∀ d, (run inp v).forwards (inp v) d = false) :
    (run inp u).mcIn (inp u) =
      { opAddr := (inp t c).opAddr
        opStart := (run inp (t + 1)).arb.opStart
        opWren := (inp t c).opWren
        opBurst := (inp t c).opBurst
        opDqm := (inp u c).opDqm
        writeData := (inp u c).writeData } := by
  obtain ⟨hchan, haddr, hwren, hburst⟩ := carries_run hf htu hno
  have hstart : (run inp u).arb.opStart = (run inp (t + 1)).arb.opStart := by
    clear hchan haddr hwren hburst
    induction u, htu using Nat.le_induction with
    | base => rfl
    | succ u htu ih =>
        rw [← ih fun v hv hvu => hno v hv (by omega)]
        by_contra hne
        obtain ⟨d, hd⟩ := (opStart_changes_iff inp u).mp hne
        rw [hno u htu (by omega) d] at hd
        cases hd
  simp [mcIn, Arbitrator.sdcIn, hchan, haddr, hwren, hburst, hstart]

/-- Arbitration under the contract of the channels: the requests, grants and answers
of each channel stay within one of each other; the controller sees each grant as
one new request with the fields of its channel; strobes reach the granted channel
only, together with the strobe of the controller; a new grant waits for an idle
controller; and a request stays until it is forwarded, which only lower-numbered
channels can postpone. -/
theorem arbitration_exactly_once (inp : ℕ → Channel → MemChannelIn)
    (hc : ChannelContract inp) :
    (∀ c t, requestsAnswered inp c t ≤ requestsForwarded inp c t ∧
      requestsForwarded inp c t ≤ requestsMade inp c t ∧
      requestsMade inp c t ≤ requestsAnswered inp c t + 1) ∧
    (∀ t, (run inp (t + 1)).arb.opStart ≠ (run inp t).arb.opStart ↔
      ∃ c, (run inp t).forwards (inp t) c = true) ∧
    (∀ c t u, (run inp t).forwards (inp t) c = true → t < u →
      (∀ v, t < v → v < u → ∀ d, (run inp v).forwards (inp v) d = false) →
      (run inp u).mcIn (inp u) =
        { opAddr := (inp t c).opAddr
          opStart := (run inp (t + 1)).arb.opStart
          opWren := (inp t c).opWren
          opBurst := (inp t c).opBurst
          opDqm := (inp u c).opDqm
          writeData := (inp u c).writeData }) ∧
    (∀ t d, (run inp (t + 1)).opStrobe d ≠ (run inp t).opStrobe d ↔
      (run inp (t + 1)).sdc.strobe ≠ (run inp t).sdc.strobe ∧ d = (run inp t).arb.chan) ∧
    (∀ t t' c c', t < t' → (run inp t).forwards (inp t) c = true →
      (run inp t').forwards (inp t') c' = true →
      ∃ u, t < u ∧ u < t' ∧ (run inp u).sdc.busyWait = false ∧
        (run inp u).sdc.strobe = (run inp (t + 1)).arb.opStart) ∧
    (∀ t, ∃ u, t ≤ u ∧ (run inp u).arb.state = .idle) ∧
    (∀ c t, requestsForwarded inp c t < requestsMade inp c t →
      (∃ u, t ≤ u ∧ (run inp u).forwards (inp u) c = true) ∨
        ∀ u, t ≤ u → (run inp u).arb.state = .idle →
          ∃ d, d < c ∧ (run inp u).forwards (inp u) d = true) := by
  refine ⟨fun c t => ?_, opStart_changes_iff inp, fun c t u hf => mcIn_run hf,
    fun t d => opStrobe_step (inp t) (phase_run inp t) (routed_run inp t) d,
    fun t t' c c' hlt => busy_clear_between hlt, eventually_idle inp, fun c t hlt => ?_⟩
  · rw [requestsForwarded_eq]
    exact (handshake hc c).changes_le t
  · refine forwarded_or_preempted hc fun heq => ?_
    have hlev := ((handshake hc c).levels t).1
    rw [requestsForwarded_eq, requestsMade, hlev] at hlt
    simp [heq] at hlt

/-! ## Starvation -/

/-- Two channels against the memory system: channel 0 asks again as soon as it is
answered, channel 1 asks once. -/
structure Starvation where
  sys : MemorySystem
  start0 : Bool
  start1 : Bool

namespace Starvation

/-- The requests of the two channels. -/
def input (s : Starvation) (c : Channel) : MemChannelIn where
  opAddr := 0#24
  opStart := if c = 0 then s.start0 else if c = 1 then s.start1 else false
  opWren := true
  opBurst := false
  opDqm := 0#2
  writeData := 0#16

/-- One clock edge of the memory system and the two channels. -/
def step (s : Starvation) : Starvation where
  sys := s.sys.step s.input
  start0 := if s.sys.opStrobe 0 = s.start0 then !s.start0 else s.start0
  start1 := true

/-- The closed system before its {lit}`t`-th edge. -/
def run : ℕ → Starvation
  | 0 => ⟨MemorySystem.init, false, false⟩
  | t + 1 => (run t).step

end Starvation

/-- The inputs that the two channels produce. -/
def starvingInput (t : ℕ) : Channel → MemChannelIn :=
  (Starvation.run t).input

/-- The two greedy channels as inputs of the memory system. -/
theorem run_starvingInput (t : ℕ) : run starvingInput t = (Starvation.run t).sys := by
  induction t with
  | zero => rfl
  | succ t ih =>
      rw [run_succ, ih]
      rfl

/-- The greedy channels follow the rules of a channel. -/
theorem starvingInput_contract : ChannelContract starvingInput where
  start := fun c => by
    simp [starvingInput, Starvation.run, Starvation.input]
  toggle := fun t c hne => by
    rw [run_starvingInput]
    simp only [starvingInput, Starvation.input, Starvation.run, Starvation.step] at hne ⊢
    by_cases h0 : c = 0
    · subst h0
      simp at hne
      simpa using hne
    · by_cases h1 : c = 1
      · subst h1
        cases t with
        | zero => rfl
        | succ t => simp [Starvation.run, Starvation.step] at hne
      · simp [h0, h1] at hne
  hold := fun t c _ => ⟨rfl, rfl, rfl⟩

/-- Channel 0 is either being served or asking. -/
structure Hogged (s : Starvation) : Prop where
  asking : s.sys.arb.state ≠ .waitStrobe → s.start0 ≠ s.sys.arb.strobe 0
  served : s.sys.arb.state = .waitStrobe → s.sys.arb.chan = 0 ∧ s.start0 = s.sys.arb.strobe 0

/-- An idle arbiter prefers channel 0. -/
theorem Hogged.forwards_zero {s : Starvation} (h : Hogged s) {c : Channel}
    (hf : s.sys.forwards s.input c = true) : c = 0 := by
  simp only [forwards, Bool.and_eq_true, beq_iff_eq] at hf
  by_contra hne
  have hno := Fin.eq_false_of_find?_eq_some_of_lt hf.2 0 (Fin.pos_of_ne_zero hne)
  have hask := h.asking (by simp [hf.1])
  simp [Arbitrator.requests, Starvation.input, hask] at hno

/-- The greedy channels keep the arbiter busy. -/
theorem hogged_step {s : Starvation} (hph : Phase s.sys.arb s.sys.sdc) (hr : Routed s.sys)
    (h : Hogged s) : Hogged s.step := by
  have hop := opStrobe_eq hr 0
  -- channel 0 repeats its request exactly when it sees the answer
  have hkeep : s.sys.opStrobe 0 ≠ s.start0 → s.step.start0 = s.start0 := by
    intro hne
    simp [Starvation.step, hne]
  have hquiet : s.sys.arb.state ≠ .waitStrobe → s.step.start0 = s.start0 := by
    intro hst
    refine hkeep ?_
    rw [hop, if_neg (by simp [hst])]
    exact (h.asking hst).symm
  rcases arb_step_cases s.input hph with
    ⟨c, hf, -, harb⟩ | ⟨-, ⟨ha, hs, harb⟩ | ⟨ha, -, harb⟩ | harb⟩
  · obtain rfl := h.forwards_zero hf
    have hidle : s.sys.arb.state ≠ .waitStrobe := by
      simp only [forwards, Bool.and_eq_true, beq_iff_eq] at hf
      simp [hf.1]
    have hask := h.asking hidle
    constructor
    · intro hst
      simp [Starvation.step, harb, Arbitrator.grant] at hst
    · intro _
      rw [hquiet hidle]
      simp only [Starvation.step, harb, Arbitrator.grant, if_true, true_and]
      cases h0 : s.start0 <;> cases h1 : s.sys.arb.strobe 0 <;> simp_all
  · obtain ⟨hchan, heq⟩ := h.served ha
    constructor
    · intro _
      have hseen : s.sys.opStrobe 0 = s.start0 := by
        rw [hop, if_neg (by simp [hs]), heq]
      simp [Starvation.step, hseen, harb, ← heq]
    · intro hst
      simp [Starvation.step, harb] at hst
  · have hst : s.sys.arb.state ≠ .waitStrobe := by simp [ha]
    constructor
    · intro _
      rw [hquiet hst]
      simpa [Starvation.step, harb] using h.asking hst
    · intro hst'
      simp [Starvation.step, harb] at hst'
  · have hsys : s.step.sys.arb = s.sys.arb := harb
    by_cases hst : s.sys.arb.state = .waitStrobe
    · obtain ⟨hchan, heq⟩ := h.served hst
      have hs : s.sys.sdc.strobe ≠ s.sys.arb.opStart := by
        intro hs
        rw [arb_step_of_strobe s.input hst hs] at harb
        have := congrArg Arbitrator.state harb
        simp [hst] at this
      have hsame : s.step.start0 = s.start0 := by
        refine hkeep ?_
        rw [hop, if_pos ⟨hst, hchan.symm, hs⟩, heq]
        simp
      exact ⟨fun hne => absurd (hsys ▸ hst) hne, fun _ => by rw [hsame, hsys]; exact ⟨hchan, heq⟩⟩
    · exact ⟨fun _ => by rw [hquiet hst, hsys]; exact h.asking hst,
        fun hst' => absurd (hsys ▸ hst') hst⟩

/-- The arbiter is always busy with the greedy channels. -/
theorem hogged_run (t : ℕ) : Hogged (Starvation.run (t + 1)) := by
  induction t with
  | zero =>
      constructor
      · intro _
        decide
      · intro hst
        exact absurd hst (by decide)
  | succ t ih =>
      have hph := phase_run starvingInput (t + 1)
      have hr := routed_run starvingInput (t + 1)
      rw [run_starvingInput] at hph hr
      exact hogged_step hph hr ih

/-- A fixed priority postpones a request for ever: both channels keep their contract,
channel 1 has made a request in cycle 1, and no cycle forwards it. -/
theorem arbitration_starves :
    ChannelContract starvingInput ∧ requestsMade starvingInput 1 1 = 1 ∧
      ∀ t, (run starvingInput t).forwards (starvingInput t) 1 = false := by
  refine ⟨starvingInput_contract, by decide, fun t => ?_⟩
  cases t with
  | zero => decide
  | succ t =>
      rw [← Bool.not_eq_true]
      intro hf
      rw [run_starvingInput] at hf
      have := (hogged_run t).forwards_zero hf
      cases this

/-- The contract can be met: the channels above meet it. -/
theorem arbitration_exactly_once_starving :
    requestsForwarded starvingInput 0 5 ≤ requestsMade starvingInput 0 5 ∧
      requestsMade starvingInput 0 5 ≤ requestsAnswered starvingInput 0 5 + 1 :=
  ((arbitration_exactly_once starvingInput starvingInput_contract).1 0 5).2

end Sumeru
