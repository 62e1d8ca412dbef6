import Sumeru.Memory.SdramDevice

/-!
# Sumeru - The SDRAM controller implements a memory

Requester, arbiter, controller and device together: the strobe that a channel sees
and the half-words that its request moves.  The strobe is traced back to the access
that sent it, the beats of the access are the ones that {lit}`dqm_on` announces, and
each beat stores or returns one half-word.

Main results:

- Theorem {lit}`SdramSystem.mem_write`, {lit}`SdramSystem.mem_keep`: the cells change
  only in a write beat.
- Theorem {lit}`SdramSystem.dataOut_read`: a read beat reaches {lit}`data_out` after two
  clocks.
- Theorem {lit}`access_of_strobe`: every strobe comes from a write just issued or a
  read issued two cycles before.
- Theorem {lit}`sdram_implements_memory`: what a requester reads and writes.
-/

namespace Sumeru

/-! ## Addresses of a burst -/

/-- The value of bits side by side. -/
theorem toNat_append_eq {m n : ℕ} (x : BitVec m) (y : BitVec n) :
    (x ++ y).toNat = x.toNat * 2 ^ n + y.toNat := by
  rw [BitVec.toNat_append, ← Nat.shiftLeft_add_eq_or_of_lt y.isLt, Nat.shiftLeft_eq]

/-- The first beat is at the address itself. -/
theorem beatAddr_zero (addr : BitVec 24) : beatAddr addr 0 = addr := by
  apply BitVec.eq_of_toNat_eq
  simp only [beatAddr, burstCol, opAddrRow, opAddrBank, opAddrCol, toNat_append_eq,
    BitVec.toNat_add, BitVec.extractLsb'_toNat, BitVec.toNat_ofNat, Nat.shiftRight_eq_div_pow]
  omega

/-- A burst at a multiple of eight runs through the following addresses. -/
theorem beatAddr_of_aligned {addr : BitVec 24} (ha : addr.toNat % 8 = 0) {k : ℕ} (hk : k < 8) :
    beatAddr addr k = addr + BitVec.ofNat 24 k := by
  apply BitVec.eq_of_toNat_eq
  have hlt := addr.isLt
  simp only [beatAddr, burstCol, opAddrRow, opAddrBank, opAddrCol, toNat_append_eq,
    BitVec.toNat_add, BitVec.extractLsb'_toNat, BitVec.toNat_ofNat, Nat.shiftRight_eq_div_pow]
  omega

open MemorySystem

variable {inp : ℕ → Channel → MemChannelIn} {float : ℕ → BitVec 16}
  {mem : BitVec 24 → BitVec 16} {t : ℕ}

/-! ## One beat -/

/-- A transfer belongs to a request that was granted before. -/
theorem ne_idle_of_transfer (hon : (run inp (t + 1)).sdc.dqmOnCounter.toNat ≠ 0) :
    (run inp t).arb.state ≠ .idle := by
  have hact := issued_acts inp t
  by_cases hacc : (issued inp t).Accessing
  · obtain ⟨-, hst, hbw, hreq, -, -⟩ := hact.of_readOrWrite hacc
    obtain ⟨ha, -⟩ := (phase_run inp t).pending_of_free hst hbw hreq
    simp [ha]
  · have hnext : (run inp (t + 1)).sdc.dqmOnCounter.toNat = _ := hact.dqm_eq hacc
    apply (transferring_run inp t _).arb
    intro h0
    simp [h0] at hnext
    omega

/-- The direction of the granted request does not change during a transfer. -/
theorem opWren_of_transfer (hon : (run inp (t + 1)).sdc.dqmOnCounter.toNat ≠ 0) :
    (run inp (t + 1)).arb.opWren = (run inp t).arb.opWren := by
  obtain ⟨st, mux, harb⟩ := arb_step_of_ne_idle (inp t) (ne_idle_of_transfer hon)
  rw [run_succ, harb]

/-- Transfers two cycles apart have the same direction. -/
theorem opWren_add_two (h0 : (run inp t).sdc.dqmOnCounter.toNat ≠ 0)
    (h2 : (run inp (t + 2)).sdc.dqmOnCounter.toNat ≠ 0) :
    (run inp (t + 2)).arb.opWren = (run inp t).arb.opWren := by
  have hT := transferring_run inp t fun h => h0 (by simp [h])
  obtain ⟨st, mux, harb⟩ := arb_step_of_ne_idle (inp t) hT.arb
  rw [opWren_of_transfer h2, run_succ, harb]

/-- Channel {lit}`c` moves beat {lit}`k` of a request at {lit}`addr` in cycle {lit}`t`. -/
structure Moves (inp : ℕ → Channel → MemChannelIn) (c : Channel) (wren : Bool)
    (addr : BitVec 24) (k t : ℕ) : Prop where
  on : (run inp t).sdc.dqmOnCounter.toNat ≠ 0
  chan : (run inp t).arb.chan = c
  wren : (run inp t).arb.opWren = wren
  addr : (run inp t).arb.opAddr = addr
  index : beats (run inp t).arb.opBurst - (run inp t).sdc.dqmOnCounter.toNat = k

section

variable {c : Channel} {wren : Bool} {addr : BitVec 24} {k : ℕ}

/-- The beat that a channel moves. -/
theorem Moves.beat (h : Moves inp c wren addr k t) :
    (run inp t).beat = some ⟨wren, opAddrBank addr, opAddrRow addr, opAddrCol addr, k⟩ := by
  rw [beat_of_on h.on, h.wren, h.addr, h.index]

/-- The mask in a beat is that of its channel. -/
theorem Moves.dqm (h : Moves inp c wren addr k t) :
    (run inp t).sdc.sdramDqm ((run inp t).mcIn (inp t)) = (inp t c).opDqm := by
  have hon : (run inp t).sdc.dqmOnCounter ≠ 0#4 := fun h0 => h.on (by simp [h0])
  simp [SdramController.sdramDqm, SdramController.dqmOn, hon, mcIn, Arbitrator.sdcIn, h.chan]

end

/-- The controller drives the data pins in the cycles of a write transfer only. -/
theorem sdramData_eq (t : ℕ) :
    (run inp t).sdc.sdramData ((run inp t).mcIn (inp t)) =
      if (run inp t).sdc.dqmOnCounter.toNat ≠ 0 ∧ (run inp t).arb.opWren = true then
        some (inp t (run inp t).arb.chan).writeData
      else none := by
  have hon : (run inp t).sdc.dqmOn = true ↔ (run inp t).sdc.dqmOnCounter.toNat ≠ 0 := by
    rw [SdramController.dqmOn, bne_iff_ne, ← BitVec.toNat_inj.ne]
    rfl
  simp only [SdramController.sdramData, Bool.and_eq_true, hon]
  rfl

namespace SdramSystem

/-- What a beat sends down the read pipeline. -/
theorem pipe_succ (t : ℕ) : (run inp float mem (t + 1)).dev.pipe =
    match (MemorySystem.run inp t).beat with
    | some x => if x.wren then none else
        some ((run inp float mem t).dev.mem x.cell,
          (MemorySystem.run inp t).sdc.sdramDqm ((MemorySystem.run inp t).mcIn (inp t)))
    | none => none := by
  have hstep := congrArg SdramDevice.pipe (@dev_succ inp float mem t)
  rw [SdramDevice.step, beat_run] at hstep
  exact hstep

/-- The read pipeline has two stages. -/
theorem dq_succ (t : ℕ) : (run inp float mem (t + 1)).dev.dq = (run inp float mem t).dev.pipe := by
  rw [dev_succ]
  rfl

/-- What a beat stores. -/
theorem mem_succ (t : ℕ) : (run inp float mem (t + 1)).dev.mem =
    match (MemorySystem.run inp t).beat with
    | some x => if x.wren then
        Function.update (run inp float mem t).dev.mem x.cell
          (blend ((MemorySystem.run inp t).sdc.sdramDqm ((MemorySystem.run inp t).mcIn (inp t)))
            ((run inp float mem t).dev.mem x.cell)
            ((run inp float mem t).sdramData (inp t) (float t)))
        else (run inp float mem t).dev.mem
    | none => (run inp float mem t).dev.mem := by
  have hstep := congrArg SdramDevice.mem (@dev_succ inp float mem t)
  rw [SdramDevice.step, beat_run] at hstep
  exact hstep

/-- Nobody else drives the pins in a write transfer: the last read lies further
back than the read pipeline is long. -/
theorem dq_of_write (hon : (MemorySystem.run inp t).sdc.dqmOnCounter.toNat ≠ 0)
    (hw : (MemorySystem.run inp t).arb.opWren = true) : (run inp float mem t).dev.dq = none := by
  match t with
  | 0 => rfl
  | 1 => rfl
  | t + 2 =>
      rw [dq_succ, pipe_succ]
      by_cases h0 : (MemorySystem.run inp t).sdc.dqmOnCounter.toNat = 0
      · rw [beat_of_off h0]
      · have hsame := opWren_add_two h0 hon
        rw [beat_of_on h0, ← hsame, hw]
        rfl

/-- A write beat stores the half-word of its channel. -/
theorem mem_write {c : Channel} {addr : BitVec 24} {k : ℕ} (h : Moves inp c true addr k t) :
    (run inp float mem (t + 1)).dev.mem =
      Function.update (run inp float mem t).dev.mem (beatAddr addr k)
        (blend (inp t c).opDqm ((run inp float mem t).dev.mem (beatAddr addr k))
          (inp t c).writeData) := by
  have hbus : (run inp float mem t).sdramData (inp t) (float t) = (inp t c).writeData := by
    rw [sdramData, sys_run, sdramData_eq, if_pos ⟨h.on, h.wren⟩,
      SdramDevice.busLevel_write (dq_of_write h.on h.wren), h.chan]
  rw [mem_succ, h.beat, h.dqm, hbus]
  rfl

/-- Without a write beat the cells keep their contents. -/
theorem mem_keep (h : (MemorySystem.run inp t).sdc.dqmOnCounter.toNat ≠ 0 →
    (MemorySystem.run inp t).arb.opWren = false) :
    (run inp float mem (t + 1)).dev.mem = (run inp float mem t).dev.mem := by
  rw [mem_succ]
  by_cases h0 : (MemorySystem.run inp t).sdc.dqmOnCounter.toNat = 0
  · rw [beat_of_off h0]
  · rw [beat_of_on h0, h h0]
    rfl

/-- The cell that the device stores to in this cycle. -/
def storedCell (s : SdramSystem) : Option (BitVec 24) :=
  match s.dev.beat? s.sys.sdc with
  | some x => if x.wren then some x.cell else none
  | none => none

/-- A write beat stores to its cell. -/
theorem storedCell_write {c : Channel} {addr : BitVec 24} {k : ℕ} (h : Moves inp c true addr k t) :
    (run inp float mem t).storedCell = some (beatAddr addr k) := by
  rw [storedCell, sys_run, beat_run, h.beat]
  rfl

/-- Other cycles store nothing. -/
theorem storedCell_keep (h : (MemorySystem.run inp t).sdc.dqmOnCounter.toNat ≠ 0 →
    (MemorySystem.run inp t).arb.opWren = false) : (run inp float mem t).storedCell = none := by
  rw [storedCell, sys_run, beat_run]
  by_cases h0 : (MemorySystem.run inp t).sdc.dqmOnCounter.toNat = 0
  · rw [beat_of_off h0]
  · rw [beat_of_on h0, h h0]
    rfl

/-- A read beat reaches {lit}`data_out` after two more clocks, and the cell keeps its
contents until then. -/
theorem dataOut_read {c : Channel} {addr : BitVec 24} {k : ℕ} (h : Moves inp c false addr k t)
    (hdqm : (inp t c).opDqm = 0#2) :
    (run inp float mem (t + 3)).dataOut = (run inp float mem (t + 3)).dev.mem (beatAddr addr k) := by
  have h1 : (MemorySystem.run inp (t + 1)).sdc.dqmOnCounter.toNat ≠ 0 →
      (MemorySystem.run inp (t + 1)).arb.opWren = false := by
    intro hon
    rw [opWren_of_transfer hon, h.wren]
  have h2 : (MemorySystem.run inp (t + 2)).sdc.dqmOnCounter.toNat ≠ 0 →
      (MemorySystem.run inp (t + 2)).arb.opWren = false := by
    intro hon
    rw [opWren_add_two h.on hon, h.wren]
  have hmem : (run inp float mem (t + 3)).dev.mem = (run inp float mem t).dev.mem := by
    rw [mem_keep h2, mem_keep h1, mem_keep fun _ => h.wren]
  have hdq : (run inp float mem (t + 2)).dev.dq =
      some ((run inp float mem t).dev.mem (beatAddr addr k), 0#2) := by
    rw [dq_succ, pipe_succ, h.beat, h.dqm, hdqm]
    rfl
  have hfree : (MemorySystem.run inp (t + 2)).sdc.sdramData
      ((MemorySystem.run inp (t + 2)).mcIn (inp (t + 2))) = none := by
    rw [sdramData_eq, if_neg]
    rintro ⟨hon, hw⟩
    rw [h2 hon] at hw
    cases hw
  rw [hmem]
  change (run inp float mem (t + 2)).sdramData (inp (t + 2)) (float (t + 2)) = _
  rw [sdramData, sys_run, hfree, SdramDevice.busLevel_read hdq]

end SdramSystem

/-! ## From the access to its beats -/

/-- The arbiter holds the request of an access for all its beats. -/
theorem window_of_access (hacc : (issued inp t).Accessing) {k : ℕ}
    (hk : k < beats (run inp t).arb.opBurst) :
    (run inp (t + 1 + k)).sdc.dqmOnCounter.toNat = beats (run inp t).arb.opBurst - k ∧
      ∃ st mux, (run inp (t + 1 + k)).arb =
        { (run inp t).arb with state := st, strobeMux := mux } := by
  induction k with
  | zero =>
      obtain ⟨hsdc, hst, hbw, hreq, -, -⟩ := (issued_acts inp t).of_readOrWrite hacc
      obtain ⟨-, harb⟩ := transferring_of_access (inp t) (phase_run inp t) hst hbw hreq hsdc
      refine ⟨?_, _, _, harb⟩
      change (issued inp t).dqmOnCounter.toNat = _
      rw [hsdc, SdramController.toNat_dqm_access]
      rfl
  | succ k ih =>
      obtain ⟨hcount, st, mux, harb⟩ := ih (by omega)
      have hT := transferring_run inp (t + 1 + k) fun h => by
        simp [h] at hcount
        omega
      have hburst : (run inp t).arb.opBurst = true := by
        by_contra hb
        simp [beats, hb] at hk
      have hwait := hT.wait (by rw [harb]; exact hburst)
      -- the controller still waits, so no other access cuts in
      have hno : ¬ (issued inp (t + 1 + k)).Accessing := by
        intro h
        obtain ⟨-, -, hbw, -⟩ := (issued_acts inp (t + 1 + k)).of_readOrWrite h
        simp [hbw] at hwait
        omega
      have hnext := (issued_acts inp (t + 1 + k)).dqm_eq hno
      obtain ⟨st', mux', harb'⟩ := arb_step_of_ne_idle (inp (t + 1 + k)) hT.arb
      refine ⟨?_, st', mux', ?_⟩
      · change (issued inp (t + 1 + k)).dqmOnCounter.toNat = _
        omega
      · change ((run inp (t + 1 + k)).step (inp (t + 1 + k))).arb = _
        rw [harb', harb]

/-- The half-words behind an access. -/
theorem moves_of_access (hacc : (issued inp t).Accessing) {k : ℕ}
    (hk : k < beats (run inp t).arb.opBurst) :
    Moves inp (run inp t).arb.chan (run inp t).arb.opWren (run inp t).arb.opAddr k (t + 1 + k) := by
  obtain ⟨hcount, st, mux, harb⟩ := window_of_access hacc hk
  constructor
  · omega
  · rw [harb]
  · rw [harb]
  · rw [harb]
  · rw [harb, hcount]
    change beats (run inp t).arb.opBurst - _ = k
    omega

/-- Every transfer belongs to an access. -/
theorem access_of_transfer (hon : (run inp t).sdc.dqmOnCounter.toNat ≠ 0) :
    ∃ u k, t = u + 1 + k ∧ k < beats (run inp u).arb.opBurst ∧ (issued inp u).Accessing := by
  induction t with
  | zero => exact absurd rfl hon
  | succ t ih =>
      by_cases hacc : (issued inp t).Accessing
      · refine ⟨t, 0, rfl, ?_, hacc⟩
        cases (run inp t).arb.opBurst <;> decide
      · have hnext : (run inp (t + 1)).sdc.dqmOnCounter.toNat = _ :=
          (issued_acts inp t).dqm_eq hacc
        obtain ⟨u, k, rfl, hk, hu⟩ := ih (by omega)
        obtain ⟨hcount, -⟩ := window_of_access hu hk
        exact ⟨u, k + 1, by omega, by omega, hu⟩

/-! ## From the strobe to the access -/

/-- What one edge does to the strobe pipeline. -/
theorem SdramController.Acts.strobes {c c' : SdramController} {mc : MemChannelIn}
    (h : c.Acts mc c') :
    (c'.Accessing ∧ mc.opWren = true ∧ c'.strobe = c'.strobeR1 ∧ c'.strobeR1 = c'.strobeR2) ∨
      (c'.Accessing ∧ mc.opWren = false ∧ c'.strobe = c.strobeR1 ∧ c'.strobeR1 = c.strobeR2) ∨
      (c'.strobe = c.strobeR1 ∧ c'.strobeR1 = c.strobeR2 ∧ c'.strobeR2 = c.strobeR2) := by
  cases h with
  | startup => exact .inr (.inr c.strobes_startup)
  | access =>
      have hacc : (c.access mc).Accessing := by
        rw [Accessing, command_access]
        cases mc.opWren <;> simp
      cases hw : mc.opWren with
      | true =>
          exact .inl ⟨hacc, rfl, by simp [SdramController.access, hw],
            by simp [SdramController.access, hw]⟩
      | false =>
          exact .inr (.inl ⟨hacc, rfl, by simp [SdramController.access, hw],
            by simp [SdramController.access, hw]⟩)
  | _ => exact .inr (.inr ⟨rfl, rfl, rfl⟩)

/-- A strobe comes from a write just issued or a read issued two cycles before. -/
theorem access_of_strobe (hne : (run inp (t + 1)).sdc.strobe ≠ (run inp t).sdc.strobe) :
    ((issued inp t).Accessing ∧ (run inp t).arb.opWren = true) ∨
      ∃ u, t = u + 2 ∧ (issued inp u).Accessing ∧ (run inp u).arb.opWren = false := by
  -- the strobe moves because the stage before it was ahead
  have hr1 : ((issued inp t).Accessing ∧ (run inp t).arb.opWren = true) ∨
      (run inp t).sdc.strobeR1 ≠ (run inp t).sdc.strobe := by
    rcases (issued_acts inp t).strobes with ⟨hacc, hw, -⟩ | ⟨-, -, hs, -⟩ | ⟨hs, -⟩
    · exact .inl ⟨hacc, hw⟩
    · exact .inr fun h => hne (hs.trans h)
    · exact .inr fun h => hne (hs.trans h)
  rcases hr1 with h | hr1
  · exact .inl h
  right
  cases t with
  | zero => exact absurd rfl hr1
  | succ t =>
      have hr2 : (run inp t).sdc.strobeR2 ≠ (run inp t).sdc.strobeR1 := by
        intro h
        rcases (issued_acts inp t).strobes with ⟨-, -, hs, -⟩ | ⟨-, -, hs, h1⟩ | ⟨hs, h1, -⟩
        · exact hr1 hs.symm
        · exact hr1 (h1.trans (h.trans hs.symm))
        · exact hr1 (h1.trans (h.trans hs.symm))
      cases t with
      | zero => exact absurd rfl hr2
      | succ u =>
          refine ⟨u, rfl, ?_⟩
          rcases (issued_acts inp u).strobes with ⟨-, -, -, h12⟩ | ⟨hacc, hw, -⟩ | ⟨-, h1, h2⟩
          · exact absurd h12.symm hr2
          · exact ⟨hacc, hw⟩
          · exact absurd (h2.trans h1.symm) hr2

/-! ## What the requester sees -/

/-- Cycle {lit}`t + 1` is the first in which channel {lit}`c` sees the strobe of its
request. -/
def Answered (inp : ℕ → Channel → MemChannelIn) (c : Channel) (t : ℕ) : Prop :=
  (run inp t).opStrobe c ≠ (inp t c).opStart ∧
    (run inp (t + 1)).opStrobe c = (inp (t + 1) c).opStart

instance (inp : ℕ → Channel → MemChannelIn) (c : Channel) (t : ℕ) : Decidable (Answered inp c t) :=
  inferInstanceAs (Decidable (_ ∧ _))

/-- An answer is a change of the strobe. -/
theorem answered_iff (hc : ChannelContract inp) {c : Channel} :
    Answered inp c t ↔ (run inp (t + 1)).opStrobe c ≠ (run inp t).opStrobe c := by
  have hsame : (run inp t).opStrobe c ≠ (inp t c).opStart →
      (inp (t + 1) c).opStart = (inp t c).opStart := by
    intro hne
    by_contra h
    exact hne (hc.toggle t c h)
  constructor
  · rintro ⟨hne, heq⟩
    rw [heq, hsame hne]
    exact hne.symm
  · intro hchange
    have hout := outstanding_of_answer hchange
    have hstart := ((handshake hc c).levels t).2.2 hout
    have hne : (run inp t).opStrobe c ≠ (inp t c).opStart := by
      intro h
      exact hout (hstart.symm.trans h.symm)
    refine ⟨hne, ?_⟩
    rw [hsame hne]
    cases h1 : (run inp (t + 1)).opStrobe c <;> cases h2 : (run inp t).opStrobe c <;>
      cases h3 : (inp t c).opStart <;> simp_all

/-- Until the strobe arrives the request registers agree with the channel. -/
theorem presented (hc : ChannelContract inp) (ha : (run inp t).arb.state = .waitStrobe)
    (hs : (run inp t).sdc.strobe ≠ (run inp t).arb.opStart) :
    Carries (run inp t).arb.chan (inp t (run inp t).arb.chan) (run inp t) := by
  induction t with
  | zero => cases ha
  | succ t ih =>
      have hph := phase_run inp t
      rcases arb_step_cases (inp t) hph with
        ⟨c, hf, -, harb⟩ | ⟨hno, ⟨-, -, harb⟩ | ⟨-, -, harb⟩ | harb⟩
      · -- the channel was asking when it was granted
        obtain ⟨hreq, hop⟩ := requesting_of_forwards hf
        have hcar := carries_of_forwards (inp t) hph hf
        change Carries c (inp t c) (run inp (t + 1)) at hcar
        have hhold := hc.hold t c (by rw [hop]; exact hreq.symm)
        rw [hcar.chan]
        exact ⟨hcar.chan, hcar.addr.trans hhold.1.symm, hcar.wren.trans hhold.2.1.symm,
          hcar.burst.trans hhold.2.2.symm⟩
      · rw [run_succ, harb] at ha
        cases ha
      · rw [run_succ, harb] at ha
        cases ha
      · have harb' : (run inp (t + 1)).arb = (run inp t).arb := harb
        rw [harb'] at ha hs ⊢
        have hwait : (run inp t).sdc.strobe ≠ (run inp t).arb.opStart := by
          intro h
          rw [arb_step_of_strobe (inp t) ha h] at harb
          have := congrArg Arbitrator.state harb
          rw [ha] at this
          cases this
        have hcar := ih ha hwait
        have hop : (run inp t).opStrobe (run inp t).arb.chan ≠
            (run inp t).arb.strobe (run inp t).arb.chan := by
          rw [opStrobe_eq (routed_run inp t), if_pos ⟨ha, rfl, hwait⟩]
          simp
        have hstart := ((handshake hc (run inp t).arb.chan).levels t).2.2 hop.symm
        have hhold := hc.hold t (run inp t).arb.chan (by rw [hstart]; exact hop)
        exact ⟨by rw [harb'], by rw [harb', hhold.1]; exact hcar.addr,
          by rw [harb', hhold.2.1]; exact hcar.wren, by rw [harb', hhold.2.2]; exact hcar.burst⟩

/-- The {lit}`data_out` register at the {lit}`t`-th edge of {lit}`clk`. -/
def dataOutAt (inp : ℕ → Channel → MemChannelIn) (float : ℕ → BitVec 16)
    (mem : BitVec 24 → BitVec 16) (t : ℕ) : BitVec 16 :=
  (SdramSystem.run inp float mem (t + 1)).dataOut

/-- The cells of the device at the {lit}`t`-th edge of {lit}`clk`. -/
def cellsAt (inp : ℕ → Channel → MemChannelIn) (float : ℕ → BitVec 16)
    (mem : BitVec 24 → BitVec 16) (t : ℕ) : BitVec 24 → BitVec 16 :=
  (SdramSystem.run inp float mem (t + 1)).dev.mem

/-- The access behind an answer carries the request of the channel. -/
theorem access_of_answered (hc : ChannelContract inp) {c : Channel} (h : Answered inp c t) :
    ∃ u, (issued inp u).Accessing ∧ Carries c (inp (t + 1) c) (run inp u) ∧
      t = if (inp (t + 1) c).opWren then u else u + 2 := by
  have hchange := (answered_iff hc).mp h
  obtain ⟨hne, hchan⟩ :=
    (opStrobe_step (inp t) (phase_run inp t) (routed_run inp t) c).mp hchange
  obtain ⟨ha, hs⟩ := waiting_of_strobe (inp t) (phase_run inp t) hne
  have hcar := presented hc ha hs
  rw [← hchan] at hcar
  obtain ⟨haddr, hwren, hburst⟩ := hc.hold t c h.1
  have hcar' : Carries c (inp (t + 1) c) (run inp t) :=
    ⟨hcar.chan, hcar.addr.trans haddr.symm, hcar.wren.trans hwren.symm,
      hcar.burst.trans hburst.symm⟩
  rcases access_of_strobe hne with ⟨hacc, hw⟩ | ⟨u, rfl, hacc, hw⟩
  · refine ⟨t, hacc, hcar', ?_⟩
    rw [← hcar'.wren, hw]
    rfl
  · -- the arbiter has not moved since the read was issued
    obtain ⟨hsdc, hst, hbw, hreq, -, -⟩ := (issued_acts inp u).of_readOrWrite hacc
    obtain ⟨hT, harb⟩ := transferring_of_access (inp u) (phase_run inp u) hst hbw hreq hsdc
    obtain ⟨st, mux, harb'⟩ := arb_step_of_ne_idle (inp (u + 1)) hT.arb
    have hregs : (run inp (u + 2)).arb =
        { (run inp u).arb with state := st, strobeMux := mux } := by
      rw [← harb]
      exact harb'
    have hu : Carries c (inp (u + 2 + 1) c) (run inp u) := by
      obtain ⟨h1, h2, h3, h4⟩ := hcar'
      rw [hregs] at h1 h2 h3 h4
      exact ⟨h1, h2, h3, h4⟩
    refine ⟨u, hacc, hu, ?_⟩
    rw [← hu.wren, hw]
    rfl

/-- The channel of a read has been waiting since before the cycle in front of the answer. -/
theorem waiting_of_read (hc : ChannelContract inp) {c : Channel} (h : Answered inp c t)
    (hw : (inp (t + 1) c).opWren = false) :
    (run inp (t - 1)).opStrobe c ≠ (inp (t - 1) c).opStart := by
  obtain ⟨u, hacc, hcar, ht⟩ := access_of_answered hc h
  rw [hw] at ht
  obtain rfl : t = u + 2 := ht
  change (run inp (u + 1)).opStrobe c ≠ (inp (u + 1) c).opStart
  obtain ⟨hsdc, hst, hbw, hreq, -, -⟩ := (issued_acts inp u).of_readOrWrite hacc
  obtain ⟨ha, hs⟩ := (phase_run inp u).pending_of_free hst hbw hreq
  have hopen : (run inp u).sdc.strobe ≠ (run inp u).arb.opStart := by
    rw [hs.strobe]
    exact Bool.not_ne_self _
  have harb : (run inp (u + 1)).arb = (run inp u).arb := arb_step_of_waiting (inp u) ha hopen
  have hstrobe : (run inp (u + 1)).sdc.strobe ≠ (run inp (u + 1)).arb.opStart := by
    rw [harb]
    change (issued inp u).strobe ≠ _
    rw [hsdc]
    simp [SdramController.access, mcIn, Arbitrator.sdcIn, hcar.wren, hw, hs.r1]
  have hop : (run inp (u + 1)).opStrobe c ≠ (run inp (u + 1)).arb.strobe c := by
    rw [opStrobe_eq (routed_run inp (u + 1)),
      if_pos ⟨by rw [harb, ha], by rw [harb, hcar.chan], hstrobe⟩]
    simp
  have hstart := ((handshake hc c).levels (u + 1)).2.2 hop.symm
  rw [hstart]
  exact hop

/-- A write access is answered in its own cycle. -/
theorem answered_of_write (hc : ChannelContract inp) (hacc : (issued inp t).Accessing)
    (hw : (run inp t).arb.opWren = true) :
    Answered inp (run inp t).arb.chan t ∧ (inp (t + 1) (run inp t).arb.chan).opWren = true ∧
      (inp (t + 1) (run inp t).arb.chan).opBurst = (run inp t).arb.opBurst := by
  obtain ⟨hsdc, hst, hbw, hreq, -, -⟩ := (issued_acts inp t).of_readOrWrite hacc
  obtain ⟨ha, hs⟩ := (phase_run inp t).pending_of_free hst hbw hreq
  have hne : (run inp (t + 1)).sdc.strobe ≠ (run inp t).sdc.strobe := by
    change (issued inp t).strobe ≠ _
    rw [hsdc]
    simp [SdramController.access, mcIn, Arbitrator.sdcIn, hw, hs.r2, hs.strobe]
  have hans : Answered inp (run inp t).arb.chan t :=
    (answered_iff hc).mpr
      ((opStrobe_step (inp t) (phase_run inp t) (routed_run inp t) _).mpr ⟨hne, rfl⟩)
  have hcar := presented hc ha (by simp [hs.strobe])
  obtain ⟨-, hwren, hburst⟩ := hc.hold t _ hans.1
  exact ⟨hans, by rw [hwren, ← hcar.wren, hw], by rw [hburst, ← hcar.burst]⟩

/-- The read half: {lit}`data_out` from the edge of the strobe on. -/
theorem dataOut_of_answered (hc : ChannelContract inp) (float : ℕ → BitVec 16)
    (mem : BitVec 24 → BitVec 16) {c : Channel} (h : Answered inp c t)
    (hw : (inp (t + 1) c).opWren = false) {k : ℕ} (hk : k < beats (inp (t + 1) c).opBurst)
    (hdqm : (inp (t - 1 + k) c).opDqm = 0#2) :
    dataOutAt inp float mem (t + 1 + k) =
      cellsAt inp float mem (t + 1 + k) (beatAddr (inp (t + 1) c).opAddr k) := by
  obtain ⟨u, hacc, hcar, ht⟩ := access_of_answered hc h
  rw [hw] at ht
  obtain rfl : t = u + 2 := ht
  rw [← hcar.burst] at hk
  have hmove := moves_of_access hacc hk
  rw [hcar.chan, hcar.wren, hcar.addr, hw] at hmove
  have hdqm' : (inp (u + 1 + k) c).opDqm = 0#2 := hdqm
  have hcycle : u + 2 + 1 + k + 1 = u + 1 + k + 3 := by omega
  rw [dataOutAt, cellsAt, hcycle]
  exact SdramSystem.dataOut_read hmove hdqm'

/-- An answered write moves its beats from the strobe cycle on. -/
theorem moves_of_answered (hc : ChannelContract inp) {c : Channel} (h : Answered inp c t)
    (hw : (inp (t + 1) c).opWren = true) {k : ℕ} (hk : k < beats (inp (t + 1) c).opBurst) :
    Moves inp c true (inp (t + 1) c).opAddr k (t + 1 + k) := by
  obtain ⟨u, hacc, hcar, ht⟩ := access_of_answered hc h
  rw [hw] at ht
  obtain rfl : t = u := ht
  rw [← hcar.burst] at hk
  have hmove := moves_of_access hacc hk
  rw [hcar.chan, hcar.wren, hcar.addr, hw] at hmove
  exact hmove

/-- The write half: the cells from the strobe cycle on. -/
theorem cells_of_answered (hc : ChannelContract inp) (float : ℕ → BitVec 16)
    (mem : BitVec 24 → BitVec 16) {c : Channel} (h : Answered inp c t)
    (hw : (inp (t + 1) c).opWren = true) {k : ℕ} (hk : k < beats (inp (t + 1) c).opBurst) :
    cellsAt inp float mem (t + 1 + k) =
      Function.update (cellsAt inp float mem (t + k)) (beatAddr (inp (t + 1) c).opAddr k)
        (blend (inp (t + 1 + k) c).opDqm
          (cellsAt inp float mem (t + k) (beatAddr (inp (t + 1) c).opAddr k))
          (inp (t + 1 + k) c).writeData) := by
  have hmove := moves_of_answered hc h hw hk
  have hcycle : t + k + 1 = t + 1 + k := by omega
  rw [cellsAt, cellsAt, hcycle]
  exact SdramSystem.mem_write hmove

/-- A write transfer belongs to an answered write. -/
theorem answered_of_transfer (hc : ChannelContract inp) {u : ℕ}
    (hon : (run inp (u + 1)).sdc.dqmOnCounter.toNat ≠ 0)
    (hw : (run inp (u + 1)).arb.opWren = true) :
    ∃ t c k, Answered inp c t ∧ (inp (t + 1) c).opWren = true ∧
      k < beats (inp (t + 1) c).opBurst ∧ u = t + k := by
  obtain ⟨t, k, hu, hk, hacc⟩ := access_of_transfer hon
  obtain ⟨-, st, mux, harb⟩ := window_of_access hacc hk
  rw [hu, harb] at hw
  obtain ⟨hans, hwren, hburst⟩ := answered_of_write hc hacc hw
  exact ⟨t, _, k, hans, hwren, by rw [hburst]; exact hk, by omega⟩

/-- Cells change only in the beats of an answered write. -/
theorem answered_of_cells_ne (hc : ChannelContract inp) {u : ℕ}
    (hne : cellsAt inp float mem (u + 1) ≠ cellsAt inp float mem u) :
    ∃ t c k, Answered inp c t ∧ (inp (t + 1) c).opWren = true ∧
      k < beats (inp (t + 1) c).opBurst ∧ u = t + k := by
  by_cases hon : (run inp (u + 1)).sdc.dqmOnCounter.toNat ≠ 0 ∧ (run inp (u + 1)).arb.opWren = true
  · exact answered_of_transfer hc hon.1 hon.2
  · refine absurd (SdramSystem.mem_keep fun h => ?_) hne
    by_contra hw
    exact hon ⟨h, by simpa using hw⟩

/-! ## Progress -/

/-- A channel whose rivals are silent is answered. -/
theorem eventually_answered {c : Channel} (hc : ChannelContract inp) (t : ℕ)
    (hrivals : ∀ u, t ≤ u → ∀ d, d < c → (run inp u).forwards (inp u) d = false) :
    ∃ u, t ≤ u ∧ (run inp u).opStrobe c = (inp u c).opStart := by
  by_contra hnever
  have hopen : ∀ u, t ≤ u → (run inp u).opStrobe c ≠ (inp u c).opStart :=
    fun u hu heq => hnever ⟨u, hu, heq⟩
  have hidle : ∀ u, (run inp u).arb.state = .idle →
      (run inp u).opStrobe c = (run inp u).arb.strobe c := by
    intro u hu
    rw [opStrobe_eq (routed_run inp u), if_neg (by simp [hu])]
  obtain ⟨v, htv, hv⟩ := eventually_idle inp t
  have hreq : (inp v c).opStart ≠ (run inp v).arb.strobe c := by
    rw [← hidle v hv]
    exact (hopen v htv).symm
  rcases forwarded_or_preempted hc hreq with ⟨w, hvw, hw⟩ | hpre
  · -- once forwarded, the request is the one that the arbiter has taken
    have htaken : ∀ u, w + 1 ≤ u → (run inp u).arb.strobe c = (inp u c).opStart := by
      intro u hu
      have hkeep : ∀ u, w ≤ u → (inp (u + 1) c).opStart = (inp u c).opStart := by
        intro u hu
        by_contra hne
        exact hopen u (by omega) (hc.toggle u c hne)
      induction u, hu using Nat.le_induction with
      | base =>
          rw [strobe_succ, if_pos hw, hkeep w le_rfl]
          exact (Bool.eq_not_of_ne (requesting_of_forwards hw).1).symm
      | succ u hu ih =>
          have hno : ¬ (run inp u).forwards (inp u) c = true :=
            fun hf => (requesting_of_forwards hf).1 ih.symm
          rw [strobe_succ, if_neg hno, hkeep u (by omega)]
          exact ih
    obtain ⟨u, hwu, hu⟩ := eventually_idle inp (w + 1)
    exact hopen u (by omega) ((hidle u hu).trans (htaken u hwu))
  · obtain ⟨d, hd, hf⟩ := hpre v le_rfl hv
    rw [hrivals v htv d hd] at hf
    cases hf

/-- An open request of such a channel is answered. -/
theorem exists_answered {c : Channel} (hc : ChannelContract inp)
    (hopen : (run inp t).opStrobe c ≠ (inp t c).opStart)
    (hrivals : ∀ u, t ≤ u → ∀ d, d < c → (run inp u).forwards (inp u) d = false) :
    ∃ u, t ≤ u ∧ Answered inp c u := by
  by_contra hnever
  have hstill : ∀ u, t ≤ u → (run inp u).opStrobe c ≠ (inp u c).opStart := by
    intro u hu
    induction u, hu using Nat.le_induction with
    | base => exact hopen
    | succ u hu ih => exact fun heq => hnever ⟨u, hu, ih, heq⟩
  obtain ⟨u, hu, heq⟩ := eventually_answered hc t hrivals
  exact hstill u hu heq

/-! ## The memory -/

/-- The SDRAM controller implements a memory.  A read whose mask is off finds its
half-words in {lit}`data_out`, the first at the edge of the strobe and those of a burst
at the next seven; a write stores the half-words and masks presented in the strobe
cycle and the next seven; nothing else changes a cell.  A burst at a multiple of
eight takes the eight addresses from there on. -/
theorem sdram_implements_memory (inp : ℕ → Channel → MemChannelIn) (float : ℕ → BitVec 16)
    (mem : BitVec 24 → BitVec 16) (hc : ChannelContract inp) :
    (∀ t c, Answered inp c t → (inp (t + 1) c).opWren = false →
      ∀ k, k < beats (inp (t + 1) c).opBurst → (inp (t - 1 + k) c).opDqm = 0#2 →
        dataOutAt inp float mem (t + 1 + k) =
          cellsAt inp float mem (t + 1 + k) (beatAddr (inp (t + 1) c).opAddr k)) ∧
    (∀ t c, Answered inp c t → (inp (t + 1) c).opWren = true →
      ∀ k, k < beats (inp (t + 1) c).opBurst →
        cellsAt inp float mem (t + 1 + k) =
          Function.update (cellsAt inp float mem (t + k)) (beatAddr (inp (t + 1) c).opAddr k)
            (blend (inp (t + 1 + k) c).opDqm
              (cellsAt inp float mem (t + k) (beatAddr (inp (t + 1) c).opAddr k))
              (inp (t + 1 + k) c).writeData)) ∧
    (∀ u, cellsAt inp float mem (u + 1) ≠ cellsAt inp float mem u →
      ∃ t c k, Answered inp c t ∧ (inp (t + 1) c).opWren = true ∧
        k < beats (inp (t + 1) c).opBurst ∧ u = t + k) ∧
    cellsAt inp float mem 0 = mem ∧
    (∀ addr, beatAddr addr 0 = addr) ∧
    ∀ addr : BitVec 24, addr.toNat % 8 = 0 → ∀ k, k < 8 →
      beatAddr addr k = addr + BitVec.ofNat 24 k :=
  ⟨fun _ _ h hw _ hk hdqm => dataOut_of_answered hc float mem h hw hk hdqm,
    fun _ _ h hw _ hk => cells_of_answered hc float mem h hw hk,
    fun _ hne => answered_of_cells_ne hc hne, rfl, beatAddr_zero,
    fun _ ha _ hk => beatAddr_of_aligned ha hk⟩

/-- Channel 0 of the two that keep writing zeros is answered, and the zero is in memory. -/
theorem sdram_implements_memory_starving : ∃ t, Answered starvingInput 0 t ∧
    cellsAt starvingInput (fun _ => 0#16) (fun _ => 1#16) 0 0#24 = 1#16 ∧
    cellsAt starvingInput (fun _ => 0#16) (fun _ => 1#16) (t + 1) 0#24 = 0#16 := by
  obtain ⟨t, -, hans⟩ := exists_answered (t := 1) (c := 0) starvingInput_contract (by decide)
    fun _ _ d hd => absurd hd (Fin.not_lt_zero d)
  refine ⟨t, hans, rfl, ?_⟩
  have hw := (sdram_implements_memory starvingInput (fun _ => 0#16) (fun _ => 1#16)
    starvingInput_contract).2.1 t 0 hans rfl 0 Nat.zero_lt_one
  have haddr : beatAddr (starvingInput (t + 1) 0).opAddr 0 = 0#24 := beatAddr_zero _
  rw [haddr] at hw
  rw [show t + 1 = t + 1 + 0 from rfl, hw, Function.update_self]
  exact blend_zero _ _

end Sumeru
