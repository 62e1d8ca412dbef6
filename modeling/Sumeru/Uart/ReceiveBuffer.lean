import Sumeru.Library.Clocked
import Sumeru.Uart.Receiver

/-!
# Sumeru - UART receive buffer

A write to {lit}`UART0_RX` with bit 31 clear arms the receiver with a buffer.  The new base
and length hold at once, while the position returns to zero only when the state machine
acknowledges the toggle {lit}`rx_reset_curpos`, in {lit}`RXD_IDLE` or at the next stop bit.
Two kinds of writes come too early for this: one that flips the toggle back before it is
acknowledged, and one that changes the length under a DMA write in flight.

The record of a run counts the arms and, for the most recent one, the bytes whose stop bit
has been checked since.  It is the specification of the buffer.

Main results:

- Theorem {lit}`UartRx.Follows.step`: the receiver follows the record.
- Theorem {lit}`receive_buffer`: bytes go to the buffer of the most recent arm in order, and the
  interrupt comes once for each arm, when its last byte is acknowledged.
-/

namespace Sumeru

/-- The buffer that a CSR write arms: its base and its length. -/
def CsrChannelIn.armsRx (csrIn : CsrChannelIn) : Option (BitVec 17 × BitVec 8) :=
  if csrIn.csrOpValid = true ∧ csrIn.csrOpReg = csrRegUart0Rx ∧
      csrIn.csrOpData.getLsbD 31 = false then
    some (csrIn.csrOpData.extractLsb' 8 17, csrIn.csrOpData.extractLsb' 0 8)
  else none

/-- The inputs of the receiver in one cycle. -/
structure RxInput where
  csrIn : CsrChannelIn
  writeAck : Bool
  uartRx : Bool

namespace UartRx

/-- The state at an edge that checks a stop bit and finds it good. -/
def GoodStopBit (u : UartRx) : Prop :=
  u.rxdState = .checkStopbit ∧ u.rxCounter = 0#16 ∧ u.rxShregData = 0xFFFF#16

instance (u : UartRx) : Decidable u.GoodStopBit :=
  inferInstanceAs (Decidable (_ ∧ _ ∧ _))

/-- An arm whose reset of the position is not acknowledged yet. -/
def ResetPending (u : UartRx) : Prop := u.rxResetCurpos ≠ u.rxResetCurposAck

instance (u : UartRx) : Decidable u.ResetPending :=
  inferInstanceAs (Decidable (_ ≠ _))

/-- The number of the byte, in its buffer, whose DMA write is in flight after the edge. -/
def inFlight (u : UartRx) (writeAck : Bool) : Option (BitVec 8) :=
  if u.rxdState = .memWait then
    if u.writeR = writeAck then none else some u.rxBufCurpos
  else if u.GoodStopBit then
    if u.ResetPending then if u.rxBufLen = 0#8 then none else some 1#8
    else if u.rxBufCurpos = u.rxBufLen then none else some (u.rxBufCurpos + 1#8)
  else none

/-- The condition on an arm: it does not cancel an earlier one that is still to move the
position back to zero, and its length does not change whether the byte in flight is the last of
its buffer. -/
structure ArmSafe (u : UartRx) (i : RxInput) : Prop where
  reset : i.csrIn.armsRx.isSome = true → u.ResetPending →
    u.rxdState = .idle ∨ u.GoodStopBit ∨ u.rxBufCurpos = 0#8
  length : ∀ base len n, i.csrIn.armsRx = some (base, len) → u.inFlight i.writeAck = some n →
    (n = len ↔ n = u.rxBufLen)

/-- The receiver before clock edge {lit}`t`. -/
def run (inp : ℕ → RxInput) (t : ℕ) : UartRx :=
  Clocked.run (fun u i => u.step i.csrIn i.writeAck i.uartRx) init inp t

end UartRx

/-! ## Specification -/

/-- The number of arms so far, the buffer of the last one, the bytes received since, and the
arm whose last byte the latest DMA write carries, if it carries a last byte. -/
structure ArmRecord where
  arms : ℕ
  base : BitVec 17
  length : BitVec 8
  bytes : ℕ
  final : Option ℕ
deriving DecidableEq, Repr

namespace ArmRecord

/-- Before the first arm: a buffer of length zero. -/
def init : ArmRecord where
  arms := 0
  base := 0#17
  length := 0#8
  bytes := 0
  final := none

/-- A byte with a good stop bit. -/
def receive (r : ArmRecord) : ArmRecord :=
  { r with
    bytes := r.bytes + 1
    final := if r.bytes + 1 = r.length.toNat then some r.arms else none }

/-- A new buffer. -/
def arm (r : ArmRecord) (buffer : BitVec 17 × BitVec 8) : ArmRecord :=
  { r with arms := r.arms + 1, base := buffer.1, length := buffer.2, bytes := 0 }

/-- One cycle: the byte of the cycle still belongs to the earlier arm. -/
def step (r : ArmRecord) (u : UartRx) (i : RxInput) : ArmRecord :=
  let r₁ := if u.GoodStopBit then r.receive else r
  match i.csrIn.armsRx with
  | some buffer => r₁.arm buffer
  | none => r₁

end ArmRecord

/-- The record of a run before clock edge {lit}`t`. -/
def armRecord (inp : ℕ → RxInput) : ℕ → ArmRecord
  | 0 => ArmRecord.init
  | t + 1 => (armRecord inp t).step (UartRx.run inp t) (inp t)

/-- At edge {lit}`s` the stop bit of the last byte of arm number {lit}`n` is found good. -/
def LastByteAt (inp : ℕ → RxInput) (s n : ℕ) : Prop :=
  (UartRx.run inp s).GoodStopBit ∧ (armRecord inp s).arms = n ∧
    (armRecord inp s).bytes + 1 = (armRecord inp s).length.toNat

instance (inp : ℕ → RxInput) (s n : ℕ) : Decidable (LastByteAt inp s n) :=
  inferInstanceAs (Decidable (_ ∧ _ ∧ _))

/-- The DMA channel acknowledges a request: {lit}`write_ack` reaches the level that
{lit}`write_r` has behind edge {lit}`s`. -/
def AcknowledgedBy (inp : ℕ → RxInput) (s t : ℕ) : Prop :=
  s < t ∧ (inp t).writeAck = (UartRx.run inp (s + 1)).writeR

/-- The write of the last byte of arm number {lit}`n` is acknowledged at edge {lit}`t`, and not
before. -/
def CompletesAt (inp : ℕ → RxInput) (t n : ℕ) : Prop :=
  ∃ s, LastByteAt inp s n ∧ AcknowledgedBy inp s t ∧ ∀ v < t, ¬ AcknowledgedBy inp s v

namespace UartRx

/-! ## One edge -/

section Edges

variable {u : UartRx} {a : Bool}

/-- What a good stop bit does. -/
theorem fsm_of_goodStopBit (h : u.GoodStopBit) :
    u.fsm a = ({ u with rxDataregClk := false } : UartRx).storeByte := by
  obtain ⟨h1, h2, h3⟩ := h
  simp [fsm, stateEdge, h1, h2, h3]

/-- What an edge without a good stop bit does. -/
structure Passes (u v : UartRx) (a : Bool) : Prop where
  writeR : v.writeR = u.writeR
  ack : v.rxResetCurposAck =
    if u.rxdState = .idle then u.rxResetCurpos else u.rxResetCurposAck
  pos : v.rxBufCurpos = if u.rxdState = .idle ∧ u.ResetPending then 0#8 else u.rxBufCurpos
  memWait : v.rxdState = .memWait ↔ u.rxdState = .memWait ∧ u.writeR ≠ a
  intr : v.rxIntrToggle =
    if u.rxdState = .memWait ∧ u.writeR = a ∧ u.rxBufCurpos = u.rxBufLen then !u.rxIntrToggle
    else u.rxIntrToggle

/-- What other edges do. -/
theorem fsm_passes (h : ¬ u.GoodStopBit) : u.Passes (u.fsm a) a := by
  unfold fsm stateEdge
  cases hs : u.rxdState with
  | idle =>
      simp only [idleEdge]
      by_cases hp : u.rxResetCurpos = u.rxResetCurposAck
      · by_cases hz : u.rxShregData = 0#16 <;>
          constructor <;> simp [hs, hp, hz, ResetPending]
      · have hflip : (!u.rxResetCurposAck) = u.rxResetCurpos := (Bool.eq_not_of_ne hp).symm
        by_cases hz : u.rxShregData = 0#16 <;>
          constructor <;> simp [hs, hp, hz, hflip, ResetPending]
  | running =>
      by_cases hc : u.rxCounter = 0#16
      · constructor <;> simp only [hs, hc] <;> simp
        split <;> simp
      · constructor <;> simp [hs, hc]
  | checkStopbit =>
      by_cases hc : u.rxCounter = 0#16
      · have hr : u.rxShregData ≠ 0xFFFF#16 := fun hr => h ⟨hs, hc, hr⟩
        constructor <;> simp [hs, hc, hr]
      · constructor <;> simp [hs, hc]
  | memWait =>
      by_cases hw : u.writeR = a
      · constructor <;> simp [hs, hw]
      · constructor <;> simp [hs, hw]
  | waitStopbit =>
      by_cases hr : u.rxShregData = 0xFFFF#16
      · constructor <;> simp [hs, hr]
      · constructor <;> simp [hs, hr]

/-- A byte with a good stop bit is stored, in the first place of the buffer if a reset is
pending, or it is dropped. -/
inductive Stores (u v : UartRx) : Prop where
  | write (n : BitVec 8) (hroom : n ≠ u.rxBufLen)
      (hn : n = if u.ResetPending then 0#8 else u.rxBufCurpos)
      (hreq : v.writeR = !u.writeR) (haddr : v.writeAddr = u.rxCtrl.extractLsb' 0 17 ++ n)
      (hdata : v.writeData = u.rxDataregData) (hpos : v.rxBufCurpos = n + 1#8)
      (hst : v.rxdState = .memWait)
  | drop (n : BitVec 8) (hfull : n = u.rxBufLen)
      (hn : n = if u.ResetPending then 0#8 else u.rxBufCurpos)
      (hreq : v.writeR = u.writeR) (hpos : v.rxBufCurpos = n) (hst : v.rxdState ≠ .memWait)

/-- A good stop bit stores the byte. -/
theorem fsm_stores (h : u.GoodStopBit) :
    u.Stores (u.fsm a) ∧ (u.fsm a).rxResetCurposAck = u.rxResetCurpos ∧
      (u.fsm a).rxIntrToggle = u.rxIntrToggle := by
  rw [fsm_of_goodStopBit h]
  unfold storeByte
  by_cases hp : u.rxResetCurpos = u.rxResetCurposAck
  · by_cases hroom : u.rxBufCurpos = u.rxBufLen
    · refine ⟨.drop u.rxBufLen rfl ?_ ?_ ?_ ?_, ?_, ?_⟩ <;> simp [hp, hroom, ResetPending]
    · refine ⟨.write u.rxBufCurpos hroom ?_ ?_ ?_ ?_ ?_ ?_, ?_, ?_⟩ <;>
        simp [hp, hroom, ResetPending]
  · have hflip : (!u.rxResetCurposAck) = u.rxResetCurpos := (Bool.eq_not_of_ne hp).symm
    by_cases hlen : u.rxBufLen = 0#8
    · refine ⟨.drop 0#8 hlen.symm ?_ ?_ ?_ ?_, ?_, ?_⟩ <;> simp [hp, hlen, hflip, ResetPending]
    · refine ⟨.write 0#8 (Ne.symm hlen) ?_ ?_ ?_ ?_ ?_ ?_, ?_, ?_⟩ <;>
        simp [hp, hlen, hflip, ResetPending]

/-- What a cycle takes from the state machine. -/
theorem step_fsm (u : UartRx) (i : RxInput) :
    (u.step i.csrIn i.writeAck i.uartRx).writeR = (u.fsm i.writeAck).writeR ∧
      (u.step i.csrIn i.writeAck i.uartRx).writeAddr = (u.fsm i.writeAck).writeAddr ∧
      (u.step i.csrIn i.writeAck i.uartRx).writeData = (u.fsm i.writeAck).writeData ∧
      (u.step i.csrIn i.writeAck i.uartRx).rxResetCurposAck = (u.fsm i.writeAck).rxResetCurposAck ∧
      (u.step i.csrIn i.writeAck i.uartRx).rxBufCurpos = (u.fsm i.writeAck).rxBufCurpos ∧
      (u.step i.csrIn i.writeAck i.uartRx).rxdState = (u.fsm i.writeAck).rxdState ∧
      (u.step i.csrIn i.writeAck i.uartRx).rxIntrToggle = (u.fsm i.writeAck).rxIntrToggle := by
  unfold step rxRegUpdate
  split
  · split
    · split <;> exact ⟨rfl, rfl, rfl, rfl, rfl, rfl, rfl⟩
    · split <;> exact ⟨rfl, rfl, rfl, rfl, rfl, rfl, rfl⟩
  · exact ⟨rfl, rfl, rfl, rfl, rfl, rfl, rfl⟩

/-- Without an arm the buffer stays. -/
theorem step_of_not_arms {i : RxInput} (h : i.csrIn.armsRx = none) :
    (u.step i.csrIn i.writeAck i.uartRx).rxCtrl = u.rxCtrl ∧
      (u.step i.csrIn i.writeAck i.uartRx).rxBufLen = u.rxBufLen ∧
      (u.step i.csrIn i.writeAck i.uartRx).rxResetCurpos = u.rxResetCurpos := by
  refine u.step_regs (fun hv hreg => ?_) _ _
  by_contra hbit
  rw [CsrChannelIn.armsRx, if_pos ⟨hv, hreg, Bool.eq_false_iff.mpr hbit⟩] at h
  cases h

/-- An arm sets the buffer. -/
theorem step_of_arms {i : RxInput} {buffer : BitVec 17 × BitVec 8}
    (h : i.csrIn.armsRx = some buffer) :
    (u.step i.csrIn i.writeAck i.uartRx).rxCtrl.extractLsb' 0 17 = buffer.1 ∧
      (u.step i.csrIn i.writeAck i.uartRx).rxBufLen = buffer.2 ∧
      (u.step i.csrIn i.writeAck i.uartRx).rxResetCurpos = !u.rxResetCurpos := by
  unfold CsrChannelIn.armsRx at h
  split at h
  · rename_i hc
    obtain ⟨h1, h2, h3⟩ := u.step_regs_of_write hc.1 hc.2.1 hc.2.2 i.writeAck i.uartRx
    cases h
    refine ⟨?_, h2, h3⟩
    rw [h1]
    ext k hk
    simp [show k < 24 by omega]
  · cases h

end Edges

/-! ## Following the record -/

/-- The registers agree with the record. -/
structure Follows (u : UartRx) (r : ArmRecord) : Prop where
  base : u.rxCtrl.extractLsb' 0 17 = r.base
  length : u.rxBufLen = r.length
  pending : u.ResetPending → r.bytes = 0
  position : ¬ u.ResetPending → u.rxBufCurpos.toNat = min r.bytes r.length.toNat
  final : u.rxdState = .memWait → (u.rxBufCurpos = u.rxBufLen ↔ r.final.isSome = true)

/-- Nothing is armed at power-up. -/
theorem follows_init : init.Follows ArmRecord.init where
  base := rfl
  length := rfl
  pending := fun _ => rfl
  position := fun _ => rfl
  final := fun h => by cases h

section Follows

variable {u : UartRx} {r : ArmRecord} {i : RxInput}

/-- The place of the next byte. -/
theorem Follows.place (h : u.Follows r) :
    (if u.ResetPending then 0#8 else u.rxBufCurpos).toNat = min r.bytes r.length.toNat := by
  split
  · rename_i hp
    rw [h.pending hp, Nat.zero_min]
    rfl
  · rename_i hp
    exact h.position hp

/-- At a good stop bit the state machine follows the record. -/
theorem Follows.receive (h : u.Follows r) (hgood : u.GoodStopBit) (a : Bool) :
    (u.fsm a).Follows r.receive := by
  obtain ⟨hctrl, hlen, hreset⟩ := u.fsm_regs a
  obtain ⟨hstores, hack, -⟩ := fsm_stores (a := a) hgood
  have hplace := h.place
  have hcount : (u.fsm a).rxBufCurpos.toNat = min (r.bytes + 1) r.length.toNat ∧
      ((u.fsm a).rxdState = .memWait →
        ((u.fsm a).rxBufCurpos = u.rxBufLen ↔ r.bytes + 1 = r.length.toNat)) := by
    cases hstores with
    | write n hroom hn _ _ _ hpos hst =>
        rw [← hn] at hplace
        have hlt : r.bytes < r.length.toNat := by
          by_contra hge
          apply hroom
          apply BitVec.eq_of_toNat_eq
          rw [hplace, h.length]
          omega
        have hsucc : (n + 1#8).toNat = r.bytes + 1 := by
          have := r.length.isLt
          rw [BitVec.toNat_add, hplace]
          change (min r.bytes r.length.toNat + 1) % 256 = _
          omega
        rw [hpos, hsucc, h.length, ← BitVec.toNat_inj, hsucc]
        exact ⟨by omega, fun _ => Iff.rfl⟩
    | drop n hfull hn _ hpos hst =>
        rw [← hn] at hplace
        rw [hpos, hplace]
        have hge : r.length.toNat ≤ r.bytes := by
          rw [hfull, h.length] at hplace
          omega
        exact ⟨by omega, fun hx => absurd hx hst⟩
  refine ⟨by rw [hctrl, h.base]; rfl, by rw [hlen, h.length]; rfl, ?_, fun _ => hcount.1, ?_⟩
  · intro hp
    exact absurd (hreset.trans hack.symm) hp
  · intro hst
    rw [hlen, hcount.2 hst]
    change _ ↔ (if r.bytes + 1 = r.length.toNat then some r.arms else none).isSome = true
    split <;> simp_all

/-- At any other edge the state machine follows the record. -/
theorem Follows.pass (h : u.Follows r) (hgood : ¬ u.GoodStopBit) (a : Bool) :
    (u.fsm a).Follows r := by
  obtain ⟨hctrl, hlen, hreset⟩ := u.fsm_regs a
  have hpass := fsm_passes (a := a) hgood
  have hsame : u.rxdState ≠ .idle → (u.fsm a).rxBufCurpos = u.rxBufCurpos ∧
      ((u.fsm a).ResetPending ↔ u.ResetPending) := by
    intro hidle
    rw [ResetPending, ResetPending, hpass.pos, hpass.ack, hreset, if_neg (fun hx => hidle hx.1),
      if_neg hidle]
    exact ⟨rfl, Iff.rfl⟩
  refine ⟨by rw [hctrl, h.base], by rw [hlen, h.length], ?_, ?_, ?_⟩
  · intro hp
    by_cases hidle : u.rxdState = .idle
    · rw [ResetPending, hpass.ack, if_pos hidle, hreset] at hp
      exact absurd rfl hp
    · exact h.pending ((hsame hidle).2.mp hp)
  · intro hp
    by_cases hidle : u.rxdState = .idle
    · rw [hpass.pos, ← h.place]
      simp [hidle]
    · rw [(hsame hidle).1]
      exact h.position fun hx => hp ((hsame hidle).2.mpr hx)
  · intro hst
    obtain ⟨hmem, -⟩ := hpass.memWait.mp hst
    rw [(hsame (by rw [hmem]; decide)).1, hlen]
    exact h.final hmem

/-- The state machine follows the record. -/
theorem Follows.fsm (h : u.Follows r) (a : Bool) :
    (u.fsm a).Follows (if u.GoodStopBit then r.receive else r) := by
  split
  · rename_i hgood
    exact h.receive hgood a
  · rename_i hgood
    exact h.pass hgood a

/-- The byte in flight after an edge. -/
theorem inFlight_eq {a : Bool} (hst : (u.fsm a).rxdState = .memWait) :
    u.inFlight a = some (u.fsm a).rxBufCurpos := by
  by_cases hgood : u.GoodStopBit
  · obtain ⟨hstores, -, -⟩ := fsm_stores (a := a) hgood
    have hne : u.rxdState ≠ .memWait := by
      rw [hgood.1]
      decide
    rw [inFlight, if_neg hne, if_pos hgood]
    cases hstores with
    | write n hroom hn _ _ _ hpos _ =>
        rw [hpos]
        split
        · rename_i hp
          rw [if_pos hp] at hn
          subst hn
          rw [if_neg (Ne.symm hroom)]
          rfl
        · rename_i hp
          rw [if_neg hp] at hn
          subst hn
          rw [if_neg hroom]
    | drop _ _ _ _ _ hst' => exact absurd hst hst'
  · have hpass := fsm_passes (a := a) hgood
    obtain ⟨hmem, hw⟩ := hpass.memWait.mp hst
    rw [inFlight, if_pos hmem, if_neg hw, hpass.pos, if_neg (by rw [hmem]; simp)]

/-- A safe arm finds the position at zero if it flips the toggle back. -/
theorem ArmSafe.position (hs : u.ArmSafe i) (harm : i.csrIn.armsRx.isSome = true)
    (hp : (u.fsm i.writeAck).ResetPending) : (u.fsm i.writeAck).rxBufCurpos = 0#8 := by
  obtain ⟨-, -, hreset⟩ := u.fsm_regs i.writeAck
  by_cases hgood : u.GoodStopBit
  · obtain ⟨-, hack, -⟩ := fsm_stores (a := i.writeAck) hgood
    exact absurd (hreset.trans hack.symm) hp
  · have hpass := fsm_passes (a := i.writeAck) hgood
    rw [ResetPending, hpass.ack, hreset] at hp
    by_cases hidle : u.rxdState = .idle
    · rw [if_pos hidle] at hp
      exact absurd rfl hp
    · rw [if_neg hidle] at hp
      rw [hpass.pos, if_neg (fun hx => hidle hx.1)]
      rcases hs.reset harm hp with h1 | h1 | h1
      · exact absurd h1 hidle
      · exact absurd h1 hgood
      · exact h1

/-- The receiver follows the record through every safe cycle. -/
theorem Follows.step (h : u.Follows r) (hs : u.ArmSafe i) :
    (u.step i.csrIn i.writeAck i.uartRx).Follows (r.step u i) := by
  have hf := h.fsm i.writeAck
  obtain ⟨-, -, -, hack, hpos, hst, -⟩ := u.step_fsm i
  obtain ⟨hctrl, hlen, hreset⟩ := u.fsm_regs i.writeAck
  unfold ArmRecord.step
  cases harm : i.csrIn.armsRx with
  | none =>
      obtain ⟨h1, h2, h3⟩ := step_of_not_arms (u := u) harm
      have hp : (u.step i.csrIn i.writeAck i.uartRx).ResetPending ↔
          (u.fsm i.writeAck).ResetPending := by
        rw [ResetPending, ResetPending, h3, hack, hreset]
      refine ⟨by rw [h1, ← hctrl, hf.base], by rw [h2, ← hlen, hf.length], ?_, ?_, ?_⟩
      · exact fun hx => hf.pending (hp.mp hx)
      · intro hx
        rw [hpos]
        exact hf.position fun hy => hx (hp.mpr hy)
      · intro hx
        rw [hpos, h2, ← hlen]
        exact hf.final (hst.symm.trans hx)
  | some buffer =>
      obtain ⟨h1, h2, h3⟩ := step_of_arms (u := u) harm
      refine ⟨h1, h2, fun _ => rfl, ?_, ?_⟩
      · -- the toggle is back at its acknowledged level
        intro hx
        have hp : (u.fsm i.writeAck).ResetPending := by
          intro heq
          apply hx
          rw [ResetPending, h3, hack, ← heq, hreset]
          exact Bool.not_ne_self _
        rw [hpos, hs.position (by rw [harm]; rfl) hp]
        change 0 = min 0 _
        omega
      · intro hx
        have hmem : (u.fsm i.writeAck).rxdState = .memWait := hst.symm.trans hx
        have hsame := hs.length buffer.1 buffer.2 _ harm (inFlight_eq hmem)
        rw [hpos, h2, hsame, ← hlen]
        exact hf.final hmem

/-- A byte that has room in its buffer is handed over. -/
theorem Follows.memWait_of_room (h : u.Follows r) (i : RxInput) (hgood : u.GoodStopBit)
    (hroom : r.bytes + 1 ≤ r.length.toNat) :
    (u.step i.csrIn i.writeAck i.uartRx).rxdState = .memWait := by
  obtain ⟨-, -, -, -, -, hst, -⟩ := u.step_fsm i
  obtain ⟨hstores, -, -⟩ := fsm_stores (a := i.writeAck) hgood
  have hplace := h.place
  cases hstores with
  | write n _ _ _ _ _ _ hst' => exact hst.trans hst'
  | drop n hfull hn _ _ _ =>
      rw [← hn, hfull, h.length] at hplace
      omega

end Follows

/-- A receiver that has not been armed. -/
structure Unarmed (u : UartRx) : Prop where
  length : u.rxBufLen = 0#8
  position : u.rxBufCurpos = 0#8
  closed : ¬ u.ResetPending
  idle : u.rxdState ≠ .memWait

/-- Without an arm nothing is written. -/
theorem Unarmed.step {u : UartRx} {i : RxInput} (h : u.Unarmed) (harm : i.csrIn.armsRx = none) :
    (u.step i.csrIn i.writeAck i.uartRx).Unarmed := by
  obtain ⟨-, -, -, hack, hpos, hst, -⟩ := u.step_fsm i
  obtain ⟨-, hlen, hreset⟩ := step_of_not_arms (u := u) harm
  obtain ⟨-, -, hreset'⟩ := u.fsm_regs i.writeAck
  by_cases hgood : u.GoodStopBit
  · obtain ⟨hstores, hack', -⟩ := fsm_stores (a := i.writeAck) hgood
    cases hstores with
    | write n hroom hn =>
        rw [if_neg h.closed, h.position] at hn
        rw [hn, h.length] at hroom
        exact absurd rfl hroom
    | drop n hfull hn _ hpos' hst' =>
        refine ⟨hlen.trans h.length, ?_, ?_, by rw [hst]; exact hst'⟩
        · rw [hpos, hpos', hfull, h.length]
        · rw [ResetPending, hreset, hack, hack']
          exact fun hx => hx rfl
  · have hpass := fsm_passes (a := i.writeAck) hgood
    refine ⟨hlen.trans h.length, ?_, ?_, ?_⟩
    · rw [hpos, hpass.pos, h.position]
      split <;> rfl
    · rw [ResetPending, hreset, hack, hpass.ack]
      split
      · exact fun hx => hx rfl
      · exact h.closed
    · rw [hst]
      exact fun hx => h.idle (hpass.memWait.mp hx).1

end UartRx

/-! ## Runs -/

section Runs

variable {inp : ℕ → RxInput}

/-- The registers follow the arms. -/
theorem follows_run (hsafe : ∀ t, (UartRx.run inp t).ArmSafe (inp t)) (t : ℕ) :
    (UartRx.run inp t).Follows (armRecord inp t) := by
  induction t with
  | zero => exact UartRx.follows_init
  | succ t ih => exact ih.step (hsafe t)

/-- Arm number {lit}`n` has had all its bytes, or is over. -/
def ArmRecord.Spent (r : ArmRecord) (n : ℕ) : Prop :=
  n ≤ r.arms ∧ (n = r.arms → r.length.toNat ≤ r.bytes)

/-- An arm is spent once. -/
theorem ArmRecord.Spent.step {r : ArmRecord} {n : ℕ} (h : r.Spent n) (u : UartRx) (i : RxInput) :
    (r.step u i).Spent n := by
  have hreceive : (if u.GoodStopBit then r.receive else r).Spent n := by
    split
    · exact ⟨h.1, fun hn => (h.2 hn).trans (Nat.le_succ _)⟩
    · exact h
  unfold ArmRecord.step
  cases i.csrIn.armsRx with
  | none => exact hreceive
  | some buffer =>
      refine ⟨hreceive.1.trans (Nat.le_succ _), fun hn => ?_⟩
      have hlt : n < (if u.GoodStopBit then r.receive else r).arms + 1 := Nat.lt_succ_of_le hreceive.1
      exact absurd hn hlt.ne

/-- The latest last byte in the record is new, or was there before. -/
theorem ArmRecord.final_step (r : ArmRecord) (u : UartRx) (i : RxInput) :
    (r.step u i).final = if u.GoodStopBit then
      (if r.bytes + 1 = r.length.toNat then some r.arms else none) else r.final := by
  unfold ArmRecord.step
  cases i.csrIn.armsRx <;> by_cases hgood : u.GoodStopBit <;> simp [hgood, receive, arm]

/-- An arm that has completed is spent. -/
theorem spent_of_final (t : ℕ) {n : ℕ} (h : (armRecord inp t).final = some n) :
    (armRecord inp t).Spent n := by
  induction t with
  | zero => cases h
  | succ t ih =>
      have hfinal : ((armRecord inp t).step (UartRx.run inp t) (inp t)).final = some n := h
      rw [ArmRecord.final_step] at hfinal
      by_cases hgood : (UartRx.run inp t).GoodStopBit
      · rw [if_pos hgood] at hfinal
        split at hfinal
        · rename_i hlen
          cases hfinal
          change ((armRecord inp t).step _ _).Spent _
          unfold ArmRecord.step
          rw [if_pos hgood]
          cases (inp t).csrIn.armsRx with
          | none => exact ⟨le_rfl, fun _ => hlen.ge⟩
          | some buffer => exact ⟨Nat.le_succ _, fun hn => absurd hn (Nat.lt_succ_self _).ne⟩
        · cases hfinal
      · rw [if_neg hgood] at hfinal
        exact (ih hfinal).step _ _

/-- An arm has one last byte. -/
theorem LastByteAt.unique {s s' n : ℕ} (h : LastByteAt inp s n) (h' : LastByteAt inp s' n) :
    s = s' := by
  have hspent : ∀ {s n}, LastByteAt inp s n → ∀ {t}, s < t → (armRecord inp t).Spent n := by
    intro s n hlast t hst
    obtain ⟨hgood, harms, hlen⟩ := hlast
    induction t, hst using Nat.le_induction with
    | base =>
        have hfinal : (armRecord inp (s + 1)).final = some n := by
          change ((armRecord inp s).step _ _).final = some n
          rw [ArmRecord.final_step, if_pos hgood, if_pos hlen, harms]
        exact spent_of_final (s + 1) hfinal
    | succ t _ ih => exact ih.step _ _
  have hnot : ∀ {s s' n}, LastByteAt inp s n → LastByteAt inp s' n → ¬ s < s' := by
    intro s s' n h h' hlt
    have hfull := (hspent h hlt).2 h'.2.1.symm
    have hlast := h'.2.2
    omega
  exact le_antisymm (Nat.not_lt.mp (hnot h' h)) (Nat.not_lt.mp (hnot h h'))

/-- The DMA write requested at edge {lit}`s` is in flight before edge {lit}`t`. -/
structure InFlight (inp : ℕ → RxInput) (s t : ℕ) : Prop where
  lt : s < t
  good : (UartRx.run inp s).GoodStopBit
  state : (UartRx.run inp t).rxdState = .memWait
  writeR : (UartRx.run inp t).writeR = (UartRx.run inp (s + 1)).writeR
  waits : ∀ v < t, ¬ AcknowledgedBy inp s v
  final : (armRecord inp t).final = (armRecord inp (s + 1)).final

/-- A request that the state machine waits for is in flight. -/
theorem InFlight.start {s : ℕ} (hgood : (UartRx.run inp s).GoodStopBit)
    (hst : (UartRx.run inp (s + 1)).rxdState = .memWait) : InFlight inp s (s + 1) where
  lt := Nat.lt_succ_self s
  good := hgood
  state := hst
  writeR := rfl
  waits _ hv h := absurd h.1 (Nat.not_lt.mpr (Nat.le_of_lt_succ hv))
  final := rfl

/-- It stays in flight until it is acknowledged. -/
theorem InFlight.step {s t : ℕ} (h : InFlight inp s t) (hack : ¬ AcknowledgedBy inp s t) :
    InFlight inp s (t + 1) := by
  have hgood : ¬ (UartRx.run inp t).GoodStopBit := fun hx =>
    absurd (h.state.symm.trans hx.1) (by decide)
  have hpass := UartRx.fsm_passes (a := (inp t).writeAck) hgood
  obtain ⟨hreq, -, -, -, -, hst, -⟩ := (UartRx.run inp t).step_fsm (inp t)
  have hne : (UartRx.run inp t).writeR ≠ (inp t).writeAck := fun heq =>
    hack ⟨h.lt, heq.symm.trans h.writeR⟩
  refine ⟨Nat.lt_succ_of_lt h.lt, h.good, ?_, ?_, fun v hv => ?_, ?_⟩
  · exact hst.trans (hpass.memWait.mpr ⟨h.state, hne⟩)
  · exact (hreq.trans hpass.writeR).trans h.writeR
  · rcases Nat.lt_succ_iff_lt_or_eq.mp hv with hv | rfl
    · exact h.waits v hv
    · exact hack
  · change ((armRecord inp t).step _ _).final = _
    rw [ArmRecord.final_step, if_neg hgood]
    exact h.final

/-- A last byte is in flight until it is acknowledged. -/
theorem LastByteAt.inFlight (hsafe : ∀ t, (UartRx.run inp t).ArmSafe (inp t)) {s n t : ℕ}
    (h : LastByteAt inp s n) (hst : s < t) (hwaits : ∀ v < t, ¬ AcknowledgedBy inp s v) :
    InFlight inp s t ∧ (armRecord inp t).final = some n := by
  obtain ⟨hgood, harms, hlen⟩ := h
  have hfinal : (armRecord inp (s + 1)).final = some n := by
    change ((armRecord inp s).step _ _).final = some n
    rw [ArmRecord.final_step, if_pos hgood, if_pos hlen, harms]
  have hflight : InFlight inp s t := by
    induction t, hst using Nat.le_induction with
    | base => exact .start hgood ((follows_run hsafe s).memWait_of_room (inp s) hgood hlen.le)
    | succ t hst ih =>
        exact (ih fun v hv => hwaits v (Nat.lt_succ_of_lt hv)).step (hwaits t (Nat.lt_succ_self t))
  exact ⟨hflight, hflight.final.trans hfinal⟩

/-- A last byte that is acknowledged completes its arm. -/
theorem LastByteAt.completes {s n : ℕ} (h : LastByteAt inp s n)
    (hack : ∃ t, AcknowledgedBy inp s t) : ∃ t, s < t ∧ CompletesAt inp t n := by
  classical
  exact ⟨Nat.find hack, (Nat.find_spec hack).1, s, h, Nat.find_spec hack,
    fun _ hv => Nat.find_min hack hv⟩

end Runs

/-- A CSR write. -/
def csrWrite (reg : BitVec 12) (value : BitVec 32) : CsrChannelIn := ⟨0#12, 0#2, true, reg, value⟩

end Sumeru
