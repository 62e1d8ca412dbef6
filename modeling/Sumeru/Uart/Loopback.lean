import Sumeru.Library.Clocked
import Sumeru.Uart.ReceiveBuffer
import Sumeru.Uart.Transmitter

/-!
# Sumeru - UART loopback

The transmitter with its line connected to the receiver.  The bit times of the two differ:
the transmitter needs {lit}`2 * (B + 1)` cycles for a bit, the receiver samples every
{lit}`2 * B + 1` cycles after a first wait of {lit}`3 * B - 16`.  Both sides are described by
the number {lit}`τ` of cycles since the start bit began, so that the drift between them is an
inequality in {lit}`τ`.

Main results:

- Theorem {lit}`UartRx.Receiving.step`: the receiver follows a frame on the line.
- Theorem {lit}`Loopback.Run.Admissible.phase`: transmitter, line and receiver fit together in
  every cycle.
- Theorem {lit}`loopback_recovers`: the receiver recovers the bytes that are sent.
-/

namespace Sumeru

namespace UartRx

/-! ## The receiver on a frame -/

/-- The baud settings that belong to the transmit setting {lit}`B`. -/
structure BaudSet (u : UartRx) (B : ℕ) : Prop where
  rxBaudA : u.rxBaudA.toNat = 3 * B - 16
  rxBaudB : u.rxBaudB.toNat = 2 * B

/-- The shift register holds the last sixteen levels, after a high line. -/
def Seen (u : UartRx) (level : ℕ → Bool) (τ : ℕ) : Prop :=
  ∀ k, k < 16 → u.rxShregData.getLsbD (15 - k) = if k < τ then level (τ - 1 - k) else true

/-- Where the receiver stands {lit}`τ` cycles after the beginning of the start bit. -/
inductive Receiving (u : UartRx) (B : ℕ) (byte : BitVec 8) (τ : ℕ) : Prop where
  | start (hτ : τ ≤ 16) (hst : u.rxdState = .idle)
  | data (i : ℕ) (hi : i < 8) (hst : u.rxdState = .running) (hbit : u.rxBitnr.toNat = i)
      (hctr : τ + u.rxCounter.toNat = 3 * B + 1 + i * (2 * B + 1))
      (hclk : u.rxCounter = 0#16 → u.rxDataregClk = false)
      (hdata : ∀ k, k < i → u.rxDataregData.getLsbD (8 - i + k) = byte.getLsbD k)
  | stop (hst : u.rxdState = .checkStopbit) (hctr : τ + u.rxCounter.toNat = 19 * B + 9)
      (hdata : u.rxDataregData = byte)

section Frame

variable {u : UartRx} {csrIn : CsrChannelIn} {a x : Bool} {B τ : ℕ} {byte : BitVec 8}

/-- What a cycle takes from the state machine and from the line. -/
theorem step_line (u : UartRx) (csrIn : CsrChannelIn) (a x : Bool) :
    (u.step csrIn a x).rxdState = (u.fsm a).rxdState ∧
      (u.step csrIn a x).rxCounter = (u.fsm a).rxCounter ∧
      (u.step csrIn a x).rxBitnr = (u.fsm a).rxBitnr ∧
      (u.step csrIn a x).rxDataregClk = (u.fsm a).rxDataregClk ∧
      (u.step csrIn a x).rxShregData = BitVec.ofBool x ++ u.rxShregData.extractLsb' 1 15 ∧
      (u.step csrIn a x).rxDataregData =
        if u.rxDataregClk = false ∧ (u.fsm a).rxDataregClk = true then
          BitVec.ofBool x ++ u.rxDataregData.extractLsb' 1 7
        else u.rxDataregData := by
  unfold step rxRegUpdate
  split
  · split
    · split <;> exact ⟨rfl, rfl, rfl, rfl, rfl, rfl⟩
    · split <;> exact ⟨rfl, rfl, rfl, rfl, rfl, rfl⟩
  · exact ⟨rfl, rfl, rfl, rfl, rfl, rfl⟩

/-- Nobody else sets the baud registers. -/
theorem BaudSet.step (h : u.BaudSet B)
    (hbaud : csrIn.csrOpValid = true → csrIn.csrOpReg ≠ csrRegUart0RxBaud) :
    (u.step csrIn a x).BaudSet B := by
  have hsame : (u.step csrIn a x).rxBaudA = u.rxBaudA ∧ (u.step csrIn a x).rxBaudB = u.rxBaudB := by
    obtain ⟨h1, h2⟩ := u.fsm_baud a
    unfold UartRx.step rxRegUpdate
    split
    · rename_i hv
      split
      · split <;> exact ⟨h1, h2⟩
      · rw [if_neg (hbaud hv)]
        exact ⟨h1, h2⟩
    · exact ⟨h1, h2⟩
  exact ⟨by rw [hsame.1, h.rxBaudA], by rw [hsame.2, h.rxBaudB]⟩

/-- The shift register takes in the next level. -/
theorem Seen.step {level : ℕ → Bool} (h : u.Seen level τ) :
    (u.step csrIn a (level τ)).Seen level (τ + 1) := by
  obtain ⟨-, -, -, -, hsh, -⟩ := u.step_line csrIn a (level τ)
  intro k hk
  rw [hsh, BitVec.getLsbD_append]
  cases k with
  | zero => simp
  | succ k =>
      have hlt : 15 - (k + 1) < 15 := by omega
      have hidx : 1 + (15 - (k + 1)) = 15 - k := by omega
      rw [if_pos hlt, BitVec.getLsbD_extractLsb', hidx, h k (by omega), decide_eq_true hlt,
        Bool.true_and]
      by_cases hkτ : k < τ
      · rw [if_pos hkτ, if_pos (by omega)]
        exact congrArg level (by omega)
      · rw [if_neg hkτ, if_neg (by omega)]

/-- After sixteen equal levels the shift register shows nothing else. -/
theorem Seen.const {level : ℕ → Bool} (h : u.Seen level τ) (h16 : 16 ≤ τ) {b : Bool}
    (hb : ∀ k, k < 16 → level (τ - 1 - k) = b) :
    u.rxShregData = if b = true then 0xFFFF#16 else 0#16 := by
  have hall : ∀ j, j < 16 → u.rxShregData.getLsbD j = b := by
    intro j hj
    have hbit := h (15 - j) (by omega)
    rwa [show 15 - (15 - j) = j by omega, if_pos (by omega), hb (15 - j) (by omega)] at hbit
  apply BitVec.eq_of_getLsbD_eq
  intro j hj
  rw [hall j hj]
  cases b with
  | false => simp
  | true =>
      have hones : ∀ j, j < 16 → (0xFFFF#16).getLsbD j = true := by decide
      exact (hones j hj).symm

/-- A start bit is not over before 16 samples. -/
theorem Seen.not_zero {level : ℕ → Bool} (h : u.Seen level τ) (h16 : τ < 16) :
    u.rxShregData ≠ 0#16 := by
  intro hz
  have hbit := h 15 (by omega)
  rw [hz, if_neg (by omega)] at hbit
  simp at hbit

/-! The moments at which the receiver looks at the line. -/

/-- The start bit fills the first bit time. -/
theorem frameLevel_start (hτ : τ < 2 * (B + 1)) : UartTx.frameLevel B byte τ = false := by
  rw [UartTx.frameLevel, Nat.div_eq_of_lt hτ]

/-- Each sample falls into its bit: the drift of {lit}`i` cycles stays below the margin. -/
theorem frameLevel_sample {i : ℕ} (hB : 32 ≤ B) (hi : i < 8) :
    UartTx.frameLevel B byte (3 * B + 1 + i * (2 * B + 1)) = byte.getLsbD i := by
  have hdiv : (3 * B + 1 + i * (2 * B + 1)) / (2 * (B + 1)) = i + 1 := by
    apply Nat.div_eq_of_lt_le
    · interval_cases i <;> omega
    · interval_cases i <;> omega
  rw [UartTx.frameLevel, hdiv]
  exact if_pos hi

/-- The line is high from the stop bit on. -/
theorem frameLevel_stop (hτ : 9 * (2 * (B + 1)) ≤ τ) : UartTx.frameLevel B byte τ = true := by
  have hdiv : 9 ≤ τ / (2 * (B + 1)) := (Nat.le_div_iff_mul_le (by omega)).mpr hτ
  unfold UartTx.frameLevel
  cases hk : τ / (2 * (B + 1)) with
  | zero => omega
  | succ k => exact if_neg (by omega)

/-- Sixteen low samples show the start bit. -/
theorem Seen.start_bit (h : u.Seen (UartTx.frameLevel B byte) 16) (hB : 32 ≤ B) :
    u.rxShregData = 0#16 :=
  h.const le_rfl fun k _ => frameLevel_start (by omega)

/-- Sixteen high samples show the stop bit. -/
theorem Seen.stop_bit (h : u.Seen (UartTx.frameLevel B byte) τ)
    (hτ : 9 * (2 * (B + 1)) + 16 ≤ τ) : u.rxShregData = 0xFFFF#16 :=
  h.const (by omega) fun k hk => frameLevel_stop (by omega)

/-- The receiver waits for a start bit. -/
theorem fsm_idle (hst : u.rxdState = .idle) :
    (u.fsm a).rxdState = (if u.rxShregData = 0#16 then .running else .idle) ∧
      (u.rxShregData = 0#16 → (u.fsm a).rxCounter = u.rxBaudA ∧ (u.fsm a).rxBitnr = 0#4) := by
  unfold fsm stateEdge
  rw [hst]
  dsimp only
  unfold idleEdge
  by_cases hz : u.rxShregData = 0#16 <;>
    by_cases hp : u.rxResetCurpos = u.rxResetCurposAck <;> simp [hz, hp]

/-- The receiver counts down. -/
theorem fsm_count (hst : u.rxdState = .running ∨ u.rxdState = .checkStopbit)
    (hc : u.rxCounter ≠ 0#16) :
    u.fsm a = { u with rxDataregClk := false, rxCounter := u.rxCounter - 1#16 } := by
  rcases hst with hst | hst <;> simp [fsm, stateEdge, hst, hc]

/-- The receiver takes a sample. -/
theorem fsm_sample (hst : u.rxdState = .running) (hc : u.rxCounter = 0#16) :
    u.fsm a = { u with
      rxDataregClk := true
      rxCounter := u.rxBaudB
      rxBitnr := u.rxBitnr + 1#4
      rxdState := if u.rxBitnr = 0b0111#4 then .checkStopbit else .running } := by
  simp [fsm, stateEdge, hst, hc]

/-- The counter counts down. -/
theorem counter_sub_one {c : BitVec 16} (h : c ≠ 0#16) : (c - 1#16).toNat + 1 = c.toNat := by
  bv_omega

/-- A sampled bit comes in at the top of the data register. -/
theorem datareg_shift {d : BitVec 8} {i : ℕ} (hi : i < 8)
    (h : ∀ k, k < i → d.getLsbD (8 - i + k) = byte.getLsbD k) {k : ℕ} (hk : k < i + 1) :
    (BitVec.ofBool (byte.getLsbD i) ++ d.extractLsb' 1 7).getLsbD (8 - (i + 1) + k) =
      byte.getLsbD k := by
  rw [BitVec.getLsbD_append]
  by_cases hki : k = i
  · subst hki
    rw [if_neg (by omega), show 8 - (k + 1) + k - 7 = 0 by omega]
    simp
  · rw [if_pos (by omega), BitVec.getLsbD_extractLsb', decide_eq_true (by omega), Bool.true_and,
      show 1 + (8 - (i + 1) + k) = 8 - i + k by omega]
    exact h k (by omega)

/-- Before the start bit is seen the receiver idles; sixteen low samples start it. -/
theorem Receiving.step_start (hst : u.rxdState = .idle) (h16 : τ ≤ 16)
    (hs : u.Seen (UartTx.frameLevel B byte) τ) (hb : u.BaudSet B) (hB : 32 ≤ B) :
    (u.step csrIn a (UartTx.frameLevel B byte τ)).Receiving B byte (τ + 1) := by
  obtain ⟨e1, e2, e3, -, -, -⟩ := u.step_line csrIn a (UartTx.frameLevel B byte τ)
  obtain ⟨f1, f2⟩ := fsm_idle (a := a) hst
  by_cases hlt : τ < 16
  · refine .start (by omega) ?_
    rw [e1, f1, if_neg (hs.not_zero hlt)]
  · have heq : τ = 16 := by omega
    subst heq
    have hz := hs.start_bit hB
    obtain ⟨g1, g2⟩ := f2 hz
    have hA : (u.step csrIn a (UartTx.frameLevel B byte 16)).rxCounter.toNat = 3 * B - 16 := by
      rw [e2, g1, hb.rxBaudA]
    refine .data 0 (by omega) ?_ ?_ ?_ ?_ (fun k hk => absurd hk (Nat.not_lt_zero k))
    · rw [e1, f1, if_pos hz]
    · rw [e3, g2]
      rfl
    · rw [hA]
      omega
    · intro h0
      rw [h0] at hA
      change 0 = _ at hA
      omega

/-- The sample of data bit {lit}`i`. -/
theorem Receiving.step_sample {i : ℕ} (hi : i < 8) (hst : u.rxdState = .running)
    (hbit : u.rxBitnr.toNat = i) (hτ : τ = 3 * B + 1 + i * (2 * B + 1))
    (hclk : u.rxDataregClk = false)
    (hdata : ∀ k, k < i → u.rxDataregData.getLsbD (8 - i + k) = byte.getLsbD k)
    (hc : u.rxCounter = 0#16) (hb : u.BaudSet B) (hB : 32 ≤ B) :
    (u.step csrIn a (UartTx.frameLevel B byte τ)).Receiving B byte (τ + 1) := by
  obtain ⟨e1, e2, e3, -, -, e6⟩ := u.step_line csrIn a (UartTx.frameLevel B byte τ)
  have hlevel : UartTx.frameLevel B byte τ = byte.getLsbD i := by
    rw [hτ]
    exact frameLevel_sample hB hi
  have hreg : (u.step csrIn a (UartTx.frameLevel B byte τ)).rxDataregData =
      BitVec.ofBool (byte.getLsbD i) ++ u.rxDataregData.extractLsb' 1 7 := by
    rw [e6, fsm_sample hst hc, hlevel, if_pos ⟨hclk, rfl⟩]
  have hcount : (u.step csrIn a (UartTx.frameLevel B byte τ)).rxCounter.toNat = 2 * B := by
    rw [e2, fsm_sample hst hc]
    exact hb.rxBaudB
  by_cases h7 : u.rxBitnr = 0b0111#4
  · have hi7 : i = 7 := by
      rw [← hbit, h7]
      rfl
    subst hi7
    refine .stop ?_ ?_ ?_
    · rw [e1, fsm_sample hst hc]
      exact if_pos h7
    · rw [hcount]
      omega
    · rw [hreg]
      apply BitVec.eq_of_getLsbD_eq
      intro k hk
      have hshift := datareg_shift hi hdata hk
      simpa using hshift
  · have hi7 : i ≠ 7 := by
      intro hx
      apply h7
      apply BitVec.eq_of_toNat_eq
      rw [hbit, hx]
      rfl
    refine .data (i + 1) (by omega) ?_ ?_ ?_ ?_ ?_
    · rw [e1, fsm_sample hst hc]
      exact if_neg h7
    · rw [e3, fsm_sample hst hc]
      change (u.rxBitnr + 1#4).toNat = i + 1
      rw [BitVec.toNat_add, hbit]
      change (i + 1) % 16 = i + 1
      omega
    · have hmul : (i + 1) * (2 * B + 1) = i * (2 * B + 1) + (2 * B + 1) := Nat.succ_mul _ _
      omega
    · intro h0
      rw [h0] at hcount
      change 0 = _ at hcount
      omega
    · intro k hk
      rw [hreg]
      exact datareg_shift hi hdata hk

/-- Between two samples only the counter moves. -/
theorem step_count (csrIn : CsrChannelIn) (a : Bool)
    (hst : u.rxdState = .running ∨ u.rxdState = .checkStopbit)
    (hc : u.rxCounter ≠ 0#16) (level : Bool) :
    (u.step csrIn a level).rxdState = u.rxdState ∧ (u.step csrIn a level).rxBitnr = u.rxBitnr ∧
      (u.step csrIn a level).rxCounter.toNat + 1 = u.rxCounter.toNat ∧
      (u.step csrIn a level).rxDataregClk = false ∧
      (u.step csrIn a level).rxDataregData = u.rxDataregData := by
  obtain ⟨e1, e2, e3, e4, -, e6⟩ := u.step_line csrIn a level
  have hf := fsm_count (a := a) hst hc
  refine ⟨by rw [e1, hf], by rw [e3, hf], ?_, by rw [e4, hf], ?_⟩
  · rw [e2, hf]
    exact counter_sub_one hc
  · rw [e6, hf, if_neg (fun hx => Bool.false_ne_true hx.2)]

/-- The receiver follows the frame. -/
theorem Receiving.step (h : u.Receiving B byte τ) (hs : u.Seen (UartTx.frameLevel B byte) τ)
    (hb : u.BaudSet B) (hB : 32 ≤ B) (hτ : τ < 19 * B + 9) :
    (u.step csrIn a (UartTx.frameLevel B byte τ)).Receiving B byte (τ + 1) := by
  cases h with
  | start h16 hst => exact step_start hst h16 hs hb hB
  | data i hi hst hbit hctr hclk hdata =>
      by_cases hc : u.rxCounter = 0#16
      · have hτi : τ = 3 * B + 1 + i * (2 * B + 1) := by
          rw [hc] at hctr
          exact hctr
        exact step_sample hi hst hbit hτi (hclk hc) hdata hc hb hB
      · obtain ⟨g1, g2, g3, g4, g5⟩ := step_count csrIn a (.inl hst) hc
          (UartTx.frameLevel B byte τ)
        refine .data i hi (g1.trans hst) (by rw [g2, hbit]) (by omega) (fun _ => g4) ?_
        rw [g5]
        exact hdata
  | stop hst hctr hdata =>
      have hc : u.rxCounter ≠ 0#16 := by
        intro hx
        rw [hx] at hctr
        change τ + 0 = _ at hctr
        omega
      obtain ⟨g1, -, g3, -, g5⟩ := step_count csrIn a (.inr hst) hc
        (UartTx.frameLevel B byte τ)
      exact .stop (g1.trans hst) (by omega) (by rw [g5]; exact hdata)

/-- The stop bit is checked once, and it is good. -/
theorem Receiving.goodStopBit_iff (h : u.Receiving B byte τ)
    (hs : u.Seen (UartTx.frameLevel B byte) τ) (hB : 32 ≤ B) :
    u.GoodStopBit ↔ τ = 19 * B + 9 := by
  cases h with
  | start h16 hst =>
      refine iff_of_false (fun hx => ?_) (by omega)
      exact absurd (hst.symm.trans hx.1) (by decide)
  | data i hi hst _ hctr _ _ =>
      have hmul : i * (2 * B + 1) ≤ 7 * (2 * B + 1) := Nat.mul_le_mul_right _ (by omega)
      refine iff_of_false (fun hx => ?_) (by omega)
      exact absurd (hst.symm.trans hx.1) (by decide)
  | stop hst hctr _ =>
      constructor
      · intro hx
        rw [hx.2.1] at hctr
        exact hctr
      · rintro rfl
        refine ⟨hst, ?_, hs.stop_bit (by omega)⟩
        apply BitVec.eq_of_toNat_eq
        change _ = 0
        omega

/-- The byte that has been received. -/
theorem Receiving.datareg (h : u.Receiving B byte (19 * B + 9)) (hB : 32 ≤ B) :
    u.rxDataregData = byte := by
  cases h with
  | start h16 _ => omega
  | data i hi _ _ hctr _ _ =>
      have hmul : i * (2 * B + 1) ≤ 7 * (2 * B + 1) := Nat.mul_le_mul_right _ (by omega)
      omega
  | stop _ _ hdata => exact hdata

/-- A frame that is received does not wait for a stop bit. -/
theorem Receiving.not_waitStopbit (h : u.Receiving B byte τ) : u.rxdState ≠ .waitStopbit := by
  cases h with
  | start _ hst => rw [hst]; decide
  | data _ _ hst => rw [hst]; decide
  | stop hst => rw [hst]; decide

end Frame

end UartRx

/-! ## The loop -/

/-- The inputs of one cycle: a CSR write and the two sides of the DMA channel. -/
structure LoopInput where
  csrIn : CsrChannelIn
  readAck : Bool
  readData : BitVec 8
  writeAck : Bool

/-- The two halves of {lit}`csr_uart_rs232`. -/
structure Loopback where
  tx : UartTx
  rx : UartRx

namespace Loopback

/-- Power-up contents with the baud settings for {lit}`B`; the divider may stand anywhere. -/
def init (B : ℕ) (txClk : Bool) (txClkCtr : BitVec 12) : Loopback where
  tx := { UartTx.init with txBaud := BitVec.ofNat 12 B, txClk := txClk, txClkCtr := txClkCtr }
  rx := { UartRx.init with
    rxBaudA := BitVec.ofNat 16 (3 * B - 16), rxBaudB := BitVec.ofNat 16 (2 * B) }

/-- One clock edge, with {lit}`uart_rx` connected to {lit}`uart_tx`. -/
def step (s : Loopback) (i : LoopInput) : Loopback where
  tx := s.tx.step i.csrIn i.readAck i.readData
  rx := s.rx.step i.csrIn i.writeAck s.tx.uartTx

/-- A run: the settings, the first state of the divider and the inputs. -/
structure Run where
  B : ℕ
  txClk : Bool
  txClkCtr : BitVec 12
  inp : ℕ → LoopInput

namespace Run

/-- The state before clock edge {lit}`t`. -/
def state (r : Run) (t : ℕ) : Loopback :=
  Clocked.run step (init r.B r.txClk r.txClkCtr) r.inp t

/-- The bytes for which the bit engine has been started. -/
def sent (r : Run) : ℕ → List (BitVec 8) :=
  Clocked.log fun t => (r.state t).tx.loadedByte (r.inp t).readAck (r.inp t).readData

/-- The bytes whose stop bit has been found good. -/
def recovered (r : Run) : ℕ → List (BitVec 8) :=
  Clocked.log fun t =>
    if (r.state t).rx.GoodStopBit then some (r.state t).rx.rxDataregData else none

/-- A DMA write of the receiver begins at the edge. -/
def BeginsWrite (r : Run) (t : ℕ) : Prop :=
  (r.state t).rx.rxdState ≠ .memWait ∧ (r.state (t + 1)).rx.rxdState = .memWait

/-- The conditions on a run: a setting in the documented range that is not changed, and DMA
writes of the receiver that are acknowledged within {lit}`B` cycles. -/
structure Admissible (r : Run) : Prop where
  low : 32 ≤ r.B
  high : r.B ≤ 4095
  baud : ∀ t, (r.inp t).csrIn.csrOpValid = true →
    (r.inp t).csrIn.csrOpReg ≠ csrRegUart0RxBaud ∧ (r.inp t).csrIn.csrOpReg ≠ csrRegUart0TxBaud
  ack : ∀ t, r.BeginsWrite t →
    ∃ u, t < u ∧ u ≤ t + r.B ∧ (r.inp u).writeAck = (r.state (t + 1)).rx.writeR

/-- The bit engine and the receiver are in the data bits of a frame. -/
structure FrameAt (r : Run) (t τ : ℕ) (byte : BitVec 8) : Prop where
  sending : (r.state t).tx.Sending r.B τ byte
  receiving : (r.state t).rx.Receiving r.B byte τ
  seen : (r.state t).rx.Seen (UartTx.frameLevel r.B byte) τ
  sent : r.sent t = r.recovered t ++ [byte]

/-- The stop bit has begun, and the receiver has not checked it yet. -/
structure StopAt (r : Run) (t τ : ℕ) (byte : BitVec 8) : Prop where
  resting : (r.state t).tx.Resting
  begun : 9 * (2 * (r.B + 1)) ≤ τ
  divider : (r.state t).tx.Divider r.B (τ - 9 * (2 * (r.B + 1)))
  unchecked : τ ≤ 19 * r.B + 9
  receiving : (r.state t).rx.Receiving r.B byte τ
  seen : (r.state t).rx.Seen (UartTx.frameLevel r.B byte) τ
  sent : r.sent t = r.recovered t ++ byte :: (r.state t).tx.waitingByte

/-- No frame is on the line, and the receiver waits for one. -/
structure QuietAt (r : Run) (t : ℕ) : Prop where
  resting : (r.state t).tx.Resting
  idle : (r.state t).rx.rxdState = .idle
  line : (r.state t).rx.rxShregData = 0xFFFF#16
  sent : r.sent t = r.recovered t ++ (r.state t).tx.waitingByte

/-- The receiver writes the byte whose stop bit it has checked at edge {lit}`t₀`. -/
structure WriteAt (r : Run) (t t₀ : ℕ) : Prop where
  later : t₀ < t
  resting : (r.state t).tx.Resting
  divider : (r.state t).tx.Divider r.B (r.B - 9 + (t - t₀))
  memWait : (r.state t).rx.rxdState = .memWait
  line : (r.state t).rx.rxShregData = 0xFFFF#16
  begins : r.BeginsWrite t₀
  request : (r.state t).rx.writeR = (r.state (t₀ + 1)).rx.writeR
  unanswered : ∀ u, t₀ < u → u < t → (r.inp u).writeAck ≠ (r.state (t₀ + 1)).rx.writeR
  sent : r.sent t = r.recovered t ++ (r.state t).tx.waitingByte

/-- How transmitter, line and receiver stand together. -/
inductive Phase (r : Run) (t : ℕ) : Prop where
  | quiet (h : r.QuietAt t)
  | frame (τ : ℕ) (byte : BitVec 8) (h : r.FrameAt t τ byte)
  | stop (τ : ℕ) (byte : BitVec 8) (h : r.StopAt t τ byte)
  | write (t₀ : ℕ) (h : r.WriteAt t t₀)

section Steps

variable {r : Run} {t : ℕ}

/-- The transmitter after an edge. -/
theorem tx_succ (r : Run) (t : ℕ) : (r.state (t + 1)).tx =
    (r.state t).tx.step (r.inp t).csrIn (r.inp t).readAck (r.inp t).readData :=
  rfl

/-- The receiver after an edge. -/
theorem rx_succ (r : Run) (t : ℕ) : (r.state (t + 1)).rx =
    (r.state t).rx.step (r.inp t).csrIn (r.inp t).writeAck (r.state t).tx.uartTx :=
  rfl

/-- What has been sent after an edge. -/
theorem sent_succ (r : Run) (t : ℕ) :
    r.sent (t + 1) =
      r.sent t ++ ((r.state t).tx.loadedByte (r.inp t).readAck (r.inp t).readData).toList :=
  rfl

/-- A good stop bit recovers a byte. -/
theorem recovered_succ_of_good (h : (r.state t).rx.GoodStopBit) :
    r.recovered (t + 1) = r.recovered t ++ [(r.state t).rx.rxDataregData] :=
  Clocked.log_succ_some (if_pos h)

/-- Nothing else recovers a byte. -/
theorem recovered_succ_of_not_good (h : ¬ (r.state t).rx.GoodStopBit) :
    r.recovered (t + 1) = r.recovered t :=
  Clocked.log_succ_none (if_neg h)

/-- The baud settings hold throughout. -/
theorem Admissible.bauds (h : r.Admissible) (t : ℕ) :
    (r.state t).tx.txBaud.toNat = r.B ∧ (r.state t).rx.BaudSet r.B := by
  have hlow := h.low
  have hhigh := h.high
  induction t with
  | zero =>
      refine ⟨?_, ?_, ?_⟩
      · change (BitVec.ofNat 12 r.B).toNat = r.B
        rw [BitVec.toNat_ofNat]
        omega
      · change (BitVec.ofNat 16 (3 * r.B - 16)).toNat = _
        rw [BitVec.toNat_ofNat]
        omega
      · change (BitVec.ofNat 16 (2 * r.B)).toNat = _
        rw [BitVec.toNat_ofNat]
        omega
  | succ t ih =>
      refine ⟨?_, ih.2.step fun hv => (h.baud t hv).1⟩
      rw [← ih.1, tx_succ, UartTx.step_eq]
      exact congrArg _ (UartTx.fsm_txBaud fun hv => (h.baud t hv).2)

/-- A high line keeps the shift register full. -/
theorem shreg_of_high (hline : (r.state t).rx.rxShregData = 0xFFFF#16)
    (hhigh : (r.state t).tx.uartTx = true) : (r.state (t + 1)).rx.rxShregData = 0xFFFF#16 := by
  obtain ⟨-, -, -, -, hsh, -⟩ :=
    (r.state t).rx.step_line (r.inp t).csrIn (r.inp t).writeAck (r.state t).tx.uartTx
  rw [rx_succ, hsh, hhigh, hline]
  rfl

/-- While the line is quiet the receiver waits for a start bit. -/
theorem QuietAt.step (q : r.QuietAt t) (h : r.Admissible) :
    r.QuietAt (t + 1) ∨ ∃ byte, r.FrameAt (t + 1) 0 byte := by
  obtain ⟨hrest, hst, hline, hsent⟩ := q
  have hgood : ¬ (r.state t).rx.GoodStopBit := fun hx =>
    absurd (hst.symm.trans hx.1) (by decide)
  have hline' := shreg_of_high hline hrest.uartTx_eq
  have hst' : (r.state (t + 1)).rx.rxdState = .idle := by
    obtain ⟨e1, -⟩ :=
      (r.state t).rx.step_line (r.inp t).csrIn (r.inp t).writeAck (r.state t).tx.uartTx
    rw [rx_succ, e1, (UartRx.fsm_idle hst).1, hline]
    rfl
  have hlog : r.sent (t + 1) = r.recovered (t + 1) ++ ((r.state t).tx.waitingByte ++
      ((r.state t).tx.loadedByte (r.inp t).readAck (r.inp t).readData).toList) := by
    rw [sent_succ, recovered_succ_of_not_good hgood, hsent, List.append_assoc]
  rcases hrest.step (h.bauds t).1 (fun hv => (h.baud t hv).2) with
    ⟨hrest', hwait, -⟩ | ⟨-, byte, hsend, hwait⟩
  · exact .inl ⟨hrest', hst', hline', by rw [hlog, ← hwait]; rfl⟩
  · refine .inr ⟨byte, hsend, .start (by omega) hst', fun k hk => ?_, by rw [hlog, hwait]⟩
    have hones : ∀ j, j < 16 → (0xFFFF#16).getLsbD (15 - j) = true := by decide
    rw [hline', if_neg (Nat.not_lt_zero k)]
    exact hones k hk

/-- Transmitter and receiver go through the frame together. -/
theorem FrameAt.step {τ : ℕ} {byte : BitVec 8} (f : r.FrameAt t τ byte) (h : r.Admissible) :
    r.FrameAt (t + 1) (τ + 1) byte ∨ r.StopAt (t + 1) (τ + 1) byte := by
  obtain ⟨hsend, hrecv, hseen, hsent⟩ := f
  have hB := h.low
  have hbefore := hsend.before
  have hgood : ¬ (r.state t).rx.GoodStopBit := fun hx => by
    have := (hrecv.goodStopBit_iff hseen hB).mp hx
    omega
  have hrecv' : (r.state (t + 1)).rx.Receiving r.B byte (τ + 1) := by
    rw [rx_succ, hsend.uartTx_eq]
    exact hrecv.step hseen (h.bauds t).2 hB (by omega)
  have hseen' : (r.state (t + 1)).rx.Seen (UartTx.frameLevel r.B byte) (τ + 1) := by
    rw [rx_succ, hsend.uartTx_eq]
    exact hseen.step
  have hlog : r.sent (t + 1) = r.recovered (t + 1) ++ [byte] := by
    rw [sent_succ, recovered_succ_of_not_good hgood, hsent, UartTx.loadedByte,
      if_neg (by rw [hsend.state]; simp)]
    simp
  by_cases hτ : τ + 1 < 9 * (2 * (r.B + 1))
  · exact .inl ⟨hsend.step hτ fun hv => (h.baud t hv).2, hrecv', hseen', hlog⟩
  · have h9 : τ + 1 = 9 * (2 * (r.B + 1)) := by omega
    obtain ⟨hrest, hdiv, hstart⟩ : (r.state (t + 1)).tx.Resting ∧
        (r.state (t + 1)).tx.Divider r.B 0 ∧
        (r.state (t + 1)).tx.txdStart = (r.state (t + 1)).tx.txdStartAck :=
      hsend.finish h9 fun hv => (h.baud t hv).2
    refine .inr ⟨hrest, h9.ge, ?_, by omega, hrecv', hseen', ?_⟩
    · rw [h9, Nat.sub_self]
      exact hdiv
    · have hwait : (r.state (t + 1)).tx.waitingByte = [] := if_neg fun hx => hx hstart
      rw [hlog, hwait]

/-- Before the next bit time the transmitter stays at rest. -/
theorem Admissible.resting_step (h : r.Admissible) {φ : ℕ} (hrest : (r.state t).tx.Resting)
    (hdiv : (r.state t).tx.Divider r.B φ) (hφ : φ + 1 < 2 * (r.B + 1)) :
    (r.state (t + 1)).tx.Resting ∧ (r.state (t + 1)).tx.Divider r.B (φ + 1) ∧
      (r.state (t + 1)).tx.waitingByte = (r.state t).tx.waitingByte ++
        ((r.state t).tx.loadedByte (r.inp t).readAck (r.inp t).readData).toList := by
  have hno : ¬ (r.state t).tx.Rises := fun hx => by
    have := hdiv.rises_iff.mp hx
    omega
  have hdiv' : (r.state (t + 1)).tx.Divider r.B (if φ + 1 = 2 * (r.B + 1) then 0 else φ + 1) :=
    hdiv.step fun hv => (h.baud t hv).2
  rw [if_neg (by omega)] at hdiv'
  rcases hrest.step (h.bauds t).1 (fun hv => (h.baud t hv).2) with ⟨hrest', hwait, -⟩ | ⟨hrise, -⟩
  · exact ⟨hrest', hdiv', hwait⟩
  · exact absurd hrise hno

/-- After a good stop bit the byte is written or dropped. -/
theorem rx_of_good (hgood : (r.state t).rx.GoodStopBit) :
    (r.state (t + 1)).rx.rxdState = .memWait ∨ (r.state (t + 1)).rx.rxdState = .idle := by
  obtain ⟨e1, -⟩ :=
    (r.state t).rx.step_line (r.inp t).csrIn (r.inp t).writeAck (r.state t).tx.uartTx
  rw [rx_succ, e1, UartRx.fsm_of_goodStopBit hgood]
  unfold UartRx.storeByte
  split <;> split <;> simp

/-- Until the receiver checks the stop bit nothing changes. -/
theorem StopAt.step {τ : ℕ} {byte : BitVec 8} (p : r.StopAt t τ byte) (h : r.Admissible)
    (hend : τ ≠ 19 * r.B + 9) : r.StopAt (t + 1) (τ + 1) byte := by
  obtain ⟨hrest, h9, hdiv, hτ, hrecv, hseen, hsent⟩ := p
  have hB := h.low
  obtain ⟨hrest', hdiv', hwait⟩ := h.resting_step hrest hdiv (by omega)
  have hlevel : (r.state t).tx.uartTx = UartTx.frameLevel r.B byte τ := by
    rw [hrest.uartTx_eq, UartRx.frameLevel_stop h9]
  have hgood : ¬ (r.state t).rx.GoodStopBit := fun hx =>
    hend ((hrecv.goodStopBit_iff hseen hB).mp hx)
  refine ⟨hrest', by omega, ?_, by omega, ?_, ?_, ?_⟩
  · rw [show τ + 1 - 9 * (2 * (r.B + 1)) = τ - 9 * (2 * (r.B + 1)) + 1 by omega]
    exact hdiv'
  · rw [rx_succ, hlevel]
    exact hrecv.step hseen (h.bauds t).2 hB (by omega)
  · rw [rx_succ, hlevel]
    exact hseen.step
  · rw [sent_succ, recovered_succ_of_not_good hgood, hsent, hwait]
    simp

/-- The stop bit of a frame is good. -/
theorem StopAt.good {byte : BitVec 8} (p : r.StopAt t (19 * r.B + 9) byte) (h : r.Admissible) :
    (r.state t).rx.GoodStopBit ∧ (r.state t).rx.rxDataregData = byte :=
  ⟨(p.receiving.goodStopBit_iff p.seen h.low).mpr rfl, p.receiving.datareg h.low⟩

/-- The receiver checks the stop bit. -/
theorem StopAt.check {byte : BitVec 8} (p : r.StopAt t (19 * r.B + 9) byte) (h : r.Admissible) :
    r.QuietAt (t + 1) ∨ r.WriteAt (t + 1) t := by
  have hB := h.low
  obtain ⟨hgood, hdata⟩ := p.good h
  obtain ⟨hrest, -, hdiv, -, -, -, hsent⟩ := p
  obtain ⟨hrest', hdiv', hwait⟩ := h.resting_step hrest hdiv (by omega)
  have hline' := shreg_of_high hgood.2.2 hrest.uartTx_eq
  have hlog : r.sent (t + 1) = r.recovered (t + 1) ++ (r.state (t + 1)).tx.waitingByte := by
    rw [sent_succ, recovered_succ_of_good hgood, hdata, hsent, hwait]
    simp
  rcases rx_of_good hgood with hmem | hidle
  · have hbegin : r.BeginsWrite t := by
      refine ⟨?_, hmem⟩
      rw [hgood.1]
      decide
    refine .inr ⟨Nat.lt_succ_self t, hrest', ?_, hmem, hline', hbegin, rfl,
      fun u h1 h2 => by omega, hlog⟩
    rw [show r.B - 9 + (t + 1 - t) = 19 * r.B + 9 - 9 * (2 * (r.B + 1)) + 1 by omega]
    exact hdiv'
  · exact .inl ⟨hrest', hidle, hline', hlog⟩

/-- The DMA write is over before the next bit time. -/
theorem WriteAt.step {t₀ : ℕ} (w : r.WriteAt t t₀) (h : r.Admissible) :
    r.QuietAt (t + 1) ∨ r.WriteAt (t + 1) t₀ := by
  obtain ⟨ht₀, hrest, hdiv, hst, hline, hbegin, hreq, hopen, hsent⟩ := w
  have hB := h.low
  have hbound : t ≤ t₀ + r.B := by
    obtain ⟨u, h1, h2, h3⟩ := h.ack t₀ hbegin
    by_contra hlate
    exact hopen u h1 (by omega) h3
  obtain ⟨hrest', hdiv', hwait⟩ := h.resting_step hrest hdiv (by omega)
  have hgood : ¬ (r.state t).rx.GoodStopBit := fun hx =>
    absurd (hst.symm.trans hx.1) (by decide)
  have hline' := shreg_of_high hline hrest.uartTx_eq
  have hlog : r.sent (t + 1) = r.recovered (t + 1) ++ (r.state (t + 1)).tx.waitingByte := by
    rw [sent_succ, recovered_succ_of_not_good hgood, hsent, hwait, List.append_assoc]
  have hpass := UartRx.fsm_passes (a := (r.inp t).writeAck) hgood
  obtain ⟨e1, -⟩ :=
    (r.state t).rx.step_line (r.inp t).csrIn (r.inp t).writeAck (r.state t).tx.uartTx
  obtain ⟨e2, -⟩ := (r.state t).rx.step_fsm
    ⟨(r.inp t).csrIn, (r.inp t).writeAck, (r.state t).tx.uartTx⟩
  by_cases hack : (r.state t).rx.writeR = (r.inp t).writeAck
  · refine .inl ⟨hrest', ?_, hline', hlog⟩
    rw [rx_succ, e1]
    simp [UartRx.fsm, UartRx.stateEdge, hst, hack]
  · have hreq' : (r.state (t + 1)).rx.writeR = (r.state t).rx.writeR := e2.trans hpass.writeR
    refine .inr ⟨by omega, hrest', ?_, ?_, hline', hbegin, hreq'.trans hreq, ?_, hlog⟩
    · rw [show r.B - 9 + (t + 1 - t₀) = r.B - 9 + (t - t₀) + 1 by omega]
      exact hdiv'
    · rw [rx_succ, e1]
      exact hpass.memWait.mpr ⟨hst, hack⟩
    · intro u h1 h2
      rcases Nat.lt_succ_iff_lt_or_eq.mp h2 with hlt | rfl
      · exact hopen u h1 hlt
      · rw [← hreq]
        exact fun hx => hack hx.symm

/-- Transmitter, line and receiver fit together in every cycle. -/
theorem Admissible.phase (h : r.Admissible) (t : ℕ) : r.Phase t := by
  induction t with
  | zero => exact .quiet ⟨⟨rfl, fun hx => absurd rfl hx⟩, rfl, rfl, rfl⟩
  | succ t ih =>
      cases ih with
      | quiet q =>
          rcases q.step h with hq | ⟨byte, hf⟩
          · exact .quiet hq
          · exact .frame 0 byte hf
      | frame τ byte f =>
          rcases f.step h with hf | hp
          · exact .frame _ byte hf
          · exact .stop _ byte hp
      | stop τ byte p =>
          by_cases hend : τ = 19 * r.B + 9
          · subst hend
            rcases p.check h with hq | hw
            · exact .quiet hq
            · exact .write t hw
          · exact .stop _ byte (p.step h hend)
      | write t₀ w =>
          rcases w.step h with hq | hw
          · exact .quiet hq
          · exact .write t₀ hw

/-! ## Progress -/

/-- Recovered bytes are kept. -/
theorem recovered_length_le (r : Run) (t : ℕ) :
    (r.recovered t).length ≤ (r.recovered (t + 1)).length :=
  (Clocked.log_mono _ (Nat.le_succ t)).length_le

/-- Sent bytes are kept. -/
theorem sent_mono (r : Run) {t u : ℕ} (htu : t ≤ u) : r.sent t <+: r.sent u :=
  Clocked.log_mono _ htu

/-- A byte whose stop bit has begun is recovered. -/
theorem StopAt.recovers {τ : ℕ} {byte : BitVec 8} (p : r.StopAt t τ byte) (h : r.Admissible) :
    ∃ u, t ≤ u ∧ (r.recovered t).length < (r.recovered u).length := by
  induction hn : 19 * r.B + 9 - τ generalizing t τ with
  | zero =>
      have hend : τ = 19 * r.B + 9 := by
        have := p.unchecked
        omega
      subst hend
      refine ⟨t + 1, by omega, ?_⟩
      rw [recovered_succ_of_good (p.good h).1]
      simp
  | succ n ih =>
      obtain ⟨u, h1, h2⟩ := ih (p.step h (by omega)) (by omega)
      have hle := r.recovered_length_le t
      exact ⟨u, by omega, by omega⟩

/-- A byte on the line is recovered. -/
theorem FrameAt.recovers {τ : ℕ} {byte : BitVec 8} (f : r.FrameAt t τ byte) (h : r.Admissible) :
    ∃ u, t ≤ u ∧ (r.recovered t).length < (r.recovered u).length := by
  induction hn : 9 * (2 * (r.B + 1)) - τ generalizing t τ with
  | zero =>
      have := f.sending.before
      omega
  | succ n ih =>
      obtain ⟨u, h1, h2⟩ : ∃ u, t + 1 ≤ u ∧
          (r.recovered (t + 1)).length < (r.recovered u).length := by
        rcases f.step h with hf | hp
        · exact ih hf (by omega)
        · exact hp.recovers h
      have hle := r.recovered_length_le t
      exact ⟨u, by omega, by omega⟩

/-- A byte in the bit engine is recovered. -/
theorem Admissible.recovers_of_sending (h : r.Admissible) {τ : ℕ} {byte : BitVec 8}
    (hsend : (r.state t).tx.Sending r.B τ byte) :
    ∃ u, t ≤ u ∧ (r.recovered t).length < (r.recovered u).length := by
  have hbusy : ¬ (r.state t).tx.Resting := by
    intro hrest
    have hlt : τ / (2 * (r.B + 1)) < 9 := Nat.div_lt_of_lt_mul (by have := hsend.before; omega)
    have hbit := hsend.bitnr
    rw [hrest.bitnr] at hbit
    change 0 + _ = 9 at hbit
    omega
  cases h.phase t with
  | quiet q => exact absurd q.resting hbusy
  | frame τ byte f => exact f.recovers h
  | stop τ byte p => exact p.recovers h
  | write t₀ w => exact absurd w.resting hbusy

/-- A byte that waits for the bit engine is recovered. -/
theorem Admissible.recovers_waiting (h : r.Admissible) (hwait : (r.state t).tx.waitingByte ≠ []) :
    ∃ u, t ≤ u ∧ (r.recovered t).length < (r.recovered u).length := by
  -- the divider counts down to the next rising edge of `tx_clk`
  induction hn : (r.state t).tx.untilRise using Nat.strong_induction_on generalizing t with
  | _ n ih =>
      have hnext : ∀ {u}, t + 1 ≤ u → (r.recovered (t + 1)).length < (r.recovered u).length →
          ∃ u, t ≤ u ∧ (r.recovered t).length < (r.recovered u).length := by
        intro u h1 h2
        have hle := r.recovered_length_le t
        exact ⟨u, by omega, by omega⟩
      have hgo : (r.state t).tx.Resting →
          ∃ u, t ≤ u ∧ (r.recovered t).length < (r.recovered u).length := by
        intro hrest
        rcases hrest.step (h.bauds t).1 (fun hv => (h.baud t hv).2) with
          ⟨-, hwait', hno⟩ | ⟨-, byte, hsend, -⟩
        · have hrise : ¬ (r.state t).tx.Rises := fun hx =>
            hwait (List.append_eq_nil_iff.mp (hno hx)).1
          obtain ⟨u, h1, h2⟩ := ih _ (by
            rw [← hn, tx_succ]
            exact UartTx.untilRise_step hrise fun hv => (h.baud t hv).2)
            (by rw [tx_succ, hwait']; simp [hwait]) rfl
          exact hnext h1 h2
        · rw [← tx_succ] at hsend
          obtain ⟨u, h1, h2⟩ := h.recovers_of_sending hsend
          exact hnext h1 h2
      cases h.phase t with
      | quiet q => exact hgo q.resting
      | frame τ byte f => exact f.recovers h
      | stop τ byte p => exact p.recovers h
      | write t₀ w => exact hgo w.resting

/-- A sent byte is recovered in the end. -/
theorem Admissible.recovers (h : r.Admissible) (hlt : (r.recovered t).length < (r.sent t).length) :
    ∃ u, t ≤ u ∧ (r.recovered t).length < (r.recovered u).length := by
  cases h.phase t with
  | quiet q =>
      refine h.recovers_waiting fun hnil => ?_
      rw [q.sent, hnil, List.append_nil] at hlt
      omega
  | frame τ byte f => exact f.recovers h
  | stop τ byte p => exact p.recovers h
  | write t₀ w =>
      refine h.recovers_waiting fun hnil => ?_
      rw [w.sent, hnil, List.append_nil] at hlt
      omega

/-- What has been recovered was sent, in order. -/
theorem Admissible.inOrder (h : r.Admissible) (t : ℕ) : r.recovered t <+: r.sent t := by
  cases h.phase t with
  | quiet q => exact q.sent ▸ List.prefix_append _ _
  | frame τ byte f => exact f.sent ▸ List.prefix_append _ _
  | stop τ byte p => exact p.sent ▸ List.prefix_append _ _
  | write t₀ w => exact w.sent ▸ List.prefix_append _ _

/-- Everything that is sent is recovered. -/
theorem Admissible.complete (h : r.Admissible) (t : ℕ) :
    ∃ u, t ≤ u ∧ (r.sent t).length ≤ (r.recovered u).length := by
  have hgrow : ∀ n, n ≤ (r.sent t).length → ∃ u, t ≤ u ∧ n ≤ (r.recovered u).length := by
    intro n
    induction n with
    | zero => exact fun _ => ⟨t, le_rfl, Nat.zero_le _⟩
    | succ n ih =>
        intro hn
        obtain ⟨u, htu, hu⟩ := ih (by omega)
        by_cases hdone : n + 1 ≤ (r.recovered u).length
        · exact ⟨u, htu, hdone⟩
        · have hsent := (r.sent_mono htu).length_le
          obtain ⟨v, huv, hv⟩ := h.recovers (t := u) (by omega)
          exact ⟨v, htu.trans huv, by omega⟩
  exact hgrow _ le_rfl

/-- The stop-bit check never fails. -/
theorem Admissible.not_waitStopbit (h : r.Admissible) (t : ℕ) :
    (r.state t).rx.rxdState ≠ .waitStopbit := by
  cases h.phase t with
  | quiet q => rw [q.idle]; decide
  | frame τ byte f => exact f.receiving.not_waitStopbit
  | stop τ byte p => exact p.receiving.not_waitStopbit
  | write t₀ w => rw [w.memWait]; decide

end Steps

end Run

end Loopback

/-- Loopback.  For every setting in the documented range the receiver recovers what the
transmitter sends: at every moment a prefix of it, in the end all of it, and no frame fails
its stop-bit check. -/
theorem loopback_recovers (r : Loopback.Run) (h : r.Admissible) :
    (∀ t, r.recovered t <+: r.sent t) ∧
    (∀ t, ∃ u, t ≤ u ∧ r.sent t <+: r.recovered u) ∧
    (∀ t, (r.state t).rx.rxdState ≠ .waitStopbit) := by
  refine ⟨h.inOrder, fun t => ?_, h.not_waitStopbit⟩
  obtain ⟨u, htu, hlen⟩ := h.complete t
  exact ⟨u, htu, List.prefix_of_prefix_length_le (r.sent_mono htu) (h.inOrder u) hlen⟩

/-- One byte is sent with the smallest setting, and the receiver is not armed. -/
def sendOne : Loopback.Run where
  B := 32
  txClk := false
  txClkCtr := 0#12
  inp := fun t =>
    { csrIn := if t = 0 then csrWrite csrRegUart0Tx 0x201#32 else ⟨0#12, 0#2, false, 0#12, 0#32⟩
      readAck := decide (2 ≤ t)
      readData := 0x55#8
      writeAck := false }

/-- The receiver of the sample is not armed. -/
theorem sendOne_unarmed (t : ℕ) : (sendOne.state t).rx.Unarmed := by
  induction t with
  | zero => exact ⟨rfl, rfl, fun hx => hx rfl, fun hx => by cases hx⟩
  | succ t ih =>
      have harm : (sendOne.inp t).csrIn.armsRx = none := by
        by_cases h0 : t = 0
        · subst h0
          decide
        · simp [sendOne, h0, CsrChannelIn.armsRx]
      exact ih.step
        (i := ⟨(sendOne.inp t).csrIn, (sendOne.inp t).writeAck, (sendOne.state t).tx.uartTx⟩) harm

/-- The sample is admissible. -/
theorem sendOne_admissible : sendOne.Admissible where
  low := by decide
  high := by decide
  baud := by
    intro t hv
    by_cases h0 : t = 0
    · subst h0
      decide
    · simp [sendOne, h0] at hv
  ack := fun t hbegin => absurd hbegin.2 (sendOne_unarmed (t + 1)).idle

/-- The byte is recovered. -/
theorem loopback_recovers_one : ∃ u, [0x55#8] <+: sendOne.recovered u := by
  obtain ⟨u, -, hu⟩ := (loopback_recovers sendOne sendOne_admissible).2.1 3
  exact ⟨u, hu⟩

end Sumeru
