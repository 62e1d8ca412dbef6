import Mathlib.Logic.Function.Iterate
import Mathlib.Logic.Relation
import Sumeru.Uart.Driver

/-!
# Sumeru - Reception of a frame

An armed receiver with room in its buffer can always receive a byte: a start bit of
sixteen cycles, data bits and a stop bit lead it through its states to the DMA request,
and the acknowledge leads it back to {lit}`RXD_IDLE`.

Main results:

- Theorem {lit}`UartRx.frame_received`: a frame is received.
- Theorem {lit}`UartSystem.listening_receives`: the buffer position moves by one.
-/

namespace Sumeru

namespace UartRx

/-- A cycle without a CSR write. -/
def tick (u : UartRx) (writeAck uartRx : Bool) : UartRx :=
  u.shift (u.fsm writeAck) uartRx

/-- The line's shift register after one more bit. -/
def shiftIn (uartRx : Bool) (r : BitVec 16) : BitVec 16 := BitVec.ofBool uartRx ++ r.extractLsb' 1 15

/-- The registers that only a stored byte, a restart or a CSR write changes. -/
structure SameRegs (u v : UartRx) : Prop where
  rxCtrl : v.rxCtrl = u.rxCtrl
  rxBufLen : v.rxBufLen = u.rxBufLen
  rxResetCurpos : v.rxResetCurpos = u.rxResetCurpos
  rxBaudA : v.rxBaudA = u.rxBaudA
  rxBaudB : v.rxBaudB = u.rxBaudB
  rxBufCurpos : v.rxBufCurpos = u.rxBufCurpos
  rxResetCurposAck : v.rxResetCurposAck = u.rxResetCurposAck
  rxIntrToggle : v.rxIntrToggle = u.rxIntrToggle
  writeR : v.writeR = u.writeR

/-- Nothing changes. -/
theorem SameRegs.refl (u : UartRx) : SameRegs u u := ⟨rfl, rfl, rfl, rfl, rfl, rfl, rfl, rfl, rfl⟩

/-- Changes in a row. -/
theorem SameRegs.trans {u v w : UartRx} (h : SameRegs u v) (h' : SameRegs v w) : SameRegs u w :=
  ⟨h'.1.trans h.1, h'.2.trans h.2, h'.3.trans h.3, h'.4.trans h.4, h'.5.trans h.5, h'.6.trans h.6,
    h'.7.trans h.7, h'.8.trans h.8, h'.9.trans h.9⟩

/-- Cycles in which the receiver stores nothing. -/
inductive Ticks (writeAck : Bool) (u : UartRx) : UartRx → Prop where
  | refl : Ticks writeAck u u
  | tail {v : UartRx} (h : Ticks writeAck u v) (uartRx : Bool)
      (hnone : (v.fsm writeAck).writeR = v.writeR) : Ticks writeAck u (v.tick writeAck uartRx)

variable {u v w : UartRx} {a : Bool}

/-- Edges in a row. -/
theorem Ticks.trans (h : Ticks a u v) (h' : Ticks a v w) : Ticks a u w := by
  induction h' with
  | refl => exact h
  | tail _ x hnone ih => exact ih.tail x hnone

/-! ## Single cycles -/

/-- Waiting for a start bit. -/
theorem tick_idle (hs : u.rxdState = .idle) (hc : u.rxResetCurpos = u.rxResetCurposAck)
    (hr : u.rxShregData ≠ 0#16) (x : Bool) :
    SameRegs u (u.tick a x) ∧ (u.tick a x).rxdState = .idle ∧
      (u.tick a x).rxShregData = shiftIn x u.rxShregData ∧ (u.fsm a).writeR = u.writeR := by
  have hf : u.fsm a = { u with rxDataregClk := false } := by
    simp [fsm, stateEdge, hs, idleEdge, hc, hr]
  rw [tick, hf]
  exact ⟨⟨rfl, rfl, rfl, rfl, rfl, rfl, rfl, rfl, rfl⟩, hs, rfl, rfl⟩

/-- A start bit. -/
theorem tick_start (hs : u.rxdState = .idle) (hc : u.rxResetCurpos = u.rxResetCurposAck)
    (hr : u.rxShregData = 0#16) (x : Bool) :
    SameRegs u (u.tick a x) ∧ (u.tick a x).rxdState = .running ∧
      (u.tick a x).rxCounter = u.rxBaudA ∧ (u.tick a x).rxBitnr = 0#4 ∧
      (u.tick a x).rxShregData = shiftIn x u.rxShregData ∧ (u.fsm a).writeR = u.writeR := by
  have hf : u.fsm a = { u with
      rxDataregClk := false, rxCounter := u.rxBaudA, rxdState := .running, rxBitnr := 0#4 } := by
    simp [fsm, stateEdge, hs, idleEdge, hc, hr]
  rw [tick, hf]
  exact ⟨⟨rfl, rfl, rfl, rfl, rfl, rfl, rfl, rfl, rfl⟩, rfl, rfl, rfl, rfl, rfl⟩

/-- Inside a bit the counter runs down. -/
theorem tick_count (hs : u.rxdState = .running ∨ u.rxdState = .checkStopbit)
    (hc : u.rxCounter ≠ 0#16) (x : Bool) :
    SameRegs u (u.tick a x) ∧ (u.tick a x).rxdState = u.rxdState ∧
      (u.tick a x).rxCounter = u.rxCounter - 1#16 ∧ (u.tick a x).rxBitnr = u.rxBitnr ∧
      (u.tick a x).rxShregData = shiftIn x u.rxShregData ∧ (u.fsm a).writeR = u.writeR := by
  have hf : u.fsm a = { u with rxDataregClk := false, rxCounter := u.rxCounter - 1#16 } := by
    rcases hs with hs | hs <;> simp [fsm, stateEdge, hs, hc]
  rw [tick, hf]
  exact ⟨⟨rfl, rfl, rfl, rfl, rfl, rfl, rfl, rfl, rfl⟩, rfl, rfl, rfl, rfl, rfl⟩

/-- The end of a data bit. -/
theorem tick_bit (hs : u.rxdState = .running) (hc : u.rxCounter = 0#16) (x : Bool) :
    SameRegs u (u.tick a x) ∧
      (u.tick a x).rxdState = (if u.rxBitnr = 0b0111#4 then .checkStopbit else .running) ∧
      (u.tick a x).rxCounter = u.rxBaudB ∧ (u.tick a x).rxBitnr = u.rxBitnr + 1#4 ∧
      (u.tick a x).rxShregData = shiftIn x u.rxShregData ∧ (u.fsm a).writeR = u.writeR := by
  have hf : u.fsm a = { u with
      rxDataregClk := true, rxCounter := u.rxBaudB, rxBitnr := u.rxBitnr + 1#4,
      rxdState := if u.rxBitnr = 0b0111#4 then .checkStopbit else .running } := by
    simp [fsm, stateEdge, hs, hc]
  rw [tick, hf]
  exact ⟨⟨rfl, rfl, rfl, rfl, rfl, rfl, rfl, rfl, rfl⟩, rfl, rfl, rfl, rfl, rfl⟩

/-! ## Phases of a frame -/

/-- Sixteen low cycles fill the shift register. -/
theorem start_bit (hs : u.rxdState = .idle) (hc : u.rxResetCurpos = u.rxResetCurposAck)
    (hr : u.rxShregData = 0xFFFF#16) :
    ∃ v, Ticks a u v ∧ SameRegs u v ∧ v.rxdState = .idle ∧ v.rxShregData = 0#16 := by
  have hlow : ∀ n, n < 16 → (shiftIn false)^[n] 0xFFFF#16 ≠ 0#16 := by decide
  have hrun : ∀ n, n ≤ 16 → ∃ v, Ticks a u v ∧ SameRegs u v ∧ v.rxdState = .idle ∧
      v.rxShregData = (shiftIn false)^[n] 0xFFFF#16 := by
    intro n
    induction n with
    | zero => exact fun _ => ⟨u, .refl, .refl u, hs, hr⟩
    | succ n ih =>
        intro hn
        obtain ⟨v, hv, hsame, hst, hsh⟩ := ih (by omega)
        obtain ⟨h1, h2, h3, h4⟩ := tick_idle (a := a) hst
          (by rw [hsame.rxResetCurpos, hsame.rxResetCurposAck, hc])
          (by rw [hsh]; exact hlow n (by omega)) false
        refine ⟨_, hv.tail false h4, hsame.trans h1, h2, ?_⟩
        rw [h3, hsh, Function.iterate_succ_apply']
  obtain ⟨v, hv, hsame, hst, hsh⟩ := hrun 16 le_rfl
  exact ⟨v, hv, hsame, hst, hsh⟩

/-- The counter runs down while the line is high. -/
theorem count_down (hs : u.rxdState = .running ∨ u.rxdState = .checkStopbit) :
    ∃ v, Ticks a u v ∧ SameRegs u v ∧ v.rxdState = u.rxdState ∧ v.rxCounter = 0#16 ∧
      v.rxBitnr = u.rxBitnr ∧
      v.rxShregData = (shiftIn true)^[u.rxCounter.toNat] u.rxShregData := by
  induction hn : u.rxCounter.toNat generalizing u with
  | zero =>
      have hz : u.rxCounter = 0#16 := BitVec.eq_of_toNat_eq hn
      exact ⟨u, .refl, .refl u, rfl, hz, rfl, rfl⟩
  | succ n ih =>
      have hnz : u.rxCounter ≠ 0#16 := by
        intro hz
        rw [hz] at hn
        simp at hn
      obtain ⟨h1, h2, h3, h4, h5, h6⟩ := tick_count (a := a) hs hnz true
      have hdec : (u.tick a true).rxCounter.toNat = n := by
        rw [h3]
        bv_omega
      obtain ⟨v, g1, g2, g3, g4, g5, g6⟩ := ih (by rw [h2]; exact hs) hdec
      refine ⟨v, (Ticks.refl.tail true h6).trans g1, h1.trans g2, g3.trans h2, g4, g5.trans h4, ?_⟩
      rw [g6, h5, Function.iterate_succ_apply]

/-- Once filled with ones the shift register stays so on a high line. -/
theorem shiftIn_ones (n : ℕ) : (shiftIn true)^[n] 0xFFFF#16 = 0xFFFF#16 :=
  Function.iterate_fixed (by decide) n

/-- The eight data bits and the stop bit. -/
theorem data_bits (hs : u.rxdState = .running) (hc : u.rxCounter = 0#16) (hb : u.rxBitnr = 0#4)
    (hr : u.rxShregData = 0xFFFF#16) :
    ∃ v, Ticks a u v ∧ SameRegs u v ∧ v.rxdState = .checkStopbit ∧ v.rxCounter = 0#16 ∧
      v.rxShregData = 0xFFFF#16 := by
  have hbit : ∀ {v : UartRx} {st : RxdState}, v.rxdState = .running → v.rxCounter = 0#16 →
      v.rxShregData = 0xFFFF#16 →
      (if v.rxBitnr = 0b0111#4 then RxdState.checkStopbit else .running) = st →
      ∃ w, Ticks a v w ∧ SameRegs v w ∧ w.rxdState = st ∧ w.rxCounter = 0#16 ∧
        w.rxBitnr = v.rxBitnr + 1#4 ∧ w.rxShregData = 0xFFFF#16 := by
    intro v st h1 h2 h3 h4
    obtain ⟨g1, g2, g3, g4, g5, g6⟩ := tick_bit (a := a) h1 h2 true
    rw [h4] at g2
    have hst : (v.tick a true).rxdState = .running ∨ (v.tick a true).rxdState = .checkStopbit := by
      rw [g2, ← h4]
      split <;> simp
    obtain ⟨w, k1, k2, k3, k4, k5, k6⟩ := count_down (a := a) hst
    refine ⟨w, (Ticks.refl.tail true g6).trans k1, g1.trans k2, k3.trans g2, k4, k5.trans g4, ?_⟩
    rw [k6, g5, h3, show shiftIn true 0xFFFF#16 = 0xFFFF#16 by decide, shiftIn_ones]
  have hrun : ∀ n, n ≤ 7 → ∃ v, Ticks a u v ∧ SameRegs u v ∧ v.rxdState = .running ∧
      v.rxCounter = 0#16 ∧ v.rxBitnr = BitVec.ofNat 4 n ∧ v.rxShregData = 0xFFFF#16 := by
    intro n
    induction n with
    | zero => exact fun _ => ⟨u, .refl, .refl u, hs, hc, hb, hr⟩
    | succ n ih =>
        intro hn
        obtain ⟨v, h1, h2, h3, h4, h5, h6⟩ := ih (by omega)
        have hne : ¬ v.rxBitnr = 0b0111#4 := by
          rw [h5]
          intro hx
          have := congrArg BitVec.toNat hx
          simp only [BitVec.toNat_ofNat] at this
          omega
        obtain ⟨w, k1, k2, k3, k4, k5, k6⟩ := hbit h3 h4 h6 (if_neg hne)
        refine ⟨w, h1.trans k1, h2.trans k2, k3, k4, ?_, k6⟩
        rw [k5, h5]
        exact (BitVec.ofNat_add n 1).symm
  obtain ⟨v, h1, h2, h3, h4, h5, h6⟩ := hrun 7 le_rfl
  obtain ⟨w, k1, k2, k3, k4, -, k6⟩ := hbit h3 h4 h6 (if_pos h5)
  exact ⟨w, h1.trans k1, h2.trans k2, k3, k4, k6⟩

/-- A start bit leads to the first data bit. -/
theorem start_received (hs : u.rxdState = .idle) (hc : u.rxResetCurpos = u.rxResetCurposAck)
    (hr : u.rxShregData = 0xFFFF#16) :
    ∃ v, Ticks a u v ∧ SameRegs u v ∧ v.rxdState = .running ∧ v.rxCounter = u.rxBaudA ∧
      v.rxBitnr = 0#4 ∧ v.rxShregData = 0x8000#16 := by
  obtain ⟨v, h1, h2, h3, h4⟩ := start_bit (a := a) hs hc hr
  obtain ⟨g1, g2, g3, g4, g5, g6⟩ := tick_start (a := a) h3
    (by rw [h2.rxResetCurpos, h2.rxResetCurposAck, hc]) h4 true
  refine ⟨_, h1.tail true g6, h2.trans g1, g2, g3.trans h2.rxBaudA, g4, ?_⟩
  rw [g5, h4]
  rfl

/-- A frame is received up to its stop bit. -/
theorem frame_received (hs : u.rxdState = .idle) (hc : u.rxResetCurpos = u.rxResetCurposAck)
    (hr : u.rxShregData = 0xFFFF#16) (hbaud : 15 ≤ u.rxBaudA.toNat) :
    ∃ v, Ticks a u v ∧ SameRegs u v ∧ v.rxdState = .checkStopbit ∧ v.rxCounter = 0#16 ∧
      v.rxShregData = 0xFFFF#16 := by
  obtain ⟨v, h1, h2, h3, h4, h5, h6⟩ := start_received (a := a) hs hc hr
  obtain ⟨w, k1, k2, k3, k4, k5, k6⟩ := count_down (a := a) (.inl h3)
  have hones : w.rxShregData = 0xFFFF#16 := by
    obtain ⟨n, hn⟩ := Nat.exists_eq_add_of_le' hbaud
    rw [k6, h4, h6, hn, Function.iterate_add_apply,
      show (shiftIn true)^[15] 0x8000#16 = 0xFFFF#16 by decide, shiftIn_ones]
  obtain ⟨x, g1, g2, g3, g4, g5⟩ := data_bits (a := a) (k3.trans h3) k4 (k5.trans h5) hones
  exact ⟨x, (h1.trans k1).trans g1, (h2.trans k2).trans g2, g3, g4, g5⟩

end UartRx

namespace UartSystem

/-- Undisturbed cycles. -/
def Reaches : UartSystem → UartSystem → Prop :=
  Relation.ReflTransGen fun s s' => ∃ i, Undisturbed s i ∧ s' = s.step i

variable {s s' : UartSystem}

/-- What is reached by undisturbed cycles. -/
theorem Reaches.reachedBy (h : Reaches s s') (hs : ReachedBy Undisturbed s) :
    ReachedBy Undisturbed s' := by
  induction h with
  | refl => exact hs
  | tail _ hstep ih =>
      obtain ⟨i, hi, rfl⟩ := hstep
      exact ih.step i hi

/-- The software reads nothing unless it goes on with a call. -/
theorem undisturbed_of_not_go {i : UartInput} (h : ∀ refill, i.software ≠ .go refill) :
    Undisturbed s i :=
  ⟨fun _ refill _ hgo => absurd hgo (h refill), fun _ _ _ _ refill _ hgo => absurd hgo (h refill)⟩

/-- One undisturbed cycle. -/
theorem reaches_step {i : UartInput} (h : Undisturbed s i) : Reaches s (s.step i) :=
  Relation.ReflTransGen.single ⟨i, h, rfl⟩

/-- The receiver alone goes on. -/
theorem reaches_of_ticks {v : UartRx} (h : UartRx.Ticks s.writeAck s.rx v) :
    Reaches s { s with rx := v } := by
  induction h with
  | refl => exact Relation.ReflTransGen.refl
  | tail h x hnone ih =>
      rename_i v
      have hno : v.storedByte s.writeAck = none := by
        rw [UartRx.storedByte, if_neg (fun hne => hne hnone)]
      refine ih.tail ⟨⟨x, false, none, .none⟩, undisturbed_of_not_go (fun _ hx => by cases hx), ?_⟩
      simp only [step, software, hno, Option.toList_none, List.append_nil]
      rfl

/-- An armed receiver with {lit}`n` bytes in the buffer and a high line, the driver outside its
handler, and the counts of bytes stored and delivered. -/
structure Armed (s : UartSystem) (n stored delivered : ℕ) : Prop where
  closed : s.rx.rxResetCurpos = s.rx.rxResetCurposAck
  line : s.rx.rxShregData = 0xFFFF#16
  baud : 15 ≤ s.rx.rxBaudA.toNat
  len : s.rx.rxBufLen = 255#8
  pos : s.rx.rxBufCurpos.toNat = n
  handler : s.handler = .idle
  engine : s.engineOn = true
  lastpos : s.lastpos = 0
  stored : s.stored.length = stored
  delivered : s.delivered.length = delivered

/-- The receiver is idle, and has raised its interrupt if the buffer is full. -/
structure Listening (s : UartSystem) (n stored delivered : ℕ) : Prop
    extends Armed s n stored delivered where
  idle : s.rx.rxdState = .idle
  dma : s.rx.writeR = s.writeAck
  intr : s.rx.rxIntrToggle = if n = 255 then !s.rxIntrAck else s.rxIntrAck

/-- The stop bit of a byte for which there is room. -/
theorem tick_store {u : UartRx} {a : Bool} (hs : u.rxdState = .checkStopbit)
    (hc : u.rxCounter = 0#16) (hr : u.rxShregData = 0xFFFF#16)
    (hclosed : u.rxResetCurpos = u.rxResetCurposAck) (hroom : u.rxBufCurpos ≠ u.rxBufLen) :
    u.tick a true = { u with
        rxDataregClk := false, writeData := u.rxDataregData,
        writeAddr := u.rxCtrl.extractLsb' 0 17 ++ u.rxBufCurpos,
        rxBufCurpos := u.rxBufCurpos + 1#8, writeR := !u.writeR, rxdState := .memWait } ∧
      u.storedByte a = some u.rxDataregData := by
  have hf : u.fsm a = { u with
      rxDataregClk := false, writeData := u.rxDataregData,
      writeAddr := u.rxCtrl.extractLsb' 0 17 ++ u.rxBufCurpos,
      rxBufCurpos := u.rxBufCurpos + 1#8, writeR := !u.writeR, rxdState := .memWait } := by
    simp [UartRx.fsm, UartRx.stateEdge, hs, hc, hr, UartRx.storeByte, hclosed, hroom]
  constructor
  · rw [UartRx.tick, hf, UartRx.shift, hr]
    simp
  · rw [UartRx.storedByte, hf, if_pos (Bool.not_ne_self _)]

/-- The wait for the DMA acknowledge. -/
theorem tick_wait {u : UartRx} {a : Bool} (hs : u.rxdState = .memWait)
    (hr : u.rxShregData = 0xFFFF#16) (hw : u.writeR ≠ a) :
    u.tick a true = { u with rxDataregClk := false } ∧ u.storedByte a = none := by
  have hf : u.fsm a = { u with rxDataregClk := false } := by
    simp [UartRx.fsm, UartRx.stateEdge, hs, hw]
  constructor
  · rw [UartRx.tick, hf, UartRx.shift, hr]
    simp
  · rw [UartRx.storedByte, hf, if_neg (fun hne => hne rfl)]

/-- The acknowledge of the memory. -/
theorem tick_done {u : UartRx} {a : Bool} (hs : u.rxdState = .memWait)
    (hr : u.rxShregData = 0xFFFF#16) (hw : u.writeR = a) :
    u.tick a true = { u with
        rxDataregClk := false,
        rxIntrToggle := if u.rxBufCurpos = u.rxBufLen then !u.rxIntrToggle else u.rxIntrToggle,
        rxdState := .idle } ∧ u.storedByte a = none := by
  have hf : u.fsm a = { u with
      rxDataregClk := false,
      rxIntrToggle := if u.rxBufCurpos = u.rxBufLen then !u.rxIntrToggle else u.rxIntrToggle,
      rxdState := .idle } := by
    simp [UartRx.fsm, UartRx.stateEdge, hs, hw]
  constructor
  · rw [UartRx.tick, hf, UartRx.shift, hr]
    simp
  · rw [UartRx.storedByte, hf, if_neg (fun hne => hne rfl)]

/-- A cycle in which the software does nothing. -/
theorem step_line (s : UartSystem) (done : Bool) {u : UartRx} {b : Option (BitVec 8)}
    (ht : s.rx.tick s.writeAck true = u ∧ s.rx.storedByte s.writeAck = b) :
    ∃ s' : UartSystem, Reaches s s' ∧ s'.rx = u ∧
      s'.writeAck = (if done = true then s.rx.writeR else s.writeAck) ∧
      s'.rxIntrAck = s.rxIntrAck ∧ s'.handler = s.handler ∧ s'.engineOn = s.engineOn ∧
      s'.lastpos = s.lastpos ∧ s'.delivered = s.delivered ∧ s'.stored = s.stored ++ b.toList := by
  refine ⟨_, reaches_step (i := ⟨true, done, none, .none⟩)
    (undisturbed_of_not_go (fun _ hx => by cases hx)), ht.1, ?_, rfl, rfl, rfl, rfl, rfl, ?_⟩
  · change (if done = true ∧ s.rx.writeR ≠ s.writeAck then s.rx.writeR else s.writeAck) = _
    cases done with
    | false => simp
    | true => by_cases hx : s.rx.writeR = s.writeAck <;> simp [hx]
  · change s.stored ++ (s.rx.storedByte s.writeAck).toList = _
    rw [ht.2]

/-- A byte with a stop bit is handed to the DMA channel. -/
theorem Armed.store {n stored delivered : ℕ} (h : Armed s n stored delivered) (hn : n < 255)
    (hst : s.rx.rxdState = .checkStopbit) (hctr : s.rx.rxCounter = 0#16)
    (hdma : s.rx.writeR = s.writeAck) :
    ∃ s', Reaches s s' ∧ Armed s' (n + 1) (stored + 1) delivered ∧ s'.rx.rxdState = .memWait ∧
      s'.rx.writeR ≠ s'.writeAck ∧ s'.rx.rxIntrToggle = s.rx.rxIntrToggle ∧
      s'.rxIntrAck = s.rxIntrAck := by
  have hpos := h.pos
  have hroom : s.rx.rxBufCurpos ≠ s.rx.rxBufLen := by
    intro hx
    rw [hx, h.len] at hpos
    change 255 = n at hpos
    omega
  obtain ⟨s', hr, hrx, hack, hia, hh, he, hl, hd, hs⟩ :=
    step_line s false (tick_store hst hctr h.line h.closed hroom)
  refine ⟨s', hr, ⟨?_, ?_, ?_, ?_, ?_, hh.trans h.handler, he.trans h.engine, hl.trans h.lastpos,
    ?_, by rw [hd]; exact h.delivered⟩, ?_, ?_, ?_, hia⟩
  · rw [hrx]
    exact h.closed
  · rw [hrx]
    exact h.line
  · rw [hrx]
    exact h.baud
  · rw [hrx]
    exact h.len
  · rw [hrx]
    change (s.rx.rxBufCurpos + 1#8).toNat = n + 1
    rw [BitVec.toNat_add, hpos]
    change (n + 1) % 256 = n + 1
    omega
  · rw [hs]
    simp [h.stored]
  · rw [hrx]
  · rw [hrx, hack, ← hdma]
    exact Bool.not_ne_self _
  · rw [hrx]

/-- The DMA channel acknowledges the byte. -/
theorem Armed.acknowledge {n stored delivered : ℕ} (h : Armed s n stored delivered)
    (hst : s.rx.rxdState = .memWait) (hdma : s.rx.writeR ≠ s.writeAck) :
    ∃ s', Reaches s s' ∧ Armed s' n stored delivered ∧ s'.rx.rxdState = .memWait ∧
      s'.rx.writeR = s'.writeAck ∧ s'.rx.rxIntrToggle = s.rx.rxIntrToggle ∧
      s'.rxIntrAck = s.rxIntrAck := by
  obtain ⟨s', hr, hrx, hack, hia, hh, he, hl, hd, hs⟩ := step_line s true (tick_wait hst h.line hdma)
  refine ⟨s', hr, ⟨?_, ?_, ?_, ?_, ?_, hh.trans h.handler, he.trans h.engine, hl.trans h.lastpos,
    by rw [hs]; simp [h.stored], by rw [hd]; exact h.delivered⟩, ?_, ?_, ?_, hia⟩
  · rw [hrx]
    exact h.closed
  · rw [hrx]
    exact h.line
  · rw [hrx]
    exact h.baud
  · rw [hrx]
    exact h.len
  · rw [hrx]
    exact h.pos
  · rw [hrx]
    exact hst
  · rw [hrx, hack]
    rfl
  · rw [hrx]

/-- The receiver returns to {lit}`RXD_IDLE`. -/
theorem Armed.return {n stored delivered : ℕ} (h : Armed s n stored delivered)
    (hst : s.rx.rxdState = .memWait) (hdma : s.rx.writeR = s.writeAck)
    (hintr : s.rx.rxIntrToggle = s.rxIntrAck) :
    ∃ s', Reaches s s' ∧ Listening s' n stored delivered := by
  obtain ⟨s', hr, hrx, hack, hia, hh, he, hl, hd, hs⟩ := step_line s false (tick_done hst h.line hdma)
  refine ⟨s', hr, ⟨⟨?_, ?_, ?_, ?_, ?_, hh.trans h.handler, he.trans h.engine, hl.trans h.lastpos,
    by rw [hs]; simp [h.stored], by rw [hd]; exact h.delivered⟩, ?_, ?_, ?_⟩⟩
  · rw [hrx]
    exact h.closed
  · rw [hrx]
    exact h.line
  · rw [hrx]
    exact h.baud
  · rw [hrx]
    exact h.len
  · rw [hrx]
    exact h.pos
  · rw [hrx]
  · rw [hrx, hack]
    exact hdma
  · rw [hrx, hia]
    change (if s.rx.rxBufCurpos = s.rx.rxBufLen then _ else _) = _
    have hiff : s.rx.rxBufCurpos = s.rx.rxBufLen ↔ n = 255 := by
      rw [← BitVec.toNat_inj, h.pos, h.len]
      rfl
    by_cases hn : n = 255
    · rw [if_pos (hiff.mpr hn), if_pos hn, hintr]
    · rw [if_neg (fun hx => hn (hiff.mp hx)), if_neg hn, hintr]

/-- The buffer position moves by one with every frame. -/
theorem listening_receives {n stored delivered : ℕ} (h : Listening s n stored delivered)
    (hn : n < 255) : ∃ s', Reaches s s' ∧ Listening s' (n + 1) (stored + 1) delivered := by
  obtain ⟨v, hv, hsame, hst, hctr, hsh⟩ :=
    UartRx.frame_received (a := s.writeAck) h.idle h.closed h.line h.baud
  have harmed : Armed { s with rx := v } n stored delivered :=
    ⟨by rw [hsame.rxResetCurpos, hsame.rxResetCurposAck, h.closed], hsh,
      by rw [hsame.rxBaudA]; exact h.baud, hsame.rxBufLen.trans h.len,
      by rw [hsame.rxBufCurpos]; exact h.pos, h.handler, h.engine, h.lastpos, h.stored, h.delivered⟩
  have hintr : v.rxIntrToggle = s.rxIntrAck := by
    rw [hsame.rxIntrToggle, h.intr, if_neg (by omega)]
  obtain ⟨s₁, r₁, h₁, st₁, d₁, i₁, a₁⟩ := harmed.store hn hst hctr (hsame.writeR.trans h.dma)
  obtain ⟨s₂, r₂, h₂, st₂, d₂, i₂, a₂⟩ := h₁.acknowledge st₁ d₁
  obtain ⟨s₃, r₃, h₃⟩ := h₂.return st₂ d₂ (by rw [i₂, i₁, a₂, a₁]; exact hintr)
  exact ⟨s₃, (((reaches_of_ticks hv).trans r₁).trans r₂).trans r₃, h₃⟩

/-- A receiver that has been armed can fill its buffer. -/
theorem listening_fills {stored delivered : ℕ} (h : Listening s 0 stored delivered) :
    ∃ s', Reaches s s' ∧ Listening s' 255 (stored + 255) delivered := by
  have hrun : ∀ n, n ≤ 255 → ∃ s', Reaches s s' ∧ Listening s' n (stored + n) delivered := by
    intro n
    induction n with
    | zero => exact fun _ => ⟨s, .refl, h⟩
    | succ n ih =>
        intro hn
        obtain ⟨s₁, r₁, h₁⟩ := ih (by omega)
        obtain ⟨s₂, r₂, h₂⟩ := listening_receives h₁ (by omega)
        exact ⟨s₂, r₁.trans r₂, h₂⟩
  exact hrun 255 le_rfl

end UartSystem

end Sumeru
