import Sumeru.Uart.TransmitDriver

/-!
# Sumeru - Transmit path

From {lit}`uart0_blocking_write` to the frames on the line.  The transmitter, the driver flag
and the transmit interrupt go through one cycle of phases: at rest, filling the driver
buffer, sending it, and completed with the interrupt still to be taken.  Only the filling
phase touches the driver buffer and writes to {lit}`UART0_TX`.

Main results:

- Theorem {lit}`OnLine.step`: the line shows the bytes that the transmitter loads, one after the
  other.
- Theorem {lit}`TxSystem.Phase.step`: a cycle keeps the phase of the transmit path.
- Theorem {lit}`transmit_path`: the frames on the line are a prefix of the bytes written.
-/

namespace Sumeru

/-! ## Registers of the transmitter over an edge -/

namespace UartTx

variable {s : UartTx} {csrIn : CsrChannelIn} {readAck : Bool} {readData : BitVec 8}

/-- The state machine starts the bit engine exactly when it loads a byte. -/
theorem fsm_txdStart :
    (s.fsm csrIn readAck readData).txdStart =
      if (s.loadedByte readAck readData).isSome then !s.txdStart else s.txdStart := by
  unfold fsm loadedByte
  cases hst : s.txState with
  | idle =>
      dsimp only
      split
      · split
        · split <;> simp
        · split <;> simp
      · simp
  | running => dsimp only; split <;> simp
  | readmemWait => dsimp only; split <;> simp [*]
  | txdWait => dsimp only; split <;> simp

end UartTx

/-! ## Bytes on the line -/

/-- The line has shown the bytes {lit}`loaded` into the bit engine; of the last one it may have
shown {lit}`k` bits, or not yet begun. -/
structure OnLine (tx : UartTx) (line : LineDecoder) (loaded : List (BitVec 8)) : Prop where
  rest : tx.txdStart = tx.txdStartAck →
    tx.txdBitnr = 0#4 ∧ line.bits = none ∧ line.frames = loaded
  busy : tx.txdStart ≠ tx.txdStartAck →
    tx.txState = .txdWait ∧ line.frames ++ [tx.txdByte] = loaded ∧
      (tx.txdBitnr = 0#4 ∧ line.bits = none ∨
        ∃ k < 9, tx.txdBitnr = BitVec.ofNat 4 (9 - k) ∧
          line.bits = some ((List.range k).map tx.txdByte.getLsbD))

/-- A byte is read back from its bits. -/
theorem byteOfBits_eq : ∀ b : BitVec 8, byteOfBits ((List.range 8).map b.getLsbD) = b := by
  decide

/-- The next bit of a byte that is on the line. -/
theorem uartTx_of_bitnr {tx : UartTx} {k : ℕ} (hk : k < 8)
    (h : tx.txdBitnr = BitVec.ofNat 4 (8 - k)) : tx.uartTx = tx.txdByte.getLsbD k := by
  interval_cases k <;> simp [UartTx.uartTx, h]

/-- A bit time of a byte that is on the line. -/
theorem LineDecoder.tick_bit {line : LineDecoder} {byte : BitVec 8} {k : ℕ} (hk : k < 8)
    (h : line.bits = some ((List.range k).map byte.getLsbD)) :
    line.tick (byte.getLsbD k) =
      { line with bits := some ((List.range (k + 1)).map byte.getLsbD) } := by
  rw [LineDecoder.tick, h]
  simp [hk, List.range_succ]

section Line

variable {tx : UartTx} {line : LineDecoder} {loaded : List (BitVec 8)} {csrIn : CsrChannelIn}
  {readAck : Bool} {readData : BitVec 8}

/-- Bytes are loaded in {lit}`READMEM_WAIT` only. -/
theorem loadedByte_of_state (h : tx.txState ≠ .readmemWait) :
    tx.loadedByte readAck readData = none := by
  rw [UartTx.loadedByte, if_neg fun hc => h hc.1]

/-- Between frames the line is high. -/
theorem uartTx_of_rest (h : tx.txdBitnr = 0#4) : tx.uartTx = true := by
  simp [UartTx.uartTx, h]

/-- A byte is loaded while the line rests; at a rising edge of {lit}`tx_clk` its start bit begins
at once. -/
theorem OnLine.load (h : OnLine tx line loaded) (hrest : tx.txdStart = tx.txdStartAck)
    (hst : tx.txState = .readmemWait) (hack : tx.readR = readAck) :
    OnLine (tx.step csrIn readAck readData)
      (if tx.Rises then line.tick (tx.step csrIn readAck readData).uartTx else line)
      (loaded ++ [readData]) := by
  obtain ⟨hbit, hbits, hframes⟩ := h.rest hrest
  have hfsm : tx.fsm csrIn readAck readData =
      { tx with txdStart := !tx.txdStart, txdByte := readData, txState := .txdWait } := by
    rw [UartTx.fsm, hst]
    exact if_pos hack
  have hstart : (!tx.txdStart) ≠ tx.txdStartAck := by
    rw [← hrest]
    exact Bool.not_ne_self _
  have hackn : (tx.step csrIn readAck readData).txdStartAck = tx.txdStartAck := by
    rw [UartTx.step_txdStartAck, UartTx.nextStartAck, hbit, if_neg fun hc => by simp at hc]
  refine ⟨fun heq => ?_, fun _ => ⟨by simp [hfsm], ?_, ?_⟩⟩
  · rw [UartTx.step_txdStart, hackn, hfsm] at heq
    exact absurd heq hstart
  · rw [UartTx.step_txdByte, hfsm]
    split
    · rename_i hrise
      rw [LineDecoder.tick, hbits]
      dsimp only
      split <;> simp [hframes]
    · simp [hframes]
  · rw [UartTx.step_txdBitnr, hfsm]
    by_cases hrise : tx.Rises
    · right
      refine ⟨0, by omega, ?_, ?_⟩
      · simp [UartTx.nextBitnr, hrise, hstart, hbit]
      · have hlevel : (tx.step csrIn readAck readData).uartTx = false := by
          simp [UartTx.uartTx, UartTx.step_txdBitnr, hfsm, UartTx.nextBitnr, hrise, hstart, hbit]
        rw [if_pos hrise, hlevel, LineDecoder.tick, hbits]
        simp
    · left
      rw [if_neg hrise]
      exact ⟨by simp [UartTx.nextBitnr, hrise, hbit], hbits⟩

/-- Without a byte to send the line rests. -/
theorem OnLine.keep (h : OnLine tx line loaded) (hrest : tx.txdStart = tx.txdStartAck)
    (hstart : (tx.fsm csrIn readAck readData).txdStart = tx.txdStart) :
    OnLine (tx.step csrIn readAck readData)
      (if tx.Rises then line.tick (tx.step csrIn readAck readData).uartTx else line) loaded := by
  obtain ⟨hbit, hbits, hframes⟩ := h.rest hrest
  have hackn : (tx.step csrIn readAck readData).txdStartAck = tx.txdStartAck := by
    rw [UartTx.step_txdStartAck, UartTx.nextStartAck, hstart, if_neg fun hc => hc.2.1 hrest]
  have hbitn : (tx.step csrIn readAck readData).txdBitnr = 0#4 := by
    rw [UartTx.step_txdBitnr, UartTx.nextBitnr, hstart, if_neg fun hc => hc.2 hrest, hbit]
  have hline : (if tx.Rises then line.tick (tx.step csrIn readAck readData).uartTx else line) =
      line := by
    rw [uartTx_of_rest hbitn, LineDecoder.tick, hbits]
    simp
  rw [hline]
  refine ⟨fun _ => ⟨hbitn, hbits, hframes⟩, fun hne => absurd ?_ hne⟩
  rw [UartTx.step_txdStart, hstart, hackn, hrest]

/-- A byte on the line goes on to its next bit, and with the stop bit the bit engine is done. -/
theorem OnLine.send (h : OnLine tx line loaded) (hbusy : tx.txdStart ≠ tx.txdStartAck) :
    OnLine (tx.step csrIn readAck readData)
      (if tx.Rises then line.tick (tx.step csrIn readAck readData).uartTx else line) loaded := by
  obtain ⟨hst, hloaded, hbits⟩ := h.busy hbusy
  have hfsm : tx.fsm csrIn readAck readData = tx := UartTx.fsm_of_started hst hbusy
  have hbitn : (tx.step csrIn readAck readData).txdBitnr = tx.nextBitnr tx.txdStart := by
    rw [UartTx.step_txdBitnr, hfsm]
  have hackn : (tx.step csrIn readAck readData).txdStartAck = tx.nextStartAck tx.txdStart := by
    rw [UartTx.step_txdStartAck, hfsm]
  have hstate : (tx.step csrIn readAck readData).txState = .txdWait := by
    rw [UartTx.step_txState, hfsm, hst]
  have hbyte : (tx.step csrIn readAck readData).txdByte = tx.txdByte := by
    rw [UartTx.step_txdByte, hfsm]
  have hstart : (tx.step csrIn readAck readData).txdStart = tx.txdStart := by
    rw [UartTx.step_txdStart, hfsm]
  by_cases hrise : tx.Rises
  · rw [if_pos hrise]
    -- the bit engine stays busy unless it shows the last bit
    have hmore : tx.txdBitnr ≠ 0b0001#4 →
        (tx.step csrIn readAck readData).txdStartAck = tx.txdStartAck := by
      intro h1
      rw [hackn, UartTx.nextStartAck, if_neg fun hc => h1 hc.2.2]
    rcases hbits with ⟨h0, hnone⟩ | ⟨k, hk, hnr, hsome⟩
    · have hnine : (tx.step csrIn readAck readData).txdBitnr = 0b1001#4 := by
        rw [hbitn, UartTx.nextBitnr, if_pos ⟨hrise, hbusy⟩, if_pos h0]
      have hlevel : (tx.step csrIn readAck readData).uartTx = false := by
        simp [UartTx.uartTx, hnine]
      have hack := hmore (by rw [h0]; decide)
      rw [hlevel, LineDecoder.tick, hnone]
      refine ⟨fun heq => absurd (by rwa [hstart, hack] at heq) hbusy, fun _ => ⟨hstate, ?_, .inr ?_⟩⟩
      · rw [hbyte]
        exact hloaded
      · exact ⟨0, by omega, hnine, rfl⟩
    · have hnz : tx.txdBitnr ≠ 0b0000#4 := by
        rw [hnr]
        interval_cases k <;> decide
      have hnext : (tx.step csrIn readAck readData).txdBitnr = BitVec.ofNat 4 (8 - k) := by
        rw [hbitn, UartTx.nextBitnr, if_pos ⟨hrise, hbusy⟩, if_neg hnz, hnr]
        interval_cases k <;> rfl
      by_cases hk8 : k < 8
      · have hlevel := uartTx_of_bitnr hk8 hnext
        have hack := hmore (by rw [hnr]; interval_cases k <;> decide)
        rw [hlevel, hbyte, LineDecoder.tick_bit hk8 hsome]
        refine ⟨fun heq => absurd (by rwa [hstart, hack] at heq) hbusy,
          fun _ => ⟨hstate, ?_, .inr ⟨k + 1, by omega, ?_, ?_⟩⟩⟩
        · rw [hbyte]
          exact hloaded
        · rw [hnext]
          interval_cases k <;> rfl
        · rw [hbyte]
      · have hk' : k = 8 := by omega
        subst hk'
        have hrest : (tx.step csrIn readAck readData).uartTx = true := uartTx_of_rest hnext
        have hack : (tx.step csrIn readAck readData).txdStartAck = !tx.txdStartAck := by
          rw [hackn, UartTx.nextStartAck, if_pos ⟨hrise, hbusy, hnr⟩]
        have htick : line.tick true = ⟨none, loaded⟩ := by
          rw [LineDecoder.tick, hsome, ← hloaded]
          simp [byteOfBits_eq]
        rw [hrest, htick]
        refine ⟨fun _ => ⟨hnext, rfl, rfl⟩, fun hne => absurd ?_ hne⟩
        rw [hstart, hack]
        exact Bool.eq_not_of_ne hbusy
  · rw [if_neg hrise]
    have hnr : (tx.step csrIn readAck readData).txdBitnr = tx.txdBitnr := by
      rw [hbitn, UartTx.nextBitnr, if_neg fun hc => hrise hc.1]
    have hack : (tx.step csrIn readAck readData).txdStartAck = tx.txdStartAck := by
      rw [hackn, UartTx.nextStartAck, if_neg fun hc => hrise hc.1]
    refine ⟨fun heq => absurd (by rwa [hstart, hack] at heq) hbusy, fun _ => ⟨hstate, ?_, ?_⟩⟩
    · rw [hbyte]
      exact hloaded
    · rw [hnr, hbyte]
      exact hbits

/-- The line shows the bytes that the transmitter loads, one after the other. -/
theorem OnLine.step (h : OnLine tx line loaded) (csrIn : CsrChannelIn) (readAck : Bool)
    (readData : BitVec 8) :
    OnLine (tx.step csrIn readAck readData)
      (if tx.Rises then line.tick (tx.step csrIn readAck readData).uartTx else line)
      (loaded ++ (tx.loadedByte readAck readData).toList) := by
  by_cases hrest : tx.txdStart = tx.txdStartAck
  · by_cases hload : tx.txState = .readmemWait ∧ tx.readR = readAck
    · rw [UartTx.loadedByte, if_pos hload]
      exact h.load hrest hload.1 hload.2
    · have hnone : tx.loadedByte readAck readData = none := by
        rw [UartTx.loadedByte, if_neg hload]
      have hstart : (tx.fsm csrIn readAck readData).txdStart = tx.txdStart := by
        rw [UartTx.fsm_txdStart, hnone]
        rfl
      rw [hnone, Option.toList_none, List.append_nil]
      exact h.keep hrest hstart
  · have hst := (h.busy hrest).1
    rw [loadedByte_of_state (by rw [hst]; decide), Option.toList_none, List.append_nil]
    exact h.send hrest

end Line

/-! ## The driver buffer -/

/-- The addresses of the driver buffer. -/
theorem txDrvbufByte_toNat {k : ℕ} (hk : k < 256) : (txDrvbufByte k).toNat = 0x100 + k :=
  busAddr_add_toNat (by change 0x100 + k < 2 ^ 25; omega)

namespace TxSystem

variable {m : CachedMemory} {j k : ℕ} {v : BitVec 8}

/-- Other operations do not cover the driver buffer. -/
theorem covers_drvbuf {op : MemOp} (hop : ∀ a, op.covers a = true → a.toNat / 256 ≠ 1)
    (hk : k < 256) : op.covers (txDrvbufByte k) = false := by
  rw [← Bool.not_eq_true]
  intro hcov
  exact hop _ hcov (by rw [txDrvbufByte_toNat hk]; omega)

/-- Other addresses are not in the driver buffer. -/
theorem ne_drvbuf {a : BitVec 25} (ha : a.toNat / 256 ≠ 1) (hk : k < 256) :
    txDrvbufByte k ≠ a := by
  rintro rfl
  exact ha (by rw [txDrvbufByte_toNat hk]; omega)

/-- One access of the others leaves a held byte alone. -/
theorem other_holds (hk : k < 256) (h : m.Holds (txDrvbufByte k) v) (x : OtherAccess) :
    (other m x).Holds (txDrvbufByte k) v := by
  cases x with
  | perform op hop => exact h.perform fun _ => covers_drvbuf hop hk
  | dma a b ha => exact h.dma (ne_drvbuf ha hk) b

/-- One access of the others leaves a synced byte alone. -/
theorem other_synced (hk : k < 256) (h : m.Synced (txDrvbufByte k) v) (x : OtherAccess) :
    (other m x).Synced (txDrvbufByte k) v := by
  cases x with
  | perform op hop => exact h.perform fun _ => covers_drvbuf hop hk
  | dma a b ha => exact h.dma (ne_drvbuf ha hk) b

/-- What one access keeps is kept by all. -/
theorem others_keep {Q : CachedMemory → Prop} (hQ : ∀ m x, Q m → Q (other m x))
    (xs : List OtherAccess) (h : Q m) : Q (xs.foldl other m) := by
  induction xs generalizing m with
  | nil => exact h
  | cons x xs ih => exact ih (hQ m x h)

/-- The others leave held bytes alone. -/
theorem others_holds (hk : k < 256) (xs : List OtherAccess) (h : m.Holds (txDrvbufByte k) v) :
    (xs.foldl other m).Holds (txDrvbufByte k) v :=
  others_keep (Q := fun m => m.Holds (txDrvbufByte k) v) (fun _ x hm => other_holds hk hm x) xs h

/-- The others leave synced bytes alone. -/
theorem others_synced (hk : k < 256) (xs : List OtherAccess) (h : m.Synced (txDrvbufByte k) v) :
    (xs.foldl other m).Synced (txDrvbufByte k) v :=
  others_keep (Q := fun m => m.Synced (txDrvbufByte k) v) (fun _ x hm => other_synced hk hm x) xs h

/-- A byte of {lit}`memcpy` leaves the other bytes of the buffer alone. -/
theorem holds_copy (hj : j < 256) (hk : k < 256) (hne : j ≠ k) (b : BitVec 8)
    (h : m.Holds (txDrvbufByte j) v) :
    (m.perform (storeOp (uart0TxDrvbufStart + BitVec.ofNat 32 k) b)).Holds (txDrvbufByte j) v := by
  refine h.perform fun _ => covers_storeOp_of_ne ?_ b
  intro heq
  have hnat := congrArg BitVec.toNat heq
  change _ = (txDrvbufByte k).toNat at hnat
  rw [txDrvbufByte_toNat hj, txDrvbufByte_toNat hk] at hnat
  omega

/-- A flush writes the bytes of its line back. -/
theorem synced_flush (hj : j < 256) (hline : j / 16 = k) (h : m.Holds (txDrvbufByte j) v) :
    (m.perform (flushOp (uart0TxDrvbufStart + BitVec.ofNat 32 (16 * k)))).Synced (txDrvbufByte j)
      v := by
  have hsame : (txDrvbufByte j).toNat / 16 = (txDrvbufByte (16 * k)).toNat / 16 := by
    rw [txDrvbufByte_toNat hj, txDrvbufByte_toNat (by omega)]
    omega
  obtain ⟨hl, ht⟩ := (sameLine_iff _ _).mpr hsame
  refine h.synced_of_conflict (hl.trans (lineOf_flushOp _).symm) ?_ (.inl rfl)
    fun _ => covers_flushOp _ _
  rw [ht]
  exact tagOf_flushOp _

end TxSystem

/-! ## A call of the handler to the ring -/

namespace RingSystem

/-- No call of {lit}`consprod_consume` is on its way. -/
def Returned (r : RingSystem) : Prop := ∃ x, r.consume = .returned x

/-- The call {lit}`consprod_consume(.., buf, 255, 0)` that began when {lit}`start` bytes had been
stored: what it has stored and what it returns. -/
def Draining (r : RingSystem) (start : ℕ) : Prop :=
  match r.consume with
  | .returned x => r.stored.length = start + x ∧ x ≤ 255
  | .readProd len wait => len = 255 ∧ wait = false ∧ r.stored.length = start
  | .readCons len wait _ => len = 255 ∧ wait = false ∧ r.stored.length = start
  | .readByte len x wait _ _ =>
      len = 255 ∧ wait = false ∧ 0 < x ∧ x ≤ 255 ∧ r.stored.length = start + (255 - x)
  | .writeCons len x wait _ _ =>
      len = 255 ∧ wait = false ∧ x ≤ 255 ∧ r.stored.length = start + (255 - x)
  | .spin _ _ => False

variable {r : RingSystem} {start : ℕ}

/-- The loop of a call drains the ring. -/
theorem draining_loop {x p c : ℕ} (hx : x ≤ 255) (hlen : r.stored.length = start + (255 - x))
    (hc : r.consume = consumeLoop 255 x false p c) : r.Draining start := by
  unfold consumeLoop at hc
  unfold Draining
  by_cases hpos : 0 < x
  · by_cases hne : c = p
    · rw [if_neg fun h => h.2 hne, if_pos hpos] at hc
      rw [hc]
      exact ⟨hlen, by omega⟩
    · rw [if_pos ⟨hpos, hne⟩] at hc
      rw [hc]
      exact ⟨rfl, rfl, hpos, hx, hlen⟩
  · rw [if_neg fun h => hpos h.1, if_neg hpos] at hc
    rw [hc]
    exact ⟨by omega, by omega⟩

/-- An access of the call. -/
theorem Draining.consumer (h : r.Draining start) :
    r.consumer.Draining start ∧ r.stored <+: r.consumer.stored := by
  unfold Draining at h
  cases hc : r.consume with
  | returned x =>
      have hself : r.consumer = r := by rw [RingSystem.consumer, hc]
      rw [hself]
      refine ⟨?_, List.prefix_rfl⟩
      rw [hc] at h
      rw [Draining, hc]
      exact h
  | readProd len wait =>
      rw [hc] at h
      obtain ⟨rfl, rfl, hlen⟩ := h
      rw [RingSystem.consumer, hc]
      exact ⟨⟨rfl, rfl, hlen⟩, List.prefix_rfl⟩
  | readCons len wait p =>
      rw [hc] at h
      obtain ⟨rfl, rfl, hlen⟩ := h
      rw [RingSystem.consumer, hc]
      exact ⟨draining_loop le_rfl (by simpa using hlen) rfl, List.prefix_rfl⟩
  | readByte len x wait p c =>
      rw [hc] at h
      obtain ⟨rfl, rfl, hpos, hx, hlen⟩ := h
      rw [RingSystem.consumer, hc]
      refine ⟨⟨rfl, rfl, by omega, ?_⟩, List.prefix_append _ _⟩
      rw [List.length_append, List.length_singleton, hlen]
      omega
  | writeCons len x wait p c =>
      rw [hc] at h
      obtain ⟨rfl, rfl, hx, hlen⟩ := h
      rw [RingSystem.consumer, hc]
      exact ⟨draining_loop hx hlen rfl, List.prefix_rfl⟩
  | spin x p =>
      rw [hc] at h
      exact absurd h id

/-- The application does not touch what the handler has taken. -/
theorem producer_consume (r : RingSystem) :
    r.producer.consume = r.consume ∧ r.producer.stored = r.stored := by
  unfold producer
  split
  case h_7 => split <;> exact ⟨rfl, rfl⟩
  all_goals exact ⟨rfl, rfl⟩

/-- The producer does not touch the consumer. -/
theorem callProduce_consume (r : RingSystem) (buf : List (BitVec 8)) (wait : Bool) :
    (r.step (.callProduce buf wait)).consume = r.consume ∧
      (r.step (.callProduce buf wait)).stored = r.stored := by
  unfold step
  split
  case h_1 => split <;> exact ⟨rfl, rfl⟩
  all_goals simp_all

end RingSystem

/-! ## Phases -/

namespace TxSystem

/-- The first bytes of {lit}`buf` are in memory. -/
def InMemory (s : TxSystem) (buf : List (BitVec 8)) : Prop :=
  ∀ j (hj : j < buf.length), s.memory.Synced (txDrvbufByte j) buf[j]

/-- The handler fills the driver buffer with the bytes that are stored behind {lit}`loaded`. -/
def Filling (s : TxSystem) (loaded : List (BitVec 8)) : Prop :=
  match s.handler with
  | .consume start =>
      loaded.length = start ∧ loaded <+: s.ring.stored ∧ s.ring.Draining start
  | .copy buf k =>
      s.ring.Returned ∧ loaded ++ buf = s.ring.stored ∧ buf.length ≤ 255 ∧ k < buf.length ∧
        ∀ j (hj : j < buf.length), j < k → s.memory.Holds (txDrvbufByte j) buf[j]
  | .flush x k =>
      s.ring.Returned ∧ ∃ buf, loaded ++ buf = s.ring.stored ∧ buf.length = x ∧ x ≤ 255 ∧
        16 * k < x ∧ ∀ j (hj : j < buf.length), s.memory.Holds (txDrvbufByte j) buf[j] ∧
          (j / 16 < k → s.memory.Synced (txDrvbufByte j) buf[j])
  | .setTx x =>
      s.ring.Returned ∧ ∃ buf, loaded ++ buf = s.ring.stored ∧ buf.length = x ∧ 0 < x ∧ x ≤ 255 ∧
        s.InMemory buf
  | _ => False

/-- The driver counts on the transmit interrupt. -/
def Waits (s : TxSystem) : Prop :=
  s.handler = .setActive ∨ s.active = true ∧ (s.handler = .idle ∨ s.handler = .enter false)

/-- The transmitter sends {lit}`buf` and has loaded {lit}`n` of its bytes. -/
structure Sending (s : TxSystem) (buf : List (BitVec 8)) (n : ℕ) : Prop where
  ctrl : s.tx.txCtrl = 1#24
  len : s.tx.txBufLen.toNat = buf.length
  memory : s.InMemory buf
  position : match s.tx.txState with
    | .idle => False
    | .running => s.tx.txBufCurpos.toNat = n ∧ n ≤ buf.length ∧ s.tx.readR = s.readAck
    | .readmemWait =>
        s.tx.txBufCurpos.toNat = n ∧ s.tx.readAddr = txDrvbufByte n ∧
          ∃ h : n < buf.length, s.tx.readR = s.readAck → s.readData = buf[n]
    | .txdWait => s.tx.txBufCurpos.toNat + 1 = n ∧ n ≤ buf.length ∧ s.tx.readR = s.readAck

/-- The phases of the transmit path when the bytes {lit}`loaded` have gone to the bit engine. -/
inductive Phase (s : TxSystem) (loaded : List (BitVec 8)) : Prop
  /-- All that was stored is sent. -/
  | quiet (hidle : s.tx.txState = .idle) (hdma : s.tx.readR = s.readAck)
      (hintr : s.tx.txIntrToggle = s.txIntrAck)
      (hhandler : s.handler = .idle ∨ ∃ uartIntr, s.handler = .enter uartIntr)
      (hactive : s.active = true → s.handler = .enter true) (hcall : s.ring.Returned)
      (hall : loaded = s.ring.stored)
  /-- The handler fills the driver buffer. -/
  | filling (hidle : s.tx.txState = .idle) (hdma : s.tx.readR = s.readAck)
      (hintr : s.tx.txIntrToggle = s.txIntrAck) (hactive : s.active = false)
      (hfill : s.Filling loaded)
  /-- The transmitter sends the driver buffer. -/
  | sending (before buf : List (BitVec 8)) (n : ℕ) (hintr : s.tx.txIntrToggle = s.txIntrAck)
      (hwaits : s.Waits) (hcall : s.ring.Returned) (hstored : before ++ buf = s.ring.stored)
      (hloaded : before ++ buf.take n = loaded) (hsending : s.Sending buf n)
  /-- The transmit interrupt is to be taken. -/
  | completed (hidle : s.tx.txState = .idle) (hdma : s.tx.readR = s.readAck)
      (hintr : s.tx.txIntrToggle ≠ s.txIntrAck) (hwaits : s.Waits) (hcall : s.ring.Returned)
      (hall : loaded = s.ring.stored)

section Steps

variable {s : TxSystem} {loaded : List (BitVec 8)}

/-- An idle transmitter stays so. -/
theorem fsm_idle {tx : UartTx} {csrIn : CsrChannelIn} (hidle : tx.txState = .idle)
    (hcsr : csrIn.csrOpValid = false) (readAck : Bool) (readData : BitVec 8) :
    tx.fsm csrIn readAck readData = tx := by
  rw [UartTx.fsm, hidle]
  simp [hcsr]

/-- Only {lit}`uart0_set_tx` writes to the transmitter. -/
theorem csrIn_invalid {i : TxInput} (h : ∀ x, s.handler = .setTx x → i.software ≠ .go) :
    (s.csrIn i).csrOpValid = false := by
  unfold csrIn
  split
  · rename_i x hs hh
    exact absurd hs (h x hh)
  · rfl

/-- Without a request nothing is answered. -/
theorem answers_eq_false {i : TxInput} (hdma : s.tx.readR = s.readAck) : ¬ s.answers i :=
  fun h => h.2 hdma

/-- Nothing but the handler moves while a handler runs. -/
theorem software_of_handler (h : s.handler ≠ .idle) {sw : TxSoftware} (hsw : sw ≠ .go) :
    s.software sw = s := by
  cases sw with
  | none => rfl
  | go => exact absurd rfl hsw
  | write buf => unfold software; split <;> simp_all
  | application => unfold software; split <;> simp_all
  | timer => unfold software; split <;> simp_all
  | uart0Tx => unfold software; split <;> simp_all

/-- What the software can do outside a handler. -/
theorem software_of_idle (h : s.handler = .idle) (hcall : s.ring.Returned) (sw : TxSoftware) :
    (s.software sw).memory = s.memory ∧ (s.software sw).active = s.active ∧
      (s.software sw).ring.stored = s.ring.stored ∧ (s.software sw).ring.Returned ∧
      (((s.software sw).handler = .idle ∨ (s.software sw).handler = .enter false) ∧
          (s.software sw).txIntrAck = s.txIntrAck ∨
        s.tx.txIntrToggle ≠ s.txIntrAck ∧ (s.software sw).handler = .enter true ∧
          (s.software sw).txIntrAck = s.tx.txIntrToggle) := by
  cases sw with
  | none => exact ⟨rfl, rfl, rfl, hcall, .inl ⟨.inl h, rfl⟩⟩
  | write buf =>
      obtain ⟨x, hx⟩ := hcall
      obtain ⟨h1, h2⟩ := s.ring.callProduce_consume buf true
      have heq : s.software (.write buf) = { s with ring := s.ring.step (.callProduce buf true) } := by
        rw [software, h]
      rw [heq]
      exact ⟨rfl, rfl, h2, ⟨x, h1.trans hx⟩, .inl ⟨.inl h, rfl⟩⟩
  | application =>
      obtain ⟨x, hx⟩ := hcall
      obtain ⟨h1, h2⟩ := s.ring.producer_consume
      have heq : s.software .application = { s with ring := s.ring.step .producer } := by
        rw [software, h]
      rw [heq]
      exact ⟨rfl, rfl, h2, ⟨x, h1.trans hx⟩, .inl ⟨.inl h, rfl⟩⟩
  | timer =>
      have heq : s.software .timer = { s with handler := .enter false } := by rw [software, h]
      rw [heq]
      exact ⟨rfl, rfl, rfl, hcall, .inl ⟨.inr rfl, rfl⟩⟩
  | uart0Tx =>
      by_cases hp : s.tx.txIntrToggle = s.txIntrAck
      · have heq : s.software .uart0Tx = s := by simp [software, h, hp]
        rw [heq]
        exact ⟨rfl, rfl, rfl, hcall, .inl ⟨.inl h, rfl⟩⟩
      · have heq : s.software .uart0Tx =
            { s with txIntrAck := s.tx.txIntrToggle, handler := .enter true } := by
          simp [software, h, hp]
        rw [heq]
        exact ⟨rfl, rfl, rfl, hcall, .inr ⟨hp, rfl, rfl⟩⟩
  | go =>
      have heq : s.software .go = s := by rw [software, goOn, h]
      rw [heq]
      exact ⟨rfl, rfl, rfl, hcall, .inl ⟨.inl h, rfl⟩⟩

/-- What the software can do while the driver counts on the transmit interrupt. -/
theorem Waits.software (h : s.Waits) (hcall : s.ring.Returned) (sw : TxSoftware) :
    (s.software sw).memory = s.memory ∧ (s.software sw).ring.stored = s.ring.stored ∧
      (s.software sw).ring.Returned ∧
      ((s.software sw).Waits ∧ (s.software sw).txIntrAck = s.txIntrAck ∨
        s.tx.txIntrToggle ≠ s.txIntrAck ∧ (s.software sw).handler = .enter true ∧
          (s.software sw).txIntrAck = s.tx.txIntrToggle) := by
  rcases h with hset | ⟨hactive, hidle | henter⟩
  · by_cases hsw : sw = .go
    · subst hsw
      have heq : s.software .go = { s with active := true, handler := .idle } := by
        rw [TxSystem.software, goOn, hset]
      rw [heq]
      exact ⟨rfl, rfl, hcall, .inl ⟨.inr ⟨rfl, .inl rfl⟩, rfl⟩⟩
    · rw [software_of_handler (by simp [hset]) hsw]
      exact ⟨rfl, rfl, hcall, .inl ⟨.inl hset, rfl⟩⟩
  · obtain ⟨h1, h2, h3, h4, h5⟩ := software_of_idle hidle hcall sw
    refine ⟨h1, h3, h4, h5.imp (fun h => ⟨.inr ⟨h2.trans hactive, h.1⟩, h.2⟩) id⟩
  · by_cases hsw : sw = .go
    · subst hsw
      have heq : s.software .go = { s with handler := .idle } := by
        simp [TxSystem.software, goOn, henter, hactive]
      rw [heq]
      exact ⟨rfl, rfl, hcall, .inl ⟨.inr ⟨hactive, .inl rfl⟩, rfl⟩⟩
    · rw [software_of_handler (by simp [henter]) hsw]
      exact ⟨rfl, rfl, hcall, .inl ⟨.inr ⟨hactive, .inr henter⟩, rfl⟩⟩

/-! ### Quiet -/

/-- An idle transmitter rests. -/
theorem step_idle_tx {i : TxInput} (hidle : s.tx.txState = .idle) (hdma : s.tx.readR = s.readAck)
    (hcsr : (s.csrIn i).csrOpValid = false) :
    (s.step i).tx.txState = .idle ∧ (s.step i).tx.readR = (s.step i).readAck ∧
      (s.step i).tx.txIntrToggle = s.tx.txIntrToggle := by
  have hfsm := fsm_idle hidle hcsr s.readAck s.readData
  simp only [step, UartTx.step_txState, UartTx.step_readR, UartTx.step_txIntrToggle, hfsm,
    if_neg (answers_eq_false hdma), hidle, hdma, and_self]

/-- An idle transmitter loads nothing. -/
theorem loaded_of_idle (hidle : s.tx.txState = .idle) :
    loaded ++ (s.tx.loadedByte s.readAck s.readData).toList = loaded := by
  rw [loadedByte_of_state (by rw [hidle]; decide), Option.toList_none, List.append_nil]

/-- The call to the ring begins. -/
theorem draining_call {r : RingSystem} (h : r.Returned) :
    (r.step (.callConsume 255 false)).Draining r.stored.length ∧
      (r.step (.callConsume 255 false)).stored = r.stored := by
  obtain ⟨x, hx⟩ := h
  simp [RingSystem.step, hx, RingSystem.Draining]

/-- While nothing is to be sent. -/
theorem Phase.quiet_step (hidle : s.tx.txState = .idle) (hdma : s.tx.readR = s.readAck)
    (hintr : s.tx.txIntrToggle = s.txIntrAck)
    (hhandler : s.handler = .idle ∨ ∃ uartIntr, s.handler = .enter uartIntr)
    (hactive : s.active = true → s.handler = .enter true) (hcall : s.ring.Returned)
    (i : TxInput) : Phase (s.step i) s.ring.stored := by
  have hcsr : (s.csrIn i).csrOpValid = false := by
    refine csrIn_invalid fun x hx => ?_
    rcases hhandler with h | ⟨u, h⟩ <;> simp [h] at hx
  obtain ⟨h1, h2, h3⟩ := step_idle_tx hidle hdma hcsr
  rcases hhandler with hh | ⟨uartIntr, hh⟩
  · have hoff : s.active = false := by
      rw [← Bool.not_eq_true]
      intro ha
      rw [hactive ha] at hh
      cases hh
    obtain ⟨-, k2, k3, k4, k5⟩ := software_of_idle (s := s.disturb i) hh hcall i.software
    rcases k5 with ⟨k5, k6⟩ | ⟨k5, -⟩
    · refine .quiet h1 h2 (h3.trans (hintr.trans k6.symm)) (k5.imp id fun h => ⟨false, h⟩) ?_ k4
        k3.symm
      intro ha
      exact absurd (ha.symm.trans (k2.trans hoff)) (by decide)
    · exact absurd hintr k5
  · by_cases hgo : i.software = .go
    · have hsoft : (s.disturb i).software i.software = (s.disturb i).goOn := by rw [hgo]; rfl
      by_cases hcons : uartIntr = true ∨ s.active = false
      · -- the handler empties the ring
        have hgoOn : (s.disturb i).goOn = { s.disturb i with
            active := false
            ring := s.ring.step (.callConsume 255 false)
            handler := .consume s.ring.stored.length } := by
          rcases hcons with hu | ha
          · simp [goOn, disturb, hh, hu]
          · cases uartIntr <;> simp [goOn, disturb, hh, ha]
        obtain ⟨hdrain, hst⟩ := draining_call hcall
        refine .filling h1 h2 (by rw [h3, hintr, step, hsoft, hgoOn]; rfl) ?_ ?_
        · rw [step, hsoft, hgoOn]
        · have hhand : (s.step i).handler = .consume s.ring.stored.length := by
            rw [step, hsoft, hgoOn]
          have hring : (s.step i).ring = s.ring.step (.callConsume 255 false) := by
            rw [step, hsoft, hgoOn]
          rw [Filling, hhand, hring]
          exact ⟨rfl, by rw [hst], hdrain⟩
      · simp only [not_or, Bool.not_eq_true, Bool.not_eq_false] at hcons
        rw [hactive hcons.2] at hh
        cases hh
        exact absurd hcons.1 (by decide)
    · have hsoft := software_of_handler (s := s.disturb i) (by simp [disturb, hh]) hgo
      refine .quiet h1 h2 (by rw [h3, hintr, step, hsoft]; rfl) (.inr ⟨uartIntr, ?_⟩) ?_ ?_ ?_
      · rw [step, hsoft]
        exact hh
      · rw [step, hsoft]
        exact hactive
      · rw [step, hsoft]
        exact hcall
      · rw [step, hsoft]
        rfl

/-! ### Filling -/

/-- What filling the buffer depends on. -/
theorem Filling.congr {s' : TxSystem} (h : s.Filling loaded) (hhandler : s'.handler = s.handler)
    (hring : s'.ring = s.ring) (hmemory : s'.memory = s.memory) : s'.Filling loaded := by
  unfold Filling InMemory at *
  rw [hhandler, hring, hmemory]
  exact h

/-- The accesses of the others leave the driver buffer alone. -/
theorem InMemory.disturb {buf : List (BitVec 8)} (h : s.InMemory buf) (hlen : buf.length ≤ 255)
    (i : TxInput) : (s.disturb i).InMemory buf :=
  fun j hj => others_synced (by omega) i.others (h j hj)

/-- The others do not disturb the filling. -/
theorem Filling.disturb (h : s.Filling loaded) (i : TxInput) : (s.disturb i).Filling loaded := by
  have hd : (s.disturb i).handler = s.handler := rfl
  rw [Filling, hd]
  rw [Filling] at h
  cases hh : s.handler with
  | idle => rw [hh] at h; exact h
  | enter u => rw [hh] at h; exact h
  | setActive => rw [hh] at h; exact h
  | consume start => rw [hh] at h; exact h
  | copy buf k =>
      rw [hh] at h
      obtain ⟨h1, h2, h3, h4, h5⟩ := h
      exact ⟨h1, h2, h3, h4, fun j hj hjk => others_holds (by omega) i.others (h5 j hj hjk)⟩
  | flush x k =>
      rw [hh] at h
      obtain ⟨h1, buf, h2, h3, h4, h5, h6⟩ := h
      refine ⟨h1, buf, h2, h3, h4, h5, fun j hj => ?_⟩
      exact ⟨others_holds (by omega) i.others (h6 j hj).1,
        fun hjk => others_synced (by omega) i.others ((h6 j hj).2 hjk)⟩
  | setTx x =>
      rw [hh] at h
      obtain ⟨h1, buf, h2, h3, h4, h5, h6⟩ := h
      exact ⟨h1, buf, h2, h3, h4, h5, h6.disturb (by omega) i⟩

/-- A byte of {lit}`memcpy`. -/
theorem copy_goOn {buf : List (BitVec 8)} {k : ℕ} (hh : s.handler = .copy buf k)
    (h : s.Filling loaded) : s.goOn.Filling loaded := by
  rw [Filling, hh] at h
  obtain ⟨h1, h2, h3, h4, h5⟩ := h
  have hgo : s.goOn = { s with
      memory := s.memory.perform (storeOp (uart0TxDrvbufStart + BitVec.ofNat 32 k) (buf.getD k 0#8))
      handler := if k + 1 < buf.length then .copy buf (k + 1) else .flush buf.length 0 } := by
    rw [goOn, hh]
  have hbyte : buf.getD k 0#8 = buf[k] := by simp [h4]
  have hholds : ∀ j (hj : j < buf.length), j < k + 1 →
      (s.memory.perform (storeOp (uart0TxDrvbufStart + BitVec.ofNat 32 k) (buf.getD k 0#8))).Holds
        (txDrvbufByte j) buf[j] := by
    intro j hj hjk
    by_cases heq : j = k
    · subst heq
      rw [hbyte]
      exact holds_storeOp _ _ _
    · exact holds_copy (by omega) (by omega) heq _ (h5 j hj (by omega))
  rw [hgo]
  by_cases hmore : k + 1 < buf.length
  · simp only [Filling, if_pos hmore]
    exact ⟨h1, h2, h3, hmore, hholds⟩
  · simp only [Filling, if_neg hmore]
    refine ⟨h1, buf, h2, rfl, h3, by omega, fun j hj => ⟨hholds j hj (by omega), ?_⟩⟩
    exact fun hj0 => absurd hj0 (Nat.not_lt_zero _)

/-- A line of {lit}`flush_dcache_range`. -/
theorem flush_goOn {x k : ℕ} (hh : s.handler = .flush x k) (h : s.Filling loaded) :
    s.goOn.Filling loaded := by
  rw [Filling, hh] at h
  obtain ⟨h1, buf, h2, rfl, h4, h5, h6⟩ := h
  have hgo : s.goOn = { s with
      memory := s.memory.perform (flushOp (uart0TxDrvbufStart + BitVec.ofNat 32 (16 * k)))
      handler := if 16 * (k + 1) < buf.length then .flush buf.length (k + 1)
        else .setTx buf.length } := by
    rw [goOn, hh]
  have hsynced : ∀ j (hj : j < buf.length), j / 16 < k + 1 →
      (s.memory.perform (flushOp (uart0TxDrvbufStart + BitVec.ofNat 32 (16 * k)))).Synced
        (txDrvbufByte j) buf[j] := by
    intro j hj hjk
    by_cases heq : j / 16 = k
    · exact synced_flush (by omega) heq (h6 j hj).1
    · exact ((h6 j hj).2 (by omega)).perform fun _ => covers_flushOp _ _
  rw [hgo]
  by_cases hmore : 16 * (k + 1) < buf.length
  · simp only [Filling, if_pos hmore]
    refine ⟨h1, buf, h2, rfl, h4, hmore, fun j hj => ⟨?_, hsynced j hj⟩⟩
    exact (h6 j hj).1.perform fun _ => covers_flushOp _ _
  · simp only [Filling, if_neg hmore, InMemory]
    exact ⟨h1, buf, h2, rfl, by omega, h4, fun j hj => hsynced j hj (by omega)⟩

/-- The call to the ring goes on, or the handler goes on with what it got. -/
theorem consume_goOn {start : ℕ} (hh : s.handler = .consume start) (h : s.Filling loaded) :
    s.goOn.memory = s.memory ∧ (s.goOn.Filling loaded ∨
      s.goOn.handler = .idle ∧ s.goOn.ring.Returned ∧ loaded = s.goOn.ring.stored) := by
  rw [Filling, hh] at h
  obtain ⟨hlen, hprefix, hdrain⟩ := h
  by_cases hret : s.ring.Returned
  · obtain ⟨x, hx⟩ := hret
    rw [RingSystem.Draining, hx] at hdrain
    obtain ⟨t, ht⟩ := hprefix
    have htlen : t.length = x := by
      have := congrArg List.length ht
      rw [List.length_append] at this
      omega
    by_cases hpos : 0 < x
    · have hgo : s.goOn = { s with handler := .copy ((s.ring.stored.drop start).take x) 0 } := by
        simp [goOn, hh, hx, hpos]
      have hbuf : (s.ring.stored.drop start).take x = t := by
        rw [← ht, ← hlen, List.drop_left, List.take_of_length_le htlen.le]
      rw [hgo, hbuf]
      refine ⟨rfl, .inl ?_⟩
      rw [Filling]
      exact ⟨⟨x, hx⟩, ht, by omega, by omega, fun j _ hj => absurd hj (Nat.not_lt_zero j)⟩
    · have hgo : s.goOn = { s with handler := .idle } := by
        simp [goOn, hh, hx, hpos]
      have hnil : t = [] := List.length_eq_zero_iff.mp (by omega)
      subst hnil
      rw [hgo]
      exact ⟨rfl, .inr ⟨rfl, ⟨x, hx⟩, by rw [← ht, List.append_nil]⟩⟩
  · have hgo : s.goOn = { s with ring := s.ring.consumer } := by
      rw [goOn, hh]
      dsimp only
      split
      · rename_i x hx
        exact absurd ⟨x, hx⟩ hret
      · rfl
    obtain ⟨hdrain', hmore⟩ := hdrain.consumer
    rw [hgo]
    refine ⟨rfl, .inl ?_⟩
    rw [Filling, hh]
    exact ⟨hlen, hprefix.trans hmore, hdrain'⟩

/-- The bits of the word that {lit}`uart0_set_tx` writes. -/
theorem setTx_word : ∀ x : Fin 256,
    (uart0TxDrvbufStart ||| BitVec.ofNat 32 x.val).getLsbD 31 = false ∧
      (uart0TxDrvbufStart ||| BitVec.ofNat 32 x.val).extractLsb' 8 24 = 1#24 ∧
      ((uart0TxDrvbufStart ||| BitVec.ofNat 32 x.val).extractLsb' 0 8).toNat = x.val := by
  decide +kernel

/-- {lit}`uart0_set_tx` starts the transmitter. -/
theorem Phase.setTx_step {x : ℕ} (hidle : s.tx.txState = .idle) (hdma : s.tx.readR = s.readAck)
    (hintr : s.tx.txIntrToggle = s.txIntrAck) (hh : s.handler = .setTx x)
    (hfill : s.Filling loaded) {i : TxInput} (hgo : i.software = .go) :
    Phase (s.step i) loaded := by
  rw [Filling, hh] at hfill
  obtain ⟨hcall, buf, hstored, rfl, hpos, hlen, hmem⟩ := hfill
  obtain ⟨hbit, hctrl, hcount⟩ := setTx_word ⟨buf.length, by omega⟩
  have hcsr : s.csrIn i = ⟨0#12, 0#2, true, csrRegUart0Tx,
      uart0TxDrvbufStart ||| BitVec.ofNat 32 buf.length⟩ := by
    rw [csrIn, hgo, hh]
  have hfsm : s.tx.fsm (s.csrIn i) s.readAck s.readData = { s.tx with
      txCtrl := (uart0TxDrvbufStart ||| BitVec.ofNat 32 buf.length).extractLsb' 8 24
      txBufLen := (uart0TxDrvbufStart ||| BitVec.ofNat 32 buf.length).extractLsb' 0 8
      txBufCurpos := 0#8
      txState := .running } := by
    rw [UartTx.fsm, hidle, hcsr]
    simp only [if_true, if_pos hbit]
  have hsoft : (s.disturb i).software i.software = { s.disturb i with handler := .setActive } := by
    rw [hgo, software, goOn]
    simp [disturb, hh]
  refine .sending loaded buf 0 ?_ (.inl ?_) ?_ ?_ (by simp) ⟨?_, ?_, ?_, ?_⟩
  · simp only [step, UartTx.step_txIntrToggle, hfsm, hsoft]
    exact hintr
  · simp only [step, hsoft]
  · simp only [step, hsoft]
    exact hcall
  · simp only [step, hsoft]
    exact hstored
  · simp only [step, UartTx.step_txCtrl, hfsm]
    exact hctrl
  · simp only [step, UartTx.step_txBufLen, hfsm]
    exact hcount
  · intro j hj
    simp only [step, hsoft]
    exact hmem.disturb hlen i j hj
  · simp only [step, UartTx.step_txState, UartTx.step_txBufCurpos, UartTx.step_readR, hfsm,
      if_neg (answers_eq_false hdma)]
    exact ⟨rfl, by omega, hdma⟩

/-- Driver flag and interrupt rest while the handler fills the buffer. -/
theorem goOn_keeps (h : s.Filling loaded) :
    s.goOn.active = s.active ∧ s.goOn.txIntrAck = s.txIntrAck := by
  rw [Filling] at h
  unfold goOn
  cases hh : s.handler with
  | idle => exact ⟨rfl, rfl⟩
  | enter u =>
      rw [hh] at h
      exact absurd h id
  | setActive =>
      rw [hh] at h
      exact absurd h id
  | consume start =>
      dsimp only
      split
      · split <;> exact ⟨rfl, rfl⟩
      · exact ⟨rfl, rfl⟩
  | copy buf k => exact ⟨rfl, rfl⟩
  | flush x k => exact ⟨rfl, rfl⟩
  | setTx x => exact ⟨rfl, rfl⟩

/-- While the buffer is filled. -/
theorem Phase.filling_step (hidle : s.tx.txState = .idle) (hdma : s.tx.readR = s.readAck)
    (hintr : s.tx.txIntrToggle = s.txIntrAck) (hactive : s.active = false)
    (hfill : s.Filling loaded) (i : TxInput) : Phase (s.step i) loaded := by
  have hbusy : s.handler ≠ .idle := by
    intro hh
    rw [Filling, hh] at hfill
    exact hfill
  have hfill' := hfill.disturb i
  by_cases hgo : i.software = .go
  · by_cases hset : ∃ x, s.handler = .setTx x
    · obtain ⟨x, hh⟩ := hset
      exact Phase.setTx_step hidle hdma hintr hh hfill hgo
    · obtain ⟨h1, h2, h3⟩ := step_idle_tx hidle hdma
        (csrIn_invalid (i := i) fun x hx => absurd ⟨x, hx⟩ hset)
      have hsoft : (s.disturb i).software i.software = (s.disturb i).goOn := by rw [hgo, software]
      obtain ⟨k1, k2⟩ := goOn_keeps hfill'
      have hflag : (s.step i).active = false := by
        rw [step, hsoft]
        exact k1.trans hactive
      have hack : (s.step i).tx.txIntrToggle = (s.step i).txIntrAck := by
        rw [h3, hintr, step, hsoft]
        exact k2.symm
      have hnext : (s.disturb i).goOn.Filling loaded → Phase (s.step i) loaded := by
        intro hf
        refine .filling h1 h2 hack hflag (hf.congr ?_ ?_ ?_)
        · rw [step, hsoft]
        · rw [step, hsoft]
        · rw [step, hsoft]
      have hd : (s.disturb i).handler = s.handler := rfl
      cases hh : s.handler with
      | idle => exact absurd hh hbusy
      | enter u =>
          rw [Filling, hh] at hfill
          exact absurd hfill id
      | setActive =>
          rw [Filling, hh] at hfill
          exact absurd hfill id
      | setTx x => exact absurd ⟨x, hh⟩ hset
      | copy buf k => exact hnext (copy_goOn (hd.trans hh) hfill')
      | flush x k => exact hnext (flush_goOn (hd.trans hh) hfill')
      | consume start =>
          obtain ⟨-, hf | ⟨hf, hret, hall⟩⟩ := consume_goOn (hd.trans hh) hfill'
          · exact hnext hf
          · refine .quiet h1 h2 hack (.inl ?_) ?_ ?_ ?_
            · rw [step, hsoft]
              exact hf
            · intro ha
              exact absurd (hflag.symm.trans ha) (by decide)
            · rw [step, hsoft]
              exact hret
            · rw [step, hsoft]
              exact hall
  · obtain ⟨h1, h2, h3⟩ := step_idle_tx hidle hdma (csrIn_invalid (i := i) fun _ _ => hgo)
    have hsoft := software_of_handler (s := s.disturb i) hbusy hgo
    refine .filling h1 h2 ?_ ?_ (hfill'.congr ?_ ?_ ?_)
    · rw [h3, hintr, step, hsoft]
      rfl
    · rw [step, hsoft]
      exact hactive
    · rw [step, hsoft]
    · rw [step, hsoft]
    · rw [step, hsoft]

/-! ### Sending -/

/-- A waiting driver makes no CSR write. -/
theorem Waits.csrIn (h : s.Waits) (i : TxInput) : (s.csrIn i).csrOpValid = false := by
  refine csrIn_invalid fun x hx => ?_
  rcases h with h | ⟨-, h | h⟩ <;> simp [h] at hx

/-- The software while the transmitter sends: it goes on waiting for the interrupt. -/
theorem Waits.step (h : s.Waits) (hcall : s.ring.Returned)
    (hintr : s.tx.txIntrToggle = s.txIntrAck) (i : TxInput) :
    (s.step i).Waits ∧ (s.step i).ring.Returned ∧ (s.step i).ring.stored = s.ring.stored ∧
      (s.step i).memory = (s.disturb i).memory ∧ (s.step i).txIntrAck = s.txIntrAck := by
  have hd : (s.disturb i).Waits := h
  obtain ⟨h1, h2, h3, h4⟩ := hd.software hcall i.software
  rcases h4 with ⟨h4, h5⟩ | ⟨h4, -⟩
  · exact ⟨h4, h3, h2, h1, h5⟩
  · exact absurd hintr h4

/-- The address of a byte of the driver buffer. -/
theorem readAddr_eq {pos : BitVec 8} : (1#24).extractLsb' 0 17 ++ pos = txDrvbufByte pos.toNat := by
  have hpos := pos.isLt
  apply BitVec.eq_of_toNat_eq
  rw [txDrvbufByte_toNat hpos, toNat_append_eq]
  rfl

/-- A transfer has at most 255 bytes. -/
theorem sending_length {buf : List (BitVec 8)} {n : ℕ} (h : s.Sending buf n) :
    buf.length ≤ 255 := by
  have := s.tx.txBufLen.isLt
  have := h.len
  omega

/-- A transfer in progress while its driver waits. -/
structure Transfer (s : TxSystem) (loaded before buf : List (BitVec 8)) (n : ℕ) : Prop where
  intr : s.tx.txIntrToggle = s.txIntrAck
  waits : s.Waits
  call : s.ring.Returned
  stored : before ++ buf = s.ring.stored
  loaded : before ++ buf.take n = loaded
  sending : s.Sending buf n

/-- The transfer goes on: its registers rest, up to {lit}`k` bytes have been loaded. -/
theorem Transfer.keep {before buf : List (BitVec 8)} {n k : ℕ} {loaded' : List (BitVec 8)}
    {i : TxInput} (h : s.Transfer loaded before buf n) {x : UartTx}
    (hfsm : s.tx.fsm (s.csrIn i) s.readAck s.readData = x)
    (htoggle : x.txIntrToggle = s.tx.txIntrToggle) (hctrl : x.txCtrl = s.tx.txCtrl)
    (hlen : x.txBufLen = s.tx.txBufLen) (hloaded : before ++ buf.take k = loaded')
    (hpos : match x.txState with
      | .idle => False
      | .running =>
          x.txBufCurpos.toNat = k ∧ k ≤ buf.length ∧ x.readR = (s.step i).readAck
      | .readmemWait =>
          x.txBufCurpos.toNat = k ∧ x.readAddr = txDrvbufByte k ∧
            ∃ h : k < buf.length, x.readR = (s.step i).readAck → (s.step i).readData = buf[k]
      | .txdWait =>
          x.txBufCurpos.toNat + 1 = k ∧ k ≤ buf.length ∧ x.readR = (s.step i).readAck) :
    Phase (s.step i) loaded' := by
  obtain ⟨h1, h2, h3, h4, h5⟩ := h.waits.step h.call h.intr i
  have htx : (s.step i).tx = s.tx.step (s.csrIn i) s.readAck s.readData := rfl
  refine .sending before buf k ?_ h1 h2 (h.stored.trans h3.symm) hloaded ⟨?_, ?_, ?_, ?_⟩
  · rw [htx, UartTx.step_txIntrToggle, hfsm, htoggle, h.intr, h5]
  · rw [htx, UartTx.step_txCtrl, hfsm, hctrl]
    exact h.sending.ctrl
  · rw [htx, UartTx.step_txBufLen, hfsm, hlen]
    exact h.sending.len
  · intro j hj
    rw [h4]
    exact h.sending.memory.disturb (sending_length h.sending) i j hj
  · rw [htx]
    simp only [UartTx.step_txState, UartTx.step_txBufCurpos, UartTx.step_readAddr,
      UartTx.step_readR, hfsm]
    exact hpos

/-- The DMA channel rests without a request. -/
theorem readAck_step {i : TxInput} (hdma : s.tx.readR = s.readAck) :
    (s.step i).readAck = s.readAck := by
  simp only [step, if_neg (answers_eq_false hdma)]

/-- Between two bytes the transfer ends or asks for the next byte. -/
theorem Transfer.step_running {before buf : List (BitVec 8)} {n : ℕ}
    (h : s.Transfer loaded before buf n) (hst : s.tx.txState = .running) (i : TxInput) :
    Phase (s.step i) loaded := by
  have hpos := h.sending.position
  rw [hst] at hpos
  obtain ⟨hcur, hle, hdma⟩ := hpos
  have hlen := h.sending.len
  by_cases hmore : s.tx.txBufCurpos = s.tx.txBufLen
  · -- all bytes are out
    have hfsm : s.tx.fsm (s.csrIn i) s.readAck s.readData =
        { s.tx with txIntrToggle := !s.tx.txIntrToggle, txState := .idle } := by
      rw [UartTx.fsm, hst]
      simp [hmore]
    obtain ⟨h1, h2, h3, -, h5⟩ := h.waits.step h.call h.intr i
    have hn : n = buf.length := by rw [← hcur, hmore, hlen]
    refine .completed ?_ ?_ ?_ h1 h2 ?_
    · simp only [step, UartTx.step_txState, hfsm]
    · rw [readAck_step hdma, ← hdma]
      simp only [step, UartTx.step_readR, hfsm]
    · rw [h5, ← h.intr]
      simp only [step, UartTx.step_txIntrToggle, hfsm]
      exact Bool.not_ne_self _
    · rw [h3, ← h.stored, ← h.loaded, hn, List.take_length]
  · have hfsm : s.tx.fsm (s.csrIn i) s.readAck s.readData = { s.tx with
        readAddr := s.tx.txCtrl.extractLsb' 0 17 ++ s.tx.txBufCurpos
        readR := !s.tx.readR
        txState := .readmemWait } := by
      rw [UartTx.fsm, hst]
      simp [hmore]
    have hlt : n < buf.length := by
      have hne : s.tx.txBufCurpos.toNat ≠ s.tx.txBufLen.toNat :=
        fun h => hmore (BitVec.eq_of_toNat_eq h)
      omega
    refine h.keep hfsm rfl rfl rfl h.loaded ⟨hcur, ?_, hlt, fun heq => ?_⟩
    · rw [h.sending.ctrl, readAddr_eq, hcur]
    · rw [readAck_step hdma, ← hdma] at heq
      exact absurd heq (Bool.not_ne_self _)

/-- The byte that memory answers with is loaded. -/
theorem Transfer.step_readmemWait {before buf : List (BitVec 8)} {n : ℕ}
    (h : s.Transfer loaded before buf n) (hst : s.tx.txState = .readmemWait) (i : TxInput) :
    Phase (s.step i) (loaded ++ (s.tx.loadedByte s.readAck s.readData).toList) := by
  have hpos := h.sending.position
  rw [hst] at hpos
  obtain ⟨hcur, haddr, hlt, hdata⟩ := hpos
  by_cases hack : s.tx.readR = s.readAck
  · have hfsm : s.tx.fsm (s.csrIn i) s.readAck s.readData = { s.tx with
        txdStart := !s.tx.txdStart, txdByte := s.readData, txState := .txdWait } := by
      rw [UartTx.fsm, hst]
      exact if_pos hack
    rw [UartTx.loadedByte, if_pos ⟨hst, hack⟩, Option.toList_some, hdata hack, ← h.loaded,
      List.append_assoc]
    refine h.keep hfsm rfl rfl rfl (k := n + 1) ?_ ⟨?_, hlt, ?_⟩
    · rw [List.take_succ_eq_append_getElem hlt]
    · rw [hcur]
    · rw [readAck_step hack]
      exact hack
  · have hfsm : s.tx.fsm (s.csrIn i) s.readAck s.readData = s.tx := by
      rw [UartTx.fsm, hst]
      exact if_neg hack
    rw [UartTx.loadedByte, if_neg fun h => hack h.2, Option.toList_none, List.append_nil]
    refine h.keep hfsm rfl rfl rfl h.loaded ?_
    rw [hst]
    refine ⟨hcur, haddr, hlt, fun heq => ?_⟩
    -- the DMA channel answers with the byte in memory
    simp only [step] at heq ⊢
    by_cases hans : s.answers i
    · rw [if_pos hans, haddr]
      exact (h.sending.memory n hlt).mem
    · rw [if_neg hans] at heq
      exact absurd heq hack

/-- The byte goes out, then the next one is counted. -/
theorem Transfer.step_txdWait {before buf : List (BitVec 8)} {n : ℕ}
    (h : s.Transfer loaded before buf n) (hst : s.tx.txState = .txdWait) (i : TxInput) :
    Phase (s.step i) loaded := by
  have hpos := h.sending.position
  rw [hst] at hpos
  obtain ⟨hcur, hle, hdma⟩ := hpos
  have h255 := sending_length h.sending
  have hrest := readAck_step (i := i) hdma
  by_cases hdone : s.tx.txdStart = s.tx.txdStartAck
  · have hfsm : s.tx.fsm (s.csrIn i) s.readAck s.readData = { s.tx with
        txState := .running, txBufCurpos := s.tx.txBufCurpos + 1#8 } := by
      rw [UartTx.fsm, hst]
      exact if_pos hdone
    refine h.keep hfsm rfl rfl rfl h.loaded ⟨?_, hle, by rw [hrest]; exact hdma⟩
    rw [BitVec.toNat_add]
    change (s.tx.txBufCurpos.toNat + 1) % 256 = n
    omega
  · refine h.keep (UartTx.fsm_of_started hst hdone) rfl rfl rfl h.loaded ?_
    rw [hst]
    exact ⟨hcur, hle, by rw [hrest]; exact hdma⟩

/-- While a transfer goes on. -/
theorem Transfer.step {before buf : List (BitVec 8)} {n : ℕ}
    (h : s.Transfer loaded before buf n) (i : TxInput) :
    Phase (s.step i) (loaded ++ (s.tx.loadedByte s.readAck s.readData).toList) := by
  cases hst : s.tx.txState with
  | idle =>
      have hpos := h.sending.position
      rw [hst] at hpos
      exact absurd hpos id
  | running =>
      rw [loadedByte_of_state (by rw [hst]; decide), Option.toList_none, List.append_nil]
      exact h.step_running hst i
  | readmemWait => exact h.step_readmemWait hst i
  | txdWait =>
      rw [loadedByte_of_state (by rw [hst]; decide), Option.toList_none, List.append_nil]
      exact h.step_txdWait hst i

/-! ### Completed -/

/-- While the interrupt of a transfer is outstanding. -/
theorem Phase.completed_step (hidle : s.tx.txState = .idle) (hdma : s.tx.readR = s.readAck)
    (hintr : s.tx.txIntrToggle ≠ s.txIntrAck) (hwaits : s.Waits) (hcall : s.ring.Returned)
    (i : TxInput) : Phase (s.step i) s.ring.stored := by
  obtain ⟨h1, h2, h3⟩ := step_idle_tx hidle hdma (hwaits.csrIn i)
  have hd : (s.disturb i).Waits := hwaits
  obtain ⟨-, k2, k3, k4⟩ := hd.software hcall i.software
  rcases k4 with ⟨k4, k5⟩ | ⟨-, k4, k5⟩
  · refine .completed h1 h2 ?_ k4 k3 k2.symm
    intro heq
    rw [h3] at heq
    exact hintr (heq.trans k5)
  · exact .quiet h1 h2 (h3.trans k5.symm) (.inr ⟨true, k4⟩) (fun _ => k4) k3 k2.symm

/-- A cycle keeps the phase of the transmit path. -/
theorem Phase.step (h : s.Phase loaded) (i : TxInput) :
    (s.step i).Phase (loaded ++ (s.tx.loadedByte s.readAck s.readData).toList) := by
  cases h with
  | quiet hidle hdma hintr hhandler hactive hcall hall =>
      rw [loaded_of_idle hidle, hall]
      exact Phase.quiet_step hidle hdma hintr hhandler hactive hcall i
  | filling hidle hdma hintr hactive hfill =>
      rw [loaded_of_idle hidle]
      exact Phase.filling_step hidle hdma hintr hactive hfill i
  | sending before buf n hintr hwaits hcall hstored hloaded hsending =>
      exact Transfer.step ⟨hintr, hwaits, hcall, hstored, hloaded, hsending⟩ i
  | completed hidle hdma hintr hwaits hcall hall =>
      rw [loaded_of_idle hidle, hall]
      exact Phase.completed_step hidle hdma hintr hwaits hcall i

end Steps

/-! ## Runs -/

/-- The software moves the ring by its own steps only. -/
theorem ring_software (s : TxSystem) (sw : TxSoftware) :
    (s.software sw).ring = s.ring ∨ ∃ a, (s.software sw).ring = s.ring.step a := by
  cases sw with
  | none => exact .inl rfl
  | write buf =>
      rw [software]
      cases s.handler with
      | idle => exact .inr ⟨.callProduce buf true, rfl⟩
      | _ => exact .inl rfl
  | application =>
      rw [software]
      cases s.handler with
      | idle => exact .inr ⟨.producer, rfl⟩
      | _ => exact .inl rfl
  | timer =>
      rw [software]
      cases s.handler with
      | _ => exact .inl rfl
  | uart0Tx =>
      rw [software]
      cases s.handler with
      | idle =>
          dsimp only
          split <;> exact .inl rfl
      | _ => exact .inl rfl
  | go =>
      rw [software, goOn]
      cases s.handler with
      | enter uartIntr =>
          by_cases hempty : uartIntr = true ∨ (if uartIntr = true then false else s.active) = false
          · exact .inr ⟨.callConsume 255 false, by simp only [if_pos hempty]⟩
          · exact .inl (by simp only [if_neg hempty])
      | consume start =>
          cases s.ring.consume with
          | returned x =>
              dsimp only
              split <;> exact .inl rfl
          | _ => exact .inr ⟨.consumer, rfl⟩
      | _ => exact .inl rfl

/-- The transmit path after any cycles with the engine on. -/
structure Inv (s : TxSystem) (loaded : List (BitVec 8)) : Prop where
  ring : ∃ P C, s.ring.Inv P C
  line : OnLine s.tx s.line loaded
  phase : s.Phase loaded

/-- The invariant holds at the start. -/
theorem Started.inv {s : TxSystem} (h : s.Started) : s.Inv [] := by
  obtain ⟨mem, hring⟩ := h.ring
  have hline := h.line
  refine ⟨⟨0, 0, ?_⟩, ⟨fun _ => ?_, fun hne => absurd h.bits.1 hne⟩, ?_⟩
  · rw [hring]
    exact RingSystem.inv_init (by decide) mem
  · rw [hline]
    exact ⟨h.bits.2, rfl, rfl⟩
  · refine .quiet h.idle h.dma h.intr (.inl h.handler) (fun ha => ?_) ⟨0, by rw [hring]; rfl⟩
      (by rw [hring]; rfl)
    rw [h.active] at ha
    cases ha

/-- The invariant is kept. -/
theorem Inv.step {s : TxSystem} {loaded : List (BitVec 8)} (h : s.Inv loaded) (i : TxInput) :
    (s.step i).Inv (loaded ++ (s.tx.loadedByte s.readAck s.readData).toList) := by
  refine ⟨?_, h.line.step (s.csrIn i) s.readAck s.readData, h.phase.step i⟩
  obtain ⟨P, C, hring⟩ := h.ring
  rcases ring_software (s.disturb i) i.software with hsame | ⟨a, hstep⟩
  · exact ⟨P, C, by rw [TxSystem.step, hsame]; exact hring⟩
  · obtain ⟨P', C', hnext⟩ := hring.step a
    exact ⟨P', C', by rw [TxSystem.step, hstep]; exact hnext⟩

/-- The invariant holds in every run. -/
theorem inv_run {s : TxSystem} (h : s.Started) (inp : ℕ → TxInput) (t : ℕ) :
    ∃ loaded, (s.run inp t).Inv loaded :=
  Clocked.run_invariant (P := fun s => ∃ loaded, Inv s loaded) ⟨[], h.inv⟩
    (fun t ⟨_, hinv⟩ => ⟨_, hinv.step (inp t)⟩) t

/-- The driver stores to its buffer or flushes it in this cycle. -/
def FillsBuffer (s : TxSystem) (i : TxInput) : Prop :=
  i.software = .go ∧ ((∃ buf k, s.handler = .copy buf k) ∨ ∃ x k, s.handler = .flush x k)

/-- What the transmit path keeps to in a state and in the cycle that follows. -/
structure Transmits (s : TxSystem) (i : TxInput) : Prop where
  /-- The frames on the line are the first bytes put into the ring. -/
  inOrder : s.line.frames <+: s.ring.taken
  /-- {lit}`uart0_set_tx` finds the transmitter in {lit}`TX_IDLE`. -/
  accepted : (s.csrIn i).csrOpValid = true → s.tx.txState = .idle
  /-- The driver works on its buffer in {lit}`TX_IDLE` only. -/
  untouched : s.FillsBuffer i → s.tx.txState = .idle
  /-- Memory keeps the bytes of a transfer. -/
  unchanged : s.tx.txState ≠ .idle → ∀ k < s.tx.txBufLen.toNat,
    (s.step i).memory.mem (txDrvbufByte k) = s.memory.mem (txDrvbufByte k)
  /-- The driver does not count on an interrupt that never comes. -/
  alive : s.active = true → s.handler = .idle →
    s.tx.txState ≠ .idle ∨ s.tx.txIntrToggle ≠ s.txIntrAck

/-- Bytes are loaded in the order of the ring. -/
theorem Phase.loaded_prefix {s : TxSystem} {loaded : List (BitVec 8)} (h : s.Phase loaded) :
    loaded <+: s.ring.stored := by
  cases h with
  | quiet hidle hdma hintr hhandler hactive hcall hall => rw [hall]
  | filling hidle hdma hintr hactive hfill =>
      rw [Filling] at hfill
      cases hh : s.handler with
      | consume start =>
          rw [hh] at hfill
          exact hfill.2.1
      | copy buf k =>
          rw [hh] at hfill
          exact ⟨buf, hfill.2.1⟩
      | flush x k =>
          rw [hh] at hfill
          obtain ⟨-, buf, hstored, -⟩ := hfill
          exact ⟨buf, hstored⟩
      | setTx x =>
          rw [hh] at hfill
          obtain ⟨-, buf, hstored, -⟩ := hfill
          exact ⟨buf, hstored⟩
      | _ =>
          rw [hh] at hfill
          exact absurd hfill id
  | sending before buf n hintr hwaits hcall hstored hloaded hsending =>
      rw [← hloaded, ← hstored]
      exact (List.prefix_append_right_inj before).mpr (List.take_prefix n buf)
  | completed hidle hdma hintr hwaits hcall hall => rw [hall]

/-- Frames go over the line in the order of loading. -/
theorem OnLine.frames_prefix {tx : UartTx} {line : LineDecoder} {loaded : List (BitVec 8)}
    (h : OnLine tx line loaded) : line.frames <+: loaded := by
  by_cases hrest : tx.txdStart = tx.txdStartAck
  · rw [(h.rest hrest).2.2]
  · exact ⟨_, (h.busy hrest).2.1⟩

/-- Outside {lit}`TX_IDLE` a transfer is on its way. -/
theorem Phase.sending_of_state {s : TxSystem} {loaded : List (BitVec 8)} (h : s.Phase loaded)
    (hst : s.tx.txState ≠ .idle) :
    s.Waits ∧ s.ring.Returned ∧ s.tx.txIntrToggle = s.txIntrAck ∧ ∃ buf n, s.Sending buf n := by
  cases h with
  | quiet hidle => exact absurd hidle hst
  | filling hidle => exact absurd hidle hst
  | sending before buf n hintr hwaits hcall hstored hloaded hsending =>
      exact ⟨hwaits, hcall, hintr, buf, n, hsending⟩
  | completed hidle => exact absurd hidle hst

/-- The invariant gives what the transmit path keeps to. -/
theorem Inv.transmits {s : TxSystem} {loaded : List (BitVec 8)} (h : s.Inv loaded) (i : TxInput) :
    s.Transmits i where
  inOrder := by
    obtain ⟨P, C, hring⟩ := h.ring
    exact (OnLine.frames_prefix h.line).trans (h.phase.loaded_prefix.trans hring.inOrder)
  accepted := by
    intro hvalid
    by_contra hst
    rw [(h.phase.sending_of_state hst).1.csrIn i] at hvalid
    cases hvalid
  untouched := by
    rintro ⟨-, hfill⟩
    by_contra hst
    have hwaits := (h.phase.sending_of_state hst).1
    rcases hfill with ⟨buf, k, hh⟩ | ⟨x, k, hh⟩
    · rcases hwaits with hw | ⟨-, hw | hw⟩ <;> simp [hh] at hw
    · rcases hwaits with hw | ⟨-, hw | hw⟩ <;> simp [hh] at hw
  unchanged := by
    intro hst k hk
    obtain ⟨hwaits, hcall, hintr, buf, n, hsending⟩ := h.phase.sending_of_state hst
    have hlen : k < buf.length := by rwa [hsending.len] at hk
    obtain ⟨-, -, -, hmem, -⟩ := hwaits.step hcall hintr i
    rw [hmem, (hsending.memory k hlen).mem]
    exact (hsending.memory.disturb (sending_length hsending) i k hlen).mem
  alive := by
    intro ha hh
    cases h.phase with
    | quiet hidle hdma hintr hhandler hactive hcall hall =>
        rw [hactive ha] at hh
        cases hh
    | filling hidle hdma hintr hactive hfill =>
        rw [hactive] at ha
        cases ha
    | sending before buf n hintr hwaits hcall hstored hloaded hsending =>
        refine .inl fun hidle => ?_
        have hpos := hsending.position
        rw [hidle] at hpos
        exact hpos
    | completed hidle hdma hintr hwaits hcall hall => exact .inr hintr

end TxSystem

/-- In every interleaving of calls to {lit}`uart0_blocking_write`, timer interrupts and transmit
interrupts the frames on the line are a prefix of the bytes put into the ring, and the driver
touches its buffer and {lit}`UART0_TX` only while the transmitter rests. -/
theorem transmit_path (s : TxSystem) (h : s.Started) (inp : ℕ → TxInput) (t : ℕ) :
    (s.run inp t).Transmits (inp t) := by
  obtain ⟨loaded, hinv⟩ := TxSystem.inv_run h inp t
  exact hinv.transmits (inp t)

/-- Power-up with the engine on and the fastest line. -/
def txStart : TxSystem where
  ring := RingSystem.init uart0TxStreambufStart uart0TxStreambufEnd fun _ => 0#8
  tx := { UartTx.init with txBaud := 1#12 }
  memory := CachedMemory.init fun _ => 0#8
  readAck := false
  readData := 0#8
  txIntrAck := false
  handler := .idle
  active := false
  line := ⟨none, []⟩

/-- The application writes one byte, and a timer interrupt follows. -/
def oneByte (t : ℕ) : TxInput where
  software := if t = 0 then .write [0x41#8] else if t < 6 then .application
    else if t = 6 then .timer else .go
  others := []
  dmaDone := true

/-- In cycle 15 the handler is about to start the transmitter with that byte, and in cycle 100 its
frame has gone over the line. -/
theorem transmit_path_oneByte :
    (txStart.run oneByte 15).handler = .setTx 1 ∧ (txStart.run oneByte 15).Transmits (oneByte 15) ∧
      (txStart.run oneByte 100).line.frames = [0x41#8] ∧
        (txStart.run oneByte 100).Transmits (oneByte 100) :=
  have hstart : txStart.Started := ⟨⟨_, rfl⟩, rfl, ⟨rfl, rfl⟩, rfl, rfl, rfl, rfl, rfl⟩
  ⟨by decide +kernel, transmit_path txStart hstart oneByte 15, by decide +kernel,
    transmit_path txStart hstart oneByte 100⟩

end Sumeru
