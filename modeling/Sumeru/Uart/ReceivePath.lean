import Sumeru.Uart.Reception

/-!
# Sumeru - Exactly-once delivery of received bytes

Between two restarts of the buffer the receiver fills a round of at most 255 bytes, and
the driver has passed on a part of it.  A restart that the receiver has not acknowledged
yet leaves the old position in the register while the driver already counts from zero: a
timer interrupt in this window passes on the old round a second time.

Main results:

- Theorem {lit}`UartSystem.phase_reached`: the phases cover every undisturbed run.
- Theorem {lit}`uart_delivers_once`: in undisturbed runs every byte is delivered exactly once.
- Theorem {lit}`uart_redelivers`: a timer interrupt in the window delivers 255 bytes twice.
-/

namespace Sumeru

namespace UartSystem

/-! ## A round of the buffer -/

/-- The addresses of the driver buffer. -/
theorem drvbufAddr_toNat {k : ℕ} (hk : k < 256) : (drvbufAddr k).toNat = 512 + k := by
  rw [drvbufAddr, uart0RxDrvbufStart, BitVec.toNat_ofNat]
  omega

/-- Different bytes of the driver buffer. -/
theorem drvbufAddr_inj {j k : ℕ} (hj : j < 256) (hk : k < 256) (h : drvbufAddr j = drvbufAddr k) :
    j = k := by
  have := congrArg BitVec.toNat h
  rw [drvbufAddr_toNat hj, drvbufAddr_toNat hk] at this
  omega

/-- The DMA address of a buffer position. -/
theorem writeAddr_eq (c : BitVec 8) : (2#24).extractLsb' 0 17 ++ c = drvbufAddr c.toNat := by
  apply BitVec.eq_of_toNat_eq
  have hc := c.isLt
  rw [drvbufAddr_toNat hc, BitVec.toNat_append, ← Nat.shiftLeft_add_eq_or_of_lt hc,
    Nat.shiftLeft_eq]
  have : ((2#24).extractLsb' 0 17).toNat = 2 := by decide
  rw [this]

/-- The buffer holds the round {lit}`l`, but for a last byte on its way. -/
structure Buffer (rx : UartRx) (mem : BitVec 25 → BitVec 8) (writeAck : Bool)
    (l : List (BitVec 8)) : Prop where
  closed : rx.rxResetCurpos = rx.rxResetCurposAck
  len : rx.rxBufLen = 255#8
  ctrl : rx.rxCtrl = 2#24
  length : l.length = rx.rxBufCurpos.toNat
  bytes : ∀ k, k + 1 < l.length ∨ (k < l.length ∧ rx.writeR = writeAck) →
    l[k]? = some (mem (drvbufAddr k))
  rest : rx.rxdState ≠ .memWait → rx.writeR = writeAck
  last : rx.writeR ≠ writeAck → ∃ n, l.length = n + 1 ∧ rx.writeAddr = drvbufAddr n ∧
    l[n]? = some rx.writeData

/-- The round is full: the receiver stores nothing more. -/
structure Full (rx : UartRx) : Prop where
  pos : rx.rxBufCurpos = 255#8
  rest : rx.rxdState ≠ .memWait

variable {rx : UartRx} {mem : BitVec 25 → BitVec 8} {writeAck : Bool} {l : List (BitVec 8)}

/-- Memory and acknowledge after the middle of a cycle. -/
def dmaMem (rx : UartRx) (mem : BitVec 25 → BitVec 8) (writeAck done : Bool) : BitVec 25 → BitVec 8 :=
  if done = true ∧ rx.writeR ≠ writeAck then Function.update mem rx.writeAddr rx.writeData else mem

def dmaAck (rx : UartRx) (writeAck done : Bool) : Bool :=
  if done = true ∧ rx.writeR ≠ writeAck then rx.writeR else writeAck

/-- The DMA channel completes the last byte or leaves it. -/
theorem Buffer.dma (h : Buffer rx mem writeAck l) (done : Bool) :
    Buffer rx (dmaMem rx mem writeAck done) (dmaAck rx writeAck done) l := by
  unfold dmaMem dmaAck
  split
  · rename_i hd
    obtain ⟨n, hn, haddr, hval⟩ := h.last hd.2
    have hlt : l.length < 256 := by
      rw [h.length]
      exact rx.rxBufCurpos.isLt
    refine ⟨h.closed, h.len, h.ctrl, h.length, ?_, fun _ => rfl, fun hne => absurd rfl hne⟩
    intro k hk
    have hkl : k < l.length := by omega
    by_cases hkn : k = n
    · rw [hkn, haddr, Function.update_self, hval]
    · have hne : drvbufAddr k ≠ rx.writeAddr := by
        rw [haddr]
        intro heq
        exact hkn (drvbufAddr_inj (by omega) (by omega) heq)
      rw [Function.update_of_ne hne]
      exact h.bytes k (.inl (by omega))
  · exact h

section BufferSteps

variable {csrIn : CsrChannelIn} {uartRx : Bool}

/-- An edge that stores nothing keeps the round. -/
theorem Buffer.step_quiet (h : Buffer rx mem writeAck l)
    (hcsr : csrIn.csrOpValid = true → csrIn.csrOpReg = csrRegUart0Rx →
      csrIn.csrOpData.getLsbD 31 = true)
    (hack : (rx.step csrIn writeAck uartRx).rxResetCurposAck = rx.rxResetCurposAck)
    (hpos : (rx.step csrIn writeAck uartRx).rxBufCurpos = rx.rxBufCurpos)
    (hreq : (rx.step csrIn writeAck uartRx).writeR = rx.writeR)
    (hst : (rx.step csrIn writeAck uartRx).rxdState ≠ .memWait →
      rx.rxdState ≠ .memWait ∨ rx.writeR = writeAck)
    (hdata : rx.rxdState = .memWait → rx.writeR ≠ writeAck →
      (rx.step csrIn writeAck uartRx).writeAddr = rx.writeAddr ∧
        (rx.step csrIn writeAck uartRx).writeData = rx.writeData) (done : Bool) :
    Buffer (rx.step csrIn writeAck uartRx) (dmaMem rx mem writeAck done)
      (dmaAck rx writeAck done) (l ++ (rx.storedByte writeAck).toList) := by
  obtain ⟨hctrl, hlen, hreset⟩ := rx.step_regs hcsr writeAck uartRx
  have hdma := h.dma done
  have hnone : rx.storedByte writeAck = none := by
    rw [rx.storedByte_eq csrIn writeAck uartRx, if_pos hreq]
  rw [hnone, Option.toList_none, List.append_nil]
  refine ⟨by rw [hreset, hack]; exact h.closed, hlen.trans h.len, hctrl.trans h.ctrl,
    by rw [hpos]; exact h.length, ?_, ?_, ?_⟩
  · rw [hreq]
    exact hdma.bytes
  · intro hne
    rw [hreq]
    rcases hst hne with hx | hx
    · exact hdma.rest hx
    · unfold dmaAck
      split
      · rfl
      · exact hx
  · rw [hreq]
    intro hne
    have hne' : rx.writeR ≠ writeAck := by
      intro heq
      unfold dmaAck at hne
      split at hne
      · exact hne rfl
      · exact hne heq
    have hmem : rx.rxdState = .memWait := by
      by_contra hx
      exact hne' (h.rest hx)
    obtain ⟨h1, h2⟩ := hdata hmem hne'
    rw [h1, h2]
    exact hdma.last hne

/-- An edge that stores a byte adds it to the round. -/
theorem Buffer.step_next (h : Buffer rx mem writeAck l)
    (hcsr : csrIn.csrOpValid = true → csrIn.csrOpReg = csrRegUart0Rx →
      csrIn.csrOpData.getLsbD 31 = true)
    (hst : rx.rxdState ≠ .memWait) (hroom : rx.rxBufCurpos ≠ rx.rxBufLen)
    (hack : (rx.step csrIn writeAck uartRx).rxResetCurposAck = rx.rxResetCurposAck)
    (hpos : (rx.step csrIn writeAck uartRx).rxBufCurpos = rx.rxBufCurpos + 1#8)
    (hreq : (rx.step csrIn writeAck uartRx).writeR = !rx.writeR)
    (hst' : (rx.step csrIn writeAck uartRx).rxdState = .memWait)
    (haddr : (rx.step csrIn writeAck uartRx).writeAddr =
      rx.rxCtrl.extractLsb' 0 17 ++ rx.rxBufCurpos)
    (hdata : (rx.step csrIn writeAck uartRx).writeData = rx.rxDataregData) (done : Bool) :
    Buffer (rx.step csrIn writeAck uartRx) (dmaMem rx mem writeAck done)
      (dmaAck rx writeAck done) (l ++ (rx.storedByte writeAck).toList) := by
  obtain ⟨hctrl, hlen, hreset⟩ := rx.step_regs hcsr writeAck uartRx
  have hne : (rx.step csrIn writeAck uartRx).writeR ≠ rx.writeR := by
    rw [hreq]
    exact Bool.not_ne_self _
  have hsome : rx.storedByte writeAck = some rx.rxDataregData := by
    rw [rx.storedByte_eq csrIn writeAck uartRx, if_neg hne]
  have hlt : rx.rxBufCurpos.toNat < 255 := by
    have h1 := rx.rxBufCurpos.isLt
    have h2 : rx.rxBufCurpos.toNat ≠ 255 := by
      intro hx
      rw [h.len] at hroom
      exact hroom (BitVec.eq_of_toNat_eq hx)
    omega
  have hold := h.rest hst
  have hack' : dmaAck rx writeAck done = writeAck := by
    unfold dmaAck
    exact if_neg (fun hx => hx.2 hold)
  have hmem' : dmaMem rx mem writeAck done = mem := by
    unfold dmaMem
    exact if_neg (fun hx => hx.2 hold)
  rw [hsome, Option.toList_some, hack', hmem']
  refine ⟨by rw [hreset, hack]; exact h.closed, hlen.trans h.len, hctrl.trans h.ctrl, ?_, ?_, ?_, ?_⟩
  · rw [hpos, List.length_append, h.length, BitVec.toNat_add]
    simp only [List.length_singleton, BitVec.toNat_ofNat]
    omega
  · intro k hk
    have hkl : k < l.length := by
      rcases hk with hk | hk
      · simpa using hk
      · exact absurd hk.2 (by rw [hreq, hold]; exact Bool.not_ne_self _)
    rw [List.getElem?_append_left hkl]
    exact h.bytes k (.inr ⟨hkl, hold⟩)
  · intro hx
    exact absurd hst' hx
  · intro _
    refine ⟨l.length, by simp, ?_, ?_⟩
    · rw [haddr, h.ctrl, writeAddr_eq, h.length]
    · rw [hdata]
      simp

/-- The receiver adds a byte to the round or leaves it. -/
theorem Buffer.step (h : Buffer rx mem writeAck l)
    (hcsr : csrIn.csrOpValid = true → csrIn.csrOpReg = csrRegUart0Rx →
      csrIn.csrOpData.getLsbD 31 = true) (uartRx done : Bool) :
    Buffer (rx.step csrIn writeAck uartRx) (dmaMem rx mem writeAck done)
      (dmaAck rx writeAck done) (l ++ (rx.storedByte writeAck).toList) := by
  cases rx.step_effect csrIn writeAck uartRx with
  | rest hack hpos hreq hst hintr hdata =>
      exact h.step_quiet hcsr hack hpos hreq (fun hne => .inl fun hx => hne (hst.mpr hx))
        (fun hx _ => hdata hx) done
  | restart hopen => exact absurd h.closed hopen
  | first hopen => exact absurd h.closed hopen
  | done hst hw hack hpos hreq hst' hintr =>
      exact h.step_quiet hcsr hack hpos hreq (fun _ => .inr hw) (fun _ hne => absurd hw hne) done
  | next hclosed hst hroom hack hpos hreq hst' hintr haddr hdata =>
      exact h.step_next hcsr hst hroom hack hpos hreq hst' haddr hdata done

end BufferSteps

/-- A full round stays as it is until the receiver is armed again. -/
theorem Full.step (hf : Full rx) (h : Buffer rx mem writeAck l) (csrIn : CsrChannelIn)
    (uartRx : Bool) :
    Full (rx.step csrIn writeAck uartRx) ∧ rx.storedByte writeAck = none ∧
      (rx.step csrIn writeAck uartRx).rxIntrToggle = rx.rxIntrToggle ∧
      (rx.step csrIn writeAck uartRx).rxResetCurposAck = rx.rxResetCurposAck ∧
      (rx.step csrIn writeAck uartRx).writeR = rx.writeR := by
  have hbyte := rx.storedByte_eq csrIn writeAck uartRx
  cases rx.step_effect csrIn writeAck uartRx with
  | rest hack hpos hreq hst hintr hdata =>
      refine ⟨⟨by rw [hpos]; exact hf.pos, fun hx => hf.rest (hst.mp hx)⟩, ?_, hintr, hack, hreq⟩
      rw [hbyte, if_pos hreq]
  | restart hopen => exact absurd h.closed hopen
  | first hopen => exact absurd h.closed hopen
  | next hclosed hst hroom => exact absurd (hf.pos.trans h.len.symm) hroom
  | done hst => exact absurd hst hf.rest

/-- The receive interrupt is raised with the last byte of a round. -/
theorem Buffer.intr_step (h : Buffer rx mem writeAck l) (csrIn : CsrChannelIn) (uartRx : Bool)
    (hne : (rx.step csrIn writeAck uartRx).rxIntrToggle ≠ rx.rxIntrToggle) :
    ¬ Full rx ∧ Full (rx.step csrIn writeAck uartRx) := by
  cases rx.step_effect csrIn writeAck uartRx with
  | rest hack hpos hreq hst hintr hdata => exact absurd hintr hne
  | restart hopen => exact absurd h.closed hopen
  | first hopen => exact absurd h.closed hopen
  | next hclosed hst hroom hack hpos hreq hst' hintr => exact absurd hintr hne
  | done hst hw hack hpos hreq hst' hintr =>
      refine ⟨fun hf => hf.rest hst, ?_, hst'⟩
      rw [hintr] at hne
      by_cases hlast : rx.rxBufCurpos = rx.rxBufLen
      · rw [hpos, hlast, h.len]
      · rw [if_neg hlast] at hne
        exact absurd rfl hne

/-- A full buffer has 255 bytes. -/
theorem Full.length (hf : Full rx) (h : Buffer rx mem writeAck l) : l.length = 255 := by
  rw [h.length, hf.pos]
  rfl

/-! ## The driver within a round -/

variable {s : UartSystem} {base : List (BitVec 8)}

/-- The software is in the handler of the receive interrupt. -/
def servesRx : Handler → Bool
  | .getRx uartIntr => uartIntr
  | .produce uartIntr _ _ _ => uartIntr
  | .setRx => true
  | .off | .idle => false

/-- How much of the round has been passed on. -/
def position (handler : Handler) (lastpos : ℕ) : ℕ :=
  match handler with
  | .produce _ _ next _ => next
  | .setRx => 255
  | _ => lastpos

/-- The bytes that a call will read are those of the round. -/
def Reads (handler : Handler) (l : List (BitVec 8)) : Prop :=
  ∀ uartIntr pos next line, handler = .produce uartIntr pos next line →
    next < pos ∧ pos ≤ l.length ∧ (uartIntr = true → pos = l.length) ∧
      ∀ x, line = some x → ∀ k, next ≤ k → k < pos → k / 16 = next / 16 →
        l[k]? = some (x (drvbufAddr k))

/-- After {lit}`base` the receiver has stored the round {lit}`l`, and the driver has passed on a part
of it. -/
structure Serving (s : UartSystem) (base l : List (BitVec 8)) : Prop where
  buffer : Buffer s.rx s.mem s.writeAck l
  engine : s.engineOn = true
  active : s.handler ≠ .off
  stored : s.stored = base ++ l
  delivered : s.delivered = base ++ l.take (position s.handler s.lastpos)
  position_le : position s.handler s.lastpos ≤ l.length
  intr : s.rx.rxIntrToggle ≠ s.rxIntrAck → Full s.rx ∧ servesRx s.handler = false
  serves : servesRx s.handler = true → Full s.rx
  reads : Reads s.handler l
  rearm : s.handler = .setRx → s.lastpos = 0

/-- What a step of the software has to provide; the receiver does its part by itself. -/
structure SoftwareStep (s s' : UartSystem) (base l : List (BitVec 8)) : Prop where
  engine : s'.engineOn = true
  active : s'.handler ≠ .off
  delivered : s'.delivered = base ++ l.take (position s'.handler s'.lastpos)
  position_le : position s'.handler s'.lastpos ≤ l.length
  intr : (s'.rxIntrAck = s.rxIntrAck ∧ (servesRx s'.handler = true → servesRx s.handler = true)) ∨
    (s'.rxIntrAck = s.rx.rxIntrToggle ∧ Full s.rx)
  serves : servesRx s'.handler = true → Full s.rx
  reads : Reads s'.handler l
  rearm : s'.handler = .setRx → s'.lastpos = 0

/-- The bytes to be read do not change when more arrive. -/
theorem Reads.append {handler : Handler} (h : Reads handler l) {l' : List (BitVec 8)}
    (hfull : servesRx handler = true → l' = []) : Reads handler (l ++ l') := by
  intro uartIntr pos next line heq
  obtain ⟨h1, h2, h3, h4⟩ := h uartIntr pos next line heq
  refine ⟨h1, ?_, ?_, ?_⟩
  · rw [List.length_append]
    omega
  · intro hb
    rw [hfull (by rw [heq]; exact hb), List.append_nil]
    exact h3 hb
  · intro x hx k hk1 hk2 hk3
    rw [List.getElem?_append_left (by omega)]
    exact h4 x hx k hk1 hk2 hk3

/-- Receiver and software together. -/
theorem Serving.combine (h : Serving s base l) {i : UartInput}
    (hcsr : (s.csrIn i).csrOpValid = true → (s.csrIn i).csrOpReg = csrRegUart0Rx →
      (s.csrIn i).csrOpData.getLsbD 31 = true)
    (hs : SoftwareStep s (s.software i.software) base l) :
    Serving (s.step i) base (l ++ (s.rx.storedByte s.writeAck).toList) := by
  have hb := h.buffer.step hcsr i.uartRx i.dmaDone
  have hfull : ∀ {hf : Full s.rx}, s.rx.storedByte s.writeAck = none ∧ Full (s.step i).rx ∧
      (s.step i).rx.rxIntrToggle = s.rx.rxIntrToggle := fun {hf} =>
    have := hf.step h.buffer (s.csrIn i) i.uartRx
    ⟨this.2.1, this.1, this.2.2.1⟩
  have htake : ∀ n, n ≤ l.length →
      (l ++ (s.rx.storedByte s.writeAck).toList).take n = l.take n := by
    intro n hn
    exact List.take_append_of_le_length hn
  refine ⟨hb, hs.engine, hs.active, ?_, ?_, ?_, ?_, ?_, ?_, hs.rearm⟩
  · change s.stored ++ _ = _
    rw [h.stored, List.append_assoc]
  · change (s.software i.software).delivered = _
    rw [hs.delivered]
    exact congrArg _ (htake _ hs.position_le).symm
  · rw [List.length_append]
    exact le_trans hs.position_le (Nat.le_add_right _ _)
  · intro hne
    change (s.step i).rx.rxIntrToggle ≠ (s.software i.software).rxIntrAck at hne
    by_cases htog : (s.step i).rx.rxIntrToggle = s.rx.rxIntrToggle
    · rcases hs.intr with ⟨hack, hsv⟩ | ⟨hack, -⟩
      · rw [htog, hack] at hne
        obtain ⟨hf, hno⟩ := h.intr hne
        refine ⟨(@hfull hf).2.1, ?_⟩
        rw [← Bool.not_eq_true]
        intro hx
        have := hsv hx
        rw [hno] at this
        cases this
      · rw [htog, hack] at hne
        exact absurd rfl hne
    · obtain ⟨hnf, hf'⟩ := h.buffer.intr_step (s.csrIn i) i.uartRx htog
      refine ⟨hf', ?_⟩
      rw [← Bool.not_eq_true]
      intro hx
      exact hnf (hs.serves hx)
  · intro hx
    exact (@hfull (hs.serves hx)).2.1
  · refine hs.reads.append fun hx => ?_
    rw [(@hfull (hs.serves hx)).1]
    rfl

/-! ### Steps of the software -/

/-- A cycle in which the software does nothing. -/
theorem Serving.rest (h : Serving s base l) : SoftwareStep s s base l :=
  ⟨h.engine, h.active, h.delivered, h.position_le, .inl ⟨rfl, id⟩, h.serves, h.reads, h.rearm⟩

/-- The position is the low byte of the register. -/
theorem getRx_eq (s : UartSystem) : s.getRx = s.rx.rxBufCurpos.toNat := by
  have hc := s.rx.rxBufCurpos.isLt
  rw [getRx, UartRx.csrSelResult, BitVec.toNat_append, ← Nat.shiftLeft_add_eq_or_of_lt hc,
    Nat.shiftLeft_eq]
  omega

/-- Without a call nothing is read. -/
theorem reads_of_ne {handler : Handler} (hne : ∀ b pos next line, handler ≠ .produce b pos next line) :
    Reads handler l :=
  fun b pos next line heq => absurd heq (hne b pos next line)

/-- A call that has passed on {lit}`n` bytes of the round ends; in the receive interrupt these are
all. -/
theorem Serving.finish (h : Serving s base l) {uartIntr : Bool} {s' : UartSystem} {n : ℕ}
    (hserves : servesRx s.handler = uartIntr) (hn : n ≤ l.length)
    (hall : uartIntr = true → n = l.length)
    (hdel : s'.delivered = base ++ l.take n) (hlast : s'.lastpos = n)
    (heng : s'.engineOn = s.engineOn) (hack : s'.rxIntrAck = s.rxIntrAck) :
    SoftwareStep s (s'.finish uartIntr) base l := by
  cases uartIntr with
  | false =>
      refine ⟨heng.trans h.engine, (fun hx => by cases hx), ?_, ?_, .inl ⟨hack, (fun hx => by cases hx)⟩,
        (fun hx => by cases hx), reads_of_ne (fun _ _ _ _ hx => by cases hx), (fun hx => by cases hx)⟩
      · rw [← hlast] at hdel
        exact hdel
      · rw [← hlast] at hn
        exact hn
  | true =>
      have hfull := h.serves hserves
      have hlen := hfull.length h.buffer
      refine ⟨heng.trans h.engine, (fun hx => by cases hx), ?_, hlen.ge, .inl ⟨hack, fun _ => hserves⟩,
        fun _ => hfull, reads_of_ne (fun _ _ _ _ hx => by cases hx), fun _ => ?_⟩
      · change s'.delivered = base ++ l.take 255
        rw [hdel, hall rfl, hlen]
      · change (if s'.engineOn = true then 0 else s'.lastpos) = 0
        rw [if_pos (heng.trans h.engine)]

/-- The position is read. -/
theorem Serving.step_getRx (h : Serving s base l) {uartIntr : Bool}
    (hh : s.handler = .getRx uartIntr) (refill : Bool) :
    SoftwareStep s (s.software (.go refill)) base l := by
  have hpos : s.getRx = l.length := by rw [getRx_eq, h.buffer.length]
  have hle : s.lastpos ≤ l.length := by
    have := h.position_le
    rw [hh] at this
    exact this
  have hserves : servesRx s.handler = uartIntr := by rw [hh]; rfl
  have hdel : s.delivered = base ++ l.take s.lastpos := by
    have := h.delivered
    rw [hh] at this
    exact this
  simp only [software, hh]
  split
  · rename_i hlt
    refine ⟨h.engine, (fun hx => by cases hx), hdel, hle, .inl ⟨rfl, fun hx => ?_⟩, fun hx => ?_, ?_,
      (fun hx => by cases hx)⟩
    · rw [hserves]
      exact hx
    · exact h.serves (by rw [hserves]; exact hx)
    · rintro b pos next line heq
      cases heq
      exact ⟨hlt, hpos.le, fun _ => hpos, fun x hx => by cases hx⟩
  · rename_i hge
    exact h.finish hserves hle (fun _ => by omega) hdel rfl rfl rfl

/-- A line that is loaded holds the bytes of the round that the call reads. -/
theorem Serving.line_loaded (h : Serving s base l) {pos : ℕ} (hpos : pos ≤ l.length) {k : ℕ}
    (hk : k < pos) (hdma : s.rx.writeR = s.writeAck ∨ s.rx.writeAddr ≠ drvbufAddr k) :
    l[k]? = some (s.mem (drvbufAddr k)) := by
  apply h.buffer.bytes
  by_cases hw : s.rx.writeR = s.writeAck
  · exact .inr ⟨by omega, hw⟩
  · left
    obtain ⟨n, hn, haddr, -⟩ := h.buffer.last hw
    have hno := hdma.resolve_left hw
    have : n ≠ k := by
      rintro rfl
      exact hno haddr
    omega

/-- One byte is passed on. -/
theorem Serving.step_produce (h : Serving s base l) {i : UartInput} (hu : Undisturbed s i)
    {uartIntr : Bool} {pos next : ℕ} {line : Option (BitVec 25 → BitVec 8)}
    (hh : s.handler = .produce uartIntr pos next line) {refill : Bool}
    (hgo : i.software = .go refill) : SoftwareStep s (s.software (.go refill)) base l := by
  obtain ⟨hlt, hpos, hall, hheld⟩ := h.reads uartIntr pos next line hh
  have hserves : servesRx s.handler = uartIntr := by rw [hh]; rfl
  have hdel : s.delivered = base ++ l.take next := by
    have := h.delivered
    rw [hh] at this
    exact this
  -- the line read from, whether held or just loaded
  have hline : ∀ k, next ≤ k → k < pos → k / 16 = next / 16 →
      l[k]? = some (s.lineOfByte line refill (drvbufAddr k)) := by
    intro k hk1 hk2 hk3
    cases refill with
    | true =>
        exact h.line_loaded hpos hk2 ((hu.line _ _ _ _ _ hh hgo (.inr rfl)).imp_right
          fun hno => hno k hk1 hk2 hk3)
    | false =>
        cases line with
        | none =>
            exact h.line_loaded hpos hk2 ((hu.line _ _ _ _ _ hh hgo (.inl rfl)).imp_right
              fun hno => hno k hk1 hk2 hk3)
        | some x => exact hheld x rfl k hk1 hk2 hk3
  have hbyte := hline next le_rfl hlt rfl
  have hdel' : s.delivered ++ [s.lineOfByte line refill (drvbufAddr next)] =
      base ++ l.take (next + 1) := by
    rw [hdel, List.take_add_one, hbyte, List.append_assoc]
    rfl
  simp only [software, hh, produceByte]
  split
  · rename_i hmore
    refine ⟨h.engine, (fun hx => by cases hx), hdel', ?_, .inl ⟨rfl, fun hx => ?_⟩, fun hx => ?_, ?_,
      (fun hx => by cases hx)⟩
    · change next + 1 ≤ l.length
      omega
    · rw [hserves]
      exact hx
    · exact h.serves (by rw [hserves]; exact hx)
    · rintro b pos' next' line' heq
      cases heq
      refine ⟨hmore, hpos, hall, ?_⟩
      intro x hx k hk1 hk2 hk3
      split at hx
      · cases hx
      · cases hx
        exact hline k (by omega) hk2 (by omega)
  · have hend : next + 1 = pos := by omega
    rw [hend] at hdel'
    exact h.finish hserves hpos hall hdel' rfl rfl rfl

/-- The software within a round. -/
theorem Serving.software (h : Serving s base l) {i : UartInput} (hu : Undisturbed s i)
    (hno : s.handler = .setRx → ∀ refill, i.software ≠ .go refill) :
    SoftwareStep s (s.software i.software) base l := by
  have hidle : ∀ b, s.handler = .idle →
      s.delivered = base ++ l.take (position (.getRx b) s.lastpos) ∧
        position (.getRx b) s.lastpos ≤ l.length := by
    intro b hh
    have h1 := h.delivered
    have h2 := h.position_le
    rw [hh] at h1 h2
    exact ⟨h1, h2⟩
  cases hsw : i.software with
  | none => exact h.rest
  | start =>
      cases hh : s.handler with
      | off => exact absurd hh h.active
      | _ => simpa only [UartSystem.software, hh] using h.rest
  | timer =>
      cases hh : s.handler with
      | idle =>
          obtain ⟨h1, h2⟩ := hidle false hh
          simp only [UartSystem.software, hh]
          exact ⟨h.engine, (fun hx => by cases hx), h1, h2, .inl ⟨rfl, (fun hx => by cases hx)⟩,
            (fun hx => by cases hx), reads_of_ne (fun _ _ _ _ hx => by cases hx), (fun hx => by cases hx)⟩
      | _ => simpa only [UartSystem.software, hh] using h.rest
  | uart0Rx =>
      cases hh : s.handler with
      | idle =>
          obtain ⟨h1, h2⟩ := hidle true hh
          simp only [UartSystem.software, hh]
          split
          · rename_i hne
            have hfull := (h.intr hne).1
            exact ⟨h.engine, (fun hx => by cases hx), h1, h2, .inr ⟨rfl, hfull⟩, fun _ => hfull,
              reads_of_ne (fun _ _ _ _ hx => by cases hx), (fun hx => by cases hx)⟩
          · exact h.rest
      | _ => simpa only [UartSystem.software, hh] using h.rest
  | go refill =>
      cases hh : s.handler with
      | getRx b => exact h.step_getRx hh refill
      | produce b pos next line => exact h.step_produce hu hh hsw
      | setRx => exact absurd hsw (hno hh refill)
      | _ => simpa only [UartSystem.software, hh] using h.rest

/-! ## The phases of a run -/

/-- The receiver has not been armed yet. -/
structure Unarmed (s : UartSystem) : Prop where
  len : s.rx.rxBufLen = 0#8
  pos : s.rx.rxBufCurpos = 0#8
  closed : s.rx.rxResetCurpos = s.rx.rxResetCurposAck
  rest : s.rx.rxdState ≠ .memWait
  dma : s.rx.writeR = s.writeAck
  intr : s.rx.rxIntrToggle = s.rxIntrAck
  stored : s.stored = []
  delivered : s.delivered = []

/-- The receiver has been armed and has not acknowledged it yet. -/
structure Rearmed (s : UartSystem) : Prop where
  opened : s.rx.rxResetCurpos ≠ s.rx.rxResetCurposAck
  len : s.rx.rxBufLen = 255#8
  ctrl : s.rx.rxCtrl = 2#24
  rest : s.rx.rxdState ≠ .memWait
  dma : s.rx.writeR = s.writeAck
  intr : s.rx.rxIntrToggle = s.rxIntrAck
  engine : s.engineOn = true
  lastpos : s.lastpos = 0
  handler : s.handler = .idle ∨ s.handler = .getRx false
  caughtUp : s.delivered = s.stored

/-- The phases of a run. -/
inductive Phase (s : UartSystem) : Prop where
  | off (hh : s.handler = .off) (h : Unarmed s)
  | starting (hh : s.handler = .setRx) (hlast : s.lastpos = 0) (heng : s.engineOn = true)
      (h : Unarmed s)
  | rearmed (h : Rearmed s)
  | serving (base l : List (BitVec 8)) (h : Serving s base l)

/-- Outside {lit}`uart0_set_rx` no restart is asked for. -/
theorem csrIn_keeps {i : UartInput}
    (hno : s.handler = .setRx → ∀ refill, i.software ≠ .go refill) :
    (s.csrIn i).csrOpValid = true → (s.csrIn i).csrOpReg = csrRegUart0Rx →
      (s.csrIn i).csrOpData.getLsbD 31 = true := by
  have hbaud : (baudWrite i).csrOpReg ≠ csrRegUart0Rx := by
    unfold baudWrite
    cases i.baud <;> simp [csrRegUart0RxBaud, csrRegUart0Rx]
  intro _ hr
  cases hsw : i.software with
  | go refill =>
      cases hh : s.handler with
      | setRx => exact absurd hsw (hno hh refill)
      | getRx b =>
          simp only [csrIn, hsw, hh]
          rfl
      | _ =>
          simp only [csrIn, hsw, hh] at hr
          exact absurd hr hbaud
  | _ =>
      simp only [csrIn, hsw] at hr
      exact absurd hr hbaud

/-- The handler arms the receiver. -/
theorem csrIn_rearms {i : UartInput} (hh : s.handler = .setRx) {refill : Bool}
    (hgo : i.software = .go refill) (heng : s.engineOn = true) :
    s.csrIn i = ⟨0#12, 0#2, true, csrRegUart0Rx, 0x2FF#32⟩ := by
  simp only [csrIn, hh, hgo, heng]
  rfl

/-- An unarmed receiver stores nothing. -/
theorem Unarmed.step_rx (h : Unarmed s) (csrIn : CsrChannelIn) (uartRx : Bool) :
    (s.rx.step csrIn s.writeAck uartRx).rxResetCurposAck = s.rx.rxResetCurposAck ∧
      (s.rx.step csrIn s.writeAck uartRx).rxBufCurpos = 0#8 ∧
      (s.rx.step csrIn s.writeAck uartRx).rxdState ≠ .memWait ∧
      (s.rx.step csrIn s.writeAck uartRx).writeR = s.rx.writeR ∧
      (s.rx.step csrIn s.writeAck uartRx).rxIntrToggle = s.rx.rxIntrToggle ∧
      s.rx.storedByte s.writeAck = none := by
  cases s.rx.step_effect csrIn s.writeAck uartRx with
  | rest hack hpos hreq hst hintr hdata =>
      refine ⟨hack, hpos.trans h.pos, fun hx => h.rest (hst.mp hx), hreq, hintr, ?_⟩
      rw [s.rx.storedByte_eq csrIn s.writeAck uartRx, if_pos hreq]
  | restart hopen => exact absurd h.closed hopen
  | first hopen => exact absurd h.closed hopen
  | next hclosed hst hroom => exact absurd (h.pos.trans h.len.symm) hroom
  | done hst => exact absurd hst h.rest

/-- With no DMA write outstanding the channel does nothing. -/
theorem step_dma_idle (h : s.rx.writeR = s.writeAck) (i : UartInput) :
    (s.step i).writeAck = s.writeAck ∧ (s.step i).mem = s.mem := by
  have hno : ¬ (i.dmaDone = true ∧ s.rx.writeR ≠ s.writeAck) := fun hx => hx.2 h
  simp only [UartSystem.step, hno, if_false]
  exact ⟨trivial, trivial⟩

/-- A receiver that is not armed stays so in every cycle without {lit}`uart0_set_rx`. -/
theorem Unarmed.step (h : Unarmed s) {i : UartInput}
    (hcsr : (s.csrIn i).csrOpValid = true → (s.csrIn i).csrOpReg = csrRegUart0Rx →
      (s.csrIn i).csrOpData.getLsbD 31 = true)
    (hack : (s.software i.software).rxIntrAck = s.rxIntrAck)
    (hdel : (s.software i.software).delivered = s.delivered) : Unarmed (s.step i) := by
  obtain ⟨h1, h2, h3, h4, h5, h6⟩ := h.step_rx (s.csrIn i) i.uartRx
  obtain ⟨-, hlen, hreset⟩ := s.rx.step_regs hcsr s.writeAck i.uartRx
  refine ⟨hlen.trans h.len, h2, hreset.trans (h.closed.trans h1.symm), h3, ?_, ?_, ?_, ?_⟩
  · rw [(step_dma_idle h.dma i).1, ← h.dma]
    exact h4
  · change (s.rx.step _ _ _).rxIntrToggle = (s.software i.software).rxIntrAck
    rw [h5, hack, h.intr]
  · change s.stored ++ _ = _
    rw [h6, h.stored]
    rfl
  · change (s.software i.software).delivered = _
    rw [hdel, h.delivered]

/-- The call of {lit}`uart0_set_rx` asks for a restart of the buffer. -/
theorem rearmed_of_setRx (hh : s.handler = .setRx) (hlast : s.lastpos = 0) (heng : s.engineOn = true)
    {i : UartInput} {refill : Bool} (hgo : i.software = .go refill)
    (hclosed : s.rx.rxResetCurpos = s.rx.rxResetCurposAck) (hdma : s.rx.writeR = s.writeAck)
    (hintr : s.rx.rxIntrToggle = s.rxIntrAck) (heq : s.delivered = s.stored)
    (hack : (s.step i).rx.rxResetCurposAck = s.rx.rxResetCurposAck)
    (hrest : (s.step i).rx.rxdState ≠ .memWait) (hreq : (s.step i).rx.writeR = s.rx.writeR)
    (hintr' : (s.step i).rx.rxIntrToggle = s.rx.rxIntrToggle)
    (hnone : s.rx.storedByte s.writeAck = none) : Rearmed (s.step i) := by
  have hcsr := csrIn_rearms hh hgo heng
  obtain ⟨h1, h2, h3⟩ := s.rx.step_regs_of_write
    (show (s.csrIn i).csrOpValid = true by rw [hcsr]) (by rw [hcsr]) (by rw [hcsr]; rfl)
    s.writeAck i.uartRx
  have hsw : s.software i.software = { s with handler := .idle } := by
    simp only [software, hgo, hh]
  refine ⟨?_, ?_, ?_, hrest, ?_, ?_, ?_, ?_, .inl ?_, ?_⟩
  · rw [hack, ← hclosed]
    change (s.rx.step _ _ _).rxResetCurpos ≠ _
    rw [h3]
    exact Bool.not_ne_self _
  · change (s.rx.step _ _ _).rxBufLen = _
    rw [h2, hcsr]
    rfl
  · change (s.rx.step _ _ _).rxCtrl = _
    rw [h1, hcsr]
    rfl
  · rw [(step_dma_idle hdma i).1, hreq, hdma]
  · rw [hintr', hintr]
    change _ = (s.software i.software).rxIntrAck
    rw [hsw]
  · change (s.software i.software).engineOn = _
    rw [hsw]
    exact heng
  · change (s.software i.software).lastpos = _
    rw [hsw]
    exact hlast
  · change (s.software i.software).handler = _
    rw [hsw]
  · change (s.software i.software).delivered = s.stored ++ _
    rw [hsw, hnone]
    simpa using heq

/-- While the restart is unacknowledged the software passes nothing on. -/
theorem Rearmed.software (h : Rearmed s) {i : UartInput} (hu : Undisturbed s i) :
    ((s.software i.software).handler = .idle ∨ (s.software i.software).handler = .getRx false) ∧
      (s.software i.software).lastpos = 0 ∧ (s.software i.software).engineOn = true ∧
      (s.software i.software).rxIntrAck = s.rxIntrAck ∧
      (s.software i.software).delivered = s.delivered := by
  have hrest : (s.handler = .idle ∨ s.handler = .getRx false) ∧ s.lastpos = 0 ∧ s.engineOn = true ∧
      s.rxIntrAck = s.rxIntrAck ∧ s.delivered = s.delivered :=
    ⟨h.handler, h.lastpos, h.engine, rfl, rfl⟩
  rcases h.handler with hh | hh
  · cases hsw : i.software with
    | timer =>
        simp only [UartSystem.software, hh]
        exact ⟨.inr trivial, h.lastpos, h.engine, trivial, trivial⟩
    | uart0Rx =>
        have hno : ¬ s.rx.rxIntrToggle ≠ s.rxIntrAck := fun hne => hne h.intr
        simp only [UartSystem.software, hh, hno, if_false]
        exact ⟨.inl trivial, h.lastpos, h.engine, trivial, trivial⟩
    | _ => simpa only [UartSystem.software, hh] using hrest
  · cases hsw : i.software with
    | go refill =>
        -- the position that is read is not beyond `lastpos`
        have hpos := (hu.sample false refill hh hsw).resolve_left h.opened
        have hno : ¬ s.lastpos < s.getRx := by
          rw [getRx_eq]
          omega
        simp only [UartSystem.software, hh, hno, if_false, UartSystem.finish]
        exact ⟨.inl rfl, h.lastpos, h.engine, rfl, rfl⟩
    | _ => simpa only [UartSystem.software, hh] using hrest

/-- A round begins when the receiver acknowledges the restart. -/
theorem serving_of_rearmed (h : Rearmed s) {i : UartInput} (hu : Undisturbed s i)
    {l : List (BitVec 8)} (hl : (s.rx.storedByte s.writeAck).toList = l)
    (hb : Buffer (s.step i).rx (s.step i).mem (s.step i).writeAck l)
    (hintr : (s.step i).rx.rxIntrToggle = s.rx.rxIntrToggle) : Serving (s.step i) s.stored l := by
  obtain ⟨hh, hlast, heng, hack, hdel⟩ := h.software hu
  have hpos : position (s.software i.software).handler (s.software i.software).lastpos = 0 := by
    rcases hh with hx | hx <;> rw [hx] <;> exact hlast
  have hserves : servesRx (s.software i.software).handler = false := by
    rcases hh with hx | hx <;> rw [hx] <;> rfl
  refine ⟨hb, heng, ?_, ?_, ?_, ?_, ?_, ?_, ?_, ?_⟩
  · intro hx
    change (s.software i.software).handler = _ at hx
    rcases hh with hy | hy <;> rw [hy] at hx <;> cases hx
  · change s.stored ++ _ = _
    rw [hl]
  · change (s.software i.software).delivered = _
    rw [hdel, h.caughtUp]
    change _ = s.stored ++
      l.take (position (s.software i.software).handler (s.software i.software).lastpos)
    rw [hpos, List.take_zero, List.append_nil]
  · change position (s.software i.software).handler (s.software i.software).lastpos ≤ _
    rw [hpos]
    exact Nat.zero_le _
  · intro hne
    change _ ≠ (s.software i.software).rxIntrAck at hne
    rw [hintr, hack] at hne
    exact absurd h.intr hne
  · intro hx
    change servesRx (s.software i.software).handler = true at hx
    rw [hserves] at hx
    cases hx
  · intro b pos next line heq
    change (s.software i.software).handler = _ at heq
    rcases hh with hy | hy <;> rw [hy] at heq <;> cases heq
  · intro heq
    change (s.software i.software).handler = _ at heq
    rcases hh with hy | hy <;> rw [hy] at heq <;> cases heq

/-- An armed receiver goes on. -/
theorem Rearmed.step (h : Rearmed s) {i : UartInput} (hu : Undisturbed s i) : Phase (s.step i) := by
  have hno : s.handler = .setRx → ∀ refill, i.software ≠ .go refill := by
    intro hx
    rcases h.handler with hy | hy <;> rw [hy] at hx <;> cases hx
  obtain ⟨hctrl, hlen, hreset⟩ := s.rx.step_regs (csrIn_keeps hno) s.writeAck i.uartRx
  obtain ⟨hack', hmem'⟩ := step_dma_idle h.dma i
  have hbyte := s.rx.storedByte_eq (s.csrIn i) s.writeAck i.uartRx
  have hnotdone : s.rx.rxdState ≠ .memWait := h.rest
  cases s.rx.step_effect (s.csrIn i) s.writeAck i.uartRx with
  | rest hack hpos hreq hst hintr hdata =>
      obtain ⟨hh, hlast, heng, hia, hdel⟩ := h.software hu
      have hnone : s.rx.storedByte s.writeAck = none := by rw [hbyte, if_pos hreq]
      refine .rearmed ⟨?_, hlen.trans h.len, hctrl.trans h.ctrl, fun hx => h.rest (hst.mp hx), ?_, ?_,
        heng, hlast, hh, ?_⟩
      · change (s.rx.step _ _ _).rxResetCurpos ≠ (s.rx.step _ _ _).rxResetCurposAck
        rw [hreset, hack]
        exact h.opened
      · rw [hack', ← h.dma]
        exact hreq
      · change (s.rx.step _ _ _).rxIntrToggle = (s.software i.software).rxIntrAck
        rw [hintr, hia, h.intr]
      · change (s.software i.software).delivered = s.stored ++ _
        rw [hnone, hdel, h.caughtUp]
        simp
  | restart hopen hst hack hpos hreq hst' hintr =>
      have hnone : s.rx.storedByte s.writeAck = none := by rw [hbyte, if_pos hreq]
      refine .serving _ [] (serving_of_rearmed h hu (by rw [hnone]; rfl) ?_ hintr)
      refine ⟨hreset.trans hack.symm, hlen.trans h.len, hctrl.trans h.ctrl, ?_, ?_, ?_, ?_⟩
      · change 0 = (s.rx.step _ _ _).rxBufCurpos.toNat
        rw [hpos]
        rfl
      · intro k hk
        simp at hk
      · intro _
        rw [hack', ← h.dma]
        exact hreq
      · intro hne
        rw [hack', ← h.dma] at hne
        exact absurd hreq hne
  | first hopen hst hl hack hpos hreq hst' hintr haddr hdata =>
      have hne : (s.rx.step (s.csrIn i) s.writeAck i.uartRx).writeR ≠ s.rx.writeR := by
        rw [hreq]
        exact Bool.not_ne_self _
      have hsome : s.rx.storedByte s.writeAck = some s.rx.rxDataregData := by
        rw [hbyte, if_neg hne]
      refine .serving _ [s.rx.rxDataregData]
        (serving_of_rearmed h hu (by rw [hsome]; rfl) ?_ hintr)
      refine ⟨hreset.trans hack.symm, hlen.trans h.len, hctrl.trans h.ctrl, ?_, ?_, ?_, ?_⟩
      · change 1 = (s.rx.step _ _ _).rxBufCurpos.toNat
        rw [hpos]
        rfl
      · intro k hk
        rcases hk with hk | hk
        · simp at hk
        · have heq := hk.2
          rw [hack', ← h.dma] at heq
          exact absurd heq hne
      · intro hx
        exact absurd hst' hx
      · intro _
        refine ⟨0, rfl, ?_, ?_⟩
        · change (s.rx.step _ _ _).writeAddr = _
          rw [haddr, h.ctrl, writeAddr_eq]
          rfl
        · change _ = some (s.rx.step _ _ _).writeData
          rw [hdata]
          rfl
  | next hclosed => exact absurd hclosed h.opened
  | done hst => exact absurd hst h.rest

/-- The phases are closed under undisturbed cycles. -/
theorem Phase.step (h : Phase s) {i : UartInput} (hu : Undisturbed s i) : Phase (s.step i) := by
  cases h with
  | off hh h =>
      have hkeeps := csrIn_keeps (s := s) (i := i) (fun hx => by rw [hh] at hx; cases hx)
      have hstill : ∀ s' : UartSystem, s.software i.software = s' → s'.rxIntrAck = s.rxIntrAck →
          s'.delivered = s.delivered → Unarmed (s.step i) := by
        rintro s' rfl hack hdel
        exact h.step hkeeps hack hdel
      cases hsw : i.software with
      | start =>
          have heq : s.software i.software =
              { s with engineOn := true, lastpos := 0, handler := .setRx } := by
            simp only [UartSystem.software, hsw, hh]
          refine .starting ?_ ?_ ?_ (hstill _ heq rfl rfl)
          · change (s.software i.software).handler = _
            rw [heq]
          · change (s.software i.software).lastpos = _
            rw [heq]
          · change (s.software i.software).engineOn = _
            rw [heq]
      | _ =>
          have heq : s.software i.software = s := by simp only [UartSystem.software, hsw, hh]
          refine .off ?_ (hstill _ heq rfl rfl)
          change (s.software i.software).handler = _
          rw [heq, hh]
  | starting hh hlast heng h =>
      by_cases hgo : ∃ refill, i.software = .go refill
      · obtain ⟨refill, hgo⟩ := hgo
        obtain ⟨h1, h2, h3, h4, h5, h6⟩ := h.step_rx (s.csrIn i) i.uartRx
        exact .rearmed (rearmed_of_setRx hh hlast heng hgo h.closed h.dma h.intr
          (h.delivered.trans h.stored.symm) h1 h3 h4 h5 h6)
      · have heq : s.software i.software = s := by
          cases hsw : i.software with
          | go refill => exact absurd ⟨refill, hsw⟩ hgo
          | _ => simp only [UartSystem.software, hh]
        have hkeeps := csrIn_keeps (s := s) (i := i) (fun _ refill hx => hgo ⟨refill, hx⟩)
        refine .starting ?_ ?_ ?_ (h.step hkeeps (by rw [heq]) (by rw [heq]))
        · change (s.software i.software).handler = _
          rw [heq, hh]
        · change (s.software i.software).lastpos = _
          rw [heq, hlast]
        · change (s.software i.software).engineOn = _
          rw [heq, heng]
  | rearmed h => exact h.step hu
  | serving base l h =>
      by_cases hgo : s.handler = .setRx ∧ ∃ refill, i.software = .go refill
      · obtain ⟨hh, refill, hgo⟩ := hgo
        have hserves : servesRx s.handler = true := by rw [hh]; rfl
        have hfull := h.serves hserves
        obtain ⟨h1, h2, h3, h4, h5⟩ := hfull.step h.buffer (s.csrIn i) i.uartRx
        have hintr : s.rx.rxIntrToggle = s.rxIntrAck := by
          by_contra hne
          have := (h.intr hne).2
          rw [hserves] at this
          cases this
        have hall : s.delivered = s.stored := by
          rw [h.delivered, h.stored, hh]
          change base ++ l.take 255 = _
          rw [List.take_of_length_le (hfull.length h.buffer).le]
        exact .rearmed (rearmed_of_setRx hh (h.rearm hh) h.engine hgo h.buffer.closed
          (h.buffer.rest hfull.rest) hintr hall h4 h1.rest h5 h3 h2)
      · have hno : s.handler = .setRx → ∀ refill, i.software ≠ .go refill :=
          fun hh refill hx => hgo ⟨hh, refill, hx⟩
        exact .serving base _ (h.combine (csrIn_keeps hno) (h.software hu hno))

/-- In every phase the bytes have been passed on in order. -/
theorem Phase.deliversOnce (h : Phase s) : DeliversOnce s := by
  cases h with
  | off hh h => exact ⟨by rw [h.delivered]; exact List.nil_prefix, fun hx => by rw [hh] at hx; cases hx⟩
  | starting hh hlast heng h =>
      have heq : s.delivered = s.stored := h.delivered.trans h.stored.symm
      exact ⟨heq ▸ List.prefix_rfl, fun _ => heq⟩
  | rearmed h =>
      exact ⟨h.caughtUp ▸ List.prefix_rfl, fun _ => h.caughtUp⟩
  | serving base l h =>
      refine ⟨?_, fun hh => ?_⟩
      · rw [h.delivered, h.stored, List.prefix_append_right_inj]
        exact List.take_prefix _ _
      · have hfull := h.serves (by rw [hh]; rfl)
        rw [h.delivered, h.stored, hh]
        change base ++ l.take 255 = _
        rw [List.take_of_length_le (hfull.length h.buffer).le]

/-- The phase at power-up. -/
theorem phase_init (mem : BitVec 25 → BitVec 8) : Phase (init mem) :=
  .off rfl ⟨rfl, rfl, rfl, (fun hx => by cases hx), rfl, rfl, rfl, rfl⟩

/-- The phases cover every undisturbed run. -/
theorem phase_reached (h : ReachedBy Undisturbed s) : Phase s := by
  induction h with
  | init mem => exact phase_init mem
  | step h i hu ih => exact ih.step hu

/-! ## Runs of the driver on a full buffer -/

/-- A cycle of the software on a high line. -/
def lineInput (sw : SoftwareInput) : UartInput := ⟨true, false, none, sw⟩

/-- Without a new setting the receiver ticks. -/
theorem rx_step_eq_tick (rx : UartRx) {csrIn : CsrChannelIn} (a x : Bool)
    (hcsr : csrIn.csrOpValid = true → csrIn.csrOpReg = csrRegUart0Rx ∧
      csrIn.csrOpData.getLsbD 31 = true) : rx.step csrIn a x = rx.tick a x := by
  unfold UartRx.step UartRx.rxRegUpdate UartRx.tick
  split
  · rename_i hv
    rw [if_pos (hcsr hv).1, if_neg (by rw [(hcsr hv).2]; decide)]
  · rfl

/-- The CSR writes on an idle line. -/
theorem csrIn_lineInput {sw : SoftwareInput}
    (hno : s.handler = .setRx → ∀ refill, sw ≠ .go refill) :
    (s.csrIn (lineInput sw)).csrOpValid = true →
      (s.csrIn (lineInput sw)).csrOpReg = csrRegUart0Rx ∧
        (s.csrIn (lineInput sw)).csrOpData.getLsbD 31 = true := by
  intro hv
  cases sw with
  | go refill =>
      cases hh : s.handler with
      | setRx => exact absurd rfl (hno hh refill)
      | getRx b =>
          simp only [csrIn, lineInput, hh]
          exact ⟨trivial, rfl⟩
      | _ =>
          simp only [csrIn, lineInput, hh, baudWrite] at hv
          cases hv
  | _ => cases hv

/-- A full buffer and a receiver at rest, with the software at a place {lit}`P` and the counts of
bytes. -/
structure AtRest (s : UartSystem) (P : Handler → Prop) (delivered : ℕ) : Prop where
  idle : s.rx.rxdState = .idle
  closed : s.rx.rxResetCurpos = s.rx.rxResetCurposAck
  line : s.rx.rxShregData = 0xFFFF#16
  baud : 15 ≤ s.rx.rxBaudA.toNat
  pos : s.rx.rxBufCurpos.toNat = 255
  dma : s.rx.writeR = s.writeAck
  handler : P s.handler
  engine : s.engineOn = true
  lastpos : s.lastpos = 0
  stored : s.stored.length = 255
  delivered : s.delivered.length = delivered

/-- The software goes on while the receiver rests. -/
theorem AtRest.step {P : Handler → Prop} {n : ℕ} (h : AtRest s P n) (sw : SoftwareInput)
    (P' : Handler → Prop) (n' : ℕ)
    (hno : s.handler = .setRx → ∀ refill, sw ≠ .go refill)
    (hh : P' (s.software sw).handler) (he : (s.software sw).engineOn = true)
    (hl : (s.software sw).lastpos = 0) (hd : (s.software sw).delivered.length = n') :
    ∃ s', Reaches s s' ∧ AtRest s' P' n' := by
  have hu : Undisturbed s (lineInput sw) := ⟨fun _ _ _ _ => .inl h.closed, fun _ _ _ _ _ _ _ _ => .inl h.dma⟩
  obtain ⟨h1, h2, h3, h4⟩ := UartRx.tick_idle (a := s.writeAck) h.idle h.closed
    (by rw [h.line]; decide) true
  have hrx : (s.step (lineInput sw)).rx = s.rx.tick s.writeAck true :=
    rx_step_eq_tick _ _ _ (csrIn_lineInput hno)
  refine ⟨_, reaches_step hu, ⟨?_, ?_, ?_, ?_, ?_, ?_, hh, he, hl, ?_, hd⟩⟩
  · rw [hrx, h2]
  · rw [hrx, h1.rxResetCurpos, h1.rxResetCurposAck, h.closed]
  · rw [hrx, h3, h.line]
    decide
  · rw [hrx, h1.rxBaudA]
    exact h.baud
  · rw [hrx, h1.rxBufCurpos]
    exact h.pos
  · rw [hrx, h1.writeR, h.dma, (step_dma_idle h.dma _).1]
  · change (s.stored ++ (s.rx.storedByte s.writeAck).toList).length = 255
    rw [UartRx.storedByte, if_neg (fun hne => hne h4)]
    simpa using h.stored

/-- In the loop of {lit}`consprod_produce` over a full buffer. -/
def Producing (uartIntr : Bool) (next : ℕ) (handler : Handler) : Prop :=
  ∃ line, handler = .produce uartIntr 255 next line

/-- The receive interrupt passes on a full buffer. -/
theorem AtRest.serve (h : AtRest s (Producing true 0) 0) :
    ∃ s', Reaches s s' ∧ AtRest s' (· = .setRx) 255 := by
  have hrun : ∀ n, n ≤ 254 → ∃ s', Reaches s s' ∧ AtRest s' (Producing true n) n := by
    intro n
    induction n with
    | zero => exact fun _ => ⟨s, .refl, h⟩
    | succ n ih =>
        intro hn
        obtain ⟨s₁, r₁, h₁⟩ := ih (by omega)
        obtain ⟨line, hline⟩ := h₁.handler
        have hsw : s₁.software (.go false) = { s₁ with
            delivered := s₁.delivered ++ [s₁.lineOfByte line false (drvbufAddr n)]
            handler := .produce true 255 (n + 1)
              (if (n + 1) % 16 = 0 then none else some (s₁.lineOfByte line false)) } := by
          simp only [UartSystem.software, hline, produceByte]
          rw [if_pos (by omega)]
        obtain ⟨s₂, r₂, h₂⟩ := h₁.step (.go false) (Producing true (n + 1)) (n + 1)
          (fun hx => by rw [hline] at hx; cases hx) (by rw [hsw]; exact ⟨_, rfl⟩)
          (by rw [hsw]; exact h₁.engine) (by rw [hsw]; exact h₁.lastpos)
          (by rw [hsw]; simp [h₁.delivered])
        exact ⟨s₂, r₁.trans r₂, h₂⟩
  obtain ⟨s₁, r₁, h₁⟩ := hrun 254 le_rfl
  obtain ⟨line, hline⟩ := h₁.handler
  -- the last byte ends the call
  have hsw : s₁.software (.go false) = ({ s₁ with
      delivered := s₁.delivered ++ [s₁.lineOfByte line false (drvbufAddr 254)]
      lastpos := 255 } : UartSystem).finish true := by
    simp only [UartSystem.software, hline, produceByte]
    rw [if_neg (by omega)]
  obtain ⟨s₂, r₂, h₂⟩ := h₁.step (.go false) (· = .setRx) 255
    (fun hx => by rw [hline] at hx; cases hx) (by rw [hsw]; rfl)
    (by rw [hsw]; exact h₁.engine)
    (by rw [hsw]; simp [UartSystem.finish, h₁.engine])
    (by rw [hsw]; simp [UartSystem.finish, h₁.delivered])
  exact ⟨s₂, r₁.trans r₂, h₂⟩

/-- An idle receiver stores nothing. -/
theorem storedByte_idle {u : UartRx} (hs : u.rxdState = .idle) (a : Bool) : u.storedByte a = none := by
  have hw : (u.fsm a).writeR = u.writeR := by
    simp only [UartRx.fsm, UartRx.stateEdge, hs, UartRx.idleEdge]
    split <;> split <;> rfl
  rw [UartRx.storedByte, if_neg (fun hne => hne hw)]

/-- The receiver after it has been armed for the first time and has taken over its buffer. -/
theorem rx_armed :
    ((UartRx.init.step ⟨0#12, 0#2, false, 0#12, 0#32⟩ false true).step
        ⟨0#12, 0#2, true, csrRegUart0Rx, 0x2FF#32⟩ false true).step
        ⟨0#12, 0#2, false, 0#12, 0#32⟩ false true =
      { UartRx.init with
        rxCtrl := 2#24, rxBufLen := 255#8, rxResetCurpos := true, rxResetCurposAck := true } := by
  decide

/-- The engine is started and the receiver takes over its buffer. -/
theorem reaches_listening (mem : BitVec 25 → BitVec 8) :
    ∃ s, Reaches (init mem) s ∧ Listening s 0 0 0 := by
  refine ⟨(((init mem).step (lineInput .start)).step (lineInput (.go false))).step (lineInput .none),
    ((reaches_step (undisturbed_of_not_go fun _ hx => by cases hx)).trans
      (reaches_step ⟨(fun _ _ hx => by cases hx), (fun _ _ _ _ _ hx => by cases hx)⟩)).trans
      (reaches_step (undisturbed_of_not_go fun _ hx => by cases hx)), ?_⟩
  have hrx₁ : ((init mem).step (lineInput .start)).rx =
      UartRx.init.step ⟨0#12, 0#2, false, 0#12, 0#32⟩ false true := rfl
  have hrx₂ : (((init mem).step (lineInput .start)).step (lineInput (.go false))).rx =
      (UartRx.init.step ⟨0#12, 0#2, false, 0#12, 0#32⟩ false true).step
        ⟨0#12, 0#2, true, csrRegUart0Rx, 0x2FF#32⟩ false true := by
    rw [← hrx₁, ← csrIn_rearms (s := (init mem).step (lineInput .start)) (i := lineInput (.go false))
      rfl rfl rfl]
    rfl
  have hrx₃ : ((((init mem).step (lineInput .start)).step (lineInput (.go false))).step
      (lineInput .none)).rx = { UartRx.init with
        rxCtrl := 2#24, rxBufLen := 255#8, rxResetCurpos := true, rxResetCurposAck := true } := by
    rw [← rx_armed, ← hrx₂]
    rfl
  refine ⟨⟨?_, ?_, ?_, ?_, ?_, rfl, rfl, rfl, ?_, rfl⟩, ?_, ?_, ?_⟩
  · rw [hrx₃]
  · rw [hrx₃]
    rfl
  · rw [hrx₃]
    decide
  · rw [hrx₃]
  · rw [hrx₃]
    rfl
  · change (([] ++ (UartRx.storedByte _ _).toList) ++ (UartRx.storedByte (UartSystem.rx _) _).toList ++
      (UartRx.storedByte (UartSystem.rx _) _).toList).length = 0
    rw [storedByte_idle (u := (init mem).rx) rfl,
      storedByte_idle (u := ((init mem).step (lineInput .start)).rx) (by rw [hrx₁]; decide),
      storedByte_idle (u := (((init mem).step (lineInput .start)).step (lineInput (.go false))).rx)
        (by rw [hrx₂]; decide)]
    rfl
  · rw [hrx₃]
    rfl
  · rw [hrx₃]
    rfl
  · rw [hrx₃, if_neg (by decide)]
    rfl

/-- A full buffer is passed on when the receive interrupt is served. -/
theorem reaches_served (mem : BitVec 25 → BitVec 8) :
    ∃ s, Reaches (init mem) s ∧ AtRest s (· = .setRx) 255 := by
  obtain ⟨s₁, r₁, h₁⟩ := reaches_listening mem
  obtain ⟨s₂, r₂, h₂⟩ := listening_fills h₁
  have hrest : AtRest s₂ (· = .idle) 0 :=
    ⟨h₂.idle, h₂.closed, h₂.line, h₂.baud, h₂.pos, h₂.dma, h₂.handler, h₂.engine, h₂.lastpos,
      h₂.stored, h₂.delivered⟩
  have hpending : s₂.rx.rxIntrToggle ≠ s₂.rxIntrAck := by
    rw [h₂.intr, if_pos rfl]
    exact Bool.not_ne_self _
  have hsw₂ : s₂.software .uart0Rx =
      { s₂ with rxIntrAck := s₂.rx.rxIntrToggle, handler := .getRx true } := by
    simp only [UartSystem.software, h₂.handler, hpending, ne_eq, not_false_eq_true, if_true]
  obtain ⟨s₃, r₃, h₃⟩ := hrest.step .uart0Rx (· = .getRx true) 0
    (fun _ _ hx => by cases hx) (by rw [hsw₂]) (by rw [hsw₂]; exact h₂.engine)
    (by rw [hsw₂]; exact h₂.lastpos) (by rw [hsw₂]; exact h₂.delivered)
  have hpos : s₃.lastpos < s₃.getRx := by
    rw [getRx_eq, h₃.pos, h₃.lastpos]
    decide
  have hsw₃ : s₃.software (.go false) =
      { s₃ with handler := .produce true s₃.getRx s₃.lastpos none } := by
    simp only [UartSystem.software, h₃.handler, hpos, if_true]
  obtain ⟨s₄, r₄, h₄⟩ := h₃.step (.go false) (Producing true 0) 0
    (fun hx => by rw [h₃.handler] at hx; cases hx)
    (by rw [hsw₃, getRx_eq, h₃.pos, h₃.lastpos]; exact ⟨none, rfl⟩)
    (by rw [hsw₃]; exact h₃.engine) (by rw [hsw₃]; exact h₃.lastpos)
    (by rw [hsw₃]; exact h₃.delivered)
  obtain ⟨s₅, r₅, h₅⟩ := h₄.serve
  exact ⟨s₅, (((r₁.trans r₂).trans r₃).trans r₄).trans r₅, h₅⟩

/-! ## The window after a restart -/

/-- A byte is in flight over a full buffer, with {lit}`k` cycles to its next bit. -/
structure InFlight (s : UartSystem) (k : ℕ) (delivered : ℕ) : Prop where
  running : s.rx.rxdState = .running
  counter : s.rx.rxCounter.toNat = k
  pos : s.rx.rxBufCurpos.toNat = 255
  lastpos : s.lastpos = 0
  stored : s.stored.length = 255
  delivered : s.delivered.length = delivered

/-- While a byte is in flight the receiver leaves its position alone, whatever is written to
its registers. -/
theorem InFlight.step {k n : ℕ} (h : InFlight s (k + 1) n) (sw : SoftwareInput) (n' : ℕ)
    (hl : (s.software sw).lastpos = 0) (hd : (s.software sw).delivered.length = n') :
    InFlight (s.step (lineInput sw)) k n' := by
  have hnz : s.rx.rxCounter ≠ 0#16 := by
    intro hx
    have := h.counter
    rw [hx] at this
    simp at this
  obtain ⟨h1, h2, h3, -, -, h6⟩ := UartRx.tick_count (a := s.writeAck) (.inl h.running) hnz true
  have hregs : ∀ csr : CsrChannelIn,
      ((s.rx.tick s.writeAck true).rxRegUpdate csr).rxdState = (s.rx.tick s.writeAck true).rxdState ∧
      ((s.rx.tick s.writeAck true).rxRegUpdate csr).rxCounter = (s.rx.tick s.writeAck true).rxCounter ∧
      ((s.rx.tick s.writeAck true).rxRegUpdate csr).rxBufCurpos =
        (s.rx.tick s.writeAck true).rxBufCurpos := by
    intro csr
    unfold UartRx.rxRegUpdate
    split
    · split
      · split <;> exact ⟨rfl, rfl, rfl⟩
      · split <;> exact ⟨rfl, rfl, rfl⟩
    · exact ⟨rfl, rfl, rfl⟩
  obtain ⟨g1, g2, g3⟩ := hregs (s.csrIn (lineInput sw))
  refine ⟨g1.trans (h2.trans h.running), ?_, ?_, hl, ?_, hd⟩
  · have hc := h.counter
    change ((s.rx.tick s.writeAck true).rxRegUpdate _).rxCounter.toNat = k
    rw [g2, h3]
    bv_omega
  · change ((s.rx.tick s.writeAck true).rxRegUpdate _).rxBufCurpos.toNat = 255
    rw [g3, h1.rxBufCurpos]
    exact h.pos
  · change (s.stored ++ (s.rx.storedByte s.writeAck).toList).length = 255
    rw [UartRx.storedByte, if_neg (fun hne => hne h6)]
    simpa using h.stored

/-- A start bit arrives before the receiver is armed again. -/
theorem AtRest.inFlight (h : AtRest s (· = .setRx) 255) :
    ∃ s' k, Reaches s s' ∧ InFlight s' (k + 15) 255 ∧ s'.handler = .setRx := by
  obtain ⟨v, hv, hsame, hst, hctr, -, -⟩ :=
    UartRx.start_received (a := s.writeAck) h.idle h.closed h.line
  obtain ⟨k, hk⟩ := Nat.exists_eq_add_of_le' h.baud
  refine ⟨{ s with rx := v }, k, reaches_of_ticks hv, ⟨hst, ?_, ?_, h.lastpos, h.stored, h.delivered⟩,
    h.handler⟩
  · change v.rxCounter.toNat = _
    rw [hctr, hk]
  · change v.rxBufCurpos.toNat = _
    rw [hsame.rxBufCurpos]
    exact h.pos

end UartSystem

open UartSystem

/-- Exactly-once delivery.  In a run in which the position is never read while a restart of
the buffer is unacknowledged, unless it is not beyond {lit}`lastpos`, and no line is loaded
while the DMA write of a byte to be read from it is outstanding, the bytes passed to
{lit}`consprod_produce` are a prefix of the bytes stored by the receiver, and all of them
whenever the receive interrupt has been served. -/
theorem uart_delivers_once {s : UartSystem} (h : ReachedBy Undisturbed s) : DeliversOnce s :=
  (phase_reached h).deliversOnce

/-- A full buffer is delivered once. -/
theorem uart_delivers_once_full :
    ∃ s, ReachedBy Undisturbed s ∧ s.handler = .setRx ∧ s.delivered.length = 255 ∧
      DeliversOnce s := by
  obtain ⟨s, hr, h⟩ := reaches_served (fun _ => 0#8)
  have hs := hr.reachedBy (.init _)
  exact ⟨s, hs, h.handler, h.delivered, uart_delivers_once hs⟩

/-- A timer interrupt while the restart is unacknowledged, because a byte is in flight, passes on
the first byte of the old round again. -/
theorem uart_redelivers :
    ∃ s, ReachedBy (fun _ _ => True) s ∧ s.stored.length = 255 ∧ s.delivered.length = 256 ∧
      ¬ DeliversOnce s := by
  have hmono : ∀ {s}, ReachedBy Undisturbed s → ReachedBy (fun _ _ => True) s := by
    intro s h
    induction h with
    | init mem => exact .init mem
    | step _ i _ ih => exact ih.step i trivial
  obtain ⟨s₀, r₀, h₀⟩ := reaches_served (fun _ => 0#8)
  obtain ⟨s₁, k, r₁, h₁, hh₁⟩ := h₀.inFlight
  have hs₁ := hmono (Reaches.reachedBy (r₀.trans r₁) (.init _))
  -- the receiver is armed again, and the timer interrupt follows at once
  have hsw₁ : s₁.software (.go false) = { s₁ with handler := .idle } := by
    simp only [UartSystem.software, hh₁]
  have h₂ := h₁.step (k := k + 14) (.go false) 255 (by rw [hsw₁]; exact h₁.lastpos)
    (by rw [hsw₁]; exact h₁.delivered)
  have hs₂ := hs₁.step (lineInput (.go false)) trivial
  have hh₂ : (s₁.step (lineInput (.go false))).handler = .idle := by
    change (s₁.software (.go false)).handler = _
    rw [hsw₁]
  generalize s₁.step (lineInput (.go false)) = s₂ at h₂ hs₂ hh₂
  have hsw₂ : s₂.software .timer = { s₂ with handler := .getRx false } := by
    simp only [UartSystem.software, hh₂]
  have h₃ := h₂.step (k := k + 13) .timer 255 (by rw [hsw₂]; exact h₂.lastpos)
    (by rw [hsw₂]; exact h₂.delivered)
  have hs₃ := hs₂.step (lineInput .timer) trivial
  have hh₃ : (s₂.step (lineInput .timer)).handler = .getRx false := by
    change (s₂.software .timer).handler = _
    rw [hsw₂]
  generalize s₂.step (lineInput .timer) = s₃ at h₃ hs₃ hh₃
  -- the position is still that of the old round
  have hpos : s₃.lastpos < s₃.getRx := by
    rw [getRx_eq, h₃.pos, h₃.lastpos]
    decide
  have hsw₃ : s₃.software (.go false) =
      { s₃ with handler := .produce false s₃.getRx s₃.lastpos none } := by
    simp only [UartSystem.software, hh₃, hpos, if_true]
  have h₄ := h₃.step (k := k + 12) (.go false) 255 (by rw [hsw₃]; exact h₃.lastpos)
    (by rw [hsw₃]; exact h₃.delivered)
  have hs₄ := hs₃.step (lineInput (.go false)) trivial
  have hh₄ : (s₃.step (lineInput (.go false))).handler = .produce false 255 0 none := by
    change (s₃.software (.go false)).handler = _
    rw [hsw₃, getRx_eq, h₃.pos, h₃.lastpos]
  generalize s₃.step (lineInput (.go false)) = s₄ at h₄ hs₄ hh₄
  have hsw₄ : s₄.software (.go false) = { s₄ with
      delivered := s₄.delivered ++ [s₄.lineOfByte none false (drvbufAddr 0)]
      handler := .produce false 255 1 (some (s₄.lineOfByte none false)) } := by
    simp only [UartSystem.software, hh₄, produceByte]
    rfl
  have h₅ := h₄.step (k := k + 11) (.go false) 256 (by rw [hsw₄]; exact h₄.lastpos)
    (by rw [hsw₄]; simp [h₄.delivered])
  refine ⟨_, hs₄.step (lineInput (.go false)) trivial, h₅.stored, h₅.delivered, ?_⟩
  intro hd
  have := hd.inOrder.length_le
  rw [h₅.stored, h₅.delivered] at this
  omega

end Sumeru
