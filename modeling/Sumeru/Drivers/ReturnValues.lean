import Sumeru.Drivers.Consprod

/-!
# Sumeru - Return values of the consprod calls

What {lit}`consprod_consume` and {lit}`consprod_produce` return, for every state of the ring
and every schedule of the other party.  A call that waits calls itself again with the length
that remains, and returns what that inner call returns.

Main results:

- Theorem {lit}`RingSystem.ConsumeAt.step` and {lit}`RingSystem.ProduceAt.step`: what a call
  knows of the bytes it has moved and of the rings it has seen.
- Theorem {lit}`consprod_returns_iff`: a waiting call returns its length exactly if each copy it
  takes of the other pointer shows either no byte to move or all of them.
-/

namespace Sumeru

/-! ## Ring states and calls -/

/-- Both pointers lie in the buffer. -/
structure Consprod.InBuffer (cp : Consprod) : Prop where
  prod : cp.bufferStart ≤ cp.prod ∧ cp.prod < cp.bufferEnd
  cons : cp.bufferStart ≤ cp.cons ∧ cp.cons < cp.bufferEnd

/-- The number of bytes that {lit}`consprod_produce` can put into the ring: the cells after
{lit}`prod` and before {lit}`cons`. -/
def Consprod.room (cp : Consprod) : ℕ :=
  (cp.cons + (cp.bufferEnd - cp.bufferStart) - (cp.prod + 1)) % (cp.bufferEnd - cp.bufferStart)

/-- An initialised ring has its pointers in the buffer. -/
theorem inBuffer_init {bufStart bufEnd : ℕ} (h : bufStart + 2 ≤ bufEnd) :
    (consprodInit bufStart bufEnd).InBuffer :=
  ⟨⟨Nat.le_succ bufStart, h⟩, ⟨le_rfl, Nat.lt_of_succ_lt h⟩⟩

/-- The way from the consumer to the producer is what is queued. -/
theorem Consprod.InBuffer.ahead_queued {cp : Consprod} (h : cp.InBuffer) :
    Ring.ahead cp.bufferStart cp.bufferEnd (cpPtrNext cp cp.cons) cp.prod = cp.queued :=
  Ring.ahead_of_next h.cons h.prod

/-- The way from the producer to the consumer is the room. -/
theorem Consprod.InBuffer.ahead_room {cp : Consprod} (h : cp.InBuffer) :
    Ring.ahead cp.bufferStart cp.bufferEnd (cpPtrNext cp cp.prod) cp.cons = cp.room :=
  Ring.ahead_of_next h.prod h.cons

def Consume.busy : Consume → Bool
  | .returned _ => false
  | _ => true

def Produce.busy : Produce → Bool
  | .returned _ => false
  | _ => true

namespace RingSystem

/-- A ring in any state, with no call under way. -/
def idle (cp : Consprod) (mem : ℕ → BitVec 8) : RingSystem :=
  ⟨cp, mem, .returned 0, .returned 0, [], []⟩

/-- The state after {lit}`n` steps from such a ring. -/
def runFrom (cp : Consprod) (mem : ℕ → BitVec 8) (acts : ℕ → RingAction) (n : ℕ) : RingSystem :=
  Clocked.run step (idle cp mem) acts n

/-- The step copies {lit}`prod` for {lit}`consprod_consume`. -/
def copiesProd (s : RingSystem) : RingAction → Bool
  | .consumer =>
      match s.consume with
      | .readProd _ _ => true
      | _ => false
  | _ => false

/-- The step copies {lit}`cons` for {lit}`consprod_produce`. -/
def copiesCons (s : RingSystem) : RingAction → Bool
  | .producer =>
      match s.produce with
      | .readCons _ _ _ => true
      | _ => false
  | _ => false

section Calls

variable (cp : Consprod) (mem : ℕ → BitVec 8) (acts : ℕ → RingAction)

/-- {lit}`consprod_consume(cp, buf, len, wait)` is called at step {lit}`t` and has returned
{lit}`value` before step {lit}`u`. -/
structure ConsumeCall (t u len : ℕ) (wait : Bool) (value : ℕ) : Prop where
  started : t < u
  idle : (runFrom cp mem acts t).consume.busy = false
  called : acts t = .callConsume len wait
  busy : ∀ k, t < k → k < u → (runFrom cp mem acts k).consume.busy = true
  returned : (runFrom cp mem acts u).consume = .returned value

/-- {lit}`consprod_produce(cp, buf, len, wait)` is called at step {lit}`t` and has returned
{lit}`value` before step {lit}`u`. -/
structure ProduceCall (t u : ℕ) (buf : List (BitVec 8)) (wait : Bool) (value : ℕ) : Prop where
  started : t < u
  idle : (runFrom cp mem acts t).produce.busy = false
  called : acts t = .callProduce buf wait
  busy : ∀ k, t < k → k < u → (runFrom cp mem acts k).produce.busy = true
  returned : (runFrom cp mem acts u).produce = .returned value

/-- The bytes that the consumer moved from step {lit}`t` to step {lit}`u`. -/
def consumed (t u : ℕ) : ℕ :=
  (runFrom cp mem acts u).stored.length - (runFrom cp mem acts t).stored.length

/-- The bytes that the producer moved from step {lit}`t` to step {lit}`u`. -/
def produced (t u : ℕ) : ℕ :=
  (runFrom cp mem acts u).taken.length - (runFrom cp mem acts t).taken.length

end Calls

end RingSystem

/-- A ring that shows {lit}`available` bytes to a call that is to move {lit}`len`: none, or all
that the call needs. -/
def Suffices (len available : ℕ) : Prop := available = 0 ∨ len ≤ available

/-- What a call is to return. -/
def Reports (len : ℕ) (wait : Bool) (moved value : ℕ) : Prop :=
  (wait = false → value = moved) ∧ (wait = true → value = len ∧ moved = len)

/-! ## Progress of a call -/

/-- A call: its length, {lit}`wait`, and the number of bytes its party moved before. -/
structure RingCall where
  len : ℕ
  wait : Bool
  start : ℕ

namespace RingCall

/-- Between two activations {lit}`x` bytes remain.  In {lit}`fits` all copies of the other
pointer have sufficed so far. -/
structure Outstanding (c : RingCall) (fits : Prop) (now x : ℕ) : Prop where
  moved : now + x = c.start + c.len
  within : x ≤ c.len
  whole : c.wait = false → x = c.len
  fits_iff : fits ↔ x = c.len

/-- In the loop of an activation that began with {lit}`len` bytes, {lit}`x` remain and
{lit}`d` cells lie before the copy of the other pointer. -/
structure Moving (c : RingCall) (fits : Prop) (now len x d : ℕ) : Prop where
  moved : now + x = c.start + c.len
  begun : x ≤ len
  within : len ≤ c.len
  whole : c.wait = false → len = c.len
  fits_iff : fits ↔ len = c.len ∧ Suffices c.len (d + (len - x))

/-- The call has returned {lit}`value`. -/
structure Done (c : RingCall) (fits : Prop) (now value : ℕ) : Prop where
  within : value ≤ c.len
  counted : c.wait = false → now = c.start + value
  moved : c.wait = true → now = c.start + c.len
  fits_iff : c.wait = true → (value = c.len ↔ fits)

variable {c : RingCall} {fits : Prop} {now len x d : ℕ}

/-- An activation copies the other pointer. -/
theorem Outstanding.copy (h : c.Outstanding fits now x) (a : ℕ) :
    c.Moving (fits ∧ Suffices c.len a) now x x a where
  moved := h.moved
  begun := le_rfl
  within := h.within
  whole := h.whole
  fits_iff := by rw [h.fits_iff, Nat.sub_self, Nat.add_zero]

/-- A byte is moved. -/
theorem Moving.move (h : c.Moving fits now len x d) (hx : 0 < x) {d' : ℕ} (hd : d' + 1 = d) :
    c.Moving fits (now + 1) len (x - 1) d' where
  moved := by
    have := h.moved
    omega
  begun := by
    have := h.begun
    omega
  within := h.within
  whole := h.whole
  fits_iff := by
    have hb := h.begun
    rw [h.fits_iff, show d' + (len - (x - 1)) = d + (len - x) by omega]

/-- The copy of the other pointer is reached with bytes left. -/
theorem Moving.exhausted (h : c.Moving fits now len x 0) (hx : 0 < x) (hwait : c.wait = true) :
    c.Outstanding fits now x where
  moved := h.moved
  within := h.begun.trans h.within
  whole := by
    intro hw
    rw [hwait] at hw
    cases hw
  fits_iff := by
    have h1 := h.begun
    have h2 := h.within
    rw [h.fits_iff, Suffices]
    omega

/-- The same in a call that does not wait. -/
theorem Moving.partly (h : c.Moving fits now len x 0) (hwait : c.wait = false) :
    c.Done fits now (len - x) where
  within := (Nat.sub_le _ _).trans h.within
  counted := by
    intro hw
    have h1 := h.begun
    have h2 := h.moved
    have h3 := h.whole hw
    omega
  moved := by
    intro hw
    rw [hwait] at hw
    cases hw
  fits_iff := by
    intro hw
    rw [hwait] at hw
    cases hw

/-- All bytes of the activation are moved. -/
theorem Moving.done (h : c.Moving fits now len 0 d) : c.Done fits now len where
  within := h.within
  counted := by
    intro hw
    have h1 := h.moved
    have h2 := h.whole hw
    omega
  moved := fun _ => h.moved
  fits_iff := by
    intro _
    rw [h.fits_iff, Suffices]
    omega

/-- A finished call reports what it has moved, unless it waits and has not found enough. -/
theorem Done.reports_iff {value t : ℕ} (h : c.Done fits now value) (hstart : c.start = t) :
    Reports c.len c.wait (now - t) value ↔ (c.wait = true → fits) := by
  unfold Reports
  cases hw : c.wait with
  | false =>
      have := h.counted hw
      simp only [Bool.false_eq_true, false_implies, and_true, true_implies, iff_true]
      omega
  | true =>
      have := h.moved hw
      simp only [Bool.true_eq_false, false_implies, true_and, true_implies]
      rw [← h.fits_iff hw]
      omega

end RingCall

/-! ## Pointers -/

/-- The pointers that a call of {lit}`consprod_consume` holds. -/
def Consume.pointers : Consume → List ℕ
  | .readCons _ _ p => [p]
  | .readByte _ _ _ p c => [p, c]
  | .writeCons _ _ _ p c => [p, c]
  | .spin _ p => [p]
  | _ => []

/-- The pointers that a call of {lit}`consprod_produce` holds. -/
def Produce.pointers : Produce → List ℕ
  | .readCons _ _ p => [p]
  | .readSlot _ _ _ p c => [p, c]
  | .writeByte _ _ _ p c q => [p, c, q]
  | .writeProd _ _ _ p c => [p, c]
  | .spin _ c => [c]
  | _ => []

/-- The consumer loop returns one of its pointers. -/
theorem consumeLoop_pointers {len x p c q : ℕ} {wait : Bool}
    (h : q ∈ (consumeLoop len x wait p c).pointers) : q = p ∨ q = c := by
  unfold consumeLoop at h
  split_ifs at h <;> simp_all [Consume.pointers]

/-- The producer loop returns one of its pointers. -/
theorem produceLoop_pointers {len p c q : ℕ} {buf : List (BitVec 8)} {wait : Bool}
    (h : q ∈ (produceLoop len buf wait p c).pointers) : q = p ∨ q = c := by
  unfold produceLoop at h
  split_ifs at h <;> simp_all [Produce.pointers]

namespace RingSystem

/-- Every pointer of the system lies in the buffer. -/
structure Bounded (s : RingSystem) : Prop where
  cp : s.cp.InBuffer
  consume : ∀ q ∈ s.consume.pointers, s.cp.bufferStart ≤ q ∧ q < s.cp.bufferEnd
  produce : ∀ q ∈ s.produce.pointers, s.cp.bufferStart ≤ q ∧ q < s.cp.bufferEnd

variable {s : RingSystem}

/-- The consumer keeps the bounds. -/
theorem Bounded.consumer (h : s.Bounded) : s.consumer.Bounded := by
  have hco := h.consume
  unfold RingSystem.consumer
  cases hc : s.consume with
  | returned => exact h
  | readProd len wait =>
      refine ⟨h.cp, fun q hq => ?_, h.produce⟩
      rw [List.mem_singleton.mp hq]
      exact h.cp.prod
  | readCons len wait p =>
      rw [hc] at hco
      refine ⟨h.cp, fun q hq => ?_, h.produce⟩
      rcases consumeLoop_pointers hq with rfl | rfl
      · exact hco q (List.mem_singleton_self q)
      · exact Ring.next_mem h.cp.cons
  | readByte len x wait p c =>
      rw [hc] at hco
      exact ⟨h.cp, hco, h.produce⟩
  | writeCons len x wait p c =>
      rw [hc] at hco
      have hin := hco c (by simp [Consume.pointers])
      refine ⟨⟨h.cp.prod, hin⟩, fun q hq => ?_, h.produce⟩
      rcases consumeLoop_pointers hq with rfl | rfl
      · exact hco q (by simp [Consume.pointers])
      · exact Ring.next_mem hin
  | spin x p =>
      dsimp only
      split_ifs with hp
      · exact h
      · exact ⟨h.cp, fun q hq => absurd hq (by simp [Consume.pointers]), h.produce⟩

/-- The producer keeps the bounds. -/
theorem Bounded.producer (h : s.Bounded) : s.producer.Bounded := by
  have hpr := h.produce
  unfold RingSystem.producer
  cases hc : s.produce with
  | returned => exact h
  | readProd buf wait =>
      refine ⟨h.cp, h.consume, fun q hq => ?_⟩
      rw [List.mem_singleton.mp hq]
      exact Ring.next_mem h.cp.prod
  | readCons buf wait p =>
      rw [hc] at hpr
      refine ⟨h.cp, h.consume, fun q hq => ?_⟩
      rcases produceLoop_pointers hq with rfl | rfl
      · exact hpr q (List.mem_singleton_self q)
      · exact h.cp.cons
  | readSlot len buf wait p c =>
      rw [hc] at hpr
      refine ⟨h.cp, h.consume, ?_⟩
      simp only [Produce.pointers, List.forall_mem_cons] at hpr ⊢
      exact ⟨hpr.1, hpr.2.1, h.cp.prod, hpr.2.2⟩
  | writeByte len buf wait p c q =>
      rw [hc] at hpr
      exact ⟨h.cp, h.consume, fun r hr => hpr r (List.mem_of_mem_take (i := 2) hr)⟩
  | writeProd len buf wait p c =>
      rw [hc] at hpr
      have hin := hpr p (by simp [Produce.pointers])
      refine ⟨⟨hin, h.cp.cons⟩, h.consume, fun q hq => ?_⟩
      rcases produceLoop_pointers hq with rfl | rfl
      · exact Ring.next_mem hin
      · exact hpr q (by simp [Produce.pointers])
  | spin buf c =>
      dsimp only
      split_ifs with hcons
      · exact h
      · exact ⟨h.cp, h.consume, fun q hq => absurd hq (by simp [Produce.pointers])⟩

/-- Every step keeps the bounds. -/
theorem Bounded.step (h : s.Bounded) (a : RingAction) : (s.step a).Bounded := by
  cases a with
  | callProduce buf wait =>
      unfold RingSystem.step
      cases s.produce with
      | returned => exact ⟨h.cp, h.consume, fun q hq => absurd hq (by simp [Produce.pointers])⟩
      | _ => exact h
  | callConsume len wait =>
      unfold RingSystem.step
      cases s.consume with
      | returned => exact ⟨h.cp, fun q hq => absurd hq (by simp [Consume.pointers]), h.produce⟩
      | _ => exact h
  | producer => exact h.producer
  | consumer => exact h.consumer

/-- The bounds hold in every run. -/
theorem bounded_run {cp : Consprod} (h : cp.InBuffer) (mem : ℕ → BitVec 8)
    (acts : ℕ → RingAction) (n : ℕ) : (runFrom cp mem acts n).Bounded :=
  Clocked.run_invariant ⟨h, fun _ hq => absurd hq (by simp [idle, Consume.pointers]),
    fun _ hq => absurd hq (by simp [idle, Produce.pointers])⟩ (fun n hn => hn.step (acts n)) n

/-! ## What a call knows -/

section Progress

variable {s' : RingSystem} {c : RingCall} {fits : Prop}

/-- The call {lit}`c` of the consumer in the loop test and in each of its accesses. -/
def ConsumeAt (s : RingSystem) (c : RingCall) (fits : Prop) : Consume → Prop
  | .returned value => c.Done fits s.stored.length value
  | .readProd len wait => wait = c.wait ∧ c.Outstanding fits s.stored.length len
  | .readCons len wait p =>
      wait = c.wait ∧ c.Moving fits s.stored.length len len
        (Ring.ahead s.cp.bufferStart s.cp.bufferEnd (cpPtrNext s.cp s.cp.cons) p)
  | .readByte len x wait p q =>
      wait = c.wait ∧ 0 < x ∧ q ≠ p ∧ c.Moving fits s.stored.length len x
        (Ring.ahead s.cp.bufferStart s.cp.bufferEnd q p)
  | .writeCons len x wait p q =>
      wait = c.wait ∧ c.Moving fits s.stored.length len x
        (Ring.ahead s.cp.bufferStart s.cp.bufferEnd (cpPtrNext s.cp q) p)
  | .spin x _ => c.wait = true ∧ c.Outstanding fits s.stored.length x

/-- The call {lit}`c` of the producer in the loop test and in each of its accesses. -/
def ProduceAt (s : RingSystem) (c : RingCall) (fits : Prop) : Produce → Prop
  | .returned value => c.Done fits s.taken.length value
  | .readProd buf wait => wait = c.wait ∧ c.Outstanding fits s.taken.length buf.length
  | .readCons buf wait p =>
      wait = c.wait ∧ p = cpPtrNext s.cp s.cp.prod ∧
        c.Outstanding fits s.taken.length buf.length
  | .readSlot len buf wait p q =>
      wait = c.wait ∧ 0 < buf.length ∧ p ≠ q ∧ c.Moving fits s.taken.length len buf.length
        (Ring.ahead s.cp.bufferStart s.cp.bufferEnd p q)
  | .writeByte len buf wait p q _ =>
      wait = c.wait ∧ 0 < buf.length ∧ p ≠ q ∧ c.Moving fits s.taken.length len buf.length
        (Ring.ahead s.cp.bufferStart s.cp.bufferEnd p q)
  | .writeProd len buf wait p q =>
      wait = c.wait ∧ c.Moving fits s.taken.length len buf.length
        (Ring.ahead s.cp.bufferStart s.cp.bufferEnd (cpPtrNext s.cp p) q)
  | .spin buf _ => c.wait = true ∧ c.Outstanding fits s.taken.length buf.length

/-- The loop test of the consumer. -/
theorem consumeAt_loop {len x p q : ℕ}
    (h : c.Moving fits s.stored.length len x (Ring.ahead s.cp.bufferStart s.cp.bufferEnd q p)) :
    s.ConsumeAt c fits (consumeLoop len x c.wait p q) := by
  unfold consumeLoop
  by_cases hx : 0 < x
  · by_cases hq : q = p
    · rw [hq, Ring.ahead_self] at h
      rw [if_neg (fun hc => hc.2 hq), if_pos hx]
      cases hw : c.wait with
      | false => exact h.partly hw
      | true => exact ⟨hw, h.exhausted hx hw⟩
    · rw [if_pos ⟨hx, hq⟩]
      exact ⟨rfl, hx, hq, h⟩
  · rw [if_neg (fun hc => hx hc.1), if_neg hx]
    obtain rfl : x = 0 := Nat.eq_zero_of_not_pos hx
    exact h.done

/-- The loop test of the producer. -/
theorem produceAt_loop {len p q : ℕ} {buf : List (BitVec 8)}
    (h : c.Moving fits s.taken.length len buf.length
      (Ring.ahead s.cp.bufferStart s.cp.bufferEnd p q)) :
    s.ProduceAt c fits (produceLoop len buf c.wait p q) := by
  unfold produceLoop
  by_cases hx : 0 < buf.length
  · by_cases hq : p = q
    · rw [hq, Ring.ahead_self] at h
      rw [if_neg (fun hc => hc.2 hq), if_pos hx]
      cases hw : c.wait with
      | false => exact h.partly hw
      | true => exact ⟨hw, h.exhausted hx hw⟩
    · rw [if_pos ⟨hx, hq⟩]
      exact ⟨rfl, hx, hq, h⟩
  · rw [if_neg (fun hc => hx hc.1), if_neg hx]
    rw [Nat.eq_zero_of_not_pos hx] at h
    exact h.done

/-- An access of the consumer in its call. -/
theorem ConsumeAt.consumer (hb : s.Bounded) (h : s.ConsumeAt c fits s.consume)
    (hbusy : s.consume.busy = true) :
    s.consumer.ConsumeAt c
      (fits ∧ (s.copiesProd .consumer = true → Suffices c.len s.cp.queued)) s.consumer.consume := by
  have hco := hb.consume
  unfold RingSystem.consumer copiesProd
  cases hc : s.consume with
  | returned =>
      rw [hc] at hbusy
      cases hbusy
  | readProd len wait =>
      rw [hc] at h
      simp only [true_implies]
      obtain ⟨hw, hout⟩ := h
      refine ⟨hw, ?_⟩
      rw [hb.cp.ahead_queued]
      exact hout.copy _
  | readCons len wait p =>
      rw [hc] at h
      simp only [Bool.false_eq_true, false_implies, and_true]
      obtain ⟨rfl, hmov⟩ := h
      exact consumeAt_loop hmov
  | readByte len x wait p q =>
      rw [hc] at h hco
      simp only [Bool.false_eq_true, false_implies, and_true]
      obtain ⟨hw, hx, hne, hmov⟩ := h
      refine ⟨hw, ?_⟩
      rw [List.length_append, List.length_singleton]
      exact hmov.move hx (Ring.ahead_next (hco q (by simp [Consume.pointers]))
        (hco p (by simp [Consume.pointers])) hne)
  | writeCons len x wait p q =>
      rw [hc] at h
      simp only [Bool.false_eq_true, false_implies, and_true]
      obtain ⟨rfl, hmov⟩ := h
      exact consumeAt_loop hmov
  | spin x p =>
      rw [hc] at h
      simp only [Bool.false_eq_true, false_implies, and_true]
      split_ifs with hp
      · rw [hc]
        exact h
      · exact ⟨h.1.symm, h.2⟩

/-- An access of the producer in its call. -/
theorem ProduceAt.producer (hb : s.Bounded) (h : s.ProduceAt c fits s.produce)
    (hbusy : s.produce.busy = true) :
    s.producer.ProduceAt c
      (fits ∧ (s.copiesCons .producer = true → Suffices c.len s.cp.room)) s.producer.produce := by
  have hpr := hb.produce
  unfold RingSystem.producer copiesCons
  cases hc : s.produce with
  | returned =>
      rw [hc] at hbusy
      cases hbusy
  | readProd buf wait =>
      rw [hc] at h
      simp only [Bool.false_eq_true, false_implies, and_true]
      exact ⟨h.1, rfl, h.2⟩
  | readCons buf wait p =>
      rw [hc] at h
      simp only [true_implies]
      obtain ⟨rfl, rfl, hout⟩ := h
      have hmov := hout.copy s.cp.room
      rw [← hb.cp.ahead_room] at hmov
      rw [← hb.cp.ahead_room]
      exact produceAt_loop hmov
  | readSlot len buf wait p q =>
      rw [hc] at h
      simp only [Bool.false_eq_true, false_implies, and_true]
      exact h
  | writeByte len buf wait p q r =>
      rw [hc] at h hpr
      simp only [Bool.false_eq_true, false_implies, and_true]
      obtain ⟨hw, hx, hne, hmov⟩ := h
      refine ⟨hw, ?_⟩
      rw [List.length_append, List.length_singleton, List.length_tail]
      exact hmov.move hx (Ring.ahead_next (hpr p (by simp [Produce.pointers]))
        (hpr q (by simp [Produce.pointers])) hne)
  | writeProd len buf wait p q =>
      rw [hc] at h
      simp only [Bool.false_eq_true, false_implies, and_true]
      obtain ⟨rfl, hmov⟩ := h
      exact produceAt_loop hmov
  | spin buf q =>
      rw [hc] at h
      simp only [Bool.false_eq_true, false_implies, and_true]
      split_ifs with hcons
      · rw [hc]
        exact h
      · exact ⟨h.1.symm, h.2⟩

/-- What the consumer knows rests on its own pointer only. -/
theorem ConsumeAt.congr {x : Consume} (h : s.ConsumeAt c fits x) (hstored : s'.stored = s.stored)
    (hcons : s'.cp.cons = s.cp.cons) (hstart : s'.cp.bufferStart = s.cp.bufferStart)
    (hend : s'.cp.bufferEnd = s.cp.bufferEnd) : s'.ConsumeAt c fits x := by
  cases x <;> simpa only [ConsumeAt, cpPtrNext, hstored, hcons, hstart, hend] using h

/-- A call does not see steps of the other side. -/
theorem ProduceAt.congr {x : Produce} (h : s.ProduceAt c fits x) (htaken : s'.taken = s.taken)
    (hprod : s'.cp.prod = s.cp.prod) (hstart : s'.cp.bufferStart = s.cp.bufferStart)
    (hend : s'.cp.bufferEnd = s.cp.bufferEnd) : s'.ProduceAt c fits x := by
  cases x <;> simpa only [ProduceAt, cpPtrNext, htaken, hprod, hstart, hend] using h

/-- The producer leaves the consumer alone. -/
theorem producer_frame (s : RingSystem) : s.producer.consume = s.consume ∧
    s.producer.stored = s.stored ∧ s.producer.cp.cons = s.cp.cons := by
  unfold RingSystem.producer
  cases s.produce with
  | spin buf q => dsimp only; split <;> exact ⟨rfl, rfl, rfl⟩
  | _ => exact ⟨rfl, rfl, rfl⟩

/-- The consumer leaves the producer alone. -/
theorem consumer_frame (s : RingSystem) : s.consumer.produce = s.produce ∧
    s.consumer.taken = s.taken ∧ s.consumer.cp.prod = s.cp.prod := by
  unfold RingSystem.consumer
  cases s.consume with
  | spin x p => dsimp only; split <;> exact ⟨rfl, rfl, rfl⟩
  | _ => exact ⟨rfl, rfl, rfl⟩

/-- A step of either party in a call of the consumer. -/
theorem ConsumeAt.step (hb : s.Bounded) (h : s.ConsumeAt c fits s.consume)
    (hbusy : s.consume.busy = true) (a : RingAction) :
    (s.step a).ConsumeAt c
      (fits ∧ (s.copiesProd a = true → Suffices c.len s.cp.queued)) (s.step a).consume := by
  cases a with
  | consumer => exact h.consumer hb hbusy
  | producer =>
      obtain ⟨h1, h2, h3⟩ := s.producer_frame
      obtain ⟨h4, h5⟩ := s.step_buffer .producer
      change ConsumeAt s.producer c _ s.producer.consume
      rw [h1]
      simpa only [copiesProd, Bool.false_eq_true, false_implies, and_true] using
        h.congr h2 h3 h4 h5
  | callProduce buf wait =>
      simp only [copiesProd, Bool.false_eq_true, false_implies, and_true]
      unfold RingSystem.step
      cases s.produce with
      | returned => exact h.congr rfl rfl rfl rfl
      | _ => exact h
  | callConsume len wait =>
      simp only [copiesProd, Bool.false_eq_true, false_implies, and_true]
      unfold RingSystem.step
      cases hc : s.consume with
      | returned =>
          rw [hc] at hbusy
          cases hbusy
      | _ =>
          dsimp only
          rw [hc]
          rwa [hc] at h

/-- A step of either party in a call of the producer. -/
theorem ProduceAt.step (hb : s.Bounded) (h : s.ProduceAt c fits s.produce)
    (hbusy : s.produce.busy = true) (a : RingAction) :
    (s.step a).ProduceAt c
      (fits ∧ (s.copiesCons a = true → Suffices c.len s.cp.room)) (s.step a).produce := by
  cases a with
  | producer => exact h.producer hb hbusy
  | consumer =>
      obtain ⟨h1, h2, h3⟩ := s.consumer_frame
      obtain ⟨h4, h5⟩ := s.step_buffer .consumer
      change ProduceAt s.consumer c _ s.consumer.produce
      rw [h1]
      simpa only [copiesCons, Bool.false_eq_true, false_implies, and_true] using
        h.congr h2 h3 h4 h5
  | callConsume len wait =>
      simp only [copiesCons, Bool.false_eq_true, false_implies, and_true]
      unfold RingSystem.step
      cases s.consume with
      | returned => exact h.congr rfl rfl rfl rfl
      | _ => exact h
  | callProduce buf wait =>
      simp only [copiesCons, Bool.false_eq_true, false_implies, and_true]
      unfold RingSystem.step
      cases hc : s.produce with
      | returned =>
          rw [hc] at hbusy
          cases hbusy
      | _ =>
          dsimp only
          rw [hc]
          rwa [hc] at h

end Progress

/-! ## Whole calls -/

section Runs

variable {cp : Consprod} {mem : ℕ → BitVec 8} {acts : ℕ → RingAction} {t u value : ℕ} {wait : Bool}

/-- The copies of {lit}`prod` from step {lit}`t` to step {lit}`u` show no byte, or at least
{lit}`len`. -/
def ProdSuffices (cp : Consprod) (mem : ℕ → BitVec 8) (acts : ℕ → RingAction) (t u len : ℕ) :
    Prop :=
  ∀ k, t ≤ k → k < u → (runFrom cp mem acts k).copiesProd (acts k) = true →
    Suffices len (runFrom cp mem acts k).cp.queued

/-- The copies of {lit}`cons` from step {lit}`t` to step {lit}`u` show no free cell, or at least
{lit}`len`. -/
def ConsSuffices (cp : Consprod) (mem : ℕ → BitVec 8) (acts : ℕ → RingAction) (t u len : ℕ) :
    Prop :=
  ∀ k, t ≤ k → k < u → (runFrom cp mem acts k).copiesCons (acts k) = true →
    Suffices len (runFrom cp mem acts k).cp.room

/-- A call of the consumer begins. -/
theorem step_callConsume {s : RingSystem} (h : s.consume.busy = false) (len : ℕ) (wait : Bool) :
    s.step (.callConsume len wait) = { s with consume := .readProd len wait } := by
  unfold RingSystem.step
  cases hc : s.consume with
  | returned => rfl
  | _ =>
      rw [hc] at h
      cases h

/-- A call of the producer begins. -/
theorem step_callProduce {s : RingSystem} (h : s.produce.busy = false) (buf : List (BitVec 8))
    (wait : Bool) : s.step (.callProduce buf wait) = { s with produce := .readProd buf wait } := by
  unfold RingSystem.step
  cases hc : s.produce with
  | returned => rfl
  | _ =>
      rw [hc] at h
      cases h

/-- A condition on the steps up to {lit}`k`, one step further. -/
theorem forall_lt_succ {P : ℕ → Prop} {t k : ℕ} (h : t ≤ k) :
    (∀ j, t ≤ j → j < k + 1 → P j) ↔ (∀ j, t ≤ j → j < k → P j) ∧ P k := by
  constructor
  · intro hall
    exact ⟨fun j h1 h2 => hall j h1 (by omega), hall k h (by omega)⟩
  · rintro ⟨hall, hk⟩ j h1 h2
    rcases Nat.lt_succ_iff_lt_or_eq.mp h2 with hlt | rfl
    · exact hall j h1 hlt
    · exact hk

/-- A call of the consumer goes on from cycle to cycle. -/
theorem ConsumeCall.progress {len : ℕ} (hcp : cp.InBuffer)
    (h : ConsumeCall cp mem acts t u len wait value) {k : ℕ} (htk : t + 1 ≤ k) (hku : k ≤ u) :
    (runFrom cp mem acts k).ConsumeAt ⟨len, wait, (runFrom cp mem acts t).stored.length⟩
      (ProdSuffices cp mem acts t k len) (runFrom cp mem acts k).consume := by
  induction k, htk using Nat.le_induction with
  | base =>
      have hstep : runFrom cp mem acts (t + 1) =
          { runFrom cp mem acts t with consume := .readProd len wait } := by
        change (runFrom cp mem acts t).step (acts t) = _
        rw [h.called, step_callConsume h.idle]
      rw [hstep]
      refine ⟨rfl, rfl, le_rfl, fun _ => rfl, iff_of_true (fun k h1 h2 hcopy => ?_) rfl⟩
      obtain rfl : k = t := by omega
      rw [h.called] at hcopy
      cases hcopy
  | succ k htk ih =>
      have hstep := (ih (by omega)).step (bounded_run hcp mem acts k) (h.busy k (by omega) (by omega))
        (acts k)
      have hfits : ProdSuffices cp mem acts t (k + 1) len ↔ ProdSuffices cp mem acts t k len ∧
          ((runFrom cp mem acts k).copiesProd (acts k) = true →
            Suffices len (runFrom cp mem acts k).cp.queued) := forall_lt_succ (by omega)
      rw [hfits]
      exact hstep

/-- A call of the producer goes on from cycle to cycle. -/
theorem ProduceCall.progress {buf : List (BitVec 8)} (hcp : cp.InBuffer)
    (h : ProduceCall cp mem acts t u buf wait value) {k : ℕ} (htk : t + 1 ≤ k) (hku : k ≤ u) :
    (runFrom cp mem acts k).ProduceAt ⟨buf.length, wait, (runFrom cp mem acts t).taken.length⟩
      (ConsSuffices cp mem acts t k buf.length) (runFrom cp mem acts k).produce := by
  induction k, htk using Nat.le_induction with
  | base =>
      have hstep : runFrom cp mem acts (t + 1) =
          { runFrom cp mem acts t with produce := .readProd buf wait } := by
        change (runFrom cp mem acts t).step (acts t) = _
        rw [h.called, step_callProduce h.idle]
      rw [hstep]
      refine ⟨rfl, rfl, le_rfl, fun _ => rfl, iff_of_true (fun k h1 h2 hcopy => ?_) rfl⟩
      obtain rfl : k = t := by omega
      rw [h.called] at hcopy
      cases hcopy
  | succ k htk ih =>
      have hstep := (ih (by omega)).step (bounded_run hcp mem acts k) (h.busy k (by omega) (by omega))
        (acts k)
      have hfits : ConsSuffices cp mem acts t (k + 1) buf.length ↔
          ConsSuffices cp mem acts t k buf.length ∧
          ((runFrom cp mem acts k).copiesCons (acts k) = true →
            Suffices buf.length (runFrom cp mem acts k).cp.room) := forall_lt_succ (by omega)
      rw [hfits]
      exact hstep

/-- The call has returned, with all copies it took. -/
theorem ConsumeCall.done {len : ℕ} (hcp : cp.InBuffer)
    (h : ConsumeCall cp mem acts t u len wait value) :
    RingCall.Done ⟨len, wait, (runFrom cp mem acts t).stored.length⟩
      (ProdSuffices cp mem acts t u len) (runFrom cp mem acts u).stored.length value := by
  have hat := h.progress hcp h.started le_rfl
  rwa [h.returned] at hat

/-- A call of the producer that has returned is done. -/
theorem ProduceCall.done {buf : List (BitVec 8)} (hcp : cp.InBuffer)
    (h : ProduceCall cp mem acts t u buf wait value) :
    RingCall.Done ⟨buf.length, wait, (runFrom cp mem acts t).taken.length⟩
      (ConsSuffices cp mem acts t u buf.length) (runFrom cp mem acts u).taken.length value := by
  have hat := h.progress hcp h.started le_rfl
  rwa [h.returned] at hat

end Runs

end RingSystem

/-! ## Returned values -/

/-- {lit}`uart0_blocking_read`: what {lit}`consprod_consume` has returned, as an {lit}`int`. -/
def uart0BlockingRead (value : ℕ) : ℤ := (BitVec.ofNat 32 value).toInt

/-- {lit}`uart0_blocking_write`: what {lit}`consprod_produce` has returned, as an {lit}`int`. -/
def uart0BlockingWrite (value : ℕ) : ℤ := (BitVec.ofNat 32 value).toInt

/-- An {lit}`int` shows a length of at most 31 bits. -/
theorem toInt_ofNat_eq_iff {value len : ℕ} (h : value ≤ len) :
    (BitVec.ofNat 32 value).toInt = (len : ℤ) ↔ len < 2 ^ 31 ∧ value = len := by
  rw [BitVec.toInt_eq_toNat_cond, BitVec.toNat_ofNat]
  constructor
  · intro heq
    split_ifs at heq <;> omega
  · rintro ⟨hlt, rfl⟩
    rw [Nat.mod_eq_of_lt (by omega), if_pos (by omega)]

/-- What the calls of a schedule return. -/
structure Returns (cp : Consprod) (mem : ℕ → BitVec 8) (acts : ℕ → RingAction) : Prop where
  consumed : ∀ t u len value, RingSystem.ConsumeCall cp mem acts t u len true value →
    RingSystem.consumed cp mem acts t u = len
  produced : ∀ t u buf value, RingSystem.ProduceCall cp mem acts t u buf true value →
    RingSystem.produced cp mem acts t u = buf.length
  consume : ∀ t u len wait value, RingSystem.ConsumeCall cp mem acts t u len wait value →
    (Reports len wait (RingSystem.consumed cp mem acts t u) value ↔
      (wait = true → RingSystem.ProdSuffices cp mem acts t u len))
  produce : ∀ t u buf wait value, RingSystem.ProduceCall cp mem acts t u buf wait value →
    (Reports buf.length wait (RingSystem.produced cp mem acts t u) value ↔
      (wait = true → RingSystem.ConsSuffices cp mem acts t u buf.length))
  read : ∀ t u len value, RingSystem.ConsumeCall cp mem acts t u len true value →
    (uart0BlockingRead value = len ↔
      len < 2 ^ 31 ∧ RingSystem.ProdSuffices cp mem acts t u len)
  write : ∀ t u buf value, RingSystem.ProduceCall cp mem acts t u buf true value →
    (uart0BlockingWrite value = buf.length ↔
      buf.length < 2 ^ 31 ∧ RingSystem.ConsSuffices cp mem acts t u buf.length)

/-- A call that waits returns its length exactly if every copy it takes of the other pointer
shows either nothing to move or all that it is to move. -/
theorem consprod_returns_iff {cp : Consprod} (h : cp.InBuffer) (mem : ℕ → BitVec 8)
    (acts : ℕ → RingAction) : Returns cp mem acts where
  consumed := by
    intro t u len value hcall
    have hmoved := (hcall.done h).moved rfl
    exact Nat.sub_eq_of_eq_add' hmoved
  produced := by
    intro t u buf value hcall
    have hmoved := (hcall.done h).moved rfl
    exact Nat.sub_eq_of_eq_add' hmoved
  consume := by
    intro t u len wait value hcall
    exact (hcall.done h).reports_iff rfl
  produce := by
    intro t u buf wait value hcall
    exact (hcall.done h).reports_iff rfl
  read := by
    intro t u len value hcall
    have hdone := hcall.done h
    rw [uart0BlockingRead, toInt_ofNat_eq_iff hdone.within, hdone.fits_iff rfl]
  write := by
    intro t u buf value hcall
    have hdone := hcall.done h
    rw [uart0BlockingWrite, toInt_ofNat_eq_iff hdone.within, hdone.fits_iff rfl]

/-- Two bytes are produced, and a call for two bytes finds both. -/
def twoAtOnce (n : ℕ) : RingAction :=
  if n = 0 then .callProduce [7#8, 9#8] false
  else if n < 9 then .producer
  else if n = 9 then .callConsume 2 true
  else .consumer

/-- The call returns two, so its one copy of {lit}`prod` showed both bytes. -/
theorem consprod_returns_two :
    RingSystem.ConsumeCall (consprodInit 16 20) (fun _ => 0#8) twoAtOnce 9 16 2 true 2 ∧
      RingSystem.ProdSuffices (consprodInit 16 20) (fun _ => 0#8) twoAtOnce 9 16 2 := by
  have hbusy : ∀ k < 16, 9 < k →
      (RingSystem.runFrom (consprodInit 16 20) (fun _ => 0#8) twoAtOnce k).consume.busy = true := by
    decide
  have hcall : RingSystem.ConsumeCall (consprodInit 16 20) (fun _ => 0#8) twoAtOnce 9 16 2 true 2 :=
    ⟨by decide, rfl, rfl, fun k h1 h2 => hbusy k h2 h1, rfl⟩
  have hreturns := consprod_returns_iff (inBuffer_init (show 16 + 2 ≤ 20 by decide)) (fun _ => 0#8)
    twoAtOnce
  exact ⟨hcall, ((hreturns.read 9 16 2 2 hcall).mp (by decide)).2⟩

/-- A byte is produced, a call for two bytes finds it and waits, and a second byte is
produced. -/
def oneThenOne (n : ℕ) : RingAction :=
  if n = 0 then .callProduce [7#8] false
  else if n < 6 then .producer
  else if n = 6 then .callConsume 2 true
  else if n < 11 then .consumer
  else if n = 11 then .callProduce [9#8] false
  else if n < 17 then .producer
  else .consumer

/-- The call moves both bytes and returns one. -/
theorem consprod_consume_short :
    RingSystem.ConsumeCall (consprodInit 16 20) (fun _ => 0#8) oneThenOne 6 22 2 true 1 ∧
      RingSystem.consumed (consprodInit 16 20) (fun _ => 0#8) oneThenOne 6 22 = 2 ∧
      ¬ Reports 2 true 2 1 ∧ uart0BlockingRead 1 ≠ 2 := by
  have hbusy : ∀ k < 22, 6 < k →
      (RingSystem.runFrom (consprodInit 16 20) (fun _ => 0#8) oneThenOne k).consume.busy = true := by
    decide
  refine ⟨⟨by decide, rfl, rfl, fun k h1 h2 => hbusy k h2 h1, rfl⟩, rfl, ?_, by decide⟩
  intro h
  exact absurd (h.2 rfl).1 (by decide)

end Sumeru
