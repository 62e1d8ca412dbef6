import Sumeru.Memory.SdramMemory

/-!
# Sumeru - Memory channel seen from its requester

What a cache may rely on at its side of a memory channel, without the arbiter and
the SDRAM behind it.  {lit}`ReadPort` states the rules for a reader: the strobe moves
only to answer, and a burst read delivers the half-words of memory in the eight
cycles from the strobe on, while other channels may change memory at any time.
{lit}`BurstChannel` is the channel of a requester that is the only writer, as a machine
that answers whenever its environment says so.

Main results:

- Theorem {lit}`sdram_readPort`: the memory system of the processor is a read port.
- Theorem {lit}`Serves.step`: it is a burst channel for the only writer among its channels.
-/

namespace Sumeru

/-- The rules of a channel used for burst reads.  {lit}`cells t` is the memory at the
{lit}`t`-th clock edge. -/
structure ReadPort (req : ℕ → MemChannelIn) (strobe : ℕ → Bool) (dataOut : ℕ → BitVec 16)
    (cells : ℕ → BitVec 24 → BitVec 16) : Prop where
  start : strobe 0 = false
  answer : ∀ t, strobe (t + 1) ≠ strobe t → strobe t ≠ (req t).opStart
  read : ∀ t, strobe t ≠ (req t).opStart → strobe (t + 1) = (req (t + 1)).opStart →
    (req (t + 1)).opWren = false → (req (t + 1)).opBurst = true →
    (req (t + 1)).opAddr.toNat % 8 = 0 → ∀ k, k < 8 →
      dataOut (t + 1 + k) = cells (t + 1 + k) ((req (t + 1)).opAddr + BitVec.ofNat 24 k)

/-- A channel of the memory system that never masks is a read port. -/
theorem sdram_readPort {inp : ℕ → Channel → MemChannelIn} (hc : ChannelContract inp)
    (float : ℕ → BitVec 16) (mem : BitVec 24 → BitVec 16) {c : Channel}
    (hdqm : ∀ t, (inp t c).opDqm = 0#2) :
    ReadPort (fun t => inp t c) (fun t => (MemorySystem.run inp t).opStrobe c)
      (dataOutAt inp float mem) (cellsAt inp float mem) where
  start := rfl
  answer := fun _ hne => ((answered_iff hc).mpr hne).1
  read := fun t hne heq hw hb ha k hk => by
    have hread := dataOut_of_answered hc float mem ⟨hne, heq⟩ hw (by rw [hb]; exact hk) (hdqm _)
    rw [hread, beatAddr_of_aligned ha hk]

/-! ## One channel of the memory system -/

section Requester

open MemorySystem

variable {inp : ℕ → Channel → MemChannelIn} {c : Channel} {t : ℕ}

/-- A request that the arbiter has taken is the one that the channel presents. -/
def Settled (inp : ℕ → Channel → MemChannelIn) (c : Channel) (t : ℕ) : Prop :=
  (run inp t).arb.strobe c ≠ (run inp t).opStrobe c →
    (inp t c).opStart = (run inp t).arb.strobe c

/-- No request is taken at power-up. -/
theorem settled_zero (inp : ℕ → Channel → MemChannelIn) (c : Channel) : Settled inp c 0 :=
  fun h => absurd rfl h

/-- Without an open request the strobe rests. -/
theorem Settled.opStrobe_eq (h : Settled inp c t)
    (heq : (run inp t).opStrobe c = (inp t c).opStart) :
    (run inp (t + 1)).opStrobe c = (run inp t).opStrobe c := by
  by_contra hne
  have hout := outstanding_of_answer hne
  exact hout ((h hout).symm.trans heq.symm)

/-- A channel that toggles only when it is answered stays settled. -/
theorem Settled.succ (h : Settled inp c t)
    (htoggle : (inp (t + 1) c).opStart ≠ (inp t c).opStart →
      (run inp t).opStrobe c = (inp t c).opStart) : Settled inp c (t + 1) := by
  intro hne
  rw [strobe_succ] at hne ⊢
  have hkeep : (run inp t).opStrobe c ≠ (inp t c).opStart →
      (inp (t + 1) c).opStart = (inp t c).opStart := fun hopen => not_not.mp (mt htoggle hopen)
  by_cases hf : (run inp t).forwards (inp t) c = true
  · obtain ⟨hreq, hop⟩ := requesting_of_forwards hf
    rw [if_pos hf, hkeep (by rw [hop]; exact hreq.symm)]
    exact Bool.eq_not_of_ne hreq
  · rw [if_neg hf] at hne ⊢
    have hout : (run inp t).arb.strobe c ≠ (run inp t).opStrobe c := by
      intro heq
      have hrest : (run inp (t + 1)).opStrobe c = (run inp t).opStrobe c := by
        by_contra hch
        exact outstanding_of_answer hch heq
      exact hne (heq.trans hrest.symm)
    have hstart := h hout
    rw [hkeep (by rw [hstart]; exact hout.symm), hstart]

/-- What a requester keeps from edge to edge, together with being settled. -/
theorem settled_run {P : ℕ → Prop} (h0 : P 0)
    (hstep : ∀ t, P t → Settled inp c t → P (t + 1))
    (htoggle : ∀ t, P t → Settled inp c t → (inp (t + 1) c).opStart ≠ (inp t c).opStart →
      (run inp t).opStrobe c = (inp t c).opStart) (t : ℕ) : P t ∧ Settled inp c t := by
  induction t with
  | zero => exact ⟨h0, settled_zero inp c⟩
  | succ t ih =>
      obtain ⟨hp, hset⟩ := ih
      exact ⟨hstep t hp hset, hset.succ (htoggle t hp hset)⟩

/-- Without an open request nothing is forwarded. -/
theorem not_forwards_of_closed (heq : (run inp t).opStrobe c = (inp t c).opStart) :
    (run inp t).forwards (inp t) c = false := by
  rw [← Bool.not_eq_true]
  intro hf
  obtain ⟨hreq, hop⟩ := requesting_of_forwards hf
  exact hreq (heq.symm.trans hop)

/-- A channel that has asked for nothing has been answered nothing. -/
theorem opStrobe_of_silent (h : ∀ u, u ≤ t → (inp u c).opStart = false) :
    Settled inp c t ∧ (run inp t).opStrobe c = false := by
  induction t with
  | zero => exact ⟨settled_zero inp c, rfl⟩
  | succ t ih =>
      obtain ⟨hset, hstrobe⟩ := ih fun u hu => h u (by omega)
      have heq : (run inp t).opStrobe c = (inp t c).opStart := by
        rw [hstrobe, h t (by omega)]
      exact ⟨hset.succ fun _ => heq, (hset.opStrobe_eq heq).trans hstrobe⟩

/-! ## Requests up to a cycle -/

/-- The requests up to cycle {lit}`T`, which are held from then on. -/
def heldFrom (inp : ℕ → Channel → MemChannelIn) (T t : ℕ) : Channel → MemChannelIn :=
  inp (min t T)

/-- Up to cycle {lit}`T` the requests are the same. -/
theorem heldFrom_of_le {T : ℕ} (h : t ≤ T) : heldFrom inp T t = inp t := by
  rw [heldFrom, Nat.min_eq_left h]

/-- From cycle {lit}`T` on the request of that cycle stays. -/
theorem heldFrom_of_ge {T : ℕ} (h : T ≤ t) : heldFrom inp T t = inp T := by
  rw [heldFrom, Nat.min_eq_right h]

/-- The memory system does not see the difference. -/
theorem run_heldFrom {T : ℕ} (h : t ≤ T + 1) : run (heldFrom inp T) t = run inp t :=
  Clocked.run_eq_of_agree (Nat.zero_le t) rfl fun _ _ hk => heldFrom_of_le (by omega)

/-- Neither does the memory. -/
theorem sdramRun_heldFrom {T : ℕ} (float : ℕ → BitVec 16) (mem : BitVec 24 → BitVec 16)
    (h : t ≤ T + 1) : SdramSystem.run (heldFrom inp T) float mem t =
      SdramSystem.run inp float mem t := by
  refine Clocked.run_eq_of_agree (Nat.zero_le _) rfl fun k _ hk => ?_
  rw [heldFrom_of_le (by omega)]

/-- The cells are the same up to cycle {lit}`T`. -/
theorem cellsAt_heldFrom {T : ℕ} (float : ℕ → BitVec 16) (mem : BitVec 24 → BitVec 16)
    (h : t ≤ T) : cellsAt (heldFrom inp T) float mem t = cellsAt inp float mem t := by
  rw [cellsAt, cellsAt, sdramRun_heldFrom float mem (by omega)]

/-- Channels that follow their rules up to a cycle follow them for ever if their requests are held
from then on. -/
theorem channelContract_heldFrom {T : ℕ} (start : ∀ c, (inp 0 c).opStart = false)
    (toggle : ∀ t c, t < T → (inp (t + 1) c).opStart ≠ (inp t c).opStart →
      (run inp t).opStrobe c = (inp t c).opStart)
    (hold : ∀ t c, t < T → (run inp t).opStrobe c ≠ (inp t c).opStart →
      (inp (t + 1) c).opAddr = (inp t c).opAddr ∧ (inp (t + 1) c).opWren = (inp t c).opWren ∧
        (inp (t + 1) c).opBurst = (inp t c).opBurst) : ChannelContract (heldFrom inp T) where
  start := by
    intro c
    rw [heldFrom_of_le (Nat.zero_le T)]
    exact start c
  toggle := by
    intro t c hne
    rcases Nat.lt_or_ge t T with ht | ht
    · rw [heldFrom_of_le ht.le, heldFrom_of_le (show t + 1 ≤ T from ht)] at hne
      rw [heldFrom_of_le ht.le, run_heldFrom (by omega)]
      exact toggle t c ht hne
    · rw [heldFrom_of_ge ht, heldFrom_of_ge (show T ≤ t + 1 by omega)] at hne
      exact absurd rfl hne
  hold := by
    intro t c hopen
    rcases Nat.lt_or_ge t T with ht | ht
    · rw [heldFrom_of_le ht.le, run_heldFrom (by omega)] at hopen
      rw [heldFrom_of_le ht.le, heldFrom_of_le (show t + 1 ≤ T from ht)]
      exact hold t c ht hopen
    · rw [heldFrom_of_ge ht, heldFrom_of_ge (show T ≤ t + 1 by omega)]
      exact ⟨rfl, rfl, rfl⟩

/-- Channels that follow their rules up to every cycle follow them. -/
theorem channelContract_of_heldFrom (h : ∀ T, ChannelContract (heldFrom inp T)) :
    ChannelContract inp where
  start := by
    intro c
    have hx := (h 0).start c
    rwa [heldFrom_of_le le_rfl] at hx
  toggle := by
    intro t c hne
    have hx := (h (t + 1)).toggle t c
    rw [heldFrom_of_le le_rfl, heldFrom_of_le (Nat.le_succ t), run_heldFrom (by omega)] at hx
    exact hx hne
  hold := by
    intro t c hopen
    have hx := (h (t + 1)).hold t c
    rw [heldFrom_of_le le_rfl, heldFrom_of_le (Nat.le_succ t), run_heldFrom (by omega)] at hx
    exact hx hopen

end Requester

/-! ## A channel with one writer -/

/-- A channel at the start of a cycle: its strobe, the memory behind it, and the
transfer in progress with the number of this cycle's half-word and the half-words
left. -/
structure BurstChannel where
  strobe : Bool
  cells : BitVec 24 → BitVec 16
  addr : BitVec 24
  wren : Bool
  beat : ℕ
  left : ℕ

namespace BurstChannel

/-- Nothing is transferred at the start. -/
def init (mem : BitVec 24 → BitVec 16) : BurstChannel where
  strobe := false
  cells := mem
  addr := 0#24
  wren := false
  beat := 0
  left := 0

/-- The cell of this cycle's half-word. -/
def cell (ch : BurstChannel) : BitVec 24 := ch.addr + BitVec.ofNat 24 ch.beat

/-- The middle of a cycle: a write stores the half-word presented in it. -/
def transfer (ch : BurstChannel) (req : MemChannelIn) : BurstChannel :=
  if ch.left ≠ 0 ∧ ch.wren = true then
    { ch with
      cells := Function.update ch.cells ch.cell
        (blend req.opDqm (ch.cells ch.cell) req.writeData) }
  else ch

/-- The half-word that a read shows in this cycle. -/
def dataOut (ch : BurstChannel) (float : BitVec 16) : BitVec 16 :=
  if ch.left ≠ 0 ∧ ch.wren = false then ch.cells ch.cell else float

/-- The end of a cycle: an open request is answered when the environment is
{lit}`ready`, a transfer in progress goes on. -/
def advance (ch : BurstChannel) (req : MemChannelIn) (ready : Bool) : BurstChannel :=
  if ch.left = 0 ∧ ch.strobe ≠ req.opStart ∧ ready = true then
    { ch with
      strobe := req.opStart
      addr := req.opAddr
      wren := req.opWren
      beat := 0
      left := beats req.opBurst }
  else { ch with beat := ch.beat + 1, left := ch.left - 1 }

/-! ### The phases of a transfer -/

variable {ch : BurstChannel} {req req' : MemChannelIn} {n : ℕ}

/-- A request that is not answered yet. -/
structure Waiting (ch : BurstChannel) (req : MemChannelIn) : Prop where
  strobe : ch.strobe ≠ req.opStart
  left : ch.left = 0

/-- Half-word {lit}`n` of the burst asked for by {lit}`req` moves in this cycle. -/
structure Moving (ch : BurstChannel) (req : MemChannelIn) (n : ℕ) : Prop where
  strobe : ch.strobe = req.opStart
  addr : ch.addr = req.opAddr
  wren : ch.wren = req.opWren
  beat : ch.beat = n
  left : ch.left = 8 - n

/-- The end of a cycle stores nothing. -/
@[simp]
theorem advance_cells (ready : Bool) : (ch.advance req ready).cells = ch.cells := by
  unfold advance
  split <;> rfl

/-- An answered request leaves the strobe alone. -/
theorem advance_answered (h : ch.strobe = req.opStart) (ready : Bool) :
    ch.advance req ready = { ch with beat := ch.beat + 1, left := ch.left - 1 } := by
  simp [advance, h]

/-- Without a transfer nothing moves. -/
theorem transfer_idle (h : ch.left = 0) : ch.transfer req = ch := by
  simp [transfer, h]

/-- A read stores nothing. -/
theorem transfer_read (h : ch.wren = false) : ch.transfer req = ch := by
  simp [transfer, h]

/-- The middle of a cycle changes nothing but the cells. -/
theorem transfer_eq (ch : BurstChannel) (req : MemChannelIn) :
    (ch.transfer req).strobe = ch.strobe ∧ (ch.transfer req).addr = ch.addr ∧
      (ch.transfer req).wren = ch.wren ∧ (ch.transfer req).beat = ch.beat ∧
      (ch.transfer req).left = ch.left := by
  unfold transfer
  split <;> exact ⟨rfl, rfl, rfl, rfl, rfl⟩

/-- A request waits until the environment is ready. -/
theorem Waiting.advance_not_ready (h : Waiting ch req) : Waiting (ch.advance req false) req := by
  refine ⟨?_, ?_⟩
  · simpa [advance] using h.strobe
  · simp [advance, h.left]

/-- An answered request begins with half-word 0. -/
theorem Waiting.advance_ready (h : Waiting ch req) (hburst : req.opBurst = true) :
    Moving (ch.advance req true) req 0 := by
  have hadv : ch.advance req true =
      { ch with strobe := req.opStart, addr := req.opAddr, wren := req.opWren, beat := 0,
                left := beats req.opBurst } := by
    simp [advance, h.left, h.strobe]
  rw [hadv]
  exact ⟨rfl, rfl, rfl, rfl, by rw [hburst]; rfl⟩

/-- A waiting request moves nothing. -/
theorem Waiting.transfer (h : Waiting ch req) : ch.transfer req' = ch := transfer_idle h.left

/-- The next half-word. -/
theorem Moving.advance (h : Moving ch req n) (ready : Bool) :
    Moving (ch.advance req ready) req (n + 1) := by
  rw [advance_answered h.strobe]
  refine ⟨h.strobe, h.addr, h.wren, ?_, ?_⟩
  · simp [h.beat]
  · simp only [h.left]
    omega

/-- The request lines other than mask and data rest during a burst. -/
theorem Moving.congr (h : Moving ch req n) (hs : req'.opStart = req.opStart)
    (ha : req'.opAddr = req.opAddr) (hw : req'.opWren = req.opWren) : Moving ch req' n :=
  ⟨by rw [hs]; exact h.strobe, by rw [ha]; exact h.addr, by rw [hw]; exact h.wren, h.beat, h.left⟩

/-- The middle of a cycle keeps the position. -/
theorem Moving.transfer (h : Moving ch req n) : Moving (ch.transfer req') req n := by
  unfold BurstChannel.transfer
  split
  · exact ⟨h.strobe, h.addr, h.wren, h.beat, h.left⟩
  · exact h

/-- The cell of half-word {lit}`n`. -/
theorem Moving.cell (h : Moving ch req n) : ch.cell = req.opAddr + BitVec.ofNat 24 n := by
  rw [BurstChannel.cell, h.addr, h.beat]

/-- A half-word of a write burst. -/
theorem Moving.transfer_write (h : Moving ch req n) (hn : n < 8) (hw : req.opWren = true)
    (req' : MemChannelIn) : (ch.transfer req').cells =
    Function.update ch.cells (req.opAddr + BitVec.ofNat 24 n)
      (blend req'.opDqm (ch.cells (req.opAddr + BitVec.ofNat 24 n)) req'.writeData) := by
  have hleft : ch.left ≠ 0 := by
    rw [h.left]
    omega
  rw [BurstChannel.transfer, if_pos ⟨hleft, by rw [h.wren]; exact hw⟩, h.cell]

/-- A read burst stores nothing. -/
theorem Moving.transfer_read (h : Moving ch req n) (hw : req.opWren = false) :
    ch.transfer req' = ch :=
  BurstChannel.transfer_read (by rw [h.wren]; exact hw)

/-- A half-word of a read burst. -/
theorem Moving.dataOut (h : Moving ch req n) (hn : n < 8) (hw : req.opWren = false)
    (float : BitVec 16) : ch.dataOut float = ch.cells (req.opAddr + BitVec.ofNat 24 n) := by
  have hleft : ch.left ≠ 0 := by
    rw [h.left]
    omega
  rw [BurstChannel.dataOut, if_pos ⟨hleft, by rw [h.wren]; exact hw⟩, h.cell]

end BurstChannel

/-! ## The memory system behind such a channel -/

section Service

open MemorySystem

variable {inp : ℕ → Channel → MemChannelIn} {float : ℕ → BitVec 16} {mem : BitVec 24 → BitVec 16}
  {c : Channel} {T t : ℕ} {ch : BurstChannel}

/-- At this edge the strobe of a channel has come up with its request. -/
def answersAt (inp : ℕ → Channel → MemChannelIn) (c : Channel) (t : ℕ) : Bool :=
  (run inp (t + 1)).opStrobe c == (inp t c).opStart

/-- From cycle {lit}`T` on channel {lit}`c` is the only one that writes; it asks for aligned
bursts and masks no half-word that it reads. -/
structure OwnsMemory (inp : ℕ → Channel → MemChannelIn) (c : Channel) (T : ℕ) : Prop where
  burst : ∀ t, (inp t c).opBurst = true
  aligned : ∀ t, (inp t c).opAddr.toNat % 8 = 0
  mask : ∀ a k, Answered inp c a → (inp (a + 1) c).opWren = false → k < 8 →
    (inp (a - 1 + k) c).opDqm = 0#2
  own : ∀ a, Answered inp c a → T ≤ a
  others : ∀ a d, d ≠ c → Answered inp d a → (inp (a + 1) d).opWren = true →
    a + beats (inp (a + 1) d).opBurst ≤ T

/-- The channel shows what the memory system does on channel {lit}`c`. -/
structure Serves (inp : ℕ → Channel → MemChannelIn) (float : ℕ → BitVec 16)
    (mem : BitVec 24 → BitVec 16) (c : Channel) (T t : ℕ) (ch : BurstChannel) : Prop where
  strobe : ch.strobe = (run inp t).opStrobe c
  cells : ch.cells = cellsAt inp float mem (max t T)
  moves : ∀ a k, Answered inp c a → t = a + 1 + k → k < 8 →
    ch.addr = (inp (a + 1) c).opAddr ∧ ch.wren = (inp (a + 1) c).opWren ∧ ch.beat = k ∧
      ch.left = 8 - k
  rest : ch.left ≠ 0 → ∃ a k, Answered inp c a ∧ t = a + 1 + k ∧ k < 8

/-- Nothing is transferred before the first answer. -/
theorem serves_init (inp : ℕ → Channel → MemChannelIn) (float : ℕ → BitVec 16)
    (mem : BitVec 24 → BitVec 16) (c : Channel) (T : ℕ) :
    Serves inp float mem c T 0 (BurstChannel.init (cellsAt inp float mem T)) where
  strobe := rfl
  cells := by rw [Nat.zero_max]; rfl
  moves := fun a k _ h _ => by omega
  rest := fun h => absurd rfl h

/-- An open request keeps its level. -/
theorem opStart_of_open (hc : ChannelContract inp)
    (hopen : (run inp t).opStrobe c ≠ (inp t c).opStart) :
    (inp (t + 1) c).opStart = (inp t c).opStart :=
  not_not.mp fun hne => hopen (hc.toggle t c hne)

/-- An open request that the strobe has come up with is answered. -/
theorem answered_of_answersAt (hc : ChannelContract inp)
    (hopen : (run inp t).opStrobe c ≠ (inp t c).opStart) :
    answersAt inp c t = true ↔ Answered inp c t := by
  rw [answersAt, beq_iff_eq, Answered, opStart_of_open hc hopen]
  exact (and_iff_right hopen).symm

/-- The channel takes up an answered request. -/
theorem Serves.advance_answered (hc : ChannelContract inp) (h : Serves inp float mem c T t ch)
    (hquiet : ch.strobe ≠ (inp t c).opStart → ch.left = 0) (hans : Answered inp c t) :
    ch.advance (inp t c) (answersAt inp c t) =
      { ch with
        strobe := (inp t c).opStart
        addr := (inp t c).opAddr
        wren := (inp t c).opWren
        beat := 0
        left := beats (inp t c).opBurst } := by
  have hopen : ch.strobe ≠ (inp t c).opStart := by
    rw [h.strobe]
    exact hans.1
  rw [BurstChannel.advance,
    if_pos ⟨hquiet hopen, hopen, (answered_of_answersAt hc hans.1).mpr hans⟩]

/-- Without an answer the transfer goes on. -/
theorem Serves.advance_not_answered (hc : ChannelContract inp) (h : Serves inp float mem c T t ch)
    (hans : ¬ Answered inp c t) : ch.advance (inp t c) (answersAt inp c t) =
      { ch with beat := ch.beat + 1, left := ch.left - 1 } := by
  rw [BurstChannel.advance, if_neg]
  rintro ⟨-, hopen, hready⟩
  rw [h.strobe] at hopen
  exact hans ((answered_of_answersAt hc hopen).mp hready)

/-- The position in the transfer after an edge. -/
theorem Serves.position (hc : ChannelContract inp) (how : OwnsMemory inp c T)
    (h : Serves inp float mem c T t ch)
    (hquiet : ch.strobe ≠ (inp t c).opStart → ch.left = 0) {ch' : BurstChannel}
    (hch : ch' = ch.advance (inp t c) (answersAt inp c t)) :
    ch'.strobe = (run inp (t + 1)).opStrobe c ∧
      (∀ a k, Answered inp c a → t + 1 = a + 1 + k → k < 8 →
        ch'.addr = (inp (a + 1) c).opAddr ∧ ch'.wren = (inp (a + 1) c).opWren ∧ ch'.beat = k ∧
          ch'.left = 8 - k) ∧
      (ch'.left ≠ 0 → ∃ a k, Answered inp c a ∧ t + 1 = a + 1 + k ∧ k < 8) := by
  by_cases hans : Answered inp c t
  · have hopen : ch.strobe ≠ (inp t c).opStart := by
      rw [h.strobe]
      exact hans.1
    obtain ⟨haddr, hwren, -⟩ := hc.hold t c hans.1
    rw [h.advance_answered hc hquiet hans] at hch
    subst hch
    refine ⟨?_, fun a k ha hk hk8 => ?_, fun _ => ⟨t, 0, hans, rfl, by omega⟩⟩
    · rw [hans.2]
      exact (opStart_of_open hc hans.1).symm
    · cases k with
      | zero =>
          obtain rfl : a = t := by omega
          exact ⟨haddr.symm, hwren.symm, rfl, by rw [how.burst]; rfl⟩
      | succ k =>
          -- the last burst would still be going on
          have hleft := (h.moves a k ha (by omega) (by omega)).2.2.2
          rw [hquiet hopen] at hleft
          omega
  · rw [h.advance_not_answered hc hans] at hch
    subst hch
    refine ⟨?_, fun a k ha hk hk8 => ?_, fun hleft => ?_⟩
    · rw [not_not.mp (mt (answered_iff hc).mpr hans)]
      exact h.strobe
    · cases k with
      | zero =>
          obtain rfl : a = t := by omega
          exact absurd ha hans
      | succ k =>
          obtain ⟨h1, h2, h3, h4⟩ := h.moves a k ha (by omega) (by omega)
          refine ⟨h1, h2, by simp [h3], ?_⟩
          simp only [h4]
          omega
    · have hne : ch.left ≠ 0 := by
        simp only at hleft
        omega
      obtain ⟨a, k, ha, hk, hk8⟩ := h.rest hne
      have h4 := (h.moves a k ha hk hk8).2.2.2
      simp only [h4] at hleft
      exact ⟨a, k + 1, ha, by omega, by omega⟩

/-- The cells after a cycle: those of the transfer. -/
theorem Serves.cells_succ (hc : ChannelContract inp) (how : OwnsMemory inp c T)
    (h : Serves inp float mem c T t ch)
    (hquiet : ch.strobe ≠ (inp t c).opStart → ch.left = 0) {ch' : BurstChannel}
    (hch : ch' = ch.advance (inp t c) (answersAt inp c t)) :
    (ch'.transfer (inp (t + 1) c)).cells = cellsAt inp float mem (max (t + 1) T) := by
  obtain ⟨-, hmoves, hrest⟩ := h.position hc how hquiet hch
  have hsame : ch'.cells = cellsAt inp float mem (max t T) := by
    rw [hch, BurstChannel.advance_cells]
    exact h.cells
  by_cases hwr : ch'.left ≠ 0 ∧ ch'.wren = true
  · -- a half-word is stored
    obtain ⟨a, k, ha, hk, hk8⟩ := hrest hwr.1
    obtain ⟨haddr, hwren, hbeat, -⟩ := hmoves a k ha hk hk8
    have hTa := how.own a ha
    obtain rfl : t = a + k := by omega
    have hw : (inp (a + 1) c).opWren = true := hwren.symm.trans hwr.2
    have hcells := cells_of_answered hc float mem ha hw (k := k)
      (by rw [how.burst]; exact hk8)
    rw [beatAddr_of_aligned (how.aligned _) hk8, show a + 1 + k = a + k + 1 by omega] at hcells
    rw [BurstChannel.transfer, if_pos hwr, Nat.max_eq_left (by omega), hcells]
    rw [Nat.max_eq_left (by omega)] at hsame
    simp only [BurstChannel.cell, hsame, haddr, hbeat]
  · -- nobody stores
    rw [BurstChannel.transfer, if_neg hwr, hsame]
    rcases Nat.lt_or_ge t T with ht | ht
    · rw [Nat.max_eq_right ht.le, Nat.max_eq_right ht]
    · rw [Nat.max_eq_left ht, Nat.max_eq_left (by omega)]
      by_contra hne
      obtain ⟨a, d, k, ha, hw, hk, rfl⟩ := answered_of_cells_ne hc (Ne.symm hne)
      by_cases hd : d = c
      · subst hd
        rw [how.burst] at hk
        obtain ⟨-, hwren, -, hleft⟩ := hmoves a k ha (by omega) hk
        refine hwr ⟨?_, hwren.trans hw⟩
        have hk' : k < 8 := hk
        omega
      · have := how.others a d hd ha hw
        omega

/-- One clock cycle of the memory system is one of the channel, if no request is made during a
transfer. -/
theorem Serves.step (hc : ChannelContract inp) (how : OwnsMemory inp c T)
    (h : Serves inp float mem c T t ch)
    (hquiet : ch.strobe ≠ (inp t c).opStart → ch.left = 0) :
    Serves inp float mem c T (t + 1)
      ((ch.advance (inp t c) (answersAt inp c t)).transfer (inp (t + 1) c)) := by
  obtain ⟨hstrobe, hmoves, hrest⟩ := h.position hc how hquiet rfl
  obtain ⟨h1, h2, h3, h4, h5⟩ :=
    BurstChannel.transfer_eq (ch.advance (inp t c) (answersAt inp c t)) (inp (t + 1) c)
  refine ⟨h1.trans hstrobe, h.cells_succ hc how hquiet rfl, ?_, ?_⟩
  · rw [h2, h3, h4, h5]
    exact hmoves
  · rw [h5]
    exact hrest

/-- The half-word that the channel shows is the one in {lit}`data_out`. -/
theorem Serves.dataOut_eq (hc : ChannelContract inp) (how : OwnsMemory inp c T)
    (h : Serves inp float mem c T t ch) :
    ch.dataOut (dataOutAt inp float mem t) = dataOutAt inp float mem t := by
  rw [BurstChannel.dataOut]
  split
  · rename_i hread
    obtain ⟨a, k, ha, rfl, hk8⟩ := h.rest hread.1
    obtain ⟨haddr, hwren, hbeat, -⟩ := h.moves a k ha rfl hk8
    have hw : (inp (a + 1) c).opWren = false := hwren.symm.trans hread.2
    have hTa := how.own a ha
    have hdata := dataOut_of_answered hc float mem ha hw (k := k)
      (by rw [how.burst]; exact hk8) (how.mask a k ha hw hk8)
    rw [beatAddr_of_aligned (how.aligned _) hk8] at hdata
    rw [hdata, BurstChannel.cell, haddr, hbeat, h.cells, Nat.max_eq_left (by omega)]
  · rfl

end Service

end Sumeru
