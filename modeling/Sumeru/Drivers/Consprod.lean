import Sumeru.Library.Clocked
import Sumeru.Library.Ring

/-!
# Sumeru - The consprod ring

The ring buffer of the drivers, {lit}`consprod.c`, with one producer and one consumer.  Each
party is a call of {lit}`consprod_produce` or {lit}`consprod_consume` that stands before its
next access to {lit}`prod`, {lit}`cons` or a byte of the buffer; a run interleaves the
accesses of the two in any order.  The tests of the loops read local variables only and
belong to the access before them.

Main results:

- Theorem {lit}`RingSystem.Inv.step`: an access of either party keeps the invariant.
- Theorem {lit}`consprod_fifo`: the ring is a lossless first-in first-out queue.
-/

namespace Sumeru

/-- {lit}`consprod_t`. -/
structure Consprod where
  bufferStart : ℕ
  bufferEnd : ℕ
  prod : ℕ
  cons : ℕ
deriving DecidableEq, Repr

/-- {lit}`consprod_init`. -/
def consprodInit (bufStart bufEnd : ℕ) : Consprod where
  bufferStart := bufStart
  bufferEnd := bufEnd
  prod := bufStart + 1
  cons := bufStart

/-- {lit}`cp_ptr_next`. -/
def cpPtrNext (cp : Consprod) (ptr : ℕ) : ℕ := Ring.next cp.bufferStart cp.bufferEnd ptr

/-- The number of bytes in the ring: the cells after {lit}`cons` and before {lit}`prod`. -/
def Consprod.queued (cp : Consprod) : ℕ :=
  (cp.prod + (cp.bufferEnd - cp.bufferStart) - (cp.cons + 1)) % (cp.bufferEnd - cp.bufferStart)

/-! ## Calls -/

/-- A call of {lit}`consprod_consume` before its next access; {lit}`x` bytes of {lit}`len`
remain.  In {lit}`spin` it is in {lit}`while (cp->prod == p)`. -/
inductive Consume where
  | returned (value : ℕ)
  | readProd (len : ℕ) (wait : Bool)
  | readCons (len : ℕ) (wait : Bool) (p : ℕ)
  | readByte (len x : ℕ) (wait : Bool) (p c : ℕ)
  | writeCons (len x : ℕ) (wait : Bool) (p c : ℕ)
  | spin (x p : ℕ)
deriving DecidableEq, Repr

/-- A call of {lit}`consprod_produce` before its next access; {lit}`buf` holds the bytes of
the {lit}`len` that remain.  The statement {lit}`*cp->prod = *buf` is the read of
{lit}`prod` and then the write of the byte. -/
inductive Produce where
  | returned (value : ℕ)
  | readProd (buf : List (BitVec 8)) (wait : Bool)
  | readCons (buf : List (BitVec 8)) (wait : Bool) (p : ℕ)
  | readSlot (len : ℕ) (buf : List (BitVec 8)) (wait : Bool) (p c : ℕ)
  | writeByte (len : ℕ) (buf : List (BitVec 8)) (wait : Bool) (p c q : ℕ)
  | writeProd (len : ℕ) (buf : List (BitVec 8)) (wait : Bool) (p c : ℕ)
  | spin (buf : List (BitVec 8)) (c : ℕ)
deriving DecidableEq, Repr

/-- The loop test of {lit}`consprod_consume` and what follows the loop. -/
def consumeLoop (len x : ℕ) (wait : Bool) (p c : ℕ) : Consume :=
  if 0 < x ∧ c ≠ p then .readByte len x wait p c
  else if 0 < x then
    if wait = true then .spin x p else .returned (len - x)
  else .returned len

/-- The loop test of {lit}`consprod_produce` and what follows the loop. -/
def produceLoop (len : ℕ) (buf : List (BitVec 8)) (wait : Bool) (p c : ℕ) : Produce :=
  if 0 < buf.length ∧ p ≠ c then .readSlot len buf wait p c
  else if 0 < buf.length then
    if wait = true then .spin buf c else .returned (len - buf.length)
  else .returned len

/-! ## The two parties -/

/-- The ring, its memory and the two calls.  The last two fields are histories: the bytes
taken from the producers' buffers and those stored through the consumers' {lit}`buf`. -/
structure RingSystem where
  cp : Consprod
  mem : ℕ → BitVec 8
  produce : Produce
  consume : Consume
  taken : List (BitVec 8)
  stored : List (BitVec 8)

/-- What happens next: a party that is in no call starts one, or a party makes its next
access. -/
inductive RingAction where
  | callProduce (buf : List (BitVec 8)) (wait : Bool)
  | callConsume (len : ℕ) (wait : Bool)
  | producer
  | consumer

namespace RingSystem

/-- The ring after {lit}`consprod_init`, with any contents of the buffer. -/
def init (bufStart bufEnd : ℕ) (mem : ℕ → BitVec 8) : RingSystem where
  cp := consprodInit bufStart bufEnd
  mem := mem
  produce := .returned 0
  consume := .returned 0
  taken := []
  stored := []

/-- The next access of {lit}`consprod_consume`. -/
def consumer (s : RingSystem) : RingSystem :=
  match s.consume with
  | .returned _ => s
  | .readProd len wait => { s with consume := .readCons len wait s.cp.prod }
  | .readCons len wait p =>
      { s with consume := consumeLoop len len wait p (cpPtrNext s.cp s.cp.cons) }
  | .readByte len x wait p c =>
      { s with stored := s.stored ++ [s.mem c], consume := .writeCons len (x - 1) wait p c }
  | .writeCons len x wait p c =>
      { s with
        cp := { s.cp with cons := c }
        consume := consumeLoop len x wait p (cpPtrNext s.cp c) }
  | .spin x p => if s.cp.prod = p then s else { s with consume := .readProd x true }

/-- The next access of {lit}`consprod_produce`. -/
def producer (s : RingSystem) : RingSystem :=
  match s.produce with
  | .returned _ => s
  | .readProd buf wait => { s with produce := .readCons buf wait (cpPtrNext s.cp s.cp.prod) }
  | .readCons buf wait p => { s with produce := produceLoop buf.length buf wait p s.cp.cons }
  | .readSlot len buf wait p c => { s with produce := .writeByte len buf wait p c s.cp.prod }
  | .writeByte len buf wait p c q =>
      { s with
        mem := Function.update s.mem q (buf.headD 0)
        taken := s.taken ++ [buf.headD 0]
        produce := .writeProd len buf.tail wait p c }
  | .writeProd len buf wait p c =>
      { s with
        cp := { s.cp with prod := p }
        produce := produceLoop len buf wait (cpPtrNext s.cp p) c }
  | .spin buf c => if s.cp.cons = c then s else { s with produce := .readProd buf true }

/-- One step of an interleaving. -/
def step (s : RingSystem) : RingAction → RingSystem
  | .callProduce buf wait =>
      match s.produce with
      | .returned _ => { s with produce := .readProd buf wait }
      | _ => s
  | .callConsume len wait =>
      match s.consume with
      | .returned _ => { s with consume := .readProd len wait }
      | _ => s
  | .producer => s.producer
  | .consumer => s.consumer

/-! ## Invariant -/

/-- The cell of byte number {lit}`k`, counted from one. -/
def slot (s : RingSystem) (k : ℕ) : ℕ :=
  Ring.slot s.cp.bufferStart (s.cp.bufferEnd - s.cp.bufferStart) k

/-- What a call of {lit}`consprod_consume` knows when {lit}`P` bytes are published and
{lit}`C` are freed: its copy of {lit}`prod` is that of an earlier count. -/
def ConsumeOk (s : RingSystem) (P C : ℕ) : Consume → Prop
  | .returned _ => s.stored.length = C
  | .readProd _ _ => s.stored.length = C
  | .readCons _ _ p => s.stored.length = C ∧ ∃ P₀, p = s.slot (P₀ + 1) ∧ C ≤ P₀ ∧ P₀ ≤ P
  | .readByte _ x _ p c =>
      s.stored.length = C ∧ 0 < x ∧ c = s.slot (C + 1) ∧
        ∃ P₀, p = s.slot (P₀ + 1) ∧ C < P₀ ∧ P₀ ≤ P
  | .writeCons _ _ _ p c =>
      s.stored.length = C + 1 ∧ c = s.slot (C + 1) ∧
        ∃ P₀, p = s.slot (P₀ + 1) ∧ C < P₀ ∧ P₀ ≤ P
  | .spin _ p => s.stored.length = C ∧ p = s.slot (C + 1)

/-- What a call of {lit}`consprod_produce` knows: its copy of {lit}`cons` is that of an
earlier count, which still leaves room for the byte it is about to publish. -/
def ProduceOk (s : RingSystem) (P C : ℕ) : Produce → Prop
  | .returned _ => s.taken.length = P
  | .readProd _ _ => s.taken.length = P
  | .readCons _ _ p => s.taken.length = P ∧ p = s.slot (P + 2)
  | .readSlot _ buf _ p c =>
      s.taken.length = P ∧ 0 < buf.length ∧ p = s.slot (P + 2) ∧
        ∃ C₀, c = s.slot C₀ ∧ C₀ ≤ C ∧ P + 3 ≤ C₀ + (s.cp.bufferEnd - s.cp.bufferStart)
  | .writeByte _ buf _ p c q =>
      s.taken.length = P ∧ 0 < buf.length ∧ p = s.slot (P + 2) ∧ q = s.slot (P + 1) ∧
        ∃ C₀, c = s.slot C₀ ∧ C₀ ≤ C ∧ P + 3 ≤ C₀ + (s.cp.bufferEnd - s.cp.bufferStart)
  | .writeProd _ _ _ p c =>
      s.taken.length = P + 1 ∧ s.taken[P]? = some (s.mem (s.slot (P + 1))) ∧
        p = s.slot (P + 2) ∧
        ∃ C₀, c = s.slot C₀ ∧ C₀ ≤ C ∧ P + 3 ≤ C₀ + (s.cp.bufferEnd - s.cp.bufferStart)
  | .spin _ c =>
      s.taken.length = P ∧
        ∃ C₀, c = s.slot C₀ ∧ C₀ ≤ C ∧ P + 2 = C₀ + (s.cp.bufferEnd - s.cp.bufferStart)

/-- The ring with {lit}`P` bytes published and {lit}`C` of them freed. -/
structure Inv (s : RingSystem) (P C : ℕ) : Prop where
  size : s.cp.bufferStart + 3 ≤ s.cp.bufferEnd
  prod : s.cp.prod = s.slot (P + 1)
  cons : s.cp.cons = s.slot C
  freed : C ≤ P
  room : P + 2 ≤ C + (s.cp.bufferEnd - s.cp.bufferStart)
  contents : ∀ k, C ≤ k → k < P → s.taken[k]? = some (s.mem (s.slot (k + 1)))
  inOrder : s.stored <+: s.taken
  produce : s.ProduceOk P C s.produce
  consume : s.ConsumeOk P C s.consume

/-- The ring starts empty. -/
theorem inv_init {bufStart bufEnd : ℕ} (h : bufStart + 3 ≤ bufEnd) (mem : ℕ → BitVec 8) :
    (init bufStart bufEnd mem).Inv 0 0 where
  size := h
  prod := by
    have h1 : 1 % (bufEnd - bufStart) = 1 := Nat.mod_eq_of_lt (by omega)
    simp [slot, Ring.slot, init, consprodInit, h1]
  cons := by simp [slot, Ring.slot, init, consprodInit]
  freed := le_rfl
  room := by
    simp only [init, consprodInit]
    omega
  contents := fun k _ hk => absurd hk (Nat.not_lt_zero k)
  inOrder := List.prefix_rfl
  produce := rfl
  consume := rfl

section Steps

variable {s s' : RingSystem} {P C : ℕ}

/-- The pointer function steps to the next slot. -/
theorem Inv.next_slot (h : s.Inv P C) (k : ℕ) : cpPtrNext s.cp (s.slot k) = s.slot (k + 1) := by
  have hsize := h.size
  have hend : s.cp.bufferStart + (s.cp.bufferEnd - s.cp.bufferStart) = s.cp.bufferEnd := by omega
  have hnext := Ring.next_slot s.cp.bufferStart (n := s.cp.bufferEnd - s.cp.bufferStart)
    (by omega) k
  rwa [hend] at hnext

/-- What the consumer knows stays true when the producer publishes. -/
theorem ConsumeOk.mono {c : Consume} (h : s.ConsumeOk P C c) {P' : ℕ} (hP : P ≤ P')
    (hstored : s'.stored = s.stored) (hslot : s'.slot = s.slot) : s'.ConsumeOk P' C c := by
  cases c with
  | returned => exact (congrArg List.length hstored).trans h
  | readProd => exact (congrArg List.length hstored).trans h
  | readCons =>
      obtain ⟨h1, P₀, h2, h3, h4⟩ := h
      exact ⟨hstored ▸ h1, P₀, hslot ▸ h2, h3, h4.trans hP⟩
  | readByte =>
      obtain ⟨h1, hx, hc, P₀, h2, h3, h4⟩ := h
      exact ⟨hstored ▸ h1, hx, hslot ▸ hc, P₀, hslot ▸ h2, h3, h4.trans hP⟩
  | writeCons =>
      obtain ⟨h1, hc, P₀, h2, h3, h4⟩ := h
      exact ⟨hstored ▸ h1, hslot ▸ hc, P₀, hslot ▸ h2, h3, h4.trans hP⟩
  | spin => exact ⟨hstored ▸ h.1, hslot ▸ h.2⟩

/-- What the producer knows stays true when the consumer frees a byte. -/
theorem ProduceOk.mono {c : Produce} (h : s.ProduceOk P C c) {C' : ℕ} (hC : C ≤ C')
    (htaken : s'.taken = s.taken) (hmem : s'.mem = s.mem)
    (hstart : s'.cp.bufferStart = s.cp.bufferStart) (hend : s'.cp.bufferEnd = s.cp.bufferEnd) :
    s'.ProduceOk P C' c := by
  have hslot : s'.slot = s.slot := by
    funext k
    rw [slot, slot, hstart, hend]
  cases c with
  | returned => exact (congrArg List.length htaken).trans h
  | readProd => exact (congrArg List.length htaken).trans h
  | readCons => exact ⟨htaken ▸ h.1, hslot ▸ h.2⟩
  | readSlot =>
      obtain ⟨h1, h2, h3, C₀, h4, h5, h6⟩ := h
      exact ⟨htaken ▸ h1, h2, hslot ▸ h3, C₀, hslot ▸ h4, h5.trans hC, by rwa [hstart, hend]⟩
  | writeByte =>
      obtain ⟨h1, h2, h3, hq, C₀, h4, h5, h6⟩ := h
      exact ⟨htaken ▸ h1, h2, hslot ▸ h3, hslot ▸ hq, C₀, hslot ▸ h4, h5.trans hC,
        by rwa [hstart, hend]⟩
  | writeProd =>
      obtain ⟨h1, h2, h3, C₀, h4, h5, h6⟩ := h
      refine ⟨htaken ▸ h1, ?_, hslot ▸ h3, C₀, hslot ▸ h4, h5.trans hC, by rwa [hstart, hend]⟩
      rw [htaken, hmem, hslot]
      exact h2
  | spin =>
      obtain ⟨h1, C₀, h4, h5, h6⟩ := h
      exact ⟨htaken ▸ h1, C₀, hslot ▸ h4, h5.trans hC, by rwa [hstart, hend]⟩

/-- The loop test of the consumer: it goes on only if a byte was published. -/
theorem consumeOk_loop {len x p P₀ : ℕ} {wait : Bool} (hlen : s.stored.length = C)
    (hp : p = s.slot (P₀ + 1)) (h1 : C ≤ P₀) (h2 : P₀ ≤ P) :
    s.ConsumeOk P C (consumeLoop len x wait p (s.slot (C + 1))) := by
  unfold consumeLoop
  by_cases hx : 0 < x
  · by_cases hc : s.slot (C + 1) = p
    · rw [if_neg (fun h => h.2 hc), if_pos hx]
      cases wait with
      | false => exact hlen
      | true => exact ⟨hlen, hc.symm⟩
    · rw [if_pos ⟨hx, hc⟩]
      have hne : C ≠ P₀ := by
        rintro rfl
        exact hc hp.symm
      exact ⟨hlen, hx, rfl, P₀, hp, by omega, h2⟩
  · rw [if_neg (fun h => hx h.1), if_neg hx]
    exact hlen

/-- The loop test of the producer: it goes on only if there was room for a byte. -/
theorem produceOk_loop {len C₀ : ℕ} {buf : List (BitVec 8)} {wait : Bool}
    (hlen : s.taken.length = P) (h1 : C₀ ≤ C) (h2 : C ≤ P)
    (h3 : P + 2 ≤ C₀ + (s.cp.bufferEnd - s.cp.bufferStart)) :
    s.ProduceOk P C (produceLoop len buf wait (s.slot (P + 2)) (s.slot C₀)) := by
  have hround : s.slot C₀ = s.slot (C₀ + (s.cp.bufferEnd - s.cp.bufferStart)) :=
    (Ring.slot_add_self _ _ _).symm
  unfold produceLoop
  by_cases hx : 0 < buf.length
  · by_cases hc : s.slot (P + 2) = s.slot C₀
    · rw [if_neg (fun h => h.2 hc), if_pos hx]
      have hfull : P + 2 = C₀ + (s.cp.bufferEnd - s.cp.bufferStart) :=
        Ring.slot_inj h3 (by omega) (hc.trans hround)
      cases wait with
      | false => exact hlen
      | true => exact ⟨hlen, C₀, rfl, h1, hfull⟩
    · rw [if_pos ⟨hx, hc⟩]
      have hne : P + 2 ≠ C₀ + (s.cp.bufferEnd - s.cp.bufferStart) := by
        intro hfull
        exact hc ((congrArg s.slot hfull).trans hround.symm)
      exact ⟨hlen, hx, rfl, C₀, rfl, h1, by omega⟩
  · rw [if_neg (fun h => hx h.1), if_neg hx]
    exact hlen

/-- A prefix grows by the next element. -/
theorem prefix_concat {α : Type*} {l l' : List α} {a : α} (h : l <+: l')
    (ha : l'[l.length]? = some a) : l ++ [a] <+: l' := by
  obtain ⟨t, rfl⟩ := h
  cases t with
  | nil => simp at ha
  | cons b t =>
      rw [List.getElem?_append_right le_rfl, Nat.sub_self] at ha
      cases ha
      exact ⟨t, by simp⟩

/-- An access of the consumer. -/
theorem Inv.consumer (h : s.Inv P C) : ∃ C', s.consumer.Inv P C' := by
  have hco := h.consume
  unfold RingSystem.consumer
  cases hc : s.consume with
  | returned => exact ⟨C, h⟩
  | readProd len wait =>
      rw [hc] at hco
      exact ⟨C, { h with consume := ⟨hco, P, h.prod, h.freed, le_rfl⟩ }⟩
  | readCons len wait p =>
      rw [hc] at hco
      obtain ⟨hlen, P₀, hp, h1, h2⟩ := hco
      have hnext : cpPtrNext s.cp s.cp.cons = s.slot (C + 1) := by
        rw [h.cons, h.next_slot]
      refine ⟨C, { h with consume := ?_ }⟩
      rw [hnext]
      exact consumeOk_loop hlen hp h1 h2
  | readByte len x wait p c =>
      rw [hc] at hco
      obtain ⟨hlen, -, hcell, P₀, hp, h1, h2⟩ := hco
      have hbyte : s.taken[s.stored.length]? = some (s.mem c) := by
        rw [hlen, hcell]
        exact h.contents C le_rfl (by omega)
      refine ⟨C, { h with inOrder := prefix_concat h.inOrder hbyte, consume := ?_ }⟩
      exact ⟨by simp [hlen], hcell, P₀, hp, h1, h2⟩
  | writeCons len x wait p c =>
      rw [hc] at hco
      obtain ⟨hlen, hcell, P₀, hp, h1, h2⟩ := hco
      have hnext : cpPtrNext s.cp c = s.slot (C + 1 + 1) := by
        rw [hcell, h.next_slot]
      have hroom := h.room
      refine ⟨C + 1, h.size, h.prod, hcell, by omega, ?_, fun k hk => h.contents k (by omega),
        h.inOrder, h.produce.mono (Nat.le_succ C) rfl rfl rfl rfl, ?_⟩
      · change P + 2 ≤ C + 1 + (s.cp.bufferEnd - s.cp.bufferStart)
        omega
      · dsimp only
        rw [hnext]
        exact consumeOk_loop hlen hp h1 h2
  | spin x p =>
      rw [hc] at hco
      by_cases hp : s.cp.prod = p
      · simp only [if_pos hp]
        exact ⟨C, h⟩
      · simp only [if_neg hp]
        exact ⟨C, { h with consume := hco.1 }⟩

/-- An access of the producer. -/
theorem Inv.producer (h : s.Inv P C) : ∃ P', s.producer.Inv P' C := by
  have hpr := h.produce
  have hroom := h.room
  unfold RingSystem.producer
  cases hc : s.produce with
  | returned => exact ⟨P, h⟩
  | readProd buf wait =>
      rw [hc] at hpr
      have hnext : cpPtrNext s.cp s.cp.prod = s.slot (P + 2) := by
        rw [h.prod, h.next_slot]
      exact ⟨P, { h with produce := ⟨hpr, hnext⟩ }⟩
  | readCons buf wait p =>
      rw [hc] at hpr
      obtain ⟨hlen, rfl⟩ := hpr
      refine ⟨P, { h with produce := ?_ }⟩
      rw [h.cons]
      exact produceOk_loop hlen le_rfl h.freed hroom
  | readSlot len buf wait p c =>
      rw [hc] at hpr
      obtain ⟨hlen, hx, hp, C₀, h1, h2, h3⟩ := hpr
      exact ⟨P, { h with produce := ⟨hlen, hx, hp, h.prod, C₀, h1, h2, h3⟩ }⟩
  | writeByte len buf wait p c q =>
      rw [hc] at hpr
      obtain ⟨hlen, hx, hp, rfl, C₀, h1, h2, h3⟩ := hpr
      refine ⟨P, h.size, h.prod, h.cons, h.freed, hroom, ?_,
        h.inOrder.trans (List.prefix_append _ _), ?_, h.consume.mono le_rfl rfl rfl⟩
      · -- the cell is the gap, so no queued byte is overwritten
        intro k hk hkP
        have hne : s.slot (k + 1) ≠ s.slot (P + 1) := Ring.slot_ne (by omega) (by omega)
        have hold := h.contents k hk hkP
        rw [List.getElem?_append_left (by omega), hold]
        exact congrArg some (Function.update_of_ne hne _ _).symm
      · refine ⟨by simp [hlen], ?_, hp, C₀, h1, h2, h3⟩
        have hcell : Function.update s.mem (s.slot (P + 1)) (buf.headD 0) (s.slot (P + 1)) =
            buf.headD 0 := Function.update_self _ _ _
        rw [List.getElem?_append_right (by omega), hlen, Nat.sub_self]
        exact congrArg some hcell.symm
  | writeProd len buf wait p c =>
      rw [hc] at hpr
      obtain ⟨hlen, hbyte, hp, C₀, rfl, h2, h3⟩ := hpr
      have hnext : cpPtrNext s.cp p = s.slot (P + 1 + 2) := by
        rw [hp, h.next_slot]
      have hfreed := h.freed
      refine ⟨P + 1, h.size, hp, h.cons, by omega, ?_, ?_, h.inOrder, ?_,
        h.consume.mono (Nat.le_succ P) rfl rfl⟩
      · change P + 1 + 2 ≤ C + (s.cp.bufferEnd - s.cp.bufferStart)
        omega
      · intro k hk hkP
        rcases Nat.lt_succ_iff_lt_or_eq.mp hkP with hlt | rfl
        · exact h.contents k hk hlt
        · exact hbyte
      · dsimp only
        rw [hnext, hp]
        exact produceOk_loop hlen h2 (by omega) h3
  | spin buf c =>
      rw [hc] at hpr
      by_cases hcons : s.cp.cons = c
      · simp only [if_pos hcons]
        exact ⟨P, h⟩
      · simp only [if_neg hcons]
        exact ⟨P, { h with produce := hpr.1 }⟩

/-- One step of an interleaving keeps the invariant, for new counts. -/
theorem Inv.step (h : s.Inv P C) (a : RingAction) : ∃ P' C', (s.step a).Inv P' C' := by
  cases a with
  | callProduce buf wait =>
      refine ⟨P, C, ?_⟩
      have hpr := h.produce
      unfold RingSystem.step
      cases hc : s.produce with
      | returned =>
          rw [hc] at hpr
          exact { h with produce := hpr }
      | _ => exact h
  | callConsume len wait =>
      refine ⟨P, C, ?_⟩
      have hco := h.consume
      unfold RingSystem.step
      cases hc : s.consume with
      | returned =>
          rw [hc] at hco
          exact { h with consume := hco }
      | _ => exact h
  | producer =>
      obtain ⟨P', h'⟩ := h.producer
      exact ⟨P', C, h'⟩
  | consumer =>
      obtain ⟨C', h'⟩ := h.consumer
      exact ⟨P, C', h'⟩

/-- No step moves the buffer. -/
theorem step_buffer (s : RingSystem) (a : RingAction) :
    (s.step a).cp.bufferStart = s.cp.bufferStart ∧ (s.step a).cp.bufferEnd = s.cp.bufferEnd := by
  cases a with
  | callProduce buf wait =>
      unfold RingSystem.step
      cases s.produce <;> exact ⟨rfl, rfl⟩
  | callConsume len wait =>
      unfold RingSystem.step
      cases s.consume <;> exact ⟨rfl, rfl⟩
  | producer =>
      change s.producer.cp.bufferStart = _ ∧ s.producer.cp.bufferEnd = _
      unfold RingSystem.producer
      cases s.produce with
      | spin buf c => dsimp only; split <;> exact ⟨rfl, rfl⟩
      | _ => exact ⟨rfl, rfl⟩
  | consumer =>
      change s.consumer.cp.bufferStart = _ ∧ s.consumer.cp.bufferEnd = _
      unfold RingSystem.consumer
      cases s.consume with
      | spin x p => dsimp only; split <;> exact ⟨rfl, rfl⟩
      | _ => exact ⟨rfl, rfl⟩

/-! ## The queue -/

/-- The length that the code computes is the number of queued bytes. -/
theorem Inv.queued_eq (h : s.Inv P C) : s.cp.queued = P - C := by
  have hsize := h.size
  have hroom := h.room
  have hfreed := h.freed
  have hprod : s.cp.prod = s.cp.bufferStart + (P + 1) % (s.cp.bufferEnd - s.cp.bufferStart) :=
    h.prod
  have hcons : s.cp.cons = s.cp.bufferStart + C % (s.cp.bufferEnd - s.cp.bufferStart) := h.cons
  unfold Consprod.queued
  generalize s.cp.bufferEnd - s.cp.bufferStart = N at hprod hcons hroom
  have hlt : C % N < N := Nat.mod_lt _ (by omega)
  have hcancel : s.cp.prod + N - (s.cp.cons + 1) + (C + 1) ≡ P - C + (C + 1) [MOD N] :=
    calc s.cp.prod + N - (s.cp.cons + 1) + (C + 1)
        ≡ s.cp.prod + N - (s.cp.cons + 1) + (C % N + 1) [MOD N] :=
          Nat.ModEq.add_left _ (Nat.ModEq.add_right 1 (Nat.mod_modEq C N).symm)
      _ = (P + 1) % N + N := by omega
      _ ≡ (P + 1) % N [MOD N] := Nat.add_mod_right _ _
      _ ≡ P + 1 [MOD N] := Nat.mod_modEq _ _
      _ = P - C + (C + 1) := by omega
  have hmod : (s.cp.prod + N - (s.cp.cons + 1)) % N = (P - C) % N :=
    Nat.ModEq.add_right_cancel' _ hcancel
  rw [hmod, Nat.mod_eq_of_lt (by omega)]

/-- The calls of the two parties see a queue: the bytes stored are a prefix of the bytes
taken, the pointers are valid and apart, one cell and the gap stay free, and a call that spins
faces an empty, or a full, ring. -/
structure Fifo (s : RingSystem) (bufStart bufEnd : ℕ) : Prop where
  inOrder : s.stored <+: s.taken
  prod : bufStart ≤ s.cp.prod ∧ s.cp.prod < bufEnd
  cons : bufStart ≤ s.cp.cons ∧ s.cp.cons < bufEnd
  apart : s.cp.prod ≠ s.cp.cons
  queued : s.cp.queued ≤ bufEnd - bufStart - 2
  outstanding : s.taken.length - s.stored.length ≤ bufEnd - bufStart - 2
  empty : ∀ x p, s.consume = .spin x p → s.cp.prod = p → s.cp.queued = 0
  full : ∀ buf c, s.produce = .spin buf c → s.cp.cons = c → s.cp.queued = bufEnd - bufStart - 2

/-- Producer and consumer are never more than the ring apart. -/
theorem Inv.taken_length (h : s.Inv P C) :
    s.taken.length + 2 ≤ C + (s.cp.bufferEnd - s.cp.bufferStart) := by
  have hpr := h.produce
  have hroom := h.room
  cases hc : s.produce with
  | writeProd =>
      rw [hc] at hpr
      obtain ⟨hlen, -, -, C₀, -, h2, h3⟩ := hpr
      omega
  | returned =>
      rw [hc] at hpr
      have hlen : s.taken.length = P := hpr
      omega
  | readProd =>
      rw [hc] at hpr
      have hlen : s.taken.length = P := hpr
      omega
  | _ =>
      rw [hc] at hpr
      have hlen : s.taken.length = P := hpr.1
      omega

/-- The consumer does not overtake. -/
theorem Inv.le_stored_length (h : s.Inv P C) : C ≤ s.stored.length := by
  have hco := h.consume
  cases hc : s.consume with
  | returned =>
      rw [hc] at hco
      exact hco.ge
  | readProd =>
      rw [hc] at hco
      exact hco.ge
  | writeCons =>
      rw [hc] at hco
      have := hco.1
      omega
  | _ =>
      rw [hc] at hco
      exact hco.1.ge

/-- The invariant gives the order of bytes. -/
theorem Inv.fifo (h : s.Inv P C) : s.Fifo s.cp.bufferStart s.cp.bufferEnd := by
  have hsize := h.size
  have hroom := h.room
  have hfreed := h.freed
  have hmem : ∀ k, s.cp.bufferStart ≤ s.slot k ∧ s.slot k < s.cp.bufferEnd := by
    intro k
    have := Ring.slot_mem s.cp.bufferStart (n := s.cp.bufferEnd - s.cp.bufferStart) (by omega) k
    unfold slot
    omega
  refine ⟨h.inOrder, h.prod ▸ hmem _, h.cons ▸ hmem _, ?_, ?_, ?_, ?_, ?_⟩
  · rw [h.prod, h.cons]
    exact (Ring.slot_ne (by omega) (by omega)).symm
  · rw [h.queued_eq]
    omega
  · have h1 := h.taken_length
    have h2 := h.le_stored_length
    omega
  · intro x p hspin hp
    have hco := h.consume
    rw [hspin] at hco
    have hPC : C + 1 = P + 1 :=
      Ring.slot_inj (by omega) (by omega) (hco.2.symm.trans (hp.symm.trans h.prod))
    rw [h.queued_eq]
    omega
  · intro buf c hspin hc
    have hpr := h.produce
    rw [hspin] at hpr
    obtain ⟨-, C₀, hcell, h1, h2⟩ := hpr
    have hC : C₀ = C := Ring.slot_inj h1 (by omega) (hcell.symm.trans (hc.symm.trans h.cons))
    rw [h.queued_eq]
    omega

end Steps

/-- The state after {lit}`n` steps of an interleaving. -/
def run (bufStart bufEnd : ℕ) (mem : ℕ → BitVec 8) (acts : ℕ → RingAction) (n : ℕ) : RingSystem :=
  Clocked.run step (init bufStart bufEnd mem) acts n

/-- The invariant holds in every run. -/
theorem inv_run {bufStart bufEnd : ℕ} (h : bufStart + 3 ≤ bufEnd) (mem : ℕ → BitVec 8)
    (acts : ℕ → RingAction) (n : ℕ) : ∃ P C, (run bufStart bufEnd mem acts n).Inv P C := by
  refine Clocked.run_invariant (P := fun s => ∃ P C, Inv s P C) ⟨0, 0, inv_init h mem⟩ ?_ n
  rintro n ⟨P, C, hinv⟩
  exact hinv.step (acts n)

/-- The buffer stays where it is. -/
theorem buffer_run (bufStart bufEnd : ℕ) (mem : ℕ → BitVec 8) (acts : ℕ → RingAction) (n : ℕ) :
    (run bufStart bufEnd mem acts n).cp.bufferStart = bufStart ∧
      (run bufStart bufEnd mem acts n).cp.bufferEnd = bufEnd := by
  refine Clocked.run_invariant
    (P := fun s : RingSystem => s.cp.bufferStart = bufStart ∧ s.cp.bufferEnd = bufEnd) ⟨rfl, rfl⟩ ?_ n
  rintro n ⟨h1, h2⟩
  obtain ⟨k1, k2⟩ := step_buffer (Clocked.run step (init bufStart bufEnd mem) acts n) (acts n)
  exact ⟨k1.trans h1, k2.trans h2⟩

end RingSystem

/-- The ring is a lossless first-in first-out queue in every interleaving of one producer and
one consumer. -/
theorem consprod_fifo {bufStart bufEnd : ℕ} (h : bufStart + 3 ≤ bufEnd) (mem : ℕ → BitVec 8)
    (acts : ℕ → RingAction) (n : ℕ) :
    (RingSystem.run bufStart bufEnd mem acts n).Fifo bufStart bufEnd := by
  obtain ⟨P, C, hinv⟩ := RingSystem.inv_run h mem acts n
  obtain ⟨h1, h2⟩ := RingSystem.buffer_run bufStart bufEnd mem acts n
  have hfifo := hinv.fifo
  rwa [h1, h2] at hfifo

/-- Three cells: a call with two bytes fills the ring with the first, and spins. -/
def threeCells (n : ℕ) : RingAction :=
  if n = 0 then .callProduce [7#8, 9#8] true else .producer

/-- The producer of two bytes faces a full ring. -/
theorem consprod_fifo_three :
    (RingSystem.run 16 19 (fun _ => 0#8) threeCells 6).produce = .spin [9#8] 16 ∧
      (RingSystem.run 16 19 (fun _ => 0#8) threeCells 6).Fifo 16 19 :=
  ⟨by decide, consprod_fifo (by decide) _ _ _⟩

end Sumeru
