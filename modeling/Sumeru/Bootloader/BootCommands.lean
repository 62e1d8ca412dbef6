import Sumeru.Bootloader.BootLoad

/-!
# Sumeru - Boot commands

Any stream of bytes at the boot ROM, valid or not, up to the first {lit}`'j'`.  The loop of
{lit}`main` reads it as commands of fixed lengths.  A {lit}`'w'` with the right checksum writes its
sixteen bytes and an {lit}`'a'` with the right checksum sets the pointer; every other
frame with bytes of its own is refused.  Memory is what the program sees through the data
cache, outside of its own data and of the UART buffer.

Main results:

- Theorem {lit}`Boot.AtHead.effect`: what one command does, and that the loop comes back to its
  head.
- Theorem {lit}`boot_commands_safe`: the commands of every stream; a frame of the client with one
  byte changed is refused, and addresses are decoded as they were sent.
-/

namespace Sumeru

/-! ## Streams -/

namespace Boot

/-- How many bytes {lit}`main` reads after the byte of a command. -/
def payloadLength (command : BitVec 8) : ℕ :=
  if command = 0x61#8 then 5 else if command = 0x77#8 then 17 else 0

/-- The commands of a stream up to the first {lit}`'j'`.  The last one can lack bytes. -/
def commands : List (BitVec 8) → List (List (BitVec 8))
  | [] => []
  | command :: rest =>
      if command = 0x6A#8 then []
      else
        (command :: rest.take (payloadLength command)) ::
          commands (rest.drop (payloadLength command))
termination_by stream => stream.length
decreasing_by
  rw [List.length_drop, List.length_cons]
  omega

/-- The boot ROM after power-up and a stream of bytes. -/
def run (own : ℕ → List OwnAccess) (mem : ByteMem) (stream : List (BitVec 8)) : Boot :=
  stream.foldl (receive own) (init mem)

/-- No bytes, no command. -/
theorem commands_nil : commands [] = [] := by
  rw [commands]

/-- A command other than {lit}`j` takes its payload along. -/
theorem commands_cons {command : BitVec 8} (h : command ≠ 0x6A#8) (rest : List (BitVec 8)) :
    commands (command :: rest) =
      (command :: rest.take (payloadLength command)) ::
        commands (rest.drop (payloadLength command)) := by
  rw [commands, if_neg h]

/-- Nothing is a command behind {lit}`j`. -/
theorem commands_jump (rest : List (BitVec 8)) : commands (0x6A#8 :: rest) = [] := by
  rw [commands, if_pos rfl]

/-! ## Effects -/

open Machine

/-- The sixteen bytes at {lit}`x` are outside the own data of the program. -/
def Clear (own : ℕ → List OwnAccess) (x : BitVec 32) : Prop :=
  ∀ k < 16, Outside own (busAddr (x + BitVec.ofNat 32 k))

/-- The sixteen bytes at the pointer, as the program sees them. -/
def chunk (s : Boot) : List (BitVec 8) :=
  (List.range 16).map fun k => s.machine.memory.value (busAddr (s.memPtr + BitVec.ofNat 32 k))

/-- Memory is as before; the pointer and the reply are given. -/
structure Leaves (own : ℕ → List OwnAccess) (s s' : Boot) (memPtr : BitVec 32)
    (answer : List (BitVec 8)) : Prop where
  memory : ∀ a, Outside own a → s'.machine.memory.value a = s.machine.memory.value a
  memPtr : s'.memPtr = memPtr
  replies : s'.replies = s.replies ++ answer

/-- The bytes {lit}`data` are written at the pointer and nowhere else. -/
structure Writes (own : ℕ → List OwnAccess) (s s' : Boot) (data : List (BitVec 8)) : Prop where
  bytes : ∀ k (hk : k < data.length),
    s'.machine.memory.value (busAddr (s.memPtr + BitVec.ofNat 32 k)) = data[k]
  rest : ∀ a, Outside own a → (∀ k < data.length, a ≠ busAddr (s.memPtr + BitVec.ofNat 32 k)) →
    s'.machine.memory.value a = s.machine.memory.value a
  memPtr : s'.memPtr = s.memPtr + 16#32
  replies : s'.replies = s.replies ++ [replyOk]

/-- A {lit}`'w'` whose last byte is the exclusive or of the others. -/
def writeFrame (data : List (BitVec 8)) : List (BitVec 8) :=
  0x77#8 :: data ++ [data.foldl (· ^^^ ·) 0#8]

/-- An {lit}`'a'` whose last byte is the exclusive or of the others. -/
def pointerFrame (b₀ b₁ b₂ b₃ : BitVec 8) : List (BitVec 8) :=
  [0x61#8, b₀, b₁, b₂, b₃, b₀ ^^^ b₁ ^^^ b₂ ^^^ b₃]

/-- The reply to a command that is neither executed nor read out: none while bytes are missing,
the version for {lit}`'v'`. -/
def answer : List (BitVec 8) → List (BitVec 8)
  | [] => []
  | command :: payload =>
      if payload.length < payloadLength command then []
      else if command = 0x76#8 then [0x31#8]
      else [replyError]

/-- What a command does from its first byte on. -/
inductive CommandEffect (own : ℕ → List OwnAccess) (frame : List (BitVec 8)) (s s' : Boot) : Prop
  | write (data : List (BitVec 8)) (hlen : data.length = 16) (hframe : frame = writeFrame data)
      (h : Writes own s s' data)
  | address (b₀ b₁ b₂ b₃ : BitVec 8) (hframe : frame = pointerFrame b₀ b₁ b₂ b₃)
      (h : Leaves own s s' (b₃ ++ b₂ ++ b₁ ++ b₀) [replyOk])
  | read (hframe : frame = [0x72#8])
      (h : Leaves own s s' (s.memPtr + 16#32) (s.chunk ++ [s.chunk.foldl (· ^^^ ·) 0#8]))
  | other (hwrite : ∀ data : List (BitVec 8), data.length = 16 → frame ≠ writeFrame data)
      (haddress : ∀ b₀ b₁ b₂ b₃, frame ≠ pointerFrame b₀ b₁ b₂ b₃) (hread : frame ≠ [0x72#8])
      (h : Leaves own s s' s.memPtr (answer frame))

variable {own : ℕ → List OwnAccess} {s s' s'' : Boot} {bytes : List (BitVec 8)}

/-- Effects of commands in a row. -/
theorem Leaves.trans {memPtr memPtr' : BitVec 32} {answer answer' : List (BitVec 8)}
    (h : Leaves own s s' memPtr answer) (h' : Leaves own s' s'' memPtr' answer') :
    Leaves own s s'' memPtr' (answer ++ answer') where
  memory a ha := (h'.memory a ha).trans (h.memory a ha)
  memPtr := h'.memPtr
  replies := by rw [h'.replies, h.replies, List.append_assoc]

/-! ## One command -/

/-- The program is at the head of a read, and clean bytes outside its data are in memory. -/
structure Sound (own : ℕ → List OwnAccess) (s : Boot) : Prop where
  ready : s.Ready
  holds : ∀ a, Outside own a → s.machine.memory.Holds a (s.machine.memory.value a)

/-- The program is at the head of the loop of {lit}`main`. -/
structure AtHead (own : ℕ → List OwnAccess) (s : Boot) : Prop extends Sound own s where
  reading : s.reading = .command

/-- At power-up the loader waits for a command. -/
theorem atHead_init (own : ℕ → List OwnAccess) (mem : ByteMem) : AtHead own (init mem) where
  ready := (idle_init mem).ready
  holds _ _ := ⟨rfl, fun _ => rfl⟩
  reading := rfl

/-- Steps that keep the bytes outside keep memory. -/
theorem Sound.moves (h : Sound own s) {m : Machine} (hclean : BufferClean m.memory)
    (hkeep : ∀ a v, Outside own a → s.machine.memory.Holds a v → m.memory.Holds a v)
    (reading : Reading) :
    Sound own { s with machine := m, reading := reading } ∧
      Leaves own s { s with machine := m, reading := reading } s.memPtr [] := by
  refine ⟨⟨⟨h.ready.got, h.ready.jumped, hclean⟩, ?_⟩, ?_, rfl, (List.append_nil _).symm⟩
  · intro a ha
    have hm := hkeep a _ ha (h.holds a ha)
    rwa [← hm.value] at hm
  · exact fun a ha => (hkeep a _ ha (h.holds a ha)).value

/-- Bytes that arrive in the buffer are such a step. -/
theorem Sound.received (h : Sound own s) {m : Machine} {n : ℕ} (hclean : BufferClean m.memory)
    (hkeep : ∀ Q, Undisturbed own n Q → Q s.machine.memory → Q m.memory) (hn : n ≤ 32)
    (reading : Reading) :
    Sound own { s with machine := m, reading := reading } ∧
      Leaves own s { s with machine := m, reading := reading } s.memPtr [] :=
  h.moves hclean (fun _ v ha hm => hkeep _ (ha.undisturbed v hn) hm) reading

/-- Loads are such steps, wherever they read. -/
theorem Sound.memcpyFrom (h : Sound own s) (x : BitVec 32) (n : ℕ) :
    Sound own { s with machine := (s.machine.memcpyFrom own x n).2 } ∧
      Leaves own s { s with machine := (s.machine.memcpyFrom own x n).2 } s.memPtr [] := by
  refine h.moves ?_ ?_ s.reading
  · intro k hk
    rw [memcpyFrom_eq]
    refine accesses_keeps (Q := fun m => m.dirtyAt (bufferByte k) = false) (ownKeeps_clean hk) ?_
      (h.ready.clean k hk)
    intro op hop m hm
    obtain ⟨i, -, rfl⟩ := mem_loadOps.mp hop
    exact dirtyAt_perform hm fun hst => by cases hst
  · intro a v ha hv
    rw [memcpyFrom_eq]
    refine accesses_keeps (ha.foreign.holds v) ?_ hv
    intro op hop m hm
    obtain ⟨k, -, rfl⟩ := mem_loadOps.mp hop
    exact hm.perform fun hst => by cases hst

/-- The pointer is none of this. -/
theorem Sound.point (h : Sound own s) (x : BitVec 32) : Sound own { s with memPtr := x } :=
  ⟨⟨h.ready.got, h.ready.jumped, h.ready.clean⟩, h.holds⟩

/-- A reply goes back to the head of the loop. -/
theorem Sound.reply (h : Sound own s) (bytes : List (BitVec 8)) (hlen : bytes.length ≤ 32) :
    AtHead own (s.reply own bytes) ∧ Leaves own s (s.reply own bytes) s.memPtr bytes := by
  obtain ⟨hsound, hleaves⟩ := h.received (m := (s.machine.uart0BlockingWrite own bytes).2)
    (n := 32) (uart0BlockingWrite_clean hlen h.ready.clean)
    (fun Q hQ hq => hQ.uart0BlockingWrite hlen le_rfl hq) le_rfl .command
  rw [reply_eq hlen]
  exact ⟨⟨⟨⟨h.ready.got, h.ready.jumped, hsound.ready.clean⟩, hsound.holds⟩, rfl⟩,
    hleaves.memory, rfl, rfl⟩

/-- Fewer bytes than a read waits for only reach the buffer. -/
theorem receive_partial (own : ℕ → List OwnAccess) (hj : s.jumped = none)
    (hlen : s.got + bytes.length < s.reading.length) :
    bytes.foldl (receive own) s =
      { s with
        machine := s.machine.dmaBytes own s.got bytes
        got := s.got + bytes.length } := by
  induction bytes generalizing s with
  | nil => rfl
  | cons b bytes ih =>
      rw [List.length_cons] at hlen
      have hstep : s.receive own b = { s with
          machine := s.machine.dma own (bufferLoc + BitVec.ofNat 32 s.got) b
          got := s.got + 1 } := by
        have hgot : s.got + 1 ≠ s.reading.length := by omega
        simp [receive, hj, hgot]
      have hnext := ih (s := { s with
        machine := s.machine.dma own (bufferLoc + BitVec.ofNat 32 s.got) b
        got := s.got + 1 }) hj (by dsimp only; omega)
      rw [List.foldl_cons, hstep, hnext, List.length_cons, dmaBytes, Nat.add_assoc,
        Nat.add_comm 1 bytes.length]

/-- A command that lacks bytes leaves everything as it is. -/
theorem AtHead.incomplete (h : AtHead own s) {command : BitVec 8} {reading : Reading}
    (hdispatch : ∀ s' : Boot, s'.dispatch own command = { s' with reading := reading })
    (hlen : bytes.length < reading.length) :
    Leaves own s ((command :: bytes).foldl (receive own) s) s.memPtr [] := by
  obtain ⟨m, hclean, hkeep, hrun⟩ := h.ready.command h.reading own command
  obtain ⟨hsound, hleaves⟩ := h.received hclean hkeep (by omega) reading
  have hmax : reading.length ≤ 17 := by
    cases reading <;> decide
  have hgot := h.ready.got
  have hpart := receive_partial own hsound.ready.jumped (show s.got + bytes.length < reading.length by omega)
  rw [List.foldl_cons, hrun, hdispatch, hpart]
  refine ⟨fun a ha => ?_, rfl, (List.append_nil _).symm⟩
  have hm : (m.dmaBytes own s.got bytes).memory.Holds a (m.memory.value a) :=
    dmaBytes_keeps (ha.foreign.holds _) (fun i _ hi b m hm =>
      hm.dma (ne_bufferByte ha.buffer (by omega)) b) (hsound.holds a ha)
  exact hm.value.trans (hleaves.memory a ha)

/-- An {lit}`'a'` with its five bytes. -/
theorem AtHead.address (h : AtHead own s) (b₀ b₁ b₂ b₃ c : BitVec 8) :
    AtHead own ([0x61#8, b₀, b₁, b₂, b₃, c].foldl (receive own) s) ∧
      if b₀ ^^^ b₁ ^^^ b₂ ^^^ b₃ = c then
        Leaves own s ([0x61#8, b₀, b₁, b₂, b₃, c].foldl (receive own) s) (b₃ ++ b₂ ++ b₁ ++ b₀)
          [replyOk]
      else
        Leaves own s ([0x61#8, b₀, b₁, b₂, b₃, c].foldl (receive own) s) s.memPtr
          [replyError] := by
  have hfive : [b₀, b₁, b₂, b₃, c].length = Reading.address.length := rfl
  obtain ⟨m, hclean, hkeep, hrun⟩ := h.ready.payload h.reading own dispatch_address hfive
  obtain ⟨hsound, hleaves⟩ := h.received hclean hkeep (by simp) .address
  rw [hrun, proceed]
  dsimp only
  rw [runAddress, conv5bToInt_eq]
  split_ifs with hsum
  · obtain ⟨hhead, hreply⟩ := (hsound.point (b₃ ++ b₂ ++ b₁ ++ b₀)).reply [replyOk] (by simp)
    exact ⟨hhead, fun a ha => (hreply.memory a ha).trans (hleaves.memory a ha), hreply.memPtr,
      hreply.replies⟩
  · obtain ⟨hhead, hreply⟩ := hsound.reply [replyError] (by simp)
    exact ⟨hhead, hleaves.trans hreply⟩

/-- A copy to the pointer and the flush behind it. -/
theorem Clear.memcpyTo {x : BitVec 32} {data : List (BitVec 8)} (h : Clear own x)
    (hlen : data.length = 16) (m : Machine) :
    (∀ k (hk : k < data.length), ((m.memcpyTo own x data).flushDcacheLine own x).memory.Holds
      (busAddr (x + BitVec.ofNat 32 k)) data[k]) ∧
    ∀ a v, Outside own a → (∀ k < data.length, a ≠ busAddr (x + BitVec.ofNat 32 k)) →
      m.memory.Holds a v → ((m.memcpyTo own x data).flushDcacheLine own x).memory.Holds a v := by
  have hflush : ∀ a v, Outside own a → (m.memcpyTo own x data).memory.Holds a v →
      ((m.memcpyTo own x data).flushDcacheLine own x).memory.Holds a v := by
    intro a v ha hm
    exact access_keeps (ha.foreign.holds v) (fun m hm => hm.perform fun _ => covers_flushOp _ _) hm
  constructor
  · intro k hk
    have hout := h k (by omega)
    exact hflush _ _ hout (memcpyTo_holds (by omega) hk hout.foreign)
  · intro a v ha hne hm
    refine hflush a v ha ?_
    rw [memcpyTo_eq]
    refine accesses_keeps (ha.foreign.holds v) ?_ hm
    intro op hop m hm
    obtain ⟨k, hk, rfl⟩ := mem_storeOps.mp hop
    exact hm.perform fun _ => covers_storeOp_of_ne (hne k hk) _

/-- A {lit}`'w'` whose checksum is right. -/
theorem Sound.write (h : Sound own s) (hclear : Clear own s.memPtr) {data : List (BitVec 8)}
    (hlen : data.length = 16) :
    AtHead own ({ s with
        machine := (s.machine.memcpyTo own s.memPtr data).flushDcacheLine own s.memPtr
        memPtr := s.memPtr + 16#32 }.reply own [replyOk]) ∧
      Writes own s ({ s with
        machine := (s.machine.memcpyTo own s.memPtr data).flushDcacheLine own s.memPtr
        memPtr := s.memPtr + 16#32 }.reply own [replyOk]) data := by
  obtain ⟨hbytes, hrest⟩ := hclear.memcpyTo hlen s.machine
  have hclean : BufferClean
      ((s.machine.memcpyTo own s.memPtr data).flushDcacheLine own s.memPtr).memory :=
    bufferClean_flushDcacheLine (bufferClean_memcpyTo
      (fun i hi => (hclear i (by omega)).buffer) h.ready.clean)
  have hsound : Sound own { s with
      machine := (s.machine.memcpyTo own s.memPtr data).flushDcacheLine own s.memPtr
      memPtr := s.memPtr + 16#32 } := by
    refine ⟨⟨h.ready.got, h.ready.jumped, hclean⟩, ?_⟩
    intro a ha
    by_cases hin : ∃ k, ∃ hk : k < data.length, a = busAddr (s.memPtr + BitVec.ofNat 32 k)
    · obtain ⟨k, hk, rfl⟩ := hin
      have hm := hbytes k hk
      rwa [← hm.value] at hm
    · have hm := hrest a _ ha (fun k hk heq => hin ⟨k, hk, heq⟩) (h.holds a ha)
      rwa [← hm.value] at hm
  obtain ⟨hhead, hreply⟩ := hsound.reply [replyOk] (by simp)
  refine ⟨hhead, ?_, ?_, hreply.memPtr, hreply.replies⟩
  · intro k hk
    exact (hreply.memory _ (hclear k (by omega))).trans (hbytes k hk).value
  · intro a ha hne
    exact (hreply.memory a ha).trans (hrest a _ ha hne (h.holds a ha)).value

/-- A {lit}`'w'` with its seventeen bytes. -/
theorem AtHead.data (h : AtHead own s) (hclear : Clear own s.memPtr) {data : List (BitVec 8)}
    (hlen : data.length = 16) (c : BitVec 8) :
    AtHead own ((0x77#8 :: data ++ [c]).foldl (receive own) s) ∧
      if data.foldl (· ^^^ ·) 0#8 = c then
        Writes own s ((0x77#8 :: data ++ [c]).foldl (receive own) s) data
      else Leaves own s ((0x77#8 :: data ++ [c]).foldl (receive own) s) s.memPtr [replyError] := by
  have hlen' : (data ++ [c]).length = 17 := by simp [hlen]
  obtain ⟨m, hclean, hkeep, hrun⟩ := h.ready.payload h.reading own dispatch_data hlen'
  obtain ⟨hsound, hleaves⟩ := h.received hclean hkeep (by omega) .data
  have htake : (data ++ [c]).take 16 = data := by
    rw [← hlen, List.take_left]
  have hsum : compute16bCksum (data ++ [c]) = (data.foldl (· ^^^ ·) 0#8).setWidth 32 := by
    rw [compute16bCksum_eq, Sumeru.compute16bCksum, htake]
    rfl
  have hlast : (data ++ [c]).getD 16 0#8 = c := by
    simp [← hlen]
  have hiff : (data.foldl (· ^^^ ·) 0#8).setWidth 32 = c.setWidth 32 ↔
      data.foldl (· ^^^ ·) 0#8 = c := by
    refine ⟨fun heq => ?_, fun heq => by rw [heq]⟩
    have hlow := congrArg (BitVec.setWidth 8) heq
    rwa [BitVec.setWidth_setWidth_of_le _ (by decide), BitVec.setWidth_setWidth_of_le _ (by decide),
      BitVec.setWidth_eq, BitVec.setWidth_eq] at hlow
  rw [List.cons_append, hrun, proceed]
  dsimp only
  rw [runWrite, hsum, hlast, htake]
  simp only [hiff]
  split_ifs with hok
  · obtain ⟨hhead, hwrites⟩ := hsound.write hclear hlen
    refine ⟨hhead, hwrites.bytes, ?_, hwrites.memPtr, hwrites.replies⟩
    intro a ha hne
    exact (hwrites.rest a ha hne).trans (hleaves.memory a ha)
  · obtain ⟨hhead, hreply⟩ := hsound.reply [replyError] (by simp)
    exact ⟨hhead, hleaves.trans hreply⟩

/-- The loader reads back 16 bytes at a time. -/
theorem chunk_length (s : Boot) : s.chunk.length = 16 := rfl

/-- The bytes read back are those the processor sees at the pointer. -/
theorem chunk_getElem (s : Boot) {k : ℕ} (hk : k < s.chunk.length) :
    s.chunk[k] = s.machine.memory.value (busAddr (s.memPtr + BitVec.ofNat 32 k)) := by
  simp [chunk]

/-- A copy from the pointer gets the bytes there. -/
theorem Sound.copied (h : Sound own s) (hclear : Clear own s.memPtr) :
    (s.machine.memcpyFrom own s.memPtr 16).1 = s.chunk := by
  have hlt : ∀ k < s.chunk.length, k < 16 := fun k hk => hk
  refine memcpyFrom_bytes (fun k hk => (hclear k (hlt k hk)).foreign) ?_
  intro k hk
  rw [chunk_getElem s hk]
  exact h.holds _ (hclear k (hlt k hk))

/-- The effect of {lit}`r`: 16 bytes and their checksum are sent. -/
theorem Sound.read (h : Sound own s) (hclear : Clear own s.memPtr) :
    AtHead own (s.runRead own) ∧
      Leaves own s (s.runRead own) (s.memPtr + 16#32)
        (s.chunk ++ [s.chunk.foldl (· ^^^ ·) 0#8]) := by
  obtain ⟨hloaded, hkept⟩ := h.memcpyFrom s.memPtr 16
  have hcopied := h.copied hclear
  have hsum : (compute16bCksum s.chunk).setWidth 8 = s.chunk.foldl (· ^^^ ·) 0#8 := by
    rw [compute16bCksum_eq, Sumeru.compute16bCksum, List.take_of_length_le s.chunk_length.le,
      BitVec.setWidth_setWidth_of_le _ (by decide), BitVec.setWidth_eq]
    rfl
  rw [runRead]
  -- the copy is not to be unfolded
  generalize s.machine.memcpyFrom own s.memPtr 16 = copied at *
  obtain ⟨hhead, hreply⟩ := (hloaded.point (s.memPtr + 16#32)).reply
    (s.chunk ++ [s.chunk.foldl (· ^^^ ·) 0#8])
    (by rw [List.length_append, chunk_length, List.length_singleton]; omega)
  rw [hcopied, hsum]
  exact ⟨hhead, fun a ha => (hreply.memory a ha).trans (hkept.memory a ha), hreply.memPtr,
    hreply.replies⟩

/-- An {lit}`'r'`. -/
theorem AtHead.read (h : AtHead own s) (hclear : Clear own s.memPtr) :
    AtHead own (s.receive own 0x72#8) ∧
      Leaves own s (s.receive own 0x72#8) (s.memPtr + 16#32)
        (s.chunk ++ [s.chunk.foldl (· ^^^ ·) 0#8]) := by
  obtain ⟨m, hclean, hkeep, hrun⟩ := h.ready.command h.reading own 0x72#8
  obtain ⟨hsound, hleaves⟩ := h.received hclean hkeep (by omega) s.reading
  have hchunk : chunk { s with machine := m } = s.chunk := by
    refine List.map_congr_left fun k hk => ?_
    exact hleaves.memory _ (hclear k (List.mem_range.mp hk))
  have hdispatch : ∀ s' : Boot, s'.dispatch own 0x72#8 = s'.runRead own := fun _ => rfl
  obtain ⟨hhead, hread⟩ := hsound.read hclear
  rw [hrun, hdispatch, ← hchunk]
  exact ⟨hhead, hleaves.trans hread⟩

/-- The other commands of one byte. -/
theorem AtHead.single (h : AtHead own s) {command : BitVec 8} {b : BitVec 8}
    (hdispatch : ∀ s' : Boot, s'.dispatch own command = s'.reply own [b]) :
    AtHead own (s.receive own command) ∧ Leaves own s (s.receive own command) s.memPtr [b] := by
  obtain ⟨m, hclean, hkeep, hrun⟩ := h.ready.command h.reading own command
  obtain ⟨hsound, hleaves⟩ := h.received hclean hkeep (by omega) s.reading
  obtain ⟨hhead, hreply⟩ := hsound.reply [b] (by simp)
  rw [hrun, hdispatch]
  exact ⟨hhead, hleaves.trans hreply⟩

/-- Only a {lit}`w` begins the frame of a write. -/
theorem writeFrame_ne {command : BitVec 8} (h : command ≠ 0x77#8) (payload data : List (BitVec 8)) :
    command :: payload ≠ writeFrame data :=
  fun heq => h (List.cons.inj heq).1

/-- Only an {lit}`a` begins the frame of a pointer. -/
theorem pointerFrame_ne {command : BitVec 8} (h : command ≠ 0x61#8) (payload : List (BitVec 8))
    (b₀ b₁ b₂ b₃ : BitVec 8) : command :: payload ≠ pointerFrame b₀ b₁ b₂ b₃ :=
  fun heq => h (List.cons.inj heq).1

/-- Only an {lit}`r` is the frame of a read. -/
theorem readFrame_ne {command : BitVec 8} (h : command ≠ 0x72#8) (payload : List (BitVec 8)) :
    command :: payload ≠ [0x72#8] :=
  fun heq => h (List.cons.inj heq).1

/-- A command without its whole payload is not answered. -/
theorem answer_incomplete {command : BitVec 8} {payload : List (BitVec 8)}
    (h : payload.length < payloadLength command) : answer (command :: payload) = [] := by
  rw [answer, if_pos h]

/-- A whole command that is not well formed is answered with an error. -/
theorem answer_error {command : BitVec 8} {payload : List (BitVec 8)}
    (h : payload.length = payloadLength command) (hv : command ≠ 0x76#8) :
    answer (command :: payload) = [replyError] := by
  rw [answer, if_neg (by omega), if_neg hv]

/-- The effect of {lit}`a` with any part of its payload. -/
theorem AtHead.effect_address (h : AtHead own s) {payload : List (BitVec 8)}
    (hlen : payload.length ≤ 5) :
    CommandEffect own (0x61#8 :: payload) s ((0x61#8 :: payload).foldl (receive own) s) ∧
      (payload.length = 5 → AtHead own ((0x61#8 :: payload).foldl (receive own) s)) := by
  by_cases hshort : payload.length < 5
  · refine ⟨.other (fun data _ => writeFrame_ne (by decide) payload data) ?_
      (readFrame_ne (by decide) payload) ?_, fun hfull => absurd hfull (by omega)⟩
    · intro b₀ b₁ b₂ b₃ heq
      have := congrArg List.length heq
      rw [List.length_cons] at this
      change _ = 6 at this
      omega
    · rw [answer_incomplete hshort]
      exact h.incomplete dispatch_address hshort
  · obtain ⟨b₀, b₁, b₂, b₃, c, rfl⟩ : ∃ b₀ b₁ b₂ b₃ c, payload = [b₀, b₁, b₂, b₃, c] := by
      match payload, (show payload.length = 5 by omega) with
      | [b₀, b₁, b₂, b₃, c], _ => exact ⟨b₀, b₁, b₂, b₃, c, rfl⟩
    obtain ⟨hhead, hleaves⟩ := h.address b₀ b₁ b₂ b₃ c
    refine ⟨?_, fun _ => hhead⟩
    split_ifs at hleaves with hsum
    · subst hsum
      exact .address b₀ b₁ b₂ b₃ rfl hleaves
    · refine .other (fun data _ => writeFrame_ne (by decide) _ data) ?_ (readFrame_ne (by decide) _) ?_
      · intro a₀ a₁ a₂ a₃ heq
        simp only [pointerFrame, List.cons.injEq, true_and, and_true] at heq
        obtain ⟨rfl, rfl, rfl, rfl, hc⟩ := heq
        exact hsum hc.symm
      · rw [answer_error rfl (by decide)]
        exact hleaves

/-- The effect of {lit}`w` with any part of its payload. -/
theorem AtHead.effect_data (h : AtHead own s) (hclear : Clear own s.memPtr)
    {payload : List (BitVec 8)} (hlen : payload.length ≤ 17) :
    CommandEffect own (0x77#8 :: payload) s ((0x77#8 :: payload).foldl (receive own) s) ∧
      (payload.length = 17 → AtHead own ((0x77#8 :: payload).foldl (receive own) s)) := by
  by_cases hshort : payload.length < 17
  · refine ⟨.other ?_ (pointerFrame_ne (by decide) payload) (readFrame_ne (by decide) payload) ?_,
      fun hfull => absurd hfull (by omega)⟩
    · intro data hdata heq
      have := congrArg List.length heq
      rw [writeFrame, List.length_cons, List.length_append, List.length_cons, hdata] at this
      change _ = 16 + 1 + 1 at this
      omega
    · rw [answer_incomplete hshort]
      exact h.incomplete dispatch_data hshort
  · obtain ⟨data, c, rfl⟩ := (List.eq_nil_or_concat' payload).resolve_left
      (List.ne_nil_of_length_pos (by omega))
    rw [List.length_append, List.length_singleton] at hlen hshort
    have hdata : data.length = 16 := by omega
    obtain ⟨hhead, hcase⟩ := h.data hclear hdata c
    refine ⟨?_, fun _ => hhead⟩
    split_ifs at hcase with hsum
    · subst hsum
      exact .write data hdata rfl hcase
    · refine .other ?_ (pointerFrame_ne (by decide) _) (readFrame_ne (by decide) _) ?_
      · intro data' _ heq
        obtain ⟨rfl, hc⟩ := List.append_inj' (List.cons.inj heq).2 rfl
        exact hsum (List.cons.inj hc).1.symm
      · rw [answer_error (by simp [hdata, payloadLength]) (by decide)]
        exact hcase

/-- What a command does, and that the loop comes back to its head after it. -/
theorem AtHead.effect (h : AtHead own s) {command : BitVec 8}
    (hclear : command = 0x72#8 ∨ command = 0x77#8 → Clear own s.memPtr) (hj : command ≠ 0x6A#8)
    {payload : List (BitVec 8)} (hlen : payload.length ≤ payloadLength command) :
    CommandEffect own (command :: payload) s ((command :: payload).foldl (receive own) s) ∧
      (payload.length = payloadLength command →
        AtHead own ((command :: payload).foldl (receive own) s)) := by
  by_cases ha : command = 0x61#8
  · subst ha
    exact h.effect_address hlen
  by_cases hw : command = 0x77#8
  · subst hw
    exact h.effect_data (hclear (.inr rfl)) hlen
  have hnone : payloadLength command = 0 := by
    rw [payloadLength, if_neg ha, if_neg hw]
  have hnil : payload = [] := List.length_eq_zero_iff.mp (by omega)
  subst hnil
  by_cases hr : command = 0x72#8
  · subst hr
    obtain ⟨hhead, hleaves⟩ := h.read (hclear (.inl rfl))
    exact ⟨.read rfl hleaves, fun _ => hhead⟩
  have hother : ∀ {b : BitVec 8}, (∀ s' : Boot, s'.dispatch own command = s'.reply own [b]) →
      answer [command] = [b] → CommandEffect own [command] s ([command].foldl (receive own) s) ∧
        (0 = payloadLength command → AtHead own ([command].foldl (receive own) s)) := by
    intro b hdispatch hanswer
    obtain ⟨hhead, hleaves⟩ := h.single hdispatch
    refine ⟨.other (fun data _ => writeFrame_ne hw [] data) (pointerFrame_ne ha [])
      (readFrame_ne hr []) ?_, fun _ => hhead⟩
    rw [hanswer]
    exact hleaves
  by_cases hv : command = 0x76#8
  · subst hv
    exact hother (fun _ => rfl) rfl
  · refine hother (fun s' => ?_) (answer_error hnone.symm hv)
    rw [dispatch, if_neg ha, if_neg hw, if_neg hr, if_neg hv, if_neg hj]

/-! ## Runs -/

/-- The first command of a stream. -/
theorem commands_eq_cons {stream frame : List (BitVec 8)} {frames : List (List (BitVec 8))}
    (h : commands stream = frame :: frames) :
    ∃ command rest, stream = command :: rest ∧ command ≠ 0x6A#8 ∧
      frame = command :: rest.take (payloadLength command) ∧
      frames = commands (rest.drop (payloadLength command)) := by
  cases stream with
  | nil =>
      rw [commands_nil] at h
      cases h
  | cons command rest =>
      by_cases hj : command = 0x6A#8
      · rw [hj, commands_jump] at h
        cases h
      · rw [commands_cons hj] at h
        obtain ⟨hframe, hframes⟩ := List.cons.inj h
        exact ⟨command, rest, rfl, hj, hframe.symm, hframes.symm⟩

/-- The commands make up the stream, or what comes before the jump in it. -/
theorem flatten_commands (stream : List (BitVec 8)) :
    stream = (commands stream).flatten ∨
      ∃ rest, stream = (commands stream).flatten ++ 0x6A#8 :: rest := by
  induction hlen : stream.length using Nat.strong_induction_on generalizing stream with
  | _ n ih =>
      cases stream with
      | nil =>
          rw [commands_nil]
          exact .inl rfl
      | cons command rest =>
          by_cases hj : command = 0x6A#8
          · rw [hj, commands_jump]
            exact .inr ⟨rest, rfl⟩
          · have hshort : (rest.drop (payloadLength command)).length < n := by
              rw [List.length_cons] at hlen
              rw [List.length_drop]
              omega
            have hrest := ih _ hshort (rest.drop (payloadLength command)) rfl
            rw [commands_cons hj, List.flatten_cons]
            rcases hrest with htail | ⟨tail, htail⟩
            · left
              rw [← htail, List.cons_append, List.take_append_drop]
            · right
              refine ⟨tail, ?_⟩
              rw [List.append_assoc, ← htail, List.cons_append, List.take_append_drop]

/-- The loop is at its head before every command of a stream. -/
theorem AtHead.commands (h : AtHead own s) {stream frame : List (BitVec 8)}
    {before after : List (List (BitVec 8))} (hcommands : commands stream = before ++ frame :: after)
    (hclear : ∀ p, p <+: before → Clear own (p.flatten.foldl (receive own) s).memPtr) :
    AtHead own (before.flatten.foldl (receive own) s) ∧
      ∃ command payload, frame = command :: payload ∧ command ≠ 0x6A#8 ∧
        payload.length ≤ payloadLength command := by
  induction before generalizing s stream with
  | nil =>
      obtain ⟨command, rest, -, hj, hframe, -⟩ := commands_eq_cons hcommands
      exact ⟨h, command, _, hframe, hj, List.length_take_le ..⟩
  | cons f before ih =>
      obtain ⟨command, rest, -, hj, hf, hrest⟩ := commands_eq_cons hcommands
      -- there is a command behind this one, so it has all its bytes
      have hmore : payloadLength command < rest.length := by
        by_contra hend
        rw [List.drop_eq_nil_of_le (not_lt.mp hend), commands_nil] at hrest
        simp at hrest
      have hfull := List.length_take_of_le hmore.le
      obtain ⟨-, hhead⟩ := h.effect (fun _ => hclear [] List.nil_prefix) hj
        (List.length_take_le (payloadLength command) rest)
      subst hf
      rw [List.flatten_cons, List.foldl_append]
      refine ih (hhead hfull) hrest.symm fun p hp => ?_
      have hp' := hclear (_ :: p) (List.cons_prefix_cons.mpr ⟨rfl, hp⟩)
      rwa [List.flatten_cons, List.foldl_append] at hp'

end Boot

/-! ## Frames of the client -/

namespace UartClient

/-- The checksum of {lit}`set_address`: an {lit}`int`, of signed bytes. -/
def addressCksum (address : BitVec 32) : BitVec 32 :=
  (address.extractLsb' 0 8).signExtend 32 ^^^ (address.extractLsb' 8 8).signExtend 32 ^^^
    (address.extractLsb' 16 8).signExtend 32 ^^^ (address.extractLsb' 24 8).signExtend 32

/-- The bytes that {lit}`set_address` sends. -/
def sentAddress (address : BitVec 32) : List (BitVec 8) :=
  0x61#8 :: addressBytes address ++ [(addressCksum address).setWidth 8]

/-- The checksum of {lit}`write_data`: an {lit}`unsigned int`, of unsigned bytes. -/
def dataCksum (data : List (BitVec 8)) : BitVec 32 :=
  (data.take 16).foldl (fun c b => c ^^^ b.setWidth 32) 0#32

/-- The bytes that {lit}`write_data` sends. -/
def sentData (data : List (BitVec 8)) : List (BitVec 8) :=
  0x77#8 :: data.take 16 ++ [(dataCksum data).setWidth 8]

/-- The bytes arrive but for one behind the first. -/
def OneByteOff (sent arrived : List (BitVec 8)) : Prop :=
  ∃ i b, ∃ h : i < sent.length, 0 < i ∧ sent[i] ≠ b ∧ arrived = sent.set i b

/-- What a client sends for an address is the pointer frame of its four bytes. -/
theorem sentAddress_eq (address : BitVec 32) :
    sentAddress address = Boot.pointerFrame (address.extractLsb' 0 8) (address.extractLsb' 8 8)
      (address.extractLsb' 16 8) (address.extractLsb' 24 8) := by
  have hlow : ∀ b : BitVec 8, (b.signExtend 32).setWidth 8 = b := by
    intro b
    apply BitVec.eq_of_getLsbD_eq
    intro i hi
    rw [BitVec.getLsbD_setWidth, BitVec.getLsbD_signExtend, if_pos hi]
    simp [hi, show i < 32 by omega]
  rw [sentAddress, addressCksum, BitVec.setWidth_xor, BitVec.setWidth_xor, BitVec.setWidth_xor,
    hlow, hlow, hlow, hlow]
  rfl

/-- What a client sends for 16 bytes is their write frame. -/
theorem sentData_eq {data : List (BitVec 8)} (h : data.length = 16) :
    sentData data = Boot.writeFrame data := by
  have hsum : dataCksum data = Boot.compute16bCksum data := rfl
  rw [sentData, hsum, Boot.compute16bCksum_eq, compute16bCksum, List.take_of_length_le h.le,
    BitVec.setWidth_setWidth_of_le _ (by decide), BitVec.setWidth_eq]
  rfl

end UartClient

namespace Boot

open UartClient

variable {own : ℕ → List OwnAccess} {s s' : Boot} {frame : List (BitVec 8)}

/-- A changed byte changes the exclusive or. -/
theorem foldl_xor_set (bytes : List (BitVec 8)) {i : ℕ} (hi : i < bytes.length) (b c : BitVec 8) :
    (bytes.set i b).foldl (· ^^^ ·) c = bytes.foldl (· ^^^ ·) c ^^^ (bytes[i] ^^^ b) := by
  induction bytes generalizing i c with
  | nil => simp at hi
  | cons a bytes ih =>
      cases i with
      | zero =>
          have hmove : ∀ d, bytes.foldl (· ^^^ ·) (c ^^^ d) = d ^^^ bytes.foldl (· ^^^ ·) c := by
            intro d
            rw [BitVec.xor_comm, List.foldl_assoc]
          rw [List.set_cons_zero, List.foldl_cons, List.foldl_cons, List.getElem_cons_zero, hmove,
            hmove, BitVec.xor_comm a, BitVec.xor_assoc, ← BitVec.xor_assoc a a b, BitVec.xor_self,
            BitVec.zero_xor, BitVec.xor_comm]
      | succ i =>
          rw [List.set_cons_succ, List.foldl_cons, List.foldl_cons, List.getElem_cons_succ]
          exact ih (by simpa using hi) _

/-- A frame with one byte changed is refused. -/
theorem CommandEffect.refused {command : BitVec 8} {payload : List (BitVec 8)}
    (hcommand : command = 0x61#8 ∨ command = 0x77#8)
    (hlen : payload.length = payloadLength command) (hsum : payload.foldl (· ^^^ ·) 0#8 = 0#8)
    (hoff : OneByteOff (command :: payload) frame) (h : CommandEffect own frame s s') :
    Leaves own s s' s.memPtr [replyError] := by
  obtain ⟨i, b, hi, hpos, hne, rfl⟩ := hoff
  obtain ⟨k, rfl⟩ := Nat.exists_eq_succ_of_ne_zero (Nat.pos_iff_ne_zero.mp hpos)
  rw [List.getElem_cons_succ] at hne
  rw [List.length_cons, Nat.succ_lt_succ_iff] at hi
  have hodd : (payload.set k b).foldl (· ^^^ ·) 0#8 ≠ 0#8 := by
    rw [foldl_xor_set payload hi, hsum, BitVec.zero_xor, Ne, BitVec.xor_eq_zero_iff]
    exact hne
  rw [List.set_cons_succ] at h
  cases h with
  | write data hdata hframe h =>
      have htail : payload.set k b = data ++ [data.foldl (· ^^^ ·) 0#8] := (List.cons.inj hframe).2
      refine absurd ?_ hodd
      rw [htail, List.foldl_append]
      exact BitVec.xor_self
  | address b₀ b₁ b₂ b₃ hframe h =>
      have htail := (List.cons.inj hframe).2
      refine absurd ?_ hodd
      rw [htail]
      simp
  | read hframe h =>
      have hhead := (List.cons.inj hframe).1
      rcases hcommand with rfl | rfl <;> exact absurd hhead (by decide)
  | other hwrite haddress hread h =>
      rw [answer_error (by rw [List.length_set, hlen])] at h
      · exact h
      · rcases hcommand with rfl | rfl <;> decide

/-- A frame of a client with one wrong byte is refused. -/
theorem CommandEffect.refused_of_client (h : CommandEffect own frame s s')
    (hoff : (∃ address, OneByteOff (sentAddress address) frame) ∨
      ∃ data : List (BitVec 8), data.length = 16 ∧ OneByteOff (sentData data) frame) :
    Leaves own s s' s.memPtr [replyError] := by
  rcases hoff with ⟨address, hoff⟩ | ⟨data, hdata, hoff⟩
  · rw [sentAddress_eq] at hoff
    refine CommandEffect.refused (.inl rfl) rfl ?_ hoff h
    simp
  · rw [sentData_eq hdata] at hoff
    refine CommandEffect.refused (.inr rfl) ?_ ?_ hoff h
    · simp [hdata, payloadLength]
    · rw [List.append_eq, List.foldl_append]
      exact BitVec.xor_self

/-- An address is decoded as it was sent. -/
theorem CommandEffect.points {address : BitVec 32}
    (h : CommandEffect own (sentAddress address) s s') : Leaves own s s' address [replyOk] := by
  rw [sentAddress_eq] at h
  cases h with
  | write data hdata hframe h => exact absurd hframe (writeFrame_ne (by decide) _ data)
  | address b₀ b₁ b₂ b₃ hframe h =>
      simp only [pointerFrame, List.cons.injEq, true_and] at hframe
      obtain ⟨rfl, rfl, rfl, rfl, -⟩ := hframe
      rwa [addressBytes_append] at h
  | read hframe h => exact absurd hframe (readFrame_ne (by decide) _)
  | other hwrite haddress hread h => exact absurd rfl (haddress _ _ _ _)

/-- Data is written as it was sent. -/
theorem CommandEffect.writes {data : List (BitVec 8)} (hdata : data.length = 16)
    (h : CommandEffect own (sentData data) s s') : Writes own s s' data := by
  rw [sentData_eq hdata] at h
  cases h with
  | write data' hdata' hframe h =>
      have htail : data ++ _ = data' ++ _ := (List.cons.inj hframe).2
      obtain ⟨rfl, -⟩ := List.append_inj htail (hdata.trans hdata'.symm)
      exact h
  | address b₀ b₁ b₂ b₃ hframe h => exact absurd hframe (pointerFrame_ne (by decide) _ b₀ b₁ b₂ b₃)
  | read hframe h => exact absurd hframe (readFrame_ne (by decide) _)
  | other hwrite haddress hread h => exact absurd rfl (hwrite data hdata)

/-- What the frames of the client do, whole or with one byte changed. -/
structure ClientEffect (own : ℕ → List OwnAccess) (frame : List (BitVec 8)) (s s' : Boot) : Prop where
  refused : (∃ address, OneByteOff (sentAddress address) frame) ∨
      (∃ data : List (BitVec 8), data.length = 16 ∧ OneByteOff (sentData data) frame) →
    Leaves own s s' s.memPtr [replyError]
  address : ∀ address, frame = sentAddress address → Leaves own s s' address [replyOk]
  data : ∀ data : List (BitVec 8), data.length = 16 → frame = sentData data → Writes own s s' data

/-- The effect of a command in terms of what a client has sent. -/
theorem CommandEffect.client (h : CommandEffect own frame s s') : ClientEffect own frame s s' where
  refused := h.refused_of_client
  address address hframe := by
    rw [hframe] at h
    exact h.points
  data data hdata hframe := by
    rw [hframe] at h
    exact h.writes hdata

end Boot

/-- Every command of a stream has the effect that its bytes stand for, as long as the pointer
stays outside the own data of the boot ROM.  A frame of the client with one byte changed is
refused, and whole frames do what the client means. -/
theorem boot_commands_safe (own : ℕ → List OwnAccess) (mem : ByteMem) (stream : List (BitVec 8)) :
    (stream = (Boot.commands stream).flatten ∨
      ∃ rest, stream = (Boot.commands stream).flatten ++ 0x6A#8 :: rest) ∧
    ∀ (before after : List (List (BitVec 8))) (frame : List (BitVec 8)),
      Boot.commands stream = before ++ frame :: after →
      (∀ p, p <+: before → Boot.Clear own (Boot.run own mem p.flatten).memPtr) →
      Boot.CommandEffect own frame (Boot.run own mem before.flatten)
          (Boot.run own mem (before.flatten ++ frame)) ∧
        Boot.ClientEffect own frame (Boot.run own mem before.flatten)
          (Boot.run own mem (before.flatten ++ frame)) := by
  refine ⟨Boot.flatten_commands stream, ?_⟩
  intro before after frame hcommands hclear
  obtain ⟨hhead, command, payload, rfl, hj, hlen⟩ :=
    (Boot.atHead_init own mem).commands hcommands hclear
  obtain ⟨heffect, -⟩ := hhead.effect (fun _ => hclear before (List.prefix_refl before)) hj hlen
  rw [← List.foldl_append] at heffect
  exact ⟨heffect, heffect.client⟩

/-- One chunk after power-up. -/
theorem boot_commands_safe_chunk :
    Boot.Writes Machine.noOwn (Boot.init fun _ => 0#8)
      (Boot.run Machine.noOwn (fun _ => 0#8) (UartClient.sentData (List.replicate 16 0x13#8)))
      (List.replicate 16 0x13#8) := by
  have hcommands : Boot.commands (UartClient.sentData (List.replicate 16 0x13#8)) =
      [] ++ UartClient.sentData (List.replicate 16 0x13#8) :: [] := by
    rw [UartClient.sentData, List.cons_append, Boot.commands_cons (by decide)]
    exact congrArg _ Boot.commands_nil
  have hclear : ∀ p : List (List (BitVec 8)), p <+: [] →
      Boot.Clear Machine.noOwn (Boot.run Machine.noOwn (fun _ => 0#8) p.flatten).memPtr := by
    intro p hp k hk
    rw [List.prefix_nil.mp hp]
    refine Machine.outside_of_image ?_
    change 0x10000 ≤ (busAddr (0x10000#32 + BitVec.ofNat 32 k)).toNat
    rw [busAddr_add_toNat (by change 0x10000 + k < 2 ^ 25; omega)]
    exact Nat.le_add_right _ _
  exact ((boot_commands_safe Machine.noOwn (fun _ => 0#8) _).2 [] [] _ hcommands hclear).2.data _ rfl
    rfl

end Sumeru
