import Mathlib.Tactic.IntervalCases
import Sumeru.Bootloader.BootRom

/-!
# Sumeru - Loading an image

A session of the UART client with the boot ROM: the frames of the client one by one, the
chunks they write and what memory holds at the jump.  A chunk is flushed by one line
only.  If the load address is not a multiple of a line, the end of the image stays
in a dirty line of the data cache until something else needs its place.

Main results:

- Theorem {lit}`Boot.addressFrame_runs`: a frame of {lit}`set_address` sets the pointer.
- Theorem {lit}`Boot.dataFrame_runs`: a frame of {lit}`write_data` copies its bytes and flushes one
  line.
- Theorem {lit}`boot_load_iff`: memory has the image at the jump if no part of it is left in the
  data cache.
-/

namespace Sumeru

/-! ## Frames -/

namespace Boot

variable {own : ℕ → List OwnAccess} {s : Boot}

open Machine

/-- The checksum of the loader is that of the client. -/
theorem compute16bCksum_eq (buf : List (BitVec 8)) :
    compute16bCksum buf = (Sumeru.compute16bCksum buf).setWidth 32 := by
  have hfold : ∀ (bytes : List (BitVec 8)) (c : BitVec 8),
      bytes.foldl (fun c b => c ^^^ b.setWidth 32) (c.setWidth 32) =
        (bytes.foldl (· ^^^ ·) c).setWidth 32 := by
    intro bytes c
    exact List.foldl_hom _ fun c b => BitVec.setWidth_xor.symm
  exact hfold (buf.take 16) 0#8

/-- Bit by bit: a word of four bytes. -/
theorem getLsbD_bytes (b₀ b₁ b₂ b₃ : BitVec 8) (i : ℕ) :
    (b₃ ++ b₂ ++ b₁ ++ b₀).getLsbD i =
      if i < 8 then b₀.getLsbD i else if i < 16 then b₁.getLsbD (i - 8)
      else if i < 24 then b₂.getLsbD (i - 16) else b₃.getLsbD (i - 24) := by
  simp only [BitVec.getLsbD_append, Nat.sub_sub]
  split_ifs <;> first | rfl | omega

/-- Four bytes of an address, least significant first, and their checksum. -/
theorem conv5bToInt_eq (b₀ b₁ b₂ b₃ c : BitVec 8) :
    conv5bToInt [b₀, b₁, b₂, b₃, c] =
      if b₀ ^^^ b₁ ^^^ b₂ ^^^ b₃ = c then some (b₃ ++ b₂ ++ b₁ ++ b₀) else none := by
  have hnum : 0#32 ||| b₀.setWidth 32 <<< 0 ||| b₁.setWidth 32 <<< 8 ||| b₂.setWidth 32 <<< 16 |||
      b₃.setWidth 32 <<< 24 = (b₃ ++ b₂ ++ b₁ ++ b₀ : BitVec 32) := by
    apply BitVec.eq_of_getLsbD_eq
    intro i hi
    refine Eq.trans ?_ (getLsbD_bytes b₀ b₁ b₂ b₃ i).symm
    interval_cases i <;> simp
  have hsum : (0#32 ^^^ b₀.setWidth 32 ^^^ b₁.setWidth 32 ^^^ b₂.setWidth 32 ^^^
      b₃.setWidth 32).setWidth 8 = b₀ ^^^ b₁ ^^^ b₂ ^^^ b₃ := by
    simp
  change (if (0#32 ^^^ b₀.setWidth 32 ^^^ b₁.setWidth 32 ^^^ b₂.setWidth 32 ^^^
      b₃.setWidth 32).setWidth 8 = c then some (0#32 ||| b₀.setWidth 32 <<< 0 |||
        b₁.setWidth 32 <<< 8 ||| b₂.setWidth 32 <<< 16 ||| b₃.setWidth 32 <<< 24) else none) = _
  rw [hnum, hsum]

/-- The bytes of an address make it up again. -/
theorem addressBytes_append (address : BitVec 32) :
    address.extractLsb' 24 8 ++ address.extractLsb' 16 8 ++ address.extractLsb' 8 8 ++
      address.extractLsb' 0 8 = address := by
  apply BitVec.eq_of_getLsbD_eq
  intro i hi
  refine (getLsbD_bytes ..).trans ?_
  interval_cases i <;> simp

/-- The address of a frame is decoded as it was sent. -/
theorem conv5bToInt_addressBytes (address : BitVec 32) :
    conv5bToInt (addressBytes address ++ [(addressBytes address).foldl (· ^^^ ·) 0]) =
      some address := by
  refine (conv5bToInt_eq ..).trans ?_
  rw [if_pos (by simp [addressBytes]), addressBytes_append]

/-- A read ends with its last byte. -/
theorem receive_read (own : ℕ → List OwnAccess) (hj : s.jumped = none) {bytes : List (BitVec 8)} (hne : bytes ≠ [])
    (hlen : s.got + bytes.length = s.reading.length) :
    bytes.foldl (receive own) s =
      { s with machine := s.machine.dmaBytes own s.got bytes, got := s.reading.length }.complete
        own := by
  induction bytes generalizing s with
  | nil => exact absurd rfl hne
  | cons b bytes ih =>
      rw [List.length_cons] at hlen
      cases bytes with
      | nil =>
          have hgot : s.got + 1 = s.reading.length := by simpa using hlen
          simp [receive, hj, hgot, dmaBytes]
      | cons c bytes =>
          rw [List.length_cons] at hlen
          have hgot : s.got + 1 ≠ s.reading.length := by omega
          have hstep : s.receive own b = { s with
              machine := s.machine.dma own (bufferLoc + BitVec.ofNat 32 s.got) b
              got := s.got + 1 } := by
            simp [receive, hj, hgot]
          rw [List.foldl_cons, hstep]
          exact ih hj (by simp) (by rw [List.length_cons]; change s.got + 1 + _ = s.reading.length; omega)

/-- The program is at the head of a read. -/
structure Ready (s : Boot) : Prop where
  got : s.got = 0
  jumped : s.jumped = none
  clean : BufferClean s.machine.memory

/-- The buffer holds the bytes that arrived. -/
theorem Ready.finishRead (h : s.Ready) (own : ℕ → List OwnAccess) {bytes : List (BitVec 8)}
    (hlen : bytes.length ≤ 32) :
    ((s.machine.dmaBytes own 0 bytes).finishRead own bytes.length).1 = bytes := by
  refine finishRead_bytes own hlen ?_
  intro k hk
  have hk' := dmaBytes_delivered own (k := 0) (by omega) h.clean hk
  rwa [Nat.zero_add] at hk'

/-- The program gets the bytes of a read. -/
theorem Ready.read (h : s.Ready) (own : ℕ → List OwnAccess) {bytes : List (BitVec 8)}
    (hlen : bytes.length = s.reading.length) :
    ∃ m : Machine, BufferClean m.memory ∧
      (∀ Q, Undisturbed own bytes.length Q → Q s.machine.memory → Q m.memory) ∧
      bytes.foldl (receive own) s = { s with machine := m }.proceed own bytes := by
  have hbound : 0 < s.reading.length ∧ s.reading.length ≤ 17 := by
    cases s.reading <;> decide
  have hne : bytes ≠ [] := List.ne_nil_of_length_pos (by omega)
  have hread := receive_read own h.jumped hne (by rw [h.got, Nat.zero_add]; exact hlen)
  have hclean : BufferClean (s.machine.dmaBytes own 0 bytes).memory := fun k hk =>
    dmaBytes_keeps (Q := fun m => m.dirtyAt (bufferByte k) = false) (ownKeeps_clean hk)
      (fun _ _ _ _ _ hm => hm) (h.clean k hk)
  refine ⟨((s.machine.dmaBytes own 0 bytes).finishRead own bytes.length).2,
    finishRead_clean (by omega) hclean, ?_, ?_⟩
  · intro Q hQ hq
    refine hQ.finishRead le_rfl (by omega) (dmaBytes_keeps hQ.own ?_ hq)
    intro i _ hi b m hm
    exact hQ.dma i (by omega) b m hm
  · have hbuf := h.finishRead own (show bytes.length ≤ 32 by omega)
    rw [hread, complete, h.got, ← hlen]
    dsimp only
    rw [hbuf, ← h.got]

/-- A reply only sends its bytes. -/
theorem reply_eq {bytes : List (BitVec 8)} (hlen : bytes.length ≤ 32) (s : Boot) :
    s.reply own bytes = { s with
      machine := (s.machine.uart0BlockingWrite own bytes).2
      reading := .command
      replies := s.replies ++ bytes } := by
  rw [reply, uart0BlockingWrite_bytes hlen]

/-- The byte of a command. -/
theorem Ready.command (h : s.Ready) (hr : s.reading = .command) (own : ℕ → List OwnAccess)
    (command : BitVec 8) :
    ∃ m : Machine, BufferClean m.memory ∧
      (∀ Q, Undisturbed own 1 Q → Q s.machine.memory → Q m.memory) ∧
      s.receive own command = { s with machine := m }.dispatch own command := by
  have hlen : [command].length = s.reading.length := by rw [hr]; rfl
  obtain ⟨m, hclean, hkeep, hrun⟩ := h.read own hlen
  refine ⟨m, hclean, hkeep, ?_⟩
  rw [List.foldl_cons, List.foldl_nil, proceed, hr] at hrun
  exact hrun

/-- A command and the bytes that follow it. -/
theorem Ready.payload (h : s.Ready) (hr : s.reading = .command) (own : ℕ → List OwnAccess)
    {command : BitVec 8} {reading : Reading}
    (hdispatch : ∀ s' : Boot, s'.dispatch own command = { s' with reading := reading })
    {bytes : List (BitVec 8)} (hlen : bytes.length = reading.length) :
    ∃ m : Machine, BufferClean m.memory ∧
      (∀ Q, Undisturbed own bytes.length Q → Q s.machine.memory → Q m.memory) ∧
      (command :: bytes).foldl (receive own) s =
        { s with machine := m, reading := reading }.proceed own bytes := by
  have hpos : 1 ≤ bytes.length := by
    rw [hlen]
    cases reading <;> decide
  obtain ⟨m₁, hclean₁, hkeep₁, hrun₁⟩ := h.command hr own command
  have hready : Ready { s with machine := m₁, reading := reading } := ⟨h.got, h.jumped, hclean₁⟩
  obtain ⟨m₂, hclean₂, hkeep₂, hrun₂⟩ := hready.read own hlen
  refine ⟨m₂, hclean₂, ?_, ?_⟩
  · intro Q hQ hq
    exact hkeep₂ Q hQ (hkeep₁ Q (hQ.mono hpos) hq)
  · rw [List.foldl_cons, hrun₁, hdispatch, hrun₂]

/-- {lit}`a` asks for five more bytes. -/
theorem dispatch_address (s : Boot) : s.dispatch own 0x61#8 = { s with reading := .address } := rfl

/-- {lit}`w` asks for 17 more bytes. -/
theorem dispatch_data (s : Boot) : s.dispatch own 0x77#8 = { s with reading := .data } := rfl

/-- A frame of {lit}`set_address` sets the pointer. -/
theorem addressFrame_runs (h : s.Ready) (hr : s.reading = .command) (own : ℕ → List OwnAccess)
    (address : BitVec 32) :
    ∃ m : Machine, BufferClean m.memory ∧
      (∀ Q, Undisturbed own 16 Q → Q s.machine.memory → Q m.memory) ∧
      (UartClient.addressFrame address).foldl (receive own) s =
        { s with machine := m, memPtr := address, reading := .address }.reply own [replyOk] := by
  have hlen : (addressBytes address ++ [(addressBytes address).foldl (· ^^^ ·) 0]).length = 5 := rfl
  obtain ⟨m, hclean, hkeep, hrun⟩ := h.payload hr own dispatch_address hlen
  refine ⟨m, hclean, fun Q hQ hq => hkeep Q (hQ.mono (by omega)) hq, ?_⟩
  rw [UartClient.addressFrame, List.cons_append, hrun, proceed]
  dsimp only
  rw [runAddress, conv5bToInt_addressBytes]

/-- A frame of {lit}`write_data` copies its bytes and flushes one line. -/
theorem dataFrame_runs (h : s.Ready) (hr : s.reading = .command) (own : ℕ → List OwnAccess)
    {data : List (BitVec 8)}
    (hdata : data.length = 16) :
    ∃ m : Machine, BufferClean m.memory ∧
      (∀ Q, Undisturbed own 17 Q → Q s.machine.memory → Q m.memory) ∧
      (UartClient.dataFrame data).foldl (receive own) s =
        { s with
          machine := (m.memcpyTo own s.memPtr data).flushDcacheLine own s.memPtr
          memPtr := s.memPtr + 16#32
          reading := .data }.reply own [replyOk] := by
  have hlen : (data ++ [Sumeru.compute16bCksum data]).length = 17 := by simp [hdata]
  obtain ⟨m, hclean, hkeep, hrun⟩ := h.payload hr own dispatch_data hlen
  refine ⟨m, hclean, fun Q hQ hq => hkeep Q (hQ.mono hlen.le) hq, ?_⟩
  have htake : (data ++ [Sumeru.compute16bCksum data]).take 16 = data := by
    rw [← hdata, List.take_left]
  have hlast : (data ++ [Sumeru.compute16bCksum data]).getD 16 0#8 =
      Sumeru.compute16bCksum data := by
    simp [← hdata]
  have hsum : compute16bCksum (data ++ [Sumeru.compute16bCksum data]) =
      (Sumeru.compute16bCksum data).setWidth 32 := by
    rw [compute16bCksum_eq, Sumeru.compute16bCksum, htake, Sumeru.compute16bCksum,
      List.take_of_length_le hdata.le]
  rw [UartClient.dataFrame, List.cons_append, hrun, proceed]
  dsimp only
  rw [runWrite, hlast, hsum, if_pos rfl, htake]

/-- A frame of {lit}`initiate_jmp` leaves the boot ROM. -/
theorem jumpFrame_runs (h : s.Ready) (hr : s.reading = .command) (own : ℕ → List OwnAccess) :
    ∃ m : Machine, (∀ Q, Undisturbed own 16 Q → Q s.machine.memory → Q m.memory) ∧
      UartClient.jumpFrame.foldl (receive own) s = { s with machine := m }.runJump own := by
  obtain ⟨m, -, hkeep, hrun⟩ := h.command hr own 0x6A#8
  refine ⟨m, fun Q hQ hq => hkeep Q (hQ.mono (by omega)) hq, ?_⟩
  rw [UartClient.jumpFrame, List.foldl_cons, List.foldl_nil, hrun]
  rfl

end Boot

/-! ## Bytes outside the boot ROM -/

namespace Machine

variable {own : ℕ → List OwnAccess} {a : BitVec 25} {v : BitVec 8} {n : ℕ}

/-- No access of the loader's own code meets the image. -/
theorem foreign_of_image (ha : 0x10000 ≤ a.toNat) : Foreign own a := by
  intro t x hx
  rw [← Bool.not_eq_true]
  intro hcov
  have h := (x.own _ hcov).1
  omega

/-- A byte outside of the line pair of the buffer is not in the buffer. -/
theorem ne_bufferByte (ha : a.toNat / 32 ≠ 0x2000 / 32) {k : ℕ} (hk : k < 32) :
    a ≠ bufferByte k := by
  intro heq
  have := bufferByte_toNat hk
  rw [← heq] at this
  omega

/-- No own access of the program covers byte {lit}`a`, and it is in no line of the UART buffer. -/
structure Outside (own : ℕ → List OwnAccess) (a : BitVec 25) : Prop where
  foreign : Foreign own a
  buffer : a.toNat / 32 ≠ 0x2000 / 32

/-- The image lies outside of everything the loader uses for itself. -/
theorem outside_of_image (ha : 0x10000 ≤ a.toNat) : Outside own a :=
  ⟨foreign_of_image ha, by omega⟩

/-- What the cache and memory hold outside is not disturbed. -/
theorem Outside.undisturbed (h : Outside own a) (v : BitVec 8) (hn : n ≤ 32) :
    Undisturbed own n fun m => m.Holds a v where
  own := h.foreign.holds v
  store k hk b _ hm := hm.perform fun _ => covers_storeOp_of_ne (ne_bufferByte h.buffer (by omega)) b
  load k _ _ hm := hm.perform fun hst => by cases hst
  flush k _ _ hm := hm.perform fun _ => covers_flushOp _ _
  dma k hk b _ hm := hm.dma (ne_bufferByte h.buffer (by omega)) b

/-- Neither is what memory holds. -/
theorem undisturbed_synced (ha : 0x10000 ≤ a.toNat) (hn : n ≤ 32) :
    Undisturbed own n fun m => m.Synced a v where
  own := (foreign_of_image ha).synced v
  store k hk b _ hm := hm.perform fun _ => covers_storeOp_of_ne (ne_bufferByte (by omega) (by omega)) b
  load k _ _ hm := hm.perform fun hst => by cases hst
  flush k _ _ hm := hm.perform fun _ => covers_flushOp _ _
  dma k hk b _ hm := hm.dma (ne_bufferByte (by omega) (by omega)) b

/-- A program that keeps to the accesses of the source. -/
def noOwn : ℕ → List OwnAccess := fun _ => []

/-- Without accesses of its own the loader disturbs nothing. -/
theorem ownKeeps_noOwn (Q : CachedMemory → Prop) : OwnKeeps noOwn Q :=
  fun _ _ hx => absurd hx List.not_mem_nil

/-- The buffer and the image differ in their tags. -/
theorem tagOf_ne_bufferByte (ha : 0x10000 ≤ a.toNat) {k : ℕ} (hk : k < 32) :
    tagOf a ≠ tagOf (bufferByte k) := by
  intro ht
  have := (tagOf_eq_iff a (bufferByte k)).mp ht
  rw [bufferByte_toNat hk] at this
  omega

/-- Without accesses of its own the loader does not bring the image into the cache. -/
theorem undisturbed_uncached (ha : 0x10000 ≤ a.toNat) (hn : n ≤ 32) :
    Undisturbed noOwn n fun m => m.Uncached a v where
  own := ownKeeps_noOwn _
  store k hk b _ hm := hm.perform
    (fun _ => covers_storeOp_of_ne (ne_bufferByte (by omega) (by omega)) b) (fun hst => by cases hst)
  load k hk _ hm := hm.perform (fun hst => by cases hst)
    (fun _ _ => tagOf_ne_bufferByte ha (by omega))
  flush k _ _ hm := hm.perform (fun _ => covers_flushOp _ _) (fun hst => by cases hst)
  dma k hk b _ hm := hm.dma (ne_bufferByte (by omega) (by omega)) b

/-- Short reads and replies use the first line of the buffer only. -/
theorem undisturbed_resident (ha : 0x10000 ≤ a.toNat) (hl : a.toNat / 16 % 256 ≠ 0) :
    Undisturbed noOwn 16 fun m => m.Resident a v := by
  have hline : ∀ k < 16, lineOf a ≠ lineOf (bufferByte k) := by
    intro k hk heq
    have := (lineOf_eq_iff a (bufferByte k)).mp heq
    rw [bufferByte_toNat (by omega)] at this
    omega
  refine ⟨ownKeeps_noOwn _, ?_, ?_, ?_, ?_⟩
  · intro k hk b m hm
    exact hm.perform fun heq => absurd heq (hline k hk)
  · intro k hk m hm
    exact hm.perform fun heq => absurd heq (hline k hk)
  · intro k hk m hm
    refine hm.perform fun heq => absurd heq ?_
    rw [lineOf_flushOp]
    exact hline k hk
  · intro k hk b m hm
    exact hm.dma (ne_bufferByte (by omega) (by omega)) b

/-- A reply needs the first line of the buffer. -/
theorem uart0BlockingWrite_syncs {s : Machine} (ha : 0x10000 ≤ a.toNat)
    (hl : a.toNat / 16 % 256 = 0) (h : s.memory.Holds a v) (b : BitVec 8) :
    (s.uart0BlockingWrite own [b]).2.memory.Synced a v := by
  have hsync : Undisturbed own 1 fun m => m.Synced a v := undisturbed_synced ha (by omega)
  have haddr : (storeOp (bufferLoc + BitVec.ofNat 32 0) b).addr = bufferByte 0 := rfl
  have hstored : ((s.pause own).memory.perform
      (storeOp (bufferLoc + BitVec.ofNat 32 0) b)).Synced a v := by
    refine (pause_keeps ((foreign_of_image ha).holds v) h).synced_of_conflict ?_ ?_ (.inl rfl)
      fun _ => covers_storeOp_of_ne (ne_bufferByte (by omega) (k := 0) (by omega)) b
    · rw [haddr, lineOf_eq_iff, bufferByte_toNat (by omega), hl]
    · rw [haddr]
      exact tagOf_ne_bufferByte ha (by omega)
  rw [uart0BlockingWrite_eq (by simp)]
  exact transmit_keeps hsync.own (accesses_keeps hsync.own
    (fun op hop => hsync.flushes (by simp) hop) hstored)

end Machine

/-! ## Chunks -/

/-- Reads and replies of up to {lit}`n` bytes lead from {lit}`m` to {lit}`m'`. -/
def Kept (own : ℕ → List OwnAccess) (n : ℕ) (m m' : CachedMemory) : Prop :=
  ∀ Q, Machine.Undisturbed own n Q → Q m → Q m'

/-- Sixteen bytes are received, written to {lit}`x`, flushed by one line and answered. -/
structure Chunk (own : ℕ → List OwnAccess) (x : BitVec 32) (data : List (BitVec 8))
    (m m' : CachedMemory) : Prop where
  length : data.length = 16
  steps : ∃ s : Machine, Kept own 17 m s.memory ∧
    Kept own 16 ((s.memcpyTo own x data).flushDcacheLine own x).memory m'

/-- Chunks one after the other. -/
inductive Chunks (own : ℕ → List OwnAccess) :
    BitVec 32 → List (BitVec 8) → CachedMemory → CachedMemory → Prop
  | nil (x : BitVec 32) (m : CachedMemory) : Chunks own x [] m m
  | cons {x : BitVec 32} {data bytes : List (BitVec 8)} {m m₁ m₂ : CachedMemory}
      (hchunk : Chunk own x data m m₁) (hrest : Chunks own (x + 16#32) bytes m₁ m₂) :
      Chunks own x (data ++ bytes) m m₂

/-- Bytes written from {lit}`x` on: they reach memory up to the last line, which is only
flushed by what comes behind it. -/
structure ImageWritten (x : BitVec 32) (bytes : List (BitVec 8)) (m m' : CachedMemory) : Prop where
  holds : ∀ k (hk : k < bytes.length), m'.Holds (busAddr (x + BitVec.ofNat 32 k)) bytes[k]
  synced : ∀ k (hk : k < bytes.length), (x.toNat + k) / 16 < (x.toNat + bytes.length) / 16 →
    m'.Synced (busAddr (x + BitVec.ofNat 32 k)) bytes[k]
  keepsHolds : ∀ a v, 0x10000 ≤ a.toNat → a.toNat < x.toNat → m.Holds a v → m'.Holds a v
  keepsSynced : ∀ a v, 0x10000 ≤ a.toNat → a.toNat < x.toNat → m.Synced a v → m'.Synced a v
  flushes : bytes ≠ [] → ∀ a v, 0x10000 ≤ a.toNat → a.toNat < x.toNat →
    a.toNat / 16 = x.toNat / 16 → m.Holds a v → m'.Synced a v

section Chunks

variable {own : ℕ → List OwnAccess} {x : BitVec 32} {data bytes : List (BitVec 8)}
  {m m' : CachedMemory} {a : BitVec 25} {v : BitVec 8}

/-- A flush writes the line of its argument back. -/
theorem Machine.flushDcacheLine_syncs {s : Machine} (ha : 0x10000 ≤ a.toNat)
    (hx : x.toNat < 2 ^ 25) (hline : a.toNat / 16 = x.toNat / 16) (h : s.memory.Holds a v) :
    (s.flushDcacheLine own x).memory.Synced a v := by
  have hsame : a.toNat / 16 = (busAddr x).toNat / 16 := by rw [busAddr_toNat hx, hline]
  obtain ⟨hl, ht⟩ := (sameLine_iff _ _).mpr hsame
  refine (Machine.pause_keeps ((Machine.foreign_of_image ha).holds v) h).synced_of_conflict
    (hl.trans (lineOf_flushOp x).symm) ?_ (.inl rfl) fun _ => covers_flushOp _ _
  rw [ht]
  exact tagOf_flushOp x

/-- Bytes stored above an address do not cover it. -/
theorem covers_storeOps_of_lt (ha : a.toNat < x.toNat) (hfit : x.toNat + bytes.length ≤ 2 ^ 25)
    {op : MemOp} (hop : op ∈ Machine.storeOps x bytes) : op.covers a = false := by
  obtain ⟨k, hk, rfl⟩ := Machine.mem_storeOps.mp hop
  refine covers_storeOp_of_ne ?_ _
  intro heq
  rw [heq, busAddr_add_toNat (by omega)] at ha
  omega

/-- The 16 bytes of a data frame reach memory, and the rest of the image stays. -/
theorem Chunk.written (h : Chunk own x data m m') (hx : 0x10000 ≤ x.toNat)
    (hfit : x.toNat + 16 ≤ 2 ^ 25) : ImageWritten x data m m' := by
  obtain ⟨hlen, s, hbefore, hafter⟩ := h
  have hfit' : x.toNat + data.length ≤ 2 ^ 25 := by omega
  have hcopied : ∀ k (hk : k < data.length),
      (s.memcpyTo own x data).memory.Holds (busAddr (x + BitVec.ofNat 32 k)) data[k] := by
    intro k hk
    refine Machine.memcpyTo_holds (by omega) hk (Machine.foreign_of_image ?_)
    rw [busAddr_add_toNat (by omega)]
    omega
  -- bytes below the chunk are received over, copied past and still there for the flush
  have hbelow : ∀ a v, 0x10000 ≤ a.toNat → a.toNat < x.toNat → m.Holds a v →
      (s.memcpyTo own x data).memory.Holds a v := by
    intro a v ha hax hm
    have hs := hbefore _ ((Machine.outside_of_image ha).undisturbed _ (by omega)) hm
    rw [Machine.memcpyTo_eq]
    exact Machine.accesses_keeps ((Machine.foreign_of_image ha).holds v)
      (fun op hop m hm => hm.perform fun _ => covers_storeOps_of_lt hax hfit' hop) hs
  have hflush : ∀ a v, 0x10000 ≤ a.toNat → (s.memcpyTo own x data).memory.Holds a v →
      m'.Holds a v := by
    intro a v ha hm
    refine hafter _ ((Machine.outside_of_image ha).undisturbed _ (by omega)) ?_
    exact Machine.access_keeps ((Machine.foreign_of_image ha).holds v)
      (fun m hm => hm.perform fun _ => covers_flushOp _ _) hm
  have hsync : ∀ a v, 0x10000 ≤ a.toNat → a.toNat / 16 = x.toNat / 16 →
      (s.memcpyTo own x data).memory.Holds a v → m'.Synced a v := by
    intro a v ha hline hm
    exact hafter _ (Machine.undisturbed_synced ha (by omega))
      (Machine.flushDcacheLine_syncs ha (by omega) hline hm)
  refine ⟨?_, ?_, ?_, ?_, ?_⟩
  · intro k hk
    exact hflush _ _ (by rw [busAddr_add_toNat (by omega)]; omega) (hcopied k hk)
  · intro k hk hline
    have haddr := busAddr_add_toNat (x := x) (k := k) (by omega)
    refine hsync _ _ (by omega) ?_ (hcopied k hk)
    rw [haddr]
    omega
  · exact fun a v ha hax hm => hflush a v ha (hbelow a v ha hax hm)
  · intro a v ha hax hm
    refine hafter _ (Machine.undisturbed_synced ha (by omega)) ?_
    have hs := hbefore _ (Machine.undisturbed_synced ha (by omega)) hm
    refine Machine.access_keeps ((Machine.foreign_of_image ha).synced v)
      (fun m hm => hm.perform fun _ => covers_flushOp _ _) ?_
    rw [Machine.memcpyTo_eq]
    exact Machine.accesses_keeps ((Machine.foreign_of_image ha).synced v)
      (fun op hop m hm => hm.perform fun _ => covers_storeOps_of_lt hax hfit' hop) hs
  · exact fun _ a v ha hax hline hm => hsync a v ha hline (hbelow a v ha hax hm)

/-- An empty image is there. -/
theorem ImageWritten.nil (x : BitVec 32) (m : CachedMemory) : ImageWritten x [] m m where
  holds k hk := absurd hk (Nat.not_lt_zero k)
  synced k hk := absurd hk (Nat.not_lt_zero k)
  keepsHolds _ _ _ _ h := h
  keepsSynced _ _ _ _ h := h
  flushes h := absurd rfl h

/-- The pointer moves up by 16 without a wrap. -/
theorem add_sixteen_toNat (hfit : x.toNat + 16 ≤ 2 ^ 25) : (x + 16#32).toNat = x.toNat + 16 :=
  add_ofNat_toNat (by omega)

/-- What follows flushes the last line of what came before. -/
theorem ImageWritten.append {m₁ : CachedMemory} (h : ImageWritten x data m m₁)
    (h' : ImageWritten (x + 16#32) bytes m₁ m') (hx : 0x10000 ≤ x.toNat) (hlen : data.length = 16)
    (hfit : x.toNat + 16 + bytes.length ≤ 2 ^ 25) : ImageWritten x (data ++ bytes) m m' := by
  have hnext := add_sixteen_toNat (x := x) (by omega)
  have hne : data ≠ [] := List.ne_nil_of_length_pos (by omega)
  have haddr : ∀ k, x + BitVec.ofNat 32 (16 + k) = x + 16#32 + BitVec.ofNat 32 k := by
    intro k
    rw [BitVec.ofNat_add, BitVec.add_assoc]
  have hlow : ∀ k < 16, 0x10000 ≤ (busAddr (x + BitVec.ofNat 32 k)).toNat ∧
      (busAddr (x + BitVec.ofNat 32 k)).toNat = x.toNat + k := by
    intro k hk
    rw [busAddr_add_toNat (by omega)]
    omega
  refine ⟨?_, ?_, ?_, ?_, ?_⟩
  · intro k hk
    rw [List.length_append] at hk
    by_cases hk16 : k < 16
    · obtain ⟨h1, h2⟩ := hlow k hk16
      rw [List.getElem_append_left (by omega)]
      exact h'.keepsHolds _ _ h1 (by omega) (h.holds k (by omega))
    · obtain ⟨j, rfl⟩ := Nat.exists_eq_add_of_le (Nat.not_lt.mp hk16)
      rw [List.getElem_append_right (by omega), haddr]
      simp only [hlen, Nat.add_sub_cancel_left]
      exact h'.holds j (by omega)
  · intro k hk hline
    rw [List.length_append] at hk hline
    by_cases hk16 : k < 16
    · obtain ⟨h1, h2⟩ := hlow k hk16
      rw [List.getElem_append_left (by omega)]
      by_cases hearly : (x.toNat + k) / 16 < (x.toNat + data.length) / 16
      · exact h'.keepsSynced _ _ h1 (by omega) (h.synced k (by omega) hearly)
      · -- the last line of the chunk, so there is another chunk behind it
        have hmore : bytes ≠ [] := by
          rintro rfl
          rw [List.length_nil] at hline
          omega
        exact h'.flushes hmore _ _ h1 (by omega) (by omega) (h.holds k (by omega))
    · obtain ⟨j, rfl⟩ := Nat.exists_eq_add_of_le (Nat.not_lt.mp hk16)
      rw [List.getElem_append_right (by omega), haddr]
      simp only [hlen, Nat.add_sub_cancel_left]
      exact h'.synced j (by omega) (by omega)
  · exact fun a v ha hax hm => h'.keepsHolds a v ha (by omega) (h.keepsHolds a v ha hax hm)
  · exact fun a v ha hax hm => h'.keepsSynced a v ha (by omega) (h.keepsSynced a v ha hax hm)
  · exact fun _ a v ha hax hline hm =>
      h'.keepsSynced a v ha (by omega) (h.flushes hne a v ha hax hline hm)

/-- All data frames together bring the image to memory. -/
theorem Chunks.written (h : Chunks own x bytes m m') (hx : 0x10000 ≤ x.toNat)
    (hfit : x.toNat + bytes.length ≤ 2 ^ 25) : ImageWritten x bytes m m' := by
  induction h with
  | nil x m => exact ImageWritten.nil x m
  | @cons x data bytes m m₁ m₂ hchunk hrest ih =>
      have hlen := hchunk.length
      rw [List.length_append] at hfit
      have hnext := add_sixteen_toNat (x := x) (by omega)
      exact (hchunk.written hx (by omega)).append (ih (by omega) (by omega)) hx hlen (by omega)

/-! ### The end of an image in the cache -/

/-- A data frame does not bring later bytes into the cache. -/
theorem Chunk.uncached (h : Chunk Machine.noOwn x data m m') (ha : 0x10000 ≤ a.toNat)
    (hax : x.toNat + 16 ≤ a.toNat) (hm : m.Uncached a v) : m'.Uncached a v := by
  obtain ⟨hlen, s, hbefore, hafter⟩ := h
  have hlt := a.isLt
  refine hafter _ (Machine.undisturbed_uncached ha (by omega)) ?_
  refine Machine.access_keeps (Q := fun m => m.Uncached a v) (Machine.ownKeeps_noOwn _)
    (fun m hm => hm.perform (fun _ => covers_flushOp _ _) (fun hst => by cases hst)) ?_
  rw [Machine.memcpyTo_eq]
  refine Machine.accesses_keeps (Q := fun m => m.Uncached a v) (Machine.ownKeeps_noOwn _) ?_
    (hbefore _ (Machine.undisturbed_uncached ha (by omega)) hm)
  intro op hop m hm
  obtain ⟨k, hk, rfl⟩ := Machine.mem_storeOps.mp hop
  refine hm.perform (fun _ => covers_storeOp_of_ne ?_ _) (fun hst => by cases hst)
  intro heq
  rw [heq, busAddr_add_toNat (by omega)] at hax
  omega

/-- A byte of the chunk behind its first line stays in the cache. -/
theorem Chunk.resident (h : Chunk Machine.noOwn x data m m') (hx : 0x10000 ≤ x.toNat)
    (hfit : x.toNat + 16 ≤ 2 ^ 25) (hax : a.toNat / 16 = x.toNat / 16 + 1)
    (hin : a.toNat < x.toNat + 16) (hline : a.toNat / 16 % 256 ≠ 0) (hm : m.Uncached a v) :
    m'.Resident a v := by
  obtain ⟨hlen, s, hbefore, hafter⟩ := h
  have ha : 0x10000 ≤ a.toNat := by omega
  have hother : lineOf a ≠ lineOf (busAddr x) := by
    rw [Ne, lineOf_eq_iff, busAddr_toNat (by omega)]
    omega
  -- a store of the chunk to the line of the byte makes it present, the others pass by
  have hsame : ∀ (k : ℕ) (b : BitVec 8) (m : CachedMemory), k < 16 →
      (x.toNat + k) / 16 = a.toNat / 16 → m.Uncached a v ∨ m.Resident a v →
        (m.perform (storeOp (x + BitVec.ofNat 32 k) b)).Resident a v := by
    intro k b m hk hk16 hm
    have haddr := busAddr_add_toNat (x := x) (k := k) (by omega)
    obtain ⟨hl, ht⟩ := (sameLine_iff a (busAddr (x + BitVec.ofNat 32 k))).mpr (by omega)
    rcases hm with hm | hm
    · exact hm.resident_of_store rfl hl ht
    · exact hm.perform fun _ => ⟨rfl, ht⟩
  have hstore : ∀ op ∈ Machine.storeOps x data, ∀ m : CachedMemory,
      m.Uncached a v ∨ m.Resident a v →
        (m.perform op).Uncached a v ∨ (m.perform op).Resident a v := by
    intro op hop m hm
    obtain ⟨k, hk, rfl⟩ := Machine.mem_storeOps.mp hop
    have haddr := busAddr_add_toNat (x := x) (k := k) (by omega)
    by_cases hk16 : (x.toNat + k) / 16 = a.toNat / 16
    · exact .inr (hsame k _ m (by omega) hk16 hm)
    · have hl : lineOf a ≠ lineOf (busAddr (x + BitVec.ofNat 32 k)) := by
        rw [Ne, lineOf_eq_iff]
        omega
      refine hm.imp (fun hm => hm.perform ?_ (fun hst => by cases hst)) fun hm => hm.perform ?_
      · refine fun _ => covers_storeOp_of_ne ?_ _
        rintro rfl
        exact hl rfl
      · exact fun heq => absurd heq hl
  have hresident : ∀ op ∈ Machine.storeOps x data, ∀ m : CachedMemory, m.Resident a v →
      (m.perform op).Resident a v := by
    intro op hop m hm
    obtain ⟨k, hk, rfl⟩ := Machine.mem_storeOps.mp hop
    have haddr := busAddr_add_toNat (x := x) (k := k) (by omega)
    by_cases hk16 : (x.toNat + k) / 16 = a.toNat / 16
    · exact hsame k _ m (by omega) hk16 (.inr hm)
    · refine hm.perform fun heq => ?_
      have := (lineOf_eq_iff a (busAddr (x + BitVec.ofNat 32 k))).mp heq
      omega
  have hk : a.toNat - x.toNat < data.length := by omega
  have hmem := Machine.mem_storeOps (x := x) |>.mpr ⟨a.toNat - x.toNat, hk, rfl⟩
  refine hafter _ (Machine.undisturbed_resident ha hline) ?_
  refine Machine.access_keeps (Q := fun m => m.Resident a v) (Machine.ownKeeps_noOwn _)
    (fun m hm => hm.perform fun heq => ?_) ?_
  · rw [lineOf_flushOp] at heq
    exact absurd heq hother
  · rw [Machine.memcpyTo_eq]
    exact Machine.accesses_reach (Machine.ownKeeps_noOwn _) (Machine.ownKeeps_noOwn _) hmem
      (fun m hm => hsame _ _ m (by omega) (by omega) hm) hstore hresident
      (.inl (hbefore _ (Machine.undisturbed_uncached ha (by omega)) hm))

/-- The first byte of the last line of an image that ends inside a line. -/
theorem Chunks.resident (h : Chunks Machine.noOwn x bytes m m') (hne : bytes ≠ [])
    (hx : 0x10000 ≤ x.toNat) (hfit : x.toNat + bytes.length ≤ 2 ^ 25) (hodd : x.toNat % 16 ≠ 0)
    (hlast : a.toNat = (x.toNat + bytes.length) / 16 * 16) (hline : a.toNat / 16 % 256 ≠ 0)
    (hm : m.Uncached a v) : m'.Resident a v := by
  induction h with
  | nil => exact absurd rfl hne
  | @cons x data bytes m m₁ m₂ hchunk hrest ih =>
      have hlen := hchunk.length
      rw [List.length_append, hlen] at hfit hlast
      cases hrest with
      | nil =>
          rw [List.length_nil] at hfit hlast
          exact hchunk.resident hx (by omega) (by omega) (by omega) hline hm
      | @cons _ data' bytes' _ _ _ hchunk' hrest' =>
          have hlen' := hchunk'.length
          have hnext := add_sixteen_toNat (x := x) (by omega)
          rw [List.length_append] at hfit hlast
          refine ih ?_ (by omega) (by rw [List.length_append]; omega) (by omega)
            (by rw [List.length_append]; omega) (hchunk.uncached (by omega) (by omega) hm)
          exact List.ne_nil_of_length_pos (by rw [List.length_append]; omega)

end Chunks

/-! ## Sessions -/

namespace Boot

variable {own : ℕ → List OwnAccess} {s : Boot}

open Machine

/-- The program waits for a command and the host has read all replies. -/
structure Idle (s : Boot) : Prop where
  ready : s.Ready
  reading : s.reading = .command
  replies : s.replies = []

/-- The loader is idle at power-up. -/
theorem idle_init (mem : ByteMem) : (init mem).Idle :=
  ⟨⟨rfl, rfl, fun _ _ => rfl⟩, rfl, rfl⟩

/-- The host reads the reply. -/
theorem read_reply (h : s.replies = []) (b : BitVec 8) :
    (device own).read (s.reply own [b]) =
      some (b, { s with
        machine := (s.machine.uart0BlockingWrite own [b]).2
        reading := .command
        replies := [] }) := by
  rw [reply_eq (by simp), h]
  rfl

/-- A frame that ends in a reply, as the host sees it. -/
theorem read_write {s' : Boot} {frame : List (BitVec 8)} {b : BitVec 8}
    (hrun : frame.foldl (receive own) s = s'.reply own [b]) (h : s'.replies = []) :
    (device own).read ((device own).write s frame) =
      some (b, { s' with
        machine := (s'.machine.uart0BlockingWrite own [b]).2
        reading := .command
        replies := [] }) := by
  have hwrite : (device own).write s frame = frame.foldl (receive own) s := rfl
  rw [hwrite, hrun, read_reply h]

/-- The loader takes an address frame, and lets lines of index 0 go back to memory. -/
theorem addressFrame_answers (h : s.Idle) (own : ℕ → List OwnAccess) (address : BitVec 32) :
    ∃ s' : Boot, (device own).read ((device own).write s (UartClient.addressFrame address)) =
        some (replyOk, s') ∧ s'.Idle ∧ s'.memPtr = address ∧
      Kept own 16 s.machine.memory s'.machine.memory ∧
      ∀ a v, 0x10000 ≤ a.toNat → a.toNat / 16 % 256 = 0 → s.machine.memory.Holds a v →
        s'.machine.memory.Synced a v := by
  obtain ⟨m, hclean, hkeep, hrun⟩ := addressFrame_runs h.ready h.reading own address
  have hread := read_write hrun h.replies
  dsimp only at hread
  refine ⟨_, hread, ⟨⟨h.ready.got, h.ready.jumped, uart0BlockingWrite_clean (by simp) hclean⟩, rfl,
    rfl⟩, rfl, ?_, ?_⟩
  · intro Q hQ hq
    exact hQ.uart0BlockingWrite (by simp) (by omega) (hkeep Q hQ hq)
  · intro a v ha hl hm
    exact uart0BlockingWrite_syncs ha hl (hkeep _ ((outside_of_image ha).undisturbed v (by omega)) hm) replyOk

/-- Stores to other lines leave the buffer alone. -/
theorem bufferClean_memcpyTo {m : Machine} {x : BitVec 32} {bytes : List (BitVec 8)}
    (hx : ∀ i < bytes.length, (busAddr (x + BitVec.ofNat 32 i)).toNat / 32 ≠ 0x2000 / 32)
    (h : BufferClean m.memory) : BufferClean (m.memcpyTo own x bytes).memory := by
  intro k hk
  rw [memcpyTo_eq]
  refine accesses_keeps (Q := fun m => m.dirtyAt (bufferByte k) = false) (ownKeeps_clean hk) ?_
    (h k hk)
  intro op hop m hm
  obtain ⟨i, hi, rfl⟩ := mem_storeOps.mp hop
  refine dirtyAt_perform hm fun _ hl ht => absurd ((sameLine_iff _ _).mp ⟨hl, ht⟩) ?_
  have hne := hx i hi
  change _ ≠ (busAddr (x + BitVec.ofNat 32 i)).toNat / 16
  rw [bufferByte_toNat hk]
  omega

/-- A flush leaves no dirty byte in the buffer. -/
theorem bufferClean_flushDcacheLine {m : Machine} {x : BitVec 32} (h : BufferClean m.memory) :
    BufferClean (m.flushDcacheLine own x).memory := fun k hk =>
  access_keeps (Q := fun m => m.dirtyAt (bufferByte k) = false) (ownKeeps_clean hk)
    (fun _ hm => dirtyAt_perform hm fun _ _ _ => rfl) (h k hk)

/-- The loader takes a data frame and stores its 16 bytes. -/
theorem dataFrame_answers (h : s.Idle) (own : ℕ → List OwnAccess) {data : List (BitVec 8)}
    (hdata : data.length = 16) (hx : 0x10000 ≤ s.memPtr.toNat)
    (hfit : s.memPtr.toNat + 16 ≤ 2 ^ 25) :
    ∃ s' : Boot, (device own).read ((device own).write s (UartClient.dataFrame data)) =
        some (replyOk, s') ∧ s'.Idle ∧ s'.memPtr = s.memPtr + 16#32 ∧
      Chunk own s.memPtr data s.machine.memory s'.machine.memory := by
  obtain ⟨m, hclean, hkeep, hrun⟩ := dataFrame_runs h.ready h.reading own hdata
  have hread := read_write hrun h.replies
  dsimp only at hread
  have hlines : ∀ i < data.length,
      (busAddr (s.memPtr + BitVec.ofNat 32 i)).toNat / 32 ≠ 0x2000 / 32 := by
    intro i hi
    rw [busAddr_add_toNat (by omega)]
    omega
  have hclean' : BufferClean ((m.memcpyTo own s.memPtr data).flushDcacheLine own s.memPtr).memory :=
    bufferClean_flushDcacheLine (bufferClean_memcpyTo hlines hclean)
  refine ⟨_, hread, ⟨⟨h.ready.got, h.ready.jumped, uart0BlockingWrite_clean (by simp) hclean'⟩, rfl,
    rfl⟩, rfl, hdata, m, hkeep, ?_⟩
  intro Q hQ hq
  exact hQ.uart0BlockingWrite (by simp) (by omega) hq

/-- The image in whole chunks. -/
def paddedImage (file : List (BitVec 8)) : List (BitVec 8) :=
  file ++ List.replicate ((16 - file.length % 16) % 16) 0#8

/-- The image is padded frame by frame. -/
theorem paddedImage_eq {file : List (BitVec 8)} (h : 0 < file.length) :
    paddedImage file = UartClient.fillBuffer (file.take 16) ++ paddedImage (file.drop 16) := by
  rw [paddedImage, paddedImage, UartClient.fillBuffer, List.length_take, List.length_drop]
  by_cases hlen : 16 ≤ file.length
  · rw [Nat.min_eq_left hlen, Nat.sub_self, List.replicate_zero, List.append_nil,
      ← List.append_assoc, List.take_append_drop]
    congr 3
    omega
  · have hdrop : file.drop 16 = [] := List.drop_eq_nil_of_le (by omega)
    have htake : file.take 16 = file := List.take_of_length_le (by omega)
    rw [hdrop, htake, Nat.min_eq_right (by omega)]
    have h0 : (16 - (file.length - 16) % 16) % 16 = 0 := by omega
    have hpad : (16 - file.length % 16) % 16 = 16 - file.length := by omega
    rw [h0, hpad, List.replicate_zero, List.append_nil, List.append_nil]

/-- A frame carries 16 bytes. -/
theorem fillBuffer_length {chunk : List (BitVec 8)} (h : chunk.length ≤ 16) :
    (UartClient.fillBuffer chunk).length = 16 := by
  rw [UartClient.fillBuffer, List.length_append, List.length_replicate]
  omega

/-- The data frames of an image write its chunks. -/
theorem dataFrames_answers (own : ℕ → List OwnAccess) {file : List (BitVec 8)} (h : s.Idle)
    (hx : 0x10000 ≤ s.memPtr.toNat) (hfit : s.memPtr.toNat + (paddedImage file).length ≤ 2 ^ 25) :
    ∃ s' : Boot, UartClient.Answers (device own) (UartClient.dataFrames file) s s' ∧ s'.Idle ∧
      Chunks own s.memPtr (paddedImage file) s.machine.memory s'.machine.memory := by
  induction hlen : file.length using Nat.strong_induction_on generalizing file s with
  | _ n ih =>
      by_cases hpos : 0 < file.length
      · have htake : (file.take 16).length ≤ 16 := List.length_take_le 16 file
        have hchunk := fillBuffer_length htake
        rw [paddedImage_eq hpos, List.length_append, hchunk] at hfit
        obtain ⟨s₁, hread, hidle, hptr, hwritten⟩ :=
          dataFrame_answers h own hchunk hx (by omega)
        have hnext := add_sixteen_toNat (x := s.memPtr) (by omega)
        have hdrop : (file.drop 16).length < n := by
          rw [List.length_drop]
          omega
        obtain ⟨s₂, hanswers, hidle₂, hchunks⟩ := ih _ hdrop hidle
          (by rw [hptr]; omega) (by rw [hptr]; omega) rfl
        rw [UartClient.dataFrames_of_ne_nil hpos, paddedImage_eq hpos]
        rw [hptr] at hchunks
        exact ⟨s₂, .cons hread hanswers, hidle₂, .cons hwritten hchunks⟩
      · have hnil : file = [] := List.length_eq_zero_iff.mp (by omega)
        subst hnil
        rw [UartClient.dataFrames_nil]
        exact ⟨s, .nil s, h, .nil _ _⟩

/-- The loader takes the jump frame and jumps to its pointer. -/
theorem jumpFrame_answers (h : s.Idle) (own : ℕ → List OwnAccess) :
    ∃ s' : Boot, (device own).read ((device own).write s UartClient.jumpFrame) =
        some (replyOk, s') ∧ s'.replies = [] ∧
      s'.jumped = some (s.memPtr, s'.machine.memory.mem) ∧
      Kept own 16 s.machine.memory s'.machine.memory := by
  obtain ⟨m, hkeep, hrun⟩ := jumpFrame_runs h.ready h.reading own
  have hwrite : (device own).write s UartClient.jumpFrame =
      UartClient.jumpFrame.foldl (receive own) s := rfl
  have hjump : runJump own { s with machine := m } = { s with
      machine := ((m.uart0BlockingWrite own [replyOk]).2).pause own
      reading := .command
      replies := [replyOk]
      jumped := some (s.memPtr, (((m.uart0BlockingWrite own [replyOk]).2).pause own).memory.mem) } := by
    rw [runJump, reply_eq (by simp), h.replies]
    rfl
  refine ⟨{ s with
      machine := ((m.uart0BlockingWrite own [replyOk]).2).pause own
      reading := .command
      replies := []
      jumped := some (s.memPtr, (((m.uart0BlockingWrite own [replyOk]).2).pause own).memory.mem) },
    ?_, rfl, rfl, ?_⟩
  · rw [hwrite, hrun, hjump]
    rfl
  · intro Q hQ hq
    exact pause_keeps hQ.own (hQ.uart0BlockingWrite (by simp) (by omega) (hkeep Q hQ hq))

/-- A whole session, with memory after each of its parts. -/
theorem session_runs (own : ℕ → List OwnAccess) (mem : ByteMem) (file : List (BitVec 8))
    {loadAddress : BitVec 32} (jmpAddress : BitVec 32) (hx : 0x10000 ≤ loadAddress.toNat)
    (hfit : loadAddress.toNat + (paddedImage file).length ≤ 2 ^ 25) :
    ∃ (dev : Boot) (m₁ m₂ m₃ : CachedMemory),
      UartClient.main (device own) file loadAddress jmpAddress (init mem) = .ok dev ∧
      dev.replies = [] ∧ dev.jumped = some (jmpAddress, dev.machine.memory.mem) ∧
      Kept own 16 (CachedMemory.init mem) m₁ ∧ Chunks own loadAddress (paddedImage file) m₁ m₂ ∧
      Kept own 16 m₂ m₃ ∧ Kept own 16 m₃ dev.machine.memory ∧
      ∀ a v, 0x10000 ≤ a.toNat → a.toNat / 16 % 256 = 0 → m₂.Holds a v → m₃.Synced a v := by
  obtain ⟨s₁, hload, hidle₁, hptr₁, hkeep₁, -⟩ := addressFrame_answers (idle_init mem) own loadAddress
  obtain ⟨s₂, hdata, hidle₂, hchunks⟩ := dataFrames_answers own hidle₁ (by rw [hptr₁]; exact hx)
    (by rw [hptr₁]; exact hfit)
  obtain ⟨s₃, hjmp, hidle₃, hptr₃, hkeep₃, hsync⟩ := addressFrame_answers hidle₂ own jmpAddress
  obtain ⟨s₄, hjump, hreplies, hjumped, hkeep₄⟩ := jumpFrame_answers hidle₃ own
  have hanswers : UartClient.Answers (device own)
      (UartClient.sessionFrames file loadAddress jmpAddress) (init mem) s₄ := by
    rw [UartClient.sessionFrames, List.cons_append]
    exact .cons hload (hdata.append (.cons hjmp (.cons hjump (.nil s₄))))
  rw [hptr₁] at hchunks
  rw [hptr₃] at hjumped
  exact ⟨s₄, _, _, _, UartClient.main_eq hanswers, hreplies, hjumped, hkeep₁, hchunks, hkeep₃, hkeep₄,
    hsync⟩

end Boot

/-! ## The image at the jump -/

/-- The session ends well, with the replies read and the boot ROM gone to {lit}`jmpAddress`, and
memory itself holds the padded image. -/
def LoadsImage (own : ℕ → List OwnAccess) (mem : ByteMem) (file : List (BitVec 8))
    (loadAddress jmpAddress : BitVec 32) : Prop :=
  ∃ (dev : Boot) (sdram : ByteMem),
    UartClient.main (Boot.device own) file loadAddress jmpAddress (Boot.init mem) = .ok dev ∧
    dev.replies = [] ∧ dev.jumped = some (jmpAddress, sdram) ∧
    ∀ k (hk : k < (Boot.paddedImage file).length),
      sdram (busAddr (loadAddress + BitVec.ofNat 32 k)) = (Boot.paddedImage file)[k]

section Load

variable {file : List (BitVec 8)} {loadAddress : BitVec 32}

/-- The end of the image is in a line that the session writes back: nothing was written, the
image ends with a line, or its last line has the index of the UART buffer. -/
def EndsFlushed (file : List (BitVec 8)) (loadAddress : BitVec 32) : Prop :=
  file = [] ∨ loadAddress.toNat % 16 = 0 ∨
    (loadAddress.toNat + (Boot.paddedImage file).length) / 16 % 256 = 0

/-- The padded image has whole frames. -/
theorem paddedImage_length_mod (file : List (BitVec 8)) :
    (Boot.paddedImage file).length % 16 = 0 := by
  rw [Boot.paddedImage, List.length_append, List.length_replicate]
  omega

/-- An image whose last line gets flushed is loaded. -/
theorem loadsImage_of_endsFlushed (hx : 0x10000 ≤ loadAddress.toNat)
    (hfit : loadAddress.toNat + (Boot.paddedImage file).length ≤ 2 ^ 25)
    (h : EndsFlushed file loadAddress) (own : ℕ → List OwnAccess) (mem : ByteMem)
    (jmpAddress : BitVec 32) : LoadsImage own mem file loadAddress jmpAddress := by
  obtain ⟨dev, m₁, m₂, m₃, hmain, hreplies, hjumped, hkeep₁, hchunks, hkeep₂, hkeep₃, hsync⟩ :=
    Boot.session_runs own mem file jmpAddress hx hfit
  have hwritten := hchunks.written hx hfit
  have hmod := paddedImage_length_mod file
  refine ⟨dev, _, hmain, hreplies, hjumped, ?_⟩
  intro k hk
  have haddr := busAddr_add_toNat (x := loadAddress) (k := k) (by omega)
  have ha : 0x10000 ≤ (busAddr (loadAddress + BitVec.ofNat 32 k)).toNat := by omega
  have hm₃ : m₃.Synced (busAddr (loadAddress + BitVec.ofNat 32 k)) (Boot.paddedImage file)[k] := by
    by_cases hline : (loadAddress.toNat + k) / 16 <
        (loadAddress.toNat + (Boot.paddedImage file).length) / 16
    · exact hkeep₂ _ (Machine.undisturbed_synced ha (by omega)) (hwritten.synced k hk hline)
    · -- the byte is in the last line, which the reply writes back
      refine hsync _ _ ha ?_ (hwritten.holds k hk)
      rcases h with rfl | h | h
      · simp [Boot.paddedImage] at hk
      · omega
      · omega
  exact (hkeep₃ _ (Machine.undisturbed_synced ha (by omega)) hm₃).mem

/-- Otherwise memory keeps what it had at the first byte of the last line. -/
theorem not_loadsImage (hx : 0x10000 ≤ loadAddress.toNat)
    (hfit : loadAddress.toNat + (Boot.paddedImage file).length ≤ 2 ^ 25)
    (h : ¬ EndsFlushed file loadAddress) {k : ℕ} (hlen : k < (Boot.paddedImage file).length)
    (hk : loadAddress.toNat + k = (loadAddress.toNat + (Boot.paddedImage file).length) / 16 * 16)
    {mem : ByteMem}
    (hold : mem (busAddr (loadAddress + BitVec.ofNat 32 k)) ≠ (Boot.paddedImage file)[k])
    (jmpAddress : BitVec 32) : ¬ LoadsImage Machine.noOwn mem file loadAddress jmpAddress := by
  simp only [EndsFlushed, not_or] at h
  obtain ⟨-, hodd, hline⟩ := h
  have hne : Boot.paddedImage file ≠ [] := List.ne_nil_of_length_pos (by omega)
  have haddr := busAddr_add_toNat (x := loadAddress) (k := k) (by omega)
  have ha : 0x10000 ≤ (busAddr (loadAddress + BitVec.ofNat 32 k)).toNat := by omega
  rintro ⟨dev, sdram, hmain, -, hjumped, himage⟩
  obtain ⟨dev', m₁, m₂, m₃, hmain', -, hjumped', hkeep₁, hchunks, hkeep₂, hkeep₃, -⟩ :=
    Boot.session_runs Machine.noOwn mem file jmpAddress hx hfit
  rw [hmain'] at hmain
  cases hmain
  rw [hjumped'] at hjumped
  cases hjumped
  have hinit : (CachedMemory.init mem).Uncached (busAddr (loadAddress + BitVec.ofNat 32 k))
      (mem (busAddr (loadAddress + BitVec.ofNat 32 k))) := ⟨rfl, rfl⟩
  have hm₁ := hkeep₁ _ (Machine.undisturbed_uncached ha (by omega)) hinit
  have hm₂ := hchunks.resident hne hx hfit hodd (by omega) (by omega) hm₁
  have hres := Machine.undisturbed_resident
    (v := mem (busAddr (loadAddress + BitVec.ofNat 32 k))) ha (by omega)
  have hend := (hkeep₃ _ hres (hkeep₂ _ hres hm₂)).mem
  rw [himage k hlen] at hend
  exact hold hend.symm

/-- The last line of an image that does not end with one begins inside the image. -/
theorem exists_lastLine (hfit : loadAddress.toNat + (Boot.paddedImage file).length ≤ 2 ^ 25)
    (h : ¬ EndsFlushed file loadAddress) :
    ∃ k < (Boot.paddedImage file).length,
      loadAddress.toNat + k = (loadAddress.toNat + (Boot.paddedImage file).length) / 16 * 16 := by
  simp only [EndsFlushed, not_or] at h
  obtain ⟨hfile, hodd, -⟩ := h
  have hmod := paddedImage_length_mod file
  have hne : Boot.paddedImage file ≠ [] := fun hnil => hfile (List.append_eq_nil_iff.mp hnil).1
  have hpos := List.length_pos_of_ne_nil hne
  exact ⟨(loadAddress.toNat + (Boot.paddedImage file).length) / 16 * 16 - loadAddress.toNat,
    by omega, by omega⟩

end Load

/-- The boot ROM loads an image for every memory and every conduct of its own data if and only
if the end of the image is written back. -/
theorem boot_load_iff (file : List (BitVec 8)) (loadAddress jmpAddress : BitVec 32)
    (hx : 0x10000 ≤ loadAddress.toNat)
    (hfit : loadAddress.toNat + (Boot.paddedImage file).length ≤ 0x2000000) :
    (∀ own mem, LoadsImage own mem file loadAddress jmpAddress) ↔
      file = [] ∨ loadAddress.toNat % 16 = 0 ∨
        (loadAddress.toNat + (Boot.paddedImage file).length) / 16 % 256 = 0 := by
  constructor
  · intro h
    by_contra hends
    obtain ⟨k, hlen, hk⟩ := exists_lastLine hfit hends
    exact not_loadsImage hx hfit hends hlen hk (by simp) jmpAddress
      (h Machine.noOwn fun _ => (Boot.paddedImage file)[k] + 1#8)
  · exact fun h own mem => loadsImage_of_endsFlushed hx hfit h own mem jmpAddress

/-- A file of one word at the usual address is loaded. -/
theorem boot_load_word :
    LoadsImage Machine.noOwn (fun _ => 0#8) [0x13#8, 0#8, 0#8, 0#8] 0x10000#32 0x10000#32 :=
  (boot_load_iff [0x13#8, 0#8, 0#8, 0#8] 0x10000#32 0x10000#32 (by decide) (by decide)).mpr
    (.inr (.inl (by decide))) Machine.noOwn fun _ => 0#8

/-- Four instructions at an address that is not a multiple of a line: memory does not get the
last of them. -/
theorem unflushed_load :
    ¬ LoadsImage Machine.noOwn (fun _ => 0#8) (List.replicate 16 0x13#8) 0x10004#32 0x10004#32 :=
  not_loadsImage (k := 12) (by decide) (by decide) (by unfold EndsFlushed; decide) (by decide)
    (by decide) (by decide) 0x10004#32

end Sumeru
