import Sumeru.Bootloader.UartClient
import Sumeru.Cache.Operations

/-!
# Sumeru - Boot ROM

The program {lit}`boot.c` in the boot ROM with {lit}`uart0.c`, {lit}`memcpy` and the cache flushes it
uses.  Received bytes reach memory by DMA and are read through the data cache; replies
are written through the data cache and leave memory by DMA.  Between the accesses
that the source determines the compiled program works on data of its own, its stack,
its variables and its interrupt handlers: these accesses are a parameter.  The local
{lit}`buf` of {lit}`main` is such data and is taken as long as its largest use.

Main results:

- Theorem {lit}`Machine.finishRead_bytes`: a read returns the bytes that the UART delivered.
- Theorem {lit}`Machine.uart0BlockingWrite_bytes`: a reply leaves as it was written.
-/

namespace Sumeru

/-- {lit}`BOOTCODE_UART0_RX_BUFFER_LOC` and {lit}`BOOTCODE_UART0_TX_BUFFER_LOC`. -/
def bufferLoc : BitVec 32 := 0x2000#32

/-- Bytes that the program may use for itself: below the images, and not in a line of
the UART buffer. -/
def OwnByte (a : BitVec 25) : Prop := a.toNat < 0x10000 ∧ a.toNat / 32 ≠ 0x2000 / 32

/-- An access of the program to its own data. -/
structure OwnAccess where
  op : MemOp
  own : ∀ a, op.covers a = true → OwnByte a

/-- Memory behind the data cache, and how far the own accesses of the program are. -/
structure Machine where
  memory : CachedMemory
  ticks : ℕ

namespace Machine

variable (own : ℕ → List OwnAccess)

/-- The program works on its own data. -/
def pause (s : Machine) : Machine where
  memory := (own s.ticks).foldl (fun m x => m.perform x.op) s.memory
  ticks := s.ticks + 1

/-- One access of the program. -/
def access (op : MemOp) (s : Machine) : Machine :=
  { s.pause own with memory := (s.pause own).memory.perform op }

/-- One byte of the UART into memory. -/
def dma (x : BitVec 32) (b : BitVec 8) (s : Machine) : Machine :=
  { s.pause own with memory := (s.pause own).memory.dma (busAddr x) b }

/-- {lit}`memcpy` of bytes to {lit}`x`. -/
def memcpyTo : BitVec 32 → List (BitVec 8) → Machine → Machine
  | _, [], s => s
  | x, b :: bytes, s => memcpyTo (x + 1#32) bytes (s.access own (storeOp x b))

/-- {lit}`memcpy` of {lit}`n` bytes from {lit}`x`. -/
def memcpyFrom : BitVec 32 → ℕ → Machine → List (BitVec 8) × Machine
  | _, 0, s => ([], s)
  | x, n + 1, s =>
      let s := s.access own (loadOp x)
      let rest := memcpyFrom (x + 1#32) n s
      (s.memory.value (busAddr x) :: rest.1, rest.2)

/-- {lit}`flush_dcache_line`. -/
def flushDcacheLine (x : BitVec 32) (s : Machine) : Machine := s.access own (flushOp x)

/-- {lit}`n` rounds of the loop of {lit}`flush_dcache_range`. -/
def flushLines : BitVec 32 → ℕ → Machine → Machine
  | _, 0, s => s
  | x, n + 1, s => flushLines (x + 16#32) n (s.flushDcacheLine own x)

/-- {lit}`flush_dcache_range`: a round for each line up to {lit}`stop`. -/
def flushDcacheRange (start stop : BitVec 32) (s : Machine) : Machine :=
  let start := start &&& 0xFFFFFFF0#32
  s.flushLines own start ((stop.toNat - start.toNat + 15) / 16)

/-- The end of {lit}`uart0_blocking_read`, when {lit}`len` bytes have arrived. -/
def finishRead (len : ℕ) (s : Machine) : List (BitVec 8) × Machine :=
  (s.flushDcacheRange own bufferLoc (bufferLoc + BitVec.ofNat 32 len)).memcpyFrom own bufferLoc len

/-- The UART sends {lit}`n` bytes of memory from {lit}`x` on. -/
def transmit : BitVec 32 → ℕ → Machine → List (BitVec 8) × Machine
  | _, 0, s => ([], s)
  | x, n + 1, s =>
      let s := s.pause own
      let rest := transmit (x + 1#32) n s
      (s.memory.mem (busAddr x) :: rest.1, rest.2)

/-- {lit}`uart0_blocking_write`, with the bytes on the line. -/
def uart0BlockingWrite (bytes : List (BitVec 8)) (s : Machine) : List (BitVec 8) × Machine :=
  let len := bytes.length % 256
  let s := s.memcpyTo own bufferLoc (bytes.take len)
  let s := s.flushDcacheRange own bufferLoc (bufferLoc + BitVec.ofNat 32 len)
  s.transmit own bufferLoc len

end Machine

/-- What {lit}`main` waits for: the byte of a command, or the bytes that follow {lit}`'a'` and
{lit}`'w'`. -/
inductive Reading where
  | command | address | data
deriving DecidableEq, Repr

/-- The length of the read. -/
def Reading.length : Reading → ℕ
  | .command => 1
  | .address => 5
  | .data => 17

/-- The boot ROM: the bytes the UART has put into the buffer, the replies that the host
has not read, and after the jump its target with the memory it finds. -/
structure Boot where
  machine : Machine
  memPtr : BitVec 32
  reading : Reading
  got : ℕ
  replies : List (BitVec 8)
  jumped : Option (BitVec 32 × ByteMem)

namespace Boot

/-- The reply {lit}`'E'`. -/
def replyError : BitVec 8 := 0x45#8

/-- {lit}`compute_16b_cksum` of {lit}`boot.c`, an {lit}`int`. -/
def compute16bCksum (buf : List (BitVec 8)) : BitVec 32 :=
  (buf.take 16).foldl (fun c b => c ^^^ b.setWidth 32) 0#32

/-- {lit}`conv_5b_to_int`. -/
def conv5bToInt (buf : List (BitVec 8)) : Option (BitVec 32) :=
  let num := (List.range 4).foldl (fun n i => n ||| (buf.getD i 0#8).setWidth 32 <<< (8 * i)) 0#32
  let cksum := (List.range 4).foldl (fun c i => c ^^^ (buf.getD i 0#8).setWidth 32) 0#32
  if cksum.setWidth 8 = buf.getD 4 0#8 then some num else none

/-- Power-up with memory {lit}`mem`. -/
def init (mem : ByteMem) : Boot where
  machine := ⟨CachedMemory.init mem, 0⟩
  memPtr := 0x10000#32
  reading := .command
  got := 0
  replies := []
  jumped := none

variable (own : ℕ → List OwnAccess)

/-- A reply, and back to the head of the loop. -/
def reply (bytes : List (BitVec 8)) (s : Boot) : Boot :=
  let sent := s.machine.uart0BlockingWrite own bytes
  { s with machine := sent.2, reading := .command, replies := s.replies ++ sent.1 }

/-- The command {lit}`'a'` with its bytes. -/
def runAddress (buf : List (BitVec 8)) (s : Boot) : Boot :=
  match conv5bToInt buf with
  | some num => { s with memPtr := num }.reply own [replyOk]
  | none => s.reply own [replyError]

/-- The command {lit}`'w'` with its bytes. -/
def runWrite (buf : List (BitVec 8)) (s : Boot) : Boot :=
  if compute16bCksum buf = (buf.getD 16 0#8).setWidth 32 then
    let machine := s.machine.memcpyTo own s.memPtr (buf.take 16)
    let machine := machine.flushDcacheLine own s.memPtr
    { s with machine := machine, memPtr := s.memPtr + 16#32 }.reply own [replyOk]
  else s.reply own [replyError]

/-- The command {lit}`'r'`. -/
def runRead (s : Boot) : Boot :=
  let copied := s.machine.memcpyFrom own s.memPtr 16
  { s with machine := copied.2, memPtr := s.memPtr + 16#32 }.reply own
    (copied.1 ++ [(compute16bCksum copied.1).setWidth 8])

/-- The command {lit}`'j'`. -/
def runJump (s : Boot) : Boot :=
  let s := s.reply own [replyOk]
  let machine := s.machine.pause own
  { s with machine := machine, jumped := some (s.memPtr, machine.memory.mem) }

/-- The switch of {lit}`main`. -/
def dispatch (command : BitVec 8) (s : Boot) : Boot :=
  if command = 0x61#8 then { s with reading := .address }
  else if command = 0x77#8 then { s with reading := .data }
  else if command = 0x72#8 then s.runRead own
  else if command = 0x76#8 then s.reply own [0x31#8]
  else if command = 0x6A#8 then s.runJump own
  else s.reply own [replyError]

/-- The program goes on with the bytes of a read. -/
def proceed (buf : List (BitVec 8)) (s : Boot) : Boot :=
  match s.reading with
  | .command => s.dispatch own (buf.getD 0 0#8)
  | .address => s.runAddress own buf
  | .data => s.runWrite own buf

/-- A read is complete. -/
def complete (s : Boot) : Boot :=
  let buf := s.machine.finishRead own s.got
  { s with machine := buf.2, got := 0 }.proceed own buf.1

/-- The UART takes a byte of the line; after the jump the boot ROM is not there any more. -/
def receive (s : Boot) (b : BitVec 8) : Boot :=
  if s.jumped.isSome then s
  else
    let s' := { s with
      machine := s.machine.dma own (bufferLoc + BitVec.ofNat 32 s.got) b
      got := s.got + 1 }
    if s'.got = s.reading.length then s'.complete own else s'

/-- The boot ROM at the other end of the serial line. -/
def device : SerialDevice Boot where
  write s bytes := bytes.foldl (receive own) s
  read s :=
    match s.replies with
    | [] => none
    | b :: replies => some (b, { s with replies := replies })

end Boot

/-! ## Addresses -/

/-- The next byte. -/
theorem add_one_add (x : BitVec 32) (k : ℕ) :
    x + 1#32 + BitVec.ofNat 32 k = x + BitVec.ofNat 32 (k + 1) := by
  rw [BitVec.add_assoc, Nat.add_comm k 1, BitVec.ofNat_add]

/-- The next line. -/
theorem add_sixteen_add (x : BitVec 32) (k : ℕ) :
    x + 16#32 + BitVec.ofNat 32 (16 * k) = x + BitVec.ofNat 32 (16 * (k + 1)) := by
  rw [BitVec.add_assoc, Nat.mul_succ, Nat.add_comm (16 * k) 16, BitVec.ofNat_add]

/-- Addresses on the bus wrap at {lit}`2 ^ 25`. -/
theorem busAddr_add_toNat_mod (x : BitVec 32) (k : ℕ) :
    (busAddr (x + BitVec.ofNat 32 k)).toNat = (x.toNat + k) % 2 ^ 25 := by
  rw [busAddr, BitVec.toNat_setWidth, BitVec.toNat_add, BitVec.toNat_ofNat]
  omega

/-- The address lines of byte {lit}`k` of the UART buffer. -/
def bufferByte (k : ℕ) : BitVec 25 := busAddr (bufferLoc + BitVec.ofNat 32 k)

/-- The bytes of the buffer lie at {lit}`0x2000`. -/
theorem bufferByte_toNat {k : ℕ} (hk : k < 32) : (bufferByte k).toNat = 0x2000 + k :=
  busAddr_add_toNat (by change 0x2000 + k < 2 ^ 25; omega)

/-! ## What accesses keep -/

namespace Machine

variable {own : ℕ → List OwnAccess} {Q R : CachedMemory → Prop} {s : Machine} {ops : List MemOp}

/-- Accesses one after the other. -/
def accesses (own : ℕ → List OwnAccess) (ops : List MemOp) (s : Machine) : Machine :=
  ops.foldl (fun s op => s.access own op) s

/-- The stores of a {lit}`memcpy`. -/
def storeOps (x : BitVec 32) (bytes : List (BitVec 8)) : List MemOp :=
  bytes.mapIdx fun k b => storeOp (x + BitVec.ofNat 32 k) b

/-- The loads of a {lit}`memcpy`. -/
def loadOps (x : BitVec 32) (n : ℕ) : List MemOp :=
  (List.range n).map fun k => loadOp (x + BitVec.ofNat 32 k)

/-- The flushes of a range. -/
def flushOps (x : BitVec 32) (n : ℕ) : List MemOp :=
  (List.range n).map fun k => flushOp (x + BitVec.ofNat 32 (16 * k))

/-- {lit}`memcpy` to memory is a list of stores. -/
theorem memcpyTo_eq (x : BitVec 32) (bytes : List (BitVec 8)) (s : Machine) :
    s.memcpyTo own x bytes = s.accesses own (storeOps x bytes) := by
  induction bytes generalizing x s with
  | nil => rfl
  | cons b bytes ih =>
      rw [memcpyTo, ih, storeOps, storeOps, List.mapIdx_cons, BitVec.add_zero]
      simp only [add_one_add]
      rfl

/-- {lit}`memcpy` from memory is a list of loads. -/
theorem memcpyFrom_eq (x : BitVec 32) (n : ℕ) (s : Machine) :
    (s.memcpyFrom own x n).2 = s.accesses own (loadOps x n) := by
  induction n generalizing x s with
  | zero => rfl
  | succ n ih =>
      rw [memcpyFrom, ih, loadOps, loadOps, List.range_succ_eq_map, List.map_cons, List.map_map,
        BitVec.add_zero]
      simp only [add_one_add]
      rfl

/-- The loop over the lines is a list of flushes. -/
theorem flushLines_eq (x : BitVec 32) (n : ℕ) (s : Machine) :
    s.flushLines own x n = s.accesses own (flushOps x n) := by
  induction n generalizing x s with
  | zero => rfl
  | succ n ih =>
      rw [flushLines, ih, flushOps, flushOps, List.range_succ_eq_map, List.map_cons, List.map_map,
        Nat.mul_zero, BitVec.add_zero]
      simp only [add_sixteen_add]
      rfl

/-- A flush of a range performs the rounds of its loop. -/
theorem flushDcacheRange_eq_loop {start stop : BitVec 32} (hstop : stop.toNat + 16 ≤ 2 ^ 32) {n : ℕ}
    (hn : (stop.toNat - (start &&& 0xFFFFFFF0#32).toNat + 15) / 16 < n) (s : Machine) :
    (Sumeru.flushDcacheRange n start stop).map (fun xs => s.accesses own (xs.map flushOp)) =
      some (s.flushDcacheRange own start stop) := by
  rw [Sumeru.flushDcacheRange, flushLoop_eq hstop hn, flushDcacheRange, flushLines_eq,
    Option.map_some, List.map_map]
  rfl

/-- The own accesses of the program keep {lit}`Q`. -/
def OwnKeeps (own : ℕ → List OwnAccess) (Q : CachedMemory → Prop) : Prop :=
  ∀ t, ∀ x ∈ own t, ∀ m, Q m → Q (m.perform x.op)

/-- A pause changes what its own accesses change. -/
theorem pause_keeps (h : OwnKeeps own Q) (hq : Q s.memory) : Q (s.pause own).memory := by
  have hall : ∀ xs : List OwnAccess, (∀ x ∈ xs, ∀ m, Q m → Q (m.perform x.op)) → ∀ m, Q m →
      Q (xs.foldl (fun m x => m.perform x.op) m) := by
    intro xs
    induction xs with
    | nil =>
        intro _ m hm
        exact hm
    | cons x xs ih =>
        intro hxs m hm
        exact ih (fun y hy => hxs y (List.mem_cons_of_mem x hy)) _
          (hxs x List.mem_cons_self m hm)
  exact hall _ (h s.ticks) _ hq

/-- An access keeps what both the operation and the accesses around it keep. -/
theorem access_keeps (h : OwnKeeps own Q) {op : MemOp} (hop : ∀ m, Q m → Q (m.perform op))
    (hq : Q s.memory) : Q (s.access own op).memory :=
  hop _ (pause_keeps h hq)

/-- Accesses that keep {lit}`Q` one by one keep it together. -/
theorem accesses_keeps (h : OwnKeeps own Q) (hop : ∀ op ∈ ops, ∀ m, Q m → Q (m.perform op))
    (hq : Q s.memory) : Q (s.accesses own ops).memory := by
  induction ops generalizing s with
  | nil => exact hq
  | cons op ops ih =>
      refine ih (fun o ho => hop o (List.mem_cons_of_mem op ho)) ?_
      exact access_keeps h (hop op List.mem_cons_self) hq

/-- One of the accesses brings {lit}`R` about, and the others keep what they find. -/
theorem accesses_reach (hQ : OwnKeeps own Q) (hR : OwnKeeps own R) {op : MemOp} (hmem : op ∈ ops)
    (hreach : ∀ m, Q m → R (m.perform op)) (hopQ : ∀ o ∈ ops, ∀ m, Q m → Q (m.perform o))
    (hopR : ∀ o ∈ ops, ∀ m, R m → R (m.perform o)) (hq : Q s.memory) :
    R (s.accesses own ops).memory := by
  induction ops generalizing s with
  | nil => cases hmem
  | cons o ops ih =>
      have htailR : ∀ o' ∈ ops, ∀ m, R m → R (m.perform o') :=
        fun o' ho => hopR o' (List.mem_cons_of_mem o ho)
      rcases List.mem_cons.mp hmem with rfl | htail
      · exact accesses_keeps (s := s.access own op) hR htailR (hreach _ (pause_keeps hQ hq))
      · exact ih htail (fun o' ho => hopQ o' (List.mem_cons_of_mem o ho)) htailR
          (access_keeps hQ (hopQ o List.mem_cons_self) hq)

/-- A transmission reads memory only. -/
theorem transmit_keeps (h : OwnKeeps own Q) {x : BitVec 32} {n : ℕ} (hq : Q s.memory) :
    Q (s.transmit own x n).2.memory := by
  induction n generalizing x s with
  | zero => exact hq
  | succ n ih => exact ih (pause_keeps h hq)

/-- The stores of {lit}`memcpy`. -/
theorem mem_storeOps {x : BitVec 32} {bytes : List (BitVec 8)} {op : MemOp} :
    op ∈ storeOps x bytes ↔
      ∃ k, ∃ h : k < bytes.length, op = storeOp (x + BitVec.ofNat 32 k) bytes[k] := by
  rw [storeOps, List.mem_mapIdx]
  simp only [eq_comm]

/-- The loads of {lit}`memcpy`. -/
theorem mem_loadOps {x : BitVec 32} {n : ℕ} {op : MemOp} :
    op ∈ loadOps x n ↔ ∃ k < n, op = loadOp (x + BitVec.ofNat 32 k) := by
  rw [loadOps, List.mem_map]
  simp only [List.mem_range, eq_comm]

/-- The flushes of a range. -/
theorem mem_flushOps {x : BitVec 32} {n : ℕ} {op : MemOp} :
    op ∈ flushOps x n ↔ ∃ k < n, op = flushOp (x + BitVec.ofNat 32 (16 * k)) := by
  rw [flushOps, List.mem_map]
  simp only [List.mem_range, eq_comm]

/-! ### Values over a copy -/

/-- No own access of the program covers byte {lit}`a`. -/
def Foreign (own : ℕ → List OwnAccess) (a : BitVec 25) : Prop :=
  ∀ t, ∀ x ∈ own t, x.op.covers a = false

variable {a : BitVec 25} {v : BitVec 8}

/-- What the cache or memory holds at a foreign byte stays. -/
theorem Foreign.holds (h : Foreign own a) (v : BitVec 8) : OwnKeeps own fun m => m.Holds a v :=
  fun t x hx _ hm => hm.perform fun _ => h t x hx

/-- What memory holds at a foreign byte stays. -/
theorem Foreign.synced (h : Foreign own a) (v : BitVec 8) : OwnKeeps own fun m => m.Synced a v :=
  fun t x hx _ hm => hm.perform fun _ => h t x hx

/-- {lit}`memcpy` writes its bytes. -/
theorem memcpyTo_holds {x : BitVec 32} {bytes : List (BitVec 8)}
    (hx : bytes.length ≤ 2 ^ 25) {k : ℕ} (hk : k < bytes.length)
    (hown : Foreign own (busAddr (x + BitVec.ofNat 32 k))) :
    (s.memcpyTo own x bytes).memory.Holds (busAddr (x + BitVec.ofNat 32 k)) bytes[k] := by
  rw [memcpyTo_eq]
  refine accesses_reach (Q := fun _ => True) (fun _ _ _ _ _ => trivial) (hown.holds _)
    (mem_storeOps.mpr ⟨k, hk, rfl⟩) (fun m _ => holds_storeOp _ _ m) (fun _ _ _ _ => trivial) ?_
    trivial
  intro op hop m hm
  obtain ⟨i, hi, rfl⟩ := mem_storeOps.mp hop
  by_cases hik : i = k
  · subst hik
    exact holds_storeOp _ _ m
  · refine hm.perform fun _ => covers_storeOp_of_ne ?_ _
    intro heq
    have := congrArg BitVec.toNat heq
    rw [busAddr_add_toNat_mod, busAddr_add_toNat_mod] at this
    omega

/-- {lit}`memcpy` reads bytes as the program sees them. -/
theorem memcpyFrom_bytes {x : BitVec 32} {bytes : List (BitVec 8)}
    (hown : ∀ k < bytes.length, Foreign own (busAddr (x + BitVec.ofNat 32 k)))
    (h : ∀ k (hk : k < bytes.length),
      s.memory.Holds (busAddr (x + BitVec.ofNat 32 k)) bytes[k]) :
    (s.memcpyFrom own x bytes.length).1 = bytes := by
  induction bytes generalizing x s with
  | nil => rfl
  | cons b bytes ih =>
      have hload : ∀ k (hk : k < (b :: bytes).length), (s.access own (loadOp x)).memory.Holds
          (busAddr (x + BitVec.ofNat 32 k)) (b :: bytes)[k] := by
        intro k hk
        exact access_keeps ((hown k hk).holds _) (fun m hm => hm.perform (fun hst => by cases hst))
          (h k hk)
      have hfirst := hload 0 (by simp)
      rw [BitVec.add_zero] at hfirst
      rw [List.length_cons, memcpyFrom]
      dsimp only
      rw [hfirst.value, List.getElem_cons_zero]
      congr 1
      refine ih ?_ ?_
      · intro k hk
        rw [add_one_add]
        exact hown (k + 1) (by rw [List.length_cons]; omega)
      · intro k hk
        rw [add_one_add]
        exact hload (k + 1) (by rw [List.length_cons]; omega)

/-- The UART sends bytes that memory and cache agree on. -/
theorem transmit_bytes {x : BitVec 32} {bytes : List (BitVec 8)}
    (hown : ∀ k < bytes.length, Foreign own (busAddr (x + BitVec.ofNat 32 k)))
    (h : ∀ k (hk : k < bytes.length),
      s.memory.Synced (busAddr (x + BitVec.ofNat 32 k)) bytes[k]) :
    (s.transmit own x bytes.length).1 = bytes := by
  induction bytes generalizing x s with
  | nil => rfl
  | cons b bytes ih =>
      have hpause : ∀ k (hk : k < (b :: bytes).length), (s.pause own).memory.Synced
          (busAddr (x + BitVec.ofNat 32 k)) (b :: bytes)[k] :=
        fun k hk => pause_keeps ((hown k hk).synced _) (h k hk)
      have hfirst := hpause 0 (by simp)
      rw [BitVec.add_zero] at hfirst
      rw [List.length_cons, transmit]
      dsimp only
      rw [hfirst.mem, List.getElem_cons_zero]
      congr 1
      refine ih ?_ ?_
      · intro k hk
        rw [add_one_add]
        exact hown (k + 1) (by rw [List.length_cons]; omega)
      · intro k hk
        rw [add_one_add]
        exact hpause (k + 1) (by rw [List.length_cons]; omega)

/-! ## The UART buffer -/

/-- Lines of the buffer are not dirty. -/
def BufferClean (m : CachedMemory) : Prop := ∀ k < 32, m.dirtyAt (bufferByte k) = false

/-- Reads and replies of up to {lit}`n` bytes keep {lit}`Q`. -/
structure Undisturbed (own : ℕ → List OwnAccess) (n : ℕ) (Q : CachedMemory → Prop) : Prop where
  own : OwnKeeps own Q
  store : ∀ k < n, ∀ b m, Q m → Q (m.perform (storeOp (bufferLoc + BitVec.ofNat 32 k) b))
  load : ∀ k < n, ∀ m, Q m → Q (m.perform (loadOp (bufferLoc + BitVec.ofNat 32 k)))
  flush : ∀ k < n, ∀ m, Q m → Q (m.perform (flushOp (bufferLoc + BitVec.ofNat 32 k)))
  dma : ∀ k < n, ∀ b m, Q m → Q (m.dma (bufferByte k) b)

/-- A shorter prefix of the buffer disturbs less. -/
theorem Undisturbed.mono {n k : ℕ} (h : Undisturbed own n Q) (hk : k ≤ n) :
    Undisturbed own k Q where
  own := h.own
  store i hi := h.store i (by omega)
  load i hi := h.load i (by omega)
  flush i hi := h.flush i (by omega)
  dma i hi := h.dma i (by omega)

/-- The flush of the head of the buffer touches its lines. -/
theorem flushDcacheRange_buffer {len : ℕ} (hlen : len < 256) (s : Machine) :
    s.flushDcacheRange own bufferLoc (bufferLoc + BitVec.ofNat 32 len) =
      s.accesses own (flushOps bufferLoc ((len + 15) / 16)) := by
  have hstart : bufferLoc &&& 0xFFFFFFF0#32 = bufferLoc := by decide
  have hloc : bufferLoc.toNat = 0x2000 := rfl
  have hstop := add_ofNat_toNat (x := bufferLoc) (k := len) (by omega)
  have hcount : (0x2000 + len - 0x2000 + 15) / 16 = (len + 15) / 16 := by omega
  simp only [flushDcacheRange, flushLines_eq, hstart, hstop, hloc, hcount]

/-- The flushes of a range reach every line with a byte of it. -/
theorem mem_flushOps_buffer {k len : ℕ} (hk : k / 16 * 16 < len) :
    flushOp (bufferLoc + BitVec.ofNat 32 (k / 16 * 16)) ∈ flushOps bufferLoc ((len + 15) / 16) := by
  rw [mem_flushOps]
  exact ⟨k / 16, by omega, by rw [Nat.mul_comm]⟩

/-- Byte {lit}`k` of the buffer is in the line of that flush. -/
theorem flushOp_bufferByte {k : ℕ} (hk : k < 32) :
    lineOf (bufferByte k) = lineOf (flushOp (bufferLoc + BitVec.ofNat 32 (k / 16 * 16))).addr ∧
      tagOf (bufferByte k) ≠ tagOf (flushOp (bufferLoc + BitVec.ofNat 32 (k / 16 * 16))).addr := by
  have hsame : (bufferByte k).toNat / 16 = (bufferByte (k / 16 * 16)).toNat / 16 := by
    rw [bufferByte_toNat hk, bufferByte_toNat (by omega)]
    omega
  obtain ⟨hl, ht⟩ := (sameLine_iff _ _).mpr hsame
  refine ⟨hl.trans (lineOf_flushOp _).symm, ?_⟩
  rw [ht]
  exact tagOf_flushOp _

/-- The code of the loader does not touch the buffer. -/
theorem foreign_bufferByte {k : ℕ} (hk : k < 32) : Foreign own (bufferByte k) := by
  intro t x hx
  rw [← Bool.not_eq_true]
  intro hcov
  have h := (x.own _ hcov).2
  rw [bufferByte_toNat hk] at h
  omega

/-- A store of the program to its own data misses the lines of the buffer. -/
theorem size_eq_zero_of_own (x : OwnAccess) {k : ℕ} (hk : k < 32)
    (hl : lineOf (bufferByte k) = lineOf x.op.addr) (ht : tagOf (bufferByte k) = tagOf x.op.addr) :
    x.op.size = 0 := by
  by_contra hne
  have hcov : x.op.covers x.op.addr = true := by
    rw [MemOp.covers, decide_eq_true_eq, BitVec.sub_self]
    exact Nat.pos_of_ne_zero hne
  have hown := (x.own _ hcov).2
  have hsame := (sameLine_iff _ _).mp ⟨hl, ht⟩
  rw [bufferByte_toNat hk] at hsame
  omega

/-- Its accesses leave a delivered byte alone. -/
theorem ownKeeps_delivered {k : ℕ} (hk : k < 32) (v : BitVec 8) :
    OwnKeeps own fun m => m.Delivered (bufferByte k) v :=
  fun _ x _ _ hm => hm.perform fun _ hl ht => size_eq_zero_of_own x hk hl ht

/-- An operation makes only its own line dirty. -/
theorem dirtyAt_perform {m : CachedMemory} {op : MemOp} (h : m.dirtyAt a = false)
    (hop : op.store = true → lineOf a = lineOf op.addr → tagOf a = tagOf op.addr → op.size = 0) :
    (m.perform op).dirtyAt a = false :=
  (CachedMemory.Delivered.perform ⟨rfl, h⟩ hop).clean

/-- Its accesses leave the buffer clean. -/
theorem ownKeeps_clean {k : ℕ} (hk : k < 32) :
    OwnKeeps own fun m => m.dirtyAt (bufferByte k) = false :=
  fun _ x _ _ hm => dirtyAt_perform hm fun _ hl ht => size_eq_zero_of_own x hk hl ht

/-- A flush leaves no dirty line behind. -/
theorem dirtyAt_flushOp {k : ℕ} (hk : k < 32) (m : CachedMemory) :
    (m.perform (flushOp (bufferLoc + BitVec.ofNat 32 (k / 16 * 16)))).dirtyAt (bufferByte k) =
      false := by
  obtain ⟨hl, ht⟩ := flushOp_bufferByte hk
  have hstore : (flushOp (bufferLoc + BitVec.ofNat 32 (k / 16 * 16))).store = true := rfl
  obtain ⟨ln, hat⟩ := CachedMemory.lineAt_perform (s := m) (.inl hstore)
  exact CachedMemory.dirtyAt_of_absent (CachedMemory.lineAt_of_conflict hat hl ht)

/-! ### Reads -/

/-- The bytes of a read, one by one. -/
def dmaBytes (own : ℕ → List OwnAccess) : ℕ → List (BitVec 8) → Machine → Machine
  | _, [], s => s
  | k, b :: bytes, s => dmaBytes own (k + 1) bytes (s.dma own (bufferLoc + BitVec.ofNat 32 k) b)

/-- The DMA writes of a frame keep what each of them keeps. -/
theorem dmaBytes_keeps (h : OwnKeeps own Q) {k : ℕ} {bytes : List (BitVec 8)}
    (hdma : ∀ i, k ≤ i → i < k + bytes.length → ∀ b m, Q m → Q (m.dma (bufferByte i) b))
    (hq : Q s.memory) : Q (s.dmaBytes own k bytes).memory := by
  induction bytes generalizing k s with
  | nil => exact hq
  | cons b bytes ih =>
      rw [List.length_cons] at hdma
      refine ih (fun i h1 h2 => hdma i (by omega) (by omega)) ?_
      exact hdma k le_rfl (by omega) b _ (pause_keeps h hq)

/-- The bytes of a read are in memory, one after the other. -/
theorem dmaBytes_delivered (own : ℕ → List OwnAccess) {k : ℕ} {bytes : List (BitVec 8)} (hlen : k + bytes.length ≤ 32)
    (hclean : BufferClean s.memory) {i : ℕ} (hi : i < bytes.length) :
    (s.dmaBytes own k bytes).memory.Delivered (bufferByte (k + i)) bytes[i] := by
  induction bytes generalizing k i s with
  | nil => simp at hi
  | cons b bytes ih =>
      rw [List.length_cons] at hlen hi
      have hpause : BufferClean (s.pause own).memory :=
        fun j hj => pause_keeps (ownKeeps_clean hj) (hclean j hj)
      cases i with
      | zero =>
          rw [Nat.add_zero, List.getElem_cons_zero, dmaBytes]
          refine dmaBytes_keeps (ownKeeps_delivered (by omega) b) ?_ ?_
          · intro j h1 h2 c m hm
            refine hm.dma ?_ c
            intro heq
            have := congrArg BitVec.toNat heq
            rw [bufferByte_toNat (by omega), bufferByte_toNat (by omega)] at this
            omega
          · exact CachedMemory.delivered_dma (hpause k (by omega))
      | succ i =>
          have hnext := ih (k := k + 1) (s := s.dma own (bufferLoc + BitVec.ofNat 32 k) b) (by omega)
            hpause (show i < bytes.length by omega)
          rwa [Nat.add_right_comm] at hnext

/-- A read that was delivered returns its bytes. -/
theorem finishRead_bytes (own : ℕ → List OwnAccess) {bytes : List (BitVec 8)} (hlen : bytes.length ≤ 32)
    (h : ∀ k (hk : k < bytes.length), s.memory.Delivered (bufferByte k) bytes[k]) :
    (s.finishRead own bytes.length).1 = bytes := by
  rw [finishRead, flushDcacheRange_buffer (by omega)]
  refine memcpyFrom_bytes (fun k hk => foreign_bufferByte (by omega)) ?_
  intro k hk
  obtain ⟨hl, ht⟩ := flushOp_bufferByte (show k < 32 by omega)
  refine (accesses_reach (ownKeeps_delivered (by omega) _)
    ((foreign_bufferByte (by omega)).synced bytes[k])
    (mem_flushOps_buffer (k := k) (by omega))
    (fun m hm => hm.synced_of_conflict hl ht (.inl rfl)) ?_ ?_ (h k hk)).holds
  · intro op hop m hm
    obtain ⟨i, -, rfl⟩ := mem_flushOps.mp hop
    exact hm.perform fun _ _ _ => rfl
  · intro op hop m hm
    obtain ⟨i, -, rfl⟩ := mem_flushOps.mp hop
    exact hm.perform fun _ => covers_flushOp _ _

/-- The flushes of a read keep what is not disturbed. -/
theorem Undisturbed.flushes {n len : ℕ} (h : Undisturbed own n Q) (hlen : len ≤ n) {op : MemOp}
    (hop : op ∈ flushOps bufferLoc ((len + 15) / 16)) (m : CachedMemory) (hm : Q m) :
    Q (m.perform op) := by
  obtain ⟨i, hi, rfl⟩ := mem_flushOps.mp hop
  exact h.flush (16 * i) (by omega) m hm

/-- A read keeps what is not disturbed. -/
theorem Undisturbed.finishRead {n len : ℕ} (h : Undisturbed own n Q) (hlen : len ≤ n)
    (hn : n ≤ 32) (hq : Q s.memory) : Q (s.finishRead own len).2.memory := by
  rw [Machine.finishRead, memcpyFrom_eq, flushDcacheRange_buffer (by omega)]
  refine accesses_keeps h.own ?_ (accesses_keeps h.own (fun op hop => h.flushes hlen hop) hq)
  intro op hop m hm
  obtain ⟨k, hk, rfl⟩ := mem_loadOps.mp hop
  exact h.load k (by omega) m hm

/-- A read leaves the buffer clean. -/
theorem finishRead_clean {len : ℕ} (hlen : len ≤ 32) (h : BufferClean s.memory) :
    BufferClean (s.finishRead own len).2.memory := by
  intro k hk
  rw [finishRead, memcpyFrom_eq, flushDcacheRange_buffer (by omega)]
  refine accesses_keeps (Q := fun m => m.dirtyAt (bufferByte k) = false) (ownKeeps_clean hk) ?_
    (accesses_keeps (Q := fun m => m.dirtyAt (bufferByte k) = false) (ownKeeps_clean hk) ?_ (h k hk))
  · intro op hop m hm
    obtain ⟨i, -, rfl⟩ := mem_loadOps.mp hop
    exact dirtyAt_perform hm fun hst => by cases hst
  · intro op hop m hm
    obtain ⟨i, -, rfl⟩ := mem_flushOps.mp hop
    exact dirtyAt_perform hm fun _ _ _ => rfl

/-! ### Replies -/

/-- A write copies the bytes to the buffer, flushes them and transmits them. -/
theorem uart0BlockingWrite_eq {bytes : List (BitVec 8)} (hlen : bytes.length < 256) (s : Machine) :
    s.uart0BlockingWrite own bytes =
      ((s.accesses own (storeOps bufferLoc bytes)).accesses own
        (flushOps bufferLoc ((bytes.length + 15) / 16))).transmit own bufferLoc bytes.length := by
  rw [uart0BlockingWrite, Nat.mod_eq_of_lt hlen, List.take_length, memcpyTo_eq,
    flushDcacheRange_buffer hlen]

/-- A reply reaches the line. -/
theorem uart0BlockingWrite_bytes {bytes : List (BitVec 8)} (hlen : bytes.length ≤ 32) :
    (s.uart0BlockingWrite own bytes).1 = bytes := by
  rw [uart0BlockingWrite_eq (by omega)]
  refine transmit_bytes (fun k hk => foreign_bufferByte (by omega)) ?_
  intro k hk
  have hforeign : Foreign own (bufferByte k) := foreign_bufferByte (by omega)
  have hholds := memcpyTo_holds (s := s) (by omega) hk hforeign
  rw [memcpyTo_eq] at hholds
  obtain ⟨hl, ht⟩ := flushOp_bufferByte (show k < 32 by omega)
  refine accesses_reach (hforeign.holds _) (hforeign.synced _)
    (mem_flushOps_buffer (k := k) (by omega))
    (fun m hm => hm.synced_of_conflict hl ht (.inl rfl) fun _ => covers_flushOp _ _) ?_ ?_ hholds
  · intro op hop m hm
    obtain ⟨i, -, rfl⟩ := mem_flushOps.mp hop
    exact hm.perform fun _ => covers_flushOp _ _
  · intro op hop m hm
    obtain ⟨i, -, rfl⟩ := mem_flushOps.mp hop
    exact hm.perform fun _ => covers_flushOp _ _

/-- A write keeps what is not disturbed. -/
theorem Undisturbed.uart0BlockingWrite {n : ℕ} (h : Undisturbed own n Q) {bytes : List (BitVec 8)}
    (hlen : bytes.length ≤ n) (hn : n ≤ 32) (hq : Q s.memory) :
    Q (s.uart0BlockingWrite own bytes).2.memory := by
  rw [uart0BlockingWrite_eq (by omega)]
  refine transmit_keeps h.own (accesses_keeps h.own (fun op hop => h.flushes hlen hop)
    (accesses_keeps h.own ?_ hq))
  intro op hop m hm
  obtain ⟨k, hk, rfl⟩ := mem_storeOps.mp hop
  exact h.store k (by omega) _ m hm

/-- A reply flushes the lines it wrote. -/
theorem uart0BlockingWrite_clean {bytes : List (BitVec 8)} (hlen : bytes.length ≤ 32)
    (h : BufferClean s.memory) : BufferClean (s.uart0BlockingWrite own bytes).2.memory := by
  intro k hk
  rw [uart0BlockingWrite_eq (by omega)]
  refine transmit_keeps (Q := fun m => m.dirtyAt (bufferByte k) = false) (ownKeeps_clean hk) ?_
  have hflush : ∀ op ∈ flushOps bufferLoc ((bytes.length + 15) / 16), ∀ m : CachedMemory,
      m.dirtyAt (bufferByte k) = false → (m.perform op).dirtyAt (bufferByte k) = false := by
    intro op hop m hm
    obtain ⟨i, -, rfl⟩ := mem_flushOps.mp hop
    exact dirtyAt_perform hm fun _ _ _ => rfl
  by_cases hline : k / 16 * 16 < bytes.length
  · exact accesses_reach (Q := fun _ => True) (fun _ _ _ _ _ => trivial) (ownKeeps_clean hk)
      (mem_flushOps_buffer hline) (fun m _ => dirtyAt_flushOp hk m) (fun _ _ _ _ => trivial) hflush
      trivial
  · -- the reply is shorter than the first line
    refine accesses_keeps (Q := fun m => m.dirtyAt (bufferByte k) = false) (ownKeeps_clean hk) hflush
      (accesses_keeps (Q := fun m => m.dirtyAt (bufferByte k) = false) (ownKeeps_clean hk) ?_ (h k hk))
    intro op hop m hm
    obtain ⟨i, hi, rfl⟩ := mem_storeOps.mp hop
    refine dirtyAt_perform hm fun _ hl ht => ?_
    have hsame := (sameLine_iff _ _).mp ⟨hl, ht⟩
    change _ = (bufferByte i).toNat / 16 at hsame
    rw [bufferByte_toNat hk, bufferByte_toNat (by omega)] at hsame
    omega

end Machine

end Sumeru
