import Sumeru.Bootloader.BootCommands
import Sumeru.Library.Traced

/-!
# Sumeru - Command buffer

The local {lit}`buf` of {lit}`main` in {lit}`boot.c`, with every index that {lit}`main` and the functions it
calls read or write.  The array has sixteen bytes.  A {lit}`'w'` reads seventeen bytes into
it and an {lit}`'r'` puts its checksum behind the sixteen bytes it copied, so both use
index 16; the other commands stay below.

Main results:

- Theorem {lit}`CommandBuffer.run_result`: without the indices this is the boot ROM.
- Theorem {lit}`CommandBuffer.indices_lt_seventeen`: no index is above 16.
- Theorem {lit}`boot_buffer_in_bounds_iff`: the indices are in the array if and only if the stream has
  no {lit}`'r'` and no whole {lit}`'w'`.
-/

namespace Sumeru

namespace CommandBuffer

open Traced

/-- {lit}`compute_16b_cksum`. -/
def compute16bCksum : Traced (BitVec 8) (BitVec 32) :=
  (List.range 16).foldlM (fun c i => do
    let b ← load i
    return c ^^^ b.setWidth 32) 0#32

/-- One round of {lit}`conv_5b_to_int`. -/
def convRound (acc : BitVec 32 × BitVec 32) (i : ℕ) :
    Traced (BitVec 8) (BitVec 32 × BitVec 32) := do
  let b ← load i
  let num := acc.1 ||| b.setWidth 32 <<< (8 * i)
  let b ← load i
  return (num, acc.2 ^^^ b.setWidth 32)

/-- {lit}`conv_5b_to_int`. -/
def conv5bToInt : Traced (BitVec 8) (Option (BitVec 32)) := do
  let acc ← (List.range 4).foldlM convRound (0#32, 0#32)
  let b ← load 4
  return if acc.2.setWidth 8 = b then some acc.1 else none

variable (own : ℕ → List OwnAccess)

/-- {lit}`uart0_blocking_read` when its bytes have arrived. -/
def uart0BlockingRead (s : Boot) : Traced (BitVec 8) Boot := do
  let read := s.machine.finishRead own s.got
  copyIn 0 read.1
  return { s with machine := read.2, got := 0 }

/-- {lit}`uart0_blocking_write`. -/
def uart0BlockingWrite (len : ℕ) (s : Boot) : Traced (BitVec 8) Boot := do
  let bytes ← copyOut 0 (len % 256)
  return s.reply own bytes

/-- A reply of one byte. -/
def answer (b : BitVec 8) (s : Boot) : Traced (BitVec 8) Boot := do
  store 0 b
  uart0BlockingWrite own 1 s

/-- The command {lit}`'a'` with its bytes. -/
def runAddress (s : Boot) : Traced (BitVec 8) Boot := do
  match ← conv5bToInt with
  | some num => answer own replyOk { s with memPtr := num }
  | none => answer own Boot.replyError s

/-- The command {lit}`'w'` with its bytes. -/
def runWrite (s : Boot) : Traced (BitVec 8) Boot := do
  let cksum ← compute16bCksum
  let b ← load 16
  if cksum = b.setWidth 32 then
    let bytes ← copyOut 0 16
    let machine := s.machine.memcpyTo own s.memPtr bytes
    let machine := machine.flushDcacheLine own s.memPtr
    answer own replyOk { s with machine := machine, memPtr := s.memPtr + 16#32 }
  else answer own Boot.replyError s

/-- The command {lit}`'r'`. -/
def runRead (s : Boot) : Traced (BitVec 8) Boot := do
  let copied := s.machine.memcpyFrom own s.memPtr 16
  copyIn 0 copied.1
  let cksum ← compute16bCksum
  store 16 (cksum.setWidth 8)
  uart0BlockingWrite own 17 { s with machine := copied.2, memPtr := s.memPtr + 16#32 }

/-- The command {lit}`'j'`. -/
def runJump (s : Boot) : Traced (BitVec 8) Boot := do
  let s ← answer own replyOk s
  let machine := s.machine.pause own
  return { s with machine := machine, jumped := some (s.memPtr, machine.memory.mem) }

/-- The switch of {lit}`main`. -/
def dispatch (command : BitVec 8) (s : Boot) : Traced (BitVec 8) Boot :=
  if command = 0x61#8 then pure { s with reading := .address }
  else if command = 0x77#8 then pure { s with reading := .data }
  else if command = 0x72#8 then runRead own s
  else if command = 0x76#8 then answer own 0x31#8 s
  else if command = 0x6A#8 then runJump own s
  else answer own Boot.replyError s

/-- The program goes on after a read. -/
def proceed (s : Boot) : Traced (BitVec 8) Boot := do
  match s.reading with
  | .command =>
      let command ← load 0
      dispatch own command s
  | .address => runAddress own s
  | .data => runWrite own s

/-- A read is complete. -/
def complete (s : Boot) : Traced (BitVec 8) Boot := do
  let s ← uart0BlockingRead own s
  proceed own s

/-- The UART takes a byte of the line. -/
def receive (s : Boot) (b : BitVec 8) : Traced (BitVec 8) Boot :=
  if s.jumped.isSome then pure s
  else
    let s' := { s with
      machine := s.machine.dma own (bufferLoc + BitVec.ofNat 32 s.got) b
      got := s.got + 1 }
    if s'.got = s.reading.length then complete own s' else pure s'

/-- The indices of {lit}`buf` used on a stream, if {lit}`buf` and what lies behind it first are
{lit}`cells`. -/
def indices (mem : ByteMem) (cells : ℕ → BitVec 8) (stream : List (BitVec 8)) : List ℕ :=
  (stream.foldlM (receive own) (Boot.init mem)).indices cells

/-! ## Results -/

variable {own} {s : Boot} {c : ℕ → BitVec 8} {buf : List (BitVec 8)}

/-- With indices the checksum is the same. -/
theorem compute16bCksum_result (c : ℕ → BitVec 8) :
    compute16bCksum.result c = Boot.compute16bCksum ((List.range 16).map c) :=
  rfl

/-- The checksum does not write to the buffer. -/
theorem compute16bCksum_cells (c : ℕ → BitVec 8) : compute16bCksum.cells c = c :=
  rfl

/-- The checksum reads 16 bytes. -/
theorem compute16bCksum_indices (c : ℕ → BitVec 8) : compute16bCksum.indices c = List.range 16 :=
  rfl

/-- With indices the address is the same. -/
theorem conv5bToInt_result (c : ℕ → BitVec 8) :
    conv5bToInt.result c = Boot.conv5bToInt ((List.range 5).map c) :=
  rfl

/-- The indices behind the address: its checksum is in byte 4. -/
theorem conv5bToInt_indices (c : ℕ → BitVec 8) :
    conv5bToInt.indices c = [0, 0, 1, 1, 2, 2, 3, 3, 4] :=
  rfl

/-- An answer uses the first byte. -/
theorem answer_indices (b : BitVec 8) (s : Boot) (c : ℕ → BitVec 8) :
    (answer own b s).indices c = [0, 0] :=
  rfl

/-- Cells that hold a list. -/
theorem map_range_cells (h : ∀ k (hk : k < buf.length), c k = buf[k]) {n : ℕ}
    (hn : n ≤ buf.length) : (List.range n).map c = buf.take n := by
  apply List.ext_getElem
  · simp [hn]
  · intro k hk hk'
    rw [List.length_map, List.length_range] at hk
    rw [List.getElem_map, List.getElem_range, List.getElem_take, h k (by omega)]

/-- {lit}`memcpy` yields as many bytes as asked for. -/
theorem memcpyFrom_length (own : ℕ → List OwnAccess) (x : BitVec 32) (n : ℕ) (m : Machine) :
    (m.memcpyFrom own x n).1.length = n := by
  induction n generalizing x m with
  | zero => rfl
  | succ n ih => rw [Machine.memcpyFrom, List.length_cons, ih]

/-- With indices {lit}`a` does the same. -/
theorem runAddress_result (s : Boot) (c : ℕ → BitVec 8) :
    (runAddress own s).result c = s.runAddress own ((List.range 5).map c) := by
  rw [runAddress, result_bind, conv5bToInt_result, Boot.runAddress]
  cases Boot.conv5bToInt ((List.range 5).map c) with
  | none => rfl
  | some num => rfl

/-- With indices {lit}`w` does the same. -/
theorem runWrite_result (s : Boot) (c : ℕ → BitVec 8) :
    (runWrite own s).result c = s.runWrite own ((List.range 17).map c) := by
  have hsum : compute16bCksum.result c = Boot.compute16bCksum ((List.range 17).map c) := rfl
  have hlast : ((List.range 17).map c).getD 16 0#8 = c 16 := rfl
  have htake : ((List.range 17).map c).take 16 = (List.range' 0 16).map c := rfl
  rw [runWrite, result_bind, compute16bCksum_cells, result_bind, result_load, cells_load, hsum,
    Boot.runWrite, hlast]
  split
  · rw [result_bind, copyOut_result, copyOut_cells, htake]
    rfl
  · rfl

/-- With indices {lit}`r` does the same. -/
theorem runRead_result (s : Boot) (c : ℕ → BitVec 8) :
    (runRead own s).result c = s.runRead own := by
  have hlen := memcpyFrom_length own s.memPtr 16 s.machine
  rw [runRead, Boot.runRead]
  -- the copy is not to be unfolded
  generalize s.machine.memcpyFrom own s.memPtr 16 = copied at *
  have hcells : ∀ k (hk : k < copied.1.length), (copyIn 0 copied.1).cells c k = copied.1[k] := by
    intro k hk
    have hcell := copyIn_cells 0 copied.1 c hk
    rwa [Nat.zero_add] at hcell
  have hcopied : (List.range 16).map ((copyIn 0 copied.1).cells c) = copied.1 := by
    rw [map_range_cells hcells hlen.ge, ← hlen, List.take_length]
  have hsum : compute16bCksum.result ((copyIn 0 copied.1).cells c) =
      Boot.compute16bCksum copied.1 := by
    rw [compute16bCksum_result, hcopied]
  have hbytes : ∀ b, (List.range' 0 17).map
      (Function.update ((copyIn 0 copied.1).cells c) 16 b) = copied.1 ++ [b] := by
    intro b
    have hrange : List.range' 0 17 = List.range 16 ++ [16] := rfl
    have hfirst : (List.range 16).map (Function.update ((copyIn 0 copied.1).cells c) 16 b) =
        copied.1 := by
      refine Eq.trans (List.map_congr_left fun k hk => ?_) hcopied
      exact Function.update_of_ne (List.mem_range.mp hk).ne ..
    rw [hrange, List.map_append, List.map_singleton, Function.update_self, hfirst]
  rw [result_bind, result_bind, result_bind, compute16bCksum_cells, cells_store, hsum,
    uart0BlockingWrite, result_bind, copyOut_result, hbytes, result_pure]

/-- With indices a command byte does the same. -/
theorem dispatch_result (command : BitVec 8) (s : Boot) (c : ℕ → BitVec 8) :
    (dispatch own command s).result c = s.dispatch own command := by
  rw [dispatch, Boot.dispatch]
  split_ifs
  · rfl
  · rfl
  · exact runRead_result s c
  · rfl
  · rfl
  · rfl

/-- With indices a whole payload does the same. -/
theorem proceed_result (hlen : buf.length = s.reading.length)
    (h : ∀ k (hk : k < buf.length), c k = buf[k]) :
    (proceed own s).result c = s.proceed own buf := by
  have hmap : (List.range s.reading.length).map c = buf := by
    rw [map_range_cells h hlen.ge, ← hlen, List.take_length]
  rw [proceed, Boot.proceed]
  cases hr : s.reading with
  | command =>
      rw [hr] at hmap
      rw [result_bind, dispatch_result, ← hmap]
      rfl
  | address =>
      rw [hr] at hmap
      rw [runAddress_result, ← hmap]
      rfl
  | data =>
      rw [hr] at hmap
      rw [runWrite_result, ← hmap]
      rfl

/-- The cells after a read. -/
theorem copyIn_finishRead (s : Boot) (c : ℕ → BitVec 8) {k : ℕ}
    (hk : k < (s.machine.finishRead own s.got).1.length) :
    (copyIn 0 (s.machine.finishRead own s.got).1).cells c k =
      (s.machine.finishRead own s.got).1[k] := by
  have hcell := copyIn_cells 0 (s.machine.finishRead own s.got).1 c hk
  rwa [Nat.zero_add] at hcell

/-- A read yields as many bytes as asked for. -/
theorem finishRead_length (n : ℕ) (m : Machine) : (m.finishRead own n).1.length = n :=
  memcpyFrom_length ..

/-- With indices the end of a read does the same. -/
theorem complete_result (hgot : s.got = s.reading.length) (c : ℕ → BitVec 8) :
    (complete own s).result c = s.complete own := by
  rw [complete, result_bind, Boot.complete]
  exact proceed_result ((finishRead_length _ _).trans hgot) fun k hk => copyIn_finishRead s c hk

/-- With indices a byte from the line does the same. -/
theorem receive_result (s : Boot) (b : BitVec 8) (c : ℕ → BitVec 8) :
    (receive own s b).result c = s.receive own b := by
  rw [receive, Boot.receive]
  by_cases hj : s.jumped.isSome
  · rw [if_pos hj, if_pos hj, result_pure]
  · rw [if_neg hj, if_neg hj]
    dsimp only
    split_ifs with hgot
    · exact complete_result hgot c
    · rfl

/-- Without the indices this is the boot ROM. -/
theorem run_result (own : ℕ → List OwnAccess) (mem : ByteMem) (stream : List (BitVec 8))
    (c : ℕ → BitVec 8) :
    (stream.foldlM (receive own) (Boot.init mem)).result c = Boot.run own mem stream :=
  result_foldlM receive_result stream _ c

/-! ## Indices -/

/-- The indices behind {lit}`a`. -/
theorem runAddress_indices (s : Boot) (c : ℕ → BitVec 8) :
    (runAddress own s).indices c = [0, 0, 1, 1, 2, 2, 3, 3, 4, 0, 0] := by
  rw [runAddress, indices_bind, conv5bToInt_indices]
  cases conv5bToInt.result c with
  | none => rfl
  | some num => rfl

/-- The indices behind {lit}`r`: byte 16 is the checksum. -/
theorem runRead_indices (s : Boot) (c : ℕ → BitVec 8) :
    (runRead own s).indices c = List.range' 0 16 ++ (List.range 16 ++ ([16] ++ List.range' 0 17)) := by
  have hlen := memcpyFrom_length own s.memPtr 16 s.machine
  rw [runRead]
  generalize s.machine.memcpyFrom own s.memPtr 16 = copied at *
  rw [indices_bind, copyIn_indices, hlen, indices_bind, compute16bCksum_indices, indices_bind,
    indices_store, uart0BlockingWrite, indices_bind, copyOut_indices, indices_pure, List.append_nil]

/-- Of the commands of one byte only {lit}`'r'` uses more than the first byte. -/
theorem dispatch_indices {command : BitVec 8} (h : command ≠ 0x72#8) (s : Boot)
    (c : ℕ → BitVec 8) : ∀ i ∈ (dispatch own command s).indices c, i = 0 := by
  rw [dispatch]
  split_ifs
  · simp
  · simp
  · simp [answer_indices]
  · rw [runJump, indices_bind, answer_indices, indices_pure]
    simp
  · simp [answer_indices]

/-- The indices behind {lit}`w` are below 17. -/
theorem runWrite_indices (s : Boot) (c : ℕ → BitVec 8) :
    ∀ i ∈ (runWrite own s).indices c, i < 17 := by
  rw [runWrite, indices_bind, compute16bCksum_indices, indices_bind, indices_load]
  split_ifs
  · rw [indices_bind, copyOut_indices, answer_indices]
    decide
  · rw [answer_indices]
    decide

/-- The indices behind a payload are below 17. -/
theorem proceed_indices (s : Boot) (c : ℕ → BitVec 8) :
    ∀ i ∈ (proceed own s).indices c, i < 17 := by
  rw [proceed]
  cases s.reading with
  | command =>
      intro i hi
      rw [indices_bind, indices_load, result_load, List.mem_append] at hi
      rcases hi with hi | hi
      · rw [List.mem_singleton.mp hi]
        decide
      · by_cases hr : c 0 = 0x72#8
        · rw [hr] at hi
          change i ∈ (runRead own s).indices c at hi
          rw [runRead_indices] at hi
          revert i
          decide
        · rw [dispatch_indices hr s _ i hi]
          decide
  | address =>
      rw [runAddress_indices]
      decide
  | data => exact runWrite_indices s c

/-- The last byte of a read fills the buffer up to there. -/
theorem complete_indices (s : Boot) (c : ℕ → BitVec 8) :
    (complete own s).indices c = List.range' 0 s.got ++
      (proceed own { s with machine := (s.machine.finishRead own s.got).2, got := 0 }).indices
        ((copyIn 0 (s.machine.finishRead own s.got).1).cells c) := by
  rw [complete, indices_bind, uart0BlockingRead, indices_bind, copyIn_indices, finishRead_length,
    indices_pure, List.append_nil]
  rfl

/-! ## Streams -/

/-- After the jump the buffer is not used. -/
theorem receive_of_jumped (hj : s.jumped.isSome = true) (b : BitVec 8) :
    receive own s b = pure s := by
  rw [receive, if_pos hj]

/-- Before the last byte nothing is done. -/
theorem receive_of_missing (hj : s.jumped = none) (hgot : s.got + 1 ≠ s.reading.length)
    (b : BitVec 8) :
    receive own s b = pure { s with
      machine := s.machine.dma own (bufferLoc + BitVec.ofNat 32 s.got) b
      got := s.got + 1 } := by
  simp [receive, hj, hgot]

/-- The last byte starts the work on the buffer. -/
theorem receive_of_last (hj : s.jumped = none) (hgot : s.got + 1 = s.reading.length)
    (b : BitVec 8) :
    receive own s b = complete own { s with
      machine := s.machine.dma own (bufferLoc + BitVec.ofNat 32 s.got) b
      got := s.got + 1 } := by
  simp [receive, hj, hgot]

/-- The array is left by one byte at most. -/
theorem indices_lt_seventeen (own : ℕ → List OwnAccess) (mem : ByteMem) (cells : ℕ → BitVec 8)
    (stream : List (BitVec 8)) : ∀ i ∈ indices own mem cells stream, i < 17 := by
  refine indices_foldlM (fun s b c => ?_) stream _ cells
  intro i hi
  cases hj : s.jumped with
  | some target =>
      rw [receive_of_jumped (by rw [hj]; rfl)] at hi
      cases hi
  | none =>
      by_cases hgot : s.got + 1 = s.reading.length
      · have hmax : s.reading.length ≤ 17 := by
          cases s.reading <;> decide
        rw [receive_of_last hj hgot, complete_indices, List.mem_append] at hi
        rcases hi with hi | hi
        · rw [List.mem_range'_1] at hi
          dsimp only at hi
          omega
        · exact proceed_indices _ _ i hi
      · rw [receive_of_missing hj hgot] at hi
        cases hi

/-- After the jump nothing is received. -/
theorem foldlM_of_jumped (hj : s.jumped.isSome = true) (stream : List (BitVec 8)) :
    stream.foldlM (receive own) s = pure s := by
  induction stream with
  | nil => rfl
  | cons b stream ih => rw [List.foldlM_cons, receive_of_jumped hj, pure_bind, ih]

/-- Fewer bytes than a read waits for do not reach the array. -/
theorem foldlM_of_missing (hj : s.jumped = none) {bytes : List (BitVec 8)}
    (hlen : s.got + bytes.length < s.reading.length) (c : ℕ → BitVec 8) :
    (bytes.foldlM (receive own) s).indices c = [] := by
  induction bytes generalizing s with
  | nil => rfl
  | cons b bytes ih =>
      rw [List.length_cons] at hlen
      rw [List.foldlM_cons, receive_of_missing hj (by omega), pure_bind]
      refine ih (s := { s with
        machine := s.machine.dma own (bufferLoc + BitVec.ofNat 32 s.got) b
        got := s.got + 1 }) hj ?_
      change s.got + 1 + bytes.length < s.reading.length
      omega

/-- The bytes of a read, and then the program goes on. -/
theorem foldlM_of_read (hj : s.jumped = none) {bytes : List (BitVec 8)} (hne : bytes ≠ [])
    (hlen : s.got + bytes.length = s.reading.length) :
    bytes.foldlM (receive own) s =
      complete own { s with
        machine := s.machine.dmaBytes own s.got bytes
        got := s.reading.length } := by
  induction bytes generalizing s with
  | nil => exact absurd rfl hne
  | cons b bytes ih =>
      rw [List.length_cons] at hlen
      cases bytes with
      | nil =>
          have hgot : s.got + 1 = s.reading.length := by simpa using hlen
          rw [List.foldlM_cons, receive_of_last hj hgot, hgot]
          exact bind_pure _
      | cons b' bytes =>
          rw [List.length_cons] at hlen
          rw [List.foldlM_cons, receive_of_missing hj (by omega), pure_bind]
          refine (ih (s := { s with
            machine := s.machine.dma own (bufferLoc + BitVec.ofNat 32 s.got) b
            got := s.got + 1 }) hj (by simp) ?_).trans rfl
          rw [List.length_cons]
          change s.got + 1 + _ = s.reading.length
          omega

/-- The indices of a read and of what follows. -/
theorem read_indices (h : s.Ready) {bytes : List (BitVec 8)}
    (hlen : bytes.length = s.reading.length) (c : ℕ → BitVec 8) :
    ∃ (s' : Boot) (c' : ℕ → BitVec 8), s'.reading = s.reading ∧
      (∀ k (hk : k < bytes.length), c' k = bytes[k]) ∧
      (bytes.foldlM (receive own) s).indices c =
        List.range' 0 bytes.length ++ (proceed own s').indices c' := by
  have hbound : 0 < s.reading.length ∧ s.reading.length ≤ 17 := by
    cases s.reading <;> decide
  have hbytes := h.finishRead own (show bytes.length ≤ 32 by omega)
  have hne : bytes ≠ [] := List.ne_nil_of_length_pos (by omega)
  rw [foldlM_of_read h.jumped hne (by rw [h.got, Nat.zero_add, hlen]), complete_indices]
  dsimp only
  rw [h.got, ← hlen, hbytes]
  refine ⟨{ s with
    machine := ((s.machine.dmaBytes own 0 bytes).finishRead own bytes.length).2
    got := 0 }, (copyIn 0 bytes).cells c, rfl, ?_, rfl⟩
  intro k hk
  have hcell := copyIn_cells 0 bytes c hk
  rwa [Nat.zero_add] at hcell

/-- A command that keeps to the array: no {lit}`'r'`, and no {lit}`'w'` with all its bytes. -/
def Fits (frame : List (BitVec 8)) : Prop :=
  frame ≠ [0x72#8] ∧ ∀ payload, frame = 0x77#8 :: payload → payload.length < 17

/-- The byte of a command. -/
theorem command_indices (h : Boot.AtHead own s) (command : BitVec 8) (c : ℕ → BitVec 8) :
    ∃ (s' : Boot) (c' : ℕ → BitVec 8),
      (receive own s command).indices c = 0 :: 0 :: (dispatch own command s').indices c' := by
  have hone : [command].length = s.reading.length := by rw [h.reading]; rfl
  obtain ⟨s', c', hr, hc, hindices⟩ := read_indices h.ready hone c
  have hcommand : c' 0 = command := hc 0 (by simp)
  have hfold : [command].foldlM (receive own) s = receive own s command := bind_pure _
  refine ⟨s', c', ?_⟩
  rw [← hfold, hindices, proceed, hr, h.reading]
  dsimp only
  rw [indices_bind, result_load, hcommand]
  rfl

/-- {lit}`r` uses byte 16. -/
theorem not_bounded_of_read (h : Boot.AtHead own s) (c : ℕ → BitVec 8) :
    16 ∈ (receive own s 0x72#8).indices c := by
  obtain ⟨s', c', hindices⟩ := command_indices h 0x72#8 c
  have hread : (dispatch own 0x72#8 s').indices c' = (runRead own s').indices c' := rfl
  rw [hindices, hread, runRead_indices]
  decide

/-- A command byte other than {lit}`r` stays within the buffer. -/
theorem bounded_of_command (h : Boot.AtHead own s) {command : BitVec 8} (hr : command ≠ 0x72#8)
    (c : ℕ → BitVec 8) : ∀ i ∈ (receive own s command).indices c, i < 16 := by
  intro i hi
  obtain ⟨s', c', hindices⟩ := command_indices h command c
  rw [hindices, List.mem_cons, List.mem_cons] at hi
  rcases hi with rfl | rfl | hi
  · decide
  · decide
  · rw [dispatch_indices hr s' c' i hi]
    decide

/-- The state after a command that has bytes of its own. -/
theorem ready_of_command (h : Boot.AtHead own s) {command : BitVec 8} {reading : Reading}
    (hdispatch : ∀ s' : Boot, s'.dispatch own command = { s' with reading := reading }) :
    (s.receive own command).Ready ∧ (s.receive own command).reading = reading := by
  obtain ⟨m, hclean, -, hrun⟩ := h.ready.command h.reading own command
  rw [hrun, hdispatch]
  exact ⟨⟨h.ready.got, h.ready.jumped, hclean⟩, rfl⟩

/-- A command with some or all of its bytes. -/
theorem payload_indices (h : Boot.AtHead own s) {command : BitVec 8} {reading : Reading}
    (hdispatch : ∀ s' : Boot, s'.dispatch own command = { s' with reading := reading })
    (payload : List (BitVec 8)) (c : ℕ → BitVec 8) :
    ∃ rest : List ℕ, ((command :: payload).foldlM (receive own) s).indices c =
        (receive own s command).indices c ++ rest ∧
      (payload.length < reading.length → rest = []) ∧
      (payload.length = reading.length → ∃ (s' : Boot) (c' : ℕ → BitVec 8), s'.reading = reading ∧
        rest = List.range' 0 payload.length ++ (proceed own s').indices c') := by
  obtain ⟨hready, hreading⟩ := ready_of_command h hdispatch
  rw [List.foldlM_cons, indices_bind, receive_result]
  refine ⟨_, rfl, ?_, ?_⟩
  · intro hshort
    refine foldlM_of_missing hready.jumped ?_ _
    rw [hready.got, hreading]
    omega
  · intro hfull
    obtain ⟨s', c', hr, -, hindices⟩ :=
      read_indices hready (hfull.trans (congrArg _ hreading.symm)) ((receive own s command).cells c)
    exact ⟨s', c', hr.trans hreading, hindices⟩

/-- The payload of {lit}`a` stays within the buffer. -/
theorem bounded_of_address (h : Boot.AtHead own s) {payload : List (BitVec 8)}
    (hlen : payload.length ≤ 5) (c : ℕ → BitVec 8) :
    ∀ i ∈ ((0x61#8 :: payload).foldlM (receive own) s).indices c, i < 16 := by
  obtain ⟨rest, hindices, hshort, hfull⟩ := payload_indices h Boot.dispatch_address payload c
  intro i hi
  rw [hindices, List.mem_append] at hi
  rcases hi with hi | hi
  · exact bounded_of_command h (by decide) c i hi
  · by_cases hfive : payload.length = 5
    · obtain ⟨s', c', hr, hrest⟩ := hfull hfive
      rw [hrest, hfive, proceed, hr] at hi
      dsimp only at hi
      rw [runAddress_indices] at hi
      revert i
      decide
    · rw [hshort (show payload.length < 5 by omega)] at hi
      cases hi

/-- The payload of {lit}`w` stays within the buffer unless it is whole. -/
theorem bounded_of_data_iff (h : Boot.AtHead own s) {payload : List (BitVec 8)}
    (hlen : payload.length ≤ 17) (c : ℕ → BitVec 8) :
    (∀ i ∈ ((0x77#8 :: payload).foldlM (receive own) s).indices c, i < 16) ↔
      payload.length < 17 := by
  obtain ⟨rest, hindices, hshort, hfull⟩ := payload_indices h Boot.dispatch_data payload c
  rw [hindices]
  constructor
  · intro hall
    by_contra hlong
    have hlast : payload.length = 17 := by omega
    obtain ⟨s', c', -, hrest⟩ := hfull hlast
    have hin : 16 ∈ rest := by
      rw [hrest, hlast, List.mem_append]
      exact .inl (by decide)
    exact absurd (hall 16 (List.mem_append_right _ hin)) (by decide)
  · intro hmissing
    rw [hshort hmissing, List.append_nil]
    exact bounded_of_command h (by decide) c

/-- One command. -/
theorem bounded_of_frame_iff (h : Boot.AtHead own s) {command : BitVec 8}
    {payload : List (BitVec 8)} (hlen : payload.length ≤ Boot.payloadLength command)
    (c : ℕ → BitVec 8) :
    (∀ i ∈ ((command :: payload).foldlM (receive own) s).indices c, i < 16) ↔
      Fits (command :: payload) := by
  by_cases ha : command = 0x61#8
  · subst ha
    refine iff_of_true (bounded_of_address h hlen c) ⟨Boot.readFrame_ne (by decide) payload, ?_⟩
    intro payload' hframe
    exact absurd (List.cons.inj hframe).1 (by decide)
  by_cases hw : command = 0x77#8
  · subst hw
    rw [bounded_of_data_iff h hlen c, Fits]
    refine ⟨fun hmissing => ⟨Boot.readFrame_ne (by decide) payload, ?_⟩, fun hfits => hfits.2 _ rfl⟩
    intro payload' hframe
    rwa [← (List.cons.inj hframe).2]
  have hnone : Boot.payloadLength command = 0 := by
    rw [Boot.payloadLength, if_neg ha, if_neg hw]
  have hnil : payload = [] := List.length_eq_zero_iff.mp (by omega)
  have hfold : [command].foldlM (receive own) s = receive own s command := bind_pure _
  subst hnil
  rw [hfold]
  by_cases hr : command = 0x72#8
  · subst hr
    refine iff_of_false (fun hall => ?_) fun hfits => hfits.1 rfl
    exact absurd (hall 16 (not_bounded_of_read h c)) (by decide)
  · refine iff_of_true (bounded_of_command h hr c) ⟨Boot.readFrame_ne hr [], ?_⟩
    intro payload' hframe
    exact absurd (List.cons.inj hframe).1 hw

/-- The jump ends the use of the array. -/
theorem bounded_of_jump (h : Boot.AtHead own s) (rest : List (BitVec 8)) (c : ℕ → BitVec 8) :
    ∀ i ∈ ((0x6A#8 :: rest).foldlM (receive own) s).indices c, i < 16 := by
  obtain ⟨m, -, -, hrun⟩ := h.ready.command h.reading own 0x6A#8
  have hjumped : (s.receive own 0x6A#8).jumped.isSome = true := by
    rw [hrun]
    rfl
  rw [List.foldlM_cons, indices_bind, receive_result, foldlM_of_jumped hjumped, indices_pure,
    List.append_nil]
  exact bounded_of_command h (by decide) c

/-- A whole command that keeps to the array comes back to the head of the loop. -/
theorem atHead_of_fits (h : Boot.AtHead own s) {command : BitVec 8} (hj : command ≠ 0x6A#8)
    {rest : List (BitVec 8)} (hfits : Fits (command :: rest.take (Boot.payloadLength command)))
    (hmore : rest.drop (Boot.payloadLength command) ≠ []) :
    Boot.AtHead own
      ((command :: rest.take (Boot.payloadLength command)).foldl (Boot.receive own) s) := by
  rw [Ne, List.drop_eq_nil_iff, not_le] at hmore
  have hfull := List.length_take_of_le hmore.le
  refine (h.effect ?_ hj hfull.le).2 hfull
  rintro (rfl | rfl)
  · exact absurd rfl hfits.1
  · exact absurd hfull (hfits.2 _ rfl).ne

/-- A stream from the head of the loop on. -/
theorem bounded_iff (h : Boot.AtHead own s) (stream : List (BitVec 8)) (c : ℕ → BitVec 8) :
    (∀ i ∈ (stream.foldlM (receive own) s).indices c, i < 16) ↔
      ∀ frame ∈ Boot.commands stream, Fits frame := by
  induction hlen : stream.length using Nat.strong_induction_on generalizing stream s c with
  | _ n ih =>
      cases stream with
      | nil =>
          rw [Boot.commands_nil]
          exact iff_of_true (fun i hi => absurd hi List.not_mem_nil)
            fun frame hframe => absurd hframe List.not_mem_nil
      | cons command rest =>
          by_cases hj : command = 0x6A#8
          · subst hj
            rw [Boot.commands_jump]
            exact iff_of_true (bounded_of_jump h rest c)
              fun frame hframe => absurd hframe List.not_mem_nil
          · have hfold : (command :: rest).foldlM (receive own) s =
                (command :: rest.take (Boot.payloadLength command)).foldlM (receive own) s >>=
                  (rest.drop (Boot.payloadLength command)).foldlM (receive own) := by
              rw [← List.foldlM_append, List.cons_append, List.take_append_drop]
            rw [hfold, indices_bind, List.forall_mem_append, result_foldlM receive_result,
              bounded_of_frame_iff h (List.length_take_le ..), Boot.commands_cons hj,
              List.forall_mem_cons]
            refine and_congr_right fun hfits => ?_
            by_cases hmore : rest.drop (Boot.payloadLength command) = []
            · rw [hmore, Boot.commands_nil]
              exact iff_of_true (fun i hi => absurd hi List.not_mem_nil)
                fun frame hframe => absurd hframe List.not_mem_nil
            · refine ih _ ?_ (atHead_of_fits h hj hfits hmore) _ _ rfl
              rw [List.length_cons] at hlen
              rw [List.length_drop]
              omega

end CommandBuffer

/-- The indices of {lit}`buf` are in the array if and only if no {lit}`'r'` and no whole {lit}`'w'` comes before
the jump. -/
theorem boot_buffer_in_bounds_iff (own : ℕ → List OwnAccess) (mem : ByteMem)
    (cells : ℕ → BitVec 8) (stream : List (BitVec 8)) :
    (∀ i ∈ CommandBuffer.indices own mem cells stream, i < 16) ↔
      ∀ frame ∈ Boot.commands stream,
        frame ≠ [0x72#8] ∧ ∀ payload, frame = 0x77#8 :: payload → payload.length < 17 :=
  CommandBuffer.bounded_iff (Boot.atHead_init own mem) stream cells

/-- A single {lit}`'r'`. -/
theorem boot_buffer_overrun :
    ¬ ∀ i ∈ CommandBuffer.indices Machine.noOwn (fun _ => 0#8) (fun _ => 0#8) [0x72#8], i < 16 := by
  intro hall
  have hfold : [0x72#8].foldlM (CommandBuffer.receive Machine.noOwn) (Boot.init fun _ => 0#8) =
      CommandBuffer.receive Machine.noOwn (Boot.init fun _ => 0#8) 0x72#8 := bind_pure _
  rw [CommandBuffer.indices, hfold] at hall
  exact absurd (hall 16 (CommandBuffer.not_bounded_of_read (Boot.atHead_init _ _) _)) (by decide)

end Sumeru
