import Mathlib.Tactic.IntervalCases
import Sumeru.Bootloader.UartClient
import Sumeru.Library.Clocked

/-!
# Sumeru - Bluetooth bootloader client

The host tool {lit}`bluetooth_bootloader_client`: an event loop over static variables.  The
watch on the image file calls {lit}`write_cb`, which sends a frame; the notification with
the reply calls {lit}`process_response`, which sets the watch again.  Reads of the image
file give up to sixteen bytes until its end and then the status for the end of the file.

The chunk of a frame is read into {lit}`write_buf`, which is not cleared: {lit}`memset`
fills bytes 0 to 15 of it with the character {lit}`'0'`, and byte 16 keeps what the last
frame has left there.

Main results:

- Theorem {lit}`BluetoothClient.session`: the frames of a whole session.
- Theorem {lit}`clients_agree_iff`: the images on which the two clients send the same frames.
-/

namespace Sumeru

/-- Bytes copied into a buffer from a given offset on. -/
def writeBytes (buf : ℕ → BitVec 8) (off : ℕ) (bytes : List (BitVec 8)) : ℕ → BitVec 8 :=
  fun i => if off ≤ i then (bytes[i - off]?).getD (buf i) else buf i

/-- The first bytes of a buffer from a given offset on. -/
def readBytes (buf : ℕ → BitVec 8) (off len : ℕ) : List (BitVec 8) :=
  (List.range len).map fun i => buf (off + i)

/-- How the event loop stands: running, left by {lit}`g_main_loop_quit`, or ended by
{lit}`exit(1)` after a message. -/
inductive LoopStatus where
  | running
  | quit
  | exit (text : String)
deriving DecidableEq, Repr

/-- The static variables, what is left of the image file, whether the watch on it is set, and
the frames sent and answered.  The variable {lit}`resp_state` has one value only. -/
structure BluetoothClient where
  writeComplete : Bool
  responseReceived : Bool
  jmpAddrDone : Bool
  jmpInitiated : Bool
  writeBuf : ℕ → BitVec 8
  writeAddr : BitVec 32
  jmpAddr : BitVec 32
  wAddrSet : Bool
  file : List (BitVec 8)
  watch : Bool
  status : LoopStatus
  sent : List (List (BitVec 8))
  answered : ℕ

namespace BluetoothClient

/-- The client after {lit}`connect_cb`. -/
def init (file : List (BitVec 8)) : BluetoothClient where
  writeComplete := true
  responseReceived := true
  jmpAddrDone := false
  jmpInitiated := false
  writeBuf := fun _ => 0#8
  writeAddr := 0x10000#32 - 16#32
  jmpAddr := 0x10000#32
  wAddrSet := false
  file := file
  watch := true
  status := .running
  sent := []
  answered := 0

/-- {lit}`write_cmd` of the first bytes of {lit}`write_buf`. -/
def writeCmd (s : BluetoothClient) (len : ℕ) : BluetoothClient :=
  { s with sent := s.sent ++ [readBytes s.writeBuf 0 len], writeComplete := true }

/-- {lit}`write_bootloader_initiate_jmp`. -/
def writeBootloaderInitiateJmp (s : BluetoothClient) : BluetoothClient :=
  writeCmd { s with writeBuf := writeBytes s.writeBuf 0 [0x6A#8] } 1

/-- {lit}`write_bootloader_data`. -/
def writeBootloaderData (s : BluetoothClient) : BluetoothClient :=
  writeCmd
    { s with
      writeBuf := writeBytes (writeBytes s.writeBuf 0 [0x77#8]) 17
        [compute16bCksum (readBytes s.writeBuf 1 16)] } 18

/-- {lit}`write_bootloader_addr`. -/
def writeBootloaderAddr (s : BluetoothClient) (addr : BitVec 32) : BluetoothClient :=
  writeCmd
    { s with
      writeBuf := writeBytes (writeBytes (writeBytes s.writeBuf 1 (addressBytes addr)) 0 [0x61#8]) 5
        [(addressBytes addr).foldl (· ^^^ ·) 0] } 6

/-- The first part of {lit}`write_cb`: the variables before a frame is written. -/
def beginWrite (s : BluetoothClient) : BluetoothClient :=
  { s with
    writeComplete := false
    responseReceived := false
    writeAddr := s.writeAddr + 16#32
    watch := false }

/-- {lit}`write_cb`. -/
def writeCb (s : BluetoothClient) : BluetoothClient :=
  if s.writeComplete ≠ true ∨ s.responseReceived ≠ true then
    { s with status := .exit "Invalid state for write_cb, programmer error\n" }
  else if s.wAddrSet ≠ true then
    writeBootloaderAddr { s.beginWrite with wAddrSet := true } (s.writeAddr + 16#32)
  else
    let buf := writeBytes s.writeBuf 0 (List.replicate 16 0x30#8)
    if s.file = [] then
      { writeBootloaderAddr { s.beginWrite with writeBuf := buf } s.jmpAddr with jmpAddrDone := true }
    else
      writeBootloaderData
        { s.beginWrite with
          writeBuf := writeBytes buf 1 (s.file.take 16)
          file := s.file.drop 16 }

/-- {lit}`process_response` for a reply whose first byte is {lit}`reply`. -/
def processResponse (s : BluetoothClient) (reply : BitVec 8) : BluetoothClient :=
  if s.writeComplete = true ∧ s.responseReceived = false then
    if reply = replyOk then
      if s.jmpAddrDone ≠ true then { s with responseReceived := true, watch := true }
      else if s.jmpInitiated = false then
        { writeBootloaderInitiateJmp { s with writeComplete := false, responseReceived := false } with
          jmpInitiated := true }
      else { s with responseReceived := true, status := .quit }
    else { s with status := .exit "Invalid response: expecting O got %c\n" }
  else s

/-- The next event of the loop: the watch on the image file, or else the reply to a frame. -/
def next (s : BluetoothClient) : BluetoothClient :=
  if s.status ≠ .running then s
  else if s.watch = true then s.writeCb
  else if s.answered < s.sent.length then
    { s with answered := s.answered + 1 }.processResponse replyOk
  else s

/-- The client after {lit}`n` events. -/
def run (file : List (BitVec 8)) (n : ℕ) : BluetoothClient := next^[n] (init file)

/-! ## Frames -/

/-- What the sixteen data bytes of a frame hold after a chunk has been read: the rest of them
is the filling and, in the last byte, what was there before. -/
def chunkData (last : BitVec 8) (chunk : List (BitVec 8)) : List (BitVec 8) :=
  chunk ++ (List.replicate 15 0x30#8 ++ [last]).drop chunk.length

/-- The data frames of an image. -/
def dataFrames (last : BitVec 8) (file : List (BitVec 8)) : List (List (BitVec 8)) :=
  if 0 < file.length then
    UartClient.dataFrame (chunkData last (file.take 16)) ::
      dataFrames (((file.take 16)[15]?).getD last) (file.drop 16)
  else []
termination_by file.length
decreasing_by
  rw [List.length_drop]
  omega

/-- The frames of a whole session. -/
def sessionFrames (file : List (BitVec 8)) : List (List (BitVec 8)) :=
  UartClient.addressFrame 0x10000#32 :: dataFrames 0#8 file ++
    [UartClient.addressFrame 0x10000#32, UartClient.jumpFrame]

/-- The client sends its buffer of 17 bytes behind the command byte. -/
theorem readBytes_chunk (buf : ℕ → BitVec 8) {chunk : List (BitVec 8)} (h : chunk.length ≤ 16) :
    readBytes (writeBytes (writeBytes buf 0 (List.replicate 16 0x30#8)) 1 chunk) 1 16 =
      chunkData (buf 16) chunk := by
  apply List.ext_getElem?
  intro i
  by_cases hi : i < 16
  · have hread : (readBytes (writeBytes (writeBytes buf 0 (List.replicate 16 0x30#8)) 1 chunk) 1
        16)[i]? = some ((chunk[i]?).getD (writeBytes buf 0 (List.replicate 16 0x30#8) (1 + i))) := by
      simp [readBytes, writeBytes, hi]
    rw [hread, chunkData]
    by_cases hc : i < chunk.length
    · rw [List.getElem?_append_left hc, List.getElem?_eq_getElem hc]
      rfl
    · rw [List.getElem?_append_right (by omega), List.getElem?_drop, Nat.add_sub_of_le (by omega),
        List.getElem?_eq_none (by omega)]
      have hfill : ∀ j, j < 16 → some (writeBytes buf 0 (List.replicate 16 0x30#8) (1 + j)) =
          (List.replicate 15 0x30#8 ++ [buf 16])[j]? := by
        intro j hj
        interval_cases j <;> rfl
      exact hfill i hi
  · rw [List.getElem?_eq_none, List.getElem?_eq_none]
    · simp only [chunkData, List.length_append, List.length_drop, List.length_replicate,
        List.length_singleton]
      omega
    · simp only [readBytes, List.length_map, List.length_range]
      omega

/-- A file that is not at its end is sent with one frame, and then the rest of it. -/
theorem dataFrames_of_ne_nil {last : BitVec 8} {file : List (BitVec 8)} (h : file ≠ []) :
    dataFrames last file = UartClient.dataFrame (chunkData last (file.take 16)) ::
      dataFrames (((file.take 16)[15]?).getD last) (file.drop 16) := by
  rw [dataFrames, if_pos (List.length_pos_iff.mpr h)]

/-- At the end of the file nothing more is sent. -/
theorem dataFrames_nil (last : BitVec 8) : dataFrames last [] = [] := by
  rw [dataFrames, if_neg (by simp)]

/-! ## Sessions -/

/-- The client before a chunk is read: {lit}`last` is byte 16 of {lit}`write_buf`. -/
structure Ready (s : BluetoothClient) (last : BitVec 8) (file : List (BitVec 8)) : Prop where
  writeComplete : s.writeComplete = true
  responseReceived : s.responseReceived = true
  jmpAddrDone : s.jmpAddrDone = false
  jmpInitiated : s.jmpInitiated = false
  byte16 : s.writeBuf 16 = last
  jmpAddr : s.jmpAddr = 0x10000#32
  wAddrSet : s.wAddrSet = true
  file : s.file = file
  watch : s.watch = true
  status : s.status = .running
  answered : s.answered = s.sent.length

/-- The first frame. -/
theorem ready_init (file : List (BitVec 8)) :
    Ready (next^[2] (init file)) 0#8 file ∧
      (next^[2] (init file)).sent = [UartClient.addressFrame 0x10000#32] := by
  refine ⟨⟨rfl, rfl, rfl, rfl, rfl, rfl, rfl, rfl, rfl, rfl, rfl⟩, rfl⟩

/-- A chunk is read and sent, and its reply sets the watch again. -/
theorem Ready.chunk {s : BluetoothClient} {last : BitVec 8} {file : List (BitVec 8)}
    (h : Ready s last file) (hne : file ≠ []) :
    Ready (next^[2] s) (((file.take 16)[15]?).getD last) (file.drop 16) ∧
      (next^[2] s).sent =
        s.sent ++ [UartClient.dataFrame (chunkData last (file.take 16))] := by
  obtain ⟨h1, h2, h3, h4, h5, h6, h7, h8, h9, h10, h11⟩ := h
  have hread : next s = writeBootloaderData
      { s.beginWrite with
        writeBuf := writeBytes (writeBytes s.writeBuf 0 (List.replicate 16 0x30#8)) 1 (file.take 16)
        file := file.drop 16 } := by
    simp [next, writeCb, h1, h2, h7, h8, h9, h10, hne]
  have hreply : next (next s) =
      { next s with answered := s.answered + 1, responseReceived := true, watch := true } := by
    rw [hread]
    simp [next, processResponse, writeBootloaderData, writeCmd, beginWrite, h3, h10, h11]
  have hframe : (next s).sent =
      s.sent ++ [UartClient.dataFrame (chunkData last (file.take 16))] := by
    rw [hread, ← h5, ← readBytes_chunk s.writeBuf (List.length_take_le 16 file)]
    rfl
  change Ready (next (next s)) _ _ ∧ (next (next s)).sent = _
  rw [hreply]
  refine ⟨⟨?_, rfl, ?_, ?_, ?_, ?_, ?_, ?_, rfl, ?_, ?_⟩, hframe⟩
  · rw [hread]; rfl
  · rw [hread]; exact h3
  · rw [hread]; exact h4
  · rw [hread, ← h5]; rfl
  · rw [hread]; exact h6
  · rw [hread]; exact h7
  · rw [hread]; rfl
  · rw [hread]; exact h10
  · rw [hframe, List.length_append, ← h11]; rfl

/-- At the end of the file the jump address is sent, and then the jump. -/
theorem Ready.finish {s : BluetoothClient} {last : BitVec 8} (h : Ready s last []) :
    (next^[3] s).status = .quit ∧
      (next^[3] s).sent =
        s.sent ++ [UartClient.addressFrame 0x10000#32, UartClient.jumpFrame] := by
  obtain ⟨h1, h2, -, h4, -, h6, h7, h8, h9, h10, h11⟩ := h
  have hend : next s = { writeBootloaderAddr
      { s.beginWrite with writeBuf := writeBytes s.writeBuf 0 (List.replicate 16 0x30#8) }
        0x10000#32 with jmpAddrDone := true } := by
    simp [next, writeCb, h1, h2, h6, h7, h8, h9, h10]
  have hjump : next (next s) =
      { writeBootloaderInitiateJmp
          { next s with
            answered := s.answered + 1, writeComplete := false, responseReceived := false } with
        jmpInitiated := true } := by
    rw [hend]
    simp [next, processResponse, writeBootloaderAddr, writeCmd, beginWrite, h4, h10, h11]
  have hquit : next (next (next s)) =
      { next (next s) with
        answered := s.answered + 2, responseReceived := true, status := .quit } := by
    rw [hjump, hend]
    simp [next, processResponse, writeBootloaderAddr, writeBootloaderInitiateJmp, writeCmd,
      beginWrite, h10, h11]
  change (next (next (next s))).status = _ ∧ (next (next (next s))).sent = _
  rw [hquit]
  refine ⟨rfl, ?_⟩
  change (next (next s)).sent = _
  rw [hjump, hend]
  exact List.append_assoc _ _ _

/-- A client that is ready sends the frames of its file and quits. -/
theorem Ready.session {s : BluetoothClient} {last : BitVec 8} {file : List (BitVec 8)}
    (h : Ready s last file) :
    ∃ n, (next^[n] s).status = .quit ∧
      (next^[n] s).sent = s.sent ++ dataFrames last file ++
        [UartClient.addressFrame 0x10000#32, UartClient.jumpFrame] := by
  induction hlen : file.length using Nat.strong_induction_on generalizing s last file with
  | _ n ih =>
      by_cases hne : file = []
      · subst hne
        refine ⟨3, h.finish.1, ?_⟩
        rw [h.finish.2, dataFrames_nil, List.append_nil]
      · obtain ⟨hready, hsent⟩ := h.chunk hne
        have hpos := List.length_pos_iff.mpr hne
        obtain ⟨m, hquit, hm⟩ := ih (file.drop 16).length (by rw [List.length_drop]; omega)
          hready rfl
        refine ⟨m + 2, ?_, ?_⟩
        · rw [Function.iterate_add_apply]
          exact hquit
        · rw [Function.iterate_add_apply, hm, hsent, dataFrames_of_ne_nil hne]
          simp

/-- A client that has quit stays as it is. -/
theorem next_of_quit {s : BluetoothClient} (h : s.status = .quit) (n : ℕ) : next^[n] s = s := by
  apply Function.iterate_fixed
  rw [next, if_pos (by rw [h]; decide)]

/-- The frames of a whole session. -/
theorem session (file : List (BitVec 8)) :
    ∃ n, ∀ m, n ≤ m → (run file m).status = .quit ∧ (run file m).sent = sessionFrames file := by
  obtain ⟨hready, hsent⟩ := ready_init file
  obtain ⟨n, hquit, hframes⟩ := hready.session
  refine ⟨n + 2, fun m hm => ?_⟩
  have hrun : run file m = next^[n] (next^[2] (init file)) := by
    obtain ⟨k, rfl⟩ := Nat.exists_eq_add_of_le hm
    rw [run, Nat.add_comm, Function.iterate_add_apply, Function.iterate_add_apply,
      next_of_quit hquit]
  rw [hrun]
  refine ⟨hquit, ?_⟩
  rw [hframes, hsent]
  rfl

/-! ## Agreement with the UART client -/

/-- A data frame determines its data. -/
theorem dataFrame_inj {data data' : List (BitVec 8)}
    (h : UartClient.dataFrame data = UartClient.dataFrame data') : data = data' := by
  unfold UartClient.dataFrame at h
  exact (List.append_inj' (List.cons.inj h).2 rfl).1

/-- A full chunk has no filling. -/
theorem chunkData_full (last : BitVec 8) {chunk : List (BitVec 8)} (h : chunk.length = 16) :
    chunkData last chunk = UartClient.fillBuffer chunk := by
  rw [chunkData, UartClient.fillBuffer, h, List.drop_eq_nil_of_le (by simp)]
  rfl

/-- A short chunk is filled as by the UART client only if one byte is missing and that
byte was zero before. -/
theorem chunkData_eq_iff (last : BitVec 8) {chunk : List (BitVec 8)} (h : chunk.length < 16) :
    chunkData last chunk = UartClient.fillBuffer chunk ↔ chunk.length = 15 ∧ last = 0#8 := by
  rw [chunkData, UartClient.fillBuffer, List.append_cancel_left_eq]
  generalize chunk.length = r at h
  constructor
  · intro heq
    have hbyte : ∀ i, r ≤ i → i < 16 → (List.replicate 15 0x30#8 ++ [last])[i]? = some 0#8 := by
      intro i h1 h2
      have hi := congrArg (fun l => l[i - r]?) heq
      rwa [List.getElem?_drop, Nat.add_sub_of_le h1, List.getElem?_replicate, if_pos (by omega)] at hi
    have hr : r = 15 := by
      by_contra hne
      have h14 := hbyte 14 (by omega) (by omega)
      exact absurd h14 (by simp)
    have h15 := hbyte 15 (by omega) (by omega)
    exact ⟨hr, by simpa using h15⟩
  · rintro ⟨rfl, rfl⟩
    rfl

/-- The byte that fills the last place of an image which lacks one byte of a chunk. -/
def leftByte (last : BitVec 8) (file : List (BitVec 8)) : BitVec 8 :=
  if file.length < 16 then last else (file[file.length - 16]?).getD 0#8

/-- Both clients send the same frames if the file fills its last frame, or leaves one byte that
happens to be zero. -/
theorem dataFrames_eq_iff (last : BitVec 8) (file : List (BitVec 8)) :
    dataFrames last file = UartClient.dataFrames file ↔
      file.length % 16 = 0 ∨ (file.length % 16 = 15 ∧ leftByte last file = 0#8) := by
  induction hlen : file.length using Nat.strong_induction_on generalizing last file with
  | _ n ih =>
      subst hlen
      by_cases hne : file = []
      · subst hne
        rw [dataFrames_nil, UartClient.dataFrames_nil]
        simp
      have hpos := List.length_pos_iff.mpr hne
      rw [dataFrames_of_ne_nil hne, UartClient.dataFrames_of_ne_nil hpos]
      by_cases hshort : file.length < 16
      · have htake : file.take 16 = file := List.take_of_length_le hshort.le
        have hdrop : file.drop 16 = [] := List.drop_eq_nil_of_le hshort.le
        rw [htake, hdrop, dataFrames_nil, UartClient.dataFrames_nil, leftByte, if_pos hshort,
          Nat.mod_eq_of_lt hshort]
        constructor
        · intro h
          exact .inr ((chunkData_eq_iff last hshort).mp (dataFrame_inj (List.cons.inj h).1))
        · rintro (h | h)
          · omega
          · rw [(chunkData_eq_iff last hshort).mpr h]
      · have htake : (file.take 16).length = 16 := by
          rw [List.length_take]
          omega
        rw [chunkData_full last htake, List.cons_inj_right,
          ih (file.drop 16).length (by rw [List.length_drop]; omega) _ _ rfl]
        have hbyte : (file.length - 16) % 16 = 15 →
            leftByte (((file.take 16)[15]?).getD last) (file.drop 16) = leftByte last file := by
          intro hmod
          rw [leftByte, leftByte, if_neg hshort, List.length_drop]
          split
          · have hlen : file.length - 16 = 15 := by omega
            rw [hlen, List.getElem?_take_of_lt (by omega), List.getElem?_eq_getElem (by omega)]
            rfl
          · rw [List.getElem?_drop, show 16 + (file.length - 16 - 16) = file.length - 16 by omega]
        rw [List.length_drop]
        have hmod : (file.length - 16) % 16 = file.length % 16 := by omega
        rw [hmod] at hbyte ⊢
        exact or_congr_right (and_congr_right fun h => by rw [hbyte h])

end BluetoothClient

/-- The two clients send the same frames exactly for the images of whole chunks and for those
that lack one byte which {lit}`write_buf` happens to hold as zero. -/
theorem clients_agree_iff (file : List (BitVec 8)) :
    ∃ n, ∀ m, n ≤ m → (BluetoothClient.run file m).status = .quit ∧
      (UartClient.main UartClient.recorder file 0x10000#32 0x10000#32 [] =
          .ok (BluetoothClient.run file m).sent ↔
        file.length % 16 = 0 ∨
          (file.length % 16 = 15 ∧ (file.length = 15 ∨ file[file.length - 16]? = some 0#8))) := by
  obtain ⟨n, hsession⟩ := BluetoothClient.session file
  refine ⟨n, fun m hm => ⟨(hsession m hm).1, ?_⟩⟩
  rw [(hsession m hm).2, UartClient.main_recorder, Except.ok.injEq, eq_comm,
    BluetoothClient.sessionFrames, UartClient.sessionFrames, List.append_cancel_right_eq,
    List.cons_inj_right, BluetoothClient.dataFrames_eq_iff]
  refine or_congr_right (and_congr_right fun hmod => ?_)
  rw [BluetoothClient.leftByte]
  split
  · have hlen : file.length = 15 := by omega
    simp [hlen]
  · rw [List.getElem?_eq_getElem (by omega)]
    have hlen : file.length ≠ 15 := by omega
    simp [hlen]

/-- An image of one byte: fifteen characters {lit}`'0'`, less the last, against fifteen zeros. -/
theorem clients_disagree :
    (BluetoothClient.run [1#8] 7).status = .quit ∧
      UartClient.main UartClient.recorder [1#8] 0x10000#32 0x10000#32 [] ≠
        .ok (BluetoothClient.run [1#8] 7).sent := by
  refine ⟨by decide, ?_⟩
  rw [UartClient.main_recorder, UartClient.sessionFrames, UartClient.dataFrames_of_ne_nil (by decide)]
  intro h
  have h2 := congrArg (fun l => (l[1]?).bind fun f => f[2]?) (Except.ok.inj h)
  exact absurd h2 (by decide)

end Sumeru
