import Mathlib.Tactic.Linarith
import Mathlib.Data.List.Basic

/-!
# Sumeru - UART bootloader client

The host tool {lit}`bootloader_uart_client`.  It sends an image in frames over a serial
device and waits for a one-byte reply after each frame.  The device is a parameter: the
client runs against a recorder of its frames and, in a later module, against the boot
ROM.  The options of the command line are the two addresses, and reads of the image file
succeed.

Main results:

- Theorem {lit}`UartClient.main_eq`: on a device that answers every frame of the session with
  {lit}`'O'` the client sends the frames of the session in order.
-/

namespace Sumeru

/-- The reply {lit}`'O'`. -/
def replyOk : BitVec 8 := 0x4F#8

/-- {lit}`memcpy` of an address, least significant byte first. -/
def addressBytes (address : BitVec 32) : List (BitVec 8) :=
  [address.extractLsb' 0 8, address.extractLsb' 8 8, address.extractLsb' 16 8,
    address.extractLsb' 24 8]

/-- {lit}`compute_16b_cksum`. -/
def compute16bCksum (buf : List (BitVec 8)) : BitVec 8 := (buf.take 16).foldl (· ^^^ ·) 0

/-- A serial device: {lit}`write` sends bytes, and {lit}`read` of one byte blocks if there is
none. -/
structure SerialDevice (δ : Type*) where
  write : δ → List (BitVec 8) → δ
  read : δ → Option (BitVec 8 × δ)

/-- Why the client does not finish: {lit}`errx` with its text and the value it prints, or a
{lit}`read` that blocks. -/
inductive ClientFailure where
  | errx (text : String) (value : Option (BitVec 8))
  | blocked
deriving DecidableEq, Repr

namespace UartClient

/-- The frame of {lit}`set_address`. -/
def addressFrame (address : BitVec 32) : List (BitVec 8) :=
  0x61#8 :: addressBytes address ++ [(addressBytes address).foldl (· ^^^ ·) 0]

/-- The frame of {lit}`write_data`. -/
def dataFrame (data : List (BitVec 8)) : List (BitVec 8) :=
  0x77#8 :: data ++ [compute16bCksum data]

/-- The frame of {lit}`initiate_jmp`. -/
def jumpFrame : List (BitVec 8) := [0x6A#8]

section Device

variable {δ : Type*} (d : SerialDevice δ)

/-- A frame is sent and its reply read; another reply than {lit}`'O'` ends the client. -/
def exchange (frame : List (BitVec 8)) (failure : BitVec 8 → ClientFailure) (dev : δ) :
    Except ClientFailure δ :=
  match d.read (d.write dev frame) with
  | none => .error .blocked
  | some (reply, dev) => if reply = replyOk then .ok dev else .error (failure reply)

/-- {lit}`set_address`. -/
def setAddress (address : BitVec 32) : δ → Except ClientFailure δ :=
  exchange d (addressFrame address) fun reply => .errx "Error setting address: %x" (some reply)

/-- {lit}`initiate_jmp`. -/
def initiateJmp : δ → Except ClientFailure δ :=
  exchange d jumpFrame fun _ => .errx "Error initiating jmp" none

/-- {lit}`write_data`. -/
def writeData (data : List (BitVec 8)) : δ → Except ClientFailure δ :=
  exchange d (dataFrame data) fun reply => .errx "Error writing data: %x" (some reply)

/-- The buffer of the loop of {lit}`main`: cleared, then filled by {lit}`read`. -/
def fillBuffer (chunk : List (BitVec 8)) : List (BitVec 8) :=
  chunk ++ List.replicate (16 - chunk.length) 0#8

/-- The loop of {lit}`main` over the image file. -/
def loadImage (file : List (BitVec 8)) (dev : δ) : Except ClientFailure δ :=
  let chunk := file.take 16
  if 0 < chunk.length then
    match writeData d (fillBuffer chunk) dev with
    | .error failure => .error failure
    | .ok dev => if chunk.length < 16 then .ok dev else loadImage (file.drop 16) dev
  else .ok dev
termination_by file.length
decreasing_by
  simp only [chunk, List.length_take] at *
  rw [List.length_drop]
  omega

/-- {lit}`main`. -/
def main (file : List (BitVec 8)) (loadAddress jmpAddress : BitVec 32) (dev : δ) :
    Except ClientFailure δ := do
  let dev ← setAddress d loadAddress dev
  let dev ← loadImage d file dev
  let dev ← setAddress d jmpAddress dev
  initiateJmp d dev

end Device

/-! ## Frames of a session -/

/-- The data frames of an image. -/
def dataFrames (file : List (BitVec 8)) : List (List (BitVec 8)) :=
  if 0 < file.length then
    dataFrame (fillBuffer (file.take 16)) :: dataFrames (file.drop 16)
  else []
termination_by file.length
decreasing_by
  rw [List.length_drop]
  omega

/-- No file, no frames. -/
theorem dataFrames_nil : dataFrames [] = [] := by
  rw [dataFrames, if_neg (by simp)]

/-- A file is sent with one frame of 16 bytes, and then the rest of it. -/
theorem dataFrames_of_ne_nil {file : List (BitVec 8)} (h : 0 < file.length) :
    dataFrames file = dataFrame (fillBuffer (file.take 16)) :: dataFrames (file.drop 16) := by
  rw [dataFrames, if_pos h]

/-- The frames of a whole session. -/
def sessionFrames (file : List (BitVec 8)) (loadAddress jmpAddress : BitVec 32) :
    List (List (BitVec 8)) :=
  addressFrame loadAddress :: dataFrames file ++ [addressFrame jmpAddress, jumpFrame]

section Sessions

variable {δ : Type*} (d : SerialDevice δ)

/-- Devices after a list of frames, each answered with {lit}`'O'`. -/
inductive Answers : List (List (BitVec 8)) → δ → δ → Prop where
  | nil (dev : δ) : Answers [] dev dev
  | cons {frame : List (BitVec 8)} {frames : List (List (BitVec 8))} {dev dev₁ dev₂ : δ}
      (h : d.read (d.write dev frame) = some (replyOk, dev₁)) (hrest : Answers frames dev₁ dev₂) :
      Answers (frame :: frames) dev dev₂

variable {d} {dev dev' : δ}

/-- An acknowledged frame. -/
theorem exchange_of_read {frame : List (BitVec 8)} {failure : BitVec 8 → ClientFailure}
    (h : d.read (d.write dev frame) = some (replyOk, dev')) :
    exchange d frame failure dev = .ok dev' := by
  simp [exchange, h]

/-- Sessions in a row. -/
theorem Answers.append {frames frames' : List (List (BitVec 8))} {dev'' : δ}
    (h : Answers d frames dev dev') (h' : Answers d frames' dev' dev'') :
    Answers d (frames ++ frames') dev dev'' := by
  induction h with
  | nil dev => exact h'
  | cons hread hrest ih => exact .cons hread (ih h')

/-- A session can be cut in two. -/
theorem Answers.append_inv {frames frames' : List (List (BitVec 8))}
    (h : Answers d (frames ++ frames') dev dev') :
    ∃ dev₁, Answers d frames dev dev₁ ∧ Answers d frames' dev₁ dev' := by
  induction frames generalizing dev with
  | nil => exact ⟨dev, .nil dev, h⟩
  | cons frame frames ih =>
      cases h with
      | cons hread hrest =>
          obtain ⟨dev₁, h1, h2⟩ := ih hrest
          exact ⟨dev₁, .cons hread h1, h2⟩

/-- The loop sends the data frames of the image. -/
theorem loadImage_of_answers {file : List (BitVec 8)} (h : Answers d (dataFrames file) dev dev') :
    loadImage d file dev = .ok dev' := by
  induction hlen : file.length using Nat.strong_induction_on generalizing file dev with
  | _ n ih =>
      rw [loadImage]
      by_cases hpos : 0 < file.length
      · rw [dataFrames_of_ne_nil hpos] at h
        cases h with
        | cons hread hrest =>
            rw [if_pos (by rw [List.length_take]; omega), writeData, exchange_of_read hread]
            dsimp only
            by_cases hshort : (file.take 16).length < 16
            · -- the image ends in this chunk
              have hdrop : file.drop 16 = [] := by
                rw [List.length_take] at hshort
                exact List.drop_eq_nil_of_le (by omega)
              rw [hdrop, dataFrames_nil] at hrest
              cases hrest
              rw [if_pos hshort]
            · rw [if_neg hshort]
              exact ih (file.drop 16).length (by rw [List.length_drop]; omega) hrest rfl
      · have hnil : file = [] := List.length_eq_zero_iff.mp (by omega)
        subst hnil
        rw [dataFrames_nil] at h
        cases h
        simp

/-- On a device that answers every frame of the session with {lit}`'O'` the client finishes. -/
theorem main_eq {file : List (BitVec 8)} {loadAddress jmpAddress : BitVec 32}
    (h : Answers d (sessionFrames file loadAddress jmpAddress) dev dev') :
    main d file loadAddress jmpAddress dev = .ok dev' := by
  rw [sessionFrames, List.cons_append] at h
  cases h with
  | cons hload hrest =>
      obtain ⟨dev₂, hdata, htail⟩ := hrest.append_inv
      cases htail with
      | cons hjmp hlast =>
          cases hlast with
          | cons hj hnil =>
              cases hnil
              rw [main, setAddress, exchange_of_read hload]
              change (loadImage d file _ >>= _) = _
              rw [loadImage_of_answers hdata]
              change (setAddress d jmpAddress dev₂ >>= _) = _
              rw [setAddress, exchange_of_read hjmp]
              exact exchange_of_read hj

end Sessions

/-! ## Recording -/

/-- A device that records the frames and answers each with {lit}`'O'`. -/
def recorder : SerialDevice (List (List (BitVec 8))) where
  write sent frame := sent ++ [frame]
  read sent := some (replyOk, sent)

/-- The recorder acknowledges everything. -/
theorem recorder_answers (frames sent : List (List (BitVec 8))) :
    Answers recorder frames sent (sent ++ frames) := by
  induction frames generalizing sent with
  | nil =>
      rw [List.append_nil]
      exact .nil sent
  | cons frame frames ih =>
      refine .cons rfl ?_
      have h := ih (sent ++ [frame])
      rwa [List.append_assoc] at h

/-- What the client sends to a recorder. -/
theorem main_recorder (file : List (BitVec 8)) (loadAddress jmpAddress : BitVec 32) :
    main recorder file loadAddress jmpAddress [] =
      .ok (sessionFrames file loadAddress jmpAddress) :=
  main_eq (recorder_answers _ [])

end UartClient

end Sumeru
