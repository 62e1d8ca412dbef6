import Mathlib.Logic.Function.Basic
import Sumeru.Library.Ring

/-!
# Serial NOR flash

A flash memory behind a serial port: the host sends a command byte with its arguments and
receives as many bytes.  A page program stores bytes from an address on; the address wraps
inside its page of 256 bytes.  The program goes on for a while after the command, and until its end
the device only answers reads of its status.

Main results:

- Theorem {lit}`pageProgram_apply`: what a page program of at most 256 bytes does to each byte.
- Theorem {lit}`transfern_program`: the effect of the command on a device that is ready.
-/

/-- What programming a byte over an old one leaves in a cell; an erased cell takes the byte. -/
structure NorCell where
  program : BitVec 8 → BitVec 8 → BitVec 8
  erased : ∀ b, program 0xFF#8 b = b

/-- Cells whose bits can only be cleared. -/
def NorCell.clearing : NorCell where
  program old b := old &&& b
  erased := by
    intro b
    exact BitVec.allOnes_and

/-- The device: {lit}`busy` counts the status reads until the program under way ends, and
{lit}`delays` says how long the programs to come take. -/
structure NorFlash where
  mem : ℕ → BitVec 8
  writeEnabled : Bool
  busy : ℕ
  delays : ℕ → ℕ

namespace NorFlash

variable (cell : NorCell)

/-- The next address of a page program. -/
def nextInPage (a : ℕ) : ℕ := Ring.next (a / 256 * 256) (a / 256 * 256 + 256) a

/-- Memory after a page program of the bytes. -/
def pageProgram : List (BitVec 8) → ℕ → (ℕ → BitVec 8) → ℕ → BitVec 8
  | [], _, mem => mem
  | b :: bytes, a, mem =>
      pageProgram bytes (nextInPage a) (Function.update mem a (cell.program (mem a) b))

/-- The status register: bit 0 shows a program under way, bit 1 that writes are enabled. -/
def status (d : NorFlash) : BitVec 8 :=
  (if 0 < d.busy then 1#8 else 0#8) ||| (if d.writeEnabled = true then 2#8 else 0#8)

/-- The effect of a command: read status, write enable or page program. -/
def command (d : NorFlash) (op : BitVec 8) (args : List (BitVec 8)) : NorFlash :=
  if op = 0x05#8 then { d with busy := d.busy - 1 }
  else if 0 < d.busy then d
  else if op = 0x06#8 then { d with writeEnabled := true }
  else if op = 0x02#8 ∧ d.writeEnabled = true then
    match args with
    | high :: mid :: low :: data =>
        { mem := pageProgram cell data (high.toNat * 65536 + mid.toNat * 256 + low.toNat) d.mem
          writeEnabled := false
          busy := d.delays 0
          delays := fun n => d.delays (n + 1) }
    | _ => d
  else d

/-- A transfer: the bytes received for those sent, and the device after it. -/
def transfern (d : NorFlash) : List (BitVec 8) → List (BitVec 8) × NorFlash
  | [] => ([], d)
  | op :: args =>
      (0xFF#8 :: args.map (fun _ => if op = 0x05#8 then d.status else 0xFF#8),
        d.command cell op args)

section Page

/-- Counting on inside of a page stays there. -/
theorem nextInPage_page (a : ℕ) : nextInPage a / 256 = a / 256 := by
  have hmem : a / 256 * 256 ≤ nextInPage a ∧ nextInPage a < a / 256 * 256 + 256 :=
    Ring.next_mem (by omega)
  omega

/-- A page program of at most 256 bytes stores each byte once, at its distance from the first
address. -/
theorem pageProgram_apply (bytes : List (BitVec 8)) (start : ℕ) (mem : ℕ → BitVec 8)
    (h : bytes.length ≤ 256) (a : ℕ) :
    pageProgram cell bytes start mem a =
      if a / 256 = start / 256 ∧
          Ring.ahead (start / 256 * 256) (start / 256 * 256 + 256) start a < bytes.length then
        cell.program (mem a)
          (bytes.getD (Ring.ahead (start / 256 * 256) (start / 256 * 256 + 256) start a) 0#8)
      else mem a := by
  induction bytes generalizing start mem with
  | nil => rw [if_neg fun hc => Nat.not_lt_zero _ hc.2, pageProgram]
  | cons b bytes ih =>
      rw [List.length_cons] at h
      rw [pageProgram, ih _ _ (by omega), nextInPage_page]
      by_cases hpage : a / 256 = start / 256
      · have hstart : start / 256 * 256 ≤ start ∧ start < start / 256 * 256 + 256 := by omega
        have ha : start / 256 * 256 ≤ a ∧ a < start / 256 * 256 + 256 := by omega
        by_cases heq : start = a
        · -- the other bytes do not come round to the first address
          have hnext := Ring.next_mem hstart
          have hfar : Ring.ahead (start / 256 * 256) (start / 256 * 256 + 256) (nextInPage start) a =
              255 := by
            subst heq
            rw [nextInPage, Ring.ahead_eq hnext.2 hstart hnext.1]
            unfold Ring.next
            split_ifs <;> omega
          subst heq
          rw [hfar, Ring.ahead_self, if_neg (by omega), Function.update_self,
            if_pos ⟨rfl, Nat.succ_pos _⟩]
          rfl
        · have hahead := Ring.ahead_next hstart ha heq
          rw [← hahead, Function.update_of_ne (Ne.symm heq), List.length_cons, List.getD_cons_succ]
          exact if_congr (and_congr_right fun _ => Nat.add_lt_add_iff_right.symm) rfl rfl
      · rw [if_neg fun hc => hpage hc.1, if_neg fun hc => hpage hc.1, Function.update_of_ne]
        rintro rfl
        exact hpage rfl

end Page

/-- The command that enables writing. -/
theorem transfern_writeEnable {d : NorFlash} (hready : d.busy = 0) :
    (d.transfern cell [0x06#8]).2 = { d with writeEnabled := true } := by
  simp only [transfern]
  unfold command
  rw [if_neg (by decide), if_neg (by omega), if_pos rfl]

/-- The status tells whether the device is busy. -/
theorem status_and_one (d : NorFlash) : d.status &&& 1#8 = 0#8 ↔ d.busy = 0 := by
  unfold status
  rcases Nat.eq_zero_or_pos d.busy with hzero | hpos
  · rw [if_neg (by omega)]
    cases d.writeEnabled <;> exact iff_of_true rfl hzero
  · rw [if_pos hpos]
    cases d.writeEnabled <;> exact iff_of_false (by decide) hpos.ne'

/-- The page program of a device that is ready. -/
theorem transfern_program {d : NorFlash} (hready : d.busy = 0) (hwel : d.writeEnabled = true)
    (high mid low : BitVec 8) (data : List (BitVec 8)) :
    (d.transfern cell (0x02#8 :: high :: mid :: low :: data)).2 =
      { mem := pageProgram cell data (high.toNat * 65536 + mid.toNat * 256 + low.toNat) d.mem
        writeEnabled := false
        busy := d.delays 0
        delays := fun n => d.delays (n + 1) } := by
  simp only [transfern, command]
  rw [if_neg (by decide), if_neg (by omega), if_neg (by decide), if_pos ⟨trivial, hwel⟩]

end NorFlash
