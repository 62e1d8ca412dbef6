import Mathlib.Data.Nat.Notation
import Mathlib.Logic.Function.Basic
import Mathlib.Tactic.Ring

/-!
# Memory of bytes

A memory maps addresses to bytes.  Words of 32 bits are stored with the least significant
byte first.  Two memories are compared by the bytes that they agree on.

Main results:

- Theorem {lit}`word_setWord`: a stored word reads back.
- Theorem {lit}`word_setWord_of_disjoint`: a store changes no word beside it.
- Theorem {lit}`word_congr`: a word depends on its four bytes.
-/

/-- A byte at every address. -/
abbrev ByteMemory := ℕ → BitVec 8

namespace ByteMemory

variable {m m' : ByteMemory} {a b v : ℕ}

/-- The word in the four bytes from {lit}`a` on. -/
def word (m : ByteMemory) (a : ℕ) : ℕ :=
  (m a).toNat + 2 ^ 8 * (m (a + 1)).toNat + 2 ^ 16 * (m (a + 2)).toNat +
    2 ^ 24 * (m (a + 3)).toNat

/-- A word is stored. -/
def setWord (m : ByteMemory) (a v : ℕ) : ByteMemory := fun b =>
  if b = a then BitVec.ofNat 8 v
  else if b = a + 1 then BitVec.ofNat 8 (v / 2 ^ 8)
  else if b = a + 2 then BitVec.ofNat 8 (v / 2 ^ 16)
  else if b = a + 3 then BitVec.ofNat 8 (v / 2 ^ 24)
  else m b

/-- A byte is stored. -/
def setByte (m : ByteMemory) (a : ℕ) (v : BitVec 8) : ByteMemory := Function.update m a v

/-- A word has 32 bits. -/
theorem word_lt (m : ByteMemory) (a : ℕ) : m.word a < 2 ^ 32 := by
  have h0 := (m a).isLt
  have h1 := (m (a + 1)).isLt
  have h2 := (m (a + 2)).isLt
  have h3 := (m (a + 3)).isLt
  simp only [word]
  omega

/-- A word depends on its four bytes. -/
theorem word_congr (h : ∀ b, a ≤ b → b < a + 4 → m' b = m b) : m'.word a = m.word a := by
  simp only [word]
  rw [h a (by omega) (by omega), h (a + 1) (by omega) (by omega), h (a + 2) (by omega) (by omega),
    h (a + 3) (by omega) (by omega)]

/-- A stored word reads back. -/
@[simp] theorem word_setWord (m : ByteMemory) (a : ℕ) (hv : v < 2 ^ 32) :
    (m.setWord a v).word a = v := by
  have h1 : a + 1 ≠ a := by omega
  have h2 : a + 2 ≠ a ∧ a + 2 ≠ a + 1 := by omega
  have h3 : a + 3 ≠ a ∧ a + 3 ≠ a + 1 ∧ a + 3 ≠ a + 2 := by omega
  simp only [word, setWord, if_true, if_neg h1, if_neg h2.1, if_neg h2.2, if_neg h3.1,
    if_neg h3.2.1, if_neg h3.2.2, BitVec.toNat_ofNat]
  omega

/-- A store changes its four bytes only. -/
theorem setWord_apply_of_outside (h : b < a ∨ a + 4 ≤ b) : m.setWord a v b = m b := by
  have h0 : b ≠ a := by omega
  have h1 : b ≠ a + 1 := by omega
  have h2 : b ≠ a + 2 := by omega
  have h3 : b ≠ a + 3 := by omega
  simp only [setWord, if_neg h0, if_neg h1, if_neg h2, if_neg h3]

/-- A store changes no word beside it. -/
theorem word_setWord_of_disjoint (h : b + 4 ≤ a ∨ a + 4 ≤ b) :
    (m.setWord a v).word b = m.word b :=
  word_congr fun _ _ _ => setWord_apply_of_outside (by omega)

@[simp] theorem setByte_self (m : ByteMemory) (a : ℕ) (v : BitVec 8) : m.setByte a v a = v :=
  Function.update_self ..

/-- Other bytes stay. -/
theorem setByte_of_ne {v : BitVec 8} (h : b ≠ a) : m.setByte a v b = m b :=
  Function.update_of_ne h ..

end ByteMemory
