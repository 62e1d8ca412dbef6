import Mathlib.Tactic.Linarith
import Mathlib.Data.Nat.ModEq

/-!
# Ring positions

A ring of {lit}`n` cells at the addresses {lit}`start`, ..., {lit}`start + n - 1` is filled
and emptied in order.  Cell number {lit}`k` of this order is {lit}`slot start n k`; counting
the cells without wrapping turns comparisons of ring pointers into comparisons of counters.

Main results:

- Theorem {lit}`next_slot`: the pointer step of a ring is the successor of the counter.
- Theorem {lit}`slot_inj`: pointers of counters less than one round apart are equal only if
  the counters are.
- Theorem {lit}`ahead_next`: a pointer step leaves one cell less ahead.
-/

namespace Ring

/-- The address of cell number {lit}`k`. -/
def slot (start n k : ℕ) : ℕ := start + k % n

/-- The pointer step: one further, and from the end back to the start. -/
def next (start stop ptr : ℕ) : ℕ := if ptr + 1 = stop then start else ptr + 1

variable (start : ℕ) {n : ℕ}

/-- A slot lies in the buffer. -/
theorem slot_mem (hn : 0 < n) (k : ℕ) : start ≤ slot start n k ∧ slot start n k < start + n := by
  have := Nat.mod_lt k hn
  unfold slot
  omega

/-- The next slot. -/
theorem next_slot (hn : 0 < n) (k : ℕ) :
    next start (start + n) (slot start n k) = slot start n (k + 1) := by
  have hlt := Nat.mod_lt k hn
  have hsucc : (k + 1) % n = (k % n + 1) % n := (Nat.mod_add_mod k n 1).symm
  unfold next slot
  rw [hsucc]
  by_cases hend : k % n + 1 = n
  · rw [if_pos (by omega), hend, Nat.mod_self]
    rfl
  · have hin : (k % n + 1) % n = k % n + 1 := Nat.mod_eq_of_lt (by omega)
    rw [if_neg (by omega), hin, Nat.add_assoc]

/-- Slots within one round differ. -/
theorem slot_inj {start a b : ℕ} (hab : a ≤ b) (hlt : b < a + n) (h : slot start n a = slot start n b) :
    a = b := by
  have hmod : a ≡ b [MOD n] := by
    unfold slot at h
    exact Nat.add_left_cancel h
  have hdvd : n ∣ b - a := (Nat.modEq_iff_dvd' hab).mp hmod
  have hzero : b - a = 0 := Nat.eq_zero_of_dvd_of_lt hdvd (by omega)
  omega

/-- Different slots within one round. -/
theorem slot_ne {start a b : ℕ} (hab : a < b) (hlt : b < a + n) : slot start n a ≠ slot start n b :=
  fun h => hab.ne (slot_inj hab.le hlt h)

/-- Two cells a whole round apart are one. -/
theorem slot_add_self (n k : ℕ) : slot start n (k + n) = slot start n k := by
  rw [slot, slot, Nat.add_mod_right]

/-! ## Cells ahead of a pointer -/

/-- The number of pointer steps from {lit}`c` to {lit}`p`. -/
def ahead (start stop c p : ℕ) : ℕ := (p + (stop - start) - c) % (stop - start)

section Ahead

variable {start stop c p : ℕ}

/-- The way ahead in terms of the pointers. -/
theorem ahead_eq (hc : c < stop) (hp : start ≤ p ∧ p < stop) (hs : start ≤ c) :
    ahead start stop c p = if c ≤ p then p - c else p + (stop - start) - c := by
  unfold ahead
  split
  · rw [show p + (stop - start) - c = p - c + (stop - start) by omega, Nat.add_mod_right,
      Nat.mod_eq_of_lt (by omega)]
  · exact Nat.mod_eq_of_lt (by omega)

/-- There is no way to go to oneself. -/
theorem ahead_self : ahead start stop c c = 0 := by
  unfold ahead
  rw [Nat.add_sub_cancel_left, Nat.mod_self]

/-- The next place lies in the buffer. -/
theorem next_mem (hc : start ≤ c ∧ c < stop) :
    start ≤ next start stop c ∧ next start stop c < stop := by
  unfold next
  split <;> omega

/-- A pointer step leaves one cell less ahead. -/
theorem ahead_next (hc : start ≤ c ∧ c < stop) (hp : start ≤ p ∧ p < stop) (hne : c ≠ p) :
    ahead start stop (next start stop c) p + 1 = ahead start stop c p := by
  have hn := next_mem hc
  rw [ahead_eq hc.2 hp hc.1, ahead_eq hn.2 hp hn.1]
  unfold next at hn ⊢
  split_ifs at hn ⊢ <;> omega

/-- The cells after {lit}`c`, without the step. -/
theorem ahead_of_next (hc : start ≤ c ∧ c < stop) (hp : start ≤ p ∧ p < stop) :
    ahead start stop (next start stop c) p = (p + (stop - start) - (c + 1)) % (stop - start) := by
  unfold next
  split_ifs with hend
  · unfold ahead
    rw [hend, show p + (stop - start) - start = p - start + (stop - start) by omega,
      Nat.add_mod_right]
    congr 1
    omega
  · rfl

end Ahead

end Ring
