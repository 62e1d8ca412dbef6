import Mathlib.Tactic.Linarith

/-!
# Delay lines

A pipeline of {lit}`n` registers that takes one sample per clock edge, with the
fact that justifies waiting for it: an input that has been held for {lit}`m`
edges fills the newest {lit}`m` stages.
-/

namespace DelayLine

variable {α : Type*} {n : ℕ}

/-- One clock edge: the new sample enters stage zero and the others move on. -/
def push (x : α) (line : Fin n → α) : Fin n → α :=
  fun k => if k.val = 0 then x else line ⟨k.val - 1, by omega⟩

/-- The newest {lit}`m` samples of the line are all {lit}`x`. -/
def Holds (line : Fin n → α) (m : ℕ) (x : α) : Prop :=
  ∀ k : Fin n, k.val < m → line k = x

/-- An empty delay line holds nothing. -/
theorem holds_zero (line : Fin n → α) (x : α) : Holds line 0 x := by
  intro k hk
  omega

/-- Sampling a held input once more extends the filled part by one stage. -/
theorem Holds.push {line : Fin n → α} {m : ℕ} {x : α} (h : Holds line m x) :
    Holds (push x line) (m + 1) x := by
  intro k hk
  unfold DelayLine.push
  split
  · rfl
  · exact h _ (by simp only; omega)

end DelayLine
