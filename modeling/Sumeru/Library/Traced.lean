import Mathlib.Logic.Function.Basic
import Mathlib.Data.List.Basic

/-!
# Traced arrays

Computations on an array that record every index they read or write.  The array has
no end here: what lies behind it is memory too, so a computation that leaves the
array goes on, and its record shows that it did.

Main results:

- Theorem {lit}`Traced.indices_bind`: a sequence uses the indices of its parts.
- Theorem {lit}`Traced.result_foldlM`: a loop returns what the loop of the results does.
- Theorems {lit}`Traced.copyIn_cells` and {lit}`Traced.copyOut_result`: a copy into the array and
  one out of it.
-/

universe u

/-- A computation on an array: its result, the array after it, and the indices it uses in
their order. -/
structure Traced (β α : Type u) where
  run : (ℕ → β) → α × (ℕ → β) × List ℕ

namespace Traced

variable {β α γ : Type u}

/-- What the computation returns. -/
def result (p : Traced β α) (c : ℕ → β) : α := (p.run c).1

/-- The array after the computation. -/
def cells (p : Traced β α) (c : ℕ → β) : ℕ → β := (p.run c).2.1

/-- The indices that the computation reads or writes. -/
def indices (p : Traced β α) (c : ℕ → β) : List ℕ := (p.run c).2.2

/-- Computations are equal if they run alike. -/
@[ext]
theorem ext {p q : Traced β α} (h : ∀ c, p.run c = q.run c) : p = q := by
  cases p
  cases q
  congr
  exact funext h

instance : Monad (Traced β) where
  pure a := ⟨fun c => (a, c, [])⟩
  bind p f := ⟨fun c =>
    let next := (f (p.result c)).run (p.cells c)
    (next.1, next.2.1, p.indices c ++ next.2.2)⟩

/-- A pure computation returns its value. -/
@[simp]
theorem result_pure (a : α) (c : ℕ → β) : (pure a : Traced β α).result c = a :=
  rfl

/-- A pure computation keeps the cells. -/
@[simp]
theorem cells_pure (a : α) (c : ℕ → β) : (pure a : Traced β α).cells c = c :=
  rfl

/-- A pure computation uses no index. -/
@[simp]
theorem indices_pure (a : α) (c : ℕ → β) : (pure a : Traced β α).indices c = [] :=
  rfl

section Bind

variable (p : Traced β α) (f : α → Traced β γ) (c : ℕ → β)

/-- The result of two computations in a row. -/
@[simp]
theorem result_bind : (p >>= f).result c = (f (p.result c)).result (p.cells c) :=
  rfl

/-- The cells after two computations in a row. -/
@[simp]
theorem cells_bind : (p >>= f).cells c = (f (p.result c)).cells (p.cells c) :=
  rfl

/-- A sequence uses the indices of its parts. -/
@[simp]
theorem indices_bind :
    (p >>= f).indices c = p.indices c ++ (f (p.result c)).indices (p.cells c) :=
  rfl

end Bind

instance : LawfulMonad (Traced β) := by
  refine LawfulMonad.mk' (Traced β) ?_ ?_ ?_
  · intro α p
    refine ext fun c => Prod.ext rfl (Prod.ext rfl ?_)
    exact List.append_nil _
  · intro α γ a f
    exact ext fun c => rfl
  · intro α γ δ p f g
    refine ext fun c => Prod.ext rfl (Prod.ext rfl ?_)
    exact List.append_assoc ..

/-- A loop whose rounds return what {lit}`g` does. -/
theorem result_foldlM {f : α → γ → Traced β α} {g : α → γ → α}
    (h : ∀ a x c, (f a x).result c = g a x) (l : List γ) (a : α) (c : ℕ → β) :
    (l.foldlM f a).result c = l.foldl g a := by
  induction l generalizing a c with
  | nil => rfl
  | cons x l ih => rw [List.foldlM_cons, result_bind, ih, h, List.foldl_cons]

/-- A loop whose rounds keep to indices of {lit}`Q`. -/
theorem indices_foldlM {f : α → γ → Traced β α} {Q : ℕ → Prop}
    (h : ∀ a x c, ∀ i ∈ (f a x).indices c, Q i) (l : List γ) (a : α) (c : ℕ → β) :
    ∀ i ∈ (l.foldlM f a).indices c, Q i := by
  induction l generalizing a c with
  | nil => exact fun i hi => absurd hi List.not_mem_nil
  | cons x l ih =>
      intro i hi
      rw [List.foldlM_cons, indices_bind, List.mem_append] at hi
      exact hi.elim (h a x c i) (ih _ _ i)

/-! ## Cells -/

/-- Read a cell. -/
def load (i : ℕ) : Traced β β := ⟨fun c => (c i, c, [i])⟩

/-- Write a cell. -/
def store (i : ℕ) (x : β) : Traced β PUnit := ⟨fun c => (⟨⟩, Function.update c i x, [i])⟩

section Cells

variable (i : ℕ) (x : β) (c : ℕ → β)

/-- A load returns the cell. -/
@[simp]
theorem result_load : (load i : Traced β β).result c = c i :=
  rfl

/-- A load keeps the cells. -/
@[simp]
theorem cells_load : (load i : Traced β β).cells c = c :=
  rfl

/-- A load uses its index. -/
@[simp]
theorem indices_load : (load i : Traced β β).indices c = [i] :=
  rfl

/-- A store changes its cell. -/
@[simp]
theorem cells_store : (store i x).cells c = Function.update c i x :=
  rfl

/-- A store uses its index. -/
@[simp]
theorem indices_store : (store i x).indices c = [i] :=
  rfl

end Cells

/-! ## Copies -/

/-- Write a list from index {lit}`i` on. -/
def copyIn : ℕ → List β → Traced β PUnit
  | _, [] => pure ⟨⟩
  | i, x :: xs => do
      store i x
      copyIn (i + 1) xs

/-- Read {lit}`n` cells from index {lit}`i` on. -/
def copyOut : ℕ → ℕ → Traced β (List β)
  | _, 0 => pure []
  | i, n + 1 => do
      let x ← load i
      let xs ← copyOut (i + 1) n
      return x :: xs

/-- Copying in uses the indices in order. -/
@[simp]
theorem copyIn_indices (i : ℕ) (xs : List β) (c : ℕ → β) :
    (copyIn i xs).indices c = List.range' i xs.length := by
  induction xs generalizing i c with
  | nil => rfl
  | cons x xs ih =>
      rw [copyIn, indices_bind, ih, indices_store, List.length_cons, List.range'_succ]
      rfl

/-- Copying in keeps the cells in front. -/
theorem copyIn_cells_of_lt {i j : ℕ} (h : j < i) (xs : List β) (c : ℕ → β) :
    (copyIn i xs).cells c j = c j := by
  induction xs generalizing i c with
  | nil => rfl
  | cons x xs ih =>
      rw [copyIn, cells_bind, ih (by omega), cells_store, Function.update_of_ne (by omega)]

/-- What a copy wrote is there. -/
theorem copyIn_cells (i : ℕ) (xs : List β) (c : ℕ → β) {k : ℕ} (hk : k < xs.length) :
    (copyIn i xs).cells c (i + k) = xs[k] := by
  induction xs generalizing i k c with
  | nil => simp at hk
  | cons x xs ih =>
      rw [copyIn, cells_bind]
      cases k with
      | zero =>
          rw [copyIn_cells_of_lt (by omega), cells_store, List.getElem_cons_zero]
          exact Function.update_self ..
      | succ k =>
          rw [List.getElem_cons_succ, ← Nat.add_assoc, Nat.add_right_comm]
          exact ih (i + 1) _ (by simpa using hk)

/-- Copying out keeps the cells. -/
@[simp]
theorem copyOut_cells (i n : ℕ) (c : ℕ → β) : (copyOut i n).cells c = c := by
  induction n generalizing i with
  | zero => rfl
  | succ n ih => rw [copyOut, cells_bind, cells_bind, cells_load, ih, cells_pure]

/-- A copy reads what is there. -/
@[simp]
theorem copyOut_result (i n : ℕ) (c : ℕ → β) :
    (copyOut i n).result c = (List.range' i n).map c := by
  induction n generalizing i with
  | zero => rfl
  | succ n ih =>
      rw [copyOut, result_bind, result_bind, cells_load, result_load, ih, result_pure,
        List.range'_succ, List.map_cons]

/-- Copying out uses the indices in order. -/
@[simp]
theorem copyOut_indices (i n : ℕ) (c : ℕ → β) : (copyOut i n).indices c = List.range' i n := by
  induction n generalizing i with
  | zero => rfl
  | succ n ih =>
      rw [copyOut, indices_bind, indices_bind, cells_load, indices_load, ih, indices_pure,
        List.append_nil, List.range'_succ]
      rfl

end Traced
