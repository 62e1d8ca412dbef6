import Mathlib.Algebra.BigOperators.Group.Finset.Basic
import Mathlib.Algebra.Order.BigOperators.Group.Finset
import Mathlib.Data.List.Nodup
import Mathlib.Data.List.Range
import Mathlib.Logic.Equiv.Basic
import Mathlib.Tactic.Ring

/-!
# Sorting by exchanges

A sequence is sorted by exchanging elements that stand in the wrong order, at any distance
and in any sequence of steps.  Each such exchange raises one sum, so that there are finitely
many of them however they are chosen.

Main results:

- Theorem {lit}`Exchanges.perm`: exchanges permute the elements.
- Theorem {lit}`Exchanges.le_cube`: there are at most {lit}`n ^ 3` exchanges.
- Theorem {lit}`WeakOrder.sorted_of_adjacent`: if no neighbours stand in the wrong order, none do.
-/

namespace ExchangeSort

variable {α : Type*} {P : α → Prop} {gt : α → α → Prop} {n k i j : ℕ} {x y : ℕ → α}

/-- {lit}`gt` puts the elements with {lit}`P` into an order in which some may be equal. -/
structure WeakOrder (P : α → Prop) (gt : α → α → Prop) : Prop where
  asymm : ∀ {a b}, P a → P b → gt a b → ¬gt b a
  trans : ∀ {a b c}, P a → P b → P c → ¬gt a b → ¬gt b c → ¬gt a c

/-- Two elements are exchanged. -/
def exchange (x : ℕ → α) (i j : ℕ) : ℕ → α := fun l => x (Equiv.swap i j l)

/-- {lit}`k` exchanges of elements in the wrong order lead from one sequence to the other. -/
inductive Exchanges (gt : α → α → Prop) (n : ℕ) (x : ℕ → α) : ℕ → (ℕ → α) → Prop where
  | refl : Exchanges gt n x 0 x
  | exchange {k : ℕ} {y : ℕ → α} {i j : ℕ} (h : Exchanges gt n x k y) (hij : i < j) (hj : j < n)
      (hgt : gt (y i) (y j)) : Exchanges gt n x (k + 1) (exchange y i j)

/-! ## Permutations -/

/-- An exchange stays below the length. -/
theorem swap_lt (hij : i < j) (hj : j < n) (l : ℕ) : Equiv.swap i j l < n ↔ l < n := by
  rw [Equiv.swap_apply_def]
  split_ifs <;> omega

/-- The places are permuted among the first {lit}`n`. -/
theorem Exchanges.exists_perm (h : Exchanges gt n x k y) :
    ∃ σ : Equiv.Perm ℕ, (∀ l, y l = x (σ l)) ∧ ∀ l, σ l < n ↔ l < n := by
  induction h with
  | refl => exact ⟨Equiv.refl ℕ, fun _ => rfl, fun _ => Iff.rfl⟩
  | @exchange k y i j h hij hj hgt ih =>
      obtain ⟨σ, hσ, hlt⟩ := ih
      refine ⟨(Equiv.swap i j).trans σ, fun l => hσ _, fun l => ?_⟩
      rw [Equiv.trans_apply, hlt, swap_lt hij hj]

/-- Exchanges permute the elements. -/
theorem Exchanges.perm (h : Exchanges gt n x k y) :
    ((List.range n).map y).Perm ((List.range n).map x) := by
  obtain ⟨σ, hσ, hlt⟩ := h.exists_perm
  have hmap : (List.range n).map y = ((List.range n).map σ).map x := by
    rw [List.map_map]
    exact List.map_congr_left fun l _ => hσ l
  rw [hmap]
  refine List.Perm.map x ((List.perm_ext_iff_of_nodup ?_ List.nodup_range).mpr fun l => ?_)
  · exact List.nodup_range.map σ.injective
  · rw [List.mem_map, List.mem_range]
    constructor
    · rintro ⟨l', hl', rfl⟩
      exact (hlt l').mpr (List.mem_range.mp hl')
    · intro hl
      refine ⟨σ.symm l, List.mem_range.mpr ((hlt _).mp ?_), σ.apply_symm_apply l⟩
      rwa [σ.apply_symm_apply]

/-! ## The number of exchanges -/

section Count

variable [DecidableRel gt]

/-- How many of the first {lit}`n` elements are smaller. -/
def rank (gt : α → α → Prop) [DecidableRel gt] (n : ℕ) (x : ℕ → α) (a : α) : ℕ :=
  ((Finset.range n).filter fun l => gt a (x l)).card

/-- A rank is at most the length. -/
theorem rank_le (a : α) : rank gt n x a ≤ n := by
  have hcard := Finset.card_filter_le (Finset.range n) fun l => gt a (x l)
  rwa [Finset.card_range] at hcard

/-- A larger element of the sequence has a larger rank. -/
theorem WeakOrder.rank_lt (hgt : WeakOrder P gt) (hx : ∀ l < n, P (x l)) (hi : i < n)
    (hj : j < n) (hij : gt (x i) (x j)) : rank gt n x (x j) < rank gt n x (x i) := by
  refine Finset.card_lt_card ?_
  rw [Finset.ssubset_iff_of_subset]
  · refine ⟨j, Finset.mem_filter.mpr ⟨Finset.mem_range.mpr hj, hij⟩, fun hself => ?_⟩
    have hjj := (Finset.mem_filter.mp hself).2
    exact hgt.asymm (hx j hj) (hx j hj) hjj hjj
  · intro m hm
    obtain ⟨hmem, hm⟩ := Finset.mem_filter.mp hm
    refine Finset.mem_filter.mpr ⟨hmem, ?_⟩
    by_contra hnot
    have hji := hgt.asymm (hx i hi) (hx j hj) hij
    exact hgt.trans (hx j hj) (hx i hi) (hx m (Finset.mem_range.mp hmem)) hji hnot hm

/-- The sum that exchanges raise: large elements count more at later places. -/
def potential (gt : α → α → Prop) [DecidableRel gt] (n : ℕ) (x y : ℕ → α) : ℕ :=
  ∑ l ∈ Finset.range n, l * rank gt n x (y l)

/-- The potential is bounded. -/
theorem potential_le : potential gt n x y ≤ n ^ 3 :=
  calc potential gt n x y ≤ ∑ _l ∈ Finset.range n, n * n := by
        refine Finset.sum_le_sum fun l hl => Nat.mul_le_mul ?_ (rank_le _)
        exact (Finset.mem_range.mp hl).le
    _ = n ^ 3 := by
        rw [Finset.sum_const_nat fun _ _ => rfl, Finset.card_range]
        ring

/-- A sum over the places is the terms of two of them and the rest. -/
theorem sum_eq_two (f : ℕ → ℕ) (hij : i < j) (hj : j < n) :
    ∑ l ∈ Finset.range n, f l =
      f i + (f j + ∑ l ∈ ((Finset.range n).erase i).erase j, f l) := by
  have hi : i ∈ Finset.range n := Finset.mem_range.mpr (hij.trans hj)
  have hj' : j ∈ (Finset.range n).erase i :=
    Finset.mem_erase.mpr ⟨hij.ne', Finset.mem_range.mpr hj⟩
  rw [← Finset.add_sum_erase _ f hi, ← Finset.add_sum_erase _ f hj']

/-- Exchanging a pair that is out of order lowers the potential. -/
theorem potential_exchange (hij : i < j) (hj : j < n)
    (hrank : rank gt n x (y j) < rank gt n x (y i)) :
    potential gt n x y + 1 ≤ potential gt n x (exchange y i j) := by
  have hrest : ∑ l ∈ ((Finset.range n).erase i).erase j, l * rank gt n x (exchange y i j l) =
      ∑ l ∈ ((Finset.range n).erase i).erase j, l * rank gt n x (y l) := by
    refine Finset.sum_congr rfl fun l hl => ?_
    simp only [Finset.mem_erase] at hl
    rw [exchange, Equiv.swap_apply_of_ne_of_ne hl.2.1 hl.1]
  have hi : exchange y i j i = y j := by rw [exchange, Equiv.swap_apply_left]
  have hj' : exchange y i j j = y i := by rw [exchange, Equiv.swap_apply_right]
  rw [potential, potential, sum_eq_two _ hij hj, sum_eq_two _ hij hj, hrest, hi, hj']
  obtain ⟨a, rfl⟩ := Nat.exists_eq_add_of_lt hij
  obtain ⟨b, hb⟩ := Nat.exists_eq_add_of_lt hrank
  rw [hb]
  ring_nf
  omega

/-- There are at most {lit}`n ^ 3` exchanges. -/
theorem Exchanges.le_cube (h : Exchanges gt n x k y) (hgt : WeakOrder P gt)
    (hx : ∀ l < n, P (x l)) : k ≤ n ^ 3 := by
  suffices hk : k ≤ potential gt n x y from hk.trans potential_le
  induction h with
  | refl => exact Nat.zero_le _
  | @exchange k y i j h hij hj hyij ih =>
      obtain ⟨σ, hσ, hlt⟩ := h.exists_perm
      have hrank : rank gt n x (y j) < rank gt n x (y i) := by
        rw [hσ i, hσ j] at hyij ⊢
        exact hgt.rank_lt hx ((hlt i).mpr (hij.trans hj)) ((hlt j).mpr hj) hyij
      exact (Nat.add_le_add_right ih 1).trans (potential_exchange hij hj hrank)

end Count

/-! ## Order -/

/-- If no neighbours stand in the wrong order, no two elements do. -/
theorem WeakOrder.sorted_of_adjacent (hgt : WeakOrder P gt) (hx : ∀ l < n, P (x l))
    (h : ∀ l, l + 1 < n → ¬gt (x l) (x (l + 1))) (hij : i ≤ j) (hj : j < n) :
    ¬gt (x i) (x j) := by
  induction j, hij using Nat.le_induction with
  | base => exact fun hself => hgt.asymm (hx i hj) (hx i hj) hself hself
  | succ j hij ih =>
      exact hgt.trans (hx i (by omega)) (hx j (by omega)) (hx (j + 1) hj) (ih (by omega)) (h j hj)

end ExchangeSort
