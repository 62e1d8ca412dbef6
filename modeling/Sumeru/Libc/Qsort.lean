import Sumeru.Library.ByteMemory
import Sumeru.Library.ExchangeSort

/-!
# Sumeru - qsort.c and bsearch.c

{lit}`qsort` is a comb sort on an array of elements of any size, {lit}`bsearch` a binary search in a
sorted one.  A comparison function is given the bytes of its two elements.  The addresses of
the array do not wrap around.

Main results:

- Theorem {lit}`qsort_sorts`: {lit}`qsort` ends, with the elements sorted and nothing else changed.
- Theorem {lit}`bsearch_qsort`: on the sorted array {lit}`bsearch` finds what the array contains.
-/

namespace Sumeru

open ExchangeSort

/-! ## The functions -/

/-- The loop of {lit}`memswap`. -/
def memswap (m : ByteMemory) (p q : ℕ) : ℕ → ByteMemory
  | 0 => m
  | n + 1 =>
      let tmp := m p
      memswap ((m.setByte p (m q)).setByte q tmp) (p + 1) (q + 1) n

/-- The bytes of an element. -/
def element (m : ByteMemory) (base size i : ℕ) : List (BitVec 8) :=
  (List.range size).map fun k => m (base + i * size + k)

/-- {lit}`newgap`. -/
def newgap (gap : ℕ) : ℕ :=
  let gap := gap * 10 % 2 ^ 32 / 13
  let gap := if gap = 9 ∨ gap = 10 then 11 else gap
  if gap < 1 then 1 else gap

/-- The comparison function of a call. -/
abbrev Compar := List (BitVec 8) → List (BitVec 8) → ℤ

/-- The {lit}`for` loop of {lit}`qsort` from {lit}`i` on: the memory and {lit}`swapped`. -/
def qsortPass (compar : Compar) (base size gap : ℕ) :
    ℕ → ℕ → ByteMemory × Bool → ByteMemory × Bool
  | 0, _, r => r
  | k + 1, i, (m, swapped) =>
      let j := i + gap
      if 0 < compar (element m base size i) (element m base size j) then
        qsortPass compar base size gap k (i + 1)
          (memswap m (base + i * size) (base + j * size) size, true)
      else qsortPass compar base size gap k (i + 1) (m, swapped)

/-- The {lit}`do` loop of {lit}`qsort`; {lit}`none` says that the bound on its rounds was reached. -/
def qsortLoop (compar : Compar) (base nmemb size : ℕ) : ℕ → ℕ → ByteMemory → Option ByteMemory
  | 0, _, _ => none
  | fuel + 1, gap, m =>
      let gap := newgap gap
      let r := qsortPass compar base size gap (nmemb - gap) 0 (m, false)
      if 1 < gap ∨ r.2 then qsortLoop compar base nmemb size fuel gap r.1 else some r.1

/-- {lit}`qsort`. -/
def qsort (fuel : ℕ) (m : ByteMemory) (base nmemb size : ℕ) (compar : Compar) :
    Option ByteMemory :=
  if nmemb = 0 then some m else qsortLoop compar base nmemb size fuel nmemb m

/-- {lit}`bsearch` for a key with the bytes {lit}`key`; {lit}`none` is NULL. -/
def bsearch (key : List (BitVec 8)) (m : ByteMemory) (base nmemb size : ℕ) (cmp : Compar) :
    Option ℕ :=
  if nmemb = 0 then none
  else
    let mididx := nmemb / 2
    let midobj := base + mididx * size
    let diff := cmp key (element m midobj size 0)
    if diff = 0 then some midobj
    else if 0 < diff then bsearch key m (midobj + size) (nmemb - (mididx + 1)) size cmp
    else bsearch key m base mididx size cmp
termination_by nmemb

/-! ## Exchange of two elements -/

section Exchange

variable {m : ByteMemory} {base size i j l n p q a k : ℕ}

/-- Two areas that do not overlap are exchanged. -/
theorem memswap_apply (hpq : p + n ≤ q) :
    memswap m p q n a =
      if p ≤ a ∧ a < p + n then m (a - p + q)
      else if q ≤ a ∧ a < q + n then m (a - q + p) else m a := by
  induction n generalizing m p q with
  | zero =>
      rw [memswap, if_neg (by omega), if_neg (by omega)]
  | succ n ih =>
      rw [memswap, ih (by omega)]
      have hset : ∀ b, ((m.setByte p (m q)).setByte q (m p)) b =
          if b = p then m q else if b = q then m p else m b := by
        intro b
        by_cases hb : b = q
        · subst hb
          rw [ByteMemory.setByte_self, if_neg (by omega), if_pos rfl]
        · rw [ByteMemory.setByte_of_ne hb]
          by_cases hbp : b = p
          · rw [hbp, ByteMemory.setByte_self, if_pos rfl]
          · rw [ByteMemory.setByte_of_ne hbp, if_neg hbp, if_neg hb]
      simp only [hset]
      split_ifs <;> first | omega | (congr 1; omega) | rfl

/-- Elements at different places do not overlap. -/
theorem slot_apart (h : i < l) : i * size + size ≤ l * size :=
  calc i * size + size = (i + 1) * size := (Nat.succ_mul i size).symm
    _ ≤ l * size := Nat.mul_le_mul_right size h

/-- {lit}`memswap` exchanges two elements of the array. -/
theorem element_memswap (hij : i < j) :
    element (memswap m (base + i * size) (base + j * size) size) base size =
      exchange (element m base size) i j := by
  funext l
  have hapart : i * size + size ≤ j * size := slot_apart hij
  simp only [element, exchange, Equiv.swap_apply_def]
  refine List.map_congr_left fun k hk => ?_
  rw [List.mem_range] at hk
  rw [memswap_apply (by omega)]
  by_cases hli : l = i
  · subst hli
    rw [if_pos ⟨by omega, by omega⟩, if_pos rfl]
    congr 1
    omega
  by_cases hlj : l = j
  · subst hlj
    rw [if_neg (by omega), if_pos ⟨by omega, by omega⟩, if_neg hli, if_pos rfl]
    congr 1
    omega
  -- a third element overlaps neither of the two
  have hi : l * size + size ≤ i * size ∨ i * size + size ≤ l * size :=
    (Nat.lt_or_gt_of_ne hli).imp slot_apart slot_apart
  have hj : l * size + size ≤ j * size ∨ j * size + size ≤ l * size :=
    (Nat.lt_or_gt_of_ne hlj).imp slot_apart slot_apart
  rw [if_neg (by omega), if_neg (by omega), if_neg hli, if_neg hlj]

/-- Bytes outside the array are not touched. -/
theorem memswap_outside (hij : i < j) (hj : j < n)
    (ha : a < base ∨ base + n * size ≤ a) :
    memswap m (base + i * size) (base + j * size) size a = m a := by
  have hapart : i * size + size ≤ j * size := slot_apart hij
  have hend : j * size + size ≤ n * size := slot_apart hj
  rw [memswap_apply (by omega), if_neg (by omega), if_neg (by omega)]

end Exchange

/-! ## Sorting -/

/-- The elements with {lit}`P` are ordered consistently, as {lit}`qsort` requires. -/
structure Comparator (P : List (BitVec 8) → Prop) (compar : Compar) : Prop where
  flip : ∀ {a b}, P a → P b → (0 < compar a b ↔ compar b a < 0)
  trans : ∀ {a b c}, P a → P b → P c → compar a b ≤ 0 → compar b c ≤ 0 → compar a c ≤ 0

/-- The order in which two elements are exchanged. -/
def Compar.Wrong (compar : Compar) (a b : List (BitVec 8)) : Prop := 0 < compar a b

instance (compar : Compar) : DecidableRel compar.Wrong :=
  fun a b => inferInstanceAs (Decidable (0 < compar a b))

/-- A memory in the course of a sort. -/
structure Sorting (compar : Compar) (base nmemb size : ℕ) (m : ByteMemory) (k : ℕ)
    (m' : ByteMemory) : Prop where
  exchanges : Exchanges compar.Wrong nmemb (element m base size) k (element m' base size)
  outside : ∀ a, a < base ∨ base + nmemb * size ≤ a → m' a = m a

section Sorts

variable {P : List (BitVec 8) → Prop} {compar : Compar} {m m' : ByteMemory}
  {base nmemb size gap i j k c fuel : ℕ} {s : Bool}

/-- A comparator orders the elements. -/
theorem Comparator.weakOrder (h : Comparator P compar) : WeakOrder P compar.Wrong where
  asymm ha hb hab hba := by
    have hlt := (h.flip ha hb).mp hab
    have hgt : 0 < compar _ _ := hba
    omega
  trans ha hb hc hab hbc hac :=
    absurd (h.trans ha hb hc (not_lt.mp hab) (not_lt.mp hbc)) (not_le.mpr hac)

/-- An exchange keeps the invariant of the sort. -/
theorem Sorting.memswap (h : Sorting compar base nmemb size m k m') (hij : i < j)
    (hj : j < nmemb) (hwrong : 0 < compar (element m' base size i) (element m' base size j)) :
    Sorting compar base nmemb size m (k + 1)
      (memswap m' (base + i * size) (base + j * size) size) where
  exchanges := by
    rw [element_memswap hij]
    exact h.exchanges.exchange hij hj hwrong
  outside a ha := (memswap_outside hij hj ha).trans (h.outside a ha)

/-- A pass exchanges elements, or it finds none at this distance in the wrong order. -/
theorem Sorting.qsortPass (h : Sorting compar base nmemb size m k m') (hgap : 0 < gap)
    (hc : i + c + gap ≤ nmemb) :
    (qsortPass compar base size gap c i (m', s) = (m', s) ∧ ∀ l, i ≤ l → l < i + c →
      ¬compar.Wrong (element m' base size l) (element m' base size (l + gap))) ∨
    ∃ m'' k', qsortPass compar base size gap c i (m', s) = (m'', true) ∧ k < k' ∧
      Sorting compar base nmemb size m k' m'' := by
  induction c generalizing i m' k s with
  | zero => exact .inl ⟨rfl, fun l hl hl' => by omega⟩
  | succ c ih =>
      rw [Sumeru.qsortPass]
      by_cases hwrong : 0 < compar (element m' base size i) (element m' base size (i + gap))
      · rw [if_pos hwrong]
        have hswap := h.memswap (j := i + gap) (by omega) (by omega) hwrong
        rcases ih (i := i + 1) (s := true) hswap (by omega) with ⟨heq, _⟩ | ⟨m'', k', heq, hk, hm''⟩
        · exact .inr ⟨_, k + 1, heq, Nat.lt_succ_self k, hswap⟩
        · exact .inr ⟨m'', k', heq, by omega, hm''⟩
      · rw [if_neg hwrong]
        rcases ih (i := i + 1) (s := s) h (by omega) with ⟨heq, hright⟩ | hmore
        · refine .inl ⟨heq, fun l hl hl' => ?_⟩
          rcases hl.eq_or_lt with rfl | hl
          · exact hwrong
          · exact hright l hl (by omega)
        · exact .inr hmore

/-- The gap stays positive. -/
theorem newgap_pos : 0 < newgap gap := by
  unfold newgap
  grind

/-- The gap shrinks to one. -/
theorem newgap_lt (hgap : 1 < gap) : newgap gap < gap := by
  unfold newgap
  grind

/-- The last gap is one. -/
theorem newgap_one : newgap 1 = 1 := rfl

/-- The rounds end: each one shrinks the gap or exchanges elements. -/
theorem Sorting.qsortLoop (hcmp : Comparator P compar)
    (hP : ∀ l < nmemb, P (element m base size l))
    (h : Sorting compar base nmemb size m k m') (hgap : 0 < gap) (hle : gap ≤ nmemb)
    (hfuel : gap + (nmemb ^ 3 - k) ≤ fuel) :
    ∃ m'' k', qsortLoop compar base nmemb size fuel gap m' = some m'' ∧
      Sorting compar base nmemb size m k' m'' ∧ ∀ l, l + 1 < nmemb →
        ¬compar.Wrong (element m'' base size l) (element m'' base size (l + 1)) := by
  induction fuel generalizing gap m' k with
  | zero => omega
  | succ fuel ih =>
      have hpos : 0 < newgap gap := newgap_pos
      have hnew : newgap gap ≤ gap := by
        rcases (Nat.succ_le_of_lt hgap).eq_or_lt with hone | hone
        · rw [← hone, newgap_one]
        · exact (newgap_lt hone).le
      rw [Sumeru.qsortLoop]
      rcases h.qsortPass (i := 0) (c := nmemb - newgap gap) (s := false) hpos (by omega) with
        ⟨heq, hright⟩ | ⟨m'', k', heq, hk, hm''⟩
      · simp only [heq]
        by_cases hone : 1 < newgap gap
        · rw [if_pos (.inl hone)]
          exact ih h hpos (hnew.trans hle) (by have := newgap_lt (hone.trans_le hnew); omega)
        · rw [if_neg (by simpa using not_lt.mp hone)]
          refine ⟨m', k, rfl, h, fun l hl => ?_⟩
          have hlast : newgap gap = 1 := by omega
          rw [hlast] at hright
          exact hright l (Nat.zero_le l) (by omega)
      · simp only [heq]
        rw [if_pos (.inr trivial)]
        have hcube := hm''.exchanges.le_cube hcmp.weakOrder hP
        exact ih hm'' hpos (hnew.trans hle) (by omega)

end Sorts

/-- The elements of the array. -/
def elements (m : ByteMemory) (base nmemb size : ℕ) : List (List (BitVec 8)) :=
  (List.range nmemb).map (element m base size)

section Array

variable {P : List (BitVec 8) → Prop} {compar : Compar} {m : ByteMemory}
  {base nmemb size fuel : ℕ}

/-- An element of the array. -/
theorem element_mem {i : ℕ} (hi : i < nmemb) :
    element m base size i ∈ elements m base nmemb size :=
  List.mem_map.mpr ⟨i, List.mem_range.mpr hi, rfl⟩

/-- After {lit}`qsort` the array holds the same elements in order, and the rest of memory is as
before. -/
theorem qsort_elements (hcmp : Comparator P compar)
    (hP : ∀ e ∈ elements m base nmemb size, P e) (hfuel : nmemb ^ 3 + nmemb ≤ fuel) :
    ∃ m', qsort fuel m base nmemb size compar = some m' ∧
      (elements m' base nmemb size).Perm (elements m base nmemb size) ∧
      (elements m' base nmemb size).Pairwise (fun a b => compar a b ≤ 0) ∧
      ∀ a, a < base ∨ base + nmemb * size ≤ a → m' a = m a := by
  rw [qsort]
  by_cases hn : nmemb = 0
  · subst hn
    exact ⟨m, if_pos rfl, .refl _, .nil, fun _ _ => rfl⟩
  · rw [if_neg hn]
    have hstart : Sorting compar base nmemb size m 0 m := ⟨.refl, fun _ _ => rfl⟩
    have hbound : nmemb + (nmemb ^ 3 - 0) ≤ fuel := by omega
    obtain ⟨m', k, heq, hm', hright⟩ := hstart.qsortLoop hcmp
      (fun l hl => hP _ (element_mem hl)) (Nat.pos_of_ne_zero hn) le_rfl hbound
    have hperm := hm'.exchanges.perm
    refine ⟨m', heq, hperm, ?_, hm'.outside⟩
    rw [elements, List.pairwise_map]
    refine List.Pairwise.imp_of_mem (fun {i j} _ hj hij => ?_) List.pairwise_lt_range
    exact not_lt.mp (hcmp.weakOrder.sorted_of_adjacent
      (fun l hl => hP _ (hperm.subset (element_mem hl))) hright hij.le (List.mem_range.mp hj))

end Array

/-- Elements of one byte, compared as unsigned numbers. -/
def compareBytes : Compar := fun a b => ((a.headD 0).toNat : ℤ) - ((b.headD 0).toNat : ℤ)

/-- Bytes can be compared. -/
theorem compareBytes_comparator : Comparator (fun _ => True) compareBytes where
  flip _ _ := by
    unfold compareBytes
    omega
  trans _ _ _ := by
    unfold compareBytes
    omega

/-- With a consistent comparison {lit}`qsort` ends; the array then holds the same elements in
ascending order, and no byte outside of it has changed. -/
theorem qsort_sorts (P : List (BitVec 8) → Prop) (compar : Compar) (m : ByteMemory)
    (base nmemb size fuel : ℕ) (hcmp : Comparator P compar)
    (hP : ∀ e ∈ elements m base nmemb size, P e) (hfuel : nmemb ^ 3 + nmemb ≤ fuel) :
    ∃ m', qsort fuel m base nmemb size compar = some m' ∧
      (elements m' base nmemb size).Perm (elements m base nmemb size) ∧
      (elements m' base nmemb size).Pairwise (fun a b => compar a b ≤ 0) ∧
      ∀ a, a < base ∨ base + nmemb * size ≤ a → m' a = m a :=
  qsort_elements hcmp hP hfuel

/-- Two bytes are sorted. -/
theorem qsort_sorts_bytes :
    ∃ m', qsort 10 (fun a => if a = 8 then 7 else 3) 8 2 1 compareBytes = some m' ∧
      (elements m' 8 2 1).Perm [[7], [3]] ∧
      (elements m' 8 2 1).Pairwise (fun a b => compareBytes a b ≤ 0) ∧
      ∀ a, a < 8 ∨ 8 + 2 * 1 ≤ a → m' a = if a = 8 then 7 else 3 :=
  qsort_sorts (fun _ => True) compareBytes (fun a => if a = 8 then 7 else 3) 8 2 1 10
    compareBytes_comparator (fun _ _ => trivial) (by decide)

/-! ## Searching -/

section Search

variable {key : List (BitVec 8)} {cmp : Compar} {m : ByteMemory} {base nmemb size i p : ℕ}

/-- Elements counted from a later one. -/
theorem element_shift (l : ℕ) :
    element m (base + i * size) size l = element m base size (i + l) := by
  simp only [element, Nat.add_mul, Nat.add_assoc]

/-- What {lit}`bsearch` returns compares equal to the key. -/
theorem bsearch_found (h : bsearch key m base nmemb size cmp = some p) :
    ∃ i < nmemb, p = base + i * size ∧ cmp key (element m base size i) = 0 := by
  fun_induction bsearch key m base nmemb size cmp with
  | case1 => cases h
  | case2 base nmemb hn mididx midobj diff hdiff =>
      refine ⟨mididx, Nat.div_lt_self (Nat.pos_of_ne_zero hn) one_lt_two, ?_, ?_⟩
      · exact (Option.some.inj h).symm
      · exact (congrArg (cmp key) (element_shift 0)).symm.trans hdiff
  | case3 base nmemb hn mididx midobj diff hdiff hpos ih =>
      have hmid : midobj + size = base + (mididx + 1) * size := by
        rw [Nat.succ_mul, ← Nat.add_assoc]
      obtain ⟨i, hi, hp, heq⟩ := ih h
      rw [hmid] at hp heq
      rw [element_shift] at heq
      exact ⟨mididx + 1 + i, by omega, by rw [hp, Nat.add_mul (mididx + 1), Nat.add_assoc], heq⟩
  | case4 base nmemb hn mididx midobj diff hdiff hneg ih =>
      obtain ⟨i, hi, hp, heq⟩ := ih h
      exact ⟨i, hi.trans_le (Nat.div_le_self _ _), hp, heq⟩

/-- In a sorted array {lit}`bsearch` misses nothing: elements below the key come first, elements
above it last. -/
theorem bsearch_none (h : bsearch key m base nmemb size cmp = none)
    (hbelow : ∀ i j, i ≤ j → j < nmemb → 0 < cmp key (element m base size j) →
      0 < cmp key (element m base size i))
    (habove : ∀ i j, i ≤ j → j < nmemb → cmp key (element m base size i) < 0 →
      cmp key (element m base size j) < 0) :
    ∀ i < nmemb, cmp key (element m base size i) ≠ 0 := by
  fun_induction bsearch key m base nmemb size cmp with
  | case1 => exact fun i hi => absurd hi (Nat.not_lt_zero i)
  | case2 => cases h
  | case3 base nmemb hn mididx midobj diff hdiff hpos ih =>
      have hmid : midobj + size = base + (mididx + 1) * size := by
        rw [Nat.succ_mul, ← Nat.add_assoc]
      have hdiff' : diff = cmp key (element m base size mididx) :=
        congrArg (cmp key) (element_shift 0)
      simp only [hmid, element_shift] at ih h
      intro i hi
      by_cases hlow : i ≤ mididx
      · exact (hbelow i mididx hlow (by omega) (hdiff' ▸ hpos)).ne'
      · have hrest := ih h (fun i j hij hj => hbelow _ _ (by omega) (by omega))
          (fun i j hij hj => habove _ _ (by omega) (by omega)) (i - (mididx + 1)) (by omega)
        rwa [Nat.add_sub_cancel' (by omega)] at hrest
  | case4 base nmemb hn mididx midobj diff hdiff hneg ih =>
      have hdiff' : diff = cmp key (element m base size mididx) :=
        congrArg (cmp key) (element_shift 0)
      have hlt : mididx < nmemb := Nat.div_lt_self (Nat.pos_of_ne_zero hn) one_lt_two
      intro i hi
      by_cases hlow : i < mididx
      · exact ih h (fun i j hij hj => hbelow i j hij (hj.trans hlt))
          (fun i j hij hj => habove i j hij (hj.trans hlt)) i hlow
      · exact (habove mididx i (not_lt.mp hlow) hi (by omega)).ne

/-- The elements of a sorted array by their places. -/
theorem sorted_places {compar : Compar} {j : ℕ}
    (h : (elements m base nmemb size).Pairwise (fun a b => compar a b ≤ 0)) (hij : i < j)
    (hj : j < nmemb) : compar (element m base size i) (element m base size j) ≤ 0 := by
  have hlen : (elements m base nmemb size).length = nmemb := by
    rw [elements, List.length_map, List.length_range]
  have hget := List.pairwise_iff_getElem.mp h i j (by omega) (by omega) hij
  simpa only [elements, List.getElem_map, List.getElem_range] using hget

end Search

/-- In the array that {lit}`qsort` leaves, {lit}`bsearch` with the same comparison returns NULL
exactly if no element of the array equals the key; else it returns the place of such an
element. -/
theorem bsearch_qsort (P : List (BitVec 8) → Prop) (compar : Compar) (m : ByteMemory)
    (base nmemb size fuel : ℕ) (key : List (BitVec 8)) (hcmp : Comparator P compar)
    (hP : ∀ e ∈ elements m base nmemb size, P e) (hkey : P key)
    (hfuel : nmemb ^ 3 + nmemb ≤ fuel) :
    ∃ m', qsort fuel m base nmemb size compar = some m' ∧
      (bsearch key m' base nmemb size compar = none ↔
        ∀ e ∈ elements m base nmemb size, compar key e ≠ 0) ∧
      ∀ p, bsearch key m' base nmemb size compar = some p → ∃ i < nmemb,
        p = base + i * size ∧ element m' base size i ∈ elements m base nmemb size ∧
          compar key (element m' base size i) = 0 := by
  obtain ⟨m', hsort, hperm, hsorted, _⟩ := qsort_elements hcmp hP hfuel
  have hmem : ∀ {i}, i < nmemb → element m' base size i ∈ elements m base nmemb size :=
    fun hi => hperm.subset (element_mem hi)
  refine ⟨m', hsort, ⟨fun hnone e he => ?_, fun hall => ?_⟩, fun p hp => ?_⟩
  · obtain ⟨i, hi, rfl⟩ := List.mem_map.mp (hperm.symm.subset he)
    refine bsearch_none hnone (fun i j hij hj hlow => ?_) (fun i j hij hj hhigh => ?_) i
      (List.mem_range.mp hi)
    · rcases hij.eq_or_lt with rfl | hij
      · exact hlow
      · by_contra hnot
        have hle := hcmp.trans hkey (hP _ (hmem (hij.trans hj))) (hP _ (hmem hj)) (not_lt.mp hnot)
          (sorted_places hsorted hij hj)
        omega
    · rcases hij.eq_or_lt with rfl | hij
      · exact hhigh
      · have hi := hP _ (hmem (hij.trans hj))
        have hj' := hP _ (hmem hj)
        by_contra hnot
        have hle := hcmp.trans hi hj' hkey (sorted_places hsorted hij hj)
          (not_lt.mp fun hlt => hnot ((hcmp.flip hj' hkey).mp hlt))
        have hlt := (hcmp.flip hi hkey).mpr hhigh
        omega
  · cases hfound : bsearch key m' base nmemb size compar with
    | none => rfl
    | some p =>
        obtain ⟨i, hi, _, heq⟩ := bsearch_found hfound
        exact absurd heq (hall _ (hmem hi))
  · obtain ⟨i, hi, heq, hzero⟩ := bsearch_found hp
    exact ⟨i, hi, heq, hmem hi, hzero⟩

/-- A byte is found in a sorted array of two. -/
theorem bsearch_qsort_bytes :
    ∃ m', qsort 10 (fun a => if a = 8 then 7 else 3) 8 2 1 compareBytes = some m' ∧
      (bsearch [7] m' 8 2 1 compareBytes = none ↔
        ∀ e ∈ elements (fun a => if a = 8 then 7 else 3) 8 2 1, compareBytes [7] e ≠ 0) ∧
      ∀ p, bsearch [7] m' 8 2 1 compareBytes = some p → ∃ i < 2,
        p = 8 + i * 1 ∧
          element m' 8 1 i ∈ elements (fun a => if a = 8 then 7 else 3) 8 2 1 ∧
          compareBytes [7] (element m' 8 1 i) = 0 :=
  bsearch_qsort (fun _ => True) compareBytes (fun a => if a = 8 then 7 else 3) 8 2 1 10 [7]
    compareBytes_comparator (fun _ _ => trivial) trivial (by decide)

end Sumeru
