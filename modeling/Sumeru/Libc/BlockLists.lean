import Sumeru.Libc.Headers

/-!
# Sumeru - Handing out and taking back blocks

What the allocator does to the list of its blocks, without memory: a free block is carved,
and a freed block is merged with its neighbours.  Neither loses or gains a byte, neither
changes another block, and two free blocks that touch are never left behind.

Main results:

- Theorems {lit}`Arena.covers_carve` and {lit}`Arena.covers_release`: the blocks cover the same
  bytes as before.
- Theorems {lit}`Arena.coalesced_carve` and {lit}`Arena.coalesced_release`: no two free blocks
  touch.
-/

namespace Sumeru

namespace Arena

variable {blocks bs₁ bs₂ : List Block} {b c d : Block} {n a : ℕ}

/-! ## Operations -/

/-- {lit}`__malloc_from_block`: the used block and what remains of a free one. -/
def carve (b : Block) (n : ℕ) : List Block :=
  if n + 2 * headerSize ≤ b.size then
    [⟨b.addr, n, .used⟩, ⟨b.addr + n, b.size - n, .free⟩]
  else [{ b with status := .used }]

/-- The first half of {lit}`__free_block`: the blocks before, and the free block. -/
def joinPrev (bs₁ : List Block) (b : Block) : List Block × Block :=
  match bs₁.getLast? with
  | some c =>
      if c.status = .free ∧ c.stop = b.addr then
        (bs₁.dropLast, ⟨c.addr, c.size + b.size, .free⟩)
      else (bs₁, { b with status := .free })
  | none => (bs₁, { b with status := .free })

/-- The second half of {lit}`__free_block`. -/
def joinNext (b : Block) : List Block → List Block
  | [] => [b]
  | c :: bs₂ =>
      if c.status = .free ∧ b.stop = c.addr then ⟨b.addr, b.size + c.size, .free⟩ :: bs₂
      else b :: c :: bs₂

/-- {lit}`__free_block` on the block between {lit}`bs₁` and {lit}`bs₂`. -/
def release (bs₁ : List Block) (b : Block) (bs₂ : List Block) : List Block :=
  (joinPrev bs₁ b).1 ++ joinNext (joinPrev bs₁ b).2 bs₂

/-- What the first half of {lit}`__free_block` can do. -/
theorem joinPrev_cases (bs₁ : List Block) (b : Block) :
    (∃ l c, bs₁ = l ++ [c] ∧ c.status = .free ∧ c.stop = b.addr ∧
      joinPrev bs₁ b = (l, ⟨c.addr, c.size + b.size, .free⟩)) ∨
    ((∀ l c, bs₁ = l ++ [c] → ¬(c.status = .free ∧ c.stop = b.addr)) ∧
      joinPrev bs₁ b = (bs₁, { b with status := .free })) := by
  obtain rfl | ⟨l, c, rfl⟩ := bs₁.eq_nil_or_concat
  · exact Or.inr ⟨fun l c hc => by simp at hc, rfl⟩
  · simp only [joinPrev, List.concat_eq_append, List.getLast?_concat, List.dropLast_concat]
    split_ifs with hc
    · exact Or.inl ⟨l, c, rfl, hc.1, hc.2, rfl⟩
    · refine Or.inr ⟨fun l' c' heq => ?_, rfl⟩
      obtain ⟨-, rfl⟩ := List.append_singleton_inj.mp heq
      exact hc

/-- What the second half of {lit}`__free_block` can do. -/
theorem joinNext_cases (b : Block) (bs₂ : List Block) :
    (∃ c l, bs₂ = c :: l ∧ c.status = .free ∧ b.stop = c.addr ∧
      joinNext b bs₂ = ⟨b.addr, b.size + c.size, .free⟩ :: l) ∨
    ((∀ c l, bs₂ = c :: l → ¬(c.status = .free ∧ b.stop = c.addr)) ∧
      joinNext b bs₂ = b :: bs₂) := by
  cases bs₂ with
  | nil => exact Or.inr ⟨fun c l hc => by simp at hc, rfl⟩
  | cons c l =>
      simp only [joinNext]
      split_ifs with hc
      · exact Or.inl ⟨c, l, rfl, hc.1, hc.2, rfl⟩
      · refine Or.inr ⟨fun c' l' heq => ?_, rfl⟩
        obtain ⟨rfl, rfl⟩ := List.cons.inj heq
        exact hc

/-! ## Bytes -/

/-- A byte is in a block. -/
def Block.Contains (b : Block) (a : ℕ) : Prop := b.addr ≤ a ∧ a < b.stop

/-- A byte is in one of the blocks. -/
def Covers (blocks : List Block) (a : ℕ) : Prop := ∃ b ∈ blocks, b.Contains a

/-- The sum of the sizes. -/
def totalSize (blocks : List Block) : ℕ := (blocks.map Block.size).sum

/-- The blocks that are handed out. -/
def usedBlocks (blocks : List Block) : List Block := blocks.filter fun b => b.status = .used

/-- No blocks cover nothing. -/
theorem not_covers_nil : ¬Covers [] a := by
  simp [Covers]

/-- Lists of blocks cover their bytes together. -/
theorem covers_append : Covers (bs₁ ++ bs₂) a ↔ Covers bs₁ a ∨ Covers bs₂ a := by
  simp only [Covers, List.mem_append]
  grind

/-- The first block covers its own bytes. -/
theorem covers_cons : Covers (b :: blocks) a ↔ b.Contains a ∨ Covers blocks a := by
  simp [Covers]

/-- Two blocks that touch contain the bytes of their union. -/
theorem contains_join (hbc : b.stop = c.addr) (st : Status) :
    Block.Contains ⟨b.addr, b.size + c.size, st⟩ a ↔ b.Contains a ∨ c.Contains a := by
  simp only [Block.Contains, Block.stop] at hbc ⊢
  omega

/-- Carving keeps the bytes of the block. -/
theorem covers_carve : Covers (carve b n) a ↔ b.Contains a := by
  simp only [carve]
  split_ifs with hn
  · simp only [covers_cons, not_covers_nil, or_false, Block.Contains, Block.stop]
    omega
  · simp only [covers_cons, not_covers_nil, or_false, Block.Contains, Block.stop]

/-- Releasing keeps the bytes of the blocks. -/
theorem covers_release : Covers (release bs₁ b bs₂) a ↔ Covers (bs₁ ++ b :: bs₂) a := by
  have hprev : Covers ((joinPrev bs₁ b).1 ++ (joinPrev bs₁ b).2 :: bs₂) a ↔
      Covers (bs₁ ++ b :: bs₂) a := by
    obtain ⟨l, c, rfl, -, hcb, heq⟩ | ⟨-, heq⟩ := joinPrev_cases bs₁ b
    · rw [heq]
      simp only [covers_append, covers_cons, contains_join hcb, not_covers_nil, or_false]
      tauto
    · rw [heq]
      simp only [covers_append, covers_cons, Block.Contains, Block.stop]
  rw [← hprev, release]
  obtain ⟨c, l, rfl, -, hbc, heq⟩ | ⟨-, heq⟩ := joinNext_cases (joinPrev bs₁ b).2 bs₂
  · rw [heq]
    simp only [covers_append, covers_cons, contains_join hbc]
    tauto
  · rw [heq]

/-- Sizes add up along a list. -/
theorem totalSize_append : totalSize (bs₁ ++ bs₂) = totalSize bs₁ + totalSize bs₂ := by
  simp [totalSize]

/-- The first block counts with its size. -/
theorem totalSize_cons : totalSize (b :: blocks) = b.size + totalSize blocks := by
  simp [totalSize]

/-- Carving keeps the size. -/
theorem totalSize_carve : totalSize (carve b n) = b.size := by
  simp only [carve]
  split_ifs with hn
  · simp only [totalSize, List.map_cons, List.map_nil, List.sum_cons, List.sum_nil]
    omega
  · simp [totalSize]

/-- Releasing keeps the size. -/
theorem totalSize_release : totalSize (release bs₁ b bs₂) = totalSize (bs₁ ++ b :: bs₂) := by
  have hprev : totalSize ((joinPrev bs₁ b).1 ++ (joinPrev bs₁ b).2 :: bs₂) =
      totalSize (bs₁ ++ b :: bs₂) := by
    obtain ⟨l, c, rfl, -, -, heq⟩ | ⟨-, heq⟩ := joinPrev_cases bs₁ b
    · simp only [heq, totalSize_append, totalSize_cons]
      simp only [totalSize, List.map_nil, List.sum_nil]
      omega
    · simp only [heq, totalSize_append, totalSize_cons]
  rw [← hprev, release]
  obtain ⟨c, l, rfl, -, -, heq⟩ | ⟨-, heq⟩ := joinNext_cases (joinPrev bs₁ b).2 bs₂
  · simp only [heq, totalSize_append, totalSize_cons]
    omega
  · rw [heq]

/-! ## Blocks in use -/

/-- The used blocks of a list, part by part. -/
theorem usedBlocks_append : usedBlocks (bs₁ ++ bs₂) = usedBlocks bs₁ ++ usedBlocks bs₂ :=
  List.filter_append ..

/-- Other blocks are not counted as used. -/
theorem usedBlocks_cons_of_ne (hb : b.status ≠ .used) :
    usedBlocks (b :: blocks) = usedBlocks blocks := by
  simp [usedBlocks, hb]

/-- A used block comes first among the used ones. -/
theorem usedBlocks_cons_used (hb : b.status = .used) :
    usedBlocks (b :: blocks) = b :: usedBlocks blocks := by
  simp [usedBlocks, hb]

/-- The used blocks are the blocks in use. -/
theorem mem_usedBlocks : b ∈ usedBlocks blocks ↔ b ∈ blocks ∧ b.status = .used := by
  simp [usedBlocks]

/-- The block that is handed out. -/
def carved (b : Block) (n : ℕ) : Block :=
  if n + 2 * headerSize ≤ b.size then ⟨b.addr, n, .used⟩ else { b with status := .used }

/-- Carving a free block puts one block into use. -/
theorem usedBlocks_carve : usedBlocks (carve b n) = [carved b n] := by
  simp only [carve, carved]
  split_ifs <;> simp [usedBlocks]

/-- The carved block lies where the block was. -/
theorem carved_addr : (carved b n).addr = b.addr := by
  simp only [carved]
  split_ifs <;> rfl

/-- A block is handed out as a whole only if the remainder is too small for a block. -/
theorem carved_size (hn : n ≤ b.size) :
    n ≤ (carved b n).size ∧ (carved b n).size < n + 2 * headerSize := by
  simp only [carved]
  split_ifs with hsplit
  · simp [headerSize]
  · exact ⟨hn, Nat.not_le.mp hsplit⟩

/-- Joining to the left leaves a free block. -/
theorem joinPrev_status (bs₁ : List Block) (b : Block) : (joinPrev bs₁ b).2.status = .free := by
  obtain ⟨l, c, -, -, -, heq⟩ | ⟨-, heq⟩ := joinPrev_cases bs₁ b <;> rw [heq]

/-- The blocks in use but the freed one stay as they are. -/
theorem usedBlocks_release :
    usedBlocks (release bs₁ b bs₂) = usedBlocks bs₁ ++ usedBlocks bs₂ := by
  have hprev : usedBlocks (joinPrev bs₁ b).1 = usedBlocks bs₁ := by
    obtain ⟨l, c, rfl, hc, -, heq⟩ | ⟨-, heq⟩ := joinPrev_cases bs₁ b
    · rw [heq, usedBlocks_append, usedBlocks_cons_of_ne (by simp [hc])]
      simp [usedBlocks]
    · rw [heq]
  rw [release, usedBlocks_append, hprev]
  obtain ⟨c, l, rfl, hc, -, heq⟩ | ⟨-, heq⟩ := joinNext_cases (joinPrev bs₁ b).2 bs₂
  · rw [heq, usedBlocks_cons_of_ne (by simp), usedBlocks_cons_of_ne (by simp [hc])]
  · rw [heq, usedBlocks_cons_of_ne (by simp [joinPrev_status])]

/-! ## Addresses -/

/-- Carving keeps blocks aligned. -/
theorem dvd_addr_carve {k : ℕ} (hb : k ∣ b.addr) (hn : k ∣ n) : ∀ c ∈ carve b n, k ∣ c.addr := by
  simp only [carve]
  split_ifs
  · simpa using ⟨hb, Nat.dvd_add hb hn⟩
  · simpa using hb

/-- A release leaves blocks at addresses that blocks had before. -/
theorem addr_release (h : c ∈ release bs₁ b bs₂) : ∃ d ∈ bs₁ ++ b :: bs₂, d.addr = c.addr := by
  have hprev : ∀ x ∈ (joinPrev bs₁ b).1 ++ [(joinPrev bs₁ b).2],
      ∃ d ∈ bs₁ ++ b :: bs₂, d.addr = x.addr := by
    obtain ⟨l, e, rfl, -, -, heq⟩ | ⟨-, heq⟩ := joinPrev_cases bs₁ b
    · simp only [heq, List.forall_mem_append, List.forall_mem_singleton]
      exact ⟨fun x hx => ⟨x, by simp [hx], rfl⟩, e, by simp, rfl⟩
    · simp only [heq, List.forall_mem_append, List.forall_mem_singleton]
      exact ⟨fun x hx => ⟨x, by simp [hx], rfl⟩, b, by simp, rfl⟩
  rw [release, List.mem_append] at h
  simp only [List.forall_mem_append, List.forall_mem_singleton] at hprev
  obtain h | h := h
  · exact hprev.1 c h
  · obtain ⟨e, l, rfl, -, -, heq⟩ | ⟨-, heq⟩ := joinNext_cases (joinPrev bs₁ b).2 bs₂
    · rw [heq, List.mem_cons] at h
      obtain rfl | h := h
      · exact hprev.2
      · exact ⟨c, by simp [h], rfl⟩
    · rw [heq, List.mem_cons] at h
      obtain rfl | h := h
      · exact hprev.2
      · exact ⟨c, by simp [h], rfl⟩

/-- Every block is handed out or on the free list. -/
def Settled (blocks : List Block) : Prop := ∀ b ∈ blocks, b.status ≠ .loose

/-- Carving leaves no loose block. -/
theorem settled_carve (h : Settled (bs₁ ++ b :: bs₂)) : Settled (bs₁ ++ (carve b n ++ bs₂)) := by
  simp only [Settled, List.forall_mem_append, List.forall_mem_cons] at h ⊢
  refine ⟨h.1, ?_, h.2.2⟩
  simp only [carve]
  split_ifs <;> simp

/-- Releasing leaves no loose block. -/
theorem settled_release (h₁ : Settled bs₁) (h₂ : Settled bs₂) :
    Settled (release bs₁ b bs₂) := by
  rw [Settled, release, List.forall_mem_append]
  constructor
  · obtain ⟨l, c, rfl, -, -, heq⟩ | ⟨-, heq⟩ := joinPrev_cases bs₁ b
    · rw [heq]
      exact fun x hx => h₁ x (List.mem_append_left _ hx)
    · rw [heq]
      exact h₁
  · have hstatus : (joinPrev bs₁ b).2.status ≠ .loose := by simp [joinPrev_status]
    obtain ⟨c, l, rfl, -, -, heq⟩ | ⟨-, heq⟩ := joinNext_cases (joinPrev bs₁ b).2 bs₂
    · rw [heq, List.forall_mem_cons]
      exact ⟨by simp, fun x hx => h₂ x (List.mem_cons_of_mem c hx)⟩
    · rw [heq, List.forall_mem_cons]
      exact ⟨hstatus, h₂⟩

/-! ## Free blocks -/

/-- Not both of two neighbours are free, or there is a gap between them. -/
def Parted (b c : Block) : Prop := ¬(b.status = .free ∧ c.status = .free ∧ b.stop = c.addr)

/-- No two free blocks touch. -/
def Coalesced (blocks : List Block) : Prop := blocks.IsChain Parted

/-- A block that is not free does not join to the right. -/
theorem parted_of_ne_left (hb : b.status ≠ .free) : Parted b c := fun h => hb h.1

/-- A block that is not free does not join to the left. -/
theorem parted_of_ne_right (hc : c.status ≠ .free) : Parted b c := fun h => hc h.2.1

/-- Whether blocks touch depends on the stop of the first and the address of the second. -/
theorem Parted.congr {b' c' : Block} (h : Parted b c) (hb : b'.status = .free → b.status = .free)
    (hc : c'.status = .free → c.status = .free) (hstop : b'.stop = b.stop)
    (haddr : c'.addr = c.addr) : Parted b' c' := by
  rintro ⟨hb', hc', heq⟩
  rw [hstop, haddr] at heq
  exact h ⟨hb hb', hc hc', heq⟩

/-- A block that is not free parts its neighbours. -/
theorem coalesced_insert (h : Coalesced (bs₁ ++ bs₂)) (hb : b.status ≠ .free) :
    Coalesced (bs₁ ++ b :: bs₂) := by
  rw [Coalesced, List.isChain_append] at h
  rw [Coalesced, List.isChain_append, List.isChain_cons]
  refine ⟨h.1, ⟨fun c _ => parted_of_ne_left hb, h.2.1⟩, fun x _ y hy => ?_⟩
  obtain rfl := Option.some.inj hy
  exact parted_of_ne_right hb

/-- Carving a free block keeps free blocks apart. -/
theorem coalesced_carve (h : Coalesced (bs₁ ++ b :: bs₂)) (hb : b.status = .free) :
    Coalesced (bs₁ ++ (carve b n ++ bs₂)) := by
  rw [Coalesced, List.isChain_append, List.isChain_cons] at h
  obtain ⟨h₁, ⟨hnext, h₂⟩, -⟩ := h
  simp only [carve]
  split_ifs with hn
  · simp only [Coalesced, List.cons_append, List.nil_append, List.isChain_append,
      List.isChain_cons, List.head?_cons, Option.mem_some_iff]
    refine ⟨h₁, ⟨fun c _ => parted_of_ne_left (by simp), fun c hc => ?_, h₂⟩, ?_⟩
    · refine (hnext c hc).congr (fun _ => hb) id ?_ rfl
      simp only [Block.stop]
      omega
    · rintro x - y rfl
      exact parted_of_ne_right (by simp)
  · simp only [Coalesced, List.cons_append, List.nil_append, List.isChain_append,
      List.isChain_cons, List.head?_cons, Option.mem_some_iff]
    refine ⟨h₁, ⟨fun c _ => parted_of_ne_left (by simp), h₂⟩, ?_⟩
    rintro x - y rfl
    exact parted_of_ne_right (by simp)

/-- The first half leaves the freed block parted from what is before it. -/
theorem coalesced_joinPrev (h : Coalesced bs₁) :
    Coalesced ((joinPrev bs₁ b).1 ++ [(joinPrev bs₁ b).2]) := by
  obtain ⟨l, c, rfl, hc, -, heq⟩ | ⟨hlast, heq⟩ := joinPrev_cases bs₁ b
  · rw [heq]
    simp only [Coalesced, List.isChain_append, List.isChain_singleton, List.head?_cons,
      Option.mem_some_iff, true_and] at h ⊢
    refine ⟨h.1, ?_⟩
    rintro x hx y rfl
    exact (h.2 x hx c rfl).congr id (fun _ => hc) rfl rfl
  · rw [heq]
    simp only [Coalesced, List.isChain_append, List.isChain_singleton, List.head?_cons,
      Option.mem_some_iff, true_and]
    refine ⟨h, ?_⟩
    rintro x hx y rfl ⟨hx', -, hstop⟩
    obtain ⟨l, rfl⟩ := List.getLast?_eq_some_iff.mp hx
    exact hlast l x rfl ⟨hx', hstop⟩

/-- After a release neighbouring free blocks are one. -/
theorem coalesced_release (h : Coalesced (bs₁ ++ b :: bs₂)) :
    Coalesced (release bs₁ b bs₂) := by
  rw [Coalesced, List.isChain_append, List.isChain_cons] at h
  obtain ⟨h₁, ⟨-, h₂⟩, -⟩ := h
  have hprev := coalesced_joinPrev (b := b) h₁
  rw [release]
  obtain ⟨c, l, rfl, hc, hbc, heq⟩ | ⟨hfirst, heq⟩ := joinNext_cases (joinPrev bs₁ b).2 bs₂
  · rw [Coalesced, List.isChain_append] at hprev
    rw [List.isChain_cons] at h₂
    rw [heq, Coalesced, List.isChain_append, List.isChain_cons]
    refine ⟨hprev.1, ⟨fun y hy => ?_, h₂.2⟩, ?_⟩
    · refine (h₂.1 y hy).congr (fun _ => hc) id ?_ rfl
      simp only [Block.stop] at hbc ⊢
      omega
    · rintro x hx y hy
      obtain rfl := Option.some.inj hy
      exact (hprev.2.2 x hx _ rfl).congr id (fun _ => joinPrev_status bs₁ b) rfl rfl
  · rw [heq, List.append_cons, Coalesced, List.isChain_append]
    refine ⟨hprev, h₂, ?_⟩
    rintro x hx y hy ⟨-, hy', hstop⟩
    rw [List.getLast?_concat] at hx
    obtain rfl := Option.some.inj hx
    obtain ⟨l, rfl⟩ := List.head?_eq_some_iff.mp hy
    exact hfirst y l rfl ⟨hy', hstop⟩

end Arena

end Sumeru
