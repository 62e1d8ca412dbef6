import Sumeru.Libc.BlockLists

/-!
# Sumeru - What the functions of malloc.c do

One specification for each function of {lit}`malloc.c` on a memory that holds a list of
blocks: the list that it holds afterwards, what the function returns, and the bytes that it
leaves alone.

Main results:

- Theorem {lit}`Arena.malloc_spec`: {lit}`malloc` carves the first block of the free list that is
  large enough.
- Theorem {lit}`Arena.freeBlock_spec`: {lit}`__free_block` releases a block.
- Theorem {lit}`Arena.addMallocBlock_spec`: {lit}`add_malloc_block` puts in a block and releases
  it.
-/

namespace Sumeru

namespace Arena

open CircularList

variable {m : ByteMemory} {head n fuel p a : ℕ} {blocks bs₁ bs₂ : List Block}
  {frees fs₁ fs₂ : List ℕ} {b c : Block}

/-! ## Links stay among the nodes -/

/-- The next node is a node. -/
theorem Holds.next_mem {h : Headers} (hh : Holds h head blocks frees)
    (hp : p ∈ nodes head blocks) : h .next p ∈ nodes head blocks :=
  hh.arenaList.next_mem hp

/-- The previous node is a node. -/
theorem Holds.prev_mem {h : Headers} (hh : Holds h head blocks frees)
    (hp : p ∈ nodes head blocks) : h .prev p ∈ nodes head blocks :=
  hh.arenaList.prev_mem hp

/-! ## Bytes that stay -/

/-- A byte that is in no header: outside the head node and the blocks, or in what the owner of
a block in use has. -/
structure Kept (head : ℕ) (blocks : List Block) (a : ℕ) : Prop where
  head : a < head ∨ head + freeHeaderSize ≤ a
  blocks : ∀ b ∈ blocks, b.Contains a → b.status = .used ∧ b.addr + headerSize ≤ a

/-- All fields lie inside the header. -/
theorem Field.offset_le (f : Field) : f.offset + 4 ≤ freeHeaderSize := by
  cases f <;> decide

/-- A field of the head node is stored. -/
theorem Kept.set_head (hk : Kept head blocks a) (f : Field) (v : ℕ) :
    set m f head v a = m a := by
  have hoff := f.offset_le
  have hhead := hk.head
  exact set_apply_of_outside (by omega)

/-- A field is stored in a block that is not in use. -/
theorem Kept.set_inside (hk : Kept head blocks a) (f : Field) (v : ℕ) (hb : b ∈ blocks)
    (hstatus : b.status ≠ .used) (hlow : b.addr ≤ p) (hhigh : p + freeHeaderSize ≤ b.stop) :
    set m f p v a = m a := by
  have hoff := f.offset_le
  have hout : ¬b.Contains a := fun hc => hstatus (hk.blocks b hb hc).1
  simp only [Block.Contains] at hout
  exact set_apply_of_outside (by omega)

/-- One of the four fields that every block has is stored. -/
theorem Kept.set_header (hk : Kept head blocks a) (hl : Layout head blocks) (f : Field) (v : ℕ)
    (hf : f.offset < headerSize) (hp : p ∈ nodes head blocks) : set m f p v a = m a := by
  obtain rfl | ⟨b, hb, rfl⟩ := mem_nodes.mp hp
  · exact hk.set_head f v
  · have hlarge := hl.addr_lt hb
    have hkeep := hk.blocks b hb
    have hoff : f.offset + 4 ≤ headerSize := by
      cases f <;> first | decide | exact absurd hf (by decide)
    simp only [Block.Contains, headerSize, freeHeaderSize] at hkeep hoff hlarge
    refine set_apply_of_outside ?_
    by_cases hin : b.addr ≤ a ∧ a < b.stop
    · have hkeep' := hkeep hin
      omega
    · omega

/-- A field of a node of the free list is stored. -/
theorem Kept.set_free {h : Headers} (hk : Kept head blocks a) (hh : Holds h head blocks frees)
    (f : Field) (v : ℕ) (hp : p ∈ head :: frees) : set m f p v a = m a := by
  obtain rfl | hp := List.mem_cons.mp hp
  · exact hk.set_head f v
  · obtain ⟨b, hb, hfree, rfl⟩ := mem_freeAddrs.mp (hh.perm.subset hp)
    exact hk.set_inside f v hb (by simp [hfree]) le_rfl (hh.layout.addr_lt hb)

/-- What is kept while a block is freed. -/
theorem Kept.loosen (hk : Kept head (bs₁ ++ b :: bs₂) a) (hb : ¬b.Contains a) :
    Kept head (bs₁ ++ { b with status := .loose } :: bs₂) a := by
  obtain ⟨hhead, hblocks⟩ := hk
  simp only [List.forall_mem_append, List.forall_mem_cons] at hblocks
  refine ⟨hhead, ?_⟩
  simp only [List.forall_mem_append, List.forall_mem_cons]
  exact ⟨hblocks.1, fun hin => absurd hin hb, hblocks.2.2⟩

/-- A block list is held by the bytes that are not kept. -/
theorem Holds.of_kept {m' : ByteMemory} (hh : Holds (field m) head blocks frees)
    (hm : ∀ a, ¬Kept head blocks a → m' a = m a) : Holds (field m') head blocks frees := by
  have hnode : ∀ (f : Field), ∀ b ∈ blocks, (f.offset < headerSize ∨ b.status ≠ .used) →
      field m' f b.addr = field m f b.addr := by
    intro f b hb hf
    refine ByteMemory.word_congr fun a hlow hhigh => hm a fun hk => ?_
    have hlarge := hh.layout.addr_lt hb
    have hoff := f.offset_le
    obtain ⟨hused, hge⟩ := hk.blocks b hb ⟨by omega, by omega⟩
    obtain hf | hf := hf
    · have hlt : f.offset + 4 ≤ headerSize := by
        cases f <;> first | decide | exact absurd hf (by decide)
      omega
    · exact hf hused
  have hhead : ∀ f, field m' f head = field m f head := by
    intro f
    refine ByteMemory.word_congr fun a hlow hhigh => hm a fun hk => ?_
    have hoff := f.offset_le
    have hout := hk.head
    omega
  refine hh.congr (fun f hf p hp => ?_) fun f p hp => ?_
  · obtain rfl | ⟨b, hb, rfl⟩ := mem_nodes.mp hp
    · exact hhead f
    · exact hnode f b hb (Or.inl hf)
  · obtain rfl | hp := List.mem_cons.mp hp
    · exact hhead f
    · obtain ⟨b, hb, hfree, rfl⟩ := mem_freeAddrs.mp (hh.perm.subset hp)
      exact hnode f b hb (Or.inr (by simp [hfree]))

/-- Unlinking writes to headers only. -/
theorem removeFromFreeChain_apply {h : Headers} (hk : Kept head blocks a)
    (hh : Holds h head blocks frees) (hnext : field m .nextFree p ∈ head :: frees)
    (hprev : field m .prevFree p ∈ head :: frees) : removeFromFreeChain m p a = m a := by
  rw [removeFromFreeChain, hk.set_free hh _ _ hnext, hk.set_free hh _ _ hprev]

/-- Both lists of one node are relinked. -/
theorem removeFromChains_apply {h h' : Headers} (hk : Kept head blocks a)
    (hh : Holds h' head blocks frees) (ha : Agrees (nodes head blocks) m h)
    (hp : p ∈ nodes head blocks) (hnext : h .next p ∈ nodes head blocks)
    (hprev : h .prev p ∈ nodes head blocks) (hfpn : h .nextFree p ∈ head :: frees)
    (hfpp : h .prevFree p ∈ head :: frees) : removeFromChains m p a = m a := by
  have hfree := removeFromFreeChain_agrees hh.layout.spaced ha hp (hh.mem_nodes_of_free hfpp)
    (hh.mem_nodes_of_free hfpn)
  have hnext' := (hfree .next p hp).trans (show _ = h .next p by simp)
  have hprev' := (hfree .prev p hp).trans (show _ = h .prev p by simp)
  rw [removeFromChains, removeFromMainChain, hnext', hprev',
    hk.set_header hh.layout .prev _ (by decide) hnext,
    hk.set_header hh.layout .next _ (by decide) hprev]
  refine removeFromFreeChain_apply hk hh ?_ ?_
  · rwa [ha _ p hp]
  · rwa [ha _ p hp]

/-! ## The search -/

/-- The loop of {lit}`malloc` finds the first block of the size on the free list. -/
theorem findFit_eq (hh : Holds (field m) head blocks (fs₁ ++ fs₂)) (hfuel : fs₂.length < fuel) :
    findFit m n fuel (fs₂.headD head) = some (fs₂.find? fun p => n ≤ field m .size p) := by
  induction fs₂ generalizing fs₁ fuel with
  | nil =>
      obtain ⟨k, rfl⟩ := Nat.exists_eq_succ_of_ne_zero (show fuel ≠ 0 by simp at hfuel; omega)
      simp only [findFit, List.headD_nil, hh.head_type, if_true, List.find?_nil]
  | cons p fs₂ ih =>
      obtain ⟨k, rfl⟩ := Nat.exists_eq_succ_of_ne_zero (show fuel ≠ 0 by simp at hfuel; omega)
      have htype : field m .type p ≠ typeHead := by
        obtain ⟨b, hb, hfree, rfl⟩ := mem_freeAddrs.mp (hh.perm.subset (show p ∈ _ by simp))
        have hrec := hh.type b hb
        rw [hfree] at hrec
        simp only [Status.Recorded] at hrec
        rw [hrec]
        decide
      rw [findFit, List.headD_cons, if_neg htype, List.find?_cons]
      by_cases hfit : n ≤ field m .size p
      · simp [hfit]
      · have hnext := hh.freeList.next_eq
        rw [List.append_cons] at hh
        simp only [hfit, if_false, decide_false]
        rw [hnext]
        exact ih hh (by simp at hfuel; omega)

/-! ## Handing out -/

/-- The neighbours of a free block are nodes. -/
theorem Holds.links_mem {h : Headers} (hh : Holds h head blocks (fs₁ ++ p :: fs₂)) :
    p ∈ nodes head blocks ∧ h .next p ∈ nodes head blocks ∧ h .prev p ∈ nodes head blocks ∧
      h .nextFree p ∈ nodes head blocks ∧ h .prevFree p ∈ nodes head blocks := by
  have hp : p ∈ head :: (fs₁ ++ p :: fs₂) := by simp
  have hnode := hh.mem_nodes_of_free hp
  exact ⟨hnode, hh.next_mem hnode, hh.prev_mem hnode,
    hh.mem_nodes_of_free (hh.freeList.next_mem hp), hh.mem_nodes_of_free (hh.freeList.prev_mem hp)⟩

/-- What {lit}`__malloc_from_block` does when it splits a block. -/
theorem splitBlock_stores (hh : Holds (field m) head (bs₁ ++ b :: bs₂) (fs₁ ++ b.addr :: fs₂))
    (hb : b.status = .free) (hn : freeHeaderSize ≤ n) (hfit : n + freeHeaderSize ≤ b.size) :
    splitBlock m b.addr n = splitStores m b.addr (b.addr + n) n (field m .size b.addr - n)
      (field m .next b.addr) (field m .nextFree b.addr) (field m .prevFree b.addr) ∧
    Holds (field (splitBlock m b.addr n)) head
      (bs₁ ++ ⟨b.addr, n, .used⟩ :: ⟨b.addr + n, b.size - n, .free⟩ :: bs₂)
      (fs₁ ++ (b.addr + n) :: fs₂) := by
  have hnew := hh.split hb hn hfit
  have hsize := hh.size b (by simp)
  have hsub : ∀ q ∈ nodes head (bs₁ ++ b :: bs₂), q ∈ nodes head
      (bs₁ ++ ⟨b.addr, n, .used⟩ :: ⟨b.addr + n, b.size - n, .free⟩ :: bs₂) := by
    intro q hq
    simp only [nodes, List.map_append, List.map_cons, List.mem_cons, List.mem_append] at hq ⊢
    tauto
  obtain ⟨hp, hnext, -, hfpn, hfpp⟩ := hh.links_mem
  have hq : b.addr + n ∈ nodes head
      (bs₁ ++ ⟨b.addr, n, .used⟩ :: ⟨b.addr + n, b.size - n, .free⟩ :: bs₂) :=
    mem_nodes.mpr (Or.inr ⟨⟨b.addr + n, b.size - n, .free⟩, by simp, rfl⟩)
  have hle : n ≤ field m .size b.addr := by
    rw [hsize]
    omega
  have heq := splitBlock_eq hnew.layout.spaced (agrees_self _ m) (hsub _ hp) hq hle
    (field_lt m _ _) (hsub _ hnext) (hsub _ hfpn)
  refine ⟨heq, hnew.agrees ?_⟩
  rw [heq]
  exact splitStores_agrees hnew.layout.spaced (agrees_self _ m) (hsub _ hp) hq hle
    (field_lt m _ _) (hsub _ hnext) (hsub _ hfpn) (hsub _ hfpp)

/-- A block that {lit}`__malloc_from_block` takes as a whole. -/
theorem take_holds (hh : Holds (field m) head (bs₁ ++ b :: bs₂) (fs₁ ++ b.addr :: fs₂))
    (hb : b.status = .free) :
    Holds (field (removeFromFreeChain (set m .type b.addr typeUsed) b.addr)) head
      (bs₁ ++ { b with status := .used } :: bs₂) (fs₁ ++ fs₂) := by
  have hnodes : nodes head (bs₁ ++ { b with status := .used } :: bs₂) =
      nodes head (bs₁ ++ b :: bs₂) := by
    simp [nodes]
  obtain ⟨hp, -, -, hfpn, hfpp⟩ := hh.links_mem
  refine (hh.take hb).agrees ?_
  rw [hnodes]
  exact take_agrees hh.layout.spaced (agrees_self _ m) hp hfpn hfpp

/-- A free block is carved. -/
theorem mallocFromBlock_spec (hh : Holds (field m) head (bs₁ ++ b :: bs₂) (fs₁ ++ b.addr :: fs₂))
    (hb : b.status = .free) (hn : freeHeaderSize ≤ n) (hfit : n ≤ b.size) :
    (∃ frees, Holds (field (mallocFromBlock m b.addr n).1) head (bs₁ ++ (carve b n ++ bs₂)) frees) ∧
      (mallocFromBlock m b.addr n).2 = b.addr + headerSize ∧
      ∀ a, Kept head (bs₁ ++ b :: bs₂) a → (mallocFromBlock m b.addr n).1 a = m a := by
  have hmem : b ∈ bs₁ ++ b :: bs₂ := by simp
  have hbound := hh.layout.bounded b hmem
  have hsize := hh.size b hmem
  have hlow : b.addr + freeHeaderSize ≤ b.stop := hh.layout.addr_lt hmem
  obtain ⟨hp, hnext, -, -, -⟩ := hh.links_mem
  have hfree : b.addr ∈ head :: (fs₁ ++ b.addr :: fs₂) := by simp
  have hfpn := hh.freeList.next_mem hfree
  have hfpp := hh.freeList.prev_mem hfree
  simp only [Block.stop, headerSize] at hbound
  have hadd : (n + 2 * headerSize) % 2 ^ 32 = n + 2 * headerSize :=
    Nat.mod_eq_of_lt (by simp only [headerSize]; omega)
  have hptr : (b.addr + headerSize) % 2 ^ 32 = b.addr + headerSize :=
    Nat.mod_eq_of_lt (by simp only [headerSize]; omega)
  rw [mallocFromBlock, hadd, hsize, hptr, carve]
  split_ifs with hsplit
  · have hrest : n + freeHeaderSize ≤ b.size := by
      simp only [headerSize, freeHeaderSize] at hsplit ⊢
      omega
    obtain ⟨heq, hholds⟩ := splitBlock_stores hh hb hn hrest
    refine ⟨⟨_, hholds⟩, rfl, fun a hk => ?_⟩
    have hinside : ∀ {m' : ByteMemory} (f : Field) (v : ℕ), set m' f (b.addr + n) v a = m' a :=
      fun f v => hk.set_inside f v hmem (by simp [hb]) (by omega) (by
        simp only [Block.stop]
        omega)
    have hself : ∀ {m' : ByteMemory} (f : Field) (v : ℕ), set m' f b.addr v a = m' a :=
      fun f v => hk.set_inside f v hmem (by simp [hb]) le_rfl hlow
    simp only [heq, splitStores, hk.set_free hh _ _ hfpn, hk.set_free hh _ _ hfpp,
      hk.set_header hh.layout .prev _ (by decide) hnext, hinside, hself]
  · refine ⟨⟨_, take_holds hh hb⟩, rfl, fun a hk => ?_⟩
    have hread : ∀ f ≠ .type, field (set m .type b.addr typeUsed) f b.addr = field m f b.addr :=
      fun f hf => by
        rw [field_set .type f (by decide) (Or.inl rfl), if_neg fun hc => hf hc.1]
    change removeFromFreeChain (set m .type b.addr typeUsed) b.addr a = m a
    rw [removeFromFreeChain_apply hk hh (by rwa [hread _ (by decide)])
      (by rwa [hread _ (by decide)]), hk.set_header hh.layout _ _ (by decide) hp]

/-! ## Taking back -/

/-- The nodes of a release, and the values that it computes. -/
theorem Holds.stop_mod {h : Headers} (hh : Holds h head (bs₁ ++ c :: b :: bs₂) frees) :
    (c.addr + h .size c.addr) % 2 ^ 32 = b.addr ↔ c.stop = b.addr := by
  have hc : c ∈ bs₁ ++ c :: b :: bs₂ := by simp
  have hbound := hh.layout.bounded c hc
  rw [hh.size c hc, Nat.mod_eq_of_lt (by simp only [Block.stop] at hbound; omega)]
  rfl

/-- The size of joined blocks does not wrap. -/
theorem Holds.join_mod {h : Headers} (hh : Holds h head (bs₁ ++ c :: b :: bs₂) frees)
    (hcb : c.stop = b.addr) :
    (h .size c.addr + h .size b.addr) % 2 ^ 32 = h .size c.addr + h .size b.addr := by
  have hbound := hh.layout.bounded b (by simp)
  rw [hh.size c (by simp), hh.size b (by simp)]
  refine Nat.mod_eq_of_lt ?_
  simp only [Block.stop] at hbound hcb
  omega

/-- On a settled list the type of a block says whether it is free. -/
theorem Holds.type_iff {h : Headers} (hh : Holds h head blocks frees) (hb : b ∈ blocks)
    (hstatus : b.status ≠ .loose) : h .type b.addr = typeFree ↔ b.status = .free := by
  have htype := hh.type b hb
  cases hst : b.status with
  | used =>
      rw [hst] at htype
      rw [htype]
      simp [typeUsed, typeFree]
  | free =>
      rw [hst] at htype
      rw [htype]
      simp
  | loose => exact absurd hst hstatus

/-- The stores that merge a block into the one before it. -/
def mergeStores (m : ByteMemory) (pah nah size : ℕ) : ByteMemory :=
  set (set (set m .size pah size) .next pah nah) .prev nah pah

/-- The stores that put a block on the free list. -/
def putStores (m : ByteMemory) (head ah nf : ℕ) : ByteMemory :=
  let m := set (set (set m .type ah typeFree) .nextFree ah nf) .prevFree ah head
  set (set m .nextFree head ah) .prevFree nf ah

/-- The block before is free and touches. -/
theorem mergePrev_of_join (hh : Holds (field m) head (bs₁ ++ c :: b :: bs₂) frees)
    (hc : c.status = .free) (hcb : c.stop = b.addr) :
    mergePrev head m b.addr = (mergeStores m c.addr (field m .next b.addr)
      (field m .size c.addr + field m .size b.addr), c.addr) := by
  have hcircle := hh.arenaList
  rw [List.append_cons, List.map_append, List.map_cons, List.map_append] at hcircle
  have hprev : field m .prev b.addr = c.addr := by
    rw [hcircle.prev_eq, List.map_singleton, List.getLastD_concat]
  have hfree := (hh.type_iff (show c ∈ _ by simp) (by simp [hc])).mpr hc
  rw [mergePrev, hprev, if_pos ⟨hfree, hh.stop_mod.mpr hcb⟩, hh.join_mod hcb, mergeStores]

/-- There is no such block. -/
theorem mergePrev_of_not_join (hh : Holds (field m) head (bs₁ ++ b :: bs₂) frees)
    (hbs : Settled bs₁) (hlast : ∀ l c, bs₁ = l ++ [c] → ¬(c.status = .free ∧ c.stop = b.addr)) :
    mergePrev head m b.addr =
      (putStores m head b.addr (field m .nextFree head), b.addr) := by
  have hs := hh.layout.spaced
  have hp := mem_nodes_middle head bs₁ bs₂ b
  have hcircle := hh.arenaList
  rw [List.map_append, List.map_cons] at hcircle
  have hcond : ¬(field m .type (field m .prev b.addr) = typeFree ∧
      (field m .prev b.addr + field m .size (field m .prev b.addr)) % 2 ^ 32 = b.addr) := by
    rintro ⟨htype, hstop⟩
    rw [hcircle.prev_eq] at htype hstop
    obtain rfl | ⟨l, c, rfl⟩ := bs₁.eq_nil_or_concat
    · rw [List.map_nil, List.getLastD_nil, hh.head_type] at htype
      exact absurd htype (by decide)
    · rw [List.concat_eq_append, List.map_append, List.map_singleton,
        List.getLastD_concat] at htype hstop
      rw [List.concat_eq_append] at hbs hlast
      have hloose := hbs c (by simp)
      rw [List.concat_eq_append, ← List.append_cons] at hh
      exact hlast l c rfl ⟨(hh.type_iff (by simp) hloose).mp htype, hh.stop_mod.mp hstop⟩
  have hhead : head ∈ nodes head (bs₁ ++ b :: bs₂) := List.mem_cons_self
  have hne : b.addr ≠ head := hh.layout.ne_middle.1.symm
  have hnf := field_lt m .nextFree head
  have h1 := (agrees_self (nodes head (bs₁ ++ b :: bs₂)) m).set hs .type hp (v := typeFree)
    (by decide)
  have hread1 := (h1 .nextFree head hhead).trans (show _ = field m .nextFree head by simp)
  have h3 := (h1.set hs .nextFree hp hnf).set hs .prevFree hp (hs.lt _ hhead)
  have h4 := h3.set hs .nextFree hhead (hs.lt _ hp)
  have hread4 := (h4 .nextFree b.addr hp).trans
    (show _ = field m .nextFree head by simp [Function.update_of_ne hne])
  simp only [mergePrev, if_neg hcond, putStores, hread1, hread4]

/-- The block is merged into the free block before it. -/
theorem mergeStores_holds (hh : Holds (field m) head (bs₁ ++ c :: b :: bs₂) frees)
    (hc : c.status = .free) (hb : b.status = .loose) (hcb : c.stop = b.addr) :
    Holds (field (mergeStores m c.addr (field m .next b.addr)
      (field m .size c.addr + field m .size b.addr))) head
      (bs₁ ++ ⟨c.addr, c.size + b.size, .free⟩ :: bs₂) frees := by
  have hs := hh.layout.spaced
  have hpc := mem_nodes_middle head bs₁ (b :: bs₂) c
  have hpb : b.addr ∈ nodes head (bs₁ ++ c :: b :: bs₂) :=
    mem_nodes.mpr (Or.inr ⟨b, by simp, rfl⟩)
  have hnext := hh.next_mem hpb
  have hlt : field m .size c.addr + field m .size b.addr < 2 ^ 32 := by
    rw [← hh.join_mod hcb]
    exact Nat.mod_lt _ (by decide)
  have h1 := (agrees_self _ m).set hs .size hpc hlt
  have h3 := (h1.set hs .next hpc (hs.lt _ hnext)).set hs .prev hnext (hs.lt _ hpc)
  refine (hh.mergeInto hc (by simp [hb]) hcb).agrees fun f q hq => h3 f q ?_
  simp only [nodes, List.map_append, List.map_cons, List.mem_cons, List.mem_append] at hq ⊢
  tauto

/-- The block is put on the free list. -/
theorem putStores_holds (hh : Holds (field m) head (bs₁ ++ b :: bs₂) frees)
    (hb : b.status = .loose) :
    Holds (field (putStores m head b.addr (field m .nextFree head))) head
      (bs₁ ++ { b with status := .free } :: bs₂) (b.addr :: frees) := by
  have hs := hh.layout.spaced
  have hp := mem_nodes_middle head bs₁ bs₂ b
  have hhead : head ∈ nodes head (bs₁ ++ b :: bs₂) := List.mem_cons_self
  have hnf := hh.mem_nodes_of_free (hh.freeList.next_mem List.mem_cons_self)
  have h1 := (agrees_self _ m).set hs .type hp (v := typeFree) (by decide)
  have h3 := (h1.set hs .nextFree hp (hs.lt _ hnf)).set hs .prevFree hp (hs.lt _ hhead)
  have h5 := (h3.set hs .nextFree hhead (hs.lt _ hp)).set hs .prevFree hnf (hs.lt _ hp)
  refine (hh.putFree (by simp [hb])).agrees fun f q hq => h5 f q ?_
  simpa [nodes] using hq

/-- The first half of {lit}`__free_block`. -/
theorem mergePrev_spec (hh : Holds (field m) head (bs₁ ++ b :: bs₂) frees)
    (hb : b.status = .loose) (hbs : Settled bs₁) :
    (∃ frees, Holds (field (mergePrev head m b.addr).1) head
      ((joinPrev bs₁ b).1 ++ (joinPrev bs₁ b).2 :: bs₂) frees) ∧
      (mergePrev head m b.addr).2 = (joinPrev bs₁ b).2.addr ∧
      ∀ a, Kept head (bs₁ ++ b :: bs₂) a → (mergePrev head m b.addr).1 a = m a := by
  obtain ⟨l, c, rfl, hc, hcb, heq⟩ | ⟨hlast, heq⟩ := joinPrev_cases bs₁ b
  · rw [← List.append_cons] at hh ⊢
    rw [heq, mergePrev_of_join hh hc hcb]
    refine ⟨⟨_, mergeStores_holds hh hc hb hcb⟩, rfl, fun a hk => ?_⟩
    have hpc := mem_nodes_middle head l (b :: bs₂) c
    have hnext := hh.next_mem (mem_nodes.mpr (Or.inr ⟨b, by simp, rfl⟩))
    simp only [mergeStores]
    rw [hk.set_header hh.layout .prev _ (by decide) hnext,
      hk.set_header hh.layout .next _ (by decide) hpc,
      hk.set_header hh.layout .size _ (by decide) hpc]
  · rw [heq, mergePrev_of_not_join hh hbs hlast]
    refine ⟨⟨_, putStores_holds hh hb⟩, rfl, fun a hk => ?_⟩
    have hmem : b ∈ bs₁ ++ b :: bs₂ := by simp
    have hself : ∀ {m' : ByteMemory} (f : Field) (v : ℕ), set m' f b.addr v a = m' a :=
      fun f v => hk.set_inside f v hmem (by simp [hb]) le_rfl (hh.layout.addr_lt hmem)
    have hnf := hh.freeList.next_mem List.mem_cons_self
    simp only [putStores, hk.set_free hh _ _ hnf, hk.set_head, hself]

/-- The block behind is free and touches. -/
theorem absorb_holds (hh : Holds (field m) head (bs₁ ++ b :: c :: bs₂) (fs₁ ++ c.addr :: fs₂))
    (hb : b.status = .free) (hc : c.status = .free) (hbc : b.stop = c.addr) :
    Holds (field (removeFromChains (set m .size b.addr (field m .size b.addr +
      field m .size c.addr)) c.addr)) head (bs₁ ++ ⟨b.addr, b.size + c.size, .free⟩ :: bs₂)
      (fs₁ ++ fs₂) := by
  have hs := hh.layout.spaced
  have hpb := mem_nodes_middle head bs₁ (c :: bs₂) b
  obtain ⟨hpc, hnext, hprev, hfpn, hfpp⟩ := hh.links_mem
  have hlt : field m .size b.addr + field m .size c.addr < 2 ^ 32 := by
    rw [← hh.join_mod hbc]
    exact Nat.mod_lt _ (by decide)
  have h1 := (agrees_self _ m).set hs .size hpb hlt
  have h2 := removeFromChains_agrees hs h1 hpc (by simpa using hprev) (by simpa using hnext)
    (by simpa using hfpp) (by simpa using hfpn)
  refine (hh.absorb hb hc hbc).agrees fun f q hq => ?_
  refine (h2 f q ?_).trans (by simp [Headers.absorb])
  simp only [nodes, List.map_append, List.map_cons, List.mem_cons, List.mem_append] at hq ⊢
  tauto

/-- The second half of {lit}`__free_block`. -/
theorem mergeNext_spec (hh : Holds (field m) head (bs₁ ++ b :: bs₂) frees)
    (hb : b.status = .free) (hbs : Settled bs₂) :
    (∃ frees, Holds (field (mergeNext m b.addr ((bs₂.map Block.addr).headD head))) head
      (bs₁ ++ joinNext b bs₂) frees) ∧
      ∀ a, Kept head (bs₁ ++ b :: bs₂) a →
        mergeNext m b.addr ((bs₂.map Block.addr).headD head) a = m a := by
  obtain ⟨c, l, rfl, hc, hbc, heq⟩ | ⟨hfirst, heq⟩ := joinNext_cases b bs₂
  · have hfree := (hh.type_iff (show c ∈ _ by simp) (by simp [hc])).mpr hc
    rw [heq, List.map_cons, List.headD_cons, mergeNext, if_pos ⟨hfree, hh.stop_mod.mpr hbc⟩,
      hh.join_mod hbc]
    have hmem : c.addr ∈ frees :=
      hh.perm.mem_iff.mpr (mem_freeAddrs.mpr ⟨c, by simp, hc, rfl⟩)
    obtain ⟨fs₁, fs₂, rfl⟩ := List.append_of_mem hmem
    refine ⟨⟨_, absorb_holds hh hb hc hbc⟩, fun a hk => ?_⟩
    have hpb := mem_nodes_middle head bs₁ (c :: l) b
    obtain ⟨hpc, hnext, hprev, -, -⟩ := hh.links_mem
    have hfree' : c.addr ∈ head :: (fs₁ ++ c.addr :: fs₂) := by simp
    have hlt : field m .size b.addr + field m .size c.addr < 2 ^ 32 := by
      rw [← hh.join_mod hbc]
      exact Nat.mod_lt _ (by decide)
    rw [removeFromChains_apply hk hh ((agrees_self _ m).set hh.layout.spaced .size hpb hlt) hpc
      (by simpa using hnext) (by simpa using hprev)
      (by simpa using hh.freeList.next_mem hfree') (by simpa using hh.freeList.prev_mem hfree'),
      hk.set_header hh.layout .size _ (by decide) hpb]
  · have hcond : ¬(field m .type ((bs₂.map Block.addr).headD head) = typeFree ∧
        (b.addr + field m .size b.addr) % 2 ^ 32 = (bs₂.map Block.addr).headD head) := by
      rintro ⟨htype, hstop⟩
      cases bs₂ with
      | nil =>
          rw [List.map_nil, List.headD_nil, hh.head_type] at htype
          exact absurd htype (by decide)
      | cons c l =>
          rw [List.map_cons, List.headD_cons] at htype hstop
          have hloose := hbs c (by simp)
          exact hfirst c l rfl ⟨(hh.type_iff (by simp) hloose).mp htype, hh.stop_mod.mp hstop⟩
    rw [heq, mergeNext, if_neg hcond]
    exact ⟨⟨frees, hh⟩, fun _ _ => rfl⟩

/-- The first half keeps the bytes that the second has to keep. -/
theorem Kept.joinPrev (hk : Kept head (bs₁ ++ b :: bs₂) a) (hb : b.status ≠ .used) :
    Kept head ((Arena.joinPrev bs₁ b).1 ++ (Arena.joinPrev bs₁ b).2 :: bs₂) a := by
  have hblocks := hk.blocks
  simp only [List.forall_mem_append, List.forall_mem_cons] at hblocks
  refine ⟨hk.head, ?_⟩
  obtain ⟨l, c, rfl, hc, hcb, heq⟩ | ⟨-, heq⟩ := joinPrev_cases bs₁ b
  · simp only [List.forall_mem_append, List.forall_mem_cons] at hblocks
    simp only [heq, List.forall_mem_append, List.forall_mem_cons]
    refine ⟨hblocks.1.1, fun hin => ?_, hblocks.2.2⟩
    obtain hin | hin := (contains_join hcb _).mp hin
    · exact absurd (hblocks.1.2.1 hin).1 (by simp [hc])
    · exact absurd (hblocks.2.1 hin).1 hb
  · simp only [heq, List.forall_mem_append, List.forall_mem_cons]
    exact ⟨hblocks.1, fun hin => absurd (hblocks.2.1 hin).1 hb, hblocks.2.2⟩

/-- {lit}`__free_block` releases a block. -/
theorem freeBlock_spec (hh : Holds (field m) head (bs₁ ++ b :: bs₂) frees)
    (hb : b.status = .loose) (hbs₁ : Settled bs₁) (hbs₂ : Settled bs₂) :
    (∃ frees, Holds (field (freeBlock head m b.addr)) head (release bs₁ b bs₂) frees) ∧
      ∀ a, Kept head (bs₁ ++ b :: bs₂) a → freeBlock head m b.addr a = m a := by
  obtain ⟨⟨frees', hprev⟩, haddr, hkeep⟩ := mergePrev_spec hh hb hbs₁
  have hcircle := hh.arenaList
  rw [List.map_append, List.map_cons] at hcircle
  obtain ⟨hnext, hkeep'⟩ := mergeNext_spec hprev (joinPrev_status bs₁ b) hbs₂
  have heq : freeBlock head m b.addr = mergeNext (mergePrev head m b.addr).1
      (joinPrev bs₁ b).2.addr ((bs₂.map Block.addr).headD head) := by
    rw [freeBlock, haddr, hcircle.next_eq]
  rw [heq]
  refine ⟨hnext, fun a hk => ?_⟩
  rw [hkeep' a (hk.joinPrev (by simp [hb])), hkeep a hk]

/-! ## The functions -/

/-- Each block takes its bytes of the address space. -/
theorem Layout.length_le (hl : Layout head blocks) {k : ℕ} (hk : ∀ b ∈ blocks, k ≤ b.addr)
    (hk32 : k ≤ 2 ^ 32) : k + freeHeaderSize * blocks.length ≤ 2 ^ 32 := by
  induction blocks generalizing k with
  | nil => simpa using hk32
  | cons b bs ih =>
      obtain ⟨hsort, hlarge, hbound, happ, hhead⟩ := hl
      rw [List.pairwise_cons] at hsort
      rw [List.forall_mem_cons] at hlarge hbound happ hk
      have hrest := ih ⟨hsort.2, hlarge.2, hbound.2, happ.2, hhead⟩ hsort.1 (by omega)
      have hsize := hlarge.1
      have hlow := hk.1
      rw [List.length_cons]
      simp only [Block.stop, freeHeaderSize] at hsize hrest ⊢
      omega

/-- A bound for the loops. -/
def loopBound : ℕ := 2 ^ 28

/-- A walk over all blocks ends within its bound. -/
theorem Layout.length_lt (hl : Layout head blocks) : blocks.length < loopBound := by
  have hle := hl.length_le (fun b _ => Nat.zero_le b.addr) (Nat.zero_le _)
  simp only [freeHeaderSize, loopBound] at hle ⊢
  omega

/-- A walk over the free blocks ends within its bound. -/
theorem Holds.frees_length {h : Headers} (hh : Holds h head blocks frees) :
    frees.length < loopBound := by
  refine lt_of_le_of_lt ?_ hh.layout.length_lt
  rw [hh.perm.length_eq, freeAddrs, List.length_map]
  exact List.length_filter_le ..

/-- {lit}`malloc` returns NULL if every free block is too small, and carves one that is
large enough otherwise. -/
theorem malloc_spec (hh : Holds (field m) head blocks frees) {size : ℕ} (hpos : 0 < size)
    (hlt : size + 2 * headerSize ≤ 2 ^ 32) :
    (malloc loopBound head true m size = some (m, 0) ∧
      ∀ b ∈ blocks, b.status = .free → b.size < roundSize size) ∨
    ∃ bs₁ b bs₂ m', blocks = bs₁ ++ b :: bs₂ ∧ b.status = .free ∧ roundSize size ≤ b.size ∧
      malloc loopBound head true m size = some (m', b.addr + headerSize) ∧
      (∃ frees, Holds (field m') head (bs₁ ++ (carve b (roundSize size) ++ bs₂)) frees) ∧
      ∀ a, Kept head blocks a → m' a = m a := by
  have hround : freeHeaderSize ≤ roundSize size := by
    rw [roundSize_eq]
    simp only [headerSize, freeHeaderSize] at hlt ⊢
    omega
  have hfind : findFit m (roundSize size) loopBound (field m .nextFree head) =
      some (frees.find? fun p => roundSize size ≤ field m .size p) := by
    rw [hh.freeList.next_head]
    have hh' : Holds (field m) head blocks ([] ++ frees) := hh
    exact findFit_eq hh' hh.frees_length
  cases hfound : frees.find? fun p => roundSize size ≤ field m .size p with
  | none =>
      refine Or.inl ⟨?_, fun b hb hfree => ?_⟩
      · simp [malloc, hpos.ne', hfind, hfound]
      · have hmem := hh.perm.mem_iff.mpr (mem_freeAddrs.mpr ⟨b, hb, hfree, rfl⟩)
        have hsmall := List.find?_eq_none.mp hfound b.addr hmem
        rw [hh.size b hb] at hsmall
        simpa using hsmall
  | some p =>
      have hmem := List.mem_of_find?_eq_some hfound
      obtain ⟨b, hb, hfree, rfl⟩ := mem_freeAddrs.mp (hh.perm.subset hmem)
      have hfit : roundSize size ≤ b.size := by
        have hfit := List.find?_some hfound
        rw [hh.size b hb] at hfit
        simpa using hfit
      obtain ⟨bs₁, bs₂, rfl⟩ := List.append_of_mem hb
      obtain ⟨fs₁, fs₂, rfl⟩ := List.append_of_mem hmem
      obtain ⟨hholds, hptr, hkeep⟩ := mallocFromBlock_spec hh hfree hround hfit
      refine Or.inr ⟨bs₁, b, bs₂, _, rfl, hfree, hfit, ?_, hholds, hkeep⟩
      rw [← hptr]
      simp [malloc, hpos.ne', hfind, hfound]

/-- A block in use is about to be freed. -/
theorem Holds.loosen {h : Headers} (hh : Holds h head (bs₁ ++ b :: bs₂) frees)
    (hb : b.status = .used) : Holds h head (bs₁ ++ { b with status := .loose } :: bs₂) frees := by
  refine ⟨hh.layout.restatus _, ?_, hh.freeList, ?_, hh.head_type, ?_, ?_⟩
  · simpa using hh.arenaList
  · have hperm := hh.perm
    rw [freeAddrs_append, freeAddrs_cons_of_ne (by simp [hb])] at hperm
    rwa [freeAddrs_append, freeAddrs_cons_of_ne (by simp)]
  · have htype := hh.type
    simp only [List.forall_mem_append, List.forall_mem_cons] at htype ⊢
    exact ⟨htype.1, trivial, htype.2.2⟩
  · have hsize := hh.size
    simp only [List.forall_mem_append, List.forall_mem_cons] at hsize ⊢
    exact hsize

/-- {lit}`free` releases the block of the pointer. -/
theorem free_spec (hh : Holds (field m) head (bs₁ ++ b :: bs₂) frees) (hb : b.status = .used)
    (hbs₁ : Settled bs₁) (hbs₂ : Settled bs₂) :
    (∃ frees, Holds (field (free head true m (b.addr + headerSize))) head (release bs₁ b bs₂)
      frees) ∧
      ∀ a, Kept head (bs₁ ++ { b with status := .loose } :: bs₂) a →
        free head true m (b.addr + headerSize) a = m a := by
  have hfree : free head true m (b.addr + headerSize) = freeBlock head m b.addr := by
    rw [free, if_neg (by simp [headerSize]), if_pos rfl, Nat.add_sub_cancel]
  rw [hfree]
  exact freeBlock_spec (hh.loosen hb) rfl hbs₁ hbs₂

/-- The blocks before and behind an address. -/
theorem Layout.exists_place (hl : Layout head blocks) (buf : ℕ) :
    ∃ bs₁ bs₂, blocks = bs₁ ++ bs₂ ∧ (∀ c ∈ bs₁, c.addr < buf) ∧ ∀ c ∈ bs₂, buf ≤ c.addr := by
  obtain ⟨hsort, -, -, -, -⟩ := hl
  induction blocks with
  | nil => exact ⟨[], [], rfl, by simp, by simp⟩
  | cons b bs ih =>
      rw [List.pairwise_cons] at hsort
      by_cases hb : b.addr < buf
      · obtain ⟨bs₁, bs₂, rfl, h₁, h₂⟩ := ih hsort.2
        exact ⟨b :: bs₁, bs₂, rfl, List.forall_mem_cons.mpr ⟨hb, h₁⟩, h₂⟩
      · refine ⟨[], b :: bs, rfl, by simp, List.forall_mem_cons.mpr ⟨by omega, fun c hc => ?_⟩⟩
        have hbc := hsort.1 c hc
        simp only [Block.stop] at hbc
        omega

/-- On a settled list no block has the type of the head node. -/
theorem Holds.type_ne_head {h : Headers} (hh : Holds h head blocks frees) (hset : Settled blocks)
    (hb : b ∈ blocks) : h .type b.addr ≠ typeHead := by
  have htype := hh.type b hb
  have hloose := hset b hb
  cases hst : b.status with
  | used =>
      rw [hst] at htype
      rw [htype]
      decide
  | free =>
      rw [hst] at htype
      rw [htype]
      decide
  | loose => exact absurd hst hloose

/-- The loop of {lit}`add_malloc_block` goes back to the last block before the new one. -/
theorem findPlace_eq {buf : ℕ} {l : List Block}
    (hh : Holds (field m) head ((bs₁ ++ l) ++ bs₂) frees) (hset : Settled ((bs₁ ++ l) ++ bs₂))
    (hfuel : l.length < fuel) (hbs₁ : ∀ c ∈ bs₁, c.addr < buf) (hl : ∀ c ∈ l, buf ≤ c.addr) :
    findPlace m buf fuel (((bs₁ ++ l).map Block.addr).getLastD head) =
      some ((bs₁.map Block.addr).getLastD head) := by
  obtain ⟨k, rfl⟩ := Nat.exists_eq_succ_of_ne_zero (show fuel ≠ 0 by omega)
  induction l using List.reverseRecOn generalizing k bs₂ with
  | nil =>
      rw [List.append_nil]
      obtain rfl | ⟨l, c, rfl⟩ := bs₁.eq_nil_or_concat
      · rw [List.map_nil, List.getLastD_nil, findPlace, if_pos hh.head_type]
      · rw [List.concat_eq_append] at hbs₁ hh hset ⊢
        have htype := hh.type_ne_head hset (show c ∈ _ by simp)
        rw [List.map_append, List.map_singleton, List.getLastD_concat, findPlace, if_neg htype,
          if_pos (hbs₁ c (by simp))]
  | append_singleton l c ih =>
      have htype := hh.type_ne_head hset (show c ∈ _ by simp)
      have hge : ¬c.addr < buf := Nat.not_lt.mpr (hl c (by simp))
      have hcircle := hh.arenaList
      rw [← List.append_assoc, List.append_assoc (bs₁ ++ l), List.singleton_append]
        at hh hset hcircle
      rw [List.map_append, List.map_cons] at hcircle
      rw [← List.append_assoc, List.map_append, List.map_singleton, List.getLastD_concat,
        findPlace, if_neg htype, if_neg hge, hcircle.prev_eq]
      rw [List.length_append, List.length_singleton] at hfuel
      obtain ⟨j, rfl⟩ := Nat.exists_eq_succ_of_ne_zero (show k ≠ 0 by omega)
      exact ih hh hset (fun d hd => hl d (by simp [hd])) j (by omega)

/-- A node beside a block stays one. -/
theorem mem_nodes_of_around (hq : p ∈ nodes head (bs₁ ++ bs₂)) :
    p ∈ nodes head (bs₁ ++ b :: bs₂) := by
  simp only [nodes, List.map_append, List.map_cons, List.mem_cons, List.mem_append] at hq ⊢
  tauto

/-- No other node lies at the address of a block. -/
theorem Layout.ne_of_around (hl : Layout head (bs₁ ++ b :: bs₂))
    (hp : p ∈ nodes head (bs₁ ++ bs₂)) : p ≠ b.addr := by
  obtain ⟨hhead, hne₁, hne₂⟩ := hl.ne_middle
  obtain rfl | ⟨c, hc, rfl⟩ := mem_nodes.mp hp
  · exact hhead
  · obtain hc | hc := List.mem_append.mp hc
    · exact hne₁ c hc
    · exact hne₂ c hc

/-- The header that {lit}`add_malloc_block` writes first. -/
theorem newHeader_holds {buf size : ℕ} (hh : Holds (field m) head (bs₁ ++ bs₂) frees)
    (hl : Layout head (bs₁ ++ ⟨buf, size, .loose⟩ :: bs₂)) :
    Holds (field (set (set m .type buf typeFree) .size buf size)) head (bs₁ ++ bs₂) frees ∧
      field (set (set m .type buf typeFree) .size buf size) .size buf = size := by
  have hs := hl.spaced
  have hbuf : buf ∈ nodes head (bs₁ ++ ⟨buf, size, .loose⟩ :: bs₂) := mem_nodes_middle ..
  have hbound := hl.bounded ⟨buf, size, .loose⟩ (by simp)
  simp only [Block.stop] at hbound
  have h2 := ((agrees_self _ m).set hs .type hbuf (v := typeFree) (by decide)).set hs .size hbuf
    (v := size) (by omega)
  refine ⟨hh.agrees fun f q hq => ?_, (h2 .size buf hbuf).trans (by simp)⟩
  have hne : q ≠ buf := hl.ne_of_around hq
  refine (h2 f q (mem_nodes_of_around hq)).trans ?_
  cases f <;> simp [Function.update_of_ne hne]

/-- The stores of {lit}`add_malloc_block` in the arena list. -/
def linkStores (m : ByteMemory) (pah buf : ℕ) : ByteMemory :=
  let m := set (set m .next buf (field m .next pah)) .prev buf pah
  let m := set m .next pah buf
  set m .prev (field m .next buf) buf

/-- The stores of {lit}`add_malloc_block` put the new block into the main chain. -/
theorem linkStores_spec {buf size : ℕ} (hh : Holds (field m) head (bs₁ ++ bs₂) frees)
    (hl : Layout head (bs₁ ++ ⟨buf, size, .loose⟩ :: bs₂)) (hsize : field m .size buf = size) :
    Holds (field (linkStores m ((bs₁.map Block.addr).getLastD head) buf)) head
      (bs₁ ++ ⟨buf, size, .loose⟩ :: bs₂) frees ∧
      ∀ a, Kept head (bs₁ ++ ⟨buf, size, .loose⟩ :: bs₂) a →
        linkStores m ((bs₁.map Block.addr).getLastD head) buf a = m a := by
  have hs := hl.spaced
  have hbuf : buf ∈ nodes head (bs₁ ++ ⟨buf, size, .loose⟩ :: bs₂) := mem_nodes_middle ..
  have hsub : ∀ q ∈ nodes head (bs₁ ++ bs₂),
      q ∈ nodes head (bs₁ ++ ⟨buf, size, .loose⟩ :: bs₂) := fun _ => mem_nodes_of_around
  have hpah : (bs₁.map Block.addr).getLastD head ∈ nodes head (bs₁ ++ bs₂) := by
    rw [nodes, List.map_append]
    exact Circle.getLastD_mem head _ _
  have hlink := hh.link hl hsize
  generalize (bs₁.map Block.addr).getLastD head = pah at hpah hlink ⊢
  have hne : buf ≠ pah := (hl.ne_of_around hpah).symm
  have hna := hh.next_mem hpah
  have h2 := ((agrees_self _ m).set hs .next hbuf (hs.lt _ (hsub _ hna))).set hs .prev hbuf
    (hs.lt _ (hsub _ hpah))
  have h3 := h2.set hs .next (hsub _ hpah) (hs.lt _ hbuf)
  have hread := (h3 .next buf hbuf).trans
    (show _ = field m .next pah by simp [Function.update_of_ne hne])
  have h4 := h3.set hs .prev (hsub _ hna) (hs.lt _ hbuf)
  simp only [linkStores, hread]
  refine ⟨hlink.agrees h4, fun a hk => ?_⟩
  rw [hk.set_header hl .prev _ (by decide) (hsub _ hna),
    hk.set_header hl .next _ (by decide) (hsub _ hpah),
    hk.set_header hl .prev _ (by decide) hbuf, hk.set_header hl .next _ (by decide) hbuf]

/-- {lit}`add_malloc_block` puts a block in its place and releases it. -/
theorem addMallocBlock_spec {buf size : ℕ} (hh : Holds (field m) head (bs₁ ++ bs₂) frees)
    (hset : Settled (bs₁ ++ bs₂)) (hl : Layout head (bs₁ ++ ⟨buf, size, .loose⟩ :: bs₂)) :
    ∃ m', addMallocBlock loopBound head true m buf size = some m' ∧
      (∃ frees, Holds (field m') head (release bs₁ ⟨buf, size, .loose⟩ bs₂) frees) ∧
      ∀ a, Kept head (bs₁ ++ ⟨buf, size, .loose⟩ :: bs₂) a → m' a = m a := by
  obtain ⟨hh2, hsize⟩ := newHeader_holds hh hl
  have hbuf : buf ∈ nodes head (bs₁ ++ ⟨buf, size, .loose⟩ :: bs₂) := mem_nodes_middle ..
  have hlarge : ¬size < freeHeaderSize := Nat.not_lt.mpr (hl.large ⟨buf, size, .loose⟩ (by simp))
  obtain ⟨hlink, hkeep⟩ := linkStores_spec hh2 hl hsize
  obtain ⟨hset₁, hset₂⟩ := List.forall_mem_append.mp hset
  obtain ⟨hrelease, hkeep'⟩ := freeBlock_spec hlink rfl hset₁ hset₂
  have hsort := hl.sorted
  rw [List.pairwise_append, List.pairwise_cons] at hsort
  have hplace : findPlace (set (set m .type buf typeFree) .size buf size) buf loopBound
      (field (set (set m .type buf typeFree) .size buf size) .prev head) =
      some ((bs₁.map Block.addr).getLastD head) := by
    have hh2' := hh2
    rw [← List.append_nil (bs₁ ++ bs₂)] at hset hh2'
    rw [hh2.arenaList.prev_head]
    refine findPlace_eq hh2' hset ?_ (fun c hc => ?_) fun c hc => ?_
    · have hlen := hh.layout.length_lt
      rw [List.length_append] at hlen
      omega
    · have hbefore := hsort.2.2 c hc ⟨buf, size, .loose⟩ (by simp)
      have hlow := hh.layout.addr_lt (List.mem_append_left bs₂ hc)
      simp only [freeHeaderSize] at hbefore hlow
      omega
    · have hbehind := hsort.2.1.1 c hc
      simp only [Block.stop] at hbehind
      omega
  refine ⟨_, ?_, hrelease, fun a hk => ?_⟩
  · simp only [addMallocBlock, if_neg hlarge, if_true, hplace]
    rfl
  · rw [hkeep' a hk, hkeep a hk, hk.set_header hl .size _ (by decide) hbuf,
      hk.set_header hl .type _ (by decide) hbuf]

/-! ## The status -/

/-- The sizes of the free blocks. -/
def freeSizes (blocks : List Block) : List ℕ :=
  (blocks.filter fun b => b.status = .free).map Block.size

/-- The loop of {lit}`get_malloc_memory_status` adds up the sizes and finds the largest. -/
theorem statusLoop_eq (hh : Holds (field m) head blocks (fs₁ ++ fs₂)) (hset : Settled blocks)
    (hfuel : fs₂.length < fuel) {total largest : ℕ} (htotal : total < 2 ^ 32) :
    statusLoop m fuel (fs₂.headD head) (total, largest) =
      some ((total + (fs₂.map (field m .size)).sum) % 2 ^ 32,
        (fs₂.map (field m .size)).foldl max largest) := by
  obtain ⟨k, rfl⟩ := Nat.exists_eq_succ_of_ne_zero (show fuel ≠ 0 by omega)
  induction fs₂ generalizing fs₁ k total largest with
  | nil =>
      rw [List.headD_nil, statusLoop, if_pos hh.head_type, List.map_nil, List.sum_nil,
        List.foldl_nil, Nat.add_zero, Nat.mod_eq_of_lt htotal]
  | cons p fs₂ ih =>
      obtain ⟨b, hb, -, hbp⟩ := mem_freeAddrs.mp (hh.perm.subset (show p ∈ _ by simp))
      have htype := hh.type_ne_head hset hb
      rw [hbp] at htype
      have hnext := hh.freeList.next_eq
      have hmax : (if largest ≤ field m .size p then field m .size p else largest) =
          max largest (field m .size p) := rfl
      rw [List.length_cons] at hfuel
      obtain ⟨j, rfl⟩ := Nat.exists_eq_succ_of_ne_zero (show k ≠ 0 by omega)
      rw [List.append_cons] at hh
      rw [List.headD_cons, statusLoop, if_neg htype, hnext, hmax,
        ih hh (Nat.mod_lt _ (by decide)) j (by omega), List.map_cons, List.sum_cons,
        List.foldl_cons]
      congr 2
      omega

/-- The blocks fit into the address space. -/
theorem Layout.totalSize_lt (hl : Layout head blocks) {k : ℕ} (hk : ∀ b ∈ blocks, k ≤ b.addr)
    (hk32 : k < 2 ^ 32) : k + totalSize blocks < 2 ^ 32 := by
  induction blocks generalizing k with
  | nil => simpa [totalSize] using hk32
  | cons b bs ih =>
      obtain ⟨hsort, hlarge, hbound, happ, hhead⟩ := hl
      rw [List.pairwise_cons] at hsort
      rw [List.forall_mem_cons] at hlarge hbound happ hk
      have hrest := ih ⟨hsort.2, hlarge.2, hbound.2, happ.2, hhead⟩ hsort.1 (by omega)
      have hlow := hk.1
      rw [totalSize_cons]
      simp only [Block.stop] at hrest
      omega

/-- The sizes in the headers of the free list. -/
theorem Holds.freeSizes_perm {h : Headers} (hh : Holds h head blocks frees) :
    (frees.map (h .size)).Perm (freeSizes blocks) := by
  have hsizes : (freeAddrs blocks).map (h .size) = freeSizes blocks := by
    rw [freeAddrs, freeSizes, List.map_map]
    refine List.map_congr_left fun b hb => ?_
    exact hh.size b (List.mem_of_mem_filter hb)
  rw [← hsizes]
  exact hh.perm.map _

/-- The free blocks and the others. -/
theorem freeSizes_sum (hset : Settled blocks) :
    (freeSizes blocks).sum + totalSize (usedBlocks blocks) = totalSize blocks := by
  induction blocks with
  | nil => rfl
  | cons b bs ih =>
      obtain ⟨hb, hbs⟩ := List.forall_mem_cons.mp hset
      have hrest := ih hbs
      simp only [freeSizes, totalSize, usedBlocks] at hrest ⊢
      cases hst : b.status with
      | used => simp [hst]; omega
      | free => simp [hst]; omega
      | loose => exact absurd hst hb

/-- {lit}`get_malloc_memory_status` returns the sum of the sizes of all free blocks, and the
largest. -/
theorem getMallocMemoryStatus_spec (hh : Holds (field m) head blocks frees)
    (hset : Settled blocks) :
    getMallocMemoryStatus loopBound head true m =
      some ((freeSizes blocks).sum, (freeSizes blocks).foldl max 0) := by
  have hh' : Holds (field m) head blocks ([] ++ frees) := hh
  have hloop : statusLoop m loopBound (frees.headD head) (0, 0) =
      some ((0 + (frees.map (field m .size)).sum) % 2 ^ 32,
        (frees.map (field m .size)).foldl max 0) :=
    statusLoop_eq hh' hset hh.frees_length (by decide)
  have hlt : (freeSizes blocks).sum < 2 ^ 32 := by
    have htotal := hh.layout.totalSize_lt (k := 0) (fun _ _ => Nat.zero_le _) (by decide)
    have hsum := freeSizes_sum hset
    omega
  rw [getMallocMemoryStatus, if_pos rfl, hh.freeList.next_head, hloop, hh.freeSizes_perm.sum_nat,
    hh.freeSizes_perm.foldl_eq' (fun x _ y _ z => max_right_comm z x y), Nat.zero_add,
    Nat.mod_eq_of_lt hlt]

end Arena

end Sumeru
