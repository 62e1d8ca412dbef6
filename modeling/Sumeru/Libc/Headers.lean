import Sumeru.Libc.Malloc

/-!
# Sumeru - The block lists of malloc.c

The blocks of the arena list in the order of their addresses, what a memory holds when its
headers link them, and the edits of {lit}`malloc.c` on such memories.  As long as headers do
not overlap, a memory is as good as one map for each field; on these maps the edits are
those of circular lists.

Main results:

- Theorem {lit}`Arena.Agrees.set`: a stored field changes one map in one place.
- Theorems {lit}`Arena.Holds.split` and {lit}`Arena.Holds.take`: a block is handed out, in part
  or as a whole.
- Theorem {lit}`Arena.Holds.release`: {lit}`__free_block` frees a block and merges it with its
  neighbours.
- Theorem {lit}`Arena.Holds.link`: a new block enters the arena list.
-/

namespace Sumeru

namespace Arena

open CircularList

/-! ## One map for each field -/

/-- The values of the fields, by the address of the header. -/
abbrev Headers := Field → ℕ → ℕ

/-- A field of a header is changed. -/
def Headers.set (h : Headers) (f : Field) (p v : ℕ) : Headers :=
  Function.update h f (Function.update (h f) p v)

@[simp] theorem Headers.set_self (h : Headers) (f : Field) (p v : ℕ) :
    h.set f p v f = Function.update (h f) p v :=
  Function.update_self ..

@[simp] theorem Headers.set_of_ne (h : Headers) {f g : Field} (p v : ℕ) (hg : g ≠ f) :
    h.set f p v g = h g :=
  Function.update_of_ne hg ..

/-- Headers at these addresses do not overlap and are in the address space. -/
structure Spaced (s : List ℕ) : Prop where
  apart : ∀ p ∈ s, ∀ q ∈ s, Apart p q
  lt : ∀ p ∈ s, p < 2 ^ 32

/-- A memory has these field values at the addresses of {lit}`s`. -/
def Agrees (s : List ℕ) (m : ByteMemory) (h : Headers) : Prop :=
  ∀ f, ∀ p ∈ s, field m f p = h f p

/-- Memory agrees with the headers that it holds. -/
theorem agrees_self (s : List ℕ) (m : ByteMemory) : Agrees s m (field m) := fun _ _ _ => rfl

variable {s : List ℕ} {m : ByteMemory} {h : Headers} {p q v head : ℕ}

/-- A stored field changes one map in one place. -/
theorem Agrees.set (ha : Agrees s m h) (hs : Spaced s) (f : Field) (hp : p ∈ s)
    (hv : v < 2 ^ 32) : Agrees s (Arena.set m f p v) (h.set f p v) := by
  intro g q hq
  rw [field_set f g hv (hs.apart p hp q hq), ha g q hq]
  by_cases hgf : g = f
  · rw [hgf, Headers.set_self, Function.update_apply]
    simp
  · rw [Headers.set_of_ne h p v hgf, if_neg fun hc => hgf hc.1]

/-! ## Blocks -/

/-- What a block is: handed out, on the free list, or neither of them. -/
inductive Status where
  | used
  | free
  | loose
  deriving DecidableEq

/-- A block of the arena list. -/
structure Block where
  addr : ℕ
  size : ℕ
  status : Status
  deriving DecidableEq

/-- The address behind a block. -/
def Block.stop (b : Block) : ℕ := b.addr + b.size

/-- The blocks are in the order of their addresses and do not overlap each other or the head
node; each is large enough for a free block. -/
structure Layout (head : ℕ) (blocks : List Block) : Prop where
  sorted : blocks.Pairwise fun b c => b.stop ≤ c.addr
  large : ∀ b ∈ blocks, freeHeaderSize ≤ b.size
  bounded : ∀ b ∈ blocks, b.stop + 2 * headerSize < 2 ^ 32
  head_apart : ∀ b ∈ blocks, b.stop ≤ head ∨ head + freeHeaderSize ≤ b.addr
  head_lt : head < 2 ^ 32

/-- The addresses of the headers. -/
def nodes (head : ℕ) (blocks : List Block) : List ℕ := head :: blocks.map Block.addr

/-- The type that a header records. -/
def Status.Recorded : Status → ℕ → Prop
  | .used, t => t = typeUsed
  | .free, t => t = typeFree
  | .loose, _ => True

/-- The addresses of the free blocks. -/
def freeAddrs (blocks : List Block) : List ℕ :=
  (blocks.filter fun b => b.status = .free).map Block.addr

/-- The headers link these blocks, and in the order {lit}`frees` the free ones. -/
structure Holds (h : Headers) (head : ℕ) (blocks : List Block) (frees : List ℕ) : Prop where
  layout : Layout head blocks
  arenaList : Circle (h .next) (h .prev) head (blocks.map Block.addr)
  freeList : Circle (h .nextFree) (h .prevFree) head frees
  perm : frees.Perm (freeAddrs blocks)
  head_type : h .type head = typeHead
  type : ∀ b ∈ blocks, b.status.Recorded (h .type b.addr)
  size : ∀ b ∈ blocks, h .size b.addr = b.size

variable {blocks bs₁ bs₂ : List Block} {frees fs₁ fs₂ : List ℕ}
  {b c : Block}

/-- The header of a block lies inside of it. -/
theorem Layout.addr_lt (hl : Layout head blocks) (hb : b ∈ blocks) :
    b.addr + freeHeaderSize ≤ b.stop := by
  have hlarge := hl.large b hb
  simp only [Block.stop]
  omega

/-- Two blocks are the same, or one ends before the other starts. -/
theorem Layout.disjoint (hl : Layout head blocks) (hb : b ∈ blocks) (hc : c ∈ blocks) :
    b = c ∨ b.stop ≤ c.addr ∨ c.stop ≤ b.addr :=
  List.Pairwise.forall_of_forall_of_flip (R := fun b c => b = c ∨ b.stop ≤ c.addr ∨ c.stop ≤ b.addr)
    (fun _ _ => Or.inl rfl) (hl.sorted.imp fun hbc => Or.inr (Or.inl hbc))
    (hl.sorted.imp fun hbc => Or.inr (Or.inr hbc)) hb hc

/-- The headers are that of the head node and those of the blocks. -/
theorem mem_nodes : p ∈ nodes head blocks ↔ p = head ∨ ∃ b ∈ blocks, b.addr = p := by
  simp [nodes]

/-- Headers of different nodes do not overlap. -/
theorem Layout.spaced (hl : Layout head blocks) : Spaced (nodes head blocks) where
  apart := by
    have hside : ∀ b ∈ blocks, Apart head b.addr := fun b hb => by
      have haddr := hl.addr_lt hb
      have hhead := hl.head_apart b hb
      simp only [Apart]
      omega
    intro p hp q hq
    rw [mem_nodes] at hp hq
    obtain rfl | ⟨b, hb, rfl⟩ := hp
    · obtain rfl | ⟨c, hc, rfl⟩ := hq
      · exact Or.inl rfl
      · exact hside c hc
    · obtain rfl | ⟨c, hc, rfl⟩ := hq
      · exact (hside b hb).symm
      · have hb' := hl.addr_lt hb
        have hc' := hl.addr_lt hc
        obtain rfl | hbc := hl.disjoint hb hc
        · exact Or.inl rfl
        · simp only [Apart]
          omega
  lt := by
    intro p hp
    rw [mem_nodes] at hp
    obtain rfl | ⟨b, hb, rfl⟩ := hp
    · exact hl.head_lt
    · have haddr := hl.addr_lt hb
      have hbound := hl.bounded b hb
      simp only [freeHeaderSize] at haddr
      omega

/-- No address occurs twice. -/
theorem Layout.nodup (hl : Layout head blocks) : (nodes head blocks).Nodup := by
  rw [nodes, List.nodup_cons]
  constructor
  · rw [List.mem_map]
    rintro ⟨b, hb, hhead⟩
    have haddr := hl.addr_lt hb
    have hside := hl.head_apart b hb
    simp only [freeHeaderSize] at haddr hside
    omega
  · refine List.pairwise_map.mpr (hl.sorted.imp_of_mem fun hb _ hbc => ?_)
    have haddr := hl.addr_lt hb
    simp only [freeHeaderSize] at haddr
    omega

/-! ## What the headers hold only depends on their nodes -/

/-- The free list holds the addresses of the free blocks. -/
theorem mem_freeAddrs : p ∈ freeAddrs blocks ↔ ∃ b ∈ blocks, b.status = .free ∧ b.addr = p := by
  simp [freeAddrs, and_assoc]

/-- Free addresses, part by part. -/
theorem freeAddrs_append (bs₁ bs₂ : List Block) :
    freeAddrs (bs₁ ++ bs₂) = freeAddrs bs₁ ++ freeAddrs bs₂ := by
  simp [freeAddrs]

/-- A free block comes first among the free ones. -/
theorem freeAddrs_cons_free (hb : b.status = .free) :
    freeAddrs (b :: blocks) = b.addr :: freeAddrs blocks := by
  simp [freeAddrs, hb]

/-- Other blocks are not free. -/
theorem freeAddrs_cons_of_ne (hb : b.status ≠ .free) :
    freeAddrs (b :: blocks) = freeAddrs blocks := by
  simp [freeAddrs, hb]

/-- The nodes of the free list are nodes. -/
theorem Holds.mem_nodes_of_free (hh : Holds h head blocks frees) (hp : p ∈ head :: frees) :
    p ∈ nodes head blocks := by
  rw [mem_nodes]
  obtain rfl | hp := List.mem_cons.mp hp
  · exact Or.inl rfl
  · obtain ⟨b, hb, -, hbp⟩ := mem_freeAddrs.mp (hh.perm.subset hp)
    exact Or.inr ⟨b, hb, hbp⟩

/-- What headers hold depends on the four common fields of all nodes, and on the links of
the nodes of the free list. -/
theorem Holds.congr {h' : Headers} (hh : Holds h head blocks frees)
    (hheader : ∀ f : Field, f.offset < headerSize → ∀ p ∈ nodes head blocks, h' f p = h f p)
    (hfree : ∀ f, ∀ p ∈ head :: frees, h' f p = h f p) : Holds h' head blocks frees where
  layout := hh.layout
  arenaList := hh.arenaList.congr (hheader .next (by decide)) (hheader .prev (by decide))
  freeList := hh.freeList.congr (hfree .nextFree) (hfree .prevFree)
  perm := hh.perm
  head_type := by rw [hfree _ _ List.mem_cons_self, hh.head_type]
  type := fun b hb => by
    rw [hheader .type (by decide) _ (mem_nodes.mpr (Or.inr ⟨b, hb, rfl⟩))]
    exact hh.type b hb
  size := fun b hb => by
    rw [hheader .size (by decide) _ (mem_nodes.mpr (Or.inr ⟨b, hb, rfl⟩))]
    exact hh.size b hb

/-- Headers held by memory. -/
theorem Holds.agrees (hh : Holds h head blocks frees) (ha : Agrees (nodes head blocks) m h) :
    Holds (field m) head blocks frees :=
  hh.congr (fun f _ p hp => ha f p hp) fun f p hp => ha f p (hh.mem_nodes_of_free hp)

/-! ## Layouts -/

/-- A block can be split where both parts hold a header. -/
theorem Layout.split (hl : Layout head (bs₁ ++ b :: bs₂)) {n : ℕ} (hn : freeHeaderSize ≤ n)
    (hfit : n + freeHeaderSize ≤ b.size) :
    Layout head (bs₁ ++ ⟨b.addr, n, .used⟩ :: ⟨b.addr + n, b.size - n, .free⟩ :: bs₂) := by
  obtain ⟨hsort, hlarge, hbound, happ, hhead⟩ := hl
  simp only [List.pairwise_append, List.pairwise_cons, List.forall_mem_cons,
    List.forall_mem_append, Block.stop, freeHeaderSize] at *
  refine ⟨?_, ?_, ?_, ?_, hhead⟩ <;>
    simp only [List.pairwise_append, List.pairwise_cons, List.forall_mem_cons,
      List.forall_mem_append, Block.stop, freeHeaderSize] <;> grind

/-- Neighbours can be joined. -/
theorem Layout.join (hl : Layout head (bs₁ ++ b :: c :: bs₂)) (hbc : b.stop = c.addr) :
    Layout head (bs₁ ++ ⟨b.addr, b.size + c.size, .free⟩ :: bs₂) := by
  obtain ⟨hsort, hlarge, hbound, happ, hhead⟩ := hl
  simp only [List.pairwise_append, List.pairwise_cons, List.forall_mem_cons,
    List.forall_mem_append, Block.stop, freeHeaderSize] at *
  refine ⟨?_, ?_, ?_, ?_, hhead⟩ <;>
    simp only [List.pairwise_append, List.pairwise_cons, List.forall_mem_cons,
      List.forall_mem_append, Block.stop, freeHeaderSize] <;> grind

/-- A new block fits between the blocks around it. -/
theorem Layout.insert (hl : Layout head (bs₁ ++ bs₂)) (hlarge : freeHeaderSize ≤ b.size)
    (hbound : b.stop + 2 * headerSize < 2 ^ 32)
    (happ : b.stop ≤ head ∨ head + freeHeaderSize ≤ b.addr)
    (h₁ : ∀ c ∈ bs₁, c.stop ≤ b.addr) (h₂ : ∀ c ∈ bs₂, b.stop ≤ c.addr) :
    Layout head (bs₁ ++ b :: bs₂) := by
  obtain ⟨hsort', hlarge', hbound', happ', hhead⟩ := hl
  simp only [List.pairwise_append, List.forall_mem_append] at *
  refine ⟨?_, ?_, ?_, ?_, hhead⟩ <;>
    simp only [List.pairwise_append, List.pairwise_cons, List.forall_mem_cons,
      List.forall_mem_append] <;> grind

/-- The status of a block does not matter to the layout. -/
theorem Layout.restatus (hl : Layout head (bs₁ ++ b :: bs₂)) (st : Status) :
    Layout head (bs₁ ++ { b with status := st } :: bs₂) := by
  obtain ⟨hsort, hlarge, hbound, happ, hhead⟩ := hl
  simp only [List.pairwise_append, List.pairwise_cons, List.forall_mem_cons,
    List.forall_mem_append, Block.stop] at *
  refine ⟨?_, ?_, ?_, ?_, hhead⟩ <;>
    simpa only [List.pairwise_append, List.pairwise_cons, List.forall_mem_cons,
      List.forall_mem_append, Block.stop]

/-! ## A block is handed out -/

/-- {lit}`__malloc_from_block` splits the block at {lit}`fp`; the remainder is at
{lit}`nfp`. -/
def Headers.split (h : Headers) (fp nfp size : ℕ) : Headers :=
  let na := h .next fp
  let fpn := h .nextFree fp
  let fpp := h .prevFree fp
  let h := (h.set .type nfp typeFree).set .size nfp (h .size fp - size)
  let h := (h.set .type fp typeUsed).set .size fp size
  let h := (((h.set .prev nfp fp).set .next nfp na).set .prev na nfp).set .next fp nfp
  (((h.set .nextFree nfp fpn).set .prevFree nfp fpp).set .prevFree fpn nfp).set .nextFree fpp nfp

@[simp] theorem Headers.split_next (h : Headers) (fp nfp size : ℕ) :
    h.split fp nfp size .next =
      Function.update (Function.update (h .next) nfp (h .next fp)) fp nfp := by
  simp [Headers.split]

@[simp] theorem Headers.split_prev (h : Headers) (fp nfp size : ℕ) :
    h.split fp nfp size .prev =
      Function.update (Function.update (h .prev) nfp fp) (h .next fp) nfp := by
  simp [Headers.split]

@[simp] theorem Headers.split_nextFree (h : Headers) (fp nfp size : ℕ) :
    h.split fp nfp size .nextFree =
      Function.update (Function.update (h .nextFree) nfp (h .nextFree fp)) (h .prevFree fp)
        nfp := by
  simp [Headers.split]

@[simp] theorem Headers.split_prevFree (h : Headers) (fp nfp size : ℕ) :
    h.split fp nfp size .prevFree =
      Function.update (Function.update (h .prevFree) nfp (h .prevFree fp)) (h .nextFree fp)
        nfp := by
  simp [Headers.split]

@[simp] theorem Headers.split_type (h : Headers) (fp nfp size : ℕ) :
    h.split fp nfp size .type =
      Function.update (Function.update (h .type) nfp typeFree) fp typeUsed := by
  simp [Headers.split]

@[simp] theorem Headers.split_size (h : Headers) (fp nfp size : ℕ) :
    h.split fp nfp size .size =
      Function.update (Function.update (h .size) nfp (h .size fp - size)) fp size := by
  simp [Headers.split]

/-- A block of the list has a header. -/
theorem mem_nodes_middle (head : ℕ) (bs₁ bs₂ : List Block) (b : Block) :
    b.addr ∈ nodes head (bs₁ ++ b :: bs₂) :=
  mem_nodes.mpr (Or.inr ⟨b, by simp, rfl⟩)

/-- The addresses around one block of a layout. -/
theorem Layout.ne_middle (hl : Layout head (bs₁ ++ b :: bs₂)) :
    head ≠ b.addr ∧ (∀ c ∈ bs₁, c.addr ≠ b.addr) ∧ ∀ c ∈ bs₂, c.addr ≠ b.addr := by
  have hnodup := hl.nodup
  simp only [nodes, List.map_append, List.map_cons, List.nodup_cons, List.nodup_append',
    List.mem_append, List.mem_cons, List.disjoint_cons_right, List.mem_map] at hnodup
  refine ⟨fun hc => hnodup.1 (Or.inr (Or.inl hc)), fun c hc heq => ?_, fun c hc heq => ?_⟩
  · exact hnodup.2.2.2.1 ⟨c, hc, heq⟩
  · exact hnodup.2.2.1.1 ⟨c, hc, heq⟩

/-- The used part of a block and its remainder. -/
theorem Holds.split {n : ℕ} (hh : Holds h head (bs₁ ++ b :: bs₂) (fs₁ ++ b.addr :: fs₂))
    (hb : b.status = .free) (hn : freeHeaderSize ≤ n) (hfit : n + freeHeaderSize ≤ b.size) :
    Holds (h.split b.addr (b.addr + n) n) head
      (bs₁ ++ ⟨b.addr, n, .used⟩ :: ⟨b.addr + n, b.size - n, .free⟩ :: bs₂)
      (fs₁ ++ (b.addr + n) :: fs₂) := by
  have hl := hh.layout.split hn hfit
  have hl' : Layout head
      ((bs₁ ++ [⟨b.addr, n, .used⟩]) ++ ⟨b.addr + n, b.size - n, .free⟩ :: bs₂) := by
    simpa using hl
  obtain ⟨hhead, hne₁, hne₂⟩ := hl.ne_middle
  obtain ⟨hhead', hne₁', hne₂'⟩ := hl'.ne_middle
  simp only [List.forall_mem_append, List.forall_mem_cons] at hne₁' hne₂
  have hfresh : b.addr + n ∉ nodes head (bs₁ ++ b :: bs₂) := by
    rw [mem_nodes]
    simp only [List.mem_append, List.mem_cons]
    rintro (hc | ⟨c, hc | rfl | hc, heq⟩)
    · exact hhead' hc.symm
    · exact hne₁'.1 c hc heq
    · exact hne₁'.2.1 heq
    · exact hne₂' c hc heq
  have hnext : h .next b.addr = (bs₂.map Block.addr).headD head := by
    have hcircle := hh.arenaList
    rw [List.map_append, List.map_cons] at hcircle
    exact hcircle.next_eq
  refine ⟨hl, ?_, ?_, ?_, ?_, ?_, ?_⟩
  · have hcircle : Circle (h .next) (h .prev) head
        ((bs₁.map Block.addr ++ [b.addr]) ++ bs₂.map Block.addr) := by
      simpa using hh.arenaList
    have hins := hcircle.insert (x := b.addr + n) (by simpa [nodes] using hfresh)
    rw [List.getLastD_concat] at hins
    simpa [hnext] using hins
  · have hrep := hh.freeList.replace (y := b.addr + n) fun hc => hfresh (hh.mem_nodes_of_free hc)
    simpa using hrep
  · have hperm := hh.perm
    rw [freeAddrs_append, freeAddrs_cons_free hb] at hperm
    rw [freeAddrs_append, freeAddrs_cons_of_ne (by simp), freeAddrs_cons_free rfl]
    have hrest : (fs₁ ++ fs₂).Perm (freeAddrs bs₁ ++ freeAddrs bs₂) :=
      List.Perm.cons_inv (a := b.addr)
        (List.perm_middle.symm.trans (hperm.trans List.perm_middle))
    exact List.perm_middle.trans ((hrest.cons _).trans List.perm_middle.symm)
  · rw [Headers.split_type, Function.update_of_ne hhead, Function.update_of_ne hhead',
      hh.head_type]
  · have htype := hh.type
    simp only [List.forall_mem_append, List.forall_mem_cons, Headers.split_type] at htype ⊢
    refine ⟨fun c hc => ?_, ?_, ?_, fun c hc => ?_⟩
    · rw [Function.update_of_ne (hne₁ c hc), Function.update_of_ne (hne₁'.1 c hc)]
      exact htype.1 c hc
    · exact Function.update_self ..
    · rw [Function.update_of_ne hne₂.1]
      exact Function.update_self ..
    · rw [Function.update_of_ne (hne₂.2 c hc), Function.update_of_ne (hne₂' c hc)]
      exact htype.2.2 c hc
  · have hsize := hh.size
    simp only [List.forall_mem_append, List.forall_mem_cons, Headers.split_size] at hsize ⊢
    refine ⟨fun c hc => ?_, ?_, ?_, fun c hc => ?_⟩
    · rw [Function.update_of_ne (hne₁ c hc), Function.update_of_ne (hne₁'.1 c hc)]
      exact hsize.1 c hc
    · exact Function.update_self ..
    · rw [Function.update_of_ne hne₂.1, Function.update_self, hsize.2.1]
    · rw [Function.update_of_ne (hne₂.2 c hc), Function.update_of_ne (hne₂' c hc)]
      exact hsize.2.2 c hc

/-- {lit}`__malloc_from_block` takes the block as it is. -/
def Headers.take (h : Headers) (fp : ℕ) : Headers :=
  let fpp := h .prevFree fp
  let fpn := h .nextFree fp
  ((h.set .type fp typeUsed).set .nextFree fpp fpn).set .prevFree fpn fpp

/-- A whole block is used. -/
theorem Holds.take (hh : Holds h head (bs₁ ++ b :: bs₂) (fs₁ ++ b.addr :: fs₂))
    (hb : b.status = .free) :
    Holds (h.take b.addr) head (bs₁ ++ { b with status := .used } :: bs₂) (fs₁ ++ fs₂) := by
  obtain ⟨hhead, hne₁, hne₂⟩ := hh.layout.ne_middle
  refine ⟨hh.layout.restatus _, ?_, ?_, ?_, ?_, ?_, ?_⟩
  · simpa [Headers.take] using hh.arenaList
  · simpa [Headers.take] using hh.freeList.unlink
  · have hperm := hh.perm
    rw [freeAddrs_append, freeAddrs_cons_free hb] at hperm
    rw [freeAddrs_append, freeAddrs_cons_of_ne (by simp)]
    exact List.Perm.cons_inv (a := b.addr)
      (List.perm_middle.symm.trans (hperm.trans List.perm_middle))
  · simp [Headers.take, Function.update_of_ne hhead, hh.head_type]
  · have htype := hh.type
    simp only [List.forall_mem_append, List.forall_mem_cons] at htype ⊢
    refine ⟨fun c hc => ?_, ?_, fun c hc => ?_⟩
    · simpa [Headers.take, Function.update_of_ne (hne₁ c hc)] using htype.1 c hc
    · simp [Headers.take, Status.Recorded]
    · simpa [Headers.take, Function.update_of_ne (hne₂ c hc)] using htype.2.2 c hc
  · have hsize := hh.size
    simp only [List.forall_mem_append, List.forall_mem_cons] at hsize ⊢
    simpa [Headers.take] using hsize

/-! ## A block is freed -/

/-- The first half of {lit}`__free_block` merges the block at {lit}`ah` into the one before
it. -/
def Headers.mergeInto (h : Headers) (pah ah : ℕ) : Headers :=
  let nah := h .next ah
  ((h.set .size pah (h .size pah + h .size ah)).set .next pah nah).set .prev nah pah

/-- The first half of {lit}`__free_block` puts the block on the free list. -/
def Headers.putFree (h : Headers) (head ah : ℕ) : Headers :=
  let nf := h .nextFree head
  let h := (h.set .type ah typeFree).set .nextFree ah nf
  ((h.set .prevFree ah head).set .nextFree head ah).set .prevFree nf ah

/-- The second half of {lit}`__free_block`. -/
def Headers.absorb (h : Headers) (ah nah : ℕ) : Headers :=
  let fpp := h .prevFree nah
  let fpn := h .nextFree nah
  let ap := h .prev nah
  let an := h .next nah
  let h := h.set .size ah (h .size ah + h .size nah)
  (((h.set .nextFree fpp fpn).set .prevFree fpn fpp).set .next ap an).set .prev an ap

/-- A block that is not free goes to the front of the free list. -/
theorem Holds.putFree (hh : Holds h head (bs₁ ++ b :: bs₂) frees) (hb : b.status ≠ .free) :
    Holds (h.putFree head b.addr) head (bs₁ ++ { b with status := .free } :: bs₂)
      (b.addr :: frees) := by
  obtain ⟨hhead, hne₁, hne₂⟩ := hh.layout.ne_middle
  have hperm := hh.perm
  rw [freeAddrs_append, freeAddrs_cons_of_ne hb] at hperm
  have hfree : Circle (h .nextFree) (h .prevFree) head ([] ++ frees) := hh.freeList
  have hfresh : b.addr ∉ head :: ([] ++ frees) := by
    rw [List.nil_append, List.mem_cons, hperm.mem_iff, List.mem_append, mem_freeAddrs,
      mem_freeAddrs]
    rintro (hc | ⟨c, hc, -, heq⟩ | ⟨c, hc, -, heq⟩)
    · exact hhead hc.symm
    · exact hne₁ c hc heq
    · exact hne₂ c hc heq
  refine ⟨hh.layout.restatus _, ?_, ?_, ?_, ?_, ?_, ?_⟩
  · simpa [Headers.putFree] using hh.arenaList
  · have hins := hfree.insert hfresh
    rw [← hh.freeList.next_head] at hins
    simpa [Headers.putFree] using hins
  · rw [freeAddrs_append, freeAddrs_cons_free rfl]
    exact (hperm.cons _).trans List.perm_middle.symm
  · simp [Headers.putFree, Function.update_of_ne hhead, hh.head_type]
  · have htype := hh.type
    simp only [List.forall_mem_append, List.forall_mem_cons] at htype ⊢
    refine ⟨fun c hc => ?_, ?_, fun c hc => ?_⟩
    · simpa [Headers.putFree, Function.update_of_ne (hne₁ c hc)] using htype.1 c hc
    · simp [Headers.putFree, Status.Recorded]
    · simpa [Headers.putFree, Function.update_of_ne (hne₂ c hc)] using htype.2.2 c hc
  · have hsize := hh.size
    simp only [List.forall_mem_append, List.forall_mem_cons] at hsize ⊢
    simpa [Headers.putFree] using hsize

/-- A block that is not free is merged into the free block before it. -/
theorem Holds.mergeInto (hh : Holds h head (bs₁ ++ c :: b :: bs₂) frees) (hc : c.status = .free)
    (hb : b.status ≠ .free) (hcb : c.stop = b.addr) :
    Holds (h.mergeInto c.addr b.addr) head (bs₁ ++ ⟨c.addr, c.size + b.size, .free⟩ :: bs₂)
      frees := by
  obtain ⟨hhead, hne₁, hne₂⟩ := hh.layout.ne_middle
  simp only [List.forall_mem_cons] at hne₂
  have hcircle : Circle (h .next) (h .prev) head
      ((bs₁.map Block.addr ++ [c.addr]) ++ b.addr :: bs₂.map Block.addr) := by
    simpa using hh.arenaList
  have hprev : h .prev b.addr = c.addr := by
    rw [hcircle.prev_eq, List.getLastD_concat]
  refine ⟨hh.layout.join hcb, ?_, ?_, ?_, ?_, ?_, ?_⟩
  · have hunlink := hcircle.unlink
    rw [hprev] at hunlink
    simpa [Headers.mergeInto] using hunlink
  · simpa [Headers.mergeInto] using hh.freeList
  · have hperm := hh.perm
    rw [freeAddrs_append, freeAddrs_cons_free hc, freeAddrs_cons_of_ne hb] at hperm
    rwa [freeAddrs_append, freeAddrs_cons_free rfl]
  · simpa [Headers.mergeInto] using hh.head_type
  · have htype := hh.type
    simp only [List.forall_mem_append, List.forall_mem_cons, hc] at htype ⊢
    simpa [Headers.mergeInto] using ⟨htype.1, htype.2.1, htype.2.2.2⟩
  · have hsize := hh.size
    simp only [List.forall_mem_append, List.forall_mem_cons] at hsize ⊢
    refine ⟨fun x hx => ?_, ?_, fun x hx => ?_⟩
    · simpa [Headers.mergeInto, Function.update_of_ne (hne₁ x hx)] using hsize.1 x hx
    · simp [Headers.mergeInto, hsize.2.1, hsize.2.2.1]
    · simpa [Headers.mergeInto, Function.update_of_ne (hne₂.2 x hx)] using hsize.2.2.2 x hx

/-- A free block takes over the free block behind it. -/
theorem Holds.absorb (hh : Holds h head (bs₁ ++ b :: c :: bs₂) (fs₁ ++ c.addr :: fs₂))
    (hb : b.status = .free) (hc : c.status = .free) (hbc : b.stop = c.addr) :
    Holds (h.absorb b.addr c.addr) head (bs₁ ++ ⟨b.addr, b.size + c.size, .free⟩ :: bs₂)
      (fs₁ ++ fs₂) := by
  obtain ⟨hhead, hne₁, hne₂⟩ := hh.layout.ne_middle
  simp only [List.forall_mem_cons] at hne₂
  have hcircle : Circle (h .next) (h .prev) head
      ((bs₁.map Block.addr ++ [b.addr]) ++ c.addr :: bs₂.map Block.addr) := by
    simpa using hh.arenaList
  refine ⟨hh.layout.join hbc, ?_, ?_, ?_, ?_, ?_, ?_⟩
  · simpa [Headers.absorb] using hcircle.unlink
  · simpa [Headers.absorb] using hh.freeList.unlink
  · have hperm := hh.perm
    rw [freeAddrs_append, freeAddrs_cons_free hb, freeAddrs_cons_free hc] at hperm
    rw [freeAddrs_append, freeAddrs_cons_free rfl]
    rw [List.append_cons (freeAddrs bs₁)] at hperm ⊢
    exact List.Perm.cons_inv (a := c.addr)
      (List.perm_middle.symm.trans (hperm.trans List.perm_middle))
  · simpa [Headers.absorb] using hh.head_type
  · have htype := hh.type
    simp only [List.forall_mem_append, List.forall_mem_cons, hb] at htype ⊢
    simpa [Headers.absorb] using ⟨htype.1, htype.2.1, htype.2.2.2⟩
  · have hsize := hh.size
    simp only [List.forall_mem_append, List.forall_mem_cons] at hsize ⊢
    refine ⟨fun x hx => ?_, ?_, fun x hx => ?_⟩
    · simpa [Headers.absorb, Function.update_of_ne (hne₁ x hx)] using hsize.1 x hx
    · simp [Headers.absorb, hsize.2.1, hsize.2.2.1]
    · simpa [Headers.absorb, Function.update_of_ne (hne₂.2 x hx)] using hsize.2.2.2 x hx

/-! ## A block is added -/

/-- {lit}`add_malloc_block` links the block at {lit}`buf` behind {lit}`pah`. -/
def Headers.link (h : Headers) (pah buf : ℕ) : Headers :=
  let na := h .next pah
  (((h.set .next buf na).set .prev buf pah).set .next pah buf).set .prev na buf

/-- A new block enters the arena list. -/
theorem Holds.link {buf size : ℕ} (hh : Holds h head (bs₁ ++ bs₂) frees)
    (hl : Layout head (bs₁ ++ ⟨buf, size, .loose⟩ :: bs₂)) (hbuf : h .size buf = size) :
    Holds (h.link ((bs₁.map Block.addr).getLastD head) buf) head
      (bs₁ ++ ⟨buf, size, .loose⟩ :: bs₂) frees := by
  obtain ⟨hhead, hne₁, hne₂⟩ := hl.ne_middle
  have hcircle : Circle (h .next) (h .prev) head (bs₁.map Block.addr ++ bs₂.map Block.addr) := by
    simpa using hh.arenaList
  have hfresh : buf ∉ head :: (bs₁.map Block.addr ++ bs₂.map Block.addr) := by
    simp only [List.mem_cons, List.mem_append, List.mem_map]
    rintro (hc | ⟨c, hc, heq⟩ | ⟨c, hc, heq⟩)
    · exact hhead hc.symm
    · exact hne₁ c hc heq
    · exact hne₂ c hc heq
  refine ⟨hl, ?_, ?_, ?_, ?_, ?_, ?_⟩
  · have hins := hcircle.insert hfresh
    rw [← hcircle.seam.1] at hins
    simpa [Headers.link] using hins
  · simpa [Headers.link] using hh.freeList
  · have hperm := hh.perm
    rw [freeAddrs_append] at hperm
    rwa [freeAddrs_append, freeAddrs_cons_of_ne (by simp)]
  · simpa [Headers.link] using hh.head_type
  · have htype := hh.type
    simp only [List.forall_mem_append, List.forall_mem_cons] at htype ⊢
    refine ⟨fun x hx => ?_, trivial, fun x hx => ?_⟩
    · simpa [Headers.link] using htype.1 x hx
    · simpa [Headers.link] using htype.2 x hx
  · have hsize := hh.size
    simp only [List.forall_mem_append, List.forall_mem_cons] at hsize ⊢
    refine ⟨fun x hx => ?_, ?_, fun x hx => ?_⟩
    · simpa [Headers.link] using hsize.1 x hx
    · simpa [Headers.link] using hbuf
    · simpa [Headers.link] using hsize.2 x hx

/-! ## The edits of a memory -/

/-- The stores of {lit}`remove_from_free_chain`. -/
theorem removeFromFreeChain_agrees (hs : Spaced s) (ha : Agrees s m h) (hp : p ∈ s)
    (hprev : h .prevFree p ∈ s) (hnext : h .nextFree p ∈ s) :
    Agrees s (removeFromFreeChain m p)
      ((h.set .nextFree (h .prevFree p) (h .nextFree p)).set .prevFree (h .nextFree p)
        (h .prevFree p)) := by
  rw [removeFromFreeChain, ha _ p hp, ha _ p hp]
  exact (ha.set hs .nextFree hprev (hs.lt _ hnext)).set hs .prevFree hnext (hs.lt _ hprev)

/-- The stores of {lit}`remove_from_main_chain`. -/
theorem removeFromMainChain_agrees (hs : Spaced s) (ha : Agrees s m h) (hp : p ∈ s)
    (hprev : h .prev p ∈ s) (hnext : h .next p ∈ s) :
    Agrees s (removeFromMainChain m p)
      ((h.set .next (h .prev p) (h .next p)).set .prev (h .next p) (h .prev p)) := by
  rw [removeFromMainChain, ha _ p hp, ha _ p hp]
  exact (ha.set hs .next hprev (hs.lt _ hnext)).set hs .prev hnext (hs.lt _ hprev)

/-- The stores of {lit}`__malloc_from_block`, with what it reads before them. -/
def splitStores (m : ByteMemory) (fp nfp size rest na fpn fpp : ℕ) : ByteMemory :=
  let m := Arena.set (Arena.set m .type nfp typeFree) .size nfp rest
  let m := Arena.set (Arena.set m .type fp typeUsed) .size fp size
  let m := Arena.set (Arena.set m .prev nfp fp) .next nfp na
  let m := Arena.set (Arena.set m .prev na nfp) .next fp nfp
  let m := Arena.set (Arena.set m .nextFree nfp fpn) .prevFree nfp fpp
  Arena.set (Arena.set m .prevFree fpn nfp) .nextFree fpp nfp

/-- No store changes the links that are read after it. -/
theorem splitBlock_eq (hs : Spaced s) (ha : Agrees s m h) {size : ℕ} (hp : p ∈ s)
    (hq : p + size ∈ s) (hsize : size ≤ h .size p) (hlt : h .size p < 2 ^ 32)
    (hna : h .next p ∈ s) (hfpn : h .nextFree p ∈ s) :
    splitBlock m p size = splitStores m p (p + size) size (h .size p - size) (h .next p)
      (h .nextFree p) (h .prevFree p) := by
  have hmod : (p + size) % 2 ^ 32 = p + size := Nat.mod_eq_of_lt (hs.lt _ hq)
  have hrest : (h .size p + 2 ^ 32 - size) % 2 ^ 32 = h .size p - size := by omega
  have h2 := (ha.set hs .type hq (v := typeFree) (by decide)).set hs .size hq
    (v := h .size p - size) (by omega)
  have h4 := (h2.set hs .type hp (v := typeUsed) (by decide)).set hs .size hp (v := size) (by omega)
  have h6 := (h4.set hs .prev hq (hs.lt _ hp)).set hs .next hq (hs.lt _ hna)
  have h8 := (h6.set hs .prev hna (hs.lt _ hq)).set hs .next hp (hs.lt _ hq)
  have hfpn8 := (h8 .nextFree p hp).trans (show _ = h .nextFree p by simp)
  have h9 := h8.set hs .nextFree hq (hs.lt _ hfpn)
  have hfpp9 := (h9 .prevFree p hp).trans (show _ = h .prevFree p by simp)
  simp only [splitBlock, hmod, ha _ p hp, hrest, hfpn8, hfpp9, splitStores]

/-- The stores of a split. -/
theorem splitStores_agrees (hs : Spaced s) (ha : Agrees s m h) {size : ℕ} (hp : p ∈ s)
    (hq : q ∈ s) (hsize : size ≤ h .size p) (hlt : h .size p < 2 ^ 32)
    (hna : h .next p ∈ s) (hfpn : h .nextFree p ∈ s) (hfpp : h .prevFree p ∈ s) :
    Agrees s (splitStores m p q size (h .size p - size) (h .next p) (h .nextFree p)
      (h .prevFree p)) (h.split p q size) := by
  have h2 := (ha.set hs .type hq (v := typeFree) (by decide)).set hs .size hq
    (v := h .size p - size) (by omega)
  have h4 := (h2.set hs .type hp (v := typeUsed) (by decide)).set hs .size hp (v := size) (by omega)
  have h6 := (h4.set hs .prev hq (hs.lt _ hp)).set hs .next hq (hs.lt _ hna)
  have h8 := (h6.set hs .prev hna (hs.lt _ hq)).set hs .next hp (hs.lt _ hq)
  have h10 := (h8.set hs .nextFree hq (hs.lt _ hfpn)).set hs .prevFree hq (hs.lt _ hfpp)
  exact (h10.set hs .prevFree hfpn (hs.lt _ hq)).set hs .nextFree hfpp (hs.lt _ hq)

/-- The stores that put a block into use. -/
theorem take_agrees (hs : Spaced s) (ha : Agrees s m h) (hp : p ∈ s)
    (hfpn : h .nextFree p ∈ s) (hfpp : h .prevFree p ∈ s) :
    Agrees s (removeFromFreeChain (Arena.set m .type p typeUsed) p) (h.take p) := by
  have hset := ha.set hs .type hp (v := typeUsed) (by decide)
  have hrem := removeFromFreeChain_agrees hs hset hp (by simpa using hfpp) (by simpa using hfpn)
  simpa [Headers.take] using hrem

/-- The stores that take a block out of both chains. -/
theorem removeFromChains_agrees (hs : Spaced s) (ha : Agrees s m h) (hp : p ∈ s)
    (hprev : h .prev p ∈ s) (hnext : h .next p ∈ s) (hfpp : h .prevFree p ∈ s)
    (hfpn : h .nextFree p ∈ s) :
    Agrees s (removeFromChains m p)
      ((((h.set .nextFree (h .prevFree p) (h .nextFree p)).set .prevFree (h .nextFree p)
        (h .prevFree p)).set .next (h .prev p) (h .next p)).set .prev (h .next p) (h .prev p)) := by
  have hfree := removeFromFreeChain_agrees hs ha hp hfpp hfpn
  have hmain := removeFromMainChain_agrees hs hfree hp (by simpa using hprev) (by simpa using hnext)
  simpa [removeFromChains] using hmain

end Arena

end Sumeru
