import Sumeru.Libc.Heap

/-!
# Sumeru - The heap over whole runs

The allocator together with the program that uses it.  The program gives it memory, allocates,
frees what it has allocated, and writes to its blocks and to memory that is not the
allocator's.  The results hold after every run of such steps.

Main results:

- Theorem {lit}`heap_safe`: allocations never overlap, are aligned and stay inside the memory that
  the allocator was given, and only their owner changes them.
- Theorem {lit}`heap_accounts`: nothing is lost; {lit}`malloc` fails exactly if no free block is
  large enough, and when all is freed the memory is in one piece again.
-/

namespace Sumeru

open Arena

/-! ## The program and its heap -/

/-- A range of bytes. -/
structure Region where
  start : ℕ
  size : ℕ
  deriving DecidableEq

def Region.Has (r : Region) (a : ℕ) : Prop := r.start ≤ a ∧ a < r.start + r.size

/-- The memory, what is allocated and with which size, and what the allocator was given. -/
structure HeapState where
  mem : ByteMemory
  live : List Region
  arenas : List Region

/-- A step of the program. -/
inductive HeapEvent where
  | add (buf size : ℕ) (lock : Bool)
  | malloc (size : ℕ) (lock : Bool)
  | free (ptr : ℕ) (lock : Bool)
  | write (a : ℕ) (v : BitVec 8)

namespace HeapState

variable (head : ℕ)

/-- The heap before the first call. -/
def init (m : ByteMemory) : HeapState where
  mem := m
  live := []
  arenas := []

/-- {lit}`__malloc_head` as it is initialised. -/
structure HeadReady (m : ByteMemory) : Prop where
  type : field m .type head = typeHead
  next : field m .next head = head
  prev : field m .prev head = head
  nextFree : field m .nextFree head = head
  prevFree : field m .prevFree head = head
  lt : head < 2 ^ 32

/-- Memory in which {lit}`__malloc_head` has its initial value. -/
def headMemory : ByteMemory :=
  let m := set (fun _ => 0#8) .type head typeHead
  set (set (set (set m .next head head) .prev head head) .nextFree head head) .prevFree head head

/-- The initial {lit}`__malloc_head` is ready. -/
theorem headReady_headMemory (hlt : head < 2 ^ 32) : HeadReady head (headMemory head) := by
  have hread : ∀ (m : ByteMemory) (f g : Field) (v : ℕ), v < 2 ^ 32 →
      field (set m f head v) g head = if g = f then v else field m g head := by
    intro m f g v hv
    rw [field_set f g hv (Or.inl rfl)]
    simp
  have htype : typeHead < 2 ^ 32 := by decide
  refine ⟨?_, ?_, ?_, ?_, ?_, hlt⟩ <;>
    simp only [headMemory, hread _ _ _ _ hlt, hread _ _ _ _ htype, reduceCtorEq, if_true, if_false]

/-- One step. -/
def step (s : HeapState) : HeapEvent → Option HeapState
  | .add buf size lock => do
      let m ← addMallocBlock loopBound head lock s.mem buf size
      some
        { s with
          mem := m
          arenas := if freeHeaderSize ≤ size ∧ lock then ⟨buf, size⟩ :: s.arenas else s.arenas }
  | .malloc size lock => do
      let (m, p) ← Arena.malloc loopBound head lock s.mem size
      some { s with mem := m, live := if p = 0 then s.live else ⟨p, size⟩ :: s.live }
  | .free ptr lock =>
      some
        { s with
          mem := Arena.free head lock s.mem ptr
          live := if lock then s.live.filter fun x => x.start ≠ ptr else s.live }
  | .write a v => some { s with mem := s.mem.setByte a v }

/-- What the program may do.  New memory is disjoint from the old and ends before the address
space does; a request with its header does not overflow; only allocated pointers are freed;
writes go to allocated blocks or outside the memory of the allocator. -/
def Legal (s : HeapState) : HeapEvent → Prop
  | .add buf size _ =>
      buf + size + 2 * headerSize < 2 ^ 32 ∧
        (buf + size ≤ head ∨ head + freeHeaderSize ≤ buf) ∧
        ∀ r ∈ s.arenas, r.start + r.size ≤ buf ∨ buf + size ≤ r.start
  | .malloc size _ => size + 2 * headerSize ≤ 2 ^ 32
  | .free ptr _ => ptr = 0 ∨ ∃ x ∈ s.live, x.start = ptr
  | .write a _ =>
      (∃ x ∈ s.live, x.Has a) ∨
        (a < head ∨ head + freeHeaderSize ≤ a) ∧ ∀ r ∈ s.arenas, ¬r.Has a

/-- The steps one after the other. -/
def run (s : HeapState) : List HeapEvent → Option HeapState
  | [] => some s
  | e :: es => do (← s.step head e).run es

/-- Every step is one that the program may do. -/
def LegalRun (s : HeapState) : List HeapEvent → Prop
  | [] => True
  | e :: es => s.Legal head e ∧ ∀ s', s.step head e = some s' → s'.LegalRun es

/-! ## The invariant -/

/-- The heap has these blocks: the used ones are the allocations, and together they are the
memory that the allocator was given. -/
structure Represents (s : HeapState) (blocks : List Block) : Prop where
  holds : ∃ frees, Holds (field s.mem) head blocks frees
  settled : Settled blocks
  coalesced : Coalesced blocks
  live : (s.live.map Region.start).Perm
    ((usedBlocks blocks).map fun b => b.addr + headerSize)
  sizes : ∀ x ∈ s.live, ∃ b ∈ usedBlocks blocks, b.addr + headerSize = x.start ∧
    x.size + headerSize ≤ roundSize x.size ∧ roundSize x.size ≤ b.size ∧
    b.size < roundSize x.size + 2 * headerSize
  covers : ∀ a, Covers blocks a ↔ ∃ r ∈ s.arenas, r.Has a
  total : totalSize blocks = (s.arenas.map Region.size).sum
  aligned : (∀ r ∈ s.arenas, headerSize ∣ r.start) → ∀ b ∈ blocks, headerSize ∣ b.addr

variable {head} {s s' : HeapState} {blocks bs₁ bs₂ : List Block} {b : Block} {n a : ℕ}
  {x y : Region}

/-- The allocator starts without blocks. -/
theorem represents_init {m : ByteMemory} (hm : HeadReady head m) :
    Represents head (init m) [] where
  holds := by
    refine ⟨[], ⟨.nil, by simp, by simp, by simp, hm.lt⟩, ?_, ?_, .nil, hm.type, by simp, by simp⟩
    · exact CircularList.circle_nil hm.next hm.prev
    · exact CircularList.circle_nil hm.nextFree hm.prevFree
  settled := by simp [Settled]
  coalesced := .nil
  live := .nil
  sizes := by simp [init]
  covers := by simp [Covers, init]
  total := rfl
  aligned := by simp

/-- The header of a live allocation. -/
theorem Represents.exists_block (h : Represents head s blocks) (hx : x ∈ s.live) :
    ∃ bs₁ b bs₂, blocks = bs₁ ++ b :: bs₂ ∧ b.status = .used ∧ b.addr + headerSize = x.start ∧
      x.size + headerSize ≤ b.size := by
  obtain ⟨b, hb, hstart, hround, hle, -⟩ := h.sizes x hx
  obtain ⟨hb, hused⟩ := mem_usedBlocks.mp hb
  obtain ⟨bs₁, bs₂, rfl⟩ := List.append_of_mem hb
  exact ⟨bs₁, b, bs₂, rfl, hused, hstart, hround.trans hle⟩

/-- The bytes of an allocation are kept. -/
theorem Represents.kept (h : Represents head s blocks) (hx : x ∈ s.live) (ha : x.Has a) :
    Kept head blocks a := by
  obtain ⟨bs₁, b, bs₂, rfl, hused, hstart, hsize⟩ := h.exists_block hx
  obtain ⟨frees, hh⟩ := h.holds
  have hmem : b ∈ bs₁ ++ b :: bs₂ := by simp
  have happ := hh.layout.head_apart b hmem
  simp only [Region.Has, Block.stop] at ha happ
  refine ⟨by omega, fun c hc hin => ?_⟩
  simp only [Block.Contains] at hin
  obtain rfl | hbc := hh.layout.disjoint hmem hc
  · exact ⟨hused, by omega⟩
  · simp only [Block.stop] at hbc hin
    omega

/-- The bytes of an allocation are in the memory that the allocator was given. -/
theorem Represents.mem_arena (h : Represents head s blocks) (hx : x ∈ s.live) (ha : x.Has a) :
    ∃ r ∈ s.arenas, r.Has a := by
  obtain ⟨bs₁, b, bs₂, rfl, -, hstart, hsize⟩ := h.exists_block hx
  refine (h.covers a).mp ⟨b, by simp, ?_⟩
  simp only [Region.Has, Block.Contains, Block.stop] at ha ⊢
  omega

/-- The bytes outside the memory of the allocator are kept. -/
theorem Represents.kept_of_outside (h : Represents head s blocks)
    (hhead : a < head ∨ head + freeHeaderSize ≤ a) (ha : ∀ r ∈ s.arenas, ¬r.Has a) :
    Kept head blocks a := by
  refine ⟨hhead, fun b hb hin => ?_⟩
  obtain ⟨r, hr, har⟩ := (h.covers a).mp ⟨b, hb, hin⟩
  exact absurd har (ha r hr)

/-- The program writes. -/
theorem Represents.write (h : Represents head s blocks) {v : BitVec 8} (ha : Kept head blocks a) :
    Represents head { s with mem := s.mem.setByte a v } blocks := by
  obtain ⟨frees, hh⟩ := h.holds
  refine ⟨⟨frees, hh.of_kept fun c hc => ?_⟩, h.settled, h.coalesced, h.live, h.sizes, h.covers,
    h.total, h.aligned⟩
  refine ByteMemory.setByte_of_ne ?_
  rintro rfl
  exact hc ha

/-- A block has room for the request and its header. -/
theorem le_roundSize {size : ℕ} (hsize : size + 2 * headerSize ≤ 2 ^ 32) :
    size + headerSize ≤ roundSize size ∧ headerSize ∣ roundSize size := by
  rw [roundSize_eq]
  simp only [headerSize] at hsize ⊢
  omega

/-- A free block is carved for a new allocation. -/
theorem Represents.allocate (h : Represents head s (bs₁ ++ b :: bs₂)) (hb : b.status = .free)
    {m : ByteMemory} {size : ℕ} (hm : ∃ frees, Holds (field m) head
      (bs₁ ++ (carve b (roundSize size) ++ bs₂)) frees)
    (hsize : size + 2 * headerSize ≤ 2 ^ 32) (hfit : roundSize size ≤ b.size) :
    Represents head { s with mem := m, live := ⟨b.addr + headerSize, size⟩ :: s.live }
      (bs₁ ++ (carve b (roundSize size) ++ bs₂)) := by
  obtain ⟨hn, hal⟩ := le_roundSize hsize
  have hused : usedBlocks (bs₁ ++ (carve b (roundSize size) ++ bs₂)) =
      usedBlocks bs₁ ++ carved b (roundSize size) :: usedBlocks bs₂ := by
    rw [usedBlocks_append, usedBlocks_append, usedBlocks_carve]
    rfl
  have hold : usedBlocks (bs₁ ++ b :: bs₂) = usedBlocks bs₁ ++ usedBlocks bs₂ := by
    rw [usedBlocks_append, usedBlocks_cons_of_ne (by simp [hb])]
  refine ⟨hm, settled_carve h.settled, coalesced_carve h.coalesced hb, ?_, ?_, fun a => ?_, ?_,
    fun hr => ?_⟩
  · have hlive := h.live
    rw [hold, List.map_append] at hlive
    rw [hused, List.map_append, List.map_cons, List.map_cons, carved_addr]
    exact (hlive.cons _).trans List.perm_middle.symm
  · intro x hx
    rw [hused]
    simp only [List.mem_append, List.mem_cons] at hx ⊢
    obtain rfl | hx := hx
    · exact ⟨carved b (roundSize size), Or.inr (Or.inl rfl), by rw [carved_addr], hn,
        carved_size hfit⟩
    · obtain ⟨c, hc, hstart, hsize⟩ := h.sizes x hx
      rw [hold, List.mem_append] at hc
      exact ⟨c, hc.imp_right Or.inr, hstart, hsize⟩
  · rw [← h.covers a]
    simp only [covers_append, covers_cons, covers_carve]
  · have htotal := h.total
    rw [totalSize_append, totalSize_cons] at htotal
    rw [totalSize_append, totalSize_append, totalSize_carve, htotal]
  · have haligned := h.aligned hr
    simp only [List.forall_mem_append, List.forall_mem_cons] at haligned ⊢
    exact ⟨haligned.1, dvd_addr_carve haligned.2.1 hal, haligned.2.2⟩

/-- The pointers of the allocations are different. -/
theorem Represents.nodup (h : Represents head s blocks) : (s.live.map Region.start).Nodup := by
  obtain ⟨frees, hh⟩ := h.holds
  rw [h.live.nodup_iff]
  have hnodup : ((usedBlocks blocks).map Block.addr).Nodup :=
    (List.nodup_cons.mp hh.layout.nodup).2.sublist (List.filter_sublist.map _)
  have hmap : ((usedBlocks blocks).map fun b => b.addr + headerSize) =
      ((usedBlocks blocks).map Block.addr).map (· + headerSize) := by
    rw [List.map_map]
    rfl
  rw [hmap]
  exact hnodup.map (add_left_injective headerSize)

/-- An allocation is released. -/
theorem Represents.deallocate (h : Represents head s (bs₁ ++ b :: bs₂)) (hb : b.status = .used)
    {m : ByteMemory} (hm : ∃ frees, Holds (field m) head (release bs₁ b bs₂) frees) :
    Represents head
      { s with mem := m, live := s.live.filter fun x => x.start ≠ b.addr + headerSize }
      (release bs₁ b bs₂) := by
  obtain ⟨hset₁, hset₂⟩ := List.forall_mem_append.mp h.settled
  have hold : usedBlocks (bs₁ ++ b :: bs₂) = usedBlocks bs₁ ++ b :: usedBlocks bs₂ := by
    rw [usedBlocks_append, usedBlocks_cons_used hb]
  obtain ⟨frees, hh⟩ := h.holds
  obtain ⟨-, hne₁, hne₂⟩ := hh.layout.ne_middle
  have hfilter : ∀ l : List Block, (∀ c ∈ l, c.addr ≠ b.addr) →
      ((usedBlocks l).map fun c => c.addr + headerSize).filter
        (fun p => p ≠ b.addr + headerSize) = (usedBlocks l).map fun c => c.addr + headerSize := by
    intro l hl
    refine List.filter_eq_self.mpr fun p hp => ?_
    obtain ⟨c, hc, rfl⟩ := List.mem_map.mp hp
    have hcb := hl c (mem_usedBlocks.mp hc).1
    simpa using hcb
  refine ⟨hm, settled_release hset₁ (List.forall_mem_cons.mp hset₂).2,
    coalesced_release h.coalesced, ?_, fun x hx => ?_, fun a => ?_, ?_, fun hr c hc => ?_⟩
  · have hlive := h.live.filter fun p => p ≠ b.addr + headerSize
    rw [hold, List.map_append, List.map_cons, List.filter_append,
      List.filter_cons_of_neg (by simp), hfilter bs₁ hne₁, hfilter bs₂ hne₂,
      List.filter_map] at hlive
    rw [usedBlocks_release, List.map_append]
    exact hlive
  · obtain ⟨hx, hne⟩ := List.mem_filter.mp hx
    obtain ⟨c, hc, hstart, hsize⟩ := h.sizes x hx
    rw [hold, List.mem_append, List.mem_cons] at hc
    refine ⟨c, ?_, hstart, hsize⟩
    rw [usedBlocks_release, List.mem_append]
    obtain hc | rfl | hc := hc
    · exact Or.inl hc
    · simp [hstart] at hne
    · exact Or.inr hc
  · rw [← h.covers a, covers_release]
  · rw [totalSize_release]
    exact h.total
  · obtain ⟨d, hd, heq⟩ := addr_release hc
    rw [← heq]
    exact h.aligned hr d hd

/-- The allocator is given memory. -/
theorem Represents.grow (h : Represents head s (bs₁ ++ bs₂)) {m : ByteMemory} {buf size : ℕ}
    (hm : ∃ frees, Holds (field m) head (release bs₁ ⟨buf, size, .loose⟩ bs₂) frees) :
    Represents head { s with mem := m, arenas := ⟨buf, size⟩ :: s.arenas }
      (release bs₁ ⟨buf, size, .loose⟩ bs₂) := by
  obtain ⟨hset₁, hset₂⟩ := List.forall_mem_append.mp h.settled
  have hused : usedBlocks (release bs₁ ⟨buf, size, .loose⟩ bs₂) = usedBlocks (bs₁ ++ bs₂) := by
    rw [usedBlocks_release, usedBlocks_append]
  refine ⟨hm, settled_release hset₁ hset₂, ?_, ?_, ?_, fun a => ?_, ?_, fun hr c hc => ?_⟩
  · exact coalesced_release (coalesced_insert h.coalesced (by simp))
  · rw [hused]
    exact h.live
  · rw [hused]
    exact h.sizes
  · rw [covers_release, covers_append, covers_cons]
    have hcovers := h.covers a
    rw [covers_append] at hcovers
    simp only [List.exists_mem_cons_iff, ← hcovers]
    simp only [Block.Contains, Block.stop, Region.Has]
    tauto
  · have htotal := h.total
    rw [totalSize_append] at htotal
    rw [totalSize_release, totalSize_append, totalSize_cons, List.map_cons, List.sum_cons,
      ← htotal]
    simp only
    omega
  · rw [List.forall_mem_cons] at hr
    obtain ⟨d, hd, heq⟩ := addr_release hc
    have haligned := h.aligned hr.2
    simp only [List.mem_append, List.mem_cons] at haligned hd
    rw [← heq]
    obtain hd | rfl | hd := hd
    · exact haligned d (Or.inl hd)
    · exact hr.1
    · exact haligned d (Or.inr hd)

/-! ## Steps -/

/-- The step does not free the allocation {lit}`x`. -/
def Spares (x : Region) : HeapEvent → Prop
  | .free ptr _ => ptr ≠ x.start
  | _ => True

/-- The step is not a write of the byte {lit}`a`. -/
def Leaves (a : ℕ) : HeapEvent → Prop
  | .write c _ => c ≠ a
  | _ => True

/-- The step does not give the byte {lit}`a` to the allocator. -/
def Withholds (a : ℕ) : HeapEvent → Prop
  | .add buf size _ => ¬Region.Has ⟨buf, size⟩ a
  | _ => True

/-- A step does what it is for: allocations that are not freed stay, and they and the memory
outside the allocator keep their bytes. -/
structure Sound (head : ℕ) (s : HeapState) (e : HeapEvent) (s' : HeapState) : Prop where
  live : ∀ x ∈ s.live, Spares x e → x ∈ s'.live
  keeps : ∀ x ∈ s.live, Spares x e → ∀ a, x.Has a → Leaves a e → s'.mem a = s.mem a
  outside : ∀ a, (a < head ∨ head + freeHeaderSize ≤ a) → (∀ r ∈ s.arenas, ¬r.Has a) →
    Leaves a e → Withholds a e → s'.mem a = s.mem a

/-- New memory has a place between the blocks. -/
theorem Represents.exists_place (h : Represents head s blocks) {buf size : ℕ} {lock : Bool}
    (hlarge : freeHeaderSize ≤ size) (he : s.Legal head (.add buf size lock)) :
    ∃ bs₁ bs₂, blocks = bs₁ ++ bs₂ ∧ Layout head (bs₁ ++ ⟨buf, size, .loose⟩ :: bs₂) := by
  obtain ⟨frees, hh⟩ := h.holds
  obtain ⟨hbound, happ, hdisj⟩ := he
  have hapart : ∀ c ∈ blocks, c.stop ≤ buf ∨ buf + size ≤ c.addr := by
    intro c hc
    have hlow := hh.layout.addr_lt hc
    have houtside : ∀ a, c.Contains a → ¬(buf ≤ a ∧ a < buf + size) := by
      rintro a ha hin
      obtain ⟨r, hr, har⟩ := (h.covers a).mp ⟨c, hc, ha⟩
      have hr' := hdisj r hr
      simp only [Region.Has] at har
      omega
    have hfirst := houtside c.addr
    have hbuf := houtside buf
    simp only [Block.Contains, freeHeaderSize] at hfirst hbuf hlow hlarge
    omega
  obtain ⟨bs₁, bs₂, rfl, h₁, h₂⟩ := hh.layout.exists_place buf
  refine ⟨bs₁, bs₂, rfl, hh.layout.insert hlarge hbound happ (fun c hc => ?_) fun c hc => ?_⟩
  · have hc' := hapart c (List.mem_append_left _ hc)
    have hlt := h₁ c hc
    simp only
    omega
  · have hc' := hapart c (List.mem_append_right _ hc)
    have hge := h₂ c hc
    have hlow := hh.layout.addr_lt (List.mem_append_right bs₁ hc)
    simp only [freeHeaderSize, Block.stop] at hc' hlow ⊢
    omega

/-- A call of {lit}`malloc`. -/
theorem Represents.step_malloc (h : Represents head s blocks) {size : ℕ} {lock : Bool}
    (he : s.Legal head (.malloc size lock)) :
    ∃ s' blocks', s.step head (.malloc size lock) = some s' ∧ Represents head s' blocks' ∧
      Sound head s (.malloc size lock) s' := by
  have hsame : Arena.malloc loopBound head lock s.mem size = some (s.mem, 0) →
      ∃ s' blocks', s.step head (.malloc size lock) = some s' ∧ Represents head s' blocks' ∧
        Sound head s (.malloc size lock) s' := by
    intro heq
    refine ⟨s, blocks, ?_, h, fun x hx _ => hx, fun _ _ _ _ _ _ => rfl, fun _ _ _ _ _ => rfl⟩
    simp [step, heq]
  by_cases hzero : size = 0
  · exact hsame (by simp [Arena.malloc, hzero])
  cases lock with
  | false => exact hsame (by simp [Arena.malloc, hzero])
  | true =>
      obtain ⟨frees, hh⟩ := h.holds
      obtain ⟨hnull, -⟩ | ⟨bs₁, b, bs₂, m, rfl, hfree, hfit, heq, hholds, hkeep⟩ :=
        malloc_spec hh (Nat.pos_of_ne_zero hzero) he
      · exact hsame hnull
      · refine ⟨_, _, ?_, h.allocate hfree hholds he hfit, fun x hx _ => ?_,
          fun x hx _ a ha _ => hkeep a (h.kept hx ha),
          fun a hhead ha _ _ => hkeep a (h.kept_of_outside hhead ha)⟩
        · simp [step, heq, headerSize]
        · exact List.mem_cons_of_mem _ hx

/-- Allocations have addresses. -/
theorem Represents.start_pos (h : Represents head s blocks) (hx : x ∈ s.live) :
    headerSize ≤ x.start := by
  obtain ⟨b, -, hstart, -⟩ := h.sizes x hx
  omega

/-- Two allocations are in different blocks. -/
theorem Represents.not_contains (h : Represents head s (bs₁ ++ b :: bs₂)) (hx : x ∈ s.live)
    (hne : b.addr + headerSize ≠ x.start) (ha : x.Has a) : ¬b.Contains a := by
  obtain ⟨c, hc, hstart, hround, hle, -⟩ := h.sizes x hx
  obtain ⟨frees, hh⟩ := h.holds
  intro hin
  have hmem := (mem_usedBlocks.mp hc).1
  simp only [Region.Has, Block.Contains] at ha hin
  obtain rfl | hbc := hh.layout.disjoint hmem (show b ∈ _ by simp)
  · exact hne hstart
  · simp only [Block.stop] at hbc hin
    omega

/-- A call of {lit}`free`. -/
theorem Represents.step_free (h : Represents head s blocks) {ptr : ℕ} {lock : Bool}
    (he : s.Legal head (.free ptr lock)) :
    ∃ s' blocks', s.step head (.free ptr lock) = some s' ∧ Represents head s' blocks' ∧
      Sound head s (.free ptr lock) s' := by
  have hsame : s.step head (.free ptr lock) = some s →
      ∃ s' blocks', s.step head (.free ptr lock) = some s' ∧ Represents head s' blocks' ∧
        Sound head s (.free ptr lock) s' := fun heq =>
    ⟨s, blocks, heq, h, fun x hx _ => hx, fun _ _ _ _ _ _ => rfl, fun _ _ _ _ _ => rfl⟩
  cases lock with
  | false => exact hsame (by simp [step, Arena.free])
  | true =>
      obtain rfl | ⟨x, hx, rfl⟩ := he
      · refine hsame ?_
        have hlive : s.live.filter (fun x => x.start ≠ 0) = s.live := by
          refine List.filter_eq_self.mpr fun x hx => ?_
          have hpos := h.start_pos hx
          simp only [headerSize] at hpos
          simpa using (show x.start ≠ 0 by omega)
        simp only [step, Arena.free, if_true, hlive]
      · obtain ⟨bs₁, b, bs₂, rfl, hused, hstart, -⟩ := h.exists_block hx
        obtain ⟨frees, hh⟩ := h.holds
        obtain ⟨hset₁, hset₂⟩ := List.forall_mem_append.mp h.settled
        obtain ⟨hholds, hkeep⟩ :=
          free_spec hh hused hset₁ (List.forall_mem_cons.mp hset₂).2
        rw [← hstart]
        refine ⟨_, _, rfl, h.deallocate hused hholds,
          fun y hy hne => List.mem_filter.mpr ⟨hy, by simpa using Ne.symm hne⟩,
          fun y hy hne a ha _ => hkeep a ((h.kept hy ha).loosen (h.not_contains hy hne ha)),
          fun a hhead ha _ _ => hkeep a ((h.kept_of_outside hhead ha).loosen fun hin => ?_)⟩
        obtain ⟨r, hr, har⟩ := (h.covers a).mp ⟨b, by simp, hin⟩
        exact ha r hr har

/-- A call of {lit}`add_malloc_block`. -/
theorem Represents.step_add (h : Represents head s blocks) {buf size : ℕ} {lock : Bool}
    (he : s.Legal head (.add buf size lock)) :
    ∃ s' blocks', s.step head (.add buf size lock) = some s' ∧ Represents head s' blocks' ∧
      Sound head s (.add buf size lock) s' := by
  by_cases hsmall : size < freeHeaderSize
  · refine ⟨s, blocks, ?_, h, fun x hx _ => hx, fun _ _ _ _ _ _ => rfl, fun _ _ _ _ _ => rfl⟩
    simp [step, addMallocBlock, hsmall, Nat.not_le.mpr hsmall]
  have hlarge := Nat.not_lt.mp hsmall
  obtain ⟨bs₁, bs₂, rfl, hl⟩ := h.exists_place hlarge he
  obtain ⟨frees, hh⟩ := h.holds
  have hlive : ∀ x ∈ s.live, ∀ a, x.Has a → ¬Region.Has ⟨buf, size⟩ a := fun x hx a ha hin => by
    obtain ⟨r, hr, har⟩ := h.mem_arena hx ha
    have hdisj := he.2.2 r hr
    simp only [Region.Has] at hin har
    omega
  have hnew : ∀ a, Kept head (bs₁ ++ bs₂) a → ¬Region.Has ⟨buf, size⟩ a →
      Kept head (bs₁ ++ ⟨buf, size, .loose⟩ :: bs₂) a := by
    rintro a ⟨hhead, hblocks⟩ hout
    refine ⟨hhead, ?_⟩
    simp only [List.forall_mem_append, List.forall_mem_cons] at hblocks ⊢
    exact ⟨hblocks.1, fun hin => absurd hin hout, hblocks.2⟩
  cases lock with
  | false =>
      have hout : ∀ a, ¬Region.Has ⟨buf, size⟩ a →
          set (set s.mem .type buf typeFree) .size buf size a = s.mem a := by
        intro a ha
        simp only [Region.Has, freeHeaderSize] at ha hlarge
        rw [set_apply_of_outside (by simp only [Field.offset]; omega),
          set_apply_of_outside (by simp only [Field.offset]; omega)]
      refine ⟨{ s with mem := set (set s.mem .type buf typeFree) .size buf size }, bs₁ ++ bs₂, ?_,
        ⟨⟨frees, (newHeader_holds hh hl).1⟩, h.settled, h.coalesced, h.live, h.sizes, h.covers,
          h.total, h.aligned⟩,
        fun x hx _ => hx, fun x hx _ a ha _ => hout a (hlive x hx a ha),
        fun a _ _ _ hgive => hout a hgive⟩
      simp [step, addMallocBlock, hsmall]
  | true =>
      obtain ⟨m, heq, hholds, hkeep⟩ := addMallocBlock_spec hh h.settled hl
      refine ⟨_, _, ?_, h.grow hholds, fun x hx _ => hx,
        fun x hx _ a ha _ => hkeep a (hnew a (h.kept hx ha) (hlive x hx a ha)),
        fun a hhead ha _ hgive => hkeep a (hnew a (h.kept_of_outside hhead ha) hgive)⟩
      simp [step, heq, hlarge]

/-- A write of the program. -/
theorem Represents.step_write (h : Represents head s blocks) {v : BitVec 8}
    (he : s.Legal head (.write a v)) :
    ∃ s' blocks', s.step head (.write a v) = some s' ∧ Represents head s' blocks' ∧
      Sound head s (.write a v) s' := by
  have hkept : Kept head blocks a := by
    obtain ⟨x, hx, ha⟩ | ⟨hhead, ha⟩ := he
    · exact h.kept hx ha
    · exact h.kept_of_outside hhead ha
  exact ⟨_, _, rfl, h.write hkept, fun x hx _ => hx,
    fun x _ _ b _ hb => ByteMemory.setByte_of_ne (Ne.symm hb),
    fun b _ _ hb _ => ByteMemory.setByte_of_ne (Ne.symm hb)⟩

/-- No step gets stuck, and each keeps the invariant. -/
theorem Represents.step (h : Represents head s blocks) {e : HeapEvent} (he : s.Legal head e) :
    ∃ s' blocks', s.step head e = some s' ∧ Represents head s' blocks' ∧ Sound head s e s' := by
  cases e with
  | add buf size lock => exact h.step_add he
  | malloc size lock => exact h.step_malloc he
  | free ptr lock => exact h.step_free he
  | write a v => exact h.step_write he

/-- Neither does a run. -/
theorem Represents.run {es : List HeapEvent} (h : Represents head s blocks)
    (hes : s.LegalRun head es) :
    ∃ s' blocks', s.run head es = some s' ∧ Represents head s' blocks' ∧
      ∀ x ∈ s.live, (∀ e ∈ es, Spares x e) → x ∈ s'.live ∧
        ∀ a, x.Has a → (∀ e ∈ es, Leaves a e) → s'.mem a = s.mem a := by
  induction es generalizing s blocks with
  | nil => exact ⟨s, blocks, rfl, h, fun x hx _ => ⟨hx, fun _ _ _ => rfl⟩⟩
  | cons e es ih =>
      obtain ⟨s₁, blocks₁, hstep, h₁, hsound⟩ := h.step hes.1
      obtain ⟨s', blocks', hrun, h', hkeep⟩ := ih h₁ (hes.2 s₁ hstep)
      refine ⟨s', blocks', by simp [HeapState.run, hstep, hrun], h', fun x hx hspare => ?_⟩
      rw [List.forall_mem_cons] at hspare
      obtain ⟨hlive, hbytes⟩ := hkeep x (hsound.live x hx hspare.1) hspare.2
      refine ⟨hlive, fun a ha hleave => ?_⟩
      rw [List.forall_mem_cons] at hleave
      rw [hbytes a ha hleave.2, hsound.keeps x hx hspare.1 a ha hleave.1]

/-- Two allocations and their headers are disjoint. -/
theorem Represents.disjoint (h : Represents head s blocks) (hx : x ∈ s.live) (hy : y ∈ s.live)
    (hne : x.start ≠ y.start) :
    x.start + x.size + headerSize ≤ y.start ∨ y.start + y.size + headerSize ≤ x.start := by
  obtain ⟨frees, hh⟩ := h.holds
  obtain ⟨bs₁, b, bs₂, rfl, -, hb, hbsize⟩ := h.exists_block hx
  obtain ⟨c, hc, hcy, hround, hle, -⟩ := h.sizes y hy
  have hmem := (mem_usedBlocks.mp hc).1
  obtain rfl | hbc := hh.layout.disjoint (show b ∈ _ by simp) hmem
  · exact absurd (hb.symm.trans hcy) hne
  · simp only [Block.stop] at hbc
    omega

/-- A legal run can be cut in two. -/
theorem LegalRun.append {es₁ es₂ : List HeapEvent} (h : s.LegalRun head (es₁ ++ es₂)) :
    s.LegalRun head es₁ ∧ ∀ s', s.run head es₁ = some s' → s'.LegalRun head es₂ := by
  induction es₁ generalizing s with
  | nil =>
      refine ⟨trivial, fun s' hs' => ?_⟩
      obtain rfl := Option.some.inj hs'
      exact h
  | cons e es ih =>
      refine ⟨⟨h.1, fun s₁ h₁ => (ih (h.2 s₁ h₁)).1⟩, fun s' hs' => ?_⟩
      obtain ⟨s₁, h₁, hs'⟩ := Option.bind_eq_some_iff.mp hs'
      exact (ih (h.2 s₁ h₁)).2 s' hs'

/-- Allocations and their headers are in the memory that the allocator was given. -/
theorem Represents.header_mem_arena (h : Represents head s blocks) (hx : x ∈ s.live)
    (hlow : x.start ≤ a + headerSize) (hhigh : a < x.start + x.size) : ∃ r ∈ s.arenas, r.Has a := by
  obtain ⟨bs₁, b, bs₂, rfl, -, hstart, hsize⟩ := h.exists_block hx
  refine (h.covers a).mp ⟨b, by simp, ?_⟩
  simp only [Block.Contains, Block.stop]
  omega

end HeapState

open HeapState

/-- The allocator is safe.  Whatever the program does within its rules, from the first call
on: no call gets stuck; the allocations are disjoint, also from the headers of each other; they
are in the memory that the allocator was given, aligned like it; and an allocation keeps every
byte that the program does not write, until it is freed. -/
theorem heap_safe (head : ℕ) (m : ByteMemory) (hm : HeadReady head m) (es₁ es₂ : List HeapEvent)
    (hes : (init m).LegalRun head (es₁ ++ es₂)) :
    ∃ s s', (init m).run head es₁ = some s ∧ s.run head es₂ = some s' ∧
      (s.live.Pairwise fun x y =>
        x.start + x.size + headerSize ≤ y.start ∨ y.start + y.size + headerSize ≤ x.start) ∧
      (∀ x ∈ s.live, ∀ a, x.start ≤ a + headerSize → a < x.start + x.size →
        ∃ r ∈ s.arenas, r.Has a) ∧
      ((∀ r ∈ s.arenas, headerSize ∣ r.start) → ∀ x ∈ s.live, headerSize ∣ x.start) ∧
      ∀ x ∈ s.live, (∀ e ∈ es₂, Spares x e) → x ∈ s'.live ∧
        ∀ a, x.Has a → (∀ e ∈ es₂, Leaves a e) → s'.mem a = s.mem a := by
  obtain ⟨hes₁, hes₂⟩ := LegalRun.append hes
  obtain ⟨s, blocks, hrun, h, -⟩ := (represents_init hm).run hes₁
  obtain ⟨s', -, hrun', -, hkeep⟩ := h.run (hes₂ s hrun)
  refine ⟨s, s', hrun, hrun', ?_, fun x hx a => h.header_mem_arena hx, fun hr x hx => ?_, hkeep⟩
  · exact (List.pairwise_map.mp h.nodup).imp_of_mem fun hx hy hne => h.disjoint hx hy hne
  · obtain ⟨bs₁, b, bs₂, rfl, -, hstart, -⟩ := h.exists_block hx
    rw [← hstart]
    exact Nat.dvd_add (h.aligned hr b (by simp)) (Nat.dvd_refl _)

/-- The heap that the start-up code makes, and two allocations. -/
theorem heap_safe_two : ∃ s s',
    (init (headMemory 0x20000)).run 0x20000
      [.add 0x400000 0x1a00000 true, .malloc 100 true] = some s ∧
    s.run 0x20000 [.malloc 50 true] = some s' ∧
    ∀ x ∈ s.live, x ∈ s'.live ∧ ∀ a, x.Has a → s'.mem a = s.mem a := by
  have hlegal : (init (headMemory 0x20000)).LegalRun 0x20000
      ([.add 0x400000 0x1a00000 true, .malloc 100 true] ++ [.malloc 50 true]) :=
    ⟨⟨by decide, Or.inr (by decide), by simp [init]⟩, fun _ _ =>
      ⟨show 100 + 2 * headerSize ≤ 2 ^ 32 by decide, fun _ _ =>
        ⟨show 50 + 2 * headerSize ≤ 2 ^ 32 by decide, fun _ _ => trivial⟩⟩⟩
  obtain ⟨s, s', hrun, hrun', -, -, -, hkeep⟩ := heap_safe 0x20000 (headMemory 0x20000)
    (headReady_headMemory _ (by decide)) _ _ hlegal
  refine ⟨s, s', hrun, hrun', fun x hx => ?_⟩
  obtain ⟨hlive, hbytes⟩ := hkeep x hx (by simp [Spares])
  exact ⟨hlive, fun a ha => hbytes a ha (by simp [Leaves])⟩

/-! ## Accounts -/

namespace HeapState

variable {head : ℕ} {s : HeapState} {blocks : List Block} {b c : Block} {x : Region}

/-- The size of the block of an allocation, as its header has it. -/
def blockSize (s : HeapState) (x : Region) : ℕ := field s.mem .size (x.start - headerSize)

/-- The size that {lit}`realloc` reads is that of the block. -/
theorem Represents.blockSize_eq (h : Represents head s blocks) (hb : b ∈ blocks)
    (hx : b.addr + headerSize = x.start) : s.blockSize x = b.size := by
  obtain ⟨frees, hh⟩ := h.holds
  rw [blockSize, ← hx, Nat.add_sub_cancel]
  exact hh.size b hb

/-- The sizes of the used blocks by their allocations. -/
theorem Represents.sum_blockSize (h : Represents head s blocks) :
    (s.live.map s.blockSize).sum = totalSize (usedBlocks blocks) := by
  have hlive := (h.live.map fun p => field s.mem .size (p - headerSize)).sum_nat
  rw [List.map_map, List.map_map] at hlive
  refine hlive.trans (congrArg List.sum (List.map_congr_left fun b hb => ?_))
  obtain ⟨frees, hh⟩ := h.holds
  simp only [Function.comp_apply, Nat.add_sub_cancel]
  exact hh.size b (mem_usedBlocks.mp hb).1

/-- The largest of some numbers. -/
theorem foldl_max_lt {l : List ℕ} {k n : ℕ} :
    l.foldl max k < n ↔ k < n ∧ ∀ x ∈ l, x < n := by
  induction l generalizing k with
  | nil => simp
  | cons a l ih =>
      rw [List.foldl_cons, ih, List.forall_mem_cons, max_lt_iff, and_assoc]

/-- Two free blocks never touch. -/
theorem Represents.not_touch (h : Represents head s blocks) (hb : b ∈ blocks) (hc : c ∈ blocks)
    (hbfree : b.status = .free) (hcfree : c.status = .free) : b.stop ≠ c.addr := by
  obtain ⟨frees, hh⟩ := h.holds
  obtain ⟨l₁, l₂, rfl⟩ := List.append_of_mem hb
  have hblow := hh.layout.addr_lt hb
  have hclow := hh.layout.addr_lt hc
  have hsort := hh.layout.sorted
  have hparted := h.coalesced
  rw [Coalesced, List.isChain_append, List.isChain_cons] at hparted
  rw [List.pairwise_append, List.pairwise_cons] at hsort
  simp only [freeHeaderSize] at hblow hclow
  intro htouch
  obtain hc | rfl | hc : c ∈ l₁ ∨ c = b ∨ c ∈ l₂ := by simpa using hc
  · have hcb := hsort.2.2 c hc b (by simp)
    omega
  · omega
  · cases l₂ with
    | nil => simp at hc
    | cons d l₃ =>
        have hnext : Parted b d := hparted.2.1.1 d rfl
        have hbd := hsort.2.1.1 d (by simp)
        have hdlow := hh.layout.addr_lt (show d ∈ _ by simp)
        obtain rfl | hc := List.mem_cons.mp hc
        · exact hnext ⟨hbfree, hcfree, htouch⟩
        · have hdc := (List.pairwise_cons.mp hsort.2.1.2).1 c hc
          simp only [freeHeaderSize] at hdlow
          omega

/-- A block that a walk from {lit}`__malloc_head` over the free list finds. -/
structure FreeBlock (head : ℕ) (m : ByteMemory) (p : ℕ) : Prop where
  listed : ∃ k, (field m .nextFree)^[k] head = p
  type : field m .type p = typeFree

/-- The free blocks are those that the free list links. -/
theorem Represents.freeBlock (h : Represents head s blocks) (hb : b ∈ blocks)
    (hfree : b.status = .free) : FreeBlock head s.mem b.addr where
  listed := by
    obtain ⟨frees, hh⟩ := h.holds
    have hmem : b.addr ∈ frees := hh.perm.symm.subset (mem_freeAddrs.mpr ⟨b, hb, hfree, rfl⟩)
    obtain ⟨fs₁, fs₂, rfl⟩ := List.append_of_mem hmem
    exact ⟨fs₁.length + 1, hh.freeList.iterate_next⟩
  type := by
    obtain ⟨frees, hh⟩ := h.holds
    have htype := hh.type b hb
    rwa [hfree] at htype

/-- When nothing is allocated, all blocks are free. -/
theorem Represents.all_free (h : Represents head s blocks) (hlive : s.live = []) :
    ∀ b ∈ blocks, b.status = .free := by
  intro b hb
  have hused : usedBlocks blocks = [] := by
    have hperm := h.live
    rw [hlive, List.map_nil, List.nil_perm, List.map_eq_nil_iff] at hperm
    exact hperm
  cases hst : b.status with
  | used =>
      have hmem := mem_usedBlocks.mpr ⟨hb, hst⟩
      rw [hused] at hmem
      exact absurd hmem (by simp)
  | free => rfl
  | loose => exact absurd hst (h.settled b hb)

/-- When nothing is allocated, every arena is in one free block. -/
theorem Represents.arena_in_block (h : Represents head s blocks) (hlive : s.live = []) {r : Region}
    (hr : r ∈ s.arenas) (hpos : 0 < r.size) :
    ∃ b ∈ blocks, b.status = .free ∧ b.addr ≤ r.start ∧ r.start + r.size ≤ b.stop := by
  obtain ⟨frees, hh⟩ := h.holds
  have hfree := h.all_free hlive
  obtain ⟨b, hb, hstart⟩ := (h.covers r.start).mpr ⟨r, hr, le_rfl, by omega⟩
  refine ⟨b, hb, hfree b hb, hstart.1, ?_⟩
  by_contra hlt
  simp only [Block.Contains, Block.stop] at hstart
  -- the byte behind the block is in the arena, so another block starts there
  obtain ⟨c, hc, hstop⟩ := (h.covers b.stop).mpr ⟨r, hr, by
    simp only [Region.Has, Block.stop] at hlt ⊢
    omega⟩
  have htouch := h.not_touch hb hc (hfree b hb) (hfree c hc)
  simp only [Block.Contains] at hstop
  obtain rfl | hbc := hh.layout.disjoint hb hc
  · omega
  · simp only [Block.stop] at hbc hstop htouch
    omega

end HeapState

/-- The accounts of the allocator after every run.  What {lit}`get_malloc_memory_status` reports as
free and the blocks of the allocations make up the memory that the allocator was given; an
allocation costs less than 32 bytes more than the rounded request; {lit}`malloc` returns NULL
exactly if the largest free block is too small; and when all is freed, in whatever order, every
arena lies in one block of the free list. -/
theorem heap_accounts (head : ℕ) (m : ByteMemory) (hm : HeadReady head m) (es : List HeapEvent)
    (hes : (init m).LegalRun head es) :
    ∃ s freeBytes largest, (init m).run head es = some s ∧
      getMallocMemoryStatus loopBound head true s.mem = some (freeBytes, largest) ∧
      freeBytes + (s.live.map s.blockSize).sum = (s.arenas.map Region.size).sum ∧
      (∀ x ∈ s.live, roundSize x.size ≤ s.blockSize x ∧
        s.blockSize x < roundSize x.size + 2 * headerSize) ∧
      (∀ size, 0 < size → size + 2 * headerSize ≤ 2 ^ 32 →
        ((∃ m', Arena.malloc loopBound head true s.mem size = some (m', 0)) ↔
          largest < roundSize size)) ∧
      (s.live = [] → ∀ r ∈ s.arenas, 0 < r.size → r.size ≤ largest ∧
        ∃ p, FreeBlock head s.mem p ∧ p ≤ r.start ∧
          r.start + r.size ≤ p + field s.mem .size p) := by
  obtain ⟨s, blocks, hrun, h, -⟩ := (represents_init hm).run hes
  obtain ⟨frees, hh⟩ := h.holds
  have hsmall : ∀ n, 0 < n → ((freeSizes blocks).foldl max 0 < n ↔
      ∀ b ∈ blocks, b.status = .free → b.size < n) := by
    intro n hn
    rw [foldl_max_lt]
    simp only [hn, true_and, freeSizes, List.forall_mem_map, List.mem_filter, decide_eq_true_eq,
      and_imp]
  refine ⟨s, _, _, hrun, getMallocMemoryStatus_spec hh h.settled, ?_, fun x hx => ?_,
    fun size hpos hlt => ?_, fun hlive r hr hsize => ?_⟩
  · rw [h.sum_blockSize, freeSizes_sum h.settled, h.total]
  · obtain ⟨b, hb, hstart, -, hle, hlt⟩ := h.sizes x hx
    rw [h.blockSize_eq (mem_usedBlocks.mp hb).1 hstart]
    exact ⟨hle, hlt⟩
  · have hround := (le_roundSize hlt).1
    rw [hsmall _ (by omega)]
    obtain ⟨hnull, hnone⟩ | ⟨bs₁, b, bs₂, m', rfl, hfree, hfit, heq, -⟩ := malloc_spec hh hpos hlt
    · exact ⟨fun _ => hnone, fun _ => ⟨_, hnull⟩⟩
    · refine ⟨fun hfail => ?_, fun hnone => ?_⟩
      · obtain ⟨m'', hm''⟩ := hfail
        rw [heq] at hm''
        simp [headerSize] at hm''
      · have hlt' := hnone b (by simp) hfree
        omega
  · obtain ⟨b, hb, hfree, hstart, hstop⟩ := h.arena_in_block hlive hr hsize
    refine ⟨?_, b.addr, h.freeBlock hb hfree, hstart, by rwa [hh.size b hb]⟩
    by_contra hlt
    have hlt' := (hsmall r.size hsize).mp (by omega) b hb hfree
    simp only [Block.stop] at hstop
    omega

/-- The heap that the start-up code makes has all its memory in one block. -/
theorem heap_accounts_start : ∃ s freeBytes largest p,
    (init (headMemory 0x20000)).run 0x20000 [.add 0x400000 0x1a00000 true] = some s ∧
    getMallocMemoryStatus loopBound 0x20000 true s.mem = some (freeBytes, largest) ∧
    freeBytes = 0x1a00000 ∧ 0x1a00000 ≤ largest ∧ FreeBlock 0x20000 s.mem p ∧ p ≤ 0x400000 ∧
    0x1e00000 ≤ p + field s.mem .size p := by
  have hlegal : (init (headMemory 0x20000)).LegalRun 0x20000 [.add 0x400000 0x1a00000 true] :=
    ⟨⟨by decide, Or.inr (by decide), by simp [init]⟩, fun _ _ => trivial⟩
  obtain ⟨s, freeBytes, largest, hrun, hstatus, hsum, -, -, hall⟩ := heap_accounts 0x20000
    (headMemory 0x20000) (headReady_headMemory _ (by decide)) _ hlegal
  have hs : s.live = [] ∧ s.arenas = [⟨0x400000, 0x1a00000⟩] := by
    simp only [run, step, Option.bind_eq_bind, Option.bind_eq_some_iff, Option.some.injEq] at hrun
    obtain ⟨s₁, ⟨m, -, rfl⟩, rfl⟩ := hrun
    exact ⟨rfl, rfl⟩
  rw [hs.1, hs.2] at hsum
  obtain ⟨hle, p, hp⟩ := hall hs.1 ⟨0x400000, 0x1a00000⟩
    (by rw [hs.2]; exact List.mem_singleton_self _) (by decide)
  exact ⟨s, freeBytes, largest, p, hrun, hstatus, by simpa using hsum, hle, hp⟩

end Sumeru
