import Sumeru.Library.ByteMemory
import Sumeru.Library.CircularList

/-!
# Sumeru - malloc.c

The memory allocator of the C library on a memory of bytes.  Every block starts with a
{lit}`struct arena_header`; a free block goes on with two more links.  The arena list and the
free list are circular and close at {lit}`__malloc_head`.  A call of {lit}`malloc_lock` is
represented by its result.  The loops over the lists have a bound on their rounds;
{lit}`none` says that it was reached.

Main results:

- Theorem {lit}`Arena.field_set`: on headers that do not overlap the six fields of
  {lit}`struct free_arena_header` are independent of each other.
- Theorem {lit}`Arena.roundSize_eq`: the block size that {lit}`malloc` computes.
-/

namespace Sumeru

namespace Arena

/-! ## Headers -/

/-- {lit}`ARENA_TYPE_USED`, {lit}`ARENA_TYPE_FREE` and {lit}`ARENA_TYPE_HEAD`. -/
def typeUsed : ℕ := 0

@[inherit_doc typeUsed] def typeFree : ℕ := 1

@[inherit_doc typeUsed] def typeHead : ℕ := 2

/-- {lit}`sizeof(struct arena_header)`. -/
def headerSize : ℕ := 16

/-- {lit}`sizeof(struct free_arena_header)`. -/
def freeHeaderSize : ℕ := 24

/-- {lit}`ARENA_SIZE_MASK`. -/
def sizeMask : BitVec 32 := ~~~(16#32 - 1#32)

/-- The fields of {lit}`struct free_arena_header`. -/
inductive Field where
  | type
  | size
  | next
  | prev
  | nextFree
  | prevFree
  deriving DecidableEq

/-- The place of a field in the header. -/
def Field.offset : Field → ℕ
  | .type => 0
  | .size => 4
  | .next => 8
  | .prev => 12
  | .nextFree => 16
  | .prevFree => 20

/-- A field of the header at an address. -/
def field (m : ByteMemory) (f : Field) (p : ℕ) : ℕ := m.word (p + f.offset)

/-- A field is stored. -/
def set (m : ByteMemory) (f : Field) (p v : ℕ) : ByteMemory := m.setWord (p + f.offset) v

/-- Headers at {lit}`p` and {lit}`q` are the same or do not overlap. -/
def Apart (p q : ℕ) : Prop := p = q ∨ p + freeHeaderSize ≤ q ∨ q + freeHeaderSize ≤ p

/-- Separate headers are separate in both orders. -/
theorem Apart.symm {p q : ℕ} (h : Apart p q) : Apart q p := by
  simp only [Apart] at h ⊢
  omega

/-- On headers that do not overlap a store changes one field of one header. -/
theorem field_set {m : ByteMemory} {p q v : ℕ} (f g : Field) (hv : v < 2 ^ 32) (h : Apart p q) :
    field (set m f p v) g q = if g = f ∧ q = p then v else field m g q := by
  simp only [Apart, freeHeaderSize] at h
  split_ifs with heq
  · rw [heq.1, heq.2]
    exact ByteMemory.word_setWord m _ hv
  · refine ByteMemory.word_setWord_of_disjoint ?_
    cases f <;> cases g <;> simp_all [Field.offset] <;> omega

/-- A field holds 32 bits. -/
theorem field_lt (m : ByteMemory) (f : Field) (p : ℕ) : field m f p < 2 ^ 32 :=
  ByteMemory.word_lt m _

/-- A store of a field changes no byte outside it. -/
theorem set_apply_of_outside {m : ByteMemory} {f : Field} {p v a : ℕ}
    (h : a < p + f.offset ∨ p + f.offset + 4 ≤ a) : set m f p v a = m a :=
  ByteMemory.setWord_apply_of_outside h

/-! ## The lists -/

/-- {lit}`remove_from_main_chain`; {lit}`mark_block_dead` does nothing. -/
def removeFromMainChain (m : ByteMemory) (ah : ℕ) : ByteMemory :=
  let ap := field m .prev ah
  let an := field m .next ah
  set (set m .next ap an) .prev an ap

/-- {lit}`remove_from_free_chain`. -/
def removeFromFreeChain (m : ByteMemory) (ah : ℕ) : ByteMemory :=
  let ap := field m .prevFree ah
  let an := field m .nextFree ah
  set (set m .nextFree ap an) .prevFree an ap

/-- {lit}`remove_from_chains`. -/
def removeFromChains (m : ByteMemory) (ah : ℕ) : ByteMemory :=
  removeFromMainChain (removeFromFreeChain m ah) ah

/-! ## Allocation -/

/-- {lit}`__malloc_from_block` with a remainder that becomes a block. -/
def splitBlock (m : ByteMemory) (fp size : ℕ) : ByteMemory :=
  let fsize := field m .size fp
  let nfp := (fp + size) % 2 ^ 32
  let na := field m .next fp
  let m := set m .type nfp typeFree
  let m := set m .size nfp ((fsize + 2 ^ 32 - size) % 2 ^ 32)
  let m := set m .type fp typeUsed
  let m := set m .size fp size
  -- insert into the all-block chain
  let m := set m .prev nfp fp
  let m := set m .next nfp na
  let m := set m .prev na nfp
  let m := set m .next fp nfp
  -- replace the current block on the free chain
  let fpn := field m .nextFree fp
  let m := set m .nextFree nfp fpn
  let fpp := field m .prevFree fp
  let m := set m .prevFree nfp fpp
  let m := set m .prevFree fpn nfp
  set m .nextFree fpp nfp

/-- {lit}`__malloc_from_block`. -/
def mallocFromBlock (m : ByteMemory) (fp size : ℕ) : ByteMemory × ℕ :=
  if (size + 2 * headerSize) % 2 ^ 32 ≤ field m .size fp then
    (splitBlock m fp size, (fp + headerSize) % 2 ^ 32)
  else
    (removeFromFreeChain (set m .type fp typeUsed) fp, (fp + headerSize) % 2 ^ 32)

/-- The header is added to a request, and the sum rounded up. -/
def roundSize (size : ℕ) : ℕ :=
  (BitVec.ofNat 32 (size + 2 * headerSize - 1) &&& sizeMask).toNat

/-- The mask clears four bits. -/
theorem and_sizeMask (x : BitVec 32) : x &&& sizeMask = x >>> 4 <<< 4 := by
  have hmask : ∀ i : Fin 32, sizeMask.getLsbD i = decide (4 ≤ i.val) := by decide
  refine BitVec.eq_of_getLsbD_eq fun i hi => ?_
  rw [BitVec.getLsbD_and, hmask ⟨i, hi⟩, BitVec.getLsbD_shiftLeft, BitVec.getLsbD_ushiftRight]
  by_cases hi4 : 4 ≤ i
  · simp [hi, hi4]
  · simp [hi4]

/-- The size of the block for a request: the request and a header, rounded up to 16. -/
theorem roundSize_eq (size : ℕ) :
    roundSize size = (size + 2 * headerSize - 1) % 2 ^ 32 / 16 * 16 := by
  have hshift : ∀ x : BitVec 32, (x >>> 4 <<< 4).toNat = x.toNat / 16 * 16 := fun x => by
    have hx := x.isLt
    rw [BitVec.toNat_shiftLeft, BitVec.toNat_ushiftRight, Nat.shiftLeft_eq,
      Nat.shiftRight_eq_div_pow]
    omega
  rw [roundSize, and_sizeMask, hshift, BitVec.toNat_ofNat]

/-- The loop of {lit}`malloc` over the free list: the first block of the size. -/
def findFit (m : ByteMemory) (size : ℕ) : ℕ → ℕ → Option (Option ℕ)
  | 0, _ => none
  | fuel + 1, fp =>
      if field m .type fp = typeHead then some none
      else if size ≤ field m .size fp then some (some fp)
      else findFit m size fuel (field m .nextFree fp)

/-- {lit}`malloc`: the memory and the pointer that is returned. -/
def malloc (fuel head : ℕ) (lock : Bool) (m : ByteMemory) (size : ℕ) :
    Option (ByteMemory × ℕ) :=
  if size = 0 then some (m, 0)
  else if lock then do
    match ← findFit m (roundSize size) fuel (field m .nextFree head) with
    | some fp => some (mallocFromBlock m fp (roundSize size))
    | none => some (m, 0)
  else some (m, 0)

/-! ## Release -/

/-- The first half of {lit}`__free_block`: the block is merged into a free block right before
it, or put on the free list. -/
def mergePrev (head : ℕ) (m : ByteMemory) (ah : ℕ) : ByteMemory × ℕ :=
  let pah := field m .prev ah
  let nah := field m .next ah
  if field m .type pah = typeFree ∧ (pah + field m .size pah) % 2 ^ 32 = ah then
    let m := set m .size pah ((field m .size pah + field m .size ah) % 2 ^ 32)
    let m := set m .next pah nah
    (set m .prev nah pah, pah)
  else
    let m := set m .type ah typeFree
    let m := set m .nextFree ah (field m .nextFree head)
    let m := set m .prevFree ah head
    let m := set m .nextFree head ah
    (set m .prevFree (field m .nextFree ah) ah, ah)

/-- The second half of {lit}`__free_block`: a free block right behind is merged in. -/
def mergeNext (m : ByteMemory) (ah nah : ℕ) : ByteMemory :=
  if field m .type nah = typeFree ∧ (ah + field m .size ah) % 2 ^ 32 = nah then
    removeFromChains (set m .size ah ((field m .size ah + field m .size nah) % 2 ^ 32)) nah
  else m

/-- {lit}`__free_block`; its callers do not use the block that it returns. -/
def freeBlock (head : ℕ) (m : ByteMemory) (ah : ℕ) : ByteMemory :=
  let nah := field m .next ah
  let r := mergePrev head m ah
  mergeNext r.1 r.2 nah

/-- {lit}`free`. -/
def free (head : ℕ) (lock : Bool) (m : ByteMemory) (ptr : ℕ) : ByteMemory :=
  if ptr = 0 then m
  else if lock then freeBlock head m (ptr - headerSize)
  else m

/-- The loop of {lit}`add_malloc_block` backwards over the arena list. -/
def findPlace (m : ByteMemory) (fp : ℕ) : ℕ → ℕ → Option ℕ
  | 0, _ => none
  | fuel + 1, pah =>
      if field m .type pah = typeHead then some pah
      else if pah < fp then some pah
      else findPlace m fp fuel (field m .prev pah)

/-- {lit}`add_malloc_block`. -/
def addMallocBlock (fuel head : ℕ) (lock : Bool) (m : ByteMemory) (buf size : ℕ) :
    Option ByteMemory :=
  if size < freeHeaderSize then some m
  else
    let m := set m .type buf typeFree
    let m := set m .size buf size
    if lock then do
      let pah ← findPlace m buf fuel (field m .prev head)
      let m := set m .next buf (field m .next pah)
      let m := set m .prev buf pah
      let m := set m .next pah buf
      let m := set m .prev (field m .next buf) buf
      some (freeBlock head m buf)
    else some m

/-! ## Status -/

/-- The loop of {lit}`get_malloc_memory_status`. -/
def statusLoop (m : ByteMemory) : ℕ → ℕ → ℕ × ℕ → Option (ℕ × ℕ)
  | 0, _, _ => none
  | fuel + 1, fp, (freeBytes, largestBlock) =>
      if field m .type fp = typeHead then some (freeBytes, largestBlock)
      else
        statusLoop m fuel (field m .nextFree fp)
          ((freeBytes + field m .size fp) % 2 ^ 32,
            if largestBlock ≤ field m .size fp then field m .size fp else largestBlock)

/-- {lit}`get_malloc_memory_status`: {lit}`free_bytes` and {lit}`largest_block`. -/
def getMallocMemoryStatus (fuel head : ℕ) (lock : Bool) (m : ByteMemory) : Option (ℕ × ℕ) :=
  if lock then statusLoop m fuel (field m .nextFree head) (0, 0) else some (0, 0)

end Arena

end Sumeru
