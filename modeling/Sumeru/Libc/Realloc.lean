import Sumeru.Libc.HeapRuns

/-!
# Sumeru - realloc.c and calloc.c

The functions that are built on {lit}`malloc` and {lit}`free`.  Neither checks for what can go
wrong: {lit}`realloc` copies and frees also when {lit}`malloc` has returned NULL, and
{lit}`calloc` does not look at the carry of its multiplication.

Main results:

- Theorem {lit}`realloc_outcome`: what {lit}`realloc` does on every heap that a program can reach.
- Theorem {lit}`calloc_room_iff`: {lit}`calloc` returns room for all elements exactly if the product
  does not overflow.
-/

namespace Sumeru

open Arena

/-! ## memcpy.c and memset.c -/

/-- The loop of {lit}`memcpy`. -/
def memcpy (m : ByteMemory) (dst src : ℕ) : ℕ → ByteMemory
  | 0 => m
  | n + 1 => memcpy (m.setByte dst (m src)) (dst + 1) (src + 1) n

/-- The loop of {lit}`memset`. -/
def memset (m : ByteMemory) (dst : ℕ) (c : BitVec 8) : ℕ → ByteMemory
  | 0 => m
  | n + 1 => memset (m.setByte dst c) (dst + 1) c n

/-- {lit}`memcpy` writes to its destination only. -/
theorem memcpy_of_outside {m : ByteMemory} {dst src n a : ℕ} (ha : a < dst ∨ dst + n ≤ a) :
    memcpy m dst src n a = m a := by
  induction n generalizing m dst src with
  | zero => rfl
  | succ n ih =>
      rw [memcpy, ih (by omega), ByteMemory.setByte_of_ne (by omega)]

/-- Between ranges that do not overlap {lit}`memcpy` copies. -/
theorem memcpy_copies {m : ByteMemory} {dst src n k : ℕ}
    (hdisj : dst + n ≤ src ∨ src + n ≤ dst) (hk : k < n) :
    memcpy m dst src n (dst + k) = m (src + k) := by
  induction n generalizing m dst src k with
  | zero => omega
  | succ n ih =>
      rw [memcpy]
      cases k with
      | zero =>
          rw [memcpy_of_outside (by omega)]
          exact ByteMemory.setByte_self ..
      | succ k =>
          have hrest := @ih (m.setByte dst (m src)) (dst + 1) (src + 1) k (by omega) (by omega)
          rw [show dst + (k + 1) = dst + 1 + k by omega, hrest,
            ByteMemory.setByte_of_ne (by omega)]
          congr 1
          omega

/-- {lit}`memset` writes to its destination only. -/
theorem memset_of_outside {m : ByteMemory} {dst n a : ℕ} {c : BitVec 8}
    (ha : a < dst ∨ dst + n ≤ a) : memset m dst c n a = m a := by
  induction n generalizing m dst with
  | zero => rfl
  | succ n ih =>
      rw [memset, ih (by omega), ByteMemory.setByte_of_ne (by omega)]

/-- {lit}`memset` writes its byte everywhere. -/
theorem memset_fills {m : ByteMemory} {dst n a : ℕ} {c : BitVec 8} (hlow : dst ≤ a)
    (hhigh : a < dst + n) : memset m dst c n a = c := by
  induction n generalizing m dst with
  | zero => omega
  | succ n ih =>
      rw [memset]
      by_cases ha : a = dst
      · rw [ha, memset_of_outside (by omega)]
        exact ByteMemory.setByte_self ..
      · exact ih (by omega) (by omega)

/-! ## The functions -/

/-- {lit}`realloc`; the locks are those of its calls of {lit}`malloc` and {lit}`free`. -/
def realloc (head : ℕ) (lock lock' : Bool) (m : ByteMemory) (ptr size : ℕ) :
    Option (ByteMemory × ℕ) :=
  if ptr = 0 then Arena.malloc loopBound head lock m size
  else if size = 0 then some (Arena.free head lock' m ptr, 0)
  else
    let size := roundSize size
    let asize := field m .size (ptr - headerSize)
    if size ≤ asize ∧ asize >>> 2 ≤ size then some (m, ptr)
    else do
      let oldsize := (asize + 2 ^ 32 - headerSize) % 2 ^ 32
      let (m, newptr) ← Arena.malloc loopBound head lock m size
      let m := memcpy m newptr ptr (if size < oldsize then size else oldsize)
      some (Arena.free head lock' m ptr, newptr)

/-- {lit}`calloc`. -/
def calloc (head : ℕ) (lock : Bool) (m : ByteMemory) (nmemb size : ℕ) :
    Option (ByteMemory × ℕ) := do
  let size := size * nmemb % 2 ^ 32
  let (m, ptr) ← Arena.malloc loopBound head lock m size
  some (if ptr ≠ 0 then memset m ptr 0#8 size else m, ptr)

/-! ## Runs of writes -/

namespace HeapState

variable {head : ℕ} {s s' : HeapState} {blocks : List Block} {x y : Region} {n : ℕ}

/-- The writes of {lit}`memcpy`. -/
def copyWrites (m : ByteMemory) (dst src : ℕ) : ℕ → List HeapEvent
  | 0 => []
  | n + 1 => .write dst (m src) :: copyWrites (m.setByte dst (m src)) (dst + 1) (src + 1) n

/-- The writes of {lit}`memset`. -/
def fillWrites (dst : ℕ) (c : BitVec 8) : ℕ → List HeapEvent
  | 0 => []
  | n + 1 => .write dst c :: fillWrites (dst + 1) c n

/-- {lit}`memcpy` into an allocation is a run of legal writes. -/
theorem run_copyWrites {m : ByteMemory} {live arenas : List Region} {dst src : ℕ}
    (hy : y ∈ live) (hlow : y.start ≤ dst) (hhigh : dst + n ≤ y.start + y.size) :
    LegalRun head ⟨m, live, arenas⟩ (copyWrites m dst src n) ∧
      run head ⟨m, live, arenas⟩ (copyWrites m dst src n) =
        some ⟨memcpy m dst src n, live, arenas⟩ := by
  induction n generalizing m dst src with
  | zero => exact ⟨trivial, rfl⟩
  | succ n ih =>
      obtain ⟨hlegal, hrun⟩ := @ih (m.setByte dst (m src)) (dst + 1) (src + 1) (by omega) (by omega)
      refine ⟨⟨Or.inl ⟨y, hy, hlow, by omega⟩, fun s' hs' => ?_⟩, ?_⟩
      · obtain rfl := Option.some.inj hs'
        exact hlegal
      · simp only [copyWrites, run, step, Option.bind_eq_bind, Option.bind_some, memcpy]
        exact hrun

/-- {lit}`memset` in an allocation is a run of legal writes. -/
theorem run_fillWrites {m : ByteMemory} {live arenas : List Region} {dst : ℕ} {c : BitVec 8}
    (hy : y ∈ live) (hlow : y.start ≤ dst) (hhigh : dst + n ≤ y.start + y.size) :
    LegalRun head ⟨m, live, arenas⟩ (fillWrites dst c n) ∧
      run head ⟨m, live, arenas⟩ (fillWrites dst c n) = some ⟨memset m dst c n, live, arenas⟩ := by
  induction n generalizing m dst with
  | zero => exact ⟨trivial, rfl⟩
  | succ n ih =>
      obtain ⟨hlegal, hrun⟩ := @ih (m.setByte dst c) (dst + 1) (by omega) (by omega)
      refine ⟨⟨Or.inl ⟨y, hy, hlow, by omega⟩, fun s' hs' => ?_⟩, ?_⟩
      · obtain rfl := Option.some.inj hs'
        exact hlegal
      · simp only [fillWrites, run, step, Option.bind_eq_bind, Option.bind_some, memset]
        exact hrun

/-- Two legal runs one after the other. -/
theorem run_append {es₁ es₂ : List HeapEvent} (h₁ : s.LegalRun head es₁)
    (hrun : s.run head es₁ = some s') (h₂ : s'.LegalRun head es₂) :
    s.LegalRun head (es₁ ++ es₂) ∧ s.run head (es₁ ++ es₂) = s'.run head es₂ := by
  induction es₁ generalizing s with
  | nil =>
      obtain rfl := Option.some.inj hrun
      exact ⟨h₂, rfl⟩
  | cons e es ih =>
      obtain ⟨s₁, hs₁, hrun⟩ := Option.bind_eq_some_iff.mp hrun
      have hih := ih (h₁.2 s₁ hs₁) hrun
      refine ⟨⟨h₁.1, fun s₂ hs₂ => ?_⟩, ?_⟩
      · obtain rfl := Option.some.inj (hs₁.symm.trans hs₂)
        exact hih.1
      · rw [List.cons_append, HeapState.run, hs₁]
        exact hih.2

/-! ## A move of an allocation -/

/-- A successful {lit}`malloc` as a run of one step. -/
theorem run_malloc {size : ℕ} {m : ByteMemory} {p : ℕ} (hlt : size + 2 * headerSize ≤ 2 ^ 32)
    (hmalloc : Arena.malloc loopBound head true s.mem size = some (m, p)) (hp : p ≠ 0) :
    s.LegalRun head [.malloc size true] ∧
      s.run head [.malloc size true] = some ⟨m, ⟨p, size⟩ :: s.live, s.arenas⟩ := by
  refine ⟨⟨hlt, fun _ _ => trivial⟩, ?_⟩
  simp [run, step, hmalloc, hp]

/-- The block of an allocation does not reach into one that {lit}`malloc` returns next. -/
theorem Represents.apart_of_malloc (h : Represents head s blocks) (hx : x ∈ s.live) {size : ℕ}
    (hpos : 0 < size) (hlt : size + 2 * headerSize ≤ 2 ^ 32) {m : ByteMemory} {p : ℕ}
    (hmalloc : Arena.malloc loopBound head true s.mem size = some (m, p)) (hp : p ≠ 0) :
    x.start + s.blockSize x ≤ p ∨ p + size + headerSize ≤ x.start := by
  obtain ⟨frees, hh⟩ := h.holds
  obtain ⟨b, hb, hstart, -⟩ := h.sizes x hx
  obtain ⟨hb, hused⟩ := mem_usedBlocks.mp hb
  have hsize := h.blockSize_eq hb hstart
  have hround := (le_roundSize hlt).1
  obtain ⟨hnull, -⟩ | ⟨bs₁, c, bs₂, m', rfl, hfree, hfit, heq, -⟩ := malloc_spec hh hpos hlt
  · rw [hnull] at hmalloc
    obtain ⟨-, rfl⟩ := Prod.mk.inj (Option.some.inj hmalloc)
    exact absurd rfl hp
  · rw [heq] at hmalloc
    obtain ⟨-, rfl⟩ := Prod.mk.inj (Option.some.inj hmalloc)
    obtain rfl | hbc := hh.layout.disjoint hb (show c ∈ bs₁ ++ c :: bs₂ by simp)
    · rw [hused] at hfree
      exact absurd hfree (by decide)
    · simp only [Block.stop] at hbc
      omega

/-- The steps of {lit}`realloc` when it moves an allocation. -/
def moveSteps (m : ByteMemory) (p : ℕ) (x : Region) (size n : ℕ) : List HeapEvent :=
  [.malloc size true] ++ (copyWrites m p x.start n ++ [.free x.start true])

/-- An allocation moves: {lit}`malloc`, {lit}`memcpy` and {lit}`free`. -/
theorem Represents.move (h : Represents head s blocks) (hx : x ∈ s.live) {size n : ℕ}
    (hpos : 0 < size) (hlt : size + 2 * headerSize ≤ 2 ^ 32) (hn : n ≤ size)
    (hblock : n + headerSize ≤ s.blockSize x) {m : ByteMemory} {p : ℕ}
    (hmalloc : Arena.malloc loopBound head true s.mem size = some (m, p)) (hp : p ≠ 0) :
    let m' := Arena.free head true (memcpy m p x.start n) x.start
    s.LegalRun head (moveSteps m p x size n) ∧
      s.run head (moveSteps m p x size n) =
        some ⟨m', ⟨p, size⟩ :: s.live.filter fun y => y.start ≠ x.start, s.arenas⟩ ∧
      ∀ k < n, k < x.size → m' (p + k) = s.mem (x.start + k) := by
  have hapart := h.apart_of_malloc hx hpos hlt hmalloc hp
  have hne : p ≠ x.start := by
    simp only [headerSize] at hapart hblock
    omega
  obtain ⟨hlegal₁, hrun₁⟩ := run_malloc hlt hmalloc hp
  obtain ⟨hlegal₂, hrun₂⟩ := @run_copyWrites head ⟨p, size⟩ n m (⟨p, size⟩ :: s.live) s.arenas p
    x.start (by simp) le_rfl (by simpa using hn)
  have hlegal₃ : LegalRun head ⟨memcpy m p x.start n, ⟨p, size⟩ :: s.live, s.arenas⟩
      [.free x.start true] :=
    ⟨Or.inr ⟨x, List.mem_cons_of_mem _ hx, rfl⟩, fun _ _ => trivial⟩
  obtain ⟨hlegal, hrun⟩ := run_append hlegal₂ hrun₂ hlegal₃
  obtain ⟨hlegal', hrun'⟩ := run_append hlegal₁ hrun₁ hlegal
  refine ⟨hlegal', ?_, fun k hk hkx => ?_⟩
  · have hfilter : (⟨p, size⟩ :: s.live).filter (fun y => y.start ≠ x.start) =
        ⟨p, size⟩ :: s.live.filter fun y => y.start ≠ x.start :=
      List.filter_cons_of_pos (by simpa using hne)
    rw [moveSteps, hrun', hrun, ← hfilter]
    rfl
  · -- the copy is in an allocation that the last step spares
    obtain ⟨s₁, _, hs₁, h₁, hkeep₁⟩ := h.run hlegal₁
    obtain rfl := Option.some.inj (hrun₁.symm.trans hs₁)
    obtain ⟨s₂, _, hs₂, h₂, -⟩ := h₁.run hlegal₂
    obtain rfl := Option.some.inj (hrun₂.symm.trans hs₂)
    obtain ⟨s₃, -, hs₃, -, hkeep₃⟩ := h₂.run hlegal₃
    obtain rfl := Option.some.inj (show some _ = some s₃ from hs₃)
    have hcopied := (hkeep₃ ⟨p, size⟩ List.mem_cons_self (by simp [Spares, hne.symm])).2 (p + k)
      ⟨Nat.le_add_right _ _, by simp only; omega⟩ (by simp [Leaves])
    have hsource := (hkeep₁ x hx (by simp [Spares])).2 (x.start + k)
      ⟨Nat.le_add_right _ _, by omega⟩ (by simp [Leaves])
    refine hcopied.trans ((memcpy_copies ?_ hk).trans hsource)
    omega

end HeapState

open HeapState

/-- The test of {lit}`realloc` for keeping a block: it is large enough, and at most four times as
large as it has to be. -/
def HeapState.Keeps (s : HeapState) (x : Region) (size : ℕ) : Prop :=
  roundSize size ≤ s.blockSize x ∧ s.blockSize x / 4 ≤ roundSize size

/-- What {lit}`realloc` does with an allocation on a heap that a program has reached.  For size 0 it
frees the block and returns NULL.  It keeps a block that fits and is not four times too large;
for any other, if {lit}`malloc` has a block, it is a legal run that allocates, copies and frees,
and the new allocation starts with the contents of the old one.  If {lit}`malloc` has none, the
contents go to address 0 and the block is freed all the same. -/
theorem realloc_outcome (head : ℕ) (m : ByteMemory) (hm : HeadReady head m) (es : List HeapEvent)
    (hes : (init m).LegalRun head es) (s : HeapState) (hrun : (init m).run head es = some s)
    (x : Region) (hx : x ∈ s.live) (size : ℕ) (hlt : size + 4 * headerSize ≤ 2 ^ 32) :
    ∃ m' p, realloc head true true s.mem x.start size = some (m', p) ∧
      (size = 0 → p = 0 ∧ s.LegalRun head [.free x.start true] ∧
        s.run head [.free x.start true] =
          some ⟨m', s.live.filter fun y => y.start ≠ x.start, s.arenas⟩) ∧
      (0 < size → s.Keeps x size →
        p = x.start ∧ m' = s.mem ∧ size + headerSize ≤ s.blockSize x) ∧
      (0 < size → ¬s.Keeps x size →
        (p ≠ 0 ∧ ∃ es', s.LegalRun head es' ∧
          s.run head es' = some
            ⟨m', ⟨p, roundSize size⟩ :: s.live.filter fun y => y.start ≠ x.start, s.arenas⟩ ∧
          size ≤ roundSize size ∧
          ∀ k < min size x.size, m' (p + k) = s.mem (x.start + k)) ∨
        p = 0 ∧ Arena.malloc loopBound head true s.mem (roundSize size) = some (s.mem, 0) ∧
          m' = Arena.free head true
            (memcpy s.mem 0 x.start (min (roundSize size) (s.blockSize x - headerSize)))
            x.start) := by
  obtain ⟨s₀, blocks, hrun₀, h, -⟩ := (represents_init hm).run hes
  obtain rfl := Option.some.inj (hrun.symm.trans hrun₀)
  obtain ⟨b, hb, hstart, hround, hle, -⟩ := h.sizes x hx
  obtain ⟨hb, -⟩ := mem_usedBlocks.mp hb
  obtain ⟨frees, hh⟩ := h.holds
  have hblock := h.blockSize_eq hb hstart
  have hbound := hh.layout.bounded b hb
  have hstart0 : x.start ≠ 0 := by
    simp only [headerSize] at hstart
    omega
  obtain rfl | hpos := Nat.eq_zero_or_pos size
  · refine ⟨_, 0, by simp only [realloc, if_neg hstart0, if_true], fun _ =>
      ⟨rfl, ⟨Or.inr ⟨x, hx, rfl⟩, fun _ _ => trivial⟩, rfl⟩, fun hpos => absurd hpos ?_,
      fun hpos => absurd hpos ?_⟩ <;> exact Nat.lt_irrefl 0
  have hge := (le_roundSize (show size + 2 * headerSize ≤ 2 ^ 32 by omega)).1
  have hup : roundSize size + 2 * headerSize ≤ 2 ^ 32 := by
    rw [roundSize_eq]
    simp only [headerSize] at hlt ⊢
    omega
  have hold : (s.blockSize x + 2 ^ 32 - headerSize) % 2 ^ 32 = s.blockSize x - headerSize := by
    simp only [Block.stop, headerSize] at hbound hround hblock ⊢
    omega
  have hmin : (if roundSize size < s.blockSize x - headerSize then roundSize size
      else s.blockSize x - headerSize) = min (roundSize size) (s.blockSize x - headerSize) := by
    split_ifs <;> omega
  have hquarter : s.blockSize x >>> 2 = s.blockSize x / 4 := Nat.shiftRight_eq_div_pow ..
  simp only [realloc, if_neg hstart0, if_neg hpos.ne']
  change ∃ m' p, (if _ ≤ s.blockSize x ∧ s.blockSize x >>> 2 ≤ _ then _ else _) = _ ∧ _
  rw [hquarter]
  by_cases hfit : roundSize size ≤ s.blockSize x ∧ s.blockSize x / 4 ≤ roundSize size
  · have hroom := hfit.1
    exact ⟨s.mem, x.start, if_pos hfit, fun hzero => absurd hzero hpos.ne',
      fun _ _ => ⟨rfl, rfl, by omega⟩, fun _ hno => absurd hfit hno⟩
  · have hblocksize : field s.mem .size (x.start - headerSize) = s.blockSize x := rfl
    rw [if_neg hfit, hblocksize, hold, hmin]
    obtain ⟨hnull, -⟩ | ⟨bs₁, c, bs₂, m₁, rfl, -, -, heq, -⟩ := malloc_spec hh (by omega) hup
    · exact ⟨_, 0, by rw [hnull]; rfl, fun hzero => absurd hzero hpos.ne',
        fun _ hkeep => absurd hkeep hfit, fun _ _ => Or.inr ⟨rfl, hnull, rfl⟩⟩
    · have hp : c.addr + headerSize ≠ 0 := by simp [headerSize]
      obtain ⟨hlegal, hmoved, hcopied⟩ := h.move hx (by omega) hup
        (show min (roundSize size) (s.blockSize x - headerSize) ≤ roundSize size by omega)
        (by omega) heq hp
      exact ⟨_, _, by rw [heq]; rfl, fun hzero => absurd hzero hpos.ne',
        fun _ hkeep => absurd hkeep hfit, fun _ _ => Or.inl ⟨hp, _, hlegal, hmoved, by omega,
          fun k hk => hcopied k (by omega) (by omega)⟩⟩

/-- The heap that the start-up code makes, with an allocation of 100 bytes. -/
theorem exists_start_malloc : ∃ s,
    (init (headMemory 0x20000)).LegalRun 0x20000
      [.add 0x400000 0x1a00000 true, .malloc 100 true] ∧
    (init (headMemory 0x20000)).run 0x20000
      [.add 0x400000 0x1a00000 true, .malloc 100 true] = some s ∧ s.live = [⟨0x400010, 100⟩] := by
  have hlive : ((init (headMemory 0x20000)).run 0x20000
      [.add 0x400000 0x1a00000 true, .malloc 100 true]).map HeapState.live =
        some [⟨0x400010, 100⟩] := by decide +kernel
  obtain ⟨s, hrun, hlive⟩ := Option.map_eq_some_iff.mp hlive
  exact ⟨s, ⟨⟨by decide, Or.inr (by decide), by simp [init]⟩, fun _ _ =>
    ⟨show 100 + 2 * headerSize ≤ 2 ^ 32 by decide, fun _ _ => trivial⟩⟩, hrun, hlive⟩

/-- An allocation of 100 bytes grows to 200 and moves behind its old block. -/
theorem realloc_outcome_grow : ∃ s m',
    (init (headMemory 0x20000)).run 0x20000
      [.add 0x400000 0x1a00000 true, .malloc 100 true] = some s ∧ s.live = [⟨0x400010, 100⟩] ∧
    realloc 0x20000 true true s.mem 0x400010 200 = some (m', 0x400090) ∧
    ∀ k < 100, m' (0x400090 + k) = s.mem (0x400010 + k) := by
  obtain ⟨s, hlegal, hrun, hlive⟩ := exists_start_malloc
  have hmoved : (((init (headMemory 0x20000)).run 0x20000
      [.add 0x400000 0x1a00000 true, .malloc 100 true]).bind fun s =>
        (realloc 0x20000 true true s.mem 0x400010 200).map Prod.snd) = some 0x400090 := by
    decide +kernel
  obtain ⟨m', p, heq, -, hkeep, hmove⟩ := realloc_outcome 0x20000 (headMemory 0x20000)
    (headReady_headMemory _ (by decide)) _ hlegal s hrun ⟨0x400010, 100⟩ (by simp [hlive]) 200
    (by decide)
  rw [hrun, Option.bind_some, heq] at hmoved
  obtain rfl : p = 0x400090 := Option.some.inj hmoved
  have hno : ¬s.Keeps ⟨0x400010, 100⟩ 200 := fun h => absurd (hkeep (by decide) h).1 (by decide)
  obtain ⟨-, es, -, -, -, hcopy⟩ | ⟨hzero, -⟩ := hmove (by decide) hno
  · exact ⟨s, m', hrun, hlive, heq, hcopy⟩
  · exact absurd hzero (by decide)

/-! ## calloc -/

/-- What {lit}`calloc` does on a heap that a program has reached, when the product modulo 2^32 is
a legal request.  If {lit}`malloc` has a block, it is a legal run that allocates that many bytes
and zeroes them; the block has room for all elements exactly if the product does not
overflow. -/
theorem calloc_room_iff (head : ℕ) (m : ByteMemory) (hm : HeadReady head m) (es : List HeapEvent)
    (hes : (init m).LegalRun head es) (s : HeapState) (hrun : (init m).run head es = some s)
    (nmemb size : ℕ) (hlt : size * nmemb % 2 ^ 32 + 2 * headerSize ≤ 2 ^ 32) :
    ∃ m' p, calloc head true s.mem nmemb size = some (m', p) ∧
      (p = 0 ∧ m' = s.mem ∨
      ∃ es', s.LegalRun head es' ∧
        s.run head es' = some ⟨m', ⟨p, size * nmemb % 2 ^ 32⟩ :: s.live, s.arenas⟩ ∧
        (∀ k < size * nmemb % 2 ^ 32, m' (p + k) = 0#8) ∧
        (size * nmemb + headerSize ≤
            HeapState.blockSize ⟨m', ⟨p, size * nmemb % 2 ^ 32⟩ :: s.live, s.arenas⟩
              ⟨p, size * nmemb % 2 ^ 32⟩ ↔
          size * nmemb < 2 ^ 32)) := by
  obtain ⟨s₀, blocks, hrun₀, h, -⟩ := (represents_init hm).run hes
  obtain rfl := Option.some.inj (hrun.symm.trans hrun₀)
  obtain ⟨frees, hh⟩ := h.holds
  generalize hw : size * nmemb % 2 ^ 32 = w at hlt ⊢
  have hfail : Arena.malloc loopBound head true s.mem w = some (s.mem, 0) →
      calloc head true s.mem nmemb size = some (s.mem, 0) := fun hnull => by
    simp only [calloc, hw, hnull, Option.bind_eq_bind, Option.bind_some]
    rfl
  by_cases hzero : w = 0
  · exact ⟨s.mem, 0, hfail (by simp [Arena.malloc, hzero]), Or.inl ⟨rfl, rfl⟩⟩
  obtain ⟨hnull, -⟩ | ⟨bs₁, c, bs₂, m₁, rfl, -, -, heq, -⟩ :=
    malloc_spec hh (Nat.pos_of_ne_zero hzero) hlt
  · exact ⟨s.mem, 0, hfail hnull, Or.inl ⟨rfl, rfl⟩⟩
  · have hp : c.addr + headerSize ≠ 0 := by simp [headerSize]
    obtain ⟨hlegal₁, hrun₁⟩ := run_malloc hlt heq hp
    obtain ⟨hlegal₂, hrun₂⟩ := @run_fillWrites head ⟨c.addr + headerSize, w⟩ w m₁
      (⟨c.addr + headerSize, w⟩ :: s.live) s.arenas (c.addr + headerSize) 0#8 (by simp) le_rfl
      le_rfl
    obtain ⟨hlegal, hrun'⟩ := run_append hlegal₁ hrun₁ hlegal₂
    rw [hrun₂] at hrun'
    obtain ⟨s', blocks', hs', h', -⟩ := h.run hlegal
    obtain rfl := Option.some.inj (hrun'.symm.trans hs')
    refine ⟨_, _, by simp only [calloc, hw, heq, Option.bind_eq_bind, Option.bind_some, if_pos hp],
      Or.inr ⟨_, hlegal, hrun', fun k hk => memset_fills (Nat.le_add_right _ _) (by omega), ?_⟩⟩
    obtain ⟨b, hb, hstart, hround, hle, -⟩ := h'.sizes _ List.mem_cons_self
    obtain ⟨hb, -⟩ := mem_usedBlocks.mp hb
    obtain ⟨frees', hh'⟩ := h'.holds
    have hbound := hh'.layout.bounded b hb
    rw [h'.blockSize_eq hb hstart]
    simp only [Block.stop] at hbound hround hle
    omega

/-- Elements whose total size overflows to 16: the pointer is not NULL. -/
theorem calloc_room_iff_overflow : ∃ s m',
    (init (headMemory 0x20000)).run 0x20000
      [.add 0x400000 0x1a00000 true, .malloc 100 true] = some s ∧
    calloc 0x20000 true s.mem 0x10000001 16 = some (m', 0x400090) ∧
    (∀ k < 16, m' (0x400090 + k) = 0#8) ∧
    ¬16 * 0x10000001 + headerSize ≤
      HeapState.blockSize ⟨m', ⟨0x400090, 16⟩ :: s.live, s.arenas⟩ ⟨0x400090, 16⟩ := by
  obtain ⟨s, hlegal, hrun, -⟩ := exists_start_malloc
  have hptr : (((init (headMemory 0x20000)).run 0x20000
      [.add 0x400000 0x1a00000 true, .malloc 100 true]).bind fun s =>
        (calloc 0x20000 true s.mem 0x10000001 16).map Prod.snd) = some 0x400090 := by
    decide +kernel
  obtain ⟨m', p, heq, hcases⟩ := calloc_room_iff 0x20000 (headMemory 0x20000)
    (headReady_headMemory _ (by decide)) _ hlegal s hrun 0x10000001 16 (by decide)
  rw [hrun, Option.bind_some, heq] at hptr
  obtain rfl : p = 0x400090 := Option.some.inj hptr
  obtain ⟨hzero, -⟩ | ⟨es, -, -, hfill, hroom⟩ := hcases
  · exact absurd hzero (by decide)
  · exact ⟨s, m', hrun, heq, hfill, fun hle => absurd (hroom.mp hle) (by decide)⟩

end Sumeru
