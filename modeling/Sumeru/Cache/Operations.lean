import Sumeru.Cache.MemOps

/-!
# Sumeru - Data cache, one operation at a time

What a whole load, store or flush does to the data cache and to the memory behind it.  A
line that is present has a tag, a dirty bit and some of its sixteen bytes.  A store that
misses takes the line over with no byte in it; a load that misses any of its bytes
writes the line in the way back and reads its own line.  A flush is a store of no bytes
to another address of the same line index.

Main results:

- Theorem {lit}`CachedMemory.Synced.perform`: a byte that memory and cache agree on stays so
  until it is stored to.
- Theorem {lit}`CachedMemory.Holds.perform`: a byte keeps its value until it is stored to.
- Theorem {lit}`CachedMemory.Holds.synced_of_conflict`: an operation on another line of the same
  index writes the byte back.
- Theorem {lit}`holds_storeOp`: a byte store gives its byte the stored value.
-/

namespace Sumeru

/-- Bits 3 downto 0 of an address. -/
def offsetOf (a : BitVec 25) : BitVec 4 := a.extractLsb' 0 4

/-- The address of a byte in the line of {lit}`x`. -/
def lineAddr (x : BitVec 25) (o : BitVec 4) : BitVec 25 := x.extractLsb' 4 21 ++ o

/-- The line of an address. -/
theorem lineOf_toNat (a : BitVec 25) : (lineOf a).toNat = a.toNat / 16 % 256 := by
  simp [lineOf, BitVec.extractLsb'_toNat, Nat.shiftRight_eq_div_pow]

/-- The tag of an address. -/
theorem tagOf_toNat (a : BitVec 25) : (tagOf a).toNat = a.toNat / 4096 := by
  have := a.isLt
  rw [tagOf, BitVec.extractLsb'_toNat, Nat.shiftRight_eq_div_pow]
  omega

/-- The offset of an address. -/
theorem offsetOf_toNat (a : BitVec 25) : (offsetOf a).toNat = a.toNat % 16 := by
  simp [offsetOf, BitVec.extractLsb'_toNat]

/-- Addresses of the same line index. -/
theorem lineOf_eq_iff (a x : BitVec 25) :
    lineOf a = lineOf x ↔ a.toNat / 16 % 256 = x.toNat / 16 % 256 := by
  rw [← BitVec.toNat_inj, lineOf_toNat, lineOf_toNat]

/-- Addresses with the same tag. -/
theorem tagOf_eq_iff (a x : BitVec 25) : tagOf a = tagOf x ↔ a.toNat / 4096 = x.toNat / 4096 := by
  rw [← BitVec.toNat_inj, tagOf_toNat, tagOf_toNat]

/-- Two addresses are in one line if they agree on index and tag. -/
theorem sameLine_iff (a x : BitVec 25) :
    lineOf a = lineOf x ∧ tagOf a = tagOf x ↔ a.toNat / 16 = x.toNat / 16 := by
  rw [lineOf_eq_iff, tagOf_eq_iff]
  omega

/-- The address of a byte of the line. -/
theorem lineAddr_toNat (x : BitVec 25) (o : BitVec 4) :
    (lineAddr x o).toNat = x.toNat / 16 * 16 + o.toNat := by
  have hx := x.isLt
  rw [lineAddr, toNat_append_eq, BitVec.extractLsb'_toNat, Nat.shiftRight_eq_div_pow]
  omega

/-- An address with this line and tag is in the line. -/
theorem lineAddr_offsetOf {a x : BitVec 25} (hl : lineOf a = lineOf x) (ht : tagOf a = tagOf x) :
    lineAddr x (offsetOf a) = a := by
  have hsame := (sameLine_iff a x).mp ⟨hl, ht⟩
  apply BitVec.eq_of_toNat_eq
  rw [lineAddr_toNat, offsetOf_toNat]
  omega

/-- The offset of a byte of the line. -/
theorem offsetOf_lineAddr (x : BitVec 25) (o : BitVec 4) : offsetOf (lineAddr x o) = o := by
  have ho := o.isLt
  apply BitVec.eq_of_toNat_eq
  rw [offsetOf_toNat, lineAddr_toNat]
  omega

/-- The bytes of a line are in it. -/
theorem sameLine_lineAddr (x : BitVec 25) (o : BitVec 4) :
    lineOf (lineAddr x o) = lineOf x ∧ tagOf (lineAddr x o) = tagOf x := by
  have ho := o.isLt
  rw [sameLine_iff, lineAddr_toNat]
  omega

/-- A line of the cache that is present. -/
structure CacheLine where
  tag : BitVec 13
  dirty : Bool
  byte : BitVec 4 → Option (BitVec 8)

/-- The data cache over its memory. -/
structure CachedMemory where
  line : BitVec 8 → Option CacheLine
  mem : ByteMem

namespace CachedMemory

/-- Power-up: no line is present. -/
def init (mem : ByteMem) : CachedMemory := ⟨fun _ => none, mem⟩

/-- The line that holds {lit}`a`, if it is present. -/
def lineAt (s : CachedMemory) (a : BitVec 25) : Option CacheLine :=
  (s.line (lineOf a)).filter fun ln => ln.tag == tagOf a

/-- Byte {lit}`a` in the cache. -/
def cachedByte (s : CachedMemory) (a : BitVec 25) : Option (BitVec 8) :=
  (s.lineAt a).bind fun ln => ln.byte (offsetOf a)

/-- Byte {lit}`a` as the program sees it. -/
def value (s : CachedMemory) (a : BitVec 25) : BitVec 8 := (s.cachedByte a).getD (s.mem a)

/-- The line of {lit}`a` is present and dirty. -/
def dirtyAt (s : CachedMemory) (a : BitVec 25) : Bool := (s.lineAt a).any CacheLine.dirty

/-- Write line {lit}`l` back if it is dirty, and drop it. -/
def evict (s : CachedMemory) (l : BitVec 8) : CachedMemory where
  line := Function.update s.line l none
  mem a := if lineOf a = l ∧ s.dirtyAt a = true then s.value a else s.mem a

/-- Put a line in the place of {lit}`x`. -/
def install (s : CachedMemory) (x : BitVec 25) (ln : CacheLine) : CachedMemory :=
  { s with line := Function.update s.line (lineOf x) (some ln) }

/-- The line of {lit}`x` without any byte. -/
def emptyLine (x : BitVec 25) : CacheLine := ⟨tagOf x, false, fun _ => none⟩

/-- The line of {lit}`x` as it is in memory. -/
def memLine (s : CachedMemory) (x : BitVec 25) : CacheLine :=
  ⟨tagOf x, false, fun o => some (s.mem (lineAddr x o))⟩

/-- The line {lit}`ln` of a store after the store. -/
def storedLine (op : MemOp) (ln : CacheLine) : CacheLine where
  tag := ln.tag
  dirty := ln.dirty || op.size != 0
  byte o :=
    let a := lineAddr op.addr o
    if op.covers a then some (op.data.extractLsb' (8 * (a - op.addr).toNat) 8) else ln.byte o

/-- All bytes of the access are in the cache. -/
def hits (s : CachedMemory) (op : MemOp) : Bool :=
  (List.range op.size).all fun k => (s.cachedByte (op.addr + BitVec.ofNat 25 k)).isSome

/-- One operation of the program. -/
def perform (s : CachedMemory) (op : MemOp) : CachedMemory :=
  if op.store then
    match s.lineAt op.addr with
    | some ln => s.install op.addr (storedLine op ln)
    | none => (s.evict (lineOf op.addr)).install op.addr (storedLine op (emptyLine op.addr))
  else if s.hits op then s
  else
    let evicted := s.evict (lineOf op.addr)
    evicted.install op.addr (evicted.memLine op.addr)

/-- A byte written by a device: the cache does not see it. -/
def dma (s : CachedMemory) (a : BitVec 25) (b : BitVec 8) : CachedMemory :=
  { s with mem := Function.update s.mem a b }

/-! ## Parts of an operation -/

variable {s : CachedMemory} {a x : BitVec 25} {l : BitVec 8} {ln : CacheLine} {op : MemOp}
  {v : BitVec 8}

/-- A line is present at an address of its index and tag. -/
theorem lineAt_eq_some_iff :
    s.lineAt a = some ln ↔ s.line (lineOf a) = some ln ∧ ln.tag = tagOf a := by
  rw [lineAt, Option.filter_eq_some_iff]
  simp

/-- A cached byte is the one in its line. -/
theorem cachedByte_of_lineAt (h : s.lineAt a = some ln) :
    s.cachedByte a = ln.byte (offsetOf a) := by
  rw [cachedByte, h]
  rfl

/-- Without its line a byte is not cached. -/
theorem cachedByte_of_absent (h : s.lineAt a = none) : s.cachedByte a = none := by
  rw [cachedByte, h]
  rfl

/-- A cached byte is dirty with its line. -/
theorem dirtyAt_of_lineAt (h : s.lineAt a = some ln) : s.dirtyAt a = ln.dirty := by
  rw [dirtyAt, h]
  rfl

/-- Without its line a byte is not dirty. -/
theorem dirtyAt_of_absent (h : s.lineAt a = none) : s.dirtyAt a = false := by
  rw [dirtyAt, h]
  rfl

/-- An uncached byte is the one in memory. -/
theorem value_of_uncached (h : s.cachedByte a = none) : s.value a = s.mem a := by
  rw [value, h]
  rfl

/-- A cached byte is seen in front of memory. -/
theorem value_of_cached (h : s.cachedByte a = some v) : s.value a = v := by
  rw [value, h]
  rfl

/-- Lines of other indices stay. -/
theorem evict_lineAt_of_ne (h : lineOf a ≠ l) : (s.evict l).lineAt a = s.lineAt a := by
  rw [lineAt, evict]
  simp [Function.update_of_ne h, lineAt]

/-- Memory behind other indices stays. -/
theorem evict_mem_of_ne (h : lineOf a ≠ l) : (s.evict l).mem a = s.mem a := by
  simp [evict, h]

/-- The line put in is found. -/
theorem install_lineAt_self (h : lineOf a = lineOf x) (ht : ln.tag = tagOf a) :
    (s.install x ln).lineAt a = some ln := by
  rw [lineAt_eq_some_iff, install, h]
  exact ⟨Function.update_self .., ht⟩

/-- The line that was there before is not found any more. -/
theorem install_lineAt_of_tag (h : lineOf a = lineOf x) (ht : ln.tag ≠ tagOf a) :
    (s.install x ln).lineAt a = none := by
  rw [lineAt, install, h]
  simp [ht]

/-- Lines of other indices stay. -/
theorem install_lineAt_of_ne (h : lineOf a ≠ lineOf x) : (s.install x ln).lineAt a = s.lineAt a := by
  rw [lineAt, install]
  simp [Function.update_of_ne h, lineAt]

/-- The line of a store keeps the bytes that the store does not cover. -/
theorem storedLine_byte (hl : lineOf a = lineOf op.addr) (ht : tagOf a = tagOf op.addr) :
    (storedLine op ln).byte (offsetOf a) =
      if op.covers a then some (op.data.extractLsb' (8 * (a - op.addr).toNat) 8)
      else ln.byte (offsetOf a) := by
  rw [storedLine]
  simp only [lineAddr_offsetOf hl ht]

/-- A loaded line has the bytes of memory. -/
theorem memLine_byte (hl : lineOf a = lineOf x) (ht : tagOf a = tagOf x) :
    (s.memLine x).byte (offsetOf a) = some (s.mem a) := by
  rw [memLine]
  simp only [lineAddr_offsetOf hl ht]

/-! ## What an operation does at one byte -/

/-- What an operation can do to the line of byte {lit}`a` and to memory there. -/
inductive Effect (s : CachedMemory) (op : MemOp) (a : BitVec 25) (s' : CachedMemory) : Prop
  /-- Line and memory rest. -/
  | rests (hline : s'.lineAt a = s.lineAt a) (hmem : s'.mem a = s.mem a)
  /-- The line of the store is present. -/
  | stores (ln : CacheLine) (hstore : op.store = true) (hl : lineOf a = lineOf op.addr)
      (ht : tagOf a = tagOf op.addr) (hold : s.lineAt a = some ln)
      (hline : s'.lineAt a = some (storedLine op ln)) (hmem : s'.mem a = s.mem a)
  /-- The line of the store is taken over. -/
  | takesOver (hstore : op.store = true) (hl : lineOf a = lineOf op.addr)
      (ht : tagOf a = tagOf op.addr) (hold : s.lineAt a = none)
      (hline : s'.lineAt a = some (storedLine op (emptyLine op.addr)))
      (hmem : s'.mem a = s.mem a)
  /-- The line of the load is read from memory. -/
  | loads (hload : op.store = false) (hl : lineOf a = lineOf op.addr)
      (ht : tagOf a = tagOf op.addr) (hcached : s'.cachedByte a = some (s'.mem a))
      (hdirty : s'.dirtyAt a = false)
      (hmem : s'.mem a = (s.evict (lineOf op.addr)).mem a)
  /-- The line of {lit}`a` makes room for another one. -/
  | displaces (hl : lineOf a = lineOf op.addr) (ht : tagOf a ≠ tagOf op.addr)
      (hline : s'.lineAt a = none) (hmem : s'.mem a = (s.evict (lineOf op.addr)).mem a)

/-- An operation that finds its line keeps other lines of the same index out. -/
theorem lineAt_of_conflict (h : s.lineAt x = some ln) (hl : lineOf a = lineOf x)
    (ht : tagOf a ≠ tagOf x) : s.lineAt a = none := by
  obtain ⟨hline, htag⟩ := lineAt_eq_some_iff.mp h
  rw [lineAt, hl, hline]
  simp [htag, Ne.symm ht]

/-- Memory stays where no line is evicted. -/
theorem evict_mem_of_absent (h : s.lineAt a = none) : (s.evict l).mem a = s.mem a := by
  simp [evict, dirtyAt_of_absent h]

/-- What an operation does to a byte is one of the effects. -/
theorem perform_effect (s : CachedMemory) (op : MemOp) (a : BitVec 25) :
    Effect s op a (s.perform op) := by
  by_cases hl : lineOf a = lineOf op.addr
  · cases hstore : op.store with
    | true =>
        cases hat : s.lineAt op.addr with
        | some ln =>
            have heq : s.perform op = s.install op.addr (storedLine op ln) := by
              simp [perform, hstore, hat]
            obtain ⟨hline, htag⟩ := lineAt_eq_some_iff.mp hat
            rw [heq]
            by_cases ht : tagOf a = tagOf op.addr
            · refine .stores ln hstore hl ht ?_ (install_lineAt_self hl (htag.trans ht.symm)) rfl
              exact lineAt_eq_some_iff.mpr ⟨by rw [hl, hline], htag.trans ht.symm⟩
            · have hnone := lineAt_of_conflict hat hl ht
              refine .displaces hl ht (install_lineAt_of_tag hl ?_) (evict_mem_of_absent hnone).symm
              rw [storedLine, htag]
              exact Ne.symm ht
        | none =>
            have heq : s.perform op = (s.evict (lineOf op.addr)).install op.addr
                (storedLine op (emptyLine op.addr)) := by
              simp [perform, hstore, hat]
            rw [heq]
            by_cases ht : tagOf a = tagOf op.addr
            · have hnone : s.lineAt a = none := by
                rw [lineAt, hl, ht]
                exact hat
              exact .takesOver hstore hl ht hnone (install_lineAt_self hl ht.symm)
                (evict_mem_of_absent hnone)
            · exact .displaces hl ht (install_lineAt_of_tag hl (Ne.symm ht)) rfl
    | false =>
        cases hhit : s.hits op with
        | true =>
            have heq : s.perform op = s := by simp [perform, hstore, hhit]
            rw [heq]
            exact .rests rfl rfl
        | false =>
            have heq : s.perform op = (s.evict (lineOf op.addr)).install op.addr
                ((s.evict (lineOf op.addr)).memLine op.addr) := by
              simp [perform, hstore, hhit]
            rw [heq]
            by_cases ht : tagOf a = tagOf op.addr
            · have htag : ((s.evict (lineOf op.addr)).memLine op.addr).tag = tagOf a := ht.symm
              have hat := install_lineAt_self (s := s.evict (lineOf op.addr)) hl htag
              refine .loads hstore hl ht ?_ ?_ rfl
              · rw [cachedByte_of_lineAt hat, memLine_byte hl ht]
                rfl
              · rw [dirtyAt_of_lineAt hat]
                rfl
            · exact .displaces hl ht (install_lineAt_of_tag hl (Ne.symm ht)) rfl
  · -- the operation works on another line index
    refine .rests ?_ ?_
    · unfold perform
      split
      · split
        · exact install_lineAt_of_ne hl
        · rw [install_lineAt_of_ne hl, evict_lineAt_of_ne hl]
      · split
        · rfl
        · rw [install_lineAt_of_ne hl, evict_lineAt_of_ne hl]
    · unfold perform
      split
      · split
        · rfl
        · exact evict_mem_of_ne hl
      · split
        · rfl
        · exact evict_mem_of_ne hl

/-! ## Bytes over operations -/

/-- Memory and cache agree that byte {lit}`a` is {lit}`v`. -/
structure Synced (s : CachedMemory) (a : BitVec 25) (v : BitVec 8) : Prop where
  mem : s.mem a = v
  cached : ∀ w, s.cachedByte a = some w → w = v

/-- The program sees byte {lit}`a` as {lit}`v`, and so does memory unless the line is dirty. -/
structure Holds (s : CachedMemory) (a : BitVec 25) (v : BitVec 8) : Prop where
  value : s.value a = v
  clean : s.dirtyAt a = false → s.mem a = v

/-- Byte {lit}`a` is {lit}`v` in memory and no dirty line can overwrite it. -/
structure Delivered (s : CachedMemory) (a : BitVec 25) (v : BitVec 8) : Prop where
  mem : s.mem a = v
  clean : s.dirtyAt a = false

/-- Byte {lit}`a` is {lit}`v` in memory and not in the cache. -/
structure Uncached (s : CachedMemory) (a : BitVec 25) (v : BitVec 8) : Prop where
  mem : s.mem a = v
  uncached : s.cachedByte a = none

/-- Byte {lit}`a` is {lit}`v` in memory while its line is present. -/
structure Resident (s : CachedMemory) (a : BitVec 25) (v : BitVec 8) : Prop where
  mem : s.mem a = v
  present : (s.lineAt a).isSome = true

/-- The line decides whether a byte is cached. -/
theorem cachedByte_congr {s' : CachedMemory} (h : s'.lineAt a = s.lineAt a) :
    s'.cachedByte a = s.cachedByte a := by
  rw [cachedByte, h, cachedByte]

/-- The line decides whether a byte is dirty. -/
theorem dirtyAt_congr {s' : CachedMemory} (h : s'.lineAt a = s.lineAt a) :
    s'.dirtyAt a = s.dirtyAt a := by
  rw [dirtyAt, h, dirtyAt]

/-- Line and memory decide what is seen. -/
theorem value_congr {s' : CachedMemory} (h : s'.lineAt a = s.lineAt a) (hm : s'.mem a = s.mem a) :
    s'.value a = s.value a := by
  rw [value, cachedByte_congr h, hm, value]

/-- A synced byte is seen. -/
theorem Synced.value (h : s.Synced a v) : s.value a = v := by
  cases hc : s.cachedByte a with
  | none => rw [value_of_uncached hc, h.mem]
  | some w => rw [value_of_cached hc, h.cached w hc]

/-- A synced byte is held. -/
theorem Synced.holds (h : s.Synced a v) : s.Holds a v := ⟨h.value, fun _ => h.mem⟩

/-- An uncached byte is synced. -/
theorem Uncached.synced (h : s.Uncached a v) : s.Synced a v where
  mem := h.mem
  cached w hw := by
    rw [h.uncached] at hw
    cases hw

/-- What an eviction leaves in memory. -/
theorem Holds.evict_mem (h : s.Holds a v) (hl : lineOf a = l) : (s.evict l).mem a = v := by
  cases hd : s.dirtyAt a with
  | true => simp [CachedMemory.evict, hl, hd, h.value]
  | false => simp [CachedMemory.evict, hd, h.clean hd]

/-- Evictions leave a delivered byte in memory. -/
theorem Delivered.evict_mem (h : s.Delivered a v) (l : BitVec 8) : (s.evict l).mem a = v := by
  simp [CachedMemory.evict, h.clean, h.mem]

/-- Evictions leave an uncached byte in memory. -/
theorem Uncached.evict_mem (h : s.Uncached a v) (l : BitVec 8) : (s.evict l).mem a = v := by
  simp [CachedMemory.evict, value_of_uncached h.uncached, h.mem]

/-- Bytes beside a store stay. -/
theorem storedLine_byte_of_not_covers (hl : lineOf a = lineOf op.addr)
    (ht : tagOf a = tagOf op.addr) (hcov : op.covers a = false) :
    (storedLine op ln).byte (offsetOf a) = ln.byte (offsetOf a) := by
  rw [storedLine_byte hl ht, hcov]
  rfl

/-- A byte that is not stored to keeps its place in the cache over a store. -/
theorem cachedByte_of_storedLine {s' : CachedMemory} (hl : lineOf a = lineOf op.addr)
    (ht : tagOf a = tagOf op.addr) (hold : s.lineAt a = some ln)
    (hline : s'.lineAt a = some (storedLine op ln)) (hcov : op.covers a = false) :
    s'.cachedByte a = s.cachedByte a := by
  rw [cachedByte_of_lineAt hline, cachedByte_of_lineAt hold,
    storedLine_byte_of_not_covers hl ht hcov]

/-- A byte beside the store that takes over its line is not cached. -/
theorem cachedByte_of_takenOver {s' : CachedMemory} (hl : lineOf a = lineOf op.addr)
    (ht : tagOf a = tagOf op.addr)
    (hline : s'.lineAt a = some (storedLine op (emptyLine op.addr))) (hcov : op.covers a = false) :
    s'.cachedByte a = none := by
  rw [cachedByte_of_lineAt hline, storedLine_byte_of_not_covers hl ht hcov]
  rfl

/-- Memory and cache agree on a byte until it is stored to. -/
theorem Synced.perform (h : s.Synced a v) (hop : op.store = true → op.covers a = false) :
    (s.perform op).Synced a v := by
  cases perform_effect s op a with
  | rests hline hmem =>
      exact ⟨hmem.trans h.mem, fun w hw => h.cached w (by rwa [cachedByte_congr hline] at hw)⟩
  | stores ln hstore hl ht hold hline hmem =>
      refine ⟨hmem.trans h.mem, fun w hw => h.cached w ?_⟩
      rwa [cachedByte_of_storedLine hl ht hold hline (hop hstore)] at hw
  | takesOver hstore hl ht hold hline hmem =>
      refine (Uncached.mk (hmem.trans h.mem) ?_).synced
      exact cachedByte_of_takenOver hl ht hline (hop hstore)
  | loads hload hl ht hcached hdirty hmem =>
      have hv := hmem.trans (h.holds.evict_mem hl)
      refine ⟨hv, fun w hw => ?_⟩
      rw [hcached, hv] at hw
      exact (Option.some.inj hw).symm
  | displaces hl ht hline hmem =>
      exact (Uncached.mk (hmem.trans (h.holds.evict_mem hl)) (cachedByte_of_absent hline)).synced

/-- A byte keeps its value until it is stored to. -/
theorem Holds.perform (h : s.Holds a v) (hop : op.store = true → op.covers a = false) :
    (s.perform op).Holds a v := by
  cases perform_effect s op a with
  | rests hline hmem =>
      refine ⟨(value_congr hline hmem).trans h.value, fun hd => hmem.trans (h.clean ?_)⟩
      rwa [dirtyAt_congr hline] at hd
  | stores ln hstore hl ht hold hline hmem =>
      have hbyte := cachedByte_of_storedLine hl ht hold hline (hop hstore)
      refine ⟨?_, fun hd => hmem.trans (h.clean ?_)⟩
      · rw [CachedMemory.value, hbyte, hmem]
        exact h.value
      · rw [dirtyAt_of_lineAt hline, storedLine, Bool.or_eq_false_iff] at hd
        rw [dirtyAt_of_lineAt hold]
        exact hd.1
  | takesOver hstore hl ht hold hline hmem =>
      have hv : s.mem a = v := h.clean (dirtyAt_of_absent hold)
      refine (Uncached.mk (hmem.trans hv) ?_).synced.holds
      exact cachedByte_of_takenOver hl ht hline (hop hstore)
  | loads hload hl ht hcached hdirty hmem =>
      have hv := hmem.trans (h.evict_mem hl)
      exact ⟨(value_of_cached hcached).trans hv, fun _ => hv⟩
  | displaces hl ht hline hmem =>
      have hv := hmem.trans (h.evict_mem hl)
      exact (Uncached.mk hv (cachedByte_of_absent hline)).synced.holds

/-- A store gives a byte its value. -/
theorem holds_of_store (hstore : op.store = true) (hl : lineOf a = lineOf op.addr)
    (ht : tagOf a = tagOf op.addr) (hcov : op.covers a = true) :
    (s.perform op).Holds a (op.data.extractLsb' (8 * (a - op.addr).toNat) 8) := by
  have hsize : op.size ≠ 0 := by
    intro h0
    rw [MemOp.covers, h0] at hcov
    simp at hcov
  have hcase : ∀ ln, (s.perform op).lineAt a = some (storedLine op ln) →
      (s.perform op).Holds a (op.data.extractLsb' (8 * (a - op.addr).toNat) 8) := by
    intro ln hline
    refine ⟨value_of_cached ?_, fun hd => ?_⟩
    · rw [cachedByte_of_lineAt hline, storedLine_byte hl ht, hcov]
      rfl
    · rw [dirtyAt_of_lineAt hline, storedLine] at hd
      simp [hsize] at hd
  unfold CachedMemory.perform at hcase ⊢
  simp only [hstore, if_true] at hcase ⊢
  cases hat : s.lineAt op.addr with
  | some ln =>
      obtain ⟨-, htag⟩ := lineAt_eq_some_iff.mp hat
      rw [hat] at hcase
      exact hcase ln (install_lineAt_self hl (htag.trans ht.symm))
  | none =>
      rw [hat] at hcase
      exact hcase _ (install_lineAt_self hl ht.symm)

/-- After a store or a load of some bytes the line of the operation is present. -/
theorem lineAt_perform (hop : op.store = true ∨ op.size ≠ 0) :
    ∃ ln, (s.perform op).lineAt op.addr = some ln := by
  unfold CachedMemory.perform
  split
  next hstore =>
    split
    next ln hat => exact ⟨_, install_lineAt_self rfl (lineAt_eq_some_iff.mp hat).2⟩
    next hat => exact ⟨_, install_lineAt_self rfl rfl⟩
  next hload =>
    split
    next hhit =>
      have hsize : 0 < op.size := by
        rcases hop with h | h
        · exact absurd h hload
        · omega
      have hbyte := List.all_eq_true.mp hhit 0 (List.mem_range.mpr hsize)
      rw [BitVec.add_zero] at hbyte
      cases hat : s.lineAt op.addr with
      | some ln => exact ⟨ln, rfl⟩
      | none =>
          rw [cachedByte_of_absent hat] at hbyte
          cases hbyte
    next hmiss => exact ⟨_, install_lineAt_self rfl rfl⟩

/-- An operation on another line of the same index writes the byte back and drops it. -/
theorem Holds.uncached_of_conflict (h : s.Holds a v) (hl : lineOf a = lineOf op.addr)
    (ht : tagOf a ≠ tagOf op.addr) (hop : op.store = true ∨ op.size ≠ 0)
    (hcov : op.store = true → op.covers a = false) : (s.perform op).Uncached a v := by
  obtain ⟨ln, hat⟩ := lineAt_perform (s := s) hop
  have hnone := lineAt_of_conflict hat hl ht
  have hafter := h.perform hcov
  exact ⟨hafter.clean (dirtyAt_of_absent hnone), cachedByte_of_absent hnone⟩

/-- An access to a line of the same index brings a held byte to memory. -/
theorem Holds.synced_of_conflict (h : s.Holds a v) (hl : lineOf a = lineOf op.addr)
    (ht : tagOf a ≠ tagOf op.addr) (hop : op.store = true ∨ op.size ≠ 0)
    (hcov : op.store = true → op.covers a = false) : (s.perform op).Synced a v :=
  (h.uncached_of_conflict hl ht hop hcov).synced

/-! ### Bytes delivered by a device -/

/-- Only a store of some bytes makes a line dirty. -/
theorem Delivered.perform (h : s.Delivered a v)
    (hop : op.store = true → lineOf a = lineOf op.addr → tagOf a = tagOf op.addr → op.size = 0) :
    (s.perform op).Delivered a v := by
  cases perform_effect s op a with
  | rests hline hmem => exact ⟨hmem.trans h.mem, (dirtyAt_congr hline).trans h.clean⟩
  | stores ln hstore hl ht hold hline hmem =>
      have hd := h.clean
      rw [dirtyAt_of_lineAt hold] at hd
      refine ⟨hmem.trans h.mem, ?_⟩
      rw [dirtyAt_of_lineAt hline, storedLine, hd, hop hstore hl ht]
      rfl
  | takesOver hstore hl ht hold hline hmem =>
      refine ⟨hmem.trans h.mem, ?_⟩
      rw [dirtyAt_of_lineAt hline, storedLine, hop hstore hl ht]
      rfl
  | loads hload hl ht hcached hdirty hmem => exact ⟨hmem.trans (h.evict_mem _), hdirty⟩
  | displaces hl ht hline hmem => exact ⟨hmem.trans (h.evict_mem _), dirtyAt_of_absent hline⟩

/-- A flush drops what the cache had of a delivered byte. -/
theorem Delivered.synced_of_conflict (h : s.Delivered a v) (hl : lineOf a = lineOf op.addr)
    (ht : tagOf a ≠ tagOf op.addr) (hop : op.store = true ∨ op.size ≠ 0) :
    (s.perform op).Synced a v := by
  obtain ⟨ln, hat⟩ := lineAt_perform (s := s) hop
  have hnone := lineAt_of_conflict hat hl ht
  have hafter : (s.perform op).Delivered a v := h.perform fun _ _ htag => absurd htag ht
  exact (Uncached.mk hafter.mem (cachedByte_of_absent hnone)).synced

/-! ### Bytes that are only in one place -/

/-- A byte out of the cache stays out until its line is loaded or it is stored to. -/
theorem Uncached.perform (h : s.Uncached a v) (hstore : op.store = true → op.covers a = false)
    (hload : op.store = false → lineOf a = lineOf op.addr → tagOf a ≠ tagOf op.addr) :
    (s.perform op).Uncached a v := by
  cases perform_effect s op a with
  | rests hline hmem => exact ⟨hmem.trans h.mem, (cachedByte_congr hline).trans h.uncached⟩
  | stores ln hst hl ht hold hline hmem =>
      refine ⟨hmem.trans h.mem, ?_⟩
      rw [cachedByte_of_storedLine hl ht hold hline (hstore hst)]
      exact h.uncached
  | takesOver hst hl ht hold hline hmem =>
      exact ⟨hmem.trans h.mem, cachedByte_of_takenOver hl ht hline (hstore hst)⟩
  | loads hst hl ht hcached hdirty hmem => exact absurd ht (hload hst hl)
  | displaces hl ht hline hmem =>
      exact ⟨hmem.trans (h.evict_mem _), cachedByte_of_absent hline⟩

/-- A store to the line of a byte leaves memory as it is. -/
theorem Uncached.resident_of_store (h : s.Uncached a v) (hstore : op.store = true)
    (hl : lineOf a = lineOf op.addr) (ht : tagOf a = tagOf op.addr) :
    (s.perform op).Resident a v := by
  obtain ⟨ln, hat⟩ := lineAt_perform (s := s) (.inl hstore)
  have hpresent : ((s.perform op).lineAt a).isSome = true := by
    rw [lineAt, hl, ht]
    exact Option.isSome_of_eq_some hat
  cases perform_effect s op a with
  | rests hline hmem => exact ⟨hmem.trans h.mem, hpresent⟩
  | stores ln hst hl ht hold hline hmem => exact ⟨hmem.trans h.mem, hpresent⟩
  | takesOver hst hl ht hold hline hmem => exact ⟨hmem.trans h.mem, hpresent⟩
  | loads hst hl ht hcached hdirty hmem =>
      rw [hstore] at hst
      cases hst
  | displaces hl htag hline hmem => exact absurd ht htag

/-- A line stays present, and memory behind it as it is, until its place is needed. -/
theorem Resident.perform (h : s.Resident a v)
    (hop : lineOf a = lineOf op.addr → op.store = true ∧ tagOf a = tagOf op.addr) :
    (s.perform op).Resident a v := by
  cases perform_effect s op a with
  | rests hline hmem => exact ⟨hmem.trans h.mem, by rw [hline]; exact h.present⟩
  | stores ln hst hl ht hold hline hmem => exact ⟨hmem.trans h.mem, by rw [hline]; rfl⟩
  | takesOver hst hl ht hold hline hmem => exact ⟨hmem.trans h.mem, by rw [hline]; rfl⟩
  | loads hst hl ht hcached hdirty hmem =>
      rw [(hop hl).1] at hst
      cases hst
  | displaces hl ht hline hmem => exact absurd (hop hl).2 ht

/-! ### Writes of a device -/

@[simp] theorem dma_cachedByte (b : BitVec 8) : (s.dma x b).cachedByte a = s.cachedByte a := rfl

/-- Other bytes of memory stay. -/
theorem dma_mem_of_ne (h : a ≠ x) (b : BitVec 8) : (s.dma x b).mem a = s.mem a := by
  rw [dma]
  exact Function.update_of_ne h ..

/-- A byte written under a clean line is delivered. -/
theorem delivered_dma {b : BitVec 8} (h : s.dirtyAt x = false) : (s.dma x b).Delivered x b :=
  ⟨Function.update_self .., h⟩

/-- Other delivered bytes stay so. -/
theorem Delivered.dma (h : s.Delivered a v) (hne : a ≠ x) (b : BitVec 8) :
    (s.dma x b).Delivered a v :=
  ⟨(dma_mem_of_ne hne b).trans h.mem, h.clean⟩

/-- Other synced bytes stay so. -/
theorem Synced.dma (h : s.Synced a v) (hne : a ≠ x) (b : BitVec 8) : (s.dma x b).Synced a v :=
  ⟨(dma_mem_of_ne hne b).trans h.mem, h.cached⟩

/-- Other held bytes stay so. -/
theorem Holds.dma (h : s.Holds a v) (hne : a ≠ x) (b : BitVec 8) : (s.dma x b).Holds a v := by
  refine ⟨?_, fun hd => (dma_mem_of_ne hne b).trans (h.clean hd)⟩
  rw [CachedMemory.value, dma_cachedByte, dma_mem_of_ne hne]
  exact h.value

/-- Other uncached bytes stay so. -/
theorem Uncached.dma (h : s.Uncached a v) (hne : a ≠ x) (b : BitVec 8) :
    (s.dma x b).Uncached a v :=
  ⟨(dma_mem_of_ne hne b).trans h.mem, h.uncached⟩

/-- Other resident bytes stay so. -/
theorem Resident.dma (h : s.Resident a v) (hne : a ≠ x) (b : BitVec 8) :
    (s.dma x b).Resident a v :=
  ⟨(dma_mem_of_ne hne b).trans h.mem, h.present⟩

end CachedMemory

/-! ## Instructions of the programs -/

/-- The address lines of the data cache for a pointer. -/
def busAddr (x : BitVec 32) : BitVec 25 := x.setWidth 25

/-- {lit}`sb`. -/
def storeOp (x : BitVec 32) (b : BitVec 8) : MemOp := ⟨true, busAddr x, 0b00#2, false, b.setWidth 32⟩

/-- {lit}`lbu`. -/
def loadOp (x : BitVec 32) : MemOp := ⟨false, busAddr x, 0b00#2, false, 0#32⟩

/-- The instruction of {lit}`flush_dcache_line`. -/
def flushOp (x : BitVec 32) : MemOp :=
  ⟨true, busAddr ((x ^^^ 0x10000#32) &&& 0xFFFFFFF0#32), 0b11#2, false, 0#32⟩

/-- The loop of {lit}`flush_dcache_range`: the lines that it flushes, if it ends in less than
{lit}`n` rounds. -/
def flushLoop : ℕ → BitVec 32 → BitVec 32 → Option (List (BitVec 32))
  | 0, _, _ => none
  | n + 1, start, stop =>
      if start < stop then (flushLoop n (start + 16#32) stop).map (start :: ·) else some []

/-- {lit}`flush_dcache_range`. -/
def flushDcacheRange (n : ℕ) (start stop : BitVec 32) : Option (List (BitVec 32)) :=
  flushLoop n (start &&& 0xFFFFFFF0#32) stop

/-- Addresses below {lit}`2 ^ 25` are those on the bus. -/
theorem busAddr_toNat {x : BitVec 32} (h : x.toNat < 2 ^ 25) : (busAddr x).toNat = x.toNat := by
  rw [busAddr, BitVec.toNat_setWidth, Nat.mod_eq_of_lt h]

/-- Addresses without a wrap. -/
theorem add_ofNat_toNat {x : BitVec 32} {k : ℕ} (h : x.toNat + k < 2 ^ 32) :
    (x + BitVec.ofNat 32 k).toNat = x.toNat + k := by
  rw [BitVec.toNat_add, BitVec.toNat_ofNat]
  omega

/-- Addresses on the bus without a wrap. -/
theorem busAddr_add_toNat {x : BitVec 32} {k : ℕ} (h : x.toNat + k < 2 ^ 25) :
    (busAddr (x + BitVec.ofNat 32 k)).toNat = x.toNat + k := by
  have hk := add_ofNat_toNat (x := x) (k := k) (by omega)
  rw [busAddr_toNat (by omega), hk]

/-- A byte store covers its byte. -/
theorem covers_storeOp_iff (x : BitVec 32) (b : BitVec 8) (a : BitVec 25) :
    (storeOp x b).covers a = true ↔ a = busAddr x := by
  have hsize : (storeOp x b).size = 1 := rfl
  have haddr : (storeOp x b).addr = busAddr x := rfl
  rw [MemOp.covers, decide_eq_true_eq, hsize, haddr, BitVec.toNat_sub, ← BitVec.toNat_inj]
  have := a.isLt
  have := (busAddr x).isLt
  omega

/-- A byte store covers no other byte. -/
theorem covers_storeOp_of_ne {x : BitVec 32} {a : BitVec 25} (h : a ≠ busAddr x) (b : BitVec 8) :
    (storeOp x b).covers a = false := by
  rw [← Bool.not_eq_true, covers_storeOp_iff]
  exact h

/-- A flush covers nothing. -/
theorem covers_flushOp (x : BitVec 32) (a : BitVec 25) : (flushOp x).covers a = false := by
  rw [MemOp.covers, decide_eq_false_iff_not]
  exact Nat.not_lt_zero _

/-- A flush works on the line index of its argument. -/
theorem lineOf_flushOp (x : BitVec 32) : lineOf (flushOp x).addr = lineOf (busAddr x) := by
  apply BitVec.eq_of_getLsbD_eq
  intro i hi
  have hbits : ∀ j : Fin 8, ((0x10000#32).getLsbD (4 + j.val) = false) ∧
      ((0xFFFFFFF0#32).getLsbD (4 + j.val) = true) := by decide
  obtain ⟨h1, h2⟩ := hbits ⟨i, hi⟩
  simp only [lineOf, flushOp, busAddr, BitVec.getLsbD_extractLsb', BitVec.getLsbD_setWidth,
    BitVec.getLsbD_and, BitVec.getLsbD_xor, h1, h2, Bool.xor_false, Bool.and_true]

/-- A flush uses another tag than its argument. -/
theorem tagOf_flushOp (x : BitVec 32) : tagOf (busAddr x) ≠ tagOf (flushOp x).addr := by
  intro h
  have hbit := congrArg (fun t : BitVec 13 => t.getLsbD 4) h
  simp [tagOf, flushOp, busAddr] at hbit

/-- The loop ends after one round for each line up to {lit}`stop`. -/
theorem flushLoop_eq {n : ℕ} {start stop : BitVec 32} (hstop : stop.toNat + 16 ≤ 2 ^ 32)
    (hn : (stop.toNat - start.toNat + 15) / 16 < n) :
    flushLoop n start stop =
      some ((List.range ((stop.toNat - start.toNat + 15) / 16)).map fun k =>
        start + BitVec.ofNat 32 (16 * k)) := by
  induction n generalizing start with
  | zero => omega
  | succ n ih =>
      rw [flushLoop]
      by_cases hlt : start < stop
      · rw [BitVec.lt_def] at hlt
        have hnext : (start + 16#32).toNat = start.toNat + 16 :=
          add_ofNat_toNat (k := 16) (by omega)
        have hcount : (stop.toNat - start.toNat + 15) / 16 =
            (stop.toNat - (start + 16#32).toNat + 15) / 16 + 1 := by
          rw [hnext]
          omega
        rw [if_pos (BitVec.lt_def.mpr hlt), ih (by omega), hcount, List.range_succ_eq_map,
          List.map_cons, List.map_map, Option.map_some, Nat.mul_zero, BitVec.add_zero]
        congr 3
        funext k
        rw [Function.comp_apply, BitVec.add_assoc, Nat.mul_succ, Nat.add_comm (16 * k) 16,
          BitVec.ofNat_add]
      · have hzero : (stop.toNat - start.toNat + 15) / 16 = 0 := by
          rw [BitVec.lt_def] at hlt
          omega
        rw [if_neg hlt, hzero]
        rfl

/-- The address of a line in memory. -/
theorem lineStart_toNat (x : BitVec 32) :
    (x &&& 0xFFFFFFF0#32).toNat = x.toNat / 16 * 16 := by
  have hsplit : x &&& 0xFFFFFFF0#32 = x.extractLsb' 4 28 ++ 0#4 := by
    apply BitVec.eq_of_getLsbD_eq
    intro i hi
    have hbits : ∀ j : Fin 32, (0xFFFFFFF0#32).getLsbD j.val = decide (4 ≤ j.val) := by decide
    rw [BitVec.getLsbD_and, hbits ⟨i, hi⟩, BitVec.getLsbD_append]
    by_cases h4 : i < 4
    · simp [h4, Nat.not_le.mpr h4]
    · have hsum : 4 + (i - 4) = i := by omega
      have hlt : i - 4 < 28 := by omega
      simp [h4, Nat.not_lt.mp h4, hsum, hlt]
  have hx := x.isLt
  rw [hsplit, toNat_append_eq, BitVec.extractLsb'_toNat, Nat.shiftRight_eq_div_pow]
  simp only [BitVec.toNat_ofNat]
  omega

/-- A stored byte is held. -/
theorem holds_storeOp (x : BitVec 32) (b : BitVec 8) (m : CachedMemory) :
    (m.perform (storeOp x b)).Holds (busAddr x) b := by
  have hstore : (storeOp x b).store = true := rfl
  have haddr : (storeOp x b).addr = busAddr x := rfl
  have hdata : (storeOp x b).data = b.setWidth 32 := rfl
  have h := CachedMemory.holds_of_store (s := m) (a := busAddr x) hstore (by rw [haddr])
    (by rw [haddr]) ((covers_storeOp_iff ..).mpr rfl)
  rw [haddr, hdata, BitVec.sub_self, BitVec.toNat_zero, Nat.mul_zero,
    ← BitVec.setWidth_eq_extractLsb' (by decide),
    BitVec.setWidth_setWidth_of_le _ (by decide), BitVec.setWidth_eq] at h
  exact h

end Sumeru
