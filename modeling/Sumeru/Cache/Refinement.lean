import Sumeru.Cache.LoadStore
import Sumeru.Cache.Operations

/-!
# Sumeru - The data cache carries out whole operations

The RAMs of the data cache and the memory behind it, seen as a {lit}`CachedMemory`.  While
an operation is under way the line in its way is written back and its own line is read,
half-word by half-word; none of this changes what the operation comes to.  When the
execute stage goes on, cache and memory are those that the operations handed over so far
have left, each carried out as a whole.

Main results:

- Theorem {lit}`DataUnit.Tracks.step`: a cycle hands over an operation or changes nothing.
- Theorem {lit}`DataUnit.view_from`: the cache of a run is that of its operations.
-/

namespace Sumeru

namespace CachedMemory

variable {s : CachedMemory} {a x : BitVec 25} {l : BitVec 8} {ln : CacheLine} {op : MemOp}

/-! ## Operations that need another line -/

/-- A store that does not find its line, or a load that does not find all its bytes. -/
structure Misses (s : CachedMemory) (op : MemOp) : Prop where
  store : op.store = true → s.lineAt op.addr = none
  load : op.store = false → s.hits op = false

/-- The line of the operation is put into its empty place. -/
def refill (s : CachedMemory) (op : MemOp) : CachedMemory :=
  s.install op.addr
    (if op.store then storedLine op (emptyLine op.addr) else s.memLine op.addr)

/-- The operation comes to an eviction and a refill. -/
def Refills (s : CachedMemory) (op : MemOp) : Prop :=
  s.perform op = (s.evict (lineOf op.addr)).refill op

/-- A miss refills. -/
theorem Misses.refills (h : s.Misses op) : s.Refills op := by
  unfold Refills perform refill
  cases hst : op.store with
  | true => simp [h.store hst]
  | false => simp [h.load hst]

/-- Missing is a matter of the lines. -/
theorem Misses.congr {s' : CachedMemory} (h : s.Misses op) (hline : s'.line = s.line) :
    s'.Misses op := by
  constructor
  · intro hst
    rw [lineAt, hline]
    exact h.store hst
  · intro hst
    have hhits := h.load hst
    simp only [hits, cachedByte, lineAt, hline] at hhits ⊢
    exact hhits

/-- Evicting a clean line changes memory nowhere. -/
theorem evict_of_clean (h : ∀ a, lineOf a = l → s.dirtyAt a = false) :
    s.evict l = { s with line := Function.update s.line l none } := by
  have hmem : (s.evict l).mem = s.mem := by
    funext a
    by_cases hl : lineOf a = l
    · simp [evict, h a hl]
    · exact evict_mem_of_ne hl
  rw [← hmem]
  rfl

/-- No byte of a clean line is dirty. -/
theorem dirtyAt_of_line (h : s.line l = some ln) (hclean : ln.dirty = false) (a : BitVec 25)
    (ha : lineOf a = l) : s.dirtyAt a = false := by
  cases hat : s.lineAt a with
  | none => exact dirtyAt_of_absent hat
  | some ln' =>
      have hline := (lineAt_eq_some_iff.mp hat).1
      rw [ha, h] at hline
      rw [dirtyAt_of_lineAt hat, ← Option.some.inj hline]
      exact hclean

/-- A store into a line just taken over. -/
theorem refills_of_emptyLine (hstore : op.store = true)
    (h : s.line (lineOf op.addr) = some (emptyLine op.addr)) : s.Refills op := by
  have hat : s.lineAt op.addr = some (emptyLine op.addr) := lineAt_eq_some_iff.mpr ⟨h, rfl⟩
  rw [Refills, evict_of_clean (dirtyAt_of_line h rfl)]
  simp [perform, refill, install, hstore, hat]

/-- A load of a line just read. -/
theorem refills_of_memLine (hload : op.store = false) (hhit : s.hits op = true)
    (h : s.line (lineOf op.addr) = some (s.memLine op.addr)) : s.Refills op := by
  rw [Refills, evict_of_clean (dirtyAt_of_line h rfl)]
  have hline : Function.update s.line (lineOf op.addr) (some (s.memLine op.addr)) = s.line := by
    rw [← h]
    exact Function.update_eq_self ..
  have hmem : (CachedMemory.mk (Function.update s.line (lineOf op.addr) none) s.mem).memLine
      op.addr = s.memLine op.addr := rfl
  simp only [perform, refill, install, hload, hhit, hmem, Bool.false_eq_true, if_false, if_true,
    Function.update_idem, hline]

end CachedMemory

/-! ## Cache contents -/

/-- The byte of a lane, if it is valid. -/
def Lane.contents (x : Lane) : Option (BitVec 8) := if x.ena then some x.byte else none

/-- The lane at an offset of a line. -/
def laneAt (line : Fin 4 → Lanes) (o : BitVec 4) : Lane :=
  line (o.extractLsb' 2 2).toFin (o.extractLsb' 0 2).toFin

/-- Offsets and lanes name the same byte. -/
theorem laneAt_offsetOf (line : Fin 4 → Lanes) (a : BitVec 25) :
    laneAt line (offsetOf a) = laneIn line a := by
  have hw : ((offsetOf a).extractLsb' 2 2).toFin = wordOf a := by
    apply Fin.ext
    change ((offsetOf a).extractLsb' 2 2).toNat = _
    rw [BitVec.extractLsb'_toNat, offsetOf_toNat, wordOf_val, Nat.shiftRight_eq_div_pow]
    omega
  have hl : ((offsetOf a).extractLsb' 0 2).toFin = laneOf a := by
    apply Fin.ext
    change ((offsetOf a).extractLsb' 0 2).toNat = _
    rw [BitVec.extractLsb'_toNat, offsetOf_toNat, laneOf_val, Nat.shiftRight_eq_div_pow]
    omega
  rw [laneAt, laneIn, hw, hl]

namespace Dcache

variable {c c' : Dcache} {cells cells' : BitVec 24 → BitVec 16} {m : ByteMem} {a : BitVec 25}
  {l : BitVec 8} {op : MemOp} {v : BitVec 8}

/-- What the RAMs hold of a line. -/
def cacheLine (c : Dcache) (l : BitVec 8) : CacheLine where
  tag := (c.metaRam l).tag
  dirty := (c.metaRam l).dirty
  byte o := (laneAt (c.line l) o).contents

/-- A byte of a line in the abstract cache. -/
theorem cacheLine_byte (c : Dcache) (a : BitVec 25) :
    (c.cacheLine (lineOf a)).byte (offsetOf a) = (c.lane a).contents := by
  change (laneAt (c.line (lineOf a)) (offsetOf a)).contents = _
  rw [laneAt_offsetOf]
  rfl

/-- The cache over its memory. -/
def view (c : Dcache) (cells : BitVec 24 → BitVec 16) : CachedMemory where
  line l := if (c.metaRam l).valid then some (c.cacheLine l) else none
  mem := byteAt cells

/-- A line is present in the abstract cache if it is valid with the tag. -/
theorem view_lineAt_eq_some_iff {ln : CacheLine} : (c.view cells).lineAt a = some ln ↔
    (c.metaRam (lineOf a)).valid = true ∧ (c.metaRam (lineOf a)).tag = tagOf a ∧
      ln = c.cacheLine (lineOf a) := by
  rw [CachedMemory.lineAt_eq_some_iff, view]
  cases hv : (c.metaRam (lineOf a)).valid with
  | false => simp [hv]
  | true =>
      simp only [hv, if_true, Option.some.injEq, true_and]
      constructor
      · rintro ⟨rfl, ht⟩
        exact ⟨ht, rfl⟩
      · rintro ⟨ht, rfl⟩
        exact ⟨rfl, ht⟩

/-- A line is absent if it is invalid or has another tag. -/
theorem view_lineAt_eq_none_iff : (c.view cells).lineAt a = none ↔
    ¬ ((c.metaRam (lineOf a)).valid = true ∧ (c.metaRam (lineOf a)).tag = tagOf a) := by
  rw [Option.eq_none_iff_forall_ne_some]
  constructor
  · rintro h ⟨hv, ht⟩
    exact h _ (view_lineAt_eq_some_iff.mpr ⟨hv, ht, rfl⟩)
  · intro h ln hln
    obtain ⟨hv, ht, -⟩ := view_lineAt_eq_some_iff.mp hln
    exact h ⟨hv, ht⟩

/-- The bytes of the abstract cache. -/
theorem view_cachedByte_eq_some_iff :
    (c.view cells).cachedByte a = some v ↔ c.Cached a ∧ (c.lane a).byte = v := by
  rw [CachedMemory.cachedByte, Option.bind_eq_some_iff]
  constructor
  · rintro ⟨ln, hln, hv⟩
    obtain ⟨hval, htag, rfl⟩ := view_lineAt_eq_some_iff.mp hln
    rw [cacheLine_byte, Lane.contents] at hv
    split at hv
    next hena => exact ⟨⟨hval, htag, hena⟩, Option.some.inj hv⟩
    next => cases hv
  · rintro ⟨hc, hv⟩
    refine ⟨_, view_lineAt_eq_some_iff.mpr ⟨hc.valid, hc.tag, rfl⟩, ?_⟩
    rw [cacheLine_byte, Lane.contents, if_pos hc.ena, hv]

/-- The abstract cache has the bytes that the cache has. -/
theorem view_cachedByte_isSome_iff : ((c.view cells).cachedByte a).isSome = true ↔ c.Cached a := by
  rw [Option.isSome_iff_exists]
  constructor
  · rintro ⟨v, hv⟩
    exact (view_cachedByte_eq_some_iff.mp hv).1
  · intro hc
    exact ⟨_, view_cachedByte_eq_some_iff.mpr ⟨hc, rfl⟩⟩

/-- The abstract cache has no other bytes. -/
theorem view_cachedByte_eq_none_iff : (c.view cells).cachedByte a = none ↔ ¬ c.Cached a := by
  have hsome : ((c.view cells).cachedByte a).isSome = true ↔ c.Cached a := view_cachedByte_isSome_iff
  rw [← hsome]
  simp

/-- An eviction leaves in memory what the program sees. -/
theorem evict_view_mem (h : Coherent c cells m) (ha : lineOf a = l) :
    ((c.view cells).evict l).mem a = m a := by
  have hmem : (c.Cached a → (c.metaRam (lineOf a)).dirty = false) → byteAt cells a = m a :=
    h.memory a
  simp only [CachedMemory.evict, ha, true_and]
  split
  next hd =>
    -- a dirty line is present: its valid bytes count
    by_cases hc : c.Cached a
    · rw [CachedMemory.value_of_cached (view_cachedByte_eq_some_iff.mpr ⟨hc, rfl⟩)]
      exact h.cached a hc
    · have hnone : (c.view cells).cachedByte a = none := by
        rw [← Option.not_isSome_iff_eq_none, view_cachedByte_isSome_iff]
        exact hc
      rw [CachedMemory.value_of_uncached hnone]
      exact hmem fun hx => absurd hx hc
  next hd =>
    refine hmem fun hc => ?_
    have hat : (c.view cells).lineAt a = some (c.cacheLine (lineOf a)) :=
      view_lineAt_eq_some_iff.mpr ⟨hc.valid, hc.tag, rfl⟩
    rw [CachedMemory.dirtyAt_of_lineAt hat] at hd
    exact Bool.eq_false_iff.mpr hd

/-- Two caches that differ in one line and mean the same there. -/
theorem evict_view_eq (h : Coherent c cells m) (h' : Coherent c' cells' m)
    (honly : OnlyLine c c' l) (hcells : ∀ a, lineOf a ≠ l → byteAt cells' a = byteAt cells a) :
    (c'.view cells').evict l = (c.view cells).evict l := by
  have hline : ((c'.view cells').evict l).line = ((c.view cells).evict l).line := by
    funext l'
    by_cases hl : l' = l
    · rw [hl]
      simp only [CachedMemory.evict, Function.update_self]
    · simp only [CachedMemory.evict, Function.update_of_ne hl, view, cacheLine,
        honly.metaRam l' hl, honly.line l' hl]
  have hmem : ((c'.view cells').evict l).mem = ((c.view cells).evict l).mem := by
    funext a
    by_cases hl : lineOf a = l
    · rw [evict_view_mem h' hl, evict_view_mem h hl]
    · rw [CachedMemory.evict_mem_of_ne hl, CachedMemory.evict_mem_of_ne hl]
      exact hcells a hl
  calc (c'.view cells').evict l
      = ⟨((c'.view cells').evict l).line, ((c'.view cells').evict l).mem⟩ := rfl
    _ = ⟨((c.view cells).evict l).line, ((c.view cells).evict l).mem⟩ := by rw [hline, hmem]
    _ = (c.view cells).evict l := rfl

/-- The cache finds the bytes of an aligned load in its lanes. -/
theorem view_hits_iff (hal : op.Aligned) (hload : op.store = false) :
    (c.view cells).hits op = true ↔ c.Holds op := by
  have hlow := op.low_toNat
  have hal' := hal.low
  have hsize := MemOp.size_le_table _ _ hal'
  rw [hlow] at hsize
  change _ + op.size ≤ 4 at hsize
  have hpos : 0 < op.size := by
    have hne : op.lsOp ≠ 0b11#2 := by
      intro hx
      have := (hal.flush hx).1
      rw [hload] at this
      cases this
    have hcases : ∀ x : BitVec 2, x ≠ 0b11#2 → 0 < MemOp.sizeOf x := by decide
    exact hcases _ hne
  -- byte k of the access is lane `low + k` of its word
  have hbyte : ∀ k : Fin 4, k.val < op.size → ∃ b : Fin 4, b.val = op.addr.toNat % 4 + k.val ∧
      op.addr + BitVec.ofNat 25 k.val = laneAddr op.addr b := by
    intro k hk
    exact ⟨⟨op.addr.toNat % 4 + k.val, by omega⟩, rfl, (op.laneAddr_low rfl).symm⟩
  simp only [CachedMemory.hits, List.all_eq_true, List.mem_range, view_cachedByte_isSome_iff]
  constructor
  · intro h
    obtain ⟨b, -, hb⟩ := hbyte 0 hpos
    have h0 := h 0 hpos
    rw [show op.addr + BitVec.ofNat 25 0 = _ from hb, cached_laneAddr_iff] at h0
    refine ⟨h0.1, h0.2.1, fun b' hb' => ?_⟩
    obtain ⟨hge, hlt⟩ := (MemOp.byteena_iff hal b').mp hb'
    change _ < _ + op.size at hlt
    have hk := h (b'.val - op.addr.toNat % 4) (by omega)
    rw [← op.laneAddr_low (b := b') (by omega), cached_laneAddr_iff] at hk
    exact hk.2.2
  · intro h k hk
    obtain ⟨b, hval, hb⟩ := hbyte ⟨k, by omega⟩ hk
    rw [show op.addr + BitVec.ofNat 25 k = _ from hb, cached_laneAddr_iff]
    refine ⟨h.valid, h.tag, h.ena b ((MemOp.byteena_iff hal b).mpr ?_)⟩
    change op.addr.toNat % 4 ≤ b.val ∧ b.val < op.addr.toNat % 4 + op.size
    rw [hval]
    exact ⟨by omega, by simp only; omega⟩

/-- The line of {lit}`x` in the RAMs, byte by byte. -/
theorem cacheLine_eq {x : BitVec 25} {ln : CacheLine} (htag : (c.metaRam (lineOf x)).tag = ln.tag)
    (hdirty : (c.metaRam (lineOf x)).dirty = ln.dirty)
    (hbyte : ∀ a, lineOf a = lineOf x → tagOf a = tagOf x →
      (c.lane a).contents = ln.byte (offsetOf a)) : c.cacheLine (lineOf x) = ln := by
  obtain ⟨tag, dirty, byte⟩ := ln
  simp only [cacheLine, CacheLine.mk.injEq]
  refine ⟨htag, hdirty, ?_⟩
  funext o
  obtain ⟨hl, ht⟩ := sameLine_lineAddr x o
  have h := hbyte (lineAddr x o) hl ht
  rw [← cacheLine_byte, hl, offsetOf_lineAddr] at h
  exact h

/-- One line of the cache is replaced. -/
theorem view_install {x : BitVec 25} (honly : OnlyLine c c' (lineOf x))
    (hvalid : (c'.metaRam (lineOf x)).valid = true) :
    c'.view cells = (c.view cells).install x (c'.cacheLine (lineOf x)) := by
  have hline : (c'.view cells).line =
      Function.update (c.view cells).line (lineOf x) (some (c'.cacheLine (lineOf x))) := by
    funext l
    by_cases hl : l = lineOf x
    · rw [hl, Function.update_self]
      exact if_pos hvalid
    · rw [Function.update_of_ne hl]
      simp only [view, cacheLine, honly.metaRam l hl, honly.line l hl]
  rw [CachedMemory.install, ← hline]
  rfl

/-- A store is dirty if it has bytes. -/
theorem byteena_ne_table : ∀ lsOp low : BitVec 2, MemOp.lowAligned lsOp low = true →
    (dcacheByteena lsOp low != 0#4) = (MemOp.sizeOf lsOp != 0) := by
  decide

/-- A store into a line that is present. -/
theorem Stored.view (h : Stored c c' op) (hal : op.Aligned) (hstore : op.store = true) :
    c'.view cells = (c.view cells).perform op := by
  have hat : (c.view cells).lineAt op.addr = some (c.cacheLine (lineOf op.addr)) :=
    view_lineAt_eq_some_iff.mpr ⟨h.valid, h.tag, rfl⟩
  have hnew : c'.cacheLine (lineOf op.addr) =
      CachedMemory.storedLine op (c.cacheLine (lineOf op.addr)) := by
    refine cacheLine_eq ?_ ?_ fun a hl ht => ?_
    · rw [h.metaRam]
      exact h.tag.symm
    · rw [h.metaRam]
      change (_ || op.byteena != 0#4) = (_ || op.size != 0)
      rw [MemOp.byteena, byteena_ne_table _ _ hal.low]
      rfl
    · rw [CachedMemory.storedLine_byte hl ht]
      cases hc : op.covers a with
      | true =>
          rw [h.lane_of_touches (by rw [MemOp.touches_eq_covers hal, hc]), MemOp.laneByte_eq hal hc]
          rfl
      | false =>
          rw [h.lane_of_not_touches (by rw [MemOp.touches_eq_covers hal, hc]) fun _ => ht,
            ← cacheLine_byte, hl]
          rfl
  rw [view_install h.only (by rw [h.metaRam]), hnew]
  simp [CachedMemory.perform, hstore, hat]

end Dcache

/-! ## Operations under way -/

namespace DataUnit

variable (V : Megafunctions) {s s' : DataUnit} {m : ByteMem} {i : DataUnitInput}
  {c : CachedMemory}

/-- The cache of the unit over its memory. -/
def view (s : DataUnit) : CachedMemory := s.dcache.view s.chan.cells

/-- The cache as the operation under way will leave it. -/
def outcome (s : DataUnit) : CachedMemory :=
  if s.iexec.state = .lsWait ∧ s.dcache.writeStrobeR = s.iexec.dcacheWriteStrobeSave then
    s.view.perform s.iexec.memOp
  else s.view

/-- Outside of {lit}`LS_WAIT` nothing is left to do. -/
theorem outcome_of_not_waiting (h : s.iexec.state ≠ .lsWait) : s.outcome = s.view := by
  simp [outcome, h]

/-- A pending operation is still to be performed. -/
theorem Pending.outcome (hp : s.Pending m) : s.outcome = s.view.perform s.iexec.memOp := by
  simp [DataUnit.outcome, hp.issued.state, hp.strobe]

/-- An operation that has been carried out is not performed again. -/
theorem Written.outcome (h : s.Written m) : s.outcome = s.view := by
  simp [DataUnit.outcome, h.strobe]

/-- Unchanged RAMs and cells. -/
theorem view_congr (hm : s'.dcache.metaRam = s.dcache.metaRam)
    (hd : s'.dcache.dataRam = s.dcache.dataRam) (hc : s'.chan.cells = s.chan.cells) :
    s'.view = s.view := by
  have hline : ∀ l, s'.dcache.line l = s.dcache.line l := by
    intro l
    funext j
    simp only [Dcache.line, hd]
  simp only [view, Dcache.view, Dcache.cacheLine, hline, hm, hc]

/-- An edge that writes no RAM, with the channel at rest. -/
theorem view_step_of_quiet (ha : s.chan.strobe = s.dcache.mcOpStart) (hl : s.chan.left ≤ 1)
    (hm : (s.dcache.clk (s.dcacheIn i) s.chan.strobe (s.chan.dataOut i.float)).metaWren = false)
    (hd : ∀ j, (s.dcache.clk (s.dcacheIn i) s.chan.strobe
      (s.chan.dataOut i.float)).dataWren j = false) : (s.step V i).view = s.view := by
  obtain ⟨-, -, hcells⟩ := chan_step_of_answered V (i := i) ha hl
  obtain ⟨h1, h2⟩ := Dcache.clkN_quiet hm hd (s.step V i).iexec.dcacheAddr
  obtain ⟨h3, h4⟩ := s.dcache.clk_ram (s.dcacheIn i) s.chan.strobe (s.chan.dataOut i.float)
  refine view_congr ?_ ?_ hcells
  · rw [step_dcache, h1, h3]
  · rw [step_dcache, h2, h4]

/-- What an operation comes to does not change while its line is exchanged. -/
theorem Pending.outcome_eq (hp : s.Pending m) (hp' : s'.Pending m)
    (hop : s'.iexec.memOp = s.iexec.memOp)
    (honly : Dcache.OnlyLine s.dcache s'.dcache (lineOf s.iexec.memOp.addr))
    (hcells : ∀ a, lineOf a ≠ lineOf s.iexec.memOp.addr →
      byteAt s'.chan.cells a = byteAt s.chan.cells a)
    (h : s.view.Refills s.iexec.memOp) (h' : s'.view.Refills s.iexec.memOp) :
    s'.outcome = s.outcome := by
  have hevict : s'.view.evict (lineOf s.iexec.memOp.addr) =
      s.view.evict (lineOf s.iexec.memOp.addr) :=
    Dcache.evict_view_eq hp.coherent hp'.coherent honly hcells
  rw [hp'.outcome, hp.outcome, hop, h', h, hevict]

/-- An absent line is missed. -/
theorem Pending.misses_of_invalid (hp : s.Pending m) (hal : s.iexec.memOp.Aligned)
    (h : (s.dcache.metaRam (lineOf s.iexec.dcacheAddr)).valid = false) :
    s.view.Misses s.iexec.memOp := by
  rw [hp.issued.addr] at h
  constructor
  · intro _
    refine Dcache.view_lineAt_eq_none_iff.mpr fun hx => ?_
    rw [h] at hx
    cases hx.1
  · intro hload
    rw [← Bool.not_eq_true]
    intro hx
    have hv := ((Dcache.view_hits_iff hal hload).mp hx).valid
    rw [h] at hv
    cases hv

/-- A request that the cache does not serve at once is missed. -/
theorem Pending.misses (hp : s.Pending m) (hal : s.iexec.memOp.Aligned) (hmiss : ¬ s.dcache.Holds s.iexec.memOp)
    (hline : s.iexec.memOp.store = true → s.dcache.lineHit (s.dcacheIn i) = false) :
    s.view.Misses s.iexec.memOp := by
  constructor
  · intro hstore
    refine Dcache.view_lineAt_eq_none_iff.mpr fun hx => ?_
    have := hline hstore
    rw [(Dcache.lineHit_iff hp.addr_eq).mpr ⟨hx.2, hx.1⟩] at this
    cases this
  · intro hload
    rw [← Bool.not_eq_true]
    exact fun hx => hmiss ((Dcache.view_hits_iff hal hload).mp hx)

/-! ## Transitions -/

/-- The unit is on the way to {lit}`c`. -/
structure Tracks (s : DataUnit) (c : CachedMemory) : Prop where
  outcome : s.outcome = c
  misses : s.dcache.state ≠ .idle → s.view.Misses s.iexec.memOp

/-- An idle cache that shows the outcome tracks it. -/
theorem Tracks.of_idle (hi : s.dcache.state = .idle) (h : s.outcome = c) : s.Tracks c :=
  ⟨h, fun hx => absurd hi hx⟩

/-- The line of a pending operation is the only one that changes. -/
theorem Pending.onlyLine (hp : s.Pending m) (hw : Iexec.Waits s.iexec (s.step V i).iexec) :
    Dcache.OnlyLine s.dcache (s.step V i).dcache (lineOf s.iexec.memOp.addr) := by
  have honly := onlyLine_step V s i
  rw [hw.addr, hp.issued.addr] at honly
  exact honly

/-- An operation counts from the edge that hands it to the cache. -/
theorem Calm.tracks_step (h : s.Calm m) (ht : s.Tracks c) (i : DataUnitInput) :
    Tracks (s.step V i) (if s.iexec.state = .ls1 then c.perform s.iexec.memOp else c) := by
  have hclk := h.clk_eq i
  have hview : (s.step V i).view = s.view :=
    view_step_of_quiet V h.answered (by rw [h.left]; omega) (by rw [hclk]; rfl)
      (by rw [hclk]; intro j; rfl)
  have hc : s.view = c := by rw [← outcome_of_not_waiting h.state, ht.outcome]
  have hidle : (s.step V i).dcache.state = .idle := by
    rw [step_dcache, hclk]
    exact h.idle
  refine .of_idle hidle ?_
  by_cases hls : s.iexec.state = .ls1
  · -- the operation handed over is the one that waits now
    have hst : (s.step V i).iexec.state = .lsWait := Iexec.state_step_of_ls1 V hls _
    have hop : (s.step V i).iexec.memOp = s.iexec.memOp :=
      Iexec.memOp_step V (by simp [hls]) (by rw [h.busy, hls]; rfl) _
    have hsit := h.step V i
    rw [if_pos hls] at hsit ⊢
    rw [← hc, ← hview, ← hop]
    cases hsit with
    | calm h' => exact absurd hst h'.state
    | lookup m₀ hm hp' h' => exact hp'.outcome
    | storing m₀ hm hp' h' => exact hp'.outcome
    | loading m₀ hm hp' h' => exact hp'.outcome
    | loaded m₀ hm hp' h' => exact hp'.outcome
    | written h' =>
        -- the write strobe has not moved
        have hsave : (s.step V i).iexec.dcacheWriteStrobeSave = s.iexec.dcacheWriteStrobeSave :=
          Iexec.writeStrobeSave_step V (by simp [hls]) _
        refine absurd ?_ h'.strobe
        rw [hsave, ← h.strobe, step_dcache, hclk]
        rfl
  · rw [if_neg hls, ← hc, ← hview]
    apply outcome_of_not_waiting
    intro hst
    rcases (Iexec.state_step_ls V (e := s.iexec) (s.iexecInput i)).2 hst with hx | hx
    · exact hls hx
    · exact h.state hx

/-- A store into a line that is present. -/
theorem Lookup.view_write (hp : s.Pending m) (h : s.Lookup) (hal : s.iexec.memOp.Aligned)
    (hstore : s.iexec.memOp.store = true) (hhit : s.dcache.lineHit (s.dcacheIn i) = true) :
    (s.step V i).view = s.view.perform s.iexec.memOp := by
  obtain ⟨-, -, hcells⟩ := chan_step_of_answered V (i := i) h.answered h.left
  rw [view, hcells]
  exact (h.stored V hp hstore hhit).view hal hstore

/-- A line that has just been taken over is empty. -/
theorem Lookup.refills_takeOver (hp : s.Pending m) (h : s.Lookup)
    (hserve : s.dcache.serve (s.dcacheIn i) (s.chan.dataOut i.float) =
      s.dcache.initializeLine (s.chan.dataOut i.float))
    (hmiss : ¬ s.dcache.Holds s.iexec.memOp) (hstore : s.iexec.memOp.store = true) :
    (s.step V i).view.Refills s.iexec.memOp := by
  obtain ⟨hmeta, hlanes⟩ := h.ram_takeOver V hp hserve hmiss
  rw [hp.issued.addr] at hmeta hlanes
  apply CachedMemory.refills_of_emptyLine hstore
  have hnew : (s.step V i).dcache.cacheLine (lineOf s.iexec.memOp.addr) =
      CachedMemory.emptyLine s.iexec.memOp.addr := by
    refine Dcache.cacheLine_eq (by rw [hmeta]; rfl) (by rw [hmeta]; rfl) fun a hl _ => ?_
    rw [Dcache.lane, laneIn, hl, Lane.contents, hlanes]
    rfl
  rw [← hnew]
  exact if_pos (by rw [hmeta])

/-- What the cache makes of a request leaves its outcome. -/
theorem Lookup.tracks_step (hp : s.Pending m) (h : s.Lookup) (hal : s.iexec.memOp.Aligned)
    (ht : s.Tracks c) (i : DataUnitInput) : Tracks (s.step V i) c := by
  obtain ⟨-, -, hcells⟩ := chan_step_of_answered V (i := i) h.answered h.left
  have hother : ∀ a, lineOf a ≠ lineOf s.iexec.memOp.addr →
      byteAt (s.step V i).chan.cells a = byteAt s.chan.cells a := by
    intro a _
    rw [hcells]
  rw [← ht.outcome]
  cases hp.served i with
  | write hstore hhit =>
      obtain ⟨-, h'⟩ := h.step_write V hp hstore hhit
      refine .of_idle h'.idle ?_
      rw [h'.outcome, hp.outcome, h.view_write V hp hal hstore hhit]
  | hit hload hh =>
      have h' := h.step_hit V (i := i) hp hload hh
      have hclk := h.clk_hit hp hload hh i
      have hhit : s.view.hits s.iexec.memOp = true :=
        (Dcache.view_hits_iff hal hload).mpr hh
      refine .of_idle h'.idle ?_
      rw [outcome_of_not_waiting h'.state, hp.outcome,
        view_step_of_quiet V h.answered h.left (by rw [hclk]; rfl) (by rw [hclk]; intro j; rfl)]
      simp [CachedMemory.perform, hload, hhit]
  | evict hmiss hline hdirty hserve =>
      obtain ⟨hop, hp', h'⟩ := h.step_evict V (i := i) hp hserve hmiss hdirty
      have hview : (s.step V i).view = s.view :=
        view_step_of_quiet V h.answered h.left (by rw [h.clk_eq, hserve]; rfl)
          (by rw [h.clk_eq, hserve]; intro j; rfl)
      refine ⟨by rw [hp'.outcome, hp.outcome, hview, hop], fun _ => ?_⟩
      rw [hview, hop]
      exact hp.misses hal hmiss hline
  | load hmiss hload hclean hserve =>
      obtain ⟨hop, hp', h'⟩ := h.step_load V (i := i) hp hserve hmiss hload hclean
      have hmisses := hp'.misses_of_invalid (by rw [hop]; exact hal) h'.invalid
      have hold : s.view.Misses s.iexec.memOp :=
        hp.misses (i := i) hal hmiss fun hst => by rw [hload] at hst; cases hst
      rw [hop] at hmisses
      refine ⟨hp.outcome_eq hp' hop (hp.onlyLine V (hp.waits V (fun _ => hmiss) i)) hother
        hold.refills hmisses.refills, fun _ => ?_⟩
      rw [hop]
      exact hmisses
  | takeOver hmiss hstore hline hclean hserve =>
      obtain ⟨hop, hp', h', -⟩ := h.step_takeOver V (i := i) hp hserve hmiss hclean
      refine .of_idle h'.idle ?_
      exact hp.outcome_eq hp' hop (hp.onlyLine V (hp.waits V (fun _ => hmiss) i)) hother
        (hp.misses hal hmiss fun _ => hline).refills (h.refills_takeOver V hp hserve hmiss hstore)

/-- A cycle of a write-back moves at most one half-word of the line. -/
theorem Storing.cells_cases (hp : s.Pending m) (h : s.Storing) (i : DataUnitInput) :
    (s.step V i).chan.cells = s.chan.cells ∨
      ∃ k : Fin 8, (s.step V i).chan.cells = Function.update s.chan.cells
        (halfAddr (s.dcache.metaRam (lineOf s.iexec.dcacheAddr)).tag (lineOf s.iexec.dcacheAddr) k.val)
        (blend (Dcache.halfWord (s.dcache.line (lineOf s.iexec.dcacheAddr)) k).1
          (s.chan.cells (halfAddr (s.dcache.metaRam (lineOf s.iexec.dcacheAddr)).tag
            (lineOf s.iexec.dcacheAddr) k.val))
          (Dcache.halfWord (s.dcache.line (lineOf s.iexec.dcacheAddr)) k).2) := by
  rcases h.phase with ⟨hwt, hzero⟩ | ⟨hmv, -⟩
  · have hclk := h.clk_waiting hwt i
    rw [hzero] at hclk
    cases hr : i.ready with
    | false =>
        left
        rw [step_chan, hr, hwt.advance_not_ready.transfer, BurstChannel.advance_cells]
    | true =>
        have hmv : (s.chan.advance s.dcache.mcIn i.ready).Moving s.dcache.mcIn (0 : Fin 8).val := by
          rw [hr]
          exact hwt.advance_ready rfl
        exact .inr ⟨0, h.cells_step V hmv (by rintro x rfl; rw [hclk]; rfl)⟩
  · have hclk := h.clk_moving hp hmv i
    have hadv : (s.chan.advance s.dcache.mcIn i.ready).Moving s.dcache.mcIn
        (s.dcache.counter + 1).val := by
      rw [h.counter_succ]
      exact hmv.advance _
    exact .inr ⟨_, h.cells_step V hadv (by rintro x rfl; rw [hclk]; rfl)⟩

/-- It changes a byte of memory to what the cache holds of it, if at all. -/
theorem Storing.byteAt_step (hp : s.Pending m) (h : s.Storing) (i : DataUnitInput) (a : BitVec 25) :
    byteAt (s.step V i).chan.cells a = byteAt s.chan.cells a ∨
      (lineOf a = lineOf s.iexec.memOp.addr ∧ s.dcache.Cached a ∧
        byteAt (s.step V i).chan.cells a = (s.dcache.lane a).byte) := by
  rcases h.cells_cases V hp i with heq | ⟨k, hk⟩
  · rw [heq]
    exact .inl rfl
  · rw [hk, byteAt_update]
    split
    · rename_i hx
      obtain ⟨⟨htag, hl, -⟩, hena⟩ := hx
      have hlane : laneIn (s.dcache.line (lineOf s.iexec.dcacheAddr)) a = s.dcache.lane a := by
        rw [Dcache.lane, hl]
      rw [hlane] at hena ⊢
      refine .inr ⟨by rw [hl, hp.issued.addr], ⟨?_, ?_, hena⟩, rfl⟩
      · rw [hl]
        exact hp.coherent.dirty _ h.dirty
      · rw [hl]
        exact htag.symm
    · exact .inl rfl

/-- A write-back changes its own line in memory only. -/
theorem Storing.cells_other (hp : s.Pending m) (h : s.Storing) (i : DataUnitInput) (a : BitVec 25)
    (ha : lineOf a ≠ lineOf s.iexec.memOp.addr) :
    byteAt (s.step V i).chan.cells a = byteAt s.chan.cells a := by
  rcases h.byteAt_step V hp i a with heq | ⟨hl, -⟩
  · exact heq
  · exact absurd hl ha

/-- The write-back of a line leaves the outcome. -/
theorem Storing.tracks_step (hp : s.Pending m) (h : s.Storing) (hal : s.iexec.memOp.Aligned)
    (ht : s.Tracks c) (i : DataUnitInput) : Tracks (s.step V i) c := by
  have hold := ht.misses (by rw [h.state]; decide)
  have hw := h.waits V hp i
  -- the request stays pending, and its line is still missed
  have key : Pending (s.step V i) m → (s.step V i).view.Misses s.iexec.memOp →
      Tracks (s.step V i) c := by
    intro hp' hmisses
    refine ⟨?_, fun _ => by rw [hw.memOp]; exact hmisses⟩
    rw [← ht.outcome]
    exact hp.outcome_eq hp' hw.memOp (hp.onlyLine V hw) (h.cells_other V hp i) hold.refills
      hmisses.refills
  have hrests : (s.dcache.clk (s.dcacheIn i) s.chan.strobe (s.chan.dataOut i.float)).metaWren =
      false → (∀ j, (s.dcache.clk (s.dcacheIn i) s.chan.strobe
        (s.chan.dataOut i.float)).dataWren j = false) →
      (s.step V i).view.Misses s.iexec.memOp := by
    intro hm hd
    obtain ⟨h1, h2, -⟩ := coherent_step_of_quiet V hp.coherent hm hd
    refine hold.congr ?_
    have hline : ∀ l, (s.step V i).dcache.line l = s.dcache.line l := by
      intro l
      funext j
      simp only [Dcache.line, h2]
    simp only [view, Dcache.view, Dcache.cacheLine, hline, h1]
  rcases h.phase with ⟨hwt, hzero⟩ | ⟨hmv, hst⟩
  · have hclk := h.clk_waiting hwt i
    obtain ⟨-, hp', -⟩ := h.step_waiting V hp hwt hzero i
    exact key hp' (hrests (by rw [hclk]; rfl) (by rw [hclk]; intro j; rfl))
  · have hclk := h.clk_moving hp hmv i
    have hmoved := h.moved V hp hmv hst i
    by_cases h6 : s.dcache.counter = 6
    · -- the line is given up with its last half-word
      obtain ⟨hp', -, hmeta⟩ := h.step_last V hp hmv h6 hmoved
      refine key hp' ?_
      rw [← hw.memOp]
      apply hp'.misses_of_invalid (by rw [hw.memOp]; exact hal)
      rw [hw.addr, hmeta]
    · obtain ⟨hp', -⟩ := h.step_next V hp hmv h6 hmoved
      refine key hp' (hrests ?_ (by rw [hclk]; intro j; rfl))
      rw [hclk]
      exact beq_eq_false_iff_ne.mpr h6

/-- A line that has just been read is that of memory. -/
theorem Loading.refills_loaded (hp : s.Pending m) (h : s.Loading) (hal : s.iexec.memOp.Aligned)
    (harr : Loading.Arrived s)
    (h7 : s.dcache.counter = 7) (i : DataUnitInput) :
    (s.step V i).view.Refills s.iexec.memOp := by
  have hholds := (h.step_last V hp harr h7 i).holds
  rw [(h.waits V hp i).memOp] at hholds
  obtain ⟨hmeta, hlane⟩ := h.ram_loaded V hp harr h7 i
  rw [hp.issued.addr] at hmeta hlane
  refine CachedMemory.refills_of_memLine h.load ((Dcache.view_hits_iff hal h.load).mpr hholds) ?_
  have hnew : (s.step V i).dcache.cacheLine (lineOf s.iexec.memOp.addr) =
      (s.step V i).view.memLine s.iexec.memOp.addr := by
    refine Dcache.cacheLine_eq (by rw [hmeta]; rfl) (by rw [hmeta]; rfl) fun a hl ht => ?_
    rw [CachedMemory.memLine_byte hl ht, hlane a hl ht, ← h.cells_step V i]
    rfl
  rw [← hnew]
  exact if_pos (by rw [hmeta])

/-- The load of a line leaves the outcome. -/
theorem Loading.tracks_step (hp : s.Pending m) (h : s.Loading) (hal : s.iexec.memOp.Aligned)
    (ht : s.Tracks c) (i : DataUnitInput) : Tracks (s.step V i) c := by
  have hold := hp.misses_of_invalid hal h.invalid
  have hw := h.waits V hp i
  have honly := hp.onlyLine V hw
  have hcells := h.cells_step V i
  have hother : ∀ a, lineOf a ≠ lineOf s.iexec.memOp.addr →
      byteAt (s.step V i).chan.cells a = byteAt s.chan.cells a := by
    intro a _
    rw [hcells]
  have key : Pending (s.step V i) m → Loading (s.step V i) → Tracks (s.step V i) c := by
    intro hp' h'
    have hmisses := hp'.misses_of_invalid (by rw [hw.memOp]; exact hal) h'.invalid
    refine ⟨?_, fun _ => hmisses⟩
    rw [hw.memOp] at hmisses
    rw [← ht.outcome]
    exact hp.outcome_eq hp' hw.memOp honly hother hold.refills hmisses.refills
  rcases h.phase with ⟨hwt, hzero⟩ | ⟨hmv, hwords, hlast⟩
  · obtain ⟨-, hp', h', -⟩ := h.step_waiting V hp hwt hzero i
    exact key hp' h'
  · have harr : Loading.Arrived s := ⟨hmv, hwords, hlast⟩
    obtain ⟨-, hp', h'⟩ := h.step_moving V hp harr i
    split at h'
    · rename_i h7
      refine .of_idle h'.idle ?_
      rw [← ht.outcome]
      exact hp.outcome_eq hp' hw.memOp honly hother hold.refills (h.refills_loaded V hp hal harr h7 i)
    · exact key hp' h'.1

/-- A loaded line tracks its operation. -/
theorem Loaded.tracks_step (hp : s.Pending m) (h : s.Loaded) (hal : s.iexec.memOp.Aligned)
    (ht : s.Tracks c) (i : DataUnitInput) : Tracks (s.step V i) c := by
  have h' := h.step V hp i
  have hclk := h.clk_eq i
  have hhit : s.view.hits s.iexec.memOp = true :=
    (Dcache.view_hits_iff hal h.load).mpr h.holds
  refine .of_idle h'.idle ?_
  rw [outcome_of_not_waiting h'.state, ← ht.outcome, hp.outcome,
    view_step_of_quiet V h.answered h.left (by rw [hclk]; rfl) (by rw [hclk]; intro j; rfl)]
  simp [CachedMemory.perform, h.load, hhit]

/-- A store that has been carried out tracks its operation. -/
theorem Written.tracks_step (h : s.Written m) (ht : s.Tracks c) (i : DataUnitInput) :
    Tracks (s.step V i) c := by
  have h' := h.step V i
  have hclk := h.clk_eq i
  refine .of_idle h'.idle ?_
  rw [outcome_of_not_waiting h'.state, ← ht.outcome, h.outcome]
  exact view_step_of_quiet V h.answered (by rw [h.left]; omega) (by rw [hclk]; rfl)
    (by rw [hclk]; intro j; rfl)

/-- A cycle hands an operation over or leaves the outcome. -/
theorem Tracks.step (ht : s.Tracks c) (h : s.Situation m)
    (hal : s.iexec.state = .lsWait → s.iexec.memOp.Aligned) (i : DataUnitInput) :
    Tracks (s.step V i) (if s.iexec.state = .ls1 then c.perform s.iexec.memOp else c) := by
  have hwait : s.iexec.state = .lsWait → ¬ s.iexec.state = .ls1 := by
    intro hst
    rw [hst]
    decide
  cases h with
  | calm h => exact h.tracks_step V ht i
  | lookup m₀ hm hp h =>
      rw [if_neg (hwait hp.issued.state)]
      exact h.tracks_step V hp (hal hp.issued.state) ht i
  | storing m₀ hm hp h =>
      rw [if_neg (hwait hp.issued.state)]
      exact h.tracks_step V hp (hal hp.issued.state) ht i
  | loading m₀ hm hp h =>
      rw [if_neg (hwait hp.issued.state)]
      exact h.tracks_step V hp (hal hp.issued.state) ht i
  | loaded m₀ hm hp h =>
      rw [if_neg (hwait hp.issued.state)]
      exact h.tracks_step V hp (hal hp.issued.state) ht i
  | written h =>
      rw [if_neg (hwait h.issued.state)]
      exact h.tracks_step V ht i

/-! ## Runs -/

variable {mem : BitVec 24 → BitVec 16} {inp : ℕ → DataUnitInput} {t u : ℕ}

/-- The operations handed to the cache at the edges from {lit}`t` on and before {lit}`u`. -/
def operations (mem : BitVec 24 → BitVec 16) (inp : ℕ → DataUnitInput) (t u : ℕ) : List MemOp :=
  ((List.range' t (u - t)).filter fun k => (run V mem inp k).iexec.state = .ls1).map
    fun k => (run V mem inp k).iexec.memOp

/-- No cycles, no operations. -/
theorem operations_self : operations V mem inp t t = [] := by
  rw [operations, Nat.sub_self]
  rfl

/-- Operations are handed over in {lit}`LS_1`. -/
theorem operations_succ (htu : t ≤ u) : operations V mem inp t (u + 1) =
    operations V mem inp t u ++
      if (run V mem inp u).iexec.state = .ls1 then [(run V mem inp u).iexec.memOp] else [] := by
  have hrange : List.range' t (u + 1 - t) = List.range' t (u - t) ++ [u] := by
    rw [Nat.succ_sub htu, List.range'_1_concat, Nat.add_sub_cancel' htu]
  rw [operations, operations, hrange, List.filter_append, List.map_append]
  congr 1
  by_cases hls : (run V mem inp u).iexec.state = .ls1
  · simp [hls]
  · simp [hls]

/-- From an edge without an operation under way on, the unit is on the way to what the
operations handed over since then leave. -/
theorem tracks_from (htu : t ≤ u) (ht : (run V mem inp t).iexec.state ≠ .lsWait)
    (hal : ∀ k, t ≤ k → k < u → (run V mem inp k).iexec.state = .ls1 →
      (run V mem inp k).iexec.memOp.Aligned) :
    (run V mem inp u).Tracks
      ((operations V mem inp t u).foldl CachedMemory.perform (run V mem inp t).view) := by
  induction u, htu using Nat.le_induction with
  | base =>
      rw [operations_self]
      refine .of_idle ?_ (outcome_of_not_waiting ht)
      exact ((situation_run V t).calm_of_not_waiting ht).idle
  | succ u htu ih =>
      have halu : ∀ k, t ≤ k → k < u → (run V mem inp k).iexec.state = .ls1 →
          (run V mem inp k).iexec.memOp.Aligned := fun k h1 h2 => hal k h1 (by omega)
      have hstep := (ih halu).step V (situation_run V u) (memOp_of_waiting V htu ht halu) (inp u)
      rw [operations_succ V htu, List.foldl_append]
      by_cases hls : (run V mem inp u).iexec.state = .ls1
      · rw [if_pos hls] at hstep ⊢
        exact hstep
      · rw [if_neg hls] at hstep ⊢
        exact hstep

/-- The cache and memory after a number of operations. -/
theorem view_from (htu : t ≤ u) (ht : (run V mem inp t).iexec.state ≠ .lsWait)
    (hu : (run V mem inp u).iexec.state ≠ .lsWait)
    (hal : ∀ k, t ≤ k → k < u → (run V mem inp k).iexec.state = .ls1 →
      (run V mem inp k).iexec.memOp.Aligned) :
    (run V mem inp u).view =
      (operations V mem inp t u).foldl CachedMemory.perform (run V mem inp t).view := by
  rw [← outcome_of_not_waiting hu]
  exact (tracks_from V htu ht hal).outcome

end DataUnit

end Sumeru
