import Sumeru.Cache.Refinement
import Sumeru.Cpu.Idecode

/-!
# Sumeru - Flushing a range of the data cache

{lit}`flush_dcache_range` stores no bytes to another address of the line index of each line of
a range.  Any run of the execute stage with its data cache may come before: lines of the
range can be clean, dirty, valid in part or absent, and so can the lines that the flushes
name.

Main results:

- Theorem {lit}`DataUnit.Situation.cached_of_writesByte`: the cache writes back nothing but
  bytes it holds.
- Theorem {lit}`DataUnit.cached_step_of_flush`: a flush adds no byte to the cache.
- Theorem {lit}`DataUnit.uncached_of_flushed`: the bytes of a flushed line are in memory only.
- Theorem {lit}`flush_dcache_range_flushes`: what holds after the flush of a range.
-/

namespace Sumeru

/-! ## The flush instruction -/

/-- The operation is the flush of the line of {lit}`x`. -/
structure MemOp.Flushes (op : MemOp) (x : BitVec 32) : Prop where
  store : op.store = true
  lsOp : op.lsOp = 0b11#2
  addr : op.addr = (flushOp x).addr

namespace MemOp.Flushes

variable {op : MemOp} {x : BitVec 32}

/-- A flush covers nothing. -/
theorem covers (h : op.Flushes x) (a : BitVec 25) : op.covers a = false := by
  rw [MemOp.covers, MemOp.size, h.lsOp, decide_eq_false_iff_not]
  exact Nat.not_lt_zero _

/-- A flush is aligned. -/
theorem aligned (h : op.Flushes x) : op.Aligned := by
  have haddr : op.addr.toNat % 4 = 0 := by
    have hle := Nat.mod_le (x ^^^ 0x10000#32).toNat 16
    rw [h.addr, flushOp, busAddr, BitVec.toNat_setWidth, lineStart_toNat]
    omega
  refine ⟨fun hop => ?_, fun hop => ?_, fun _ => ⟨h.store, haddr⟩⟩
  all_goals
    rw [h.lsOp] at hop
    cases hop

/-- A flush touches nothing. -/
theorem touches (h : op.Flushes x) (a : BitVec 25) : op.touches a = false := by
  rw [MemOp.touches_eq_covers h.aligned, h.covers]

end MemOp.Flushes

/-- {lit}`.word 0x0007B023` with the address in {lit}`a5`, as {lit}`flush_dcache_line` has it. -/
theorem Iexec.flushes_of_accepts (V : Megafunctions) {e : Iexec} {i : IexecInput} {pc x : BitVec 32}
    (hi : i.iexecIn = Idecode.iexecIn ⟨pc, 0x0007B023#32, true, false⟩)
    (hacc : e.accepts i = true)
    (ha5 : e.operand V i 15#5 = (x ^^^ 0x10000#32) &&& 0xFFFFFFF0#32) :
    (e.step V i).state = .ls1 ∧ (e.step V i).memOp.Flushes x := by
  have hrs1 : (Idecode.iexecIn ⟨pc, 0x0007B023#32, true, false⟩).rs1 = 15#5 := by
    simp only [Idecode.iexecIn]
    decide
  have hcmd : (Idecode.iexecIn ⟨pc, 0x0007B023#32, true, false⟩).cmd = .store := by
    simp only [Idecode.iexecIn]
    decide
  have huse : (Idecode.iexecIn ⟨pc, 0x0007B023#32, true, false⟩).cmdUseReg = false := by
    simp only [Idecode.iexecIn]
    decide
  have hop : (Idecode.iexecIn ⟨pc, 0x0007B023#32, true, false⟩).cmdOp = cmdAluOpAdd := by
    simp only [Idecode.iexecIn]
    decide
  have himm : (Idecode.iexecIn ⟨pc, 0x0007B023#32, true, false⟩).imm = 0#32 := by
    have hclass : instOpcode 0x0007B023#32 = opTypeS := by decide
    simp [Idecode.iexecIn, decodeImm, hclass, opTypeS, opTypeB, opTypeJal, opTypeULui,
      opTypeUAuipc, opTypeR, opTypeI, opTypeJalr, opTypeL]
  have hrd : (Idecode.iexecIn ⟨pc, 0x0007B023#32, true, false⟩).rd = 3#5 := by
    simp only [Idecode.iexecIn]
    decide
  have hstep : (e.step V i).state = acceptState i.iexecIn ∧
      (e.step V i).cmdResultMux =
        (if i.iexecIn.cmd = .muldiv ∧ i.iexecIn.cmdOp.getLsbD 2 = true then .store
          else i.iexecIn.cmd) ∧
      (e.step V i).lsOp =
        (if i.iexecIn.cmd = .store then i.iexecIn.rd.extractLsb' 0 2
          else if i.iexecIn.cmd = .load then i.iexecIn.rs2.extractLsb' 0 2 else e.lsOp) ∧
      (e.step V i).aluResult = cpuAluResult (e.operand V i i.iexecIn.rs1)
        (if i.iexecIn.cmdUseReg = false then i.iexecIn.imm else e.operand V i i.iexecIn.rs2)
        i.iexecIn.cmdOp := by
    simp only [Iexec.step, mainProcess_of_accepts V hacc]
    exact ⟨rfl, rfl, rfl, rfl⟩
  rw [hi] at hstep
  obtain ⟨hstate, hmux, hls, halu⟩ := hstep
  rw [hcmd] at hmux hls
  rw [hrs1, huse, himm, hop, ha5] at halu
  refine ⟨by rw [hstate, acceptState, hcmd], ?_, ?_, ?_⟩
  · change ((e.step V i).cmdResultMux == .store) = true
    rw [hmux]
    rfl
  · change (e.step V i).lsOp = _
    rw [hls, hrd, if_pos rfl]
    decide
  · change (e.step V i).aluResult.extractLsb' 0 25 = _
    rw [halu]
    change BitVec.extractLsb' 0 25 (_ + 0#32) = _
    rw [BitVec.add_zero, ← BitVec.setWidth_eq_extractLsb' (by decide)]
    rfl

namespace DataUnit

variable (V : Megafunctions) {s : DataUnit} {m : ByteMem} {i : DataUnitInput} {a : BitVec 25}

/-! ## What the cache writes back -/

/-- In the cycle after the edge the channel stores byte {lit}`a`. -/
structure WritesByte (s : DataUnit) (i : DataUnitInput) (a : BitVec 25) : Prop where
  left : (s.clk V i).chan.left ≠ 0
  wren : (s.clk V i).chan.wren = true
  cell : (s.clk V i).chan.cell = a.extractLsb' 1 24
  unmasked : (s.clk V i).dcache.opDqm.getLsbD (a.toNat % 2) = false

/-- An answered request has at most its last half-word under way. -/
theorem not_writesByte_of_answered (ha : s.chan.strobe = s.dcache.mcOpStart) (hl : s.chan.left ≤ 1) :
    ¬ s.WritesByte V i a := by
  intro h
  have hadv : (s.clk V i).chan.left = s.chan.left - 1 := by
    change (s.chan.advance s.dcache.mcIn i.ready).left = _
    rw [BurstChannel.advance_answered ha]
  have := h.left
  omega

/-- The half-word that a write-back moves has the mask of the line. -/
theorem Storing.cached_of_moving (hp : s.Pending m) (h : s.Storing) {k : Fin 8}
    (hmv : (s.chan.advance s.dcache.mcIn i.ready).Moving s.dcache.mcIn k.val)
    (hdqm : (s.clk V i).dcache.opDqm =
      (Dcache.halfWord (s.dcache.line (lineOf s.iexec.dcacheAddr)) k).1)
    (hw : s.WritesByte V i a) : s.dcache.Cached a := by
  have hcell : a.extractLsb' 1 24 =
      halfAddr (s.dcache.metaRam (lineOf s.iexec.dcacheAddr)).tag (lineOf s.iexec.dcacheAddr) k.val := by
    rw [← hw.cell, show (s.clk V i).chan.cell = _ from hmv.cell,
      show s.dcache.mcIn.opAddr = _ from h.opAddr, halfAddr_add]
  obtain ⟨htag, hline, hhalf⟩ := (extract_eq_halfAddr_iff a _ _ _).mp hcell
  have hmask := (halfWord_byte (s.dcache.line (lineOf s.iexec.dcacheAddr)) a).1
  rw [hhalf, ← hdqm, hw.unmasked] at hmask
  refine ⟨?_, ?_, ?_⟩
  · rw [hline]
    exact hp.coherent.dirty _ h.dirty
  · rw [hline]
    exact htag.symm
  · rw [Dcache.lane, hline]
    simpa using hmask.symm

/-- A write-back writes bytes of its line. -/
theorem Storing.cached_of_writesByte (hp : s.Pending m) (h : s.Storing) (hw : s.WritesByte V i a) :
    s.dcache.Cached a := by
  rcases h.phase with ⟨hwt, hzero⟩ | ⟨hmv, -⟩
  · cases hr : i.ready with
    | false =>
        have hleft : (s.clk V i).chan.left = 0 := by
          change (s.chan.advance s.dcache.mcIn i.ready).left = 0
          rw [hr]
          exact hwt.advance_not_ready.left
        exact absurd hleft hw.left
    | true =>
        refine h.cached_of_moving V hp (k := 0) (by rw [hr]; exact hwt.advance_ready rfl) ?_ hw
        change (s.dcache.clk (s.dcacheIn i) s.chan.strobe (s.chan.dataOut i.float)).opDqm = _
        rw [h.clk_waiting hwt, hzero]
        rfl
  · refine h.cached_of_moving V hp (k := s.dcache.counter + 1) ?_ ?_ hw
    · rw [h.counter_succ]
      exact hmv.advance _
    · change (s.dcache.clk (s.dcacheIn i) s.chan.strobe (s.chan.dataOut i.float)).opDqm = _
      rw [h.clk_moving hp hmv]
      rfl

/-- The cache writes back nothing but bytes it holds. -/
theorem Situation.cached_of_writesByte (h : s.Situation m) (hw : s.WritesByte V i a) :
    s.dcache.Cached a := by
  cases h with
  | calm h =>
      exact absurd hw (not_writesByte_of_answered V h.answered (by rw [h.left]; omega))
  | lookup m₀ hm hp h => exact absurd hw (not_writesByte_of_answered V h.answered h.left)
  | storing m₀ hm hp h => exact h.cached_of_writesByte V hp hw
  | loading m₀ hm hp h =>
      -- the burst of a load does not write
      have hread : (s.clk V i).chan.left ≠ 0 → (s.clk V i).chan.wren = false := by
        intro hleft
        change (s.chan.advance s.dcache.mcIn i.ready).wren = false
        change (s.chan.advance s.dcache.mcIn i.ready).left ≠ 0 at hleft
        rcases h.phase with ⟨hwt, -⟩ | ⟨hmv, -⟩
        · cases hr : i.ready with
          | false =>
              rw [hr] at hleft
              exact absurd hwt.advance_not_ready.left hleft
          | true => exact (hwt.advance_ready rfl).wren.trans h.opWren
        · exact (hmv.advance _).wren.trans h.opWren
      have := hread hw.left
      rw [hw.wren] at this
      cases this
  | loaded m₀ hm hp h => exact absurd hw (not_writesByte_of_answered V h.answered h.left)
  | written h =>
      exact absurd hw (not_writesByte_of_answered V h.answered (by rw [h.left]; omega))

/-! ## A flush under way -/

/-- Cycles that leave the RAMs alone. -/
theorem cached_step_of_quiet (hm : (s.step V i).dcache.metaRam = s.dcache.metaRam)
    (hd : (s.step V i).dcache.dataRam = s.dcache.dataRam)
    (hc : (s.step V i).dcache.Cached a) : s.dcache.Cached a := by
  have hlane : (s.step V i).dcache.lane a = s.dcache.lane a := by
    change (s.step V i).dcache.dataRam _ _ _ = s.dcache.dataRam _ _ _
    rw [hd]
  obtain ⟨h1, h2, h3⟩ := hc
  rw [hm] at h1 h2
  rw [hlane] at h3
  exact ⟨h1, h2, h3⟩

/-- A write-back adds nothing to the cache. -/
theorem Storing.cached_step (hp : s.Pending m) (h : s.Storing)
    (hc : (s.step V i).dcache.Cached a) : s.dcache.Cached a := by
  rcases h.phase with ⟨hwt, -⟩ | ⟨hmv, hst⟩
  · have hclk := h.clk_waiting hwt i
    obtain ⟨hm, hd, -⟩ := coherent_step_of_quiet V (i := i) hp.coherent
      (by rw [hclk]; rfl) (by rw [hclk]; intro j; rfl)
    exact cached_step_of_quiet V hm hd hc
  · by_cases hl : lineOf a = lineOf s.iexec.dcacheAddr
    · by_cases h6 : s.dcache.counter = 6
      · -- the line has just been given up
        have hmeta := (h.step_last V hp hmv h6 (h.moved V hp hmv hst i)).2.2
        have hvalid := hc.valid
        rw [hl, hmeta] at hvalid
        cases hvalid
      · have hclk := h.clk_moving hp hmv i
        obtain ⟨hm, hd, -⟩ := coherent_step_of_quiet V (i := i) hp.coherent
          (by rw [hclk]; exact beq_eq_false_iff_ne.mpr h6) (by rw [hclk]; intro j; rfl)
        exact cached_step_of_quiet V hm hd hc
    · have honly := hp.onlyLine V (h.waits V hp i)
      rw [← hp.issued.addr] at honly
      exact (honly.cached_iff hl).mp hc

/-- Looking up the line of a flush adds nothing to the cache. -/
theorem Lookup.cached_step_of_flush (hp : s.Pending m) (h : s.Lookup) {x : BitVec 32}
    (hf : s.iexec.memOp.Flushes x) (hc : (s.step V i).dcache.Cached a) : s.dcache.Cached a := by
  cases hp.served i with
  | write hstore hhit =>
      exact ((h.stored V hp hstore hhit).cached_iff (hf.touches a)).mp hc
  | hit hload hh =>
      rw [hf.store] at hload
      cases hload
  | evict hmiss hline hdirty hserve =>
      have hclk := (h.clk_eq i).trans hserve
      obtain ⟨hm, hd, -⟩ := coherent_step_of_quiet V (i := i) hp.coherent
        (by rw [hclk]; rfl) (by rw [hclk]; intro j; rfl)
      exact cached_step_of_quiet V hm hd hc
  | load hmiss hload hclean hserve =>
      rw [hf.store] at hload
      cases hload
  | takeOver hmiss hstore hline hclean hserve =>
      have honly := hp.onlyLine V (hp.waits V (fun _ => hmiss) i)
      rw [← hp.issued.addr] at honly
      by_cases hl : lineOf a = lineOf s.iexec.dcacheAddr
      · have hena := hc.ena
        rw [Dcache.lane, laneIn, hl, (h.ram_takeOver V hp hserve hmiss).2] at hena
        cases hena
      · exact (honly.cached_iff hl).mp hc

/-- A flush adds no byte to the cache. -/
theorem cached_step_of_flush (h : s.Situation m)
    (hf : s.iexec.state = .lsWait → ∃ x, s.iexec.memOp.Flushes x)
    (hc : (s.step V i).dcache.Cached a) : s.dcache.Cached a := by
  cases h with
  | calm h =>
      have hclk := h.clk_eq i
      obtain ⟨hm, hd, -⟩ := coherent_step_of_quiet V (i := i) h.coherent
        (by rw [hclk]; rfl) (by rw [hclk]; intro j; rfl)
      exact cached_step_of_quiet V hm hd hc
  | lookup m₀ hm hp h =>
      obtain ⟨x, hx⟩ := hf hp.issued.state
      exact h.cached_step_of_flush V hp hx hc
  | storing m₀ hm hp h => exact h.cached_step V hp hc
  | loading m₀ hm hp h =>
      obtain ⟨x, hx⟩ := hf hp.issued.state
      have := h.load
      rw [hx.store] at this
      cases this
  | loaded m₀ hm hp h =>
      obtain ⟨x, hx⟩ := hf hp.issued.state
      have := h.load
      rw [hx.store] at this
      cases this
  | written h =>
      have hclk := h.clk_eq i
      obtain ⟨hm, hd, -⟩ := coherent_step_of_quiet V (i := i) h.coherent
        (by rw [hclk]; rfl) (by rw [hclk]; intro j; rfl)
      exact cached_step_of_quiet V hm hd hc

/-! ## Runs -/

section Runs

variable {mem : BitVec 24 → BitVec 16} {inp : ℕ → DataUnitInput} {t u : ℕ}

/-- A store with the lane of byte {lit}`a` enabled is handed to the cache. -/
def StoresLane (s : DataUnit) (a : BitVec 25) : Prop :=
  s.iexec.state = .ls1 ∧ s.iexec.memOp.store = true ∧ s.iexec.memOp.touches a = true

/-- {lit}`x` is what the last store before edge {lit}`t` put on the lane of byte {lit}`a`, or the
initial byte if there is none.  Aligned or not, a store writes the lanes it enables. -/
def LastStored (mem : BitVec 24 → BitVec 16) (inp : ℕ → DataUnitInput) (t : ℕ) (a : BitVec 25)
    (x : BitVec 8) : Prop :=
  (∃ u, u < t ∧ (run V mem inp u).StoresLane a ∧
      (∀ v, u < v → v < t → ¬ (run V mem inp v).StoresLane a) ∧
      x = (run V mem inp u).iexec.memOp.laneByte a) ∨
    ((∀ u, u < t → ¬ (run V mem inp u).StoresLane a) ∧ x = byteAt mem a)

/-- Memory stays where nothing is stored. -/
theorem laneMem_succ_of_not_storesLane (h : ¬ (run V mem inp t).StoresLane a) :
    laneMem V mem inp (t + 1) a = laneMem V mem inp t a := by
  rw [laneMem]
  split
  · rename_i hls
    rw [MemOp.write, if_neg fun hx => h ⟨hls, hx⟩]
  · rfl

/-- The memory of the lanes holds what was stored last. -/
theorem lastStored_laneMem (t : ℕ) (a : BitVec 25) :
    LastStored V mem inp t a (laneMem V mem inp t a) := by
  refine Clocked.eq_last_update (m := fun t => laneMem V mem inp t a)
    (P := fun t => (run V mem inp t).StoresLane a) (fun t hs => ?_)
    (fun t hs => laneMem_succ_of_not_storesLane V hs) t
  rw [laneMem, if_pos hs.1, MemOp.write, if_pos hs.2]

/-- Without an operation under way the cache over memory is what the stores have left. -/
theorem holds_view (ht : (run V mem inp t).iexec.state ≠ .lsWait) (a : BitVec 25) :
    (run V mem inp t).view.Holds a (laneMem V mem inp t a) := by
  have hcoh := ((situation_run V t).calm_of_not_waiting ht).coherent
  constructor
  · cases hc : (run V mem inp t).view.cachedByte a with
    | some x =>
        obtain ⟨hcached, hx⟩ := Dcache.view_cachedByte_eq_some_iff.mp hc
        rw [CachedMemory.value_of_cached hc, ← hx]
        exact hcoh.cached a hcached
    | none =>
        rw [CachedMemory.value_of_uncached hc]
        refine hcoh.memory a fun hcached => ?_
        exact absurd hcached (Dcache.view_cachedByte_eq_none_iff.mp hc)
  · intro hclean
    refine hcoh.memory a fun hcached => ?_
    have hat : (run V mem inp t).view.lineAt a =
        some ((run V mem inp t).dcache.cacheLine (lineOf a)) :=
      Dcache.view_lineAt_eq_some_iff.mpr ⟨hcached.valid, hcached.tag, rfl⟩
    rw [show (run V mem inp t).view.dirtyAt a = _ from CachedMemory.dirtyAt_of_lineAt hat] at hclean
    exact hclean

/-- Memory keeps a byte that it shares with the program unless a store to it waits. -/
theorem Situation.byteAt_step (h : s.Situation m) (i : DataUnitInput)
    (hno : s.iexec.state = .lsWait → ¬ (s.iexec.memOp.store = true ∧ s.iexec.memOp.touches a = true))
    (hmem : byteAt s.chan.cells a = m a) : byteAt (s.step V i).chan.cells a = m a := by
  cases h with
  | calm h => rw [(chan_step_of_answered V h.answered (by rw [h.left]; omega)).2.2, hmem]
  | lookup m₀ hm hp h => rw [(chan_step_of_answered V h.answered h.left).2.2, hmem]
  | storing m₀ hm hp h =>
      rcases h.byteAt_step V hp i a with heq | ⟨-, hc, hbyte⟩
      · rw [heq, hmem]
      · rw [hbyte, hp.coherent.cached a hc, hm, MemOp.write, if_neg (hno hp.issued.state)]
  | loading m₀ hm hp h => rw [h.cells_step V i, hmem]
  | loaded m₀ hm hp h => rw [(chan_step_of_answered V h.answered h.left).2.2, hmem]
  | written h => rw [(chan_step_of_answered V h.answered (by rw [h.left]; omega)).2.2, hmem]

/-- Memory keeps what it shares with the program until the next store. -/
theorem byteAt_of_not_storesLane (htu : t ≤ u) (ht : (run V mem inp t).iexec.state ≠ .lsWait)
    (hmem : byteAt (run V mem inp t).chan.cells a = laneMem V mem inp t a)
    (hno : ∀ k, t ≤ k → k < u → ¬ (run V mem inp k).StoresLane a) :
    byteAt (run V mem inp u).chan.cells a = laneMem V mem inp u a := by
  induction u, htu using Nat.le_induction with
  | base => exact hmem
  | succ u htu ih =>
      have hu := ih fun k h1 h2 => hno k h1 (by omega)
      rw [laneMem_succ_of_not_storesLane V (hno u htu (by omega))]
      refine (situation_run V u).byteAt_step V (inp u) ?_ hu
      exact memOp_of_waiting V (P := fun op => ¬ (op.store = true ∧ op.touches a = true)) htu ht
        fun j h1 h2 hls hx => hno j h1 (by omega) ⟨hls, hx⟩

/-! ### The flushes of a range -/

/-- Between the edges {lit}`t` and {lit}`u` the lines of {lit}`xs` are flushed, and there is no
other access. -/
structure Flushing (mem : BitVec 24 → BitVec 16) (inp : ℕ → DataUnitInput) (xs : List (BitVec 32))
    (t u : ℕ) : Prop where
  le : t ≤ u
  before : (run V mem inp t).iexec.state ≠ .lsWait
  after : (run V mem inp u).iexec.state ≠ .lsWait
  flushes : List.Forall₂ MemOp.Flushes (operations V mem inp t u) xs

variable {V} {xs : List (BitVec 32)}

/-- Any other operation between the two edges would be in the list. -/
theorem Flushing.exists_flushes (h : Flushing V mem inp xs t u) (k : ℕ) (htk : t ≤ k) (hku : k < u)
    (hls : (run V mem inp k).iexec.state = .ls1) :
    ∃ x, (run V mem inp k).iexec.memOp.Flushes x := by
  have hmem : (run V mem inp k).iexec.memOp ∈ operations V mem inp t u := by
    rw [operations]
    refine List.mem_map.mpr
      ⟨k, List.mem_filter.mpr ⟨List.mem_range'_1.mpr ⟨htk, by omega⟩, ?_⟩, rfl⟩
    rw [decide_eq_true_eq]
    exact hls
  have hall := h.flushes
  clear h
  generalize operations V mem inp t u = ops at hall hmem
  induction hall with
  | nil => cases hmem
  | cons hx _ ih =>
      rcases List.mem_cons.mp hmem with heq | htail
      · rw [heq]
        exact ⟨_, hx⟩
      · exact ih htail

/-- What the cache holds between the two edges it held at the first one. -/
theorem Flushing.cached_first (h : Flushing V mem inp xs t u) {k : ℕ} (htk : t ≤ k) (hku : k ≤ u)
    (hc : (run V mem inp k).dcache.Cached a) : (run V mem inp t).dcache.Cached a := by
  induction k, htk using Nat.le_induction with
  | base => exact hc
  | succ k htk ih =>
      refine ih (by omega) (cached_step_of_flush V (situation_run V k) ?_ hc)
      exact memOp_of_waiting V (P := fun op => ∃ x, op.Flushes x) htk h.before
        fun j h1 h2 => h.exists_flushes j h1 (by omega)

/-- The flushes store nothing. -/
theorem Flushing.laneMem_eq (h : Flushing V mem inp xs t u) {k : ℕ} (htk : t ≤ k) (hku : k ≤ u) :
    laneMem V mem inp k a = laneMem V mem inp t a := by
  induction k, htk using Nat.le_induction with
  | base => rfl
  | succ k htk ih =>
      rw [laneMem_succ_of_not_storesLane V, ih (by omega)]
      rintro ⟨hls, -, htouch⟩
      obtain ⟨x, hx⟩ := h.exists_flushes k htk (by omega) hls
      rw [hx.touches a] at htouch
      cases htouch

/-- The bytes of a flushed line are in memory only. -/
theorem uncached_of_flushed {c : CachedMemory} {ops : List MemOp} {v : BitVec 8} {x : BitVec 32}
    (hall : List.Forall₂ MemOp.Flushes ops xs) (hx : x ∈ xs) (hl : lineOf a = lineOf (busAddr x))
    (ht : tagOf a = tagOf (busAddr x)) (hc : c.Holds a v) :
    (ops.foldl CachedMemory.perform c).Uncached a v := by
  -- a byte that is out of the cache stays out over the flushes that follow
  have hkeep : ∀ {ops : List MemOp} {xs : List (BitVec 32)}, List.Forall₂ MemOp.Flushes ops xs →
      ∀ c : CachedMemory, c.Uncached a v → (ops.foldl CachedMemory.perform c).Uncached a v := by
    intro ops xs hall
    induction hall with
    | nil => exact fun _ hc => hc
    | cons hop _ ih =>
        intro c hc
        refine ih _ (hc.perform (fun _ => hop.covers a) fun hload => ?_)
        rw [hop.store] at hload
        cases hload
  induction hall generalizing c with
  | nil => cases hx
  | cons hop htail ih =>
      rcases List.mem_cons.mp hx with rfl | hrest
      · refine hkeep htail _ (hc.uncached_of_conflict ?_ ?_ (.inl hop.store) fun _ => hop.covers a)
        · rw [hop.addr, lineOf_flushOp, hl]
        · rw [hop.addr, ht]
          exact tagOf_flushOp _
      · exact ih hrest (hc.perform fun _ => hop.covers a)

/-! ### After the flush -/

/-- The line of byte {lit}`a` meets the range from {lit}`start` up to {lit}`stop`. -/
def Meets (start stop : BitVec 32) (a : BitVec 25) : Prop :=
  ∃ b, start.toNat ≤ b ∧ b < stop.toNat ∧ b / 16 = a.toNat / 16

/-- What the flush of a range between the edges {lit}`t` and {lit}`u` does.  No line of the range
has a byte in the cache any more, memory has the most recent store to each of its bytes,
nothing but bytes of the cache has been written, and each byte has the value it had.  A
later load finds in memory what it returns, byte by byte up to the next store. -/
structure RangeFlushed (V : Megafunctions) (mem : BitVec 24 → BitVec 16) (inp : ℕ → DataUnitInput)
    (start stop : BitVec 32) (t u : ℕ) : Prop where
  dropped : ∀ a, Meets start stop a → ¬ (run V mem inp u).dcache.Cached a
  stored : ∀ a, Meets start stop a →
    LastStored V mem inp t a (byteAt (run V mem inp u).chan.cells a)
  masked : ∀ a, ¬ (run V mem inp t).dcache.Cached a → ∀ k, t ≤ k → k < u →
    ¬ (run V mem inp k).WritesByte V (inp k) a
  value : ∀ a, (run V mem inp u).view.value a = (run V mem inp t).view.value a
  load : ∀ v, u ≤ v → (run V mem inp v).iexec.state = .ls1 →
    (run V mem inp v).iexec.memOp.store = false → (run V mem inp v).iexec.memOp.byteena ≠ 0#4 →
    ∃ w, WaitsUntil V mem inp v w ∧ (run V mem inp (w + 1)).iexec.regfileWren = true ∧
      ∃ m : ByteMem, (run V mem inp (w + 1)).iexec.rdWriteData V
          ((run V mem inp (w + 1)).iexecInput (inp (w + 1))) =
        (run V mem inp v).iexec.memOp.laneValue m ∧
      ∀ a, Meets start stop a → (∀ k, u ≤ k → k < v → ¬ (run V mem inp k).StoresLane a) →
        m a = byteAt (run V mem inp v).chan.cells a

/-- The loop visits every line that meets the range. -/
theorem exists_line_of_meets {start stop : BitVec 32} (hstop : stop.toNat ≤ 2 ^ 25)
    (ha : Meets start stop a) :
    ∃ x ∈ (List.range ((stop.toNat - (start &&& 0xFFFFFFF0#32).toNat + 15) / 16)).map fun k =>
        (start &&& 0xFFFFFFF0#32) + BitVec.ofNat 32 (16 * k),
      lineOf a = lineOf (busAddr x) ∧ tagOf a = tagOf (busAddr x) := by
  obtain ⟨b, hb, hlt, hline⟩ := ha
  have hstart := lineStart_toNat start
  have hbound := lt_of_lt_of_le hlt hstop
  have hsum : (start &&& 0xFFFFFFF0#32).toNat + 16 * (b / 16 - start.toNat / 16) < 2 ^ 25 := by
    omega
  refine ⟨_, List.mem_map.mpr ⟨b / 16 - start.toNat / 16, List.mem_range.mpr (by omega), rfl⟩, ?_⟩
  rw [sameLine_iff, busAddr_add_toNat hsum]
  omega

/-- After the flush a byte of its lines is in memory only. -/
theorem Flushing.uncached (h : Flushing V mem inp xs t u) {x : BitVec 32} (hx : x ∈ xs)
    (hl : lineOf a = lineOf (busAddr x)) (ht : tagOf a = tagOf (busAddr x)) :
    (run V mem inp u).view.Uncached a (laneMem V mem inp t a) := by
  rw [view_from V h.le h.before h.after]
  · exact uncached_of_flushed h.flushes hx hl ht (holds_view V h.before a)
  · intro k htk hku hls
    obtain ⟨x, hx⟩ := h.exists_flushes k htk hku hls
    exact hx.aligned

/-- The lines named by the loop are those that meet the range. -/
theorem Flushing.rangeFlushed {start stop : BitVec 32} (hstop : stop.toNat ≤ 2 ^ 25)
    (hready : ∀ t, ∃ u, t ≤ u ∧ (inp u).ready = true)
    (h : Flushing V mem inp ((List.range
      ((stop.toNat - (start &&& 0xFFFFFFF0#32).toNat + 15) / 16)).map fun k =>
        (start &&& 0xFFFFFFF0#32) + BitVec.ofNat 32 (16 * k)) t u) :
    RangeFlushed V mem inp start stop t u := by
  have hunc : ∀ a, Meets start stop a →
      (run V mem inp u).view.Uncached a (laneMem V mem inp t a) := by
    intro a ha
    obtain ⟨x, hx, hl, ht⟩ := exists_line_of_meets hstop ha
    exact h.uncached hx hl ht
  refine ⟨fun a ha => ?_, fun a ha => ?_, fun a hno k htk hku hw => ?_, fun a => ?_, ?_⟩
  · exact Dcache.view_cachedByte_eq_none_iff.mp (hunc a ha).uncached
  · rw [show byteAt (run V mem inp u).chan.cells a = _ from (hunc a ha).mem]
    exact lastStored_laneMem V t a
  · exact hno (h.cached_first htk hku.le ((situation_run V k).cached_of_writesByte V hw))
  · rw [(holds_view V h.after a).value, (holds_view V h.before a).value, h.laneMem_eq h.le le_rfl]
  · intro v huv hls hload hne
    obtain ⟨w, hw⟩ := waitsUntil_of_ls1 V hready hls
    obtain ⟨hop, -, -, hmem⟩ := hw.request V hls hw.after le_rfl
    obtain ⟨hwren, hvalue⟩ := (situation_run V w).load_value V (i := inp w)
      (hw.waiting w hw.after le_rfl) (by rw [hop]; exact hload) (by rw [hop]; exact hne) hw.done
      (inp (w + 1))
    rw [hmem, MemOp.write_load hload, hop] at hvalue
    refine ⟨w, hw, hwren, _, hvalue, fun a ha hno => ?_⟩
    refine (byteAt_of_not_storesLane V huv h.after ?_ hno).symm
    rw [h.laneMem_eq h.le le_rfl]
    exact (hunc a ha).mem

end Runs

end DataUnit

open DataUnit

/-- {lit}`flush_dcache_range`.  For a range of addresses below {lit}`2 ^ 25` the loop ends, with
some lines {lit}`xs` to flush.  Whatever loads, stores and flushes have come before, when
these lines have been flushed with no other access in between, the range is flushed. -/
theorem flush_dcache_range_flushes (V : Megafunctions) (mem : BitVec 24 → BitVec 16)
    (inp : ℕ → DataUnitInput) (hready : ∀ t, ∃ u, t ≤ u ∧ (inp u).ready = true)
    (start stop : BitVec 32) (hstop : stop.toNat ≤ 2 ^ 25) :
    ∃ xs, (∀ n, 2 ^ 21 < n → flushDcacheRange n start stop = some xs) ∧
      ∀ t u, Flushing V mem inp xs t u → RangeFlushed V mem inp start stop t u := by
  refine ⟨_, fun n hn => flushLoop_eq (by omega) (by omega), fun t u h => ?_⟩
  exact h.rangeFlushed hstop hready

/-- {lit}`lui a4, 0x10` and {lit}`sw a4, 0(a4)` make the line of {lit}`0x10000` dirty; then comes the
flush instruction with zero in {lit}`a5`.  The channel always answers. -/
def flushDirtyLine (t : ℕ) : DataUnitInput where
  iexecIn := Idecode.iexecIn ⟨0#32,
    if t = 0 then 0x00010737#32 else if t = 1 then 0x00E72023#32 else 0x0007B023#32,
    t == 0 || t == 1 || t == 6, false⟩
  csrBus := 0#32
  intrOut := ⟨false, 0#4⟩
  ready := true
  float := 0#16
  undefinedLanes := fun _ _ => ⟨false, 0#8⟩

/-- In these cycles the flush is the only access. -/
theorem flushing_dirtyLine :
    Flushing .documented (fun _ => 0#16) flushDirtyLine [0x10000#32] 6 20 := by
  have hacc : (run .documented (fun _ => 0#16) flushDirtyLine 6).iexec.accepts
      ((run .documented (fun _ => 0#16) flushDirtyLine 6).iexecInput (flushDirtyLine 6)) = true := by
    decide +kernel
  have ha5 : (run .documented (fun _ => 0#16) flushDirtyLine 6).iexec.operand .documented
      ((run .documented (fun _ => 0#16) flushDirtyLine 6).iexecInput (flushDirtyLine 6)) 15#5 =
      (0x10000#32 ^^^ 0x10000#32) &&& 0xFFFFFFF0#32 := by
    decide +kernel
  have hin : ((run .documented (fun _ => 0#16) flushDirtyLine 6).iexecInput
      (flushDirtyLine 6)).iexecIn = Idecode.iexecIn ⟨0#32, 0x0007B023#32, true, false⟩ := rfl
  obtain ⟨-, hflush⟩ := Iexec.flushes_of_accepts .documented hin hacc ha5
  refine ⟨by decide, by decide +kernel, by decide +kernel, ?_⟩
  have hops : operations .documented (fun _ => 0#16) flushDirtyLine 6 20 =
      [(run .documented (fun _ => 0#16) flushDirtyLine 7).iexec.memOp] := by
    have hfilter : (List.range' 6 (20 - 6)).filter (fun k => decide
        ((run .documented (fun _ => 0#16) flushDirtyLine k).iexec.state = .ls1)) = [7] := by
      decide +kernel
    rw [operations, hfilter]
    rfl
  rw [hops]
  exact .cons hflush .nil

/-- The flush of a dirty line takes 14 cycles and brings its bytes to memory. -/
theorem flush_dcache_range_oneLine :
    (∀ n, 2 ^ 21 < n → flushDcacheRange n 0x10000#32 0x10010#32 = some [0x10000#32]) ∧
      RangeFlushed .documented (fun _ => 0#16) flushDirtyLine 0x10000#32 0x10010#32 6 20 ∧
      ((run .documented (fun _ => 0#16) flushDirtyLine 6).dcache.metaRam 0#8).dirty = true ∧
      byteAt (run .documented (fun _ => 0#16) flushDirtyLine 6).chan.cells 0x10002#25 = 0#8 ∧
      byteAt (run .documented (fun _ => 0#16) flushDirtyLine 20).chan.cells 0x10002#25 = 1#8 := by
  obtain ⟨xs, hxs, hflushed⟩ := flush_dcache_range_flushes .documented (fun _ => 0#16) flushDirtyLine
    (fun t => ⟨t, le_rfl, rfl⟩) 0x10000#32 0x10010#32 (by decide)
  have hone : xs = [0x10000#32] := by
    have heq : flushDcacheRange (2 ^ 21 + 1) 0x10000#32 0x10010#32 = some [0x10000#32] :=
      flushLoop_eq (n := 2 ^ 21 + 1) (by decide) (by decide)
    rw [hxs _ (Nat.lt_succ_self _)] at heq
    exact Option.some.inj heq
  rw [hone] at hxs hflushed
  exact ⟨hxs, hflushed 6 20 flushing_dirtyLine, by decide +kernel, by decide +kernel,
    by decide +kernel⟩

end Sumeru
