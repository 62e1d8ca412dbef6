import Sumeru.Cache.Requests

/-!
# Sumeru - Coherence of the data cache

The execute stage, the data cache and its memory channel go through six situations
while a load or store is served; in each of them cache and memory together hold the
bytes that the stores issued so far have left.

Main results:

- Theorem {lit}`DataUnit.Situation.step`: the situations are closed under a cycle.
-/

namespace Sumeru

namespace DataUnit

variable (V : Megafunctions)

/-! ## The situations -/

/-- What holds of an operation until the cache has carried it out; {lit}`m` is the memory
before it. -/
structure Pending (s : DataUnit) (m : ByteMem) : Prop where
  issued : s.iexec.Issued
  strobe : s.dcache.writeStrobeR = s.iexec.dcacheWriteStrobeSave
  coherent : s.dcache.Coherent s.chan.cells m
  settled : s.dcache.Settled

/-- No operation is under way; {lit}`m` is the memory. -/
structure Calm (s : DataUnit) (m : ByteMem) : Prop where
  state : s.iexec.state ≠ .lsWait
  cmd : s.iexec.state = .ls1 → s.iexec.cmdResultMux = .load ∨ s.iexec.cmdResultMux = .store
  busy : s.iexec.busyR = (s.iexec.state != .running)
  idle : s.dcache.state = .idle
  start : s.iexec.dcacheStart = s.dcache.startSave
  strobe : s.dcache.writeStrobeR = s.iexec.dcacheWriteStrobeSave
  answered : s.chan.strobe = s.dcache.mcOpStart
  left : s.chan.left = 0
  coherent : s.dcache.Coherent s.chan.cells m

/-- The cache is about to look at the line; the last half-word of an eviction may just
have moved. -/
structure Lookup (s : DataUnit) : Prop where
  idle : s.dcache.state = .idle
  start : s.iexec.dcacheStart ≠ s.dcache.startSave
  answered : s.chan.strobe = s.dcache.mcOpStart
  left : s.chan.left ≤ 1

/-- The line in the way is written back: half-word {lit}`counter` is presented, and when
the burst has begun all up to it have reached memory. -/
structure Storing (s : DataUnit) : Prop where
  state : s.dcache.state = .storeLine
  start : s.iexec.dcacheStart ≠ s.dcache.startSave
  quiet : ∀ j, s.dcache.dataWren j = false
  dirty : (s.dcache.metaRam (lineOf s.iexec.dcacheAddr)).dirty = true
  missed : ¬ s.dcache.Holds s.iexec.memOp
  clean : s.dcache.metaWriteLineDirty = false
  opAddr : s.dcache.opAddr = halfAddr (s.dcache.metaRam (lineOf s.iexec.dcacheAddr)).tag
    (lineOf s.iexec.dcacheAddr) 0
  opWren : s.dcache.opWren = true
  half : (s.dcache.opDqm, s.dcache.mcWriteData) =
    Dcache.halfWord (s.dcache.line (lineOf s.iexec.dcacheAddr)) s.dcache.counter
  counter : s.dcache.counter.val < 7
  phase : (s.chan.Waiting s.dcache.mcIn ∧ s.dcache.counter = 0) ∨
    (s.chan.Moving s.dcache.mcIn s.dcache.counter.val ∧
      ∀ a, lineOf a = lineOf s.iexec.dcacheAddr → halfOf a ≤ s.dcache.counter →
        s.dcache.Cached a → byteAt s.chan.cells a = (s.dcache.lane a).byte)

/-- The line is loaded: words of which both half-words have come are in the data RAMs, the
last half-word is in the upper half of the write register. -/
structure Loading (s : DataUnit) : Prop where
  state : s.dcache.state = .loadLine
  load : s.iexec.memOp.store = false
  start : s.iexec.dcacheStart = s.dcache.startSave
  invalid : (s.dcache.metaRam (lineOf s.iexec.dcacheAddr)).valid = false
  clean : s.dcache.metaWriteLineDirty = false
  byteena : s.dcache.cacheByteena = 0b1111#4
  ena : ∀ b, (s.dcache.cacheWriteData b).ena = true
  opAddr : s.dcache.opAddr = lineBase s.iexec.dcacheAddr
  opWren : s.dcache.opWren = false
  phase : (s.chan.Waiting s.dcache.mcIn ∧ s.dcache.counter = 0) ∨
    (s.chan.Moving s.dcache.mcIn s.dcache.counter.val ∧
      (∀ a, lineOf a = lineOf s.iexec.dcacheAddr → tagOf a = tagOf s.iexec.dcacheAddr →
        2 * (wordOf a).val + 2 ≤ s.dcache.counter.val →
          s.dcache.lane a = ⟨true, byteAt s.chan.cells a⟩) ∧
      (∀ a, lineOf a = lineOf s.iexec.dcacheAddr → tagOf a = tagOf s.iexec.dcacheAddr →
        (halfOf a).val + 1 = s.dcache.counter.val →
          (s.dcache.cacheWriteData ⟨2 + a.toNat % 2, by omega⟩).byte = byteAt s.chan.cells a))

/-- A load whose line has been loaded. -/
structure Loaded (s : DataUnit) : Prop where
  idle : s.dcache.state = .idle
  load : s.iexec.memOp.store = false
  start : s.iexec.dcacheStart = s.dcache.startSave
  answered : s.chan.strobe = s.dcache.mcOpStart
  left : s.chan.left ≤ 1
  holds : s.dcache.Holds s.iexec.memOp

/-- A store that has been carried out; {lit}`m` is the memory after it. -/
structure Written (s : DataUnit) (m : ByteMem) : Prop where
  issued : s.iexec.Issued
  store : s.iexec.memOp.store = true
  idle : s.dcache.state = .idle
  start : s.iexec.dcacheStart = s.dcache.startSave
  strobe : s.dcache.writeStrobeR ≠ s.iexec.dcacheWriteStrobeSave
  answered : s.chan.strobe = s.dcache.mcOpStart
  left : s.chan.left = 0
  coherent : s.dcache.Coherent s.chan.cells m

/-- The situations; {lit}`m` is the memory that the stores issued so far have left. -/
inductive Situation (s : DataUnit) (m : ByteMem) : Prop where
  | calm (h : s.Calm m)
  | lookup (m₀ : ByteMem) (hm : m = s.iexec.memOp.write m₀) (hp : s.Pending m₀) (h : s.Lookup)
  | storing (m₀ : ByteMem) (hm : m = s.iexec.memOp.write m₀) (hp : s.Pending m₀) (h : s.Storing)
  | loading (m₀ : ByteMem) (hm : m = s.iexec.memOp.write m₀) (hp : s.Pending m₀) (h : s.Loading)
  | loaded (m₀ : ByteMem) (hm : m = s.iexec.memOp.write m₀) (hp : s.Pending m₀) (h : s.Loaded)
  | written (h : s.Written m)

/-! ## Parts of a cycle -/

variable {s : DataUnit} {m : ByteMem} {i : DataUnitInput}

/-- The cache goes through both edges. -/
theorem step_dcache : (s.step V i).dcache =
    (s.dcache.clk (s.dcacheIn i) s.chan.strobe (s.chan.dataOut i.float)).clkN
      (s.step V i).iexec.dcacheAddr :=
  rfl

/-- The channel answers before it moves a half-word. -/
theorem step_chan : (s.step V i).chan =
    (s.chan.advance s.dcache.mcIn i.ready).transfer
      (s.dcache.clk (s.dcacheIn i) s.chan.strobe (s.chan.dataOut i.float)).mcIn :=
  rfl

/-- A channel at rest, or one that has moved its last half-word, comes to rest. -/
theorem chan_step_of_answered (ha : s.chan.strobe = s.dcache.mcOpStart) (hl : s.chan.left ≤ 1) :
    (s.step V i).chan.strobe = s.chan.strobe ∧ (s.step V i).chan.left = 0 ∧
      (s.step V i).chan.cells = s.chan.cells := by
  have hadv := BurstChannel.advance_answered (show s.chan.strobe = s.dcache.mcIn.opStart from ha) i.ready
  have hleft : (s.chan.advance s.dcache.mcIn i.ready).left = 0 := by
    rw [hadv]
    simp only
    omega
  rw [step_chan, BurstChannel.transfer_idle hleft]
  refine ⟨?_, hleft, BurstChannel.advance_cells _⟩
  rw [hadv]

/-- An edge that only assigns the defaults leaves the RAMs alone. -/
theorem coherent_step_of_quiet {cells : BitVec 24 → BitVec 16} (hc : s.dcache.Coherent cells m)
    (hm : (s.dcache.clk (s.dcacheIn i) s.chan.strobe (s.chan.dataOut i.float)).metaWren = false)
    (hd : ∀ j, (s.dcache.clk (s.dcacheIn i) s.chan.strobe
      (s.chan.dataOut i.float)).dataWren j = false) :
    (s.step V i).dcache.metaRam = s.dcache.metaRam ∧
      (s.step V i).dcache.dataRam = s.dcache.dataRam ∧ (s.step V i).dcache.Coherent cells m := by
  obtain ⟨h1, h2⟩ := Dcache.clkN_quiet hm hd (s.step V i).iexec.dcacheAddr
  obtain ⟨h3, h4⟩ := s.dcache.clk_ram (s.dcacheIn i) s.chan.strobe (s.chan.dataOut i.float)
  have hm' : (s.step V i).dcache.metaRam = s.dcache.metaRam := by rw [step_dcache, h1, h3]
  have hd' : (s.step V i).dcache.dataRam = s.dcache.dataRam := by rw [step_dcache, h2, h4]
  exact ⟨hm', hd', hc.congr hm' hd'⟩

/-- A cycle changes one line of the cache. -/
theorem onlyLine_step (s : DataUnit) (i : DataUnitInput) :
    Dcache.OnlyLine s.dcache (s.step V i).dcache (lineOf (s.step V i).iexec.dcacheAddr) :=
  s.dcache.onlyLine_cycle _ _ _ _

namespace Pending

/-- The request is at the address of the operation. -/
theorem addr_eq (hp : s.Pending m) : (s.dcacheIn i).addr = s.iexec.memOp.addr := hp.issued.addr

/-- The request has the byte enables of the operation. -/
theorem byteena_eq (_hp : s.Pending m) : (s.dcacheIn i).byteena = s.iexec.memOp.byteena :=
  s.iexec.byteena_eq

/-- The request has the direction of the operation. -/
theorem wren_eq (hp : s.Pending m) : (s.dcacheIn i).wren = s.iexec.memOp.store := hp.issued.wren

/-- A hit finds the bytes of the operation. -/
theorem hit_iff (hp : s.Pending m) :
    s.dcache.hit (s.dcacheIn i) = true ↔ s.dcache.Holds s.iexec.memOp :=
  Dcache.hit_iff hp.settled hp.addr_eq hp.byteena_eq

/-- The RAMs show the line. -/
theorem data_eq (hp : s.Pending m) :
    s.dcache.data (s.dcacheIn i) = s.dcache.line (lineOf s.iexec.dcacheAddr) :=
  Dcache.data_of_settled hp.settled _

/-- The stage waits unless a load has found its bytes. -/
theorem waits (hp : s.Pending m)
    (hmiss : s.iexec.memOp.store = false → ¬ s.dcache.Holds s.iexec.memOp) (i : DataUnitInput) :
    Iexec.Waits s.iexec (s.step V i).iexec := by
  refine Iexec.Issued.waits V hp.issued ?_ hp.strobe
  intro hload
  exact Dcache.hit_eq_false hp.settled hp.addr_eq hp.byteena_eq (hmiss hload)

/-- A load that finds its bytes is done. -/
theorem load_done (hp : s.Pending m) (hload : s.iexec.memOp.store = false)
    (hh : s.dcache.Holds s.iexec.memOp) (i : DataUnitInput) :
    (s.step V i).iexec.state = .running ∧ (s.step V i).iexec.regfileWren = true ∧
      (s.step V i).iexec.dcacheWriteStrobeSave = s.iexec.dcacheWriteStrobeSave :=
  Iexec.step_lsWait_load V hp.issued.state (hp.issued.load_iff.mp hload) (hp.hit_iff.mpr hh)

end Pending

/-! ## Transitions -/

/-- An idle cache without a request only takes its defaults. -/
theorem clk_of_idle (hidle : s.dcache.state = .idle)
    (hstart : s.iexec.dcacheStart = s.dcache.startSave) (i : DataUnitInput) :
    s.dcache.clk (s.dcacheIn i) s.chan.strobe (s.chan.dataOut i.float) =
      s.dcache.edgeDefaults (s.chan.dataOut i.float) := by
  have hno : ¬ (s.dcacheIn i).start ≠ s.dcache.startSave := fun hne => hne hstart
  simp only [Dcache.clk, hidle, hno, if_false]

/-- A calm cache only takes its defaults. -/
theorem Calm.clk_eq (h : s.Calm m) (i : DataUnitInput) :
    s.dcache.clk (s.dcacheIn i) s.chan.strobe (s.chan.dataOut i.float) =
      s.dcache.edgeDefaults (s.chan.dataOut i.float) :=
  clk_of_idle h.idle h.start i

/-- Without an operation the unit stays calm until the next one is issued. -/
theorem Calm.step (h : s.Calm m) (i : DataUnitInput) :
    Situation (s.step V i) (if s.iexec.state = .ls1 then s.iexec.memOp.write m else m) := by
  have hclk := h.clk_eq i
  obtain ⟨hstrobe, hleft, hcells⟩ := chan_step_of_answered V (i := i) h.answered (by rw [h.left]; omega)
  obtain ⟨-, -, hcoh⟩ := coherent_step_of_quiet V (i := i) h.coherent (by rw [hclk]; rfl)
    (by rw [hclk]; intro j; rfl)
  have hcache : (s.step V i).dcache =
      (s.dcache.edgeDefaults (s.chan.dataOut i.float)).clkN (s.step V i).iexec.dcacheAddr := by
    rw [step_dcache, hclk]
  rw [← hcells] at hcoh
  by_cases hls : s.iexec.state = .ls1
  · -- the operation is handed over at this edge
    rw [if_pos hls]
    have hop : (s.step V i).iexec.memOp = s.iexec.memOp :=
      Iexec.memOp_step V (by simp [hls]) (by rw [h.busy, hls]; rfl) _
    have hsame := Iexec.sameInstruction_step V
      (show s.iexec.accepts (s.iexecInput i) = false by simp [Iexec.accepts, hls])
    have hst : (s.step V i).iexec.state = .lsWait := Iexec.state_step_of_ls1 V hls _
    have hmain : s.iexec.mainProcess V (s.iexecInput i) =
        { s.iexec.edgeDefaults with
          busyR := true
          dcacheAddr := s.iexec.aluResult.extractLsb' 0 25
          dcacheWren := s.iexec.cmdResultMux.code.getLsbD 1
          dcacheStart := !s.iexec.dcacheStart
          state := .lsWait } := by
      simp only [Iexec.mainProcess, hls]
    have haddr : (s.step V i).iexec.dcacheAddr = s.iexec.memOp.addr := by
      change (s.iexec.mainProcess V (s.iexecInput i)).dcacheAddr = _
      rw [hmain]
      rfl
    have hwren : (s.step V i).iexec.dcacheWren = s.iexec.memOp.store := by
      change (s.iexec.mainProcess V (s.iexecInput i)).dcacheWren = _
      rw [hmain]
      rcases h.cmd hls with hc | hc <;> simp [Iexec.memOp, hc] <;> rfl
    have hstart : (s.step V i).iexec.dcacheStart = !s.iexec.dcacheStart := by
      change (s.iexec.mainProcess V (s.iexecInput i)).dcacheStart = _
      rw [hmain]
    have hbusy : (s.step V i).iexec.busyR = true := by
      have := Iexec.busyR_step V s.iexec (s.iexecInput i)
      change (s.step V i).iexec.busyR = ((s.step V i).iexec.state != .running) at this
      rw [this, hst]
      rfl
    refine .lookup m (by rw [hop]) ⟨⟨hst, ?_, ?_, ?_, hbusy⟩, ?_, hcoh, ?_⟩ ⟨?_, ?_, ?_, ?_⟩
    · rw [show (s.step V i).iexec.cmdResultMux = s.iexec.cmdResultMux from hsame.cmdResultMux]
      exact h.cmd hls
    · rw [hop, haddr]
    · rw [hop, hwren]
    · rw [show (s.step V i).iexec.dcacheWriteStrobeSave = s.iexec.dcacheWriteStrobeSave from
        Iexec.writeStrobeSave_step V (by simp [hls]) _, ← h.strobe, hcache]
      rfl
    · apply Dcache.settled_of_quiet
      rw [hcache]
      intro j
      rfl
    · rw [hcache]
      exact h.idle
    · rw [hstart, hcache, h.start]
      exact Bool.not_ne_self s.dcache.startSave
    · rw [hstrobe, hcache]
      exact h.answered
    · rw [hleft]
      omega
  · rw [if_neg hls]
    obtain ⟨hcmd, hwait⟩ := Iexec.state_step_ls V (e := s.iexec) (s.iexecInput i)
    obtain ⟨-, hstart, -⟩ := Iexec.dcacheLines_step V hls (s.iexecInput i)
    refine .calm ⟨?_, hcmd, Iexec.busyR_step V _ _, ?_, ?_, ?_, ?_, hleft, hcoh⟩
    · intro hst
      rcases hwait hst with hx | hx
      · exact hls hx
      · exact h.state hx
    · rw [hcache]
      exact h.idle
    · rw [show (s.step V i).iexec.dcacheStart = s.iexec.dcacheStart from hstart, hcache]
      exact h.start
    · rw [show (s.step V i).iexec.dcacheWriteStrobeSave = s.iexec.dcacheWriteStrobeSave from
        Iexec.writeStrobeSave_step V h.state _, hcache]
      exact h.strobe
    · rw [hstrobe, hcache]
      exact h.answered

/-- What the edge makes of a request that the cache looks at. -/
theorem Lookup.clk_eq (h : s.Lookup) (i : DataUnitInput) :
    s.dcache.clk (s.dcacheIn i) s.chan.strobe (s.chan.dataOut i.float) =
      s.dcache.serve (s.dcacheIn i) (s.chan.dataOut i.float) := by
  have hstart : (s.dcacheIn i).start ≠ s.dcache.startSave := h.start
  simp only [Dcache.clk, h.idle, hstart, if_true, ne_eq, not_false_eq_true]

/-- The edge that carries out a store. -/
theorem Lookup.dcache_write (hp : s.Pending m) (h : s.Lookup) (hstore : s.iexec.memOp.store = true)
    (hhit : s.dcache.lineHit (s.dcacheIn i) = true) : (s.step V i).dcache =
      (s.dcache.write (s.dcacheIn i) (s.chan.dataOut i.float)).clkN s.iexec.dcacheAddr := by
  have hw := hp.waits V (fun hl => by rw [hstore] at hl; cases hl) i
  rw [step_dcache, h.clk_eq, Dcache.serve, if_pos ⟨by rw [hp.wren_eq, hstore], hhit⟩, hw.addr]

/-- The RAMs after a store. -/
theorem Lookup.stored (hp : s.Pending m) (h : s.Lookup) (hstore : s.iexec.memOp.store = true)
    (hhit : s.dcache.lineHit (s.dcacheIn i) = true) :
    Dcache.Stored s.dcache (s.step V i).dcache s.iexec.memOp := by
  have hw := hp.waits V (fun hl => by rw [hstore] at hl; cases hl) i
  have hcache := h.dcache_write V hp hstore hhit
  obtain ⟨htag, hvalid⟩ := (Dcache.lineHit_iff (hp.addr_eq (i := i))).mp hhit
  have hae := hp.issued.addr
  have honly := onlyLine_step V s i
  rw [hw.addr, hae] at honly
  refine ⟨honly, hvalid, htag, ?_, ?_⟩
  · rw [hcache, ← hae, Dcache.clkN_metaRam_self]
    change LineMeta.mk _ true (_ || (s.dcacheIn i).byteena != 0#4) = _
    rw [hp.byteena_eq]
    rfl
  · intro j b
    rw [hcache, ← hae, Dcache.clkN_line_self]
    change (if ((j == wordOf s.iexec.dcacheAddr) = true ∧
      (s.dcacheIn i).byteena.getLsbD b.val = true) then _ else _) = _
    simp only [hp.byteena_eq, beq_iff_eq]
    rfl

/-- A store into a line that is present is carried out. -/
theorem Lookup.step_write (hp : s.Pending m) (h : s.Lookup) (hstore : s.iexec.memOp.store = true)
    (hhit : s.dcache.lineHit (s.dcacheIn i) = true) :
    (s.step V i).iexec.memOp = s.iexec.memOp ∧
      Written (s.step V i) (s.iexec.memOp.write m) := by
  have hw := hp.waits V (fun hl => by rw [hstore] at hl; cases hl) i
  obtain ⟨hstrobe, hleft, hcells⟩ := chan_step_of_answered V (i := i) h.answered h.left
  have hcache := h.dcache_write V hp hstore hhit
  refine ⟨hw.memOp, hw.issued, by rw [hw.memOp]; exact hstore, ?_, ?_, ?_, ?_, hleft, ?_⟩
  · rw [hcache]
    exact h.idle
  · rw [hw.start, hcache]
    change _ = !s.dcache.startSave
    exact Bool.eq_not_of_ne h.start
  · rw [hw.save, hcache, ← hp.strobe]
    exact Bool.not_ne_self s.dcache.writeStrobeR
  · rw [hstrobe, hcache]
    exact h.answered
  · rw [hcells]
    exact hp.coherent.write hstore (h.stored V hp hstore hhit)

/-- A dirty line in the way begins to be written back. -/
theorem Lookup.step_evict (hp : s.Pending m) (h : s.Lookup)
    (hserve : s.dcache.serve (s.dcacheIn i) (s.chan.dataOut i.float) =
      s.dcache.evict (s.dcacheIn i) (s.chan.dataOut i.float))
    (hmiss : ¬ s.dcache.Holds s.iexec.memOp)
    (hdirty : (s.dcache.metaRam (lineOf s.iexec.dcacheAddr)).dirty = true) :
    (s.step V i).iexec.memOp = s.iexec.memOp ∧ Pending (s.step V i) m ∧ Storing (s.step V i) := by
  have hw := hp.waits V (fun _ => hmiss) i
  obtain ⟨hstrobe, hleft, hcells⟩ := chan_step_of_answered V (i := i) h.answered h.left
  have hcache : (s.step V i).dcache =
      (s.dcache.evict (s.dcacheIn i) (s.chan.dataOut i.float)).clkN s.iexec.dcacheAddr := by
    rw [step_dcache, h.clk_eq, hserve, hw.addr]
  obtain ⟨hm, hd, hcoh⟩ := coherent_step_of_quiet V (i := i) hp.coherent
    (by rw [h.clk_eq, hserve]; rfl) (by rw [h.clk_eq, hserve]; intro j; rfl)
  have hquiet : ∀ j, (s.step V i).dcache.dataWren j = false := by
    rw [hcache]
    intro j
    rfl
  have hline : ∀ l, (s.step V i).dcache.line l = s.dcache.line l := by
    intro l
    funext j
    simp only [Dcache.line, hd]
  refine ⟨hw.memOp, ⟨hw.issued, ?_, by rw [hcells]; exact hcoh, Dcache.settled_of_quiet hquiet⟩,
    ⟨?_, ?_, hquiet, ?_, ?_, ?_, ?_, ?_, ?_, ?_, .inl ⟨⟨?_, hleft⟩, ?_⟩⟩⟩
  · rw [hw.save, hcache]
    exact hp.strobe
  · rw [hcache]
    rfl
  · rw [hw.start, hcache]
    exact h.start
  · rw [hw.addr, hm]
    exact hdirty
  · rw [hw.memOp]
    rintro ⟨h1, h2, h3⟩
    rw [hm] at h1 h2
    simp only [hline] at h3
    exact hmiss ⟨h1, h2, h3⟩
  · rw [hcache]
    rfl
  · rw [hw.addr, hm, hcache]
    change _ = _ + 0#24
    rw [BitVec.add_zero]
    rfl
  · rw [hcache]
    rfl
  · rw [hw.addr, hline, hcache, ← hp.data_eq (i := i)]
    rfl
  · rw [hcache]
    change (0 : Fin 8).val < 7
    decide
  · rw [hstrobe, hcache, h.answered]
    change _ ≠ !s.dcache.mcOpStart
    exact (Bool.not_ne_self s.dcache.mcOpStart).symm
  · rw [hcache]
    rfl

/-- The line begins to be loaded over a clean one. -/
theorem Lookup.step_load (hp : s.Pending m) (h : s.Lookup)
    (hserve : s.dcache.serve (s.dcacheIn i) (s.chan.dataOut i.float) =
      s.dcache.load (s.dcacheIn i) (s.chan.dataOut i.float))
    (hmiss : ¬ s.dcache.Holds s.iexec.memOp) (hload : s.iexec.memOp.store = false)
    (hclean : (s.dcache.metaRam (lineOf s.iexec.dcacheAddr)).dirty = false) :
    (s.step V i).iexec.memOp = s.iexec.memOp ∧ Pending (s.step V i) m ∧ Loading (s.step V i) := by
  have hw := hp.waits V (fun _ => hmiss) i
  obtain ⟨hstrobe, hleft, hcells⟩ := chan_step_of_answered V (i := i) h.answered h.left
  have hcache : (s.step V i).dcache =
      (s.dcache.load (s.dcacheIn i) (s.chan.dataOut i.float)).clkN s.iexec.dcacheAddr := by
    rw [step_dcache, h.clk_eq, hserve, hw.addr]
  have honly := onlyLine_step V s i
  have hmeta : (s.step V i).dcache.metaRam (lineOf s.iexec.dcacheAddr) =
      ⟨tagOf s.iexec.dcacheAddr, false, false⟩ := by
    rw [hcache, Dcache.clkN_metaRam_self]
    rfl
  rw [hw.addr] at honly
  have hcoh : (s.step V i).dcache.Coherent s.chan.cells m := by
    refine hp.coherent.replace honly (hp.coherent.memory_of_clean hclean) ?_ ?_
    · intro a ha hc
      have := hc.valid
      rw [ha, hmeta] at this
      cases this
    · rw [hmeta]
      intro hd
      cases hd
  refine ⟨hw.memOp, ⟨hw.issued, ?_, by rw [hcells]; exact hcoh, ?_⟩,
    ⟨?_, ?_, ?_, ?_, ?_, ?_, ?_, ?_, ?_, .inl ⟨⟨?_, hleft⟩, ?_⟩⟩⟩
  · rw [hw.save, hcache]
    exact hp.strobe
  · apply Dcache.settled_of_quiet
    rw [hcache]
    intro j
    rfl
  · rw [hcache]
    rfl
  · rw [hw.memOp]
    exact hload
  · rw [hw.start, hcache]
    change _ = !s.dcache.startSave
    exact Bool.eq_not_of_ne h.start
  · rw [hw.addr, hmeta]
  · rw [hcache]
    rfl
  · rw [hcache]
    rfl
  · rw [hcache]
    intro b
    rfl
  · rw [hw.addr, hcache]
    rfl
  · rw [hcache]
    rfl
  · rw [hstrobe, hcache, h.answered]
    change _ ≠ !s.dcache.mcOpStart
    exact (Bool.not_ne_self s.dcache.mcOpStart).symm
  · rw [hcache]
    rfl

/-- The RAMs after a line has been taken over. -/
theorem Lookup.ram_takeOver (hp : s.Pending m) (h : s.Lookup)
    (hserve : s.dcache.serve (s.dcacheIn i) (s.chan.dataOut i.float) =
      s.dcache.initializeLine (s.chan.dataOut i.float))
    (hmiss : ¬ s.dcache.Holds s.iexec.memOp) :
    (s.step V i).dcache.metaRam (lineOf s.iexec.dcacheAddr) =
        ⟨tagOf s.iexec.dcacheAddr, true, false⟩ ∧
      ∀ j b, ((s.step V i).dcache.line (lineOf s.iexec.dcacheAddr) j b).ena = false := by
  have hcache : (s.step V i).dcache =
      (s.dcache.initializeLine (s.chan.dataOut i.float)).clkN s.iexec.dcacheAddr := by
    rw [step_dcache, h.clk_eq, hserve, (hp.waits V (fun _ => hmiss) i).addr]
  have hbits : ∀ b : Fin 4, (0b1111#4).getLsbD b.val = true := by decide
  constructor
  · rw [hcache, Dcache.clkN_metaRam_self]
    rfl
  · intro j b
    rw [hcache, Dcache.clkN_line_self]
    change (if true = true ∧ (0b1111#4).getLsbD b.val = true then Lane.mk false _
      else _).ena = false
    rw [if_pos ⟨rfl, hbits b⟩]

/-- A clean line is taken over for a store, with no byte valid. -/
theorem Lookup.step_takeOver (hp : s.Pending m) (h : s.Lookup)
    (hserve : s.dcache.serve (s.dcacheIn i) (s.chan.dataOut i.float) =
      s.dcache.initializeLine (s.chan.dataOut i.float))
    (hmiss : ¬ s.dcache.Holds s.iexec.memOp)
    (hclean : (s.dcache.metaRam (lineOf s.iexec.dcacheAddr)).dirty = false) :
    (s.step V i).iexec.memOp = s.iexec.memOp ∧ Pending (s.step V i) m ∧ Lookup (s.step V i) ∧
      ∀ i', (s.step V i).dcache.lineHit ((s.step V i).dcacheIn i') = true := by
  have hw := hp.waits V (fun _ => hmiss) i
  obtain ⟨hstrobe, hleft, hcells⟩ := chan_step_of_answered V (i := i) h.answered h.left
  have hcache : (s.step V i).dcache =
      (s.dcache.initializeLine (s.chan.dataOut i.float)).clkN s.iexec.dcacheAddr := by
    rw [step_dcache, h.clk_eq, hserve, hw.addr]
  have honly := onlyLine_step V s i
  obtain ⟨hmeta, hlanes⟩ := h.ram_takeOver V hp hserve hmiss
  have hbits : ∀ b : Fin 4, (0b1111#4).getLsbD b.val = true := by decide
  rw [hw.addr] at honly
  have hcoh : (s.step V i).dcache.Coherent s.chan.cells m := by
    refine hp.coherent.replace honly (hp.coherent.memory_of_clean hclean) ?_ ?_
    · intro a ha hc
      have hena := hc.ena
      rw [Dcache.lane, laneIn, ha, hlanes] at hena
      cases hena
    · rw [hmeta]
      intro hd
      cases hd
  refine ⟨hw.memOp, ⟨hw.issued, ?_, by rw [hcells]; exact hcoh, ?_⟩,
    ⟨?_, ?_, ?_, by rw [hleft]; omega⟩, ?_⟩
  · rw [hw.save, hcache]
    exact hp.strobe
  · rw [hcache]
    intro j b _
    exact hbits b
  · rw [hcache]
    exact h.idle
  · rw [hw.start, hcache]
    exact h.start
  · rw [hstrobe, hcache]
    exact h.answered
  · intro i'
    have ha : ((s.step V i).dcacheIn i').addr = s.iexec.memOp.addr := by
      rw [← hp.issued.addr, ← hw.addr]
      rfl
    rw [Dcache.lineHit_iff ha, ← hp.issued.addr, hmeta]
    exact ⟨rfl, rfl⟩

/-- The unit is calm again after a load. -/
theorem calm_of_load_done (hp : s.Pending m) (hload : s.iexec.memOp.store = false)
    (hh : s.dcache.Holds s.iexec.memOp) (ha : s.chan.strobe = s.dcache.mcOpStart)
    (hl : s.chan.left ≤ 1) {c : Dcache}
    (hclk : s.dcache.clk (s.dcacheIn i) s.chan.strobe (s.chan.dataOut i.float) = c)
    (hquiet : c.metaWren = false ∧ ∀ j, c.dataWren j = false) (hidle : c.state = .idle)
    (hstart : s.iexec.dcacheStart = c.startSave) (hstrobe : c.writeStrobeR = s.dcache.writeStrobeR)
    (hop : c.mcOpStart = s.dcache.mcOpStart) : Calm (s.step V i) m := by
  obtain ⟨hst, -, hsave⟩ := hp.load_done V hload hh i
  obtain ⟨hchan, hleft, hcells⟩ := chan_step_of_answered V (i := i) ha hl
  obtain ⟨-, -, hcoh⟩ := coherent_step_of_quiet V (i := i) hp.coherent (by rw [hclk]; exact hquiet.1)
    (by rw [hclk]; exact hquiet.2)
  have hne : s.iexec.state ≠ .ls1 := by simp [hp.issued.state]
  obtain ⟨-, hstart', -⟩ := Iexec.dcacheLines_step V hne (s.iexecInput i)
  refine ⟨by rw [hst]; decide, ?_, Iexec.busyR_step V _ _, ?_, ?_, ?_, ?_, hleft, ?_⟩
  · intro hx
    rw [hst] at hx
    cases hx
  · rw [step_dcache, hclk]
    exact hidle
  · rw [step_dcache, hclk]
    exact hstart'.trans hstart
  · rw [step_dcache, hclk, hsave, ← hp.strobe]
    exact hstrobe
  · rw [step_dcache, hclk, hchan, ha]
    exact hop.symm
  · rw [hcells]
    exact hcoh

/-- A load that hits takes the request and nothing else. -/
theorem Lookup.clk_hit (hp : s.Pending m) (h : s.Lookup) (hload : s.iexec.memOp.store = false)
    (hh : s.dcache.Holds s.iexec.memOp) (i : DataUnitInput) :
    s.dcache.clk (s.dcacheIn i) s.chan.strobe (s.chan.dataOut i.float) =
      { s.dcache.edgeDefaults (s.chan.dataOut i.float) with startSave := !s.dcache.startSave } := by
  have hhit := (hp.hit_iff (i := i)).mpr hh
  rw [h.clk_eq, Dcache.serve, if_neg, if_neg]
  · rw [hhit]
    decide
  · rw [hp.wren_eq, hload]
    exact fun hx => Bool.false_ne_true hx.1

/-- A load that finds its bytes is done at once. -/
theorem Lookup.step_hit (hp : s.Pending m) (h : s.Lookup) (hload : s.iexec.memOp.store = false)
    (hh : s.dcache.Holds s.iexec.memOp) : Calm (s.step V i) m := by
  refine calm_of_load_done V hp hload hh h.answered h.left (h.clk_hit hp hload hh i)
    ⟨rfl, fun j => rfl⟩ h.idle ?_ rfl rfl
  exact Bool.eq_not_of_ne h.start

/-- A cache that has loaded a line only takes its defaults. -/
theorem Loaded.clk_eq (h : s.Loaded) (i : DataUnitInput) :
    s.dcache.clk (s.dcacheIn i) s.chan.strobe (s.chan.dataOut i.float) =
      s.dcache.edgeDefaults (s.chan.dataOut i.float) :=
  clk_of_idle h.idle h.start i

/-- After the load of its line a load is done. -/
theorem Loaded.step (hp : s.Pending m) (h : s.Loaded) (i : DataUnitInput) : Calm (s.step V i) m :=
  calm_of_load_done V hp h.load h.holds h.answered h.left (h.clk_eq i) ⟨rfl, fun _ => rfl⟩ h.idle
    h.start rfl rfl

/-- After a store the cache only takes its defaults. -/
theorem Written.clk_eq (h : s.Written m) (i : DataUnitInput) :
    s.dcache.clk (s.dcacheIn i) s.chan.strobe (s.chan.dataOut i.float) =
      s.dcache.edgeDefaults (s.chan.dataOut i.float) :=
  clk_of_idle h.idle h.start i

/-- The store is acknowledged. -/
theorem Written.step (h : s.Written m) (i : DataUnitInput) : Calm (s.step V i) m := by
  have hclk := h.clk_eq i
  obtain ⟨hst, hsave⟩ := Iexec.step_lsWait_store V h.issued.state
    (h.issued.store_iff.mp h.store) (show (s.iexecInput i).dcacheWriteStrobe ≠ _ from h.strobe)
  obtain ⟨hchan, hleft, hcells⟩ := chan_step_of_answered V (i := i) h.answered (by rw [h.left]; omega)
  obtain ⟨-, -, hcoh⟩ := coherent_step_of_quiet V (i := i) h.coherent (by rw [hclk]; rfl)
    (by rw [hclk]; intro j; rfl)
  have hne : s.iexec.state ≠ .ls1 := by simp [h.issued.state]
  obtain ⟨-, hstart', -⟩ := Iexec.dcacheLines_step V hne (s.iexecInput i)
  change (s.step V i).iexec.state = .running at hst
  refine ⟨by rw [hst]; decide, ?_, Iexec.busyR_step V _ _, ?_, ?_, ?_, ?_, hleft, ?_⟩
  · intro hx
    rw [hst] at hx
    cases hx
  · rw [step_dcache, hclk]
    exact h.idle
  · rw [step_dcache, hclk]
    exact hstart'.trans h.start
  · rw [step_dcache, hclk, show (s.step V i).iexec.dcacheWriteStrobeSave = _ from hsave]
    exact Bool.eq_not_of_ne h.strobe
  · rw [step_dcache, hclk, hchan]
    exact h.answered
  · rw [hcells]
    exact hcoh

/-- The five ways in which the cache serves a request. -/
inductive Served (s : DataUnit) (i : DataUnitInput) : Prop where
  | write (hstore : s.iexec.memOp.store = true)
      (hhit : s.dcache.lineHit (s.dcacheIn i) = true)
  | hit (hload : s.iexec.memOp.store = false) (hh : s.dcache.Holds s.iexec.memOp)
  | evict (hmiss : ¬ s.dcache.Holds s.iexec.memOp)
      (hline : s.iexec.memOp.store = true → s.dcache.lineHit (s.dcacheIn i) = false)
      (hdirty : (s.dcache.metaRam (lineOf s.iexec.dcacheAddr)).dirty = true)
      (hserve : s.dcache.serve (s.dcacheIn i) (s.chan.dataOut i.float) =
        s.dcache.evict (s.dcacheIn i) (s.chan.dataOut i.float))
  | load (hmiss : ¬ s.dcache.Holds s.iexec.memOp) (hload : s.iexec.memOp.store = false)
      (hclean : (s.dcache.metaRam (lineOf s.iexec.dcacheAddr)).dirty = false)
      (hserve : s.dcache.serve (s.dcacheIn i) (s.chan.dataOut i.float) =
        s.dcache.load (s.dcacheIn i) (s.chan.dataOut i.float))
  | takeOver (hmiss : ¬ s.dcache.Holds s.iexec.memOp) (hstore : s.iexec.memOp.store = true)
      (hline : s.dcache.lineHit (s.dcacheIn i) = false)
      (hclean : (s.dcache.metaRam (lineOf s.iexec.dcacheAddr)).dirty = false)
      (hserve : s.dcache.serve (s.dcacheIn i) (s.chan.dataOut i.float) =
        s.dcache.initializeLine (s.chan.dataOut i.float))

/-- One of the five ways applies. -/
theorem Pending.served (hp : s.Pending m) (i : DataUnitInput) : s.Served i := by
  by_cases hwrite : (s.dcacheIn i).wren = true ∧ s.dcache.lineHit (s.dcacheIn i) = true
  · exact .write (by rw [← hp.wren_eq (i := i), hwrite.1]) hwrite.2
  have hline : s.iexec.memOp.store = true → s.dcache.lineHit (s.dcacheIn i) = false := by
    intro hst
    rw [← Bool.not_eq_true]
    exact fun hx => hwrite ⟨by rw [hp.wren_eq, hst], hx⟩
  by_cases hh : s.dcache.Holds s.iexec.memOp
  · -- a store whose bytes are present would have hit its line
    refine .hit ?_ hh
    rw [← Bool.not_eq_true]
    intro hst
    have := hline hst
    rw [(Dcache.lineHit_iff hp.addr_eq).mpr ⟨hh.tag, hh.valid⟩] at this
    cases this
  have hhit := Dcache.hit_eq_false hp.settled hp.addr_eq (hp.byteena_eq (i := i)) hh
  cases hd : (s.dcache.lineMeta (s.dcacheIn i)).dirty with
  | true => exact .evict hh hline hd (by rw [Dcache.serve, if_neg hwrite, if_pos hhit, if_pos hd])
  | false =>
      have hd' : ¬ (s.dcache.lineMeta (s.dcacheIn i)).dirty = true := by
        rw [hd]
        decide
      cases hst : s.iexec.memOp.store with
      | false =>
          exact .load hh hst hd (by
            rw [Dcache.serve, if_neg hwrite, if_pos hhit, if_neg hd', if_pos (by rw [hp.wren_eq, hst])])
      | true =>
          exact .takeOver hh hst (hline hst) hd (by
            rw [Dcache.serve, if_neg hwrite, if_pos hhit, if_neg hd',
              if_neg (by rw [hp.wren_eq, hst]; decide)])

/-- What becomes of a request that the cache looks at. -/
theorem Lookup.step (hp : s.Pending m) (h : s.Lookup) (i : DataUnitInput) :
    Situation (s.step V i) (s.iexec.memOp.write m) := by
  cases hp.served i with
  | write hstore hhit => exact .written (h.step_write V hp hstore hhit).2
  | hit hload hh =>
      rw [MemOp.write_load hload]
      exact .calm (h.step_hit V hp hload hh)
  | evict hmiss hline hdirty hserve =>
      obtain ⟨hop, hp', h'⟩ := h.step_evict V (i := i) hp hserve hmiss hdirty
      exact .storing m (by rw [hop]) hp' h'
  | load hmiss hload hclean hserve =>
      obtain ⟨hop, hp', h'⟩ := h.step_load V (i := i) hp hserve hmiss hload hclean
      exact .loading m (by rw [hop]) hp' h'
  | takeOver hmiss hstore hline hclean hserve =>
      obtain ⟨hop, hp', h', -⟩ := h.step_takeOver V (i := i) hp hserve hmiss hclean
      exact .lookup m (by rw [hop]) hp' h'

/-! ## Writing a line back -/

/-- Half-word {lit}`k` of a line. -/
theorem halfAddr_add (tag : BitVec 13) (l : BitVec 8) (k : ℕ) :
    halfAddr tag l 0 + BitVec.ofNat 24 k = halfAddr tag l k := by
  simp [halfAddr]

/-- Half-words up to {lit}`k` are in memory once half-word {lit}`k` has moved. -/
theorem stored_update {c : Dcache} {cells : BitVec 24 → BitVec 16} {l : BitVec 8} {k : Fin 8}
    (hprev : ∀ a, lineOf a = l → halfOf a < k → c.Cached a → byteAt cells a = (c.lane a).byte)
    (a : BitVec 25) (hl : lineOf a = l) (hk : halfOf a ≤ k) (hc : c.Cached a) :
    byteAt (Function.update cells (halfAddr (c.metaRam l).tag l k.val)
      (blend (Dcache.halfWord (c.line l) k).1 (cells (halfAddr (c.metaRam l).tag l k.val))
        (Dcache.halfWord (c.line l) k).2)) a = (c.lane a).byte := by
  have hlane : laneIn (c.line l) a = c.lane a := by rw [Dcache.lane, hl]
  rw [byteAt_update, hlane]
  by_cases heq : halfOf a = k
  · have htag : tagOf a = (c.metaRam l).tag := by rw [← hc.tag, hl]
    rw [if_pos ⟨⟨htag, hl, heq⟩, hc.ena⟩]
  · rw [if_neg (fun hx => heq hx.1.2.2)]
    exact hprev a hl (lt_of_le_of_ne hk heq) hc

/-- The stage waits while a line is written back. -/
theorem Storing.waits (hp : s.Pending m) (h : s.Storing) (i : DataUnitInput) :
    Iexec.Waits s.iexec (s.step V i).iexec :=
  hp.waits V (fun _ => h.missed) i

/-- The cache after an edge of {lit}`STORE_LINE` that leaves half-word {lit}`k` on its outputs. -/
def presenting (s : DataUnit) (i : DataUnitInput) (k : Fin 8) : Dcache :=
  { s.dcache.edgeDefaults (s.chan.dataOut i.float) with
    counter := k
    opDqm := (Dcache.halfWord (s.dcache.line (lineOf s.iexec.dcacheAddr)) k).1
    mcWriteData := (Dcache.halfWord (s.dcache.line (lineOf s.iexec.dcacheAddr)) k).2 }

/-- An unanswered write-back keeps its request. -/
theorem Storing.clk_waiting (h : s.Storing) (hw : s.chan.Waiting s.dcache.mcIn) (i : DataUnitInput) :
    s.dcache.clk (s.dcacheIn i) s.chan.strobe (s.chan.dataOut i.float) =
      s.presenting i s.dcache.counter := by
  have hne : ¬ s.chan.strobe = s.dcache.mcOpStart := hw.strobe
  simp only [Dcache.clk, h.state, hne, if_false, presenting, ← h.half]
  rfl

/-- A write-back in progress presents the next half-word, and ends with the last one. -/
theorem Storing.clk_moving (hp : s.Pending m) (h : s.Storing) {n : ℕ}
    (hmv : s.chan.Moving s.dcache.mcIn n) (i : DataUnitInput) :
    s.dcache.clk (s.dcacheIn i) s.chan.strobe (s.chan.dataOut i.float) =
      { s.presenting i (s.dcache.counter + 1) with
        metaWriteLineValid := s.dcache.counter != 6
        metaWren := s.dcache.counter == 6
        state := if s.dcache.counter = 6 then .idle else .storeLine } := by
  have heq : s.chan.strobe = s.dcache.mcOpStart := hmv.strobe
  have hne : ¬ s.dcache.counter = 7 := by
    intro hx
    have := h.counter
    rw [hx] at this
    exact absurd this (by decide)
  simp only [Dcache.clk, h.state, heq, if_true, Dcache.storeBeat, hne, if_false, presenting,
    hp.data_eq]

/-- The write-back goes on when its half-words up to {lit}`k` have moved. -/
theorem Storing.keep (hp : s.Pending m) (h : s.Storing) {k : Fin 8} (hk : k.val < 7)
    (hclk : s.dcache.clk (s.dcacheIn i) s.chan.strobe (s.chan.dataOut i.float) = s.presenting i k)
    (hcoh : s.dcache.Coherent (s.step V i).chan.cells m)
    (hphase : ((s.step V i).chan.Waiting s.dcache.mcIn ∧ k = 0) ∨
      ((s.step V i).chan.Moving s.dcache.mcIn k.val ∧
        ∀ a, lineOf a = lineOf s.iexec.dcacheAddr → halfOf a ≤ k → s.dcache.Cached a →
          byteAt (s.step V i).chan.cells a = (s.dcache.lane a).byte)) :
    (s.step V i).iexec.memOp = s.iexec.memOp ∧ Pending (s.step V i) m ∧ Storing (s.step V i) := by
  have hw := h.waits V hp i
  have hcache : (s.step V i).dcache = (s.presenting i k).clkN s.iexec.dcacheAddr := by
    rw [step_dcache, hclk, hw.addr]
  obtain ⟨hm, hd, -⟩ := coherent_step_of_quiet V (i := i) hp.coherent
    (by rw [hclk]; rfl) (by rw [hclk]; intro j; rfl)
  have hquiet : ∀ j, (s.step V i).dcache.dataWren j = false := by
    rw [hcache]
    intro j
    rfl
  have hline : ∀ l, (s.step V i).dcache.line l = s.dcache.line l := by
    intro l
    funext j
    simp only [Dcache.line, hd]
  refine ⟨hw.memOp, ⟨hw.issued, ?_, hcoh.congr hm hd, Dcache.settled_of_quiet hquiet⟩,
    ⟨?_, ?_, hquiet, ?_, ?_, ?_, ?_, ?_, ?_, ?_, ?_⟩⟩
  · rw [hw.save, hcache]
    exact hp.strobe
  · rw [hcache]
    exact h.state
  · rw [hw.start, hcache]
    exact h.start
  · rw [hw.addr, hm]
    exact h.dirty
  · rw [hw.memOp]
    rintro ⟨h1, h2, h3⟩
    rw [hm] at h1 h2
    simp only [hline] at h3
    exact h.missed ⟨h1, h2, h3⟩
  · rw [hcache]
    exact h.clean
  · rw [hw.addr, hm, hcache]
    exact h.opAddr
  · rw [hcache]
    exact h.opWren
  · rw [hw.addr, hline, hcache]
    rfl
  · rw [hcache]
    exact hk
  · rw [show (s.step V i).dcache.counter = k by rw [hcache]; rfl, hw.addr]
    rcases hphase with ⟨hx, h0⟩ | ⟨hx, hy⟩
    · refine .inl ⟨⟨?_, hx.left⟩, h0⟩
      rw [hcache]
      exact hx.strobe
    · refine .inr ⟨hx.congr (by rw [hcache]; rfl) (by rw [hcache]; rfl) (by rw [hcache]; rfl), ?_⟩
      intro a hl hka hc
      have hlane : (s.step V i).dcache.lane a = s.dcache.lane a := by
        rw [Dcache.lane, Dcache.lane, hline]
      rw [hlane]
      refine hy a hl hka ⟨?_, ?_, ?_⟩
      · rw [← hm]
        exact hc.valid
      · rw [← hm]
        exact hc.tag
      · rw [← hlane]
        exact hc.ena

/-- The half-word that moves at this edge is the one the cache presents. -/
theorem Storing.cells_step (h : s.Storing) {k : Fin 8}
    (hmv : (s.chan.advance s.dcache.mcIn i.ready).Moving s.dcache.mcIn k.val)
    (hreq : ∀ x, x = s.dcache.clk (s.dcacheIn i) s.chan.strobe (s.chan.dataOut i.float) →
      (x.opDqm, x.mcWriteData) =
        Dcache.halfWord (s.dcache.line (lineOf s.iexec.dcacheAddr)) k) :
    (s.step V i).chan.cells = Function.update s.chan.cells
      (halfAddr (s.dcache.metaRam (lineOf s.iexec.dcacheAddr)).tag (lineOf s.iexec.dcacheAddr) k.val)
      (blend (Dcache.halfWord (s.dcache.line (lineOf s.iexec.dcacheAddr)) k).1
        (s.chan.cells (halfAddr (s.dcache.metaRam (lineOf s.iexec.dcacheAddr)).tag
          (lineOf s.iexec.dcacheAddr) k.val))
        (Dcache.halfWord (s.dcache.line (lineOf s.iexec.dcacheAddr)) k).2) := by
  have haddr : s.dcache.mcIn.opAddr + BitVec.ofNat 24 k.val =
      halfAddr (s.dcache.metaRam (lineOf s.iexec.dcacheAddr)).tag (lineOf s.iexec.dcacheAddr) k.val := by
    rw [show s.dcache.mcIn.opAddr = _ from h.opAddr, halfAddr_add]
  rw [step_chan, hmv.transfer_write k.isLt h.opWren, BurstChannel.advance_cells, haddr, ← hreq _ rfl]
  rfl

/-- The write-back waits for its answer, which moves the first half-word. -/
theorem Storing.step_waiting (hp : s.Pending m) (h : s.Storing)
    (hwt : s.chan.Waiting s.dcache.mcIn) (hzero : s.dcache.counter = 0) (i : DataUnitInput) :
    (s.step V i).iexec.memOp = s.iexec.memOp ∧ Pending (s.step V i) m ∧ Storing (s.step V i) ∧
      (i.ready = true → (s.step V i).chan.strobe = s.dcache.mcOpStart) := by
  have hclk := h.clk_waiting hwt i
  rw [hzero] at hclk
  cases hr : i.ready with
  | false =>
      have hwt' := hwt.advance_not_ready
      have hchan : (s.step V i).chan = s.chan.advance s.dcache.mcIn false := by
        rw [step_chan, hr, hwt'.transfer]
      have hcells : (s.step V i).chan.cells = s.chan.cells := by
        rw [hchan, BurstChannel.advance_cells]
      obtain ⟨hop, hp', hs'⟩ := h.keep V hp (k := 0) (by decide) hclk
        (by rw [hcells]; exact hp.coherent) (.inl ⟨by rw [hchan]; exact hwt', rfl⟩)
      exact ⟨hop, hp', hs', fun hx => by cases hx⟩
  | true =>
      have hmv : (s.chan.advance s.dcache.mcIn i.ready).Moving s.dcache.mcIn (0 : Fin 8).val := by
        rw [hr]
        exact hwt.advance_ready rfl
      have hcells := h.cells_step V (i := i) hmv (by rintro x rfl; rw [hclk]; rfl)
      have hmv' : (s.step V i).chan.Moving s.dcache.mcIn 0 := by
        rw [step_chan]
        exact hmv.transfer
      obtain ⟨hop, hp', hs'⟩ := h.keep V hp (k := 0) (by decide) hclk
        (by rw [hcells]; exact hp.coherent.storeHalf (hp.coherent.dirty _ h.dirty) 0)
        (.inr ⟨hmv', fun a hl hk hc' => by
          rw [hcells]
          exact stored_update (fun b _ hb _ => absurd hb (by simp)) a hl hk hc'⟩)
      exact ⟨hop, hp', hs', fun _ => hmv'.strobe⟩

/-- The half-words of the line up to {lit}`k` have moved, the last of them in this cycle. -/
structure Storing.Moved (s s' : DataUnit) (m : ByteMem) (k : Fin 8) : Prop where
  moving : s'.chan.Moving s.dcache.mcIn k.val
  coherent : s.dcache.Coherent s'.chan.cells m
  stored : ∀ a, lineOf a = lineOf s.iexec.dcacheAddr → halfOf a ≤ k → s.dcache.Cached a →
    byteAt s'.chan.cells a = (s.dcache.lane a).byte

/-- The counter does not wrap while a line is written back. -/
theorem Storing.counter_succ (h : s.Storing) :
    (s.dcache.counter + 1).val = s.dcache.counter.val + 1 := by
  have := h.counter
  rw [Fin.val_add_one_of_lt']
  omega

/-- The next half-word moves. -/
theorem Storing.moved (hp : s.Pending m) (h : s.Storing)
    (hmv : s.chan.Moving s.dcache.mcIn s.dcache.counter.val)
    (hst : ∀ a, lineOf a = lineOf s.iexec.dcacheAddr → halfOf a ≤ s.dcache.counter →
      s.dcache.Cached a → byteAt s.chan.cells a = (s.dcache.lane a).byte) (i : DataUnitInput) :
    Storing.Moved s (s.step V i) m (s.dcache.counter + 1) := by
  have hnext := h.counter_succ
  have hclk := h.clk_moving hp hmv i
  have hadv : (s.chan.advance s.dcache.mcIn i.ready).Moving s.dcache.mcIn
      (s.dcache.counter + 1).val := by
    rw [hnext]
    exact hmv.advance _
  have hcells := h.cells_step V (i := i) hadv (by rintro x rfl; rw [hclk]; rfl)
  refine ⟨?_, ?_, fun a hl hk hc => ?_⟩
  · rw [step_chan]
    exact hadv.transfer
  · rw [hcells]
    exact hp.coherent.storeHalf (hp.coherent.dirty _ h.dirty) _
  · rw [hcells]
    refine stored_update (fun b hb hlt hcb => hst b hb ?_ hcb) a hl hk hc
    rw [Fin.lt_def, hnext] at hlt
    rw [Fin.le_def]
    omega

/-- With its last half-word the line is given up. -/
theorem Storing.step_last (hp : s.Pending m) (h : s.Storing)
    (hmv : s.chan.Moving s.dcache.mcIn s.dcache.counter.val) (h6 : s.dcache.counter = 6)
    (hmoved : Storing.Moved s (s.step V i) m (s.dcache.counter + 1)) :
    Pending (s.step V i) m ∧ Lookup (s.step V i) ∧
      (s.step V i).dcache.metaRam (lineOf s.iexec.dcacheAddr) =
        ⟨tagOf s.iexec.dcacheAddr, false, false⟩ := by
  have hw := h.waits V hp i
  have hcoh := hmoved.coherent
  have hcache : (s.step V i).dcache =
      ({ s.presenting i (s.dcache.counter + 1) with
        metaWriteLineValid := false
        metaWren := true
        state := .idle } : Dcache).clkN s.iexec.dcacheAddr := by
    rw [step_dcache, h.clk_moving hp hmv i, hw.addr, h6]
    rfl
  have honly := onlyLine_step V s i
  rw [hw.addr] at honly
  have hmeta : (s.step V i).dcache.metaRam (lineOf s.iexec.dcacheAddr) =
      ⟨tagOf s.iexec.dcacheAddr, false, false⟩ := by
    rw [hcache, Dcache.clkN_metaRam_self]
    change LineMeta.mk _ false s.dcache.metaWriteLineDirty = _
    rw [h.clean]
  have hmem : ∀ a, lineOf a = lineOf s.iexec.dcacheAddr →
      byteAt (s.step V i).chan.cells a = m a := by
    intro a hl
    by_cases hc : s.dcache.Cached a
    · have hle : halfOf a ≤ s.dcache.counter + 1 := by
        rw [h6, Fin.le_def]
        have := (halfOf a).isLt
        change _ ≤ 7
        omega
      rw [hmoved.stored a hl hle hc]
      exact hcoh.cached a hc
    · exact hcoh.memory a (fun hx => absurd hx hc)
  have hcoh' : (s.step V i).dcache.Coherent (s.step V i).chan.cells m := by
    refine hcoh.replace honly hmem ?_ ?_
    · intro a ha hc
      have := hc.valid
      rw [ha, hmeta] at this
      cases this
    · rw [hmeta]
      intro hx
      cases hx
  refine ⟨⟨hw.issued, ?_, hcoh', ?_⟩, ⟨?_, ?_, ?_, ?_⟩, hmeta⟩
  · rw [hw.save, hcache]
    exact hp.strobe
  · apply Dcache.settled_of_quiet
    rw [hcache]
    intro j
    rfl
  · rw [hcache]
    rfl
  · rw [hw.start, hcache]
    exact h.start
  · rw [hmoved.moving.strobe, hcache]
    rfl
  · rw [hmoved.moving.left, h.counter_succ, h6]
    decide

/-- Before that the write-back goes on. -/
theorem Storing.step_next (hp : s.Pending m) (h : s.Storing)
    (hmv : s.chan.Moving s.dcache.mcIn s.dcache.counter.val) (h6 : ¬ s.dcache.counter = 6)
    (hmoved : Storing.Moved s (s.step V i) m (s.dcache.counter + 1)) :
    Pending (s.step V i) m ∧ Storing (s.step V i) ∧
      (s.step V i).chan.strobe = (s.step V i).dcache.mcOpStart ∧
      (s.step V i).dcache.counter = s.dcache.counter + 1 := by
  have hlt : (s.dcache.counter + 1).val < 7 := by
    have := h.counter
    have : s.dcache.counter.val ≠ 6 := fun hx => h6 (Fin.ext hx)
    rw [h.counter_succ]
    omega
  have hclk : s.dcache.clk (s.dcacheIn i) s.chan.strobe (s.chan.dataOut i.float) =
      s.presenting i (s.dcache.counter + 1) := by
    rw [h.clk_moving hp hmv i, if_neg h6,
      show (s.dcache.counter != 6) = true from bne_iff_ne.mpr h6,
      show (s.dcache.counter == 6) = false from beq_eq_false_iff_ne.mpr h6, ← h.state]
    rfl
  obtain ⟨-, hp', hs'⟩ := h.keep V hp hlt hclk hmoved.coherent
    (.inr ⟨hmoved.moving, hmoved.stored⟩)
  refine ⟨hp', hs', ?_, ?_⟩
  · rw [hmoved.moving.strobe, step_dcache, hclk]
    rfl
  · rw [step_dcache, hclk]
    rfl

/-- A half-word moves; after the last one the line is given up. -/
theorem Storing.step_moving (hp : s.Pending m) (h : s.Storing)
    (hmv : s.chan.Moving s.dcache.mcIn s.dcache.counter.val)
    (hst : ∀ a, lineOf a = lineOf s.iexec.dcacheAddr → halfOf a ≤ s.dcache.counter →
      s.dcache.Cached a → byteAt s.chan.cells a = (s.dcache.lane a).byte) (i : DataUnitInput) :
    (s.step V i).iexec.memOp = s.iexec.memOp ∧ Pending (s.step V i) m ∧
      (if s.dcache.counter = 6 then
        Lookup (s.step V i) ∧
          (s.step V i).dcache.metaRam (lineOf s.iexec.dcacheAddr) =
            ⟨tagOf s.iexec.dcacheAddr, false, false⟩
      else Storing (s.step V i) ∧ (s.step V i).chan.strobe = (s.step V i).dcache.mcOpStart ∧
        (s.step V i).dcache.counter = s.dcache.counter + 1) := by
  have hmoved := h.moved V hp hmv hst i
  refine ⟨(h.waits V hp i).memOp, ?_⟩
  by_cases h6 : s.dcache.counter = 6
  · rw [if_pos h6]
    exact h.step_last V hp hmv h6 hmoved
  · rw [if_neg h6]
    exact h.step_next V hp hmv h6 hmoved

/-! ## Loading a line -/

/-- A line that is being loaded does not hold the operation. -/
theorem Loading.not_holds (hp : s.Pending m) (h : s.Loading) : ¬ s.dcache.Holds s.iexec.memOp := by
  intro hh
  have := hh.valid
  rw [← hp.issued.addr, h.invalid] at this
  cases this

/-- The stage waits while the line is loaded. -/
theorem Loading.waits (hp : s.Pending m) (h : s.Loading) (i : DataUnitInput) :
    Iexec.Waits s.iexec (s.step V i).iexec :=
  hp.waits V (fun _ => h.not_holds hp) i

/-- Memory agrees with the line that is loaded. -/
theorem Loading.memory (hp : s.Pending m) (h : s.Loading) (a : BitVec 25)
    (ha : lineOf a = lineOf s.iexec.dcacheAddr) : byteAt s.chan.cells a = m a := by
  refine hp.coherent.memory_of_clean ?_ a ha
  rw [← Bool.not_eq_true]
  intro hd
  have := hp.coherent.dirty _ hd
  rw [h.invalid] at this
  cases this

/-- The load of a line goes on, or ends with the whole line in place. -/
theorem Loading.keep (hp : s.Pending m) (h : s.Loading) {c : Dcache}
    (hclk : s.dcache.clk (s.dcacheIn i) s.chan.strobe (s.chan.dataOut i.float) = c)
    (hcells : (s.step V i).chan.cells = s.chan.cells)
    (hws : c.writeStrobeR = s.dcache.writeStrobeR) (hbe : c.cacheByteena = 0b1111#4)
    (hline : c.metaWren = true → c.metaWriteLineDirty = false ∧
      ∀ a, lineOf a = lineOf s.iexec.dcacheAddr → tagOf a = tagOf s.iexec.dcacheAddr →
        ((s.step V i).dcache.lane a).byte = byteAt s.chan.cells a) :
    Pending (s.step V i) m := by
  have hw := h.waits V hp i
  have hcache : (s.step V i).dcache = c.clkN s.iexec.dcacheAddr := by
    rw [step_dcache, hclk, hw.addr]
  have hram := s.dcache.clk_ram (s.dcacheIn i) s.chan.strobe (s.chan.dataOut i.float)
  rw [hclk] at hram
  have hmeta : (s.step V i).dcache.metaRam (lineOf s.iexec.dcacheAddr) =
      if c.metaWren then ⟨tagOf s.iexec.dcacheAddr, c.metaWriteLineValid, c.metaWriteLineDirty⟩
      else s.dcache.metaRam (lineOf s.iexec.dcacheAddr) := by
    rw [hcache, Dcache.clkN_metaRam_self, hram.1]
  have honly := onlyLine_step V s i
  rw [hw.addr] at honly
  refine ⟨hw.issued, ?_, ?_, ?_⟩
  · rw [hw.save, hcache, ← hp.strobe]
    exact hws
  · rw [hcells]
    refine hp.coherent.replace honly (h.memory hp) ?_ ?_
    · intro a ha hc
      have hv := hc.valid
      have ht := hc.tag
      rw [ha, hmeta] at hv ht
      cases hwr : c.metaWren with
      | true =>
          rw [hwr] at ht
          rw [(hline hwr).2 a ha ht.symm]
          exact h.memory hp a ha
      | false =>
          rw [hwr] at hv
          change (s.dcache.metaRam (lineOf s.iexec.dcacheAddr)).valid = true at hv
          rw [h.invalid] at hv
          cases hv
    · rw [hmeta]
      cases hwr : c.metaWren with
      | true =>
          intro hd
          rw [if_pos rfl] at hd
          rw [(hline hwr).1] at hd
          cases hd
      | false => exact hp.coherent.dirty _
  · rw [hcache]
    intro j b _
    change c.cacheByteena.getLsbD b.val = true
    rw [hbe]
    revert b
    decide

/-- A read burst leaves memory alone. -/
theorem Loading.cells_step (h : s.Loading) (i : DataUnitInput) :
    (s.step V i).chan.cells = s.chan.cells := by
  rcases h.phase with ⟨hwt, -⟩ | ⟨hmv, -⟩
  · cases hr : i.ready with
    | false => rw [step_chan, hr, hwt.advance_not_ready.transfer, BurstChannel.advance_cells]
    | true =>
        rw [step_chan, hr, (hwt.advance_ready rfl).transfer_read h.opWren,
          BurstChannel.advance_cells]
  · rw [step_chan, (hmv.advance i.ready).transfer_read h.opWren, BurstChannel.advance_cells]

/-- The load of a line waits for its answer. -/
theorem Loading.step_waiting (hp : s.Pending m) (h : s.Loading)
    (hwt : s.chan.Waiting s.dcache.mcIn) (hzero : s.dcache.counter = 0) (i : DataUnitInput) :
    (s.step V i).iexec.memOp = s.iexec.memOp ∧ Pending (s.step V i) m ∧ Loading (s.step V i) ∧
      (i.ready = true → (s.step V i).chan.strobe = s.dcache.mcOpStart) := by
  have hw := h.waits V hp i
  have hne : ¬ s.chan.strobe = s.dcache.mcOpStart := hwt.strobe
  have hclk : s.dcache.clk (s.dcacheIn i) s.chan.strobe (s.chan.dataOut i.float) =
      s.dcache.edgeDefaults (s.chan.dataOut i.float) := by
    simp only [Dcache.clk, h.state, hne, if_false]
  have hcache : (s.step V i).dcache =
      (s.dcache.edgeDefaults (s.chan.dataOut i.float)).clkN s.iexec.dcacheAddr := by
    rw [step_dcache, hclk, hw.addr]
  obtain ⟨hm, -, -⟩ := coherent_step_of_quiet V (i := i) hp.coherent
    (by rw [hclk]; rfl) (by rw [hclk]; intro j; rfl)
  have hmc : (s.step V i).dcache.mcIn = s.dcache.mcIn := by
    rw [hcache]
    rfl
  -- the answer moves no half-word into memory
  have hchan :
      ((s.step V i).chan.Waiting s.dcache.mcIn ∨ (s.step V i).chan.Moving s.dcache.mcIn 0) ∧
      (i.ready = true → (s.step V i).chan.strobe = s.dcache.mcOpStart) := by
    cases hr : i.ready with
    | false =>
        have hwt' := hwt.advance_not_ready
        have heq : (s.step V i).chan = s.chan.advance s.dcache.mcIn false := by
          rw [step_chan, hr, hwt'.transfer]
        exact ⟨.inl (by rw [heq]; exact hwt'), fun hx => by cases hx⟩
    | true =>
        have hmv := hwt.advance_ready rfl
        have heq : (s.step V i).chan = s.chan.advance s.dcache.mcIn true := by
          rw [step_chan, hr, hmv.transfer_read h.opWren]
        exact ⟨.inr (by rw [heq]; exact hmv), fun _ => by rw [heq]; exact hmv.strobe⟩
  have hcells := h.cells_step V i
  have hcounter : (s.step V i).dcache.counter = 0 := by
    rw [hcache]
    exact hzero
  refine ⟨hw.memOp, h.keep V hp hclk hcells rfl h.byteena (fun hx => by cases hx),
    ⟨?_, by rw [hw.memOp]; exact h.load, ?_, by rw [hw.addr, hm]; exact h.invalid, ?_, ?_, ?_, ?_, ?_, ?_⟩,
    hchan.2⟩
  · rw [hcache]
    exact h.state
  · rw [hw.start, hcache]
    exact h.start
  · rw [hcache]
    exact h.clean
  · rw [hcache]
    exact h.byteena
  · rw [hcache]
    exact h.ena
  · rw [hw.addr, hcache]
    exact h.opAddr
  · rw [hcache]
    exact h.opWren
  · rw [hmc, hcounter]
    rcases hchan.1 with hx | hx
    · exact .inl ⟨hx, rfl⟩
    · refine .inr ⟨hx, fun a _ _ hle => ?_, fun a _ _ heq => ?_⟩
      · exact absurd hle (by simp)
      · exact absurd heq (by simp)

/-- Half-word {lit}`k` of the line of an address. -/
theorem lineBase_add (a : BitVec 25) (k : ℕ) :
    lineBase a + BitVec.ofNat 24 k = halfAddr (tagOf a) (lineOf a) k := by
  have happ : tagOf a ++ lineOf a = a.extractLsb' 4 21 :=
    BitVec.extractLsb'_append_extractLsb'_eq_extractLsb' (by rfl)
  rw [halfAddr, happ]
  rfl

/-- The half-word that arrives holds the bytes of memory. -/
theorem Loading.dataOut_byte (h : s.Loading) {n : Fin 8} (hmv : s.chan.Moving s.dcache.mcIn n.val)
    (float : BitVec 16) {a : BitVec 25} (hl : lineOf a = lineOf s.iexec.dcacheAddr)
    (ht : tagOf a = tagOf s.iexec.dcacheAddr) (hh : halfOf a = n) :
    (s.chan.dataOut float).extractLsb' (8 * (a.toNat % 2)) 8 = byteAt s.chan.cells a := by
  have haddr : s.dcache.mcIn.opAddr + BitVec.ofNat 24 n.val =
      halfAddr (tagOf a) (lineOf a) (halfOf a).val := by
    rw [show s.dcache.mcIn.opAddr = _ from h.opAddr, hl, ht, hh, lineBase_add]
  rw [hmv.dataOut n.isLt h.opWren, haddr, byteAt_eq]

/-- The write register after a half-word: the one before has moved down. -/
theorem cacheWriteData_loadBeat (c : Dcache) (d : BitVec 16) (b : Fin 4) :
    (c.loadBeat d).cacheWriteData b = ⟨(c.cacheWriteData b).ena,
      if h : b.val < 2 then (c.cacheWriteData ⟨2 + b.val, by omega⟩).byte
      else d.extractLsb' (8 * (b.val - 2)) 8⟩ := by
  fin_cases b <;> rfl

/-- The lanes of a line after a half-word: an odd one completes a word. -/
theorem Loading.lane_step (h : s.Loading)
    (hmv : s.chan.Moving s.dcache.mcIn s.dcache.counter.val)
    (hwords : ∀ a, lineOf a = lineOf s.iexec.dcacheAddr → tagOf a = tagOf s.iexec.dcacheAddr →
      2 * (wordOf a).val + 2 ≤ s.dcache.counter.val →
        s.dcache.lane a = ⟨true, byteAt s.chan.cells a⟩)
    (hlast : ∀ a, lineOf a = lineOf s.iexec.dcacheAddr → tagOf a = tagOf s.iexec.dcacheAddr →
      (halfOf a).val + 1 = s.dcache.counter.val →
        (s.dcache.cacheWriteData ⟨2 + a.toNat % 2, by omega⟩).byte = byteAt s.chan.cells a)
    (hcache : (s.step V i).dcache =
      (s.dcache.loadBeat (s.chan.dataOut i.float)).clkN s.iexec.dcacheAddr)
    {a : BitVec 25} (hl : lineOf a = lineOf s.iexec.dcacheAddr)
    (ht : tagOf a = tagOf s.iexec.dcacheAddr)
    (hw : 2 * (wordOf a).val + 2 ≤ s.dcache.counter.val + 1) :
    (s.step V i).dcache.lane a = ⟨true, byteAt s.chan.cells a⟩ := by
  have hbits : ∀ b : Fin 4, (0b1111#4).getLsbD b.val = true := by decide
  have hh := halfOf_val a
  have hwd := wordOf_val a
  have hln := laneOf_val a
  rw [Dcache.lane, laneIn, hl, hcache, Dcache.clkN_line_self]
  change (if (s.dcache.counter.val == 2 * (wordOf a).val + 1) = true ∧
    s.dcache.cacheByteena.getLsbD (laneOf a).val = true then
      (s.dcache.loadBeat (s.chan.dataOut i.float)).cacheWriteData (laneOf a)
    else s.dcache.line (lineOf s.iexec.dcacheAddr) (wordOf a) (laneOf a)) = _
  by_cases hodd : s.dcache.counter.val = 2 * (wordOf a).val + 1
  · rw [if_pos ⟨by rw [beq_iff_eq]; exact hodd, by rw [h.byteena]; exact hbits _⟩,
      cacheWriteData_loadBeat, h.ena]
    congr 1
    by_cases hlow : (laneOf a).val < 2
    · rw [dif_pos hlow]
      have hlane : (⟨2 + (laneOf a).val, by omega⟩ : Fin 4) = ⟨2 + a.toNat % 2, by omega⟩ := by
        apply Fin.ext
        simp only
        omega
      rw [hlane]
      exact hlast a hl ht (by omega)
    · rw [dif_neg hlow, show (laneOf a).val - 2 = a.toNat % 2 by omega]
      exact h.dataOut_byte hmv i.float hl ht (Fin.ext (by omega))
  · rw [if_neg (fun hx => hodd (beq_iff_eq.mp hx.1))]
    have := hwords a hl ht (by omega)
    rw [Dcache.lane, laneIn, hl] at this
    exact this

/-- A half-word of the line arrives. -/
theorem Loading.dcache_moving (hp : s.Pending m) (h : s.Loading) {n : ℕ}
    (hmv : s.chan.Moving s.dcache.mcIn n) (i : DataUnitInput) :
    s.dcache.clk (s.dcacheIn i) s.chan.strobe (s.chan.dataOut i.float) =
        s.dcache.loadBeat (s.chan.dataOut i.float) ∧
      (s.step V i).dcache =
        (s.dcache.loadBeat (s.chan.dataOut i.float)).clkN s.iexec.dcacheAddr := by
  have heq : s.chan.strobe = s.dcache.mcOpStart := hmv.strobe
  have hclk : s.dcache.clk (s.dcacheIn i) s.chan.strobe (s.chan.dataOut i.float) =
      s.dcache.loadBeat (s.chan.dataOut i.float) := by
    simp only [Dcache.clk, h.state, heq, if_true]
  exact ⟨hclk, by rw [step_dcache, hclk, (h.waits V hp i).addr]⟩

/-- The words and the half-word that have come so far are those of memory. -/
structure Loading.Arrived (s : DataUnit) : Prop where
  moving : s.chan.Moving s.dcache.mcIn s.dcache.counter.val
  words : ∀ a, lineOf a = lineOf s.iexec.dcacheAddr → tagOf a = tagOf s.iexec.dcacheAddr →
    2 * (wordOf a).val + 2 ≤ s.dcache.counter.val →
      s.dcache.lane a = ⟨true, byteAt s.chan.cells a⟩
  last : ∀ a, lineOf a = lineOf s.iexec.dcacheAddr → tagOf a = tagOf s.iexec.dcacheAddr →
    (halfOf a).val + 1 = s.dcache.counter.val →
      (s.dcache.cacheWriteData ⟨2 + a.toNat % 2, by omega⟩).byte = byteAt s.chan.cells a

/-- The RAMs after the last half-word: the whole line is in place. -/
theorem Loading.ram_loaded (hp : s.Pending m) (h : s.Loading) (harr : Loading.Arrived s)
    (h7 : s.dcache.counter = 7) (i : DataUnitInput) :
    (s.step V i).dcache.metaRam (lineOf s.iexec.dcacheAddr) =
        ⟨tagOf s.iexec.dcacheAddr, true, false⟩ ∧
      ∀ a, lineOf a = lineOf s.iexec.dcacheAddr → tagOf a = tagOf s.iexec.dcacheAddr →
        (s.step V i).dcache.lane a = ⟨true, byteAt s.chan.cells a⟩ := by
  obtain ⟨-, hcache⟩ := h.dcache_moving V hp harr.moving i
  constructor
  · have hwr : (s.dcache.loadBeat (s.chan.dataOut i.float)).metaWren = true := beq_iff_eq.mpr h7
    rw [hcache, Dcache.clkN_metaRam_self, if_pos hwr, ← h.clean]
    rfl
  · intro a hl ht
    refine h.lane_step V harr.moving harr.words harr.last hcache hl ht ?_
    have := (wordOf a).isLt
    rw [h7]
    change _ ≤ 7 + 1
    omega

/-- The request stays pending while half-words arrive. -/
theorem Loading.pending_moving (hp : s.Pending m) (h : s.Loading) (harr : Loading.Arrived s)
    (i : DataUnitInput) : Pending (s.step V i) m := by
  obtain ⟨hclk, -⟩ := h.dcache_moving V hp harr.moving i
  refine h.keep V hp hclk (h.cells_step V i) rfl h.byteena fun hwr => ⟨h.clean, fun a hl ht => ?_⟩
  rw [(h.ram_loaded V hp harr (beq_iff_eq.mp hwr) i).2 a hl ht]

/-- With the last half-word the line is present. -/
theorem Loading.step_last (hp : s.Pending m) (h : s.Loading) (harr : Loading.Arrived s)
    (h7 : s.dcache.counter = 7) (i : DataUnitInput) : Loaded (s.step V i) := by
  have hw := h.waits V hp i
  obtain ⟨-, hcache⟩ := h.dcache_moving V hp harr.moving i
  obtain ⟨hmeta, hlane⟩ := h.ram_loaded V hp harr h7 i
  have hadv := harr.moving.advance i.ready
  have hchan : (s.step V i).chan = s.chan.advance s.dcache.mcIn i.ready := by
    rw [step_chan, hadv.transfer_read h.opWren]
  have hae := hp.issued.addr
  refine ⟨?_, by rw [hw.memOp]; exact h.load, ?_, ?_, ?_, ?_, ?_, ?_⟩
  · rw [hcache]
    change (if s.dcache.counter = 7 then DcacheState.idle else .loadLine) = .idle
    rw [if_pos h7]
  · rw [hw.start, hcache]
    exact h.start
  · rw [hchan, hadv.strobe, hcache]
    rfl
  · rw [hchan, hadv.left, h7]
    decide
  · rw [hw.memOp, ← hae, hmeta]
  · rw [hw.memOp, ← hae, hmeta]
  · intro b _
    rw [hw.memOp, ← hae]
    obtain ⟨ht, hl, -⟩ := sameWord_laneAddr s.iexec.dcacheAddr b
    rw [← Dcache.lane_laneAddr, hlane _ hl ht]

/-- Before that the line goes on being loaded. -/
theorem Loading.step_next (hp : s.Pending m) (h : s.Loading) (harr : Loading.Arrived s)
    (h7 : ¬ s.dcache.counter = 7) (i : DataUnitInput) :
    Loading (s.step V i) ∧ (s.step V i).chan.strobe = (s.step V i).dcache.mcOpStart ∧
      (s.step V i).dcache.counter = s.dcache.counter + 1 := by
  have hw := h.waits V hp i
  obtain ⟨-, hcache⟩ := h.dcache_moving V hp harr.moving i
  have hcells := h.cells_step V i
  have hadv := harr.moving.advance i.ready
  have hchan : (s.step V i).chan = s.chan.advance s.dcache.mcIn i.ready := by
    rw [step_chan, hadv.transfer_read h.opWren]
  have hwr : (s.dcache.loadBeat (s.chan.dataOut i.float)).metaWren = false :=
    beq_eq_false_iff_ne.mpr h7
  have hmeta : (s.step V i).dcache.metaRam (lineOf s.iexec.dcacheAddr) =
      s.dcache.metaRam (lineOf s.iexec.dcacheAddr) := by
    rw [hcache, Dcache.clkN_metaRam_self, hwr]
    rfl
  have hcnt : s.dcache.counter.val < 7 := by
    have := s.dcache.counter.isLt
    have : s.dcache.counter.val ≠ 7 := fun hx => h7 (Fin.ext hx)
    omega
  have hnext : (s.dcache.counter + 1).val = s.dcache.counter.val + 1 := by
    rw [Fin.val_add_one_of_lt']
    omega
  have hcounter : (s.step V i).dcache.counter = s.dcache.counter + 1 := by
    rw [hcache]
    rfl
  refine ⟨⟨?_, by rw [hw.memOp]; exact h.load, ?_, ?_, ?_, ?_, ?_, ?_, ?_, .inr ⟨?_, ?_, ?_⟩⟩, ?_,
    hcounter⟩
  · rw [hcache]
    change (if s.dcache.counter = 7 then DcacheState.idle else .loadLine) = .loadLine
    rw [if_neg h7]
  · rw [hw.start, hcache]
    exact h.start
  · rw [hw.addr, hmeta]
    exact h.invalid
  · rw [hcache]
    exact h.clean
  · rw [hcache]
    exact h.byteena
  · rw [hcache]
    exact h.ena
  · rw [hw.addr, hcache]
    exact h.opAddr
  · rw [hcache]
    exact h.opWren
  · rw [hcounter, hnext, hchan]
    exact hadv.congr (by rw [hcache]; rfl) (by rw [hcache]; rfl) (by rw [hcache]; rfl)
  · rw [hw.addr, hcounter, hnext, hcells]
    intro a hl ht hx
    exact h.lane_step V harr.moving harr.words harr.last hcache hl ht hx
  · rw [hw.addr, hcounter, hnext, hcells]
    intro a hl ht hh
    have hx : (s.step V i).dcache.cacheWriteData =
        (s.dcache.loadBeat (s.chan.dataOut i.float)).cacheWriteData := by
      rw [hcache]
      rfl
    rw [hx, cacheWriteData_loadBeat, dif_neg (Nat.not_lt.2 (Nat.le_add_right 2 _))]
    simp only [Nat.add_sub_cancel_left]
    exact h.dataOut_byte harr.moving i.float hl ht (Fin.ext (by omega))
  · rw [hchan, hadv.strobe, hcache]
    rfl

/-- A half-word of the line arrives; with the last one the line is present. -/
theorem Loading.step_moving (hp : s.Pending m) (h : s.Loading) (harr : Loading.Arrived s)
    (i : DataUnitInput) :
    (s.step V i).iexec.memOp = s.iexec.memOp ∧ Pending (s.step V i) m ∧
      (if s.dcache.counter = 7 then Loaded (s.step V i)
      else Loading (s.step V i) ∧ (s.step V i).chan.strobe = (s.step V i).dcache.mcOpStart ∧
        (s.step V i).dcache.counter = s.dcache.counter + 1) := by
  refine ⟨(h.waits V hp i).memOp, h.pending_moving V hp harr i, ?_⟩
  by_cases h7 : s.dcache.counter = 7
  · rw [if_pos h7]
    exact h.step_last V hp harr h7 i
  · rw [if_neg h7]
    exact h.step_next V hp harr h7 i

/-- The situations are closed under a cycle.  A store counts from the edge that hands it
over. -/
theorem Situation.step (h : s.Situation m) (i : DataUnitInput) :
    Situation (s.step V i) (if s.iexec.state = .ls1 then s.iexec.memOp.write m else m) := by
  have hpend : ∀ {m₀}, s.Pending m₀ → ¬ s.iexec.state = .ls1 := by
    intro m₀ hp
    rw [hp.issued.state]
    decide
  cases h with
  | calm h => exact h.step V i
  | lookup m₀ hm hp h =>
      rw [if_neg (hpend hp), hm]
      exact h.step V hp i
  | storing m₀ hm hp h =>
      rw [if_neg (hpend hp), hm]
      rcases h.phase with ⟨hwt, hzero⟩ | ⟨hmv, hst⟩
      · obtain ⟨hop, hp', h', -⟩ := h.step_waiting V hp hwt hzero i
        exact .storing m₀ (by rw [hop]) hp' h'
      · obtain ⟨hop, hp', h'⟩ := h.step_moving V hp hmv hst i
        split at h'
        · exact .lookup m₀ (by rw [hop]) hp' h'.1
        · exact .storing m₀ (by rw [hop]) hp' h'.1
  | loading m₀ hm hp h =>
      rw [if_neg (hpend hp), hm]
      rcases h.phase with ⟨hwt, hzero⟩ | ⟨hmv, hwords, hlast⟩
      · obtain ⟨hop, hp', h', -⟩ := h.step_waiting V hp hwt hzero i
        exact .loading m₀ (by rw [hop]) hp' h'
      · obtain ⟨hop, hp', h'⟩ := h.step_moving V hp ⟨hmv, hwords, hlast⟩ i
        split at h'
        · exact .loaded m₀ (by rw [hop]) hp' h'
        · exact .loading m₀ (by rw [hop]) hp' h'.1
  | loaded m₀ hm hp h =>
      rw [if_neg (hpend hp), hm, MemOp.write_load h.load]
      exact .calm (h.step V hp i)
  | written h =>
      have hst : ¬ s.iexec.state = .ls1 := by
        rw [h.issued.state]
        decide
      rw [if_neg hst]
      exact .calm (h.step V i)

end DataUnit

end Sumeru
