import Sumeru.Cache.Coherence

/-!
# Sumeru - Requests to the data cache

Both sides of the interface between the execute stage and its data cache, one edge at
a time: how a load or store keeps its request until the cache ends the wait, and what
the cache does to its RAMs in a cycle.

Main results:

- Theorem {lit}`Iexec.Issued.waits`: a wait that the cache does not end keeps the request.
- Theorem {lit}`Dcache.loadResult_of_holds`: a load that finds all its bytes gets the value
  of memory.
- Theorem {lit}`Dcache.onlyLine_cycle`: a cycle changes the line of the request only.
-/

namespace Sumeru

/-! ## Load and store instructions in the execute stage -/

namespace Iexec

variable (V : Megafunctions)

/-- The operation of a load or store in the execute stage. -/
def memOp (e : Iexec) : MemOp where
  store := e.cmdResultMux == .store
  addr := e.aluResult.extractLsb' 0 25
  lsOp := e.lsOp
  signed := e.lsLoadSign
  data := e.storeData

/-- The byte enables on the lines are those of the operation. -/
theorem byteena_eq (e : Iexec) : e.byteena = e.memOp.byteena := by
  rw [byteena, MemOp.byteena]
  congr 1
  ext i hi
  simp [memOp, BitVec.getElem_extractLsb']

/-- An operation handed to the cache. -/
structure Issued (e : Iexec) : Prop where
  state : e.state = .lsWait
  cmd : e.cmdResultMux = .load ∨ e.cmdResultMux = .store
  addr : e.dcacheAddr = e.memOp.addr
  wren : e.dcacheWren = e.memOp.store
  busy : e.busyR = true

/-- A busy stage keeps its operation. -/
theorem memOp_step {e : Iexec} (hst : e.state ≠ .running) (hbusy : e.busyR = true)
    (i : IexecInput) : (e.step V i).memOp = e.memOp := by
  have hacc : e.accepts i = false := by simp [accepts, hst]
  have hsame := sameInstruction_step V hacc
  have hdata : (e.step V i).storeData = e.storeData := by
    simp [step, nextStoreData, hbusy]
  simp only [memOp, aluResult, hsame.opA, hsame.opB, hsame.aluOp, hsame.cmdResultMux, hsame.lsOp,
    hsame.lsLoadSign, hdata]

/-- Outside {lit}`LS_1` the request lines to the cache rest. -/
theorem dcacheLines_step {e : Iexec} (hst : e.state ≠ .ls1) (i : IexecInput) :
    (e.step V i).dcacheAddr = e.dcacheAddr ∧ (e.step V i).dcacheStart = e.dcacheStart ∧
      (e.step V i).dcacheWren = e.dcacheWren := by
  cases hs : e.state <;> simp only [step, mainProcess, hs]
  case ls1 => exact absurd hs hst
  case running => split <;> exact ⟨rfl, rfl, rfl⟩
  case lsWait => split <;> [skip; split] <;> exact ⟨rfl, rfl, rfl⟩
  case divWait => split <;> exact ⟨rfl, rfl, rfl⟩
  case csrReadWait => split <;> exact ⟨rfl, rfl, rfl⟩

/-- Only the end of a wait moves the saved write strobe. -/
theorem writeStrobeSave_step {e : Iexec} (hst : e.state ≠ .lsWait) (i : IexecInput) :
    (e.step V i).dcacheWriteStrobeSave = e.dcacheWriteStrobeSave := by
  cases hs : e.state <;> simp only [step, mainProcess, hs]
  case lsWait => exact absurd hs hst
  case running => split <;> rfl
  case divWait => split <;> rfl
  case csrReadWait => split <;> rfl
  case ls1 => rfl

/-- An accepted load or store, and nothing else, leads to {lit}`LS_1`. -/
theorem state_step_ls1_iff {e : Iexec} (i : IexecInput) :
    (e.step V i).state = .ls1 ↔
      e.accepts i = true ∧ (i.iexecIn.cmd = .load ∨ i.iexecIn.cmd = .store) := by
  cases hs : e.state <;> simp only [step, mainProcess, hs]
  case running =>
    cases hacc : e.accepts i with
    | true =>
        simp only [if_true, accept, acceptState, true_and]
        cases hc : i.iexecIn.cmd <;> simp <;> split <;> simp
    | false => simp [edgeDefaults, hs]
  case ls1 => simp [accepts, hs]
  case lsWait => split <;> [skip; split] <;> simp [edgeDefaults, hs, accepts]
  case divWait => split <;> simp [edgeDefaults, hs, accepts]
  case csrReadWait => split <;> simp [edgeDefaults, hs, accepts]

/-- Only a load or store leads to {lit}`LS_1`, and only {lit}`LS_1` to {lit}`LS_WAIT`. -/
theorem state_step_ls {e : Iexec} (i : IexecInput) :
    ((e.step V i).state = .ls1 →
      (e.step V i).cmdResultMux = .load ∨ (e.step V i).cmdResultMux = .store) ∧
    ((e.step V i).state = .lsWait → e.state = .ls1 ∨ e.state = .lsWait) := by
  cases hs : e.state <;> simp only [step, mainProcess, hs]
  case running =>
    split
    · simp only [accept, acceptState]
      cases hc : i.iexecIn.cmd <;> simp <;> split <;> simp
    · simp [edgeDefaults, hs]
  case ls1 => simp
  case lsWait => split <;> [skip; split] <;> simp [edgeDefaults, hs]
  case divWait => split <;> simp [edgeDefaults, hs]
  case csrReadWait => split <;> simp [edgeDefaults, hs]

/-- A wait that the cache does not end goes on. -/
theorem step_lsWait_continue {e : Iexec} (hst : e.state = .lsWait) {i : IexecInput}
    (hload : ¬ (e.cmdResultMux = .load ∧ i.dcacheHit = true))
    (hstore : ¬ (e.cmdResultMux = .store ∧ i.dcacheWriteStrobe ≠ e.dcacheWriteStrobeSave)) :
    (e.step V i).state = .lsWait ∧
      (e.step V i).dcacheWriteStrobeSave = e.dcacheWriteStrobeSave := by
  simp [step, mainProcess, hst, hload, hstore, edgeDefaults]

/-- A load leaves the wait with a hit. -/
theorem step_lsWait_load {e : Iexec} (hst : e.state = .lsWait) {i : IexecInput}
    (hcmd : e.cmdResultMux = .load) (hhit : i.dcacheHit = true) :
    (e.step V i).state = .running ∧ (e.step V i).regfileWren = true ∧
      (e.step V i).dcacheWriteStrobeSave = e.dcacheWriteStrobeSave := by
  simp [step, mainProcess, hst, hcmd, hhit, edgeDefaults]

/-- A store leaves the wait with the write strobe. -/
theorem step_lsWait_store {e : Iexec} (hst : e.state = .lsWait) {i : IexecInput}
    (hcmd : e.cmdResultMux = .store) (hw : i.dcacheWriteStrobe ≠ e.dcacheWriteStrobeSave) :
    (e.step V i).state = .running ∧
      (e.step V i).dcacheWriteStrobeSave = !e.dcacheWriteStrobeSave := by
  simp [step, mainProcess, hst, hcmd, hw, edgeDefaults]

/-- The operation stays issued while the wait goes on. -/
theorem Issued.step {e : Iexec} (h : Issued e) {i : IexecInput}
    (hst : (e.step V i).state = .lsWait) : Issued (e.step V i) := by
  have hop := memOp_step V (by simp [h.state]) h.busy i
  obtain ⟨haddr, -, hwren⟩ := dcacheLines_step V (show e.state ≠ .ls1 by simp [h.state]) i
  have hsame := sameInstruction_step V (show e.accepts i = false by simp [accepts, h.state])
  refine ⟨hst, by rw [hsame.cmdResultMux]; exact h.cmd, ?_, ?_, ?_⟩
  · rw [haddr, hop, h.addr]
  · rw [hwren, hop, h.wren]
  · rw [busyR_step, hst]
    rfl

/-- The stage goes on waiting with its request unchanged. -/
structure Waits (e e' : Iexec) : Prop where
  issued : e'.Issued
  memOp : e'.memOp = e.memOp
  addr : e'.dcacheAddr = e.dcacheAddr
  start : e'.dcacheStart = e.dcacheStart
  save : e'.dcacheWriteStrobeSave = e.dcacheWriteStrobeSave

/-- An operation without an answer waits. -/
theorem Issued.waits {e : Iexec} (h : Issued e) {i : IexecInput}
    (hload : e.memOp.store = false → i.dcacheHit = false)
    (hstore : i.dcacheWriteStrobe = e.dcacheWriteStrobeSave) : Waits e (e.step V i) := by
  have hload' : ¬ (e.cmdResultMux = .load ∧ i.dcacheHit = true) := by
    rintro ⟨hc, hh⟩
    rw [hload (by simp [Iexec.memOp, hc])] at hh
    cases hh
  obtain ⟨hst, hsave⟩ := step_lsWait_continue V h.state hload' (fun hx => hx.2 hstore)
  have hne : e.state ≠ .ls1 := by simp [h.state]
  obtain ⟨haddr, hstart, -⟩ := dcacheLines_step V hne i
  exact ⟨h.step V hst, memOp_step V (by simp [h.state]) h.busy i, haddr, hstart, hsave⟩

/-- Operations that do not store are loads. -/
theorem Issued.load_iff {e : Iexec} (h : Issued e) :
    e.memOp.store = false ↔ e.cmdResultMux = .load := by
  rcases h.cmd with hc | hc <;> simp [Iexec.memOp, hc]

/-- Operations that store are stores. -/
theorem Issued.store_iff {e : Iexec} (h : Issued e) :
    e.memOp.store = true ↔ e.cmdResultMux = .store := by
  rcases h.cmd with hc | hc <;> simp [Iexec.memOp, hc]

end Iexec

/-! ## One cycle of the cache -/

namespace Dcache

variable {c : Dcache} {i : DcacheInput} {op : MemOp}

/-- Every lane that the RAMs show is defined. -/
def Settled (c : Dcache) : Prop :=
  ∀ (j b : Fin 4), c.dataWren j = true → c.cacheByteena.getLsbD b.val = true

/-- RAMs that are not written are settled. -/
theorem settled_of_quiet (h : ∀ j, c.dataWren j = false) : c.Settled := by
  intro j b hj
  rw [h j] at hj
  cases hj

/-- Settled RAMs show their line. -/
theorem data_of_settled (h : c.Settled) (i : DcacheInput) : c.data i = c.line (lineOf i.addr) := by
  funext j b
  have hb : (c.dataWren j && !c.cacheByteena.getLsbD b.val) = false := by
    cases hj : c.dataWren j with
    | false => rfl
    | true => simp [h j b hj]
  simp only [data, hb]
  rfl

/-- The line of the access is present with all its bytes. -/
structure Holds (c : Dcache) (op : MemOp) : Prop where
  valid : (c.metaRam (lineOf op.addr)).valid = true
  tag : (c.metaRam (lineOf op.addr)).tag = tagOf op.addr
  ena : ∀ b : Fin 4, op.byteena.getLsbD b.val = true →
    (c.line (lineOf op.addr) (wordOf op.addr) b).ena = true

/-- A line hit in terms of tag and valid bit. -/
theorem lineHit_iff (ha : i.addr = op.addr) :
    c.lineHit i = true ↔ (c.metaRam (lineOf op.addr)).tag = tagOf op.addr ∧
      (c.metaRam (lineOf op.addr)).valid = true := by
  simp [lineHit, lineMeta, ha]

/-- A hit in terms of the line. -/
theorem hit_iff (h : c.Settled) (ha : i.addr = op.addr) (hb : i.byteena = op.byteena) :
    c.hit i = true ↔ c.Holds op := by
  rw [hit, Bool.and_eq_true, lineHit_iff ha, decide_eq_true_eq, cacheData, data_of_settled h, ha, hb]
  constructor
  · rintro ⟨⟨h1, h2⟩, h3⟩
    exact ⟨h2, h1, h3⟩
  · rintro ⟨h1, h2, h3⟩
    exact ⟨⟨h2, h1⟩, h3⟩

/-- Without a hit the access misses its line or some of its bytes. -/
theorem hit_eq_false (h : c.Settled) (ha : i.addr = op.addr) (hb : i.byteena = op.byteena)
    (hmiss : ¬ c.Holds op) : c.hit i = false := by
  rw [← Bool.not_eq_true, hit_iff h ha hb]
  exact hmiss

/-- The word shown to the execute stage holds the lanes of the line. -/
theorem byteOf_readData (h : c.Settled) (i : DcacheInput) (b : Fin 4) :
    byteOf (c.readData i) b = (c.line (lineOf i.addr) (wordOf i.addr) b).byte := by
  rw [readData, cacheData, data_of_settled h]
  exact MemOp.byteOf_append (fun b => (c.line (lineOf i.addr) (wordOf i.addr) b).byte) b

/-- A load that finds all its bytes gets the memory's value. -/
theorem loadResult_of_holds {cells : BitVec 24 → BitVec 16} {m : ByteMem} (hs : c.Settled)
    (hc : Coherent c cells m) (h : c.Holds op) (hne : op.byteena ≠ 0#4) (ha : i.addr = op.addr) :
    loadResult op.byteena op.signed (c.readData i) = op.laneValue m := by
  apply MemOp.loadResult_eq_laneValue hne
  intro b hb
  rw [byteOf_readData hs, ha, ← c.lane_laneAddr op.addr b]
  exact hc.cached _ ((c.cached_laneAddr_iff op.addr b).mpr ⟨h.valid, h.tag, h.ena b hb⟩)

/-! ### Effect on the RAMs -/

/-- The edge of {lit}`clk` leaves the RAMs alone. -/
theorem clk_ram (c : Dcache) (i : DcacheInput) (st : Bool) (d : BitVec 16) :
    (c.clk i st d).metaRam = c.metaRam ∧ (c.clk i st d).dataRam = c.dataRam := by
  cases hs : c.state <;> simp only [clk, hs]
  case idle =>
    split
    · unfold serve
      split <;> [skip; split <;> [split <;> [skip; split]; skip]] <;> exact ⟨rfl, rfl⟩
    · exact ⟨rfl, rfl⟩
  case loadLine => split <;> exact ⟨rfl, rfl⟩
  case storeLine =>
    split
    · unfold storeBeat
      split <;> exact ⟨rfl, rfl⟩
    · exact ⟨rfl, rfl⟩

/-- The RAMs are written at the line of the request only. -/
theorem onlyLine_clkN (c : Dcache) (addr : BitVec 25) : OnlyLine c (c.clkN addr) (lineOf addr) := by
  constructor
  · intro l hl
    simp only [clkN]
    split
    · rw [Function.update_of_ne hl]
    · rfl
  · intro l hl
    funext j
    simp only [line, clkN]
    split
    · rw [Function.update_of_ne hl]
    · rfl

/-- A cycle writes to the line of its address only. -/
theorem onlyLine_cycle (c : Dcache) (i : DcacheInput) (st : Bool) (d : BitVec 16) (addr : BitVec 25) :
    OnlyLine c ((c.clk i st d).clkN addr) (lineOf addr) := by
  have h := onlyLine_clkN (c.clk i st d) addr
  obtain ⟨hm, hd⟩ := c.clk_ram i st d
  constructor
  · intro l hl
    rw [h.metaRam l hl, hm]
  · intro l hl
    rw [h.line l hl]
    funext j
    simp only [line, hd]

/-- The tag of the line that is written. -/
theorem clkN_metaRam_self (c : Dcache) (addr : BitVec 25) :
    (c.clkN addr).metaRam (lineOf addr) =
      if c.metaWren then ⟨tagOf addr, c.metaWriteLineValid, c.metaWriteLineDirty⟩
      else c.metaRam (lineOf addr) := by
  simp only [clkN]
  split
  · rw [Function.update_self]
  · rfl

/-- The lanes of the line that is written. -/
theorem clkN_line_self (c : Dcache) (addr : BitVec 25) (j b : Fin 4) :
    (c.clkN addr).line (lineOf addr) j b =
      if c.dataWren j = true ∧ c.cacheByteena.getLsbD b.val = true then c.cacheWriteData b
      else c.line (lineOf addr) j b := by
  simp only [line, clkN]
  cases hj : c.dataWren j with
  | false => simp
  | true => simp [Function.update_self]

/-- Without write enables the RAMs rest. -/
theorem clkN_quiet {c : Dcache} (hm : c.metaWren = false) (hd : ∀ j, c.dataWren j = false)
    (addr : BitVec 25) : (c.clkN addr).metaRam = c.metaRam ∧ (c.clkN addr).dataRam = c.dataRam := by
  constructor
  · simp [clkN, hm]
  · funext j
    simp [clkN, hd j]

end Dcache

end Sumeru
