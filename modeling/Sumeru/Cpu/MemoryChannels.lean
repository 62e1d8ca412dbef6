import Sumeru.Cpu.PowerUp

/-!
# Sumeru - The processor on its memory channels

How the units of {lit}`cpu.vhd` behave towards the arbiter, from power-up on.  Each of them
toggles its start signal only when the strobe has caught up with it and holds its request
until then, so the memory channels of the whole processor keep the rules under which the
memory system is a memory.  After the release of the reset and with an idle serial line the
data cache is the only unit that writes.

Main results:

- Theorem {lit}`Processor.channelContract`: the channels of the processor keep their rules.
- Theorem {lit}`Processor.fetch_readPort`: the instruction cache reads the memory.
- Theorem {lit}`Processor.ownsMemory`: the data cache is the only writer.
-/

namespace Sumeru

/-! ## The data cache -/

namespace Dcache

/-- The cache towards its channel: between the answer and the end of a burst its request is
closed, and what it asks for is that of its state. -/
structure Talks (c : Dcache) (strobe : Bool) : Prop where
  answered : c.state = .idle ∨ c.counter ≠ 0 → strobe = c.mcOpStart
  loads : c.state = .loadLine → c.opWren = false ∧ c.opDqm = 0b00#2
  stores : c.state = .storeLine → c.opWren = true
  aligned : c.opAddr.toNat % 8 = 0

variable {c c' : Dcache} {strobe strobe' : Bool}

/-- An edge that leaves the request and the position alone. -/
theorem Talks.keep (h : c.Talks strobe) (hrest : strobe = c.mcOpStart → strobe' = strobe)
    (hst : c'.state = c.state) (hcount : c'.counter = c.counter)
    (hmc : c'.mcOpStart = c.mcOpStart ∧ c'.opAddr = c.opAddr ∧ c'.opWren = c.opWren ∧
      c'.opDqm = c.opDqm) : c'.Talks strobe' := by
  obtain ⟨hstart, haddr, hwren, hdqm⟩ := hmc
  refine ⟨fun hx => ?_, fun hx => ?_, fun hx => ?_, by rw [haddr]; exact h.aligned⟩
  · rw [hst, hcount] at hx
    have heq := h.answered hx
    rw [hrest heq, heq, hstart]
  · rw [hwren, hdqm]
    exact h.loads (hst ▸ hx)
  · rw [hwren]
    exact h.stores (hst ▸ hx)

/-- The address of a line that is written back. -/
theorem evict_aligned (tag : BitVec 13) (l : BitVec 8) : (tag ++ l ++ 0#3).toNat % 8 = 0 := by
  rw [toNat_append_eq]
  simp

/-- A request that the cache looks at is the only one that it makes. -/
theorem Talks.serve (h : c.Talks strobe) (hrest : strobe = c.mcOpStart → strobe' = strobe)
    (i : DcacheInput) (d : BitVec 16) : (c.serve i d).Talks strobe' := by
  unfold Dcache.serve
  split
  · exact h.keep hrest rfl rfl ⟨rfl, rfl, rfl, rfl⟩
  · split
    · split
      · refine ⟨fun hx => ?_, fun hx => ?_, fun _ => rfl, evict_aligned _ _⟩
        · rcases hx with hx | hx
          · cases hx
          · exact absurd rfl hx
        · cases hx
      · split
        · refine ⟨fun hx => ?_, fun _ => ⟨rfl, rfl⟩, fun hx => ?_, FetchUnit.lineBase_aligned _⟩
          · rcases hx with hx | hx
            · cases hx
            · exact absurd rfl hx
          · cases hx
        · exact h.keep hrest rfl rfl ⟨rfl, rfl, rfl, rfl⟩
    · exact h.keep hrest rfl rfl ⟨rfl, rfl, rfl, rfl⟩

/-- A half-word of a load leaves the request alone. -/
theorem Talks.loadBeat (h : c.Talks strobe) (hst : c.state = .loadLine)
    (heq : strobe = c.mcOpStart) (hrest : strobe = c.mcOpStart → strobe' = strobe)
    (d : BitVec 16) : (c.loadBeat d).Talks strobe' := by
  refine ⟨fun _ => (hrest heq).trans heq, fun _ => h.loads hst, fun hx => ?_, h.aligned⟩
  change (if c.counter = 7 then DcacheState.idle else .loadLine) = _ at hx
  split at hx <;> cases hx

/-- A half-word of a write-back changes mask and data only. -/
theorem Talks.storeBeat (h : c.Talks strobe) (hst : c.state = .storeLine)
    (heq : strobe = c.mcOpStart) (hrest : strobe = c.mcOpStart → strobe' = strobe)
    (i : DcacheInput) (d : BitVec 16) : (c.storeBeat i d).Talks strobe' := by
  unfold Dcache.storeBeat
  split
  · refine ⟨fun _ => (hrest heq).trans heq, fun hx => ?_, fun _ => h.stores hst, h.aligned⟩
    exact absurd (hst.symm.trans hx) (by decide)
  · refine ⟨fun _ => (hrest heq).trans heq, fun hx => ?_, fun _ => h.stores hst, h.aligned⟩
    change (if c.counter = 6 then DcacheState.idle else .storeLine) = _ at hx
    split at hx <;> cases hx

/-- The cache goes on from edge to edge. -/
theorem Talks.step (h : c.Talks strobe) (hrest : strobe = c.mcOpStart → strobe' = strobe)
    (i : DcacheInput) (d : BitVec 16) (addr : BitVec 25) :
    ((c.clk i strobe d).clkN addr).Talks strobe' := by
  have hclk : (c.clk i strobe d).Talks strobe' := by
    cases hst : c.state <;> simp only [clk, hst]
    case idle =>
      split
      · exact h.serve hrest i d
      · exact h.keep hrest rfl rfl ⟨rfl, rfl, rfl, rfl⟩
    case loadLine =>
      split
      · rename_i heq
        exact h.loadBeat hst heq hrest d
      · exact h.keep hrest rfl rfl ⟨rfl, rfl, rfl, rfl⟩
    case storeLine =>
      split
      · rename_i heq
        exact h.storeBeat hst heq hrest i d
      · exact h.keep hrest rfl rfl ⟨rfl, rfl, rfl, rfl⟩
  exact ⟨hclk.answered, hclk.loads, hclk.stores, hclk.aligned⟩

/-- A request is made only when the last one is answered. -/
theorem Talks.toggle (h : c.Talks strobe) {i : DcacheInput} {d : BitVec 16}
    (hne : (c.clk i strobe d).mcOpStart ≠ c.mcOpStart) : strobe = c.mcOpStart := by
  cases hst : c.state <;> simp only [clk, hst] at hne
  case idle => exact h.answered (.inl hst)
  case loadLine => split at hne <;> exact absurd rfl hne
  case storeLine =>
    split at hne
    · unfold Dcache.storeBeat at hne
      split at hne <;> exact absurd rfl hne
    · exact absurd rfl hne

/-- An open request is held. -/
theorem Talks.hold (h : c.Talks strobe) (i : DcacheInput) (d : BitVec 16) (addr : BitVec 25)
    (hopen : strobe ≠ c.mcOpStart) :
    ((c.clk i strobe d).clkN addr).state = c.state ∧
      ((c.clk i strobe d).clkN addr).counter = c.counter ∧
      ((c.clk i strobe d).clkN addr).mcIn = c.mcIn := by
  change (c.clk i strobe d).state = c.state ∧ (c.clk i strobe d).counter = c.counter ∧
    (c.clk i strobe d).mcIn = c.mcIn
  cases hst : c.state <;> simp only [clk, hst, hopen, if_false]
  case idle => exact absurd (h.answered (.inl hst)) hopen
  case loadLine => exact ⟨hst, rfl, rfl⟩
  case storeLine => exact ⟨hst, rfl, rfl⟩

/-- A half-word of a load but the last. -/
theorem load_succ (hst : c.state = .loadLine) (heq : strobe = c.mcOpStart) (hk : c.counter ≠ 7)
    (i : DcacheInput) (d : BitVec 16) (addr : BitVec 25) :
    ((c.clk i strobe d).clkN addr).state = .loadLine ∧
      ((c.clk i strobe d).clkN addr).counter = c.counter + 1 := by
  change (c.clk i strobe d).state = _ ∧ (c.clk i strobe d).counter = _
  simp only [clk, hst, heq, if_true]
  exact ⟨if_neg hk, rfl⟩

end Dcache

/-! ## The DMA engine and the receiver -/

/-- The engine towards its channel while nothing is written. -/
structure PeriphDma.Reads (d : PeriphDma) (strobe : Bool) : Prop where
  running : d.memState = .running → strobe = d.memOpStart
  wait : d.memState = .wait → d.memOpStrobeSave = !d.memOpStart
  wren : d.opWren = false
  writeAck : d.writeAckR = false

namespace PeriphDma.Reads

variable {d : PeriphDma} {strobe strobe' : Bool} {p : PeriphDmaChannelIn}

/-- What an edge does to an engine that is asked for no write. -/
theorem step_cases (h : d.Reads strobe) (hwrite : p.write = false) (x : BitVec 16) :
    (d.memState = .running ∧ d.step strobe x p = d.startRead strobe p) ∨
      (d.memState = .wait ∧ strobe = d.memOpStart ∧
        ∃ r ack, d.step strobe x p =
          { d with readAckR := ack, readData := r, memState := .running }) ∨
      d.step strobe x p = d := by
  cases hst : d.memState with
  | running =>
      by_cases hr : p.read ≠ d.readAckR
      · exact .inl ⟨rfl, by simp [step, hst, hr]⟩
      · exact .inr (.inr (by simp [step, hst, hr, hwrite, h.writeAck]))
  | wait =>
      by_cases hs : strobe ≠ d.memOpStrobeSave
      · refine .inr (.inl ⟨rfl, ?_, ?_⟩)
        · rw [h.wait hst] at hs
          exact Bool.not_eq_not.mp hs
        · simp only [step, hst, hs, if_true, ne_eq, not_false_eq_true, finish, h.wren]
          exact ⟨_, _, rfl⟩
      · exact .inr (.inr (by simp [step, hst, hs]))

/-- The engine goes on from edge to edge. -/
theorem step (h : d.Reads strobe) (hrest : strobe = d.memOpStart → strobe' = strobe)
    (hwrite : p.write = false) (x : BitVec 16) : (d.step strobe x p).Reads strobe' := by
  rcases h.step_cases hwrite x with ⟨hst, hd⟩ | ⟨-, heq, r, ack, hd⟩ | hd
  · rw [hd]
    refine ⟨fun hx => ?_, fun _ => ?_, rfl, h.writeAck⟩
    · cases hx
    · change strobe = !!d.memOpStart
      rw [Bool.not_not]
      exact h.running hst
  · rw [hd]
    exact ⟨fun _ => (hrest heq).trans heq, (fun hx => by cases hx), h.wren, h.writeAck⟩
  · rw [hd]
    refine ⟨fun hst => ?_, h.wait, h.wren, h.writeAck⟩
    rw [hrest (h.running hst)]
    exact h.running hst

/-- A request is made only when the last one is answered. -/
theorem toggle (h : d.Reads strobe) (hwrite : p.write = false) (x : BitVec 16)
    (hne : (d.step strobe x p).memOpStart ≠ d.memOpStart) : strobe = d.memOpStart := by
  rcases h.step_cases hwrite x with ⟨hst, -⟩ | ⟨-, heq, -⟩ | hd
  · exact h.running hst
  · exact heq
  · rw [hd] at hne
    exact absurd rfl hne

/-- An open request is held. -/
theorem hold (h : d.Reads strobe) (hwrite : p.write = false) (x : BitVec 16)
    (hopen : strobe ≠ d.memOpStart) : d.step strobe x p = d := by
  rcases h.step_cases hwrite x with ⟨hst, -⟩ | ⟨-, heq, -⟩ | hd
  · exact absurd (h.running hst) hopen
  · exact absurd heq hopen
  · exact hd

end PeriphDma.Reads

/-- On an idle line the receiver stays asleep, whatever is written to its registers. -/
theorem UartRx.Asleep.step_idle {u : UartRx} (h : u.Asleep) (csrIn : CsrChannelIn)
    (writeAck reset : Bool) : ((u.step csrIn writeAck true).aset reset).Asleep := by
  have hline : ¬ u.rxShregData = 0x0000#16 := by
    rw [h.line]
    decide
  have hidle : (u.fsm writeAck).rxdState = .idle ∧ (u.fsm writeAck).writeR = u.writeR := by
    simp only [fsm, stateEdge, h.state, idleEdge, if_neg hline]
    split <;> exact ⟨rfl, rfl⟩
  have hones : BitVec.ofBool true ++ u.rxShregData.extractLsb' 1 15 = 0xFFFF#16 := by
    rw [h.line]
    decide
  have hshift : (u.shift (u.fsm writeAck) true).Asleep :=
    ⟨hidle.1, hones, hidle.2.trans h.write⟩
  have hregs : (u.step csrIn writeAck true).Asleep := by
    unfold UartRx.step rxRegUpdate
    repeat' split
    all_goals exact ⟨hshift.state, hshift.line, hshift.write⟩
  unfold aset
  split
  · exact ⟨hregs.state, rfl, hregs.write⟩
  · exact hregs

/-! ## The channels of the processor -/

namespace Processor

variable (V : Megafunctions) (rom : BitVec 10 → BitVec 16) (q : BitVec 16)
  (mem : BitVec 24 → BitVec 16) (inp : ℕ → ProcessorInput)

/-- The requests of all channels along a run. -/
def channels (t : ℕ) : Channel → MemChannelIn :=
  (run V rom q mem inp t).boot.mc (run V rom q mem inp t).others

/-- The data pins of the memory when nobody drives them. -/
def floats (t : ℕ) : BitVec 16 := (inp t).float

/-- The strobe of a channel. -/
def strobe (c : Channel) (t : ℕ) : Bool :=
  (MemorySystem.run (channels V rom q mem inp) t).opStrobe c

/-- The inputs of the fetch unit in a run. -/
def fetchInputs (t : ℕ) : FetchUnitInput := (run V rom q mem inp t).fetchInput (inp t)

variable {V rom q mem inp} {t T : ℕ}

/-- The channels are those in front of the loader and the memory. -/
theorem channels_eq : channels V rom q mem inp =
    BootSystem.channels rom q mem (bootInputs V rom q mem inp) := by
  funext t
  rw [channels, run_boot]
  rfl

/-- Arbiter, controller and device run as in {lit}`SdramSystem`. -/
theorem run_sdram (t : ℕ) : (run V rom q mem inp t).boot.sdram =
    SdramSystem.run (channels V rom q mem inp) (floats inp) mem t := by
  rw [run_boot, BootSystem.run_sdram, channels_eq]
  rfl

/-- The strobes that the units see. -/
theorem opStrobe_eq (c : Channel) (t : ℕ) :
    (run V rom q mem inp t).boot.sdram.sys.opStrobe c = strobe V rom q mem inp c t := by
  rw [run_sdram, SdramSystem.sys_run]
  rfl

/-- The half-word that the units see. -/
theorem sdcDataOut_eq (t : ℕ) : (run V rom q mem inp t).sdcDataOut (inp t) =
    dataOutAt (channels V rom q mem inp) (floats inp) mem t := by
  rw [sdcDataOut, run_sdram]
  rfl

/-- The memory. -/
theorem cells_eq_cellsAt (t : ℕ) : cells V rom q mem inp t =
    cellsAt (channels V rom q mem inp) (floats inp) mem t := by
  rw [cells_eq, channels_eq]
  rfl

/-- The channel of the data cache. -/
theorem channels_data (t : ℕ) :
    channels V rom q mem inp t 1 = (run V rom q mem inp t).dcache.mcIn :=
  rfl

/-- The channel of the DMA engine. -/
theorem channels_dma (t : ℕ) :
    channels V rom q mem inp t dmaChannel = (run V rom q mem inp t).dma.mcIn :=
  rfl

/-- The channel of the loader. -/
theorem channels_loader (t : ℕ) :
    channels V rom q mem inp t loaderChannel = (run V rom q mem inp t).boot.mc7 :=
  rfl

/-- The units in front of the arbiter; the other channels are not used. -/
theorem channel_cases (c : Channel) : c = 0 ∨ c = 1 ∨ c = dmaChannel ∨ c = loaderChannel ∨
    ∀ V rom q mem inp t, channels V rom q mem inp t c = unusedMcIn := by
  by_cases hfetch : c = 0
  · exact .inl hfetch
  by_cases hdata : c = 1
  · exact .inr (.inl hdata)
  by_cases hdma : c = dmaChannel
  · exact .inr (.inr (.inl hdma))
  by_cases hloader : c = loaderChannel
  · exact .inr (.inr (.inr (.inl hloader)))
  · refine .inr (.inr (.inr (.inr fun V rom q mem inp t => ?_)))
    rw [channels, BootSystem.mc, if_neg hloader, others, if_neg hfetch, if_neg hdata, if_neg hdma]

/-! ### Instruction fetch -/

/-- The fetch unit runs on its inputs. -/
theorem fetch_run (t : ℕ) :
    (run V rom q mem inp t).fetch = FetchUnit.run (fetchInputs V rom q mem inp) t := by
  induction t with
  | zero => rfl
  | succ t ih =>
      rw [FetchUnit.run_succ, ← ih]
      rfl

/-- The strobe of the instruction cache. -/
theorem fetchInputs_opStrobe (t : ℕ) :
    (fetchInputs V rom q mem inp t).opStrobe = strobe V rom q mem inp 0 t :=
  opStrobe_eq 0 t

/-- What the instruction cache and its channel see of each other. -/
theorem fetch_mcIn_succ (h : FetchUnit.Invariant (fetchInputs V rom q mem inp) t) :
    ((channels V rom q mem inp (t + 1) 0).opStart ≠ (channels V rom q mem inp t 0).opStart →
        strobe V rom q mem inp 0 t = (channels V rom q mem inp t 0).opStart) ∧
      (strobe V rom q mem inp 0 t ≠ (channels V rom q mem inp t 0).opStart →
        channels V rom q mem inp (t + 1) 0 = channels V rom q mem inp t 0) := by
  have hsucc := h.mcIn_succ
  rw [← fetch_run, ← fetch_run, fetchInputs_opStrobe] at hsucc
  exact hsucc

/-- The instruction cache keeps to its invariant. -/
theorem fetch_talks (V : Megafunctions) (rom : BitVec 10 → BitVec 16) (q : BitVec 16)
    (mem : BitVec 24 → BitVec 16) (inp : ℕ → ProcessorInput) (t : ℕ) :
    FetchUnit.Invariant (fetchInputs V rom q mem inp) t ∧
      Settled (channels V rom q mem inp) 0 t := by
  refine settled_run (FetchUnit.invariant_zero rfl) (fun t h hset => ?_)
    (fun t h _ hne => (fetch_mcIn_succ h).1 hne) t
  refine FetchUnit.invariant_step (fun hsame => ?_) h
  rw [fetchInputs_opStrobe, ← fetch_run] at hsame
  rw [fetchInputs_opStrobe, fetchInputs_opStrobe]
  exact hset.opStrobe_eq hsame

/-! ### The data cache -/

/-- The data cache after an edge. -/
theorem dcache_succ (t : ℕ) : (run V rom q mem inp (t + 1)).dcache =
    ((run V rom q mem inp t).dcache.clk ((run V rom q mem inp t).dcacheIn (inp t))
      (strobe V rom q mem inp 1 t) ((run V rom q mem inp t).sdcDataOut (inp t))).clkN
        (run V rom q mem inp (t + 1)).iexec.dcacheAddr := by
  rw [← opStrobe_eq]
  rfl

/-- A request of the data cache is made only when the last one is answered. -/
theorem data_toggle (h : (run V rom q mem inp t).dcache.Talks (strobe V rom q mem inp 1 t))
    (hne : (channels V rom q mem inp (t + 1) 1).opStart ≠ (channels V rom q mem inp t 1).opStart) :
    strobe V rom q mem inp 1 t = (channels V rom q mem inp t 1).opStart := by
  rw [channels_data, channels_data, dcache_succ] at hne
  exact h.toggle hne

/-- The data cache keeps to its invariant. -/
theorem data_talks (V : Megafunctions) (rom : BitVec 10 → BitVec 16) (q : BitVec 16)
    (mem : BitVec 24 → BitVec 16) (inp : ℕ → ProcessorInput) (t : ℕ) :
    (run V rom q mem inp t).dcache.Talks (strobe V rom q mem inp 1 t) ∧
      Settled (channels V rom q mem inp) 1 t := by
  have hzero : (run V rom q mem inp 0).dcache.Talks (strobe V rom q mem inp 1 0) :=
    ⟨fun _ => rfl, fun hx => DcacheState.noConfusion hx, fun hx => DcacheState.noConfusion hx, rfl⟩
  refine settled_run (P := fun t => (run V rom q mem inp t).dcache.Talks
    (strobe V rom q mem inp 1 t)) hzero (fun t h hset => ?_) (fun t h _ hne => data_toggle h hne) t
  rw [dcache_succ]
  exact h.step (fun heq => hset.opStrobe_eq heq) _ _ _

/-- An open request of the data cache is held. -/
theorem data_hold
    (hopen : strobe V rom q mem inp 1 t ≠ (channels V rom q mem inp t 1).opStart) :
    (run V rom q mem inp (t + 1)).dcache.state = (run V rom q mem inp t).dcache.state ∧
      (run V rom q mem inp (t + 1)).dcache.counter = (run V rom q mem inp t).dcache.counter ∧
      channels V rom q mem inp (t + 1) 1 = channels V rom q mem inp t 1 := by
  rw [channels_data, channels_data, dcache_succ]
  exact (data_talks V rom q mem inp t).1.hold _ _ _ hopen

/-- A load that is answered takes its half-words one after the other. -/
theorem load_run {a : ℕ} (hans : Answered (channels V rom q mem inp) 1 a)
    (hw : (channels V rom q mem inp (a + 1) 1).opWren = false) :
    (run V rom q mem inp a).dcache.state = .loadLine ∧
      ∀ k, k ≤ 7 → (run V rom q mem inp (a + 1 + k)).dcache.state = .loadLine ∧
        (run V rom q mem inp (a + 1 + k)).dcache.counter.val = k := by
  have htalks := (data_talks V rom q mem inp a).1
  obtain ⟨hst, hcount, hmc⟩ := data_hold hans.1
  have hbusy := mt htalks.answered hans.1
  have hload : (run V rom q mem inp a).dcache.state = .loadLine := by
    cases hs : (run V rom q mem inp a).dcache.state with
    | idle => exact absurd (.inl hs) hbusy
    | loadLine => rfl
    | storeLine =>
        rw [hmc, channels_data] at hw
        exact Bool.noConfusion ((htalks.stores hs).symm.trans hw)
  have hzero : (run V rom q mem inp a).dcache.counter = 0 := not_not.mp fun hne => hbusy (.inr hne)
  refine ⟨hload, fun k => ?_⟩
  induction k with
  | zero =>
      intro _
      rw [Nat.add_zero, hst, hcount, hload, hzero]
      exact ⟨rfl, rfl⟩
  | succ k ih =>
      intro hk
      obtain ⟨hs, hc⟩ := ih (by omega)
      have heq : strobe V rom q mem inp 1 (a + 1 + k) =
          (run V rom q mem inp (a + 1 + k)).dcache.mcOpStart := by
        cases k with
        | zero => exact hans.2
        | succ k =>
            refine (data_talks V rom q mem inp (a + 1 + (k + 1))).1.answered (.inr fun h0 => ?_)
            rw [h0] at hc
            cases hc
      have h7 : (run V rom q mem inp (a + 1 + k)).dcache.counter ≠ 7 := by
        intro h
        rw [h] at hc
        change 7 = k at hc
        omega
      have hnext := Dcache.load_succ hs heq h7
        ((run V rom q mem inp (a + 1 + k)).dcacheIn (inp (a + 1 + k)))
        ((run V rom q mem inp (a + 1 + k)).sdcDataOut (inp (a + 1 + k)))
        (run V rom q mem inp (a + 1 + k + 1)).iexec.dcacheAddr
      rw [← dcache_succ] at hnext
      refine ⟨hnext.1, ?_⟩
      rw [← Nat.add_assoc, hnext.2, Fin.val_add_one_of_lt' (by omega), hc]

/-- Until the reset is released the data cache is not answered. -/
theorem reset_of_answered (hreset : ∀ u, u < T → (run V rom q mem inp u).resetN = false) {a : ℕ}
    (hans : Answered (channels V rom q mem inp) 1 a) : T ≤ a := by
  by_contra hlt
  have hsilent : ∀ u, u ≤ a → (channels V rom q mem inp u 1).opStart = false := fun u hu =>
    (asleep_run hreset (by omega)).dcache.start
  have hopen := hans.1
  rw [(opStrobe_of_silent hsilent).2, hsilent a le_rfl] at hopen
  exact hopen rfl

/-! ### The loader -/

/-- The loader keeps to its phases. -/
theorem loader_talks (V : Megafunctions) (rom : BitVec 10 → BitVec 16) (q : BitVec 16)
    (mem : BitVec 24 → BitVec 16) (inp : ℕ → ProcessorInput) (t : ℕ) :
    BootSystem.TalksAt rom q mem (bootInputs V rom q mem inp) t ∧
      Settled (channels V rom q mem inp) loaderChannel t := by
  rw [channels_eq]
  exact BootSystem.talks_run rom q mem _ t

/-- The loader asks again only when it is answered. -/
theorem loader_toggle (hne : (channels V rom q mem inp (t + 1) loaderChannel).opStart ≠
    (channels V rom q mem inp t loaderChannel).opStart) :
    strobe V rom q mem inp loaderChannel t =
      (channels V rom q mem inp t loaderChannel).opStart := by
  obtain ⟨h, hset⟩ := loader_talks V rom q mem inp t
  rw [strobe]
  rw [channels_eq] at hset hne ⊢
  exact h.toggle hset hne

/-- An open request of the loader is held. -/
theorem loader_hold (hopen : strobe V rom q mem inp loaderChannel t ≠
    (channels V rom q mem inp t loaderChannel).opStart) :
    (channels V rom q mem inp (t + 1) loaderChannel).opAddr =
        (channels V rom q mem inp t loaderChannel).opAddr ∧
      (channels V rom q mem inp (t + 1) loaderChannel).opWren =
        (channels V rom q mem inp t loaderChannel).opWren ∧
      (channels V rom q mem inp (t + 1) loaderChannel).opBurst =
        (channels V rom q mem inp t loaderChannel).opBurst := by
  obtain ⟨h, hset⟩ := loader_talks V rom q mem inp t
  rw [strobe] at hopen
  rw [channels_eq] at hset hopen ⊢
  exact h.hold hset hopen

/-! ### The DMA engine on an idle line -/

/-- The DMA engine after an edge. -/
theorem dma_succ (t : ℕ) : (run V rom q mem inp (t + 1)).dma =
    (run V rom q mem inp t).dma.step (strobe V rom q mem inp dmaChannel t)
      ((run V rom q mem inp t).sdcDataOut (inp t)) (run V rom q mem inp t).pdmaIn := by
  rw [← opStrobe_eq]
  rfl

section IdleLine

variable (hline : ∀ t, (inp t).uartRx = true)

include hline

/-- The receiver never asks for a write. -/
theorem uartRx_asleep (t : ℕ) : (run V rom q mem inp t).uartRx.Asleep := by
  induction t with
  | zero => exact ⟨rfl, rfl, rfl⟩
  | succ t ih =>
      change ((run V rom q mem inp t).uartRx.step _ _ (inp t).uartRx |>.aset _).Asleep
      rw [hline]
      exact ih.step_idle _ _ _

/-- A request of the DMA engine is made only when the last one is answered. -/
theorem dma_toggle (h : (run V rom q mem inp t).dma.Reads (strobe V rom q mem inp dmaChannel t))
    (hne : (channels V rom q mem inp (t + 1) dmaChannel).opStart ≠
      (channels V rom q mem inp t dmaChannel).opStart) :
    strobe V rom q mem inp dmaChannel t = (channels V rom q mem inp t dmaChannel).opStart := by
  rw [channels_dma, channels_dma, dma_succ] at hne
  exact h.toggle (uartRx_asleep hline t).write _ hne

/-- The DMA engine keeps to its invariant. -/
theorem dma_talks (t : ℕ) :
    (run V rom q mem inp t).dma.Reads (strobe V rom q mem inp dmaChannel t) ∧
      Settled (channels V rom q mem inp) dmaChannel t := by
  have hzero : (run V rom q mem inp 0).dma.Reads (strobe V rom q mem inp dmaChannel 0) :=
    ⟨fun _ => rfl, fun hx => MemState.noConfusion hx, rfl, rfl⟩
  refine settled_run (P := fun t => (run V rom q mem inp t).dma.Reads
    (strobe V rom q mem inp dmaChannel t)) hzero (fun t h hset => ?_)
    (fun t h _ hne => dma_toggle hline h hne) t
  rw [dma_succ]
  exact h.step (fun heq => hset.opStrobe_eq heq) (uartRx_asleep hline t).write _

/-- An open request of the DMA engine is held. -/
theorem dma_hold (hopen : strobe V rom q mem inp dmaChannel t ≠
    (channels V rom q mem inp t dmaChannel).opStart) :
    channels V rom q mem inp (t + 1) dmaChannel = channels V rom q mem inp t dmaChannel := by
  rw [channels_dma, channels_dma, dma_succ]
  exact congrArg _ ((dma_talks hline t).1.hold (uartRx_asleep hline t).write _ hopen)

/-! ### All channels -/

variable (V rom q mem) in
/-- The channels of the processor keep their rules. -/
theorem channelContract : ChannelContract (channels V rom q mem inp) where
  start := by
    intro c
    rcases channel_cases c with rfl | rfl | rfl | rfl | hunused
    · rfl
    · rfl
    · rfl
    · rw [channels_loader, BootSystem.mc7]
      split <;> rfl
    · rw [hunused V rom q mem inp]
      rfl
  toggle := by
    intro t c hne
    rcases channel_cases c with rfl | rfl | rfl | rfl | hunused
    · exact (fetch_mcIn_succ (fetch_talks V rom q mem inp t).1).1 hne
    · exact data_toggle (data_talks V rom q mem inp t).1 hne
    · exact dma_toggle hline (dma_talks hline t).1 hne
    · exact loader_toggle hne
    · rw [hunused, hunused] at hne
      exact absurd rfl hne
  hold := by
    intro t c hopen
    rcases channel_cases c with rfl | rfl | rfl | rfl | hunused
    · rw [(fetch_mcIn_succ (fetch_talks V rom q mem inp t).1).2 hopen]
      exact ⟨rfl, rfl, rfl⟩
    · rw [(data_hold hopen).2.2]
      exact ⟨rfl, rfl, rfl⟩
    · rw [dma_hold hline hopen]
      exact ⟨rfl, rfl, rfl⟩
    · exact loader_hold hopen
    · rw [hunused, hunused]
      exact ⟨rfl, rfl, rfl⟩

variable (V rom q mem) in
/-- The instruction cache reads the memory. -/
theorem fetch_readPort : ReadPort (fun t => (run V rom q mem inp t).fetch.mcIn)
    (strobe V rom q mem inp 0) (fun t => (run V rom q mem inp t).sdcDataOut (inp t))
    (cells V rom q mem inp) := by
  have hport := sdram_readPort (channelContract V rom q mem hline) (floats inp) mem (c := 0)
    fun _ => rfl
  simp only [sdcDataOut_eq]
  rw [show cells V rom q mem inp = cellsAt (channels V rom q mem inp) (floats inp) mem from
    funext cells_eq_cellsAt]
  exact hport

/-! ### The only writer -/

/-- The half-words of a load are not masked. -/
theorem load_mask {a k : ℕ} (hans : Answered (channels V rom q mem inp) 1 a)
    (hw : (channels V rom q mem inp (a + 1) 1).opWren = false) (hk : k < 8) :
    (channels V rom q mem inp (a - 1 + k) 1).opDqm = 0#2 := by
  obtain ⟨hload, hrun⟩ := load_run hans hw
  have hstate : (run V rom q mem inp (a - 1 + k)).dcache.state = .loadLine := by
    by_cases hu : a + 1 ≤ a - 1 + k
    · obtain ⟨n, hn⟩ := Nat.exists_eq_add_of_le hu
      rw [hn]
      exact (hrun n (by omega)).1
    · by_cases hua : a - 1 + k = a
      · rw [hua]
        exact hload
      · -- the request is open in the cycle before
        obtain ⟨b, rfl⟩ : ∃ b, a = b + 1 := ⟨a - 1, by omega⟩
        obtain rfl : k = 0 := by omega
        have hopen := waiting_of_read (channelContract V rom q mem hline) hans hw
        exact (data_hold hopen).1.symm.trans hload
  exact ((data_talks V rom q mem inp _).1.loads hstate).2

/-- After the release of the reset the data cache is the only writer. -/
theorem ownsMemory (hreset : ∀ u, u < T → (run V rom q mem inp u).resetN = false)
    (hdone : (run V rom q mem inp T).resetN = true) :
    OwnsMemory (channels V rom q mem inp) 1 T where
  burst := fun _ => rfl
  aligned := fun t => (data_talks V rom q mem inp t).1.aligned
  mask := fun _ _ hans hw hk => load_mask hline hans hw hk
  own := fun _ hans => reset_of_answered hreset hans
  others := by
    intro a c hne hans hw
    rcases channel_cases c with rfl | rfl | rfl | rfl | hunused
    · cases hw
    · exact absurd rfl hne
    · have hread : (run V rom q mem inp (a + 1)).dma.opWren = false :=
        (dma_talks hline (a + 1)).1.wren
      exact Bool.noConfusion (hread.symm.trans hw)
    · -- the loader writes single half-words, and none after the hand-over
      have hload : ¬ T ≤ a + 1 := by
        intro hle
        rw [resetN, run_boot] at hdone
        obtain ⟨hd, -⟩ := BootSystem.not_forwards_of_loadDone hdone hle
        rw [channels_eq, BootSystem.channels_of_loadDone hd] at hw
        cases hw
      have hbeats : beats (channels V rom q mem inp (a + 1) loaderChannel).opBurst = 1 := by
        rw [channels_loader, BootSystem.mc7]
        split <;> rfl
      omega
    · rw [hunused] at hw
      cases hw

end IdleLine

end Processor

end Sumeru
