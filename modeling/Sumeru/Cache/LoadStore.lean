import Sumeru.Cache.DataCache

/-!
# Sumeru - Loads and stores through the data cache

Whole runs of the execute stage with its data cache: loads see the most recent stores,
and every instruction is served by one operation of the cache, whenever the memory
channel answers.

Main results:

- Theorem {lit}`DataUnit.situation_run`: the situations cover every run.
- Theorem {lit}`DataUnit.eventually_done`: an operation handed to the cache completes.
- Theorem {lit}`dcache_coherent`: loads return the most recent store to each byte, and each
  instruction completes exactly one operation of the cache.
-/

namespace Sumeru

namespace DataUnit

variable (V : Megafunctions) {s : DataUnit} {m : ByteMem} {i : DataUnitInput}

/-! ## The end of a wait -/

/-- The wait of a load ends with its value on the write port of the register file. -/
theorem rdWriteData_of_done (hp : s.Pending m) (hload : s.iexec.memOp.store = false)
    (hne : s.iexec.memOp.byteena ≠ 0#4) (hh : s.dcache.Holds s.iexec.memOp) {c : Dcache}
    (hclk : s.dcache.clk (s.dcacheIn i) s.chan.strobe (s.chan.dataOut i.float) = c)
    (hquiet : c.metaWren = false ∧ ∀ j, c.dataWren j = false) (i' : DataUnitInput) :
    (s.step V i).iexec.rdWriteData V ((s.step V i).iexecInput i') =
      s.iexec.memOp.laneValue m := by
  obtain ⟨hm, hd, hcoh⟩ := coherent_step_of_quiet V (i := i) hp.coherent (by rw [hclk]; exact hquiet.1)
    (by rw [hclk]; exact hquiet.2)
  have hop : (s.step V i).iexec.memOp = s.iexec.memOp :=
    Iexec.memOp_step V (by simp [hp.issued.state]) hp.issued.busy _
  have hls : s.iexec.state ≠ .ls1 := by simp [hp.issued.state]
  obtain ⟨haddr, -, -⟩ := Iexec.dcacheLines_step V hls (s.iexecInput i)
  have hsame := Iexec.sameInstruction_step V
    (show s.iexec.accepts (s.iexecInput i) = false by simp [Iexec.accepts, hp.issued.state])
  have hcmd : (s.step V i).iexec.cmdResultMux = .load := by
    rw [← hp.issued.load_iff.mp hload]
    exact hsame.cmdResultMux
  have hsettled : (s.step V i).dcache.Settled := by
    apply Dcache.settled_of_quiet
    rw [step_dcache, hclk]
    exact hquiet.2
  have hholds : (s.step V i).dcache.Holds s.iexec.memOp := by
    refine ⟨by rw [hm]; exact hh.valid, by rw [hm]; exact hh.tag, fun b hb => ?_⟩
    rw [Dcache.line, hd]
    exact hh.ena b hb
  have hvalue := Dcache.loadResult_of_holds (i := (s.step V i).dcacheIn i') hsettled hcoh hholds
    hne (haddr.trans hp.issued.addr)
  rw [Iexec.rdWriteData, hcmd]
  change loadResult (s.step V i).iexec.byteena (s.step V i).iexec.memOp.signed _ = _
  rw [Iexec.byteena_eq, hop]
  exact hvalue

/-- A load leaves the wait with its value. -/
theorem Situation.load_value (h : s.Situation m) (hst : s.iexec.state = .lsWait)
    (hload : s.iexec.memOp.store = false) (hne : s.iexec.memOp.byteena ≠ 0#4)
    (hdone : (s.step V i).iexec.state = .running) (i' : DataUnitInput) :
    (s.step V i).iexec.regfileWren = true ∧
      (s.step V i).iexec.rdWriteData V ((s.step V i).iexecInput i') =
        s.iexec.memOp.laneValue m := by
  have hwait : ¬ Iexec.Waits s.iexec (s.step V i).iexec := by
    intro hw
    have := hw.issued.state
    rw [hdone] at this
    cases this
  cases h with
  | calm h => exact absurd hst h.state
  | lookup m₀ hm hp h =>
      rw [hm, MemOp.write_load hload]
      by_cases hh : s.dcache.Holds s.iexec.memOp
      · exact ⟨(hp.load_done V hload hh i).2.1,
          rdWriteData_of_done V hp hload hne hh (h.clk_hit hp hload hh i) ⟨rfl, fun _ => rfl⟩ i'⟩
      · exact absurd (hp.waits V (fun _ => hh) i) hwait
  | storing m₀ hm hp h => exact absurd (h.waits V hp i) hwait
  | loading m₀ hm hp h => exact absurd (h.waits V hp i) hwait
  | loaded m₀ hm hp h =>
      rw [hm, MemOp.write_load hload]
      exact ⟨(hp.load_done V hload h.holds i).2.1,
        rdWriteData_of_done V hp hload hne h.holds (h.clk_eq i) ⟨rfl, fun _ => rfl⟩ i'⟩
  | written h =>
      rw [h.store] at hload
      cases hload

/-! ## Operations of the cache -/

/-- The edge at which the cache takes the request in front of it. -/
def Operates (s s' : DataUnit) : Prop := s'.dcache.startSave ≠ s.dcache.startSave

/-- At most the request of a waiting instruction is taken, and the write strobe answers
exactly the stores. -/
theorem Situation.operation (h : s.Situation m) (i : DataUnitInput) :
    ((s.step V i).dcache.startSave = s.dcache.startSave ∧
        (s.step V i).dcache.writeStrobeR = s.dcache.writeStrobeR) ∨
      (s.iexec.state = .lsWait ∧ s.iexec.dcacheStart ≠ s.dcache.startSave ∧
        (s.step V i).dcache.startSave = s.iexec.dcacheStart ∧
        ((s.step V i).dcache.writeStrobeR ≠ s.dcache.writeStrobeR ↔
          s.iexec.memOp.store = true)) := by
  cases h with
  | calm h =>
      rw [step_dcache, h.clk_eq]
      exact .inl ⟨rfl, rfl⟩
  | lookup m₀ hm hp h =>
      have htaken : (!s.dcache.startSave) = s.iexec.dcacheStart := (Bool.eq_not_of_ne h.start).symm
      rw [step_dcache]
      cases hp.served i with
      | write hstore hhit =>
          rw [h.clk_eq, Dcache.serve, if_pos ⟨by rw [hp.wren_eq, hstore], hhit⟩]
          exact .inr ⟨hp.issued.state, h.start, htaken,
            iff_of_true (Bool.not_ne_self s.dcache.writeStrobeR) hstore⟩
      | hit hload hh =>
          rw [h.clk_hit hp hload hh]
          refine .inr ⟨hp.issued.state, h.start, htaken, iff_of_false (fun hne => hne rfl) ?_⟩
          rw [hload]
          exact Bool.false_ne_true
      | evict hmiss hline hdirty hserve =>
          rw [h.clk_eq, hserve]
          exact .inl ⟨rfl, rfl⟩
      | load hmiss hload hclean hserve =>
          rw [h.clk_eq, hserve]
          refine .inr ⟨hp.issued.state, h.start, htaken, iff_of_false (fun hne => hne rfl) ?_⟩
          rw [hload]
          exact Bool.false_ne_true
      | takeOver hmiss hstore hline hclean hserve =>
          rw [h.clk_eq, hserve]
          exact .inl ⟨rfl, rfl⟩
  | storing m₀ hm hp h =>
      left
      rcases h.phase with ⟨hwt, -⟩ | ⟨hmv, -⟩
      · rw [step_dcache, h.clk_waiting hwt]
        exact ⟨rfl, rfl⟩
      · rw [step_dcache, h.clk_moving hp hmv]
        exact ⟨rfl, rfl⟩
  | loading m₀ hm hp h =>
      left
      rw [step_dcache]
      simp only [Dcache.clk, h.state]
      split <;> exact ⟨rfl, rfl⟩
  | loaded m₀ hm hp h =>
      rw [step_dcache, h.clk_eq]
      exact .inl ⟨rfl, rfl⟩
  | written h =>
      rw [step_dcache, h.clk_eq]
      exact .inl ⟨rfl, rfl⟩

/-! ## Progress -/

/-- The line of the request is present. -/
def linePresent (s : DataUnit) : Bool :=
  (s.dcache.metaRam (lineOf s.iexec.dcacheAddr)).tag == tagOf s.iexec.dcacheAddr &&
    (s.dcache.metaRam (lineOf s.iexec.dcacheAddr)).valid

/-- A bound on the cycles that are left, apart from those spent waiting for the
channel. -/
def rank (s : DataUnit) : ℕ :=
  match s.dcache.state with
  | .storeLine =>
      if s.chan.strobe = s.dcache.mcOpStart then 18 - s.dcache.counter.val else 19
  | .loadLine =>
      if s.chan.strobe = s.dcache.mcOpStart then 8 - s.dcache.counter.val else 9
  | .idle =>
      if s.iexec.dcacheStart = s.dcache.startSave then 0
      else if s.iexec.memOp.store && s.linePresent then 1
      else if (s.dcache.metaRam (lineOf s.iexec.dcacheAddr)).dirty then 20
      else 10

/-- The wait ends, or its end comes closer unless the channel keeps the cache waiting. -/
def Nearer (s s' : DataUnit) (ready : Bool) : Prop :=
  s'.iexec.state = .running ∨
    (s'.iexec.state = .lsWait ∧ s'.rank ≤ s.rank ∧ (ready = true → s'.rank < s.rank))

/-- A smaller rank is nearer. -/
theorem Nearer.of_lt {s' : DataUnit} {ready : Bool} (hs : s'.iexec.state = .lsWait)
    (hlt : s'.rank < s.rank) : Nearer s s' ready :=
  .inr ⟨hs, hlt.le, fun _ => hlt⟩

/-- A request that has been taken has rank 0. -/
theorem rank_of_taken (hi : s.dcache.state = .idle) (hs : s.iexec.dcacheStart = s.dcache.startSave) :
    s.rank = 0 := by
  simp only [rank, hi, hs, if_true]

/-- The rank before a write-back is answered. -/
theorem Storing.rank_waiting (h : s.Storing) (hs : s.chan.strobe ≠ s.dcache.mcOpStart) :
    s.rank = 19 := by
  simp only [rank, h.state, hs, if_false]

/-- The rank while half-words are written back. -/
theorem Storing.rank_moving (h : s.Storing) (hs : s.chan.strobe = s.dcache.mcOpStart) :
    s.rank = 18 - s.dcache.counter.val := by
  simp only [rank, h.state, hs, if_true]

/-- The rank of a write-back is at most 19. -/
theorem Storing.rank_le (h : s.Storing) : s.rank ≤ 19 := by
  simp only [rank, h.state]
  split <;> omega

/-- The rank before the load of a line is answered. -/
theorem Loading.rank_waiting (h : s.Loading) (hs : s.chan.strobe ≠ s.dcache.mcOpStart) :
    s.rank = 9 := by
  simp only [rank, h.state, hs, if_false]

/-- The rank while half-words arrive. -/
theorem Loading.rank_moving (h : s.Loading) (hs : s.chan.strobe = s.dcache.mcOpStart) :
    s.rank = 8 - s.dcache.counter.val := by
  simp only [rank, h.state, hs, if_true]

/-- The rank of the load of a line is at most 9. -/
theorem Loading.rank_le (h : s.Loading) : s.rank ≤ 9 := by
  simp only [rank, h.state]
  split <;> omega

/-- The rank of a lookup depends on the line. -/
theorem Lookup.rank_eq (h : s.Lookup) :
    s.rank = if s.iexec.memOp.store && s.linePresent then 1
      else if (s.dcache.metaRam (lineOf s.iexec.dcacheAddr)).dirty then 20 else 10 := by
  simp only [rank, h.idle, h.start, if_false]

/-- A lookup brings the operation nearer to its end. -/
theorem Lookup.progress (hp : s.Pending m) (h : s.Lookup) (i : DataUnitInput) :
    Nearer s (s.step V i) i.ready := by
  have hrank := h.rank_eq
  cases hp.served i with
  | write hstore hhit =>
      have h' := (h.step_write V hp hstore hhit).2
      refine .of_lt h'.issued.state ?_
      rw [rank_of_taken h'.idle h'.start, hrank]
      split <;> [omega; split <;> omega]
  | hit hload hh => exact .inl (hp.load_done V hload hh i).1
  | evict hmiss hline hdirty hserve =>
      obtain ⟨-, hp', h'⟩ := h.step_evict V (i := i) hp hserve hmiss hdirty
      refine .of_lt hp'.issued.state ?_
      have hnot : (s.iexec.memOp.store && s.linePresent) = false := by
        cases hst : s.iexec.memOp.store with
        | false => rfl
        | true => exact hline hst
      have hle := h'.rank_le
      rw [hrank, hnot, hdirty]
      simp only [Bool.false_eq_true, if_false, if_true]
      omega
  | load hmiss hload hclean hserve =>
      obtain ⟨-, hp', h'⟩ := h.step_load V (i := i) hp hserve hmiss hload hclean
      refine .of_lt hp'.issued.state ?_
      have hle := h'.rank_le
      rw [hrank, hload, hclean]
      simp only [Bool.false_and, Bool.false_eq_true, if_false]
      omega
  | takeOver hmiss hstore hline hclean hserve =>
      obtain ⟨hop, hp', h', hpresent⟩ := h.step_takeOver V (i := i) hp hserve hmiss hclean
      refine .of_lt hp'.issued.state ?_
      have hpr : (s.step V i).linePresent = true := hpresent i
      have hno : s.linePresent = false := hline
      rw [h'.rank_eq, hop, hstore, hpr, hrank, hstore, hno, hclean]
      simp

/-- A write-back brings the operation nearer to its end. -/
theorem Storing.progress (hp : s.Pending m) (h : s.Storing) (i : DataUnitInput) :
    Nearer s (s.step V i) i.ready := by
  rcases h.phase with ⟨hwt, hzero⟩ | ⟨hmv, hstored⟩
  · have hrank := h.rank_waiting hwt.strobe
    obtain ⟨-, hp', h', hready⟩ := h.step_waiting V hp hwt hzero i
    refine .inr ⟨hp'.issued.state, by rw [hrank]; exact h'.rank_le, fun hr => ?_⟩
    have hs : (s.step V i).chan.strobe = (s.step V i).dcache.mcOpStart := by
      rw [hready hr, step_dcache, h.clk_waiting hwt]
      rfl
    rw [h'.rank_moving hs, hrank]
    omega
  · have hrank := h.rank_moving hmv.strobe
    have hcnt := h.counter
    obtain ⟨-, hp', h'⟩ := h.step_moving V hp hmv hstored i
    refine .of_lt hp'.issued.state ?_
    split at h'
    · -- the line is clean after its last half-word
      rename_i h6
      have hclean : ((s.step V i).dcache.metaRam (lineOf (s.step V i).iexec.dcacheAddr)).dirty
          = false := by
        rw [(h.waits V hp i).addr, h'.2]
      rw [hrank, h6, h'.1.rank_eq, hclean]
      split <;> decide
    · obtain ⟨hs', hstrobe, hctr⟩ := h'
      rw [hrank, hs'.rank_moving hstrobe, hctr, h.counter_succ]
      omega

/-- The load of a line brings the operation nearer to its end. -/
theorem Loading.progress (hp : s.Pending m) (h : s.Loading) (i : DataUnitInput) :
    Nearer s (s.step V i) i.ready := by
  rcases h.phase with ⟨hwt, hzero⟩ | ⟨hmv, hwords, hlast⟩
  · have hrank := h.rank_waiting hwt.strobe
    obtain ⟨-, hp', h', hready⟩ := h.step_waiting V hp hwt hzero i
    refine .inr ⟨hp'.issued.state, by rw [hrank]; exact h'.rank_le, fun hr => ?_⟩
    have hne : ¬ s.chan.strobe = s.dcache.mcOpStart := hwt.strobe
    have hs : (s.step V i).chan.strobe = (s.step V i).dcache.mcOpStart := by
      rw [hready hr, step_dcache]
      simp only [Dcache.clk, h.state, hne, if_false]
      rfl
    rw [h'.rank_moving hs, hrank]
    omega
  · have hrank := h.rank_moving hmv.strobe
    have hcnt := s.dcache.counter.isLt
    obtain ⟨-, hp', h'⟩ := h.step_moving V hp ⟨hmv, hwords, hlast⟩ i
    refine .of_lt hp'.issued.state ?_
    split at h'
    · rw [rank_of_taken h'.idle h'.start, hrank]
      omega
    · rename_i h7
      obtain ⟨hs', hstrobe, hctr⟩ := h'
      have hlt : s.dcache.counter.val ≠ 7 := fun hx => h7 (Fin.ext hx)
      have hnext : (s.dcache.counter + 1).val = s.dcache.counter.val + 1 := by
        rw [Fin.val_add_one_of_lt']
        omega
      rw [hrank, hs'.rank_moving hstrobe, hctr, hnext]
      omega

/-- Every cycle of a wait brings its end closer. -/
theorem Situation.progress (h : s.Situation m) (hst : s.iexec.state = .lsWait) (i : DataUnitInput) :
    Nearer s (s.step V i) i.ready := by
  cases h with
  | calm h => exact absurd hst h.state
  | lookup m₀ hm hp h => exact h.progress V hp i
  | storing m₀ hm hp h => exact h.progress V hp i
  | loading m₀ hm hp h => exact h.progress V hp i
  | loaded m₀ hm hp h => exact .inl (hp.load_done V h.load h.holds i).1
  | written h =>
      exact .inl (Iexec.step_lsWait_store V h.issued.state (h.issued.store_iff.mp h.store)
        (show (s.iexecInput i).dcacheWriteStrobe ≠ _ from h.strobe)).1

/-! ## Runs -/

section Runs

variable (mem : BitVec 24 → BitVec 16) (inp : ℕ → DataUnitInput)

/-- The memory that the operations handed over before edge {lit}`t` have left. -/
def specMem : ℕ → ByteMem
  | 0 => byteAt mem
  | t + 1 =>
      if (run V mem inp t).iexec.state = .ls1 then
        (run V mem inp t).iexec.memOp.apply (specMem t)
      else specMem t

/-- The memory as the enabled lanes of these operations have left it. -/
def laneMem : ℕ → ByteMem
  | 0 => byteAt mem
  | t + 1 =>
      if (run V mem inp t).iexec.state = .ls1 then
        (run V mem inp t).iexec.memOp.write (laneMem t)
      else laneMem t

/-- A store to byte {lit}`a` is handed to the cache. -/
def Stores (s : DataUnit) (a : BitVec 25) : Prop :=
  s.iexec.state = .ls1 ∧ s.iexec.memOp.store = true ∧ s.iexec.memOp.covers a = true

/-- {lit}`x` is what the most recent store before edge {lit}`t` to byte {lit}`a` wrote there, or
the initial byte if there is none. -/
def MostRecent (t : ℕ) (a : BitVec 25) (x : BitVec 8) : Prop :=
  (∃ u, u < t ∧ (run V mem inp u).Stores a ∧
      (∀ v, u < v → v < t → ¬ (run V mem inp v).Stores a) ∧
      x = (run V mem inp u).iexec.memOp.data.extractLsb'
        (8 * (a - (run V mem inp u).iexec.memOp.addr).toNat) 8) ∨
    ((∀ u, u < t → ¬ (run V mem inp u).Stores a) ∧ x = byteAt mem a)

/-- The memory of the specification holds the most recent stores. -/
theorem mostRecent_specMem (t : ℕ) (a : BitVec 25) :
    MostRecent V mem inp t a (specMem V mem inp t a) := by
  refine Clocked.eq_last_update (m := fun t => specMem V mem inp t a)
    (P := fun t => (run V mem inp t).Stores a) (fun t hs => ?_) (fun t hs => ?_) t
  · rw [specMem, if_pos hs.1, MemOp.apply, if_pos hs.2]
  · rw [specMem]
    split
    · rename_i hst
      rw [MemOp.apply, if_neg (fun hx => hs ⟨hst, hx⟩)]
    · rfl

/-- The cache is empty at power-up. -/
theorem coherent_init : Dcache.init.Coherent mem (byteAt mem) where
  cached := by
    intro a ha
    have := ha.valid
    cases this
  memory := fun _ _ => rfl
  dirty := by
    intro l hl
    cases hl

/-- The unit is calm at power-up. -/
theorem calm_init : (init mem).Calm (byteAt mem) where
  state := fun h => ExecState.noConfusion h
  cmd := fun h => ExecState.noConfusion h
  busy := rfl
  idle := rfl
  start := rfl
  strobe := rfl
  answered := rfl
  left := rfl
  coherent := coherent_init mem

variable {mem inp}

/-- The situations cover every run. -/
theorem situation_run (t : ℕ) : (run V mem inp t).Situation (laneMem V mem inp t) := by
  induction t with
  | zero => exact .calm (calm_init mem)
  | succ t ih => exact ih.step V (inp t)

/-- Aligned accesses use the lanes of their bytes. -/
theorem laneMem_eq_specMem
    (hal : ∀ t, (run V mem inp t).iexec.state = .ls1 → (run V mem inp t).iexec.memOp.Aligned)
    (t : ℕ) : laneMem V mem inp t = specMem V mem inp t := by
  induction t with
  | zero => rfl
  | succ t ih =>
      rw [laneMem, specMem]
      split
      · rename_i hls
        rw [MemOp.write_eq_apply (hal t hls), ih]
      · exact ih

/-- An operation handed to the cache completes. -/
theorem eventually_done
    (hready : ∀ t, ∃ u, t ≤ u ∧ (inp u).ready = true) :
    Clocked.LeadsTo (fun t => (run V mem inp t).iexec.state = .lsWait)
      (fun t => (run V mem inp t).iexec.state = .running) := by
  refine Clocked.LeadsTo.of_fair_rank (fun t => (run V mem inp t).rank) ?_ hready
  intro t ht
  exact (situation_run V t).progress V ht (inp t)

/-- From {lit}`LS_1` at edge {lit}`t` the stage waits up to edge {lit}`u` and is done after it. -/
structure WaitsUntil (mem : BitVec 24 → BitVec 16) (inp : ℕ → DataUnitInput) (t u : ℕ) : Prop where
  after : t < u
  waiting : ∀ k, t < k → k ≤ u → (run V mem inp k).iexec.state = .lsWait
  done : (run V mem inp (u + 1)).iexec.state = .running

/-- Every access is done in the end. -/
theorem waitsUntil_of_ls1
    (hready : ∀ t, ∃ u, t ≤ u ∧ (inp u).ready = true) {t : ℕ}
    (ht : (run V mem inp t).iexec.state = .ls1) : ∃ u, WaitsUntil V mem inp t u := by
  classical
  have hnext : (run V mem inp (t + 1)).iexec.state = .lsWait := Iexec.state_step_of_ls1 V ht _
  have hex : ∃ n, (run V mem inp (t + 1 + n)).iexec.state = .running := by
    obtain ⟨u, hu, hrun⟩ := eventually_done V hready (t + 1) hnext
    exact ⟨u - (t + 1), by rw [Nat.add_sub_cancel' hu]; exact hrun⟩
  -- the first edge after the wait
  obtain ⟨n, hn⟩ : ∃ n, Nat.find hex = n + 1 := by
    refine Nat.exists_eq_succ_of_ne_zero fun h0 => ?_
    have := Nat.find_spec hex
    rw [h0, Nat.add_zero, hnext] at this
    cases this
  have hwait : ∀ k, k ≤ n → (run V mem inp (t + 1 + k)).iexec.state = .lsWait := by
    intro k
    induction k with
    | zero => exact fun _ => hnext
    | succ k ih =>
        intro hk
        have hnot := Nat.find_min hex (m := k + 1) (by omega)
        rcases Iexec.state_step_of_lsWait V (ih (by omega)) _ with hx | hx
        · exact absurd hx hnot
        · exact hx
  refine ⟨t + 1 + n, by omega, ?_, ?_⟩
  · intro k h1 h2
    obtain ⟨j, rfl⟩ := Nat.exists_eq_add_of_le h1
    exact hwait j (by omega)
  · have := Nat.find_spec hex
    rw [hn] at this
    exact this

/-- A waiting stage keeps its operation and destination. -/
theorem request_step (hst : s.iexec.state ≠ .running)
    (hbusy : s.iexec.busyR = (s.iexec.state != .running)) :
    (s.step V i).iexec.memOp = s.iexec.memOp ∧
      (s.step V i).iexec.regfileWraddr = s.iexec.regfileWraddr := by
  refine ⟨Iexec.memOp_step V hst (by rw [hbusy, bne_iff_ne]; exact hst) _, ?_⟩
  have hacc : s.iexec.accepts (s.iexecInput i) = false := by simp [Iexec.accepts, hst]
  exact (Iexec.sameInstruction_step V hacc).regfileWraddr

/-- The stage is busy outside of {lit}`RUNNING`. -/
theorem busyR_run (t : ℕ) :
    (run V mem inp t).iexec.busyR = ((run V mem inp t).iexec.state != .running) := by
  cases t with
  | zero => rfl
  | succ t => exact Iexec.busyR_step V _ _

/-- What holds of the operations as they are handed over holds of one that waits. -/
theorem memOp_of_waiting {P : MemOp → Prop} {t k : ℕ} (htk : t ≤ k)
    (ht : (run V mem inp t).iexec.state ≠ .lsWait)
    (hP : ∀ j, t ≤ j → j < k → (run V mem inp j).iexec.state = .ls1 → P (run V mem inp j).iexec.memOp)
    (hst : (run V mem inp k).iexec.state = .lsWait) : P (run V mem inp k).iexec.memOp := by
  induction k, htk using Nat.le_induction with
  | base => exact absurd hst ht
  | succ k htk ih =>
      have hkeep : (run V mem inp k).iexec.state ≠ .running →
          (run V mem inp (k + 1)).iexec.memOp = (run V mem inp k).iexec.memOp :=
        fun hne => (request_step V hne (busyR_run V k)).1
      rcases (Iexec.state_step_ls V (e := (run V mem inp k).iexec) _).2 hst with hls | hwait
      · rw [hkeep (by rw [hls]; decide)]
        exact hP k htk (by omega) hls
      · rw [hkeep (by rw [hwait]; decide)]
        exact ih (fun j h1 h2 => hP j h1 (by omega)) hwait

/-- The request stays on the lines for the whole wait. -/
theorem WaitsUntil.request {t u : ℕ} (h : WaitsUntil V mem inp t u)
    (ht : (run V mem inp t).iexec.state = .ls1) {k : ℕ} (hk : t < k) (hku : k ≤ u) :
    (run V mem inp k).iexec.memOp = (run V mem inp t).iexec.memOp ∧
      (run V mem inp k).iexec.regfileWraddr = (run V mem inp t).iexec.regfileWraddr ∧
      (run V mem inp k).iexec.dcacheStart = (!(run V mem inp t).iexec.dcacheStart) ∧
      laneMem V mem inp k =
        (run V mem inp t).iexec.memOp.write (laneMem V mem inp t) := by
  induction k, hk using Nat.le_induction with
  | base =>
      obtain ⟨h1, h2⟩ := request_step V (i := inp t) (show (run V mem inp t).iexec.state ≠ _ by
        rw [ht]; decide) (busyR_run V t)
      refine ⟨h1, h2, ?_, ?_⟩
      · change ((run V mem inp t).iexec.mainProcess V _).dcacheStart = _
        simp only [Iexec.mainProcess, ht]
      · rw [laneMem, if_pos ht]
  | succ k hle ih =>
      have hst := h.waiting k hle (by omega)
      obtain ⟨h1, h2, h3, h4⟩ := ih (by omega)
      obtain ⟨g1, g2⟩ := request_step V (i := inp k) (show (run V mem inp k).iexec.state ≠ _ by
        rw [hst]; decide) (busyR_run V k)
      have hls : (run V mem inp k).iexec.state ≠ .ls1 := by
        rw [hst]
        decide
      refine ⟨g1.trans h1, g2.trans h2, ?_, ?_⟩
      · rw [← h3]
        exact (Iexec.dcacheLines_step V hls _).2.1
      · rw [laneMem, if_neg hls, h4]

/-- A load or store in {lit}`LS_1` at edge {lit}`t` that is completed at edge {lit}`u`: one operation
of the cache serves it, the write strobe moves exactly for a store, and a load writes back
the most recent value of each of its bytes. -/
structure Completes (mem : BitVec 24 → BitVec 16) (inp : ℕ → DataUnitInput) (t u : ℕ) : Prop
    extends WaitsUntil V mem inp t u where
  once : ∃! k, t < k ∧ k ≤ u ∧ Operates (run V mem inp k) (run V mem inp (k + 1))
  strobe : ∀ k, t < k → k ≤ u →
    ((run V mem inp (k + 1)).dcache.writeStrobeR ≠ (run V mem inp k).dcache.writeStrobeR ↔
      (run V mem inp t).iexec.memOp.store = true ∧
        Operates (run V mem inp k) (run V mem inp (k + 1)))
  load : (run V mem inp t).iexec.memOp.store = false →
    ∃ m : ByteMem, (∀ a, MostRecent V mem inp t a (m a)) ∧
      (run V mem inp (u + 1)).iexec.regfileWren = true ∧
      (run V mem inp (u + 1)).iexec.rdWriteData V
          ((run V mem inp (u + 1)).iexecInput (inp (u + 1))) =
        (run V mem inp t).iexec.memOp.loadValue m ∧
      ((run V mem inp t).iexec.regfileWraddr ≠ 0#5 →
        (run V mem inp (u + 2)).iexec.regfile (run V mem inp t).iexec.regfileWraddr =
          (run V mem inp t).iexec.memOp.loadValue m)

/-- No request is open. -/
def Taken (s : DataUnit) : Prop := s.iexec.dcacheStart = s.dcache.startSave

/-- A cycle of a wait takes the request exactly when it was open and is not any more. -/
theorem Situation.operates_iff (h : s.Situation m) (hst : s.iexec.state = .lsWait) :
    Operates s (s.step V i) ↔ ¬ s.Taken ∧ (s.step V i).Taken := by
  have hls : s.iexec.state ≠ .ls1 := by
    rw [hst]
    decide
  have hstart : (s.step V i).iexec.dcacheStart = s.iexec.dcacheStart :=
    (Iexec.dcacheLines_step V hls _).2.1
  rcases h.operation V i with ⟨hsame, -⟩ | ⟨-, hopen, htaken, -⟩
  · refine iff_of_false (fun hx => hx hsame) ?_
    rintro ⟨h1, h2⟩
    rw [Taken, hstart, hsame] at h2
    exact h1 h2
  · refine iff_of_true ?_ ⟨hopen, ?_⟩
    · rw [Operates, htaken]
      exact hopen
    · rw [Taken, hstart, htaken]

/-- A request that has been taken stays so until the wait ends. -/
theorem Situation.taken_step (h : s.Situation m) (hst : s.iexec.state = .lsWait)
    (ht : s.Taken) : (s.step V i).Taken := by
  have hls : s.iexec.state ≠ .ls1 := by
    rw [hst]
    decide
  rcases h.operation V i with ⟨hsame, -⟩ | ⟨-, hopen, -⟩
  · rw [Taken, hsame]
    exact (Iexec.dcacheLines_step V hls _).2.1.trans ht
  · exact absurd ht hopen

/-- Outside of {lit}`LS_WAIT` the unit is calm. -/
theorem Situation.calm_of_not_waiting (h : s.Situation m) (hst : s.iexec.state ≠ .lsWait) :
    s.Calm m := by
  cases h with
  | calm h => exact h
  | lookup m₀ hm hp h => exact absurd hp.issued.state hst
  | storing m₀ hm hp h => exact absurd hp.issued.state hst
  | loading m₀ hm hp h => exact absurd hp.issued.state hst
  | loaded m₀ hm hp h => exact absurd hp.issued.state hst
  | written h => exact absurd h.issued.state hst

/-- A wait that ends completes the operation. -/
theorem WaitsUntil.completes {t u : ℕ} (h : WaitsUntil V mem inp t u)
    (hal : ∀ t, (run V mem inp t).iexec.state = .ls1 → (run V mem inp t).iexec.memOp.Aligned)
    (ht : (run V mem inp t).iexec.state = .ls1) : Completes V mem inp t u := by
  have hsit : ∀ k, (run V mem inp k).Situation (laneMem V mem inp k) := situation_run V
  have hiff : ∀ k, t < k → k ≤ u → (Operates (run V mem inp k) (run V mem inp (k + 1)) ↔
      ¬ (run V mem inp k).Taken ∧ (run V mem inp (k + 1)).Taken) := by
    intro k h1 h2
    exact (hsit k).operates_iff V (h.waiting k h1 h2)
  have hopen : ¬ (run V mem inp (t + 1)).Taken := by
    have hcalm := (hsit t).calm_of_not_waiting (by rw [ht]; decide)
    obtain ⟨-, -, hstart, -⟩ := h.request V ht (Nat.lt_succ_self t) h.after
    have hsave : (run V mem inp (t + 1)).dcache.startSave = (run V mem inp t).dcache.startSave := by
      rw [run_succ, step_dcache, hcalm.clk_eq]
      rfl
    rw [Taken, hstart, hsave, hcalm.start]
    exact Bool.not_ne_self _
  have hclosed : (run V mem inp (u + 1)).Taken :=
    ((hsit (u + 1)).calm_of_not_waiting (by rw [h.done]; decide)).start
  refine { toWaitsUntil := h, once := ?_, strobe := ?_, load := ?_ }
  · obtain ⟨k, ⟨h1, h2, h3⟩, huniq⟩ := Clocked.existsUnique_edge
      (P := fun k => (run V mem inp k).Taken) (show t + 1 ≤ u + 1 from by have := h.after; omega)
      hopen hclosed (fun k h1 h2 hk => (hsit k).taken_step V (h.waiting k h1 (by omega)) hk)
    refine ⟨k, ⟨h1, by omega, (hiff k h1 (by omega)).mpr h3⟩, ?_⟩
    rintro v ⟨hv1, hv2, hv3⟩
    exact huniq v ⟨hv1, by omega, (hiff v hv1 hv2).mp hv3⟩
  · intro k h1 h2
    have hop := (h.request V ht h1 h2).1
    rcases (hsit k).operation V (inp k) with ⟨hsave, hws⟩ | ⟨-, hne, htaken, hws⟩
    · exact iff_of_false (fun hx => hx hws) (fun hx => hx.2 hsave)
    · rw [← hop]
      refine hws.trans ⟨fun hx => ⟨hx, ?_⟩, fun hx => hx.1⟩
      exact ((hsit k).operates_iff V (h.waiting k h1 h2)).mpr
        ⟨hne, (((hsit k).operates_iff V (h.waiting k h1 h2)).mp (by
          rw [Operates, htaken]; exact hne)).2⟩
  · intro hload
    obtain ⟨hop, hrd, -, hmem⟩ := h.request V ht h.after le_rfl
    obtain ⟨hwren, hvalue⟩ := (hsit u).load_value V (i := inp u) (h.waiting u h.after le_rfl)
      (by rw [hop]; exact hload) (by rw [hop]; exact MemOp.byteena_ne_zero (hal t ht) hload) h.done
      (inp (u + 1))
    rw [hmem, MemOp.write_load hload, hop, MemOp.laneValue_eq_loadValue (hal t ht) hload,
      laneMem_eq_specMem V hal] at hvalue
    refine ⟨specMem V mem inp t, mostRecent_specMem V mem inp t, hwren, hvalue, fun hne => ?_⟩
    have hrd' : (run V mem inp (u + 1)).iexec.regfileWraddr =
        (run V mem inp t).iexec.regfileWraddr := by
      rw [← hrd]
      exact (request_step V (by rw [h.waiting u h.after le_rfl]; decide) (busyR_run V u)).2
    change Iexec.nextRegfile V (run V mem inp (u + 1)).iexec _ _ = _
    have hnz : (run V mem inp (u + 1)).iexec.regfileWrenNz = true := by
      rw [Iexec.regfileWrenNz, hrd', Bool.and_eq_true, bne_iff_ne]
      exact ⟨hwren, hne⟩
    rw [Iexec.nextRegfile, if_pos ⟨hnz, hrd'.symm⟩]
    exact hvalue

end Runs

end DataUnit

open DataUnit

/-- Data-cache coherence.  Let the memory channel answer again and again and all accesses
be aligned.  Then a load or store goes to {lit}`LS_1` as it is accepted and is completed from there, by
exactly one operation of the cache; a load returns the most recent store to each of its
bytes, or the initial byte; and the cache does nothing on its own. -/
theorem dcache_coherent (V : Megafunctions) (mem : BitVec 24 → BitVec 16) (inp : ℕ → DataUnitInput)
    (hal : ∀ t, (run V mem inp t).iexec.state = .ls1 → (run V mem inp t).iexec.memOp.Aligned)
    (hready : ∀ t, ∃ u, t ≤ u ∧ (inp u).ready = true) :
    (∀ t, (run V mem inp (t + 1)).iexec.state = .ls1 ↔
      (run V mem inp t).iexec.accepts ((run V mem inp t).iexecInput (inp t)) = true ∧
        ((inp t).iexecIn.cmd = .load ∨ (inp t).iexecIn.cmd = .store)) ∧
    (∀ t, (run V mem inp t).iexec.state = .ls1 → ∃ u, Completes V mem inp t u) ∧
    (∀ t, (run V mem inp t).iexec.state ≠ .lsWait →
      ¬ Operates (run V mem inp t) (run V mem inp (t + 1))) := by
  refine ⟨fun t => ?_, fun t ht => ?_, fun t ht => ?_⟩
  · exact Iexec.state_step_ls1_iff V _
  · obtain ⟨u, hu⟩ := waitsUntil_of_ls1 V hready ht
    exact ⟨u, hu.completes V hal ht⟩
  · intro hx
    rcases (situation_run V t).operation V (inp t) with ⟨hsame, -⟩ | ⟨hst, -⟩
    · exact hx hsame
    · exact ht hst

/-- The instruction {lit}`sb x0, 8(x0)` and then always {lit}`lb x4, 9(x0)`, with a channel that
always answers. -/
def byteAccesses (t : ℕ) : DataUnitInput where
  iexecIn :=
    ⟨true, if t < 2 then .store else .load, cmdAluOpAdd, false, false,
      if t < 2 then 8#32 else 9#32, 0#5, 0#5, if t < 2 then 0#5 else 4#5, 0#12, 4#32⟩
  csrBus := 0#32
  intrOut := ⟨false, 0#4⟩
  ready := true
  float := 0#16
  undefinedLanes := fun _ _ => ⟨false, 0#8⟩

/-- Accesses to bytes are aligned. -/
theorem byteAccesses_aligned (t : ℕ)
    (ht : (run .documented (fun _ => 0x5A5A#16) byteAccesses t).iexec.state = .ls1) :
    (run .documented (fun _ => 0x5A5A#16) byteAccesses t).iexec.memOp.Aligned := by
  obtain ⟨n, rfl⟩ : ∃ n, t = n + 1 := by
    cases t with
    | zero => cases ht
    | succ n => exact ⟨n, rfl⟩
  -- what is accepted is one of the two instructions
  have hacc := ((Iexec.state_step_ls1_iff .documented _).mp ht).1
  have hop : (run .documented (fun _ => 0x5A5A#16) byteAccesses (n + 1)).iexec.memOp.lsOp = 0#2 := by
    change (Iexec.mainProcess .documented _ _).lsOp = _
    rw [Iexec.mainProcess_of_accepts _ hacc]
    by_cases hn : n < 2 <;> simp [Iexec.accept, iexecInput, byteAccesses, hn]
  constructor <;> intro hx <;> rw [hop] at hx <;> cases hx

/-- The store leaves one byte of the line in the cache, so the load of the next byte writes it
back and reads the line from memory. -/
theorem dcache_coherent_bytes :
    (∃ u, Completes .documented (fun _ => 0x5A5A#16) byteAccesses 1 u) ∧
    ∃ u, Completes .documented (fun _ => 0x5A5A#16) byteAccesses 6 u ∧
      (run .documented (fun _ => 0x5A5A#16) byteAccesses (u + 2)).iexec.regfile 4#5 = 0x5A#32 := by
  have hdone := (dcache_coherent .documented (fun _ => 0x5A5A#16) byteAccesses byteAccesses_aligned
    fun t => ⟨t, le_rfl, rfl⟩).2.1
  have hls : (run .documented (fun _ => 0x5A5A#16) byteAccesses 6).iexec.state = .ls1 := by
    decide +kernel
  have hwaits : ∀ k < 20,
      (run .documented (fun _ => 0x5A5A#16) byteAccesses (7 + k)).iexec.state = .lsWait := by
    decide +kernel
  have hend : (run .documented (fun _ => 0x5A5A#16) byteAccesses 27).iexec.state = .running := by
    decide +kernel
  obtain ⟨u, hu⟩ := hdone 6 hls
  have hlast : u = 26 := by
    have hafter := hu.after
    rcases Nat.lt_trichotomy u 26 with hlt | heq | hgt
    · have hwait := hwaits (u - 6) (by omega)
      rw [show 7 + (u - 6) = u + 1 by omega, hu.done] at hwait
      cases hwait
    · exact heq
    · have hwait := hu.waiting 27 (by decide) hgt
      rw [hend] at hwait
      cases hwait
  subst hlast
  exact ⟨hdone 1 (by decide +kernel), 26, hu, by decide +kernel⟩

end Sumeru
