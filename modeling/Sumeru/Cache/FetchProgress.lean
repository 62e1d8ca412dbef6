import Sumeru.Cache.InstructionFetch

/-!
# Sumeru - Progress of instruction fetch

The fetch stage is never kept waiting for ever: a lookup that misses is a hit in the end,
at the same pc, and the flush of a FENCE.I takes its 257 cycles.  Both rest on what the
cache does between two hits: it begins the flush that is pending, counts the lines down,
requests the line of the pc, waits for the strobe and takes eight half-words, in this
order and each once.

Main results:

- Theorem {lit}`FetchUnit.miss_step`: every cycle of a miss brings the hit closer, unless the
  memory keeps the cache waiting.
- Theorem {lit}`FetchUnit.flushAddr_run`: the lines of a flush.
- Theorem {lit}`fetch_progress`: both together.
-/

namespace Sumeru

namespace FetchUnit

variable {inp : ℕ → FetchUnitInput} {t : ℕ}

/-- The lookup of the pc fails at edge {lit}`t`. -/
def Misses (inp : ℕ → FetchUnitInput) (t : ℕ) : Prop :=
  (icacheAt inp t).hit (run inp t).addr = false

/-- The cache after an edge. -/
theorem icache_succ (inp : ℕ → FetchUnitInput) (t : ℕ) :
    (run inp (t + 1)).icache = (icacheAt inp t).clk (run inp t).addr (inp t).enable
      (run inp t).ifetch.icacheFlush (inp t).opStrobe (inp t).sdcDataOut :=
  rfl

/-- A flush is pending during a flush and at no time during a fill. -/
structure FlushPending (inp : ℕ → FetchUnitInput) (t : ℕ) : Prop where
  flushing : (run inp t).icache.state = .flushCache →
    (run inp t).ifetch.icacheFlush ≠ (run inp t).icache.flushAckR
  filling : ∀ k, (run inp t).icache.state = .waitB k →
    (run inp t).ifetch.icacheFlush = (run inp t).icache.flushAckR

/-- Without a fetch the flush request stays as it is. -/
theorem icacheFlush_succ (h : ¬ Fetches inp t) :
    (run inp (t + 1)).ifetch.icacheFlush = (run inp t).ifetch.icacheFlush := by
  rcases ifetch_cases inp t with ⟨hf, -⟩ | ⟨-, hkeep, -⟩
  · exact absurd hf h
  · exact hkeep

/-- A miss fetches nothing. -/
theorem not_fetches_of_misses (h : Misses inp t) : ¬ Fetches inp t := by
  intro hf
  have := hf.hit
  rw [show (icacheAt inp t).hit (run inp t).addr = false from h] at this
  cases this

/-- A flush is pending until it is done. -/
theorem flushPending_step (hinv : Invariant inp t) (h : FlushPending inp t) :
    FlushPending inp (t + 1) := by
  by_cases hf : Fetches inp t
  · obtain ⟨hidle, hnext⟩ := hinv.idle_of_fetches hf
    have hst : (run inp (t + 1)).icache.state = .idle := by
      rw [hnext]
      exact hidle
    exact ⟨(fun hx => by rw [hst] at hx; cases hx), (fun k hx => by rw [hst] at hx; cases hx)⟩
  · have hkeep := icacheFlush_succ hf
    have hact := icache_acts inp t
    generalize hnext : (run inp (t + 1)).icache = c' at hact
    constructor
    · intro hst
      rw [hkeep, hnext]
      rw [hnext] at hst
      cases hact with
      | startFlush _ hne => exact hne
      | request => cases hst
      | rest hidle =>
          change (icacheAt inp t).state = _ at hst
          rw [hidle] at hst
          cases hst
      | endFlush => cases hst
      | nextFlush hfl => exact h.flushing hfl
      | wait hw =>
          change (icacheAt inp t).state = _ at hst
          rw [hw] at hst
          cases hst
      | strobe => cases hst
      | beat k hw hk =>
          change (if k = 7 then _ else _) = _ at hst
          split at hst <;> cases hst
    · intro k hst
      rw [hkeep, hnext]
      rw [hnext] at hst
      cases hact with
      | startFlush => cases hst
      | request _ heq => exact heq
      | rest hidle =>
          change (icacheAt inp t).state = _ at hst
          rw [hidle] at hst
          cases hst
      | endFlush => cases hst
      | nextFlush hfl =>
          change (icacheAt inp t).state = _ at hst
          rw [hfl] at hst
          cases hst
      | wait hw => exact h.filling _ hw
      | strobe hw => exact h.filling _ hw
      | beat k hw hk => exact h.filling _ hw

/-- Flush requests are served one at a time. -/
theorem flushPending_run (hinv : ∀ t, Invariant inp t) (t : ℕ) : FlushPending inp t := by
  induction t with
  | zero => exact ⟨(fun hx => by cases hx), (fun k hx => by cases hx)⟩
  | succ t ih => exact flushPending_step (hinv t) ih

/-! ## From a miss to the hit -/

/-- A bound on the cycles up to the hit, apart from those spent waiting for the strobe. -/
def fetchRank (inp : ℕ → FetchUnitInput) (t : ℕ) : ℕ :=
  match (run inp t).icache.state with
  | .flushCache => 20 + (run inp t).icache.flushAddr.toNat
  | .idle =>
      if (run inp t).ifetch.icacheFlush = (run inp t).icache.flushAckR then 10 else 300
  | .waitB k => 9 - k.val

/-- The edge of an idle cache that misses. -/
theorem icache_succ_of_idle (hen : (inp t).enable = true) (hmiss : Misses inp t)
    (hidle : (run inp t).icache.state = .idle) :
    (run inp (t + 1)).icache =
      if (run inp t).ifetch.icacheFlush ≠ (run inp t).icache.flushAckR then
        (icacheAt inp t).startFlush (inp t).sdcDataOut
      else (icacheAt inp t).request (inp t).sdcDataOut := by
  have hst : (icacheAt inp t).state = .idle := hidle
  have hm : (icacheAt inp t).hit (run inp t).addr = false := hmiss
  rw [icache_succ, ReadCache.clk]
  simp only [hst, hen, hm, Bool.not_false, Bool.and_self, if_true]
  rfl

/-- The line is present after its last half-word. -/
theorem hit_of_lastBeat (hinv : Invariant inp t) (hst : (run inp t).icache.state = .waitB 7) :
    (icacheAt inp (t + 1)).hit (run inp (t + 1)).addr = true := by
  have hmiss : Misses inp t := hinv.hit_of_ne_idle (by rw [hst]; decide)
  have haddr := addr_of_miss hmiss
  have hnext : (run inp (t + 1)).icache = (icacheAt inp t).beat (inp t).sdcDataOut 7 := by
    have hst' : (icacheAt inp t).state = .waitB 7 := hst
    rw [icache_succ, ReadCache.clk]
    simp only [hst']
    rfl
  have hfe : (run inp (t + 1)).icache.flushEnable = false := by
    rw [hnext]
    exact (hinv.wait 7 hst).1
  have hmeta : (icacheAt inp (t + 1)).metaAddr (run inp (t + 1)).addr =
      lineOf (run inp (t + 1)).addr := by
    change (if (run inp (t + 1)).icache.flushEnable = false then _ else _) = _
    rw [hfe]
    rfl
  have hram : (icacheAt inp (t + 1)).metaRam (lineOf (run inp (t + 1)).addr) =
      0b00#2 ++ tagOf (run inp (t + 1)).addr ++ 1#1 := by
    have hwren : (run inp (t + 1)).icache.metaWren = true := by rw [hnext]; rfl
    have hvalid : (run inp (t + 1)).icache.metaDataLineValid = true := by rw [hnext]; rfl
    have hline : (run inp (t + 1)).icache.metaAddr (run inp (t + 1)).addr =
        lineOf (run inp (t + 1)).addr := by
      rw [ReadCache.metaAddr, hfe]
      rfl
    change (if _ then _ else _ : BitVec 8 → BitVec 16) _ = _
    rw [if_pos hwren, hline, Function.update_self, ReadCache.metaData, hvalid]
    rfl
  rw [ReadCache.hit, hmeta, hram, beq_iff_eq]
  apply BitVec.eq_of_getLsbD_eq
  intro i hi
  rw [BitVec.getLsbD_extractLsb', BitVec.getLsbD_append, BitVec.getLsbD_append,
    BitVec.getLsbD_append]
  simp only [Nat.zero_add]
  by_cases h0 : i < 1
  · simp [h0, hi]
  · have h13 : i - 1 < 13 := by omega
    simp [h0, h13, hi]

/-- Every cycle of a miss brings the hit closer, unless the memory keeps the cache
waiting. -/
theorem miss_step (hinv : Invariant inp t) (hp : FlushPending inp t)
    (hen : (inp t).enable = true) (hmiss : Misses inp t) :
    (icacheAt inp (t + 1)).hit (run inp (t + 1)).addr = true ∨
      (Misses inp (t + 1) ∧ fetchRank inp (t + 1) ≤ fetchRank inp t ∧
        ((inp t).opStrobe = (run inp t).icache.opStartR →
          fetchRank inp (t + 1) < fetchRank inp t)) := by
  cases hnexthit : (icacheAt inp (t + 1)).hit (run inp (t + 1)).addr with
  | true => exact .inl rfl
  | false =>
      refine .inr ⟨hnexthit, ?_⟩
      have hlt : fetchRank inp (t + 1) < fetchRank inp t →
          fetchRank inp (t + 1) ≤ fetchRank inp t ∧
            ((inp t).opStrobe = (run inp t).icache.opStartR →
              fetchRank inp (t + 1) < fetchRank inp t) := fun h => ⟨h.le, fun _ => h⟩
      have hflush := icacheFlush_succ (not_fetches_of_misses hmiss)
      cases hst : (run inp t).icache.state with
      | idle =>
          apply hlt
          have hnext := icache_succ_of_idle hen hmiss hst
          by_cases hpend : (run inp t).ifetch.icacheFlush = (run inp t).icache.flushAckR
          · rw [if_neg (fun h => h hpend)] at hnext
            have hwait : (run inp (t + 1)).icache.state = .waitB 0 := by rw [hnext]; rfl
            simp only [fetchRank, hst, hwait, hpend, if_true]
            decide
          · rw [if_pos hpend] at hnext
            have hfl : (run inp (t + 1)).icache.state = .flushCache := by rw [hnext]; rfl
            have haddr : (run inp (t + 1)).icache.flushAddr = 0xFF#8 := by rw [hnext]; rfl
            simp only [fetchRank, hst, hfl, haddr, hpend, if_false]
            decide
      | flushCache =>
          apply hlt
          have hst' : (icacheAt inp t).state = .flushCache := hst
          have hpend := hp.flushing hst
          by_cases h0 : (run inp t).icache.flushAddr = 0#8
          · have hnext : (run inp (t + 1)).icache =
                (icacheAt inp t).endFlush (inp t).sdcDataOut := by
              have h0' : (icacheAt inp t).flushAddr = 0#8 := h0
              rw [icache_succ, ReadCache.clk]
              simp only [hst', h0', if_true]
            have hdone : (run inp (t + 1)).ifetch.icacheFlush =
                (run inp (t + 1)).icache.flushAckR := by
              rw [hflush, hnext]
              exact Bool.eq_not_of_ne hpend
            have hidle : (run inp (t + 1)).icache.state = .idle := by rw [hnext]; rfl
            simp only [fetchRank, hst, hidle, hdone, if_true]
            omega
          · have hnext : (run inp (t + 1)).icache =
                (icacheAt inp t).nextFlush (inp t).sdcDataOut := by
              have h0' : ¬ (icacheAt inp t).flushAddr = 0#8 := h0
              rw [icache_succ, ReadCache.clk]
              simp only [hst', h0', if_false]
            have hfl : (run inp (t + 1)).icache.state = .flushCache := by rw [hnext]; exact hst
            have haddr : (run inp (t + 1)).icache.flushAddr =
                (run inp t).icache.flushAddr - 1#8 := by rw [hnext]; rfl
            simp only [fetchRank, hst, hfl, haddr]
            bv_omega
      | waitB k =>
          have hst' : (icacheAt inp t).state = .waitB k := hst
          by_cases hk : k = 0
          · subst hk
            by_cases hs : (inp t).opStrobe = (run inp t).icache.opStartR
            · apply hlt
              have hs' : (inp t).opStrobe = (icacheAt inp t).opStartR := hs
              have hnext : (run inp (t + 1)).icache.state = .waitB 1 := by
                rw [icache_succ, ReadCache.clk]
                simp only [hst', hs', if_true]
              simp only [fetchRank, hst, hnext]
              decide
            · have hs' : ¬ (inp t).opStrobe = (icacheAt inp t).opStartR := hs
              have hnext : (run inp (t + 1)).icache.state = .waitB 0 := by
                rw [icache_succ, ReadCache.clk]
                simp only [hst', hs', if_true, if_false]
                exact hst'
              simp only [fetchRank, hst, hnext, le_refl, true_and]
              exact fun h => absurd h hs
          · apply hlt
            have hnext : (run inp (t + 1)).icache.state =
                if k = 7 then .idle else .waitB (k + 1) := by
              rw [icache_succ, ReadCache.clk]
              simp only [hst', hk, if_false]
              rfl
            by_cases h7 : k = 7
            · -- the last half-word makes a hit
              rw [h7] at hst
              rw [hit_of_lastBeat hinv hst] at hnexthit
              cases hnexthit
            · rw [if_neg h7] at hnext
              have hval : k.val ≠ 7 := fun hx => h7 (Fin.ext hx)
              have hk8 := k.isLt
              have hsucc : (k + 1).val = k.val + 1 := by
                rw [Fin.val_add_one_of_lt']
                omega
              simp only [fetchRank, hst, hnext, hsucc]
              omega

/-- A pending flush is carried out, also without any answer of the memory. -/
theorem eventually_flushed (hinv : ∀ t, Invariant inp t) (t : ℕ) :
    ∃ u, t ≤ u ∧ (run inp u).ifetch.icacheFlush = (run inp u).icache.flushAckR := by
  by_cases hpend : (run inp t).ifetch.icacheFlush = (run inp t).icache.flushAckR
  · exact ⟨t, le_rfl, hpend⟩
  · refine Clocked.LeadsTo.of_rank
      (P := fun u => (run inp u).ifetch.icacheFlush ≠ (run inp u).icache.flushAckR)
      (fetchRank inp) (fun u hu => ?_) t hpend
    have hflush := icacheFlush_succ fun hf : Fetches inp u => hu hf.ack.symm
    have hact := icache_acts inp u
    generalize hnext : (run inp (u + 1)).icache = c' at hact
    cases hact with
    | startFlush hst =>
        have hst0 : (run inp u).icache.state = .idle := hst
        refine .inr ⟨by rw [hflush]; exact hu, ?_⟩
        have hfl : (run inp (u + 1)).icache.state = .flushCache := by rw [hnext]; rfl
        have haddr : (run inp (u + 1)).icache.flushAddr = 0xFF#8 := by rw [hnext]; rfl
        simp only [fetchRank, hst0, hfl, haddr, hu, if_false]
        decide
    | request _ heq => exact absurd heq hu
    | rest _ heq => exact absurd heq hu
    | endFlush =>
        left
        rw [hflush]
        exact Bool.eq_not_of_ne hu
    | nextFlush hst h0 =>
        have hst0 : (run inp u).icache.state = .flushCache := hst
        have h0' : (run inp u).icache.flushAddr ≠ 0#8 := h0
        refine .inr ⟨by rw [hflush]; exact hu, ?_⟩
        have hfl : (run inp (u + 1)).icache.state = .flushCache := by rw [hnext]; exact hst
        have haddr : (run inp (u + 1)).icache.flushAddr =
            (run inp u).icache.flushAddr - 1#8 := by rw [hnext]; rfl
        simp only [fetchRank, hst0, hfl, haddr]
        bv_omega
    | wait hst => exact absurd ((flushPending_run hinv u).filling _ hst) hu
    | strobe hst => exact absurd ((flushPending_run hinv u).filling _ hst) hu
    | beat k hst => exact absurd ((flushPending_run hinv u).filling _ hst) hu

/-- The memory answers the fetch unit again and again. -/
def Answers (inp : ℕ → FetchUnitInput) : Prop :=
  ∀ t, ∃ u, t ≤ u ∧ (inp u).opStrobe = (run inp u).icache.opStartR

/-- A memory that answers in the next cycle. -/
theorem answers_of_prompt (hinv : ∀ t, Invariant inp t)
    (hprompt : ∀ t, (inp (t + 1)).opStrobe = (run inp t).icache.opStartR) : Answers inp := by
  intro t
  by_cases hidle : (run inp t).icache.state = .idle
  · exact ⟨t, le_rfl, ((hinv t).idle hidle).1⟩
  · refine ⟨t + 1, by omega, ?_⟩
    rw [hprompt]
    have hact := icache_acts inp t
    generalize (run inp (t + 1)).icache = c' at hact
    cases hact with
    | request hst => exact absurd hst hidle
    | _ => rfl

/-- A lookup is a hit in the end, and the pc waits for it. -/
theorem eventually_hit (hinv : ∀ t, Invariant inp t) (hfair : Answers inp) {t : ℕ}
    (hen : ∀ u, t ≤ u → (inp u).enable = true) :
    ∃ u, t ≤ u ∧ (icacheAt inp u).hit (run inp u).addr = true ∧
      (run inp u).ifetch.pc = (run inp t).ifetch.pc := by
  classical
  have hex : ∃ u, t ≤ u ∧ (icacheAt inp u).hit (run inp u).addr = true := by
    by_cases hhit : (icacheAt inp t).hit (run inp t).addr = true
    · exact ⟨t, le_rfl, hhit⟩
    · refine Clocked.LeadsTo.of_fair_rank (P := fun u => t ≤ u ∧ Misses inp u) (fetchRank inp)
        (fun u hu => ?_) hfair t ⟨le_rfl, by simpa [Misses] using hhit⟩
      rcases miss_step (hinv u) (flushPending_run hinv u) (hen u hu.1) hu.2 with hh | ⟨hm, hrank⟩
      · exact .inl hh
      · exact .inr ⟨⟨by omega, hm⟩, hrank⟩
  obtain ⟨htu, hhit⟩ := Nat.find_spec hex
  refine ⟨Nat.find hex, htu, hhit, ?_⟩
  -- before the first hit the pc stands still
  have hkeep : ∀ n, t + n ≤ Nat.find hex → (run inp (t + n)).ifetch.pc = (run inp t).ifetch.pc := by
    intro n
    induction n with
    | zero => exact fun _ => rfl
    | succ n ih =>
        intro hn
        have hmiss : Misses inp (t + n) := by
          have hmin := Nat.find_min hex (m := t + n) (by omega)
          simpa [Misses] using hmin
        rw [← Nat.add_assoc, pc_of_miss hmiss]
        exact ih (by omega)
  obtain ⟨n, hn⟩ := Nat.exists_eq_add_of_le htu
  rw [hn]
  exact hkeep n (by omega)

/-- Lines are requested only while the cache is enabled. -/
theorem enable_of_requests {r : ℕ} (h : Requests inp r) : (inp r).enable = true := by
  by_contra hen
  have hoff : (inp r).enable = false := by simpa using hen
  have hidle : (icacheAt inp r).state = .idle := h.1
  have hst := h.2
  rw [icache_succ, ReadCache.clk, hoff] at hst
  simp only [hidle, Bool.false_and] at hst
  split at hst
  · cases hst
  · exact absurd (hidle.symm.trans hst) (by decide)

/-! ## A stage that waits -/

/-- No flush is left, no redirect is pending, and the line of the pc is present. -/
structure Resting (inp : ℕ → FetchUnitInput) (t : ℕ) : Prop where
  acked : (run inp t).ifetch.icacheFlush = (run inp t).icache.flushAckR
  straight : (run inp t).ifetch.cxferPending = false
  hit : (icacheAt inp t).hit (run inp t).addr = true

/-- The execute stage is busy and asks for no redirect. -/
def Held (inp : ℕ → FetchUnitInput) (t : ℕ) : Prop :=
  (inp t).idecodeOut.busy = true ∧ (inp t).idecodeOut.cxfer = false

/-- A stage that is held fetches nothing. -/
theorem Held.not_fetches (h : Held inp t) : ¬ Fetches inp t := by
  intro hf
  have hfree := hf.free
  rw [h.1] at hfree
  cases hfree

/-- A flush that is done stays done. -/
theorem Held.acked_succ (h : Held inp t) (hp : FlushPending inp t)
    (hack : (run inp t).ifetch.icacheFlush = (run inp t).icache.flushAckR) :
    (run inp (t + 1)).ifetch.icacheFlush = (run inp (t + 1)).icache.flushAckR := by
  rw [icacheFlush_succ h.not_fetches, hack]
  have hact := icache_acts inp t
  generalize (run inp (t + 1)).icache = c' at hact
  cases hact with
  | startFlush _ hne => exact absurd hack hne
  | endFlush hst => exact absurd hack (hp.flushing hst)
  | _ => rfl

/-- A stage that is held takes a pending redirect with the next hit, and nothing else. -/
theorem Held.ifetch_succ (h : Held inp t)
    (hack : (run inp t).ifetch.icacheFlush = (run inp t).icache.flushAckR) :
    ((run inp (t + 1)).ifetch.cxferPending = false ∨
        ((run inp t).ifetch.cxferPending = true ∧
          (icacheAt inp t).hit (run inp t).addr = false)) ∧
      ((run inp t).ifetch.cxferPending = false →
        (run inp (t + 1)).ifetch.pc = (run inp t).ifetch.pc) := by
  obtain ⟨hbusy, hcxfer⟩ := h
  have hack' : ¬ ((run inp t).ifetchIn (inp t)).icacheFlushAck ≠ (run inp t).ifetch.icacheFlush :=
    fun hne => hne hack.symm
  have hbusy' : ((run inp t).ifetchIn (inp t)).idecodeOut.busy = true := hbusy
  have hcxfer' : ((run inp t).ifetchIn (inp t)).idecodeOut.cxfer = false := hcxfer
  have hhit' : ((run inp t).ifetchIn (inp t)).icacheHit =
      (icacheAt inp t).hit (run inp t).addr := rfl
  rw [run_succ]
  simp only [FetchUnit.step, Ifetch.step, if_neg hack', hbusy', hcxfer', hhit']
  cases hpend : (run inp t).ifetch.cxferPending with
  | false => simp
  | true => cases hh : (icacheAt inp t).hit (run inp t).addr <;> simp

/-- A resting cache that is not used goes on resting. -/
theorem Resting.succ (h : Resting inp t) (hinv : Invariant inp t) (hp : FlushPending inp t)
    (hheld : Held inp t) : Resting inp (t + 1) := by
  obtain ⟨hpend, hpc⟩ := hheld.ifetch_succ h.acked
  have hidle : (icacheAt inp t).state = .idle := by
    by_contra hne
    have hmiss := hinv.hit_of_ne_idle hne
    rw [h.hit] at hmiss
    cases hmiss
  have hact := icache_acts inp t
  have hnext : (run inp (t + 1)).icache = (icacheAt inp t).edgeDefaults (inp t).sdcDataOut := by
    generalize (run inp (t + 1)).icache = c' at hact
    cases hact with
    | startFlush _ hne => exact absurd h.acked hne
    | request _ _ hmiss =>
        rw [h.hit] at hmiss
        cases hmiss
    | rest => rfl
    | endFlush hst => rw [hidle] at hst; cases hst
    | nextFlush hst => rw [hidle] at hst; cases hst
    | wait => rfl
    | strobe hst => rw [hidle] at hst; cases hst
    | beat k hst => rw [hidle] at hst; cases hst
  refine ⟨hheld.acked_succ hp h.acked, hpend.resolve_right fun hx => ?_, ?_⟩
  · rw [h.straight] at hx
    cases hx.1
  · have haddr : (run inp (t + 1)).addr = (run inp t).addr := by
      rw [addr, addr, hpc h.straight]
    have hsame : (icacheAt inp (t + 1)).hit (run inp t).addr =
        (icacheAt inp t).hit (run inp t).addr := by
      change ((run inp (t + 1)).icache.clkN (run inp (t + 1)).addr).hit _ = _
      rw [hnext]
      rfl
    rw [haddr, hsame]
    exact h.hit

/-- While the execute stage is busy the cache comes to rest. -/
theorem eventually_resting (hinv : ∀ t, Invariant inp t) (hfair : Answers inp) {t : ℕ}
    (hen : ∀ u, t ≤ u → (inp u).enable = true) (hheld : ∀ u, t ≤ u → Held inp u) :
    ∃ v, t ≤ v ∧ ∀ u, v ≤ u → Resting inp u := by
  obtain ⟨u₀, h₀, hack₀⟩ := eventually_flushed hinv t
  have hack : ∀ u, u₀ ≤ u → (run inp u).ifetch.icacheFlush = (run inp u).icache.flushAckR := by
    intro u hu
    induction u, hu using Nat.le_induction with
    | base => exact hack₀
    | succ u hu ih => exact (hheld u (by omega)).acked_succ (flushPending_run hinv u) ih
  -- a pending redirect is taken with the first hit
  obtain ⟨u₁, h₁, hpend₁⟩ : ∃ u, u₀ ≤ u ∧ (run inp u).ifetch.cxferPending = false := by
    obtain ⟨v, hv, hhit, -⟩ := eventually_hit hinv hfair fun u hu => hen u (h₀.trans hu)
    refine ⟨v + 1, by omega, ?_⟩
    refine ((hheld v (by omega)).ifetch_succ (hack v hv)).1.resolve_right fun hx => ?_
    rw [hhit] at hx
    cases hx.2
  have hpend : ∀ u, u₁ ≤ u → (run inp u).ifetch.cxferPending = false := by
    intro u hu
    induction u, hu using Nat.le_induction with
    | base => exact hpend₁
    | succ u hu ih =>
        refine ((hheld u (by omega)).ifetch_succ (hack u (by omega))).1.resolve_right fun hx => ?_
        rw [ih] at hx
        cases hx.1
  obtain ⟨v, hv, hhit, -⟩ := eventually_hit hinv hfair fun u hu => hen u ((h₀.trans h₁).trans hu)
  refine ⟨v, by omega, fun u hu => ?_⟩
  induction u, hu using Nat.le_induction with
  | base => exact ⟨hack v (by omega), hpend v hv, hhit⟩
  | succ u hu ih => exact ih.succ (hinv u) (flushPending_run hinv u) (hheld u (by omega))

/-! ## The length of a flush -/

/-- A flush counts the lines down from 255. -/
theorem flushAddr_run {g : ℕ} (hst : (run inp g).icache.state = .flushCache)
    (haddr : (run inp g).icache.flushAddr = 0xFF#8) (n : ℕ) (hn : n ≤ 255) :
    (run inp (g + n)).icache.state = .flushCache ∧
      (run inp (g + n)).icache.flushAddr.toNat = 255 - n := by
  induction n with
  | zero =>
      rw [Nat.add_zero, haddr]
      exact ⟨hst, rfl⟩
  | succ n ih =>
      obtain ⟨hfl, hval⟩ := ih (by omega)
      have hfl' : (icacheAt inp (g + n)).state = .flushCache := hfl
      have h0 : ¬ (icacheAt inp (g + n)).flushAddr = 0#8 := by
        intro hx
        have hx' : (run inp (g + n)).icache.flushAddr = 0#8 := hx
        rw [hx'] at hval
        change 0 = _ at hval
        omega
      have hnext : (run inp (g + n + 1)).icache =
          (icacheAt inp (g + n)).nextFlush (inp (g + n)).sdcDataOut := by
        rw [icache_succ, ReadCache.clk]
        simp only [hfl', h0, if_false]
      rw [← Nat.add_assoc, hnext]
      refine ⟨hfl, ?_⟩
      change ((run inp (g + n)).icache.flushAddr - 1#8).toNat = _
      bv_omega

/-- A FENCE.I fetched at edge {lit}`f` flushes the cache from the next edge on, and its flush
ends 256 edges later. -/
theorem flush_of_fence (hinv : ∀ t, Invariant inp t) {f : ℕ} (hf : FetchesFenceI inp f) :
    StartsFlush inp (f + 1) ∧ EndsFlush inp (f + 257) := by
  obtain ⟨hidle, hnext⟩ := (hinv f).idle_of_fetches hf.1
  have hst1 : (run inp (f + 1)).icache.state = .idle := by rw [hnext]; exact hidle
  have hpend : (run inp (f + 1)).ifetch.icacheFlush ≠ (run inp (f + 1)).icache.flushAckR := by
    rcases ifetch_cases inp f with ⟨-, hif⟩ | ⟨hno, -⟩
    · rw [hif, hnext]
      change (if isFenceI (fetchedInst inp f) = true then _ else _) ≠ (run inp f).icache.flushAckR
      rw [if_pos hf.2, hf.1.ack]
      simp
    · exact absurd hf.1 hno
  have hnext2 : (run inp (f + 2)).icache =
      (icacheAt inp (f + 1)).startFlush (inp (f + 1)).sdcDataOut := by
    have hst1' : (icacheAt inp (f + 1)).state = .idle := hst1
    have hpend' : (run inp (f + 1)).ifetch.icacheFlush ≠ (icacheAt inp (f + 1)).flushAckR := hpend
    rw [icache_succ, ReadCache.clk]
    simp only [hst1']
    exact if_pos hpend'
  have hst2 : (run inp (f + 2)).icache.state = .flushCache := by rw [hnext2]; rfl
  refine ⟨⟨hst1, hst2⟩, ?_⟩
  obtain ⟨hlast, hzero⟩ := flushAddr_run hst2 (by rw [hnext2]; rfl) 255 le_rfl
  rw [show f + 2 + 255 = f + 257 by omega] at hlast hzero
  refine ⟨hlast, ?_⟩
  generalize f + 257 = e at hlast hzero ⊢
  have haddr : (run inp e).icache.flushAddr = 0#8 := by
    apply BitVec.eq_of_toNat_eq
    rw [hzero]
    rfl
  have h0 : (icacheAt inp e).flushAddr = 0#8 := haddr
  have hlast' : (icacheAt inp e).state = .flushCache := hlast
  rw [icache_succ, ReadCache.clk]
  simp only [hlast', h0, if_true]
  rfl

end FetchUnit

open FetchUnit

/-- Instruction fetch makes progress.  If the cache is enabled and the memory answers again
and again, every lookup is a hit in the end, at the pc of the lookup; and a FENCE.I starts a
flush in the next cycle that ends 256 cycles later. -/
theorem fetch_progress (inp : ℕ → FetchUnitInput) (cells : ℕ → BitVec 24 → BitVec 16)
    (hport : ReadPort (fun t => (run inp t).mcIn) (fun t => (inp t).opStrobe)
      (fun t => (inp t).sdcDataOut) cells)
    (hen : ∀ t, (inp t).enable = true) (hfair : Answers inp) :
    (∀ t, ∃ u, t ≤ u ∧ (icacheAt inp u).hit (run inp u).addr = true ∧
      (run inp u).ifetch.pc = (run inp t).ifetch.pc) ∧
    (∀ f, FetchesFenceI inp f → StartsFlush inp (f + 1) ∧ EndsFlush inp (f + 257)) := by
  have hinv := invariant_run hport.start (strobeRests hport)
  exact ⟨fun _ => eventually_hit hinv hfair fun u _ => hen u, fun _ hf => flush_of_fence hinv hf⟩

/-- With a memory that answers in the next cycle the first lookup is a hit in the end. -/
theorem fetch_progress_prompt :
    ∃ u, 0 ≤ u ∧ (icacheAt promptInput u).hit (run promptInput u).addr = true ∧
      (run promptInput u).ifetch.pc = 0#32 :=
  (fetch_progress promptInput _ promptInput_readPort (fun _ => rfl)
    (answers_of_prompt (invariant_run promptInput_readPort.start (strobeRests promptInput_readPort))
      fun t => by rw [run_promptInput]; rfl)).1 0

end Sumeru
