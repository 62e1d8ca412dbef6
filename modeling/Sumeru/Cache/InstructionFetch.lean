import Sumeru.Cache.ReadCache
import Sumeru.Memory.Channel

/-!
# Sumeru - Instruction fetch through the cache

The fetch stage emits only words that a complete fill has read from memory, and no
fill from before a FENCE.I.  The tag RAM serves lookups, invalidations, fills and the
flush counter; {lit}`entry` abstracts from it to a partial map from lines to a tag and
four words, and every edge of the cache changes that map at one line at most.

Main results:

- Theorem {lit}`FetchUnit.invariant_run`: every valid line has a fill behind it, made
  after the last flush, and the states of a fill are those of its half-words.
- Theorem {lit}`fetch_returns_filled_words`: the guarantees of instruction fetch.
-/

namespace Sumeru

/-! ## The branches of the cache -/

namespace ReadCache

/-- What one edge of {lit}`clk` can do to the cache: guard and result of every branch. -/
inductive Acts (c : ReadCache) (addr : BitVec 25) (flush opStrobe : Bool) (x : BitVec 16) :
    ReadCache → Prop where
  | startFlush (hst : c.state = .idle) (hf : flush ≠ c.flushAckR) :
      Acts c addr flush opStrobe x (c.startFlush x)
  | request (hst : c.state = .idle) (hf : flush = c.flushAckR) (hmiss : c.hit addr = false) :
      Acts c addr flush opStrobe x (c.request x)
  | rest (hst : c.state = .idle) (hf : flush = c.flushAckR) :
      Acts c addr flush opStrobe x (c.edgeDefaults x)
  | endFlush (hst : c.state = .flushCache) (h0 : c.flushAddr = 0#8) :
      Acts c addr flush opStrobe x (c.endFlush x)
  | nextFlush (hst : c.state = .flushCache) (h0 : c.flushAddr ≠ 0#8) :
      Acts c addr flush opStrobe x (c.nextFlush x)
  | wait (hst : c.state = .waitB 0) (hs : opStrobe ≠ c.opStartR) :
      Acts c addr flush opStrobe x (c.edgeDefaults x)
  | strobe (hst : c.state = .waitB 0) (hs : opStrobe = c.opStartR) :
      Acts c addr flush opStrobe x { c.edgeDefaults x with state := .waitB 1 }
  | beat (k : Fin 8) (hst : c.state = .waitB k) (hk : k ≠ 0) :
      Acts c addr flush opStrobe x (c.beat x k)

/-- Every edge takes one of the branches. -/
theorem clk_acts (c : ReadCache) (addr : BitVec 25) (enable flush opStrobe : Bool)
    (x : BitVec 16) : c.Acts addr flush opStrobe x (c.clk addr enable flush opStrobe x) := by
  unfold clk
  cases hst : c.state with
  | idle =>
      simp only
      split
      · rename_i hf
        exact .startFlush hst hf
      · rename_i hf
        rw [ne_eq, not_not] at hf
        split
        · rename_i hmiss
          simp only [Bool.and_eq_true, Bool.not_eq_true'] at hmiss
          exact .request hst hf hmiss.2
        · exact .rest hst hf
  | flushCache =>
      simp only
      split
      · rename_i h0
        exact .endFlush hst h0
      · rename_i h0
        exact .nextFlush hst h0
  | waitB k =>
      simp only
      split
      · rename_i hk
        subst hk
        split
        · rename_i hs
          exact .strobe hst hs
        · rename_i hs
          exact .wait hst hs
      · rename_i hk
        exact .beat k hst hk

/-! ## Lines -/

/-- The valid bit of a line. -/
def valid (c : ReadCache) (l : BitVec 8) : Bool := (c.metaRam l).getLsbD 0

/-- The tag of a line. -/
def tag (c : ReadCache) (l : BitVec 8) : BitVec 13 := (c.metaRam l).extractLsb' 1 13

/-- A hit finds a valid line with the tag of the address. -/
theorem valid_of_hit {c : ReadCache} {addr : BitVec 25} (h : c.hit addr = true) :
    c.valid (c.metaAddr addr) = true ∧ c.tag (c.metaAddr addr) = tagOf addr := by
  rw [hit, beq_iff_eq] at h
  constructor
  · have hbit := congrArg (fun x => x.getLsbD 0) h
    rw [BitVec.getLsbD_append] at hbit
    simpa [valid] using hbit
  · have htag := congrArg (fun x => x.extractLsb' 1 13) h
    simp only [BitVec.extractLsb'_append_eq_left] at htag
    rw [← htag, tag]
    ext i hi
    simp [BitVec.getElem_extractLsb']

/-- The address and the words of a valid line. -/
def entry (c : ReadCache) (l : BitVec 8) : Option (BitVec 13 × (Fin 4 → BitVec 32)) :=
  if c.valid l then some (c.tag l, fun j => c.dataRam j l) else none

/-- A hit shows the entry of the line. -/
theorem entry_of_hit {c : ReadCache} {addr : BitVec 25} (h : c.hit addr = true) :
    c.entry (c.metaAddr addr) =
      some (tagOf addr, fun j => c.dataRam j (c.metaAddr addr)) := by
  obtain ⟨hv, htag⟩ := valid_of_hit h
  rw [entry, hv, if_pos rfl, htag]

/-- The valid bit that is written. -/
theorem valid_metaData (c : ReadCache) (addr : BitVec 25) :
    (c.metaData addr).getLsbD 0 = c.metaDataLineValid := by
  rw [metaData, BitVec.getLsbD_append]
  simp

/-- The tag that is written. -/
theorem tag_metaData (c : ReadCache) (addr : BitVec 25) :
    (c.metaData addr).extractLsb' 1 13 = tagOf addr := by
  ext i hi
  rw [BitVec.getElem_extractLsb', metaData, BitVec.getLsbD_append, BitVec.getLsbD_append]
  simp [hi]

/-- Equal RAM contents are equal entries. -/
theorem entry_congr {c c' : ReadCache} {l : BitVec 8} (hm : c'.metaRam l = c.metaRam l)
    (hd : ∀ j, c'.dataRam j l = c.dataRam j l) : c'.entry l = c.entry l := by
  have hv : c'.valid l = c.valid l := by rw [valid, valid, hm]
  have ht : c'.tag l = c.tag l := by rw [tag, tag, hm]
  simp only [entry, hv, ht, hd]

/-- RAMs that are not written keep their entries. -/
theorem entry_clkN_keep {c : ReadCache} (addr : BitVec 25) (hm : c.metaWren = false)
    (hd : ∀ j, c.dataWren j = false) : (c.clkN addr).entry = c.entry := by
  funext l
  exact entry_congr (by simp [clkN, hm]) (by simp [clkN, hd])

/-- Writing a tag without the valid bit removes one entry. -/
theorem entry_clkN_invalidate {c : ReadCache} (addr : BitVec 25) (hm : c.metaWren = true)
    (hv : c.metaDataLineValid = false) (hd : ∀ j, c.dataWren j = false) (l : BitVec 8) :
    (c.clkN addr).entry l = if l = c.metaAddr addr then none else c.entry l := by
  by_cases hl : l = c.metaAddr addr
  · subst hl
    have := valid_metaData c addr
    simp [entry, valid, clkN, hm, hv, -BitVec.getLsbD_eq_getElem, this]
  · rw [if_neg hl]
    exact entry_congr (by simp [clkN, hm, hl]) (by simp [clkN, hd])

/-- Data is written to the addressed line only. -/
theorem dataRam_clkN_of_ne (c : ReadCache) {addr : BitVec 25} {l : BitVec 8}
    (hl : l ≠ lineOf addr) (j : Fin 4) : (c.clkN addr).dataRam j l = c.dataRam j l := by
  simp only [clkN]
  split
  · rw [Function.update_of_ne hl]
  · rfl

/-- Data written to a line without an entry is not visible yet. -/
theorem entry_clkN_data {c : ReadCache} {addr : BitVec 25} (hm : c.metaWren = false)
    (hnone : c.entry (lineOf addr) = none) : (c.clkN addr).entry = c.entry := by
  funext l
  by_cases hl : l = lineOf addr
  · subst hl
    have hv : c.valid (lineOf addr) = false := by
      by_contra hv
      simp [entry, hv] at hnone
    have hv' : (c.clkN addr).valid (lineOf addr) = false := by simpa [valid, clkN, hm] using hv
    rw [entry, entry, hv, hv']
    rfl
  · exact entry_congr (by simp [clkN, hm]) (c.dataRam_clkN_of_ne hl)

/-- The last word and the tag of a line make its entry. -/
theorem entry_clkN_complete {c : ReadCache} {addr : BitVec 25} (hm : c.metaWren = true)
    (hv : c.metaDataLineValid = true) (hf : c.flushEnable = false) (l : BitVec 8) :
    (c.clkN addr).entry l =
      if l = lineOf addr then some (tagOf addr, fun j => (c.clkN addr).dataRam j l)
      else c.entry l := by
  have haddr : c.metaAddr addr = lineOf addr := by simp [metaAddr, hf]
  by_cases hl : l = lineOf addr
  · subst hl
    have hmeta : (c.clkN addr).metaRam (lineOf addr) = c.metaData addr := by
      simp [clkN, hm, haddr]
    have hvalid : (c.clkN addr).valid (lineOf addr) = true := by
      rw [valid, hmeta, valid_metaData, hv]
    have htag : (c.clkN addr).tag (lineOf addr) = tagOf addr := by
      rw [tag, hmeta, tag_metaData]
    rw [entry, hvalid, htag, if_pos rfl, if_pos rfl]
  · rw [if_neg hl]
    exact entry_congr (by simp [clkN, hm, haddr, hl]) (c.dataRam_clkN_of_ne hl)

end ReadCache

/-! ## Fills and flushes of a run -/

namespace FetchUnit

section History

variable (inp : ℕ → FetchUnitInput)

/-- The cache at the {lit}`t`-th edge of {lit}`clk`. -/
def icacheAt (t : ℕ) : ReadCache := (run inp t).settled

/-- A line is requested at edge {lit}`r`. -/
def Requests (r : ℕ) : Prop :=
  (run inp r).icache.state = .idle ∧ (run inp (r + 1)).icache.state = .waitB 0

/-- A flush starts at edge {lit}`g`. -/
def StartsFlush (g : ℕ) : Prop :=
  (run inp g).icache.state = .idle ∧ (run inp (g + 1)).icache.state = .flushCache

/-- A flush ends at edge {lit}`h`. -/
def EndsFlush (h : ℕ) : Prop :=
  (run inp h).icache.state = .flushCache ∧ (run inp (h + 1)).icache.state = .idle

/-- The line requested at {lit}`r` is being loaded up to cycle {lit}`t`, with the pc held. -/
structure Loading (r t : ℕ) : Prop where
  request : Requests inp r
  lt : r < t
  steady : ∀ u, r ≤ u → u ≤ t → (run inp u).ifetch.pc = (run inp r).ifetch.pc
  waits : ∀ u, r < u → u < t → ∃ k, (run inp u).icache.state = .waitB k

/-- The load has seen its strobe at edge {lit}`s`. -/
structure Fill (r s t : ℕ) : Prop extends Loading inp r t where
  order : r + 1 < s ∧ s ≤ t
  waiting : ∀ u, r < u → u < s → (inp u).opStrobe ≠ (run inp u).icache.opStartR
  strobe : (inp s).opStrobe = (run inp s).icache.opStartR

/-- The word that a fill with the strobe at {lit}`s` puts at place {lit}`j`. -/
def filledWord (s : ℕ) (j : Fin 4) : BitVec 32 :=
  (inp (s + (2 * j.val + 1))).sdcDataOut ++ (inp (s + 2 * j.val)).sdcDataOut

/-- Every entry comes from a complete fill, requested after the last flush. -/
def Lines (t : ℕ) : Prop :=
  ∀ l tag words, (icacheAt inp t).entry l = some (tag, words) →
    ∃ r s, Fill inp r s (s + 8) ∧ s + 8 ≤ t ∧ lineOf (run inp r).addr = l ∧
      tagOf (run inp r).addr = tag ∧ (∀ j, words j = filledWord inp s j) ∧
      ∀ h, EndsFlush inp h → h < t → h < r

/-- What holds at the {lit}`t`-th edge in every state of the cache. -/
structure Invariant (t : ℕ) : Prop where
  lines : Lines inp t
  idle : (run inp t).icache.state = .idle →
    (inp t).opStrobe = (run inp t).icache.opStartR ∧ (run inp t).icache.flushEnable = false
  flush : (run inp t).icache.state = .flushCache →
    (inp t).opStrobe = (run inp t).icache.opStartR ∧ (run inp t).icache.flushEnable = true ∧
      ∀ l, (run inp t).icache.flushAddr ≤ l → (icacheAt inp t).entry l = none
  wait : ∀ k, (run inp t).icache.state = .waitB k →
    (run inp t).icache.flushEnable = false ∧
      (icacheAt inp t).entry (lineOf (run inp t).addr) = none
  await : (run inp t).icache.state = .waitB 0 → ∃ r, Loading inp r t ∧
    (∀ u, r < u → u < t → (inp u).opStrobe ≠ (run inp u).icache.opStartR) ∧
    (inp (r + 1)).opStrobe ≠ (run inp (r + 1)).icache.opStartR
  fill : ∀ k, k ≠ 0 → (run inp t).icache.state = .waitB k → ∃ r s, s + k.val = t ∧
    Fill inp r s t ∧ (inp t).opStrobe = (run inp t).icache.opStartR ∧
    (run inp t).icache.writeData.extractLsb' 16 16 = (inp (s + (k.val - 1))).sdcDataOut ∧
    (2 ≤ k.val → (run inp t).icache.writeData.extractLsb' 0 16 =
      (inp (s + (k.val - 2))).sdcDataOut) ∧
    ∀ j : Fin 4, 2 * j.val + 2 ≤ k.val →
      (icacheAt inp t).dataRam j (lineOf (run inp t).addr) = filledWord inp s j

end History

variable {inp : ℕ → FetchUnitInput} {t : ℕ}

/-- The cache misses while it is not {lit}`IDLE`. -/
theorem Invariant.hit_of_ne_idle (h : Invariant inp t) (hst : (run inp t).icache.state ≠ .idle) :
    (icacheAt inp t).hit (run inp t).addr = false := by
  rw [← Bool.not_eq_true]
  intro hhit
  have hentry := ReadCache.entry_of_hit hhit
  cases hs : (run inp t).icache.state with
  | idle => exact hst hs
  | flushCache =>
      obtain ⟨-, hen, hnone⟩ := h.flush hs
      have haddr : (icacheAt inp t).metaAddr (run inp t).addr = (run inp t).icache.flushAddr := by
        change (if (run inp t).icache.flushEnable = false then _ else _) = _
        rw [hen]
        rfl
      rw [haddr, hnone _ (BitVec.le_refl _)] at hentry
      cases hentry
  | waitB k =>
      obtain ⟨hen, hnone⟩ := h.wait k hs
      have haddr : (icacheAt inp t).metaAddr (run inp t).addr = lineOf (run inp t).addr := by
        change (if (run inp t).icache.flushEnable = false then _ else _) = _
        rw [hen]
        rfl
      rw [haddr, hnone] at hentry
      cases hentry

/-- A miss holds the pc. -/
theorem pc_of_miss (h : (icacheAt inp t).hit (run inp t).addr = false) :
    (run inp (t + 1)).ifetch.pc = (run inp t).ifetch.pc := by
  have hmiss : ((run inp t).ifetchIn (inp t)).icacheHit = false := h
  rw [run_succ]
  simp only [step, Ifetch.step, hmiss, Bool.and_false]
  split <;> rfl

/-- The address stands still on a miss. -/
theorem addr_of_miss (h : (icacheAt inp t).hit (run inp t).addr = false) :
    (run inp (t + 1)).addr = (run inp t).addr := by
  rw [addr, addr, pc_of_miss h]

/-- The branch taken at edge {lit}`t`. -/
theorem icache_acts (inp : ℕ → FetchUnitInput) (t : ℕ) :
    (icacheAt inp t).Acts (run inp t).addr (run inp t).ifetch.icacheFlush (inp t).opStrobe
      (inp t).sdcDataOut (run inp (t + 1)).icache :=
  ReadCache.clk_acts _ _ _ _ _ _

/-- A load goes on for another cycle. -/
theorem Loading.step {r : ℕ} {k : Fin 8} (h : Loading inp r t)
    (hst : (run inp t).icache.state = .waitB k)
    (hpc : (run inp (t + 1)).ifetch.pc = (run inp t).ifetch.pc) : Loading inp r (t + 1) where
  request := h.request
  lt := by have := h.lt; omega
  steady := by
    intro u hru hu
    rcases Nat.lt_succ_iff_lt_or_eq.mp (Nat.lt_succ_of_le hu) with hlt | rfl
    · exact h.steady u hru (by omega)
    · rw [hpc]
      exact h.steady t h.lt.le le_rfl
  waits := by
    intro u hru hu
    rcases Nat.lt_succ_iff_lt_or_eq.mp hu with hlt | rfl
    · exact h.waits u hru hlt
    · exact ⟨k, hst⟩

/-! ## One edge -/

/-- Entries that survive an edge keep their fills. -/
theorem Lines.of_subset (h : Lines inp t)
    (hsub : ∀ l e, (icacheAt inp (t + 1)).entry l = some e → (icacheAt inp t).entry l = some e)
    (hno : ¬ EndsFlush inp t) : Lines inp (t + 1) := by
  intro l tag words he
  obtain ⟨r, s, hfill, hs, hl, htag, hw, hflush⟩ := h l tag words (hsub l _ he)
  refine ⟨r, s, hfill, by omega, hl, htag, hw, fun u hu hut => ?_⟩
  rcases Nat.lt_succ_iff_lt_or_eq.mp hut with hlt | rfl
  · exact hflush u hu hlt
  · exact absurd hu hno

/-- Entries that stay, at an edge outside a flush. -/
theorem Lines.of_entry_eq (h : Lines inp t)
    (hentry : (icacheAt inp (t + 1)).entry = (icacheAt inp t).entry)
    (hst : (run inp t).icache.state ≠ .flushCache) : Lines inp (t + 1) :=
  h.of_subset (fun l e he => by rw [← hentry]; exact he) fun hend => hst hend.1

/-- An edge that removes the entry at {lit}`m` and writes no data. -/
theorem entry_of_invalidate (hm : (run inp (t + 1)).icache.metaWren = true)
    (hv : (run inp (t + 1)).icache.metaDataLineValid = false)
    (hd : ∀ j, (run inp (t + 1)).icache.dataWren j = false)
    (he : (run inp (t + 1)).icache.entry = (icacheAt inp t).entry) (l : BitVec 8) :
    (icacheAt inp (t + 1)).entry l =
      if l = (run inp (t + 1)).icache.metaAddr (run inp (t + 1)).addr then none
      else (icacheAt inp t).entry l := by
  rw [← he]
  exact ReadCache.entry_clkN_invalidate _ hm hv hd l

/-- At edge {lit}`t` the strobe rests if it agrees with the start signal. -/
def RestsAt (inp : ℕ → FetchUnitInput) (t : ℕ) : Prop :=
  (inp t).opStrobe = (run inp t).icache.opStartR → (inp (t + 1)).opStrobe = (inp t).opStrobe

/-- The strobe rests while it agrees with the start signal. -/
def StrobeRests (inp : ℕ → FetchUnitInput) : Prop := ∀ t, RestsAt inp t

/-- The invariant of an idle cache. -/
theorem Invariant.of_idle (hst : (run inp t).icache.state = .idle) (hl : Lines inp t)
    (hs : (inp t).opStrobe = (run inp t).icache.opStartR)
    (hen : (run inp t).icache.flushEnable = false) : Invariant inp t where
  lines := hl
  idle := fun _ => ⟨hs, hen⟩
  flush := fun h => by rw [hst] at h; cases h
  wait := fun _ h => by rw [hst] at h; cases h
  await := fun h => by rw [hst] at h; cases h
  fill := fun _ _ h => by rw [hst] at h; cases h

/-- The invariant of a cache that is being flushed. -/
theorem Invariant.of_flush (hst : (run inp t).icache.state = .flushCache) (hl : Lines inp t)
    (hs : (inp t).opStrobe = (run inp t).icache.opStartR)
    (hen : (run inp t).icache.flushEnable = true)
    (hnone : ∀ l, (run inp t).icache.flushAddr ≤ l → (icacheAt inp t).entry l = none) :
    Invariant inp t where
  lines := hl
  idle := fun h => by rw [hst] at h; cases h
  flush := fun _ => ⟨hs, hen, hnone⟩
  wait := fun _ h => by rw [hst] at h; cases h
  await := fun h => by rw [hst] at h; cases h
  fill := fun _ _ h => by rw [hst] at h; cases h

/-- Idle to flush: line 255 goes first. -/
theorem invariant_startFlush (hrest : RestsAt inp t) (h : Invariant inp t)
    (hst : (run inp t).icache.state = .idle)
    (hnext : (run inp (t + 1)).icache = (icacheAt inp t).startFlush (inp t).sdcDataOut) :
    Invariant inp (t + 1) := by
  have hentry := fun l => entry_of_invalidate (l := l) (by rw [hnext]; rfl) (by rw [hnext]; rfl)
    (by rw [hnext]; exact fun _ => rfl) (by rw [hnext]; rfl)
  have hsame := (h.idle hst).1
  apply Invariant.of_flush
  · rw [hnext]
    rfl
  · refine h.lines.of_subset (fun l e he => ?_) fun hend => ?_
    · rw [hentry l] at he
      split at he
      · cases he
      · exact he
    · rw [EndsFlush, hst] at hend
      cases hend.1
  · rw [hrest hsame, hsame, hnext]
    rfl
  · rw [hnext]
    rfl
  · intro l hl
    rw [hnext] at hl
    change 0xFF#8 ≤ l at hl
    rw [hentry l, if_pos]
    rw [hnext]
    change l = 0xFF#8
    bv_omega

/-- One more line of a flush. -/
theorem invariant_nextFlush (hrest : RestsAt inp t) (h : Invariant inp t)
    (hst : (run inp t).icache.state = .flushCache)
    (hnext : (run inp (t + 1)).icache = (icacheAt inp t).nextFlush (inp t).sdcDataOut) :
    Invariant inp (t + 1) := by
  obtain ⟨hsame, hen, hnone⟩ := h.flush hst
  have hst' : (run inp (t + 1)).icache.state = .flushCache := by rw [hnext]; exact hst
  have haddr : (run inp (t + 1)).icache.metaAddr (run inp (t + 1)).addr =
      (run inp t).icache.flushAddr - 1#8 := by
    rw [hnext]
    change (if (run inp t).icache.flushEnable = false then _ else _) = _
    rw [hen]
    rfl
  have hentry := fun l => entry_of_invalidate (l := l) (by rw [hnext]; rfl) (by rw [hnext]; rfl)
    (by rw [hnext]; exact fun _ => rfl) (by rw [hnext]; rfl)
  apply Invariant.of_flush hst'
  · refine h.lines.of_subset (fun l e he => ?_) fun hend => ?_
    · rw [hentry l] at he
      split at he
      · cases he
      · exact he
    · rw [EndsFlush, hst'] at hend
      cases hend.2
  · rw [hrest hsame, hsame, hnext]
    rfl
  · rw [hnext]
    exact hen
  · intro l hl
    rw [hnext] at hl
    change (run inp t).icache.flushAddr - 1#8 ≤ l at hl
    rw [hentry l, haddr]
    split
    · rfl
    · rename_i hne
      apply hnone
      bv_omega

/-- The end of a flush: nothing is left. -/
theorem Invariant.entry_of_endFlush (h : Invariant inp t)
    (hst : (run inp t).icache.state = .flushCache) (h0 : (run inp t).icache.flushAddr = 0#8)
    (l : BitVec 8) : (icacheAt inp t).entry l = none := by
  apply (h.flush hst).2.2
  rw [h0]
  bv_omega

/-- The invariant after a flush. -/
theorem invariant_endFlush (hrest : RestsAt inp t) (h : Invariant inp t)
    (hst : (run inp t).icache.state = .flushCache) (h0 : (run inp t).icache.flushAddr = 0#8)
    (hnext : (run inp (t + 1)).icache = (icacheAt inp t).endFlush (inp t).sdcDataOut) :
    Invariant inp (t + 1) := by
  obtain ⟨hsame, -, -⟩ := h.flush hst
  have hentry := fun l => entry_of_invalidate (l := l) (by rw [hnext]; rfl) (by rw [hnext]; rfl)
    (by rw [hnext]; exact fun _ => rfl) (by rw [hnext]; rfl)
  apply Invariant.of_idle
  · rw [hnext]
    rfl
  · intro l tag words he
    rw [hentry l, h.entry_of_endFlush hst h0] at he
    split at he <;> cases he
  · rw [hrest hsame, hsame, hnext]
    rfl
  · rw [hnext]
    rfl

/-- An idle cycle. -/
theorem invariant_rest (hrest : RestsAt inp t) (h : Invariant inp t)
    (hst : (run inp t).icache.state = .idle)
    (hnext : (run inp (t + 1)).icache = (icacheAt inp t).edgeDefaults (inp t).sdcDataOut) :
    Invariant inp (t + 1) := by
  obtain ⟨hsame, hen⟩ := h.idle hst
  have hentry : (icacheAt inp (t + 1)).entry = (icacheAt inp t).entry := by
    change ((run inp (t + 1)).icache.clkN _).entry = _
    rw [hnext]
    exact ReadCache.entry_clkN_keep _ rfl fun _ => rfl
  apply Invariant.of_idle
  · rw [hnext]
    exact hst
  · exact h.lines.of_entry_eq hentry (by simp [hst])
  · rw [hrest hsame, hsame, hnext]
    rfl
  · rw [hnext]
    exact hen

/-- A miss: its line is invalid from now on, and the strobe is the old one. -/
theorem invariant_request (hrest : RestsAt inp t) (h : Invariant inp t)
    (hst : (run inp t).icache.state = .idle)
    (hmiss : (icacheAt inp t).hit (run inp t).addr = false)
    (hnext : (run inp (t + 1)).icache = (icacheAt inp t).request (inp t).sdcDataOut) :
    Invariant inp (t + 1) := by
  obtain ⟨hsame, hen⟩ := h.idle hst
  have hst' : (run inp (t + 1)).icache.state = .waitB 0 := by rw [hnext]; rfl
  have hen' : (run inp (t + 1)).icache.flushEnable = false := by rw [hnext]; exact hen
  have hpc := pc_of_miss hmiss
  have hopen : (inp (t + 1)).opStrobe ≠ (run inp (t + 1)).icache.opStartR := by
    rw [hrest hsame, hsame, hnext]
    change (run inp t).icache.opStartR ≠ !(run inp t).icache.opStartR
    simp
  have hentry := fun l => entry_of_invalidate (l := l) (by rw [hnext]; rfl) (by rw [hnext]; rfl)
    (by rw [hnext]; exact fun _ => rfl) (by rw [hnext]; rfl)
  have haddr : (run inp (t + 1)).icache.metaAddr (run inp (t + 1)).addr =
      lineOf (run inp (t + 1)).addr := by
    rw [ReadCache.metaAddr, hen']
    rfl
  refine ⟨h.lines.of_subset (fun l e he => ?_) fun hend => ?_, fun hs => ?_, fun hs => ?_,
    fun k hs => ⟨hen', ?_⟩, fun _ => ⟨t, ?_, fun u h1 h2 => by omega, hopen⟩, fun k hk hs => ?_⟩
  · rw [hentry l] at he
    split at he
    · cases he
    · exact he
  · rw [EndsFlush, hst] at hend
    cases hend.1
  · rw [hst'] at hs
    cases hs
  · rw [hst'] at hs
    cases hs
  · rw [hentry, if_pos haddr.symm]
  · refine ⟨⟨hst, hst'⟩, by omega, fun u h1 h2 => ?_, fun u h1 h2 => by omega⟩
    obtain rfl | rfl : u = t ∨ u = t + 1 := by omega
    · rfl
    · exact hpc
  · rw [hst'] at hs
    cases hs
    exact absurd rfl hk

/-- A load in progress, its first half-word not yet seen. -/
theorem Invariant.of_await (hst : (run inp t).icache.state = .waitB 0) (hl : Lines inp t)
    (hen : (run inp t).icache.flushEnable = false)
    (hnone : (icacheAt inp t).entry (lineOf (run inp t).addr) = none)
    (h : ∃ r, Loading inp r t ∧
      (∀ u, r < u → u < t → (inp u).opStrobe ≠ (run inp u).icache.opStartR) ∧
      (inp (r + 1)).opStrobe ≠ (run inp (r + 1)).icache.opStartR) : Invariant inp t where
  lines := hl
  idle := fun h => by rw [hst] at h; cases h
  flush := fun h => by rw [hst] at h; cases h
  wait := fun _ _ => ⟨hen, hnone⟩
  await := fun _ => h
  fill := fun k hk h => by rw [hst] at h; cases h; exact absurd rfl hk

/-- A load with {lit}`k` half-words seen. -/
theorem Invariant.of_fill {k : Fin 8} (hst : (run inp t).icache.state = .waitB k) (hk : k ≠ 0)
    (hl : Lines inp t) (hen : (run inp t).icache.flushEnable = false)
    (hnone : (icacheAt inp t).entry (lineOf (run inp t).addr) = none)
    (h : ∃ r s, s + k.val = t ∧
      Fill inp r s t ∧ (inp t).opStrobe = (run inp t).icache.opStartR ∧
      (run inp t).icache.writeData.extractLsb' 16 16 = (inp (s + (k.val - 1))).sdcDataOut ∧
      (2 ≤ k.val → (run inp t).icache.writeData.extractLsb' 0 16 =
        (inp (s + (k.val - 2))).sdcDataOut) ∧
      ∀ j : Fin 4, 2 * j.val + 2 ≤ k.val →
        (icacheAt inp t).dataRam j (lineOf (run inp t).addr) = filledWord inp s j) :
    Invariant inp t where
  lines := hl
  idle := fun h => by rw [hst] at h; cases h
  flush := fun h => by rw [hst] at h; cases h
  wait := fun _ _ => ⟨hen, hnone⟩
  await := fun h => by rw [hst] at h; cases h; exact absurd rfl hk
  fill := fun k' _ h' => by rw [hst] at h'; cases h'; exact h

/-- A cycle of waiting for the first half-word. -/
theorem invariant_wait (h : Invariant inp t) (hst : (run inp t).icache.state = .waitB 0)
    (hs : (inp t).opStrobe ≠ (run inp t).icache.opStartR)
    (hnext : (run inp (t + 1)).icache = (icacheAt inp t).edgeDefaults (inp t).sdcDataOut) :
    Invariant inp (t + 1) := by
  obtain ⟨hen, hnone⟩ := h.wait 0 hst
  obtain ⟨r, hload, hwaits, hfirst⟩ := h.await hst
  have hst' : (run inp (t + 1)).icache.state = .waitB 0 := by rw [hnext]; exact hst
  have hmiss := h.hit_of_ne_idle (by simp [hst])
  have hentry : (icacheAt inp (t + 1)).entry = (icacheAt inp t).entry := by
    change ((run inp (t + 1)).icache.clkN _).entry = _
    rw [hnext]
    exact ReadCache.entry_clkN_keep _ rfl fun _ => rfl
  apply Invariant.of_await hst'
  · exact h.lines.of_entry_eq hentry (by simp [hst])
  · rw [hnext]
    exact hen
  · rw [hentry, addr_of_miss hmiss]
    exact hnone
  · refine ⟨r, hload.step hst (pc_of_miss hmiss), fun u h1 h2 => ?_, hfirst⟩
    rcases Nat.lt_succ_iff_lt_or_eq.mp h2 with hlt | rfl
    · exact hwaits u h1 hlt
    · exact hs

/-- The strobe arrives with the first half-word. -/
theorem invariant_strobe (hrest : RestsAt inp t) (h : Invariant inp t)
    (hst : (run inp t).icache.state = .waitB 0)
    (hs : (inp t).opStrobe = (run inp t).icache.opStartR)
    (hnext : (run inp (t + 1)).icache =
      { (icacheAt inp t).edgeDefaults (inp t).sdcDataOut with state := .waitB 1 }) :
    Invariant inp (t + 1) := by
  obtain ⟨hen, hnone⟩ := h.wait 0 hst
  obtain ⟨r, hload, hwaits, hfirst⟩ := h.await hst
  have hst' : (run inp (t + 1)).icache.state = .waitB 1 := by rw [hnext]
  have hmiss := h.hit_of_ne_idle (by simp [hst])
  have hentry : (icacheAt inp (t + 1)).entry = (icacheAt inp t).entry := by
    change ((run inp (t + 1)).icache.clkN _).entry = _
    rw [hnext]
    exact ReadCache.entry_clkN_keep _ rfl fun _ => rfl
  have horder : r + 1 < t := by
    have hlt := hload.lt
    by_contra hge
    obtain rfl : t = r + 1 := by omega
    exact hfirst hs
  apply Invariant.of_fill hst' (by decide)
  · exact h.lines.of_entry_eq hentry (by simp [hst])
  · rw [hnext]
    exact hen
  · rw [hentry, addr_of_miss hmiss]
    exact hnone
  · refine ⟨r, t, rfl, ⟨hload.step hst (pc_of_miss hmiss), ⟨horder, by omega⟩, hwaits, hs⟩, ?_, ?_,
      fun h2 => ?_, fun j hj => ?_⟩
    · rw [hrest hs, hs, hnext]
      rfl
    · rw [hnext]
      exact BitVec.extractLsb'_append_eq_left
    · exact absurd h2 (by decide)
    · have h1 : (1 : Fin 8).val = 1 := rfl
      omega

section Beat

variable {k : Fin 8} {r s : ℕ}

/-- The words that a beat completes or finds complete. -/
theorem dataRam_beat (hs : s + k.val = t)
    (haddr : (run inp (t + 1)).addr = (run inp t).addr)
    (hlast : (run inp t).icache.writeData.extractLsb' 16 16 = (inp (s + (k.val - 1))).sdcDataOut)
    (hwords : ∀ j : Fin 4, 2 * j.val + 2 ≤ k.val →
      (icacheAt inp t).dataRam j (lineOf (run inp t).addr) = filledWord inp s j)
    (hnext : (run inp (t + 1)).icache = (icacheAt inp t).beat (inp t).sdcDataOut k)
    (j : Fin 4) (hj : 2 * j.val + 2 ≤ k.val + 1) :
    (icacheAt inp (t + 1)).dataRam j (lineOf (run inp (t + 1)).addr) = filledWord inp s j := by
  change ((run inp (t + 1)).icache.clkN (run inp (t + 1)).addr).dataRam j _ = _
  rw [hnext, haddr]
  by_cases hkj : k.val = 2 * j.val + 1
  · have hwren : ((icacheAt inp t).beat (inp t).sdcDataOut k).dataWren j = true := by
      simpa [ReadCache.beat] using hkj
    simp only [ReadCache.clkN, hwren, if_true, Function.update_self]
    change (inp t).sdcDataOut ++ (run inp t).icache.writeData.extractLsb' 16 16 =
      filledWord inp s j
    rw [hlast, filledWord, ← hs, hkj]
    rfl
  · have hwren : ((icacheAt inp t).beat (inp t).sdcDataOut k).dataWren j = false := by
      simpa [ReadCache.beat] using hkj
    simp only [ReadCache.clkN, hwren]
    exact hwords j (by omega)

/-- A fill goes on. -/
theorem Fill.step (h : Fill inp r s t) (hst : (run inp t).icache.state = .waitB k)
    (hpc : (run inp (t + 1)).ifetch.pc = (run inp t).ifetch.pc) : Fill inp r s (t + 1) :=
  ⟨h.toLoading.step hst hpc, ⟨h.order.1, by have := h.order.2; omega⟩, h.waiting, h.strobe⟩

/-- No flush ends while a line is loaded. -/
theorem Loading.not_endsFlush (h : Loading inp r t) (hst : (run inp t).icache.state = .waitB k)
    {u : ℕ} (hend : EndsFlush inp u) (hu : u < t + 1) : u < r := by
  by_contra hge
  have hcases : u = r ∨ (r < u ∧ u < t) ∨ u = t := by
    have := h.lt
    omega
  rcases hcases with rfl | ⟨h1, h2⟩ | rfl
  · have := h.request.1
    rw [hend.1] at this
    cases this
  · obtain ⟨k', hk'⟩ := h.waits u h1 h2
    rw [hend.1] at hk'
    cases hk'
  · rw [hend.1] at hst
    cases hst

/-- A half-word in the middle of a line. -/
theorem invariant_beat (hrest : RestsAt inp t) (h : Invariant inp t)
    (hst : (run inp t).icache.state = .waitB k) (hk : k ≠ 0) (hk7 : k ≠ 7)
    (hnext : (run inp (t + 1)).icache = (icacheAt inp t).beat (inp t).sdcDataOut k) :
    Invariant inp (t + 1) := by
  obtain ⟨hen, hnone⟩ := h.wait k hst
  obtain ⟨r, s, hs, hfill, hsame, hlast, -, hwords⟩ := h.fill k hk hst
  have hmiss := h.hit_of_ne_idle (by simp [hst])
  have haddr := addr_of_miss hmiss
  have hval : (k + 1).val = k.val + 1 := by
    have := k.isLt
    rw [Fin.val_add_one_of_lt (Fin.lt_last_iff_ne_last.mpr hk7)]
  have hst' : (run inp (t + 1)).icache.state = .waitB (k + 1) := by
    rw [hnext]
    simp [ReadCache.beat, hk7]
  have hwren : (run inp (t + 1)).icache.metaWren = false := by
    rw [hnext]
    simpa [ReadCache.beat] using hk7
  have hentry : (icacheAt inp (t + 1)).entry = (icacheAt inp t).entry := by
    have hsameEntry : (run inp (t + 1)).icache.entry = (icacheAt inp t).entry := by
      rw [hnext]
      rfl
    rw [← hsameEntry]
    apply ReadCache.entry_clkN_data hwren
    rw [hsameEntry, haddr]
    exact hnone
  apply Invariant.of_fill hst'
  · intro h0
    rw [h0] at hval
    cases hval
  · exact h.lines.of_entry_eq hentry (by simp [hst])
  · rw [hnext]
    exact hen
  · rw [hentry, haddr]
    exact hnone
  · refine ⟨r, s, by omega, hfill.step hst (pc_of_miss hmiss), ?_, ?_, fun _ => ?_, fun j hj => ?_⟩
    · rw [hrest hsame, hsame, hnext]
      rfl
    · rw [hnext, hval, Nat.add_sub_cancel, hs]
      exact BitVec.extractLsb'_append_eq_left
    · rw [hnext, hval, show k.val + 1 - 2 = k.val - 1 by omega, ← hlast]
      exact BitVec.extractLsb'_append_eq_right
    · exact dataRam_beat hs haddr hlast hwords hnext j (by omega)

/-- The last half-word makes the line valid. -/
theorem invariant_lastBeat (hrest : RestsAt inp t) (h : Invariant inp t)
    (hst : (run inp t).icache.state = .waitB 7)
    (hnext : (run inp (t + 1)).icache = (icacheAt inp t).beat (inp t).sdcDataOut 7) :
    Invariant inp (t + 1) := by
  obtain ⟨hen, -⟩ := h.wait 7 hst
  obtain ⟨r, s, hs, hfill, hsame, hlast, -, hwords⟩ := h.fill 7 (by decide) hst
  have hmiss := h.hit_of_ne_idle (by simp [hst])
  have haddr := addr_of_miss hmiss
  have hs8 : s + 8 = t + 1 := by
    have h7 : (7 : Fin 8).val = 7 := rfl
    omega
  apply Invariant.of_idle
  · rw [hnext]
    rfl
  · intro l tag words he
    change ((run inp (t + 1)).icache.clkN (run inp (t + 1)).addr).entry l = _ at he
    rw [ReadCache.entry_clkN_complete (by rw [hnext]; rfl) (by rw [hnext]; rfl)
      (by rw [hnext]; exact hen)] at he
    split at he
    · rename_i hl
      subst hl
      rw [Option.some.injEq, Prod.mk.injEq] at he
      obtain ⟨rfl, rfl⟩ := he
      have hstart : (run inp (t + 1)).addr = (run inp r).addr := by
        rw [haddr, FetchUnit.addr, hfill.steady t hfill.lt.le le_rfl]
        rfl
      refine ⟨r, s, ?_, by omega, by rw [hstart], by rw [hstart], fun j => ?_, fun u hu hut => ?_⟩
      · rw [hs8]
        exact hfill.step hst (pc_of_miss hmiss)
      · exact dataRam_beat hs haddr hlast hwords hnext j (by
          have h7 : (7 : Fin 8).val = 7 := rfl
          have := j.isLt
          omega)
      · exact hfill.toLoading.not_endsFlush hst hu hut
    · have hold : (run inp (t + 1)).icache.entry = (icacheAt inp t).entry := by
        rw [hnext]
        rfl
      rw [hold] at he
      obtain ⟨r', s', hf', hs', hl', ht', hw', hflush'⟩ := h.lines l tag words he
      refine ⟨r', s', hf', by omega, hl', ht', hw', fun u hu hut => ?_⟩
      rcases Nat.lt_succ_iff_lt_or_eq.mp hut with hlt | rfl
      · exact hflush' u hu hlt
      · rw [EndsFlush, hst] at hu
        cases hu.1
  · rw [hrest hsame, hsame, hnext]
    rfl
  · rw [hnext]
    exact hen

end Beat

/-- One clock cycle keeps the invariant. -/
theorem invariant_step (hrest : RestsAt inp t) (h : Invariant inp t) : Invariant inp (t + 1) := by
  have hact := icache_acts inp t
  generalize hnext : (run inp (t + 1)).icache = c' at hact
  cases hact with
  | startFlush hst => exact invariant_startFlush hrest h hst hnext
  | request hst _ hmiss => exact invariant_request hrest h hst hmiss hnext
  | rest hst => exact invariant_rest hrest h hst hnext
  | endFlush hst h0 => exact invariant_endFlush hrest h hst h0 hnext
  | nextFlush hst => exact invariant_nextFlush hrest h hst hnext
  | wait hst hs => exact invariant_wait h hst hs hnext
  | strobe hst hs => exact invariant_strobe hrest h hst hs hnext
  | beat k hst hk =>
      by_cases hk7 : k = 7
      · subst hk7
        exact invariant_lastBeat hrest h hst hnext
      · exact invariant_beat hrest h hst hk hk7 hnext

/-- At power-up the cache is empty. -/
theorem invariant_zero (hstart : (inp 0).opStrobe = false) : Invariant inp 0 := by
  apply Invariant.of_idle rfl _ hstart rfl
  intro l tag words he
  change (ReadCache.init.clkN _).entry l = _ at he
  simp [ReadCache.entry, ReadCache.valid, ReadCache.clkN, ReadCache.init] at he

/-- The invariant holds in every cycle. -/
theorem invariant_run (hstart : (inp 0).opStrobe = false) (hrest : StrobeRests inp) (t : ℕ) :
    Invariant inp t := by
  induction t with
  | zero => exact invariant_zero hstart
  | succ t ih => exact invariant_step (hrest t) ih

/-! ## Fetched words -/

/-- The fetch stage takes the word at the pc at edge {lit}`t`. -/
structure Fetches (inp : ℕ → FetchUnitInput) (t : ℕ) : Prop where
  ack : (run inp t).icache.flushAckR = (run inp t).ifetch.icacheFlush
  hit : (icacheAt inp t).hit (run inp t).addr = true
  free : (inp t).idecodeOut.busy = false
  straight : ((inp t).idecodeOut.cxfer || (run inp t).ifetch.cxferPending) = false

/-- The word at the pc. -/
def fetchedInst (inp : ℕ → FetchUnitInput) (t : ℕ) : BitVec 32 :=
  (icacheAt inp t).data (run inp t).addr

/-- A FENCE.I is fetched at edge {lit}`f`. -/
def FetchesFenceI (inp : ℕ → FetchUnitInput) (f : ℕ) : Prop :=
  Fetches inp f ∧ isFenceI (fetchedInst inp f) = true

/-- One edge of the fetch stage: it takes a word, or leaves the flush request alone and
offers no new word to decode. -/
theorem ifetch_cases (inp : ℕ → FetchUnitInput) (t : ℕ) :
    (Fetches inp t ∧ (run inp (t + 1)).ifetch = (run inp t).ifetch.fetch (fetchedInst inp t)) ∨
      (¬ Fetches inp t ∧
        (run inp (t + 1)).ifetch.icacheFlush = (run inp t).ifetch.icacheFlush ∧
        ((run inp (t + 1)).ifetch.idecodeIn.valid = true →
          (run inp (t + 1)).ifetch.idecodeIn = (run inp t).ifetch.idecodeIn)) := by
  have hstep : (run inp (t + 1)).ifetch =
      (run inp t).ifetch.step ((run inp t).ifetchIn (inp t)) := rfl
  rw [hstep]
  unfold Ifetch.step
  split
  · rename_i hack
    refine .inr ⟨fun h => hack h.ack, rfl, fun hv => by cases hv⟩
  · rename_i hack
    split
    · rename_i hcx
      refine .inr ⟨fun h => ?_, rfl, fun hv => by cases hv⟩
      have hs := h.straight
      change ((inp t).idecodeOut.cxfer || (run inp t).ifetch.cxferPending) && _ at hcx
      rw [hs] at hcx
      cases hcx
    · rename_i hcx
      split
      · rename_i hgo
        obtain ⟨hbusy, hhit⟩ := Bool.and_eq_true_iff.mp hgo
        refine .inl ⟨⟨not_not.mp hack, hhit, by simpa [ifetchIn] using hbusy, ?_⟩, rfl⟩
        rw [Bool.not_eq_true, Bool.and_eq_false_iff] at hcx
        rcases hcx with h | h
        · exact h
        · rw [hhit] at h
          cases h
      · rename_i hgo
        refine .inr ⟨fun h => hgo ?_, rfl, fun hv => ?_⟩
        · exact Bool.and_eq_true_iff.mpr ⟨by simpa [ifetchIn] using h.free, h.hit⟩
        · have hvalid : (run inp t).ifetch.idecodeIn.valid = true := by
            simp only [Bool.and_eq_true] at hv
            exact hv.1
          simp only at hv ⊢
          rw [hv]
          cases hi : (run inp t).ifetch.idecodeIn
          rw [hi] at hvalid
          simp only at hvalid
          rw [hvalid]

/-- A fetch finds the cache idle, and the cache stays so. -/
theorem Invariant.idle_of_fetches (h : Invariant inp t) (hf : Fetches inp t) :
    (run inp t).icache.state = .idle ∧
      (run inp (t + 1)).icache = (icacheAt inp t).edgeDefaults (inp t).sdcDataOut := by
  have hidle : (run inp t).icache.state = .idle := by
    by_contra hne
    have hmiss := h.hit_of_ne_idle hne
    rw [hf.hit] at hmiss
    cases hmiss
  refine ⟨hidle, ?_⟩
  have hact := icache_acts inp t
  generalize hnext : (run inp (t + 1)).icache = c' at hact
  cases hact with
  | startFlush _ hne => exact absurd hf.ack.symm hne
  | request _ _ hmiss =>
      rw [hf.hit] at hmiss
      cases hmiss
  | rest => rfl
  | endFlush hst =>
      change (run inp t).icache.state = _ at hst
      rw [hidle] at hst
      cases hst
  | nextFlush hst =>
      change (run inp t).icache.state = _ at hst
      rw [hidle] at hst
      cases hst
  | wait hst => rfl
  | strobe hst =>
      change (run inp t).icache.state = _ at hst
      rw [hidle] at hst
      cases hst
  | beat k hst =>
      change (run inp t).icache.state = _ at hst
      rw [hidle] at hst
      cases hst

/-- The half-word address of the low half of the word at {lit}`pc`. -/
def wordAddr (pc : BitVec 32) : BitVec 24 := pc.extractLsb' 2 23 ++ 0#1

/-- The word at {lit}`pc` as a fill with the strobe at {lit}`s` reads it. -/
def memWord (cells : ℕ → BitVec 24 → BitVec 16) (s : ℕ) (pc : BitVec 32) : BitVec 32 :=
  cells (s + (2 * (pc.extractLsb' 2 2).toNat + 1)) (wordAddr pc + 1#24) ++
    cells (s + 2 * (pc.extractLsb' 2 2).toNat) (wordAddr pc)

/-- The half-words of the word at {lit}`pc`. -/
theorem lineBase_add (pc : BitVec 32) (b : ℕ) (hb : b < 2) :
    lineBase (pc.extractLsb' 0 25) + BitVec.ofNat 24 (2 * (pc.extractLsb' 2 2).toNat + b) =
      wordAddr pc + BitVec.ofNat 24 b := by
  apply BitVec.eq_of_toNat_eq
  simp only [lineBase, wordAddr, toNat_append_eq, BitVec.toNat_add, BitVec.extractLsb'_toNat,
    BitVec.toNat_ofNat, Nat.shiftRight_eq_div_pow]
  omega

/-- A line begins at a multiple of eight half-words. -/
theorem lineBase_aligned (addr : BitVec 25) : (lineBase addr).toNat % 8 = 0 := by
  rw [lineBase, toNat_append_eq]
  simp

/-- Line and tag together are the address of a line. -/
theorem lineBits_eq {a b : BitVec 25} (hl : lineOf a = lineOf b) (ht : tagOf a = tagOf b) :
    a.extractLsb' 4 21 = b.extractLsb' 4 21 := by
  have hsplit : ∀ x : BitVec 25, x.extractLsb' 4 21 = tagOf x ++ lineOf x := by
    intro x
    rw [tagOf, lineOf, BitVec.extractLsb'_append_extractLsb'_eq_extractLsb' (by rfl)]
  rw [hsplit, hsplit, hl, ht]

variable {cells : ℕ → BitVec 24 → BitVec 16}

/-- The half-words of a fill are those of memory. -/
theorem Fill.halfWord {r s : ℕ} (h : Fill inp r s (s + 8))
    (hport : ReadPort (fun t => (run inp t).mcIn) (fun t => (inp t).opStrobe)
      (fun t => (inp t).sdcDataOut) cells) {k : ℕ} (hk : k < 8) :
    (inp (s + k)).sdcDataOut =
      cells (s + k) (lineBase (run inp r).addr + BitVec.ofNat 24 k) := by
  have horder := h.order.1
  obtain ⟨u, rfl⟩ : ∃ u, s = u + 1 := ⟨s - 1, by omega⟩
  have haddr : (run inp (u + 1)).addr = (run inp r).addr := by
    rw [addr, h.steady (u + 1) (by omega) (by omega)]
    rfl
  have hread := hport.read u (h.waiting u (by omega) (by omega)) h.strobe rfl rfl
    (lineBase_aligned _) k hk
  change _ = cells (u + 1 + k) (lineBase (run inp (u + 1)).addr + BitVec.ofNat 24 k) at hread
  rw [haddr] at hread
  exact hread

/-- The word of a filled line at {lit}`pc` is the word of memory. -/
theorem Fill.memWord {r s : ℕ} (h : Fill inp r s (s + 8))
    (hport : ReadPort (fun t => (run inp t).mcIn) (fun t => (inp t).opStrobe)
      (fun t => (inp t).sdcDataOut) cells) {pc : BitVec 32}
    (hline : (run inp r).addr.extractLsb' 4 21 = (pc.extractLsb' 0 25).extractLsb' 4 21) :
    filledWord inp s (wordOf (pc.extractLsb' 0 25)) = memWord cells s pc := by
  have hbase : lineBase (run inp r).addr = lineBase (pc.extractLsb' 0 25) := by
    rw [lineBase, lineBase, hline]
  have hj : (wordOf (pc.extractLsb' 0 25)).val = (pc.extractLsb' 2 2).toNat := by
    change ((pc.extractLsb' 0 25).extractLsb' 2 2).toNat = _
    congr 1
    ext i hi
    simp only [BitVec.getElem_extractLsb', BitVec.getLsbD_extractLsb', Nat.zero_add]
    simp
    omega
  have hlt := (pc.extractLsb' 2 2).isLt
  rw [filledWord, FetchUnit.memWord, hj, h.halfWord hport (by omega), h.halfWord hport (by omega),
    hbase, lineBase_add pc 1 (by omega)]
  have h0 := lineBase_add pc 0 (by omega)
  rw [Nat.add_zero] at h0
  rw [h0]
  simp

/-- The strobe of a read port rests without a request. -/
theorem strobeRests (hport : ReadPort (fun t => (run inp t).mcIn) (fun t => (inp t).opStrobe)
    (fun t => (inp t).sdcDataOut) cells) : StrobeRests inp := by
  intro t hsame
  by_contra hne
  exact hport.answer t hne hsame

/-- The fetch unit keeps its side of the channel: a new request waits for the strobe, and
until then the request is held. -/
theorem Invariant.mcIn_succ (h : Invariant inp t) :
    ((run inp (t + 1)).mcIn.opStart ≠ (run inp t).mcIn.opStart →
      (inp t).opStrobe = (run inp t).mcIn.opStart) ∧
    ((inp t).opStrobe ≠ (run inp t).mcIn.opStart → (run inp (t + 1)).mcIn = (run inp t).mcIn) := by
  have hact := icache_acts inp t
  constructor
  · intro hne
    change (run inp (t + 1)).icache.opStartR ≠ (run inp t).icache.opStartR at hne
    generalize (run inp (t + 1)).icache = c' at hact hne
    cases hact with
    | request hst => exact (h.idle hst).1
    | _ => exact absurd rfl hne
  · intro hopen
    have hst : (run inp t).icache.state = .waitB 0 := by
      cases hs : (run inp t).icache.state with
      | idle => exact absurd (h.idle hs).1 hopen
      | flushCache => exact absurd (h.flush hs).1 hopen
      | waitB k =>
          by_cases hk : k = 0
          · rw [hk]
          · obtain ⟨r, s, -, -, hsame, -⟩ := h.fill k hk hs
            exact absurd hsame hopen
    have haddr := addr_of_miss (h.hit_of_ne_idle (by simp [hst]))
    have hstart : (run inp (t + 1)).icache.opStartR = (run inp t).icache.opStartR := by
      have hst' : (icacheAt inp t).state = .waitB 0 := hst
      generalize (run inp (t + 1)).icache = c' at hact
      cases hact with
      | request hidle =>
          rw [hst'] at hidle
          cases hidle
      | _ => rfl
    rw [mcIn, mcIn, ReadCache.mcIn, haddr, hstart]
    rfl

end FetchUnit

open FetchUnit

/-- The fetch unit in front of a memory that holds one half-word everywhere and answers
in the next cycle: the unit and the strobe. -/
def prompt : ℕ → FetchUnit × Bool
  | 0 => (FetchUnit.init, false)
  | t + 1 =>
      ((prompt t).1.step ⟨true, ⟨false, false, 0#32⟩, (prompt t).2, 0x0013#16⟩,
        (prompt t).1.icache.opStartR)

/-- The inputs that the prompt memory produces. -/
def promptInput (t : ℕ) : FetchUnitInput := ⟨true, ⟨false, false, 0#32⟩, (prompt t).2, 0x0013#16⟩

/-- The unit of the closed system runs on the inputs that it produces. -/
theorem run_promptInput (t : ℕ) : run promptInput t = (prompt t).1 := by
  induction t with
  | zero => rfl
  | succ t ih =>
      rw [run_succ, ih]
      rfl

/-- The prompt memory is a read port. -/
theorem promptInput_readPort :
    ReadPort (fun t => (run promptInput t).mcIn) (fun t => (promptInput t).opStrobe)
      (fun t => (promptInput t).sdcDataOut) (fun _ _ => 0x0013#16) where
  start := rfl
  answer := by
    intro t hne hsame
    rw [run_promptInput] at hsame
    exact hne hsame.symm
  read := fun _ _ _ _ _ _ _ _ => rfl

end Sumeru
