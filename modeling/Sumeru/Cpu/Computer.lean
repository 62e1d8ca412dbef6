import Sumeru.Cpu.ProgramMemory
import Sumeru.Cache.FetchProgress

/-!
# Sumeru - The processor with both caches

The fetch stage with its instruction cache, the decoder, and the execute stage with its
data cache, connected as in {lit}`cpu.vhd`, each cache on its own channel of one memory.
The data cache is the only writer of that memory.  Seen from the stages this is the
processor of {lit}`Hart` whose instruction memory is the memory at the start, as long as the
program does not change the lines that are fetched: a word that the cache answers with is
then the word in memory, and the acknowledge of the cache is that of a completed flush.

Main results:

- Theorem {lit}`Computer.SharesMemory.agrees_run`: a run with the instruction cache is one of
  {lit}`Hart`.
- Theorem {lit}`Computer.SharesMemory.shows` and {lit}`Computer.SharesMemory.reaches`: the
  processor with both caches shows the sequential machine, and gets to each of its states.
-/

namespace Sumeru
open Rv32

/-- The fetch unit, the decoder, and the execute stage with its data cache. -/
structure Computer where
  fetch : FetchUnit
  idecode : Idecode
  data : DataUnit

/-- Inputs in one cycle: the reset of the instruction cache, the two memory channels, the CSR
bus and the interrupt controller. -/
structure ComputerInput where
  enable : Bool
  opStrobe : Bool
  sdcDataOut : BitVec 16
  csrBus : BitVec 32
  intrOut : IntrChannelOut
  ready : Bool
  float : BitVec 16
  undefinedLanes : Fin 4 → Lanes

/-- The words of a memory. -/
def programWord (mem : BitVec 24 → BitVec 16) (pc : BitVec 32) : BitVec 32 :=
  FetchUnit.memWord (fun _ => mem) 0 pc

/-- The instruction reaches the fetch stage only with a hit and without a pending flush. -/
theorem Ifetch.step_congr (s : Ifetch) {i i' : IfetchInput} (hhit : i'.icacheHit = i.icacheHit)
    (hack : i'.icacheFlushAck = i.icacheFlushAck) (hout : i'.idecodeOut = i.idecodeOut)
    (hinst : i.icacheHit = true → i'.inst = i.inst) : s.step i' = s.step i := by
  obtain ⟨hit, ack, inst, out⟩ := i
  obtain ⟨hit', ack', inst', out'⟩ := i'
  dsimp only at hhit hack hout hinst
  subst hhit hack hout
  cases hit' with
  | true =>
      obtain rfl := hinst rfl
      rfl
  | false => simp [Ifetch.step]

namespace Computer

variable (V : Megafunctions)

/-- Power-up contents in front of a memory. -/
def init (mem : BitVec 24 → BitVec 16) : Computer where
  fetch := FetchUnit.init
  idecode := Idecode.init
  data := DataUnit.init mem

/-- What the fetch unit sees. -/
def fetchInput (s : Computer) (i : ComputerInput) : FetchUnitInput where
  enable := i.enable
  idecodeOut := s.data.iexec.out
  opStrobe := i.opStrobe
  sdcDataOut := i.sdcDataOut

/-- What the execute stage and its cache see. -/
def dataInput (s : Computer) (i : ComputerInput) : DataUnitInput where
  iexecIn := s.idecode.iexecIn
  csrBus := i.csrBus
  intrOut := i.intrOut
  ready := i.ready
  float := i.float
  undefinedLanes := i.undefinedLanes

/-- From one edge of {lit}`clk` to the next. -/
def step (s : Computer) (i : ComputerInput) : Computer where
  fetch := s.fetch.step (s.fetchInput i)
  idecode := s.idecode.step s.fetch.ifetch.idecodeIn s.data.iexec.out
  data := s.data.step V (s.dataInput i)

/-- The execute stage accepts an instruction. -/
def accepts (s : Computer) (i : ComputerInput) : Bool :=
  s.data.iexec.accepts (s.data.iexecInput (s.dataInput i))

/-- The processor without the insides of the instruction cache. -/
def hart (s : Computer) : Hart :=
  ⟨s.fetch.ifetch, s.idecode, s.data, s.fetch.icache.flushAckR⟩

/-- What {lit}`Hart` sees of the instruction cache: lookups, and no flush left to do. -/
def hartInput (s : Computer) (i : ComputerInput) : HartInput where
  icacheHit := s.fetch.settled.hit s.fetch.addr
  flushDone := s.fetch.ifetch.icacheFlush == s.fetch.icache.flushAckR ||
    (s.fetch.icache.state == .flushCache && s.fetch.icache.flushAddr == 0#8)
  csrBus := i.csrBus
  intrOut := i.intrOut
  ready := i.ready
  float := i.float
  undefinedLanes := i.undefinedLanes

variable (mem : BitVec 24 → BitVec 16) (inp : ℕ → ComputerInput)

/-- The processor in front of the {lit}`t`-th edge of {lit}`clk`. -/
def run (t : ℕ) : Computer := Clocked.run (step V) (init mem) inp t

/-- The inputs of the fetch unit in a run. -/
def fetchInputs (t : ℕ) : FetchUnitInput := (run V mem inp t).fetchInput (inp t)

/-- The inputs of the execute stage and its cache in a run. -/
def dataInputs (t : ℕ) : DataUnitInput := (run V mem inp t).dataInput (inp t)

/-- The inputs of {lit}`Hart` in a run. -/
def hartInputs (t : ℕ) : HartInput := (run V mem inp t).hartInput (inp t)

/-- The number of instructions accepted before edge {lit}`t`. -/
def accepted (t : ℕ) : ℕ := Nat.count (fun u => (run V mem inp u).accepts (inp u) = true) t

/-- The byte is in a line at which the fetch stage ever stands. -/
def FetchLine (a : BitVec 25) : Prop :=
  ∃ t, (run V mem inp t).fetch.addr.extractLsb' 4 21 = a.extractLsb' 4 21

/-- The lines at which the fetch stage ever stands are not changed by the program. -/
def CodeStays : Prop :=
  ∀ n m, RvMachine.After (programWord mem) (.boot (byteAt mem)) n m →
    ∀ a, FetchLine V mem inp a → m.mem a = byteAt mem a

/-- Both caches are in front of one memory: from the release of the reset on, the instruction
cache reads the cells behind the data cache. -/
structure SharesMemory (cells : ℕ → BitVec 24 → BitVec 16) : Prop where
  port : ReadPort (fun t => (run V mem inp t).fetch.mcIn) (fun t => (inp t).opStrobe)
    (fun t => (inp t).sdcDataOut) cells
  enable : ∀ t, (inp t).enable = true → (inp (t + 1)).enable = true
  cells : ∀ t, (inp t).enable = true → cells t = (run V mem inp t).data.chan.cells

variable {V mem inp} {cells : ℕ → BitVec 24 → BitVec 16} {t : ℕ}

/-- One more cycle. -/
theorem run_succ (t : ℕ) : run V mem inp (t + 1) = (run V mem inp t).step V (inp t) :=
  rfl

/-- The fetch unit runs on its inputs. -/
theorem fetch_run (t : ℕ) :
    (run V mem inp t).fetch = FetchUnit.run (fetchInputs V mem inp) t := by
  induction t with
  | zero => rfl
  | succ t ih =>
      rw [FetchUnit.run_succ, ← ih]
      rfl

/-- The execute stage and its cache run on their inputs. -/
theorem data_run (t : ℕ) :
    (run V mem inp t).data = DataUnit.run V mem (dataInputs V mem inp) t := by
  induction t with
  | zero => rfl
  | succ t ih =>
      rw [DataUnit.run_succ, ← ih]
      rfl

/-- The data cache is in one of its situations. -/
theorem situation (V : Megafunctions) (mem : BitVec 24 → BitVec 16) (inp : ℕ → ComputerInput)
    (t : ℕ) : ∃ m, (run V mem inp t).data.Situation m := by
  rw [data_run]
  exact ⟨_, DataUnit.situation_run V t⟩

/-- One more edge. -/
theorem accepted_succ (t : ℕ) : accepted V mem inp (t + 1) = accepted V mem inp t +
    if (run V mem inp t).accepts (inp t) = true then 1 else 0 :=
  Nat.count_succ _ t

/-! ## The instruction cache -/

namespace SharesMemory

/-- The rules of the channel in a run of the fetch unit. -/
theorem readPort (h : SharesMemory V mem inp cells) :
    ReadPort (fun t => (FetchUnit.run (fetchInputs V mem inp) t).mcIn)
      (fun t => (fetchInputs V mem inp t).opStrobe)
      (fun t => (fetchInputs V mem inp t).sdcDataOut) cells := by
  have hport := h.port
  simp only [fetch_run] at hport
  exact hport

/-- The instruction cache keeps to its invariant. -/
theorem invariant (h : SharesMemory V mem inp cells) (t : ℕ) :
    FetchUnit.Invariant (fetchInputs V mem inp) t :=
  FetchUnit.invariant_run h.readPort.start (FetchUnit.strobeRests h.readPort) t

/-- The release of the reset stays. -/
theorem enable_of_le (h : SharesMemory V mem inp cells) {u : ℕ} (ht : (inp t).enable = true)
    (htu : t ≤ u) : (inp u).enable = true := by
  induction u, htu using Nat.le_induction with
  | base => exact ht
  | succ u _ ih => exact h.enable u ih

/-- A half-word of the line at which the fetch stage stands. -/
theorem halfWord_eq (h : SharesMemory V mem inp cells) {u : ℕ} (hen : (inp u).enable = true)
    (hstored : ∀ a, FetchLine V mem inp a →
      byteAt (run V mem inp u).data.chan.cells a = byteAt mem a) {b : ℕ} (hb : b < 2) :
    cells u (FetchUnit.wordAddr (run V mem inp t).fetch.ifetch.pc + BitVec.ofNat 24 b) =
      mem (FetchUnit.wordAddr (run V mem inp t).fetch.ifetch.pc + BitVec.ofNat 24 b) := by
  rw [h.cells u hen]
  refine halfWord_of_byteAt fun a ha => hstored a ⟨t, ?_⟩
  have hval := congrArg BitVec.toNat ha
  apply BitVec.eq_of_toNat_eq
  simp only [FetchUnit.addr, FetchUnit.wordAddr, toNat_append_eq, BitVec.toNat_add,
    BitVec.extractLsb'_toNat, BitVec.toNat_ofNat, Nat.shiftRight_eq_div_pow] at hval ⊢
  omega

/-- The cache answers with words of the memory at the start, if the lines that are fetched are
still in memory. -/
theorem data_eq (h : SharesMemory V mem inp cells)
    (hstored : ∀ u, u ≤ t → ∀ a, FetchLine V mem inp a →
      byteAt (run V mem inp u).data.chan.cells a = byteAt mem a)
    (hhit : (run V mem inp t).fetch.settled.hit (run V mem inp t).fetch.addr = true) :
    (run V mem inp t).fetch.settled.data (run V mem inp t).fetch.addr =
      programWord mem (run V mem inp t).fetch.ifetch.pc := by
  have hinv := h.invariant t
  have hword : ∀ u, u ≤ t → (inp u).enable = true → ∀ b, b < 2 →
      cells u (FetchUnit.wordAddr (run V mem inp t).fetch.ifetch.pc + BitVec.ofNat 24 b) =
        mem (FetchUnit.wordAddr (run V mem inp t).fetch.ifetch.pc + BitVec.ofNat 24 b) :=
    fun u hu hen b hb => h.halfWord_eq hen (hstored u hu) hb
  rw [fetch_run] at hhit hword ⊢
  have hidle : (FetchUnit.run (fetchInputs V mem inp) t).icache.state = .idle := by
    by_contra hne
    have hmiss := hinv.hit_of_ne_idle hne
    rw [show (FetchUnit.icacheAt (fetchInputs V mem inp) t).hit _ = true from hhit] at hmiss
    cases hmiss
  have hentry := ReadCache.entry_of_hit hhit
  have haddr : ((FetchUnit.run (fetchInputs V mem inp) t).settled).metaAddr
      (FetchUnit.run (fetchInputs V mem inp) t).addr =
        lineOf (FetchUnit.run (fetchInputs V mem inp) t).addr := by
    change (if (FetchUnit.run (fetchInputs V mem inp) t).icache.flushEnable = false then _
      else _) = _
    rw [(hinv.idle hidle).2]
    rfl
  rw [haddr] at hentry
  obtain ⟨r, s, hfill, hst, hl, ht, hw, -⟩ := hinv.lines _ _ _ hentry
  refine (hw _).trans ((hfill.memWord h.readPort (FetchUnit.lineBits_eq hl ht)).trans ?_)
  have hrs := hfill.order.1
  have hen : ∀ k, (inp (s + k)).enable = true := fun k =>
    h.enable_of_le (FetchUnit.enable_of_requests hfill.request) (by omega)
  have hj := ((FetchUnit.run (fetchInputs V mem inp) t).ifetch.pc.extractLsb' 2 2).isLt
  have hhigh := hword _ (by omega) (hen (2 *
    ((FetchUnit.run (fetchInputs V mem inp) t).ifetch.pc.extractLsb' 2 2).toNat + 1)) 1 (by omega)
  have hlow := hword _ (by omega) (hen (2 *
    ((FetchUnit.run (fetchInputs V mem inp) t).ifetch.pc.extractLsb' 2 2).toNat)) 0 (by omega)
  rw [show BitVec.ofNat 24 0 = 0#24 from rfl, BitVec.add_zero] at hlow
  rw [programWord, FetchUnit.memWord, FetchUnit.memWord, hlow]
  exact congrArg (· ++ _) hhigh

/-- The acknowledge of the cache follows the flush requests that are done. -/
theorem flushAckR_succ (h : SharesMemory V mem inp cells) (t : ℕ) :
    (run V mem inp (t + 1)).fetch.icache.flushAckR =
      if (hartInputs V mem inp t).flushDone then (run V mem inp t).fetch.ifetch.icacheFlush
      else (run V mem inp t).fetch.icache.flushAckR := by
  have hp := FetchUnit.flushPending_run h.invariant t
  have hact := FetchUnit.icache_acts (fetchInputs V mem inp) t
  simp only [hartInputs, hartInput, fetch_run]
  generalize (FetchUnit.run (fetchInputs V mem inp) (t + 1)).icache = c' at hact
  have hkeep : ((FetchUnit.run (fetchInputs V mem inp) t).icache.state ≠ .flushCache ∨
      (FetchUnit.run (fetchInputs V mem inp) t).icache.flushAddr ≠ 0#8) →
      (if ((FetchUnit.run (fetchInputs V mem inp) t).ifetch.icacheFlush ==
            (FetchUnit.run (fetchInputs V mem inp) t).icache.flushAckR ||
          ((FetchUnit.run (fetchInputs V mem inp) t).icache.state == .flushCache &&
            (FetchUnit.run (fetchInputs V mem inp) t).icache.flushAddr == 0#8)) = true then
        (FetchUnit.run (fetchInputs V mem inp) t).ifetch.icacheFlush
      else (FetchUnit.run (fetchInputs V mem inp) t).icache.flushAckR) =
        (FetchUnit.run (fetchInputs V mem inp) t).icache.flushAckR := by
    intro hne
    split
    · rename_i hdone
      rw [Bool.or_eq_true, Bool.and_eq_true, beq_iff_eq, beq_iff_eq, beq_iff_eq] at hdone
      rcases hdone with heq | ⟨h1, h2⟩
      · exact heq
      · rcases hne with hne | hne
        · exact absurd h1 hne
        · exact absurd h2 hne
    · rfl
  cases hact with
  | endFlush hst h0 =>
      have hst' : (FetchUnit.run (fetchInputs V mem inp) t).icache.state = .flushCache := hst
      have h0' : (FetchUnit.run (fetchInputs V mem inp) t).icache.flushAddr = 0#8 := h0
      rw [if_pos (by simp [hst', h0'])]
      exact (Bool.eq_not_of_ne (hp.flushing hst')).symm
  | nextFlush hst h0 => exact (hkeep (.inr h0)).symm
  | startFlush hst =>
      have hst' : (FetchUnit.run (fetchInputs V mem inp) t).icache.state = .idle := hst
      exact (hkeep (.inl (by rw [hst']; decide))).symm
  | request hst =>
      have hst' : (FetchUnit.run (fetchInputs V mem inp) t).icache.state = .idle := hst
      exact (hkeep (.inl (by rw [hst']; decide))).symm
  | rest hst =>
      have hst' : (FetchUnit.run (fetchInputs V mem inp) t).icache.state = .idle := hst
      exact (hkeep (.inl (by rw [hst']; decide))).symm
  | wait hst =>
      have hst' : (FetchUnit.run (fetchInputs V mem inp) t).icache.state = .waitB 0 := hst
      exact (hkeep (.inl (by rw [hst']; decide))).symm
  | strobe hst =>
      have hst' : (FetchUnit.run (fetchInputs V mem inp) t).icache.state = .waitB 0 := hst
      exact (hkeep (.inl (by rw [hst']; decide))).symm
  | beat k hst =>
      have hst' : (FetchUnit.run (fetchInputs V mem inp) t).icache.state = .waitB k := hst
      exact (hkeep (.inl (by rw [hst']; simp))).symm

/-! ## Runs -/

/-- The run of {lit}`Hart` agrees with that of the processor, and the lines that are fetched are
still in memory. -/
structure Agrees (V : Megafunctions) (mem : BitVec 24 → BitVec 16) (inp : ℕ → ComputerInput)
    (t : ℕ) : Prop where
  hart : (run V mem inp t).hart = Hart.run V (programWord mem) mem (hartInputs V mem inp) t
  accepted : (Hart.accepted V (programWord mem) mem (hartInputs V mem inp) t).length =
    accepted V mem inp t
  stored : ∀ a, FetchLine V mem inp a →
    byteAt (run V mem inp t).data.chan.cells a = byteAt mem a

section Agree

variable (hV : V.Exact) (hintr : ∀ t, (inp t).intrOut.intrTrigger = false)
  (hcode : CodeStays V mem inp)

include hV hintr hcode in
/-- Memory holds the lines that are fetched if the runs agree. -/
theorem stored_of_hart
    (hhart : (run V mem inp t).hart = Hart.run V (programWord mem) mem (hartInputs V mem inp) t)
    {m : RvMachine} (hm : RvMachine.After (programWord mem) (.boot (byteAt mem))
      (Hart.accepted V (programWord mem) mem (hartInputs V mem inp) t).length m) :
    ∀ a, FetchLine V mem inp a → byteAt (run V mem inp t).data.chan.cells a = byteAt mem a := by
  have hkept : Hart.Kept V (programWord mem) mem (hartInputs V mem inp) (FetchLine V mem inp) t :=
    Hart.kept_run hV hintr hcode t m hm
  rw [show (run V mem inp t).data = (run V mem inp t).hart.data from rfl, hhart]
  exact hkept.stored

include hV hintr hcode in
/-- At power-up the runs agree. -/
theorem agrees_zero : Agrees V mem inp 0 where
  hart := rfl
  accepted := rfl
  stored := stored_of_hart hV hintr hcode rfl .zero

/-- The stages see the same instructions. -/
theorem Agrees.acceptsAt_eq (h : Agrees V mem inp t) :
    Hart.acceptsAt V (programWord mem) mem (hartInputs V mem inp) t =
      (run V mem inp t).accepts (inp t) := by
  rw [Hart.acceptsAt, ← h.hart]
  rfl

/-- The instructions are counted alike. -/
theorem Agrees.accepted_succ (h : Agrees V mem inp t) :
    (Hart.accepted V (programWord mem) mem (hartInputs V mem inp) (t + 1)).length =
      Computer.accepted V mem inp (t + 1) := by
  rw [Computer.accepted_succ, ← h.accepted, ← h.acceptsAt_eq]
  cases hacc : Hart.acceptsAt V (programWord mem) mem (hartInputs V mem inp) t with
  | false =>
      rw [Hart.accepted_succ_of_not t hacc]
      rfl
  | true =>
      obtain ⟨a, hlog, -⟩ := Hart.accepted_succ t hacc
      rw [hlog, List.length_append, List.length_singleton]
      rfl

/-- The processor goes on as {lit}`Hart` does. -/
theorem hart_succ (h : SharesMemory V mem inp cells)
    (hpast : ∀ u, u ≤ t → Agrees V mem inp u) :
    (run V mem inp (t + 1)).hart =
      Hart.run V (programWord mem) mem (hartInputs V mem inp) (t + 1) := by
  rw [Hart.run_succ, ← (hpast t le_rfl).hart]
  have hif : (run V mem inp (t + 1)).fetch.ifetch =
      (run V mem inp t).fetch.ifetch.step ((run V mem inp t).hart.core.ifetchInput
        (programWord mem) ((run V mem inp t).hart.coreInput (hartInputs V mem inp t))) := by
    rw [run_succ]
    refine Ifetch.step_congr _ rfl rfl rfl fun hhit => ?_
    exact h.data_eq (fun u hu => (hpast u hu).stored) hhit
  have hack := h.flushAckR_succ t
  rw [run_succ] at hif hack ⊢
  unfold hart Hart.step
  rw [hif, hack]
  rfl

include hV hintr hcode in
/-- The runs agree as long as the machine keeps up with {lit}`Hart`. -/
theorem agrees_of_hart (h : SharesMemory V mem inp cells) (t : ℕ) :
    ∀ m, RvMachine.After (programWord mem) (.boot (byteAt mem))
      (Hart.accepted V (programWord mem) mem (hartInputs V mem inp) t).length m →
      ∀ u, u ≤ t → Agrees V mem inp u := by
  induction t with
  | zero =>
      intro m hm u hu
      obtain rfl : u = 0 := by omega
      exact agrees_zero hV hintr hcode
  | succ t ih =>
      intro m hm u hu
      obtain ⟨m₁, h₁⟩ := Hart.after_of_succ hm
      have hpast := ih m₁ h₁
      rcases Nat.lt_or_eq_of_le hu with hlt | rfl
      · exact hpast u (by omega)
      · have hhart := h.hart_succ hpast
        exact ⟨hhart, (hpast t le_rfl).accepted_succ, stored_of_hart hV hintr hcode hhart hm⟩

include hV hintr hcode in
/-- A run with the instruction cache is one of {lit}`Hart` as long as the machine goes on. -/
theorem agrees_run (h : SharesMemory V mem inp cells) (t : ℕ) :
    ∀ m, RvMachine.After (programWord mem) (.boot (byteAt mem)) (accepted V mem inp t) m →
      Agrees V mem inp t := by
  induction t with
  | zero => exact fun _ _ => agrees_zero hV hintr hcode
  | succ t ih =>
      intro m hm
      have hpast : Agrees V mem inp t := by
        rw [Computer.accepted_succ] at hm
        split at hm
        · obtain ⟨m₁, h₁, -⟩ := hm.next
          exact ih m₁ h₁
        · exact ih m hm
      rw [← hpast.accepted_succ] at hm
      exact h.agrees_of_hart hV hintr hcode (t + 1) m hm (t + 1) le_rfl

include hV hintr hcode in
/-- In {lit}`RUNNING` the processor shows the machine after the instructions that it has
accepted. -/
theorem shows (h : SharesMemory V mem inp cells) {m : RvMachine}
    (hrun : (run V mem inp t).data.iexec.state = .running)
    (hm : RvMachine.After (programWord mem) (.boot (byteAt mem)) (accepted V mem inp t) m) :
    Hart.Shows V (programWord mem) m (run V mem inp t).hart := by
  have hagree := h.agrees_run hV hintr hcode t m hm
  rw [← hagree.accepted] at hm
  have hfollows : Hart.Follows V (programWord mem) mem (hartInputs V mem inp) m t :=
    Hart.follows_run hV hintr t m hm
  have hstate : (run V mem inp t).hart.data.iexec.state = .running := hrun
  rw [hagree.hart] at hstate ⊢
  exact hfollows.shows hstate

/-- Every stall of the stages is finite. -/
theorem fair (h : SharesMemory V mem inp cells) (hen : ∃ t, (inp t).enable = true)
    (hfetch : FetchUnit.Answers (fetchInputs V mem inp))
    (hdata : ∀ t, ∃ u, t ≤ u ∧ (inp u).ready = true) : Hart.Fair (hartInputs V mem inp) where
  hit := by
    intro t
    obtain ⟨T, hT⟩ := hen
    obtain ⟨u, htu, hhit, -⟩ := FetchUnit.eventually_hit (t := max t T) h.invariant hfetch
      fun u hu => h.enable_of_le hT (by omega)
    refine ⟨u, by omega, ?_⟩
    change (run V mem inp u).fetch.settled.hit _ = true
    rw [fetch_run]
    exact hhit
  flush := by
    intro t
    obtain ⟨u, htu, hu⟩ := FetchUnit.eventually_flushed h.invariant t
    refine ⟨u, htu, ?_⟩
    simp [hartInputs, hartInput, fetch_run, hu]
  ready := hdata

include hV hintr hcode in
/-- The processor gets to every state of the machine. -/
theorem reaches (h : SharesMemory V mem inp cells) (hen : ∃ t, (inp t).enable = true)
    (hfetch : FetchUnit.Answers (fetchInputs V mem inp))
    (hdata : ∀ t, ∃ u, t ≤ u ∧ (inp u).ready = true) {n : ℕ} {m : RvMachine}
    (hm : RvMachine.After (programWord mem) (.boot (byteAt mem)) n m) :
    ∃ t, (run V mem inp t).data.iexec.state = .running ∧ accepted V mem inp t = n := by
  obtain ⟨t, hrun, hlen⟩ := (h.fair hen hfetch hdata).reaches hV hintr hm
  rw [← hlen] at hm
  have hagree := h.agrees_of_hart hV hintr hcode t m hm t le_rfl
  rw [← hagree.hart] at hrun
  exact ⟨t, hrun, hagree.accepted.symm.trans hlen⟩

end Agree

end SharesMemory

end Computer

end Sumeru
