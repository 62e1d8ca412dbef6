import Sumeru.Memory.Channel

/-!
# Sumeru - Boot image loader

The entity {lit}`memory_loader` and the multiplexer in front of memory channel 7.  The loader
copies the boot ROM to the beginning of memory, one half-word after the other, and
{lit}`load_done`, a bit of its counter, releases the reset of the processor and hands the
channel over to {lit}`pbus_mc_in`, which is never driven.

Main results:

- Theorem {lit}`BootSystem.phase_run`: the loader and its channel while the reset is on.
- Theorem {lit}`BootSystem.copied_run`: the half-words written so far.
- Theorem {lit}`BootSystem.not_forwards_of_loadDone`: channel 7 is silent after the hand-over.
- Theorem {lit}`BootSystem.eventually_loadDone`: the copy comes to its end.
-/

namespace Sumeru

/-! ## The loader -/

/-- The states of the loader. -/
inductive LoaderState where
  | idle | waitStrobe | done
deriving DecidableEq, Repr

/-- Registers of {lit}`memory_loader`, with the output of its ROM. -/
structure MemoryLoader where
  counter : BitVec 11
  romData : BitVec 16
  opStart : Bool
  state : LoaderState

namespace MemoryLoader

/-- Power-up contents; what the ROM shows before its first edge is not defined. -/
def init (romData : BitVec 16) : MemoryLoader := ⟨0#11, romData, false, .idle⟩

/-- Output {lit}`load_done`. -/
def loadDone (l : MemoryLoader) : Bool := l.counter.getLsbD 10

/-- The address of the ROM. -/
def romAddr (l : MemoryLoader) : BitVec 10 := l.counter.extractLsb' 0 10

/-- Output {lit}`mc_in`. -/
def mcIn (l : MemoryLoader) : MemChannelIn where
  opAddr := 0#14 ++ l.romAddr
  opStart := l.opStart
  opWren := true
  opBurst := false
  opDqm := 0b00#2
  writeData := l.romData

/-- One rising edge of {lit}`clk`.  The ROM registers its address; {lit}`resetN` enables the
process. -/
def step (rom : BitVec 10 → BitVec 16) (l : MemoryLoader) (resetN opStrobe : Bool) :
    MemoryLoader :=
  if resetN then
    match l.state with
    | .idle =>
        if l.loadDone then { l with romData := rom l.romAddr, state := .done }
        else { l with romData := rom l.romAddr, opStart := !l.opStart, state := .waitStrobe }
    | .waitStrobe =>
        if l.opStart = opStrobe then
          { l with romData := rom l.romAddr, counter := l.counter + 1#11, state := .idle }
        else { l with romData := rom l.romAddr }
    | .done => { l with romData := rom l.romAddr }
  else { l with romData := rom l.romAddr }

/-- {lit}`load_done` follows the counter. -/
theorem loadDone_iff {l : MemoryLoader} (h : l.counter.toNat ≤ 1024) :
    l.loadDone = true ↔ l.counter.toNat = 1024 := by
  rw [loadDone, BitVec.getLsbD, Nat.testBit_eq_decide_div_mod_eq, decide_eq_true_iff]
  omega

/-- The address of the ROM is the counter. -/
theorem romAddr_toNat {l : MemoryLoader} (h : l.counter.toNat < 1024) :
    l.romAddr.toNat = l.counter.toNat := by
  rw [romAddr, BitVec.extractLsb'_toNat, Nat.shiftRight_zero]
  omega

end MemoryLoader

/-! ## The loader on its channel -/

/-- The memory channel of the loader. -/
def loaderChannel : Channel := 7

/-- Signal {lit}`pbus_mc_in`, which keeps its initial value. -/
def pbusMcIn : MemChannelIn := ⟨0#24, false, false, false, 0#2, 0#16⟩

/-- The loader with the memory system behind its channel. -/
structure BootSystem where
  loader : MemoryLoader
  sdram : SdramSystem

/-- Inputs in one cycle. -/
structure BootInput where
  pllLocked : Bool
  others : Channel → MemChannelIn
  float : BitVec 16

namespace BootSystem

/-- Signal {lit}`mc7_in`. -/
def mc7 (s : BootSystem) : MemChannelIn :=
  if s.loader.loadDone = false then s.loader.mcIn else pbusMcIn

/-- What the arbiter sees in one cycle. -/
def mc (s : BootSystem) (others : Channel → MemChannelIn) (c : Channel) : MemChannelIn :=
  if c = loaderChannel then s.mc7 else others c

variable (rom : BitVec 10 → BitVec 16)

/-- One clock cycle. -/
def step (s : BootSystem) (i : BootInput) : BootSystem where
  loader := s.loader.step rom i.pllLocked (s.sdram.sys.opStrobe loaderChannel)
  sdram := s.sdram.step (s.mc i.others, i.float)

variable (q : BitVec 16) (mem : BitVec 24 → BitVec 16) (inp : ℕ → BootInput)

/-- Power-up contents. -/
def init : BootSystem := ⟨MemoryLoader.init q, SdramSystem.init mem⟩

/-- The system before its {lit}`t`-th edge. -/
def run (t : ℕ) : BootSystem := Clocked.run (step rom) (init q mem) inp t

/-- The requests of all channels along a run. -/
def channels (t : ℕ) : Channel → MemChannelIn := (run rom q mem inp t).mc (inp t).others

/-- The memory at the {lit}`t`-th edge. -/
def cells (t : ℕ) : BitVec 24 → BitVec 16 :=
  cellsAt (channels rom q mem inp) (fun u => (inp u).float) mem t

/-- The strobe that the loader sees. -/
def strobe (t : ℕ) : Bool :=
  (MemorySystem.run (channels rom q mem inp) t).opStrobe loaderChannel

/-- The half-word that the device stores to in cycle {lit}`t`. -/
def storedAt (t : ℕ) : Option (BitVec 24) := (run rom q mem inp t).sdram.storedCell

/-- Memory with the first {lit}`k` half-words of the ROM. -/
def copied (rom : BitVec 10 → BitVec 16) (mem : BitVec 24 → BitVec 16) (k : ℕ) (a : BitVec 24) :
    BitVec 16 :=
  if a.toNat < k then rom (a.extractLsb' 0 10) else mem a

/-- The number of half-words that have been stored: one more than the counter says while the
answer to the last request is on its way through the loader. -/
def written (l : MemoryLoader) (strobe : Bool) : ℕ :=
  if l.state = .waitStrobe ∧ strobe = l.opStart then l.counter.toNat + 1 else l.counter.toNat

variable {rom q mem inp} {t T : ℕ}

/-- Arbiter, controller and device run as in {lit}`SdramSystem`. -/
theorem run_sdram (t : ℕ) : (run rom q mem inp t).sdram =
    SdramSystem.run (channels rom q mem inp) (fun u => (inp u).float) mem t := by
  induction t with
  | zero => rfl
  | succ t ih =>
      change (run rom q mem inp t).sdram.step _ = _
      rw [ih]
      rfl

/-- The loader after an edge. -/
theorem run_loader_succ (t : ℕ) : (run rom q mem inp (t + 1)).loader =
    (run rom q mem inp t).loader.step rom (inp t).pllLocked (strobe rom q mem inp t) := by
  change (run rom q mem inp t).loader.step rom (inp t).pllLocked
    ((run rom q mem inp t).sdram.sys.opStrobe loaderChannel) = _
  rw [run_sdram, SdramSystem.sys_run]
  rfl

/-- The channel of the loader. -/
theorem channels_loader (t : ℕ) :
    channels rom q mem inp t loaderChannel = (run rom q mem inp t).mc7 := by
  rw [channels, mc, if_pos rfl]

/-- The other channels. -/
theorem channels_of_ne {c : Channel} (h : c ≠ loaderChannel) (t : ℕ) :
    channels rom q mem inp t c = (inp t).others c := by
  rw [channels, mc, if_neg h]

/-! ## Phases of the loader -/

/-- The loader between two half-words, or waiting for the answer to one. -/
inductive Phase (rom : BitVec 10 → BitVec 16) (l : MemoryLoader) (strobe : Bool) : Prop where
  | idle (hst : l.state = .idle) (hn : l.counter.toNat ≤ 1024)
      (hstart : l.opStart = decide (l.counter.toNat % 2 = 1)) (hstrobe : strobe = l.opStart)
  | waiting (hst : l.state = .waitStrobe) (hn : l.counter.toNat < 1024)
      (hstart : l.opStart = decide (l.counter.toNat % 2 = 0)) (hrom : l.romData = rom l.romAddr)

/-- The phase at the {lit}`t`-th edge of a run. -/
def PhaseAt (rom : BitVec 10 → BitVec 16) (q : BitVec 16) (mem : BitVec 24 → BitVec 16)
    (inp : ℕ → BootInput) (t : ℕ) : Prop :=
  Phase rom (run rom q mem inp t).loader (strobe rom q mem inp t)

/-- The counter does not pass 1024. -/
theorem PhaseAt.counter_le (h : PhaseAt rom q mem inp t) :
    (run rom q mem inp t).loader.counter.toNat ≤ 1024 := by
  cases h with
  | idle _ hn => exact hn
  | waiting _ hn => exact hn.le

/-- At the hand-over the two sides of the multiplexer show the same level. -/
theorem PhaseAt.opStart_eq (h : PhaseAt rom q mem inp t) :
    (channels rom q mem inp t loaderChannel).opStart = (run rom q mem inp t).loader.opStart := by
  rw [channels_loader, mc7]
  split
  · rfl
  · rename_i hdone
    have hn := (MemoryLoader.loadDone_iff h.counter_le).mp (Bool.not_eq_false _ ▸ hdone)
    cases h with
    | idle _ _ hstart =>
        rw [hstart, hn]
        rfl
    | waiting _ hlt => omega

/-- Without an open request the strobe rests. -/
theorem PhaseAt.strobe_succ (h : PhaseAt rom q mem inp t)
    (hset : Settled (channels rom q mem inp) loaderChannel t)
    (heq : strobe rom q mem inp t = (run rom q mem inp t).loader.opStart) :
    strobe rom q mem inp (t + 1) = strobe rom q mem inp t := by
  refine hset.opStrobe_eq ?_
  rw [h.opStart_eq]
  exact heq

/-- What an edge does to the loader before its last half-word. -/
theorem loader_succ_cases (hload : (run rom q mem inp t).loader.loadDone = false) :
    (run rom q mem inp (t + 1)).loader.romData = rom (run rom q mem inp t).loader.romAddr ∧
      (((run rom q mem inp t).loader.state = .idle ∧
          (run rom q mem inp (t + 1)).loader.state = .waitStrobe ∧
          (run rom q mem inp (t + 1)).loader.opStart = !(run rom q mem inp t).loader.opStart ∧
          (run rom q mem inp (t + 1)).loader.counter = (run rom q mem inp t).loader.counter) ∨
        ((run rom q mem inp t).loader.state = .waitStrobe ∧
          (run rom q mem inp t).loader.opStart = strobe rom q mem inp t ∧
          (run rom q mem inp (t + 1)).loader.state = .idle ∧
          (run rom q mem inp (t + 1)).loader.opStart = (run rom q mem inp t).loader.opStart ∧
          (run rom q mem inp (t + 1)).loader.counter =
            (run rom q mem inp t).loader.counter + 1#11) ∨
        ((run rom q mem inp (t + 1)).loader.state = (run rom q mem inp t).loader.state ∧
          (run rom q mem inp (t + 1)).loader.opStart = (run rom q mem inp t).loader.opStart ∧
          (run rom q mem inp (t + 1)).loader.counter = (run rom q mem inp t).loader.counter ∧
          ((inp t).pllLocked = true → (run rom q mem inp t).loader.state = .done ∨
            (run rom q mem inp t).loader.opStart ≠ strobe rom q mem inp t))) := by
  rw [run_loader_succ, MemoryLoader.step]
  split
  · cases hst : (run rom q mem inp t).loader.state with
    | idle =>
        dsimp only
        rw [if_neg (by rw [hload]; decide)]
        exact ⟨rfl, .inl ⟨rfl, rfl, rfl, rfl⟩⟩
    | waitStrobe =>
        dsimp only
        split
        · rename_i heq
          exact ⟨rfl, .inr (.inl ⟨rfl, heq, rfl, rfl, rfl⟩)⟩
        · rename_i hne
          exact ⟨rfl, .inr (.inr ⟨rfl, rfl, rfl, fun _ => .inr hne⟩)⟩
    | done => exact ⟨rfl, .inr (.inr ⟨rfl, rfl, rfl, fun _ => .inl rfl⟩)⟩
  · rename_i hpll
    exact ⟨rfl, .inr (.inr ⟨rfl, rfl, rfl, fun hx => absurd hx hpll⟩)⟩

/-- The copy goes on from edge to edge. -/
theorem PhaseAt.succ (h : PhaseAt rom q mem inp t)
    (hset : Settled (channels rom q mem inp) loaderChannel t)
    (hload : (run rom q mem inp t).loader.loadDone = false) : PhaseAt rom q mem inp (t + 1) := by
  obtain ⟨hrom, hcases⟩ := loader_succ_cases hload
  have hlt : (run rom q mem inp t).loader.counter.toNat < 1024 := by
    refine lt_of_le_of_ne h.counter_le fun hn => ?_
    rw [(MemoryLoader.loadDone_iff h.counter_le).mpr hn] at hload
    cases hload
  have hparity : ∀ n : ℕ, (!decide (n % 2 = 1)) = decide (n % 2 = 0) := by
    intro n
    rcases Nat.mod_two_eq_zero_or_one n with hn | hn <;> rw [hn] <;> rfl
  rcases hcases with ⟨hst, hst', hstart', hcount'⟩ | ⟨hst, heq, hst', hstart', hcount'⟩ |
    ⟨hst', hstart', hcount', -⟩
  · cases h with
    | waiting h => rw [hst] at h; cases h
    | idle _ _ hstart =>
        refine .waiting hst' (by rw [hcount']; exact hlt) ?_ ?_
        · rw [hstart', hstart, hcount', hparity]
        · rw [hrom, MemoryLoader.romAddr, MemoryLoader.romAddr, hcount']
  · have hnext : ((run rom q mem inp t).loader.counter + 1#11).toNat =
        (run rom q mem inp t).loader.counter.toNat + 1 := by
      rw [BitVec.toNat_add]
      change (_ + 1) % 2048 = _
      omega
    have hrest := h.strobe_succ hset heq.symm
    cases h with
    | idle h => rw [hst] at h; cases h
    | waiting _ _ hstart =>
        refine .idle hst' (by rw [hcount', hnext]; omega) ?_ ?_
        · rw [hstart', hstart, hcount', hnext, decide_eq_decide]
          omega
        · rw [hrest, hstart', heq]
  · have hrest := h.strobe_succ hset
    cases h with
    | idle hst _ hstart hstrobe =>
        exact .idle (hst'.trans hst) (by rw [hcount']; exact hlt.le)
          (by rw [hstart', hcount', hstart]) (by rw [hrest hstrobe, hstart', hstrobe])
    | waiting hst _ hstart =>
        refine .waiting (hst'.trans hst) (by rw [hcount']; exact hlt)
          (by rw [hstart', hcount', hstart]) ?_
        rw [hrom, MemoryLoader.romAddr, MemoryLoader.romAddr, hcount']

/-! ## While the reset is on -/

/-- The reset is on up to cycle {lit}`T`, in which it may be released, and until then no other
channel has asked for anything. -/
structure Loading (rom : BitVec 10 → BitVec 16) (q : BitVec 16) (mem : BitVec 24 → BitVec 16)
    (inp : ℕ → BootInput) (T : ℕ) : Prop where
  loading : ∀ t, t < T → (run rom q mem inp t).loader.loadDone = false
  silent : ∀ t, t ≤ T → ∀ c, c ≠ loaderChannel → ((inp t).others c).opStart = false

/-- The loader asks again only when it is answered. -/
theorem PhaseAt.toggle (h : PhaseAt rom q mem inp t) (h' : PhaseAt rom q mem inp (t + 1))
    (hload : (run rom q mem inp t).loader.loadDone = false)
    (hne : (channels rom q mem inp (t + 1) loaderChannel).opStart ≠
      (channels rom q mem inp t loaderChannel).opStart) :
    strobe rom q mem inp t = (channels rom q mem inp t loaderChannel).opStart := by
  rw [h.opStart_eq] at hne ⊢
  rw [h'.opStart_eq] at hne
  rcases (loader_succ_cases hload).2 with ⟨hst, -⟩ | ⟨-, -, -, hsame, -⟩ | ⟨-, hsame, -⟩
  · cases h with
    | idle _ _ _ hstrobe => exact hstrobe
    | waiting h => rw [hst] at h; cases h
  · exact absurd hsame hne
  · exact absurd hsame hne

/-- The phases cover the whole copy. -/
theorem phase_run (h : Loading rom q mem inp T) (ht : t ≤ T) :
    PhaseAt rom q mem inp t ∧ Settled (channels rom q mem inp) loaderChannel t := by
  induction t with
  | zero => exact ⟨.idle rfl (Nat.zero_le 1024) rfl rfl, settled_zero _ _⟩
  | succ t ih =>
      obtain ⟨hph, hset⟩ := ih (by omega)
      have hload := h.loading t (by omega)
      have hph' := hph.succ hset hload
      exact ⟨hph', hset.succ (hph.toggle hph' hload)⟩

/-- While its request is open the loader waits, and nothing on its channel moves. -/
theorem PhaseAt.wait_of_open (h : PhaseAt rom q mem inp t)
    (hload : (run rom q mem inp t).loader.loadDone = false)
    (hopen : strobe rom q mem inp t ≠ (channels rom q mem inp t loaderChannel).opStart) :
    (run rom q mem inp t).loader.state = .waitStrobe ∧
      (run rom q mem inp (t + 1)).loader.state = .waitStrobe ∧
      (run rom q mem inp (t + 1)).loader.opStart = (run rom q mem inp t).loader.opStart ∧
      (run rom q mem inp (t + 1)).loader.counter = (run rom q mem inp t).loader.counter := by
  rw [h.opStart_eq] at hopen
  have hst : (run rom q mem inp t).loader.state = .waitStrobe := by
    cases h with
    | idle _ _ _ hstrobe => exact absurd hstrobe hopen
    | waiting hst => exact hst
  rcases (loader_succ_cases hload).2 with ⟨hx, -⟩ | ⟨-, heq, -⟩ | ⟨h1, h2, h3, -⟩
  · rw [hst] at hx
    cases hx
  · exact absurd heq.symm hopen
  · exact ⟨hst, h1.trans hst, h2, h3⟩

/-- A loader that waits drives the channel. -/
theorem PhaseAt.channels_of_waiting (h : PhaseAt rom q mem inp t)
    (hst : (run rom q mem inp t).loader.state = .waitStrobe) :
    channels rom q mem inp t loaderChannel = (run rom q mem inp t).loader.mcIn ∧
      (run rom q mem inp t).loader.counter.toNat < 1024 ∧
      (run rom q mem inp t).loader.romData = rom (run rom q mem inp t).loader.romAddr := by
  cases h with
  | idle hx => rw [hst] at hx; cases hx
  | waiting _ hn _ hrom =>
      refine ⟨?_, hn, hrom⟩
      rw [channels_loader, mc7, if_pos]
      rw [← Bool.not_eq_true, MemoryLoader.loadDone_iff hn.le]
      exact hn.ne

/-- An open request of the loader is held. -/
theorem PhaseAt.hold (h : PhaseAt rom q mem inp t) (h' : PhaseAt rom q mem inp (t + 1))
    (hload : (run rom q mem inp t).loader.loadDone = false)
    (hopen : strobe rom q mem inp t ≠ (channels rom q mem inp t loaderChannel).opStart) :
    (channels rom q mem inp (t + 1) loaderChannel).opAddr =
        (channels rom q mem inp t loaderChannel).opAddr ∧
      (channels rom q mem inp (t + 1) loaderChannel).opWren =
        (channels rom q mem inp t loaderChannel).opWren ∧
      (channels rom q mem inp (t + 1) loaderChannel).opBurst =
        (channels rom q mem inp t loaderChannel).opBurst := by
  obtain ⟨hst, hst', -, hcount⟩ := h.wait_of_open hload hopen
  rw [(h.channels_of_waiting hst).1, (h'.channels_of_waiting hst').1]
  refine ⟨?_, rfl, rfl⟩
  rw [MemoryLoader.mcIn, MemoryLoader.mcIn, MemoryLoader.romAddr, MemoryLoader.romAddr, hcount]

/-- Loader and silent channels keep the rules of the memory channels. -/
theorem channelContract (h : Loading rom q mem inp T) :
    ChannelContract (heldFrom (channels rom q mem inp) T) := by
  have hquiet : ∀ c, c ≠ loaderChannel → ∀ t, t ≤ T →
      (channels rom q mem inp t c).opStart = false := by
    intro c hc t ht
    rw [channels_of_ne hc]
    exact h.silent t ht c hc
  refine channelContract_heldFrom ?_ ?_ ?_
  · intro c
    by_cases hc : c = loaderChannel
    · rw [hc]
      exact (phase_run h (Nat.zero_le T)).1.opStart_eq
    · exact hquiet c hc 0 (Nat.zero_le T)
  · intro t c ht hne
    by_cases hc : c = loaderChannel
    · subst hc
      exact (phase_run h ht.le).1.toggle (phase_run h ht).1 (h.loading t ht) hne
    · rw [hquiet c hc t ht.le, hquiet c hc (t + 1) ht] at hne
      exact absurd rfl hne
  · intro t c ht hopen
    by_cases hc : c = loaderChannel
    · subst hc
      exact (phase_run h ht.le).1.hold (phase_run h ht).1 (h.loading t ht) hopen
    · rw [(opStrobe_of_silent fun u hu => hquiet c hc u (hu.trans ht.le)).2,
        hquiet c hc t ht.le] at hopen
      exact absurd rfl hopen

/-- Only the loader is answered. -/
theorem eq_loaderChannel_of_answered (h : Loading rom q mem inp T) {c : Channel}
    (hans : Answered (heldFrom (channels rom q mem inp) T) c t) : c = loaderChannel := by
  by_contra hc
  have hquiet : ∀ u, (heldFrom (channels rom q mem inp) T u c).opStart = false := by
    intro u
    rw [heldFrom, channels_of_ne hc]
    exact h.silent _ (Nat.min_le_right u T) c hc
  have hstrobe := (opStrobe_of_silent (t := t) fun u _ => hquiet u).2
  have := hans.1
  rw [hstrobe, hquiet] at this
  exact this rfl

/-- The same requests are answered. -/
theorem answered_heldFrom (ht : t < T) {c : Channel} :
    Answered (heldFrom (channels rom q mem inp) T) c t ↔ Answered (channels rom q mem inp) c t := by
  rw [Answered, Answered, run_heldFrom (by omega), run_heldFrom (by omega), heldFrom_of_le ht.le,
    heldFrom_of_le (show t + 1 ≤ T from ht)]

/-- The same memory runs. -/
theorem sdram_heldFrom (ht : t ≤ T + 1) : (run rom q mem inp t).sdram =
    SdramSystem.run (heldFrom (channels rom q mem inp) T) (fun u => (inp u).float) mem t := by
  rw [run_sdram, sdramRun_heldFrom _ _ ht]

/-! ## The copy -/

/-- The half-word address of the counter. -/
theorem addr_toNat {l : MemoryLoader} (hn : l.counter.toNat < 1024) :
    (0#14 ++ l.romAddr).toNat = l.counter.toNat := by
  rw [toNat_append_eq, MemoryLoader.romAddr_toNat hn]
  simp

/-- Storing the next half-word. -/
theorem update_copied (rom : BitVec 10 → BitVec 16) (mem : BitVec 24 → BitVec 16)
    {l : MemoryLoader} (hn : l.counter.toNat < 1024) :
    Function.update (copied rom mem l.counter.toNat) (0#14 ++ l.romAddr) (rom l.romAddr) =
      copied rom mem (l.counter.toNat + 1) := by
  have haddr := addr_toNat hn
  funext a
  by_cases ha : a = 0#14 ++ l.romAddr
  · subst ha
    rw [Function.update_self, copied, if_pos (by omega), BitVec.extractLsb'_append_eq_right]
  · have hne : a.toNat ≠ l.counter.toNat := by
      intro hx
      exact ha (BitVec.eq_of_toNat_eq (hx.trans haddr.symm))
    rw [Function.update_of_ne ha, copied, copied]
    by_cases hlt : a.toNat < l.counter.toNat
    · rw [if_pos hlt, if_pos (by omega)]
    · rw [if_neg hlt, if_neg (by omega)]

/-- An answer stores the half-word that the counter names. -/
theorem stored_of_answered (h : Loading rom q mem inp T) (ht : t < T)
    (hans : Answered (channels rom q mem inp) loaderChannel t) :
    storedAt rom q mem inp (t + 1) = some (0#14 ++ (run rom q mem inp t).loader.romAddr) ∧
      cells rom q mem inp (t + 1) = Function.update (cells rom q mem inp t)
        (0#14 ++ (run rom q mem inp t).loader.romAddr)
        (rom (run rom q mem inp t).loader.romAddr) := by
  obtain ⟨-, hst', -, hcount⟩ := (phase_run h ht.le).1.wait_of_open (h.loading t ht) hans.1
  obtain ⟨hmc, -, hrom⟩ := (phase_run h (show t + 1 ≤ T from ht)).1.channels_of_waiting hst'
  have haddr : (run rom q mem inp (t + 1)).loader.romAddr =
      (run rom q mem inp t).loader.romAddr := by
    rw [MemoryLoader.romAddr, MemoryLoader.romAddr, hcount]
  rw [haddr] at hrom
  have hreq : heldFrom (channels rom q mem inp) T (t + 1) loaderChannel =
      ⟨0#14 ++ (run rom q mem inp t).loader.romAddr,
        (run rom q mem inp (t + 1)).loader.opStart, true, false, 0#2,
        rom (run rom q mem inp t).loader.romAddr⟩ := by
    rw [heldFrom_of_le (show t + 1 ≤ T from ht), hmc, MemoryLoader.mcIn, haddr, hrom]
  have hbeat : 0 < beats (heldFrom (channels rom q mem inp) T (t + 1) loaderChannel).opBurst := by
    rw [hreq]
    exact Nat.one_pos
  have hans' := (answered_heldFrom ht).mpr hans
  have hmove := moves_of_answered (channelContract h) hans' (by rw [hreq]) hbeat
  have hmem := cells_of_answered (channelContract h) (fun u => (inp u).float) mem hans'
    (by rw [hreq]) hbeat
  rw [hreq] at hmove
  rw [hreq, beatAddr_zero, blend_zero] at hmem
  constructor
  · rw [storedAt, sdram_heldFrom (show t + 1 ≤ T + 1 by omega)]
    exact (SdramSystem.storedCell_write hmove).trans (by rw [beatAddr_zero])
  · rw [cells, ← cellsAt_heldFrom _ _ (show t + 1 ≤ T from ht), cells,
      ← cellsAt_heldFrom _ _ ht.le]
    exact hmem

/-- In the other cycles nothing is stored. -/
theorem stored_of_not_answered (h : Loading rom q mem inp T) (ht : t < T)
    (hno : ¬ Answered (channels rom q mem inp) loaderChannel t) :
    storedAt rom q mem inp (t + 1) = none ∧
      cells rom q mem inp (t + 1) = cells rom q mem inp t := by
  have hkeep : (MemorySystem.run (heldFrom (channels rom q mem inp) T) (t + 1)).sdc.dqmOnCounter.toNat
      ≠ 0 → (MemorySystem.run (heldFrom (channels rom q mem inp) T) (t + 1)).arb.opWren = false := by
    intro hon
    rw [← Bool.not_eq_true]
    intro hw
    obtain ⟨u, c, k, hans, -, hk, hu⟩ := answered_of_transfer (channelContract h) hon hw
    obtain rfl := eq_loaderChannel_of_answered h hans
    have hburst : (heldFrom (channels rom q mem inp) T (u + 1) loaderChannel).opBurst = false := by
      rw [heldFrom, channels_loader, mc7]
      split <;> rfl
    rw [hburst] at hk
    obtain rfl : k = 0 := Nat.lt_one_iff.mp hk
    subst hu
    exact hno ((answered_heldFrom ht).mp hans)
  constructor
  · rw [storedAt, sdram_heldFrom (show t + 1 ≤ T + 1 by omega)]
    exact SdramSystem.storedCell_keep hkeep
  · rw [cells, ← cellsAt_heldFrom _ _ (show t + 1 ≤ T from ht), cells,
      ← cellsAt_heldFrom _ _ ht.le]
    exact SdramSystem.mem_keep hkeep

/-- The number of half-words written at the {lit}`t`-th edge. -/
def writtenAt (rom : BitVec 10 → BitVec 16) (q : BitVec 16) (mem : BitVec 24 → BitVec 16)
    (inp : ℕ → BootInput) (t : ℕ) : ℕ :=
  written (run rom q mem inp t).loader (strobe rom q mem inp t)

/-- An answer is one more half-word. -/
theorem writtenAt_of_answered (h : Loading rom q mem inp T) (ht : t < T)
    (hans : Answered (channels rom q mem inp) loaderChannel t) :
    writtenAt rom q mem inp t = (run rom q mem inp t).loader.counter.toNat ∧
      writtenAt rom q mem inp (t + 1) = (run rom q mem inp t).loader.counter.toNat + 1 := by
  obtain ⟨hst, hst', hstart, hcount⟩ :=
    (phase_run h ht.le).1.wait_of_open (h.loading t ht) hans.1
  obtain ⟨hopen, hclosed⟩ := hans
  rw [(phase_run h ht.le).1.opStart_eq] at hopen
  rw [(phase_run h (show t + 1 ≤ T from ht)).1.opStart_eq] at hclosed
  rw [writtenAt, written, if_neg fun hx => hopen hx.2, writtenAt, written,
    if_pos ⟨hst', hclosed⟩, hcount]
  exact ⟨rfl, rfl⟩

/-- What the loader does with an answer, and with the idle cycle after it, does not count. -/
theorem writtenAt_of_not_answered (h : Loading rom q mem inp T) (ht : t < T)
    (hno : ¬ Answered (channels rom q mem inp) loaderChannel t) :
    writtenAt rom q mem inp (t + 1) = writtenAt rom q mem inp t := by
  obtain ⟨hph, hset⟩ := phase_run h ht.le
  have hph' := (phase_run h (show t + 1 ≤ T from ht)).1
  rw [Answered, hph.opStart_eq, hph'.opStart_eq] at hno
  have hrest := hph.strobe_succ hset
  rw [writtenAt, writtenAt, written, written]
  rcases (loader_succ_cases (h.loading t ht)).2 with ⟨hst, hst', hstart', hcount'⟩ |
    ⟨hst, heq, hst', hstart', hcount'⟩ | ⟨hst', hstart', hcount', -⟩
  · have hstrobe : strobe rom q mem inp t = (run rom q mem inp t).loader.opStart := by
      cases hph with
      | idle _ _ _ hstrobe => exact hstrobe
      | waiting hx => rw [hst] at hx; cases hx
    rw [if_neg, if_neg, hcount']
    · rw [hst]
      exact fun hx => LoaderState.noConfusion hx.1
    · rintro ⟨-, hx⟩
      rw [hrest hstrobe, hstart', hstrobe] at hx
      exact Bool.not_ne_self _ hx.symm
  · have hlt : (run rom q mem inp t).loader.counter.toNat < 1024 :=
      ((phase_run h ht.le).1.channels_of_waiting hst).2.1
    rw [if_neg, if_pos ⟨hst, heq.symm⟩, hcount', BitVec.toNat_add]
    · change (_ + 1) % 2048 = _
      omega
    · rw [hst']
      exact fun hx => LoaderState.noConfusion hx.1
  · rw [hst', hstart', hcount']
    by_cases hclosed : strobe rom q mem inp t = (run rom q mem inp t).loader.opStart
    · rw [hrest hclosed]
    · have hopen' : strobe rom q mem inp (t + 1) ≠ (run rom q mem inp t).loader.opStart := by
        rw [← hstart']
        exact fun hx => hno ⟨hclosed, hx⟩
      rw [if_neg fun hx => hopen' hx.2, if_neg fun hx => hclosed hx.2]

/-- The copy so far: memory holds the first half-words of the ROM, and they have been stored once
each and in order. -/
theorem copied_run (h : Loading rom q mem inp T) (ht : t ≤ T) :
    cells rom q mem inp t = copied rom mem (writtenAt rom q mem inp t) ∧
      Clocked.log (storedAt rom q mem inp) (t + 1) =
        (List.range (writtenAt rom q mem inp t)).map (BitVec.ofNat 24) := by
  induction t with
  | zero => exact ⟨rfl, rfl⟩
  | succ t ih =>
      obtain ⟨hcells, hlog⟩ := ih (by omega)
      by_cases hans : Answered (channels rom q mem inp) loaderChannel t
      · obtain ⟨hstored, hnext⟩ := stored_of_answered h ht hans
        obtain ⟨hn, hn'⟩ := writtenAt_of_answered h ht hans
        have hph := (phase_run h (Nat.le_of_lt ht)).1
        have hlt :=
          (hph.channels_of_waiting (hph.wait_of_open (h.loading t ht) hans.1).1).2.1
        rw [hn] at hcells hlog
        rw [hn', hnext, hcells, update_copied rom mem hlt, Clocked.log_succ_some hstored, hlog,
          List.range_succ, List.map_append]
        refine ⟨rfl, ?_⟩
        rw [List.map_singleton, ← addr_toNat hlt, BitVec.ofNat_toNat, BitVec.setWidth_eq]
      · obtain ⟨hstored, hnext⟩ := stored_of_not_answered h ht hans
        rw [writtenAt_of_not_answered h ht hans, hnext, Clocked.log_succ_none hstored]
        exact ⟨hcells, hlog⟩

/-- All half-words have been written when the reset is released. -/
theorem writtenAt_of_loadDone (h : Loading rom q mem inp T)
    (hdone : (run rom q mem inp T).loader.loadDone = true) : writtenAt rom q mem inp T = 1024 := by
  have hph := (phase_run h le_rfl).1
  have hn := (MemoryLoader.loadDone_iff hph.counter_le).mp hdone
  cases hph with
  | idle hst =>
      rw [writtenAt, written, if_neg, hn]
      rw [hst]
      exact fun hx => LoaderState.noConfusion hx.1
  | waiting _ hlt => omega

/-! ## The hand-over -/

/-- A loader that is done rests. -/
theorem loader_of_loadDone (hdone : (run rom q mem inp t).loader.loadDone = true)
    (hst : (run rom q mem inp t).loader.state ≠ .waitStrobe) :
    (run rom q mem inp (t + 1)).loader.loadDone = true ∧
      (run rom q mem inp (t + 1)).loader.state ≠ .waitStrobe := by
  rw [run_loader_succ, MemoryLoader.step]
  split
  · cases hs : (run rom q mem inp t).loader.state with
    | idle => exact ⟨hdone, fun hx => LoaderState.noConfusion hx⟩
    | waitStrobe => exact absurd hs hst
    | done =>
        refine ⟨hdone, ?_⟩
        exact fun hx => LoaderState.noConfusion hx
  · exact ⟨hdone, hst⟩

/-- The loader on its channel, during the copy and after it. -/
structure TalksAt (rom : BitVec 10 → BitVec 16) (q : BitVec 16) (mem : BitVec 24 → BitVec 16)
    (inp : ℕ → BootInput) (t : ℕ) : Prop where
  copying : (run rom q mem inp t).loader.loadDone = false → PhaseAt rom q mem inp t
  done : (run rom q mem inp t).loader.loadDone = true →
    (run rom q mem inp t).loader.state ≠ .waitStrobe ∧
      strobe rom q mem inp t = (channels rom q mem inp t loaderChannel).opStart

/-- At the end of the copy nothing is open. -/
theorem PhaseAt.closed (h : PhaseAt rom q mem inp t)
    (hdone : (run rom q mem inp t).loader.loadDone = true) :
    (run rom q mem inp t).loader.state ≠ .waitStrobe ∧
      strobe rom q mem inp t = (channels rom q mem inp t loaderChannel).opStart := by
  have hn := (MemoryLoader.loadDone_iff h.counter_le).mp hdone
  rw [h.opStart_eq]
  cases h with
  | idle hst _ _ hstrobe =>
      rw [hst]
      exact ⟨fun hx => LoaderState.noConfusion hx, hstrobe⟩
  | waiting _ hlt => omega

/-- After the hand-over the channel shows {lit}`pbus_mc_in`. -/
theorem channels_of_loadDone (hdone : (run rom q mem inp t).loader.loadDone = true) :
    channels rom q mem inp t loaderChannel = pbusMcIn := by
  rw [channels_loader, mc7, hdone]
  rfl

/-- The loader goes on from edge to edge, also after the hand-over. -/
theorem TalksAt.succ (h : TalksAt rom q mem inp t)
    (hset : Settled (channels rom q mem inp) loaderChannel t) : TalksAt rom q mem inp (t + 1) := by
  cases hd : (run rom q mem inp t).loader.loadDone with
  | false =>
      have hph := (h.copying hd).succ hset hd
      exact ⟨fun _ => hph, hph.closed⟩
  | true =>
      obtain ⟨hst, heq⟩ := h.done hd
      obtain ⟨hd', hst'⟩ := loader_of_loadDone hd hst
      refine ⟨fun hx => absurd hd' (by rw [hx]; decide), fun _ => ⟨hst', ?_⟩⟩
      rw [channels_of_loadDone hd', ← channels_of_loadDone hd, ← heq]
      exact hset.opStrobe_eq heq

/-- The loader asks again only when it is answered, also at the hand-over. -/
theorem TalksAt.toggle (h : TalksAt rom q mem inp t)
    (hset : Settled (channels rom q mem inp) loaderChannel t)
    (hne : (channels rom q mem inp (t + 1) loaderChannel).opStart ≠
      (channels rom q mem inp t loaderChannel).opStart) :
    strobe rom q mem inp t = (channels rom q mem inp t loaderChannel).opStart := by
  cases hd : (run rom q mem inp t).loader.loadDone with
  | false => exact (h.copying hd).toggle ((h.copying hd).succ hset hd) hd hne
  | true => exact (h.done hd).2

/-- An open request of the loader is held, also at the hand-over. -/
theorem TalksAt.hold (h : TalksAt rom q mem inp t)
    (hset : Settled (channels rom q mem inp) loaderChannel t)
    (hopen : strobe rom q mem inp t ≠ (channels rom q mem inp t loaderChannel).opStart) :
    (channels rom q mem inp (t + 1) loaderChannel).opAddr =
        (channels rom q mem inp t loaderChannel).opAddr ∧
      (channels rom q mem inp (t + 1) loaderChannel).opWren =
        (channels rom q mem inp t loaderChannel).opWren ∧
      (channels rom q mem inp (t + 1) loaderChannel).opBurst =
        (channels rom q mem inp t loaderChannel).opBurst := by
  cases hd : (run rom q mem inp t).loader.loadDone with
  | false => exact (h.copying hd).hold ((h.copying hd).succ hset hd) hd hopen
  | true => exact absurd (h.done hd).2 hopen

/-- In every run the loader keeps to its phases. -/
theorem talks_run (rom : BitVec 10 → BitVec 16) (q : BitVec 16) (mem : BitVec 24 → BitVec 16)
    (inp : ℕ → BootInput) (t : ℕ) :
    TalksAt rom q mem inp t ∧ Settled (channels rom q mem inp) loaderChannel t := by
  have hzero : (run rom q mem inp 0).loader.loadDone = false := by
    change (0#11).getLsbD 10 = false
    decide
  refine settled_run ⟨fun _ => .idle rfl (Nat.zero_le 1024) rfl rfl, fun hx => ?_⟩
    (fun _ h hset => h.succ hset) (fun _ h hset hne => h.toggle hset hne) t
  rw [hzero] at hx
  cases hx

/-- Nothing is forwarded on channel 7 after the hand-over, whatever the other channels do. -/
theorem not_forwards_of_loadDone (hdone : (run rom q mem inp T).loader.loadDone = true) {u : ℕ}
    (hu : T ≤ u) :
    (run rom q mem inp u).loader.loadDone = true ∧
      (run rom q mem inp u).sdram.sys.forwards (channels rom q mem inp u) loaderChannel = false := by
  have hkeep : (run rom q mem inp u).loader.loadDone = true := by
    induction u, hu using Nat.le_induction with
    | base => exact hdone
    | succ u hu ih => exact (loader_of_loadDone ih ((talks_run rom q mem inp u).1.done ih).1).1
  refine ⟨hkeep, ?_⟩
  rw [run_sdram, SdramSystem.sys_run]
  exact not_forwards_of_closed ((talks_run rom q mem inp u).1.done hkeep).2

/-! ## The end of the copy -/

/-- The loader waits for the answer to half-word {lit}`n`. -/
def WaitsFor (rom : BitVec 10 → BitVec 16) (q : BitVec 16) (mem : BitVec 24 → BitVec 16)
    (inp : ℕ → BootInput) (n t : ℕ) : Prop :=
  (run rom q mem inp t).loader.state = .waitStrobe ∧
    (run rom q mem inp t).loader.counter.toNat = n

section Progress

variable (hload : ∀ T, Loading rom q mem inp T)

include hload

/-- The loader is answered, since nobody else asks. -/
theorem eventually_strobe (t : ℕ) : ∃ u, t ≤ u ∧
    strobe rom q mem inp u = (channels rom q mem inp u loaderChannel).opStart := by
  refine eventually_answered (channelContract_of_heldFrom fun T => channelContract (hload T)) t ?_
  intro u _ d hd
  have hquiet : ∀ v, v ≤ u → (channels rom q mem inp v d).opStart = false := by
    intro v hv
    rw [channels_of_ne (ne_of_lt hd)]
    exact (hload u).silent v hv d (ne_of_lt hd)
  have hstrobe := (opStrobe_of_silent hquiet).2
  exact not_forwards_of_closed (hstrobe.trans (hquiet u le_rfl).symm)

/-- The request is made when the PLL is locked. -/
theorem idle_leadsTo_wait (hpll : ∀ t, ∃ u, t ≤ u ∧ (inp u).pllLocked = true) (n : ℕ) :
    Clocked.LeadsTo (fun t => (run rom q mem inp t).loader.state = .idle ∧
        (run rom q mem inp t).loader.counter.toNat = n) (WaitsFor rom q mem inp n) := by
  refine Clocked.LeadsTo.of_fair_rank (E := fun t => (inp t).pllLocked = true) (fun _ => 0) ?_ hpll
  rintro t ⟨hst, hn⟩
  have hstrobe : strobe rom q mem inp t = (run rom q mem inp t).loader.opStart := by
    cases (phase_run (hload t) le_rfl).1 with
    | idle _ _ _ hstrobe => exact hstrobe
    | waiting hx => rw [hst] at hx; cases hx
  rcases (loader_succ_cases ((hload (t + 1)).loading t (by omega))).2 with ⟨-, hst', -, hcount⟩ |
    ⟨hx, -⟩ | ⟨hst', -, hcount, hguard⟩
  · exact .inl ⟨hst', by rw [hcount, hn]⟩
  · rw [hst] at hx
    cases hx
  · refine .inr ⟨⟨hst'.trans hst, by rw [hcount, hn]⟩, le_rfl, fun hp => ?_⟩
    rcases hguard hp with hx | hx
    · rw [hst] at hx
      cases hx
    · exact absurd hstrobe.symm hx

/-- A loader that has its answer goes on unless the PLL is unlocked. -/
theorem WaitsFor.succ {n : ℕ} (h : WaitsFor rom q mem inp n t) :
    (run rom q mem inp (t + 1)).loader.counter.toNat = n + 1 ∨
      (WaitsFor rom q mem inp n (t + 1) ∧
        (strobe rom q mem inp t = (channels rom q mem inp t loaderChannel).opStart →
          strobe rom q mem inp (t + 1) = (channels rom q mem inp (t + 1) loaderChannel).opStart ∧
            (inp t).pllLocked ≠ true)) := by
  obtain ⟨hst, hn⟩ := h
  obtain ⟨hph, hset⟩ := phase_run (hload t) le_rfl
  rcases (loader_succ_cases ((hload (t + 1)).loading t (by omega))).2 with ⟨hx, -⟩ |
    ⟨-, -, -, -, hcount⟩ | ⟨hst', hstart, hcount, hguard⟩
  · rw [hst] at hx
    cases hx
  · have hlt := ((phase_run (hload t) le_rfl).1.channels_of_waiting hst).2.1
    left
    rw [hcount, BitVec.toNat_add]
    change (_ + 1) % 2048 = _
    omega
  · refine .inr ⟨⟨hst'.trans hst, by rw [hcount, hn]⟩, fun heq => ?_⟩
    rw [hph.opStart_eq] at heq
    rw [(phase_run (hload (t + 1)) le_rfl).1.opStart_eq, hstart, hph.strobe_succ hset heq]
    refine ⟨heq, fun hp => ?_⟩
    rcases hguard hp with hx | hx
    · rw [hst] at hx
      cases hx
    · exact hx heq.symm

/-- The answer comes. -/
theorem wait_leadsTo_answer (n : ℕ) : Clocked.LeadsTo (WaitsFor rom q mem inp n)
    fun t => (run rom q mem inp t).loader.counter.toNat = n + 1 ∨ (WaitsFor rom q mem inp n t ∧
      strobe rom q mem inp t = (channels rom q mem inp t loaderChannel).opStart) := by
  refine Clocked.LeadsTo.of_fair_rank (fun _ => 0) ?_ (eventually_strobe hload)
  intro t h
  rcases h.succ hload with hx | ⟨h', hkeep⟩
  · exact .inl (.inl hx)
  · by_cases heq : strobe rom q mem inp t = (channels rom q mem inp t loaderChannel).opStart
    · exact .inl (.inr ⟨h', (hkeep heq).1⟩)
    · exact .inr ⟨h', le_rfl, fun hx => absurd hx heq⟩

/-- The loader takes it when the PLL is locked. -/
theorem answer_leadsTo_next (hpll : ∀ t, ∃ u, t ≤ u ∧ (inp u).pllLocked = true) (n : ℕ) :
    Clocked.LeadsTo (fun t => WaitsFor rom q mem inp n t ∧
        strobe rom q mem inp t = (channels rom q mem inp t loaderChannel).opStart)
      fun t => (run rom q mem inp t).loader.counter.toNat = n + 1 := by
  refine Clocked.LeadsTo.of_fair_rank (fun _ => 0) ?_ hpll
  rintro t ⟨h, heq⟩
  rcases h.succ hload with hx | ⟨h', hkeep⟩
  · exact .inl hx
  · obtain ⟨heq', hp⟩ := hkeep heq
    exact .inr ⟨⟨h', heq'⟩, le_rfl, fun hx => absurd hx hp⟩

/-- Every half-word is followed by the next one. -/
theorem eventually_counter (hpll : ∀ t, ∃ u, t ≤ u ∧ (inp u).pllLocked = true) {n t : ℕ}
    (hn : (run rom q mem inp t).loader.counter.toNat = n) :
    ∃ u, (run rom q mem inp u).loader.counter.toNat = n + 1 := by
  have hwait : ∃ u, WaitsFor rom q mem inp n u := by
    cases (phase_run (hload t) le_rfl).1 with
    | idle hst =>
        obtain ⟨u, -, hu⟩ := idle_leadsTo_wait hload hpll n t ⟨hst, hn⟩
        exact ⟨u, hu⟩
    | waiting hst => exact ⟨t, hst, hn⟩
  obtain ⟨u, hu⟩ := hwait
  obtain ⟨v, -, hv | hv⟩ := wait_leadsTo_answer hload n u hu
  · exact ⟨v, hv⟩
  · obtain ⟨w, -, hw⟩ := answer_leadsTo_next hload hpll n v hv
    exact ⟨w, hw⟩

end Progress

/-- The copy comes to its end if the PLL is locked again and again. -/
theorem eventually_loadDone (hpll : ∀ t, ∃ u, t ≤ u ∧ (inp u).pllLocked = true)
    (hsilent : ∀ T, (∀ t, t < T → (run rom q mem inp t).loader.loadDone = false) →
      Loading rom q mem inp T) : ∃ T, (run rom q mem inp T).loader.loadDone = true := by
  by_contra hnever
  have hload : ∀ T, Loading rom q mem inp T :=
    fun T => hsilent T fun t _ => Bool.not_eq_true _ ▸ fun hx => hnever ⟨t, hx⟩
  have hcount : ∀ n, ∃ t, (run rom q mem inp t).loader.counter.toNat = n := by
    intro n
    induction n with
    | zero => exact ⟨0, rfl⟩
    | succ n ih =>
        obtain ⟨t, ht⟩ := ih
        exact eventually_counter hload hpll ht
  obtain ⟨t, ht⟩ := hcount 1024
  exact hnever ⟨t, (MemoryLoader.loadDone_iff ht.le).mpr ht⟩

end BootSystem

end Sumeru
