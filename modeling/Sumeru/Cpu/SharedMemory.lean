import Sumeru.Cpu.MemoryChannels
import Sumeru.Cpu.Computer

/-!
# Sumeru - Program execution from power-up

The whole processor with its memory: the loader copies the boot image, releases the reset,
and from then on both caches share the SDRAM behind the arbiter, together with the DMA
engine.  On an idle serial line the data cache is the only writer, so its channel is a
{lit}`BurstChannel` over the memory, and the processor is a {lit}`Computer` whose program is
the boot image.

The instruction cache has the highest priority.  It cannot starve the data cache for ever:
while the execute stage waits for the data cache it takes no instruction, and the fetch stage
comes to rest with its line in the cache.

Main results:

- Theorem {lit}`Processor.computer_run`: a run of the processor is one of {lit}`Computer`.
- Theorem {lit}`Processor.data_ready`: the data cache is answered again and again.
- Theorem {lit}`processor_executes_program`: the processor executes the program in its memory.
-/

namespace Sumeru
open Rv32

/-- The memory that the loader leaves: the ROM in front of what was there at power-up. -/
def bootImage (rom : BitVec 10 → BitVec 16) (mem : BitVec 24 → BitVec 16) :
    BitVec 24 → BitVec 16 :=
  BootSystem.copied rom mem 1024

/-- While a request of the data cache is open nothing moves, and the execute stage waits. -/
theorem DataUnit.Situation.waits_of_open {s : DataUnit} {m : ByteMem} (h : s.Situation m)
    (hopen : s.chan.strobe ≠ s.dcache.mcOpStart) : s.chan.left = 0 ∧ s.iexec.Issued := by
  cases h with
  | calm h => exact absurd h.answered hopen
  | lookup m₀ _ hp h => exact absurd h.answered hopen
  | storing m₀ _ hp h =>
      rcases h.phase with ⟨hw, -⟩ | ⟨hmv, -⟩
      · exact ⟨hw.left, hp.issued⟩
      · exact absurd hmv.strobe hopen
  | loading m₀ _ hp h =>
      rcases h.phase with ⟨hw, -⟩ | ⟨hmv, -⟩
      · exact ⟨hw.left, hp.issued⟩
      · exact absurd hmv.strobe hopen
  | loaded m₀ _ hp h => exact absurd h.answered hopen
  | written h => exact absurd h.answered hopen

namespace Processor

/-- The execute stage accepts an instruction. -/
def accepts (s : Processor) (i : ProcessorInput) : Bool := s.iexec.accepts (s.iexecInput i)

/-- The processor with its data cache in front of a channel of its own. -/
def computer (s : Processor) (ch : BurstChannel) : Computer :=
  ⟨s.fetch, s.idecode, ⟨s.iexec, s.dcache, ch⟩⟩

/-- What the processor sees of its memory channels. -/
def computerInput (s : Processor) (i : ProcessorInput) (ready : Bool) : ComputerInput where
  enable := s.resetN
  opStrobe := s.boot.sdram.sys.opStrobe 0
  sdcDataOut := s.sdcDataOut i
  csrBus := i.csrBus
  intrOut := i.intrOut
  ready := ready
  float := s.sdcDataOut i
  undefinedLanes := i.undefinedLanes

/-- A cycle of the processor is one of {lit}`Computer`, if the channel shows what the memory
does. -/
theorem computer_step (V : Megafunctions) (rom : BitVec 10 → BitVec 16) (s : Processor)
    (ch : BurstChannel) (i : ProcessorInput) (ready : Bool)
    (hstrobe : ch.strobe = s.boot.sdram.sys.opStrobe 1)
    (hdata : ch.dataOut (s.sdcDataOut i) = s.sdcDataOut i) :
    (s.computer ch).step V (s.computerInput i ready) = (s.step V rom i).computer
      ((ch.advance s.dcache.mcIn ready).transfer (s.step V rom i).dcache.mcIn) := by
  have hcache : (((s.computer ch).step V (s.computerInput i ready)).data.dcache) =
      (s.step V rom i).dcache := by
    change (s.dcache.clk (s.dcacheIn i) ch.strobe (ch.dataOut (s.sdcDataOut i))).clkN _ = _
    rw [hstrobe, hdata]
    rfl
  have hchan : (((s.computer ch).step V (s.computerInput i ready)).data.chan) =
      (ch.advance s.dcache.mcIn ready).transfer
        (((s.computer ch).step V (s.computerInput i ready)).data.dcache.mcIn) :=
    rfl
  rw [hcache] at hchan
  rw [computer, computer, ← hchan, ← hcache]
  rfl

variable (V : Megafunctions) (rom : BitVec 10 → BitVec 16) (q : BitVec 16)
  (mem : BitVec 24 → BitVec 16) (inp : ℕ → ProcessorInput)

/-- The number of instructions accepted before edge {lit}`t`. -/
def accepted (t : ℕ) : ℕ :=
  Nat.count (fun u => (run V rom q mem inp u).accepts (inp u) = true) t

/-- What the processor sees of its memory channels along a run. -/
def computerInputs (t : ℕ) : ComputerInput :=
  (run V rom q mem inp t).computerInput (inp t) (answersAt (channels V rom q mem inp) 1 t)

/-- The byte is in a line at which the fetch stage ever stands. -/
def FetchLine (a : BitVec 25) : Prop :=
  ∃ t, (run V rom q mem inp t).fetch.addr.extractLsb' 4 21 = a.extractLsb' 4 21

/-- The program never changes a byte of a line at which the fetch stage ever stands. -/
def CodeStays : Prop :=
  ∀ n m,
    RvMachine.After (programWord (bootImage rom mem)) (.boot (byteAt (bootImage rom mem))) n m →
      ∀ a, FetchLine V rom q mem inp a → m.mem a = byteAt (bootImage rom mem) a

/-- What the processor shows of the machine between two instructions: the operands of the next
instruction are its registers, the data cache over the memory holds its memory, and what is
accepted next is its next instruction. -/
structure Shows (V : Megafunctions) (prog cells : BitVec 24 → BitVec 16) (m : RvMachine)
    (s : Processor) : Prop where
  regs : ∀ i r, s.iexec.operand V (s.iexecInput i) r = m.regs r
  mem : ∀ a, (s.dcache.view cells).value a = m.mem a
  pc : ∀ i, s.accepts i = true →
    IsNext (programWord prog) m.pc s.idecode.pcR ∧ s.idecode.instR = programWord prog s.idecode.pcR

variable {V rom q mem inp} {t T : ℕ}

/-! ## The processor as a computer -/

/-- After the release of the reset the memory is the boot image. -/
theorem cells_eq_bootImage (hreset : ∀ u, u < T → (run V rom q mem inp u).resetN = false)
    (hdone : (run V rom q mem inp T).resetN = true) :
    cells V rom q mem inp T = bootImage rom mem :=
  (copied_of_resetN hreset hdone).1

section IdleLine

variable (hline : ∀ t, (inp t).uartRx = true)
  (hreset : ∀ u, u < T → (run V rom q mem inp u).resetN = false)
  (hdone : (run V rom q mem inp T).resetN = true)

include hline hreset hdone

/-- A run of the processor is one of {lit}`Computer` on the boot image. -/
theorem computer_run (t : ℕ) :
    ∃ ch, Serves (channels V rom q mem inp) (floats inp) mem 1 T t ch ∧
      Computer.run V (bootImage rom mem) (computerInputs V rom q mem inp) t =
        (run V rom q mem inp t).computer ch := by
  have hc := channelContract V rom q mem hline
  have how := ownsMemory hline hreset hdone
  induction t with
  | zero =>
      refine ⟨_, serves_init _ _ mem 1 T, ?_⟩
      rw [← cells_eq_cellsAt, cells_eq_bootImage hreset hdone]
      rfl
  | succ t ih =>
      obtain ⟨ch, hserves, heq⟩ := ih
      have hquiet : ch.strobe ≠ (channels V rom q mem inp t 1).opStart → ch.left = 0 := by
        obtain ⟨m, hsit⟩ :=
          Computer.situation V (bootImage rom mem) (computerInputs V rom q mem inp) t
        rw [heq] at hsit
        exact fun hopen => (hsit.waits_of_open hopen).1
      refine ⟨_, hserves.step hc how hquiet, ?_⟩
      rw [Computer.run_succ, heq]
      refine computer_step V rom _ ch _ _ (hserves.strobe.trans (opStrobe_eq 1 t).symm) ?_
      rw [sdcDataOut_eq]
      exact hserves.dataOut_eq hc how

/-- The stages of the two runs are the same. -/
theorem computer_fetch (t : ℕ) :
    (Computer.run V (bootImage rom mem) (computerInputs V rom q mem inp) t).fetch =
      (run V rom q mem inp t).fetch := by
  obtain ⟨ch, -, heq⟩ := computer_run (V := V) (q := q) hline hreset hdone t
  rw [heq]
  rfl

/-- The fetch units of the two runs see the same. -/
theorem computer_fetchInputs :
    Computer.fetchInputs V (bootImage rom mem) (computerInputs V rom q mem inp) =
      fetchInputs V rom q mem inp := by
  funext t
  obtain ⟨ch, -, heq⟩ := computer_run (V := V) (q := q) hline hreset hdone t
  rw [Computer.fetchInputs, heq]
  rfl

/-- The instructions are counted alike. -/
theorem computer_accepted (t : ℕ) :
    Computer.accepted V (bootImage rom mem) (computerInputs V rom q mem inp) t =
      accepted V rom q mem inp t := by
  rw [Computer.accepted, accepted]
  congr 1
  funext u
  obtain ⟨ch, -, heq⟩ := computer_run (V := V) (q := q) hline hreset hdone u
  rw [heq]
  rfl

/-- Both caches are in front of the SDRAM. -/
theorem sharesMemory : Computer.SharesMemory V (bootImage rom mem)
    (computerInputs V rom q mem inp) (cells V rom q mem inp) where
  port := by
    have hport := fetch_readPort V rom q mem hline
    have hstrobe : (fun t => (computerInputs V rom q mem inp t).opStrobe) =
        strobe V rom q mem inp 0 := funext (opStrobe_eq 0)
    simp only [computer_fetch hline hreset hdone, hstrobe]
    exact hport
  enable := fun t ht => (released_of_le ht (Nat.le_succ t)).1
  cells := by
    intro t ht
    obtain ⟨ch, hserves, heq⟩ := computer_run (V := V) (q := q) hline hreset hdone t
    have hle : T ≤ t := by
      by_contra hlt
      have hoff := hreset t (by omega)
      rw [show (run V rom q mem inp t).resetN = true from ht] at hoff
      cases hoff
    rw [heq, cells_eq_cellsAt]
    change _ = ch.cells
    rw [hserves.cells, Nat.max_eq_left hle]

/-! ## Progress -/

omit hreset hdone in
/-- The instruction cache is answered again and again. -/
theorem fetch_answers : FetchUnit.Answers (fetchInputs V rom q mem inp) := by
  intro t
  obtain ⟨u, htu, hu⟩ := eventually_answered
    (channelContract V rom q mem hline) (c := 0) t
    fun u _ d hd => absurd hd (Nat.not_lt_zero d.val)
  refine ⟨u, htu, ?_⟩
  rw [fetchInputs_opStrobe, ← fetch_run]
  exact hu

/-- The execute stage waits while the data cache asks. -/
theorem held_of_open (hopen : strobe V rom q mem inp 1 t ≠ (channels V rom q mem inp t 1).opStart)
    (hnext : strobe V rom q mem inp 1 (t + 1) ≠ (channels V rom q mem inp (t + 1) 1).opStart) :
    FetchUnit.Held (fetchInputs V rom q mem inp) (t + 1) := by
  have hissued : ∀ t, strobe V rom q mem inp 1 t ≠ (channels V rom q mem inp t 1).opStart →
      (run V rom q mem inp t).iexec.Issued := by
    intro t hopen
    obtain ⟨ch, hserves, heq⟩ := computer_run (V := V) (q := q) hline hreset hdone t
    obtain ⟨m, hsit⟩ := Computer.situation V (bootImage rom mem) (computerInputs V rom q mem inp) t
    rw [heq] at hsit
    refine (hsit.waits_of_open ?_).2
    change ch.strobe ≠ _
    rw [hserves.strobe]
    exact hopen
  refine ⟨(hissued (t + 1) hnext).busy, ?_⟩
  refine Iexec.out_cxfer_step_of_not_accepts V ?_
  refine Iexec.not_accepts_of_state ?_
  change (run V rom q mem inp t).iexec.state ≠ _
  rw [(hissued t hopen).state]
  decide

omit hline hreset hdone in
/-- A fetch stage at rest asks for nothing. -/
theorem fetch_closed (h : FetchUnit.Resting (fetchInputs V rom q mem inp) t) :
    strobe V rom q mem inp 0 t = (channels V rom q mem inp t 0).opStart := by
  have hinv := (fetch_talks V rom q mem inp t).1
  have hidle : (FetchUnit.run (fetchInputs V rom q mem inp) t).icache.state = .idle := by
    by_contra hne
    have hmiss := hinv.hit_of_ne_idle hne
    rw [h.hit] at hmiss
    cases hmiss
  have hans := (hinv.idle hidle).1
  rw [fetchInputs_opStrobe, ← fetch_run] at hans
  exact hans

/-- The data cache is answered again and again. -/
theorem data_ready (t : ℕ) :
    ∃ u, t ≤ u ∧ answersAt (channels V rom q mem inp) 1 u = true := by
  by_contra hnever
  have hc := channelContract V rom q mem hline
  have hopen : ∀ u, t ≤ u →
      strobe V rom q mem inp 1 u ≠ (channels V rom q mem inp u 1).opStart := by
    intro u hu heq
    refine hnever ⟨u, hu, ?_⟩
    rw [answersAt, beq_iff_eq, ((data_talks V rom q mem inp u).2).opStrobe_eq heq]
    exact heq
  have hheld : ∀ u, max t T + 1 ≤ u → FetchUnit.Held (fetchInputs V rom q mem inp) u := by
    intro u hu
    obtain ⟨v, rfl⟩ : ∃ v, u = v + 1 := ⟨u - 1, by omega⟩
    exact held_of_open hline hreset hdone (hopen v (by omega)) (hopen (v + 1) (by omega))
  obtain ⟨v, hv, hrest⟩ := FetchUnit.eventually_resting
    (fun u => (fetch_talks V rom q mem inp u).1) (fetch_answers hline)
    (fun u hu => (released_of_le hdone (by omega)).1) hheld
  obtain ⟨u, hu, hans⟩ := exists_answered hc (hopen v (by omega)) fun u hu d hd => by
    have hval : d.val < 1 := hd
    obtain rfl : d = 0 := Fin.ext (by change d.val = 0; omega)
    exact not_forwards_of_closed (fetch_closed (hrest u hu))
  exact hopen (u + 1) (by omega) hans.2

/-! ## The program -/

/-- The lines that are fetched are not changed in either run. -/
theorem computer_codeStays (hcode : CodeStays V rom q mem inp) :
    Computer.CodeStays V (bootImage rom mem) (computerInputs V rom q mem inp) := by
  rintro n m hm a ⟨t, ht⟩
  rw [computer_fetch hline hreset hdone] at ht
  exact hcode n m hm a ⟨t, ht⟩

/-- In {lit}`RUNNING` the processor shows the machine after the instructions that it has
accepted. -/
theorem shows_machine (hV : V.Exact) (hintr : ∀ t, (inp t).intrOut.intrTrigger = false)
    (hcode : CodeStays V rom q mem inp) (hTt : T ≤ t)
    (hrun : (run V rom q mem inp t).iexec.state = .running) {m : RvMachine}
    (hm : RvMachine.After (programWord (bootImage rom mem)) (.boot (byteAt (bootImage rom mem)))
      (accepted V rom q mem inp t) m) :
    (run V rom q mem inp t).Shows V (bootImage rom mem) (cells V rom q mem inp t) m := by
  obtain ⟨ch, hserves, heq⟩ := computer_run (V := V) (q := q) hline hreset hdone t
  rw [← computer_accepted hline hreset hdone] at hm
  have hstate : (Computer.run V (bootImage rom mem) (computerInputs V rom q mem inp) t
      ).data.iexec.state = .running := by
    rw [heq]
    exact hrun
  obtain ⟨hregs, hmem, hpc⟩ := (sharesMemory hline hreset hdone).shows hV hintr
    (computer_codeStays hline hreset hdone hcode) hstate hm
  rw [heq] at hregs hmem hpc
  refine ⟨fun i r => ?_, fun a => ?_, fun i hacc => ?_⟩
  · exact hregs (((run V rom q mem inp t).computer ch).dataInput
      ((run V rom q mem inp t).computerInput i false)) r
  · rw [← hmem a, cells_eq_cellsAt, ← Nat.max_eq_left hTt, ← hserves.cells, Nat.max_eq_left hTt]
    rfl
  · exact hpc (((run V rom q mem inp t).computer ch).hart.coreInput
      (((run V rom q mem inp t).computer ch).hartInput
        ((run V rom q mem inp t).computerInput i false))) hacc

/-- The processor gets to every state of the machine. -/
theorem reaches_machine (hV : V.Exact) (hintr : ∀ t, (inp t).intrOut.intrTrigger = false)
    (hcode : CodeStays V rom q mem inp) {n : ℕ} {m : RvMachine}
    (hm : RvMachine.After (programWord (bootImage rom mem)) (.boot (byteAt (bootImage rom mem)))
      n m) :
    ∃ t, (run V rom q mem inp t).iexec.state = .running ∧ accepted V rom q mem inp t = n := by
  have hfetch : FetchUnit.Answers (Computer.fetchInputs V (bootImage rom mem)
      (computerInputs V rom q mem inp)) := by
    rw [computer_fetchInputs hline hreset hdone]
    exact fetch_answers hline
  obtain ⟨t, hrun, hacc⟩ := (sharesMemory hline hreset hdone).reaches hV hintr
    (computer_codeStays hline hreset hdone hcode) ⟨T, hdone⟩ hfetch
    (data_ready hline hreset hdone) hm
  obtain ⟨ch, -, heq⟩ := computer_run (V := V) (q := q) hline hreset hdone t
  rw [heq] at hrun
  rw [computer_accepted hline hreset hdone] at hacc
  exact ⟨t, hrun, hacc⟩

omit hline hdone in
/-- Before the release of the reset nothing is accepted. -/
theorem accepted_of_reset (htT : t ≤ T) :
    (run V rom q mem inp t).iexec.state = .running ∧ accepted V rom q mem inp t = 0 := by
  have hasleep : ∀ u, u ≤ T → (run V rom q mem inp u).Asleep := fun u hu => asleep_run hreset hu
  refine ⟨(hasleep t htT).iexec.state, ?_⟩
  rw [accepted, Nat.count_iff_forall_not]
  intro u hu hacc
  have hvalid : (run V rom q mem inp u).idecode.execValid = true :=
    (Iexec.accepts_iff.mp hacc).2.1
  rw [(hasleep u (by omega)).idecode] at hvalid
  cases hvalid

end IdleLine

end Processor

open Processor

/-- The processor executes the program in its memory.  The loader, both caches and the DMA engine
share the SDRAM behind the arbiter; the serial line is idle, there are no interrupts, and the
program does not change the lines that are fetched.  Then, from power-up on and however long the
memory takes: in {lit}`RUNNING` after the release of the reset the processor shows the machine
that has executed as many instructions of the boot image as have been accepted; and if the PLL is
locked again and again, it gets to every state of the machine. -/
theorem processor_executes_program (V : Megafunctions) (hV : V.Exact)
    (rom : BitVec 10 → BitVec 16) (q : BitVec 16) (mem : BitVec 24 → BitVec 16)
    (inp : ℕ → ProcessorInput) (hline : ∀ t, (inp t).uartRx = true)
    (hintr : ∀ t, (inp t).intrOut.intrTrigger = false) (hcode : CodeStays V rom q mem inp) :
    (∀ t m, (run V rom q mem inp t).resetN = true →
      (run V rom q mem inp t).iexec.state = .running →
      RvMachine.After (programWord (bootImage rom mem)) (.boot (byteAt (bootImage rom mem)))
        (accepted V rom q mem inp t) m →
      (run V rom q mem inp t).Shows V (bootImage rom mem) (cells V rom q mem inp t) m) ∧
    ((∀ t, ∃ u, t ≤ u ∧ (inp u).pllLocked = true) → ∀ n m,
      RvMachine.After (programWord (bootImage rom mem)) (.boot (byteAt (bootImage rom mem))) n m →
        ∃ t, (run V rom q mem inp t).resetN = true ∧
          (run V rom q mem inp t).iexec.state = .running ∧ accepted V rom q mem inp t = n) := by
  constructor
  · intro t m ht hrun hm
    have hex : ∃ T, (run V rom q mem inp T).resetN = true := ⟨t, ht⟩
    exact shows_machine hline (fun u hu => Bool.not_eq_true _ ▸ Nat.find_min hex hu)
      (Nat.find_spec hex) hV hintr hcode (Nat.find_min' hex ht) hrun hm
  · intro hpll n m hm
    have hex := eventually_resetN V rom q mem hpll
    have hreset : ∀ u, u < Nat.find hex → (run V rom q mem inp u).resetN = false :=
      fun u hu => Bool.not_eq_true _ ▸ Nat.find_min hex hu
    obtain ⟨t, hrun, hacc⟩ := reaches_machine hline hreset (Nat.find_spec hex) hV hintr hcode hm
    rcases Nat.le_total (Nat.find hex) t with ht | ht
    · exact ⟨t, (released_of_le (Nat.find_spec hex) ht).1, hrun, hacc⟩
    · -- nothing has been accepted yet
      obtain ⟨hrunT, haccT⟩ := accepted_of_reset hreset le_rfl
      rw [(accepted_of_reset hreset ht).2] at hacc
      exact ⟨Nat.find hex, Nat.find_spec hex, hrunT, haccT.trans hacc⟩

/-- The boot image of a ROM and a memory that hold one half-word everywhere. -/
theorem bootImage_const (x : BitVec 16) : bootImage (fun _ => x) (fun _ => x) = fun _ => x := by
  funext a
  simp [bootImage, BootSystem.copied]

/-- A ROM and a memory full of {lit}`lw x1, 520(x6)` bring that word itself to register 1. -/
theorem processor_executes_program_lw :
    ∃ t, (run .documented (fun _ => 0x2083#16) 0#16 (fun _ => 0x2083#16) (fun _ => lockedInput)
        t).resetN = true ∧
      ∀ i, (run .documented (fun _ => 0x2083#16) 0#16 (fun _ => 0x2083#16) (fun _ => lockedInput)
        t).iexec.operand .documented
        ((run .documented (fun _ => 0x2083#16) 0#16 (fun _ => 0x2083#16) (fun _ => lockedInput)
          t).iexecInput i) 1#5 = 0x20832083#32 := by
  have hword : ∀ pc, programWord (fun _ => 0x2083#16) pc = 0x20832083#32 := by
    intro pc
    change (0x2083#16 ++ 0x2083#16 : BitVec 32) = _
    decide
  have henc : Encodes 0x20832083#32 (.load .lw 1#5 6#5 0x208#32) :=
    ⟨rfl, rfl, rfl, rfl, by decide⟩
  have hnext : RvMachine.Next (programWord fun _ => 0x2083#16) (.boot (byteAt fun _ => 0x2083#16))
      ⟨4#32, Regs.write (fun _ => 0#32) 1#5 0x20832083#32, byteAt fun _ => 0x2083#16⟩ := by
    refine ⟨0#32, .base (.load .lw 1#5 6#5 0x208#32), ⟨.refl _, ?_⟩, ?_, ?_⟩
    · rw [hword]
      rfl
    · rw [hword]
      exact henc
    · rfl
  have hcode : CodeStays .documented (fun _ => 0x2083#16) 0#16 (fun _ => 0x2083#16)
      (fun _ => lockedInput) := by
    intro n m hm a _
    rw [bootImage_const] at hm ⊢
    rw [hm.mem_of_no_store fun pc => by rw [hword]; decide]
    rfl
  obtain ⟨hshows, hreach⟩ := processor_executes_program .documented documented_exact
    (fun _ => 0x2083#16) 0#16 (fun _ => 0x2083#16) (fun _ => lockedInput) (fun _ => rfl)
    (fun _ => rfl) hcode
  rw [bootImage_const] at hshows hreach
  have hafter := RvMachine.After.succ .zero hnext
  obtain ⟨t, hreset, hrun, hlen⟩ := hreach (fun t => ⟨t, le_rfl, rfl⟩) 1 _ hafter
  refine ⟨t, hreset, fun i => ?_⟩
  exact (hshows t _ hreset hrun (by rw [hlen]; exact hafter)).regs i 1#5

end Sumeru
