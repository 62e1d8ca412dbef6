import Sumeru.Cpu.SystemMachine

/-!
# Sumeru - Interrupt entry and return

The code of {lit}`entry.S` around the handler {lit}`handle_interrupt`, on the sequential
machine.  The entry of a vector saves {lit}`a0` in the first word of the memory and loads the
number of the interrupt; {lit}`asm_handle_interrupt` saves {lit}`sp` and {lit}`ra` behind it
and the other registers that a C function may change below the stack of the interrupted
program; behind the call they are restored, and the program is resumed over SWITCH.

The function {lit}`handle_interrupt` itself is compiled C; what the code relies on is the
calling convention, {lit}`Called`.

Main results:

- Theorem {lit}`Rv32.read_saveAll`: what is saved can be read back.
- Theorem {lit}`interrupt_transparent`: the interrupted program goes on as if nothing had
  happened, on the memory that the handler leaves.
-/

namespace Sumeru

namespace Rv32

/-! ## Words in memory -/

/-- A word-aligned address. -/
def WordAligned (a : BitVec 25) : Prop := a.toNat % 4 = 0

instance (a : BitVec 25) : Decidable (WordAligned a) := inferInstanceAs (Decidable (_ = _))

/-- Different words do not share bytes. -/
theorem not_in_word {a b : BitVec 25} (ha : WordAligned a) (hb : WordAligned b) (hab : a ≠ b)
    {k : ℕ} (hk : k < 4) : ¬(b + BitVec.ofNat 25 k - a).toNat < 4 := by
  have hne : a.toNat ≠ b.toNat := fun h => hab (BitVec.eq_of_toNat_eq h)
  unfold WordAligned at ha hb
  have h1 := a.isLt
  have h2 := b.isLt
  rw [BitVec.toNat_sub, BitVec.toNat_add, BitVec.toNat_ofNat]
  omega

/-- The bytes of a word. -/
theorem bytes_append (v : BitVec 32) :
    v.extractLsb' 24 8 ++ v.extractLsb' 16 8 ++ v.extractLsb' 8 8 ++ v.extractLsb' 0 8 = v := by
  have h1 : v.extractLsb' 24 8 ++ v.extractLsb' 16 8 = v.extractLsb' 16 16 :=
    BitVec.extractLsb'_append_extractLsb'_eq_extractLsb' rfl
  have h2 : v.extractLsb' 16 16 ++ v.extractLsb' 8 8 = v.extractLsb' 8 24 :=
    BitVec.extractLsb'_append_extractLsb'_eq_extractLsb' rfl
  have h3 : v.extractLsb' 8 24 ++ v.extractLsb' 0 8 = v.extractLsb' 0 32 :=
    BitVec.extractLsb'_append_extractLsb'_eq_extractLsb' rfl
  rw [h1, h2, h3]
  exact BitVec.extractLsb'_eq_self

/-- A word is read back. -/
theorem read_write_same (a : BitVec 25) (v : BitVec 32) (mem : ByteMem) :
    LoadKind.lw.read (StoreKind.sw.write a v mem) a = v := by
  have hbyte : ∀ k, k < 4 → StoreKind.sw.write a v mem (a + BitVec.ofNat 25 k) =
      v.extractLsb' (8 * k) 8 := by
    intro k hk
    have hdiff : (a + BitVec.ofNat 25 k - a).toNat = k := by
      rw [BitVec.add_comm, BitVec.add_sub_cancel, BitVec.toNat_ofNat]
      omega
    rw [StoreKind.write, hdiff, if_pos (show k < StoreKind.sw.size from hk)]
  have h0 := hbyte 0 (by decide)
  rw [BitVec.add_zero] at h0
  rw [LoadKind.read, hbyte 3 (by decide), hbyte 2 (by decide), hbyte 1 (by decide), h0]
  exact bytes_append v

/-- Memories with the same bytes in a word. -/
theorem read_congr {mem mem' : ByteMem} {a : BitVec 25}
    (h : ∀ k, k < 4 → mem' (a + BitVec.ofNat 25 k) = mem (a + BitVec.ofNat 25 k)) :
    LoadKind.lw.read mem' a = LoadKind.lw.read mem a := by
  have h0 := h 0 (by decide)
  rw [BitVec.add_zero] at h0
  rw [LoadKind.read, LoadKind.read, h 3 (by decide), h 2 (by decide), h 1 (by decide), h0]

/-- A write leaves the other words. -/
theorem read_write_other {a b : BitVec 25} (ha : WordAligned a) (hb : WordAligned b) (hab : a ≠ b)
    (v : BitVec 32) (mem : ByteMem) :
    LoadKind.lw.read (StoreKind.sw.write a v mem) b = LoadKind.lw.read mem b :=
  read_congr fun _ hk => if_neg (not_in_word ha hb hab hk)

/-! ## Saved registers -/

/-- A property of the entries of a table is checked entry by entry. -/
theorem forall_of_all {α : Type*} {l : List α} {p : α → Prop} [DecidablePred p]
    (h : l.all (fun x => decide (p x)) = true) : ∀ x ∈ l, p x := by
  simpa using h

/-- The memory after the registers of a list have been stored at their offsets from {lit}`b`. -/
def saveAll (b : BitVec 32) (regs : Regs) : List (BitVec 5 × BitVec 32) → ByteMem → ByteMem
  | [], mem => mem
  | p :: l, mem => saveAll b regs l (StoreKind.sw.write (memAddr (b + p.2)) (regs p.1) mem)

/-- The registers after those of a list have been loaded from their offsets from {lit}`b`. -/
def loadAll (b : BitVec 32) (mem : ByteMem) : List (BitVec 5 × BitVec 32) → Regs → Regs
  | [], regs => regs
  | p :: l, regs => loadAll b mem l (regs.write p.1 (LoadKind.lw.read mem (memAddr (b + p.2))))

/-- The words at the offsets of a list from {lit}`b`. -/
def frameAddrs (b : BitVec 32) (l : List (BitVec 5 × BitVec 32)) : List (BitVec 25) :=
  l.map fun p => memAddr (b + p.2)

variable {b : BitVec 32} {regs : Regs} {mem : ByteMem} {l : List (BitVec 5 × BitVec 32)}
  {a : BitVec 25}

/-- The words outside of the list stay. -/
theorem read_saveAll_of_not_mem (hl : ∀ x ∈ frameAddrs b l, WordAligned x) (ha : WordAligned a)
    (hx : a ∉ frameAddrs b l) :
    LoadKind.lw.read (saveAll b regs l mem) a = LoadKind.lw.read mem a := by
  induction l generalizing mem with
  | nil => rfl
  | cons p l ih =>
      rw [frameAddrs, List.map_cons, List.forall_mem_cons] at hl
      rw [frameAddrs, List.map_cons, List.mem_cons, not_or] at hx
      rw [saveAll, ih hl.2 hx.2, read_write_other hl.1 ha (Ne.symm hx.1)]

/-- What is saved can be read back. -/
theorem read_saveAll (hl : ∀ x ∈ frameAddrs b l, WordAligned x) (hnodup : (frameAddrs b l).Nodup)
    {p : BitVec 5 × BitVec 32} (hp : p ∈ l) :
    LoadKind.lw.read (saveAll b regs l mem) (memAddr (b + p.2)) = regs p.1 := by
  induction l generalizing mem with
  | nil => cases hp
  | cons q l ih =>
      rw [frameAddrs, List.map_cons, List.forall_mem_cons] at hl
      rw [frameAddrs, List.map_cons, List.nodup_cons] at hnodup
      rcases List.mem_cons.mp hp with rfl | hp
      · rw [saveAll, read_saveAll_of_not_mem hl.2 hl.1 hnodup.1, read_write_same]
      · rw [saveAll]
        exact ih hl.2 hnodup.2 hp

/-- Bytes outside of the words stay. -/
theorem saveAll_of_outside (h : ∀ x ∈ frameAddrs b l, ¬(a - x).toNat < 4) :
    saveAll b regs l mem a = mem a := by
  induction l generalizing mem with
  | nil => rfl
  | cons p l ih =>
      rw [frameAddrs, List.map_cons, List.forall_mem_cons] at h
      rw [saveAll, ih h.2]
      exact if_neg h.1

/-- The registers of the list get the values that stand in memory. -/
theorem loadAll_apply {v : Regs}
    (h : ∀ p ∈ l, LoadKind.lw.read mem (memAddr (b + p.2)) = v p.1) (r : BitVec 5) :
    loadAll b mem l regs r = if r ∈ l.map Prod.fst ∧ r ≠ 0#5 then v r else regs r := by
  induction l generalizing regs with
  | nil => rfl
  | cons p l ih =>
      rw [List.forall_mem_cons] at h
      rw [loadAll, ih h.2, h.1, Regs.write]
      simp only [List.map_cons, List.mem_cons]
      by_cases h0 : r = 0#5
      · rw [if_neg fun h => h.2 h0, if_neg fun h => h.2 h0, if_neg fun h => h.2 h0]
      by_cases hr : r ∈ l.map Prod.fst
      · rw [if_pos ⟨hr, h0⟩, if_pos ⟨.inr hr, h0⟩]
      rw [if_neg fun h => hr h.1]
      by_cases hp : r = p.1
      · rw [if_pos ⟨hp, h0⟩, if_pos ⟨.inl hp, h0⟩, hp]
      · rw [if_neg fun h => hp h.1, if_neg fun h => h.1.elim hp hr]

/-- The word of an aligned address. -/
theorem wordAligned_memAddr {addr : BitVec 32} (h : NaturallyAligned addr 4) :
    WordAligned (memAddr addr) := by
  unfold NaturallyAligned at h
  unfold WordAligned memAddr
  rw [BitVec.extractLsb'_toNat, Nat.shiftRight_zero]
  omega

/-! ## Straight-line code -/

/-- The code {lit}`l` stands in the program memory from {lit}`pc` on. -/
def Holds (imem : BitVec 32 → BitVec 32) : BitVec 32 → List SysInstruction → Prop
  | _, [] => True
  | pc, ins :: l =>
      isFenceI (imem pc) = false ∧ SysInstruction.EncodedBy (imem pc) ins ∧
        Holds imem (pc + 4#32) l

namespace SysMachine

/-- The machine gets from {lit}`m` to {lit}`m'` without an interrupt. -/
def Runs (imem : BitVec 32 → BitVec 32) (m m' : SysMachine) : Prop :=
  ∃ l, After imem m l m' ∧ ∀ vec, SysEvent.interrupted vec ∉ l

/-- What the interrupt system relies on is not changed. -/
structure KeepsCsrs (m m' : SysMachine) : Prop where
  pcSave : m'.pcSave = m.pcSave
  ivector : (m'.posted .ivector).value = (m.posted .ivector).value
  age : (m.posted .ivector).age ≤ (m'.posted .ivector).age

variable {imem : BitVec 32 → BitVec 32} {m m₀ m₁ m₂ : SysMachine} {ins : SysInstruction}
  {rest : List SysInstruction} {e : SysEvent} {base r rd : BitVec 5} {off imm : BitVec 32}

/-- No step. -/
theorem Runs.refl (imem : BitVec 32 → BitVec 32) (m : SysMachine) : Runs imem m m :=
  ⟨[], .nil, fun _ => List.not_mem_nil⟩

/-- One more instruction of the code. -/
theorem Runs.step (h : Runs imem m m₁) (hcode : Holds imem m₁.rv.pc (ins :: rest))
    (he : ∀ vec, e ≠ .interrupted vec) (hexec : m₁.exec m₁.rv.pc ins e = some m₂) :
    Runs imem m m₂ := by
  obtain ⟨l, hl, hno⟩ := h
  refine ⟨l ++ [e], hl.snoc ⟨_, ins, ⟨.refl _, hcode.1⟩, hcode.2.1, hexec⟩, fun vec hv => ?_⟩
  rcases List.mem_append.mp hv with hv | hv
  · exact hno vec hv
  · exact he vec (List.mem_singleton.mp hv).symm

/-- Runs in a row. -/
theorem Runs.trans (h : Runs imem m m₁) (h' : Runs imem m₁ m₂) : Runs imem m m₂ := by
  obtain ⟨l, hl, hno⟩ := h
  obtain ⟨l', hl', hno'⟩ := h'
  refine ⟨l ++ l', hl.append hl', fun vec hv => ?_⟩
  exact (List.mem_append.mp hv).elim (hno vec) (hno' vec)

/-- Nothing happens to the CSR registers. -/
theorem KeepsCsrs.refl (m : SysMachine) : KeepsCsrs m m := ⟨rfl, rfl, le_rfl⟩

/-- Steps that keep the CSR registers. -/
theorem KeepsCsrs.trans (h : KeepsCsrs m m₁) (h' : KeepsCsrs m₁ m₂) : KeepsCsrs m m₂ :=
  ⟨h'.pcSave.trans h.pcSave, h'.ivector.trans h.ivector, h.age.trans h'.age⟩

/-- Plain instructions keep the CSR registers. -/
theorem keepsCsrs_advance (m : SysMachine) (rv : RvMachine) (n : ℕ) :
    KeepsCsrs m (m.advance rv n) :=
  ⟨rfl, rfl, Nat.le_add_right _ n⟩

/-- The machine executes {lit}`sw`. -/
theorem exec_sw (h : NaturallyAligned (m.rv.regs base + off) 4) :
    m.exec m.rv.pc (.plain (.base (.store .sw base r off))) .done =
      some (m.advance ⟨m.rv.pc + 4#32, m.rv.regs,
        StoreKind.sw.write (memAddr (m.rv.regs base + off)) (m.rv.regs r) m.rv.mem⟩ 2) := by
  rw [exec, RvMachine.exec]
  exact congrArg (Option.map _) (if_pos h)

/-- The machine executes {lit}`lw`. -/
theorem exec_lw (h : NaturallyAligned (m.rv.regs base + off) 4) :
    m.exec m.rv.pc (.plain (.base (.load .lw rd base off))) .done =
      some (m.advance ⟨m.rv.pc + 4#32, m.rv.regs.write rd
        (LoadKind.lw.read m.rv.mem (memAddr (m.rv.regs base + off))), m.rv.mem⟩ 2) := by
  rw [exec, RvMachine.exec]
  exact congrArg (Option.map _) (if_pos h)

/-- The machine executes {lit}`addi`. -/
theorem exec_addi : m.exec m.rv.pc (.plain (.base (.opImm .add rd r imm))) .done =
    some (m.advance ⟨m.rv.pc + 4#32, m.rv.regs.write rd (m.rv.regs r + imm), m.rv.mem⟩ 1) := by
  rw [exec, RvMachine.exec]
  exact congrArg (Option.map _) (if_pos trivial)

/-- The machine executes {lit}`jal`. -/
theorem exec_jal : m.exec m.rv.pc (.plain (.base (.jal rd off))) .done =
    some (m.advance ⟨m.rv.pc + off, m.rv.regs.write rd (m.rv.pc + 4#32), m.rv.mem⟩ 1) := by
  rw [exec, RvMachine.exec]
  exact congrArg (Option.map _) (if_pos trivial)

/-- Stores of registers at offsets from a base register. -/
def saves (base : BitVec 5) (l : List (BitVec 5 × BitVec 32)) : List SysInstruction :=
  l.map fun p => .plain (.base (.store .sw base p.1 p.2))

/-- Loads of registers from offsets from a base register. -/
def restores (base : BitVec 5) (l : List (BitVec 5 × BitVec 32)) : List SysInstruction :=
  l.map fun p => .plain (.base (.load .lw p.1 base p.2))

variable {l : List (BitVec 5 × BitVec 32)}

/-- A block of saves. -/
theorem Runs.saves (h : Runs imem m m₁) (hcode : Holds imem m₁.rv.pc (saves base l ++ rest))
    (hal : ∀ p ∈ l, NaturallyAligned (m₁.rv.regs base + p.2) 4) :
    ∃ m₂, Runs imem m m₂ ∧ m₂.rv.pc = m₁.rv.pc + BitVec.ofNat 32 (4 * l.length) ∧
      Holds imem m₂.rv.pc rest ∧ KeepsCsrs m₁ m₂ ∧ m₂.rv.regs = m₁.rv.regs ∧
      m₂.rv.mem = saveAll (m₁.rv.regs base) m₁.rv.regs l m₁.rv.mem := by
  induction l generalizing m₁ with
  | nil => exact ⟨m₁, h, (BitVec.add_zero _).symm, hcode, .refl m₁, rfl, rfl⟩
  | cons p l ih =>
      rw [List.forall_mem_cons] at hal
      have hstep := h.step hcode (fun _ => SysEvent.noConfusion) (exec_sw hal.1)
      obtain ⟨m₂, hrun, hpc, hrest, hcsrs, hregs, hmem⟩ := ih hstep hcode.2.2 hal.2
      refine ⟨m₂, hrun, ?_, hrest, (keepsCsrs_advance m₁ _ _).trans hcsrs, hregs, hmem⟩
      rw [hpc]
      change m₁.rv.pc + 4#32 + _ = _
      rw [BitVec.add_assoc, List.length_cons, Nat.mul_succ, Nat.add_comm _ 4, BitVec.ofNat_add]

/-- A block of restores. -/
theorem Runs.restores (h : Runs imem m m₁)
    (hcode : Holds imem m₁.rv.pc (restores base l ++ rest))
    (hal : ∀ p ∈ l, NaturallyAligned (m₁.rv.regs base + p.2) 4) (hbase : ∀ p ∈ l, base ≠ p.1) :
    ∃ m₂, Runs imem m m₂ ∧ Holds imem m₂.rv.pc rest ∧ KeepsCsrs m₁ m₂ ∧
      m₂.rv.regs = loadAll (m₁.rv.regs base) m₁.rv.mem l m₁.rv.regs ∧
      m₂.rv.mem = m₁.rv.mem := by
  induction l generalizing m₁ with
  | nil => exact ⟨m₁, h, hcode, .refl m₁, rfl, rfl⟩
  | cons p l ih =>
      rw [List.forall_mem_cons] at hal hbase
      have hstep := h.step hcode (fun _ => SysEvent.noConfusion) (exec_lw hal.1)
      have hkeep : (m₁.rv.regs.write p.1 (LoadKind.lw.read m₁.rv.mem
          (memAddr (m₁.rv.regs base + p.2)))) base = m₁.rv.regs base :=
        if_neg fun hb => hbase.1 hb.1
      obtain ⟨m₂, hrun, hrest, hcsrs, hregs, hmem⟩ := ih hstep hcode.2.2 (by
        intro q hq
        change NaturallyAligned (m₁.rv.regs.write _ _ base + _) 4
        rw [hkeep]
        exact hal.2 q hq) hbase.2
      refine ⟨m₂, hrun, hrest, (keepsCsrs_advance m₁ _ _).trans hcsrs, ?_, hmem⟩
      rw [hregs]
      change loadAll (m₁.rv.regs.write _ _ base) _ _ _ = _
      rw [hkeep]
      rfl

end SysMachine

end Rv32

open Rv32 Rv32.SysMachine

/-! ## The code -/

namespace InterruptEntry

/-- The registers that are saved behind {lit}`a0` in the first words of the memory. -/
def scratch : List (BitVec 5 × BitVec 32) := [(2#5, 4#32), (1#5, 8#32)]

/-- The registers that are saved on the stack of the interrupted program. -/
def frame : List (BitVec 5 × BitVec 32) :=
  [(5#5, -4#32), (6#5, -8#32), (7#5, -12#32), (11#5, -16#32), (12#5, -20#32), (13#5, -24#32),
    (14#5, -28#32), (15#5, -32#32), (16#5, -36#32), (17#5, -40#32), (28#5, -44#32),
    (29#5, -48#32), (30#5, -52#32), (31#5, -56#32)]

/-- The entry of a vector: {lit}`ivec_timer`, {lit}`ivec_uart_tx` and {lit}`ivec_uart_rx`. -/
def ivec (id off : BitVec 32) : List SysInstruction :=
  saves 0#5 [(10#5, 0#32)] ++
    [.plain (.base (.opImm .add 10#5 0#5 id)), .plain (.base (.jal 0#5 off))]

/-- The code of {lit}`asm_handle_interrupt` in front of the call. -/
def asmHandleInterrupt : List SysInstruction :=
  saves 0#5 scratch ++ (saves 2#5 frame ++ [.plain (.base (.opImm .add 2#5 2#5 (-64#32)))])

/-- The code of {lit}`intr_return`. -/
def intrReturn : List SysInstruction :=
  restores 0#5 scratch ++
    [.csr .rs 10#5 (.imm 0#5) csrRegCtxPcsave, .csr .rw 0#5 (.reg 10#5) csrRegCtxPcswitch,
      .plain (.base (.load .lw 10#5 0#5 0#32)), .switch]

/-- The code of {lit}`asm_handle_interrupt` behind the call. -/
def afterCall : List SysInstruction :=
  .plain (.base (.opImm .add 2#5 2#5 64#32)) :: (restores 2#5 frame ++ intrReturn)

/-- The registers that a C function leaves as they are. -/
def calleeSaved : List (BitVec 5) :=
  [0#5, 2#5, 3#5, 4#5, 8#5, 9#5, 18#5, 19#5, 20#5, 21#5, 22#5, 23#5, 24#5, 25#5, 26#5, 27#5]

/-- Every register is saved by the code or by the C function. -/
theorem register_cases : ∀ r : BitVec 5, r = 10#5 ∨ r ∈ scratch.map Prod.fst ∨
    r ∈ frame.map Prod.fst ∨ r ∈ calleeSaved := by
  decide

/-- The stack pointer of the interrupted program has room below it. -/
structure StackOk (sp : BitVec 32) : Prop where
  aligned : sp.toNat % 4 = 0
  room : 68 ≤ sp.toNat
  top : sp.toNat ≤ 2 ^ 25

/-- Addresses add up on the bus. -/
theorem memAddr_add (x y : BitVec 32) : memAddr (x + y) = memAddr x + memAddr y := by
  apply BitVec.eq_of_toNat_eq
  simp only [memAddr, BitVec.extractLsb'_toNat, BitVec.toNat_add, Nat.shiftRight_zero]
  omega

/-- The offsets of the frame are multiples of four below the stack pointer. -/
theorem frame_offsets : ∀ p ∈ frame, p.2.toNat % 4 = 0 ∧ 2 ^ 32 - 56 ≤ p.2.toNat :=
  forall_of_all (by decide)

namespace StackOk

variable {sp : BitVec 32} (h : StackOk sp)

include h

/-- The words of the frame are aligned. -/
theorem frame_aligned : ∀ p ∈ frame, NaturallyAligned (sp + p.2) 4 := by
  intro p hp
  have haligned := h.aligned
  have hoff := (frame_offsets p hp).1
  unfold NaturallyAligned
  rw [BitVec.toNat_add]
  omega

/-- So are their addresses. -/
theorem frameAddrs_aligned : ∀ x ∈ frameAddrs sp frame, WordAligned x := by
  intro x hx
  obtain ⟨p, hp, rfl⟩ := List.mem_map.mp hx
  exact wordAligned_memAddr (h.frame_aligned p hp)

/-- The frame is apart from the first words of the memory. -/
theorem le_of_mem_frameAddrs {x : BitVec 25} (hx : x ∈ frameAddrs sp frame) : 12 ≤ x.toNat := by
  obtain ⟨p, hp, rfl⟩ := List.mem_map.mp hx
  have hoff := (frame_offsets p hp).2
  have hroom := h.room
  have htop := h.top
  have hlt := p.2.isLt
  unfold memAddr
  rw [BitVec.extractLsb'_toNat, Nat.shiftRight_zero, BitVec.toNat_add]
  omega

end StackOk

/-- The words of the frame are different. -/
theorem frameAddrs_nodup (sp : BitVec 32) : (frameAddrs sp frame).Nodup := by
  refine List.Nodup.map_on (fun p hp q hq heq => ?_) (by decide)
  rw [memAddr_add, memAddr_add] at heq
  have hinj : (frame.all fun p => frame.all fun q =>
      decide (memAddr p.2 = memAddr q.2 → p = q)) = true := by decide
  simp only [List.all_eq_true, decide_eq_true_eq] at hinj
  exact hinj p hp q hq (by bv_omega)

/-! ## Saved registers -/

/-- The saved registers {lit}`regs` stand in memory. -/
structure Saved (regs : Regs) (mem : ByteMem) : Prop where
  a0 : LoadKind.lw.read mem 0#25 = regs 10#5
  scratch : ∀ p ∈ scratch, LoadKind.lw.read mem (memAddr (0#32 + p.2)) = regs p.1
  frame : ∀ p ∈ frame, LoadKind.lw.read mem (memAddr (regs 2#5 + p.2)) = regs p.1

/-- The memory in front of the call. -/
def savedMem (regs : Regs) (id : BitVec 32) (mem : ByteMem) : ByteMem :=
  saveAll (regs 2#5) (regs.write 10#5 id) frame
    (saveAll 0#32 (regs.write 10#5 id) scratch (saveAll 0#32 regs [(10#5, 0#32)] mem))

variable {regs : Regs} {id : BitVec 32} {mem mem' : ByteMem}

/-- The code in front of the call saves the registers. -/
theorem saved_savedMem (hsp : StackOk (regs 2#5)) : Saved regs (savedMem regs id mem) := by
  have hout : ∀ x : BitVec 25, x.toNat < 12 → x ∉ frameAddrs (regs 2#5) frame := by
    intro x hx hmem
    have := hsp.le_of_mem_frameAddrs hmem
    omega
  have hscratch : ∀ x ∈ frameAddrs 0#32 scratch, WordAligned x := by
    simp [frameAddrs, scratch, memAddr, WordAligned]
  refine ⟨?_, fun p hp => ?_, fun p hp => ?_⟩
  · rw [savedMem, read_saveAll_of_not_mem hsp.frameAddrs_aligned (by decide) (hout _ (by decide)),
      read_saveAll_of_not_mem hscratch (by decide) (by decide)]
    exact read_write_same _ _ _
  · have hlow : ∀ p ∈ scratch, WordAligned (memAddr (0#32 + p.2)) ∧
        (memAddr (0#32 + p.2)).toNat < 12 ∧ p.1 ≠ 10#5 := by
      simp [InterruptEntry.scratch, memAddr, WordAligned]
    obtain ⟨h1, h2, h3⟩ := hlow p hp
    rw [savedMem, read_saveAll_of_not_mem hsp.frameAddrs_aligned h1 (hout _ h2),
      read_saveAll hscratch (by decide) hp]
    exact if_neg fun h => h3 h.1
  · have hother : ∀ p ∈ frame, p.1 ≠ 10#5 := forall_of_all (by decide)
    rw [savedMem, read_saveAll hsp.frameAddrs_aligned (frameAddrs_nodup _) hp]
    exact if_neg fun h => hother p hp h.1

/-- The code in front of the call writes the first three words and the frame. -/
theorem savedMem_of_outside {x : BitVec 25} (hlow : 12 ≤ x.toNat)
    (hframe : ∀ y ∈ frameAddrs (regs 2#5) frame, ¬(x - y).toNat < 4) :
    savedMem regs id mem x = mem x := by
  have hword : ∀ y : BitVec 25, y.toNat ≤ 8 → ¬(x - y).toNat < 4 := by
    intro y hy
    have hx := x.isLt
    rw [BitVec.toNat_sub]
    omega
  have hscratch : ∀ y ∈ frameAddrs 0#32 scratch, y.toNat ≤ 8 := by
    simp [frameAddrs, scratch, memAddr]
  have ha0 : ∀ y ∈ frameAddrs 0#32 [(10#5, 0#32)], y.toNat ≤ 8 := by
    simp [frameAddrs, memAddr]
  rw [savedMem, saveAll_of_outside hframe,
    saveAll_of_outside fun y hy => hword y (hscratch y hy),
    saveAll_of_outside fun y hy => hword y (ha0 y hy)]

/-- What a C function must leave: the first words and the stack above its own. -/
def Above (sp : BitVec 32) (x : BitVec 25) : Prop :=
  x.toNat < 12 ∨ (x - memAddr sp).toNat < 64

/-- The saved registers outlast the C function. -/
theorem Saved.congr (h : Saved regs mem)
    (hmem : ∀ x, Above (regs 2#5 + -64#32) x → mem' x = mem x) : Saved regs mem' := by
  have hlow : ∀ a : BitVec 25, a.toNat ≤ 8 →
      LoadKind.lw.read mem' a = LoadKind.lw.read mem a := by
    intro a ha
    refine read_congr fun k hk => hmem _ (.inl ?_)
    rw [BitVec.toNat_add, BitVec.toNat_ofNat]
    omega
  refine ⟨(hlow _ (by decide)).trans h.a0, fun p hp => ?_, fun p hp => ?_⟩
  · have hscratch : ∀ p ∈ InterruptEntry.scratch, (memAddr (0#32 + p.2)).toNat ≤ 8 := by
      simp [InterruptEntry.scratch, memAddr]
    exact (hlow _ (hscratch p hp)).trans (h.scratch p hp)
  · have hoff : ∀ p ∈ InterruptEntry.frame, ∀ k < 4,
        (memAddr p.2 + BitVec.ofNat 25 k - memAddr (-64#32)).toNat < 64 :=
      forall_of_all (by decide)
    rw [← h.frame p hp]
    refine read_congr fun k hk => hmem _ (.inr ?_)
    have hdiff : memAddr (regs 2#5 + p.2) + BitVec.ofNat 25 k - memAddr (regs 2#5 + -64#32) =
        memAddr p.2 + BitVec.ofNat 25 k - memAddr (-64#32) := by
      rw [memAddr_add, memAddr_add]
      bv_omega
    rw [hdiff]
    exact hoff p hp k hk

/-! ## The runs -/

variable {imem : BitVec 32 → BitVec 32} {m m' m₁ : SysMachine} {asm off : BitVec 32}

/-- The entry of a vector. -/
theorem enter_ivec (hcode : Holds imem m.rv.pc (ivec id off)) (hzero : m.rv.regs 0#5 = 0#32) :
    ∃ m', Runs imem m m' ∧ m'.rv.pc = m.rv.pc + 8#32 + off ∧ KeepsCsrs m m' ∧
      m'.rv.regs = m.rv.regs.write 10#5 id ∧
      m'.rv.mem = saveAll 0#32 m.rv.regs [(10#5, 0#32)] m.rv.mem := by
  obtain ⟨m₁, hrun, hpc, hrest, hcsrs, hregs, hmem⟩ :=
    (Runs.refl imem m).saves hcode (by rw [hzero]; exact forall_of_all (by decide))
  rw [hzero] at hmem
  have hrun₂ := hrun.step hrest (fun _ => SysEvent.noConfusion) exec_addi
  have hrun₃ := hrun₂.step hrest.2.2 (fun _ => SysEvent.noConfusion) exec_jal
  refine ⟨_, hrun₃, ?_, hcsrs.trans ((keepsCsrs_advance _ _ 1).trans (keepsCsrs_advance _ _ 1)),
    ?_, hmem⟩
  · change m₁.rv.pc + 4#32 + off = _
    rw [hpc, BitVec.add_assoc m.rv.pc]
    rfl
  · change (m₁.rv.regs.write 10#5 (m₁.rv.regs 0#5 + id)).write 0#5 _ = _
    rw [RvMachine.write_to_zero, hregs, hzero, BitVec.zero_add]

/-- From {lit}`asm_handle_interrupt` to the call. -/
theorem enter_save (hcode : Holds imem m.rv.pc asmHandleInterrupt) (hzero : m.rv.regs 0#5 = 0#32)
    (hsp : StackOk (m.rv.regs 2#5)) :
    ∃ m', Runs imem m m' ∧ m'.rv.pc = m.rv.pc + 68#32 ∧ KeepsCsrs m m' ∧
      m'.rv.regs = m.rv.regs.write 2#5 (m.rv.regs 2#5 + -64#32) ∧
      m'.rv.mem = saveAll (m.rv.regs 2#5) m.rv.regs frame
        (saveAll 0#32 m.rv.regs scratch m.rv.mem) := by
  obtain ⟨m₁, hrun₁, hpc₁, hrest₁, hcsrs₁, hregs₁, hmem₁⟩ :=
    (Runs.refl imem m).saves hcode (by rw [hzero]; exact forall_of_all (by decide))
  obtain ⟨m₂, hrun₂, hpc₂, hrest₂, hcsrs₂, hregs₂, hmem₂⟩ :=
    hrun₁.saves hrest₁ (by rw [hregs₁]; exact hsp.frame_aligned)
  have hrun₃ := hrun₂.step hrest₂ (fun _ => SysEvent.noConfusion) exec_addi
  refine ⟨_, hrun₃, ?_, hcsrs₁.trans (hcsrs₂.trans (keepsCsrs_advance _ _ 1)), ?_, ?_⟩
  · change m₂.rv.pc + 4#32 = _
    rw [hpc₂, hpc₁, BitVec.add_assoc, BitVec.add_assoc]
    rfl
  · change m₂.rv.regs.write 2#5 (m₂.rv.regs 2#5 + -64#32) = _
    rw [hregs₂, hregs₁]
  · change m₂.rv.mem = _
    rw [hmem₂, hregs₁, hmem₁, hzero]

/-- From the vector to the call. -/
theorem enter (hivec : Holds imem m.rv.pc (ivec id off)) (hjump : m.rv.pc + 8#32 + off = asm)
    (hasm : Holds imem asm asmHandleInterrupt) (hzero : m.rv.regs 0#5 = 0#32)
    (hsp : StackOk (m.rv.regs 2#5)) :
    ∃ m', Runs imem m m' ∧ m'.rv.pc = asm + 68#32 ∧ KeepsCsrs m m' ∧
      m'.rv.regs = (m.rv.regs.write 10#5 id).write 2#5 (m.rv.regs 2#5 + -64#32) ∧
      m'.rv.mem = savedMem m.rv.regs id m.rv.mem := by
  obtain ⟨m₁, hrun₁, hpc₁, hcsrs₁, hregs₁, hmem₁⟩ := enter_ivec hivec hzero
  rw [hjump] at hpc₁
  have hsp₁ : m₁.rv.regs 2#5 = m.rv.regs 2#5 := by rw [hregs₁]; rfl
  rw [← hpc₁] at hasm
  obtain ⟨m₂, hrun₂, hpc₂, hcsrs₂, hregs₂, hmem₂⟩ :=
    enter_save hasm (by rw [hregs₁]; exact hzero) (by rwa [hsp₁])
  refine ⟨m₂, hrun₁.trans hrun₂, by rw [hpc₂, hpc₁], hcsrs₁.trans hcsrs₂, ?_, ?_⟩
  · rw [hregs₂, hsp₁, hregs₁]
  · rw [hmem₂, hsp₁, hregs₁, hmem₁]
    rfl

/-- The last four instructions of {lit}`intr_return`. -/
theorem leave_switch (hcode : Holds imem m.rv.pc
      [.csr .rs 10#5 (.imm 0#5) csrRegCtxPcsave, .csr .rw 0#5 (.reg 10#5) csrRegCtxPcswitch,
        .plain (.base (.load .lw 10#5 0#5 0#32)), .switch])
    (hzero : m.rv.regs 0#5 = 0#32) (v w : BitVec 32) :
    ∃ m', After imem m [.read v, .read w, .done, .done] m' ∧
      m'.rv.pc = m.pcSave ∧ m'.rv.mem = m.rv.mem ∧ KeepsCsrs m m' ∧
      ∀ r, m'.rv.regs r = if r = 10#5 then LoadKind.lw.read m.rv.mem 0#25 else m.rv.regs r := by
  obtain ⟨h1, h1', h2, h2', h3, h3', h4, h4', -⟩ := hcode
  have hA : m.exec m.rv.pc (.csr .rs 10#5 (.imm 0#5) csrRegCtxPcsave) (.read v) =
      some (m.access m.rv.pc .rs 10#5 (.imm 0#5) csrRegCtxPcsave v) := rfl
  set A := m.access m.rv.pc .rs 10#5 (.imm 0#5) csrRegCtxPcsave v with hAdef
  have hAregs : A.rv.regs = m.rv.regs.write 10#5 m.pcSave := rfl
  have hB : A.exec A.rv.pc (.csr .rw 0#5 (.reg 10#5) csrRegCtxPcswitch) (.read w) =
      some (A.access A.rv.pc .rw 0#5 (.reg 10#5) csrRegCtxPcswitch w) := rfl
  set B := A.access A.rv.pc .rw 0#5 (.reg 10#5) csrRegCtxPcswitch w with hBdef
  have hBregs : B.rv.regs = m.rv.regs.write 10#5 m.pcSave := by
    rw [← hAregs]
    exact RvMachine.write_to_zero _ _
  have hBzero : B.rv.regs 0#5 = 0#32 := by
    rw [hBregs]
    exact hzero
  have hC := @exec_lw B 0#5 10#5 0#32 (by rw [hBzero]; decide)
  set C := B.advance ⟨B.rv.pc + 4#32, B.rv.regs.write 10#5
    (LoadKind.lw.read B.rv.mem (memAddr (B.rv.regs 0#5 + 0#32))), B.rv.mem⟩ 2 with hCdef
  have hCposted : C.posted .pcSwitch = ⟨m.pcSave, 5⟩ := rfl
  have hD : C.exec C.rv.pc .switch .done = some (C.advance { C.rv with pc := m.pcSave } 1) := by
    rw [SysMachine.exec, hCposted]
    exact if_pos (show 5 ≤ 5 from le_rfl)
  refine ⟨C.advance { C.rv with pc := m.pcSave } 1, ?_, rfl, rfl, ?_, fun r => ?_⟩
  · exact (((After.nil.snoc ⟨_, _, ⟨.refl _, h1⟩, h1', hA⟩).snoc
      ⟨_, _, ⟨.refl _, h2⟩, h2', hB⟩).snoc ⟨_, _, ⟨.refl _, h3⟩, h3', hC⟩).snoc
      ⟨_, _, ⟨.refl _, h4⟩, h4', hD⟩
  · exact ⟨rfl, rfl, Nat.le_add_right _ (3 + 3 + 2 + 1)⟩
  · change B.rv.regs.write 10#5 (LoadKind.lw.read B.rv.mem (memAddr (B.rv.regs 0#5 + 0#32))) r = _
    rw [hBzero, hBregs]
    by_cases hr : r = 10#5
    · subst hr
      rfl
    · rw [if_neg hr, Regs.write, if_neg fun h => hr h.1, Regs.write, if_neg fun h => hr h.1]

/-- From {lit}`intr_return` back to the interrupted program. -/
theorem leave_return (hcode : Holds imem m.rv.pc intrReturn)
    (hzero : m.rv.regs 0#5 = 0#32) (hsaved : Saved regs m.rv.mem)
    (hregs : ∀ r, r ≠ 10#5 → r ∉ scratch.map Prod.fst → m.rv.regs r = regs r) :
    ∃ m₁, Runs imem m m₁ ∧ ∀ v w, ∃ m', After imem m₁ [.read v, .read w, .done, .done] m' ∧
      m'.rv = ⟨m.pcSave, regs, m.rv.mem⟩ ∧ KeepsCsrs m m' := by
  obtain ⟨m₁, hrun, hrest, hcsrs, hregs₁, hmem⟩ :=
    (Runs.refl imem m).restores hcode (by rw [hzero]; exact forall_of_all (by decide))
      (forall_of_all (by decide))
  rw [hzero] at hregs₁
  have hload := @loadAll_apply 0#32 m.rv.regs m.rv.mem scratch regs hsaved.scratch
  have hzero₁ : m₁.rv.regs 0#5 = 0#32 := by
    rw [hregs₁, hload, if_neg (by decide), hzero]
  refine ⟨m₁, hrun, fun v w => ?_⟩
  obtain ⟨m₂, hafter, hpc, hmem₂, hcsrs₂, hregs₂⟩ := leave_switch hrest hzero₁ v w
  refine ⟨m₂, hafter, ?_, hcsrs.trans hcsrs₂⟩
  have hall : m₂.rv.regs = regs := by
    funext r
    rw [hregs₂, hmem, hsaved.a0, hregs₁, hload]
    by_cases h10 : r = 10#5
    · rw [if_pos h10, h10]
    rw [if_neg h10]
    by_cases hs : r ∈ scratch.map Prod.fst
    · have h0 : ∀ r ∈ scratch.map Prod.fst, r ≠ 0#5 := by decide
      rw [if_pos ⟨hs, h0 r hs⟩]
    · rw [if_neg fun h => hs h.1, hregs r h10 hs]
  calc m₂.rv = ⟨m₂.rv.pc, m₂.rv.regs, m₂.rv.mem⟩ := rfl
    _ = ⟨m.pcSave, regs, m.rv.mem⟩ := by rw [hpc, hall, hmem₂, hmem, hcsrs.pcSave]

/-- Behind the call. -/
theorem leave (hcode : Holds imem m.rv.pc afterCall) (hzero : regs 0#5 = 0#32)
    (hsp : StackOk (regs 2#5)) (hsaved : Saved regs m.rv.mem)
    (hstack : m.rv.regs 2#5 = regs 2#5 + -64#32)
    (hregs : ∀ r ∈ calleeSaved, r ≠ 2#5 → m.rv.regs r = regs r) :
    ∃ m₁, Runs imem m m₁ ∧ ∀ v w, ∃ m', After imem m₁ [.read v, .read w, .done, .done] m' ∧
      m'.rv = ⟨m.pcSave, regs, m.rv.mem⟩ ∧ KeepsCsrs m m' := by
  have hrun₁ := (Runs.refl imem m).step hcode (fun _ => SysEvent.noConfusion) exec_addi
  have hcsrs₁ := keepsCsrs_advance m ⟨m.rv.pc + 4#32,
    m.rv.regs.write 2#5 (m.rv.regs 2#5 + 64#32), m.rv.mem⟩ 1
  have hsp₁ : m.rv.regs.write 2#5 (m.rv.regs 2#5 + 64#32) 2#5 = regs 2#5 := by
    rw [hstack]
    change regs 2#5 + -64#32 + 64#32 = _
    rw [BitVec.add_assoc]
    exact BitVec.add_zero _
  obtain ⟨m₂, hrun₂, hrest₂, hcsrs₂, hregs₂, hmem₂⟩ := hrun₁.restores hcode.2.2 (by
      change ∀ p ∈ frame, NaturallyAligned (m.rv.regs.write _ _ 2#5 + p.2) 4
      rw [hsp₁]
      exact hsp.frame_aligned) (forall_of_all (by decide))
  have hload : ∀ r, m₂.rv.regs r = if r ∈ frame.map Prod.fst ∧ r ≠ 0#5 then regs r
      else m.rv.regs.write 2#5 (m.rv.regs 2#5 + 64#32) r := by
    intro r
    have hvalues := @loadAll_apply (regs 2#5) (m.rv.regs.write 2#5 (m.rv.regs 2#5 + 64#32))
      m.rv.mem frame regs hsaved.frame r
    rw [← hvalues, hregs₂]
    change loadAll (m.rv.regs.write 2#5 (m.rv.regs 2#5 + 64#32) 2#5) m.rv.mem frame
      (m.rv.regs.write 2#5 (m.rv.regs 2#5 + 64#32)) r = _
    rw [hsp₁]
  have hmem : m₂.rv.mem = m.rv.mem := hmem₂
  have hkept : ∀ r, r ≠ 10#5 → r ∉ scratch.map Prod.fst → m₂.rv.regs r = regs r := by
    intro r h10 hs
    rw [hload]
    by_cases hf : r ∈ frame.map Prod.fst
    · have h0 : ∀ r ∈ frame.map Prod.fst, r ≠ 0#5 := by decide
      rw [if_pos ⟨hf, h0 r hf⟩]
    · have h2 : r ≠ 2#5 := fun h => hs (by rw [h]; decide)
      have hc : r ∈ calleeSaved := by
        rcases register_cases r with h | h | h | h
        · exact absurd h h10
        · exact absurd h hs
        · exact absurd h hf
        · exact h
      rw [if_neg fun h => hf h.1, Regs.write, if_neg fun h => h2 h.1, hregs r hc h2]
  have hzero₂ : m₂.rv.regs 0#5 = 0#32 := (hkept 0#5 (by decide) (by decide)).trans hzero
  obtain ⟨m₃, hrun₃, hreturn⟩ := leave_return hrest₂ hzero₂ (hmem ▸ hsaved) hkept
  refine ⟨m₃, hrun₂.trans hrun₃, fun v w => ?_⟩
  obtain ⟨m₄, hafter, hrv, hcsrs₄⟩ := hreturn v w
  refine ⟨m₄, hafter, ?_, (hcsrs₁.trans hcsrs₂).trans hcsrs₄⟩
  rw [hrv, hmem, hcsrs₂.pcSave]
  rfl

/-- What a call of {lit}`handle_interrupt` does, by the calling convention: it comes back with
the registers and the memory that belong to its caller. -/
structure Called (imem : BitVec 32 → BitVec 32) (back : BitVec 32) (m m' : SysMachine) : Prop where
  runs : Runs imem m m'
  pc : m'.rv.pc = back
  csrs : KeepsCsrs m m'
  regs : ∀ r ∈ calleeSaved, m'.rv.regs r = m.rv.regs r
  mem : ∀ x, Above (m.rv.regs 2#5) x → m'.rv.mem x = m.rv.mem x

/-- The code of {lit}`entry.S` in the program memory: the entry of a vector at {lit}`start` that
jumps by {lit}`off`, {lit}`asm_handle_interrupt` at {lit}`asm`, and {lit}`back` behind its
call. -/
structure Code (imem : BitVec 32 → BitVec 32) (start id off asm back : BitVec 32) : Prop where
  ivec : Holds imem start (ivec id off)
  jump : start + 8#32 + off = asm
  asmHandleInterrupt : Holds imem asm asmHandleInterrupt
  afterCall : Holds imem back afterCall

/-- An interrupt changes only where the program goes on. -/
theorem exec_interrupted {pc : BitVec 32} {ins : Instruction} {vec : BitVec 4}
    {m₀ m₁ : SysMachine} (hdone : m.exec pc (.plain ins) .done = some m₀)
    (hintr : m.exec pc (.plain ins) (.interrupted vec) = some m₁) :
    m₁ = { m₀ with
      rv := { m₀.rv with pc := vectorAddr (m.posted .ivector).value vec }
      pcSave := ins.returnPc pc } := by
  simp only [SysMachine.exec] at hdone hintr
  split at hintr
  case isFalse => cases hintr
  case isTrue =>
    obtain ⟨rv, hrv, rfl⟩ := Option.map_eq_some_iff.mp hdone
    rw [hrv] at hintr
    exact (Option.some.inj hintr).symm

end InterruptEntry

open InterruptEntry

/-- Interrupts are transparent.  When an instruction of a program takes an interrupt, the code
of {lit}`entry.S` calls {lit}`handle_interrupt` once, with the number of the interrupt and the
memory of the program; and when the call comes back the program goes on with its own
registers, on the memory that the call has left, whatever the bus shows to the two accesses
to the CSRs. -/
theorem interrupt_transparent {imem : BitVec 32 → BitVec 32} {m m₀ m₁ : SysMachine}
    {pc : BitVec 32} {ins : Instruction} {vec : BitVec 4} {id off asm back : BitVec 32}
    (hdone : m.exec pc (.plain ins) .done = some m₀)
    (hintr : m.exec pc (.plain ins) (.interrupted vec) = some m₁)
    (hcode : Code imem (vectorAddr (m.posted .ivector).value vec) id off asm back)
    (hzero : m₀.rv.regs 0#5 = 0#32) (hsp : StackOk (m₀.rv.regs 2#5)) :
    ∃ mc, Runs imem m₁ mc ∧ mc.rv.pc = asm + 68#32 ∧ mc.rv.regs 10#5 = id ∧
      (∀ x : BitVec 25, 12 ≤ x.toNat →
        (∀ y ∈ frameAddrs (m₀.rv.regs 2#5) frame, ¬(x - y).toNat < 4) →
          mc.rv.mem x = m₀.rv.mem x) ∧
      ∀ mr, Called imem back mc mr → ∃ ms, Runs imem mr ms ∧
        ∀ v w, ∃ m₂, After imem ms [.read v, .read w, .done, .done] m₂ ∧
          m₂.rv = ⟨ins.returnPc pc, m₀.rv.regs, mr.rv.mem⟩ ∧ KeepsCsrs m₁ m₂ := by
  have hm₁ := exec_interrupted hdone hintr
  have hregs₁ : m₁.rv.regs = m₀.rv.regs := by rw [hm₁]
  have hmem₁ : m₁.rv.mem = m₀.rv.mem := by rw [hm₁]
  have hpc₁ : m₁.rv.pc = vectorAddr (m.posted .ivector).value vec := by rw [hm₁]
  have hsave₁ : m₁.pcSave = ins.returnPc pc := by rw [hm₁]
  obtain ⟨hivec, hjump, hasm, hafter⟩ := hcode
  rw [← hpc₁] at hivec hjump
  rw [← hregs₁] at hzero hsp ⊢
  rw [← hmem₁]
  obtain ⟨mc, hrun, hpc, hcsrs, hregs, hmem⟩ := enter hivec hjump hasm hzero hsp
  refine ⟨mc, hrun, hpc, by rw [hregs]; rfl, fun x hx hframe => ?_, fun mr hcall => ?_⟩
  · rw [hmem]
    exact savedMem_of_outside hx hframe
  · have hstack : mc.rv.regs 2#5 = m₁.rv.regs 2#5 + -64#32 := by rw [hregs]; rfl
    have hsaved : Saved m₁.rv.regs mr.rv.mem := by
      refine Saved.congr (hmem ▸ saved_savedMem hsp) fun x hx => hcall.mem x ?_
      rwa [hstack]
    have hkept : ∀ r ∈ calleeSaved, r ≠ 2#5 → mr.rv.regs r = m₁.rv.regs r := by
      have h10 : ∀ r ∈ calleeSaved, r ≠ 10#5 := by decide
      intro r hr h2
      rw [hcall.regs r hr, hregs, Regs.write, if_neg fun h => h2 h.1, Regs.write,
        if_neg fun h => h10 r hr h.1]
    rw [← hcall.pc] at hafter
    obtain ⟨ms, hrunms, hleave⟩ := leave hafter hzero hsp hsaved
      ((hcall.regs 2#5 (by decide)).trans hstack) hkept
    refine ⟨ms, hrunms, fun v w => ?_⟩
    obtain ⟨m₂, hm₂, hrv, hcsrs₂⟩ := hleave v w
    refine ⟨m₂, hm₂, ?_, (hcsrs.trans hcall.csrs).trans hcsrs₂⟩
    rw [hrv, hcall.csrs.pcSave, hcsrs.pcSave, hsave₁]

/-- A program memory: an instruction {lit}`addi x1, x1, 5`, the timer vector, the code of
{lit}`entry.S`, and a handler that returns at once. -/
def entryImage : List (BitVec 32) :=
  [0x00508093#32, 0x00000013#32, 0x00000013#32, 0x00000013#32, 0x00a02023#32, 0x00100513#32,
    0x0080006f#32, 0x00000013#32, 0x00202223#32, 0x00102423#32, 0xfe512e23#32, 0xfe612c23#32,
    0xfe712a23#32, 0xfeb12823#32, 0xfec12623#32, 0xfed12423#32, 0xfee12223#32, 0xfef12023#32,
    0xfd012e23#32, 0xfd112c23#32, 0xfdc12a23#32, 0xfdd12823#32, 0xfde12623#32, 0xfdf12423#32,
    0xfc010113#32, 0x058000ef#32, 0x04010113#32, 0xffc12283#32, 0xff812303#32, 0xff412383#32,
    0xff012583#32, 0xfec12603#32, 0xfe812683#32, 0xfe412703#32, 0xfe012783#32, 0xfdc12803#32,
    0xfd812883#32, 0xfd412e03#32, 0xfd012e83#32, 0xfcc12f03#32, 0xfc812f83#32, 0x00402103#32,
    0x00802083#32, 0xcc006573#32, 0x88051073#32, 0x00002503#32, 0x9c005073#32, 0x00008067#32]

/-- The word at an address of the program memory. -/
def entryWord (pc : BitVec 32) : BitVec 32 := entryImage.getD (pc.toNat / 4) 0#32

/-- The image holds the code of the interrupt entry. -/
theorem code_entryImage : Code entryWord 0x10#32 1#32 8#32 0x20#32 0x68#32 := by
  refine ⟨?_, rfl, ?_, ?_⟩ <;> repeat' apply And.intro
  all_goals trivial

/-- The handler returns to its caller. -/
theorem called_entryImage {m : SysMachine} (hpc : m.rv.pc = 0x64#32) :
    ∃ m', Called entryWord 0x68#32 m m' := by
  have hcall : Holds entryWord m.rv.pc [.plain (.base (.jal 1#5 0x58#32))] := by
    rw [hpc]
    exact ⟨rfl, ⟨rfl, rfl, rfl⟩, trivial⟩
  have hrun := (Runs.refl entryWord m).step hcall (fun _ => SysEvent.noConfusion) exec_jal
  set m₁ := m.advance ⟨m.rv.pc + 0x58#32, m.rv.regs.write 1#5 (m.rv.pc + 4#32), m.rv.mem⟩ 1
    with hm₁
  have hpc₁ : m₁.rv.pc = 0xBC#32 := by
    change m.rv.pc + 0x58#32 = _
    rw [hpc]
    rfl
  have hra : m₁.rv.regs 1#5 = 0x68#32 := by
    change m.rv.pc + 4#32 = _
    rw [hpc]
    rfl
  have hret : Holds entryWord m₁.rv.pc [.plain (.base (.jalr 0#5 1#5 0#32))] := by
    rw [hpc₁]
    exact ⟨rfl, ⟨rfl, rfl, rfl, rfl, rfl⟩, trivial⟩
  have hexec : m₁.exec m₁.rv.pc (.plain (.base (.jalr 0#5 1#5 0#32))) .done =
      some (m₁.advance ⟨0x68#32, m₁.rv.regs, m₁.rv.mem⟩ 1) := by
    have hregs : m₁.rv.regs.write 0#5 (m₁.rv.pc + 4#32) = m₁.rv.regs :=
      RvMachine.write_to_zero _ _
    have htarget : Instr.nextPc m₁.rv.pc (m₁.rv.regs 1#5) (m₁.rv.regs 0#5)
        (.jalr 0#5 1#5 0#32) = 0x68#32 := by
      rw [hra]
      rfl
    have hsupported : (m₁.rv.regs 1#5 + 0#32).getLsbD 0 = false := by
      rw [hra]
      rfl
    rw [exec, RvMachine.exec]
    refine (congrArg (Option.map _) (if_pos hsupported)).trans ?_
    change some (m₁.advance ⟨Instr.nextPc m₁.rv.pc (m₁.rv.regs 1#5) (m₁.rv.regs 0#5)
      (.jalr 0#5 1#5 0#32), m₁.rv.regs.write 0#5 (m₁.rv.pc + 4#32), m₁.rv.mem⟩ 1) = _
    rw [htarget, hregs]
  have hrun₂ := hrun.step hret (fun _ => SysEvent.noConfusion) hexec
  refine ⟨_, ⟨hrun₂, rfl, (keepsCsrs_advance _ _ 1).trans (keepsCsrs_advance _ _ 1), ?_, ?_⟩⟩
  · have h1 : ∀ r ∈ calleeSaved, r ≠ 1#5 := by decide
    exact fun r hr => if_neg fun h => h1 r hr h.1
  · exact fun _ _ => rfl

/-- Register 1 of the program has its value when the program goes on behind the interrupt. -/
theorem interrupt_transparent_addi : ∃ m₁ mr ms m₂,
    SysMachine.exec ⟨⟨0#32, fun r => if r = 2#5 then 0x1FFFFF0#32 else 0#32, fun _ => 0#8⟩, 0#32,
      fun _ => ⟨0#32, 5⟩⟩ 0#32 (.plain (.base (.opImm .add 1#5 1#5 5#32))) (.interrupted 1#4) =
        some m₁ ∧
      Runs entryWord m₁ mr ∧ Runs entryWord mr ms ∧
      After entryWord ms [.read 0#32, .read 0#32, .done, .done] m₂ ∧
      m₂.rv.pc = 4#32 ∧ m₂.rv.regs 1#5 = 5#32 ∧ m₂.rv.regs 2#5 = 0x1FFFFF0#32 := by
  obtain ⟨mc, hrun, hpc, -, -, hback⟩ := @interrupt_transparent entryWord
    ⟨⟨0#32, fun r => if r = 2#5 then 0x1FFFFF0#32 else 0#32, fun _ => 0#8⟩, 0#32,
      fun _ => ⟨0#32, 5⟩⟩ _ _ 0#32 (.base (.opImm .add 1#5 1#5 5#32)) 1#4 1#32 8#32 0x20#32
    0x68#32 rfl rfl code_entryImage rfl ⟨by decide, by decide, by decide⟩
  obtain ⟨mr, hcalled⟩ := called_entryImage hpc
  obtain ⟨ms, hms, hreturn⟩ := hback mr hcalled
  obtain ⟨m₂, hafter, hrv, -⟩ := hreturn 0#32 0#32
  refine ⟨_, mr, ms, m₂, rfl, hrun.trans hcalled.runs, hms, hafter, ?_, ?_, ?_⟩
  · rw [hrv]
    rfl
  · rw [hrv]
    rfl
  · rw [hrv]
    rfl

end Sumeru
