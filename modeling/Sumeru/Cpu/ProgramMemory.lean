import Sumeru.Cpu.ProgramExecution

/-!
# Sumeru - Bytes that a program does not change

The data cache writes back what it holds, so memory itself may lag behind the machine.  A byte
that the machine never changes is nevertheless the same in memory at all times: what a
write-back stores is what the cache shows, and the cache shows the memory of the machine or
that of an instruction before.

Main results:

- Theorem {lit}`DataUnit.Situation.byteAt_cases`: what a cycle does to a byte of memory.
- Theorem {lit}`Hart.kept_run`: bytes that the machine never changes are kept in memory.
-/

namespace Sumeru
open Rv32

/-- A cache over its cells shows one memory only. -/
theorem Dcache.Coherent.unique {c : Dcache} {cells : BitVec 24 → BitVec 16} {m m' : ByteMem}
    (h : c.Coherent cells m) (h' : c.Coherent cells m') : m = m' :=
  funext fun a => (h.value_eq a).symm.trans (h'.value_eq a)

/-- A half-word is its two bytes. -/
theorem halfWord_of_byteAt {cells cells' : BitVec 24 → BitVec 16} {x : BitVec 24}
    (h : ∀ a : BitVec 25, a.extractLsb' 1 24 = x → byteAt cells a = byteAt cells' a) :
    cells x = cells' x := by
  apply BitVec.eq_of_getLsbD_eq
  intro i hi
  have hx : (x ++ BitVec.ofNat 1 (i / 8)).extractLsb' 1 24 = x := by
    apply BitVec.eq_of_toNat_eq
    simp only [BitVec.extractLsb'_toNat, toNat_append_eq, BitVec.toNat_ofNat,
      Nat.shiftRight_eq_div_pow]
    omega
  have hmod : (x ++ BitVec.ofNat 1 (i / 8)).toNat % 2 = i / 8 := by
    simp only [toNat_append_eq, BitVec.toNat_ofNat]
    omega
  have hbyte := congrArg (fun b => b.getLsbD (i % 8)) (h _ hx)
  simp only [byteAt, hx, hmod, BitVec.getLsbD_extractLsb', Nat.div_add_mod] at hbyte
  simpa [Nat.mod_lt] using hbyte

namespace DataUnit

variable {V : Megafunctions} {s : DataUnit} {m m₀ : ByteMem}

/-- A calm cache goes on showing its memory. -/
theorem Calm.coherent_step (h : s.Calm m) (i : DataUnitInput) :
    (s.step V i).dcache.Coherent (s.step V i).chan.cells m := by
  have hclk := h.clk_eq i
  obtain ⟨-, -, hcells⟩ :=
    chan_step_of_answered V (i := i) h.answered (by rw [h.left]; omega)
  rw [hcells]
  exact (coherent_step_of_quiet V (i := i) h.coherent (by rw [hclk]; rfl)
    (by rw [hclk]; intro j; rfl)).2.2

/-- After a cycle the cache and its cells show what they have shown, or what the operation
under way leaves. -/
theorem Situation.coherent_step (h : s.Situation m) (hc : s.dcache.Coherent s.chan.cells m₀)
    (i : DataUnitInput) :
    (s.step V i).dcache.Coherent (s.step V i).chan.cells m₀ ∨
      (s.step V i).dcache.Coherent (s.step V i).chan.cells m := by
  cases h with
  | calm h => exact .inr (h.coherent_step i)
  | lookup m₁ hm hp h =>
      obtain rfl := hp.coherent.unique hc
      cases hp.served i with
      | write hstore hhit =>
          rw [hm]
          exact .inr (h.step_write V hp hstore hhit).2.coherent
      | hit hload hh => exact .inl (h.step_hit V hp hload hh).coherent
      | evict hmiss _ hdirty hserve =>
          exact .inl (h.step_evict V hp hserve hmiss hdirty).2.1.coherent
      | load hmiss hload hclean hserve =>
          exact .inl (h.step_load V hp hserve hmiss hload hclean).2.1.coherent
      | takeOver hmiss _ _ hclean hserve =>
          exact .inl (h.step_takeOver V hp hserve hmiss hclean).2.1.coherent
  | storing m₁ _ hp h =>
      obtain rfl := hp.coherent.unique hc
      rcases h.phase with ⟨hwt, hzero⟩ | ⟨hmv, hst⟩
      · exact .inl (h.step_waiting V hp hwt hzero i).2.1.coherent
      · exact .inl (h.step_moving V hp hmv hst i).2.1.coherent
  | loading m₁ _ hp h =>
      obtain rfl := hp.coherent.unique hc
      rcases h.phase with ⟨hwt, hzero⟩ | ⟨hmv, hwords, hlast⟩
      · exact .inl (h.step_waiting V hp hwt hzero i).2.1.coherent
      · exact .inl (h.step_moving V hp ⟨hmv, hwords, hlast⟩ i).2.1.coherent
  | loaded m₁ _ hp h =>
      obtain rfl := hp.coherent.unique hc
      exact .inl (h.step V hp i).coherent
  | written h =>
      exact .inr (h.step V i).coherent

/-- A byte of memory stays, or becomes what the cache holds of it. -/
theorem Situation.byteAt_cases (h : s.Situation m) (hc : s.dcache.Coherent s.chan.cells m₀)
    (i : DataUnitInput) (a : BitVec 25) :
    byteAt (s.step V i).chan.cells a = byteAt s.chan.cells a ∨
      byteAt (s.step V i).chan.cells a = m₀ a := by
  have hrest : s.chan.strobe = s.dcache.mcOpStart → s.chan.left ≤ 1 →
      byteAt (s.step V i).chan.cells a = byteAt s.chan.cells a := by
    intro ha hl
    rw [(chan_step_of_answered V (i := i) ha hl).2.2]
  cases h with
  | calm h => exact .inl (hrest h.answered (by rw [h.left]; omega))
  | lookup m₁ _ hp h => exact .inl (hrest h.answered h.left)
  | storing m₁ _ hp h =>
      rcases h.byteAt_step V hp i a with heq | ⟨-, hcached, heq⟩
      · exact .inl heq
      · exact .inr (heq.trans (hc.cached a hcached))
  | loading m₁ _ hp h =>
      left
      rw [h.cells_step V i]
  | loaded m₁ _ hp h => exact .inl (hrest h.answered h.left)
  | written h => exact .inl (hrest h.answered (by rw [h.left]; omega))

end DataUnit

namespace Hart

section Kept

variable {V : Megafunctions} {imem : BitVec 32 → BitVec 32} {mem : BitVec 24 → BitVec 16}
  {inp : ℕ → HartInput} {C : BitVec 25 → Prop}

/-- The bytes of {lit}`C` are those at the start, in memory and through the cache. -/
structure Kept (V : Megafunctions) (imem : BitVec 32 → BitVec 32) (mem : BitVec 24 → BitVec 16)
    (inp : ℕ → HartInput) (C : BitVec 25 → Prop) (t : ℕ) : Prop where
  shown : ∃ m₀,
    (run V imem mem inp t).data.dcache.Coherent (run V imem mem inp t).data.chan.cells m₀ ∧
      ∀ a, C a → m₀ a = byteAt mem a
  stored : ∀ a, C a → byteAt (run V imem mem inp t).data.chan.cells a = byteAt mem a

/-- The machine before the last of some instructions. -/
theorem after_of_succ {t : ℕ} {m : RvMachine}
    (hm : RvMachine.After imem (.boot (byteAt mem)) (accepted V imem mem inp (t + 1)).length m) :
    ∃ m₁, RvMachine.After imem (.boot (byteAt mem)) (accepted V imem mem inp t).length m₁ := by
  cases hacc : acceptsAt V imem mem inp t with
  | false =>
      rw [accepted_succ_of_not t hacc] at hm
      exact ⟨m, hm⟩
  | true =>
      obtain ⟨a, hlog, -⟩ := accepted_succ t hacc
      rw [hlog, List.length_append, List.length_singleton] at hm
      obtain ⟨m₁, h₁, -⟩ := hm.next
      exact ⟨m₁, h₁⟩

/-- Bytes that the machine never changes are kept in memory. -/
theorem kept_run (hV : V.Exact) (hintr : ∀ t, (inp t).intrOut.intrTrigger = false)
    (hC : ∀ n m, RvMachine.After imem (.boot (byteAt mem)) n m → ∀ a, C a → m.mem a = byteAt mem a)
    (t : ℕ) : ∀ m, RvMachine.After imem (.boot (byteAt mem)) (accepted V imem mem inp t).length m →
      Kept V imem mem inp C t := by
  induction t with
  | zero =>
      intro _ _
      exact ⟨⟨byteAt mem, DataUnit.coherent_init mem, fun _ _ => rfl⟩, fun _ _ => rfl⟩
  | succ t ih =>
      intro m hm
      obtain ⟨m₁, h₁⟩ := after_of_succ hm
      obtain ⟨⟨m₀, hcoh, hm₀⟩, hstored⟩ := ih m₁ h₁
      obtain ⟨mem', hsit, hmem⟩ := (follows_run hV hintr t m₁ h₁).data.memory
      have hmem' : ∀ a, C a → mem' a = byteAt mem a := by
        intro a ha
        by_cases hls : (run V imem mem inp t).data.iexec.state = .ls1
        · -- the operation has not reached the cache yet
          have hcalm := hsit.calm_of_not_waiting (by rw [hls]; decide)
          rw [hcalm.coherent.unique hcoh]
          exact hm₀ a ha
        · rw [if_neg hls] at hmem
          rw [← hmem]
          exact hC _ m₁ h₁ a ha
      refine ⟨?_, fun a ha => ?_⟩
      · rcases hsit.coherent_step (V := V) hcoh _ with h | h
        · exact ⟨m₀, h, hm₀⟩
        · exact ⟨mem', h, hmem'⟩
      · rcases hsit.byteAt_cases (V := V) hcoh _ a with h | h
        · exact h.trans (hstored a ha)
        · exact h.trans (hm₀ a ha)

end Kept

end Hart

end Sumeru
