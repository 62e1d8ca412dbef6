import Sumeru.Cpu.Pipeline
import Sumeru.Cpu.Rv32

/-!
# Sumeru - Program order of the pipeline

The instructions that the execute stage accepts are those of the program, in
program order, whatever the caches, the flushes and the multi-cycle instructions
do to the timing.  Program order is stated on its own: each instruction names its
successor, and FENCE.I words are passed over.  The pipeline is tied to it by one
invariant that covers all three stages: either a redirect is under way and its
target is the expected pc, or the valid stages hold a path of the program that
starts at the expected pc and ends at the fetch pc.

Main results:

- Theorems {lit}`Core.Flow.step_of_not_accepts` and
  {lit}`Core.Flow.step_of_accepts`: one clock edge keeps the invariant, and an
  accepted instruction is the expected one.
- Theorem {lit}`accepted_in_programOrder`: the accepted sequence of every run is
  in program order, also with interrupts and SWITCH.
- Theorem {lit}`next_accepted`: under finite stalls the next instruction of the
  program is the next one accepted.
- Theorem {lit}`pipeline_control_flow`: the two facts together for runs without
  interrupts and SWITCH, where only taken branches and JALR redirect.
-/

namespace Sumeru

/-! ## Program order -/

/-- The pc behind an instruction that does not raise {lit}`cxfer`: a JAL goes on at its target,
every other instruction at the next word. -/
def successorPc (pc inst : BitVec 32) : BitVec 32 :=
  if instOpcode inst = opTypeJal then pc + Rv32.immJ inst else pc + 4#32

/-- The pc after an accepted instruction: the redirect target if it raised
{lit}`cxfer`, otherwise the JAL target or the next word. -/
def Accepted.nextPc (a : Accepted) : BitVec 32 :=
  if a.cxfer then a.cxferPc else successorPc a.pc a.inst

/-- From {lit}`pc` one reaches {lit}`q` by passing over FENCE.I words. -/
inductive PassesFences (imem : BitVec 32 → BitVec 32) : BitVec 32 → BitVec 32 → Prop where
  | refl (pc : BitVec 32) : PassesFences imem pc pc
  | fence {pc q : BitVec 32} (h : isFenceI (imem pc) = true)
      (rest : PassesFences imem (pc + 4#32) q) : PassesFences imem pc q

/-- The instruction at {lit}`q` is the one the program executes next from
{lit}`pc`. -/
def IsNext (imem : BitVec 32 → BitVec 32) (pc q : BitVec 32) : Prop :=
  PassesFences imem pc q ∧ isFenceI (imem q) = false

/-- A sequence of accepted instructions is in program order from {lit}`pc`. -/
def ProgramOrder (imem : BitVec 32 → BitVec 32) : BitVec 32 → List Accepted → Prop
  | _, [] => True
  | pc, a :: rest =>
      IsNext imem pc a.pc ∧ a.inst = imem a.pc ∧ ProgramOrder imem a.nextPc rest

/-- The pc at which a program that has executed the given sequence continues. -/
def continuesAt : BitVec 32 → List Accepted → BitVec 32
  | pc, [] => pc
  | _, a :: rest => continuesAt a.nextPc rest

variable {V : Megafunctions} {imem : BitVec 32 → BitVec 32}

/-- The fetch stage goes on at the pc that the program has next. -/
theorem fetchNextPc_eq (pc inst : BitVec 32) : fetchNextPc pc inst = successorPc pc inst :=
  rfl

/-- A FENCE.I word is not a JAL, so fetch passes over it to the next word. -/
theorem successorPc_of_isFenceI {pc inst : BitVec 32} (h : isFenceI inst = true) :
    successorPc pc inst = pc + 4#32 := by
  have hop : instOpcode inst = opTypeMiscMem := by
    simp only [isFenceI, Bool.and_eq_true, beq_iff_eq] at h
    exact h.1
  simp [successorPc, hop, opTypeMiscMem, opTypeJal]

/-- One FENCE.I more. -/
theorem PassesFences.snoc {pc q : BitVec 32} (h : PassesFences imem pc q)
    (hq : isFenceI (imem q) = true) : PassesFences imem pc (q + 4#32) := by
  induction h with
  | refl pc => exact .fence hq (.refl _)
  | fence hp _ ih => exact .fence hp (ih hq)

/-- The program goes on behind the last accepted instruction. -/
theorem continuesAt_concat (pc : BitVec 32) (l : List Accepted) (a : Accepted) :
    continuesAt pc (l ++ [a]) = a.nextPc := by
  induction l generalizing pc with
  | nil => rfl
  | cons b l ih => exact ih b.nextPc

/-- Program order extended by one instruction at its end. -/
theorem programOrder_concat {pc : BitVec 32} {l : List Accepted} {a : Accepted}
    (hl : ProgramOrder imem pc l) (hnext : IsNext imem (continuesAt pc l) a.pc)
    (hinst : a.inst = imem a.pc) : ProgramOrder imem pc (l ++ [a]) := by
  induction l generalizing pc with
  | nil => exact ⟨hnext, hinst, trivial⟩
  | cons b l ih => exact ⟨hl.1, hl.2.1, ih hl.2.2 hnext⟩

/-- Every instruction of a sequence in program order is the word at its pc. -/
theorem ProgramOrder.inst_eq {pc : BitVec 32} {l : List Accepted} (h : ProgramOrder imem pc l)
    {a : Accepted} (ha : a ∈ l) : a.inst = imem a.pc := by
  induction l generalizing pc with
  | nil => cases ha
  | cons b l ih =>
      rcases List.mem_cons.mp ha with rfl | hl
      · exact h.2.1
      · exact ih h.2.2 hl

/-! ## The pipeline invariant -/

namespace Core

/-- The pc that follows a pipeline slot on the path starting at {lit}`pc`. -/
def slotNext (pc : BitVec 32) (valid : Bool) (slotPc slotInst : BitVec 32) : BitVec 32 :=
  if valid then successorPc slotPc slotInst else pc

/-- A pipeline slot, when valid, holds the next instruction of the program. -/
def SlotOk (imem : BitVec 32 → BitVec 32) (pc : BitVec 32) (valid : Bool)
    (slotPc slotInst : BitVec 32) : Prop :=
  valid = true → IsNext imem pc slotPc ∧ slotInst = imem slotPc

/-- The pc at which the path through the decode registers arrives. -/
def afterExec (s : Core) (pc : BitVec 32) : BitVec 32 :=
  slotNext pc s.idecode.execValid s.idecode.pcR s.idecode.instR

/-- The pc at which the path through all stages arrives. -/
def afterDecode (s : Core) (pc : BitVec 32) : BitVec 32 :=
  slotNext (s.afterExec pc) s.ifetch.idecodeIn.valid s.ifetch.idecodeIn.pc
    s.ifetch.idecodeIn.inst

/-- No redirect is under way: the valid stages hold the program path that starts
at the expected pc. -/
structure Straight (imem : BitVec 32 → BitVec 32) (pc : BitVec 32) (s : Core) : Prop where
  noCxfer : s.iexec.out.cxfer = false
  notPending : s.ifetch.cxferPending = false
  exec : SlotOk imem pc s.idecode.execValid s.idecode.pcR s.idecode.instR
  decode : SlotOk imem (s.afterExec pc) s.ifetch.idecodeIn.valid s.ifetch.idecodeIn.pc
    s.ifetch.idecodeIn.inst
  fetch : PassesFences imem (s.afterDecode pc) s.ifetch.pc

/-- A redirect to the expected pc is under way: raised in this cycle, or deferred
with both pipeline slots empty. -/
structure Redirecting (pc : BitVec 32) (s : Core) : Prop where
  target : s.iexec.out.cxferPc = pc
  raised : s.iexec.out.cxfer = true ∨
    (s.iexec.out.cxfer = false ∧ s.ifetch.cxferPending = true ∧
      s.idecode.execValid = false ∧ s.ifetch.idecodeIn.valid = false)

/-- The pipeline is about to execute the program from {lit}`pc`. -/
def Flow (imem : BitVec 32 → BitVec 32) (pc : BitVec 32) (s : Core) : Prop :=
  Redirecting pc s ∨ Straight imem pc s

/-- Facts about single stages that the flow argument uses. -/
structure StagesOk (s : Core) : Prop where
  busy : s.iexec.busyR = (s.iexec.state != .running)
  flushing : s.icacheFlushAck ≠ s.ifetch.icacheFlush → s.ifetch.idecodeIn.valid = false
  jalr : s.idecode.execValid = true →
    s.idecode.triggerCxfer = (instOpcode s.idecode.instR == opTypeJalr)

/-- The stages are empty at power-up. -/
theorem stagesOk_init : StagesOk init :=
  ⟨rfl, fun _ => rfl, fun h => by simp [init, Idecode.init] at h⟩

/-- The stages agree after an edge if they agreed before. -/
theorem stagesOk_step {s : Core} (h : StagesOk s) (i : CoreInput) :
    StagesOk (s.step V imem i) := by
  refine ⟨Iexec.busyR_step V _ _, ?_, ?_⟩
  · intro hne
    by_cases hfl : s.icacheFlushAck = s.ifetch.icacheFlush
    · -- a flush that starts at this edge is requested by a FENCE.I, which is not passed on
      have hack : (s.step V imem i).icacheFlushAck = s.ifetch.icacheFlush := by
        simp [step, hfl]
      rw [hack] at hne
      simp only [step, Ifetch.step, ifetchInput, hfl, ne_eq, not_true_eq_false, if_false]
        at hne ⊢
      split
      · rfl
      · rename_i hx
        rw [if_neg hx] at hne
        split
        · rename_i hf
          rw [if_pos hf] at hne
          by_cases hfence : isFenceI (imem s.ifetch.pc) = true
          · simp [Ifetch.fetch, hfence]
          · simp [Ifetch.fetch, hfence] at hne
        · rename_i hf
          rw [if_neg hf] at hne
          simp at hne
    · simp [step, Ifetch.step, ifetchInput, hfl]
  · simp only [step, Idecode.step]
    split
    · simp
    · split
      · split <;> simp
      · exact h.jalr

/-! ### One clock edge -/

/-- A redirect under way stays under way until the fetch stage takes it, and the
program then continues at its target. -/
theorem Redirecting.flow_step {s : Core} {pc : BitVec 32} (h : Redirecting pc s)
    (i : CoreInput) (hacc : s.accepts i = false) : Flow imem pc (s.step V imem i) := by
  have hsame : Iexec.SameInstruction s.iexec (s.step V imem i).iexec :=
    Iexec.sameInstruction_step V hacc
  have hcxfer : (s.step V imem i).iexec.out.cxfer = false :=
    Iexec.out_cxfer_step_of_not_accepts V hacc
  have htarget : (s.step V imem i).iexec.out.cxferPc = pc := hsame.out_cxferPc.trans h.target
  have hexec : (s.step V imem i).idecode.execValid = false := by
    simp only [step, Idecode.step]
    rcases h.raised with hr | ⟨hr, -, he, hv⟩
    · simp [hr]
    · simp only [hr, hv]
      split <;> [skip; split] <;> simp_all
  have hdecode : s.iexec.out.cxfer = true ∨ s.ifetch.cxferPending = true := by
    rcases h.raised with hr | ⟨-, hp, -, -⟩
    · exact .inl hr
    · exact .inr hp
  -- the fetch stage either takes the redirect on a hit or keeps it pending
  by_cases htake : s.icacheFlushAck = s.ifetch.icacheFlush ∧ i.icacheHit = true
  · refine .inr ?_
    have hfetch : (s.step V imem i).ifetch =
        { s.ifetch with
          cxferPending := false
          pc := s.iexec.out.cxferPc
          idecodeIn := { s.ifetch.idecodeIn with valid := false } } := by
      rcases hdecode with hd | hd <;> simp [step, Ifetch.step, ifetchInput, htake.1, htake.2, hd]
    refine ⟨hcxfer, by rw [hfetch], by simp [SlotOk, hexec], by simp [SlotOk, hfetch], ?_⟩
    simp only [afterDecode, afterExec, slotNext, hexec, hfetch, h.target]
    exact .refl _
  · refine .inl ⟨htarget, .inr ⟨hcxfer, ?_, hexec, ?_⟩⟩
    · simp only [step, Ifetch.step, ifetchInput]
      rcases h.raised with hr | ⟨hr, hp, -, hv⟩ <;> simp_all
    · simp only [step, Ifetch.step, ifetchInput]
      rcases h.raised with hr | ⟨hr, hp, -, hv⟩ <;> simp_all

/-- Without a redirect a stalled execute stage freezes the path. -/
theorem Straight.step_of_busy {s : Core} {pc : BitVec 32} (h : Straight imem pc s)
    (hok : StagesOk s) (i : CoreInput) (hbusy : s.iexec.busyR = true)
    (hcxfer : (s.step V imem i).iexec.out.cxfer = false) :
    Straight imem pc (s.step V imem i) := by
  have hout : s.iexec.out.busy = true := hbusy
  have hdec : (s.step V imem i).idecode = s.idecode := by
    simp [step, Idecode.step, h.noCxfer, hout]
  have hfet : (s.step V imem i).ifetch.pc = s.ifetch.pc ∧
      (s.step V imem i).ifetch.cxferPending = false ∧
      (s.step V imem i).ifetch.idecodeIn.valid = s.ifetch.idecodeIn.valid ∧
      (s.step V imem i).ifetch.idecodeIn.pc = s.ifetch.idecodeIn.pc ∧
      (s.step V imem i).ifetch.idecodeIn.inst = s.ifetch.idecodeIn.inst := by
    by_cases hfl : s.icacheFlushAck = s.ifetch.icacheFlush
    · simp [step, Ifetch.step, ifetchInput, h.noCxfer, h.notPending, hout, hfl]
    · simp [step, Ifetch.step, ifetchInput, h.noCxfer, h.notPending, hfl, hok.flushing hfl]
  obtain ⟨hpc, hpend, hv, hipc, hinst⟩ := hfet
  refine ⟨hcxfer, hpend, ?_, ?_, ?_⟩
  · rw [hdec]
    exact h.exec
  · simp only [afterExec, hdec, hv, hipc, hinst]
    exact h.decode
  · simp only [afterDecode, afterExec, hdec, hpc, hv, hipc, hinst]
    exact h.fetch

/-- Without a redirect and without a stall every slot moves one stage on. -/
theorem Straight.step_of_not_busy {s : Core} {pc : BitVec 32} (h : Straight imem pc s)
    (i : CoreInput) (hbusy : s.iexec.busyR = false)
    (hcxfer : (s.step V imem i).iexec.out.cxfer = false) :
    Straight imem (s.afterExec pc) (s.step V imem i) := by
  have hout : s.iexec.out.busy = false := hbusy
  have hvalid : (s.step V imem i).idecode.execValid = s.ifetch.idecodeIn.valid := by
    cases hv : s.ifetch.idecodeIn.valid <;>
      simp [step, Idecode.step, h.noCxfer, hout, hv]
  have hslot : s.ifetch.idecodeIn.valid = true →
      (s.step V imem i).idecode.pcR = s.ifetch.idecodeIn.pc ∧
      (s.step V imem i).idecode.instR = s.ifetch.idecodeIn.inst := by
    intro hv
    simp [step, Idecode.step, h.noCxfer, hout, hv]
  have hafter : (s.step V imem i).afterExec (s.afterExec pc) = s.afterDecode pc := by
    simp only [afterExec, afterDecode, slotNext, hvalid]
    split
    · rename_i hv
      rw [(hslot hv).1, (hslot hv).2]
    · rfl
  have hexec : SlotOk imem (s.afterExec pc) (s.step V imem i).idecode.execValid
      (s.step V imem i).idecode.pcR (s.step V imem i).idecode.instR := by
    intro hv
    rw [hvalid] at hv
    rw [(hslot hv).1, (hslot hv).2]
    exact h.decode hv
  have hpend : (s.step V imem i).ifetch.cxferPending = false := by
    simp only [step, Ifetch.step, ifetchInput, h.noCxfer, h.notPending]
    repeat' split
    all_goals simp [Ifetch.fetch, h.notPending]
  by_cases hgo : s.icacheFlushAck = s.ifetch.icacheFlush ∧ i.icacheHit = true
  · have hfet : (s.step V imem i).ifetch = s.ifetch.fetch (imem s.ifetch.pc) := by
      simp [step, Ifetch.step, ifetchInput, h.noCxfer, h.notPending, hout, hgo.1, hgo.2]
    refine ⟨hcxfer, hpend, hexec, ?_, ?_⟩
    · rw [hafter, hfet]
      intro hv
      exact ⟨⟨h.fetch, by simpa [Ifetch.fetch] using hv⟩, rfl⟩
    · rw [afterDecode, hafter, hfet]
      simp only [Ifetch.fetch, slotNext, fetchNextPc_eq]
      by_cases hfence : isFenceI (imem s.ifetch.pc) = true
      · rw [successorPc_of_isFenceI hfence]
        simpa [hfence] using h.fetch.snoc hfence
      · simp only [hfence]
        exact .refl _
  · have hfet : (s.step V imem i).ifetch.pc = s.ifetch.pc ∧
        (s.step V imem i).ifetch.idecodeIn.valid = false := by
      simp only [step, Ifetch.step, ifetchInput, h.noCxfer, h.notPending, hout]
      repeat' split
      all_goals simp_all
    refine ⟨hcxfer, hpend, hexec, by simp [SlotOk, hfet.2], ?_⟩
    rw [afterDecode, hafter, hfet.1, hfet.2]
    exact h.fetch

/-- The pc at which the program continues after the instruction that the execute
stage accepts at this edge. -/
def acceptedNextPc (s s' : Core) : BitVec 32 :=
  if s'.iexec.out.cxfer then s'.iexec.out.cxferPc
  else successorPc s.idecode.pcR s.idecode.instR

/-- An edge that accepts nothing keeps the expected pc. -/
theorem Flow.step_of_not_accepts {s : Core} {pc : BitVec 32} (h : Flow imem pc s)
    (hok : StagesOk s) (i : CoreInput) (hacc : s.accepts i = false) :
    Flow imem pc (s.step V imem i) := by
  have hcxfer : (s.step V imem i).iexec.out.cxfer = false :=
    Iexec.out_cxfer_step_of_not_accepts V hacc
  rcases h with hr | hs
  · exact hr.flow_step i hacc
  · refine .inr ?_
    cases hbusy : s.iexec.busyR with
    | true => exact hs.step_of_busy hok i hbusy hcxfer
    | false =>
        have hrun : s.iexec.state = .running := by
          have := hok.busy
          rw [hbusy] at this
          simpa using this.symm
        have hinv : s.idecode.execValid = false := by
          by_contra hv
          rw [accepts_iff.mpr ⟨hrun, by simpa using hv, hs.noCxfer⟩] at hacc
          cases hacc
        have hstep := hs.step_of_not_busy i hbusy hcxfer
        simpa [afterExec, slotNext, hinv] using hstep

/-- An accepting edge accepts the expected instruction and moves on to its
successor. -/
theorem Flow.step_of_accepts {s : Core} {pc : BitVec 32} (h : Flow imem pc s)
    (hok : StagesOk s) (i : CoreInput) (hacc : s.accepts i = true) :
    IsNext imem pc s.idecode.pcR ∧ s.idecode.instR = imem s.idecode.pcR ∧
      Flow imem (s.acceptedNextPc (s.step V imem i)) (s.step V imem i) := by
  obtain ⟨hrun, hvalid, hnox⟩ := accepts_iff.mp hacc
  have hs : Straight imem pc s := by
    rcases h with hr | hs
    · rcases hr.raised with hx | ⟨-, -, hv, -⟩
      · rw [hx] at hnox
        cases hnox
      · rw [hv] at hvalid
        cases hvalid
    · exact hs
  refine ⟨(hs.exec hvalid).1, (hs.exec hvalid).2, ?_⟩
  unfold acceptedNextPc
  cases hcxfer : (s.step V imem i).iexec.out.cxfer with
  | true => exact .inl ⟨rfl, .inl hcxfer⟩
  | false =>
      have hbusy : s.iexec.busyR = false := by simp [hok.busy, hrun]
      have hstep := hs.step_of_not_busy i hbusy hcxfer
      exact .inr (by simpa [afterExec, slotNext, hvalid] using hstep)

end Core

/-! ## Whole runs -/

variable {inp : ℕ → CoreInput}

/-- The stages agree in every run. -/
theorem stagesOk_run (V : Megafunctions) (imem : BitVec 32 → BitVec 32) (inp : ℕ → CoreInput)
    (t : ℕ) : Core.StagesOk (Core.run V imem inp t) :=
  Clocked.run_invariant Core.stagesOk_init (fun _ h => Core.stagesOk_step h _) t

/-- The accepted sequence of every run is in program order, and the pipeline is
about to continue it. -/
theorem accepted_in_programOrder (V : Megafunctions) (imem : BitVec 32 → BitVec 32)
    (inp : ℕ → CoreInput) (t : ℕ) :
    ProgramOrder imem 0#32 (acceptedBefore V imem inp t) ∧
      Core.Flow imem (continuesAt 0#32 (acceptedBefore V imem inp t))
        (Core.run V imem inp t) := by
  induction t with
  | zero =>
      refine ⟨trivial, .inr ⟨rfl, rfl, ?_, ?_, ?_⟩⟩
      · exact fun h => by cases h
      · exact fun h => by cases h
      · exact .refl _
  | succ t ih =>
      obtain ⟨horder, hflow⟩ := ih
      cases hacc : (Core.run V imem inp t).accepts (inp t) with
      | false =>
          have hlog : acceptedBefore V imem inp (t + 1) = acceptedBefore V imem inp t :=
            Clocked.log_succ_none (by simp [acceptedAt, hacc])
          rw [hlog]
          exact ⟨horder, hflow.step_of_not_accepts (stagesOk_run V imem inp t) (inp t) hacc⟩
      | true =>
          have hev := show acceptedAt V imem inp t = some _ by simp only [acceptedAt, hacc]; rfl
          have hlog := Clocked.log_succ_some hev
          change acceptedBefore V imem inp (t + 1) = acceptedBefore V imem inp t ++ [_] at hlog
          obtain ⟨hnext, hinst, hflow'⟩ :=
            hflow.step_of_accepts (V := V) (stagesOk_run V imem inp t) (inp t) hacc
          rw [hlog, continuesAt_concat]
          exact ⟨programOrder_concat horder hnext hinst, hflow'⟩

/-! ## Progress -/

/-- Every stall is finite: each lookup of the instruction cache hits in the end,
each flush is completed, and each load or store leaves {lit}`LS_WAIT`. -/
structure FiniteStalls (V : Megafunctions) (imem : BitVec 32 → BitVec 32)
    (inp : ℕ → CoreInput) : Prop where
  hit : ∀ t, ∃ u, t ≤ u ∧ (inp u).icacheHit = true
  flush : ∀ t, ∃ u, t ≤ u ∧ (inp u).flushDone = true
  loadStore : ∀ t, ∃ u, t ≤ u ∧ (Core.run V imem inp u).iexec.state ≠ .lsWait

/-- Passing over FENCE.I words is deterministic: every point of the way to an
instruction that is not a FENCE.I leads on to it. -/
theorem PassesFences.resume {pc q r : BitVec 32} (hr : PassesFences imem pc r)
    (hq : PassesFences imem pc q) (hfence : isFenceI (imem q) = false) :
    PassesFences imem r q := by
  induction hr with
  | refl pc => exact hq
  | fence hp _ ih =>
      cases hq with
      | refl => simp [hp] at hfence
      | fence _ rest => exact ih rest

/-- The execute stage returns to {lit}`RUNNING` again and again. -/
theorem eventually_running (hfin : FiniteStalls V imem inp) (t : ℕ) :
    ∃ u, t ≤ u ∧ (Core.run V imem inp u).iexec.state = .running := by
  have hls : Clocked.LeadsTo (fun t => (Core.run V imem inp t).iexec.state = .lsWait)
      (fun t => (Core.run V imem inp t).iexec.state = .running) := by
    intro t ht
    obtain ⟨u, htu, hu⟩ := hfin.loadStore t
    induction hk : u - t generalizing t with
    | zero =>
        obtain rfl : u = t := by omega
        exact absurd ht hu
    | succ k ih =>
        rcases Iexec.state_step_of_lsWait V ht
          ((Core.run V imem inp t).iexecInput (inp t)) with hrun | hwait
        · exact ⟨t + 1, by omega, hrun⟩
        · obtain ⟨v, hv, hrun⟩ := ih (t + 1) hwait (by omega) (by omega)
          exact ⟨v, by omega, hrun⟩
  have hdiv : Clocked.LeadsTo (fun t => (Core.run V imem inp t).iexec.state = .divWait)
      (fun t => (Core.run V imem inp t).iexec.state = .running) :=
    Clocked.LeadsTo.of_rank (fun t => (Core.run V imem inp t).iexec.divCtr.toNat)
      fun t ht => Iexec.state_step_of_divWait V ht _
  have hcsr : Clocked.LeadsTo (fun t => (Core.run V imem inp t).iexec.state = .csrReadWait)
      (fun t => (Core.run V imem inp t).iexec.state = .running) :=
    Clocked.LeadsTo.of_rank (fun t => (Core.run V imem inp t).iexec.csrWaitCtr.toNat)
      fun t ht => Iexec.state_step_of_csrReadWait V ht _
  cases hst : (Core.run V imem inp t).iexec.state with
  | running => exact ⟨t, le_rfl, hst⟩
  | ls1 =>
      obtain ⟨u, htu, hu⟩ := hls (t + 1) (Iexec.state_step_of_ls1 V hst _)
      exact ⟨u, by omega, hu⟩
  | lsWait => exact hls t hst
  | divWait => exact hdiv t hst
  | csrReadWait => exact hcsr t hst

/-- While nothing is accepted the fetch stage is, from every cycle, eventually
free to act with its pc and its pending redirect unchanged. -/
theorem eventually_fetches (hfin : FiniteStalls V imem inp) {T : ℕ}
    (hquiet : ∀ u, T ≤ u → (Core.run V imem inp u).iexec.out.cxfer = false) {u : ℕ}
    (hu : T ≤ u) :
    ∃ v, u ≤ v ∧ (Core.run V imem inp v).icacheFlushAck =
        (Core.run V imem inp v).ifetch.icacheFlush ∧ (inp v).icacheHit = true ∧
      (Core.run V imem inp v).ifetch.pc = (Core.run V imem inp u).ifetch.pc ∧
      (Core.run V imem inp v).ifetch.cxferPending =
        (Core.run V imem inp u).ifetch.cxferPending := by
  -- `Same v`: nothing has happened to the fetch stage since `u`
  let Same := fun v => T ≤ v ∧
    (Core.run V imem inp v).ifetch.pc = (Core.run V imem inp u).ifetch.pc ∧
    (Core.run V imem inp v).ifetch.cxferPending = (Core.run V imem inp u).ifetch.cxferPending
  let Flushed := fun v => (Core.run V imem inp v).icacheFlushAck =
    (Core.run V imem inp v).ifetch.icacheFlush
  have hflush : Clocked.LeadsTo (fun v => Same v ∧ ¬ Flushed v)
      (fun v => Same v ∧ Flushed v) := by
    refine Clocked.LeadsTo.of_fair ?_ ?_ hfin.flush
    all_goals
      rintro v ⟨⟨hT, hpc, hpend⟩, hfl⟩ hdone
      have hx := hquiet v hT
      have hfl' : (Core.run V imem inp v).icacheFlushAck ≠
        (Core.run V imem inp v).ifetch.icacheFlush := hfl
      refine ⟨⟨by omega, ?_, ?_⟩, ?_⟩ <;>
        simp [Flushed, Core.run_succ, Core.step, Ifetch.step, Core.ifetchInput, hfl', hx, hdone,
          hpc, hpend]
  have hwait : ∀ v, (Same v ∧ Flushed v) →
      ∃ w, v ≤ w ∧ (Same w ∧ Flushed w) ∧ (inp w).icacheHit = true := by
    intro v hv
    obtain ⟨w, hvw, hw⟩ := hfin.hit v
    induction hk : w - v generalizing v with
    | zero =>
        obtain rfl : w = v := by omega
        exact ⟨w, le_rfl, hv, hw⟩
    | succ k ih =>
        cases hhit : (inp v).icacheHit with
        | true => exact ⟨v, le_rfl, hv, hhit⟩
        | false =>
            obtain ⟨⟨hT, hpc, hpend⟩, hfl⟩ := hv
            have hx := hquiet v hT
            have hfl' : (Core.run V imem inp v).icacheFlushAck =
              (Core.run V imem inp v).ifetch.icacheFlush := hfl
            have hnext : Same (v + 1) ∧ Flushed (v + 1) := by
              refine ⟨⟨by omega, ?_, ?_⟩, ?_⟩ <;>
                simp [Flushed, Core.run_succ, Core.step, Ifetch.step, Core.ifetchInput, hfl', hx,
                  hhit, hpc, hpend]
            obtain ⟨x, hx', hgoal⟩ := ih (v + 1) hnext (by omega) (by omega)
            exact ⟨x, by omega, hgoal⟩
  have hsame : Same u := ⟨hu, rfl, rfl⟩
  obtain ⟨v, huv, hv⟩ : ∃ v, u ≤ v ∧ Same v ∧ Flushed v := by
    by_cases hfl : Flushed u
    · exact ⟨u, le_rfl, hsame, hfl⟩
    · exact hflush u ⟨hsame, hfl⟩
  obtain ⟨w, hvw, ⟨⟨-, hpc, hpend⟩, hfl⟩, hhit⟩ := hwait v hv
  exact ⟨w, by omega, hfl, hhit, hpc, hpend⟩

/-- While nothing is accepted the log stands still. -/
theorem acceptedBefore_eq_of_quiet {t u : ℕ} (htu : t ≤ u)
    (hno : ∀ v, t ≤ v → v < u → (Core.run V imem inp v).accepts (inp v) = false) :
    acceptedBefore V imem inp u = acceptedBefore V imem inp t := by
  induction u, htu using Nat.le_induction with
  | base => rfl
  | succ u htu ih =>
      rw [← ih fun v hv hvu => hno v hv (by omega)]
      exact Clocked.log_succ_none (by simp [acceptedAt, hno u htu (by omega)])

/-- From cycle {lit}`r` on the execute stage idles in {lit}`RUNNING` although the
program continues at {lit}`p`.  The lemmas below show that such a tail runs into
the next instruction, so that it cannot last. -/
structure Starved (V : Megafunctions) (imem : BitVec 32 → BitVec 32) (inp : ℕ → CoreInput)
    (p : BitVec 32) (r : ℕ) : Prop where
  flow : ∀ u, r ≤ u → Core.Flow imem p (Core.run V imem inp u)
  running : ∀ u, r ≤ u → (Core.run V imem inp u).iexec.state = .running
  quiet : ∀ u, r ≤ u → (Core.run V imem inp u).iexec.out.cxfer = false
  idle : ∀ u, r ≤ u → (Core.run V imem inp u).accepts (inp u) = false

namespace Starved

variable {p : BitVec 32} {r u : ℕ}

/-- A starved processor is not busy. -/
theorem not_busy (h : Starved V imem inp p r) (hu : r ≤ u) :
    (Core.run V imem inp u).iexec.out.busy = false := by
  have hbusy := (stagesOk_run V imem inp u).busy
  rw [h.running u hu] at hbusy
  exact hbusy

/-- Nothing reaches the execute stage. -/
theorem execValid (h : Starved V imem inp p r) (hu : r ≤ u) :
    (Core.run V imem inp u).idecode.execValid = false := by
  by_contra hv
  rw [Bool.not_eq_false] at hv
  have hacc : (Core.run V imem inp u).accepts (inp u) = true :=
    Core.accepts_iff.mpr ⟨h.running u hu, hv, h.quiet u hu⟩
  rw [h.idle u hu] at hacc
  cases hacc

/-- Nothing reaches the decoder. -/
theorem decodeValid (h : Starved V imem inp p r) (hu : r ≤ u) :
    (Core.run V imem inp u).ifetch.idecodeIn.valid = false := by
  have hnext := h.execValid (u := u + 1) (by omega)
  by_contra hv
  rw [Bool.not_eq_false] at hv
  simp [Core.run_succ, Core.step, Idecode.step, h.quiet u hu, h.not_busy hu, hv] at hnext

/-- The fetch stage has gone past FENCE.I only. -/
theorem passesFences (h : Starved V imem inp p r) (hu : r ≤ u)
    (hpend : (Core.run V imem inp u).ifetch.cxferPending = false) :
    PassesFences imem p (Core.run V imem inp u).ifetch.pc := by
  rcases h.flow u hu with hred | hs
  · rcases hred.raised with hx | ⟨-, hp, -, -⟩
    · rw [h.quiet u hu] at hx
      cases hx
    · rw [hpend] at hp
      cases hp
  · have hf := hs.fetch
    simpa [Core.afterDecode, Core.afterExec, Core.slotNext, h.execValid hu,
      h.decodeValid hu] using hf

/-- A hit with no redirect pending is used by the fetch stage. -/
theorem fetch_step (h : Starved V imem inp p r) (hu : r ≤ u)
    (hfl : (Core.run V imem inp u).icacheFlushAck = (Core.run V imem inp u).ifetch.icacheFlush)
    (hhit : (inp u).icacheHit = true)
    (hpend : (Core.run V imem inp u).ifetch.cxferPending = false) :
    (Core.run V imem inp (u + 1)).ifetch =
      (Core.run V imem inp u).ifetch.fetch (imem (Core.run V imem inp u).ifetch.pc) := by
  simp [Core.run_succ, Core.step, Ifetch.step, Core.ifetchInput, hfl, hhit, hpend,
    h.quiet u hu, h.not_busy hu]

/-- The fetch stage cannot stand before an instruction of the program. -/
theorem not_before (h : Starved V imem inp p r) (hfin : FiniteStalls V imem inp)
    {pc q : BitVec 32} (hpass : PassesFences imem pc q) (hq : isFenceI (imem q) = false)
    (hu : r ≤ u) (hpend : (Core.run V imem inp u).ifetch.cxferPending = false)
    (hpc : (Core.run V imem inp u).ifetch.pc = pc) : False := by
  induction hpass generalizing u with
  | refl pc =>
      obtain ⟨v, huv, hfl, hhit, hpc', hpend'⟩ := eventually_fetches hfin h.quiet hu
      have hvalid := h.decodeValid (u := v + 1) (by omega)
      rw [h.fetch_step (by omega) hfl hhit (hpend'.trans hpend), hpc', hpc] at hvalid
      simp [Ifetch.fetch, hq] at hvalid
  | fence hfence _ ih =>
      obtain ⟨v, huv, hfl, hhit, hpc', hpend'⟩ := eventually_fetches hfin h.quiet hu
      have hnext := h.fetch_step (by omega) hfl hhit (hpend'.trans hpend)
      refine ih hq (u := v + 1) (by omega) ?_ ?_
      · rw [hnext]
        exact hpend'.trans hpend
      · rw [hnext, hpc', hpc]
        simp [Ifetch.fetch, hpc', hpc, fetchNextPc_eq, successorPc_of_isFenceI hfence]

/-- A program with a next instruction does not starve. -/
theorem absurd (h : Starved V imem inp p r) (hfin : FiniteStalls V imem inp) {q : BitVec 32}
    (hq : IsNext imem p q) : False := by
  -- a redirect still pending is taken first
  obtain ⟨v, hrv, hpend⟩ : ∃ v, r ≤ v ∧
      (Core.run V imem inp v).ifetch.cxferPending = false := by
    obtain ⟨v, hrv, hfl, hhit, -, -⟩ := eventually_fetches hfin h.quiet (le_refl r)
    refine ⟨v + 1, by omega, ?_⟩
    cases hpend : (Core.run V imem inp v).ifetch.cxferPending with
    | false => simp [h.fetch_step hrv hfl hhit hpend, Ifetch.fetch, hpend]
    | true => simp [Core.run_succ, Core.step, Ifetch.step, Core.ifetchInput, hfl, hhit, hpend]
  exact h.not_before hfin ((h.passesFences hrv hpend).resume hq.1 hq.2) hq.2 hrv hpend rfl

end Starved

/-- A pipeline that has an instruction to execute accepts one. -/
theorem eventually_accepts (hfin : FiniteStalls V imem inp) (t : ℕ) {q : BitVec 32}
    (hq : IsNext imem (continuesAt 0#32 (acceptedBefore V imem inp t)) q) :
    ∃ u, t ≤ u ∧ (Core.run V imem inp u).accepts (inp u) = true := by
  by_contra hcon
  have hno : ∀ u, t ≤ u → (Core.run V imem inp u).accepts (inp u) = false := by
    intro u hu
    by_contra hacc
    exact hcon ⟨u, hu, by simpa using hacc⟩
  obtain ⟨r, htr, hr⟩ := eventually_running hfin t
  have hidle : ∀ u, r ≤ u → (Core.run V imem inp u).iexec.state = .running := by
    intro u hu
    induction u, hu using Nat.le_induction with
    | base => exact hr
    | succ u hu ih => exact Iexec.state_step_of_not_accepts V ih (hno u (by omega))
  have hstarved : Starved V imem inp (continuesAt 0#32 (acceptedBefore V imem inp t)) (r + 1) := by
    refine ⟨?_, fun u hu => hidle u (by omega), ?_, fun u hu => hno u (by omega)⟩
    · intro u hu
      have hflow := (accepted_in_programOrder V imem inp u).2
      rwa [acceptedBefore_eq_of_quiet (t := t) (by omega) fun v hv _ => hno v hv] at hflow
    · intro u hu
      obtain ⟨v, rfl⟩ : ∃ v, u = v + 1 := ⟨u - 1, by omega⟩
      exact Iexec.out_cxfer_step_of_not_accepts V (hno v (by omega))
  exact hstarved.absurd hfin hq

/-- The next instruction of the program is the next one accepted. -/
theorem next_accepted (hfin : FiniteStalls V imem inp) (t : ℕ) {q : BitVec 32}
    (hq : IsNext imem (continuesAt 0#32 (acceptedBefore V imem inp t)) q) :
    ∃ u a, t ≤ u ∧ acceptedBefore V imem inp u = acceptedBefore V imem inp t ∧
      acceptedAt V imem inp u = some a ∧ a.pc = q := by
  classical
  have hex := eventually_accepts hfin t hq
  obtain ⟨htu, hacc⟩ := Nat.find_spec hex
  have hlog : acceptedBefore V imem inp (Nat.find hex) = acceptedBefore V imem inp t := by
    refine acceptedBefore_eq_of_quiet htu fun v hv hvu => ?_
    rw [← Bool.not_eq_true]
    exact fun h => Nat.find_min hex hvu ⟨hv, h⟩
  refine ⟨Nat.find hex, _, htu, hlog, by simp only [acceptedAt, hacc]; rfl, ?_⟩
  have hflow := (accepted_in_programOrder V imem inp (Nat.find hex)).2
  obtain ⟨hnext, -, -⟩ := hflow.step_of_accepts (V := V) (stagesOk_run V imem inp _) _ hacc
  rw [hlog] at hnext
  -- both pcs end the same walk over FENCE.I words
  cases hnext.1.resume hq.1 hq.2 with
  | refl => rfl
  | fence hfence _ =>
      rw [hnext.2] at hfence
      cases hfence

/-! ## Runs without interrupts -/

/-- An instruction word that accesses the SWITCH register. -/
def isSwitchInst (inst : BitVec 32) : Bool :=
  instOpcode inst == opTypeCsr && inst.extractLsb' 20 12 == csrRegSwitch

/-- Without interrupt requests the trigger copy of the execute stage stays low. -/
theorem intrTriggerSave_run (hintr : ∀ t, (inp t).intrOut.intrTrigger = false) (t : ℕ) :
    (Core.run V imem inp t).iexec.intrTriggerSave = false := by
  refine Clocked.run_invariant (P := fun s : Core => s.iexec.intrTriggerSave = false) rfl ?_ t
  intro n h
  change Iexec.intrTriggerSave (Iexec.step V (Core.iexec _) _) = false
  rw [Iexec.intrTriggerSave_step, h]
  simp [Iexec.takesIntr, Core.iexecInput, hintr n, h]

/-- Without interrupts and SWITCH, exactly JALR and taken branches raise
{lit}`cxfer`. -/
theorem accepted_cxfer (hintr : ∀ t, (inp t).intrOut.intrTrigger = false) {t : ℕ} {a : Accepted}
    (ha : acceptedAt V imem inp t = some a) (hswitch : isSwitchInst a.inst = false) :
    a.cxfer = true ↔ instOpcode a.inst = opTypeJalr ∨
      (instOpcode a.inst = opTypeB ∧ (Core.run V imem inp (t + 1)).iexec.brResult = true) := by
  unfold acceptedAt at ha
  split at ha
  · rename_i hacc
    cases ha
    have hvalid := (Core.accepts_iff.mp hacc).2.1
    have hjalr := (stagesOk_run V imem inp t).jalr hvalid
    have hcsr : (Cmd.csr, opTypeCsr) ∈ commandClasses := by simp [commandClasses]
    have hbranch : (Cmd.branch, opTypeB) ∈ commandClasses := by simp [commandClasses]
    have hsw : Iexec.isSwitch (Core.run V imem inp t).idecode.iexecIn = false := by
      simp only [isSwitchInst, Bool.and_eq_false_iff, beq_eq_false_iff_ne, ne_eq] at hswitch
      simpa [Iexec.isSwitch, Idecode.iexecIn,
        decodeCommand_cmd_eq_iff hcsr, imp_iff_not_or] using hswitch
    have htakes : (Core.run V imem inp t).iexec.takesIntr
        ((Core.run V imem inp t).iexecInput (inp t)) = false := by
      simp [Iexec.takesIntr, Core.iexecInput, hintr t, intrTriggerSave_run hintr t]
    have hflags := Iexec.flags_step_of_accepts V hacc
    rw [htakes] at hflags
    simp only [Core.iexecInput, hsw] at hflags
    simp only [Core.run_succ, Core.step, Iexec.out, Core.iexecInput, hflags.1, hflags.2]
    simp [Idecode.iexecIn, hjalr, or_comm,
      decodeCommand_cmd_eq_iff hbranch]
  · cases ha

/-- Pipeline control flow: on every program, under every timing with finite
stalls and without interrupts and SWITCH, the accepted instructions are those of
the program in program order, each is followed by the next one, and control is
transferred by JALR and taken branches. -/
theorem pipeline_control_flow (V : Megafunctions) (imem : BitVec 32 → BitVec 32)
    (inp : ℕ → CoreInput) (hfin : FiniteStalls V imem inp)
    (hintr : ∀ t, (inp t).intrOut.intrTrigger = false)
    (hswitch : ∀ t a, acceptedAt V imem inp t = some a → isSwitchInst a.inst = false) :
    (∀ t, ProgramOrder imem 0#32 (acceptedBefore V imem inp t)) ∧
    (∀ t q, IsNext imem (continuesAt 0#32 (acceptedBefore V imem inp t)) q →
      ∃ u a, t ≤ u ∧ acceptedBefore V imem inp u = acceptedBefore V imem inp t ∧
        acceptedAt V imem inp u = some a ∧ a.pc = q) ∧
    (∀ t a, acceptedAt V imem inp t = some a →
      (a.cxfer = true ↔ instOpcode a.inst = opTypeJalr ∨
        (instOpcode a.inst = opTypeB ∧
          (Core.run V imem inp (t + 1)).iexec.brResult = true))) :=
  ⟨fun t => (accepted_in_programOrder V imem inp t).1,
    fun t _ hq => next_accepted hfin t hq,
    fun t a ha => accepted_cxfer hintr ha (hswitch t a ha)⟩

/-- A cycle in which no stage has to wait. -/
def CoreInput.ready : CoreInput where
  icacheHit := true
  flushDone := true
  dcacheHit := true
  dcacheReadData := 0#32
  dcacheWriteStrobe := false
  csrBus := 0#32
  intrOut := ⟨false, 0#4⟩

/-- A program without loads, stores, divisions and CSR accesses keeps the execute stage in
{lit}`RUNNING`. -/
theorem state_run_of_plain (V : Megafunctions) (inp : ℕ → CoreInput)
    (hplain : ∀ pc, (decodeCommand (imem pc)).cmd ∈ [.alu, .shift, .branch]) (t : ℕ) :
    (Core.run V imem inp t).iexec.state = .running := by
  induction t with
  | zero => rfl
  | succ t ih =>
      cases hacc : (Core.run V imem inp t).accepts (inp t) with
      | false => exact Iexec.state_step_of_not_accepts V ih hacc
      | true =>
          have hflow := (accepted_in_programOrder V imem inp t).2
          obtain ⟨-, hinst, -⟩ := hflow.step_of_accepts (V := V) (stagesOk_run V imem inp t) _ hacc
          have hcmd := hinst ▸ hplain _
          change Iexec.state (Iexec.mainProcess V (Core.iexec _) _) = .running
          have hmain := Iexec.mainProcess_of_accepts V hacc
          simp only [Core.run, List.mem_cons, List.not_mem_nil, or_false] at hmain hcmd ⊢
          rw [hmain]
          rcases hcmd with hcmd | hcmd | hcmd <;>
            simp [Iexec.accept, Iexec.acceptState, Core.iexecInput, Idecode.iexecIn, hcmd]

/-- BEQ to address 8, a FENCE.I there, and a JAL back to 0 behind it. -/
def loopProgram (pc : BitVec 32) : BitVec 32 :=
  if pc = 0#32 then 0x00000463#32
  else if pc = 8#32 then 0x0000100f#32
  else if pc = 12#32 then 0xff5ff06f#32
  else 0x6f#32

/-- The words of the program, one by one. -/
theorem forall_loopProgram {P : BitVec 32 → Prop}
    (h : P 0x00000463#32 ∧ P 0x0000100f#32 ∧ P 0xff5ff06f#32 ∧ P 0x6f#32) (pc : BitVec 32) :
    P (loopProgram pc) := by
  obtain ⟨h1, h2, h3, h4⟩ := h
  unfold loopProgram
  split_ifs
  exacts [h1, h2, h3, h4]

/-- Every second lookup is a miss, and a flush is completed in every third cycle only. -/
def stalledInput (t : ℕ) : CoreInput :=
  { CoreInput.ready with icacheHit := t % 2 = 1, flushDone := t % 3 = 0 }

/-- Under these stalls the loop goes from the branch over the FENCE.I to the JAL and back, and
from the branch on again. -/
theorem pipeline_control_flow_loop :
    ((acceptedBefore .documented loopProgram stalledInput 25).map fun a => (a.pc, a.nextPc)) =
        [(0#32, 8#32), (12#32, 0#32), (0#32, 8#32)] ∧
      ProgramOrder loopProgram 0#32 (acceptedBefore .documented loopProgram stalledInput 25) ∧
      ∃ u a, 25 ≤ u ∧ acceptedBefore .documented loopProgram stalledInput u =
          acceptedBefore .documented loopProgram stalledInput 25 ∧
        acceptedAt .documented loopProgram stalledInput u = some a ∧ a.pc = 12#32 := by
  have hlog : ((acceptedBefore .documented loopProgram stalledInput 25).map
      fun a => (a.pc, a.nextPc)) = [(0#32, 8#32), (12#32, 0#32), (0#32, 8#32)] := by
    decide +kernel
  have hplain := forall_loopProgram (P := fun w => (decodeCommand w).cmd ∈ [.alu, .shift, .branch])
    (by decide)
  have hfin : FiniteStalls .documented loopProgram stalledInput :=
    ⟨fun t => ⟨2 * t + 1, by omega, by simp [stalledInput]⟩,
      fun t => ⟨3 * t, by omega, by simp [stalledInput]⟩,
      fun t => ⟨t, le_rfl, by simp [state_run_of_plain .documented stalledInput hplain t]⟩⟩
  have hswitch : ∀ t a, acceptedAt .documented loopProgram stalledInput t = some a →
      isSwitchInst a.inst = false := by
    intro t a ha
    have hmem : a ∈ acceptedBefore .documented loopProgram stalledInput (t + 1) := by
      simp [acceptedBefore, Clocked.log_succ_some ha]
    have hord := (accepted_in_programOrder .documented loopProgram stalledInput (t + 1)).1
    rw [hord.inst_eq hmem]
    exact forall_loopProgram (P := fun w => isSwitchInst w = false) (by decide) _
  have hnext : continuesAt 0#32 (acceptedBefore .documented loopProgram stalledInput 25) =
      8#32 := by
    decide +kernel
  obtain ⟨horder, hprogress, -⟩ :=
    pipeline_control_flow .documented loopProgram stalledInput hfin (fun _ => rfl) hswitch
  refine ⟨hlog, horder 25, hprogress 25 12#32 ?_⟩
  rw [hnext]
  exact ⟨.fence (by decide) (.refl _), by decide⟩

end Sumeru
