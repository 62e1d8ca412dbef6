import Mathlib.Tactic.Linarith

/-!
# Clocked machines

A synchronous circuit is a transition function from the register contents and
the inputs of one cycle to the register contents of the next.  This file gives
the runs of such a machine on an infinite stream of inputs, the event logs read
off a run, and the proof rules the later modules use: a safety rule for invariants
and the rules of leads-to statements for progress.

Main results:

- Theorem {lit}`run_invariant`: a predicate that holds initially and survives
  every cycle whose input is admissible holds in every state of a run.
- Theorem {lit}`eq_last_update`: a register holds what its last update put there.
- Theorem {lit}`LeadsTo.of_fair`: a condition that persists until an event that
  occurs again and again leads to whatever that event produces.
- Theorem {lit}`LeadsTo.of_rank`: a condition under which a rank falls at every
  cycle leads to its goal.
-/

namespace Clocked

variable {σ ι α : Type*}

/-! ## Runs -/

/-- The state of a machine before its {lit}`n`-th clock edge. -/
def run (step : σ → ι → σ) (s : σ) (inp : ℕ → ι) : ℕ → σ
  | 0 => s
  | n + 1 => step (run step s inp n) (inp n)

/-- Safety rule: an invariant of the cycles with admissible inputs holds
throughout every run on admissible inputs. -/
theorem run_invariant {step : σ → ι → σ} {s : σ} {inp : ℕ → ι}
    {P : σ → Prop} (hinit : P s)
    (hstep : ∀ n, P (run step s inp n) → P (step (run step s inp n) (inp n))) :
    ∀ n, P (run step s inp n) := by
  intro n
  induction n with
  | zero => exact hinit
  | succ n ih => exact hstep n ih

/-- A run goes on from where it has come. -/
theorem run_add (step : σ → ι → σ) (s : σ) (inp : ℕ → ι) (m n : ℕ) :
    run step s inp (m + n) = run step (run step s inp m) (fun k => inp (m + k)) n := by
  induction n with
  | zero => rfl
  | succ n ih => rw [← Nat.add_assoc, run, run, ih]

/-- Two runs that meet go on together while their inputs agree. -/
theorem run_eq_of_agree {step : σ → ι → σ} {s : σ} {inp inp' : ℕ → ι} {m n : ℕ} (hmn : m ≤ n)
    (hm : run step s inp m = run step s inp' m)
    (hagree : ∀ k, m ≤ k → k < n → inp k = inp' k) : run step s inp n = run step s inp' n := by
  induction n, hmn using Nat.le_induction with
  | base => exact hm
  | succ n hmn ih =>
      rw [run, run, ih fun k h1 h2 => hagree k h1 (by omega), hagree n hmn (by omega)]

/-! ## Event logs -/

/-- The events of the first {lit}`n` cycles, oldest first. -/
def log (event : ℕ → Option α) : ℕ → List α
  | 0 => []
  | n + 1 => log event n ++ (event n).toList

/-- An event is added to the log. -/
theorem log_succ_some {event : ℕ → Option α} {n : ℕ} {a : α}
    (h : event n = some a) : log event (n + 1) = log event n ++ [a] := by
  simp [log, h]

/-- Without an event the log stays. -/
theorem log_succ_none {event : ℕ → Option α} {n : ℕ}
    (h : event n = none) : log event (n + 1) = log event n := by
  simp [log, h]

/-- A log only grows. -/
theorem log_mono (event : ℕ → Option α) {m n : ℕ} (h : m ≤ n) : log event m <+: log event n := by
  induction n, h using Nat.le_induction with
  | base => exact List.prefix_rfl
  | succ n _ ih => exact ih.trans (List.prefix_append _ _)

/-! ## Updates -/

/-- A value that changes at the cycles of {lit}`P` only is the one of the last such cycle. -/
theorem eq_last_update {m f : ℕ → α} {P : ℕ → Prop} (hset : ∀ t, P t → m (t + 1) = f t)
    (hkeep : ∀ t, ¬ P t → m (t + 1) = m t) (t : ℕ) :
    (∃ u, u < t ∧ P u ∧ (∀ v, u < v → v < t → ¬ P v) ∧ m t = f u) ∨
      ((∀ u, u < t → ¬ P u) ∧ m t = m 0) := by
  induction t with
  | zero => exact .inr ⟨fun u hu => absurd hu (by omega), rfl⟩
  | succ t ih =>
      by_cases hp : P t
      · exact .inl ⟨t, by omega, hp, fun v h1 h2 => absurd h2 (by omega), hset t hp⟩
      · rw [hkeep t hp]
        rcases ih with ⟨u, hu, hup, hno, hx⟩ | ⟨hno, hx⟩
        · refine .inl ⟨u, by omega, hup, fun v h1 h2 => ?_, hx⟩
          rcases Nat.lt_succ_iff_lt_or_eq.mp h2 with hlt | rfl
          · exact hno v h1 hlt
          · exact hp
        · refine .inr ⟨fun u hu => ?_, hx⟩
          rcases Nat.lt_succ_iff_lt_or_eq.mp hu with hlt | rfl
          · exact hno u hlt
          · exact hp

/-! ## Progress -/

/-- From every cycle at which {lit}`P` holds, {lit}`Q` holds then or later. -/
def LeadsTo (P Q : ℕ → Prop) : Prop :=
  ∀ t, P t → ∃ u, t ≤ u ∧ Q u

/-- A condition that persists until a recurring event leads to what the event
produces on the next edge. -/
theorem LeadsTo.of_fair {P Q E : ℕ → Prop}
    (hpersist : ∀ t, P t → ¬ E t → P (t + 1))
    (hfire : ∀ t, P t → E t → Q (t + 1))
    (hfair : ∀ t, ∃ u, t ≤ u ∧ E u) : LeadsTo P Q := by
  classical
  intro t ht
  obtain ⟨u, htu, hu⟩ := hfair t
  -- the first occurrence of the event at or after `t`
  induction hk : u - t generalizing t with
  | zero =>
      have : u = t := by omega
      subst this
      exact ⟨u + 1, by omega, hfire u ht hu⟩
  | succ k ih =>
      by_cases hE : E t
      · exact ⟨t + 1, by omega, hfire t ht hE⟩
      · obtain ⟨v, hv, hQ⟩ := ih (t + 1) (hpersist t ht hE) (by omega) (by omega)
        exact ⟨v, by omega, hQ⟩

/-- A condition whose rank falls at every edge that does not reach the goal
leads to the goal. -/
theorem LeadsTo.of_rank {P Q : ℕ → Prop} (rank : ℕ → ℕ)
    (hstep : ∀ t, P t → Q (t + 1) ∨ (P (t + 1) ∧ rank (t + 1) < rank t)) :
    LeadsTo P Q := by
  intro t ht
  induction hk : rank t using Nat.strong_induction_on generalizing t with
  | _ k ih =>
      rcases hstep t ht with hQ | ⟨hP, hlt⟩
      · exact ⟨t + 1, by omega, hQ⟩
      · obtain ⟨u, hu, hQ⟩ := ih (rank (t + 1)) (by omega) (t + 1) hP rfl
        exact ⟨u, by omega, hQ⟩

/-- A rank that never rises and falls at a recurring event leads to the goal. -/
theorem LeadsTo.of_fair_rank {P Q E : ℕ → Prop} (rank : ℕ → ℕ)
    (hstep : ∀ t, P t → Q (t + 1) ∨
      (P (t + 1) ∧ rank (t + 1) ≤ rank t ∧ (E t → rank (t + 1) < rank t)))
    (hfair : ∀ t, ∃ u, t ≤ u ∧ E u) : LeadsTo P Q := by
  intro t ht
  induction hk : rank t using Nat.strong_induction_on generalizing t with
  | _ k ih =>
      -- up to the next event the goal is reached or the rank falls below `k`
      have hfall : LeadsTo (fun v => P v ∧ rank v ≤ k) (fun v => Q v ∨ (P v ∧ rank v < k)) := by
        intro v hv
        obtain ⟨u, hvu, hu⟩ := hfair v
        induction hd : u - v generalizing v with
        | zero =>
            have : u = v := by omega
            subst this
            rcases hstep u hv.1 with hQ | ⟨hP, -, hlt⟩
            · exact ⟨u + 1, by omega, .inl hQ⟩
            · exact ⟨u + 1, by omega, .inr ⟨hP, by have := hlt hu; omega⟩⟩
        | succ d ihd =>
            rcases hstep v hv.1 with hQ | ⟨hP, hle, -⟩
            · exact ⟨v + 1, by omega, .inl hQ⟩
            · obtain ⟨w, hw, hgoal⟩ := ihd (v + 1) ⟨hP, by omega⟩ (by omega) (by omega)
              exact ⟨w, by omega, hgoal⟩
      obtain ⟨v, htv, hQ | ⟨hP, hlt⟩⟩ := hfall t ⟨ht, hk.le⟩
      · exact ⟨v, htv, hQ⟩
      · obtain ⟨u, hu, hQ⟩ := ih (rank v) hlt v hP rfl
        exact ⟨u, by omega, hQ⟩

/-- A condition that is reached once and then kept is reached at exactly one edge. -/
theorem existsUnique_edge {P : ℕ → Prop} {a b : ℕ} (hab : a ≤ b) (ha : ¬ P a) (hb : P b)
    (hkeep : ∀ t, a ≤ t → t < b → P t → P (t + 1)) :
    ∃! t, a ≤ t ∧ t < b ∧ ¬ P t ∧ P (t + 1) := by
  have hafter : ∀ t, a ≤ t → P t → ∀ u, t ≤ u → u ≤ b → P u := by
    intro t hat ht u htu hub
    induction u, htu using Nat.le_induction with
    | base => exact ht
    | succ u hle ih => exact hkeep u (hat.trans hle) (by omega) (ih (by omega))
  induction b, hab using Nat.le_induction with
  | base => exact absurd hb ha
  | succ b hle ih =>
      by_cases hpb : P b
      · obtain ⟨t, ⟨h1, h2, h3⟩, huniq⟩ := ih hpb (fun t h1 h2 => hkeep t h1 (by omega))
          (fun t h1 h2 u h3 h4 => hafter t h1 h2 u h3 (by omega))
        refine ⟨t, ⟨h1, by omega, h3⟩, ?_⟩
        rintro v ⟨hv1, hv2, hv3, hv4⟩
        by_cases hvb : v = b
        · exact absurd (hvb ▸ hpb) hv3
        · exact huniq v ⟨hv1, by omega, hv3, hv4⟩
      · refine ⟨b, ⟨hle, by omega, hpb, hb⟩, ?_⟩
        rintro v ⟨hv1, hv2, -, hv4⟩
        by_contra hne
        exact hpb (hafter (v + 1) (by omega) hv4 b (by omega) (by omega))

end Clocked
