import Mathlib.Algebra.Group.Nat.Even
import Mathlib.Data.Nat.Count
import Mathlib.Tactic.Linarith

/-!
# Toggle handshakes

Two-phase signalling: an event is a change of level.  A requester toggles only
when its last request has been acknowledged, a server grants only an open request
and acknowledges only a granted one.  Counting the changes then gives exactly-once
service: the three counts never differ by more than one.

Main results:

- Theorem {lit}`level_eq_iff_even`: a level shows the parity of its changes.
- Theorem {lit}`Handshake.changes_le`: acknowledged, granted and requested changes
  follow each other within one.
- Theorem {lit}`Linked.step`: a requester that waits for its acknowledgement and a server that
  works on open requests only.
-/

namespace Toggle

/-- The number of changes of a level before cycle {lit}`t`. -/
def changes (b : ℕ → Bool) (t : ℕ) : ℕ :=
  Nat.count (fun u => b (u + 1) ≠ b u) t

/-- Changes counted up to the next step. -/
theorem changes_succ (b : ℕ → Bool) (t : ℕ) :
    changes b (t + 1) = changes b t + if b (t + 1) ≠ b t then 1 else 0 :=
  Nat.count_succ _ _

/-- Changes only grow. -/
theorem changes_mono (b : ℕ → Bool) {u t : ℕ} (h : u ≤ t) : changes b u ≤ changes b t :=
  Nat.count_monotone _ h

/-- A level is back where it was after an even number of changes. -/
theorem level_eq_iff_even {b : ℕ → Bool} {u t : ℕ} (h : u ≤ t) :
    b t = b u ↔ Even (changes b t - changes b u) := by
  induction t, h using Nat.le_induction with
  | base => simp
  | succ t h ih =>
      have hmono := changes_mono b h
      rw [changes_succ]
      by_cases hc : b (t + 1) = b t
      · simpa [hc] using ih
      · have hflip : b (t + 1) = b u ↔ ¬ b t = b u := by
          cases h1 : b (t + 1) <;> cases h2 : b t <;> cases h3 : b u <;> simp_all
        rw [hflip, ih, if_pos hc, Nat.sub_add_comm hmono, Nat.even_add_one]

/-- Requests and acknowledgements of two parties: at most the last request is open, and the
levels show whether it is. -/
theorem changes_eq_of_ack {req ack : ℕ → Bool} (hstart : req 0 = ack 0)
    (hreq : ∀ t, req (t + 1) ≠ req t → ack t = req t)
    (hack : ∀ t, ack (t + 1) ≠ ack t → req t ≠ ack t) (t : ℕ) :
    changes req t = changes ack t + if req t ≠ ack t then 1 else 0 := by
  induction t with
  | zero => simp [changes, hstart]
  | succ t ih =>
      rw [changes_succ, changes_succ, ih]
      by_cases hopen : req t = ack t
      · have hk : ack (t + 1) = ack t := by
          by_contra hne
          exact hack t hne hopen
        simp [hopen, hk]
      · have hr : req (t + 1) = req t := by
          by_contra hne
          exact hopen (hreq t hne).symm
        have hflip : req t ≠ ack (t + 1) ↔ ack (t + 1) = ack t := by
          cases hx : req t <;> cases hy : ack t <;> cases hz : ack (t + 1) <;> simp_all
        by_cases hk : ack (t + 1) = ack t
        · simp [hr, hk, hopen]
        · simp [hr, hk, not_not.mp (mt hflip.mp hk)]

/-- An open request that its requester holds stays as it is while its acknowledgement rests. -/
theorem held_of_open {req ack : ℕ → Bool} (hheld : ∀ t, ack t ≠ req t → req (t + 1) = req t)
    {t u : ℕ} (htu : t ≤ u) (hopen : ack t ≠ req t)
    (hack : ∀ v, t ≤ v → v ≤ u → ack v = ack t) : req (u + 1) = req t := by
  induction u, htu using Nat.le_induction with
  | base => exact hheld t hopen
  | succ u htu ih =>
      have hsame := ih fun v h1 h2 => hack v h1 (by omega)
      rw [← hsame]
      refine hheld (u + 1) ?_
      rw [hack (u + 1) (by omega) le_rfl, hsame]
      exact hopen

/-- The rules of the three parties. -/
structure Handshake (req grant ack : ℕ → Bool) : Prop where
  start : req 0 = grant 0 ∧ grant 0 = ack 0
  req_change : ∀ t, req (t + 1) ≠ req t → ack t = req t
  grant_change : ∀ t, grant (t + 1) ≠ grant t → req t ≠ grant t ∧ ack t = grant t
  ack_change : ∀ t, ack (t + 1) ≠ ack t → grant t ≠ ack t

variable {req grant ack : ℕ → Bool}

/-- The levels tell which counts are ahead: an open request shows between
{lit}`req` and {lit}`grant`, a granted one between {lit}`grant` and {lit}`ack`, and never
both. -/
theorem Handshake.levels (h : Handshake req grant ack) (t : ℕ) :
    changes req t = changes grant t + (if req t ≠ grant t then 1 else 0) ∧
      changes grant t = changes ack t + (if grant t ≠ ack t then 1 else 0) ∧
      (grant t ≠ ack t → req t = grant t) := by
  induction t with
  | zero => simp [changes, h.start.1, h.start.2]
  | succ t ih =>
      obtain ⟨hreq, hgrant, hboth⟩ := ih
      have h1 := h.req_change t
      have h2 := h.grant_change t
      have h3 := h.ack_change t
      rw [changes_succ req, changes_succ grant, changes_succ ack, hreq, hgrant]
      by_cases hgk : grant t = ack t
      · have hk : ack (t + 1) = ack t := by
          by_contra hne
          exact h3 hne hgk
        by_cases hag : req t = grant t
        · -- all levels agree: only a new request can appear
          have hg : grant (t + 1) = grant t := by
            by_contra hne
            exact (h2 hne).1 hag
          simp [hg, hk, hgk, hag]
        · -- an open request: it is held, and may be granted
          have ha : req (t + 1) = req t := by
            by_contra hne
            exact hag ((h1 hne).symm.trans hgk.symm)
          by_cases hg : grant (t + 1) = grant t
          · simp [ha, hg, hk, hgk]
          · have hnew : grant (t + 1) = req t := by
              cases hr : req t <;> cases hx : grant t <;> cases hy : grant (t + 1) <;> simp_all
            rw [ha, hk, hnew, ← hgk]
            simp [hag]
      · -- a granted request: only its acknowledgement can appear
        have hag := hboth hgk
        have ha : req (t + 1) = req t := by
          by_contra hne
          exact hgk (hag.symm.trans (h1 hne).symm)
        have hg : grant (t + 1) = grant t := by
          by_contra hne
          exact (h2 hne).1 hag
        by_cases hk : ack (t + 1) = ack t
        · simp [ha, hg, hk, hgk, hag]
        · have hnew : ack (t + 1) = grant t := by
            cases hr : ack t <;> cases hx : grant t <;> cases hy : ack (t + 1) <;> simp_all
          rw [ha, hg, hnew, hag]
          simp [hgk]

/-- An acknowledge follows a grant, and a grant a request. -/
theorem Handshake.changes_le (h : Handshake req grant ack) (t : ℕ) :
    changes ack t ≤ changes grant t ∧ changes grant t ≤ changes req t ∧
      changes req t ≤ changes ack t + 1 := by
  obtain ⟨h1, h2, h3⟩ := h.levels t
  by_cases hg : grant t = ack t
  · simp only [hg, ne_eq, not_true_eq_false, if_false] at h1 h2
    split at h1 <;> omega
  · simp only [h3 hg, ne_eq, not_true_eq_false, if_false] at h1
    simp only [hg, ne_eq, not_false_eq_true, if_true] at h2
    omega

/-! ## A requester that waits -/

/-- A request is open only while its requester waits, and the server works only on an open
request. -/
structure Linked (waits : Prop) (req ack : Bool) (serves : Prop) : Prop where
  rest : ¬ waits → req = ack
  serve : serves → req ≠ ack

/-- One step of both: the requester begins to wait with a new request and stops when it sees the
acknowledgement, the server begins with an open request and stops with its acknowledgement. -/
theorem Linked.step {waits waits' serves serves' : Prop} {req req' ack ack' : Bool}
    (h : Linked waits req ack serves)
    (hreq : (req' = !req ∧ ¬ waits ∧ waits') ∨
      (req' = req ∧ (¬ waits → ¬ waits') ∧ (¬ waits' → waits → req = ack)))
    (hack : (ack' = ack ∧ (serves' → serves ∨ req ≠ ack)) ∨ (ack' = !ack ∧ serves ∧ ¬ serves')) :
    Linked waits' req' ack' serves' := by
  constructor
  · intro hno
    rcases hreq with ⟨-, -, hyes⟩ | ⟨hsame, -, hseen⟩
    · exact absurd hyes hno
    · have heq : req = ack := by
        by_cases hw : waits
        · exact hseen hno hw
        · exact h.rest hw
      rcases hack with ⟨hkeep, -⟩ | ⟨-, hs, -⟩
      · rw [hsame, hkeep, heq]
      · exact absurd heq (h.serve hs)
  · intro hs'
    rcases hack with ⟨hkeep, hfrom⟩ | ⟨-, -, hno⟩
    · have hopen : req ≠ ack := (hfrom hs').elim h.serve id
      rcases hreq with ⟨-, hno, -⟩ | ⟨hsame, -, -⟩
      · exact absurd (h.rest hno) hopen
      · rw [hsame, hkeep]
        exact hopen
    · exact absurd hs' hno

end Toggle
