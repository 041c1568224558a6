import Mathlib.Order.Basic

/-!
# Fair Runs

Threads that share a state and take turns in an order nobody controls: `step t` is the next step
of the thread `t`, and a schedule says whose turn it is, forever. A schedule is fair when every
thread has infinitely many turns. Nothing is said about how long a thread waits for one.

A loop that tries again until another thread has done its part makes no progress by itself, so
no number drops with every step. The rule of this module asks for less (`Variant`): in every
state one thread is *helpful*, its step lowers the rank, and the steps of the others lower the
rank too or leave both the rank and the helpful thread as they are.

## Main result

* `Variant.eventually`: with a variant, every fair run reaches its goal.
-/

namespace FairRuns

variable {τ σ : Type*}

/-- The state after the first `n` turns of a schedule. -/
def stateAt (step : τ → σ → σ) (schedule : ℕ → τ) (s : σ) : ℕ → σ
  | 0 => s
  | n + 1 => step (schedule n) (stateAt step schedule s n)

/-- Every thread always gets another turn. -/
def Fair (schedule : ℕ → τ) : Prop := ∀ t n, ∃ m, n ≤ m ∧ schedule m = t

/-- A rank that the helpful thread lowers and that no thread raises, as long as the states
satisfy the invariant and the goal is not reached. -/
structure Variant (step : τ → σ → σ) (invariant goal : σ → Prop) (rank : σ → ℕ)
    (helpful : σ → τ) : Prop where
  keeps : ∀ s t, invariant s → invariant (step t s)
  helps : ∀ s, invariant s → ¬goal s → rank (step (helpful s) s) < rank s
  others : ∀ s t, invariant s → ¬goal s → rank (step t s) < rank s ∨
    rank (step t s) = rank s ∧ helpful (step t s) = helpful s

variable {step : τ → σ → σ} {invariant goal : σ → Prop} {rank : σ → ℕ} {helpful : σ → τ}
  {schedule : ℕ → τ} {s : σ}

/-- What every step keeps holds after every number of turns. -/
theorem stateAt_inv (hkeeps : ∀ s t, invariant s → invariant (step t s)) (schedule : ℕ → τ)
    (hs : invariant s) (n : ℕ) : invariant (stateAt step schedule s n) := by
  induction n with
  | zero => exact hs
  | succ n ih => exact hkeeps _ _ ih

namespace Variant

/-- By the next turn of the thread that is helpful now, the rank has dropped. -/
theorem drops (h : Variant step invariant goal rank helpful) (hs : invariant s) (d : ℕ) {n : ℕ}
    (hturn : schedule (n + d) = helpful (stateAt step schedule s n)) :
    ∃ m, n ≤ m ∧ (goal (stateAt step schedule s m) ∨
      rank (stateAt step schedule s m) < rank (stateAt step schedule s n)) := by
  induction d generalizing n with
  | zero =>
      by_cases hgoal : goal (stateAt step schedule s n)
      · exact ⟨n, Nat.le_refl n, .inl hgoal⟩
      · have hdrop := h.helps _ (stateAt_inv h.keeps schedule hs n) hgoal
        rw [← hturn] at hdrop
        exact ⟨n + 1, Nat.le_succ n, .inr hdrop⟩
  | succ d ih =>
      by_cases hgoal : goal (stateAt step schedule s n)
      · exact ⟨n, Nat.le_refl n, .inl hgoal⟩
      have hinv := stateAt_inv h.keeps schedule hs n
      rcases h.others _ (schedule n) hinv hgoal with hdrop | ⟨hrank, hsame⟩
      · exact ⟨n + 1, Nat.le_succ n, .inr hdrop⟩
      · have hturn' : schedule (n + 1 + d) = helpful (stateAt step schedule s (n + 1)) := by
          have hnext : helpful (stateAt step schedule s (n + 1)) =
              helpful (stateAt step schedule s n) := hsame
          rw [hnext, ← hturn]
          congr 1
          omega
        obtain ⟨m, hm, hdone⟩ := ih hturn'
        refine ⟨m, by omega, hdone.imp_right fun hlt => ?_⟩
        exact lt_of_lt_of_eq hlt hrank

/-- **Fair runs reach their goal.** -/
theorem eventually (h : Variant step invariant goal rank helpful) (hs : invariant s)
    (hfair : Fair schedule) : ∃ n, goal (stateAt step schedule s n) := by
  suffices hfrom : ∀ k n, rank (stateAt step schedule s n) = k →
      ∃ m, goal (stateAt step schedule s m) from hfrom _ 0 rfl
  intro k
  induction k using Nat.strongRecOn with
  | ind k ih =>
      intro n hrank
      obtain ⟨m, hm, hturn⟩ := hfair (helpful (stateAt step schedule s n)) n
      obtain ⟨d, rfl⟩ := Nat.exists_eq_add_of_le hm
      obtain ⟨m, -, hgoal | hlt⟩ := h.drops hs d hturn
      · exact ⟨m, hgoal⟩
      · exact ih _ (hrank ▸ hlt) m rfl

end Variant

end FairRuns
