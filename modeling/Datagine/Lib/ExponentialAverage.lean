import Mathlib.Algebra.BigOperators.Intervals
import Mathlib.Algebra.Order.BigOperators.Ring.Finset
import Mathlib.Tactic.Linarith
import Mathlib.Tactic.Ring

/-!
# Exponentially Weighted Averages

The average of the values `f 0, …, f n` in which each new value gets the weight `α` and the
weights of the older ones are multiplied by `1 - α`; the first value starts with weight one.
The weights add up to one for every `α`, also outside of `[0, 1]`.

## Main results

* `average_succ`: the average is updated by the newest value alone.
* `spread_succ`: so is the average of the squared distances from the average itself, although
  the average moves.
* `average_nonneg`, `exists_le_average`, `exists_average_le`: for `0 ≤ α ≤ 1` averages of
  non-negative values are non-negative and an average lies between two of the values.
-/

namespace ExponentialAverage

variable {K : Type*} [Field K]

/-- The exponentially weighted average of `f 0, …, f n`. -/
def average (α : K) (f : ℕ → K) (n : ℕ) : K :=
  (1 - α) ^ n * f 0 + ∑ i ∈ Finset.Icc 1 n, α * (1 - α) ^ (n - i) * f i

/-- The weighted average of the squared distances from the average. -/
def spread (α : K) (f : ℕ → K) (n : ℕ) : K := average α (fun i => (f i - average α f n) ^ 2) n

variable (α : K) (f : ℕ → K)

/-- The average starts at the first value. -/
@[simp] theorem average_zero : average α f 0 = f 0 := by
  simp [average]

/-- One more value. -/
theorem average_succ (n : ℕ) :
    average α f (n + 1) = (1 - α) * average α f n + α * f (n + 1) := by
  have hold : ∑ i ∈ Finset.Icc 1 n, α * (1 - α) ^ (n + 1 - i) * f i =
      (1 - α) * ∑ i ∈ Finset.Icc 1 n, α * (1 - α) ^ (n - i) * f i := by
    rw [Finset.mul_sum]
    refine Finset.sum_congr rfl fun i hi => ?_
    rw [Nat.sub_add_comm (Finset.mem_Icc.mp hi).2, pow_succ]
    ring
  rw [average, average, Finset.sum_Icc_succ_top (by omega), hold, Nat.sub_self]
  ring

/-- The weights add up to one. -/
theorem average_const (c : K) (n : ℕ) : average α (fun _ => c) n = c := by
  induction n with
  | zero => exact average_zero α _
  | succ n ih =>
      rw [average_succ, ih]
      ring

/-- The average of a sum is the sum of the averages. -/
theorem average_add (g : ℕ → K) (n : ℕ) :
    average α (fun i => f i + g i) n = average α f n + average α g n := by
  induction n with
  | zero => simp
  | succ n ih =>
      rw [average_succ, average_succ, average_succ, ih]
      ring

/-- A constant factor comes out of the average. -/
theorem average_mul_left (c : K) (n : ℕ) :
    average α (fun i => c * f i) n = c * average α f n := by
  induction n with
  | zero => simp
  | succ n ih =>
      rw [average_succ, average_succ, ih]
      ring

/-- The squared distances from any point `c`: those from the average, and the squared distance
of the average from `c`. -/
theorem average_sq_sub (c : K) (n : ℕ) :
    average α (fun i => (f i - c) ^ 2) n = spread α f n + (average α f n - c) ^ 2 := by
  set m := average α f n with hm
  have hsplit : ∀ i, (f i - c) ^ 2 =
      (f i - m) ^ 2 + (2 * (m - c) * f i + (c ^ 2 - m ^ 2)) := fun i => by ring
  rw [funext hsplit, average_add, average_add, average_mul_left, average_const, ← hm, spread,
    ← hm]
  ring

/-- A single value has no spread. -/
@[simp] theorem spread_zero : spread α f 0 = 0 := by
  simp [spread]

/-- **The spread is updated by the newest value alone.** -/
theorem spread_succ (n : ℕ) :
    spread α f (n + 1) =
      (1 - α) * (spread α f n + α * (f (n + 1) - average α f n) ^ 2) := by
  rw [spread, average_succ α (fun i => (f i - average α f (n + 1)) ^ 2), average_sq_sub,
    average_succ α f]
  ring

section Order

variable [LinearOrder K] [IsStrictOrderedRing K] {α f} (h0 : 0 ≤ α) (h1 : α ≤ 1)
include h0 h1

/-- The average of values that are not negative is not negative. -/
theorem average_nonneg {n : ℕ} (hf : ∀ i ≤ n, 0 ≤ f i) : 0 ≤ average α f n := by
  induction n with
  | zero => simpa using hf 0 le_rfl
  | succ n ih =>
      rw [average_succ]
      have hold := ih fun i hi => hf i (by omega)
      exact add_nonneg (mul_nonneg (by linarith) hold) (mul_nonneg h0 (hf (n + 1) le_rfl))

/-- The average does not exceed a bound of the values. -/
theorem average_le {n : ℕ} {M : K} (hf : ∀ i ≤ n, f i ≤ M) : average α f n ≤ M := by
  have hnonneg := average_nonneg h0 h1 (f := fun i => M + (-1) * f i) (n := n)
    fun i hi => by linarith [hf i hi]
  rw [average_add, average_const, average_mul_left] at hnonneg
  linarith

/-- One of the values is the greatest of all and not below the average. -/
theorem exists_average_le (n : ℕ) : ∃ j ≤ n, (∀ k ≤ n, f k ≤ f j) ∧ average α f n ≤ f j := by
  obtain ⟨j, hj, hmax⟩ := Finset.exists_max_image (Finset.range (n + 1)) f ⟨0, by simp⟩
  have hle : ∀ k ≤ n, f k ≤ f j := fun k hk => hmax k (Finset.mem_range.mpr (by omega))
  exact ⟨j, by simpa using Finset.mem_range_succ_iff.mp hj, hle, average_le h0 h1 hle⟩

/-- One of the values is the least of all and not above the average. -/
theorem exists_le_average (n : ℕ) : ∃ i ≤ n, (∀ k ≤ n, f i ≤ f k) ∧ f i ≤ average α f n := by
  obtain ⟨i, hi, hmax, hle⟩ := exists_average_le h0 h1 (f := fun i => (-1) * f i) n
  rw [average_mul_left] at hle
  exact ⟨i, hi, fun k hk => by linarith [hmax k hk], by linarith⟩

/-- A spread is an average of squares. -/
theorem spread_nonneg (n : ℕ) : 0 ≤ spread α f n :=
  average_nonneg h0 h1 fun _ _ => sq_nonneg _

end Order

end ExponentialAverage
