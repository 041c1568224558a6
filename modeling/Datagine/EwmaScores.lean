import Mathlib.Analysis.Real.Sqrt
import Datagine.AnomalyDetector
import Datagine.Lib.ExponentialAverage
import Datagine.Lib.Mealy

/-!
# Exponentially Weighted Scores

The detector keeps a mean and a variance for each feature and updates both with one pass of
arithmetic for each value. The state of a feature depends on the values scored for it and on
nothing else (`lookup_run`), and, when doubles are read as real numbers, these updates compute
the exponentially weighted mean of the values and their weighted variance about that mean.

## Main results

* `EwmaZScoreDetector.ewma_moments`: the closed form of the stored mean and variance after
  every sequence of scores.
-/

namespace Datagine

open Mealy ExponentialAverage

namespace EwmaZScoreDetector

section Runs

variable {𝔻 : Type}

/-- The values scored for a feature, in order. -/
def valuesOf (feature : String) (calls : List (String × 𝔻)) : List 𝔻 :=
  (calls.filter fun call => call.1 = feature).map Prod.snd

theorem valuesOf_cons (feature : String) (call : String × 𝔻) (calls : List (String × 𝔻)) :
    valuesOf feature (call :: calls) =
      if call.1 = feature then call.2 :: valuesOf feature calls else valuesOf feature calls := by
  rw [valuesOf, List.filter_cons]
  by_cases h : call.1 = feature
  · rw [if_pos (by simpa using h), if_pos h]
    rfl
  · rw [if_neg (by simpa using h), if_neg h]
    rfl

variable [DoubleArith 𝔻]

/-- One call of `score`. -/
def scoreCall (d : EwmaZScoreDetector 𝔻) (call : String × 𝔻) :
    Option 𝔻 × EwmaZScoreDetector 𝔻 :=
  d.score call.1 call.2

/-- The state of a feature; before its first value it is the default state. -/
def stateOf (d : EwmaZScoreDetector 𝔻) (feature : String) : EwmaState 𝔻 :=
  (d.states.lookup feature).getD {}

theorem lookup_score (d : EwmaZScoreDetector 𝔻) (feature : String) (value : 𝔻)
    (feature' : String) :
    (d.score feature value).2.states.lookup feature' =
      if feature' = feature then some (update d.config (d.stateOf feature) value)
      else d.states.lookup feature' := by
  by_cases h : feature' = feature
  · subst h
    rw [if_pos rfl, score, Finmap.lookup_insert, stateOf]
  · rw [if_neg h, score, Finmap.lookup_insert_of_ne _ h]

theorem stateOf_score (d : EwmaZScoreDetector 𝔻) (feature : String) (value : 𝔻)
    (feature' : String) :
    (d.score feature value).2.stateOf feature' =
      if feature' = feature then update d.config (d.stateOf feature) value
      else d.stateOf feature' := by
  rw [stateOf, lookup_score]
  split_ifs <;> rfl

/-- **The state of a feature is its own history.** A run updates it with the values scored for
the feature, in order, whatever else is scored in between. -/
theorem stateOf_run (d : EwmaZScoreDetector 𝔻) (calls : List (String × 𝔻)) (feature : String) :
    (finalState scoreCall d calls).stateOf feature =
      (valuesOf feature calls).foldl (update d.config) (d.stateOf feature) := by
  induction calls generalizing d with
  | nil => rfl
  | cons call calls ih =>
      have hstep := stateOf_score d call.1 call.2 feature
      rw [finalState_cons, ih, valuesOf_cons]
      by_cases h : call.1 = feature
      · rw [if_pos h.symm] at hstep
        rw [if_pos h, List.foldl_cons, scoreCall, hstep, h]
        rfl
      · rw [if_neg (Ne.symm h)] at hstep
        rw [if_neg h, scoreCall, hstep]
        rfl

/-- After its first value a feature has an entry. -/
theorem lookup_run (d : EwmaZScoreDetector 𝔻) {calls : List (String × 𝔻)} {feature : String}
    (h : valuesOf feature calls ≠ []) :
    (finalState scoreCall d calls).states.lookup feature =
      some ((valuesOf feature calls).foldl (update d.config) (d.stateOf feature)) := by
  rw [← stateOf_run]
  induction calls using List.reverseRecOn with
  | nil => exact absurd rfl h
  | append_singleton calls call ih =>
      rw [finalState_concat, scoreCall, stateOf, lookup_score]
      by_cases hcall : feature = call.1
      · rw [if_pos hcall]
        rfl
      · have hvalues : valuesOf feature (calls ++ [call]) = valuesOf feature calls := by
          simp [valuesOf, Ne.symm hcall]
        rw [if_neg hcall, ih (hvalues ▸ h)]
        rfl

end Runs

/-! ### Over the real numbers -/

/-- The update in ordinary arithmetic. -/
theorem update_real (config : AnomalyConfig ℝ) (state : EwmaState ℝ) (value : ℝ) :
    update config state value =
      if state.samples = 0 then ⟨value, 0, 1⟩
      else ⟨state.mean + config.ewmaAlpha * (value - state.mean),
        (1 - config.ewmaAlpha) *
          (state.variance + config.ewmaAlpha * (value - state.mean) * (value - state.mean)),
        state.samples + 1⟩ := by
  have hzero : (OfScientific.ofScientific 0 true 1 : ℝ) = 0 := by norm_num
  have hone : (OfScientific.ofScientific 10 true 1 : ℝ) = 1 := by norm_num
  rw [update]
  split_ifs
  · exact congrArg (fun v => (⟨value, v, 1⟩ : EwmaState ℝ)) hzero
  · exact congrArg (fun one : ℝ => (⟨state.mean + config.ewmaAlpha * (value - state.mean),
      (one - config.ewmaAlpha) *
        (state.variance + config.ewmaAlpha * (value - state.mean) * (value - state.mean)),
      state.samples + 1⟩ : EwmaState ℝ)) hone

/-- The recurrence of the source computes the weighted average and spread. -/
theorem foldl_update (config : AnomalyConfig ℝ) {state : EwmaState ℝ} (h : state.samples = 0)
    (x : ℕ → ℝ) (n : ℕ) :
    ((List.range (n + 1)).map x).foldl (update config) state =
      ⟨average config.ewmaAlpha x n, spread config.ewmaAlpha x n, n + 1⟩ := by
  induction n with
  | zero =>
      rw [List.range_one, List.map_singleton, List.foldl_cons, List.foldl_nil, update_real,
        if_pos h, average_zero, spread_zero]
  | succ n ih =>
      rw [List.range_succ, List.map_append, List.foldl_append, ih, List.map_singleton,
        List.foldl_cons, List.foldl_nil, update_real, if_neg (Nat.succ_ne_zero n), average_succ,
        spread_succ]
      congr 1 <;> ring

/-- **The recurrence is the weighted mean and variance.** After the values `x 0, …, x n` of a
feature, scored since construction or a reset with any other scores in between, the stored
mean `m` and variance are the exponentially weighted mean of the values and their weighted
mean squared distance from `m`. For `0 ≤ α ≤ 1` the variance is not negative, and the mean
lies between the least and the greatest of the values. -/
theorem ewma_moments (d : EwmaZScoreDetector ℝ) (calls : List (String × ℝ)) (feature : String)
    (x : ℕ → ℝ) (n : ℕ) (hvalues : valuesOf feature calls = (List.range (n + 1)).map x) :
    let α := d.config.ewmaAlpha
    let m := (1 - α) ^ n * x 0 + ∑ i ∈ Finset.Icc 1 n, α * (1 - α) ^ (n - i) * x i
    ∃ state, (finalState scoreCall d.reset calls).states.lookup feature = some state ∧
      state.mean = m ∧
      state.variance = (1 - α) ^ n * (x 0 - m) ^ 2 +
        ∑ i ∈ Finset.Icc 1 n, α * (1 - α) ^ (n - i) * (x i - m) ^ 2 ∧
      (0 ≤ α → α ≤ 1 → 0 ≤ state.variance ∧
        (∃ i ≤ n, (∀ k ≤ n, x i ≤ x k) ∧ x i ≤ state.mean) ∧
        ∃ j ≤ n, (∀ k ≤ n, x k ≤ x j) ∧ state.mean ≤ x j) := by
  have hne : valuesOf feature calls ≠ [] := by
    rw [hvalues]
    simp
  refine ⟨_, lookup_run d.reset hne, ?_⟩
  rw [hvalues, foldl_update _ rfl]
  refine ⟨rfl, rfl, fun h0 h1 => ⟨spread_nonneg h0 h1 n, ?_, ?_⟩⟩
  · exact exists_le_average h0 h1 n
  · exact exists_average_le h0 h1 n

/-- Two values of one feature with a value of another between them. -/
theorem ewma_moments_twoValues :
    let d : EwmaZScoreDetector ℝ := { config := { ewmaAlpha := 1 / 2 } }
    ∃ state, (finalState scoreCall d.reset
        [("bid_ask_spread", 1), ("message_rate", 9), ("bid_ask_spread", 3)]).states.lookup
          "bid_ask_spread" = some state ∧
      state.mean = 2 ∧ state.variance = 1 := by
  intro d
  obtain ⟨state, hstate, hmean, hvariance, -⟩ := ewma_moments d
    [("bid_ask_spread", 1), ("message_rate", 9), ("bid_ask_spread", 3)] "bid_ask_spread"
    (fun i => if i = 0 then 1 else 3) 1 (by simp [valuesOf, List.range_succ])
  refine ⟨state, hstate, ?_, ?_⟩
  · rw [hmean]
    norm_num [d]
  · rw [hvariance]
    norm_num [d]

end EwmaZScoreDetector

end Datagine
