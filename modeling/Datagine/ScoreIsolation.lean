import Mathlib.Data.List.DropRight
import Datagine.EwmaScores
import Datagine.RollingWindows
import Datagine.StricterSettings

/-!
# Isolation of Features

All features are scored through one map and one function, and every call of `score` both reads
and updates the map. A call nevertheless reads and writes the entry of its own feature only
(`score_of_ne`, `score_of_eq`), so a feature cannot tell what else is scored: its answers and its
state are those of a detector that is used for this feature alone.

The number of samples of a feature is the number of its values since the last reset
(`samples_foldl_update`). The source counts them in a `std::size_t`, which is the same number in
all runs of fewer than `2 ^ 64` operations (`samples_le_length`).

## Main results

* `EwmaZScoreDetector.score_isolated`: every call answers from the earlier values of its feature,
  in every interleaving with other features and with resets.
-/

namespace Datagine

open Mealy DoubleArith

/-- An operation of the detector. -/
inductive DetectorOp (𝔻 : Type)
  | score (feature : String) (value : 𝔻)
  | reset

namespace DetectorOp

variable {𝔻 : Type}

/-- The operation scores the feature or resets the detector. -/
def concerns (feature : String) : DetectorOp 𝔻 → Bool
  | score feature' _ => feature' = feature
  | reset => true

/-- The call of `score`, of an operation that is one. -/
def toCall : DetectorOp 𝔻 → Option (String × 𝔻)
  | score feature value => some (feature, value)
  | reset => none

/-- The calls of `score` since the last reset. -/
def callsSinceReset (ops : List (DetectorOp 𝔻)) : List (String × 𝔻) :=
  (ops.rtakeWhile fun op => op.toCall.isSome).filterMap toCall

@[simp] theorem callsSinceReset_nil : callsSinceReset ([] : List (DetectorOp 𝔻)) = [] := by
  rw [callsSinceReset, List.rtakeWhile_nil, List.filterMap_nil]

theorem callsSinceReset_score (ops : List (DetectorOp 𝔻)) (feature : String) (value : 𝔻) :
    callsSinceReset (ops ++ [score feature value]) = callsSinceReset ops ++ [(feature, value)] := by
  rw [callsSinceReset, List.rtakeWhile_concat_pos _ _ _ rfl, List.filterMap_append]
  rfl

theorem callsSinceReset_reset (ops : List (DetectorOp 𝔻)) :
    callsSinceReset (ops ++ [reset]) = [] := by
  rw [callsSinceReset, List.rtakeWhile_concat_neg _ _ _ Bool.false_ne_true, List.filterMap_nil]

end DetectorOp

variable {𝔻 : Type} [DoubleArith 𝔻]

namespace EwmaZScoreDetector

open DetectorOp

/-- The constructor. -/
def new (config : AnomalyConfig 𝔻) : EwmaZScoreDetector 𝔻 := { config := config }

/-- One operation; a reset has no answer. -/
def exec (d : EwmaZScoreDetector 𝔻) : DetectorOp 𝔻 → Option 𝔻 × EwmaZScoreDetector 𝔻
  | .score feature value => d.score feature value
  | .reset => (none, d.reset)

/-- The answers to the operations that concern a feature, in a run with others. -/
def answersTo (feature : String) (d : EwmaZScoreDetector 𝔻) (ops : List (DetectorOp 𝔻)) :
    List (Option 𝔻) :=
  ((ops.zip (outputs exec d ops)).filter fun answered => answered.1.concerns feature).map Prod.snd

/-! ### One feature among others -/

/-- The two detectors are in the same state, as far as one feature can tell. -/
structure SameFeature (feature : String) (d d' : EwmaZScoreDetector 𝔻) : Prop where
  config : d.config = d'.config
  lookup : d.states.lookup feature = d'.states.lookup feature

variable {feature : String} {d d' : EwmaZScoreDetector 𝔻}

theorem SameFeature.stateOf (h : SameFeature feature d d') :
    d.stateOf feature = d'.stateOf feature := by
  rw [EwmaZScoreDetector.stateOf, EwmaZScoreDetector.stateOf, h.lookup]

/-- The score of another feature changes nothing. -/
theorem score_of_ne (h : SameFeature feature d d') {feature' : String} (hne : feature' ≠ feature)
    (value : 𝔻) : SameFeature feature (d.score feature' value).2 d' := by
  refine ⟨h.config, ?_⟩
  rw [lookup_score, if_neg hne.symm, h.lookup]

/-- The score of the feature itself is answered, and stored, alike. -/
theorem score_of_eq (h : SameFeature feature d d') (value : 𝔻) :
    (d.score feature value).1 = (d'.score feature value).1 ∧
      SameFeature feature (d.score feature value).2 (d'.score feature value).2 := by
  refine ⟨?_, h.config, ?_⟩
  · have hstate : (d.states.lookup feature).getD {} = (d'.states.lookup feature).getD {} :=
      h.stateOf
    rw [score, score, hstate, h.config]
  · rw [lookup_score, lookup_score, if_pos rfl, if_pos rfl, h.config, h.stateOf]

/-- **Isolation.** The operations that concern a feature have the answers they have alone. -/
theorem exec_isolated (h : SameFeature feature d d') (ops : List (DetectorOp 𝔻)) :
    outputs exec d' (ops.filter (concerns feature)) = answersTo feature d ops ∧
      SameFeature feature (finalState exec d ops)
        (finalState exec d' (ops.filter (concerns feature))) := by
  refine simulation_filter (R := SameFeature feature) (fun s t op hst hop => ?_)
    (fun s t op hst hop => ?_) h ops
  · cases op with
    | score feature' value => exact score_of_ne hst (of_decide_eq_false hop) value
    | reset => exact absurd hop.symm Bool.false_ne_true
  · cases op with
    | score feature' value =>
        obtain rfl : feature' = feature := of_decide_eq_true hop
        exact score_of_eq hst value
    | reset => exact ⟨rfl, hst.config, rfl⟩

/-- The same for calls of `score` only. -/
theorem scoreCall_isolated (h : SameFeature feature d d') (calls : List (String × 𝔻)) :
    SameFeature feature (finalState scoreCall d calls)
      (finalState scoreCall d' (calls.filter fun call => call.1 = feature)) := by
  refine (simulation_filter (R := SameFeature feature) (fun s t call hst hcall => ?_)
    (fun s t call hst hcall => ?_) h calls).2
  · exact score_of_ne hst (of_decide_eq_false hcall) call.2
  · obtain rfl : call.1 = feature := of_decide_eq_true hcall
    exact score_of_eq hst call.2

/-! ### The state of a feature -/

theorem config_scoreCall (d : EwmaZScoreDetector 𝔻) (calls : List (String × 𝔻)) :
    (finalState scoreCall d calls).config = d.config :=
  finalState_inv (P := fun t : EwmaZScoreDetector 𝔻 => t.config = d.config)
    (fun _ _ ht => ht) rfl calls

/-- A detector after a reset is a new one: a run is that of the calls since the last reset. -/
theorem finalState_exec (config : AnomalyConfig 𝔻) (ops : List (DetectorOp 𝔻)) :
    finalState exec (new config) ops = finalState scoreCall (new config) (callsSinceReset ops) := by
  induction ops using List.reverseRecOn with
  | nil => rw [callsSinceReset_nil]; rfl
  | append_singleton ops op ih =>
      rw [finalState_concat]
      cases op with
      | score feature value =>
          rw [callsSinceReset_score, finalState_concat, ← ih]
          rfl
      | reset =>
          rw [callsSinceReset_reset, finalState_nil, exec, EwmaZScoreDetector.reset, ih,
            config_scoreCall]
          rfl

theorem stateOf_exec (config : AnomalyConfig 𝔻) (ops : List (DetectorOp 𝔻)) (feature : String) :
    (finalState exec (new config) ops).stateOf feature =
      (valuesOf feature (callsSinceReset ops)).foldl (update config) {} := by
  rw [finalState_exec, stateOf_run]
  rfl

/-- Every value is counted once. -/
theorem samples_foldl_update (config : AnomalyConfig 𝔻) (state : EwmaState 𝔻) (values : List 𝔻) :
    (values.foldl (update config) state).samples = state.samples + values.length := by
  induction values generalizing state with
  | nil => rfl
  | cons value values ih =>
      have hstep : (update config state value).samples = state.samples + 1 := by
        rw [update]
        split_ifs with hzero
        · rw [hzero]
        · rfl
      rw [List.foldl_cons, ih, hstep, List.length_cons]
      omega

/-- No feature has more samples than the run has operations. -/
theorem samples_le_length (config : AnomalyConfig 𝔻) (ops : List (DetectorOp 𝔻))
    (feature : String) :
    ((finalState exec (new config) ops).stateOf feature).samples ≤ ops.length := by
  rw [stateOf_exec, samples_foldl_update]
  calc 0 + (valuesOf feature (callsSinceReset ops)).length
      ≤ (callsSinceReset ops).length := by
        rw [Nat.zero_add, valuesOf, List.length_map]
        exact List.length_filter_le _ _
    _ ≤ (ops.rtakeWhile fun op => op.toCall.isSome).length := List.length_filterMap_le _ _
    _ ≤ ops.length := (List.rtakeWhile_suffix _ _).length_le

/-! ### The answer to a call -/

/-- The value is scored against the state before it is added. -/
theorem score_run (config : AnomalyConfig 𝔻) (calls : List (String × 𝔻)) (feature : String)
    (value : 𝔻) :
    ((finalState scoreCall (new config) calls).score feature value).1 =
      zScore config ((valuesOf feature calls).foldl (update config) {}) value := by
  have hstate : ((finalState scoreCall (new config) calls).states.lookup feature).getD {} =
      (valuesOf feature calls).foldl (update config) {} :=
    stateOf_run (new config) calls feature
  rw [score, hstate, config_scoreCall, new]

/-- A feature is answered as soon as it has enough samples of its own. -/
theorem isSome_score_iff (config : AnomalyConfig 𝔻) (ops : List (DetectorOp 𝔻))
    (feature : String) (value : 𝔻) :
    ((finalState exec (new config) ops).score feature value).1.isSome ↔
      config.minSamples ≤ (valuesOf feature (callsSinceReset ops)).length := by
  have hsamples : ((valuesOf feature (callsSinceReset ops)).foldl (update config) {}).samples =
      (valuesOf feature (callsSinceReset ops)).length := by
    rw [samples_foldl_update]
    exact Nat.zero_add _
  rw [finalState_exec, score_run, zScore, hsamples]
  split_ifs with h
  · exact iff_of_true rfl h
  · exact iff_of_false Bool.false_ne_true h

/-- Two features, scored once each: neither has two samples. -/
example (config : AnomalyConfig 𝔻) (x y z : 𝔻) (h : config.minSamples = 2) :
    ¬((finalState exec (new config)
      [.score "bid_ask_spread" x, .score "message_rate" y]).score "message_rate" z).1.isSome := by
  rw [isSome_score_iff, h]
  exact Nat.not_succ_le_self 1

/-- The answer reads the mean, the variance and the value. -/
theorem eq_of_score_eq_some {config : AnomalyConfig 𝔻} {ops : List (DetectorOp 𝔻)}
    {feature : String} {value z : 𝔻}
    (h : ((finalState exec (new config) ops).score feature value).1 = some z) :
    z = (value - ((finalState exec (new config) ops).stateOf feature).mean) /
      sqrt (maxDouble ((finalState exec (new config) ops).stateOf feature).variance
        varianceFloor) := by
  rw [finalState_exec, score_run, ← stateOf_exec, zScore] at h
  split_ifs at h
  exact (Option.some.inj h).symm

/-- **Features are isolated.** After any interleaving of scores of any features with resets, let
`d` be the detector and `calls` the earlier calls for a feature since the last reset.

The feature has had the answers that a new detector gives to the operations that concern it. Its
entry, and the answer to its next call, are those of a new detector after `calls` alone; the
entry is built from the values of these calls, in order. The answer is a score exactly if there
are at least `minSamples` of them. It is the distance from the stored mean in units of the stored
deviation, so in any two runs, with any settings, the same mean, variance and value give the same
score. -/
theorem score_isolated (config : AnomalyConfig 𝔻) (ops : List (DetectorOp 𝔻))
    (feature : String) :
    let d := finalState exec (new config) ops
    let calls := (callsSinceReset ops).filter fun call => call.1 = feature
    let alone := finalState scoreCall (new config) calls
    outputs exec (new config) (ops.filter (concerns feature)) =
        answersTo feature (new config) ops ∧
      d.states.lookup feature = alone.states.lookup feature ∧
      d.stateOf feature = (calls.map Prod.snd).foldl (update config) {} ∧
      ∀ value,
        (d.score feature value).1 = (alone.score feature value).1 ∧
          (d.score feature value).2.states.lookup feature =
            (alone.score feature value).2.states.lookup feature ∧
          ((d.score feature value).1.isSome ↔ config.minSamples ≤ calls.length) ∧
          (∀ z, (d.score feature value).1 = some z →
            z = (value - (d.stateOf feature).mean) /
              sqrt (maxDouble (d.stateOf feature).variance varianceFloor)) ∧
          ∀ (config' : AnomalyConfig 𝔻) (ops' : List (DetectorOp 𝔻)) (feature' : String)
            (z z' : 𝔻),
            let d' := finalState exec (new config') ops'
            (d.stateOf feature).mean = (d'.stateOf feature').mean →
            (d.stateOf feature).variance = (d'.stateOf feature').variance →
            (d.score feature value).1 = some z → (d'.score feature' value).1 = some z' →
            z = z' := by
  intro d calls alone
  have hself : SameFeature feature (new config) (new config) := ⟨rfl, rfl⟩
  have halone : SameFeature feature d alone := by
    have hruns := scoreCall_isolated hself (callsSinceReset ops)
    rwa [← finalState_exec] at hruns
  have hlength : calls.length = (valuesOf feature (callsSinceReset ops)).length := by
    rw [valuesOf, List.length_map]
  refine ⟨(exec_isolated hself ops).1, halone.lookup, stateOf_exec config ops feature,
    fun value => ?_⟩
  obtain ⟨hanswer, hstored⟩ := score_of_eq halone value
  refine ⟨hanswer, hstored.lookup, ?_, fun z hz => eq_of_score_eq_some hz, ?_⟩
  · rw [hlength]
    exact isSome_score_iff config ops feature value
  · intro config' ops' feature' z z' d' hmean hvariance hz hz'
    rw [eq_of_score_eq_some hz, eq_of_score_eq_some hz', hmean, hvariance]

end EwmaZScoreDetector

/-! ### The monitor -/

/-- The calls of `score` for the features of an event, in the order of the source. -/
def MicrostructureFeatures.scoreCalls (features : MicrostructureFeatures 𝔻) :
    List (String × 𝔻) :=
  features.bidAskSpread.toList.map (Prod.mk "bid_ask_spread") ++
    (if features.hasTwoSidedBook then
      [("top_n_bid_depth", ofUInt64 features.topNBidDepth),
        ("top_n_ask_depth", ofUInt64 features.topNAskDepth)]
    else []) ++
    (features.orderBookImbalance.map DoubleArith.abs).toList.map
      (Prod.mk "order_book_imbalance") ++
    [("message_rate", features.messageRate)] ++
    [("cancel_add_ratio", features.cancelAddRatio)] ++
    features.midPriceVolatility.toList.map (Prod.mk "mid_price_volatility")

end Datagine
