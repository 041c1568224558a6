import Datagine.AnomalyDetector
import Datagine.Lib.Mealy

/-!
# Stricter Settings

The threshold and the warm-up length decide which scores are reported and nothing else: no
window and no mean or variance depends on them. A monitor with a lower threshold and a shorter
warm-up is the same monitor with other settings (`AnomalyMonitor.withSettings`), it goes
through the same states, and it reports at least as much (`Relaxes`).

## Main results

* `stricter_settings_sublist`: along every run, the anomalies under stricter settings are a
  subsequence of those under looser settings, and the two runs go through the same states.
-/

namespace Datagine

open Mealy DoubleArith

/-- The laws of `<=` on `double` that thresholds need. They hold for all values, also where a
comparison with NaN is false. -/
class LawfulComparison (𝔻 : Type) [DoubleArith 𝔻] : Prop where
  le_trans (x y z : 𝔻) : le x y = true → le y z = true → le x z = true
  neg_le_neg (x y : 𝔻) : le x y = true → le (-y) (-x) = true

instance lawfulComparisonReal : LawfulComparison ℝ where
  le_trans x y z hxy hyz := by
    simp only [le, decide_eq_true_eq] at hxy hyz ⊢
    exact hxy.trans hyz
  neg_le_neg x y hxy := by
    simp only [le, decide_eq_true_eq] at hxy ⊢
    exact neg_le_neg_iff.mpr hxy

variable {𝔻 : Type} [DoubleArith 𝔻]

/-- The configuration with another threshold and another warm-up length. -/
def AnomalyConfig.withSettings (config : AnomalyConfig 𝔻) (threshold : 𝔻) (minSamples : ℕ) :
    AnomalyConfig 𝔻 :=
  { config with zScoreThreshold := threshold, minSamples := minSamples }

/-- An extractor with the same windows under another threshold and warm-up. -/
def FeatureExtractor.withSettings (x : FeatureExtractor 𝔻) (threshold : 𝔻) (minSamples : ℕ) :
    FeatureExtractor 𝔻 :=
  { x with config := x.config.withSettings threshold minSamples }

/-- A detector with the same feature states under another threshold and warm-up. -/
def EwmaZScoreDetector.withSettings (d : EwmaZScoreDetector 𝔻) (threshold : 𝔻)
    (minSamples : ℕ) : EwmaZScoreDetector 𝔻 :=
  { d with config := d.config.withSettings threshold minSamples }

namespace AnomalyMonitor

/-- The monitor in the same state, with another threshold and another warm-up length. -/
def withSettings (monitor : AnomalyMonitor 𝔻) (threshold : 𝔻) (minSamples : ℕ) :
    AnomalyMonitor 𝔻 :=
  ⟨monitor.config.withSettings threshold minSamples,
    monitor.extractor.withSettings threshold minSamples,
    monitor.detector.withSettings threshold minSamples⟩

/-- One call of `observe`, on an event and the book after it. -/
def observeInput (monitor : AnomalyMonitor 𝔻) (input : MarketEvent × LimitOrderBook) :
    List (AnomalyEvent 𝔻) × AnomalyMonitor 𝔻 :=
  monitor.observe input.1 input.2

end AnomalyMonitor

/-! ### Features and scores -/

/-- The features do not depend on the settings. -/
theorem FeatureExtractor.extract_withSettings (x : FeatureExtractor 𝔻) (threshold : 𝔻)
    (minSamples : ℕ) (event : MarketEvent) (book : LimitOrderBook) :
    (x.withSettings threshold minSamples).extract event book =
      ((x.extract event book).1, (x.extract event book).2.withSettings threshold minSamples) := by
  simp only [extract, withSettings, expireEventWindows, expireMidWindow,
    AnomalyConfig.withSettings]
  cases book.topOfBook.bid with
  | none => rfl
  | some bid => cases book.topOfBook.ask <;> rfl

/-- A score is stored alike; with a shorter warm-up it is answered at least as often. -/
theorem EwmaZScoreDetector.score_withSettings (d : EwmaZScoreDetector 𝔻) (threshold : 𝔻)
    {minSamples : ℕ} (h : minSamples ≤ d.config.minSamples) (feature : String) (value : 𝔻) :
    ((d.withSettings threshold minSamples).score feature value).2 =
        (d.score feature value).2.withSettings threshold minSamples ∧
      ∀ z, (d.score feature value).1 = some z →
        ((d.withSettings threshold minSamples).score feature value).1 = some z := by
  refine ⟨rfl, fun z hz => ?_⟩
  simp only [score, zScore] at hz ⊢
  split_ifs at hz with hsamples
  rw [← hz]
  exact if_pos (h.trans hsamples)

/-! ### The monitor -/

namespace AnomalyMonitor

/-- The report of a score, if there is one and it passes the threshold. -/
def report (monitor : AnomalyMonitor 𝔻) (event : MarketEvent) (feature reason : String)
    (value : 𝔻) (direction : ScoreDirection) : List (AnomalyEvent 𝔻) :=
  match (monitor.detector.score feature value).1 with
  | none => []
  | some z =>
      if passes monitor.config.zScoreThreshold z direction then
        [⟨event.timestamp, event.orderId, feature, reason, value, z⟩]
      else []

theorem maybeEmit_eq (event : MarketEvent) (feature reason : String) (value : 𝔻)
    (direction : ScoreDirection) (output : List (AnomalyEvent 𝔻) × AnomalyMonitor 𝔻) :
    maybeEmit event feature reason value direction output =
      (output.1 ++ report output.2 event feature reason value direction,
        { output.2 with detector := (output.2.detector.score feature value).2 }) := by
  simp only [maybeEmit, report]
  cases (output.2.detector.score feature value).1 with
  | none => rw [List.append_nil]
  | some z =>
      dsimp only
      split_ifs
      · rfl
      · rw [List.append_nil]

theorem maybeEmit_extractor (event : MarketEvent) (feature reason : String) (value : 𝔻)
    (direction : ScoreDirection) (output : List (AnomalyEvent 𝔻) × AnomalyMonitor 𝔻) :
    (maybeEmit event feature reason value direction output).2.extractor = output.2.extractor := by
  rw [maybeEmit_eq]

theorem maybeEmitOption_extractor (event : MarketEvent) (feature reason : String)
    (value : Option 𝔻) (direction : ScoreDirection)
    (output : List (AnomalyEvent 𝔻) × AnomalyMonitor 𝔻) :
    (maybeEmitOption event feature reason value direction output).2.extractor =
      output.2.extractor := by
  cases value with
  | none => rfl
  | some value => exact maybeEmit_extractor event feature reason value direction output

/-- An observation is one call of the extractor. -/
theorem observe_extractor (monitor : AnomalyMonitor 𝔻) (event : MarketEvent)
    (book : LimitOrderBook) :
    (monitor.observe event book).2.extractor = (monitor.extractor.extract event book).2 := by
  rw [observe]
  dsimp only
  rw [maybeEmitOption_extractor, maybeEmit_extractor, maybeEmit_extractor,
    maybeEmitOption_extractor]
  split_ifs
  · rw [maybeEmit_extractor, maybeEmit_extractor, maybeEmitOption_extractor]
  · rw [maybeEmitOption_extractor]

end AnomalyMonitor

/-! ### Reports -/

section Reports

variable [LawfulComparison 𝔻]

/-- What passes a threshold passes every lower one. -/
theorem AnomalyMonitor.passes_of_le {threshold threshold' z : 𝔻} {direction : ScoreDirection}
    (h : le threshold threshold' = true) (hpasses : passes threshold' z direction = true) :
    passes threshold z direction = true := by
  cases direction with
  | positive => exact LawfulComparison.le_trans _ _ _ h hpasses
  | negative =>
      exact LawfulComparison.le_trans _ _ _ hpasses (LawfulComparison.neg_le_neg _ _ h)
  | absolute => exact LawfulComparison.le_trans _ _ _ h hpasses

/-- The second monitor is the first one with looser settings, and has reported at least as
much. -/
structure Relaxes (threshold : 𝔻) (minSamples : ℕ)
    (output output' : List (AnomalyEvent 𝔻) × AnomalyMonitor 𝔻) : Prop where
  sublist : output.1.Sublist output'.1
  monitor : output'.2 = output.2.withSettings threshold minSamples
  lower : le threshold output.2.config.zScoreThreshold = true
  shorter : minSamples ≤ output.2.detector.config.minSamples

variable {threshold : 𝔻} {minSamples : ℕ}
  {output output' : List (AnomalyEvent 𝔻) × AnomalyMonitor 𝔻}

namespace AnomalyMonitor

/-- Looser settings report what the stricter ones do. -/
theorem report_sublist {monitor : AnomalyMonitor 𝔻}
    (hlower : le threshold monitor.config.zScoreThreshold = true)
    (hshorter : minSamples ≤ monitor.detector.config.minSamples) (event : MarketEvent)
    (feature reason : String) (value : 𝔻) (direction : ScoreDirection) :
    (report monitor event feature reason value direction).Sublist
      (report (monitor.withSettings threshold minSamples) event feature reason value
        direction) := by
  have hscore : ∀ z, (monitor.detector.score feature value).1 = some z →
      ((monitor.withSettings threshold minSamples).detector.score feature value).1 = some z :=
    (EwmaZScoreDetector.score_withSettings monitor.detector threshold hshorter feature value).2
  rw [report, report]
  cases hz : (monitor.detector.score feature value).1 with
  | none => exact List.nil_sublist _
  | some z =>
      rw [hscore z hz]
      dsimp only
      by_cases hstrict : passes monitor.config.zScoreThreshold z direction = true
      · have hloose : passes (monitor.withSettings threshold minSamples).config.zScoreThreshold z
            direction = true := passes_of_le hlower hstrict
        rw [if_pos hstrict, if_pos hloose]
      · rw [if_neg hstrict]
        exact List.nil_sublist _

theorem maybeEmit_relaxes (event : MarketEvent) (feature reason : String) (value : 𝔻)
    (direction : ScoreDirection) (h : Relaxes threshold minSamples output output') :
    Relaxes threshold minSamples (maybeEmit event feature reason value direction output)
      (maybeEmit event feature reason value direction output') := by
  rw [maybeEmit_eq, maybeEmit_eq, h.monitor]
  exact ⟨h.sublist.append (report_sublist h.lower h.shorter event feature reason value direction),
    rfl, h.lower, h.shorter⟩

theorem maybeEmitOption_relaxes (event : MarketEvent) (feature reason : String)
    (value : Option 𝔻) (direction : ScoreDirection)
    (h : Relaxes threshold minSamples output output') :
    Relaxes threshold minSamples (maybeEmitOption event feature reason value direction output)
      (maybeEmitOption event feature reason value direction output') := by
  cases value with
  | none => exact h
  | some value => exact maybeEmit_relaxes event feature reason value direction h

/-- **One observation.** -/
theorem observe_relaxes {monitor : AnomalyMonitor 𝔻}
    (hlower : le threshold monitor.config.zScoreThreshold = true)
    (hshorter : minSamples ≤ monitor.detector.config.minSamples) (event : MarketEvent)
    (book : LimitOrderBook) :
    Relaxes threshold minSamples (monitor.observe event book)
      ((monitor.withSettings threshold minSamples).observe event book) := by
  rw [observe, observe, withSettings, FeatureExtractor.extract_withSettings]
  dsimp only
  refine maybeEmitOption_relaxes _ _ _ _ _ (maybeEmit_relaxes _ _ _ _ _
    (maybeEmit_relaxes _ _ _ _ _ (maybeEmitOption_relaxes _ _ _ _ _ ?_)))
  let extracted : AnomalyMonitor 𝔻 :=
    { monitor with extractor := (monitor.extractor.extract event book).2 }
  have hstart : Relaxes threshold minSamples ([], extracted)
      ([], extracted.withSettings threshold minSamples) :=
    ⟨List.Sublist.refl _, rfl, hlower, hshorter⟩
  have hspread := maybeEmitOption_relaxes event "bid_ask_spread" "spread_widening"
    (monitor.extractor.extract event book).1.bidAskSpread .positive hstart
  split_ifs
  · exact maybeEmit_relaxes _ _ _ _ _ (maybeEmit_relaxes _ _ _ _ _ hspread)
  · exact hspread

/-- **Every run.** -/
theorem run_relaxes {monitor : AnomalyMonitor 𝔻}
    (hlower : le threshold monitor.config.zScoreThreshold = true)
    (hshorter : minSamples ≤ monitor.detector.config.minSamples)
    (inputs : List (MarketEvent × LimitOrderBook)) :
    (outputs observeInput monitor inputs).flatten.Sublist
        (outputs observeInput (monitor.withSettings threshold minSamples) inputs).flatten ∧
      finalState observeInput (monitor.withSettings threshold minSamples) inputs =
        (finalState observeInput monitor inputs).withSettings threshold minSamples := by
  induction inputs generalizing monitor with
  | nil => exact ⟨List.Sublist.refl _, rfl⟩
  | cons input inputs ih =>
      have hstep := observe_relaxes hlower hshorter input.1 input.2
      obtain ⟨hrest, hfinal⟩ := ih hstep.lower hstep.shorter
      rw [outputs_cons, outputs_cons, List.flatten_cons, List.flatten_cons, finalState_cons,
        finalState_cons, observeInput, observeInput, hstep.monitor]
      exact ⟨hstep.sublist.append hrest, hfinal⟩

end AnomalyMonitor

/-- **Stricter settings only remove anomalies.** Two monitors whose configurations differ only
in the threshold and the warm-up length observe the same inputs. What the stricter one reports
is a subsequence of what the other one reports, with the same data, and after every
observation their windows and the states of their features are the same. -/
theorem stricter_settings_sublist (config : AnomalyConfig 𝔻) (t₁ t₂ : 𝔻) (m₁ m₂ : ℕ)
    (ht : le t₁ t₂ = true) (hm : m₁ ≤ m₂) (inputs : List (MarketEvent × LimitOrderBook)) :
    let loose := AnomalyMonitor.new { config with zScoreThreshold := t₁, minSamples := m₁ }
    let strict := AnomalyMonitor.new { config with zScoreThreshold := t₂, minSamples := m₂ }
    (outputs AnomalyMonitor.observeInput strict inputs).flatten.Sublist
        (outputs AnomalyMonitor.observeInput loose inputs).flatten ∧
      ∀ pre, pre <+: inputs →
        let s := finalState AnomalyMonitor.observeInput strict pre
        let l := finalState AnomalyMonitor.observeInput loose pre
        s.extractor.messageWindow = l.extractor.messageWindow ∧
          s.extractor.cancelRatioWindow = l.extractor.cancelRatioWindow ∧
          s.extractor.midPriceWindow = l.extractor.midPriceWindow ∧
          s.detector.states = l.detector.states := by
  intro loose strict
  have hloose : loose = strict.withSettings t₁ m₁ := rfl
  rw [hloose]
  refine ⟨(AnomalyMonitor.run_relaxes ht hm inputs).1, fun pre _ => ?_⟩
  dsimp only
  rw [(AnomalyMonitor.run_relaxes ht hm pre).2]
  exact ⟨rfl, rfl, rfl, rfl⟩

end Reports

/-- The default settings against a threshold of three and a warm-up of ten samples, over the
real numbers. -/
theorem stricter_settings_sublist_defaults :
    le (3 : ℝ) 4 = true ∧
      ∀ inputs : List (MarketEvent × LimitOrderBook),
        (outputs AnomalyMonitor.observeInput
            (.new ({ zScoreThreshold := 4, minSamples := 20 } : AnomalyConfig ℝ))
            inputs).flatten.Sublist
          (outputs AnomalyMonitor.observeInput
            (.new ({ zScoreThreshold := 3, minSamples := 10 } : AnomalyConfig ℝ))
            inputs).flatten := by
  have hle : le (3 : ℝ) 4 = true := decide_eq_true (by norm_num)
  exact ⟨hle, fun inputs => (stricter_settings_sublist {} 3 4 10 20 hle (by decide) inputs).1⟩

end Datagine
