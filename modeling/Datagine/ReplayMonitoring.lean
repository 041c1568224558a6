import Datagine.ReplayAccounting
import Datagine.ScoreIsolation
import Datagine.WindowExpiry

/-!
# What a Replay Reports as Anomalous

A replay may show its accepted events to an anomaly monitor, which has windows and statistics of
its own. The monitor only observes: whether it runs, and with which settings, no line is read or
judged differently and the book is the same. What it finds is a function of the accepted events
alone. Each value of an event is judged against the values that its feature had at the earlier
accepted events (`verdict`), and the report lists the values that pass, in the order in which the
source scores them.

The monitor reads and updates its map of statistics seven times an event. That the later values of
an event are not judged against its earlier ones is due to their features being different
(`MicrostructureFeatures.probes_nodup`).

## Main results

* `monitoring_is_passive`: replays of one file with any two settings of the monitor differ in the
  anomalies only, and without detection there are none.
* `replay_anomalies_exact`: the anomalies of a replay, by recomputation from the accepted events.
* `replay_reasons_bounded`: no reason is counted more often than there are events behind the
  warm-up.
-/

namespace Datagine

open Mealy DoubleArith Text

variable {𝔻 : Type} [DoubleArith 𝔻]

/-! ### Settings of the monitor -/

/-- The options with other settings of the anomaly monitor. -/
def ReplayOptions.withMonitoring (options : ReplayOptions 𝔻) (enable : Bool)
    (config : AnomalyConfig 𝔻) : ReplayOptions 𝔻 :=
  { options with enableAnomalyDetection := enable, anomalyConfig := config }

/-- The result without what the monitor has found. -/
def ReplayResult.unmonitored (result : ReplayResult 𝔻) : ReplayResult 𝔻 :=
  { result with anomalies := [], anomalyReasonCounts := ∅ }

namespace ReplayState

/-- The two replays have the same book and the same result, anomalies aside. -/
structure SameApart (s t : ReplayState 𝔻) : Prop where
  book : s.book = t.book
  result : s.result.unmonitored = t.result.unmonitored

variable {s t : ReplayState 𝔻} {options : ReplayOptions 𝔻}

theorem SameApart.reject (h : SameApart s t) (error : ReplayError) :
    SameApart (s.reject error) (t.reject error) where
  book := h.book
  result := congrArg (fun result : ReplayResult 𝔻 =>
    { result with
      rejectedEvents := result.rejectedEvents + 1
      errors := result.errors ++ [error] }) h.result

theorem SameApart.fail (h : SameApart s t) (parsed : CsvParseResult) :
    SameApart (s.fail parsed) (t.fail parsed) where
  book := h.book
  result :=
    let error : ReplayError := ⟨.invariantFailure, parsed.lineNumber,
      "book invariant validation failed", parsed.rawRow⟩
    congrArg (fun result : ReplayResult 𝔻 =>
      { result with invariantFailed := true, errors := result.errors ++ [error] }) h.result

/-- An accepted event is counted alike, whatever the monitors find. -/
theorem SameApart.counted (h : SameApart s t) (options options' : ReplayOptions 𝔻)
    (event : MarketEvent) : SameApart (s.counted options event) (t.counted options' event) where
  book := h.book
  result := congrArg (fun result : ReplayResult 𝔻 =>
    { result with eventsProcessed := result.eventsProcessed + 1 }) h.result

/-- **One pass.** The loop is left or continued alike. -/
theorem SameApart.step (h : SameApart s t) (enable : Bool) (config : AnomalyConfig 𝔻)
    (parsed : CsvParseResult) :
    (s.step options parsed).1 = (t.step (options.withMonitoring enable config) parsed).1 ∧
      SameApart (s.step options parsed).2
        (t.step (options.withMonitoring enable config) parsed).2 := by
  rw [ReplayState.step, ReplayState.step]
  split_ifs with hstatus
  · exact ⟨rfl, h.reject _⟩
  · cases parsed.event with
    | none => exact ⟨rfl, h⟩
    | some event =>
        dsimp only
        rw [h.book]
        have hnext : SameApart { s with book := (t.book.apply event).2 }
            { t with book := (t.book.apply event).2 } := ⟨rfl, h.result⟩
        split_ifs with happlied
        · exact ⟨rfl, hnext.reject _⟩
        · have hcounted := hnext.counted options (options.withMonitoring enable config) event
          -- the check depends on the book and on options that are the same
          have hcheck : failsCheck (options.withMonitoring enable config) =
              failsCheck options := rfl
          rw [accept_eq, accept_eq, hcheck]
          split_ifs with hfails
          · exact ⟨rfl, hcounted.fail parsed⟩
          · exact ⟨rfl, hcounted⟩

/-- **The whole loop.** -/
theorem SameApart.haltState (h : SameApart s t) (options : ReplayOptions 𝔻) (enable : Bool)
    (config : AnomalyConfig 𝔻) (results : List CsvParseResult) :
    let left := ReplayState.step options
    let right := ReplayState.step (options.withMonitoring enable config)
    untilStop left s results = untilStop right t results ∧
      SameApart (Mealy.haltState left s results) (Mealy.haltState right t results) := by
  intro left right
  have hstep : ∀ (s t : ReplayState 𝔻) (parsed parsed' : CsvParseResult), parsed = parsed' →
      SameApart s t → (left s parsed).1 = (right t parsed').1 ∧
        SameApart (left s parsed).2 (right t parsed').2 := by
    rintro s t parsed _ rfl hst
    exact hst.step enable config parsed
  have hinputs : List.Forall₂ Eq results results := by rw [List.forall₂_eq_eq_eq]
  obtain ⟨hread, hhalt⟩ := haltState_simulation hstep h hinputs
  rw [List.forall₂_eq_eq_eq] at hread
  exact ⟨hread, hhalt⟩

end ReplayState

/-! ### The values of an event -/

/-- A value that is scored: its feature, the reason it is reported for and the scores that count
as anomalous. -/
structure Probe (𝔻 : Type) where
  feature : String
  reason : String
  value : 𝔻
  direction : ScoreDirection

/-- What `observe` scores of an event, in its order. -/
def MicrostructureFeatures.probes (features : MicrostructureFeatures 𝔻) : List (Probe 𝔻) :=
  (features.bidAskSpread.toList.map fun value =>
      ⟨"bid_ask_spread", "spread_widening", value, .positive⟩) ++
    (if features.hasTwoSidedBook then
      [⟨"top_n_bid_depth", "bid_depth_collapse", ofUInt64 features.topNBidDepth, .negative⟩,
        ⟨"top_n_ask_depth", "ask_depth_collapse", ofUInt64 features.topNAskDepth, .negative⟩]
    else []) ++
    ((features.orderBookImbalance.map DoubleArith.abs).toList.map fun value =>
      ⟨"order_book_imbalance", "imbalance_spike", value, .positive⟩) ++
    [⟨"message_rate", "message_rate_burst", features.messageRate, .positive⟩] ++
    [⟨"cancel_add_ratio", "cancel_add_ratio_spike", features.cancelAddRatio, .positive⟩] ++
    features.midPriceVolatility.toList.map fun value =>
      ⟨"mid_price_volatility", "mid_volatility_spike", value, .positive⟩

/-- The calls of `score` are those for the probes. -/
theorem MicrostructureFeatures.scoreCalls_eq (features : MicrostructureFeatures 𝔻) :
    features.scoreCalls = features.probes.map fun probe => (probe.feature, probe.value) := by
  simp only [scoreCalls, probes, List.map_append, List.map_map, apply_ite, List.map_cons,
    List.map_nil]
  rfl

/-- The features, each with the reason its anomalies are reported for. -/
def reportedFeatures : List (String × String) :=
  [("bid_ask_spread", "spread_widening")] ++
    [("top_n_bid_depth", "bid_depth_collapse"), ("top_n_ask_depth", "ask_depth_collapse")] ++
    [("order_book_imbalance", "imbalance_spike")] ++ [("message_rate", "message_rate_burst")] ++
    [("cancel_add_ratio", "cancel_add_ratio_spike")] ++
    [("mid_price_volatility", "mid_volatility_spike")]

namespace MicrostructureFeatures

/-- Every feature is scored at most once an event. -/
theorem probes_sublist (features : MicrostructureFeatures 𝔻) :
    (features.probes.map fun probe => (probe.feature, probe.reason)).Sublist
      reportedFeatures := by
  have hoption : ∀ (value : Option 𝔻) (feature reason : String) (direction : ScoreDirection),
      ((value.toList.map fun value => (⟨feature, reason, value, direction⟩ : Probe 𝔻)).map
        fun probe => (probe.feature, probe.reason)).Sublist [(feature, reason)] := by
    intro value feature reason direction
    cases value with
    | none => exact List.nil_sublist _
    | some value => exact List.Sublist.refl _
  have hdepths : ((if features.hasTwoSidedBook then
      [⟨"top_n_bid_depth", "bid_depth_collapse", ofUInt64 features.topNBidDepth, .negative⟩,
        ⟨"top_n_ask_depth", "ask_depth_collapse", ofUInt64 features.topNAskDepth, .negative⟩]
      else [] : List (Probe 𝔻)).map fun probe => (probe.feature, probe.reason)).Sublist
        [("top_n_bid_depth", "bid_depth_collapse"),
          ("top_n_ask_depth", "ask_depth_collapse")] := by
    split_ifs
    · exact List.Sublist.refl _
    · exact List.nil_sublist _
  rw [probes, reportedFeatures]
  simp only [List.map_append]
  exact (((((hoption _ _ _ _).append hdepths).append (hoption _ _ _ _)).append
    (List.Sublist.refl _)).append (List.Sublist.refl _)).append (hoption _ _ _ _)

theorem probes_nodup (features : MicrostructureFeatures 𝔻) :
    (features.probes.map Probe.feature).Nodup := by
  have hfeatures := features.probes_sublist.map Prod.fst
  rw [List.map_map] at hfeatures
  exact hfeatures.nodup (by decide)

theorem probes_reasons_nodup (features : MicrostructureFeatures 𝔻) :
    (features.probes.map Probe.reason).Nodup := by
  have hreasons := features.probes_sublist.map Prod.snd
  rw [List.map_map] at hreasons
  exact hreasons.nodup (by decide)

end MicrostructureFeatures

namespace AnomalyMonitor

open EwmaZScoreDetector

/-- Whether a value is reported, given the earlier calls of `score`: it is, when its feature has
enough earlier values and its distance from their exponentially weighted mean passes the
threshold. -/
def verdict (config : AnomalyConfig 𝔻) (calls : List (String × 𝔻)) (event : MarketEvent)
    (probe : Probe 𝔻) : Option (AnomalyEvent 𝔻) :=
  match zScore config ((valuesOf probe.feature calls).foldl (update config) {}) probe.value with
  | none => none
  | some z =>
      if passes config.zScoreThreshold z probe.direction then
        some ⟨event.timestamp, event.orderId, probe.feature, probe.reason, probe.value, z⟩
      else none

/-- `maybe_emit` for a probe. -/
def emit (event : MarketEvent) (output : List (AnomalyEvent 𝔻) × AnomalyMonitor 𝔻)
    (probe : Probe 𝔻) : List (AnomalyEvent 𝔻) × AnomalyMonitor 𝔻 :=
  maybeEmit event probe.feature probe.reason probe.value probe.direction output

theorem maybeEmitOption_eq (event : MarketEvent) (feature reason : String) (value : Option 𝔻)
    (direction : ScoreDirection) (output : List (AnomalyEvent 𝔻) × AnomalyMonitor 𝔻) :
    maybeEmitOption event feature reason value direction output =
      (value.toList.map fun value => (⟨feature, reason, value, direction⟩ : Probe 𝔻)).foldl
        (emit event) output := by
  cases value <;> rfl

/-- An observation emits the probes of the features, one after the other. -/
theorem observe_eq_foldl (monitor : AnomalyMonitor 𝔻) (event : MarketEvent)
    (book : LimitOrderBook) :
    monitor.observe event book =
      (monitor.extractor.extract event book).1.probes.foldl (emit event)
        ([], { monitor with extractor := (monitor.extractor.extract event book).2 }) := by
  rw [observe, MicrostructureFeatures.probes]
  simp only [List.foldl_append, maybeEmitOption_eq]
  split_ifs <;> rfl

/-- The monitor has made the calls and nothing else. -/
structure HasScored (config : AnomalyConfig 𝔻) (calls : List (String × 𝔻))
    (monitor : AnomalyMonitor 𝔻) : Prop where
  settings : monitor.config = config
  detector : monitor.detector = finalState scoreCall (.new config) calls

variable {config : AnomalyConfig 𝔻} {calls : List (String × 𝔻)}

/-- **One probe.** -/
theorem emit_eq (event : MarketEvent) {output : List (AnomalyEvent 𝔻) × AnomalyMonitor 𝔻}
    (h : HasScored config calls output.2) (probe : Probe 𝔻) :
    (emit event output probe).1 = output.1 ++ (verdict config calls event probe).toList ∧
      HasScored config (calls ++ [(probe.feature, probe.value)]) (emit event output probe).2 := by
  rw [emit, maybeEmit_eq]
  refine ⟨?_, h.settings, ?_⟩
  · rw [report, verdict, h.settings, h.detector, score_run]
    cases zScore config ((valuesOf probe.feature calls).foldl (update config) {}) probe.value with
    | none => rfl
    | some z =>
        dsimp only
        split_ifs <;> rfl
  · rw [finalState_concat, ← h.detector, scoreCall]

/-- The calls for other features do not matter. -/
theorem verdict_concat (event : MarketEvent) {probe : Probe 𝔻} {call : String × 𝔻}
    (hne : probe.feature ≠ call.1) :
    verdict config (calls ++ [call]) event probe = verdict config calls event probe := by
  have hvalues : valuesOf probe.feature (calls ++ [call]) = valuesOf probe.feature calls := by
    rw [valuesOf, List.filter_append, List.filter_singleton, decide_eq_false hne.symm, valuesOf]
    simp
  rw [verdict, hvalues, verdict]

/-- **The probes of one event.** All are judged against the calls for earlier events. -/
theorem foldl_emit (event : MarketEvent) {probes : List (Probe 𝔻)}
    (hnodup : (probes.map Probe.feature).Nodup)
    {output : List (AnomalyEvent 𝔻) × AnomalyMonitor 𝔻} (h : HasScored config calls output.2) :
    (probes.foldl (emit event) output).1 =
        output.1 ++ probes.filterMap (verdict config calls event) ∧
      HasScored config (calls ++ probes.map fun probe => (probe.feature, probe.value))
        (probes.foldl (emit event) output).2 := by
  induction probes generalizing calls output with
  | nil =>
      rw [List.map_nil, List.append_nil, List.filterMap_nil, List.append_nil]
      exact ⟨rfl, h⟩
  | cons probe probes ih =>
      rw [List.map_cons, List.nodup_cons] at hnodup
      obtain ⟨hemitted, hscored⟩ := emit_eq event h probe
      obtain ⟨hrest, hafter⟩ := ih hnodup.2 hscored
      have hsame : probes.filterMap
          (verdict config (calls ++ [(probe.feature, probe.value)]) event) =
            probes.filterMap (verdict config calls event) := by
        refine List.filterMap_congr fun later hlater => verdict_concat event ?_
        intro (heq : later.feature = probe.feature)
        exact hnodup.1 (heq ▸ List.mem_map_of_mem hlater)
      refine ⟨?_, ?_⟩
      · rw [List.foldl_cons, hrest, hemitted, hsame, List.append_assoc]
        cases hverdict : verdict config calls event probe with
        | none => rw [List.filterMap_cons_none hverdict]; rfl
        | some anomaly => rw [List.filterMap_cons_some hverdict]; rfl
      · rw [List.foldl_cons, List.map_cons]
        rwa [List.append_assoc] at hafter

/-- **One observation.** -/
theorem observe_eq {monitor : AnomalyMonitor 𝔻} (h : HasScored config calls monitor)
    (event : MarketEvent) (book : LimitOrderBook) :
    let features := (monitor.extractor.extract event book).1
    (monitor.observe event book).1 = features.probes.filterMap (verdict config calls event) ∧
      HasScored config (calls ++ features.scoreCalls) (monitor.observe event book).2 := by
  intro features
  have hstart : HasScored config calls
      { monitor with extractor := (monitor.extractor.extract event book).2 } :=
    ⟨h.settings, h.detector⟩
  rw [observe_eq_foldl, MicrostructureFeatures.scoreCalls_eq]
  exact foldl_emit event features.probes_nodup hstart

/-! ### All events -/

/-- The report on some events with their features, behind the given calls: each event is judged
against what was scored for the events before it. -/
def reportsAlong (config : AnomalyConfig 𝔻) :
    List (String × 𝔻) → List (MarketEvent × MicrostructureFeatures 𝔻) → List (AnomalyEvent 𝔻)
  | _, [] => []
  | calls, (event, features) :: rest =>
      features.probes.filterMap (verdict config calls event) ++
        reportsAlong config (calls ++ features.scoreCalls) rest

/-- The report on a list of events, each with the book after it, by the features that a new
extractor finds. -/
def expectedAnomalies (config : AnomalyConfig 𝔻) (inputs : List (MarketEvent × LimitOrderBook)) :
    List (AnomalyEvent 𝔻) :=
  reportsAlong config []
    ((inputs.map Prod.fst).zip (outputs FeatureExtractor.extractFrom (.new config) inputs))

/-- What is found in an event is reported, whatever comes before and behind it. -/
theorem mem_reportsAlong {pre post : List (MarketEvent × MicrostructureFeatures 𝔻)}
    {event : MarketEvent} {features : MicrostructureFeatures 𝔻} {probe : Probe 𝔻}
    (hprobe : probe ∈ features.probes) {anomaly : AnomalyEvent 𝔻}
    (h : verdict config (calls ++ pre.flatMap fun call => call.2.scoreCalls) event probe =
      some anomaly) :
    anomaly ∈ reportsAlong config calls (pre ++ (event, features) :: post) := by
  induction pre generalizing calls with
  | nil =>
      rw [List.flatMap_nil, List.append_nil] at h
      rw [List.nil_append, reportsAlong]
      exact List.mem_append_left _ (List.mem_filterMap.mpr ⟨probe, hprobe, h⟩)
  | cons call pre ih =>
      rw [List.flatMap_cons, ← List.append_assoc] at h
      rw [List.cons_append, reportsAlong]
      exact List.mem_append_right _ (ih h)

/-- **Every run of the monitor.** -/
theorem outputs_observe_eq {monitor : AnomalyMonitor 𝔻} (h : HasScored config calls monitor)
    (inputs : List (MarketEvent × LimitOrderBook)) :
    (outputs observeInput monitor inputs).flatten =
      reportsAlong config calls ((inputs.map Prod.fst).zip
        (outputs FeatureExtractor.extractFrom monitor.extractor inputs)) := by
  induction inputs generalizing calls monitor with
  | nil => rfl
  | cons input inputs ih =>
      obtain ⟨hfound, hscored⟩ := observe_eq h input.1 input.2
      have hextractor : (monitor.observe input.1 input.2).2.extractor =
          (monitor.extractor.extractFrom input).2 :=
        observe_extractor monitor input.1 input.2
      rw [outputs_cons, List.flatten_cons, outputs_cons, List.map_cons, List.zip_cons_cons,
        reportsAlong, observeInput, hfound, ih hscored, hextractor]
      rfl

/-! ### Warming up -/

/-- A report is about a probe whose feature has had enough values. -/
theorem minSamples_le_of_verdict {event : MarketEvent} {probe : Probe 𝔻}
    {anomaly : AnomalyEvent 𝔻} (h : verdict config calls event probe = some anomaly) :
    config.minSamples ≤ (valuesOf probe.feature calls).length ∧
      anomaly.feature = probe.feature ∧ anomaly.reason = probe.reason := by
  have hsamples := samples_foldl_update config {} (valuesOf probe.feature calls)
  rw [verdict] at h
  cases hz : zScore config ((valuesOf probe.feature calls).foldl (update config) {})
      probe.value with
  | none =>
      rw [hz] at h
      cases h
  | some z =>
      rw [hz] at h
      dsimp only at h
      rw [zScore] at hz
      split_ifs at h hz with hpasses henough
      obtain rfl := Option.some.inj h
      rw [hsamples, Nat.zero_add] at henough
      exact ⟨henough, rfl, rfl⟩

theorem mem_reportedFeatures (config : AnomalyConfig 𝔻) (calls : List (String × 𝔻))
    (rest : List (MarketEvent × MicrostructureFeatures 𝔻)) :
    ∀ anomaly ∈ reportsAlong config calls rest,
      (anomaly.feature, anomaly.reason) ∈ reportedFeatures := by
  induction rest generalizing calls with
  | nil => exact List.forall_mem_nil _
  | cons input rest ih =>
      obtain ⟨event, features⟩ := input
      rw [reportsAlong]
      intro anomaly hanomaly
      rcases List.mem_append.mp hanomaly with hnow | hlater
      · obtain ⟨probe, hprobe, hverdict⟩ := List.mem_filterMap.mp hnow
        obtain ⟨-, hfeature, hreason⟩ := minSamples_le_of_verdict hverdict
        rw [hfeature, hreason]
        exact features.probes_sublist.subset (List.mem_map_of_mem hprobe)
      · exact ih _ anomaly hlater

/-- Every event brings at most one value of a feature. -/
theorem length_valuesOf_scoreCalls (feature : String) (calls : List (String × 𝔻))
    (features : MicrostructureFeatures 𝔻) :
    (valuesOf feature (calls ++ features.scoreCalls)).length ≤
      (valuesOf feature calls).length + 1 := by
  have hone : (valuesOf feature features.scoreCalls).length ≤ 1 := by
    rw [valuesOf, List.length_map, ← List.countP_eq_length_filter,
      MicrostructureFeatures.scoreCalls_eq, List.countP_map]
    exact KeyedList.countP_key_le_one features.probes_nodup feature
  rw [valuesOf, List.filter_append, List.map_append, List.length_append]
  exact Nat.add_le_add_left hone _

/-- An event has at most one anomaly of a reason, and none while every feature is warming up. -/
theorem countP_verdicts (config : AnomalyConfig 𝔻) (event : MarketEvent)
    (features : MicrostructureFeatures 𝔻) (reason : String) {seen : ℕ}
    (hseen : ∀ feature, (valuesOf feature calls).length ≤ seen) :
    (features.probes.filterMap (verdict config calls event)).countP
        (fun anomaly => anomaly.reason = reason) ≤ if seen < config.minSamples then 0 else 1 := by
  split_ifs with hwarming
  · refine (List.countP_eq_zero.mpr fun anomaly hanomaly => ?_).le
    obtain ⟨probe, -, hverdict⟩ := List.mem_filterMap.mp hanomaly
    have henough := (minSamples_le_of_verdict hverdict).1.trans (hseen probe.feature)
    exact absurd hwarming (Nat.not_lt.mpr henough)
  · rw [List.countP_filterMap]
    refine (List.countP_mono_left fun probe _ hreported => ?_).trans
      (KeyedList.countP_key_le_one features.probes_reasons_nodup reason)
    cases hverdict : verdict config calls event probe with
    | none => simp [hverdict] at hreported
    | some anomaly =>
        rw [hverdict] at hreported
        rw [← (minSamples_le_of_verdict hverdict).2.2]
        exact hreported

/-- **The warm-up.** Of some events behind `seen` earlier ones, none up to event `minSamples` has
an anomaly, and the others have at most one of each reason. -/
theorem countP_reportsAlong (reason : String) {seen : ℕ}
    (hseen : ∀ feature, (valuesOf feature calls).length ≤ seen)
    (rest : List (MarketEvent × MicrostructureFeatures 𝔻)) :
    (reportsAlong config calls rest).countP (fun anomaly => anomaly.reason = reason) ≤
      rest.length - (config.minSamples - seen) := by
  induction rest generalizing calls seen with
  | nil => exact Nat.zero_le _
  | cons input rest ih =>
      obtain ⟨event, features⟩ := input
      have hnow := countP_verdicts config event features reason hseen
      have hlater := ih fun feature =>
        (length_valuesOf_scoreCalls feature calls features).trans
          (Nat.add_le_add_right (hseen feature) 1)
      rw [reportsAlong, List.countP_append, List.length_cons]
      split_ifs at hnow
      · omega
      · omega

end AnomalyMonitor

/-! ### Replays -/

omit [DoubleArith 𝔻] in
/-- The count of a reason is the number of anomalies that were reported for it. -/
theorem lookup_summarizeAnomalyReasons (anomalies : List (AnomalyEvent 𝔻)) (reason : String) :
    ((summarizeAnomalyReasons anomalies).lookup reason).getD 0 =
      anomalies.countP fun anomaly => anomaly.reason = reason := by
  induction anomalies using List.reverseRecOn with
  | nil => rfl
  | append_singleton anomalies anomaly ih =>
      rw [summarizeAnomalyReasons_append, List.foldl_cons, List.foldl_nil, countReason,
        List.countP_append, List.countP_singleton]
      by_cases hreason : anomaly.reason = reason
      · subst hreason
        simp [Finmap.lookup_insert, ih]
      · rw [Finmap.lookup_insert_of_ne _ (Ne.symm hreason), ih]
        simp [hreason]

namespace ReplayState

/-- A rejected line adds nothing to the accepted events. -/
theorem acceptedInputs_rejected {book : LimitOrderBook} {parsed : CsvParseResult}
    (hrejects : book.Rejects parsed) (results : List CsvParseResult) :
    acceptedInputs book ((parsed :: results).filterMap CsvParseResult.event) =
      acceptedInputs book (results.filterMap CsvParseResult.event) := by
  cases hevent : parsed.event with
  | none => rw [List.filterMap_cons_none hevent]
  | some event =>
      have hnot := hrejects event hevent
      have hbook := (book.apply_outcome event).state_eq hnot
      rw [List.filterMap_cons_some hevent, acceptedInputs_cons, if_neg hnot, hbook]

/-- The check behind an accepted event leaves its findings, the book and the monitor alone. -/
theorem accept_found (options : ReplayOptions 𝔻) (parsed : CsvParseResult) (event : MarketEvent)
    (s : ReplayState 𝔻) :
    let s' := (accept options parsed event s).2
    s'.result.anomalies = s.result.anomalies ++ (s.findings options event).1 ∧
      s'.result.eventsProcessed = s.result.eventsProcessed + 1 ∧
      s'.book = s.book ∧ s'.anomalyMonitor = (s.findings options event).2 := by
  rw [accept_eq]
  split_ifs
  · exact ⟨rfl, rfl, rfl, rfl⟩
  · exact ⟨rfl, rfl, rfl, rfl⟩

/-- The anomalies after some passes are those of the monitor on the accepted events. -/
theorem anomalies_finalState (options : ReplayOptions 𝔻) {results : List CsvParseResult}
    (hlines : ∀ parsed ∈ results, parsed.IsLine) (s : ReplayState 𝔻) :
    (finalState (step options) s results).result.anomalies =
      s.result.anomalies ++
        if options.enableAnomalyDetection then
          (outputs AnomalyMonitor.observeInput s.anomalyMonitor
            (acceptedInputs s.book (results.filterMap CsvParseResult.event))).flatten
        else [] := by
  induction results generalizing s with
  | nil => simp [acceptedInputs]
  | cons parsed results ih =>
      have htail := ih (fun r hr => hlines r (List.mem_cons_of_mem parsed hr))
        (s.step options parsed).2
      rw [finalState_cons, htail]
      rcases step_cases options s (hlines parsed List.mem_cons_self) with
        ⟨hrejects, error, -, -, hstep⟩ | ⟨event, hevent, happlied, hstep⟩
      · rw [hstep, acceptedInputs_rejected hrejects]
        rfl
      · obtain ⟨hfound, -, hbook, hmonitor⟩ := accept_found options parsed event
          { s with book := (s.book.apply event).2 }
        rw [hstep, hfound, hbook, hmonitor, List.filterMap_cons_some hevent, acceptedInputs_cons,
          if_pos happlied, outputs_cons, List.flatten_cons, List.append_assoc, findings]
        split_ifs
        · rfl
        · rfl

/-- The events processed are the accepted ones. -/
theorem eventsProcessed_finalState (options : ReplayOptions 𝔻) {results : List CsvParseResult}
    (hlines : ∀ parsed ∈ results, parsed.IsLine) (s : ReplayState 𝔻) :
    (finalState (step options) s results).result.eventsProcessed = s.result.eventsProcessed +
      (acceptedInputs s.book (results.filterMap CsvParseResult.event)).length := by
  induction results generalizing s with
  | nil => rfl
  | cons parsed results ih =>
      rw [finalState_cons, ih (fun r hr => hlines r (List.mem_cons_of_mem parsed hr))]
      rcases step_cases options s (hlines parsed List.mem_cons_self) with
        ⟨hrejects, error, -, -, hstep⟩ | ⟨event, hevent, happlied, hstep⟩
      · rw [hstep, acceptedInputs_rejected hrejects]
        rfl
      · obtain ⟨-, hprocessed, hbook, -⟩ := accept_found options parsed event
          { s with book := (s.book.apply event).2 }
        rw [hstep, hprocessed, hbook, List.filterMap_cons_some hevent, acceptedInputs_cons,
          if_pos happlied, List.length_cons]
        dsimp only
        omega

end ReplayState

namespace ReplayEngine

theorem linesRead_isLine (engine : ReplayEngine) (content : List Char)
    (options : ReplayOptions 𝔻) :
    ∀ parsed ∈ engine.linesRead content options, parsed.IsLine := by
  have hread : engine.linesRead content options <+: fileResults (lines content) :=
    untilStop_prefix _ _ _
  exact fun parsed hmem => fileResults_isLine _ parsed (hread.subset hmem)

theorem stop_eventsProcessed (engine : ReplayEngine) (content : List Char)
    (options : ReplayOptions 𝔻) :
    (engine.stop content options).result.eventsProcessed =
      (engine.acceptedCalls content options).length := by
  have hrun := ReplayState.eventsProcessed_finalState options
    (engine.linesRead_isLine content options) (engine.start options)
  exact hrun.trans (Nat.zero_add _)

/-- What the loop has found when it is left. -/
theorem stop_anomalies (engine : ReplayEngine) (content : List Char)
    (options : ReplayOptions 𝔻) :
    (engine.stop content options).result.anomalies =
      if options.enableAnomalyDetection then
        AnomalyMonitor.expectedAnomalies options.anomalyConfig
          (engine.acceptedCalls content options)
      else [] := by
  have hrun := ReplayState.anomalies_finalState options
    (engine.linesRead_isLine content options) (engine.start options)
  have hstart : AnomalyMonitor.HasScored options.anomalyConfig []
      (engine.start options).anomalyMonitor := ⟨rfl, rfl⟩
  rw [AnomalyMonitor.outputs_observe_eq hstart] at hrun
  exact hrun

/-- Without detection the loop leaves the anomalies and their counts as they were. -/
theorem stop_unmonitored (engine : ReplayEngine) (content : List Char)
    {options : ReplayOptions 𝔻} (hdisabled : options.enableAnomalyDetection = false) :
    (engine.stop content options).result.unmonitored =
      (engine.stop content options).result := by
  have hanomalies := engine.stop_anomalies content options
  rw [hdisabled, if_neg Bool.false_ne_true] at hanomalies
  have hcounts := (engine.stop_tally content options).reasons
  rw [hanomalies] at hcounts
  rw [ReplayResult.unmonitored, ← hanomalies, ← show _ = ∅ from hcounts]

end ReplayEngine

namespace ReplayEngine

/-- Replays of one file under two settings of the monitor. -/
theorem replayFile_withMonitoring (engine : ReplayEngine) (inputPath : String)
    (file : Option (List Char)) (options : ReplayOptions 𝔻) (enable : Bool)
    (config : AnomalyConfig 𝔻) :
    let replay := engine.replayFile inputPath file options
    let replay' := engine.replayFile inputPath file (options.withMonitoring enable config)
    replay'.2 = replay.2 ∧ replay'.1.unmonitored = replay.1.unmonitored ∧
      ∀ content, file = some content →
        engine.linesRead content (options.withMonitoring enable config) =
          engine.linesRead content options := by
  cases file with
  | none => exact ⟨rfl, rfl, fun _ h => nomatch h⟩
  | some content =>
      have hstart : ReplayState.SameApart (engine.start options)
          (engine.start (options.withMonitoring enable config)) := ⟨rfl, rfl⟩
      obtain ⟨hread, hbook, hresult⟩ :=
        hstart.haltState options enable config (fileResults (lines content))
      have hfinish : ∀ (result : ReplayResult 𝔻) (book : LimitOrderBook),
          (result.finish book).unmonitored = result.unmonitored.finish book := fun _ _ => rfl
      dsimp only
      rw [engine.replayFile_eq, engine.replayFile_eq]
      refine ⟨congrArg ReplayEngine.mk hbook.symm, ?_, ?_⟩
      · dsimp only
        rw [hfinish, hfinish]
        exact congrArg₂ ReplayResult.finish hresult.symm hbook.symm
      · intro content' h
        obtain rfl := Option.some.inj h
        exact hread.symm

/-- Without detection a replay has no anomalies. -/
theorem replayFile_unmonitored (engine : ReplayEngine) (inputPath : String)
    (file : Option (List Char)) {options : ReplayOptions 𝔻}
    (hdisabled : options.enableAnomalyDetection = false) :
    (engine.replayFile inputPath file options).1.unmonitored =
      (engine.replayFile inputPath file options).1 := by
  cases file with
  | none => rfl
  | some content =>
      have hstop := engine.stop_unmonitored content hdisabled
      rw [engine.replayFile_eq]
      exact congrArg (fun result => ReplayResult.finish result
        (engine.stop content options).book) hstop

end ReplayEngine

/-- **Monitoring is passive.** A replay of a file with any other settings of the anomaly monitor
reads the same lines, leaves the same book and returns the same result, up to the anomalies and
their counts; without detection there are none. -/
theorem monitoring_is_passive (engine : ReplayEngine) (inputPath : String)
    (file : Option (List Char)) (options : ReplayOptions 𝔻) (enable : Bool)
    (config : AnomalyConfig 𝔻) :
    let replay := engine.replayFile inputPath file options
    let replay' := engine.replayFile inputPath file (options.withMonitoring enable config)
    replay'.2 = replay.2 ∧ replay'.1.unmonitored = replay.1.unmonitored ∧
      (enable = false → replay'.1 = replay.1.unmonitored) ∧
      ∀ content, file = some content →
        engine.linesRead content (options.withMonitoring enable config) =
          engine.linesRead content options := by
  intro replay replay'
  obtain ⟨hbook, hresult, hread⟩ :=
    engine.replayFile_withMonitoring inputPath file options enable config
  refine ⟨hbook, hresult, ?_, hread⟩
  rintro rfl
  exact (engine.replayFile_unmonitored inputPath file rfl).symm.trans hresult

/-- **The anomalies of a replay.** They are those that recomputation finds for the events that
the book accepts, each with the book after it. -/
theorem replay_anomalies_exact (engine : ReplayEngine) (inputPath : String) (content : List Char)
    (options : ReplayOptions 𝔻) :
    (engine.replayFile inputPath (some content) options).1.anomalies =
      if options.enableAnomalyDetection then
        AnomalyMonitor.expectedAnomalies options.anomalyConfig
          (engine.acceptedCalls content options)
      else [] := by
  rw [engine.replayFile_eq]
  exact engine.stop_anomalies content options

/-- **The warm-up of a replay.** Every anomaly names one of the seven features with its reason, and
of the events processed, the first `min_samples` are never anomalous and each later one is
counted at most once for each reason. -/
theorem replay_reasons_bounded (engine : ReplayEngine) (inputPath : String) (content : List Char)
    (options : ReplayOptions 𝔻) :
    let result := (engine.replayFile inputPath (some content) options).1
    (∀ anomaly ∈ result.anomalies, (anomaly.feature, anomaly.reason) ∈ reportedFeatures) ∧
      ∀ reason, (result.anomalyReasonCounts.lookup reason).getD 0 ≤
        result.eventsProcessed - options.anomalyConfig.minSamples := by
  rw [engine.replayFile_eq]
  change (∀ anomaly ∈ (engine.stop content options).result.anomalies, _) ∧
    ∀ reason, ((engine.stop content options).result.anomalyReasonCounts.lookup reason).getD 0 ≤
      (engine.stop content options).result.eventsProcessed - _
  rw [(engine.stop_tally content options).reasons, engine.stop_anomalies,
    engine.stop_eventsProcessed]
  split_ifs
  · refine ⟨AnomalyMonitor.mem_reportedFeatures _ _ _, fun reason => ?_⟩
    have hnone : ∀ feature,
        (EwmaZScoreDetector.valuesOf feature ([] : List (String × 𝔻))).length ≤ 0 :=
      fun _ => Nat.le_refl 0
    rw [lookup_summarizeAnomalyReasons]
    refine (AnomalyMonitor.countP_reportsAlong reason hnone _).trans ?_
    rw [List.length_zip, List.length_map, length_outputs, Nat.min_self, Nat.sub_zero]
  · exact ⟨List.forall_mem_nil _, fun reason => Nat.zero_le _⟩

end Datagine
