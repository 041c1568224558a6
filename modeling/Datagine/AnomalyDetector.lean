import Mathlib.Data.Finmap
import Mathlib.Analysis.Real.Sqrt
import Datagine.LimitOrderBook

/-!
# The Anomaly Detector

The model of `anomaly/anomaly_detector.cpp`: a feature extractor over rolling windows, an
exponentially weighted mean and variance for each feature, and the monitor that turns scores
into anomaly events.

The source computes with `double`. The model is written over any type with the operations
it uses (`DoubleArith`), so that it can be run on floating-point numbers and reasoned about
over the reals. Differences of timestamps are exact: in the source they are 64-bit, and a
difference out of range is undefined there.
-/

namespace Datagine

/-- The operations on `double` that the detector uses. -/
class DoubleArith (𝔻 : Type) extends Add 𝔻, Sub 𝔻, Mul 𝔻, Div 𝔻, Neg 𝔻, OfScientific 𝔻 where
  ofUInt64 : UInt64 → 𝔻
  ofInt64 : Int64 → 𝔻
  ofSize : ℕ → 𝔻
  sqrt : 𝔻 → 𝔻
  abs : 𝔻 → 𝔻
  lt : 𝔻 → 𝔻 → Bool
  le : 𝔻 → 𝔻 → Bool

instance : DoubleArith Float where
  ofUInt64 := UInt64.toFloat
  ofInt64 := Int64.toFloat
  ofSize n := n.toUInt64.toFloat
  sqrt := Float.sqrt
  abs := Float.abs
  lt x y := x < y
  le x y := x ≤ y

noncomputable instance : DoubleArith ℝ where
  ofUInt64 n := n.toNat
  ofInt64 n := n.toInt
  ofSize n := n
  sqrt := Real.sqrt
  abs := fun x => |x|
  lt x y := x < y
  le x y := x ≤ y

variable {𝔻 : Type} [DoubleArith 𝔻]

open DoubleArith

/-- `std::max` on doubles: the first argument unless the second is larger. -/
def maxDouble (x y : 𝔻) : 𝔻 := if lt x y then y else x

/-- The configuration of the detector. -/
structure AnomalyConfig (𝔻 : Type) [DoubleArith 𝔻] where
  topNLevels : ℕ := 5
  messageWindowNs : Int64 := 1000000000
  cancelRatioWindowNs : Int64 := 1000000000
  volatilityWindowNs : Int64 := 100000000
  ewmaAlpha : 𝔻 := 0.05
  zScoreThreshold : 𝔻 := 4.0
  minSamples : ℕ := 20

/-- `kVarianceFloor`. -/
def varianceFloor : 𝔻 := 1e-9

/-! ### Features -/

/-- What is measured after an accepted event. -/
structure MicrostructureFeatures (𝔻 : Type) where
  timestamp : Timestamp
  hasTwoSidedBook : Bool
  bidAskSpread : Option 𝔻
  midPrice : Option 𝔻
  topNBidDepth : UInt64
  topNAskDepth : UInt64
  orderBookImbalance : Option 𝔻
  messageRate : 𝔻
  cancelAddRatio : 𝔻
  midPriceVolatility : Option 𝔻

/-- An event in a rolling window. -/
structure EventWindowEntry where
  timestamp : Timestamp
  type : EventType
  deriving DecidableEq, Repr

/-- A mid price in a rolling window. -/
structure MidPriceEntry (𝔻 : Type) where
  timestamp : Timestamp
  midPrice : 𝔻

/-- The state of a `FeatureExtractor`; a window is listed from its front. -/
structure FeatureExtractor (𝔻 : Type) [DoubleArith 𝔻] where
  config : AnomalyConfig 𝔻
  messageWindow : List EventWindowEntry := []
  cancelRatioWindow : List EventWindowEntry := []
  midPriceWindow : List (MidPriceEntry 𝔻) := []

/-- `sum_depth`, with wrapping addition. -/
def sumDepth (levels : List PriceLevelView) : UInt64 :=
  levels.foldl (fun total level => total + level.quantity.units) 0

/-- The loop that pops entries off the front of a window while they are too old. -/
def expire {ε : Type} (timestampOf : ε → Timestamp) (window : List ε) (now : Timestamp)
    (windowNs : Int64) : List ε :=
  window.dropWhile fun entry =>
    now.nanoseconds.toInt - (timestampOf entry).nanoseconds.toInt > windowNs.toInt

namespace FeatureExtractor

/-- `window_seconds`. -/
def windowSeconds (windowNs : Int64) : 𝔻 := ofInt64 windowNs / 1000000000.0

/-- `expire_event_windows`. -/
def expireEventWindows (x : FeatureExtractor 𝔻) (now : Timestamp) : FeatureExtractor 𝔻 :=
  { x with
    messageWindow :=
      expire EventWindowEntry.timestamp x.messageWindow now x.config.messageWindowNs
    cancelRatioWindow :=
      expire EventWindowEntry.timestamp x.cancelRatioWindow now x.config.cancelRatioWindowNs }

/-- `expire_mid_window`. -/
def expireMidWindow (x : FeatureExtractor 𝔻) (now : Timestamp) : FeatureExtractor 𝔻 :=
  { x with
    midPriceWindow :=
      expire MidPriceEntry.timestamp x.midPriceWindow now x.config.volatilityWindowNs }

/-- `message_rate`. -/
def messageRate (x : FeatureExtractor 𝔻) : 𝔻 :=
  let seconds : 𝔻 := windowSeconds x.config.messageWindowNs
  if lt 0.0 seconds then ofSize x.messageWindow.length / seconds else 0.0

/-- `cancel_add_ratio`. -/
def cancelAddRatio (x : FeatureExtractor 𝔻) : 𝔻 :=
  let cancelCount := x.cancelRatioWindow.countP fun entry => entry.type = .cancel
  let addCount := x.cancelRatioWindow.countP fun entry => entry.type = .add
  ofSize cancelCount / ofSize (max 1 addCount)

/-- `mid_volatility`. -/
def midVolatility (x : FeatureExtractor 𝔻) : Option 𝔻 :=
  if x.midPriceWindow.length < 2 then none
  else
    let sum : 𝔻 := x.midPriceWindow.foldl (fun sum entry => sum + entry.midPrice) 0.0
    let mean := sum / ofSize x.midPriceWindow.length
    let variance : 𝔻 := x.midPriceWindow.foldl (fun variance entry =>
      let delta := entry.midPrice - mean
      variance + delta * delta) 0.0
    some (sqrt (variance / ofSize x.midPriceWindow.length))

/-- `order_book_imbalance`: absent when the wrapped total depth is zero. -/
def imbalance (bidDepth askDepth : UInt64) : Option 𝔻 :=
  let totalDepth := bidDepth + askDepth
  if totalDepth > 0 then some ((ofUInt64 bidDepth - ofUInt64 askDepth) / ofUInt64 totalDepth)
  else none

/-- `extract`. -/
def extract (x : FeatureExtractor 𝔻) (event : MarketEvent) (book : LimitOrderBook) :
    MicrostructureFeatures 𝔻 × FeatureExtractor 𝔻 :=
  let x := x.expireEventWindows event.timestamp
  let x := x.expireMidWindow event.timestamp
  let entry : EventWindowEntry := ⟨event.timestamp, event.type⟩
  let x := { x with
    messageWindow := x.messageWindow ++ [entry]
    cancelRatioWindow := x.cancelRatioWindow ++ [entry] }
  let depth := book.depth x.config.topNLevels
  let bidDepth := sumDepth depth.bids
  let askDepth := sumDepth depth.asks
  match book.topOfBook.bid, book.topOfBook.ask with
  | some bid, some ask =>
      let bidPrice : 𝔻 := ofInt64 bid.price.ticks
      let askPrice : 𝔻 := ofInt64 ask.price.ticks
      let midPrice := (bidPrice + askPrice) / 2.0
      let x := { x with midPriceWindow := x.midPriceWindow ++ [⟨event.timestamp, midPrice⟩] }
      (⟨event.timestamp, true, some (askPrice - bidPrice), some midPrice, bidDepth, askDepth,
        imbalance bidDepth askDepth, x.messageRate, x.cancelAddRatio, x.midVolatility⟩, x)
  | _, _ =>
      (⟨event.timestamp, false, none, none, bidDepth, askDepth, none, x.messageRate,
        x.cancelAddRatio, none⟩, x)

/-- `reset`. -/
def reset (x : FeatureExtractor 𝔻) : FeatureExtractor 𝔻 := { config := x.config }

end FeatureExtractor

/-! ### Scores -/

/-- The mean and variance of a feature so far. -/
structure EwmaState (𝔻 : Type) [DoubleArith 𝔻] where
  mean : 𝔻 := 0.0
  variance : 𝔻 := 0.0
  samples : ℕ := 0

/-- The state of an `EwmaZScoreDetector`. -/
structure EwmaZScoreDetector (𝔻 : Type) [DoubleArith 𝔻] where
  config : AnomalyConfig 𝔻
  states : Finmap fun _ : String => EwmaState 𝔻 := ∅

namespace EwmaZScoreDetector

/-- The score of a value against the state of its feature, once there are enough samples. -/
def zScore (config : AnomalyConfig 𝔻) (state : EwmaState 𝔻) (value : 𝔻) : Option 𝔻 :=
  if state.samples ≥ config.minSamples then
    some ((value - state.mean) / sqrt (maxDouble state.variance varianceFloor))
  else none

/-- The state of a feature after a value; the first value is taken as it is. -/
def update (config : AnomalyConfig 𝔻) (state : EwmaState 𝔻) (value : 𝔻) : EwmaState 𝔻 :=
  if state.samples = 0 then ⟨value, 0.0, 1⟩
  else
    let alpha := config.ewmaAlpha
    let delta := value - state.mean
    ⟨state.mean + alpha * delta, (1.0 - alpha) * (state.variance + alpha * delta * delta),
      state.samples + 1⟩

/-- `score`: the value is scored before it is added; a new feature starts from the default
state. -/
def score (d : EwmaZScoreDetector 𝔻) (feature : String) (value : 𝔻) :
    Option 𝔻 × EwmaZScoreDetector 𝔻 :=
  let state := (d.states.lookup feature).getD {}
  (zScore d.config state value,
    { d with states := d.states.insert feature (update d.config state value) })

/-- `reset`. -/
def reset (d : EwmaZScoreDetector 𝔻) : EwmaZScoreDetector 𝔻 := { config := d.config }

end EwmaZScoreDetector

/-! ### The monitor -/

/-- A reported anomaly. -/
structure AnomalyEvent (𝔻 : Type) where
  timestamp : Timestamp
  orderId : OrderId
  feature : String
  reason : String
  value : 𝔻
  zScore : 𝔻

/-- Which scores count as anomalous. -/
inductive ScoreDirection
  | positive
  | negative
  | absolute
  deriving DecidableEq, Repr

/-- The state of an `AnomalyMonitor`. -/
structure AnomalyMonitor (𝔻 : Type) [DoubleArith 𝔻] where
  config : AnomalyConfig 𝔻
  extractor : FeatureExtractor 𝔻
  detector : EwmaZScoreDetector 𝔻

namespace AnomalyMonitor

/-- The constructor. -/
def new (config : AnomalyConfig 𝔻) : AnomalyMonitor 𝔻 :=
  ⟨config, { config := config }, { config := config }⟩

/-- A score beyond the threshold, in the given direction. -/
def passes (threshold zScore : 𝔻) : ScoreDirection → Bool
  | .positive => le threshold zScore
  | .negative => le zScore (-threshold)
  | .absolute => le threshold (DoubleArith.abs zScore)

/-- `maybe_emit`, on the anomalies emitted so far. -/
def maybeEmit (event : MarketEvent) (feature reason : String) (value : 𝔻)
    (direction : ScoreDirection) (output : List (AnomalyEvent 𝔻) × AnomalyMonitor 𝔻) :
    List (AnomalyEvent 𝔻) × AnomalyMonitor 𝔻 :=
  let (zScore, detector) := output.2.detector.score feature value
  let monitor := { output.2 with detector := detector }
  match zScore with
  | none => (output.1, monitor)
  | some zScore =>
      if passes monitor.config.zScoreThreshold zScore direction then
        (output.1 ++ [⟨event.timestamp, event.orderId, feature, reason, value, zScore⟩], monitor)
      else (output.1, monitor)

/-- `maybe_emit` for a feature that may be absent. -/
def maybeEmitOption (event : MarketEvent) (feature reason : String) (value : Option 𝔻)
    (direction : ScoreDirection) (output : List (AnomalyEvent 𝔻) × AnomalyMonitor 𝔻) :
    List (AnomalyEvent 𝔻) × AnomalyMonitor 𝔻 :=
  match value with
  | none => output
  | some value => maybeEmit event feature reason value direction output

/-- `observe`: the features in the order in which the source scores them. -/
def observe (monitor : AnomalyMonitor 𝔻) (event : MarketEvent) (book : LimitOrderBook) :
    List (AnomalyEvent 𝔻) × AnomalyMonitor 𝔻 :=
  let (features, extractor) := monitor.extractor.extract event book
  let output := (([] : List (AnomalyEvent 𝔻)), { monitor with extractor := extractor })
  let output := maybeEmitOption event "bid_ask_spread" "spread_widening" features.bidAskSpread
    .positive output
  let output :=
    if features.hasTwoSidedBook then
      let output := maybeEmit event "top_n_bid_depth" "bid_depth_collapse"
        (ofUInt64 features.topNBidDepth) .negative output
      maybeEmit event "top_n_ask_depth" "ask_depth_collapse" (ofUInt64 features.topNAskDepth)
        .negative output
    else output
  let output := maybeEmitOption event "order_book_imbalance" "imbalance_spike"
    (features.orderBookImbalance.map DoubleArith.abs) .positive output
  let output := maybeEmit event "message_rate" "message_rate_burst" features.messageRate
    .positive output
  let output := maybeEmit event "cancel_add_ratio" "cancel_add_ratio_spike"
    features.cancelAddRatio .positive output
  maybeEmitOption event "mid_price_volatility" "mid_volatility_spike"
    features.midPriceVolatility .positive output

/-- `reset`. -/
def reset (monitor : AnomalyMonitor 𝔻) : AnomalyMonitor 𝔻 :=
  { monitor with extractor := monitor.extractor.reset, detector := monitor.detector.reset }

end AnomalyMonitor

/-- Count one more anomaly of a reason. -/
def countReason (counts : Finmap fun _ : String => ℕ) (reason : String) :
    Finmap fun _ : String => ℕ :=
  counts.insert reason ((counts.lookup reason).getD 0 + 1)

/-- `summarize_anomaly_reasons`. -/
def summarizeAnomalyReasons (anomalies : List (AnomalyEvent 𝔻)) : Finmap fun _ : String => ℕ :=
  anomalies.foldl (fun counts anomaly => countReason counts anomaly.reason) ∅

end Datagine
