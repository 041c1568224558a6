import Datagine.Features
import Datagine.ReplayRuns
import Datagine.StricterSettings

/-!
# Expiry and the Range of Timestamps

An accepted event is compared with the entries at the front of the three windows of the
extractor, and each comparison subtracts two 64-bit timestamps. The parser admits every 64-bit
timestamp, in any order, and the loops that expire the windows check nothing before they
subtract, so a difference can be out of range; in the source this is undefined behaviour.

`expirySubtractions` lists the differences that a replay evaluates, as integers; they are those
of the loops of the model (`expireTraced_snd`), which up to the first one out of range are the
loops of the code.

## Main results

* `expiry_fits_iff`: which accepted events are compared, and therefore on which inputs all
  differences are in range, in terms of the timestamps of the accepted events alone.
* `fitsAlong_of_nonNegative`: timestamps that are not negative are enough.
* `expiry_overflows`: two adds, the first with a negative timestamp and the second with the
  largest one.
-/

namespace Datagine

open Mealy SlidingWindow Text

variable {𝔻 : Type} [DoubleArith 𝔻]

/-- A signed 64-bit integer can hold the difference. -/
def FitsInt64 (difference : ℤ) : Prop := -2 ^ 63 ≤ difference ∧ difference < 2 ^ 63

instance : DecidablePred FitsInt64 := fun _ => inferInstanceAs (Decidable (_ ∧ _))

/-! ### The loops -/

section Loop

variable {ε : Type} (timestampOf : ε → Timestamp) (now : Timestamp) (windowNs : Int64)

/-- The loop of `expire`, with the differences that its condition evaluates. -/
def expireTraced : List ε → List ℤ × List ε
  | [] => ([], [])
  | entry :: window =>
      let age := now.nanoseconds.toInt - (timestampOf entry).nanoseconds.toInt
      if age > windowNs.toInt then
        let (ages, rest) := expireTraced window
        (age :: ages, rest)
      else ([age], entry :: window)

variable {timestampOf now windowNs}

/-- The trace is one of the loop. -/
theorem expireTraced_snd (window : List ε) :
    (expireTraced timestampOf now windowNs window).2 = expire timestampOf window now windowNs := by
  induction window with
  | nil => rfl
  | cons entry window ih =>
      rw [expire] at ih ⊢
      by_cases hold :
          now.nanoseconds.toInt - (timestampOf entry).nanoseconds.toInt > windowNs.toInt
      · rw [expireTraced, if_pos hold, List.dropWhile_cons_of_pos (by simpa using hold)]
        exact ih
      · rw [expireTraced, if_neg hold, List.dropWhile_cons_of_neg (by simpa using hold)]

/-- The window of the call covers what arrived at the timestamp. -/
def Covers (windowNs : Int64) (call : MarketEvent × LimitOrderBook) (timestamp : Timestamp) :
    Prop :=
  call.1.timestamp.nanoseconds.toInt - timestamp.nanoseconds.toInt ≤ windowNs.toInt

instance (windowNs : Int64) (call : MarketEvent × LimitOrderBook) :
    DecidablePred (Covers windowNs call) :=
  fun _ => inferInstanceAs (Decidable (_ ≤ _))

/-- The differences are those to the entries that the loop looks at. -/
theorem expireTraced_fst (call : MarketEvent × LimitOrderBook) (window : List ε) :
    (expireTraced timestampOf call.1.timestamp windowNs window).1 =
      (lookedAt (fun entry => ¬Covers windowNs call (timestampOf entry)) window).map fun entry =>
        call.1.timestamp.nanoseconds.toInt - (timestampOf entry).nanoseconds.toInt := by
  induction window with
  | nil => rfl
  | cons entry window ih =>
      rw [expireTraced, lookedAt, List.map_cons]
      by_cases hold : Covers windowNs call (timestampOf entry)
      · have hyoung : ¬call.1.timestamp.nanoseconds.toInt -
            (timestampOf entry).nanoseconds.toInt > windowNs.toInt := Int.not_lt.mpr hold
        rw [if_neg hyoung, if_neg (not_not_intro hold)]
        rfl
      · have hyoung : call.1.timestamp.nanoseconds.toInt -
            (timestampOf entry).nanoseconds.toInt > windowNs.toInt := Int.not_le.mp hold
        rw [if_pos hyoung, if_pos hold, ← ih]

end Loop

/-! ### Which calls are compared -/

section Compared

variable (windowNs : Int64) (enters : MarketEvent × LimitOrderBook → Prop)

/-- The call enters the window, and no later one is more than the window after it. -/
def Outlasts (call : MarketEvent × LimitOrderBook) (later : List (MarketEvent × LimitOrderBook)) :
    Prop :=
  enters call ∧ ∀ c ∈ later, FeatureExtractor.elapsed c.1.timestamp call ≤ windowNs.toInt

/-- Along the calls, every call that a later one meets at the front of the window differs from
it by a 64-bit integer. -/
def FitsAlong (calls : List (MarketEvent × LimitOrderBook)) : Prop :=
  ∀ before call after now, before ++ call :: after ++ [now] <+: calls → enters call →
    Meets (Outlasts windowNs enters) before call after now →
      FitsInt64 (FeatureExtractor.elapsed now.1.timestamp call)

theorem nested_covers {ε : Type} (timestampOf : ε → Timestamp) :
    Nested fun call entry => Covers windowNs call (timestampOf entry) := by
  intro c d a b hca hcb hda
  simp only [Covers] at hca hcb hda ⊢
  omega

variable {windowNs enters}

theorem lasts_eq_outlasts {ε : Type} {timestampOf : ε → Timestamp}
    {entryOf : MarketEvent × LimitOrderBook → Option ε}
    (hentry : ∀ call, ∀ a ∈ entryOf call, timestampOf a = call.1.timestamp)
    (henters : ∀ call, (entryOf call).isSome ↔ enters call) :
    Lasts (fun call entry => Covers windowNs call (timestampOf entry)) entryOf =
      Outlasts windowNs enters := by
  funext call later
  rw [eq_iff_iff, Outlasts, ← henters]
  constructor
  · rintro ⟨a, ha, hcovers⟩
    refine ⟨Option.isSome_of_mem ha, fun c hc => ?_⟩
    rw [FeatureExtractor.elapsed, ← hentry call a ha]
    exact hcovers c hc
  · rintro ⟨hsome, hcovers⟩
    obtain ⟨a, ha⟩ := Option.isSome_iff_exists.mp hsome
    refine ⟨a, ha, fun c hc => ?_⟩
    have hc := hcovers c hc
    rwa [FeatureExtractor.elapsed, ← hentry call a ha] at hc

/-- **One window.** -/
theorem mem_expireTraced_queueOf {ε : Type} {timestampOf : ε → Timestamp}
    {entryOf : MarketEvent × LimitOrderBook → Option ε}
    (hentry : ∀ call, ∀ a ∈ entryOf call, timestampOf a = call.1.timestamp)
    (henters : ∀ call, (entryOf call).isSome ↔ enters call)
    {calls : List (MarketEvent × LimitOrderBook)} {now : MarketEvent × LimitOrderBook}
    {difference : ℤ} :
    difference ∈ (expireTraced timestampOf now.1.timestamp windowNs
        (queueOf (fun call entry => Covers windowNs call (timestampOf entry)) entryOf calls)).1 ↔
      ∃ before call after, calls = before ++ call :: after ∧ enters call ∧
        Meets (Outlasts windowNs enters) before call after now ∧
          FeatureExtractor.elapsed now.1.timestamp call = difference := by
  rw [expireTraced_fst, List.mem_map]
  constructor
  · rintro ⟨a, ha, rfl⟩
    obtain ⟨before, call, after, hcalls, hcall, hmeets⟩ :=
      (mem_lookedAt_queueOf (nested_covers windowNs timestampOf)).mp ha
    rw [lasts_eq_outlasts hentry henters] at hmeets
    refine ⟨before, call, after, hcalls, (henters call).mp (Option.isSome_of_mem hcall), hmeets, ?_⟩
    rw [FeatureExtractor.elapsed, hentry call a hcall]
  · rintro ⟨before, call, after, hcalls, henter, hmeets, rfl⟩
    obtain ⟨a, hcall⟩ := Option.isSome_iff_exists.mp ((henters call).mpr henter)
    rw [← lasts_eq_outlasts hentry henters] at hmeets
    refine ⟨a, (mem_lookedAt_queueOf (nested_covers windowNs timestampOf)).mpr
      ⟨before, call, after, hcalls, hcall, hmeets⟩, ?_⟩
    rw [FeatureExtractor.elapsed, hentry call a hcall]

/-- The calls fit if and only if the loop evaluates differences that fit at every call. -/
theorem fitsAlong_iff {ε : Type} (timestampOf : ε → Timestamp)
    (entryOf : MarketEvent × LimitOrderBook → Option ε)
    (hentry : ∀ call, ∀ a ∈ entryOf call, timestampOf a = call.1.timestamp)
    (henters : ∀ call, (entryOf call).isSome ↔ enters call)
    (calls : List (MarketEvent × LimitOrderBook)) :
    FitsAlong windowNs enters calls ↔
      ∀ pre now, pre ++ [now] <+: calls →
        ∀ difference ∈ (expireTraced timestampOf now.1.timestamp windowNs
          (queueOf (fun call entry => Covers windowNs call (timestampOf entry)) entryOf pre)).1,
          FitsInt64 difference := by
  constructor
  · intro h pre now hpre difference hmem
    obtain ⟨before, call, after, rfl, henter, hmeets, rfl⟩ :=
      (mem_expireTraced_queueOf hentry henters).mp hmem
    exact h before call after now hpre henter hmeets
  · intro h before call after now hpre henter hmeets
    exact h _ now hpre _ ((mem_expireTraced_queueOf hentry henters).mpr
      ⟨before, call, after, rfl, henter, hmeets, rfl⟩)

end Compared

/-! ### The extractor -/

namespace FeatureExtractor

/-- The differences that `expire_event_windows` and `expire_mid_window` evaluate at the
beginning of `extract`. -/
def expirySubtractions (x : FeatureExtractor 𝔻) (now : Timestamp) : List ℤ :=
  (expireTraced EventWindowEntry.timestamp now x.config.messageWindowNs x.messageWindow).1 ++
    (expireTraced EventWindowEntry.timestamp now x.config.cancelRatioWindowNs
      x.cancelRatioWindow).1 ++
    (expireTraced MidPriceEntry.timestamp now x.config.volatilityWindowNs x.midPriceWindow).1

/-- A call of `extract`, answered by these differences. -/
def tracedExtract (x : FeatureExtractor 𝔻) (call : MarketEvent × LimitOrderBook) :
    List ℤ × FeatureExtractor 𝔻 :=
  (x.expirySubtractions call.1.timestamp, (x.extractFrom call).2)

/-- Each window is a queue over the calls. -/
theorem windows_eq_queueOf (config : AnomalyConfig 𝔻)
    (calls : List (MarketEvent × LimitOrderBook)) :
    let x := finalState extractFrom (new config) calls
    x.messageWindow =
        queueOf (fun call entry => Covers config.messageWindowNs call entry.timestamp)
          (fun call => some call.1.windowEntry) calls ∧
      x.cancelRatioWindow =
        queueOf (fun call entry => Covers config.cancelRatioWindowNs call entry.timestamp)
          (fun call => some call.1.windowEntry) calls ∧
      x.midPriceWindow =
        queueOf (fun call entry => Covers config.volatilityWindowNs call entry.timestamp)
          midEntry calls := by
  intro x
  induction calls using List.reverseRecOn with
  | nil => exact ⟨rfl, rfl, rfl⟩
  | append_singleton calls call ih =>
      obtain ⟨hmessage, hcancel, hmid⟩ := ih
      have hconfig := (tracks_finalState config calls).keepsConfig
      have hx : x = ((finalState extractFrom (new config) calls).extractFrom call).2 :=
        finalState_concat _ calls call
      rw [hx, extractFrom, extract_messageWindow, extract_cancelRatioWindow,
        extract_midPriceWindow, hconfig, hmessage, hcancel, hmid, queueOf_concat, queueOf_concat,
        queueOf_concat]
      exact ⟨rfl, rfl, rfl⟩

/-- The differences at a call, behind the calls `pre`. -/
theorem tracedExtract_run (config : AnomalyConfig 𝔻) (pre : List (MarketEvent × LimitOrderBook))
    (now : MarketEvent × LimitOrderBook) :
    (tracedExtract (finalState tracedExtract (new config) pre) now).1 =
      (expireTraced EventWindowEntry.timestamp now.1.timestamp config.messageWindowNs
        (queueOf (fun call entry => Covers config.messageWindowNs call entry.timestamp)
          (fun call => some call.1.windowEntry) pre)).1 ++
      (expireTraced EventWindowEntry.timestamp now.1.timestamp config.cancelRatioWindowNs
        (queueOf (fun call entry => Covers config.cancelRatioWindowNs call entry.timestamp)
          (fun call => some call.1.windowEntry) pre)).1 ++
      (expireTraced MidPriceEntry.timestamp now.1.timestamp config.volatilityWindowNs
        (queueOf (fun call entry => Covers config.volatilityWindowNs call entry.timestamp)
          (midEntry (𝔻 := 𝔻)) pre)).1 := by
  obtain ⟨hmessage, hcancel, hmid⟩ := windows_eq_queueOf config pre
  have hstate : finalState tracedExtract (new config) pre =
      finalState extractFrom (new config) pre := rfl
  rw [tracedExtract, expirySubtractions, hstate, (tracks_finalState config pre).keepsConfig,
    hmessage, hcancel, hmid]

theorem timestamp_of_mem_midEntry (call : MarketEvent × LimitOrderBook) :
    ∀ entry ∈ midEntry (𝔻 := 𝔻) call, entry.timestamp = call.1.timestamp := by
  intro entry hentry
  obtain ⟨midPrice, -, rfl⟩ := Option.map_eq_some_iff.mp hentry
  rfl

theorem isSome_midEntry (call : MarketEvent × LimitOrderBook) :
    (midEntry (𝔻 := 𝔻) call).isSome ↔ call.2.TwoSided := by
  rw [midEntry, Option.isSome_map, isSome_midPriceOf]

/-- **The differences of a run of the extractor.** -/
theorem forall_expirySubtractions_iff (config : AnomalyConfig 𝔻)
    (calls : List (MarketEvent × LimitOrderBook)) :
    (∀ difference ∈ (outputs tracedExtract (new config) calls).flatten, FitsInt64 difference) ↔
      FitsAlong config.messageWindowNs (fun _ => True) calls ∧
        FitsAlong config.cancelRatioWindowNs (fun _ => True) calls ∧
        FitsAlong config.volatilityWindowNs (fun call => call.2.TwoSided) calls := by
  have hevents (windowNs : Int64) : FitsAlong windowNs (fun _ => True) calls ↔ _ :=
    fitsAlong_iff EventWindowEntry.timestamp (fun call => some call.1.windowEntry)
      (by simp [MarketEvent.windowEntry]) (by simp) calls
  have hmids : FitsAlong config.volatilityWindowNs (fun call => call.2.TwoSided) calls ↔ _ :=
    fitsAlong_iff (MidPriceEntry.timestamp (𝔻 := 𝔻)) midEntry timestamp_of_mem_midEntry
      isSome_midEntry calls
  rw [hevents, hevents, hmids, List.forall_mem_flatten, forall_mem_outputs_iff]
  simp only [tracedExtract_run, List.forall_mem_append, imp_and, forall_and, and_assoc]

end FeatureExtractor

/-! ### The replay -/

theorem acceptedInputs_cons (b : LimitOrderBook) (event : MarketEvent)
    (events : List MarketEvent) :
    acceptedInputs b (event :: events) =
      if (b.apply event).1 = .applied then
        (event, (b.apply event).2) :: acceptedInputs (b.apply event).2 events
      else acceptedInputs (b.apply event).2 events := by
  rw [acceptedInputs]
  obtain ⟨result, b'⟩ := b.apply event
  cases result <;> rfl

namespace ReplayState

variable {options : ReplayOptions 𝔻}

/-- The differences that a pass through the loop of `replay_file` evaluates: the monitor is
shown the events that the book accepts. -/
def expirySubtractions (options : ReplayOptions 𝔻) (s : ReplayState 𝔻)
    (parsed : CsvParseResult) : List ℤ :=
  if parsed.status = .malformedRow then []
  else
    match parsed.event with
    | none => []
    | some event =>
        if (s.book.apply event).1 = .applied ∧ options.enableAnomalyDetection = true then
          s.anomalyMonitor.extractor.expirySubtractions event.timestamp
        else []

/-- A pass, answered by these differences. -/
def tracedStep (options : ReplayOptions 𝔻) (s : ReplayState 𝔻) (parsed : CsvParseResult) :
    List ℤ × ReplayState 𝔻 :=
  (s.expirySubtractions options parsed, (s.step options parsed).2)

/-- An accepted event is one call of the extractor. -/
theorem accept_book_extractor (hdetect : options.enableAnomalyDetection = true)
    (parsed : CsvParseResult) (event : MarketEvent) (s : ReplayState 𝔻) :
    (accept options parsed event s).2.book = s.book ∧
      (accept options parsed event s).2.anomalyMonitor.extractor =
        (s.anomalyMonitor.extractor.extract event s.book).2 := by
  have hmonitor : (s.counted options event).anomalyMonitor.extractor =
      (s.anomalyMonitor.extractor.extract event s.book).2 := by
    rw [counted, findings, if_pos hdetect]
    exact AnomalyMonitor.observe_extractor s.anomalyMonitor event s.book
  rw [accept_eq]
  split_ifs
  · exact ⟨rfl, hmonitor⟩
  · exact ⟨rfl, hmonitor⟩

/-- The passes over some lines evaluate what the extractor does on their accepted events. -/
theorem outputs_tracedStep (hdetect : options.enableAnomalyDetection = true)
    {results : List CsvParseResult} (hlines : ∀ parsed ∈ results, parsed.IsLine)
    (s : ReplayState 𝔻) :
    (outputs (tracedStep options) s results).flatten =
      (outputs FeatureExtractor.tracedExtract s.anomalyMonitor.extractor
        (acceptedInputs s.book (results.filterMap CsvParseResult.event))).flatten := by
  induction results generalizing s with
  | nil => rfl
  | cons parsed results ih =>
      have htail := ih (fun r hr => hlines r (List.mem_cons_of_mem parsed hr))
        (s.step options parsed).2
      have hline := hlines parsed List.mem_cons_self
      rw [outputs_cons, List.flatten_cons, tracedStep, expirySubtractions, htail]
      rcases step_cases options s hline with
        ⟨hrejects, error, -, -, hstep⟩ | ⟨event, hevent, happlied, hstep⟩
      · rw [hstep]
        cases hevent : parsed.event with
        | none =>
            rw [List.filterMap_cons_none hevent]
            simp [reject]
        | some event =>
            have hnot := hrejects event hevent
            have hbook := (s.book.apply_outcome event).state_eq hnot
            rw [List.filterMap_cons_some hevent, acceptedInputs_cons, if_neg hnot, hbook]
            simp [reject, hnot]
      · have hstatus : parsed.status ≠ .malformedRow := by
          rcases hline with ⟨-, hnone⟩ | ⟨hstatus, -⟩
          · rw [hevent] at hnone
            cases hnone
          · simp [hstatus]
        obtain ⟨hbook, hextractor⟩ := accept_book_extractor hdetect parsed event
          { s with book := (s.book.apply event).2 }
        rw [hstep, hbook, hextractor, if_neg hstatus, hevent, List.filterMap_cons_some hevent,
          acceptedInputs_cons, if_pos happlied, outputs_cons, List.flatten_cons]
        dsimp only
        rw [if_pos ⟨happlied, hdetect⟩]
        rfl

end ReplayState

namespace ReplayEngine

variable (engine : ReplayEngine) (content : List Char) (options : ReplayOptions 𝔻)

/-- The lines of a file that a replay goes through. -/
def linesRead : List CsvParseResult :=
  untilStop (ReplayState.step options) (engine.start options) (fileResults (lines content))

/-- The differences that the loops evaluate in a replay, in their order. -/
def expirySubtractions : List ℤ :=
  (outputs (ReplayState.tracedStep options) (engine.start options)
    (engine.linesRead content options)).flatten

/-- The events that the book accepts in a replay, each with the book after it. -/
def acceptedCalls : List (MarketEvent × LimitOrderBook) :=
  acceptedInputs .empty ((engine.linesRead content options).filterMap CsvParseResult.event)

end ReplayEngine

/-- **When expiry is defined.** In a replay with detection, all differences that the expiry of
the windows evaluates are in range if and only if, along the accepted events, every event that a
later one meets at the front of a window differs from it by a 64-bit integer; in the event
windows this is about all accepted events, in the mid-price window about those that leave the
book with two sides. -/
theorem expiry_fits_iff (engine : ReplayEngine) (content : List Char)
    (options : ReplayOptions 𝔻) (hdetect : options.enableAnomalyDetection = true) :
    (∀ difference ∈ engine.expirySubtractions content options, FitsInt64 difference) ↔
      FitsAlong options.anomalyConfig.messageWindowNs (fun _ => True)
          (engine.acceptedCalls content options) ∧
        FitsAlong options.anomalyConfig.cancelRatioWindowNs (fun _ => True)
          (engine.acceptedCalls content options) ∧
        FitsAlong options.anomalyConfig.volatilityWindowNs (fun call => call.2.TwoSided)
          (engine.acceptedCalls content options) := by
  have hread : engine.linesRead content options <+: fileResults (lines content) :=
    untilStop_prefix _ _ _
  have hlines : ∀ parsed ∈ engine.linesRead content options, parsed.IsLine :=
    fun parsed hmem => fileResults_isLine _ parsed (hread.subset hmem)
  rw [ReplayEngine.expirySubtractions, ReplayState.outputs_tracedStep hdetect hlines]
  exact FeatureExtractor.forall_expirySubtractions_iff options.anomalyConfig _

/-- Timestamps that are not negative fit. -/
theorem fitsAlong_of_nonNegative {calls : List (MarketEvent × LimitOrderBook)}
    (h : ∀ call ∈ calls, 0 ≤ call.1.timestamp.nanoseconds.toInt) (windowNs : Int64)
    (enters : MarketEvent × LimitOrderBook → Prop) : FitsAlong windowNs enters calls := by
  intro before call after now hpre _ _
  have hcall := h call (hpre.subset (by simp))
  have hnow := h now (hpre.subset (by simp))
  have hcallMax := call.1.timestamp.nanoseconds.toInt_lt
  have hnowMax := now.1.timestamp.nanoseconds.toInt_lt
  rw [FitsInt64, FeatureExtractor.elapsed]
  omega

/-- Two orders, the earlier one before the epoch and the later one at the last timestamp. -/
def farFeed : List Char :=
  ("timestamp_ns,event_type,order_id,side,price,quantity\n" ++
    "-2,ADD,1,B,10,7\n9223372036854775807,ADD,2,B,10,3\n").toList

/-- Orders at the last timestamp, at the epoch and in between, in no order. -/
def unorderedFeed : List Char :=
  ("timestamp_ns,event_type,order_id,side,price,quantity\n" ++
    "9223372036854775807,ADD,1,B,10,7\n0,ADD,2,S,12,3\n5000000000,ADD,3,S,11,2\n").toList

/-- With the default windows, five differences are evaluated on the feed without order, and all
of them fit. -/
theorem expiry_fits_unordered :
    let options : ReplayOptions Float := { enableAnomalyDetection := true }
    (ReplayEngine.new.expirySubtractions unorderedFeed options).length = 5 ∧
      ∀ difference ∈ ReplayEngine.new.expirySubtractions unorderedFeed options,
        FitsInt64 difference := by
  intro options
  have hcalls : ∀ call ∈ ReplayEngine.new.acceptedCalls unorderedFeed options,
      0 ≤ call.1.timestamp.nanoseconds.toInt := by decide +kernel
  refine ⟨by decide +kernel, (expiry_fits_iff ReplayEngine.new unorderedFeed options rfl).mpr ?_⟩
  exact ⟨fitsAlong_of_nonNegative hcalls _ _, fitsAlong_of_nonNegative hcalls _ _,
    fitsAlong_of_nonNegative hcalls _ _⟩

/-- With the default windows, at the second order of the other feed the first one is older than
a 64-bit integer can say. -/
theorem expiry_overflows :
    let options : ReplayOptions Float := { enableAnomalyDetection := true }
    0 ≤ options.anomalyConfig.messageWindowNs.toInt ∧
      0 ≤ options.anomalyConfig.cancelRatioWindowNs.toInt ∧
      0 ≤ options.anomalyConfig.volatilityWindowNs.toInt ∧
      ¬∀ difference ∈ ReplayEngine.new.expirySubtractions farFeed options,
        FitsInt64 difference := by
  intro options
  refine ⟨by decide, by decide, by decide, fun h => ?_⟩
  have hmem : 9223372036854775809 ∈ ReplayEngine.new.expirySubtractions farFeed options := by
    decide +kernel
  exact absurd (h _ hmem) (by decide)

end Datagine
