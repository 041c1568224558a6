import Datagine.Features
import Datagine.Relabelling
import Datagine.ReplayMonitoring
import Datagine.ReplayRules

/-!
# Anomalies Do Not Depend on Names and Origins

The monitor reads timestamps only through their differences and does not read order ids, and what
it reads of prices is the spread and the mid price, of which it takes the variance. So a feed that
is relabelled with its timestamps moved by a constant has the same anomalies, at the moved
timestamps and under the new ids. This holds for any arithmetic as long as prices stay as they
are. Over the real numbers prices may be moved by a constant too, as the variance of the mid prices
does not see it.

## Main results

* `anomalies_of_renamed_feed`: other ids and another origin of time.
* `anomalies_of_shifted_feed`: over the real numbers, also another origin of prices.
-/

namespace Datagine

open Mealy DoubleArith AnomalyMonitor

variable {𝔻 : Type} [DoubleArith 𝔻]

/-- The anomalies that a new monitor finds in a feed. -/
def feedAnomalies (config : AnomalyConfig 𝔻) (events : List MarketEvent) :
    List (AnomalyEvent 𝔻) :=
  (outputs observeInput (.new config) (acceptedInputs .empty events)).flatten

/-- These are the anomalies of a replay that is given the feed as a file. -/
theorem replay_feedAnomalies (engine : ReplayEngine) (inputPath : String)
    {events : List MarketEvent} (hnormal : ∀ event ∈ events, event.Normal)
    {options : ReplayOptions 𝔻} (hunchecked : options.checked = false)
    (henabled : options.enableAnomalyDetection = true) :
    (engine.replayFile inputPath (some (fileOf (events.map encodeRow))) options).1.anomalies =
      feedAnomalies options.anomalyConfig events := by
  obtain ⟨hstop, hfeed⟩ := engine.stop_of_feed hnormal hunchecked
  have hrun := ReplayState.anomalies_finalState options
    (fileResults_isLine (Text.lines (fileOf (events.map encodeRow)))) (engine.start options)
  rw [engine.replayFile_eq]
  change (engine.stop (fileOf (events.map encodeRow)) options).result.anomalies = _
  rw [hstop, hrun, if_pos henabled, hfeed]
  rfl

namespace Relabelling

variable (r : Relabelling)

/-! ### Relabelled windows -/

/-- An anomaly at its new timestamp and under its new id; its feature, reason, value and score
stay. -/
def anomaly (a : AnomalyEvent 𝔻) : AnomalyEvent 𝔻 :=
  { a with timestamp := r.timestamp a.timestamp, orderId := r.orderId a.orderId }

/-- An entry of an event window at its new timestamp. -/
def windowEntry (entry : EventWindowEntry) : EventWindowEntry :=
  { entry with timestamp := r.timestamp entry.timestamp }

/-- An entry of the mid-price window at its new timestamp, with its mid price shifted. -/
def midPriceEntry (shift : 𝔻 → 𝔻) (entry : MidPriceEntry 𝔻) : MidPriceEntry 𝔻 :=
  ⟨r.timestamp entry.timestamp, shift entry.midPrice⟩

/-- An extractor whose windows hold relabelled entries, under the same configuration. -/
def extractor (shift : 𝔻 → 𝔻) (x : FeatureExtractor 𝔻) : FeatureExtractor 𝔻 where
  config := x.config
  messageWindow := x.messageWindow.map r.windowEntry
  cancelRatioWindow := x.cancelRatioWindow.map r.windowEntry
  midPriceWindow := x.midPriceWindow.map (r.midPriceEntry shift)

/-- The timestamps move by `k`. -/
def MovesTimes (times : Set Timestamp) (k : ℤ) : Prop :=
  ∀ t ∈ times, (r.timestamp t).nanoseconds.toInt = t.nanoseconds.toInt + k

/-- The prices are read alike, up to a shift of the mid price that the volatility does not
see. -/
structure ReadsAlike (shift : 𝔻 → 𝔻) (prices : Set Price) : Prop where
  spread : ∀ bid ∈ prices, ∀ ask ∈ prices,
    (ofInt64 (r.price ask).ticks - ofInt64 (r.price bid).ticks : 𝔻) =
      ofInt64 ask.ticks - ofInt64 bid.ticks
  mid : ∀ bid ∈ prices, ∀ ask ∈ prices,
    ((ofInt64 (r.price bid).ticks + ofInt64 (r.price ask).ticks) / 2.0 : 𝔻) =
      shift ((ofInt64 bid.ticks + ofInt64 ask.ticks) / 2.0)
  volatility : ∀ x : FeatureExtractor 𝔻, (r.extractor shift x).midVolatility = x.midVolatility

/-- All windows hold these timestamps only. -/
structure TimesIn (times : Set Timestamp) (x : FeatureExtractor 𝔻) : Prop where
  messageWindow : ∀ entry ∈ x.messageWindow, entry.timestamp ∈ times
  cancelRatioWindow : ∀ entry ∈ x.cancelRatioWindow, entry.timestamp ∈ times
  midPriceWindow : ∀ entry ∈ x.midPriceWindow, entry.timestamp ∈ times

/-- What a relabelled book shows the extractor. -/
structure ShowsRenamed (prices : Set Price) (b b' : LimitOrderBook) : Prop where
  top : b'.topOfBook = r.top b.topOfBook
  depth : ∀ n, b'.depth n = r.depth (b.depth n)
  bid : ∀ level, b.topOfBook.bid = some level → level.price ∈ prices
  ask : ∀ level, b.topOfBook.ask = some level → level.price ∈ prices

variable {r} {times : Set Timestamp} {prices : Set Price} {k : ℤ} {shift : 𝔻 → 𝔻}

/-! ### Features that do not see the new names -/

theorem messageRate_extractor (x : FeatureExtractor 𝔻) :
    (r.extractor shift x).messageRate = x.messageRate := by
  rw [FeatureExtractor.messageRate, FeatureExtractor.messageRate, extractor, List.length_map]

theorem cancelAddRatio_extractor (x : FeatureExtractor 𝔻) :
    (r.extractor shift x).cancelAddRatio = x.cancelAddRatio := by
  rw [FeatureExtractor.cancelAddRatio, FeatureExtractor.cancelAddRatio, extractor,
    List.countP_map, List.countP_map]
  rfl

/-! ### One call of the extractor -/

/-- Moved windows expire alike. -/
theorem expire_map (htimes : r.MovesTimes times k) {ε : Type} {timestampOf : ε → Timestamp}
    {f : ε → ε} (hf : ∀ entry, timestampOf (f entry) = r.timestamp (timestampOf entry))
    {window : List ε} (hwindow : ∀ entry ∈ window, timestampOf entry ∈ times) {now : Timestamp}
    (hnow : now ∈ times) (windowNs : Int64) :
    expire timestampOf (window.map f) (r.timestamp now) windowNs =
      (expire timestampOf window now windowNs).map f := by
  induction window with
  | nil => rfl
  | cons entry window ih =>
      rw [List.forall_mem_cons] at hwindow
      have hage : (r.timestamp now).nanoseconds.toInt -
          (timestampOf (f entry)).nanoseconds.toInt =
            now.nanoseconds.toInt - (timestampOf entry).nanoseconds.toInt := by
        rw [hf, htimes now hnow, htimes _ hwindow.1]
        omega
      have htail := ih hwindow.2
      rw [expire, expire] at htail ⊢
      rw [List.map_cons, List.dropWhile_cons, List.dropWhile_cons, hage]
      split_ifs
      · exact htail
      · rfl

theorem mem_expire {ε : Type} {timestampOf : ε → Timestamp} {window : List ε} {now : Timestamp}
    {windowNs : Int64} {entry : ε} (h : entry ∈ expire timestampOf window now windowNs) :
    entry ∈ window :=
  (List.dropWhile_suffix _).subset h

theorem sumDepth_map (levels : List PriceLevelView) :
    sumDepth (levels.map r.levelView) = sumDepth levels := by
  rw [sumDepth, List.foldl_map]
  rfl

/-- The windows when the event has been noted in those of the events. -/
def noted (x : FeatureExtractor 𝔻) (event : MarketEvent) : FeatureExtractor 𝔻 :=
  let x := (x.expireEventWindows event.timestamp).expireMidWindow event.timestamp
  { x with
    messageWindow := x.messageWindow ++ [event.windowEntry]
    cancelRatioWindow := x.cancelRatioWindow ++ [event.windowEntry] }

open FeatureExtractor in
/-- A call notes the event and the mid price. -/
theorem extract_state (x : FeatureExtractor 𝔻) (event : MarketEvent) (book : LimitOrderBook) :
    (x.extract event book).2 =
      { noted x event with
        midPriceWindow := (noted x event).midPriceWindow ++ (midEntry (event, book)).toList } := by
  rw [extract, midEntry, midPriceOf]
  cases book.topOfBook.bid with
  | none => exact congrArg (FeatureExtractor.mk _ _ _) (List.append_nil _).symm
  | some bid =>
      cases book.topOfBook.ask with
      | none => exact congrArg (FeatureExtractor.mk _ _ _) (List.append_nil _).symm
      | some ask => rfl

/-- The spread, when the book has two sides. -/
def spreadOf (book : LimitOrderBook) : Option 𝔻 :=
  match book.topOfBook.bid, book.topOfBook.ask with
  | some bid, some ask => some (ofInt64 ask.price.ticks - ofInt64 bid.price.ticks)
  | _, _ => none

open FeatureExtractor in
/-- The features that are read off the book. -/
theorem extract_quotes (x : FeatureExtractor 𝔻) (event : MarketEvent) (book : LimitOrderBook) :
    let features := (x.extract event book).1
    let depth := book.depth x.config.topNLevels
    features.bidAskSpread = spreadOf book ∧
      features.hasTwoSidedBook = (midPriceOf (𝔻 := 𝔻) book).isSome ∧
      features.topNBidDepth = sumDepth depth.bids ∧ features.topNAskDepth = sumDepth depth.asks ∧
      features.orderBookImbalance = if (midPriceOf (𝔻 := 𝔻) book).isSome then
        imbalance (sumDepth depth.bids) (sumDepth depth.asks) else none := by
  rw [extract, spreadOf, midPriceOf]
  cases book.topOfBook.bid with
  | none => exact ⟨rfl, rfl, rfl, rfl, rfl⟩
  | some bid =>
      cases book.topOfBook.ask with
      | none => exact ⟨rfl, rfl, rfl, rfl, rfl⟩
      | some ask => exact ⟨rfl, rfl, rfl, rfl, rfl⟩

theorem noted_extractor (htimes : r.MovesTimes times k) {x : FeatureExtractor 𝔻}
    (hx : TimesIn times x) {event : MarketEvent} (hevent : event.timestamp ∈ times) :
    noted (r.extractor shift x) (r.event event) = r.extractor shift (noted x event) := by
  have hmessage := expire_map (f := r.windowEntry) htimes (fun _ => rfl) hx.messageWindow hevent
    x.config.messageWindowNs
  have hcancel := expire_map (f := r.windowEntry) htimes (fun _ => rfl) hx.cancelRatioWindow
    hevent x.config.cancelRatioWindowNs
  have hmid := expire_map (f := r.midPriceEntry shift) htimes (fun _ => rfl) hx.midPriceWindow
    hevent x.config.volatilityWindowNs
  simp only [noted, FeatureExtractor.expireEventWindows, FeatureExtractor.expireMidWindow,
    extractor, Relabelling.event, List.map_append]
  rw [hmessage, hcancel, hmid]
  rfl

theorem TimesIn.noted {x : FeatureExtractor 𝔻} (hx : TimesIn times x) {event : MarketEvent}
    (hevent : event.timestamp ∈ times) : TimesIn times (noted x event) where
  messageWindow entry hentry := by
    rcases List.mem_append.mp hentry with hold | hnew
    · exact hx.messageWindow entry (mem_expire hold)
    · exact List.mem_singleton.mp hnew ▸ hevent
  cancelRatioWindow entry hentry := by
    rcases List.mem_append.mp hentry with hold | hnew
    · exact hx.cancelRatioWindow entry (mem_expire hold)
    · exact List.mem_singleton.mp hnew ▸ hevent
  midPriceWindow entry hentry := hx.midPriceWindow entry (mem_expire hentry)

/-! ### The quotes of a relabelled book -/

namespace ShowsRenamed

variable {b b' : LimitOrderBook} (hb : r.ShowsRenamed prices b b')
include hb

theorem sumDepth_eq (n : ℕ) :
    sumDepth (b'.depth n).bids = sumDepth (b.depth n).bids ∧
      sumDepth (b'.depth n).asks = sumDepth (b.depth n).asks := by
  rw [hb.depth]
  exact ⟨sumDepth_map _, sumDepth_map _⟩

theorem spreadOf_eq (hreads : r.ReadsAlike shift prices) :
    (spreadOf b' : Option 𝔻) = spreadOf b := by
  rw [spreadOf, spreadOf, hb.top, Relabelling.top]
  cases hbid : b.topOfBook.bid with
  | none => rfl
  | some bid =>
      cases hask : b.topOfBook.ask with
      | none => rfl
      | some ask => exact congrArg some (hreads.spread _ (hb.bid bid hbid) _ (hb.ask ask hask))

theorem midPriceOf_eq (hreads : r.ReadsAlike shift prices) :
    FeatureExtractor.midPriceOf b' = (FeatureExtractor.midPriceOf b).map shift := by
  rw [FeatureExtractor.midPriceOf, FeatureExtractor.midPriceOf, hb.top, Relabelling.top]
  cases hbid : b.topOfBook.bid with
  | none => rfl
  | some bid =>
      cases hask : b.topOfBook.ask with
      | none => rfl
      | some ask => exact congrArg some (hreads.mid _ (hb.bid bid hbid) _ (hb.ask ask hask))

end ShowsRenamed

/-- **One call.** It makes the same observations, and leaves the relabelled windows. -/
theorem extract_renamed (htimes : r.MovesTimes times k) (hreads : r.ReadsAlike shift prices)
    {x : FeatureExtractor 𝔻} (hx : TimesIn times x) {event : MarketEvent}
    (hevent : event.timestamp ∈ times) {b b' : LimitOrderBook}
    (hb : r.ShowsRenamed prices b b') :
    let call := x.extract event b
    let call' := (r.extractor shift x).extract (r.event event) b'
    call'.1.probes = call.1.probes ∧ call'.2 = r.extractor shift call.2 ∧
      TimesIn times call.2 := by
  have hmid := hb.midPriceOf_eq hreads
  have hstate : ((r.extractor shift x).extract (r.event event) b').2 =
      r.extractor shift (x.extract event b).2 := by
    have hentry : FeatureExtractor.midEntry (r.event event, b') =
        (FeatureExtractor.midEntry (event, b)).map (r.midPriceEntry shift) := by
      rw [FeatureExtractor.midEntry, FeatureExtractor.midEntry, hmid, Option.map_map,
        Option.map_map]
      rfl
    rw [extract_state, extract_state, noted_extractor htimes hx hevent, hentry,
      Option.toList_map]
    simp only [extractor, List.map_append]
  refine ⟨?_, hstate, ?_⟩
  · obtain ⟨hspread, htwo, hbids, hasks, himbalance⟩ := extract_quotes x event b
    obtain ⟨hspread', htwo', hbids', hasks', himbalance'⟩ :=
      extract_quotes (r.extractor shift x) (r.event event) b'
    obtain ⟨hrate, hratio⟩ := FeatureExtractor.extract_rates x event b
    obtain ⟨hrate', hratio'⟩ :=
      FeatureExtractor.extract_rates (r.extractor shift x) (r.event event) b'
    have hvolatility := (FeatureExtractor.extract_twoSided x event b).2.2.2
    have hvolatility' :=
      (FeatureExtractor.extract_twoSided (r.extractor shift x) (r.event event) b').2.2.2
    have hlevels : (r.extractor shift x).config.topNLevels = x.config.topNLevels := rfl
    obtain ⟨hdepthBids, hdepthAsks⟩ := hb.sumDepth_eq x.config.topNLevels
    rw [hlevels] at hbids' hasks' himbalance'
    rw [MicrostructureFeatures.probes, MicrostructureFeatures.probes]
    rw [hspread', htwo', hbids', hasks', himbalance', hrate', hratio', hvolatility', hspread, htwo,
      hbids, hasks, himbalance, hrate, hratio, hvolatility, hstate, hmid, hb.spreadOf_eq hreads,
      hdepthBids, hdepthAsks, messageRate_extractor, cancelAddRatio_extractor, hreads.volatility,
      Option.isSome_map]
  · have hknown := hx.noted hevent
    rw [extract_state]
    refine ⟨hknown.messageWindow, hknown.cancelRatioWindow, fun entry hentry => ?_⟩
    rcases List.mem_append.mp hentry with hold | hnew
    · exact hknown.midPriceWindow entry hold
    · obtain ⟨midPrice, -, rfl⟩ := Option.map_eq_some_iff.mp (Option.mem_toList.mp hnew)
      exact hevent

/-! ### All calls -/

/-- The second input is the first one relabelled. -/
structure RenamedInput (r : Relabelling) (times : Set Timestamp) (prices : Set Price)
    (input input' : MarketEvent × LimitOrderBook) : Prop where
  event : input'.1 = r.event input.1
  timestamp : input.1.timestamp ∈ times
  shows : r.ShowsRenamed prices input.2 input'.2

/-- A verdict names the event it is about. -/
theorem verdict_event (r : Relabelling) (config : AnomalyConfig 𝔻) (calls : List (String × 𝔻))
    (event : MarketEvent) (probe : Probe 𝔻) :
    verdict config calls (r.event event) probe =
      (verdict config calls event probe).map r.anomaly := by
  rw [verdict, verdict]
  cases EwmaZScoreDetector.zScore config
      ((EwmaZScoreDetector.valuesOf probe.feature calls).foldl (EwmaZScoreDetector.update config)
        {}) probe.value with
  | none => rfl
  | some z =>
      dsimp only
      split_ifs
      · rfl
      · rfl

/-- **The report on relabelled calls**, after the same earlier values. -/
theorem reportsAlong_renamed (htimes : r.MovesTimes times k) (hreads : r.ReadsAlike shift prices)
    (config : AnomalyConfig 𝔻) {inputs inputs' : List (MarketEvent × LimitOrderBook)}
    (h : List.Forall₂ (r.RenamedInput times prices) inputs inputs') {x : FeatureExtractor 𝔻}
    (hx : TimesIn times x) (calls : List (String × 𝔻)) :
    reportsAlong config calls ((inputs'.map Prod.fst).zip
        (outputs FeatureExtractor.extractFrom (r.extractor shift x) inputs')) =
      (reportsAlong config calls ((inputs.map Prod.fst).zip
        (outputs FeatureExtractor.extractFrom x inputs))).map r.anomaly := by
  induction h generalizing x calls with
  | nil => rfl
  | @cons input input' inputs inputs' hinput _ ih =>
      obtain ⟨hprobes, hstate, hknown⟩ :=
        extract_renamed htimes hreads hx hinput.timestamp hinput.shows
      have htail : TimesIn times (x.extractFrom input).2 := hknown
      have hfeatures : ((r.extractor shift x).extractFrom input').1.probes =
          (x.extractFrom input).1.probes := by
        rw [FeatureExtractor.extractFrom, hinput.event]
        exact hprobes
      have hnext : ((r.extractor shift x).extractFrom input').2 =
          r.extractor shift (x.extractFrom input).2 := by
        rw [FeatureExtractor.extractFrom, hinput.event]
        exact hstate
      have hfound : (x.extractFrom input).1.probes.filterMap
            (verdict config calls (r.event input.1)) =
          ((x.extractFrom input).1.probes.filterMap (verdict config calls input.1)).map
            r.anomaly := by
        rw [List.map_filterMap]
        exact congrArg (fun f => List.filterMap f _) (funext (verdict_event r config calls _))
      rw [outputs_cons, outputs_cons, List.map_cons, List.map_cons, List.zip_cons_cons,
        List.zip_cons_cons, reportsAlong, reportsAlong, List.map_append, hnext, hinput.event,
        MicrostructureFeatures.scoreCalls_eq, MicrostructureFeatures.scoreCalls_eq, hfeatures,
        hfound, ih htail]

/-! ### Relabelled feeds -/

/-- A book with relabelled orders shows relabelled views. -/
theorem Renamed.shows {ids : Set OrderId} (h : r.Faithful ids prices) {b b' : LimitOrderBook}
    (hb : r.Renamed LimitOrderBook.Represents ids prices b b') : r.ShowsRenamed prices b b' := by
  obtain ⟨A, A', hA, hA', hlive, hL⟩ := hb
  have hshows' := hA'.showsSide
  rw [hlive] at hshows'
  obtain ⟨-, hdepth, htop, -⟩ := h.views hL hA.showsSide hshows'
  have hprice : ∀ s, ∀ level ∈ b.snapshot.side s, level.price ∈ prices := by
    intro s level hlevel
    obtain ⟨o, ho, -, hop⟩ :=
      ((hA.showsSide s).prices level.price).mp (List.mem_map_of_mem hlevel)
    exact hop ▸ (hL o ho).2
  have hhead : ∀ (s : Side) (view : PriceLevelView),
      (b.snapshot.side s).head?.map PriceLevelSnapshot.toView = some view →
        view.price ∈ prices := by
    intro s view hview
    obtain ⟨level, hlevel, rfl⟩ := Option.map_eq_some_iff.mp hview
    exact hprice s level (List.mem_of_mem_head? hlevel)
  refine ⟨?_, fun n => ?_, fun level hbid => hhead .buy level ?_, fun level hask =>
    hhead .sell level ?_⟩
  · rw [LimitOrderBook.topOfBook_eq, LimitOrderBook.topOfBook_eq, htop]
  · rw [LimitOrderBook.depth_eq, LimitOrderBook.depth_eq, hdepth]
  · rwa [LimitOrderBook.topOfBook_eq] at hbid
  · rwa [LimitOrderBook.topOfBook_eq] at hask

/-- What the extractor is shown of a relabelled feed. -/
theorem acceptedInputs_renamed {ids : Set OrderId} (h : r.Faithful ids prices)
    {events : List MarketEvent} (hids : ∀ event ∈ events, event.orderId ∈ ids)
    (hprices : ∀ event ∈ events, event.type = .add → event.price ∈ prices)
    (htimes : ∀ event ∈ events, event.timestamp ∈ times) {b b' : LimitOrderBook}
    (hb : r.Renamed LimitOrderBook.Represents ids prices b b') :
    List.Forall₂ (r.RenamedInput times prices) (acceptedInputs b events)
      (acceptedInputs b' (events.map r.event)) := by
  induction events generalizing b b' with
  | nil => exact List.Forall₂.nil
  | cons event events ih =>
      rw [List.forall_mem_cons] at hids hprices htimes
      obtain ⟨hresult, hnext⟩ := hb.step
        (fun b A event hb => LimitOrderBook.apply_refines hb event)
        (fun L hL => h.apply_event hL hids.1)
        (fun L hL => known_apply hL hids.1 hprices.1)
      have htail := ih hids.2 hprices.2 htimes.2 hnext
      rw [List.map_cons, acceptedInputs_cons, acceptedInputs_cons, ← hresult]
      split_ifs
      · exact List.Forall₂.cons ⟨rfl, htimes.1, hnext.shows h⟩ htail
      · exact htail

/-- **The anomalies of a relabelled feed**, when its prices are read alike. -/
theorem feedAnomalies_renamed (config : AnomalyConfig 𝔻) {events : List MarketEvent}
    (h : r.Faithful (namedIds events) (addedPrices events))
    (hreads : r.ReadsAlike shift (addedPrices events))
    (htimes : ∀ event ∈ events, (r.timestamp event.timestamp).nanoseconds.toInt =
      event.timestamp.nanoseconds.toInt + k) :
    feedAnomalies config (events.map r.event) = (feedAnomalies config events).map r.anomaly := by
  let times : Set Timestamp := {t | ∃ event ∈ events, event.timestamp = t}
  have hmoves : r.MovesTimes times k := by
    rintro _ ⟨event, hmem, rfl⟩
    exact htimes event hmem
  have hinit : r.Renamed LimitOrderBook.Represents (namedIds events) (addedPrices events)
      .empty .empty :=
    ⟨.empty, .empty, LimitOrderBook.represents_empty, LimitOrderBook.represents_empty, rfl,
      fun o ho => absurd ho List.not_mem_nil⟩
  have hinputs : List.Forall₂ (r.RenamedInput times (addedPrices events))
      (acceptedInputs .empty events) (acceptedInputs .empty (events.map r.event)) :=
    acceptedInputs_renamed h (fun event hmem => ⟨event, hmem, rfl⟩)
      (fun event hmem hadd => ⟨event, hmem, hadd, rfl⟩)
      (fun event hmem => (⟨event, hmem, rfl⟩ : event.timestamp ∈ times)) hinit
  have hnew : TimesIn times (AnomalyMonitor.new config).extractor :=
    ⟨fun _ hentry => absurd hentry List.not_mem_nil, fun _ hentry =>
      absurd hentry List.not_mem_nil, fun _ hentry => absurd hentry List.not_mem_nil⟩
  have hstart : HasScored config [] (AnomalyMonitor.new config) := ⟨rfl, rfl⟩
  rw [feedAnomalies, feedAnomalies, outputs_observe_eq hstart, outputs_observe_eq hstart]
  exact reportsAlong_renamed hmoves hreads config hinputs hnew []

/-! ### Prices that stay, and prices that move by a constant -/

/-- Prices that stay are read alike. -/
theorem readsAlike_of_prices {r : Relabelling} (h : ∀ p ∈ prices, r.price p = p) :
    r.ReadsAlike (id : 𝔻 → 𝔻) prices where
  spread bid hbid ask hask := by rw [h bid hbid, h ask hask]
  mid bid hbid ask hask := by rw [h bid hbid, h ask hask, id]
  volatility x := by
    simp only [FeatureExtractor.midVolatility, extractor, List.length_map, List.foldl_map]
    rfl

section Real

open FeatureExtractor

/-- The mean moves with the values. -/
theorem mean_add {xs : List ℝ} (h : xs ≠ []) (c : ℝ) : mean (xs.map (· + c)) = mean xs + c := by
  have hlength : (xs.length : ℝ) ≠ 0 := by simpa using h
  have hsum : (xs.map (· + c)).sum = xs.sum + xs.length * c := by
    rw [List.sum_map_add, List.map_id', List.map_const', List.sum_replicate, nsmul_eq_mul]
  rw [mean, mean, hsum, List.length_map, add_div, mul_div_cancel_left₀ c hlength]

/-- The variance does not see the origin. -/
theorem populationVariance_add (xs : List ℝ) (c : ℝ) :
    populationVariance (xs.map (· + c)) = populationVariance xs := by
  cases xs with
  | nil => rfl
  | cons x xs =>
      have hdeviation : ∀ y : ℝ, y + c - (mean (x :: xs) + c) = y - mean (x :: xs) := fun y => by
        ring
      rw [populationVariance, mean_add (List.cons_ne_nil x xs), List.map_map, List.length_map,
        populationVariance]
      simp only [Function.comp_def, hdeviation]

/-- Over the real numbers, prices that move by a constant are read alike. -/
theorem readsAlike_of_shifted {r : Relabelling} {c : ℤ}
    (h : ∀ p ∈ prices, (r.price p).ticks.toInt = p.ticks.toInt + c) :
    r.ReadsAlike (fun y : ℝ => y + c) prices where
  spread bid hbid ask hask := by
    change ((r.price ask).ticks.toInt : ℝ) - (r.price bid).ticks.toInt =
      (ask.ticks.toInt : ℝ) - bid.ticks.toInt
    rw [h bid hbid, h ask hask]
    push_cast
    ring
  mid bid hbid ask hask := by
    have htwo : (OfScientific.ofScientific 20 true 1 : ℝ) = 2 := by norm_num
    change (((r.price bid).ticks.toInt : ℝ) + (r.price ask).ticks.toInt) /
        (OfScientific.ofScientific 20 true 1 : ℝ) =
      ((bid.ticks.toInt : ℝ) + ask.ticks.toInt) / (OfScientific.ofScientific 20 true 1 : ℝ) + c
    rw [htwo, h bid hbid, h ask hask]
    push_cast
    ring
  volatility x := by
    have hmids : (r.extractor (fun y : ℝ => y + c) x).midPriceWindow.map MidPriceEntry.midPrice =
        (x.midPriceWindow.map MidPriceEntry.midPrice).map (· + (c : ℝ)) := by
      rw [extractor, List.map_map, List.map_map]
      rfl
    rw [midVolatility_real, midVolatility_real, hmids, populationVariance_add, extractor,
      List.length_map]

end Real

end Relabelling

open Relabelling

/-! ### A feed with anomalies -/

section Quotes

open FeatureExtractor EwmaZScoreDetector

variable {config : AnomalyConfig ℝ}

/-- The floor of the variance is above the variance of a new feature. -/
theorem maxDouble_varianceFloor : maxDouble (0.0 : ℝ) varianceFloor = 10 ^ (-9 : ℤ) := by
  have hfloor : (varianceFloor : ℝ) = 10 ^ (-9 : ℤ) := by
    have hliteral : (OfScientific.ofScientific 1 true 9 : ℝ) = 10 ^ (-9 : ℤ) := by norm_num
    exact hliteral
  have hpos : (0 : ℝ) < varianceFloor := by
    rw [hfloor]
    positivity
  rw [maxDouble, zero_double, ← hfloor]
  exact if_pos (decide_eq_true hpos)

/-- Without a warm-up, the first value of a feature is reported when it is large. -/
theorem verdict_first (hsamples : config.minSamples = 0) {calls : List (String × ℝ)}
    {probe : Probe ℝ} (hfirst : valuesOf probe.feature calls = [])
    (hdirection : probe.direction = .positive)
    (hlarge : config.zScoreThreshold * Real.sqrt (10 ^ (-9 : ℤ)) ≤ probe.value)
    (event : MarketEvent) :
    ∃ z, verdict config calls event probe =
      some ⟨event.timestamp, event.orderId, probe.feature, probe.reason, probe.value, z⟩ := by
  let z : ℝ := probe.value / Real.sqrt (10 ^ (-9 : ℤ))
  have hz : zScore config ({} : EwmaState ℝ) probe.value = some z := by
    have hmean : probe.value - ({} : EwmaState ℝ).mean = probe.value := by
      rw [zero_double, sub_zero]
    rw [zScore, maxDouble_varianceFloor, hmean]
    exact if_pos hsamples.le
  have hsqrt : 0 < Real.sqrt (10 ^ (-9 : ℤ)) := Real.sqrt_pos.mpr (by positivity)
  have hpasses : passes config.zScoreThreshold z .positive = true :=
    decide_eq_true ((le_div_iff₀ hsqrt).mpr hlarge)
  refine ⟨z, ?_⟩
  rw [verdict, hfirst, List.foldl_nil, hz, hdirection]
  exact if_pos hpasses

/-- The same in a run: no event before this one had a value of the feature. -/
theorem first_value_reported (hsamples : config.minSamples = 0)
    (pre post : List (MarketEvent × LimitOrderBook)) (input : MarketEvent × LimitOrderBook)
    (probe : Probe ℝ)
    (hprobe : probe ∈
      ((finalState extractFrom (FeatureExtractor.new config) pre).extractFrom input).1.probes)
    (hfirst : ∀ features ∈ outputs extractFrom (FeatureExtractor.new config) pre,
      probe.feature ∉ features.probes.map Probe.feature)
    (hdirection : probe.direction = .positive)
    (hlarge : config.zScoreThreshold * Real.sqrt (10 ^ (-9 : ℤ)) ≤ probe.value) :
    ∃ z, (⟨input.1.timestamp, input.1.orderId, probe.feature, probe.reason, probe.value, z⟩ :
        AnomalyEvent ℝ) ∈
      (outputs observeInput (AnomalyMonitor.new config) (pre ++ input :: post)).flatten := by
  let calls := (outputs extractFrom (FeatureExtractor.new config) pre).flatMap
    MicrostructureFeatures.scoreCalls
  have hnone : valuesOf probe.feature calls = [] := by
    rw [valuesOf, List.map_eq_nil_iff, List.filter_eq_nil_iff]
    intro call hcall hname
    obtain ⟨features, hmem, hscored⟩ := List.mem_flatMap.mp hcall
    rw [MicrostructureFeatures.scoreCalls_eq] at hscored
    obtain ⟨earlier, hearlier, rfl⟩ := List.mem_map.mp hscored
    exact hfirst features hmem
      (List.mem_map.mpr ⟨earlier, hearlier, of_decide_eq_true hname⟩)
  obtain ⟨z, hz⟩ := verdict_first hsamples hnone hdirection hlarge input.1
  refine ⟨z, ?_⟩
  have hstart : HasScored config [] (AnomalyMonitor.new config) := ⟨rfl, rfl⟩
  have hlength : (pre.map Prod.fst).length =
      (outputs extractFrom (FeatureExtractor.new config) pre).length := by
    rw [List.length_map, length_outputs]
  have hcalls : ((pre.map Prod.fst).zip
      (outputs extractFrom (FeatureExtractor.new config) pre)).flatMap
        (fun call => call.2.scoreCalls) = calls := by
    rw [← List.flatMap_map, List.map_snd_zip hlength.ge]
  rw [outputs_observe_eq hstart, List.map_append, List.map_cons, outputs_append, outputs_cons]
  change _ ∈ reportsAlong config [] ((pre.map Prod.fst ++ _).zip
    (outputs extractFrom (FeatureExtractor.new config) pre ++ _))
  rw [List.zip_append hlength, List.zip_cons_cons]
  refine mem_reportsAlong hprobe ?_
  rwa [hcalls, List.nil_append]

/-- A spread that is absent is not scored. -/
theorem spread_notMem_probes {features : MicrostructureFeatures ℝ}
    (h : features.bidAskSpread = none) :
    "bid_ask_spread" ∉ features.probes.map Probe.feature := by
  rw [MicrostructureFeatures.probes, h]
  cases features.hasTwoSidedBook <;> simp

/-- Nor is a volatility that is absent. -/
theorem volatility_notMem_probes {features : MicrostructureFeatures ℝ}
    (h : features.midPriceVolatility = none) :
    "mid_price_volatility" ∉ features.probes.map Probe.feature := by
  rw [MicrostructureFeatures.probes, h]
  cases features.hasTwoSidedBook <;> simp

/-- The quotes of a two-sided book, over the real numbers. -/
theorem quotes_real {b : LimitOrderBook} {bid ask : PriceLevelView}
    (h : b.topOfBook = ⟨some bid, some ask⟩) :
    spreadOf b = some ((ask.price.ticks.toInt : ℝ) - bid.price.ticks.toInt) ∧
      midPriceOf b = some (((bid.price.ticks.toInt : ℝ) + ask.price.ticks.toInt) / 2) := by
  have htwo : (OfScientific.ofScientific 20 true 1 : ℝ) = 2 := by norm_num
  rw [spreadOf, midPriceOf, h]
  refine ⟨rfl, congrArg some ?_⟩
  change ((bid.price.ticks.toInt : ℝ) + ask.price.ticks.toInt) /
    (OfScientific.ofScientific 20 true 1 : ℝ) = _
  rw [htwo]

/-- When no call is too old, all mid prices are inside the window. -/
theorem midsWithin_of_elapsed (config : AnomalyConfig ℝ) {now : Timestamp}
    {calls : List (MarketEvent × LimitOrderBook)}
    (h : ∀ call ∈ calls, elapsed now call ≤ config.volatilityWindowNs.toInt) :
    midsWithin config now calls = calls.filterMap fun call => midPriceOf call.2 := by
  rw [midsWithin, within, List.filter_eq_self.mpr fun call hcall => decide_eq_true (h call hcall)]

/-- A value of a quarter passes the default threshold, as the first one of its feature. -/
theorem default_threshold_le {x : ℝ} (h : 1 / 4 ≤ x) :
    ({ minSamples := 0 } : AnomalyConfig ℝ).zScoreThreshold * Real.sqrt (10 ^ (-9 : ℤ)) ≤ x := by
  have hthreshold : ({ minSamples := 0 } : AnomalyConfig ℝ).zScoreThreshold = 4 := by
    have hliteral : (OfScientific.ofScientific 40 true 1 : ℝ) = 4 := by norm_num
    exact hliteral
  have hsqrt : Real.sqrt (10 ^ (-9 : ℤ)) ≤ 1 / 16 := Real.sqrt_le_iff.mpr (by norm_num)
  have hfour : 4 * Real.sqrt (10 ^ (-9 : ℤ)) ≤ 4 * (1 / 16) :=
    mul_le_mul_of_nonneg_left hsqrt (by norm_num)
  rw [hthreshold]
  exact hfour.trans ((by norm_num : (4 : ℝ) * (1 / 16) = 1 / 4).trans_le h)

/-- The three quotes are accepted; this is the top of the book after each. -/
theorem acceptedInputs_quotesFeed : ∃ first second third,
    acceptedInputs .empty quotesFeed = [first, second, third] ∧
      first.2.topOfBook = ⟨some ⟨⟨100⟩, ⟨5⟩, 1⟩, none⟩ ∧
      second.1.timestamp = ⟨10⟩ ∧ second.1.orderId = ⟨2⟩ ∧
      second.2.topOfBook = ⟨some ⟨⟨100⟩, ⟨5⟩, 1⟩, some ⟨⟨102⟩, ⟨5⟩, 1⟩⟩ ∧
      third.1.timestamp = ⟨20⟩ ∧ third.1.orderId = ⟨3⟩ ∧
      third.2.topOfBook = ⟨some ⟨⟨101⟩, ⟨5⟩, 1⟩, some ⟨⟨102⟩, ⟨5⟩, 1⟩⟩ :=
  ⟨_, _, _, rfl, by decide +kernel, rfl, rfl, by decide +kernel, rfl, rfl, by decide +kernel⟩

/-- The first spread of the quotes is reported. -/
theorem quotesFeed_spread : ∃ z,
    (⟨⟨10⟩, ⟨2⟩, "bid_ask_spread", "spread_widening", 2, z⟩ : AnomalyEvent ℝ) ∈
      feedAnomalies { minSamples := 0 } quotesFeed := by
  obtain ⟨first, second, third, hinputs, hfirst, htime, hid, hsecond, -⟩ :=
    acceptedInputs_quotesFeed
  have hspread : ((finalState extractFrom (FeatureExtractor.new { minSamples := 0 })
      [first]).extractFrom second).1.bidAskSpread = some (2 : ℝ) := by
    have hbid : (100 : Int64).toInt = 100 := by decide
    have hask : (102 : Int64).toInt = 102 := by decide
    rw [extractFrom, (extract_quotes _ _ _).1, (quotes_real hsecond).1, hbid, hask]
    norm_num
  rw [feedAnomalies, hinputs, ← htime, ← hid]
  refine first_value_reported rfl [first] [third] second
    ⟨"bid_ask_spread", "spread_widening", 2, .positive⟩ ?_ ?_ rfl
    (default_threshold_le (by norm_num))
  · rw [MicrostructureFeatures.probes, hspread]
    simp
  · intro features hmem
    obtain rfl := List.mem_singleton.mp hmem
    refine spread_notMem_probes ?_
    rw [extractFrom, (extract_quotes _ _ _).1, spreadOf, hfirst]

/-- The quotes come in order. The first two leave at most one mid price in the window, and these
are the mid prices in it at the third. -/
theorem quotesFeed_mids : ∃ first second third,
    acceptedInputs .empty quotesFeed = [first, second, third] ∧
      NonDecreasing [first, second, third] ∧
      third.1.timestamp = ⟨20⟩ ∧ third.1.orderId = ⟨3⟩ ∧ third.2.TwoSided ∧
      (∀ pre input, pre ++ [input] <+: [first, second] →
        (midsWithin { minSamples := 0 } input.1.timestamp (pre ++ [input])).length < 2) ∧
      midsWithin { minSamples := 0 } third.1.timestamp [first, second, third] = [101, 203 / 2] := by
  obtain ⟨first, second, third, hinputs, hfirst, -, -, hsecond, htime, hid, hthird⟩ :=
    acceptedInputs_quotesFeed
  have hordered : NonDecreasing [first, second, third] := by
    rw [← hinputs, NonDecreasing]
    decide +kernel
  have hnear : ∀ now ∈ [first, second, third], ∀ call ∈ [first, second, third],
      elapsed now.1.timestamp call ≤ 100000000 := by
    rw [← hinputs]
    decide +kernel
  have hask : (102 : Int64).toInt = 102 := by decide
  have hnone : midPriceOf (𝔻 := ℝ) first.2 = none := by rw [midPriceOf, hfirst]
  have hmid : midPriceOf (𝔻 := ℝ) second.2 = some 101 := by
    have hbid : (100 : Int64).toInt = 100 := by decide
    rw [(quotes_real hsecond).2, hbid, hask]
    norm_num
  have hmid' : midPriceOf (𝔻 := ℝ) third.2 = some (203 / 2) := by
    have hbid : (101 : Int64).toInt = 101 := by decide
    rw [(quotes_real hthird).2, hbid, hask]
    norm_num
  have hmids : ∀ now ∈ [first, second, third], ∀ calls, calls.Sublist [first, second, third] →
      midsWithin { minSamples := 0 } now.1.timestamp calls =
        calls.filterMap fun call => midPriceOf call.2 :=
    fun now hnow calls hcalls => midsWithin_of_elapsed _ fun call hcall =>
      hnear now hnow call (hcalls.mem hcall)
  have htwo : [first, second].Sublist [first, second, third] :=
    List.sublist_append_left [first, second] [third]
  refine ⟨first, second, third, hinputs, hordered, htime, hid,
    (isSome_midPriceOf (𝔻 := ℝ) third.2).mp (Option.isSome_of_eq_some hmid'), ?_, ?_⟩
  · intro pre input hbefore
    have hcalls := hbefore.sublist
    have hinput : input ∈ [first, second, third] :=
      htwo.mem (hcalls.mem (List.mem_append_right pre (List.mem_singleton_self input)))
    have hlength := (hcalls.filterMap fun call => midPriceOf (𝔻 := ℝ) call.2).length_le
    simp only [List.filterMap_cons, List.filterMap_nil, hnone, hmid, List.length_singleton]
      at hlength
    rw [hmids input hinput _ (hcalls.trans htwo)]
    exact Nat.lt_succ_of_le hlength
  · rw [hmids third (by simp) _ (List.Sublist.refl _)]
    simp only [List.filterMap_cons, List.filterMap_nil, hnone, hmid, hmid']

/-- The first volatility is reported as well, that of the mid prices 101 and 101.5. -/
theorem quotesFeed_volatility : ∃ z,
    (⟨⟨20⟩, ⟨3⟩, "mid_price_volatility", "mid_volatility_spike", 1 / 4, z⟩ : AnomalyEvent ℝ) ∈
      feedAnomalies { minSamples := 0 } quotesFeed := by
  obtain ⟨first, second, third, hinputs, hordered, htime, hid, htwo, hfew, hmids⟩ :=
    quotesFeed_mids
  let config : AnomalyConfig ℝ := { minSamples := 0 }
  have hwindow : 0 ≤ config.volatilityWindowNs.toInt := by decide
  have hvolatility : ((finalState extractFrom (FeatureExtractor.new config)
      [first, second]).extractFrom third).1.midPriceVolatility = some (1 / 4) := by
    have hvariance : populationVariance [101, 203 / 2] = (1 / 4) ^ 2 := by
      norm_num [populationVariance, mean]
    rw [volatility_of_history config hwindow hordered, List.cons_append, List.cons_append,
      List.nil_append, hmids, if_pos ⟨htwo, le_rfl⟩, hvariance, Real.sqrt_sq (by norm_num)]
  have hearlier : ∀ features ∈ outputs extractFrom (FeatureExtractor.new config) [first, second],
      features.midPriceVolatility = none :=
    forall_mem_outputs_iff.mpr fun pre input hbefore => by
      have hordered' : NonDecreasing (pre ++ [input]) :=
        hordered.sublist (hbefore.sublist.trans (List.sublist_append_left [first, second] [third]))
      exact volatility_of_few config hwindow hordered' (hfew pre input hbefore)
  rw [feedAnomalies, hinputs, ← htime, ← hid]
  refine first_value_reported rfl [first, second] [] third
    ⟨"mid_price_volatility", "mid_volatility_spike", 1 / 4, .positive⟩ ?_
    (fun features hmem => volatility_notMem_probes (hearlier features hmem)) rfl
    (default_threshold_le le_rfl)
  rw [MicrostructureFeatures.probes, hvolatility]
  simp

end Quotes

/-- **Names and the origin of time.** Give the orders of a feed other ids, different ones to
different orders, and move its timestamps by a constant, leaving the prices of its adds as they
are. The monitor finds the same anomalies, with the same values and scores, at the moved
timestamps and under the new ids. -/
theorem anomalies_of_renamed_feed (config : AnomalyConfig 𝔻) (r : Relabelling)
    (events : List MarketEvent) (k : ℤ) (hids : Set.InjOn r.orderId (namedIds events))
    (hprices : ∀ p ∈ addedPrices events, r.price p = p)
    (htimes : ∀ event ∈ events, (r.timestamp event.timestamp).nanoseconds.toInt =
      event.timestamp.nanoseconds.toInt + k) :
    feedAnomalies config (events.map r.event) = (feedAnomalies config events).map r.anomaly := by
  have hfaithful : r.Faithful (namedIds events) (addedPrices events) :=
    ⟨hids, fun p hp q hq hpq => by rwa [hprices p hp, hprices q hq]⟩
  exact feedAnomalies_renamed config hfaithful (readsAlike_of_prices hprices) htimes

/-- Three quotes, with other ids and a second later. The monitor reports the spread that the
second one opens. -/
theorem anomalies_of_renamed_feed_quotes :
    let config : AnomalyConfig ℝ := { minSamples := 0 }
    let r : Relabelling := {
      orderId := fun id => ⟨id.value + 4⟩
      price := id
      timestamp := fun t => ⟨t.nanoseconds + 1000000000⟩ }
    feedAnomalies config (quotesFeed.map r.event) =
        (feedAnomalies config quotesFeed).map r.anomaly ∧
      (∃ z, ⟨⟨10⟩, ⟨2⟩, "bid_ask_spread", "spread_widening", 2, z⟩ ∈
        feedAnomalies config quotesFeed) ∧
      ∃ z, ⟨⟨1000000010⟩, ⟨6⟩, "bid_ask_spread", "spread_widening", 2, z⟩ ∈
        feedAnomalies config (quotesFeed.map r.event) := by
  intro config r
  have hids : Set.InjOn r.orderId (namedIds quotesFeed) :=
    injOn_of_events (by decide)
  have hsame := anomalies_of_renamed_feed config r quotesFeed 1000000000 hids (fun _ _ => rfl)
    (by decide)
  have htime : r.timestamp ⟨10⟩ = ⟨1000000010⟩ := by decide
  have hid : r.orderId ⟨2⟩ = ⟨6⟩ := by decide
  clear_value r
  obtain ⟨z, hz⟩ := quotesFeed_spread
  refine ⟨hsame, ⟨z, hz⟩, z, ?_⟩
  rw [hsame, ← htime, ← hid]
  exact List.mem_map_of_mem hz

/-- **The origin of prices.** Over the real numbers the prices of the adds may be moved by a
constant as well. -/
theorem anomalies_of_shifted_feed (config : AnomalyConfig ℝ) (r : Relabelling)
    (events : List MarketEvent) (k c : ℤ) (hids : Set.InjOn r.orderId (namedIds events))
    (hprices : ∀ p ∈ addedPrices events, (r.price p).ticks.toInt = p.ticks.toInt + c)
    (htimes : ∀ event ∈ events, (r.timestamp event.timestamp).nanoseconds.toInt =
      event.timestamp.nanoseconds.toInt + k) :
    feedAnomalies config (events.map r.event) = (feedAnomalies config events).map r.anomaly := by
  have hmono : ∀ p ∈ addedPrices events, ∀ q ∈ addedPrices events, p.ticks < q.ticks →
      (r.price p).ticks < (r.price q).ticks := by
    intro p hp q hq hpq
    rw [Int64.lt_iff_toInt_lt] at hpq ⊢
    rw [hprices p hp, hprices q hq]
    omega
  exact feedAnomalies_renamed config ⟨hids, hmono⟩ (readsAlike_of_shifted hprices) htimes

/-- Three quotes, with other ids, a second later and ninety-nine ticks lower. The monitor reports
the spread that the second one opens and the volatility that the third one brings. -/
theorem anomalies_of_shifted_feed_quotes :
    let config : AnomalyConfig ℝ := { minSamples := 0 }
    let r : Relabelling := {
      orderId := fun id => ⟨id.value + 4⟩
      price := fun p => ⟨p.ticks - 99⟩
      timestamp := fun t => ⟨t.nanoseconds + 1000000000⟩ }
    feedAnomalies config (quotesFeed.map r.event) =
        (feedAnomalies config quotesFeed).map r.anomaly ∧
      (∃ z, ⟨⟨1000000010⟩, ⟨6⟩, "bid_ask_spread", "spread_widening", 2, z⟩ ∈
        feedAnomalies config (quotesFeed.map r.event)) ∧
      ∃ z, ⟨⟨1000000020⟩, ⟨7⟩, "mid_price_volatility", "mid_volatility_spike", 1 / 4, z⟩ ∈
        feedAnomalies config (quotesFeed.map r.event) := by
  intro config r
  have hids : Set.InjOn r.orderId (namedIds quotesFeed) :=
    injOn_of_events (by decide)
  have hprices : ∀ p ∈ addedPrices quotesFeed,
      (r.price p).ticks.toInt = p.ticks.toInt + -99 := by
    rintro _ ⟨event, hmem, -, rfl⟩
    exact (by decide : ∀ event ∈ quotesFeed,
      (r.price event.price).ticks.toInt = event.price.ticks.toInt + -99) event hmem
  have hsame := anomalies_of_shifted_feed config r quotesFeed 1000000000 (-99) hids hprices
    (by decide)
  have htime : r.timestamp ⟨10⟩ = ⟨1000000010⟩ ∧ r.timestamp ⟨20⟩ = ⟨1000000020⟩ := by decide
  have hid : r.orderId ⟨2⟩ = ⟨6⟩ ∧ r.orderId ⟨3⟩ = ⟨7⟩ := by decide
  clear_value r
  obtain ⟨z, hspread⟩ := quotesFeed_spread
  obtain ⟨z', hvolatility⟩ := quotesFeed_volatility
  refine ⟨hsame, ⟨z, ?_⟩, z', ?_⟩
  · rw [hsame, ← htime.1, ← hid.1]
    exact List.mem_map_of_mem hspread
  · rw [hsame, ← htime.2, ← hid.2]
    exact List.mem_map_of_mem hvolatility

end Datagine
