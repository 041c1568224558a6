import Mathlib.Algebra.Order.BigOperators.Group.List
import Datagine.RollingWindows

/-!
# The Features and their History

On a stream whose timestamps do not decrease the three windows of the extractor are what they
are meant to be, and every feature is a function of the history of the stream: which events
arrived within its window and, for the volatility, which of them found a book with two sides.
The mid-price window is expired at every call but extended only when the book has two sides
(`midEntries`, `midPriceWindow_run`).

Doubles are read as real numbers here, where division and square root are exact.

## Main results

* `features_of_history`: message rate, cancel/add ratio and mid-price volatility by their
  definitions over the history, at every call.
-/

namespace Datagine

open Mealy SlidingWindow

namespace FeatureExtractor

section Windows

variable {𝔻 : Type} [DoubleArith 𝔻]

/-- The mid price, when the book has two sides. -/
def midPriceOf (book : LimitOrderBook) : Option 𝔻 :=
  match book.topOfBook.bid, book.topOfBook.ask with
  | some bid, some ask =>
      some ((DoubleArith.ofInt64 bid.price.ticks + DoubleArith.ofInt64 ask.price.ticks) / 2.0)
  | _, _ => none

/-- What a call adds to the mid-price window. -/
def midEntry (input : MarketEvent × LimitOrderBook) : Option (MidPriceEntry 𝔻) :=
  (midPriceOf input.2).map fun midPrice => ⟨input.1.timestamp, midPrice⟩

/-- The mid prices of a history, with their timestamps. -/
def midEntries (inputs : List (MarketEvent × LimitOrderBook)) : List (MidPriceEntry 𝔻) :=
  inputs.filterMap midEntry

/-- At the timestamp `now`, the mid price is inside the window. -/
def InMidWindow (windowNs : Int64) (now : Timestamp) (entry : MidPriceEntry 𝔻) : Prop :=
  now.nanoseconds.toInt - entry.timestamp.nanoseconds.toInt ≤ windowNs.toInt

instance (windowNs : Int64) (now : Timestamp) :
    DecidablePred (InMidWindow (𝔻 := 𝔻) windowNs now) :=
  fun _ => inferInstanceAs (Decidable (_ ≤ _))

/-- Timestamps that do not decrease. -/
def NonDecreasing (inputs : List (MarketEvent × LimitOrderBook)) : Prop :=
  inputs.Pairwise fun a b =>
    a.1.timestamp.nanoseconds.toInt ≤ b.1.timestamp.nanoseconds.toInt

/-! ### One call -/

theorem extract_midPriceWindow (x : FeatureExtractor 𝔻) (event : MarketEvent)
    (book : LimitOrderBook) :
    (x.extract event book).2.midPriceWindow =
      x.midPriceWindow.dropWhile
          (fun entry => ¬InMidWindow x.config.volatilityWindowNs event.timestamp entry) ++
        (midEntry (event, book)).toList := by
  have hexpire : expire MidPriceEntry.timestamp x.midPriceWindow event.timestamp
      x.config.volatilityWindowNs = x.midPriceWindow.dropWhile
        (fun entry => ¬InMidWindow x.config.volatilityWindowNs event.timestamp entry) := by
    rw [expire]
    congr 1
    funext entry
    rw [decide_eq_decide, InMidWindow]
    exact Int.not_le.symm
  rw [← hexpire, extract, midEntry, midPriceOf]
  cases book.topOfBook.bid with
  | none => exact (List.append_nil _).symm
  | some bid =>
      cases book.topOfBook.ask with
      | none => exact (List.append_nil _).symm
      | some ask => rfl

/-- Spread, mid price, imbalance and volatility are reported for a book with two sides only;
the volatility is that of the mid-price window after the call. -/
theorem extract_twoSided (x : FeatureExtractor 𝔻) (event : MarketEvent) (book : LimitOrderBook) :
    (x.extract event book).1.midPrice = midPriceOf book ∧
      (x.extract event book).1.bidAskSpread.isSome = (midPriceOf (𝔻 := 𝔻) book).isSome ∧
      ((x.extract event book).1.orderBookImbalance.isSome →
        (midPriceOf (𝔻 := 𝔻) book).isSome) ∧
      (x.extract event book).1.midPriceVolatility =
        if (midPriceOf (𝔻 := 𝔻) book).isSome then (x.extract event book).2.midVolatility
        else none := by
  rw [extract, midPriceOf]
  cases book.topOfBook.bid with
  | none => exact ⟨rfl, rfl, id, rfl⟩
  | some bid =>
      cases book.topOfBook.ask with
      | none => exact ⟨rfl, rfl, id, rfl⟩
      | some ask => exact ⟨rfl, rfl, fun _ => rfl, rfl⟩

/-! ### Runs -/

theorem midEntries_append (inputs inputs' : List (MarketEvent × LimitOrderBook)) :
    midEntries (𝔻 := 𝔻) (inputs ++ inputs') = midEntries inputs ++ midEntries inputs' :=
  List.filterMap_append

theorem midEntries_pairwise {inputs : List (MarketEvent × LimitOrderBook)}
    (h : NonDecreasing inputs) :
    (midEntries (𝔻 := 𝔻) inputs).Pairwise fun a b =>
      a.timestamp.nanoseconds.toInt ≤ b.timestamp.nanoseconds.toInt := by
  refine List.Pairwise.filterMap midEntry (fun a b hab a' ha' b' hb' => ?_) h
  obtain ⟨midPrice, -, rfl⟩ := Option.map_eq_some_iff.mp ha'
  obtain ⟨midPrice', -, rfl⟩ := Option.map_eq_some_iff.mp hb'
  exact hab

/-- A call adds its own mid price, which is inside its window. -/
theorem midPriceWindow_extractFrom {x : FeatureExtractor 𝔻} {windowNs : Int64}
    (hconfig : x.config.volatilityWindowNs = windowNs) (hwindow : 0 ≤ windowNs.toInt)
    {history : List (MarketEvent × LimitOrderBook)} {input : MarketEvent × LimitOrderBook}
    (hold : x.midPriceWindow.dropWhile
        (fun entry => ¬InMidWindow windowNs input.1.timestamp entry) =
      (midEntries history).filter fun entry => InMidWindow windowNs input.1.timestamp entry) :
    (x.extractFrom input).2.midPriceWindow =
      (midEntries (history ++ [input])).filter
        fun entry => InMidWindow windowNs input.1.timestamp entry := by
  have hnew : midEntries (𝔻 := 𝔻) [input] = (midEntry input).toList := by
    rw [midEntries, List.filterMap_cons, List.filterMap_nil]
    cases midEntry (𝔻 := 𝔻) input <;> rfl
  have hself : (midEntry (𝔻 := 𝔻) input).toList.filter
      (fun entry => InMidWindow windowNs input.1.timestamp entry) = (midEntry input).toList := by
    refine List.filter_eq_self.mpr fun entry hentry => decide_eq_true ?_
    obtain ⟨midPrice, -, rfl⟩ := Option.map_eq_some_iff.mp (Option.mem_toList.mp hentry)
    rw [InMidWindow, Int.sub_self]
    exact hwindow
  rw [extractFrom, extract_midPriceWindow, hconfig, hold, midEntries_append, List.filter_append,
    hnew, hself]

/-- On timestamps that do not decrease, expiring the window of one call gives the window of the
next. -/
theorem dropWhile_midEntries (windowNs : Int64) {history : List (MarketEvent × LimitOrderBook)}
    {last input : MarketEvent × LimitOrderBook}
    (h : NonDecreasing (history ++ [last] ++ [input])) :
    ((midEntries (𝔻 := 𝔻) (history ++ [last])).filter
        fun entry => InMidWindow windowNs last.1.timestamp entry).dropWhile
          (fun entry => ¬InMidWindow windowNs input.1.timestamp entry) =
      (midEntries (history ++ [last])).filter
        fun entry => InMidWindow windowNs input.1.timestamp entry := by
  obtain ⟨hhistory, -, hlater⟩ := List.pairwise_append.mp h
  have hnow := hlater last (by simp) input (by simp)
  refine dropWhile_filter (fun entry _ hin => ?_) ((midEntries_pairwise hhistory).imp ?_)
  · rw [InMidWindow] at hin ⊢
    omega
  · intro a b hab hin
    rw [InMidWindow] at hin ⊢
    omega

/-- **The mid-price window is the history.** When timestamps do not decrease, it holds the mid
prices inside the window of the last call. -/
theorem midPriceWindow_run (config : AnomalyConfig 𝔻)
    (hwindow : 0 ≤ config.volatilityWindowNs.toInt)
    {pre : List (MarketEvent × LimitOrderBook)} {input : MarketEvent × LimitOrderBook}
    (h : NonDecreasing (pre ++ [input])) :
    ((finalState extractFrom (new config) pre).extractFrom input).2.midPriceWindow =
      (midEntries (pre ++ [input])).filter
        fun entry => InMidWindow config.volatilityWindowNs input.1.timestamp entry := by
  induction pre using List.reverseRecOn generalizing input with
  | nil =>
      have hconfig : (new config).config.volatilityWindowNs = config.volatilityWindowNs := rfl
      exact midPriceWindow_extractFrom hconfig hwindow rfl
  | append_singleton pre last ih =>
      have hlast := ih (h.sublist (List.sublist_append_left _ _))
      have hconfig := (tracks_finalState config (pre ++ [last])).keepsConfig
      have hstate : finalState extractFrom (new config) (pre ++ [last]) =
          ((finalState extractFrom (new config) pre).extractFrom last).2 :=
        finalState_concat _ pre last
      refine midPriceWindow_extractFrom (congrArg _ hconfig) hwindow ?_
      rw [hstate, hlast, dropWhile_midEntries config.volatilityWindowNs h]

end Windows

/-! ### Over the real numbers -/

/-- The mean of a list of numbers. -/
noncomputable def mean (xs : List ℝ) : ℝ := xs.sum / xs.length

/-- The population variance of a list of numbers. -/
noncomputable def populationVariance (xs : List ℝ) : ℝ :=
  (xs.map fun x => (x - mean xs) ^ 2).sum / xs.length

theorem populationVariance_nonneg (xs : List ℝ) : 0 ≤ populationVariance xs := by
  refine div_nonneg (List.sum_nonneg fun y hy => ?_) (Nat.cast_nonneg _)
  obtain ⟨x, -, rfl⟩ := List.mem_map.mp hy
  exact sq_nonneg _

theorem foldl_add_map {α : Type} (f : α → ℝ) (xs : List α) (y : ℝ) :
    xs.foldl (fun acc x => acc + f x) y = y + (xs.map f).sum := by
  induction xs generalizing y with
  | nil => simp
  | cons x xs ih =>
      rw [List.foldl_cons, ih, List.map_cons, List.sum_cons]
      ring

theorem zero_double : (DoubleArith.toOfScientific.ofScientific 0 true 1 : ℝ) = 0 := by
  have h : (OfScientific.ofScientific 0 true 1 : ℝ) = 0 := by norm_num
  exact h

/-- The volatility is the square root of the population variance of the window. -/
theorem midVolatility_real (x : FeatureExtractor ℝ) :
    x.midVolatility =
      if x.midPriceWindow.length < 2 then none
      else some (Real.sqrt (populationVariance (x.midPriceWindow.map MidPriceEntry.midPrice))) := by
  have hsum : x.midPriceWindow.foldl (fun sum entry => sum + entry.midPrice) (0 : ℝ) =
      (x.midPriceWindow.map MidPriceEntry.midPrice).sum :=
    (foldl_add_map _ _ _).trans (zero_add _)
  have hvariance (m : ℝ) : x.midPriceWindow.foldl (fun variance entry =>
        variance + (entry.midPrice - m) * (entry.midPrice - m)) (0 : ℝ) =
      ((x.midPriceWindow.map MidPriceEntry.midPrice).map fun y => (y - m) ^ 2).sum := by
    rw [foldl_add_map, zero_add, List.map_map]
    exact congrArg _ (List.map_congr_left fun entry _ => (pow_two _).symm)
  let m : ℝ := x.midPriceWindow.foldl (fun sum entry => sum + entry.midPrice) 0 /
    (x.midPriceWindow.length : ℝ)
  have hm : m = mean (x.midPriceWindow.map MidPriceEntry.midPrice) := by
    rw [mean, ← hsum, List.length_map]
  have hsource : x.midVolatility =
      if x.midPriceWindow.length < 2 then none
      else some (Real.sqrt (x.midPriceWindow.foldl (fun variance entry =>
        variance + (entry.midPrice - m) * (entry.midPrice - m)) 0 /
          (x.midPriceWindow.length : ℝ))) := by
    rw [midVolatility, zero_double]
    rfl
  rw [hsource, hvariance, hm, populationVariance, List.length_map]

theorem messageRate_real (x : FeatureExtractor ℝ) (h : 0 < x.config.messageWindowNs.toInt) :
    x.messageRate * ((x.config.messageWindowNs.toInt : ℝ) / 10 ^ 9) = x.messageWindow.length := by
  have hbillion : (OfScientific.ofScientific 10000000000 true 1 : ℝ) = 10 ^ 9 := by norm_num
  have hseconds : windowSeconds (𝔻 := ℝ) x.config.messageWindowNs =
      (x.config.messageWindowNs.toInt : ℝ) / 10 ^ 9 :=
    congrArg (fun y : ℝ => (x.config.messageWindowNs.toInt : ℝ) / y) hbillion
  have hpos : (0 : ℝ) < (x.config.messageWindowNs.toInt : ℝ) / 10 ^ 9 :=
    div_pos (Int.cast_pos.mpr h) (by norm_num)
  have hrate : x.messageRate =
      (x.messageWindow.length : ℝ) / ((x.config.messageWindowNs.toInt : ℝ) / 10 ^ 9) := by
    rw [messageRate, zero_double, hseconds]
    exact if_pos (decide_eq_true hpos)
  rw [hrate, div_mul_cancel₀ _ hpos.ne']

/-! ### The history -/

/-- The nanoseconds from a call to the timestamp `now`. -/
def elapsed (now : Timestamp) (input : MarketEvent × LimitOrderBook) : ℤ :=
  now.nanoseconds.toInt - input.1.timestamp.nanoseconds.toInt

/-- The calls of a history not more than `windowNs` before `now`. -/
def within (windowNs : Int64) (now : Timestamp) (history : List (MarketEvent × LimitOrderBook)) :
    List (MarketEvent × LimitOrderBook) :=
  history.filter fun input => elapsed now input ≤ windowNs.toInt

theorem filter_observed (windowNs : Int64) (now : Timestamp)
    (history : List (MarketEvent × LimitOrderBook)) :
    (observed history).filter (fun entry => entry.InWindow windowNs now) =
      observed (within windowNs now history) :=
  List.filter_map

theorem documented_messageWindow (config : AnomalyConfig ℝ) (now : Timestamp)
    (history : List (MarketEvent × LimitOrderBook)) :
    (documented config (observed history) now).messageWindow =
      observed (within config.messageWindowNs now history) :=
  filter_observed _ _ _

theorem documented_cancelRatioWindow (config : AnomalyConfig ℝ) (now : Timestamp)
    (history : List (MarketEvent × LimitOrderBook)) :
    (documented config (observed history) now).cancelRatioWindow =
      observed (within config.cancelRatioWindowNs now history) :=
  filter_observed _ _ _

theorem filter_midEntries (windowNs : Int64) (now : Timestamp)
    (history : List (MarketEvent × LimitOrderBook)) :
    ((midEntries history).filter fun entry => InMidWindow windowNs now entry).map
        MidPriceEntry.midPrice =
      (within windowNs now history).filterMap fun input => midPriceOf (𝔻 := ℝ) input.2 := by
  induction history with
  | nil => rfl
  | cons input history ih =>
      rw [within, midEntries, List.filterMap_cons, List.filter_cons, midEntry]
      rw [within, midEntries] at ih
      cases hmid : midPriceOf (𝔻 := ℝ) input.2 with
      | none =>
          dsimp only [Option.map_none]
          rw [ih]
          split_ifs
          · rw [List.filterMap_cons, hmid]
          · rfl
      | some midPrice =>
          dsimp only [Option.map_some]
          rw [List.filter_cons]
          by_cases hin : elapsed now input ≤ windowNs.toInt
          · have hin' : InMidWindow (𝔻 := ℝ) windowNs now ⟨input.1.timestamp, midPrice⟩ := hin
            rw [if_pos (decide_eq_true hin'), if_pos (decide_eq_true hin), List.map_cons, ih,
              List.filterMap_cons, hmid]
          · have hin' : ¬InMidWindow (𝔻 := ℝ) windowNs now ⟨input.1.timestamp, midPrice⟩ := hin
            rw [if_neg (by simpa using hin'), if_neg (by simpa using hin), ih]

end FeatureExtractor

/-- Both sides of the book have a level. -/
def LimitOrderBook.TwoSided (b : LimitOrderBook) : Prop :=
  b.bidLevels.entries ≠ [] ∧ b.askLevels.entries ≠ []

instance (b : LimitOrderBook) : Decidable b.TwoSided :=
  decidable_of_iff (¬b.bidLevels.entries.isEmpty ∧ ¬b.askLevels.entries.isEmpty) <| by
    rw [LimitOrderBook.TwoSided, List.isEmpty_iff, List.isEmpty_iff]

open FeatureExtractor

theorem isSome_midPriceOf {𝔻 : Type} [DoubleArith 𝔻] (b : LimitOrderBook) :
    (midPriceOf (𝔻 := 𝔻) b).isSome ↔ b.TwoSided := by
  rw [midPriceOf, LimitOrderBook.TwoSided, LimitOrderBook.topOfBook, BookLevels.top]
  cases b.bidLevels.entries with
  | nil => simp
  | cons bid bids => cases b.askLevels.entries <;> simp

/-- On timestamps that do not decrease the windows of events are exact. -/
theorem exactWindows_of_nonDecreasing {𝔻 : Type} [DoubleArith 𝔻] (config : AnomalyConfig 𝔻)
    (hmessage : 0 ≤ config.messageWindowNs.toInt)
    (hcancel : 0 ≤ config.cancelRatioWindowNs.toInt)
    {pre : List (MarketEvent × LimitOrderBook)} {input : MarketEvent × LimitOrderBook}
    (h : NonDecreasing (pre ++ [input])) :
    ExactWindows config (observed (pre ++ [input])) input.1.timestamp
      ((finalState extractFrom (new config) pre).extractFrom input) := by
  have hobserved : (observed (pre ++ [input])).Pairwise fun a b =>
      a.timestamp.nanoseconds.toInt ≤ b.timestamp.nanoseconds.toInt := List.pairwise_map.mpr h
  refine (exactWindows_iff_exact config pre input).mpr ⟨?_, ?_⟩
  · exact (exact_iff_contiguous (inWindowOf_self hmessage) _).mpr
      (contiguous_of_nondecreasing _ hobserved) _ List.prefix_rfl
  · exact (exact_iff_contiguous (inWindowOf_self hcancel) _).mpr
      (contiguous_of_nondecreasing _ hobserved) _ List.prefix_rfl

/-- The mid prices of the calls inside the volatility window. -/
noncomputable def midsWithin (config : AnomalyConfig ℝ) (now : Timestamp)
    (history : List (MarketEvent × LimitOrderBook)) : List ℝ :=
  (within config.volatilityWindowNs now history).filterMap fun call => midPriceOf call.2

/-- On timestamps that do not decrease the volatility is that of the mid prices of the
history. -/
theorem volatility_of_history (config : AnomalyConfig ℝ)
    (hvolatility : 0 ≤ config.volatilityWindowNs.toInt)
    {pre : List (MarketEvent × LimitOrderBook)} {input : MarketEvent × LimitOrderBook}
    (h : NonDecreasing (pre ++ [input])) :
    ((finalState extractFrom (new config) pre).extractFrom input).1.midPriceVolatility =
      if input.2.TwoSided ∧ 2 ≤ (midsWithin config input.1.timestamp (pre ++ [input])).length then
        some (Real.sqrt (populationVariance (midsWithin config input.1.timestamp
          (pre ++ [input]))))
      else none := by
  have hmids : ((finalState extractFrom (new config) pre).extractFrom input).2.midPriceWindow.map
      MidPriceEntry.midPrice = midsWithin config input.1.timestamp (pre ++ [input]) := by
    rw [midPriceWindow_run config hvolatility h]
    exact filter_midEntries _ _ _
  have hlength := congrArg List.length hmids
  rw [List.length_map] at hlength
  obtain ⟨-, -, -, hvol⟩ :=
    extract_twoSided (finalState extractFrom (new config) pre) input.1 input.2
  rw [extractFrom] at hmids hlength ⊢
  rw [hvol, midVolatility_real, hlength, hmids]
  by_cases htwo : input.2.TwoSided
  · rw [if_pos ((isSome_midPriceOf input.2).mpr htwo)]
    by_cases hshort : (midsWithin config input.1.timestamp (pre ++ [input])).length < 2
    · rw [if_pos hshort, if_neg fun hboth => by omega]
    · rw [if_neg hshort, if_pos ⟨htwo, by omega⟩]
  · rw [if_neg (fun hsome => htwo ((isSome_midPriceOf input.2).mp hsome)),
      if_neg fun hboth => htwo hboth.1]

/-- With fewer than two mid prices in the window there is no volatility. -/
theorem volatility_of_few (config : AnomalyConfig ℝ)
    (hvolatility : 0 ≤ config.volatilityWindowNs.toInt)
    {pre : List (MarketEvent × LimitOrderBook)} {input : MarketEvent × LimitOrderBook}
    (h : NonDecreasing (pre ++ [input]))
    (hfew : (midsWithin config input.1.timestamp (pre ++ [input])).length < 2) :
    ((finalState extractFrom (new config) pre).extractFrom input).1.midPriceVolatility = none := by
  rw [volatility_of_history config hvolatility h,
    if_neg fun hboth => absurd hboth.2 (Nat.not_le.mpr hfew)]

/-- **The features and their history.** Let timestamps not decrease and windows be positive. At
every call the message rate times the window in seconds is the number of events so far that
are inside the window; the cancel/add ratio is that of the events inside its window; spread,
mid price and imbalance are there only if the book has two sides; and the volatility is there
exactly if moreover at least two calls inside its window had two sides, the current one
included, and its square is the population variance of the mid prices of these calls. -/
theorem features_of_history (config : AnomalyConfig ℝ)
    (hmessage : 0 < config.messageWindowNs.toInt)
    (hcancel : 0 < config.cancelRatioWindowNs.toInt)
    (hvolatility : 0 < config.volatilityWindowNs.toInt)
    (inputs : List (MarketEvent × LimitOrderBook)) (hordered : NonDecreasing inputs)
    (pre : List (MarketEvent × LimitOrderBook)) (input : MarketEvent × LimitOrderBook)
    (hpre : pre ++ [input] <+: inputs) :
    let history := pre ++ [input]
    let now := input.1.timestamp
    let features := ((finalState extractFrom (new config) pre).extractFrom input).1
    let mids := midsWithin config now history
    features.messageRate * (config.messageWindowNs.toInt / 10 ^ 9) =
        (within config.messageWindowNs now history).length ∧
      features.cancelAddRatio =
        ((within config.cancelRatioWindowNs now history).countP
            fun call => call.1.type = .cancel : ℕ) /
          (max 1 ((within config.cancelRatioWindowNs now history).countP
            fun call => call.1.type = .add) : ℕ) ∧
      (features.bidAskSpread.isSome → input.2.TwoSided) ∧
      (features.midPrice.isSome → input.2.TwoSided) ∧
      (features.orderBookImbalance.isSome → input.2.TwoSided) ∧
      (features.midPriceVolatility.isSome ↔ input.2.TwoSided ∧ 2 ≤ mids.length) ∧
      ∀ v, features.midPriceVolatility = some v → 0 ≤ v ∧ v ^ 2 = populationVariance mids := by
  intro history now features mids
  have hhistory : NonDecreasing history := hordered.sublist hpre.sublist
  let output := (finalState extractFrom (new config) pre).extractFrom input
  have hwindows : ExactWindows config (observed history) now output :=
    exactWindows_of_nonDecreasing config hmessage.le hcancel.le hhistory
  have hconfig : output.2.config = config :=
    (extract_config _ _ _).trans (tracks_finalState config pre).keepsConfig
  obtain ⟨hrate, hratio⟩ :=
    extract_rates (finalState extractFrom (new config) pre) input.1 input.2
  obtain ⟨hmid, hspread, himbalance, -⟩ :=
    extract_twoSided (finalState extractFrom (new config) pre) input.1 input.2
  have hvol : features.midPriceVolatility = _ :=
    volatility_of_history config hvolatility.le hhistory
  refine ⟨?_, ?_, ?_, ?_, ?_, ?_, ?_⟩
  · have hcount : output.2.messageWindow.length =
        (within config.messageWindowNs now history).length := by
      rw [hwindows.messageWindow, documented_messageWindow, observed, List.length_map]
    have hreal := messageRate_real output.2 (by rw [hconfig]; exact hmessage)
    rw [hconfig, hcount] at hreal
    exact hrate ▸ hreal
  · have hcount (type : EventType) :
        output.2.cancelRatioWindow.countP (fun entry => entry.type = type) =
          (within config.cancelRatioWindowNs now history).countP
            fun call => call.1.type = type := by
      rw [hwindows.cancelRatioWindow, documented_cancelRatioWindow, observed, List.countP_map]
      rfl
    rw [← hcount, ← hcount]
    exact hratio
  · exact fun h => (isSome_midPriceOf input.2).mp (hspread ▸ h)
  · exact fun h => (isSome_midPriceOf input.2).mp (hmid ▸ h)
  · exact fun h => (isSome_midPriceOf input.2).mp (himbalance h)
  · rw [hvol]
    split_ifs with hboth
    · exact iff_of_true rfl hboth
    · exact iff_of_false Bool.false_ne_true hboth
  · intro v hv
    rw [hvol] at hv
    split_ifs at hv
    obtain rfl := Option.some.inj hv
    exact ⟨Real.sqrt_nonneg _, Real.sq_sqrt (populationVariance_nonneg mids)⟩

/-- A bid, an ask and a better bid. -/
def quotesFeed : List MarketEvent :=
  [{ timestamp := ⟨0⟩, orderId := ⟨1⟩, side := .buy, price := ⟨100⟩, quantity := ⟨5⟩ },
    { timestamp := ⟨10⟩, orderId := ⟨2⟩, side := .sell, price := ⟨102⟩, quantity := ⟨5⟩ },
    { timestamp := ⟨20⟩, orderId := ⟨3⟩, side := .buy, price := ⟨101⟩, quantity := ⟨5⟩ }]

/-- With the default windows, the message rate at the last of these events, and its volatility,
which exists because two of the books had two sides. -/
theorem features_of_history_quotes :
    let calls := acceptedInputs .empty quotesFeed
    NonDecreasing calls ∧ ∃ pre input, pre ++ [input] = calls ∧
      let features := ((finalState extractFrom (new ({} : AnomalyConfig ℝ)) pre).extractFrom
        input).1
      features.messageRate * (1000000000 / 10 ^ 9) = 3 ∧ features.midPriceVolatility.isSome := by
  intro calls
  have hordered : NonDecreasing calls := by
    rw [NonDecreasing]
    decide +kernel
  refine ⟨hordered, [_, _], _, rfl, ?_⟩
  obtain ⟨hrate, -, -, -, -, hvol, -⟩ := features_of_history ({} : AnomalyConfig ℝ) (by decide)
    (by decide) (by decide) calls hordered [_, _] _ List.prefix_rfl
  refine ⟨?_, hvol.mpr ⟨by decide +kernel, by decide +kernel⟩⟩
  have hwindow : (({} : AnomalyConfig ℝ).messageWindowNs.toInt : ℝ) = 1000000000 := by
    exact_mod_cast (by decide : ({} : AnomalyConfig ℝ).messageWindowNs.toInt = 1000000000)
  rw [hwindow] at hrate
  refine hrate.trans ?_
  exact_mod_cast (by decide +kernel : List.length _ = 3)

end Datagine
