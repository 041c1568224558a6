import Datagine.AnomalyDetector
import Datagine.Lib.Mealy
import Datagine.Lib.SlidingWindow

/-!
# Rolling Windows of the Feature Extractor

The message rate and the cancel/add ratio are documented as counts over rolling windows of
timestamps. The windows are queues in the order of arrival, from which `extract` removes
outdated events at the front only. Nothing in the parser, the book or the replay engine makes
timestamps increase, and without that the queues can be wrong in both ways: an outdated event
that arrived behind a later one is still counted, and an event removed when a timestamp from
the far future arrived is missing when the clock comes back.

## Main results

* `exactWindows_iff_contiguous`: both windows hold just the events inside them, after every
  call, if and only if every event that arrives between two events of one window is in a
  window with both of them. Timestamps that never decrease are enough for it
  (`contiguous_of_nondecreasing`).
* `exactWindows_outOfOrder`: a feed of three accepted events after which an outdated event is
  counted.
-/

namespace Datagine

open Mealy SlidingWindow

variable {𝔻 : Type} [DoubleArith 𝔻]

/-- What an event leaves in a window. -/
def MarketEvent.windowEntry (event : MarketEvent) : EventWindowEntry :=
  ⟨event.timestamp, event.type⟩

/-- At the timestamp `now`, the entry is inside the window. -/
def EventWindowEntry.InWindow (windowNs : Int64) (now : Timestamp) (entry : EventWindowEntry) :
    Prop :=
  now.nanoseconds.toInt - entry.timestamp.nanoseconds.toInt ≤ windowNs.toInt

instance (windowNs : Int64) (now : Timestamp) :
    DecidablePred (EventWindowEntry.InWindow windowNs now) :=
  fun _ => inferInstanceAs (Decidable (_ ≤ _))

/-- The entry is inside the window when the last one arrives. -/
def EventWindowEntry.InWindowOf (windowNs : Int64) (last entry : EventWindowEntry) : Prop :=
  entry.InWindow windowNs last.timestamp

instance (windowNs : Int64) : DecidableRel (EventWindowEntry.InWindowOf windowNs) :=
  fun _ _ => inferInstanceAs (Decidable (_ ≤ _))

namespace FeatureExtractor

/-- One call of `extract`, on an event and the book after it. -/
def extractFrom (x : FeatureExtractor 𝔻) (input : MarketEvent × LimitOrderBook) :
    MicrostructureFeatures 𝔻 × FeatureExtractor 𝔻 :=
  x.extract input.1 input.2

/-- The windows as they are documented: the events observed so far that are inside them at
the timestamp `now`. -/
def documented (config : AnomalyConfig 𝔻) (entries : List EventWindowEntry) (now : Timestamp) :
    FeatureExtractor 𝔻 where
  config := config
  messageWindow := entries.filter fun entry => entry.InWindow config.messageWindowNs now
  cancelRatioWindow := entries.filter fun entry => entry.InWindow config.cancelRatioWindowNs now

/-- After a call, the windows are the documented ones, and so are the features counted over
them. -/
structure ExactWindows (config : AnomalyConfig 𝔻) (entries : List EventWindowEntry)
    (now : Timestamp) (output : MicrostructureFeatures 𝔻 × FeatureExtractor 𝔻) : Prop where
  messageWindow : output.2.messageWindow = (documented config entries now).messageWindow
  cancelRatioWindow :
    output.2.cancelRatioWindow = (documented config entries now).cancelRatioWindow
  messageRate : output.1.messageRate = (documented config entries now).messageRate
  cancelAddRatio : output.1.cancelAddRatio = (documented config entries now).cancelAddRatio

/-! ### One call -/

@[simp] theorem extract_config (x : FeatureExtractor 𝔻) (event : MarketEvent)
    (book : LimitOrderBook) : (x.extract event book).2.config = x.config := by
  rw [extract]
  split <;> rfl

/-- Taking outdated entries off the front and adding the new one is a step of a sliding
window. -/
theorem expire_append (window : List EventWindowEntry) (event : MarketEvent) (windowNs : Int64) :
    expire EventWindowEntry.timestamp window event.timestamp windowNs ++ [event.windowEntry] =
      slide (EventWindowEntry.InWindowOf windowNs) window event.windowEntry := by
  rw [expire, slide]
  congr 2
  funext entry
  rw [decide_eq_decide, EventWindowEntry.InWindowOf, EventWindowEntry.InWindow]
  exact Int.not_le.symm

theorem extract_messageWindow (x : FeatureExtractor 𝔻) (event : MarketEvent)
    (book : LimitOrderBook) :
    (x.extract event book).2.messageWindow =
      slide (EventWindowEntry.InWindowOf x.config.messageWindowNs) x.messageWindow
        event.windowEntry := by
  rw [← expire_append, extract]
  split <;> rfl

theorem extract_cancelRatioWindow (x : FeatureExtractor 𝔻) (event : MarketEvent)
    (book : LimitOrderBook) :
    (x.extract event book).2.cancelRatioWindow =
      slide (EventWindowEntry.InWindowOf x.config.cancelRatioWindowNs) x.cancelRatioWindow
        event.windowEntry := by
  rw [← expire_append, extract]
  split <;> rfl

/-- The features are counted over the windows after the call. -/
theorem extract_rates (x : FeatureExtractor 𝔻) (event : MarketEvent) (book : LimitOrderBook) :
    (x.extract event book).1.messageRate = (x.extract event book).2.messageRate ∧
      (x.extract event book).1.cancelAddRatio = (x.extract event book).2.cancelAddRatio := by
  rw [extract]
  split <;> exact ⟨rfl, rfl⟩

/-- The message rate reads the configuration and its window only. -/
theorem messageRate_eq {x y : FeatureExtractor 𝔻} (hconfig : x.config = y.config)
    (hwindow : x.messageWindow = y.messageWindow) : x.messageRate = y.messageRate := by
  rw [messageRate, messageRate, hconfig, hwindow]

/-- The cancel/add ratio reads its window only. -/
theorem cancelAddRatio_eq {x y : FeatureExtractor 𝔻}
    (hwindow : x.cancelRatioWindow = y.cancelRatioWindow) :
    x.cancelAddRatio = y.cancelAddRatio := by
  rw [cancelAddRatio, cancelAddRatio, hwindow]

/-! ### Runs -/

/-- The events observed in a run. -/
def observed (inputs : List (MarketEvent × LimitOrderBook)) : List EventWindowEntry :=
  inputs.map fun input => input.1.windowEntry

@[simp] theorem observed_append (inputs inputs' : List (MarketEvent × LimitOrderBook)) :
    observed (inputs ++ inputs') = observed inputs ++ observed inputs' :=
  List.map_append

/-- The extractor before the first event. -/
def new (config : AnomalyConfig 𝔻) : FeatureExtractor 𝔻 := { config := config }

/-- What a run leaves: its configuration, and two sliding windows over the same entries. -/
structure Tracks (config : AnomalyConfig 𝔻) (entries : List EventWindowEntry)
    (x : FeatureExtractor 𝔻) : Prop where
  keepsConfig : x.config = config
  messageWindow :
    x.messageWindow = windowOf (EventWindowEntry.InWindowOf config.messageWindowNs) entries
  cancelRatioWindow :
    x.cancelRatioWindow =
      windowOf (EventWindowEntry.InWindowOf config.cancelRatioWindowNs) entries

theorem tracks_extractFrom {config : AnomalyConfig 𝔻} {entries : List EventWindowEntry}
    {x : FeatureExtractor 𝔻} (h : Tracks config entries x)
    (input : MarketEvent × LimitOrderBook) :
    Tracks config (entries ++ [input.1.windowEntry]) (x.extractFrom input).2 where
  keepsConfig := by rw [extractFrom, extract_config, h.keepsConfig]
  messageWindow := by
    rw [extractFrom, extract_messageWindow, h.keepsConfig, h.messageWindow, windowOf_concat]
  cancelRatioWindow := by
    rw [extractFrom, extract_cancelRatioWindow, h.keepsConfig, h.cancelRatioWindow,
      windowOf_concat]

theorem tracks_finalState (config : AnomalyConfig 𝔻)
    (inputs : List (MarketEvent × LimitOrderBook)) :
    Tracks config (observed inputs) (finalState extractFrom (new config) inputs) := by
  induction inputs using List.reverseRecOn with
  | nil => exact ⟨rfl, rfl, rfl⟩
  | append_singleton inputs input ih =>
      rw [finalState_concat, observed_append]
      exact tracks_extractFrom ih input

/-! ### Exact windows -/

theorem inWindowOf_self {windowNs : Int64} (h : 0 ≤ windowNs.toInt) (entry : EventWindowEntry) :
    EventWindowEntry.InWindowOf windowNs entry entry := by
  rw [EventWindowEntry.InWindowOf, EventWindowEntry.InWindow, Int.sub_self]
  exact h

/-- Timestamps that never decrease keep any window contiguous. -/
theorem contiguous_of_nondecreasing (windowNs : Int64) {entries : List EventWindowEntry}
    (h : entries.Pairwise fun a b =>
      a.timestamp.nanoseconds.toInt ≤ b.timestamp.nanoseconds.toInt) :
    Contiguous (EventWindowEntry.InWindowOf windowNs) entries := by
  intro a b c habc hca
  have hle := h.sublist habc
  simp only [List.pairwise_cons, List.mem_cons, List.not_mem_nil, or_false, forall_eq_or_imp,
    forall_eq] at hle
  simp only [EventWindowEntry.InWindowOf, EventWindowEntry.InWindow] at hca ⊢
  omega

theorem exact_concat_iff_eq {windowNs : Int64} (entries : List EventWindowEntry)
    (entry : EventWindowEntry) :
    Exact (EventWindowEntry.InWindowOf windowNs) (entries ++ [entry]) ↔
      windowOf (EventWindowEntry.InWindowOf windowNs) (entries ++ [entry]) =
        (entries ++ [entry]).filter fun e => e.InWindow windowNs entry.timestamp := by
  rw [Exact, List.getLast?_concat]
  simp only [Option.mem_some_iff, forall_eq']
  exact Iff.rfl

/-- The documented windows after a call are the exact sliding windows. -/
theorem exactWindows_iff_exact (config : AnomalyConfig 𝔻)
    (pre : List (MarketEvent × LimitOrderBook)) (input : MarketEvent × LimitOrderBook) :
    ExactWindows config (observed (pre ++ [input])) input.1.timestamp
        ((finalState extractFrom (new config) pre).extractFrom input) ↔
      Exact (EventWindowEntry.InWindowOf config.messageWindowNs) (observed (pre ++ [input])) ∧
        Exact (EventWindowEntry.InWindowOf config.cancelRatioWindowNs)
          (observed (pre ++ [input])) := by
  have htracks := tracks_finalState config (pre ++ [input])
  rw [finalState_concat] at htracks
  have hobserved : observed (pre ++ [input]) = observed pre ++ [input.1.windowEntry] :=
    observed_append pre [input]
  rw [hobserved] at htracks ⊢
  rw [exact_concat_iff_eq, exact_concat_iff_eq, ← htracks.messageWindow,
    ← htracks.cancelRatioWindow]
  constructor
  · intro h
    exact ⟨h.messageWindow, h.cancelRatioWindow⟩
  · rintro ⟨hmessage, hcancel⟩
    obtain ⟨hrate, hratio⟩ :=
      extract_rates (finalState extractFrom (new config) pre) input.1 input.2
    exact ⟨hmessage, hcancel, hrate.trans (messageRate_eq htracks.keepsConfig hmessage),
      hratio.trans (cancelAddRatio_eq hcancel)⟩

end FeatureExtractor

open FeatureExtractor

/-- **Rolling windows.** After every call of a run both windows hold exactly the observed
events inside them, and the features count exactly these, if and only if the run is contiguous
for both window lengths: an event that arrives between two events, of which the first is
inside the window at the last, has the first inside its window and is inside the window at the
last. Differences of timestamps are exact integers here; `expiry_fits_iff` says on which inputs
the source computes them without overflow. -/
theorem exactWindows_iff_contiguous (config : AnomalyConfig 𝔻)
    (hmessage : 0 ≤ config.messageWindowNs.toInt)
    (hcancel : 0 ≤ config.cancelRatioWindowNs.toInt)
    (inputs : List (MarketEvent × LimitOrderBook)) :
    (∀ pre input, pre ++ [input] <+: inputs →
        ExactWindows config (observed (pre ++ [input])) input.1.timestamp
          ((finalState extractFrom (new config) pre).extractFrom input)) ↔
      Contiguous (EventWindowEntry.InWindowOf config.messageWindowNs) (observed inputs) ∧
        Contiguous (EventWindowEntry.InWindowOf config.cancelRatioWindowNs)
          (observed inputs) := by
  rw [← exact_iff_contiguous (inWindowOf_self hmessage),
    ← exact_iff_contiguous (inWindowOf_self hcancel)]
  constructor
  · intro h
    have hexact : ∀ pre, pre <+: inputs →
        Exact (EventWindowEntry.InWindowOf config.messageWindowNs) (observed pre) ∧
          Exact (EventWindowEntry.InWindowOf config.cancelRatioWindowNs) (observed pre) := by
      intro pre hpre
      induction pre using List.reverseRecOn with
      | nil => exact ⟨exact_nil, exact_nil⟩
      | append_singleton pre input _ =>
          exact (exactWindows_iff_exact config pre input).mp (h pre input hpre)
    refine ⟨fun entries hentries => ?_, fun entries hentries => ?_⟩
    · obtain ⟨pre, hpre, rfl⟩ := List.prefix_map_iff.mp hentries
      exact (hexact pre hpre).1
    · obtain ⟨pre, hpre, rfl⟩ := List.prefix_map_iff.mp hentries
      exact (hexact pre hpre).2
  · rintro ⟨hmessage, hcancel⟩ pre input hpre
    exact (exactWindows_iff_exact config pre input).mpr
      ⟨hmessage _ (hpre.map _), hcancel _ (hpre.map _)⟩

/-- What the extractor is shown of a feed: each event the book applies, with the book after
it. -/
def acceptedInputs : LimitOrderBook → List MarketEvent → List (MarketEvent × LimitOrderBook)
  | _, [] => []
  | b, event :: events =>
      match b.apply event with
      | (.applied, b') => (event, b') :: acceptedInputs b' events
      | (_, b') => acceptedInputs b' events

/-- Three adds with the given timestamps. -/
def threeAdds (first second third : Int64) : List MarketEvent :=
  [{ timestamp := ⟨first⟩, orderId := ⟨1⟩, price := ⟨100⟩, quantity := ⟨1⟩ },
    { timestamp := ⟨second⟩, orderId := ⟨2⟩, price := ⟨100⟩, quantity := ⟨1⟩ },
    { timestamp := ⟨third⟩, orderId := ⟨3⟩, price := ⟨100⟩, quantity := ⟨1⟩ }]

/-- With the default windows of a second, a feed whose timestamps increase. -/
theorem exactWindows_increasing :
    0 ≤ ({} : AnomalyConfig Float).messageWindowNs.toInt ∧
      0 ≤ ({} : AnomalyConfig Float).cancelRatioWindowNs.toInt ∧
      (∀ pre input,
        pre ++ [input] <+: acceptedInputs .empty (threeAdds 0 900000000 1800000000) →
        ExactWindows ({} : AnomalyConfig Float) (observed (pre ++ [input])) input.1.timestamp
          ((finalState extractFrom (new {}) pre).extractFrom input)) := by
  refine ⟨by decide, by decide, ?_⟩
  have hobserved : (observed (acceptedInputs .empty (threeAdds 0 900000000 1800000000))).Pairwise
      fun a b => a.timestamp.nanoseconds.toInt ≤ b.timestamp.nanoseconds.toInt := by
    decide +kernel
  exact (exactWindows_iff_contiguous {} (by decide) (by decide) _).mpr
    ⟨contiguous_of_nondecreasing _ hobserved, contiguous_of_nondecreasing _ hobserved⟩

/-- With the default windows of a second, the second event arrives two seconds late, behind an
event that is not outdated, and is still in the window when the third arrives. -/
theorem exactWindows_outOfOrder :
    0 ≤ ({} : AnomalyConfig Float).messageWindowNs.toInt ∧
      0 ≤ ({} : AnomalyConfig Float).cancelRatioWindowNs.toInt ∧
      ¬∀ pre input,
        pre ++ [input] <+: acceptedInputs .empty (threeAdds 2000000000 0 2000000001) →
        ExactWindows ({} : AnomalyConfig Float) (observed (pre ++ [input])) input.1.timestamp
          ((finalState extractFrom (new {}) pre).extractFrom input) := by
  refine ⟨by decide, by decide, fun h => ?_⟩
  -- the call that fails is the last one, after the whole feed
  have hexact := h _ _ (List.prefix_rfl : [_, _] ++ [_] <+: _)
  exact absurd hexact.messageWindow (by decide +kernel)

end Datagine
