import Datagine.Checkpoint
import Datagine.CrossingAdds

/-!
# A Replay by the Rules

What `replay_file` is for, without parser state, book or monitor: the lines are gone through with
a plain list of live orders in hand, and each line is rejected, or its event is accepted, by the
rules of that list (`Reference.replay`). The report says which lines were rejected, why, and how
often; when books are checked it ends with the first event that leaves a live bid above a live ask.

## Main results

* `replay_refines_rules`: the replay of any file reports what the replay by the rules reports, and
  ends in a book that shows its live list.
* `replay_of_feed`: replaying the file that was written for some events is applying the events.
-/

namespace Datagine

open Mealy Text

instance : DecidablePred CrossedLive := fun L =>
  inferInstanceAs (Decidable (∃ bid ∈ L, ∃ ask ∈ L,
    bid.side = .buy ∧ ask.side = .sell ∧ ask.price.ticks < bid.price.ticks))

/-! ### The rules -/

/-- What a replay has reported, and the orders that are live. -/
structure ReplayReport where
  live : List LiveOrder := []
  eventsProcessed : ℕ := 0
  rejectedEvents : ℕ := 0
  invariantFailed : Bool := false
  errors : List ReplayError := []

namespace Reference

/-- A line is rejected. -/
def reject (report : ReplayReport) (error : ReplayError) : ReplayReport :=
  { report with
    rejectedEvents := report.rejectedEvents + 1
    errors := report.errors ++ [error] }

/-- An event is accepted. -/
def accept (report : ReplayReport) (live : List LiveOrder) : ReplayReport :=
  { report with live := live, eventsProcessed := report.eventsProcessed + 1 }

/-- The list of live orders has failed the check. -/
def fail (report : ReplayReport) (parsed : CsvParseResult) : ReplayReport :=
  { report with
    invariantFailed := true
    errors := report.errors ++ [⟨.invariantFailure, parsed.lineNumber,
      "book invariant validation failed", parsed.rawRow⟩] }

/-- One line, and whether it is the last one. -/
def replayStep (checked : Bool) (report : ReplayReport) (parsed : CsvParseResult) :
    Bool × ReplayReport :=
  match parsed.event with
  | none =>
      (false, reject report ⟨.parseError, parsed.lineNumber, parsed.message, parsed.rawRow⟩)
  | some event =>
      let (answer, live) := apply report.live event
      if answer ≠ .applied then
        (false, reject report ⟨.applyRejected, parsed.lineNumber,
          "book rejected event: " ++ answer.toText, parsed.rawRow⟩)
      else if checked ∧ CrossedLive live then (true, fail (accept report live) parsed)
      else (false, accept report live)

/-- All lines of a file. -/
def replay (checked : Bool) (content : List Char) : ReplayReport :=
  haltState (replayStep checked) {} (fileResults (lines content))

end Reference

variable {𝔻 : Type} [DoubleArith 𝔻]

/-- The books of this replay are checked for being crossed. -/
def ReplayOptions.checked (options : ReplayOptions 𝔻) : Bool :=
  options.validateAfterApply && !options.invariantOptions.allowCrossedBook

/-! ### The loop follows the rules -/

namespace ReplayState

/-- The loop has reported what the rules have, and its book holds the live list. -/
structure Obeys (s : ReplayState 𝔻) (report : ReplayReport) : Prop where
  book : LimitOrderBook.HoldsLive s.book report.live
  eventsProcessed : s.result.eventsProcessed = report.eventsProcessed
  rejectedEvents : s.result.rejectedEvents = report.rejectedEvents
  invariantFailed : s.result.invariantFailed = report.invariantFailed
  errors : s.result.errors = report.errors

variable {s : ReplayState 𝔻} {report : ReplayReport} {options : ReplayOptions 𝔻}

theorem Obeys.reject (h : Obeys s report) (error : ReplayError) :
    Obeys (s.reject error) (Reference.reject report error) where
  book := h.book
  eventsProcessed := h.eventsProcessed
  rejectedEvents := congrArg (· + 1) h.rejectedEvents
  invariantFailed := h.invariantFailed
  errors := congrArg (· ++ [error]) h.errors

theorem Obeys.fail (h : Obeys s report) (parsed : CsvParseResult) :
    Obeys (s.fail parsed) (Reference.fail report parsed) where
  book := h.book
  eventsProcessed := h.eventsProcessed
  rejectedEvents := h.rejectedEvents
  invariantFailed := rfl
  errors :=
    let error : ReplayError := ⟨.invariantFailure, parsed.lineNumber,
      "book invariant validation failed", parsed.rawRow⟩
    congrArg (· ++ [error]) h.errors

theorem Obeys.counted (h : Obeys s report) (options : ReplayOptions 𝔻) (event : MarketEvent)
    {book : LimitOrderBook} {live : List LiveOrder} (hbook : LimitOrderBook.HoldsLive book live) :
    Obeys (ReplayState.counted options event { s with book := book })
      (Reference.accept report live) where
  book := hbook
  eventsProcessed := congrArg (· + 1) h.eventsProcessed
  rejectedEvents := h.rejectedEvents
  invariantFailed := h.invariantFailed
  errors := h.errors

/-- The check fails exactly if the live list is crossed and this is checked. -/
theorem failsCheck_iff_crossedLive {book : LimitOrderBook} {live : List LiveOrder}
    (h : LimitOrderBook.HoldsLive book live) :
    failsCheck options book = true ↔ options.checked = true ∧ CrossedLive live := by
  obtain ⟨A, hrep, rfl⟩ := h
  rw [failsCheck_iff hrep, hrep.crossed_iff, ReplayOptions.checked, Bool.and_eq_true,
    Bool.not_eq_true', and_assoc]

/-- **One pass follows the rules.** -/
theorem Obeys.step (h : Obeys s report) {parsed : CsvParseResult} (hline : parsed.IsLine) :
    (s.step options parsed).1 = (Reference.replayStep options.checked report parsed).1 ∧
      Obeys (s.step options parsed).2
        (Reference.replayStep options.checked report parsed).2 := by
  rw [ReplayState.step, Reference.replayStep]
  rcases hline with ⟨hstatus, hevent⟩ | ⟨hstatus, event, hevent⟩
  · rw [if_pos hstatus, hevent]
    exact ⟨rfl, h.reject _⟩
  · have hne : parsed.status ≠ .malformedRow := by simp [hstatus]
    obtain ⟨A, hrep, hlive⟩ := h.book
    obtain ⟨hanswer, B, hrepB, hliveB⟩ := LimitOrderBook.apply_refines hrep event
    rw [hlive] at hanswer hliveB
    have hnext : LimitOrderBook.HoldsLive (s.book.apply event).2
        (Reference.apply report.live event).2 := ⟨B, hrepB, hliveB⟩
    have hcounted := h.counted options event hnext
    rw [if_neg hne, hevent]
    dsimp only
    rw [hanswer, accept_eq]
    simp only [failsCheck_iff_crossedLive hnext]
    split_ifs with hrejected hcrossed
    · have hbook := (s.book.apply_outcome event).state_eq (hanswer ▸ hrejected)
      rw [hbook]
      exact ⟨rfl, h.reject _⟩
    · exact ⟨rfl, hcounted.fail parsed⟩
    · exact ⟨rfl, hcounted⟩

/-- **The whole loop follows the rules.** -/
theorem Obeys.haltState (h : Obeys s report) {results : List CsvParseResult}
    (hlines : ∀ parsed ∈ results, parsed.IsLine) :
    Obeys (Mealy.haltState (ReplayState.step options) s results)
      (Mealy.haltState (Reference.replayStep options.checked) report results) := by
  have hsame : List.Forall₂ (fun parsed parsed' : CsvParseResult =>
      parsed = parsed' ∧ parsed.IsLine) results results :=
    List.forall₂_same.mpr fun parsed hmem => ⟨rfl, hlines parsed hmem⟩
  refine (haltState_simulation (fun s report parsed parsed' hparsed hs => ?_) h hsame).2
  obtain ⟨rfl, hline⟩ := hparsed
  exact hs.step hline

end ReplayState

theorem ReplayEngine.stop_obeys (engine : ReplayEngine) (content : List Char)
    (options : ReplayOptions 𝔻) :
    (engine.stop content options).Obeys (Reference.replay options.checked content) := by
  have hstart : ReplayState.Obeys (engine.start options) {} :=
    ⟨LimitOrderBook.holdsLive_empty, rfl, rfl, rfl, rfl⟩
  exact hstart.haltState (fileResults_isLine (lines content))

/-- **A replay follows the rules.** For every file and all options, the counters, the errors with
their lines and messages, and whether the check has failed are those of the replay by the rules,
and the final snapshot, top of the book and checksum show the list that the rules leave. -/
theorem replay_refines_rules (engine : ReplayEngine) (inputPath : String) (content : List Char)
    (options : ReplayOptions 𝔻) :
    let result := (engine.replayFile inputPath (some content) options).1
    let report := Reference.replay options.checked content
    result.eventsProcessed = report.eventsProcessed ∧
      result.rejectedEvents = report.rejectedEvents ∧
      result.invariantFailed = report.invariantFailed ∧ result.errors = report.errors ∧
      (∀ s, ShowsSide report.live s (result.finalSnapshot.side s)) ∧
      result.finalTop = result.finalSnapshot.top ∧
      result.finalChecksum = checksumSnapshot result.finalSnapshot := by
  have hend := engine.stop_obeys content options
  obtain ⟨A, hrep, hlive⟩ := hend.book
  dsimp only
  rw [engine.replayFile_eq]
  refine ⟨hend.eventsProcessed, hend.rejectedEvents, hend.invariantFailed, hend.errors, ?_,
    LimitOrderBook.topOfBook_eq _, rfl⟩
  intro s
  rw [← hlive]
  exact hrep.showsSide s

/-! ### Feeds that were written to a file -/

/-- The errors of the events that are not applied; the first event is on line `n`. -/
def rejections (n : ℕ) : List (MarketEvent × BookResult) → List ReplayError
  | [] => []
  | (event, answer) :: rest =>
      if answer = .applied then rejections (n + 1) rest
      else ⟨.applyRejected, n, "book rejected event: " ++ answer.toText, encodeRow event⟩ ::
        rejections (n + 1) rest

/-- The row of a normal event is read as that event. -/
theorem parseRow_encodeRow {event : MarketEvent} (h : event.Normal) (n : ℕ) :
    parseRow n (encodeRow event) = ⟨.event, some event, n, "", encodeRow event⟩ :=
  parseRow_rowOf h (rowOf_encodeRow event) n

/-- The rows of normal events are read as these events. -/
theorem events_of_rows {events : List MarketEvent} (h : ∀ event ∈ events, event.Normal) (n : ℕ) :
    ((events.map encodeRow).mapIdx fun i row => parseRow (i + n) row).filterMap
      CsvParseResult.event = events := by
  induction events generalizing n with
  | nil => rfl
  | cons event events ih =>
      have hshift : ∀ i, i + 1 + n = i + (n + 1) := fun i => by omega
      rw [List.map_cons, List.mapIdx_cons, parseRow_encodeRow (h event List.mem_cons_self)]
      simp only [hshift, List.filterMap_cons]
      rw [ih fun e he => h e (List.mem_cons_of_mem event he)]

/-- An event that is not applied leaves the list as it was. -/
theorem Reference.apply_eq_self {L : List LiveOrder} {event : MarketEvent}
    (h : (Reference.apply L event).1 ≠ .applied) : (Reference.apply L event).2 = L := by
  have hexec := Reference.exec_toOp L event
  have hrejected : (Reference.exec L event.toOp).1 ≠ some .applied := by
    rw [hexec]
    exact fun happlied => h (Option.some.inj happlied)
  have hself := Reference.exec_eq_self hrejected event.toOp_ne_clear
  rwa [hexec] at hself

/-- **The rules on a written feed**, from any report on. -/
theorem Reference.replay_rows {events : List MarketEvent} (h : ∀ event ∈ events, event.Normal)
    (report : ReplayReport) (n : ℕ) :
    let answers := outputs Reference.apply report.live events
    haltState (Reference.replayStep false) report
        ((events.map encodeRow).mapIdx fun i row => parseRow (i + n) row) =
      { live := finalState Reference.apply report.live events
        eventsProcessed := report.eventsProcessed + answers.count .applied
        rejectedEvents := report.rejectedEvents + answers.countP (· ≠ .applied)
        invariantFailed := report.invariantFailed
        errors := report.errors ++ rejections n (events.zip answers) } := by
  induction events generalizing report n with
  | nil => simp [rejections]
  | cons event events ih =>
      have hshift : ∀ i, i + 1 + n = i + (n + 1) := fun i => by omega
      have hevents : ∀ event ∈ events, event.Normal := fun e he =>
        h e (List.mem_cons_of_mem event he)
      rw [List.map_cons, List.mapIdx_cons, Nat.zero_add,
        parseRow_encodeRow (h event List.mem_cons_self)]
      simp only [hshift]
      by_cases happlied : (Reference.apply report.live event).1 = .applied
      · have hstep : replayStep false report ⟨.event, some event, n, "", encodeRow event⟩ =
            (false, accept report (Reference.apply report.live event).2) := by
          simp [replayStep, happlied]
        rw [haltState_cons_false (by rw [hstep]), hstep, ih hevents]
        simp [accept, happlied, rejections, Nat.add_assoc, Nat.add_comm 1]
      · have hstep : replayStep false report ⟨.event, some event, n, "", encodeRow event⟩ =
            (false, reject report ⟨.applyRejected, n,
              "book rejected event: " ++ (Reference.apply report.live event).1.toText,
              encodeRow event⟩) := by
          simp [replayStep, happlied]
        have hlive := apply_eq_self happlied
        rw [haltState_cons_false (by rw [hstep]), hstep, ih hevents]
        simp [reject, happlied, hlive, rejections, Nat.add_assoc, Nat.add_comm 1]

theorem lineFeed_free (events : List MarketEvent) : ∀ row ∈ events.map encodeRow, '\n' ∉ row := by
  intro row hrow
  obtain ⟨event, -, rfl⟩ := List.mem_map.mp hrow
  exact lineFeed_not_mem_rowOf (rowOf_encodeRow event)

/-- Without the check the loop goes through the whole file, and reads the events that were
written. -/
theorem ReplayEngine.stop_of_feed (engine : ReplayEngine) {events : List MarketEvent}
    (hnormal : ∀ event ∈ events, event.Normal) {options : ReplayOptions 𝔻}
    (hunchecked : options.checked = false) :
    let results := fileResults (lines (fileOf (events.map encodeRow)))
    engine.stop (fileOf (events.map encodeRow)) options =
        finalState (ReplayState.step options) (engine.start options) results ∧
      results.filterMap CsvParseResult.event = events := by
  have hend := engine.stop_obeys (fileOf (events.map encodeRow)) options
  rw [hunchecked, Reference.replay, fileResults_fileOf (lineFeed_free events),
    Reference.replay_rows hnormal] at hend
  refine ⟨(engine.stop_of_passes hend.invariantFailed).2, ?_⟩
  rw [fileResults_fileOf (lineFeed_free events), events_of_rows hnormal]

/-- **A replay of a written feed is the feed.** Write any normal events to a file, row by row. A
replay that does not check for crossed books leaves the book that the events leave when they are
applied to an empty book. It counts the events that are applied and the others, and reports each
of the others with its line, its row and what the book answers to it. -/
theorem replay_of_feed (engine : ReplayEngine) (inputPath : String) {events : List MarketEvent}
    (hnormal : ∀ event ∈ events, event.Normal) {options : ReplayOptions 𝔻}
    (hunchecked : options.checked = false) :
    let replay := engine.replayFile inputPath (some (fileOf (events.map encodeRow))) options
    let answers := outputs LimitOrderBook.apply .empty events
    replay.2.book = finalState LimitOrderBook.apply .empty events ∧
      replay.1.eventsProcessed = answers.count .applied ∧
      replay.1.rejectedEvents = answers.countP (· ≠ .applied) ∧
      replay.1.errors = rejections 2 (events.zip answers) := by
  have hend := engine.stop_obeys (fileOf (events.map encodeRow)) options
  have hanswers := (LimitOrderBook.runEvents_refines events).1
  rw [hunchecked, Reference.replay, fileResults_fileOf (lineFeed_free events),
    Reference.replay_rows hnormal, ← hanswers] at hend
  have hbook : (engine.stop (fileOf (events.map encodeRow)) options).book =
      finalState LimitOrderBook.apply .empty events := by
    obtain ⟨hstop, hfeed⟩ := engine.stop_of_feed hnormal hunchecked
    rw [hstop, ReplayState.finalState_book (fileResults_isLine _), hfeed]
    rfl
  dsimp only
  rw [engine.replayFile_eq]
  exact ⟨hbook, hend.eventsProcessed.trans (Nat.zero_add _),
    hend.rejectedEvents.trans (Nat.zero_add _), hend.errors⟩

/-- A feed of two adds, of which the second repeats the id of the first. -/
theorem replay_of_feed_repeatedId :
    let events : List MarketEvent :=
      [{ orderId := ⟨1⟩, price := ⟨10⟩, quantity := ⟨5⟩ },
        { orderId := ⟨1⟩, price := ⟨11⟩, quantity := ⟨5⟩ }]
    let options : ReplayOptions ℝ := { validateAfterApply := false }
    (ReplayEngine.new.replayFile "" (some (fileOf (events.map encodeRow))) options).1.errors =
      [⟨.applyRejected, 3, "book rejected event: duplicate order id",
        "0,ADD,1,B,11,5".toList⟩] := by
  intro events options
  have hadd : ∀ event ∈ events, event.type = .add := by decide
  have hnormal : ∀ event ∈ events, event.Normal := fun event hmem =>
    ⟨fun hne => absurd (hadd event hmem) hne, by simp [hadd event hmem], by simp [hadd event hmem]⟩
  rw [(replay_of_feed ReplayEngine.new "" hnormal rfl).2.2.2]
  decide +kernel

end Datagine
