import Datagine.BookRuns
import Datagine.CsvStream
import Datagine.ReplayEngine

/-!
# Runs of the Replay Engine

A pass through the loop of `replay_file` rejects a line or accepts its event
(`ReplayState.step_cases`), and the loop goes through the results of the file until a pass
leaves it (`replayFile_eq`).

## Main results

* `replay_stops_at_crossed`: with checks after every event, a replay is cut short exactly
  at the first event that leaves the book crossed, and only when crossed books are not
  allowed.
-/

namespace Datagine

open Mealy Text

variable {𝔻 : Type} [DoubleArith 𝔻] {options : ReplayOptions 𝔻}

/-! ### Lines -/

/-- The result of a line: a malformed row or an event. -/
def CsvParseResult.IsLine (parsed : CsvParseResult) : Prop :=
  (parsed.status = .malformedRow ∧ parsed.event = none) ∨
    (parsed.status = .event ∧ ∃ event, parsed.event = some event)

theorem CsvParseResult.IsLine.status_ne {parsed : CsvParseResult} (h : parsed.IsLine) :
    parsed.status ≠ .endOfFile := by
  rcases h with ⟨hstatus, -⟩ | ⟨hstatus, -⟩ <;> simp [hstatus]

theorem parseRow_isLine (lineNumber : ℕ) (row : List Char) :
    (parseRow lineNumber row).IsLine := by
  rw [parseRow]
  cases parseColumns (splitCsvColumns row) with
  | error message => exact .inl ⟨rfl, rfl⟩
  | ok event => exact .inr ⟨rfl, event, rfl⟩

theorem fileResults_isLine (content : List (List Char)) :
    ∀ parsed ∈ fileResults content, parsed.IsLine := by
  cases content with
  | nil => simp [fileResults]
  | cons header rows =>
      rw [fileResults]
      split_ifs
      · intro parsed hmem
        obtain ⟨i, -, rfl⟩ := List.mem_mapIdx.mp hmem
        exact parseRow_isLine _ _
      · intro parsed hmem
        obtain rfl := List.mem_singleton.mp hmem
        exact .inl ⟨rfl, rfl⟩

/-! ### One pass through the loop -/

/-- An error that reports a rejected line. -/
def ReplayError.isRejection (error : ReplayError) : Bool :=
  error.type = .parseError || error.type = .applyRejected

/-- The line of a result: its number and its text. -/
def CsvParseResult.line (parsed : CsvParseResult) : ℕ × List Char :=
  (parsed.lineNumber, parsed.rawRow)

/-- The line an error is about. -/
def ReplayError.line (error : ReplayError) : ℕ × List Char := (error.lineNumber, error.rawRow)

/-- The line brings no event that the book accepts. -/
def LimitOrderBook.Rejects (book : LimitOrderBook) (parsed : CsvParseResult) : Prop :=
  ∀ event, parsed.event = some event → (book.apply event).1 ≠ .applied

namespace ReplayState

variable {s : ReplayState 𝔻} {parsed : CsvParseResult}

/-- **What a pass does.** A rejected line is counted and reported and changes nothing else;
the event of any other line is applied to the book. -/
theorem step_cases (options : ReplayOptions 𝔻) (s : ReplayState 𝔻) (h : parsed.IsLine) :
    (s.book.Rejects parsed ∧ ∃ error : ReplayError, error.isRejection = true ∧
        error.line = parsed.line ∧ s.step options parsed = (false, s.reject error)) ∨
      ∃ event, parsed.event = some event ∧ (s.book.apply event).1 = .applied ∧
        s.step options parsed =
          accept options parsed event { s with book := (s.book.apply event).2 } := by
  rcases h with ⟨hstatus, hevent⟩ | ⟨hstatus, event, hevent⟩
  · refine .inl ⟨fun event he => ?_,
      ⟨.parseError, parsed.lineNumber, parsed.message, parsed.rawRow⟩, rfl, rfl, ?_⟩
    · rw [hevent] at he
      cases he
    · rw [step, if_pos hstatus]
  · have hne : parsed.status ≠ .malformedRow := by simp [hstatus]
    by_cases happlied : (s.book.apply event).1 = .applied
    · refine .inr ⟨event, hevent, happlied, ?_⟩
      simp only [step, if_neg hne, hevent, happlied, ne_eq, not_true_eq_false, if_false]
    · have hbook := (s.book.apply_outcome event).state_eq happlied
      refine .inl ⟨fun event' he => ?_, ⟨.applyRejected, parsed.lineNumber,
        "book rejected event: " ++ (s.book.apply event).1.toText, parsed.rawRow⟩, rfl, rfl, ?_⟩
      · obtain rfl := Option.some.inj (hevent.symm.trans he)
        exact happlied
      · simp only [step, if_neg hne, hevent, ne_eq, happlied, not_false_eq_true, if_true, hbook]

end ReplayState

omit [DoubleArith 𝔻] in
theorem ReplayResult.addAnomalies_eq (result : ReplayResult 𝔻)
    (anomalies : List (AnomalyEvent 𝔻)) :
    result.addAnomalies anomalies =
      { result with
        anomalies := result.anomalies ++ anomalies
        anomalyReasonCounts := anomalies.foldl (fun counts anomaly =>
          countReason counts anomaly.reason) result.anomalyReasonCounts } := by
  rw [addAnomalies]
  induction anomalies generalizing result with
  | nil => rw [List.foldl_nil, List.foldl_nil, List.append_nil]
  | cons anomaly anomalies ih =>
      rw [List.foldl_cons, ih, List.foldl_cons, List.append_assoc]
      rfl

namespace ReplayState

/-- What the monitor finds at an accepted event, and the monitor afterwards. -/
def findings (options : ReplayOptions 𝔻) (event : MarketEvent) (s : ReplayState 𝔻) :
    List (AnomalyEvent 𝔻) × AnomalyMonitor 𝔻 :=
  if options.enableAnomalyDetection then s.anomalyMonitor.observe event s.book
  else ([], s.anomalyMonitor)

/-- The state with an accepted event counted and shown to the monitor. -/
def counted (options : ReplayOptions 𝔻) (event : MarketEvent) (s : ReplayState 𝔻) :
    ReplayState 𝔻 where
  book := s.book
  anomalyMonitor := (s.findings options event).2
  result := { s.result with
    eventsProcessed := s.result.eventsProcessed + 1
    anomalies := s.result.anomalies ++ (s.findings options event).1
    anomalyReasonCounts := (s.findings options event).1.foldl (fun counts anomaly =>
      countReason counts anomaly.reason) s.result.anomalyReasonCounts }

/-- The check of the book after an accepted event fails. -/
def failsCheck (options : ReplayOptions 𝔻) (book : LimitOrderBook) : Bool :=
  options.validateAfterApply && !book.validateInvariants options.invariantOptions

/-- An accepted event is counted and shown to the monitor, and the book decides whether the
loop is left. -/
theorem accept_eq (options : ReplayOptions 𝔻) (parsed : CsvParseResult) (event : MarketEvent)
    (s : ReplayState 𝔻) :
    accept options parsed event s =
      if failsCheck options s.book then (true, (s.counted options event).fail parsed)
      else (false, s.counted options event) := by
  have hobserve : observe options event
      { s with result := { s.result with eventsProcessed := s.result.eventsProcessed + 1 } } =
        s.counted options event := by
    rw [observe, counted, findings]
    split_ifs
    · simp only [ReplayResult.addAnomalies_eq]
    · simp only [List.append_nil, List.foldl_nil]
  rw [accept, hobserve]
  rfl

end ReplayState

/-! ### The loop over a file -/

/-- **The loop goes through the results of the parser** until a pass leaves it; if one does,
the parser has been called once for each result up to that one. -/
theorem replayLoop_eq (options : ReplayOptions 𝔻) (parser : CsvParser)
    (hopen : parser.isOpen = true) {results : List CsvParseResult}
    (hdrain : ∀ k, parser.drain k = CsvParser.untilEnd k results)
    (hlines : ∀ parsed ∈ results, parsed.IsLine) (s : ReplayState 𝔻) :
    (replayLoop options parser hopen s).2 = haltState (ReplayState.step options) s results ∧
      (true ∈ outputs (ReplayState.step options) s results →
        (replayLoop options parser hopen s).1 = parser.afterCalls (List.replicate
          (untilStop (ReplayState.step options) s results).length .next)) := by
  induction results generalizing parser s with
  | nil =>
      have hend : parser.next.1 = endOfFile := by
        have hone := hdrain 1
        rw [CsvParser.untilEnd_nil] at hone
        exact (List.cons.inj hone).1
      rw [replayLoop, dif_pos (by rw [hend]; rfl)]
      exact ⟨rfl, fun h => absurd h List.not_mem_nil⟩
  | cons parsed results ih =>
      have hnext : ∀ k, parser.next.1 = parsed ∧
          parser.next.2.drain k = CsvParser.untilEnd k results := by
        intro k
        have hsucc := hdrain (k + 1)
        rw [CsvParser.untilEnd_cons] at hsucc
        exact List.cons.inj hsucc
      obtain rfl := (hnext 0).1
      rw [replayLoop, dif_neg (hlines _ List.mem_cons_self).status_ne]
      cases hstop : (s.step options parser.next.1).1 with
      | true =>
          rw [if_pos rfl, haltState_cons_true hstop, untilStop, hstop, if_pos rfl]
          exact ⟨rfl, fun _ => rfl⟩
      | false =>
          rw [if_neg Bool.false_ne_true, haltState_cons_false hstop, untilStop, hstop,
            if_neg Bool.false_ne_true, outputs_cons, hstop, List.length_cons,
            CsvParser.afterCalls_next]
          obtain ⟨hstate, hparser⟩ := ih _ _ (fun k => (hnext k).2)
            (fun r hr => hlines r (List.mem_cons_of_mem _ hr)) (s.step options parser.next.1).2
          refine ⟨hstate, fun hmem => hparser ?_⟩
          simpa using hmem

namespace ReplayEngine

/-- The replay of a file that opens, as a run over the results of the file. -/
theorem replayFile_eq (engine : ReplayEngine) (inputPath : String) (content : List Char)
    (options : ReplayOptions 𝔻) :
    engine.replayFile inputPath (some content) options =
      let s := haltState (ReplayState.step options) (engine.start options)
        (fileResults (lines content))
      (s.result.finish s.book, ⟨s.book⟩) := by
  have hloop := (replayLoop_eq options (CsvParser.new (some content)) rfl
    (CsvParser.drain_new content) (fileResults_isLine _) (engine.start options)).1
  rw [← hloop]
  rfl

end ReplayEngine

/-! ### The book along a replay -/

theorem LimitOrderBook.Rejects.finalState_eq {book : LimitOrderBook} {parsed : CsvParseResult}
    (h : book.Rejects parsed) :
    finalState LimitOrderBook.apply book parsed.event.toList = book := by
  cases hevent : parsed.event with
  | none => rfl
  | some event => exact (book.apply_outcome event).state_eq (h event hevent)

/-- The book after the events of some lines, applied to an empty book. -/
def bookAfter (results : List CsvParseResult) : LimitOrderBook :=
  finalState LimitOrderBook.apply .empty (results.filterMap CsvParseResult.event)

theorem bookAfter_represents (results : List CsvParseResult) :
    ∃ A, LimitOrderBook.Represents (bookAfter results) A := by
  obtain ⟨-, A, hrep, -⟩ := LimitOrderBook.runEvents_refines
    (results.filterMap CsvParseResult.event)
  exact ⟨A, hrep⟩

namespace ReplayState

variable {s : ReplayState 𝔻} {parsed : CsvParseResult}

theorem step_book (h : parsed.IsLine) :
    (s.step options parsed).2.book =
      finalState LimitOrderBook.apply s.book parsed.event.toList := by
  rcases step_cases options s h with
    ⟨hrejects, error, -, -, hstep⟩ | ⟨event, hevent, -, hstep⟩
  · rw [hstep, hrejects.finalState_eq]
    rfl
  · rw [hstep, accept_eq, hevent]
    split_ifs <;> rfl

theorem finalState_book {results : List CsvParseResult}
    (hlines : ∀ parsed ∈ results, parsed.IsLine) (s : ReplayState 𝔻) :
    (finalState (step options) s results).book =
      finalState LimitOrderBook.apply s.book (results.filterMap CsvParseResult.event) := by
  induction results generalizing s with
  | nil => rfl
  | cons parsed results ih =>
      have htail := ih (fun r hr => hlines r (List.mem_cons_of_mem parsed hr))
        (s.step options parsed).2
      have hevents : (parsed :: results).filterMap CsvParseResult.event =
          parsed.event.toList ++ results.filterMap CsvParseResult.event := by
        cases hevent : parsed.event <;> simp [hevent]
      rw [finalState_cons, htail, step_book (hlines parsed List.mem_cons_self), hevents,
        finalState_append]

/-- On a book that represents resting orders the check fails exactly when it is made, crossed
books are not allowed and the book is crossed. -/
theorem failsCheck_iff {book : LimitOrderBook} {A : RestingOrders}
    (h : LimitOrderBook.Represents book A) :
    failsCheck options book = true ↔
      options.validateAfterApply = true ∧ options.invariantOptions.allowCrossedBook = false ∧
        book.topOfBook.Crossed := by
  have hcheck := h.validateInvariants_iff options.invariantOptions
  rw [TopOfBook.uncrossed_iff] at hcheck
  rw [failsCheck, Bool.and_eq_true, Bool.not_eq_true', ← Bool.not_eq_true, hcheck, not_or,
    not_not, Bool.not_eq_true]

/-- When a pass leaves the loop. -/
theorem step_stops_iff (h : parsed.IsLine) {A : RestingOrders}
    (hrep : LimitOrderBook.Represents s.book A) :
    (s.step options parsed).1 = true ↔
      options.validateAfterApply = true ∧ options.invariantOptions.allowCrossedBook = false ∧
        ∃ event, parsed.event = some event ∧ (s.book.apply event).1 = .applied ∧
          (s.book.apply event).2.topOfBook.Crossed := by
  rcases step_cases options s h with
    ⟨hrejects, error, -, -, hstep⟩ | ⟨event, hevent, happlied, hstep⟩
  · rw [hstep]
    constructor
    · intro hfalse
      cases hfalse
    · rintro ⟨-, -, event, hevent, happlied, -⟩
      exact absurd happlied (hrejects event hevent)
  · obtain ⟨-, B, hrepB, -⟩ := LimitOrderBook.apply_refines hrep event
    have hflag : (s.step options parsed).1 = failsCheck options (s.book.apply event).2 := by
      rw [hstep, accept_eq]
      cases failsCheck options (s.book.apply event).2 <;> rfl
    rw [hflag, failsCheck_iff hrepB]
    constructor
    · rintro ⟨hvalidate, hallow, hcrossed⟩
      exact ⟨hvalidate, hallow, event, hevent, happlied, hcrossed⟩
    · rintro ⟨hvalidate, hallow, event', hevent', -, hcrossed⟩
      obtain rfl := Option.some.inj (hevent.symm.trans hevent')
      exact ⟨hvalidate, hallow, hcrossed⟩

theorem step_invariantFailed (h : parsed.IsLine) (hs : ¬s.result.invariantFailed = true) :
    (s.step options parsed).2.result.invariantFailed = true ↔
      (s.step options parsed).1 = true := by
  rcases step_cases options s h with
    ⟨-, error, -, -, hstep⟩ | ⟨event, -, -, hstep⟩
  · rw [hstep]
    exact iff_of_false hs Bool.false_ne_true
  · rw [hstep, accept_eq]
    split_ifs
    · exact iff_of_true rfl rfl
    · exact iff_of_false hs not_false

/-- A pass that cannot fail the check is a pass without the check. -/
theorem step_eq_unchecked (hallow : options.invariantOptions.allowCrossedBook = true)
    {A : RestingOrders} (hrep : LimitOrderBook.Represents s.book A) (parsed : CsvParseResult) :
    s.step options parsed = s.step { options with validateAfterApply := false } parsed := by
  have haccept : ∀ event, accept options parsed event { s with book := (s.book.apply event).2 } =
      accept { options with validateAfterApply := false } parsed event
        { s with book := (s.book.apply event).2 } := by
    intro event
    obtain ⟨-, B, hrepB, -⟩ := LimitOrderBook.apply_refines hrep event
    have hpasses : ¬failsCheck options (s.book.apply event).2 = true := by
      intro hfails
      obtain ⟨-, hnot, -⟩ := (failsCheck_iff hrepB).mp hfails
      rw [hallow] at hnot
      cases hnot
    rw [accept_eq, accept_eq, if_neg hpasses]
    rfl
  rw [step, step]
  cases parsed.event with
  | none => rfl
  | some event =>
      dsimp only
      rw [haccept event]

end ReplayState

/-! ### Where a replay stops -/

/-- Behind the lines `pre`, the line `parsed` brings an accepted event that leaves the book
crossed. -/
def CrossesAfter (pre : List CsvParseResult) (parsed : CsvParseResult) : Prop :=
  ∃ event, parsed.event = some event ∧ ((bookAfter pre).apply event).1 = .applied ∧
    (bookAfter (pre ++ [parsed])).topOfBook.Crossed

namespace ReplayEngine

variable (engine : ReplayEngine) {content : List Char}

/-- Behind the lines `pre` of a file, the pass over the next line leaves the loop exactly if
the check is on, crossed books are not allowed and the line crosses the book. -/
theorem step_stops_iff_crosses {pre post : List CsvParseResult} {parsed : CsvParseResult}
    (hresults : fileResults (lines content) = pre ++ parsed :: post) :
    (ReplayState.step options (finalState (ReplayState.step options) (engine.start options) pre)
        parsed).1 = true ↔
      options.validateAfterApply = true ∧ options.invariantOptions.allowCrossedBook = false ∧
        CrossesAfter pre parsed := by
  have hlines := fileResults_isLine (lines content)
  rw [hresults] at hlines
  have hpre : ∀ r ∈ pre, r.IsLine := fun r hr => hlines r (List.mem_append_left _ hr)
  have hparsed : parsed.IsLine :=
    hlines parsed (List.mem_append_right _ List.mem_cons_self)
  have hbook : (finalState (ReplayState.step options) (engine.start options) pre).book =
      bookAfter pre := ReplayState.finalState_book hpre _
  obtain ⟨A, hrep⟩ := bookAfter_represents pre
  rw [ReplayState.step_stops_iff hparsed (hbook ▸ hrep), hbook]
  have hnext : ∀ event, parsed.event = some event →
      bookAfter (pre ++ [parsed]) = ((bookAfter pre).apply event).2 := by
    intro event hevent
    rw [bookAfter, List.filterMap_append, finalState_append, ← bookAfter]
    simp [hevent]
  constructor
  · rintro ⟨hvalidate, hallow, event, hevent, happlied, hcrossed⟩
    exact ⟨hvalidate, hallow, event, hevent, happlied, hnext event hevent ▸ hcrossed⟩
  · rintro ⟨hvalidate, hallow, event, hevent, happlied, hcrossed⟩
    exact ⟨hvalidate, hallow, event, hevent, happlied, hnext event hevent ▸ hcrossed⟩

/-- The loop variables when the loop over a file ends. -/
def stop (content : List Char) (options : ReplayOptions 𝔻) : ReplayState 𝔻 :=
  haltState (ReplayState.step options) (engine.start options) (fileResults (lines content))

variable {engine} in
theorem stop_failed_iff :
    (engine.stop content options).result.invariantFailed = true ↔
      true ∈ outputs (ReplayState.step options) (engine.start options)
        (fileResults (lines content)) := by
  refine haltState_iff_mem_outputs (P := fun s : ReplayState 𝔻 => s.result.invariantFailed = true)
    ?_ Bool.false_ne_true
  intro s parsed hmem hs
  exact ReplayState.step_invariantFailed (fileResults_isLine (lines content) parsed hmem) hs

/-- A replay reports a failed check exactly if the check is on, crossed books are not allowed
and some line crosses the book. -/
theorem invariantFailed_iff (inputPath : String) (content : List Char)
    (options : ReplayOptions 𝔻) :
    (engine.replayFile inputPath (some content) options).1.invariantFailed = true ↔
      options.validateAfterApply = true ∧ options.invariantOptions.allowCrossedBook = false ∧
        ∃ pre parsed post, fileResults (lines content) = pre ++ parsed :: post ∧
          CrossesAfter pre parsed := by
  rw [replayFile_eq]
  refine stop_failed_iff.trans (mem_outputs_iff.trans ?_)
  constructor
  · rintro ⟨pre, parsed, post, hresults, hstop⟩
    obtain ⟨hvalidate, hallow, hcrosses⟩ := (step_stops_iff_crosses engine hresults).mp hstop
    exact ⟨hvalidate, hallow, pre, parsed, post, hresults, hcrosses⟩
  · rintro ⟨hvalidate, hallow, pre, parsed, post, hresults, hcrosses⟩
    exact ⟨pre, parsed, post, hresults,
      (step_stops_iff_crosses engine hresults).mpr ⟨hvalidate, hallow, hcrosses⟩⟩

/-- With crossed books allowed the check makes no difference. -/
theorem replayFile_unchecked (inputPath : String) (content : List Char)
    (options : ReplayOptions 𝔻) (hallow : options.invariantOptions.allowCrossedBook = true) :
    engine.replayFile inputPath (some content) options =
      engine.replayFile inputPath (some content) { options with validateAfterApply := false } := by
  have hsame : haltState (ReplayState.step options) (engine.start options)
        (fileResults (lines content)) =
      haltState (ReplayState.step { options with validateAfterApply := false })
        (engine.start options) (fileResults (lines content)) := by
    refine haltState_congr (I := fun s => ∃ A, LimitOrderBook.Represents s.book A) ?_ ?_
      ⟨.empty, LimitOrderBook.represents_empty⟩
    · rintro s parsed hmem ⟨A, hrep⟩
      have hline := fileResults_isLine (lines content) parsed hmem
      rw [ReplayState.step_book hline]
      cases parsed.event with
      | none => exact ⟨A, hrep⟩
      | some event =>
          obtain ⟨-, B, hrepB, -⟩ := LimitOrderBook.apply_refines hrep event
          exact ⟨B, hrepB⟩
    · rintro s parsed - ⟨A, hrep⟩
      exact ReplayState.step_eq_unchecked hallow hrep parsed
  rw [replayFile_eq, replayFile_eq, hsame]
  rfl

/-- A line that brings an event is a data line behind a valid header. -/
theorem dataLine_of_event {pre post : List CsvParseResult} {parsed : CsvParseResult}
    {event : MarketEvent} (hresults : fileResults (lines content) = pre ++ parsed :: post)
    (hevent : parsed.event = some event) :
    ∃ header rows, lines content = header :: rows ∧ trim header = expectedHeader ∧
      pre.length + 1 ≤ rows.length := by
  cases hlines : lines content with
  | nil =>
      rw [hlines, fileResults] at hresults
      simp at hresults
  | cons header rows =>
      rw [hlines, fileResults] at hresults
      split_ifs at hresults with hheader
      · have hlen := congrArg List.length hresults
        rw [List.length_mapIdx, List.length_append, List.length_cons] at hlen
        exact ⟨header, rows, rfl, hheader, by omega⟩
      · have hmem : parsed ∈ [malformed 1 "invalid CSV header" header] := by
          rw [hresults]
          exact List.mem_append_right _ List.mem_cons_self
        obtain rfl := List.mem_singleton.mp hmem
        cases hevent

/-- **The halting point of a replay.** At the first line that crosses the book the replay ends
with that line's event applied and the lines behind it unread. -/
theorem replay_halts {pre post : List CsvParseResult} {parsed : CsvParseResult}
    (hvalidate : options.validateAfterApply = true)
    (hallow : options.invariantOptions.allowCrossedBook = false)
    (hresults : fileResults (lines content) = pre ++ parsed :: post)
    (hcrosses : CrossesAfter pre parsed)
    (hfirst : ∀ pre' parsed', pre' ++ [parsed'] <+: pre → ¬CrossesAfter pre' parsed') :
    (haltState (ReplayState.step options) (engine.start options)
        (fileResults (lines content))).book = bookAfter (pre ++ [parsed]) ∧
      ∃ rest, engine.replayParser content options =
          ⟨some content, some rest, pre.length + 2, true, true⟩ ∧
        lines rest = (lines content).drop (pre.length + 2) := by
  have hstop := (step_stops_iff_crosses engine hresults).mpr ⟨hvalidate, hallow, hcrosses⟩
  have hcontinue : ∀ pre' parsed', pre' ++ [parsed'] <+: pre →
      (ReplayState.step options (finalState (ReplayState.step options) (engine.start options) pre')
        parsed').1 = false := by
    rintro pre' parsed' hprefix
    obtain ⟨between, rfl⟩ := hprefix
    have hsplit : fileResults (lines content) =
        pre' ++ parsed' :: (between ++ parsed :: post) := by
      rw [hresults]
      simp
    rw [← Bool.not_eq_true, step_stops_iff_crosses engine hsplit]
    rintro ⟨-, -, hearlier⟩
    exact hfirst pre' parsed' (List.prefix_append _ _) hearlier
  have hread := untilStop_eq hcontinue hstop post
  have hlines := fileResults_isLine (lines content)
  constructor
  · rw [haltState, hresults, hread]
    refine ReplayState.finalState_book (fun r hr => hlines r ?_) _
    rw [hresults, List.append_cons]
    exact List.mem_append_left post hr
  · obtain ⟨event, hevent, -⟩ := hcrosses
    obtain ⟨header, rows, hcontent, hheader, hlen⟩ := dataLine_of_event hresults hevent
    obtain ⟨rest, hparser, hrest⟩ := CsvParser.afterCalls_new hcontent hheader hlen
    have hloop := (replayLoop_eq options (CsvParser.new (some content)) rfl
      (CsvParser.drain_new content) hlines (engine.start options)).2
        (mem_outputs_iff.mpr ⟨pre, parsed, post, hresults, hstop⟩)
    refine ⟨rest, ?_, ?_⟩
    · rw [replayParser, hloop, hresults, hread, List.length_append, List.length_singleton, hparser]
    · rw [hrest, hcontent, List.drop_succ_cons]

end ReplayEngine

/-- **A replay is cut short at the first crossed book and nowhere else.** With checks after
every event: if crossed books are allowed, no check fails and the whole outcome is that of a
replay without checks. If they are not, a failure is reported exactly if some accepted event
leaves the best bid above the best ask; at the first such event the replay ends, with the
event in the final book and its views, and with no later line read. -/
theorem replay_stops_at_crossed (engine : ReplayEngine) (inputPath : String)
    (content : List Char) (options : ReplayOptions 𝔻)
    (hvalidate : options.validateAfterApply = true) :
    let results := fileResults (lines content)
    let replay := engine.replayFile inputPath (some content) options
    (options.invariantOptions.allowCrossedBook = true →
      replay.1.invariantFailed = false ∧
        replay = engine.replayFile inputPath (some content)
          { options with validateAfterApply := false }) ∧
      (options.invariantOptions.allowCrossedBook = false →
        (replay.1.invariantFailed = true ↔
          ∃ pre parsed post, results = pre ++ parsed :: post ∧ CrossesAfter pre parsed) ∧
        ∀ pre parsed post, results = pre ++ parsed :: post → CrossesAfter pre parsed →
          (∀ pre' parsed', pre' ++ [parsed'] <+: pre → ¬CrossesAfter pre' parsed') →
          replay.2.book = bookAfter (pre ++ [parsed]) ∧
            replay.1.finalTop = (bookAfter (pre ++ [parsed])).topOfBook ∧
            replay.1.finalSnapshot = (bookAfter (pre ++ [parsed])).snapshot ∧
            replay.1.finalChecksum = checksumBook (bookAfter (pre ++ [parsed])) ∧
            (engine.replayParser content options).lineNumber = pre.length + 2 ∧
            ∃ rest, (engine.replayParser content options).input = some rest ∧
              lines rest = (lines content).drop (pre.length + 2)) := by
  have hfailed := engine.invariantFailed_iff inputPath content options
  refine ⟨fun hallow => ⟨?_, engine.replayFile_unchecked inputPath content options hallow⟩,
    fun hallow => ⟨?_, fun pre parsed post hresults hcrosses hfirst => ?_⟩⟩
  · rw [← Bool.not_eq_true, hfailed]
    rintro ⟨-, hnot, -⟩
    rw [hallow] at hnot
    cases hnot
  · rw [hfailed]
    exact ⟨fun h => h.2.2, fun h => ⟨hvalidate, hallow, h⟩⟩
  · obtain ⟨hbook, rest, hparser, hrest⟩ :=
      engine.replay_halts hvalidate hallow hresults hcrosses hfirst
    rw [ReplayEngine.replayFile_eq, hparser]
    dsimp only [ReplayResult.finish]
    rw [hbook]
    exact ⟨rfl, rfl, rfl, rfl, rfl, rest, rfl, hrest⟩

/-- A feed whose second event crosses the book. -/
def crossedFeed : List Char :=
  ("timestamp_ns,event_type,order_id,side,price,quantity\n" ++
    "1,ADD,1,B,10,7\n2,ADD,2,S,5,3\n3,CANCEL,1,,,\n").toList

/-- Its replay with the default options fails at the second event. -/
theorem replay_crossedFeed :
    (ReplayEngine.new.replayFile "feed.csv" (some crossedFeed)
      ({} : ReplayOptions Float)).1.invariantFailed = true := by
  obtain ⟨-, hstops⟩ :=
    replay_stops_at_crossed ReplayEngine.new "feed.csv" crossedFeed ({} : ReplayOptions Float) rfl
  refine (hstops rfl).1.mpr ⟨[parseRow 2 "1,ADD,1,B,10,7".toList],
    parseRow 3 "2,ADD,2,S,5,3".toList, [parseRow 4 "3,CANCEL,1,,,".toList], ?_, ?_⟩
  · decide +kernel
  · refine ⟨⟨.add, ⟨2⟩, ⟨2⟩, .sell, ⟨5⟩, ⟨3⟩⟩, ?_, ?_, ⟨⟨10⟩, ⟨7⟩, 1⟩, ⟨⟨5⟩, ⟨3⟩, 1⟩, ?_, ?_, ?_⟩
    all_goals decide +kernel

end Datagine
