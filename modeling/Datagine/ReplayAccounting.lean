import Datagine.ReplayRuns

/-!
# Replay Accounting

The counters, the error list, the statistics of the book and the anomaly tallies are updated
on different paths through the loop of `replay_file`. They stay in step: every line read is
either processed or rejected (`ReplayState.Tally`), and the errors are about some of the lines
read, in their order (`haltState_errors_sublist`).

## Main results

* `replay_accounting`: what the outcome of a replay says about the file and the book, for
  every file, all options and any earlier use of the engine.
-/

namespace Datagine

open Mealy Text

variable {𝔻 : Type} [DoubleArith 𝔻] {options : ReplayOptions 𝔻}

omit [DoubleArith 𝔻] in
theorem summarizeAnomalyReasons_append (anomalies anomalies' : List (AnomalyEvent 𝔻)) :
    summarizeAnomalyReasons (anomalies ++ anomalies') =
      anomalies'.foldl (fun counts anomaly => countReason counts anomaly.reason)
        (summarizeAnomalyReasons anomalies) :=
  List.foldl_append

namespace ReplayState

/-- The books of a replay after `n` lines: every line was processed or rejected, the book has
counted the processed ones, the errors are the rejected lines and a failed check, and the
reasons of the anomalies are counted. -/
structure Tally (n : ℕ) (s : ReplayState 𝔻) : Prop where
  opened : s.result.fileOpenFailed = false
  applied : s.result.eventsProcessed = s.book.eventsApplied
  read : s.result.eventsProcessed + s.result.rejectedEvents = n
  errors : s.result.errors.length =
    s.result.rejectedEvents + s.result.invariantFailed.toNat
  reasons : s.result.anomalyReasonCounts = summarizeAnomalyReasons s.result.anomalies

theorem tally_start (engine : ReplayEngine) (options : ReplayOptions 𝔻) :
    Tally 0 (engine.start options) :=
  ⟨rfl, rfl, rfl, rfl, rfl⟩

variable {s : ReplayState 𝔻} {n : ℕ}

theorem Tally.reject (h : Tally n s) (error : ReplayError) : Tally (n + 1) (s.reject error) where
  opened := h.opened
  applied := h.applied
  read := by
    have hread := h.read
    simp only [ReplayState.reject]
    omega
  errors := by
    have herrors := h.errors
    simp only [ReplayState.reject, List.length_append, List.length_singleton]
    omega
  reasons := h.reasons

theorem Tally.counted (h : Tally n s) {event : MarketEvent}
    (happlied : (s.book.apply event).1 = .applied) :
    Tally (n + 1) (counted options event { s with book := (s.book.apply event).2 }) where
  opened := h.opened
  applied := by
    have hcount : (s.book.apply event).2.eventsApplied = s.book.eventsApplied + 1 := by
      rcases s.book.apply_outcome event with ⟨hrejected, -⟩ | ⟨-, hcount⟩
      · exact absurd happlied hrejected
      · exact hcount
    simp only [ReplayState.counted, h.applied, hcount]
  read := by
    have hread := h.read
    simp only [ReplayState.counted]
    omega
  errors := h.errors
  reasons := by
    simp only [ReplayState.counted, h.reasons, summarizeAnomalyReasons_append]

theorem Tally.fail (h : Tally n s) (hs : s.result.invariantFailed = false)
    (parsed : CsvParseResult) : Tally n (s.fail parsed) where
  opened := h.opened
  applied := h.applied
  read := h.read
  errors := by
    have herrors := h.errors
    rw [hs] at herrors
    simpa [ReplayState.fail] using herrors
  reasons := h.reasons

/-- One pass over a line keeps the books. -/
theorem Tally.step (h : Tally n s) (options : ReplayOptions 𝔻)
    (hs : s.result.invariantFailed = false) {parsed : CsvParseResult} (hline : parsed.IsLine) :
    Tally (n + 1) (s.step options parsed).2 := by
  rcases step_cases options s hline with ⟨-, error, -, -, hstep⟩ | ⟨event, -, happlied, hstep⟩
  · rw [hstep]
    exact h.reject error
  · rw [hstep, accept_eq]
    split_ifs
    · exact (h.counted happlied).fail hs parsed
    · exact h.counted happlied

/-- A replay keeps the books. -/
theorem Tally.haltState (h : Tally n s) (options : ReplayOptions 𝔻)
    (hs : s.result.invariantFailed = false) {results : List CsvParseResult}
    (hlines : ∀ parsed ∈ results, parsed.IsLine) :
    Tally (n + (untilStop (ReplayState.step options) s results).length)
      (haltState (ReplayState.step options) s results) := by
  induction results generalizing s n with
  | nil => exact h
  | cons parsed results ih =>
      have hline := hlines parsed List.mem_cons_self
      have hnext := h.step options hs hline
      rw [untilStop, List.length_cons]
      cases hstop : (s.step options parsed).1 with
      | true =>
          rw [haltState_cons_true hstop, if_pos rfl]
          exact hnext
      | false =>
          have hs' : (s.step options parsed).2.result.invariantFailed = false := by
            rw [← Bool.not_eq_true, step_invariantFailed hline (by simp [hs]), hstop]
            exact Bool.false_ne_true
          rw [haltState_cons_false hstop, if_neg Bool.false_ne_true, Nat.add_comm _ 1,
            ← Nat.add_assoc]
          exact ih hnext hs' fun r hr => hlines r (List.mem_cons_of_mem parsed hr)

/-! ### The errors -/

/-- A replay adds errors about some of the lines it goes through, in their order. -/
theorem haltState_errors_sublist (options : ReplayOptions 𝔻) (s : ReplayState 𝔻)
    {results : List CsvParseResult} (hlines : ∀ parsed ∈ results, parsed.IsLine) :
    ∃ errors, (haltState (step options) s results).result.errors = s.result.errors ++ errors ∧
      (errors.map ReplayError.line).Sublist (results.map CsvParseResult.line) := by
  induction results generalizing s with
  | nil => exact ⟨[], (List.append_nil _).symm, List.nil_sublist _⟩
  | cons parsed results ih =>
      have hline := hlines parsed List.mem_cons_self
      obtain ⟨new, hnew, habout⟩ : ∃ new : List ReplayError,
          (s.step options parsed).2.result.errors = s.result.errors ++ new ∧
            (new.map ReplayError.line).Sublist [parsed.line] := by
        rcases step_cases options s hline with ⟨-, error, -, habout, hstep⟩ | ⟨event, -, -, hstep⟩
        · rw [hstep]
          exact ⟨[error], rfl, by rw [List.map_singleton, habout]⟩
        · rw [hstep, accept_eq]
          split_ifs
          · exact ⟨[_], rfl, List.Sublist.refl _⟩
          · exact ⟨[], (List.append_nil _).symm, List.nil_sublist _⟩
      cases hstop : (s.step options parsed).1 with
      | true =>
          rw [haltState_cons_true hstop]
          exact ⟨new, hnew, habout.trans (List.singleton_sublist.mpr List.mem_cons_self)⟩
      | false =>
          obtain ⟨later, hlater, hsub⟩ := ih (s.step options parsed).2
            fun r hr => hlines r (List.mem_cons_of_mem parsed hr)
          rw [haltState_cons_false hstop]
          refine ⟨new ++ later, by rw [hlater, hnew, List.append_assoc], ?_⟩
          rw [List.map_append, List.map_cons, ← List.singleton_append]
          exact habout.append hsub

/-- A pass that leaves the loop reports its line last. -/
theorem step_errors_of_stop {s : ReplayState 𝔻} {parsed : CsvParseResult} (hline : parsed.IsLine)
    (hstop : (s.step options parsed).1 = true) :
    ∃ before error, (s.step options parsed).2.result.errors = before ++ [error] ∧
      error.type = .invariantFailure ∧ error.line = parsed.line := by
  rcases step_cases options s hline with ⟨-, error, -, -, hstep⟩ | ⟨event, -, -, hstep⟩
  · rw [hstep] at hstop
    cases hstop
  · rw [hstep, accept_eq] at hstop ⊢
    split_ifs at hstop ⊢
    exact ⟨_, _, rfl, rfl, rfl⟩

end ReplayState

/-! ### The lines of a file -/

/-- The lines of a file with their 1-based numbers. -/
def numberedLines (content : List (List Char)) : List (ℕ × List Char) :=
  content.mapIdx fun i row => (i + 1, row)

theorem numberedLines_increasing (content : List (List Char)) :
    (numberedLines content).Pairwise fun a b => a.1 < b.1 := by
  rw [List.pairwise_iff_getElem]
  intro i j hi hj hij
  simp only [numberedLines, List.getElem_mapIdx]
  omega

theorem getElem?_of_mem_numberedLines {content : List (List Char)} {line : ℕ × List Char}
    (h : line ∈ numberedLines content) :
    1 ≤ line.1 ∧ content[line.1 - 1]? = some line.2 := by
  obtain ⟨i, hi, rfl⟩ := List.mem_mapIdx.mp h
  exact ⟨Nat.le_add_left 1 i, List.getElem?_eq_getElem hi⟩

/-- The results of a file are about lines of the file, in their order. -/
theorem fileResults_lines (content : List (List Char)) :
    ((fileResults content).map CsvParseResult.line).Sublist (numberedLines content) := by
  cases content with
  | nil => exact List.nil_sublist _
  | cons header rows =>
      have hhead : numberedLines (header :: rows) =
          (1, header) :: rows.mapIdx fun i row => (i + 2, row) := by
        rw [numberedLines, List.mapIdx_cons]
      rw [hhead, fileResults]
      split_ifs
      · have hrows : (rows.mapIdx fun i row => parseRow (i + 2) row).map CsvParseResult.line =
            rows.mapIdx fun i row => (i + 2, row) := by
          simp only [List.mapIdx_eq_zipIdx_map, List.map_map]
          refine List.map_congr_left fun x _ => ?_
          obtain ⟨hnumber, hraw, -⟩ := parseRow_fields (x.2 + 2) x.1
          exact Prod.ext hnumber hraw
        rw [hrows]
        exact List.sublist_cons_self _ _
      · exact List.singleton_sublist.mpr List.mem_cons_self

/-- How many lines a complete replay goes through: the data lines behind a valid header, or
else the first line, if there is one. -/
def replayedLines : List (List Char) → ℕ
  | [] => 0
  | header :: rows => if trim header = expectedHeader then rows.length else 1

theorem length_fileResults (content : List (List Char)) :
    (fileResults content).length = replayedLines content := by
  cases content with
  | nil => rfl
  | cons header rows =>
      rw [fileResults, replayedLines]
      split_ifs
      · exact List.length_mapIdx
      · rfl

/-- The `n`-th result that brings an event is that of line `n + 2`. -/
theorem lineNumber_of_event {content : List (List Char)} {pre post : List CsvParseResult}
    {parsed : CsvParseResult} (h : fileResults content = pre ++ parsed :: post)
    (hevent : parsed.event ≠ none) : parsed.lineNumber = pre.length + 2 := by
  have hget : (fileResults content)[pre.length]? = some parsed := by
    rw [h, List.getElem?_append_right le_rfl, Nat.sub_self]
    rfl
  cases content with
  | nil => cases hget
  | cons header rows =>
      rw [fileResults] at hget
      split_ifs at hget
      · rw [List.getElem?_mapIdx, Option.map_eq_some_iff] at hget
        obtain ⟨row, -, rfl⟩ := hget
        exact (parseRow_fields _ row).1
      · have hmem := List.mem_of_getElem? hget
        obtain rfl := List.mem_singleton.mp hmem
        exact absurd rfl hevent

/-! ### The outcome of a replay -/

/-- What the outcome of a replay says about the lines of the file it read. -/
structure ReplayResult.AccountsForLines (result : ReplayResult 𝔻) (content : List (List Char)) :
    Prop where
  /-- A complete replay has gone through every line. -/
  complete : result.invariantFailed = false →
    result.eventsProcessed + result.rejectedEvents = replayedLines content
  /-- Behind a wrong header nothing is processed. -/
  wrongHeader : ∀ header rows, content = header :: rows → trim header ≠ expectedHeader →
    result.eventsProcessed = 0 ∧ result.invariantFailed = false
  /-- A replay that a failed check cuts short has gone through the lines up to the failing one,
  which is reported last; line `n + 1` of the file is data line `n`. -/
  failed : result.invariantFailed = true →
    ∃ before error, result.errors = before ++ [error] ∧ error.type = .invariantFailure ∧
      error.lineNumber = result.eventsProcessed + result.rejectedEvents + 1
  increasing : result.errors.Pairwise fun a b => a.lineNumber < b.lineNumber
  rawRows : ∀ error ∈ result.errors,
    1 ≤ error.lineNumber ∧ content[error.lineNumber - 1]? = some error.rawRow

/-- What the outcome of a replay says about the file and about the book it left. -/
structure ReplayResult.AccountsFor (result : ReplayResult 𝔻) (file : Option (List Char))
    (book : LimitOrderBook) : Prop where
  opened : result.fileOpenFailed = file.isNone
  applied : result.eventsProcessed = book.eventsApplied
  finalTop : result.finalTop = book.topOfBook
  finalSnapshot : result.finalSnapshot = book.snapshot
  finalChecksum : result.finalChecksum = checksumBook book
  errorCount : result.errors.length =
    result.rejectedEvents + result.invariantFailed.toNat + result.fileOpenFailed.toNat
  reasons : result.anomalyReasonCounts = summarizeAnomalyReasons result.anomalies
  lines : ∀ content, file = some content → result.AccountsForLines (lines content)

namespace ReplayEngine

variable {engine : ReplayEngine} {content : List Char}

theorem stop_tally (engine : ReplayEngine) (content : List Char) (options : ReplayOptions 𝔻) :
    (engine.stop content options).Tally (untilStop (ReplayState.step options)
      (engine.start options) (fileResults (lines content))).length := by
  have htally := (ReplayState.tally_start engine options).haltState options rfl
    (fileResults_isLine (lines content))
  rwa [Nat.zero_add] at htally

/-- Without a failed check every line is processed or rejected. -/
theorem stop_complete (h : (engine.stop content options).result.invariantFailed = false) :
    (engine.stop content options).result.eventsProcessed +
        (engine.stop content options).result.rejectedEvents = replayedLines (lines content) := by
  have hnone : true ∉ outputs (ReplayState.step options) (engine.start options)
      (fileResults (lines content)) := by
    rw [← stop_failed_iff, h]
    exact Bool.false_ne_true
  rw [(stop_tally engine content options).read, untilStop_eq_self hnone, length_fileResults]

/-- A failed check is reported last, and is about the last line processed. -/
theorem stop_failed (h : (engine.stop content options).result.invariantFailed = true) :
    ∃ before error, (engine.stop content options).result.errors = before ++ [error] ∧
      error.type = .invariantFailure ∧
      error.lineNumber = (engine.stop content options).result.eventsProcessed +
        (engine.stop content options).result.rejectedEvents + 1 := by
  obtain ⟨pre, parsed, hread, hstop⟩ := exists_untilStop_eq (stop_failed_iff.mp h)
  obtain ⟨post, hresults⟩ := untilStop_prefix (ReplayState.step options) (engine.start options)
    (fileResults (lines content))
  rw [hread, ← List.append_cons] at hresults
  have hline : parsed.IsLine := by
    refine fileResults_isLine (lines content) parsed ?_
    rw [← hresults]
    exact List.mem_append_right _ List.mem_cons_self
  have hstate : engine.stop content options = (ReplayState.step options
      (finalState (ReplayState.step options) (engine.start options) pre) parsed).2 := by
    rw [stop, haltState, hread, finalState_concat]
  have hnumber : parsed.lineNumber = pre.length + 2 := by
    refine lineNumber_of_event hresults.symm fun hnone => ?_
    obtain ⟨-, -, event, hevent, -⟩ := (step_stops_iff_crosses engine hresults.symm).mp hstop
    rw [hnone] at hevent
    cases hevent
  have htally := (stop_tally engine content options).read
  rw [hread, List.length_append, List.length_singleton] at htally
  obtain ⟨before, error, herrors, htype, habout⟩ := ReplayState.step_errors_of_stop hline hstop
  refine ⟨before, error, hstate ▸ herrors, htype, ?_⟩
  rw [htally]
  exact (congrArg Prod.fst habout).trans hnumber

/-- A wrong header is the only line read, and it is rejected. -/
theorem stop_wrongHeader {header : List Char} {rows : List (List Char)}
    (hlines : lines content = header :: rows) (hheader : trim header ≠ expectedHeader) :
    engine.stop content options =
      (engine.start options).reject ⟨.parseError, 1, "invalid CSV header", header⟩ := by
  rw [stop, hlines, fileResults, if_neg hheader, haltState_cons_false]
  · rfl
  · rfl

/-- The errors are about lines of the file, in their order. -/
theorem stop_errors (engine : ReplayEngine) (content : List Char) (options : ReplayOptions 𝔻) :
    ((engine.stop content options).result.errors.map ReplayError.line).Sublist
      (numberedLines (lines content)) := by
  obtain ⟨errors, herrors, hsub⟩ := ReplayState.haltState_errors_sublist options
    (engine.start options) (fileResults_isLine (lines content))
  have hall : (engine.stop content options).result.errors = errors := herrors
  rw [hall]
  exact hsub.trans (fileResults_lines (lines content))

theorem stop_accountsForLines (engine : ReplayEngine) (content : List Char)
    (options : ReplayOptions 𝔻) :
    (engine.stop content options).result.AccountsForLines (lines content) where
  complete := stop_complete
  wrongHeader header rows hlines hheader := by
    rw [stop_wrongHeader hlines hheader]
    exact ⟨rfl, rfl⟩
  failed := stop_failed
  increasing := by
    have hpairs := (numberedLines_increasing _).sublist (stop_errors engine content options)
    rw [List.pairwise_map] at hpairs
    exact hpairs
  rawRows error hmem := by
    have hline := (stop_errors engine content options).subset (List.mem_map_of_mem hmem)
    exact getElem?_of_mem_numberedLines hline

end ReplayEngine

/-- **Replay accounting.** For every file, openable or not, and all options, the outcome of a
replay accounts for the file and for the book, whatever the engine replayed before. -/
theorem replay_accounting (engine : ReplayEngine) (inputPath : String)
    (file : Option (List Char)) (options : ReplayOptions 𝔻) :
    (engine.replayFile inputPath file options).1.AccountsFor file
      (engine.replayFile inputPath file options).2.book := by
  cases file with
  | none =>
      refine ⟨rfl, rfl, rfl, rfl, rfl, rfl, rfl, fun content hfile => ?_⟩
      cases hfile
  | some content =>
      have htally := ReplayEngine.stop_tally engine content options
      have hlines := ReplayEngine.stop_accountsForLines engine content options
      have hcount : (engine.stop content options).result.errors.length =
          (engine.stop content options).result.rejectedEvents +
            (engine.stop content options).result.invariantFailed.toNat +
            (engine.stop content options).result.fileOpenFailed.toNat := by
        rw [htally.errors, htally.opened]
        rfl
      rw [ReplayEngine.replayFile_eq]
      refine ⟨htally.opened, htally.applied, rfl, rfl, rfl, hcount, htally.reasons, ?_⟩
      intro content' hfile
      obtain rfl := Option.some.inj hfile
      -- the final views leave the other fields of the outcome alone
      exact ⟨hlines.complete, hlines.wrongHeader, hlines.failed, hlines.increasing,
        hlines.rawRows⟩

end Datagine
