import Datagine.ReplayMonitoring

/-!
# Files that are Read Alike

A row is cut into columns and every column is trimmed before anything is decided, so a replay
cannot tell apart two files whose rows have the same columns and whose first lines are the same
when trimmed. The raw text of a row is kept for the error reports and is nowhere looked at.

A carriage return is one of the characters that are trimmed. A file with the line ends of another
system has one at the end of every line, where it belongs to the last column.

## Main results

* `replay_respelled`: replays of files with the same columns differ in the raw rows of their
  errors only.
* `replay_crlf`: the line ends of a file do not matter.
-/

namespace Datagine

open Mealy Text

/-! ### Carriage returns -/

/-- The text with a carriage return before every line feed. -/
def crlf (content : List Char) : List Char :=
  content.flatMap fun c => if c = '\n' then ['\r', '\n'] else [c]

/-- A blank behind a text is trimmed with it. -/
theorem trim_append_blank (text : List Char) {c : Char} (hc : isBlank c = true) :
    trim (text ++ [c]) = trim text := by
  obtain ⟨⟨left, right, hsplit, hleft, hright⟩, hfirst, hlast⟩ :=
    stripsTo_stripWhile isBlank text
  have hstrips : StripsTo isBlank (text ++ [c]) (trim text) := by
    refine ⟨⟨left, right ++ [c], ?_, hleft, ?_⟩, hfirst, hlast⟩
    · rw [trim, ← List.append_assoc, ← hsplit]
    · intro d hd
      rcases List.mem_append.mp hd with hd | hd
      · exact hright d hd
      · rw [List.mem_singleton.mp hd, hc]
  exact (stripsTo_iff.mp hstrips).symm

/-- A blank behind a row belongs to its last column. -/
theorem splitCsvColumns_append_blank (row : List Char) {c : Char} (hc : isBlank c = true) :
    splitCsvColumns (row ++ [c]) = splitCsvColumns row := by
  have hcomma : c ≠ ',' := by
    rintro rfl
    exact absurd hc (by decide)
  have hdropOne : [c].dropWhile (· ≠ ',') = [] := by simp [hcomma]
  have htakeOne : [c].takeWhile (· ≠ ',') = [c] := by simp [hcomma]
  fun_induction splitCsvColumns row with
  | case1 row h =>
      have hfree : ∀ d ∈ row, decide (d ≠ ',') = true := List.dropWhile_eq_nil_iff.mp h
      have hdrop : (row ++ [c]).dropWhile (· ≠ ',') = [] := by
        rw [List.dropWhile_append_of_pos hfree, hdropOne]
      have htake : (row ++ [c]).takeWhile (· ≠ ',') = row.takeWhile (· ≠ ',') ++ [c] := by
        rw [List.takeWhile_append_of_pos hfree, htakeOne, List.takeWhile_eq_self_iff.mpr hfree]
      rw [splitCsvColumns_eq, splitOn_eq, hdrop, htake, List.map_singleton,
        trim_append_blank _ hc]
  | case2 row d rest h ih =>
      have hsplit : row.takeWhile (· ≠ ',') ++ d :: rest = row := by
        rw [← h, List.takeWhile_append_dropWhile]
      have hfree : ∀ d ∈ row.takeWhile (· ≠ ','), decide (d ≠ ',') = true :=
        fun d hd => List.mem_takeWhile_imp (p := (· ≠ ',')) hd
      have hd : decide (d ≠ ',') = false := by
        have hnot := List.head?_dropWhile_not (· ≠ ',') row
        rw [h] at hnot
        exact hnot
      have happend : row ++ [c] = row.takeWhile (· ≠ ',') ++ d :: (rest ++ [c]) := by
        conv_lhs => rw [← hsplit]
        rw [List.append_assoc, List.cons_append]
      have hdrop : (row ++ [c]).dropWhile (· ≠ ',') = d :: (rest ++ [c]) := by
        rw [happend, List.dropWhile_append_of_pos hfree,
          List.dropWhile_cons_of_neg (by simp [hd])]
      have htake : (row ++ [c]).takeWhile (· ≠ ',') = row.takeWhile (· ≠ ',') := by
        rw [happend, List.takeWhile_append_of_pos hfree,
          List.takeWhile_cons_of_neg (by simp [hd]), List.append_nil]
      rw [splitCsvColumns_eq, splitOn_eq, hdrop, htake, List.map_cons, ← splitCsvColumns_eq, ih]

/-- Each line has a carriage return behind it, but a last one without a line end. -/
theorem lines_crlf (content : List Char) :
    List.Forall₂ (fun line line' => line' = line ∨ line' = line ++ ['\r']) (lines content)
      (lines (crlf content)) := by
  fun_induction lines content with
  | case1 content h =>
      have hnil : content = [] := by
        cases content with
        | nil => rfl
        | cons c cs => cases h
      subst hnil
      rw [crlf, List.flatMap_nil, lines_of_none rfl]
      exact .nil
  | case2 content line rest h ih =>
      obtain ⟨hfree, hcontent⟩ := getline_eq_some_iff.mp h
      have hline : crlf line = line := by
        have hkeep : ∀ c ∈ line, (if c = '\n' then ['\r', '\n'] else [c]) = [c] := by
          intro c hc
          have hne : c ≠ '\n' := fun heq => hfree (heq ▸ hc)
          rw [if_neg hne]
        rw [crlf, List.flatMap_congr hkeep]
        exact List.flatMap_singleton' line
      rcases hcontent with rfl | ⟨rfl, hne, rfl⟩
      · have hcrlf : crlf (line ++ '\n' :: rest) = (line ++ ['\r']) ++ '\n' :: crlf rest := by
          rw [crlf, List.flatMap_append, ← crlf, hline]
          simp [crlf]
        have hget : getline (crlf (line ++ '\n' :: rest)) = some (line ++ ['\r'], crlf rest) :=
          getline_eq_some_iff.mpr ⟨by simp [hfree], .inl hcrlf⟩
        rw [lines_of_some hget]
        exact .cons (.inr rfl) ih
      · rw [hline, lines_of_some h]
        exact .cons (.inl rfl) (List.forall₂_same.mpr fun _ _ => .inl rfl)

/-! ### Rows with the same columns -/

/-- The lines of the two files are read alike: the first ones are the same when trimmed, and the
others have the same columns. -/
def ReadAlike : List (List Char) → List (List Char) → Prop
  | [], [] => True
  | header :: rows, header' :: rows' =>
      trim header = trim header' ∧
        List.Forall₂ (fun row row' => splitCsvColumns row = splitCsvColumns row') rows rows'
  | _, _ => False

/-- The result of the same line, up to its raw text. -/
structure CsvParseResult.Respelled (parsed parsed' : CsvParseResult) : Prop where
  status : parsed.status = parsed'.status
  event : parsed.event = parsed'.event
  lineNumber : parsed.lineNumber = parsed'.lineNumber
  message : parsed.message = parsed'.message

theorem respelled_rows {rows rows' : List (List Char)}
    (h : List.Forall₂ (fun row row' => splitCsvColumns row = splitCsvColumns row') rows rows')
    (n : ℕ) :
    List.Forall₂ CsvParseResult.Respelled (rows.mapIdx fun i row => parseRow (i + n) row)
      (rows'.mapIdx fun i row => parseRow (i + n) row) := by
  induction h generalizing n with
  | nil => exact .nil
  | @cons row row' rows rows' hcolumns _ ih =>
      have hshift : ∀ i, i + 1 + n = i + (n + 1) := fun i => by omega
      have hrow : (parseRow (0 + n) row).Respelled (parseRow (0 + n) row') := by
        rw [parseRow, parseRow, hcolumns]
        cases parseColumns (splitCsvColumns row') with
        | error message => exact ⟨rfl, rfl, rfl, rfl⟩
        | ok event => exact ⟨rfl, rfl, rfl, rfl⟩
      rw [List.mapIdx_cons, List.mapIdx_cons]
      simp only [hshift]
      exact .cons hrow (ih (n + 1))

theorem respelled_fileResults {content content' : List (List Char)}
    (h : ReadAlike content content') :
    List.Forall₂ CsvParseResult.Respelled (fileResults content) (fileResults content') := by
  cases content with
  | nil =>
      cases content' with
      | nil => exact .nil
      | cons header' rows' => exact h.elim
  | cons header rows =>
      cases content' with
      | nil => exact h.elim
      | cons header' rows' =>
          obtain ⟨hheader, hrows⟩ := h
          rw [fileResults, fileResults, hheader]
          split_ifs
          · exact respelled_rows hrows 2
          · exact .cons ⟨rfl, rfl, rfl, rfl⟩ .nil

variable {𝔻 : Type} [DoubleArith 𝔻]

/-- The error without the text of its line. -/
def ReplayError.withoutRawRow (error : ReplayError) : ReplayError := { error with rawRow := [] }

/-- The result without the texts of the lines that its errors are about. -/
def ReplayResult.withoutRawRows (result : ReplayResult 𝔻) : ReplayResult 𝔻 :=
  { result with errors := result.errors.map ReplayError.withoutRawRow }

namespace ReplayState

/-- The two replays are in the same state, up to the texts in their errors. -/
structure Respelled (s t : ReplayState 𝔻) : Prop where
  book : s.book = t.book
  anomalyMonitor : s.anomalyMonitor = t.anomalyMonitor
  result : s.result.withoutRawRows = t.result.withoutRawRows

variable {s t : ReplayState 𝔻}

theorem Respelled.reject (h : Respelled s t) {error error' : ReplayError}
    (herror : error.withoutRawRow = error'.withoutRawRow) :
    Respelled (s.reject error) (t.reject error') where
  book := h.book
  anomalyMonitor := h.anomalyMonitor
  result := by
    have hreject : ∀ (s : ReplayState 𝔻) (error : ReplayError),
        (s.reject error).result.withoutRawRows = { s.result.withoutRawRows with
          rejectedEvents := s.result.withoutRawRows.rejectedEvents + 1
          errors := s.result.withoutRawRows.errors ++ [error.withoutRawRow] } := by
      intro s error
      simp only [ReplayState.reject, ReplayResult.withoutRawRows, List.map_append,
        List.map_singleton]
    rw [hreject, hreject, h.result, herror]

theorem Respelled.fail (h : Respelled s t) {parsed parsed' : CsvParseResult}
    (hnumber : parsed.lineNumber = parsed'.lineNumber) :
    Respelled (s.fail parsed) (t.fail parsed') where
  book := h.book
  anomalyMonitor := h.anomalyMonitor
  result := by
    have hfail : ∀ (s : ReplayState 𝔻) (parsed : CsvParseResult),
        (s.fail parsed).result.withoutRawRows = { s.result.withoutRawRows with
          invariantFailed := true
          errors := s.result.withoutRawRows.errors ++
            [⟨.invariantFailure, parsed.lineNumber, "book invariant validation failed", []⟩] } := by
      intro s parsed
      simp only [ReplayState.fail, ReplayResult.withoutRawRows, List.map_append,
        List.map_singleton, ReplayError.withoutRawRow]
    rw [hfail, hfail, h.result, hnumber]

theorem Respelled.counted (h : Respelled s t) (options : ReplayOptions 𝔻) (event : MarketEvent) :
    Respelled (s.counted options event) (t.counted options event) := by
  have hfindings : s.findings options event = t.findings options event := by
    rw [findings, findings, h.book, h.anomalyMonitor]
  refine ⟨h.book, congrArg Prod.snd hfindings, ?_⟩
  have hcounted : ∀ s : ReplayState 𝔻,
      (s.counted options event).result.withoutRawRows = { s.result.withoutRawRows with
        eventsProcessed := s.result.withoutRawRows.eventsProcessed + 1
        anomalies := s.result.withoutRawRows.anomalies ++ (s.findings options event).1
        anomalyReasonCounts := (s.findings options event).1.foldl (fun counts anomaly =>
          countReason counts anomaly.reason) s.result.withoutRawRows.anomalyReasonCounts } :=
    fun _ => rfl
  rw [hcounted, hcounted, h.result, hfindings]

/-- **One pass.** -/
theorem Respelled.step (h : Respelled s t) (options : ReplayOptions 𝔻)
    {parsed parsed' : CsvParseResult} (hparsed : parsed.Respelled parsed') :
    (s.step options parsed).1 = (t.step options parsed').1 ∧
      Respelled (s.step options parsed).2 (t.step options parsed').2 := by
  rw [ReplayState.step, ReplayState.step, hparsed.status, hparsed.event]
  split_ifs with hstatus
  · refine ⟨rfl, h.reject ?_⟩
    rw [ReplayError.withoutRawRow, ReplayError.withoutRawRow, hparsed.lineNumber, hparsed.message]
  · cases parsed'.event with
    | none => exact ⟨rfl, h⟩
    | some event =>
        dsimp only
        rw [h.book]
        have hnext : Respelled { s with book := (t.book.apply event).2 }
            { t with book := (t.book.apply event).2 } := ⟨rfl, h.anomalyMonitor, h.result⟩
        split_ifs with happlied
        · refine ⟨rfl, hnext.reject ?_⟩
          rw [ReplayError.withoutRawRow, ReplayError.withoutRawRow, hparsed.lineNumber]
        · have hcounted := hnext.counted options event
          rw [accept_eq, accept_eq]
          split_ifs with hfails
          · exact ⟨rfl, hcounted.fail hparsed.lineNumber⟩
          · exact ⟨rfl, hcounted⟩

theorem Respelled.finish (h : Respelled s t) :
    (t.result.finish t.book).withoutRawRows = (s.result.finish s.book).withoutRawRows := by
  have hfinish : ∀ (result : ReplayResult 𝔻) (book : LimitOrderBook),
      (result.finish book).withoutRawRows = result.withoutRawRows.finish book := fun _ _ => rfl
  rw [hfinish, hfinish, h.result, h.book]

end ReplayState

/-- The loop over files that are read alike. -/
theorem ReplayEngine.stop_respelled (engine : ReplayEngine) (options : ReplayOptions 𝔻)
    {content content' : List Char} (h : ReadAlike (lines content) (lines content')) :
    ReplayState.Respelled (engine.stop content options) (engine.stop content' options) := by
  have hstart : ReplayState.Respelled (engine.start options) (engine.start options) :=
    ⟨rfl, rfl, rfl⟩
  exact (haltState_simulation (fun s t parsed parsed' hparsed hst => hst.step options hparsed)
    hstart (respelled_fileResults h)).2

/-- **Columns are all that is read.** Replays of two files with the same first line when trimmed
and the same columns line by line leave the same book and return the same result, anomalies and
line numbers included, up to the raw texts in the error reports. -/
theorem replay_respelled (engine : ReplayEngine) (inputPath : String)
    {content content' : List Char} (options : ReplayOptions 𝔻)
    (h : ReadAlike (lines content) (lines content')) :
    let replay := engine.replayFile inputPath (some content) options
    let replay' := engine.replayFile inputPath (some content') options
    replay'.2 = replay.2 ∧ replay'.1.withoutRawRows = replay.1.withoutRawRows := by
  have hrespelled := engine.stop_respelled options h
  simp only [engine.replayFile_eq]
  exact ⟨congrArg ReplayEngine.mk hrespelled.book.symm, hrespelled.finish⟩

/-- A file, and one with blanks around its header and its columns. -/
def plainFeed : List Char :=
  "timestamp_ns,event_type,order_id,side,price,quantity\n1,ADD,1,B,100,10\n2,CANCEL,7,,,\n".toList

/-- The same two rows with blanks around their fields. -/
def spacedFeed : List Char :=
  (" timestamp_ns,event_type,order_id,side,price,quantity\t\n" ++
    "1 , ADD,1,\tB,100,10\n2,CANCEL, 7,, ,\r").toList

/-- Their replays report the same rejected line. -/
theorem replay_respelled_spaced :
    ReadAlike (lines plainFeed) (lines spacedFeed) ∧
      (ReplayEngine.new.replayFile "feed.csv" (some spacedFeed)
          ({} : ReplayOptions Float)).1.withoutRawRows.errors =
        (ReplayEngine.new.replayFile "feed.csv" (some plainFeed)
          ({} : ReplayOptions Float)).1.withoutRawRows.errors := by
  have hplain : lines plainFeed = [expectedHeader, "1,ADD,1,B,100,10".toList,
      "2,CANCEL,7,,,".toList] := by decide +kernel
  have hspaced : lines spacedFeed = [' ' :: expectedHeader ++ ['\t'],
      "1 , ADD,1,\tB,100,10".toList, "2,CANCEL, 7,, ,\r".toList] := by decide +kernel
  have halike : ReadAlike (lines plainFeed) (lines spacedFeed) := by
    rw [hplain, hspaced]
    exact ⟨by decide +kernel, .cons (by decide +kernel) (.cons (by decide +kernel) .nil)⟩
  exact ⟨halike, congrArg ReplayResult.errors
    (replay_respelled ReplayEngine.new "feed.csv" ({} : ReplayOptions Float) halike).2⟩

/-- A file with carriage returns is read as the one without. -/
theorem readAlike_crlf (content : List Char) :
    ReadAlike (lines content) (lines (crlf content)) := by
  have hreturn : isBlank '\r' = true := by decide
  have hlines := lines_crlf content
  generalize lines content = ls, lines (crlf content) = ls' at hlines
  cases hlines with
  | nil => trivial
  | cons hheader hrows =>
      refine ⟨?_, hrows.imp fun row row' hrow => ?_⟩
      · rcases hheader with rfl | rfl
        · rfl
        · rw [trim_append_blank _ hreturn]
      · rcases hrow with rfl | rfl
        · rfl
        · rw [splitCsvColumns_append_blank _ hreturn]

/-- **Line ends do not matter.** The replay of a file with a carriage return before every line
feed leaves the same book and returns the same result, up to the raw texts in the error
reports. -/
theorem replay_crlf (engine : ReplayEngine) (inputPath : String) (content : List Char)
    (options : ReplayOptions 𝔻) :
    let replay := engine.replayFile inputPath (some content) options
    let replay' := engine.replayFile inputPath (some (crlf content)) options
    replay'.2 = replay.2 ∧ replay'.1.withoutRawRows = replay.1.withoutRawRows := by
  have hrespelled := engine.stop_respelled options (readAlike_crlf content)
  simp only [engine.replayFile_eq]
  exact ⟨congrArg ReplayEngine.mk hrespelled.book.symm, hrespelled.finish⟩

end Datagine
