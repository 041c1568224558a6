import Mathlib.Data.Finset.Sort
import Mathlib.Data.List.Sort
import Mathlib.Data.String.Basic
import Datagine.Lib.Numerals
import Datagine.CsvEncoding
import Datagine.ReplayMonitoring

/-!
# The Replay Tool

The model of `tools/datagine_replay.cpp`, the program that replays a file and prints a summary,
and of the two functions that format parts of it. The program is a function of its arguments and
of the files it can open; it returns the exit status and what it writes to standard output and
standard error.

## Main results

* `ReplayTool.exit_status`: when the program fails, and with which status.
* `ReplayTool.anomaly_report_appends`: the flag adds lines to the output and changes nothing else.
* `ReplayTool.report_unambiguous`: the counts, the top of the book and the checksum can be read
  off the output.
* `ReplayTool.topReasons_ranked`: which reasons are printed, and in which order.
-/

namespace Datagine

open Mealy Text Numerals

/-! ### Formatting -/

/-- `append_level`. -/
def appendLevel : Option PriceLevelView → List Char
  | none => "none".toList
  | some level => decimalInt64 level.price.ticks ++ 'x' :: decimalUInt64 level.quantity.units

/-- `format_top_of_book`. -/
def formatTopOfBook (top : TopOfBook) : List Char :=
  "bid=".toList ++ appendLevel top.bid ++ " ask=".toList ++ appendLevel top.ask

/-- `format_checksum`: sixteen hexadecimal digits. -/
def formatChecksum (checksum : UInt64) : List Char :=
  "0x".toList ++ (Nat.toDigits 16 checksum.toNat).leftpad 16 '0'

namespace ReplayTool

/-! ### The program -/

/-- What a run of the program leaves. -/
structure Outcome where
  status : ℕ
  out : List Char
  err : List Char
  deriving DecidableEq

/-- The usage message, and the status of a run that prints it. -/
def usageError : Outcome where
  status := 2
  out := []
  err := "usage: datagine_replay path/to/events.csv [--anomaly-report]\n".toList

/-- The comparison that the reasons are sorted by: the more frequent one first, and among equally
frequent ones by name. -/
def reasonBefore (lhs rhs : String × ℕ) : Prop :=
  if lhs.2 ≠ rhs.2 then lhs.2 > rhs.2 else lhs.1 < rhs.1

instance : DecidableRel reasonBefore := fun lhs rhs =>
  inferInstanceAs (Decidable (if lhs.2 ≠ rhs.2 then lhs.2 > rhs.2 else lhs.1 < rhs.1))

/-- What a sorted range has of its entries: the later one does not belong before the earlier. -/
def notAfter (lhs rhs : String × ℕ) : Prop := ¬reasonBefore rhs lhs

instance : DecidableRel notAfter := fun lhs rhs =>
  inferInstanceAs (Decidable ¬reasonBefore rhs lhs)

/-- The entries of the map, in the order of its keys. -/
def reasonsOf (counts : Finmap fun _ : String => ℕ) : List (String × ℕ) :=
  (counts.keys.sort).map fun reason => (reason, (counts.lookup reason).getD 0)

/-- The reasons that are printed: after the sort, the first five. -/
def topReasons (counts : Finmap fun _ : String => ℕ) : List (String × ℕ) :=
  ((reasonsOf counts).insertionSort notAfter).take 5

/-- A printed reason. -/
def formatReason (reason : String × ℕ) : List Char :=
  reason.1.toList ++ '=' :: Nat.toDigits 10 reason.2

variable {𝔻 : Type}

/-- The lines that are always printed. -/
def summary (result : ReplayResult 𝔻) : List Char :=
  unlines ["events_processed: ".toList ++ Nat.toDigits 10 result.eventsProcessed,
    "rejected_events: ".toList ++ Nat.toDigits 10 result.rejectedEvents,
    "final_top_of_book: ".toList ++ formatTopOfBook result.finalTop,
    "final_checksum: ".toList ++ formatChecksum result.finalChecksum]

/-- The lines that are printed with anomaly detection. -/
def anomalyReport (result : ReplayResult 𝔻) : List Char :=
  let reasons := topReasons result.anomalyReasonCounts
  unlines ["anomaly_count: ".toList ++ Nat.toDigits 10 result.anomalies.length,
    "top_anomaly_reasons: ".toList ++
      if reasons = [] then "none".toList else ", ".toList.intercalate (reasons.map formatReason)]

/-- An error line. -/
def formatError (error : ReplayError) : List Char :=
  "line ".toList ++ Nat.toDigits 10 error.lineNumber ++ ": ".toList ++ error.message.toList

variable [DoubleArith 𝔻]

/-- What is printed of a replay, and the exit status. -/
def report (options : ReplayOptions 𝔻) (result : ReplayResult 𝔻) : Outcome where
  status := if result.fileOpenFailed || result.invariantFailed then 1 else 0
  out := summary result ++ if options.enableAnomalyDetection then anomalyReport result else []
  err := unlines (result.errors.map formatError)

/-- The path and the options that the arguments ask for, behind the name of the program. -/
def parseArguments (𝔻 : Type) [DoubleArith 𝔻] : List String → Option (String × ReplayOptions 𝔻)
  | [_, path] => some (path, {})
  | [_, path, flag] =>
      if flag ≠ "--anomaly-report" then none else some (path, { enableAnomalyDetection := true })
  | _ => none

/-- `main`, on a file system that can open some paths. -/
def main (𝔻 : Type) [DoubleArith 𝔻] (files : String → Option (List Char)) (argv : List String) :
    Outcome :=
  match parseArguments 𝔻 argv with
  | none => usageError
  | some (path, options) =>
      report options (ReplayEngine.new.replayFile path (files path) options).1

/-! ### The exit status -/

/-- The program always checks the book, and does not allow it to be crossed. -/
theorem checks_of_parseArguments {argv : List String} {path : String} {options : ReplayOptions 𝔻}
    (h : parseArguments 𝔻 argv = some (path, options)) :
    options.validateAfterApply = true ∧ options.invariantOptions.allowCrossedBook = false := by
  rw [parseArguments.eq_def] at h
  split at h
  · obtain ⟨-, rfl⟩ := Prod.mk.inj (Option.some.inj h)
    exact ⟨rfl, rfl⟩
  · split_ifs at h
    obtain ⟨-, rfl⟩ := Prod.mk.inj (Option.some.inj h)
    exact ⟨rfl, rfl⟩
  · cases h

theorem unlines_eq_nil_iff {ls : List (List Char)} : unlines ls = [] ↔ ls = [] := by
  cases ls with
  | nil => exact iff_of_true rfl rfl
  | cons line ls => simp [unlines]

/-- The status and the errors of a replay that was run. -/
theorem status_report (options : ReplayOptions 𝔻) (result : ReplayResult 𝔻) :
    ((report options result).status = 0 ∨ (report options result).status = 1) ∧
      ((report options result).status = 0 ↔
        result.fileOpenFailed = false ∧ result.invariantFailed = false) ∧
      ((report options result).err = [] ↔ result.errors = []) := by
  have hstatus : (report options result).status =
      if result.fileOpenFailed || result.invariantFailed then 1 else 0 := rfl
  refine ⟨?_, ?_, ?_⟩
  · rw [hstatus]
    split_ifs
    · exact .inr rfl
    · exact .inl rfl
  · rw [hstatus]
    cases result.fileOpenFailed <;> cases result.invariantFailed <;> simp
  · rw [report, unlines_eq_nil_iff, List.map_eq_nil_iff]

/-- A replay of a file that opens reports no error exactly if no line was rejected and no check
failed. -/
theorem replay_errors_eq_nil_iff (engine : ReplayEngine) (path : String) (content : List Char)
    (options : ReplayOptions 𝔻) :
    let result := (engine.replayFile path (some content) options).1
    result.fileOpenFailed = false ∧ (result.errors = [] ↔
      result.invariantFailed = false ∧ result.rejectedEvents = 0) := by
  rw [engine.replayFile_eq]
  have htally := engine.stop_tally content options
  refine ⟨htally.opened, ?_⟩
  change (engine.stop content options).result.errors = [] ↔
    (engine.stop content options).result.invariantFailed = false ∧
      (engine.stop content options).result.rejectedEvents = 0
  rw [← List.length_eq_zero_iff, htally.errors]
  cases (engine.stop content options).result.invariantFailed <;> simp

/-- **When the program fails.** It ends with status 2 exactly if the arguments are wrong, and
then it writes the usage line to standard error and nothing to standard output. Otherwise it ends
with status 0 if the file opens and none of its lines brings an accepted event that leaves the
book crossed, and with status 1 if not; and it writes nothing to standard error exactly if it ends
with status 0 and no line was rejected. -/
theorem exit_status (files : String → Option (List Char)) (argv : List String) :
    ((main 𝔻 files argv).status = 2 ↔ parseArguments 𝔻 argv = none) ∧
      (parseArguments 𝔻 argv = none → (main 𝔻 files argv).out = [] ∧ (main 𝔻 files argv).err =
        "usage: datagine_replay path/to/events.csv [--anomaly-report]\n".toList) ∧
      ∀ path options, parseArguments 𝔻 argv = some (path, options) →
        ((main 𝔻 files argv).status = 0 ∨ (main 𝔻 files argv).status = 1) ∧
          ((main 𝔻 files argv).status = 0 ↔ ∃ content, files path = some content ∧
            ∀ pre parsed post, fileResults (lines content) = pre ++ parsed :: post →
              ¬CrossesAfter pre parsed) ∧
          ((main 𝔻 files argv).err = [] ↔ (main 𝔻 files argv).status = 0 ∧
            (ReplayEngine.new.replayFile path (files path) options).1.rejectedEvents = 0) := by
  refine ⟨?_, fun hargs => ?_, fun path options hargs => ?_⟩
  · rw [main]
    cases parseArguments 𝔻 argv with
    | none => exact iff_of_true rfl rfl
    | some arguments =>
        obtain ⟨hstatus, -, -⟩ := status_report arguments.2
          (ReplayEngine.new.replayFile arguments.1 (files arguments.1) arguments.2).1
        refine iff_of_false (fun htwo => ?_) (fun h => nomatch h)
        dsimp only at htwo
        omega
  · rw [main, hargs]
    exact ⟨rfl, rfl⟩
  · obtain ⟨hvalidate, hallow⟩ := checks_of_parseArguments hargs
    have hmain : main 𝔻 files argv =
        report options (ReplayEngine.new.replayFile path (files path) options).1 := by
      rw [main, hargs]
    obtain ⟨hstatus, hzero, herr⟩ := status_report options
      (ReplayEngine.new.replayFile path (files path) options).1
    rw [hmain]
    refine ⟨hstatus, ?_, ?_⟩
    · rw [hzero]
      cases files path with
      | none =>
          refine iff_of_false (fun h => ?_) (fun ⟨_, h, _⟩ => nomatch h)
          cases h.1
      | some content =>
          obtain ⟨hopened, -⟩ := replay_errors_eq_nil_iff ReplayEngine.new path content options
          have hfailed := ReplayEngine.new.invariantFailed_iff path content options
          rw [← Bool.not_eq_true, ← Bool.not_eq_true, hopened, hfailed]
          constructor
          · rintro ⟨-, hnone⟩
            refine ⟨content, rfl, fun pre parsed post hresults hcrosses => hnone ?_⟩
            exact ⟨hvalidate, hallow, pre, parsed, post, hresults, hcrosses⟩
          · rintro ⟨_, hfile, hnone⟩
            obtain rfl := Option.some.inj hfile
            refine ⟨Bool.false_ne_true, ?_⟩
            rintro ⟨-, -, pre, parsed, post, hresults, hcrosses⟩
            exact hnone pre parsed post hresults hcrosses
    · rw [herr, hzero]
      cases files path with
      | none =>
          refine iff_of_false (fun h => ?_) (fun h => ?_)
          · cases h
          · cases h.1.1
      | some content =>
          obtain ⟨hopened, hnil⟩ := replay_errors_eq_nil_iff ReplayEngine.new path content options
          rw [hnil, and_iff_right hopened]

/-! ### The flag -/

/-- What is printed of two results that differ in the anomalies only. -/
theorem report_unmonitored {result result' : ReplayResult 𝔻}
    (h : result'.unmonitored = result.unmonitored) (options options' : ReplayOptions 𝔻) :
    (report options' result').status = (report options result).status ∧
      (report options' result').err = (report options result).err ∧
      summary result' = summary result := by
  have hstatus : (if result'.unmonitored.fileOpenFailed || result'.unmonitored.invariantFailed
      then 1 else 0) = if result.unmonitored.fileOpenFailed || result.unmonitored.invariantFailed
        then 1 else 0 := by rw [h]
  have herr : unlines (result'.unmonitored.errors.map formatError) =
      unlines (result.unmonitored.errors.map formatError) := by rw [h]
  have hsummary : summary result'.unmonitored = summary result.unmonitored := by rw [h]
  exact ⟨hstatus, herr, hsummary⟩

/-- **The flag only adds lines.** With it the program ends with the same status and the same
errors, and prints the lines that it prints without and then the anomaly report. -/
theorem anomaly_report_appends (files : String → Option (List Char)) (program path : String) :
    let plain := main 𝔻 files [program, path]
    let flagged := main 𝔻 files [program, path, "--anomaly-report"]
    flagged.status = plain.status ∧ flagged.err = plain.err ∧
      ∃ rest, flagged.out = plain.out ++ rest ∧ "anomaly_count: ".toList <+: rest := by
  have hsame := (ReplayEngine.new.replayFile_withMonitoring path (files path)
    ({} : ReplayOptions 𝔻) true {}).2.1
  have hplain : main 𝔻 files [program, path] =
      report {} (ReplayEngine.new.replayFile path (files path) ({} : ReplayOptions 𝔻)).1 := rfl
  have hflagged : main 𝔻 files [program, path, "--anomaly-report"] =
      report (ReplayOptions.withMonitoring {} true {})
        (ReplayEngine.new.replayFile path (files path)
          (ReplayOptions.withMonitoring ({} : ReplayOptions 𝔻) true {})).1 := rfl
  dsimp only
  rw [hplain, hflagged]
  generalize (ReplayEngine.new.replayFile path (files path) ({} : ReplayOptions 𝔻)).1 = result,
    (ReplayEngine.new.replayFile path (files path)
      (ReplayOptions.withMonitoring ({} : ReplayOptions 𝔻) true {})).1 = result' at hsame
  obtain ⟨hstatus, herr, hsummary⟩ := report_unmonitored hsame {}
    (ReplayOptions.withMonitoring {} true {})
  refine ⟨hstatus, herr, anomalyReport result', ?_, ?_⟩
  · rw [report, report, hsummary, if_neg Bool.false_ne_true, List.append_nil]
    rfl
  · rw [anomalyReport, unlines, List.flatMap_cons, List.append_assoc, List.append_assoc]
    exact List.prefix_append _ _

/-! ### Reading the output -/

/-- The price and the quantity of a printed level. -/
def readLevel (text : List Char) : Option (Price × Quantity) :=
  match parseIntegral fromCharsInt64 (text.takeWhile (· ≠ 'x')),
    parseIntegral fromCharsUInt64 (text.dropWhile (· ≠ 'x')).tail with
  | some price, some quantity => some (⟨price⟩, ⟨quantity⟩)
  | _, _ => none

/-- The levels of a printed top of the book. -/
def readTop (text : List Char) : Option (Price × Quantity) × Option (Price × Quantity) :=
  let levels := text.drop "bid=".toList.length
  (readLevel (levels.takeWhile (· ≠ ' ')),
    readLevel ((levels.dropWhile (· ≠ ' ')).drop " ask=".toList.length))

/-- What the first four lines of the output say. -/
structure Summary where
  eventsProcessed : ℕ
  rejectedEvents : ℕ
  top : Option (Price × Quantity) × Option (Price × Quantity)
  checksum : UInt64
  deriving DecidableEq

/-- Read the output. -/
def readSummary (out : List Char) : Option Summary :=
  match lines out with
  | processed :: rejected :: top :: checksum :: _ =>
      some ⟨valueOf 10 (processed.drop "events_processed: ".toList.length),
        valueOf 10 (rejected.drop "rejected_events: ".toList.length),
        readTop (top.drop "final_top_of_book: ".toList.length),
        UInt64.ofNat (valueOf 16 (checksum.drop "final_checksum: 0x".toList.length))⟩
  | _ => none

/-- What the output shows of a level. -/
def shownLevel (level : PriceLevelView) : Price × Quantity := (level.price, level.quantity)

theorem mem_decimalInt64 {v : Int64} {c : Char} (h : c ∈ decimalInt64 v) :
    c = '-' ∨ c.isDigit = true := by
  have hdigits : ∀ {n : ℕ}, c ∈ Nat.toDigits 10 n → c.isDigit = true :=
    Nat.isDigit_of_mem_toDigits (by decide) (by decide)
  rw [decimalInt64] at h
  split_ifs at h
  · exact (List.mem_cons.mp h).imp_right hdigits
  · exact .inr (hdigits h)

/-- A printed level is made of letters, digits and minus signs. -/
theorem not_mem_appendLevel (level : Option PriceLevelView) {c : Char}
    (hc : c = ' ' ∨ c = '\n') : c ∉ appendLevel level := by
  have hother : c ∉ "none".toList ∧ c ≠ 'x' ∧ ¬(c = '-' ∨ c.isDigit = true) := by
    rcases hc with rfl | rfl <;> decide
  obtain ⟨hnone, hx, hnumber⟩ := hother
  intro h
  cases level with
  | none => exact hnone h
  | some level =>
      rcases List.mem_append.mp h with hprice | hquantity
      · exact hnumber (mem_decimalInt64 hprice)
      · rcases List.mem_cons.mp hquantity with heq | hquantity
        · exact hx heq
        · exact hnumber (.inr (Nat.isDigit_of_mem_toDigits (by decide) (by decide) hquantity))

theorem readLevel_appendLevel (level : Option PriceLevelView) :
    readLevel (appendLevel level) = level.map shownLevel := by
  cases level with
  | none => decide
  | some level =>
      have hfree : 'x' ∉ decimalInt64 level.price.ticks := by
        intro h
        exact absurd (mem_decimalInt64 h) (by decide)
      obtain ⟨htake, hdrop⟩ := cut_append_cons hfree (decimalUInt64 level.quantity.units)
      have hprice := parseIntegral_int64_iff.mpr (denotesInt64_decimal level.price.ticks)
      have hquantity := parseIntegral_uint64_iff.mpr (denotesUInt64_decimal level.quantity.units)
      rw [readLevel, appendLevel, htake, hdrop, List.tail_cons, hprice, hquantity]
      rfl

theorem readTop_formatTopOfBook (top : TopOfBook) :
    readTop (formatTopOfBook top) = (top.bid.map shownLevel, top.ask.map shownLevel) := by
  have hformat : formatTopOfBook top = "bid=".toList ++ (appendLevel top.bid ++
      ' ' :: ("ask=".toList ++ appendLevel top.ask)) := by
    rw [formatTopOfBook, List.append_assoc, List.append_assoc]
    rfl
  obtain ⟨htake, hdrop⟩ := cut_append_cons (not_mem_appendLevel top.bid (.inl rfl))
    ("ask=".toList ++ appendLevel top.ask)
  have hask : ' ' :: ("ask=".toList ++ appendLevel top.ask) =
      " ask=".toList ++ appendLevel top.ask := rfl
  rw [readTop, hformat, List.drop_left, htake, hdrop, hask, List.drop_left, readLevel_appendLevel,
    readLevel_appendLevel]

theorem lineFeed_not_mem_formatTopOfBook (top : TopOfBook) : '\n' ∉ formatTopOfBook top := by
  have hlabel : '\n' ∉ "bid=".toList ∧ '\n' ∉ " ask=".toList := by decide
  have hlevel (level : Option PriceLevelView) : '\n' ∉ appendLevel level :=
    not_mem_appendLevel level (.inr rfl)
  intro h
  rw [formatTopOfBook, List.mem_append, List.mem_append, List.mem_append] at h
  rcases h with ((h | h) | h) | h
  · exact hlabel.1 h
  · exact hlevel top.bid h
  · exact hlabel.2 h
  · exact hlevel top.ask h

theorem lineFeed_not_mem_formatChecksum (checksum : UInt64) :
    '\n' ∉ formatChecksum checksum := by
  have hlabel : '\n' ∉ "0x".toList := by decide
  have hdigit : ∀ d < 16, '\n' ≠ Nat.digitChar d := by decide
  intro h
  rw [formatChecksum, List.mem_append, List.leftpad, List.mem_append, List.mem_replicate] at h
  rcases h with h | ⟨-, h⟩ | h
  · exact hlabel h
  · cases h
  · obtain ⟨d, hd, heq⟩ := exists_of_mem_toDigits (by decide) h
    exact hdigit d hd heq

omit [DoubleArith 𝔻] in
/-- No printed line breaks. -/
theorem lineFeed_not_mem_summary (result : ReplayResult 𝔻) :
    ∀ line ∈ ["events_processed: ".toList ++ Nat.toDigits 10 result.eventsProcessed,
      "rejected_events: ".toList ++ Nat.toDigits 10 result.rejectedEvents,
      "final_top_of_book: ".toList ++ formatTopOfBook result.finalTop,
      "final_checksum: ".toList ++ formatChecksum result.finalChecksum], '\n' ∉ line := by
  have hnumber (n : ℕ) : '\n' ∉ Nat.toDigits 10 n := by
    intro h
    exact absurd (Nat.isDigit_of_mem_toDigits (by decide) (by decide) h) (by decide)
  have hlabels : '\n' ∉ "events_processed: ".toList ∧ '\n' ∉ "rejected_events: ".toList ∧
      '\n' ∉ "final_top_of_book: ".toList ∧ '\n' ∉ "final_checksum: ".toList := by decide
  obtain ⟨hprocessed, hrejected, htop, hchecksum⟩ := hlabels
  simp only [List.forall_mem_cons, List.mem_append, not_or]
  refine ⟨⟨hprocessed, hnumber _⟩, ⟨hrejected, hnumber _⟩,
    ⟨htop, lineFeed_not_mem_formatTopOfBook _⟩,
    ⟨hchecksum, lineFeed_not_mem_formatChecksum _⟩, List.forall_mem_nil _⟩

/-- **The output is unambiguous.** Whatever was replayed and with whatever options, the counts, the
prices and quantities at the top of the book and the checksum can be read off the output. -/
theorem report_unambiguous (options : ReplayOptions 𝔻) (result : ReplayResult 𝔻) :
    readSummary (report options result).out =
      some ⟨result.eventsProcessed, result.rejectedEvents,
        (result.finalTop.bid.map shownLevel, result.finalTop.ask.map shownLevel),
        result.finalChecksum⟩ := by
  have hlines := lines_unlines_append (lineFeed_not_mem_summary result)
    (if options.enableAnomalyDetection then anomalyReport result else [])
  have hout : (report options result).out = summary result ++
      if options.enableAnomalyDetection then anomalyReport result else [] := rfl
  have hchecksum : "final_checksum: ".toList ++ formatChecksum result.finalChecksum =
      "final_checksum: 0x".toList ++ (Nat.toDigits 16 result.finalChecksum.toNat).leftpad 16 '0' :=
    rfl
  rw [readSummary, hout, summary, hlines]
  simp only [List.cons_append]
  rw [List.drop_left, List.drop_left, List.drop_left, hchecksum, List.drop_left,
    readTop_formatTopOfBook, valueOf_toDigits (by decide) (by decide),
    valueOf_toDigits (by decide) (by decide), valueOf_leftpad,
    valueOf_toDigits (by decide) (by decide), UInt64.ofNat_toNat]

/-! ### The printed reasons -/

theorem reasonBefore_iff {lhs rhs : String × ℕ} :
    reasonBefore lhs rhs ↔ rhs.2 < lhs.2 ∨ lhs.2 = rhs.2 ∧ lhs.1 < rhs.1 := by
  rw [reasonBefore]
  split_ifs with hcount
  · rw [or_iff_left fun h => hcount h.1]
  · obtain hcount := not_ne_iff.mp hcount
    rw [hcount, or_iff_right (Nat.lt_irrefl _), and_iff_right rfl]

/-- Of two reasons with different names, one comes first. -/
theorem reasonBefore_of_not {lhs rhs : String × ℕ} (hnot : ¬reasonBefore rhs lhs)
    (hne : lhs.1 ≠ rhs.1) : reasonBefore lhs rhs := by
  rw [reasonBefore_iff] at hnot ⊢
  push Not at hnot
  obtain ⟨hle, hname⟩ := hnot
  rcases Nat.lt_or_eq_of_le hle with hlt | heq
  · exact .inl hlt
  · exact .inr ⟨heq.symm, lt_of_le_of_ne (hname heq) hne⟩

instance : Std.Total notAfter where
  total lhs rhs := by
    rw [notAfter, notAfter, reasonBefore_iff, reasonBefore_iff, ← not_and_or]
    rintro ⟨hlhs | ⟨hcount, hlhs⟩, hrhs | ⟨hcount', hrhs⟩⟩
    · exact Nat.lt_asymm hlhs hrhs
    · exact Nat.ne_of_lt hlhs hcount'
    · exact Nat.ne_of_lt hrhs hcount
    · exact lt_asymm hlhs hrhs

instance : IsTrans (String × ℕ) notAfter where
  trans first second third hfirst hsecond := by
    rw [notAfter, reasonBefore_iff] at hfirst hsecond ⊢
    push Not at hfirst hsecond ⊢
    refine ⟨Nat.le_trans hsecond.1 hfirst.1, fun hcount => ?_⟩
    have hbetween : second.2 = first.2 := Nat.le_antisymm hfirst.1 (hcount ▸ hsecond.1)
    exact (hfirst.2 hbetween).trans (hsecond.2 (hcount.trans hbetween.symm))

section Ranking

variable (counts : Finmap fun _ : String => ℕ)

theorem mem_reasonsOf {entry : String × ℕ} :
    entry ∈ reasonsOf counts ↔ entry.1 ∈ counts ∧ entry.2 = (counts.lookup entry.1).getD 0 := by
  rw [reasonsOf, List.mem_map]
  constructor
  · rintro ⟨reason, hreason, rfl⟩
    exact ⟨Finmap.mem_keys.mp ((Finset.mem_sort _).mp hreason), rfl⟩
  · rintro ⟨hmem, hcount⟩
    exact ⟨entry.1, (Finset.mem_sort _).mpr (Finmap.mem_keys.mpr hmem), Prod.ext rfl hcount.symm⟩

/-- No reason is listed twice. -/
theorem nodup_reasonsOf : (reasonsOf counts).Pairwise fun lhs rhs => lhs.1 ≠ rhs.1 := by
  rw [reasonsOf, List.pairwise_map]
  exact Finset.sort_nodup _ _

/-- **The sorted reasons.** Each comes before all that follow. -/
theorem pairwise_sorted : ((reasonsOf counts).insertionSort notAfter).Pairwise reasonBefore := by
  have hsorted := List.pairwise_insertionSort notAfter (reasonsOf counts)
  have hnodup : ((reasonsOf counts).insertionSort notAfter).Pairwise
      fun lhs rhs => lhs.1 ≠ rhs.1 :=
    (List.perm_insertionSort notAfter _).symm.pairwise (nodup_reasonsOf counts) fun h => h.symm
  exact hsorted.imp₂ (fun _ _ => reasonBefore_of_not) hnodup

/-- A reason that is not printed comes behind five that are. -/
theorem left_out_behind {entry : String × ℕ} (hmem : entry ∈ reasonsOf counts)
    (hout : entry ∉ topReasons counts) :
    (topReasons counts).length = 5 ∧ ∀ top ∈ topReasons counts, reasonBefore top entry := by
  have hsplit := List.take_append_drop 5 ((reasonsOf counts).insertionSort notAfter)
  have hpairwise := pairwise_sorted counts
  have hsorted : entry ∈ (reasonsOf counts).insertionSort notAfter :=
    (List.mem_insertionSort notAfter).mpr hmem
  rw [← hsplit] at hpairwise hsorted
  have hdrop := (List.mem_append.mp hsorted).resolve_left hout
  refine ⟨?_, fun top htop => (List.pairwise_append.mp hpairwise).2.2 top htop entry hdrop⟩
  have hlength := List.length_pos_of_mem hdrop
  rw [List.length_drop] at hlength
  rw [topReasons, List.length_take]
  omega

end Ranking

omit [DoubleArith 𝔻] in
/-- The reasons that are counted are those of the anomalies. -/
theorem mem_summarizeAnomalyReasons {anomalies : List (AnomalyEvent 𝔻)} {reason : String} :
    reason ∈ summarizeAnomalyReasons anomalies ↔
      ∃ anomaly ∈ anomalies, anomaly.reason = reason := by
  induction anomalies using List.reverseRecOn with
  | nil => exact iff_of_false Finmap.notMem_empty fun ⟨_, h, _⟩ => nomatch h
  | append_singleton anomalies anomaly ih =>
      rw [summarizeAnomalyReasons_append, List.foldl_cons, List.foldl_nil, countReason,
        Finmap.mem_insert, ih]
      simp only [List.mem_append, List.mem_singleton, or_and_right, exists_or, exists_eq_left]
      rw [or_comm, eq_comm]

/-- The counts that a replay returns are those of its anomalies. -/
theorem replayFile_reasons (engine : ReplayEngine) (inputPath : String)
    (file : Option (List Char)) (options : ReplayOptions 𝔻) :
    (engine.replayFile inputPath file options).1.anomalyReasonCounts =
      summarizeAnomalyReasons (engine.replayFile inputPath file options).1.anomalies := by
  cases file with
  | none => rfl
  | some content =>
      rw [engine.replayFile_eq]
      exact (engine.stop_tally content options).reasons

end ReplayTool

end Datagine
