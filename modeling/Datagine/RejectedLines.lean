import Datagine.ReplayRuns

/-!
# Rejected Lines

A rejected line, malformed or refused by the book, is counted and reported and has no other
effect. So the replay of a file and the replay of the same file without its rejected lines
go through the same states, up to the error list: the two loops are aligned line by line,
with the second one standing still on a rejected line.

## Main results

* `rejected_lines_leave_no_trace`: deleting the lines that a replay reported as rejected
  changes nothing but the error reports.
-/

namespace Datagine

open Mealy Text

variable {𝔻 : Type}

/-! ### The lines that are kept -/

/-- The line with this number is reported as malformed or refused by the book. -/
def ReplayResult.reportsRejected (result : ReplayResult 𝔻) (lineNumber : ℕ) : Bool :=
  result.errors.any fun error => error.isRejection && error.lineNumber = lineNumber

/-- The rows, numbered from `n`, that are not reported as rejected. -/
def ReplayResult.keptRows (result : ReplayResult 𝔻) (n : ℕ) (rows : List (List Char)) :
    List (List Char) :=
  ((rows.zipIdx n).filter fun x => !result.reportsRejected x.2).map Prod.fst

/-- The results of data lines numbered from `n`. -/
def rowResults (n : ℕ) (rows : List (List Char)) : List CsvParseResult :=
  rows.mapIdx fun i row => parseRow (i + n) row

theorem rowResults_cons (n : ℕ) (row : List Char) (rows : List (List Char)) :
    rowResults n (row :: rows) = parseRow n row :: rowResults (n + 1) rows := by
  have hshift : ∀ i, i + 1 + n = i + (n + 1) := fun i => by omega
  simp only [rowResults, List.mapIdx_cons, Nat.zero_add, hshift]

/-- The event of a line does not depend on its number. -/
theorem parseRow_event (n m : ℕ) (row : List Char) :
    (parseRow n row).event = (parseRow m row).event := by
  rw [parseRow, parseRow]
  cases parseColumns (splitCsvColumns row) <;> rfl

namespace ReplayResult

variable {result : ReplayResult 𝔻} {n : ℕ} {row : List Char} {rows : List (List Char)}

theorem keptRows_cons_true (h : result.reportsRejected n = true) :
    result.keptRows n (row :: rows) = result.keptRows (n + 1) rows := by
  simp [keptRows, h]

theorem keptRows_cons_false (h : result.reportsRejected n = false) :
    result.keptRows n (row :: rows) = row :: result.keptRows (n + 1) rows := by
  simp [keptRows, h]

theorem keptRows_eq_self (h : ∀ k, n ≤ k → result.reportsRejected k = false) :
    result.keptRows n rows = rows := by
  induction rows generalizing n with
  | nil => rfl
  | cons row rows ih =>
      rw [keptRows_cons_false (h n le_rfl), ih fun k hk => h k (Nat.le_of_succ_le hk)]

theorem reportsRejected_eq_false (h : ∀ error ∈ result.errors, error.isRejection = true →
    error.lineNumber ≠ n) : result.reportsRejected n = false := by
  rw [reportsRejected, List.any_eq_false]
  intro error hmem hboth
  rw [Bool.and_eq_true, decide_eq_true_eq] at hboth
  exact h error hmem hboth.1 hboth.2

theorem reportsRejected_of_mem {error : ReplayError} (h : error ∈ result.errors)
    (hrejection : error.isRejection = true) (hnumber : error.lineNumber = n) :
    result.reportsRejected n = true := by
  rw [reportsRejected, List.any_eq_true]
  exact ⟨error, h, by simp [hrejection, hnumber]⟩

end ReplayResult

/-! ### The errors of a run -/

variable [DoubleArith 𝔻] {options : ReplayOptions 𝔻}

namespace ReplayState

/-- A pass only adds errors, under the number of its line. -/
theorem step_errors (options : ReplayOptions 𝔻) (s : ReplayState 𝔻) {parsed : CsvParseResult}
    (h : parsed.IsLine) :
    ∃ errors, (s.step options parsed).2.result.errors = s.result.errors ++ errors ∧
      ∀ error ∈ errors, error.lineNumber = parsed.lineNumber := by
  rcases step_cases options s h with
    ⟨-, error, -, hline, hstep⟩ | ⟨event, -, -, hstep⟩
  · rw [hstep]
    exact ⟨[error], rfl, fun e he => List.mem_singleton.mp he ▸ congrArg Prod.fst hline⟩
  · rw [hstep, accept_eq]
    split_ifs
    · refine ⟨[_], rfl, fun e he => ?_⟩
      obtain rfl := List.mem_singleton.mp he
      rfl
    · exact ⟨[], (List.append_nil _).symm, fun e he => absurd he List.not_mem_nil⟩

/-- Every error so far is about a line before the `n`-th. -/
def ErrorsBefore (n : ℕ) (s : ReplayState 𝔻) : Prop :=
  ∀ error ∈ s.result.errors, error.lineNumber < n

theorem ErrorsBefore.step {n : ℕ} {s : ReplayState 𝔻} (h : ErrorsBefore n s)
    (options : ReplayOptions 𝔻) (row : List Char) :
    ErrorsBefore (n + 1) (s.step options (parseRow n row)).2 := by
  obtain ⟨new, hnew, hnumber⟩ := step_errors options s (parseRow_isLine n row)
  rw [(parseRow_fields n row).1] at hnumber
  intro error hmem
  rw [hnew] at hmem
  rcases List.mem_append.mp hmem with hmem | hmem
  · exact Nat.lt_succ_of_lt (h error hmem)
  · exact Nat.lt_succ_of_le (hnumber error hmem).le

/-- An accepted line is not reported as rejected. -/
theorem accept_errors {s : ReplayState 𝔻} {parsed : CsvParseResult} {event : MarketEvent}
    {error : ReplayError} (h : error ∈ (accept options parsed event s).2.result.errors)
    (hrejection : error.isRejection = true) : error ∈ s.result.errors := by
  rw [accept_eq] at h
  split_ifs at h
  · rcases List.mem_append.mp h with hmem | hmem
    · exact hmem
    · obtain rfl := List.mem_singleton.mp hmem
      cases hrejection
  · exact h

/-- A run over lines numbered from `n` only adds errors numbered from `n`. -/
theorem haltState_errors (options : ReplayOptions 𝔻) (s : ReplayState 𝔻) (n : ℕ)
    (rows : List (List Char)) :
    ∃ errors, (haltState (step options) s (rowResults n rows)).result.errors =
        s.result.errors ++ errors ∧ ∀ error ∈ errors, n ≤ error.lineNumber := by
  induction rows generalizing s n with
  | nil => exact ⟨[], (List.append_nil _).symm, fun e he => absurd he List.not_mem_nil⟩
  | cons row rows ih =>
      obtain ⟨new, hnew, hnumber⟩ := step_errors options s (parseRow_isLine n row)
      rw [(parseRow_fields n row).1] at hnumber
      rw [rowResults_cons]
      cases hstop : (s.step options (parseRow n row)).1 with
      | true =>
          rw [haltState_cons_true hstop]
          exact ⟨new, hnew, fun e he => (hnumber e he).ge⟩
      | false =>
          obtain ⟨later, hlater, hge⟩ := ih (s.step options (parseRow n row)).2 (n + 1)
          rw [haltState_cons_false hstop]
          refine ⟨new ++ later, by rw [hlater, hnew, List.append_assoc], fun e he => ?_⟩
          rcases List.mem_append.mp he with hmem | hmem
          · exact (hnumber e hmem).ge
          · exact Nat.le_of_succ_le (hge e hmem)

/-! ### Two replays side by side -/

/-- `t` is `s` with no rejected line and other error reports. -/
def SameTrace (s t : ReplayState 𝔻) : Prop :=
  ∃ errors, t = { s with result := { s.result with rejectedEvents := 0, errors := errors } }

variable {s t : ReplayState 𝔻}

theorem SameTrace.reject (h : SameTrace s t) (error : ReplayError) :
    SameTrace (s.reject error) t := by
  obtain ⟨errors, rfl⟩ := h
  exact ⟨errors, rfl⟩

theorem step_accepted (s : ReplayState 𝔻) {parsed : CsvParseResult} {event : MarketEvent}
    (h : parsed.IsLine) (hevent : parsed.event = some event)
    (happlied : (s.book.apply event).1 = .applied) :
    s.step options parsed =
      accept options parsed event { s with book := (s.book.apply event).2 } := by
  rcases step_cases options s h with ⟨hrejects, -⟩ | ⟨event', hevent', -, hstep⟩
  · exact absurd happlied (hrejects event hevent)
  · obtain rfl := Option.some.inj (hevent.symm.trans hevent')
    exact hstep

/-- An accepted line does the same in both replays, whatever its number. -/
theorem SameTrace.step (h : SameTrace s t) (options : ReplayOptions 𝔻) {n m : ℕ}
    {row : List Char} {event : MarketEvent} (hevent : (parseRow n row).event = some event)
    (happlied : (s.book.apply event).1 = .applied) :
    (t.step options (parseRow m row)).1 = (s.step options (parseRow n row)).1 ∧
      SameTrace (s.step options (parseRow n row)).2 (t.step options (parseRow m row)).2 := by
  have hevent' : (parseRow m row).event = some event := (parseRow_event m n row).trans hevent
  obtain ⟨errors, ht⟩ := h
  have hbook : t.book = s.book := by rw [ht]
  rw [step_accepted s (parseRow_isLine n row) hevent happlied,
    step_accepted t (parseRow_isLine m row) hevent' (hbook ▸ happlied), accept_eq, accept_eq]
  subst ht
  dsimp only
  split_ifs
  · exact ⟨rfl, _, rfl⟩
  · exact ⟨rfl, _, rfl⟩

/-- **The two loops, line by line.** The replay of some rows, numbered from `n`, and the
replay of those of them that the first one does not report, numbered from `m`, leave the same
trace. -/
theorem SameTrace.haltState {n : ℕ} (h : SameTrace s t) (options : ReplayOptions 𝔻)
    (hold : ErrorsBefore n s) (m : ℕ) (rows : List (List Char)) :
    let final := haltState (ReplayState.step options) s (rowResults n rows)
    SameTrace final
      (haltState (ReplayState.step options) t (rowResults m (final.result.keptRows n rows))) := by
  dsimp only
  induction rows generalizing s t n m with
  | nil => exact h
  | cons row rows ih =>
      have hold' := hold.step options row
      obtain ⟨later, herrors, hlater⟩ := haltState_errors options
        (s.step options (parseRow n row)).2 (n + 1) rows
      rw [rowResults_cons]
      rcases step_cases options s (parseRow_isLine n row) with
        ⟨-, error, hrejection, hline, hstep⟩ | ⟨event, hevent, happlied, hstep⟩
      · -- the second replay stands still on a rejected line
        have hstop : (s.step options (parseRow n row)).1 = false := by rw [hstep]
        have hsame : SameTrace (s.step options (parseRow n row)).2 t := by
          rw [hstep]
          exact h.reject error
        rw [haltState_cons_false hstop, ReplayResult.keptRows_cons_true]
        · exact ih hsame hold' m
        · have hnumber : error.lineNumber = n :=
            (congrArg Prod.fst hline).trans (parseRow_fields n row).1
          refine ReplayResult.reportsRejected_of_mem ?_ hrejection hnumber
          rw [herrors, hstep]
          exact List.mem_append_left _ (List.mem_append_right _ List.mem_cons_self)
      · have hearlier : ∀ error ∈ (s.step options (parseRow n row)).2.result.errors,
            error.isRejection = true → error.lineNumber < n := by
          intro error hmem hrejection
          rw [hstep] at hmem
          have hmem' := accept_errors hmem hrejection
          exact hold error hmem'
        obtain ⟨hflag, hsame⟩ := h.step options (m := m) hevent happlied
        cases hstop : (s.step options (parseRow n row)).1 with
        | true =>
            -- both loops are left here, and no later line is reported
            rw [haltState_cons_true hstop, ReplayResult.keptRows_eq_self, rowResults_cons,
              haltState_cons_true (hflag.trans hstop)]
            · exact hsame
            · intro k hk
              refine ReplayResult.reportsRejected_eq_false fun error hmem hrejection => ?_
              exact (lt_of_lt_of_le (hearlier error hmem hrejection) hk).ne
        | false =>
            rw [haltState_cons_false hstop, ReplayResult.keptRows_cons_false, rowResults_cons,
              haltState_cons_false (hflag.trans hstop)]
            · exact ih hsame hold' (m + 1)
            · refine ReplayResult.reportsRejected_eq_false fun error hmem hrejection => ?_
              rw [herrors] at hmem
              rcases List.mem_append.mp hmem with hmem | hmem
              · exact (hearlier error hmem hrejection).ne
              · exact Nat.ne_of_gt (hlater error hmem)

end ReplayState

/-- The replay of a file with a valid header, as a run over its data lines. -/
theorem replayFile_rows (engine : ReplayEngine) (inputPath : String) (options : ReplayOptions 𝔻)
    {content header : List Char} {rows : List (List Char)}
    (hlines : lines content = header :: rows) (hheader : trim header = expectedHeader) :
    (engine.replayFile inputPath (some content) options).1 =
      let s := haltState (ReplayState.step options) (engine.start options) (rowResults 2 rows)
      s.result.finish s.book := by
  rw [ReplayEngine.replayFile_eq, hlines, fileResults, if_pos hheader]
  rfl

/-- The lines of a file with a valid header, less those a replay of it reports as rejected:
the header and the kept rows. -/
theorem lines_deleteLines_reported (engine : ReplayEngine) (inputPath : String)
    (options : ReplayOptions 𝔻) {content header : List Char} {rows : List (List Char)}
    (hlines : lines content = header :: rows) (hheader : trim header = expectedHeader) :
    let result := (engine.replayFile inputPath (some content) options).1
    lines (deleteLines result.reportsRejected 1 content) = header :: result.keptRows 2 rows := by
  intro result
  have hfirst : result.reportsRejected 1 = false := by
    obtain ⟨errors, herrors, hge⟩ :=
      ReplayState.haltState_errors options (engine.start options) 2 rows
    refine ReplayResult.reportsRejected_eq_false fun error hmem _ => ?_
    have hresult : result.errors = (haltState (ReplayState.step options) (engine.start options)
        (rowResults 2 rows)).result.errors :=
      (congrArg ReplayResult.errors
        (replayFile_rows engine inputPath options hlines hheader)).trans rfl
    rw [hresult, herrors] at hmem
    exact Nat.ne_of_gt (hge error hmem)
  rw [lines_deleteLines, hlines]
  simp [ReplayResult.keptRows, hfirst]

/-- **Rejected lines leave no trace.** For a file with a valid header, replaying the file
without the data lines that the replay of the whole file reports as malformed or refused
gives the same outcome, with no line rejected, whatever the engines replayed before. And in
either book, any operation that is not answered `applied` leaves the whole state as it was. -/
theorem rejected_lines_leave_no_trace (engine engine' : ReplayEngine)
    (inputPath inputPath' : String) (options : ReplayOptions 𝔻) {content header : List Char}
    {rows : List (List Char)} (hlines : lines content = header :: rows)
    (hheader : trim header = expectedHeader) :
    (let full := (engine.replayFile inputPath (some content) options).1
      let kept := (engine'.replayFile inputPath'
        (some (deleteLines full.reportsRejected 1 content)) options).1
      kept.eventsProcessed = full.eventsProcessed ∧
        kept.invariantFailed = full.invariantFailed ∧ kept.finalTop = full.finalTop ∧
        kept.finalSnapshot = full.finalSnapshot ∧ kept.finalChecksum = full.finalChecksum ∧
        kept.anomalies = full.anomalies ∧ kept.anomalyReasonCounts = full.anomalyReasonCounts ∧
        kept.rejectedEvents = 0) ∧
      (∀ (b : LimitOrderBook) (op : BookOp) (answer : BookResult),
        (b.exec op).1 = some answer → answer ≠ .applied → (b.exec op).2 = b) ∧
      ∀ (b : PooledLimitOrderBook) (op : BookOp) (answer : BookResult),
        (b.exec op).1 = some answer → answer ≠ .applied → (b.exec op).2 = b := by
  refine ⟨?_, fun b op answer => LimitOrderBook.exec_eq_self,
    fun b op answer => PooledLimitOrderBook.exec_eq_self⟩
  have hstart : ReplayState.SameTrace (engine.start options) (engine'.start options) := ⟨[], rfl⟩
  have hold : ReplayState.ErrorsBefore 2 (engine.start options) := fun error hmem =>
    absurd hmem List.not_mem_nil
  obtain ⟨errors, htrace⟩ := hstart.haltState options hold 2 rows
  have hdeleted := lines_deleteLines_reported engine inputPath options hlines hheader
  intro full kept
  have hfull : full = _ := replayFile_rows engine inputPath options hlines hheader
  have hkept : kept = _ := replayFile_rows engine' inputPath' options hdeleted hheader
  have hrows : full.keptRows 2 rows = (haltState (ReplayState.step options)
      (engine.start options) (rowResults 2 rows)).result.keptRows 2 rows := by
    rw [hfull]
    rfl
  rw [hkept, hrows, htrace, hfull]
  exact ⟨rfl, rfl, rfl, rfl, rfl, rfl, rfl, rfl⟩

/-- A feed with a malformed line and a refused event between two accepted events. -/
def mixedFeed : List Char :=
  ("timestamp_ns,event_type,order_id,side,price,quantity\n" ++
    "1,ADD,1,B,10,7\n1,ADD,1\n2,CANCEL,9,,,\n3,EXECUTE,1,,10,2\n").toList

/-- Its replay rejects two lines, and without them both events are still processed. -/
theorem replay_mixedFeed :
    let full := (ReplayEngine.new.replayFile "feed.csv" (some mixedFeed)
      ({} : ReplayOptions Float)).1
    let kept := (ReplayEngine.new.replayFile "kept.csv"
      (some (deleteLines full.reportsRejected 1 mixedFeed)) ({} : ReplayOptions Float)).1
    full.rejectedEvents = 2 ∧ full.eventsProcessed = 2 ∧ kept.eventsProcessed = 2 ∧
      kept.rejectedEvents = 0 := by
  intro full kept
  have hrows : lines mixedFeed = "timestamp_ns,event_type,order_id,side,price,quantity".toList ::
      ["1,ADD,1,B,10,7".toList, "1,ADD,1".toList, "2,CANCEL,9,,,".toList,
        "3,EXECUTE,1,,10,2".toList] := by
    decide +kernel
  obtain ⟨⟨hevents, -, -, -, -, -, -, hrejected⟩, -⟩ :=
    rejected_lines_leave_no_trace ReplayEngine.new ReplayEngine.new "feed.csv" "kept.csv"
      ({} : ReplayOptions Float) hrows (by decide +kernel)
  obtain ⟨hreported, htwo⟩ : full.rejectedEvents = 2 ∧ full.eventsProcessed = 2 := by
    decide +kernel
  exact ⟨hreported, htwo, hevents.trans htwo, hrejected⟩

end Datagine
