import Datagine.AnomalyDetector
import Datagine.CsvParser

/-!
# The Replay Engine

The model of `replay/replay_engine.cpp`. The loop of `replay_file` reads a result from the
parser, applies its event to the book, shows an accepted event to the anomaly monitor and
checks the book; `ReplayState.step` is one pass through the body of that loop, and its flag
says whether the loop is left by `break`. The loop itself is a recursion on the unread input
of an open parser, so it terminates on every file.

A file is the text at the input path, or `none` when it cannot be opened.
-/

namespace Datagine

/-! ### The checksum -/

/-- `kFnvOffsetBasis`. -/
def fnvOffsetBasis : UInt64 := 14695981039346656037

/-- `kFnvPrime`. -/
def fnvPrime : UInt64 := 1099511628211

/-- `hash_byte`. -/
def hashByte (hash : UInt64) (byte : UInt8) : UInt64 := (hash ^^^ byte.toUInt64) * fnvPrime

/-- `hash_u64`: the eight bytes of the value, the lowest first. -/
def hashU64 (hash value : UInt64) : UInt64 :=
  ([0, 8, 16, 24, 32, 40, 48, 56] : List UInt64).foldl
    (fun hash shift => hashByte hash ((value >>> shift) &&& 0xff).toUInt8) hash

/-- `hash_i64`. -/
def hashI64 (hash : UInt64) (value : Int64) : UInt64 := hashU64 hash value.toUInt64

/-- The body of the loop of `hash_price_level`. -/
def hashOrder (hash : UInt64) (order : OrderView) : UInt64 :=
  let hash := hashU64 hash order.orderId.value
  let hash := hashI64 hash order.timestamp.nanoseconds
  hashU64 hash order.quantity.units

/-- `hash_price_level`. -/
def hashPriceLevel (hash : UInt64) (level : PriceLevelSnapshot) : UInt64 :=
  let hash := hashI64 hash level.price.ticks
  let hash := hashU64 hash level.quantity.units
  let hash := hashU64 hash (UInt64.ofNat level.orders.length)
  level.orders.foldl hashOrder hash

/-- The levels of one side, each behind the tag of the side. -/
def hashSide (tag : Char) (levels : List PriceLevelSnapshot) (hash : UInt64) : UInt64 :=
  levels.foldl (fun hash level => hashPriceLevel (hashByte hash tag.toUInt8) level)
    (hashU64 hash (UInt64.ofNat levels.length))

/-- `checksum_snapshot`. -/
def checksumSnapshot (snapshot : BookSnapshot) : UInt64 :=
  let hash := hashByte fnvOffsetBasis 'D'.toUInt8
  let hash := hashByte hash 'G'.toUInt8
  let hash := hashSide 'B' snapshot.bids hash
  hashSide 'A' snapshot.asks hash

/-- `checksum_book`. -/
def checksumBook (book : LimitOrderBook) : UInt64 := checksumSnapshot book.snapshot

/-! ### Options and results -/

/-- What an error of a replay is about. -/
inductive ReplayErrorType
  | parseError
  | applyRejected
  | invariantFailure
  | fileOpenFailure
  deriving DecidableEq, Repr

/-- An error of a replay. -/
structure ReplayError where
  type : ReplayErrorType
  lineNumber : ℕ
  message : String
  rawRow : List Char
  deriving DecidableEq, Repr

/-- The options of a replay. -/
structure ReplayOptions (𝔻 : Type) [DoubleArith 𝔻] where
  invariantOptions : InvariantOptions := {}
  validateAfterApply : Bool := true
  enableAnomalyDetection : Bool := false
  anomalyConfig : AnomalyConfig 𝔻 := {}

/-- The outcome of a replay. -/
structure ReplayResult (𝔻 : Type) where
  eventsProcessed : ℕ := 0
  rejectedEvents : ℕ := 0
  fileOpenFailed : Bool := false
  invariantFailed : Bool := false
  finalChecksum : UInt64 := 0
  finalTop : TopOfBook := ⟨none, none⟩
  finalSnapshot : BookSnapshot := ⟨[], []⟩
  errors : List ReplayError := []
  anomalies : List (AnomalyEvent 𝔻) := []
  anomalyReasonCounts : Finmap fun _ : String => ℕ := ∅

namespace ReplayResult

variable {𝔻 : Type}

/-- The loop over the anomalies of one event. -/
def addAnomalies (result : ReplayResult 𝔻) (anomalies : List (AnomalyEvent 𝔻)) :
    ReplayResult 𝔻 :=
  anomalies.foldl (fun result anomaly =>
    { result with
      anomalyReasonCounts := countReason result.anomalyReasonCounts anomaly.reason
      anomalies := result.anomalies ++ [anomaly] }) result

/-- The final views of the book. -/
def finish (result : ReplayResult 𝔻) (book : LimitOrderBook) : ReplayResult 𝔻 :=
  { result with
    finalTop := book.topOfBook
    finalSnapshot := book.snapshot
    finalChecksum := checksumSnapshot book.snapshot }

end ReplayResult

/-! ### The loop -/

/-- The variables of the loop of `replay_file`, besides the parser. -/
structure ReplayState (𝔻 : Type) [DoubleArith 𝔻] where
  book : LimitOrderBook
  anomalyMonitor : AnomalyMonitor 𝔻
  result : ReplayResult 𝔻

variable {𝔻 : Type} [DoubleArith 𝔻]

namespace ReplayState

/-- A rejected line is counted and reported. -/
def reject (s : ReplayState 𝔻) (error : ReplayError) : ReplayState 𝔻 :=
  { s with result := { s.result with
      rejectedEvents := s.result.rejectedEvents + 1
      errors := s.result.errors ++ [error] } }

/-- The anomaly monitor sees an accepted event. -/
def observe (options : ReplayOptions 𝔻) (event : MarketEvent) (s : ReplayState 𝔻) :
    ReplayState 𝔻 :=
  if options.enableAnomalyDetection then
    let (anomalies, monitor) := s.anomalyMonitor.observe event s.book
    { s with anomalyMonitor := monitor, result := s.result.addAnomalies anomalies }
  else s

/-- A failed check of the book is reported. -/
def fail (parsed : CsvParseResult) (s : ReplayState 𝔻) : ReplayState 𝔻 :=
  { s with result := { s.result with
      invariantFailed := true
      errors := s.result.errors ++
        [⟨.invariantFailure, parsed.lineNumber, "book invariant validation failed",
          parsed.rawRow⟩] } }

/-- The check of the book after an accepted event; a failure leaves the loop. -/
def validate (options : ReplayOptions 𝔻) (parsed : CsvParseResult) (s : ReplayState 𝔻) :
    Bool × ReplayState 𝔻 :=
  if options.validateAfterApply && !s.book.validateInvariants options.invariantOptions then
    (true, s.fail parsed)
  else (false, s)

/-- The body of the loop behind an accepted `apply`. -/
def accept (options : ReplayOptions 𝔻) (parsed : CsvParseResult) (event : MarketEvent)
    (s : ReplayState 𝔻) : Bool × ReplayState 𝔻 :=
  validate options parsed <| observe options event
    { s with result := { s.result with eventsProcessed := s.result.eventsProcessed + 1 } }

/-- The body of the loop on a result that is not the end of the file, and whether the loop
is left. -/
def step (options : ReplayOptions 𝔻) (s : ReplayState 𝔻) (parsed : CsvParseResult) :
    Bool × ReplayState 𝔻 :=
  if parsed.status = .malformedRow then
    (false, s.reject ⟨.parseError, parsed.lineNumber, parsed.message, parsed.rawRow⟩)
  else
    match parsed.event with
    -- the source dereferences the event; a result with status `event` carries one
    | none => (false, s)
    | some event =>
        let (applyResult, book) := s.book.apply event
        let s := { s with book := book }
        if applyResult ≠ .applied then
          (false, s.reject ⟨.applyRejected, parsed.lineNumber,
            "book rejected event: " ++ applyResult.toText, parsed.rawRow⟩)
        else accept options parsed event s

end ReplayState

namespace CsvParser

/-- The length of the unread input. -/
def unread (parser : CsvParser) : ℕ := (parser.input.getD []).length

theorem nextRow_unread (parser : CsvParser) (stream : List Char)
    (h : (parser.nextRow stream).1.status ≠ .endOfFile) :
    (parser.nextRow stream).2.isOpen = true ∧
      (parser.nextRow stream).2.unread < stream.length := by
  rw [nextRow] at h ⊢
  cases hline : Text.getline stream with
  | none => simp [hline, endOfFile] at h
  | some r => exact ⟨rfl, Text.length_getline hline⟩

/-- A call of `next` on an open stream that does not report the end has read a line. -/
theorem next_unread (parser : CsvParser) (hopen : parser.isOpen = true)
    (h : parser.next.1.status ≠ .endOfFile) :
    parser.next.2.isOpen = true ∧ parser.next.2.unread < parser.unread := by
  obtain ⟨stream, hinput⟩ := Option.isSome_iff_exists.mp hopen
  have hunread : parser.unread = stream.length := by rw [unread, hinput, Option.getD_some]
  rw [hunread]
  rw [next, hinput] at h ⊢
  dsimp only at h ⊢
  split_ifs at h ⊢ with hchecked hvalid
  · cases hline : Text.getline stream with
    | none => simp [hline, endOfFile] at h
    | some r =>
        have hlen := Text.length_getline hline
        simp only [hline] at h ⊢
        split_ifs at h ⊢
        · exact ⟨rfl, hlen⟩
        · obtain ⟨hopen', hlt⟩ := nextRow_unread _ r.2 h
          exact ⟨hopen', hlt.trans hlen⟩
  · exact absurd rfl h
  · exact nextRow_unread parser stream h

end CsvParser

/-- The loop of `replay_file`: the parser and the variables as the loop leaves them. -/
def replayLoop (options : ReplayOptions 𝔻) (parser : CsvParser) (hopen : parser.isOpen = true)
    (s : ReplayState 𝔻) : CsvParser × ReplayState 𝔻 :=
  if hend : parser.next.1.status = .endOfFile then (parser.next.2, s)
  else if (s.step options parser.next.1).1 then (parser.next.2, (s.step options parser.next.1).2)
  else
    replayLoop options parser.next.2 (parser.next_unread hopen hend).1
      (s.step options parser.next.1).2
termination_by parser.unread
decreasing_by exact (parser.next_unread hopen hend).2

/-- The state of a `ReplayEngine`. -/
structure ReplayEngine where
  book : LimitOrderBook

namespace ReplayEngine

/-- A freshly constructed engine. -/
def new : ReplayEngine := ⟨.empty⟩

/-- The loop variables when `replay_file` enters its loop. -/
def start (engine : ReplayEngine) (options : ReplayOptions 𝔻) : ReplayState 𝔻 :=
  ⟨engine.book.clear, .new options.anomalyConfig, {}⟩

/-- The parser as the loop of `replay_file` leaves it on a file that opens. -/
def replayParser (engine : ReplayEngine) (content : List Char) (options : ReplayOptions 𝔻) :
    CsvParser :=
  (replayLoop options (.new (some content)) rfl (engine.start options)).1

/-- `replay_file`. -/
def replayFile (engine : ReplayEngine) (inputPath : String) (file : Option (List Char))
    (options : ReplayOptions 𝔻) : ReplayResult 𝔻 × ReplayEngine :=
  let parser := CsvParser.new file
  if hopen : parser.isOpen = true then
    let (_, s) := replayLoop options parser hopen (engine.start options)
    (s.result.finish s.book, ⟨s.book⟩)
  else
    let book := engine.book.clear
    let error : ReplayError :=
      ⟨.fileOpenFailure, 0, "failed to open input file", inputPath.toList⟩
    let result : ReplayResult 𝔻 := { fileOpenFailed := true, errors := [error] }
    (result.finish book, ⟨book⟩)

end ReplayEngine

end Datagine
