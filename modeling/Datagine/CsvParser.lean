import Mathlib.Algebra.Group.Int.Defs
import Mathlib.Algebra.Group.Nat.Defs
import Datagine.Lib.Text
import Datagine.Types

/-!
# The CSV Parser

The model of `feed/csv_parser.cpp`. Text is a list of characters. A row is cut at its commas
and every column is trimmed (`splitCsvColumns`); the six columns are then read one by one,
with the first failing column deciding the message (`parseRow`). The parser itself is a
state machine over the rest of its input stream (`next`, `reset`).

`std::from_chars` follows the C++ standard: it reads a maximal run of decimal digits, with a
leading minus for the signed type only, and fails without digits or when the value is out of
range.
-/

namespace Datagine

/-- The outcome of reading one line. -/
inductive CsvParseStatus
  | event
  | malformedRow
  | endOfFile
  deriving DecidableEq, Repr

/-- What `next` returns. -/
structure CsvParseResult where
  status : CsvParseStatus := .endOfFile
  event : Option MarketEvent := none
  lineNumber : ℕ := 0
  message : String := ""
  rawRow : List Char := []
  deriving DecidableEq, Repr

/-- `kExpectedHeader`. -/
def expectedHeader : List Char := "timestamp_ns,event_type,order_id,side,price,quantity".toList

/-! ### Columns -/

/-- The characters that `trim` removes. -/
def isBlank (c : Char) : Bool := c = ' ' || c = '\t' || c = '\r'

/-- `trim`: one loop removes blanks from the front and one from the back. -/
def trim (value : List Char) : List Char := Text.stripWhile isBlank value

/-- `split_csv_columns`: the loop continues behind each comma; the last column has none. -/
def splitCsvColumns (row : List Char) : List (List Char) :=
  match _h : row.dropWhile (· ≠ ',') with
  | [] => [trim (row.takeWhile (· ≠ ','))]
  | _ :: rest => trim (row.takeWhile (· ≠ ',')) :: splitCsvColumns rest
termination_by row.length
decreasing_by
  have hle := (List.dropWhile_suffix (l := row) (· ≠ ',')).length_le
  rw [_h, List.length_cons] at hle
  exact hle

/-! ### Integers -/

/-- The errors of `std::from_chars`. -/
inductive Errc
  | invalidArgument
  | resultOutOfRange
  deriving DecidableEq, Repr

/-- `std::from_chars` for `std::uint64_t`: the value and the unread rest. -/
def fromCharsUInt64 (text : List Char) : Except Errc (UInt64 × List Char) :=
  let digits := text.takeWhile Char.isDigit
  let value := Nat.ofDigitChars 10 digits 0
  if digits = [] then .error .invalidArgument
  else if value < 2 ^ 64 then .ok (UInt64.ofNat value, text.dropWhile Char.isDigit)
  else .error .resultOutOfRange

/-- The value with a magnitude and a sign. -/
def signed (negative : Bool) (magnitude : ℕ) : ℤ :=
  if negative then -(magnitude : ℤ) else magnitude

/-- The digits of a `std::int64_t` behind its sign. -/
def fromDigitsInt64 (negative : Bool) (body : List Char) : Except Errc (Int64 × List Char) :=
  let digits := body.takeWhile Char.isDigit
  let value := signed negative (Nat.ofDigitChars 10 digits 0)
  if digits = [] then .error .invalidArgument
  else if -2 ^ 63 ≤ value ∧ value < 2 ^ 63 then
    .ok (Int64.ofInt value, body.dropWhile Char.isDigit)
  else .error .resultOutOfRange

/-- `std::from_chars` for `std::int64_t`: the value and the unread rest. -/
def fromCharsInt64 : List Char → Except Errc (Int64 × List Char)
  | '-' :: body => fromDigitsInt64 true body
  | body => fromDigitsInt64 false body

/-- `parse_integral`: the whole text is one integer. -/
def parseIntegral {T : Type} (fromChars : List Char → Except Errc (T × List Char))
    (text : List Char) : Option T :=
  if text = [] then none
  else
    match fromChars text with
    | .ok (value, []) => some value
    | _ => none

/-! ### Rows -/

/-- `parse_event_type`. -/
def parseEventType (value : List Char) : Option EventType :=
  if value = "ADD".toList then some .add
  else if value = "CANCEL".toList then some .cancel
  else if value = "MODIFY".toList then some .modify
  else if value = "EXECUTE".toList then some .execute
  else none

/-- `parse_side`. -/
def parseSide (value : List Char) : Option Side :=
  if value = "B".toList then some .buy
  else if value = "S".toList then some .sell
  else none

/-- `all_empty`. -/
def allEmpty (values : List (List Char)) : Bool := values.all List.isEmpty

/-- The value, or the message of the row that lacks it. -/
def required {T : Type} (value : Option T) (message : String) : Except String T :=
  match value with
  | some value => .ok value
  | none => .error message

/-- The price and quantity columns of a row of type `name`. -/
def parsePriceQuantity (name : String) (price quantity : List Char) :
    Except String (Price × Quantity) := do
  let price ← required (parseIntegral fromCharsInt64 price) (name ++ " requires numeric price")
  let quantity ←
    required (parseIntegral fromCharsUInt64 quantity) (name ++ " requires numeric quantity")
  return (⟨price⟩, ⟨quantity⟩)

/-- The last three columns of a `MODIFY` or `EXECUTE` row; these rows carry no side. -/
def parseReduction (name : String) (side price quantity : List Char) :
    Except String (Side × Price × Quantity) := do
  if side ≠ [] then .error (name ++ " requires empty side")
  else
    let (price, quantity) ← parsePriceQuantity name price quantity
    return (.buy, price, quantity)

/-- The last three columns of a row, by its type. -/
def parseDetails (eventType : EventType) (side price quantity : List Char) :
    Except String (Side × Price × Quantity) :=
  match eventType with
  | .add => do
      let side ← required (parseSide side) "ADD requires side B or S"
      let (price, quantity) ← parsePriceQuantity "ADD" price quantity
      return (side, price, quantity)
  | .cancel =>
      if !allEmpty [side, price, quantity] then
        .error "CANCEL requires empty side, price, and quantity"
      else .ok (.buy, ⟨0⟩, ⟨0⟩)
  | .modify => parseReduction "MODIFY" side price quantity
  | .execute => parseReduction "EXECUTE" side price quantity

/-- The event of a row with the given columns, or the message of its first defect. -/
def parseColumns (columns : List (List Char)) : Except String MarketEvent :=
  match columns with
  | [timestamp, eventType, orderId, side, price, quantity] => do
      let timestamp ← required (parseIntegral fromCharsInt64 timestamp) "invalid timestamp_ns"
      let eventType ← required (parseEventType eventType) "unknown event_type"
      let orderId ← required (parseIntegral fromCharsUInt64 orderId) "invalid order_id"
      let (side, price, quantity) ← parseDetails eventType side price quantity
      return ⟨eventType, ⟨timestamp⟩, ⟨orderId⟩, side, price, quantity⟩
  | _ => .error "expected 6 columns"

/-- `CsvParseResult{CsvParseStatus::EndOfFile}`. -/
def endOfFile : CsvParseResult := { status := .endOfFile }

/-- `malformed`. -/
def malformed (lineNumber : ℕ) (message : String) (rawRow : List Char) : CsvParseResult :=
  ⟨.malformedRow, none, lineNumber, message, rawRow⟩

/-- `parse_row`, at the parser's current line number. -/
def parseRow (lineNumber : ℕ) (row : List Char) : CsvParseResult :=
  match parseColumns (splitCsvColumns row) with
  | .error message => malformed lineNumber message row
  | .ok event => ⟨.event, some event, lineNumber, "", row⟩

/-! ### The parser -/

/-- The state of a `CsvParser`: the contents of the file at its path, if it can be opened,
and the unread rest of the stream, if that is open. -/
structure CsvParser where
  file : Option (List Char)
  input : Option (List Char)
  lineNumber : ℕ := 0
  headerChecked : Bool := false
  headerValid : Bool := false
  deriving DecidableEq, Repr

namespace CsvParser

/-- The constructor opens the stream. -/
def new (file : Option (List Char)) : CsvParser := { file := file, input := file }

/-- `is_open`. -/
def isOpen (parser : CsvParser) : Bool := parser.input.isSome

/-- The data rows of `next`: the header has been read and is valid. -/
def nextRow (parser : CsvParser) (stream : List Char) : CsvParseResult × CsvParser :=
  match Text.getline stream with
  | none => (endOfFile, parser)
  | some (row, rest) =>
      let parser := { parser with input := some rest, lineNumber := parser.lineNumber + 1 }
      (parseRow parser.lineNumber row, parser)

/-- `next`. -/
def next (parser : CsvParser) : CsvParseResult × CsvParser :=
  match parser.input with
  | none => (malformed 0 "input file is not open" [], parser)
  | some stream =>
      if !parser.headerChecked then
        let parser := { parser with headerChecked := true }
        match Text.getline stream with
        | none => (endOfFile, parser)
        | some (header, rest) =>
            let parser := { parser with
              input := some rest
              lineNumber := parser.lineNumber + 1
              headerValid := trim header = expectedHeader }
            if !parser.headerValid then
              (malformed parser.lineNumber "invalid CSV header" header, parser)
            else parser.nextRow rest
      else if !parser.headerValid then (endOfFile, parser)
      else parser.nextRow stream

/-- `reset`: the file is opened again. -/
def reset (parser : CsvParser) : CsvParser :=
  { parser with
    input := parser.file, lineNumber := 0, headerChecked := false, headerValid := false }

end CsvParser

end Datagine
