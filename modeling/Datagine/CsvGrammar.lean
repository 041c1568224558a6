import Mathlib.Data.List.Forall2
import Datagine.CsvParser

/-!
# The Row Grammar

Which rows are events, said without the parser: a row is six fields joined by commas; every
field counts without the blanks around it; integers are decimal numerals whose value is in
range; and the last three columns depend on the event type (`RowDenotes`).

## Main result

* `parseRow_iff_rowDenotes`: the parser accepts exactly the rows of the grammar and returns
  the event that the row denotes.
-/

namespace Datagine

open Text

/-! ### Integers -/

/-- `text` is a non-empty run of decimal digits with value `n`. -/
def DenotesNat (text : List Char) (n : ℕ) : Prop :=
  text ≠ [] ∧ (∀ c ∈ text, c.isDigit = true) ∧ Nat.ofDigitChars 10 text 0 = n

/-- `text` is an unsigned decimal numeral with value `v`. -/
def DenotesUInt64 (text : List Char) (v : UInt64) : Prop := DenotesNat text v.toNat

/-- `text` is a decimal numeral with value `v`, with a minus if the value is negative or
minus zero. -/
def DenotesInt64 (text : List Char) (v : Int64) : Prop :=
  (∃ n, DenotesNat text n ∧ v.toInt = n) ∨
    ∃ digits n, text = '-' :: digits ∧ DenotesNat digits n ∧ v.toInt = -n

/-- A text of digits is read to its end. -/
theorem takeWhile_isDigit {text : List Char} (h : ∀ c ∈ text, c.isDigit = true) :
    text.takeWhile Char.isDigit = text ∧ text.dropWhile Char.isDigit = [] :=
  ⟨List.takeWhile_eq_self_iff.mpr h, List.dropWhile_eq_nil_iff.mpr h⟩

/-- A text without a rest behind its digits is all digits. -/
theorem forall_isDigit_of_dropWhile {text : List Char}
    (h : text.dropWhile Char.isDigit = []) : ∀ c ∈ text, c.isDigit = true :=
  List.dropWhile_eq_nil_iff.mp h

/-- The digits behind a sign are read to the end exactly when they are a numeral whose
signed value is in range. -/
theorem fromDigitsInt64_iff {negative : Bool} {body : List Char} {v : Int64} :
    fromDigitsInt64 negative body = .ok (v, []) ↔
      ∃ n : ℕ, DenotesNat body n ∧ v.toInt = signed negative n := by
  constructor
  · intro h
    simp only [fromDigitsInt64] at h
    split_ifs at h with hdigits hrange
    obtain ⟨rfl, hrest⟩ := Prod.mk.inj (Except.ok.inj h)
    have hall := forall_isDigit_of_dropWhile hrest
    rw [(takeWhile_isDigit hall).1] at hdigits hrange ⊢
    exact ⟨_, ⟨hdigits, hall, rfl⟩, Int64.toInt_ofInt_of_le hrange.1 hrange.2⟩
  · rintro ⟨n, ⟨hne, hall, hvalue⟩, hv⟩
    obtain ⟨htake, hdrop⟩ := takeWhile_isDigit hall
    have hlow := v.le_toInt
    have hhigh := v.toInt_lt
    simp only [fromDigitsInt64]
    rw [htake, hdrop, hvalue, if_neg hne, ← hv, if_pos ⟨hlow, hhigh⟩, Int64.ofInt_toInt]

/-- A number is accepted when it is the whole text. -/
theorem parseIntegral_eq_some_iff {T : Type}
    {fromChars : List Char → Except Errc (T × List Char)} {text : List Char} {v : T} :
    parseIntegral fromChars text = some v ↔ text ≠ [] ∧ fromChars text = .ok (v, []) := by
  rw [parseIntegral]
  by_cases hnil : text = []
  · simp [hnil]
  · rw [if_neg hnil]
    cases hfrom : fromChars text with
    | error e => simp
    | ok r =>
        obtain ⟨value, rest⟩ := r
        cases rest <;> simp [hnil]

/-- **Unsigned integers.** `parse_integral` accepts exactly the numerals in range. -/
theorem parseIntegral_uint64_iff {text : List Char} {v : UInt64} :
    parseIntegral fromCharsUInt64 text = some v ↔ DenotesUInt64 text v := by
  rw [parseIntegral_eq_some_iff]
  constructor
  · rintro ⟨hnil, h⟩
    simp only [fromCharsUInt64] at h
    split_ifs at h with hdigits hrange
    obtain ⟨rfl, hrest⟩ := Prod.mk.inj (Except.ok.inj h)
    have hall := forall_isDigit_of_dropWhile hrest
    rw [(takeWhile_isDigit hall).1] at hrange ⊢
    refine ⟨hnil, hall, ?_⟩
    rw [UInt64.toNat_ofNat', Nat.mod_eq_of_lt hrange]
  · rintro ⟨hne, hall, hvalue⟩
    obtain ⟨htake, hdrop⟩ := takeWhile_isDigit hall
    have hlt : v.toNat < 2 ^ 64 := v.toNat_lt
    refine ⟨hne, ?_⟩
    simp only [fromCharsUInt64]
    rw [htake, hdrop, hvalue, if_neg hne, if_pos hlt, UInt64.ofNat_toNat]

/-- **Signed integers.** `parse_integral` accepts exactly the numerals in range. -/
theorem parseIntegral_int64_iff {text : List Char} {v : Int64} :
    parseIntegral fromCharsInt64 text = some v ↔ DenotesInt64 text v := by
  rw [parseIntegral_eq_some_iff, DenotesInt64]
  by_cases hminus : ∃ body, text = '-' :: body
  · obtain ⟨body, rfl⟩ := hminus
    have hnot : ∀ n, ¬DenotesNat ('-' :: body) n := by
      rintro n ⟨-, hall, -⟩
      exact absurd (hall '-' List.mem_cons_self) (by decide)
    rw [fromCharsInt64, fromDigitsInt64_iff]
    constructor
    · rintro ⟨-, n, hn, hv⟩
      exact Or.inr ⟨body, n, rfl, hn, hv⟩
    · rintro (⟨n, hn, -⟩ | ⟨digits, n, heq, hn, hv⟩)
      · exact absurd hn (hnot n)
      · obtain rfl := (List.cons.inj heq).2
        exact ⟨by simp, n, hn, hv⟩
  · have hfrom : fromCharsInt64 text = fromDigitsInt64 false text := by
      rw [fromCharsInt64]
      intro body heq
      exact hminus ⟨body, heq⟩
    rw [hfrom, fromDigitsInt64_iff]
    constructor
    · rintro ⟨-, n, hn, hv⟩
      exact Or.inl ⟨n, hn, hv⟩
    · rintro (⟨n, hn, hv⟩ | ⟨digits, n, heq, -⟩)
      · exact ⟨hn.1, n, hn, hv⟩
      · exact absurd ⟨digits, heq⟩ hminus

/-! ### Columns -/

/-- The columns of a row: the fields between its commas, without the blanks around them. -/
def ColumnsOf (row : List Char) (columns : List (List Char)) : Prop :=
  ∃ fields, FieldsOf ',' row fields ∧ List.Forall₂ (StripsTo isBlank) fields columns

/-- The columns are the trimmed parts between commas. -/
theorem splitCsvColumns_eq (row : List Char) :
    splitCsvColumns row = (row.splitOn ',').map trim := by
  fun_induction splitCsvColumns row with
  | case1 row h =>
      rw [splitOn_eq, h]
      rfl
  | case2 row c rest h ih =>
      rw [splitOn_eq, h, ih]
      rfl

/-- **The splitting and trimming loops compute the columns.** -/
theorem columnsOf_iff {row : List Char} {columns : List (List Char)} :
    ColumnsOf row columns ↔ columns = splitCsvColumns row := by
  have hstrip : ∀ fields, List.Forall₂ (StripsTo isBlank) fields columns ↔
      columns = fields.map trim := by
    intro fields
    have hrel : StripsTo isBlank = fun field column => trim field = column := by
      funext field column
      exact propext (stripsTo_iff.trans eq_comm)
    rw [hrel, ← List.forall₂_map_left_iff, List.forall₂_eq_eq_eq, eq_comm]
  rw [ColumnsOf, splitCsvColumns_eq]
  simp only [fieldsOf_iff, hstrip]
  constructor
  · rintro ⟨fields, rfl, hcolumns⟩
    exact hcolumns
  · intro hcolumns
    exact ⟨_, rfl, hcolumns⟩

/-! ### Rows -/

/-- The name of an event type. -/
def EventType.name : EventType → List Char
  | .add => "ADD".toList
  | .modify => "MODIFY".toList
  | .cancel => "CANCEL".toList
  | .execute => "EXECUTE".toList

/-- The letter of a side. -/
def Side.letter : Side → List Char
  | .buy => "B".toList
  | .sell => "S".toList

/-- What the last three columns say about an event of each type. An absent side is a buy,
and absent numbers are zero. -/
def DetailsDenote (side price quantity : List Char) (event : MarketEvent) : Prop :=
  match event.type with
  | .add => side = event.side.letter ∧ DenotesInt64 price event.price.ticks ∧
      DenotesUInt64 quantity event.quantity.units
  | .cancel => side = [] ∧ price = [] ∧ quantity = [] ∧ event.side = .buy ∧
      event.price = ⟨0⟩ ∧ event.quantity = ⟨0⟩
  | .modify | .execute => side = [] ∧ event.side = .buy ∧
      DenotesInt64 price event.price.ticks ∧ DenotesUInt64 quantity event.quantity.units

/-- **The row grammar**: `row` is six fields joined by commas, which without the blanks
around them denote `event`. -/
def RowDenotes (row : List Char) (event : MarketEvent) : Prop :=
  ∃ timestamp eventType orderId side price quantity,
    ColumnsOf row [timestamp, eventType, orderId, side, price, quantity] ∧
      DenotesInt64 timestamp event.timestamp.nanoseconds ∧ eventType = event.type.name ∧
      DenotesUInt64 orderId event.orderId.value ∧ DetailsDenote side price quantity event

/-- An event type is read off its name. -/
theorem parseEventType_iff {value : List Char} {t : EventType} :
    parseEventType value = some t ↔ value = t.name := by
  rw [parseEventType]
  constructor
  · intro h
    split_ifs at h with hadd hcancel hmodify hexecute
    · exact Option.some.inj h ▸ hadd
    · exact Option.some.inj h ▸ hcancel
    · exact Option.some.inj h ▸ hmodify
    · exact Option.some.inj h ▸ hexecute
  · rintro rfl
    cases t <;> decide

/-- A side is read off its letter. -/
theorem parseSide_iff {value : List Char} {s : Side} :
    parseSide value = some s ↔ value = s.letter := by
  rw [parseSide]
  constructor
  · intro h
    split_ifs at h with hbuy hsell
    · exact Option.some.inj h ▸ hbuy
    · exact Option.some.inj h ▸ hsell
  · rintro rfl
    cases s <;> decide

/-- A required value is there. -/
theorem required_eq_ok_iff {T : Type} {value : Option T} {message : String} {v : T} :
    required value message = .ok v ↔ value = some v := by
  cases value <;> simp [required]

/-- A sequence succeeds when both of its parts do. -/
theorem bind_eq_ok_iff {T U : Type} {x : Except String T} {f : T → Except String U} {u : U} :
    (x >>= f) = .ok u ↔ ∃ t, x = .ok t ∧ f t = .ok u := by
  cases x with
  | error e => simp [bind, Except.bind]
  | ok t => simp [bind, Except.bind]

/-- Price and quantity are read when both denote numbers. -/
theorem parsePriceQuantity_eq_ok_iff {name : String} {price quantity : List Char} {p : Price}
    {q : Quantity} :
    parsePriceQuantity name price quantity = .ok (p, q) ↔
      DenotesInt64 price p.ticks ∧ DenotesUInt64 quantity q.units := by
  simp only [parsePriceQuantity, bind_eq_ok_iff, required_eq_ok_iff, parseIntegral_int64_iff,
    parseIntegral_uint64_iff]
  constructor
  · rintro ⟨ticks, hprice, units, hquantity, h⟩
    obtain ⟨rfl, rfl⟩ := Prod.mk.inj (Except.ok.inj h)
    exact ⟨hprice, hquantity⟩
  · rintro ⟨hprice, hquantity⟩
    exact ⟨_, hprice, _, hquantity, rfl⟩

/-- The fields of a modify or execute: no side, and a price and a quantity. -/
theorem parseReduction_eq_ok_iff {name : String} {side price quantity : List Char} {s : Side}
    {p : Price} {q : Quantity} :
    parseReduction name side price quantity = .ok (s, p, q) ↔
      side = [] ∧ s = .buy ∧ DenotesInt64 price p.ticks ∧ DenotesUInt64 quantity q.units := by
  rw [parseReduction]
  by_cases hside : side = []
  · rw [if_neg (by simpa using hside), bind_eq_ok_iff]
    constructor
    · rintro ⟨⟨p', q'⟩, hpq, hok⟩
      obtain ⟨rfl, hpair⟩ := Prod.mk.inj (Except.ok.inj hok)
      obtain ⟨rfl, rfl⟩ := Prod.mk.inj hpair
      exact ⟨hside, rfl, parsePriceQuantity_eq_ok_iff.mp hpq⟩
    · rintro ⟨-, rfl, hpq⟩
      exact ⟨(p, q), parsePriceQuantity_eq_ok_iff.mpr hpq, rfl⟩
  · rw [if_pos hside]
    simp [hside]

/-- The last three columns are accepted exactly when they denote their event. -/
theorem parseDetails_eq_ok_iff {side price quantity : List Char} {event : MarketEvent} :
    parseDetails event.type side price quantity = .ok (event.side, event.price, event.quantity) ↔
      DetailsDenote side price quantity event := by
  rw [parseDetails.eq_def, DetailsDenote.eq_def]
  cases event.type with
  | add =>
      simp only [bind_eq_ok_iff, required_eq_ok_iff, parseSide_iff]
      constructor
      · rintro ⟨s, hside, ⟨p, q⟩, hpq, hok⟩
        obtain ⟨rfl, hpair⟩ := Prod.mk.inj (Except.ok.inj hok)
        obtain ⟨rfl, rfl⟩ := Prod.mk.inj hpair
        exact ⟨hside, parsePriceQuantity_eq_ok_iff.mp hpq⟩
      · rintro ⟨hside, hpq⟩
        exact ⟨_, hside, (event.price, event.quantity), parsePriceQuantity_eq_ok_iff.mpr hpq, rfl⟩
  | modify => exact parseReduction_eq_ok_iff
  | execute => exact parseReduction_eq_ok_iff
  | cancel =>
      simp only [allEmpty, List.all_cons, List.all_nil, Bool.and_true]
      cases side <;> cases price <;> cases quantity <;> simp [eq_comm]

/-- **The columns of a row decide its event.** -/
theorem parseColumns_eq_ok_iff {row : List Char} {event : MarketEvent} :
    parseColumns (splitCsvColumns row) = .ok event ↔ RowDenotes row event := by
  simp only [RowDenotes, columnsOf_iff]
  generalize splitCsvColumns row = columns
  constructor
  · intro h
    rw [parseColumns.eq_def] at h
    split at h
    · rename_i timestamp eventType orderId side price quantity
      simp only [bind_eq_ok_iff, required_eq_ok_iff, parseIntegral_int64_iff,
        parseIntegral_uint64_iff, parseEventType_iff] at h
      obtain ⟨t, htimestamp, type, htype, id, hid, ⟨s, p, q⟩, hdetails, hok⟩ := h
      obtain rfl := Except.ok.inj hok
      exact ⟨_, _, _, _, _, _, rfl, htimestamp, htype, hid, parseDetails_eq_ok_iff.mp hdetails⟩
    · cases h
  · rintro ⟨timestamp, eventType, orderId, side, price, quantity, rfl, htimestamp, htype, hid,
      hdetails⟩
    simp only [parseColumns, bind_eq_ok_iff, required_eq_ok_iff, parseIntegral_int64_iff,
      parseIntegral_uint64_iff, parseEventType_iff]
    exact ⟨_, htimestamp, _, htype, _, hid, _, parseDetails_eq_ok_iff.mpr hdetails, rfl⟩

/-- **The parser accepts exactly the row grammar.** A row is an event if and only if the
grammar gives it one, and then the result carries that event; any other row is malformed and
carries none. The raw row is the input in both cases. -/
theorem parseRow_iff_rowDenotes (lineNumber : ℕ) (row : List Char) :
    ((parseRow lineNumber row).status = .event ↔ ∃ event, RowDenotes row event) ∧
      (∀ event, RowDenotes row event →
        parseRow lineNumber row = ⟨.event, some event, lineNumber, "", row⟩) ∧
      ((¬∃ event, RowDenotes row event) → ∃ message,
        parseRow lineNumber row = ⟨.malformedRow, none, lineNumber, message, row⟩) := by
  simp only [← parseColumns_eq_ok_iff]
  cases hcolumns : parseColumns (splitCsvColumns row) with
  | error message =>
      have hrow : parseRow lineNumber row = malformed lineNumber message row := by
        rw [parseRow, hcolumns]
      refine ⟨?_, fun event hevent => ?_, fun _ => ⟨message, hrow⟩⟩
      · rw [hrow]
        simp [malformed]
      · cases hevent
  | ok event =>
      have hrow : parseRow lineNumber row = ⟨.event, some event, lineNumber, "", row⟩ := by
        rw [parseRow, hcolumns]
      refine ⟨?_, fun event' hevent => ?_, fun hnone => ?_⟩
      · rw [hrow]
        simp
      · obtain rfl := Except.ok.inj hevent
        exact hrow
      · exact absurd ⟨event, rfl⟩ hnone

end Datagine
