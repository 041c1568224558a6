import Datagine.CsvStream

/-!
# Writing Rows

The other direction of the row grammar: the row of an event, with numbers in plain decimal and
the columns that its type does not use left blank (`MarketEvent.fields`). Any blanks may stand
around a field (`RowOf`). The fields are made of characters that neither separate nor count as
blank, so the grammar reads them back.

An event is in normal form when it has nothing in the columns that its row does not carry.

## Main results

* `decode_encode`: a row of a normal event is read as that event, and a file of such rows as the
  list of their events.
-/

namespace Datagine

open Text

/-- The decimal numeral of an unsigned word. -/
def decimalUInt64 (v : UInt64) : List Char := Nat.toDigits 10 v.toNat

/-- The decimal numeral of a signed word, with a minus if it is negative. -/
def decimalInt64 (v : Int64) : List Char :=
  if v.toInt < 0 then '-' :: Nat.toDigits 10 v.toInt.natAbs else Nat.toDigits 10 v.toInt.natAbs

/-- The six fields of an event. -/
def MarketEvent.fields (event : MarketEvent) : List (List Char) :=
  [decimalInt64 event.timestamp.nanoseconds, event.type.name, decimalUInt64 event.orderId.value] ++
    match event.type with
    | .add =>
        [event.side.letter, decimalInt64 event.price.ticks, decimalUInt64 event.quantity.units]
    | .modify | .execute =>
        [[], decimalInt64 event.price.ticks, decimalUInt64 event.quantity.units]
    | .cancel => [[], [], []]

/-- The row of an event. -/
def encodeRow (event : MarketEvent) : List Char := [','].intercalate event.fields

/-- Nothing stands in the columns that the row does not carry. -/
structure MarketEvent.Normal (event : MarketEvent) : Prop where
  side : event.type ≠ .add → event.side = .buy
  price : event.type = .cancel → event.price = ⟨0⟩
  quantity : event.type = .cancel → event.quantity = ⟨0⟩

/-- The text is the field with blanks around it. -/
def Padded (field text : List Char) : Prop :=
  ∃ left right, text = left ++ field ++ right ∧ (∀ c ∈ left, isBlank c = true) ∧
    ∀ c ∈ right, isBlank c = true

/-- The row of an event, with blanks around its fields. -/
def RowOf (event : MarketEvent) (row : List Char) : Prop :=
  ∃ texts, List.Forall₂ Padded event.fields texts ∧ row = [','].intercalate texts

/-- The encoded row is a row of the event. -/
theorem rowOf_encodeRow (event : MarketEvent) : RowOf event (encodeRow event) := by
  have hpadded : ∀ field : List Char, Padded field field := fun field =>
    ⟨[], [], by simp, by simp, by simp⟩
  exact ⟨event.fields, List.forall₂_same.mpr fun field _ => hpadded field, rfl⟩

/-! ### Numerals -/

/-- The digits of a number denote it. -/
theorem denotesNat_toDigits (n : ℕ) : DenotesNat (Nat.toDigits 10 n) n :=
  ⟨Nat.toDigits_ne_nil, fun _ hc => Nat.isDigit_of_mem_toDigits (by decide) (by decide) hc,
    Nat.ofDigitChars_ten_toDigits⟩

/-- The decimal digits of an unsigned word denote it. -/
theorem denotesUInt64_decimal (v : UInt64) : DenotesUInt64 (decimalUInt64 v) v :=
  denotesNat_toDigits v.toNat

/-- The decimal digits of a signed word denote it, with its sign. -/
theorem denotesInt64_decimal (v : Int64) : DenotesInt64 (decimalInt64 v) v := by
  rw [decimalInt64]
  split_ifs with hneg
  · exact .inr ⟨_, _, rfl, denotesNat_toDigits _, by omega⟩
  · exact .inl ⟨_, denotesNat_toDigits _, by omega⟩

/-! ### Characters -/

/-- A character that belongs to a field: it neither separates fields or rows nor is blank. -/
def IsFieldChar (c : Char) : Prop := c ≠ ',' ∧ c ≠ '\n' ∧ isBlank c = false

/-- Digits may stand in a field. -/
theorem isFieldChar_of_isDigit {c : Char} (h : c.isDigit = true) : IsFieldChar c := by
  have hne : ∀ d : Char, d.isDigit = false → c ≠ d := fun d hd hcd => by
    rw [hcd, hd] at h
    cases h
  refine ⟨hne ',' (by decide), hne '\n' (by decide), ?_⟩
  simp [isBlank, hne ' ' (by decide), hne '\t' (by decide), hne '\r' (by decide)]

/-- So may all digits of a number. -/
theorem isFieldChar_of_mem_toDigits {n : ℕ} {c : Char} (h : c ∈ Nat.toDigits 10 n) :
    IsFieldChar c :=
  isFieldChar_of_isDigit (Nat.isDigit_of_mem_toDigits (by decide) (by decide) h)

/-- So may those of a signed word, and its sign. -/
theorem isFieldChar_of_mem_decimalInt64 {v : Int64} {c : Char} (h : c ∈ decimalInt64 v) :
    IsFieldChar c := by
  rw [decimalInt64] at h
  split_ifs at h
  · rcases List.mem_cons.mp h with rfl | h
    · exact ⟨by decide, by decide, by decide⟩
    · exact isFieldChar_of_mem_toDigits h
  · exact isFieldChar_of_mem_toDigits h

instance (c : Char) : Decidable (IsFieldChar c) :=
  inferInstanceAs (Decidable (c ≠ ',' ∧ c ≠ '\n' ∧ isBlank c = false))

/-- So may the letters of an event type. -/
theorem isFieldChar_of_mem_name (t : EventType) : ∀ c ∈ t.name, IsFieldChar c := by
  have hall : t.name.all (fun c => IsFieldChar c) = true := by cases t <;> decide
  intro c hc
  exact of_decide_eq_true (List.all_eq_true.mp hall c hc)

/-- So may the letter of a side. -/
theorem isFieldChar_of_mem_letter (s : Side) : ∀ c ∈ s.letter, IsFieldChar c := by
  have hall : s.letter.all (fun c => IsFieldChar c) = true := by cases s <;> decide
  intro c hc
  exact of_decide_eq_true (List.all_eq_true.mp hall c hc)

/-- Fields are made of field characters. -/
theorem isFieldChar_of_mem_fields {event : MarketEvent} {field : List Char}
    (hfield : field ∈ event.fields) : ∀ c ∈ field, IsFieldChar c := by
  intro c hc
  rw [MarketEvent.fields, List.mem_append] at hfield
  rcases hfield with hfield | hfield
  · simp only [List.mem_cons, List.not_mem_nil, or_false] at hfield
    rcases hfield with rfl | rfl | rfl
    · exact isFieldChar_of_mem_decimalInt64 hc
    · exact isFieldChar_of_mem_name _ c hc
    · exact isFieldChar_of_mem_toDigits hc
  · cases htype : event.type with
    | add =>
        simp only [htype, List.mem_cons, List.not_mem_nil, or_false] at hfield
        rcases hfield with rfl | rfl | rfl
        · exact isFieldChar_of_mem_letter _ c hc
        · exact isFieldChar_of_mem_decimalInt64 hc
        · exact isFieldChar_of_mem_toDigits hc
    | modify =>
        simp only [htype, List.mem_cons, List.not_mem_nil, or_false] at hfield
        rcases hfield with rfl | rfl | rfl
        · cases hc
        · exact isFieldChar_of_mem_decimalInt64 hc
        · exact isFieldChar_of_mem_toDigits hc
    | execute =>
        simp only [htype, List.mem_cons, List.not_mem_nil, or_false] at hfield
        rcases hfield with rfl | rfl | rfl
        · cases hc
        · exact isFieldChar_of_mem_decimalInt64 hc
        · exact isFieldChar_of_mem_toDigits hc
    | cancel =>
        simp only [htype, List.mem_cons, List.not_mem_nil, or_false] at hfield
        rcases hfield with rfl | rfl | rfl <;> cases hc

/-! ### Rows -/

variable {event : MarketEvent}

/-- Stripping a padded field leaves the field. -/
theorem stripsTo_of_padded {field text : List Char} (hchars : ∀ c ∈ field, IsFieldChar c)
    (h : Padded field text) : StripsTo isBlank text field where
  split := h
  first c hc := (hchars c (List.mem_of_head? hc)).2.2
  last c hc := (hchars c (List.mem_of_getLast? hc)).2.2

/-- What is true of blanks and of the characters of the field is true of the padded field. -/
theorem forall_mem_padded {P : Char → Prop} (hblank : ∀ c, isBlank c = true → P c)
    {field text : List Char} (hfield : ∀ c ∈ field, P c) (h : Padded field text) :
    ∀ c ∈ text, P c := by
  obtain ⟨left, right, rfl, hleft, hright⟩ := h
  intro c hc
  rcases List.mem_append.mp hc with hc | hc
  · rcases List.mem_append.mp hc with hc | hc
    · exact hblank c (hleft c hc)
    · exact hfield c hc
  · exact hblank c (hright c hc)

/-- Neither a comma nor a line feed stands in a padded field. -/
theorem not_mem_of_padded {fields texts : List (List Char)}
    (hchars : ∀ field ∈ fields, ∀ c ∈ field, IsFieldChar c)
    (h : List.Forall₂ Padded fields texts) : ∀ text ∈ texts, ',' ∉ text ∧ '\n' ∉ text := by
  have hblank : ∀ c, isBlank c = true → c ≠ ',' ∧ c ≠ '\n' := by
    intro c hc
    constructor
    · rintro rfl
      cases hc
    · rintro rfl
      cases hc
  induction h with
  | nil => simp
  | cons hpad _ ih =>
      intro text htext
      rcases List.mem_cons.mp htext with rfl | htext
      · have hall := forall_mem_padded hblank
          (fun c hc => ⟨(hchars _ List.mem_cons_self c hc).1,
            (hchars _ List.mem_cons_self c hc).2.1⟩) hpad
        exact ⟨fun hmem => (hall _ hmem).1 rfl, fun hmem => (hall _ hmem).2 rfl⟩
      · exact ih (fun field hfield => hchars field (List.mem_cons_of_mem _ hfield)) text htext

/-- The columns of a row of the event are its fields. -/
theorem columnsOf_rowOf {row : List Char} (h : RowOf event row) : ColumnsOf row event.fields := by
  obtain ⟨texts, hpadded, rfl⟩ := h
  have hchars := fun field (hfield : field ∈ event.fields) => isFieldChar_of_mem_fields hfield
  have hfree := not_mem_of_padded hchars hpadded
  refine ⟨texts, ⟨?_, fun text htext => (hfree text htext).1, rfl⟩, ?_⟩
  · rintro rfl
    cases List.forall₂_nil_right_iff.mp hpadded
  · have hboth := (List.forall₂_and_left event.fields texts).mpr ⟨hchars, hpadded⟩
    exact (hboth.imp fun field text hfield => stripsTo_of_padded hfield.1 hfield.2).flip

/-- The fields of a normal event denote it. -/
theorem fields_denote (h : event.Normal) :
    ∃ side price quantity, event.fields = [decimalInt64 event.timestamp.nanoseconds,
        event.type.name, decimalUInt64 event.orderId.value, side, price, quantity] ∧
      DetailsDenote side price quantity event := by
  have hprice := denotesInt64_decimal event.price.ticks
  have hquantity := denotesUInt64_decimal event.quantity.units
  rw [MarketEvent.fields]
  simp only [DetailsDenote]
  cases htype : event.type with
  | add => exact ⟨_, _, _, rfl, rfl, hprice, hquantity⟩
  | modify => exact ⟨_, _, _, rfl, rfl, h.side (by simp [htype]), hprice, hquantity⟩
  | execute => exact ⟨_, _, _, rfl, rfl, h.side (by simp [htype]), hprice, hquantity⟩
  | cancel =>
      exact ⟨_, _, _, rfl, rfl, rfl, rfl, h.side (by simp [htype]), h.price htype,
        h.quantity htype⟩

/-- **A row of a normal event is read as that event.** -/
theorem parseRow_rowOf (h : event.Normal) {row : List Char} (hrow : RowOf event row) (n : ℕ) :
    parseRow n row = ⟨.event, some event, n, "", row⟩ := by
  have hcolumns := columnsOf_rowOf hrow
  obtain ⟨side, price, quantity, hfields, hdetails⟩ := fields_denote h
  rw [hfields] at hcolumns
  have hdenotes : RowDenotes row event :=
    ⟨_, _, _, side, price, quantity, hcolumns, denotesInt64_decimal _, rfl,
      denotesUInt64_decimal _, hdetails⟩
  rw [parseRow, parseColumns_eq_ok_iff.mpr hdenotes]

/-! ### Files -/

/-- A row does not break. -/
theorem lineFeed_not_mem_rowOf {row : List Char} (h : RowOf event row) : '\n' ∉ row := by
  obtain ⟨texts, hpadded, rfl⟩ := h
  have hfree := not_mem_of_padded (fun _ hfield => isFieldChar_of_mem_fields hfield) hpadded
  intro hmem
  rcases mem_intercalate hmem with hsep | ⟨text, htext, hmem⟩
  · cases hsep
  · exact (hfree text htext).2 hmem

/-- Every row is one of some event. -/
theorem exists_rowOf_of_mem {events : List MarketEvent} {rows : List (List Char)}
    (hrows : List.Forall₂ RowOf events rows) {row : List Char} (h : row ∈ rows) :
    ∃ event ∈ events, RowOf event row := by
  induction hrows with
  | nil => cases h
  | cons hrow _ ih =>
      rcases List.mem_cons.mp h with rfl | h
      · exact ⟨_, List.mem_cons_self, hrow⟩
      · obtain ⟨event, hevent, hrow⟩ := ih h
        exact ⟨event, List.mem_cons_of_mem _ hevent, hrow⟩

/-- Behind the last result there is only the end of the file. -/
theorem untilEnd_add (results : List CsvParseResult) (k : ℕ) :
    CsvParser.untilEnd (results.length + k) results = results ++ List.replicate k endOfFile := by
  rw [CsvParser.untilEnd, List.take_append, List.take_of_length_le (by omega),
    Nat.add_sub_cancel_left, List.take_replicate, Nat.min_eq_left (by omega)]

/-- The results of rows under consecutive numbers. -/
theorem parseRow_rows {events : List MarketEvent} {rows : List (List Char)}
    (hrows : List.Forall₂ RowOf events rows) (h : ∀ event ∈ events, event.Normal) (n : ℕ) :
    (rows.mapIdx fun i row => parseRow (i + n) row).map (fun r => (r.status, r.event)) =
      events.map fun event => (CsvParseStatus.event, some event) := by
  induction hrows generalizing n with
  | nil => rfl
  | cons hrow _ ih =>
      rw [List.mapIdx_cons, List.map_cons, List.map_cons,
        parseRow_rowOf (h _ List.mem_cons_self) hrow]
      have hshift : ∀ i, i + 1 + n = i + (n + 1) := fun i => by omega
      simp only [hshift]
      rw [ih (fun event hevent => h event (List.mem_cons_of_mem _ hevent))]

/-- **Decoding undoes encoding.** The row of a normal event, as it is or with any blanks around
its fields, is read as that event. When the header and such rows are written to a file, draining it
gives back the events in order and then the end of the file. -/
theorem decode_encode :
    (∀ event, RowOf event (encodeRow event)) ∧
      (∀ event : MarketEvent, event.Normal → ∀ row, RowOf event row → ∀ n,
        parseRow n row = ⟨.event, some event, n, "", row⟩) ∧
      ∀ (events : List MarketEvent) (rows : List (List Char)), (∀ event ∈ events, event.Normal) →
        List.Forall₂ RowOf events rows → ∀ k,
          ((CsvParser.new (some (unlines (expectedHeader :: rows)))).drain
              (events.length + k)).map (fun r => (r.status, r.event)) =
            events.map (fun event => (.event, some event)) ++
              List.replicate k (.endOfFile, none) := by
  refine ⟨rowOf_encodeRow, fun event h row hrow n => parseRow_rowOf h hrow n,
    fun events rows h hrows k => ?_⟩
  have hlines : lines (unlines (expectedHeader :: rows)) = expectedHeader :: rows := by
    refine lines_unlines fun line hline => ?_
    rcases List.mem_cons.mp hline with rfl | hline
    · decide
    · obtain ⟨event, -, hrow⟩ := exists_rowOf_of_mem hrows hline
      exact lineFeed_not_mem_rowOf hrow
  have hlength : (rows.mapIdx fun i row => parseRow (i + 2) row).length = events.length := by
    rw [List.length_mapIdx, hrows.length_eq]
  have htrim : trim expectedHeader = expectedHeader := by decide
  rw [CsvParser.drain_new, hlines, fileResults, if_pos htrim, ← hlength, untilEnd_add,
    List.map_append, parseRow_rows hrows h, List.map_replicate]
  rfl

/-- The add with the smallest timestamp and price and the largest id and quantity, written with
blanks around its first field. -/
theorem decode_encode_extremes :
    let event : MarketEvent :=
      ⟨.add, ⟨Int64.minValue⟩, ⟨18446744073709551615⟩, .sell, ⟨Int64.minValue⟩,
        ⟨18446744073709551615⟩⟩
    let row := ("\t-9223372036854775808 ,ADD,18446744073709551615,S," ++
      "-9223372036854775808,18446744073709551615\r").toList
    event.Normal ∧ RowOf event row ∧ (parseRow 2 row).event = some event ∧
      ((CsvParser.new (some (unlines [expectedHeader, row]))).drain 1).map
        (fun r => (r.status, r.event)) = [(.event, some event)] := by
  intro event row
  have hnormal : event.Normal := ⟨by simp [event], by simp [event], by simp [event]⟩
  have hrow : RowOf event row := by
    refine ⟨["\t-9223372036854775808 ".toList, "ADD".toList, "18446744073709551615".toList,
      "S".toList, "-9223372036854775808".toList, "18446744073709551615\r".toList], ?_,
      by decide +kernel⟩
    refine .cons ⟨['\t'], [' '], by decide +kernel, by simp [isBlank], by simp [isBlank]⟩ ?_
    refine .cons ⟨[], [], by decide +kernel, by simp, by simp⟩ ?_
    refine .cons ⟨[], [], by decide +kernel, by simp, by simp⟩ ?_
    refine .cons ⟨[], [], by decide +kernel, by simp, by simp⟩ ?_
    refine .cons ⟨[], [], by decide +kernel, by simp, by simp⟩ ?_
    exact .cons ⟨[], ['\r'], by decide +kernel, by simp, by simp [isBlank]⟩ .nil
  obtain ⟨-, hparse, hdrain⟩ := decode_encode
  refine ⟨hnormal, hrow, ?_, ?_⟩
  · rw [hparse event hnormal row hrow]
  · exact hdrain [event] [row] (by simpa using hnormal) (.cons hrow .nil) 0

end Datagine
