import Datagine.CsvGrammar

/-!
# Reading a Whole File

`next` is called again and again on an open file, and `reset` at any point. The results are
described by the list of lines that `std::getline` yields: one result per data line, with
its text and its 1-based number, and the end of the file from then on.

## Main results

* `drain_fileResults`: what successive calls of `next` return, from a fresh parser and after
  any reset.
-/

namespace Datagine

open Text

/-- The results a file gives before its end: nothing without a line, one malformed line if
the first line is not the header, and otherwise one result per data line. -/
def fileResults : List (List Char) → List CsvParseResult
  | [] => []
  | header :: rows =>
      if trim header = expectedHeader then rows.mapIdx fun i row => parseRow (i + 2) row
      else [malformed 1 "invalid CSV header" header]

namespace CsvParser

/-- The results of `k` successive calls of `next`. -/
def drain : ℕ → CsvParser → List CsvParseResult
  | 0, _ => []
  | k + 1, parser => parser.next.1 :: drain k parser.next.2

/-- A call of the interface. -/
inductive Call
  | next
  | reset

/-- The parser after a sequence of calls. -/
def afterCalls (parser : CsvParser) (calls : List Call) : CsvParser :=
  calls.foldl (fun parser call =>
    match call with
    | .next => parser.next.2
    | .reset => parser.reset) parser

/-- The first `k` of the results, followed by the end of the file. -/
def untilEnd (k : ℕ) (results : List CsvParseResult) : List CsvParseResult :=
  (results ++ List.replicate k endOfFile).take k

/-- Behind the last row there is the end of the file. -/
theorem untilEnd_nil (k : ℕ) :
    untilEnd k [] = List.replicate k endOfFile := by
  simp [untilEnd]

/-- The first row comes first. -/
theorem untilEnd_cons (k : ℕ) (r : CsvParseResult) (results : List CsvParseResult) :
    untilEnd (k + 1) (r :: results) = r :: untilEnd k results := by
  simp [untilEnd, List.take_append, List.replicate_succ', List.take_replicate]

/-- At the end of the stream, or behind a wrong header, `next` only reports the end. -/
theorem drain_of_next_eq {parser : CsvParser}
    (h : parser.next = (endOfFile, parser)) (k : ℕ) :
    parser.drain k = List.replicate k endOfFile := by
  induction k with
  | zero => rfl
  | succ k ih => rw [drain, h, ih, List.replicate_succ]

/-- **The data lines.** Behind a valid header each call returns the result of the next line,
under its number. -/
theorem drain_rows (file : Option (List Char)) (stream : List Char) (n k : ℕ) :
    drain k ⟨file, some stream, n, true, true⟩ =
      untilEnd k ((lines stream).mapIdx fun i row => parseRow (i + (n + 1)) row) := by
  induction k generalizing stream n with
  | zero => rfl
  | succ k ih =>
      cases hline : getline stream with
      | none =>
          have hnext : next ⟨file, some stream, n, true, true⟩ =
              (endOfFile, ⟨file, some stream, n, true, true⟩) := by
            simp [next, nextRow, hline]
          rw [drain_of_next_eq hnext, lines_of_none hline, List.mapIdx_nil, untilEnd_nil]
      | some r =>
          obtain ⟨row, rest⟩ := r
          have hnext : next ⟨file, some stream, n, true, true⟩ =
              (parseRow (n + 1) row, ⟨file, some rest, n + 1, true, true⟩) := by
            simp [next, nextRow, hline]
          have hshift : ∀ i, i + 1 + (n + 1) = i + (n + 1 + 1) := fun i => by omega
          rw [drain, hnext, ih, lines_of_some hline, List.mapIdx_cons, untilEnd_cons]
          simp only [Nat.zero_add, hshift]

/-- The call that reads a valid header also reads the first data line. -/
theorem next_new {content header rest : List Char}
    (hline : getline content = some (header, rest)) (hheader : trim header = expectedHeader) :
    next (new (some content)) = next ⟨some content, some rest, 1, true, true⟩ := by
  simp [next, new, hline, hheader]

/-- A fresh parser goes through the results of the file. -/
theorem drain_new (content : List Char) (k : ℕ) :
    drain k (new (some content)) = untilEnd k (fileResults (lines content)) := by
  cases k with
  | zero => rfl
  | succ k =>
      cases hline : getline content with
      | none =>
          -- without a line the header counts as checked and invalid
          have hnext : next (new (some content)) =
              (endOfFile, ⟨some content, some content, 0, true, false⟩) := by
            simp [next, new, hline]
          have hend : next ⟨some content, some content, 0, true, false⟩ =
              (endOfFile, ⟨some content, some content, 0, true, false⟩) := by
            simp [next]
          rw [drain, hnext, drain_of_next_eq hend, lines_of_none hline, fileResults, untilEnd_nil,
            List.replicate_succ]
      | some r =>
          obtain ⟨header, rest⟩ := r
          rw [lines_of_some hline, fileResults]
          by_cases hheader : trim header = expectedHeader
          · rw [if_pos hheader, drain, next_new hline hheader, ← drain, drain_rows]
          · have hnext : next (new (some content)) = (malformed 1 "invalid CSV header" header,
                ⟨some content, some rest, 1, true, false⟩) := by
              simp [next, new, hline, hheader]
            have hend : next ⟨some content, some rest, 1, true, false⟩ =
                (endOfFile, ⟨some content, some rest, 1, true, false⟩) := by
              simp [next]
            rw [if_neg hheader, drain, hnext, drain_of_next_eq hend, untilEnd_cons, untilEnd_nil]

/-! ### How far the parser has read -/

/-- One more call of `next`. -/
theorem afterCalls_next (parser : CsvParser) (k : ℕ) :
    parser.afterCalls (List.replicate (k + 1) .next) =
      parser.next.2.afterCalls (List.replicate k .next) := rfl

/-- Behind the header, each call reads a line. -/
theorem afterCalls_rows (file : Option (List Char)) (stream : List Char) (n k : ℕ)
    (hk : k ≤ (lines stream).length) :
    ∃ rest, afterCalls ⟨file, some stream, n, true, true⟩ (List.replicate k .next) =
        ⟨file, some rest, n + k, true, true⟩ ∧ lines rest = (lines stream).drop k := by
  induction k generalizing stream n with
  | zero => exact ⟨stream, rfl, rfl⟩
  | succ k ih =>
      cases hline : getline stream with
      | none => simp [lines_of_none hline] at hk
      | some r =>
          obtain ⟨row, more⟩ := r
          rw [lines_of_some hline] at hk ⊢
          obtain ⟨rest, hparser, hrest⟩ := ih more (n + 1) (Nat.le_of_succ_le_succ hk)
          have hnext : (next ⟨file, some stream, n, true, true⟩).2 =
              ⟨file, some more, n + 1, true, true⟩ := by
            simp [next, nextRow, hline]
          refine ⟨rest, ?_, hrest⟩
          rw [afterCalls_next, hnext, hparser, Nat.add_right_comm, Nat.add_assoc n k 1]

/-- After `k` calls on a file with a valid header and at least `k` data lines, the header and
`k` data lines have been read and the others have not. -/
theorem afterCalls_new {content header : List Char} {rows : List (List Char)}
    (hlines : lines content = header :: rows) (hheader : trim header = expectedHeader) {k : ℕ}
    (hk : k + 1 ≤ rows.length) :
    ∃ rest, (new (some content)).afterCalls (List.replicate (k + 1) .next) =
        ⟨some content, some rest, k + 2, true, true⟩ ∧ lines rest = rows.drop (k + 1) := by
  cases hline : getline content with
  | none => simp [lines_of_none hline] at hlines
  | some r =>
      obtain ⟨first, more⟩ := r
      rw [lines_of_some hline] at hlines
      obtain ⟨rfl, rfl⟩ := List.cons.inj hlines
      obtain ⟨rest, hparser, hrest⟩ := afterCalls_rows (some content) more 1 (k + 1) hk
      refine ⟨rest, ?_, hrest⟩
      rw [afterCalls_next, next_new hline hheader, ← afterCalls_next, hparser,
        Nat.add_comm 1 (k + 1)]

/-! ### Resets -/

/-- Reading a row keeps the file. -/
theorem nextRow_file (parser : CsvParser) (stream : List Char) :
    (parser.nextRow stream).2.file = parser.file := by
  rw [nextRow]
  cases getline stream <;> rfl

/-- So does a call of `next`. -/
theorem next_file (parser : CsvParser) : parser.next.2.file = parser.file := by
  rw [next]
  cases parser.input with
  | none => rfl
  | some stream =>
      dsimp only
      split_ifs
      · cases getline stream with
        | none => rfl
        | some r =>
            dsimp only
            split_ifs
            · rfl
            · exact nextRow_file _ _
      · rfl
      · exact nextRow_file parser stream

/-- No call changes the file. -/
theorem afterCalls_file (parser : CsvParser) (calls : List Call) :
    (parser.afterCalls calls).file = parser.file := by
  induction calls generalizing parser with
  | nil => rfl
  | cons call calls ih =>
      cases call with
      | next => exact (ih parser.next.2).trans (next_file parser)
      | reset => exact ih parser.reset

/-- A reset parser is a fresh one. -/
theorem reset_afterCalls (file : Option (List Char)) (calls : List Call) :
    ((new file).afterCalls calls).reset = new file := by
  have hfile := afterCalls_file (new file) calls
  rw [reset, hfile]
  rfl

end CsvParser

/-! ### What a data line gives -/

/-- A result carries its line number and its row. -/
theorem parseRow_fields (lineNumber : ℕ) (row : List Char) :
    (parseRow lineNumber row).lineNumber = lineNumber ∧ (parseRow lineNumber row).rawRow = row ∧
      (parseRow lineNumber row).status ≠ .endOfFile := by
  rw [parseRow]
  cases parseColumns (splitCsvColumns row) <;> simp [malformed]

/-- A blank line has one column and is malformed. -/
theorem parseRow_blank (lineNumber : ℕ) {row : List Char} (h : trim row = []) :
    (parseRow lineNumber row).status = .malformedRow := by
  obtain ⟨left, right, hrow, hleft, hright⟩ := (stripsTo_stripWhile isBlank row).split
  have hstrip : stripWhile isBlank row = [] := h
  rw [hstrip, List.append_nil] at hrow
  have hcomma : ',' ∉ row := by
    intro hmem
    rw [hrow] at hmem
    rcases List.mem_append.mp hmem with hmem | hmem
    · exact absurd (hleft _ hmem) (by decide)
    · exact absurd (hright _ hmem) (by decide)
  have hcolumns : splitCsvColumns row = [[]] := by
    rw [splitCsvColumns_eq, List.splitOn_eq_singleton hcomma, List.map_singleton, h]
  rw [parseRow, hcolumns]
  rfl

/-- **Every line is read once, in order, under its number.** On any open file, from a fresh
parser and after a reset at any point, successive calls of `next` return the results of the
file and then the end of the file forever. The result of a data line carries its number and
its exact text and is never the end of the file; a blank line is a malformed row. -/
theorem drain_fileResults (content : List Char) :
    (∀ k, (CsvParser.new (some content)).drain k =
        CsvParser.untilEnd k (fileResults (lines content))) ∧
      (∀ calls k, (((CsvParser.new (some content)).afterCalls calls).reset).drain k =
        CsvParser.untilEnd k (fileResults (lines content))) ∧
      ∀ lineNumber row, (parseRow lineNumber row).lineNumber = lineNumber ∧
        (parseRow lineNumber row).rawRow = row ∧
        (parseRow lineNumber row).status ≠ .endOfFile ∧
        (trim row = [] → (parseRow lineNumber row).status = .malformedRow) := by
  refine ⟨CsvParser.drain_new content, fun calls k => ?_, fun n row => ?_⟩
  · rw [CsvParser.reset_afterCalls, CsvParser.drain_new]
  · obtain ⟨hnumber, hraw, hstatus⟩ := parseRow_fields n row
    exact ⟨hnumber, hraw, hstatus, parseRow_blank n⟩

end Datagine
