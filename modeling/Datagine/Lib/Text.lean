import Mathlib.Data.List.DropRight

/-!
# Text as Lists

Pieces of text processing on lists, with a description of each that does not mention how it
is computed: stripping both ends of a list (`StripsTo`), cutting a list into fields at a
separator (`FieldsOf`), and reading a stream line by line (`getline`, `lines`), as it was
written (`unlines`) or with lines deleted from it (`deleteLines`).
-/

namespace Text

variable {α : Type*}

/-! ### Stripping both ends -/

/-- Drop the elements satisfying `p` from the front and then from the back. -/
def stripWhile (p : α → Bool) (l : List α) : List α := (l.dropWhile p).rdropWhile p

/-- `t` is `l` without its outer elements satisfying `p`: what was cut off on either side
satisfies `p`, and the ends of what is left do not. -/
structure StripsTo (p : α → Bool) (l t : List α) : Prop where
  split : ∃ left right, l = left ++ t ++ right ∧ (∀ x ∈ left, p x) ∧ ∀ x ∈ right, p x
  first : ∀ x, t.head? = some x → p x = false
  last : ∀ x, t.getLast? = some x → p x = false

variable {p : α → Bool} {l t : List α}

/-- The stripped list is what stripping leaves. -/
theorem stripsTo_stripWhile (p : α → Bool) (l : List α) : StripsTo p l (stripWhile p l) where
  split := by
    refine ⟨l.takeWhile p, (l.dropWhile p).rtakeWhile p, ?_, fun x hx => ?_, fun x hx => ?_⟩
    · rw [stripWhile, List.append_assoc, List.rdropWhile_append_rtakeWhile,
        List.takeWhile_append_dropWhile]
    · exact List.mem_takeWhile_imp hx
    · exact List.mem_rtakeWhile_imp hx
  first x hx := by
    -- what is left starts where the first loop stopped
    obtain ⟨rest, hrest⟩ := List.rdropWhile_prefix p (l := l.dropWhile p)
    have hhead : (l.dropWhile p).head? = some x := by
      rw [← hrest, List.head?_append, ← stripWhile, hx, Option.some_or]
    have hnot := List.head?_dropWhile_not p l
    rw [hhead] at hnot
    exact hnot
  last x hx := by
    have hne : (l.dropWhile p).rdropWhile p ≠ [] := by
      intro hnil
      rw [stripWhile, hnil] at hx
      cases hx
    have hnot := List.rdropWhile_last_not p _ hne
    rw [stripWhile, List.getLast?_eq_some_getLast hne, Option.some.injEq] at hx
    rw [hx] at hnot
    exact Bool.eq_false_iff.mpr hnot

/-- **Stripping is determined by its description.** -/
theorem stripsTo_iff : StripsTo p l t ↔ t = stripWhile p l := by
  constructor
  · rintro ⟨⟨left, right, rfl, hleft, hright⟩, hfirst, hlast⟩
    rw [stripWhile, List.append_assoc, List.dropWhile_append_of_pos hleft]
    cases t with
    | nil =>
        have hdrop : right.dropWhile p = [] := List.dropWhile_eq_nil_iff.mpr hright
        rw [List.nil_append, hdrop, List.rdropWhile_nil]
    | cons x xs =>
        have hx : p x = false := hfirst x rfl
        rw [List.cons_append, List.dropWhile_cons_of_neg (by simp [hx]), ← List.cons_append]
        have hback : (x :: xs).rdropWhile p = x :: xs := by
          refine List.rdropWhile_eq_self_iff.mpr fun hne hp => ?_
          have := hlast _ (List.getLast?_eq_some_getLast hne)
          rw [hp] at this
          cases this
        rw [List.rdropWhile, List.reverse_append,
          List.dropWhile_append_of_pos (by simpa using hright), ← List.rdropWhile, hback]
  · rintro rfl
    exact stripsTo_stripWhile p l

/-! ### Fields -/

/-- `row` consists of the fields `fields`, joined by the separator. -/
structure FieldsOf [DecidableEq α] (sep : α) (row : List α) (fields : List (List α)) : Prop where
  nonempty : fields ≠ []
  free : ∀ field ∈ fields, sep ∉ field
  joined : row = [sep].intercalate fields

variable [DecidableEq α] {sep : α} {row : List α} {fields : List (List α)}

/-- No field contains the separator. -/
theorem not_mem_of_mem_splitOn (sep : α) (row : List α) :
    ∀ field ∈ row.splitOn sep, sep ∉ field := by
  induction row with
  | nil => simp
  | cons x xs ih =>
      rw [List.splitOn_cons_eq_if_modifyHead]
      by_cases hx : x = sep
      · subst hx
        simpa using ih
      · rw [if_neg (by simpa using hx)]
        cases hsplit : xs.splitOn sep with
        | nil => simp
        | cons f fs =>
            rw [hsplit] at ih
            intro field hfield
            rw [List.modifyHead_cons] at hfield
            rcases List.mem_cons.mp hfield with rfl | hmem
            · have hf := ih f List.mem_cons_self
              simp [hf, Ne.symm hx]
            · exact ih field (List.mem_cons_of_mem _ hmem)

/-- **A row has exactly one decomposition into fields.** -/
theorem fieldsOf_iff : FieldsOf sep row fields ↔ fields = row.splitOn sep := by
  constructor
  · rintro ⟨hne, hfree, rfl⟩
    exact (List.splitOn_intercalate sep hfree hne).symm
  · rintro rfl
    exact ⟨List.splitOn_ne_nil sep row, not_mem_of_mem_splitOn sep row,
      (List.intercalate_splitOn sep).symm⟩

omit [DecidableEq α] in
/-- A character of the joined fields is the separator or one of a field. -/
theorem mem_intercalate {c : α} (h : c ∈ [sep].intercalate fields) :
    c = sep ∨ ∃ field ∈ fields, c ∈ field := by
  induction fields with
  | nil => cases h
  | cons field fields ih =>
      cases fields with
      | nil => exact .inr ⟨field, List.mem_cons_self, by simpa [List.intercalate] using h⟩
      | cons next fields =>
          rw [List.intercalate_cons_cons, List.mem_append, List.mem_append,
            List.mem_singleton] at h
          rcases h with (h | h) | h
          · exact .inr ⟨field, List.mem_cons_self, h⟩
          · exact .inl h
          · rcases ih h with h | ⟨field', hfield', hc⟩
            · exact .inl h
            · exact .inr ⟨field', List.mem_cons_of_mem _ hfield', hc⟩

/-- The first field and the rest of a row. -/
theorem splitOn_eq (sep : α) (row : List α) :
    row.splitOn sep =
      match row.dropWhile (· ≠ sep) with
      | [] => [row.takeWhile (· ≠ sep)]
      | _ :: rest => row.takeWhile (· ≠ sep) :: rest.splitOn sep := by
  induction row with
  | nil => rfl
  | cons x xs ih =>
      rw [List.splitOn_cons_eq_if_modifyHead]
      by_cases hx : x = sep
      · simp [hx]
      · rw [if_neg (by simpa using hx), ih, List.dropWhile_cons_of_pos (by simpa using hx),
          List.takeWhile_cons_of_pos (by simpa using hx)]
        cases xs.dropWhile (· ≠ sep) <;> rfl

/-- A text is cut at the first separator. -/
theorem cut_append_cons {text : List α} (h : sep ∉ text) (rest : List α) :
    (text ++ sep :: rest).takeWhile (· ≠ sep) = text ∧
      (text ++ sep :: rest).dropWhile (· ≠ sep) = sep :: rest := by
  have hfree : ∀ c ∈ text, decide (c ≠ sep) = true := fun c hc =>
    decide_eq_true fun heq => h (heq ▸ hc)
  rw [List.takeWhile_append_of_pos hfree, List.dropWhile_append_of_pos hfree]
  exact ⟨by simp, by simp⟩

/-! ### Lines -/

/-- `getline`: the characters up to the next line feed, which is consumed; there is no line
at the end of the stream. -/
def getline : List Char → Option (List Char × List Char)
  | [] => none
  | c :: cs =>
      some ((c :: cs).takeWhile (· ≠ '\n'), ((c :: cs).dropWhile (· ≠ '\n')).tail)

/-- Every line makes the stream shorter. -/
theorem length_getline {stream line rest : List Char} (h : getline stream = some (line, rest)) :
    rest.length < stream.length := by
  cases stream with
  | nil => cases h
  | cons c cs =>
      obtain ⟨-, rfl⟩ := Prod.mk.inj (Option.some.inj h)
      have hle := (List.dropWhile_suffix (l := c :: cs) (· ≠ '\n')).length_le
      simp only [List.length_tail, List.length_cons] at hle ⊢
      omega

/-- The lines that repeated calls of `getline` yield. -/
def lines (stream : List Char) : List (List Char) :=
  match _h : getline stream with
  | none => []
  | some (line, rest) => line :: lines rest
termination_by stream.length
decreasing_by exact length_getline _h

/-- A stream without a line has no lines. -/
theorem lines_of_none {stream : List Char} (h : getline stream = none) : lines stream = [] := by
  rw [lines]
  split
  · rfl
  · rename_i heq
    rw [h] at heq
    cases heq

/-- The first line of a stream, and the others. -/
theorem lines_of_some {stream line rest : List Char} (h : getline stream = some (line, rest)) :
    lines stream = line :: lines rest := by
  rw [lines]
  split
  · rename_i heq
    rw [h] at heq
    cases heq
  · rename_i heq
    rw [h, Option.some.injEq, Prod.mk.injEq] at heq
    rw [heq.1, heq.2]

/-- A line ends at a line feed, or at the end of the stream if it is not empty. -/
theorem getline_eq_some_iff {stream line rest : List Char} :
    getline stream = some (line, rest) ↔
      '\n' ∉ line ∧ (stream = line ++ '\n' :: rest ∨ stream = line ∧ line ≠ [] ∧ rest = []) := by
  constructor
  · intro h
    cases stream with
    | nil => cases h
    | cons c cs =>
        obtain ⟨hline, hrest⟩ := Prod.mk.inj (Option.some.inj h)
        have hsplit := List.takeWhile_append_dropWhile (p := (· ≠ '\n')) (l := c :: cs)
        have hfree : '\n' ∉ line := by
          rw [← hline]
          intro hmem
          simpa using List.mem_takeWhile_imp hmem
        refine ⟨hfree, ?_⟩
        rw [hline] at hsplit
        cases hdrop : (c :: cs).dropWhile (· ≠ '\n') with
        | nil =>
            rw [hdrop] at hrest hsplit
            rw [List.append_nil] at hsplit
            exact .inr ⟨hsplit.symm, hsplit ▸ List.cons_ne_nil c cs, hrest.symm⟩
        | cons d ds =>
            have hd : d = '\n' := by
              have := List.head?_dropWhile_not (· ≠ '\n') (c :: cs)
              rw [hdrop] at this
              simpa using this
            rw [hdrop] at hrest hsplit
            rw [hd] at hsplit
            exact .inl (hrest ▸ hsplit.symm)
  · rintro ⟨hfree, hstream⟩
    have hall : ∀ c ∈ line, decide (c ≠ '\n') = true := fun c hc =>
      decide_eq_true fun heq => hfree (heq ▸ hc)
    rcases hstream with rfl | ⟨rfl, hne, rfl⟩
    · cases line with
      | nil => rfl
      | cons c cs =>
          rw [List.cons_append, getline, ← List.cons_append, List.takeWhile_append_of_pos hall,
            List.dropWhile_append_of_pos hall]
          simp
    · cases stream with
      | nil => exact absurd rfl hne
      | cons c cs =>
          rw [getline, List.takeWhile_eq_self_iff.mpr hall, List.dropWhile_eq_nil_iff.mpr hall,
            List.tail_nil]

/-- Write lines, each with a line feed behind it. -/
def unlines (ls : List (List Char)) : List Char := ls.flatMap fun line => line ++ ['\n']

/-- **Lines are read as they were written.** -/
theorem lines_unlines {ls : List (List Char)} (h : ∀ line ∈ ls, '\n' ∉ line) :
    lines (unlines ls) = ls := by
  induction ls with
  | nil => exact lines_of_none rfl
  | cons line ls ih =>
      have hget : getline (unlines (line :: ls)) = some (line, unlines ls) :=
        getline_eq_some_iff.mpr ⟨h line List.mem_cons_self, .inl (by simp [unlines])⟩
      rw [lines_of_some hget, ih fun l hl => h l (List.mem_cons_of_mem _ hl)]

/-- What is written behind the lines is read behind them. -/
theorem lines_unlines_append {ls : List (List Char)} (h : ∀ line ∈ ls, '\n' ∉ line)
    (rest : List Char) : lines (unlines ls ++ rest) = ls ++ lines rest := by
  induction ls with
  | nil => rfl
  | cons line ls ih =>
      have hget : getline (unlines (line :: ls) ++ rest) = some (line, unlines ls ++ rest) :=
        getline_eq_some_iff.mpr ⟨h line List.mem_cons_self, .inl (by simp [unlines])⟩
      rw [lines_of_some hget, ih fun l hl => h l (List.mem_cons_of_mem _ hl), List.cons_append]

/-- The text without the lines whose number is in `drop`, counted from `n`; a line goes with
its line feed. -/
def deleteLines (drop : ℕ → Bool) (n : ℕ) (stream : List Char) : List Char :=
  match _h : getline stream with
  | none => []
  | some (_, rest) =>
      (if drop n then [] else stream.take (stream.length - rest.length)) ++
        deleteLines drop (n + 1) rest
termination_by stream.length
decreasing_by exact length_getline _h

/-- In a stream without a line there is nothing to delete. -/
theorem deleteLines_of_none {stream : List Char} (h : getline stream = none) (drop : ℕ → Bool)
    (n : ℕ) : deleteLines drop n stream = [] := by
  rw [deleteLines]
  split
  · rfl
  · rename_i heq
    rw [h] at heq
    cases heq

/-- The first line is deleted or kept, with its line feed. -/
theorem deleteLines_of_some {stream line rest : List Char}
    (h : getline stream = some (line, rest)) (drop : ℕ → Bool) (n : ℕ) :
    deleteLines drop n stream =
      (if drop n then [] else stream.take (stream.length - rest.length)) ++
        deleteLines drop (n + 1) rest := by
  rw [deleteLines]
  split
  · rename_i heq
    rw [h] at heq
    cases heq
  · rename_i heq
    rw [h, Option.some.injEq, Prod.mk.injEq] at heq
    rw [heq.2]

/-- A line read off a stream can be put in front of another one. -/
theorem getline_take_append {stream line rest : List Char}
    (h : getline stream = some (line, rest)) {more : List Char} (hmore : rest = [] → more = []) :
    getline (stream.take (stream.length - rest.length) ++ more) = some (line, more) := by
  obtain ⟨hfree, rfl | ⟨rfl, hne, rfl⟩⟩ := getline_eq_some_iff.mp h
  · have hchunk : (line ++ '\n' :: rest).take ((line ++ '\n' :: rest).length - rest.length) =
        line ++ ['\n'] := by
      rw [List.append_cons, List.length_append, Nat.add_sub_cancel, List.take_left]
    rw [hchunk]
    exact getline_eq_some_iff.mpr ⟨hfree, .inl (by simp)⟩
  · rw [hmore rfl]
    simpa using h

/-- **Deleting lines deletes exactly those lines.** -/
theorem lines_deleteLines (drop : ℕ → Bool) (n : ℕ) (stream : List Char) :
    lines (deleteLines drop n stream) =
      (((lines stream).zipIdx n).filter fun x => !drop x.2).map Prod.fst := by
  induction hlen : stream.length using Nat.strong_induction_on generalizing n stream with
  | _ len ih =>
      cases hline : getline stream with
      | none => rw [deleteLines_of_none hline, lines_of_none hline, lines_of_none rfl]; rfl
      | some r =>
          obtain ⟨line, rest⟩ := r
          have htail := ih rest.length (hlen ▸ length_getline hline) (n + 1) rest rfl
          rw [deleteLines_of_some hline, lines_of_some hline, List.zipIdx_cons, List.filter_cons]
          cases hdrop : drop n with
          | true => simpa [hdrop] using htail
          | false =>
              have hempty : rest = [] → deleteLines drop (n + 1) rest = [] := by
                rintro rfl
                exact deleteLines_of_none rfl drop (n + 1)
              have hget := getline_take_append hline hempty
              rw [if_neg Bool.false_ne_true, lines_of_some hget, htail]
              simp

end Text
