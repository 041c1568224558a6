import Mathlib.Order.Basic

/-!
# Traced Computations

A computation that lists what it does beside its result: the first component is the list, in
order, and the second component the result. `andThen` runs one computation behind another and
`andThenSome` does so unless the first one failed, so a traced version of a program is written
statement by statement, in the shape of the program.

A traced version says something about the program when its results are those of the program;
the rules of this module take the two components of a sequence apart, so that both the list and
the result are found by rewriting.
-/

namespace Traced

variable {α β γ : Type*}

/-- A computation that does nothing worth listing. -/
def done (result : β) : List α × β := ([], result)

/-- A computation behind another. -/
def andThen (first : List α × β) (next : β → List α × γ) : List α × γ :=
  (first.1 ++ (next first.2).1, (next first.2).2)

/-- A computation behind another that may fail: after a failure nothing more is done. -/
def andThenSome (first : List α × Option β) (next : β → List α × Option γ) :
    List α × Option γ :=
  andThen first fun result =>
    match result with
    | none => done none
    | some value => next value

/-- Nothing is listed. -/
@[simp] theorem done_fst (result : β) : (done result : List α × β).1 = [] := rfl

/-- The result is returned. -/
@[simp] theorem done_snd (result : β) : (done result : List α × β).2 = result := rfl

/-- The lists stand one behind the other. -/
@[simp] theorem andThen_fst (first : List α × β) (next : β → List α × γ) :
    (andThen first next).1 = first.1 ++ (next first.2).1 := rfl

/-- The result is that of the second computation, on the result of the first. -/
@[simp] theorem andThen_snd (first : List α × β) (next : β → List α × γ) :
    (andThen first next).2 = (next first.2).2 := rfl

/-- Only the last computation of a sequence fails by itself. -/
@[simp] theorem andThenSome_snd (first : List α × Option β) (next : β → List α × Option γ) :
    (andThenSome first next).2 = first.2.bind fun value => (next value).2 := by
  rw [andThenSome, andThen_snd]
  cases first.2 <;> rfl

/-- After a failure the list ends. -/
theorem andThenSome_none {first : List α × Option β} (h : first.2 = none)
    (next : β → List α × Option γ) : (andThenSome first next).1 = first.1 := by
  rw [andThenSome, andThen_fst, h]
  exact List.append_nil _

/-- After a success the list goes on. -/
theorem andThenSome_some {first : List α × Option β} {value : β} (h : first.2 = some value)
    (next : β → List α × Option γ) :
    (andThenSome first next).1 = first.1 ++ (next value).1 := by
  rw [andThenSome, andThen_fst, h]

end Traced
