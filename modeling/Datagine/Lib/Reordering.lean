import Datagine.Lib.Mealy

/-!
# Reordering the Inputs of a Machine

Inputs that do not depend on each other may be swapped when they stand next to each other.
`Reorders indep l l'` says that `l'` comes from `l` by such swaps. When swapping two
independent inputs changes neither their answers nor, up to an equivalence that the machine
cannot observe, the state behind them, then all reorderings of a run give every input its
answer and end in equivalent states (`reorder`).
-/

namespace Mealy

variable {σ ι ο : Type*} {step : σ → ι → ο × σ}

/-- `l'` is obtained from `l` by repeatedly swapping neighbours that are independent. -/
inductive Reorders (indep : ι → ι → Prop) (l : List ι) : List ι → Prop
  | refl : Reorders indep l l
  | swap (pre : List ι) (i j : ι) (post : List ι) :
      Reorders indep l (pre ++ i :: j :: post) → indep i j →
        Reorders indep l (pre ++ j :: i :: post)

/-- Every input of a run with its answer. -/
def answered (step : σ → ι → ο × σ) (s : σ) (is : List ι) : List (ι × ο) :=
  is.zip (outputs step s is)

/-- The first input with its answer. -/
theorem answered_cons (s : σ) (i : ι) (is : List ι) :
    answered step s (i :: is) = (i, (step s i).1) :: answered step (step s i).2 is := rfl

/-- The answered inputs of a run in two parts. -/
theorem answered_append (s : σ) (is js : List ι) :
    answered step s (is ++ js) = answered step s is ++ answered step (finalState step s is) js := by
  induction is generalizing s with
  | nil => rfl
  | cons i is ih => rw [List.cons_append, answered_cons, answered_cons, ih]; rfl

/-- The answers to the inputs that satisfy `p`. -/
def answersWhere (p : ι → Bool) (step : σ → ι → ο × σ) (s : σ) (is : List ι) : List ο :=
  ((answered step s is).filter fun x => p x.1).map Prod.snd

/-- The selected answers of a run in two parts. -/
theorem answersWhere_append (p : ι → Bool) (s : σ) (is js : List ι) :
    answersWhere p step s (is ++ js) =
      answersWhere p step s is ++ answersWhere p step (finalState step s is) js := by
  rw [answersWhere, answered_append, List.filter_append, List.map_append]
  rfl

/-- The first input, if its answer is selected. -/
theorem answersWhere_cons (p : ι → Bool) (s : σ) (i : ι) (is : List ι) :
    answersWhere p step s (i :: is) =
      (if p i then [(step s i).1] else []) ++ answersWhere p step (step s i).2 is := by
  rw [answersWhere, answered_cons, List.filter_cons]
  cases p i <;> rfl

/-- All answers are selected when all inputs are. -/
theorem answersWhere_eq_outputs {p : ι → Bool} {is : List ι} (h : ∀ i ∈ is, p i = true) (s : σ) :
    answersWhere p step s is = outputs step s is := by
  have hall : (answered step s is).filter (fun x => p x.1) = answered step s is :=
    List.filter_eq_self.mpr fun x hx => h x.1 (List.of_mem_zip hx).1
  rw [answersWhere, hall, answered, List.map_snd_zip (by simp)]

/-- No answer is selected when no input is. -/
theorem answersWhere_eq_nil {p : ι → Bool} {is : List ι} (h : ∀ i ∈ is, p i = false) (s : σ) :
    answersWhere p step s is = [] := by
  have hnone : (answered step s is).filter (fun x => p x.1) = [] :=
    List.filter_eq_nil_iff.mpr fun x hx => by simp [h x.1 (List.of_mem_zip hx).1]
  rw [answersWhere, hnone, List.map_nil]

section

variable {I : σ → Prop} {E : σ → σ → Prop} {indep : ι → ι → Prop}

/-- **Reordered runs.** `E` relates states that answer alike and stay related; two
independent inputs are answered alike in either order, and end in related states. Then every
reordering gives each input its answer and ends in a related state. -/
theorem reorder (step : σ → ι → ο × σ) (hinv : ∀ s i, I s → I (step s i).2) (hrefl : ∀ s, E s s)
    (htrans : ∀ s t u, E s t → E t u → E s u)
    (hcongr : ∀ s t i, I s → E s t → (step s i).1 = (step t i).1 ∧ E (step s i).2 (step t i).2)
    (hcomm : ∀ s i j, I s → indep i j →
      (step (step s j).2 i).1 = (step s i).1 ∧ (step (step s i).2 j).1 = (step s j).1 ∧
        E (step (step s i).2 j).2 (step (step s j).2 i).2)
    {s : σ} (hs : I s) {l l' : List ι} (h : Reorders indep l l') :
    (answered step s l).Perm (answered step s l') ∧
      E (finalState step s l) (finalState step s l') := by
  induction h with
  | refl => exact ⟨List.Perm.refl _, hrefl _⟩
  | swap pre i j post _ hij ih =>
      obtain ⟨hperm, hfinal⟩ := ih
      -- the two inputs are read in the state behind `pre`
      have hI : I (finalState step s pre) := finalState_inv hinv hs pre
      obtain ⟨hi, hj, hE⟩ := hcomm _ i j hI hij
      have hlike : ∀ u v k, I u ∧ E u v → (step u k).1 = (step v k).1 ∧
          I (step u k).2 ∧ E (step u k).2 (step v k).2 := by
        rintro u v k ⟨hu, huv⟩
        obtain ⟨hout, hnext⟩ := hcongr u v k hu huv
        exact ⟨hout, hinv u k hu, hnext⟩
      obtain ⟨houts, -, hend⟩ := simulation (R := fun u v => I u ∧ E u v) hlike
        ⟨hinv _ j (hinv _ i hI), hE⟩ post
      have hrest : answered step (step (step (finalState step s pre) i).2 j).2 post =
          answered step (step (step (finalState step s pre) j).2 i).2 post := by
        rw [answered, answered, houts]
      refine ⟨hperm.trans ?_, htrans _ _ _ hfinal ?_⟩
      · rw [answered_append, answered_append, answered_cons, answered_cons, answered_cons,
          answered_cons, hi, hj, hrest]
        exact (List.Perm.swap _ _ _).append_left _
      · rw [finalState_append, finalState_append]
        exact hend

end

end Mealy
