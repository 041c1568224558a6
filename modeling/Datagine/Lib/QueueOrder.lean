import Datagine.Lib.Mealy

/-!
# Queues Served in Any Order

A machine that keeps a queue. A step may let elements of the queue go, from any place, and may put
new ones at its end, but it moves none (`KeepsOrder`). Over a whole run the queue is then made of
the elements that stayed all the time, in their old order, and of arrivals behind them
(`queue_run`), so that the elements ahead of one that stays only become fewer (`ahead_run`). An
element that leaves and comes back counts as an arrival.
-/

namespace QueueOrder

open Mealy

variable {α σ ι ο : Type*} [DecidableEq α]

/-- Some elements are gone and new ones are at the end. -/
def KeepsOrder (q q' : List α) : Prop :=
  ∃ new, (∀ a ∈ new, a ∉ q) ∧ q' = q.filter (fun a => a ∈ q') ++ new

/-- The element is in the queue at every moment of the run. -/
def stays (queue : σ → List α) (step : σ → ι → ο × σ) (a : α) : σ → List ι → Bool
  | s, [] => decide (a ∈ queue s)
  | s, i :: is => decide (a ∈ queue s) && stays queue step a (step s i).2 is

/-- What is ahead of an element. -/
def ahead (q : List α) (a : α) : List α := q.takeWhile (· ≠ a)

variable {queue : σ → List α} {step : σ → ι → ο × σ} {q q' : List α} {a : α}

/-! ### One step -/

/-- Joining at the back keeps the order of the others. -/
theorem KeepsOrder.concat (ha : a ∉ q) : KeepsOrder q (q ++ [a]) := by
  refine ⟨[a], fun b hb => List.mem_singleton.mp hb ▸ ha, ?_⟩
  congr 1
  refine (List.filter_eq_self.mpr fun b hb => ?_).symm
  exact decide_eq_true (List.mem_append_left _ hb)

/-- Leaving keeps the order of those that stay. -/
theorem KeepsOrder.filter (q : List α) (keep : α → Bool) :
    KeepsOrder q (q.filter keep) := by
  refine ⟨[], List.forall_mem_nil _, ?_⟩
  rw [List.append_nil]
  refine List.filter_congr fun b hb => ?_
  rw [Bool.eq_iff_iff, decide_eq_true_iff, List.mem_filter, and_iff_right hb]

/-- Nothing happens to the order when nothing happens. -/
theorem KeepsOrder.refl (q : List α) : KeepsOrder q q := by
  have hall := KeepsOrder.filter q fun _ => true
  rwa [List.filter_eq_self.mpr fun _ _ => rfl] at hall

/-! ### Whole runs -/

/-- What stays is in the queue to begin with. -/
theorem mem_of_stays {s : σ} {is : List ι} (h : stays queue step a s is = true) : a ∈ queue s := by
  cases is with
  | nil => exact of_decide_eq_true h
  | cons i is => exact of_decide_eq_true (Bool.and_eq_true_iff.mp h).1

/-- What is not in the queue does not stay. -/
theorem stays_eq_false {s : σ} (h : a ∉ queue s) (is : List ι) :
    stays queue step a s is = false :=
  Bool.eq_false_iff.mpr fun hstays => h (mem_of_stays hstays)

/-- **The queue after a run**: those who stayed, in order, and behind them those who did not. -/
theorem queue_run {I : σ → Prop}
    (hstep : ∀ s i, I s → I (step s i).2 ∧ KeepsOrder (queue s) (queue (step s i).2)) {s : σ}
    (hs : I s) (is : List ι) :
    ∃ arrivals, (∀ a ∈ arrivals, stays queue step a s is = false) ∧
      queue (finalState step s is) =
        (queue s).filter (fun a => stays queue step a s is) ++ arrivals := by
  induction is generalizing s with
  | nil =>
      refine ⟨[], List.forall_mem_nil _, ?_⟩
      rw [List.append_nil]
      exact (List.filter_eq_self.mpr fun a ha => decide_eq_true ha).symm
  | cons i is ih =>
      obtain ⟨hs', new, hnew, hqueue⟩ := hstep s i hs
      obtain ⟨arrivals, harrivals, hrun⟩ := ih hs'
      set s' := (step s i).2
      refine ⟨new.filter (fun a => stays queue step a s' is) ++ arrivals, ?_, ?_⟩
      · intro a ha
        rcases List.mem_append.mp ha with hmem | hmem
        · exact stays_eq_false (hnew a (List.mem_filter.mp hmem).1) _
        · rw [stays, harrivals a hmem, Bool.and_false]
      · rw [finalState_cons, hrun, hqueue, List.filter_append, List.append_assoc,
          List.filter_filter]
        congr 1
        refine List.filter_congr fun a ha => ?_
        have hmem : decide (a ∈ queue s) = true := decide_eq_true ha
        rw [stays, hmem, Bool.true_and, Bool.and_eq_left_iff_imp]
        exact fun h => decide_eq_true (mem_of_stays h)

/-- What is ahead of an element that is kept, when others are dropped and new ones come. -/
theorem ahead_filter_append {keep : α → Bool} (ha : a ∈ q) (hkeep : keep a = true)
    (new : List α) : ahead (q.filter keep ++ new) a = (ahead q a).filter keep := by
  induction q with
  | nil => cases ha
  | cons b q ih =>
      by_cases hb : b = a
      · subst hb
        rw [List.filter_cons_of_pos hkeep, ahead, ahead, List.cons_append,
          List.takeWhile_cons_of_neg (by simp), List.takeWhile_cons_of_neg (by simp)]
        rfl
      · have ha' : a ∈ q := (List.mem_cons.mp ha).resolve_left fun h => hb h.symm
        have hahead : ahead (b :: q) a = b :: ahead q a :=
          List.takeWhile_cons_of_pos (by simpa using hb)
        rw [hahead, List.filter_cons, List.filter_cons, ← ih ha']
        split_ifs
        · exact List.takeWhile_cons_of_pos (by simpa using hb)
        · rfl

/-- **Nobody gets ahead of an element that stays.** -/
theorem ahead_run {I : σ → Prop}
    (hstep : ∀ s i, I s → I (step s i).2 ∧ KeepsOrder (queue s) (queue (step s i).2)) {s : σ}
    (hs : I s) (is : List ι) (ha : stays queue step a s is = true) :
    ahead (queue (finalState step s is)) a =
      (ahead (queue s) a).filter fun b => stays queue step b s is := by
  obtain ⟨arrivals, -, hrun⟩ := queue_run hstep hs is
  rw [hrun]
  exact ahead_filter_append (mem_of_stays ha) ha arrivals

end QueueOrder
