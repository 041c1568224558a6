import Mathlib.Data.List.Induction

/-!
# Deterministic Machines with Outputs

A deterministic machine is a function `step : σ → ι → ο × σ`: it reads an input, answers,
and moves to a new state. `finalState` and `outputs` run it over a list of inputs. The
rules of this module turn a fact about one step into a fact about every run: an
invariant (`finalState_inv`, and `forall_prefix_iff` when steps keep it only under a
condition), a simulation between two machines (`simulation`), and simulations in which one
machine ignores some of its inputs, by their answers (`simulation_kept`) or by the inputs
themselves (`simulation_filter`).

A machine whose answers are flags can be halted by its first `true`: `untilStop` is the part
of the input it reads and `haltState` the state in which it halts. Two such machines simulate each
other up to the point where both halt (`haltState_simulation`).

A run whose answers are all good, from one state to another (`Leads`), is composed like the program
that makes its inputs: one after the other (`Leads.append`), and for a counted loop from an
invariant that gives the state before each pass (`Leads.loop`).
-/

namespace Mealy

variable {σ τ ι ο : Type*}

/-- The state reached from `s` by the inputs, read left to right. -/
def finalState (step : σ → ι → ο × σ) (s : σ) (is : List ι) : σ :=
  is.foldl (fun s i => (step s i).2) s

/-- The answers given on the way. -/
def outputs (step : σ → ι → ο × σ) : σ → List ι → List ο
  | _, [] => []
  | s, i :: is => (step s i).1 :: outputs step (step s i).2 is

variable {step : σ → ι → ο × σ} {step' : τ → ι → ο × τ}

/-- No inputs leave the state. -/
@[simp] theorem finalState_nil (s : σ) : finalState step s [] = s := rfl

/-- The first input. -/
@[simp] theorem finalState_cons (s : σ) (i : ι) (is : List ι) :
    finalState step s (i :: is) = finalState step (step s i).2 is := rfl

/-- A run in two parts. -/
theorem finalState_append (s : σ) (is js : List ι) :
    finalState step s (is ++ js) = finalState step (finalState step s is) js :=
  List.foldl_append

/-- The state behind the last input. -/
theorem finalState_concat (s : σ) (is : List ι) (i : ι) :
    finalState step s (is ++ [i]) = (step (finalState step s is) i).2 :=
  finalState_append s is [i]

/-- No inputs, no answers. -/
@[simp] theorem outputs_nil (s : σ) : outputs step s [] = [] := rfl

/-- The first answer. -/
@[simp] theorem outputs_cons (s : σ) (i : ι) (is : List ι) :
    outputs step s (i :: is) = (step s i).1 :: outputs step (step s i).2 is := rfl

/-- Every input is answered once. -/
@[simp] theorem length_outputs (s : σ) (is : List ι) : (outputs step s is).length = is.length := by
  induction is generalizing s with
  | nil => rfl
  | cons i is ih => rw [outputs_cons, List.length_cons, List.length_cons, ih]

/-- The answers of a run in two parts. -/
theorem outputs_append (s : σ) (is js : List ι) :
    outputs step s (is ++ js) = outputs step s is ++ outputs step (finalState step s is) js := by
  induction is generalizing s with
  | nil => rfl
  | cons i is ih => rw [List.cons_append, outputs_cons, ih, outputs_cons]; rfl

/-- The answer to the last input. -/
theorem outputs_concat (s : σ) (is : List ι) (i : ι) :
    outputs step s (is ++ [i]) = outputs step s is ++ [(step (finalState step s is) i).1] :=
  outputs_append s is [i]

/-- Renaming the inputs of a machine renames them in its runs. -/
theorem run_map {κ : Type*} (step : σ → ι → ο × σ) (f : κ → ι) (s : σ) (is : List κ) :
    outputs (fun s i => step s (f i)) s is = outputs step s (is.map f) ∧
      finalState (fun s i => step s (f i)) s is = finalState step s (is.map f) := by
  induction is generalizing s with
  | nil => exact ⟨rfl, rfl⟩
  | cons i is ih =>
      obtain ⟨houts, hfinal⟩ := ih (step s (f i)).2
      rw [outputs_cons, List.map_cons, outputs_cons, houts, finalState_cons, finalState_cons]
      exact ⟨rfl, hfinal⟩

/-- **Invariants.** What one step preserves, every run preserves. -/
theorem finalState_inv {P : σ → Prop} (hstep : ∀ s i, P s → P (step s i).2) {s : σ}
    (hs : P s) (is : List ι) : P (finalState step s is) := by
  induction is generalizing s with
  | nil => exact hs
  | cons i is ih => exact ih (hstep s i hs)

/-- **Conditional invariants.** When, from every state in `I`, a step keeps `P` exactly if
it meets the condition `C`, then `P` holds in every state of a run exactly if every step of
the run meets `C`. -/
theorem forall_prefix_iff {I P : σ → Prop} {C : σ → ι → Prop}
    (hinv : ∀ s i, I s → I (step s i).2)
    (hstep : ∀ s i, I s → P s → (P (step s i).2 ↔ C s i)) {s : σ} (hI : I s) (hP : P s)
    (is : List ι) :
    (∀ pre, pre <+: is → P (finalState step s pre)) ↔
      ∀ pre i, pre ++ [i] <+: is → C (finalState step s pre) i := by
  constructor
  · intro h pre i hpre
    have hIpre : I (finalState step s pre) := finalState_inv hinv hI pre
    have hnext := h _ hpre
    rw [finalState_concat] at hnext
    exact (hstep _ i hIpre (h pre ((List.prefix_append pre [i]).trans hpre))).mp hnext
  · intro h pre
    -- the longer prefixes build on the shorter ones
    induction pre using List.reverseRecOn with
    | nil => exact fun _ => hP
    | append_singleton pre i ih =>
        intro hpre
        have hIpre : I (finalState step s pre) := finalState_inv hinv hI pre
        have hPpre := ih ((List.prefix_append pre [i]).trans hpre)
        rw [finalState_concat]
        exact (hstep _ i hIpre hPpre).mpr (h pre i hpre)

/-- **Simulation.** Machines in related states that answer the given inputs alike and stay
related give the same answers along the run, and end in related states. -/
theorem simulation_of_mem {R : σ → τ → Prop} {is : List ι}
    (hstep : ∀ s t, ∀ i ∈ is, R s t →
      (step s i).1 = (step' t i).1 ∧ R (step s i).2 (step' t i).2)
    {s : σ} {t : τ} (hst : R s t) :
    outputs step s is = outputs step' t is ∧
      R (finalState step s is) (finalState step' t is) := by
  induction is generalizing s t with
  | nil => exact ⟨rfl, hst⟩
  | cons i is ih =>
      obtain ⟨hout, hst'⟩ := hstep s t i List.mem_cons_self hst
      obtain ⟨houts, hfinal⟩ := ih (fun s t j hj => hstep s t j (List.mem_cons_of_mem i hj)) hst'
      refine ⟨?_, hfinal⟩
      rw [outputs_cons, outputs_cons, hout, houts]

/-- The form of `simulation_of_mem` for all inputs. -/
theorem simulation {R : σ → τ → Prop}
    (hstep : ∀ s t i, R s t → (step s i).1 = (step' t i).1 ∧ R (step s i).2 (step' t i).2)
    {s : σ} {t : τ} (hst : R s t) (is : List ι) :
    outputs step s is = outputs step' t is ∧
      R (finalState step s is) (finalState step' t is) :=
  simulation_of_mem (fun s t i _ => hstep s t i) hst

/-- The inputs whose answer satisfies `keep`, each with its answer. -/
def kept (keep : ο → Bool) (step : σ → ι → ο × σ) (s : σ) (is : List ι) : List (ι × ο) :=
  (is.zip (outputs step s is)).filter fun x => keep x.2

/-- When the first machine stays related on the inputs it ignores, and answers like the second on
the others, the second machine run on the inputs that are not ignored gives them the answers
they had, and the runs end in related states. -/
theorem simulation_of_kept {R : σ → τ → Prop} {keep : ι × ο → Bool}
    (hdrop : ∀ s t i, R s t → keep (i, (step s i).1) = false → R (step s i).2 t)
    (hkeep : ∀ s t i, R s t → keep (i, (step s i).1) = true →
      (step s i).1 = (step' t i).1 ∧ R (step s i).2 (step' t i).2)
    {s : σ} {t : τ} (hst : R s t) (is : List ι) :
    outputs step' t (((is.zip (outputs step s is)).filter keep).map Prod.fst) =
        ((is.zip (outputs step s is)).filter keep).map Prod.snd ∧
      R (finalState step s is)
        (finalState step' t (((is.zip (outputs step s is)).filter keep).map Prod.fst)) := by
  induction is generalizing s t with
  | nil => exact ⟨rfl, hst⟩
  | cons i is ih =>
      rw [outputs_cons, List.zip_cons_cons, List.filter_cons, finalState_cons]
      cases hk : keep (i, (step s i).1) with
      | false =>
          rw [if_neg Bool.false_ne_true]
          exact ih (hdrop s t i hst hk)
      | true =>
          obtain ⟨hout, hst'⟩ := hkeep s t i hst hk
          obtain ⟨houts, hfinal⟩ := ih hst'
          rw [if_pos rfl, List.map_cons, List.map_cons, finalState_cons, outputs_cons, ← hout,
            houts]
          exact ⟨rfl, hfinal⟩

/-- **Simulation with ignored inputs.** The inputs are ignored by their answers. -/
theorem simulation_kept {R : σ → τ → Prop} (step : σ → ι → ο × σ) (step' : τ → ι → ο × τ)
    (keep : ο → Bool)
    (hdrop : ∀ s t i, R s t → keep (step s i).1 = false → R (step s i).2 t)
    (hkeep : ∀ s t i, R s t → keep (step s i).1 = true →
      (step s i).1 = (step' t i).1 ∧ R (step s i).2 (step' t i).2)
    {s : σ} {t : τ} (hst : R s t) (is : List ι) :
    outputs step' t ((kept keep step s is).map Prod.fst) = (kept keep step s is).map Prod.snd ∧
      R (finalState step s is) (finalState step' t ((kept keep step s is).map Prod.fst)) :=
  simulation_of_kept hdrop hkeep hst is

/-- **Simulation with dropped inputs.** The inputs are ignored whatever is answered. -/
theorem simulation_filter {R : σ → τ → Prop} {keep : ι → Bool}
    (hdrop : ∀ s t i, R s t → keep i = false → R (step s i).2 t)
    (hkeep : ∀ s t i, R s t → keep i = true →
      (step s i).1 = (step' t i).1 ∧ R (step s i).2 (step' t i).2)
    {s : σ} {t : τ} (hst : R s t) (is : List ι) :
    outputs step' t (is.filter keep) =
        ((is.zip (outputs step s is)).filter fun x => keep x.1).map Prod.snd ∧
      R (finalState step s is) (finalState step' t (is.filter keep)) := by
  have hinputs : is.filter keep =
      ((is.zip (outputs step s is)).filter fun x => keep x.1).map Prod.fst := by
    have hzip : (is.zip (outputs step s is)).map Prod.fst = is :=
      List.map_fst_zip (Nat.le_of_eq (length_outputs s is).symm)
    conv_lhs => rw [← hzip, List.filter_map]
    rfl
  rw [hinputs]
  exact simulation_of_kept hdrop hkeep hst is

/-- An answer is given to some input, in the state that the inputs before it leave. -/
theorem mem_outputs_iff {s : σ} {is : List ι} {o : ο} :
    o ∈ outputs step s is ↔
      ∃ pre i post, is = pre ++ i :: post ∧ (step (finalState step s pre) i).1 = o := by
  induction is generalizing s with
  | nil => simp
  | cons i is ih =>
      rw [outputs_cons, List.mem_cons, ih]
      constructor
      · rintro (rfl | ⟨pre, j, post, rfl, ho⟩)
        · exact ⟨[], i, is, rfl, rfl⟩
        · exact ⟨i :: pre, j, post, rfl, ho⟩
      · rintro ⟨pre, j, post, his, ho⟩
        cases pre with
        | nil =>
            obtain ⟨rfl, rfl⟩ := List.cons.inj his
            exact .inl ho.symm
        | cons k pre =>
            obtain ⟨rfl, rfl⟩ := List.cons.inj his
            exact .inr ⟨pre, j, post, rfl, ho⟩

/-- All answers of a run have a property if the answer behind every beginning of the run does. -/
theorem forall_mem_outputs_iff {P : ο → Prop} {s : σ} {is : List ι} :
    (∀ o ∈ outputs step s is, P o) ↔
      ∀ pre i, pre ++ [i] <+: is → P (step (finalState step s pre) i).1 := by
  constructor
  · rintro h pre i ⟨post, his⟩
    exact h _ (mem_outputs_iff.mpr ⟨pre, i, post, by rw [← his]; simp, rfl⟩)
  · rintro h o ho
    obtain ⟨pre, i, post, rfl, rfl⟩ := mem_outputs_iff.mp ho
    exact h pre i ⟨post, by simp⟩

/-! ### Machines that halt -/

variable {machine machine' : σ → ι → Bool × σ}

/-- The inputs read by a machine that halts behind its first answer `true`. -/
def untilStop (machine : σ → ι → Bool × σ) : σ → List ι → List ι
  | _, [] => []
  | s, i :: is => i :: if (machine s i).1 then [] else untilStop machine (machine s i).2 is

/-- The state in which such a machine halts. -/
def haltState (machine : σ → ι → Bool × σ) (s : σ) (is : List ι) : σ :=
  finalState machine s (untilStop machine s is)

/-- No inputs leave the state. -/
@[simp] theorem haltState_nil (s : σ) : haltState machine s [] = s := rfl

/-- The machine stops at the first input. -/
theorem haltState_cons_true {s : σ} {i : ι} (h : (machine s i).1 = true) (is : List ι) :
    haltState machine s (i :: is) = (machine s i).2 := by
  rw [haltState, untilStop, h, if_pos rfl]
  rfl

/-- The machine goes on behind the first input. -/
theorem haltState_cons_false {s : σ} {i : ι} (h : (machine s i).1 = false) (is : List ι) :
    haltState machine s (i :: is) = haltState machine (machine s i).2 is := by
  rw [haltState, untilStop, h, if_neg Bool.false_ne_true]
  rfl

/-- Two machines that do the same in every state of an invariant halt alike. -/
theorem haltState_congr {I : σ → Prop} {is : List ι}
    (hinv : ∀ s, ∀ i ∈ is, I s → I (machine s i).2)
    (heq : ∀ s, ∀ i ∈ is, I s → machine s i = machine' s i) {s : σ} (hs : I s) :
    haltState machine s is = haltState machine' s is := by
  induction is generalizing s with
  | nil => rfl
  | cons i is ih =>
      have hi := heq s i List.mem_cons_self hs
      cases hstop : (machine s i).1 with
      | true => rw [haltState_cons_true hstop, haltState_cons_true (hi ▸ hstop), hi]
      | false =>
          rw [haltState_cons_false hstop, haltState_cons_false (hi ▸ hstop), ← hi]
          exact ih (fun t j hj => hinv t j (List.mem_cons_of_mem i hj))
            (fun t j hj => heq t j (List.mem_cons_of_mem i hj)) (hinv s i List.mem_cons_self hs)

/-- **Simulation of machines that halt.** Machines in related states that answer related inputs
alike and stay related read related inputs, and halt in related states. -/
theorem haltState_simulation {κ : Type*} {left : σ → ι → Bool × σ} {right : τ → κ → Bool × τ}
    {R : σ → τ → Prop} {S : ι → κ → Prop}
    (hstep : ∀ s t i j, S i j → R s t →
      (left s i).1 = (right t j).1 ∧ R (left s i).2 (right t j).2)
    {s : σ} {t : τ} (hst : R s t) {is : List ι} {js : List κ} (hinputs : List.Forall₂ S is js) :
    List.Forall₂ S (untilStop left s is) (untilStop right t js) ∧
      R (haltState left s is) (haltState right t js) := by
  induction hinputs generalizing s t with
  | nil => exact ⟨.nil, hst⟩
  | @cons i j is js hij _ ih =>
      obtain ⟨hout, hst'⟩ := hstep s t i j hij hst
      cases hstop : (left s i).1 with
      | true =>
          have hstop' : (right t j).1 = true := hout ▸ hstop
          rw [haltState_cons_true hstop, haltState_cons_true hstop', untilStop, untilStop, hstop,
            hstop', if_pos rfl, if_pos rfl]
          exact ⟨.cons hij .nil, hst'⟩
      | false =>
          have hstop' : (right t j).1 = false := hout ▸ hstop
          obtain ⟨hread, hhalt⟩ := ih hst'
          rw [haltState_cons_false hstop, haltState_cons_false hstop', untilStop, untilStop, hstop,
            hstop', if_neg Bool.false_ne_true, if_neg Bool.false_ne_true]
          exact ⟨.cons hij hread, hhalt⟩

/-- A property that a step establishes exactly when it answers `true` holds at the end
exactly if some answer is `true`. -/
theorem haltState_iff_mem_outputs {P : σ → Prop} {is : List ι}
    (hstep : ∀ s, ∀ i ∈ is, ¬P s → (P (machine s i).2 ↔ (machine s i).1 = true)) {s : σ}
    (hs : ¬P s) : P (haltState machine s is) ↔ true ∈ outputs machine s is := by
  induction is generalizing s with
  | nil => simpa using hs
  | cons i is ih =>
      have hi := hstep s i List.mem_cons_self hs
      rw [outputs_cons, List.mem_cons]
      cases hstop : (machine s i).1 with
      | true =>
          rw [haltState_cons_true hstop]
          exact iff_of_true (hi.mpr hstop) (.inl rfl)
      | false =>
          have hnot : ¬P (machine s i).2 := fun h => Bool.false_ne_true (hstop ▸ hi.mp h)
          rw [haltState_cons_false hstop,
            ih (fun t j hj => hstep t j (List.mem_cons_of_mem i hj)) hnot]
          simp

/-- **The halting point.** When nothing stops the machine within `pre` and the next input
does, exactly these inputs are read. -/
theorem untilStop_eq {s : σ} {pre : List ι} {i : ι}
    (hpre : ∀ pre' j, pre' ++ [j] <+: pre → (machine (finalState machine s pre') j).1 = false)
    (hi : (machine (finalState machine s pre) i).1 = true) (post : List ι) :
    untilStop machine s (pre ++ i :: post) = pre ++ [i] := by
  induction pre generalizing s with
  | nil =>
      rw [finalState_nil] at hi
      rw [List.nil_append, untilStop, hi, if_pos rfl]
      rfl
  | cons k pre ih =>
      have hk : (machine s k).1 = false := hpre [] k (List.prefix_append [k] pre)
      have htail : untilStop machine (machine s k).2 (pre ++ i :: post) = pre ++ [i] := by
        refine ih (fun pre' j hj => ?_) hi
        exact hpre (k :: pre') j ((List.prefix_cons_inj k).mpr hj)
      rw [List.cons_append, untilStop, hk, if_neg Bool.false_ne_true, htail]
      rfl

/-- What is read is a beginning of the inputs. -/
theorem untilStop_prefix (machine : σ → ι → Bool × σ) (s : σ) (is : List ι) :
    untilStop machine s is <+: is := by
  induction is generalizing s with
  | nil => exact List.prefix_rfl
  | cons i is ih =>
      rw [untilStop, List.prefix_cons_inj]
      cases (machine s i).1 with
      | true => exact List.nil_prefix
      | false => exact ih _

/-- Without an answer `true` the whole input is read. -/
theorem untilStop_eq_self {s : σ} {is : List ι} (h : true ∉ outputs machine s is) :
    untilStop machine s is = is := by
  induction is generalizing s with
  | nil => rfl
  | cons i is ih =>
      rw [outputs_cons, List.mem_cons, not_or] at h
      have hstop : (machine s i).1 = false := eq_false_of_ne_true (Ne.symm h.1)
      rw [untilStop, hstop, if_neg Bool.false_ne_true, ih h.2]

/-- With an answer `true` the last input read is the one that is answered so. -/
theorem exists_untilStop_eq {s : σ} {is : List ι} (h : true ∈ outputs machine s is) :
    ∃ pre i, untilStop machine s is = pre ++ [i] ∧
      (machine (finalState machine s pre) i).1 = true := by
  induction is generalizing s with
  | nil => exact absurd h List.not_mem_nil
  | cons i is ih =>
      rw [untilStop]
      cases hstop : (machine s i).1 with
      | true => exact ⟨[], i, rfl, hstop⟩
      | false =>
          rw [outputs_cons, hstop, List.mem_cons] at h
          obtain ⟨pre, j, hread, hj⟩ := ih (h.resolve_left Bool.false_ne_true.symm)
          exact ⟨i :: pre, j, by rw [if_neg Bool.false_ne_true, hread]; rfl, hj⟩

/-- A machine that some input stops does not read the inputs behind. -/
theorem untilStop_append_of_mem {s : σ} {is : List ι} (h : true ∈ outputs machine s is)
    (js : List ι) : untilStop machine s (is ++ js) = untilStop machine s is := by
  induction is generalizing s with
  | nil => exact absurd h List.not_mem_nil
  | cons i is ih =>
      rw [List.cons_append, untilStop, untilStop]
      cases hstop : (machine s i).1 with
      | true => rw [if_pos rfl, if_pos rfl]
      | false =>
          rw [outputs_cons, hstop, List.mem_cons] at h
          rw [if_neg Bool.false_ne_true, if_neg Bool.false_ne_true,
            ih (h.resolve_left Bool.false_ne_true.symm)]

/-- A machine that no input stops goes on with the inputs behind. -/
theorem haltState_append {s : σ} {is : List ι} (h : true ∉ outputs machine s is)
    (js : List ι) :
    haltState machine s (is ++ js) = haltState machine (finalState machine s is) js := by
  induction is generalizing s with
  | nil => rfl
  | cons i is ih =>
      rw [outputs_cons, List.mem_cons, not_or] at h
      rw [List.cons_append, haltState_cons_false (eq_false_of_ne_true (Ne.symm h.1)), ih h.2,
        finalState_cons]

/-! ### Runs with good answers -/

/-- The inputs get good answers only, and lead from `s` to `t`. -/
structure Leads (good : ο → Prop) (step : σ → ι → ο × σ) (s : σ) (is : List ι) (t : σ) : Prop where
  answers : ∀ o ∈ outputs step s is, good o
  final : finalState step s is = t

namespace Leads

variable {good : ο → Prop} {step step' : σ → ι → ο × σ} {s t u : σ} {is js : List ι}

/-- No inputs lead anywhere else. -/
theorem nil (s : σ) : Leads good step s [] s := ⟨List.forall_mem_nil _, rfl⟩

/-- One more input, with a good answer. -/
theorem cons {i : ι} {o : ο} (hstep : step s i = (o, t)) (ho : good o)
    (h : Leads good step t is u) : Leads good step s (i :: is) u where
  answers := by
    rw [outputs_cons, hstep, List.forall_mem_cons]
    exact ⟨ho, h.answers⟩
  final := by
    rw [finalState_cons, hstep]
    exact h.final

/-- One workload behind another. -/
theorem append (h : Leads good step s is t) (h' : Leads good step t js u) :
    Leads good step s (is ++ js) u where
  answers := by
    rw [outputs_append, h.final, List.forall_mem_append]
    exact ⟨h.answers, h'.answers⟩
  final := by rw [finalState_append, h.final, h'.final]

/-- **A counted loop.** Pass `k` leads from `inv k` to `inv (k + 1)`. -/
theorem loop {inv : ℕ → σ} {body : ℕ → List ι} {n : ℕ}
    (h : ∀ k < n, Leads good step (inv k) (body k) (inv (k + 1))) :
    Leads good step (inv 0) ((List.range n).flatMap body) (inv n) := by
  induction n with
  | zero => exact nil _
  | succ n ih =>
      rw [List.range_succ, List.flatMap_append, List.flatMap_singleton]
      exact (ih fun k hk => h k (Nat.lt_succ_of_lt hk)).append (h n (Nat.lt_succ_self n))

/-- A machine that does the same wherever the answer is good. -/
theorem congr (hsame : ∀ s i, good (step s i).1 → step' s i = step s i)
    (h : Leads good step s is t) : Leads good step' s is t := by
  induction is generalizing s with
  | nil => exact ⟨h.answers, h.final⟩
  | cons i is ih =>
      obtain ⟨hanswers, hfinal⟩ := h
      rw [outputs_cons, List.forall_mem_cons] at hanswers
      exact cons (hsame s i hanswers.1) hanswers.1 (ih ⟨hanswers.2, hfinal⟩)

end Leads

end Mealy
