import Mathlib.Data.List.Infix
import Datagine.SpscRingBuffer

/-!
# The Observed Size of the Ring Buffer

`approximate_size` of `queue/spsc_ring_buffer.hpp` loads the write sequence, then the read
sequence, and subtracts; `empty` and `full` compare the result. Between the two loads the
producer and the consumer go on. The documentation admits one producer thread and one consumer
thread, and when one of these makes the call, it does not push or pop meanwhile. This is
enough: the read sequence cannot overtake the write sequence that was loaded. A third thread
has no such protection, and for it the unsigned difference can wrap around.

## Main results

* `spsc_observed_size`: the size lies between zero and the capacity when the call is made from
  the producer or the consumer, and from another thread as long as not more events are consumed
  by the second load than were published by the first.
* `spsc_observed_size_overtaken`: a third thread that is told that an empty queue is full.
-/

namespace Datagine

open SequenceCounter

namespace SpscState

/-- `approximate_size`, with the steps that the threads take between its two loads. -/
def approximateSize (s : SpscState) (during : List SpscAction) : UInt64 :=
  let write := s.queue.writeSequence
  let read := (s.run during).queue.readSequence
  write - read

/-- `full`. -/
def full (s : SpscState) (during : List SpscAction) : Bool :=
  s.approximateSize during ≥ s.queue.capacity

end SpscState

/-- The thread that asks for the size. -/
inductive SizeCaller
  | producer
  | consumer
  | other
  deriving DecidableEq, Repr

/-- Which steps can fall between the two loads: a thread that makes the call is not inside
`try_push` or `try_pop` and takes none itself. -/
def SizeCaller.Admits (s : SpscState) (during : List SpscAction) : SizeCaller → Prop
  | .producer => s.producer = .idle ∧ ∀ action ∈ during, action = .consumer
  | .consumer => s.consumer = .idle ∧ ∀ action ∈ during, action ≠ .consumer
  | .other => True

namespace SpscState

variable {sequence : UInt64} {s : SpscState}

/-! ### Published and consumed events along a run -/

/-- The consumer pushes nothing. -/
theorem pushed_consumerStep (s : SpscState) : s.consumerStep.pushed = s.pushed := by
  simp only [consumerStep]
  cases s.consumer with
  | loadedWrite r w held => dsimp only; split_ifs <;> rfl
  | _ => rfl

/-- The producer pops nothing. -/
theorem popped_producerStep (s : SpscState) (event : MarketEvent) :
    (s.producerStep event).popped = s.popped := by
  simp only [producerStep]
  cases s.producer with
  | loadedRead e w r held => dsimp only; split_ifs <;> rfl
  | _ => rfl

/-- Consumed events stay consumed. -/
theorem popped_step_prefix (s : SpscState) (action : SpscAction) :
    s.popped <+: (s.step action).popped := by
  cases action with
  | producer event => exact (s.popped_producerStep event).symm ▸ List.prefix_rfl
  | consumer =>
      simp only [step, consumerStep]
      cases s.consumer with
      | idle => exact List.prefix_rfl
      | loadedRead r => exact List.prefix_rfl
      | loadedWrite r w held =>
          dsimp only
          split_ifs
          · simp [popped]
          · exact List.prefix_rfl
      | copied r out held => simp [popped]

/-- What was popped stays popped. -/
theorem popped_run_prefix (s : SpscState) (schedule : List SpscAction) :
    s.popped <+: (s.run schedule).popped := by
  induction schedule generalizing s with
  | nil => exact List.prefix_rfl
  | cons action schedule ih => exact (s.popped_step_prefix action).trans (ih (s.step action))

/-- Nothing is pushed while only the consumer runs. -/
theorem pushed_run_of_consumer {schedule : List SpscAction}
    (h : ∀ action ∈ schedule, action = .consumer) (s : SpscState) :
    (s.run schedule).pushed = s.pushed := by
  induction schedule generalizing s with
  | nil => rfl
  | cons action schedule ih =>
      obtain rfl := h action List.mem_cons_self
      exact (ih (fun a ha => h a (List.mem_cons_of_mem _ ha)) _).trans s.pushed_consumerStep

/-- Nothing is popped while the consumer does not run. -/
theorem popped_run_of_producer {schedule : List SpscAction}
    (h : ∀ action ∈ schedule, action ≠ .consumer) (s : SpscState) :
    (s.run schedule).popped = s.popped := by
  induction schedule generalizing s with
  | nil => rfl
  | cons action schedule ih =>
      have hrest := ih (fun a ha => h a (List.mem_cons_of_mem _ ha)) (s.step action)
      cases action with
      | producer event => exact hrest.trans (s.popped_producerStep event)
      | consumer => exact absurd rfl (h _ List.mem_cons_self)

/-- The consumer does not overtake the write sequence seen by the producer or by itself. -/
theorem popped_le_pushed (h : Inv sequence s) {during : List SpscAction} {caller : SizeCaller}
    (hcaller : caller ≠ .other) (hadmits : caller.Admits s during) :
    (s.run during).popped.length ≤ s.pushed.length := by
  cases caller with
  | producer =>
      have hend := (inv_run h during).fifo.length_le
      rwa [pushed_run_of_consumer hadmits.2] at hend
  | consumer =>
      rw [popped_run_of_producer hadmits.2]
      exact h.fifo.length_le
  | other => exact absurd rfl hcaller

/-- What the two loads compute while the consumer does not overtake. -/
theorem toNat_approximateSize (h : Inv sequence s) {during : List SpscAction}
    (hle : (s.run during).popped.length ≤ s.pushed.length) :
    (s.approximateSize during).toNat = s.pushed.length - (s.run during).popped.length := by
  have hmono := (s.popped_run_prefix during).length_le
  have hbounded := h.bounded
  have hcap := s.queue.capacity.toNat_lt
  rw [approximateSize, h.write, (inv_run h during).read]
  exact toNat_seqAt_sub hle (by omega)

end SpscState

/-- **The observed size.** In any interleaving, let a call load the write sequence after
`before` and the read sequence after the steps `during`. When the caller is the producer or the
consumer, or when by the second load not more events are consumed than were published by the
first, the size is at most the capacity, and `full` answers `true` only if the queue held
`capacity` events during the call. -/
theorem spsc_observed_size (q : SpscRingBuffer) (sequence : UInt64)
    (before during : List SpscAction) (caller : SizeCaller)
    (hadmits : caller.Admits ((SpscState.start q sequence).run before) during)
    (hcaller : caller ≠ .other ∨
      (((SpscState.start q sequence).run before).run during).popped.length ≤
        ((SpscState.start q sequence).run before).pushed.length) :
    let s := (SpscState.start q sequence).run before
    (s.approximateSize during).toNat ≤ q.capacity.toNat ∧
      (s.full during = true →
        ∃ pre, pre <+: during ∧ (s.run pre).unconsumed = q.capacity.toNat) := by
  intro s
  have hinv : s.Inv sequence := SpscState.inv_run (SpscState.inv_start q sequence) before
  have hcapacity : s.queue.capacity = q.capacity :=
    SpscState.capacity_run (SpscState.start q sequence) before
  have hle : (s.run during).popped.length ≤ s.pushed.length := by
    rcases hcaller with hcaller | hle
    · exact SpscState.popped_le_pushed hinv hcaller hadmits
    · exact hle
  have hsize := SpscState.toNat_approximateSize hinv hle
  have hmono := (s.popped_run_prefix during).length_le
  have hbounded := hinv.bounded
  rw [hcapacity] at hbounded
  refine ⟨by omega, fun hfull => ⟨[], List.nil_prefix, ?_⟩⟩
  -- nothing was consumed between the loads, and the queue was full at the first
  have hge : q.capacity.toNat ≤ (s.approximateSize during).toNat := by
    rw [SpscState.full, decide_eq_true_eq, hcapacity] at hfull
    exact UInt64.le_iff_toNat_le.mp hfull
  have hempty : s.run [] = s := rfl
  rw [hempty, SpscState.unconsumed]
  omega

/-- An empty ring buffer with two slots. -/
def twoSlots : SpscRingBuffer where
  capacity := 2
  valid := by decide
  buffer := [{}, {}]
  allocated := rfl

/-- The steps of one `try_push` and then of one `try_pop`. -/
def pushThenPop : List SpscAction :=
  List.replicate 4 (.producer {}) ++ List.replicate 4 .consumer

/-- The producer asks for the size while the consumer takes out the only event. -/
theorem spsc_observed_size_fromProducer :
    SizeCaller.producer.Admits
        ((SpscState.start twoSlots 0).run (List.replicate 4 (.producer {})))
        (List.replicate 4 .consumer) ∧
      (((SpscState.start twoSlots 0).run (List.replicate 4 (.producer {}))).approximateSize
        (List.replicate 4 .consumer)).toNat ≤ 2 := by
  have hadmits : SizeCaller.producer.Admits
      ((SpscState.start twoSlots 0).run (List.replicate 4 (.producer {})))
      (List.replicate 4 .consumer) := ⟨rfl, fun action h => List.eq_of_mem_replicate h⟩
  exact ⟨hadmits, (spsc_observed_size twoSlots 0 _ _ .producer hadmits (.inl (by decide))).1⟩

/-- Between the two loads of a third thread one event is pushed and popped. The difference
wraps around, and the queue counts as full although it never held two events. -/
theorem spsc_observed_size_overtaken :
    SizeCaller.other.Admits (SpscState.start twoSlots 0) pushThenPop ∧
      ¬((SpscState.start twoSlots 0).approximateSize pushThenPop).toNat ≤
        twoSlots.capacity.toNat ∧
      (SpscState.start twoSlots 0).full pushThenPop = true ∧
      ∀ pre, pre <+: pushThenPop →
        ((SpscState.start twoSlots 0).run pre).unconsumed ≠ twoSlots.capacity.toNat := by
  refine ⟨trivial, by decide +kernel, by decide +kernel, fun pre hpre => ?_⟩
  have hinits : ∀ pre ∈ pushThenPop.inits,
      ((SpscState.start twoSlots 0).run pre).unconsumed ≠ twoSlots.capacity.toNat := by
    decide +kernel
  exact hinits pre ((List.mem_inits pre pushThenPop).mpr hpre)

end Datagine
