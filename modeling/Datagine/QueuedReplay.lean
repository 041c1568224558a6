import Datagine.BookRuns
import Datagine.Lib.FairRuns
import Datagine.SpscObserver

/-!
# Replay through the Ring Buffer

One thread pushes the events of a list into a ring buffer and another pops them and applies them
to a book; each of them tries again when the queue refuses. This is the hand-over between a
parser and the book that the ring buffer is meant for, as the benchmark
`BM_SpscQueuedReplayInMemory` and the threaded test of the queue run it. The consumer knows how
many events there are, and a failed application is noted in a flag.

The queue is the model of `Datagine.SpscRingBuffer`, in which the steps of the two threads
interleave in any order. The loops around `try_push` and `try_pop` add steps of their own: the
application of a popped event is one, and the producer runs on between the pop and it.

## Main results

* `queued_replay_is_direct`: at every moment the book is the one that a direct replay of the
  events consumed so far leaves, and when the consumer has finished, so have the producer and the
  queue, and the outcome is that of the direct replay.
* `queued_replay_finishes`: under every fair schedule both loops end.
-/

namespace Datagine

open Mealy SequenceCounter

namespace SpscState

/-- What `try_push` returns with the next step of the producer, when that step ends the call. -/
def pushReturn (s : SpscState) : Option Bool :=
  match s.producer with
  | .loadedRead _ write read _ => if write - read ≥ s.queue.capacity then some false else none
  | .copied _ _ _ => some true
  | _ => none

/-- What `try_pop` returns with the next step of the consumer, when that step ends the call: no
event, or the event in `out`. -/
def popReturn (s : SpscState) : Option (Option MarketEvent) :=
  match s.consumer with
  | .loadedWrite read write _ => if write = read then some none else none
  | .copied _ out _ => some (some out)
  | _ => none

/-- The event of the `try_push` that the producer is in. -/
def pushing (s : SpscState) : Option MarketEvent :=
  match s.producer with
  | .idle => none
  | .loadedWrite event _ | .loadedRead event _ _ _ | .copied event _ _ => some event

end SpscState

/-- The queue, the book, and the variables of the two threads. -/
structure QueuedReplay (β : Type) where
  spsc : SpscState
  book : β
  /-- The position of the event that the producer pushes. -/
  next : ℕ := 0
  /-- An event that `try_pop` has returned and that is not applied yet. -/
  out : Option MarketEvent := none
  failed : Bool := false
  consumed : ℕ := 0

/-- The two threads. -/
inductive ReplayThread
  | producer
  | consumer
  deriving DecidableEq, Repr

namespace QueuedReplay

variable {β : Type} (apply : β → MarketEvent → BookResult × β) (events : List MarketEvent)

/-- Two threads about to start, on a queue whose sequences both have the value `sequence`. -/
def start (q : SpscRingBuffer) (sequence : UInt64) (book : β) : QueuedReplay β :=
  { spsc := .start q sequence, book := book }

/-- The loop of the producer: it pushes an event until `try_push` returns `true`. -/
def producerStep (s : QueuedReplay β) : QueuedReplay β :=
  match events[s.next]? with
  | none => s
  | some event =>
      { s with
        spsc := s.spsc.producerStep event
        next := if s.spsc.pushReturn = some true then s.next + 1 else s.next }

/-- The loop of the consumer: it pops until all events are consumed, and applies every event
that `try_pop` returns before it pops again. -/
def consumerStep (s : QueuedReplay β) : QueuedReplay β :=
  match s.out with
  | some event =>
      let (result, book) := apply s.book event
      { s with
        book := book
        out := none
        failed := s.failed || result ≠ .applied
        consumed := s.consumed + 1 }
  | none =>
      if s.consumed < events.length then
        { s with spsc := s.spsc.consumerStep, out := s.spsc.popReturn.join }
      else s

/-- The next step of a thread. -/
def step (thread : ReplayThread) (s : QueuedReplay β) : QueuedReplay β :=
  match thread with
  | .producer => s.producerStep events
  | .consumer => s.consumerStep apply events

/-- The state after any interleaving of the two threads. -/
def run (s : QueuedReplay β) (schedule : List ReplayThread) : QueuedReplay β :=
  schedule.foldl (fun s thread => step apply events thread s) s

/-- Both loops have ended. -/
def Finished (s : QueuedReplay β) : Prop :=
  s.next = events.length ∧ s.out = none ∧ s.consumed = events.length

/-- The number of events that `try_pop` has returned. -/
def taken (s : QueuedReplay β) : ℕ := s.consumed + s.out.toList.length

end QueuedReplay

/-! ### What a step of the queue publishes and consumes -/

namespace SpscState

variable {sequence : UInt64} {s : SpscState}

/-- A push that succeeds publishes the event it was called with. -/
theorem pushed_producerStep (s : SpscState) (event : MarketEvent) :
    (s.producerStep event).pushed =
      s.pushed ++ if s.pushReturn = some true then s.pushing.toList else [] := by
  cases hp : s.producer with
  | idle => simp [producerStep, pushReturn, pushed, hp]
  | loadedWrite e w => simp [producerStep, pushReturn, pushed, hp]
  | loadedRead e w r held =>
      simp only [producerStep, pushReturn, hp]
      split_ifs with hfull hret
      · simp at hret
      · simp [pushed]
      · rename_i h
        simp at h
      · simp [pushed]
  | copied e w held => simp [producerStep, pushReturn, pushing, pushed, hp]

/-- A pop that succeeds consumes the event it returns. -/
theorem popped_consumerStep (s : SpscState) :
    s.consumerStep.popped = s.popped ++ s.popReturn.join.toList := by
  cases hc : s.consumer with
  | idle => simp [consumerStep, popReturn, popped, hc]
  | loadedRead r => simp [consumerStep, popReturn, popped, hc]
  | loadedWrite r w held =>
      simp only [consumerStep, popReturn, hc]
      split_ifs <;> simp [popped]
  | copied r out held => simp [consumerStep, popReturn, popped, hc]

/-- The producer does not move the consumer. -/
theorem consumer_producerStep (s : SpscState) (event : MarketEvent) :
    (s.producerStep event).consumer = s.consumer := by
  cases hp : s.producer with
  | loadedRead e w r held =>
      simp only [producerStep, hp]
      split_ifs <;> rfl
  | _ => simp only [producerStep, hp]

/-- The consumer does not move the producer. -/
theorem producer_consumerStep (s : SpscState) : s.consumerStep.producer = s.producer := by
  cases hc : s.consumer with
  | loadedWrite r w held =>
      simp only [consumerStep, hc]
      split_ifs <;> rfl
  | _ => simp only [consumerStep, hc]

/-- A call of `try_push` keeps its event until it returns. -/
theorem pushing_producerStep (s : SpscState) (event : MarketEvent) :
    (s.producerStep event).pushing =
      if s.pushReturn.isSome then none else some (s.pushing.getD event) := by
  cases hp : s.producer with
  | loadedRead e w r held =>
      simp only [producerStep, pushReturn, hp]
      split_ifs with hfull hret
      · simp [pushing]
      · simp at hret
      · rename_i h
        simp at h
      · simp [pushing, hp]
  | _ => simp [producerStep, pushReturn, pushing, hp]

/-- A call of `try_pop` that returns leaves the consumer idle. -/
theorem consumer_consumerStep (h : s.popReturn.isSome) : s.consumerStep.consumer = .idle := by
  cases hc : s.consumer with
  | idle => simp [popReturn, hc] at h
  | loadedRead r => simp [popReturn, hc] at h
  | loadedWrite r w held =>
      simp only [popReturn, hc] at h
      simp only [consumerStep, hc]
      split_ifs at h ⊢
      · rfl
      · simp at h
  | copied r out held => simp only [consumerStep, hc]

/-- A call of `try_push` that returns has an event. -/
theorem pushing_of_pushReturn {result : Bool} (h : s.pushReturn = some result) :
    ∃ event, s.pushing = some event := by
  cases hp : s.producer with
  | idle => simp [pushReturn, hp] at h
  | loadedWrite e w => simp [pushReturn, hp] at h
  | loadedRead e w r held => exact ⟨e, by simp only [pushing, hp]⟩
  | copied e w held => exact ⟨e, by simp only [pushing, hp]⟩

end SpscState

/-! ### Safety -/

namespace QueuedReplay

variable {β : Type} {apply : β → MarketEvent → BookResult × β} {events : List MarketEvent}
  {initial : β} {sequence : UInt64} {s : QueuedReplay β}

/-- **The invariant of a queued replay** that started with the book `initial`: the producer has
pushed the events before `next`, the consumer has popped those before `consumed` and the one in
`out`, and applied those before `consumed`. -/
structure Inv (apply : β → MarketEvent → BookResult × β) (events : List MarketEvent)
    (initial : β) (sequence : UInt64) (s : QueuedReplay β) : Prop where
  spsc : s.spsc.Inv sequence
  next_le : s.next ≤ events.length
  consumed_le : s.consumed ≤ events.length
  pushed : s.spsc.pushed = events.take s.next
  pushing : ∀ event, s.spsc.pushing = some event → events[s.next]? = some event
  popped : s.spsc.popped = events.take s.consumed ++ s.out.toList
  /-- The consumer does not pop when an event waits to be applied or all are consumed. -/
  popping : s.spsc.consumer ≠ .idle → s.out = none ∧ s.consumed < events.length
  book : s.book = finalState apply initial (events.take s.consumed)
  failed : s.failed = true ↔
    ∃ result ∈ outputs apply initial (events.take s.consumed), result ≠ .applied

/-- The invariant holds at the start. -/
theorem inv_start (apply : β → MarketEvent → BookResult × β) (events : List MarketEvent)
    (q : SpscRingBuffer) (sequence : UInt64) (initial : β) :
    Inv apply events initial sequence (start q sequence initial) where
  spsc := SpscState.inv_start q sequence
  next_le := Nat.zero_le _
  consumed_le := Nat.zero_le _
  pushed := rfl
  pushing event hevent := by simp [start, SpscState.start, SpscState.pushing] at hevent
  popped := rfl
  popping hbusy := absurd rfl hbusy
  book := rfl
  failed := by simp [start]

/-- The events that `try_pop` has returned are those before `taken`. -/
theorem Inv.length_popped (h : Inv apply events initial sequence s) :
    s.spsc.popped.length = s.taken := by
  rw [h.popped, List.length_append, List.length_take_of_le h.consumed_le, taken]

/-- As many events are pushed as were fetched. -/
theorem Inv.length_pushed (h : Inv apply events initial sequence s) :
    s.spsc.pushed.length = s.next := by
  rw [h.pushed, List.length_take_of_le h.next_le]

/-- No more events are taken than were fetched. -/
theorem Inv.taken_le (h : Inv apply events initial sequence s) : s.taken ≤ s.next := by
  rw [← h.length_popped, ← h.length_pushed]
  exact h.spsc.fifo.length_le

/-- The event that waits to be applied is the next one of the list. -/
theorem Inv.getElem?_consumed (h : Inv apply events initial sequence s) {event : MarketEvent}
    (hout : s.out = some event) : events[s.consumed]? = some event := by
  have hprefix : events.take s.consumed ++ [event] <+: events := by
    have hfifo := h.spsc.fifo
    rw [h.popped, h.pushed, hout] at hfifo
    exact hfifo.trans (List.take_prefix _ _)
  obtain ⟨rest, hrest⟩ := hprefix
  have hlength := List.length_take_of_le h.consumed_le
  rw [← hrest, List.append_assoc, List.getElem?_append_right (by omega), hlength, Nat.sub_self]
  rfl

/-- The reader keeps the invariant. -/
theorem Inv.producerStep (h : Inv apply events initial sequence s) :
    Inv apply events initial sequence (s.producerStep events) := by
  rw [QueuedReplay.producerStep]
  cases hevent : events[s.next]? with
  | none => exact h
  | some event =>
      have hlt : s.next < events.length := (List.getElem?_eq_some_iff.mp hevent).1
      -- the event of a call that has begun is this one
      have hcall : ∀ e, s.spsc.pushing = some e → e = event := by
        intro e he
        have := h.pushing e he
        rw [hevent] at this
        exact (Option.some.inj this).symm
      have hspsc := SpscState.inv_producerStep h.spsc event
      have hpushed := s.spsc.pushed_producerStep event
      have hpushing := s.spsc.pushing_producerStep event
      have hpopped : (s.spsc.producerStep event).popped = events.take s.consumed ++ s.out.toList :=
        (SpscState.popped_producerStep s.spsc event).trans h.popped
      have hpopping : (s.spsc.producerStep event).consumer ≠ .idle →
          s.out = none ∧ s.consumed < events.length := by
        rw [SpscState.consumer_producerStep]
        exact h.popping
      by_cases hdone : s.spsc.pushReturn = some true
      · obtain ⟨e, he⟩ := SpscState.pushing_of_pushReturn hdone
        obtain rfl := hcall e he
        rw [if_pos hdone, he, h.pushed] at hpushed
        rw [hdone, Option.isSome_some, if_pos rfl] at hpushing
        dsimp only
        rw [if_pos hdone]
        refine ⟨hspsc, hlt, h.consumed_le, ?_, ?_, hpopped, hpopping, h.book, h.failed⟩
        · rw [hpushed, List.take_add_one, hevent]
        · intro e' he'
          rw [hpushing] at he'
          cases he'
      · rw [if_neg hdone, List.append_nil, h.pushed] at hpushed
        dsimp only
        rw [if_neg hdone]
        refine ⟨hspsc, h.next_le, h.consumed_le, hpushed, ?_, hpopped, hpopping, h.book,
          h.failed⟩
        intro e' he'
        rw [hpushing] at he'
        split_ifs at he'
        obtain rfl := Option.some.inj he'
        cases hp : s.spsc.pushing with
        | none => exact hevent
        | some e => exact h.pushing e hp

/-- The applier keeps the invariant. -/
theorem Inv.consumerStep (h : Inv apply events initial sequence s) :
    Inv apply events initial sequence (s.consumerStep apply events) := by
  rw [QueuedReplay.consumerStep]
  cases hout : s.out with
  | some event =>
      have hevent := h.getElem?_consumed hout
      have htake : events.take (s.consumed + 1) = events.take s.consumed ++ [event] := by
        rw [List.take_add_one, hevent, Option.toList_some]
      have hidle : s.spsc.consumer = .idle := by
        by_contra hbusy
        rw [(h.popping hbusy).1] at hout
        cases hout
      refine ⟨h.spsc, h.next_le, (List.getElem?_eq_some_iff.mp hevent).1, h.pushed, h.pushing,
        ?_, fun hbusy => absurd hidle hbusy, ?_, ?_⟩
      · rw [h.popped, hout, htake]
        exact (List.append_nil _).symm
      · rw [htake, finalState_concat, ← h.book]
      · rw [htake, outputs_concat, ← h.book, Bool.or_eq_true, h.failed, decide_eq_true_iff]
        simp only [List.mem_append, List.mem_singleton, or_and_right, exists_or, exists_eq_left]
  | none =>
      by_cases hmore : s.consumed < events.length
      · dsimp only
        rw [if_pos hmore]
        refine ⟨SpscState.inv_consumerStep h.spsc, h.next_le, h.consumed_le, ?_, ?_, ?_, ?_,
          h.book, h.failed⟩
        · rw [SpscState.pushed_consumerStep, h.pushed]
        · rw [SpscState.pushing, SpscState.producer_consumerStep]
          exact h.pushing
        · rw [SpscState.popped_consumerStep, h.popped, hout, Option.toList_none, List.append_nil]
        · intro hbusy
          cases hreturn : s.spsc.popReturn with
          | none => exact ⟨rfl, hmore⟩
          | some out =>
              have hidle := SpscState.consumer_consumerStep (by rw [hreturn]; rfl)
              exact absurd hidle hbusy
      · dsimp only
        rw [if_neg hmore]
        exact h

/-- **Every step of either loop keeps the invariant.** -/
theorem Inv.step (h : Inv apply events initial sequence s) (thread : ReplayThread) :
    Inv apply events initial sequence (s.step apply events thread) := by
  cases thread with
  | producer => exact h.producerStep
  | consumer => exact h.consumerStep

/-- Every schedule keeps the invariant. -/
theorem Inv.run (h : Inv apply events initial sequence s) (schedule : List ReplayThread) :
    Inv apply events initial sequence (s.run apply events schedule) := by
  induction schedule generalizing s with
  | nil => exact h
  | cons thread schedule ih => exact ih (h.step thread)

/-- When the consumer has finished, so has the producer, and nothing is left in the queue. -/
theorem Inv.finished (h : Inv apply events initial sequence s) (hout : s.out = none)
    (hconsumed : s.consumed = events.length) :
    s.Finished events ∧ s.spsc.producer = .idle ∧ s.spsc.consumer = .idle ∧
      s.spsc.queue.writeSequence = s.spsc.queue.readSequence := by
  have htaken : s.taken = events.length := by rw [taken, hout, hconsumed]; rfl
  have hnext : s.next = events.length := by
    have := h.taken_le
    have := h.next_le
    omega
  refine ⟨⟨hnext, hout, hconsumed⟩, ?_, ?_, ?_⟩
  · have hnone : s.spsc.pushing = none := by
      by_contra hsome
      obtain ⟨event, hevent⟩ := Option.ne_none_iff_exists'.mp hsome
      have := h.pushing event hevent
      rw [hnext, List.getElem?_length] at this
      cases this
    cases hp : s.spsc.producer with
    | idle => rfl
    | _ => simp [SpscState.pushing, hp] at hnone
  · by_contra hbusy
    exact absurd (h.popping hbusy).2 (by omega)
  · rw [h.spsc.write, h.spsc.read, h.length_pushed, h.length_popped, hnext, htaken]

end QueuedReplay

/-- **A queued replay is a direct replay.** Whatever the interleaving, the capacity of the queue
and the sequence it starts from: the book is at every moment what a direct replay of the events
consumed so far leaves, and the flag is set exactly if one of these was not applied. When the
consumer has finished, so has the producer, neither is inside a call, and the two sequences of
the queue are equal, so that the next replay can start from it. -/
theorem queued_replay_is_direct {β : Type} (apply : β → MarketEvent → BookResult × β)
    (q : SpscRingBuffer) (sequence : UInt64) (book : β) (events : List MarketEvent)
    (schedule : List ReplayThread) :
    let s := (QueuedReplay.start q sequence book).run apply events schedule
    s.book = finalState apply book (events.take s.consumed) ∧
      (s.failed = true ↔
        ∃ result ∈ outputs apply book (events.take s.consumed), result ≠ .applied) ∧
      (s.out = none ∧ s.consumed = events.length →
        s.Finished events ∧ s.book = finalState apply book events ∧
        s.spsc.producer = .idle ∧ s.spsc.consumer = .idle ∧
        s.spsc.queue.writeSequence = s.spsc.queue.readSequence) := by
  dsimp only
  have hinv := (QueuedReplay.inv_start apply events q sequence book).run schedule
  refine ⟨hinv.book, hinv.failed, fun ⟨hout, hconsumed⟩ => ?_⟩
  obtain ⟨hfinished, hproducer, hconsumer, hsequences⟩ := hinv.finished hout hconsumed
  refine ⟨hfinished, ?_, hproducer, hconsumer, hsequences⟩
  rw [hinv.book, hconsumed, List.take_length]

/-! ### Progress -/

namespace SpscState

variable {sequence : UInt64} {s : SpscState}

/-- The number of steps until a `try_push` that finds room has returned; a call that has read an
old sequence is refused first. -/
def producerDistance (s : SpscState) : ℕ :=
  match s.producer with
  | .loadedRead _ write read _ => if write - read ≥ s.queue.capacity then 5 else 2
  | .idle => 4
  | .loadedWrite _ _ => 3
  | .copied _ _ _ => 1

/-- The number of steps until a `try_pop` that finds an event has returned. -/
def consumerDistance (s : SpscState) : ℕ :=
  match s.consumer with
  | .loadedWrite read write _ => if write = read then 5 else 2
  | .idle => 4
  | .loadedRead _ => 3
  | .copied _ _ _ => 1

/-- A push takes at most five more steps. -/
theorem producerDistance_le (s : SpscState) : s.producerDistance ≤ 5 := by
  cases hp : s.producer with
  | loadedRead e w r held =>
      simp only [producerDistance, hp]
      split_ifs <;> decide
  | _ => simp [producerDistance, hp]

/-- A pop takes at most five more steps. -/
theorem consumerDistance_le (s : SpscState) : s.consumerDistance ≤ 5 := by
  cases hc : s.consumer with
  | loadedWrite r w held =>
      simp only [consumerDistance, hc]
      split_ifs <;> decide
  | _ => simp [consumerDistance, hc]

/-- The consumer does not disturb the producer's way. -/
theorem producerDistance_consumerStep (s : SpscState) :
    s.consumerStep.producerDistance = s.producerDistance := by
  have hcapacity : s.consumerStep.queue.capacity = s.queue.capacity :=
    capacity_run s [.consumer]
  rw [producerDistance, producerDistance, producer_consumerStep, hcapacity]

/-- The producer does not disturb the consumer's way. -/
theorem consumerDistance_producerStep (s : SpscState) (event : MarketEvent) :
    (s.producerStep event).consumerDistance = s.consumerDistance := by
  rw [consumerDistance, consumerDistance, consumer_producerStep]

/-- On an empty queue the producer comes closer to a push, until it has made one. -/
theorem producerDistance_producerStep (h : Inv sequence s)
    (hempty : s.popped.length = s.pushed.length) (event : MarketEvent)
    (hreturn : s.pushReturn ≠ some true) :
    (s.producerStep event).producerDistance < s.producerDistance := by
  cases hp : s.producer with
  | idle => simp [producerStep, producerDistance, hp]
  | loadedWrite e w =>
      have hok := h.producer
      rw [hp] at hok
      obtain rfl : w = s.queue.readSequence := by rw [hok, h.read, hempty]
      -- both sequences are the same: there is room
      have hroom : ¬(0 : UInt64) ≥ s.queue.capacity := by
        have hpos := s.queue.isCapacity.pos
        rw [ge_iff_le, UInt64.le_iff_toNat_le]
        exact not_le.mpr hpos
      simp only [producerStep, producerDistance, hp, UInt64.sub_self, if_neg hroom]
      decide
  | loadedRead e w r held =>
      simp only [producerStep, producerDistance, hp]
      split_ifs <;> simp
  | copied e w held => simp [pushReturn, hp] at hreturn

/-- On a queue that holds an event the consumer comes closer to it, until it has popped it. -/
theorem consumerDistance_consumerStep (h : Inv sequence s)
    (hmore : s.popped.length < s.pushed.length) (hreturn : s.popReturn.join = none) :
    s.consumerStep.consumerDistance < s.consumerDistance := by
  cases hc : s.consumer with
  | idle => simp [consumerStep, consumerDistance, hc]
  | loadedRead r =>
      have hok := h.consumer
      rw [hc] at hok
      obtain rfl := hok
      have hcap := s.queue.capacity.toNat_lt
      have hbounded := h.bounded
      have hne : s.queue.writeSequence ≠ seqAt sequence s.popped.length := by
        rw [h.write, ne_eq, seqAt_eq_iff hmore.le (by omega)]
        omega
      simp only [consumerStep, consumerDistance, hc, if_neg hne]
      decide
  | loadedWrite r w held =>
      simp only [consumerStep, consumerDistance, hc]
      split_ifs <;> simp
  | copied r out held => simp [popReturn, hc] at hreturn

end SpscState

namespace QueuedReplay

variable {β : Type} {apply : β → MarketEvent → BookResult × β} {events : List MarketEvent}
  {initial : β} {sequence : UInt64} {s : QueuedReplay β}

/-- The thread that is not waiting for the other one. -/
def helpful (s : QueuedReplay β) : ReplayThread :=
  if s.out.isSome ∨ s.taken < s.next then .consumer else .producer

/-- The number of steps of the helpful thread until it has pushed, popped or applied an event. -/
def distance (s : QueuedReplay β) : ℕ :=
  if s.out.isSome then 0
  else if s.taken < s.next then s.spsc.consumerDistance
  else s.spsc.producerDistance

/-- The work that is left: every push, every pop and every application counts for more than the
steps to the next one. -/
def rank (events : List MarketEvent) (s : QueuedReplay β) : ℕ :=
  16 * (events.length - s.next) + 16 * (events.length - s.taken) + 8 * s.out.toList.length +
    s.distance

/-- An applier that holds an event is there. -/
theorem distance_of_out (h : s.out.isSome) : s.distance = 0 := if_pos h

/-- Behind the reader, the applier has to pop. -/
theorem distance_of_more (hout : ¬s.out.isSome) (h : s.taken < s.next) :
    s.distance = s.spsc.consumerDistance := by
  rw [distance, if_neg hout, if_pos h]

/-- Level with the reader, the applier waits for a push. -/
theorem distance_of_level (hout : ¬s.out.isSome) (h : ¬s.taken < s.next) :
    s.distance = s.spsc.producerDistance := by
  rw [distance, if_neg hout, if_neg h]

/-- The next event is at most five helpful steps away. -/
theorem distance_le (s : QueuedReplay β) : s.distance ≤ 5 := by
  rw [distance]
  have hproducer := s.spsc.producerDistance_le
  have hconsumer := s.spsc.consumerDistance_le
  split_ifs
  · exact Nat.zero_le 5
  · exact hconsumer
  · exact hproducer

/-- A step of the queue alone changes the rank by the distance. -/
theorem rank_spsc (events : List MarketEvent) (s : QueuedReplay β) (t : SpscState) :
    rank events { s with spsc := t } + s.distance =
      rank events s + distance { s with spsc := t } := by
  simp only [rank, taken]
  omega

/-- A step of the producer that ends a push lowers the rank, and so does every step of a producer
that helps. -/
theorem Inv.rank_producerStep (h : Inv apply events initial sequence s) :
    rank events (s.producerStep events) < rank events s ∨
      (s.helpful = .consumer ∨ s.next = events.length) ∧
        rank events (s.producerStep events) = rank events s ∧
        (s.producerStep events).helpful = s.helpful := by
  cases hevent : events[s.next]? with
  | none =>
      have hend := le_antisymm h.next_le (List.getElem?_eq_none_iff.mp hevent)
      have hself : s.producerStep events = s := by rw [QueuedReplay.producerStep, hevent]
      rw [hself]
      exact .inr ⟨.inr hend, rfl, rfl⟩
  | some event =>
      have hlt : s.next < events.length := (List.getElem?_eq_some_iff.mp hevent).1
      have hstep : s.producerStep events =
          { s with
            spsc := s.spsc.producerStep event
            next := if s.spsc.pushReturn = some true then s.next + 1 else s.next } := by
        rw [QueuedReplay.producerStep, hevent]
      by_cases hdone : s.spsc.pushReturn = some true
      · rw [if_pos hdone] at hstep
        have hbound := (s.producerStep events).distance_le
        rw [hstep] at hbound ⊢
        simp only [rank, taken]
        exact .inl (by omega)
      · rw [if_neg hdone] at hstep
        rw [hstep]
        have hrank := rank_spsc events s (s.spsc.producerStep event)
        by_cases hhelp : s.out.isSome ∨ s.taken < s.next
        · have hsame : distance { s with spsc := s.spsc.producerStep event } = s.distance := by
            by_cases hout : s.out.isSome
            · rw [distance_of_out hout, distance_of_out (by exact hout)]
            · have hmore := hhelp.resolve_left hout
              rw [distance_of_more hout hmore, distance_of_more (by exact hout) (by exact hmore)]
              exact SpscState.consumerDistance_producerStep s.spsc event
          exact .inr ⟨.inl (if_pos hhelp), by omega, rfl⟩
        · obtain ⟨hout, hlevel⟩ := not_or.mp hhelp
          have hempty : s.spsc.popped.length = s.spsc.pushed.length := by
            have := h.taken_le
            rw [h.length_popped, h.length_pushed]
            omega
          have hdrop := SpscState.producerDistance_producerStep h.spsc hempty event hdone
          rw [distance_of_level hout hlevel, distance_of_level (by exact hout) (by exact hlevel)]
            at hrank
          dsimp only at hrank
          exact .inl (by omega)

/-- A step of the consumer that pops or applies an event lowers the rank, and so does every step
of a consumer that helps. -/
theorem Inv.rank_consumerStep (h : Inv apply events initial sequence s) :
    rank events (s.consumerStep apply events) < rank events s ∨
      (s.helpful = .producer ∨ s.consumed = events.length) ∧
        rank events (s.consumerStep apply events) = rank events s ∧
        (s.consumerStep apply events).helpful = s.helpful := by
  cases hout : s.out with
  | some event =>
      have hlt := (List.getElem?_eq_some_iff.mp (h.getElem?_consumed hout)).1
      have hbound := (s.consumerStep apply events).distance_le
      simp only [rank, QueuedReplay.consumerStep, hout, taken, Option.toList_some,
        Option.toList_none, List.length_singleton, List.length_nil] at hbound ⊢
      exact .inl (by omega)
  | none =>
      by_cases hmore : s.consumed < events.length
      · have hstep : s.consumerStep apply events =
            { s with spsc := s.spsc.consumerStep, out := s.spsc.popReturn.join } := by
          rw [QueuedReplay.consumerStep, hout]
          exact if_pos hmore
        cases hpop : s.spsc.popReturn.join with
        | some event =>
            have hbound := (s.consumerStep apply events).distance_le
            rw [hpop] at hstep
            rw [hstep] at hbound ⊢
            simp only [rank, hout, taken, Option.toList_some, Option.toList_none,
              List.length_singleton, List.length_nil]
            exact .inl (by omega)
        | none =>
            rw [hpop, ← hout] at hstep
            rw [hstep]
            have hrank := rank_spsc events s s.spsc.consumerStep
            have hnone : ¬s.out.isSome := by rw [hout]; simp
            by_cases hhelp : s.taken < s.next
            · have hpending : s.spsc.popped.length < s.spsc.pushed.length := by
                rw [h.length_popped, h.length_pushed]
                exact hhelp
              have hdrop := SpscState.consumerDistance_consumerStep h.spsc hpending hpop
              rw [distance_of_more hnone hhelp,
                distance_of_more (by exact hnone) (by exact hhelp)] at hrank
              dsimp only at hrank
              exact .inl (by omega)
            · have hsame : distance { s with spsc := s.spsc.consumerStep } = s.distance := by
                rw [distance_of_level hnone hhelp,
                  distance_of_level (by exact hnone) (by exact hhelp)]
                exact SpscState.producerDistance_consumerStep s.spsc
              exact .inr ⟨.inl (if_neg (not_or.mpr ⟨hnone, hhelp⟩)), by omega, rfl⟩
      · have hself : s.consumerStep apply events = s := by
          rw [QueuedReplay.consumerStep, hout]
          exact if_neg hmore
        rw [hself]
        exact .inr ⟨.inr (le_antisymm h.consumed_le (not_lt.mp hmore)), rfl, rfl⟩

/-- **One thread always helps.** -/
theorem variant (apply : β → MarketEvent → BookResult × β) (events : List MarketEvent)
    (initial : β) (sequence : UInt64) :
    FairRuns.Variant (step apply events) (Inv apply events initial sequence) (Finished events)
      (rank events) helpful where
  keeps _ thread h := h.step thread
  helps s h hunfinished := by
    have hle := h.taken_le
    have hnext := h.next_le
    cases hhelp : s.helpful with
    | producer =>
        rcases h.rank_producerStep with hdrop | ⟨hwait, -⟩
        · exact hdrop
        · -- a producer that is at its end does not help before the consumer is
          exfalso
          have hidle : ¬(s.out.isSome ∨ s.taken < s.next) := by
            intro hbusy
            rw [helpful, if_pos hbusy] at hhelp
            cases hhelp
          have hend : s.next = events.length := hwait.resolve_left (by rw [hhelp]; simp)
          rw [not_or] at hidle
          have hout : s.out = none := Option.not_isSome_iff_eq_none.mp hidle.1
          refine hunfinished ⟨hend, hout, ?_⟩
          have hmore := hidle.2
          rw [taken, hout, Option.toList_none, List.length_nil] at hmore hle
          omega
    | consumer =>
        rcases h.rank_consumerStep with hdrop | ⟨hwait, -⟩
        · exact hdrop
        · exfalso
          have hend : s.consumed = events.length := hwait.resolve_left (by rw [hhelp]; simp)
          have hout : s.out = none := by
            by_contra hsome
            obtain ⟨event, hevent⟩ := Option.ne_none_iff_exists'.mp hsome
            have hlt := (List.getElem?_eq_some_iff.mp (h.getElem?_consumed hevent)).1
            omega
          exact hunfinished (h.finished hout hend).1
  others s thread h hunfinished := by
    cases thread with
    | producer => exact h.rank_producerStep.imp_right And.right
    | consumer => exact h.rank_consumerStep.imp_right And.right

end QueuedReplay

/-- **A queued replay ends.** Under every schedule that gives each thread a turn again and again,
whatever the capacity of the queue, the sequence it starts from and the events: both loops end,
with the book and the flag of the direct replay of all events. -/
theorem queued_replay_finishes {β : Type} (apply : β → MarketEvent → BookResult × β)
    (q : SpscRingBuffer) (sequence : UInt64) (book : β) (events : List MarketEvent)
    {schedule : ℕ → ReplayThread} (hfair : FairRuns.Fair schedule) :
    ∃ n,
      let s := FairRuns.stateAt (QueuedReplay.step apply events) schedule
        (QueuedReplay.start q sequence book) n
      s.Finished events ∧ s.book = finalState apply book events ∧
        (s.failed = true ↔ ∃ result ∈ outputs apply book events, result ≠ .applied) := by
  have hvariant := QueuedReplay.variant apply events book sequence
  have hstart := QueuedReplay.inv_start apply events q sequence book
  obtain ⟨n, hfinished⟩ := hvariant.eventually hstart hfair
  have hinv := FairRuns.stateAt_inv hvariant.keeps schedule hstart n
  have hbook := hinv.book
  have hfailed := hinv.failed
  rw [hfinished.2.2, List.take_length] at hbook hfailed
  exact ⟨n, hfinished, hbook, hfailed⟩

/-- Three events for a queue of two slots; the last one is rejected. -/
def addCancelTwice : List MarketEvent :=
  [{ type := .add, orderId := ⟨1⟩, quantity := ⟨5⟩ }, { type := .cancel, orderId := ⟨1⟩ },
    { type := .cancel, orderId := ⟨1⟩ }]

/-- The threads take turns; the sequence wraps around. -/
theorem queued_replay_finishes_alternating :
    ∃ n,
      let s := FairRuns.stateAt (QueuedReplay.step LimitOrderBook.apply addCancelTwice)
        (fun n => if n % 2 = 0 then .producer else .consumer)
        (QueuedReplay.start twoSlots 18446744073709551615 LimitOrderBook.empty) n
      s.Finished addCancelTwice ∧
        s.book = finalState LimitOrderBook.apply LimitOrderBook.empty addCancelTwice ∧
        (s.failed = true ↔ ∃ result ∈ outputs LimitOrderBook.apply LimitOrderBook.empty
          addCancelTwice, result ≠ .applied) := by
  refine queued_replay_finishes LimitOrderBook.apply twoSlots 18446744073709551615
    LimitOrderBook.empty addCancelTwice fun thread n => ?_
  cases thread with
  | producer => exact ⟨2 * n, by omega, if_pos (by omega)⟩
  | consumer => exact ⟨2 * n + 1, by omega, if_neg (by omega)⟩

end Datagine
