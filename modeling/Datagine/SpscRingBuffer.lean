import Datagine.Lib.SequenceCounter
import Datagine.Types

/-!
# The Single-Producer Single-Consumer Ring Buffer

The model of `queue/spsc_ring_buffer.hpp`. One producer runs `try_push` again and again and
one consumer runs `try_pop`. Each atomic load, each copy of an event into or out of a slot
and each store of a sequence is one step, and the steps of the two threads interleave in any
order; the acquire and release orderings of the source make the steps sequentially
consistent. Sequences are 64-bit words that wrap around, and a run may start from any equal
pair of them.

Finished calls are logged together with the number of unconsumed events at the moment the
call loaded the other thread's sequence, so that what a call returned can be compared with
what the queue held.

## Main result

* `spsc_bounded_fifo`: no event is lost, duplicated or reordered, at most `capacity` events
  are unconsumed, and a call is refused only by a full, respectively empty, queue.
-/

namespace Datagine

open SequenceCounter

/-- `is_power_of_two`. -/
def isPowerOfTwo (value : UInt64) : Bool := value &&& (value - 1) = 0

/-- A ring buffer; the constructor rejects capacities that are zero or not a power of two
and allocates one slot per unit of capacity. -/
structure SpscRingBuffer where
  capacity : UInt64
  valid : capacity ≠ 0 ∧ isPowerOfTwo capacity = true
  buffer : List MarketEvent
  allocated : buffer.length = capacity.toNat
  writeSequence : UInt64 := 0
  readSequence : UInt64 := 0

namespace SpscRingBuffer

/-- `mask_`. -/
def mask (q : SpscRingBuffer) : UInt64 := q.capacity - 1

/-- The slot of a sequence, `sequence & mask_`. -/
def slot (q : SpscRingBuffer) (sequence : UInt64) : ℕ := (sequence &&& q.mask).toNat

/-- The capacity of a queue is a power of two, as its masks need. -/
theorem isCapacity (q : SpscRingBuffer) : IsCapacity q.capacity :=
  ⟨q.valid.1, of_decide_eq_true q.valid.2⟩

/-- Every slot lies within the buffer. -/
theorem slot_lt (q : SpscRingBuffer) (sequence : UInt64) : q.slot sequence < q.buffer.length := by
  have hpos := q.isCapacity.pos
  have hone : (1 : UInt64) ≤ q.capacity := by
    rw [UInt64.le_iff_toNat_le]
    exact hpos
  have hle : (sequence &&& q.mask).toNat ≤ q.capacity.toNat - 1 := by
    rw [UInt64.toNat_and, mask, UInt64.toNat_sub_of_le _ _ hone]
    exact Nat.and_le_right
  rw [q.allocated, slot]
  omega

/-- `buffer_[write & mask_] = event`. -/
def copyIn (q : SpscRingBuffer) (write : UInt64) (event : MarketEvent) : SpscRingBuffer :=
  { q with
    buffer := q.buffer.set (q.slot write) event
    allocated := by rw [List.length_set, q.allocated] }

/-- `out = buffer_[read & mask_]`. -/
def copyOut (q : SpscRingBuffer) (read : UInt64) : MarketEvent :=
  q.buffer.get ⟨q.slot read, q.slot_lt read⟩

/-- What was copied into a slot is copied out of it. -/
theorem copyOut_copyIn_self (q : SpscRingBuffer) (write : UInt64) (event : MarketEvent) :
    (q.copyIn write event).copyOut write = event := by
  simp [copyOut, copyIn, slot, mask]

/-- The other slots stay. -/
theorem copyOut_copyIn_of_ne (q : SpscRingBuffer) {read write : UInt64}
    (h : q.slot read ≠ q.slot write) (event : MarketEvent) :
    (q.copyIn write event).copyOut read = q.copyOut read := by
  exact List.getElem_set_ne (Ne.symm h) _

end SpscRingBuffer

/-! ### Producer and consumer -/

/-- Where the producer is in `try_push(event)`. `held` is not part of the program: it is the
number of unconsumed events at the load of the read sequence. -/
inductive ProducerState
  | idle
  | loadedWrite (event : MarketEvent) (write : UInt64)
  | loadedRead (event : MarketEvent) (write read : UInt64) (held : ℕ)
  | copied (event : MarketEvent) (write : UInt64) (held : ℕ)

/-- Where the consumer is in `try_pop`. `held` is the number of unconsumed events at the
load of the write sequence. -/
inductive ConsumerState
  | idle
  | loadedRead (read : UInt64)
  | loadedWrite (read write : UInt64) (held : ℕ)
  | copied (read : UInt64) (out : MarketEvent) (held : ℕ)

/-- A finished `try_push`. -/
structure PushCall where
  event : MarketEvent
  result : Bool
  held : ℕ

/-- A finished `try_pop`, with the event it returned if it succeeded. -/
structure PopCall where
  result : Option MarketEvent
  held : ℕ

/-- The queue, the two threads and their finished calls. -/
structure SpscState where
  queue : SpscRingBuffer
  producer : ProducerState := .idle
  consumer : ConsumerState := .idle
  pushes : List PushCall := []
  pops : List PopCall := []

namespace SpscState

/-- The events of the successful pushes, in order. -/
def pushed (s : SpscState) : List MarketEvent :=
  (s.pushes.filter PushCall.result).map PushCall.event

/-- The events returned by the successful pops, in order. -/
def popped (s : SpscState) : List MarketEvent := s.pops.filterMap PopCall.result

/-- The number of events published and not yet consumed. -/
def unconsumed (s : SpscState) : ℕ := s.pushed.length - s.popped.length

/-- Two idle threads on a queue whose sequences both have the value `sequence`. -/
def start (q : SpscRingBuffer) (sequence : UInt64) : SpscState :=
  { queue := { q with writeSequence := sequence, readSequence := sequence } }

/-- The next step of the producer; when it is idle, `event` is the argument of the
`try_push` it begins. -/
def producerStep (s : SpscState) (event : MarketEvent) : SpscState :=
  match s.producer with
  | .idle => { s with producer := .loadedWrite event s.queue.writeSequence }
  | .loadedWrite event write =>
      { s with producer := .loadedRead event write s.queue.readSequence s.unconsumed }
  | .loadedRead event write read held =>
      if write - read ≥ s.queue.capacity then
        { s with producer := .idle, pushes := s.pushes ++ [⟨event, false, held⟩] }
      else { s with queue := s.queue.copyIn write event, producer := .copied event write held }
  | .copied event write held =>
      { s with
        queue := { s.queue with writeSequence := write + 1 }
        producer := .idle
        pushes := s.pushes ++ [⟨event, true, held⟩] }

/-- The next step of the consumer; when it is idle, it begins a `try_pop`. -/
def consumerStep (s : SpscState) : SpscState :=
  match s.consumer with
  | .idle => { s with consumer := .loadedRead s.queue.readSequence }
  | .loadedRead read =>
      { s with consumer := .loadedWrite read s.queue.writeSequence s.unconsumed }
  | .loadedWrite read write held =>
      if write = read then { s with consumer := .idle, pops := s.pops ++ [⟨none, held⟩] }
      else { s with consumer := .copied read (s.queue.copyOut read) held }
  | .copied read out held =>
      { s with
        queue := { s.queue with readSequence := read + 1 }
        consumer := .idle
        pops := s.pops ++ [⟨some out, held⟩] }

end SpscState

/-- Which thread takes the next step. -/
inductive SpscAction
  | producer (event : MarketEvent)
  | consumer

namespace SpscState

/-- One step of one thread. -/
def step (s : SpscState) : SpscAction → SpscState
  | .producer event => s.producerStep event
  | .consumer => s.consumerStep

/-- The state after any interleaving of the two threads. -/
def run (s : SpscState) (schedule : List SpscAction) : SpscState := schedule.foldl step s

/-! ### The invariant -/

/-- What the producer knows after `pushed` pushes and `popped` pops: its copy of its own
sequence is current, its copy of the read sequence is one that the consumer has stored, and
the event it has copied in is in its slot. -/
def ProducerOk (sequence : UInt64) (capacity : ℕ) (copyOut : UInt64 → MarketEvent)
    (pushed popped : ℕ) : ProducerState → Prop
  | .idle => True
  | .loadedWrite _ write => write = seqAt sequence pushed
  | .loadedRead _ write read held =>
      write = seqAt sequence pushed ∧ ∃ m, m ≤ popped ∧ m ≤ pushed ∧ pushed ≤ m + capacity ∧
        read = seqAt sequence m ∧ held = pushed - m
  | .copied event write _ =>
      write = seqAt sequence pushed ∧ pushed < popped + capacity ∧ copyOut write = event

/-- What the consumer knows: its copy of its own sequence is current, its copy of the write
sequence is one that the producer has stored, and the event it has copied out is the oldest
unconsumed one. -/
def ConsumerOk (sequence : UInt64) (capacity : ℕ) (pushed : List MarketEvent) (popped : ℕ) :
    ConsumerState → Prop
  | .idle => True
  | .loadedRead read => read = seqAt sequence popped
  | .loadedWrite read write held =>
      read = seqAt sequence popped ∧ ∃ m, popped ≤ m ∧ m ≤ pushed.length ∧
        m ≤ popped + capacity ∧ write = seqAt sequence m ∧ held = m - popped
  | .copied read out _ => read = seqAt sequence popped ∧ pushed[popped]? = some out

/-- **The invariant of a run** that started at `sequence`. -/
structure Inv (sequence : UInt64) (s : SpscState) : Prop where
  write : s.queue.writeSequence = seqAt sequence s.pushed.length
  read : s.queue.readSequence = seqAt sequence s.popped.length
  fifo : s.popped <+: s.pushed
  bounded : s.pushed.length ≤ s.popped.length + s.queue.capacity.toNat
  /-- The slots of the unconsumed events hold these events. -/
  slots : ∀ i event, s.popped.length ≤ i → s.pushed[i]? = some event →
    s.queue.copyOut (seqAt sequence i) = event
  producer : ProducerOk sequence s.queue.capacity.toNat s.queue.copyOut s.pushed.length
    s.popped.length s.producer
  consumer : ConsumerOk sequence s.queue.capacity.toNat s.pushed s.popped.length s.consumer
  refusedPush : ∀ call ∈ s.pushes, call.result = false → call.held = s.queue.capacity.toNat
  refusedPop : ∀ call ∈ s.pops, call.result = none → call.held = 0

variable {sequence : UInt64} {s : SpscState}

/-- The invariant holds at the start. -/
theorem inv_start (q : SpscRingBuffer) (sequence : UInt64) : Inv sequence (start q sequence) where
  write := (seqAt_zero sequence).symm
  read := (seqAt_zero sequence).symm
  fifo := List.prefix_rfl
  bounded := Nat.zero_le _
  slots i event _ hevent := by simp [start, pushed] at hevent
  producer := trivial
  consumer := trivial
  refusedPush call hcall := absurd hcall List.not_mem_nil
  refusedPop call hcall := absurd hcall List.not_mem_nil

/-- The producer is not disturbed by pops. -/
theorem ProducerOk.mono {capacity : ℕ} {copyOut : UInt64 → MarketEvent} {pushed popped : ℕ}
    {p : ProducerState} (h : ProducerOk sequence capacity copyOut pushed popped p) {popped' : ℕ}
    (hle : popped ≤ popped') : ProducerOk sequence capacity copyOut pushed popped' p := by
  cases p with
  | idle => trivial
  | loadedWrite event write => exact h
  | loadedRead event write read held =>
      obtain ⟨hw, m, hm, hrest⟩ := h
      exact ⟨hw, m, hm.trans hle, hrest⟩
  | copied event write held =>
      obtain ⟨hw, hroom, hcopy⟩ := h
      exact ⟨hw, by omega, hcopy⟩

/-- The consumer is not disturbed by pushes. -/
theorem ConsumerOk.mono {capacity : ℕ} {pushed pushed' : List MarketEvent} {popped : ℕ}
    {c : ConsumerState} (h : ConsumerOk sequence capacity pushed popped c)
    (hle : pushed <+: pushed') : ConsumerOk sequence capacity pushed' popped c := by
  cases c with
  | idle => trivial
  | loadedRead read => exact h
  | loadedWrite read write held =>
      obtain ⟨hr, m, hge, hm, hrest⟩ := h
      exact ⟨hr, m, hge, hm.trans hle.length_le, hrest⟩
  | copied read out held =>
      obtain ⟨hr, hout⟩ := h
      obtain ⟨rest, rfl⟩ := hle
      refine ⟨hr, ?_⟩
      rw [List.getElem?_append_left (List.getElem?_eq_some_iff.mp hout).1, hout]

/-! ### Steps of the producer -/

/-- Refusing a push only logs the call. -/
theorem Inv.refusePush (h : Inv sequence s) (event : MarketEvent) {held : ℕ}
    (hheld : held = s.queue.capacity.toNat) :
    Inv sequence
      { s with producer := .idle, pushes := s.pushes ++ [⟨event, false, held⟩] } := by
  have hpushed : SpscState.pushed
      { s with producer := .idle, pushes := s.pushes ++ [⟨event, false, held⟩] } = s.pushed := by
    simp [pushed]
  refine ⟨?_, h.read, ?_, ?_, ?_, trivial, ?_, ?_, h.refusedPop⟩
  · rw [hpushed]
    exact h.write
  · rw [hpushed]
    exact h.fifo
  · rw [hpushed]
    exact h.bounded
  · rw [hpushed]
    exact h.slots
  · rw [hpushed]
    exact h.consumer
  · intro call hcall hres
    rcases List.mem_append.mp hcall with hmem | hmem
    · exact h.refusedPush call hmem hres
    · rw [List.mem_singleton.mp hmem]
      exact hheld

/-- Writing the slot of the next push leaves the slots of the unconsumed events alone. -/
theorem Inv.copyIn (h : Inv sequence s) (event : MarketEvent) (held : ℕ)
    (hroom : s.pushed.length < s.popped.length + s.queue.capacity.toNat) :
    Inv sequence
      { s with
        queue := s.queue.copyIn (seqAt sequence s.pushed.length) event
        producer := .copied event (seqAt sequence s.pushed.length) held } := by
  refine ⟨h.write, h.read, h.fifo, h.bounded, fun i e hge he => ?_, ⟨rfl, hroom, ?_⟩, h.consumer,
    h.refusedPush, h.refusedPop⟩
  · change s.popped.length ≤ i at hge
    have hlt : i < s.pushed.length := (List.getElem?_eq_some_iff.mp he).1
    have hne : s.queue.slot (seqAt sequence i) ≠
        s.queue.slot (seqAt sequence s.pushed.length) :=
      slot_ne s.queue.isCapacity sequence hlt (by omega)
    exact (s.queue.copyOut_copyIn_of_ne hne event).trans (h.slots i e hge he)
  · exact s.queue.copyOut_copyIn_self _ event

/-- Storing the write sequence publishes the event in the slot. -/
theorem Inv.publish (h : Inv sequence s) (event : MarketEvent) (held : ℕ)
    (hroom : s.pushed.length < s.popped.length + s.queue.capacity.toNat)
    (hslot : s.queue.copyOut (seqAt sequence s.pushed.length) = event) :
    Inv sequence
      { s with
        queue := { s.queue with writeSequence := seqAt sequence s.pushed.length + 1 }
        producer := .idle
        pushes := s.pushes ++ [⟨event, true, held⟩] } := by
  have hpushed : SpscState.pushed
      { s with
        queue := { s.queue with writeSequence := seqAt sequence s.pushed.length + 1 }
        producer := .idle
        pushes := s.pushes ++ [⟨event, true, held⟩] } = s.pushed ++ [event] := by
    simp [pushed]
  have hext : s.pushed <+: s.pushed ++ [event] := List.prefix_append _ _
  refine ⟨?_, h.read, ?_, ?_, ?_, trivial, ?_, ?_, h.refusedPop⟩
  · rw [hpushed, List.length_append, List.length_singleton]
    exact seqAt_succ sequence _
  · rw [hpushed]
    exact h.fifo.trans hext
  · rw [hpushed, List.length_append, List.length_singleton]
    exact hroom
  · rw [hpushed]
    intro i e hge he
    by_cases hlt : i < s.pushed.length
    · rw [List.getElem?_append_left hlt] at he
      exact h.slots i e hge he
    · -- the new event is the last one
      obtain ⟨hi, heq⟩ := List.getElem?_eq_some_iff.mp he
      rw [List.length_append, List.length_singleton] at hi
      obtain rfl : i = s.pushed.length := by omega
      rw [List.getElem_concat_length rfl] at heq
      exact hslot.trans heq
  · rw [hpushed]
    exact h.consumer.mono hext
  · intro call hcall hres
    rcases List.mem_append.mp hcall with hmem | hmem
    · exact h.refusedPush call hmem hres
    · rw [List.mem_singleton.mp hmem] at hres
      cases hres

/-- The producer keeps the invariant. -/
theorem inv_producerStep (h : Inv sequence s) (event : MarketEvent) :
    Inv sequence (s.producerStep event) := by
  have hproducer := h.producer
  cases hp : s.producer with
  | idle =>
      simp only [producerStep, hp]
      exact ⟨h.write, h.read, h.fifo, h.bounded, h.slots, h.write, h.consumer, h.refusedPush,
        h.refusedPop⟩
  | loadedWrite e w =>
      rw [hp] at hproducer
      simp only [producerStep, hp]
      exact ⟨h.write, h.read, h.fifo, h.bounded, h.slots,
        ⟨hproducer, _, le_refl _, h.fifo.length_le, h.bounded, h.read, rfl⟩, h.consumer,
        h.refusedPush, h.refusedPop⟩
  | loadedRead e w r held =>
      rw [hp] at hproducer
      obtain ⟨rfl, m, hmr, hmw, hmcap, rfl, rfl⟩ := hproducer
      have hcap := s.queue.capacity.toNat_lt
      have hdist : (seqAt sequence s.pushed.length - seqAt sequence m).toNat =
          s.pushed.length - m := toNat_seqAt_sub hmw (by omega)
      simp only [producerStep, hp, ge_iff_le, UInt64.le_iff_toNat_le, hdist]
      split_ifs with hfull
      · -- the loaded read sequence leaves no room: the queue was full at that load
        exact h.refusePush e (by omega)
      · exact h.copyIn e _ (by omega)
  | copied e w held =>
      rw [hp] at hproducer
      obtain ⟨rfl, hroom, hslot⟩ := hproducer
      simp only [producerStep, hp]
      exact h.publish e held hroom hslot

/-! ### Steps of the consumer -/

/-- Refusing a pop only logs the call. -/
theorem Inv.refusePop (h : Inv sequence s) {held : ℕ} (hheld : held = 0) :
    Inv sequence { s with consumer := .idle, pops := s.pops ++ [⟨none, held⟩] } := by
  have hpopped : SpscState.popped
      { s with consumer := .idle, pops := s.pops ++ [⟨none, held⟩] } = s.popped := by
    simp [popped]
  refine ⟨h.write, ?_, ?_, ?_, ?_, ?_, trivial, h.refusedPush, ?_⟩
  · rw [hpopped]
    exact h.read
  · rw [hpopped]
    exact h.fifo
  · rw [hpopped]
    exact h.bounded
  · rw [hpopped]
    exact h.slots
  · rw [hpopped]
    exact h.producer
  · intro call hcall hres
    rcases List.mem_append.mp hcall with hmem | hmem
    · exact h.refusedPop call hmem hres
    · rw [List.mem_singleton.mp hmem]
      exact hheld

/-- Storing the read sequence consumes the oldest unconsumed event. -/
theorem Inv.consume (h : Inv sequence s) {out : MarketEvent} (held : ℕ)
    (hout : s.pushed[s.popped.length]? = some out) :
    Inv sequence
      { s with
        queue := { s.queue with readSequence := seqAt sequence s.popped.length + 1 }
        consumer := .idle
        pops := s.pops ++ [⟨some out, held⟩] } := by
  have hpopped : SpscState.popped
      { s with
        queue := { s.queue with readSequence := seqAt sequence s.popped.length + 1 }
        consumer := .idle
        pops := s.pops ++ [⟨some out, held⟩] } = s.popped ++ [out] := by
    simp [popped]
  have hlength : (s.popped ++ [out]).length = s.popped.length + 1 := by simp
  have hbounded := h.bounded
  refine ⟨h.write, ?_, ?_, ?_, ?_, ?_, trivial, h.refusedPush, ?_⟩
  · rw [hpopped, hlength]
    exact seqAt_succ sequence _
  · rw [hpopped]
    obtain ⟨rest, hrest⟩ := h.fifo
    change s.popped ++ [out] <+: s.pushed
    rw [← hrest, List.getElem?_append_right (le_refl _), Nat.sub_self] at hout
    rw [← hrest, List.prefix_append_right_inj]
    cases rest with
    | nil => cases hout
    | cons e rest =>
        obtain rfl := Option.some.inj hout
        exact ⟨rest, rfl⟩
  · rw [hpopped, hlength]
    change s.pushed.length ≤ s.popped.length + 1 + s.queue.capacity.toNat
    omega
  · rw [hpopped, hlength]
    intro i e hge he
    exact h.slots i e (by omega) he
  · rw [hpopped, hlength]
    exact h.producer.mono (Nat.le_succ _)
  · intro call hcall hres
    rcases List.mem_append.mp hcall with hmem | hmem
    · exact h.refusedPop call hmem hres
    · rw [List.mem_singleton.mp hmem] at hres
      cases hres

/-- The consumer keeps the invariant. -/
theorem inv_consumerStep (h : Inv sequence s) : Inv sequence s.consumerStep := by
  have hconsumer := h.consumer
  cases hc : s.consumer with
  | idle =>
      simp only [consumerStep, hc]
      exact ⟨h.write, h.read, h.fifo, h.bounded, h.slots, h.producer, h.read, h.refusedPush,
        h.refusedPop⟩
  | loadedRead r =>
      rw [hc] at hconsumer
      simp only [consumerStep, hc]
      exact ⟨h.write, h.read, h.fifo, h.bounded, h.slots, h.producer,
        ⟨hconsumer, _, h.fifo.length_le, le_refl _, h.bounded, h.write, rfl⟩, h.refusedPush,
        h.refusedPop⟩
  | loadedWrite r w held =>
      rw [hc] at hconsumer
      obtain ⟨rfl, m, hmr, hmw, hmcap, rfl, rfl⟩ := hconsumer
      have hcap := s.queue.capacity.toNat_lt
      have heq : seqAt sequence m = seqAt sequence s.popped.length ↔ m = s.popped.length :=
        seqAt_eq_iff hmr (by omega)
      simp only [consumerStep, hc, heq]
      split_ifs with hempty
      · exact h.refusePop (by omega)
      · -- the event at the read sequence was published before the load of the write sequence
        have hlt : s.popped.length < s.pushed.length := by omega
        obtain ⟨e, he⟩ : ∃ e, s.pushed[s.popped.length]? = some e :=
          ⟨_, List.getElem?_eq_getElem hlt⟩
        have hslot := h.slots _ e (le_refl _) he
        exact ⟨h.write, h.read, h.fifo, h.bounded, h.slots, h.producer,
          ⟨rfl, he.trans (congrArg some hslot.symm)⟩, h.refusedPush, h.refusedPop⟩
  | copied r out held =>
      rw [hc] at hconsumer
      obtain ⟨rfl, hout⟩ := hconsumer
      simp only [consumerStep, hc]
      exact h.consume held hout

/-! ### Runs -/

/-- **Every step of either thread keeps the invariant.** -/
theorem inv_step (h : Inv sequence s) (action : SpscAction) : Inv sequence (s.step action) := by
  cases action with
  | producer event => exact inv_producerStep h event
  | consumer => exact inv_consumerStep h

/-- Every schedule keeps the invariant. -/
theorem inv_run (h : Inv sequence s) (schedule : List SpscAction) :
    Inv sequence (s.run schedule) := by
  induction schedule generalizing s with
  | nil => exact h
  | cons action schedule ih => exact ih (inv_step h action)

/-- The capacity is fixed. -/
theorem capacity_run (s : SpscState) (schedule : List SpscAction) :
    (s.run schedule).queue.capacity = s.queue.capacity := by
  induction schedule generalizing s with
  | nil => rfl
  | cons action schedule ih =>
      refine (ih (s.step action)).trans ?_
      cases action with
      | producer event =>
          simp only [step, producerStep]
          cases s.producer with
          | loadedRead e w r held => dsimp only; split_ifs <;> rfl
          | _ => rfl
      | consumer =>
          simp only [step, consumerStep]
          cases s.consumer with
          | loadedWrite r w held => dsimp only; split_ifs <;> rfl
          | _ => rfl

end SpscState

/-- **The ring buffer is a bounded FIFO queue.** Whatever the interleaving, the capacity and
the common value of the sequences at the start: the popped events are a prefix of the pushed
ones; at most `capacity` events are published and not yet consumed; a push is refused only
if the queue held `capacity` events when it loaded the read sequence, and a pop only if the
queue was empty when it loaded the write sequence. -/
theorem spsc_bounded_fifo (q : SpscRingBuffer) (sequence : UInt64) (schedule : List SpscAction) :
    let s := (SpscState.start q sequence).run schedule
    s.popped <+: s.pushed ∧ s.unconsumed ≤ q.capacity.toNat ∧
      (∀ call ∈ s.pushes, call.result = false → call.held = q.capacity.toNat) ∧
      ∀ call ∈ s.pops, call.result = none → call.held = 0 := by
  have hinv := SpscState.inv_run (SpscState.inv_start q sequence) schedule
  have hbounded := hinv.bounded
  have hrefused := hinv.refusedPush
  rw [SpscState.capacity_run] at hbounded hrefused
  refine ⟨hinv.fifo, ?_, hrefused, hinv.refusedPop⟩
  rw [SpscState.unconsumed]
  exact Nat.sub_le_iff_le_add'.mpr hbounded

end Datagine
