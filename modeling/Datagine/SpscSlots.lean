import Mathlib.Data.List.Induction
import Datagine.SpscRingBuffer

/-!
# Slots of the Ring Buffer while Events are Copied

`Datagine.SpscRingBuffer` takes the copy of an event into or out of a slot as one step. Here it
takes any number of steps, between which the other thread runs: a copy is done part by part
(`CopyPlan`), and each part reads and writes what the slot holds at that moment. A slot that
one thread writes while the other reads it would yield an event that was never pushed.

Every run of this model is matched by a run with copies in one step (`Simulates`): the copy
happens as a whole when the check before it has passed. The parts that follow change only the
slot that the producer has claimed, which the consumer does not read. The invariant of the
coarse model then gives the properties of this one.

## Main results

* `spsc_slot_exclusivity`: the threads never work on the same slot, and no slot is written
  while it holds a published event that is not consumed.
* `spsc_copies_whole`: the events popped are the events published, in order and never torn.
-/

namespace Datagine

open SequenceCounter

/-! ### Copies in parts -/

/-- A way to copy an event step by step. A part maps the contents of the destination and of
the source to the new contents of the destination; together the parts copy a source that
stays the same. -/
structure CopyPlan where
  parts : List (MarketEvent → MarketEvent → MarketEvent)
  complete : ∀ destination source,
    parts.foldl (fun contents part => part contents source) destination = source

/-- Copying a field at a time is a plan. -/
example : CopyPlan where
  parts := [fun d s => { d with type := s.type }, fun d s => { d with timestamp := s.timestamp },
    fun d s => { d with orderId := s.orderId }, fun d s => { d with side := s.side },
    fun d s => { d with price := s.price }, fun d s => { d with quantity := s.quantity }]
  complete _ _ := rfl

/-- The destination after the remaining parts of a copy, if the source stays the same. -/
def afterParts (rest : List (MarketEvent → MarketEvent → MarketEvent))
    (destination source : MarketEvent) : MarketEvent :=
  rest.foldl (fun contents part => part contents source) destination

/-- Where the producer is in `try_push(event)`; in `copying` it has passed the full check and
not yet stored the write sequence. -/
inductive ProducerPhase
  | idle
  | loadedWrite (event : MarketEvent) (write : UInt64)
  | loadedRead (event : MarketEvent) (write read : UInt64)
  | copying (event : MarketEvent) (write : UInt64)
      (rest : List (MarketEvent → MarketEvent → MarketEvent))

/-- Where the consumer is in `try_pop(out)`; in `copying` it has passed the empty check and
not yet stored the read sequence. -/
inductive ConsumerPhase
  | idle
  | loadedRead (read : UInt64)
  | loadedWrite (read write : UInt64)
  | copying (read : UInt64) (out : MarketEvent)
      (rest : List (MarketEvent → MarketEvent → MarketEvent))

/-- The sequence whose slot the producer is filling. -/
def ProducerPhase.claimed : ProducerPhase → Option UInt64
  | .copying _ write _ => some write
  | _ => none

/-- The sequence whose slot the consumer is emptying. -/
def ConsumerPhase.claimed : ConsumerPhase → Option UInt64
  | .copying read _ _ => some read
  | _ => none

/-- The queue and the two threads, with the events published and consumed so far. -/
structure CopyState where
  queue : SpscRingBuffer
  producer : ProducerPhase := .idle
  consumer : ConsumerPhase := .idle
  published : List MarketEvent := []
  consumed : List MarketEvent := []

/-- Which thread takes the next step. The arguments are used by the steps that need them: the
event to push, the previous contents of `out`, and how to copy. -/
inductive CopyAction
  | producer (event : MarketEvent) (plan : CopyPlan)
  | consumer (out : MarketEvent) (plan : CopyPlan)

namespace CopyState

/-- Two idle threads on a queue whose sequences both have the value `sequence`. -/
def start (q : SpscRingBuffer) (sequence : UInt64) : CopyState :=
  { queue := { q with writeSequence := sequence, readSequence := sequence } }

/-- The next step of the producer. -/
def producerStep (s : CopyState) (event : MarketEvent) (plan : CopyPlan) : CopyState :=
  match s.producer with
  | .idle => { s with producer := .loadedWrite event s.queue.writeSequence }
  | .loadedWrite event write =>
      { s with producer := .loadedRead event write s.queue.readSequence }
  | .loadedRead event write read =>
      if write - read ≥ s.queue.capacity then { s with producer := .idle }
      else { s with producer := .copying event write plan.parts }
  | .copying event write (part :: rest) =>
      { s with
        queue := s.queue.copyIn write (part (s.queue.copyOut write) event)
        producer := .copying event write rest }
  | .copying event write [] =>
      { s with
        queue := { s.queue with writeSequence := write + 1 }
        producer := .idle
        published := s.published ++ [event] }

/-- The next step of the consumer. -/
def consumerStep (s : CopyState) (out : MarketEvent) (plan : CopyPlan) : CopyState :=
  match s.consumer with
  | .idle => { s with consumer := .loadedRead s.queue.readSequence }
  | .loadedRead read => { s with consumer := .loadedWrite read s.queue.writeSequence }
  | .loadedWrite read write =>
      if write = read then { s with consumer := .idle }
      else { s with consumer := .copying read out plan.parts }
  | .copying read out (part :: rest) =>
      { s with consumer := .copying read (part out (s.queue.copyOut read)) rest }
  | .copying read out [] =>
      { s with
        queue := { s.queue with readSequence := read + 1 }
        consumer := .idle
        consumed := s.consumed ++ [out] }

/-- One step of one thread. -/
def step (s : CopyState) : CopyAction → CopyState
  | .producer event plan => s.producerStep event plan
  | .consumer out plan => s.consumerStep out plan

/-- The state after any interleaving of the two threads. -/
def run (s : CopyState) (schedule : List CopyAction) : CopyState := schedule.foldl step s

/-- The slot that a step writes. -/
def writtenSlot (s : CopyState) : CopyAction → Option ℕ
  | .producer _ _ =>
      match s.producer with
      | .copying _ write (_ :: _) => some (s.queue.slot write)
      | _ => none
  | .consumer _ _ => none

/-- A step leaves the slots that it does not write as they are. -/
theorem getElem?_buffer_step (s : CopyState) (action : CopyAction) {k : ℕ}
    (h : s.writtenSlot action ≠ some k) :
    (s.step action).queue.buffer[k]? = s.queue.buffer[k]? := by
  cases action with
  | producer event plan =>
      simp only [writtenSlot] at h
      simp only [step, producerStep]
      cases hp : s.producer with
      | idle => rfl
      | loadedWrite e w => rfl
      | loadedRead e w r => dsimp only; split_ifs <;> rfl
      | copying e w rest =>
          cases rest with
          | nil => rfl
          | cons part rest =>
              rw [hp] at h
              exact List.getElem?_set_ne fun heq => h (congrArg some heq)
  | consumer out plan =>
      simp only [step, consumerStep]
      cases s.consumer with
      | idle => rfl
      | loadedRead r => rfl
      | loadedWrite r w => dsimp only; split_ifs <;> rfl
      | copying r out rest => cases rest <;> rfl

end CopyState

/-! ### The runs with copies in one step -/

/-- The producer is at the same point; a copy in parts has still to fill its slot. -/
inductive ProducerAgrees (copyOut : UInt64 → MarketEvent) : ProducerPhase → ProducerState → Prop
  | idle : ProducerAgrees copyOut .idle .idle
  | loadedWrite (event : MarketEvent) (write : UInt64) :
      ProducerAgrees copyOut (.loadedWrite event write) (.loadedWrite event write)
  | loadedRead (event : MarketEvent) (write read : UInt64) (held : ℕ) :
      ProducerAgrees copyOut (.loadedRead event write read) (.loadedRead event write read held)
  | copying {event : MarketEvent} {write : UInt64} {held : ℕ}
      {rest : List (MarketEvent → MarketEvent → MarketEvent)} :
      afterParts rest (copyOut write) event = event →
      ProducerAgrees copyOut (.copying event write rest) (.copied event write held)

/-- The consumer is at the same point; a copy in parts has still to fill `out`. -/
inductive ConsumerAgrees : ConsumerPhase → ConsumerState → Prop
  | idle : ConsumerAgrees .idle .idle
  | loadedRead (read : UInt64) : ConsumerAgrees (.loadedRead read) (.loadedRead read)
  | loadedWrite (read write : UInt64) (held : ℕ) :
      ConsumerAgrees (.loadedWrite read write) (.loadedWrite read write held)
  | copying {read : UInt64} {out target : MarketEvent} {held : ℕ}
      {rest : List (MarketEvent → MarketEvent → MarketEvent)} :
      afterParts rest out target = target →
      ConsumerAgrees (.copying read out rest) (.copied read target held)

/-- The state `t` of the coarse model matches: the slots agree, except for the one that the
producer is filling. -/
structure Simulates (s : CopyState) (t : SpscState) : Prop where
  capacity : s.queue.capacity = t.queue.capacity
  write : s.queue.writeSequence = t.queue.writeSequence
  read : s.queue.readSequence = t.queue.readSequence
  published : s.published = t.pushed
  consumed : s.consumed = t.popped
  producer : ProducerAgrees s.queue.copyOut s.producer t.producer
  consumer : ConsumerAgrees s.consumer t.consumer
  slots : ∀ x, (∀ w, s.producer.claimed = some w → s.queue.slot x ≠ s.queue.slot w) →
    s.queue.copyOut x = t.queue.copyOut x

/-- The two models start alike. -/
theorem simulates_start (q : SpscRingBuffer) (sequence : UInt64) :
    Simulates (CopyState.start q sequence) (SpscState.start q sequence) where
  capacity := rfl
  write := rfl
  read := rfl
  published := rfl
  consumed := rfl
  producer := .idle
  consumer := .idle
  slots _ _ := rfl

/-- What is copied out depends on the slot only. -/
theorem SpscRingBuffer.copyOut_congr (q : SpscRingBuffer) {x y : UInt64}
    (h : q.slot x = q.slot y) : q.copyOut x = q.copyOut y := by
  simp only [copyOut, h]

namespace Simulates

variable {s : CopyState} {t : SpscState} {sequence : UInt64}

/-- With no slot claimed, all slots agree. -/
theorem slots_of_unclaimed (h : Simulates s t) (hclaimed : s.producer.claimed = none)
    (x : UInt64) : s.queue.copyOut x = t.queue.copyOut x := by
  refine h.slots x fun w hw => ?_
  rw [hclaimed] at hw
  cases hw

/-- A sequence number has the same slot in both. -/
theorem slot_eq (h : Simulates s t) (x : UInt64) : s.queue.slot x = t.queue.slot x := by
  simp only [SpscRingBuffer.slot, SpscRingBuffer.mask, h.capacity]

/-- While the producer copies, the slots other than its own agree. -/
theorem slots_of_copying (h : Simulates s t) {event : MarketEvent} {w : UInt64}
    {rest : List (MarketEvent → MarketEvent → MarketEvent)}
    (hp : s.producer = .copying event w rest) {x : UInt64}
    (hne : s.queue.slot x ≠ s.queue.slot w) : s.queue.copyOut x = t.queue.copyOut x := by
  refine h.slots x fun w' hw' => ?_
  rw [hp] at hw'
  rwa [← Option.some.inj hw']

/-- When the copy is complete, all slots agree. -/
theorem slots_of_copied (h : Simulates s t) {event : MarketEvent} {w : UInt64}
    {rest : List (MarketEvent → MarketEvent → MarketEvent)}
    (hp : s.producer = .copying event w rest)
    (hdone : s.queue.copyOut w = t.queue.copyOut w) (x : UInt64) :
    s.queue.copyOut x = t.queue.copyOut x := by
  by_cases hx : s.queue.slot x = s.queue.slot w
  · have hx' : t.queue.slot x = t.queue.slot w := by rw [← h.slot_eq, ← h.slot_eq, hx]
    rw [s.queue.copyOut_congr hx, t.queue.copyOut_congr hx', hdone]
  · exact h.slots_of_copying hp hx

/-- The slot that the producer is filling is not that of a published event still to be
consumed. -/
theorem slot_ne_claimed (h : Simulates s t) (hinv : t.Inv sequence) {w : UInt64}
    (hw : s.producer.claimed = some w) {n : ℕ} (hge : s.consumed.length ≤ n)
    (hlt : n < s.published.length) :
    s.queue.slot (seqAt sequence n) ≠ s.queue.slot w := by
  have hagrees := h.producer
  have hok := hinv.producer
  cases hp : s.producer with
  | copying event write rest =>
      rw [hp] at hagrees hw
      obtain rfl := Option.some.inj hw
      generalize htp : t.producer = p at hagrees hok
      cases hagrees
      obtain ⟨rfl, hroom, -⟩ := hok
      rw [← h.published, ← h.consumed, ← h.capacity] at hroom
      rw [← h.published]
      exact slot_ne s.queue.isCapacity sequence hlt (by omega)
  | idle => rw [hp] at hw; cases hw
  | loadedWrite event write => rw [hp] at hw; cases hw
  | loadedRead event write read => rw [hp] at hw; cases hw

/-- No step writes the slot of a published event still to be consumed. -/
theorem not_written (h : Simulates s t) (hinv : t.Inv sequence) {n : ℕ}
    (hge : s.consumed.length ≤ n) (hlt : n < s.published.length) (action : CopyAction) :
    s.writtenSlot action ≠ some (s.queue.slot (seqAt sequence n)) := by
  intro hwritten
  cases action with
  | producer e plan =>
      simp only [CopyState.writtenSlot] at hwritten
      split at hwritten
      · rename_i hp
        refine h.slot_ne_claimed hinv ?_ hge hlt (Option.some.inj hwritten).symm
        rw [hp]
        rfl
      · cases hwritten
  | consumer out plan => cases hwritten

/-- The consumer works on the oldest published event that is not consumed. -/
theorem claimed_read (h : Simulates s t) (hinv : t.Inv sequence) {r : UInt64}
    (hr : s.consumer.claimed = some r) :
    r = seqAt sequence s.consumed.length ∧ s.consumed.length < s.published.length := by
  have hagrees := h.consumer
  have hok := hinv.consumer
  cases hc : s.consumer with
  | copying read out rest =>
      rw [hc] at hagrees hr
      obtain rfl := Option.some.inj hr
      generalize htc : t.consumer = c at hagrees hok
      cases hagrees
      obtain ⟨rfl, hout⟩ := hok
      rw [h.published, h.consumed]
      exact ⟨rfl, (List.getElem?_eq_some_iff.mp hout).1⟩
  | idle => rw [hc] at hr; cases hr
  | loadedRead read => rw [hc] at hr; cases hr
  | loadedWrite read write => rw [hc] at hr; cases hr

/-- **The two threads work on different slots.** -/
theorem claimed_slots_ne (h : Simulates s t) (hinv : t.Inv sequence) {w r : UInt64}
    (hw : s.producer.claimed = some w) (hr : s.consumer.claimed = some r) :
    s.queue.slot r ≠ s.queue.slot w := by
  obtain ⟨rfl, hlt⟩ := h.claimed_read hinv hr
  exact h.slot_ne_claimed hinv hw le_rfl hlt

/-! ### Matching steps -/

/-- A step of the producer is one, or none, of the queue model. -/
theorem producerStep (h : Simulates s t) (hinv : t.Inv sequence) (event : MarketEvent)
    (plan : CopyPlan) :
    ∃ schedule, Simulates (s.producerStep event plan) (t.run schedule) := by
  have hagrees := h.producer
  generalize htp : t.producer = p at hagrees
  cases hp : s.producer with
  | idle =>
      rw [hp] at hagrees
      cases hagrees
      refine ⟨[.producer event], ?_⟩
      simp only [CopyState.producerStep, hp, SpscState.run, List.foldl_cons, List.foldl_nil,
        SpscState.step, SpscState.producerStep, htp, h.write]
      exact ⟨h.capacity, h.write, h.read, h.published, h.consumed, .loadedWrite event _,
        h.consumer, fun x _ => h.slots_of_unclaimed (by rw [hp]; rfl) x⟩
  | loadedWrite e w =>
      rw [hp] at hagrees
      cases hagrees
      refine ⟨[.producer event], ?_⟩
      simp only [CopyState.producerStep, hp, SpscState.run, List.foldl_cons, List.foldl_nil,
        SpscState.step, SpscState.producerStep, htp, h.read]
      exact ⟨h.capacity, h.write, h.read, h.published, h.consumed, .loadedRead e w _ _,
        h.consumer, fun x _ => h.slots_of_unclaimed (by rw [hp]; rfl) x⟩
  | loadedRead e w r =>
      rw [hp] at hagrees
      cases hagrees
      refine ⟨[.producer event], ?_⟩
      simp only [CopyState.producerStep, hp, SpscState.run, List.foldl_cons, List.foldl_nil,
        SpscState.step, SpscState.producerStep, htp, h.capacity]
      split_ifs with hfull
      · refine ⟨h.capacity, h.write, h.read, ?_, h.consumed, .idle, h.consumer,
          fun x _ => h.slots_of_unclaimed (by rw [hp]; rfl) x⟩
        simpa [SpscState.pushed] using h.published
      · -- the coarse model copies the event as a whole; here the slot is claimed
        refine ⟨h.capacity, h.write, h.read, h.published, h.consumed,
          .copying (plan.complete _ _), h.consumer, fun x hx => ?_⟩
        have hne : t.queue.slot x ≠ t.queue.slot w := by
          rw [← h.slot_eq, ← h.slot_eq]
          exact hx w rfl
        exact (h.slots_of_unclaimed (by rw [hp]; rfl) x).trans
          (t.queue.copyOut_copyIn_of_ne hne e).symm
  | copying e w rest =>
      rw [hp] at hagrees
      cases hagrees with
      | @copying _ _ held _ hrest =>
          cases rest with
          | nil =>
              -- the copy is complete: both models publish the event
              have hok := hinv.producer
              rw [htp] at hok
              refine ⟨[.producer event], ?_⟩
              simp only [CopyState.producerStep, hp, SpscState.run, List.foldl_cons,
                List.foldl_nil, SpscState.step, SpscState.producerStep, htp]
              have hdone : s.queue.copyOut w = e := hrest
              refine ⟨h.capacity, rfl, h.read, ?_, h.consumed, .idle, h.consumer,
                fun x _ => h.slots_of_copied hp (hdone.trans hok.2.2.symm) x⟩
              simp [SpscState.pushed, h.published]
          | cons part rest =>
              -- a part of the copy: the coarse model is done with it
              refine ⟨[], ?_⟩
              simp only [CopyState.producerStep, hp, SpscState.run, List.foldl_nil]
              refine ⟨h.capacity, h.write, h.read, h.published, h.consumed, ?_, h.consumer,
                fun x hx => ?_⟩
              · rw [htp]
                refine .copying ?_
                rw [SpscRingBuffer.copyOut_copyIn_self]
                exact hrest
              · have hne : s.queue.slot x ≠ s.queue.slot w := hx w rfl
                exact (s.queue.copyOut_copyIn_of_ne hne _).trans (h.slots_of_copying hp hne)

/-- A step of the consumer is one, or none, of the queue model. -/
theorem consumerStep (h : Simulates s t) (hinv : t.Inv sequence) (out : MarketEvent)
    (plan : CopyPlan) :
    ∃ schedule, Simulates (s.consumerStep out plan) (t.run schedule) := by
  have hagrees := h.consumer
  generalize htc : t.consumer = c at hagrees
  cases hc : s.consumer with
  | idle =>
      rw [hc] at hagrees
      cases hagrees
      refine ⟨[.consumer], ?_⟩
      simp only [CopyState.consumerStep, hc, SpscState.run, List.foldl_cons, List.foldl_nil,
        SpscState.step, SpscState.consumerStep, htc, h.read]
      exact ⟨h.capacity, h.write, h.read, h.published, h.consumed, h.producer, .loadedRead _,
        h.slots⟩
  | loadedRead r =>
      rw [hc] at hagrees
      cases hagrees
      refine ⟨[.consumer], ?_⟩
      simp only [CopyState.consumerStep, hc, SpscState.run, List.foldl_cons, List.foldl_nil,
        SpscState.step, SpscState.consumerStep, htc, h.write]
      exact ⟨h.capacity, h.write, h.read, h.published, h.consumed, h.producer,
        .loadedWrite r _ _, h.slots⟩
  | loadedWrite r w =>
      rw [hc] at hagrees
      cases hagrees
      refine ⟨[.consumer], ?_⟩
      simp only [CopyState.consumerStep, hc, SpscState.run, List.foldl_cons, List.foldl_nil,
        SpscState.step, SpscState.consumerStep, htc]
      split_ifs with hempty
      · refine ⟨h.capacity, h.write, h.read, h.published, ?_, h.producer, .idle, h.slots⟩
        simpa [SpscState.popped] using h.consumed
      · exact ⟨h.capacity, h.write, h.read, h.published, h.consumed, h.producer,
          .copying (plan.complete _ _), h.slots⟩
  | copying r out' rest =>
      rw [hc] at hagrees
      cases hagrees with
      | @copying _ _ target held _ hrest =>
          cases rest with
          | nil =>
              refine ⟨[.consumer], ?_⟩
              simp only [CopyState.consumerStep, hc, SpscState.run, List.foldl_cons,
                List.foldl_nil, SpscState.step, SpscState.consumerStep, htc]
              refine ⟨h.capacity, h.write, rfl, h.published, ?_, h.producer, .idle, h.slots⟩
              have hdone : out' = target := hrest
              simp [SpscState.popped, h.consumed, hdone]
          | cons part rest =>
              -- the slot holds the event that the coarse model has already read
              have hslot : s.queue.copyOut r = target := by
                have hok := hinv.consumer
                rw [htc] at hok
                obtain ⟨rfl, hout⟩ := hok
                rw [h.slots _ fun w hw => h.claimed_slots_ne hinv hw (by rw [hc]; rfl)]
                exact hinv.slots _ _ le_rfl hout
              refine ⟨[], ?_⟩
              simp only [CopyState.consumerStep, hc, SpscState.run, List.foldl_nil]
              refine ⟨h.capacity, h.write, h.read, h.published, h.consumed, h.producer, ?_,
                h.slots⟩
              rw [htc, hslot]
              exact .copying hrest

end Simulates

/-- Every run with copies in parts is matched by a run with copies in one step. -/
theorem exists_simulates (q : SpscRingBuffer) (sequence : UInt64) (schedule : List CopyAction) :
    ∃ t, t.Inv sequence ∧ Simulates ((CopyState.start q sequence).run schedule) t := by
  induction schedule using List.reverseRecOn with
  | nil => exact ⟨_, SpscState.inv_start q sequence, simulates_start q sequence⟩
  | append_singleton schedule action ih =>
      obtain ⟨t, hinv, hsim⟩ := ih
      have hstep : ∃ schedule', Simulates
          (((CopyState.start q sequence).run schedule).step action) (t.run schedule') := by
        cases action with
        | producer event plan => exact hsim.producerStep hinv event plan
        | consumer out plan => exact hsim.consumerStep hinv out plan
      obtain ⟨schedule', hsim'⟩ := hstep
      refine ⟨t.run schedule', SpscState.inv_run hinv schedule', ?_⟩
      rw [CopyState.run, List.foldl_append]
      exact hsim'

/-- **Slot exclusivity.** Whatever the interleaving, the capacity, the common value of the
sequences at the start and the way events are copied: while the producer has passed its full
check and not yet stored the write sequence, and the consumer has passed its empty check and
not yet stored the read sequence, their slots differ; and the slot of a published event keeps
it, unwritten, until the store of the read sequence that consumes it. -/
theorem spsc_slot_exclusivity (q : SpscRingBuffer) (sequence : UInt64)
    (schedule : List CopyAction) :
    let s := (CopyState.start q sequence).run schedule
    (∀ write read, s.producer.claimed = some write → s.consumer.claimed = some read →
        s.queue.slot write ≠ s.queue.slot read) ∧
      ∀ n event, s.consumed.length ≤ n → s.published[n]? = some event →
        s.queue.copyOut (seqAt sequence n) = event ∧
        ∀ action, s.writtenSlot action ≠ some (s.queue.slot (seqAt sequence n)) ∧
          (s.step action).queue.buffer[s.queue.slot (seqAt sequence n)]? =
            s.queue.buffer[s.queue.slot (seqAt sequence n)]? := by
  dsimp only
  obtain ⟨t, hinv, hsim⟩ := exists_simulates q sequence schedule
  refine ⟨fun write read hw hr => (hsim.claimed_slots_ne hinv hw hr).symm,
    fun n event hge hevent => ?_⟩
  have hlt := (List.getElem?_eq_some_iff.mp hevent).1
  have hunwritten := hsim.not_written hinv hge hlt
  refine ⟨?_, fun action => ⟨hunwritten action, CopyState.getElem?_buffer_step _ _
    (hunwritten action)⟩⟩
  rw [hsim.slots _ fun w hw => hsim.slot_ne_claimed hinv hw hge hlt]
  rw [hsim.published] at hevent
  rw [hsim.consumed] at hge
  exact hinv.slots n event hge hevent

/-- **No event is torn.** However the copies and the threads interleave, the events popped are
the events published, in order. -/
theorem spsc_copies_whole (q : SpscRingBuffer) (sequence : UInt64) (schedule : List CopyAction) :
    ((CopyState.start q sequence).run schedule).consumed <+:
      ((CopyState.start q sequence).run schedule).published := by
  obtain ⟨t, hinv, hsim⟩ := exists_simulates q sequence schedule
  rw [hsim.consumed, hsim.published]
  exact hinv.fifo

end Datagine
