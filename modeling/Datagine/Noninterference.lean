import Datagine.SnapshotState

/-!
# Orders do not Interfere

Orders share levels, queues and cached totals, but no event on one order changes what an event
on another one is answered or does. On the live list this is one equation for each kind of
event: to keep the orders of a set of ids is to drop the events of the others
(`Reference.apply_liveIn`, `Reference.apply_liveIn_of_not`). What a book shows of such a part
is the restriction of its snapshot (`ShowsSide.restrict`).

## Main results

* `LimitOrderBook.noninterference`: a run of the events of some ids is the full run, seen
  through these ids; orders that are gone have left no mark.
-/

namespace Datagine

open KeyedList Mealy

/-! ### Restricting a snapshot -/

/-- A level with the orders of `S` only, and their total. -/
def PriceLevelSnapshot.restrict (S : OrderId → Bool) (l : PriceLevelSnapshot) :
    PriceLevelSnapshot :=
  let orders := l.orders.filter fun o => S o.orderId
  ⟨l.price, ⟨UInt64.ofNat (orders.map fun o => o.quantity.units.toNat).sum⟩, orders⟩

/-- The levels of a side with the orders of `S` only; levels left empty are dropped. -/
def restrictLevels (S : OrderId → Bool) (levels : List PriceLevelSnapshot) :
    List PriceLevelSnapshot :=
  (levels.map (PriceLevelSnapshot.restrict S)).filter fun l => l.orders ≠ []

/-- A snapshot with the orders of `S` only. -/
def BookSnapshot.restrict (S : OrderId → Bool) (snapshot : BookSnapshot) : BookSnapshot :=
  ⟨restrictLevels S snapshot.bids, restrictLevels S snapshot.asks⟩

/-- The live orders of `S`. -/
def liveIn (S : OrderId → Bool) (L : List LiveOrder) : List LiveOrder :=
  L.filter fun o => S o.orderId

/-- Restricting the orders of a level. -/
theorem ordersAt_liveIn (S : OrderId → Bool) (L : List LiveOrder) (s : Side) (p : Price) :
    ordersAt (liveIn S L) s p = liveIn S (ordersAt L s p) := by
  rw [ordersAt, liveIn, ordersAt, liveIn, List.filter_filter, List.filter_filter]
  exact List.filter_congr fun o _ => Bool.and_comm _ _

/-- Restricting the shown orders. -/
theorem map_view_liveIn (S : OrderId → Bool) (L : List LiveOrder) :
    (liveIn S L).map LiveOrder.view = (L.map LiveOrder.view).filter fun o => S o.orderId := by
  rw [liveIn, List.filter_map]
  rfl

/-- The restricted levels show the live orders of `S`. -/
theorem ShowsSide.restrict {L : List LiveOrder} {s : Side} {levels : List PriceLevelSnapshot}
    (h : ShowsSide L s levels) (S : OrderId → Bool) :
    ShowsSide (liveIn S L) s (restrictLevels S levels) := by
  -- what becomes of one level
  have horders : ∀ l ∈ levels, (l.restrict S).orders =
      (ordersAt (liveIn S L) s l.price).map LiveOrder.view := by
    intro l hl
    rw [ordersAt_liveIn, map_view_liveIn, ← h.orders l hl]
    rfl
  have hmem : ∀ l', l' ∈ restrictLevels S levels ↔
      ∃ l ∈ levels, l.restrict S = l' ∧ ordersAt (liveIn S L) s l.price ≠ [] := by
    intro l'
    rw [restrictLevels, List.mem_filter, List.mem_map]
    constructor
    · rintro ⟨⟨l, hl, rfl⟩, hne⟩
      refine ⟨l, hl, rfl, fun hnil => ?_⟩
      simp [horders l hl, hnil] at hne
    · rintro ⟨l, hl, rfl, hne⟩
      refine ⟨⟨l, hl, rfl⟩, ?_⟩
      simpa [horders l hl] using hne
  refine ⟨?_, fun p => ?_, fun l' hl' => ?_, fun l' hl' => ?_⟩
  · have hsorted : (levels.map (PriceLevelSnapshot.restrict S)).Pairwise fun a b =>
        s.before a.price.ticks b.price.ticks := List.pairwise_map.mpr h.sorted
    exact hsorted.sublist List.filter_sublist
  · rw [← ordersAt_ne_nil_iff, List.mem_map]
    constructor
    · rintro ⟨l', hl', rfl⟩
      obtain ⟨l, -, rfl, hne⟩ := (hmem l').mp hl'
      exact hne
    · intro hne
      have hp : p ∈ levels.map PriceLevelSnapshot.price := by
        rw [h.prices, ← ordersAt_ne_nil_iff]
        intro hnil
        rw [ordersAt_liveIn, hnil] at hne
        exact hne rfl
      obtain ⟨l, hl, rfl⟩ := List.mem_map.mp hp
      exact ⟨l.restrict S, (hmem _).mpr ⟨l, hl, rfl, hne⟩, rfl⟩
  · obtain ⟨l, hl, rfl, -⟩ := (hmem l').mp hl'
    exact horders l hl
  · obtain ⟨l, hl, rfl, -⟩ := (hmem l').mp hl'
    have hsum : (l.restrict S).quantity =
        ⟨UInt64.ofNat ((l.restrict S).orders.map fun o => o.quantity.units.toNat).sum⟩ := rfl
    rw [hsum, horders l hl, List.map_map]
    rfl

/-! ### The rules on a part of the live list -/

section

variable {S : OrderId → Bool} {id : OrderId}

/-- An order of the set keeps its quantity. -/
theorem quantityOf_liveIn (hid : S id = true) (L : List LiveOrder) :
    quantityOf (liveIn S L) id = quantityOf L id := by
  have hfind : findKey LiveOrder.orderId id (liveIn S L) = findKey LiveOrder.orderId id L := by
    rw [findKey, liveIn, List.find?_filter, findKey]
    congr 1
    funext o
    by_cases ho : o.orderId = id
    · simp [ho, hid]
    · simp [ho]
  rw [quantityOf, quantityOf, hfind]

/-- An edit of an order of the set is an edit of the restricted list. -/
theorem liveIn_run (hid : S id = true) (edit : Edit) (L : List LiveOrder) :
    liveIn S (edit.run id L) = edit.run id (liveIn S L) := by
  cases edit with
  | keep => rfl
  | push side price timestamp quantity =>
      rw [Edit.run, liveIn, List.filter_append, Edit.run, liveIn]
      simp [hid]
  | erase => exact filter_eraseKey _
  | resize quantity => exact filter_updateKey _ fun _ => rfl

/-- An edit of another order is not seen. -/
theorem liveIn_run_of_not (hid : S id = false) (edit : Edit) (L : List LiveOrder) :
    liveIn S (edit.run id L) = liveIn S L := by
  have hnot : id ∉ (liveIn S L).map LiveOrder.orderId := by
    intro hmem
    obtain ⟨o, ho, rfl⟩ := List.mem_map.mp hmem
    exact Bool.false_ne_true (hid ▸ (List.mem_filter.mp ho).2)
  cases edit with
  | keep => rfl
  | push side price timestamp quantity =>
      rw [Edit.run, liveIn, List.filter_append, liveIn]
      simp [hid]
  | erase => exact (filter_eraseKey _).trans (eraseKey_of_not_mem hnot)
  | resize quantity =>
      rw [Edit.run, Reference.setQuantity, liveIn,
        filter_updateKey (f := LiveOrder.withQuantity quantity) _ fun _ => rfl]
      exact updateKey_of_not_mem hnot

/-- An event on an order of `S` finds and does the same when the other orders are gone. -/
theorem Reference.apply_liveIn (L : List LiveOrder) {event : MarketEvent}
    (hid : S event.orderId = true) :
    (Reference.apply L event).1 = (Reference.apply (liveIn S L) event).1 ∧
      liveIn S (Reference.apply L event).2 = (Reference.apply (liveIn S L) event).2 := by
  rw [Reference.apply_eq, Reference.apply_eq, quantityOf_liveIn hid]
  exact ⟨rfl, liveIn_run hid _ _⟩

/-- An event on another order leaves the orders of `S` as they are. -/
theorem Reference.apply_liveIn_of_not (L : List LiveOrder) {event : MarketEvent}
    (hid : S event.orderId = false) : liveIn S (Reference.apply L event).2 = liveIn S L := by
  rw [Reference.apply_eq]
  exact liveIn_run_of_not hid _ _

/-- **The run of the events of `S`** is the full run, seen through `S`. -/
theorem Reference.run_liveIn (S : OrderId → Bool) (L : List LiveOrder)
    (events : List MarketEvent) :
    outputs Reference.apply (liveIn S L) (events.filter fun event => S event.orderId) =
        ((events.zip (outputs Reference.apply L events)).filter
          fun x => S x.1.orderId).map Prod.snd ∧
      liveIn S (finalState Reference.apply L events) =
        finalState Reference.apply (liveIn S L) (events.filter fun event => S event.orderId) := by
  refine simulation_filter (R := fun K K' => liveIn S K = K') ?_ ?_ rfl events
  · rintro K _ event rfl hid
    exact apply_liveIn_of_not K hid
  · rintro K _ event rfl hid
    exact apply_liveIn K hid

end

/-! ### The books -/

/-- Every id but one. -/
def allBut (id : OrderId) : OrderId → Bool := fun id' => id' ≠ id

/-- Leaving out an order that is not there changes nothing. -/
theorem liveIn_allBut {L : List LiveOrder} {id : OrderId}
    (hid : id ∉ L.map LiveOrder.orderId) : liveIn (allBut id) L = L :=
  eraseKey_of_not_mem hid

/-- While an order is not live, its events may be left out. -/
theorem Reference.finalState_allBut {L : List LiveOrder} {id : OrderId}
    {events : List MarketEvent} (hbefore : id ∉ L.map LiveOrder.orderId)
    (hafter : id ∉ (finalState Reference.apply L events).map LiveOrder.orderId) :
    finalState Reference.apply L (events.filter fun event => event.orderId ≠ id) =
      finalState Reference.apply L events := by
  have hrun := (Reference.run_liveIn (allBut id) L events).2
  rw [liveIn_allBut hbefore, liveIn_allBut hafter] at hrun
  exact hrun.symm

namespace LimitOrderBook

/-- A book with the restricted orders shows the restricted snapshot. -/
theorem HoldsLive.snapshot_restrict {b c : LimitOrderBook} {L : List LiveOrder}
    {S : OrderId → Bool} (hb : HoldsLive b L) (hc : HoldsLive c (liveIn S L)) :
    c.snapshot = b.snapshot.restrict S := by
  obtain ⟨A, hrep, rfl⟩ := hb
  obtain ⟨A', hrep', hlive⟩ := hc
  have hside : ∀ s, c.snapshot.side s = restrictLevels S (b.snapshot.side s) := by
    intro s
    have hshows := hrep'.showsSide s
    rw [hlive] at hshows
    exact hshows.unique ((hrep.showsSide s).restrict S)
  refine BookSnapshot.ext_side fun s => (hside s).trans ?_
  cases s <;> rfl

/-- The lookup lacks the ids that are not live. -/
theorem HoldsLive.not_mem_iff {b : LimitOrderBook} {L : List LiveOrder} (h : HoldsLive b L)
    {id : OrderId} : id.value ∉ b.orderLookup ↔ id ∉ L.map LiveOrder.orderId := by
  obtain ⟨A, hrep, rfl⟩ := h
  rw [hrep.mem_orderLookup_iff]

/-- An order that comes and goes leaves no mark: where it is not live before and after a part
of the run, its events in that part change nothing of the outcome. -/
theorem snapshot_without (pre mid post : List MarketEvent) (id : OrderId)
    (hbefore : id.value ∉ (finalState apply empty pre).orderLookup)
    (hafter : id.value ∉ (finalState apply empty (pre ++ mid)).orderLookup) :
    (finalState apply empty
        (pre ++ (mid.filter fun event => event.orderId ≠ id) ++ post)).snapshot =
      (finalState apply empty (pre ++ mid ++ post)).snapshot := by
  have hlive := fun events => (runEvents_refines events).2
  rw [(hlive _).not_mem_iff] at hbefore hafter
  rw [finalState_append] at hafter
  refine Alike.snapshot_eq ⟨_, _, hlive _, hlive _, ?_⟩
  rw [finalState_append, finalState_append, finalState_append, finalState_append,
    Reference.finalState_allBut hbefore hafter]
  exact SameQueues.refl _

/-- **Orders do not interfere.** Run only the events whose ids are in `S`: each of them is
answered as in the full run, and the book shows the snapshot of the full run without the
orders outside `S`. An order that is not live at the end, or that came and went during the
run, leaves the snapshot and the checksum as if its events had not occurred. -/
theorem noninterference (events : List MarketEvent) (S : OrderId → Bool) :
    let full := finalState apply empty events
    outputs apply empty (events.filter fun event => S event.orderId) =
        ((events.zip (outputs apply empty events)).filter fun x => S x.1.orderId).map Prod.snd ∧
      (finalState apply empty (events.filter fun event => S event.orderId)).snapshot =
        full.snapshot.restrict S ∧
      (∀ id : OrderId, id.value ∉ full.orderLookup →
        let without := finalState apply empty (events.filter fun event => event.orderId ≠ id)
        without.snapshot = full.snapshot ∧ checksumBook without = checksumBook full) ∧
      ∀ (pre mid post : List MarketEvent) (id : OrderId), events = pre ++ mid ++ post →
        id.value ∉ (finalState apply empty pre).orderLookup →
        id.value ∉ (finalState apply empty (pre ++ mid)).orderLookup →
        let without := finalState apply empty
          (pre ++ (mid.filter fun event => event.orderId ≠ id) ++ post)
        without.snapshot = full.snapshot ∧ checksumBook without = checksumBook full := by
  dsimp only
  obtain ⟨hout, hfinal⟩ := Reference.run_liveIn S [] events
  obtain ⟨hfull, hholds⟩ := runEvents_refines events
  obtain ⟨hpart, hholds'⟩ := runEvents_refines (events.filter fun event => S event.orderId)
  refine ⟨?_, ?_, fun id hid => ?_, ?_⟩
  · rw [hpart, hfull]
    exact hout
  · refine hholds.snapshot_restrict ?_
    rw [hfinal]
    exact hholds'
  · have hsnap := snapshot_without [] events [] id Finmap.notMem_empty (by simpa using hid)
    simp only [List.nil_append, List.append_nil] at hsnap
    exact ⟨hsnap, congrArg checksumSnapshot hsnap⟩
  · rintro pre mid post id rfl hbefore hafter
    have hsnap := snapshot_without pre mid post id hbefore hafter
    exact ⟨hsnap, congrArg checksumSnapshot hsnap⟩

end LimitOrderBook

end Datagine
