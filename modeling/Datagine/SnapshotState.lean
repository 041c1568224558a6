import Datagine.BookRuns
import Datagine.ReplayEngine
import Datagine.Rulings

/-!
# The Snapshot is the Whole State

The lookup table, the node addresses and the statistics of a `LimitOrderBook` do not appear in
a snapshot. They carry nothing that an event could find out: two books whose live lists have
the same queues answer every further event alike and show the same (`Alike`), and a snapshot
holds exactly the queues.

## Main results

* `rebuilt_from_snapshot`: adding the orders of a reachable book's snapshot to an empty book
  succeeds, shows the same snapshot, and behaves like the original under every continuation.
-/

namespace Datagine

open KeyedList Mealy

/-- The event that adds the order `o` on side `s` at price `p`. -/
def OrderView.addEvent (s : Side) (p : Price) (o : OrderView) : MarketEvent where
  type := .add
  timestamp := o.timestamp
  orderId := o.orderId
  side := s
  price := p
  quantity := o.quantity

/-- The adds of the orders of a level, in queue order. -/
def PriceLevelSnapshot.addEvents (s : Side) (l : PriceLevelSnapshot) : List MarketEvent :=
  l.orders.map (OrderView.addEvent s l.price)

/-- The adds of all orders of a snapshot, side by side and level by level. -/
def BookSnapshot.addEvents (S : BookSnapshot) : List MarketEvent :=
  S.bids.flatMap (PriceLevelSnapshot.addEvents .buy) ++
    S.asks.flatMap (PriceLevelSnapshot.addEvents .sell)

/-! ### Books with the same queues -/

namespace LimitOrderBook

variable {b b' : LimitOrderBook}

/-- The two books hold live lists with the same queues. -/
def Alike (b b' : LimitOrderBook) : Prop :=
  ∃ L L', HoldsLive b L ∧ HoldsLive b' L' ∧ SameQueues L L'

/-- An event is answered alike, and leaves the books alike. -/
theorem Alike.step (h : Alike b b') (event : MarketEvent) :
    (b.apply event).1 = (b'.apply event).1 ∧ Alike (b.apply event).2 (b'.apply event).2 := by
  obtain ⟨_, _, ⟨A, hrep, rfl⟩, ⟨A', hrep', rfl⟩, hsame⟩ := h
  obtain ⟨hres, hholds⟩ := apply_refines hrep event
  obtain ⟨hres', hholds'⟩ := apply_refines hrep' event
  obtain ⟨hreference, hnext⟩ := hsame.apply A.live_idsNodup event
  exact ⟨by rw [hres, hres', hreference], _, _, hholds, hholds', hnext⟩

/-- Books that are alike answer alike and stay alike. -/
theorem Alike.run (h : Alike b b') (events : List MarketEvent) :
    outputs apply b events = outputs apply b' events ∧
      Alike (finalState apply b events) (finalState apply b' events) :=
  simulation (fun _ _ event hlike => hlike.step event) h events

/-- Books that are alike show the same. -/
theorem Alike.snapshot_eq (h : Alike b b') : b.snapshot = b'.snapshot := by
  obtain ⟨_, _, ⟨A, hrep, rfl⟩, ⟨A', hrep', rfl⟩, hsame⟩ := h
  refine BookSnapshot.ext_side fun s => ?_
  exact ((hrep.showsSide s).congr hsame).unique (hrep'.showsSide s)

/-- Books that are alike hold as many orders. -/
theorem Alike.liveOrderCount_eq (h : Alike b b') : b.liveOrderCount = b'.liveOrderCount := by
  obtain ⟨_, _, ⟨A, hrep, rfl⟩, ⟨A', hrep', rfl⟩, hsame⟩ := h
  rw [hrep.liveOrderCount, hrep'.liveOrderCount, hsame.perm.length_eq]

end LimitOrderBook

/-! ### Adding a list of orders -/

/-- The event that adds a live order. -/
def LiveOrder.addEvent (o : LiveOrder) : MarketEvent := o.view.addEvent o.side o.price

/-- Orders with new ids and positive quantities are all accepted, in order. -/
theorem Reference.run_addEvents {L K : List LiveOrder}
    (hnd : ((L ++ K).map LiveOrder.orderId).Nodup) (hpos : ∀ o ∈ K, o.quantity.units ≠ 0) :
    (∀ r ∈ outputs Reference.apply L (K.map LiveOrder.addEvent), r = .applied) ∧
      finalState Reference.apply L (K.map LiveOrder.addEvent) = L ++ K := by
  induction K generalizing L with
  | nil => simp
  | cons o K ih =>
      have hnew : o.orderId ∉ L.map LiveOrder.orderId := by
        rw [List.map_append, List.map_cons, List.nodup_append] at hnd
        exact fun hmem => hnd.2.2 _ hmem _ List.mem_cons_self rfl
      have hstep : Reference.apply L o.addEvent = (.applied, L ++ [o]) := by
        change Reference.addOrder L o.orderId o.side o.price o.quantity o.timestamp = _
        rw [Reference.addOrder, if_neg (hpos o List.mem_cons_self), if_neg hnew]
      rw [List.append_cons] at hnd
      obtain ⟨houts, hfinal⟩ := ih hnd fun a ha => hpos a (List.mem_cons_of_mem o ha)
      rw [List.map_cons, outputs_cons, finalState_cons, hstep]
      refine ⟨fun r hr => ?_, by rw [hfinal, List.append_assoc]; rfl⟩
      rcases List.mem_cons.mp hr with rfl | hr
      · rfl
      · exact houts r hr

/-! ### The orders of a snapshot -/

/-- The queues of a side at the given prices, one after another. -/
def queuesAt (L : List LiveOrder) (s : Side) (prices : List Price) : List LiveOrder :=
  prices.flatMap (ordersAt L s)

/-- The orders of a level among those of a level. -/
theorem ordersAt_ordersAt (L : List LiveOrder) (s s' : Side) (p p' : Price) :
    ordersAt (ordersAt L s p) s' p' = if s = s' ∧ p = p' then ordersAt L s p else [] := by
  rw [ordersAt, ordersAt]
  split_ifs with h
  · obtain ⟨rfl, rfl⟩ := h
    rw [List.filter_filter]
    simp
  · refine List.filter_eq_nil_iff.mpr fun o ho hat => h ?_
    have hrests := (List.mem_filter.mp ho).2
    simp only [LiveOrder.restsAt, decide_eq_true_eq] at hrests hat
    exact ⟨hrests.1.symm.trans hat.1, hrests.2.symm.trans hat.2⟩

/-- Each queue appears once when the prices are distinct. -/
theorem ordersAt_queuesAt (L : List LiveOrder) (s : Side) {prices : List Price}
    (hnd : prices.Nodup) (s' : Side) (p : Price) :
    ordersAt (queuesAt L s prices) s' p =
      if s = s' ∧ p ∈ prices then ordersAt L s p else [] := by
  induction prices with
  | nil => simp [queuesAt, ordersAt]
  | cons q prices ih =>
      obtain ⟨hnot, hnd⟩ := List.nodup_cons.mp hnd
      have hsplit : ordersAt (queuesAt L s (q :: prices)) s' p =
          ordersAt (ordersAt L s q) s' p ++ ordersAt (queuesAt L s prices) s' p :=
        List.filter_append ..
      rw [hsplit, ordersAt_ordersAt, ih hnd]
      by_cases hq : q = p
      · subst hq
        simp [hnot]
      · simp [hq, Ne.symm hq]

namespace ShowsSide

variable {L : List LiveOrder} {s : Side} {levels : List PriceLevelSnapshot}

/-- The orders shown on a side are those of its queues. -/
theorem addEvents_eq (h : ShowsSide L s levels) :
    levels.flatMap (PriceLevelSnapshot.addEvents s) =
      (queuesAt L s (levels.map PriceLevelSnapshot.price)).map LiveOrder.addEvent := by
  have hlevel : ∀ l ∈ levels, PriceLevelSnapshot.addEvents s l =
      (ordersAt L s l.price).map LiveOrder.addEvent := by
    intro l hl
    rw [PriceLevelSnapshot.addEvents, h.orders l hl, List.map_map]
    refine List.map_congr_left fun o ho => ?_
    have hrests := (List.mem_filter.mp ho).2
    simp only [LiveOrder.restsAt, decide_eq_true_eq] at hrests
    rw [Function.comp_apply, LiveOrder.addEvent, hrests.1, hrests.2]
  rw [queuesAt, List.map_flatMap, List.flatMap_map]
  exact List.flatMap_congr hlevel

/-- No order rests at a price that is not shown. -/
theorem ordersAt_eq_nil (h : ShowsSide L s levels) {p : Price}
    (hp : p ∉ levels.map PriceLevelSnapshot.price) : ordersAt L s p = [] := by
  rw [h.prices, ← ordersAt_ne_nil_iff, not_not] at hp
  exact hp

end ShowsSide

/-- The orders of a listing of both sides have the queues of the live list. -/
theorem sameQueues_listed {L : List LiveOrder} {bids asks : List PriceLevelSnapshot}
    (hbids : ShowsSide L .buy bids) (hasks : ShowsSide L .sell asks) :
    SameQueues L (queuesAt L .buy (bids.map PriceLevelSnapshot.price) ++
      queuesAt L .sell (asks.map PriceLevelSnapshot.price)) := by
  intro s p
  have hside : ∀ K K' : List LiveOrder, ordersAt (K ++ K') s p =
      ordersAt K s p ++ ordersAt K' s p := fun K K' => List.filter_append ..
  rw [hside, ordersAt_queuesAt L .buy hbids.pricesNodup,
    ordersAt_queuesAt L .sell hasks.pricesNodup]
  cases s with
  | buy =>
      by_cases hp : p ∈ bids.map PriceLevelSnapshot.price
      · simp [hp]
      · simp [hp, hbids.ordersAt_eq_nil hp]
  | sell =>
      by_cases hp : p ∈ asks.map PriceLevelSnapshot.price
      · simp [hp]
      · simp [hp, hasks.ordersAt_eq_nil hp]

namespace LimitOrderBook

/-- Adding the orders that a represented book shows is accepted, and gives a book like it. -/
theorem HoldsLive.rebuild {b : LimitOrderBook} {L : List LiveOrder} (h : HoldsLive b L) :
    (∀ r ∈ outputs apply empty b.snapshot.addEvents, r = .applied) ∧
      Alike b (finalState apply empty b.snapshot.addEvents) := by
  obtain ⟨A, hrep, rfl⟩ := h
  have hbids := hrep.showsSide .buy
  have hasks := hrep.showsSide .sell
  have hsame := sameQueues_listed hbids hasks
  have hevents : b.snapshot.addEvents = (_ ++ _ : List LiveOrder).map LiveOrder.addEvent :=
    (congrArg₂ _ hbids.addEvents_eq hasks.addEvents_eq).trans (List.map_append ..).symm
  have hnd := (hsame.perm.map LiveOrder.orderId).nodup_iff.mp A.live_idsNodup
  obtain ⟨happlied, hfinal⟩ := Reference.run_addEvents (L := []) hnd fun o ho =>
    A.live_positive o (hsame.perm.mem_iff.mpr ho)
  obtain ⟨hout, hholds⟩ := runEvents_refines b.snapshot.addEvents
  rw [hevents] at hout hholds ⊢
  rw [hout]
  replace hholds : HoldsLive _ _ := hfinal ▸ hholds
  exact ⟨happlied, _, _, ⟨A, hrep, rfl⟩, hholds, hsame⟩

/-- **The snapshot is the whole state.** Take any book that a client can reach and add the
orders of its snapshot to an empty book. Every add is accepted, the new book shows the same
snapshot, and whatever events follow, both books answer alike and afterwards show the same
snapshot, top of book, depth and checksum. -/
theorem rebuilt_from_snapshot (ops : List BookOp) :
    let B := finalState exec empty ops
    let B' := finalState apply empty B.snapshot.addEvents
    (∀ r ∈ outputs apply empty B.snapshot.addEvents, r = .applied) ∧
      B'.snapshot = B.snapshot ∧
      ∀ events : List MarketEvent,
        outputs apply B' events = outputs apply B events ∧
        (finalState apply B' events).snapshot = (finalState apply B events).snapshot ∧
        (finalState apply B' events).topOfBook = (finalState apply B events).topOfBook ∧
        (∀ n, (finalState apply B' events).depth n = (finalState apply B events).depth n) ∧
        checksumBook (finalState apply B' events) = checksumBook (finalState apply B events) := by
  dsimp only
  obtain ⟨happlied, hlike⟩ := (run_refines ops).2.rebuild
  refine ⟨happlied, hlike.snapshot_eq.symm, fun events => ?_⟩
  obtain ⟨hout, hnext⟩ := hlike.run events
  have hsnap := hnext.snapshot_eq.symm
  refine ⟨hout.symm, hsnap, ?_, fun n => ?_, congrArg checksumSnapshot hsnap⟩
  · rw [topOfBook_eq, topOfBook_eq, hsnap]
  · rw [depth_eq, depth_eq, hsnap]

/-- Two bids at one price, the first executed in part, and an ask: the book is rebuilt, and a
cancel of the second bid leaves both books alike. -/
theorem rebuilt_from_snapshot_threeOrders :
    let B := finalState exec empty [.addOrder ⟨1⟩ .buy ⟨100⟩ ⟨5⟩ ⟨0⟩,
      .addOrder ⟨2⟩ .buy ⟨100⟩ ⟨7⟩ ⟨1⟩, .addOrder ⟨3⟩ .sell ⟨103⟩ ⟨4⟩ ⟨2⟩, .executeOrder ⟨1⟩ ⟨2⟩]
    let B' := finalState apply empty B.snapshot.addEvents
    let cancel : MarketEvent := { type := .cancel, orderId := ⟨2⟩ }
    B.snapshot = ⟨[⟨⟨100⟩, ⟨10⟩, [⟨⟨1⟩, ⟨0⟩, ⟨3⟩⟩, ⟨⟨2⟩, ⟨1⟩, ⟨7⟩⟩]⟩],
        [⟨⟨103⟩, ⟨4⟩, [⟨⟨3⟩, ⟨2⟩, ⟨4⟩⟩]⟩]⟩ ∧
      B'.snapshot = B.snapshot ∧
      (finalState apply B' [cancel]).snapshot =
        ⟨[⟨⟨100⟩, ⟨3⟩, [⟨⟨1⟩, ⟨0⟩, ⟨3⟩⟩]⟩], [⟨⟨103⟩, ⟨4⟩, [⟨⟨3⟩, ⟨2⟩, ⟨4⟩⟩]⟩]⟩ := by
  intro B B' cancel
  obtain ⟨-, hsame, hnext⟩ := rebuilt_from_snapshot [.addOrder ⟨1⟩ .buy ⟨100⟩ ⟨5⟩ ⟨0⟩,
    .addOrder ⟨2⟩ .buy ⟨100⟩ ⟨7⟩ ⟨1⟩, .addOrder ⟨3⟩ .sell ⟨103⟩ ⟨4⟩ ⟨2⟩, .executeOrder ⟨1⟩ ⟨2⟩]
  refine ⟨by decide +kernel, hsame, (hnext [cancel]).2.1.trans ?_⟩
  decide +kernel

end LimitOrderBook

end Datagine
