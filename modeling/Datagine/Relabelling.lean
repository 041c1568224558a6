import Mathlib.Data.Set.Function
import Datagine.PooledRuns
import Datagine.Rulings

/-!
# Names, Prices and Times Are Only Compared

The books compare ids for equality and prices by their order, and do not look at timestamps at
all. So a feed may be relabelled: with other ids, as long as different orders stay different; with
other prices, as long as the prices that are added keep their order; and with other timestamps,
by any map of timestamps: it need not keep their order, but equal ones stay equal. Both books give
the relabelled feed the same results and end in the relabelled book.

No map on all 64-bit prices keeps their order except for the one that changes nothing, so what is
asked of the new names is asked of the ids and prices of the feed.

## Main results

* `relabelled_runs`: for both books, the relabelled feed gets the same results and ends in a book
  whose views are the relabelled views.
-/

namespace Datagine

open KeyedList Mealy

/-- New names for orders, prices and times. Being maps, they give equal names equal new ones. -/
structure Relabelling where
  orderId : OrderId → OrderId
  price : Price → Price
  timestamp : Timestamp → Timestamp

namespace Relabelling

variable (r : Relabelling)

/-! ### Relabelled data -/

/-- An event under the new names; its type, side and quantity stay. -/
def event (event : MarketEvent) : MarketEvent :=
  { event with
    orderId := r.orderId event.orderId
    price := r.price event.price
    timestamp := r.timestamp event.timestamp }

/-- A live order under its new names. -/
def order (o : LiveOrder) : LiveOrder :=
  { o with
    orderId := r.orderId o.orderId
    price := r.price o.price
    timestamp := r.timestamp o.timestamp }

/-- An order of a snapshot under its new names. -/
def view (v : OrderView) : OrderView :=
  { v with orderId := r.orderId v.orderId, timestamp := r.timestamp v.timestamp }

/-- A level view at its new price. -/
def levelView (l : PriceLevelView) : PriceLevelView := { l with price := r.price l.price }

/-- A level of a snapshot at its new price, with its orders under their new names. -/
def level (l : PriceLevelSnapshot) : PriceLevelSnapshot :=
  { l with price := r.price l.price, orders := l.orders.map r.view }

/-- A snapshot under the new names, level by level. -/
def snapshot (S : BookSnapshot) : BookSnapshot := ⟨S.bids.map r.level, S.asks.map r.level⟩

/-- A depth view under the new names. -/
def depth (d : BookDepth) : BookDepth := ⟨d.bids.map r.levelView, d.asks.map r.levelView⟩

/-- A top of book under the new names. -/
def top (top : TopOfBook) : TopOfBook := ⟨top.bid.map r.levelView, top.ask.map r.levelView⟩

/-- A list of live orders under their new names, in the same order. -/
def live (L : List LiveOrder) : List LiveOrder := L.map r.order

/-- An edit of a list of live orders under the new names: only a push carries any. -/
def edit : Edit → Edit
  | .push side price timestamp quantity =>
      .push side (r.price price) (r.timestamp timestamp) quantity
  | edit => edit

/-! ### Faithful names -/

/-- Different ids stay different and the prices keep their order. -/
structure Faithful (ids : Set OrderId) (prices : Set Price) : Prop where
  injOn : Set.InjOn r.orderId ids
  mono : ∀ p ∈ prices, ∀ q ∈ prices, p.ticks < q.ticks → (r.price p).ticks < (r.price q).ticks

/-- All orders have these ids and prices. -/
def Known (ids : Set OrderId) (prices : Set Price) (L : List LiveOrder) : Prop :=
  ∀ o ∈ L, o.orderId ∈ ids ∧ o.price ∈ prices

variable {r} {ids : Set OrderId} {prices : Set Price} {L : List LiveOrder}

namespace Faithful

variable (h : r.Faithful ids prices)
include h

/-- The new prices are ordered like the old ones. -/
theorem ticks_lt_iff {p q : Price} (hp : p ∈ prices) (hq : q ∈ prices) :
    (r.price p).ticks < (r.price q).ticks ↔ p.ticks < q.ticks := by
  refine ⟨fun hlt => ?_, h.mono p hp q hq⟩
  rcases trichotomous_of (· < ·) p.ticks q.ticks with hpq | heq | hqp
  · exact hpq
  · obtain rfl : p = q := congrArg Price.mk heq
    exact absurd hlt Int64.lt_irrefl
  · exact absurd hlt (Int64.lt_asymm (h.mono q hq p hp hqp))

/-- Different prices stay different. -/
theorem price_eq_iff {p q : Price} (hp : p ∈ prices) (hq : q ∈ prices) :
    r.price p = r.price q ↔ p = q := by
  refine ⟨fun heq => ?_, congrArg r.price⟩
  rcases trichotomous_of (· < ·) p.ticks q.ticks with hpq | hpq | hqp
  · exact absurd (heq ▸ h.mono p hp q hq hpq) Int64.lt_irrefl
  · exact congrArg Price.mk hpq
  · exact absurd (heq ▸ h.mono q hq p hp hqp) Int64.lt_irrefl

/-- Both comparators order the new prices like the old ones. -/
theorem before_iff (s : Side) {p q : Price} (hp : p ∈ prices) (hq : q ∈ prices) :
    s.before (r.price p).ticks (r.price q).ticks ↔ s.before p.ticks q.ticks := by
  cases s with
  | buy => exact h.ticks_lt_iff hq hp
  | sell => exact h.ticks_lt_iff hp hq

/-- A new id belongs to the order it was given to. -/
theorem orderId_eq_iff (hL : Known ids prices L) {id : OrderId} (hid : id ∈ ids) :
    ∀ o ∈ L, (r.order o).orderId = r.orderId id ↔ o.orderId = id :=
  fun o ho => h.injOn.eq_iff (hL o ho).1 hid

/-! ### The rules on relabelled orders -/

/-- An order is found under its new id. -/
theorem quantityOf_live (hL : Known ids prices L) {id : OrderId} (hid : id ∈ ids) :
    quantityOf (r.live L) (r.orderId id) = quantityOf L id := by
  rw [quantityOf, live, findKey_rename (h.orderId_eq_iff hL hid), quantityOf, Option.map_map]
  rfl

/-- An edit of the relabelled list. -/
theorem live_run (edit : Edit) (hL : Known ids prices L) {id : OrderId} (hid : id ∈ ids) :
    r.live (edit.run id L) = (r.edit edit).run (r.orderId id) (r.live L) := by
  cases edit with
  | keep => rfl
  | push side price timestamp quantity => exact List.map_append ..
  | erase => exact (eraseKey_rename (h.orderId_eq_iff hL hid)).symm
  | resize quantity =>
      exact (updateKey_rename (f := LiveOrder.withQuantity quantity) (h.orderId_eq_iff hL hid)
        fun _ => rfl).symm

end Faithful

/-- The rules only compare the id. -/
theorem ruling_event (event : MarketEvent) (resting : Option Quantity) :
    ruling (r.event event) resting =
      ((ruling event resting).1, r.edit (ruling event resting).2) := by
  by_cases hadd : event.type = .add
  · simp only [ruling, hadd, Relabelling.event]
    by_cases hq : event.quantity.units = 0
    · simp only [hq, if_true, Relabelling.edit]
    · cases resting <;> simp only [hq, if_false, Relabelling.edit]
  · -- the other rulings read no name, and append nothing
    have hsame : ruling (r.event event) resting = ruling event resting := by
      obtain ⟨type, timestamp, orderId, side, price, quantity⟩ := event
      cases type with
      | add => exact absurd rfl hadd
      | cancel => rfl
      | modify => rfl
      | execute => rfl
    rw [hsame]
    refine Prod.ext rfl ?_
    cases hedit : (ruling event resting).2 with
    | push side price timestamp quantity => exact absurd (push_of_ruling hedit).1 hadd
    | keep => rfl
    | erase => rfl
    | resize quantity => rfl

/-- Orders of the feed are known: an edit brings no name into the list but those of an add. -/
theorem known_apply (hL : Known ids prices L) {event : MarketEvent} (hid : event.orderId ∈ ids)
    (hprice : event.type = .add → event.price ∈ prices) :
    Known ids prices (Reference.apply L event).2 := by
  intro o ho
  rw [Reference.apply_eq] at ho
  cases hedit : (ruling event (quantityOf L event.orderId)).2 with
  | keep =>
      rw [hedit] at ho
      exact hL o ho
  | push side price timestamp quantity =>
      obtain ⟨hadd, -, rfl, -⟩ := push_of_ruling hedit
      rw [hedit] at ho
      rcases List.mem_append.mp ho with hmem | hmem
      · exact hL o hmem
      · rw [List.mem_singleton.mp hmem]
        exact ⟨hid, hprice hadd⟩
  | erase =>
      rw [hedit] at ho
      exact hL o (mem_eraseKey.mp ho).1
  | resize quantity =>
      rw [hedit] at ho
      rcases mem_updateKey.mp ho with ⟨hmem, -⟩ | ⟨a, hmem, -, rfl⟩
      · exact hL o hmem
      · exact hL a hmem

/-- A bounded list knows no more names. -/
theorem known_boundedApply {capacity : ℕ} (hL : Known ids prices L) {event : MarketEvent}
    (hid : event.orderId ∈ ids) (hprice : event.type = .add → event.price ∈ prices) :
    Known ids prices (Reference.boundedApply capacity L event).2 := by
  rw [Reference.boundedApply]
  split_ifs
  · exact hL
  · exact known_apply hL hid hprice

namespace Faithful

variable (h : r.Faithful ids prices)
include h

/-- **The rules on a relabelled event.** -/
theorem apply_event (hL : Known ids prices L) {event : MarketEvent}
    (hid : event.orderId ∈ ids) :
    Reference.apply (r.live L) (r.event event) =
      ((Reference.apply L event).1, r.live (Reference.apply L event).2) := by
  have hname : (r.event event).orderId = r.orderId event.orderId := rfl
  rw [Reference.apply_eq, Reference.apply_eq, hname, h.quantityOf_live hL hid, ruling_event,
    h.live_run _ hL hid]

/-- A relabelled event on the relabelled bounded list. -/
theorem boundedApply_event (capacity : ℕ) (hL : Known ids prices L) {event : MarketEvent}
    (hid : event.orderId ∈ ids) :
    Reference.boundedApply capacity (r.live L) (r.event event) =
      ((Reference.boundedApply capacity L event).1,
        r.live (Reference.boundedApply capacity L event).2) := by
  have hmem : (r.event event).orderId ∈ (r.live L).map LiveOrder.orderId ↔
      event.orderId ∈ L.map LiveOrder.orderId := by
    rw [live, List.map_map, List.mem_map, List.mem_map]
    exact exists_congr fun o => and_congr_right fun ho => h.orderId_eq_iff hL hid o ho
  have hlacks : Reference.LacksRoom capacity (r.live L) (r.event event).toOp ↔
      Reference.LacksRoom capacity L event.toOp := by
    rw [lacksRoom_toOp, lacksRoom_toOp, hmem, live, List.length_map]
    rfl
  simp only [Reference.boundedApply, hlacks]
  split_ifs
  · rfl
  · exact h.apply_event hL hid

/-! ### What a relabelled live list shows -/

/-- The level at the new price. -/
theorem ordersAt_live (hL : Known ids prices L) (s : Side) {p : Price} (hp : p ∈ prices) :
    ordersAt (r.live L) s (r.price p) = r.live (ordersAt L s p) := by
  rw [ordersAt, live, List.filter_map, live, ordersAt]
  congr 1
  refine List.filter_congr fun o ho => ?_
  simp [LiveOrder.restsAt, order, h.price_eq_iff (hL o ho).2 hp]

/-- The relabelled levels show the relabelled live list. -/
theorem showsSide {s : Side} {levels : List PriceLevelSnapshot} (hL : Known ids prices L)
    (hshows : ShowsSide L s levels) : ShowsSide (r.live L) s (levels.map r.level) := by
  have hprice : ∀ l ∈ levels, l.price ∈ prices := by
    intro l hl
    obtain ⟨o, ho, -, hop⟩ := (hshows.prices l.price).mp (List.mem_map_of_mem hl)
    exact hop ▸ (hL o ho).2
  refine ⟨?_, fun p' => ?_, fun l' hl' => ?_, fun l' hl' => ?_⟩
  · refine List.pairwise_map.mpr (hshows.sorted.imp_of_mem ?_)
    intro a b ha hb hab
    exact (h.before_iff s (hprice a ha) (hprice b hb)).mpr hab
  · rw [List.map_map, List.mem_map]
    constructor
    · rintro ⟨l, hl, rfl⟩
      obtain ⟨o, ho, hside, hop⟩ := (hshows.prices l.price).mp (List.mem_map_of_mem hl)
      exact ⟨r.order o, List.mem_map_of_mem ho, hside, congrArg r.price hop⟩
    · rintro ⟨o', ho', hside, rfl⟩
      obtain ⟨o, ho, rfl⟩ := List.mem_map.mp ho'
      obtain ⟨l, hl, hlp⟩ := List.mem_map.mp ((hshows.prices o.price).mpr ⟨o, ho, hside, rfl⟩)
      exact ⟨l, hl, congrArg r.price hlp⟩
  · obtain ⟨l, hl, rfl⟩ := List.mem_map.mp hl'
    change l.orders.map r.view = (ordersAt (r.live L) s (r.price l.price)).map LiveOrder.view
    rw [h.ordersAt_live hL s (hprice l hl), hshows.orders l hl, live, List.map_map, List.map_map]
    rfl
  · obtain ⟨l, hl, rfl⟩ := List.mem_map.mp hl'
    change l.quantity = totalQuantity (ordersAt (r.live L) s (r.price l.price))
    rw [h.ordersAt_live hL s (hprice l hl), hshows.quantity l hl, live, totalQuantity,
      totalQuantity, totalUnits, totalUnits, List.map_map]
    rfl

/-- The books of both feeds are crossed alike. -/
theorem uncrossed_iff {S : BookSnapshot} (hprices : ∀ s, ∀ l ∈ S.side s, l.price ∈ prices) :
    (r.top S.top).Uncrossed ↔ S.top.Uncrossed := by
  have hbids : ∀ l ∈ S.bids, l.price ∈ prices := hprices .buy
  have hasks : ∀ l ∈ S.asks, l.price ∈ prices := hprices .sell
  simp only [TopOfBook.Uncrossed, Relabelling.top, BookSnapshot.top]
  cases hb : S.bids with
  | nil => simp
  | cons bid bids =>
      cases ha : S.asks with
      | nil => simp
      | cons ask asks =>
          have hbid : bid.price ∈ prices := hbids bid (hb ▸ List.mem_cons_self)
          have hask : ask.price ∈ prices := hasks ask (ha ▸ List.mem_cons_self)
          have hle : (r.price bid.price).ticks ≤ (r.price ask.price).ticks ↔
              bid.price.ticks ≤ ask.price.ticks := by
            rw [← Int64.not_lt, ← Int64.not_lt, h.ticks_lt_iff hask hbid]
          simp [PriceLevelSnapshot.toView, levelView, hle]

end Faithful

/-- A side of the relabelled snapshot. -/
theorem snapshot_side (r : Relabelling) (S : BookSnapshot) (s : Side) :
    (r.snapshot S).side s = (S.side s).map r.level := by
  cases s <;> rfl

/-- The view of a relabelled level. -/
theorem toView_level (r : Relabelling) (l : PriceLevelSnapshot) :
    (r.level l).toView = r.levelView l.toView := by
  rw [PriceLevelSnapshot.toView, level, List.length_map]
  rfl

/-- The top of the relabelled snapshot. -/
theorem top_snapshot (r : Relabelling) (S : BookSnapshot) : (r.snapshot S).top = r.top S.top := by
  simp only [BookSnapshot.top, snapshot, Relabelling.top, List.head?_map, Option.map_map,
    Function.comp_def, toView_level]

/-- The depth of the relabelled snapshot. -/
theorem depth_snapshot (r : Relabelling) (S : BookSnapshot) (n : ℕ) :
    (r.snapshot S).depth n = r.depth (S.depth n) := by
  simp only [BookSnapshot.depth, snapshot, Relabelling.depth, ← List.map_take, List.map_map,
    Function.comp_def, toView_level]

/-- The views of a listing of the relabelled orders. -/
theorem Faithful.views (h : r.Faithful ids prices) {S S' : BookSnapshot}
    (hL : Known ids prices L) (hS : ∀ s, ShowsSide L s (S.side s))
    (hS' : ∀ s, ShowsSide (r.live L) s (S'.side s)) :
    S' = r.snapshot S ∧ (∀ n, S'.depth n = r.depth (S.depth n)) ∧ S'.top = r.top S.top ∧
      (S'.top.Uncrossed ↔ S.top.Uncrossed) := by
  obtain rfl : S' = r.snapshot S := by
    refine BookSnapshot.ext_side fun s => ?_
    rw [snapshot_side]
    exact (hS' s).unique (h.showsSide hL (hS s))
  refine ⟨rfl, r.depth_snapshot S, r.top_snapshot S, ?_⟩
  rw [r.top_snapshot]
  refine h.uncrossed_iff fun s l hl => ?_
  obtain ⟨o, ho, -, hop⟩ := ((hS s).prices l.price).mp (List.mem_map_of_mem hl)
  exact hop ▸ (hL o ho).2

/-! ### Relabelled runs -/

/-- The ids that a feed names. -/
def namedIds (events : List MarketEvent) : Set OrderId :=
  {id | ∃ event ∈ events, event.orderId = id}

/-- The prices at which a feed adds orders. -/
def addedPrices (events : List MarketEvent) : Set Price :=
  {p | ∃ event ∈ events, event.type = .add ∧ event.price = p}

/-- Different ids in a feed, as a test on its events. -/
theorem injOn_of_events {f : OrderId → OrderId} {events : List MarketEvent}
    (h : ∀ a ∈ events, ∀ b ∈ events, f a.orderId = f b.orderId → a.orderId = b.orderId) :
    Set.InjOn f (namedIds events) := by
  rintro _ ⟨a, ha, rfl⟩ _ ⟨b, hb, rfl⟩ heq
  exact h a ha b hb heq

/-- Faithfulness, event by event. -/
theorem faithful_of_events {r : Relabelling} {events : List MarketEvent}
    (hids : ∀ a ∈ events, ∀ b ∈ events,
      r.orderId a.orderId = r.orderId b.orderId → a.orderId = b.orderId)
    (hprices : ∀ a ∈ events, ∀ b ∈ events, a.type = .add → b.type = .add →
      a.price.ticks < b.price.ticks → (r.price a.price).ticks < (r.price b.price).ticks) :
    r.Faithful (namedIds events) (addedPrices events) where
  injOn := injOn_of_events hids
  mono := by
    rintro _ ⟨a, ha, hadd, rfl⟩ _ ⟨b, hb, hadd', rfl⟩ hlt
    exact hprices a ha b hb hadd hadd' hlt

section Run

variable {β : Type} {apply : β → MarketEvent → BookResult × β} {R : β → RestingOrders → Prop}
  {rules : List LiveOrder → MarketEvent → BookResult × List LiveOrder}

/-- The second book holds the relabelled orders of the first. -/
def Renamed (r : Relabelling) (R : β → RestingOrders → Prop) (ids : Set OrderId)
    (prices : Set Price) (b b' : β) : Prop :=
  ∃ A A', R b A ∧ R b' A' ∧ A'.live = r.live A.live ∧ Known ids prices A.live

variable (hrefines : ∀ b A event, R b A → StepRefines R (apply b event) (rules A.live event))
include hrefines

/-- One event, in a book that refines rules which commute with the new names. -/
theorem Renamed.step {event : MarketEvent}
    (hevent : ∀ L, Known ids prices L →
      rules (r.live L) (r.event event) = ((rules L event).1, r.live (rules L event).2))
    (hknown : ∀ L, Known ids prices L → Known ids prices (rules L event).2) {b b' : β}
    (h : r.Renamed R ids prices b b') :
    (apply b event).1 = (apply b' (r.event event)).1 ∧
      r.Renamed R ids prices (apply b event).2 (apply b' (r.event event)).2 := by
  obtain ⟨A, A', hA, hA', hlive, hL⟩ := h
  obtain ⟨hres, B, hB, hBlive⟩ := hrefines b A event hA
  obtain ⟨hres', B', hB', hBlive'⟩ := hrefines b' A' (r.event event) hA'
  rw [hlive, hevent A.live hL] at hres' hBlive'
  refine ⟨hres.trans hres'.symm, B, B', hB, hB', ?_, ?_⟩
  · rw [hBlive', hBlive]
  · rw [hBlive]
    exact hknown A.live hL

/-- Such a book relabels its runs. -/
theorem renamed_run {events : List MarketEvent}
    (hevent : ∀ L, Known ids prices L → ∀ event ∈ events,
      rules (r.live L) (r.event event) = ((rules L event).1, r.live (rules L event).2))
    (hknown : ∀ L, Known ids prices L → ∀ event ∈ events, Known ids prices (rules L event).2)
    {start : β} (hstart : R start .empty) :
    outputs apply start (events.map r.event) = outputs apply start events ∧
      r.Renamed R ids prices (finalState apply start events)
        (finalState apply start (events.map r.event)) := by
  obtain ⟨houts, hfinal⟩ := run_map apply r.event start events
  rw [← houts, ← hfinal]
  have hinit : r.Renamed R ids prices start start :=
    ⟨.empty, .empty, hstart, hstart, rfl, fun o ho => absurd ho List.not_mem_nil⟩
  have hstep : ∀ b b', ∀ event ∈ events, r.Renamed R ids prices b b' →
      (apply b event).1 = (apply b' (r.event event)).1 ∧
        r.Renamed R ids prices (apply b event).2 (apply b' (r.event event)).2 :=
    fun b b' event hmem hb => hb.step hrefines (fun L hL => hevent L hL event hmem)
      fun L hL => hknown L hL event hmem
  obtain ⟨hout, hend⟩ := simulation_of_mem hstep hinit
  exact ⟨hout.symm, hend⟩

end Run

end Relabelling

open Relabelling

/-- **Names, prices and times are only compared.** Give the orders of a feed other ids, different
ones to different orders, its adds other prices in the same order, and its timestamps other ones,
the same wherever they were the same. In the linked-list book and in a pool of any capacity, every
event gets the same result, and the final snapshot, depth and top of book are those of the
original run under the new names; the invariant check gives the same answer. -/
theorem relabelled_runs (r : Relabelling) (events : List MarketEvent)
    (h : r.Faithful (namedIds events) (addedPrices events)) :
    let renamed := events.map r.event
    (let b := finalState LimitOrderBook.apply .empty events
      let b' := finalState LimitOrderBook.apply .empty renamed
      outputs LimitOrderBook.apply .empty renamed = outputs LimitOrderBook.apply .empty events ∧
        b'.snapshot = r.snapshot b.snapshot ∧ (∀ n, b'.depth n = r.depth (b.depth n)) ∧
        b'.topOfBook = r.top b.topOfBook ∧
        ∀ options, b'.validateInvariants options = b.validateInvariants options) ∧
      ∀ N : UInt64,
        let p := finalState PooledLimitOrderBook.apply (.new N) events
        let p' := finalState PooledLimitOrderBook.apply (.new N) renamed
        outputs PooledLimitOrderBook.apply (.new N) renamed =
            outputs PooledLimitOrderBook.apply (.new N) events ∧
          (∃ S, p.snapshot = some S ∧ p'.snapshot = some (r.snapshot S)) ∧
          (∀ n, p'.depth n = r.depth (p.depth n)) ∧ p'.topOfBook = r.top p.topOfBook ∧
          ∀ options, p'.validateInvariants options = p.validateInvariants options := by
  have hids : ∀ event ∈ events, event.orderId ∈ namedIds events :=
    fun event hmem => ⟨event, hmem, rfl⟩
  have hprices : ∀ event ∈ events, event.type = .add → event.price ∈ addedPrices events :=
    fun event hmem hadd => ⟨event, hmem, hadd, rfl⟩
  dsimp only
  refine ⟨?_, fun N => ?_⟩
  · obtain ⟨hout, A, A', hA, hA', hlive, hL⟩ := renamed_run
      (fun b A event hb => LimitOrderBook.apply_refines hb event)
      (fun L hL event hmem => h.apply_event hL (hids event hmem))
      (fun L hL event hmem => known_apply hL (hids event hmem) (hprices event hmem))
      LimitOrderBook.represents_empty
    have hshows' := hA'.showsSide
    rw [hlive] at hshows'
    obtain ⟨hsnap, hdepth, htop, hcrossed⟩ := h.views hL hA.showsSide hshows'
    refine ⟨hout, hsnap, fun n => ?_, ?_, fun options => ?_⟩
    · rw [LimitOrderBook.depth_eq, LimitOrderBook.depth_eq, hdepth]
    · rw [LimitOrderBook.topOfBook_eq, LimitOrderBook.topOfBook_eq, htop]
    · rw [Bool.eq_iff_iff, hA.validateInvariants_iff, hA'.validateInvariants_iff,
        LimitOrderBook.topOfBook_eq, LimitOrderBook.topOfBook_eq, hcrossed]
  · obtain ⟨hout, A, A', hA, hA', hlive, hL⟩ := renamed_run
      (fun b A event hb => PooledLimitOrderBook.apply_refines hb event)
      (fun L hL event hmem => h.boundedApply_event N.toNat hL (hids event hmem))
      (fun L hL event hmem => known_boundedApply hL (hids event hmem) (hprices event hmem))
      ⟨PooledLimitOrderBook.represents_new N, PooledLimitOrderBook.capacity_new N⟩
    obtain ⟨S, hS, hshows, htop, hdepth⟩ := hA.1.snapshot
    obtain ⟨S', hS', hshows', htop', hdepth'⟩ := hA'.1.snapshot
    rw [hlive] at hshows'
    obtain ⟨rfl, hdepths, htops, hcrossed⟩ := h.views hL hshows hshows'
    refine ⟨hout, ⟨S, hS, hS'⟩, fun n => ?_, ?_, fun options => ?_⟩
    · rw [hdepth, hdepth', hdepths]
    · rw [htop, htop', htops]
    · rw [Bool.eq_iff_iff, hA.1.validateInvariants_iff, hA'.1.validateInvariants_iff, htop, htop',
        hcrossed]

/-- Two bids, priced in cents and then in mills, with the ids exchanged. -/
theorem relabelled_runs_mills :
    let r : Relabelling := {
      orderId := fun id => ⟨3 - id.value⟩
      price := fun p => ⟨10 * p.ticks⟩
      timestamp := fun _ => ⟨0⟩ }
    let events : List MarketEvent :=
      [{ orderId := ⟨1⟩, price := ⟨100⟩, quantity := ⟨5⟩, timestamp := ⟨7⟩ },
        { orderId := ⟨2⟩, price := ⟨101⟩, quantity := ⟨6⟩, timestamp := ⟨9⟩ }]
    (finalState LimitOrderBook.apply .empty (events.map r.event)).topOfBook =
        r.top (finalState LimitOrderBook.apply .empty events).topOfBook ∧
      (finalState LimitOrderBook.apply .empty (events.map r.event)).topOfBook =
        ⟨some ⟨⟨1010⟩, ⟨6⟩, 1⟩, none⟩ := by
  dsimp only
  refine ⟨?_, by decide +kernel⟩
  exact (relabelled_runs _ _ (faithful_of_events (by decide) (by decide))).1.2.2.2.1

end Datagine
