import Datagine.PooledRuns
import Datagine.Rulings

/-!
# Buy and Sell Mirror Each Other

Both books handle bids and asks in separate code over maps with opposite comparators. The
mirror image of an event swaps the sides and negates the price. Except for the one price whose
negation overflows, mirroring turns the order of one side into that of the other
(`Side.before_neg`), so that a mirrored run is the mirror image of the run.

## Main results

* `mirrored_runs`: for both books, the mirrored sequence gets the same results and ends in a
  book whose views are the mirrored views.
-/

namespace Datagine

open KeyedList Mealy

/-! ### Mirror images -/

/-- The other side. -/
def Side.opposite : Side → Side
  | .buy => .sell
  | .sell => .buy

/-- The negated price; `-INT64_MIN` wraps around to itself. -/
def Price.neg (p : Price) : Price := ⟨-p.ticks⟩

/-- An event on the other side, at the negated price. -/
def MarketEvent.mirror (event : MarketEvent) : MarketEvent :=
  { event with side := event.side.opposite, price := event.price.neg }

/-- A live order on the other side, at the negated price. -/
def LiveOrder.mirror (o : LiveOrder) : LiveOrder :=
  { o with side := o.side.opposite, price := o.price.neg }

/-- A level view at the negated price. -/
def PriceLevelView.mirror (l : PriceLevelView) : PriceLevelView := { l with price := l.price.neg }

/-- A level of a snapshot at the negated price, with the same orders. -/
def PriceLevelSnapshot.mirror (l : PriceLevelSnapshot) : PriceLevelSnapshot :=
  { l with price := l.price.neg }

/-- The bids and the asks exchanged, at negated prices. -/
def BookSnapshot.mirror (S : BookSnapshot) : BookSnapshot :=
  ⟨S.asks.map PriceLevelSnapshot.mirror, S.bids.map PriceLevelSnapshot.mirror⟩

/-- A depth view with its sides exchanged. -/
def BookDepth.mirror (d : BookDepth) : BookDepth :=
  ⟨d.asks.map PriceLevelView.mirror, d.bids.map PriceLevelView.mirror⟩

/-- A top of book with its sides exchanged. -/
def TopOfBook.mirror (top : TopOfBook) : TopOfBook :=
  ⟨top.ask.map PriceLevelView.mirror, top.bid.map PriceLevelView.mirror⟩

/-- The negation of the price does not overflow. -/
def Price.Negatable (p : Price) : Prop := p.ticks ≠ Int64.minValue

/-- The opposite of the opposite side. -/
@[simp] theorem Side.opposite_opposite (s : Side) : s.opposite.opposite = s := by
  cases s <;> rfl

/-- Negating a price twice. -/
@[simp] theorem Price.neg_neg (p : Price) : p.neg.neg = p := by
  simp [Price.neg]

/-- Opposite sides are equal when the sides are. -/
theorem Side.opposite_inj {s s' : Side} : s.opposite = s'.opposite ↔ s = s' := by
  cases s <;> cases s' <;> decide

/-- Negated prices are equal when the prices are. -/
theorem Price.neg_inj {p p' : Price} : p.neg = p'.neg ↔ p = p' := by
  cases p
  cases p'
  simp [Price.neg]

/-- Negation is exact but for the smallest number. -/
theorem toInt_neg {a : Int64} (ha : a ≠ Int64.minValue) : (-a).toInt = -a.toInt := by
  have hne : a.toInt ≠ -2 ^ 63 := fun h => ha (Int64.toInt_inj.mp h)
  have hle := a.le_toInt
  have hlt := a.toInt_lt
  rw [Int64.toInt_neg]
  exact Int.bmod_eq_of_le (by omega) (by omega)

/-- **Negation turns the order of one side into that of the other.** -/
theorem Side.before_neg (s : Side) {a b : Int64} (ha : a ≠ Int64.minValue)
    (hb : b ≠ Int64.minValue) : s.opposite.before (-a) (-b) ↔ s.before a b := by
  cases s with
  | buy =>
      change -a < -b ↔ b < a
      rw [Int64.lt_iff_toInt_lt, Int64.lt_iff_toInt_lt, toInt_neg ha, toInt_neg hb]
      omega
  | sell =>
      change -b < -a ↔ a < b
      rw [Int64.lt_iff_toInt_lt, Int64.lt_iff_toInt_lt, toInt_neg ha, toInt_neg hb]
      omega

/-! ### The rules on the mirror image -/

/-- The mirror image of a live list. -/
def mirrorLive (L : List LiveOrder) : List LiveOrder := L.map LiveOrder.mirror

/-- The mirror image of an edit. -/
def Edit.mirror : Edit → Edit
  | push side price timestamp quantity => push side.opposite price.neg timestamp quantity
  | edit => edit

/-- The rules treat both sides alike. -/
theorem ruling_mirror (event : MarketEvent) (resting : Option Quantity) :
    ruling event.mirror resting =
      ((ruling event resting).1, (ruling event resting).2.mirror) := by
  obtain ⟨type, timestamp, orderId, side, price, quantity⟩ := event
  by_cases htype : type = .add
  · subst htype
    simp only [ruling, MarketEvent.mirror]
    by_cases hq : quantity.units = 0
    · simp only [hq, if_true, Edit.mirror]
    · cases resting <;> simp only [hq, if_false, Edit.mirror]
  · -- the other rulings read neither side nor price, and append nothing
    have hsame : ruling (MarketEvent.mirror ⟨type, timestamp, orderId, side, price, quantity⟩)
        resting = ruling ⟨type, timestamp, orderId, side, price, quantity⟩ resting := by
      cases type with
      | add => exact absurd rfl htype
      | cancel => rfl
      | modify => rfl
      | execute => rfl
    rw [hsame]
    refine Prod.ext rfl ?_
    cases hedit : (ruling ⟨type, timestamp, orderId, side, price, quantity⟩ resting).2 with
    | push side' price' timestamp' quantity' => exact absurd (push_of_ruling hedit).1 htype
    | keep => rfl
    | erase => rfl
    | resize quantity' => rfl

/-- Mirrored orders keep their quantities. -/
theorem quantityOf_mirrorLive (L : List LiveOrder) (id : OrderId) :
    quantityOf (mirrorLive L) id = quantityOf L id := by
  rw [quantityOf, mirrorLive, findKey_map (g := LiveOrder.mirror) fun _ => rfl, quantityOf,
    Option.map_map]
  rfl

/-- An edit of the mirrored list. -/
theorem mirrorLive_run (edit : Edit) (id : OrderId) (L : List LiveOrder) :
    mirrorLive (edit.run id L) = edit.mirror.run id (mirrorLive L) := by
  cases edit with
  | keep => rfl
  | push side price timestamp quantity => exact List.map_append ..
  | erase => exact map_eraseKey fun _ => rfl
  | resize quantity => exact map_updateKey (fun _ => rfl) fun _ => rfl

/-- A mirrored event on the mirrored list. -/
theorem Reference.apply_mirror (L : List LiveOrder) (event : MarketEvent) :
    Reference.apply (mirrorLive L) event.mirror =
      ((Reference.apply L event).1, mirrorLive (Reference.apply L event).2) := by
  have hid : event.mirror.orderId = event.orderId := rfl
  rw [Reference.apply_eq, Reference.apply_eq, hid, quantityOf_mirrorLive, ruling_mirror,
    mirrorLive_run]

/-- A mirrored event on the mirrored bounded list. -/
theorem Reference.boundedApply_mirror (capacity : ℕ) (L : List LiveOrder) (event : MarketEvent) :
    Reference.boundedApply capacity (mirrorLive L) event.mirror =
      ((Reference.boundedApply capacity L event).1,
        mirrorLive (Reference.boundedApply capacity L event).2) := by
  have hids : (mirrorLive L).map LiveOrder.orderId = L.map LiveOrder.orderId := by
    rw [mirrorLive, List.map_map]
    rfl
  have hlacks : Reference.LacksRoom capacity (mirrorLive L) event.mirror.toOp ↔
      Reference.LacksRoom capacity L event.toOp := by
    rw [lacksRoom_toOp, lacksRoom_toOp, hids, mirrorLive, List.length_map]
    rfl
  simp only [Reference.boundedApply, hlacks]
  split_ifs
  · rfl
  · exact Reference.apply_mirror L event

/-! ### What a mirrored live list shows -/

/-- The level on the other side, at the negated price. -/
theorem ordersAt_mirrorLive (L : List LiveOrder) (s : Side) (p : Price) :
    ordersAt (mirrorLive L) s.opposite p.neg = mirrorLive (ordersAt L s p) := by
  rw [ordersAt, mirrorLive, List.filter_map, mirrorLive, ordersAt]
  congr 1
  refine List.filter_congr fun o _ => ?_
  simp [LiveOrder.restsAt, LiveOrder.mirror, Side.opposite_inj, Price.neg_inj]

/-- The listed prices are those of orders. -/
theorem ShowsSide.negatable {L : List LiveOrder} {s : Side} {levels : List PriceLevelSnapshot}
    (h : ShowsSide L s levels) (hneg : ∀ o ∈ L, o.price.Negatable) :
    ∀ l ∈ levels, l.price.Negatable := by
  intro l hl
  obtain ⟨o, ho, -, hop⟩ := (h.prices l.price).mp (List.mem_map_of_mem hl)
  exact hop ▸ hneg o ho

/-- The mirrored levels show the mirrored live list. -/
theorem ShowsSide.mirror {L : List LiveOrder} {s : Side} {levels : List PriceLevelSnapshot}
    (h : ShowsSide L s levels) (hneg : ∀ o ∈ L, o.price.Negatable) :
    ShowsSide (mirrorLive L) s.opposite (levels.map PriceLevelSnapshot.mirror) := by
  have hprice := h.negatable hneg
  refine ⟨?_, fun p => ?_, fun l' hl' => ?_, fun l' hl' => ?_⟩
  · refine List.pairwise_map.mpr (h.sorted.imp_of_mem ?_)
    intro a b ha hb hab
    exact (s.before_neg (hprice a ha) (hprice b hb)).mpr hab
  · have hp := ordersAt_mirrorLive L s p.neg
    rw [Price.neg_neg] at hp
    rw [← ordersAt_ne_nil_iff, hp, mirrorLive, ne_eq, List.map_eq_nil_iff, ← ne_eq,
      ordersAt_ne_nil_iff, ← h.prices, List.map_map, List.mem_map, List.mem_map]
    constructor
    · rintro ⟨l, hl, rfl⟩
      exact ⟨l, hl, (Price.neg_neg _).symm⟩
    · rintro ⟨l, hl, hlp⟩
      exact ⟨l, hl, by rw [Function.comp_apply, PriceLevelSnapshot.mirror, hlp, Price.neg_neg]⟩
  · obtain ⟨l, hl, rfl⟩ := List.mem_map.mp hl'
    change l.orders = (ordersAt (mirrorLive L) s.opposite l.price.neg).map LiveOrder.view
    rw [ordersAt_mirrorLive, h.orders l hl, mirrorLive, List.map_map]
    rfl
  · obtain ⟨l, hl, rfl⟩ := List.mem_map.mp hl'
    change l.quantity = totalQuantity (ordersAt (mirrorLive L) s.opposite l.price.neg)
    rw [ordersAt_mirrorLive, h.quantity l hl, mirrorLive, totalQuantity, totalQuantity,
      totalUnits, totalUnits, List.map_map]
    rfl

namespace BookSnapshot

variable {S : BookSnapshot}

/-- A side of the mirrored snapshot. -/
theorem mirror_side (S : BookSnapshot) (s : Side) :
    S.mirror.side s = (S.side s.opposite).map PriceLevelSnapshot.mirror := by
  cases s <;> rfl

/-- The top of the mirrored snapshot. -/
theorem top_mirror (S : BookSnapshot) : S.mirror.top = S.top.mirror := by
  simp only [top, mirror, TopOfBook.mirror, List.head?_map, Option.map_map]
  rfl

/-- The depth of the mirrored snapshot. -/
theorem depth_mirror (S : BookSnapshot) (n : ℕ) : S.mirror.depth n = (S.depth n).mirror := by
  simp only [depth, mirror, BookDepth.mirror, ← List.map_take, List.map_map]
  rfl

/-- Crossed books are mirrored to crossed books. -/
theorem uncrossed_mirror (hneg : ∀ s, ∀ l ∈ S.side s, l.price.Negatable) :
    S.top.mirror.Uncrossed ↔ S.top.Uncrossed := by
  have hbids : ∀ l ∈ S.bids, l.price.Negatable := hneg .buy
  have hasks : ∀ l ∈ S.asks, l.price.Negatable := hneg .sell
  simp only [TopOfBook.Uncrossed, TopOfBook.mirror, top]
  cases hb : S.bids with
  | nil => simp
  | cons bid bids =>
      cases ha : S.asks with
      | nil => simp
      | cons ask asks =>
          have hbid : bid.price.Negatable := hbids bid (by rw [hb]; exact List.mem_cons_self)
          have hask : ask.price.Negatable := hasks ask (by rw [ha]; exact List.mem_cons_self)
          have hle : -ask.price.ticks ≤ -bid.price.ticks ↔ bid.price.ticks ≤ ask.price.ticks := by
            rw [Int64.le_iff_toInt_le, Int64.le_iff_toInt_le, toInt_neg hbid, toInt_neg hask]
            omega
          simp [PriceLevelSnapshot.toView, PriceLevelView.mirror, Price.neg, hle]

end BookSnapshot

/-! ### Mirrored runs -/

section

variable {β : Type} {apply : β → MarketEvent → BookResult × β} {R : β → RestingOrders → Prop}
  {rules : List LiveOrder → MarketEvent → BookResult × List LiveOrder}

/-- The two books hold mirrored live lists. -/
def Mirrored (R : β → RestingOrders → Prop) (b b' : β) : Prop :=
  ∃ A A', R b A ∧ R b' A' ∧ A'.live = mirrorLive A.live ∧ ∀ o ∈ A.live, o.price.Negatable

/-- An edit brings no price into the list but that of an add. -/
theorem negatable_apply {L : List LiveOrder} (hL : ∀ o ∈ L, o.price.Negatable)
    {event : MarketEvent} (hevent : event.price.Negatable) :
    ∀ o ∈ (Reference.apply L event).2, o.price.Negatable := by
  intro o ho
  rw [Reference.apply_eq] at ho
  cases hedit : (ruling event (quantityOf L event.orderId)).2 with
  | keep =>
      rw [hedit] at ho
      exact hL o ho
  | push side price timestamp quantity =>
      obtain ⟨-, -, rfl, -⟩ := push_of_ruling hedit
      rw [hedit] at ho
      rcases List.mem_append.mp ho with hmem | hmem
      · exact hL o hmem
      · rw [List.mem_singleton.mp hmem]
        exact hevent
  | erase =>
      rw [hedit] at ho
      exact hL o (mem_eraseKey.mp ho).1
  | resize quantity =>
      rw [hedit] at ho
      rcases mem_updateKey.mp ho with ⟨hmem, -⟩ | ⟨a, hmem, -, rfl⟩
      · exact hL o hmem
      · exact hL a hmem

/-- No order at the smallest price comes in. -/
theorem negatable_boundedApply {capacity : ℕ} {L : List LiveOrder}
    (hL : ∀ o ∈ L, o.price.Negatable) {event : MarketEvent} (hevent : event.price.Negatable) :
    ∀ o ∈ (Reference.boundedApply capacity L event).2, o.price.Negatable := by
  rw [Reference.boundedApply]
  split_ifs
  · exact hL
  · exact negatable_apply hL hevent

/-- A book that refines rules which commute with mirroring mirrors its runs. -/
theorem mirrored_run (hrefines : ∀ b A event, R b A → StepRefines R (apply b event)
      (rules A.live event))
    (hmirror : ∀ L event, rules (mirrorLive L) event.mirror =
      ((rules L event).1, mirrorLive (rules L event).2))
    (hneg : ∀ L event, (∀ o ∈ L, o.price.Negatable) → event.price.Negatable →
      ∀ o ∈ (rules L event).2, o.price.Negatable)
    {start : β} (hstart : R start .empty) {events : List MarketEvent}
    (hevents : ∀ event ∈ events, event.price.Negatable) :
    outputs apply start (events.map MarketEvent.mirror) = outputs apply start events ∧
      Mirrored R (finalState apply start events)
        (finalState apply start (events.map MarketEvent.mirror)) := by
  obtain ⟨houts, hfinal⟩ := run_map apply MarketEvent.mirror start events
  rw [← houts, ← hfinal]
  have hstep : ∀ b b', ∀ event ∈ events, Mirrored R b b' →
      (apply b event).1 = (apply b' event.mirror).1 ∧
        Mirrored R (apply b event).2 (apply b' event.mirror).2 := by
    rintro b b' event hmem ⟨A, A', hA, hA', hlive, hprices⟩
    obtain ⟨hres, B, hB, hBlive⟩ := hrefines b A event hA
    obtain ⟨hres', B', hB', hBlive'⟩ := hrefines b' A' event.mirror hA'
    rw [hlive, hmirror] at hres' hBlive'
    refine ⟨hres.trans hres'.symm, B, B', hB, hB', ?_, ?_⟩
    · rw [hBlive', hBlive]
    · rw [hBlive]
      exact hneg A.live event hprices (hevents event hmem)
  have hinit : Mirrored R start start :=
    ⟨.empty, .empty, hstart, hstart, rfl, fun o ho => absurd ho List.not_mem_nil⟩
  obtain ⟨hout, hend⟩ := simulation_of_mem hstep hinit
  exact ⟨hout.symm, hend⟩

/-- Listings of mirrored live lists are mirror images. -/
theorem snapshot_mirror {A A' : RestingOrders} {S S' : BookSnapshot}
    (hlive : A'.live = mirrorLive A.live) (hneg : ∀ o ∈ A.live, o.price.Negatable)
    (hS : ∀ s, ShowsSide A.live s (S.side s)) (hS' : ∀ s, ShowsSide A'.live s (S'.side s)) :
    S' = S.mirror := by
  refine BookSnapshot.ext_side fun s => ?_
  have hshows := hS' s
  rw [hlive] at hshows
  have hmirror := (hS s.opposite).mirror hneg
  rw [Side.opposite_opposite] at hmirror
  rw [S.mirror_side]
  exact hshows.unique hmirror

end

/-- The views of mirrored listings. -/
theorem views_mirror {A A' : RestingOrders} {S S' : BookSnapshot}
    (hlive : A'.live = mirrorLive A.live) (hneg : ∀ o ∈ A.live, o.price.Negatable)
    (hS : ∀ s, ShowsSide A.live s (S.side s)) (hS' : ∀ s, ShowsSide A'.live s (S'.side s)) :
    S' = S.mirror ∧ (∀ n, S'.depth n = (S.depth n).mirror) ∧ S'.top = S.top.mirror ∧
      (S'.top.Uncrossed ↔ S.top.Uncrossed) := by
  obtain rfl := snapshot_mirror hlive hneg hS hS'
  refine ⟨rfl, S.depth_mirror, S.top_mirror, ?_⟩
  rw [S.top_mirror]
  exact BookSnapshot.uncrossed_mirror fun s => (hS s).negatable hneg

/-- **Buy and sell mirror each other.** Swap the sides and negate the prices of a sequence of
events, none of them at the price `INT64_MIN`. In the linked-list book and in a pool of any
capacity, every event gets the same result, and the final snapshot, depth and top of book are
the mirror images of those of the original run; the invariant check gives the same answer. -/
theorem mirrored_runs (events : List MarketEvent)
    (hprices : ∀ event ∈ events, event.price.ticks ≠ Int64.minValue) :
    let mirrored := events.map MarketEvent.mirror
    (let b := finalState LimitOrderBook.apply .empty events
      let b' := finalState LimitOrderBook.apply .empty mirrored
      outputs LimitOrderBook.apply .empty mirrored = outputs LimitOrderBook.apply .empty events ∧
        b'.snapshot = b.snapshot.mirror ∧ (∀ n, b'.depth n = (b.depth n).mirror) ∧
        b'.topOfBook = b.topOfBook.mirror ∧
        ∀ options, b'.validateInvariants options = b.validateInvariants options) ∧
      ∀ N : UInt64,
        let p := finalState PooledLimitOrderBook.apply (.new N) events
        let p' := finalState PooledLimitOrderBook.apply (.new N) mirrored
        outputs PooledLimitOrderBook.apply (.new N) mirrored =
            outputs PooledLimitOrderBook.apply (.new N) events ∧
          (∃ S, p.snapshot = some S ∧ p'.snapshot = some S.mirror) ∧
          (∀ n, p'.depth n = (p.depth n).mirror) ∧ p'.topOfBook = p.topOfBook.mirror ∧
          ∀ options, p'.validateInvariants options = p.validateInvariants options := by
  dsimp only
  refine ⟨?_, fun N => ?_⟩
  · obtain ⟨hout, A, A', hA, hA', hlive, hneg⟩ := mirrored_run
      (fun b A event h => LimitOrderBook.apply_refines h event) Reference.apply_mirror
      (fun _ _ hL hevent => negatable_apply hL hevent) LimitOrderBook.represents_empty hprices
    obtain ⟨hsnap, hdepth, htop, hcrossed⟩ := views_mirror hlive hneg hA.showsSide hA'.showsSide
    refine ⟨hout, hsnap, fun n => ?_, ?_, fun options => ?_⟩
    · rw [LimitOrderBook.depth_eq, LimitOrderBook.depth_eq, hdepth]
    · rw [LimitOrderBook.topOfBook_eq, LimitOrderBook.topOfBook_eq, htop]
    · rw [Bool.eq_iff_iff, hA.validateInvariants_iff, hA'.validateInvariants_iff,
        LimitOrderBook.topOfBook_eq, LimitOrderBook.topOfBook_eq, hcrossed]
  · obtain ⟨hout, A, A', hA, hA', hlive, hneg⟩ := mirrored_run
      (fun b A event h => PooledLimitOrderBook.apply_refines h event)
      (Reference.boundedApply_mirror N.toNat)
      (fun _ _ hL hevent => negatable_boundedApply hL hevent)
      ⟨PooledLimitOrderBook.represents_new N, PooledLimitOrderBook.capacity_new N⟩ hprices
    obtain ⟨S, hS, hshows, htop, hdepth⟩ := hA.1.snapshot
    obtain ⟨S', hS', hshows', htop', hdepth'⟩ := hA'.1.snapshot
    obtain ⟨rfl, hdepths, htops, hcrossed⟩ := views_mirror hlive hneg hshows hshows'
    refine ⟨hout, ⟨S, hS, hS'⟩, fun n => ?_, ?_, fun options => ?_⟩
    · rw [hdepth, hdepth', hdepths]
    · rw [htop, htop', htops]
    · rw [Bool.eq_iff_iff, hA.1.validateInvariants_iff, hA'.1.validateInvariants_iff, htop, htop',
        hcrossed]

/-- A bid below an ask mirrors to a bid below an ask, in a list and in a pool of two. -/
theorem mirrored_runs_quotes :
    let bid : MarketEvent := { side := .buy, orderId := ⟨1⟩, price := ⟨100⟩, quantity := ⟨5⟩ }
    let ask : MarketEvent := { side := .sell, orderId := ⟨2⟩, price := ⟨105⟩, quantity := ⟨7⟩ }
    let mirrored : TopOfBook := ⟨some ⟨⟨-105⟩, ⟨7⟩, 1⟩, some ⟨⟨-100⟩, ⟨5⟩, 1⟩⟩
    ((finalState LimitOrderBook.apply .empty [bid.mirror, ask.mirror]).topOfBook =
        (finalState LimitOrderBook.apply .empty [bid, ask]).topOfBook.mirror ∧
      (finalState LimitOrderBook.apply .empty [bid.mirror, ask.mirror]).topOfBook = mirrored) ∧
    (finalState PooledLimitOrderBook.apply (.new 2) [bid.mirror, ask.mirror]).topOfBook =
        (finalState PooledLimitOrderBook.apply (.new 2) [bid, ask]).topOfBook.mirror ∧
      (finalState PooledLimitOrderBook.apply (.new 2) [bid.mirror, ask.mirror]).topOfBook =
        mirrored := by
  intro bid ask mirrored
  obtain ⟨hlinked, hpooled⟩ := mirrored_runs [bid, ask] (by decide)
  have htop := hlinked.2.2.2.1
  have htop' := (hpooled 2).2.2.2.1
  exact ⟨⟨htop, by decide +kernel⟩, htop', by decide +kernel⟩

end Datagine
