import Datagine.LimitOrderBookRefines
import Datagine.PooledLimitOrderBookViews

/-!
# Runs of the Books

From one step to every run. An operation either is rejected and changes nothing at all, or
is accepted and counted (`exec_outcome`); and since every step simulates the
reference rules, every state a book can reach represents the list those rules leave
(`run_refines`).

## Main results

* `LimitOrderBook.priceTimePriority`: along every event sequence the linked-list book
  answers and shows what the plain list of live orders dictates.
* `validateInvariants_reached`: in every reachable state of either book, the invariant
  check fails exactly on a crossed book that is not allowed to be crossed.
-/

namespace Datagine

open Mealy

/-! ### Accepted and rejected operations -/

/-- A rejected operation leaves the book as it was; an accepted one is counted. -/
def RejectedOrCounted {β : Type} (eventsApplied : β → ℕ) (b : β) (r : BookResult × β) : Prop :=
  (r.1 ≠ .applied ∧ r.2 = b) ∨ (r.1 = .applied ∧ eventsApplied r.2 = eventsApplied b + 1)

/-- What is not applied leaves the state as it was. -/
theorem RejectedOrCounted.state_eq {β : Type} {eventsApplied : β → ℕ} {b : β}
    {r : BookResult × β} (h : RejectedOrCounted eventsApplied b r) (hne : r.1 ≠ .applied) :
    r.2 = b := by
  rcases h with ⟨-, heq⟩ | ⟨happlied, -⟩
  · exact heq
  · exact absurd happlied hne

/-- The best bid price exceeds the best ask price. -/
def TopOfBook.Crossed (top : TopOfBook) : Prop :=
  ∃ bid ask, top.bid = some bid ∧ top.ask = some ask ∧ ask.price.ticks < bid.price.ticks

/-- A side is empty, or the best bid price is at most the best ask price. -/
def TopOfBook.Uncrossed (top : TopOfBook) : Prop :=
  top.bid = none ∨ top.ask = none ∨
    ∃ bid ask, top.bid = some bid ∧ top.ask = some ask ∧ bid.price.ticks ≤ ask.price.ticks

/-- The two tests of the top are each other's negation. -/
theorem TopOfBook.uncrossed_iff (top : TopOfBook) : top.Uncrossed ↔ ¬top.Crossed := by
  have hle : ∀ x y : Int64, ¬y < x ↔ x ≤ y := by
    intro x y
    rw [Int64.lt_iff_toInt_lt, Int64.le_iff_toInt_le]
    omega
  rw [TopOfBook.Uncrossed, TopOfBook.Crossed]
  cases top.bid with
  | none => simp
  | some bid =>
      cases top.ask with
      | none => simp
      | some ask => simp [hle]

/-- The crossed-book test reads the top of the book. -/
theorem BookLevels.crossed_iff {ν : Type} (view : Int64 → ν → PriceLevelView)
    (hview : ∀ k v, (view k v).price = ⟨k⟩) (m : BookLevels ν) :
    m.crossed = true ↔ (m.top view).Crossed := by
  rw [BookLevels.crossed, TopOfBook.Crossed, BookLevels.top]
  cases m.bidLevels.entries.head? with
  | none => simp
  | some bid =>
      cases m.askLevels.entries.head? with
      | none => simp
      | some ask => simp [hview]

namespace LimitOrderBook

variable (b : LimitOrderBook)

/-- **An operation is rejected without a trace or accepted and counted**, whatever the
state and the arguments; only `clear` answers nothing. -/
theorem exec_outcome (op : BookOp) :
    op = .clear ∨ ∃ r, b.exec op = (some r.1, r.2) ∧ RejectedOrCounted eventsApplied b r := by
  cases op with
  | addOrder id side price quantity timestamp =>
      refine .inr ⟨_, rfl, ?_⟩
      rw [addOrder]
      split_ifs
      · exact .inl ⟨by simp, rfl⟩
      · exact .inl ⟨by simp, rfl⟩
      · exact .inr ⟨rfl, rfl⟩
  | cancelOrder id =>
      refine .inr ⟨_, rfl, ?_⟩
      rw [cancelOrder]
      cases b.orderLookup.lookup id.value with
      | none => exact .inl ⟨by simp, rfl⟩
      | some record => exact .inr ⟨rfl, rfl⟩
  | modifyOrder id q =>
      refine .inr ⟨_, rfl, ?_⟩
      rw [modifyOrder]
      cases b.orderLookup.lookup id.value with
      | none => split_ifs <;> exact .inl ⟨by simp, rfl⟩
      | some record =>
          dsimp only
          split_ifs
          · exact .inl ⟨by simp, rfl⟩
          · exact .inl ⟨by simp, rfl⟩
          · exact .inr ⟨rfl, rfl⟩
          · exact .inr ⟨rfl, rfl⟩
  | executeOrder id q =>
      refine .inr ⟨_, rfl, ?_⟩
      rw [executeOrder]
      cases b.orderLookup.lookup id.value with
      | none => split_ifs <;> exact .inl ⟨by simp, rfl⟩
      | some record =>
          dsimp only
          split_ifs
          · exact .inl ⟨by simp, rfl⟩
          · exact .inl ⟨by simp, rfl⟩
          · exact .inr ⟨rfl, rfl⟩
          · exact .inr ⟨rfl, rfl⟩
  | clear => exact .inl rfl

/-- An event is the operation it stands for. -/
theorem exec_toOp (event : MarketEvent) :
    b.exec event.toOp = (some (b.apply event).1, (b.apply event).2) := by
  rw [MarketEvent.toOp, apply]
  cases event.type <;> rfl

/-- An event is rejected without a trace, or counted. -/
theorem apply_outcome (event : MarketEvent) :
    RejectedOrCounted eventsApplied b (b.apply event) := by
  rcases b.exec_outcome event.toOp with hclear | ⟨r, hr, hout⟩
  · exact absurd hclear event.toOp_ne_clear
  · rw [exec_toOp, Prod.mk.injEq, Option.some.injEq] at hr
    rwa [Prod.ext hr.1 hr.2]

variable {b}

/-- An operation that answers anything but `applied` leaves the whole state as it was. -/
theorem exec_eq_self {op : BookOp} {res : BookResult} (h : (b.exec op).1 = some res)
    (hres : res ≠ .applied) : (b.exec op).2 = b := by
  rcases b.exec_outcome op with rfl | ⟨r, hr, hout⟩
  · cases h
  · rw [hr] at h ⊢
    obtain rfl := Option.some.inj h
    exact hout.state_eq hres

/-- The invariant check on a represented book, in terms of the top of the book. -/
theorem Represents.validateInvariants_iff {A : RestingOrders} (h : Represents b A)
    (options : InvariantOptions) :
    b.validateInvariants options = true ↔
      options.allowCrossedBook = true ∨ b.topOfBook.Uncrossed := by
  have hcrossed := BookLevels.crossed_iff makePriceLevelView (fun _ _ => rfl) b.toBookLevels
  rw [h.validateInvariants, Bool.or_eq_true, Bool.not_eq_true', ← Bool.not_eq_true, hcrossed,
    topOfBook, TopOfBook.uncrossed_iff]

/-- An event refines the rules on the live list. -/
theorem apply_refines {A : RestingOrders} (h : Represents b A) (event : MarketEvent) :
    StepRefines Represents (b.apply event) (Reference.apply A.live event) := by
  have hstep := exec_refines h event.toOp
  rw [exec_toOp, Reference.exec_toOp] at hstep
  obtain ⟨hres, hrep⟩ := hstep
  exact ⟨Option.some.inj hres, hrep⟩

/-- The book holds an arrangement of the live list `L`. -/
def HoldsLive (b : LimitOrderBook) (L : List LiveOrder) : Prop :=
  ∃ A : RestingOrders, Represents b A ∧ A.live = L

/-- A new book holds no orders. -/
theorem holdsLive_empty : HoldsLive empty [] := ⟨.empty, represents_empty, rfl⟩

/-- **Every run refines the rules**: same answers, and the final state holds the list the
rules leave. -/
theorem run_refines (ops : List BookOp) :
    outputs exec empty ops = outputs Reference.exec [] ops ∧
      HoldsLive (finalState exec empty ops) (finalState Reference.exec [] ops) := by
  refine simulation (fun b L op h => ?_) holdsLive_empty ops
  obtain ⟨A, hrep, rfl⟩ := h
  exact exec_refines hrep op

/-- The event form of `run_refines`. -/
theorem runEvents_refines (events : List MarketEvent) :
    outputs apply empty events = outputs Reference.apply [] events ∧
      HoldsLive (finalState apply empty events) (finalState Reference.apply [] events) := by
  refine simulation (fun b L event h => ?_) holdsLive_empty events
  obtain ⟨A, hrep, rfl⟩ := h
  exact apply_refines hrep event

/-- **The book implements price-time priority.** Along every event sequence it answers what
the rules on a plain list of live orders dictate, and it shows that list: the levels of each
side are the prices in use, best first; a level lists its orders in acceptance order, with
their wrapped sum; the ids at a price, the depth and the top of the book are projections of
the same listing. -/
theorem priceTimePriority (events : List MarketEvent) :
    outputs apply empty events = outputs Reference.apply [] events ∧
      let b := finalState apply empty events
      let L := finalState Reference.apply [] events
      ShowsSide L .buy b.snapshot.bids ∧ ShowsSide L .sell b.snapshot.asks ∧
      (∀ s p, b.orderIdsAtPrice s p = (ordersAt L s p).map LiveOrder.orderId) ∧
      (∀ n, b.depth n =
        ⟨(b.snapshot.bids.take n).map fun l => ⟨l.price, l.quantity, l.orders.length⟩,
          (b.snapshot.asks.take n).map fun l => ⟨l.price, l.quantity, l.orders.length⟩⟩) ∧
      b.topOfBook =
        ⟨b.snapshot.bids.head?.map fun l => ⟨l.price, l.quantity, l.orders.length⟩,
          b.snapshot.asks.head?.map fun l => ⟨l.price, l.quantity, l.orders.length⟩⟩ ∧
      b.liveOrderCount = L.length := by
  obtain ⟨hout, A, hrep, hlive⟩ := runEvents_refines events
  refine ⟨hout, ?_⟩
  dsimp only
  rw [← hlive]
  exact ⟨hrep.showsSide .buy, hrep.showsSide .sell, hrep.orderIdsAtPrice, depth_eq _,
    topOfBook_eq _, hrep.liveOrderCount⟩

end LimitOrderBook

namespace PooledLimitOrderBook

variable (b : PooledLimitOrderBook)

/-- A removal does not touch the counter. -/
theorem removeExistingOrder_countApplied (id : OrderId) (record : OrderRecord) :
    (b.removeExistingOrder id record).countApplied.eventsApplied = b.eventsApplied + 1 := by
  simp only [removeExistingOrder]
  cases b.findLevel record.side record.price <;> rfl

/-- Neither does an allocation. -/
theorem allocateNode_countApplied {b : PooledLimitOrderBook} {alloc : ℕ × PooledLimitOrderBook}
    (h : b.allocateNode = some alloc) : alloc.2.stats.eventsApplied + 1 = b.eventsApplied + 1 := by
  rw [allocateNode] at h
  cases hlast : b.freeIndices.getLast? with
  | none => simp [hlast] at h
  | some i =>
      rw [hlast] at h
      obtain rfl := Option.some.inj h
      rfl

/-- **An operation is rejected without a trace or accepted and counted**, whatever the
state and the arguments; only `clear` answers nothing. -/
theorem exec_outcome (op : BookOp) :
    op = .clear ∨ ∃ r, b.exec op = (some r.1, r.2) ∧ RejectedOrCounted eventsApplied b r := by
  cases op with
  | addOrder id side price quantity timestamp =>
      refine .inr ⟨_, rfl, ?_⟩
      rw [addOrder]
      split_ifs
      · exact .inl ⟨by simp, rfl⟩
      · exact .inl ⟨by simp, rfl⟩
      · cases halloc : b.allocateNode with
        | none => exact .inl ⟨by simp, rfl⟩
        | some alloc => exact .inr ⟨rfl, allocateNode_countApplied halloc⟩
  | cancelOrder id =>
      refine .inr ⟨_, rfl, ?_⟩
      rw [cancelOrder]
      cases b.orderLookup.lookup id.value with
      | none => exact .inl ⟨by simp, rfl⟩
      | some record => exact .inr ⟨rfl, removeExistingOrder_countApplied b id record⟩
  | modifyOrder id q =>
      refine .inr ⟨_, rfl, ?_⟩
      rw [modifyOrder]
      cases b.orderLookup.lookup id.value with
      | none => split_ifs <;> exact .inl ⟨by simp, rfl⟩
      | some record =>
          dsimp only
          split_ifs
          · exact .inl ⟨by simp, rfl⟩
          · exact .inl ⟨by simp, rfl⟩
          · exact .inr ⟨rfl, rfl⟩
          · exact .inr ⟨rfl, rfl⟩
  | executeOrder id q =>
      refine .inr ⟨_, rfl, ?_⟩
      rw [executeOrder]
      cases b.orderLookup.lookup id.value with
      | none => split_ifs <;> exact .inl ⟨by simp, rfl⟩
      | some record =>
          dsimp only
          split_ifs
          · exact .inl ⟨by simp, rfl⟩
          · exact .inl ⟨by simp, rfl⟩
          · exact .inr ⟨rfl, removeExistingOrder_countApplied b id record⟩
          · exact .inr ⟨rfl, rfl⟩
  | clear => exact .inl rfl

/-- An event is the operation it stands for. -/
theorem exec_toOp (event : MarketEvent) :
    b.exec event.toOp = (some (b.apply event).1, (b.apply event).2) := by
  rw [MarketEvent.toOp, apply]
  cases event.type <;> rfl

/-- An event is rejected without a trace, or counted. -/
theorem apply_outcome (event : MarketEvent) :
    RejectedOrCounted eventsApplied b (b.apply event) := by
  rcases b.exec_outcome event.toOp with hclear | ⟨r, hr, hout⟩
  · exact absurd hclear event.toOp_ne_clear
  · rw [exec_toOp, Prod.mk.injEq, Option.some.injEq] at hr
    rwa [Prod.ext hr.1 hr.2]

variable {b}

/-- An operation that answers anything but `applied` leaves the whole state as it was. -/
theorem exec_eq_self {op : BookOp} {res : BookResult} (h : (b.exec op).1 = some res)
    (hres : res ≠ .applied) : (b.exec op).2 = b := by
  rcases b.exec_outcome op with rfl | ⟨r, hr, hout⟩
  · cases h
  · rw [hr] at h ⊢
    obtain rfl := Option.some.inj h
    exact hout.state_eq hres

/-- The invariant check on a represented book, in terms of the top of the book. -/
theorem Represents.validateInvariants_iff {A : RestingOrders} (h : Represents b A)
    (options : InvariantOptions) :
    b.validateInvariants options = true ↔
      options.allowCrossedBook = true ∨ b.topOfBook.Uncrossed := by
  have hcrossed := BookLevels.crossed_iff makePriceLevelView (fun _ _ => rfl) b.toBookLevels
  rw [h.validateInvariants, Bool.or_eq_true, Bool.not_eq_true', ← Bool.not_eq_true, hcrossed,
    topOfBook, TopOfBook.uncrossed_iff]

/-- The pool of capacity `N` holds an arrangement of the live list `L`. -/
def HoldsLive (N : ℕ) (b : PooledLimitOrderBook) (L : List LiveOrder) : Prop :=
  ∃ A : RestingOrders, Holds N b A ∧ A.live = L

/-- A new pool has the capacity it was asked for. -/
theorem capacity_new (N : UInt64) : (new N).capacity = N.toNat := by
  simp [new, capacity, resetFreeList]

/-- A new pool holds no orders. -/
theorem holdsLive_new (N : UInt64) : HoldsLive N.toNat (new N) [] :=
  ⟨.empty, ⟨represents_new N, capacity_new N⟩, rfl⟩

/-- **Every run refines the bounded rules**: same answers, and the final state holds the
list the rules leave. -/
theorem run_refines (N : UInt64) (ops : List BookOp) :
    outputs exec (new N) ops = outputs (Reference.boundedExec N.toNat) [] ops ∧
      HoldsLive N.toNat (finalState exec (new N) ops)
        (finalState (Reference.boundedExec N.toNat) [] ops) := by
  refine simulation (fun b L op h => ?_) (holdsLive_new N) ops
  obtain ⟨A, hrep, rfl⟩ := h
  exact exec_refines hrep op

end PooledLimitOrderBook

/-! ### The invariant check in reachable states -/

/-- **The invariant check reports crossed books and nothing else.** In every state that
either book reaches, whatever the operations and their arguments, it succeeds exactly when a
crossed book is allowed, or a side is empty, or the best bid does not exceed the best ask. -/
theorem validateInvariants_reached (options : InvariantOptions) (ops : List BookOp) :
    ((finalState LimitOrderBook.exec .empty ops).validateInvariants options = true ↔
        options.allowCrossedBook = true ∨
          (finalState LimitOrderBook.exec .empty ops).topOfBook.Uncrossed) ∧
      ∀ N : UInt64,
        ((finalState PooledLimitOrderBook.exec (.new N) ops).validateInvariants options = true ↔
          options.allowCrossedBook = true ∨
            (finalState PooledLimitOrderBook.exec (.new N) ops).topOfBook.Uncrossed) := by
  refine ⟨?_, fun N => ?_⟩
  · obtain ⟨-, A, hrep, -⟩ := LimitOrderBook.run_refines ops
    exact hrep.validateInvariants_iff options
  · obtain ⟨-, A, hrep, -⟩ := PooledLimitOrderBook.run_refines N ops
    exact hrep.1.validateInvariants_iff options

end Datagine
