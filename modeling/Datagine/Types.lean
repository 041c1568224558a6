import Mathlib.Order.RelClasses

/-!
# Core Types and the Book Interface

The strongly typed integers of `core/types.hpp`, the market event of
`core/market_event.hpp`, and the result and view types that both order books return
(`book/limit_order_book.hpp`). Quantities and order ids are 64-bit unsigned words with
wrapping arithmetic; prices and timestamps are 64-bit signed words. Sizes and counters
(`std::size_t`, the statistics counter) are natural numbers: every step raises a counter by one
at most, so they equal those of the source in all runs of fewer than `2 ^ 64` steps.

The two sides of a book keep their price levels in maps with opposite comparators.
`Side.before` names the comparator of a side, so that `SortedMap` can be instantiated at
either one and facts that hold of both sides are stated once.
-/

namespace Datagine

/-- The side of an order. -/
inductive Side
  | buy
  | sell
  deriving DecidableEq, Repr

/-- The kind of a market event; the source's `Trade` is an alias of `execute`. -/
inductive EventType
  | add
  | modify
  | cancel
  | execute
  deriving DecidableEq, Repr

/-- A price in ticks. -/
structure Price where
  ticks : Int64
  deriving DecidableEq, Repr

/-- An order quantity in units. -/
structure Quantity where
  units : UInt64
  deriving DecidableEq, Repr

/-- An order identifier. -/
structure OrderId where
  value : UInt64
  deriving DecidableEq, Repr

/-- A timestamp in nanoseconds. -/
structure Timestamp where
  nanoseconds : Int64
  deriving DecidableEq, Repr

/-- A normalized market event. -/
structure MarketEvent where
  type : EventType := .add
  timestamp : Timestamp := ⟨0⟩
  orderId : OrderId := ⟨0⟩
  side : Side := .buy
  price : Price := ⟨0⟩
  quantity : Quantity := ⟨0⟩
  deriving DecidableEq, Repr

/-! ### Results and views -/

/-- What a book answers to an operation. -/
inductive BookResult
  | applied
  | duplicateOrderId
  | missingOrderId
  | invalidQuantity
  | insufficientQuantity
  | unsupportedModify
  | capacityExceeded
  deriving DecidableEq, Repr

/-- The text of a result, as it appears in replay errors. -/
def BookResult.toText : BookResult → String
  | applied => "applied"
  | duplicateOrderId => "duplicate order id"
  | missingOrderId => "missing order id"
  | invalidQuantity => "invalid quantity"
  | insufficientQuantity => "insufficient quantity"
  | unsupportedModify => "unsupported modify"
  | capacityExceeded => "capacity exceeded"

/-- One price level, aggregated. -/
structure PriceLevelView where
  price : Price
  quantity : Quantity
  orderCount : ℕ
  deriving DecidableEq, Repr

/-- The best level of each side. -/
structure TopOfBook where
  bid : Option PriceLevelView
  ask : Option PriceLevelView
  deriving DecidableEq, Repr

/-- The best levels of each side. -/
structure BookDepth where
  bids : List PriceLevelView
  asks : List PriceLevelView
  deriving DecidableEq, Repr

/-- One resting order, as a snapshot shows it. -/
structure OrderView where
  orderId : OrderId
  timestamp : Timestamp
  quantity : Quantity
  deriving DecidableEq, Repr

/-- One price level with its queue. -/
structure PriceLevelSnapshot where
  price : Price
  quantity : Quantity
  orders : List OrderView
  deriving DecidableEq, Repr

/-- Both sides of a book, level by level. -/
structure BookSnapshot where
  bids : List PriceLevelSnapshot
  asks : List PriceLevelSnapshot
  deriving DecidableEq, Repr

/-- The options of the invariant check. -/
structure InvariantOptions where
  allowCrossedBook : Bool := false
  deriving DecidableEq, Repr

/-- The operations a client can call on a book, with their arguments. -/
inductive BookOp
  | addOrder (orderId : OrderId) (side : Side) (price : Price) (quantity : Quantity)
      (timestamp : Timestamp)
  | cancelOrder (orderId : OrderId)
  | modifyOrder (orderId : OrderId) (newQuantity : Quantity)
  | executeOrder (orderId : OrderId) (executedQuantity : Quantity)
  | clear
  deriving DecidableEq, Repr

/-! ### The comparators of the two sides -/

instance ltIsStrictTotalOrder : IsStrictTotalOrder Int64 (· < ·) where
  trichotomous a b hab hba := by
    rw [Int64.lt_iff_toInt_lt] at hab hba
    exact Int64.toInt_inj.mp (by omega)
  irrefl a h := by
    rw [Int64.lt_iff_toInt_lt] at h
    omega
  trans a b c hab hbc := by
    rw [Int64.lt_iff_toInt_lt] at hab hbc ⊢
    omega

instance gtIsStrictTotalOrder : IsStrictTotalOrder Int64 (· > ·) :=
  inferInstanceAs (IsStrictTotalOrder Int64 (Function.swap (· < ·)))

/-- The order in which a side lists its prices, best first: bids descend
(`std::greater`), asks ascend (`std::less`). -/
def Side.before : Side → Int64 → Int64 → Prop
  | .buy => (· > ·)
  | .sell => (· < ·)

instance : (s : Side) → DecidableRel s.before
  | .buy => fun a b => inferInstanceAs (Decidable (b < a))
  | .sell => fun a b => inferInstanceAs (Decidable (a < b))

instance : (s : Side) → IsStrictTotalOrder Int64 s.before
  | .buy => inferInstanceAs (IsStrictTotalOrder Int64 (· > ·))
  | .sell => inferInstanceAs (IsStrictTotalOrder Int64 (· < ·))

end Datagine
