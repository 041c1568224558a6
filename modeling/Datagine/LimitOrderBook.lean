import Mathlib.Data.Finmap
import Datagine.Levels
import Datagine.PriceTime

/-!
# The Limit Order Book

The model of `book/limit_order_book.cpp`. Each side keeps its price levels in an ordered
map from ticks to `PriceLevel`; a level holds the cached total of its queue and the queue
itself, a linked list of order entries; `orderLookup` maps a live id to a record with a
copy of the order and an iterator to its queue node.

A `std::list` iterator stays valid while its node lives, whatever happens to the nodes
around it. It is modelled as the address of the node: every `QueueNode` carries its
address, erasing or writing through an iterator acts on the node with that address, and
`nextNode` supplies an address not in use for each insertion. `orderLookup` is a hash table and
has no order: it is a `Finmap`.

Where the source dereferences a level that must exist, the model leaves the levels
unchanged if it does not; `LimitOrderBook.Represents` shows that this never happens in a
reachable state.
-/

namespace Datagine

open KeyedList

/-- One entry of a price level's queue. -/
structure OrderEntry where
  orderId : OrderId
  timestamp : Timestamp
  quantity : Quantity
  deriving DecidableEq, Repr

/-- A node of the queue: an entry at a stable address. -/
structure QueueNode where
  address : ℕ
  entry : OrderEntry
  deriving DecidableEq, Repr

namespace LimitOrderBook

/-- A price level: the cached total quantity and the queue, oldest order first. -/
structure PriceLevel where
  totalQuantity : Quantity := ⟨0⟩
  orders : List QueueNode := []
  deriving DecidableEq, Repr

/-- What the lookup stores for a live order; `iterator` is the address of its node. -/
structure OrderRecord where
  side : Side
  price : Price
  timestamp : Timestamp
  quantity : Quantity
  iterator : ℕ
  deriving DecidableEq, Repr

/-- The statistics of a book. -/
structure Stats where
  eventsApplied : ℕ := 0
  deriving DecidableEq, Repr

end LimitOrderBook

/-- The state of a `LimitOrderBook`; the level maps `bidLevels` and `askLevels` are those
of `BookLevels`. -/
structure LimitOrderBook extends BookLevels LimitOrderBook.PriceLevel where
  orderLookup : Finmap fun _ : UInt64 => LimitOrderBook.OrderRecord
  stats : LimitOrderBook.Stats
  /-- The address the next queue node will get. -/
  nextNode : ℕ

namespace LimitOrderBook

/-- A freshly constructed book. -/
def empty : LimitOrderBook := ⟨.empty, ∅, {}, 0⟩

/-- `find_level`: the level at a price, if it exists. -/
def findLevel (b : LimitOrderBook) (side : Side) (price : Price) : Option PriceLevel :=
  b.toBookLevels.find side price

/-- Count an accepted event. -/
def countApplied (b : LimitOrderBook) : LimitOrderBook :=
  { b with stats := { eventsApplied := b.stats.eventsApplied + 1 } }

/-! ### The operations -/

/-- Append an order at the back of a level's queue and add it to the level's total. -/
def PriceLevel.pushBack (node : QueueNode) (level : PriceLevel) : PriceLevel where
  totalQuantity := ⟨level.totalQuantity.units + node.entry.quantity.units⟩
  orders := level.orders ++ [node]

/-- `add_order`. -/
def addOrder (b : LimitOrderBook) (orderId : OrderId) (side : Side) (price : Price)
    (quantity : Quantity) (timestamp : Timestamp) : BookResult × LimitOrderBook :=
  if quantity.units = 0 then (.invalidQuantity, b)
  else if orderId.value ∈ b.orderLookup then (.duplicateOrderId, b)
  else
    let node : QueueNode := ⟨b.nextNode, ⟨orderId, timestamp, quantity⟩⟩
    let record : OrderRecord := ⟨side, price, timestamp, quantity, node.address⟩
    let b : LimitOrderBook := { b with
      -- `levels[price.ticks]` creates an empty level when the price is new
      toBookLevels := b.toBookLevels.upsert side price {} (PriceLevel.pushBack node)
      orderLookup := b.orderLookup.insert orderId.value record
      nextNode := b.nextNode + 1 }
    (.applied, b.countApplied)

/-- Take an order out of a level: subtract its quantity from the total and erase its node. -/
def PriceLevel.eraseOrder (record : OrderRecord) (level : PriceLevel) : PriceLevel where
  totalQuantity := ⟨level.totalQuantity.units - record.quantity.units⟩
  orders := eraseKey QueueNode.address record.iterator level.orders

/-- The level after an order is taken out: a level left empty is erased. -/
def PriceLevel.removeOrder (record : OrderRecord) (level : PriceLevel) : Option PriceLevel :=
  if (level.eraseOrder record).orders = [] then none else some (level.eraseOrder record)

/-- `remove_existing_order`, at the lookup entry of `orderId`. -/
def removeExistingOrder (b : LimitOrderBook) (orderId : OrderId) (record : OrderRecord) :
    LimitOrderBook :=
  { b with
    toBookLevels := b.toBookLevels.alter record.side record.price (PriceLevel.removeOrder record)
    orderLookup := b.orderLookup.erase orderId.value }

/-- `cancel_order`. -/
def cancelOrder (b : LimitOrderBook) (orderId : OrderId) : BookResult × LimitOrderBook :=
  match b.orderLookup.lookup orderId.value with
  | none => (.missingOrderId, b)
  | some record => (.applied, (b.removeExistingOrder orderId record).countApplied)

/-- Lower a level's total and rewrite the quantity of one node. -/
def PriceLevel.reduceOrder (iterator : ℕ) (reduction : UInt64) (newQuantity : Quantity)
    (level : PriceLevel) : PriceLevel where
  totalQuantity := ⟨level.totalQuantity.units - reduction⟩
  orders := updateKey QueueNode.address iterator
    (fun node => { node with entry := { node.entry with quantity := newQuantity } })
    level.orders

/-- The common tail of `modify_order` and `execute_order`: lower the level total by
`reduction` and write `newQuantity` to the record and to the queue node. -/
def reduceOrder (b : LimitOrderBook) (orderId : OrderId) (record : OrderRecord)
    (reduction : UInt64) (newQuantity : Quantity) : LimitOrderBook :=
  { b with
    toBookLevels := b.toBookLevels.modify record.side record.price
      (PriceLevel.reduceOrder record.iterator reduction newQuantity)
    orderLookup := b.orderLookup.insert orderId.value { record with quantity := newQuantity } }

/-- `modify_order`. -/
def modifyOrder (b : LimitOrderBook) (orderId : OrderId) (newQuantity : Quantity) :
    BookResult × LimitOrderBook :=
  if newQuantity.units = 0 then (.invalidQuantity, b)
  else
    match b.orderLookup.lookup orderId.value with
    | none => (.missingOrderId, b)
    | some record =>
        if newQuantity.units > record.quantity.units then (.unsupportedModify, b)
        else if newQuantity.units = record.quantity.units then (.applied, b.countApplied)
        else
          let reduction := record.quantity.units - newQuantity.units
          (.applied, (b.reduceOrder orderId record reduction newQuantity).countApplied)

/-- `execute_order`. -/
def executeOrder (b : LimitOrderBook) (orderId : OrderId) (executedQuantity : Quantity) :
    BookResult × LimitOrderBook :=
  if executedQuantity.units = 0 then (.invalidQuantity, b)
  else
    match b.orderLookup.lookup orderId.value with
    | none => (.missingOrderId, b)
    | some record =>
        if executedQuantity.units > record.quantity.units then (.insufficientQuantity, b)
        else if executedQuantity.units = record.quantity.units then
          (.applied, (b.removeExistingOrder orderId record).countApplied)
        else
          let remaining : Quantity := ⟨record.quantity.units - executedQuantity.units⟩
          (.applied,
            (b.reduceOrder orderId record executedQuantity.units remaining).countApplied)

/-- `apply`: dispatch on the type of the event. -/
def apply (b : LimitOrderBook) (event : MarketEvent) : BookResult × LimitOrderBook :=
  match event.type with
  | .add => b.addOrder event.orderId event.side event.price event.quantity event.timestamp
  | .modify => b.modifyOrder event.orderId event.quantity
  | .cancel => b.cancelOrder event.orderId
  | .execute => b.executeOrder event.orderId event.quantity

/-- `clear`; with every node freed, the addresses start over. -/
def clear (b : LimitOrderBook) : LimitOrderBook :=
  { b with toBookLevels := .empty, orderLookup := ∅, stats := {}, nextNode := 0 }

/-- Any one operation of the interface; `clear` answers nothing. -/
def exec (b : LimitOrderBook) : BookOp → Option BookResult × LimitOrderBook
  | .addOrder id side price quantity timestamp =>
      let r := b.addOrder id side price quantity timestamp
      (some r.1, r.2)
  | .cancelOrder id =>
      let r := b.cancelOrder id
      (some r.1, r.2)
  | .modifyOrder id q =>
      let r := b.modifyOrder id q
      (some r.1, r.2)
  | .executeOrder id q =>
      let r := b.executeOrder id q
      (some r.1, r.2)
  | .clear => (none, b.clear)

/-! ### The views -/

/-- `make_price_level_view`. -/
def makePriceLevelView (price : Int64) (level : PriceLevel) : PriceLevelView :=
  ⟨⟨price⟩, level.totalQuantity, level.orders.length⟩

/-- `top_of_book`. -/
def topOfBook (b : LimitOrderBook) : TopOfBook := b.toBookLevels.top makePriceLevelView

/-- `depth`: the first `n` levels of each side. -/
def depth (b : LimitOrderBook) (n : ℕ) : BookDepth := b.toBookLevels.depth makePriceLevelView n

/-- A queue node as a snapshot shows it. -/
def orderView (node : QueueNode) : OrderView :=
  ⟨node.entry.orderId, node.entry.timestamp, node.entry.quantity⟩

/-- A level as a snapshot shows it. -/
def levelSnapshot (price : Int64) (level : PriceLevel) : PriceLevelSnapshot :=
  ⟨⟨price⟩, level.totalQuantity, level.orders.map orderView⟩

/-- `snapshot`. -/
def snapshot (b : LimitOrderBook) : BookSnapshot where
  bids := b.bidLevels.entries.map fun e => levelSnapshot e.1 e.2
  asks := b.askLevels.entries.map fun e => levelSnapshot e.1 e.2

/-- `order_ids_at_price`. -/
def orderIdsAtPrice (b : LimitOrderBook) (side : Side) (price : Price) : List OrderId :=
  match b.findLevel side price with
  | none => []
  | some level => level.orders.map fun node => node.entry.orderId

/-- `events_applied`. -/
def eventsApplied (b : LimitOrderBook) : ℕ := b.stats.eventsApplied

/-- `live_order_count`. -/
def liveOrderCount (b : LimitOrderBook) : ℕ := b.orderLookup.keys.card

/-! ### The invariant check -/

/-- The loop of `validate_level` over a queue, with the running total and the ids seen so
far; `none` is the early `return false`. -/
def validateOrders (b : LimitOrderBook) (side : Side) (price : Int64) :
    List QueueNode → UInt64 → Finset UInt64 → Option (UInt64 × Finset UInt64)
  | [], total, seen => some (total, seen)
  | node :: rest, total, seen =>
      let order := node.entry
      if order.quantity.units = 0 then none
      else if order.orderId.value ∈ seen then none
      else
        match b.orderLookup.lookup order.orderId.value with
        | none => none
        | some record =>
            if record.side ≠ side then none
            else if record.price.ticks ≠ price then none
            else if record.quantity ≠ order.quantity then none
            else if record.timestamp ≠ order.timestamp then none
            else if record.iterator ≠ node.address then none
            else
              validateOrders b side price rest (total + order.quantity.units)
                (insert order.orderId.value seen)

/-- `validate_level`: the ids seen afterwards, or `none` when a check fails. -/
def validateLevel (b : LimitOrderBook) (side : Side) (price : Int64) (level : PriceLevel)
    (seen : Finset UInt64) : Option (Finset UInt64) :=
  if level.orders = [] then none
  else
    (b.validateOrders side price level.orders 0 seen).bind fun r =>
      if r.1 = level.totalQuantity.units then some r.2 else none

/-- The last loop of `validate_invariants`: every record was seen and its level exists. -/
def validateLookup (b : LimitOrderBook) (seen : Finset UInt64) : Bool :=
  ∀ e ∈ b.orderLookup.entries, e.1 ∈ seen ∧ (b.findLevel e.2.side e.2.price).isSome

/-- `validate_invariants`. -/
def validateInvariants (b : LimitOrderBook) (options : InvariantOptions) : Bool :=
  if !options.allowCrossedBook && b.toBookLevels.crossed then false
  else if !BookLevels.topMatches makePriceLevelView b.bidLevels.entries b.topOfBook.bid then false
  else if !BookLevels.topMatches makePriceLevelView b.askLevels.entries b.topOfBook.ask then false
  else
    match b.toBookLevels.validateLevels b.validateLevel with
    | none => false
    | some seen =>
        if seen.card ≠ b.orderLookup.keys.card then false
        else b.validateLookup seen

end LimitOrderBook

end Datagine
