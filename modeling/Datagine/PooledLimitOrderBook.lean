import Mathlib.Data.Finmap
import Datagine.Levels
import Datagine.Lib.LinkedChain
import Datagine.PriceTime

/-!
# The Pooled Limit Order Book

The model of `book/pooled_limit_order_book.cpp`. The queue of a price level is not a list
of its own: all orders of all levels live in one array `nodes` of fixed size, and the nodes
of a level are linked by index through `prev` and `next`, with `npos` as the null index.
Free indices are kept in a stack. A level stores the ends of its chain and its length.

Reading an array element beyond its size is undefined in the source. The views that walk a
chain return `none` when the walk leaves the array or does not reach `npos` within
`nodes.size()` hops, which no finite chain needs; the updates leave the array unchanged. The
representation invariant of `Datagine.PooledLimitOrderBookRefines` shows that neither
happens in a reachable state.
-/

namespace Datagine

/-- The null index: the largest value of `std::size_t`. -/
def npos : ℕ := 2 ^ 64 - 1

/-- A slot of the pool; the defaults are those of a free slot. -/
structure OrderNode where
  orderId : OrderId := ⟨0⟩
  timestamp : Timestamp := ⟨0⟩
  quantity : Quantity := ⟨0⟩
  prev : ℕ := npos
  next : ℕ := npos
  active : Bool := false
  deriving DecidableEq, Repr

/-- The slot at an index; the default node stands in for an index out of range. -/
def nodeAt (nodes : List OrderNode) (index : ℕ) : OrderNode := nodes.getD index {}

namespace PooledLimitOrderBook

/-- A price level: the cached total and the length and ends of its chain. -/
structure PriceLevel where
  totalQuantity : Quantity := ⟨0⟩
  orderCount : ℕ := 0
  head : ℕ := npos
  tail : ℕ := npos
  deriving DecidableEq, Repr

/-- What the lookup stores for a live order. -/
structure OrderRecord where
  side : Side
  price : Price
  timestamp : Timestamp
  quantity : Quantity
  nodeIndex : ℕ
  deriving DecidableEq, Repr

/-- The statistics of a book. -/
structure Stats where
  eventsApplied : ℕ := 0
  deriving DecidableEq, Repr

end PooledLimitOrderBook

/-- The state of a `PooledLimitOrderBook`; the last element of `freeIndices` is the top of
the stack. -/
structure PooledLimitOrderBook extends BookLevels PooledLimitOrderBook.PriceLevel where
  nodes : List OrderNode
  freeIndices : List ℕ
  orderLookup : Finmap fun _ : UInt64 => PooledLimitOrderBook.OrderRecord
  stats : PooledLimitOrderBook.Stats

namespace PooledLimitOrderBook

/-- `reset_free_list`: every node becomes a default node and every index is free, the
lowest on top. -/
def resetFreeList (b : PooledLimitOrderBook) : PooledLimitOrderBook :=
  { b with
    nodes := b.nodes.map fun _ => {}
    freeIndices := (List.range b.nodes.length).reverse }

/-- The constructor, with `max_live_orders` slots. -/
def new (maxLiveOrders : UInt64) : PooledLimitOrderBook :=
  resetFreeList ⟨.empty, List.replicate maxLiveOrders.toNat {}, [], ∅, {}⟩

/-- `capacity`. -/
def capacity (b : PooledLimitOrderBook) : ℕ := b.nodes.length

/-- `find_level`: the level at a price, if it exists. -/
def findLevel (b : PooledLimitOrderBook) (side : Side) (price : Price) : Option PriceLevel :=
  b.toBookLevels.find side price

/-- Count an accepted event. -/
def countApplied (b : PooledLimitOrderBook) : PooledLimitOrderBook :=
  { b with stats := { eventsApplied := b.stats.eventsApplied + 1 } }

/-! ### The pool -/

/-- `allocate_node`: pop a free index, if there is one. -/
def allocateNode (b : PooledLimitOrderBook) : Option (ℕ × PooledLimitOrderBook) :=
  match b.freeIndices.getLast? with
  | none => none
  | some index => some (index, { b with freeIndices := b.freeIndices.dropLast })

/-- `release_node`: reset a slot and push its index. -/
def releaseNode (b : PooledLimitOrderBook) (nodeIndex : ℕ) : PooledLimitOrderBook :=
  { b with
    nodes := b.nodes.set nodeIndex {}
    freeIndices := b.freeIndices ++ [nodeIndex] }

/-- `append_node`: link a slot at the end of a level's chain. -/
def appendNode (nodes : List OrderNode) (level : PriceLevel) (nodeIndex : ℕ) :
    List OrderNode × PriceLevel :=
  let nodes := nodes.modify nodeIndex fun node => { node with prev := level.tail, next := npos }
  let linked :=
    if level.tail ≠ npos then
      (nodes.modify level.tail fun node => { node with next := nodeIndex }, level)
    else (nodes, { level with head := nodeIndex })
  (linked.1, { linked.2 with tail := nodeIndex, orderCount := linked.2.orderCount + 1 })

/-- `unlink_node`: take a slot out of a level's chain. -/
def unlinkNode (nodes : List OrderNode) (level : PriceLevel) (nodeIndex : ℕ) :
    List OrderNode × PriceLevel :=
  let prev := (nodeAt nodes nodeIndex).prev
  let next := (nodeAt nodes nodeIndex).next
  let before :=
    if prev ≠ npos then (nodes.modify prev fun node => { node with next := next }, level)
    else (nodes, { level with head := next })
  let after :=
    if next ≠ npos then
      (before.1.modify next fun node => { node with prev := prev }, before.2)
    else (before.1, { before.2 with tail := prev })
  (after.1, { after.2 with orderCount := after.2.orderCount - 1 })

/-! ### The operations -/

/-- `add_order`. -/
def addOrder (b : PooledLimitOrderBook) (orderId : OrderId) (side : Side) (price : Price)
    (quantity : Quantity) (timestamp : Timestamp) : BookResult × PooledLimitOrderBook :=
  if quantity.units = 0 then (.invalidQuantity, b)
  else if orderId.value ∈ b.orderLookup then (.duplicateOrderId, b)
  else
    match b.allocateNode with
    | none => (.capacityExceeded, b)
    | some (nodeIndex, b) =>
        -- `levels[price.ticks]` creates an empty level when the price is new
        let level := (b.findLevel side price).getD {}
        let nodes := b.nodes.modify nodeIndex fun node =>
          { node with
            orderId := orderId, timestamp := timestamp, quantity := quantity, active := true }
        let (nodes, level) := appendNode nodes level nodeIndex
        let level : PriceLevel :=
          { level with totalQuantity := ⟨level.totalQuantity.units + quantity.units⟩ }
        let record : OrderRecord := ⟨side, price, timestamp, quantity, nodeIndex⟩
        let b : PooledLimitOrderBook := { b with
          nodes := nodes
          toBookLevels := b.toBookLevels.upsert side price {} fun _ => level
          orderLookup := b.orderLookup.insert orderId.value record }
        (.applied, b.countApplied)

/-- A level whose chain became empty is erased from its map. -/
def PriceLevel.unlessEmpty (level : PriceLevel) : Option PriceLevel :=
  if level.orderCount = 0 then none else some level

/-- `remove_existing_order`, at the lookup entry of `orderId`. -/
def removeExistingOrder (b : PooledLimitOrderBook) (orderId : OrderId) (record : OrderRecord) :
    PooledLimitOrderBook :=
  match b.findLevel record.side record.price with
  | none => { b with orderLookup := b.orderLookup.erase orderId.value }
  | some level =>
      let level : PriceLevel :=
        { level with
          totalQuantity := ⟨level.totalQuantity.units - record.quantity.units⟩ }
      let (nodes, level) := unlinkNode b.nodes level record.nodeIndex
      let b := { b with nodes := nodes }.releaseNode record.nodeIndex
      { b with
        toBookLevels := b.toBookLevels.alter record.side record.price fun _ => level.unlessEmpty
        orderLookup := b.orderLookup.erase orderId.value }

/-- `cancel_order`. -/
def cancelOrder (b : PooledLimitOrderBook) (orderId : OrderId) :
    BookResult × PooledLimitOrderBook :=
  match b.orderLookup.lookup orderId.value with
  | none => (.missingOrderId, b)
  | some record => (.applied, (b.removeExistingOrder orderId record).countApplied)

/-- The common tail of `modify_order` and `execute_order`: lower the level total by
`reduction` and write `newQuantity` to the record and to the node. -/
def reduceOrder (b : PooledLimitOrderBook) (orderId : OrderId) (record : OrderRecord)
    (reduction : UInt64) (newQuantity : Quantity) : PooledLimitOrderBook :=
  { b with
    toBookLevels := b.toBookLevels.modify record.side record.price fun level =>
      { level with totalQuantity := ⟨level.totalQuantity.units - reduction⟩ }
    orderLookup := b.orderLookup.insert orderId.value { record with quantity := newQuantity }
    nodes := b.nodes.modify record.nodeIndex fun node => { node with quantity := newQuantity } }

/-- `modify_order`. -/
def modifyOrder (b : PooledLimitOrderBook) (orderId : OrderId) (newQuantity : Quantity) :
    BookResult × PooledLimitOrderBook :=
  if newQuantity.units = 0 then (.invalidQuantity, b)
  else
    match b.orderLookup.lookup orderId.value with
    | none => (.missingOrderId, b)
    | some record =>
        if newQuantity.units > record.quantity.units then (.unsupportedModify, b)
        else if newQuantity.units = record.quantity.units then (.applied, b.countApplied)
        else
          let reduction := record.quantity.units - newQuantity.units
          (.applied, (b.reduceOrder orderId record reduction newQuantity).countApplied)

/-- `execute_order`. -/
def executeOrder (b : PooledLimitOrderBook) (orderId : OrderId) (executedQuantity : Quantity) :
    BookResult × PooledLimitOrderBook :=
  if executedQuantity.units = 0 then (.invalidQuantity, b)
  else
    match b.orderLookup.lookup orderId.value with
    | none => (.missingOrderId, b)
    | some record =>
        if executedQuantity.units > record.quantity.units then (.insufficientQuantity, b)
        else if executedQuantity.units = record.quantity.units then
          (.applied, (b.removeExistingOrder orderId record).countApplied)
        else
          let remaining : Quantity := ⟨record.quantity.units - executedQuantity.units⟩
          (.applied,
            (b.reduceOrder orderId record executedQuantity.units remaining).countApplied)

/-- `apply`: dispatch on the type of the event. -/
def apply (b : PooledLimitOrderBook) (event : MarketEvent) :
    BookResult × PooledLimitOrderBook :=
  match event.type with
  | .add => b.addOrder event.orderId event.side event.price event.quantity event.timestamp
  | .modify => b.modifyOrder event.orderId event.quantity
  | .cancel => b.cancelOrder event.orderId
  | .execute => b.executeOrder event.orderId event.quantity

/-- `clear`. -/
def clear (b : PooledLimitOrderBook) : PooledLimitOrderBook :=
  resetFreeList { b with toBookLevels := .empty, orderLookup := ∅, stats := {} }

/-- Any one operation of the interface; `clear` answers nothing. -/
def exec (b : PooledLimitOrderBook) : BookOp → Option BookResult × PooledLimitOrderBook
  | .addOrder id side price quantity timestamp =>
      let r := b.addOrder id side price quantity timestamp
      (some r.1, r.2)
  | .cancelOrder id =>
      let r := b.cancelOrder id
      (some r.1, r.2)
  | .modifyOrder id q =>
      let r := b.modifyOrder id q
      (some r.1, r.2)
  | .executeOrder id q =>
      let r := b.executeOrder id q
      (some r.1, r.2)
  | .clear => (none, b.clear)

/-! ### The views -/

/-- `make_price_level_view`. -/
def makePriceLevelView (price : Int64) (level : PriceLevel) : PriceLevelView :=
  ⟨⟨price⟩, level.totalQuantity, level.orderCount⟩

/-- `top_of_book`. -/
def topOfBook (b : PooledLimitOrderBook) : TopOfBook := b.toBookLevels.top makePriceLevelView

/-- `depth`: the first `n` levels of each side. -/
def depth (b : PooledLimitOrderBook) (n : ℕ) : BookDepth :=
  b.toBookLevels.depth makePriceLevelView n

/-- The indices visited by `for (index = level.head; index != npos; index = next)`. -/
def chain (b : PooledLimitOrderBook) (level : PriceLevel) : Option (List ℕ) :=
  LinkedChain.walk (fun index => b.nodes[index]?.map OrderNode.next) npos b.nodes.length
    level.head

/-- A node as a snapshot shows it. -/
def orderView (node : OrderNode) : OrderView := ⟨node.orderId, node.timestamp, node.quantity⟩

/-- A level as a snapshot shows it. -/
def levelSnapshot (b : PooledLimitOrderBook) (price : Int64) (level : PriceLevel) :
    Option PriceLevelSnapshot :=
  (b.chain level).map fun indices =>
    ⟨⟨price⟩, level.totalQuantity, indices.map fun index => orderView (nodeAt b.nodes index)⟩

/-- `snapshot`. -/
def snapshot (b : PooledLimitOrderBook) : Option BookSnapshot :=
  (b.bidLevels.entries.mapM fun e => b.levelSnapshot e.1 e.2).bind fun bids =>
    (b.askLevels.entries.mapM fun e => b.levelSnapshot e.1 e.2).map fun asks => ⟨bids, asks⟩

/-- `order_ids_at_price`. -/
def orderIdsAtPrice (b : PooledLimitOrderBook) (side : Side) (price : Price) :
    Option (List OrderId) :=
  match b.findLevel side price with
  | none => some []
  | some level =>
      (b.chain level).map fun indices => indices.map fun index => (nodeAt b.nodes index).orderId

/-- `events_applied`. -/
def eventsApplied (b : PooledLimitOrderBook) : ℕ := b.stats.eventsApplied

/-- `live_order_count`. -/
def liveOrderCount (b : PooledLimitOrderBook) : ℕ := b.orderLookup.keys.card

/-! ### The invariant check -/

/-- What `validate_level` has gathered when its loop ends. -/
structure ChainSummary where
  previous : ℕ
  total : UInt64
  visited : ℕ
  seen : Finset UInt64

/-- The loop of `validate_level` along a chain; `none` is the early `return false`. It
ends even on a cyclic chain: every iteration but the last sees a new id of the lookup. -/
def validateNodes (b : PooledLimitOrderBook) (side : Side) (price : Int64) (index : ℕ)
    (acc : ChainSummary) : Option ChainSummary :=
  if index = npos then some acc
  else
    match b.nodes[index]? with
    | none => none
    | some node =>
        if !node.active then none
        else if node.prev ≠ acc.previous then none
        else if node.quantity.units = 0 then none
        else if node.orderId.value ∈ acc.seen then none
        else
          match hlookup : b.orderLookup.lookup node.orderId.value with
          | none => none
          | some record =>
              if record.side ≠ side then none
              else if record.price.ticks ≠ price then none
              else if record.quantity ≠ node.quantity then none
              else if record.timestamp ≠ node.timestamp then none
              else if record.nodeIndex ≠ index then none
              else
                validateNodes b side price node.next
                  ⟨index, acc.total + node.quantity.units, acc.visited + 1,
                    insert node.orderId.value acc.seen⟩
  termination_by (b.orderLookup.keys \ acc.seen).card
  decreasing_by
    have hkey : node.orderId.value ∈ b.orderLookup.keys :=
      Finmap.mem_keys.mpr (Finmap.mem_of_lookup_eq_some hlookup)
    refine Finset.card_lt_card (Finset.ssubset_iff_of_subset ?_ |>.mpr ?_)
    · exact Finset.sdiff_subset_sdiff (Finset.Subset.refl _) (Finset.subset_insert _ _)
    · exact ⟨_, Finset.mem_sdiff.mpr ⟨hkey, by assumption⟩, by simp⟩

/-- `validate_level`: the ids seen afterwards, or `none` when a check fails. -/
def validateLevel (b : PooledLimitOrderBook) (side : Side) (price : Int64)
    (level : PriceLevel) (seen : Finset UInt64) : Option (Finset UInt64) :=
  if level.orderCount = 0 ∨ level.head = npos ∨ level.tail = npos then none
  else
    (b.validateNodes side price level.head ⟨npos, 0, 0, seen⟩).bind fun acc =>
      if acc.previous ≠ level.tail then none
      else if acc.visited = level.orderCount ∧ acc.total = level.totalQuantity.units then
        some acc.seen
      else none

/-- The last loop of `validate_invariants`: every record was seen, its node is active and
its level exists. -/
def validateLookup (b : PooledLimitOrderBook) (seen : Finset UInt64) : Bool :=
  ∀ e ∈ b.orderLookup.entries, e.1 ∈ seen ∧
    (b.nodes[e.2.nodeIndex]?.any OrderNode.active) = true ∧
    (b.findLevel e.2.side e.2.price).isSome

/-- `validate_invariants`. -/
def validateInvariants (b : PooledLimitOrderBook) (options : InvariantOptions) : Bool :=
  if !options.allowCrossedBook && b.toBookLevels.crossed then false
  else if !BookLevels.topMatches makePriceLevelView b.bidLevels.entries b.topOfBook.bid then false
  else if !BookLevels.topMatches makePriceLevelView b.askLevels.entries b.topOfBook.ask then false
  else
    match b.toBookLevels.validateLevels b.validateLevel with
    | none => false
    | some seen =>
        if seen.card ≠ b.orderLookup.keys.card then false
        else b.validateLookup seen

end PooledLimitOrderBook

end Datagine
