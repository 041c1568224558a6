import Datagine.LevelViews
import Datagine.LimitOrderBook

/-!
# The Limit Order Book Represents a Live List

`LimitOrderBook.Represents b A` says that the levels and the lookup of `b` are those of
the resting orders `A`: the queue at each price is the sublist of `A` of that side and
price, node for node, with the wrapped sum of its quantities as cached total; the record
of an id is a copy of its order, with the address of its node.

Each operation either leaves the book alone or performs one of the three edits of
`RestingOrders`, and then the new book represents the edited list (`represents_addOrder`,
`represents_removeExistingOrder`, `represents_reduceOrder`). Read against the reference
rules this is one step of a simulation (`exec_refines`).
-/

namespace Datagine

open KeyedList

namespace LimitOrderBook

variable {b : LimitOrderBook} {A : RestingOrders} {o : Resting}

/-! ### Representation -/

/-- The queue node of a resting order; its handle is the address. -/
def nodeOf (o : Resting) : QueueNode := ⟨o.handle, ⟨o.orderId, o.timestamp, o.quantity⟩⟩

/-- The lookup record of a resting order. -/
def recordOf (o : Resting) : OrderRecord := ⟨o.side, o.price, o.timestamp, o.quantity, o.handle⟩

/-- The record of an order holds its quantity. -/
@[simp] theorem recordOf_quantity (o : Resting) : (recordOf o).quantity = o.quantity := (rfl)

/-- The price level of a queue; an empty queue has no level. -/
def levelOf (Q : List Resting) : Option PriceLevel :=
  if Q = [] then none
  else some ⟨totalQuantity (Q.map Resting.toLiveOrder), Q.map nodeOf⟩

/-- The book holds exactly the resting orders `A`. -/
structure Represents (b : LimitOrderBook) (A : RestingOrders) : Prop where
  fresh : ∀ o ∈ A.orders, o.handle < b.nextNode
  level : ∀ s p, b.findLevel s p = levelOf (A.queue s p)
  lookup : ∀ id : OrderId, b.orderLookup.lookup id.value = (A.find id).map recordOf

/-- A new book represents no orders. -/
theorem represents_empty : Represents empty .empty where
  fresh := by simp [RestingOrders.empty]
  level s p := BookLevels.find_empty s p
  lookup id := rfl

/-- Counting an event changes neither the levels nor the lookup. -/
theorem Represents.countApplied (h : Represents b A) : Represents b.countApplied A where
  fresh := h.fresh
  level := h.level
  lookup := h.lookup

/-- The level that a live order's record names exists, and holds the order's queue. -/
theorem Represents.findLevel_of_find (h : Represents b A) {id : OrderId}
    (ho : A.find id = some o) :
    o ∈ A.queue o.side o.price ∧
      b.findLevel o.side o.price =
        some ⟨totalQuantity ((A.queue o.side o.price).map Resting.toLiveOrder),
          (A.queue o.side o.price).map nodeOf⟩ := by
  obtain ⟨hmem, -⟩ := RestingOrders.find_eq_some_iff.mp ho
  have hq : o ∈ A.queue o.side o.price := RestingOrders.mem_queue.mpr ⟨hmem, rfl, rfl⟩
  refine ⟨hq, ?_⟩
  rw [h.level, levelOf, if_neg (List.ne_nil_of_mem hq)]

/-- An order at the back of a queue is an order at the back of its level. -/
theorem levelOf_append (Q : List Resting) (o : Resting) :
    levelOf (Q ++ [o]) = some (((levelOf Q).getD {}).pushBack (nodeOf o)) := by
  have htotal : totalQuantity ((Q ++ [o]).map Resting.toLiveOrder) =
      ⟨(totalQuantity (Q.map Resting.toLiveOrder)).units + o.quantity.units⟩ := by
    rw [List.map_append, List.map_singleton, ← totalQuantity_append]
  rw [levelOf, if_neg (by simp), htotal]
  by_cases hQ : Q = []
  · subst hQ
    rfl
  · simp [levelOf, hQ, PriceLevel.pushBack, nodeOf]

/-! ### The three edits -/

/-- **Accepting an order.** -/
theorem represents_addOrder (h : Represents b A) (id : OrderId) (side : Side) (price : Price)
    (quantity : Quantity) (timestamp : Timestamp) (hq : quantity.units ≠ 0)
    (hid : A.find id = none) (hhandle : b.nextNode ∉ A.orders.map fun o => o.handle) :
    (b.addOrder id side price quantity timestamp).1 = .applied ∧
      Represents (b.addOrder id side price quantity timestamp).2
        (A.push ⟨⟨id, side, price, timestamp, quantity⟩, b.nextNode⟩ hid hhandle hq) := by
  have hnone : b.orderLookup.lookup id.value = none := by rw [h.lookup, hid, Option.map_none]
  have hnot : id.value ∉ b.orderLookup := Finmap.lookup_eq_none.mp hnone
  simp only [addOrder, if_neg hq, if_neg hnot]
  refine ⟨trivial, Represents.countApplied ⟨?_, ?_, ?_⟩⟩
  · intro o ho
    rcases List.mem_append.mp ho with hmem | hmem
    · have := h.fresh o hmem
      dsimp only
      omega
    · obtain rfl := List.mem_singleton.mp hmem
      simp
  · intro s p
    rw [RestingOrders.queue_push, findLevel, BookLevels.find_upsert]
    by_cases hsp : side = s ∧ price = p
    · obtain ⟨rfl, rfl⟩ := hsp
      have hlevel := h.level side price
      rw [findLevel] at hlevel
      rw [if_pos ⟨rfl, rfl⟩, if_pos ⟨rfl, rfl⟩, levelOf_append, hlevel]
      rfl
    · rw [if_neg hsp, if_neg hsp]
      exact h.level s p
  · intro id'
    rw [RestingOrders.find_push]
    by_cases hid' : id' = id
    · subst hid'
      rw [if_pos rfl, Finmap.lookup_insert]
      rfl
    · rw [if_neg hid', Finmap.lookup_insert_of_ne _ (value_ne hid'), h.lookup]

/-- Erasing through the address of an order's node erases the order from its queue. -/
theorem eraseKey_map_nodeOf (A : RestingOrders) (s : Side) (p : Price) (ho : o ∈ A.queue s p) :
    eraseKey QueueNode.address o.handle ((A.queue s p).map nodeOf) =
      (eraseKey (fun o : Resting => o.orderId) o.orderId (A.queue s p)).map nodeOf := by
  rw [eraseKey_eq_eraseKey (A.queue_idsNodup s p) (A.queue_handlesNodup s p) ho]
  exact (map_eraseKey (g := nodeOf) fun _ => rfl).symm

/-- Taking an order out of its level leaves the level of the shorter queue. -/
theorem removeOrder_levelOf (A : RestingOrders) (ho : o ∈ A.queue o.side o.price) :
    PriceLevel.removeOrder (recordOf o)
        ⟨totalQuantity ((A.queue o.side o.price).map Resting.toLiveOrder),
          (A.queue o.side o.price).map nodeOf⟩ =
      levelOf (eraseKey (fun o : Resting => o.orderId) o.orderId (A.queue o.side o.price)) := by
  have herase := eraseKey_map_nodeOf A _ _ ho
  have htotal := totalQuantity_eraseKey (A.queue_idsNodup _ _) ho
  have hlevel : PriceLevel.eraseOrder (recordOf o)
        ⟨totalQuantity ((A.queue o.side o.price).map Resting.toLiveOrder),
          (A.queue o.side o.price).map nodeOf⟩ =
      ⟨totalQuantity ((eraseKey (fun o : Resting => o.orderId) o.orderId
          (A.queue o.side o.price)).map Resting.toLiveOrder),
        (eraseKey (fun o : Resting => o.orderId) o.orderId (A.queue o.side o.price)).map
          nodeOf⟩ := by
    rw [PriceLevel.eraseOrder]
    simp only [recordOf, ← htotal, herase]
  rw [PriceLevel.removeOrder, hlevel]
  simp only [List.map_eq_nil_iff, levelOf]

/-- **Removing an order.** -/
theorem represents_removeExistingOrder (h : Represents b A) {id : OrderId}
    (ho : A.find id = some o) :
    Represents (b.removeExistingOrder id (recordOf o)) (A.remove id) where
  fresh a ha := h.fresh a (mem_eraseKey.mp ha).1
  level s p := by
    obtain ⟨hmem, hlevel⟩ := h.findLevel_of_find ho
    obtain ⟨-, rfl⟩ := RestingOrders.find_eq_some_iff.mp ho
    rw [findLevel] at hlevel
    rw [findLevel, removeExistingOrder, BookLevels.find_alter, RestingOrders.queue_remove]
    by_cases hsp : (recordOf o).side = s ∧ (recordOf o).price = p
    · obtain ⟨rfl, rfl⟩ := hsp
      rw [if_pos ⟨rfl, rfl⟩]
      exact (congrArg (Option.bind · _) hlevel).trans (removeOrder_levelOf A hmem)
    · rw [if_neg hsp, eraseKey_of_not_mem (RestingOrders.not_mem_queue_of_ne ho hsp)]
      exact h.level s p
  lookup id' := by
    rw [RestingOrders.find_remove, removeExistingOrder]
    by_cases hid' : id' = id
    · subst hid'
      rw [if_pos rfl, Finmap.lookup_erase, Option.map_none]
    · rw [if_neg hid', Finmap.lookup_erase_ne (value_ne hid'), h.lookup]

/-- Writing through the address of an order's node rewrites the order in its queue. -/
theorem updateKey_map_nodeOf (A : RestingOrders) (s : Side) (p : Price) (ho : o ∈ A.queue s p)
    (q : Quantity) :
    updateKey QueueNode.address o.handle
        (fun node => { node with entry := { node.entry with quantity := q } })
        ((A.queue s p).map nodeOf) =
      (updateKey (fun o : Resting => o.orderId) o.orderId (Resting.withQuantity q)
        (A.queue s p)).map nodeOf := by
  rw [updateKey_eq_updateKey (A.queue_idsNodup s p) (A.queue_handlesNodup s p) ho]
  exact (map_updateKey (f := Resting.withQuantity q) (g := nodeOf) (fun _ => rfl)
    fun _ => rfl).symm

/-- Lowering an order in its level gives the level of the changed queue. -/
theorem reduceOrder_levelOf (A : RestingOrders) (ho : o ∈ A.queue o.side o.price)
    {reduction : UInt64} {q : Quantity} (hred : reduction + q.units = o.quantity.units) :
    some (PriceLevel.reduceOrder o.handle reduction q
        ⟨totalQuantity ((A.queue o.side o.price).map Resting.toLiveOrder),
          (A.queue o.side o.price).map nodeOf⟩) =
      levelOf (updateKey (fun o : Resting => o.orderId) o.orderId (Resting.withQuantity q)
        (A.queue o.side o.price)) := by
  have hne : updateKey (fun o : Resting => o.orderId) o.orderId (Resting.withQuantity q)
      (A.queue o.side o.price) ≠ [] := by
    simpa [updateKey] using List.ne_nil_of_mem ho
  have htotal := totalQuantity_updateKey (A.queue_idsNodup _ _) ho hred
  rw [levelOf, if_neg hne, PriceLevel.reduceOrder]
  simp only [← htotal, updateKey_map_nodeOf A _ _ ho]

/-- **Lowering a quantity.** The level total and the order go down by the same amount. -/
theorem represents_reduceOrder (h : Represents b A) {id : OrderId} (ho : A.find id = some o)
    {reduction : UInt64} {q : Quantity} (hq : q.units ≠ 0)
    (hred : reduction + q.units = o.quantity.units) :
    Represents (b.reduceOrder id (recordOf o) reduction q) (A.setQuantity id q hq) where
  fresh a ha := by
    rcases mem_updateKey.mp ha with ⟨hmem, -⟩ | ⟨a', hmem, -, rfl⟩
    · exact h.fresh a hmem
    · exact h.fresh a' hmem
  level s p := by
    obtain ⟨hmem, hlevel⟩ := h.findLevel_of_find ho
    obtain ⟨-, rfl⟩ := RestingOrders.find_eq_some_iff.mp ho
    rw [findLevel] at hlevel
    rw [findLevel, reduceOrder, BookLevels.find_modify, RestingOrders.queue_setQuantity]
    by_cases hsp : (recordOf o).side = s ∧ (recordOf o).price = p
    · obtain ⟨rfl, rfl⟩ := hsp
      rw [if_pos ⟨rfl, rfl⟩]
      exact (congrArg (Option.map _) hlevel).trans (reduceOrder_levelOf A hmem hred)
    · rw [if_neg hsp, updateKey_of_not_mem (RestingOrders.not_mem_queue_of_ne ho hsp)]
      exact h.level s p
  lookup id' := by
    rw [RestingOrders.find_setQuantity, reduceOrder]
    by_cases hid' : id' = id
    · subst hid'
      rw [if_pos rfl, Finmap.lookup_insert, ho]
      rfl
    · rw [if_neg hid', Finmap.lookup_insert_of_ne _ (value_ne hid'), h.lookup]

/-! ### The operations against the reference rules -/

/-- The lookup has the ids of the live orders. -/
theorem Represents.mem_orderLookup_iff (h : Represents b A) {id : OrderId} :
    id.value ∈ b.orderLookup ↔ id ∈ A.live.map LiveOrder.orderId := by
  rw [← not_iff_not, ← Finmap.lookup_eq_none, h.lookup, Option.map_eq_none_iff,
    RestingOrders.find_eq_none_iff]

/-- `add_order` refines its rule. -/
theorem addOrder_refines (h : Represents b A) (id : OrderId) (side : Side) (price : Price)
    (quantity : Quantity) (timestamp : Timestamp) :
    StepRefines Represents (b.addOrder id side price quantity timestamp)
      (Reference.addOrder A.live id side price quantity timestamp) := by
  by_cases hq : quantity.units = 0
  · simp only [addOrder, Reference.addOrder, if_pos hq]
    exact ⟨rfl, A, h, rfl⟩
  by_cases hid : id ∈ A.live.map LiveOrder.orderId
  · have hmem := h.mem_orderLookup_iff.mpr hid
    simp only [addOrder, Reference.addOrder, if_neg hq, if_pos hid, if_pos hmem]
    exact ⟨rfl, A, h, rfl⟩
  · have hfind : A.find id = none := RestingOrders.find_eq_none_iff.mpr hid
    have hhandle : b.nextNode ∉ A.orders.map fun o => o.handle := by
      intro hmem
      obtain ⟨o, ho, heq⟩ := List.mem_map.mp hmem
      have := h.fresh o ho
      omega
    obtain ⟨hres, hrep⟩ :=
      represents_addOrder h id side price quantity timestamp hq hfind hhandle
    refine ⟨?_, _, hrep, ?_⟩
    · rw [hres, Reference.addOrder, if_neg hq, if_neg hid]
    · rw [RestingOrders.live_push, Reference.addOrder, if_neg hq, if_neg hid]

/-- `cancel_order` refines its rule. -/
theorem cancelOrder_refines (h : Represents b A) (id : OrderId) :
    StepRefines Represents (b.cancelOrder id) (Reference.cancelOrder A.live id) := by
  refine StepRefines.cancelOrder h (fun hfind => ?_) (fun o hfind => ?_)
  · simp only [cancelOrder, h.lookup, hfind, Option.map_none]
  · simp only [cancelOrder, h.lookup, hfind, Option.map_some]
    exact ⟨trivial, (represents_removeExistingOrder h hfind).countApplied⟩

/-- `modify_order` refines its rule. -/
theorem modifyOrder_refines (h : Represents b A) (id : OrderId) (q : Quantity) :
    StepRefines Represents (b.modifyOrder id q) (Reference.modifyOrder A.live id q) := by
  refine StepRefines.modifyOrder h (fun hq => ?_) (fun hq hfind => ?_)
    (fun o hq hfind hgt => ?_) (fun o hq hfind heq => ?_) (fun o hq hfind hlt hred => ?_)
  · simp only [modifyOrder, if_pos hq]
  · simp only [modifyOrder, if_neg hq, h.lookup, hfind, Option.map_none]
  · simp only [modifyOrder, if_neg hq, h.lookup, hfind, Option.map_some, recordOf_quantity,
      if_pos hgt]
  · have hng : ¬o.quantity.units < q.units := heq ▸ UInt64.lt_irrefl _
    simp only [modifyOrder, if_neg hq, h.lookup, hfind, Option.map_some, recordOf_quantity,
      gt_iff_lt, if_neg hng, if_pos heq]
    exact ⟨trivial, h.countApplied⟩
  · simp only [modifyOrder, if_neg hq, h.lookup, hfind, Option.map_some, recordOf_quantity,
      gt_iff_lt, if_neg (UInt64.lt_asymm hlt), if_neg (UInt64.ne_of_lt hlt)]
    exact ⟨trivial, (represents_reduceOrder h hfind hq hred).countApplied⟩

/-- `execute_order` refines its rule. -/
theorem executeOrder_refines (h : Represents b A) (id : OrderId) (q : Quantity) :
    StepRefines Represents (b.executeOrder id q) (Reference.executeOrder A.live id q) := by
  refine StepRefines.executeOrder h (fun hq => ?_) (fun hq hfind => ?_)
    (fun o hq hfind hgt => ?_) (fun o hq hfind heq => ?_) (fun o hq hfind hlt hrem hred => ?_)
  · simp only [executeOrder, if_pos hq]
  · simp only [executeOrder, if_neg hq, h.lookup, hfind, Option.map_none]
  · simp only [executeOrder, if_neg hq, h.lookup, hfind, Option.map_some, recordOf_quantity,
      if_pos hgt]
  · have hng : ¬o.quantity.units < q.units := heq ▸ UInt64.lt_irrefl _
    simp only [executeOrder, if_neg hq, h.lookup, hfind, Option.map_some, recordOf_quantity,
      gt_iff_lt, if_neg hng, if_pos heq]
    exact ⟨trivial, (represents_removeExistingOrder h hfind).countApplied⟩
  · simp only [executeOrder, if_neg hq, h.lookup, hfind, Option.map_some, recordOf_quantity,
      gt_iff_lt, if_neg (UInt64.lt_asymm hlt), if_neg (UInt64.ne_of_lt hlt)]
    exact ⟨trivial, (represents_reduceOrder h hfind hrem hred).countApplied⟩

/-- **One step of the simulation.** Whatever the operation and its arguments, the book
answers what the reference rules dictate and represents the list they leave. -/
theorem exec_refines (h : Represents b A) (op : BookOp) :
    StepRefines Represents (b.exec op) (Reference.exec A.live op) := by
  cases op with
  | addOrder id side price quantity timestamp =>
      obtain ⟨hres, hrep⟩ := addOrder_refines h id side price quantity timestamp
      exact ⟨congrArg some hres, hrep⟩
  | cancelOrder id =>
      obtain ⟨hres, hrep⟩ := cancelOrder_refines h id
      exact ⟨congrArg some hres, hrep⟩
  | modifyOrder id q =>
      obtain ⟨hres, hrep⟩ := modifyOrder_refines h id q
      exact ⟨congrArg some hres, hrep⟩
  | executeOrder id q =>
      obtain ⟨hres, hrep⟩ := executeOrder_refines h id q
      exact ⟨congrArg some hres, hrep⟩
  | clear => exact ⟨rfl, .empty, represents_empty, rfl⟩

/-! ### What the book shows -/

/-- A side of a snapshot shows the levels of the side. -/
theorem snapshot_side (b : LimitOrderBook) (s : Side) :
    b.snapshot.side s = (b.toBookLevels.entries s).map fun e => levelSnapshot e.1 e.2 := by
  cases s <;> rfl

/-- The top of book is that of the snapshot. -/
theorem topOfBook_eq (b : LimitOrderBook) : b.topOfBook = b.snapshot.top := by
  simp only [topOfBook, BookLevels.top, BookSnapshot.top, snapshot, List.head?_map,
    Option.map_map]
  congr <;> funext e <;>
    simp [makePriceLevelView, levelSnapshot, PriceLevelSnapshot.toView]

/-- The depth view is that of the snapshot. -/
theorem depth_eq (b : LimitOrderBook) (n : ℕ) : b.depth n = b.snapshot.depth n := by
  simp only [depth, BookLevels.depth, BookSnapshot.depth, snapshot, ← List.map_take,
    List.map_map]
  congr <;> funext e <;>
    simp [makePriceLevelView, levelSnapshot, PriceLevelSnapshot.toView]

/-- A level of a represented book shows the queue of its price. -/
theorem Represents.shownLevel (h : Represents b A) (s : Side) (p : Price) :
    (b.toBookLevels.find s p).map (levelSnapshot p.ticks) = Datagine.shownLevel A.live s p := by
  have hlevel := h.level s p
  rw [findLevel] at hlevel
  rw [hlevel, Datagine.shownLevel, ← A.map_queue s p, levelOf]
  simp only [List.map_eq_nil_iff]
  by_cases hnil : A.queue s p = []
  · rw [if_pos hnil, if_pos hnil, Option.map_none]
  · rw [if_neg hnil, if_neg hnil, Option.map_some, levelSnapshot, List.map_map, List.map_map]
    rfl

/-- **A represented book shows its live list** on both sides. -/
theorem Represents.showsSide (h : Represents b A) (s : Side) :
    ShowsSide A.live s (b.snapshot.side s) := by
  rw [snapshot_side]
  exact showsSide_entries h.shownLevel s

/-- `order_ids_at_price` lists the queue, front first. -/
theorem Represents.orderIdsAtPrice (h : Represents b A) (s : Side) (p : Price) :
    b.orderIdsAtPrice s p = (ordersAt A.live s p).map LiveOrder.orderId := by
  rw [LimitOrderBook.orderIdsAtPrice, h.level, levelOf, ← A.map_queue, List.map_map]
  by_cases hnil : A.queue s p = []
  · simp [hnil]
  · rw [if_neg hnil]
    simp only [List.map_map]
    rfl

/-- The keys of the lookup are the ids of the orders. -/
theorem Represents.keys_orderLookup (h : Represents b A) :
    b.orderLookup.keys = RestingOrders.idsOf A.orders := by
  ext x
  have hmem : x ∈ b.orderLookup ↔ OrderId.mk x ∈ A.live.map LiveOrder.orderId :=
    h.mem_orderLookup_iff
  rw [Finmap.mem_keys, hmem, A.mem_live_iff]

/-- `live_order_count` is the length of the live list. -/
theorem Represents.liveOrderCount (h : Represents b A) : b.liveOrderCount = A.live.length := by
  rw [LimitOrderBook.liveOrderCount, h.keys_orderLookup, RestingOrders.card_idsOf,
    RestingOrders.live, List.length_map]

/-! ### The invariant check accepts a represented book -/

/-- The queue loop accepts any part of a queue whose ids were not seen before. -/
theorem validateOrders_eq (h : Represents b A) {s : Side} {p : Price} {Q : List Resting}
    (hQ : ∀ o ∈ Q, o ∈ A.queue s p) (hnd : (Q.map fun o => o.orderId).Nodup)
    {seen : Finset UInt64} (hseen : ∀ o ∈ Q, o.orderId.value ∉ seen) (total : UInt64) :
    b.validateOrders s p.ticks (Q.map nodeOf) total seen =
      some (total + (totalQuantity (Q.map Resting.toLiveOrder)).units,
        seen ∪ RestingOrders.idsOf Q) := by
  induction Q generalizing total seen with
  | nil => simp [validateOrders, totalQuantity, totalUnits, RestingOrders.idsOf]
  | cons o Q ih =>
      obtain ⟨hmem, hside, hprice⟩ := RestingOrders.mem_queue.mp (hQ o List.mem_cons_self)
      have hpos : o.quantity.units ≠ 0 := A.positive o hmem
      have hlookup : b.orderLookup.lookup o.orderId.value = some (recordOf o) := by
        rw [h.lookup, RestingOrders.find_eq_some_iff.mpr ⟨hmem, rfl⟩, Option.map_some]
      have hrest : ∀ a ∈ Q, a.orderId.value ∉ insert o.orderId.value seen :=
        RestingOrders.not_mem_insert hnd hseen
      rw [List.map_cons, validateOrders]
      simp only [nodeOf, hpos, hseen o List.mem_cons_self, hlookup, recordOf, hside, hprice,
        if_false, ne_eq, not_true_eq_false]
      have hih := ih (fun a ha => hQ a (List.mem_cons_of_mem _ ha)) (List.nodup_cons.mp hnd).2 hrest
        (total + o.quantity.units)
      rw [hih]
      congr 2
      · simp [totalQuantity, totalUnits, UInt64.add_assoc]
      · ext x
        simp [RestingOrders.idsOf, eq_comm]

/-- The level of a queue passes its check, and its ids are seen. -/
theorem validateLevel_eq (h : Represents b A) {s : Side} {k : Int64} {level : PriceLevel}
    {seen : Finset UInt64} (hfind : b.toBookLevels.find s ⟨k⟩ = some level)
    (hseen : ∀ o ∈ A.queue s ⟨k⟩, o.orderId.value ∉ seen) :
    b.validateLevel s k level seen = some (seen ∪ RestingOrders.idsOf (A.queue s ⟨k⟩)) := by
  have hlevel := (h.level s ⟨k⟩).symm.trans hfind
  rw [levelOf] at hlevel
  split_ifs at hlevel with hnil
  obtain rfl := Option.some.inj hlevel
  have horders := validateOrders_eq h (fun o ho => ho) (A.queue_idsNodup s ⟨k⟩) hseen 0
  rw [validateLevel, if_neg (by simpa using hnil), horders]
  simp

/-- The check without the tests that always pass. -/
theorem validateInvariants_eq (b : LimitOrderBook) (options : InvariantOptions) :
    b.validateInvariants options =
      ((options.allowCrossedBook || !b.toBookLevels.crossed) &&
        (b.toBookLevels.validateLevels b.validateLevel).any fun seen =>
          seen.card = b.orderLookup.keys.card && b.validateLookup seen) :=
  BookLevels.invariantCheck_eq ..

/-- **The invariant check on a represented book** only depends on whether it is crossed. -/
theorem Represents.validateInvariants (h : Represents b A) (options : InvariantOptions) :
    b.validateInvariants options = (options.allowCrossedBook || !b.toBookLevels.crossed) := by
  have hlevels : b.toBookLevels.validateLevels b.validateLevel =
      some (RestingOrders.idsOf A.orders) := by
    refine RestingOrders.validateLevels_eq (fun s p hne => ?_)
      (fun s k v seen hfind hseen => validateLevel_eq h hfind hseen)
    have hlevel := h.level s p
    rw [findLevel] at hlevel
    rw [hlevel, levelOf, if_neg hne]
    rfl
  have hlookup : b.validateLookup (RestingOrders.idsOf A.orders) = true := by
    rw [validateLookup, decide_eq_true_iff]
    rintro ⟨x, record⟩ hentry
    obtain ⟨o, ho, -, hseen, rfl⟩ := RestingOrders.exists_of_mem_entries h.lookup hentry
    have hlevel := (h.findLevel_of_find ho).2
    exact ⟨hseen, Option.isSome_iff_exists.mpr ⟨_, hlevel⟩⟩
  rw [validateInvariants_eq, hlevels, Option.any_some, hlookup, h.keys_orderLookup]
  simp

end LimitOrderBook

end Datagine
