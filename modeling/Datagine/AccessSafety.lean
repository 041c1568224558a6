import Datagine.BookRuns
import Datagine.Lib.Traced

/-!
# Accesses of the Books

None of the pointers, iterators and indices that the updates of a book use is checked when it is
used: that a level exists, that an iterator points into its queue and that an index lies in the
pool all rest on the agreement between the lookup, the levels and the pool. `accesses` lists
what an operation uses in a given state, in the order of the source, and `Safe` says what each
use needs. Every use is safe in a represented state, so it is in every reachable one.

The list is that of the updates: `execTraced` makes them statement by statement, each statement
with what it uses, and in every state it lists `accesses` and leaves the state that `exec`
leaves (`execTraced_eq`).

## Main results

* `accesses_safe`: no operation on a reachable book, whatever its arguments, uses a missing
  level, a foreign queue entry, an index beyond the pool or an active free node, or takes a
  quantity or a count below zero; and a traversal of a level stays inside the pool and ends.
-/

namespace Datagine

open KeyedList LinkedChain Mealy Traced

/-! ### The branches of an update -/

/-- What `cancel_order`, `modify_order` and `execute_order` use, given what the removal of a
record and its reduction use: the branches are the same in both books. -/
def updateAccesses {R α : Type} (quantityOf : R → Quantity) (lookup : OrderId → Option R)
    (remove : OrderId → R → List α) (reduce : OrderId → R → UInt64 → List α) : BookOp → List α
  | .cancelOrder id =>
      match lookup id with
      | none => []
      | some record => remove id record
  | .modifyOrder id q =>
      if q.units = 0 then []
      else
        match lookup id with
        | none => []
        | some record =>
            if q.units > (quantityOf record).units then []
            else if q.units = (quantityOf record).units then []
            else reduce id record q.units
  | .executeOrder id q =>
      if q.units = 0 then []
      else
        match lookup id with
        | none => []
        | some record =>
            if q.units > (quantityOf record).units then []
            else if q.units = (quantityOf record).units then remove id record
            else reduce id record q.units
  | .addOrder _ _ _ _ _ | .clear => []

/-- A record is removed or reduced only when it is in the lookup, and reduced by no more than
its quantity. -/
theorem forall_mem_updateAccesses {R α : Type} {quantityOf : R → Quantity}
    {lookup : OrderId → Option R} {remove : OrderId → R → List α}
    {reduce : OrderId → R → UInt64 → List α} {P : α → Prop}
    (hremove : ∀ id record, lookup id = some record → ∀ access ∈ remove id record, P access)
    (hreduce : ∀ id record amount, lookup id = some record → amount ≤ (quantityOf record).units →
      ∀ access ∈ reduce id record amount, P access) (op : BookOp) :
    ∀ access ∈ updateAccesses quantityOf lookup remove reduce op, P access := by
  have hnone : ∀ access ∈ ([] : List α), P access := fun _ hmem => absurd hmem List.not_mem_nil
  rw [updateAccesses.eq_def]
  cases op with
  | cancelOrder id =>
      cases hlookup : lookup id with
      | none => simpa only [hlookup] using hnone
      | some record => simpa only [hlookup] using hremove id record hlookup
  | modifyOrder id q =>
      cases hlookup : lookup id with
      | none =>
          simp only [hlookup]
          split_ifs <;> exact hnone
      | some record =>
          simp only [hlookup]
          split_ifs with hq hgt heq
          · exact hnone
          · exact hnone
          · exact hnone
          · exact hreduce id record q.units hlookup (UInt64.not_lt.mp hgt)
  | executeOrder id q =>
      cases hlookup : lookup id with
      | none =>
          simp only [hlookup]
          split_ifs <;> exact hnone
      | some record =>
          simp only [hlookup]
          split_ifs with hq hgt heq
          · exact hnone
          · exact hnone
          · exact hremove id record hlookup
          · exact hreduce id record q.units hlookup (UInt64.not_lt.mp hgt)
  | addOrder id side price quantity timestamp => exact hnone
  | clear => exact hnone

/-- `cancel_order`, `modify_order` and `execute_order` with what they use, given the removal of
a record and its reduction: by an amount that is subtracted from its quantity, the reduction of
the total of its level, and its new quantity. -/
def updateTraced {R α β : Type} (quantityOf : R → Quantity) (lookup : OrderId → Option R)
    (remove : OrderId → R → List α × β)
    (reduce : OrderId → R → UInt64 → UInt64 → Quantity → List α × β) (countApplied : β → β)
    (b : β) : BookOp → List α × Option BookResult × β
  | .cancelOrder id =>
      match lookup id with
      | none => done (some .missingOrderId, b)
      | some record => andThen (remove id record) fun b => done (some .applied, countApplied b)
  | .modifyOrder id q =>
      if q.units = 0 then done (some .invalidQuantity, b)
      else
        match lookup id with
        | none => done (some .missingOrderId, b)
        | some record =>
            if q.units > (quantityOf record).units then done (some .unsupportedModify, b)
            else if q.units = (quantityOf record).units then
              done (some .applied, countApplied b)
            else
              andThen (reduce id record q.units ((quantityOf record).units - q.units) q) fun b =>
                done (some .applied, countApplied b)
  | .executeOrder id q =>
      if q.units = 0 then done (some .invalidQuantity, b)
      else
        match lookup id with
        | none => done (some .missingOrderId, b)
        | some record =>
            if q.units > (quantityOf record).units then done (some .insufficientQuantity, b)
            else if q.units = (quantityOf record).units then
              andThen (remove id record) fun b => done (some .applied, countApplied b)
            else
              andThen (reduce id record q.units q.units ⟨(quantityOf record).units - q.units⟩)
                fun b => done (some .applied, countApplied b)
  | .addOrder _ _ _ _ _ | .clear => done (none, b)

/-- The uses of a traced update are those of its branch. -/
theorem updateTraced_fst {R α β : Type} (quantityOf : R → Quantity)
    (lookup : OrderId → Option R) {remove : OrderId → R → List α × β}
    {reduce : OrderId → R → UInt64 → UInt64 → Quantity → List α × β}
    {removeAccesses : OrderId → R → List α} {reduceAccesses : OrderId → R → UInt64 → List α}
    (hremove : ∀ id record, (remove id record).1 = removeAccesses id record)
    (hreduce : ∀ id record amount reduction q,
      (reduce id record amount reduction q).1 = reduceAccesses id record amount)
    (countApplied : β → β) (b : β) (op : BookOp) :
    (updateTraced quantityOf lookup remove reduce countApplied b op).1 =
      updateAccesses quantityOf lookup removeAccesses reduceAccesses op := by
  rw [updateTraced.eq_def, updateAccesses.eq_def]
  cases op with
  | cancelOrder id =>
      dsimp only
      cases lookup id with
      | none => rfl
      | some record => simp [hremove]
  | modifyOrder id q =>
      dsimp only
      cases lookup id with
      | none => split_ifs <;> rfl
      | some record =>
          dsimp only
          split_ifs <;> simp [hreduce]
  | executeOrder id q =>
      dsimp only
      cases lookup id with
      | none => split_ifs <;> rfl
      | some record =>
          dsimp only
          split_ifs <;> simp [hremove, hreduce]
  | addOrder id side price quantity timestamp => rfl
  | clear => rfl

namespace LimitOrderBook

/-- Something that an update of the book uses without a check. -/
inductive Access
  /-- The level that `find_level` or `find` returns. -/
  | level (side : Side) (price : Price)
  /-- The queue entry behind an iterator, as the entry of an order of a level. -/
  | entry (side : Side) (price : Price) (iterator : ℕ) (orderId : OrderId)
  /-- A subtraction from the quantity of a record. -/
  | subtract (units amount : UInt64)

/-- What the use needs. -/
def Safe (b : LimitOrderBook) : Access → Prop
  | .level side price => (b.findLevel side price).isSome
  | .entry side price iterator orderId => ∃ level, b.findLevel side price = some level ∧
      ∃ node ∈ level.orders, node.address = iterator ∧ node.entry.orderId = orderId
  | .subtract units amount => amount ≤ units

/-- `remove_existing_order`: the level, and the entry erased from its queue. -/
def removeAccesses (orderId : OrderId) (record : OrderRecord) : List Access :=
  [.level record.side record.price,
    .entry record.side record.price record.iterator orderId]

/-- The tail of `modify_order` and `execute_order`: the level, the subtraction, and the entry
written through the iterator. -/
def reduceAccesses (orderId : OrderId) (record : OrderRecord) (amount : UInt64) : List Access :=
  [.level record.side record.price, .subtract record.quantity.units amount,
    .entry record.side record.price record.iterator orderId]

/-- What an operation uses; `add_order` creates its level, and `clear` uses nothing. -/
def accesses (b : LimitOrderBook) (op : BookOp) : List Access :=
  updateAccesses OrderRecord.quantity (fun id => b.orderLookup.lookup id.value) removeAccesses
    reduceAccesses op

/-- A statement about the level of a record. -/
def editLevel (b : LimitOrderBook) (record : OrderRecord) (f : PriceLevel → PriceLevel) :
    LimitOrderBook :=
  { b with toBookLevels := b.toBookLevels.modify record.side record.price f }

/-- `remove_existing_order`, statement by statement. -/
def removeTraced (b : LimitOrderBook) (orderId : OrderId) (record : OrderRecord) :
    List Access × LimitOrderBook :=
  andThen ([.level record.side record.price],
    b.editLevel record fun level =>
      { level with totalQuantity := ⟨level.totalQuantity.units - record.quantity.units⟩ }) fun b =>
  andThen ([.entry record.side record.price record.iterator orderId],
    b.editLevel record fun level =>
      { level with orders := eraseKey QueueNode.address record.iterator level.orders }) fun b =>
  done { b with
    toBookLevels := b.toBookLevels.alter record.side record.price fun level =>
      if level.orders = [] then none else some level
    orderLookup := b.orderLookup.erase orderId.value }

/-- The tail of `modify_order` and `execute_order`, statement by statement. -/
def reduceTraced (b : LimitOrderBook) (orderId : OrderId) (record : OrderRecord)
    (amount reduction : UInt64) (newQuantity : Quantity) : List Access × LimitOrderBook :=
  andThen ([.level record.side record.price, .subtract record.quantity.units amount],
    b.editLevel record fun level =>
      { level with totalQuantity := ⟨level.totalQuantity.units - reduction⟩ }) fun b =>
  andThen (done { b with
    orderLookup := b.orderLookup.insert orderId.value { record with quantity := newQuantity } })
    fun b =>
  ([.entry record.side record.price record.iterator orderId],
    b.editLevel record fun level =>
      { level with
        orders := updateKey QueueNode.address record.iterator
          (fun node => { node with entry := { node.entry with quantity := newQuantity } })
          level.orders })

/-- Any one operation, statement by statement. -/
def execTraced (b : LimitOrderBook) : BookOp → List Access × Option BookResult × LimitOrderBook
  | .addOrder id side price quantity timestamp =>
      done (b.exec (.addOrder id side price quantity timestamp))
  | .clear => done (b.exec .clear)
  | op => updateTraced OrderRecord.quantity (fun id => b.orderLookup.lookup id.value)
      b.removeTraced b.reduceTraced countApplied b op

/-- A traced removal makes the listed uses and removes the order. -/
theorem removeTraced_eq (b : LimitOrderBook) (orderId : OrderId) (record : OrderRecord) :
    b.removeTraced orderId record =
      (removeAccesses orderId record, b.removeExistingOrder orderId record) := by
  refine Prod.ext rfl ?_
  simp only [removeTraced, editLevel, andThen_snd, done_snd, BookLevels.alter_modify]
  rfl

/-- A traced reduction makes the listed uses and reduces the order. -/
theorem reduceTraced_eq (b : LimitOrderBook) (orderId : OrderId) (record : OrderRecord)
    (amount reduction : UInt64) (newQuantity : Quantity) :
    b.reduceTraced orderId record amount reduction newQuantity =
      (reduceAccesses orderId record amount,
        b.reduceOrder orderId record reduction newQuantity) := by
  refine Prod.ext rfl ?_
  simp only [reduceTraced, editLevel, andThen_snd, done_snd, BookLevels.modify_modify]
  rfl

/-- **The accesses are those of the updates**: statement by statement an operation makes the
listed uses and leaves the state and the answer of `exec`. -/
theorem execTraced_eq (b : LimitOrderBook) (op : BookOp) :
    b.execTraced op = (b.accesses op, b.exec op) := by
  have hremove : ∀ id record, (b.removeTraced id record).1 = removeAccesses id record :=
    fun id record => congrArg Prod.fst (b.removeTraced_eq id record)
  have hreduce : ∀ id record amount reduction q,
      (b.reduceTraced id record amount reduction q).1 = reduceAccesses id record amount :=
    fun id record amount reduction q =>
      congrArg Prod.fst (b.reduceTraced_eq id record amount reduction q)
  have huses := updateTraced_fst OrderRecord.quantity (fun id => b.orderLookup.lookup id.value)
    hremove hreduce countApplied b
  cases op with
  | addOrder id side price quantity timestamp => rfl
  | cancelOrder id =>
      refine Prod.ext (huses _) ?_
      simp only [execTraced, updateTraced, exec, cancelOrder]
      cases b.orderLookup.lookup id.value with
      | none => rfl
      | some record => simp [removeTraced_eq]
  | modifyOrder id q =>
      refine Prod.ext (huses _) ?_
      simp only [execTraced, updateTraced, exec, modifyOrder]
      cases b.orderLookup.lookup id.value with
      | none => split_ifs <;> rfl
      | some record =>
          dsimp only
          split_ifs <;> simp [reduceTraced_eq]
  | executeOrder id q =>
      refine Prod.ext (huses _) ?_
      simp only [execTraced, updateTraced, exec, executeOrder]
      cases b.orderLookup.lookup id.value with
      | none => split_ifs <;> rfl
      | some record =>
          dsimp only
          split_ifs <;> simp [removeTraced_eq, reduceTraced_eq]
  | clear => rfl

variable {b : LimitOrderBook} {A : RestingOrders}

/-- The level and the entry that a record names. -/
theorem Represents.safe_of_lookup (h : Represents b A) {id : OrderId} {record : OrderRecord}
    (hlookup : b.orderLookup.lookup id.value = some record) :
    b.Safe (.level record.side record.price) ∧
      b.Safe (.entry record.side record.price record.iterator id) := by
  rw [h.lookup, Option.map_eq_some_iff] at hlookup
  obtain ⟨o, ho, rfl⟩ := hlookup
  obtain ⟨hqueue, hlevel⟩ := h.findLevel_of_find ho
  obtain ⟨-, rfl⟩ := RestingOrders.find_eq_some_iff.mp ho
  refine ⟨?_, _, hlevel, nodeOf o, List.mem_map_of_mem hqueue, rfl, rfl⟩
  rw [Safe, recordOf, hlevel]
  rfl

/-- **Every use is safe in a represented book.** -/
theorem Represents.safe_accesses (h : Represents b A) (op : BookOp) :
    ∀ access ∈ b.accesses op, b.Safe access := by
  refine forall_mem_updateAccesses (fun id record hlookup => ?_)
    (fun id record amount hlookup hle => ?_) op
  · obtain ⟨hlevel, hentry⟩ := h.safe_of_lookup hlookup
    simp only [removeAccesses, List.forall_mem_cons]
    exact ⟨hlevel, hentry, by simp⟩
  · obtain ⟨hlevel, hentry⟩ := h.safe_of_lookup hlookup
    simp only [reduceAccesses, List.forall_mem_cons]
    exact ⟨hlevel, hle, hentry, by simp⟩

end LimitOrderBook

namespace PooledLimitOrderBook

/-- Something that an update of the book uses without a check. -/
inductive Access
  /-- The level that `find_level` or `find` returns. -/
  | level (side : Side) (price : Price)
  /-- A node, as a node of the chain of a level. -/
  | entry (side : Side) (price : Price) (index : ℕ) (orderId : OrderId)
  /-- An index into the pool. -/
  | node (index : ℕ)
  /-- A node taken from the free stack. -/
  | allocate (index : ℕ)
  /-- A subtraction from the quantity of a record. -/
  | subtract (units amount : UInt64)
  /-- A decrement of the count of a level. -/
  | decrement (orderCount : ℕ)

/-- What the use needs. -/
def Safe (b : PooledLimitOrderBook) : Access → Prop
  | .level side price => (b.findLevel side price).isSome
  | .entry side price index orderId => ∃ level indices, b.findLevel side price = some level ∧
      b.chain level = some indices ∧ index ∈ indices ∧ (nodeAt b.nodes index).orderId = orderId
  | .node index => index < b.capacity
  | .allocate index => index < b.capacity ∧ (nodeAt b.nodes index).active = false
  | .subtract units amount => amount ≤ units
  | .decrement orderCount => 1 ≤ orderCount

/-- `append_node`: the new node and, behind a chain that is not empty, its last node. -/
def appendAccesses (level : PriceLevel) (nodeIndex : ℕ) : List Access :=
  [.node nodeIndex] ++ if level.tail ≠ npos then [.node level.tail] else []

/-- `unlink_node`: the node, its neighbours if there are any, and the count. -/
def unlinkAccesses (nodes : List OrderNode) (level : PriceLevel) (nodeIndex : ℕ) : List Access :=
  [.node nodeIndex] ++
    (if (nodeAt nodes nodeIndex).prev ≠ npos then [.node (nodeAt nodes nodeIndex).prev] else []) ++
    (if (nodeAt nodes nodeIndex).next ≠ npos then [.node (nodeAt nodes nodeIndex).next] else []) ++
    [.decrement level.orderCount]

/-- `remove_existing_order`: the level, the node unlinked from its chain and then released. -/
def removeAccesses (b : PooledLimitOrderBook) (orderId : OrderId) (record : OrderRecord) :
    List Access :=
  [.level record.side record.price, .entry record.side record.price record.nodeIndex orderId] ++
    (match b.findLevel record.side record.price with
      | none => []
      | some level => unlinkAccesses b.nodes level record.nodeIndex) ++
    [.node record.nodeIndex]

/-- The tail of `modify_order` and `execute_order`: the level, the subtraction, and the node. -/
def reduceAccesses (orderId : OrderId) (record : OrderRecord) (amount : UInt64) : List Access :=
  [.level record.side record.price, .subtract record.quantity.units amount,
    .node record.nodeIndex, .entry record.side record.price record.nodeIndex orderId]

/-- What an operation uses. An add allocates a node, writes it and appends it to its level,
which it creates if need be. -/
def accesses (b : PooledLimitOrderBook) : BookOp → List Access
  | .addOrder id side price quantity _ =>
      if quantity.units = 0 then []
      else if id.value ∈ b.orderLookup then []
      else
        match b.allocateNode with
        | none => []
        | some (nodeIndex, b) => [.allocate nodeIndex, .node nodeIndex] ++
            appendAccesses ((b.findLevel side price).getD {}) nodeIndex
  | op => updateAccesses OrderRecord.quantity (fun id => b.orderLookup.lookup id.value)
      b.removeAccesses reduceAccesses op

/-- `append_node`, statement by statement. -/
def appendNodeTraced (nodes : List OrderNode) (level : PriceLevel) (nodeIndex : ℕ) :
    List Access × List OrderNode × PriceLevel :=
  andThen ([.node nodeIndex],
    nodes.modify nodeIndex fun node => { node with prev := level.tail, next := npos }) fun nodes =>
  andThen
    (if level.tail ≠ npos then
      ([.node level.tail],
        (nodes.modify level.tail fun node => { node with next := nodeIndex }, level))
    else done (nodes, { level with head := nodeIndex })) fun linked =>
  done (linked.1, { linked.2 with tail := nodeIndex, orderCount := linked.2.orderCount + 1 })

/-- `unlink_node`, statement by statement. -/
def unlinkNodeTraced (nodes : List OrderNode) (level : PriceLevel) (nodeIndex : ℕ) :
    List Access × List OrderNode × PriceLevel :=
  andThen ([.node nodeIndex],
    ((nodeAt nodes nodeIndex).prev, (nodeAt nodes nodeIndex).next)) fun links =>
  andThen
    (if links.1 ≠ npos then
      ([.node links.1], (nodes.modify links.1 fun node => { node with next := links.2 }, level))
    else done (nodes, { level with head := links.2 })) fun before =>
  andThen
    (if links.2 ≠ npos then
      ([.node links.2],
        (before.1.modify links.2 fun node => { node with prev := links.1 }, before.2))
    else done (before.1, { before.2 with tail := links.1 })) fun after =>
  ([.decrement after.2.orderCount],
    (after.1, { after.2 with orderCount := after.2.orderCount - 1 }))

/-- `remove_existing_order`, statement by statement. Without the level the node is not unlinked,
here as in the model of the function. -/
def removeTraced (b : PooledLimitOrderBook) (orderId : OrderId) (record : OrderRecord) :
    List Access × PooledLimitOrderBook :=
  andThen ([.level record.side record.price],
    b.findLevel record.side record.price) fun level? =>
  andThen
    ([.entry record.side record.price record.nodeIndex orderId],
      level?.map fun level =>
        { level with
          totalQuantity := ⟨level.totalQuantity.units - record.quantity.units⟩ }) fun level? =>
  match level? with
  | none =>
      ([.node record.nodeIndex], { b with orderLookup := b.orderLookup.erase orderId.value })
  | some level =>
      andThen (unlinkNodeTraced b.nodes level record.nodeIndex) fun unlinked =>
      andThen ([.node record.nodeIndex],
        { b with nodes := unlinked.1 }.releaseNode record.nodeIndex) fun b =>
      done { b with
        toBookLevels :=
          b.toBookLevels.alter record.side record.price fun _ => unlinked.2.unlessEmpty
        orderLookup := b.orderLookup.erase orderId.value }

/-- The tail of `modify_order` and `execute_order`, statement by statement. -/
def reduceTraced (b : PooledLimitOrderBook) (orderId : OrderId) (record : OrderRecord)
    (amount reduction : UInt64) (newQuantity : Quantity) : List Access × PooledLimitOrderBook :=
  andThen ([.level record.side record.price, .subtract record.quantity.units amount],
    { b with
      toBookLevels := b.toBookLevels.modify record.side record.price fun level =>
        { level with totalQuantity := ⟨level.totalQuantity.units - reduction⟩ } }) fun b =>
  andThen (done { b with
    orderLookup := b.orderLookup.insert orderId.value { record with quantity := newQuantity } })
    fun b =>
  ([.node record.nodeIndex, .entry record.side record.price record.nodeIndex orderId],
    { b with
      nodes := b.nodes.modify record.nodeIndex fun node =>
        { node with quantity := newQuantity } })

/-- `add_order`, statement by statement. -/
def addOrderTraced (b : PooledLimitOrderBook) (orderId : OrderId) (side : Side) (price : Price)
    (quantity : Quantity) (timestamp : Timestamp) :
    List Access × BookResult × PooledLimitOrderBook :=
  if quantity.units = 0 then done (.invalidQuantity, b)
  else if orderId.value ∈ b.orderLookup then done (.duplicateOrderId, b)
  else
    match b.allocateNode with
    | none => done (.capacityExceeded, b)
    | some (nodeIndex, b) =>
        andThen ([.allocate nodeIndex], (b.findLevel side price).getD {}) fun level =>
        andThen ([.node nodeIndex], b.nodes.modify nodeIndex fun node =>
          { node with
            orderId := orderId, timestamp := timestamp, quantity := quantity, active := true })
          fun nodes =>
        andThen (appendNodeTraced nodes level nodeIndex) fun appended =>
        let level : PriceLevel :=
          { appended.2 with totalQuantity := ⟨appended.2.totalQuantity.units + quantity.units⟩ }
        let record : OrderRecord := ⟨side, price, timestamp, quantity, nodeIndex⟩
        let b : PooledLimitOrderBook := { b with
          nodes := appended.1
          toBookLevels := b.toBookLevels.upsert side price {} fun _ => level
          orderLookup := b.orderLookup.insert orderId.value record }
        done (.applied, b.countApplied)

/-- Any one operation, statement by statement. -/
def execTraced (b : PooledLimitOrderBook) :
    BookOp → List Access × Option BookResult × PooledLimitOrderBook
  | .addOrder id side price quantity timestamp =>
      andThen (b.addOrderTraced id side price quantity timestamp) fun r => done (some r.1, r.2)
  | .clear => done (b.exec .clear)
  | op => updateTraced OrderRecord.quantity (fun id => b.orderLookup.lookup id.value)
      b.removeTraced b.reduceTraced countApplied b op

/-- The uses of `append_node`, and what it leaves. -/
theorem appendNodeTraced_eq (nodes : List OrderNode) (level : PriceLevel) (nodeIndex : ℕ) :
    appendNodeTraced nodes level nodeIndex =
      (appendAccesses level nodeIndex, appendNode nodes level nodeIndex) := by
  simp only [appendNodeTraced, appendAccesses, appendNode, andThen]
  split_ifs <;> rfl

/-- The uses of `unlink_node`, and what it leaves. -/
theorem unlinkNodeTraced_eq (nodes : List OrderNode) (level : PriceLevel) (nodeIndex : ℕ) :
    unlinkNodeTraced nodes level nodeIndex =
      (unlinkAccesses nodes level nodeIndex, unlinkNode nodes level nodeIndex) := by
  simp only [unlinkNodeTraced, unlinkAccesses, unlinkNode, andThen]
  split_ifs <;> rfl

/-- The uses of a removal, and what it leaves. -/
theorem removeTraced_eq (b : PooledLimitOrderBook) (orderId : OrderId) (record : OrderRecord) :
    b.removeTraced orderId record =
      (b.removeAccesses orderId record, b.removeExistingOrder orderId record) := by
  rw [removeTraced, removeAccesses, removeExistingOrder]
  cases b.findLevel record.side record.price with
  | none => rfl
  | some level =>
      refine Prod.ext ?_ ?_
      · simp only [andThen_fst, done_fst, Option.map_some, unlinkNodeTraced_eq, List.append_assoc]
        rfl
      · simp only [andThen_snd, done_snd, Option.map_some, unlinkNodeTraced_eq]

/-- The uses of a reduction, and what it leaves. -/
theorem reduceTraced_eq (b : PooledLimitOrderBook) (orderId : OrderId) (record : OrderRecord)
    (amount reduction : UInt64) (newQuantity : Quantity) :
    b.reduceTraced orderId record amount reduction newQuantity =
      (reduceAccesses orderId record amount,
        b.reduceOrder orderId record reduction newQuantity) := rfl

/-- The uses of `add_order`, its answer and what it leaves. -/
theorem addOrderTraced_eq (b : PooledLimitOrderBook) (id : OrderId) (side : Side) (price : Price)
    (quantity : Quantity) (timestamp : Timestamp) :
    b.addOrderTraced id side price quantity timestamp =
      (b.accesses (.addOrder id side price quantity timestamp),
        b.addOrder id side price quantity timestamp) := by
  rw [addOrderTraced, accesses, addOrder]
  split_ifs
  · rfl
  · rfl
  · cases b.allocateNode with
    | none => rfl
    | some allocated =>
        refine Prod.ext ?_ ?_
        · simp only [andThen_fst, done_fst, appendNodeTraced_eq, List.append_nil]
          rfl
        · simp only [andThen_snd, done_snd, appendNodeTraced_eq]

/-- **The accesses are those of the updates**, as in the linked-list book. -/
theorem execTraced_eq (b : PooledLimitOrderBook) (op : BookOp) :
    b.execTraced op = (b.accesses op, b.exec op) := by
  have hremove : ∀ id record, (b.removeTraced id record).1 = b.removeAccesses id record :=
    fun id record => congrArg Prod.fst (b.removeTraced_eq id record)
  have hreduce : ∀ id record amount reduction q,
      (b.reduceTraced id record amount reduction q).1 = reduceAccesses id record amount :=
    fun id record amount reduction q =>
      congrArg Prod.fst (b.reduceTraced_eq id record amount reduction q)
  have huses := updateTraced_fst OrderRecord.quantity (fun id => b.orderLookup.lookup id.value)
    hremove hreduce countApplied b
  cases op with
  | addOrder id side price quantity timestamp =>
      rw [execTraced, addOrderTraced_eq]
      exact Prod.ext (List.append_nil _) rfl
  | cancelOrder id =>
      refine Prod.ext (huses _) ?_
      simp only [execTraced, updateTraced, exec, cancelOrder]
      cases b.orderLookup.lookup id.value with
      | none => rfl
      | some record => simp [removeTraced_eq]
  | modifyOrder id q =>
      refine Prod.ext (huses _) ?_
      simp only [execTraced, updateTraced, exec, modifyOrder]
      cases b.orderLookup.lookup id.value with
      | none => split_ifs <;> rfl
      | some record =>
          dsimp only
          split_ifs <;> simp [reduceTraced_eq]
  | executeOrder id q =>
      refine Prod.ext (huses _) ?_
      simp only [execTraced, updateTraced, exec, executeOrder]
      cases b.orderLookup.lookup id.value with
      | none => split_ifs <;> rfl
      | some record =>
          dsimp only
          split_ifs <;> simp [removeTraced_eq, reduceTraced_eq]
  | clear => rfl

variable {b : PooledLimitOrderBook} {A : RestingOrders}

/-- A node of a chain lies in the pool. -/
theorem Represents.safe_node (h : Represents b A) {i : ℕ} (hi : i ∈ handles A.orders) :
    b.Safe (.node i) := h.handle_lt hi

/-- A link of a node that is not null leads to a node of the same chain. -/
theorem Represents.safe_links (h : Represents b A) {o : Resting} (ho : o ∈ A.orders) :
    (prevOf b.nodes o.handle ≠ npos → b.Safe (.node (prevOf b.nodes o.handle))) ∧
      (nextOf b.nodes o.handle ≠ npos → b.Safe (.node (nextOf b.nodes o.handle))) := by
  obtain ⟨pre, post, hsplit⟩ :=
    List.append_of_mem (RestingOrders.mem_queue.mpr ⟨ho, rfl, rfl⟩)
  obtain ⟨hprev, hnext⟩ := h.neighbours hsplit
  have hmem : ∀ a ∈ pre ++ post, a.handle ∈ handles A.orders := by
    intro a ha
    have hqueue : a ∈ A.queue o.side o.price := by
      rw [hsplit]
      rcases List.mem_append.mp ha with ha | ha
      · exact List.mem_append_left _ ha
      · exact List.mem_append_right _ (List.mem_cons_of_mem _ ha)
    exact mem_handles_queue (List.mem_map_of_mem hqueue)
  have hsub : ∀ i, i ∈ handles pre ∨ i ∈ handles post → b.Safe (.node i) := by
    rintro i (hi | hi)
    · obtain ⟨a, ha, rfl⟩ := List.mem_map.mp hi
      exact h.safe_node (hmem a (List.mem_append_left _ ha))
    · obtain ⟨a, ha, rfl⟩ := List.mem_map.mp hi
      exact h.safe_node (hmem a (List.mem_append_right _ ha))
  rw [hprev, hnext]
  constructor
  · intro hne
    have hpre : handles pre ≠ [] := by
      rintro hnil
      rw [hnil] at hne
      exact hne rfl
    exact hsub _ (.inl (getLastD_mem hpre npos))
  · intro hne
    have hpost : handles post ≠ [] := by
      rintro hnil
      rw [hnil] at hne
      exact hne rfl
    exact hsub _ (.inr (headD_mem hpost npos))

/-- The level, the node and the chain that a record names. -/
theorem Represents.safe_of_lookup (h : Represents b A) {id : OrderId} {record : OrderRecord}
    (hlookup : b.orderLookup.lookup id.value = some record) :
    (∃ level, b.findLevel record.side record.price = some level ∧
        ∀ access ∈ unlinkAccesses b.nodes level record.nodeIndex, b.Safe access) ∧
      b.Safe (.entry record.side record.price record.nodeIndex id) ∧
      b.Safe (.node record.nodeIndex) := by
  rw [h.lookup, Option.map_eq_some_iff] at hlookup
  obtain ⟨o, ho, rfl⟩ := hlookup
  obtain ⟨hmem, rfl⟩ := RestingOrders.find_eq_some_iff.mp ho
  have hqueue := RestingOrders.mem_queue.mpr ⟨hmem, rfl, rfl⟩
  have hne : A.queue o.side o.price ≠ [] := List.ne_nil_of_mem hqueue
  have hlevel := h.level o.side o.price
  rw [levelOf, if_neg hne] at hlevel
  have hnode := h.safe_node (List.mem_map_of_mem hmem)
  obtain ⟨hprev, hnext⟩ := h.safe_links hmem
  refine ⟨⟨_, hlevel, ?_⟩, ⟨_, _, hlevel, h.chain hlevel, List.mem_map_of_mem hqueue,
    (h.holds o hmem).orderId⟩, hnode⟩
  simp only [unlinkAccesses, List.forall_mem_append, List.forall_mem_singleton]
  refine ⟨⟨⟨hnode, ?_⟩, ?_⟩, List.length_pos_iff.mpr hne⟩
  · split_ifs with hnull
    · exact List.forall_mem_singleton.mpr (hprev hnull)
    · exact fun _ hmem => absurd hmem List.not_mem_nil
  · split_ifs with hnull
    · exact List.forall_mem_singleton.mpr (hnext hnull)
    · exact fun _ hmem => absurd hmem List.not_mem_nil

/-- The last node of a level to which an order is appended. -/
theorem Represents.safe_tail (h : Represents b A) (side : Side) (price : Price)
    (hne : ((b.findLevel side price).getD {}).tail ≠ npos) :
    b.Safe (.node ((b.findLevel side price).getD {}).tail) := by
  rw [h.level, getD_levelOf] at hne ⊢
  have hchain : handles (A.queue side price) ≠ [] := by
    intro hnil
    rw [hnil] at hne
    exact hne rfl
  exact h.safe_node (mem_handles_queue (getLastD_mem hchain npos))

/-- An allocated node is free: it is in the pool and not active. -/
theorem Represents.safe_allocate (h : Represents b A) {i : ℕ} (hi : i ∈ b.freeIndices) :
    b.Safe (.allocate i) := by
  refine ⟨h.mem_indices_iff.mp (.inl hi), ?_⟩
  rw [h.free i hi]

/-- **Every use is safe in a represented book.** -/
theorem Represents.safe_accesses (h : Represents b A) (op : BookOp) :
    ∀ access ∈ b.accesses op, b.Safe access := by
  have hupdate : ∀ op, ∀ access ∈ updateAccesses OrderRecord.quantity
      (fun id => b.orderLookup.lookup id.value) b.removeAccesses reduceAccesses op,
        b.Safe access := by
    refine fun op => forall_mem_updateAccesses (fun id record hlookup => ?_)
      (fun id record amount hlookup hle => ?_) op
    · obtain ⟨⟨level, hlevel, hunlink⟩, hentry, hnode⟩ := h.safe_of_lookup hlookup
      have hsome : b.Safe (.level record.side record.price) := by
        rw [Safe, hlevel]
        rfl
      simp only [removeAccesses, hlevel, List.forall_mem_append, List.forall_mem_cons]
      exact ⟨⟨⟨hsome, hentry, by simp⟩, hunlink⟩, hnode, by simp⟩
    · obtain ⟨⟨level, hlevel, -⟩, hentry, hnode⟩ := h.safe_of_lookup hlookup
      have hsome : b.Safe (.level record.side record.price) := by
        rw [Safe, hlevel]
        rfl
      simp only [reduceAccesses, List.forall_mem_cons]
      exact ⟨hsome, hle, hnode, hentry, by simp⟩
  cases op with
  | addOrder id side price quantity timestamp =>
      have hnone : ∀ access ∈ ([] : List Access), b.Safe access := fun _ hmem =>
        absurd hmem List.not_mem_nil
      rw [accesses, allocateNode]
      cases hlast : b.freeIndices.getLast? with
      | none => split_ifs <;> exact hnone
      | some i =>
          have hfree := h.safe_allocate (List.mem_of_getLast? hlast)
          split_ifs
          · exact hnone
          · exact hnone
          · simp only [appendAccesses, List.forall_mem_append, List.forall_mem_cons]
            refine ⟨⟨hfree, hfree.1, by simp⟩, ⟨hfree.1, by simp⟩, ?_⟩
            split_ifs with htail
            · exact List.forall_mem_singleton.mpr (h.safe_tail side price htail)
            · exact hnone
  | cancelOrder id => exact hupdate (.cancelOrder id)
  | modifyOrder id q => exact hupdate (.modifyOrder id q)
  | executeOrder id q => exact hupdate (.executeOrder id q)
  | clear => exact hupdate .clear

/-- A traversal of a level, from its head along `next`, uses indices of the pool only, and
ends. -/
theorem Represents.traversal_safe (h : Represents b A) {side : Side} {price : Price}
    {level : PriceLevel} (hlevel : b.findLevel side price = some level) :
    (∃ indices, b.chain level = some indices) ∧
      ∀ i, Visits (nextOf b.nodes) npos level.head i → b.Safe (.node i) := by
  refine ⟨⟨_, h.chain hlevel⟩, fun i hvisits => ?_⟩
  obtain ⟨-, rfl⟩ := h.level_eq hlevel
  exact h.safe_node (mem_handles_queue ((h.linked side price).mem_of_visits hvisits))

end PooledLimitOrderBook

/-- **No invalid access and no wrap.** In every state that a book reaches, every operation with
any arguments uses levels that exist, entries of the queue it takes them for, indices of the
pool, free nodes that are not active, and takes no quantity or count below zero; every traversal
of a level of the pooled book ends and stays inside the pool. The uses are those that the
operation makes, statement by statement, on its way to its answer and to the next state. -/
theorem accesses_safe (ops : List BookOp) (op : BookOp) :
    (let b := finalState LimitOrderBook.exec .empty ops
     b.execTraced op = (b.accesses op, b.exec op) ∧ ∀ access ∈ b.accesses op, b.Safe access) ∧
      ∀ N : UInt64,
        let b := finalState PooledLimitOrderBook.exec (.new N) ops
        b.execTraced op = (b.accesses op, b.exec op) ∧
          (∀ access ∈ b.accesses op, b.Safe access) ∧
          ∀ side price level, b.findLevel side price = some level →
            (∃ indices, b.chain level = some indices) ∧
              ∀ i, Visits (PooledLimitOrderBook.nextOf b.nodes) npos level.head i →
                b.Safe (.node i) := by
  refine ⟨⟨LimitOrderBook.execTraced_eq _ op, ?_⟩, fun N => ?_⟩
  · obtain ⟨-, A, hrep, -⟩ := LimitOrderBook.run_refines ops
    exact hrep.safe_accesses op
  · obtain ⟨-, A, ⟨hrep, -⟩, -⟩ := PooledLimitOrderBook.run_refines N ops
    exact ⟨PooledLimitOrderBook.execTraced_eq _ op, hrep.safe_accesses op,
      fun side price level hlevel => hrep.traversal_safe hlevel⟩

end Datagine
