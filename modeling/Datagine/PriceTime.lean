import Datagine.Lib.KeyedList
import Datagine.Lib.Mealy
import Datagine.Types

/-!
# Price-Time Priority, Abstractly

What an order book is for, without any of its data structures: a plain list of live
orders in acceptance order. An add appends, a cancel deletes, a modify or a partial
execution replaces a quantity in place, and everything else is rejected with no change
(`Reference.exec`). The queue of a price level is the sublist of the orders of one side
and price (`ordersAt`), so time priority is acceptance order by construction.

Both concrete books are shown to represent such a list. They keep, for every live order,
a handle into their own storage (a queue node, a pool slot), so the list they represent
carries one handle per order: `RestingOrders` is that list together with the facts that
ids and handles are never repeated and that no resting quantity is zero. Its three edits
`push`, `remove` and `setQuantity` are all a book ever does to it.

## Main definitions

* `LiveOrder`, `ordersAt`, `totalUnits`, `totalQuantity`: live orders, the queue of a
  level, its exact total and its total as a 64-bit word.
* `Reference.exec`, `Reference.apply`: the rules of the book on a plain list.
* `Reference.boundedExec`: the same rules when at most `capacity` orders may rest.
* `RestingOrders`: a live list with its handles and its invariants.
-/

namespace Datagine

open KeyedList

/-- One live order. -/
structure LiveOrder where
  orderId : OrderId
  side : Side
  price : Price
  timestamp : Timestamp
  quantity : Quantity
  deriving DecidableEq, Repr

/-- The order rests on side `s` at price `p`. -/
def LiveOrder.restsAt (s : Side) (p : Price) (o : LiveOrder) : Bool :=
  o.side = s ∧ o.price = p

/-- The queue of a level: the live orders of one side and price, in acceptance order. -/
def ordersAt (L : List LiveOrder) (s : Side) (p : Price) : List LiveOrder :=
  L.filter (LiveOrder.restsAt s p)

/-- The quantity resting in a queue, as an unbounded number. -/
def totalUnits (os : List LiveOrder) : ℕ :=
  (os.map fun o => o.quantity.units.toNat).sum

/-- The quantity resting in a queue, modulo `2 ^ 64`. -/
def totalQuantity (os : List LiveOrder) : Quantity :=
  ⟨UInt64.ofNat (totalUnits os)⟩

/-- The order with another quantity. -/
def LiveOrder.withQuantity (q : Quantity) (o : LiveOrder) : LiveOrder :=
  { o with quantity := q }

/-- A live order as a snapshot shows it. -/
def LiveOrder.view (o : LiveOrder) : OrderView :=
  ⟨o.orderId, o.timestamp, o.quantity⟩

/-! ### The rules of the book -/

namespace Reference

/-- Accept an order with a new id and a positive quantity at the end of the list. -/
def addOrder (L : List LiveOrder) (orderId : OrderId) (side : Side) (price : Price)
    (quantity : Quantity) (timestamp : Timestamp) : BookResult × List LiveOrder :=
  if quantity.units = 0 then (.invalidQuantity, L)
  else if orderId ∈ L.map LiveOrder.orderId then (.duplicateOrderId, L)
  else (.applied, L ++ [⟨orderId, side, price, timestamp, quantity⟩])

/-- Delete a live order. -/
def cancelOrder (L : List LiveOrder) (orderId : OrderId) : BookResult × List LiveOrder :=
  match findKey LiveOrder.orderId orderId L with
  | none => (.missingOrderId, L)
  | some _ => (.applied, eraseKey LiveOrder.orderId orderId L)

/-- Replace the quantity of an order in place. -/
def setQuantity (L : List LiveOrder) (orderId : OrderId) (q : Quantity) : List LiveOrder :=
  updateKey LiveOrder.orderId orderId (LiveOrder.withQuantity q) L

/-- Reduce the quantity of a live order in place; it may stay the same but not grow. -/
def modifyOrder (L : List LiveOrder) (orderId : OrderId) (newQuantity : Quantity) :
    BookResult × List LiveOrder :=
  if newQuantity.units = 0 then (.invalidQuantity, L)
  else
    match findKey LiveOrder.orderId orderId L with
    | none => (.missingOrderId, L)
    | some o =>
        if newQuantity.units > o.quantity.units then (.unsupportedModify, L)
        else (.applied, setQuantity L orderId newQuantity)

/-- Take an executed amount off a live order in place; a full execution deletes it. -/
def executeOrder (L : List LiveOrder) (orderId : OrderId) (executedQuantity : Quantity) :
    BookResult × List LiveOrder :=
  if executedQuantity.units = 0 then (.invalidQuantity, L)
  else
    match findKey LiveOrder.orderId orderId L with
    | none => (.missingOrderId, L)
    | some o =>
        if executedQuantity.units > o.quantity.units then (.insufficientQuantity, L)
        else if executedQuantity.units = o.quantity.units then
          (.applied, eraseKey LiveOrder.orderId orderId L)
        else
          (.applied, setQuantity L orderId ⟨o.quantity.units - executedQuantity.units⟩)

/-- The rules, operation by operation; clearing answers nothing. -/
def exec (L : List LiveOrder) : BookOp → Option BookResult × List LiveOrder
  | .addOrder id side price quantity timestamp =>
      let r := addOrder L id side price quantity timestamp
      (some r.1, r.2)
  | .cancelOrder id =>
      let r := cancelOrder L id
      (some r.1, r.2)
  | .modifyOrder id q =>
      let r := modifyOrder L id q
      (some r.1, r.2)
  | .executeOrder id q =>
      let r := executeOrder L id q
      (some r.1, r.2)
  | .clear => (none, [])

/-- The rules, event by event. -/
def apply (L : List LiveOrder) (event : MarketEvent) : BookResult × List LiveOrder :=
  match event.type with
  | .add => addOrder L event.orderId event.side event.price event.quantity event.timestamp
  | .modify => modifyOrder L event.orderId event.quantity
  | .cancel => cancelOrder L event.orderId
  | .execute => executeOrder L event.orderId event.quantity

/-- An add that only lacks room: a positive quantity, a new id, and a full book. -/
def LacksRoom (capacity : ℕ) (L : List LiveOrder) : BookOp → Prop
  | .addOrder id _ _ quantity _ =>
      quantity.units ≠ 0 ∧ id ∉ L.map LiveOrder.orderId ∧ L.length = capacity
  | _ => False

instance (capacity : ℕ) (L : List LiveOrder) : DecidablePred (LacksRoom capacity L)
  | .addOrder id _ _ quantity _ => inferInstanceAs
      (Decidable (quantity.units ≠ 0 ∧ id ∉ L.map LiveOrder.orderId ∧ L.length = capacity))
  | .cancelOrder _ | .modifyOrder _ _ | .executeOrder _ _ | .clear =>
      inferInstanceAs (Decidable False)

/-- The rules when at most `capacity` orders may rest. -/
def boundedExec (capacity : ℕ) (L : List LiveOrder) (op : BookOp) :
    Option BookResult × List LiveOrder :=
  if LacksRoom capacity L op then (some .capacityExceeded, L) else exec L op

/-- An operation that is not answered `applied`, and is not a clear, changes nothing. -/
theorem exec_eq_self {L : List LiveOrder} {op : BookOp} (hres : (exec L op).1 ≠ some .applied)
    (hclear : op ≠ .clear) : (exec L op).2 = L := by
  cases op with
  | addOrder id side price quantity timestamp =>
      simp only [exec, addOrder] at hres ⊢
      split_ifs at hres ⊢ <;> first | rfl | exact absurd rfl hres
  | cancelOrder id =>
      simp only [exec, cancelOrder] at hres ⊢
      cases hfind : findKey LiveOrder.orderId id L with
      | none => rfl
      | some o =>
          rw [hfind] at hres
          exact absurd rfl hres
  | modifyOrder id q =>
      simp only [exec, modifyOrder] at hres ⊢
      cases hfind : findKey LiveOrder.orderId id L with
      | none => split_ifs <;> rfl
      | some o =>
          rw [hfind] at hres
          dsimp only at hres ⊢
          split_ifs at hres ⊢ <;> first | rfl | exact absurd rfl hres
  | executeOrder id q =>
      simp only [exec, executeOrder] at hres ⊢
      cases hfind : findKey LiveOrder.orderId id L with
      | none => split_ifs <;> rfl
      | some o =>
          rw [hfind] at hres
          dsimp only at hres ⊢
          split_ifs at hres ⊢ <;> first | rfl | exact absurd rfl hres
  | clear => exact absurd rfl hclear

end Reference

/-- The operation an event asks for. -/
def MarketEvent.toOp (event : MarketEvent) : BookOp :=
  match event.type with
  | .add => .addOrder event.orderId event.side event.price event.quantity event.timestamp
  | .modify => .modifyOrder event.orderId event.quantity
  | .cancel => .cancelOrder event.orderId
  | .execute => .executeOrder event.orderId event.quantity

/-- No event clears the book. -/
theorem MarketEvent.toOp_ne_clear (event : MarketEvent) : event.toOp ≠ .clear := by
  rw [MarketEvent.toOp]
  cases event.type <;> simp

/-- An event is the operation it stands for. -/
theorem Reference.exec_toOp (L : List LiveOrder) (event : MarketEvent) :
    Reference.exec L event.toOp =
      (some (Reference.apply L event).1, (Reference.apply L event).2) := by
  rw [MarketEvent.toOp, Reference.apply]
  cases event.type <;> rfl

/-! ### Live orders with their handles -/

/-- A live order together with the handle under which a book stores it. -/
structure Resting extends LiveOrder where
  handle : ℕ
  deriving DecidableEq, Repr

/-- The resting order with another quantity. -/
def Resting.withQuantity (q : Quantity) (o : Resting) : Resting := { o with quantity := q }

/-- A live list with its handles: no id and no handle is repeated, and no quantity is
zero. -/
structure RestingOrders where
  orders : List Resting
  idsNodup : (orders.map fun o => o.orderId).Nodup
  handlesNodup : (orders.map fun o => o.handle).Nodup
  positive : ∀ o ∈ orders, o.quantity.units ≠ 0

namespace RestingOrders

variable (A : RestingOrders)

/-- The list without its handles. -/
def live : List LiveOrder := A.orders.map Resting.toLiveOrder

/-- The queue of a level, with its handles. -/
def queue (s : Side) (p : Price) : List Resting :=
  A.orders.filter fun o => o.toLiveOrder.restsAt s p

/-- The live order with a given id. -/
def find (id : OrderId) : Option Resting := findKey (fun o : Resting => o.orderId) id A.orders

/-- No live orders. -/
def empty : RestingOrders := ⟨[], List.nodup_nil, List.nodup_nil, by simp⟩

/-- Accept a new order. -/
def push (o : Resting) (hid : A.find o.orderId = none)
    (hhandle : o.handle ∉ A.orders.map fun o => o.handle) (hq : o.quantity.units ≠ 0) :
    RestingOrders where
  orders := A.orders ++ [o]
  idsNodup := nodup_map_append_singleton A.idsNodup (findKey_eq_none_iff.mp hid)
  handlesNodup := nodup_map_append_singleton A.handlesNodup hhandle
  positive := by
    intro a ha
    rcases List.mem_append.mp ha with hmem | hmem
    · exact A.positive a hmem
    · exact List.mem_singleton.mp hmem ▸ hq

/-- Delete the order with a given id. -/
def remove (id : OrderId) : RestingOrders where
  orders := eraseKey (fun o : Resting => o.orderId) id A.orders
  idsNodup := nodup_map_eraseKey A.idsNodup
  handlesNodup := nodup_map_eraseKey A.handlesNodup
  positive := fun o ho => A.positive o (mem_eraseKey.mp ho).1

/-- Replace a quantity in place. -/
def setQuantity (id : OrderId) (q : Quantity) (hq : q.units ≠ 0) : RestingOrders where
  orders := updateKey (fun o : Resting => o.orderId) id (Resting.withQuantity q) A.orders
  idsNodup := by
    rw [map_key_updateKey (f := Resting.withQuantity q) fun _ => rfl]
    exact A.idsNodup
  handlesNodup := by
    rw [map_key_updateKey (f := Resting.withQuantity q) fun _ => rfl]
    exact A.handlesNodup
  positive := by
    intro o ho
    rcases mem_updateKey.mp ho with ⟨hmem, -⟩ | ⟨a, -, -, rfl⟩
    · exact A.positive o hmem
    · exact hq

variable {A} {id : OrderId} {o : Resting} {s : Side} {p : Price}

/-- No id rests twice. -/
theorem live_idsNodup (A : RestingOrders) : (A.live.map LiveOrder.orderId).Nodup := by
  rw [live, List.map_map]
  exact A.idsNodup

/-- No order rests with quantity zero. -/
theorem live_positive (A : RestingOrders) : ∀ o ∈ A.live, o.quantity.units ≠ 0 := by
  intro o ho
  obtain ⟨a, ha, rfl⟩ := List.mem_map.mp ho
  exact A.positive a ha

/-! #### What is found -/

/-- An order is found under its id. -/
theorem find_eq_some_iff : A.find id = some o ↔ o ∈ A.orders ∧ o.orderId = id :=
  findKey_eq_some_iff A.idsNodup

/-- Nothing is found under an id that is not live. -/
theorem find_eq_none_iff : A.find id = none ↔ id ∉ A.live.map LiveOrder.orderId := by
  rw [find, findKey_eq_none_iff, live, List.map_map]
  rfl

/-- A lookup in the live list. -/
theorem findKey_live (A : RestingOrders) (id : OrderId) :
    findKey LiveOrder.orderId id A.live = (A.find id).map Resting.toLiveOrder :=
  findKey_map fun _ => rfl

/-- The orders of a queue. -/
theorem mem_queue : o ∈ A.queue s p ↔ o ∈ A.orders ∧ o.side = s ∧ o.price = p := by
  simp [queue, LiveOrder.restsAt]

/-- A queue is that of the live list at its level. -/
theorem map_queue (A : RestingOrders) (s : Side) (p : Price) :
    (A.queue s p).map Resting.toLiveOrder = ordersAt A.live s p := by
  rw [ordersAt, live, List.filter_map]
  rfl

/-- No id stands in a queue twice. -/
theorem queue_idsNodup (A : RestingOrders) (s : Side) (p : Price) :
    ((A.queue s p).map fun o => o.orderId).Nodup :=
  A.idsNodup.sublist (List.filter_sublist.map _)

/-- Neither does a handle. -/
theorem queue_handlesNodup (A : RestingOrders) (s : Side) (p : Price) :
    ((A.queue s p).map fun o => o.handle).Nodup :=
  A.handlesNodup.sublist (List.filter_sublist.map _)

/-! #### What the edits do to the live list, the lookups and the queues -/

section Push

variable {hid : A.find o.orderId = none} {hhandle : o.handle ∉ A.orders.map fun o => o.handle}
  {hq : o.quantity.units ≠ 0}

/-- A push appends to the live list. -/
theorem live_push : (A.push o hid hhandle hq).live = A.live ++ [o.toLiveOrder] := by
  simp [live, push]

/-- A lookup behind a push. -/
theorem find_push (id : OrderId) :
    (A.push o hid hhandle hq).find id = if id = o.orderId then some o else A.find id :=
  findKey_append_singleton (findKey_eq_none_iff.mp hid)

/-- A push joins the queue of its level and no other. -/
theorem queue_push (s : Side) (p : Price) :
    (A.push o hid hhandle hq).queue s p =
      if o.side = s ∧ o.price = p then A.queue s p ++ [o] else A.queue s p := by
  rw [queue, push, List.filter_append, ← queue]
  by_cases h : o.side = s ∧ o.price = p
  · rw [if_pos h, List.filter_cons_of_pos (by simpa [LiveOrder.restsAt] using h)]
    rfl
  · rw [if_neg h, List.filter_cons_of_neg (by simpa [LiveOrder.restsAt] using h)]
    simp

end Push

/-- A removal erases from the live list. -/
theorem live_remove (A : RestingOrders) (id : OrderId) :
    (A.remove id).live = eraseKey LiveOrder.orderId id A.live :=
  map_eraseKey fun _ => rfl

/-- A lookup behind a removal. -/
theorem find_remove (A : RestingOrders) (id id' : OrderId) :
    (A.remove id).find id' = if id' = id then none else A.find id' :=
  findKey_eraseKey

/-- A removal erases from the queues. -/
theorem queue_remove (A : RestingOrders) (id : OrderId) (s : Side) (p : Price) :
    (A.remove id).queue s p = eraseKey (fun o : Resting => o.orderId) id (A.queue s p) :=
  filter_eraseKey _

/-- A change of a quantity is one in the live list. -/
theorem live_setQuantity (A : RestingOrders) (id : OrderId) {q : Quantity}
    (hq : q.units ≠ 0) : (A.setQuantity id q hq).live = Reference.setQuantity A.live id q :=
  map_updateKey (fun _ => rfl) fun _ => rfl

/-- A lookup behind a change of a quantity. -/
theorem find_setQuantity (A : RestingOrders) (id : OrderId) {q : Quantity}
    (hq : q.units ≠ 0) (id' : OrderId) :
    (A.setQuantity id q hq).find id' =
      if id' = id then (A.find id).map (Resting.withQuantity q) else A.find id' :=
  findKey_updateKey fun _ => rfl

/-- A change of a quantity keeps the places in the queues. -/
theorem queue_setQuantity (A : RestingOrders) (id : OrderId) {q : Quantity}
    (hq : q.units ≠ 0) (s : Side) (p : Price) :
    (A.setQuantity id q hq).queue s p =
      updateKey (fun o : Resting => o.orderId) id (Resting.withQuantity q) (A.queue s p) :=
  filter_updateKey _ fun _ => rfl

/-- Writing an order's own quantity changes nothing. -/
theorem setQuantity_live_self (ho : A.find id = some o) :
    Reference.setQuantity A.live id o.quantity = A.live := by
  obtain ⟨hmem, rfl⟩ := find_eq_some_iff.mp ho
  have hlive : o.toLiveOrder ∈ A.live := List.mem_map_of_mem hmem
  obtain ⟨pre, post, hl, -, hupdate⟩ := exists_split A.live_idsNodup hlive
  rw [Reference.setQuantity, hupdate, hl]
  rfl

/-- An edit addressed to an order leaves the queues of other levels alone. -/
theorem not_mem_queue_of_ne (ho : A.find id = some o) (h : ¬(o.side = s ∧ o.price = p)) :
    id ∉ (A.queue s p).map fun o => o.orderId := by
  obtain ⟨hmem, rfl⟩ := find_eq_some_iff.mp ho
  intro hid
  obtain ⟨a, ha, heq⟩ := List.mem_map.mp hid
  obtain ⟨ha, hat⟩ := mem_queue.mp ha
  rw [List.inj_on_of_nodup_map A.idsNodup ha hmem heq] at hat
  exact h hat

end RestingOrders

/-! ### Totals of edited queues -/

/-- Different ids have different values. -/
theorem value_ne {id id' : OrderId} (h : id' ≠ id) : id'.value ≠ id.value := fun heq =>
  h (by cases id; cases id'; simp_all)

/-- One more order in a total. -/
theorem totalQuantity_append (os : List LiveOrder) (o : LiveOrder) :
    (totalQuantity (os ++ [o])).units = (totalQuantity os).units + o.quantity.units := by
  simp [totalQuantity, totalUnits]

/-- Taking an order out of a queue lowers the wrapped total by its quantity. -/
theorem totalQuantity_eraseKey {Q : List Resting}
    (hnd : (Q.map fun o => o.orderId).Nodup) {o : Resting} (ho : o ∈ Q) :
    (totalQuantity ((eraseKey (fun o : Resting => o.orderId) o.orderId Q).map
        Resting.toLiveOrder)).units =
      (totalQuantity (Q.map Resting.toLiveOrder)).units - o.quantity.units := by
  have hsum := sum_eraseKey hnd ho fun o => o.quantity.units.toNat
  simp only [totalQuantity, totalUnits, List.map_map, Function.comp_def]
  rw [← hsum, UInt64.ofNat_add, UInt64.ofNat_toNat]
  grind

/-- Lowering one quantity of a queue lowers the wrapped total by the same amount. -/
theorem totalQuantity_updateKey {Q : List Resting}
    (hnd : (Q.map fun o => o.orderId).Nodup) {o : Resting} (ho : o ∈ Q) {q : Quantity}
    {reduction : UInt64} (hred : reduction + q.units = o.quantity.units) :
    (totalQuantity ((updateKey (fun o : Resting => o.orderId) o.orderId
        (Resting.withQuantity q) Q).map Resting.toLiveOrder)).units =
      (totalQuantity (Q.map Resting.toLiveOrder)).units - reduction := by
  have hsum := sum_updateKey hnd ho (fun o => o.quantity.units.toNat) (Resting.withQuantity q)
  have hword := congrArg UInt64.ofNat hsum
  rw [UInt64.ofNat_add, UInt64.ofNat_add, UInt64.ofNat_toNat] at hword
  simp only [Resting.withQuantity, UInt64.ofNat_toNat] at hword
  simp only [totalQuantity, totalUnits, List.map_map, Function.comp_def]
  grind

/-! ### Steps of a book against the rules -/

/-- A book answers as the rules do and holds the list they leave, where `R b A` says that
`b` holds the resting orders `A`. -/
def StepRefines {β ο : Type} (R : β → RestingOrders → Prop) (r : ο × β)
    (r' : ο × List LiveOrder) : Prop :=
  r.1 = r'.1 ∧ ∃ A : RestingOrders, R r.2 A ∧ A.live = r'.2

section StepRefines

variable {β : Type} {R : β → RestingOrders → Prop} {b : β} {A : RestingOrders} {id : OrderId}
  {q : Quantity} {r : BookResult × β}

/-- Two words are equal, or one is smaller. -/
theorem word_trichotomy (x y : UInt64) : x < y ∨ x = y ∨ x > y := by
  simp only [UInt64.lt_iff_toNat_lt, ← UInt64.toNat_inj]
  omega

/-- A book that changes nothing, or removes the order it finds, implements cancel. -/
theorem StepRefines.cancelOrder (h : R b A)
    (hmissing : A.find id = none → r = (.missingOrderId, b))
    (hremove : ∀ o, A.find id = some o → r.1 = .applied ∧ R r.2 (A.remove id)) :
    StepRefines R r (Reference.cancelOrder A.live id) := by
  rw [Reference.cancelOrder, RestingOrders.findKey_live]
  cases hfind : A.find id with
  | none =>
      rw [hmissing hfind]
      exact ⟨rfl, A, h, rfl⟩
  | some o =>
      obtain ⟨hres, hrep⟩ := hremove o hfind
      exact ⟨hres, _, hrep, A.live_remove id⟩

/-- A book that lowers the order it finds by the difference implements modify. -/
theorem StepRefines.modifyOrder (h : R b A)
    (hzero : q.units = 0 → r = (.invalidQuantity, b))
    (hmissing : q.units ≠ 0 → A.find id = none → r = (.missingOrderId, b))
    (hgrow : ∀ o, q.units ≠ 0 → A.find id = some o → q.units > o.quantity.units →
      r = (.unsupportedModify, b))
    (hsame : ∀ o, q.units ≠ 0 → A.find id = some o → q.units = o.quantity.units →
      r.1 = .applied ∧ R r.2 A)
    (hlower : ∀ o (hq : q.units ≠ 0), A.find id = some o → q.units < o.quantity.units →
      o.quantity.units - q.units + q.units = o.quantity.units →
      r.1 = .applied ∧ R r.2 (A.setQuantity id q hq)) :
    StepRefines R r (Reference.modifyOrder A.live id q) := by
  rw [Reference.modifyOrder, RestingOrders.findKey_live]
  by_cases hq : q.units = 0
  · rw [if_pos hq, hzero hq]
    exact ⟨rfl, A, h, rfl⟩
  rw [if_neg hq]
  cases hfind : A.find id with
  | none =>
      rw [hmissing hq hfind]
      exact ⟨rfl, A, h, rfl⟩
  | some o =>
      simp only [Option.map_some]
      rcases word_trichotomy q.units o.quantity.units with hlt | heq | hgt
      · rw [if_neg (UInt64.lt_asymm hlt)]
        obtain ⟨hres, hrep⟩ := hlower o hq hfind hlt (by grind)
        exact ⟨hres, _, hrep, A.live_setQuantity id hq⟩
      · -- an unchanged quantity is accepted without touching the levels
        obtain ⟨hres, hrep⟩ := hsame o hq hfind heq
        obtain rfl : q = o.quantity := congrArg Quantity.mk heq
        rw [if_neg (UInt64.lt_irrefl _), RestingOrders.setQuantity_live_self hfind]
        exact ⟨hres, A, hrep, rfl⟩
      · rw [if_pos hgt, hgrow o hq hfind hgt]
        exact ⟨rfl, A, h, rfl⟩

/-- A book that removes a fully executed order and lowers any other implements execute. -/
theorem StepRefines.executeOrder (h : R b A)
    (hzero : q.units = 0 → r = (.invalidQuantity, b))
    (hmissing : q.units ≠ 0 → A.find id = none → r = (.missingOrderId, b))
    (hexcess : ∀ o, q.units ≠ 0 → A.find id = some o → q.units > o.quantity.units →
      r = (.insufficientQuantity, b))
    (hfull : ∀ o, q.units ≠ 0 → A.find id = some o → q.units = o.quantity.units →
      r.1 = .applied ∧ R r.2 (A.remove id))
    (hpart : ∀ o, q.units ≠ 0 → A.find id = some o → q.units < o.quantity.units →
      ∀ hrem : o.quantity.units - q.units ≠ 0,
        q.units + (o.quantity.units - q.units) = o.quantity.units →
        r.1 = .applied ∧ R r.2 (A.setQuantity id ⟨o.quantity.units - q.units⟩ hrem)) :
    StepRefines R r (Reference.executeOrder A.live id q) := by
  rw [Reference.executeOrder, RestingOrders.findKey_live]
  by_cases hq : q.units = 0
  · rw [if_pos hq, hzero hq]
    exact ⟨rfl, A, h, rfl⟩
  rw [if_neg hq]
  cases hfind : A.find id with
  | none =>
      rw [hmissing hq hfind]
      exact ⟨rfl, A, h, rfl⟩
  | some o =>
      simp only [Option.map_some]
      rcases word_trichotomy q.units o.quantity.units with hlt | heq | hgt
      · have hrem : o.quantity.units - q.units ≠ 0 := by grind
        rw [if_neg (UInt64.lt_asymm hlt), if_neg (UInt64.ne_of_lt hlt)]
        obtain ⟨hres, hrep⟩ := hpart o hq hfind hlt hrem (by grind)
        exact ⟨hres, _, hrep, A.live_setQuantity id hrem⟩
      · rw [if_neg (heq ▸ UInt64.lt_irrefl _), if_pos heq]
        obtain ⟨hres, hrep⟩ := hfull o hq hfind heq
        exact ⟨hres, _, hrep, A.live_remove id⟩
      · rw [if_pos hgt, hexcess o hq hfind hgt]
        exact ⟨rfl, A, h, rfl⟩

end StepRefines

end Datagine
