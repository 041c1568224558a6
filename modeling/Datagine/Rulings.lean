import Datagine.LevelViews

/-!
# Rulings

The rules of the book read one thing of the live list, the quantity resting under the id of
the event, and answer with a result and an edit of that one order (`ruling`,
`Reference.apply_eq`). An edit reaches one quantity (`quantityOf_run`) and the queue of one
level (`ordersAt_run`), so what follows from that is proved edit by edit here and used for
whole runs elsewhere: two live lists with the same queues cannot be told apart
(`SameQueues`).
-/

namespace Datagine

open KeyedList

/-- What the rules do to the order that an event names. -/
inductive Edit
  | keep
  | push (side : Side) (price : Price) (timestamp : Timestamp) (quantity : Quantity)
  | erase
  | resize (quantity : Quantity)
  deriving DecidableEq, Repr

/-- The live list after an edit of the order `id`. -/
def Edit.run (id : OrderId) : Edit → List LiveOrder → List LiveOrder
  | keep, L => L
  | push side price timestamp quantity, L => L ++ [⟨id, side, price, timestamp, quantity⟩]
  | erase, L => eraseKey LiveOrder.orderId id L
  | resize quantity, L => Reference.setQuantity L id quantity

/-- The quantity resting under an id. -/
def quantityOf (L : List LiveOrder) (id : OrderId) : Option Quantity :=
  (findKey LiveOrder.orderId id L).map LiveOrder.quantity

/-- The answer to an event and the edit it causes, given what rests under its id. -/
def ruling (event : MarketEvent) (resting : Option Quantity) : BookResult × Edit :=
  match event.type with
  | .add =>
      if event.quantity.units = 0 then (.invalidQuantity, .keep)
      else
        match resting with
        | some _ => (.duplicateOrderId, .keep)
        | none =>
            (.applied, .push event.side event.price event.timestamp event.quantity)
  | .cancel =>
      match resting with
      | none => (.missingOrderId, .keep)
      | some _ => (.applied, .erase)
  | .modify =>
      if event.quantity.units = 0 then (.invalidQuantity, .keep)
      else
        match resting with
        | none => (.missingOrderId, .keep)
        | some quantity =>
            if event.quantity.units > quantity.units then (.unsupportedModify, .keep)
            else (.applied, .resize event.quantity)
  | .execute =>
      if event.quantity.units = 0 then (.invalidQuantity, .keep)
      else
        match resting with
        | none => (.missingOrderId, .keep)
        | some quantity =>
            if event.quantity.units > quantity.units then (.insufficientQuantity, .keep)
            else if event.quantity.units = quantity.units then (.applied, .erase)
            else (.applied, .resize ⟨quantity.units - event.quantity.units⟩)

/-- **The rules are rulings**: they read the quantity under the event's id and edit the order
with that id. -/
theorem Reference.apply_eq (L : List LiveOrder) (event : MarketEvent) :
    Reference.apply L event =
      ((ruling event (quantityOf L event.orderId)).1,
        (ruling event (quantityOf L event.orderId)).2.run event.orderId L) := by
  simp only [Reference.apply, ruling, quantityOf]
  cases event.type with
  | add =>
      simp only [Reference.addOrder]
      by_cases hq : event.quantity.units = 0
      · rw [if_pos hq, if_pos hq]
        rfl
      · rw [if_neg hq, if_neg hq]
        cases hfind : findKey LiveOrder.orderId event.orderId L with
        | none => rw [if_neg (findKey_eq_none_iff.mp hfind)]; rfl
        | some o =>
            obtain ⟨hmem, hid⟩ := mem_of_findKey hfind
            rw [if_pos (hid ▸ List.mem_map_of_mem hmem)]
            rfl
  | cancel =>
      simp only [Reference.cancelOrder]
      cases findKey LiveOrder.orderId event.orderId L <;> rfl
  | modify =>
      simp only [Reference.modifyOrder]
      cases findKey LiveOrder.orderId event.orderId L with
      | none => split_ifs <;> rfl
      | some o =>
          simp only [Option.map_some]
          split_ifs <;> rfl
  | execute =>
      simp only [Reference.executeOrder]
      cases findKey LiveOrder.orderId event.orderId L with
      | none => split_ifs <;> rfl
      | some o =>
          simp only [Option.map_some]
          split_ifs <;> rfl

/-- An order is appended by an add under an id that is not live. -/
theorem push_of_ruling {event : MarketEvent} {resting : Option Quantity} {side : Side}
    {price : Price} {timestamp : Timestamp} {quantity : Quantity}
    (h : (ruling event resting).2 = .push side price timestamp quantity) :
    event.type = .add ∧ side = event.side ∧ price = event.price ∧ resting = none := by
  simp only [ruling] at h
  cases htype : event.type with
  | add =>
      rw [htype] at h
      cases resting with
      | none =>
          dsimp only at h
          split_ifs at h
          cases h
          exact ⟨rfl, rfl, rfl, rfl⟩
      | some q =>
          dsimp only at h
          split_ifs at h
  | cancel =>
      rw [htype] at h
      cases resting <;> cases h
  | modify =>
      rw [htype] at h
      cases resting <;> dsimp only at h <;> split_ifs at h
  | execute =>
      rw [htype] at h
      cases resting <;> dsimp only at h <;> split_ifs at h

/-! ### What an edit reaches -/

/-- The quantity under the edited id, after the edit. -/
def Edit.after (resting : Option Quantity) : Edit → Option Quantity
  | keep => resting
  | push _ _ _ quantity => resting.or (some quantity)
  | erase => none
  | resize quantity => resting.map fun _ => quantity

/-- An edit changes the quantity under its own id only. -/
theorem quantityOf_run (edit : Edit) (L : List LiveOrder) (id id' : OrderId) :
    quantityOf (edit.run id L) id' =
      if id' = id then edit.after (quantityOf L id) else quantityOf L id' := by
  rw [quantityOf, quantityOf, quantityOf]
  cases edit with
  | keep =>
      simp only [Edit.run, Edit.after]
      split_ifs with hid
      · rw [hid]
      · rfl
  | push side price timestamp quantity =>
      simp only [Edit.run, Edit.after, findKey, List.find?_append]
      split_ifs with hid
      · subst hid
        cases L.find? fun a => decide (a.orderId = id') <;> simp
      · have hid' : ¬id = id' := fun h => hid h.symm
        simp [hid']
  | erase =>
      simp only [Edit.run, Edit.after, findKey_eraseKey]
      split_ifs <;> rfl
  | resize quantity =>
      simp only [Edit.run, Edit.after, Reference.setQuantity]
      rw [findKey_updateKey (f := LiveOrder.withQuantity quantity) fun _ => rfl]
      split_ifs
      · rw [Option.map_map, Option.map_map]
        rfl
      · rfl

/-- The queue of a level after an edit of the order `id`. -/
def Edit.runAt (s : Side) (p : Price) (id : OrderId) : Edit → List LiveOrder → List LiveOrder
  | keep, Q => Q
  | push side price timestamp quantity, Q =>
      if side = s ∧ price = p then Q ++ [⟨id, side, price, timestamp, quantity⟩] else Q
  | erase, Q => eraseKey LiveOrder.orderId id Q
  | resize quantity, Q => updateKey LiveOrder.orderId id (LiveOrder.withQuantity quantity) Q

/-- An edit acts on every queue by itself. -/
theorem ordersAt_run (edit : Edit) (L : List LiveOrder) (id : OrderId) (s : Side) (p : Price) :
    ordersAt (edit.run id L) s p = edit.runAt s p id (ordersAt L s p) := by
  cases edit with
  | keep => rfl
  | push side price timestamp quantity =>
      rw [Edit.run, ordersAt, List.filter_append, Edit.runAt, ordersAt]
      by_cases h : side = s ∧ price = p
      · rw [if_pos h, List.filter_cons_of_pos (by simpa [LiveOrder.restsAt] using h)]
        rfl
      · rw [if_neg h, List.filter_cons_of_neg (by simpa [LiveOrder.restsAt] using h)]
        simp
  | erase => exact filter_eraseKey _
  | resize quantity => exact filter_updateKey _ fun _ => rfl

/-! ### Live lists with the same queues -/

/-- The two lists have the same queue at every level; they may interleave the levels
differently. -/
def SameQueues (L L' : List LiveOrder) : Prop := ∀ s p, ordersAt L s p = ordersAt L' s p

namespace SameQueues

variable {L L' : List LiveOrder}

/-- A list has the queues it has. -/
theorem refl (L : List LiveOrder) : SameQueues L L := fun _ _ => rfl

/-- Having the same queues is transitive. -/
theorem trans {L'' : List LiveOrder} (h : SameQueues L L') (h' : SameQueues L' L'') :
    SameQueues L L'' := fun s p => (h s p).trans (h' s p)

/-- The same queues hold the same orders. -/
theorem perm (h : SameQueues L L') : L.Perm L' := by
  have hcount : ∀ (K : List LiveOrder) (o : LiveOrder),
      (ordersAt K o.side o.price).count o = K.count o := fun K o =>
    List.count_filter (by simp [LiveOrder.restsAt])
  rw [List.perm_iff_count]
  intro o
  rw [← hcount, h, hcount]

/-- The same queues hold the same quantities. -/
theorem quantityOf_eq (h : SameQueues L L') (hnd : (L.map LiveOrder.orderId).Nodup)
    (id : OrderId) : quantityOf L id = quantityOf L' id := by
  have hnd' : (L'.map LiveOrder.orderId).Nodup := (h.perm.map _).nodup_iff.mp hnd
  have hfind : findKey LiveOrder.orderId id L = findKey LiveOrder.orderId id L' := by
    ext o
    rw [findKey_eq_some_iff hnd, findKey_eq_some_iff hnd', h.perm.mem_iff]
  rw [quantityOf, quantityOf, hfind]

/-- An edit keeps queues the same. -/
theorem run (h : SameQueues L L') (edit : Edit) (id : OrderId) :
    SameQueues (edit.run id L) (edit.run id L') := by
  intro s p
  rw [ordersAt_run, ordersAt_run, h]

/-- **The rules cannot tell them apart.** -/
theorem apply (h : SameQueues L L') (hnd : (L.map LiveOrder.orderId).Nodup)
    (event : MarketEvent) :
    (Reference.apply L event).1 = (Reference.apply L' event).1 ∧
      SameQueues (Reference.apply L event).2 (Reference.apply L' event).2 := by
  rw [Reference.apply_eq, Reference.apply_eq, h.quantityOf_eq hnd]
  exact ⟨rfl, h.run _ _⟩

end SameQueues

/-- A side is shown by its queues. -/
theorem ShowsSide.congr {L L' : List LiveOrder} {s : Side} {levels : List PriceLevelSnapshot}
    (h : ShowsSide L s levels) (hsame : SameQueues L L') : ShowsSide L' s levels where
  sorted := h.sorted
  prices p := by rw [h.prices, ← ordersAt_ne_nil_iff, ← ordersAt_ne_nil_iff, hsame]
  orders l hl := by rw [h.orders l hl, hsame]
  quantity l hl := by rw [h.quantity l hl, hsame]

end Datagine
