import Datagine.Lib.Reordering
import Datagine.SnapshotState

/-!
# Independent Events Commute

Two events are independent when they name different orders and do not both append to the same
queue. Their edits then commute on every queue (`Edit.runAt_comm`): an edit touches the orders
with its own id and appends at most one order. The live lists after the two orders of
application may interleave the levels differently, which no later event can observe
(`SameQueues`).

## Main results

* `LimitOrderBook.reordered_runs`: sequences that differ by swaps of independent neighbours
  give every event its result and end in books that show the same.
-/

namespace Datagine

open KeyedList Mealy

/-- Different orders, and not both adds on the same side and price. -/
def Independent (a b : MarketEvent) : Prop :=
  a.orderId ≠ b.orderId ∧
    ¬(a.type = .add ∧ b.type = .add ∧ a.side = b.side ∧ a.price = b.price)

instance : DecidableRel Independent := fun a b => inferInstanceAs
  (Decidable (a.orderId ≠ b.orderId ∧
    ¬(a.type = .add ∧ b.type = .add ∧ a.side = b.side ∧ a.price = b.price)))

/-! ### Edits of a queue -/

namespace Edit

/-- What an edit makes of an order that is already there. -/
def touch (id : OrderId) : Edit → LiveOrder → Option LiveOrder
  | keep, o => some o
  | push _ _ _ _, o => some o
  | erase, o => if o.orderId = id then none else some o
  | resize quantity, o => some (if o.orderId = id then o.withQuantity quantity else o)

/-- What an edit appends to a queue. -/
def appended (s : Side) (p : Price) (id : OrderId) : Edit → List LiveOrder
  | push side price timestamp quantity =>
      if side = s ∧ price = p then [⟨id, side, price, timestamp, quantity⟩] else []
  | _ => []

/-- An edit touches the orders of a level one by one and may append one. -/
theorem runAt_eq (edit : Edit) (s : Side) (p : Price) (id : OrderId) (Q : List LiveOrder) :
    edit.runAt s p id Q = Q.filterMap (edit.touch id) ++ edit.appended s p id := by
  cases edit with
  | keep =>
      have htouch : touch id keep = some := rfl
      simp [runAt, appended, htouch]
  | push side price timestamp quantity =>
      have htouch : touch id (push side price timestamp quantity) = some := rfl
      simp only [runAt, appended, htouch, List.filterMap_some]
      split_ifs <;> simp
  | erase =>
      simp only [runAt, appended, eraseKey, List.append_nil]
      rw [← List.filterMap_eq_filter]
      refine List.filterMap_congr fun o _ => ?_
      by_cases ho : o.orderId = id <;> simp [touch, Option.guard, ho]
  | resize quantity =>
      simp only [runAt, appended, updateKey, List.append_nil]
      rw [← List.filterMap_eq_map]
      rfl

variable {edit edit' : Edit} {id id' : OrderId}

/-- An edit of another id leaves the order. -/
theorem touch_of_ne {o : LiveOrder} (h : o.orderId ≠ id) : edit.touch id o = some o := by
  cases edit <;> simp [touch, h]

/-- A touched order keeps its id. -/
theorem orderId_of_touch {o o' : LiveOrder} (h : edit.touch id o = some o') :
    o'.orderId = o.orderId := by
  cases edit with
  | keep => exact congrArg LiveOrder.orderId (Option.some.inj h).symm
  | push side price timestamp quantity =>
      exact congrArg LiveOrder.orderId (Option.some.inj h).symm
  | erase =>
      simp only [touch] at h
      split_ifs at h
      exact congrArg LiveOrder.orderId (Option.some.inj h).symm
  | resize quantity =>
      simp only [touch] at h
      rw [← Option.some.inj h]
      split_ifs <;> rfl

/-- An order is touched by one of two edits with different ids. -/
theorem touch_comm (hne : id ≠ id') (o : LiveOrder) :
    (edit.touch id o).bind (edit'.touch id') = (edit'.touch id' o).bind (edit.touch id) := by
  -- the edit of another id finds the order as it was
  have hkey : ∀ {e e' : Edit} {k k' : OrderId}, o.orderId ≠ k' →
      (e.touch k o).bind (e'.touch k') = (e'.touch k' o).bind (e.touch k) := by
    intro e e' k k' ho
    rw [touch_of_ne ho, Option.bind_some]
    cases htouch : e.touch k o with
    | none => rfl
    | some o' =>
        rw [Option.bind_some, touch_of_ne]
        rwa [orderId_of_touch htouch]
  by_cases ho : o.orderId = id'
  · have hid : o.orderId ≠ id := fun h => hne (h.symm.trans ho)
    exact (hkey hid).symm
  · exact hkey ho

/-- An appended order has the id of its edit. -/
theorem orderId_of_mem_appended {s : Side} {p : Price} {o : LiveOrder}
    (h : o ∈ edit.appended s p id) : o.orderId = id := by
  cases edit with
  | push side price timestamp quantity =>
      simp only [appended] at h
      split_ifs at h
      · rw [List.mem_singleton.mp h]
      · exact absurd h List.not_mem_nil
  | keep => exact absurd h List.not_mem_nil
  | erase => exact absurd h List.not_mem_nil
  | resize quantity => exact absurd h List.not_mem_nil

/-- An edit of another id leaves what an edit appends. -/
theorem filterMap_touch_appended (hne : id ≠ id') (s : Side) (p : Price) :
    (edit.appended s p id).filterMap (edit'.touch id') = edit.appended s p id := by
  conv_rhs => rw [← List.filterMap_some (l := edit.appended s p id)]
  refine List.filterMap_congr fun o ho => touch_of_ne ?_
  rwa [orderId_of_mem_appended ho]

/-- **Edits of different orders commute on a queue** that at most one of them appends to. -/
theorem runAt_comm (hne : id ≠ id') {s : Side} {p : Price}
    (happend : edit.appended s p id = [] ∨ edit'.appended s p id' = []) (Q : List LiveOrder) :
    edit'.runAt s p id' (edit.runAt s p id Q) = edit.runAt s p id (edit'.runAt s p id' Q) := by
  have htouch : (Q.filterMap (edit.touch id)).filterMap (edit'.touch id') =
      (Q.filterMap (edit'.touch id')).filterMap (edit.touch id) := by
    rw [List.filterMap_filterMap, List.filterMap_filterMap]
    exact List.filterMap_congr fun o _ => touch_comm hne o
  simp only [runAt_eq, List.filterMap_append]
  rw [htouch, filterMap_touch_appended hne, filterMap_touch_appended hne.symm]
  rcases happend with hnil | hnil <;> simp [hnil]

end Edit

/-! ### Independent events on the live list -/

/-- Only an add appends, at its own level. -/
theorem appended_of_ruling {event : MarketEvent} {resting : Option Quantity} {s : Side} {p : Price}
    (h : (ruling event resting).2.appended s p event.orderId ≠ []) :
    event.type = .add ∧ event.side = s ∧ event.price = p := by
  cases hedit : (ruling event resting).2 with
  | push side price timestamp quantity =>
      obtain ⟨htype, rfl, rfl, -⟩ := push_of_ruling hedit
      rw [hedit, Edit.appended] at h
      split_ifs at h with hat
      · exact ⟨htype, hat⟩
      · exact absurd rfl h
  | keep => exact absurd (by rw [hedit]; rfl) h
  | erase => exact absurd (by rw [hedit]; rfl) h
  | resize quantity => exact absurd (by rw [hedit]; rfl) h

namespace Reference

/-- Ids stay unique. -/
theorem apply_idsNodup {L : List LiveOrder} (hnd : (L.map LiveOrder.orderId).Nodup)
    (event : MarketEvent) : ((Reference.apply L event).2.map LiveOrder.orderId).Nodup := by
  rw [Reference.apply_eq]
  cases hedit : (ruling event (quantityOf L event.orderId)).2 with
  | keep => exact hnd
  | push side price timestamp quantity =>
      obtain ⟨-, -, -, hnone⟩ := push_of_ruling hedit
      rw [quantityOf, Option.map_eq_none_iff, findKey_eq_none_iff] at hnone
      exact nodup_map_append_singleton hnd hnone
  | erase => exact nodup_map_eraseKey hnd
  | resize quantity =>
      rw [Edit.run, Reference.setQuantity,
        map_key_updateKey (f := LiveOrder.withQuantity quantity) fun _ => rfl]
      exact hnd

/-- **Independent events commute**: same answers in either order, and the same queues. -/
theorem apply_comm (L : List LiveOrder) {a b : MarketEvent} (h : Independent a b) :
    (Reference.apply (Reference.apply L b).2 a).1 = (Reference.apply L a).1 ∧
      (Reference.apply (Reference.apply L a).2 b).1 = (Reference.apply L b).1 ∧
      SameQueues (Reference.apply (Reference.apply L a).2 b).2
        (Reference.apply (Reference.apply L b).2 a).2 := by
  obtain ⟨hne, hadds⟩ := h
  simp only [Reference.apply_eq, quantityOf_run, if_neg hne, if_neg hne.symm]
  refine ⟨trivial, trivial, fun s p => ?_⟩
  rw [ordersAt_run, ordersAt_run, ordersAt_run, ordersAt_run]
  refine Edit.runAt_comm hne ?_ _
  by_contra hboth
  rw [not_or] at hboth
  obtain ⟨hta, hsa, hpa⟩ := appended_of_ruling hboth.1
  obtain ⟨htb, hsb, hpb⟩ := appended_of_ruling hboth.2
  exact hadds ⟨hta, htb, hsa.trans hsb.symm, hpa.trans hpb.symm⟩

end Reference

/-! ### Reordered runs of the book -/

namespace LimitOrderBook

/-- The statistics count the events that are answered `applied`. -/
theorem eventsApplied_run (b : LimitOrderBook) (events : List MarketEvent) :
    (finalState apply b events).eventsApplied =
      b.eventsApplied + (outputs apply b events).count .applied := by
  induction events generalizing b with
  | nil => rfl
  | cons event events ih =>
      rw [finalState_cons, outputs_cons, ih, List.count_cons]
      rcases b.apply_outcome event with ⟨hres, hstate⟩ | ⟨hres, hcount⟩
      · rw [hstate, if_neg (by simpa using hres)]
        rfl
      · rw [hcount, if_pos (by simpa using hres)]
        omega

/-- Events with their positions in the original sequence, reordered: the answers travel with
them and the books end alike. -/
theorem run_reordered {indexed reordered : List (MarketEvent × ℕ)}
    (h : Reorders (fun a b => Independent a.1 b.1) indexed reordered) :
    (indexed.zip (outputs apply empty (indexed.map Prod.fst))).Perm
        (reordered.zip (outputs apply empty (reordered.map Prod.fst))) ∧
      Alike (finalState apply empty (indexed.map Prod.fst))
        (finalState apply empty (reordered.map Prod.fst)) := by
  have hreorder := reorder (fun L x => Reference.apply L x.1) (E := SameQueues)
    (I := fun L => (L.map LiveOrder.orderId).Nodup)
    (fun L x hnd => Reference.apply_idsNodup hnd x.1) SameQueues.refl
    (fun _ _ _ hst htu => hst.trans htu) (fun _ _ x hnd hsame => hsame.apply hnd x.1)
    (fun L x y _ hxy => Reference.apply_comm L hxy) (s := []) List.nodup_nil h
  have hmap := run_map Reference.apply (Prod.fst : MarketEvent × ℕ → MarketEvent) []
  rw [answered, answered, (hmap indexed).1, (hmap reordered).1, (hmap indexed).2,
    (hmap reordered).2] at hreorder
  obtain ⟨hout, hholds⟩ := runEvents_refines (indexed.map Prod.fst)
  obtain ⟨hout', hholds'⟩ := runEvents_refines (reordered.map Prod.fst)
  rw [hout, hout']
  exact ⟨hreorder.1, _, _, hholds, hholds', hreorder.2⟩

/-- **Independent events commute.** Swap independent neighbours of a sequence as often as you
like, carrying along the position each event had. The event from position `n` gets the result
it had at position `n`, and the final books agree in snapshot, number of live orders, number
of applied events and checksum. -/
theorem reordered_runs (events : List MarketEvent) (reordered : List (MarketEvent × ℕ))
    (h : Reorders (fun a b => Independent a.1 b.1) events.zipIdx reordered) :
    let b := finalState apply empty events
    let b' := finalState apply empty (reordered.map Prod.fst)
    (∀ event n result,
      ((event, n), result) ∈ reordered.zip (outputs apply empty (reordered.map Prod.fst)) ↔
        events[n]? = some event ∧ (outputs apply empty events)[n]? = some result) ∧
      b'.snapshot = b.snapshot ∧ b'.liveOrderCount = b.liveOrderCount ∧
      b'.eventsApplied = b.eventsApplied ∧ checksumBook b' = checksumBook b := by
  dsimp only
  obtain ⟨hperm, hlike⟩ := run_reordered h
  rw [List.zipIdx_map_fst] at hperm hlike
  have hsnap := hlike.snapshot_eq.symm
  refine ⟨fun event n result => ?_, hsnap, hlike.liveOrderCount_eq.symm, ?_,
    congrArg checksumSnapshot hsnap⟩
  · rw [← hperm.mem_iff, List.mem_iff_getElem?]
    simp only [List.getElem?_zip_eq_some, List.getElem?_zipIdx, Option.map_eq_some_iff]
    constructor
    · rintro ⟨i, ⟨a, ha, heq⟩, hresult⟩
      obtain ⟨rfl, rfl⟩ := Prod.mk.inj heq
      rw [Nat.zero_add]
      exact ⟨ha, hresult⟩
    · rintro ⟨hevent, hresult⟩
      exact ⟨n, ⟨event, hevent, by rw [Nat.zero_add]⟩, hresult⟩
  · have hcount := (hperm.map Prod.snd).count_eq .applied
    rw [List.map_snd_zip (by simp), List.map_snd_zip (by simp)] at hcount
    rw [eventsApplied_run, eventsApplied_run, hcount]

/-- Adds at two prices of one side, in either order. -/
theorem reordered_runs_twoPrices :
    let bid : MarketEvent := { orderId := ⟨1⟩, price := ⟨100⟩, quantity := ⟨5⟩ }
    let better : MarketEvent := { orderId := ⟨2⟩, price := ⟨101⟩, quantity := ⟨7⟩ }
    Independent bid better ∧
      (finalState apply empty [better, bid]).snapshot =
        (finalState apply empty [bid, better]).snapshot := by
  dsimp only
  refine ⟨by decide, ?_⟩
  exact (reordered_runs _ [(_, 1), (_, 0)] (.swap [] (_, 0) (_, 1) [] .refl (by decide))).2.1

end LimitOrderBook

end Datagine
