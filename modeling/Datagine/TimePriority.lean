import Datagine.Lib.QueueOrder
import Datagine.PooledRuns
import Datagine.Rulings

/-!
# Time Priority over Whole Runs

Whatever happens to a book, an order keeps its place in the queue of its level for as long as it
rests: new orders come behind it, and the orders ahead of it can only leave. A modify or a partial
execution does not cost an order its place. An order that is cancelled and added again under the
same id is a new order and comes last.

## Main results

* `time_priority`: the queue of a level after any operations, in terms of the queue before them,
  for both books.
-/

namespace Datagine

open KeyedList Mealy QueueOrder

/-- The ids in the queue of a level. -/
def queuedIds (s : Side) (p : Price) (L : List LiveOrder) : List OrderId :=
  (ordersAt L s p).map LiveOrder.orderId

variable {s : Side} {p : Price} {L : List LiveOrder}

/-- Queued ids are live. -/
theorem mem_of_mem_queuedIds {id : OrderId} (h : id ∈ queuedIds s p L) :
    id ∈ L.map LiveOrder.orderId := by
  obtain ⟨o, ho, rfl⟩ := List.mem_map.mp h
  exact List.mem_map_of_mem (List.mem_filter.mp ho).1

/-! ### One operation -/

/-- An edit keeps the order of every queue. -/
theorem keepsOrder_run (edit : Edit) {id : OrderId}
    (hnew : ∀ side price timestamp quantity, edit = .push side price timestamp quantity →
      id ∉ L.map LiveOrder.orderId) :
    KeepsOrder (queuedIds s p L) (queuedIds s p (edit.run id L)) := by
  rw [queuedIds, queuedIds, ordersAt_run]
  cases edit with
  | keep => exact KeepsOrder.refl _
  | push side price timestamp quantity =>
      have hid := hnew side price timestamp quantity rfl
      rw [Edit.runAt]
      split_ifs
      · rw [List.map_append]
        exact KeepsOrder.concat fun h => hid (mem_of_mem_queuedIds h)
      · exact KeepsOrder.refl _
  | erase =>
      have hfilter : (eraseKey LiveOrder.orderId id (ordersAt L s p)).map LiveOrder.orderId =
          ((ordersAt L s p).map LiveOrder.orderId).filter fun id' => id' ≠ id := by
        rw [eraseKey, List.filter_map]
        rfl
      rw [Edit.runAt, hfilter]
      exact KeepsOrder.filter _ _
  | resize quantity =>
      rw [Edit.runAt, map_key_updateKey (f := LiveOrder.withQuantity quantity) fun _ => rfl]
      exact KeepsOrder.refl _

/-- Every operation but `clear` is that of an event. -/
theorem BookOp.eq_clear_or_toOp (op : BookOp) :
    op = .clear ∨ ∃ event : MarketEvent, op = event.toOp := by
  cases op with
  | addOrder id side price quantity timestamp =>
      exact .inr ⟨⟨.add, timestamp, id, side, price, quantity⟩, rfl⟩
  | cancelOrder id => exact .inr ⟨{ type := .cancel, orderId := id }, rfl⟩
  | modifyOrder id q => exact .inr ⟨{ type := .modify, orderId := id, quantity := q }, rfl⟩
  | executeOrder id q => exact .inr ⟨{ type := .execute, orderId := id, quantity := q }, rfl⟩
  | clear => exact .inl rfl

/-- **The rules keep the order of every queue.** -/
theorem keepsOrder_exec (L : List LiveOrder) (op : BookOp) :
    KeepsOrder (queuedIds s p L) (queuedIds s p (Reference.exec L op).2) := by
  rcases op.eq_clear_or_toOp with rfl | ⟨event, rfl⟩
  · have hgone := KeepsOrder.filter (queuedIds s p L) fun _ => false
    rwa [List.filter_false] at hgone
  · rw [Reference.exec_toOp, Reference.apply_eq]
    refine keepsOrder_run _ fun side price timestamp quantity hedit => ?_
    obtain ⟨-, -, -, hresting⟩ := push_of_ruling hedit
    rw [quantityOf, Option.map_eq_none_iff, findKey_eq_none_iff] at hresting
    exact hresting

/-- One operation on a bounded list keeps the order of every queue. -/
theorem keepsOrder_boundedExec (capacity : ℕ) (L : List LiveOrder) (op : BookOp) :
    KeepsOrder (queuedIds s p L) (queuedIds s p (Reference.boundedExec capacity L op).2) := by
  rw [Reference.boundedExec]
  split_ifs
  · exact KeepsOrder.refl _
  · exact keepsOrder_exec L op

/-! ### Whole runs -/

/-- Along the operations, the queue keeps those that stay in their order, in front of all others,
and no order that stays gets another one ahead of it. -/
def KeepsPriority {β : Type} (exec : β → BookOp → Option BookResult × β)
    (queue : β → List OrderId) (b : β) (ops : List BookOp) : Prop :=
  let after := queue (finalState exec b ops)
  let stays := fun id => stays queue exec id b ops
  (∃ arrivals, (∀ id ∈ arrivals, stays id = false) ∧ after = (queue b).filter stays ++ arrivals) ∧
    ∀ id, stays id = true → ahead after id = (ahead (queue b) id).filter stays

/-- What keeps the order step by step keeps priority along a run. -/
theorem keepsPriority_of_step {β : Type} {exec : β → BookOp → Option BookResult × β}
    {queue : β → List OrderId} {I : β → Prop}
    (hstep : ∀ b op, I b → I (exec b op).2 ∧ KeepsOrder (queue b) (queue (exec b op).2)) {b : β}
    (hb : I b) (ops : List BookOp) : KeepsPriority exec queue b ops :=
  ⟨queue_run hstep hb ops, fun _ hstays => ahead_run hstep hb ops hstays⟩

/-- **Time priority.** Take any state of the linked-list book, or of a pool of any capacity, any
operations after it, and any level. The queue of the level then consists of the orders that were
in it all the time, in the order they had, and behind them of those that came since; and of the
orders ahead of one that stays, those are left that stayed, and no others. -/
theorem time_priority (before ops : List BookOp) (s : Side) (p : Price) :
    KeepsPriority LimitOrderBook.exec (fun b => b.orderIdsAtPrice s p)
        (finalState LimitOrderBook.exec .empty before) ops ∧
      ∀ N : UInt64, KeepsPriority PooledLimitOrderBook.exec
        (fun b => (b.orderIdsAtPrice s p).getD [])
        (finalState PooledLimitOrderBook.exec (.new N) before) ops := by
  refine ⟨?_, fun N => ?_⟩
  · obtain ⟨-, A, hA, -⟩ := LimitOrderBook.run_refines before
    refine keepsPriority_of_step (I := fun b => ∃ A, LimitOrderBook.Represents b A) ?_ ⟨A, hA⟩ ops
    rintro b op ⟨A, hA⟩
    obtain ⟨-, B, hB, hlive⟩ := LimitOrderBook.exec_refines hA op
    refine ⟨⟨B, hB⟩, ?_⟩
    rw [hA.orderIdsAtPrice, hB.orderIdsAtPrice, hlive]
    exact keepsOrder_exec A.live op
  · obtain ⟨-, A, hA, -⟩ := PooledLimitOrderBook.run_refines N before
    refine keepsPriority_of_step (I := fun b => ∃ A, PooledLimitOrderBook.Holds N.toNat b A) ?_
      ⟨A, hA⟩ ops
    rintro b op ⟨A, hA⟩
    obtain ⟨-, B, hB, hlive⟩ := PooledLimitOrderBook.exec_refines hA op
    refine ⟨⟨B, hB⟩, ?_⟩
    rw [hA.1.orderIdsAtPrice, hB.1.orderIdsAtPrice, hlive]
    exact keepsOrder_boundedExec N.toNat A.live op

end Datagine
