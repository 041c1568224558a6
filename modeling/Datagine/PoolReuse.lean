import Datagine.PooledRuns

/-!
# How Much of the Pool is Used

The free list is a stack with the lowest index on top at first, so a released node is handed out
again before a node that was never used. Over a whole run this means that the pool touches as many
nodes as there were ever live orders at one time, and no more: behind the free nodes that were
used before, the stack is still the descending list it was built as.

The other question about the size of the pool is how large it has to be for a feed. A pool is
large enough exactly if the linked-list book never holds more orders than it has nodes.

## Main results

* `PooledLimitOrderBook.nodes_below_peak`: only the nodes below the peak of live orders are used.
* `capacity_suffices_iff`: no event of a feed is refused for lack of room if and only if the feed
  never has more live orders than nodes.
-/

namespace Datagine

open Mealy

namespace PooledLimitOrderBook

variable {b : PooledLimitOrderBook} {A : RestingOrders} {N peak : ℕ}

/-! ### The free list, operation by operation -/

/-- A removal frees the node of its order, if it finds the level. -/
theorem freeIndices_removeExistingOrder (b : PooledLimitOrderBook) (id : OrderId)
    (record : OrderRecord) :
    (b.removeExistingOrder id record).freeIndices = b.freeIndices ∨
      (b.removeExistingOrder id record).freeIndices = b.freeIndices ++ [record.nodeIndex] := by
  simp only [removeExistingOrder]
  cases b.findLevel record.side record.price with
  | none => exact .inl rfl
  | some level => exact .inr rfl

/-- What an operation does to the free list: nothing, take the top node, or put the node of a live
order on top. -/
inductive FreeListStep (A : RestingOrders) (free free' : List ℕ) : Prop
  | unchanged (h : free' = free)
  | allocate (i : ℕ) (h : free = free' ++ [i])
  | release (i : ℕ) (hi : i ∈ handles A.orders) (h : free' = free ++ [i])

/-- The node of a record is that of an order. -/
theorem Represents.nodeIndex_mem (h : Represents b A) {id : UInt64} {record : OrderRecord}
    (hrecord : b.orderLookup.lookup id = some record) : record.nodeIndex ∈ handles A.orders :=
  h.inUse_iff.mp ⟨id, record, hrecord, rfl⟩

/-- A removal is a step of the free stack. -/
theorem Represents.freeListStep_remove (h : Represents b A) {id : OrderId} {record : OrderRecord}
    (hrecord : b.orderLookup.lookup id.value = some record) :
    FreeListStep A b.freeIndices (b.removeExistingOrder id record).countApplied.freeIndices := by
  rcases freeIndices_removeExistingOrder b id record with hsame | hrelease
  · exact .unchanged hsame
  · exact .release _ (h.nodeIndex_mem hrecord) hrelease

/-- So is every operation but `clear`. -/
theorem Represents.freeListStep (h : Represents b A) {op : BookOp} (hop : op ≠ .clear) :
    FreeListStep A b.freeIndices (b.exec op).2.freeIndices := by
  cases op with
  | addOrder id side price quantity timestamp =>
      simp only [exec, addOrder, allocateNode]
      split_ifs with hquantity hid
      · exact .unchanged rfl
      · exact .unchanged rfl
      · cases hlast : b.freeIndices.getLast? with
        | none => exact .unchanged rfl
        | some i => exact .allocate i (List.dropLast_append_getLast? i hlast).symm
  | cancelOrder id =>
      simp only [exec, cancelOrder]
      cases hlookup : b.orderLookup.lookup id.value with
      | none => exact .unchanged rfl
      | some record => exact h.freeListStep_remove hlookup
  | modifyOrder id q =>
      simp only [exec, modifyOrder]
      split_ifs with hquantity
      · exact .unchanged rfl
      · cases hlookup : b.orderLookup.lookup id.value with
        | none => exact .unchanged rfl
        | some record =>
            dsimp only
            split_ifs <;> exact .unchanged rfl
  | executeOrder id q =>
      simp only [exec, executeOrder]
      split_ifs with hquantity
      · exact .unchanged rfl
      · cases hlookup : b.orderLookup.lookup id.value with
        | none => exact .unchanged rfl
        | some record =>
            dsimp only
            split_ifs
            · exact .unchanged rfl
            · exact h.freeListStep_remove hlookup
            · exact .unchanged rfl
  | clear => exact absurd rfl hop

/-! ### The peak -/

/-- The nodes from `peak` on are as the pool was built; below them are the nodes that were used
before, and the nodes in use. -/
structure UsesBelow (N peak : ℕ) (b : PooledLimitOrderBook) : Prop where
  le : peak ≤ N
  free : ∃ reused, b.freeIndices = (List.range' peak (N - peak)).reverse ++ reused ∧
    ∀ i ∈ reused, i < peak

/-- A cleared pool uses nothing. -/
theorem usesBelow_resetFreeList (b : PooledLimitOrderBook) :
    UsesBelow b.nodes.length 0 b.resetFreeList := by
  refine ⟨Nat.zero_le _, [], ?_, by simp⟩
  rw [resetFreeList, List.append_nil, List.range_eq_range', Nat.sub_zero]

/-- The used part of the free list and the live orders make up the nodes below the peak. -/
theorem Holds.length_reused_add (h : Holds N b A) (hpeak : peak ≤ N) {reused : List ℕ}
    (hfree : b.freeIndices = (List.range' peak (N - peak)).reverse ++ reused) :
    reused.length + b.liveOrderCount = peak := by
  have hroom := h.1.length_free_add
  rw [h.2, hfree, List.length_append, List.length_reverse, List.length_range'] at hroom
  rw [h.1.liveOrderCount]
  omega

/-- **One operation.** A node from the peak on is taken only when all below it are in use. -/
theorem UsesBelow.step (hbelow : UsesBelow N peak b) (h : Holds N b A) {b' : PooledLimitOrderBook}
    {A' : RestingOrders} (h' : Holds N b' A')
    (hstep : FreeListStep A b.freeIndices b'.freeIndices) :
    UsesBelow N (max peak b'.liveOrderCount) b' := by
  obtain ⟨hle, reused, hfree, hreused⟩ := hbelow
  cases hstep with
  | unchanged heq =>
      have hcount := h'.length_reused_add hle (heq.trans hfree)
      rw [max_eq_left (by omega)]
      exact ⟨hle, reused, heq.trans hfree, hreused⟩
  | release i hi heq =>
      have hfree' : b'.freeIndices =
          (List.range' peak (N - peak)).reverse ++ (reused ++ [i]) := by
        rw [heq, hfree, List.append_assoc]
      have hcount := h'.length_reused_add hle hfree'
      have hlt : i < peak := by
        have hrange := h.1.handle_lt hi
        have hcap : b.nodes.length = N := h.2
        by_contra hge
        refine h.1.free_disjoint ?_ hi
        rw [hfree]
        refine List.mem_append_left _ (List.mem_reverse.mpr (List.mem_range'_1.mpr ?_))
        omega
      rw [max_eq_left (by omega)]
      refine ⟨hle, reused ++ [i], hfree', fun j hj => ?_⟩
      rcases List.mem_append.mp hj with hj | hj
      · exact hreused j hj
      · exact List.mem_singleton.mp hj ▸ hlt
  | allocate i heq =>
      rw [hfree] at heq
      rcases List.eq_nil_or_concat reused with rfl | ⟨rest, j, rfl⟩
      · -- every node below the peak is in use: the next one is taken
        have hmore : N - peak ≠ 0 := by
          intro hzero
          rw [hzero] at heq
          exact absurd heq (by simp)
        obtain ⟨m, hm⟩ := Nat.exists_eq_succ_of_ne_zero hmore
        have hsplit : (List.range' peak (N - peak)).reverse =
            (List.range' (peak + 1) m).reverse ++ [peak] := by
          rw [hm, List.range'_succ, List.reverse_cons]
        rw [List.append_nil, hsplit] at heq
        have hfree' : b'.freeIndices =
            (List.range' (peak + 1) (N - (peak + 1))).reverse ++ [] := by
          have hm' : N - (peak + 1) = m := by omega
          rw [hm', List.append_nil]
          exact (List.append_inj' heq rfl).1.symm
        have hcount := h'.length_reused_add (by omega) hfree'
        rw [List.length_nil, Nat.zero_add] at hcount
        rw [hcount, max_eq_right (Nat.le_succ peak)]
        exact ⟨by omega, [], hfree', by simp⟩
      · have hfree' : b'.freeIndices = (List.range' peak (N - peak)).reverse ++ rest := by
          rw [List.concat_eq_append, ← List.append_assoc] at heq
          exact (List.append_inj' heq rfl).1.symm
        have hcount := h'.length_reused_add hle hfree'
        rw [max_eq_left (by omega)]
        refine ⟨hle, rest, hfree', fun i hi => hreused i ?_⟩
        rw [List.concat_eq_append]
        exact List.mem_append_left _ hi

/-- The largest number of live orders since the pool was built or last cleared, when it was `peak`
in the state `b`. -/
def livePeak : PooledLimitOrderBook → ℕ → List BookOp → ℕ
  | _, peak, [] => peak
  | b, peak, op :: ops =>
      let b' := (b.exec op).2
      let peak := match op with
        | .clear => 0
        | _ => max peak b'.liveOrderCount
      livePeak b' peak ops

/-- A run uses nodes below its peak only. -/
theorem UsesBelow.run (hbelow : UsesBelow N peak b) (h : Holds N b A) (ops : List BookOp) :
    UsesBelow N (livePeak b peak ops) (finalState exec b ops) ∧
      ∃ A', Holds N (finalState exec b ops) A' := by
  induction ops generalizing b peak A with
  | nil => exact ⟨hbelow, A, h⟩
  | cons op ops ih =>
      obtain ⟨-, A', h', -⟩ := exec_refines h op
      rw [finalState_cons]
      by_cases hop : op = .clear
      · subst hop
        have hcap : b.nodes.length = N := h.2
        refine ih ?_ h'
        rw [← hcap]
        exact usesBelow_resetFreeList
          { b with toBookLevels := .empty, orderLookup := ∅, stats := {} }
      · have hnext := hbelow.step h h' (h.1.freeListStep hop)
        cases op with
        | clear => exact absurd rfl hop
        | _ => exact ih hnext h'

/-- **The pool touches as many nodes as there were live orders.** In every state of a pool of `N`
nodes, whatever the operations: let `peak` be the largest number of live orders since the pool was
built or last cleared. The orders rest in nodes below `peak`, the nodes from `peak` on are default
nodes, and the free list has them, in descending order, below all nodes that are free again. -/
theorem nodes_below_peak (N : UInt64) (ops : List BookOp) :
    let b := finalState exec (new N) ops
    let peak := livePeak (new N) 0 ops
    peak ≤ N.toNat ∧
      (∃ reused, b.freeIndices = (List.range' peak (N.toNat - peak)).reverse ++ reused ∧
        reused.length + b.liveOrderCount = peak ∧ ∀ i ∈ reused, i < peak) ∧
      (∀ id record, b.orderLookup.lookup id = some record → record.nodeIndex < peak) ∧
      ∀ i, peak ≤ i → i < N.toNat → b.nodes[i]? = some {} := by
  dsimp only
  have hstart : UsesBelow N.toNat 0 (new N) := by
    have hreset := usesBelow_resetFreeList
      ⟨.empty, List.replicate N.toNat {}, [], ∅, {}⟩
    rwa [List.length_replicate] at hreset
  obtain ⟨A₀, hnew, -⟩ := holdsLive_new N
  obtain ⟨⟨hle, reused, hfree, hreused⟩, A, hrep, hcap⟩ := hstart.run hnew ops
  have hmem : ∀ i, livePeak (new N) 0 ops ≤ i → i < N.toNat →
      i ∈ (finalState exec (new N) ops).freeIndices := by
    intro i hge hlt
    rw [hfree]
    refine List.mem_append_left _ (List.mem_reverse.mpr (List.mem_range'_1.mpr ?_))
    omega
  refine ⟨hle, ⟨reused, hfree, Holds.length_reused_add ⟨hrep, hcap⟩ hle hfree, hreused⟩,
    fun id record hrecord => ?_, fun i hge hlt => ?_⟩
  · have hused := hrep.nodeIndex_mem hrecord
    have hrange : record.nodeIndex < N.toNat := hcap ▸ hrep.handle_lt hused
    by_contra hge
    exact hrep.free_disjoint (hmem _ (by omega) hrange) hused
  · exact hrep.poolInvariant.freeDefault i (hmem i hge hlt)

end PooledLimitOrderBook

/-! ### How large a pool has to be -/

section

variable {N : ℕ} {p : PooledLimitOrderBook} {b : LimitOrderBook}

/-- The rules accept an add that only lacks room. -/
theorem Reference.length_of_lacksRoom {L : List LiveOrder} {event : MarketEvent}
    (h : Reference.LacksRoom N L event.toOp) :
    (Reference.apply L event).2.length = N + 1 := by
  obtain ⟨htype, hquantity, hid, hlength⟩ := lacksRoom_toOp.mp h
  rw [Reference.apply, htype]
  dsimp only
  rw [Reference.addOrder, if_neg hquantity, if_neg hid, List.length_append, hlength]
  rfl

/-- No more orders than nodes. -/
theorem SameOrders.liveOrderCount_le (h : SameOrders N p b) : b.liveOrderCount ≤ N := by
  obtain ⟨A, B, hp, hb, hlive, -⟩ := h
  have hroom := hp.1.length_free_add
  rw [hp.2] at hroom
  rw [hb.liveOrderCount, ← hlive]
  omega

/-- An event is refused for lack of room exactly if the other book then holds too many orders. -/
theorem SameOrders.capacityExceeded_iff (h : SameOrders N p b) (event : MarketEvent) :
    (p.apply event).1 = .capacityExceeded ↔ N < (b.apply event).2.liveOrderCount := by
  constructor
  · intro hfull
    obtain ⟨A, B, hp, hb, hlive, -⟩ := h
    have hlacks := (apply_eq_capacityExceeded hp event).mp hfull
    obtain ⟨-, B', hb', hB'⟩ := LimitOrderBook.apply_refines hb event
    rw [hb'.liveOrderCount, hB', ← hlive, Reference.length_of_lacksRoom hlacks]
    exact Nat.lt_succ_self N
  · intro hlt
    by_contra hroom
    have := (h.step event hroom).2.liveOrderCount_le
    omega

/-- From books with the same orders, no event is refused for lack of room exactly if the
linked-list book never holds more orders than there are nodes. -/
theorem SameOrders.fits_iff (h : SameOrders N p b) (events : List MarketEvent) :
    (∀ r ∈ outputs PooledLimitOrderBook.apply p events, r ≠ .capacityExceeded) ↔
      ∀ pre, pre <+: events → (finalState LimitOrderBook.apply b pre).liveOrderCount ≤ N := by
  induction events generalizing p b with
  | nil =>
      refine iff_of_true (by simp) fun pre hpre => ?_
      rw [List.prefix_nil.mp hpre]
      exact h.liveOrderCount_le
  | cons event events ih =>
      rw [outputs_cons, List.forall_mem_cons]
      by_cases hfull : (p.apply event).1 = .capacityExceeded
      · refine iff_of_false (fun hall => hall.1 hfull) fun hall => ?_
        have hone := hall [event] (List.prefix_append [event] events)
        have hlt := (h.capacityExceeded_iff event).mp hfull
        rw [finalState_cons, finalState_nil] at hone
        omega
      · have hnext := (h.step event hfull).2
        rw [ih hnext]
        constructor
        · rintro ⟨-, hall⟩ pre hpre
          cases pre with
          | nil => exact h.liveOrderCount_le
          | cons e pre =>
              obtain ⟨rfl, hrest⟩ := List.cons_prefix_cons.mp hpre
              exact hall pre hrest
        · intro hall
          exact ⟨hfull, fun pre hpre =>
            hall (event :: pre) (List.cons_prefix_cons.mpr ⟨rfl, hpre⟩)⟩

/-- Without a refusal for lack of room the books stay together. -/
theorem SameOrders.run (h : SameOrders N p b) (events : List MarketEvent)
    (hfits : ∀ r ∈ outputs PooledLimitOrderBook.apply p events, r ≠ .capacityExceeded) :
    outputs PooledLimitOrderBook.apply p events = outputs LimitOrderBook.apply b events ∧
      SameOrders N (finalState PooledLimitOrderBook.apply p events)
        (finalState LimitOrderBook.apply b events) := by
  induction events generalizing p b with
  | nil => exact ⟨rfl, h⟩
  | cons event events ih =>
      rw [outputs_cons, List.forall_mem_cons] at hfits
      obtain ⟨hres, hnext⟩ := h.step event hfits.1
      obtain ⟨houts, hfinal⟩ := ih hnext hfits.2
      rw [outputs_cons, outputs_cons, hres, houts]
      exact ⟨rfl, hfinal⟩

/-- **How large a pool has to be.** For every capacity and every feed: no event is refused for
lack of room if and only if the linked-list book never holds more orders along the feed than the
pool has nodes. Then both books answer alike throughout and show the same in the end. -/
theorem capacity_suffices_iff (N : UInt64) (events : List MarketEvent) :
    ((∀ r ∈ outputs PooledLimitOrderBook.apply (.new N) events, r ≠ .capacityExceeded) ↔
        ∀ pre, pre <+: events →
          (finalState LimitOrderBook.apply .empty pre).liveOrderCount ≤ N.toNat) ∧
      ((∀ r ∈ outputs PooledLimitOrderBook.apply (.new N) events, r ≠ .capacityExceeded) →
        outputs PooledLimitOrderBook.apply (.new N) events =
            outputs LimitOrderBook.apply .empty events ∧
          SameViews (finalState PooledLimitOrderBook.apply (.new N) events)
            (finalState LimitOrderBook.apply .empty events)) := by
  have hinit : SameOrders N.toNat (.new N) .empty :=
    ⟨.empty, .empty, ⟨PooledLimitOrderBook.represents_new N, PooledLimitOrderBook.capacity_new N⟩,
      LimitOrderBook.represents_empty, rfl, rfl⟩
  refine ⟨hinit.fits_iff events, fun hfits => ?_⟩
  obtain ⟨houts, hfinal⟩ := hinit.run events hfits
  exact ⟨houts, hfinal.sameViews⟩

end

end Datagine
