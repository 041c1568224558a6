import Datagine.PooledLimitOrderBookRefines

/-!
# What the Pooled Book Shows

The views of the pooled book follow the links of its chains. On a represented book they
terminate within the pool, visit exactly the nodes of a queue in order (`Represents.chain`),
and so show the live list (`Represents.snapshot`, `Represents.orderIdsAtPrice`). The
invariant check accepts every represented book that is not crossed
(`Represents.validateInvariants`).
-/

namespace Datagine

open KeyedList LinkedChain

namespace PooledLimitOrderBook

variable {b : PooledLimitOrderBook} {A : RestingOrders} {s : Side} {p : Price}
  {level : PriceLevel}

/-! ### Following the links -/

/-- The node of an order is found at its index. -/
theorem Represents.getElem?_nodes (h : Represents b A) {i : ℕ} (hi : i ∈ handles A.orders) :
    b.nodes[i]? = some (nodeAt b.nodes i) := by
  have hlt := h.handle_lt hi
  simp [nodeAt, hlt]

/-- A chain is no longer than the pool. -/
theorem Represents.length_queue_le (h : Represents b A) (s : Side) (p : Price) :
    (handles (A.queue s p)).length ≤ b.nodes.length := by
  have hroom := h.length_free_add
  have hle : (A.queue s p).length ≤ A.orders.length := List.length_filter_le _ _
  simp only [RestingOrders.live, List.length_map, capacity] at hroom
  simp only [handles, List.length_map]
  omega

/-- The fields of a level that exists. -/
theorem Represents.level_eq (h : Represents b A) (hfind : b.findLevel s p = some level) :
    A.queue s p ≠ [] ∧ level = ⟨totalQuantity ((A.queue s p).map Resting.toLiveOrder),
      (A.queue s p).length, (handles (A.queue s p)).headD npos,
      (handles (A.queue s p)).getLastD npos⟩ := by
  have hlevel := (h.level s p).symm.trans hfind
  rw [levelOf] at hlevel
  split_ifs at hlevel with hnil
  exact ⟨hnil, (Option.some.inj hlevel).symm⟩

/-- **Following `next` from the head of a level visits its queue**, node by node. -/
theorem Represents.chain (h : Represents b A) (hfind : b.findLevel s p = some level) :
    b.chain level = some (handles (A.queue s p)) := by
  obtain ⟨-, rfl⟩ := h.level_eq hfind
  refine walk_seg (h.linked s p) (fun i hi => ?_) (fun hmem => ?_) (h.length_queue_le s p)
  · rw [h.getElem?_nodes (mem_handles_queue hi)]
    rfl
  · exact h.npos_notMem (mem_handles_queue hmem)

/-- The node of an order shows the order. -/
theorem Represents.map_handles (h : Represents b A) {μ : Type} (f : OrderNode → μ)
    (g : LiveOrder → μ)
    (hfg : ∀ node o, HoldsOrder node o → f node = g o.toLiveOrder) (s : Side) (p : Price) :
    (handles (A.queue s p)).map (fun i => f (nodeAt b.nodes i)) =
      (ordersAt A.live s p).map g := by
  rw [handles, ← A.map_queue s p, List.map_map, List.map_map]
  refine List.map_congr_left fun o ho => ?_
  exact hfg _ o (h.holds o (RestingOrders.mem_queue.mp ho).1)

/-! ### The views -/

/-- A level as a snapshot shows it, when its chain can be followed. -/
def shown (b : PooledLimitOrderBook) (price : Int64) (level : PriceLevel) : PriceLevelSnapshot :=
  ⟨⟨price⟩, level.totalQuantity,
    ((b.chain level).getD []).map fun i => orderView (nodeAt b.nodes i)⟩

/-- A level is shown: its chain ends. -/
theorem Represents.levelSnapshot (h : Represents b A) (hfind : b.findLevel s p = some level) :
    b.levelSnapshot p.ticks level = some (b.shown p.ticks level) := by
  rw [PooledLimitOrderBook.levelSnapshot, shown, h.chain hfind]
  rfl

/-- Each level shows its queue. -/
theorem Represents.shownLevel (h : Represents b A) (s : Side) (p : Price) :
    (b.toBookLevels.find s p).map (b.shown p.ticks) = Datagine.shownLevel A.live s p := by
  have hnil_iff : ordersAt A.live s p = [] ↔ A.queue s p = [] := by
    rw [← A.map_queue s p, List.map_eq_nil_iff]
  simp only [Datagine.shownLevel, hnil_iff]
  cases hfind : b.toBookLevels.find s p with
  | none =>
      have hlevel := (h.level s p).symm.trans hfind
      rw [levelOf] at hlevel
      split_ifs at hlevel with hnil
      rw [if_pos hnil, Option.map_none]
  | some level =>
      obtain ⟨hnil, hlevel⟩ := h.level_eq hfind
      have horders := h.map_handles orderView LiveOrder.view (fun node o hold => by
        rw [orderView, LiveOrder.view, hold.orderId, hold.timestamp, hold.quantity]) s p
      rw [if_neg hnil, Option.map_some, shown, h.chain hfind, Option.getD_some, horders, hlevel,
        A.map_queue]

/-- A function that never fails on a list maps it. -/
theorem mapM_eq_some_map {α β : Type} {f : α → Option β} {g : α → β} {l : List α}
    (h : ∀ x ∈ l, f x = some (g x)) : l.mapM f = some (l.map g) := by
  induction l with
  | nil => rfl
  | cons x xs ih =>
      rw [List.mapM_cons, h x List.mem_cons_self,
        ih fun y hy => h y (List.mem_cons_of_mem _ hy)]
      rfl

/-- The snapshot of a represented book: every chain is read to its end. -/
theorem Represents.snapshot_eq (h : Represents b A) :
    b.snapshot = some ⟨(b.toBookLevels.entries .buy).map fun e => b.shown e.1 e.2,
      (b.toBookLevels.entries .sell).map fun e => b.shown e.1 e.2⟩ := by
  have hside : ∀ s, (b.toBookLevels.entries s).mapM (fun e => b.levelSnapshot e.1 e.2) =
      some ((b.toBookLevels.entries s).map fun e => b.shown e.1 e.2) := by
    intro s
    refine mapM_eq_some_map fun e he => ?_
    exact h.levelSnapshot (p := ⟨e.1⟩) (BookLevels.mem_entries.mp he)
  have hbids := hside .buy
  have hasks := hside .sell
  simp only [BookLevels.entries] at hbids hasks
  rw [PooledLimitOrderBook.snapshot, hbids, Option.bind_some, hasks, Option.map_some]
  rfl

/-- An aggregated level agrees with the level of the snapshot. -/
theorem Represents.toView_shown (h : Represents b A) {e : Int64 × PriceLevel}
    (he : e ∈ b.toBookLevels.entries s) :
    (b.shown e.1 e.2).toView = makePriceLevelView e.1 e.2 := by
  have hfind : b.findLevel s ⟨e.1⟩ = some e.2 := BookLevels.mem_entries.mp he
  obtain ⟨-, hlevel⟩ := h.level_eq hfind
  rw [shown, h.chain hfind, PriceLevelSnapshot.toView, makePriceLevelView]
  simp [handles, hlevel]

/-- **A represented book shows its live list**: the snapshot lists both sides of it, and
the other aggregated views are read off the snapshot. -/
theorem Represents.snapshot (h : Represents b A) :
    ∃ S, b.snapshot = some S ∧ (∀ s, ShowsSide A.live s (S.side s)) ∧
      b.topOfBook = S.top ∧ ∀ n, b.depth n = S.depth n := by
  have hview : ∀ s, ((b.toBookLevels.entries s).map fun e => b.shown e.1 e.2).map
      PriceLevelSnapshot.toView =
        (b.toBookLevels.entries s).map fun e => makePriceLevelView e.1 e.2 := by
    intro s
    rw [List.map_map]
    exact List.map_congr_left fun e he => h.toView_shown he
  refine ⟨_, h.snapshot_eq, fun s => ?_, ?_, fun n => ?_⟩
  · cases s with
    | buy => exact showsSide_entries h.shownLevel .buy
    | sell => exact showsSide_entries h.shownLevel .sell
  · rw [BookSnapshot.top, ← List.head?_map, ← List.head?_map, hview, hview, List.head?_map,
      List.head?_map]
    rfl
  · rw [BookSnapshot.depth, List.map_take, List.map_take, hview, hview, ← List.map_take,
      ← List.map_take]
    rfl

/-- `order_ids_at_price` lists the queue, front first. -/
theorem Represents.orderIdsAtPrice (h : Represents b A) (s : Side) (p : Price) :
    b.orderIdsAtPrice s p = some ((ordersAt A.live s p).map LiveOrder.orderId) := by
  rw [PooledLimitOrderBook.orderIdsAtPrice]
  cases hfind : b.findLevel s p with
  | none =>
      have hlevel := (h.level s p).symm.trans hfind
      rw [levelOf] at hlevel
      split_ifs at hlevel with hnil
      rw [← A.map_queue s p, hnil]
      rfl
  | some level =>
      have hids := h.map_handles OrderNode.orderId LiveOrder.orderId
        (fun node o hold => hold.orderId) s p
      simp only [h.chain hfind, Option.map_some, hids]

/-- The keys of the lookup are the ids of the orders. -/
theorem Represents.keys_orderLookup (h : Represents b A) :
    b.orderLookup.keys = RestingOrders.idsOf A.orders := by
  ext x
  have hmem : x ∈ b.orderLookup ↔ OrderId.mk x ∈ A.live.map LiveOrder.orderId :=
    h.mem_orderLookup_iff
  rw [Finmap.mem_keys, hmem, A.mem_live_iff]

/-- `live_order_count` is the length of the live list. -/
theorem Represents.liveOrderCount (h : Represents b A) : b.liveOrderCount = A.live.length := by
  rw [PooledLimitOrderBook.liveOrderCount, h.keys_orderLookup, RestingOrders.card_idsOf,
    RestingOrders.live, List.length_map]

/-! ### The invariant check accepts a represented book -/

/-- The chain loop moves on from a node that holds a live order of the level. -/
theorem validateNodes_step (h : Represents b A) {o : Resting} (ho : o ∈ A.queue s p)
    {acc : ChainSummary} (hseen : o.orderId.value ∉ acc.seen)
    (hprev : prevOf b.nodes o.handle = acc.previous) :
    b.validateNodes s p.ticks o.handle acc =
      b.validateNodes s p.ticks (nextOf b.nodes o.handle)
        ⟨o.handle, acc.total + o.quantity.units, acc.visited + 1,
          insert o.orderId.value acc.seen⟩ := by
  obtain ⟨hmem, hside, hprice⟩ := RestingOrders.mem_queue.mp ho
  have hhandle : o.handle ∈ handles A.orders := List.mem_map_of_mem hmem
  have hne : o.handle ≠ npos := fun heq => h.npos_notMem (heq ▸ hhandle)
  have hlookup : b.orderLookup.lookup o.orderId.value = some (recordOf o) := by
    rw [h.lookup, RestingOrders.find_eq_some_iff.mpr ⟨hmem, rfl⟩, Option.map_some]
  obtain ⟨hid, htimestamp, hquantity, hactive⟩ := h.holds o hmem
  have hpos := A.positive o hmem
  have hnode := h.getElem?_nodes hhandle
  rw [prevOf] at hprev
  rw [nextOf]
  generalize nodeAt b.nodes o.handle = node at *
  rw [← hid] at hseen hlookup
  rw [← hquantity] at hpos
  rw [validateNodes, if_neg hne]
  simp only [hnode, hactive, hprev, hpos, hseen, Bool.not_true, Bool.false_eq_true, if_false,
    ne_eq, not_true_eq_false]
  split
  · rename_i hnone
    rw [hlookup] at hnone
    cases hnone
  · rename_i record hrecord
    obtain rfl := Option.some.inj (hlookup.symm.trans hrecord)
    simp [recordOf, hside, hprice, hquantity, htimestamp, hid]

/-- The chain loop accepts any linked part of a queue whose ids were not seen before. -/
theorem validateNodes_eq (h : Represents b A) {Q : List Resting}
    (hQ : ∀ o ∈ Q, o ∈ A.queue s p) (hnd : (Q.map fun o => o.orderId).Nodup)
    (acc : ChainSummary) (hseen : ∀ o ∈ Q, o.orderId.value ∉ acc.seen)
    (hlinked : Seg (prevOf b.nodes) (nextOf b.nodes) acc.previous (handles Q) npos) :
    b.validateNodes s p.ticks ((handles Q).headD npos) acc =
      some ⟨(handles Q).getLastD acc.previous,
        acc.total + (totalQuantity (Q.map Resting.toLiveOrder)).units,
        acc.visited + Q.length, acc.seen ∪ RestingOrders.idsOf Q⟩ := by
  induction Q generalizing acc with
  | nil =>
      rw [validateNodes]
      simp [handles, totalQuantity, totalUnits, RestingOrders.idsOf]
  | cons o Q ih =>
      obtain ⟨hprev, hnext, hrest⟩ := hlinked
      have hfresh : ∀ a ∈ Q, a.orderId.value ∉ insert o.orderId.value acc.seen :=
        RestingOrders.not_mem_insert hnd hseen
      have hih := ih (fun a ha => hQ a (List.mem_cons_of_mem _ ha)) (List.nodup_cons.mp hnd).2
        ⟨o.handle, acc.total + o.quantity.units, acc.visited + 1,
          insert o.orderId.value acc.seen⟩ hfresh hrest
      have hhandles : handles (o :: Q) = o.handle :: handles Q := rfl
      rw [hhandles, List.headD_cons, List.getLastD_cons,
        validateNodes_step h (hQ o List.mem_cons_self) (hseen o List.mem_cons_self) hprev, hnext]
      refine hih.trans ?_
      congr 2
      · simp [totalQuantity, totalUnits, UInt64.add_assoc]
      · simp only [List.length_cons]
        omega
      · ext x
        simp [RestingOrders.idsOf, eq_comm]

/-- The level of a queue passes its check, and its ids are seen. -/
theorem validateLevel_eq (h : Represents b A) {k : Int64} {seen : Finset UInt64}
    (hfind : b.toBookLevels.find s ⟨k⟩ = some level)
    (hseen : ∀ o ∈ A.queue s ⟨k⟩, o.orderId.value ∉ seen) :
    b.validateLevel s k level seen = some (seen ∪ RestingOrders.idsOf (A.queue s ⟨k⟩)) := by
  obtain ⟨hne, rfl⟩ := h.level_eq hfind
  have hnpos : npos ∉ handles (A.queue s ⟨k⟩) := fun hmem =>
    h.npos_notMem (mem_handles_queue hmem)
  have hhandles : handles (A.queue s ⟨k⟩) ≠ [] := by simpa [handles] using hne
  have hends : ¬((A.queue s ⟨k⟩).length = 0 ∨ (handles (A.queue s ⟨k⟩)).headD npos = npos ∨
      (handles (A.queue s ⟨k⟩)).getLastD npos = npos) := by
    rw [headD_eq_npos_iff hnpos, getLastD_eq_npos_iff hnpos, List.length_eq_zero_iff]
    tauto
  have hnodes := validateNodes_eq h (fun o ho => ho) (A.queue_idsNodup s ⟨k⟩)
    ⟨npos, 0, 0, seen⟩ hseen (h.linked s ⟨k⟩)
  rw [validateLevel, if_neg hends, hnodes]
  simp

/-- The check without the tests that always pass. -/
theorem validateInvariants_eq (b : PooledLimitOrderBook) (options : InvariantOptions) :
    b.validateInvariants options =
      ((options.allowCrossedBook || !b.toBookLevels.crossed) &&
        (b.toBookLevels.validateLevels b.validateLevel).any fun seen =>
          seen.card = b.orderLookup.keys.card && b.validateLookup seen) :=
  BookLevels.invariantCheck_eq ..

/-- **The invariant check on a represented book** only depends on whether it is crossed. -/
theorem Represents.validateInvariants (h : Represents b A) (options : InvariantOptions) :
    b.validateInvariants options = (options.allowCrossedBook || !b.toBookLevels.crossed) := by
  have hlevels : b.toBookLevels.validateLevels b.validateLevel =
      some (RestingOrders.idsOf A.orders) := by
    refine RestingOrders.validateLevels_eq (fun s p hne => ?_)
      (fun s k v seen hfind hseen => validateLevel_eq h hfind hseen)
    have hlevel := h.level s p
    rw [findLevel] at hlevel
    rw [hlevel, levelOf, if_neg hne]
    rfl
  have hlookup : b.validateLookup (RestingOrders.idsOf A.orders) = true := by
    rw [validateLookup, decide_eq_true_iff]
    rintro ⟨x, record⟩ hentry
    obtain ⟨o, -, hmem, hseen, rfl⟩ := RestingOrders.exists_of_mem_entries h.lookup hentry
    have hactive : (b.nodes[(recordOf o).nodeIndex]?.any OrderNode.active) = true := by
      rw [recordOf, h.getElem?_nodes (List.mem_map_of_mem hmem), Option.any_some]
      exact (h.holds o hmem).active
    have hqueue : A.queue o.side o.price ≠ [] :=
      List.ne_nil_of_mem (RestingOrders.mem_queue.mpr ⟨hmem, rfl, rfl⟩)
    have hlevel : (b.findLevel o.side o.price).isSome := by
      rw [h.level, levelOf, if_neg hqueue, Option.isSome_some]
    exact ⟨hseen, hactive, hlevel⟩
  rw [validateInvariants_eq, hlevels, Option.any_some, hlookup, h.keys_orderLookup]
  simp

end PooledLimitOrderBook

end Datagine
