import Mathlib.Data.List.Chain
import Datagine.BookRuns

/-!
# Runs of the Pooled Book

Two results about every run of the pooled book. `pooled_simulates_linked`: apart from the
events it refuses for lack of room, the pool behaves like the linked-list book. And
`poolInvariant_reached`: whatever the operations, the nodes of the pool are partitioned into
the free stack and the chains of the levels, and levels, nodes and lookup agree.
-/

namespace Datagine

open Mealy LinkedChain

/-! ### The pool against the linked-list book -/

/-- The two books show the same through every view. -/
structure SameViews (p : PooledLimitOrderBook) (b : LimitOrderBook) : Prop where
  snapshot : p.snapshot = some b.snapshot
  topOfBook : p.topOfBook = b.topOfBook
  depth : ∀ n, p.depth n = b.depth n
  orderIdsAtPrice : ∀ side price, p.orderIdsAtPrice side price = some (b.orderIdsAtPrice side price)
  liveOrderCount : p.liveOrderCount = b.liveOrderCount
  eventsApplied : p.eventsApplied = b.eventsApplied
  validateInvariants : ∀ options, p.validateInvariants options = b.validateInvariants options

/-- The two books hold the same live list and have accepted as many events. -/
def SameOrders (N : ℕ) (p : PooledLimitOrderBook) (b : LimitOrderBook) : Prop :=
  ∃ A B : RestingOrders, PooledLimitOrderBook.Holds N p A ∧ LimitOrderBook.Represents b B ∧
    A.live = B.live ∧ p.eventsApplied = b.eventsApplied

variable {N : ℕ} {p : PooledLimitOrderBook} {b : LimitOrderBook}

/-- Books with the same orders show the same: a live list determines every view. -/
theorem SameOrders.sameViews (h : SameOrders N p b) : SameViews p b := by
  obtain ⟨A, B, ⟨hp, -⟩, hb, hlive, hcount⟩ := h
  obtain ⟨S, hsnap, hshows, htop, hdepth⟩ := hp.snapshot
  have hside : ∀ s, S.side s = b.snapshot.side s := fun s =>
    (hshows s).unique (hlive ▸ hb.showsSide s)
  have hS : S = b.snapshot := by
    have hbids := hside .buy
    have hasks := hside .sell
    cases S
    exact congrArg₂ BookSnapshot.mk hbids hasks
  subst hS
  have htop' : p.topOfBook = b.topOfBook := htop.trans (LimitOrderBook.topOfBook_eq b).symm
  refine ⟨hsnap, htop', fun n => ?_, fun s q => ?_, ?_, hcount, fun options => ?_⟩
  · rw [hdepth, LimitOrderBook.depth_eq]
  · rw [hp.orderIdsAtPrice, hb.orderIdsAtPrice, hlive]
  · rw [hp.liveOrderCount, hb.liveOrderCount, hlive]
  · rw [Bool.eq_iff_iff, hp.validateInvariants_iff, hb.validateInvariants_iff, htop']

/-- The rules never run out of room by themselves. -/
theorem Reference.exec_ne_capacityExceeded (L : List LiveOrder) (op : BookOp) :
    (Reference.exec L op).1 ≠ some .capacityExceeded := by
  cases op with
  | addOrder id side price quantity timestamp =>
      simp only [Reference.exec, Reference.addOrder]
      split_ifs <;> simp
  | cancelOrder id =>
      simp only [Reference.exec, Reference.cancelOrder]
      cases KeyedList.findKey LiveOrder.orderId id L <;> simp
  | modifyOrder id q =>
      simp only [Reference.exec, Reference.modifyOrder]
      cases KeyedList.findKey LiveOrder.orderId id L <;> split_ifs <;> simp
      split_ifs <;> simp
  | executeOrder id q =>
      simp only [Reference.exec, Reference.executeOrder]
      cases KeyedList.findKey LiveOrder.orderId id L <;> split_ifs <;> simp
      split_ifs <;> simp
  | clear => simp [Reference.exec]

/-- The bounded rules refuse for lack of room exactly when the operation only lacks room. -/
theorem Reference.boundedExec_eq_capacityExceeded {L : List LiveOrder} {op : BookOp} :
    (Reference.boundedExec N L op).1 = some .capacityExceeded ↔ Reference.LacksRoom N L op := by
  by_cases h : Reference.LacksRoom N L op
  · simp [Reference.boundedExec, h]
  · rw [Reference.boundedExec, if_neg h]
    simp only [h, iff_false]
    exact Reference.exec_ne_capacityExceeded L op

/-- An event lacks room when it is an add that would be accepted by a larger pool. -/
theorem lacksRoom_toOp {L : List LiveOrder} {event : MarketEvent} :
    Reference.LacksRoom N L event.toOp ↔ event.type = .add ∧ event.quantity.units ≠ 0 ∧
      event.orderId ∉ L.map LiveOrder.orderId ∧ L.length = N := by
  rw [MarketEvent.toOp]
  cases event.type <;> simp [Reference.LacksRoom]

/-- A pool that holds `A` runs out of room exactly when the rules say so. -/
theorem apply_eq_capacityExceeded {A : RestingOrders} (h : PooledLimitOrderBook.Holds N p A)
    (event : MarketEvent) :
    (p.apply event).1 = .capacityExceeded ↔ Reference.LacksRoom N A.live event.toOp := by
  obtain ⟨hres, -⟩ := PooledLimitOrderBook.exec_refines h event.toOp
  rw [p.exec_toOp] at hres
  rw [← Reference.boundedExec_eq_capacityExceeded, ← hres, Option.some.injEq]

/-- The rules, event by event, when at most `capacity` orders may rest. -/
def Reference.boundedApply (capacity : ℕ) (L : List LiveOrder) (event : MarketEvent) :
    BookResult × List LiveOrder :=
  if Reference.LacksRoom capacity L event.toOp then (.capacityExceeded, L)
  else Reference.apply L event

/-- An event refines the rules of a bounded list. -/
theorem PooledLimitOrderBook.apply_refines {A : RestingOrders}
    (h : PooledLimitOrderBook.Holds N p A) (event : MarketEvent) :
    StepRefines (PooledLimitOrderBook.Holds N) (p.apply event)
      (Reference.boundedApply N A.live event) := by
  obtain ⟨hres, hholds⟩ := PooledLimitOrderBook.exec_refines h event.toOp
  rw [p.exec_toOp, Reference.boundedExec] at hres hholds
  rw [Reference.boundedApply]
  split_ifs at hres hholds ⊢
  · exact ⟨Option.some.inj hres, hholds⟩
  · rw [Reference.exec_toOp] at hres hholds
    exact ⟨Option.some.inj hres, hholds⟩

/-- An accepted or otherwise rejected event keeps the two books together. -/
theorem SameOrders.step (h : SameOrders N p b) (event : MarketEvent)
    (hroom : (p.apply event).1 ≠ .capacityExceeded) :
    (p.apply event).1 = (b.apply event).1 ∧ SameOrders N (p.apply event).2 (b.apply event).2 := by
  obtain ⟨A, B, hp, hb, hlive, hcount⟩ := h
  have hlacks : ¬Reference.LacksRoom N A.live event.toOp := fun hlacks =>
    hroom ((apply_eq_capacityExceeded hp event).mpr hlacks)
  obtain ⟨hpres, A', hp', hA'⟩ := PooledLimitOrderBook.exec_refines hp event.toOp
  obtain ⟨hbres, B', hb', hB'⟩ := LimitOrderBook.exec_refines hb event.toOp
  rw [p.exec_toOp, Reference.boundedExec, if_neg hlacks, hlive] at hpres
  rw [p.exec_toOp] at hp'
  rw [Reference.boundedExec, if_neg hlacks, hlive] at hA'
  rw [b.exec_toOp] at hbres hb'
  have hres : (p.apply event).1 = (b.apply event).1 :=
    Option.some.inj (hpres.trans hbres.symm)
  refine ⟨hres, A', B', hp', hb', hA'.trans hB'.symm, ?_⟩
  rcases p.apply_outcome event with ⟨hprej, hpeq⟩ | ⟨hpapp, hpcount⟩
  · rcases b.apply_outcome event with ⟨-, hbeq⟩ | ⟨hbapp, -⟩
    · rw [hpeq, hbeq, hcount]
    · exact absurd (hres.trans hbapp) hprej
  · rcases b.apply_outcome event with ⟨hbrej, -⟩ | ⟨-, hbcount⟩
    · exact absurd (hres.symm.trans hpapp) hbrej
    · rw [hpcount, hbcount, hcount]

/-- **The pool simulates the linked-list book up to its capacity.** An event is refused for
lack of room exactly when it is an add of a positive quantity under an id that is not live
and the book is full. With those events dropped, the linked-list book gives every remaining
event the same answer and ends up showing the same. -/
theorem pooled_simulates_linked (N : UInt64) (events : List MarketEvent) :
    (∀ event,
      let p := finalState PooledLimitOrderBook.apply (.new N) events
      (p.apply event).1 = .capacityExceeded ↔ event.type = .add ∧ event.quantity.units ≠ 0 ∧
        event.orderId.value ∉ p.orderLookup ∧ p.liveOrderCount = N.toNat) ∧
      let rest := kept (fun r => r ≠ .capacityExceeded) PooledLimitOrderBook.apply (.new N) events
      outputs LimitOrderBook.apply .empty (rest.map Prod.fst) = rest.map Prod.snd ∧
        SameViews (finalState PooledLimitOrderBook.apply (.new N) events)
          (finalState LimitOrderBook.apply .empty (rest.map Prod.fst)) := by
  have hinit : SameOrders N.toNat (.new N) .empty :=
    ⟨.empty, .empty, ⟨PooledLimitOrderBook.represents_new N, PooledLimitOrderBook.capacity_new N⟩,
      LimitOrderBook.represents_empty, rfl, rfl⟩
  -- an event that is refused for lack of room leaves the pool as it was
  have hdrop : ∀ p b (event : MarketEvent), SameOrders N.toNat p b →
      decide ((p.apply event).1 ≠ .capacityExceeded) = false →
      SameOrders N.toNat (p.apply event).2 b := by
    intro p b event h hcap
    have happ : (p.apply event).1 ≠ .applied := by
      intro happ
      simp [happ] at hcap
    rwa [(p.apply_outcome event).state_eq happ]
  have hkeep : ∀ p b (event : MarketEvent), SameOrders N.toNat p b →
      decide ((p.apply event).1 ≠ .capacityExceeded) = true →
      (p.apply event).1 = (b.apply event).1 ∧
        SameOrders N.toNat (p.apply event).2 (b.apply event).2 :=
    fun p b event h hroom => h.step event (of_decide_eq_true hroom)
  obtain ⟨houts, hfinal⟩ := simulation_kept PooledLimitOrderBook.apply LimitOrderBook.apply
    (fun r => r ≠ .capacityExceeded) hdrop hkeep hinit events
  refine ⟨fun event => ?_, houts, hfinal.sameViews⟩
  obtain ⟨A, -, hp, -⟩ := hfinal
  dsimp only
  rw [apply_eq_capacityExceeded hp, lacksRoom_toOp, hp.1.mem_orderLookup_iff,
    hp.1.liveOrderCount]

/-! ### The pool invariant -/

namespace PooledLimitOrderBook

/-- The node belongs to a lookup record. -/
def InUse (b : PooledLimitOrderBook) (i : ℕ) : Prop :=
  ∃ id record, b.orderLookup.lookup id = some record ∧ record.nodeIndex = i

/-- The chain of a level: following `next` from its head visits `indices`, as many distinct
nodes as the level counts, ending at its tail, with `prev` the inverse of `next`. Each node
is active and is the node of the record of its id, which agrees with it and with the level. -/
structure IsChainOf (b : PooledLimitOrderBook) (side : Side) (price : Price) (level : PriceLevel)
    (indices : List ℕ) : Prop where
  visited : b.chain level = some indices
  count : indices.length = level.orderCount
  nonempty : 1 ≤ level.orderCount
  nodup : indices.Nodup
  head : indices.head? = some level.head
  tail : indices.getLast? = some level.tail
  headPrev : (nodeAt b.nodes level.head).prev = npos
  tailNext : (nodeAt b.nodes level.tail).next = npos
  links : indices.IsChain fun i j => (nodeAt b.nodes i).next = j ∧ (nodeAt b.nodes j).prev = i
  records : ∀ i ∈ indices, ∃ node, b.nodes[i]? = some node ∧ node.active = true ∧
    b.orderLookup.lookup node.orderId.value =
      some ⟨side, price, node.timestamp, node.quantity, i⟩

/-- **The invariant of a pool of `N` nodes**: the free stack and the nodes of the live
orders partition the indices, free nodes are default nodes, and every level has its chain,
disjoint from the chains of the other levels. -/
structure PoolInvariant (N : ℕ) (b : PooledLimitOrderBook) : Prop where
  capacity : b.capacity = N
  freeNodup : b.freeIndices.Nodup
  freeOrUsed : ∀ i, i ∈ b.freeIndices ∨ b.InUse i ↔ i < N
  notBoth : ∀ i ∈ b.freeIndices, ¬b.InUse i
  room : b.freeIndices.length + b.liveOrderCount = N
  freeDefault : ∀ i ∈ b.freeIndices, b.nodes[i]? = some {}
  chains : ∀ side price level, b.findLevel side price = some level →
    ∃ indices, IsChainOf b side price level indices
  chainsDisjoint : ∀ side price level side' price' level' indices indices',
    b.findLevel side price = some level → b.findLevel side' price' = some level' →
    ¬(side = side' ∧ price = price') → b.chain level = some indices →
    b.chain level' = some indices' → ∀ i ∈ indices, i ∉ indices'

variable {b : PooledLimitOrderBook} {A : RestingOrders}

/-- The nodes in use are those of the orders. -/
theorem Represents.inUse_iff (h : Represents b A) {i : ℕ} : b.InUse i ↔ i ∈ handles A.orders := by
  constructor
  · rintro ⟨id, record, hlookup, rfl⟩
    rw [h.lookup ⟨id⟩, Option.map_eq_some_iff] at hlookup
    obtain ⟨o, ho, rfl⟩ := hlookup
    exact List.mem_map_of_mem (RestingOrders.find_eq_some_iff.mp ho).1
  · intro hi
    obtain ⟨o, ho, rfl⟩ := List.mem_map.mp hi
    refine ⟨o.orderId.value, recordOf o, ?_, rfl⟩
    rw [h.lookup, RestingOrders.find_eq_some_iff.mpr ⟨ho, rfl⟩, Option.map_some]

/-- The chain of a level is its queue. -/
theorem Represents.isChainOf (h : Represents b A) {side : Side} {price : Price}
    {level : PriceLevel} (hfind : b.findLevel side price = some level) :
    IsChainOf b side price level (handles (A.queue side price)) := by
  have hvisited := h.chain hfind
  have hlinked := h.linked side price
  obtain ⟨hne, rfl⟩ := h.level_eq hfind
  have hne' : handles (A.queue side price) ≠ [] := by simpa [handles] using hne
  obtain ⟨hhead, htail⟩ := hlinked.ends hne' npos
  refine ⟨hvisited, List.length_map _, List.length_pos_iff.mpr hne,
    A.queue_handlesNodup side price, ?_, ?_, hhead, htail, hlinked.isChain, fun i hi => ?_⟩
  · cases hl : handles (A.queue side price) with
    | nil => exact absurd hl hne'
    | cons x xs => rfl
  · rw [List.getLastD_eq_getLast?, List.getLast?_eq_some_getLast hne', Option.getD_some]
  · have hmem := h.getElem?_nodes (mem_handles_queue hi)
    obtain ⟨o, hqueue, rfl⟩ := List.mem_map.mp hi
    obtain ⟨ho, rfl, rfl⟩ := RestingOrders.mem_queue.mp hqueue
    obtain ⟨hid, htimestamp, hquantity, hactive⟩ := h.holds o ho
    refine ⟨_, hmem, hactive, ?_⟩
    rw [hid, htimestamp, hquantity, h.lookup, RestingOrders.find_eq_some_iff.mpr ⟨ho, rfl⟩]
    rfl

/-- The representation invariant, read off the fields of the book alone. -/
theorem Represents.poolInvariant (h : Represents b A) : PoolInvariant b.capacity b where
  capacity := rfl
  freeNodup := (List.nodup_append.mp h.indicesNodup).1
  freeOrUsed i := by
    rw [h.inUse_iff]
    exact h.mem_indices_iff
  notBoth i hi hused := h.free_disjoint hi (h.inUse_iff.mp hused)
  room := by
    rw [h.liveOrderCount]
    exact h.length_free_add
  freeDefault i hi := by
    have hlt := h.mem_indices_iff.mp (Or.inl hi)
    have hdefault := h.free i hi
    rw [nodeAt, List.getD_eq_getElem?_getD, List.getElem?_eq_getElem hlt, Option.getD_some]
      at hdefault
    rw [List.getElem?_eq_getElem hlt, hdefault]
  chains side price level hfind := ⟨_, h.isChainOf hfind⟩
  chainsDisjoint side price level side' price' level' indices indices' hfind hfind' hne hchain
      hchain' i hi := by
    obtain rfl := Option.some.inj (hchain.symm.trans (h.chain hfind))
    obtain rfl := Option.some.inj (hchain'.symm.trans (h.chain hfind'))
    exact handle_ne_of_level_ne hne hi

/-- **The pool invariant holds in every reachable state**, whatever the operations and their
arguments. -/
theorem poolInvariant_reached (N : UInt64) (ops : List BookOp) :
    PoolInvariant N.toNat (finalState exec (new N) ops) := by
  obtain ⟨-, A, ⟨hrep, hcap⟩, -⟩ := run_refines N ops
  exact hcap ▸ hrep.poolInvariant

end PooledLimitOrderBook

end Datagine
