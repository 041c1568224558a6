import Datagine.LevelViews
import Datagine.PooledLimitOrderBook

/-!
# The Pooled Book Represents a Live List

`PooledLimitOrderBook.Represents b A` is the representation invariant of the pool. The
handles of the resting orders `A` are node indices; together with the free indices they are
the whole pool, each index once. A free node is a default node; the node of an order holds
its data; and the nodes of a level are linked in acceptance order (`LinkedChain.Seg`), with
the level holding the ends, the length and the wrapped total of its chain.

As for the linked-list book, an operation either changes nothing or performs one edit of
`RestingOrders` (`represents_addOrder`, `represents_removeExistingOrder`,
`represents_reduceOrder`). Against the reference rules bounded by the capacity this is one
step of a simulation (`exec_refines`).
-/

namespace Datagine

open KeyedList LinkedChain

/-! ### The node array -/

/-- A node behind an edit of it. -/
theorem nodeAt_modify_self {nodes : List OrderNode} {i : ℕ} (hi : i < nodes.length)
    (f : OrderNode → OrderNode) : nodeAt (nodes.modify i f) i = f (nodeAt nodes i) := by
  simp [nodeAt, hi]

/-- The other nodes behind an edit. -/
theorem nodeAt_modify_of_ne {nodes : List OrderNode} {i j : ℕ} (h : j ≠ i)
    (f : OrderNode → OrderNode) : nodeAt (nodes.modify i f) j = nodeAt nodes j := by
  simp [nodeAt, Ne.symm h]

/-- A node behind an assignment to it. -/
theorem nodeAt_set_self {nodes : List OrderNode} {i : ℕ} (hi : i < nodes.length)
    (node : OrderNode) : nodeAt (nodes.set i node) i = node := by
  simp [nodeAt, hi]

/-- The other nodes behind an assignment. -/
theorem nodeAt_set_of_ne {nodes : List OrderNode} {i j : ℕ} (h : j ≠ i) (node : OrderNode) :
    nodeAt (nodes.set i node) j = nodeAt nodes j := by
  simp [nodeAt, Ne.symm h]

namespace PooledLimitOrderBook

/-- The backward links of the pool. -/
def prevOf (nodes : List OrderNode) (i : ℕ) : ℕ := (nodeAt nodes i).prev

/-- The forward links of the pool. -/
def nextOf (nodes : List OrderNode) (i : ℕ) : ℕ := (nodeAt nodes i).next

/-- The node holds the data of a resting order and is in use. -/
structure HoldsOrder (node : OrderNode) (o : Resting) : Prop where
  orderId : node.orderId = o.orderId
  timestamp : node.timestamp = o.timestamp
  quantity : node.quantity = o.quantity
  active : node.active = true

/-- The node indices of a queue. -/
def handles (Q : List Resting) : List ℕ := Q.map fun o => o.handle

/-- The price level of a queue; an empty queue has no level. -/
def levelOf (Q : List Resting) : Option PriceLevel :=
  if Q = [] then none
  else some ⟨totalQuantity (Q.map Resting.toLiveOrder), Q.length, (handles Q).headD npos,
    (handles Q).getLastD npos⟩

/-- The lookup record of a resting order. -/
def recordOf (o : Resting) : OrderRecord := ⟨o.side, o.price, o.timestamp, o.quantity, o.handle⟩

/-- The record of an order holds its quantity. -/
@[simp] theorem recordOf_quantity (o : Resting) : (recordOf o).quantity = o.quantity := (rfl)

/-- **The representation invariant of the pool**: the book holds exactly the resting
orders `A`. -/
structure Represents (b : PooledLimitOrderBook) (A : RestingOrders) : Prop where
  /-- Indices fit below the null index. -/
  bounded : b.nodes.length ≤ npos
  /-- Every index of the pool is either free or the handle of one order, and only once. -/
  indices : (b.freeIndices ++ handles A.orders).Perm (List.range b.nodes.length)
  /-- Free nodes are default nodes. -/
  free : ∀ i ∈ b.freeIndices, nodeAt b.nodes i = {}
  level : ∀ s p, b.findLevel s p = levelOf (A.queue s p)
  lookup : ∀ id : OrderId, b.orderLookup.lookup id.value = (A.find id).map recordOf
  holds : ∀ o ∈ A.orders, HoldsOrder (nodeAt b.nodes o.handle) o
  linked : ∀ s p, Seg (prevOf b.nodes) (nextOf b.nodes) npos (handles (A.queue s p)) npos

variable {b : PooledLimitOrderBook} {A : RestingOrders} {o : Resting}

/-! ### Indices of a represented book -/

/-- The nodes of a level are nodes of orders. -/
theorem mem_handles_queue {s : Side} {p : Price} {i : ℕ} (h : i ∈ handles (A.queue s p)) :
    i ∈ handles A.orders := by
  obtain ⟨o, ho, rfl⟩ := List.mem_map.mp h
  exact List.mem_map_of_mem (RestingOrders.mem_queue.mp ho).1

/-- Every index is free or holds an order. -/
theorem Represents.mem_indices_iff (h : Represents b A) {i : ℕ} :
    i ∈ b.freeIndices ∨ i ∈ handles A.orders ↔ i < b.nodes.length := by
  rw [← List.mem_append, h.indices.mem_iff, List.mem_range]

/-- No index is listed twice, and none is both free and in use. -/
theorem Represents.indicesNodup (h : Represents b A) :
    (b.freeIndices ++ handles A.orders).Nodup :=
  h.indices.nodup_iff.mpr List.nodup_range

/-- The node of an order lies in the pool. -/
theorem Represents.handle_lt (h : Represents b A) {i : ℕ} (hi : i ∈ handles A.orders) :
    i < b.nodes.length :=
  h.mem_indices_iff.mp (Or.inr hi)

/-- `npos` is no node of an order. -/
theorem Represents.npos_notMem (h : Represents b A) : npos ∉ handles A.orders := fun hi => by
  have := h.handle_lt hi
  have := h.bounded
  omega

/-- A free index holds no order. -/
theorem Represents.free_disjoint (h : Represents b A) {i : ℕ} (hi : i ∈ b.freeIndices) :
    i ∉ handles A.orders := fun hmem =>
  (List.nodup_append.mp h.indicesNodup).2.2 i hi i hmem rfl

/-- Orders of different levels have different nodes. -/
theorem handle_ne_of_level_ne {s s' : Side} {p p' : Price} (h : ¬(s = s' ∧ p = p')) {i : ℕ}
    (hi : i ∈ handles (A.queue s p)) : i ∉ handles (A.queue s' p') := by
  intro hi'
  obtain ⟨o, ho, rfl⟩ := List.mem_map.mp hi
  obtain ⟨o', ho', heq⟩ := List.mem_map.mp hi'
  obtain ⟨ho, hs, hp⟩ := RestingOrders.mem_queue.mp ho
  obtain ⟨ho', hs', hp'⟩ := RestingOrders.mem_queue.mp ho'
  obtain rfl : o' = o := List.inj_on_of_nodup_map A.handlesNodup ho' ho heq
  exact h ⟨hs.symm.trans hs', hp.symm.trans hp'⟩

/-- The last node of a chain is `npos` exactly when the chain is empty. -/
theorem getLastD_eq_npos_iff {l : List ℕ} (h : npos ∉ l) : l.getLastD npos = npos ↔ l = [] := by
  constructor
  · intro heq
    by_contra hne
    exact h (heq ▸ getLastD_mem hne npos)
  · rintro rfl
    rfl

/-- Only an empty chain has the head `npos`. -/
theorem headD_eq_npos_iff {l : List ℕ} (h : npos ∉ l) : l.headD npos = npos ↔ l = [] := by
  constructor
  · intro heq
    by_contra hne
    exact h (heq ▸ headD_mem hne npos)
  · rintro rfl
    rfl

/-! ### The empty pool -/

/-- A cleared pool represents no orders. -/
theorem represents_resetFreeList (hlen : b.nodes.length ≤ npos)
    (hlevels : b.toBookLevels = .empty) (hlookup : b.orderLookup = ∅) :
    Represents b.resetFreeList .empty where
  bounded := by simpa [resetFreeList] using hlen
  indices := by
    simp only [resetFreeList, RestingOrders.empty, handles, List.map_nil, List.append_nil,
      List.length_map]
    exact List.reverse_perm _
  free i hi := by
    simp only [resetFreeList, List.mem_reverse, List.mem_range] at hi
    simp [resetFreeList, nodeAt, hi]
  level s p := by
    rw [findLevel, resetFreeList, hlevels]
    exact BookLevels.find_empty s p
  lookup id := by
    rw [resetFreeList, hlookup]
    rfl
  holds o ho := absurd ho List.not_mem_nil
  linked s p := trivial

/-- So does a new one. -/
theorem represents_new (N : UInt64) : Represents (new N) .empty := by
  refine represents_resetFreeList ?_ rfl rfl
  have := N.toNat_lt
  simp only [List.length_replicate, npos]
  omega

/-- The counter is no part of what a book represents. -/
theorem Represents.countApplied (h : Represents b A) : Represents b.countApplied A :=
  ⟨h.bounded, h.indices, h.free, h.level, h.lookup, h.holds, h.linked⟩

/-! ### Accepting an order -/

/-- Linking a node leaves the size of the pool. -/
theorem length_appendNode (nodes : List OrderNode) (level : PriceLevel) (i : ℕ) :
    (appendNode nodes level i).1.length = nodes.length := by
  rw [appendNode]
  split_ifs <;> simp

/-- Linking a slot writes its own links and the forward link of the old last slot. -/
theorem nodeAt_appendNode {nodes : List OrderNode} {level : PriceLevel} {i : ℕ}
    (hi : i < nodes.length) (htail : level.tail ≠ npos → level.tail < nodes.length)
    (hne : level.tail ≠ i) (j : ℕ) :
    nodeAt (appendNode nodes level i).1 j =
      if j = i then { nodeAt nodes i with prev := level.tail, next := npos }
      else if level.tail ≠ npos ∧ j = level.tail then { nodeAt nodes j with next := i }
      else nodeAt nodes j := by
  simp only [appendNode]
  by_cases ht : level.tail = npos
  · simp only [ht, ne_eq, not_true_eq_false, if_false, false_and]
    by_cases hj : j = i
    · subst hj
      rw [if_pos rfl, nodeAt_modify_self hi]
    · rw [if_neg hj, nodeAt_modify_of_ne hj]
  · have hlt := htail ht
    simp only [ht, ne_eq, not_false_eq_true, if_true, true_and]
    by_cases hj : j = i
    · subst hj
      rw [if_pos rfl, nodeAt_modify_of_ne (Ne.symm hne), nodeAt_modify_self hi]
    · rw [if_neg hj]
      by_cases hjt : j = level.tail
      · subst hjt
        rw [if_pos rfl, nodeAt_modify_self (by simpa using hlt), nodeAt_modify_of_ne hj]
      · rw [if_neg hjt, nodeAt_modify_of_ne hjt, nodeAt_modify_of_ne hj]

/-- What linking a node does to its level. -/
theorem appendNode_level (nodes : List OrderNode) (level : PriceLevel) (i : ℕ) :
    (appendNode nodes level i).2 =
      ⟨level.totalQuantity, level.orderCount + 1, if level.tail = npos then i else level.head,
        i⟩ := by
  by_cases ht : level.tail = npos <;> simp [appendNode, ht]

/-- The level found at a price, or the level the subscript operator creates there. -/
theorem getD_levelOf (Q : List Resting) :
    (levelOf Q).getD {} =
      ⟨totalQuantity (Q.map Resting.toLiveOrder), Q.length, (handles Q).headD npos,
        (handles Q).getLastD npos⟩ := by
  by_cases hQ : Q = []
  · subst hQ
    rfl
  · rw [levelOf, if_neg hQ, Option.getD_some]

/-- An order at the end of a chain, in the fields of its level. -/
theorem levelOf_append (Q : List Resting) (o : Resting) (hnpos : npos ∉ handles Q) :
    levelOf (Q ++ [o]) =
      some ⟨⟨(totalQuantity (Q.map Resting.toLiveOrder)).units + o.quantity.units⟩, Q.length + 1,
        if (handles Q).getLastD npos = npos then o.handle else (handles Q).headD npos,
        o.handle⟩ := by
  have htotal : totalQuantity ((Q ++ [o]).map Resting.toLiveOrder) =
      ⟨(totalQuantity (Q.map Resting.toLiveOrder)).units + o.quantity.units⟩ := by
    rw [List.map_append, List.map_singleton, ← totalQuantity_append]
  have hhandles : handles (Q ++ [o]) = handles Q ++ [o.handle] := by simp [handles]
  have hhead : (handles Q ++ [o.handle]).headD npos =
      if (handles Q).getLastD npos = npos then o.handle else (handles Q).headD npos := by
    rw [headD_append]
    by_cases hnil : handles Q = []
    · rw [if_pos ((getLastD_eq_npos_iff hnpos).mpr hnil), hnil]
      rfl
    · rw [if_neg fun heq => hnil ((getLastD_eq_npos_iff hnpos).mp heq)]
      cases hl : handles Q with
      | nil => exact absurd hl hnil
      | cons x xs => rfl
  rw [levelOf, if_neg (by simp), htotal, hhandles, hhead, getLastD_append, List.length_append]
  rfl

/-- The array after an accepted add: the new node holds the order and is linked behind the
last node of the chain, whose forward link is the only other change. -/
theorem Represents.nodeAt_addOrder (h : Represents b A) {i : ℕ} (hfree : i ∈ b.freeIndices)
    {s : Side} {p : Price} {tail : ℕ} (htail : tail = (handles (A.queue s p)).getLastD npos)
    (id : OrderId) (timestamp : Timestamp) (quantity : Quantity) (level : PriceLevel)
    (hlevel : level.tail = tail) (j : ℕ) :
    nodeAt (appendNode (b.nodes.modify i fun node =>
        { node with
          orderId := id, timestamp := timestamp, quantity := quantity, active := true })
        level i).1 j =
      if j = i then ⟨id, timestamp, quantity, tail, npos, true⟩
      else if tail ≠ npos ∧ j = tail then { nodeAt b.nodes j with next := i }
      else nodeAt b.nodes j := by
  have hi : i < b.nodes.length := h.mem_indices_iff.mp (Or.inl hfree)
  have htailMem : tail ≠ npos → tail ∈ handles A.orders := by
    intro hne
    refine mem_handles_queue (s := s) (p := p) ?_
    rw [htail] at hne ⊢
    exact getLastD_mem (fun hnil => hne (by rw [hnil]; rfl)) npos
  have hne : tail ≠ i := by
    rintro rfl
    by_cases hnpos : tail = npos
    · have := h.bounded
      omega
    · exact h.free_disjoint hfree (htailMem hnpos)
  subst hlevel
  rw [nodeAt_appendNode (by simpa using hi)
    (fun hnpos => by simpa using h.handle_lt (htailMem hnpos)) hne]
  by_cases hj : j = i
  · rw [if_pos hj, if_pos hj, nodeAt_modify_self hi]
  · rw [if_neg hj, if_neg hj, nodeAt_modify_of_ne hj]

/-- A chain none of whose nodes changes is still a chain. -/
theorem seg_of_nodeAt_eq {nodes nodes' : List OrderNode} {l : List ℕ}
    (hseg : Seg (prevOf nodes) (nextOf nodes) npos l npos)
    (hnode : ∀ j ∈ l, nodeAt nodes' j = nodeAt nodes j) :
    Seg (prevOf nodes') (nextOf nodes') npos l npos := by
  refine hseg.congr (fun j hj => ?_) (fun j hj => ?_)
  · rw [prevOf, prevOf, hnode j hj]
  · rw [nextOf, nextOf, hnode j hj]

/-- The chain behind whose last node a node is linked. -/
theorem seg_appendNode {nodes nodes' : List OrderNode} {l : List ℕ} {i : ℕ} {node : OrderNode}
    (hseg : Seg (prevOf nodes) (nextOf nodes) npos l npos) (hnd : l.Nodup) (hnpos : npos ∉ l)
    (hi : i ∉ l) (hprev : node.prev = l.getLastD npos) (hnext : node.next = npos)
    (hnode : ∀ j, nodeAt nodes' j =
      if j = i then node
      else if l.getLastD npos ≠ npos ∧ j = l.getLastD npos then { nodeAt nodes j with next := i }
      else nodeAt nodes j) :
    Seg (prevOf nodes') (nextOf nodes') npos (l ++ [i]) npos := by
  have hne : ∀ j ∈ l, j ≠ i := fun j hj heq => hi (heq ▸ hj)
  refine Seg.push hnd hseg (fun j hj => ?_) (fun j hj hlast => ?_) (fun hnil => ?_) ?_ ?_
  · simp only [prevOf, hnode, if_neg (hne j hj)]
    split_ifs <;> rfl
  · simp only [nextOf, hnode, if_neg (hne j hj)]
    rw [if_neg fun hc => hlast hc.2]
  · have hmem := getLastD_mem hnil npos
    have hlast : l.getLastD npos ≠ npos := fun heq => hnpos (heq ▸ hmem)
    simp only [nextOf, hnode, if_neg (hne _ hmem)]
    rw [if_pos ⟨hlast, trivial⟩]
  · simp only [prevOf, hnode, if_pos, hprev]
  · simp only [nextOf, hnode, if_pos, hnext]

/-- **Accepting an order.** The top of the free stack becomes its node. -/
theorem represents_addOrder (h : Represents b A) (id : OrderId) (side : Side) (price : Price)
    (quantity : Quantity) (timestamp : Timestamp) (hq : quantity.units ≠ 0)
    (hid : A.find id = none) {free : List ℕ} {i : ℕ} (hfree : b.freeIndices = free ++ [i])
    (hhandle : i ∉ A.orders.map fun o => o.handle) :
    (b.addOrder id side price quantity timestamp).1 = .applied ∧
      Represents (b.addOrder id side price quantity timestamp).2
        (A.push ⟨⟨id, side, price, timestamp, quantity⟩, i⟩ hid hhandle hq) := by
  have hnone : b.orderLookup.lookup id.value = none := by rw [h.lookup, hid, Option.map_none]
  have hnot : id.value ∉ b.orderLookup := Finmap.lookup_eq_none.mp hnone
  have halloc : b.allocateNode = some (i, { b with freeIndices := free }) := by
    rw [allocateNode, hfree, List.getLast?_concat, List.dropLast_concat]
  have hi : i ∈ b.freeIndices := by simp [hfree]
  have hlevel : b.toBookLevels.find side price = levelOf (A.queue side price) :=
    h.level side price
  have hnpos : npos ∉ handles (A.queue side price) := fun hmem =>
    h.npos_notMem (mem_handles_queue hmem)
  have hnode := h.nodeAt_addOrder hi (s := side) (p := price) rfl id timestamp quantity
    ((levelOf (A.queue side price)).getD {}) (by rw [getD_levelOf])
  simp only [addOrder, if_neg hq, if_neg hnot, halloc, findLevel, hlevel]
  generalize hnodes : (appendNode (b.nodes.modify i fun node =>
    { node with orderId := id, timestamp := timestamp, quantity := quantity, active := true })
    ((levelOf (A.queue side price)).getD {}) i).1 = nodes at hnode
  have hlength : nodes.length = b.nodes.length := by
    rw [← hnodes, length_appendNode, List.length_modify]
  have hother : ∀ j, j ≠ i → j ∉ handles (A.queue side price) →
      nodeAt nodes j = nodeAt b.nodes j := by
    intro j hji hj
    rw [hnode, if_neg hji, if_neg]
    rintro ⟨hne, rfl⟩
    exact hj (getLastD_mem (fun hnil => hne (by rw [hnil]; rfl)) npos)
  refine ⟨trivial, Represents.countApplied ⟨?_, ?_, ?_, ?_, ?_, ?_, ?_⟩⟩
  · exact hlength ▸ h.bounded
  · have hperm := h.indices
    rw [hfree] at hperm
    simp only [hlength]
    refine List.Perm.trans ?_ hperm
    simp only [RestingOrders.push, handles, List.map_append, List.map_singleton,
      List.append_assoc]
    exact List.Perm.append_left _ (List.perm_append_comm)
  · intro j hj
    have hjfree : j ∈ b.freeIndices := by simp [hfree, hj]
    have hji : j ≠ i := by
      rintro rfl
      have hnd := (List.nodup_append.mp h.indicesNodup).1
      rw [hfree] at hnd
      exact (List.nodup_append.mp hnd).2.2 j hj j List.mem_cons_self rfl
    rw [hother j hji fun hmem => h.free_disjoint hjfree (mem_handles_queue hmem)]
    exact h.free j hjfree
  · intro s p
    rw [RestingOrders.queue_push, findLevel, BookLevels.find_upsert]
    by_cases hsp : side = s ∧ price = p
    · obtain ⟨rfl, rfl⟩ := hsp
      rw [if_pos ⟨rfl, rfl⟩, if_pos ⟨rfl, rfl⟩, levelOf_append _ _ hnpos, appendNode_level,
        getD_levelOf]
    · rw [if_neg hsp, if_neg hsp]
      exact h.level s p
  · intro id'
    rw [RestingOrders.find_push]
    by_cases hid' : id' = id
    · subst hid'
      rw [if_pos rfl, Finmap.lookup_insert]
      rfl
    · rw [if_neg hid', Finmap.lookup_insert_of_ne _ (value_ne hid'), h.lookup]
  · intro o ho
    rcases List.mem_append.mp ho with hmem | hmem
    · have hold := h.holds o hmem
      have hoi : o.handle ≠ i := fun heq => hhandle (heq ▸ List.mem_map_of_mem hmem)
      have hn := hnode o.handle
      rw [if_neg hoi] at hn
      split_ifs at hn
      · exact hn ▸ ⟨hold.orderId, hold.timestamp, hold.quantity, hold.active⟩
      · exact hn ▸ hold
    · obtain rfl := List.mem_singleton.mp hmem
      have hn := hnode i
      rw [if_pos rfl] at hn
      exact hn ▸ ⟨rfl, rfl, rfl, rfl⟩
  · intro s p
    have hnotMem : i ∉ handles (A.queue s p) := fun hmem =>
      h.free_disjoint hi (mem_handles_queue hmem)
    rw [RestingOrders.queue_push]
    by_cases hsp : side = s ∧ price = p
    · obtain ⟨rfl, rfl⟩ := hsp
      have hhandles : handles (A.queue side price ++
          [⟨⟨id, side, price, timestamp, quantity⟩, i⟩]) = handles (A.queue side price) ++ [i] := by
        simp [handles]
      rw [if_pos ⟨rfl, rfl⟩, hhandles]
      exact seg_appendNode (h.linked side price) (A.queue_handlesNodup side price) hnpos hnotMem
        rfl rfl hnode
    · rw [if_neg hsp]
      refine seg_of_nodeAt_eq (h.linked s p) fun j hj => ?_
      exact hother j (fun heq => hnotMem (heq ▸ hj)) fun hmem => handle_ne_of_level_ne hsp hmem hj

/-! ### Removing an order -/

/-- Unlinking a node leaves the size of the pool. -/
theorem length_unlinkNode (nodes : List OrderNode) (level : PriceLevel) (i : ℕ) :
    (unlinkNode nodes level i).1.length = nodes.length := by
  simp only [unlinkNode]
  split_ifs <;> simp

/-- Unlinking a slot redirects the forward link of the slot before it and the backward link
of the slot after it. -/
theorem nodeAt_unlinkNode {nodes : List OrderNode} {i prev next : ℕ} (level : PriceLevel)
    (hprev : prevOf nodes i = prev) (hnext : nextOf nodes i = next)
    (hp : prev ≠ npos → prev < nodes.length) (hn : next ≠ npos → next < nodes.length) (j : ℕ) :
    nodeAt (unlinkNode nodes level i).1 j =
      { nodeAt nodes j with
        next := if prev ≠ npos ∧ j = prev then next else (nodeAt nodes j).next
        prev := if next ≠ npos ∧ j = next then prev else (nodeAt nodes j).prev } := by
  simp only [prevOf, nextOf] at hprev hnext
  simp only [unlinkNode, hprev, hnext]
  by_cases hpn : prev = npos <;> by_cases hnn : next = npos
  · simp [hpn, hnn]
  · by_cases hjn : j = next
    · subst hjn
      simp [hpn, hnn, nodeAt_modify_self (hn hnn)]
    · simp [hpn, hnn, hjn, nodeAt_modify_of_ne hjn]
  · by_cases hjp : j = prev
    · subst hjp
      simp [hpn, hnn, nodeAt_modify_self (hp hpn)]
    · simp [hpn, hnn, hjp, nodeAt_modify_of_ne hjp]
  · have hlt : next < (nodes.modify prev fun node => { node with next := next }).length := by
      simpa using hn hnn
    by_cases hjn : j = next
    · subst hjn
      by_cases hjp : j = prev
      · subst hjp
        simp [hpn, nodeAt_modify_self hlt, nodeAt_modify_self (hp hpn)]
      · simp [hpn, hnn, hjp, nodeAt_modify_self hlt, nodeAt_modify_of_ne hjp]
    · by_cases hjp : j = prev
      · subst hjp
        simp [hpn, hnn, hjn, nodeAt_modify_of_ne hjn, nodeAt_modify_self (hp hpn)]
      · simp [hpn, hnn, hjn, hjp, nodeAt_modify_of_ne hjn, nodeAt_modify_of_ne hjp]

/-- What unlinking a node does to its level. -/
theorem unlinkNode_level {nodes : List OrderNode} {i prev next : ℕ} (level : PriceLevel)
    (hprev : prevOf nodes i = prev) (hnext : nextOf nodes i = next) :
    (unlinkNode nodes level i).2 =
      ⟨level.totalQuantity, level.orderCount - 1, if prev = npos then next else level.head,
        if next = npos then prev else level.tail⟩ := by
  simp only [prevOf, nextOf] at hprev hnext
  by_cases hpn : prev = npos <;> by_cases hnn : next = npos <;>
    simp [unlinkNode, hprev, hnext, hpn, hnn]

/-- The level left when a node is unlinked from between `pre` and `post`. -/
theorem levelOf_unlink {pre post : List Resting} (o : Resting)
    (hnpos : npos ∉ handles (pre ++ o :: post)) (total : Quantity)
    (htotal : totalQuantity ((pre ++ post).map Resting.toLiveOrder) = total) :
    (⟨total, (pre ++ o :: post).length - 1,
        if (handles pre).getLastD npos = npos then (handles post).headD npos
          else (handles (pre ++ o :: post)).headD npos,
        if (handles post).headD npos = npos then (handles pre).getLastD npos
          else (handles (pre ++ o :: post)).getLastD npos⟩ : PriceLevel).unlessEmpty =
      levelOf (pre ++ post) := by
  have hlen : (pre ++ o :: post).length - 1 = (pre ++ post).length := by
    simp only [List.length_append, List.length_cons]
    omega
  have happ : handles (pre ++ post) = handles pre ++ handles post := by simp [handles]
  have hcons : handles (pre ++ o :: post) = handles pre ++ o.handle :: handles post := by
    simp [handles]
  rw [hcons] at hnpos
  have hpre : npos ∉ handles pre := fun hmem => hnpos (List.mem_append_left _ hmem)
  have hpost : npos ∉ handles post := fun hmem =>
    hnpos (List.mem_append_right _ (List.mem_cons_of_mem _ hmem))
  have hhead : (if (handles pre).getLastD npos = npos then (handles post).headD npos
      else (handles pre ++ o.handle :: handles post).headD npos) =
        (handles pre ++ handles post).headD npos := by
    simp only [getLastD_eq_npos_iff hpre, headD_append]
    cases handles pre <;> rfl
  have htail : (if (handles post).headD npos = npos then (handles pre).getLastD npos
      else (handles pre ++ o.handle :: handles post).getLastD npos) =
        (handles pre ++ handles post).getLastD npos := by
    simp only [headD_eq_npos_iff hpost, getLastD_append, List.getLastD_cons]
    cases hl : handles post with
    | nil => rfl
    | cons x xs => simp only [reduceCtorEq, if_false, List.getLastD_cons]
  rw [levelOf, hlen, hcons, happ, hhead, htail, htotal]
  simp only [PriceLevel.unlessEmpty, List.length_eq_zero_iff]

/-- The neighbours of an order's node are the nodes of the orders queued around it. -/
theorem Represents.neighbours (h : Represents b A) {pre post : List Resting}
    (hsplit : A.queue o.side o.price = pre ++ o :: post) :
    prevOf b.nodes o.handle = (handles pre).getLastD npos ∧
      nextOf b.nodes o.handle = (handles post).headD npos := by
  have hlinked := h.linked o.side o.price
  have hcons : handles (pre ++ o :: post) = handles pre ++ o.handle :: handles post := by
    simp [handles]
  rw [hsplit, hcons] at hlinked
  exact hlinked.neighbours

/-- The array after a removal: the freed node is reset, its neighbours are linked to each
other, and nothing else changes. -/
theorem Represents.nodeAt_removeExistingOrder (h : Represents b A) {pre post : List Resting}
    (hsplit : A.queue o.side o.price = pre ++ o :: post) (ho : o ∈ A.orders)
    (level : PriceLevel) (j : ℕ) :
    nodeAt ((unlinkNode b.nodes level o.handle).1.set o.handle {}) j =
      if j = o.handle then {}
      else
        { nodeAt b.nodes j with
          next := if handles pre ≠ [] ∧ j = (handles pre).getLastD npos
            then (handles post).headD npos else (nodeAt b.nodes j).next
          prev := if handles post ≠ [] ∧ j = (handles post).headD npos
            then (handles pre).getLastD npos else (nodeAt b.nodes j).prev } := by
  obtain ⟨hprev, hnext⟩ := h.neighbours hsplit
  have hcons : handles (A.queue o.side o.price) = handles pre ++ o.handle :: handles post := by
    rw [hsplit]
    simp [handles]
  have hpreMem : ∀ k ∈ handles pre, k ∈ handles A.orders := fun k hk =>
    mem_handles_queue (s := o.side) (p := o.price) (hcons ▸ List.mem_append_left _ hk)
  have hpostMem : ∀ k ∈ handles post, k ∈ handles A.orders := fun k hk =>
    mem_handles_queue (s := o.side) (p := o.price)
      (hcons ▸ List.mem_append_right _ (List.mem_cons_of_mem _ hk))
  have hpre : (handles pre).getLastD npos ≠ npos ↔ handles pre ≠ [] := by
    rw [ne_eq, getLastD_eq_npos_iff fun hmem => h.npos_notMem (hpreMem _ hmem)]
  have hpost : (handles post).headD npos ≠ npos ↔ handles post ≠ [] := by
    rw [ne_eq, headD_eq_npos_iff fun hmem => h.npos_notMem (hpostMem _ hmem)]
  have hi : o.handle < b.nodes.length := h.handle_lt (List.mem_map_of_mem ho)
  by_cases hj : j = o.handle
  · subst hj
    rw [if_pos rfl, nodeAt_set_self (by rw [length_unlinkNode]; exact hi)]
  · rw [if_neg hj, nodeAt_set_of_ne hj, nodeAt_unlinkNode level hprev hnext
      (fun hne => h.handle_lt (hpreMem _ (getLastD_mem (hpre.mp hne) _)))
      (fun hne => h.handle_lt (hpostMem _ (headD_mem (hpost.mp hne) _)))]
    simp only [hpre, hpost]

/-- The chain out of which a node is taken. -/
theorem seg_unlinkNode {nodes nodes' : List OrderNode} {pre post : List ℕ} {i : ℕ}
    (hseg : Seg (prevOf nodes) (nextOf nodes) npos (pre ++ i :: post) npos)
    (hnd : (pre ++ i :: post).Nodup) (hnpos : npos ∉ pre ++ i :: post)
    (hnode : ∀ j, nodeAt nodes' j =
      if j = i then {}
      else
        { nodeAt nodes j with
          next := if pre ≠ [] ∧ j = pre.getLastD npos then post.headD npos
            else (nodeAt nodes j).next
          prev := if post ≠ [] ∧ j = post.headD npos then pre.getLastD npos
            else (nodeAt nodes j).prev }) :
    Seg (prevOf nodes') (nextOf nodes') npos (pre ++ post) npos := by
  have hne : ∀ j ∈ pre ++ post, j ≠ i := by
    rintro j hj rfl
    exact (List.nodup_middle.mp hnd).notMem hj
  refine hseg.unlink hnd (fun j hj hlast => ?_) (fun hnil => ?_) (fun j hj hfirst => ?_)
    (fun hnil => ?_) hnpos
  · simp only [nextOf, hnode, if_neg (hne j hj)]
    rw [if_neg fun hc => hlast hc.2]
  · have hj := List.mem_append_left post (getLastD_mem hnil npos)
    simp only [nextOf, hnode, if_neg (hne _ hj)]
    rw [if_pos ⟨hnil, trivial⟩]
  · simp only [prevOf, hnode, if_neg (hne j hj)]
    rw [if_neg fun hc => hfirst hc.2]
  · have hj := List.mem_append_right pre (headD_mem hnil npos)
    simp only [prevOf, hnode, if_neg (hne _ hj)]
    rw [if_pos ⟨hnil, trivial⟩]

/-- **Removing an order.** Its node goes back to the free stack. -/
theorem represents_removeExistingOrder (h : Represents b A) {id : OrderId}
    (ho : A.find id = some o) :
    Represents (b.removeExistingOrder id (recordOf o)) (A.remove id) := by
  obtain ⟨hmem, rfl⟩ := RestingOrders.find_eq_some_iff.mp ho
  have hq : o ∈ A.queue o.side o.price := RestingOrders.mem_queue.mpr ⟨hmem, rfl, rfl⟩
  obtain ⟨pre, post, hsplit, herase, -⟩ := exists_split (A.queue_idsNodup o.side o.price) hq
  obtain ⟨pre', post', hsplit', herase', -⟩ := exists_split A.idsNodup hmem
  have hcons : handles (A.queue o.side o.price) = handles pre ++ o.handle :: handles post := by
    rw [hsplit]
    simp [handles]
  have hnd : (handles pre ++ o.handle :: handles post).Nodup :=
    hcons ▸ A.queue_handlesNodup o.side o.price
  have hnpos : npos ∉ handles (A.queue o.side o.price) := fun hmem =>
    h.npos_notMem (mem_handles_queue hmem)
  have hne : A.queue o.side o.price ≠ [] := List.ne_nil_of_mem hq
  have hlevel : b.toBookLevels.find o.side o.price = some
      ⟨totalQuantity ((A.queue o.side o.price).map Resting.toLiveOrder),
        (A.queue o.side o.price).length, (handles (A.queue o.side o.price)).headD npos,
        (handles (A.queue o.side o.price)).getLastD npos⟩ := by
    have := h.level o.side o.price
    rwa [findLevel, levelOf, if_neg hne] at this
  obtain ⟨hprev, hnext⟩ := h.neighbours hsplit
  have hnode := h.nodeAt_removeExistingOrder hsplit hmem
    { totalQuantity := ⟨(totalQuantity ((A.queue o.side o.price).map
        Resting.toLiveOrder)).units - o.quantity.units⟩
      orderCount := (A.queue o.side o.price).length
      head := (handles (A.queue o.side o.price)).headD npos
      tail := (handles (A.queue o.side o.price)).getLastD npos }
  simp only [removeExistingOrder, findLevel, recordOf, hlevel, releaseNode]
  rw [unlinkNode_level _ hprev hnext]
  generalize hnodes : (unlinkNode b.nodes
    { totalQuantity := ⟨(totalQuantity ((A.queue o.side o.price).map
        Resting.toLiveOrder)).units - o.quantity.units⟩
      orderCount := (A.queue o.side o.price).length
      head := (handles (A.queue o.side o.price)).headD npos
      tail := (handles (A.queue o.side o.price)).getLastD npos }
    o.handle).1.set o.handle {} = nodes at hnode
  have hlength : nodes.length = b.nodes.length := by
    rw [← hnodes, List.length_set, length_unlinkNode]
  have hother : ∀ j, j ∉ handles (A.queue o.side o.price) → nodeAt nodes j = nodeAt b.nodes j := by
    intro j hj
    rw [hcons] at hj
    rw [hnode, if_neg fun heq => hj (by simp [heq]), if_neg, if_neg]
    · rintro ⟨hne, rfl⟩
      exact hj (List.mem_append_left _ (getLastD_mem hne npos))
    · rintro ⟨hne, rfl⟩
      exact hj (List.mem_append_right _ (List.mem_cons_of_mem _ (headD_mem hne npos)))
  refine ⟨?_, ?_, ?_, ?_, ?_, ?_, ?_⟩
  · exact hlength ▸ h.bounded
  · simp only [hlength]
    refine List.Perm.trans ?_ h.indices
    simp only [RestingOrders.remove, herase']
    rw [hsplit']
    simp only [handles, List.map_append, List.map_cons, List.append_assoc,
      List.singleton_append]
    exact List.Perm.append_left _ List.perm_middle.symm
  · intro j hj
    rcases List.mem_append.mp hj with hj | hj
    · rw [hother j fun hmem => h.free_disjoint hj (mem_handles_queue hmem)]
      exact h.free j hj
    · rw [List.mem_singleton.mp hj, hnode, if_pos rfl]
  · intro s p
    rw [findLevel, BookLevels.find_alter, RestingOrders.queue_remove]
    by_cases hsp : o.side = s ∧ o.price = p
    · obtain ⟨rfl, rfl⟩ := hsp
      have htotal : totalQuantity ((pre ++ post).map Resting.toLiveOrder) =
          ⟨(totalQuantity ((A.queue o.side o.price).map Resting.toLiveOrder)).units -
            o.quantity.units⟩ := by
        rw [← herase, ← totalQuantity_eraseKey (A.queue_idsNodup _ _) hq]
      rw [if_pos ⟨rfl, rfl⟩, hlevel, Option.bind_some, herase]
      rw [hsplit] at htotal hnpos ⊢
      exact levelOf_unlink o hnpos _ htotal
    · rw [if_neg hsp, eraseKey_of_not_mem (RestingOrders.not_mem_queue_of_ne ho hsp)]
      exact h.level s p
  · intro id'
    rw [RestingOrders.find_remove]
    by_cases hid' : id' = o.orderId
    · subst hid'
      rw [if_pos rfl, Finmap.lookup_erase, Option.map_none]
    · rw [if_neg hid', Finmap.lookup_erase_ne (value_ne hid'), h.lookup]
  · intro a ha
    obtain ⟨ha, hid⟩ := mem_eraseKey.mp ha
    have hold := h.holds a ha
    have hne : a.handle ≠ o.handle := fun heq =>
      hid ((key_eq_iff_key_eq A.idsNodup A.handlesNodup hmem ha).mpr heq)
    have hn := hnode a.handle
    rw [if_neg hne] at hn
    exact hn ▸ ⟨hold.orderId, hold.timestamp, hold.quantity, hold.active⟩
  · intro s p
    have hlinked := h.linked s p
    rw [RestingOrders.queue_remove]
    by_cases hsp : o.side = s ∧ o.price = p
    · obtain ⟨rfl, rfl⟩ := hsp
      have happ : handles (pre ++ post) = handles pre ++ handles post := by simp [handles]
      rw [hcons] at hlinked hnpos
      rw [herase, happ]
      exact seg_unlinkNode hlinked hnd hnpos hnode
    · rw [eraseKey_of_not_mem (RestingOrders.not_mem_queue_of_ne ho hsp)]
      exact seg_of_nodeAt_eq hlinked fun j hj =>
        hother j fun hmem => handle_ne_of_level_ne hsp hmem hj

/-! ### Lowering a quantity -/

/-- Only the node of the order changes, and only its quantity. -/
theorem nodeAt_modify_quantity {nodes : List OrderNode} {i : ℕ} (hi : i < nodes.length)
    (q : Quantity) (j : ℕ) :
    nodeAt (nodes.modify i fun node => { node with quantity := q }) j =
      if j = i then { nodeAt nodes i with quantity := q } else nodeAt nodes j := by
  by_cases hj : j = i
  · subst hj
    rw [if_pos rfl, nodeAt_modify_self hi]
  · rw [if_neg hj, nodeAt_modify_of_ne hj]

/-- A change of a quantity leaves the chain. -/
theorem handles_updateKey (id : OrderId) (q : Quantity) (Q : List Resting) :
    handles (updateKey (fun o : Resting => o.orderId) id (Resting.withQuantity q) Q) =
      handles Q := by
  rw [handles, handles, updateKey, List.map_map]
  refine List.map_congr_left fun a _ => ?_
  simp only [Function.comp_apply]
  split_ifs <;> rfl

/-- Lowering an order in its level gives the level of the changed queue. -/
theorem reduceOrder_levelOf {Q : List Resting} (hnd : (Q.map fun o => o.orderId).Nodup)
    (ho : o ∈ Q) {reduction : UInt64} {q : Quantity}
    (hred : reduction + q.units = o.quantity.units) :
    ((levelOf Q).map fun level =>
        { level with totalQuantity := ⟨level.totalQuantity.units - reduction⟩ }) =
      levelOf (updateKey (fun o : Resting => o.orderId) o.orderId (Resting.withQuantity q) Q) := by
  have hne : Q ≠ [] := List.ne_nil_of_mem ho
  have hne' : updateKey (fun o : Resting => o.orderId) o.orderId (Resting.withQuantity q) Q ≠
      [] := by
    simpa [updateKey] using hne
  have htotal := totalQuantity_updateKey hnd ho hred
  have hlen : (updateKey (fun o : Resting => o.orderId) o.orderId (Resting.withQuantity q)
      Q).length = Q.length := by
    simp [updateKey]
  rw [levelOf, levelOf, if_neg hne, if_neg hne', Option.map_some, ← htotal, handles_updateKey,
    hlen]

/-- **Lowering a quantity.** The level total, the record and the node go down by the same
amount; the links stay. -/
theorem represents_reduceOrder (h : Represents b A) {id : OrderId} (ho : A.find id = some o)
    {reduction : UInt64} {q : Quantity} (hq : q.units ≠ 0)
    (hred : reduction + q.units = o.quantity.units) :
    Represents (b.reduceOrder id (recordOf o) reduction q) (A.setQuantity id q hq) := by
  obtain ⟨hmem, rfl⟩ := RestingOrders.find_eq_some_iff.mp ho
  have hi : o.handle < b.nodes.length := h.handle_lt (List.mem_map_of_mem hmem)
  have hnode := nodeAt_modify_quantity hi q
  refine ⟨?_, ?_, ?_, ?_, ?_, ?_, ?_⟩
  · simpa [reduceOrder] using h.bounded
  · simp only [reduceOrder, List.length_modify, RestingOrders.setQuantity, handles_updateKey]
    exact h.indices
  · intro j hj
    have hne : j ≠ o.handle := by
      rintro rfl
      exact h.free_disjoint hj (List.mem_map_of_mem hmem)
    rw [← h.free j hj]
    exact nodeAt_modify_of_ne hne _
  · intro s p
    have hlevel := h.level o.side o.price
    rw [findLevel] at hlevel
    rw [findLevel, reduceOrder, BookLevels.find_modify, RestingOrders.queue_setQuantity]
    by_cases hsp : (recordOf o).side = s ∧ (recordOf o).price = p
    · obtain ⟨rfl, rfl⟩ := hsp
      have hq' : o ∈ A.queue o.side o.price := RestingOrders.mem_queue.mpr ⟨hmem, rfl, rfl⟩
      rw [if_pos ⟨rfl, rfl⟩]
      exact (congrArg (Option.map _) hlevel).trans
        (reduceOrder_levelOf (A.queue_idsNodup o.side o.price) hq' hred)
    · rw [if_neg hsp, updateKey_of_not_mem (RestingOrders.not_mem_queue_of_ne ho hsp)]
      exact h.level s p
  · intro id'
    rw [RestingOrders.find_setQuantity, reduceOrder]
    by_cases hid' : id' = o.orderId
    · subst hid'
      rw [if_pos rfl, Finmap.lookup_insert, ho]
      rfl
    · rw [if_neg hid', Finmap.lookup_insert_of_ne _ (value_ne hid'), h.lookup]
  · intro a ha
    rcases mem_updateKey.mp ha with ⟨hmem', hid⟩ | ⟨a, hmem', hid, rfl⟩
    · have hold := h.holds a hmem'
      have hne : a.handle ≠ o.handle := fun heq =>
        hid ((key_eq_iff_key_eq A.idsNodup A.handlesNodup hmem hmem').mpr heq)
      have hn := hnode a.handle
      rw [if_neg hne] at hn
      exact hn ▸ hold
    · have hold := h.holds a hmem'
      have heq : a.handle = o.handle :=
        (key_eq_iff_key_eq A.idsNodup A.handlesNodup hmem hmem').mp hid
      have hn := hnode a.handle
      rw [if_pos heq, ← heq] at hn
      have hheld : HoldsOrder { nodeAt b.nodes a.handle with quantity := q }
          (Resting.withQuantity q a) := ⟨hold.orderId, hold.timestamp, rfl, hold.active⟩
      rw [← hn, heq] at hheld
      exact heq ▸ hheld
  · intro s p
    rw [RestingOrders.queue_setQuantity, handles_updateKey]
    refine (h.linked s p).congr (fun j _ => ?_) (fun j _ => ?_)
    · simp only [prevOf, reduceOrder, recordOf, hnode]
      split_ifs with hj
      · rw [hj]
      · rfl
    · simp only [nextOf, reduceOrder, recordOf, hnode]
      split_ifs with hj
      · rw [hj]
      · rfl

/-! ### The operations against the bounded rules -/

/-- A book of a fixed capacity holds the resting orders `A`. -/
def Holds (capacity : ℕ) (b : PooledLimitOrderBook) (A : RestingOrders) : Prop :=
  Represents b A ∧ b.capacity = capacity

variable {N : ℕ}

/-- The lookup has the ids of the live orders. -/
theorem Represents.mem_orderLookup_iff (h : Represents b A) {id : OrderId} :
    id.value ∈ b.orderLookup ↔ id ∈ A.live.map LiveOrder.orderId := by
  rw [← not_iff_not, ← Finmap.lookup_eq_none, h.lookup, Option.map_eq_none_iff,
    RestingOrders.find_eq_none_iff]

/-- Every slot is free or used by one live order. -/
theorem Represents.length_free_add (h : Represents b A) :
    b.freeIndices.length + A.live.length = b.capacity := by
  have hlen := h.indices.length_eq
  simpa [handles, RestingOrders.live, capacity] using hlen

/-- An add leaves the size of the pool. -/
theorem addOrder_capacity (b : PooledLimitOrderBook) (id : OrderId) (side : Side) (price : Price)
    (quantity : Quantity) (timestamp : Timestamp) :
    (b.addOrder id side price quantity timestamp).2.capacity = b.capacity := by
  simp only [addOrder, allocateNode]
  split_ifs
  · rfl
  · rfl
  · cases b.freeIndices.getLast? with
    | none => rfl
    | some i => simp [capacity, PooledLimitOrderBook.countApplied, length_appendNode]

/-- So does a removal. -/
theorem removeExistingOrder_capacity (b : PooledLimitOrderBook) (id : OrderId)
    (record : OrderRecord) : (b.removeExistingOrder id record).capacity = b.capacity := by
  simp only [removeExistingOrder]
  cases b.findLevel record.side record.price with
  | none => rfl
  | some level => simp [capacity, releaseNode, length_unlinkNode]

/-- A removal takes the order out of the live list. -/
theorem Holds.remove (h : Holds N b A) {id : OrderId} (ho : A.find id = some o) :
    Holds N (b.removeExistingOrder id (recordOf o)).countApplied (A.remove id) :=
  ⟨(represents_removeExistingOrder h.1 ho).countApplied,
    (removeExistingOrder_capacity b id (recordOf o)).trans h.2⟩

/-- A reduction lowers the order in the live list. -/
theorem Holds.reduce (h : Holds N b A) {id : OrderId} (ho : A.find id = some o)
    {reduction : UInt64} {q : Quantity} (hq : q.units ≠ 0)
    (hred : reduction + q.units = o.quantity.units) :
    Holds N (b.reduceOrder id (recordOf o) reduction q).countApplied (A.setQuantity id q hq) :=
  ⟨(represents_reduceOrder h.1 ho hq hred).countApplied,
    (List.length_modify _ _ _).trans h.2⟩

/-- An add finds the free stack empty exactly when the book is full. -/
theorem addOrder_refines (h : Holds N b A) (id : OrderId) (side : Side) (price : Price)
    (quantity : Quantity) (timestamp : Timestamp) :
    StepRefines (Holds N) (b.exec (.addOrder id side price quantity timestamp))
      (Reference.boundedExec N A.live (.addOrder id side price quantity timestamp)) := by
  obtain ⟨hrep, hcap⟩ := h
  have hroom := hrep.length_free_add
  rw [hcap] at hroom
  by_cases hq : quantity.units = 0
  · rw [Reference.boundedExec, if_neg fun hlacks => hlacks.1 hq]
    simp only [exec, Reference.exec, addOrder, Reference.addOrder, if_pos hq]
    exact ⟨rfl, A, ⟨hrep, hcap⟩, rfl⟩
  by_cases hid : id ∈ A.live.map LiveOrder.orderId
  · have hmem := hrep.mem_orderLookup_iff.mpr hid
    rw [Reference.boundedExec, if_neg fun hlacks => hlacks.2.1 hid]
    simp only [exec, Reference.exec, addOrder, Reference.addOrder, if_neg hq, if_pos hid,
      if_pos hmem]
    exact ⟨rfl, A, ⟨hrep, hcap⟩, rfl⟩
  have hnot : id.value ∉ b.orderLookup := fun hmem => hid (hrep.mem_orderLookup_iff.mp hmem)
  rcases List.eq_nil_or_concat b.freeIndices with hnil | ⟨free, i, hfree⟩
  · have hfull : A.live.length = N := by
      rw [hnil] at hroom
      simpa using hroom
    rw [Reference.boundedExec, if_pos ⟨hq, hid, hfull⟩]
    simp only [exec, addOrder, if_neg hq, if_neg hnot, allocateNode, hnil, List.getLast?_nil]
    exact ⟨rfl, A, ⟨hrep, hcap⟩, rfl⟩
  · rw [List.concat_eq_append] at hfree
    have hspare : A.live.length ≠ N := by
      rw [hfree, List.length_append, List.length_singleton] at hroom
      omega
    have hfind : A.find id = none := RestingOrders.find_eq_none_iff.mpr hid
    have hhandle : i ∉ A.orders.map fun o => o.handle := hrep.free_disjoint (by simp [hfree])
    obtain ⟨hres, hrep'⟩ :=
      represents_addOrder hrep id side price quantity timestamp hq hfind hfree hhandle
    rw [Reference.boundedExec, if_neg fun hlacks => hspare hlacks.2.2, exec, Reference.exec]
    refine ⟨?_, _, ⟨hrep', ?_⟩, ?_⟩
    · rw [hres, Reference.addOrder, if_neg hq, if_neg hid]
    · exact (addOrder_capacity b id side price quantity timestamp).trans hcap
    · rw [RestingOrders.live_push, Reference.addOrder, if_neg hq, if_neg hid]

/-- `cancel_order` refines its rule. -/
theorem cancelOrder_refines (h : Holds N b A) (id : OrderId) :
    StepRefines (Holds N) (b.cancelOrder id) (Reference.cancelOrder A.live id) := by
  refine StepRefines.cancelOrder h (fun hfind => ?_) (fun o hfind => ?_)
  · simp only [cancelOrder, h.1.lookup, hfind, Option.map_none]
  · simp only [cancelOrder, h.1.lookup, hfind, Option.map_some]
    exact ⟨trivial, h.remove hfind⟩

/-- `modify_order` refines its rule. -/
theorem modifyOrder_refines (h : Holds N b A) (id : OrderId) (q : Quantity) :
    StepRefines (Holds N) (b.modifyOrder id q) (Reference.modifyOrder A.live id q) := by
  refine StepRefines.modifyOrder h (fun hq => ?_) (fun hq hfind => ?_)
    (fun o hq hfind hgt => ?_) (fun o hq hfind heq => ?_) (fun o hq hfind hlt hred => ?_)
  · simp only [modifyOrder, if_pos hq]
  · simp only [modifyOrder, if_neg hq, h.1.lookup, hfind, Option.map_none]
  · simp only [modifyOrder, if_neg hq, h.1.lookup, hfind, Option.map_some, recordOf_quantity,
      if_pos hgt]
  · have hng : ¬o.quantity.units < q.units := heq ▸ UInt64.lt_irrefl _
    simp only [modifyOrder, if_neg hq, h.1.lookup, hfind, Option.map_some, recordOf_quantity,
      gt_iff_lt, if_neg hng, if_pos heq]
    exact ⟨trivial, h.1.countApplied, h.2⟩
  · simp only [modifyOrder, if_neg hq, h.1.lookup, hfind, Option.map_some, recordOf_quantity,
      gt_iff_lt, if_neg (UInt64.lt_asymm hlt), if_neg (UInt64.ne_of_lt hlt)]
    exact ⟨trivial, h.reduce hfind hq hred⟩

/-- `execute_order` refines its rule. -/
theorem executeOrder_refines (h : Holds N b A) (id : OrderId) (q : Quantity) :
    StepRefines (Holds N) (b.executeOrder id q) (Reference.executeOrder A.live id q) := by
  refine StepRefines.executeOrder h (fun hq => ?_) (fun hq hfind => ?_)
    (fun o hq hfind hgt => ?_) (fun o hq hfind heq => ?_) (fun o hq hfind hlt hrem hred => ?_)
  · simp only [executeOrder, if_pos hq]
  · simp only [executeOrder, if_neg hq, h.1.lookup, hfind, Option.map_none]
  · simp only [executeOrder, if_neg hq, h.1.lookup, hfind, Option.map_some, recordOf_quantity,
      if_pos hgt]
  · have hng : ¬o.quantity.units < q.units := heq ▸ UInt64.lt_irrefl _
    simp only [executeOrder, if_neg hq, h.1.lookup, hfind, Option.map_some, recordOf_quantity,
      gt_iff_lt, if_neg hng, if_pos heq]
    exact ⟨trivial, h.remove hfind⟩
  · simp only [executeOrder, if_neg hq, h.1.lookup, hfind, Option.map_some, recordOf_quantity,
      gt_iff_lt, if_neg (UInt64.lt_asymm hlt), if_neg (UInt64.ne_of_lt hlt)]
    exact ⟨trivial, h.reduce hfind hrem hred⟩

/-- **One step of the simulation.** Whatever the operation and its arguments, the pool
answers what the rules bounded by its capacity dictate and represents the list they leave. -/
theorem exec_refines (h : Holds N b A) (op : BookOp) :
    StepRefines (Holds N) (b.exec op) (Reference.boundedExec N A.live op) := by
  cases op with
  | addOrder id side price quantity timestamp =>
      exact addOrder_refines h id side price quantity timestamp
  | cancelOrder id =>
      obtain ⟨hres, hrep⟩ := cancelOrder_refines h id
      exact ⟨congrArg some hres, hrep⟩
  | modifyOrder id q =>
      obtain ⟨hres, hrep⟩ := modifyOrder_refines h id q
      exact ⟨congrArg some hres, hrep⟩
  | executeOrder id q =>
      obtain ⟨hres, hrep⟩ := executeOrder_refines h id q
      exact ⟨congrArg some hres, hrep⟩
  | clear =>
      refine ⟨rfl, .empty, ⟨represents_resetFreeList h.1.bounded rfl rfl, ?_⟩, rfl⟩
      rw [← h.2]
      exact List.length_map _

end PooledLimitOrderBook

end Datagine
