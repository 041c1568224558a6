import Datagine.PooledValidator

/-!
# States that Pass the Invariant Check

Which states `validate_invariants` accepts, when it is asked about a state that no operation need
have produced. A live list is read off the levels of the state (`assembled`): the orders of the
bids, best first, and then those of the asks. The records tell the levels apart, so that no id is
listed twice.

For the linked-list book this is all a state consists of: a state passes exactly if it represents
a live list, and then every operation on it follows the reference rules. For the pooled book the
free list is left open: a state represents a live list exactly if it passes and the free list
holds the other nodes, each once and reset.

## Main results

* `LimitOrderBook.validateInvariants_iff_represents`
* `PooledLimitOrderBook.represents_iff_validateInvariants`
-/

namespace Datagine

open KeyedList LinkedChain Mealy

/-! ### The live list of the levels -/

namespace BookLevels

variable {ν : Type} {m : BookLevels ν}

/-- The levels of both sides, each with its side and price. -/
def placed (m : BookLevels ν) : List ((Side × Price) × ν) :=
  (m.entries .buy).map (fun e => ((.buy, ⟨e.1⟩), e.2)) ++
    (m.entries .sell).map fun e => ((.sell, ⟨e.1⟩), e.2)

/-- The levels with their places. -/
theorem mem_placed {s : Side} {p : Price} {v : ν} :
    ((s, p), v) ∈ m.placed ↔ m.find s p = some v := by
  rw [placed, List.mem_append, List.mem_map, List.mem_map]
  constructor
  · rintro (⟨e, he, heq⟩ | ⟨e, he, heq⟩) <;> cases heq <;> exact mem_entries.mp he
  · intro hfind
    cases s with
    | buy => exact .inl ⟨(p.ticks, v), mem_entries.mpr hfind, rfl⟩
    | sell => exact .inr ⟨(p.ticks, v), mem_entries.mpr hfind, rfl⟩

/-- No place is listed twice. -/
theorem placed_nodup (m : BookLevels ν) : (m.placed.map Prod.fst).Nodup := by
  have hside : ∀ s : Side, ((m.entries s).map fun e => (s, Price.mk e.1)).Nodup := by
    intro s
    refine List.pairwise_map.mpr ((m.entries_sorted s).imp ?_)
    intro a b hlt heq
    have hkey : a.1 = b.1 := Price.mk.inj (Prod.mk.inj heq).2
    exact irrefl_of s.before _ (hkey ▸ hlt)
  rw [placed, List.map_append, List.map_map, List.map_map, List.nodup_append]
  refine ⟨hside .buy, hside .sell, fun k hk k' hk' heq => ?_⟩
  obtain ⟨e, -, rfl⟩ := List.mem_map.mp hk
  obtain ⟨e', -, rfl⟩ := List.mem_map.mp hk'
  cases heq

/-- The orders of all levels, where `content` are the orders of one. -/
def assembled (m : BookLevels ν) (content : (Side × Price) × ν → List Resting) : List Resting :=
  m.placed.flatMap content

/-- The content of a level rests there. -/
def Places (m : BookLevels ν) (content : (Side × Price) × ν → List Resting) : Prop :=
  ∀ e ∈ m.placed, ∀ o ∈ content e, (o.side, o.price) = e.1

variable {content : (Side × Price) × ν → List Resting}

/-- The orders of all levels. -/
theorem mem_assembled {o : Resting} :
    o ∈ m.assembled content ↔ ∃ e ∈ m.placed, o ∈ content e := List.mem_flatMap

/-- The queue of a price is the content of its level. -/
theorem filter_assembled (h : m.Places content) (s : Side) (p : Price) :
    (m.assembled content).filter (fun o => o.toLiveOrder.restsAt s p) =
      (m.find s p).elim [] fun v => content ((s, p), v) := by
  have hrests : (fun o : Resting => o.toLiveOrder.restsAt s p) =
      fun o : Resting => decide ((o.side, o.price) = (s, p)) := by
    funext o
    simp [LiveOrder.restsAt]
  rw [hrests, assembled]
  cases hfind : m.find s p with
  | none =>
      refine filter_flatMap_of_not_mem h fun hmem => ?_
      obtain ⟨⟨k, v⟩, he, rfl⟩ := List.mem_map.mp hmem
      rw [mem_placed.mp he] at hfind
      cases hfind
  | some v => exact filter_flatMap_of_mem m.placed_nodup h (mem_placed.mpr hfind)

end BookLevels

/-! ### The linked-list book -/

namespace LimitOrderBook

variable {b : LimitOrderBook}

/-- A queue node as a resting order of its level. -/
def restingOf (s : Side) (p : Price) (node : QueueNode) : Resting :=
  ⟨⟨node.entry.orderId, s, p, node.entry.timestamp, node.entry.quantity⟩, node.address⟩

/-- The orders in the queue of a level. -/
def ordersOf (e : (Side × Price) × PriceLevel) : List Resting :=
  e.2.orders.map (restingOf e.1.1 e.1.2)

/-- The orders in the queues of a book. -/
def listedOrders (b : LimitOrderBook) : List Resting := b.toBookLevels.assembled ordersOf

/-- No two nodes share an address, and the next node will get another one. This holds whatever
the contents of a book are: nodes are objects in memory. -/
structure AddressesValid (b : LimitOrderBook) : Prop where
  nodup : (b.listedOrders.map fun o => o.handle).Nodup
  fresh : ∀ o ∈ b.listedOrders, o.handle < b.nextNode

/-- The checks of a queue node against the lookup. -/
structure Recorded (b : LimitOrderBook) (s : Side) (p : Price) (node : QueueNode) : Prop where
  positive : node.entry.quantity.units ≠ 0
  record : b.orderLookup.lookup node.entry.orderId.value = some (recordOf (restingOf s p node))

/-- The id of a node. -/
def idOf (node : QueueNode) : UInt64 := node.entry.orderId.value

/-- **The queue loop** accepts recorded nodes with new ids and nothing else. -/
theorem validateOrders_sound {s : Side} {p : Price} {nodes : List QueueNode} {total total' : UInt64}
    {seen seen' : Finset UInt64}
    (h : b.validateOrders s p.ticks nodes total seen = some (total', seen')) :
    (∀ node ∈ nodes, b.Recorded s p node) ∧ (nodes.map idOf).Nodup ∧
      total' = total + (totalQuantity (nodes.map fun n => (restingOf s p n).toLiveOrder)).units ∧
      seen' = seen ∪ (nodes.map idOf).toFinset ∧ ∀ node ∈ nodes, idOf node ∉ seen := by
  induction nodes generalizing total seen with
  | nil =>
      obtain ⟨rfl, rfl⟩ := Prod.mk.inj (Option.some.inj h)
      simp [totalQuantity, totalUnits]
  | cons node nodes ih =>
      rw [validateOrders] at h
      rw [Option.ite_none_left_eq_some, Option.ite_none_left_eq_some] at h
      obtain ⟨hpositive, hnew, h⟩ := h
      cases hlookup : b.orderLookup.lookup node.entry.orderId.value with
      | none =>
          rw [hlookup] at h
          cases h
      | some record =>
          rw [hlookup] at h
          dsimp only at h
          rw [Option.ite_none_left_eq_some, Option.ite_none_left_eq_some,
            Option.ite_none_left_eq_some, Option.ite_none_left_eq_some,
            Option.ite_none_left_eq_some] at h
          obtain ⟨hside, hprice, hunits, htime, hiterator, h⟩ := h
          simp only [not_not] at hside hprice hunits htime hiterator
          have hlevel : record.price = p := by
            by_contra hne
            exact BookLevels.ticks_ne hne hprice
          have hrecord : b.Recorded s p node := by
            refine ⟨hpositive, hlookup.trans ?_⟩
            rw [recordOf, restingOf, ← hside, ← hlevel, ← hunits, ← htime, ← hiterator]
          obtain ⟨hrecorded, hnd, rfl, rfl, hfresh⟩ := ih h
          refine ⟨List.forall_mem_cons.mpr ⟨hrecord, hrecorded⟩, ?_, ?_, ?_, ?_⟩
          · rw [List.map_cons, List.nodup_cons]
            refine ⟨fun hmem => ?_, hnd⟩
            obtain ⟨node', hnode', hid⟩ := List.mem_map.mp hmem
            exact hfresh node' hnode' (Finset.mem_insert.mpr (.inl hid))
          · simp [totalQuantity, totalUnits, UInt64.add_assoc, restingOf]
          · ext x
            simp [idOf]
          · refine List.forall_mem_cons.mpr ⟨hnew, fun node' hnode' hmem => ?_⟩
            exact hfresh node' hnode' (Finset.mem_insert_of_mem hmem)

/-- What a level has passed. -/
structure PassedLevel (b : LimitOrderBook) (s : Side) (p : Price) (level : PriceLevel) : Prop where
  nonempty : level.orders ≠ []
  recorded : ∀ node ∈ level.orders, b.Recorded s p node
  nodup : (level.orders.map idOf).Nodup
  total : level.totalQuantity =
    totalQuantity (level.orders.map fun node => (restingOf s p node).toLiveOrder)

/-- A level that passes holds what its check demands, and its ids are seen. -/
theorem validateLevel_sound {s : Side} {p : Price} {level : PriceLevel} {seen seen' : Finset UInt64}
    (h : b.validateLevel s p.ticks level seen = some seen') :
    b.PassedLevel s p level ∧ seen' = seen ∪ (level.orders.map idOf).toFinset := by
  rw [validateLevel, Option.ite_none_left_eq_some] at h
  obtain ⟨hne, h⟩ := h
  obtain ⟨⟨total, seen₁⟩, horders, h⟩ := Option.bind_eq_some_iff.mp h
  obtain ⟨htotal, heq⟩ := Option.ite_none_right_eq_some.mp h
  obtain ⟨hrecorded, hnd, rfl, rfl, -⟩ := validateOrders_sound horders
  obtain rfl := Option.some.inj heq
  refine ⟨⟨hne, hrecorded, hnd, ?_⟩, rfl⟩
  dsimp only at htotal
  rw [UInt64.zero_add] at htotal
  exact congrArg Quantity.mk htotal.symm

/-- All levels that a loop passes do, and what it has seen comes from them. -/
theorem validateSide_sound {s : Side} {es : List (Int64 × PriceLevel)} {seen seen' : Finset UInt64}
    (h : BookLevels.validateSide (b.validateLevel s) es seen = some seen') :
    (∀ e ∈ es, b.PassedLevel s ⟨e.1⟩ e.2) ∧
      ∀ x ∈ seen', x ∈ seen ∨ ∃ e ∈ es, ∃ node ∈ e.2.orders, idOf node = x := by
  induction es generalizing seen with
  | nil =>
      obtain rfl := Option.some.inj h
      exact ⟨by simp, fun x hx => .inl hx⟩
  | cons e es ih =>
      obtain ⟨seen₁, hcheck, hrest⟩ := Option.bind_eq_some_iff.mp h
      obtain ⟨hlevel, rfl⟩ := validateLevel_sound (p := ⟨e.1⟩) hcheck
      obtain ⟨hlevels, hseen⟩ := ih hrest
      refine ⟨List.forall_mem_cons.mpr ⟨hlevel, hlevels⟩, fun x hx => ?_⟩
      rcases hseen x hx with hx | ⟨e', he', hlater⟩
      · rcases Finset.mem_union.mp hx with hx | hx
        · exact .inl hx
        · obtain ⟨node, hnode, hid⟩ := List.mem_map.mp (List.mem_toFinset.mp hx)
          exact .inr ⟨e, List.mem_cons_self, node, hnode, hid⟩
      · exact .inr ⟨e', List.mem_cons_of_mem _ he', hlater⟩

/-- The levels that the check accepts, and the records that it has seen. -/
theorem validateInvariants_sound {options : InvariantOptions}
    (h : b.validateInvariants options = true) :
    (∀ s p level, b.findLevel s p = some level → b.PassedLevel s p level) ∧
      ∀ x record, b.orderLookup.lookup x = some record →
        ∃ s p level, b.findLevel s p = some level ∧ ∃ node ∈ level.orders, idOf node = x := by
  rw [validateInvariants_eq, Bool.and_eq_true, Option.any_eq_true] at h
  obtain ⟨-, seen, hlevels, h⟩ := h
  rw [Bool.and_eq_true, validateLookup] at h
  have hlookup := of_decide_eq_true h.2
  obtain ⟨bidsSeen, hbids, hasks⟩ := Option.bind_eq_some_iff.mp hlevels
  obtain ⟨hbidLevels, hbidsSeen⟩ := validateSide_sound hbids
  obtain ⟨haskLevels, hasksSeen⟩ := validateSide_sound hasks
  constructor
  · rintro (_ | _) p level hfind
    · exact hbidLevels (p.ticks, level) (BookLevels.mem_entries.mpr hfind)
    · exact haskLevels (p.ticks, level) (BookLevels.mem_entries.mpr hfind)
  · intro x record hrecord
    have hseen := (hlookup ⟨x, record⟩ (Finmap.mem_lookup_iff.mp hrecord)).1
    rcases hasksSeen x hseen with hx | ⟨e, he, hnode⟩
    · rcases hbidsSeen x hx with hx | ⟨e, he, hnode⟩
      · exact absurd hx (Finset.notMem_empty x)
      · exact ⟨.buy, ⟨e.1⟩, e.2, BookLevels.mem_entries.mp he, hnode⟩
    · exact ⟨.sell, ⟨e.1⟩, e.2, BookLevels.mem_entries.mp he, hnode⟩

/-- The orders of a state that passes. -/
theorem recorded_listedOrders
    (h : ∀ s p level, b.findLevel s p = some level → b.PassedLevel s p level) {o : Resting}
    (ho : o ∈ b.listedOrders) :
    o.quantity.units ≠ 0 ∧ b.orderLookup.lookup o.orderId.value = some (recordOf o) := by
  obtain ⟨⟨⟨s, p⟩, level⟩, he, ho⟩ := BookLevels.mem_assembled.mp ho
  obtain ⟨node, hnode, rfl⟩ := List.mem_map.mp ho
  obtain ⟨hpositive, hrecord⟩ := (h s p level (BookLevels.mem_placed.mp he)).recorded node hnode
  exact ⟨hpositive, hrecord⟩

/-- The orders of a level are at its side and price. -/
theorem places_ordersOf (b : LimitOrderBook) : b.toBookLevels.Places ordersOf := by
  rintro ⟨⟨s, p⟩, level⟩ - o ho
  obtain ⟨node, -, rfl⟩ := List.mem_map.mp ho
  rfl

/-- **A state that passes represents the orders in its queues.** -/
theorem exists_represents (haddresses : b.AddressesValid) {options : InvariantOptions}
    (h : b.validateInvariants options = true) : ∃ A, Represents b A := by
  obtain ⟨hlevels, hrecords⟩ := validateInvariants_sound h
  have hrecorded := fun {o} => recorded_listedOrders (o := o) hlevels
  have hgroup : ∀ e ∈ b.toBookLevels.placed, ((ordersOf e).map fun o => o.orderId).Nodup := by
    rintro ⟨⟨s, p⟩, level⟩ he
    have hnd := (hlevels s p level (BookLevels.mem_placed.mp he)).nodup
    rw [ordersOf, List.map_map]
    refine List.Nodup.of_map OrderId.value ?_
    rw [List.map_map]
    exact hnd
  have hapart : ∀ a ∈ b.listedOrders, ∀ o ∈ b.listedOrders, a.orderId = o.orderId →
      (a.side, a.price) = (o.side, o.price) := by
    intro a ha o ho hid
    have hsame := (hrecorded ha).2
    rw [hid, (hrecorded ho).2] at hsame
    obtain ⟨hside, hprice, -⟩ := OrderRecord.mk.inj (Option.some.inj hsame)
    rw [hside, hprice]
  let A : RestingOrders :=
    { orders := b.listedOrders
      idsNodup := nodup_map_flatMap b.toBookLevels.placed_nodup b.places_ordersOf hgroup hapart
      handlesNodup := haddresses.nodup
      positive := fun o ho => (hrecorded ho).1 }
  refine ⟨A, haddresses.fresh, fun s p => ?_, fun id => ?_⟩
  · have hqueue : A.queue s p = (b.findLevel s p).elim [] fun level => ordersOf ((s, p), level) :=
      BookLevels.filter_assembled b.places_ordersOf s p
    rw [hqueue]
    cases hfind : b.findLevel s p with
    | none => rfl
    | some level =>
        have hpassed := hlevels s p level hfind
        have hnodes : (ordersOf ((s, p), level)).map nodeOf = level.orders := by
          rw [ordersOf, List.map_map]
          exact List.map_id _
        have htotal : totalQuantity ((ordersOf ((s, p), level)).map Resting.toLiveOrder) =
            level.totalQuantity := by
          rw [hpassed.total, ordersOf, List.map_map]
          rfl
        have hne : ordersOf ((s, p), level) ≠ [] := by simpa [ordersOf] using hpassed.nonempty
        rw [Option.elim_some, levelOf, if_neg hne, hnodes, htotal]
  · cases hfind : A.find id with
    | some o =>
        obtain ⟨hmem, rfl⟩ := RestingOrders.find_eq_some_iff.mp hfind
        exact (hrecorded hmem).2
    | none =>
        refine Option.eq_none_iff_forall_ne_some.mpr fun record hrecord => ?_
        obtain ⟨s, p, level, hlevel, node, hnode, hid⟩ := hrecords id.value record hrecord
        refine RestingOrders.find_eq_none_iff.mp hfind ?_
        have hmem : restingOf s p node ∈ A.orders := BookLevels.mem_assembled.mpr
          ⟨((s, p), level), BookLevels.mem_placed.mpr hlevel, List.mem_map_of_mem hnode⟩
        rw [RestingOrders.live, List.map_map]
        exact List.mem_map.mpr ⟨_, hmem, congrArg OrderId.mk hid⟩

/-- **The check accepts exactly the states that represent a live list.** On any state of the
linked-list book, reachable or not, the check succeeds if and only if the state represents some
live list, and the book is not crossed or crossed books are allowed. -/
theorem validateInvariants_iff_represents (b : LimitOrderBook) (haddresses : b.AddressesValid)
    (options : InvariantOptions) :
    b.validateInvariants options = true ↔
      (∃ A, Represents b A) ∧
        (options.allowCrossedBook = true ∨ b.topOfBook.Uncrossed) := by
  constructor
  · intro h
    obtain ⟨A, hrep⟩ := exists_represents haddresses h
    exact ⟨⟨A, hrep⟩, (hrep.validateInvariants_iff options).mp h⟩
  · rintro ⟨⟨A, hrep⟩, hcrossed⟩
    exact (hrep.validateInvariants_iff options).mpr hcrossed

/-- One order of five units, in a level whose total says four. -/
def shortTotal : LimitOrderBook :=
  let b := (empty.addOrder ⟨1⟩ .buy ⟨100⟩ ⟨5⟩ ⟨0⟩).2
  { b with
    toBookLevels := b.toBookLevels.modify .buy ⟨100⟩ fun level =>
      { level with totalQuantity := ⟨4⟩ } }

/-- A level whose total is too small stands for no list of live orders. -/
theorem validateInvariants_iff_represents_shortTotal : ¬∃ A, Represents shortTotal A := by
  intro hrep
  have hvalid := (validateInvariants_iff_represents shortTotal ⟨by decide, by decide⟩ ⟨true⟩).mpr
    ⟨hrep, .inl rfl⟩
  exact absurd hvalid (by decide)

end LimitOrderBook

/-! ### The pooled book -/

namespace PooledLimitOrderBook

variable {b : PooledLimitOrderBook}

/-- A node as a resting order of its level. -/
def restingAt (b : PooledLimitOrderBook) (s : Side) (p : Price) (i : ℕ) : Resting :=
  ⟨⟨(nodeAt b.nodes i).orderId, s, p, (nodeAt b.nodes i).timestamp, (nodeAt b.nodes i).quantity⟩,
    i⟩

/-- **What the check does not look at.** The free list holds every node that no record names,
each once, and free nodes are reset. -/
structure FreeListOk (b : PooledLimitOrderBook) : Prop where
  nodup : b.freeIndices.Nodup
  mem_iff : ∀ i, i ∈ b.freeIndices ↔ i < b.nodes.length ∧
    ∀ id record, b.orderLookup.lookup id = some record → record.nodeIndex ≠ i
  reset : ∀ i ∈ b.freeIndices, nodeAt b.nodes i = {}

section Chained

variable {chainOf : Side → Price → PriceLevel → List ℕ}

/-- The orders in the chain of a level. -/
def chainOrders (b : PooledLimitOrderBook) (chainOf : Side → Price → PriceLevel → List ℕ)
    (e : (Side × Price) × PriceLevel) : List Resting :=
  (chainOf e.1.1 e.1.2 e.2).map (b.restingAt e.1.1 e.1.2)

/-- Every level has the chain that is chosen for it. -/
def Chained (b : PooledLimitOrderBook) (chainOf : Side → Price → PriceLevel → List ℕ) : Prop :=
  ∀ s p level, b.findLevel s p = some level → b.LevelChain s p level (chainOf s p level)

/-- So are those of a chain. -/
theorem places_chainOrders (b : PooledLimitOrderBook)
    (chainOf : Side → Price → PriceLevel → List ℕ) :
    b.toBookLevels.Places (b.chainOrders chainOf) := by
  rintro ⟨⟨s, p⟩, level⟩ - o ho
  obtain ⟨i, -, rfl⟩ := List.mem_map.mp ho
  rfl

/-- The nodes of a chain, in its order. -/
theorem handles_chainOrders (e : (Side × Price) × PriceLevel) :
    handles (b.chainOrders chainOf e) = chainOf e.1.1 e.1.2 e.2 := by
  rw [handles, chainOrders, List.map_map]
  exact List.map_id _

namespace Chained

variable (h : b.Chained chainOf)
include h

/-- An assembled order is the one in its node. -/
theorem recorded {o : Resting} (ho : o ∈ b.toBookLevels.assembled (b.chainOrders chainOf)) :
    b.Recorded o.side o.price o.handle ∧ b.restingAt o.side o.price o.handle = o := by
  obtain ⟨⟨⟨s, p⟩, level⟩, he, ho⟩ := BookLevels.mem_assembled.mp ho
  obtain ⟨i, hi, rfl⟩ := List.mem_map.mp ho
  exact ⟨(h s p level (BookLevels.mem_placed.mp he)).recorded i hi, rfl⟩

/-- Its record is the one in the lookup. -/
theorem lookup {o : Resting} (ho : o ∈ b.toBookLevels.assembled (b.chainOrders chainOf)) :
    b.orderLookup.lookup o.orderId.value = some (recordOf o) := by
  obtain ⟨hnode, hself⟩ := h.recorded ho
  rw [← hself]
  exact hnode.record

/-- Orders that share a node or an id rest at one level. -/
theorem apart {a o : Resting} (ha : a ∈ b.toBookLevels.assembled (b.chainOrders chainOf))
    (ho : o ∈ b.toBookLevels.assembled (b.chainOrders chainOf))
    (hsame : a.handle = o.handle ∨ a.orderId = o.orderId) :
    (a.side, a.price) = (o.side, o.price) := by
  obtain ⟨hnode, hself⟩ := h.recorded ha
  obtain ⟨hnode', hself'⟩ := h.recorded ho
  have hid : a.handle = o.handle ∨ b.idAt a.handle = b.idAt o.handle := by
    refine hsame.imp_right fun hid => ?_
    rw [← hself, ← hself'] at hid
    exact congrArg OrderId.value hid
  obtain ⟨hside, hprice, -⟩ := hnode.unique hnode' hid
  rw [hside, hprice]

/-- No node stands in a chain twice. -/
theorem handlesNodup : ∀ e ∈ b.toBookLevels.placed,
    ((b.chainOrders chainOf e).map fun o => o.handle).Nodup := by
  rintro ⟨⟨s, p⟩, level⟩ he
  have hhandles : handles (b.chainOrders chainOf ((s, p), level)) = chainOf s p level :=
    handles_chainOrders ((s, p), level)
  rw [handles] at hhandles
  rw [hhandles]
  exact (h s p level (BookLevels.mem_placed.mp he)).nodup

/-- No id stands in a chain twice. -/
theorem idsNodup : ∀ e ∈ b.toBookLevels.placed,
    ((b.chainOrders chainOf e).map fun o => o.orderId).Nodup := by
  rintro ⟨⟨s, p⟩, level⟩ he
  have hlevel := h s p level (BookLevels.mem_placed.mp he)
  rw [chainOrders, List.map_map]
  refine List.Nodup.map_on (fun i hi j hj hid => ?_) hlevel.nodup
  exact ((hlevel.recorded i hi).unique (hlevel.recorded j hj)
    (.inr (congrArg OrderId.value hid))).2.2

omit h in
/-- The live list in the chains. -/
def orders (h : b.Chained chainOf) : RestingOrders where
  orders := b.toBookLevels.assembled (b.chainOrders chainOf)
  idsNodup := nodup_map_flatMap b.toBookLevels.placed_nodup (places_chainOrders b chainOf)
    h.idsNodup fun _ ha _ ho heq => h.apart ha ho (.inr heq)
  handlesNodup := nodup_map_flatMap b.toBookLevels.placed_nodup (places_chainOrders b chainOf)
    h.handlesNodup fun _ ha _ ho heq => h.apart ha ho (.inl heq)
  positive o ho := by
    obtain ⟨hnode, hself⟩ := h.recorded ho
    rw [← hself]
    exact hnode.positive

/-- The queue at a place is the chain of its level. -/
theorem queue_orders (s : Side) (p : Price) :
    h.orders.queue s p =
      (b.findLevel s p).elim [] fun level => b.chainOrders chainOf ((s, p), level) :=
  BookLevels.filter_assembled (places_chainOrders b chainOf) s p

/-- A node is in a chain exactly if a record names it. -/
theorem mem_handles_iff (hwell : b.WellFormed) (hsize : b.nodes.length ≤ npos) {i : ℕ} :
    i ∈ handles h.orders.orders ↔
      ∃ id record, b.orderLookup.lookup id = some record ∧ record.nodeIndex = i := by
  constructor
  · intro hi
    obtain ⟨o, ho, rfl⟩ := List.mem_map.mp hi
    exact ⟨_, _, h.lookup ho, rfl⟩
  · rintro ⟨id, record, hrecord, rfl⟩
    obtain ⟨level, indices, hlevel, hindices, hmem, -⟩ := hwell.records id record hrecord
    rw [hindices.unique hsize (h _ _ level hlevel)] at hmem
    refine List.mem_map.mpr ⟨b.restingAt record.side record.price record.nodeIndex, ?_, rfl⟩
    exact BookLevels.mem_assembled.mpr ⟨((record.side, record.price), level),
      BookLevels.mem_placed.mpr hlevel, List.mem_map_of_mem hmem⟩

/-- With a complete free list the indices are used once. -/
theorem indices_perm (hwell : b.WellFormed) (hsize : b.nodes.length ≤ npos)
    (hfree : b.FreeListOk) :
    (b.freeIndices ++ handles h.orders.orders).Perm (List.range b.nodes.length) := by
  have hdisjoint : ∀ i ∈ b.freeIndices, ∀ j ∈ handles h.orders.orders, i ≠ j := by
    rintro i hi j hj rfl
    obtain ⟨id, record, hrecord, heq⟩ := (h.mem_handles_iff hwell hsize).mp hj
    exact ((hfree.mem_iff i).mp hi).2 id record hrecord heq
  have hnodup : (b.freeIndices ++ handles h.orders.orders).Nodup :=
    List.nodup_append.mpr ⟨hfree.nodup, h.orders.handlesNodup, hdisjoint⟩
  refine (List.perm_ext_iff_of_nodup hnodup List.nodup_range).mpr fun i => ?_
  rw [List.mem_append, List.mem_range, hfree.mem_iff]
  constructor
  · rintro (⟨hlt, -⟩ | hnode)
    · exact hlt
    · obtain ⟨o, ho, rfl⟩ := List.mem_map.mp hnode
      exact (h.recorded ho).1.inRange
  · intro hlt
    by_cases hnode : ∃ id record, b.orderLookup.lookup id = some record ∧ record.nodeIndex = i
    · exact .inr ((h.mem_handles_iff hwell hsize).mpr hnode)
    · exact .inl ⟨hlt, fun id record hrecord heq => hnode ⟨id, record, hrecord, heq⟩⟩

/-- A level is that of its chain. -/
theorem level_eq {s : Side} {p : Price} {level : PriceLevel}
    (hfind : b.findLevel s p = some level) :
    levelOf (b.chainOrders chainOf ((s, p), level)) = some level := by
  have hlevel := h s p level hfind
  have hsum : totalUnits ((b.chainOrders chainOf ((s, p), level)).map Resting.toLiveOrder) =
      b.unitsIn (chainOf s p level) := by
    rw [totalUnits, unitsIn, chainOrders, List.map_map, List.map_map]
    rfl
  have hunits : UInt64.ofNat (b.unitsIn (chainOf s p level)) = level.totalQuantity.units := by
    refine UInt64.toNat_inj.mp ?_
    rw [hlevel.total, UInt64.toNat_ofNat']
  have hlength : (b.chainOrders chainOf ((s, p), level)).length = level.orderCount := by
    rw [chainOrders, List.length_map]
    exact hlevel.count
  have hne : b.chainOrders chainOf ((s, p), level) ≠ [] := by
    have := hlevel.nonempty
    exact List.ne_nil_of_length_pos (by omega)
  rw [levelOf, if_neg hne, totalQuantity, hsum, hunits, hlength, handles_chainOrders,
    List.headD_eq_head?_getD, hlevel.head, List.getLastD_eq_getLast?, hlevel.tail]
  rfl

/-- **A well-formed state with a complete free list represents the orders of its chains.** -/
theorem represents (hwell : b.WellFormed) (hsize : b.nodes.length ≤ npos)
    (hfree : b.FreeListOk) : Represents b h.orders where
  bounded := hsize
  indices := h.indices_perm hwell hsize hfree
  free := hfree.reset
  level s p := by
    rw [h.queue_orders]
    cases hfind : b.findLevel s p with
    | none => rfl
    | some level => exact (h.level_eq hfind).symm
  lookup id := by
    cases hfind : h.orders.find id with
    | some o =>
        obtain ⟨hmem, rfl⟩ := RestingOrders.find_eq_some_iff.mp hfind
        exact h.lookup hmem
    | none =>
        refine Option.eq_none_iff_forall_ne_some.mpr fun record hrecord => ?_
        have hnode := (h.mem_handles_iff hwell hsize).mpr ⟨id.value, record, hrecord, rfl⟩
        obtain ⟨o, ho, hhandle⟩ := List.mem_map.mp hnode
        obtain ⟨-, -, -, -, -, hid⟩ := hwell.records id.value record hrecord
        obtain ⟨-, hself⟩ := h.recorded ho
        refine RestingOrders.find_eq_none_iff.mp hfind ?_
        rw [RestingOrders.live, List.map_map]
        refine List.mem_map.mpr ⟨o, ho, congrArg OrderId.mk ?_⟩
        rw [← hid, ← hhandle, ← hself]
        rfl
  holds o ho := by
    obtain ⟨hnode, hself⟩ := h.recorded ho
    rw [← hself]
    exact ⟨rfl, rfl, rfl, hnode.active⟩
  linked s p := by
    rw [h.queue_orders]
    cases hfind : b.findLevel s p with
    | none => trivial
    | some level =>
        rw [Option.elim_some, handles_chainOrders]
        exact (h s p level hfind).links

end Chained

end Chained

/-- The free list of a represented pool is complete. -/
theorem Represents.freeListOk {A : RestingOrders} (h : Represents b A) : b.FreeListOk := by
  have hnodup := List.nodup_append.mp h.indicesNodup
  refine ⟨hnodup.1, fun i => ?_, h.free⟩
  rw [← h.mem_indices_iff]
  constructor
  · intro hi
    refine ⟨.inl hi, fun id record hrecord heq => h.free_disjoint hi ?_⟩
    rw [h.lookup ⟨id⟩, Option.map_eq_some_iff] at hrecord
    obtain ⟨o, ho, rfl⟩ := hrecord
    rw [← heq]
    exact List.mem_map_of_mem (RestingOrders.find_eq_some_iff.mp ho).1
  · rintro ⟨hi | hi, hnone⟩
    · exact hi
    · obtain ⟨o, ho, rfl⟩ := List.mem_map.mp hi
      have hrecord := h.lookup o.orderId
      rw [RestingOrders.find_eq_some_iff.mpr ⟨ho, rfl⟩] at hrecord
      exact absurd rfl (hnone _ _ hrecord)

/-- **What the check leaves open is the free list.** On any state of the pooled book, reachable
or not, in an array not larger than `npos`: the state represents some live list if and only if
the check with crossed books allowed succeeds and the free list is complete. -/
theorem represents_iff_validateInvariants (b : PooledLimitOrderBook)
    (hsize : b.nodes.length ≤ npos) :
    (∃ A, Represents b A) ↔ b.validateInvariants ⟨true⟩ = true ∧ b.FreeListOk := by
  constructor
  · rintro ⟨A, hrep⟩
    exact ⟨(hrep.validateInvariants_iff ⟨true⟩).mpr (.inl rfl), hrep.freeListOk⟩
  · rintro ⟨hvalid, hfree⟩
    have hwell := (validateInvariants_iff hsize).mp hvalid
    choose! chainOf hchain using hwell.chains
    have hchained : b.Chained chainOf := hchain
    exact ⟨hchained.orders, hchained.represents hwell hsize hfree⟩

/-- An empty pool of two nodes that has lost one of them. -/
def lostNode : PooledLimitOrderBook := { new 2 with freeIndices := [0] }

/-- A node in neither the free list nor a level passes the check, and no list of live orders is
represented. -/
theorem represents_iff_validateInvariants_lostNode :
    lostNode.validateInvariants ⟨true⟩ = true ∧ ¬∃ A, Represents lostNode A := by
  refine ⟨by decide, fun hrep => ?_⟩
  have hfree := ((represents_iff_validateInvariants lostNode (by decide)).mp hrep).2
  have hmem : 1 ∈ lostNode.freeIndices := (hfree.mem_iff 1).mpr ⟨by decide, by
    intro id record hrecord
    cases hrecord⟩
  exact absurd hmem (by decide)

end PooledLimitOrderBook

end Datagine
