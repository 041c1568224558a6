import Datagine.PooledRuns
import Datagine.Rulings

/-!
# The Ledger of an Order

A book keeps the quantity of an order twice, in the lookup record and in the queue entry, and
lowers both on separate paths in modify and in execute. Over a lifetime nothing is lost or made
up: what was added is what still rests plus what was executed plus what modifies took away.

The argument is the same for both books and needs little of either: an event is rejected
without a trace or changes the recorded quantities as the rules dictate (`Follows`). From this,
what one event can do to a live order (`Follows.effect`), and by induction along the
lifetime the balance (`balance_of_live`).

## Main results

* `quantity_conserved`: both books conserve quantity along every lifetime of every run.
-/

namespace Datagine

open KeyedList Mealy

/-! ### The account of a lifetime -/

section Ledger

variable {β : Type} (apply : β → MarketEvent → BookResult × β)
  (recorded queued : β → OrderId → Option Quantity)

/-- A quantity as an unbounded number. -/
def unitsOf (q : Quantity) : ℤ := q.units.toNat

/-- The order of quantities, on unbounded numbers. -/
theorem unitsOf_le {q q' : Quantity} (h : q.units ≤ q'.units) : unitsOf q ≤ unitsOf q' := by
  rw [UInt64.le_iff_toNat_le] at h
  simp only [unitsOf]
  omega

/-- A quantity that is not zero is at least one. -/
theorem one_le_unitsOf {q : Quantity} (h : q.units ≠ 0) : 1 ≤ unitsOf q := by
  rw [ne_eq, ← UInt64.toNat_inj, UInt64.toNat_zero] at h
  rw [unitsOf]
  omega

/-- Taking away less than there is does not wrap. -/
theorem unitsOf_sub {q q' : Quantity} (h : q'.units < q.units) :
    unitsOf ⟨q.units - q'.units⟩ = unitsOf q - unitsOf q' ∧ unitsOf q' < unitsOf q := by
  simp only [unitsOf]
  rw [UInt64.toNat_sub_of_le _ _ (UInt64.le_of_lt h)]
  rw [UInt64.lt_iff_toNat_lt] at h
  omega

/-- An accepted event of the given type on the order `id`. -/
def Accepts (type : EventType) (id : OrderId) (b : β) (event : MarketEvent) : Prop :=
  event.type = type ∧ event.orderId = id ∧ (apply b event).1 = .applied

instance (type : EventType) (id : OrderId) (b : β) :
    DecidablePred (Accepts apply type id b) := fun event => inferInstanceAs
  (Decidable (event.type = type ∧ event.orderId = id ∧ (apply b event).1 = .applied))

/-- What an event executes of the order `id`. -/
def executedBy (id : OrderId) (b : β) (event : MarketEvent) : ℤ :=
  if Accepts apply .execute id b event then unitsOf event.quantity else 0

/-- By how much an event, as a modify, lowers the order `id`. -/
def reducedBy (id : OrderId) (b : β) (event : MarketEvent) : ℤ :=
  if Accepts apply .modify id b event then
    ((recorded b id).map unitsOf).getD 0 - unitsOf event.quantity
  else 0

/-- The sum of an amount over the events of a run. -/
def sumOver (amount : β → MarketEvent → ℤ) : β → List MarketEvent → ℤ
  | _, [] => 0
  | b, event :: events => amount b event + sumOver amount (apply b event).2 events

/-- The executions of the order `id` along a run. -/
def executedIn (id : OrderId) : β → List MarketEvent → ℤ := sumOver apply (executedBy apply id)

/-- The reductions of the order `id` by modifies along a run. -/
def reducedIn (id : OrderId) : β → List MarketEvent → ℤ :=
  sumOver apply (reducedBy apply recorded id)

/-- The order `id` is live in every state along a run. -/
def LiveThroughout (id : OrderId) (b : β) (events : List MarketEvent) : Prop :=
  ∀ pre, pre <+: events → (recorded (finalState apply b pre) id).isSome

/-- The account of the order `id` after the events since it was accepted in the state `b` with
the quantity `added`. -/
structure Balanced (id : OrderId) (added : ℤ) (b : β) (events : List MarketEvent) : Prop where
  /-- What rests, in the record and in the queue, is what is left, and not nothing. -/
  rests : ∃ q, recorded (finalState apply b events) id = some q ∧
    queued (finalState apply b events) id = some q ∧
    unitsOf q = added - executedIn apply id b events - reducedIn apply recorded id b events ∧
    1 ≤ unitsOf q
  /-- Only a cancel, or the execution of all that is left, takes the order out. -/
  leaves : ∀ event, recorded (apply (finalState apply b events) event).2 id = none →
    Accepts apply .cancel id (finalState apply b events) event ∨
      Accepts apply .execute id (finalState apply b events) event ∧
        executedIn apply id b (events ++ [event]) +
          reducedIn apply recorded id b (events ++ [event]) = added
  /-- No more is executed than was added, the next event included. -/
  bounded : executedIn apply id b events ≤ added ∧
    ∀ event, executedIn apply id b (events ++ [event]) ≤ added

/-- **Quantity is conserved** in the runs from `start`: whenever an add is accepted, the record
and the queue hold its quantity, and the account of the order is balanced for as long as it is
live. -/
def ConservesQuantity (start : β) : Prop :=
  ∀ (pre : List MarketEvent) (add : MarketEvent),
    add.type = .add → (apply (finalState apply start pre) add).1 = .applied →
    let b := (apply (finalState apply start pre) add).2
    (recorded b add.orderId = some add.quantity ∧ queued b add.orderId = some add.quantity) ∧
      ∀ events : List MarketEvent, LiveThroughout apply recorded add.orderId b events →
        Balanced apply recorded queued add.orderId (unitsOf add.quantity) b events

/-! ### One event -/

/-- An event is rejected without a trace, or accepted by the rules and recorded as they
dictate. -/
def Follows (b : β) (event : MarketEvent) : Prop :=
  ((apply b event).1 ≠ .applied ∧ (apply b event).2 = b) ∨
    ((apply b event).1 = .applied ∧
      (ruling event (recorded b event.orderId)).1 = .applied ∧
      ∀ id, recorded (apply b event).2 id =
        if id = event.orderId then
          (ruling event (recorded b event.orderId)).2.after (recorded b event.orderId)
        else recorded b id)

/-- The outcomes of an accepted event, by the quantity that rests under its id. -/
theorem ruling_applied {event : MarketEvent} {resting : Option Quantity}
    (h : (ruling event resting).1 = .applied) :
    (event.type = .add ∧ resting = none ∧ event.quantity.units ≠ 0 ∧
        (ruling event resting).2.after resting = some event.quantity) ∨
      ∃ q, resting = some q ∧
        ((event.type = .cancel ∧ (ruling event resting).2.after resting = none) ∨
          (event.type = .modify ∧ event.quantity.units ≠ 0 ∧
            event.quantity.units ≤ q.units ∧
            (ruling event resting).2.after resting = some event.quantity) ∨
          (event.type = .execute ∧ event.quantity = q ∧
            (ruling event resting).2.after resting = none) ∨
          (event.type = .execute ∧ event.quantity.units < q.units ∧
            (ruling event resting).2.after resting =
              some ⟨q.units - event.quantity.units⟩)) := by
  simp only [ruling] at h ⊢
  cases htype : event.type with
  | add =>
      rw [htype] at h
      dsimp only at h ⊢
      split_ifs at h ⊢ with hq
      cases resting with
      | none => exact .inl ⟨rfl, rfl, hq, rfl⟩
      | some q => cases h
  | cancel =>
      rw [htype] at h
      cases resting with
      | none => cases h
      | some q => exact .inr ⟨q, rfl, .inl ⟨rfl, rfl⟩⟩
  | modify =>
      rw [htype] at h
      dsimp only at h ⊢
      split_ifs at h ⊢ with hq
      cases resting with
      | none => cases h
      | some q =>
          dsimp only at h ⊢
          split_ifs at h ⊢ with hgt
          exact .inr ⟨q, rfl, .inr (.inl ⟨rfl, hq, UInt64.not_lt.mp hgt, rfl⟩)⟩
  | execute =>
      rw [htype] at h
      dsimp only at h ⊢
      split_ifs at h ⊢ with hq
      cases resting with
      | none => cases h
      | some q =>
          dsimp only at h ⊢
          split_ifs at h ⊢ with hgt heq
          · exact .inr ⟨q, rfl, .inr (.inr (.inl ⟨rfl, congrArg Quantity.mk heq, rfl⟩))⟩
          · have hlt := UInt64.lt_of_le_of_ne (UInt64.not_lt.mp hgt) heq
            exact .inr ⟨q, rfl, .inr (.inr (.inr ⟨rfl, hlt, rfl⟩))⟩

variable {apply recorded queued} {b : β} {event : MarketEvent} {id : OrderId}

/-- Only an accepted execute of the order executes something of it. -/
theorem executedBy_eq_zero (h : ¬Accepts apply .execute id b event) :
    executedBy apply id b event = 0 :=
  if_neg h

/-- Only an accepted modify of the order reduces it. -/
theorem reducedBy_eq_zero (h : ¬Accepts apply .modify id b event) :
    reducedBy apply recorded id b event = 0 :=
  if_neg h

/-- An event is accepted as what it is. -/
theorem not_accepts_of_type {type type' : EventType} (htype : event.type = type)
    (hne : type ≠ type') : ¬Accepts apply type' id b event := fun h => hne (htype.symm.trans h.1)

variable (apply recorded) in
/-- What an event can do to a live order of quantity `q`: lower it by what the event executes
or takes away, leaving something, or take it out by a cancel or by the execution of all that
is left. -/
structure Effect (id : OrderId) (q : Quantity) (b : β) (event : MarketEvent) : Prop where
  reduced_nonneg : 0 ≤ reducedBy apply recorded id b event
  executed_le : executedBy apply id b event ≤ unitsOf q
  outcome : (∃ q', recorded (apply b event).2 id = some q' ∧ 1 ≤ unitsOf q' ∧
      unitsOf q' =
        unitsOf q - executedBy apply id b event - reducedBy apply recorded id b event) ∨
    (recorded (apply b event).2 id = none ∧
      (Accepts apply .cancel id b event ∨
        Accepts apply .execute id b event ∧
          executedBy apply id b event + reducedBy apply recorded id b event = unitsOf q))

/-- An event without an entry in the account leaves the order as it is. -/
theorem effect_of_not_accepts {q : Quantity} (hpos : 1 ≤ unitsOf q)
    (hnot : ∀ type, ¬Accepts apply type id b event)
    (hsame : recorded (apply b event).2 id = some q) : Effect apply recorded id q b event := by
  have hexecuted := executedBy_eq_zero (hnot .execute)
  have hreduced : reducedBy apply recorded id b event = 0 := reducedBy_eq_zero (hnot .modify)
  exact ⟨by omega, by omega, .inl ⟨q, hsame, hpos, by omega⟩⟩

/-- What an event can do to a live order. -/
theorem Follows.effect (h : Follows apply recorded b event) {q : Quantity}
    (hq : recorded b id = some q) (hpos : 1 ≤ unitsOf q) :
    Effect apply recorded id q b event := by
  rcases h with ⟨hrejected, hstate⟩ | ⟨happlied, hruling, hrecorded⟩
  · refine effect_of_not_accepts hpos (fun _ haccepts => hrejected haccepts.2.2) ?_
    rwa [hstate]
  by_cases hid : id = event.orderId
  · subst hid
    have hnext := hrecorded event.orderId
    rw [if_pos rfl] at hnext
    rw [hq] at hruling hnext
    rcases ruling_applied hruling with ⟨-, hnone, -⟩ | ⟨q₀, hq₀, hcases⟩
    · cases hnone
    obtain rfl := Option.some.inj hq₀
    rcases hcases with ⟨htype, hafter⟩ | ⟨htype, hne, hle, hafter⟩ | ⟨htype, rfl, hafter⟩ |
      ⟨htype, hlt, hafter⟩
    · -- cancelled
      have hexecuted : executedBy apply event.orderId b event = 0 :=
        executedBy_eq_zero (not_accepts_of_type htype (by decide))
      have hreduced : reducedBy apply recorded event.orderId b event = 0 :=
        reducedBy_eq_zero (not_accepts_of_type htype (by decide))
      exact ⟨by omega, by omega, .inr ⟨hnext.trans hafter, .inl ⟨htype, rfl, happlied⟩⟩⟩
    · -- lowered to the new quantity
      have hexecuted : executedBy apply event.orderId b event = 0 :=
        executedBy_eq_zero (not_accepts_of_type htype (by decide))
      have hreduced : reducedBy apply recorded event.orderId b event =
          unitsOf q - unitsOf event.quantity := by
        rw [reducedBy, if_pos ⟨htype, rfl, happlied⟩, hq]
        rfl
      have hle' := unitsOf_le hle
      exact ⟨by omega, by omega,
        .inl ⟨event.quantity, hnext.trans hafter, one_le_unitsOf hne, by omega⟩⟩
    · -- executed in full
      have haccepts : Accepts apply .execute event.orderId b event := ⟨htype, rfl, happlied⟩
      have hexecuted : executedBy apply event.orderId b event = unitsOf event.quantity :=
        if_pos haccepts
      have hreduced : reducedBy apply recorded event.orderId b event = 0 :=
        reducedBy_eq_zero (not_accepts_of_type htype (by decide))
      exact ⟨by omega, by omega, .inr ⟨hnext.trans hafter, .inr ⟨haccepts, by omega⟩⟩⟩
    · -- executed in part
      have hexecuted : executedBy apply event.orderId b event = unitsOf event.quantity :=
        if_pos ⟨htype, rfl, happlied⟩
      have hreduced : reducedBy apply recorded event.orderId b event = 0 :=
        reducedBy_eq_zero (not_accepts_of_type htype (by decide))
      obtain ⟨hrest, hlt'⟩ := unitsOf_sub hlt
      exact ⟨by omega, by omega, .inl ⟨_, hnext.trans hafter, by omega, by omega⟩⟩
  · have hsame := hrecorded id
    rw [if_neg hid] at hsame
    exact effect_of_not_accepts hpos (fun _ haccepts => hid haccepts.2.1.symm) (hsame.trans hq)

/-! ### A lifetime -/

/-- One more event in a sum. -/
theorem sumOver_append_singleton (amount : β → MarketEvent → ℤ) (b : β)
    (events : List MarketEvent) (event : MarketEvent) :
    sumOver apply amount b (events ++ [event]) =
      sumOver apply amount b events + amount (finalState apply b events) event := by
  induction events generalizing b with
  | nil => simp [sumOver]
  | cons e events ih =>
      rw [List.cons_append, sumOver, sumOver, ih, finalState_cons, add_assoc]

variable {I : β → Prop}

/-- **The balance of a live order.** While it is live, an order holds what was added, less
what was executed and what modifies took away. -/
theorem balance_of_live (hinv : ∀ b event, I b → I (apply b event).2)
    (hfollows : ∀ b event, I b → Follows apply recorded b event) (hb : I b) {added : Quantity}
    (hadded : recorded b id = some added) (hpos : 1 ≤ unitsOf added)
    {events : List MarketEvent} (hlive : LiveThroughout apply recorded id b events) :
    ∃ q, recorded (finalState apply b events) id = some q ∧ 1 ≤ unitsOf q ∧
      unitsOf q =
        unitsOf added - executedIn apply id b events - reducedIn apply recorded id b events ∧
      0 ≤ reducedIn apply recorded id b events := by
  induction events using List.reverseRecOn with
  | nil =>
      have hzero : executedIn apply id b [] = 0 ∧ reducedIn apply recorded id b [] = 0 :=
        ⟨rfl, rfl⟩
      exact ⟨added, hadded, hpos, by omega, by omega⟩
  | append_singleton events event ih =>
      obtain ⟨q, hq, hqpos, hbalance, hreduced⟩ :=
        ih fun pre hpre => hlive pre (hpre.trans (List.prefix_append events [event]))
      have hI : I (finalState apply b events) := finalState_inv hinv hb events
      have hnext : (recorded (apply (finalState apply b events) event).2 id).isSome := by
        have h := hlive (events ++ [event]) List.prefix_rfl
        rwa [finalState_concat] at h
      obtain ⟨hred, -, hcases⟩ := (hfollows _ event hI).effect hq hqpos
      rw [executedIn, reducedIn, sumOver_append_singleton, sumOver_append_singleton,
        ← executedIn, ← reducedIn, finalState_concat]
      rcases hcases with ⟨q', hq', hpos', hunits⟩ | ⟨hnone, -⟩
      · exact ⟨q', hq', hpos', by omega, by omega⟩
      · rw [hnone] at hnext
        cases hnext

/-- A machine whose events follow the rules, and whose queues agree with its records, conserves
quantity. -/
theorem conservesQuantity_of_follows (hinv : ∀ b event, I b → I (apply b event).2)
    (hfollows : ∀ b event, I b → Follows apply recorded b event)
    (hqueued : ∀ b, I b → ∀ id, queued b id = recorded b id) {start : β} (hstart : I start) :
    ConservesQuantity apply recorded queued start := by
  intro pre add htype happlied
  have hI : I (finalState apply start pre) := finalState_inv hinv hstart pre
  -- the add is recorded under its id
  have hadded : recorded (apply (finalState apply start pre) add).2 add.orderId =
      some add.quantity ∧ 1 ≤ unitsOf add.quantity := by
    rcases hfollows _ add hI with ⟨hrejected, -⟩ | ⟨-, hruling, hrecorded⟩
    · exact absurd happlied hrejected
    rcases ruling_applied hruling with ⟨-, -, hne, hafter⟩ | ⟨q, -, hcases⟩
    · refine ⟨(hrecorded add.orderId).trans ((if_pos rfl).trans hafter), ?_⟩
      exact one_le_unitsOf hne
    · rw [htype] at hcases
      rcases hcases with ⟨h, -⟩ | ⟨h, -⟩ | ⟨h, -⟩ | ⟨h, -⟩ <;> cases h
  obtain ⟨hrecord, hpos⟩ := hadded
  have hI' := hinv _ add hI
  refine ⟨⟨hrecord, (hqueued _ hI' _).trans hrecord⟩, fun events hlive => ?_⟩
  obtain ⟨q, hq, hqpos, hbalance, hreduced⟩ :=
    balance_of_live hinv hfollows hI' hrecord hpos hlive
  have hend := finalState_inv hinv hI' events
  refine ⟨⟨q, hq, (hqueued _ hend _).trans hq, hbalance, hqpos⟩, fun event hnone => ?_, by omega,
    fun event => ?_⟩
  · obtain ⟨-, -, hcases⟩ := (hfollows _ event hend).effect hq hqpos
    rcases hcases with ⟨q', hq', -⟩ | ⟨-, hcancel | ⟨hexecute, hall⟩⟩
    · rw [hnone] at hq'
      cases hq'
    · exact .inl hcancel
    · refine .inr ⟨hexecute, ?_⟩
      rw [executedIn, reducedIn, sumOver_append_singleton, sumOver_append_singleton,
        ← executedIn, ← reducedIn]
      omega
  · obtain ⟨-, hle, -⟩ := (hfollows _ event hend).effect hq hqpos
    rw [executedIn, sumOver_append_singleton, ← executedIn]
    omega

end Ledger

/-! ### The books -/

/-- The quantity of an order in the live list. -/
theorem RestingOrders.quantityOf_live (A : RestingOrders) (id : OrderId) :
    quantityOf A.live id = (A.find id).map fun o => o.quantity := by
  rw [quantityOf, A.findKey_live, Option.map_map]
  rfl

/-- A rejected event changes nothing; an accepted one follows the rules on the live list. -/
theorem follows_of_refines {β : Type} {apply : β → MarketEvent → BookResult × β}
    {recorded : β → OrderId → Option Quantity} {b : β} {event : MarketEvent}
    {L L' : List LiveOrder} (hrejected : (apply b event).1 ≠ .applied → (apply b event).2 = b)
    (hbefore : ∀ id, recorded b id = quantityOf L id)
    (hafter : ∀ id, recorded (apply b event).2 id = quantityOf L' id)
    (happlied : (apply b event).1 = .applied → Reference.apply L event = (.applied, L')) :
    Follows apply recorded b event := by
  by_cases hres : (apply b event).1 = .applied
  · have hreference := happlied hres
    rw [Reference.apply_eq, Prod.mk.injEq, ← hbefore] at hreference
    refine .inr ⟨hres, hreference.1, fun id => ?_⟩
    rw [hafter, ← hreference.2, quantityOf_run, hbefore, hbefore]
  · exact .inl ⟨hres, hrejected hres⟩

namespace LimitOrderBook

/-- The quantity in the lookup record of an id. -/
def recordQuantity (b : LimitOrderBook) (id : OrderId) : Option Quantity :=
  (b.orderLookup.lookup id.value).map OrderRecord.quantity

/-- The quantity in the queue entry that the record of an id points to. -/
def entryQuantity (b : LimitOrderBook) (id : OrderId) : Option Quantity := do
  let record ← b.orderLookup.lookup id.value
  let level ← b.findLevel record.side record.price
  let node ← findKey QueueNode.address record.iterator level.orders
  if node.entry.orderId = id then some node.entry.quantity else none

variable {b : LimitOrderBook} {A : RestingOrders}

/-- The records hold the quantities of the live list. -/
theorem Represents.recordQuantity (h : Represents b A) (id : OrderId) :
    b.recordQuantity id = quantityOf A.live id := by
  rw [LimitOrderBook.recordQuantity, h.lookup, A.quantityOf_live, Option.map_map]
  rfl

/-- The queue entries hold those of the records. -/
theorem Represents.entryQuantity (h : Represents b A) (id : OrderId) :
    b.entryQuantity id = b.recordQuantity id := by
  rw [LimitOrderBook.entryQuantity, LimitOrderBook.recordQuantity, h.lookup]
  cases hfind : A.find id with
  | none => rfl
  | some o =>
      obtain ⟨hqueue, hlevel⟩ := h.findLevel_of_find hfind
      obtain ⟨-, rfl⟩ := RestingOrders.find_eq_some_iff.mp hfind
      have hnd : (((A.queue o.side o.price).map nodeOf).map QueueNode.address).Nodup := by
        rw [List.map_map]
        exact A.queue_handlesNodup o.side o.price
      have hnode : findKey QueueNode.address o.handle ((A.queue o.side o.price).map nodeOf) =
          some (nodeOf o) :=
        (findKey_eq_some_iff hnd).mpr ⟨List.mem_map_of_mem hqueue, rfl⟩
      simp [recordOf, hlevel, hnode, nodeOf]

/-- The linked-list book conserves quantity. -/
theorem conservesQuantity :
    ConservesQuantity apply LimitOrderBook.recordQuantity LimitOrderBook.entryQuantity empty := by
  refine conservesQuantity_of_follows (I := fun b => ∃ A, Represents b A) ?_ ?_ ?_
    ⟨_, represents_empty⟩
  · rintro b event ⟨A, hrep⟩
    obtain ⟨-, A', hrep', -⟩ := apply_refines hrep event
    exact ⟨A', hrep'⟩
  · rintro b event ⟨A, hrep⟩
    obtain ⟨hres, A', hrep', hlive⟩ := apply_refines hrep event
    refine follows_of_refines (fun hne => (b.apply_outcome event).state_eq hne)
      hrep.recordQuantity hrep'.recordQuantity fun happlied => ?_
    exact Prod.ext (hres.symm.trans happlied) hlive.symm
  · rintro b ⟨A, hrep⟩ id
    exact hrep.entryQuantity id

end LimitOrderBook

namespace PooledLimitOrderBook

/-- The quantity in the lookup record of an id. -/
def recordQuantity (b : PooledLimitOrderBook) (id : OrderId) : Option Quantity :=
  (b.orderLookup.lookup id.value).map OrderRecord.quantity

/-- The quantity in the node that the record of an id points to. -/
def nodeQuantity (b : PooledLimitOrderBook) (id : OrderId) : Option Quantity := do
  let record ← b.orderLookup.lookup id.value
  let node ← b.nodes[record.nodeIndex]?
  if node.orderId = id then some node.quantity else none

variable {b : PooledLimitOrderBook} {A : RestingOrders}

/-- The records hold the quantities of the live list. -/
theorem Represents.recordQuantity (h : Represents b A) (id : OrderId) :
    b.recordQuantity id = quantityOf A.live id := by
  rw [PooledLimitOrderBook.recordQuantity, h.lookup, A.quantityOf_live, Option.map_map]
  rfl

/-- The nodes hold those of the records. -/
theorem Represents.nodeQuantity (h : Represents b A) (id : OrderId) :
    b.nodeQuantity id = b.recordQuantity id := by
  rw [PooledLimitOrderBook.nodeQuantity, PooledLimitOrderBook.recordQuantity, h.lookup]
  cases hfind : A.find id with
  | none => rfl
  | some o =>
      obtain ⟨hmem, rfl⟩ := RestingOrders.find_eq_some_iff.mp hfind
      have hnode := h.getElem?_nodes (List.mem_map_of_mem hmem)
      have hholds := h.holds o hmem
      simp [recordOf, hnode, hholds.orderId, hholds.quantity]

/-- The pooled book conserves quantity, at any capacity. -/
theorem conservesQuantity (N : UInt64) :
    ConservesQuantity apply PooledLimitOrderBook.recordQuantity
      PooledLimitOrderBook.nodeQuantity (new N) := by
  refine conservesQuantity_of_follows (I := fun b => ∃ A, Holds N.toNat b A) ?_ ?_ ?_
    ⟨.empty, represents_new N, capacity_new N⟩
  · rintro b event ⟨A, hholds⟩
    obtain ⟨-, A', hholds', -⟩ := apply_refines hholds event
    exact ⟨A', hholds'⟩
  · rintro b event ⟨A, hholds⟩
    obtain ⟨hres, A', hholds', hlive⟩ := apply_refines hholds event
    refine follows_of_refines (fun hne => (b.apply_outcome event).state_eq hne)
      hholds.1.recordQuantity hholds'.1.recordQuantity fun happlied => ?_
    -- an accepted event did not lack room
    rw [happlied, Reference.boundedApply] at hres
    rw [Reference.boundedApply] at hlive
    split_ifs at hres hlive
    exact Prod.ext hres.symm hlive.symm
  · rintro b ⟨A, hholds⟩ id
    exact hholds.1.nodeQuantity id

end PooledLimitOrderBook

/-- **Quantity is conserved** by both books, whatever the capacity of the pool: along every
run, an accepted add is recorded and queued with its quantity, and from then until the order
leaves, the quantity in the record and in the queue entry or node is the quantity added less the
accepted executions and reductions, and at least one; the order leaves by a cancel or when
everything is executed or taken away; and never is more executed than was added. -/
theorem quantity_conserved :
    ConservesQuantity LimitOrderBook.apply LimitOrderBook.recordQuantity
        LimitOrderBook.entryQuantity .empty ∧
      ∀ N : UInt64, ConservesQuantity PooledLimitOrderBook.apply
        PooledLimitOrderBook.recordQuantity PooledLimitOrderBook.nodeQuantity (.new N) :=
  ⟨LimitOrderBook.conservesQuantity, PooledLimitOrderBook.conservesQuantity⟩

/-- Ten added, three executed, three taken away by a modify: four rest. -/
example :
    let id : OrderId := ⟨7⟩
    let b := (LimitOrderBook.empty.apply { orderId := id, quantity := ⟨10⟩ }).2
    let events : List MarketEvent :=
      [{ type := .execute, orderId := id, quantity := ⟨3⟩ },
        { type := .modify, orderId := id, quantity := ⟨4⟩ }]
    executedIn LimitOrderBook.apply id b events = 3 ∧
      reducedIn LimitOrderBook.apply LimitOrderBook.recordQuantity id b events = 3 ∧
      (finalState LimitOrderBook.apply b events).entryQuantity id = some ⟨4⟩ := by
  decide +kernel

end Datagine
