import Datagine.PooledRuns
import Datagine.QueuedReplay
import Datagine.ReplayRules

/-!
# The Benchmarks Measure What They Say

Each benchmark drives a book with a workload of a size that is chosen on the command line, and
gives up with an error when the book, the parser or the queue refuses anything on the way. The
workloads are built so that nothing is refused, whatever the size and the number of timed passes,
and the pools are given just the capacity that their workload needs. For most workloads this is
an invariant of the loop that generates them (`Leads.loop`): the book is empty between the cycles
of the mixed stream, and shows the same two quotes between those of the feature stream.

## Main results

* `benchmarks_never_skip`: the workloads in memory, on both books, directly and through the ring
  buffer.
* `csvBenchmark_never_skips`: the generated file, once it opens, parsed and applied.
-/

namespace Datagine

open Mealy KeyedList Text

namespace Benchmarks

/-! ### The workloads -/

/-- `make_event`. -/
def makeEvent (type : EventType) (orderId : UInt64) (side : Side) (price : Int64)
    (quantity : UInt64) (timestamp : Int64) : MarketEvent :=
  ⟨type, ⟨timestamp⟩, ⟨orderId⟩, side, ⟨price⟩, ⟨quantity⟩⟩

/-- The values of a loop variable that counts up to `n`. -/
def indices (n : UInt64) : List UInt64 := (List.range n.toNat).map UInt64.ofNat

/-- `make_mixed_stream`. -/
def makeMixedStream (cycles : UInt64) : List MarketEvent :=
  (indices cycles).flatMap fun i =>
    let orderId := i + 1
    let timestamp := (i * 3).toInt64
    let price := (10000 + i % 64).toInt64
    [makeEvent .add orderId .buy price 100 timestamp,
      makeEvent .execute orderId .buy price 40 (timestamp + 1),
      makeEvent .cancel orderId .buy 0 0 (timestamp + 2)]

/-- The loop of `make_feature_stream`, with its two counters. -/
def featureCycles : ℕ → UInt64 → Int64 → List MarketEvent
  | 0, _, _ => []
  | cycles + 1, nextId, timestamp =>
      [makeEvent .add nextId .buy 9995 10 timestamp,
        makeEvent .cancel nextId .buy 0 0 (timestamp + 1),
        makeEvent .modify 1 .buy 10000 1000 (timestamp + 2),
        makeEvent .modify 2 .sell 10005 1000 (timestamp + 3)] ++
      featureCycles cycles (nextId + 1) (timestamp + 4)

/-- `make_feature_stream`. -/
def makeFeatureStream (cycles : UInt64) : List MarketEvent :=
  [makeEvent .add 1 .buy 10000 1000 0, makeEvent .add 2 .sell 10005 1000 1] ++
    featureCycles cycles.toNat 3 2

/-- A row that `write_csv_fixture` writes, with its line end. -/
def fixtureRow (i : UInt64) : List Char :=
  let orderId := i + 1
  let timestamp := (100000000 + i).toInt64
  let side := if i % 2 = 0 then "B" else "S"
  let price := if i % 2 = 0 then (10000 - i % 64).toInt64 else (10025 + i % 64).toInt64
  decimalInt64 timestamp ++ ",ADD,".toList ++ decimalUInt64 orderId ++ ',' :: side.toList ++
    ',' :: decimalInt64 price ++ ",100\n".toList

/-- What `write_csv_fixture` writes. -/
def writeCsvFixture (rows : UInt64) : List Char :=
  "timestamp_ns,event_type,order_id,side,price,quantity\n".toList ++
    (indices rows).flatMap fixtureRow

/-- The adds of the hot paths. -/
def addOperations (batchSize : UInt64) (side : Side) (base : UInt64) : List BookOp :=
  (indices batchSize).map fun i =>
    .addOrder ⟨i + 1⟩ side ⟨(base + i % 128).toInt64⟩ ⟨100⟩ ⟨i.toInt64⟩

/-- `BM_BaselineAddOrderHotPath` and `BM_PooledAddOrderHotPath`. -/
def addOrderHotPath (batchSize : UInt64) : List BookOp := addOperations batchSize .buy 10000

/-- `BM_BaselineCancelOrderHotPath` and `BM_PooledCancelOrderHotPath`. -/
def cancelOrderHotPath (batchSize : UInt64) : List BookOp :=
  addOperations batchSize .sell 10100 ++ (indices batchSize).map fun i => .cancelOrder ⟨i + 1⟩

/-- `BM_BaselineMixedAddCancelExecuteStream`, `BM_PooledMixedAddCancelExecuteStream` and
`BM_DirectReplayInMemory`. -/
def mixedAddCancelExecuteStream (cycles : UInt64) : List BookOp :=
  (makeMixedStream cycles).map MarketEvent.toOp

/-- The operations of `BM_FeatureExtractionAnomalyScoring`. -/
def featureExtractionAnomalyScoring (cycles : UInt64) : List BookOp :=
  (makeFeatureStream cycles).map MarketEvent.toOp

/-- The timed loop of a benchmark: every pass starts with an empty book. -/
def timedPasses (passes : ℕ) (ops : List BookOp) : List BookOp :=
  (List.range passes).flatMap fun _ => .clear :: ops

/-- An answer that does not end the benchmark. -/
def Accepted (answer : Option BookResult) : Prop := ∀ result ∈ answer, result = .applied

/-- No operation ends the benchmark. -/
def NeverSkips {β : Type} (step : β → BookOp → Option BookResult × β) (book : β)
    (ops : List BookOp) : Prop :=
  ∀ answer ∈ outputs step book ops, Accepted answer

/-! ### Operations that are accepted -/

section Rules

variable {N : ℕ} {L : List LiveOrder}

/-- The add that puts an order into the book. -/
def addOf (o : LiveOrder) : BookOp :=
  .addOrder o.orderId o.side o.price o.quantity o.timestamp

theorem accepted_applied : Accepted (some .applied) := fun _ h => (Option.some.inj h).symm

theorem boundedExec_addOf {o : LiveOrder} (hquantity : o.quantity.units ≠ 0)
    (hid : o.orderId ∉ L.map LiveOrder.orderId) (hroom : L.length < N) :
    Reference.boundedExec N L (addOf o) = (some .applied, L ++ [o]) := by
  have hlacks : ¬Reference.LacksRoom N L (addOf o) := fun h => absurd h.2.2 (by omega)
  rw [Reference.boundedExec, if_neg hlacks, addOf, Reference.exec, Reference.addOrder,
    if_neg hquantity, if_neg hid]

theorem boundedExec_cancel {o : LiveOrder} {L' : List LiveOrder}
    (hid : o.orderId ∉ (L ++ L').map LiveOrder.orderId) :
    Reference.boundedExec N (L ++ o :: L') (.cancelOrder o.orderId) = (some .applied, L ++ L') := by
  rw [List.map_append, List.mem_append, not_or] at hid
  have herase : eraseKey LiveOrder.orderId o.orderId (L ++ o :: L') = L ++ L' := by
    have hleft := eraseKey_of_not_mem hid.1
    have hright := eraseKey_of_not_mem hid.2
    rw [eraseKey] at hleft hright ⊢
    rw [List.filter_append, List.filter_cons_of_neg (by simp), hleft, hright]
  have hfind : findKey LiveOrder.orderId o.orderId (L ++ o :: L') = some o := by
    have hleft := findKey_eq_none_iff.mpr hid.1
    rw [findKey] at hleft ⊢
    rw [List.find?_append, hleft, Option.none_or, List.find?_cons_of_pos (by simp)]
  have hlacks : ¬Reference.LacksRoom N (L ++ o :: L') (.cancelOrder o.orderId) := fun h => h
  rw [Reference.boundedExec, if_neg hlacks, Reference.exec, Reference.cancelOrder, hfind, herase]

/-- Adding some orders. -/
theorem leads_adds {orders : List LiveOrder} (hquantity : ∀ o ∈ orders, o.quantity.units ≠ 0)
    (hids : ((L ++ orders).map LiveOrder.orderId).Nodup) (hroom : (L ++ orders).length ≤ N) :
    Leads Accepted (Reference.boundedExec N) L (orders.map addOf) (L ++ orders) := by
  induction orders generalizing L with
  | nil =>
      rw [List.append_nil]
      exact Leads.nil L
  | cons o orders ih =>
      rw [List.forall_mem_cons] at hquantity
      have hnew : o.orderId ∉ L.map LiveOrder.orderId := by
        rw [List.map_append, List.nodup_append] at hids
        exact fun hmem => hids.2.2 _ hmem _ List.mem_cons_self rfl
      rw [List.append_cons] at hids hroom ⊢
      have hlength : L.length < N := by
        simp only [List.length_append, List.length_singleton] at hroom
        omega
      exact (ih hquantity.2 hids hroom).cons
        (boundedExec_addOf hquantity.1 hnew hlength) accepted_applied

/-- Cancelling all orders, the oldest first. -/
theorem leads_cancels (hids : (L.map LiveOrder.orderId).Nodup) :
    Leads Accepted (Reference.boundedExec N) L (L.map fun o => .cancelOrder o.orderId) [] := by
  induction L with
  | nil => exact Leads.nil []
  | cons o L ih =>
      rw [List.map_cons, List.nodup_cons] at hids
      exact (ih hids.2).cons (boundedExec_cancel (L := []) hids.1) accepted_applied

/-- The unbounded rules accept what the bounded ones accept. -/
theorem exec_of_accepted {op : BookOp} (h : Accepted (Reference.boundedExec N L op).1) :
    Reference.exec L op = Reference.boundedExec N L op := by
  rw [Reference.boundedExec] at h ⊢
  split_ifs at h ⊢
  · cases h _ rfl
  · rfl

/-- **Timed passes.** A workload that an empty book accepts is accepted in every pass. -/
theorem leads_timedPasses {ops : List BookOp} {M : List LiveOrder}
    (h : Leads Accepted (Reference.boundedExec N) [] ops M) (passes : ℕ) :
    ∃ L, Leads Accepted (Reference.boundedExec N) [] (timedPasses passes ops) L := by
  let inv : ℕ → List LiveOrder := fun k => if k = 0 then [] else M
  have hclear : ∀ L, Reference.boundedExec N L .clear = (none, []) := fun L =>
    if_neg (fun h => h : ¬Reference.LacksRoom N L .clear)
  have hpass : ∀ k < passes, Leads Accepted (Reference.boundedExec N) (inv k) (.clear :: ops)
      (inv (k + 1)) := by
    intro k _
    have hnext : inv (k + 1) = M := if_neg (Nat.succ_ne_zero k)
    rw [hnext]
    exact h.cons (hclear _) (fun _ hmem => nomatch hmem)
  exact ⟨inv passes, Leads.loop hpass⟩

/-- Both books accept what the rules accept. -/
theorem neverSkips_of_leads {ops : List BookOp} {M : List LiveOrder} {N : UInt64}
    (h : Leads Accepted (Reference.boundedExec N.toNat) [] ops M) :
    NeverSkips LimitOrderBook.exec .empty ops ∧
      NeverSkips PooledLimitOrderBook.exec (.new N) ops := by
  have hexec : Leads Accepted Reference.exec [] ops M := h.congr fun L op => exec_of_accepted
  refine ⟨?_, ?_⟩
  · rw [NeverSkips, (LimitOrderBook.run_refines ops).1]
    exact hexec.answers
  · rw [NeverSkips, (PooledLimitOrderBook.run_refines N ops).1]
    exact h.answers

end Rules

/-! ### The workloads are accepted -/

section Workloads

variable {N : ℕ}

theorem length_indices (n : UInt64) : (indices n).length = n.toNat := by
  rw [indices, List.length_map, List.length_range]

theorem nodup_indices (n : UInt64) : (indices n).Nodup := by
  refine List.Nodup.map_on (fun j hj k hk heq => ?_) List.nodup_range
  rw [List.mem_range] at hj hk
  have hn := n.toNat_lt
  have hvalues := congrArg UInt64.toNat heq
  rw [UInt64.toNat_ofNat', UInt64.toNat_ofNat'] at hvalues
  omega

/-- The orders of a loop that numbers them from one. -/
theorem nodup_orderId {n : UInt64} {orderOf : UInt64 → LiveOrder}
    (hid : ∀ i, (orderOf i).orderId = ⟨i + 1⟩) :
    (((indices n).map orderOf).map LiveOrder.orderId).Nodup := by
  rw [List.map_map]
  refine List.Nodup.map (fun i j hij => ?_) (nodup_indices n)
  rw [Function.comp_apply, Function.comp_apply, hid, hid] at hij
  exact (UInt64.add_left_inj 1).mp (congrArg OrderId.value hij)

/-- Such orders can be added to an empty book with that much room. -/
theorem leads_numbered {n : UInt64} {orderOf : UInt64 → LiveOrder}
    (hid : ∀ i, (orderOf i).orderId = ⟨i + 1⟩) (hquantity : ∀ i, (orderOf i).quantity.units ≠ 0) :
    Leads Accepted (Reference.boundedExec n.toNat) [] (((indices n).map orderOf).map addOf)
      ((indices n).map orderOf) := by
  refine leads_adds (fun o ho => ?_) (nodup_orderId hid) ?_
  · obtain ⟨i, -, rfl⟩ := List.mem_map.mp ho
    exact hquantity i
  · rw [List.nil_append, List.length_map, length_indices]

/-- The orders of the hot paths. -/
def hotPathOrder (side : Side) (base : UInt64) (i : UInt64) : LiveOrder :=
  ⟨⟨i + 1⟩, side, ⟨(base + i % 128).toInt64⟩, ⟨i.toInt64⟩, ⟨100⟩⟩

theorem leads_addOperations (batchSize : UInt64) (side : Side) (base : UInt64) :
    Leads Accepted (Reference.boundedExec batchSize.toNat) [] (addOperations batchSize side base)
      ((indices batchSize).map (hotPathOrder side base)) := by
  have hquantity : (100 : UInt64) ≠ 0 := by decide
  have hadds : Leads Accepted (Reference.boundedExec batchSize.toNat) [] _ _ :=
    leads_numbered (fun i => (rfl : (hotPathOrder side base i).orderId = ⟨i + 1⟩))
      fun _ => hquantity
  rwa [List.map_map] at hadds

theorem leads_cancelOrderHotPath (batchSize : UInt64) :
    Leads Accepted (Reference.boundedExec batchSize.toNat) [] (cancelOrderHotPath batchSize)
      [] := by
  have hids : (((indices batchSize).map (hotPathOrder .sell 10100)).map
      LiveOrder.orderId).Nodup := nodup_orderId fun _ => rfl
  have hcancels := leads_cancels (N := batchSize.toNat) hids
  rw [List.map_map] at hcancels
  exact (leads_addOperations batchSize .sell 10100).append hcancels

/-- A cycle of the mixed stream leaves nothing. -/
theorem leads_mixedCycle (hroom : 0 < N) (orderId : OrderId) (price : Price)
    (timestamp : Timestamp) :
    Leads Accepted (Reference.boundedExec N) []
      [.addOrder orderId .buy price ⟨100⟩ timestamp, .executeOrder orderId ⟨40⟩,
        .cancelOrder orderId] [] := by
  let o : LiveOrder := ⟨orderId, .buy, price, timestamp, ⟨100⟩⟩
  have hadd : Reference.boundedExec N [] (addOf o) = (some .applied, [o]) :=
    boundedExec_addOf (by decide : (100 : UInt64) ≠ 0) List.not_mem_nil hroom
  have hexecute : Reference.boundedExec N [o] (.executeOrder orderId ⟨40⟩) =
      (some .applied, [o.withQuantity ⟨60⟩]) := by
    simp [Reference.boundedExec, Reference.LacksRoom, Reference.exec, Reference.executeOrder,
      findKey, Reference.setQuantity, updateKey, o]
  have hcancel : Reference.boundedExec N [o.withQuantity ⟨60⟩] (.cancelOrder orderId) =
      (some .applied, []) :=
    boundedExec_cancel (L := []) (o := o.withQuantity ⟨60⟩) List.not_mem_nil
  exact (((Leads.nil []).cons hcancel accepted_applied).cons hexecute accepted_applied).cons
    hadd accepted_applied

/-- The book is empty between the cycles of the mixed stream. -/
theorem leads_mixedStream (cycles : UInt64) :
    Leads Accepted (Reference.boundedExec cycles.toNat) []
      (mixedAddCancelExecuteStream cycles) [] := by
  rw [mixedAddCancelExecuteStream, makeMixedStream, List.map_flatMap, indices, List.flatMap_map]
  let inv : ℕ → List LiveOrder := fun _ => []
  have hpass : ∀ k < cycles.toNat, Leads Accepted (Reference.boundedExec cycles.toNat) (inv k) _
      (inv (k + 1)) :=
    fun k hk => leads_mixedCycle (Nat.zero_lt_of_lt hk) ⟨UInt64.ofNat k + 1⟩
      ⟨(10000 + UInt64.ofNat k % 64).toInt64⟩ ⟨(UInt64.ofNat k * 3).toInt64⟩
  exact Leads.loop hpass

/-- The two quotes of the feature stream. -/
def featureQuotes : List LiveOrder :=
  [⟨⟨1⟩, .buy, ⟨10000⟩, ⟨0⟩, ⟨1000⟩⟩, ⟨⟨2⟩, .sell, ⟨10005⟩, ⟨1⟩, ⟨1000⟩⟩]

/-- The book shows the two quotes between the cycles of the feature stream, as long as the ids do
not come round to those of the quotes. -/
theorem leads_featureCycles (hroom : 2 < N) {cycles : ℕ} {nextId : UInt64}
    (hids : 3 ≤ nextId.toNat ∧ nextId.toNat + cycles < 2 ^ 64) (timestamp : Int64) :
    Leads Accepted (Reference.boundedExec N) featureQuotes
      ((featureCycles cycles nextId timestamp).map MarketEvent.toOp) featureQuotes := by
  induction cycles generalizing nextId timestamp with
  | zero => exact Leads.nil featureQuotes
  | succ cycles ih =>
      let o : LiveOrder := ⟨⟨nextId⟩, .buy, ⟨9995⟩, ⟨timestamp⟩, ⟨10⟩⟩
      have hnew : o.orderId ∉ featureQuotes.map LiveOrder.orderId := by
        have hone : nextId ≠ 1 := fun h => absurd (congrArg UInt64.toNat h ▸ hids.1) (by decide)
        have htwo : nextId ≠ 2 := fun h => absurd (congrArg UInt64.toNat h ▸ hids.1) (by decide)
        simp [featureQuotes, o, hone, htwo]
      have hadd : Reference.boundedExec N featureQuotes (addOf o) =
          (some .applied, featureQuotes ++ [o]) :=
        boundedExec_addOf (by decide : (10 : UInt64) ≠ 0) hnew hroom
      have hcancel : Reference.boundedExec N (featureQuotes ++ [o]) (.cancelOrder o.orderId) =
          (some .applied, featureQuotes) := by
        rw [← List.append_nil featureQuotes] at hnew
        exact boundedExec_cancel hnew
      have hmodify : ∀ id, id = (⟨1⟩ : OrderId) ∨ id = ⟨2⟩ →
          Reference.boundedExec N featureQuotes (.modifyOrder id ⟨1000⟩) =
            (some .applied, featureQuotes) := by
        rintro id (rfl | rfl)
        · exact if_neg fun h => h
        · exact if_neg fun h => h
      have hrest : Leads Accepted (Reference.boundedExec N) featureQuotes
          ((featureCycles cycles (nextId + 1) (timestamp + 4)).map MarketEvent.toOp)
          featureQuotes := by
        have hnext : (nextId + 1).toNat = nextId.toNat + 1 := by
          rw [UInt64.toNat_add]
          exact Nat.mod_eq_of_lt (by change nextId.toNat + 1 < 2 ^ 64; omega)
        exact ih (by omega) (timestamp + 4)
      exact (((hrest.cons (hmodify ⟨2⟩ (.inr rfl)) accepted_applied).cons
        (hmodify ⟨1⟩ (.inl rfl)) accepted_applied).cons hcancel accepted_applied).cons hadd
          accepted_applied

theorem leads_featureStream (hroom : 2 < N) {cycles : UInt64} (hcycles : cycles.toNat < 2 ^ 61) :
    Leads Accepted (Reference.boundedExec N) [] (featureExtractionAnomalyScoring cycles)
      featureQuotes := by
  have hquotes : Leads Accepted (Reference.boundedExec N) [] (featureQuotes.map addOf)
      featureQuotes :=
    leads_adds (by decide) (by decide) (Nat.le_of_lt hroom)
  have hfirst : 3 ≤ (3 : UInt64).toNat ∧ (3 : UInt64).toNat + cycles.toNat < 2 ^ 64 :=
    ⟨Nat.le_refl 3, by change 3 + cycles.toNat < 2 ^ 64; omega⟩
  rw [featureExtractionAnomalyScoring, makeFeatureStream, List.map_append]
  exact hquotes.append (leads_featureCycles hroom hfirst 2)

/-! ### The generated file -/

/-- The event that a row of the fixture is about. -/
def fixtureEvent (i : UInt64) : MarketEvent :=
  if i % 2 = 0 then
    makeEvent .add (i + 1) .buy (10000 - i % 64).toInt64 100 (100000000 + i).toInt64
  else makeEvent .add (i + 1) .sell (10025 + i % 64).toInt64 100 (100000000 + i).toInt64

theorem normal_fixtureEvent (i : UInt64) : (fixtureEvent i).Normal := by
  have hadd : (fixtureEvent i).type = .add := by
    rw [fixtureEvent]
    split_ifs
    · rfl
    · rfl
  exact ⟨fun hne => absurd hadd hne, by simp [hadd], by simp [hadd]⟩

theorem fixtureRow_eq (i : UInt64) : fixtureRow i = encodeRow (fixtureEvent i) ++ ['\n'] := by
  have hquantity : decimalUInt64 100 = ['1', '0', '0'] := by decide
  have hname : EventType.name .add = ['A', 'D', 'D'] := rfl
  have hbuy : Side.letter .buy = ['B'] := rfl
  have hsell : Side.letter .sell = ['S'] := rfl
  rw [fixtureRow, fixtureEvent, encodeRow]
  by_cases heven : i % 2 = 0
  · simp [heven, MarketEvent.fields, makeEvent, hquantity, List.intercalate, hname, hbuy]
  · simp [heven, MarketEvent.fields, makeEvent, hquantity, List.intercalate, hname, hsell]

/-- The fixture is a file with the rows of these events. -/
theorem writeCsvFixture_eq (rows : UInt64) :
    writeCsvFixture rows = fileOf (((indices rows).map fixtureEvent).map encodeRow) := by
  have hrows : (indices rows).flatMap fixtureRow =
      unlines (((indices rows).map fixtureEvent).map encodeRow) := by
    rw [unlines, List.flatMap_map, List.flatMap_map]
    exact congrArg (List.flatMap · (indices rows)) (funext fixtureRow_eq)
  have hheader : "timestamp_ns,event_type,order_id,side,price,quantity\n".toList =
      expectedHeader ++ ['\n'] := by decide
  have hfile : ∀ rows, fileOf rows = (expectedHeader ++ ['\n']) ++ unlines rows := fun rows => by
    rw [fileOf, unlines, List.flatMap_cons, unlines]
  calc writeCsvFixture rows
      = (expectedHeader ++ ['\n']) ++ (indices rows).flatMap fixtureRow :=
        congrArg (· ++ (indices rows).flatMap fixtureRow) hheader
    _ = fileOf (((indices rows).map fixtureEvent).map encodeRow) := by rw [hrows, hfile]

/-- What the parser reads. -/
theorem fileResults_writeCsvFixture (rows : UInt64) :
    let results := fileResults (lines (writeCsvFixture rows))
    (∀ parsed ∈ results, parsed.status = .event ∧ parsed.event.isSome) ∧
      results.filterMap CsvParseResult.event = (indices rows).map fixtureEvent := by
  have hnormal : ∀ event ∈ (indices rows).map fixtureEvent, event.Normal := by
    intro event hmem
    obtain ⟨i, -, rfl⟩ := List.mem_map.mp hmem
    exact normal_fixtureEvent i
  dsimp only
  rw [writeCsvFixture_eq, fileResults_fileOf (lineFeed_free _)]
  refine ⟨fun parsed hmem => ?_, events_of_rows hnormal 2⟩
  obtain ⟨k, hk, rfl⟩ := List.mem_mapIdx.mp hmem
  rw [List.getElem_map, List.getElem_map, parseRow_encodeRow (normal_fixtureEvent _)]
  exact ⟨rfl, rfl⟩

/-- The orders that the fixture adds. -/
def fixtureOrder (i : UInt64) : LiveOrder :=
  ⟨(fixtureEvent i).orderId, (fixtureEvent i).side, (fixtureEvent i).price,
    (fixtureEvent i).timestamp, (fixtureEvent i).quantity⟩

theorem leads_fixture (rows : UInt64) :
    Leads Accepted (Reference.boundedExec rows.toNat) []
      (((indices rows).map fixtureEvent).map MarketEvent.toOp)
      ((indices rows).map fixtureOrder) := by
  have hnumbered : ∀ i, (fixtureOrder i).orderId = ⟨i + 1⟩ ∧
      (fixtureOrder i).quantity = ⟨100⟩ ∧ addOf (fixtureOrder i) = (fixtureEvent i).toOp := by
    intro i
    rw [fixtureOrder, fixtureEvent]
    split_ifs
    · exact ⟨rfl, rfl, rfl⟩
    · exact ⟨rfl, rfl, rfl⟩
  have hquantity : ∀ i, (fixtureOrder i).quantity.units ≠ 0 := fun i => by
    rw [(hnumbered i).2.1]
    decide
  have hadds : Leads Accepted (Reference.boundedExec rows.toNat) [] _ _ :=
    leads_numbered (fun i => (hnumbered i).1) hquantity
  have hops : ((indices rows).map fixtureOrder).map addOf =
      ((indices rows).map fixtureEvent).map MarketEvent.toOp := by
    rw [List.map_map, List.map_map]
    exact List.map_congr_left fun i _ => (hnumbered i).2.2
  rwa [hops] at hadds

end Workloads

/-! ### Answers to events -/

theorem outputs_toOp (b : LimitOrderBook) (events : List MarketEvent) :
    outputs LimitOrderBook.exec b (events.map MarketEvent.toOp) =
      (outputs LimitOrderBook.apply b events).map some := by
  induction events generalizing b with
  | nil => rfl
  | cons event events ih =>
      rw [List.map_cons, outputs_cons, outputs_cons, List.map_cons, LimitOrderBook.exec_toOp, ih]

theorem NeverSkips.applied {events : List MarketEvent}
    (h : NeverSkips LimitOrderBook.exec .empty (events.map MarketEvent.toOp)) :
    ∀ result ∈ outputs LimitOrderBook.apply .empty events, result = .applied := by
  rw [NeverSkips, outputs_toOp] at h
  exact fun result hmem => h (some result) (List.mem_map_of_mem hmem) result rfl

end Benchmarks

open Benchmarks

/-- **No benchmark that drives a book skips.** Whatever the size of the workload and however many
passes are timed, the adds and cancels of the hot paths and the events of the mixed stream are
all applied, by the linked-list book and by the pool that the benchmark makes for them; so are the
events of the feature stream, whose size is bounded so that its timestamps do not overflow. When
the mixed stream goes through a ring buffer, the flag of the consumer is never set, whatever the
capacity of the queue, the sequence that earlier passes have left and the interleaving. -/
theorem benchmarks_never_skip (size : UInt64) (passes : ℕ) (hsize : size.toNat < 2 ^ 61) :
    (∀ workload ∈ [addOrderHotPath, cancelOrderHotPath, mixedAddCancelExecuteStream],
      let ops := timedPasses passes (workload size)
      NeverSkips LimitOrderBook.exec .empty ops ∧
        NeverSkips PooledLimitOrderBook.exec (.new size) ops) ∧
      NeverSkips LimitOrderBook.exec .empty
        (timedPasses passes (featureExtractionAnomalyScoring size)) ∧
      ∀ (queue : SpscRingBuffer) (sequence : UInt64) (schedule : List ReplayThread),
        ((QueuedReplay.start queue sequence .empty).run LimitOrderBook.apply
          (makeMixedStream size) schedule).failed = false := by
  have hpasses : ∀ (N : UInt64) {ops : List BookOp} {M : List LiveOrder},
      Leads Accepted (Reference.boundedExec N.toNat) [] ops M →
        NeverSkips LimitOrderBook.exec .empty (timedPasses passes ops) ∧
          NeverSkips PooledLimitOrderBook.exec (.new N) (timedPasses passes ops) := by
    intro N ops M h
    obtain ⟨L, hleads⟩ := leads_timedPasses h passes
    exact neverSkips_of_leads hleads
  refine ⟨fun workload hworkload => ?_, ?_, fun queue sequence schedule => ?_⟩
  · simp only [List.mem_cons, List.not_mem_nil, or_false] at hworkload
    rcases hworkload with rfl | rfl | rfl
    · exact hpasses size (leads_addOperations size .buy 10000)
    · exact hpasses size (leads_cancelOrderHotPath size)
    · exact hpasses size (leads_mixedStream size)
  · exact (hpasses 3 (leads_featureStream (by decide) hsize)).1
  · have happlied := (neverSkips_of_leads (leads_mixedStream size)).1.applied
    have hinv := (QueuedReplay.inv_start LimitOrderBook.apply (makeMixedStream size) queue sequence
      .empty).run schedule
    rw [Bool.eq_false_iff, Ne, hinv.failed]
    rintro ⟨result, hmem, hrefused⟩
    rw [← List.take_append_drop (QueuedReplay.consumed _) (makeMixedStream size),
      outputs_append] at happlied
    exact hrefused (happlied result (List.mem_append_left _ hmem))

/-- Three passes over the larger of the two registered sizes. -/
theorem benchmarks_never_skip_large :
    NeverSkips LimitOrderBook.exec .empty
      (timedPasses 3 (featureExtractionAnomalyScoring 16384)) :=
  (benchmarks_never_skip 16384 3 (by decide)).2.1

/-- **The CSV benchmark does not skip either**, once the fixture is written and opens. Of the
generated file, every row is parsed to an event, and all events are applied, in every timed pass,
by the linked-list book and by a pool with room for as many orders as the file has rows. -/
theorem csvBenchmark_never_skips (rows : UInt64) (passes : ℕ) :
    let results := fileResults (lines (writeCsvFixture rows))
    let events := results.filterMap CsvParseResult.event
    let ops := timedPasses passes (events.map MarketEvent.toOp)
    (∀ parsed ∈ results, parsed.status = .event ∧ parsed.event.isSome) ∧
      events.length = rows.toNat ∧ NeverSkips LimitOrderBook.exec .empty ops ∧
      NeverSkips PooledLimitOrderBook.exec (.new rows) ops := by
  obtain ⟨hparsed, hevents⟩ := fileResults_writeCsvFixture rows
  obtain ⟨L, hleads⟩ := leads_timedPasses (leads_fixture rows) passes
  dsimp only
  rw [hevents]
  refine ⟨hparsed, ?_, neverSkips_of_leads hleads⟩
  rw [List.length_map, length_indices]

end Datagine
