import Datagine.BookRuns

/-!
# What the Pooled Validator Decides

The invariant check of the pooled book, on states that no operation need have produced: links
that cross or run in cycles, indices beyond the array, stale records. One iteration of the chain
loop succeeds on a node exactly if the node passes its checks (`validateNodes_eq_some_iff`), so
the loop accepts the chains of a level and nothing else (`validateLevel_eq_some_iff`). An id
that was seen before cannot slip through, because its record names one level and one node; the
same fact makes the loops end on every state.

## Main results

* `validateInvariants_iff`: with crossed books allowed, the check succeeds exactly on
  well-formed states.
-/

namespace Datagine

open LinkedChain

namespace PooledLimitOrderBook

variable {b : PooledLimitOrderBook} {side : Side} {price : Price}

/-! ### Well-formed states -/

/-- The id of the order in a node. -/
def idAt (b : PooledLimitOrderBook) (i : ℕ) : UInt64 := (nodeAt b.nodes i).orderId.value

/-- The node at an index is in range, active, of positive quantity, and the record of its id
agrees with it, with its level and with its index. -/
structure Recorded (b : PooledLimitOrderBook) (side : Side) (price : Price) (i : ℕ) : Prop where
  inRange : i < b.nodes.length
  active : (nodeAt b.nodes i).active = true
  positive : (nodeAt b.nodes i).quantity.units ≠ 0
  record : b.orderLookup.lookup (b.idAt i) =
    some ⟨side, price, (nodeAt b.nodes i).timestamp, (nodeAt b.nodes i).quantity, i⟩

/-- The quantity in the nodes, as an unbounded number. -/
def unitsIn (b : PooledLimitOrderBook) (indices : List ℕ) : ℕ :=
  (indices.map fun i => (nodeAt b.nodes i).quantity.units.toNat).sum

/-- The chain of a level: from its head, following `next` visits `indices` and then `npos`; they
are as many distinct nodes as the level counts, at least one, and end at its tail; `prev` is the
inverse of `next`; every node is recorded; and the level total is theirs modulo `2 ^ 64`. -/
structure LevelChain (b : PooledLimitOrderBook) (side : Side) (price : Price)
    (level : PriceLevel) (indices : List ℕ) : Prop where
  count : indices.length = level.orderCount
  nonempty : 1 ≤ level.orderCount
  nodup : indices.Nodup
  head : indices.head? = some level.head
  tail : indices.getLast? = some level.tail
  links : Seg (prevOf b.nodes) (nextOf b.nodes) npos indices npos
  recorded : ∀ i ∈ indices, b.Recorded side price i
  total : level.totalQuantity.units.toNat = b.unitsIn indices % 2 ^ 64

/-- **A well-formed state**: every level has its chain, no node and no order id stands in two
places, and every record has its node. -/
structure WellFormed (b : PooledLimitOrderBook) : Prop where
  chains : ∀ side price level, b.findLevel side price = some level →
    ∃ indices, b.LevelChain side price level indices
  onePlace : ∀ side price level indices side' price' level' indices',
    b.LevelChain side price level indices → b.LevelChain side' price' level' indices' →
      ∀ i ∈ indices, ∀ j ∈ indices', i = j ∨ b.idAt i = b.idAt j →
        side = side' ∧ price = price' ∧ i = j
  records : ∀ id record, b.orderLookup.lookup id = some record →
    ∃ level indices, b.findLevel record.side record.price = some level ∧
      b.LevelChain record.side record.price level indices ∧
      record.nodeIndex ∈ indices ∧ b.idAt record.nodeIndex = id

/-- A record names one level and one node. -/
theorem Recorded.unique {side' : Side} {price' : Price} {i j : ℕ} (h : b.Recorded side price i)
    (h' : b.Recorded side' price' j) (hij : i = j ∨ b.idAt i = b.idAt j) :
    side = side' ∧ price = price' ∧ i = j := by
  have hid : b.idAt i = b.idAt j := by
    rcases hij with rfl | hid
    · rfl
    · exact hid
  have hrecord := h.record
  rw [hid, h'.record] at hrecord
  obtain ⟨hside, hprice, -, -, hindex⟩ := OrderRecord.mk.inj (Option.some.inj hrecord)
  exact ⟨hside.symm, hprice.symm, hindex.symm⟩

/-! ### The chain loop -/

/-- The checks of one iteration. -/
structure Passes (b : PooledLimitOrderBook) (side : Side) (price : Price) (i : ℕ)
    (acc : ChainSummary) : Prop extends b.Recorded side price i where
  previous : (nodeAt b.nodes i).prev = acc.previous
  fresh : b.idAt i ∉ acc.seen

instance (i : ℕ) (acc : ChainSummary) : Decidable (b.Passes side price i acc) :=
  decidable_of_iff
    ((i < b.nodes.length ∧ (nodeAt b.nodes i).active = true ∧
        (nodeAt b.nodes i).quantity.units ≠ 0 ∧
        b.orderLookup.lookup (b.idAt i) =
          some ⟨side, price, (nodeAt b.nodes i).timestamp, (nodeAt b.nodes i).quantity, i⟩) ∧
      (nodeAt b.nodes i).prev = acc.previous ∧ b.idAt i ∉ acc.seen)
    ⟨fun ⟨⟨hrange, hactive, hpos, hrecord⟩, hprev, hfresh⟩ =>
        ⟨⟨hrange, hactive, hpos, hrecord⟩, hprev, hfresh⟩,
      fun h => ⟨⟨h.inRange, h.active, h.positive, h.record⟩, h.previous, h.fresh⟩⟩

/-- What an iteration adds. -/
def ChainSummary.add (b : PooledLimitOrderBook) (acc : ChainSummary) (i : ℕ) : ChainSummary :=
  ⟨i, acc.total + (nodeAt b.nodes i).quantity.units, acc.visited + 1, insert (b.idAt i) acc.seen⟩

/-- The checks, as the loop makes them on the node. -/
theorem passes_iff {i : ℕ} {acc : ChainSummary} {node : OrderNode}
    (hnode : b.nodes[i]? = some node) :
    b.Passes side price i acc ↔
      node.active = true ∧ node.prev = acc.previous ∧ node.quantity.units ≠ 0 ∧
        node.orderId.value ∉ acc.seen ∧
        ∃ record, b.orderLookup.lookup node.orderId.value = some record ∧
          record.side = side ∧ record.price.ticks = price.ticks ∧
          record.quantity = node.quantity ∧ record.timestamp = node.timestamp ∧
          record.nodeIndex = i := by
  obtain ⟨hrange, -⟩ := List.getElem?_eq_some_iff.mp hnode
  have hat : nodeAt b.nodes i = node := by
    rw [nodeAt, List.getD_eq_getElem?_getD, hnode, Option.getD_some]
  have hid : b.idAt i = node.orderId.value := by rw [idAt, hat]
  constructor
  · rintro ⟨⟨-, hactive, hquantity, hrecord⟩, hprev, hfresh⟩
    rw [hat] at hactive hquantity hprev
    rw [hid] at hfresh
    rw [hid, hat] at hrecord
    exact ⟨hactive, hprev, hquantity, hfresh, _, hrecord, rfl, rfl, rfl, rfl, rfl⟩
  · rintro ⟨hactive, hprev, hquantity, hfresh, record, hrecord, hside, hprice, hunits, htime,
      hindex⟩
    have hlevel : record.price = price := by
      by_contra hne
      exact BookLevels.ticks_ne hne hprice
    refine ⟨⟨hrange, by rw [hat, hactive], by rwa [hat], ?_⟩, by rw [hat, hprev], by rwa [hid]⟩
    rw [hid, hat, hrecord, ← hside, ← hlevel, ← htime, ← hunits, ← hindex]

/-- **The checks of one iteration**, one after the other, whatever is returned behind them. -/
theorem checks_eq {α : Type} {i : ℕ} {acc : ChainSummary} {node : OrderNode}
    (hnode : b.nodes[i]? = some node) (stop next : α) :
    (if !node.active then stop
      else if node.prev ≠ acc.previous then stop
      else if node.quantity.units = 0 then stop
      else if node.orderId.value ∈ acc.seen then stop
      else
        match _hlookup : b.orderLookup.lookup node.orderId.value with
        | none => stop
        | some record =>
            if record.side ≠ side then stop
            else if record.price.ticks ≠ price.ticks then stop
            else if record.quantity ≠ node.quantity then stop
            else if record.timestamp ≠ node.timestamp then stop
            else if record.nodeIndex ≠ i then stop
            else next) =
      if b.Passes side price i acc then next else stop := by
  by_cases hpasses : b.Passes side price i acc
  · rw [if_pos hpasses]
    obtain ⟨hactive, hprev, hquantity, hseen, record, hrecord, hside, hprice, hunits, htime,
      hindex⟩ := (passes_iff hnode).mp hpasses
    rw [if_neg (by simp [hactive]), if_neg (not_not_intro hprev), if_neg hquantity, if_neg hseen]
    split
    · rename_i hnone
      rw [hrecord] at hnone
      cases hnone
    · rename_i found hfound
      obtain rfl := Option.some.inj (hrecord.symm.trans hfound)
      rw [if_neg (not_not_intro hside), if_neg (not_not_intro hprice),
        if_neg (not_not_intro hunits), if_neg (not_not_intro htime), if_neg (not_not_intro hindex)]
  · rw [if_neg hpasses]
    split_ifs with hactive hprev hquantity hseen
    · rfl
    · rfl
    · rfl
    · rfl
    split
    · rfl
    · rename_i record hrecord
      split_ifs with hside hprice hunits htime hindex
      · rfl
      · rfl
      · rfl
      · rfl
      · rfl
      · simp only [Bool.not_eq_true', Bool.not_eq_false, not_not] at hactive hprev
        simp only [not_not] at hside hprice hunits htime hindex
        exact absurd ((passes_iff hnode).mpr ⟨hactive, hprev, hquantity, hseen, record, hrecord,
          hside, hprice, hunits, htime, hindex⟩) hpasses

/-- **One iteration** at a node of the array. -/
theorem validateNodes_of_node {i : ℕ} {acc : ChainSummary} (hi : i ≠ npos)
    (hrange : i < b.nodes.length) :
    b.validateNodes side price.ticks i acc =
      if b.Passes side price i acc then
        b.validateNodes side price.ticks (nextOf b.nodes i) (acc.add b i)
      else none := by
  have hnode : b.nodes[i]? = some (nodeAt b.nodes i) := by
    rw [nodeAt, List.getD_eq_getElem?_getD, List.getElem?_eq_getElem hrange, Option.getD_some]
  rw [validateNodes, if_neg hi, hnode]
  exact checks_eq hnode none _

/-- An iteration moves on exactly from a node that passes its checks. -/
theorem validateNodes_eq_some_iff {i : ℕ} {acc acc' : ChainSummary} (hi : i ≠ npos) :
    b.validateNodes side price.ticks i acc = some acc' ↔
      b.Passes side price i acc ∧
        b.validateNodes side price.ticks (nextOf b.nodes i) (acc.add b i) = some acc' := by
  by_cases hrange : i < b.nodes.length
  · rw [validateNodes_of_node hi hrange]
    split_ifs with hpasses
    · exact (and_iff_right hpasses).symm
    · simp [hpasses]
  · have hnone : b.nodes[i]? = none := List.getElem?_eq_none_iff.mpr (Nat.not_lt.mp hrange)
    rw [validateNodes, if_neg hi, hnone]
    simp only [reduceCtorEq, false_iff, not_and]
    exact fun hpasses => absurd hpasses.inRange hrange

/-- The summary of a part of a chain. -/
def ChainSummary.addAll (b : PooledLimitOrderBook) (acc : ChainSummary) (indices : List ℕ) :
    ChainSummary :=
  indices.foldl (ChainSummary.add b) acc

/-- What the loop has gathered behind a part of a chain. -/
theorem addAll_eq (acc : ChainSummary) (indices : List ℕ) :
    (acc.addAll b indices).previous = indices.getLastD acc.previous ∧
      (acc.addAll b indices).total = acc.total + UInt64.ofNat (b.unitsIn indices) ∧
      (acc.addAll b indices).visited = acc.visited + indices.length ∧
      (acc.addAll b indices).seen = acc.seen ∪ (indices.map b.idAt).toFinset := by
  induction indices generalizing acc with
  | nil => simp [ChainSummary.addAll, unitsIn]
  | cons i indices ih =>
      obtain ⟨hprevious, htotal, hvisited, hseen⟩ := ih (acc.add b i)
      have hadd : acc.addAll b (i :: indices) = (acc.add b i).addAll b indices := rfl
      rw [hadd, hprevious, htotal, hvisited, hseen, List.getLastD_cons]
      refine ⟨rfl, ?_, ?_, ?_⟩
      · simp [ChainSummary.add, unitsIn, UInt64.add_assoc]
      · simp only [ChainSummary.add, List.length_cons]
        omega
      · ext x
        simp [ChainSummary.add]

/-- The rest of a chain, as the loop demands it: linked, recorded, and with new ids. -/
structure Accepted (b : PooledLimitOrderBook) (side : Side) (price : Price) (indices : List ℕ)
    (acc : ChainSummary) : Prop where
  links : Seg (prevOf b.nodes) (nextOf b.nodes) acc.previous indices npos
  inside : npos ∉ indices
  recorded : ∀ i ∈ indices, b.Recorded side price i
  nodup : indices.Nodup
  fresh : ∀ i ∈ indices, b.idAt i ∉ acc.seen

/-- A chain and its first node. -/
theorem accepted_cons {i : ℕ} {indices : List ℕ} {acc : ChainSummary} :
    b.Accepted side price (i :: indices) acc ↔
      i ≠ npos ∧ b.Passes side price i acc ∧ nextOf b.nodes i = indices.headD npos ∧
        b.Accepted side price indices (acc.add b i) := by
  constructor
  · rintro ⟨⟨hprev, hnext, hrest⟩, hinside, hrecorded, hnodup, hfresh⟩
    obtain ⟨hnot, hnodup⟩ := List.nodup_cons.mp hnodup
    obtain ⟨hne, hinside⟩ := not_or.mp (fun h => hinside (List.mem_cons.mpr h))
    refine ⟨Ne.symm hne, ⟨hrecorded i List.mem_cons_self, hprev, hfresh i List.mem_cons_self⟩,
      hnext, hrest, hinside, fun j hj => hrecorded j (List.mem_cons_of_mem _ hj), hnodup,
      fun j hj => ?_⟩
    simp only [ChainSummary.add, Finset.mem_insert, not_or]
    refine ⟨fun hid => hnot ?_, hfresh j (List.mem_cons_of_mem _ hj)⟩
    obtain ⟨-, -, rfl⟩ := (hrecorded j (List.mem_cons_of_mem _ hj)).unique
      (hrecorded i List.mem_cons_self) (.inr hid)
    exact hj
  · rintro ⟨hne, hpasses, hnext, hlinks, hinside, hrecorded, hnodup, hfresh⟩
    have hfresh' : ∀ j ∈ indices, b.idAt j ≠ b.idAt i ∧ b.idAt j ∉ acc.seen := fun j hj =>
      not_or.mp fun h => hfresh j hj (Finset.mem_insert.mpr h)
    refine ⟨⟨hpasses.previous, hnext, hlinks⟩, ?_, ?_, List.nodup_cons.mpr ⟨?_, hnodup⟩, ?_⟩
    · exact List.not_mem_cons_of_ne_of_not_mem hne.symm hinside
    · exact List.forall_mem_cons.mpr ⟨hpasses.toRecorded, hrecorded⟩
    · exact fun hi => (hfresh' i hi).1 rfl
    · exact List.forall_mem_cons.mpr ⟨hpasses.fresh, fun j hj => (hfresh' j hj).2⟩

/-- **The loop accepts chains and nothing else**, on any state. -/
theorem validateNodes_iff {i : ℕ} {acc acc' : ChainSummary} :
    b.validateNodes side price.ticks i acc = some acc' ↔
      ∃ indices, indices.headD npos = i ∧ b.Accepted side price indices acc ∧
        acc.addAll b indices = acc' := by
  constructor
  · -- one id of the lookup less is unseen behind every node that passes
    intro h
    induction hcard : (b.orderLookup.keys \ acc.seen).card using Nat.strong_induction_on
      generalizing i acc with
    | _ n ih =>
        by_cases hi : i = npos
        · rw [validateNodes, if_pos hi] at h
          exact ⟨[], hi.symm, ⟨trivial, by simp, by simp, List.nodup_nil, by simp⟩,
            Option.some.inj h⟩
        · obtain ⟨hpasses, hrest⟩ := (validateNodes_eq_some_iff hi).mp h
          have hlt : (b.orderLookup.keys \ (acc.add b i).seen).card < n := by
            have hkey : b.idAt i ∈ b.orderLookup.keys :=
              Finmap.mem_keys.mpr (Finmap.mem_of_lookup_eq_some hpasses.record)
            rw [← hcard]
            refine Finset.card_lt_card (Finset.ssubset_iff_of_subset ?_ |>.mpr ?_)
            · exact Finset.sdiff_subset_sdiff (Finset.Subset.refl _) (Finset.subset_insert _ _)
            · exact ⟨_, Finset.mem_sdiff.mpr ⟨hkey, hpasses.fresh⟩, by simp [ChainSummary.add]⟩
          obtain ⟨indices, hhead, haccepted, hsum⟩ := ih _ hlt hrest rfl
          exact ⟨i :: indices, rfl, accepted_cons.mpr ⟨hi, hpasses, hhead.symm, haccepted⟩, hsum⟩
  · rintro ⟨indices, rfl, haccepted, rfl⟩
    induction indices generalizing acc with
    | nil =>
        rw [validateNodes]
        rfl
    | cons i indices ih =>
        obtain ⟨hi, hpasses, hnext, hrest⟩ := accepted_cons.mp haccepted
        refine (validateNodes_eq_some_iff hi).mpr ⟨hpasses, ?_⟩
        rw [hnext]
        exact ih hrest

/-! ### Levels -/

/-- `npos` is no node of a chain. -/
theorem LevelChain.npos_notMem (hsize : b.nodes.length ≤ npos) {level : PriceLevel}
    {indices : List ℕ} (h : b.LevelChain side price level indices) : npos ∉ indices := by
  intro hmem
  have hlt := (h.recorded npos hmem).inRange
  omega

variable (price) in
/-- **A level passes exactly if it has a chain with new ids.** -/
theorem validateLevel_eq_some_iff (hsize : b.nodes.length ≤ npos) {level : PriceLevel}
    {seen seen' : Finset UInt64} :
    b.validateLevel side price.ticks level seen = some seen' ↔
      ∃ indices, b.LevelChain side price level indices ∧ (∀ i ∈ indices, b.idAt i ∉ seen) ∧
        seen ∪ (indices.map b.idAt).toFinset = seen' := by
  rw [validateLevel]
  constructor
  · intro h
    split_ifs at h with hends
    obtain ⟨hcount, hhead, htail⟩ := not_or.mp hends |>.imp id not_or.mp
    obtain ⟨acc, hnodes, hacc⟩ := Option.bind_eq_some_iff.mp h
    obtain ⟨indices, hfirst, haccepted, rfl⟩ := validateNodes_iff.mp hnodes
    obtain ⟨hprevious, htotal, hvisited, hseen⟩ := addAll_eq (b := b) ⟨npos, 0, 0, seen⟩ indices
    rw [hprevious, htotal, hvisited, hseen] at hacc
    split_ifs at hacc with hlast hsums
    rw [not_not] at hlast
    obtain ⟨hlength, hunits⟩ := hsums
    have hcount' : indices.length = level.orderCount := (Nat.zero_add _).symm.trans hlength
    have hne : indices ≠ [] := by
      rintro rfl
      exact hhead hfirst.symm
    refine ⟨indices, ⟨hcount', by omega, haccepted.nodup, ?_, ?_, haccepted.links,
      haccepted.recorded, ?_⟩, haccepted.fresh, Option.some.inj hacc⟩
    · obtain ⟨i, rest, rfl⟩ := List.exists_cons_of_ne_nil hne
      exact congrArg some hfirst
    · rw [List.getLastD_eq_getLast?, List.getLast?_eq_some_getLast hne, Option.getD_some] at hlast
      rw [List.getLast?_eq_some_getLast hne, hlast]
    · rw [← hunits, UInt64.zero_add, UInt64.toNat_ofNat']
  · rintro ⟨indices, hchain, hfresh, rfl⟩
    have hinside := hchain.npos_notMem hsize
    have hends : ¬(level.orderCount = 0 ∨ level.head = npos ∨ level.tail = npos) := by
      have hcount := hchain.nonempty
      have hhead : level.head ∈ indices := List.mem_of_head? hchain.head
      have htail : level.tail ∈ indices := List.mem_of_getLast? hchain.tail
      rintro (hzero | hnpos | hnpos)
      · omega
      · exact hinside (hnpos ▸ hhead)
      · exact hinside (hnpos ▸ htail)
    have hfirst : indices.headD npos = level.head := by
      rw [List.headD_eq_head?_getD, hchain.head, Option.getD_some]
    have hnodes : b.validateNodes side price.ticks level.head ⟨npos, 0, 0, seen⟩ =
        some (ChainSummary.addAll b ⟨npos, 0, 0, seen⟩ indices) :=
      validateNodes_iff.mpr ⟨indices, hfirst, ⟨hchain.links, hinside, hchain.recorded,
        hchain.nodup, hfresh⟩, rfl⟩
    obtain ⟨hprevious, htotal, hvisited, hseen⟩ := addAll_eq (b := b) ⟨npos, 0, 0, seen⟩ indices
    have hlast : indices.getLastD npos = level.tail := by
      rw [List.getLastD_eq_getLast?, hchain.tail, Option.getD_some]
    have hunits : UInt64.ofNat (b.unitsIn indices) = level.totalQuantity.units := by
      refine UInt64.toNat_inj.mp ?_
      rw [hchain.total, UInt64.toNat_ofNat']
    rw [if_neg hends, hnodes, Option.bind_some, hprevious, htotal, hvisited, hseen, hlast,
      if_neg (fun hne => hne rfl), if_pos ⟨by rw [Nat.zero_add, hchain.count],
        by rw [UInt64.zero_add, hunits]⟩]

/-- A level has one chain. -/
theorem LevelChain.unique (hsize : b.nodes.length ≤ npos) {level : PriceLevel}
    {indices indices' : List ℕ} (h : b.LevelChain side price level indices)
    (h' : b.LevelChain side price level indices') : indices = indices' := by
  have hhead : ∀ l : List ℕ, l.head? = some level.head → l.headD npos = level.head := by
    intro l hl
    rw [List.headD_eq_head?_getD, hl, Option.getD_some]
  exact h.links.unique h'.links ((hhead _ h.head).trans (hhead _ h'.head).symm)
    (h.npos_notMem hsize) (h'.npos_notMem hsize)

/-! ### Sides -/

/-- The levels that pass have chains, and every id seen on the way is that of a node of them. -/
theorem validateSide_sound (hsize : b.nodes.length ≤ npos) {es : List (Int64 × PriceLevel)}
    {seen seen' : Finset UInt64}
    (h : BookLevels.validateSide (b.validateLevel side) es seen = some seen') :
    (∀ e ∈ es, ∃ indices, b.LevelChain side ⟨e.1⟩ e.2 indices) ∧
      ∀ x ∈ seen', x ∈ seen ∨ ∃ e ∈ es, ∃ indices, b.LevelChain side ⟨e.1⟩ e.2 indices ∧
        ∃ i ∈ indices, b.idAt i = x := by
  induction es generalizing seen with
  | nil =>
      obtain rfl := Option.some.inj h
      exact ⟨by simp, fun x hx => .inl hx⟩
  | cons e es ih =>
      obtain ⟨seen₁, hcheck, hrest⟩ := Option.bind_eq_some_iff.mp h
      obtain ⟨indices, hchain, -, rfl⟩ :=
        (validateLevel_eq_some_iff ⟨e.1⟩ hsize).mp hcheck
      obtain ⟨hchains, hseen⟩ := ih hrest
      refine ⟨List.forall_mem_cons.mpr ⟨⟨indices, hchain⟩, hchains⟩, fun x hx => ?_⟩
      rcases hseen x hx with hx | ⟨e', he', hlater⟩
      · rcases Finset.mem_union.mp hx with hx | hx
        · exact .inl hx
        · obtain ⟨i, hi, rfl⟩ := List.mem_map.mp (List.mem_toFinset.mp hx)
          exact .inr ⟨e, List.mem_cons_self, indices, hchain, i, hi, rfl⟩
      · exact .inr ⟨e', List.mem_cons_of_mem _ he', hlater⟩

/-- Levels with chains pass when no id seen before belongs to one of them, and the ids of their
chains are seen afterwards. -/
theorem validateSide_complete (hsize : b.nodes.length ≤ npos) {es : List (Int64 × PriceLevel)}
    (hchains : ∀ e ∈ es, ∃ indices, b.LevelChain side ⟨e.1⟩ e.2 indices)
    (hsorted : es.Pairwise fun a b => side.before a.1 b.1) {seen : Finset UInt64}
    (hseen : ∀ x ∈ seen, ∀ e ∈ es, ∀ record, b.orderLookup.lookup x = some record →
      ¬(record.side = side ∧ record.price = ⟨e.1⟩)) :
    ∃ seen', BookLevels.validateSide (b.validateLevel side) es seen = some seen' ∧
      (∀ x ∈ seen, x ∈ seen') ∧
      ∀ e ∈ es, ∀ indices, b.LevelChain side ⟨e.1⟩ e.2 indices → ∀ i ∈ indices,
        b.idAt i ∈ seen' := by
  induction es generalizing seen with
  | nil => exact ⟨seen, rfl, fun x hx => hx, by simp⟩
  | cons e es ih =>
      obtain ⟨hlt, hsorted⟩ := List.pairwise_cons.mp hsorted
      obtain ⟨⟨indices, hchain⟩, hchains⟩ := List.forall_mem_cons.mp hchains
      have hfresh : ∀ i ∈ indices, b.idAt i ∉ seen := fun i hi hmem =>
        hseen _ hmem e List.mem_cons_self _ (hchain.recorded i hi).record ⟨rfl, rfl⟩
      have hcheck : b.validateLevel side e.1 e.2 seen =
          some (seen ∪ (indices.map b.idAt).toFinset) :=
        (validateLevel_eq_some_iff ⟨e.1⟩ hsize).mpr ⟨indices, hchain, hfresh, rfl⟩
      have hseen' : ∀ x ∈ seen ∪ (indices.map b.idAt).toFinset, ∀ e' ∈ es, ∀ record,
          b.orderLookup.lookup x = some record →
            ¬(record.side = side ∧ record.price = ⟨e'.1⟩) := by
        intro x hx e' he' record hrecord hat
        rcases Finset.mem_union.mp hx with hx | hx
        · exact hseen x hx e' (List.mem_cons_of_mem _ he') record hrecord hat
        · -- the record of an id of this level names its price, not a later one
          obtain ⟨i, hi, rfl⟩ := List.mem_map.mp (List.mem_toFinset.mp hx)
          rw [(hchain.recorded i hi).record] at hrecord
          obtain rfl := Option.some.inj hrecord
          have hkey : e.1 = e'.1 := Price.mk.inj hat.2
          exact irrefl_of side.before _ (hkey ▸ hlt e' he')
      obtain ⟨seen', hrest, hmono, hids⟩ := ih hchains hsorted hseen'
      refine ⟨seen', ?_, fun x hx => hmono x (Finset.mem_union_left _ hx), ?_⟩
      · rw [BookLevels.validateSide, hcheck, Option.bind_some, hrest]
      · refine List.forall_mem_cons.mpr ⟨fun indices' hchain' i hi => ?_, hids⟩
        rw [← hchain.unique hsize hchain'] at hi
        exact hmono _ (Finset.mem_union_right _
          (List.mem_toFinset.mpr (List.mem_map_of_mem hi)))

/-! ### The whole check -/

/-- With crossed books allowed, the check is that of the levels, the count and the records. -/
theorem validateInvariants_allowed :
    b.validateInvariants ⟨true⟩ = true ↔
      ∃ seen, b.toBookLevels.validateLevels b.validateLevel = some seen ∧
        seen.card = b.orderLookup.keys.card ∧ b.validateLookup seen = true := by
  rw [validateInvariants_eq, Bool.true_or, Bool.true_and, Option.any_eq_true]
  simp only [Bool.and_eq_true, decide_eq_true_eq]

/-- What the level loops have seen, if they succeed. -/
theorem validateLevels_sound (hsize : b.nodes.length ≤ npos) {seen : Finset UInt64}
    (h : b.toBookLevels.validateLevels b.validateLevel = some seen) :
    (∀ side, ∀ e ∈ b.toBookLevels.entries side,
        ∃ indices, b.LevelChain side ⟨e.1⟩ e.2 indices) ∧
      ∀ x ∈ seen, ∃ side, ∃ e ∈ b.toBookLevels.entries side, ∃ indices,
        b.LevelChain side ⟨e.1⟩ e.2 indices ∧ ∃ i ∈ indices, b.idAt i = x := by
  obtain ⟨bidsSeen, hbids, hasks⟩ := Option.bind_eq_some_iff.mp h
  obtain ⟨hbidChains, hbidsSeen⟩ := validateSide_sound hsize hbids
  obtain ⟨haskChains, hasksSeen⟩ := validateSide_sound hsize hasks
  constructor
  · rintro (_ | _)
    · exact hbidChains
    · exact haskChains
  · intro x hx
    rcases hasksSeen x hx with hx | hask
    · rcases hbidsSeen x hx with hx | hbid
      · exact absurd hx (Finset.notMem_empty x)
      · exact ⟨.buy, hbid⟩
    · exact ⟨.sell, hask⟩

/-- When every level has its chain the level loops succeed and see every chain. -/
theorem validateLevels_complete (hsize : b.nodes.length ≤ npos)
    (hchains : ∀ side, ∀ e ∈ b.toBookLevels.entries side,
      ∃ indices, b.LevelChain side ⟨e.1⟩ e.2 indices) :
    ∃ seen, b.toBookLevels.validateLevels b.validateLevel = some seen ∧
      ∀ side, ∀ e ∈ b.toBookLevels.entries side, ∀ indices,
        b.LevelChain side ⟨e.1⟩ e.2 indices → ∀ i ∈ indices, b.idAt i ∈ seen := by
  have hnone : ∀ x ∈ (∅ : Finset UInt64), ∀ e ∈ b.toBookLevels.entries .buy, ∀ record,
      b.orderLookup.lookup x = some record →
        ¬(record.side = .buy ∧ record.price = ⟨e.1⟩) := by simp
  obtain ⟨bidsSeen, hbids, -, hbidIds⟩ := validateSide_complete hsize (hchains .buy)
    (b.toBookLevels.entries_sorted .buy) hnone
  have hbuys : ∀ x ∈ bidsSeen, ∀ e ∈ b.toBookLevels.entries .sell, ∀ record,
      b.orderLookup.lookup x = some record →
        ¬(record.side = .sell ∧ record.price = ⟨e.1⟩) := by
    rintro x hx e - record hrecord ⟨hside, -⟩
    rcases (validateSide_sound hsize hbids).2 x hx with hx | ⟨e', -, indices, hchain, i, hi, rfl⟩
    · exact absurd hx (Finset.notMem_empty x)
    · rw [(hchain.recorded i hi).record] at hrecord
      obtain rfl := Option.some.inj hrecord
      cases hside
  obtain ⟨seen, hasks, hmono, haskIds⟩ := validateSide_complete hsize (hchains .sell)
    (b.toBookLevels.entries_sorted .sell) hbuys
  refine ⟨seen, Option.bind_eq_some_iff.mpr ⟨bidsSeen, hbids, hasks⟩, ?_⟩
  rintro (_ | _) e he indices hchain i hi
  · exact hmono _ (hbidIds e he indices hchain i hi)
  · exact haskIds e he indices hchain i hi

/-- **The check decides well-formedness.** -/
theorem validateInvariants_iff (hsize : b.nodes.length ≤ npos) :
    b.validateInvariants ⟨true⟩ = true ↔ b.WellFormed := by
  rw [validateInvariants_allowed]
  constructor
  · rintro ⟨seen, hlevels, -, hlookup⟩
    obtain ⟨hchains, hseen⟩ := validateLevels_sound hsize hlevels
    refine ⟨fun side price level hlevel => ?_, ?_, fun id record hrecord => ?_⟩
    · exact hchains side (price.ticks, level) (BookLevels.mem_entries.mpr hlevel)
    · intro side price level indices side' price' level' indices' hchain hchain' i hi j hj hij
      exact (hchain.recorded i hi).unique (hchain'.recorded j hj) hij
    · rw [validateLookup, decide_eq_true_iff] at hlookup
      have hentry := hlookup ⟨id, record⟩ (Finmap.mem_lookup_iff.mp hrecord)
      obtain ⟨side, e, he, indices, hchain, i, hi, rfl⟩ := hseen id hentry.1
      rw [(hchain.recorded i hi).record] at hrecord
      obtain rfl := Option.some.inj hrecord
      exact ⟨e.2, indices, BookLevels.mem_entries.mp he, hchain, hi, rfl⟩
  · intro h
    obtain ⟨seen, hlevels, hids⟩ := validateLevels_complete hsize fun side e he =>
      h.chains side ⟨e.1⟩ e.2 (BookLevels.mem_entries.mp he)
    have hrecords : ∀ id record, b.orderLookup.lookup id = some record → id ∈ seen := by
      intro id record hrecord
      obtain ⟨level, indices, hlevel, hchain, hmem, rfl⟩ := h.records id record hrecord
      exact hids _ (record.price.ticks, level) (BookLevels.mem_entries.mpr hlevel) indices hchain
        _ hmem
    have hkeys : seen = b.orderLookup.keys := by
      ext x
      rw [Finmap.mem_keys]
      constructor
      · intro hx
        obtain ⟨side, e, -, indices, hchain, i, hi, rfl⟩ :=
          (validateLevels_sound hsize hlevels).2 x hx
        exact Finmap.mem_of_lookup_eq_some (hchain.recorded i hi).record
      · intro hx
        obtain ⟨record, hrecord⟩ := Finmap.mem_iff.mp hx
        exact hrecords x record hrecord
    refine ⟨seen, hlevels, by rw [hkeys], ?_⟩
    rw [validateLookup, decide_eq_true_iff]
    rintro ⟨id, record⟩ hentry
    have hrecord : b.orderLookup.lookup id = some record := Finmap.mem_lookup_iff.mpr hentry
    obtain ⟨level, indices, hlevel, hchain, hmem, -⟩ := h.records id record hrecord
    have hnode := hchain.recorded _ hmem
    refine ⟨hrecords id record hrecord, ?_, by rw [hlevel]; rfl⟩
    rw [List.getElem?_eq_getElem hnode.inRange, Option.any_some]
    have hactive := hnode.active
    rwa [nodeAt, List.getD_eq_getElem?_getD, List.getElem?_eq_getElem hnode.inRange,
      Option.getD_some] at hactive

end PooledLimitOrderBook

end Datagine
