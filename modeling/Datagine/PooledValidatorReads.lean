import Datagine.Lib.Traced
import Datagine.PooledValidator

/-!
# What the Pooled Validator Reads

The invariant check of the pooled book follows indices that it finds in the state, which may be
any state. `levelsReads` and `lookupReads` list where its loops read the node array: a chain loop
reads at an index only if the index is in range, and every node that it leaves behind has an id
of the lookup that was not seen before (`ReadsWithin`), so the reads are bounded by the number of
records.

`validateInvariantsTraced` is the check with its reads, clause for clause, and
`validateInvariantsTraced_eq` says that they are the listed ones. The lookup has no order of its
own, so that the last loop may end at any record.

## Main results

* `validateInvariants_iff_wellFormed`: with crossed books allowed, the check succeeds exactly on
  well-formed states; it reads the node array within its bounds only, and the chain loops visit
  at most one node more than there are records.
-/

namespace Datagine

open Mealy Traced

namespace PooledLimitOrderBook

variable {b : PooledLimitOrderBook} {side : Side} {price : Price}

/-! ### Reads of the node array -/

/-- The ids of the lookup that were not seen yet. -/
def unseen (b : PooledLimitOrderBook) (seen : Finset UInt64) : ℕ :=
  (b.orderLookup.keys \ seen).card

/-- Behind a node that passes there is one unseen id less. -/
theorem Passes.unseen_add {i : ℕ} {acc : ChainSummary} (h : b.Passes side price i acc) :
    b.unseen (acc.add b i).seen + 1 = b.unseen acc.seen := by
  have hkey : b.idAt i ∈ b.orderLookup.keys \ acc.seen :=
    Finset.mem_sdiff.mpr
      ⟨Finmap.mem_keys.mpr (Finmap.mem_of_lookup_eq_some h.record), h.fresh⟩
  rw [unseen, ChainSummary.add, Finset.sdiff_insert, Finset.card_erase_add_one hkey, unseen]

/-- The indices at which the chain loop reads the array: each index that is in range, up to the
first node that fails a check. -/
def nodeReads (b : PooledLimitOrderBook) (side : Side) (price : Price) (i : ℕ)
    (acc : ChainSummary) : List ℕ :=
  if i = npos then []
  else if b.nodes.length ≤ i then []
  else if _h : b.Passes side price i acc then
    i :: nodeReads b side price (nextOf b.nodes i) (acc.add b i)
  else [i]
  termination_by b.unseen acc.seen
  decreasing_by
    have hless := _h.unseen_add
    omega

/-- The reads of `validate_level`. -/
def levelReads (b : PooledLimitOrderBook) (side : Side) (price : Price) (level : PriceLevel)
    (seen : Finset UInt64) : List ℕ :=
  if level.orderCount = 0 ∨ level.head = npos ∨ level.tail = npos then []
  else b.nodeReads side price level.head ⟨npos, 0, 0, seen⟩

/-- The reads of the level loop over one side; the loop ends at a level that fails. -/
def sideReads (b : PooledLimitOrderBook) (side : Side) :
    List (Int64 × PriceLevel) → Finset UInt64 → List ℕ
  | [], _ => []
  | e :: rest, seen =>
      b.levelReads side ⟨e.1⟩ e.2 seen ++
        match b.validateLevel side e.1 e.2 seen with
        | none => []
        | some seen => b.sideReads side rest seen

/-- The reads of both level loops. -/
def levelsReads (b : PooledLimitOrderBook) : List ℕ :=
  b.sideReads .buy b.bidLevels.entries ∅ ++
    match BookLevels.validateSide (b.validateLevel .buy) b.bidLevels.entries ∅ with
    | none => []
    | some seen => b.sideReads .sell b.askLevels.entries seen

/-- What the last loop may read: the node of every record whose index is in range. The lookup
has no order and the loop may end early, so it reads some of these. -/
def lookupReads (b : PooledLimitOrderBook) : Multiset ℕ :=
  (b.orderLookup.entries.map fun e => e.2.nodeIndex).filter (· < b.nodes.length)

/-- The reads are in range, and pay for what the loop has seen: a loop that succeeds reads one
node for each id it adds, and one that fails reads at most one node more than that. -/
structure ReadsWithin (b : PooledLimitOrderBook) (seen : Finset UInt64)
    (result : Option (Finset UInt64)) (reads : List ℕ) : Prop where
  inRange : ∀ i ∈ reads, i < b.nodes.length
  bounded : reads.length ≤ b.unseen seen + 1
  paid : ∀ seen', result = some seen' → reads.length + b.unseen seen' = b.unseen seen

variable (b side price) in
/-- The reads of a chain loop. -/
theorem readsWithin_nodes (i : ℕ) (acc : ChainSummary) :
    b.ReadsWithin acc.seen ((b.validateNodes side price.ticks i acc).map ChainSummary.seen)
      (b.nodeReads side price i acc) := by
  fun_induction nodeReads b side price i acc with
  | case1 acc =>
      rw [validateNodes, if_pos rfl]
      refine ⟨by simp, by simp, fun seen' h => ?_⟩
      obtain rfl := Option.some.inj h
      simp
  | case2 i acc hi hrange =>
      refine ⟨by simp, by simp, fun seen' h => ?_⟩
      obtain ⟨acc', hnodes, -⟩ := Option.map_eq_some_iff.mp h
      have hin := ((validateNodes_eq_some_iff hi).mp hnodes).1.inRange
      omega
  | case3 i acc hi hrange hpasses ih =>
      have hless := hpasses.unseen_add
      refine ⟨List.forall_mem_cons.mpr ⟨by omega, ih.inRange⟩, ?_, fun seen' h => ?_⟩
      · have hbound := ih.bounded
        rw [List.length_cons]
        omega
      · obtain ⟨acc', hnodes, rfl⟩ := Option.map_eq_some_iff.mp h
        have hrest := ((validateNodes_eq_some_iff hi).mp hnodes).2
        have hpaid := ih.paid acc'.seen (by rw [hrest]; rfl)
        rw [List.length_cons]
        omega
  | case4 i acc hi hrange hpasses =>
      refine ⟨by simpa using hrange, by simp, fun seen' h => ?_⟩
      obtain ⟨acc', hnodes, -⟩ := Option.map_eq_some_iff.mp h
      exact absurd ((validateNodes_eq_some_iff hi).mp hnodes).1 hpasses

variable (b side price) in
/-- The reads of a level. -/
theorem readsWithin_level (level : PriceLevel) (seen : Finset UInt64) :
    b.ReadsWithin seen (b.validateLevel side price.ticks level seen)
      (b.levelReads side price level seen) := by
  rw [levelReads, validateLevel]
  split_ifs with hends
  · exact ⟨by simp, by simp, fun seen' h => by cases h⟩
  · obtain ⟨hrange, hbounded, hpaid⟩ :=
      readsWithin_nodes b side price level.head ⟨npos, 0, 0, seen⟩
    refine ⟨hrange, hbounded, fun seen' h => ?_⟩
    obtain ⟨acc, hnodes, hacc⟩ := Option.bind_eq_some_iff.mp h
    split_ifs at hacc
    exact hpaid seen' (by rw [hnodes, ← hacc]; rfl)

/-- Reads one after another. -/
theorem ReadsWithin.append {seen seen₁ : Finset UInt64} {result : Option (Finset UInt64)}
    {reads reads' : List ℕ} (h : b.ReadsWithin seen (some seen₁) reads)
    (h' : b.ReadsWithin seen₁ result reads') : b.ReadsWithin seen result (reads ++ reads') := by
  have hpaid := h.paid seen₁ rfl
  refine ⟨?_, ?_, fun seen' hresult => ?_⟩
  · exact List.forall_mem_append.mpr ⟨h.inRange, h'.inRange⟩
  · have hbounded := h'.bounded
    rw [List.length_append]
    omega
  · have hpaid' := h'.paid seen' hresult
    rw [List.length_append]
    omega

/-- A failure ends the reads. -/
theorem ReadsWithin.stop {seen : Finset UInt64} {reads : List ℕ}
    (h : b.ReadsWithin seen none reads) : b.ReadsWithin seen none (reads ++ []) := by
  rwa [List.append_nil]

variable (b side) in
/-- The reads of one side. -/
theorem readsWithin_side (es : List (Int64 × PriceLevel)) (seen : Finset UInt64) :
    b.ReadsWithin seen (BookLevels.validateSide (b.validateLevel side) es seen)
      (b.sideReads side es seen) := by
  induction es generalizing seen with
  | nil =>
      refine ⟨by simp [sideReads], by simp [sideReads], fun seen' h => ?_⟩
      obtain rfl := Option.some.inj h
      simp [sideReads]
  | cons e es ih =>
      have hlevel := readsWithin_level b side ⟨e.1⟩ e.2 seen
      rw [BookLevels.validateSide, sideReads]
      dsimp only at hlevel
      cases hcheck : b.validateLevel side e.1 e.2 seen with
      | none =>
          rw [hcheck] at hlevel
          exact hlevel.stop
      | some seen₁ =>
          rw [hcheck] at hlevel
          exact hlevel.append (ih seen₁)

/-- The reads of both sides. -/
theorem readsWithin_levels (b : PooledLimitOrderBook) :
    b.ReadsWithin ∅ (b.toBookLevels.validateLevels b.validateLevel) b.levelsReads := by
  have hbids := readsWithin_side b .buy b.bidLevels.entries ∅
  rw [BookLevels.validateLevels, levelsReads]
  cases hcheck : BookLevels.validateSide (b.validateLevel .buy) b.bidLevels.entries ∅ with
  | none =>
      rw [hcheck] at hbids
      exact hbids.stop
  | some seen =>
      rw [hcheck] at hbids
      exact hbids.append (readsWithin_side b _ _ seen)

/-! ### The check, with its reads -/

/-- The loop of `validate_level`, with the indices at which it reads the array. -/
def validateNodesTraced (b : PooledLimitOrderBook) (side : Side) (price : Int64) (index : ℕ)
    (acc : ChainSummary) : List ℕ × Option ChainSummary :=
  if index = npos then done (some acc)
  else
    match b.nodes[index]? with
    | none => done none
    | some node =>
        if !node.active then ([index], none)
        else if node.prev ≠ acc.previous then ([index], none)
        else if node.quantity.units = 0 then ([index], none)
        else if node.orderId.value ∈ acc.seen then ([index], none)
        else
          match hlookup : b.orderLookup.lookup node.orderId.value with
          | none => ([index], none)
          | some record =>
              if record.side ≠ side then ([index], none)
              else if record.price.ticks ≠ price then ([index], none)
              else if record.quantity ≠ node.quantity then ([index], none)
              else if record.timestamp ≠ node.timestamp then ([index], none)
              else if record.nodeIndex ≠ index then ([index], none)
              else
                andThen ([index], ()) fun _ =>
                  validateNodesTraced b side price node.next
                    ⟨index, acc.total + node.quantity.units, acc.visited + 1,
                      insert node.orderId.value acc.seen⟩
  termination_by (b.orderLookup.keys \ acc.seen).card
  decreasing_by
    have hkey : node.orderId.value ∈ b.orderLookup.keys :=
      Finmap.mem_keys.mpr (Finmap.mem_of_lookup_eq_some hlookup)
    refine Finset.card_lt_card (Finset.ssubset_iff_of_subset ?_ |>.mpr ?_)
    · exact Finset.sdiff_subset_sdiff (Finset.Subset.refl _) (Finset.subset_insert _ _)
    · exact ⟨_, Finset.mem_sdiff.mpr ⟨hkey, by assumption⟩, by simp⟩

/-- `validate_level`, with its reads. -/
def validateLevelTraced (b : PooledLimitOrderBook) (side : Side) (price : Int64)
    (level : PriceLevel) (seen : Finset UInt64) : List ℕ × Option (Finset UInt64) :=
  if level.orderCount = 0 ∨ level.head = npos ∨ level.tail = npos then done none
  else
    andThenSome (b.validateNodesTraced side price level.head ⟨npos, 0, 0, seen⟩) fun acc =>
      if acc.previous ≠ level.tail then done none
      else if acc.visited = level.orderCount ∧ acc.total = level.totalQuantity.units then
        done (some acc.seen)
      else done none

/-- The level loop over one side, with its reads. -/
def validateSideTraced (b : PooledLimitOrderBook) (side : Side) :
    List (Int64 × PriceLevel) → Finset UInt64 → List ℕ × Option (Finset UInt64)
  | [], seen => done (some seen)
  | e :: rest, seen =>
      andThenSome (b.validateLevelTraced side e.1 e.2 seen) (b.validateSideTraced side rest)

/-- The level loops, with their reads. -/
def validateLevelsTraced (b : PooledLimitOrderBook) : List ℕ × Option (Finset UInt64) :=
  andThenSome (b.validateSideTraced .buy b.bidLevels.entries ∅)
    (b.validateSideTraced .sell b.askLevels.entries)

/-- The last loop over the records in some order, with its reads: a record whose id was not
seen or whose index is out of range is not followed to the array. -/
def validateLookupTraced (b : PooledLimitOrderBook) (seen : Finset UInt64) :
    List (Sigma fun _ : UInt64 => OrderRecord) → List ℕ × Bool
  | [] => done true
  | e :: rest =>
      if e.1 ∉ seen then done false
      else
        match b.nodes[e.2.nodeIndex]? with
        | none => done false
        | some node =>
            andThen ([e.2.nodeIndex], node.active) fun active =>
              if !active then done false
              else if (b.findLevel e.2.side e.2.price).isNone then done false
              else b.validateLookupTraced seen rest

/-- `validate_invariants`, with its reads, when the lookup lists its records in this order. -/
def validateInvariantsTraced (b : PooledLimitOrderBook) (options : InvariantOptions)
    (records : List (Sigma fun _ : UInt64 => OrderRecord)) : List ℕ × Bool :=
  if !options.allowCrossedBook && b.toBookLevels.crossed then done false
  else if !BookLevels.topMatches makePriceLevelView b.bidLevels.entries b.topOfBook.bid then
    done false
  else if !BookLevels.topMatches makePriceLevelView b.askLevels.entries b.topOfBook.ask then
    done false
  else
    andThen b.validateLevelsTraced fun seen? =>
      match seen? with
      | none => done false
      | some seen =>
          if seen.card ≠ b.orderLookup.keys.card then done false
          else b.validateLookupTraced seen records

/-- One iteration at a node of the array, with its read. -/
theorem validateNodesTraced_of_node {i : ℕ} {acc : ChainSummary} (hi : i ≠ npos)
    (hrange : i < b.nodes.length) :
    b.validateNodesTraced side price.ticks i acc =
      if b.Passes side price i acc then
        andThen ([i], ()) fun _ =>
          b.validateNodesTraced side price.ticks (nextOf b.nodes i) (acc.add b i)
      else ([i], none) := by
  have hnode : b.nodes[i]? = some (nodeAt b.nodes i) := by
    rw [nodeAt, List.getD_eq_getElem?_getD, List.getElem?_eq_getElem hrange, Option.getD_some]
  rw [validateNodesTraced, if_neg hi, hnode]
  exact checks_eq hnode ([i], none) _

variable (b side price) in
/-- The chain loop makes the listed reads. -/
theorem validateNodesTraced_eq (i : ℕ) (acc : ChainSummary) :
    b.validateNodesTraced side price.ticks i acc =
      (b.nodeReads side price i acc, b.validateNodes side price.ticks i acc) := by
  fun_induction nodeReads b side price i acc with
  | case1 acc => rw [validateNodesTraced, validateNodes, if_pos rfl, if_pos rfl, done]
  | case2 i acc hi hrange =>
      have hnone : b.nodes[i]? = none := List.getElem?_eq_none_iff.mpr hrange
      rw [validateNodesTraced, validateNodes, if_neg hi, if_neg hi, hnone]
      rfl
  | case3 i acc hi hrange hpasses ih =>
      have hin := Nat.not_le.mp hrange
      rw [validateNodesTraced_of_node hi hin, validateNodes_of_node hi hin, if_pos hpasses,
        if_pos hpasses, andThen, ih, List.singleton_append]
  | case4 i acc hi hrange hpasses =>
      have hin := Nat.not_le.mp hrange
      rw [validateNodesTraced_of_node hi hin, validateNodes_of_node hi hin, if_neg hpasses,
        if_neg hpasses]

variable (b side) in
/-- A level is checked with the listed reads. -/
theorem validateLevelTraced_eq (price : Int64) (level : PriceLevel) (seen : Finset UInt64) :
    b.validateLevelTraced side price level seen =
      (b.levelReads side ⟨price⟩ level seen, b.validateLevel side price level seen) := by
  rw [validateLevelTraced, levelReads, validateLevel]
  split_ifs with hends
  · rfl
  · have hnodes := validateNodesTraced_eq b side ⟨price⟩ level.head ⟨npos, 0, 0, seen⟩
    dsimp only at hnodes
    rw [hnodes]
    refine Prod.ext ?_ ?_
    · cases hresult : b.validateNodes side price level.head ⟨npos, 0, 0, seen⟩ with
      | none => exact andThenSome_none rfl _
      | some acc =>
          rw [andThenSome_some rfl]
          split_ifs <;> exact List.append_nil _
    · rw [andThenSome_snd]
      congr 1
      funext acc
      split_ifs <;> rfl

variable (b side) in
/-- So is one side. -/
theorem validateSideTraced_eq (es : List (Int64 × PriceLevel)) (seen : Finset UInt64) :
    b.validateSideTraced side es seen =
      (b.sideReads side es seen, BookLevels.validateSide (b.validateLevel side) es seen) := by
  induction es generalizing seen with
  | nil => rfl
  | cons e es ih =>
      rw [validateSideTraced, sideReads, BookLevels.validateSide, validateLevelTraced_eq]
      refine Prod.ext ?_ ?_
      · cases hresult : b.validateLevel side e.1 e.2 seen with
        | none =>
            rw [andThenSome_none rfl]
            exact (List.append_nil _).symm
        | some seen' => rw [andThenSome_some rfl, ih]
      · rw [andThenSome_snd]
        congr 1
        funext seen'
        rw [ih]

/-- So are both sides. -/
theorem validateLevelsTraced_eq (b : PooledLimitOrderBook) :
    b.validateLevelsTraced = (b.levelsReads, b.toBookLevels.validateLevels b.validateLevel) := by
  rw [validateLevelsTraced, levelsReads, BookLevels.validateLevels, validateSideTraced_eq]
  refine Prod.ext ?_ ?_
  · cases hresult : BookLevels.validateSide (b.validateLevel .buy) b.bidLevels.entries ∅ with
    | none =>
        rw [andThenSome_none rfl]
        exact (List.append_nil _).symm
    | some seen => rw [andThenSome_some rfl, validateSideTraced_eq]
  · rw [andThenSome_snd]
    congr 1
    funext seen
    rw [validateSideTraced_eq]

/-- The last loop checks the records up to the first that fails, and reads no more than their
nodes. -/
theorem validateLookupTraced_spec (b : PooledLimitOrderBook) (seen : Finset UInt64)
    (records : List (Sigma fun _ : UInt64 => OrderRecord)) :
    ((b.validateLookupTraced seen records).2 = true ↔
        ∀ e ∈ records, e.1 ∈ seen ∧ (b.nodes[e.2.nodeIndex]?.any OrderNode.active) = true ∧
          (b.findLevel e.2.side e.2.price).isSome) ∧
      (b.validateLookupTraced seen records).1.Sublist
        ((records.map fun e => e.2.nodeIndex).filter (· < b.nodes.length)) := by
  induction records with
  | nil => exact ⟨by simp [validateLookupTraced], List.Sublist.refl _⟩
  | cons e records ih =>
      obtain ⟨hpassed, hreads⟩ := ih
      rw [validateLookupTraced, List.forall_mem_cons, List.map_cons, ← hpassed]
      by_cases hseen : e.1 ∈ seen
      · rw [if_neg (not_not_intro hseen)]
        cases hnode : b.nodes[e.2.nodeIndex]? with
        | none => exact ⟨by simp, List.nil_sublist _⟩
        | some node =>
            have hrange := (List.getElem?_eq_some_iff.mp hnode).1
            rw [List.filter_cons_of_pos (by simpa using hrange)]
            dsimp only [andThen, List.singleton_append]
            split_ifs with hactive hlevel
            · exact ⟨iff_of_false Bool.false_ne_true fun h =>
                absurd h.1.2.1 (by simpa using hactive), (List.nil_sublist _).cons_cons _⟩
            · exact ⟨iff_of_false Bool.false_ne_true fun h =>
                absurd h.1.2.2 (by simpa using hlevel), (List.nil_sublist _).cons_cons _⟩
            · have hpasses : e.1 ∈ seen ∧ (some node).any OrderNode.active = true ∧
                  (b.findLevel e.2.side e.2.price).isSome :=
                ⟨hseen, by simpa using hactive,
                  Option.ne_none_iff_isSome.mp (by simpa using hlevel)⟩
              exact ⟨(and_iff_right hpasses).symm, hreads.cons_cons _⟩
      · rw [if_pos hseen]
        exact ⟨by simp [hseen], List.nil_sublist _⟩

/-- **The reads are those of the check**: behind those of the chain loops it reads the nodes of
some records. -/
theorem validateInvariantsTraced_eq (b : PooledLimitOrderBook)
    {records : List (Sigma fun _ : UInt64 => OrderRecord)}
    (hrecords : (records : Multiset _) = b.orderLookup.entries) :
    ∃ reads : List ℕ, (reads : Multiset ℕ) ≤ b.lookupReads ∧
      b.validateInvariantsTraced ⟨true⟩ records =
        (b.levelsReads ++ reads, b.validateInvariants ⟨true⟩) := by
  have hbid : BookLevels.topMatches makePriceLevelView b.bidLevels.entries b.topOfBook.bid =
      true := BookLevels.topMatches_head _ _
  have hask : BookLevels.topMatches makePriceLevelView b.askLevels.entries b.topOfBook.ask =
      true := BookLevels.topMatches_head _ _
  rw [validateInvariantsTraced, validateInvariants, validateLevelsTraced_eq, hbid, hask]
  simp only [Bool.not_true, Bool.false_and, Bool.false_eq_true, if_false, andThen]
  cases b.toBookLevels.validateLevels b.validateLevel with
  | none => exact ⟨[], Multiset.zero_le _, rfl⟩
  | some seen =>
      dsimp only
      split_ifs
      · exact ⟨[], Multiset.zero_le _, rfl⟩
      · obtain ⟨hpassed, hreads⟩ := b.validateLookupTraced_spec seen records
        refine ⟨(b.validateLookupTraced seen records).1, ?_, Prod.ext rfl ?_⟩
        · rw [lookupReads, ← hrecords, Multiset.map_coe, Multiset.filter_coe]
          exact Multiset.coe_le.mpr hreads.subperm
        · rw [Bool.eq_iff_iff, hpassed, validateLookup, decide_eq_true_iff, ← hrecords]
          rfl

/-- **The validator decides well-formedness on every state.** Whatever the links, levels and
records are, in an array not larger than `npos`, the check with crossed books allowed succeeds
if and only if the state is well formed. Its loops read the array within its bounds only, and
the chain loops together read at most one node more than there are records; these are the reads
that the check makes, in whatever order the lookup lists its records. -/
theorem validateInvariants_iff_wellFormed (b : PooledLimitOrderBook)
    (hsize : b.nodes.length ≤ npos) :
    (b.validateInvariants ⟨true⟩ = true ↔ b.WellFormed) ∧
      (∀ i ∈ b.levelsReads, i < b.capacity) ∧ (∀ i ∈ b.lookupReads, i < b.capacity) ∧
      b.levelsReads.length ≤ b.orderLookup.keys.card + 1 ∧
      ∀ records : List (Sigma fun _ : UInt64 => OrderRecord),
        (records : Multiset _) = b.orderLookup.entries →
          ∃ reads : List ℕ, (reads : Multiset ℕ) ≤ b.lookupReads ∧
            b.validateInvariantsTraced ⟨true⟩ records =
              (b.levelsReads ++ reads, b.validateInvariants ⟨true⟩) := by
  obtain ⟨hrange, hbounded, -⟩ := readsWithin_levels b
  rw [unseen, Finset.sdiff_empty] at hbounded
  exact ⟨validateInvariants_iff hsize, hrange, fun i hi => (Multiset.mem_filter.mp hi).2,
    hbounded, fun records hrecords => b.validateInvariantsTraced_eq hrecords⟩

/-- A pool with two orders at one price: the chain of the level is well formed. -/
theorem validateInvariants_iff_wellFormed_twoOrders :
    let b := finalState exec (new 2)
      [.addOrder ⟨1⟩ .buy ⟨100⟩ ⟨5⟩ ⟨0⟩, .addOrder ⟨2⟩ .buy ⟨100⟩ ⟨7⟩ ⟨1⟩]
    b.WellFormed ∧ ∃ level, b.LevelChain .buy ⟨100⟩ level [0, 1] := by
  intro b
  obtain ⟨-, A, ⟨hrep, -⟩, -⟩ := run_refines 2
    [.addOrder ⟨1⟩ .buy ⟨100⟩ ⟨5⟩ ⟨0⟩, .addOrder ⟨2⟩ .buy ⟨100⟩ ⟨7⟩ ⟨1⟩]
  have hsize : b.nodes.length ≤ npos := by decide +kernel
  have hwell : b.WellFormed := (validateInvariants_iff_wellFormed b hsize).1.mp
    ((hrep.validateInvariants_iff ⟨true⟩).mpr (.inl rfl))
  have hlevel : b.findLevel .buy ⟨100⟩ = some ⟨⟨12⟩, 2, 0, 1⟩ := by decide +kernel
  obtain ⟨indices, hchain⟩ := hwell.chains _ _ _ hlevel
  obtain ⟨i, j, rfl⟩ := List.length_eq_two.mp hchain.count
  obtain rfl : i = 0 := Option.some.inj hchain.head
  obtain rfl : j = 1 := Option.some.inj hchain.tail
  exact ⟨hwell, _, hchain⟩

end PooledLimitOrderBook

end Datagine
