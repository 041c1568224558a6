import Mathlib.Algebra.Order.BigOperators.Group.List
import Mathlib.Algebra.Order.Group.Nat
import Datagine.BookRuns

/-!
# When the Reported Quantities Are Exact

Both books keep the total of a level in a 64-bit word that every add, reduction and removal
updates with wrapping arithmetic, and the invariant check recomputes it with the same
arithmetic. The reported total is therefore the sum of the resting quantities modulo
`2 ^ 64`, and it is the sum itself exactly while no level holds `2 ^ 64` units or more.

`exactTotals_iff_addFits` says which runs stay in that range: those in which every add that
the book accepts fits into its level. Two orders of `2 ^ 63` units at one price do not
(`exactTotals_overflow`).
-/

namespace Datagine

open Mealy KeyedList

/-! ### Exact totals -/

/-- The quantity resting at a level of a snapshot, as an unbounded number. -/
def PriceLevelSnapshot.restingUnits (l : PriceLevelSnapshot) : ℕ :=
  (l.orders.map fun o => o.quantity.units.toNat).sum

/-- The quantity resting at a price, as an unbounded number; nothing rests where there is
no level. -/
def BookSnapshot.restingUnits (S : BookSnapshot) (s : Side) (p : Price) : ℕ :=
  match (S.side s).find? fun l => l.price = p with
  | none => 0
  | some l => l.restingUnits

/-- Every quantity that the snapshot, the top of the book and the depth report is the sum
of the quantities of the orders it stands for; so it is not zero, and at least that of each
of these orders. -/
structure ExactTotals (S : BookSnapshot) (top : TopOfBook) (depth : ℕ → BookDepth) : Prop where
  snapshot : ∀ s, ∀ l ∈ S.side s, l.quantity.units.toNat = l.restingUnits
  topBid : top.bid.map (fun v => v.quantity.units.toNat) =
    S.bids.head?.map PriceLevelSnapshot.restingUnits
  topAsk : top.ask.map (fun v => v.quantity.units.toNat) =
    S.asks.head?.map PriceLevelSnapshot.restingUnits
  depthBids : ∀ n, (depth n).bids.map (fun v => v.quantity.units.toNat) =
    (S.bids.take n).map PriceLevelSnapshot.restingUnits
  depthAsks : ∀ n, (depth n).asks.map (fun v => v.quantity.units.toNat) =
    (S.asks.take n).map PriceLevelSnapshot.restingUnits
  positive : ∀ s, ∀ l ∈ S.side s, l.orders ≠ [] → l.quantity.units ≠ 0
  atLeast : ∀ s, ∀ l ∈ S.side s, ∀ o ∈ l.orders, o.quantity.units ≤ l.quantity.units

/-- No level of the live list holds `2 ^ 64` units. -/
def LevelsFit (L : List LiveOrder) : Prop := ∀ s p, totalUnits (ordersAt L s p) < 2 ^ 64

/-- The quantities of a level of the snapshot sum up to those of its queue. -/
theorem ShowsSide.restingUnits {L : List LiveOrder} {s : Side} {levels : List PriceLevelSnapshot}
    (h : ShowsSide L s levels) {l : PriceLevelSnapshot} (hl : l ∈ levels) :
    l.restingUnits = totalUnits (ordersAt L s l.price) := by
  rw [PriceLevelSnapshot.restingUnits, h.orders l hl, List.map_map, totalUnits]
  rfl

/-- A level reports its sum modulo `2 ^ 64`. -/
theorem ShowsSide.toNat_quantity {L : List LiveOrder} {s : Side}
    {levels : List PriceLevelSnapshot} (h : ShowsSide L s levels) {l : PriceLevelSnapshot}
    (hl : l ∈ levels) : l.quantity.units.toNat = l.restingUnits % 2 ^ 64 := by
  rw [h.restingUnits hl, h.quantity l hl, totalQuantity]
  exact UInt64.toNat_ofNat'

/-- What rests at a price, off the snapshot and off the list. -/
theorem restingUnits_eq {L : List LiveOrder} {S : BookSnapshot}
    (h : ∀ s, ShowsSide L s (S.side s)) (s : Side) (p : Price) :
    S.restingUnits s p = totalUnits (ordersAt L s p) := by
  rw [BookSnapshot.restingUnits]
  cases hfind : (S.side s).find? fun l => l.price = p with
  | none =>
      have hnil : ordersAt L s p = [] := by
        by_contra hne
        obtain ⟨l, hl, hprice⟩ := List.mem_map.mp
          (((h s).prices p).mpr (ordersAt_ne_nil_iff.mp hne))
        exact List.find?_eq_none.mp hfind l hl (by simpa using hprice)
      rw [hnil]
      rfl
  | some l =>
      have hprice : l.price = p := by simpa using List.find?_some hfind
      dsimp only
      rw [(h s).restingUnits (List.mem_of_find?_eq_some hfind), hprice]

/-- **Reported totals are exact exactly while every level fits into a word.** -/
theorem exactTotals_iff {L : List LiveOrder} {S : BookSnapshot}
    (h : ∀ s, ShowsSide L s (S.side s)) (hpos : ∀ o ∈ L, o.quantity.units ≠ 0) :
    ExactTotals S S.top S.depth ↔ LevelsFit L := by
  constructor
  · intro hexact s p
    by_cases hnil : ordersAt L s p = []
    · simp [hnil, totalUnits]
    · obtain ⟨l, hl, rfl⟩ := List.mem_map.mp
        (((h s).prices p).mpr (ordersAt_ne_nil_iff.mp hnil))
      rw [← (h s).restingUnits hl, ← hexact.snapshot s l hl]
      exact l.quantity.units.toNat_lt
  · intro hfit
    have hlevel : ∀ s, ∀ l ∈ S.side s, l.quantity.units.toNat = l.restingUnits := by
      intro s l hl
      have hlt := hfit s l.price
      rw [← (h s).restingUnits hl] at hlt
      rw [(h s).toNat_quantity hl, Nat.mod_eq_of_lt hlt]
    have hatLeast : ∀ s, ∀ l ∈ S.side s, ∀ o ∈ l.orders, o.quantity.units ≤ l.quantity.units := by
      intro s l hl o ho
      rw [UInt64.le_iff_toNat_le, hlevel s l hl]
      exact List.le_sum_of_mem (List.mem_map.mpr ⟨o, ho, rfl⟩)
    have hmap : ∀ s, ∀ levels : List PriceLevelSnapshot, (∀ l ∈ levels, l ∈ S.side s) →
        (levels.map PriceLevelSnapshot.toView).map (fun v => v.quantity.units.toNat) =
          levels.map PriceLevelSnapshot.restingUnits := by
      intro s levels hsub
      rw [List.map_map]
      exact List.map_congr_left fun l hl => hlevel s l (hsub l hl)
    have hhead : ∀ s, ((S.side s).head?.map PriceLevelSnapshot.toView).map
        (fun v => v.quantity.units.toNat) =
          (S.side s).head?.map PriceLevelSnapshot.restingUnits := by
      intro s
      rw [← List.head?_map, ← List.head?_map, hmap s _ fun l hl => hl, List.head?_map]
    refine ⟨hlevel, hhead .buy, hhead .sell, fun n => ?_, fun n => ?_, ?_, hatLeast⟩
    · exact hmap .buy _ fun l hl => List.mem_of_mem_take hl
    · exact hmap .sell _ fun l hl => List.mem_of_mem_take hl
    · -- a level with an order reports at least the positive quantity of that order
      intro s l hl hne hzero
      obtain ⟨o, ho⟩ := List.exists_mem_of_ne_nil _ hne
      have hle := hatLeast s l hl o ho
      rw [(h s).orders l hl] at ho
      obtain ⟨a, ha, rfl⟩ := List.mem_map.mp ho
      have hapos := hpos a (List.mem_of_mem_filter ha)
      rw [hzero, UInt64.le_iff_toNat_le] at hle
      refine hapos (UInt64.toNat_inj.mp ?_)
      simpa [LiveOrder.view] using hle

/-! ### What a step does to the levels -/

/-- An add that would be accepted fits into its level; every other operation only lowers
levels. -/
def Reference.AddFits (L : List LiveOrder) : BookOp → Prop
  | .addOrder id side price quantity _ =>
      quantity.units ≠ 0 → id ∉ L.map LiveOrder.orderId →
        totalUnits (ordersAt L side price) + quantity.units.toNat < 2 ^ 64
  | _ => True

/-- Levels fit when no level grows. -/
theorem levelsFit_of_le {L L' : List LiveOrder} (h : LevelsFit L)
    (hle : ∀ s p, totalUnits (ordersAt L' s p) ≤ totalUnits (ordersAt L s p)) : LevelsFit L' :=
  fun s p => lt_of_le_of_lt (hle s p) (h s p)

/-- Deleting an order lowers levels. -/
theorem totalUnits_eraseKey_le (L : List LiveOrder) (id : OrderId) (s : Side) (p : Price) :
    totalUnits (ordersAt (eraseKey LiveOrder.orderId id L) s p) ≤ totalUnits (ordersAt L s p) := by
  have hsub : (eraseKey LiveOrder.orderId id L).Sublist L := List.filter_sublist
  exact ((hsub.filter _).map _).sum_le_sum fun _ _ => Nat.zero_le _

/-- Lowering the quantity of an order lowers levels. -/
theorem totalUnits_setQuantity_le (A : RestingOrders) {id : OrderId} {o : Resting}
    (ho : A.find id = some o) {q : Quantity} (hq : q.units ≤ o.quantity.units) (s : Side)
    (p : Price) :
    totalUnits (ordersAt (Reference.setQuantity A.live id q) s p) ≤
      totalUnits (ordersAt A.live s p) := by
  obtain ⟨hmem, rfl⟩ := RestingOrders.find_eq_some_iff.mp ho
  have hnd : (A.live.map LiveOrder.orderId).Nodup := by
    rw [RestingOrders.live, List.map_map]
    exact A.idsNodup
  have hupdate : ordersAt (Reference.setQuantity A.live o.orderId q) s p =
      updateKey LiveOrder.orderId o.orderId (LiveOrder.withQuantity q) (ordersAt A.live s p) :=
    filter_updateKey _ fun _ => rfl
  rw [hupdate]
  by_cases hat : o.toLiveOrder ∈ ordersAt A.live s p
  · have hndq : ((ordersAt A.live s p).map LiveOrder.orderId).Nodup :=
      hnd.sublist (List.filter_sublist.map _)
    have hsum := sum_updateKey hndq hat (fun o => o.quantity.units.toNat)
      (LiveOrder.withQuantity q)
    have hle := UInt64.le_iff_toNat_le.mp hq
    simp only [LiveOrder.withQuantity] at hsum
    simp only [totalUnits]
    omega
  · rw [updateKey_of_not_mem]
    intro hid
    obtain ⟨a, ha, heq⟩ := List.mem_map.mp hid
    have hao : a = o.toLiveOrder := List.inj_on_of_nodup_map hnd (List.mem_of_mem_filter ha)
      (List.mem_map_of_mem hmem) heq
    exact hat (hao ▸ ha)

/-- An accepted add raises its own level and no other. -/
theorem totalUnits_append (L : List LiveOrder) (o : LiveOrder) (s : Side) (p : Price) :
    totalUnits (ordersAt (L ++ [o]) s p) =
      totalUnits (ordersAt L s p) +
        if o.side = s ∧ o.price = p then o.quantity.units.toNat else 0 := by
  by_cases h : o.side = s ∧ o.price = p
  · simp [ordersAt, totalUnits, LiveOrder.restsAt, h]
  · simp [ordersAt, totalUnits, LiveOrder.restsAt, h]

/-- **One step.** From levels that fit, a step leaves levels that fit exactly when an add
that it accepts fits. -/
theorem levelsFit_exec_iff (A : RestingOrders) (h : LevelsFit A.live) (op : BookOp) :
    LevelsFit (Reference.exec A.live op).2 ↔ Reference.AddFits A.live op := by
  cases op with
  | addOrder id side price quantity timestamp =>
      simp only [Reference.exec, Reference.addOrder, Reference.AddFits]
      split_ifs with hq hid
      · simp [hq, h]
      · simp [hid, h]
      · constructor
        · intro hfit _ _
          have hlevel := hfit side price
          rwa [totalUnits_append, if_pos ⟨rfl, rfl⟩] at hlevel
        · intro hfit s p
          rw [totalUnits_append]
          split_ifs with hsp
          · obtain ⟨rfl, rfl⟩ := hsp
            exact hfit hq hid
          · exact h s p
  | cancelOrder id =>
      simp only [Reference.exec, Reference.cancelOrder, Reference.AddFits, iff_true]
      cases findKey LiveOrder.orderId id A.live with
      | none => exact h
      | some o => exact levelsFit_of_le h (totalUnits_eraseKey_le _ _)
  | modifyOrder id q =>
      simp only [Reference.exec, Reference.modifyOrder, Reference.AddFits, iff_true,
        RestingOrders.findKey_live]
      split_ifs with hq
      · exact h
      · cases hfind : A.find id with
        | none => exact h
        | some o =>
            simp only [Option.map_some]
            split_ifs with hgt
            · exact h
            · exact levelsFit_of_le h
                (totalUnits_setQuantity_le A hfind (UInt64.not_lt.mp hgt))
  | executeOrder id q =>
      simp only [Reference.exec, Reference.executeOrder, Reference.AddFits, iff_true,
        RestingOrders.findKey_live]
      split_ifs with hq
      · exact h
      · cases hfind : A.find id with
        | none => exact h
        | some o =>
            simp only [Option.map_some]
            split_ifs with hgt heq
            · exact h
            · exact levelsFit_of_le h (totalUnits_eraseKey_le _ _)
            · have hle := UInt64.not_lt.mp hgt
              refine levelsFit_of_le h (totalUnits_setQuantity_le A hfind ?_)
              rw [UInt64.le_iff_toNat_le, UInt64.toNat_sub_of_le _ _ hle]
              omega
  | clear =>
      simp only [Reference.exec, Reference.AddFits, iff_true]
      intro s p
      simp [ordersAt, totalUnits]

/-! ### Runs -/

/-- An operation that the rules reject does not have to fit. -/
theorem levelsFit_boundedExec_iff {N : ℕ} (A : RestingOrders) (h : LevelsFit A.live)
    (op : BookOp) :
    LevelsFit (Reference.boundedExec N A.live op).2 ↔
      (¬Reference.LacksRoom N A.live op → Reference.AddFits A.live op) := by
  by_cases hlacks : Reference.LacksRoom N A.live op
  · rw [Reference.boundedExec, if_pos hlacks]
    exact ⟨fun _ hnot => absurd hlacks hnot, fun _ => h⟩
  · rw [Reference.boundedExec, if_neg hlacks, levelsFit_exec_iff A h]
    exact ⟨fun hfit _ => hfit, fun hfit => hfit hlacks⟩

namespace LimitOrderBook

/-- Every reported quantity of the book is exact. -/
def Exact (b : LimitOrderBook) : Prop := ExactTotals b.snapshot b.topOfBook b.depth

/-- An add of a positive quantity under an id that is not live fits into its level. -/
def AddFits (b : LimitOrderBook) : BookOp → Prop
  | .addOrder id side price quantity _ =>
      quantity.units ≠ 0 → id.value ∉ b.orderLookup →
        b.snapshot.restingUnits side price + quantity.units.toNat < 2 ^ 64
  | _ => True

variable {b : LimitOrderBook} {A : RestingOrders}

/-- Totals are exact exactly if all levels fit. -/
theorem Represents.exact_iff (h : Represents b A) : b.Exact ↔ LevelsFit A.live := by
  have hdepth : b.depth = b.snapshot.depth := funext (depth_eq b)
  rw [Exact, topOfBook_eq, hdepth]
  exact exactTotals_iff h.showsSide A.live_positive

/-- Whether an add fits is read off the list. -/
theorem Represents.addFits_iff (h : Represents b A) (op : BookOp) :
    b.AddFits op ↔ Reference.AddFits A.live op := by
  cases op with
  | addOrder id side price quantity timestamp =>
      simp only [AddFits, Reference.AddFits, h.mem_orderLookup_iff,
        restingUnits_eq h.showsSide]
  | _ => rfl

/-- From exact totals, an operation leads to exact totals exactly if its add fits. -/
theorem exact_exec_iff (h : Represents b A) (hexact : b.Exact) (op : BookOp) :
    (b.exec op).2.Exact ↔ b.AddFits op := by
  obtain ⟨-, A', hrep, hlive⟩ := exec_refines h op
  rw [hrep.exact_iff, hlive, h.addFits_iff, levelsFit_exec_iff A (h.exact_iff.mp hexact)]

end LimitOrderBook

namespace PooledLimitOrderBook

/-- Every reported quantity of the book is exact. -/
def Exact (b : PooledLimitOrderBook) : Prop :=
  ∃ S, b.snapshot = some S ∧ ExactTotals S b.topOfBook b.depth

/-- An add of a positive quantity under an id that is not live, to a book with a free node,
fits into its level. -/
def AddFits (b : PooledLimitOrderBook) : BookOp → Prop
  | .addOrder id side price quantity _ =>
      quantity.units ≠ 0 → id.value ∉ b.orderLookup → b.liveOrderCount ≠ b.capacity →
        ∃ S, b.snapshot = some S ∧
          S.restingUnits side price + quantity.units.toNat < 2 ^ 64
  | _ => True

variable {N : ℕ} {b : PooledLimitOrderBook} {A : RestingOrders}

/-- Totals are exact exactly if all levels fit. -/
theorem Represents.exact_iff (h : Represents b A) : b.Exact ↔ LevelsFit A.live := by
  obtain ⟨S, hsnap, hshows, htop, hdepth⟩ := h.snapshot
  have hdepth' : b.depth = S.depth := funext hdepth
  rw [Exact, htop, hdepth', hsnap]
  simp only [Option.some.injEq, exists_eq_left']
  exact exactTotals_iff hshows A.live_positive

/-- Whether an add fits is read off the list; an add that lacks room does. -/
theorem Holds.addFits_iff (h : Holds N b A) (op : BookOp) :
    b.AddFits op ↔ (¬Reference.LacksRoom N A.live op → Reference.AddFits A.live op) := by
  obtain ⟨hrep, hcap⟩ := h
  obtain ⟨S, hsnap, hshows, -⟩ := hrep.snapshot
  cases op with
  | addOrder id side price quantity timestamp =>
      simp only [AddFits, Reference.AddFits, Reference.LacksRoom, hrep.mem_orderLookup_iff,
        hrep.liveOrderCount, hcap, hsnap, Option.some.injEq, exists_eq_left',
        restingUnits_eq hshows]
      tauto
  | _ => simp [AddFits, Reference.AddFits]

/-- From exact totals, an operation leads to exact totals exactly if its add fits. -/
theorem exact_exec_iff (h : Holds N b A) (hexact : b.Exact) (op : BookOp) :
    (b.exec op).2.Exact ↔ b.AddFits op := by
  obtain ⟨-, A', ⟨hrep, -⟩, hlive⟩ := exec_refines h op
  rw [hrep.exact_iff, hlive, h.addFits_iff,
    levelsFit_boundedExec_iff A (h.1.exact_iff.mp hexact)]

end PooledLimitOrderBook

/-- **Which runs report exact quantities.** For either book, the reported quantities are
exact in every state of a run if and only if every add of the run that the book accepts fits
into its level: the quantity that rests there and the new quantity sum up to less than
`2 ^ 64`. -/
theorem exactTotals_iff_addFits (ops : List BookOp) :
    ((∀ pre, pre <+: ops → (finalState LimitOrderBook.exec .empty pre).Exact) ↔
        ∀ pre op, pre ++ [op] <+: ops →
          (finalState LimitOrderBook.exec .empty pre).AddFits op) ∧
      ∀ N : UInt64,
        ((∀ pre, pre <+: ops → (finalState PooledLimitOrderBook.exec (.new N) pre).Exact) ↔
          ∀ pre op, pre ++ [op] <+: ops →
            (finalState PooledLimitOrderBook.exec (.new N) pre).AddFits op) := by
  have hfit : LevelsFit [] := fun s p => by simp [ordersAt, totalUnits]
  refine ⟨?_, fun N => ?_⟩
  · refine forall_prefix_iff (I := fun b => ∃ A, LimitOrderBook.Represents b A)
      (fun b op h => ?_) (fun b op h hexact => ?_) ⟨_, LimitOrderBook.represents_empty⟩
      (LimitOrderBook.represents_empty.exact_iff.mpr hfit) ops
    · obtain ⟨A, hrep⟩ := h
      obtain ⟨-, A', hrep', -⟩ := LimitOrderBook.exec_refines hrep op
      exact ⟨A', hrep'⟩
    · obtain ⟨A, hrep⟩ := h
      exact LimitOrderBook.exact_exec_iff hrep hexact op
  · refine forall_prefix_iff (I := fun b => ∃ A, PooledLimitOrderBook.Holds N.toNat b A)
      (fun b op h => ?_) (fun b op h hexact => ?_)
      ⟨.empty, PooledLimitOrderBook.represents_new N, PooledLimitOrderBook.capacity_new N⟩
      ((PooledLimitOrderBook.represents_new N).exact_iff.mpr hfit) ops
    · obtain ⟨A, hrep⟩ := h
      obtain ⟨-, A', hrep', -⟩ := PooledLimitOrderBook.exec_refines hrep op
      exact ⟨A', hrep'⟩
    · obtain ⟨A, hrep⟩ := h
      exact PooledLimitOrderBook.exact_exec_iff hrep hexact op

/-- Two buy orders of `2 ^ 63` units each at one price. -/
def overflowingAdds : List BookOp :=
  [.addOrder ⟨1⟩ .buy ⟨100⟩ ⟨9223372036854775808⟩ ⟨0⟩,
    .addOrder ⟨2⟩ .buy ⟨100⟩ ⟨9223372036854775808⟩ ⟨1⟩]

/-- What both books show after the two orders: one level, with quantity zero. -/
def overflowedSnapshot : BookSnapshot where
  bids := [⟨⟨100⟩, ⟨0⟩, [⟨⟨1⟩, ⟨0⟩, ⟨9223372036854775808⟩⟩, ⟨⟨2⟩, ⟨1⟩, ⟨9223372036854775808⟩⟩]⟩]
  asks := []

/-- Both books report quantity zero at the price of the two orders. -/
theorem exactTotals_overflow :
    ¬(finalState LimitOrderBook.exec .empty overflowingAdds).Exact ∧
      ¬(finalState PooledLimitOrderBook.exec (.new 2) overflowingAdds).Exact := by
  have hzero : ∀ top depth, ¬ExactTotals overflowedSnapshot top depth := by
    intro top depth h
    exact h.positive .buy _ List.mem_cons_self (by decide) rfl
  refine ⟨fun h => ?_, fun h => ?_⟩
  · have hsnap : (finalState LimitOrderBook.exec .empty overflowingAdds).snapshot =
        overflowedSnapshot := by decide
    rw [LimitOrderBook.Exact, hsnap] at h
    exact hzero _ _ h
  · have hsnap : (finalState PooledLimitOrderBook.exec (.new 2) overflowingAdds).snapshot =
        some overflowedSnapshot := by decide
    obtain ⟨S, hS, h⟩ := h
    rw [hsnap] at hS
    obtain rfl := Option.some.inj hS
    exact hzero _ _ h

end Datagine
