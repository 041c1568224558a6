import Mathlib.Data.Finmap
import Mathlib.Data.Finset.Card
import Mathlib.Data.Finset.Lattice.Lemmas
import Datagine.Levels
import Datagine.PriceTime

/-!
# What a Represented Book Shows

A book that holds the resting orders `A` has one level for every non-empty queue of `A`.
This module derives, for any such pair of level maps and whatever a level contains, what
the book shows: the listing of each side (`ShowsSide`), which determines the listing
(`ShowsSide.unique`), and the outcome of the level loops of an invariant check
(`validateLevels_eq`). The views of both books are then instances.
-/

namespace Datagine

/-- The aggregated view of a level of a snapshot. -/
def PriceLevelSnapshot.toView (l : PriceLevelSnapshot) : PriceLevelView :=
  ⟨l.price, l.quantity, l.orders.length⟩

/-- The best levels of a snapshot. -/
def BookSnapshot.top (S : BookSnapshot) : TopOfBook :=
  ⟨S.bids.head?.map PriceLevelSnapshot.toView, S.asks.head?.map PriceLevelSnapshot.toView⟩

/-- The first `n` levels of a snapshot. -/
def BookSnapshot.depth (S : BookSnapshot) (n : ℕ) : BookDepth :=
  ⟨(S.bids.take n).map PriceLevelSnapshot.toView, (S.asks.take n).map PriceLevelSnapshot.toView⟩

/-- One side of a snapshot. -/
def BookSnapshot.side (S : BookSnapshot) : Side → List PriceLevelSnapshot
  | .buy => S.bids
  | .sell => S.asks

/-- A snapshot is its two sides. -/
theorem BookSnapshot.ext_side {S S' : BookSnapshot} (h : ∀ s, S.side s = S'.side s) : S = S' := by
  have hbids : S.bids = S'.bids := h .buy
  have hasks : S.asks = S'.asks := h .sell
  cases S
  cases S'
  simp_all

/-- **Price-time priority on one side.** The levels are the distinct prices of the live
orders of that side, best first; each lists its orders in acceptance order, with the sum
of their quantities modulo `2 ^ 64`. -/
structure ShowsSide (L : List LiveOrder) (s : Side) (levels : List PriceLevelSnapshot) :
    Prop where
  sorted : levels.Pairwise fun a b => s.before a.price.ticks b.price.ticks
  prices : ∀ p, p ∈ levels.map PriceLevelSnapshot.price ↔ ∃ o ∈ L, o.side = s ∧ o.price = p
  orders : ∀ l ∈ levels, l.orders = (ordersAt L s l.price).map LiveOrder.view
  quantity : ∀ l ∈ levels, l.quantity = totalQuantity (ordersAt L s l.price)

/-- The level of a non-empty queue, as a snapshot shows it. -/
def shownLevel (L : List LiveOrder) (s : Side) (p : Price) : Option PriceLevelSnapshot :=
  if ordersAt L s p = [] then none
  else some ⟨p, totalQuantity (ordersAt L s p), (ordersAt L s p).map LiveOrder.view⟩

/-- A level has orders exactly if some order rests there. -/
theorem ordersAt_ne_nil_iff {L : List LiveOrder} {s : Side} {p : Price} :
    ordersAt L s p ≠ [] ↔ ∃ o ∈ L, o.side = s ∧ o.price = p := by
  simp [ordersAt, LiveOrder.restsAt]

/-- No price is listed twice. -/
theorem ShowsSide.pricesNodup {L : List LiveOrder} {s : Side} {levels : List PriceLevelSnapshot}
    (h : ShowsSide L s levels) : (levels.map PriceLevelSnapshot.price).Nodup := by
  refine List.pairwise_map.mpr (h.sorted.imp ?_)
  intro l l' hlt heq
  exact irrefl_of s.before _ (heq ▸ hlt)

/-- The listing of a side is determined by the live list. -/
theorem ShowsSide.unique {L : List LiveOrder} {s : Side} {l₁ l₂ : List PriceLevelSnapshot}
    (h₁ : ShowsSide L s l₁) (h₂ : ShowsSide L s l₂) : l₁ = l₂ := by
  have hprices : l₁.map PriceLevelSnapshot.price = l₂.map PriceLevelSnapshot.price := by
    have hsorted : ∀ {l : List PriceLevelSnapshot}, ShowsSide L s l →
        (l.map PriceLevelSnapshot.price).Pairwise fun p q => s.before p.ticks q.ticks :=
      fun h => List.pairwise_map.mpr h.sorted
    refine ((List.perm_ext_iff_of_nodup h₁.pricesNodup h₂.pricesNodup).mpr
      fun p => ?_).eq_of_pairwise
      (fun p q _ _ hpq hqp => absurd hpq (asymm_of s.before hqp)) (hsorted h₁) (hsorted h₂)
    rw [h₁.prices, h₂.prices]
  -- with equal prices, each level is the shown level of its price
  have hmap : ∀ {l : List PriceLevelSnapshot}, ShowsSide L s l →
      l = (l.map PriceLevelSnapshot.price).map fun p =>
        ⟨p, totalQuantity (ordersAt L s p), (ordersAt L s p).map LiveOrder.view⟩ := by
    intro l h
    rw [List.map_map]
    conv_lhs => rw [← List.map_id l]
    refine List.map_congr_left fun a ha => ?_
    simp only [id_eq, Function.comp_apply, ← h.orders a ha, ← h.quantity a ha]
  rw [hmap h₁, hmap h₂, hprices]

section

variable {ν : Type} {m : BookLevels ν} {L : List LiveOrder} {snap : Int64 → ν → PriceLevelSnapshot}

/-- Levels that show the queues of `L`, price by price, list the sides of `L`. -/
theorem showsSide_entries
    (h : ∀ s p, (m.find s p).map (snap p.ticks) = shownLevel L s p) (s : Side) :
    ShowsSide L s ((m.entries s).map fun e => snap e.1 e.2) := by
  -- what an entry shows
  have hentry : ∀ e ∈ m.entries s, ordersAt L s ⟨e.1⟩ ≠ [] ∧ snap e.1 e.2 =
      ⟨⟨e.1⟩, totalQuantity (ordersAt L s ⟨e.1⟩), (ordersAt L s ⟨e.1⟩).map LiveOrder.view⟩ := by
    intro e he
    have hfind := h s ⟨e.1⟩
    rw [BookLevels.mem_entries.mp he, Option.map_some, shownLevel] at hfind
    split_ifs at hfind with hnil
    exact ⟨hnil, Option.some.inj hfind⟩
  refine ⟨?_, ?_, ?_, ?_⟩
  · refine List.pairwise_map.mpr ((m.entries_sorted s).imp_of_mem ?_)
    intro a b ha hb hab
    rw [(hentry a ha).2, (hentry b hb).2]
    exact hab
  · intro p
    rw [← ordersAt_ne_nil_iff, List.map_map, List.mem_map]
    constructor
    · rintro ⟨e, he, rfl⟩
      obtain ⟨hne, hsnap⟩ := hentry e he
      rw [Function.comp_apply, hsnap]
      exact hne
    · intro hne
      have hfind := h s p
      rw [shownLevel, if_neg hne, Option.map_eq_some_iff] at hfind
      obtain ⟨v, hv, hsnap⟩ := hfind
      exact ⟨(p.ticks, v), BookLevels.mem_entries.mpr hv, by rw [Function.comp_apply, hsnap]⟩
  · intro l hl
    obtain ⟨e, he, rfl⟩ := List.mem_map.mp hl
    rw [(hentry e he).2]
  · intro l hl
    obtain ⟨e, he, rfl⟩ := List.mem_map.mp hl
    rw [(hentry e he).2]

end

/-! ### The level loops of an invariant check -/

namespace RestingOrders

/-- The ids of a list of resting orders. -/
def idsOf (Q : List Resting) : Finset UInt64 := (Q.map fun o => o.orderId.value).toFinset

/-- The ids of a list of orders. -/
theorem mem_idsOf {Q : List Resting} {x : UInt64} :
    x ∈ idsOf Q ↔ ∃ o ∈ Q, o.orderId.value = x := by
  simp [idsOf]

/-- The ids of two lists of orders. -/
theorem idsOf_append (Q Q' : List Resting) : idsOf (Q ++ Q') = idsOf Q ∪ idsOf Q' := by
  simp [idsOf, List.map_append, List.toFinset_append]

/-- The ids of a book are those of its live orders. -/
theorem mem_live_iff (A : RestingOrders) (x : UInt64) :
    OrderId.mk x ∈ A.live.map LiveOrder.orderId ↔ x ∈ idsOf A.orders := by
  rw [mem_idsOf, live, List.map_map, List.mem_map]
  constructor
  · rintro ⟨o, ho, hid⟩
    exact ⟨o, ho, congrArg OrderId.value hid⟩
  · rintro ⟨o, ho, hid⟩
    exact ⟨o, ho, congrArg OrderId.mk hid⟩

/-- Behind an order with a new id, the ids of the others are still new. -/
theorem not_mem_insert {o : Resting} {Q : List Resting} {seen : Finset UInt64}
    (hnd : ((o :: Q).map fun o => o.orderId).Nodup)
    (hseen : ∀ a ∈ o :: Q, a.orderId.value ∉ seen) :
    ∀ a ∈ Q, a.orderId.value ∉ insert o.orderId.value seen := by
  intro a ha hins
  rcases Finset.mem_insert.mp hins with heq | hins
  · have hid : a.orderId = o.orderId := congrArg OrderId.mk heq
    exact (List.nodup_cons.mp hnd).1 (List.mem_map.mpr ⟨a, ha, hid⟩)
  · exact hseen a (List.mem_cons_of_mem _ ha) hins

/-- The entries of a lookup that answers for the orders of a book are their records. -/
theorem exists_of_mem_entries {ρ : Type} {A : RestingOrders} {lookup : Finmap fun _ : UInt64 => ρ}
    {recordOf : Resting → ρ} (h : ∀ id : OrderId, lookup.lookup id.value = (A.find id).map recordOf)
    {x : UInt64} {record : ρ} (hentry : ⟨x, record⟩ ∈ lookup.entries) :
    ∃ o, A.find ⟨x⟩ = some o ∧ o ∈ A.orders ∧ x ∈ idsOf A.orders ∧ recordOf o = record := by
  have hrecord : lookup.lookup x = some record := Finmap.mem_lookup_iff.mpr hentry
  rw [h ⟨x⟩, Option.map_eq_some_iff] at hrecord
  obtain ⟨o, ho, hrecord⟩ := hrecord
  obtain ⟨hmem, hid⟩ := find_eq_some_iff.mp ho
  exact ⟨o, ho, hmem, mem_idsOf.mpr ⟨o, hmem, congrArg OrderId.value hid⟩, hrecord⟩

variable {ν : Type} {A : RestingOrders} {m : BookLevels ν}
  {check : Side → Int64 → ν → Finset UInt64 → Option (Finset UInt64)}

/-- An id belongs to one order. -/
theorem eq_of_value_eq {a o : Resting} (ha : a ∈ A.orders) (ho : o ∈ A.orders)
    (h : a.orderId.value = o.orderId.value) : a = o :=
  List.inj_on_of_nodup_map A.idsNodup ha ho (by
    cases hid : a.orderId
    cases hid' : o.orderId
    simp_all)

/-- The queues of the listed levels of a side, one after another. -/
def listed (A : RestingOrders) (s : Side) (es : List (Int64 × ν)) : List Resting :=
  es.flatMap fun e => A.queue s ⟨e.1⟩

/-- The orders at the listed prices of a side. -/
theorem mem_listed {s : Side} {es : List (Int64 × ν)} {o : Resting} :
    o ∈ A.listed s es ↔ o ∈ A.orders ∧ o.side = s ∧ ∃ e ∈ es, o.price = ⟨e.1⟩ := by
  simp only [listed, List.mem_flatMap, mem_queue]
  constructor
  · rintro ⟨e, he, ho, hs, hp⟩
    exact ⟨ho, hs, e, he, hp⟩
  · rintro ⟨ho, hs, e, he, hp⟩
    exact ⟨e, he, ho, hs, hp⟩

/-- One side of the level loops: a check that adds the ids of a queue not seen before adds
the ids of all listed queues. -/
theorem validateSide_eq {s : Side}
    (hcheck : ∀ k v seen, m.find s ⟨k⟩ = some v →
      (∀ o ∈ A.queue s ⟨k⟩, o.orderId.value ∉ seen) →
      check s k v seen = some (seen ∪ idsOf (A.queue s ⟨k⟩)))
    {es : List (Int64 × ν)} (hes : ∀ e ∈ es, m.find s ⟨e.1⟩ = some e.2)
    (hnd : es.Pairwise fun a b => s.before a.1 b.1) {seen : Finset UInt64}
    (hseen : ∀ o ∈ A.listed s es, o.orderId.value ∉ seen) :
    BookLevels.validateSide (check s) es seen = some (seen ∪ idsOf (A.listed s es)) := by
  induction es generalizing seen with
  | nil => simp [BookLevels.validateSide, listed, idsOf]
  | cons e es ih =>
      obtain ⟨hlt, hnd⟩ := List.pairwise_cons.mp hnd
      have hlisted : A.listed s (e :: es) = A.queue s ⟨e.1⟩ ++ A.listed s es := rfl
      rw [hlisted] at hseen ⊢
      have hhead : check s e.1 e.2 seen = some (seen ∪ idsOf (A.queue s ⟨e.1⟩)) :=
        hcheck e.1 e.2 seen (hes e List.mem_cons_self) fun o ho =>
          hseen o (List.mem_append_left _ ho)
      have hrest : ∀ o ∈ A.listed s es,
          o.orderId.value ∉ seen ∪ idsOf (A.queue s ⟨e.1⟩) := by
        intro o ho hmem
        rcases Finset.mem_union.mp hmem with hmem | hmem
        · exact hseen o (List.mem_append_right _ ho) hmem
        · -- an order of a later level does not rest at this price
          obtain ⟨a, ha, heq⟩ := mem_idsOf.mp hmem
          obtain ⟨ha, -, hap⟩ := mem_queue.mp ha
          obtain ⟨ho, -, e', he', hop⟩ := mem_listed.mp ho
          obtain rfl := eq_of_value_eq ha ho heq
          have hkey : e.1 = e'.1 := Price.mk.inj (hap.symm.trans hop)
          exact irrefl_of s.before _ (hkey ▸ hlt e' he')
      rw [BookLevels.validateSide, hhead, Option.bind_some,
        ih (fun e' he' => hes e' (List.mem_cons_of_mem _ he')) hnd hrest, idsOf_append,
        Finset.union_assoc]

/-- **The level loops accept a represented book** and have seen exactly the live ids. -/
theorem validateLevels_eq (hlevel : ∀ s p, A.queue s p ≠ [] → (m.find s p).isSome)
    (hcheck : ∀ s k v seen, m.find s ⟨k⟩ = some v →
      (∀ o ∈ A.queue s ⟨k⟩, o.orderId.value ∉ seen) →
      check s k v seen = some (seen ∪ idsOf (A.queue s ⟨k⟩))) :
    m.validateLevels check = some (idsOf A.orders) := by
  have hside : ∀ s seen, (∀ o ∈ A.listed s (m.entries s), o.orderId.value ∉ seen) →
      BookLevels.validateSide (check s) (m.entries s) seen =
        some (seen ∪ idsOf (A.listed s (m.entries s))) := fun s seen hseen =>
    validateSide_eq (hcheck s) (fun e he => BookLevels.mem_entries.mp he)
      (m.entries_sorted s) hseen
  have hasks : ∀ o ∈ A.listed .sell (m.entries .sell),
      o.orderId.value ∉ ∅ ∪ idsOf (A.listed .buy (m.entries .buy)) := by
    intro o ho hmem
    rw [Finset.empty_union] at hmem
    obtain ⟨a, ha, heq⟩ := mem_idsOf.mp hmem
    obtain ⟨ha, has, -⟩ := mem_listed.mp ha
    obtain ⟨ho, hos, -⟩ := mem_listed.mp ho
    obtain rfl := eq_of_value_eq ha ho heq
    rw [has] at hos
    exact absurd hos (by decide)
  have hall : idsOf (A.listed .buy (m.entries .buy)) ∪ idsOf (A.listed .sell (m.entries .sell)) =
      idsOf A.orders := by
    ext x
    simp only [Finset.mem_union, mem_idsOf]
    constructor
    · rintro (⟨o, ho, rfl⟩ | ⟨o, ho, rfl⟩)
      · exact ⟨o, (mem_listed.mp ho).1, rfl⟩
      · exact ⟨o, (mem_listed.mp ho).1, rfl⟩
    · rintro ⟨o, ho, rfl⟩
      have hq : A.queue o.side o.price ≠ [] :=
        List.ne_nil_of_mem (mem_queue.mpr ⟨ho, rfl, rfl⟩)
      obtain ⟨v, hv⟩ := Option.isSome_iff_exists.mp (hlevel _ _ hq)
      have hlist : o ∈ A.listed o.side (m.entries o.side) :=
        mem_listed.mpr ⟨ho, rfl, (o.price.ticks, v), BookLevels.mem_entries.mpr hv, rfl⟩
      cases hs : o.side with
      | buy => exact Or.inl ⟨o, hs ▸ hlist, rfl⟩
      | sell => exact Or.inr ⟨o, hs ▸ hlist, rfl⟩
  have hbuy := hside .buy ∅ fun o _ => Finset.notMem_empty _
  have hsell := hside .sell _ hasks
  rw [Finset.empty_union] at hbuy hsell
  rw [BookLevels.validateLevels]
  change (BookLevels.validateSide (check .buy) (m.entries .buy) ∅).bind
    (BookLevels.validateSide (check .sell) (m.entries .sell)) = _
  rw [hbuy, Option.bind_some, hsell, hall]

/-- There are as many ids as orders. -/
theorem card_idsOf (A : RestingOrders) : (idsOf A.orders).card = A.orders.length := by
  have hnd : (A.orders.map fun o => o.orderId.value).Nodup := by
    refine List.Nodup.map_on (fun a ha o ho h => eq_of_value_eq ha ho h) ?_
    exact List.Nodup.of_map _ A.idsNodup
  rw [idsOf, List.toFinset_card_of_nodup hnd, List.length_map]

end RestingOrders

end Datagine
