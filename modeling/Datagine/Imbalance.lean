import Datagine.AggregateQuantity
import Datagine.Features

/-!
# When the Imbalance Is Well Defined

Between the quantities of the orders and the order book imbalance stand three additions in
64-bit words: the total of a level, the sum over the best levels of a side, and the sum of the
two sides. None of them is guarded, and the test against division by zero looks at the wrapped
sum. `imbalance_exact_iff` says for which books the reported depths and the reported imbalance
are nevertheless the exact ones.

## Main results

* `imbalance_exact_iff`: on a book with two sides, depths and imbalance are exact if and only
  if each depth fits into a word and so does their sum, or the two depths are the same number
  and not `2 ^ 63`.
* `imbalance_wraps`: two orders of `2 ^ 63` units, one on each side, for which there is no
  imbalance.
-/

namespace Datagine

open Mealy FeatureExtractor

/-- The quantity of all orders in the best `n` levels of a side, as an unbounded number. -/
def BookSnapshot.topUnits (S : BookSnapshot) (n : ℕ) (s : Side) : ℕ :=
  (((S.side s).take n).map PriceLevelSnapshot.restingUnits).sum

/-- Depths and imbalance as they are documented, for the exact depths `bid` and `ask`. -/
structure ExactImbalance (bid ask : ℕ) (features : MicrostructureFeatures ℝ) : Prop where
  bidDepth : features.topNBidDepth.toNat = bid
  askDepth : features.topNAskDepth.toNat = ask
  imbalance : features.orderBookImbalance = some (((bid : ℝ) - ask) / (bid + ask))
  bounded : -1 < ((bid : ℝ) - ask) / (bid + ask) ∧ ((bid : ℝ) - ask) / (bid + ask) < 1

/-! ### Depths -/

theorem toNat_sumDepth (levels : List PriceLevelView) :
    (sumDepth levels).toNat = (levels.map fun v => v.quantity.units.toNat).sum % 2 ^ 64 := by
  have hfold : ∀ total : UInt64,
      (levels.foldl (fun total level => total + level.quantity.units) total).toNat =
        (total.toNat + (levels.map fun v => v.quantity.units.toNat).sum) % 2 ^ 64 := by
    induction levels with
    | nil => exact fun total => (Nat.mod_eq_of_lt total.toNat_lt).symm
    | cons level levels ih =>
        intro total
        rw [List.foldl_cons, ih, UInt64.toNat_add, List.map_cons, List.sum_cons, ← Nat.add_assoc,
          Nat.mod_add_mod]
  rw [sumDepth, hfold]
  simp

/-- The reported depth of a side is its exact depth modulo `2 ^ 64`. -/
theorem ShowsSide.toNat_sumDepth {L : List LiveOrder} {s : Side}
    {levels : List PriceLevelSnapshot} (h : ShowsSide L s levels) (n : ℕ) :
    (sumDepth ((levels.take n).map PriceLevelSnapshot.toView)).toNat =
      ((levels.take n).map PriceLevelSnapshot.restingUnits).sum % 2 ^ 64 := by
  have hmod : ∀ best : List PriceLevelSnapshot, (∀ l ∈ best, l ∈ levels) →
      (best.map fun l => l.quantity.units.toNat).sum % 2 ^ 64 =
        (best.map PriceLevelSnapshot.restingUnits).sum % 2 ^ 64 := by
    intro best hsub
    induction best with
    | nil => rfl
    | cons l best ih =>
        have hl := h.toNat_quantity (hsub l List.mem_cons_self)
        have hrest := ih fun l' hl' => hsub l' (List.mem_cons_of_mem _ hl')
        rw [List.map_cons, List.map_cons, List.sum_cons, List.sum_cons, hl, Nat.mod_add_mod,
          Nat.add_mod, hrest, ← Nat.add_mod]
  rw [Datagine.toNat_sumDepth, List.map_map]
  exact hmod _ fun l hl => List.mem_of_mem_take hl

/-- A side with a level has something to count. -/
theorem ShowsSide.one_le_topUnits {L : List LiveOrder} {s : Side}
    {levels : List PriceLevelSnapshot} (h : ShowsSide L s levels)
    (hpos : ∀ o ∈ L, o.quantity.units ≠ 0) (hne : levels ≠ []) {n : ℕ} (hn : 1 ≤ n) :
    1 ≤ ((levels.take n).map PriceLevelSnapshot.restingUnits).sum := by
  obtain ⟨l, rest, rfl⟩ := List.exists_cons_of_ne_nil hne
  obtain ⟨n, rfl⟩ : ∃ k, n = k + 1 := ⟨n - 1, by omega⟩
  obtain ⟨o, ho, hside, hprice⟩ := (h.prices l.price).mp (by simp)
  have hmem : o ∈ ordersAt L s l.price := by
    simp [ordersAt, LiveOrder.restsAt, ho, hside, hprice]
  have hunits : o.quantity.units.toNat ≤ l.restingUnits := by
    rw [h.restingUnits List.mem_cons_self, totalUnits]
    exact List.le_sum_of_mem (List.mem_map.mpr ⟨o, hmem, rfl⟩)
  have hone : o.quantity.units.toNat ≠ 0 := fun hzero => hpos o ho (UInt64.toNat_inj.mp hzero)
  rw [List.take_succ_cons, List.map_cons, List.sum_cons]
  omega

/-! ### The ratio -/

theorem ratio_bounded {bid ask : ℕ} (hbid : 1 ≤ bid) (hask : 1 ≤ ask) :
    -1 < ((bid : ℝ) - ask) / (bid + ask) ∧ ((bid : ℝ) - ask) / (bid + ask) < 1 := by
  have hbid' : (1 : ℝ) ≤ bid := by exact_mod_cast hbid
  have hask' : (1 : ℝ) ≤ ask := by exact_mod_cast hask
  have hsum : (0 : ℝ) < bid + ask := by linarith
  exact ⟨by rw [lt_div_iff₀ hsum]; linarith, by rw [div_lt_one hsum]; linarith⟩

/-- The imbalance in ordinary arithmetic. -/
theorem imbalance_real (bidDepth askDepth : UInt64) :
    FeatureExtractor.imbalance (𝔻 := ℝ) bidDepth askDepth =
      if (bidDepth + askDepth).toNat = 0 then none
      else some (((bidDepth.toNat : ℝ) - askDepth.toNat) / ((bidDepth + askDepth).toNat : ℝ)) := by
  have hpos : bidDepth + askDepth > 0 ↔ (bidDepth + askDepth).toNat ≠ 0 := by
    rw [gt_iff_lt, UInt64.lt_iff_toNat_lt]
    exact Nat.pos_iff_ne_zero
  rw [FeatureExtractor.imbalance]
  by_cases hzero : (bidDepth + askDepth).toNat = 0
  · rw [if_pos hzero]
    exact if_neg fun h => hpos.mp h hzero
  · rw [if_neg hzero]
    exact if_pos (hpos.mpr hzero)

/-- Each depth fits into a word, and so does their sum, or the sides are in balance and their
sum does not wrap to zero. -/
def DepthsFit (bid ask : ℕ) : Prop :=
  bid < 2 ^ 64 ∧ ask < 2 ^ 64 ∧ (bid + ask < 2 ^ 64 ∨ bid = ask ∧ bid ≠ 2 ^ 63)

/-- **Wrapped depths give the exact ratio only when they fit.** -/
theorem exactImbalance_iff {bid ask : ℕ} (hbid : 1 ≤ bid) (hask : 1 ≤ ask)
    {features : MicrostructureFeatures ℝ} (hbids : features.topNBidDepth.toNat = bid % 2 ^ 64)
    (hasks : features.topNAskDepth.toNat = ask % 2 ^ 64)
    (himbalance : features.orderBookImbalance =
      FeatureExtractor.imbalance features.topNBidDepth features.topNAskDepth) :
    ExactImbalance bid ask features ↔ DepthsFit bid ask := by
  have htotal := UInt64.toNat_add features.topNBidDepth features.topNAskDepth
  rw [imbalance_real] at himbalance
  constructor
  · rintro ⟨hbidDepth, haskDepth, hratio, -⟩
    have hbidLt := features.topNBidDepth.toNat_lt
    have haskLt := features.topNAskDepth.toNat_lt
    refine ⟨by omega, by omega, ?_⟩
    rw [himbalance] at hratio
    split_ifs at hratio with hzero
    have hdiv := Option.some.inj hratio
    rw [hbidDepth, haskDepth] at hdiv
    by_cases heq : bid = ask
    · by_cases hlt : bid + ask < 2 ^ 64
      · exact .inl hlt
      · exact .inr ⟨heq, fun hhalf => hzero (by omega)⟩
    · -- with a non-zero numerator the denominators are equal
      have hnum : (bid : ℝ) - ask ≠ 0 := sub_ne_zero.mpr (by exact_mod_cast heq)
      rw [div_eq_mul_inv, div_eq_mul_inv] at hdiv
      have hden := inv_injective (mul_left_cancel₀ hnum hdiv)
      have hsum : (features.topNBidDepth + features.topNAskDepth).toNat = bid + ask := by
        exact_mod_cast hden
      exact .inl (by omega)
  · rintro ⟨hbidLt, haskLt, hfits⟩
    rw [Nat.mod_eq_of_lt hbidLt] at hbids
    rw [Nat.mod_eq_of_lt haskLt] at hasks
    refine ⟨hbids, hasks, ?_, ratio_bounded hbid hask⟩
    rw [hbids, hasks] at htotal
    rw [himbalance, hbids, hasks]
    rcases hfits with hlt | ⟨rfl, hhalf⟩
    · rw [Nat.mod_eq_of_lt hlt] at htotal
      rw [htotal, if_neg (by omega), Nat.cast_add]
    · rw [if_neg (by omega), sub_self, zero_div, zero_div]

/-! ### Books -/

/-- The depths that a call reports, and the imbalance it computes from them. -/
theorem extract_depths {x : FeatureExtractor ℝ} {e : MarketEvent} {b : LimitOrderBook}
    (hsides : b.TwoSided) :
    (x.extract e b).1.topNBidDepth = sumDepth (b.depth x.config.topNLevels).bids ∧
      (x.extract e b).1.topNAskDepth = sumDepth (b.depth x.config.topNLevels).asks ∧
      (x.extract e b).1.orderBookImbalance =
        FeatureExtractor.imbalance (sumDepth (b.depth x.config.topNLevels).bids)
          (sumDepth (b.depth x.config.topNLevels).asks) := by
  have hmid := (isSome_midPriceOf (𝔻 := ℝ) b).mpr hsides
  rw [midPriceOf] at hmid
  rw [extract]
  cases hbid : b.topOfBook.bid with
  | none => simp [hbid] at hmid
  | some bid =>
      cases hask : b.topOfBook.ask with
      | none => simp [hbid, hask] at hmid
      | some ask => exact ⟨rfl, rfl, rfl⟩

/-- A side of the levels has entries exactly when its listing does. -/
theorem LimitOrderBook.TwoSided.side_ne_nil {b : LimitOrderBook} (h : b.TwoSided) (s : Side) :
    b.snapshot.side s ≠ [] := by
  cases s with
  | buy => exact fun hnil => h.1 (List.map_eq_nil_iff.mp hnil)
  | sell => exact fun hnil => h.2 (List.map_eq_nil_iff.mp hnil)

/-- **When the imbalance is well defined.** In every state that the book reaches with orders on
both sides, for every configuration that looks at one level at least: the reported depths are
the quantities of all orders in the best levels, and the imbalance is present, exact and
strictly between `-1` and `1`, if and only if these depths fit into words. -/
theorem imbalance_exact_iff (ops : List BookOp) (x : FeatureExtractor ℝ) (event : MarketEvent)
    (hlevels : 1 ≤ x.config.topNLevels) :
    let b := finalState LimitOrderBook.exec .empty ops
    let bid := b.snapshot.topUnits x.config.topNLevels .buy
    let ask := b.snapshot.topUnits x.config.topNLevels .sell
    b.TwoSided → (ExactImbalance bid ask (x.extract event b).1 ↔ DepthsFit bid ask) := by
  intro b bid ask hsides
  obtain ⟨-, A, hrep, -⟩ := LimitOrderBook.run_refines ops
  have hshows : ∀ s, ShowsSide A.live s (b.snapshot.side s) := hrep.showsSide
  obtain ⟨hbids, hasks, himbalance⟩ := extract_depths (x := x) (e := event) hsides
  rw [LimitOrderBook.depth_eq] at hbids hasks himbalance
  have hone : ∀ s, 1 ≤ b.snapshot.topUnits x.config.topNLevels s := fun s =>
    (hshows s).one_le_topUnits A.live_positive (hsides.side_ne_nil s) hlevels
  refine exactImbalance_iff (hone .buy) (hone .sell) ?_ ?_ ?_
  · rw [hbids]
    exact (hshows .buy).toNat_sumDepth _
  · rw [hasks]
    exact (hshows .sell).toNat_sumDepth _
  · rw [himbalance, hbids, hasks]

/-- A bid of two units below an ask of one. -/
def smallQuotes : List BookOp :=
  [.addOrder ⟨1⟩ .buy ⟨99⟩ ⟨2⟩ ⟨1⟩, .addOrder ⟨2⟩ .sell ⟨101⟩ ⟨1⟩ ⟨2⟩]

/-- The same with `2 ^ 63` units on each side. -/
def hugeQuotes : List BookOp :=
  [.addOrder ⟨1⟩ .buy ⟨99⟩ ⟨9223372036854775808⟩ ⟨1⟩,
    .addOrder ⟨2⟩ .sell ⟨101⟩ ⟨9223372036854775808⟩ ⟨2⟩]

/-- The add of the ask, as the monitor sees it. -/
def askArrives (units : UInt64) : MarketEvent := ⟨.add, ⟨2⟩, ⟨2⟩, .sell, ⟨101⟩, ⟨units⟩⟩

theorem imbalance_exact_smallQuotes :
    (finalState LimitOrderBook.exec .empty smallQuotes).TwoSided ∧
      ExactImbalance 2 1 ((FeatureExtractor.new {}).extract (askArrives 1)
        (finalState LimitOrderBook.exec .empty smallQuotes)).1 := by
  have hsides : (finalState LimitOrderBook.exec .empty smallQuotes).TwoSided := by decide +kernel
  have hbid :
      (finalState LimitOrderBook.exec .empty smallQuotes).snapshot.topUnits 5 .buy = 2 := by
    decide +kernel
  have hask :
      (finalState LimitOrderBook.exec .empty smallQuotes).snapshot.topUnits 5 .sell = 1 := by
    decide +kernel
  have hexact := imbalance_exact_iff smallQuotes (FeatureExtractor.new {}) (askArrives 1)
    (by decide) hsides
  dsimp only [FeatureExtractor.new] at hexact
  rw [hbid, hask] at hexact
  exact ⟨hsides, hexact.mpr ⟨by decide, by decide, .inl (by decide)⟩⟩

/-- **Two large orders have no imbalance.** With `2 ^ 63` units on each side the sum of the
depths wraps to zero. -/
theorem imbalance_wraps :
    let b := finalState LimitOrderBook.exec .empty hugeQuotes
    b.TwoSided ∧ ¬ExactImbalance (b.snapshot.topUnits 5 .buy) (b.snapshot.topUnits 5 .sell)
      ((FeatureExtractor.new {}).extract (askArrives 9223372036854775808) b).1 := by
  have hsides : (finalState LimitOrderBook.exec .empty hugeQuotes).TwoSided := by decide +kernel
  refine ⟨hsides, fun hexact => ?_⟩
  have himbalance := hexact.imbalance
  obtain ⟨-, -, hwrapped⟩ := extract_depths (x := FeatureExtractor.new {})
    (e := askArrives 9223372036854775808) hsides
  rw [hwrapped, imbalance_real, if_pos (by decide +kernel)] at himbalance
  cases himbalance

end Datagine
