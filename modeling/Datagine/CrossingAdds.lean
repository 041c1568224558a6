import Datagine.ReplayRuns
import Datagine.Rulings

/-!
# Which Events Cross the Book

The book does not match orders: an add that is priced through the best opposite order rests like
any other and leaves the book crossed. It is the only way there. No cancel, modify or execute and
no rejected event takes an uncrossed book to a crossed one, so that a replay with checks is cut
short exactly at the first accepted add that is priced through the other side, at the line of
this add.

The best bid is the highest price of the live bids and the best ask the lowest of the live asks
(`LimitOrderBook.Represents.crossed_iff`), which turns the question about the top of the book into
one about the live list.

## Main results

* `LimitOrderBook.Represents.crossed_apply_iff`: an accepted event crosses an uncrossed book
  exactly if it is an add priced through the best opposite level.
* `replay_stops_at_crossing_add`: a checked replay is cut short exactly at the first such add.
-/

namespace Datagine

open Mealy Text

/-! ### The best orders of a live list -/

/-- Some live bid is priced above some live ask. -/
def CrossedLive (L : List LiveOrder) : Prop :=
  ∃ bid ∈ L, ∃ ask ∈ L, bid.side = .buy ∧ ask.side = .sell ∧ ask.price.ticks < bid.price.ticks

namespace ShowsSide

variable {L : List LiveOrder} {s : Side} {levels : List PriceLevelSnapshot}

/-- A side without levels has no orders. -/
theorem side_ne_of_head? (h : ShowsSide L s levels) (hhead : levels.head? = none) :
    ∀ o ∈ L, o.side ≠ s := by
  intro o ho hs
  have hmem := (h.prices o.price).mpr ⟨o, ho, hs, rfl⟩
  rw [List.head?_eq_none_iff.mp hhead] at hmem
  exact List.not_mem_nil hmem

/-- The first level is at the price of an order, and no order of the side has a better one. -/
theorem of_head? (h : ShowsSide L s levels) {level : PriceLevelSnapshot}
    (hhead : levels.head? = some level) :
    (∃ o ∈ L, o.side = s ∧ o.price = level.price) ∧
      ∀ o ∈ L, o.side = s → ¬s.before o.price.ticks level.price.ticks := by
  obtain ⟨rest, rfl⟩ := List.head?_eq_some_iff.mp hhead
  refine ⟨(h.prices level.price).mp (List.mem_map_of_mem List.mem_cons_self),
    fun o ho hs hbetter => ?_⟩
  obtain ⟨l, hl, hprice⟩ := List.mem_map.mp ((h.prices o.price).mpr ⟨o, ho, hs, rfl⟩)
  rw [← hprice] at hbetter
  rcases List.mem_cons.mp hl with rfl | hrest
  · exact irrefl_of s.before _ hbetter
  · exact asymm_of s.before hbetter ((List.pairwise_cons.mp h.sorted).1 l hrest)

end ShowsSide

/-- An add is priced through the best level of the other side. -/
def MarketEvent.AddsThrough (event : MarketEvent) (top : TopOfBook) : Prop :=
  event.type = .add ∧
    match event.side with
    | .buy => ∃ ask, top.ask = some ask ∧ ask.price.ticks < event.price.ticks
    | .sell => ∃ bid, top.bid = some bid ∧ event.price.ticks < bid.price.ticks

/-- An add is priced through some live order of the other side. -/
def MarketEvent.AddsThroughLive (event : MarketEvent) (L : List LiveOrder) : Prop :=
  event.type = .add ∧
    match event.side with
    | .buy => ∃ ask ∈ L, ask.side = .sell ∧ ask.price.ticks < event.price.ticks
    | .sell => ∃ bid ∈ L, bid.side = .buy ∧ event.price.ticks < bid.price.ticks

namespace LimitOrderBook

variable {b : LimitOrderBook} {A : RestingOrders}

/-- The best ask is the first ask level of the snapshot. -/
theorem topOfBook_ask (b : LimitOrderBook) :
    b.topOfBook.ask = b.snapshot.asks.head?.map PriceLevelSnapshot.toView := by
  rw [topOfBook_eq]
  rfl

/-- The best bid is the first bid level of the snapshot. -/
theorem topOfBook_bid (b : LimitOrderBook) :
    b.topOfBook.bid = b.snapshot.bids.head?.map PriceLevelSnapshot.toView := by
  rw [topOfBook_eq]
  rfl

/-- Some ask is below a price exactly if the best ask is. -/
theorem Represents.ask_lt_iff (h : Represents b A) (price : Price) :
    (∃ ask, b.topOfBook.ask = some ask ∧ ask.price.ticks < price.ticks) ↔
      ∃ ask ∈ A.live, ask.side = .sell ∧ ask.price.ticks < price.ticks := by
  have hshows : ShowsSide A.live .sell b.snapshot.asks := h.showsSide .sell
  rw [topOfBook_ask]
  cases hhead : b.snapshot.asks.head? with
  | none =>
      have hnone := hshows.side_ne_of_head? hhead
      constructor
      · rintro ⟨ask, hask, -⟩
        cases hask
      · rintro ⟨ask, hask, hside, -⟩
        exact absurd hside (hnone ask hask)
  | some level =>
      obtain ⟨⟨best, hbest, hside, hprice⟩, hleast⟩ := hshows.of_head? hhead
      constructor
      · rintro ⟨ask, hask, hlt⟩
        obtain rfl := Option.some.inj hask
        exact ⟨best, hbest, hside, hprice ▸ hlt⟩
      · rintro ⟨ask, hask, hside', hlt⟩
        have hle : ¬ask.price.ticks < level.price.ticks := hleast ask hask hside'
        refine ⟨level.toView, rfl, ?_⟩
        rw [Int64.lt_iff_toInt_lt] at hlt hle ⊢
        exact lt_of_le_of_lt (not_lt.mp hle) hlt

/-- Some bid is above a price exactly if the best bid is. -/
theorem Represents.lt_bid_iff (h : Represents b A) (price : Price) :
    (∃ bid, b.topOfBook.bid = some bid ∧ price.ticks < bid.price.ticks) ↔
      ∃ bid ∈ A.live, bid.side = .buy ∧ price.ticks < bid.price.ticks := by
  have hshows : ShowsSide A.live .buy b.snapshot.bids := h.showsSide .buy
  rw [topOfBook_bid]
  cases hhead : b.snapshot.bids.head? with
  | none =>
      have hnone := hshows.side_ne_of_head? hhead
      constructor
      · rintro ⟨bid, hbid, -⟩
        cases hbid
      · rintro ⟨bid, hbid, hside, -⟩
        exact absurd hside (hnone bid hbid)
  | some level =>
      obtain ⟨⟨best, hbest, hside, hprice⟩, hgreatest⟩ := hshows.of_head? hhead
      constructor
      · rintro ⟨bid, hbid, hlt⟩
        obtain rfl := Option.some.inj hbid
        exact ⟨best, hbest, hside, hprice ▸ hlt⟩
      · rintro ⟨bid, hbid, hside', hlt⟩
        have hle : ¬level.price.ticks < bid.price.ticks := hgreatest bid hbid hside'
        refine ⟨level.toView, rfl, ?_⟩
        rw [Int64.lt_iff_toInt_lt] at hlt hle ⊢
        exact lt_of_lt_of_le hlt (not_lt.mp hle)

/-- **The book is crossed when its live list is.** -/
theorem Represents.crossed_iff (h : Represents b A) :
    b.topOfBook.Crossed ↔ CrossedLive A.live := by
  constructor
  · rintro ⟨bid, ask, hbid, hask, hlt⟩
    obtain ⟨o, ho, hside, hlt'⟩ := (h.ask_lt_iff bid.price).mp ⟨ask, hask, hlt⟩
    obtain ⟨o', ho', hside', hlt''⟩ := (h.lt_bid_iff o.price).mp ⟨bid, hbid, hlt'⟩
    exact ⟨o', ho', o, ho, hside', hside, hlt''⟩
  · rintro ⟨bid, hbid, ask, hask, hbuy, hsell, hlt⟩
    obtain ⟨best, hbest, hlt'⟩ := (h.lt_bid_iff ask.price).mpr ⟨bid, hbid, hbuy, hlt⟩
    obtain ⟨best', hbest', hlt''⟩ := (h.ask_lt_iff best.price).mpr ⟨ask, hask, hsell, hlt'⟩
    exact ⟨best, best', hbest, hbest', hlt''⟩

/-- Adding through the top is adding through an order. -/
theorem Represents.addsThrough_iff (h : Represents b A) (event : MarketEvent) :
    event.AddsThrough b.topOfBook ↔ event.AddsThroughLive A.live := by
  rw [MarketEvent.AddsThrough, MarketEvent.AddsThroughLive]
  cases event.side with
  | buy => exact and_congr_right fun _ => h.ask_lt_iff event.price
  | sell => exact and_congr_right fun _ => h.lt_bid_iff event.price

end LimitOrderBook

/-! ### What an event does to a live list -/

namespace Reference

variable {L : List LiveOrder} {event : MarketEvent}

/-- The order of an accepted add. -/
def addedOrder (event : MarketEvent) : LiveOrder :=
  ⟨event.orderId, event.side, event.price, event.timestamp, event.quantity⟩

/-- An accepted add appends its order. -/
theorem apply_add (happlied : (apply L event).1 = .applied) (htype : event.type = .add) :
    (apply L event).2 = L ++ [addedOrder event] := by
  rw [apply, htype] at happlied ⊢
  dsimp only [addOrder] at happlied ⊢
  split_ifs at happlied ⊢
  rfl

/-- An event that is not an add brings no order to a new place. -/
theorem mem_apply_of_ne_add (htype : event.type ≠ .add) {o : LiveOrder}
    (ho : o ∈ (apply L event).2) : ∃ o' ∈ L, o'.side = o.side ∧ o'.price = o.price := by
  rw [apply_eq] at ho
  cases hedit : (ruling event (quantityOf L event.orderId)).2 with
  | keep =>
      rw [hedit] at ho
      exact ⟨o, ho, rfl, rfl⟩
  | push side price timestamp quantity => exact absurd (push_of_ruling hedit).1 htype
  | erase =>
      rw [hedit] at ho
      exact ⟨o, (KeyedList.mem_eraseKey.mp ho).1, rfl, rfl⟩
  | resize quantity =>
      rw [hedit] at ho
      rcases KeyedList.mem_updateKey.mp ho with ⟨hmem, -⟩ | ⟨o', hmem, -, rfl⟩
      · exact ⟨o, hmem, rfl, rfl⟩
      · exact ⟨o', hmem, rfl, rfl⟩

/-- An accepted add through the other side leaves the list crossed, whatever it was before. -/
theorem crossedLive_of_addsThrough (happlied : (apply L event).1 = .applied)
    (hthrough : event.AddsThroughLive L) : CrossedLive (apply L event).2 := by
  obtain ⟨htype, hthrough⟩ := hthrough
  rw [apply_add happlied htype]
  have hnew : addedOrder event ∈ L ++ [addedOrder event] :=
    List.mem_append_right _ List.mem_cons_self
  cases hside : event.side with
  | buy =>
      rw [hside] at hthrough
      obtain ⟨ask, hask, hsell, hlt⟩ := hthrough
      exact ⟨addedOrder event, hnew, ask, List.mem_append_left _ hask, hside, hsell, hlt⟩
  | sell =>
      rw [hside] at hthrough
      obtain ⟨bid, hbid, hbuy, hlt⟩ := hthrough
      exact ⟨bid, List.mem_append_left _ hbid, addedOrder event, hnew, hbuy, hside, hlt⟩

/-- An event that crosses an uncrossed list is an add through the other side. -/
theorem addsThrough_of_crossedLive (huncrossed : ¬CrossedLive L)
    (happlied : (apply L event).1 = .applied) (hcrossed : CrossedLive (apply L event).2) :
    event.AddsThroughLive L := by
  by_cases htype : event.type = .add
  · rw [apply_add happlied htype] at hcrossed
    obtain ⟨bid, hbid, ask, hask, hbuy, hsell, hlt⟩ := hcrossed
    rcases List.mem_append.mp hbid with hbid | hbid
    · rcases List.mem_append.mp hask with hask | hask
      · exact absurd ⟨bid, hbid, ask, hask, hbuy, hsell, hlt⟩ huncrossed
      · obtain rfl := List.mem_singleton.mp hask
        have hside : event.side = .sell := hsell
        refine ⟨htype, ?_⟩
        rw [hside]
        exact ⟨bid, hbid, hbuy, hlt⟩
    · obtain rfl := List.mem_singleton.mp hbid
      have hside : event.side = .buy := hbuy
      refine ⟨htype, ?_⟩
      rw [hside]
      rcases List.mem_append.mp hask with hask | hask
      · exact ⟨ask, hask, hsell, hlt⟩
      · obtain rfl := List.mem_singleton.mp hask
        exact absurd (hside.symm.trans hsell) (by decide)
  · obtain ⟨bid, hbid, ask, hask, hbuy, hsell, hlt⟩ := hcrossed
    obtain ⟨bid', hbid', hside, hprice⟩ := mem_apply_of_ne_add htype hbid
    obtain ⟨ask', hask', hside', hprice'⟩ := mem_apply_of_ne_add htype hask
    refine absurd ⟨bid', hbid', ask', hask', hside.trans hbuy, hside'.trans hsell, ?_⟩ huncrossed
    rwa [hprice, hprice']

end Reference

namespace LimitOrderBook

variable {b : LimitOrderBook} {A : RestingOrders} {event : MarketEvent}

/-- An add through the top leaves the book crossed. -/
theorem Represents.crossed_of_addsThrough (h : Represents b A)
    (happlied : (b.apply event).1 = .applied) (hthrough : event.AddsThrough b.topOfBook) :
    (b.apply event).2.topOfBook.Crossed := by
  obtain ⟨hres, A', hrep', hlive⟩ := apply_refines h event
  rw [hrep'.crossed_iff, hlive]
  exact Reference.crossedLive_of_addsThrough (hres ▸ happlied)
    ((h.addsThrough_iff event).mp hthrough)

/-- **Which events cross the book**, in terms of what the book shows. -/
theorem Represents.crossed_apply_iff (h : Represents b A) (huncrossed : ¬b.topOfBook.Crossed)
    (happlied : (b.apply event).1 = .applied) :
    (b.apply event).2.topOfBook.Crossed ↔ event.AddsThrough b.topOfBook := by
  refine ⟨fun hcrossed => ?_, h.crossed_of_addsThrough happlied⟩
  obtain ⟨hres, A', hrep', hlive⟩ := apply_refines h event
  rw [hrep'.crossed_iff, hlive] at hcrossed
  rw [h.crossed_iff] at huncrossed
  exact (h.addsThrough_iff event).mpr
    (Reference.addsThrough_of_crossedLive huncrossed (hres ▸ happlied) hcrossed)

end LimitOrderBook

/-! ### Where a checked replay stops -/

section

variable {𝔻 : Type} [DoubleArith 𝔻] {options : ReplayOptions 𝔻} {pre : List CsvParseResult}
  {parsed : CsvParseResult}

/-- Behind the lines `pre`, the line `parsed` brings an add that is accepted, though it is priced
through the best opposite level. -/
def AddsThroughAfter (pre : List CsvParseResult) (parsed : CsvParseResult) : Prop :=
  ∃ event, parsed.event = some event ∧ ((bookAfter pre).apply event).1 = .applied ∧
    event.AddsThrough (bookAfter pre).topOfBook

/-- The book after one more line. -/
theorem bookAfter_concat (pre : List CsvParseResult) (parsed : CsvParseResult) :
    bookAfter (pre ++ [parsed]) =
      finalState LimitOrderBook.apply (bookAfter pre) parsed.event.toList := by
  rw [bookAfter, List.filterMap_append, finalState_append, ← bookAfter]
  cases hevent : parsed.event <;> simp [hevent]

/-- The book after one more event. -/
theorem bookAfter_event {event : MarketEvent} (hevent : parsed.event = some event) :
    bookAfter (pre ++ [parsed]) = ((bookAfter pre).apply event).2 := by
  rw [bookAfter_concat, hevent]
  rfl

/-- A line that adds through the top crosses the book. -/
theorem AddsThroughAfter.crossesAfter (h : AddsThroughAfter pre parsed) :
    CrossesAfter pre parsed := by
  obtain ⟨event, hevent, happlied, hthrough⟩ := h
  obtain ⟨A, hrep⟩ := bookAfter_represents pre
  refine ⟨event, hevent, happlied, ?_⟩
  rw [bookAfter_event hevent]
  exact hrep.crossed_of_addsThrough happlied hthrough

/-- The first line that crosses the book adds through the top. -/
theorem CrossesAfter.addsThroughAfter (h : CrossesAfter pre parsed)
    (huncrossed : ¬(bookAfter pre).topOfBook.Crossed) : AddsThroughAfter pre parsed := by
  obtain ⟨event, hevent, happlied, hcrossed⟩ := h
  obtain ⟨A, hrep⟩ := bookAfter_represents pre
  rw [bookAfter_event hevent] at hcrossed
  exact ⟨event, hevent, happlied, (hrep.crossed_apply_iff huncrossed happlied).mp hcrossed⟩

/-- Without an accepted add through the other side the book stays uncrossed. -/
theorem not_crossed_bookAfter
    (h : ∀ pre' parsed', pre' ++ [parsed'] <+: pre → ¬AddsThroughAfter pre' parsed') :
    ¬(bookAfter pre).topOfBook.Crossed := by
  induction pre using List.reverseRecOn with
  | nil =>
      rintro ⟨bid, ask, hbid, -⟩
      cases hbid
  | append_singleton pre parsed ih =>
      have huncrossed := ih fun pre' parsed' hearlier =>
        h pre' parsed' (hearlier.trans (List.prefix_append pre [parsed]))
      have hlast := h pre parsed List.prefix_rfl
      intro hcrossed
      by_cases happlied : ∃ event, parsed.event = some event ∧
          ((bookAfter pre).apply event).1 = .applied
      · obtain ⟨event, hevent, happlied⟩ := happlied
        have hcrosses : CrossesAfter pre parsed := ⟨event, hevent, happlied, hcrossed⟩
        exact hlast (hcrosses.addsThroughAfter huncrossed)
      · -- the line brings no accepted event: the book is the same
        have hrejects : (bookAfter pre).Rejects parsed := fun event hevent happlied' =>
          happlied ⟨event, hevent, happlied'⟩
        rw [bookAfter_concat, hrejects.finalState_eq] at hcrossed
        exact huncrossed hcrossed

/-- The first line that crosses the book is the first accepted add through the other side. -/
theorem first_crossing_iff :
    (∀ pre' parsed', pre' ++ [parsed'] <+: pre → ¬CrossesAfter pre' parsed') ↔
      ∀ pre' parsed', pre' ++ [parsed'] <+: pre → ¬AddsThroughAfter pre' parsed' := by
  constructor
  · intro h pre' parsed' hearlier hthrough
    exact h pre' parsed' hearlier hthrough.crossesAfter
  · intro h pre' parsed' hearlier hcrosses
    refine h pre' parsed' hearlier (hcrosses.addsThroughAfter ?_)
    refine not_crossed_bookAfter fun pre'' parsed'' hearlier' => h pre'' parsed'' ?_
    exact hearlier'.trans ((List.prefix_append pre' [parsed']).trans hearlier)

/-- A file with a crossing line has a first one, and up to there it has the same crossing lines
and adds through the other side. -/
theorem exists_crossing_iff {results : List CsvParseResult} :
    (∃ pre parsed post, results = pre ++ parsed :: post ∧ CrossesAfter pre parsed) ↔
      ∃ pre parsed post, results = pre ++ parsed :: post ∧ AddsThroughAfter pre parsed := by
  constructor
  · rintro ⟨pre, parsed, post, rfl, hcrosses⟩
    by_contra hnone
    refine hnone ⟨pre, parsed, post, rfl, hcrosses.addsThroughAfter ?_⟩
    refine not_crossed_bookAfter fun pre' parsed' hearlier hthrough => hnone ?_
    obtain ⟨between, rfl⟩ := hearlier
    exact ⟨pre', parsed', between ++ parsed :: post, by simp, hthrough⟩
  · rintro ⟨pre, parsed, post, hresults, hthrough⟩
    exact ⟨pre, parsed, post, hresults, hthrough.crossesAfter⟩

/-- At a line that crosses the book the pass ends with the report of this line. -/
theorem ReplayEngine.step_reports (engine : ReplayEngine) {content : List Char}
    {post : List CsvParseResult} (hvalidate : options.validateAfterApply = true)
    (hallow : options.invariantOptions.allowCrossedBook = false)
    (hresults : fileResults (lines content) = pre ++ parsed :: post)
    (hcrosses : CrossesAfter pre parsed) :
    ((ReplayState.step options
        (finalState (ReplayState.step options) (engine.start options) pre) parsed).2.result.errors
      ).getLast? = some ⟨.invariantFailure, parsed.lineNumber, "book invariant validation failed",
        parsed.rawRow⟩ := by
  have hlines := fileResults_isLine (lines content)
  rw [hresults] at hlines
  have hparsed : parsed.IsLine := hlines parsed (List.mem_append_right _ List.mem_cons_self)
  have hstop := (engine.step_stops_iff_crosses hresults).mpr ⟨hvalidate, hallow, hcrosses⟩
  rcases ReplayState.step_cases options
    (finalState (ReplayState.step options) (engine.start options) pre) hparsed with
    ⟨-, error, -, -, hstep⟩ | ⟨event, -, -, hstep⟩
  · rw [hstep] at hstop
    cases hstop
  · rw [hstep, ReplayState.accept_eq] at hstop ⊢
    split_ifs at hstop ⊢
    exact List.getLast?_concat

end

/-- **A checked replay is cut short at the first accepted add through the other side**, and at
nothing else, when crossed books are not allowed. A failed check is reported exactly if some line
brings such an add; at the first one the replay ends, with the add in the final book, and its
last error names this line. -/
theorem replay_stops_at_crossing_add {𝔻 : Type} [DoubleArith 𝔻] (engine : ReplayEngine)
    (inputPath : String) (content : List Char) (options : ReplayOptions 𝔻)
    (hvalidate : options.validateAfterApply = true)
    (hallow : options.invariantOptions.allowCrossedBook = false) :
    let results := fileResults (lines content)
    let replay := engine.replayFile inputPath (some content) options
    (replay.1.invariantFailed = true ↔
        ∃ pre parsed post, results = pre ++ parsed :: post ∧ AddsThroughAfter pre parsed) ∧
      ∀ pre parsed post, results = pre ++ parsed :: post → AddsThroughAfter pre parsed →
        (∀ pre' parsed', pre' ++ [parsed'] <+: pre → ¬AddsThroughAfter pre' parsed') →
        replay.2.book = bookAfter (pre ++ [parsed]) ∧
          replay.1.errors.getLast? = some ⟨.invariantFailure, parsed.lineNumber,
            "book invariant validation failed", parsed.rawRow⟩ := by
  dsimp only
  constructor
  · rw [engine.invariantFailed_iff, ← exists_crossing_iff]
    exact ⟨fun h => h.2.2, fun h => ⟨hvalidate, hallow, h⟩⟩
  · intro pre parsed post hresults hthrough hfirst
    have hcrosses := hthrough.crossesAfter
    have hfirst' := first_crossing_iff.mpr hfirst
    obtain ⟨hbook, -⟩ := engine.replay_halts hvalidate hallow hresults hcrosses hfirst'
    have hstop := (engine.step_stops_iff_crosses hresults).mpr ⟨hvalidate, hallow, hcrosses⟩
    have hcontinue : ∀ pre' parsed', pre' ++ [parsed'] <+: pre →
        (ReplayState.step options
          (finalState (ReplayState.step options) (engine.start options) pre')
          parsed').1 = false := by
      rintro pre' parsed' hearlier
      obtain ⟨between, rfl⟩ := hearlier
      have hsplit : fileResults (lines content) =
          pre' ++ parsed' :: (between ++ parsed :: post) := by
        rw [hresults]
        simp
      rw [← Bool.not_eq_true, engine.step_stops_iff_crosses hsplit]
      rintro ⟨-, -, hearlier⟩
      exact hfirst' pre' parsed' (List.prefix_append _ _) hearlier
    have hread := untilStop_eq hcontinue hstop post
    rw [ReplayEngine.replayFile_eq]
    refine ⟨hbook, ?_⟩
    dsimp only [ReplayResult.finish]
    rw [haltState, hresults, hread, finalState_concat]
    exact engine.step_reports hvalidate hallow hresults hcrosses

/-- The second add of this feed sells below the bid. -/
theorem replay_stops_at_crossing_add_feed :
    (ReplayEngine.new.replayFile "feed.csv" (some crossedFeed)
      ({} : ReplayOptions Float)).1.errors.getLast? =
        some ⟨.invariantFailure, 3, "book invariant validation failed",
          "2,ADD,2,S,5,3".toList⟩ := by
  have hstops := replay_stops_at_crossing_add ReplayEngine.new "feed.csv" crossedFeed
    ({} : ReplayOptions Float) rfl rfl
  obtain ⟨hraw, hnumber, -⟩ := parseRow_fields 3 "2,ADD,2,S,5,3".toList
  have hlast := hstops.2 [parseRow 2 "1,ADD,1,B,10,7".toList] (parseRow 3 "2,ADD,2,S,5,3".toList)
    [parseRow 4 "3,CANCEL,1,,,".toList] (by decide +kernel)
  rw [hraw, hnumber] at hlast
  refine (hlast ?_ ?_).2
  · refine ⟨⟨.add, ⟨2⟩, ⟨2⟩, .sell, ⟨5⟩, ⟨3⟩⟩, by decide +kernel, by decide +kernel, rfl,
      ⟨⟨10⟩, ⟨7⟩, 1⟩, by decide +kernel, by decide⟩
  · rintro pre' parsed' hearlier ⟨event, -, -, -, hthrough⟩
    have hnil : pre' = [] := by
      have hlength := hearlier.length_le
      rw [List.length_append, List.length_singleton, List.length_singleton] at hlength
      exact List.length_eq_zero_iff.mp (by omega)
    subst hnil
    cases hside : event.side with
    | buy =>
        rw [hside] at hthrough
        obtain ⟨ask, hask, -⟩ := hthrough
        cases hask
    | sell =>
        rw [hside] at hthrough
        obtain ⟨bid, hbid, -⟩ := hthrough
        cases hbid

end Datagine
