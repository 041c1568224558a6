import Datagine.CrossingAdds
import Datagine.CsvEncoding
import Datagine.SnapshotState

/-!
# Replaying from a Checkpoint

A replay reads its file from the start. The final snapshot of a replay can be written as a file
that starts another one: the header, and a row for every order of the snapshot. This module
compares the replay of some lines followed by others with the replay of the checkpoint of the
first lines followed by the others.

The rows of the checkpoint are accepted one by one, and no book on the way is crossed, although
the orders arrive in another order than they once did: each of these books holds a part of the
orders of a book that passed the check. Behind the rows the two replays go on in step
(`ReplayState.Resumed`).

## Main results

* `replay_of_more_lines`: appended lines take nothing back of what a replay has reported.
* `replay_from_checkpoint`: the replay goes on behind the checkpoint as it would have gone on, up
  to the numbers of its lines and what the checkpoint does not carry.
-/

namespace Datagine

open Mealy Text

/-! ### Building a book from its snapshot -/

namespace LimitOrderBook

variable {b b' : LimitOrderBook}

theorem Alike.topOfBook_eq (h : Alike b b') : b.topOfBook = b'.topOfBook := by
  rw [LimitOrderBook.topOfBook_eq, LimitOrderBook.topOfBook_eq, h.snapshot_eq]

theorem Alike.validateInvariants_eq (h : Alike b b') (options : InvariantOptions) :
    b.validateInvariants options = b'.validateInvariants options := by
  have htop := h.topOfBook_eq
  obtain ⟨_, _, ⟨A, hrep, rfl⟩, ⟨A', hrep', rfl⟩, -⟩ := h
  rw [Bool.eq_iff_iff, hrep.validateInvariants_iff, hrep'.validateInvariants_iff, htop]

/-- While the orders of a snapshot are added, the book holds some of the orders of the book that
the snapshot is of, and is not crossed if that book is not. -/
theorem HoldsLive.uncrossed_rebuilding {L : List LiveOrder} (h : HoldsLive b L)
    (huncrossed : ¬b.topOfBook.Crossed) {events : List MarketEvent}
    (hevents : events <+: b.snapshot.addEvents) :
    ¬(finalState apply empty events).topOfBook.Crossed := by
  obtain ⟨A, hrep, rfl⟩ := h
  have hbids := hrep.showsSide .buy
  have hasks := hrep.showsSide .sell
  have hsame := sameQueues_listed hbids hasks
  have hadds : b.snapshot.addEvents = (_ ++ _ : List LiveOrder).map LiveOrder.addEvent :=
    (congrArg₂ _ hbids.addEvents_eq hasks.addEvents_eq).trans (List.map_append ..).symm
  have hnd := (hsame.perm.map LiveOrder.orderId).nodup_iff.mp A.live_idsNodup
  -- the events are the adds of the first orders of the listing
  rw [hadds, List.prefix_map_iff] at hevents
  obtain ⟨K, hK, rfl⟩ := hevents
  have hsub : ∀ o ∈ K, o ∈ A.live := fun o ho => hsame.perm.mem_iff.mpr (hK.subset ho)
  obtain ⟨-, hfinal⟩ := Reference.run_addEvents (L := [])
    (hnd.sublist (hK.sublist.map LiveOrder.orderId)) fun o ho => A.live_positive o (hsub o ho)
  have hholds := (runEvents_refines (K.map LiveOrder.addEvent)).2
  rw [hfinal] at hholds
  obtain ⟨B, hrepB, hlive⟩ := hholds
  rw [hrepB.crossed_iff, hlive]
  rintro ⟨bid, hbid, ask, hask, hcrossed⟩
  exact huncrossed (hrep.crossed_iff.mpr ⟨bid, hsub bid hbid, ask, hsub ask hask, hcrossed⟩)

end LimitOrderBook

/-! ### Two replays in step -/

/-- The same error, about a line that has `orders` lines in place of `skipped` ones before it. -/
structure ReplayError.Moved (skipped orders : ℕ) (error error' : ReplayError) : Prop where
  type : error.type = error'.type
  lineNumber : error.lineNumber + orders = error'.lineNumber + skipped
  message : error.message = error'.message
  rawRow : error.rawRow = error'.rawRow

/-- The same result of a line, under a number that is moved likewise. -/
structure CsvParseResult.Moved (skipped orders : ℕ) (parsed parsed' : CsvParseResult) :
    Prop where
  status : parsed.status = parsed'.status
  event : parsed.event = parsed'.event
  lineNumber : parsed.lineNumber + orders = parsed'.lineNumber + skipped
  message : parsed.message = parsed'.message
  rawRow : parsed.rawRow = parsed'.rawRow

/-- A row is parsed alike under any number. -/
theorem moved_parseRow {skipped orders n m : ℕ} (h : n + orders = m + skipped)
    (row : List Char) : (parseRow n row).Moved skipped orders (parseRow m row) := by
  rw [parseRow, parseRow]
  cases parseColumns (splitCsvColumns row) with
  | error message => exact ⟨rfl, rfl, h, rfl, rfl⟩
  | ok event => exact ⟨rfl, rfl, h, rfl, rfl⟩

theorem moved_rows {skipped orders n m : ℕ} (h : n + orders = m + skipped)
    (rows : List (List Char)) :
    List.Forall₂ (CsvParseResult.Moved skipped orders)
      (rows.mapIdx fun i row => parseRow (i + n) row)
      (rows.mapIdx fun i row => parseRow (i + m) row) := by
  induction rows generalizing n m with
  | nil => exact .nil
  | cons row rows ih =>
      have hshift : ∀ k i, i + 1 + k = i + (k + 1) := fun k i => by omega
      rw [List.mapIdx_cons, List.mapIdx_cons]
      simp only [hshift]
      exact .cons (moved_parseRow (by omega) row) (ih (by omega))

variable {𝔻 : Type} [DoubleArith 𝔻]

namespace ReplayState

/-- The replay in state `t` goes on behind a checkpoint of `orders` rows as the replay in state
`s` goes on behind the `skipped` lines that had the result `base`: the books are alike, and what
was counted and reported since is the same. -/
structure Resumed (base : ReplayResult 𝔻) (skipped orders : ℕ) (s t : ReplayState 𝔻) : Prop where
  book : LimitOrderBook.Alike s.book t.book
  invariantFailed : s.result.invariantFailed = t.result.invariantFailed
  eventsProcessed :
    s.result.eventsProcessed + orders = t.result.eventsProcessed + base.eventsProcessed
  rejectedEvents : s.result.rejectedEvents = base.rejectedEvents + t.result.rejectedEvents
  errors : ∃ later, s.result.errors = base.errors ++ later ∧
    List.Forall₂ (ReplayError.Moved skipped orders) later t.result.errors

variable {base : ReplayResult 𝔻} {skipped orders : ℕ} {s t : ReplayState 𝔻}
  {options : ReplayOptions 𝔻}

/-- The errors of the two replays grow alike. -/
theorem Resumed.report (h : Resumed base skipped orders s t) {error error' : ReplayError}
    (herror : error.Moved skipped orders error') :
    ∃ later, s.result.errors ++ [error] = base.errors ++ later ∧
      List.Forall₂ (ReplayError.Moved skipped orders) later (t.result.errors ++ [error']) := by
  obtain ⟨later, herrors, hmoved⟩ := h.errors
  refine ⟨later ++ [error], by rw [herrors, List.append_assoc], ?_⟩
  exact List.rel_append hmoved (.cons herror .nil)

theorem Resumed.reject (h : Resumed base skipped orders s t) {error error' : ReplayError}
    (herror : error.Moved skipped orders error') :
    Resumed base skipped orders (s.reject error) (t.reject error') where
  book := h.book
  invariantFailed := h.invariantFailed
  eventsProcessed := h.eventsProcessed
  rejectedEvents := congrArg (· + 1) h.rejectedEvents
  errors := h.report herror

theorem Resumed.counted (h : Resumed base skipped orders s t) (options : ReplayOptions 𝔻)
    (event : MarketEvent) :
    Resumed base skipped orders (s.counted options event) (t.counted options event) where
  book := h.book
  invariantFailed := h.invariantFailed
  eventsProcessed := by
    have hprocessed := h.eventsProcessed
    simp only [ReplayState.counted]
    omega
  rejectedEvents := h.rejectedEvents
  errors := h.errors

theorem Resumed.fail (h : Resumed base skipped orders s t) {parsed parsed' : CsvParseResult}
    (hparsed : parsed.Moved skipped orders parsed') :
    Resumed base skipped orders (s.fail parsed) (t.fail parsed') where
  book := h.book
  invariantFailed := rfl
  eventsProcessed := h.eventsProcessed
  rejectedEvents := h.rejectedEvents
  errors := h.report ⟨rfl, hparsed.lineNumber, rfl, hparsed.rawRow⟩

/-- **One pass.** -/
theorem Resumed.step (h : Resumed base skipped orders s t) (options : ReplayOptions 𝔻)
    {parsed parsed' : CsvParseResult} (hparsed : parsed.Moved skipped orders parsed') :
    (s.step options parsed).1 = (t.step options parsed').1 ∧
      Resumed base skipped orders (s.step options parsed).2 (t.step options parsed').2 := by
  rw [ReplayState.step, ReplayState.step, hparsed.status, hparsed.event]
  split_ifs with hstatus
  · exact ⟨rfl, h.reject ⟨rfl, hparsed.lineNumber, hparsed.message, hparsed.rawRow⟩⟩
  · cases parsed'.event with
    | none => exact ⟨rfl, h⟩
    | some event =>
        obtain ⟨hanswer, hbook⟩ := h.book.step event
        have hnext : Resumed base skipped orders { s with book := (s.book.apply event).2 }
            { t with book := (t.book.apply event).2 } :=
          ⟨hbook, h.invariantFailed, h.eventsProcessed, h.rejectedEvents, h.errors⟩
        dsimp only
        rw [hanswer]
        split_ifs with happlied
        · exact ⟨rfl, hnext.reject ⟨rfl, hparsed.lineNumber, rfl, hparsed.rawRow⟩⟩
        · have hcheck : failsCheck options (s.book.apply event).2 =
              failsCheck options (t.book.apply event).2 := by
            rw [failsCheck, hbook.validateInvariants_eq, failsCheck]
          have hcounted := hnext.counted options event
          rw [accept_eq, accept_eq]
          dsimp only
          rw [hcheck]
          split_ifs with hfails
          · exact ⟨rfl, hcounted.fail hparsed⟩
          · exact ⟨rfl, hcounted⟩

/-! ### Reading the checkpoint -/

/-- Events that are all accepted, into books that pass the check, are counted and nothing else
happens. -/
theorem run_accepted (options : ReplayOptions 𝔻) {events : List MarketEvent}
    {results : List CsvParseResult}
    (hresults : List.Forall₂ (fun event parsed =>
      parsed.status = .event ∧ parsed.event = some event) events results)
    {s : ReplayState 𝔻}
    (happlied : ∀ r ∈ outputs LimitOrderBook.apply s.book events, r = .applied)
    (hpasses : ∀ pre, pre <+: events →
      failsCheck options (finalState LimitOrderBook.apply s.book pre) = false) :
    let t := finalState (step options) s results
    true ∉ outputs (step options) s results ∧
      t.book = finalState LimitOrderBook.apply s.book events ∧
      t.result.invariantFailed = s.result.invariantFailed ∧
      t.result.eventsProcessed = s.result.eventsProcessed + events.length ∧
      t.result.rejectedEvents = s.result.rejectedEvents ∧ t.result.errors = s.result.errors := by
  induction hresults generalizing s with
  | nil => exact ⟨List.not_mem_nil, rfl, rfl, rfl, rfl, rfl⟩
  | @cons event parsed events results hparsed _ ih =>
      obtain ⟨hstatus, hevent⟩ := hparsed
      have hfirst : (s.book.apply event).1 = .applied := happlied _ List.mem_cons_self
      have hpass : failsCheck options (s.book.apply event).2 = false :=
        hpasses [event] (List.prefix_append [event] events)
      have hstep : s.step options parsed =
          (false, ({ s with book := (s.book.apply event).2 }).counted options event) := by
        have hne : parsed.status ≠ .malformedRow := by simp [hstatus]
        simp only [step, if_neg hne, hevent, hfirst, ne_eq, not_true_eq_false, if_false,
          accept_eq, hpass, Bool.false_eq_true]
      obtain ⟨hgoes, hbook, hfailed, hprocessed, hrejected, herrors⟩ :=
        ih (s := (s.step options parsed).2)
          (by rw [hstep]; exact fun r hr => happlied r (List.mem_cons_of_mem _ hr))
          (by
            rw [hstep]
            exact fun pre hpre => hpasses (event :: pre) ((List.prefix_cons_inj event).mpr hpre))
      rw [outputs_cons, finalState_cons]
      refine ⟨?_, hbook.trans ?_, hfailed.trans ?_, hprocessed.trans ?_, hrejected.trans ?_,
        herrors.trans ?_⟩
      · rw [List.mem_cons, not_or]
        exact ⟨by rw [hstep]; exact Bool.false_ne_true.symm, hgoes⟩
      · rw [hstep]; rfl
      · rw [hstep]; rfl
      · rw [hstep, List.length_cons]
        simp only [ReplayState.counted]
        omega
      · rw [hstep]; rfl
      · rw [hstep]; rfl

/-- A book that the check was made of, or that is still empty, passes it. -/
theorem failsCheck_finalState (options : ReplayOptions 𝔻) {results : List CsvParseResult}
    (hlines : ∀ parsed ∈ results, parsed.IsLine) {s : ReplayState 𝔻}
    (hs : failsCheck options s.book = false)
    (hgoes : true ∉ outputs (step options) s results) :
    failsCheck options (finalState (step options) s results).book = false := by
  induction results generalizing s with
  | nil => exact hs
  | cons parsed results ih =>
      rw [outputs_cons, List.mem_cons, not_or] at hgoes
      have hnext : failsCheck options (s.step options parsed).2.book = false := by
        have hflag := hgoes.1
        rcases step_cases options s (hlines parsed List.mem_cons_self) with
          ⟨-, error, -, -, hstep⟩ | ⟨event, -, -, hstep⟩
        · rw [hstep]
          exact hs
        · rw [hstep, accept_eq] at hflag ⊢
          dsimp only at hflag ⊢
          split_ifs at hflag ⊢ with hfails
          · exact absurd rfl hflag
          · exact eq_false_of_ne_true hfails
      exact ih (fun r hr => hlines r (List.mem_cons_of_mem parsed hr)) hnext hgoes.2

end ReplayState

/-! ### More lines -/

/-- The result `later` reports what `result` reports, and more behind it; no count is lower. -/
structure ReplayResult.Extends (later result : ReplayResult 𝔻) : Prop where
  eventsProcessed : result.eventsProcessed ≤ later.eventsProcessed
  rejectedEvents : result.rejectedEvents ≤ later.rejectedEvents
  errors : result.errors <+: later.errors
  anomalies : result.anomalies <+: later.anomalies
  anomalyReasonCounts : ∀ reason, (result.anomalyReasonCounts.lookup reason).getD 0 ≤
    (later.anomalyReasonCounts.lookup reason).getD 0

omit [DoubleArith 𝔻] in
theorem ReplayResult.Extends.refl (result : ReplayResult 𝔻) : result.Extends result :=
  ⟨Nat.le_refl _, Nat.le_refl _, List.prefix_rfl, List.prefix_rfl, fun _ => Nat.le_refl _⟩

omit [DoubleArith 𝔻] in
/-- Counting more anomalies lowers no count. -/
theorem lookup_le_foldl_countReason (counts : Finmap fun _ : String => ℕ)
    (anomalies : List (AnomalyEvent 𝔻)) (reason : String) :
    (counts.lookup reason).getD 0 ≤
      ((anomalies.foldl (fun counts anomaly => countReason counts anomaly.reason) counts).lookup
        reason).getD 0 := by
  induction anomalies generalizing counts with
  | nil => exact Nat.le_refl _
  | cons anomaly anomalies ih =>
      refine le_trans ?_ (ih (countReason counts anomaly.reason))
      rw [countReason]
      by_cases hreason : reason = anomaly.reason
      · subst hreason
        simp [Finmap.lookup_insert]
      · rw [Finmap.lookup_insert_of_ne _ hreason]

namespace ReplayState

variable {result : ReplayResult 𝔻} {s : ReplayState 𝔻} {options : ReplayOptions 𝔻}

/-- A pass takes nothing back. -/
theorem extends_step (h : s.result.Extends result) {parsed : CsvParseResult}
    (hline : parsed.IsLine) : (s.step options parsed).2.result.Extends result := by
  rcases step_cases options s hline with ⟨-, error, -, -, hstep⟩ | ⟨event, -, -, hstep⟩
  · rw [hstep]
    exact ⟨h.eventsProcessed, h.rejectedEvents.trans (Nat.le_succ _),
      h.errors.trans (List.prefix_append _ _), h.anomalies, h.anomalyReasonCounts⟩
  · have hprocessed := h.eventsProcessed.trans (Nat.le_succ _)
    have hanomalies := h.anomalies.trans (List.prefix_append _
      (({ s with book := (s.book.apply event).2 } : ReplayState 𝔻).findings options event).1)
    have hcounts := fun reason => (h.anomalyReasonCounts reason).trans
      (lookup_le_foldl_countReason s.result.anomalyReasonCounts
        (({ s with book := (s.book.apply event).2 } : ReplayState 𝔻).findings options event).1
        reason)
    rw [hstep, accept_eq]
    split_ifs
    · exact ⟨hprocessed, h.rejectedEvents, h.errors.trans (List.prefix_append _ _), hanomalies,
        hcounts⟩
    · exact ⟨hprocessed, h.rejectedEvents, h.errors, hanomalies, hcounts⟩

theorem extends_finalState (h : s.result.Extends result) {results : List CsvParseResult}
    (hlines : ∀ parsed ∈ results, parsed.IsLine) :
    (finalState (step options) s results).result.Extends result := by
  induction results generalizing s with
  | nil => exact h
  | cons parsed results ih =>
      exact ih (extends_step h (hlines parsed List.mem_cons_self))
        fun r hr => hlines r (List.mem_cons_of_mem parsed hr)

end ReplayState

/-! ### The checkpoint file -/

/-- The rows of a checkpoint: an add for each order of the snapshot. -/
def BookSnapshot.checkpointRows (snapshot : BookSnapshot) : List (List Char) :=
  snapshot.addEvents.map encodeRow

/-- The file with the given data rows. -/
def fileOf (rows : List (List Char)) : List Char := unlines (expectedHeader :: rows)

theorem BookSnapshot.mem_addEvents {snapshot : BookSnapshot} {event : MarketEvent}
    (h : event ∈ snapshot.addEvents) : event.type = .add := by
  have hside : ∀ (s : Side) (levels : List PriceLevelSnapshot),
      event ∈ levels.flatMap (PriceLevelSnapshot.addEvents s) → event.type = .add := by
    intro s levels hmem
    obtain ⟨level, -, hmem⟩ := List.mem_flatMap.mp hmem
    obtain ⟨order, -, rfl⟩ := List.mem_map.mp hmem
    rfl
  rcases List.mem_append.mp h with hbid | hask
  · exact hside .buy _ hbid
  · exact hside .sell _ hask

theorem BookSnapshot.length_checkpointRows (snapshot : BookSnapshot) :
    snapshot.checkpointRows.length = snapshot.addEvents.length := List.length_map ..

theorem BookSnapshot.lineFeed_not_mem (snapshot : BookSnapshot) :
    ∀ row ∈ snapshot.checkpointRows, '\n' ∉ row := by
  intro row hrow
  obtain ⟨event, -, rfl⟩ := List.mem_map.mp hrow
  exact lineFeed_not_mem_rowOf (rowOf_encodeRow event)

/-- The rows of adds are read as the events they were written for. -/
theorem results_encodeRows {events : List MarketEvent} (h : ∀ event ∈ events, event.type = .add)
    (n : ℕ) :
    List.Forall₂ (fun event parsed => parsed.status = .event ∧ parsed.event = some event) events
      ((events.map encodeRow).mapIdx fun i row => parseRow (i + n) row) := by
  induction events generalizing n with
  | nil => exact .nil
  | cons event events ih =>
      have hadd := h event List.mem_cons_self
      have hnormal : event.Normal :=
        ⟨fun hne => absurd hadd hne, by simp [hadd], by simp [hadd]⟩
      have hshift : ∀ i, i + 1 + n = i + (n + 1) := fun i => by omega
      rw [List.map_cons, List.mapIdx_cons, parseRow_rowOf hnormal (rowOf_encodeRow event)]
      simp only [hshift]
      exact .cons ⟨rfl, rfl⟩ (ih (fun e he => h e (List.mem_cons_of_mem event he)) (n + 1))

theorem BookSnapshot.results_checkpointRows (snapshot : BookSnapshot) :
    List.Forall₂ (fun event parsed => parsed.status = .event ∧ parsed.event = some event)
      snapshot.addEvents (snapshot.checkpointRows.mapIdx fun i row => parseRow (i + 2) row) :=
  results_encodeRows (fun _ hevent => mem_addEvents hevent) 2

theorem fileResults_fileOf {rows : List (List Char)} (h : ∀ row ∈ rows, '\n' ∉ row) :
    fileResults (lines (fileOf rows)) = rows.mapIdx fun i row => parseRow (i + 2) row := by
  have hlines : lines (unlines (expectedHeader :: rows)) = expectedHeader :: rows := by
    refine lines_unlines fun line hline => ?_
    rcases List.mem_cons.mp hline with rfl | hline
    · decide
    · exact h line hline
  have htrim : trim expectedHeader = expectedHeader := by decide
  rw [fileOf, hlines, fileResults, if_pos htrim]

namespace ReplayEngine

variable (engine : ReplayEngine) {before after : List (List Char)} {options : ReplayOptions 𝔻}

/-- A replay that passes its checks goes through all results. -/
theorem stop_of_passes {content : List Char}
    (hpasses : (engine.stop content options).result.invariantFailed = false) :
    true ∉ outputs (ReplayState.step options) (engine.start options)
        (fileResults (lines content)) ∧
      engine.stop content options = finalState (ReplayState.step options) (engine.start options)
        (fileResults (lines content)) := by
  have hgoes : true ∉ outputs (ReplayState.step options) (engine.start options)
      (fileResults (lines content)) := by
    rw [← stop_failed_iff, hpasses]
    exact Bool.false_ne_true
  refine ⟨hgoes, ?_⟩
  rw [stop, haltState, untilStop_eq_self hgoes]

/-- The replay of more rows goes on where the replay of the first ones has ended. -/
theorem stop_append (hbefore : ∀ row ∈ before, '\n' ∉ row) (hafter : ∀ row ∈ after, '\n' ∉ row)
    (hpasses : (engine.stop (fileOf before) options).result.invariantFailed = false) :
    engine.stop (fileOf (before ++ after)) options =
      haltState (ReplayState.step options) (engine.stop (fileOf before) options)
        (after.mapIdx fun i row => parseRow (i + (before.length + 2)) row) := by
  obtain ⟨hgoes, hstop⟩ := engine.stop_of_passes hpasses
  rw [fileResults_fileOf hbefore] at hgoes hstop
  have hrows : ∀ row ∈ before ++ after, '\n' ∉ row := fun row hrow =>
    (List.mem_append.mp hrow).elim (hbefore row) (hafter row)
  rw [stop, fileResults_fileOf hrows, List.mapIdx_append, haltState_append hgoes, ← hstop]
  simp only [Nat.add_assoc]

theorem stop_extends (hbefore : ∀ row ∈ before, '\n' ∉ row) (hafter : ∀ row ∈ after, '\n' ∉ row)
    (hpasses : (engine.stop (fileOf before) options).result.invariantFailed = false) :
    (engine.stop (fileOf (before ++ after)) options).result.Extends
      (engine.stop (fileOf before) options).result := by
  have hlines : ∀ parsed ∈ after.mapIdx fun i row => parseRow (i + (before.length + 2)) row,
      parsed.IsLine := by
    intro parsed hparsed
    obtain ⟨i, -, rfl⟩ := List.mem_mapIdx.mp hparsed
    exact parseRow_isLine _ _
  have hread := untilStop_prefix (ReplayState.step options) (engine.stop (fileOf before) options)
    (after.mapIdx fun i row => parseRow (i + (before.length + 2)) row)
  rw [engine.stop_append hbefore hafter hpasses]
  exact ReplayState.extends_finalState (.refl _)
    fun parsed hparsed => hlines parsed (hread.subset hparsed)

/-- The rows behind a failed check are not read. -/
theorem stop_append_of_failed (hbefore : ∀ row ∈ before, '\n' ∉ row)
    (hafter : ∀ row ∈ after, '\n' ∉ row)
    (hfails : (engine.stop (fileOf before) options).result.invariantFailed = true) :
    engine.stop (fileOf (before ++ after)) options = engine.stop (fileOf before) options := by
  have hstops := stop_failed_iff.mp hfails
  have hrows : ∀ row ∈ before ++ after, '\n' ∉ row := fun row hrow =>
    (List.mem_append.mp hrow).elim (hbefore row) (hafter row)
  rw [fileResults_fileOf hbefore] at hstops
  rw [stop, fileResults_fileOf hrows, List.mapIdx_append, haltState, untilStop_append_of_mem hstops,
    stop, fileResults_fileOf hbefore, haltState]

theorem failsCheck_start (engine : ReplayEngine) (options : ReplayOptions 𝔻) :
    ReplayState.failsCheck options (engine.start options).book = false := by
  refine eq_false_of_ne_true fun hfails => ?_
  obtain ⟨-, -, bid, ask, hbid, -⟩ :=
    (ReplayState.failsCheck_iff LimitOrderBook.represents_empty).mp hfails
  cases hbid

/-- **Behind the checkpoint.** The replay of the checkpoint is in step with the replay it was
taken from. -/
theorem resumed_stop
    (hpasses : (engine.stop (fileOf before) options).result.invariantFailed = false) :
    let s := engine.stop (fileOf before) options
    let rows := s.book.snapshot.checkpointRows
    let t := engine.stop (fileOf rows) options
    t.result.invariantFailed = false ∧
      ReplayState.Resumed s.result before.length rows.length s t := by
  intro s rows t
  obtain ⟨hgoes, hstop⟩ := engine.stop_of_passes hpasses
  have hlines := fileResults_isLine (lines (fileOf before))
  have hbook : s.book = bookAfter (fileResults (lines (fileOf before))) :=
    (congrArg ReplayState.book hstop).trans (ReplayState.finalState_book hlines _)
  obtain ⟨A, hrep⟩ := bookAfter_represents (fileResults (lines (fileOf before)))
  rw [← hbook] at hrep
  have hholds : LimitOrderBook.HoldsLive s.book A.live := ⟨A, hrep, rfl⟩
  obtain ⟨happlied, hlike⟩ := hholds.rebuild
  have hpass := ReplayState.failsCheck_finalState options hlines
    (engine.failsCheck_start options) hgoes
  rw [← hstop] at hpass
  have hpassing : ∀ pre, pre <+: s.book.snapshot.addEvents → ReplayState.failsCheck options
      (finalState LimitOrderBook.apply .empty pre) = false := by
    intro pre hpre
    refine eq_false_of_ne_true fun hfails => ?_
    obtain ⟨B, hrepB, -⟩ := (LimitOrderBook.runEvents_refines pre).2
    obtain ⟨hvalidate, hallow, hcrossed⟩ := (ReplayState.failsCheck_iff hrepB).mp hfails
    refine hholds.uncrossed_rebuilding (fun hcrossedNow => ?_) hpre hcrossed
    rw [(ReplayState.failsCheck_iff hrep).mpr ⟨hvalidate, hallow, hcrossedNow⟩] at hpass
    cases hpass
  obtain ⟨hgoes', hbook', hfailed, hprocessed, hrejected, herrors⟩ :=
    ReplayState.run_accepted (s := engine.start options) options
      s.book.snapshot.results_checkpointRows happlied hpassing
  have ht : t = finalState (ReplayState.step options) (engine.start options)
      (rows.mapIdx fun i row => parseRow (i + 2) row) := by
    have hresults := fileResults_fileOf s.book.snapshot.lineFeed_not_mem
    change haltState _ _ (fileResults (lines (fileOf rows))) = _
    rw [hresults, haltState, untilStop_eq_self hgoes']
  have hlength : rows.length = s.book.snapshot.addEvents.length :=
    s.book.snapshot.length_checkpointRows
  rw [ht]
  refine ⟨hfailed, ⟨hbook' ▸ hlike, hpasses.trans hfailed.symm, ?_, ?_, [], ?_, ?_⟩⟩
  · have hnone : (engine.start options).result.eventsProcessed = 0 := rfl
    rw [hprocessed, hlength, hnone]
    omega
  · rw [hrejected]
    rfl
  · rw [List.append_nil]
  · rw [herrors]
    exact .nil

end ReplayEngine

/-- **Appending lines.** A replay never takes back what it has reported: the replay of more lines
reports the same errors and anomalies and then others, and counts at least as many accepted and
rejected events and as many anomalies of each reason. If the first lines fail a check, the others
change nothing at all. -/
theorem replay_of_more_lines (engine : ReplayEngine) (inputPath : String)
    (before after : List (List Char)) (options : ReplayOptions 𝔻)
    (hbefore : ∀ row ∈ before, '\n' ∉ row) (hafter : ∀ row ∈ after, '\n' ∉ row) :
    let first := engine.replayFile inputPath (some (fileOf before)) options
    let whole := engine.replayFile inputPath (some (fileOf (before ++ after))) options
    whole.1.Extends first.1 ∧ (first.1.invariantFailed = true → whole = first) := by
  dsimp only
  rw [engine.replayFile_eq, engine.replayFile_eq]
  cases hfailed : (engine.stop (fileOf before) options).result.invariantFailed with
  | false =>
      obtain ⟨hprocessed, hrejected, herrors, hanomalies, hcounts⟩ :=
        engine.stop_extends hbefore hafter hfailed
      refine ⟨⟨hprocessed, hrejected, herrors, hanomalies, hcounts⟩, fun h => ?_⟩
      exact absurd (hfailed.symm.trans h) Bool.false_ne_true
  | true =>
      have hsame := engine.stop_append_of_failed hbefore hafter hfailed
      rw [ReplayEngine.stop, ReplayEngine.stop] at hsame
      refine ⟨?_, fun _ => by rw [hsame]⟩
      rw [hsame]
      exact .refl _

/-- Lines that leave a bid of six units, with a malformed one between them. -/
def checkpointedRows : List (List Char) :=
  ["1,ADD,1,B,100,10".toList, "2,ADD,2,S,,5".toList, "3,EXECUTE,1,,0,4".toList]

/-- Lines that reuse the order, name an order that is gone and cross the book. -/
def laterRows : List (List Char) :=
  ["4,MODIFY,1,,0,2".toList, "5,CANCEL,9,,,".toList, "6,ADD,3,S,99,1".toList,
    "7,CANCEL,1,,,".toList]

/-- The later lines of this file add two errors to the one of the first lines. -/
theorem replay_of_more_lines_twoFiles :
    let replay := fun rows =>
      (ReplayEngine.new.replayFile "" (some (fileOf rows)) ({} : ReplayOptions Float)).1
    (∀ row ∈ checkpointedRows ++ laterRows, '\n' ∉ row) ∧
      (replay checkpointedRows).errors.length = 1 ∧
      (replay (checkpointedRows ++ laterRows)).errors.length = 3 ∧
      (replay checkpointedRows).errors <+: (replay (checkpointedRows ++ laterRows)).errors := by
  have hextends := (replay_of_more_lines ReplayEngine.new "" checkpointedRows laterRows
    ({} : ReplayOptions Float) (by decide) (by decide)).1
  refine ⟨by decide, ?_, ?_, hextends.errors⟩
  · dsimp only
    rw [ReplayEngine.replayFile_eq]
    decide +kernel
  · dsimp only
    rw [ReplayEngine.replayFile_eq]
    decide +kernel

/-- **Replaying from a checkpoint.** Let a replay of some lines `before` pass its checks, and write
its final snapshot as rows of adds. The replay of these rows followed by any lines `after` ends
like the replay of `before` followed by `after`: in the same snapshot, top of book and checksum,
cut short by a failed check or not. It reports the same errors about the lines of `after`, under
their new numbers, and counts the same of them as processed and rejected. -/
theorem replay_from_checkpoint (engine : ReplayEngine) (inputPath : String)
    (before after : List (List Char)) (options : ReplayOptions 𝔻)
    (hbefore : ∀ row ∈ before, '\n' ∉ row) (hafter : ∀ row ∈ after, '\n' ∉ row)
    (hpasses : (engine.replayFile inputPath (some (fileOf before)) options).1.invariantFailed =
      false) :
    let start := (engine.replayFile inputPath (some (fileOf before)) options).1
    let rows := start.finalSnapshot.checkpointRows
    let whole := (engine.replayFile inputPath (some (fileOf (before ++ after))) options).1
    let resumed := (engine.replayFile inputPath (some (fileOf (rows ++ after))) options).1
    resumed.finalSnapshot = whole.finalSnapshot ∧ resumed.finalTop = whole.finalTop ∧
      resumed.finalChecksum = whole.finalChecksum ∧
      resumed.invariantFailed = whole.invariantFailed ∧
      whole.eventsProcessed + rows.length = resumed.eventsProcessed + start.eventsProcessed ∧
      whole.rejectedEvents = start.rejectedEvents + resumed.rejectedEvents ∧
      ∃ later, whole.errors = start.errors ++ later ∧
        List.Forall₂ (ReplayError.Moved before.length rows.length) later resumed.errors := by
  rw [engine.replayFile_eq] at hpasses
  simp only [engine.replayFile_eq]
  obtain ⟨hpasses', hstart⟩ := engine.resumed_stop hpasses
  have hwhole := engine.stop_append hbefore hafter hpasses
  have hresumed := engine.stop_append
    (engine.stop (fileOf before) options).book.snapshot.lineFeed_not_mem hafter hpasses'
  have hnumbers : ∀ n m, n + 2 + m = m + 2 + n := fun n m => by omega
  have hmoved := moved_rows (hnumbers before.length
    (engine.stop (fileOf before) options).book.snapshot.checkpointRows.length) after
  obtain ⟨-, hend⟩ := haltState_simulation
    (fun s t parsed parsed' hparsed hst => hst.step options hparsed) hstart hmoved
  rw [← hwhole, ← hresumed] at hend
  have hsnapshot := hend.book.snapshot_eq.symm
  exact ⟨hsnapshot, hend.book.topOfBook_eq.symm, congrArg checksumSnapshot hsnapshot,
    hend.invariantFailed.symm, hend.eventsProcessed, hend.rejectedEvents, hend.errors⟩

/-- The order of the checkpoint is what the first lines have left of it, and both replays fail at
the same later line, behind the same rejection. -/
theorem replay_from_checkpoint_twoFiles :
    let options : ReplayOptions Float := {}
    let replay := fun rows => (ReplayEngine.new.replayFile "" (some (fileOf rows)) options).1
    let rows := (replay checkpointedRows).finalSnapshot.checkpointRows
    (∀ row ∈ checkpointedRows ++ laterRows, '\n' ∉ row) ∧
      (replay checkpointedRows).invariantFailed = false ∧
      rows = ["1,ADD,1,B,100,6".toList] ∧
      (replay (rows ++ laterRows)).invariantFailed =
        (replay (checkpointedRows ++ laterRows)).invariantFailed ∧
      (replay (rows ++ laterRows)).finalChecksum =
        (replay (checkpointedRows ++ laterRows)).finalChecksum := by
  have hbefore : ∀ row ∈ checkpointedRows, '\n' ∉ row := by decide
  have hafter : ∀ row ∈ laterRows, '\n' ∉ row := by decide
  have hpasses : (ReplayEngine.new.replayFile "" (some (fileOf checkpointedRows))
      ({} : ReplayOptions Float)).1.invariantFailed = false := by
    rw [ReplayEngine.replayFile_eq]
    decide +kernel
  obtain ⟨-, -, hchecksum, hfailed, -⟩ := replay_from_checkpoint ReplayEngine.new ""
    checkpointedRows laterRows {} hbefore hafter hpasses
  refine ⟨by decide, hpasses, ?_, hfailed, hchecksum⟩
  dsimp only
  rw [ReplayEngine.replayFile_eq]
  decide +kernel

end Datagine
