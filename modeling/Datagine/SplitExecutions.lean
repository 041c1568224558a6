import Datagine.Lib.Reordering
import Datagine.QuantityLedger
import Datagine.SnapshotState

/-!
# Splitting an Execution

An order may be executed in one piece or in many, whatever happens to other orders in between.
On the live list an order with `n` units left is the list with one quantity replaced, or with
the order gone when nothing is left (`leave`). Executions, a cancel and a modify all move from
one number of units left to another, and the rules for other orders do not see the difference
(`Reference.Separates`), so a split run stays in step with the run of the other events alone
(`split_run`).

## Main results

* `split_executions`: on both books, the parts of an execution are all applied and come to the
  same as one execution of their sum, one cancel when nothing is left, and one modify when
  something is.
-/

namespace Datagine

open KeyedList Mealy

/-- One part of a split execution: the events before it, and its amount. -/
structure ExecutionPart where
  before : List MarketEvent
  amount : Quantity
  deriving DecidableEq, Repr

/-- The amounts of the parts, added up without wrapping. -/
def totalAmount (parts : List ExecutionPart) : ℕ :=
  (parts.map fun part => part.amount.units.toNat).sum

/-- The events between the parts. -/
def otherOps (parts : List ExecutionPart) : List BookOp :=
  parts.flatMap fun part => part.before.map MarketEvent.toOp

/-- The parts executed one after another, with the events between them. -/
def splitOps (id : OrderId) (parts : List ExecutionPart) : List BookOp :=
  parts.flatMap fun part => part.before.map MarketEvent.toOp ++ [.executeOrder id part.amount]

/-- The same events with one operation in place of the last part. -/
def joinedOps (parts : List ExecutionPart) (op : BookOp) : List BookOp := otherOps parts ++ [op]

/-- The operation names an order. -/
def BookOp.names (id : OrderId) : BookOp → Bool
  | .addOrder id' _ _ _ _ => id' = id
  | .cancelOrder id' => id' = id
  | .modifyOrder id' _ => id' = id
  | .executeOrder id' _ => id' = id
  | .clear => false

/-- The parts have positive amounts, and the events between them name other orders. -/
def Splits (id : OrderId) (parts : List ExecutionPart) : Prop :=
  ∀ part ∈ parts, part.amount.units ≠ 0 ∧ ∀ event ∈ part.before, event.orderId ≠ id

/-- Two runs from one book that apply all operations on an order, give the other operations the
same answers, and end showing the same. -/
structure SameOutcome {β V : Type} (exec : β → BookOp → Option BookResult × β) (view : β → V)
    (id : OrderId) (b : β) (ops ops' : List BookOp) : Prop where
  applied : ∀ answer ∈ answersWhere (BookOp.names id) exec b ops, answer = some .applied
  applied' : ∀ answer ∈ answersWhere (BookOp.names id) exec b ops', answer = some .applied
  others : answersWhere (fun op => !op.names id) exec b ops =
    answersWhere (fun op => !op.names id) exec b ops'
  view : view (finalState exec b ops) = view (finalState exec b ops')

/-- An event names the order whose id it carries. -/
theorem names_toOp (id : OrderId) (event : MarketEvent) :
    event.toOp.names id = decide (event.orderId = id) := by
  rw [MarketEvent.toOp]
  cases event.type <;> rfl

/-! ### Units left -/

/-- The live list with `n` units of an order left. -/
def leave (L : List LiveOrder) (id : OrderId) (n : ℕ) : List LiveOrder :=
  if n = 0 then eraseKey LiveOrder.orderId id L
  else Reference.setQuantity L id ⟨UInt64.ofNat n⟩

/-- The later of two changes of a quantity stands. -/
theorem setQuantity_setQuantity (L : List LiveOrder) (id : OrderId) (q r : Quantity) :
    Reference.setQuantity (Reference.setQuantity L id q) id r = Reference.setQuantity L id r := by
  rw [Reference.setQuantity, Reference.setQuantity, Reference.setQuantity, updateKey, updateKey,
    updateKey, List.map_map]
  refine List.map_congr_left fun o _ => ?_
  by_cases ho : o.orderId = id <;> simp [LiveOrder.withQuantity, ho]

/-- What is erased need not have been changed. -/
theorem eraseKey_setQuantity (L : List LiveOrder) (id : OrderId) (q : Quantity) :
    eraseKey LiveOrder.orderId id (Reference.setQuantity L id q) =
      eraseKey LiveOrder.orderId id L := by
  have hfilter : eraseKey LiveOrder.orderId id (Reference.setQuantity L id q) =
      updateKey LiveOrder.orderId id (LiveOrder.withQuantity q)
        (eraseKey LiveOrder.orderId id L) := filter_updateKey _ fun _ => rfl
  rw [hfilter]
  refine updateKey_of_not_mem fun hmem => ?_
  obtain ⟨o, ho, hid⟩ := List.mem_map.mp hmem
  exact (mem_eraseKey.mp ho).2 hid

/-- Neither need what is left at another quantity. -/
theorem leave_setQuantity (L : List LiveOrder) (id : OrderId) (q : Quantity) (n : ℕ) :
    leave (Reference.setQuantity L id q) id n = leave L id n := by
  rw [leave, leave, eraseKey_setQuantity, setQuantity_setQuantity]

/-- An order keeps what it has. -/
theorem leave_self {L : List LiveOrder} (hnd : (L.map LiveOrder.orderId).Nodup) {id : OrderId}
    {q : Quantity} (hq : quantityOf L id = some q) (hpos : q.units ≠ 0) :
    leave L id q.units.toNat = L := by
  obtain ⟨o, ho, rfl⟩ := Option.map_eq_some_iff.mp hq
  have hne : o.quantity.units.toNat ≠ 0 := fun hzero => hpos (UInt64.toNat_inj.mp hzero)
  rw [leave, if_neg hne, UInt64.ofNat_toNat, Reference.setQuantity, updateKey]
  conv_rhs => rw [← List.map_id L]
  refine List.map_congr_left fun o' ho' => ?_
  obtain ⟨hmem, hid⟩ := mem_of_findKey ho
  by_cases hkey : o'.orderId = id
  · rw [if_pos hkey, List.inj_on_of_nodup_map hnd ho' hmem (hkey.trans hid.symm)]
    rfl
  · rw [if_neg hkey]
    rfl

/-- With units left the order is live. -/
theorem quantityOf_leave {L : List LiveOrder} {id : OrderId} (hlive : (quantityOf L id).isSome)
    {n : ℕ} (hn : n ≠ 0) : quantityOf (leave L id n) id = some ⟨UInt64.ofNat n⟩ := by
  obtain ⟨q, hq⟩ := Option.isSome_iff_exists.mp hlive
  have hrun := quantityOf_run (.resize ⟨UInt64.ofNat n⟩) L id id
  rw [if_pos rfl, hq] at hrun
  rw [leave, if_neg hn]
  exact hrun

/-- **An execution lowers the units left.** -/
theorem Reference.exec_executeOrder {L : List LiveOrder} {id : OrderId} {q amount : Quantity}
    (hq : quantityOf L id = some q) (hpos : amount.units ≠ 0) (hle : amount.units ≤ q.units) :
    Reference.exec L (.executeOrder id amount) =
      (some .applied, leave L id (q.units.toNat - amount.units.toNat)) := by
  obtain ⟨o, ho, rfl⟩ := Option.map_eq_some_iff.mp hq
  have hle' := UInt64.le_iff_toNat_le.mp hle
  simp only [Reference.exec, Reference.executeOrder, ho]
  rw [if_neg hpos, if_neg (UInt64.not_lt.mpr hle), leave]
  by_cases heq : amount.units = o.quantity.units
  · rw [if_pos heq, if_pos (by rw [heq]; omega)]
  · have hne : amount.units.toNat ≠ o.quantity.units.toNat := fun h => heq (UInt64.toNat_inj.mp h)
    rw [if_neg heq, if_neg (by omega), ← UInt64.toNat_sub_of_le _ _ hle, UInt64.ofNat_toNat]

/-- A cancel of a live order leaves nothing of it. -/
theorem Reference.exec_cancelOrder {L : List LiveOrder} {id : OrderId} {q : Quantity}
    (hq : quantityOf L id = some q) :
    Reference.exec L (.cancelOrder id) = (some .applied, leave L id 0) := by
  obtain ⟨o, ho, rfl⟩ := Option.map_eq_some_iff.mp hq
  simp only [Reference.exec, Reference.cancelOrder, ho]
  rfl

/-- A modify of a live order leaves the new quantity. -/
theorem Reference.exec_modifyOrder {L : List LiveOrder} {id : OrderId} {q r : Quantity}
    (hq : quantityOf L id = some q) (hpos : r.units ≠ 0) (hle : r.units ≤ q.units) :
    Reference.exec L (.modifyOrder id r) = (some .applied, leave L id r.units.toNat) := by
  obtain ⟨o, ho, rfl⟩ := Option.map_eq_some_iff.mp hq
  have hne : r.units.toNat ≠ 0 := fun hzero => hpos (UInt64.toNat_inj.mp hzero)
  simp only [Reference.exec, Reference.modifyOrder, ho]
  rw [if_neg hpos, if_neg (UInt64.not_lt.mpr hle), leave, if_neg hne, UInt64.ofNat_toNat]

/-! ### Events on other orders -/

/-- Edits of different orders commute with a change of quantity. -/
theorem Edit.run_setQuantity {id id' : OrderId} (hne : id' ≠ id) (edit : Edit)
    (L : List LiveOrder) (q : Quantity) :
    edit.run id' (Reference.setQuantity L id q) = Reference.setQuantity (edit.run id' L) id q := by
  cases edit with
  | keep => rfl
  | push side price timestamp quantity =>
      simp [Edit.run, Reference.setQuantity, updateKey, hne]
  | erase => exact filter_updateKey _ fun _ => rfl
  | resize quantity =>
      simp only [Edit.run, Reference.setQuantity, updateKey, List.map_map]
      refine List.map_congr_left fun o _ => ?_
      by_cases ho : o.orderId = id'
      · simp [LiveOrder.withQuantity, ho, hne]
      · by_cases ho' : o.orderId = id <;> simp [LiveOrder.withQuantity, ho, ho', hne.symm]

namespace Reference

/-- Rules that do not let the events on other orders see the quantity of an order, or change it,
and that are the plain ones for everything but adds. -/
structure Separates (rules : List LiveOrder → BookOp → Option BookResult × List LiveOrder) :
    Prop where
  others : ∀ (L : List LiveOrder) (id : OrderId) (q : Quantity) (event : MarketEvent),
    event.orderId ≠ id → rules (setQuantity L id q) event.toOp =
      ((rules L event.toOp).1, setQuantity (rules L event.toOp).2 id q)
  keeps : ∀ (L : List LiveOrder) (id : OrderId) (event : MarketEvent), event.orderId ≠ id →
    quantityOf (rules L event.toOp).2 id = quantityOf L id
  plain : ∀ (L : List LiveOrder) (op : BookOp), (∀ n, ¬LacksRoom n L op) →
    rules L op = exec L op

/-- The other orders keep their quantities. -/
theorem quantityOf_setQuantity {id id' : OrderId} (hne : id' ≠ id) (L : List LiveOrder)
    (q : Quantity) : quantityOf (setQuantity L id q) id' = quantityOf L id' := by
  have hrun := quantityOf_run (.resize q) L id id'
  rwa [if_neg hne] at hrun

/-- The rules on the list separate the orders. -/
theorem separates_exec : Separates exec where
  others L id q event hne := by
    rw [exec_toOp, exec_toOp, apply_eq, apply_eq, quantityOf_setQuantity hne,
      Edit.run_setQuantity hne]
  keeps L id event hne := by
    rw [exec_toOp, apply_eq, quantityOf_run, if_neg hne.symm]
  plain _ _ _ := rfl

/-- Room does not depend on quantities. -/
theorem lacksRoom_setQuantity (N : ℕ) (L : List LiveOrder) (id : OrderId) (q : Quantity)
    (op : BookOp) : LacksRoom N (setQuantity L id q) op ↔ LacksRoom N L op := by
  have hids : (setQuantity L id q).map LiveOrder.orderId = L.map LiveOrder.orderId :=
    map_key_updateKey fun _ => rfl
  have hlength : (setQuantity L id q).length = L.length := List.length_map _
  cases op with
  | addOrder id' side price quantity timestamp => simp only [LacksRoom, hids, hlength]
  | _ => rfl

/-- So do the rules on a bounded list. -/
theorem separates_boundedExec (N : ℕ) : Separates (boundedExec N) where
  others L id q event hne := by
    rw [boundedExec, boundedExec]
    by_cases hlacks : LacksRoom N L event.toOp
    · rw [if_pos hlacks, if_pos ((lacksRoom_setQuantity N L id q _).mpr hlacks)]
    · rw [if_neg hlacks, if_neg (mt (lacksRoom_setQuantity N L id q _).mp hlacks),
        separates_exec.others L id q event hne]
  keeps L id event hne := by
    rw [boundedExec]
    split_ifs
    · rfl
    · exact separates_exec.keeps L id event hne
  plain L op hroom := if_neg (hroom N)

end Reference

/-! ### Runs -/

section Rules

variable {rules : List LiveOrder → BookOp → Option BookResult × List LiveOrder} {id : OrderId}

/-- Events on other orders do the same whatever is left of the order. -/
theorem others_run (h : Reference.Separates rules) {events : List MarketEvent}
    (hothers : ∀ event ∈ events, event.orderId ≠ id) (L : List LiveOrder) (q : Quantity) :
    outputs rules (Reference.setQuantity L id q) (events.map MarketEvent.toOp) =
        outputs rules L (events.map MarketEvent.toOp) ∧
      finalState rules (Reference.setQuantity L id q) (events.map MarketEvent.toOp) =
        Reference.setQuantity (finalState rules L (events.map MarketEvent.toOp)) id q := by
  refine simulation_of_mem (R := fun K K' => K = Reference.setQuantity K' id q)
    (fun K K' op hop hK => ?_) rfl
  obtain ⟨event, hevent, rfl⟩ := List.mem_map.mp hop
  rw [hK, h.others K' id q event (hothers event hevent)]
  exact ⟨rfl, rfl⟩

/-- Events about other orders leave the quantity of this one. -/
theorem quantityOf_others (h : Reference.Separates rules) {events : List MarketEvent}
    (hothers : ∀ event ∈ events, event.orderId ≠ id) (L : List LiveOrder) :
    quantityOf (finalState rules L (events.map MarketEvent.toOp)) id = quantityOf L id := by
  induction events generalizing L with
  | nil => rfl
  | cons event events ih =>
      rw [List.map_cons, finalState_cons, ih fun e he => hothers e (List.mem_cons_of_mem _ he),
        h.keeps L id event (hothers event List.mem_cons_self)]

/-- The events between the parts do not name the order. -/
theorem not_names_of_before {events : List MarketEvent}
    (hothers : ∀ event ∈ events, event.orderId ≠ id) :
    ∀ op ∈ events.map MarketEvent.toOp, op.names id = false := by
  intro op hop
  obtain ⟨event, hevent, rfl⟩ := List.mem_map.mp hop
  rw [names_toOp, decide_eq_false (hothers event hevent)]

/-- **A split run stays in step with the other events.** With `n` units left and parts that
execute no more than that, the other events are answered as in the run without the parts, every
part is applied, and the order is left with `n` units less the sum of the parts. -/
theorem split_run (h : Reference.Separates rules) {parts : List ExecutionPart}
    (hparts : Splits id parts) {L : List LiveOrder} (hlive : (quantityOf L id).isSome) {n : ℕ}
    (hn : n < 2 ^ 64) (hle : totalAmount parts ≤ n) :
    answersWhere (fun op => !op.names id) rules (leave L id n) (splitOps id parts) =
        outputs rules L (otherOps parts) ∧
      (∀ answer ∈ answersWhere (BookOp.names id) rules (leave L id n) (splitOps id parts),
        answer = some .applied) ∧
      finalState rules (leave L id n) (splitOps id parts) =
        leave (finalState rules L (otherOps parts)) id (n - totalAmount parts) := by
  induction parts generalizing L n with
  | nil => exact ⟨rfl, by simp [splitOps, answersWhere, answered], rfl⟩
  | cons part parts ih =>
      obtain ⟨hpos, hothers⟩ := hparts part List.mem_cons_self
      have hnames := not_names_of_before hothers
      have hone : part.amount.units.toNat ≠ 0 := fun hzero => hpos (UInt64.toNat_inj.mp hzero)
      have hsum : totalAmount (part :: parts) = part.amount.units.toNat + totalAmount parts := rfl
      have hn0 : n ≠ 0 := by omega
      have hstart : leave L id n = Reference.setQuantity L id ⟨UInt64.ofNat n⟩ := if_neg hn0
      -- the other events, with the order as it is and as it is left
      obtain ⟨houts, hstate⟩ := others_run h hothers L ⟨UInt64.ofNat n⟩
      have hlive' : (quantityOf (finalState rules L (part.before.map MarketEvent.toOp))
          id).isSome := by rwa [quantityOf_others h hothers]
      generalize hM : finalState rules L (part.before.map MarketEvent.toOp) = M at *
      have hleft : Reference.setQuantity M id ⟨UInt64.ofNat n⟩ = leave M id n := (if_neg hn0).symm
      have hunits : (UInt64.ofNat n).toNat = n := UInt64.toNat_ofNat_of_lt' hn
      -- the part itself
      have hexecute : rules (leave M id n) (.executeOrder id part.amount) =
          (some .applied, leave M id (n - part.amount.units.toNat)) := by
        have hplain : rules (leave M id n) (.executeOrder id part.amount) =
            Reference.exec (leave M id n) (.executeOrder id part.amount) :=
          h.plain _ _ fun _ hlacks => hlacks
        rw [hplain, Reference.exec_executeOrder (quantityOf_leave hlive' hn0) hpos
          (by rw [UInt64.le_iff_toNat_le, hunits]; omega), hunits, ← hleft, leave_setQuantity]
      obtain ⟨hothersRest, happliedRest, hfinalRest⟩ := ih
        (fun part' hpart' => hparts part' (List.mem_cons_of_mem _ hpart')) hlive'
        (n := n - part.amount.units.toNat) (by omega) (by omega)
      have hsplit : splitOps id (part :: parts) = part.before.map MarketEvent.toOp ++
          (.executeOrder id part.amount :: splitOps id parts) := by
        simp [splitOps]
      have hother : otherOps (part :: parts) =
          part.before.map MarketEvent.toOp ++ otherOps parts := rfl
      have hrest : n - part.amount.units.toNat - totalAmount parts =
          n - totalAmount (part :: parts) := by omega
      have hself : BookOp.names id (.executeOrder id part.amount) = true := decide_eq_true rfl
      rw [hsplit, hother, hstart, outputs_append, finalState_append, finalState_append, hM]
      simp only [answersWhere_append, answersWhere_cons, finalState_cons, hstate, hleft, hexecute,
        hself]
      refine ⟨?_, ?_, ?_⟩
      · rw [answersWhere_eq_outputs (fun op hop => by rw [hnames op hop]; rfl), houts, hothersRest]
        rfl
      · rw [answersWhere_eq_nil hnames]
        intro answer hanswer
        rcases List.mem_cons.mp hanswer with rfl | hanswer
        · rfl
        · exact happliedRest answer hanswer
      · rw [hfinalRest, hrest]

/-- One operation in place of the last part. -/
theorem joined_run {parts : List ExecutionPart} (hparts : Splits id parts) {L : List LiveOrder}
    {op : BookOp} (hself : op.names id = true)
    {K : List LiveOrder} (hop : rules (finalState rules L (otherOps parts)) op =
      (some .applied, K)) :
    answersWhere (fun op => !op.names id) rules L (joinedOps parts op) =
        outputs rules L (otherOps parts) ∧
      (∀ answer ∈ answersWhere (BookOp.names id) rules L (joinedOps parts op),
        answer = some .applied) ∧
      finalState rules L (joinedOps parts op) = K := by
  have hnames : ∀ op ∈ otherOps parts, op.names id = false := by
    intro op hop
    obtain ⟨part, hpart, hop⟩ := List.mem_flatMap.mp hop
    exact not_names_of_before (hparts part hpart).2 op hop
  rw [joinedOps, finalState_append]
  simp only [answersWhere_append, answersWhere_cons, finalState_cons, finalState_nil, hop, hself]
  refine ⟨?_, ?_, trivial⟩
  · rw [answersWhere_eq_outputs fun op hop => by rw [hnames op hop]; rfl]
    exact List.append_nil _
  · rw [answersWhere_eq_nil hnames]
    intro answer hanswer
    exact List.mem_singleton.mp hanswer

/-- So do the operations between the parts. -/
theorem quantityOf_otherOps (h : Reference.Separates rules) {parts : List ExecutionPart}
    (hparts : Splits id parts) (L : List LiveOrder) :
    quantityOf (finalState rules L (otherOps parts)) id = quantityOf L id := by
  induction parts generalizing L with
  | nil => rfl
  | cons part parts ih =>
      have hother : otherOps (part :: parts) =
          part.before.map MarketEvent.toOp ++ otherOps parts := rfl
      rw [hother, finalState_append,
        ih fun part' hpart' => hparts part' (List.mem_cons_of_mem _ hpart'),
        quantityOf_others h (hparts part List.mem_cons_self).2]

/-- **Splitting on the live list.** An operation that is applied and leaves what the parts leave
may stand in place of the last of them. -/
theorem splits_rules (h : Reference.Separates rules) {parts : List ExecutionPart}
    (hparts : Splits id parts) {L : List LiveOrder} (hnd : (L.map LiveOrder.orderId).Nodup)
    {q : Quantity} (hq : quantityOf L id = some q) (hpos : q.units ≠ 0)
    (hle : totalAmount parts ≤ q.units.toNat) {op : BookOp} (hself : op.names id = true)
    (hroom : ∀ n K, ¬Reference.LacksRoom n K op)
    (hop : ∀ K, quantityOf K id = some q → Reference.exec K op =
      (some .applied, leave K id (q.units.toNat - totalAmount parts))) :
    SameOutcome rules (fun K => K) id L (splitOps id parts) (joinedOps parts op) := by
  have hlive : (quantityOf L id).isSome := by rw [hq]; rfl
  obtain ⟨hothers, happlied, hfinal⟩ := split_run h hparts hlive q.units.toNat_lt hle
  rw [leave_self hnd hq hpos] at hothers happlied hfinal
  have hlast := hop _ ((quantityOf_otherOps h hparts L).trans hq)
  rw [← h.plain _ _ fun n => hroom n _] at hlast
  obtain ⟨hothers', happlied', hfinal'⟩ := joined_run hparts hself hlast
  exact ⟨happlied, happlied', hothers.trans hothers'.symm, hfinal.trans hfinal'.symm⟩

end Rules

/-! ### The books -/

/-- What the rules make of two runs, a book that follows them makes of them. -/
theorem SameOutcome.of_simulation {β V : Type} {exec : β → BookOp → Option BookResult × β}
    {view : β → V} {rules : List LiveOrder → BookOp → Option BookResult × List LiveOrder}
    {id : OrderId} {L : List LiveOrder} {ops ops' : List BookOp}
    (h : SameOutcome rules (fun K => K) id L ops ops') {R : β → List LiveOrder → Prop}
    (hstep : ∀ b L op, R b L → (exec b op).1 = (rules L op).1 ∧ R (exec b op).2 (rules L op).2)
    (hview : ∀ b b' L, R b L → R b' L → view b = view b') {b : β} (hR : R b L) :
    SameOutcome exec view id b ops ops' := by
  have hanswers : ∀ (p : BookOp → Bool) (is : List BookOp),
      answersWhere p exec b is = answersWhere p rules L is := by
    intro p is
    rw [answersWhere, answersWhere, answered, answered, (simulation hstep hR is).1]
  refine ⟨?_, ?_, ?_, ?_⟩
  · rw [hanswers]
    exact h.applied
  · rw [hanswers]
    exact h.applied'
  · rw [hanswers, hanswers]
    exact h.others
  · have hfinal := (simulation hstep hR ops).2
    rw [h.view] at hfinal
    exact hview _ _ _ hfinal (simulation hstep hR ops').2

/-- The parts of an execution of an order of `q` units come to the same as one execution of
their sum, as a cancel when nothing is left, and as a modify when something is. -/
structure Splittable {β V : Type} (exec : β → BookOp → Option BookResult × β) (view : β → V)
    (id : OrderId) (q : Quantity) (parts : List ExecutionPart) (b : β) : Prop where
  execute : SameOutcome exec view id b (splitOps id parts)
    (joinedOps parts (.executeOrder id ⟨UInt64.ofNat (totalAmount parts)⟩))
  cancel : totalAmount parts = q.units.toNat →
    SameOutcome exec view id b (splitOps id parts) (joinedOps parts (.cancelOrder id))
  modify : totalAmount parts < q.units.toNat →
    SameOutcome exec view id b (splitOps id parts) (joinedOps parts
      (.modifyOrder id ⟨UInt64.ofNat (q.units.toNat - totalAmount parts)⟩))

/-- What holds of the rules holds of a book that follows them. -/
theorem Splittable.of_simulation {β V : Type} {exec : β → BookOp → Option BookResult × β}
    {view : β → V} {rules : List LiveOrder → BookOp → Option BookResult × List LiveOrder}
    {id : OrderId} {q : Quantity} {parts : List ExecutionPart} {L : List LiveOrder}
    (h : Splittable rules (fun K => K) id q parts L) {R : β → List LiveOrder → Prop}
    (hstep : ∀ b L op, R b L → (exec b op).1 = (rules L op).1 ∧ R (exec b op).2 (rules L op).2)
    (hview : ∀ b b' L, R b L → R b' L → view b = view b') {b : β} (hR : R b L) :
    Splittable exec view id q parts b :=
  ⟨h.execute.of_simulation hstep hview hR, fun heq => (h.cancel heq).of_simulation hstep hview hR,
    fun hlt => (h.modify hlt).of_simulation hstep hview hR⟩

/-- The parts execute something. -/
theorem totalAmount_ne_zero {id : OrderId} {parts : List ExecutionPart} (hne : parts ≠ [])
    (hparts : Splits id parts) : totalAmount parts ≠ 0 := by
  obtain ⟨part, parts, rfl⟩ := List.exists_cons_of_ne_nil hne
  have hone : part.amount.units.toNat ≠ 0 := fun hzero =>
    (hparts part List.mem_cons_self).1 (UInt64.toNat_inj.mp hzero)
  have hsum : totalAmount (part :: parts) = part.amount.units.toNat + totalAmount parts := rfl
  omega

/-- The rules let executions be split. -/
theorem splittable_rules {rules : List LiveOrder → BookOp → Option BookResult × List LiveOrder}
    (h : Reference.Separates rules) {id : OrderId} {parts : List ExecutionPart} (hne : parts ≠ [])
    (hparts : Splits id parts) {A : RestingOrders} {q : Quantity}
    (hq : quantityOf A.live id = some q) (hle : totalAmount parts ≤ q.units.toNat) :
    Splittable rules (fun K => K) id q parts A.live := by
  have hpos : q.units ≠ 0 := by
    obtain ⟨o, ho, rfl⟩ := Option.map_eq_some_iff.mp hq
    exact A.live_positive o (mem_of_findKey ho).1
  have hqlt := q.units.toNat_lt
  have hsum := totalAmount_ne_zero hne hparts
  -- the amounts that the single operations name
  have hword : ∀ n, n ≠ 0 → n ≤ q.units.toNat →
      (⟨UInt64.ofNat n⟩ : Quantity).units.toNat = n ∧ (⟨UInt64.ofNat n⟩ : Quantity).units ≠ 0 ∧
        (⟨UInt64.ofNat n⟩ : Quantity).units ≤ q.units := by
    intro n hn hnle
    have hunits : (UInt64.ofNat n).toNat = n :=
      UInt64.toNat_ofNat_of_lt' (lt_of_le_of_lt hnle hqlt)
    refine ⟨hunits, fun hzero => hn ?_, UInt64.le_iff_toNat_le.mpr (hunits.trans_le hnle)⟩
    exact hunits.symm.trans (congrArg UInt64.toNat hzero)
  refine ⟨?_, fun heq => ?_, fun hlt => ?_⟩
  · refine splits_rules h hparts A.live_idsNodup hq hpos hle (decide_eq_true rfl)
      (fun n K hlacks => hlacks) fun K hK => ?_
    obtain ⟨hunits, hpos', hle'⟩ := hword _ hsum hle
    rw [Reference.exec_executeOrder hK hpos' hle', hunits]
  · refine splits_rules h hparts A.live_idsNodup hq hpos hle (decide_eq_true rfl)
      (fun n K hlacks => hlacks) fun K hK => ?_
    rw [Reference.exec_cancelOrder hK, heq, Nat.sub_self]
  · refine splits_rules h hparts A.live_idsNodup hq hpos hle (decide_eq_true rfl)
      (fun n K hlacks => hlacks) fun K hK => ?_
    obtain ⟨hunits, hpos', hle'⟩ := hword (q.units.toNat - totalAmount parts) (by omega) (by omega)
    rw [Reference.exec_modifyOrder hK hpos' hle', hunits]

namespace LimitOrderBook

/-- Books that hold the same list show the same. -/
theorem HoldsLive.snapshot_eq {b b' : LimitOrderBook} {L : List LiveOrder} (h : HoldsLive b L)
    (h' : HoldsLive b' L) : b.snapshot = b'.snapshot :=
  Alike.snapshot_eq ⟨L, L, h, h', SameQueues.refl L⟩

end LimitOrderBook

namespace PooledLimitOrderBook

/-- Pools with the same orders show the same snapshot. -/
theorem HoldsLive.snapshot_eq {N : ℕ} {b b' : PooledLimitOrderBook} {L : List LiveOrder}
    (h : HoldsLive N b L) (h' : HoldsLive N b' L) : b.snapshot = b'.snapshot := by
  obtain ⟨A, ⟨hrep, -⟩, rfl⟩ := h
  obtain ⟨A', ⟨hrep', -⟩, hlive⟩ := h'
  obtain ⟨S, hsnap, hshows, -⟩ := hrep.snapshot
  obtain ⟨S', hsnap', hshows', -⟩ := hrep'.snapshot
  rw [hlive] at hshows'
  rw [hsnap, hsnap', BookSnapshot.ext_side fun s => (hshows s).unique (hshows' s)]

end PooledLimitOrderBook

/-- **Executions can be split.** In every state that a book reaches, whatever the operations,
take a live order and positive amounts that add up to no more than its quantity. Executed one
after another, with any events on other orders in between, all of them are applied; the other
events get the answers and the final snapshot is the one of the same run with a single execution
of the sum in place of the last part. When the sum is the whole quantity a cancel does as well
there, and when it is less, a modify to the difference. -/
theorem split_executions (ops : List BookOp) (id : OrderId) (q : Quantity)
    (parts : List ExecutionPart) (hne : parts ≠ []) (hparts : Splits id parts)
    (hle : totalAmount parts ≤ q.units.toNat) :
    ((finalState LimitOrderBook.exec .empty ops).recordQuantity id = some q →
        Splittable LimitOrderBook.exec LimitOrderBook.snapshot id q parts
          (finalState LimitOrderBook.exec .empty ops)) ∧
      ∀ N : UInt64,
        (finalState PooledLimitOrderBook.exec (.new N) ops).recordQuantity id = some q →
          Splittable PooledLimitOrderBook.exec PooledLimitOrderBook.snapshot id q parts
            (finalState PooledLimitOrderBook.exec (.new N) ops) := by
  refine ⟨fun hq => ?_, fun N hq => ?_⟩
  · obtain ⟨-, A, hrep, -⟩ := LimitOrderBook.run_refines ops
    rw [hrep.recordQuantity] at hq
    have hrules := splittable_rules Reference.separates_exec hne hparts hq hle
    refine hrules.of_simulation (R := LimitOrderBook.HoldsLive) ?_
      (fun _ _ _ h₁ h₂ => h₁.snapshot_eq h₂) ⟨A, hrep, rfl⟩
    rintro b L op ⟨A', hrep', rfl⟩
    exact LimitOrderBook.exec_refines hrep' op
  · obtain ⟨-, A, hrep, -⟩ := PooledLimitOrderBook.run_refines N ops
    rw [hrep.1.recordQuantity] at hq
    have hrules := splittable_rules (Reference.separates_boundedExec N.toNat) hne hparts hq hle
    refine hrules.of_simulation (R := PooledLimitOrderBook.HoldsLive N.toNat) ?_
      (fun _ _ _ h₁ h₂ => h₁.snapshot_eq h₂) ⟨A, hrep, rfl⟩
    rintro b L op ⟨A', hrep', rfl⟩
    exact PooledLimitOrderBook.exec_refines hrep' op

/-- An order of five units, executed in parts of two and three around an add behind it. -/
theorem split_executions_twoParts :
    let ops : List BookOp := [.addOrder ⟨1⟩ .buy ⟨100⟩ ⟨5⟩ ⟨0⟩]
    let behind : MarketEvent := { orderId := ⟨2⟩, price := ⟨100⟩, quantity := ⟨7⟩ }
    let parts : List ExecutionPart := [⟨[], ⟨2⟩⟩, ⟨[behind], ⟨3⟩⟩]
    (finalState LimitOrderBook.exec .empty ops).recordQuantity ⟨1⟩ = some ⟨5⟩ ∧
      (finalState PooledLimitOrderBook.exec (.new 2) ops).recordQuantity ⟨1⟩ = some ⟨5⟩ ∧
      Splittable LimitOrderBook.exec LimitOrderBook.snapshot ⟨1⟩ ⟨5⟩ parts
        (finalState LimitOrderBook.exec .empty ops) ∧
      Splittable PooledLimitOrderBook.exec PooledLimitOrderBook.snapshot ⟨1⟩ ⟨5⟩ parts
        (finalState PooledLimitOrderBook.exec (.new 2) ops) := by
  intro ops behind parts
  have hq : (finalState LimitOrderBook.exec .empty ops).recordQuantity ⟨1⟩ = some ⟨5⟩ := by
    decide +kernel
  have hq' : (finalState PooledLimitOrderBook.exec (.new 2) ops).recordQuantity ⟨1⟩ =
      some ⟨5⟩ := by decide +kernel
  have hparts : Splits ⟨1⟩ parts := by
    intro part hpart
    simp only [parts, List.mem_cons, List.not_mem_nil, or_false] at hpart
    rcases hpart with rfl | rfl <;> simp [behind]
  obtain ⟨hlinked, hpooled⟩ := split_executions ops ⟨1⟩ ⟨5⟩ parts (by simp [parts]) hparts
    (by decide)
  exact ⟨hq, hq', hlinked hq, hpooled 2 hq'⟩

end Datagine
