import Mathlib.Data.List.Basic
import Mathlib.Data.List.Induction

/-!
# Sliding Windows

A window over a stream of entries, kept as a queue: when an entry `e` arrives, entries are
taken off the front as long as they are not inside the window of `e`, and `e` is put at the
back (`slide`). `inside e a` says that `a` is inside the window of `e`; nothing is assumed of
it but that an entry is inside its own window.

Only the front is looked at, so an outdated entry can hide behind one that is not, and an
entry taken off the front does not come back. `exact_iff_contiguous` is the condition on
the stream under which neither happens, that is, under which the queue holds, after every
arrival, just the entries inside the window.

The last part is about queues that every call of a stream expires and only some calls extend.
When of any two windows one contains the other, `queueOf_eq` says what is in such a queue and
`mem_lookedAt_queueOf` which entries the next call looks at, both in terms of the stream.
-/

namespace SlidingWindow

variable {ε : Type*}

/-! ### Fronts and sublists -/

/-- Where what is kept is never followed by something to drop, dropping at the front drops
everything. -/
theorem dropWhile_eq_filter {p : ε → Prop} [DecidablePred p] {l : List ε}
    (h : l.Pairwise fun a b => p a → p b) :
    l.dropWhile (fun a => ¬ p a) = l.filter (fun a => p a) := by
  induction l with
  | nil => rfl
  | cons a l ih =>
      obtain ⟨ha, hl⟩ := List.pairwise_cons.mp h
      by_cases hp : p a
      · have hkeep : ∀ b ∈ a :: l, decide (p b) = true := by
          intro b hb
          rcases List.mem_cons.mp hb with rfl | hb
          · exact decide_eq_true hp
          · exact decide_eq_true (ha b hb hp)
        rw [List.filter_eq_self.mpr hkeep, List.dropWhile_cons_of_neg]
        simpa using hp
      · rw [List.dropWhile_cons_of_pos (by simpa using hp), ih hl, List.filter_cons_of_neg]
        simpa using hp

/-- When what is kept now was kept before and is never followed by something to drop, dropping
at the front of what was kept before leaves just what is kept now. -/
theorem dropWhile_filter {p q : ε → Prop} [DecidablePred p] [DecidablePred q] {l : List ε}
    (hkept : ∀ a ∈ l, q a → p a) (hfront : l.Pairwise fun a b => q a → q b) :
    (l.filter (fun a => p a)).dropWhile (fun a => ¬ q a) = l.filter (fun a => q a) := by
  rw [dropWhile_eq_filter (hfront.sublist List.filter_sublist), List.filter_filter]
  refine List.filter_congr fun a ha => ?_
  rw [Bool.and_eq_left_iff_imp]
  intro hq
  exact decide_eq_true (hkept a ha (of_decide_eq_true hq))

/-- What stands behind a kept entry is not dropped. -/
theorem mem_dropWhile_of_sublist {p : ε → Prop} [DecidablePred p] {l : List ε} {a b : ε}
    (h : [a, b].Sublist l) (ha : p a) : b ∈ l.dropWhile (fun a => ¬ p a) := by
  induction l with
  | nil => cases h
  | cons d l ih =>
      by_cases hd : p d
      · rw [List.dropWhile_cons_of_neg (by simpa using hd)]
        exact h.subset (List.mem_cons_of_mem _ (List.mem_singleton_self _))
      · rw [List.dropWhile_cons_of_pos (by simpa using hd)]
        rcases List.cons_sublist_cons'.mp h with h | ⟨rfl, -⟩
        · exact ih h
        · exact absurd ha hd

/-- A sublist of a stream with one more arrival ends with it or was there before. -/
theorem concat_sublist_concat {l es : List ε} {x e : ε} :
    (l ++ [x]).Sublist (es ++ [e]) ↔ (l ++ [x]).Sublist es ∨ x = e ∧ l.Sublist es := by
  rw [← List.reverse_sublist, List.reverse_concat, List.reverse_concat, List.cons_sublist_cons',
    ← List.reverse_concat, List.reverse_sublist, List.reverse_sublist]

/-! ### Contiguous streams -/

/-- An entry that arrives between two entries, of which the first is inside the window of
the last, has the first inside its window and is itself inside the window of the last. -/
def Contiguous (inside : ε → ε → Prop) (es : List ε) : Prop :=
  ∀ a b c, [a, b, c].Sublist es → inside c a → inside b a ∧ inside c b

variable {inside : ε → ε → Prop}

/-- No entries are contiguous. -/
theorem contiguous_nil : Contiguous inside [] := by
  intro a b c h
  cases h

/-- The condition at one more arrival: the new triples are those that end with it. -/
theorem contiguous_concat {es : List ε} {e : ε} :
    Contiguous inside (es ++ [e]) ↔ Contiguous inside es ∧
      ∀ a b, [a, b].Sublist es → inside e a → inside b a ∧ inside e b := by
  constructor
  · intro h
    refine ⟨fun a b c habc => h a b c (habc.trans (List.sublist_append_left _ _)), ?_⟩
    intro a b hab
    exact h a b e (hab.append (List.Sublist.refl [e]))
  · rintro ⟨hes, he⟩ a b c habc
    have habc' : ([a, b] ++ [c]).Sublist (es ++ [e]) := habc
    rcases concat_sublist_concat.mp habc' with h | ⟨rfl, h⟩
    · exact hes a b c h
    · exact he a b h

/-- When the triples that end with the new arrival are as they should be, what is inside its
window was inside the window of the last arrival. -/
theorem inside_last {es : List ε} {l e : ε} (hrefl : ∀ a, inside a a)
    (he : ∀ a b, [a, b].Sublist (es ++ [l]) → inside e a → inside b a ∧ inside e b) :
    ∀ a ∈ es ++ [l], inside e a → inside l a := by
  intro a ha hea
  rcases List.mem_append.mp ha with ha | ha
  · have hal : [a, l].Sublist (es ++ [l]) :=
      (List.singleton_sublist.mpr ha).append (List.Sublist.refl [l])
    exact (he a l hal hea).1
  · rw [List.mem_singleton.mp ha]
    exact hrefl l

/-! ### The queue -/

variable (inside) [DecidableRel inside]

/-- The queue after the arrival of `e`. -/
def slide (window : List ε) (e : ε) : List ε :=
  window.dropWhile (fun a => ¬ inside e a) ++ [e]

/-- The queue after a stream of arrivals. -/
def windowOf (es : List ε) : List ε := es.foldl (slide inside) []

/-- The queue holds the entries inside the window of the last arrival, in the order of
arrival, and no others. -/
def Exact (es : List ε) : Prop :=
  ∀ e ∈ es.getLast?, windowOf inside es = es.filter (fun a => inside e a)

variable {inside}

/-- One more entry. -/
theorem windowOf_concat (es : List ε) (e : ε) :
    windowOf inside (es ++ [e]) = slide inside (windowOf inside es) e := by
  rw [windowOf, List.foldl_append]
  rfl

/-- The empty window is exact. -/
theorem exact_nil : Exact inside [] := by
  intro e he
  cases he

/-- At one more arrival, the queue stays exact if dropping at the front is filtering. -/
theorem exact_concat {es : List ε} {e : ε} (hrefl : ∀ a, inside a a) :
    Exact inside (es ++ [e]) ↔
      (windowOf inside es).dropWhile (fun a => ¬ inside e a) =
        es.filter (fun a => inside e a) := by
  have hself : [e].filter (fun a => inside e a) = [e] :=
    List.filter_cons_of_pos (decide_eq_true (hrefl e))
  have hexact : Exact inside (es ++ [e]) ↔
      windowOf inside (es ++ [e]) = (es ++ [e]).filter (fun a => inside e a) := by
    simp [Exact]
  rw [hexact, windowOf_concat, slide, List.filter_append, hself, List.append_left_inj]

/-- In an exact queue, two entries of which the first is inside the window of the last
arrival are both in the queue, in their order. -/
theorem sublist_filter_last {es : List ε} {l a b : ε} (hrefl : ∀ a, inside a a)
    (hes : Contiguous inside (es ++ [l])) (hab : [a, b].Sublist (es ++ [l]))
    (ha : inside l a) :
    inside b a ∧ [a, b].Sublist ((es ++ [l]).filter (fun a => inside l a)) := by
  have hkept (hb : inside l b) : [a, b].filter (fun a => inside l a) = [a, b] := by
    simp [ha, hb]
  have hab' : ([a] ++ [b]).Sublist (es ++ [l]) := hab
  rcases concat_sublist_concat.mp hab' with h | ⟨rfl, -⟩
  · obtain ⟨hba, hlb⟩ := hes a b l (h.append (List.Sublist.refl [l])) ha
    exact ⟨hba, hkept hlb ▸ hab.filter _⟩
  · exact ⟨ha, hkept (hrefl b) ▸ hab.filter _⟩

/-- **One arrival.** A queue that was exact stays exact if and only if the triples that end
with the new arrival are as they should be. -/
theorem exact_concat_iff {es : List ε} {e : ε} (hrefl : ∀ a, inside a a)
    (hes : Contiguous inside es) (hexact : Exact inside es) :
    Exact inside (es ++ [e]) ↔
      ∀ a b, [a, b].Sublist es → inside e a → inside b a ∧ inside e b := by
  rw [exact_concat hrefl]
  induction es using List.reverseRecOn with
  | nil => simp [windowOf]
  | append_singleton es l _ =>
      rw [hexact l (by simp)]
      constructor
      · intro hdrop a b hab hea
        have ha : a ∈ (es ++ [l]).filter (fun a => inside e a) := by
          simp only [List.mem_filter, decide_eq_true_eq]
          exact ⟨hab.subset (List.mem_cons_self ..), hea⟩
        have hla : inside l a := by
          have hmem := (List.dropWhile_sublist _).subset (hdrop ▸ ha)
          simpa using (List.mem_filter.mp hmem).2
        obtain ⟨hba, hkept⟩ := sublist_filter_last hrefl hes hab hla
        have hb := mem_dropWhile_of_sublist hkept hea
        rw [hdrop] at hb
        exact ⟨hba, by simpa using (List.mem_filter.mp hb).2⟩
      · intro he
        refine dropWhile_filter (inside_last hrefl he)
          (List.pairwise_of_forall_sublist fun {a b} hab hea => ?_)
        exact (he a b hab hea).2

/-- **Exact windows.** The queue is exact after every arrival if and only if the stream is
contiguous. -/
theorem exact_iff_contiguous (hrefl : ∀ a, inside a a) (es : List ε) :
    (∀ pre, pre <+: es → Exact inside pre) ↔ Contiguous inside es := by
  induction es using List.reverseRecOn with
  | nil =>
      refine ⟨fun _ => contiguous_nil, fun _ pre hpre => ?_⟩
      rw [List.prefix_nil.mp hpre]
      exact exact_nil
  | append_singleton es e ih =>
      rw [contiguous_concat, ← ih]
      constructor
      · intro h
        have hprefixes : ∀ pre, pre <+: es → Exact inside pre :=
          fun pre hpre => h pre (hpre.trans (List.prefix_append ..))
        refine ⟨hprefixes, ?_⟩
        exact (exact_concat_iff hrefl (ih.mp hprefixes) (hprefixes es List.prefix_rfl)).mp
          (h _ List.prefix_rfl)
      · rintro ⟨hprefixes, he⟩ pre hpre
        rcases List.prefix_concat_iff.mp hpre with rfl | hpre
        · exact (exact_concat_iff hrefl (ih.mp hprefixes)
            (hprefixes es List.prefix_rfl)).mpr he
        · exact hprefixes pre hpre

/-! ### Queues that only some calls extend -/

section Calls

variable {κ : Type*}

/-- Of the windows of two calls, one contains the other. -/
def Nested (covers : κ → ε → Prop) : Prop :=
  ∀ c d a b, ¬ covers c a → covers c b → covers d a → covers d b

variable (covers : κ → ε → Prop) [∀ c, DecidablePred (covers c)] (entryOf : κ → Option ε)

/-- The queue after a call, which takes the entries at the front that its window does not cover
and puts its own entry, if it has one, at the back. -/
def advance (window : List ε) (call : κ) : List ε :=
  window.dropWhile (fun a => ¬ covers call a) ++ (entryOf call).toList

/-- The queue after a stream of calls. -/
def queueOf (calls : List κ) : List ε := calls.foldl (advance covers entryOf) []

/-- The call has an entry, and the windows of all later calls cover it. -/
def Lasts (call : κ) (later : List κ) : Prop := ∃ a ∈ entryOf call, ∀ c ∈ later, covers c a

instance (call : κ) (later : List κ) : Decidable (Lasts covers entryOf call later) :=
  inferInstanceAs (Decidable (∃ a ∈ entryOf call, ∀ c ∈ later, covers c a))

/-- The calls from the first one on that lasts. -/
def fromLasting : List κ → List κ
  | [] => []
  | call :: calls =>
      if Lasts covers entryOf call calls then call :: calls else fromLasting calls

/-- The entries that taking off the front looks at: those it takes and the first it leaves. -/
def lookedAt (p : ε → Prop) [DecidablePred p] : List ε → List ε
  | [] => []
  | a :: window => a :: if p a then lookedAt p window else []

variable {covers entryOf}

/-- One more call. -/
theorem queueOf_concat (calls : List κ) (call : κ) :
    queueOf covers entryOf (calls ++ [call]) =
      advance covers entryOf (queueOf covers entryOf calls) call := by
  rw [queueOf, List.foldl_append]
  rfl

section

omit [∀ c, DecidablePred (covers c)]

/-- An entry lasts as long as all later calls cover it. -/
theorem lasts_iff {call : κ} {a : ε} (h : entryOf call = some a) (later : List κ) :
    Lasts covers entryOf call later ↔ ∀ c ∈ later, covers c a := by
  simp [Lasts, h]

/-- A call without an entry leaves nothing that could last. -/
theorem not_lasts_of_none {call : κ} (h : entryOf call = none) (later : List κ) :
    ¬Lasts covers entryOf call later := by
  simp [Lasts, h]

/-- What lasts for some calls lasts for the first of them. -/
theorem Lasts.of_append {call : κ} {later later' : List κ}
    (h : Lasts covers entryOf call (later ++ later')) : Lasts covers entryOf call later := by
  obtain ⟨a, ha, hcovers⟩ := h
  exact ⟨a, ha, fun c hc => hcovers c (List.mem_append_left later' hc)⟩

end

/-- Calls that do not last are forgotten for good. -/
theorem fromLasting_append (calls later : List κ) :
    fromLasting covers entryOf (calls ++ later) =
      fromLasting covers entryOf (fromLasting covers entryOf calls ++ later) := by
  induction calls with
  | nil => rfl
  | cons call calls ih =>
      by_cases hlasts : Lasts covers entryOf call calls
      · rw [show fromLasting covers entryOf (call :: calls) = call :: calls from if_pos hlasts]
      · have hnot : ¬Lasts covers entryOf call (calls ++ later) := fun h => hlasts h.of_append
        rw [List.cons_append, fromLasting, if_neg hnot, fromLasting, if_neg hlasts, ih]

/-- What is kept begins with a call that lasts, unless nothing is kept. -/
theorem lasts_of_fromLasting_eq_cons {calls rest : List κ} {call : κ}
    (h : fromLasting covers entryOf calls = call :: rest) : Lasts covers entryOf call rest := by
  induction calls with
  | nil => cases h
  | cons c calls ih =>
      rw [fromLasting] at h
      split_ifs at h with hlasts
      · obtain ⟨rfl, rfl⟩ := List.cons.inj h
        exact hlasts
      · exact ih h

/-- A call on the empty queue. -/
theorem advance_nil (now : κ) :
    advance covers entryOf [] now = (fromLasting covers entryOf [now]).filterMap entryOf := by
  rw [advance, fromLasting]
  cases hentry : entryOf now with
  | none =>
      rw [if_neg (not_lasts_of_none hentry [])]
      rfl
  | some a =>
      rw [if_pos ((lasts_iff hentry []).mpr (by simp)), List.filterMap_cons_some hentry]
      rfl

/-- A queue whose front is covered loses nothing. -/
theorem advance_of_covers {now : κ} {a : ε} (h : covers now a) (window : List ε) :
    advance covers entryOf (a :: window) now = a :: window ++ (entryOf now).toList := by
  rw [advance, List.dropWhile_cons_of_neg (by simpa using h)]

/-- A front that is not covered is taken. -/
theorem advance_of_not_covers {now : κ} {a : ε} (h : ¬covers now a) (window : List ε) :
    advance covers entryOf (a :: window) now = advance covers entryOf window now := by
  rw [advance, List.dropWhile_cons_of_pos (by simpa using h), ← advance]

/-- The entries of one more call. -/
theorem filterMap_concat (calls : List κ) (now : κ) :
    (calls ++ [now]).filterMap entryOf = calls.filterMap entryOf ++ (entryOf now).toList := by
  rw [List.filterMap_append]
  cases hentry : entryOf now <;> simp [hentry]

/-- A call that has lasted goes on lasting when its entry is covered, and the queue behind its
entry is extended. -/
theorem fromLasting_of_covers {call now : κ} {calls : List κ} {a : ε}
    (hentry : entryOf call = some a) (hlater : ∀ c ∈ calls, covers c a) (hnow : covers now a) :
    (fromLasting covers entryOf (call :: calls ++ [now])).filterMap entryOf =
      advance covers entryOf (a :: calls.filterMap entryOf) now := by
  have hlasts : Lasts covers entryOf call (calls ++ [now]) :=
    (lasts_iff hentry _).mpr <| List.forall_mem_append.mpr ⟨hlater, by simpa using hnow⟩
  rw [List.cons_append, fromLasting, if_pos hlasts, advance_of_covers hnow,
    List.filterMap_cons_some hentry, filterMap_concat]
  rfl

/-- A call whose entry is not covered does not last. -/
theorem fromLasting_of_not_covers {call now : κ} {a : ε} (hentry : entryOf call = some a)
    (hnow : ¬covers now a) (calls : List κ) :
    fromLasting covers entryOf (call :: calls ++ [now]) =
      fromLasting covers entryOf (calls ++ [now]) := by
  have hnot : ¬Lasts covers entryOf call (calls ++ [now]) := fun hlasts =>
    hnow ((lasts_iff hentry _).mp hlasts now (by simp))
  rw [List.cons_append, fromLasting, if_neg hnot]

/-- Behind calls whose windows cover what the window of `now` covers, the first call that
lasts is the first that `now` covers. -/
theorem fromLasting_concat {calls : List κ} {now : κ}
    (h : ∀ c ∈ calls, ∀ b, covers now b → covers c b) :
    (fromLasting covers entryOf (calls ++ [now])).filterMap entryOf =
      advance covers entryOf (calls.filterMap entryOf) now := by
  induction calls with
  | nil => exact (advance_nil now).symm
  | cons call calls ih =>
      have hlater : ∀ c ∈ calls, ∀ b, covers now b → covers c b :=
        fun c hc => h c (List.mem_cons_of_mem call hc)
      cases hentry : entryOf call with
      | none =>
          rw [List.cons_append, fromLasting, if_neg (not_lasts_of_none hentry _), ih hlater,
            List.filterMap_cons_none hentry]
      | some b =>
          rw [List.filterMap_cons_some hentry]
          by_cases hnow : covers now b
          · exact fromLasting_of_covers hentry (fun c hc => hlater c hc b hnow) hnow
          · rw [fromLasting_of_not_covers hentry hnow, ih hlater, advance_of_not_covers hnow]

/-- **The queue without its history.** When windows are nested the queue holds the entries of
the calls from the first one on that lasts. -/
theorem queueOf_eq (hnested : Nested covers) (calls : List κ) :
    queueOf covers entryOf calls = (fromLasting covers entryOf calls).filterMap entryOf := by
  induction calls using List.reverseRecOn with
  | nil => rfl
  | append_singleton calls now ih =>
      rw [queueOf_concat, ih, fromLasting_append]
      cases hkept : fromLasting covers entryOf calls with
      | nil => exact advance_nil now
      | cons call rest =>
          obtain ⟨a, ha, hrest⟩ := lasts_of_fromLasting_eq_cons hkept
          have hentry : entryOf call = some a := ha
          rw [List.filterMap_cons_some hentry]
          by_cases hnow : covers now a
          · exact (fromLasting_of_covers hentry hrest hnow).symm
          · rw [fromLasting_of_not_covers hentry hnow, advance_of_not_covers hnow]
            -- what `now` shares with a later call is covered by it, as the call covers `a`
            exact (fromLasting_concat fun c hc b hb =>
              hnested now c a b hnow hb (hrest c hc)).symm

/-! ### Which entries a call looks at -/

/-- Behind the calls `before ++ call :: after`, the call `now` meets `call` at the front: `call` is
still there because it or one before it has lasted until `now`, and it comes to the front
because none of those before it lasts any longer. -/
structure Meets (lasts : κ → List κ → Prop) (before : List κ) (call : κ) (after : List κ)
    (now : κ) : Prop where
  kept : ∃ pre c post, before ++ [call] = pre ++ c :: post ∧ lasts c (post ++ after)
  front : ∀ pre c post, before = pre ++ c :: post → ¬lasts c (post ++ call :: after ++ [now])

/-- The loop looks at an entry when it passes all entries before it. -/
theorem mem_lookedAt_filterMap {p : ε → Prop} [DecidablePred p] {calls : List κ} {a : ε} :
    a ∈ lookedAt p (calls.filterMap entryOf) ↔
      ∃ before call after, calls = before ++ call :: after ∧ entryOf call = some a ∧
        ∀ c ∈ before, ∀ b ∈ entryOf c, p b := by
  induction calls with
  | nil => simp [lookedAt]
  | cons c calls ih =>
      have hfirst : (∃ before call after, c :: calls = before ++ call :: after ∧
            entryOf call = some a ∧ ∀ d ∈ before, ∀ b ∈ entryOf d, p b) ↔
          entryOf c = some a ∨ (∀ b ∈ entryOf c, p b) ∧ ∃ before call after,
            calls = before ++ call :: after ∧ entryOf call = some a ∧
              ∀ d ∈ before, ∀ b ∈ entryOf d, p b := by
        constructor
        · rintro ⟨before, call, after, hsplit, hentry, hbefore⟩
          cases before with
          | nil =>
              obtain ⟨rfl, rfl⟩ := List.cons.inj hsplit
              exact .inl hentry
          | cons d before =>
              obtain ⟨rfl, rfl⟩ := List.cons.inj hsplit
              obtain ⟨hd, hbefore⟩ := List.forall_mem_cons.mp hbefore
              exact .inr ⟨hd, before, call, after, rfl, hentry, hbefore⟩
        · rintro (hentry | ⟨hc, before, call, after, rfl, hentry, hbefore⟩)
          · exact ⟨[], c, calls, rfl, hentry, by simp⟩
          · exact ⟨c :: before, call, after, rfl, hentry, List.forall_mem_cons.mpr ⟨hc, hbefore⟩⟩
      rw [hfirst, ← ih]
      cases hentry : entryOf c with
      | none => simp [List.filterMap_cons_none hentry]
      | some b =>
          rw [List.filterMap_cons_some hentry, lookedAt]
          split_ifs with hp <;> simp [hp, eq_comm]

variable (covers entryOf) in
/-- What is kept is a rest of the stream, and nothing before it lasts. -/
theorem exists_append_fromLasting (calls : List κ) :
    ∃ gone, calls = gone ++ fromLasting covers entryOf calls ∧
      ∀ pre c post, gone = pre ++ c :: post →
        ¬Lasts covers entryOf c (post ++ fromLasting covers entryOf calls) := by
  induction calls with
  | nil => exact ⟨[], rfl, by simp⟩
  | cons call calls ih =>
      obtain ⟨gone, hcalls, hgone⟩ := ih
      rw [fromLasting]
      split_ifs with hlasts
      · exact ⟨[], rfl, by simp⟩
      · refine ⟨call :: gone, congrArg _ hcalls, fun pre c post hsplit => ?_⟩
        cases pre with
        | nil =>
            obtain ⟨rfl, rfl⟩ := List.cons.inj hsplit
            rwa [← hcalls]
        | cons d pre => exact hgone pre c post (List.cons.inj hsplit).2

/-- What is kept begins at the latest with a call that lasts. -/
theorem exists_fromLasting_eq {call : κ} {later : List κ}
    (h : Lasts covers entryOf call later) (calls : List κ) :
    ∃ gone kept, calls = gone ++ kept ∧
      fromLasting covers entryOf (calls ++ call :: later) = kept ++ call :: later := by
  induction calls with
  | nil => exact ⟨[], [], rfl, if_pos h⟩
  | cons c calls ih =>
      obtain ⟨gone, kept, rfl, hkept⟩ := ih
      rw [List.cons_append, fromLasting]
      split_ifs
      · exact ⟨[], c :: (gone ++ kept), rfl, rfl⟩
      · exact ⟨c :: gone, kept, rfl, hkept⟩

/-- The last element of an append to a nonempty list belongs to the second part. -/
theorem exists_concat_of_append_eq {before gone kept : List κ} {call c : κ} {post : List κ}
    (h : before ++ [call] = gone ++ (kept ++ c :: post)) :
    ∃ front, kept ++ c :: post = front ++ [call] ∧ before = gone ++ front := by
  obtain ⟨front, last, hlast⟩ := (List.eq_nil_or_concat (kept ++ c :: post)).resolve_left (by simp)
  rw [List.concat_eq_append] at hlast
  rw [hlast, ← List.append_assoc] at h
  obtain ⟨hbefore, hcall⟩ := List.append_inj' h rfl
  obtain rfl := (List.cons.inj hcall).1
  exact ⟨front, hlast, hbefore⟩

/-- What is kept in front of a call is met if nothing before it is covered. -/
theorem exists_meets {calls front after : List κ} {call now : κ}
    (hkept : fromLasting covers entryOf calls = front ++ call :: after)
    (hfront : ∀ c ∈ front, ∀ b ∈ entryOf c, ¬covers now b) :
    ∃ before, calls = before ++ call :: after ∧
      Meets (Lasts covers entryOf) before call after now := by
  obtain ⟨gone, hcalls, hgone⟩ := exists_append_fromLasting covers entryOf calls
  rw [hkept] at hcalls hgone
  refine ⟨gone ++ front, hcalls.trans (List.append_assoc ..).symm, ?_, ?_⟩
  · cases front with
    | nil => exact ⟨gone, call, [], by simp, lasts_of_fromLasting_eq_cons hkept⟩
    | cons f front =>
        have hf : Lasts covers entryOf f (front ++ call :: after) :=
          lasts_of_fromLasting_eq_cons hkept
        exact ⟨gone, f, front ++ [call], by simp, by rwa [← List.append_cons]⟩
  · intro pre c post hbefore hlasts
    have hnow : c ∉ front := by
      intro hc
      obtain ⟨b, hb, hcovers⟩ := hlasts
      exact hfront c hc b hb (hcovers now (by simp))
    rcases List.append_eq_append_iff.mp hbefore with ⟨as, -, hsplit⟩ | ⟨bs, hsplit, hrest⟩
    · exact hnow (hsplit ▸ by simp)
    · cases bs with
      | nil =>
          have hall : c :: post = front := hrest
          exact hnow (hall ▸ List.mem_cons_self)
      | cons d bs =>
          obtain ⟨rfl, rfl⟩ := List.cons.inj hrest
          refine hgone pre c bs hsplit ?_
          rw [← List.append_assoc]
          exact hlasts.of_append

/-- A call that is met is kept. -/
theorem Meets.fromLasting_eq {before after : List κ} {call now : κ}
    (h : Meets (Lasts covers entryOf) before call after now) :
    ∃ gone front, before = gone ++ front ∧
      fromLasting covers entryOf (before ++ call :: after) = front ++ call :: after := by
  obtain ⟨pre, c, post, hbefore, hlasts⟩ := h.kept
  obtain ⟨gone, kept, rfl, hkept⟩ := exists_fromLasting_eq hlasts pre
  have hcalls : before ++ call :: after = gone ++ kept ++ c :: (post ++ after) := by
    rw [List.append_cons, hbefore]
    simp
  rw [List.append_assoc] at hbefore
  obtain ⟨front, hconcat, hfront⟩ := exists_concat_of_append_eq hbefore
  refine ⟨gone, front, hfront, ?_⟩
  rw [hcalls, hkept, ← List.cons_append, ← List.append_assoc, hconcat, ← List.append_cons]

/-- What is kept in front of a call that is met is not covered. -/
theorem Meets.not_covers (hnested : Nested covers) {gone front after : List κ} {call now : κ}
    (h : Meets (Lasts covers entryOf) (gone ++ front) call after now)
    (hkept : fromLasting covers entryOf (gone ++ front ++ call :: after) =
      front ++ call :: after) :
    ∀ c ∈ front, ∀ b ∈ entryOf c, ¬covers now b := by
  intro c hc b hb hcovers
  obtain ⟨pre, post, rfl⟩ := List.append_of_mem hc
  -- the first call kept has lasted, and what covers its entry covers `b`
  obtain ⟨f, rest, hfirst, hrest⟩ : ∃ f rest, pre ++ c :: post = f :: rest ∧
      ∀ d ∈ post ++ call :: after, d ∈ rest ++ call :: after := by
    cases pre with
    | nil => exact ⟨c, post, rfl, fun d hd => hd⟩
    | cons f pre =>
        refine ⟨f, pre ++ c :: post, rfl, fun d hd => ?_⟩
        rw [List.append_assoc]
        exact List.mem_append_right pre (List.mem_cons_of_mem c hd)
  rw [hfirst] at hkept
  obtain ⟨a, ha, hall⟩ := lasts_of_fromLasting_eq_cons hkept
  have hnot : ¬covers now a := fun hnow => h.front gone f rest (by rw [hfirst])
    ⟨a, ha, List.forall_mem_append.mpr ⟨hall, by simpa using hnow⟩⟩
  refine h.front (gone ++ pre) c post (by rw [List.append_assoc]) ⟨b, hb, ?_⟩
  refine List.forall_mem_append.mpr ⟨fun d hd => ?_, by simpa using hcovers⟩
  exact hnested now d a b hnot hcovers (hall d (hrest d hd))

/-- **Which entries a call looks at.** -/
theorem mem_lookedAt_queueOf (hnested : Nested covers) {calls : List κ} {now : κ} {a : ε} :
    a ∈ lookedAt (fun a => ¬covers now a) (queueOf covers entryOf calls) ↔
      ∃ before call after, calls = before ++ call :: after ∧ entryOf call = some a ∧
        Meets (Lasts covers entryOf) before call after now := by
  rw [queueOf_eq hnested, mem_lookedAt_filterMap]
  constructor
  · rintro ⟨front, call, after, hkept, hentry, hfront⟩
    obtain ⟨before, hcalls, hmeets⟩ := exists_meets hkept hfront
    exact ⟨before, call, after, hcalls, hentry, hmeets⟩
  · rintro ⟨before, call, after, rfl, hentry, hmeets⟩
    obtain ⟨gone, front, rfl, hkept⟩ := hmeets.fromLasting_eq
    exact ⟨front, call, after, hkept, hentry, hmeets.not_covers hnested hkept⟩

end Calls

end SlidingWindow
