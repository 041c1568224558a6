import Mathlib.Data.List.Sort
import Mathlib.Order.RelClasses

/-!
# Ordered Maps as Sorted Association Lists

`SortedMap κ ν lt` is a finite map whose entries are listed in strictly increasing key
order under the comparator `lt`. It is the iteration-order view of a balanced search tree
keyed by `lt`: the sortedness proof travels with the value, so a map with a duplicated or
misplaced key cannot be built.

The operations are the four a client of such a map performs: look a key up (`find?`),
update the value of a key in place and create it from a default when absent (`upsert`),
update the value of a key that must be present (`modify`), and drop a key (`erase`).

## Main results

* `find?_upsert`, `find?_modify`, `find?_erase`: what each operation does, key by key.
* `find?_eq_some_iff`: a map lists exactly the pairs that its lookups find.
-/

/-- A finite map listed in strictly increasing key order under the comparator `lt`. -/
structure SortedMap (κ ν : Type*) (lt : κ → κ → Prop) where
  /-- The key-value pairs, in iteration order. -/
  entries : List (κ × ν)
  /-- Every key comes strictly before all later keys. -/
  sorted : entries.Pairwise fun a b => lt a.1 b.1

namespace SortedMap

variable {κ ν : Type*} {lt : κ → κ → Prop}

/-- The map with no entries. -/
def empty : SortedMap κ ν lt := ⟨[], List.Pairwise.nil⟩

variable [DecidableEq κ]

/-- The value paired with `k` in an entry list. -/
def lookupEntries (k : κ) : List (κ × ν) → Option ν
  | [] => none
  | e :: rest => if k = e.1 then some e.2 else lookupEntries k rest

/-- The value stored under `k`. -/
def find? (m : SortedMap κ ν lt) (k : κ) : Option ν := lookupEntries k m.entries

/-- Update the value stored under `k` in place; nothing happens when `k` is absent. -/
def modify (m : SortedMap κ ν lt) (k : κ) (f : ν → ν) : SortedMap κ ν lt where
  entries := m.entries.map fun e => if e.1 = k then (e.1, f e.2) else e
  sorted := by
    refine List.pairwise_map.mpr (m.sorted.imp ?_)
    intro a b hab
    split <;> split <;> exact hab

/-- Drop the entry of `k`. -/
def erase (m : SortedMap κ ν lt) (k : κ) : SortedMap κ ν lt where
  entries := m.entries.filter fun e => e.1 ≠ k
  sorted := m.sorted.filter _

/-! ### Lookups as membership -/

/-- Nothing is found exactly under a key that has no pair. -/
theorem lookupEntries_eq_none_iff {k : κ} {es : List (κ × ν)} :
    lookupEntries k es = none ↔ ∀ v, (k, v) ∉ es := by
  induction es with
  | nil => simp [lookupEntries]
  | cons e es ih =>
      obtain ⟨k', v'⟩ := e
      by_cases hk : k = k'
      · subst hk
        simp only [lookupEntries, if_true, reduceCtorEq, false_iff, not_forall, not_not]
        exact ⟨v', List.mem_cons_self⟩
      · simp [lookupEntries, hk, ih]

/-- A lookup is the presence of the pair: keys are listed once. -/
theorem find?_eq_some_iff [Std.Irrefl lt] {m : SortedMap κ ν lt} {k : κ} {v : ν} :
    m.find? k = some v ↔ (k, v) ∈ m.entries := by
  obtain ⟨es, hs⟩ := m
  simp only [find?]
  induction es with
  | nil => simp [lookupEntries]
  | cons e es ih =>
      obtain ⟨k', v'⟩ := e
      obtain ⟨hlt, hs⟩ := List.pairwise_cons.mp hs
      by_cases hk : k = k'
      · subst hk
        have hnot : (k, v) ∉ es := fun hmem => irrefl_of lt k (hlt _ hmem)
        simp [lookupEntries, hnot, eq_comm]
      · simp [lookupEntries, hk, ih hs]

/-! ### What the operations do, key by key -/

/-- An edit changes the value under its key only. -/
theorem find?_modify (m : SortedMap κ ν lt) (k : κ) (f : ν → ν) (k' : κ) :
    (m.modify k f).find? k' = if k' = k then (m.find? k).map f else m.find? k' := by
  obtain ⟨es, hs⟩ := m
  simp only [find?, modify]
  clear hs
  induction es with
  | nil => simp [lookupEntries]
  | cons e es ih =>
      rw [List.map_cons, lookupEntries, ih]
      by_cases he : e.1 = k
      · by_cases hk : k' = k
        · simp [lookupEntries, he, hk]
        · simp [lookupEntries, he, hk]
      · by_cases hk : k' = k
        · subst hk
          simp [lookupEntries, he, Ne.symm he]
        · simp [lookupEntries, he, hk]

/-- An erasure takes its key out and leaves the others. -/
theorem find?_erase (m : SortedMap κ ν lt) (k k' : κ) :
    (m.erase k).find? k' = if k' = k then none else m.find? k' := by
  obtain ⟨es, hs⟩ := m
  simp only [find?, erase]
  clear hs
  induction es with
  | nil => simp [lookupEntries]
  | cons e es ih =>
      by_cases he : e.1 = k
      · rw [List.filter_cons_of_neg (by simpa using he), ih]
        by_cases hk : k' = k
        · simp [hk]
        · simp [lookupEntries, he, hk]
      · rw [List.filter_cons_of_pos (by simpa using he), lookupEntries, ih]
        by_cases hk : k' = k
        · simp [hk, Ne.symm he]
        · simp [lookupEntries, hk]

/-! ### Edits of one key in a row -/

/-- Two edits of one key are one. -/
theorem modify_modify (m : SortedMap κ ν lt) (k : κ) (f g : ν → ν) :
    (m.modify k f).modify k g = m.modify k (g ∘ f) := by
  have hentries : ∀ es : List (κ × ν),
      (es.map fun e => if e.1 = k then (e.1, f e.2) else e).map
          (fun e => if e.1 = k then (e.1, g e.2) else e) =
        es.map fun e => if e.1 = k then (e.1, (g ∘ f) e.2) else e := by
    intro es
    rw [List.map_map]
    refine List.map_congr_left fun e _ => ?_
    by_cases he : e.1 = k <;> simp [he]
  simp only [modify, hentries]

/-- An edit before an erasure of the same key is lost. -/
theorem erase_modify (m : SortedMap κ ν lt) (k : κ) (f : ν → ν) :
    (m.modify k f).erase k = m.erase k := by
  have hentries : ∀ es : List (κ × ν),
      (es.map fun e => if e.1 = k then (e.1, f e.2) else e).filter (fun e => e.1 ≠ k) =
        es.filter fun e => e.1 ≠ k := by
    intro es
    induction es with
    | nil => rfl
    | cons e es ih => by_cases he : e.1 = k <;> simp_all
  simp only [modify, erase, hentries]

/-- An edit of a key that is absent changes nothing. -/
theorem modify_of_find?_eq_none {m : SortedMap κ ν lt} {k : κ} (h : m.find? k = none)
    (f : ν → ν) : m.modify k f = m := by
  obtain ⟨es, hs⟩ := m
  rw [find?, lookupEntries_eq_none_iff] at h
  have hentries : (es.map fun e => if e.1 = k then (e.1, f e.2) else e) = es := by
    refine (List.map_congr_left fun e he => if_neg fun hkey => ?_).trans (List.map_id es)
    exact h e.2 (hkey ▸ he)
  simp only [modify, hentries]

/-! ### Creating an entry -/

section Upsert

variable [DecidableRel lt]

/-- Update the value of `k` in a sorted entry list, inserting `f d` at its sorted place
when `k` is absent. -/
def upsertEntries (lt : κ → κ → Prop) [DecidableRel lt] (k : κ) (d : ν) (f : ν → ν) :
    List (κ × ν) → List (κ × ν)
  | [] => [(k, f d)]
  | (k', v) :: rest =>
      if lt k k' then (k, f d) :: (k', v) :: rest
      else if k = k' then (k', f v) :: rest
      else (k', v) :: upsertEntries lt k d f rest

/-- The keys behind an update are those before it and its own. -/
theorem fst_mem_upsertEntries {k : κ} {d : ν} {f : ν → ν} {es : List (κ × ν)} {e : κ × ν}
    (h : e ∈ upsertEntries lt k d f es) : e.1 = k ∨ ∃ v, (e.1, v) ∈ es := by
  induction es with
  | nil =>
      obtain rfl : e = (k, f d) := by simpa [upsertEntries] using h
      exact Or.inl rfl
  | cons e' es ih =>
      obtain ⟨k', v'⟩ := e'
      simp only [upsertEntries] at h
      split_ifs at h with hlt heq
      · rcases List.mem_cons.mp h with rfl | hmem
        · exact Or.inl rfl
        · exact Or.inr ⟨e.2, hmem⟩
      · rcases List.mem_cons.mp h with rfl | hmem
        · exact Or.inl heq.symm
        · exact Or.inr ⟨e.2, List.mem_cons_of_mem _ hmem⟩
      · rcases List.mem_cons.mp h with rfl | hmem
        · exact Or.inr ⟨v', List.mem_cons_self⟩
        · rcases ih hmem with hk | ⟨v, hv⟩
          · exact Or.inl hk
          · exact Or.inr ⟨v, List.mem_cons_of_mem _ hv⟩

/-- An update keeps the entries sorted. -/
theorem sorted_upsertEntries [IsStrictTotalOrder κ lt] (k : κ) (d : ν) (f : ν → ν)
    {es : List (κ × ν)} (hs : es.Pairwise fun a b => lt a.1 b.1) :
    (upsertEntries lt k d f es).Pairwise fun a b => lt a.1 b.1 := by
  induction es with
  | nil => exact List.pairwise_singleton _ _
  | cons e es ih =>
      obtain ⟨k', v'⟩ := e
      obtain ⟨hlt, hs'⟩ := List.pairwise_cons.mp hs
      simp only [upsertEntries]
      split_ifs with h heq
      · refine List.pairwise_cons.mpr ⟨?_, hs⟩
        intro a ha
        rcases List.mem_cons.mp ha with rfl | hmem
        · exact h
        · exact trans_of lt h (hlt a hmem)
      · exact List.pairwise_cons.mpr ⟨hlt, hs'⟩
      · refine List.pairwise_cons.mpr ⟨?_, ih hs'⟩
        intro a ha
        rcases fst_mem_upsertEntries ha with hk | ⟨v, hv⟩
        · rw [hk]
          rcases trichotomous_of lt k k' with h' | h' | h'
          · exact absurd h' h
          · exact absurd h' heq
          · exact h'
        · exact hlt (a.1, v) hv

/-- Update the value stored under `k`, creating it from the default `d` when absent: the
subscript operator of an ordered map followed by an in-place update through it. -/
def upsert [IsStrictTotalOrder κ lt] (m : SortedMap κ ν lt) (k : κ) (d : ν) (f : ν → ν) :
    SortedMap κ ν lt where
  entries := upsertEntries lt k d f m.entries
  sorted := sorted_upsertEntries k d f m.sorted

/-- An update changes the value under its key only, creating it if need be. -/
theorem find?_upsert [IsStrictTotalOrder κ lt] (m : SortedMap κ ν lt) (k : κ) (d : ν)
    (f : ν → ν) (k' : κ) :
    (m.upsert k d f).find? k' =
      if k' = k then some (f ((m.find? k).getD d)) else m.find? k' := by
  obtain ⟨es, hs⟩ := m
  simp only [find?, upsert]
  induction es with
  | nil => simp [upsertEntries, lookupEntries]
  | cons e es ih =>
      obtain ⟨k₀, v₀⟩ := e
      obtain ⟨hlt, hs'⟩ := List.pairwise_cons.mp hs
      by_cases h : lt k k₀
      · -- the new key sorts before the head, hence before every entry
        have hne : k ≠ k₀ := by rintro rfl; exact irrefl_of lt _ h
        have hnone : lookupEntries k es = none := by
          refine lookupEntries_eq_none_iff.mpr fun v hv => ?_
          exact irrefl_of lt k (trans_of lt h (hlt _ hv))
        by_cases hk : k' = k
        · subst hk
          simp [upsertEntries, lookupEntries, h, hne, hnone]
        · simp [upsertEntries, lookupEntries, h, hk]
      · by_cases heq : k = k₀
        · subst heq
          by_cases hk : k' = k <;> simp [upsertEntries, lookupEntries, h, hk]
        · rw [upsertEntries, if_neg h, if_neg heq, lookupEntries, ih hs']
          by_cases hk : k' = k
          · subst hk
            simp [lookupEntries, heq]
          · simp [lookupEntries, hk]

end Upsert

end SortedMap
