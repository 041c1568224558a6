import Mathlib.Data.Finset.Card
import Datagine.Lib.SortedMap
import Datagine.Types

/-!
# The Price Levels of a Book

Both order books keep one ordered map of price levels per side: bids under
`std::greater`, asks under `std::less`. The code that selects a map by side, creates,
edits and erases a level in it, and reads the best levels back is the same in both; only
the contents `ν` of a level differ. `BookLevels ν` is the pair of maps, addressed by a
side and a price.

The lemmas say what each edit does at every side and price (`find_upsert`, `find_modify`,
`find_erase`), and that the listing of a side is determined by its lookups
(`mem_entries`), so that later proofs never look at the maps.
-/

namespace Datagine

/-- The level maps of the two sides. -/
structure BookLevels (ν : Type) where
  bidLevels : SortedMap Int64 ν Side.buy.before
  askLevels : SortedMap Int64 ν Side.sell.before

namespace BookLevels

variable {ν : Type}

/-- No levels on either side. -/
def empty : BookLevels ν := ⟨.empty, .empty⟩

/-- The levels of a side, best price first. -/
def entries (m : BookLevels ν) : Side → List (Int64 × ν)
  | .buy => m.bidLevels.entries
  | .sell => m.askLevels.entries

/-- The level at a price. -/
def find (m : BookLevels ν) (s : Side) (p : Price) : Option ν :=
  match s with
  | .buy => m.bidLevels.find? p.ticks
  | .sell => m.askLevels.find? p.ticks

/-- Edit the level at a price, creating it from `d` when the price is new. -/
def upsert (m : BookLevels ν) (s : Side) (p : Price) (d : ν) (f : ν → ν) : BookLevels ν :=
  match s with
  | .buy => { m with bidLevels := m.bidLevels.upsert p.ticks d f }
  | .sell => { m with askLevels := m.askLevels.upsert p.ticks d f }

/-- Edit the level at a price; nothing happens when there is none. -/
def modify (m : BookLevels ν) (s : Side) (p : Price) (f : ν → ν) : BookLevels ν :=
  match s with
  | .buy => { m with bidLevels := m.bidLevels.modify p.ticks f }
  | .sell => { m with askLevels := m.askLevels.modify p.ticks f }

/-- Erase the level at a price. -/
def erase (m : BookLevels ν) (s : Side) (p : Price) : BookLevels ν :=
  match s with
  | .buy => { m with bidLevels := m.bidLevels.erase p.ticks }
  | .sell => { m with askLevels := m.askLevels.erase p.ticks }

/-- Edit or erase the level at a price: `f` returning `none` erases it. Nothing happens
when there is none. -/
def alter (m : BookLevels ν) (s : Side) (p : Price) (f : ν → Option ν) : BookLevels ν :=
  match m.find s p with
  | none => m
  | some level =>
      match f level with
      | none => m.erase s p
      | some level' => m.modify s p fun _ => level'

/-- The best level of each side, under a view of levels. -/
def top (view : Int64 → ν → PriceLevelView) (m : BookLevels ν) : TopOfBook where
  bid := m.bidLevels.entries.head?.map fun e => view e.1 e.2
  ask := m.askLevels.entries.head?.map fun e => view e.1 e.2

/-- The first `n` levels of each side, under a view of levels. -/
def depth (view : Int64 → ν → PriceLevelView) (m : BookLevels ν) (n : ℕ) : BookDepth where
  bids := (m.bidLevels.entries.take n).map fun e => view e.1 e.2
  asks := (m.askLevels.entries.take n).map fun e => view e.1 e.2

/-- The crossed-book test: both sides are non-empty and the best bid price exceeds the
best ask price. -/
def crossed (m : BookLevels ν) : Bool :=
  match m.bidLevels.entries.head?, m.askLevels.entries.head? with
  | some bid, some ask => bid.1 > ask.1
  | _, _ => false

/-- The top-of-book tests of an invariant check on one side: the view is present exactly
when the side has a level, and is the view of its first level. -/
def topMatches (view : Int64 → ν → PriceLevelView) (entries : List (Int64 × ν))
    (top : Option PriceLevelView) : Bool :=
  entries.isEmpty == !top.isSome &&
    match entries.head? with
    | none => true
    | some e => top == some (view e.1 e.2)

/-- The level loop of an invariant check over the levels of one side: `check` either fails
or returns the ids seen so far, its own included. -/
def validateSide (check : Int64 → ν → Finset UInt64 → Option (Finset UInt64)) :
    List (Int64 × ν) → Finset UInt64 → Option (Finset UInt64)
  | [], seen => some seen
  | e :: rest, seen => (check e.1 e.2 seen).bind (validateSide check rest)

/-- The level loops of an invariant check, bids first: the ids seen, or `none` when a
level fails its check. -/
def validateLevels (check : Side → Int64 → ν → Finset UInt64 → Option (Finset UInt64))
    (m : BookLevels ν) : Option (Finset UInt64) :=
  (validateSide (check .buy) m.bidLevels.entries ∅).bind
    (validateSide (check .sell) m.askLevels.entries)

/-! ### What the edits do -/

/-- Different prices have different ticks. -/
theorem ticks_ne {p p' : Price} (h : p' ≠ p) : p'.ticks ≠ p.ticks := fun heq =>
  h (by cases p; cases p'; simp_all)

/-- There is no level in the empty maps. -/
@[simp] theorem find_empty (s : Side) (p : Price) : (empty : BookLevels ν).find s p = none := by
  cases s <;> rfl

/-- An update changes the level at its side and price only, creating it if need be. -/
theorem find_upsert (m : BookLevels ν) (s : Side) (p : Price) (d : ν) (f : ν → ν) (s' : Side)
    (p' : Price) :
    (m.upsert s p d f).find s' p' =
      if s = s' ∧ p = p' then some (f ((m.find s p).getD d)) else m.find s' p' := by
  by_cases hp : p = p'
  · subst hp
    cases s <;> cases s' <;> simp [find, upsert, SortedMap.find?_upsert]
  · have hne := ticks_ne (Ne.symm hp)
    cases s <;> cases s' <;> simp [find, upsert, SortedMap.find?_upsert, hne, hp]

/-- An edit changes the level at its side and price only. -/
theorem find_modify (m : BookLevels ν) (s : Side) (p : Price) (f : ν → ν) (s' : Side)
    (p' : Price) :
    (m.modify s p f).find s' p' =
      if s = s' ∧ p = p' then (m.find s p).map f else m.find s' p' := by
  by_cases hp : p = p'
  · subst hp
    cases s <;> cases s' <;> simp [find, modify, SortedMap.find?_modify]
  · have hne := ticks_ne (Ne.symm hp)
    cases s <;> cases s' <;> simp [find, modify, SortedMap.find?_modify, hne, hp]

/-- An erasure takes out the level at its side and price. -/
theorem find_erase (m : BookLevels ν) (s : Side) (p : Price) (s' : Side) (p' : Price) :
    (m.erase s p).find s' p' = if s = s' ∧ p = p' then none else m.find s' p' := by
  by_cases hp : p = p'
  · subst hp
    cases s <;> cases s' <;> simp [find, erase, SortedMap.find?_erase]
  · have hne := ticks_ne (Ne.symm hp)
    cases s <;> cases s' <;> simp [find, erase, SortedMap.find?_erase, hne, hp]

/-- An edit that may erase changes the level at its side and price only. -/
theorem find_alter (m : BookLevels ν) (s : Side) (p : Price) (f : ν → Option ν) (s' : Side)
    (p' : Price) :
    (m.alter s p f).find s' p' =
      if s = s' ∧ p = p' then (m.find s p).bind f else m.find s' p' := by
  rw [alter]
  cases hfind : m.find s p with
  | none =>
      by_cases h : s = s' ∧ p = p'
      · obtain ⟨rfl, rfl⟩ := h
        simpa using hfind
      · simp [h]
  | some level =>
      cases hf : f level with
      | none => simp only [find_erase, Option.bind_some, hf]
      | some level' => simp only [find_modify, Option.bind_some, hf, hfind, Option.map_some]

/-! ### Edits of one level in a row -/

/-- Two edits of one level are one. -/
theorem modify_modify (m : BookLevels ν) (s : Side) (p : Price) (f g : ν → ν) :
    (m.modify s p f).modify s p g = m.modify s p (g ∘ f) := by
  cases s <;> simp only [modify, SortedMap.modify_modify]

/-- An edit before the erasure of the level is lost. -/
theorem erase_modify (m : BookLevels ν) (s : Side) (p : Price) (f : ν → ν) :
    (m.modify s p f).erase s p = m.erase s p := by
  cases s <;> simp only [modify, erase, SortedMap.erase_modify]

/-- An edit of a level that does not exist changes nothing. -/
theorem modify_of_find_eq_none {m : BookLevels ν} {s : Side} {p : Price}
    (h : m.find s p = none) (f : ν → ν) : m.modify s p f = m := by
  cases s <;> simp only [modify, SortedMap.modify_of_find?_eq_none h]

/-- An edit before an edit that may erase the level. -/
theorem alter_modify (m : BookLevels ν) (s : Side) (p : Price) (f : ν → ν) (g : ν → Option ν) :
    (m.modify s p f).alter s p g = m.alter s p (g ∘ f) := by
  have hfind : (m.modify s p f).find s p = (m.find s p).map f := by simp [find_modify]
  rw [alter, alter, hfind]
  cases hlevel : m.find s p with
  | none =>
      exact modify_of_find_eq_none hlevel f
  | some level =>
      dsimp only [Option.map_some, Function.comp]
      cases g (f level) with
      | none => exact erase_modify m s p f
      | some level' => exact modify_modify m s p f fun _ => level'

/-! ### Listings -/

/-- A side lists the levels that are found on it. -/
theorem mem_entries {m : BookLevels ν} {s : Side} {k : Int64} {v : ν} :
    (k, v) ∈ m.entries s ↔ m.find s ⟨k⟩ = some v := by
  cases s <;> exact SortedMap.find?_eq_some_iff.symm

/-- A side lists its prices best first, each once. -/
theorem entries_sorted (m : BookLevels ν) (s : Side) :
    (m.entries s).Pairwise fun a b => s.before a.1 b.1 := by
  cases s
  · exact m.bidLevels.sorted
  · exact m.askLevels.sorted

/-- A top-of-book view computed from the levels passes its own tests. -/
theorem topMatches_head (view : Int64 → ν → PriceLevelView) (entries : List (Int64 × ν)) :
    topMatches view entries (entries.head?.map fun e => view e.1 e.2) = true := by
  cases entries <;> simp [topMatches]

/-- What is left of an invariant check whose view of the top is computed from the levels: the
test for a crossed book, the level loops, the count and the loop over the lookup. -/
theorem invariantCheck_eq (m : BookLevels ν) (view : Int64 → ν → PriceLevelView) (allow : Bool)
    (seen? : Option (Finset UInt64)) (count : ℕ) (validateLookup : Finset UInt64 → Bool) :
    (if !allow && m.crossed then false
      else if !topMatches view m.bidLevels.entries (m.top view).bid then false
      else if !topMatches view m.askLevels.entries (m.top view).ask then false
      else
        match seen? with
        | none => false
        | some seen => if seen.card ≠ count then false else validateLookup seen) =
      ((allow || !m.crossed) &&
        seen?.any fun seen => seen.card = count && validateLookup seen) := by
  have hbid := topMatches_head view m.bidLevels.entries
  have hask := topMatches_head view m.askLevels.entries
  simp only [top, hbid, hask, Bool.not_true, Bool.false_eq_true, if_false]
  cases seen? with
  | none => simp
  | some seen =>
      by_cases hcard : seen.card = count
      · cases allow <;> cases m.crossed <;> simp [hcard]
      · simp [hcard]

end BookLevels

end Datagine
