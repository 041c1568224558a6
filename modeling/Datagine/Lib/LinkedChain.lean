import Mathlib.Data.List.Nodup

/-!
# Index-Linked Chains

Doubly linked lists whose cells live in a shared store and name each other by index. The
store is seen through its two link functions `prev` and `next`; a distinguished index
`nil` marks the ends. `Seg prev next p l n` says that the cells `l` are linked in that
order, with `p` before the first and `n` after the last; a whole chain is
`Seg prev next nil l nil`.

## Main results

* `Seg.append_iff`: a segment splits and joins at any point.
* `Seg.congr`: a segment only depends on the links of its own cells, so chains without
  common cells do not disturb each other.
* `Seg.push`, `Seg.unlink`: linking a fresh cell at the end and bypassing a cell at any
  position, described by what the rewritten link functions do on the cells.
* `Seg.isChain`, `Seg.ends`: along a segment `prev` undoes `next`, and what its ends are
  linked to.
* `walk_seg`: following `next` from the first cell visits exactly the chain.
-/

namespace LinkedChain

variable {ι : Type*} {prev next prev' next' : ι → ι} {nil p n p' n' : ι}

/-- The first element of two lists one after the other. -/
theorem headD_append (l₁ l₂ : List ι) (d : ι) :
    (l₁ ++ l₂).headD d = l₁.headD (l₂.headD d) := by
  cases l₁ <;> rfl

/-- The last element of two lists one after the other. -/
theorem getLastD_append (l₁ l₂ : List ι) (d : ι) :
    (l₁ ++ l₂).getLastD d = l₂.getLastD (l₁.getLastD d) := by
  induction l₁ generalizing d with
  | nil => rfl
  | cons x xs ih => rw [List.cons_append, List.getLastD_cons, List.getLastD_cons, ih]

/-- The first element of a list that is not empty is in it. -/
theorem headD_mem {l : List ι} (h : l ≠ []) (d : ι) : l.headD d ∈ l := by
  cases l with
  | nil => exact absurd rfl h
  | cons x xs => exact List.mem_cons_self

/-- So is the last one. -/
theorem getLastD_mem {l : List ι} (h : l ≠ []) (d : ι) : l.getLastD d ∈ l := by
  cases l with
  | nil => exact absurd rfl h
  | cons x xs =>
      rw [List.getLastD_cons]
      exact List.getLastD_mem_cons

/-- The cells `l` are linked in order, with `p` before the first and `n` after the last. -/
def Seg (prev next : ι → ι) : ι → List ι → ι → Prop
  | _, [], _ => True
  | p, x :: xs, n => prev x = p ∧ next x = xs.headD n ∧ Seg prev next x xs n

/-- The empty list is linked between any two ends. -/
@[simp] theorem seg_nil : Seg prev next p [] n := trivial

/-- A segment and its first node. -/
theorem seg_cons {x : ι} {xs : List ι} :
    Seg prev next p (x :: xs) n ↔
      prev x = p ∧ next x = xs.headD n ∧ Seg prev next x xs n :=
  Iff.rfl

/-- **Splitting and joining.** A segment over a concatenation is a pair of segments that
meet: the first ends before the head of the second, which starts after the last cell of
the first. -/
theorem Seg.append_iff {l₁ l₂ : List ι} :
    Seg prev next p (l₁ ++ l₂) n ↔
      Seg prev next p l₁ (l₂.headD n) ∧ Seg prev next (l₁.getLastD p) l₂ n := by
  induction l₁ generalizing p with
  | nil => simp
  | cons x xs ih =>
      rw [List.cons_append, seg_cons, seg_cons, ih, headD_append, List.getLastD_cons]
      tauto

/-- A segment only depends on the links of its own cells. -/
theorem Seg.congr {l : List ι} (h : Seg prev next p l n)
    (hprev : ∀ x ∈ l, prev' x = prev x) (hnext : ∀ x ∈ l, next' x = next x) :
    Seg prev' next' p l n := by
  induction l generalizing p with
  | nil => trivial
  | cons x xs ih =>
      obtain ⟨hp, hn, hrest⟩ := h
      refine ⟨(hprev x List.mem_cons_self).trans hp, (hnext x List.mem_cons_self).trans hn, ?_⟩
      exact ih hrest (fun y hy => hprev y (List.mem_cons_of_mem _ hy))
        (fun y hy => hnext y (List.mem_cons_of_mem _ hy))

/-- Redirecting the last cell of a segment. -/
theorem Seg.redirectLast {l : List ι} (hnd : l.Nodup) (h : Seg prev next p l n)
    (hprev : ∀ x ∈ l, prev' x = prev x)
    (hnext : ∀ x ∈ l, x ≠ l.getLastD p → next' x = next x)
    (hlast : l ≠ [] → next' (l.getLastD p) = n') : Seg prev' next' p l n' := by
  induction l generalizing p with
  | nil => trivial
  | cons x xs ih =>
      obtain ⟨hp, hn, hrest⟩ := h
      obtain ⟨hx, hnd⟩ := List.nodup_cons.mp hnd
      rw [List.getLastD_cons] at hnext hlast
      have hrest' : Seg prev' next' x xs n' :=
        ih hnd hrest (fun y hy => hprev y (List.mem_cons_of_mem _ hy))
          (fun y hy => hnext y (List.mem_cons_of_mem _ hy)) (fun _ => hlast (by simp))
      refine ⟨(hprev x List.mem_cons_self).trans hp, ?_, hrest'⟩
      cases xs with
      | nil => exact hlast (by simp)
      | cons y ys =>
          -- the head is not the last cell, so its successor stays
          have hmem : (y :: ys).getLastD x ∈ y :: ys := getLastD_mem (by simp) x
          have hne : x ≠ (y :: ys).getLastD x := fun heq => hx (heq ▸ hmem)
          exact (hnext x List.mem_cons_self hne).trans hn

/-- Redirecting the first cell of a segment. -/
theorem Seg.redirectFirst {l : List ι} (hnd : l.Nodup) (h : Seg prev next p l n)
    (hnext : ∀ x ∈ l, next' x = next x)
    (hprev : ∀ x ∈ l, x ≠ l.headD n → prev' x = prev x)
    (hfirst : l ≠ [] → prev' (l.headD n) = p') : Seg prev' next' p' l n := by
  cases l with
  | nil => trivial
  | cons x xs =>
      obtain ⟨-, hn, hrest⟩ := h
      obtain ⟨hx, -⟩ := List.nodup_cons.mp hnd
      refine ⟨hfirst (by simp), (hnext x List.mem_cons_self).trans hn, ?_⟩
      refine hrest.congr (fun y hy => ?_) (fun y hy => hnext y (List.mem_cons_of_mem _ hy))
      exact hprev y (List.mem_cons_of_mem _ hy) (by rintro rfl; exact hx hy)

/-- **Linking a cell at the end.** The old last cell is redirected to the new one, which
points back at it. -/
theorem Seg.push {l : List ι} {y : ι} (hnd : l.Nodup) (h : Seg prev next nil l nil)
    (hprev : ∀ x ∈ l, prev' x = prev x)
    (hnext : ∀ x ∈ l, x ≠ l.getLastD nil → next' x = next x)
    (hlast : l ≠ [] → next' (l.getLastD nil) = y)
    (hyprev : prev' y = l.getLastD nil) (hynext : next' y = nil) :
    Seg prev' next' nil (l ++ [y]) nil := by
  refine Seg.append_iff.mpr ⟨?_, hyprev, hynext, trivial⟩
  exact h.redirectLast hnd hprev hnext hlast

/-- **Bypassing a cell.** The cell before it is redirected to the cell after it and back;
either may be missing. -/
theorem Seg.unlink {pre post : List ι} {x : ι} (hnd : (pre ++ x :: post).Nodup)
    (h : Seg prev next nil (pre ++ x :: post) nil)
    (hnext : ∀ y ∈ pre ++ post, y ≠ pre.getLastD nil → next' y = next y)
    (hlast : pre ≠ [] → next' (pre.getLastD nil) = post.headD nil)
    (hprev : ∀ y ∈ pre ++ post, y ≠ post.headD nil → prev' y = prev y)
    (hfirst : post ≠ [] → prev' (post.headD nil) = pre.getLastD nil)
    (hnil : nil ∉ pre ++ x :: post) :
    Seg prev' next' nil (pre ++ post) nil := by
  obtain ⟨hpre, -, -, hpost⟩ := Seg.append_iff.mp h
  obtain ⟨hndpre, hndpost, hdisj⟩ := List.nodup_append.mp hnd
  obtain ⟨-, hndpost⟩ := List.nodup_cons.mp hndpost
  have hdisj' : ∀ y ∈ pre, y ∉ post := fun y hy hy' =>
    hdisj y hy y (List.mem_cons_of_mem _ hy') rfl
  have hheadD : ∀ y ∈ pre, y ≠ post.headD nil := by
    rintro y hy rfl
    cases post with
    | nil => exact hnil (List.mem_append_left _ hy)
    | cons z zs => exact hdisj' z hy List.mem_cons_self
  have hlastD : ∀ y ∈ post, y ≠ pre.getLastD nil := by
    rintro y hy rfl
    cases pre with
    | nil => exact hnil (by simp_all)
    | cons z zs => exact hdisj' _ (getLastD_mem (by simp) nil) hy
  refine Seg.append_iff.mpr ⟨?_, ?_⟩
  · refine hpre.redirectLast hndpre (fun y hy => ?_) (fun y hy => ?_) hlast
    · exact hprev y (List.mem_append_left _ hy) (hheadD y hy)
    · exact hnext y (List.mem_append_left _ hy)
  · refine hpost.redirectFirst hndpost (fun y hy => ?_) (fun y hy => ?_) hfirst
    · exact hnext y (List.mem_append_right _ hy) (hlastD y hy)
    · exact hprev y (List.mem_append_right _ hy)

/-- The neighbours of a cell, read off its links. -/
theorem Seg.neighbours {pre post : List ι} {x : ι} (h : Seg prev next p (pre ++ x :: post) n) :
    prev x = pre.getLastD p ∧ next x = post.headD n := by
  obtain ⟨-, hp, hn, -⟩ := Seg.append_iff.mp h
  exact ⟨hp, hn⟩

/-- Along a segment, `prev` undoes `next`. -/
theorem Seg.isChain {l : List ι} (h : Seg prev next p l n) :
    l.IsChain fun x y => next x = y ∧ prev y = x := by
  induction l generalizing p with
  | nil => exact List.IsChain.nil
  | cons x xs ih =>
      obtain ⟨-, hn, hrest⟩ := h
      cases xs with
      | nil => exact List.IsChain.singleton x
      | cons y ys => exact List.IsChain.cons_cons ⟨hn, hrest.1⟩ (ih hrest)

/-- The ends of a segment. -/
theorem Seg.ends {l : List ι} (h : Seg prev next p l n) (hne : l ≠ []) (d : ι) :
    prev (l.headD d) = p ∧ next (l.getLastD d) = n := by
  induction l generalizing p d with
  | nil => exact absurd rfl hne
  | cons x xs ih =>
      obtain ⟨hp, hn, hrest⟩ := h
      refine ⟨hp, ?_⟩
      cases xs with
      | nil => exact hn
      | cons y ys => exact (ih hrest (by simp) x).2

/-- A segment is determined by its first cell, what is behind its last, and `next`. -/
theorem Seg.unique {l l' : List ι} (h : Seg prev next p l n) (h' : Seg prev' next p' l' n)
    (hhead : l.headD n = l'.headD n) (hl : n ∉ l) (hl' : n ∉ l') : l = l' := by
  induction l generalizing p p' l' with
  | nil =>
      cases l' with
      | nil => rfl
      | cons x xs =>
          obtain rfl : n = x := hhead
          exact absurd List.mem_cons_self hl'
  | cons x xs ih =>
      cases l' with
      | nil =>
          obtain rfl : x = n := hhead
          exact absurd List.mem_cons_self hl
      | cons y ys =>
          obtain rfl : x = y := hhead
          obtain ⟨-, hnext, hrest⟩ := h
          obtain ⟨-, hnext', hrest'⟩ := h'
          rw [ih hrest hrest' (hnext.symm.trans hnext')
            (fun hmem => hl (List.mem_cons_of_mem _ hmem))
            fun hmem => hl' (List.mem_cons_of_mem _ hmem)]

/-! ### Following the chain -/

/-- Following `next` from `x` until `nil` reaches `y`. -/
inductive Visits (next : ι → ι) (nil : ι) (x : ι) : ι → Prop
  | start : x ≠ nil → Visits next nil x x
  | step (y : ι) : Visits next nil x y → next y ≠ nil → Visits next nil x (next y)

/-- Following a chain reaches its own cells only. -/
theorem Seg.mem_of_visits {l : List ι} (h : Seg prev next p l nil) {y : ι}
    (hvisits : Visits next nil (l.headD nil) y) : y ∈ l := by
  induction hvisits with
  | start hne =>
      by_cases hl : l = []
      · subst hl
        exact absurd rfl hne
      · exact headD_mem hl nil
  | step y _ hne ih =>
      -- behind a cell of the chain comes the next cell or `nil`
      obtain ⟨pre, post, rfl⟩ := List.append_of_mem ih
      have hnext := h.neighbours.2
      have hpost : post ≠ [] := by
        rintro rfl
        exact hne hnext
      rw [hnext]
      exact List.mem_append_right _ (List.mem_cons_of_mem _ (headD_mem hpost nil))

section Walk

variable [DecidableEq ι]

/-- Follow `step` from `x` until `nil`, collecting the cells visited: `none` when the walk
leaves the store (`step` is undefined) or does not end within `fuel` cells. -/
def walk (step : ι → Option ι) (nil : ι) : ℕ → ι → Option (List ι)
  | 0, x => if x = nil then some [] else none
  | fuel + 1, x =>
      if x = nil then some []
      else (step x).bind fun y => (walk step nil fuel y).map (x :: ·)

/-- Following a chain from its first cell visits exactly the chain. -/
theorem walk_seg {step : ι → Option ι} {l : List ι} {fuel : ℕ}
    (h : Seg prev next p l nil) (hstep : ∀ x ∈ l, step x = some (next x))
    (hnil : nil ∉ l) (hfuel : l.length ≤ fuel) :
    walk step nil fuel (l.headD nil) = some l := by
  induction l generalizing p fuel with
  | nil => cases fuel <;> simp [walk]
  | cons x xs ih =>
      obtain ⟨fuel, rfl⟩ : ∃ k, fuel = k + 1 := ⟨fuel - 1, by simp at hfuel; omega⟩
      obtain ⟨-, hn, hrest⟩ := h
      have hx : x ≠ nil := fun heq => hnil (heq ▸ List.mem_cons_self)
      have hwalk : walk step nil fuel (xs.headD nil) = some xs :=
        ih hrest (fun y hy => hstep y (List.mem_cons_of_mem _ hy))
          (fun hmem => hnil (List.mem_cons_of_mem _ hmem)) (by simpa using hfuel)
      rw [walk, List.headD_cons, if_neg hx, hstep x List.mem_cons_self, Option.bind_some, hn,
        hwalk, Option.map_some]

end Walk

end LinkedChain
