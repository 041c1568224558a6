import Mathlib.Algebra.BigOperators.Group.List.Basic
import Mathlib.Algebra.GroupWithZero.Nat
import Mathlib.Data.List.Nodup

/-!
# Lists Addressed by a Key

A queue whose elements are found, edited and dropped through a key: `findKey`, `updateKey`
and `eraseKey` for a projection `key : α → κ`. Nothing is assumed of the key in the
definitions; the lemmas about a single element ask that the keys be listed once.

The workhorse is `exists_split`: around an element of a list without repeated keys, all
three operations act at one known position. Lengths, sums and neighbours of an edited
list are then read off the split.
-/

namespace KeyedList

variable {α β κ κ' : Type*} [DecidableEq κ] [DecidableEq κ'] {key : α → κ} {key' : α → κ'}

/-- The first element with key `k`. -/
def findKey (key : α → κ) (k : κ) (l : List α) : Option α :=
  l.find? fun a => key a = k

/-- Drop the elements with key `k`. -/
def eraseKey (key : α → κ) (k : κ) (l : List α) : List α :=
  l.filter fun a => key a ≠ k

/-- Apply `f` to the elements with key `k`, in place. -/
def updateKey (key : α → κ) (k : κ) (f : α → α) (l : List α) : List α :=
  l.map fun a => if key a = k then f a else a

/-! ### Finding -/

/-- What is found is in the list, under its key. -/
theorem mem_of_findKey {k : κ} {l : List α} {a : α} (h : findKey key k l = some a) :
    a ∈ l ∧ key a = k :=
  ⟨List.mem_of_find?_eq_some h, by simpa using List.find?_some h⟩

/-- Nothing is found exactly under a key that is not in the list. -/
theorem findKey_eq_none_iff {k : κ} {l : List α} :
    findKey key k l = none ↔ k ∉ l.map key := by
  simp [findKey]

/-- In a list without repeated keys, every element is found under its key. -/
theorem findKey_eq_some_iff {l : List α} (hnd : (l.map key).Nodup) {k : κ} {a : α} :
    findKey key k l = some a ↔ a ∈ l ∧ key a = k := by
  refine ⟨mem_of_findKey, ?_⟩
  rintro ⟨hmem, rfl⟩
  cases hfind : findKey key (key a) l with
  | none => exact absurd (List.mem_map_of_mem hmem) (findKey_eq_none_iff.mp hfind)
  | some b =>
      obtain ⟨hb, hkey⟩ := mem_of_findKey hfind
      rw [List.inj_on_of_nodup_map hnd hb hmem hkey]

/-- A lookup behind an appended element with a new key. -/
theorem findKey_append_singleton {k : κ} {l : List α} {a : α} (ha : key a ∉ l.map key) :
    findKey key k (l ++ [a]) = if k = key a then some a else findKey key k l := by
  rw [findKey, List.find?_append]
  by_cases hk : k = key a
  · subst hk
    have hnone : l.find? (fun b => key b = key a) = none := findKey_eq_none_iff.mpr ha
    simp [hnone]
  · simp [findKey, hk, Ne.symm hk]

/-- A lookup behind an erasure. -/
theorem findKey_eraseKey {k k' : κ} {l : List α} :
    findKey key k' (eraseKey key k l) = if k' = k then none else findKey key k' l := by
  split_ifs with hk
  · rw [findKey_eq_none_iff]
    simp [eraseKey, hk]
  · rw [findKey, eraseKey, List.find?_filter, findKey]
    congr 1
    funext a
    by_cases ha : key a = k'
    · simp [ha, hk]
    · simp [ha]

/-- Editing one element without changing keys edits what is found under its key. -/
theorem findKey_updateKey {k k' : κ} {f : α → α} {l : List α} (hf : ∀ a, key (f a) = key a) :
    findKey key k' (updateKey key k f l) =
      if k' = k then (findKey key k l).map f else findKey key k' l := by
  induction l with
  | nil => simp [findKey, updateKey]
  | cons a l ih =>
      simp only [findKey, updateKey, List.map_cons, List.find?_cons] at ih ⊢
      by_cases ha : key a = k
      · by_cases hk : k' = k
        · simp [ha, hk, hf]
        · simp [ha, hk, hf, Ne.symm hk, ih]
      · by_cases hk : k' = k
        · subst hk
          simp [ha, ih]
        · by_cases hak : key a = k' <;> simp [ha, hk, hak, ih]

/-! ### The keys and the members of an edited list -/

/-- An update keeps what the updated function does not change. -/
theorem map_key_updateKey {k : κ} {f : α → α} {l : List α} {g : α → β}
    (hf : ∀ a, g (f a) = g a) : (updateKey key k f l).map g = l.map g := by
  rw [updateKey, List.map_map]
  refine List.map_congr_left fun a _ => ?_
  by_cases ha : key a = k <;> simp [ha, hf]

omit [DecidableEq κ] in
/-- Appending an element with a new key keeps the keys distinct. -/
theorem nodup_map_append_singleton {l : List α} {a : α} (hnd : (l.map key).Nodup)
    (ha : key a ∉ l.map key) : ((l ++ [a]).map key).Nodup := by
  rw [List.map_append, List.nodup_append]
  refine ⟨hnd, List.nodup_singleton _, ?_⟩
  rintro k hk k' hk' rfl
  rw [List.map_singleton, List.mem_singleton] at hk'
  exact ha (hk' ▸ hk)

/-- A list without repeated keys lists no key twice. -/
theorem countP_key_le_one {l : List α} (hnd : (l.map key).Nodup) (k : κ) :
    l.countP (fun a => key a = k) ≤ 1 := by
  have hcount := List.nodup_iff_count_le_one.mp hnd k
  rwa [List.count, List.countP_map] at hcount

/-- An erasure keeps keys distinct. -/
theorem nodup_map_eraseKey {k : κ} {g : α → β} {l : List α} (h : (l.map g).Nodup) :
    ((eraseKey key k l).map g).Nodup :=
  h.sublist (List.filter_sublist.map g)

/-- The elements that an erasure leaves. -/
theorem mem_eraseKey {k : κ} {l : List α} {a : α} :
    a ∈ eraseKey key k l ↔ a ∈ l ∧ key a ≠ k := by
  simp [eraseKey]

/-- The elements behind an update: those of other keys, and the updated ones. -/
theorem mem_updateKey {k : κ} {f : α → α} {l : List α} {b : α} :
    b ∈ updateKey key k f l ↔ (b ∈ l ∧ key b ≠ k) ∨ ∃ a ∈ l, key a = k ∧ f a = b := by
  rw [updateKey, List.mem_map]
  constructor
  · rintro ⟨a, ha, hb⟩
    split_ifs at hb with hk
    · exact Or.inr ⟨a, ha, hk, hb⟩
    · exact Or.inl ⟨hb ▸ ha, hb ▸ hk⟩
  · rintro (⟨hb, hk⟩ | ⟨a, ha, hk, rfl⟩)
    · exact ⟨b, hb, if_neg hk⟩
    · exact ⟨a, ha, if_pos hk⟩

/-! ### Edits and restrictions commute -/

/-- Filters commute with erasures. -/
theorem filter_eraseKey {k : κ} {l : List α} (q : α → Bool) :
    (eraseKey key k l).filter q = eraseKey key k (l.filter q) := by
  simp only [eraseKey, List.filter_filter]
  exact List.filter_congr fun a _ => Bool.and_comm _ _

/-- A filter that does not see an update commutes with it. -/
theorem filter_updateKey {k : κ} {f : α → α} {l : List α} (q : α → Bool)
    (hf : ∀ a, q (f a) = q a) :
    (updateKey key k f l).filter q = updateKey key k f (l.filter q) := by
  rw [updateKey, List.filter_map, updateKey]
  congr 1
  refine List.filter_congr fun a _ => ?_
  by_cases ha : key a = k <;> simp [ha, hf]

/-- Erasing a key that is not in the list changes nothing. -/
theorem eraseKey_of_not_mem {k : κ} {l : List α} (h : k ∉ l.map key) : eraseKey key k l = l := by
  refine List.filter_eq_self.mpr fun a ha => ?_
  have hne : key a ≠ k := fun heq => h (heq ▸ List.mem_map_of_mem ha)
  simpa using hne

/-- Neither does an update of one. -/
theorem updateKey_of_not_mem {k : κ} {f : α → α} {l : List α} (h : k ∉ l.map key) :
    updateKey key k f l = l := by
  conv_rhs => rw [← List.map_id l]
  refine List.map_congr_left fun a ha => ?_
  have hne : key a ≠ k := fun heq => h (heq ▸ List.mem_map_of_mem ha)
  simp [hne]

/-- Erasing through a projection erases in the projected list. -/
theorem map_eraseKey {k : κ} {l : List α} {g : α → β} {key₂ : β → κ}
    (hg : ∀ a, key₂ (g a) = key a) :
    (eraseKey key k l).map g = eraseKey key₂ k (l.map g) := by
  rw [eraseKey, eraseKey, List.filter_map]
  congr 1
  refine List.filter_congr fun a _ => ?_
  simp [hg]

/-- Updating through a projection updates the projected list. -/
theorem map_updateKey {k : κ} {l : List α} {f : α → α} {g : α → β} {key₂ : β → κ}
    {f₂ : β → β} (hg : ∀ a, key₂ (g a) = key a) (hf : ∀ a, g (f a) = f₂ (g a)) :
    (updateKey key k f l).map g = updateKey key₂ k f₂ (l.map g) := by
  rw [updateKey, updateKey, List.map_map, List.map_map]
  refine List.map_congr_left fun a _ => ?_
  by_cases ha : key a = k <;> simp [hg, hf, ha]

/-- A lookup in a mapped list, when the map keeps the keys. -/
theorem findKey_map {k : κ} {l : List α} {g : α → β} {key₂ : β → κ}
    (hg : ∀ a, key₂ (g a) = key a) :
    findKey key₂ k (l.map g) = (findKey key k l).map g := by
  rw [findKey, List.find?_map, findKey]
  congr 2
  funext a
  simp [hg]

/-! ### Renamed keys -/

section Rename

variable {κ₂ : Type*} [DecidableEq κ₂] {k : κ} {k₂ : κ₂} {l : List α} {g : α → β} {key₂ : β → κ₂}

/-- A projection under which one key is renamed apart from the others. -/
theorem findKey_rename (hg : ∀ a ∈ l, key₂ (g a) = k₂ ↔ key a = k) :
    findKey key₂ k₂ (l.map g) = (findKey key k l).map g := by
  rw [findKey, List.find?_map, findKey]
  congr 1
  induction l with
  | nil => rfl
  | cons a l ih =>
      rw [List.forall_mem_cons] at hg
      rw [List.find?_cons, List.find?_cons, ih hg.2, Function.comp_apply, decide_eq_decide.mpr hg.1]

/-- An erasure in a list whose elements are mapped and whose keys are renamed. -/
theorem eraseKey_rename (hg : ∀ a ∈ l, key₂ (g a) = k₂ ↔ key a = k) :
    eraseKey key₂ k₂ (l.map g) = (eraseKey key k l).map g := by
  rw [eraseKey, eraseKey, List.filter_map]
  congr 1
  refine List.filter_congr fun a ha => ?_
  simp [hg a ha]

/-- An update in such a list. -/
theorem updateKey_rename {f : α → α} {f₂ : β → β} (hg : ∀ a ∈ l, key₂ (g a) = k₂ ↔ key a = k)
    (hf : ∀ a, g (f a) = f₂ (g a)) :
    updateKey key₂ k₂ f₂ (l.map g) = (updateKey key k f l).map g := by
  rw [updateKey, updateKey, List.map_map, List.map_map]
  refine List.map_congr_left fun a ha => ?_
  by_cases hk : key a = k <;> simp [hg a ha, hf, hk]

end Rename

/-! ### Two keys for one list -/

omit [DecidableEq κ] [DecidableEq κ'] in
/-- Two projections that tell the elements of a list apart address the same element. -/
theorem key_eq_iff_key_eq {l : List α} (hnd : (l.map key).Nodup) (hnd' : (l.map key').Nodup)
    {a b : α} (ha : a ∈ l) (hb : b ∈ l) : key b = key a ↔ key' b = key' a :=
  ⟨fun h => by rw [List.inj_on_of_nodup_map hnd hb ha h],
    fun h => by rw [List.inj_on_of_nodup_map hnd' hb ha h]⟩

/-- An element may be erased under either of two keys. -/
theorem eraseKey_eq_eraseKey {l : List α} (hnd : (l.map key).Nodup)
    (hnd' : (l.map key').Nodup) {a : α} (ha : a ∈ l) :
    eraseKey key (key a) l = eraseKey key' (key' a) l := by
  refine List.filter_congr fun b hb => ?_
  simp [key_eq_iff_key_eq hnd hnd' ha hb]

/-- An element may be updated under either of two keys. -/
theorem updateKey_eq_updateKey {l : List α} (hnd : (l.map key).Nodup)
    (hnd' : (l.map key').Nodup) {a : α} (ha : a ∈ l) (f : α → α) :
    updateKey key (key a) f l = updateKey key' (key' a) f l := by
  refine List.map_congr_left fun b hb => ?_
  simp [key_eq_iff_key_eq hnd hnd' ha hb]

/-! ### Around one element -/

/-- **Around an element of a list without repeated keys**, erasing drops it and updating
edits it, and everything before and after stays as it was. -/
theorem exists_split {l : List α} (hnd : (l.map key).Nodup) {a : α} (ha : a ∈ l) :
    ∃ pre post, l = pre ++ a :: post ∧ eraseKey key (key a) l = pre ++ post ∧
      ∀ f : α → α, updateKey key (key a) f l = pre ++ f a :: post := by
  obtain ⟨pre, post, rfl⟩ := List.append_of_mem ha
  rw [List.map_append, List.map_cons, List.nodup_append] at hnd
  obtain ⟨-, hpost, hdisj⟩ := hnd
  obtain ⟨hnot, -⟩ := List.nodup_cons.mp hpost
  have hpre : key a ∉ pre.map key := fun hmem =>
    hdisj _ hmem _ List.mem_cons_self rfl
  refine ⟨pre, post, rfl, ?_, fun f => ?_⟩
  · have h₁ := eraseKey_of_not_mem hpre
    have h₂ := eraseKey_of_not_mem hnot
    simp only [eraseKey] at h₁ h₂ ⊢
    rw [List.filter_append, List.filter_cons_of_neg (by simp), h₁, h₂]
  · have h₁ := updateKey_of_not_mem (f := f) hpre
    have h₂ := updateKey_of_not_mem (f := f) hnot
    simp only [updateKey] at h₁ h₂ ⊢
    rw [List.map_append, List.map_cons, if_pos rfl, h₁, h₂]

/-- An erasure takes the weight of its element out of a sum. -/
theorem sum_eraseKey {l : List α} (hnd : (l.map key).Nodup) {a : α} (ha : a ∈ l)
    (w : α → ℕ) : ((eraseKey key (key a) l).map w).sum + w a = (l.map w).sum := by
  obtain ⟨pre, post, hl, herase, -⟩ := exists_split hnd ha
  rw [herase, hl]
  simp only [List.map_append, List.map_cons, List.sum_append, List.sum_cons]
  omega

/-- An update exchanges the weight of its element in a sum. -/
theorem sum_updateKey {l : List α} (hnd : (l.map key).Nodup) {a : α} (ha : a ∈ l)
    (w : α → ℕ) (f : α → α) :
    ((updateKey key (key a) f l).map w).sum + w a = (l.map w).sum + w (f a) := by
  obtain ⟨pre, post, hl, -, hupdate⟩ := exists_split hnd ha
  rw [hupdate, hl]
  simp only [List.map_append, List.map_cons, List.sum_append, List.sum_cons]
  omega

/-! ### Groups -/

/-- Among groups that are listed once, the elements placed in one group are its members. -/
theorem filter_flatMap_of_mem {γ : Type*} {place : α → κ} {members : κ × γ → List α}
    {l : List (κ × γ)} (hnd : (l.map Prod.fst).Nodup)
    (hplace : ∀ e ∈ l, ∀ a ∈ members e, place a = e.1) {e : κ × γ} (he : e ∈ l) :
    (l.flatMap members).filter (fun a => place a = e.1) = members e := by
  induction l with
  | nil => exact absurd he List.not_mem_nil
  | cons x l ih =>
      rw [List.map_cons, List.nodup_cons] at hnd
      rw [List.flatMap_cons, List.filter_append]
      rcases List.mem_cons.mp he with rfl | hmem
      · have hself : (members e).filter (fun a => place a = e.1) = members e :=
          List.filter_eq_self.mpr fun a ha => decide_eq_true (hplace e he a ha)
        have hothers : (l.flatMap members).filter (fun a => place a = e.1) = [] := by
          refine List.filter_eq_nil_iff.mpr fun a ha hat => hnd.1 ?_
          obtain ⟨y, hy, ha⟩ := List.mem_flatMap.mp ha
          have hkey := hplace y (List.mem_cons_of_mem _ hy) a ha
          rw [← of_decide_eq_true hat, hkey]
          exact List.mem_map_of_mem hy
        rw [hself, hothers, List.append_nil]
      · have hfirst : (members x).filter (fun a => place a = e.1) = [] := by
          refine List.filter_eq_nil_iff.mpr fun a ha hat => hnd.1 ?_
          rw [← hplace x List.mem_cons_self a ha, of_decide_eq_true hat]
          exact List.mem_map_of_mem hmem
        rw [hfirst, List.nil_append]
        exact ih hnd.2 (fun y hy => hplace y (List.mem_cons_of_mem _ hy)) hmem

/-- No element is placed in a group that is not listed. -/
theorem filter_flatMap_of_not_mem {γ : Type*} {place : α → κ} {members : κ × γ → List α}
    {l : List (κ × γ)} (hplace : ∀ e ∈ l, ∀ a ∈ members e, place a = e.1) {k : κ}
    (hk : k ∉ l.map Prod.fst) : (l.flatMap members).filter (fun a => place a = k) = [] := by
  refine List.filter_eq_nil_iff.mpr fun a ha hat => hk ?_
  obtain ⟨e, he, ha⟩ := List.mem_flatMap.mp ha
  rw [← of_decide_eq_true hat, hplace e he a ha]
  exact List.mem_map_of_mem he

omit [DecidableEq κ] in
/-- Keys are listed once when they are in each group, and no key is in two groups. -/
theorem nodup_map_flatMap {γ : Type*} {place : α → κ} {members : κ × γ → List α}
    {l : List (κ × γ)} (hnd : (l.map Prod.fst).Nodup)
    (hplace : ∀ e ∈ l, ∀ a ∈ members e, place a = e.1) {g : α → β}
    (hgroup : ∀ e ∈ l, ((members e).map g).Nodup)
    (hapart : ∀ a ∈ l.flatMap members, ∀ b ∈ l.flatMap members, g a = g b → place a = place b) :
    ((l.flatMap members).map g).Nodup := by
  induction l with
  | nil => exact List.nodup_nil
  | cons x l ih =>
      rw [List.map_cons, List.nodup_cons] at hnd
      rw [List.flatMap_cons] at hapart ⊢
      rw [List.map_append, List.nodup_append]
      refine ⟨hgroup x List.mem_cons_self,
        ih hnd.2 (fun e he => hplace e (List.mem_cons_of_mem _ he))
          (fun e he => hgroup e (List.mem_cons_of_mem _ he))
          fun a ha b hb => hapart a (List.mem_append_right _ ha) b (List.mem_append_right _ hb),
        fun k hk k' hk' heq => hnd.1 ?_⟩
      obtain ⟨a, ha, rfl⟩ := List.mem_map.mp hk
      obtain ⟨b, hb, rfl⟩ := List.mem_map.mp hk'
      obtain ⟨e, he, hb'⟩ := List.mem_flatMap.mp hb
      have hsame := hapart a (List.mem_append_left _ ha) b (List.mem_append_right _ hb) heq
      rw [← hplace x List.mem_cons_self a ha, hsame,
        hplace e (List.mem_cons_of_mem _ he) b hb']
      exact List.mem_map_of_mem he

end KeyedList
