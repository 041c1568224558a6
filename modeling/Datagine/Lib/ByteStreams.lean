import Mathlib.Data.List.Basic

/-!
# Streams of Symbols: Codes and Hashes

A code is self-delimiting when a code word followed by anything can be read in one way only:
the value and the rest are determined (`SelfDelimiting`). Such codes are injective and
prefix-free. Words of one length are self-delimiting (`SelfDelimiting.of_length`), fields one
after another are read one after another, and so are a tag in front (`SelfDelimiting.cons`)
and lists behind their length (`SelfDelimiting.list`).

A hash folds a step over a stream. When the step is injective in the state and in the symbol,
states that differ stay different (`foldl_ne`), and changing one symbol changes the hash
(`foldl_ne_of_single`).
-/

namespace ByteStreams

variable {α κ σ : Type*}

/-! ### Self-delimiting codes -/

/-- On the values in `P`, a code word determines its value and where it ends. -/
def SelfDelimiting (P : α → Prop) (encode : α → List κ) : Prop :=
  ∀ a b, P a → P b → ∀ rest rest', encode a ++ rest = encode b ++ rest' → a = b ∧ rest = rest'

namespace SelfDelimiting

variable {P : α → Prop} {encode : α → List κ}

/-- No code word is a prefix of another one. -/
theorem prefixFree (h : SelfDelimiting P encode) {a b : α} (ha : P a) (hb : P b)
    (hpre : encode a <+: encode b) : a = b := by
  obtain ⟨rest, hrest⟩ := hpre
  exact (h a b ha hb rest [] (by rw [hrest, List.append_nil])).1

/-- Code words of one length need no delimiter. -/
theorem of_length {n : ℕ} (hlength : ∀ a, (encode a).length = n)
    (hinj : ∀ a b, encode a = encode b → a = b) : SelfDelimiting P encode := by
  intro a b _ _ rest rest' heq
  obtain ⟨hword, hrest⟩ := List.append_inj heq ((hlength a).trans (hlength b).symm)
  exact ⟨hinj a b hword, hrest⟩

/-- A tag in front. -/
theorem cons (h : SelfDelimiting P encode) (tag : κ) :
    SelfDelimiting P fun a => tag :: encode a := by
  intro a b ha hb rest rest' heq
  exact h a b ha hb rest rest' (List.cons.inj heq).2

/-- Code words one after another, when their number is known. -/
theorem flatMap (h : SelfDelimiting P encode) {l l' : List α} (hl : ∀ a ∈ l, P a)
    (hl' : ∀ a ∈ l', P a) (hlength : l.length = l'.length) {rest rest' : List κ}
    (heq : l.flatMap encode ++ rest = l'.flatMap encode ++ rest') : l = l' ∧ rest = rest' := by
  induction l generalizing l' with
  | nil =>
      obtain rfl := List.length_eq_zero_iff.mp hlength.symm
      exact ⟨rfl, heq⟩
  | cons a l ih =>
      cases l' with
      | nil => cases hlength
      | cons b l' =>
          rw [List.flatMap_cons, List.flatMap_cons, List.append_assoc, List.append_assoc] at heq
          obtain ⟨rfl, htail⟩ := h a b (hl a List.mem_cons_self) (hl' b List.mem_cons_self) _ _ heq
          obtain ⟨rfl, hrest⟩ := ih (fun c hc => hl c (List.mem_cons_of_mem _ hc))
            (fun c hc => hl' c (List.mem_cons_of_mem _ hc)) (Nat.succ.inj hlength) htail
          exact ⟨rfl, hrest⟩

/-- A list behind its length. -/
theorem list {N : ℕ → Prop} {length : ℕ → List κ} (hlength : SelfDelimiting N length)
    (h : SelfDelimiting P encode) :
    SelfDelimiting (fun l : List α => N l.length ∧ ∀ a ∈ l, P a)
      fun l => length l.length ++ l.flatMap encode := by
  rintro l l' ⟨hn, hl⟩ ⟨hn', hl'⟩ rest rest' heq
  rw [List.append_assoc, List.append_assoc] at heq
  obtain ⟨hlen, heq⟩ := hlength _ _ hn hn' _ _ heq
  exact h.flatMap hl hl' hlen heq

end SelfDelimiting

/-! ### Folded hashes -/

section Hash

variable {step : σ → κ → σ}

/-- Behind the same symbols, different states stay different. -/
theorem foldl_ne (hstate : ∀ k s s', step s k = step s' k → s = s') {s s' : σ} (hne : s ≠ s')
    (l : List κ) : l.foldl step s ≠ l.foldl step s' := by
  induction l generalizing s s' with
  | nil => exact hne
  | cons k l ih => exact ih fun heq => hne (hstate k s s' heq)

/-- **One changed symbol changes the hash.** -/
theorem foldl_ne_of_single (hstate : ∀ k s s', step s k = step s' k → s = s')
    (hsymbol : ∀ s k k', step s k = step s k' → k = k') {l l' : List κ} {i : ℕ}
    (hlength : l.length = l'.length) (hsame : ∀ j, j ≠ i → l[j]? = l'[j]?)
    (hdiff : l[i]? ≠ l'[i]?) (s : σ) : l.foldl step s ≠ l'.foldl step s := by
  induction l generalizing l' i s with
  | nil =>
      obtain rfl := List.length_eq_zero_iff.mp hlength.symm
      exact absurd rfl hdiff
  | cons k l ih =>
      cases l' with
      | nil => cases hlength
      | cons k' l' =>
          cases i with
          | zero =>
              -- the rest is the same behind the changed symbol
              have hrest : l = l' := by
                refine List.ext_getElem? fun j => ?_
                exact hsame (j + 1) (Nat.succ_ne_zero j)
              subst hrest
              refine foldl_ne hstate (fun heq => hdiff ?_) l
              exact congrArg some (hsymbol s k k' heq)
          | succ i =>
              have hhead : k = k' := Option.some.inj (hsame 0 (Nat.succ_ne_zero i).symm)
              subst hhead
              refine ih (Nat.succ.inj hlength) (fun j hj => ?_) hdiff _
              exact hsame (j + 1) fun heq => hj (Nat.succ.inj heq)

end Hash

end ByteStreams
