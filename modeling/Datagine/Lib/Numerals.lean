import Mathlib.Data.Nat.Init
import Mathlib.Tactic.SplitIfs

/-!
# Numerals

`Nat.toDigits` writes a number in any base up to sixteen. `valueOf` reads such a numeral back
(`valueOf_toDigits`), and does not see zeros in front of it (`valueOf_leftpad`), so a reader
recovers the number also from a numeral that is padded to one width.
-/

namespace Numerals

/-- The value of a digit: the decimal digits, and then the small letters. -/
def digitValue (c : Char) : ℕ := if c.isDigit then c.toNat - 48 else c.toNat - 87

/-- The value of a numeral in base `b`, the highest digit first. -/
def valueOf (b : ℕ) (numeral : List Char) : ℕ :=
  numeral.foldl (fun value c => b * value + digitValue c) 0

variable {b : ℕ}

/-- A digit below sixteen is read back. -/
theorem digitValue_digitChar {d : ℕ} (h : d < 16) : digitValue (Nat.digitChar d) = d := by
  have hall : ∀ d < 16, digitValue (Nat.digitChar d) = d := by decide
  exact hall d h

/-- One more digit. -/
theorem valueOf_concat (b : ℕ) (numeral : List Char) (c : Char) :
    valueOf b (numeral ++ [c]) = b * valueOf b numeral + digitValue c := by
  rw [valueOf, List.foldl_append]
  rfl

/-- The digits of a numeral. -/
theorem exists_of_mem_toDigits (hb : 1 < b) {n : ℕ} {c : Char} (h : c ∈ Nat.toDigits b n) :
    ∃ d < b, c = d.digitChar := by
  induction n using Nat.strong_induction_on with
  | _ n ih =>
      rw [Nat.toDigits_eq_if hb] at h
      split_ifs at h with hn
      · exact ⟨n, hn, List.mem_singleton.mp h⟩
      · rcases List.mem_append.mp h with h | h
        · exact ih (n / b) (Nat.div_lt_self (by omega) hb) h
        · exact ⟨n % b, Nat.mod_lt n (by omega), List.mem_singleton.mp h⟩

/-- **Numerals are read as they were written.** -/
theorem valueOf_toDigits (hb : 1 < b) (hb' : b ≤ 16) (n : ℕ) :
    valueOf b (Nat.toDigits b n) = n := by
  induction n using Nat.strong_induction_on with
  | _ n ih =>
      rw [Nat.toDigits_eq_if hb]
      split_ifs with hn
      · rw [← List.nil_append [n.digitChar], valueOf_concat, digitValue_digitChar (by omega)]
        exact Nat.zero_add n
      · have hdigit : n % b < 16 := Nat.lt_of_lt_of_le (Nat.mod_lt n (by omega)) hb'
        have hsmaller : n / b < n := Nat.div_lt_self (by omega) hb
        rw [valueOf_concat, digitValue_digitChar hdigit, ih (n / b) hsmaller, Nat.div_add_mod]

/-- Leading zeros do not count. -/
theorem valueOf_leftpad (b width : ℕ) (numeral : List Char) :
    valueOf b (numeral.leftpad width '0') = valueOf b numeral := by
  have hzeros : ∀ k, valueOf b (List.replicate k '0') = 0 := by
    intro k
    induction k with
    | zero => rfl
    | succ k ih =>
        rw [List.replicate_succ', valueOf_concat, ih]
        rfl
  rw [List.leftpad, valueOf, List.foldl_append, ← valueOf, hzeros]
  rfl

end Numerals
