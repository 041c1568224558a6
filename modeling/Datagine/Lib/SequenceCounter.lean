import Mathlib.Data.Nat.ModEq

/-!
# Wrapping Sequence Counters

A ring buffer addresses its slots by 64-bit counters that only ever grow and wrap around,
masked down to a power-of-two capacity. This module relates such counters to the unbounded
positions they stand for: `seqAt start n` is the counter `n` steps after `start`.

## Main results

* `toNat_seqAt_sub`: the wrapping difference of two counters is the true distance, as long
  as that distance fits into a word.
* `slot_seqAt`: masking a counter is taking its unbounded position modulo the capacity, at
  every wrap-around.
* `slot_ne`: positions less than a capacity apart have different slots.
-/

namespace SequenceCounter

/-- The counter `n` steps after `start`. -/
def seqAt (start : UInt64) (n : ℕ) : UInt64 := start + UInt64.ofNat n

/-- The counter starts at its start. -/
theorem seqAt_zero (start : UInt64) : seqAt start 0 = start := by
  simp [seqAt]

/-- The next value of the counter. -/
theorem seqAt_succ (start : UInt64) (n : ℕ) : seqAt start n + 1 = seqAt start (n + 1) := by
  rw [seqAt, seqAt, UInt64.ofNat_add, UInt64.add_assoc]
  rfl

/-- The counter wraps at `2 ^ 64`. -/
theorem toNat_seqAt (start : UInt64) (n : ℕ) :
    (seqAt start n).toNat = (start.toNat + n) % 2 ^ 64 := by
  rw [seqAt, UInt64.toNat_add, UInt64.toNat_ofNat', Nat.add_mod_mod]

/-- **Distances survive wrap-around.** -/
theorem toNat_seqAt_sub {start : UInt64} {m n : ℕ} (hle : m ≤ n) (hlt : n - m < 2 ^ 64) :
    (seqAt start n - seqAt start m).toNat = n - m := by
  have hsplit : seqAt start n = seqAt start m + UInt64.ofNat (n - m) := by
    rw [seqAt, seqAt, UInt64.add_assoc, ← UInt64.ofNat_add, Nat.add_sub_cancel' hle]
  have hsub : seqAt start n - seqAt start m = UInt64.ofNat (n - m) := by
    rw [hsplit]
    grind
  rw [hsub, UInt64.toNat_ofNat', Nat.mod_eq_of_lt hlt]

/-- Values less than a full turn apart are equal only at the same count. -/
theorem seqAt_eq_iff {start : UInt64} {m n : ℕ} (hle : m ≤ n) (hlt : n - m < 2 ^ 64) :
    seqAt start n = seqAt start m ↔ n = m := by
  constructor
  · intro heq
    have hsub : (seqAt start n - seqAt start m).toNat = n - m := toNat_seqAt_sub hle hlt
    rw [heq, UInt64.sub_self] at hsub
    have hzero : (0 : UInt64).toNat = 0 := rfl
    omega
  · rintro rfl
    rfl

/-! ### Slots -/

/-- The capacities a ring buffer can have: nonzero words with a single bit set. -/
def IsCapacity (capacity : UInt64) : Prop := capacity ≠ 0 ∧ capacity &&& (capacity - 1) = 0

instance : DecidablePred IsCapacity := fun capacity =>
  inferInstanceAs (Decidable (capacity ≠ 0 ∧ capacity &&& (capacity - 1) = 0))

/-- A capacity is a power of two. -/
theorem IsCapacity.exists_pow {capacity : UInt64} (h : IsCapacity capacity) :
    ∃ k, k < 64 ∧ capacity.toNat = 2 ^ k := by
  obtain ⟨hne, hand⟩ := h
  have hnat : capacity.toNat ≠ 0 := fun heq => hne (UInt64.toNat_inj.mp heq)
  have hone : (1 : UInt64) ≤ capacity := by
    rw [UInt64.le_iff_toNat_le]
    have : (1 : UInt64).toNat = 1 := rfl
    omega
  have hbits := congrArg UInt64.toNat hand
  rw [UInt64.toNat_and, UInt64.toNat_sub_of_le _ _ hone] at hbits
  obtain ⟨k, hk⟩ := (Nat.and_sub_one_eq_zero_iff_isPowerOfTwo hnat).mp hbits
  refine ⟨k, ?_, hk⟩
  have hlt := capacity.toNat_lt
  rw [hk] at hlt
  exact (Nat.pow_lt_pow_iff_right (by omega)).mp hlt

/-- A capacity is not zero. -/
theorem IsCapacity.pos {capacity : UInt64} (h : IsCapacity capacity) : 0 < capacity.toNat := by
  obtain ⟨k, -, hk⟩ := h.exists_pow
  rw [hk]
  exact Nat.two_pow_pos k

/-- **Masking is a remainder.** The slot of a counter is its unbounded position modulo the
capacity. -/
theorem slot_seqAt {capacity : UInt64} (h : IsCapacity capacity) (start : UInt64) (n : ℕ) :
    (seqAt start n &&& (capacity - 1)).toNat = (start.toNat + n) % capacity.toNat := by
  obtain ⟨k, hk, hpow⟩ := h.exists_pow
  have hone : (1 : UInt64) ≤ capacity := by
    rw [UInt64.le_iff_toNat_le]
    exact h.pos
  have hmask : (capacity - 1).toNat = 2 ^ k - 1 := by
    rw [UInt64.toNat_sub_of_le _ _ hone, hpow]
    rfl
  have hdvd : 2 ^ k ∣ 2 ^ 64 := Nat.pow_dvd_pow 2 hk.le
  rw [UInt64.toNat_and, hmask, Nat.and_two_pow_sub_one_eq_mod, toNat_seqAt, hpow,
    Nat.mod_mod_of_dvd _ hdvd]

/-- **Distinct slots.** Positions less than a capacity apart do not share a slot. -/
theorem slot_ne {capacity : UInt64} (h : IsCapacity capacity) (start : UInt64) {m n : ℕ}
    (hlt : m < n) (hdist : n < m + capacity.toNat) :
    (seqAt start m &&& (capacity - 1)).toNat ≠ (seqAt start n &&& (capacity - 1)).toNat := by
  rw [slot_seqAt h, slot_seqAt h]
  intro heq
  have hmod : m ≡ n [MOD capacity.toNat] := Nat.ModEq.add_left_cancel' _ heq
  have hdvd := (Nat.modEq_iff_dvd' hlt.le).mp hmod
  have := Nat.le_of_dvd (by omega) hdvd
  omega

end SequenceCounter
