import Datagine.LevelViews
import Datagine.Lib.ByteStreams
import Datagine.ReplayEngine

/-!
# The Bytes behind the Checksum

`checksum_snapshot` feeds a stream of bytes to `hash_byte`. This module writes the stream out
(`snapshotBytes`), shows that the checksum is its FNV-1a hash (`checksumSnapshot_eq`), and
separates the two ways in which different snapshots could share a checksum: by equal streams,
which the tags and length prefixes exclude, and by a collision of the hash.

## Main results

* `snapshotBytes_prefixFree`: the stream is a self-delimiting encoding of the snapshot, so no
  stream is a prefix of that of another snapshot.
* `checksumSnapshot_detects`: the hash step is injective in the state and in the byte, so a
  single changed byte changes the checksum, and so do different states before a common suffix.
-/

namespace Datagine

open ByteStreams

/-! ### The stream -/

/-- The bytes of `hash_u64`, the lowest first. -/
def u64Bytes (value : UInt64) : List UInt8 :=
  ([0, 8, 16, 24, 32, 40, 48, 56] : List UInt64).map
    fun shift => ((value >>> shift) &&& 0xff).toUInt8

/-- The bytes of `hash_i64`. -/
def i64Bytes (value : Int64) : List UInt8 := u64Bytes value.toUInt64

/-- The bytes of a size. -/
def sizeBytes (size : ℕ) : List UInt8 := u64Bytes (UInt64.ofNat size)

/-- The bytes of one order. -/
def orderBytes (order : OrderView) : List UInt8 :=
  u64Bytes order.orderId.value ++
    (i64Bytes order.timestamp.nanoseconds ++ u64Bytes order.quantity.units)

/-- The bytes of `hash_price_level`. -/
def priceLevelBytes (level : PriceLevelSnapshot) : List UInt8 :=
  i64Bytes level.price.ticks ++ (u64Bytes level.quantity.units ++
    (sizeBytes level.orders.length ++ level.orders.flatMap orderBytes))

/-- The bytes of one side, each level behind the tag of the side. -/
def sideBytes (tag : UInt8) (levels : List PriceLevelSnapshot) : List UInt8 :=
  sizeBytes levels.length ++ levels.flatMap fun level => tag :: priceLevelBytes level

/-- The bytes that `checksum_snapshot` feeds to `hash_byte`. -/
def snapshotBytes (snapshot : BookSnapshot) : List UInt8 :=
  'D'.toUInt8 :: 'G'.toUInt8 ::
    (sideBytes 'B'.toUInt8 snapshot.bids ++ sideBytes 'A'.toUInt8 snapshot.asks)

/-- The FNV-1a hash of a stream. -/
def hashBytes (bytes : List UInt8) : UInt64 := bytes.foldl hashByte fnvOffsetBasis

/-- The bytes of a word are hashed as the word is. -/
theorem foldl_u64Bytes (hash value : UInt64) :
    (u64Bytes value).foldl hashByte hash = hashU64 hash value := by
  rw [u64Bytes, List.foldl_map, hashU64]

/-- The bytes of an order are hashed as the order is. -/
theorem foldl_orderBytes (hash : UInt64) (order : OrderView) :
    (orderBytes order).foldl hashByte hash = hashOrder hash order := by
  simp only [orderBytes, i64Bytes, List.foldl_append, foldl_u64Bytes, hashOrder, hashI64]

/-- The bytes of a level are hashed as the level is. -/
theorem foldl_priceLevelBytes (hash : UInt64) (level : PriceLevelSnapshot) :
    (priceLevelBytes level).foldl hashByte hash = hashPriceLevel hash level := by
  simp only [priceLevelBytes, i64Bytes, sizeBytes, List.foldl_append, foldl_u64Bytes,
    List.foldl_flatMap, foldl_orderBytes, hashPriceLevel, hashI64]

/-- The bytes of a side are hashed as the side is. -/
theorem foldl_sideBytes (hash : UInt64) (tag : Char) (levels : List PriceLevelSnapshot) :
    (sideBytes tag.toUInt8 levels).foldl hashByte hash = hashSide tag levels hash := by
  simp only [sideBytes, sizeBytes, List.foldl_append, foldl_u64Bytes, List.foldl_flatMap,
    List.foldl_cons, foldl_priceLevelBytes, hashSide]

/-- **The checksum is the hash of the stream.** -/
theorem checksumSnapshot_eq (snapshot : BookSnapshot) :
    checksumSnapshot snapshot = hashBytes (snapshotBytes snapshot) := by
  simp only [hashBytes, snapshotBytes, List.foldl_cons, List.foldl_append, foldl_sideBytes,
    checksumSnapshot]

/-! ### The stream determines the snapshot -/

/-- A byte of a word is a digit of its number. -/
theorem toNat_byteAt (value : UInt64) {shift : UInt64} (hshift : shift.toNat < 64) :
    ((value >>> shift) &&& 0xff).toUInt8.toNat = value.toNat / 2 ^ shift.toNat % 256 := by
  have hmask : (0xff : UInt64).toNat = 2 ^ 8 - 1 := rfl
  rw [UInt64.toNat_toUInt8, UInt64.toNat_and, hmask, Nat.and_two_pow_sub_one_eq_mod,
    UInt64.toNat_shiftRight, Nat.mod_eq_of_lt hshift, Nat.shiftRight_eq_div_pow]
  omega

/-- The low digits in base 256 determine the remainder. -/
theorem mod_eq_of_digits {v w n : ℕ} (h : ∀ k < n, v / 256 ^ k % 256 = w / 256 ^ k % 256) :
    v % 256 ^ n = w % 256 ^ n := by
  induction n with
  | zero => simp [Nat.mod_one]
  | succ n ih =>
      have hlow := ih fun k hk => h k (Nat.lt_succ_of_lt hk)
      rw [Nat.mod_pow_succ, Nat.mod_pow_succ, hlow, h n (Nat.lt_succ_self n)]

/-- The eight bytes are the digits of the value in base 256. -/
theorem u64Bytes_inj {v w : UInt64} (h : u64Bytes v = u64Bytes w) : v = w := by
  have hdigit : ∀ k < 8, v.toNat / 256 ^ k % 256 = w.toNat / 256 ^ k % 256 := by
    intro k hk
    have hmem : UInt64.ofNat (8 * k) ∈ ([0, 8, 16, 24, 32, 40, 48, 56] : List UInt64) := by
      revert k
      decide
    have hshift : (UInt64.ofNat (8 * k)).toNat = 8 * k := by
      rw [UInt64.toNat_ofNat', Nat.mod_eq_of_lt (by omega)]
    have hlt : (UInt64.ofNat (8 * k)).toNat < 64 := by omega
    have hbyte := congrArg UInt8.toNat (List.map_inj_left.mp h _ hmem)
    rw [toNat_byteAt v hlt, toNat_byteAt w hlt, hshift, pow_mul] at hbyte
    exact hbyte
  have hmod := mod_eq_of_digits hdigit
  have hv : v.toNat < 256 ^ 8 := v.toNat_lt
  have hw : w.toNat < 256 ^ 8 := w.toNat_lt
  rw [Nat.mod_eq_of_lt hv, Nat.mod_eq_of_lt hw] at hmod
  exact UInt64.toNat_inj.mp hmod

/-- A word is written in eight bytes. -/
theorem selfDelimiting_u64Bytes : SelfDelimiting (fun _ => True) u64Bytes :=
  .of_length (n := 8) (fun _ => rfl) fun _ _ => u64Bytes_inj

/-- So is a signed word. -/
theorem selfDelimiting_i64Bytes : SelfDelimiting (fun _ => True) i64Bytes := by
  intro v w _ _ rest rest' heq
  obtain ⟨hword, hrest⟩ := selfDelimiting_u64Bytes _ _ trivial trivial _ _ heq
  refine ⟨?_, hrest⟩
  rw [← Int64.toInt64_toUInt64 v, hword, Int64.toInt64_toUInt64]

/-- Sizes below `2 ^ 64` are not confused. -/
theorem selfDelimiting_sizeBytes : SelfDelimiting (fun n => n < 2 ^ 64) sizeBytes := by
  intro m n hm hn rest rest' heq
  obtain ⟨hword, hrest⟩ := selfDelimiting_u64Bytes _ _ trivial trivial _ _ heq
  refine ⟨?_, hrest⟩
  have hnat := congrArg UInt64.toNat hword
  rwa [UInt64.toNat_ofNat', UInt64.toNat_ofNat', Nat.mod_eq_of_lt hm, Nat.mod_eq_of_lt hn] at hnat

/-- An order is written in a fixed number of bytes. -/
theorem selfDelimiting_orderBytes : SelfDelimiting (fun _ => True) orderBytes := by
  rintro ⟨⟨id⟩, ⟨t⟩, ⟨q⟩⟩ ⟨⟨id'⟩, ⟨t'⟩, ⟨q'⟩⟩ _ _ rest rest' heq
  simp only [orderBytes, List.append_assoc] at heq
  obtain ⟨rfl, htimestamp⟩ := selfDelimiting_u64Bytes _ _ trivial trivial _ _ heq
  obtain ⟨rfl, hquantity⟩ := selfDelimiting_i64Bytes _ _ trivial trivial _ _ htimestamp
  obtain ⟨rfl, hrest⟩ := selfDelimiting_u64Bytes _ _ trivial trivial _ _ hquantity
  exact ⟨rfl, hrest⟩

/-- The numbers of orders of the levels fit into the size type. -/
def PriceLevelSnapshot.SizesFit (level : PriceLevelSnapshot) : Prop :=
  level.orders.length < 2 ^ 64

/-- The numbers of levels and of orders fit into the size type. -/
def BookSnapshot.SizesFit (snapshot : BookSnapshot) : Prop :=
  ∀ s, (snapshot.side s).length < 2 ^ 64 ∧ ∀ level ∈ snapshot.side s, level.SizesFit

/-- A level says how many orders it has before it lists them. -/
theorem selfDelimiting_priceLevelBytes :
    SelfDelimiting PriceLevelSnapshot.SizesFit priceLevelBytes := by
  rintro ⟨⟨p⟩, ⟨q⟩, orders⟩ ⟨⟨p'⟩, ⟨q'⟩, orders'⟩ hfit hfit' rest rest' heq
  simp only [priceLevelBytes, List.append_assoc] at heq
  obtain ⟨rfl, hquantity⟩ := selfDelimiting_i64Bytes _ _ trivial trivial _ _ heq
  obtain ⟨rfl, horders⟩ := selfDelimiting_u64Bytes _ _ trivial trivial _ _ hquantity
  rw [← List.append_assoc (sizeBytes _), ← List.append_assoc (sizeBytes _)] at horders
  obtain ⟨rfl, hrest⟩ := (selfDelimiting_sizeBytes.list selfDelimiting_orderBytes) _ _
    ⟨hfit, fun _ _ => trivial⟩ ⟨hfit', fun _ _ => trivial⟩ _ _ horders
  exact ⟨rfl, hrest⟩

/-- A side says how many levels it has before it lists them. -/
theorem selfDelimiting_sideBytes (tag : UInt8) :
    SelfDelimiting (fun levels : List PriceLevelSnapshot =>
      levels.length < 2 ^ 64 ∧ ∀ level ∈ levels, level.SizesFit) (sideBytes tag) :=
  selfDelimiting_sizeBytes.list (selfDelimiting_priceLevelBytes.cons tag)

/-- The bytes of a snapshot say where they end. -/
theorem selfDelimiting_snapshotBytes : SelfDelimiting BookSnapshot.SizesFit snapshotBytes := by
  rintro ⟨bids, asks⟩ ⟨bids', asks'⟩ hfit hfit' rest rest' heq
  simp only [snapshotBytes, List.cons_append, List.append_assoc, List.cons.injEq, true_and] at heq
  obtain ⟨rfl, hasks⟩ := selfDelimiting_sideBytes _ _ _ (hfit .buy) (hfit' .buy) _ _ heq
  obtain ⟨rfl, hrest⟩ := selfDelimiting_sideBytes _ _ _ (hfit .sell) (hfit' .sell) _ _ hasks
  exact ⟨rfl, hrest⟩

/-- **The stream is an injective, prefix-free encoding.** The checksum is the hash of the
stream, and for snapshots whose numbers of levels and orders are below `2 ^ 64`, a stream that
is a prefix of another one is the stream of the same snapshot. So different snapshots with one
checksum are a collision of the hash on different streams. -/
theorem snapshotBytes_prefixFree (S S' : BookSnapshot) (hS : S.SizesFit) (hS' : S'.SizesFit) :
    (checksumSnapshot S = hashBytes (snapshotBytes S) ∧
        checksumSnapshot S' = hashBytes (snapshotBytes S')) ∧
      (snapshotBytes S <+: snapshotBytes S' ∨ snapshotBytes S' <+: snapshotBytes S → S = S') ∧
      (S ≠ S' → checksumSnapshot S = checksumSnapshot S' →
        snapshotBytes S ≠ snapshotBytes S' ∧
          hashBytes (snapshotBytes S) = hashBytes (snapshotBytes S')) := by
  refine ⟨⟨checksumSnapshot_eq S, checksumSnapshot_eq S'⟩, ?_, fun hne hsum => ⟨?_, ?_⟩⟩
  · rintro (hpre | hpre)
    · exact selfDelimiting_snapshotBytes.prefixFree hS hS' hpre
    · exact (selfDelimiting_snapshotBytes.prefixFree hS' hS hpre).symm
  · intro heq
    exact hne (selfDelimiting_snapshotBytes.prefixFree hS hS' (heq ▸ List.prefix_rfl))
  · rw [← checksumSnapshot_eq, ← checksumSnapshot_eq, hsum]

/-- The stream of the empty book does not start the stream of a book with one bid. -/
theorem snapshotBytes_prefixFree_empty :
    let bid : PriceLevelSnapshot := ⟨⟨100⟩, ⟨5⟩, [⟨⟨1⟩, ⟨0⟩, ⟨5⟩⟩]⟩
    BookSnapshot.SizesFit ⟨[], []⟩ ∧ BookSnapshot.SizesFit ⟨[bid], []⟩ ∧
      ¬snapshotBytes ⟨[], []⟩ <+: snapshotBytes ⟨[bid], []⟩ := by
  intro bid
  have hnone : BookSnapshot.SizesFit ⟨[], []⟩ := by
    intro s
    cases s <;> exact ⟨by decide, fun _ hmem => absurd hmem List.not_mem_nil⟩
  have hone : BookSnapshot.SizesFit ⟨[bid], []⟩ := by
    intro s
    cases s with
    | buy =>
        refine ⟨by decide, fun level hlevel => ?_⟩
        rw [List.mem_singleton.mp hlevel, PriceLevelSnapshot.SizesFit]
        decide
    | sell => exact ⟨by decide, fun _ hmem => absurd hmem List.not_mem_nil⟩
  refine ⟨hnone, hone, fun hpre => ?_⟩
  have heq := (snapshotBytes_prefixFree _ _ hnone hone).2.1 (.inl hpre)
  exact absurd heq (by decide)

/-! ### The hash step -/

/-- The multiplication by the prime can be undone modulo `2 ^ 64`. -/
theorem mul_fnvPrime_inj {x y : UInt64} (h : x * fnvPrime = y * fnvPrime) : x = y := by
  have hinverse : fnvPrime * 14886173955864302971 = 1 := by decide
  have hmul := congrArg (· * (14886173955864302971 : UInt64)) h
  simpa only [UInt64.mul_assoc, hinverse, UInt64.mul_one] using hmul

/-- Hashing a byte loses nothing of the state. -/
theorem hashByte_state_inj (byte : UInt8) (hash hash' : UInt64)
    (h : hashByte hash byte = hashByte hash' byte) : hash = hash' :=
  (UInt64.xor_left_inj _).mp (mul_fnvPrime_inj h)

/-- Different bytes lead to different states. -/
theorem hashByte_byte_inj (hash : UInt64) (byte byte' : UInt8)
    (h : hashByte hash byte = hashByte hash byte') : byte = byte' :=
  UInt8.toUInt64_inj.mp ((UInt64.xor_right_inj _).mp (mul_fnvPrime_inj h))

/-- **Every single-byte change is detected.** When the streams of two snapshots have the same
length and differ at exactly one position, the checksums differ; and when they share a suffix
and the hash states before it differ, the checksums differ. -/
theorem checksumSnapshot_detects (S S' : BookSnapshot) :
    (∀ i : ℕ, (snapshotBytes S).length = (snapshotBytes S').length →
        (∀ j : ℕ, j ≠ i → (snapshotBytes S)[j]? = (snapshotBytes S')[j]?) →
        (snapshotBytes S)[i]? ≠ (snapshotBytes S')[i]? →
        checksumSnapshot S ≠ checksumSnapshot S') ∧
      ∀ before before' suffix : List UInt8, snapshotBytes S = before ++ suffix →
        snapshotBytes S' = before' ++ suffix → hashBytes before ≠ hashBytes before' →
        checksumSnapshot S ≠ checksumSnapshot S' := by
  rw [checksumSnapshot_eq, checksumSnapshot_eq]
  refine ⟨fun i hlength hsame hdiff => ?_, fun before before' suffix hS hS' hne => ?_⟩
  · exact foldl_ne_of_single hashByte_state_inj hashByte_byte_inj hlength hsame hdiff _
  · rw [hS, hS', hashBytes, hashBytes, List.foldl_append, List.foldl_append]
    exact foldl_ne hashByte_state_inj hne suffix

/-- Two snapshots that differ in the quantity of an order, and so in one byte. -/
theorem checksumSnapshot_detects_quantity :
    let withQuantity (q : UInt64) : BookSnapshot := ⟨[⟨⟨100⟩, ⟨5⟩, [⟨⟨1⟩, ⟨0⟩, ⟨q⟩⟩]⟩], []⟩
    checksumSnapshot (withQuantity 5) ≠ checksumSnapshot (withQuantity 7) := by
  intro withQuantity
  have hset : snapshotBytes (withQuantity 7) = (snapshotBytes (withQuantity 5)).set 51 7 := by
    decide +kernel
  refine (checksumSnapshot_detects _ _).1 51 ?_ (fun j hj => ?_) (by decide +kernel)
  · rw [hset, List.length_set]
  · rw [hset, List.getElem?_set_ne hj.symm]

end Datagine
