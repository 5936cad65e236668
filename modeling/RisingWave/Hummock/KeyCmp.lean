import RisingWave.Hummock.Key

/-!
# Comparing encoded keys

`hummock_sdk/src/key_cmp.rs`. SST blocks and metadata store full keys encoded;
`KeyComparator::compare_encoded_full_key` orders them without decoding, by
cutting off the last eight bytes (the big-endian epoch), comparing the user key
parts bytewise, and the epoch parts in reverse.
-/

namespace RisingWave.Hummock

open ByteCodec

/-- `split_key_epoch`: the user key part and the last `EPOCH_LEN` bytes; it
panics (`none`) on a slice shorter than `EPOCH_LEN`. -/
def splitKeyEpoch (fullKey : List UInt8) : Option (List UInt8 × List UInt8) :=
  if fullKey.length < EPOCH_LEN then none
  else some (fullKey.take (fullKey.length - EPOCH_LEN), fullKey.drop (fullKey.length - EPOCH_LEN))

/-- `KeyComparator::compare_encoded_full_key`. -/
def KeyComparator.compareEncodedFullKey (lhs rhs : List UInt8) : Option Ordering := do
  let (lP, lS) ← splitKeyEpoch lhs
  let (rP, rS) ← splitKeyEpoch rhs
  pure ((compare lP rP).then (compare rS lS))

theorem splitKeyEpoch_encode (k : FullKey) :
    splitKeyEpoch k.encode = some (k.userKey.encode, encodeBE EPOCH_LEN k.epoch.toNat) := by
  have hpos : k.encode.length - EPOCH_LEN = k.userKey.encode.length := by
    simp [FullKey.encodedLen]
  have hlong : ¬ k.encode.length < EPOCH_LEN := by simp [FullKey.encodedLen]
  rw [splitKeyEpoch, if_neg hlong, hpos]
  simp [FullKey.encode]

theorem compare_encodeBE_epoch (a b : HummockEpoch) :
    compare (encodeBE EPOCH_LEN a.toNat) (encodeBE EPOCH_LEN b.toNat) = compare a b := by
  have hw (e : HummockEpoch) : e.toNat < 256 ^ EPOCH_LEN := by
    have := e.toNat_lt; simp only [EPOCH_LEN]; omega
  rw [compare_encodeBE (hw a) (hw b)]
  rcases lt_trichotomy a b with h | rfl | h
  · rw [compare_lt_iff_lt.mpr h, compare_lt_iff_lt.mpr (UInt64.lt_iff_toNat_lt.mp h)]
  · rw [compare_eq_iff_eq.mpr rfl, compare_eq_iff_eq.mpr rfl]
  · rw [compare_gt_iff_gt.mpr h, compare_gt_iff_gt.mpr (UInt64.lt_iff_toNat_lt.mp h)]

/-- The encoded comparison of full keys is `FullKey::cmp`. -/
theorem compareEncodedFullKey_encode (a b : FullKey) :
    KeyComparator.compareEncodedFullKey a.encode b.encode = some (FullKey.cmp a b) := by
  simp only [KeyComparator.compareEncodedFullKey, splitKeyEpoch_encode, Option.pure_def,
    Option.bind_eq_bind, Option.bind_some]
  rw [FullKey.cmp, UserKey.compare_encode, compare_encodeBE_epoch]

/-- The full-key encoding preserves order and round-trips: the encoded
comparator agrees with `FullKey::cmp`, the bytewise order of encoded user keys
is the `UserKey` order, and `FullKey::decode` inverts `FullKey::encode`. -/
theorem full_key_encoding_preserves_order :
    (∀ a b : FullKey, KeyComparator.compareEncodedFullKey a.encode b.encode = some (FullKey.cmp a b)) ∧
    (∀ u v : UserKey, compare u.encode v.encode = compare u v) ∧
    (∀ a : FullKey, FullKey.decode a.encode = some a) :=
  ⟨compareEncodedFullKey_encode, UserKey.compare_encode, FullKey.decode_encode⟩

end RisingWave.Hummock
