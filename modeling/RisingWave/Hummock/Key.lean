import Mathlib
import RisingWave.Lib.ByteCodec

/-!
# Keys of the Hummock state store

`hummock_sdk/src/key.rs`. A `UserKey` is a table id and a table key; a `FullKey`
is a user key and the epoch it was written at; a `PointRange` is a position
between user keys used by range tombstones. Table keys, values and encodings
are byte strings, `List UInt8`.

The orders are the source's: `UserKey` and `PointRange` derive `Ord`, so they
compare field by field in declaration order, and `FullKey::cmp` puts the user
key first and the larger epoch first. Each order is a Mathlib `LinearOrder`
lifted from a lexicographic product, so that sorted lists and partition points
below can use Mathlib's order lemmas.
-/

namespace RisingWave.Hummock

open ByteCodec

/-- `HummockEpoch` is a `u64`. -/
abbrev HummockEpoch := UInt64

/-- `HummockEpoch::MAX`. -/
def HummockEpoch.MAX : HummockEpoch := 18446744073709551615

/-- `HummockEpoch::MIN`. -/
def HummockEpoch.MIN : HummockEpoch := 0

/-- `TableId` wraps a `u32`, ordered as the number. -/
abbrev TableId := UInt32

/-- `EPOCH_LEN`. -/
def EPOCH_LEN : ℕ := 8

/-- `TABLE_PREFIX_LEN`. -/
def TABLE_PREFIX_LEN : ℕ := 4

theorem HummockEpoch.le_MAX (e : HummockEpoch) : e ≤ HummockEpoch.MAX := by
  rw [UInt64.le_iff_toNat_le]
  have h1 := e.toNat_lt
  have h2 : HummockEpoch.MAX.toNat = 18446744073709551615 := rfl
  omega

theorem HummockEpoch.MIN_le (e : HummockEpoch) : HummockEpoch.MIN ≤ e := by
  rw [UInt64.le_iff_toNat_le]
  simp [HummockEpoch.MIN]

/-! ## User keys -/

/-- `UserKey`: the table id, then the table key (`TableKey` is a transparent
wrapper around the bytes). `UserKey::default()` is table `0` and the empty key. -/
structure UserKey where
  tableId : TableId
  tableKey : List UInt8
  deriving DecidableEq, Repr, Inhabited

/-- The derived order of `UserKey`: table id first, then the table key bytes. -/
def UserKey.ordKey (k : UserKey) : TableId ×ₗ List UInt8 := toLex (k.tableId, k.tableKey)

attribute [local simp] UserKey.ordKey in
theorem UserKey.ordKey_injective : Function.Injective UserKey.ordKey := by
  rintro ⟨a, b⟩ ⟨c, d⟩ h
  simp only [UserKey.ordKey, EmbeddingLike.apply_eq_iff_eq, Prod.mk.injEq] at h
  rw [h.1, h.2]

instance : LinearOrder UserKey := LinearOrder.lift' UserKey.ordKey UserKey.ordKey_injective

theorem UserKey.lt_iff {a b : UserKey} :
    a < b ↔ a.tableId < b.tableId ∨ a.tableId = b.tableId ∧ a.tableKey < b.tableKey :=
  Prod.Lex.toLex_lt_toLex

theorem UserKey.le_iff {a b : UserKey} :
    a ≤ b ↔ a.tableId < b.tableId ∨ a.tableId = b.tableId ∧ a.tableKey ≤ b.tableKey :=
  Prod.Lex.toLex_le_toLex

theorem UserKey.compare_eq (a b : UserKey) :
    compare a b = (compare a.tableId b.tableId).then (compare a.tableKey b.tableKey) := by
  rcases lt_trichotomy a b with h | rfl | h
  · rw [compare_lt_iff_lt.mpr h]
    rcases UserKey.lt_iff.mp h with h1 | ⟨h1, h2⟩
    · rw [compare_lt_iff_lt.mpr h1]; rfl
    · rw [h1, compare_eq_iff_eq.mpr rfl, List.compare_lex_eq_lt.mpr h2]; rfl
  · simp
  · rw [compare_gt_iff_gt.mpr h]
    rcases UserKey.lt_iff.mp h with h1 | ⟨h1, h2⟩
    · rw [compare_gt_iff_gt.mpr h1]; rfl
    · rw [h1, compare_eq_iff_eq.mpr rfl, List.compare_lex_eq_gt.mpr h2]; rfl

/-- `UserKey::encode`: `| table_id (u32, big-endian) | table_key |`. -/
def UserKey.encode (k : UserKey) : List UInt8 := encodeBE TABLE_PREFIX_LEN k.tableId.toNat ++ k.tableKey

/-- `UserKey::encoded_len`. -/
def UserKey.encodedLen (k : UserKey) : ℕ := k.tableKey.length + TABLE_PREFIX_LEN

/-- `UserKey::decode`: `get_u32` reads the table id and panics (`none`) on a slice
shorter than four bytes; the rest is the table key. -/
def UserKey.decode (slice : List UInt8) : Option UserKey :=
  if slice.length < TABLE_PREFIX_LEN then none
  else some ⟨UInt32.ofNat (decodeBE (slice.take TABLE_PREFIX_LEN)), slice.drop TABLE_PREFIX_LEN⟩

attribute [local simp] UserKey.encode UserKey.encodedLen in
@[simp] theorem UserKey.encode_length (k : UserKey) : k.encode.length = k.encodedLen := by
  simp [UserKey.encode, UserKey.encodedLen, Nat.add_comm]

attribute [local simp] UserKey.decode in
theorem UserKey.decode_encode (k : UserKey) : UserKey.decode k.encode = some k := by
  have hlen : (encodeBE TABLE_PREFIX_LEN k.tableId.toNat).length = TABLE_PREFIX_LEN := by simp
  have hid : UInt32.ofNat (k.tableId.toNat % 256 ^ TABLE_PREFIX_LEN) = k.tableId := by
    simp [TABLE_PREFIX_LEN]
  simp [UserKey.decode, UserKey.encode, List.take_left' hlen, List.drop_left' hlen,
    decodeBE_encodeBE, hid]

/-- Byte order of encoded user keys is the `UserKey` order: the table id has a
fixed width, so the table keys are compared only when the ids agree. -/
theorem UserKey.compare_encode (a b : UserKey) : compare a.encode b.encode = compare a b := by
  have hw (t : TableId) : t.toNat < 256 ^ TABLE_PREFIX_LEN := by
    have := t.toNat_lt; simp only [TABLE_PREFIX_LEN]; omega
  have hid : compare a.tableId.toNat b.tableId.toNat = compare a.tableId b.tableId := by
    rcases lt_trichotomy a.tableId b.tableId with h | h | h
    · rw [compare_lt_iff_lt.mpr h, compare_lt_iff_lt.mpr (UInt32.lt_iff_toNat_lt.mp h)]
    · rw [h, compare_eq_iff_eq.mpr rfl, compare_eq_iff_eq.mpr rfl]
    · rw [compare_gt_iff_gt.mpr h, compare_gt_iff_gt.mpr (UInt32.lt_iff_toNat_lt.mp h)]
  rw [UserKey.encode, UserKey.encode, List.compare_append_of_length_eq (by simp),
    compare_encodeBE (hw _) (hw _), hid, UserKey.compare_eq]

/-! ## Full keys -/

/-- `FullKey`: a user key and its epoch. `FullKey::default()` is the default user
key at epoch `0`. -/
structure FullKey where
  userKey : UserKey
  epoch : HummockEpoch
  deriving DecidableEq, Repr, Inhabited

/-- `FullKey::cmp`: "When `user_key` is the same, greater epoch comes first." -/
def FullKey.cmp (a b : FullKey) : Ordering :=
  (compare a.userKey b.userKey).then (compare b.epoch a.epoch)

/-- The order of `FullKey::cmp` as a lexicographic product, the epoch reversed. -/
def FullKey.ordKey (k : FullKey) : UserKey ×ₗ HummockEpochᵒᵈ :=
  toLex (k.userKey, OrderDual.toDual k.epoch)

theorem FullKey.ordKey_injective : Function.Injective FullKey.ordKey := by
  rintro ⟨a, b⟩ ⟨c, d⟩ h
  simp only [FullKey.ordKey, EmbeddingLike.apply_eq_iff_eq, Prod.mk.injEq] at h
  rw [h.1, h.2]

instance : LinearOrder FullKey := LinearOrder.lift' FullKey.ordKey FullKey.ordKey_injective

theorem FullKey.lt_iff {a b : FullKey} :
    a < b ↔ a.userKey < b.userKey ∨ a.userKey = b.userKey ∧ b.epoch < a.epoch :=
  Prod.Lex.toLex_lt_toLex

theorem FullKey.le_iff {a b : FullKey} :
    a ≤ b ↔ a.userKey < b.userKey ∨ a.userKey = b.userKey ∧ b.epoch ≤ a.epoch :=
  Prod.Lex.toLex_le_toLex

theorem FullKey.cmp_eq_compare (a b : FullKey) : FullKey.cmp a b = compare a b := by
  rcases lt_trichotomy a b with h | rfl | h
  · rw [compare_lt_iff_lt.mpr h]
    rcases FullKey.lt_iff.mp h with h1 | ⟨h1, h2⟩
    · simp [FullKey.cmp, compare_lt_iff_lt.mpr h1]
    · simp [FullKey.cmp, h1, compare_lt_iff_lt.mpr h2]
  · simp [FullKey.cmp]
  · rw [compare_gt_iff_gt.mpr h]
    rcases FullKey.lt_iff.mp h with h1 | ⟨h1, h2⟩
    · simp [FullKey.cmp, compare_gt_iff_gt.mpr h1]
    · simp [FullKey.cmp, h1, compare_gt_iff_gt.mpr h2]

/-- `FullKey::encode`: `| user_key | epoch (u64, big-endian) |`. -/
def FullKey.encode (k : FullKey) : List UInt8 := k.userKey.encode ++ encodeBE EPOCH_LEN k.epoch.toNat

/-- `FullKey::encoded_len`. -/
def FullKey.encodedLen (k : FullKey) : ℕ := k.userKey.encodedLen + EPOCH_LEN

/-- `FullKey::decode`: the epoch is the last eight bytes (`slice.len() - EPOCH_LEN`
underflows, a panic, on a shorter slice), the user key the bytes before them. -/
def FullKey.decode (slice : List UInt8) : Option FullKey :=
  if slice.length < EPOCH_LEN then none
  else
    (UserKey.decode (slice.take (slice.length - EPOCH_LEN))).map fun uk =>
      ⟨uk, UInt64.ofNat (decodeBE (slice.drop (slice.length - EPOCH_LEN)))⟩

@[simp] theorem FullKey.encode_length (k : FullKey) : k.encode.length = k.encodedLen := by
  simp [FullKey.encode, FullKey.encodedLen]

theorem FullKey.decode_encode (k : FullKey) : FullKey.decode k.encode = some k := by
  have hpos : k.encode.length - EPOCH_LEN = k.userKey.encode.length := by
    simp [FullKey.encodedLen]
  have hep : UInt64.ofNat (k.epoch.toNat % 256 ^ EPOCH_LEN) = k.epoch := by
    simp [EPOCH_LEN]
  have hlong : ¬ k.encode.length < EPOCH_LEN := by simp [FullKey.encodedLen]
  rw [FullKey.decode, if_neg hlong, hpos]
  simp [FullKey.encode, UserKey.decode_encode, decodeBE_encodeBE, hep]

/-- No user key lies strictly between `k` and `k` with a zero byte appended: the
latter is the successor of `k`. -/
theorem UserKey.not_lt_append_zero {a k : UserKey} (h : a < k) :
    ¬ k < ⟨a.tableId, a.tableKey ++ [0]⟩ := by
  rw [UserKey.lt_iff] at h ⊢
  rintro (h' | ⟨htid, h'⟩)
  · rcases h with h | ⟨htid, -⟩
    · exact lt_asymm h h'
    · exact lt_irrefl _ (htid ▸ h')
  · rcases h with h | ⟨-, hk⟩
    · exact lt_irrefl _ (htid ▸ h)
    · exact List.not_lt_append_least (fun _ => UInt8.zero_le) hk h'

/-! ## Point ranges -/

/-- `PointRange`: the left user key itself when `is_exclude_left_key` is false,
its right neighbourhood when it is true. The derived order compares the user
key, then the flag (`false < true`). -/
structure PointRange where
  leftUserKey : UserKey
  isExcludeLeftKey : Bool
  deriving DecidableEq, Repr

/-- `PointRange::from_user_key`. -/
def PointRange.fromUserKey (leftUserKey : UserKey) (isExcludeLeftKey : Bool) : PointRange :=
  ⟨leftUserKey, isExcludeLeftKey⟩

/-- The derived order of `PointRange`. -/
def PointRange.ordKey (p : PointRange) : UserKey ×ₗ Bool := toLex (p.leftUserKey, p.isExcludeLeftKey)

theorem PointRange.ordKey_injective : Function.Injective PointRange.ordKey := by
  rintro ⟨a, b⟩ ⟨c, d⟩ h
  simp only [PointRange.ordKey, EmbeddingLike.apply_eq_iff_eq, Prod.mk.injEq] at h
  rw [h.1, h.2]

instance : LinearOrder PointRange := LinearOrder.lift' PointRange.ordKey PointRange.ordKey_injective

theorem PointRange.le_iff {a b : PointRange} :
    a ≤ b ↔ a.leftUserKey < b.leftUserKey ∨
      a.leftUserKey = b.leftUserKey ∧ a.isExcludeLeftKey ≤ b.isExcludeLeftKey :=
  Prod.Lex.toLex_le_toLex

theorem PointRange.lt_iff {a b : PointRange} :
    a < b ↔ a.leftUserKey < b.leftUserKey ∨
      a.leftUserKey = b.leftUserKey ∧ a.isExcludeLeftKey < b.isExcludeLeftKey :=
  Prod.Lex.toLex_lt_toLex

/-- A point range lies at or before the point of a key `k` exactly when its
left key is below `k`, or is `k` itself not excluded. -/
theorem PointRange.le_fromUserKey_false {p : PointRange} {k : UserKey} :
    p ≤ PointRange.fromUserKey k false ↔
      p.leftUserKey < k ∨ p.leftUserKey = k ∧ p.isExcludeLeftKey = false := by
  rw [PointRange.le_iff]
  cases p.isExcludeLeftKey <;> simp [PointRange.fromUserKey]

theorem PointRange.fromUserKey_mono {k k' : UserKey} (h : k ≤ k') (b : Bool) :
    PointRange.fromUserKey k b ≤ PointRange.fromUserKey k' b := by
  rw [PointRange.le_iff]
  rcases h.lt_or_eq with h | h
  · exact .inl h
  · exact .inr ⟨h, le_rfl⟩

/-! ## The successor of a key prefix -/

/-- `Iterator::rposition`: the index of the last element satisfying `p`. -/
def rposition {α : Type} (p : α → Bool) (l : List α) : Option ℕ :=
  (l.reverse.findIdx? p).map fun i => l.length - 1 - i

/-- `next_key_no_alloc`: the bytes before the last one below `0xff`, and that one plus one. -/
def nextKeyNoAlloc (key : List UInt8) : Option (List UInt8 × UInt8) := do
  let pos ← rposition (· != 0xff) key
  let b ← key[pos]?
  pure (key.take pos, b + 1)

/-- `next_key`; empty when every byte is `0xff`. -/
def nextKey (key : List UInt8) : List UInt8 :=
  match nextKeyNoAlloc key with
  | some (s, e) => s ++ [e]
  | none => []

theorem findIdx?_replicate_append {k : ℕ} {z : UInt8} {b : UInt8} (hb : b ≠ z) (l : List UInt8) :
    (List.replicate k z ++ b :: l).findIdx? (· != z) = some k := by
  induction k with
  | zero => simp [List.findIdx?_cons, bne_iff_ne.mpr hb]
  | succ k ih =>
    rw [List.replicate_succ, List.cons_append, List.findIdx?_cons]
    simp [ih]

theorem nextKeyNoAlloc_append_replicate (p : List UInt8) {b : UInt8} (hb : b ≠ 0xff) (k : ℕ) :
    nextKeyNoAlloc (p ++ b :: List.replicate k 0xff) = some (p, b + 1) := by
  have hrev : (p ++ b :: List.replicate k 0xff).reverse =
      List.replicate k 0xff ++ b :: p.reverse := by
    simp
  have hpos : rposition (· != 0xff) (p ++ b :: List.replicate k 0xff) = some p.length := by
    rw [rposition, hrev, findIdx?_replicate_append hb]
    simp
  simp [nextKeyNoAlloc, hpos]

theorem nextKeyNoAlloc_replicate (k : ℕ) : nextKeyNoAlloc (List.replicate k 0xff) = none := by
  have : rposition (· != 0xff) (List.replicate k (0xff : UInt8)) = none := by
    simp [rposition]
  simp [nextKeyNoAlloc, this]

attribute [local simp] nextKey in
theorem nextKey_append_replicate (p : List UInt8) {b : UInt8} (hb : b ≠ 0xff) (k : ℕ) :
    nextKey (p ++ b :: List.replicate k 0xff) = p ++ [b + 1] := by
  rw [nextKey, nextKeyNoAlloc_append_replicate p hb k]

theorem nextKey_replicate (k : ℕ) : nextKey (List.replicate k 0xff) = [] := by
  rw [nextKey, nextKeyNoAlloc_replicate k]

-- the examples of the doc comment of `next_key`
example : nextKey [49, 50, 51] = [49, 50, 52] := by decide
example : nextKey [49, 50, 0xff] = [49, 51] := by decide
example : nextKey [0xff, 0xff] = [] := by decide
example : nextKey [0xff, 0xfe] = [0xff, 0xff] := by decide

theorem eq_replicate_or_append_replicate (key : List UInt8) :
    (∃ k, key = List.replicate k 0xff) ∨
      ∃ p b k, b ≠ 0xff ∧ key = p ++ b :: List.replicate k 0xff := by
  induction key using List.reverseRecOn with
  | nil => exact .inl ⟨0, rfl⟩
  | append_singleton key c ih =>
    by_cases hc : c = 0xff
    · subst hc
      rcases ih with ⟨k, rfl⟩ | ⟨p, b, k, hb, rfl⟩
      · exact .inl ⟨k + 1, by rw [List.replicate_succ']⟩
      · exact .inr ⟨p, b, k + 1, hb, by simp [List.replicate_succ']⟩
    · exact .inr ⟨key, c, 0, hc, by simp⟩

/-- A key has no successor exactly when all its bytes are `0xff`. -/
theorem nextKeyNoAlloc_eq_none_iff (key : List UInt8) :
    nextKeyNoAlloc key = none ↔ ∀ b ∈ key, b = 0xff := by
  rcases eq_replicate_or_append_replicate key with ⟨k, rfl⟩ | ⟨p, b, k, hb, rfl⟩
  · exact iff_of_true (nextKeyNoAlloc_replicate k) fun _ => List.eq_of_mem_replicate
  · rw [nextKeyNoAlloc_append_replicate p hb k]
    exact iff_of_false (by simp) fun h => hb (h b (by simp))

/-- Past the last byte below `0xff`, raising it gives the least key above every extension. -/
theorem append_add_one_le_iff (p : List UInt8) {b : UInt8} (hb : b ≠ 0xff) (k : ℕ) (x : List UInt8) :
    p ++ [b + 1] ≤ x ↔
      p ++ b :: List.replicate k 0xff < x ∧ ¬ p ++ b :: List.replicate k 0xff <+: x := by
  induction p generalizing x with
  | nil =>
    have hb1 := UInt8.lt_add_one_of_ne_max hb
    simp only [List.nil_append]
    constructor
    · intro h
      have hlt : b :: List.replicate k 0xff < [b + 1] := List.cons_lt_cons_iff'.mpr (.inl hb1)
      refine ⟨lt_of_lt_of_le hlt h, fun ⟨r, hr⟩ => ?_⟩
      -- what extends the key lies below its successor
      have hx : x < [b + 1] := by
        rw [← hr, List.cons_append]
        exact List.cons_lt_cons_iff'.mpr (.inl hb1)
      exact absurd h (not_le_of_gt hx)
    · rintro ⟨hlt, hpre⟩
      by_contra hle
      rw [not_le] at hle
      cases x with
      | nil => exact List.not_lex_nil hlt
      | cons c x =>
        rw [List.cons_lt_cons_iff'] at hlt hle
        rcases hle with hc | ⟨-, hx⟩
        · rcases hlt with hbc | ⟨rfl, hx⟩
          · -- no byte lies strictly between `b` and `b + 1`
            exact absurd hc (not_lt_of_ge (UInt8.add_one_le_of_lt hbc))
          · exact hpre (List.cons_prefix_cons.mpr
              ⟨rfl, List.prefix_of_replicate_lt UInt8.le_max hx⟩)
        · exact List.not_lex_nil hx
  | cons c p ih =>
    simp only [List.cons_append]
    cases x with
    | nil =>
      constructor
      · intro h
        exact absurd h (not_le_of_gt List.Lex.nil)
      · rintro ⟨h, -⟩
        exact absurd h List.not_lex_nil
    | cons d x =>
      rw [List.cons_le_cons_iff', List.cons_lt_cons_iff', List.cons_prefix_cons]
      rcases lt_trichotomy c d with hcd | rfl | hdc
      · simp [hcd, hcd.ne]
      · simp [ih x]
      · simp [hdc.ne', not_lt_of_gt hdc]

/-- The keys from `next_key key` on are those above `key` that do not extend it. -/
theorem nextKey_le_iff {key : List UInt8} (hkey : nextKey key ≠ []) (x : List UInt8) :
    nextKey key ≤ x ↔ key < x ∧ ¬ key <+: x := by
  rcases eq_replicate_or_append_replicate key with ⟨k, rfl⟩ | ⟨p, b, k, hb, rfl⟩
  · exact absurd (nextKey_replicate k) hkey
  · rw [nextKey_append_replicate p hb k]
    exact append_add_one_le_iff p hb k x

/-- When `next_key` is empty, every key above `key` extends it. -/
theorem prefix_of_lt_of_nextKey_eq_nil {key x : List UInt8} (hkey : nextKey key = [])
    (h : key < x) : key <+: x := by
  rcases eq_replicate_or_append_replicate key with ⟨k, rfl⟩ | ⟨p, b, k, hb, rfl⟩
  · exact List.prefix_of_replicate_lt UInt8.le_max h
  · rw [nextKey_append_replicate p hb k] at hkey
    simp at hkey

end RisingWave.Hummock
