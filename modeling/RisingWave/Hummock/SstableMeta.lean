import RisingWave.Hummock.Tombstone
import RisingWave.Lib.ByteBuf

/-!
# The SST meta block

`sstable/mod.rs`: `SstableMeta::encode_to` writes the block metas, the bloom
filter, the key range and the monotonic delete events, then the meta offset,
an `xxhash64` checksum of all of that, the format version and a magic number.
`SstableMeta::decode` reads the footer back to front, returning an error on a
wrong magic, version or checksum, and then reads the fields front to back.

The checksum function is `xxh64::xxh64(data, 0)` of a third-party crate; it is a
parameter here, and no property of it is used. Where the reads of `bytes::Buf`
panic, on a buffer that runs short or an exclusive flag other than 0 and 1, the
model returns `none`.
-/

namespace RisingWave.Hummock

open ByteCodec ByteBuf

/-! ## Field codecs -/

/-- `put_length_prefixed_slice`: the length as a `u32`, then the bytes. -/
def putLengthPrefixedSlice (slice : List UInt8) : List UInt8 :=
  putU32Le (UInt32.ofNat slice.length) ++ slice

/-- `get_length_prefixed_slice`. -/
def getLengthPrefixedSlice : Reader (List UInt8) := do
  let len ← getU32Le
  take len.toNat

/-- `UserKey::encode_length_prefixed`: table id and key length big-endian. -/
def UserKey.encodeLengthPrefixed (k : UserKey) : List UInt8 :=
  putU32 k.tableId ++ putU32 (UInt32.ofNat k.tableKey.length) ++ k.tableKey

/-- `UserKey::decode_length_prefixed`. -/
def UserKey.decodeLengthPrefixed : Reader UserKey := do
  let tableId ← getU32
  let len ← getU32
  let data ← take len.toNat
  pure ⟨tableId, data⟩

/-- `MonotonicDeleteEvent::encode`. -/
def MonotonicDeleteEvent.encode (e : MonotonicDeleteEvent) : List UInt8 :=
  e.eventKey.leftUserKey.encodeLengthPrefixed ++
    putU8 (if e.eventKey.isExcludeLeftKey then 1 else 0) ++ putU64Le e.newEpoch

/-- `MonotonicDeleteEvent::decode`: a flag other than 0 and 1 panics. -/
def MonotonicDeleteEvent.decode : Reader MonotonicDeleteEvent := do
  let userKey ← UserKey.decodeLengthPrefixed
  let excludeLeftKeyFlag ← getU8
  let isExcludeLeftKey ← match excludeLeftKeyFlag with
    | 0 => pure false
    | 1 => pure true
    | _ => failure
  let newEpoch ← getU64Le
  pure ⟨PointRange.fromUserKey userKey isExcludeLeftKey, newEpoch⟩

/-- `MonotonicDeleteEvent::encoded_size`. -/
def MonotonicDeleteEvent.encodedSize (e : MonotonicDeleteEvent) : ℕ :=
  4 + e.eventKey.leftUserKey.encodedLen + 1 + 8

/-- `BlockMeta`. -/
structure BlockMeta where
  smallestKey : List UInt8
  offset : UInt32
  len : UInt32
  uncompressedSize : UInt32
  deriving DecidableEq, Repr

/-- `BlockMeta::encode`. -/
def BlockMeta.encode (b : BlockMeta) : List UInt8 :=
  putU32Le b.offset ++ putU32Le b.len ++ putU32Le b.uncompressedSize ++
    putLengthPrefixedSlice b.smallestKey

/-- `BlockMeta::decode`. -/
def BlockMeta.decode : Reader BlockMeta := do
  let offset ← getU32Le
  let len ← getU32Le
  let uncompressedSize ← getU32Le
  let smallestKey ← getLengthPrefixedSlice
  pure ⟨smallestKey, offset, len, uncompressedSize⟩

/-- `BlockMeta::encoded_size`. -/
def BlockMeta.encodedSize (b : BlockMeta) : ℕ := 16 + b.smallestKey.length

/-! ## The meta block -/

/-- `SstableMeta`. -/
structure SstableMeta where
  blockMetas : List BlockMeta
  bloomFilter : List UInt8
  estimatedSize : UInt32
  keyCount : UInt32
  smallestKey : List UInt8
  largestKey : List UInt8
  metaOffset : UInt64
  monotonicTombstoneEvents : List MonotonicDeleteEvent
  version : UInt32
  deriving DecidableEq, Repr

/-- `MAGIC`. -/
def MAGIC : UInt32 := 0x5785ab73

/-- `VERSION`. -/
def VERSION : UInt32 := 1

/-- The errors of `HummockError` that the decoders return. -/
inductive HummockError where
  | magicMismatch (expected found : UInt32)
  | invalidFormatVersion (version : UInt32)
  | checksumMismatch (expected found : UInt64)
  | decodeError (message : String)
  deriving DecidableEq, Repr

section Codec

variable (xxhash64Checksum : List UInt8 → UInt64)

/-- The fields of `SstableMeta::encode_to` up to the meta offset: what the
checksum covers. -/
def SstableMeta.encodeFields (m : SstableMeta) : List UInt8 :=
  putU32Le (UInt32.ofNat m.blockMetas.length) ++ m.blockMetas.flatMap BlockMeta.encode ++
    putLengthPrefixedSlice m.bloomFilter ++ putU32Le m.estimatedSize ++ putU32Le m.keyCount ++
    putLengthPrefixedSlice m.smallestKey ++ putLengthPrefixedSlice m.largestKey ++
    putU32Le (UInt32.ofNat m.monotonicTombstoneEvents.length) ++
    m.monotonicTombstoneEvents.flatMap MonotonicDeleteEvent.encode ++ putU64Le m.metaOffset

/-- `SstableMeta::encode_to`: the fields, their checksum, `VERSION` and `MAGIC`,
appended to `buf`. -/
def SstableMeta.encodeTo (m : SstableMeta) (buf : List UInt8) : List UInt8 :=
  let fields := m.encodeFields
  buf ++ fields ++ putU64Le (xxhash64Checksum fields) ++ putU32Le VERSION ++ putU32Le MAGIC

/-- `SstableMeta::encode_to_bytes`. -/
def SstableMeta.encodeToBytes (m : SstableMeta) : List UInt8 := m.encodeTo xxhash64Checksum []

/-- The field reads of `SstableMeta::decode`, after the footer checks. -/
def SstableMeta.decodeFields (version : UInt32) : Reader SstableMeta := do
  let blockMetaCount ← getU32Le
  let blockMetas ← readMany BlockMeta.decode blockMetaCount.toNat
  let bloomFilter ← getLengthPrefixedSlice
  let estimatedSize ← getU32Le
  let keyCount ← getU32Le
  let smallestKey ← getLengthPrefixedSlice
  let largestKey ← getLengthPrefixedSlice
  let tombEventCount ← getU32Le
  let monotonicTombstoneEvents ← readMany MonotonicDeleteEvent.decode tombEventCount.toNat
  let metaOffset ← getU64Le
  pure ⟨blockMetas, bloomFilter, estimatedSize, keyCount, smallestKey, largestKey, metaOffset,
    monotonicTombstoneEvents, version⟩

/-- The `u32` little-endian at `cursor`. -/
def readU32LeAt (buf : List UInt8) (cursor : ℕ) : UInt32 :=
  UInt32.ofNat (decodeLE ((buf.drop cursor).take 4))

/-- `SstableMeta::decode`. The cursor moves back from the end: a buffer shorter
than the footer read so far panics. -/
def SstableMeta.decode (buf : List UInt8) : Option (Except HummockError SstableMeta) :=
  if buf.length < 4 then none else
  let magic := readU32LeAt buf (buf.length - 4)
  if magic ≠ MAGIC then some (.error (.magicMismatch MAGIC magic)) else
  if buf.length < 8 then none else
  let version := readU32LeAt buf (buf.length - 8)
  if version ≠ VERSION then some (.error (.invalidFormatVersion version)) else
  if buf.length < 16 then none else
  let checksum := UInt64.ofNat (decodeLE ((buf.drop (buf.length - 16)).take 8))
  let data := buf.take (buf.length - 16)
  -- `xxhash64_verify`
  if xxhash64Checksum data ≠ checksum then
    some (.error (.checksumMismatch checksum (xxhash64Checksum data)))
  else ((decodeFields version).run data).map fun r => .ok r.1

/-- `SstableMeta::encoded_size`. -/
def SstableMeta.encodedSize (m : SstableMeta) : ℕ :=
  4 + (m.blockMetas.map BlockMeta.encodedSize).sum + 4 +
    (m.monotonicTombstoneEvents.map MonotonicDeleteEvent.encodedSize).sum +
    4 + m.bloomFilter.length + 4 + 4 + 4 + m.smallestKey.length + 4 + m.largestKey.length +
    8 + 8 + 4 + 4

end Codec

/-! ## Round trips of the fields -/

attribute [local simp] putLengthPrefixedSlice in
theorem getLengthPrefixedSlice_readsBack :
    ReadsBack getLengthPrefixedSlice putLengthPrefixedSlice fun l => l.length < 2 ^ 32 := by
  intro l hl s
  rw [getLengthPrefixedSlice, putLengthPrefixedSlice, List.append_assoc,
    run_bind_of_run (getU32Le_run _ _), toNat_ofNat_length hl, take_run]

attribute [local simp] UserKey.encodeLengthPrefixed in
theorem UserKey.decodeLengthPrefixed_readsBack :
    ReadsBack UserKey.decodeLengthPrefixed UserKey.encodeLengthPrefixed
      fun k => k.tableKey.length < 2 ^ 32 := by
  intro k hk s
  rw [UserKey.decodeLengthPrefixed, UserKey.encodeLengthPrefixed, List.append_assoc,
    List.append_assoc, run_bind_of_run (getU32_run _ _), run_bind_of_run (getU32_run _ _),
    toNat_ofNat_length hk, run_bind_of_run (take_run _ _)]
  rfl

/-- The table key of an event fits the `u32` length its encoding writes. -/
def MonotonicDeleteEvent.KeyFits (e : MonotonicDeleteEvent) : Prop :=
  e.eventKey.leftUserKey.tableKey.length < 2 ^ 32

attribute [local simp] MonotonicDeleteEvent.decode MonotonicDeleteEvent.encode in
theorem MonotonicDeleteEvent.decode_readsBack :
    ReadsBack MonotonicDeleteEvent.decode MonotonicDeleteEvent.encode
      MonotonicDeleteEvent.KeyFits := by
  rintro ⟨⟨k, exclude⟩, epoch⟩ hk s
  rw [MonotonicDeleteEvent.decode, MonotonicDeleteEvent.encode, List.append_assoc,
    List.append_assoc, run_bind_of_run (UserKey.decodeLengthPrefixed_readsBack k hk _),
    run_bind_of_run (getU8_run _ _)]
  -- The flag byte is 1 or 0, and the match reads it back.
  cases exclude <;> simp [PointRange.fromUserKey]

theorem BlockMeta.decode_readsBack :
    ReadsBack BlockMeta.decode BlockMeta.encode fun b => b.smallestKey.length < 2 ^ 32 := by
  intro b hb s
  simp only [BlockMeta.decode, BlockMeta.encode, List.append_assoc]
  rw [run_bind_of_run (getU32Le_run _ _), run_bind_of_run (getU32Le_run _ _),
    run_bind_of_run (getU32Le_run _ _),
    run_bind_of_run (getLengthPrefixedSlice_readsBack b.smallestKey hb _)]
  rfl

/-- Every length `SstableMeta::encode_to` writes as a `u32` fits in one. -/
structure SstableMeta.LengthsFit (m : SstableMeta) : Prop where
  blockMetas : m.blockMetas.length < 2 ^ 32
  blockKeys : ∀ b ∈ m.blockMetas, b.smallestKey.length < 2 ^ 32
  bloomFilter : m.bloomFilter.length < 2 ^ 32
  smallestKey : m.smallestKey.length < 2 ^ 32
  largestKey : m.largestKey.length < 2 ^ 32
  events : m.monotonicTombstoneEvents.length < 2 ^ 32
  eventKeys : ∀ e ∈ m.monotonicTombstoneEvents, e.KeyFits

attribute [local simp] SstableMeta.encodeFields in
theorem SstableMeta.decodeFields_run {m : SstableMeta} (h : m.LengthsFit) (s : List UInt8) :
    (decodeFields m.version).run (m.encodeFields ++ s) = some (m, s) := by
  have hblocks := readMany_run BlockMeta.decode_readsBack m.blockMetas h.blockKeys
  have hevents := readMany_run MonotonicDeleteEvent.decode_readsBack m.monotonicTombstoneEvents
    h.eventKeys
  simp only [decodeFields, encodeFields, List.append_assoc]
  rw [run_bind_of_run (getU32Le_run _ _), toNat_ofNat_length h.blockMetas,
    run_bind_of_run (hblocks _),
    run_bind_of_run (getLengthPrefixedSlice_readsBack _ h.bloomFilter _),
    run_bind_of_run (getU32Le_run _ _), run_bind_of_run (getU32Le_run _ _),
    run_bind_of_run (getLengthPrefixedSlice_readsBack _ h.smallestKey _),
    run_bind_of_run (getLengthPrefixedSlice_readsBack _ h.largestKey _),
    run_bind_of_run (getU32Le_run _ _), toNat_ofNat_length h.events,
    run_bind_of_run (hevents _), run_bind_of_run (getU64Le_run _ _)]
  rfl

/-! ## The footer -/

theorem readU32LeAt_putU32Le (pre post : List UInt8) (x : UInt32) :
    readU32LeAt (pre ++ putU32Le x ++ post) pre.length = x := by
  rw [readU32LeAt, List.append_assoc, List.drop_left' rfl, List.take_left' (putU32Le_length x)]
  simp [putU32Le, decodeLE_encodeLE]

section Footer

variable (xxhash64Checksum : List UInt8 → UInt64)

/-- `decode` on a buffer that ends in a footer: the three checks in order, then
the fields. -/
theorem SstableMeta.decode_footer (data : List UInt8) (checksum : UInt64)
    (version magic : UInt32) :
    decode xxhash64Checksum (data ++ putU64Le checksum ++ putU32Le version ++ putU32Le magic) =
      if magic ≠ MAGIC then some (.error (.magicMismatch MAGIC magic))
      else if version ≠ VERSION then some (.error (.invalidFormatVersion version))
      else if xxhash64Checksum data ≠ checksum then
        some (.error (.checksumMismatch checksum (xxhash64Checksum data)))
      else ((decodeFields version).run data).map fun r => .ok r.1 := by
  have hlen : (data ++ putU64Le checksum ++ putU32Le version ++ putU32Le magic).length =
      data.length + 16 := by simp
  -- Where the cursor stops: at the magic, the version and the checksum.
  have hmagic : readU32LeAt (data ++ putU64Le checksum ++ putU32Le version ++ putU32Le magic)
      (data.length + 16 - 4) = magic := by
    have := readU32LeAt_putU32Le (data ++ putU64Le checksum ++ putU32Le version) [] magic
    simp only [List.append_nil, List.length_append, putU64Le_length, putU32Le_length] at this
    exact this
  have hversion : readU32LeAt (data ++ putU64Le checksum ++ putU32Le version ++ putU32Le magic)
      (data.length + 16 - 8) = version := by
    have := readU32LeAt_putU32Le (data ++ putU64Le checksum) (putU32Le magic) version
    simp only [List.length_append, putU64Le_length] at this
    exact this
  have hchecksum : UInt64.ofNat (decodeLE (((data ++ putU64Le checksum ++ putU32Le version ++
      putU32Le magic).drop (data.length + 16 - 16)).take 8)) = checksum := by
    simp [List.append_assoc, putU64Le, decodeLE_encodeLE]
  have hdata : (data ++ putU64Le checksum ++ putU32Le version ++ putU32Le magic).take
      (data.length + 16 - 16) = data := by simp [List.append_assoc]
  have h4 : ¬ data.length + 16 < 4 := by omega
  have h8 : ¬ data.length + 16 < 8 := by omega
  have h16 : ¬ data.length + 16 < 16 := by omega
  simp only [decode, hlen]
  rw [hmagic, hversion, hchecksum, hdata]
  simp only [h4, h8, h16, if_false]

end Footer

/-- Every buffer of sixteen bytes or more ends in a footer. -/
theorem exists_footer {buf : List UInt8} (h : 16 ≤ buf.length) :
    ∃ data checksum version magic,
      buf = data ++ putU64Le checksum ++ putU32Le version ++ putU32Le magic := by
  obtain ⟨data, tail, htail, rfl⟩ : ∃ data tail, tail.length = 16 ∧ buf = data ++ tail :=
    ⟨buf.take (buf.length - 16), buf.drop (buf.length - 16), by simp; omega, by simp⟩
  obtain ⟨c, t, hc, rfl⟩ := exists_append_of_le_length (show 8 ≤ tail.length by omega)
  have ht : t.length = 8 := by simp at htail; omega
  obtain ⟨v, g, hv, rfl⟩ := exists_append_of_le_length (show 4 ≤ t.length by omega)
  have hg : g.length = 4 := by simp at ht; omega
  obtain ⟨checksum, rfl⟩ := putU64Le_surjective hc
  obtain ⟨version, rfl⟩ := putU32Le_surjective hv
  obtain ⟨magic, rfl⟩ := putU32Le_surjective hg
  exact ⟨data, checksum, version, magic, by simp⟩

/-! ## The meta block round trip -/

attribute [local simp] MonotonicDeleteEvent.encodedSize in
theorem MonotonicDeleteEvent.encode_length (e : MonotonicDeleteEvent) :
    e.encode.length = e.encodedSize := by
  simp [MonotonicDeleteEvent.encode, MonotonicDeleteEvent.encodedSize,
    UserKey.encodeLengthPrefixed, UserKey.encodedLen, TABLE_PREFIX_LEN]
  omega

theorem BlockMeta.encode_length (b : BlockMeta) : b.encode.length = b.encodedSize := by
  simp [BlockMeta.encode, BlockMeta.encodedSize, putLengthPrefixedSlice]
  omega

section Meta

variable (xxhash64Checksum : List UInt8 → UInt64)

attribute [local simp] SstableMeta.encodeToBytes SstableMeta.encodeTo in
/-- `encoded_size` counts the bytes `encode_to_bytes` writes. -/
theorem SstableMeta.encodeToBytes_length (m : SstableMeta) :
    (m.encodeToBytes xxhash64Checksum).length = m.encodedSize := by
  have hblocks : (m.blockMetas.flatMap BlockMeta.encode).length =
      (m.blockMetas.map BlockMeta.encodedSize).sum := by
    simp [List.length_flatMap, BlockMeta.encode_length]
  have hevents : (m.monotonicTombstoneEvents.flatMap MonotonicDeleteEvent.encode).length =
      (m.monotonicTombstoneEvents.map MonotonicDeleteEvent.encodedSize).sum := by
    simp [List.length_flatMap, MonotonicDeleteEvent.encode_length]
  simp only [encodeToBytes, encodeTo, encodeFields, encodedSize, putLengthPrefixedSlice,
    List.length_append, List.length_nil, putU32Le_length, putU64Le_length, hblocks, hevents]
  omega

theorem SstableMeta.decode_encodeToBytes {m : SstableMeta} (hv : m.version = VERSION)
    (h : m.LengthsFit) :
    decode xxhash64Checksum (m.encodeToBytes xxhash64Checksum) = some (.ok m) := by
  have hfields := decodeFields_run h []
  rw [List.append_nil, hv] at hfields
  rw [encodeToBytes, encodeTo, List.nil_append, decode_footer]
  simp [hfields]

/-- A wrong magic, version or checksum is an error. -/
theorem SstableMeta.decode_error_of_footer {data : List UInt8} {checksum : UInt64}
    {version magic : UInt32}
    (h : magic ≠ MAGIC ∨ version ≠ VERSION ∨ xxhash64Checksum data ≠ checksum) :
    ∃ e, decode xxhash64Checksum (data ++ putU64Le checksum ++ putU32Le version ++
      putU32Le magic) = some (.error e) := by
  rw [decode_footer]
  by_cases hm : magic = MAGIC
  · by_cases hv : version = VERSION
    · have hc : xxhash64Checksum data ≠ checksum := (h.resolve_left (not_not.mpr hm)).resolve_left
        (not_not.mpr hv)
      exact ⟨.checksumMismatch checksum (xxhash64Checksum data), by simp [hm, hv, hc]⟩
    · exact ⟨.invalidFormatVersion version, by simp [hm, hv]⟩
  · exact ⟨.magicMismatch MAGIC magic, by simp [hm]⟩

end Meta

/-- The meta block round trip: `decode` gives back every meta of the current
version whose lengths fit, `encoded_size` is the length written, and a footer
with a wrong magic, version or checksum is an error. -/
theorem sstableMeta_round_trip (xxhash64Checksum : List UInt8 → UInt64) :
    (∀ m : SstableMeta, m.version = VERSION → m.LengthsFit →
      SstableMeta.decode xxhash64Checksum (m.encodeToBytes xxhash64Checksum) = some (.ok m)) ∧
    (∀ m : SstableMeta, m.encodedSize = (m.encodeToBytes xxhash64Checksum).length) ∧
    (∀ data checksum version magic,
      magic ≠ MAGIC ∨ version ≠ VERSION ∨ xxhash64Checksum data ≠ checksum →
      ∃ e, SstableMeta.decode xxhash64Checksum
        (data ++ putU64Le checksum ++ putU32Le version ++ putU32Le magic) = some (.error e)) :=
  ⟨fun _ hv h => SstableMeta.decode_encodeToBytes xxhash64Checksum hv h,
    fun m => (SstableMeta.encodeToBytes_length xxhash64Checksum m).symm,
    fun _ _ _ _ h => SstableMeta.decode_error_of_footer xxhash64Checksum h⟩

theorem sstableMeta_round_trip_one_block :
    SstableMeta.decode (fun bs => UInt64.ofNat bs.length)
        (SstableMeta.encodeToBytes (fun bs => UInt64.ofNat bs.length)
          ⟨[⟨[0, 1], 0, 100, 0⟩], [7], 123, 123, [0], [9], 123,
            [⟨⟨⟨1, [2]⟩, true⟩, 5⟩], VERSION⟩) =
      some (.ok ⟨[⟨[0, 1], 0, 100, 0⟩], [7], 123, 123, [0], [9], 123,
        [⟨⟨⟨1, [2]⟩, true⟩, 5⟩], VERSION⟩) :=
  (sstableMeta_round_trip _).1 _ rfl
    ⟨by decide, by decide, by decide, by decide, by decide, by decide,
      by simp [MonotonicDeleteEvent.KeyFits]⟩

end RisingWave.Hummock
