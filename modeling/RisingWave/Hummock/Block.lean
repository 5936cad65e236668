import Mathlib
import RisingWave.Hummock.SstableMeta

/-!
# SST blocks

`sstable/block.rs` and `sstable/block_iterator.rs`. `BlockBuilder::add` writes
each entry as a `KeyPrefix` (overlap with the previous key, length of the rest,
length of the value), the rest of the key and the value. An entry is a restart
point, written with its whole key, every `restart_interval` entries and
whenever the widths of its lengths (`LenType`) change; the widths are recorded
only at those changes, in the restart point type index. `build` appends the
restart offsets, the type index, the table id, the compression method and a
checksum. `Block::decode` reads them back, giving each restart point the widths
of the last type index entry at or before it, and `BlockIterator` walks the
entries, forward by decoding each prefix, backward by going to the previous
restart point and forward again.

The compressors and the checksum are third-party functions and parameters here.
Panics (`unreachable!`, an index or a slice out of range, an `assert!`) are
`none`. `debug_assert!`s are not checked in release builds and are left out.
-/

namespace RisingWave.Hummock

open ByteCodec ByteBuf

/-! ## Keys without the table id -/

/-- `FullKey::encode_into_without_table_id`: the table key, then the epoch big-endian. -/
def FullKey.encodeWithoutTableId (k : FullKey) : List UInt8 :=
  k.userKey.tableKey ++ encodeBE EPOCH_LEN k.epoch.toNat

/-- `FullKey::from_slice_without_table_id`; a slice shorter than the epoch panics. -/
def FullKey.fromSliceWithoutTableId (tableId : TableId) (slice : List UInt8) : Option FullKey :=
  if slice.length < EPOCH_LEN then none
  else
    let epochPos := slice.length - EPOCH_LEN
    some ⟨⟨tableId, slice.take epochPos⟩, UInt64.ofNat (decodeBE (slice.drop epochPos))⟩

/-! ## Length types -/

/-- `LenType`: the width of the lengths in a key prefix. -/
inductive LenType where
  | u8
  | u16
  | u32
  deriving DecidableEq, Repr

namespace LenType

/-- `LenType::new`: the narrowest width for `len`; `unreachable!` past `u32`. -/
def new (len : ℕ) : Option LenType :=
  if len < 256 then some .u8
  else if len < 65536 then some .u16
  else if len < 4294967296 then some .u32
  else none

/-- `LenType::len`: the width in bytes. -/
def len : LenType → ℕ
  | .u8 => 1
  | .u16 => 2
  | .u32 => 4

/-- `t as u8`: the discriminant. -/
def toU8 : LenType → UInt8
  | .u8 => 1
  | .u16 => 2
  | .u32 => 3

/-- `impl From<u8> for LenType`; other values panic. -/
def ofU8 (value : UInt8) : Option LenType :=
  match value with
  | 1 => some .u8
  | 2 => some .u16
  | 3 => some .u32
  | _ => none

/-- `put_fn!`: `put_u8`, `put_u16` or `put_u32` of `v as u8`, `as u16` or `as u32`. -/
def put (t : LenType) (v : ℕ) : List UInt8 := encodeBE t.len v

/-- `put2`. -/
def put2 (t : LenType) (v1 v2 : ℕ) : List UInt8 := t.put v1 ++ t.put v2

/-- `get_fn!`. -/
def get (t : LenType) : Reader ℕ := do
  let bs ← take t.len
  pure (decodeBE bs)

/-- `get2`. -/
def get2 (t : LenType) : Reader (ℕ × ℕ) := do
  let v1 ← t.get
  let v2 ← t.get
  pure (v1, v2)

end LenType

/-- `RestartPoint`. -/
structure RestartPoint where
  offset : UInt32
  keyLenType : LenType
  valueLenType : LenType
  deriving DecidableEq, Repr

/-- `RestartPoint::size_of`: the offset and the byte of the two widths. -/
def RestartPoint.sizeOf : ℕ := 4 + 1

/-! ## Key prefixes -/

/-- `KeyPrefix`. -/
structure KeyPrefix where
  overlap : ℕ
  diff : ℕ
  value : ℕ
  offset : ℕ
  len : ℕ
  deriving DecidableEq, Repr

namespace KeyPrefix

/-- `KeyPrefix::new_without_len`. -/
def newWithoutLen (overlap diff value offset : ℕ) : KeyPrefix := ⟨overlap, diff, value, offset, 0⟩

/-- `KeyPrefix::encode`. -/
def encode (p : KeyPrefix) (keyLenType valueLenType : LenType) : List UInt8 :=
  keyLenType.put2 p.overlap p.diff ++ valueLenType.put p.value

attribute [local simp] encode LenType.put2 LenType.put LenType.len in
theorem encode_ne_nil (p : KeyPrefix) (keyLenType valueLenType : LenType) :
    p.encode keyLenType valueLenType ≠ [] := by
  cases keyLenType <;>
    simp [encode, LenType.put2, LenType.put, LenType.len, ← List.length_pos_iff]

/-- `KeyPrefix::decode`. -/
def decode (offset : ℕ) (keyLenType valueLenType : LenType) : Reader KeyPrefix := do
  let (overlap, diff) ← keyLenType.get2
  let value ← valueLenType.get
  pure ⟨overlap, diff, value, offset, keyLenType.len * 2 + valueLenType.len⟩

/-- `diff_key_range`, as start and end. -/
def diffKeyRange (p : KeyPrefix) : ℕ × ℕ := (p.offset + p.len, p.offset + p.len + p.diff)

/-- `value_range`, as start and end. -/
def valueRange (p : KeyPrefix) : ℕ × ℕ :=
  (p.offset + p.len + p.diff, p.offset + p.len + p.diff + p.value)

/-- `entry_len`. -/
def entryLen (p : KeyPrefix) : ℕ := p.len + p.diff + p.value

end KeyPrefix

/-- `&buf[start..end]`; a range out of the buffer panics. -/
def slice (buf : List UInt8) (range : ℕ × ℕ) : Option (List UInt8) :=
  if range.1 ≤ range.2 ∧ range.2 ≤ buf.length then some ((buf.drop range.1).take (range.2 - range.1))
  else none

/-- `MAX_KEY_LEN`. -/
def MAX_KEY_LEN : ℕ := 65535

/-- The number of leading bytes two strings share. -/
def commonPrefixLength : List UInt8 → List UInt8 → ℕ
  | a :: as, b :: bs => if a = b then commonPrefixLength as bs + 1 else 0
  | _, _ => 0

/-- `bytes_diff_below_max_key_length`: `target` after the bytes it shares with
`base`, at most `MAX_KEY_LEN` of them. The source compares eight and four bytes
at a time before single bytes; the first difference it finds is the same. -/
def bytesDiffBelowMaxKeyLength (base target : List UInt8) : List UInt8 :=
  target.drop (min (commonPrefixLength base target) MAX_KEY_LEN)

/-! ## The builder -/

/-- `CompressionAlgorithm`. -/
inductive CompressionAlgorithm where
  | none
  | lz4
  | zstd
  deriving DecidableEq, Repr

/-- `CompressionAlgorithm::encode`. -/
def CompressionAlgorithm.toU8 : CompressionAlgorithm → UInt8
  | .none => 0
  | .lz4 => 1
  | .zstd => 2

/-- `CompressionAlgorithm::decode`. -/
def CompressionAlgorithm.decode (v : UInt8) : Except HummockError CompressionAlgorithm :=
  match v with
  | 0 => .ok .none
  | 1 => .ok .lz4
  | 2 => .ok .zstd
  | _ => .error (.decodeError "not valid compression algorithm")

/-- `BlockBuilderOptions`; the capacity only sizes buffers and is left out. -/
structure BlockBuilderOptions where
  compressionAlgorithm : CompressionAlgorithm
  restartInterval : ℕ

/-- `BlockBuilder`. -/
structure BlockBuilder where
  buf : List UInt8
  restartCount : ℕ
  restartPoints : List UInt32
  lastKey : List UInt8
  entryCount : ℕ
  compressionAlgorithm : CompressionAlgorithm
  tableId : Option UInt32
  restartPointsTypeIndex : List RestartPoint

namespace BlockBuilder

/-- `BlockBuilder::new`. -/
def new (options : BlockBuilderOptions) : BlockBuilder :=
  ⟨[], options.restartInterval, [], [], 0, options.compressionAlgorithm, none, []⟩

/-- `BlockBuilder::add`. `LenType::new` panics on a length past `u32`, and
`entry_count % restart_count` on a zero interval. -/
def add (self : BlockBuilder) (fullKey : FullKey) (value : List UInt8) : Option BlockBuilder := do
  let tableId := match self.tableId with
    | some currentTableId => currentTableId
    | none => fullKey.userKey.tableId
  let key := fullKey.encodeWithoutTableId
  let kType ← LenType.new key.length
  let vType ← LenType.new value.length
  let typeMismatch : Bool := match self.restartPointsTypeIndex.getLast? with
    | some last => kType ≠ last.keyLenType || vType ≠ last.valueLenType
    | none => true
  if self.restartCount = 0 then none
  let offset : UInt32 := UInt32.ofNat self.buf.length
  let restart := self.entryCount % self.restartCount = 0 || typeMismatch
  let diffKey := if restart then key else bytesDiffBelowMaxKeyLength self.lastKey key
  let pfx := KeyPrefix.newWithoutLen (key.length - diffKey.length) diffKey.length value.length
    self.buf.length
  pure
    { self with
      buf := self.buf ++ pfx.encode kType vType ++ diffKey ++ value
      restartPoints := if restart then self.restartPoints ++ [offset] else self.restartPoints
      restartPointsTypeIndex :=
        if typeMismatch then self.restartPointsTypeIndex ++ [⟨offset, kType, vType⟩]
        else self.restartPointsTypeIndex
      lastKey := key
      entryCount := self.entryCount + 1
      tableId := some tableId }

/-- A restart point type index entry: the offset, then the two widths in one byte. -/
def encodeTypeIndexEntry (rp : RestartPoint) : List UInt8 :=
  putU32Le rp.offset ++ putU8 ((rp.keyLenType.toU8 <<< 4) ||| rp.valueLenType.toU8)

/-- `BlockBuilder::build`: entries, restart points, type index, table id; then
the compressed bytes, the compression method and the checksum. An empty block
panics. -/
def build (compress : CompressionAlgorithm → List UInt8 → List UInt8)
    (xxhash64Checksum : List UInt8 → UInt64) (self : BlockBuilder) : Option (List UInt8) := do
  if self.entryCount = 0 then none
  let tableId ← self.tableId
  let buf := self.buf ++ self.restartPoints.flatMap putU32Le ++
    putU32Le (UInt32.ofNat self.restartPoints.length) ++
    self.restartPointsTypeIndex.flatMap encodeTypeIndexEntry ++
    putU32Le (UInt32.ofNat self.restartPointsTypeIndex.length) ++ putU32Le tableId
  let buf := match self.compressionAlgorithm with
    | .none => buf
    | alg => compress alg buf
  let buf := buf ++ putU8 self.compressionAlgorithm.toU8
  pure (buf ++ putU64Le (xxhash64Checksum buf))

/-- `BlockBuilder::is_empty`. -/
def isEmpty (self : BlockBuilder) : Bool := self.buf.isEmpty

/-- `BlockBuilder::approximate_len`: the entries, the restart points and their count, the
type index and its count, the compression method, the checksum and the table id. -/
def approximateLen (self : BlockBuilder) : ℕ :=
  self.buf.length + 4 * self.restartPoints.length + 4 +
    RestartPoint.sizeOf * self.restartPointsTypeIndex.length + 4 + 1 + 8 + 4

/-- `BlockBuilder::uncompressed_block_size`. -/
def uncompressedBlockSize (self : BlockBuilder) : ℕ :=
  self.buf.length + (self.restartPoints.length + 1) * 4 +
    RestartPoint.sizeOf * self.restartPointsTypeIndex.length + 4 + 4

/-- `BlockBuilder::clear`: the compression method and the restart interval stay. -/
def clear (self : BlockBuilder) : BlockBuilder :=
  { self with
    buf := []
    restartPoints := []
    tableId := none
    restartPointsTypeIndex := []
    lastKey := []
    entryCount := 0 }

@[simp] theorem clear_isEmpty (self : BlockBuilder) : self.clear.isEmpty = true := rfl

/-- An entry added leaves the block non-empty: its key prefix has at least one byte. -/
theorem isEmpty_of_add {self b : BlockBuilder} {fullKey : FullKey} {value : List UInt8}
    (h : self.add fullKey value = some b) : b.isEmpty = false := by
  simp only [add, Option.bind_eq_bind] at h
  cases hk : LenType.new fullKey.encodeWithoutTableId.length <;>
    cases hv : LenType.new value.length <;> simp [hk, hv] at h
  obtain ⟨-, rfl⟩ := h
  simp [isEmpty, KeyPrefix.encode_ne_nil]

end BlockBuilder

/-! ## Decoding -/

/-- `Block`: the decoded bytes, the length of the entries, the table id and the
restart points. -/
structure Block where
  data : List UInt8
  dataLen : ℕ
  tableId : TableId
  restartPoints : List RestartPoint
  deriving DecidableEq, Repr

/-- One entry of the restart point type index. -/
def readTypeIndexEntry : Reader RestartPoint := do
  let offset ← getU32Le
  let value ← getU8
  let keyLenType ← liftM (LenType.ofU8 (value >>> 4))
  let valueLenType ← liftM (LenType.ofU8 (value &&& 0x0F))
  pure ⟨offset, keyLenType, valueLenType⟩

/-- The loop of `decode_from_raw` that gives each restart point the widths of
the type index entry in force, moving to the next entry when the offset reaches it. -/
def assignLenTypes (indexKeyVec : List RestartPoint) :
    ℕ → List UInt32 → Option (List RestartPoint)
  | _, [] => some []
  | typeIndex, offset :: rest => do
    -- `index_key_vec.len() - 1` underflows, and panics, on an empty index.
    if indexKeyVec = [] then none
    let typeIndex := match indexKeyVec[typeIndex + 1]? with
      | some next => if typeIndex < indexKeyVec.length - 1 ∧ next.offset ≤ offset then typeIndex + 1
        else typeIndex
      | none => typeIndex
    let rp ← indexKeyVec[typeIndex]?
    let tail ← assignLenTypes indexKeyVec typeIndex rest
    pure (⟨offset, rp.keyLenType, rp.valueLenType⟩ :: tail)

/-- `Block::decode_from_raw`. -/
def Block.decodeFromRaw (buf : List UInt8) : Option Block := do
  if buf.length < 8 then none
  let tableId := readU32LeAt buf (buf.length - 4)
  let nIndex := (readU32LeAt buf (buf.length - 8)).toNat
  let indexDataLen := 4 + nIndex * 5
  if buf.length < 4 + indexDataLen then none
  let dataLen := buf.length - 4 - indexDataLen
  let indexBuf ← slice buf (dataLen, buf.length - 8)
  let (indexKeyVec, _) ← (readMany readTypeIndexEntry nIndex).run indexBuf
  if dataLen < 4 then none
  let nRestarts := (readU32LeAt buf (dataLen - 4)).toNat
  let restartPointsLen := 4 + nRestarts * 4
  let restartsEnd := dataLen - 4
  if dataLen < restartPointsLen then none
  let dataLen := dataLen - restartPointsLen
  let restartPointsBuf ← slice buf (dataLen, restartsEnd)
  let (offsets, _) ← (readMany getU32Le nRestarts).run restartPointsBuf
  let restartPoints ← assignLenTypes indexKeyVec 0 offsets
  pure ⟨buf, dataLen, tableId, restartPoints⟩

/-- `Block::decode`: the checksum, then the compression method, then the raw
block. The decompressors are `lz4::Decoder` and `zstd::Decoder`. -/
def Block.decode (decompress : CompressionAlgorithm → List UInt8 → Except String (List UInt8))
    (xxhash64Checksum : List UInt8 → UInt64) (buf : List UInt8) :
    Option (Except HummockError Block) :=
  if buf.length < 9 then none else
  let checksum := UInt64.ofNat (decodeLE (buf.drop (buf.length - 8)))
  let data := buf.take (buf.length - 8)
  if xxhash64Checksum data ≠ checksum then
    some (.error (.checksumMismatch checksum (xxhash64Checksum data)))
  else
    let compressed := buf.take (buf.length - 9)
    match CompressionAlgorithm.decode (decodeLE ((buf.drop (buf.length - 9)).take 1)).toUInt8 with
    | .error e => some (.error e)
    | .ok .none => (Block.decodeFromRaw compressed).map .ok
    | .ok alg =>
      match decompress alg compressed with
      | .error message => some (.error (.decodeError message))
      | .ok raw => (Block.decodeFromRaw raw).map .ok

/-! ## The iterator -/

/-- `BlockIterator`. -/
structure BlockIterator where
  block : Block
  restartPointIndex : ℕ
  offset : ℕ
  key : List UInt8
  valueRange : ℕ × ℕ
  entryLen : ℕ
  lastKeyLenType : LenType
  lastValueLenType : LenType
  deriving DecidableEq, Repr

namespace BlockIterator

/-- `usize::MAX`. -/
def USIZE_MAX : ℕ := 18446744073709551615

/-- `BlockIterator::new`. -/
def new (block : Block) : BlockIterator :=
  ⟨block, USIZE_MAX, USIZE_MAX, [], (0, 0), 0, .u8, .u8⟩

/-- `Block::data`: the entries. -/
def data (self : BlockIterator) : List UInt8 := self.block.data.take self.block.dataLen

/-- `is_valid`. -/
def isValid (self : BlockIterator) : Bool := self.offset < self.block.dataLen

/-- `key`; an invalid iterator panics. -/
def key? (self : BlockIterator) : Option FullKey :=
  if self.isValid then FullKey.fromSliceWithoutTableId self.block.tableId self.key else none

/-- `value`; an invalid iterator panics. -/
def value? (self : BlockIterator) : Option (List UInt8) :=
  if self.isValid then slice self.data self.valueRange else none

/-- `decode_prefix_at`. -/
def decodePrefixAt (self : BlockIterator) (offset : ℕ) (keyLenType valueLenType : LenType) :
    Option KeyPrefix :=
  if self.data.length < offset then none
  else ((KeyPrefix.decode offset keyLenType valueLenType).run (self.data.drop offset)).map (·.1)

/-- `update_restart_point`. -/
def updateRestartPoint (self : BlockIterator) (index : ℕ) : Option BlockIterator := do
  let rp ← self.block.restartPoints[index]?
  pure
    { self with
      restartPointIndex := index
      lastKeyLenType := rp.keyLenType
      lastValueLenType := rp.valueLenType }

/-- `seek_restart_point_by_index`. -/
def seekRestartPointByIndex (self : BlockIterator) (index : ℕ) : Option BlockIterator := do
  let rp ← self.block.restartPoints[index]?
  let offset := rp.offset.toNat
  let pfx ← self.decodePrefixAt offset rp.keyLenType rp.valueLenType
  let key ← slice self.data pfx.diffKeyRange
  let self :=
    { self with
      key := key
      valueRange := pfx.valueRange
      offset := offset
      entryLen := pfx.entryLen }
  self.updateRestartPoint index

/-- `invalidate`. -/
def invalidate (self : BlockIterator) : BlockIterator :=
  { self with
    offset := self.block.dataLen
    restartPointIndex := self.block.restartPoints.length
    key := []
    valueRange := (0, 0)
    entryLen := 0 }

/-- `try_next_inner`: `false` with the iterator unchanged at the end. -/
def tryNextInner (self : BlockIterator) : Option (Bool × BlockIterator) := do
  let offset := self.offset + self.entryLen
  if self.block.dataLen ≤ offset then return (false, self)
  -- After a seek, the offset may reach the next restart point.
  let self ← match self.block.restartPoints[self.restartPointIndex + 1]? with
    | some next =>
      if offset ≥ next.offset.toNat then self.updateRestartPoint (self.restartPointIndex + 1)
      else pure self
    | none => pure self
  let pfx ← self.decodePrefixAt offset self.lastKeyLenType self.lastValueLenType
  let diff ← slice self.data pfx.diffKeyRange
  pure (true,
    { self with
      key := self.key.take pfx.overlap ++ diff
      valueRange := pfx.valueRange
      offset := offset
      entryLen := pfx.entryLen })

/-- `next_inner`. -/
def nextInner (self : BlockIterator) : Option BlockIterator := do
  let (moved, self) ← self.tryNextInner
  pure (if moved then self else self.invalidate)

/-- `next`; an invalid iterator panics. -/
def next (self : BlockIterator) : Option BlockIterator :=
  if self.isValid then self.nextInner else none

/-- `next_until_prev_offset`: forward while the entry ends before `offset`. The
source loops; each round moves at least a prefix on, so `fuel` rounds for a
block of `fuel` bytes are enough. -/
def nextUntilPrevOffset (offset : ℕ) : ℕ → BlockIterator → Option BlockIterator
  | 0, self => some self
  | fuel + 1, self =>
    if self.offset + self.entryLen < min self.block.dataLen offset then
      self.nextInner >>= nextUntilPrevOffset offset fuel
    else some self

/-- `seek_to_first`. -/
def seekToFirst (self : BlockIterator) : Option BlockIterator := self.seekRestartPointByIndex 0

/-- `seek_to_last`; a block without restart points panics. -/
def seekToLast (self : BlockIterator) : Option BlockIterator := do
  if self.block.restartPoints = [] then none
  let self ← self.seekRestartPointByIndex (self.block.restartPoints.length - 1)
  nextUntilPrevOffset self.block.dataLen self.block.dataLen self

/-- `try_prev_inner`: back to the entry's restart point, or the one before
when the entry is a restart point, then forward to the entry before. -/
def tryPrevInner (self : BlockIterator) : Option (Bool × BlockIterator) := do
  if self.offset = 0 then return (false, self)
  let rp ← self.block.restartPoints[self.restartPointIndex]?
  let index ← if rp.offset.toNat = self.offset then
      (if self.restartPointIndex = 0 then none else some (self.restartPointIndex - 1))
    else some self.restartPointIndex
  let originOffset := self.offset
  let self ← self.seekRestartPointByIndex index
  let self ← nextUntilPrevOffset originOffset self.block.dataLen self
  pure (true, self)

/-- `prev_inner`. -/
def prevInner (self : BlockIterator) : Option BlockIterator := do
  let (moved, self) ← self.tryPrevInner
  pure (if moved then self else self.invalidate)

/-- `prev`; an invalid iterator panics. -/
def prev (self : BlockIterator) : Option BlockIterator :=
  if self.isValid then self.prevInner else none

/-- What a reader sees moving with `step` from `self`: while valid, the key and
the value, then `step`. -/
def readWith (step : BlockIterator → Option BlockIterator) :
    ℕ → BlockIterator → Option (List (FullKey × List UInt8))
  | 0, _ => some []
  | fuel + 1, self =>
    if self.isValid then do
      let key ← self.key?
      let value ← self.value?
      let self' ← step self
      let rest ← readWith step fuel self'
      pure ((key, value) :: rest)
    else some []

end BlockIterator

/-! ## Spec lemmas of the codec pieces -/

namespace LenType

/-- A width holds the lengths it was chosen for. -/
theorem lt_of_new_eq_some {n : ℕ} {t : LenType} (h : LenType.new n = some t) :
    n < 256 ^ t.len := by
  unfold LenType.new at h
  split_ifs at h with h₁ h₂ h₃ <;> cases h <;> simp [len] <;> omega

theorem get_run_put (t : LenType) {v : ℕ} (hv : v < 256 ^ t.len) (s : List UInt8) :
    t.get.run (t.put v ++ s) = some (v, s) := by
  rw [get, put, run_bind_of_run (take_run_of_length (encodeBE_length _ _) _)]
  simp [decodeBE_encodeBE, Nat.mod_eq_of_lt hv]

theorem get2_run_put2 (t : LenType) {v1 v2 : ℕ} (h1 : v1 < 256 ^ t.len) (h2 : v2 < 256 ^ t.len)
    (s : List UInt8) : t.get2.run (t.put2 v1 v2 ++ s) = some ((v1, v2), s) := by
  rw [get2, put2, List.append_assoc, run_bind_of_run (t.get_run_put h1 _),
    run_bind_of_run (t.get_run_put h2 _)]
  rfl

@[simp] theorem put_length (t : LenType) (v : ℕ) : (t.put v).length = t.len := by simp [put]

@[simp] theorem put2_length (t : LenType) (v1 v2 : ℕ) : (t.put2 v1 v2).length = t.len * 2 := by
  simp [put2]
  omega

/-- The byte of a type index entry gives back both widths. -/
theorem ofU8_shiftRight (k v : LenType) : ofU8 (((k.toU8 <<< 4) ||| v.toU8) >>> 4) = some k := by
  cases k <;> cases v <;> rfl

theorem ofU8_and (k v : LenType) : ofU8 (((k.toU8 <<< 4) ||| v.toU8) &&& 0x0F) = some v := by
  cases k <;> cases v <;> rfl

end LenType

attribute [local simp] BlockBuilder.encodeTypeIndexEntry in
theorem readTypeIndexEntry_readsBack :
    ReadsBack readTypeIndexEntry BlockBuilder.encodeTypeIndexEntry fun _ => True := by
  rintro ⟨offset, k, v⟩ - s
  rw [readTypeIndexEntry, BlockBuilder.encodeTypeIndexEntry, List.append_assoc,
    run_bind_of_run (getU32Le_run _ _), run_bind_of_run (getU8_run _ _)]
  simp [LenType.ofU8_shiftRight, LenType.ofU8_and]

namespace KeyPrefix

@[simp] theorem encode_length (p : KeyPrefix) (k v : LenType) :
    (p.encode k v).length = k.len * 2 + v.len := by
  simp [encode]

attribute [local simp] decode in
theorem decode_run_encode (p : KeyPrefix) {k v : LenType} (hoverlap : p.overlap < 256 ^ k.len)
    (hdiff : p.diff < 256 ^ k.len) (hvalue : p.value < 256 ^ v.len) (offset : ℕ)
    (s : List UInt8) :
    (decode offset k v).run (p.encode k v ++ s) =
      some (⟨p.overlap, p.diff, p.value, offset, k.len * 2 + v.len⟩, s) := by
  rw [decode, encode, List.append_assoc, run_bind_of_run (k.get2_run_put2 hoverlap hdiff _),
    run_bind_of_run (v.get_run_put hvalue _)]
  rfl

end KeyPrefix

/-! ### Shared prefixes -/

attribute [local simp] commonPrefixLength in
theorem commonPrefixLength_le_left (a b : List UInt8) : commonPrefixLength a b ≤ a.length := by
  induction a generalizing b with
  | nil => simp [commonPrefixLength]
  | cons x a ih =>
    cases b with
    | nil => simp [commonPrefixLength]
    | cons y b =>
      simp only [commonPrefixLength, List.length_cons]
      split_ifs
      · exact Nat.succ_le_succ (ih b)
      · exact Nat.zero_le _

theorem commonPrefixLength_le_right (a b : List UInt8) : commonPrefixLength a b ≤ b.length := by
  induction a generalizing b with
  | nil => simp [commonPrefixLength]
  | cons x a ih =>
    cases b with
    | nil => simp [commonPrefixLength]
    | cons y b =>
      simp only [commonPrefixLength, List.length_cons]
      split_ifs
      · exact Nat.succ_le_succ (ih b)
      · exact Nat.zero_le _

/-- Up to their common prefix length, two strings agree. -/
theorem take_eq_take_of_le_commonPrefixLength {a b : List UInt8} {m : ℕ}
    (h : m ≤ commonPrefixLength a b) : a.take m = b.take m := by
  induction a generalizing b m with
  | nil => simp [commonPrefixLength] at h; simp [h]
  | cons x a ih =>
    cases b with
    | nil => simp [commonPrefixLength] at h; simp [h]
    | cons y b =>
      cases m with
      | zero => rfl
      | succ m =>
        simp only [commonPrefixLength] at h
        split_ifs at h with hxy
        · rw [List.take_succ_cons, List.take_succ_cons, hxy,
            ih (show m ≤ commonPrefixLength a b by omega)]
        · omega

/-- What `bytes_diff_below_max_key_length` keeps of `target` leaves a prefix
that `base` shares. -/
theorem bytesDiffBelowMaxKeyLength_spec (base target : List UInt8) :
    let overlap := target.length - (bytesDiffBelowMaxKeyLength base target).length
    target.drop overlap = bytesDiffBelowMaxKeyLength base target ∧ overlap ≤ base.length ∧
      base.take overlap = target.take overlap := by
  have hle := commonPrefixLength_le_right base target
  have hoverlap : target.length - (bytesDiffBelowMaxKeyLength base target).length =
      min (commonPrefixLength base target) MAX_KEY_LEN := by
    simp [bytesDiffBelowMaxKeyLength]
    omega
  simp only [hoverlap]
  refine ⟨rfl, (Nat.min_le_left _ _).trans (commonPrefixLength_le_left base target), ?_⟩
  exact take_eq_take_of_le_commonPrefixLength (Nat.min_le_left _ _)

/-! ### Decoding what `build` wrote -/

/-- A key written without its table id reads back under that table id. -/
theorem FullKey.fromSliceWithoutTableId_encodeWithoutTableId (k : FullKey) :
    FullKey.fromSliceWithoutTableId k.userKey.tableId k.encodeWithoutTableId = some k := by
  have hlt : k.epoch.toNat < 256 ^ EPOCH_LEN := k.epoch.toNat_lt
  simp [FullKey.fromSliceWithoutTableId, FullKey.encodeWithoutTableId, decodeBE_encodeBE,
    Nat.mod_eq_of_lt hlt]

theorem slice_append (a b c : List UInt8) :
    slice (a ++ b ++ c) (a.length, a.length + b.length) = some b := by
  simp [slice, List.append_assoc]

/-- `decode_from_raw` reads the trailer `build` writes behind the entries. -/
theorem decodeFromRaw_trailer (entries : List UInt8) (restartPoints : List UInt32)
    (typeIndex : List RestartPoint) (tableId : UInt32)
    (hrp : restartPoints.length < 2 ^ 32) (hti : typeIndex.length < 2 ^ 32) :
    Block.decodeFromRaw (entries ++ restartPoints.flatMap putU32Le ++
        putU32Le (UInt32.ofNat restartPoints.length) ++
        typeIndex.flatMap BlockBuilder.encodeTypeIndexEntry ++
        putU32Le (UInt32.ofNat typeIndex.length) ++ putU32Le tableId) =
      (assignLenTypes typeIndex 0 restartPoints).map fun rps =>
        ⟨entries ++ restartPoints.flatMap putU32Le ++
          putU32Le (UInt32.ofNat restartPoints.length) ++
          typeIndex.flatMap BlockBuilder.encodeTypeIndexEntry ++
          putU32Le (UInt32.ofNat typeIndex.length) ++ putU32Le tableId, entries.length, tableId, rps⟩ := by
  set R := restartPoints.flatMap putU32Le with hR
  set T := typeIndex.flatMap BlockBuilder.encodeTypeIndexEntry with hT
  set buf := entries ++ R ++ putU32Le (UInt32.ofNat restartPoints.length) ++ T ++
    putU32Le (UInt32.ofNat typeIndex.length) ++ putU32Le tableId with hbuf
  have hRlen : R.length = restartPoints.length * 4 := by
    simp [hR, List.length_flatMap]
  have hTlen : T.length = typeIndex.length * 5 := by
    simp [hT, List.length_flatMap, BlockBuilder.encodeTypeIndexEntry]
  have hlen : buf.length = entries.length + R.length + T.length + 12 := by
    simp [hbuf]
    omega
  have htid : readU32LeAt buf (buf.length - 4) = tableId := by
    have := readU32LeAt_putU32Le (entries ++ R ++ putU32Le (UInt32.ofNat restartPoints.length) ++ T ++
      putU32Le (UInt32.ofNat typeIndex.length)) [] tableId
    rw [List.append_nil] at this
    rw [show buf.length - 4 = (entries ++ R ++ putU32Le (UInt32.ofNat restartPoints.length) ++ T ++
      putU32Le (UInt32.ofNat typeIndex.length)).length by simp [hlen]; omega]
    exact this
  have hnIndex : (readU32LeAt buf (buf.length - 8)).toNat = typeIndex.length := by
    have := readU32LeAt_putU32Le (entries ++ R ++ putU32Le (UInt32.ofNat restartPoints.length) ++ T)
      (putU32Le tableId) (UInt32.ofNat typeIndex.length)
    rw [show buf.length - 8 = (entries ++ R ++ putU32Le (UInt32.ofNat restartPoints.length) ++
      T).length by simp [hlen]; omega]
    rw [this, toNat_ofNat_length hti]
  have hnRestarts : (readU32LeAt buf (entries.length + R.length)).toNat = restartPoints.length := by
    have := readU32LeAt_putU32Le (entries ++ R) (T ++ putU32Le (UInt32.ofNat typeIndex.length) ++
      putU32Le tableId) (UInt32.ofNat restartPoints.length)
    rw [show buf = entries ++ R ++ putU32Le (UInt32.ofNat restartPoints.length) ++
      (T ++ putU32Le (UInt32.ofNat typeIndex.length) ++ putU32Le tableId) by simp [hbuf],
      show entries.length + R.length = (entries ++ R).length by simp, this,
      toNat_ofNat_length hrp]
  -- The index ends eight bytes before the end, the restart points where the index starts.
  have hdl : buf.length - 4 - (4 + typeIndex.length * 5) = entries.length + R.length + 4 := by
    omega
  have hdl' : entries.length + R.length + 4 - (4 + restartPoints.length * 4) = entries.length := by
    omega
  have hindex : slice buf (entries.length + R.length + 4, buf.length - 8) = some T := by
    have := slice_append (entries ++ R ++ putU32Le (UInt32.ofNat restartPoints.length)) T
      (putU32Le (UInt32.ofNat typeIndex.length) ++ putU32Le tableId)
    have hstart : entries.length + R.length + 4 =
        (entries ++ R ++ putU32Le (UInt32.ofNat restartPoints.length)).length := by
      simp only [List.length_append, putU32Le_length]
    have hend : buf.length - 8 =
        (entries ++ R ++ putU32Le (UInt32.ofNat restartPoints.length)).length + T.length := by
      simp only [List.length_append, putU32Le_length]
      omega
    rw [hstart, hend, show buf = entries ++ R ++ putU32Le (UInt32.ofNat restartPoints.length) ++
      T ++ (putU32Le (UInt32.ofNat typeIndex.length) ++ putU32Le tableId) by simp [hbuf]]
    exact this
  have hrestarts : slice buf (entries.length, entries.length + R.length) = some R := by
    have := slice_append entries R (putU32Le (UInt32.ofNat restartPoints.length) ++ T ++
      putU32Le (UInt32.ofNat typeIndex.length) ++ putU32Le tableId)
    rw [show buf = entries ++ R ++ (putU32Le (UInt32.ofNat restartPoints.length) ++ T ++
      putU32Le (UInt32.ofNat typeIndex.length) ++ putU32Le tableId) by simp [hbuf]]
    exact this
  have hreadIndex : (readMany readTypeIndexEntry typeIndex.length).run T = some (typeIndex, []) := by
    simpa [hT] using readMany_run readTypeIndexEntry_readsBack typeIndex (fun _ _ => trivial) []
  have hreadRestarts : (readMany getU32Le restartPoints.length).run R = some (restartPoints, []) := by
    have hback : ReadsBack getU32Le putU32Le fun _ => True := fun x _ s => getU32Le_run x s
    simpa [hR] using readMany_run hback restartPoints (fun _ _ => trivial) []
  simp only [Block.decodeFromRaw, hnIndex, htid, hdl, Nat.add_sub_cancel, hnRestarts, hdl',
    hindex, hrestarts, show ¬ buf.length < 8 by omega,
    show ¬ buf.length < 4 + (4 + typeIndex.length * 5) by omega,
    show ¬ entries.length + R.length + 4 < 4 by omega,
    show ¬ entries.length + R.length + 4 < 4 + restartPoints.length * 4 by omega, if_false]
  simp only [Option.bind_eq_bind, Option.bind_some, hreadIndex, hreadRestarts]
  cases assignLenTypes typeIndex 0 restartPoints <;> rfl

/-- An uncompressed block with its checksum decodes as its raw bytes. -/
theorem Block.decode_none (decompress : CompressionAlgorithm → List UInt8 → Except String (List UInt8))
    (xxhash64Checksum : List UInt8 → UInt64) (raw : List UInt8) :
    Block.decode decompress xxhash64Checksum (raw ++ putU8 CompressionAlgorithm.none.toU8 ++
        putU64Le (xxhash64Checksum (raw ++ putU8 CompressionAlgorithm.none.toU8))) =
      (Block.decodeFromRaw raw).map .ok := by
  set data := raw ++ putU8 CompressionAlgorithm.none.toU8 with hdata
  have hlen : (data ++ putU64Le (xxhash64Checksum data)).length = raw.length + 9 := by
    simp [hdata]
  have hchecksum : UInt64.ofNat (decodeLE ((data ++ putU64Le (xxhash64Checksum data)).drop
      (raw.length + 9 - 8))) = xxhash64Checksum data := by
    rw [show raw.length + 9 - 8 = data.length by simp [hdata], List.drop_left]
    simp [putU64Le, decodeLE_encodeLE]
  have htake : (data ++ putU64Le (xxhash64Checksum data)).take (raw.length + 9 - 8) = data := by
    rw [show raw.length + 9 - 8 = data.length by simp [hdata], List.take_left]
  have hraw : (data ++ putU64Le (xxhash64Checksum data)).take (raw.length + 9 - 9) = raw := by
    simp [hdata, List.append_assoc]
  have hbyte : (decodeLE (((data ++ putU64Le (xxhash64Checksum data)).drop
      (raw.length + 9 - 9)).take 1)).toUInt8 = CompressionAlgorithm.none.toU8 := by
    simp [hdata, List.append_assoc, putU8, CompressionAlgorithm.toU8, decodeLE, decodeBE]
  simp only [Block.decode, hlen, hchecksum, htake, hraw, hbyte, show ¬ raw.length + 9 < 9 by omega,
    if_false, ne_eq, not_true_eq_false]
  rfl

end RisingWave.Hummock
