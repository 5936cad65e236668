import RisingWave.Common.ValueEncoding

/-!
# Column-aware row encoding

`util/value_encoding/column_aware_row_encoding.rs`. A row is written as a flag byte, the
number of datums as a `u32`, the column ids, one offset per datum into the data, and the data:
the values one after another, with nothing for a NULL and no null tag. The flag's two low bits
give the width of the offsets, the narrowest that holds the last one.

A reader built for another schema looks up each written column id among the ones it needs and
decodes that column's bytes, from its offset to the next one or to the end; a column whose
bytes are empty is NULL. Needed columns that were not written get their default.

A column id is the four bytes `put_i32_le` writes of its `i32`; only its equality is read.
-/

namespace RisingWave.Common.ColumnAware

open ByteCodec ByteBuf

/-- `ColumnId`, as the bits of its `i32`. -/
abbrev ColumnId := UInt32

/-- `Flag::EMPTY`, set in every flag written. -/
def Flag.EMPTY : UInt8 := 0x80

/-- `Flag::OFFSET8`. -/
def Flag.OFFSET8 : UInt8 := 0x01

/-- `Flag::OFFSET16`. -/
def Flag.OFFSET16 : UInt8 := 0x02

/-- `Flag::OFFSET32`. -/
def Flag.OFFSET32 : UInt8 := 0x03

/-- `Flag::from_bits`: `none` when a bit outside the flags is set. -/
def Flag.fromBits (bits : UInt8) : Option UInt8 :=
  if bits &&& ~~~(Flag.EMPTY ||| Flag.OFFSET8 ||| Flag.OFFSET16 ||| Flag.OFFSET32) = 0 then
    some bits
  else none

variable {D J : Type} (rd : RustDecimalCodec D) (js : JsonbCodec J) (chrono : Chrono)

/-! ## Serializing -/

/-- `RowEncoding`. -/
structure RowEncoding where
  flag : UInt8
  offsets : List UInt8
  buf : List UInt8

/-- `RowEncoding::new`. -/
def RowEncoding.new : RowEncoding := ⟨Flag.EMPTY, [], []⟩

/-- `RowEncoding::set_offsets`: every offset in the narrowest width that holds `max_offset`;
past `u32::MAX` it is `unreachable!`. -/
def RowEncoding.setOffsets (self : RowEncoding) (usizeOffsets : List ℕ) (maxOffset : ℕ) :
    Option RowEncoding :=
  if maxOffset ≤ 0xFF then
    some { self with flag := self.flag ||| Flag.OFFSET8,
                     offsets := self.offsets ++ usizeOffsets.flatMap fun m => putU8 (UInt8.ofNat m) }
  else if maxOffset ≤ 0xFFFF then
    some { self with flag := self.flag ||| Flag.OFFSET16,
                     offsets := self.offsets ++ usizeOffsets.flatMap fun m => putU16Le (UInt16.ofNat m) }
  else if maxOffset ≤ 0xFFFFFFFF then
    some { self with flag := self.flag ||| Flag.OFFSET32,
                     offsets := self.offsets ++ usizeOffsets.flatMap fun m => putU32Le (UInt32.ofNat m) }
  else none

/-- The loop of `RowEncoding::encode`: each datum's offset is the length of the buffer before
it, and a NULL writes nothing. -/
def encodeLoop : List (Option (ScalarImpl D J)) → List ℕ × List UInt8 → List ℕ × List UInt8
  | [], acc => acc
  | datum :: datums, (offsetUsize, buf) =>
    encodeLoop datums (offsetUsize ++ [buf.length], match datum with
      | some v => buf ++ serializeScalar rd js v
      | none => buf)

/-- `RowEncoding::encode`; a row without columns panics. -/
def RowEncoding.encode (self : RowEncoding) (datumRefs : List (Option (ScalarImpl D J))) :
    Option RowEncoding :=
  let (offsetUsize, buf) := encodeLoop rd js datumRefs ([], self.buf)
  match offsetUsize.getLast? with
  | some maxOffset => { self with buf := buf }.setOffsets offsetUsize maxOffset
  | none => none

/-- `Serializer`. -/
structure Serializer where
  encodedColumnIds : List UInt8
  datumNum : UInt32

/-- `Serializer::new`. -/
def Serializer.new (columnIds : List ColumnId) : Serializer :=
  ⟨columnIds.flatMap putU32Le, UInt32.ofNat columnIds.length⟩

/-- `Serializer::serialize_inner`. -/
def Serializer.serializeInner (self : Serializer) (encoding : RowEncoding) : List UInt8 :=
  putU8 encoding.flag ++ putU32Le self.datumNum ++ self.encodedColumnIds ++ encoding.offsets ++
    encoding.buf

/-- `Serializer::serialize`; a row of another length panics. -/
def Serializer.serialize (self : Serializer) (row : List (Option (ScalarImpl D J))) :
    Option (List UInt8) :=
  if row.length ≠ self.datumNum.toNat then none
  else (RowEncoding.new.encode rd js row).map self.serializeInner

/-! ## Deserializing -/

/-- What may panic (`none`) or fail with a `ValueEncodingError`. -/
abbrev Fallible (α : Type) := ExceptT ValueEncodingError Option α

/-- `Deserializer`: the needed column ids with their indices, in the order collected into the
`BTreeMap`, the schema of the needed columns, and their defaults. -/
structure Deserializer (D J : Type) where
  neededColumnIds : List (ColumnId × ℕ)
  schema : List DataType
  defaultColumnValues : List (ℕ × Option (ScalarImpl D J))

/-- `Deserializer::new`; ids and schema of different lengths panic. -/
def Deserializer.new (columnIds : List ColumnId) (schema : List DataType)
    (columnWithDefault : List (ℕ × Option (ScalarImpl D J))) : Option (Deserializer D J) :=
  if columnIds.length ≠ schema.length then none
  else some ⟨columnIds.zipIdx, schema, columnWithDefault⟩

/-- `BTreeMap::get` on the needed column ids: the last index collected for the id. -/
def Deserializer.get (self : Deserializer D J) (id : ColumnId) : Option ℕ :=
  (self.neededColumnIds.reverse.find? (·.1 == id)).map (·.2)

/-- `deserialize_width`; another width is `unreachable!`. -/
def deserializeWidth (len : ℕ) : Reader ℕ :=
  match len with
  | 1 => do pure (← getU8).toNat
  | 2 => do pure (← getU16Le).toNat
  | 4 => do pure (← getU32Le).toNat
  | _ => failure

/-- `deserialize_value` on a slice of its own; what the slice has past the value is dropped. -/
def readValueIn (ty : DataType) (bytes : List UInt8) : Fallible (ScalarImpl D J) :=
  ExceptT.mk (((deserializeValue rd js chrono ty).run.run bytes).map (·.1))

/-- The datum of the `i`-th written column, from its offset to the next column's or to the end
of the data; equal offsets, or the last offset at the end of the data, are NULL. -/
def Deserializer.decodeColumn (self : Deserializer D J) (decodedIdx offsetBytes datumNum : ℕ)
    (offsets data : List UInt8) (i : ℕ) : Fallible (Option (ScalarImpl D J)) := do
  let thisOffsetStartIdx := i * offsetBytes
  let thisOffsetSlice ← slice offsets thisOffsetStartIdx (thisOffsetStartIdx + offsetBytes)
  let (thisOffset, _) ← (deserializeWidth offsetBytes).run thisOffsetSlice
  if i + 1 < datumNum then
    let nextOffsetSlice ← slice offsets (thisOffsetStartIdx + offsetBytes)
      (thisOffsetStartIdx + 2 * offsetBytes)
    let (nextOffset, _) ← (deserializeWidth offsetBytes).run nextOffsetSlice
    if thisOffset = nextOffset then pure none
    else
      let dataSlice ← slice data thisOffset nextOffset
      let ty ← (self.schema[decodedIdx]? : Option DataType)
      some <$> readValueIn rd js chrono ty dataSlice
  else if thisOffset = data.length then pure none
  else
    let dataSlice ← sliceFrom data thisOffset
    let ty ← (self.schema[decodedIdx]? : Option DataType)
    some <$> readValueIn rd js chrono ty dataSlice

/-- One pass of the loop of `deserialize`, over the `i`-th written column: its id is read,
and a needed column is decoded into its place and marked as contained. -/
def Deserializer.deserializeStep (self : Deserializer D J) (offsetBytes datumNum : ℕ)
    (offsets data : List UInt8) (st : List UInt8 × List (Option (ScalarImpl D J)) × List ℕ)
    (i : ℕ) : Fallible (List UInt8 × List (Option (ScalarImpl D J)) × List ℕ) := do
  let (encodedBytes, datums, containedIndices) := st
  let (thisId, encodedBytes) ← getU32Le.run encodedBytes
  match self.get thisId with
  | some decodedIdx =>
    let containedIndices := containedIndices.insert decodedIdx
    let datum ← self.decodeColumn rd js chrono decodedIdx offsetBytes datumNum offsets data i
    if decodedIdx < datums.length then
      pure (encodedBytes, datums.set decodedIdx datum, containedIndices)
    else ExceptT.lift none
  | none => pure (encodedBytes, datums, containedIndices)

/-- The defaults loop of `deserialize`: a default fills a needed column that was not written
and is still NULL; an index past the schema panics. -/
def fillDefaults (containedIndices : List ℕ) :
    List (Option (ScalarImpl D J)) → List (ℕ × Option (ScalarImpl D J)) →
      Option (List (Option (ScalarImpl D J)))
  | datums, [] => some datums
  | datums, (id, datum) :: rest =>
    if id ∈ containedIndices then fillDefaults containedIndices datums rest
    else match datums[id]? with
      | some none => fillDefaults containedIndices (datums.set id datum) rest
      | some (some _) => fillDefaults containedIndices datums rest
      | none => none

/-- `Deserializer::deserialize`; an unknown flag bit panics, a flag without a width is
`InvalidFlag`. -/
def Deserializer.deserialize (self : Deserializer D J) (encodedBytes : List UInt8) :
    Option (Except ValueEncodingError (List (Option (ScalarImpl D J)))) := ExceptT.run do
  let (flagBits, encodedBytes) ← getU8.run encodedBytes
  let flag ← Flag.fromBits flagBits
  let offsetBytes ← match flag &&& ~~~Flag.EMPTY with
    | 0x01 => pure 1
    | 0x02 => pure 2
    | 0x03 => pure 4
    | _ => throw (.invalidFlag flag)
  let (datumNum, encodedBytes) ← getU32Le.run encodedBytes
  let datumNum := datumNum.toNat
  let offsetsStartIdx := 4 * datumNum
  let dataStartIdx := offsetsStartIdx + datumNum * offsetBytes
  let offsets ← slice encodedBytes offsetsStartIdx dataStartIdx
  let data ← sliceFrom encodedBytes dataStartIdx
  let (_, datums, containedIndices) ← (List.range datumNum).foldlM
    (self.deserializeStep rd js chrono offsetBytes datumNum offsets data)
    (encodedBytes, List.replicate self.schema.length none, [])
  fillDefaults containedIndices datums self.defaultColumnValues

/-! ## A value written as no bytes -/

/-- A struct without fields is written as no bytes: the row of it alone is the header, the
column id `0` and the offset `0`. -/
theorem serialize_emptyStruct :
    (Serializer.new [0]).serialize rd js [some (.struct [])] =
      some [0x81, 1, 0, 0, 0, 0, 0, 0, 0, 0] := by
  simp only [Serializer.serialize, RowEncoding.encode, encodeLoop, serializeScalar,
    serializeDatums]
  rfl

/-- Such a row is read back with the struct as NULL: the last column's offset is at the end of
the data. -/
theorem emptyStruct_read_back_as_null :
    ((Serializer.new [0]).serialize rd js [some (.struct [])]).bind (fun bytes =>
      (Deserializer.new [0] [.struct []] []).bind fun de => de.deserialize rd js chrono bytes) =
      some (.ok [none]) := by
  rw [serialize_emptyStruct]
  rfl

end RisingWave.Common.ColumnAware
