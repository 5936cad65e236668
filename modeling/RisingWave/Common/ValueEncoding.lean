import Mathlib
import RisingWave.Lib.ByteBuf

/-!
# Value encoding

`util/value_encoding/mod.rs`. A datum is a null tag, `0` for NULL and `1` before the value;
a value is written by its type, fixed-width fields little-endian, strings and byte strings
after their length as a `u32`, a struct as the datums of its fields and a list as its length
then the datums of its elements. `deserialize_value` reads a value back by its `DataType`.

The third-party parts are parameters: `rust_decimal`'s sixteen bytes of a decimal, the
`JsonbVal` value serializer, and which `chrono` values the date and time constructors accept.
A float is its bits, an integer its two's complement bits. A struct type is its field types,
all that value encoding reads of it. A panic is `none`; an `Err` is a `ValueEncodingError`.
-/

namespace RisingWave.Common

open ByteCodec ByteBuf

/-- `DataType`. -/
inductive DataType where
  | boolean
  | int16
  | int32
  | int64
  | float32
  | float64
  | decimal
  | date
  | varchar
  | time
  | timestamp
  | timestamptz
  | interval
  | struct (fields : List DataType)
  | list (item : DataType)
  | bytea
  | jsonb
  | serial
  | int256
  deriving Repr

/-- `Decimal`, over the `rust_decimal` decimal `D`. -/
inductive Decimal (D : Type) where
  | negativeInf
  | normalized (d : D)
  | positiveInf
  | naN
  deriving DecidableEq, Repr

/-- `ScalarImpl`, over the decimals `D` and the JSONB values `J`. A datum is an
`Option ScalarImpl`. -/
inductive ScalarImpl (D J : Type) where
  | int16 (v : UInt16)
  | int32 (v : UInt32)
  | int64 (v : UInt64)
  | int256 (v : BitVec 256)
  | float32 (bits : UInt32)
  | float64 (bits : UInt64)
  | utf8 (v : String)
  | bool (v : Bool)
  | decimal (v : Decimal D)
  | interval (months days : UInt32) (usecs : UInt64)
  | date (days : UInt32)
  | time (secs nano : UInt32)
  | timestamp (secs : UInt64) (nsecs : UInt32)
  | timestamptz (micros : UInt64)
  | jsonb (v : J)
  | serial (v : UInt64)
  | struct (fields : List (Option (ScalarImpl D J)))
  | list (values : List (Option (ScalarImpl D J)))
  | bytea (v : List UInt8)
  deriving Repr

/-- `ValueEncodingError`, the variants these functions return. -/
inductive ValueEncodingError where
  | invalidBoolEncoding (value : UInt8)
  | invalidUtf8
  | invalidDateEncoding (days : UInt32)
  | invalidTimestampEncoding (secs : UInt64) (nsecs : UInt32)
  | invalidTimeEncoding (secs nano : UInt32)
  | invalidTagEncoding (tag : UInt8)
  | invalidJsonbEncoding
  | invalidFlag (flag : UInt8)
  deriving DecidableEq, Repr

/-- What value encoding takes of `rust_decimal`: `serialize` and `deserialize`. -/
structure RustDecimalCodec (D : Type) where
  serialize : D → List UInt8
  deserialize : List UInt8 → D

/-- The `JsonbVal` value serializer and deserializer. -/
structure JsonbCodec (J : Type) where
  valueSerialize : J → List UInt8
  valueDeserialize : List UInt8 → Option J

/-- Which fields `chrono` builds a value of: `Date::with_days`, `Time::with_secs_nano` and
`Timestamp::with_secs_nsecs`. -/
structure Chrono where
  withDays : UInt32 → Bool
  withSecsNano : UInt32 → UInt32 → Bool
  withSecsNsecs : UInt64 → UInt32 → Bool

variable {D J : Type} (rd : RustDecimalCodec D) (js : JsonbCodec J) (chrono : Chrono)

/-! ## Serializing -/

/-- `Decimal::unordered_serialize`: a special value in the first byte, which `rust_decimal`
leaves `0`. -/
def Decimal.unorderedSerialize : Decimal D → List UInt8
  | .normalized d => rd.serialize d
  | .naN => 1 :: List.replicate 15 0
  | .positiveInf => 2 :: List.replicate 15 0
  | .negativeInf => 3 :: List.replicate 15 0

/-- `serialize_str`: the length as a `u32`, then the bytes. -/
def serializeStr (bytes : List UInt8) : List UInt8 :=
  putU32Le (UInt32.ofNat bytes.length) ++ bytes

mutual

/-- `serialize_scalar`. -/
def serializeScalar : ScalarImpl D J → List UInt8
  | .int16 v => putU16Le v
  | .int32 v => putU32Le v
  | .int64 v => putU64Le v
  | .int256 v => encodeLE 32 v.toNat
  | .serial v => putU64Le v
  | .float32 bits => putU32Le bits
  | .float64 bits => putU64Le bits
  | .utf8 v => serializeStr v.toByteArray.data.toList
  | .bytea v => serializeStr v
  | .bool v => putU8 (if v then 1 else 0)
  | .decimal v => v.unorderedSerialize rd
  | .interval months days usecs => putU32Le months ++ putU32Le days ++ putU64Le usecs
  | .date days => putU32Le days
  | .timestamp secs nsecs => putU64Le secs ++ putU32Le nsecs
  | .timestamptz micros => putU64Le micros
  | .time secs nano => putU32Le secs ++ putU32Le nano
  | .jsonb v => serializeStr (js.valueSerialize v)
  | .struct fields => serializeDatums fields
  | .list values => putU32Le (UInt32.ofNat values.length) ++ serializeDatums values

/-- `serialize_datum_into`. -/
def serializeDatum : Option (ScalarImpl D J) → List UInt8
  | some d => putU8 1 ++ serializeScalar d
  | none => putU8 0

/-- `serialize_datum_into` of each datum in turn. -/
def serializeDatums : List (Option (ScalarImpl D J)) → List UInt8
  | [] => []
  | d :: ds => serializeDatum d ++ serializeDatums ds

end

/-! ## Size estimates -/

/-- `estimate_serialize_str_size`. -/
def estimateSerializeStrSize (bytes : List UInt8) : ℕ := 4 + bytes.length

/-- `estimate_serialize_decimal_size`. -/
def estimateSerializeDecimalSize : ℕ := 16

/-- `estimate_serialize_interval_size`. -/
def estimateSerializeIntervalSize : ℕ := 4 + 4 + 8

/-- `estimate_serialize_date_size`. -/
def estimateSerializeDateSize : ℕ := 4

/-- `estimate_serialize_timestamp_size`. -/
def estimateSerializeTimestampSize : ℕ := 8 + 4

/-- `estimate_serialize_time_size`. -/
def estimateSerializeTimeSize : ℕ := 4 + 4

mutual

/-- `estimate_serialize_scalar_size`. -/
def estimateSerializeScalarSize : ScalarImpl D J → ℕ
  | .int16 _ => 2
  | .int32 _ => 4
  | .int64 _ => 8
  | .int256 _ => 32
  | .serial _ => 8
  | .float32 _ => 4
  | .float64 _ => 8
  | .utf8 v => estimateSerializeStrSize v.toByteArray.data.toList
  | .bytea v => estimateSerializeStrSize v
  | .bool _ => 1
  | .decimal _ => estimateSerializeDecimalSize
  | .interval .. => estimateSerializeIntervalSize
  | .date _ => estimateSerializeDateSize
  | .timestamp .. => estimateSerializeTimestampSize
  | .timestamptz _ => 8
  | .time .. => estimateSerializeTimeSize
  | .jsonb _ => 8
  | .struct fields => estimateSerializeSizeInner fields
  | .list values => 4 + estimateSerializeSizeInner values

/-- `estimate_serialize_datum_size`. -/
def estimateSerializeDatumSize : Option (ScalarImpl D J) → ℕ
  | some d => 1 + estimateSerializeScalarSize d
  | none => 1

/-- `estimate_serialize_size_inner` of a `StructRef` or a `ListRef`: the sum of the estimates
of its datums. -/
def estimateSerializeSizeInner : List (Option (ScalarImpl D J)) → ℕ
  | [] => 0
  | d :: ds => estimateSerializeDatumSize d + estimateSerializeSizeInner ds

end

/-- `try_get_exact_serialize_datum_size`, by the type of the values of the array, which its
`ArrayImpl` variant gives. -/
def tryGetExactSerializeDatumSize (ty : DataType) : Option ℕ :=
  (match ty with
    | .int16 => some 2
    | .int32 => some 4
    | .int64 => some 8
    | .serial => some 8
    | .float32 => some 4
    | .float64 => some 8
    | .boolean => some 1
    | .jsonb => some 8
    | .decimal => some estimateSerializeDecimalSize
    | .interval => some estimateSerializeIntervalSize
    | .date => some estimateSerializeDateSize
    | .timestamp => some estimateSerializeTimestampSize
    | .time => some estimateSerializeTimeSize
    | _ => none).map (· + 1)

/-! ## Deserializing -/

/-- The reader of value encoding. -/
abbrev Decoder (α : Type) := ReaderE ValueEncodingError α

/-- `Decimal::unordered_deserialize`; a first byte past `3` is `unreachable!`, `none`. -/
def Decimal.unorderedDeserialize (bytes : List UInt8) : Option (Decimal D) :=
  match (bytes[0]? : Option UInt8) with
  | some 0 => some (.normalized (rd.deserialize bytes))
  | some 1 => some .naN
  | some 2 => some .positiveInf
  | some 3 => some .negativeInf
  | _ => none

/-- `deserialize_bytea`: `copy_to_slice` panics on a shorter buffer. -/
def deserializeBytea : Reader (List UInt8) := do
  let len ← getU32Le
  take len.toNat

/-- `deserialize_str`. -/
def deserializeStr : Decoder String := do
  let bytes ← deserializeBytea
  match String.fromUTF8? bytes.toByteArray with
  | some s => pure s
  | none => throw .invalidUtf8

/-- `deserialize_bool`. -/
def deserializeBool : Decoder Bool := do
  let value ← getU8
  match value with
  | 1 => pure true
  | 0 => pure false
  | _ => throw (.invalidBoolEncoding value)

/-- `deserialize_decimal`; `unordered_deserialize` panics on a first byte past `3`. -/
def deserializeDecimal : Decoder (Decimal D) := do
  let bytes ← take 16
  match Decimal.unorderedDeserialize rd bytes with
  | some d => pure d
  | none => (failure : Reader (Decimal D))

/-- `deserialize_date`. -/
def deserializeDate : Decoder UInt32 := do
  let days ← getU32Le
  if chrono.withDays days then pure days else throw (.invalidDateEncoding days)

/-- `deserialize_time`. -/
def deserializeTime : Decoder (UInt32 × UInt32) := do
  let secs ← getU32Le
  let nano ← getU32Le
  if chrono.withSecsNano secs nano then pure (secs, nano)
  else throw (.invalidTimeEncoding secs nano)

/-- `deserialize_timestamp`. -/
def deserializeTimestamp : Decoder (UInt64 × UInt32) := do
  let secs ← getU64Le
  let nsecs ← getU32Le
  if chrono.withSecsNsecs secs nsecs then pure (secs, nsecs)
  else throw (.invalidTimestampEncoding secs nsecs)

/-- `inner_deserialize_datum` over the reader of the value: the null tag, then the value. -/
def readDatum {α : Type} (readValue : Decoder α) : Decoder (Option α) := do
  let nullTag ← getU8
  match nullTag with
  | 0 => pure none
  | 1 => some <$> readValue
  | _ => throw (.invalidTagEncoding nullTag)

mutual

/-- `deserialize_value`. -/
def deserializeValue : DataType → Decoder (ScalarImpl D J)
  | .int16 => do pure (.int16 (← getU16Le))
  | .int32 => do pure (.int32 (← getU32Le))
  | .int64 => do pure (.int64 (← getU64Le))
  | .int256 => do
    let bytes ← take 32
    pure (.int256 (BitVec.ofNat 256 (decodeLE bytes)))
  | .serial => do pure (.serial (← getU64Le))
  | .float32 => do pure (.float32 (← getU32Le))
  | .float64 => do pure (.float64 (← getU64Le))
  | .varchar => do pure (.utf8 (← deserializeStr))
  | .boolean => do pure (.bool (← deserializeBool))
  | .decimal => do pure (.decimal (← deserializeDecimal rd))
  | .interval => do
    let months ← getU32Le
    let days ← getU32Le
    let usecs ← getU64Le
    pure (.interval months days usecs)
  | .time => do
    let (secs, nano) ← deserializeTime chrono
    pure (.time secs nano)
  | .timestamp => do
    let (secs, nsecs) ← deserializeTimestamp chrono
    pure (.timestamp secs nsecs)
  | .timestamptz => do pure (.timestamptz (← getU64Le))
  | .date => do pure (.date (← deserializeDate chrono))
  | .jsonb => do
    let bytes ← deserializeBytea
    match js.valueDeserialize bytes with
    | some v => pure (.jsonb v)
    | none => throw .invalidJsonbEncoding
  | .struct fields => do pure (.struct (← deserializeStruct fields))
  | .bytea => do pure (.bytea (← deserializeBytea))
  | .list item => do
    let len ← getU32Le
    pure (.list (← ReaderE.readMany (readDatum (deserializeValue item)) len.toNat))

/-- The loop of `deserialize_struct`: a datum of each field type. -/
def deserializeStruct : List DataType → Decoder (List (Option (ScalarImpl D J)))
  | [] => pure []
  | ty :: tys => do
    let d ← readDatum (deserializeValue ty)
    let ds ← deserializeStruct tys
    pure (d :: ds)

end

/-- `inner_deserialize_datum`. -/
def innerDeserializeDatum (ty : DataType) : Decoder (Option (ScalarImpl D J)) :=
  readDatum (deserializeValue rd js chrono ty)

/-- `deserialize_datum`: what is left after the datum is dropped. -/
def deserializeDatum (data : List UInt8) (ty : DataType) :
    Option (Except ValueEncodingError (Option (ScalarImpl D J))) :=
  ((innerDeserializeDatum rd js chrono ty).run.run data).map (·.1)

/-! ## Rows -/

/-- `BasicSerializer::serialize`: the datums of the row one after another. -/
def BasicSerializer.serialize (row : List (Option (ScalarImpl D J))) : List UInt8 :=
  serializeDatums rd js row

/-- `RowDeserializer::deserialize`: a datum of each column type in turn; bytes left over are
not looked at. -/
def RowDeserializer.deserialize (dataTypes : List DataType) (data : List UInt8) :
    Option (Except ValueEncodingError (List (Option (ScalarImpl D J)))) :=
  ((dataTypes.mapM (innerDeserializeDatum rd js chrono)).run.run data).map (·.1)

/-! ## What is written back -/

/-- The `rust_decimal` facts value encoding rests on: `serialize` gives sixteen bytes, the first
`0` (the lower flag bits are unused), and `deserialize` inverts it. -/
structure RustDecimalCodec.Lawful (rd : RustDecimalCodec D) : Prop where
  length_serialize : ∀ d, (rd.serialize d).length = 16
  head_serialize : ∀ d, (rd.serialize d)[0]? = some 0
  deserialize_serialize : ∀ d, rd.deserialize (rd.serialize d) = d

/-- `JsonbVal::value_deserialize` inverts `value_serialize`. -/
structure JsonbCodec.Lawful (js : JsonbCodec J) : Prop where
  valueDeserialize_valueSerialize : ∀ v, js.valueDeserialize (js.valueSerialize v) = some v

mutual

/-- `v` is a value of `ty` that value encoding can write: its dates and times are ones `chrono`
builds, and every length written as a `u32` is below `2 ^ 32`. -/
inductive FitsValue : DataType → ScalarImpl D J → Prop
  | int16 (v : UInt16) : FitsValue .int16 (.int16 v)
  | int32 (v : UInt32) : FitsValue .int32 (.int32 v)
  | int64 (v : UInt64) : FitsValue .int64 (.int64 v)
  | int256 (v : BitVec 256) : FitsValue .int256 (.int256 v)
  | serial (v : UInt64) : FitsValue .serial (.serial v)
  | float32 (bits : UInt32) : FitsValue .float32 (.float32 bits)
  | float64 (bits : UInt64) : FitsValue .float64 (.float64 bits)
  | utf8 {v : String} : v.utf8ByteSize < 2 ^ 32 → FitsValue .varchar (.utf8 v)
  | bytea {v : List UInt8} : v.length < 2 ^ 32 → FitsValue .bytea (.bytea v)
  | bool (v : Bool) : FitsValue .boolean (.bool v)
  | decimal (v : Decimal D) : FitsValue .decimal (.decimal v)
  | interval (months days : UInt32) (usecs : UInt64) :
      FitsValue .interval (.interval months days usecs)
  | date {days : UInt32} : chrono.withDays days → FitsValue .date (.date days)
  | timestamp {secs : UInt64} {nsecs : UInt32} :
      chrono.withSecsNsecs secs nsecs → FitsValue .timestamp (.timestamp secs nsecs)
  | timestamptz (micros : UInt64) : FitsValue .timestamptz (.timestamptz micros)
  | time {secs nano : UInt32} : chrono.withSecsNano secs nano → FitsValue .time (.time secs nano)
  | jsonb {v : J} : (js.valueSerialize v).length < 2 ^ 32 → FitsValue .jsonb (.jsonb v)
  | struct {fields : List DataType} {values : List (Option (ScalarImpl D J))} :
      FitsDatums fields values → FitsValue (.struct fields) (.struct values)
  | list {item : DataType} {values : List (Option (ScalarImpl D J))} :
      values.length < 2 ^ 32 → FitsDatums (List.replicate values.length item) values →
      FitsValue (.list item) (.list values)

/-- A datum of `ty` that value encoding can write: NULL, or such a value. -/
inductive FitsDatum : DataType → Option (ScalarImpl D J) → Prop
  | none (ty : DataType) : FitsDatum ty none
  | some {ty : DataType} {v : ScalarImpl D J} : FitsValue ty v → FitsDatum ty (some v)

/-- Datums of the types, one each. -/
inductive FitsDatums : List DataType → List (Option (ScalarImpl D J)) → Prop
  | nil : FitsDatums [] []
  | cons {ty : DataType} {tys : List DataType} {d : Option (ScalarImpl D J)}
      {ds : List (Option (ScalarImpl D J))} :
      FitsDatum ty d → FitsDatums tys ds → FitsDatums (ty :: tys) (d :: ds)

end

/-! ## Reading back what is written -/

theorem fromUTF8?_toByteArray (s : String) : String.fromUTF8? s.toByteArray = some s := by
  rw [String.fromUTF8?, dif_pos s.isValidUTF8]
  rfl

theorem toByteArray_data_toList (a : ByteArray) : a.data.toList.toByteArray = a := by
  apply ByteArray.ext
  simp

theorem length_toByteArray_data (s : String) :
    s.toByteArray.data.toList.length = s.utf8ByteSize := by
  rw [Array.length_toList]
  exact String.size_toByteArray

attribute [local simp] serializeStr deserializeBytea in
theorem deserializeBytea_run {v : List UInt8} (hv : v.length < 2 ^ 32) (s : List UInt8) :
    deserializeBytea.run (serializeStr v ++ s) = some (v, s) := by
  rw [serializeStr, List.append_assoc, deserializeBytea, StateT.run_bind, getU32Le_run]
  simp [toNat_ofNat_length hv, take_run]

/-- A byte string is read back cut to its length as a `u32`, which is what is written. -/
theorem deserializeBytea_serializeStr (v : List UInt8) :
    deserializeBytea.run (serializeStr v) =
      some (v.take (UInt32.ofNat v.length).toNat, v.drop (UInt32.ofNat v.length).toNat) := by
  have hle : (UInt32.ofNat v.length).toNat ≤ v.length := by
    rw [UInt32.toNat_ofNat']
    exact Nat.mod_le _ _
  rw [serializeStr, deserializeBytea, StateT.run_bind, getU32Le_run]
  exact take_run_of_le hle

theorem deserializeStr_run {v : String} (hv : v.utf8ByteSize < 2 ^ 32) (s : List UInt8) :
    deserializeStr.run.run (serializeStr v.toByteArray.data.toList ++ s) = some (.ok v, s) := by
  have hb := deserializeBytea_run (by rwa [length_toByteArray_data]) s
  simp [deserializeStr, ExceptT.run_bind, StateT.run_bind, hb, toByteArray_data_toList,
    fromUTF8?_toByteArray]

attribute [local simp] readDatum in
theorem readDatum_none_run {α : Type} (r : Decoder α) (s : List UInt8) :
    (readDatum r).run.run (putU8 0 ++ s) = some (.ok none, s) := by
  simp [readDatum, ExceptT.run_bind]

attribute [local simp] Except.map in
theorem readDatum_some_run {α : Type} {r : Decoder α} {s s' : List UInt8} {a : α}
    (h : r.run.run s = some (.ok a, s')) :
    (readDatum r).run.run (putU8 1 ++ s) = some (.ok (some a), s') := by
  simp [readDatum, ExceptT.run_bind, h, Except.map]

attribute [local simp] deserializeValue deserializeDatum innerDeserializeDatum serializeDatum
  serializeScalar in
/-- A `BYTEA` datum is read back cut to its length as a `u32`. -/
theorem deserializeDatum_bytea (v : List UInt8) :
    deserializeDatum rd js chrono (serializeDatum rd js (some (.bytea v))) .bytea =
      some (.ok (some (.bytea (v.take (UInt32.ofNat v.length).toNat)))) := by
  have hv : (deserializeValue rd js chrono .bytea).run.run (serializeStr v) =
      some (.ok (.bytea (v.take (UInt32.ofNat v.length).toNat)),
        v.drop (UInt32.ofNat v.length).toNat) := by
    simp only [deserializeValue, ExceptT.run_bind, ReaderE.run_liftM]
    simp [deserializeBytea_serializeStr]
  rw [deserializeDatum, innerDeserializeDatum, serializeDatum, serializeScalar,
    readDatum_some_run hv]
  rfl

attribute [local simp] deserializeStruct in
/-- The list loop reads the datums of a struct whose fields all have the item type. -/
theorem readMany_readDatum (item : DataType) (n : ℕ) :
    ReaderE.readMany (readDatum (deserializeValue rd js chrono item)) n =
      deserializeStruct rd js chrono (List.replicate n item) := by
  induction n with
  | zero => rfl
  | succ n ih => rw [ReaderE.readMany, ih, List.replicate_succ, deserializeStruct]

/-- `RowDeserializer` reads a row as `deserialize_struct` reads the fields of a struct. -/
theorem mapM_innerDeserializeDatum (dataTypes : List DataType) :
    dataTypes.mapM (innerDeserializeDatum rd js chrono) = deserializeStruct rd js chrono dataTypes := by
  induction dataTypes with
  | nil => rfl
  | cons ty tys ih => rw [List.mapM_cons, ih, deserializeStruct, innerDeserializeDatum]

section Decimal

variable {rd : RustDecimalCodec D} (hrd : rd.Lawful)
include hrd

theorem unorderedDeserialize_unorderedSerialize (d : Decimal D) :
    Decimal.unorderedDeserialize rd (d.unorderedSerialize rd) = some d := by
  cases d with
  | normalized d =>
    simp [Decimal.unorderedSerialize, Decimal.unorderedDeserialize, hrd.head_serialize,
      hrd.deserialize_serialize]
  | _ => rfl

theorem length_unorderedSerialize (d : Decimal D) : (d.unorderedSerialize rd).length = 16 := by
  cases d with
  | normalized d => exact hrd.length_serialize d
  | _ => rfl

theorem deserializeDecimal_run (d : Decimal D) (s : List UInt8) :
    (deserializeDecimal rd).run.run (d.unorderedSerialize rd ++ s) = some (.ok d, s) := by
  simp [deserializeDecimal, ExceptT.run_bind, StateT.run_bind,
    take_run_of_length (length_unorderedSerialize hrd d),
    unorderedDeserialize_unorderedSerialize hrd d]

end Decimal

variable {rd js chrono}

mutual

/-- A value is read back by its type, in front of any suffix; by recursion on the derivation
that the value fits the type, through the datums of structs and lists. -/
theorem deserializeValue_run (hrd : rd.Lawful) (hjs : js.Lawful) :
    ∀ {ty : DataType} {v : ScalarImpl D J}, FitsValue js chrono ty v → ∀ s : List UInt8,
      (deserializeValue rd js chrono ty).run.run (serializeScalar rd js v ++ s) = some (.ok v, s)
  | _, _, .int16 _, _ | _, _, .int32 _, _ | _, _, .int64 _, _ | _, _, .serial _, _
  | _, _, .float32 _, _ | _, _, .float64 _, _ | _, _, .timestamptz _, _
  | _, _, .interval .., _ => by
    simp [deserializeValue, serializeScalar, ExceptT.run_bind, Except.map]
  | _, _, .int256 v, _ => by
    simp [deserializeValue, serializeScalar, Except.map, take_run_of_length, decodeLE_encodeLE,
      Nat.mod_eq_of_lt v.isLt]
  | _, _, .bool v, _ => by
    cases v <;> simp [deserializeValue, serializeScalar, ExceptT.run_bind, deserializeBool,
      Except.map]
  | _, _, .utf8 hv, _ => by
    simp [deserializeValue, serializeScalar, deserializeStr_run hv, Except.map]
  | _, _, .bytea hv, _ => by
    simp [deserializeValue, serializeScalar, deserializeBytea_run hv, Except.map]
  | _, _, .decimal d, _ => by
    simp [deserializeValue, serializeScalar, deserializeDecimal_run hrd, Except.map]
  | _, _, .date h, _ => by
    simp [deserializeValue, serializeScalar, ExceptT.run_bind, deserializeDate, Except.map, h]
  | _, _, .time h, _ => by
    simp [deserializeValue, serializeScalar, ExceptT.run_bind, deserializeTime, Except.map, h]
  | _, _, .timestamp h, _ => by
    simp [deserializeValue, serializeScalar, ExceptT.run_bind, deserializeTimestamp, Except.map,
      h]
  | _, _, .jsonb hv, _ => by
    simp [deserializeValue, serializeScalar, ExceptT.run_bind, deserializeBytea_run hv,
      hjs.valueDeserialize_valueSerialize]
  | _, _, .struct h, s => by
    simp [deserializeValue, serializeScalar, deserializeStruct_run hrd hjs h s, Except.map]
  | _, _, .list hlen h, s => by
    -- the length read back is the list's, so the loop reads a struct of that many items
    simp [deserializeValue, serializeScalar, ExceptT.run_bind, toNat_ofNat_length hlen,
      readMany_readDatum, deserializeStruct_run hrd hjs h s, Except.map]

/-- A datum is read back by its type, in front of any suffix. -/
theorem readDatum_run (hrd : rd.Lawful) (hjs : js.Lawful) :
    ∀ {ty : DataType} {d : Option (ScalarImpl D J)}, FitsDatum js chrono ty d →
      ∀ s : List UInt8,
        (readDatum (deserializeValue rd js chrono ty)).run.run (serializeDatum rd js d ++ s) =
          some (.ok d, s)
  | _, _, .none _, s => readDatum_none_run _ s
  | _, _, .some h, s => by
    rw [serializeDatum, List.append_assoc]
    exact readDatum_some_run (deserializeValue_run hrd hjs h s)

/-- Datums are read back one after another by their types, in front of any suffix. -/
theorem deserializeStruct_run (hrd : rd.Lawful) (hjs : js.Lawful) :
    ∀ {tys : List DataType} {ds : List (Option (ScalarImpl D J))}, FitsDatums js chrono tys ds →
      ∀ s : List UInt8,
        (deserializeStruct rd js chrono tys).run.run (serializeDatums rd js ds ++ s) =
          some (.ok ds, s)
  | _, _, .nil, _ => rfl
  | _, _, .cons hd hds, s => by
    rw [serializeDatums, List.append_assoc, deserializeStruct,
      ReaderE.run_bind_of_run (readDatum_run hrd hjs hd _),
      ReaderE.run_bind_of_run (deserializeStruct_run hrd hjs hds s)]
    rfl

end

/-- Value encoding reads back every datum that fits its type, consuming exactly what was
written, and `RowDeserializer` reads back every row that `BasicSerializer` writes. -/
theorem value_encoding_round_trip (hrd : rd.Lawful) (hjs : js.Lawful) :
    (∀ (ty : DataType) (d : Option (ScalarImpl D J)), FitsDatum js chrono ty d →
      deserializeDatum rd js chrono (serializeDatum rd js d) ty = some (.ok d) ∧
        ∀ s, (innerDeserializeDatum rd js chrono ty).run.run (serializeDatum rd js d ++ s) =
          some (.ok d, s)) ∧
    ∀ (dataTypes : List DataType) (row : List (Option (ScalarImpl D J))),
      FitsDatums js chrono dataTypes row →
        RowDeserializer.deserialize rd js chrono dataTypes (BasicSerializer.serialize rd js row) =
          some (.ok row) := by
  refine ⟨fun ty d hd => ⟨?_, readDatum_run hrd hjs hd⟩, fun dataTypes row hrow => ?_⟩
  · have h := readDatum_run hrd hjs hd []
    rw [List.append_nil] at h
    simp [deserializeDatum, innerDeserializeDatum, h]
  · have h := deserializeStruct_run hrd hjs hrow []
    rw [List.append_nil] at h
    simp [RowDeserializer.deserialize, BasicSerializer.serialize, mapM_innerDeserializeDatum, h]

/-- A decimal codec and a JSONB codec of values with nothing in them. -/
def unitDecimal : RustDecimalCodec Unit := ⟨fun _ => List.replicate 16 0, fun _ => ()⟩

def unitJsonb : JsonbCodec Unit := ⟨fun _ => [], fun _ => some ()⟩

/-- Every date and time is one `chrono` builds. -/
def anyChrono : Chrono := ⟨fun _ => true, fun _ _ => true, fun _ _ => true⟩

theorem unitDecimal_lawful : unitDecimal.Lawful := ⟨fun _ => rfl, fun _ => rfl, fun _ => rfl⟩

theorem unitJsonb_lawful : unitJsonb.Lawful := ⟨fun _ => rfl⟩

/-- `JsonbVal`'s value serialization over JSON values given by their text: the pgwire binary
form, a version byte `1` and then the text. -/
def textJsonb : JsonbCodec String :=
  ⟨fun text => 1 :: text.toByteArray.data.toList, fun bytes =>
    match bytes with
    | 1 :: text => String.fromUTF8? text.toByteArray
    | _ => none⟩

theorem textJsonb_lawful : textJsonb.Lawful :=
  ⟨fun text => by simp [textJsonb, toByteArray_data_toList, fromUTF8?_toByteArray]⟩

theorem value_encoding_round_trip_nestedRow :
    unitDecimal.Lawful ∧ unitJsonb.Lawful ∧
      RowDeserializer.deserialize unitDecimal unitJsonb anyChrono
          [.int16, .varchar, .struct [.date, .list .boolean]]
          (BasicSerializer.serialize unitDecimal unitJsonb
            [some (.int16 7), none,
              some (.struct [some (.date 3), some (.list [some (.bool true), none])])]) =
        some (.ok [some (.int16 7), none,
          some (.struct [some (.date 3), some (.list [some (.bool true), none])])]) :=
  ⟨unitDecimal_lawful, unitJsonb_lawful,
    (value_encoding_round_trip unitDecimal_lawful unitJsonb_lawful).2 _ _
      (.cons (.some (.int16 7)) (.cons (.none _) (.cons (.some (.struct
        (.cons (.some (.date rfl)) (.cons (.some (.list (by decide)
          (.cons (.some (.bool true)) (.cons (.none _) .nil)))) .nil)))) .nil)))⟩

/-- A `BYTEA` of `2 ^ 32` bytes is written with the length `0` and read back empty. -/
theorem deserializeDatum_bytea_two_pow_32 :
    deserializeDatum unitDecimal unitJsonb anyChrono
        (serializeDatum unitDecimal unitJsonb (some (.bytea (List.replicate (2 ^ 32) 0))))
        .bytea =
      some (.ok (some (.bytea []))) ∧ List.replicate (2 ^ 32) (0 : UInt8) ≠ [] := by
  have h0 : (UInt32.ofNat (2 ^ 32)).toNat = 0 := by decide
  refine ⟨?_, List.ne_nil_of_length_pos (by rw [List.length_replicate]; exact Nat.two_pow_pos 32)⟩
  rw [deserializeDatum_bytea, List.length_replicate, h0, List.take_zero]

/-! ## Size estimates are exact up to JSONB -/

mutual

/-- The JSONB values of a value, at any depth. -/
def ScalarImpl.jsonbValues : ScalarImpl D J → List J
  | .jsonb v => [v]
  | .struct fields => datumsJsonbValues fields
  | .list values => datumsJsonbValues values
  | _ => []

/-- The JSONB values of a datum. -/
def datumJsonbValues : Option (ScalarImpl D J) → List J
  | some v => v.jsonbValues
  | none => []

/-- The JSONB values of datums. -/
def datumsJsonbValues : List (Option (ScalarImpl D J)) → List J
  | [] => []
  | d :: ds => datumJsonbValues d ++ datumsJsonbValues ds

end

mutual

/-- The estimate of a value is the length of what is written, where its JSONB values have four
bytes; by recursion on the value, through the datums of structs and lists. -/
theorem estimateSerializeScalarSize_eq (hrd : rd.Lawful) :
    ∀ v : ScalarImpl D J, (∀ w ∈ v.jsonbValues, (js.valueSerialize w).length = 4) →
      estimateSerializeScalarSize v = (serializeScalar rd js v).length
  | .int16 _, _ | .int32 _, _ | .int64 _, _ | .int256 _, _ | .serial _, _ | .float32 _, _
  | .float64 _, _ | .bool _, _ | .interval .., _ | .date _, _ | .timestamp .., _
  | .timestamptz _, _ | .time .., _ | .bytea _, _ | .utf8 _, _ => by
    simp [estimateSerializeScalarSize, serializeScalar, estimateSerializeStrSize, serializeStr,
      estimateSerializeIntervalSize, estimateSerializeDateSize, estimateSerializeTimestampSize,
      estimateSerializeTimeSize]
  | .decimal d, _ => by
    simp [estimateSerializeScalarSize, serializeScalar, estimateSerializeDecimalSize,
      length_unorderedSerialize hrd]
  | .jsonb v, h => by
    simp [estimateSerializeScalarSize, serializeScalar, serializeStr,
      h v (by simp [ScalarImpl.jsonbValues])]
  | .struct fields, h => by
    rw [estimateSerializeScalarSize, serializeScalar]
    exact estimateSerializeSizeInner_eq hrd fields h
  | .list values, h => by
    rw [estimateSerializeScalarSize, serializeScalar, List.length_append, putU32Le_length,
      estimateSerializeSizeInner_eq hrd values h]

theorem estimateSerializeDatumSize_eq (hrd : rd.Lawful) :
    ∀ d : Option (ScalarImpl D J), (∀ w ∈ datumJsonbValues d, (js.valueSerialize w).length = 4) →
      estimateSerializeDatumSize d = (serializeDatum rd js d).length
  | none, _ => rfl
  | some v, h => by
    rw [estimateSerializeDatumSize, serializeDatum, List.length_append, putU8_length,
      estimateSerializeScalarSize_eq hrd v h]

theorem estimateSerializeSizeInner_eq (hrd : rd.Lawful) :
    ∀ ds : List (Option (ScalarImpl D J)),
      (∀ w ∈ datumsJsonbValues ds, (js.valueSerialize w).length = 4) →
      estimateSerializeSizeInner ds = (serializeDatums rd js ds).length
  | [], _ => rfl
  | d :: ds, h => by
    have hd : ∀ w ∈ datumJsonbValues d, (js.valueSerialize w).length = 4 := fun w hw =>
      h w (by simp [datumsJsonbValues, hw])
    have hds : ∀ w ∈ datumsJsonbValues ds, (js.valueSerialize w).length = 4 := fun w hw =>
      h w (by simp [datumsJsonbValues, hw])
    rw [estimateSerializeSizeInner, serializeDatums, List.length_append,
      estimateSerializeDatumSize_eq hrd d hd, estimateSerializeSizeInner_eq hrd ds hds]

end

/-- The estimate of a value of a type with an exact size is that size. -/
theorem estimateSerializeDatumSize_of_tryGetExact {ty : DataType} {k : ℕ} {v : ScalarImpl D J}
    (hk : tryGetExactSerializeDatumSize ty = some k) (hv : FitsValue js chrono ty v) :
    estimateSerializeDatumSize (some v) = k := by
  -- the table of exact sizes is the table of estimates, after the null tag
  cases hv <;> simp_all [tryGetExactSerializeDatumSize, estimateSerializeDatumSize,
    estimateSerializeScalarSize] <;> omega

/-- Value encoding's size estimates are exact for datums whose JSONB values, if any, have a
four-byte value serialization: `estimate_serialize_datum_size` is the length that
`serialize_datum` writes, and every non-NULL datum of an array with an exact size is that many
bytes. -/
theorem serialize_datum_size_exact (hrd : rd.Lawful) :
    (∀ d : Option (ScalarImpl D J), (∀ w ∈ datumJsonbValues d, (js.valueSerialize w).length = 4) →
      estimateSerializeDatumSize d = (serializeDatum rd js d).length) ∧
    ∀ (ty : DataType) (k : ℕ) (v : ScalarImpl D J), tryGetExactSerializeDatumSize ty = some k →
      FitsValue js chrono ty v → (∀ w ∈ v.jsonbValues, (js.valueSerialize w).length = 4) →
      (serializeDatum rd js (some v)).length = k := by
  refine ⟨estimateSerializeDatumSize_eq hrd, fun ty k v hk hv hjsonb => ?_⟩
  rw [← estimateSerializeDatumSize_eq hrd (some v) hjsonb]
  exact estimateSerializeDatumSize_of_tryGetExact hk hv

theorem serialize_datum_size_exact_struct :
    unitDecimal.Lawful ∧
      (serializeDatum unitDecimal unitJsonb
          (some (.struct [some (.int64 233), some (.list [some (.float64 0), none])]))).length =
        estimateSerializeDatumSize (some (.struct [some (.int64 233),
          some (.list [some (.float64 0), none])]) : Option (ScalarImpl Unit Unit)) :=
  ⟨unitDecimal_lawful, ((@serialize_datum_size_exact Unit Unit unitDecimal unitJsonb anyChrono
    unitDecimal_lawful).1 _ (by simp [datumJsonbValues, ScalarImpl.jsonbValues,
      datumsJsonbValues])).symm⟩

/-- A JSONB `null` is written in ten bytes, one more than its estimate; a NULL in an `INT`
array is written in one byte, not the five of the array's exact size. -/
theorem serialize_datum_size_inexact :
    (estimateSerializeDatumSize (some (.jsonb "null") : Option (ScalarImpl Unit String)) = 9 ∧
      (serializeDatum unitDecimal textJsonb (some (.jsonb "null"))).length = 10) ∧
    (tryGetExactSerializeDatumSize .int32 = some 5 ∧
      FitsDatum textJsonb anyChrono .int32 (none : Option (ScalarImpl Unit String)) ∧
      (serializeDatum unitDecimal textJsonb (none : Option (ScalarImpl Unit String))).length = 1) :=
  ⟨⟨rfl, by simp [serializeDatum, serializeScalar, serializeStr, textJsonb]; decide⟩,
    ⟨rfl, .none _, rfl⟩⟩

end RisingWave.Common
