import Mathlib
import RisingWave.Lib.Lex

/-!
# Memcomparable encoding of datums

`util/sort_util.rs`, `util/memcmp_encoding.rs` and `util/row_serde.rs`. An `OrderType` is a
direction and where NULLs go. `serialize_datum` writes a datum as a null tag and, when it is
not NULL, the scalar's `memcomparable` encoding; the tags put NULL where the order type says,
and a descending order sets the serializer to reverse, which inverts every byte it writes, the
tag included. `OrderedRowSerde::serialize` writes a row's datums one after another.

The encoding of a scalar is the `memcomparable` crate's, outside the repository: it is the
parameter `enc`, and what the facts below ask of it is `Lawful`: it orders as the scalars do,
and no scalar's encoding is a proper prefix of another's. The schema of an `OrderedRowSerde`
is read only by its deserializer and is left out.
-/

namespace RisingWave.Common

/-- `Direction`. -/
inductive Direction where
  | ascending
  | descending
  deriving DecidableEq, Repr

/-- `NullsAre`. -/
inductive NullsAre where
  | largest
  | smallest
  deriving DecidableEq, Repr

/-- `OrderType`. -/
structure OrderType where
  direction : Direction
  nullsAre : NullsAre
  deriving DecidableEq, Repr

namespace OrderType

/-- `OrderType::nulls_first`. -/
def nullsFirst (direction : Direction) : OrderType :=
  match direction with
  | .ascending => ⟨direction, .smallest⟩
  | .descending => ⟨direction, .largest⟩

/-- `OrderType::nulls_last`. -/
def nullsLast (direction : Direction) : OrderType :=
  match direction with
  | .ascending => ⟨direction, .largest⟩
  | .descending => ⟨direction, .smallest⟩

/-- `OrderType::ascending`: `ASC`, with the default `NullsAre::Largest`. -/
def ascending : OrderType := ⟨.ascending, .largest⟩

/-- `OrderType::descending`: `DESC`, with the default `NullsAre::Largest`, so NULLs first. -/
def descending : OrderType := ⟨.descending, .largest⟩

/-- `OrderType::descending_nulls_last`. -/
def descendingNullsLast : OrderType := nullsLast .descending

/-- `OrderType::is_ascending`. -/
def isAscending (self : OrderType) : Bool := self.direction == .ascending

/-- `OrderType::is_descending`. -/
def isDescending (self : OrderType) : Bool := self.direction == .descending

/-- `OrderType::nulls_are_largest`. -/
def nullsAreLargest (self : OrderType) : Bool := self.nullsAre == .largest

end OrderType

namespace MemcmpEncoding

variable {S : Type}

/-- The bytes a `memcomparable::Serializer` writes for `bytes` after `set_reverse(reverse)`:
reversed, it inverts each one. -/
def reverseBytes (reverse : Bool) (bytes : List UInt8) : List UInt8 :=
  if reverse then bytes.map (~~~·) else bytes

/-- `serialize_datum`, over the encoding `enc` of a scalar. -/
def serializeDatum (enc : S → List UInt8) (datum : Option S) (order : OrderType) :
    List UInt8 :=
  let (nullTagNone, nullTagSome) : UInt8 × UInt8 :=
    if order.nullsAreLargest then (1, 0) else (0, 1)
  reverseBytes order.isDescending <|
    match datum with
    | some scalar => nullTagSome :: enc scalar
    | none => [nullTagNone]

/-- `OrderedRowSerde`, without the schema. -/
structure OrderedRowSerde where
  orderTypes : List OrderType

/-- `OrderedRowSerde::prefix`: the serializer of the first `len` columns; slicing past the
columns panics. -/
def OrderedRowSerde.prefixSerde (self : OrderedRowSerde) (len : ℕ) : Option OrderedRowSerde :=
  if len = self.orderTypes.length then some self
  else if len ≤ self.orderTypes.length then some ⟨self.orderTypes.take len⟩
  else none

/-- `OrderedRowSerde::serialize`: each datum with its column's order type. -/
def OrderedRowSerde.serialize (enc : S → List UInt8) (self : OrderedRowSerde)
    (row : List (Option S)) : List UInt8 :=
  (row.zip self.orderTypes).flatMap fun (datum, order) => serializeDatum enc datum order

theorem OrderedRowSerde.prefixSerde_one {self : OrderedRowSerde} {order : OrderType}
    {orders : List OrderType} (h : self.orderTypes = order :: orders) :
    self.prefixSerde 1 = some ⟨[order]⟩ := by
  obtain ⟨orderTypes⟩ := self
  subst h
  cases orders <;> simp [OrderedRowSerde.prefixSerde]

theorem OrderedRowSerde.serialize_cons (enc : S → List UInt8) {self : OrderedRowSerde}
    {order : OrderType} {orders : List OrderType} (h : self.orderTypes = order :: orders)
    (datum : Option S) (row : List (Option S)) :
    self.serialize enc (datum :: row) =
      serializeDatum enc datum order ++ OrderedRowSerde.serialize enc ⟨orders⟩ row := by
  simp [OrderedRowSerde.serialize, h]

/-! ## The reversed serializer -/

@[simp] theorem reverseBytes_false (bytes : List UInt8) : reverseBytes false bytes = bytes := rfl

@[simp] theorem reverseBytes_true (bytes : List UInt8) :
    reverseBytes true bytes = bytes.map (~~~·) := rfl

theorem reverseBytes_cons (reverse : Bool) (b : UInt8) (bytes : List UInt8) :
    reverseBytes reverse (b :: bytes) =
      reverseBytes reverse [b] ++ reverseBytes reverse bytes := by
  cases reverse <;> rfl

theorem complement_injective : Function.Injective (fun b : UInt8 => ~~~b) :=
  fun _ _ h => List.injective_of_lt_iff UInt8.complement_lt_complement_iff h

theorem reverseBytes_prefix_iff (reverse : Bool) (a b : List UInt8) :
    reverseBytes reverse a <+: reverseBytes reverse b ↔ a <+: b := by
  cases reverse
  · rfl
  · exact List.prefix_map_iff_of_injective complement_injective

/-- Between byte strings neither of which starts the other, the reversed serializer
reverses the order. -/
theorem reverseBytes_lt_iff {a b : List UInt8} (hab : ¬ a <+: b) (hba : ¬ b <+: a)
    (reverse : Bool) :
    reverseBytes reverse a < reverseBytes reverse b ↔ if reverse then b < a else a < b := by
  cases reverse
  · rfl
  · exact List.map_lt_map_iff_of_not_prefix UInt8.complement_lt_complement_iff hab hba

/-! ## Datums -/

/-- A non-NULL datum is its tag and its scalar's encoding, both written in the order's
direction. -/
theorem serializeDatum_some (enc : S → List UInt8) (x : S) (order : OrderType) :
    serializeDatum enc (some x) order =
      reverseBytes order.isDescending [if order.nullsAreLargest then 0 else 1] ++
        reverseBytes order.isDescending (enc x) := by
  rcases order with ⟨_ | _, _ | _⟩ <;> rfl

/-- What is asked of the encoding of scalars: it orders as they do, and no encoding is a
proper prefix of another. -/
structure Lawful [LinearOrder S] (enc : S → List UInt8) : Prop where
  strictMono : StrictMono enc
  eq_of_prefix : ∀ {a b}, enc a <+: enc b → a = b

section Lawful

variable [LinearOrder S] {enc : S → List UInt8}

theorem Lawful.not_prefix (henc : Lawful enc) {a b : S} (hab : a ≠ b) :
    ¬ enc a <+: enc b := fun h => hab (henc.eq_of_prefix h)

/-- No encoded non-NULL datum starts another: the prefix-freeness the delete ranges of state
cleaning rest on. -/
theorem reverseBytes_prefix_reverseBytes_iff (henc : Lawful enc) (reverse : Bool) (a b : S) :
    reverseBytes reverse (enc a) <+: reverseBytes reverse (enc b) ↔ a = b := by
  rw [reverseBytes_prefix_iff]
  exact ⟨henc.eq_of_prefix, fun h => h ▸ List.prefix_refl _⟩

/-- Encoded non-NULL datums, followed by anything, order as their scalars do, the other way
round when reversed. -/
theorem reverseBytes_append_lt_iff (henc : Lawful enc) (reverse : Bool) {a b : S}
    (hab : a ≠ b) (s t : List UInt8) :
    reverseBytes reverse (enc a) ++ s < reverseBytes reverse (enc b) ++ t ↔
      if reverse then b < a else a < b := by
  have hab' := henc.not_prefix hab
  have hba' := henc.not_prefix (Ne.symm hab)
  rw [List.append_lt_append_iff_of_not_prefix
      (by rwa [reverseBytes_prefix_iff]) (by rwa [reverseBytes_prefix_iff]),
    reverseBytes_lt_iff hab' hba', henc.strictMono.lt_iff_lt, henc.strictMono.lt_iff_lt]

/-- Behind their common tag, encoded non-NULL datums, followed by anything, order as their
scalars do, the other way round when descending. -/
theorem serializeDatum_append_lt_iff (henc : Lawful enc) (order : OrderType) {a b : S}
    (hab : a ≠ b) (s t : List UInt8) :
    serializeDatum enc (some a) order ++ s < serializeDatum enc (some b) order ++ t ↔
      if order.isDescending then b < a else a < b := by
  rw [serializeDatum_some, serializeDatum_some, List.append_assoc, List.append_assoc,
    List.append_lt_append_iff_of_length_eq rfl, reverseBytes_append_lt_iff henc _ hab]
  simp

/-- A datum's encoding, whatever follows it, lies below another's exactly when the datum
comes first in the order: equal datums are not below, as one encoding starts the other. -/
theorem serializeDatum_append_lt_serializeDatum_iff (henc : Lawful enc) (order : OrderType)
    (a b : S) (s : List UInt8) :
    serializeDatum enc (some a) order ++ s < serializeDatum enc (some b) order ↔
      if order.isDescending then b < a else a < b := by
  by_cases hab : a = b
  · subst hab
    have hle : serializeDatum enc (some a) order ≤ serializeDatum enc (some a) order ++ s :=
      List.le_of_prefix (List.prefix_append _ _)
    simp [not_lt_of_ge hle]
  · simpa using serializeDatum_append_lt_iff henc order hab s []

end Lawful

/-- The encodings of non-NULL datums all start with one tag byte. -/
theorem take_one_prefix_serializeDatum (enc : S → List UInt8) (order : OrderType) (a b : S) :
    (serializeDatum enc (some b) order).take 1 <+: serializeDatum enc (some a) order := by
  rcases order with ⟨_ | _, _ | _⟩ <;>
    simp [serializeDatum, reverseBytes, OrderType.isDescending, OrderType.nullsAreLargest]

end MemcmpEncoding

end RisingWave.Common
