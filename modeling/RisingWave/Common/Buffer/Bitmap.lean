import Mathlib
import RisingWave.Lib.PackedBits
import RisingWave.Lib.Iter

/-!
# Bitmaps

`buffer/bitmap.rs`. A `Bitmap` keeps its bits packed into `usize`s, bit `i` in bit `i % BITS` of
word `i / BITS`, with the number of its bits and of its set bits; when no bit or every bit is set
it keeps no words at all, and its count says which. A `BitmapBuilder` keeps its words and its
length. Words are `BitVec 64`, the `usize` of a 64-bit target, and lengths and counts are `ℕ`.

The model follows a release build: a `debug_assert!` is not checked, and the `u32` sum of the
words' `count_ones` wraps. A panic is `none`. The unchecked reads (`get_unchecked`, the raw byte
view of the words) read zero past the end, where no valid bitmap reads. The bytes of a word are
little-endian.
-/

namespace RisingWave.Common.Buffer

open PackedBits

/-- `BITS`: `usize::BITS`. -/
def BITS : ℕ := 64

/-- `Vec::resize`: cut to `n` items, or fill up to `n` with `a`. -/
def resize {α : Type*} (v : List α) (n : ℕ) (a : α) : List α :=
  v.take n ++ List.replicate (n - v.length) a

/-- `BitmapBuilder`. -/
structure BitmapBuilder where
  len : ℕ
  data : List (BitVec 64)
  deriving DecidableEq, Repr

/-- `Bitmap`: `bits` is `None` when no bit or every bit is set. -/
structure Bitmap where
  numBits : ℕ
  countOnes : ℕ
  bits : Option (List (BitVec 64))
  deriving DecidableEq, Repr

/-- `BitmapIter`: `current_usize` is the word of the bit at `idx`, loaded on entering it. -/
structure BitmapIter where
  bits : Option (List (BitVec 64))
  idx : ℕ
  numBits : ℕ
  currentUsize : BitVec 64
  allOnes : Bool
  deriving DecidableEq, Repr

/-- `BitmapOnesIter`. -/
inductive BitmapOnesIter where
  | range (start end_ : ℕ)
  | buffer (bits : List (BitVec 64)) (curIdx : ℕ) (curBits : Option (BitVec 64))
  deriving DecidableEq, Repr

/-- `risingwave_pb::common::buffer::CompressionType`. -/
inductive CompressionType where
  | unspecified
  | none
  deriving DecidableEq, Repr

/-- `CompressionType as i32`. -/
def CompressionType.toI32 : CompressionType → ℤ
  | .unspecified => 0
  | .none => 1

/-- `risingwave_pb::common::PbBuffer`. -/
structure PbBuffer where
  compression : ℤ
  body : List UInt8
  deriving DecidableEq, Repr

namespace Bitmap

/-- `Bitmap::vec_len`. -/
def vecLen (numBits : ℕ) : ℕ := (numBits + BITS - 1) / BITS

/-- `Bitmap::zeros`. -/
def zeros (numBits : ℕ) : Bitmap := ⟨numBits, 0, none⟩

/-- `Bitmap::ones`. -/
def ones (numBits : ℕ) : Bitmap := ⟨numBits, numBits, none⟩

/-- `buf.iter().map(|&x| x.count_ones()).sum::<u32>() as usize`. -/
def countOnesOf (buf : List (BitVec 64)) : ℕ := countSet buf % 2 ^ 32

/-- `Bitmap::from_vec_with_len`. -/
def fromVecWithLen (buf : List (BitVec 64)) (numBits : ℕ) : Bitmap :=
  let countOnes := countOnesOf buf
  { bits := if countOnes ≠ 0 ∧ countOnes ≠ numBits then some buf else none,
    numBits, countOnes }

/-- `Bitmap::from_bytes_with_len`: the bytes fill the memory of `vec_len` words from its start
and the rest is zero; more bytes than that is a panic. -/
def fromBytesWithLen (buf : List UInt8) (numBits : ℕ) : Option Bitmap :=
  if buf.length ≤ vecLen numBits * (BITS / 8) then
    some (fromVecWithLen (wordsOfBytes buf (vecLen numBits)) numBits)
  else none

/-- `Bitmap::from_bytes`. -/
def fromBytes (buf : List UInt8) : Option Bitmap := fromBytesWithLen buf (buf.length * 8)

/-- `Mask::from_array(chunk).to_bitmask()` on `BITS` lanes: bit `i` is lane `i`. -/
def toBitmask (chunk : List Bool) : BitVec 64 := (BitVec.ofBoolListLE chunk).setWidth 64

/-- The loop of `from_bool_slice` over the remainder: `bitmask |= (b as usize) << i`. -/
def remainderBitmask (remainder : List Bool) : BitVec 64 :=
  remainder.zipIdx.foldl (fun bitmask (b, i) => bitmask ||| BitVec.ofNat 64 b.toNat <<< i) 0

/-- The words of `from_bool_slice`: one of each chunk of `BITS` bools, then one of the rest. -/
def boolSliceWords (bools : List Bool) : List (BitVec 64) :=
  let chunks := (List.range (bools.length / BITS)).map fun j =>
    toBitmask ((bools.drop (BITS * j)).take BITS)
  let remainder := bools.drop (BITS * (bools.length / BITS))
  if remainder.isEmpty then chunks else chunks ++ [remainderBitmask remainder]

/-- `Bitmap::from_bool_slice`. -/
def fromBoolSlice (bools : List Bool) : Bitmap :=
  fromVecWithLen (boolSliceWords bools) bools.length

/-- `FromIterator<Option<bool>>`: a missing bit is clear. -/
def fromOptions (bools : List (Option Bool)) : Bitmap :=
  fromBoolSlice (bools.map fun b => b.getD false)

/-- `Bitmap::len`. -/
def len (self : Bitmap) : ℕ := self.numBits

/-- `Bitmap::is_empty`. -/
def isEmpty (self : Bitmap) : Bool := self.numBits == 0

/-- `Bitmap::is_set_unchecked`. -/
def isSetUnchecked (self : Bitmap) (idx : ℕ) : Bool :=
  match self.bits with
  | none => self.countOnes != 0
  | some bits => (word bits (idx / BITS) &&& 1#64 <<< (idx % BITS)) != 0

/-- `Bitmap::is_set`. -/
def isSet (self : Bitmap) (idx : ℕ) : Option Bool :=
  if idx < self.len then some (self.isSetUnchecked idx) else none

/-- `Bitmap::all`. -/
def all (self : Bitmap) : Bool := self.countOnes == self.len

/-- `Bitmap::next_set_bit`. -/
def nextSetBit (self : Bitmap) (bitIdx : ℕ) : Option ℕ :=
  (List.range' bitIdx (self.len - bitIdx)).find? self.isSetUnchecked

/-- `Bitmap::iter`. -/
def iter (self : Bitmap) : BitmapIter :=
  { bits := self.bits, idx := 0, numBits := self.numBits, currentUsize := 0,
    allOnes := self.countOnes == self.numBits }

/-- `Bitmap::iter_ones`: the words, or the range `0..count_ones` when there are none. -/
def iterOnes (self : Bitmap) : BitmapOnesIter :=
  match self.bits with
  | some bits => .buffer bits 0 bits.head?
  | none => .range 0 self.countOnes

end Bitmap

namespace BitmapIter

/-- `BitmapIter::next`: the word is loaded when the index is at its first bit. -/
def next (self : BitmapIter) : Option Bool × BitmapIter :=
  if self.idx ≥ self.numBits then (none, self) else
  match self.bits with
  | none => (some self.allOnes, { self with idx := self.idx + 1 })
  | some bits =>
    let usizeOffset := self.idx % BITS
    let currentUsize :=
      if usizeOffset = 0 then word bits (self.idx / BITS) else self.currentUsize
    let bitFlag := (currentUsize &&& 1#64 <<< usizeOffset) != 0
    (some bitFlag, { self with idx := self.idx + 1, currentUsize })

/-- `BitmapIter::next_always_load_usize`. -/
def nextAlwaysLoadUsize (self : BitmapIter) : Option Bool × BitmapIter :=
  if self.idx ≥ self.numBits then (none, self) else
  match self.bits with
  | none => (some self.allOnes, { self with idx := self.idx + 1 })
  | some bits =>
    let currentUsize := word bits (self.idx / BITS)
    let bitFlag := (currentUsize &&& 1#64 <<< (self.idx % BITS)) != 0
    (some bitFlag, { self with idx := self.idx + 1, currentUsize })

/-- `BitmapIter::nth`. -/
def nth (self : BitmapIter) (n : ℕ) : Option Bool × BitmapIter :=
  nextAlwaysLoadUsize { self with idx := self.idx + n }

end BitmapIter

namespace BitmapOnesIter

/-- The loop `while *cur_bits == Some(0)` of `BitmapOnesIter::next`, on to the next word while
the current one has no bit left. It stops within `bits.len()` rounds, the `fuel` it is run with. -/
def skipZeros (bits : List (BitVec 64)) :
    ℕ → ℕ → Option (BitVec 64) → ℕ × Option (BitVec 64)
  | 0, curIdx, curBits => (curIdx, curBits)
  | fuel + 1, curIdx, curBits =>
    if curBits = some 0 then
      skipZeros bits fuel (curIdx + 1)
        (if curIdx + 1 ≥ bits.length then none else some (word bits (curIdx + 1)))
    else (curIdx, curBits)

/-- `BitmapOnesIter::next`: the lowest set bit of the current word, which it then clears. -/
def next : BitmapOnesIter → Option ℕ × BitmapOnesIter
  | .range start end_ =>
    if start ≥ end_ then (none, .range start end_) else (some start, .range (start + 1) end_)
  | .buffer bits curIdx curBits =>
    let (curIdx, curBits) := skipZeros bits bits.length curIdx curBits
    match curBits with
    | none => (none, .buffer bits curIdx none)
    | some b =>
      let lowBit := b &&& -b
      let lowBitIdx := b.ctz.toNat
      (some (curIdx * BITS + lowBitIdx), .buffer bits curIdx (some (b ^^^ lowBit)))

end BitmapOnesIter

namespace Bitmap

/-- The items of `iter`: it gives one per bit. -/
def iterList (self : Bitmap) : List Bool := Iter.collect BitmapIter.next self.numBits self.iter

/-- The `filter_map` of `high_ranges` from bit `i` on, `start` the open range's first bit: a
range opens at a set bit and closes at the next clear one. A range `s..=e` is `(s, e)`. -/
def highRangesFrom : List Bool → ℕ → Option ℕ → List (ℕ × ℕ)
  | [], _, _ => []
  | bit :: rest, i, start =>
    match bit, start with
    | true, none => highRangesFrom rest (i + 1) (some i)
    | false, some s => (s, i - 1) :: highRangesFrom rest (i + 1) none
    | _, _ => highRangesFrom rest (i + 1) start

/-- `Bitmap::high_ranges`: over the bits of `iter`, with a clear bit chained at the end. -/
def highRanges (self : Bitmap) : List (ℕ × ℕ) := highRangesFrom (self.iterList ++ [false]) 0 none

/-- `impl Not for &Bitmap`: the words negated, the bits past the end cleared again. -/
def not (self : Bitmap) : Option Bitmap :=
  match self.bits with
  | none => some (if self.countOnes = 0 then ones self.numBits else zeros self.numBits)
  | some bits =>
    let bits := bits.map (~~~ ·)
    if self.numBits % BITS ≠ 0 then
      -- `bits[self.num_bits / BITS] &= ...` panics past the words
      if self.numBits / BITS < bits.length then
        some ⟨self.numBits, self.numBits - self.countOnes,
          some (bits.modify (self.numBits / BITS) (· &&& lowMask (self.numBits % BITS)))⟩
      else none
    else some ⟨self.numBits, self.numBits - self.countOnes, some bits⟩

/-- `impl BitAnd<&Bitmap> for &Bitmap`. -/
def bitand (self rhs : Bitmap) : Option Bitmap :=
  if self.numBits ≠ rhs.numBits then none else
  if self.countOnes = 0 ∨ rhs.countOnes = 0 then some (zeros self.numBits) else
  match self.bits, rhs.bits with
  | _, none => some self
  | none, _ => some rhs
  | some lbits, some rbits =>
    some (fromVecWithLen (List.zipWith (· &&& ·) lbits rbits) self.numBits)

/-- `impl BitAnd<&Bitmap> for Bitmap`: the reference one, the other way round. -/
def bitandOwned (self rhs : Bitmap) : Option Bitmap := rhs.bitand self

/-- `impl BitOr<&Bitmap> for &Bitmap`. -/
def bitor (self rhs : Bitmap) : Option Bitmap :=
  if self.numBits ≠ rhs.numBits then none else
  if self.countOnes = self.numBits ∨ rhs.countOnes = self.numBits then some (ones self.numBits)
  else
  match self.bits, rhs.bits with
  | _, none => some self
  | none, _ => some rhs
  | some lbits, some rbits =>
    some (fromVecWithLen (List.zipWith (· ||| ·) lbits rbits) self.numBits)

/-- `impl BitOr<&Bitmap> for Bitmap`: the reference one, the other way round. -/
def bitorOwned (self rhs : Bitmap) : Option Bitmap := rhs.bitor self

/-- `impl BitXor for &Bitmap`. -/
def bitxor (self rhs : Bitmap) : Option Bitmap :=
  if self.numBits ≠ rhs.numBits then none else
  match self.bits, rhs.bits with
  | _, none => if rhs.countOnes = 0 then some self else self.not
  | none, _ => if self.countOnes = 0 then some rhs else rhs.not
  | some lbits, some rbits =>
    some (fromVecWithLen (List.zipWith (· ^^^ ·) lbits rbits) self.numBits)

/-- `Bitmap::to_protobuf`: the number of bits in the last byte, then the bytes of the bits. -/
def toProtobuf (self : Bitmap) : PbBuffer :=
  let bodyLen := (self.numBits + 7) / 8 + 1
  let body := [UInt8.ofNat (self.numBits % 8)]
  let body :=
    match self.bits with
    | none =>
      if self.countOnes = 0 then resize body bodyLen 0
      else
        let body := resize body bodyLen 255
        if self.numBits % 8 ≠ 0 then
          body.set (bodyLen - 1) ((1 <<< UInt8.ofNat (self.numBits % 8)) - 1)
        else body
    | some bits => body ++ (bytesOfWords bits).take ((self.numBits + 7) / 8)
  { compression := CompressionType.none.toI32, body }

/-- `From<&PbBuffer> for Bitmap`. The `u8` and `usize` subtractions wrap. An empty body is a
panic. -/
def ofPbBuffer (buf : PbBuffer) : Option Bitmap :=
  match buf.body with
  | [] => none
  | lastByteNumBits :: rest =>
    let numBits :=
      ((buf.body.length - 1) * 8 + 2 ^ 64 - ((8 - lastByteNumBits) % 8).toNat) % 2 ^ 64
    fromBytesWithLen rest numBits

end Bitmap

namespace BitmapBuilder

/-- `BitmapBuilder::with_capacity`: the capacity is not seen. -/
def withCapacity (_capacity : ℕ) : BitmapBuilder := ⟨0, []⟩

/-- `BitmapBuilder::zeroed`. -/
def zeroed (len : ℕ) : BitmapBuilder := ⟨len, List.replicate (Bitmap.vecLen len) 0⟩

/-- `BitmapBuilder::set`: the assertion, then the word's index, may panic. -/
def set (self : BitmapBuilder) (n : ℕ) (val : Bool) : Option BitmapBuilder :=
  if n < self.len ∧ n / BITS < self.data.length then
    let mask := 1#64 <<< (n % BITS)
    some { self with
      data := self.data.modify (n / BITS) fun byte => if val then byte ||| mask else byte &&& ~~~mask }
  else none

/-- `BitmapBuilder::is_set`. -/
def isSet (self : BitmapBuilder) (n : ℕ) : Option Bool :=
  if n < self.len then
    self.data[n / BITS]?.map fun byte => (byte &&& 1#64 <<< (n % BITS)) != 0
  else none

/-- `BitmapBuilder::append`: a new word at a multiple of `BITS`, then the bit or-ed in. -/
def append (self : BitmapBuilder) (bitSet : Bool) : Option BitmapBuilder :=
  let data := if self.len % BITS = 0 then self.data ++ [0] else self.data
  if self.len / BITS < data.length then
    some ⟨self.len + 1,
      data.modify (self.len / BITS) (· ||| BitVec.ofNat 64 bitSet.toNat <<< (self.len % BITS))⟩
  else none

/-- The loop of `append_n`: one bit at a time while bits are left and the length is not a
multiple of `BITS`; what is left to append, and the builder. -/
def appendNLoop (bitSet : Bool) : ℕ → BitmapBuilder → Option (ℕ × BitmapBuilder)
  | 0, self => some (0, self)
  | n + 1, self =>
    if self.len % BITS ≠ 0 then (self.append bitSet).bind (appendNLoop bitSet n)
    else some (n + 1, self)

/-- `BitmapBuilder::append_n`: after the loop, whole words of the bit, the set bits past the
length cleared from the last one. -/
def appendN (self : BitmapBuilder) (n : ℕ) (bitSet : Bool) : Option BitmapBuilder := do
  let (n, self) ← appendNLoop bitSet n self
  let len := self.len + n
  let data := resize self.data (Bitmap.vecLen len) (if bitSet then BitVec.allOnes 64 else 0)
  if bitSet ∧ len % BITS ≠ 0 then
    -- `last_mut().unwrap()`
    if data = [] then none
    else some ⟨len, data.modify (data.length - 1) (· &&& lowMask (len % BITS))⟩
  else some ⟨len, data⟩

/-- `BitmapBuilder::pop`: its result, and the builder; the outer `none` is a panic. -/
def pop (self : BitmapBuilder) : Option (Option Unit × BitmapBuilder) :=
  if self.len = 0 then some (none, self) else
  let len := self.len - 1
  let data := self.data.take (Bitmap.vecLen len)
  if len % BITS ≠ 0 then
    if data = [] then none
    else some (some (), ⟨len, data.modify (data.length - 1) (· &&& lowMask (len % BITS))⟩)
  else some (some (), ⟨len, data⟩)

/-- `BitmapBuilder::append_bitmap`: when the length is a multiple of `BITS`, the other bitmap's
words, or whole words of its one bit; otherwise its bits one at a time. -/
def appendBitmap (self : BitmapBuilder) (other : Bitmap) : Option BitmapBuilder :=
  if self.len % BITS = 0 then
    let len := self.len + other.len
    match other.bits with
    | some bits => some ⟨len, self.data ++ bits⟩
    | none =>
      if other.countOnes = 0 then some ⟨len, resize self.data (Bitmap.vecLen len) 0⟩
      else
        let data := resize self.data (Bitmap.vecLen len) (BitVec.allOnes 64)
        if len % BITS ≠ 0 then
          -- `*last_mut().unwrap() = (1 << (len % BITS)) - 1`
          if data = [] then none
          else some ⟨len, data.modify (data.length - 1) fun _ => lowMask (len % BITS)⟩
        else some ⟨len, data⟩
  else other.iterList.foldlM (fun b bit => b.append bit) self

/-- `BitmapBuilder::finish`: the body of `from_vec_with_len`. -/
def finish (self : BitmapBuilder) : Bitmap := Bitmap.fromVecWithLen self.data self.len

/-- `BitmapBuilder::is_empty`. -/
def isEmpty (self : BitmapBuilder) : Bool := self.len == 0

end BitmapBuilder

end RisingWave.Common.Buffer
