import Mathlib
import RisingWave.Expr.WindowFrame

/-!
# The window buffer

`expr/src/window_function/state/buffer.rs`. A `WindowBuffer` holds the entries of a window
function's partition that the current row's frame may still need, in a `VecDeque`, here a list.
`curr_idx` is the current row, `left_idx` and `right_excl_idx` the frame's ends, all relative to
the front of the buffer. `append` pushes an entry at the back and `slide` moves the current row
on; both recompute the ends from the current row and the frame's offsets, and `slide` then drains
from the front every entry before both the frame and the current row.

The `isize` casts and arithmetic of `recalculate_left_right` wrap as in a release build (`isize`
and `usize` of `WindowFrame`). The `assert!`s and the panics of `VecDeque::range` and `drain` are
`none`, as is `unreachable!()` in `range_except`.
-/

namespace RisingWave.Expr

/-- `Entry<K, V>`. -/
structure Entry (K V : Type) where
  key : K
  value : V
  deriving DecidableEq, Repr

/-- `WindowBuffer<K, V>`. -/
structure WindowBuffer (K V : Type) where
  frame : Frame
  buffer : List (Entry K V)
  currIdx : ℕ
  leftIdx : ℕ
  rightExclIdx : ℕ
  deriving DecidableEq, Repr

/-- `CurrWindow<'_, K>`. -/
structure CurrWindow (K : Type) where
  key : Option K
  precedingSaturated : Bool
  followingSaturated : Bool
  deriving DecidableEq, Repr

/-- `range_except`: the range `a` less the range `b`, as two ranges; a range `start..end` is the
pair `(start, end)`. -/
def rangeExcept (a b : ℕ × ℕ) : Option ((ℕ × ℕ) × (ℕ × ℕ)) :=
  if a.2 ≤ b.1 ∨ b.2 ≤ a.1 then some (a, (0, 0))
  else if b.1 ≤ a.1 ∧ a.2 ≤ b.2 then some ((0, 0), (0, 0))
  else if a.1 < b.1 ∧ b.2 < a.2 then some ((a.1, b.1), (b.2, a.2))
  else if a.2 ≤ b.2 then some ((a.1, b.1), (0, 0))
  else if b.1 ≤ a.1 then some ((b.2, a.2), (0, 0))
  else none

namespace WindowBuffer

variable {K V : Type}

/-- `WindowBuffer::new`. -/
def new (frame : Frame) : Option (WindowBuffer K V) :=
  if frame.bounds.isValid then some ⟨frame, [], 0, 0, 0⟩ else none

/-- `WindowBuffer::curr_key`. -/
def currKey (self : WindowBuffer K V) : Option K := self.buffer[self.currIdx]?.map Entry.key

/-- `WindowBuffer::preceding_saturated`. -/
def precedingSaturated (self : WindowBuffer K V) : Bool :=
  self.currKey.isSome &&
    match self.frame.bounds with
    | .rows start _ =>
      match start.toOffset with
      | some startOff =>
        -- a pure following frame is always preceding-saturated
        if startOff ≥ 0 then true
        else decide (startOff.natAbs ≤ usize ((self.currIdx : ℤ) - self.leftIdx))
      | none => false

/-- `WindowBuffer::following_saturated`. -/
def followingSaturated (self : WindowBuffer K V) : Bool :=
  self.currKey.isSome &&
    match self.frame.bounds with
    | .rows _ end_ =>
      match end_.toOffset with
      | some endOff =>
        -- a pure preceding frame is always following-saturated
        if endOff ≤ 0 then true
        else decide (usize endOff ≤ usize ((self.rightExclIdx : ℤ) - 1 - self.currIdx))
      | none => false

/-- `WindowBuffer::curr_window`. -/
def currWindow (self : WindowBuffer K V) : CurrWindow K :=
  ⟨self.currKey, self.precedingSaturated, self.followingSaturated⟩

/-- `VecDeque::range` of the entries' values; a range backwards or past the end panics. -/
def rangeValues (buffer : List (Entry K V)) (r : ℕ × ℕ) : Option (List V) :=
  if r.1 ≤ r.2 ∧ r.2 ≤ buffer.length then
    some (((buffer.drop r.1).take (r.2 - r.1)).map Entry.value)
  else none

/-- `WindowBuffer::curr_window_values`: the iterator is the list it yields. -/
def currWindowValues (self : WindowBuffer K V) : Option (List V) := do
  unless self.leftIdx ≤ self.rightExclIdx ∧ self.rightExclIdx ≤ self.buffer.length do none
  let selection := (self.leftIdx, self.rightExclIdx)
  if selection.2 ≤ selection.1 then return []
  let exclusion := match self.frame.exclusion with
    | .currentRow => (self.currIdx, self.currIdx + 1)
    | .noOthers => (self.currIdx, self.currIdx)
  let (left, right) ← rangeExcept selection exclusion
  let l ← rangeValues self.buffer left
  let r ← rangeValues self.buffer right
  return l ++ r

/-- The left end `recalculate_left_right` computes for a start offset. -/
def leftOf (startOff : Option ℤ) (currIdx len : ℕ) : ℕ :=
  match startOff with
  | some startOff =>
    let logicalLeftIdx := isize (isize currIdx + startOff)
    if logicalLeftIdx ≥ 0 then min (usize logicalLeftIdx) len else 0
  | none => 0

/-- The right end `recalculate_left_right` computes for an end offset. -/
def rightOf (endOff : Option ℤ) (currIdx len : ℕ) : ℕ :=
  match endOff with
  | some endOff =>
    let logicalRightExclIdx := isize (isize (isize currIdx + endOff) + 1)
    if logicalRightExclIdx ≥ 0 then min (usize logicalRightExclIdx) len else 0
  | none => len

/-- `WindowBuffer::recalculate_left_right`. -/
def recalculateLeftRight (self : WindowBuffer K V) : WindowBuffer K V :=
  let self := if self.buffer.isEmpty then { self with leftIdx := 0, rightExclIdx := 0 } else self
  match self.frame.bounds with
  | .rows start end_ =>
    { self with leftIdx := leftOf start.toOffset self.currIdx self.buffer.length,
                rightExclIdx := rightOf end_.toOffset self.currIdx self.buffer.length }

/-- `WindowBuffer::append`. -/
def append (self : WindowBuffer K V) (key : K) (value : V) : WindowBuffer K V :=
  { self with buffer := self.buffer ++ [Entry.mk key value] }.recalculateLeftRight

/-- `WindowBuffer::smallest_key`. -/
def smallestKey (self : WindowBuffer K V) : Option K := self.buffer.head?.map Entry.key

/-- `WindowBuffer::slide`: the entries drained from the front, and the buffer after. -/
def slide (self : WindowBuffer K V) : Option (List (K × V) × WindowBuffer K V) :=
  let self := { self with currIdx := self.currIdx + 1 }.recalculateLeftRight
  let minNeededIdx := min self.leftIdx self.currIdx
  -- `drain(0..min_needed_idx)` panics past the end
  if minNeededIdx ≤ self.buffer.length then
    some ((self.buffer.take minNeededIdx).map fun e => (e.key, e.value),
      { self with currIdx := self.currIdx - minNeededIdx,
                  leftIdx := self.leftIdx - minNeededIdx,
                  rightExclIdx := usize ((self.rightExclIdx : ℤ) - minNeededIdx),
                  buffer := self.buffer.drop minNeededIdx })
  else none

end WindowBuffer

end RisingWave.Expr
