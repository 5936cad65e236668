import Mathlib

/-!
# Window frames

`expr/src/window_function/call.rs`. A frame is `ROWS BETWEEN start AND end` with an exclusion;
a bound is unbounded, a number of rows preceding or following, or the current row. `is_valid`
asks that the start come before the end under the bounds' partial order, and `to_offset` reads
a bound as a signed offset from the current row.

The offsets are `usize`. `to_offset` casts them to `isize`, which in a release build wraps: an
offset of `2 ^ 63` rows or more is read as a negative one, and `Following(2 ^ 64 - 1)` as one
row preceding (`toOffset_following_wraps`). `isize` here is that cast.

In protobuf a bound is its `BoundType` as an `i32` and its offset as a `u64`. The getters that
`prost-helpers` generates for an enumeration field report `0` as a missing field, so the
`Unspecified` arms of the three `from_protobuf` functions are never reached: an unspecified type
fails with `Failed to decode prost: field not found`, not with the arm's message
(`Frame.fromProtobuf_failsDecoding`). A frame comes back from its protobuf as it was
(`Frame.fromProtobuf_toProtobuf_eq_ok`).
-/

namespace RisingWave.Expr

/-- `FrameBound<T>`. -/
inductive FrameBound (T : Type) where
  | unboundedPreceding
  | preceding (n : T)
  | currentRow
  | following (n : T)
  | unboundedFollowing
  deriving DecidableEq, Repr

/-- `FrameBounds`: only `Rows` exists. -/
inductive FrameBounds where
  | rows (start end_ : FrameBound ℕ)
  deriving DecidableEq, Repr

/-- `FrameExclusion`. -/
inductive FrameExclusion where
  | currentRow
  | noOthers
  deriving DecidableEq, Repr

/-- `Frame`. -/
structure Frame where
  bounds : FrameBounds
  exclusion : FrameExclusion
  deriving DecidableEq, Repr

/-- `impl Default for FrameExclusion`. -/
def FrameExclusion.default : FrameExclusion := .noOthers

/-- `Frame::rows`. -/
def Frame.rows (start end_ : FrameBound ℕ) : Frame := ⟨.rows start end_, FrameExclusion.default⟩

/-- `Frame::rows_with_exclusion`. -/
def Frame.rowsWithExclusion (start end_ : FrameBound ℕ) (exclusion : FrameExclusion) : Frame :=
  ⟨.rows start end_, exclusion⟩

/-- `impl PartialOrd for FrameBound<T>`: the unbounded ends are incomparable with themselves. -/
def FrameBound.partialCmp {T : Type} [Ord T] : FrameBound T → FrameBound T → Option Ordering
  | .unboundedPreceding, .unboundedPreceding => none
  | .unboundedPreceding, _ => some .lt
  | _, .unboundedPreceding => some .gt
  | .unboundedFollowing, .unboundedFollowing => none
  | .unboundedFollowing, _ => some .gt
  | _, .unboundedFollowing => some .lt
  | .currentRow, .currentRow => some .eq
  | .preceding _, .currentRow => some .lt
  | .currentRow, .preceding _ => some .gt
  | .following _, .currentRow => some .gt
  | .currentRow, .following _ => some .lt
  | .preceding n1, .preceding n2 => some (compare n2 n1)
  | .following n1, .following n2 => some (compare n1 n2)
  | .preceding _, .following _ => some .lt
  | .following _, .preceding _ => some .gt

/-- `FrameBounds::is_valid`. -/
def FrameBounds.isValid : FrameBounds → Bool
  | .rows start end_ => ((start.partialCmp end_).map Ordering.isLE).getD false

/-- `x as isize` on a 64-bit target, and the wrapping arithmetic of `isize`: the integer
congruent to `x` modulo `2 ^ 64` in `[-2 ^ 63, 2 ^ 63)`. -/
def isize (x : ℤ) : ℤ := (x + 2 ^ 63) % 2 ^ 64 - 2 ^ 63

/-- `x as usize` on a 64-bit target. -/
def usize (x : ℤ) : ℕ := (x % 2 ^ 64).toNat

/-- `FrameBound::to_offset`: `-(n as isize)` for `Preceding(n)`, `n as isize` for
`Following(n)`. -/
def FrameBound.toOffset : FrameBound ℕ → Option ℤ
  | .unboundedPreceding | .unboundedFollowing => none
  | .currentRow => some 0
  | .preceding n => some (isize (-isize n))
  | .following n => some (isize n)

/-! ## Protobuf -/

/-- `ExprError`, as far as window functions fail: an internal error with its message, or a window
function no state implements (its message, the function's signature, is left out). -/
inductive ExprError where
  | internal (msg : String)
  | unsupportedFunction
  deriving DecidableEq, Repr

/-- `From<PbFieldNotFound> for ExprError`. -/
def ExprError.fieldNotFound (field : String) : ExprError :=
  .internal ("Failed to decode prost: field not found `" ++ field ++ "`")

/-- `PbBoundType`. -/
inductive PbBoundType where
  | unspecified
  | unboundedPreceding
  | preceding
  | currentRow
  | following
  | unboundedFollowing
  deriving DecidableEq, Repr

/-- `PbBoundType::from_i32`. -/
def PbBoundType.fromI32 : ℤ → Option PbBoundType
  | 0 => some .unspecified
  | 1 => some .unboundedPreceding
  | 2 => some .preceding
  | 3 => some .currentRow
  | 4 => some .following
  | 5 => some .unboundedFollowing
  | _ => none

/-- `PbBoundType as i32`. -/
def PbBoundType.toI32 : PbBoundType → ℤ
  | .unspecified => 0
  | .unboundedPreceding => 1
  | .preceding => 2
  | .currentRow => 3
  | .following => 4
  | .unboundedFollowing => 5

/-- `PbOffset`: a `u64`, or a datum, whose contents are not read here. -/
inductive PbOffset where
  | integer (n : ℕ)
  | datum
  deriving DecidableEq, Repr

/-- `PbBound`. -/
structure PbBound where
  type_ : ℤ
  offset : Option PbOffset
  deriving DecidableEq, Repr

/-- `PbExclusion`. -/
inductive PbExclusion where
  | unspecified
  | currentRow
  | noOthers
  deriving DecidableEq, Repr

/-- `PbExclusion::from_i32`. -/
def PbExclusion.fromI32 : ℤ → Option PbExclusion
  | 0 => some .unspecified
  | 1 => some .currentRow
  | 4 => some .noOthers
  | _ => none

/-- `PbExclusion as i32`. -/
def PbExclusion.toI32 : PbExclusion → ℤ
  | .unspecified => 0
  | .currentRow => 1
  | .noOthers => 4

/-- `PbType` of a window frame. -/
inductive PbType where
  | unspecified
  | rows
  deriving DecidableEq, Repr

/-- `PbType::from_i32`. -/
def PbType.fromI32 : ℤ → Option PbType
  | 0 => some .unspecified
  | 2 => some .rows
  | _ => none

/-- `PbType as i32`. -/
def PbType.toI32 : PbType → ℤ
  | .unspecified => 0
  | .rows => 2

/-- `PbWindowFrame`. -/
structure PbWindowFrame where
  type_ : ℤ
  start : Option PbBound
  end_ : Option PbBound
  exclusion : ℤ
  deriving DecidableEq, Repr

/-- The getter `prost-helpers` generates for an enumeration field: `0` is a missing field, as is
a value of no variant. -/
def getEnum {α : Type} (fromI32 : ℤ → Option α) (field : String) (v : ℤ) : Except ExprError α :=
  if v = 0 then .error (.fieldNotFound field) else
  match fromI32 v with
  | some a => .ok a
  | none => .error (.fieldNotFound field)

/-- The getter of an optional field. -/
def getField {α : Type} (field : String) : Option α → Except ExprError α
  | some a => .ok a
  | none => .error (.fieldNotFound field)

/-- `FrameBound::<usize>::from_protobuf`; `*offset as usize` of a `u64` keeps it. -/
def FrameBound.fromProtobuf (bound : PbBound) : Except ExprError (FrameBound ℕ) := do
  let offset ← getField "offset" bound.offset
  match offset with
  | .integer offset =>
    match ← getEnum PbBoundType.fromI32 "r#type" bound.type_ with
    | .unspecified => throw (.internal "unspecified type of `FrameBound<usize>`")
    | .unboundedPreceding => pure .unboundedPreceding
    | .preceding => pure (.preceding offset)
    | .currentRow => pure .currentRow
    | .following => pure (.following offset)
    | .unboundedFollowing => pure .unboundedFollowing
  | .datum => throw (.internal "offset of `FrameBound<usize>` must be `Integer`")

/-- `FrameBound::<usize>::to_protobuf`. -/
def FrameBound.toProtobuf : FrameBound ℕ → PbBound
  | .unboundedPreceding => ⟨PbBoundType.unboundedPreceding.toI32, some (.integer 0)⟩
  | .preceding offset => ⟨PbBoundType.preceding.toI32, some (.integer offset)⟩
  | .currentRow => ⟨PbBoundType.currentRow.toI32, some (.integer 0)⟩
  | .following offset => ⟨PbBoundType.following.toI32, some (.integer offset)⟩
  | .unboundedFollowing => ⟨PbBoundType.unboundedFollowing.toI32, some (.integer 0)⟩

/-- `FrameExclusion::from_protobuf`. -/
def FrameExclusion.fromProtobuf : PbExclusion → Except ExprError FrameExclusion
  | .unspecified => .error (.internal "unspecified type of `FrameExclusion`")
  | .currentRow => .ok .currentRow
  | .noOthers => .ok .noOthers

/-- `FrameExclusion::to_protobuf`. -/
def FrameExclusion.toProtobuf : FrameExclusion → PbExclusion
  | .currentRow => .currentRow
  | .noOthers => .noOthers

/-- `Frame::from_protobuf`. -/
def Frame.fromProtobuf (frame : PbWindowFrame) : Except ExprError Frame := do
  let bounds ← match ← getEnum PbType.fromI32 "r#type" frame.type_ with
    | .unspecified => throw (.internal "unspecified type of `WindowFrame`")
    | .rows => do
      let start ← FrameBound.fromProtobuf (← getField "start" frame.start)
      let end_ ← FrameBound.fromProtobuf (← getField "end" frame.end_)
      pure (FrameBounds.rows start end_)
  let exclusion ← FrameExclusion.fromProtobuf
    (← getEnum PbExclusion.fromI32 "exclusion" frame.exclusion)
  pure ⟨bounds, exclusion⟩

/-- `Frame::to_protobuf`. -/
def Frame.toProtobuf (self : Frame) : PbWindowFrame :=
  match self.bounds with
  | .rows start end_ =>
    ⟨PbType.rows.toI32, some start.toProtobuf, some end_.toProtobuf,
      self.exclusion.toProtobuf.toI32⟩

/-! ## Decoding a frame -/

section Decoding

variable {α : Type}

theorem bind_eq_error {β : Type} {x : Except ExprError α} {f : α → Except ExprError β}
    {e : ExprError} : x >>= f = .error e ↔ x = .error e ∨ ∃ a, x = .ok a ∧ f a = .error e := by
  cases x <;> simp [bind, Except.bind]

@[simp] theorem getField_some (field : String) (a : α) : getField field (some a) = pure a := rfl

theorem getEnum_eq_ok {fromI32 : ℤ → Option α} {field : String} {v : ℤ} {a : α} :
    getEnum fromI32 field v = .ok a ↔ v ≠ 0 ∧ fromI32 v = some a := by
  unfold getEnum
  by_cases hv : v = 0
  · simp [hv]
  · cases hf : fromI32 v <;> simp [hv]

/-- The errors of decoding a frame: a missing field, or an offset that is a datum. -/
def ExprError.OfDecoding (e : ExprError) : Prop :=
  (∃ field, e = .fieldNotFound field) ∨ e = .internal "offset of `FrameBound<usize>` must be `Integer`"

/-- A decoding step that fails only as decoding a frame does. -/
def FailsDecoding (x : Except ExprError α) : Prop := ∀ e, x = .error e → e.OfDecoding

theorem FailsDecoding.bind {β : Type} {x : Except ExprError α} {f : α → Except ExprError β}
    (hx : FailsDecoding x) (hf : ∀ a, x = .ok a → FailsDecoding (f a)) :
    FailsDecoding (x >>= f) := by
  intro e he
  rcases bind_eq_error.mp he with h | ⟨a, ha, h⟩
  · exact hx e h
  · exact hf a ha e h

theorem failsDecoding_pure (a : α) : FailsDecoding (pure a : Except ExprError α) :=
  fun _ h => nomatch h

theorem failsDecoding_getEnum (fromI32 : ℤ → Option α) (field : String) (v : ℤ) :
    FailsDecoding (getEnum fromI32 field v) := by
  intro e he
  unfold getEnum at he
  by_cases hv : v = 0
  · simp only [hv, if_true, Except.error.injEq] at he
    exact .inl ⟨field, he.symm⟩
  · cases hf : fromI32 v <;> simp only [hv, hf, if_false, Except.error.injEq, reduceCtorEq] at he
    exact .inl ⟨field, he.symm⟩

theorem failsDecoding_getField (field : String) (o : Option α) :
    FailsDecoding (getField field o) := by
  intro e he
  cases o <;> simp only [getField, Except.error.injEq, reduceCtorEq] at he
  exact .inl ⟨field, he.symm⟩

end Decoding

theorem PbBoundType.fromI32_eq_unspecified {v : ℤ} :
    PbBoundType.fromI32 v = some .unspecified ↔ v = 0 := by
  unfold PbBoundType.fromI32
  split <;> simp_all

theorem PbType.fromI32_eq_unspecified {v : ℤ} : PbType.fromI32 v = some .unspecified ↔ v = 0 := by
  unfold PbType.fromI32
  split <;> simp_all

theorem PbExclusion.fromI32_eq_unspecified {v : ℤ} :
    PbExclusion.fromI32 v = some .unspecified ↔ v = 0 := by
  unfold PbExclusion.fromI32
  split <;> simp_all

/-- A getter never gives the unspecified value: that is `0`, which it reports missing. -/
theorem getEnum_ne_unspecified {β : Type} {fromI32 : ℤ → Option β} {u : β}
    (hu : ∀ v, fromI32 v = some u ↔ v = 0) (field : String) (v : ℤ) :
    getEnum fromI32 field v ≠ .ok u := fun h => by
  obtain ⟨hv, hf⟩ := getEnum_eq_ok.mp h
  exact hv ((hu v).mp hf)

theorem FrameBound.failsDecoding_fromProtobuf (bound : PbBound) :
    FailsDecoding (FrameBound.fromProtobuf bound) := by
  unfold FrameBound.fromProtobuf
  refine (failsDecoding_getField _ _).bind fun offset _ => ?_
  cases offset with
  | datum => exact fun e he => .inr (Except.error.inj he).symm
  | integer n =>
    refine (failsDecoding_getEnum _ _ _).bind fun t ht => ?_
    cases t
    case unspecified =>
      exact absurd ht (getEnum_ne_unspecified (fun _ => PbBoundType.fromI32_eq_unspecified) _ _)
    all_goals exact failsDecoding_pure _

theorem FrameBound.fromProtobuf_toProtobuf (b : FrameBound ℕ) :
    FrameBound.fromProtobuf b.toProtobuf = pure b := by
  cases b <;> rfl

theorem FrameExclusion.fromProtobuf_toProtobuf (x : FrameExclusion) :
    FrameExclusion.fromProtobuf x.toProtobuf = pure x := by
  cases x <;> rfl

theorem getEnum_exclusion (x : FrameExclusion) :
    getEnum PbExclusion.fromI32 "exclusion" x.toProtobuf.toI32 = pure x.toProtobuf := by
  cases x <;> rfl

theorem isize_of_lt {x : ℤ} (h1 : -2 ^ 63 ≤ x) (h2 : x < 2 ^ 63) : isize x = x := by
  unfold isize
  omega

theorem usize_of_lt {x : ℤ} (h1 : 0 ≤ x) (h2 : x < 2 ^ 64) : usize x = x.toNat := by
  unfold usize
  rw [Int.emod_eq_of_lt h1 h2]

/-- `Following(2 ^ 64 - 1)` is read as one row preceding. -/
theorem toOffset_following_wraps : (FrameBound.following (2 ^ 64 - 1)).toOffset = some (-1) := by
  decide

namespace FrameBound

/-- An offset of fewer than `2 ^ 62` rows, which `to_offset` and the buffer's arithmetic keep. -/
def OffsetFits : FrameBound ℕ → Prop
  | .preceding n | .following n => n < 2 ^ 62
  | _ => True

instance (b : FrameBound ℕ) : Decidable b.OffsetFits := by
  cases b <;> unfold OffsetFits <;> infer_instance

/-- The offset of a bound from the current row, `none` when unbounded. -/
def offset : FrameBound ℕ → Option ℤ
  | .preceding n => some (-(n : ℤ))
  | .following n => some n
  | .currentRow => some 0
  | _ => none

theorem toOffset_eq {b : FrameBound ℕ} (h : b.OffsetFits) : b.toOffset = b.offset := by
  cases b with
  | preceding n =>
    simp only [OffsetFits] at h
    have h1 : isize n = n := isize_of_lt (by omega) (by omega)
    rw [toOffset, offset, h1, isize_of_lt (by omega) (by omega)]
  | following n =>
    simp only [OffsetFits] at h
    rw [toOffset, offset, isize_of_lt (by omega) (by omega)]
  | _ => rfl

theorem offset_lt {b : FrameBound ℕ} {o : ℤ} (hb : b.OffsetFits) (h : b.offset = some o) :
    -2 ^ 62 < o ∧ o < 2 ^ 62 := by
  cases b <;> simp_all [OffsetFits, offset] <;> omega

/-! ## The rows of a frame -/

/-- The first row of the frame of row `c` among `len` rows, as its start bound gives it. -/
def frameLeft (start : FrameBound ℕ) (c len : ℕ) : ℕ :=
  match start with
  | .preceding n => min (c - n) len
  | .currentRow => min c len
  | .following n => min (c + n) len
  | _ => 0

/-- One past the last row of the frame of row `c` among `len` rows, as its end bound gives it. -/
def frameRight (end_ : FrameBound ℕ) (c len : ℕ) : ℕ :=
  match end_ with
  | .preceding n => min (c + 1 - n) len
  | .currentRow => min (c + 1) len
  | .following n => min (c + n + 1) len
  | _ => len

/-- Row `i` is at or after the start of the frame of row `c`. -/
def afterStart : FrameBound ℕ → ℕ → ℕ → Bool
  | .unboundedPreceding, _, _ => true
  | .preceding n, c, i => c ≤ i + n
  | .currentRow, c, i => c ≤ i
  | .following n, c, i => c + n ≤ i
  | .unboundedFollowing, _, _ => false

/-- Row `i` is at or before the end of the frame of row `c`. -/
def beforeEnd : FrameBound ℕ → ℕ → ℕ → Bool
  | .unboundedPreceding, _, _ => false
  | .preceding n, c, i => i + n ≤ c
  | .currentRow, c, i => i ≤ c
  | .following n, c, i => i ≤ c + n
  | .unboundedFollowing, _, _ => true

/-- The first row of the frame of row `c` exists. -/
def startReached : FrameBound ℕ → ℕ → Bool
  | .unboundedPreceding, _ => false
  | .preceding n, c => n ≤ c
  | _, _ => true

/-- The last row of the frame of row `c` exists among `len` rows. -/
def endReached : FrameBound ℕ → ℕ → ℕ → Bool
  | .unboundedFollowing, _, _ => false
  | .following n, c, len => c + n < len
  | _, _, _ => true

theorem frameLeft_le (start : FrameBound ℕ) (c len : ℕ) : frameLeft start c len ≤ len := by
  cases start <;> simp [frameLeft]

theorem frameRight_le (end_ : FrameBound ℕ) (c len : ℕ) : frameRight end_ c len ≤ len := by
  cases end_ <;> simp [frameRight]

theorem frameLeft_mono (start : FrameBound ℕ) {c c' len len' : ℕ} (hc : c ≤ c')
    (hlen : len ≤ len') : frameLeft start c len ≤ frameLeft start c' len' := by
  cases start <;> simp only [frameLeft] <;> omega

theorem frameLeft_of_offset {start : FrameBound ℕ} {o : ℤ} (h : start.offset = some o)
    (c len : ℕ) :
    frameLeft start c len = if 0 ≤ (c : ℤ) + o then min ((c : ℤ) + o).toNat len else 0 := by
  cases start <;> simp only [offset, Option.some.injEq, reduceCtorEq] at h <;> subst h <;>
    simp only [frameLeft] <;> split_ifs <;> omega

theorem frameLeft_of_offset_none {start : FrameBound ℕ} (h : start.offset = none) (c len : ℕ) :
    frameLeft start c len = 0 := by
  cases start <;> simp_all [offset, frameLeft]

theorem frameRight_of_offset {end_ : FrameBound ℕ} {o : ℤ} (h : end_.offset = some o)
    (c len : ℕ) :
    frameRight end_ c len = if 0 ≤ (c : ℤ) + o + 1 then min ((c : ℤ) + o + 1).toNat len else 0 := by
  cases end_ <;> simp only [offset, Option.some.injEq, reduceCtorEq] at h <;> subst h <;>
    simp only [frameRight] <;> split_ifs <;> omega

theorem frameRight_of_offset_none {end_ : FrameBound ℕ} (h : end_.offset = none) (c len : ℕ) :
    frameRight end_ c len = len := by
  cases end_ <;> simp_all [offset, frameRight]

/-- Below `len`, a row is after the start exactly when it is at or past `frameLeft`. -/
theorem afterStart_eq {start : FrameBound ℕ} (hs : start ≠ .unboundedFollowing) {c i len : ℕ}
    (hi : i < len) : afterStart start c i = decide (frameLeft start c len ≤ i) := by
  cases start <;> simp_all [afterStart, frameLeft]

/-- Below `len`, a row is before the end exactly when it is below `frameRight`. -/
theorem beforeEnd_eq {end_ : FrameBound ℕ} (he : end_ ≠ .unboundedPreceding) {c i len : ℕ}
    (hi : i < len) : beforeEnd end_ c i = decide (i < frameRight end_ c len) := by
  cases end_ <;> simp_all [beforeEnd, frameRight]
  omega

end FrameBound

theorem isLE_compare (a b : ℕ) : (compare a b).isLE = true ↔ a ≤ b := by
  rw [Ordering.isLE_iff_ne_gt, compare_gt_iff_gt]
  omega

/-- A valid frame starts before the last bound and ends after the first, and its first row never
comes after its end. -/
theorem FrameBounds.isValid_rows {start end_ : FrameBound ℕ}
    (hv : (FrameBounds.rows start end_).isValid = true) :
    start ≠ .unboundedFollowing ∧ end_ ≠ .unboundedPreceding ∧
      ∀ c len, start.frameLeft c len ≤ end_.frameRight c len := by
  cases start <;> cases end_ <;>
    simp only [FrameBounds.isValid, FrameBound.partialCmp, Option.map_some, Option.map_none,
      Option.getD_some, Option.getD_none, isLE_compare, Ordering.isLE_lt, Ordering.isLE_gt,
      Ordering.isLE_eq, Bool.false_eq_true] at hv <;>
    simp only [ne_eq, reduceCtorEq, not_false_eq_true, true_and, FrameBound.frameLeft,
      FrameBound.frameRight] <;> omega

/-- The start of a frame. -/
def Frame.start (f : Frame) : FrameBound ℕ := match f.bounds with | .rows start _ => start

/-- The end of a frame. -/
def Frame.end_ (f : Frame) : FrameBound ℕ := match f.bounds with | .rows _ end_ => end_

/-- A frame the buffer computes with exactly: valid, with offsets below `2 ^ 62`. -/
structure Frame.Fits (f : Frame) : Prop where
  valid : f.bounds.isValid = true
  start_fits : f.start.OffsetFits
  end_fits : f.end_.OffsetFits

theorem Frame.fits_iff (f : Frame) :
    f.Fits ↔ f.bounds.isValid = true ∧ f.start.OffsetFits ∧ f.end_.OffsetFits :=
  ⟨fun h => ⟨h.valid, h.start_fits, h.end_fits⟩, fun h => ⟨h.1, h.2.1, h.2.2⟩⟩

instance (f : Frame) : Decidable f.Fits := decidable_of_iff _ (Frame.fits_iff f).symm

/-- What validity says of a frame's own bounds. -/
theorem Frame.Fits.rows {f : Frame} (hf : f.Fits) :
    f.start ≠ .unboundedFollowing ∧ f.end_ ≠ .unboundedPreceding ∧
      ∀ c len, f.start.frameLeft c len ≤ f.end_.frameRight c len := by
  obtain ⟨⟨start, end_⟩, exclusion⟩ := f
  exact FrameBounds.isValid_rows hf.valid

/-- Row `i` is in the window of row `c`: in its frame, and not the current row when the frame
excludes it. -/
def Frame.contains (f : Frame) (c i : ℕ) : Bool :=
  f.start.afterStart c i && f.end_.beforeEnd c i && !decide (f.exclusion = .currentRow ∧ i = c)

end RisingWave.Expr
