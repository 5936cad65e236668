import Mathlib
import RisingWave.Expr.WindowBuffer
import RisingWave.Lib.IndexRange

/-!
# The window buffer realises ROWS frames

Let `A` be the entries appended so far and `c` the number of slides. The buffer holds `A` but
its first `r` entries, the ones drained; its `curr_idx` is `c - r`, and its `left_idx` and
`right_excl_idx` are the ends of the frame of row `c` among `A`, less `r` (`Refines`). `append`
keeps this, and `slide` drains up to `min (frame start of c + 1) (c + 1)` (`Refines.slide`), as
long as the frame is valid and the rows and offsets stay below `2 ^ 62`, where the `isize`
arithmetic is exact (`Frame.Fits`).

From `Refines`: `curr_key` is the key of `A[c]`, `curr_window_values` the values of the rows of
the frame of `c` in order (`Frame.windowValues`), less `c` itself when it is excluded, and the
two saturation flags say whether the frame's first and last rows exist. Over a whole run of
appends and slides, each slide made while there is a current row, what was drained followed by
the buffer is `A`: no entry is lost or given twice (`run_window`).
-/

namespace RisingWave.Expr

open FrameBound

/-- The values in the window of row `c` of the entries `A`, in order. -/
def Frame.windowValues {K V : Type} (f : Frame) (A : List (Entry K V)) (c : ℕ) : List V :=
  ((List.range A.length).filter (f.contains c)).filterMap fun i => A[i]?.map Entry.value

/-- How many of `len` entries the frame no longer needs once the current row is `c + 1`: those
before both its first row and the current row. -/
def Frame.neededFrom (f : Frame) (c len : ℕ) : ℕ := min (f.start.frameLeft (c + 1) len) (c + 1)

/-- The rows of the window of row `c` among `len` rows: the rows of its frame, less `c` when the
frame excludes the current row. -/
theorem Frame.filter_contains {f : Frame} (hf : f.Fits) (c len : ℕ) :
    (List.range len).filter (f.contains c) =
      (List.range' (f.start.frameLeft c len)
        (f.end_.frameRight c len - f.start.frameLeft c len)).filter
          fun i => !decide (f.exclusion = .currentRow ∧ i = c) := by
  obtain ⟨hs, he, hLR⟩ := hf.rows
  have hR := frameRight_le f.end_ c len
  rw [List.range_eq_range', IndexRange.filter_range'_window (f.start.frameLeft c len)
    (f.end_.frameRight c len - f.start.frameLeft c len) (by have := hLR c len; omega), zero_add]
  intro i _ hi
  rw [Frame.contains, afterStart_eq hs hi, beforeEnd_eq he hi]
  simp only [Nat.zero_add, Nat.add_sub_cancel' (hLR c len), Bool.decide_and]

/-- `range_except` of two ranges, neither backwards, gives two ranges inside the first whose indices
are those of the first less those of the second; its `unreachable!()` is. -/
theorem rangeExcept_spec {a b : ℕ × ℕ} (ha : a.1 ≤ a.2) (hb : b.1 ≤ b.2) :
    ∃ x y, rangeExcept a b = some (x, y) ∧ x.1 ≤ x.2 ∧ x.2 ≤ a.2 ∧ y.1 ≤ y.2 ∧ y.2 ≤ a.2 ∧
      List.range' x.1 (x.2 - x.1) ++ List.range' y.1 (y.2 - y.1) =
        (List.range' a.1 (a.2 - a.1)).filter fun i => !(decide (b.1 ≤ i) && decide (i < b.2)) := by
  obtain ⟨a₁, a₂⟩ := a
  obtain ⟨b₁, b₂⟩ := b
  dsimp only at ha hb ⊢
  unfold rangeExcept
  dsimp only
  split_ifs with h₁ h₂ h₃ h₄ h₅
  · -- `a` and `b` are disjoint: all of `a`
    refine ⟨_, _, rfl, ha, le_rfl, le_rfl, Nat.zero_le _, ?_⟩
    rw [IndexRange.filter_range'_of_true fun i hs hi => by
      simp only [Bool.not_eq_true', Bool.and_eq_false_iff, decide_eq_false_iff_not]
      omega]
    simp
  · -- `b` covers `a`: nothing
    refine ⟨_, _, rfl, le_rfl, Nat.zero_le _, le_rfl, Nat.zero_le _, ?_⟩
    rw [IndexRange.filter_range'_of_false fun i hs hi => by
      simp only [Bool.not_eq_false', Bool.and_eq_true, decide_eq_true_eq]
      omega]
    rfl
  · -- `b` inside `a`: the pieces before and after it
    refine ⟨_, _, rfl, h₃.1.le, by omega, h₃.2.le, le_rfl, ?_⟩
    rw [IndexRange.filter_range'_gap (b₁ - a₁) (b₂ - b₁) (by omega) fun i hs hi => by
      simp only [Bool.not_eq_true', Bool.and_eq_false_iff, decide_eq_false_iff_not]
      omega]
    congr 2 <;> omega
  · -- `b` covers the end of `a`: the piece before it
    refine ⟨_, _, rfl, by omega, by omega, le_rfl, Nat.zero_le _, ?_⟩
    rw [IndexRange.filter_range'_gap (b₁ - a₁) (a₂ - b₁) (by omega) fun i hs hi => by
      simp only [Bool.not_eq_true', Bool.and_eq_false_iff, decide_eq_false_iff_not]
      omega]
    rw [show a₂ - a₁ - (b₁ - a₁) - (a₂ - b₁) = 0 by omega]
    rfl
  · -- `b` covers the start of `a`: the piece after it
    refine ⟨_, _, rfl, by omega, le_rfl, le_rfl, Nat.zero_le _, ?_⟩
    rw [IndexRange.filter_range'_gap 0 (b₂ - a₁) (by omega) fun i hs hi => by
      simp only [Bool.not_eq_true', Bool.and_eq_false_iff, decide_eq_false_iff_not]
      omega]
    rw [show a₁ + 0 + (b₂ - a₁) = b₂ by omega, show a₂ - a₁ - 0 - (b₂ - a₁) = a₂ - b₂ by omega]
    simp
  · omega
theorem Frame.neededFrom_le (f : Frame) (c len : ℕ) : f.neededFrom c len ≤ len :=
  (min_le_left _ _).trans (frameLeft_le _ _ _)

namespace WindowBuffer

variable {K V : Type}

/-! ## Recomputing the ends -/

theorem leftOf_some {o : ℤ} {c len : ℕ} (ho : -2 ^ 62 < o ∧ o < 2 ^ 62) (hc : c < 2 ^ 62) :
    leftOf (some o) c len = if 0 ≤ (c : ℤ) + o then min ((c : ℤ) + o).toNat len else 0 := by
  have hc' : isize (c : ℤ) = c := isize_of_lt (by omega) (by omega)
  simp only [leftOf, hc']
  rw [isize_of_lt (by omega) (by omega)]
  split_ifs with h
  · rw [usize_of_lt h (by omega)]
  · rfl

theorem rightOf_some {o : ℤ} {c len : ℕ} (ho : -2 ^ 62 < o ∧ o < 2 ^ 62) (hc : c < 2 ^ 62) :
    rightOf (some o) c len =
      if 0 ≤ (c : ℤ) + o + 1 then min ((c : ℤ) + o + 1).toNat len else 0 := by
  have hc' : isize (c : ℤ) = c := isize_of_lt (by omega) (by omega)
  have hco : isize ((c : ℤ) + o) = c + o := isize_of_lt (by omega) (by omega)
  simp only [rightOf, hc', hco]
  rw [isize_of_lt (by omega) (by omega)]
  split_ifs with h
  · rw [usize_of_lt h (by omega)]
  · rfl

/-- Relative to the `r` entries drained, the left end is the frame's first row. -/
theorem leftOf_eq {start : FrameBound ℕ} {c r len : ℕ} (hs : start.OffsetFits) (hc : c < 2 ^ 62)
    (hrc : r ≤ c) (hrl : r ≤ frameLeft start c len) :
    leftOf start.toOffset (c - r) (len - r) = frameLeft start c len - r := by
  rw [toOffset_eq hs]
  cases ho : start.offset with
  | none => rw [frameLeft_of_offset_none ho, Nat.zero_sub]; rfl
  | some o =>
    have hl := frameLeft_of_offset ho c len
    rw [leftOf_some (offset_lt hs ho) (by omega)]
    split_ifs at hl ⊢ <;> omega

/-- Relative to the `r` entries drained, the right end is one past the frame's last row. -/
theorem rightOf_eq {end_ : FrameBound ℕ} {c r len : ℕ} (he : end_.OffsetFits) (hc : c < 2 ^ 62)
    (hrc : r ≤ c) (hrr : r ≤ frameRight end_ c len) (hrl : r ≤ len) :
    rightOf end_.toOffset (c - r) (len - r) = frameRight end_ c len - r := by
  rw [toOffset_eq he]
  cases ho : end_.offset with
  | none => rw [frameRight_of_offset_none ho]; rfl
  | some o =>
    have hr := frameRight_of_offset ho c len
    rw [rightOf_some (offset_lt he ho) (by omega)]
    split_ifs at hr ⊢ <;> omega

/-- `recalculate_left_right` sets both ends whether or not the buffer is empty. -/
theorem recalculateLeftRight_eq (w : WindowBuffer K V) :
    w.recalculateLeftRight =
      { w with leftIdx := leftOf w.frame.start.toOffset w.currIdx w.buffer.length,
               rightExclIdx := rightOf w.frame.end_.toOffset w.currIdx w.buffer.length } := by
  obtain ⟨⟨⟨start, end_⟩, exclusion⟩, buffer, currIdx, leftIdx, rightExclIdx⟩ := w
  unfold recalculateLeftRight
  split_ifs <;> rfl

/-! ## The invariant -/

/-- The buffer `w` after the entries `A` were appended and `c` slides made, with the first `r`
entries drained. -/
structure Refines (w : WindowBuffer K V) (A : List (Entry K V)) (c r : ℕ) : Prop where
  buffer_eq : w.buffer = A.drop r
  currIdx_add : w.currIdx + r = c
  drained_le : r ≤ w.frame.start.frameLeft c A.length
  leftIdx_add : w.leftIdx + r = w.frame.start.frameLeft c A.length
  rightExclIdx_add : w.rightExclIdx + r = w.frame.end_.frameRight c A.length

variable {w : WindowBuffer K V} {A : List (Entry K V)} {c r : ℕ}

/-- Recomputing the ends of a buffer that holds `A` past its first `r` entries, at row `c`. -/
theorem refines_recalculateLeftRight (hf : w.frame.Fits) (hc : c < 2 ^ 62)
    (hb : w.buffer = A.drop r) (hcurr : w.currIdx + r = c)
    (hr : r ≤ w.frame.start.frameLeft c A.length) :
    Refines w.recalculateLeftRight A c r := by
  have hrr := hr.trans (hf.rows.2.2 c A.length)
  have hra := hr.trans (frameLeft_le w.frame.start c A.length)
  have hcurr' : w.currIdx = c - r := by omega
  have hlen : w.buffer.length = A.length - r := by rw [hb, List.length_drop]
  rw [recalculateLeftRight_eq]
  refine ⟨hb, hcurr, hr, ?_, ?_⟩
  · dsimp only
    rw [hcurr', hlen, leftOf_eq hf.start_fits hc (by omega) hr]
    omega
  · dsimp only
    rw [hcurr', hlen, rightOf_eq hf.end_fits hc (by omega) hrr hra]
    omega

/-! ## The steps -/

theorem new_refines {f : Frame} (hv : f.bounds.isValid = true) :
    ∃ w : WindowBuffer K V, new f = some w ∧ w.frame = f ∧ Refines w [] 0 0 := by
  refine ⟨⟨f, [], 0, 0, 0⟩, by rw [new, if_pos hv], rfl, rfl, rfl, ?_, ?_, ?_⟩
  · exact Nat.zero_le _
  · simp only [List.length_nil]
    exact (Nat.le_zero.mp (frameLeft_le _ _ _)).symm
  · simp only [List.length_nil]
    exact (Nat.le_zero.mp (frameRight_le _ _ _)).symm

@[simp] theorem frame_recalculateLeftRight (w : WindowBuffer K V) :
    w.recalculateLeftRight.frame = w.frame := by
  rw [recalculateLeftRight_eq]

@[simp] theorem frame_append (w : WindowBuffer K V) (key : K) (value : V) :
    (w.append key value).frame = w.frame :=
  frame_recalculateLeftRight _

/-- `append` keeps the invariant, with the entry at the end of `A`. -/
theorem Refines.append (hw : Refines w A c r) (hf : w.frame.Fits) (hc : c < 2 ^ 62) (key : K)
    (value : V) : Refines (w.append key value) (A ++ [⟨key, value⟩]) c r := by
  have hra := hw.drained_le.trans (frameLeft_le w.frame.start c A.length)
  refine refines_recalculateLeftRight hf hc ?_ hw.currIdx_add ?_
  · rw [hw.buffer_eq, List.drop_append_of_le_length hra]
  · exact hw.drained_le.trans (frameLeft_mono _ le_rfl (by simp))

theorem Refines.le_neededFrom (hw : Refines w A c r) : r ≤ w.frame.neededFrom c A.length :=
  le_min (hw.drained_le.trans (frameLeft_mono _ (Nat.le_succ c) le_rfl))
    (by have := hw.currIdx_add; omega)

/-- `slide` moves to row `c + 1` and drains the entries of `A` from the `r`-th up to those the
frame of `c + 1` or the row itself still needs. -/
theorem Refines.slide (hw : Refines w A c r) (hf : w.frame.Fits) (hc : c + 1 < 2 ^ 62)
    (hA : A.length < 2 ^ 62) :
    ∃ w', w.slide = some ((((A.drop r).take (w.frame.neededFrom c A.length - r)).map
        fun e => (e.key, e.value)), w') ∧
      w'.frame = w.frame ∧ Refines w' A (c + 1) (w.frame.neededFrom c A.length) := by
  -- the buffer moved to row `c + 1`, before the drain
  obtain ⟨w₁, hw₁⟩ : ∃ w₁,
      ({ w with currIdx := w.currIdx + 1 } : WindowBuffer K V).recalculateLeftRight = w₁ :=
    ⟨_, rfl⟩
  have hfr : w₁.frame = w.frame := by rw [← hw₁, frame_recalculateLeftRight]
  have h₁ : Refines w₁ A (c + 1) r := by
    rw [← hw₁]
    refine refines_recalculateLeftRight hf (by omega) hw.buffer_eq ?_
      (hw.drained_le.trans (frameLeft_mono _ (Nat.le_succ c) le_rfl))
    have := hw.currIdx_add
    dsimp only
    omega
  have hfl := h₁.leftIdx_add
  have hfr' := h₁.rightExclIdx_add
  have hcurr := h₁.currIdx_add
  rw [hfr] at hfl hfr'
  have hR := hf.rows.2.2 (c + 1) A.length
  have hm : min w₁.leftIdx w₁.currIdx = w.frame.neededFrom c A.length - r := by
    unfold Frame.neededFrom
    omega
  have hlen : w₁.buffer.length = A.length - r := by rw [h₁.buffer_eq, List.length_drop]
  have hle : min w₁.leftIdx w₁.currIdx ≤ w₁.buffer.length := by
    have := frameLeft_le w.frame.start (c + 1) A.length
    omega
  have := frameRight_le w.frame.end_ (c + 1) A.length
  have hright : usize ((w₁.rightExclIdx : ℤ) - (min w₁.leftIdx w₁.currIdx : ℕ)) =
      w₁.rightExclIdx - min w₁.leftIdx w₁.currIdx := by
    rw [usize_of_lt (by omega) (by omega)]
    omega
  have hnf := hw.le_neededFrom
  rw [hm] at hle hright
  refine ⟨{ w₁ with currIdx := w₁.currIdx - (w.frame.neededFrom c A.length - r),
                    leftIdx := w₁.leftIdx - (w.frame.neededFrom c A.length - r),
                    rightExclIdx := w₁.rightExclIdx - (w.frame.neededFrom c A.length - r),
                    buffer := w₁.buffer.drop (w.frame.neededFrom c A.length - r) },
    ?_, hfr, ?_, ?_, ?_, ?_, ?_⟩
  · unfold WindowBuffer.slide
    rw [hw₁]
    dsimp only
    rw [hm, if_pos hle, hright, h₁.buffer_eq]
  · dsimp only
    rw [h₁.buffer_eq, List.drop_drop, Nat.add_sub_cancel' hnf]
  · dsimp only
    omega
  · exact hfr ▸ min_le_left _ _
  · dsimp only
    rw [hfr]
    unfold Frame.neededFrom at hnf ⊢
    omega
  · dsimp only
    rw [hfr]
    unfold Frame.neededFrom at hnf ⊢
    omega

/-! ## What the buffer reads out -/

/-- `VecDeque::range` of a range inside the buffer reads the buffer at the range's indices. -/
theorem rangeValues_eq {buffer : List (Entry K V)} {x : ℕ × ℕ} (h₁ : x.1 ≤ x.2)
    (h₂ : x.2 ≤ buffer.length) :
    rangeValues buffer x =
      some ((List.range' x.1 (x.2 - x.1)).filterMap fun i => buffer[i]?.map Entry.value) := by
  rw [rangeValues, if_pos ⟨h₁, h₂⟩, IndexRange.map_take_drop _ _ (by omega)]

/-- The values in `a` but not `b`, as `curr_window_values` reads them through `range_except`. -/
theorem rangeExcept_values {buffer : List (Entry K V)} {a b : ℕ × ℕ} (ha : a.1 ≤ a.2)
    (hb : b.1 ≤ b.2) (hlen : a.2 ≤ buffer.length) :
    (do
      let (left, right) ← rangeExcept a b
      let l ← rangeValues buffer left
      let r ← rangeValues buffer right
      return l ++ r) =
      some (((List.range' a.1 (a.2 - a.1)).filter
        fun i => !(decide (b.1 ≤ i) && decide (i < b.2))).filterMap
          fun i => buffer[i]?.map Entry.value) := by
  obtain ⟨x, y, hxy, hx₁, hx₂, hy₁, hy₂, hidx⟩ := rangeExcept_spec ha hb
  rw [hxy, Option.bind_eq_bind, Option.bind_some]
  dsimp only
  rw [rangeValues_eq hx₁ (by omega), rangeValues_eq hy₁ (by omega)]
  rw [← hidx, List.filterMap_append]
  rfl

/-- `curr_window_values` of a buffer whose ends are in order and inside it reads the buffer from
`left_idx` to `right_excl_idx`, less the current row when the frame excludes it. -/
theorem currWindowValues_eq_filterMap (hlr : w.leftIdx ≤ w.rightExclIdx)
    (hrl : w.rightExclIdx ≤ w.buffer.length) :
    w.currWindowValues =
      some (((List.range' w.leftIdx (w.rightExclIdx - w.leftIdx)).filter
        fun i => !decide (w.frame.exclusion = .currentRow ∧ i = w.currIdx)).filterMap
          fun i => w.buffer[i]?.map Entry.value) := by
  unfold currWindowValues
  simp only [hlr, hrl, and_self, ↓reduceIte]
  split_ifs with hempty
  · rw [show w.rightExclIdx - w.leftIdx = 0 by omega]
    rfl
  · rw [rangeExcept_values hlr (by split <;> simp) hrl]
    congr 3
    funext i
    split <;> rw [Bool.eq_iff_iff] <;> simp only [*, Bool.not_eq_true', Bool.and_eq_false_iff,
      decide_eq_false_iff_not, true_and, reduceCtorEq, false_and, not_false_eq_true, iff_true]
    all_goals omega

/-- `curr_key` is the key of row `c`. -/
theorem Refines.currKey_eq (hw : Refines w A c r) : w.currKey = A[c]?.map Entry.key := by
  have hcurr := hw.currIdx_add
  rw [currKey, hw.buffer_eq, List.getElem?_drop, show r + w.currIdx = c by omega]

theorem Refines.isSome_currKey (hw : Refines w A c r) :
    w.currKey.isSome = decide (c < A.length) := by
  rw [hw.currKey_eq, Option.isSome_map]
  by_cases hc : c < A.length <;> simp [hc]

/-- `preceding_saturated`: there is a current row, and the first row of its frame exists. -/
theorem Refines.precedingSaturated_eq (hw : Refines w A c r) (hf : w.frame.Fits) :
    w.precedingSaturated = (decide (c < A.length) && w.frame.start.startReached c) := by
  have hkey := hw.isSome_currKey
  have hcurr := hw.currIdx_add
  have hL := hw.leftIdx_add
  obtain ⟨hne, -, -⟩ := hf.rows
  have hs := hf.start_fits
  obtain ⟨⟨⟨start, end_⟩, exclusion⟩, buffer, currIdx, leftIdx, rightExclIdx⟩ := w
  dsimp only [Frame.start] at hcurr hL hne hs
  clear hw hf
  unfold precedingSaturated
  rw [hkey]
  dsimp only [Frame.start]
  cases hc : decide (c < A.length) with
  | false => rfl
  | true =>
    simp only [decide_eq_true_eq] at hc
    -- only a start some rows preceding is saturated by the rows before it
    cases start with
    | preceding n =>
      simp only [OffsetFits] at hs
      simp only [frameLeft] at hL
      rw [toOffset_eq (by exact hs)]
      dsimp only [offset, currKey]
      rw [usize_of_lt (by omega) (by omega)]
      split_ifs <;> rw [Bool.eq_iff_iff] <;>
        simp only [startReached, Int.natAbs_neg, Int.natAbs_natCast, Bool.true_and,
          decide_eq_true_eq, true_iff] <;> omega
    | following n =>
      rw [toOffset_eq (by exact hs)]
      simp [offset, startReached]
    | unboundedFollowing => exact absurd rfl hne
    | _ => rfl

/-- `following_saturated`: there is a current row, and the last row of its frame exists. -/
theorem Refines.followingSaturated_eq (hw : Refines w A c r) (hf : w.frame.Fits) :
    w.followingSaturated = (decide (c < A.length) && w.frame.end_.endReached c A.length) := by
  have hkey := hw.isSome_currKey
  have hcurr := hw.currIdx_add
  have hR := hw.rightExclIdx_add
  obtain ⟨-, hne, -⟩ := hf.rows
  have he := hf.end_fits
  obtain ⟨⟨⟨start, end_⟩, exclusion⟩, buffer, currIdx, leftIdx, rightExclIdx⟩ := w
  dsimp only [Frame.end_] at hcurr hR hne he
  clear hw hf
  unfold followingSaturated
  rw [hkey]
  dsimp only [Frame.end_]
  cases hc : decide (c < A.length) with
  | false => rfl
  | true =>
    simp only [decide_eq_true_eq] at hc
    -- only an end some rows following waits for the rows after the current one
    cases end_ with
    | following n =>
      simp only [OffsetFits] at he
      simp only [frameRight] at hR
      rw [toOffset_eq (by exact he)]
      dsimp only [offset]
      have hn : usize (n : ℤ) = n := usize_of_lt (by omega) (by omega)
      have hgap : usize ((rightExclIdx : ℤ) - 1 - currIdx) =
          ((rightExclIdx : ℤ) - 1 - currIdx).toNat := usize_of_lt (by omega) (by omega)
      rw [hn, hgap]
      split_ifs <;> rw [Bool.eq_iff_iff] <;>
        simp only [endReached, Bool.true_and, decide_eq_true_eq, true_iff] <;> omega
    | preceding n =>
      rw [toOffset_eq (by exact he)]
      simp [offset, endReached]
    | unboundedPreceding => exact absurd rfl hne
    | _ => rfl

/-- `curr_window_values` are the values of the window of row `c`. -/
theorem Refines.currWindowValues_eq (hw : Refines w A c r) (hf : w.frame.Fits) :
    w.currWindowValues = some (w.frame.windowValues A c) := by
  have hcurr := hw.currIdx_add
  have hL := hw.leftIdx_add
  have hR := hw.rightExclIdx_add
  have hLR := hf.rows.2.2 c A.length
  have hRA := frameRight_le w.frame.end_ c A.length
  have hlen : w.buffer.length = A.length - r := by rw [hw.buffer_eq, List.length_drop]
  -- the frame's rows among `A` are the buffer's from `left_idx`, moved up by `r`
  have hidx : List.range' (w.frame.start.frameLeft c A.length)
      (w.frame.end_.frameRight c A.length - w.frame.start.frameLeft c A.length) =
        (List.range' w.leftIdx (w.rightExclIdx - w.leftIdx)).map (r + ·) := by
    rw [List.map_add_range']
    congr 1 <;> omega
  rw [currWindowValues_eq_filterMap (by omega) (by omega), Frame.windowValues,
    Frame.filter_contains hf, hidx, List.filter_map, hw.buffer_eq, IndexRange.filterMap_drop]
  congr 4
  funext i
  simp only [Function.comp_apply, show r + i = c ↔ i = w.currIdx by omega]

/-- `smallest_key` is the key of the first entry not drained. -/
theorem Refines.smallestKey_eq (hw : Refines w A c r) : w.smallestKey = A[r]?.map Entry.key := by
  rw [smallestKey, hw.buffer_eq, List.head?_drop]

/-- `curr_window`: the key of row `c`, and whether the first and last rows of its frame exist. -/
theorem Refines.currWindow_eq (hw : Refines w A c r) (hf : w.frame.Fits) :
    w.currWindow = ⟨A[c]?.map Entry.key,
      decide (c < A.length) && w.frame.start.startReached c,
      decide (c < A.length) && w.frame.end_.endReached c A.length⟩ := by
  rw [currWindow, hw.currKey_eq, hw.precedingSaturated_eq hf, hw.followingSaturated_eq hf]

/-! ## Runs of calls -/

/-- A call the window state makes on its buffer. -/
inductive Call (K V : Type) where
  | append (key : K) (value : V)
  | slide
  deriving DecidableEq, Repr

namespace Call

/-- The entries the calls append, in order. -/
def appended : List (Call K V) → List (Entry K V)
  | [] => []
  | append key value :: cs => ⟨key, value⟩ :: appended cs
  | slide :: cs => appended cs

/-- How many of the calls slide. -/
def slides : List (Call K V) → ℕ
  | [] => 0
  | append _ _ :: cs => slides cs
  | slide :: cs => slides cs + 1

theorem length_appended_le (cs : List (Call K V)) : (appended cs).length ≤ cs.length := by
  induction cs with
  | nil => rfl
  | cons c cs ih => cases c <;> simp only [appended, List.length_cons] <;> omega

theorem slides_le (cs : List (Call K V)) : slides cs ≤ cs.length := by
  induction cs with
  | nil => rfl
  | cons c cs ih => cases c <;> simp only [slides, List.length_cons] <;> omega

end Call

/-- The calls made one after the other, with what the slides drained, in order; `none` when one
panics. -/
def runCalls : List (Call K V) → WindowBuffer K V → Option (List (K × V) × WindowBuffer K V)
  | [], w => some ([], w)
  | .append key value :: cs, w => runCalls cs (w.append key value)
  | .slide :: cs, w => do
    let (drained, w) ← w.slide
    let (drained', w) ← runCalls cs w
    return (drained ++ drained', w)

/-- Over a run of calls the invariant holds at the entries appended and the slides made, and the
slides drain the entries from the `r`-th up to the first one the buffer keeps. -/
theorem Refines.runCalls (hw : Refines w A c r) (hf : w.frame.Fits) (cs : List (Call K V))
    (hc : c + cs.length < 2 ^ 62) (hA : A.length + cs.length < 2 ^ 62) :
    ∃ d w' r', runCalls cs w = some (d, w') ∧ w'.frame = w.frame ∧ r ≤ r' ∧
      Refines w' (A ++ Call.appended cs) (c + Call.slides cs) r' ∧
      d = (((A ++ Call.appended cs).drop r).take (r' - r)).map fun e => (e.key, e.value) := by
  induction cs generalizing w A c r with
  | nil => exact ⟨[], w, r, rfl, rfl, le_rfl, by simpa [Call.appended, Call.slides] using hw, by simp⟩
  | cons call cs ih =>
    simp only [List.length_cons] at hc hA
    cases call with
    | append key value =>
      have hf' : (w.append key value).frame.Fits := by rw [frame_append]; exact hf
      obtain ⟨d, w', r', hrun, hfr, hr, hw', hd⟩ :=
        ih (hw.append hf (by omega) key value) hf' (by omega) (by simp; omega)
      simp only [List.append_assoc, List.singleton_append] at hw' hd
      exact ⟨d, w', r', hrun, hfr.trans (frame_append w key value), hr, hw', hd⟩
    | slide =>
      obtain ⟨w₁, hs, hfr₁, h₁⟩ := hw.slide hf (by omega) (by omega)
      obtain ⟨d, w', r', hrun, hfr, hr, hw', hd⟩ := ih h₁ (hfr₁ ▸ hf) (by omega) (by omega)
      have hnf := hw.le_neededFrom
      have hA' := w.frame.neededFrom_le c A.length
      refine ⟨((A.drop r).take (w.frame.neededFrom c A.length - r)).map
        (fun e => (e.key, e.value)) ++ d, w', r', ?_, hfr.trans hfr₁, hnf.trans hr, ?_, ?_⟩
      · simp only [runCalls, hs, hrun, Option.bind_eq_bind, Option.bind_some, Option.pure_def]
      · rw [Call.appended, Call.slides, show c + (Call.slides cs + 1) = c + 1 + Call.slides cs by
          omega]
        exact hw'
      · -- the entries drained now, then those drained later
        rw [hd, ← List.map_append, ← IndexRange.take_drop_append_of_le hnf hA',
          IndexRange.take_drop_append hnf hr]
        rfl

/-- What a buffer reached from an empty one by the calls `cs`, having drained `d`, is for: the
entries drained and those it holds are the entries appended, in order, and it reads out the
current row, the saturation of its frame and its window, among them, at the row of the slides
made. -/
structure Realises (f : Frame) (cs : List (Call K V)) (d : List (K × V)) (w : WindowBuffer K V) :
    Prop where
  drained_append_buffer : d.map (fun p => Entry.mk p.1 p.2) ++ w.buffer = Call.appended cs
  currWindow_eq : w.currWindow =
    ⟨(Call.appended cs)[Call.slides cs]?.map Entry.key,
      decide (Call.slides cs < (Call.appended cs).length) && f.start.startReached (Call.slides cs),
      decide (Call.slides cs < (Call.appended cs).length) &&
        f.end_.endReached (Call.slides cs) (Call.appended cs).length⟩
  currWindowValues_eq :
    w.currWindowValues = some (f.windowValues (Call.appended cs) (Call.slides cs))

/-- From `new`, a run of fewer than `2 ^ 62` calls never panics and realises the frame. -/
theorem runCalls_new {f : Frame} (hf : f.Fits) (cs : List (Call K V))
    (hcs : cs.length < 2 ^ 62) :
    ∃ w₀ d w, new f = some w₀ ∧ runCalls cs w₀ = some (d, w) ∧ Realises f cs d w := by
  obtain ⟨w₀, hnew, hfr₀, h₀⟩ := @new_refines K V f hf.valid
  subst hfr₀
  obtain ⟨d, w, r, hrun, hfr, -, hw, hd⟩ := h₀.runCalls hf cs (by simpa) (by simpa)
  simp only [List.nil_append, Nat.zero_add, Nat.sub_zero, List.drop_zero] at hw hd
  refine ⟨w₀, d, w, hnew, hrun, ⟨?_, ?_, ?_⟩⟩
  · -- the slides drained exactly the entries before the buffer's
    rw [hd, List.map_map, hw.buffer_eq]
    exact (congrArg (· ++ _) (List.map_id' _)).trans (List.take_append_drop _ _)
  · rw [hw.currWindow_eq (hfr ▸ hf), hfr]
  · rw [hw.currWindowValues_eq (hfr ▸ hf), hfr]

theorem runCalls_new_preceding_to_current_row :
    ∃ w₀ d w, new (Frame.rows (.preceding 1) .currentRow) = some w₀ ∧
      runCalls [.append 1 10, .append 2 20, .slide, .append 3 30, .slide] w₀ = some (d, w) ∧
      Realises (Frame.rows (.preceding 1) .currentRow)
        [Call.append (1 : ℕ) (10 : ℕ), .append 2 20, .slide, .append 3 30, .slide] d w :=
  runCalls_new (by decide) _ (by decide)

-- the second slide drains the first row, as in the source's test of this frame
example : ((new (Frame.rows (.preceding 1) .currentRow)).bind
    (runCalls [Call.append (1 : ℕ) (10 : ℕ), .append 2 20, .slide, .append 3 30, .slide])).map
      Prod.fst = some [(1, 10)] := by
  decide

end WindowBuffer

end RisingWave.Expr
