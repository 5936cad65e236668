import RisingWave.Common.Interval
import RisingWave.Lib.Grid

/-!
# Tumble and hop windows

`tumble_start` (`expr/src/vector_op/tumble.rs`), and the window bounds of a hop window: the
expressions that `HopWindow::derive_window_start_and_end_exprs`
(`frontend/src/optimizer/plan_node/generic/hop_window.rs`) builds, as `HopWindowExecutor`
evaluates them on a row of a `timestamptz` column. A `timestamptz` is its `i64` microseconds; an
error, and an `i64` or `i32` operation that overflows, is `none`.

On intervals of microseconds only, `get_window_start_with_offset` is `Grid.alignDown`
(`getWindowStartWithOffset_eq_alignDown`), `exact_div` is the quotient of the microseconds
(`exactDiv_of_usecs`), and the bounds of a row are the `k` windows of `Grid.hopStarts`
(`hopWindowBounds_of_usecs`).
-/

namespace RisingWave.Expr

open RisingWave.Common Grid

/-- `interval_to_micro_second`. -/
def intervalToMicroSecond (t : Interval) : Option ℤ := do
  let months ← checkedI64 (t.months * USECS_PER_MONTH)
  let days ← checkedI64 (t.days * USECS_PER_DAY)
  let monthsDays ← checkedI64 (months.1 + days.1)
  let usecs ← checkedI64 (monthsDays.1 + t.usecs)
  pure usecs.1

/-- `get_window_start_with_offset`: the remainder truncates toward zero and is fixed up when
negative. -/
def getWindowStartWithOffset (timestampMicroSecond : ℤ) (windowSize offset : Interval) :
    Option ℤ := do
  let windowSizeMicroSecond ← intervalToMicroSecond windowSize
  let offsetMicroSecond ← intervalToMicroSecond offset
  let diff ← checkedI64 (timestampMicroSecond - offsetMicroSecond)
  let remainder ← checkedRemI64 diff.1 windowSizeMicroSecond
  if remainder < 0 then
    let fixed ← checkedI64 (remainder + windowSizeMicroSecond)
    let start ← checkedI64 (timestampMicroSecond - fixed.1)
    pure start.1
  else
    let start ← checkedI64 (timestampMicroSecond - remainder)
    pure start.1

/-- `tumble_start(timestamptz, interval, interval)`. -/
def tumbleStartOffsetTimestamptz (tz : ℤ) (windowSize offset : Interval) : Option ℤ :=
  getWindowStartWithOffset tz windowSize offset

/-- `i64::checked_add` and `i64::checked_sub`. -/
def i64CheckedAdd (a b : ℤ) : Option ℤ := (checkedI64 (a + b)).map Subtype.val

def i64CheckedSub (a b : ℤ) : Option ℤ := (checkedI64 (a - b)).map Subtype.val

/-- `timestamptz_interval_quantitative`: an interval with months or days is refused. -/
def timestamptzIntervalQuantitative (l : ℤ) (r : Interval) (f : ℤ → ℤ → Option ℤ) :
    Option ℤ :=
  if r.months ≠ 0 ∨ r.days ≠ 0 then none else f l r.usecs

/-- `add(timestamptz, interval)` and `subtract(timestamptz, interval)`. -/
def timestamptzIntervalAddLegacy (l : ℤ) (r : Interval) : Option ℤ :=
  timestamptzIntervalQuantitative l r i64CheckedAdd

def timestamptzIntervalSubLegacy (l : ℤ) (r : Interval) : Option ℤ :=
  timestamptzIntervalQuantitative l r i64CheckedSub

/-- The number of windows: `exact_div` as a non-zero `usize`. -/
def hopUnits (windowSize windowSlide : Interval) : Option ℕ :=
  match windowSize.exactDiv windowSlide with
  | some x => if 0 < x then some x.toNat else none
  | none => none

/-- The plan of `derive_window_start_and_end_exprs`: for each window, the offsets of its start
and of its end from the hop start. -/
def deriveWindowOffsets (windowSize windowSlide : Interval) :
    Option (List (Interval × Interval)) := do
  let units ← hopUnits windowSize windowSlide
  (List.range units).mapM fun i => do
    let windowStartOffset ← windowSlide.checkedMulInt i
    let windowEndOffset ← windowSlide.checkedMulInt (i + units)
    pure (windowStartOffset, windowEndOffset)

/-- The hop start on a row with time `t`: `tumble_start(t - (size - slide), slide, offset)`. -/
def hopStart (windowSize windowSlide windowOffset : Interval) (t : ℤ) : Option ℤ := do
  let windowSizeSubSlide ← windowSize.checkedSub windowSlide
  let timeColShifted ← timestamptzIntervalSubLegacy t windowSizeSubSlide
  tumbleStartOffsetTimestamptz timeColShifted windowSlide windowOffset

/-- The window start and end columns that `HopWindowExecutor` gives a row with time `t`, one
pair for each window; a bound whose expression fails is `NULL` (`eval_infallible`). `none` where
the plan is refused. -/
def hopWindowBounds (windowSize windowSlide windowOffset : Interval) (t : ℤ) :
    Option (List (Option ℤ × Option ℤ)) := do
  let offsets ← deriveWindowOffsets windowSize windowSlide
  let start := hopStart windowSize windowSlide windowOffset t
  pure (offsets.map fun (windowStartOffset, windowEndOffset) =>
    (start.bind (timestamptzIntervalAddLegacy · windowStartOffset),
      start.bind (timestamptzIntervalAddLegacy · windowEndOffset)))

/-! ## Intervals of microseconds -/

section Usecs

variable {iv : Interval}

attribute [local simp] checkedI64 in
theorem intervalToMicroSecond_of_usecs (h : iv.months = 0 ∧ iv.days = 0) :
    intervalToMicroSecond iv = some iv.usecs := by
  have h0 : InI64 0 := by decide
  simp [intervalToMicroSecond, h.1, h.2, checkedI64, h0, iv.usecs_in]

attribute [local simp] timestamptzIntervalQuantitative in
theorem timestamptzIntervalAddLegacy_of_usecs {l : ℤ} (h : iv.months = 0 ∧ iv.days = 0)
    (hin : InI64 (l + iv.usecs)) : timestamptzIntervalAddLegacy l iv = some (l + iv.usecs) := by
  simp [timestamptzIntervalAddLegacy, timestamptzIntervalQuantitative, h.1, h.2, i64CheckedAdd,
    checkedI64_eq_some hin]

theorem timestamptzIntervalSubLegacy_of_usecs {l : ℤ} (h : iv.months = 0 ∧ iv.days = 0)
    (hin : InI64 (l - iv.usecs)) : timestamptzIntervalSubLegacy l iv = some (l - iv.usecs) := by
  simp [timestamptzIntervalSubLegacy, timestamptzIntervalQuantitative, h.1, h.2, i64CheckedSub,
    checkedI64_eq_some hin]

theorem checkedSub_of_usecs {other : Interval} (h : iv.months = 0 ∧ iv.days = 0)
    (ho : other.months = 0 ∧ other.days = 0) (hin : InI64 (iv.usecs - other.usecs)) :
    ∃ c, iv.checkedSub other = some c ∧ (c.months = 0 ∧ c.days = 0) ∧
      c.usecs = iv.usecs - other.usecs := by
  have h0 : InI32 0 := by decide
  refine ⟨⟨0, 0, iv.usecs - other.usecs, h0, h0, hin⟩, ?_, ⟨rfl, rfl⟩, rfl⟩
  simp [Interval.checkedSub, h.1, h.2, ho.1, ho.2, checkedI32, checkedI64, h0, hin]

theorem checkedMulInt_of_usecs {i : ℕ} (h : iv.months = 0 ∧ iv.days = 0)
    (hi : (i : ℤ) ≤ I32_MAX) (hin : InI64 (iv.usecs * i)) :
    ∃ c, iv.checkedMulInt i = some c ∧ (c.months = 0 ∧ c.days = 0) ∧ c.usecs = iv.usecs * i := by
  have h0 : InI32 0 := by decide
  have hi32 : InI32 i := by
    have : I32_MIN ≤ 0 := by decide
    exact ⟨by omega, hi⟩
  have hm : iv.months * i = 0 := by rw [h.1, Int.zero_mul]
  have hd : iv.days * i = 0 := by rw [h.2, Int.zero_mul]
  refine ⟨⟨0, 0, iv.usecs * i, h0, h0, hin⟩, ?_, ⟨rfl, rfl⟩, rfl⟩
  rw [Interval.checkedMulInt]
  dsimp only [Option.bind_eq_bind]
  rw [checkedI32_bind hi32]
  dsimp only
  rw [hm, checkedI32_bind h0, hd, checkedI32_bind h0, checkedI64_bind hin]
  rfl

variable {size slide offset : Interval}

theorem exactDiv_of_usecs (hsize : size.months = 0 ∧ size.days = 0)
    (hslide : slide.months = 0 ∧ slide.days = 0) (hpos : 0 < slide.usecs) {k : ℕ}
    (hk : size.usecs = k * slide.usecs) : size.exactDiv slide = some (k : ℤ) := by
  have hne : slide.usecs ≠ 0 := hpos.ne'
  have hrem : checkedRemI64 size.usecs slide.usecs = some 0 := by
    rw [checkedRemI64, if_neg (by omega), hk, Int.mul_tmod_left]
  have hdiv : size.usecs.tdiv slide.usecs = k := by
    rw [hk, Int.mul_tdiv_cancel _ hne]
  simp [Interval.exactDiv, Interval.checkUnit, hsize.1, hsize.2, hslide.1, hslide.2, hne, hrem,
    hdiv]

theorem hopUnits_of_usecs (hsize : size.months = 0 ∧ size.days = 0)
    (hslide : slide.months = 0 ∧ slide.days = 0) (hpos : 0 < slide.usecs) {k : ℕ} (hk1 : 1 ≤ k)
    (hk : size.usecs = k * slide.usecs) : hopUnits size slide = some k := by
  simp only [hopUnits, exactDiv_of_usecs hsize hslide hpos hk]
  rw [if_pos (by omega), Int.toNat_natCast]

attribute [local simp] InI64 I64_MIN I64_MAX in
/-- With no overflow, the window start is the start of the window on the grid that holds `t`. -/
theorem getWindowStartWithOffset_eq_alignDown {t : ℤ} (hsize : size.months = 0 ∧ size.days = 0)
    (hoffset : offset.months = 0 ∧ offset.days = 0) (hpos : 0 < size.usecs)
    (hdiff : InI64 (t - offset.usecs)) (hstart : InI64 (alignDown t size.usecs offset.usecs)) :
    getWindowStartWithOffset t size offset = some (alignDown t size.usecs offset.usecs) := by
  have hrem : checkedRemI64 (t - offset.usecs) size.usecs =
      some ((t - offset.usecs).tmod size.usecs) := by
    rw [checkedRemI64, if_neg (by omega)]
  have hfix := emod_eq_tmod_fixup hpos (t - offset.usecs)
  have h0 := Int.emod_nonneg (t - offset.usecs) hpos.ne'
  have h1 := Int.emod_lt_of_pos (t - offset.usecs) hpos
  rw [getWindowStartWithOffset]
  dsimp only [Option.bind_eq_bind, Option.pure_def]
  rw [intervalToMicroSecond_of_usecs hsize, Option.bind_some,
    intervalToMicroSecond_of_usecs hoffset, Option.bind_some, checkedI64_bind hdiff]
  dsimp only
  rw [hrem, Option.bind_some]
  split_ifs with hneg
  · -- a negative remainder: the fix-up adds the size, which brings it into `[0, size)`
    rw [if_pos hneg] at hfix
    have hin : InI64 ((t - offset.usecs).tmod size.usecs + size.usecs) := by
      have := size.usecs_in
      simp only [InI64, I64_MIN, I64_MAX] at this ⊢
      omega
    rw [checkedI64_bind hin]
    dsimp only
    rw [← hfix, ← alignDown, checkedI64_bind hstart]
  · rw [if_neg hneg] at hfix
    rw [← hfix, ← alignDown, checkedI64_bind hstart]

theorem hopStart_of_usecs {t : ℤ} (hsize : size.months = 0 ∧ size.days = 0)
    (hslide : slide.months = 0 ∧ slide.days = 0) (hsub : InI64 (size.usecs - slide.usecs))
    (hshift : InI64 (t - (size.usecs - slide.usecs))) :
    hopStart size slide offset t =
      getWindowStartWithOffset (t - (size.usecs - slide.usecs)) slide offset := by
  obtain ⟨c, hc, hcm, hcu⟩ := checkedSub_of_usecs hsize hslide hsub
  rw [hopStart]
  dsimp only [Option.bind_eq_bind]
  rw [hc, Option.bind_some, timestamptzIntervalSubLegacy_of_usecs hcm (hcu ▸ hshift),
    Option.bind_some, hcu]
  rfl

end Usecs

/-- A `mapM` whose every call succeeds, seen through a map of its results. -/
theorem exists_mapM_eq_some {α β γ : Type} {f : α → Option β} {F : β → γ} {G : α → γ} :
    ∀ {l : List α}, (∀ a ∈ l, ∃ b, f a = some b ∧ F b = G a) →
      ∃ bs, l.mapM f = some bs ∧ bs.map F = l.map G
  | [], _ => ⟨[], rfl, rfl⟩
  | a :: l, h => by
    obtain ⟨b, hb, hF⟩ := h a List.mem_cons_self
    obtain ⟨bs, hbs, hmap⟩ := exists_mapM_eq_some fun c hc => h c (List.mem_cons_of_mem a hc)
    refine ⟨b :: bs, ?_, by rw [List.map_cons, List.map_cons, hF, hmap]⟩
    rw [List.mapM_cons, hb, hbs]
    rfl

section Hop

variable {size slide offset : Interval}

/-- The bounds of a row: each window's start and end, from the hop start by whole slides. -/
theorem hopWindowBounds_of_usecs {t h : ℤ} {k : ℕ} (hslide : slide.months = 0 ∧ slide.days = 0)
    (hpos : 0 < slide.usecs) (hunits : hopUnits size slide = some k)
    (hstart : hopStart size slide offset t = some h) (hk32 : (2 * k - 1 : ℤ) ≤ I32_MAX)
    (hmul : InI64 (slide.usecs * (2 * k - 1)))
    (hin : ∀ i < k, InI64 (h + i * slide.usecs) ∧ InI64 (h + (i + k) * slide.usecs)) :
    hopWindowBounds size slide offset t = some ((List.range k).map fun i : ℕ =>
      (some (h + i * slide.usecs), some (h + (i + k) * slide.usecs))) := by
  -- the offsets are the multiples of the slide below `2 * k` of them
  have hoff : ∀ j : ℕ, j < 2 * k → ∃ c, slide.checkedMulInt j = some c ∧
      (c.months = 0 ∧ c.days = 0) ∧ c.usecs = slide.usecs * j := by
    intro j hj
    refine checkedMulInt_of_usecs hslide (by omega) ?_
    have h1 : 0 ≤ slide.usecs * j := mul_nonneg hpos.le (Int.natCast_nonneg j)
    have h2 : slide.usecs * j ≤ slide.usecs * (2 * k - 1) :=
      mul_le_mul_of_nonneg_left (by omega) hpos.le
    simp only [InI64, I64_MIN, I64_MAX] at hmul ⊢
    omega
  obtain ⟨offs, hoffs, hmap⟩ : ∃ offs, deriveWindowOffsets size slide = some offs ∧
      offs.map (fun (windowStartOffset, windowEndOffset) =>
        ((some h).bind (timestamptzIntervalAddLegacy · windowStartOffset),
          (some h).bind (timestamptzIntervalAddLegacy · windowEndOffset))) =
      (List.range k).map fun i : ℕ =>
        (some (h + i * slide.usecs), some (h + (i + k) * slide.usecs)) := by
    rw [deriveWindowOffsets, hunits]
    refine exists_mapM_eq_some fun i hi => ?_
    rw [List.mem_range] at hi
    obtain ⟨a, ha, ham, hau⟩ := hoff i (by omega)
    obtain ⟨b, hb, hbm, hbu⟩ := hoff (i + k) (by omega)
    have hia : InI64 (h + a.usecs) := by
      rw [hau, Int.mul_comm]
      exact (hin i hi).1
    have hib : InI64 (h + b.usecs) := by
      rw [hbu, Int.mul_comm, Nat.cast_add]
      exact (hin i hi).2
    refine ⟨(a, b), by rw [ha, hb]; rfl, ?_⟩
    dsimp only
    rw [Option.bind_some, Option.bind_some, timestamptzIntervalAddLegacy_of_usecs ham hia,
      timestamptzIntervalAddLegacy_of_usecs hbm hib, hau, hbu, Nat.cast_add, Int.mul_comm,
      Int.mul_comm slide.usecs]
  rw [hopWindowBounds, hoffs, hstart]
  exact congrArg some hmap

end Hop

end RisingWave.Expr
