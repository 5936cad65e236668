import Mathlib
import RisingWave.Common.Interval

/-!
# ISO 8601 text of intervals

`Interval::as_iso_8601` and `Interval::from_iso_8601` (`types/interval.rs`), which the JSON sink
and the JSON source use to write and read intervals. A string is its list of characters.
`as_iso_8601` writes years, months and days with their signs and the time from the absolute
values of the seconds and their fraction; `from_iso_8601` finds the leftmost match of
`P([0-9]+)Y([0-9]+)M([0-9]+)DT([0-9]+)H([0-9]+)M([0-9]+(?:\.[0-9]+)?)S`, whose groups hold no
sign. Each group of the pattern ends before a fixed character that is not a digit, so the
regex engine's backtracking never changes a match: the groups are read by maximal runs of
digits.

The seconds go through `rust_decimal`: `Decimal::from_str_exact` holds a 96-bit mantissa and at
most 28 digits after the point, `checked_mul` by `1000000` is exact while the product's
mantissa fits 96 bits (past that the source rescales, which this model leaves out as a
failure), and `try_into` an `i64` truncates the fraction.

An interval and its negation with no months or days print alike (`asIso8601_neg_usecs`), so the
sign of the time is lost: one second back reads back as one second on (`iso8601_loses_sign`).
-/

namespace RisingWave.Common

namespace Interval

/-! ## Writing -/

/-- Rust's `Display` of an integer: a `-` when negative, then the decimal digits. -/
def intDigits (x : ℤ) : List Char := (if x < 0 then ['-'] else []) ++ Nat.toDigits 10 x.natAbs

/-- `str::trim_end_matches('0')`. -/
def trimEndZeros (s : List Char) : List Char := (s.reverse.dropWhile (· = '0')).reverse

/-- `{:06}` of a non-negative integer: its digits, after zeros up to six. -/
def zeroPad6 (n : ℕ) : List Char :=
  let d := Nat.toDigits 10 n
  List.replicate (6 - d.length) '0' ++ d

/-- `as_iso_8601`: `P{years}Y{months}M{days}DT{hours}H{minutes}M{seconds}{fract}S`. -/
def asIso8601 (self : Interval) : List Char :=
  let years := self.months.tdiv 12
  let months := self.months.tmod 12
  let days := self.days
  let secsFract := (self.usecs.tmod USECS_PER_SEC).natAbs
  let totalSecs := (self.usecs.tdiv USECS_PER_SEC).natAbs
  let hours := totalSecs / 3600
  let minutes := totalSecs / 60 % 60
  let seconds := totalSecs % 60
  let fractStr := if secsFract ≠ 0 then trimEndZeros ('.' :: zeroPad6 secsFract) else []
  ['P'] ++ intDigits years ++ ['Y'] ++ intDigits months ++ ['M'] ++ intDigits days ++ ['D', 'T'] ++
    intDigits hours ++ ['H'] ++ intDigits minutes ++ ['M'] ++ intDigits seconds ++ fractStr ++
    ['S']

/-! ## Reading -/

/-- `[0-9]+`: the maximal run of ASCII digits at the start, at least one, and the rest. -/
def digitRun (s : List Char) : Option (List Char × List Char) :=
  match s.takeWhile Char.isDigit with
  | [] => none
  | d => some (d, s.drop d.length)

/-- One literal character of the pattern. -/
def expectChar (c : Char) : List Char → Option (List Char)
  | c' :: s => if c' = c then some s else none
  | [] => none

/-- The seconds group `[0-9]+(?:\.[0-9]+)?`: the fraction when a point and a digit follow. -/
def secondsRun (s : List Char) : Option (List Char × List Char) := do
  let (d, rest) ← digitRun s
  match rest with
  | '.' :: r =>
    match digitRun r with
    | some (f, r') => some (d ++ '.' :: f, r')
    | none => some (d, rest)
  | _ => some (d, rest)

/-- The pattern matched at the start of the string: its six groups. -/
def isoMatchAt (s : List Char) : Option (List (List Char)) := do
  let s ← expectChar 'P' s
  let (years, s) ← digitRun s
  let s ← expectChar 'Y' s
  let (months, s) ← digitRun s
  let s ← expectChar 'M' s
  let (days, s) ← digitRun s
  let s ← expectChar 'D' s
  let s ← expectChar 'T' s
  let (hours, s) ← digitRun s
  let s ← expectChar 'H' s
  let (minutes, s) ← digitRun s
  let s ← expectChar 'M' s
  let (seconds, s) ← secondsRun s
  let _ ← expectChar 'S' s
  pure [years, months, days, hours, minutes, seconds]

/-- `ISO_8601_REGEX.captures(s)`: the groups of the leftmost match. -/
def isoCaptures : List Char → Option (List (List Char))
  | [] => none
  | c :: s => (isoMatchAt (c :: s)).or (isoCaptures s)

/-- The value of a run of decimal digits. -/
def digitsValue (d : List Char) : ℕ := d.foldl (fun n c => 10 * n + (c.toNat - '0'.toNat)) 0

/-- `parse::<i32>()` of a run of digits. -/
def parseI32 (d : List Char) : Option {x : ℤ // InI32 x} := checkedI32 (digitsValue d)

/-- `parse::<i64>()` of a run of digits. -/
def parseI64 (d : List Char) : Option {x : ℤ // InI64 x} := checkedI64 (digitsValue d)

/-- `Decimal::from_str_exact` of the seconds group, `checked_mul` by `1000000` and `try_into` an
`i64`: the microseconds, the fraction past them truncated. -/
def secondsToUsecs (secs : List Char) : Option {x : ℤ // InI64 x} :=
  let intPart := secs.takeWhile (· ≠ '.')
  let fracPart := (secs.dropWhile (· ≠ '.')).drop 1
  let mantissa := digitsValue (intPart ++ fracPart)
  let scale := fracPart.length
  if 28 < scale ∨ 2 ^ 96 ≤ mantissa then none
  else if 2 ^ 96 ≤ mantissa * 1000000 then none
  else checkedI64 ((mantissa * 1000000 / 10 ^ scale : ℕ) : ℤ)

/-- The closure of `from_iso_8601`. -/
def fromIso8601Groups (s : List Char) : Option Interval := do
  let [c1, c2, c3, c4, c5, c6] ← isoCaptures s | none
  let years ← parseI32 c1
  let months ← parseI32 c2
  let days ← parseI32 c3
  let hours ← parseI64 c4
  let minutes ← parseI64 c5
  let usecs ← secondsToUsecs c6
  let m ← checkedI32 (years.1 * 12)
  let m ← checkedI32 (m.1 + months.1)
  let h ← checkedI64 (hours.1 * 3600)
  let mi ← checkedI64 (minutes.1 * 60)
  let t ← checkedI64 (h.1 + mi.1)
  let t ← checkedI64 (t.1 * USECS_PER_SEC)
  let u ← checkedI64 (t.1 + usecs.1)
  pure (.ofChecked m days u)

/-- `from_iso_8601`. -/
def fromIso8601 (s : List Char) : Except String Interval :=
  match fromIso8601Groups s with
  | some v => .ok v
  | none => .error ("Invalid interval: " ++ String.ofList s ++
      ", expected format P<years>Y<months>M<days>DT<hours>H<minutes>M<seconds>S")

/-! ## The sign of the time -/

/-- The interval with the microseconds negated, which an `i64` holds but for `i64::MIN`. -/
def negUsecs (v : Interval) (h : InI64 (-v.usecs)) : Interval :=
  ⟨v.months, v.days, -v.usecs, v.months_in, v.days_in, h⟩

/-- The text takes the time from the absolute values of its seconds and their fraction, so
negating the microseconds does not change it. -/
theorem asIso8601_neg_usecs (v : Interval) (h : InI64 (-v.usecs)) :
    asIso8601 (negUsecs v h) = asIso8601 v := by
  simp only [asIso8601, negUsecs, Int.neg_tmod, Int.neg_tdiv, Int.natAbs_neg]

/-- One second on, and one second back. -/
def oneSecond : Interval := ⟨0, 0, 1000000, by decide, by decide, by decide⟩

def minusOneSecond : Interval := ⟨0, 0, -1000000, by decide, by decide, by decide⟩

/-- One month back, whose text has a sign the pattern does not read. -/
def minusOneMonth : Interval := ⟨-1, 0, 0, by decide, by decide, by decide⟩

theorem iso8601_loses_sign :
    asIso8601 minusOneSecond = asIso8601 oneSecond ∧
      asIso8601 oneSecond = "P0Y0M0DT0H0M1S".toList ∧
      fromIso8601 (asIso8601 minusOneSecond) = .ok oneSecond ∧ oneSecond ≠ minusOneSecond ∧
      asIso8601 minusOneMonth = "P0Y-1M0DT0H0M0S".toList ∧
      (fromIso8601 (asIso8601 minusOneMonth)).toOption = none := by
  refine ⟨asIso8601_neg_usecs oneSecond (by decide), by decide, by decide, by decide, by decide,
    by decide⟩

end Interval

end RisingWave.Common
