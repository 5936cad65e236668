import Mathlib.Data.List.TakeWhile
import Mathlib.Order.Basic

/-!
# Intervals

`types/interval.rs`. An `Interval` is months (`i32`), days (`i32`) and microseconds (`i64`),
compared and hashed by the microseconds they add up to (`IntervalCmpValue`). Here each field
is an integer with its range as a field of the structure, and the `checked_*` operations of a
Rust integer type return the result with its range, `none` on overflow. Rust's `/` and `%` on
integers truncate toward zero: `Int.tdiv` and `Int.tmod`.
-/

namespace RisingWave.Common

/-- `i32::MIN`, `i32::MAX`, `i64::MIN`, `i64::MAX`. -/
def I32_MIN : ℤ := -2147483648
def I32_MAX : ℤ := 2147483647
def I64_MIN : ℤ := -9223372036854775808
def I64_MAX : ℤ := 9223372036854775807

/-- The values of an `i32`. -/
def InI32 (x : ℤ) : Prop := I32_MIN ≤ x ∧ x ≤ I32_MAX

/-- The values of an `i64`. -/
def InI64 (x : ℤ) : Prop := I64_MIN ≤ x ∧ x ≤ I64_MAX

instance : DecidablePred InI32 := fun _ => inferInstanceAs (Decidable (_ ∧ _))
instance : DecidablePred InI64 := fun _ => inferInstanceAs (Decidable (_ ∧ _))

/-- A `checked_*` operation on `i32`: the result, `none` when it overflows. -/
def checkedI32 (x : ℤ) : Option {x : ℤ // InI32 x} := if h : InI32 x then some ⟨x, h⟩ else none

/-- A `checked_*` operation on `i64`. -/
def checkedI64 (x : ℤ) : Option {x : ℤ // InI64 x} := if h : InI64 x then some ⟨x, h⟩ else none

theorem checkedI32_eq_some {x : ℤ} (h : InI32 x) : checkedI32 x = some ⟨x, h⟩ := dif_pos h

theorem checkedI64_eq_some {x : ℤ} (h : InI64 x) : checkedI64 x = some ⟨x, h⟩ := dif_pos h

theorem checkedI32_bind {β : Type} {x : ℤ} (h : InI32 x) (f : {x // InI32 x} → Option β) :
    (checkedI32 x).bind f = f ⟨x, h⟩ := by
  rw [checkedI32_eq_some h]
  rfl

theorem checkedI64_bind {β : Type} {x : ℤ} (h : InI64 x) (f : {x // InI64 x} → Option β) :
    (checkedI64 x).bind f = f ⟨x, h⟩ := by
  rw [checkedI64_eq_some h]
  rfl

theorem InI32.inI64 {x : ℤ} (h : InI32 x) : InI64 x := by
  simp only [InI32, InI64, I32_MIN, I32_MAX, I64_MIN, I64_MAX] at h ⊢
  omega

/-- `i64`'s `%`, which panics on a zero divisor and on `i64::MIN % -1`. -/
def checkedRemI64 (a b : ℤ) : Option ℤ :=
  if b = 0 ∨ (a = I64_MIN ∧ b = -1) then none else some (a.tmod b)

/-- `Interval::USECS_PER_SEC`, `USECS_PER_DAY` and `USECS_PER_MONTH` (30 days). -/
def USECS_PER_SEC : ℤ := 1000000
def USECS_PER_DAY : ℤ := 86400 * USECS_PER_SEC
def USECS_PER_MONTH : ℤ := 30 * USECS_PER_DAY

/-- `Interval`: each field in the range of its type. -/
structure Interval where
  months : ℤ
  days : ℤ
  usecs : ℤ
  months_in : InI32 months
  days_in : InI32 days
  usecs_in : InI64 usecs
  deriving DecidableEq

namespace Interval

@[ext] theorem ext {a b : Interval} (hm : a.months = b.months) (hd : a.days = b.days)
    (hu : a.usecs = b.usecs) : a = b := by
  cases a; cases b
  simp_all

/-- The interval of fields that have passed their range checks. -/
def ofChecked (months days : {x : ℤ // InI32 x}) (usecs : {x : ℤ // InI64 x}) : Interval :=
  ⟨months.1, days.1, usecs.1, months.2, days.2, usecs.2⟩

/-- `checked_sub`, field by field. -/
def checkedSub (self other : Interval) : Option Interval := do
  let months ← checkedI32 (self.months - other.months)
  let days ← checkedI32 (self.days - other.days)
  let usecs ← checkedI64 (self.usecs - other.usecs)
  pure ⟨months.1, days.1, usecs.1, months.2, days.2, usecs.2⟩

/-- `checked_mul_int` by a `usize`: the factor as an `i32`, then field by field. -/
def checkedMulInt (self : Interval) (rhs : ℕ) : Option Interval := do
  let rhs ← checkedI32 rhs
  let months ← checkedI32 (self.months * rhs.1)
  let days ← checkedI32 (self.days * rhs.1)
  let usecs ← checkedI64 (self.usecs * rhs.1)
  pure ⟨months.1, days.1, usecs.1, months.2, days.2, usecs.2⟩

/-- One `check_unit` of `exact_div`: `none` to give up, else the quotient so far. -/
def checkUnit (res : Option ℤ) (l r : ℤ) : Option (Option ℤ) :=
  if l = 0 ∧ r = 0 then some res
  else if l ≠ 0 ∧ r = 0 then none
  else
    match checkedRemI64 l r with
    | none => none
    | some rem =>
      if rem ≠ 0 then none
      else
        let newRes := l.tdiv r
        match res with
        | some oldRes => if oldRes ≠ newRes then none else some res
        | none => some (some newRes)

/-- `exact_div`: the one quotient of every unit, `none` where a unit does not divide or the
quotients differ. -/
def exactDiv (self rhs : Interval) : Option ℤ := do
  let res ← checkUnit none self.months rhs.months
  let res ← checkUnit res self.days rhs.days
  let res ← checkUnit res self.usecs rhs.usecs
  res

end Interval

end RisingWave.Common
