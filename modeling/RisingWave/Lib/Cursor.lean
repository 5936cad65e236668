import Mathlib
import RisingWave.Lib.Prefix

/-!
# Forward cursors over sorted entry lists

A forward iterator over key-value entries in ascending key order, as the
iterator interfaces of a storage engine expose it: `rewind` goes to the first
entry, `seek k` to the first entry whose key is at least `k`, `next` one entry
on, and `current?` is the entry under the cursor, `none` once it has run off
the end (`is_valid` is false).

Everything about a cursor is said through `remaining`, the entries from the
cursor on: `rewind` makes it the whole list, `seek k` drops the entries below
`k`, `next` its head.
-/

/-- A cursor over `entries`, at index `pos`. -/
structure Cursor (κ ν : Type*) where
  entries : List (κ × ν)
  pos : ℕ
  deriving DecidableEq

namespace Cursor

variable {κ ν : Type*}

/-- The entry under the cursor. -/
def current? (c : Cursor κ ν) : Option (κ × ν) := c.entries[c.pos]?

/-- The cursor is on an entry. -/
def isValid (c : Cursor κ ν) : Bool := c.pos < c.entries.length

/-- One entry on. -/
def next (c : Cursor κ ν) : Cursor κ ν := { c with pos := c.pos + 1 }

/-- Back to the first entry. -/
def rewind (c : Cursor κ ν) : Cursor κ ν := { c with pos := 0 }

/-- To the first entry whose key is at least `k`. -/
def seek [LinearOrder κ] (c : Cursor κ ν) (k : κ) : Cursor κ ν :=
  { c with pos := c.entries.partitionPoint fun e => e.1 < k }

/-- The entries from the cursor on. -/
def remaining (c : Cursor κ ν) : List (κ × ν) := c.entries.drop c.pos

attribute [local simp] remaining in
@[simp] theorem current?_eq_head? (c : Cursor κ ν) : c.current? = c.remaining.head? := by
  simp [current?, remaining, List.head?_drop]

@[simp] theorem isValid_iff (c : Cursor κ ν) : c.isValid = true ↔ c.remaining ≠ [] := by
  simp [isValid, remaining]

@[simp] theorem remaining_next (c : Cursor κ ν) : c.next.remaining = c.remaining.tail := by
  simp [next, remaining, List.tail_drop]

@[simp] theorem remaining_rewind (c : Cursor κ ν) : c.rewind.remaining = c.entries := by
  simp [rewind, remaining]

@[simp] theorem next_entries (c : Cursor κ ν) : c.next.entries = c.entries := rfl

@[simp] theorem rewind_entries (c : Cursor κ ν) : c.rewind.entries = c.entries := rfl

theorem remaining_seek [LinearOrder κ] (c : Cursor κ ν) (k : κ) :
    (c.seek k).remaining = c.entries.dropWhile fun e => e.1 < k := by
  simp only [seek, remaining, List.drop_partitionPoint]

/-- On entries with ascending keys, `seek k` keeps the entries from `k` on. -/
theorem remaining_seek_of_sorted [LinearOrder κ] (c : Cursor κ ν) (k : κ)
    (h : (c.entries.map Prod.fst).Pairwise (· < ·)) :
    (c.seek k).remaining = c.entries.filter fun e => k ≤ e.1 := by
  -- Keys below `k` form a prefix of the entries.
  have hp : c.entries.Pairwise fun a b => decide (b.1 < k) → decide (a.1 < k) := by
    refine (List.pairwise_map.mp h).imp fun hab hb => ?_
    simpa using hab.trans (of_decide_eq_true hb)
  rw [remaining_seek, List.dropWhile_eq_filter_not hp]
  exact List.filter_congr fun e _ => by simp [← not_lt]

theorem remaining_sublist (c : Cursor κ ν) : c.remaining.Sublist c.entries :=
  List.drop_sublist _ _

@[simp] theorem seek_entries [LinearOrder κ] (c : Cursor κ ν) (k : κ) :
    (c.seek k).entries = c.entries := rfl

end Cursor
