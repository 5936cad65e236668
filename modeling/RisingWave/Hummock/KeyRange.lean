import Mathlib
import RisingWave.Hummock.Key
import RisingWave.Storage.MemTable

/-!
# Key ranges of the Hummock state store

`hummock_sdk/src/key.rs`. `range_of_prefix` turns a key prefix into the range of the keys it
starts, ending at the prefix's successor (`next_key`), or unbounded when there is none;
`prefixed_range` puts a prefix in front of both ends of a range; `bound_table_key_range`
lifts a range of table keys to the user keys of one table, ending before the next table. The
ranges are pairs of `std::ops::Bound`, as in the mem table, and a panic is `none`.
-/

namespace RisingWave.Hummock

open RisingWave.Storage

/-- `end_bound_of_prefix`. -/
def endBoundOfPrefix (pfx : List UInt8) : Bound (List UInt8) :=
  match nextKeyNoAlloc pfx with
  | some (s, e) => .excluded (s ++ [e])
  | none => .unbounded

/-- `range_of_prefix`. -/
def rangeOfPrefix (pfx : List UInt8) : Bound (List UInt8) × Bound (List UInt8) :=
  if pfx.isEmpty then (.unbounded, .unbounded)
  else (.included pfx, endBoundOfPrefix pfx)

/-- One end of `prefixed_range`: the prefix put in front of a bound, with `onUnbounded` for an
unbounded end; an empty excluded bound fails its assertion. -/
def prefixedBound (pfx : List UInt8) (onUnbounded : Bound (List UInt8)) :
    Bound (List UInt8) → Option (Bound (List UInt8))
  | .included b => some (.included (pfx ++ b))
  | .excluded b => if b.isEmpty then none else some (.excluded (pfx ++ b))
  | .unbounded => some onUnbounded

/-- `prefixed_range`: an unbounded start is the prefix, an unbounded end the prefix's end. -/
def prefixedRange (range : Bound (List UInt8) × Bound (List UInt8)) (pfx : List UInt8) :
    Option (Bound (List UInt8) × Bound (List UInt8)) := do
  let start ← prefixedBound pfx (.included pfx) range.1
  let endBound ← prefixedBound pfx (endBoundOfPrefix pfx) range.2
  pure (start, endBound)

/-- One end of `bound_table_key_range`: the bound on table keys as one on the table's user
keys, with `onUnbounded` for an unbounded end. -/
def tableKeyBound (tableId : TableId) (onUnbounded : Bound UserKey) :
    Bound (List UInt8) → Bound UserKey
  | .included b => .included ⟨tableId, b⟩
  | .excluded b => .excluded ⟨tableId, b⟩
  | .unbounded => onUnbounded

/-- `bound_table_key_range`: an unbounded start is the table's empty key, an unbounded end the
next table's, or unbounded past `u32::MAX`, where `checked_add(1)` fails. -/
def boundTableKeyRange (tableId : TableId)
    (tableKeyRange : Bound (List UInt8) × Bound (List UInt8)) : Bound UserKey × Bound UserKey :=
  let start := tableKeyBound tableId (.included ⟨tableId, []⟩) tableKeyRange.1
  let endBound := tableKeyBound tableId
    (if tableId.toNat + 1 < 2 ^ 32 then .excluded ⟨tableId + 1, []⟩ else .unbounded)
    tableKeyRange.2
  (start, endBound)

/-! ## The two ends of a range -/

section Ends

variable {K : Type} [LinearOrder K]

attribute [local simp] inRange in
/-- A key is in a range when it is above its start and below its end. -/
theorem inRange_eq_and (s e : Bound K) (x : K) :
    inRange (s, e) x = (inRange (s, .unbounded) x && inRange (.unbounded, e) x) := by
  cases s <;> cases e <;> simp [inRange]

/-- What lies below an end bound lies below it. -/
theorem inRange_unbounded_of_le {e : Bound K} {x z : K} (hxz : x ≤ z)
    (hz : inRange (.unbounded, e) z = true) : inRange (.unbounded, e) x = true := by
  cases e with
  | included b => simp only [inRange, Bool.true_and, decide_eq_true_eq] at hz ⊢; exact hxz.trans hz
  | excluded b => simp only [inRange, Bool.true_and, decide_eq_true_eq] at hz ⊢; exact lt_of_le_of_lt hxz hz
  | unbounded => rfl

end Ends

/-! ## Prefix ranges -/

attribute [local simp] endBoundOfPrefix in
/-- `end_bound_of_prefix` is unbounded exactly when the prefix is all `0xff`. -/
theorem endBoundOfPrefix_eq_unbounded_iff (pfx : List UInt8) :
    endBoundOfPrefix pfx = .unbounded ↔ ∀ b ∈ pfx, b = 0xff := by
  rw [← nextKeyNoAlloc_eq_none_iff, endBoundOfPrefix]
  split <;> simp_all

/-- Below the end of a prefix's range lie the keys below the prefix and those it starts. -/
theorem inRange_endBoundOfPrefix (pfx x : List UInt8) :
    inRange (.unbounded, endBoundOfPrefix pfx) x = true ↔ x < pfx ∨ pfx <+: x := by
  by_cases hnext : nextKey pfx = []
  · -- the prefix is all `0xff`: every key above it extends it
    have hnone : nextKeyNoAlloc pfx = none := by
      rw [nextKey] at hnext
      split at hnext <;> simp_all
    have hall : x < pfx ∨ pfx <+: x := by
      rcases lt_trichotomy x pfx with h | rfl | h
      · exact .inl h
      · exact .inr (List.prefix_refl x)
      · exact .inr (prefix_of_lt_of_nextKey_eq_nil hnext h)
    simp [endBoundOfPrefix, hnone, inRange, hall]
  · have hend : endBoundOfPrefix pfx = .excluded (nextKey pfx) := by
      rw [endBoundOfPrefix, nextKey]
      split <;> simp_all [nextKey]
    have hlt : x < nextKey pfx ↔ x < pfx ∨ pfx <+: x := by
      rw [← not_le, nextKey_le_iff hnext, not_and_or, not_lt, not_not, le_iff_lt_or_eq]
      constructor
      · rintro ((h | rfl) | h)
        · exact .inl h
        · exact .inr (List.prefix_refl x)
        · exact .inr h
      · rintro (h | h)
        · exact .inl (.inl h)
        · exact .inr h
    simp [hend, inRange, hlt]

/-- The keys in a prefix's range are those the prefix starts. -/
theorem inRange_rangeOfPrefix (pfx x : List UInt8) :
    inRange (rangeOfPrefix pfx) x = true ↔ pfx <+: x := by
  by_cases hempty : pfx = []
  · subst hempty
    simp [rangeOfPrefix, inRange]
  · have hstart : inRange (.included pfx, .unbounded) x = true ↔ pfx ≤ x := by simp [inRange]
    rw [rangeOfPrefix, if_neg (by simpa using hempty), inRange_eq_and, Bool.and_eq_true,
      hstart, inRange_endBoundOfPrefix]
    constructor
    · rintro ⟨hle, hlt | hpre⟩
      · exact absurd hle (not_le_of_gt hlt)
      · exact hpre
    · intro hpre
      exact ⟨List.le_of_prefix hpre, .inr hpre⟩

example : inRange (rangeOfPrefix [1, 0xff]) [1, 0xff, 3] = true := by decide
example : inRange (rangeOfPrefix [1, 0xff]) [2] = false := by decide

/-! ## Prefixed ranges -/

attribute [local simp] prefixedBound in
/-- The start of a prefixed range: a prefixed key is above it as the key is above the start
it was made from, and what is above it is above the prefix. -/
theorem prefixedBound_start {pfx : List UInt8} {s s' : Bound (List UInt8)}
    (h : prefixedBound pfx (.included pfx) s = some s') :
    (∀ y, inRange (s', .unbounded) (pfx ++ y) = inRange (s, .unbounded) y) ∧
      ∀ x, inRange (s', .unbounded) x = true → pfx ≤ x := by
  cases s with
  | included b =>
    simp only [prefixedBound, Option.some.injEq] at h
    subst h
    refine ⟨fun y => by simp [inRange, List.append_le_append_left_iff], fun x hx => ?_⟩
    simp only [inRange, Bool.and_true, decide_eq_true_eq] at hx
    exact (List.le_of_prefix (List.prefix_append pfx b)).trans hx
  | excluded b =>
    simp only [prefixedBound] at h
    split at h
    · cases h
    · simp only [Option.some.injEq] at h
      subst h
      refine ⟨fun y => by simp [inRange, List.append_lt_append_left_iff], fun x hx => ?_⟩
      simp only [inRange, Bool.and_true, decide_eq_true_eq] at hx
      exact (List.le_of_prefix (List.prefix_append pfx b)).trans hx.le
  | unbounded =>
    simp only [prefixedBound, Option.some.injEq] at h
    subst h
    refine ⟨fun y => by simp [inRange, List.le_of_prefix (List.prefix_append pfx y)],
      fun x hx => ?_⟩
    simpa [inRange] using hx

/-- The end of a prefixed range: a prefixed key is below it as the key is below the end it
was made from, and what is below it is below the prefix or starts with it. -/
theorem prefixedBound_end {pfx : List UInt8} {e e' : Bound (List UInt8)}
    (h : prefixedBound pfx (endBoundOfPrefix pfx) e = some e') :
    (∀ y, inRange (.unbounded, e') (pfx ++ y) = inRange (.unbounded, e) y) ∧
      ∀ x, inRange (.unbounded, e') x = true → x < pfx ∨ pfx <+: x := by
  -- every bound made from the prefix lies below the prefix's end
  have hbelow (b : List UInt8) : inRange (.unbounded, endBoundOfPrefix pfx) (pfx ++ b) = true :=
    (inRange_endBoundOfPrefix pfx _).mpr (.inr (List.prefix_append pfx b))
  cases e with
  | included b =>
    simp only [prefixedBound, Option.some.injEq] at h
    subst h
    refine ⟨fun y => by simp [inRange, List.append_le_append_left_iff], fun x hx => ?_⟩
    simp only [inRange, Bool.true_and, decide_eq_true_eq] at hx
    exact (inRange_endBoundOfPrefix pfx x).mp (inRange_unbounded_of_le hx (hbelow b))
  | excluded b =>
    simp only [prefixedBound] at h
    split at h
    · cases h
    · simp only [Option.some.injEq] at h
      subst h
      refine ⟨fun y => by simp [inRange, List.append_lt_append_left_iff], fun x hx => ?_⟩
      simp only [inRange, Bool.true_and, decide_eq_true_eq] at hx
      exact (inRange_endBoundOfPrefix pfx x).mp (inRange_unbounded_of_le hx.le (hbelow b))
  | unbounded =>
    simp only [prefixedBound, Option.some.injEq] at h
    subst h
    exact ⟨fun y => by rw [hbelow y]; rfl, fun x => (inRange_endBoundOfPrefix pfx x).mp⟩

theorem prefixedBound_isSome (pfx : List UInt8) (u : Bound (List UInt8)) {b : Bound (List UInt8)}
    (h : ∀ k, b = .excluded k → k ≠ []) : ∃ b', prefixedBound pfx u b = some b' := by
  cases b with
  | excluded k => simp [prefixedBound, h k rfl]
  | _ => simp [prefixedBound]

/-- With its excluded ends non-empty, as asserted, `prefixed_range` holds exactly the prefix
followed by a key of the range. -/
theorem inRange_prefixedRange {range : Bound (List UInt8) × Bound (List UInt8)}
    (hstart : ∀ k, range.1 = .excluded k → k ≠ []) (hend : ∀ k, range.2 = .excluded k → k ≠ [])
    (pfx : List UInt8) :
    ∃ r, prefixedRange range pfx = some r ∧
      ∀ x, inRange r x = true ↔ ∃ y, x = pfx ++ y ∧ inRange range y = true := by
  obtain ⟨s', hs⟩ := prefixedBound_isSome pfx (.included pfx) hstart
  obtain ⟨e', he⟩ := prefixedBound_isSome pfx (endBoundOfPrefix pfx) hend
  obtain ⟨hs₁, hs₂⟩ := prefixedBound_start hs
  obtain ⟨he₁, he₂⟩ := prefixedBound_end he
  refine ⟨(s', e'), by simp [prefixedRange, hs, he], fun x => ?_⟩
  constructor
  · intro hx
    rw [inRange_eq_and, Bool.and_eq_true] at hx
    have hle := hs₂ x hx.1
    -- what lies in the range starts with the prefix
    obtain ⟨y, rfl⟩ : pfx <+: x := (he₂ x hx.2).resolve_left (not_lt_of_ge hle)
    refine ⟨y, rfl, ?_⟩
    rw [inRange_eq_and, ← hs₁, ← he₁, Bool.and_eq_true]
    exact hx
  · rintro ⟨y, rfl, hy⟩
    rw [inRange_eq_and, hs₁, he₁, ← inRange_eq_and]
    exact hy

/-- The ranges of a prefix are exact: `range_of_prefix` holds the keys the prefix starts,
`prefixed_range` the prefix followed by a key of the range, and the end of a prefix's range is
unbounded exactly for a prefix of `0xff` bytes. -/
theorem prefixRanges_exact (pfx : List UInt8) :
    (∀ x, inRange (rangeOfPrefix pfx) x = true ↔ pfx <+: x) ∧
      (∀ range : Bound (List UInt8) × Bound (List UInt8),
        (∀ k, range.1 = .excluded k → k ≠ []) → (∀ k, range.2 = .excluded k → k ≠ []) →
        ∃ r, prefixedRange range pfx = some r ∧
          ∀ x, inRange r x = true ↔ ∃ y, x = pfx ++ y ∧ inRange range y = true) ∧
      (endBoundOfPrefix pfx = .unbounded ↔ ∀ b ∈ pfx, b = 0xff) :=
  ⟨inRange_rangeOfPrefix pfx, fun _ hstart hend => inRange_prefixedRange hstart hend pfx,
    endBoundOfPrefix_eq_unbounded_iff pfx⟩

theorem prefixRanges_exact_after_one :
    ∃ r, prefixedRange (.excluded [1], .unbounded) [0xff] = some r ∧
      ∀ x, inRange r x = true ↔ ∃ y, x = [0xff] ++ y ∧ inRange (.excluded [1], .unbounded) y = true :=
  (prefixRanges_exact [0xff]).2.1 _ (by simp) (by simp)

/-! ## Table key ranges -/

attribute [local simp] tableKeyBound in
/-- The start of a table key range, on a user key. -/
theorem inRange_tableKeyBound_start (tableId : TableId) (s : Bound (List UInt8)) (k : UserKey) :
    inRange (tableKeyBound tableId (.included ⟨tableId, []⟩) s, .unbounded) k = true ↔
      tableId < k.tableId ∨ tableId = k.tableId ∧ inRange (s, .unbounded) k.tableKey = true := by
  cases s <;> simp [tableKeyBound, inRange, UserKey.le_iff, UserKey.lt_iff,
    List.le_of_prefix (List.nil_prefix (l := k.tableKey))]

/-- The first user key of the next table is above exactly the user keys of tables up to this
one. -/
theorem lt_nextTable_iff {tableId : TableId} (h : tableId.toNat + 1 < 2 ^ 32) (k : UserKey) :
    k < ⟨tableId + 1, []⟩ ↔ k.tableId < tableId ∨ k.tableId = tableId := by
  have hlt : k.tableId < tableId + 1 ↔ k.tableId < tableId ∨ k.tableId = tableId := by
    rw [← le_iff_lt_or_eq, UInt32.lt_iff_toNat_lt, UInt32.le_iff_toNat_le, UInt32.toNat_add,
      UInt32.toNat_one, Nat.mod_eq_of_lt h]
    omega
  simp [UserKey.lt_iff, hlt]

/-- The end of a table key range, on a user key. -/
theorem inRange_tableKeyBound_end (tableId : TableId) (e : Bound (List UInt8)) (k : UserKey) :
    inRange (.unbounded, tableKeyBound tableId
        (if tableId.toNat + 1 < 2 ^ 32 then .excluded ⟨tableId + 1, []⟩ else .unbounded) e) k =
        true ↔
      k.tableId < tableId ∨ k.tableId = tableId ∧ inRange (.unbounded, e) k.tableKey = true := by
  cases e with
  | unbounded =>
    split
    · rename_i h
      simp [tableKeyBound, inRange, lt_nextTable_iff h]
    · -- the table is `u32::MAX`, which every table id is at most
      rename_i h
      have hle : k.tableId ≤ tableId := by
        rw [UInt32.le_iff_toNat_le]
        have := k.tableId.toNat_lt
        omega
      simp [tableKeyBound, inRange, le_iff_lt_or_eq.mp hle]
  | _ => simp [tableKeyBound, inRange, UserKey.le_iff, UserKey.lt_iff]

/-- `bound_table_key_range` holds exactly the user keys of the table whose table key is in the
range, for every table id, `u32::MAX` included. -/
theorem inRange_boundTableKeyRange (tableId : TableId)
    (tableKeyRange : Bound (List UInt8) × Bound (List UInt8)) (tableId' : TableId)
    (tableKey : List UInt8) :
    inRange (boundTableKeyRange tableId tableKeyRange) ⟨tableId', tableKey⟩ = true ↔
      tableId' = tableId ∧ inRange tableKeyRange tableKey = true := by
  obtain ⟨s, e⟩ := tableKeyRange
  rw [boundTableKeyRange, inRange_eq_and, Bool.and_eq_true, inRange_tableKeyBound_start,
    inRange_tableKeyBound_end, inRange_eq_and s e, Bool.and_eq_true]
  constructor
  · rintro ⟨h₁ | ⟨rfl, hs⟩, h₂ | ⟨h, he⟩⟩
    · exact absurd (h₁.trans h₂) (lt_irrefl _)
    · exact absurd (h ▸ h₁) (lt_irrefl _)
    · exact absurd h₂ (lt_irrefl _)
    · exact ⟨rfl, hs, he⟩
  · rintro ⟨rfl, hs, he⟩
    exact ⟨.inr ⟨rfl, hs⟩, .inr ⟨rfl, he⟩⟩

-- the cases of `test_bound_table_key_range`
example : boundTableKeyRange 0 (.included [97], .included [98]) =
    (.included ⟨0, [97]⟩, .included ⟨0, [98]⟩) := by decide
example : boundTableKeyRange 1 (.included [97], .unbounded) =
    (.included ⟨1, [97]⟩, .excluded ⟨2, []⟩) := by decide
example : boundTableKeyRange 4294967295 (.included [97], .unbounded) =
    (.included ⟨4294967295, [97]⟩, .unbounded) := by decide

end RisingWave.Hummock
