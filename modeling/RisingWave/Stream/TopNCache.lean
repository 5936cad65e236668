import Mathlib
import RisingWave.Lib.OrderedMap
import RisingWave.Stream.Chunk

/-!
# The TopN cache

`executor/top_n/top_n_cache.rs`, `top_n_state.rs`, `top_n_plain.rs` and
`top_n_appendonly.rs`. A `TopNCache` holds three ordered maps over the rows of
the state table: `low` for the ranks `[0, offset)`, `middle` for
`[offset, offset + limit)` (with the ties of its last row under `WITH_TIES`) and
`high`, a lazily refilled run of the rows after `middle`. Every change to
`middle` is recorded as an `(Op, row)` pair, which is the executor's output.

A `CacheKey` is the memcomparable encoding of the order-by columns, then of the
rest of the pk, compared as a pair; here a pair in `σ ×ₗ π`, with `⊥ : π` the
empty encoding. The state table is read through `iter_with_pk_prefix`, in the
order of its storage key, which the cache key encodes; it is the list of its
rows keyed by cache key. `assert!`s and `unwrap`s of `None` are `none`;
`debug_assert!`s are left out.
-/

namespace RisingWave.Stream

open SortedMap

/-- `usize::MAX`. -/
def USIZE_MAX : ℕ := 2 ^ 64 - 1

/-- `TOPN_CACHE_HIGH_CAPACITY_FACTOR`. -/
def TOPN_CACHE_HIGH_CAPACITY_FACTOR : ℕ := 2

variable {σ π ρ : Type} [LinearOrder σ] [LinearOrder π]

/-- `TopNCacheState`: a `BTreeMap<CacheKey, CompactedRow>`. -/
abbrev TopNCacheState (σ π ρ : Type) [LinearOrder σ] [LinearOrder π] := SortedMap (σ ×ₗ π) ρ

/-- `TopNCache<WITH_TIES>`. `limit` is never zero (`new` asserts it), and so neither is
`high_capacity`. -/
structure TopNCache (withTies : Bool) (σ π ρ : Type) [LinearOrder σ] [LinearOrder π] where
  low : TopNCacheState σ π ρ
  middle : TopNCacheState σ π ρ
  high : TopNCacheState σ π ρ
  highCapacity : ℕ
  offset : ℕ
  limit : ℕ
  limit_pos : 0 < limit
  highCapacity_pos : 0 < highCapacity

/-- `offset.checked_add(limit).and_then(|v| v.checked_mul(TOPN_CACHE_HIGH_CAPACITY_FACTOR))
.unwrap_or(usize::MAX)`. -/
def highCapacityFor (offset limit : ℕ) : ℕ :=
  if offset + limit ≤ USIZE_MAX ∧ (offset + limit) * TOPN_CACHE_HIGH_CAPACITY_FACTOR ≤ USIZE_MAX
  then (offset + limit) * TOPN_CACHE_HIGH_CAPACITY_FACTOR
  else USIZE_MAX

theorem highCapacityFor_pos (offset : ℕ) {limit : ℕ} (h : 0 < limit) :
    0 < highCapacityFor offset limit := by
  unfold highCapacityFor TOPN_CACHE_HIGH_CAPACITY_FACTOR USIZE_MAX
  split <;> omega

namespace TopNCache

variable {wt : Bool}

/-- `TopNCache::new`: a zero `limit`, or an `offset` with `WITH_TIES`, panics. -/
def new (offset limit : ℕ) : Option (TopNCache wt σ π ρ) :=
  if h : limit = 0 then none
  else if wt ∧ offset ≠ 0 then none
  else some
    { low := .empty, middle := .empty, high := .empty
      highCapacity := highCapacityFor offset limit, offset, limit
      limit_pos := Nat.pos_of_ne_zero h
      highCapacity_pos := highCapacityFor_pos offset (Nat.pos_of_ne_zero h) }

/-- A cache that `new` makes is empty. -/
theorem new_spec {offset limit : ℕ} (hlimit : 0 < limit) (hwt : wt = true → offset = 0) :
    ∃ c : TopNCache wt σ π ρ, new offset limit = some c ∧ c.offset = offset ∧ c.limit = limit ∧
      c.low.entries = [] ∧ c.middle.entries = [] ∧ c.high.entries = [] := by
  have hne : ¬ (wt = true ∧ offset ≠ 0) := fun h => h.2 (hwt h.1)
  unfold new
  rw [dif_neg (Nat.pos_iff_ne_zero.mp hlimit), if_neg hne]
  exact ⟨_, rfl, rfl, rfl, rfl, rfl, rfl⟩

/-- `is_low_cache_full`. -/
def isLowCacheFull (c : TopNCache wt σ π ρ) : Option Bool := do
  guard (c.low.len ≤ c.offset)
  let full := decide (c.low.len = c.offset)
  if !full then
    guard c.middle.isEmpty
    guard c.high.isEmpty
  pure full

/-- `is_middle_cache_full`. -/
def isMiddleCacheFull (c : TopNCache wt σ π ρ) : Option Bool := do
  -- With ties the middle cache can exceed the capacity.
  if !wt then guard (c.middle.len ≤ c.limit)
  let full := decide (c.limit ≤ c.middle.len)
  if full then guard ((← c.isLowCacheFull) = true)
  else guard c.high.isEmpty
  pure full

/-- `is_high_cache_full`. -/
def isHighCacheFull (c : TopNCache wt σ π ρ) : Option Bool := do
  if !wt then guard (c.high.len ≤ c.highCapacity)
  pure (decide (c.highCapacity ≤ c.high.len))

/-- `insert_high_cache`: a row from `middle` always goes in while `high` is not full; a
direct insert only below `high`'s largest key, so that `high` stays a run of the rows
after `middle`. -/
def insertHighCache (c : TopNCache wt σ π ρ) (cacheKey : σ ×ₗ π) (row : ρ) (isFromMiddle : Bool) :
    Option (TopNCache wt σ π ρ) := do
  if !(← c.isHighCacheFull) then
    if isFromMiddle then
      return { c with high := c.high.insert cacheKey row }
    match c.high.last? with
    | some highLast =>
      if cacheKey ≤ highLast.1 then return { c with high := c.high.insert cacheKey row }
      else return c
    | none => return c
  else
    let (highLast, high) ← c.high.popLast
    if cacheKey ≤ highLast.1 then return { c with high := high.insert cacheKey row }
    else return c

/-- The row `insert` passes on from a full `low`: `low`'s last row when the new row sorts
at or below it and takes its place, the new row otherwise. -/
def exchangeLowLast (c : TopNCache wt σ π ρ) (cacheKey : σ ×ₗ π) (row : ρ) :
    TopNCache wt σ π ρ × ((σ ×ₗ π) × ρ) :=
  match c.low.popLast with
  | some (lowLast, low) =>
    if cacheKey ≤ lowLast.1 then ({ c with low := low.insert cacheKey row }, lowLast)
    else (c, (cacheKey, row))
  | none => (c, (cacheKey, row))

/-- `TopNCache::<false>::insert`, with the changes to `middle` it records. -/
def insert (c : TopNCache false σ π ρ) (cacheKey : σ ×ₗ π) (row : ρ) :
    Option (TopNCache false σ π ρ × List (Op × ρ)) := do
  if !(← c.isLowCacheFull) then
    return ({ c with low := c.low.insert cacheKey row }, [])
  let (c, elem) := c.exchangeLowLast cacheKey row
  if !(← c.isMiddleCacheFull) then
    return ({ c with middle := c.middle.insert elem.1 elem.2 }, [(.insert, elem.2)])
  let (middleLast, middle) ← c.middle.popLast
  if elem.1 ≤ middleLast.1 then
    -- The row is in `[offset, offset + limit)`: `middle`'s largest row moves to `high`.
    let c ← { c with middle := middle.insert elem.1 elem.2 }.insertHighCache
      middleLast.1 middleLast.2 true
    return (c, [(.delete, middleLast.2), (.insert, elem.2)])
  else
    let c ← c.insertHighCache elem.1 elem.2 false
    return (c, [])

/-! ## Reading the state table -/

/-- The scan loops of `fill_high_cache` and `init_topn_cache`: the rows above `startKey`
go into `cache` until it holds `n` rows; the rows the scan has not reached are returned. -/
def scanInto (startKey : Option (σ ×ₗ π)) (n : ℕ) (cache : TopNCacheState σ π ρ) :
    List ((σ ×ₗ π) × ρ) → TopNCacheState σ π ρ × List ((σ ×ₗ π) × ρ)
  | [] => (cache, [])
  | (k, r) :: rest =>
    if startKey.any (k ≤ ·) then scanInto startKey n cache rest
    else
      let cache := cache.insert k r
      if cache.len = n then (cache, rest) else scanInto startKey n cache rest

/-- The loops that add the rows of order-by key `sortKey`, up to the first other row. -/
def tiesScan (sortKey : σ) (cache : TopNCacheState σ π ρ) :
    List ((σ ×ₗ π) × ρ) → TopNCacheState σ π ρ
  | [] => cache
  | (k, r) :: rest => if (ofLex k).1 = sortKey then tiesScan sortKey (cache.insert k r) rest else cache

/-- `ManagedTopNState::fill_high_cache` over the state table's rows `table`. -/
def fillHighCache (table : List ((σ ×ₗ π) × ρ)) (c : TopNCache wt σ π ρ)
    (startKey : Option (σ ×ₗ π)) (cacheSizeLimit : ℕ) : Option (TopNCache wt σ π ρ) := do
  let (high, rest) := scanInto startKey cacheSizeLimit c.high table
  let c := { c with high }
  if wt then
    if ← c.isHighCacheFull then
      let highLast ← c.high.last?
      return { c with high := tiesScan (ofLex highLast.1).1 c.high rest }
  return c

/-- The `WITH_TIES` loop of `init_topn_cache` after `middle` is full: the ties of
`middle`'s last row join it, and the first other row goes to `high`. -/
def initTiesMiddle (sortKey : σ) (c : TopNCache wt σ π ρ) :
    List ((σ ×ₗ π) × ρ) → TopNCache wt σ π ρ × List ((σ ×ₗ π) × ρ)
  | [] => (c, [])
  | (k, r) :: rest =>
    if (ofLex k).1 = sortKey then initTiesMiddle sortKey { c with middle := c.middle.insert k r } rest
    else ({ c with high := c.high.insert k r }, rest)

/-- `while !is_high_cache_full() && let Some(item) = state_table_iter.next().await`. -/
def initHighScan (c : TopNCache wt σ π ρ) :
    List ((σ ×ₗ π) × ρ) → Option (TopNCache wt σ π ρ × List ((σ ×ₗ π) × ρ))
  | [] => do
    let _ ← c.isHighCacheFull
    return (c, [])
  | (k, r) :: rest => do
    if ← c.isHighCacheFull then return (c, (k, r) :: rest)
    initHighScan { c with high := c.high.insert k r } rest

/-- `ManagedTopNState::init_topn_cache` over the state table's rows `table`. The asserts
`limit > 0` and `high_capacity > 0` hold by the fields of `TopNCache`. -/
def initTopNCache (table : List ((σ ×ₗ π) × ρ)) (c : TopNCache wt σ π ρ) :
    Option (TopNCache wt σ π ρ) := do
  guard c.low.isEmpty
  guard c.middle.isEmpty
  guard c.high.isEmpty
  let (low, rest) := if 0 < c.offset then scanInto none c.offset c.low table else (c.low, table)
  let (middle, rest) := scanInto none c.limit c.middle rest
  let c := { c with low, middle }
  let (c, rest) ← do
    if wt then
      if ← c.isMiddleCacheFull then
        let middleLast ← c.middle.last?
        pure (c.initTiesMiddle (ofLex middleLast.1).1 rest)
      else pure (c, rest)
    else pure (c, rest)
  let (c, rest) ← c.initHighScan rest
  if wt then
    if ← c.isHighCacheFull then
      let highLast ← c.high.last?
      return { c with high := tiesScan (ofLex highLast.1).1 c.high rest }
  return c

/-- Over an empty state table an empty cache stays empty. -/
theorem initTopNCache_nil {c : TopNCache wt σ π ρ} (hl : c.low.entries = [])
    (hm : c.middle.entries = []) (hh : c.high.entries = []) : c.initTopNCache [] = some c := by
  cases wt <;> simp [initTopNCache, scanInto, initHighScan, isHighCacheFull, isMiddleCacheFull,
    isEmpty_of_entries_eq_nil, hl, hm, hh, len_eq, c.limit_pos.ne', c.highCapacity_pos.ne']

/-! ## Deletes -/

/-- `if self.high.is_empty() { fill_high_cache(.., Some(middle's last key), high_capacity) }`. -/
def refillHigh (table : List ((σ ×ₗ π) × ρ)) (c : TopNCache wt σ π ρ) :
    Option (TopNCache wt σ π ρ) :=
  if c.high.isEmpty then do
    let middleLast ← c.middle.last?
    c.fillHighCache table (some middleLast.1) c.highCapacity
  else pure c

/-- "Bring one element, if any, from high cache to middle cache". -/
def promoteHighFirst (c : TopNCache wt σ π ρ) : TopNCache wt σ π ρ × List (Op × ρ) :=
  match c.high.popFirst with
  | some (highFirst, high) =>
    ({ c with high, middle := c.middle.insert highFirst.1 highFirst.2 }, [(.insert, highFirst.2)])
  | none => (c, [])

/-- `TopNCache::<false>::delete`; `table` is the state table, which has already lost the row. -/
def delete (table : List ((σ ×ₗ π) × ρ)) (c : TopNCache false σ π ρ) (cacheKey : σ ×ₗ π)
    (row : ρ) : Option (TopNCache false σ π ρ × List (Op × ρ)) := do
  let inHigh ← do
    if ← c.isMiddleCacheFull then
      let middleLast ← c.middle.last?
      pure (decide (middleLast.1 < cacheKey))
    else pure false
  if inHigh then
    return ({ c with high := c.high.erase cacheKey }, [])
  let inMiddle ← do
    if ← c.isLowCacheFull then
      if c.offset = 0 then pure true
      else
        let lowLast ← c.low.last?
        pure (decide (lowLast.1 < cacheKey))
    else pure false
  if inMiddle then
    let c ← c.refillHigh table
    let (c, ops) := promoteHighFirst { c with middle := c.middle.erase cacheKey }
    return (c, (.delete, row) :: ops)
  -- The row is in `low`: `middle`'s first row moves down.
  let c := { c with low := c.low.erase cacheKey }
  match c.middle.popFirst with
  | none => return (c, [])
  | some (middleFirst, middle) =>
    let c := { c with middle, low := c.low.insert middleFirst.1 middleFirst.2 }
    let c ← c.refillHigh table
    let (c, ops) := c.promoteHighFirst
    return (c, (.delete, middleFirst.2) :: ops)

/-! ## With ties -/

/-- The `while let` loop over `middle`'s last entries: those of order-by key `o` are
removed, last first, and returned in that order. One pass per entry is enough. -/
def popTiesLoop (o : σ) : ℕ → TopNCacheState σ π ρ → TopNCacheState σ π ρ × List ((σ ×ₗ π) × ρ)
  | 0, m => (m, [])
  | n + 1, m =>
    match m.popLast with
    | some (last, m') =>
      if (ofLex last.1).1 = o then
        let r := popTiesLoop o n m'
        (r.1, last :: r.2)
      else (m, [])
    | none => (m, [])

/-- `middle`'s trailing rows of order-by key `o`, removed. -/
def popTies (o : σ) (m : TopNCacheState σ π ρ) : TopNCacheState σ π ρ × List ((σ ×ₗ π) × ρ) :=
  popTiesLoop o m.len m

/-- `TopNCache::<true>::insert`. -/
def insertWithTies [OrderBot π] (c : TopNCache true σ π ρ) (cacheKey : σ ×ₗ π) (row : ρ) :
    Option (TopNCache true σ π ρ × List (Op × ρ)) := do
  guard c.low.isEmpty
  if !(← c.isMiddleCacheFull) then
    return ({ c with middle := c.middle.insert cacheKey row }, [(.insert, row)])
  let middleLast ← c.middle.last?
  let middleLastOrderBy := (ofLex middleLast.1).1
  match compare (ofLex cacheKey).1 middleLastOrderBy with
  | .lt =>
    let numTies := c.middle.countFrom (toLex (middleLastOrderBy, ⊥))
    -- The last row and its ties leave only if `limit - 1` other rows remain.
    let (middle, evicted) :=
      if c.limit ≤ c.middle.len - numTies + 1 then popTies middleLastOrderBy c.middle
      else (c.middle, [])
    let c : TopNCache true σ π ρ := { c with middle, high := evicted.foldl (fun (h : TopNCacheState σ π ρ) (e : (σ ×ₗ π) × ρ) => h.insert e.1 e.2) c.high }
    let c ← do
      if c.highCapacity ≤ c.high.len then
        let (highLast, high) ← c.high.popLast
        pure { c with high := high.retain fun k => (ofLex k).1 ≠ (ofLex highLast.1).1 }
      else pure c
    return ({ c with middle := c.middle.insert cacheKey row },
      evicted.map (fun (e : (σ ×ₗ π) × ρ) => (.delete, e.2)) ++ [(.insert, row)])
  | .eq => return ({ c with middle := c.middle.insert cacheKey row }, [(.insert, row)])
  | .gt =>
    let c ← c.insertHighCache cacheKey row false
    return (c, [])

/-- `TopNCache::<true>::delete`; `table` is the state table, which has already lost the row. -/
def deleteWithTies (table : List ((σ ×ₗ π) × ρ)) (c : TopNCache true σ π ρ)
    (cacheKey : σ ×ₗ π) (row : ρ) : Option (TopNCache true σ π ρ × List (Op × ρ)) := do
  let middleLast ← c.middle.last?
  let middleLastOrderBy := (ofLex middleLast.1).1
  if middleLastOrderBy < (ofLex cacheKey).1 then
    return ({ c with high := c.high.erase cacheKey }, [])
  let c := { c with middle := c.middle.erase cacheKey }
  -- With ties `middle` can still hold `limit` rows.
  if c.limit ≤ c.middle.len then return (c, [(.delete, row)])
  let c ← if c.high.isEmpty then
      c.fillHighCache table (c.middle.last?.map Prod.fst) c.highCapacity
    else pure c
  match c.high.popFirst with
  | none => return (c, [(.delete, row)])
  | some (highFirst, high) =>
    let highFirstOrderBy := (ofLex highFirst.1).1
    guard (middleLastOrderBy < highFirstOrderBy)
    -- `drain_filter` hands over every row of `high_first_order_by`.
    let ties := high.entries.filter fun e => (ofLex e.1).1 = highFirstOrderBy
    let middle := ties.foldl (fun m e => m.insert e.1 e.2) (c.middle.insert highFirst.1 highFirst.2)
    return ({ c with high := high.retain fun k => (ofLex k).1 ≠ highFirstOrderBy, middle },
      [(.delete, row), (.insert, highFirst.2)] ++ ties.map fun e => (.insert, e.2))

/-! ## Append-only TopN -/

/-- `AppendOnlyTopNCacheTrait::insert` for `TopNCache<false>`. The managed state table
`table` keeps the rows of `low` and `middle` only. -/
def appendOnlyInsert (table : TopNCacheState σ π ρ) (c : TopNCache false σ π ρ)
    (cacheKey : σ ×ₗ π) (row : ρ) :
    Option (TopNCacheState σ π ρ × TopNCache false σ π ρ × List (Op × ρ)) := do
  if ← c.isMiddleCacheFull then
    let middleLast ← c.middle.last?
    if middleLast.1 ≤ cacheKey then return (table, c, [])
  let table := table.insert cacheKey row
  if !(← c.isLowCacheFull) then
    return (table, { c with low := c.low.insert cacheKey row }, [])
  let (c, elem) := c.exchangeLowLast cacheKey row
  if !(← c.isMiddleCacheFull) then
    return (table, { c with middle := c.middle.insert elem.1 elem.2 }, [(.insert, elem.2)])
  -- `middle`'s largest row leaves for good.
  let (middleLast, middle) ← c.middle.popLast
  return (table.erase middleLast.1, { c with middle := middle.insert elem.1 elem.2 },
    [(.delete, middleLast.2), (.insert, elem.2)])

/-- `AppendOnlyTopNCacheTrait::insert` for `TopNCache<true>`. -/
def appendOnlyInsertWithTies [OrderBot π] (table : TopNCacheState σ π ρ) (c : TopNCache true σ π ρ)
    (cacheKey : σ ×ₗ π) (row : ρ) :
    Option (TopNCacheState σ π ρ × TopNCache true σ π ρ × List (Op × ρ)) := do
  guard c.low.isEmpty
  if !(← c.isMiddleCacheFull) then
    return (table.insert cacheKey row, { c with middle := c.middle.insert cacheKey row },
      [(.insert, row)])
  let middleLast ← c.middle.last?
  let middleLastOrderBy := (ofLex middleLast.1).1
  match compare (ofLex cacheKey).1 middleLastOrderBy with
  | .lt =>
    let numTies := c.middle.countFrom (toLex (middleLastOrderBy, ⊥))
    let (middle, evicted) :=
      if c.limit ≤ c.middle.len - numTies + 1 then popTies middleLastOrderBy c.middle
      else (c.middle, [])
    let table := evicted.foldl (fun t e => t.erase e.1) table
    return (table.insert cacheKey row, { c with middle := middle.insert cacheKey row },
      evicted.map (fun (e : (σ ×ₗ π) × ρ) => (.delete, e.2)) ++ [(.insert, row)])
  | .eq =>
    return (table.insert cacheKey row, { c with middle := c.middle.insert cacheKey row },
      [(.insert, row)])
  | .gt => return (table, c, [])

end TopNCache

/-! ## The executors -/

/-- One row of `InnerTopNExecutor::apply_chunk`: the state table first, then the cache's
`insert` or `delete`; the changes to `middle` are appended to `out`. -/
def applyTopNRow {wt : Bool}
    (insert : TopNCache wt σ π ρ → σ ×ₗ π → ρ → Option (TopNCache wt σ π ρ × List (Op × ρ)))
    (delete : List ((σ ×ₗ π) × ρ) → TopNCache wt σ π ρ → σ ×ₗ π → ρ →
      Option (TopNCache wt σ π ρ × List (Op × ρ)))
    (cacheKey : ρ → σ ×ₗ π) (s : TopNCacheState σ π ρ × TopNCache wt σ π ρ × List (Op × ρ))
    (opRow : Op × ρ) : Option (TopNCacheState σ π ρ × TopNCache wt σ π ρ × List (Op × ρ)) :=
  let (table, cache, out) := s
  let (op, row) := opRow
  match op with
  | .insert | .updateInsert => do
    let table := table.insert (cacheKey row) row
    let (cache, ops) ← insert cache (cacheKey row) row
    return (table, cache, out ++ ops)
  | .delete | .updateDelete => do
    let table := table.erase (cacheKey row)
    let (cache, ops) ← delete table.entries cache (cacheKey row) row
    return (table, cache, out ++ ops)

/-- `InnerTopNExecutor::apply_chunk`. -/
def applyTopNChunk {wt : Bool}
    (insert : TopNCache wt σ π ρ → σ ×ₗ π → ρ → Option (TopNCache wt σ π ρ × List (Op × ρ)))
    (delete : List ((σ ×ₗ π) × ρ) → TopNCache wt σ π ρ → σ ×ₗ π → ρ →
      Option (TopNCache wt σ π ρ × List (Op × ρ)))
    (cacheKey : ρ → σ ×ₗ π) (table : TopNCacheState σ π ρ) (cache : TopNCache wt σ π ρ)
    (chunk : List (Op × ρ)) : Option (TopNCacheState σ π ρ × TopNCache wt σ π ρ × List (Op × ρ)) :=
  chunk.foldlM (applyTopNRow insert delete cacheKey) (table, cache, [])

/-- `AppendOnlyTopNExecutor::apply_chunk`: every row is an insert. -/
def applyAppendOnlyChunk {wt : Bool}
    (insert : TopNCacheState σ π ρ → TopNCache wt σ π ρ → σ ×ₗ π → ρ →
      Option (TopNCacheState σ π ρ × TopNCache wt σ π ρ × List (Op × ρ)))
    (cacheKey : ρ → σ ×ₗ π) (table : TopNCacheState σ π ρ) (cache : TopNCache wt σ π ρ)
    (rows : List ρ) : Option (TopNCacheState σ π ρ × TopNCache wt σ π ρ × List (Op × ρ)) :=
  rows.foldlM (fun s row => do
    let (table, cache, ops) ← insert s.1 s.2.1 (cacheKey row) row
    return (table, cache, s.2.2 ++ ops)) (table, cache, [])

end RisingWave.Stream
